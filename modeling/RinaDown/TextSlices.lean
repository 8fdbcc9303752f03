import Mathlib.Data.Int.NatAbs
import Mathlib.Data.List.Infix

/-!
# Places in a text

A place in a text is the number of bytes before it. Only places between characters cut the
text.
-/

namespace RinaDown.TextSlices
open List Option

def byteLen (text : List Char) : ℕ := (text.map Char.utf8Size).sum

def sliceFrom : List Char → ℕ → Option (List Char)
  | text, 0 => some text
  | [], _ + 1 => none
  | c :: text, pos + 1 =>
      if c.utf8Size ≤ pos + 1 then sliceFrom text (pos + 1 - c.utf8Size) else none

def sliceTo : List Char → ℕ → Option (List Char)
  | _, 0 => some []
  | [], _ + 1 => none
  | c :: text, pos + 1 =>
      if c.utf8Size ≤ pos + 1 then (sliceTo text (pos + 1 - c.utf8Size)).map (c :: ·) else none

def slice (text : List Char) (start stop : ℕ) : Option (List Char) :=
  (sliceFrom text start).bind fun rest => sliceTo rest (stop - start)

def encode (text : List Char) : List UInt8 := text.flatMap String.utf8EncodeChar

def find (part : List Char) : List Char → Option ℕ
  | [] => if part.isEmpty then some 0 else none
  | c :: text =>
      if part.isPrefixOf (c :: text) then some 0
      else (find part text).map (c.utf8Size + ·)

variable {text l r part : List Char} {pos : ℕ} {c : Char}

@[simp] theorem byteLen_nil : byteLen [] = 0 := rfl

@[simp] theorem byteLen_cons : byteLen (c :: text) = c.utf8Size + byteLen text := by
  rw [byteLen, map_cons, sum_cons, byteLen]

@[simp] theorem byteLen_append : byteLen (l ++ r) = byteLen l + byteLen r := by
  rw [byteLen, map_append, sum_append, byteLen, byteLen]

theorem sliceFrom_zero : sliceFrom text 0 = some text := by
  cases text <;> rfl

theorem sliceFrom_cons : sliceFrom (c :: text) (c.utf8Size + pos) = sliceFrom text pos := by
  have hpos := c.utf8Size_pos
  obtain ⟨k,hk⟩ : ∃ k, c.utf8Size + pos = k + 1 := ⟨c.utf8Size + pos - 1,by omega⟩
  rw [hk, sliceFrom, if_pos (by omega), ← hk, Nat.add_sub_cancel_left]

theorem sliceFrom_append : sliceFrom (l ++ r) (byteLen l + pos) = sliceFrom r pos := by
  induction l with
  | nil => rw [byteLen_nil, Nat.zero_add, nil_append]
  | cons c l ih => rw [byteLen_cons, cons_append, Nat.add_assoc, sliceFrom_cons, ih]

theorem exists_append_of_sliceFrom (h : sliceFrom text pos = some r) :
    ∃ l, text = l ++ r ∧ byteLen l = pos := by
  induction text generalizing pos with
  | nil =>
    cases pos with
    | zero =>
      obtain rfl := some.inj h
      exact ⟨[],rfl,rfl⟩
    | succ pos => cases h
  | cons c text ih =>
    cases pos with
    | zero =>
      obtain rfl := some.inj h
      exact ⟨[],rfl,rfl⟩
    | succ pos =>
      rw [sliceFrom] at h
      split_ifs at h with hle
      obtain ⟨l,rfl,hl⟩ := ih h
      exact ⟨c :: l,rfl,by rw [byteLen_cons, hl]; omega⟩

/-- A place further on, after a part that has been read. -/
theorem sliceFrom_add (h : sliceFrom text pos = some (l ++ r)) :
    sliceFrom text (pos + byteLen l) = some r := by
  obtain ⟨front,rfl,rfl⟩ := exists_append_of_sliceFrom h
  rw [sliceFrom_append, ← Nat.add_zero (byteLen l), sliceFrom_append, sliceFrom_zero]

theorem find_eq_some (h : find part text = some pos) : ∃ gap rest,
    text = gap ++ (part ++ rest) ∧ byteLen gap = pos ∧
      ∀ gap' rest', text = gap' ++ (part ++ rest') → gap.length ≤ gap'.length := by
  induction text generalizing pos with
  | nil =>
    rw [find] at h
    split_ifs at h with hempty
    obtain rfl := isEmpty_iff.mp hempty
    exact ⟨[],[],rfl,some.inj h,fun _ _ _ => Nat.zero_le _⟩
  | cons c text ih =>
    rw [find] at h
    split_ifs at h with hhere
    · obtain ⟨rest,hrest⟩ := isPrefixOf_iff_prefix.mp hhere
      exact ⟨[],rest,hrest.symm,some.inj h,fun _ _ _ => Nat.zero_le _⟩
    · obtain ⟨idx,hidx,rfl⟩ := map_eq_some_iff.mp h
      obtain ⟨gap,rest,rfl,rfl,hfirst⟩ := ih hidx
      refine ⟨c :: gap,rest,rfl,byteLen_cons,fun gap' rest' heq => ?_⟩
      cases gap' with
      | nil => exact absurd (List.isPrefixOf_iff_prefix.mpr ⟨rest',heq.symm⟩) hhere
      | cons c' gap' => exact Nat.succ_le_succ (hfirst gap' rest' (cons.inj heq).2)

theorem find_eq_none (h : find part text = none) (gap rest : List Char) :
    text ≠ gap ++ (part ++ rest) := by
  rintro rfl
  induction gap with
  | nil =>
    cases part with
    | nil => cases rest <;> simp [find] at h
    | cons c part =>
      rw [nil_append, cons_append, find, if_pos] at h
      · cases h
      · exact isPrefixOf_iff_prefix.mpr (prefix_append (c :: part) rest)
  | cons c gap ih =>
    rw [cons_append, find] at h
    split_ifs at h
    exact ih (map_eq_none_iff.mp h)

theorem sliceTo_append : sliceTo (l ++ r) (byteLen l) = some l := by
  induction l with
  | nil => cases r <;> rfl
  | cons c l ih =>
    have hpos := c.utf8Size_pos
    obtain ⟨k,hk⟩ : ∃ k, c.utf8Size + byteLen l = k + 1 := ⟨c.utf8Size + byteLen l - 1,by omega⟩
    rw [byteLen_cons, hk, cons_append, sliceTo, if_pos (by omega), ← hk,
      Nat.add_sub_cancel_left, ih, map_some]

theorem slice_append (m : List Char) :
    slice (l ++ (m ++ r)) (byteLen l) (byteLen l + byteLen m) = some m := by
  have hfrom : sliceFrom (l ++ (m ++ r)) (byteLen l) = some (m ++ r) := by
    rw [← Nat.add_zero (byteLen l), sliceFrom_append, sliceFrom_zero]
  rw [slice, hfrom, bind_some, Nat.add_sub_cancel_left, sliceTo_append]

/-! ## Bytes -/

@[simp] theorem encode_nil : encode [] = [] := rfl

@[simp] theorem encode_cons : encode (c :: text) = String.utf8EncodeChar c ++ encode text := rfl

@[simp] theorem encode_append : encode (l ++ r) = encode l ++ encode r := flatMap_append

@[simp] theorem length_encode : (encode text).length = byteLen text := by
  induction text with
  | nil => rfl
  | cons c text ih => rw [encode_cons, length_append, String.length_utf8EncodeChar, ih,
      byteLen_cons]

/-- Only the byte of an ASCII character is below 128. -/
theorem utf8EncodeChar_of_mem {b : UInt8} (h : b ∈ String.utf8EncodeChar c)
    (hb : b.toNat < 128) : String.utf8EncodeChar c = [b] ∧ c.toNat = b.toNat := by
  have hval : c.val.toNat = c.toNat := rfl
  rw [String.utf8EncodeChar] at h ⊢
  split_ifs at h ⊢ with h1 h2 h3
  · obtain rfl := mem_singleton.mp h
    refine ⟨rfl,?_⟩
    rw [UInt8.toNat_ofNat']
    omega
  all_goals
    simp only [mem_cons, not_mem_nil, or_false] at h
    exfalso
    revert hb
    rcases h with rfl | rfl | rfl | rfl <;> rw [UInt8.toNat_ofNat'] <;> omega

/-- A loop over bytes that stops at ASCII characters only stops between characters. -/
theorem takeWhile_encode {p : UInt8 → Bool} {q : Char → Bool}
    (hgo : ∀ c, q c = true → ∀ b ∈ String.utf8EncodeChar c, p b = true)
    (hstop : ∀ c, q c = false → ∀ rest, (String.utf8EncodeChar c ++ rest).takeWhile p = [])
    (text : List Char) : (encode text).takeWhile p = encode (text.takeWhile q) := by
  induction text with
  | nil => rfl
  | cons c text ih =>
    rw [encode_cons]
    cases hc : q c with
    | true =>
      rw [takeWhile_append_of_pos (hgo c hc), ih, takeWhile_cons_of_pos hc, encode_cons]
    | false =>
      have hnot : ¬ q c = true := Bool.not_eq_true _ ▸ hc
      rw [hstop c hc, takeWhile_cons_of_neg hnot, encode_nil]

end RinaDown.TextSlices
