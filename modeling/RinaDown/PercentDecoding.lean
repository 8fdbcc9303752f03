import RinaDown.AsciiCase
import RinaDown.TextSlices

/-!
# Percent decoding

The percent escapes of a text are decoded byte by byte, and the bytes are then read as UTF-8, or
else as GBK. A percent sign that no two hexadecimal digits follow stands for itself.
-/

namespace RinaDown.PercentDecoding

open AsciiCase TextSlices List

/-! ## The decoder -/

def percentSign : UInt8 := 0x25

def hexNibble (b : UInt8) : Option UInt8 :=
  if 0x30 ≤ b ∧ b ≤ 0x39 then some (b - 0x30)
  else if 0x61 ≤ b ∧ b ≤ 0x66 then some (b - 0x61 + 10)
  else if 0x41 ≤ b ∧ b ≤ 0x46 then some (b - 0x41 + 10)
  else none

/-- The byte of an escape, if there is one at `i`. An index past the end panics. -/
def escapeAt (bytes : List UInt8) (i : ℕ) : Option (Option UInt8) :=
  if bytes[i]? = some percentSign ∧ i + 2 < bytes.length then
    match bytes[i + 1]?, bytes[i + 2]? with
    | some a, some b =>
      match hexNibble a, hexNibble b with
      | some hi, some lo => some (some (hi <<< 4 ||| lo))
      | _, _ => some none
    | _, _ => none
  else some none

def decodeFrom (bytes : List UInt8) (i : ℕ) (result : List UInt8) : Option (List UInt8) :=
  if h : i < bytes.length then
    (escapeAt bytes i).bind fun
      | some b => decodeFrom bytes (i + 3) (result ++ [b])
      | none => decodeFrom bytes (i + 1) (result ++ [bytes[i]])
  else some result
termination_by bytes.length - i

def fromUtf8 (bytes : List UInt8) : Option (List Char) :=
  bytes.toByteArray.utf8Decode?.map Array.toList

variable (gbk : List UInt8 → Option (List Char))

def decodeBytesUtf8OrGbk (bytes : List UInt8) : Option (List Char) :=
  match fromUtf8 bytes with
  | some s => some s
  | none => gbk bytes

/-- The outer option is for a panic, the inner one for bytes that are neither UTF-8 nor GBK. -/
def urlencodingDecode (s : List Char) : Option (Option (List Char)) :=
  (decodeFrom (encode s) 0 []).map (decodeBytesUtf8OrGbk gbk)

/-! ## Escapes -/

/-- Every escape is decoded and everything else is kept. -/
def percentDecode : List UInt8 → List UInt8
  | a :: b :: c :: rest =>
    if a = percentSign then
      match hexNibble b, hexNibble c with
      | some hi, some lo => (hi <<< 4 ||| lo) :: percentDecode rest
      | _, _ => a :: percentDecode (b :: c :: rest)
    else a :: percentDecode (b :: c :: rest)
  | a :: rest => a :: percentDecode rest
  | [] => []

variable {gbk} {bytes result rest : List UInt8} {i : ℕ} {a b c : UInt8}

theorem percentDecode_cons (h : a ≠ percentSign) :
    percentDecode (a :: rest) = a :: percentDecode rest := by
  match rest with
  | [] => rfl
  | [_] => rfl
  | _ :: _ :: _ => rw [percentDecode, if_neg h]

theorem percentDecode_append {l : List UInt8} (h : ∀ a ∈ l, a ≠ percentSign) :
    percentDecode (l ++ rest) = l ++ percentDecode rest := by
  induction l with
  | nil => rfl
  | cons a l ih =>
    rw [cons_append, percentDecode_cons (h a mem_cons_self),
      ih fun b hb => h b (mem_cons_of_mem a hb), cons_append]

theorem escapeAt_of_ne {front : List UInt8} (h : a ≠ percentSign) :
    escapeAt (front ++ a :: rest) front.length = some none := by
  have hget : (front ++ a :: rest)[front.length]? = some a := by simp
  rw [escapeAt, if_neg]
  rintro ⟨hsign,-⟩
  exact h (Option.some.inj (hget.symm.trans hsign))

theorem escapeAt_of_short {front : List UInt8} (h : rest.length < 2) :
    escapeAt (front ++ a :: rest) front.length = some none := by
  rw [escapeAt, if_neg]
  rintro ⟨-,hlt⟩
  rw [length_append, length_cons] at hlt
  omega

theorem escapeAt_sign (front : List UInt8) :
    escapeAt (front ++ percentSign :: b :: c :: rest) front.length =
      match hexNibble b, hexNibble c with
      | some hi, some lo => some (some (hi <<< 4 ||| lo))
      | _, _ => some none := by
  have hcond : (front ++ percentSign :: b :: c :: rest)[front.length]? = some percentSign ∧
      front.length + 2 < (front ++ percentSign :: b :: c :: rest).length := by
    simp
  have hb : (front ++ percentSign :: b :: c :: rest)[front.length + 1]? = some b := by
    rw [getElem?_append_right (Nat.le_add_right _ 1), Nat.add_sub_cancel_left]
    rfl
  have hc : (front ++ percentSign :: b :: c :: rest)[front.length + 2]? = some c := by
    rw [getElem?_append_right (Nat.le_add_right _ 2), Nat.add_sub_cancel_left]
    rfl
  rw [escapeAt, if_pos hcond, hb, hc]

/-- The index loop never reads past the end. -/
theorem decodeFrom_eq (front rest result : List UInt8) :
    decodeFrom (front ++ rest) front.length result = some (result ++ percentDecode rest) := by
  induction hn : rest.length using Nat.strong_induction_on generalizing front rest result with
  | _ n ih =>
    have hnext : ∀ m rest', rest = m ++ rest' → m ≠ [] → ∀ result',
        decodeFrom (front ++ rest) (front.length + m.length) result' =
          some (result' ++ percentDecode rest') := by
      intro m rest' hrest hm result'
      have hlen : rest'.length < n := by
        rw [← hn, hrest, length_append]
        exact Nat.lt_add_of_pos_left (length_pos_of_ne_nil hm)
      rw [hrest, ← append_assoc, ← length_append]
      exact ih _ hlen (front ++ m) rest' result' rfl
    cases rest with
    | nil =>
      rw [decodeFrom, dif_neg (by simp), percentDecode, append_nil]
    | cons a rest =>
      have hlt : front.length < (front ++ a :: rest).length := by simp
      have hget : (front ++ a :: rest)[front.length] = a := by simp
      have hkept : escapeAt (front ++ a :: rest) front.length = some none →
          decodeFrom (front ++ a :: rest) front.length result =
            some (result ++ a :: percentDecode rest) := by
        intro hescape
        rw [decodeFrom, dif_pos hlt, hescape, Option.bind_some, hget]
        exact (hnext [a] rest rfl (cons_ne_nil _ _) _).trans
          (congrArg some (append_assoc _ _ _))
      by_cases ha : a = percentSign
      · subst ha
        match rest with
        | [] => exact hkept (escapeAt_of_short (by decide))
        | [b] => exact hkept (escapeAt_of_short (Nat.lt_succ_self 1))
        | b :: c :: rest =>
          have hescape := @escapeAt_sign rest b c front
          rw [percentDecode, if_pos rfl]
          cases hhi : hexNibble b with
          | none =>
            rw [hhi] at hescape
            exact hkept hescape
          | some hi =>
            cases hlo : hexNibble c with
            | none =>
              rw [hhi, hlo] at hescape
              exact hkept hescape
            | some lo =>
              rw [hhi, hlo] at hescape
              rw [decodeFrom, dif_pos hlt, hescape, Option.bind_some]
              exact (hnext [percentSign, b, c] rest rfl (cons_ne_nil _ _) _).trans
                (congrArg some (append_assoc _ _ _))
      · rw [hkept (escapeAt_of_ne ha), percentDecode_cons ha]

theorem urlencodingDecode_eq (s : List Char) :
    urlencodingDecode gbk s = some (decodeBytesUtf8OrGbk gbk (percentDecode (encode s))) := by
  have hdecode : decodeFrom (encode s) 0 [] = some (percentDecode (encode s)) :=
    decodeFrom_eq [] (encode s) []
  rw [urlencodingDecode, hdecode, Option.map_some]

/-! ## Texts -/

theorem fromUtf8_encode (s : List Char) : fromUtf8 (encode s) = some s := by
  have hbytes : (encode s).toByteArray = s.utf8Encode := rfl
  rw [fromUtf8, hbytes, utf8Decode?_utf8Encode, Option.map_some]

theorem decode_encode (s : List Char) : decodeBytesUtf8OrGbk gbk (encode s) = some s := by
  rw [decodeBytesUtf8OrGbk, fromUtf8_encode]

theorem encode_ascii {c : Char} (h : c.toNat < 128) :
    String.utf8EncodeChar c = [UInt8.ofNat c.toNat] :=
  if_pos (Nat.le_of_lt_succ h)

theorem hexNibble_digitChar : ∀ n < 16, (Nat.digitChar n).toNat < 128 ∧
    hexNibble (UInt8.ofNat (Nat.digitChar n).toNat) = some (UInt8.ofNat n) ∧
    (97 ≤ (Nat.digitChar n).toNat →
      hexNibble (UInt8.ofNat ((Nat.digitChar n).toNat - 32)) = some (UInt8.ofNat n)) := by
  decide

theorem hexNibble_digit {c : Char} {n : ℕ} (hn : n < 16) (hc : c.toLower = Nat.digitChar n) :
    String.utf8EncodeChar c = [UInt8.ofNat c.toNat] ∧
      hexNibble (UInt8.ofNat c.toNat) = some (UInt8.ofNat n) := by
  obtain ⟨hascii,hlower,hupper⟩ := hexNibble_digitChar n hn
  have hnat := toNat_toLower c
  rw [hc] at hnat
  split_ifs at hnat with hcase
  · refine ⟨encode_ascii (by omega),?_⟩
    have hc' : c.toNat = (Nat.digitChar n).toNat - 32 := by omega
    rw [hc']
    exact hupper (by omega)
  · obtain rfl := Char.toNat_inj.mp hnat
    exact ⟨encode_ascii hascii,hlower⟩

theorem nibbles_eq : ∀ hi < 16, ∀ lo < 16,
    UInt8.ofNat hi <<< 4 ||| UInt8.ofNat lo = UInt8.ofNat (16 * hi + lo) := by
  decide

/-- A text in which some bytes are written as escapes. -/
inductive Escaped (literal : Char → Prop) : List Char → List UInt8 → Prop
  | nil : Escaped literal [] []
  | plain {c : Char} {s : List Char} {bytes : List UInt8} (hc : literal c)
      (h : Escaped literal s bytes) : Escaped literal (c :: s) (UInt8.ofNat c.toNat :: bytes)
  | escape {b c : Char} {hi lo : ℕ} {s : List Char} {bytes : List UInt8}
      (hhi : hi < 16) (hb : b.toLower = Nat.digitChar hi) (hlo : lo < 16)
      (hc : c.toLower = Nat.digitChar lo) (h : Escaped literal s bytes) :
      Escaped literal ('%' :: b :: c :: s) (UInt8.ofNat (16 * hi + lo) :: bytes)

theorem percentDecode_escape {b c : Char} {hi lo : ℕ} (hhi : hi < 16)
    (hb : b.toLower = Nat.digitChar hi) (hlo : lo < 16) (hc : c.toLower = Nat.digitChar lo)
    (s : List Char) : percentDecode (encode ('%' :: b :: c :: s)) =
      UInt8.ofNat (16 * hi + lo) :: percentDecode (encode s) := by
  obtain ⟨hbyte,hnibble⟩ := hexNibble_digit hhi hb
  obtain ⟨hbyte',hnibble'⟩ := hexNibble_digit hlo hc
  have hsign : String.utf8EncodeChar '%' = [percentSign] := rfl
  rw [encode_cons, encode_cons, encode_cons, hsign, hbyte, hbyte', singleton_append,
    singleton_append, singleton_append, percentDecode, if_pos rfl, hnibble, hnibble']
  simp only [nibbles_eq _ hhi _ hlo]

theorem Escaped.percentDecode_eq {literal : Char → Prop}
    (hliteral : ∀ c, literal c → c.toNat < 128 ∧ c ≠ '%') {s : List Char} {bytes : List UInt8}
    (h : Escaped literal s bytes) : percentDecode (encode s) = bytes := by
  induction h with
  | nil => rfl
  | @plain c s bytes hc h ih =>
    obtain ⟨hascii,hne⟩ := hliteral c hc
    have hbyte : UInt8.ofNat c.toNat ≠ percentSign := by
      intro heq
      have hnat := congrArg UInt8.toNat heq
      rw [UInt8.toNat_ofNat', Nat.mod_eq_of_lt (by omega)] at hnat
      exact hne (Char.toNat_inj.mp hnat)
    rw [encode_cons, encode_ascii hascii, singleton_append, percentDecode_cons hbyte, ih]
  | escape hhi hb hlo hc h ih => rw [percentDecode_escape hhi hb hlo hc, ih]

theorem percentDecode_encode_cons {c : Char} (hc : c ≠ '%') (s : List Char) :
    percentDecode (encode (c :: s)) = String.utf8EncodeChar c ++ percentDecode (encode s) := by
  rw [encode_cons]
  refine percentDecode_append fun b hb heq => hc ?_
  obtain ⟨-,hnat⟩ := utf8EncodeChar_of_mem hb (by rw [heq]; decide)
  exact Char.toNat_inj.mp (hnat.trans (by rw [heq]; rfl))

theorem mem_encode {c : Char} {s : List Char} (hc : c.toNat < 128) : UInt8.ofNat c.toNat ∈ encode s ↔ c ∈ s := by
  have hbyte : (UInt8.ofNat c.toNat).toNat = c.toNat := by
    rw [UInt8.toNat_ofNat']
    omega
  constructor
  · intro hmem
    obtain ⟨d,hd,hb⟩ := mem_flatMap.mp hmem
    obtain ⟨-,hnat⟩ := utf8EncodeChar_of_mem hb (by rw [hbyte]; exact hc)
    rwa [Char.toNat_inj.mp (hbyte.symm.trans hnat.symm)]
  · intro hmem
    refine mem_flatMap.mpr ⟨c,hmem,?_⟩
    rw [encode_ascii hc]
    exact mem_singleton_self _

theorem encode_of_fromUtf8 {s : List Char} (h : fromUtf8 bytes = some s) :
    encode s = bytes := by
  obtain ⟨chars,hchars,rfl⟩ := Option.map_eq_some_iff.mp h
  obtain ⟨m,hm⟩ := ByteArray.isSome_utf8Decode?_iff.mp (Option.isSome_of_eq_some hchars)
  have hencode : (encode m).toByteArray = m.utf8Encode := rfl
  have hbytes : bytes = encode m := by
    rw [← @toList_data_toByteArray bytes, hm, ← hencode, toList_data_toByteArray]
  rw [hbytes, fromUtf8_encode] at h
  rw [hbytes, ← Option.some.inj h]

/-! ## Where bytes come from -/

def escapeByte (x y : UInt8) : Option UInt8 :=
  match hexNibble x, hexNibble y with
  | some hi, some lo => some (hi <<< 4 ||| lo)
  | _, _ => none

/-- Somewhere there is an escape of the byte. -/
def HasEscape (b : UInt8) (bytes : List UInt8) : Prop :=
  ∃ x y, escapeByte x y = some b ∧ [percentSign, x, y] <:+: bytes

theorem hasEscape_cons : HasEscape b (a :: rest) ↔
    (a = percentSign ∧ ∃ x y rest', rest = x :: y :: rest' ∧ escapeByte x y = some b) ∨
      HasEscape b rest := by
  constructor
  · rintro ⟨x,y,hbyte,hinner⟩
    obtain hfront | hrest := infix_cons_iff.mp hinner
    · obtain ⟨rest',heq⟩ := hfront
      obtain ⟨rfl,rfl⟩ := cons.inj heq
      exact .inl ⟨rfl,x,y,rest',rfl,hbyte⟩
    · exact .inr ⟨x,y,hbyte,hrest⟩
  · rintro (⟨rfl,x,y,rest',rfl,hbyte⟩ | ⟨x,y,hbyte,hrest⟩)
    · exact ⟨x,y,hbyte,[],rest',rfl⟩
    · exact ⟨x,y,hbyte,infix_cons_iff.mpr (.inr hrest)⟩

theorem hasEscape_cons_of_ne (h : a ≠ percentSign) : HasEscape b (a :: rest) ↔ HasEscape b rest := by
  rw [hasEscape_cons]
  exact or_iff_right fun hsign => h hsign.1

theorem hexNibble_sign : hexNibble percentSign = none := rfl

/-- A byte that is neither a digit nor the sign comes from itself or from its escape. -/
theorem mem_percentDecode (hdigit : hexNibble b = none) (hsign : b ≠ percentSign) :
    b ∈ percentDecode bytes ↔ b ∈ bytes ∨ HasEscape b bytes := by
  have hne : ∀ {x n}, hexNibble x = some n → x ≠ percentSign ∧ b ≠ x := by
    intro x n hx
    constructor
    · rintro rfl
      exact Option.some_ne_none n (hx.symm.trans hexNibble_sign)
    · rintro rfl
      exact Option.some_ne_none n (hx.symm.trans hdigit)
  have hstep : ∀ {a rest}, (a = percentSign → ∀ x y rest', rest = x :: y :: rest' →
      escapeByte x y ≠ some b) → (b ∈ percentDecode rest ↔ b ∈ rest ∨ HasEscape b rest) →
      (b ∈ a :: percentDecode rest ↔ b ∈ a :: rest ∨ HasEscape b (a :: rest)) := by
    intro a rest hnot ih
    have hcons : HasEscape b (a :: rest) ↔ HasEscape b rest := by
      rw [hasEscape_cons]
      refine or_iff_right ?_
      rintro ⟨ha,x,y,rest',hrest,hbyte⟩
      exact hnot ha x y rest' hrest hbyte
    rw [mem_cons, mem_cons, hcons, ih, or_assoc]
  fun_induction percentDecode bytes with
  | case1 x y rest hi lo hlo hhi ih =>
    obtain ⟨hx,hbx⟩ := hne hhi
    obtain ⟨hy,hby⟩ := hne hlo
    have hbyte : escapeByte x y = some (hi <<< 4 ||| lo) := by rw [escapeByte, hhi, hlo]
    have hescape : HasEscape b (percentSign :: x :: y :: rest) ↔
        b = hi <<< 4 ||| lo ∨ HasEscape b rest := by
      rw [hasEscape_cons, hasEscape_cons_of_ne hx, hasEscape_cons_of_ne hy]
      refine or_congr_left ⟨?_,fun h => ⟨rfl,x,y,rest,rfl,h ▸ hbyte⟩⟩
      rintro ⟨-,x',y',rest',hrest,hbyte'⟩
      obtain ⟨rfl,htail⟩ := cons.inj hrest
      obtain ⟨rfl,-⟩ := cons.inj htail
      exact Option.some.inj (hbyte'.symm.trans hbyte)
    simp only [hescape, mem_cons, hsign, hbx, hby, false_or]
    exact (or_congr_right ih).trans or_left_comm
  | case2 x y rest hnone ih =>
    refine hstep (fun _ x' y' rest' hrest hbyte => ?_) ih
    obtain ⟨rfl,htail⟩ := cons.inj hrest
    obtain ⟨rfl,-⟩ := cons.inj htail
    unfold escapeByte at hbyte
    split at hbyte
    · exact hnone _ _ ‹_› ‹_›
    · cases hbyte
  | case3 a x y rest hsign' ih => exact hstep (fun ha => absurd ha hsign') ih
  | case4 a rest hshort ih => exact hstep (fun _ x y rest' hrest => (hshort x y rest' hrest).elim) ih
  | case5 => simp [HasEscape]

end RinaDown.PercentDecoding
