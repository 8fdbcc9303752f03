import Mathlib.Tactic.Ring
import RinaDown.TextSlices
import RinaDown.Texts

/-!
# The initialization vector of an HLS key

The attribute of the playlist is read as 16 bytes, each of them cut out of the text at two
places and read by the parser of unsigned integers, which takes a plus sign before the digits.
The text comes from a remote playlist and may have any characters, so that a place may be
inside of one.
-/

namespace RinaDown.HlsIv

open TextSlices List Option Bool
open Texts (stripPrefix)

/-! ## The integer parser -/

/-- The kinds of `ParseIntError` that `u8::from_str_radix` has. -/
inductive IntErrorKind where
  | empty
  | invalidDigit
  | posOverflow
deriving DecidableEq

def IntErrorKind.message : IntErrorKind → String
  | .empty => "cannot parse integer from empty string"
  | .invalidDigit => "invalid digit found in string"
  | .posOverflow => "number too large to fit in target type"

def toDigit (c : Char) : Option ℕ :=
  if 48 ≤ c.toNat ∧ c.toNat ≤ 57 then some (c.toNat - 48)
  else if 97 ≤ c.toNat ∧ c.toNat ≤ 102 then some (c.toNat - 87)
  else if 65 ≤ c.toNat ∧ c.toNat ≤ 70 then some (c.toNat - 55)
  else none

def checkedDigits : ℕ → List Char → Except IntErrorKind ℕ
  | value, [] => .ok value
  | value, c :: text =>
      match toDigit c with
      | none => .error .invalidDigit
      | some d =>
          if value * 16 + d < 256 then checkedDigits (value * 16 + d) text
          else .error .posOverflow

def fromStrRadix (src : List Char) : Except IntErrorKind ℕ :=
  match src with
  | [] => .error .empty
  | [c] => if c = '+' ∨ c = '-' then .error .invalidDigit else checkedDigits 0 [c]
  | c :: rest => if c = '+' then checkedDigits 0 rest else checkedDigits 0 (c :: rest)

/-! ## The vector -/

def hexPart (ivStr : List Char) : List Char :=
  match stripPrefix "0x".toList ivStr with
  | some hex => hex
  | none => (stripPrefix "0X".toList ivStr).getD ivStr

/-- The byte at two places, which the outer option says are between characters. -/
def byteAt (hex : List Char) (i : ℕ) : Option (Except String UInt8) :=
  (slice hex (i * 2) (i * 2 + 2)).map fun src =>
    match fromStrRadix src with
    | .ok b => .ok (UInt8.ofNat b)
    | .error e => .error ("invalid IV hex: " ++ e.message)

/-- The loop over the bytes from the `i`th, up to the first error. -/
def bytesFrom (hex : List Char) : ℕ → ℕ → Option (Except String (List UInt8))
  | 0, _ => some (.ok [])
  | n + 1, i =>
      (byteAt hex i).bind fun
        | .error e => some (.error e)
        | .ok b => (bytesFrom hex n (i + 1)).map fun bytes => bytes.map (b :: ·)

/-- The outer option is for a panic. -/
def parseIvHex (ivStr : List Char) : Option (Except String (List UInt8)) :=
  if byteLen (hexPart ivStr) ≠ 32 then
    some (.error ("IV hex string must be 32 hex chars, got " ++
      toString (byteLen (hexPart ivStr)) ++ ": " ++ String.ofList ivStr))
  else bytesFrom (hexPart ivStr) 16 0

/-! ## What is promised of it -/

def isHexDigit (c : Char) : Bool := (toDigit c).isSome

/-- The text consists of 32 hexadecimal digits. -/
def IsHexText (text : List Char) : Prop := text.length = 32 ∧ ∀ c ∈ text, isHexDigit c = true

def digitsValue (text : List Char) : ℕ :=
  text.foldl (fun value c => value * 16 + (toDigit c).getD 0) 0

def bytesValue (iv : List UInt8) : ℕ := iv.foldl (fun value b => value * 256 + b.toNat) 0

def lowerHex (b : UInt8) : List Char :=
  [Nat.digitChar (b.toNat / 16), Nat.digitChar (b.toNat % 16)]

/-- The vector is read exactly from 32 digits, and is their value. -/
structure Reads (ivStr : List Char) : Prop where
  returns : (parseIvHex ivStr).isSome = true
  ok_iff : (∃ iv, parseIvHex ivStr = some (.ok iv)) ↔ IsHexText (hexPart ivStr)
  value : ∀ iv, parseIvHex ivStr = some (.ok iv) → iv.length = 16 ∧
    bytesValue iv = digitsValue (hexPart ivStr) ∧
    iv.flatMap lowerHex = (hexPart ivStr).map Char.toLower

/-- Two bytes that the parser takes. -/
def isPair (a b : Char) : Bool := (isHexDigit a || a == '+') && isHexDigit b

/-- The first two bytes that are no pair end a character. -/
def stopsCleanly : List Char → Bool
  | [] => false
  | [a] => a.utf8Size == 2
  | a :: b :: text =>
      if isPair a b then stopsCleanly text
      else a.utf8Size == 2 || (a.utf8Size == 1 && b.utf8Size == 1)

def isPairs : List Char → Bool
  | [] => true
  | [_] => false
  | a :: b :: text => isPair a b && isPairs text

def pairByte (a b : Char) : ℕ := (toDigit a).getD 0 * 16 + (toDigit b).getD 0

def pairBytes : List Char → List UInt8
  | a :: b :: text => UInt8.ofNat (pairByte a b) :: pairBytes text
  | _ => []

variable {c a b : Char} {d n i : ℕ} {text front : List Char}

/-! ## Digits -/

theorem toDigit_spec (h : toDigit c = some d) :
    d < 16 ∧ Nat.digitChar d = c.toLower ∧ c.utf8Size = 1 := by
  have hdigits : ∀ m < 128, ∀ e ∈ toDigit (Char.ofNat m),
      e < 16 ∧ Nat.digitChar e = (Char.ofNat m).toLower ∧ (Char.ofNat m).utf8Size = 1 := by
    decide
  have hbound : c.toNat < 128 := by
    rw [toDigit] at h
    split_ifs at h <;> omega
  have hspec := hdigits c.toNat hbound
  rw [Char.ofNat_toNat] at hspec
  exact hspec d h

theorem isHexDigit_iff : isHexDigit c = true ↔ ∃ d, toDigit c = some d := isSome_iff_exists

theorem utf8Size_of_isHexDigit (h : isHexDigit c = true) : c.utf8Size = 1 := by
  obtain ⟨d,hd⟩ := isHexDigit_iff.mp h
  exact (toDigit_spec hd).2.2

theorem isHexDigit_plus : isHexDigit '+' = false := by decide

theorem utf8Size_of_isPair (h : isPair a b = true) : a.utf8Size = 1 ∧ b.utf8Size = 1 := by
  rw [isPair, and_eq_true, or_eq_true, beq_iff_eq] at h
  refine ⟨?_,utf8Size_of_isHexDigit h.2⟩
  obtain ha | rfl := h.1
  · exact utf8Size_of_isHexDigit ha
  · decide

/-! ## One byte -/

theorem fromStrRadix_pair (h : isPair a b = true) : fromStrRadix [a, b] = .ok (pairByte a b) := by
  rw [isPair, and_eq_true, or_eq_true, beq_iff_eq] at h
  obtain ⟨e,he⟩ := isHexDigit_iff.mp h.2
  have hbound := (toDigit_spec he).1
  obtain ha | rfl := h.1
  · obtain ⟨d,hd⟩ := isHexDigit_iff.mp ha
    have hbound' := (toDigit_spec hd).1
    have hplus : a ≠ '+' := fun heq => by
      rw [heq, isHexDigit_plus] at ha
      exact Bool.noConfusion ha
    have h1 : 0 * 16 + d < 256 := by omega
    have h2 : (0 * 16 + d) * 16 + e < 256 := by omega
    simp only [fromStrRadix, if_neg hplus, checkedDigits, hd, he, if_pos h1, if_pos h2, pairByte,
      getD_some]
    simp
  · have h1 : 0 * 16 + e < 256 := by omega
    have hplus : toDigit '+' = none := by decide
    simp only [fromStrRadix, checkedDigits, he, if_pos h1, pairByte, hplus, getD_none,
      getD_some]
    simp

theorem fromStrRadix_not_pair (h : isPair a b = false) : ∃ e, fromStrRadix [a, b] = .error e := by
  have hchecked : ∀ value c text, isHexDigit c = false →
      checkedDigits value (c :: text) = .error .invalidDigit := by
    intro value c text hc
    have hnone : toDigit c = none := isSome_eq_false_iff.mp hc |> isNone_iff_eq_none.mp
    rw [checkedDigits, hnone]
  rw [isPair, and_eq_false_iff, or_eq_false_iff, beq_eq_false_iff_ne] at h
  by_cases hplus : a = '+'
  · have hb : isHexDigit b = false := h.resolve_left fun hand => hand.2 hplus
    exact ⟨_,(if_pos hplus).trans (hchecked 0 b [] hb)⟩
  · have hrest : fromStrRadix [a, b] = checkedDigits 0 [a, b] := if_neg hplus
    rw [hrest]
    cases ha : toDigit a with
    | none => exact ⟨_,hchecked 0 a [b] (by rw [isHexDigit, ha]; rfl)⟩
    | some d =>
      have hbound := (toDigit_spec ha).1
      have hb : isHexDigit b = false := by
        refine h.resolve_left fun hand => ?_
        rw [isHexDigit, ha] at hand
        exact Bool.noConfusion hand.1
      refine ⟨.invalidDigit,?_⟩
      rw [checkedDigits, ha]
      exact (if_pos (by omega)).trans (hchecked _ b [] hb)

theorem fromStrRadix_wide (h : a.utf8Size ≠ 1) : ∃ e, fromStrRadix [a] = .error e := by
  have hnone : toDigit a = none := by
    cases ha : toDigit a with
    | none => rfl
    | some d => exact absurd (toDigit_spec ha).2.2 h
  have hne : a ≠ '+' ∧ a ≠ '-' := by
    refine ⟨?_,?_⟩
    · rintro rfl
      exact h (by decide)
    · rintro rfl
      exact h (by decide)
  refine ⟨.invalidDigit,?_⟩
  rw [fromStrRadix, if_neg (not_or.mpr hne), checkedDigits, hnone]

/-! ## The places -/

theorem slice_rest (hfront : byteLen front = i * 2) :
    slice (front ++ text) (i * 2) (i * 2 + 2) = sliceTo text 2 := by
  have hfrom : sliceFrom (front ++ text) (i * 2) = some text := by
    rw [← hfront, ← Nat.add_zero (byteLen front), sliceFrom_append, sliceFrom_zero]
  rw [slice, hfrom, bind_some, Nat.add_sub_cancel_left]

theorem sliceTo_two (ha : a.utf8Size = 1) (hb : b.utf8Size = 1) :
    sliceTo (a :: b :: text) 2 = some [a, b] := by
  have hlen : byteLen [a, b] = 2 := by simp [ha, hb]
  rw [← hlen]
  exact sliceTo_append (l := [a, b])

theorem sliceTo_wide (ha : a.utf8Size = 2) : sliceTo (a :: text) 2 = some [a] := by
  have hlen : byteLen [a] = 2 := by simp [ha]
  rw [← hlen]
  exact sliceTo_append (l := [a])

theorem sliceTo_cut (ha : a.utf8Size ≠ 2) (hb : a.utf8Size = 1 → ∀ b ∈ text.head?, b.utf8Size ≠ 1) :
    sliceTo (a :: text) 2 = none := by
  have hpos := a.utf8Size_pos
  by_cases ha1 : a.utf8Size = 1
  · rw [sliceTo, if_pos (by omega), ha1]
    cases text with
    | nil => rfl
    | cons b text =>
      have hpos' := b.utf8Size_pos
      have hb' := hb ha1 b rfl
      rw [show 1 + 1 - 1 = 0 + 1 from rfl, sliceTo, if_neg (by omega)]
      rfl
  · rw [sliceTo, if_neg (by omega)]

/-! ## The loop -/

theorem byteAt_pair (hfront : byteLen front = i * 2) (h : isPair a b = true) :
    byteAt (front ++ a :: b :: text) i = some (.ok (UInt8.ofNat (pairByte a b))) := by
  obtain ⟨ha,hb⟩ := utf8Size_of_isPair h
  rw [byteAt, slice_rest hfront, sliceTo_two ha hb, map_some, fromStrRadix_pair h]

theorem byteAt_error {src : List Char} (hfront : byteLen front = i * 2)
    (hslice : sliceTo text 2 = some src) (hsrc : ∃ e, fromStrRadix src = .error e) :
    ∃ e, byteAt (front ++ text) i = some (.error e) := by
  obtain ⟨e,he⟩ := hsrc
  rw [byteAt, slice_rest hfront, hslice, map_some, he]
  exact ⟨_,rfl⟩

theorem byteLen_pair (hfront : byteLen front = i * 2) (h : isPair a b = true) :
    byteLen (front ++ [a, b]) = (i + 1) * 2 := by
  obtain ⟨ha,hb⟩ := utf8Size_of_isPair h
  simp [hfront, ha, hb]
  omega

theorem bytesFrom_pair (hfront : byteLen front = i * 2) (h : isPair a b = true) :
    bytesFrom (front ++ a :: b :: text) (n + 1) i =
      (bytesFrom (front ++ [a, b] ++ text) n (i + 1)).map fun bytes =>
        bytes.map (UInt8.ofNat (pairByte a b) :: ·) := by
  rw [bytesFrom, byteAt_pair hfront h, bind_some, append_assoc]
  rfl

theorem bytesFrom_pairs (hfront : byteLen front = i * 2) (htext : text.length = n * 2)
    (h : isPairs text = true) : bytesFrom (front ++ text) n i = some (.ok (pairBytes text)) := by
  induction text using isPairs.induct generalizing front n i with
  | case1 =>
    obtain rfl : n = 0 := by simp at htext; omega
    rfl
  | case2 c => exact Bool.noConfusion h
  | case3 a b text ih =>
    rw [isPairs, and_eq_true] at h
    obtain ⟨m,rfl⟩ : ∃ m, n = m + 1 := ⟨n - 1,by simp at htext; omega⟩
    have htext' : text.length = m * 2 := by simp at htext; omega
    rw [bytesFrom_pair hfront h.1, ih (byteLen_pair hfront h.1) htext' h.2]
    rfl

theorem bytesFrom_stop (hfront : byteLen front = i * 2) (htext : byteLen text = n * 2)
    (h : stopsCleanly text = true) : ∃ e, bytesFrom (front ++ text) n i = some (.error e) := by
  induction text using stopsCleanly.induct generalizing front n i with
  | case1 => exact Bool.noConfusion h
  | case2 a =>
    have ha : a.utf8Size = 2 := of_decide_eq_true h
    obtain rfl : n = 1 := by simp [ha] at htext; omega
    obtain ⟨e,he⟩ := byteAt_error hfront (sliceTo_wide ha) (fromStrRadix_wide (by omega))
    exact ⟨e,by rw [bytesFrom, he, bind_some]⟩
  | case3 a b text hpair ih =>
    rw [stopsCleanly, if_pos hpair] at h
    obtain ⟨ha,hb⟩ := utf8Size_of_isPair hpair
    obtain ⟨m,rfl⟩ : ∃ m, n = m + 1 := ⟨n - 1,by simp [ha, hb] at htext; omega⟩
    have htext' : byteLen text = m * 2 := by simp [ha, hb] at htext; omega
    obtain ⟨e,he⟩ := ih (byteLen_pair hfront hpair) htext' h
    exact ⟨e,by rw [bytesFrom_pair hfront hpair, he]; rfl⟩
  | case4 a b text hpair =>
    rw [stopsCleanly, if_neg hpair] at h
    have hpos := a.utf8Size_pos
    have hpos' := b.utf8Size_pos
    obtain ⟨m,rfl⟩ : ∃ m, n = m + 1 := ⟨n - 1,by simp at htext; omega⟩
    have herror : ∃ e, byteAt (front ++ a :: b :: text) i = some (.error e) := by
      obtain ha | hab := or_eq_true_iff.mp h
      · have ha' : a.utf8Size = 2 := of_decide_eq_true ha
        exact byteAt_error hfront (sliceTo_wide ha') (fromStrRadix_wide (by omega))
      · obtain ⟨ha,hb⟩ := and_eq_true_iff.mp hab
        exact byteAt_error hfront (sliceTo_two (of_decide_eq_true ha) (of_decide_eq_true hb))
          (fromStrRadix_not_pair (not_eq_true _ ▸ hpair))
    obtain ⟨e,he⟩ := herror
    exact ⟨e,by rw [bytesFrom, he, bind_some]⟩

theorem bytesFrom_cut (hfront : byteLen front = i * 2) (htext : byteLen text = n * 2)
    (hstop : stopsCleanly text = false) (hpairs : isPairs text = false) :
    bytesFrom (front ++ text) n i = none := by
  have hcut : ∀ {text' : List Char} {m : ℕ}, sliceTo text' 2 = none →
      bytesFrom (front ++ text') (m + 1) i = none := by
    intro text' m hnone
    rw [bytesFrom, byteAt, slice_rest hfront, hnone]
    rfl
  induction text using stopsCleanly.induct generalizing front n i with
  | case1 => exact Bool.noConfusion hpairs
  | case2 a =>
    have ha : a.utf8Size ≠ 2 := of_decide_eq_false hstop
    have hpos := a.utf8Size_pos
    obtain ⟨m,rfl⟩ : ∃ m, n = m + 1 := ⟨n - 1,by simp at htext; omega⟩
    exact hcut (sliceTo_cut ha fun _ b hb => absurd hb (by simp))
  | case3 a b text hpair ih =>
    rw [stopsCleanly, if_pos hpair] at hstop
    rw [isPairs, hpair, Bool.true_and] at hpairs
    obtain ⟨ha,hb⟩ := utf8Size_of_isPair hpair
    obtain ⟨m,rfl⟩ : ∃ m, n = m + 1 := ⟨n - 1,by simp [ha, hb] at htext; omega⟩
    have htext' : byteLen text = m * 2 := by simp [ha, hb] at htext; omega
    have hfront' := byteLen_pair hfront hpair
    rw [bytesFrom_pair hfront hpair, ih hfront' htext' hstop hpairs]
    · rfl
    · intro text' m hnone
      rw [bytesFrom, byteAt, slice_rest hfront', hnone]
      rfl
  | case4 a b text hpair =>
    rw [stopsCleanly, if_neg hpair, or_eq_false_iff, and_eq_false_iff] at hstop
    have hpos := a.utf8Size_pos
    have hpos' := b.utf8Size_pos
    obtain ⟨m,rfl⟩ : ∃ m, n = m + 1 := ⟨n - 1,by simp at htext; omega⟩
    refine hcut (sliceTo_cut (of_decide_eq_false hstop.1) fun ha c hc => ?_)
    obtain rfl := some.inj hc
    obtain ha' | hb := hstop.2
    · exact absurd ha (of_decide_eq_false ha')
    · exact of_decide_eq_false hb

/-! ## Texts of digits -/

theorem byteLen_digits (h : ∀ c ∈ text, isHexDigit c = true) : byteLen text = text.length := by
  induction text with
  | nil => rfl
  | cons c text ih =>
    have hc := utf8Size_of_isHexDigit (h c mem_cons_self)
    rw [byteLen_cons, hc, ih fun c hc => h c (mem_cons_of_mem _ hc), length_cons]
    omega

theorem isPairs_digits (hlength : text.length = n * 2) (h : ∀ c ∈ text, isHexDigit c = true) :
    isPairs text = true ∧ stopsCleanly text = false := by
  induction text using isPairs.induct generalizing n with
  | case1 => exact ⟨rfl,rfl⟩
  | case2 c => simp at hlength; omega
  | case3 a b text ih =>
    obtain ⟨m,rfl⟩ : ∃ m, n = m + 1 := ⟨n - 1,by simp at hlength; omega⟩
    simp only [forall_mem_cons] at h
    have hpair : isPair a b = true := by rw [isPair, h.1, h.2.1]; rfl
    obtain ⟨hpairs,hstop⟩ := ih (n := m) (by simp at hlength; omega) h.2.2
    exact ⟨by rw [isPairs, hpair, hpairs]; rfl,by rw [stopsCleanly, if_pos hpair, hstop]⟩

theorem length_of_isPairs (h : isPairs text = true) : byteLen text = text.length := by
  induction text using isPairs.induct with
  | case1 => rfl
  | case2 c => exact Bool.noConfusion h
  | case3 a b text ih =>
    rw [isPairs, and_eq_true] at h
    obtain ⟨ha,hb⟩ := utf8Size_of_isPair h.1
    simp only [byteLen_cons, ha, hb, ih h.2, length_cons]
    omega

theorem toNat_pairByte {e : ℕ} (hd : d < 16) (he : e < 16) :
    (UInt8.ofNat (d * 16 + e)).toNat = d * 16 + e := by
  rw [UInt8.toNat_ofNat']
  exact Nat.mod_eq_of_lt (by omega)

theorem pair_value (h : isHexDigit a = true ∧ isHexDigit b = true) :
    (UInt8.ofNat (pairByte a b)).toNat = pairByte a b ∧
      lowerHex (UInt8.ofNat (pairByte a b)) = [a.toLower, b.toLower] := by
  obtain ⟨d,hd⟩ := isHexDigit_iff.mp h.1
  obtain ⟨e,he⟩ := isHexDigit_iff.mp h.2
  obtain ⟨hlt,hlower,-⟩ := toDigit_spec hd
  obtain ⟨hlt',hlower',-⟩ := toDigit_spec he
  have hbyte : pairByte a b = d * 16 + e := by rw [pairByte, hd, he]; rfl
  have hnat := toNat_pairByte hlt hlt'
  have hdiv : (d * 16 + e) / 16 = d := by omega
  have hmod : (d * 16 + e) % 16 = e := by omega
  rw [hbyte, lowerHex, hnat, hdiv, hmod, hlower, hlower']
  exact ⟨rfl,rfl⟩

theorem pairBytes_digits (hlength : text.length = n * 2) (h : ∀ c ∈ text, isHexDigit c = true) :
    (pairBytes text).length = n ∧
      (pairBytes text).flatMap lowerHex = text.map Char.toLower ∧
      ∀ value, (pairBytes text).foldl (fun value b => value * 256 + b.toNat) value =
        text.foldl (fun value c => value * 16 + (toDigit c).getD 0) value := by
  induction text using isPairs.induct generalizing n with
  | case1 =>
    obtain rfl : n = 0 := by simp at hlength; omega
    exact ⟨rfl,rfl,fun _ => rfl⟩
  | case2 c => simp at hlength; omega
  | case3 a b text ih =>
    obtain ⟨m,rfl⟩ : ∃ m, n = m + 1 := ⟨n - 1,by simp at hlength; omega⟩
    simp only [forall_mem_cons] at h
    obtain ⟨hcount,hlower,hvalue⟩ := ih (n := m) (by simp at hlength; omega) h.2.2
    obtain ⟨hbyte,hpair⟩ := pair_value ⟨h.1,h.2.1⟩
    refine ⟨by rw [pairBytes, length_cons, hcount],?_,fun value => ?_⟩
    · rw [pairBytes, flatMap_cons, hpair, hlower]
      rfl
    · rw [pairBytes, foldl_cons, foldl_cons, foldl_cons, hvalue, hbyte, pairByte]
      congr 1
      ring

/-! ## The promise -/

theorem parseIvHex_of_length (h : byteLen (hexPart text) = 32) :
    parseIvHex text = bytesFrom (hexPart text) 16 0 := if_neg (not_not.mpr h)

theorem byteLen_of_isHexText (h : IsHexText text) : byteLen text = 32 := by
  rw [byteLen_digits h.2, h.1]

theorem reads_of_error (h : ∃ e, parseIvHex text = some (.error e))
    (hnot : ¬ IsHexText (hexPart text)) : Reads text := by
  obtain ⟨e,he⟩ := h
  refine ⟨by rw [he]; rfl,iff_of_false ?_ hnot,fun iv hiv => ?_⟩
  · rintro ⟨iv,hiv⟩
    simp [he] at hiv
  · simp [he] at hiv

theorem reads_of_digits (h : IsHexText (hexPart text)) : Reads text := by
  have hlength : (hexPart text).length = 16 * 2 := h.1
  obtain ⟨hpairs,-⟩ := isPairs_digits hlength h.2
  obtain ⟨hcount,hlower,hvalue⟩ := pairBytes_digits hlength h.2
  have hparse : parseIvHex text = some (.ok (pairBytes (hexPart text))) := by
    rw [parseIvHex_of_length (byteLen_of_isHexText h)]
    exact bytesFrom_pairs (i := 0) (by rw [byteLen_nil]) hlength hpairs
  refine ⟨by rw [hparse]; rfl,iff_of_true ⟨_,hparse⟩ h,fun iv hiv => ?_⟩
  obtain rfl := Except.ok.inj (some.inj (hparse.symm.trans hiv))
  exact ⟨hcount,hvalue 0,hlower⟩

/-- The text is read as 32 digits, or refused, except where a byte is cut out of a character
or begins with a plus sign. -/
theorem parse_iv_iff (ivStr : List Char) : Reads ivStr ↔
    byteLen (hexPart ivStr) ≠ 32 ∨ IsHexText (hexPart ivStr) ∨
      stopsCleanly (hexPart ivStr) = true := by
  by_cases hdigits : IsHexText (hexPart ivStr)
  · exact iff_of_true (reads_of_digits hdigits) (.inr (.inl hdigits))
  by_cases hlength : byteLen (hexPart ivStr) = 16 * 2
  · have hparse := parseIvHex_of_length hlength
    have hnil : byteLen [] = 0 * 2 := rfl
    cases hstop : stopsCleanly (hexPart ivStr) with
    | true =>
      have herror := bytesFrom_stop hnil hlength hstop
      rw [nil_append, ← hparse] at herror
      exact iff_of_true (reads_of_error herror hdigits) (.inr (.inr rfl))
    | false =>
      -- Every pair is read, some with a plus sign, or one is cut out of a character.
      refine iff_of_false (fun hreads => ?_) ?_
      · cases hpairs : isPairs (hexPart ivStr) with
        | true =>
          have hcount := (length_of_isPairs hpairs).symm.trans hlength
          have hok := bytesFrom_pairs hnil hcount hpairs
          rw [nil_append, ← hparse] at hok
          exact hdigits (hreads.ok_iff.mp ⟨_,hok⟩)
        | false =>
          have hnone := bytesFrom_cut hnil hlength hstop hpairs
          rw [nil_append, ← hparse] at hnone
          have hreturns := hreads.returns
          rw [hnone] at hreturns
          exact Bool.noConfusion hreturns
      · rintro (hne | hhex | htrue)
        · exact hne hlength
        · exact hdigits hhex
        · exact Bool.noConfusion htrue
  · exact iff_of_true (reads_of_error ⟨_,if_pos hlength⟩ hdigits) (.inl hlength)

/-- A euro sign after the first digit is cut, and bytes with plus signs are read. -/
theorem cut_character_panics :
    ¬ (∀ ivStr, Reads ivStr) ∧
      parseIvHex ('0' :: '€' :: List.replicate 28 '0') = none ∧
      parseIvHex (List.replicate 16 ['+', 'f']).flatten =
        some (.ok (List.replicate 16 15)) := by
  have hcut : parseIvHex ('0' :: '€' :: List.replicate 28 '0') = none := by decide
  refine ⟨fun hall => ?_,hcut,by decide⟩
  have hreturns := (hall ('0' :: '€' :: List.replicate 28 '0')).returns
  rw [hcut] at hreturns
  exact Bool.noConfusion hreturns

end RinaDown.HlsIv
