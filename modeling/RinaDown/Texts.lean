import Mathlib.Data.List.Infix
import RinaDown.CharacterPatterns

/-!
# Texts

The functions on texts that the programs take from their standard library: blanks are trimmed, a
prefix is removed, and decimal numbers are parsed. The digits of a number are parsed to it.
-/

namespace RinaDown.Texts
open List

open CharacterPatterns (Text)

/-- `char::is_whitespace`, the property White_Space. -/
def isWhitespace (c : Char) : Bool :=
  (0x9 ≤ c.toNat && c.toNat ≤ 0xD) || (0x2000 ≤ c.toNat && c.toNat ≤ 0x200A) ||
    [0x20, 0x85, 0xA0, 0x1680, 0x2028, 0x2029, 0x202F, 0x205F, 0x3000].contains c.toNat

def trimWhere (f : Char → Bool) (text : Text) : Text :=
  ((text.dropWhile f).reverse.dropWhile f).reverse

def trim (text : Text) : Text := trimWhere isWhitespace text

def splitWhitespace (text : Text) : List Text :=
  (text.splitOnP isWhitespace).filter (· ≠ [])

def contains (text word : Text) : Bool := decide (word <:+: text)

def stripPrefix (front text : List Char) : Option (List Char) :=
  if front.isPrefixOf text then some (text.drop front.length) else none

def decimal (text : Text) : Option ℕ :=
  if text ≠ [] ∧ text.all Char.isDigit then some (Nat.ofDigitChars 10 text 0) else none

/-- `str::parse` of an unsigned type with the given number of values. -/
def parseUnsigned (values : ℕ) (text : Text) : Option ℕ :=
  (decimal (if text.head? = some '+' then text.tail else text)).filter (· < values)

def parseI64 (text : Text) : Option ℤ :=
  if text.head? = some '-' then
    ((decimal text.tail).filter (· ≤ 2 ^ 63)).map fun n => -(n : ℤ)
  else (parseUnsigned (2 ^ 63) text).map fun n => (n : ℤ)

/-! ## Digits -/

theorem ne_of_isDigit {c d : Char} (hc : c.isDigit = true) (hd : d.isDigit = false) : c ≠ d := by
  rintro rfl
  rw [hc] at hd
  exact Bool.noConfusion hd

theorem isDigit_of_mem {n : ℕ} {c : Char} (h : c ∈ Nat.toDigits 10 n) : c.isDigit = true :=
  Nat.isDigit_of_mem_toDigits (by decide) (by decide) h

theorem decimal_toDigits (n : ℕ) : decimal (Nat.toDigits 10 n) = some n := by
  have hall : (Nat.toDigits 10 n).all Char.isDigit = true :=
    all_eq_true.mpr fun c hc => isDigit_of_mem hc
  rw [decimal, if_pos ⟨Nat.toDigits_ne_nil,hall⟩, Nat.ofDigitChars_ten_toDigits]

theorem head_toDigits_ne {n : ℕ} {c : Char} (hc : c.isDigit = false) :
    (Nat.toDigits 10 n).head? ≠ some c := fun hhead =>
  ne_of_isDigit (isDigit_of_mem (mem_of_head? hhead)) hc rfl

theorem parseUnsigned_toDigits (values n : ℕ) :
    parseUnsigned values (Nat.toDigits 10 n) = if n < values then some n else none := by
  rw [parseUnsigned, if_neg (head_toDigits_ne rfl), decimal_toDigits]
  rw [Option.filter_some]
  by_cases hn : n < values
  · rw [decide_eq_true hn, if_pos rfl, if_pos hn]
  · rw [decide_eq_false hn, if_neg Bool.false_ne_true, if_neg hn]

theorem parseI64_toDigits (n : ℕ) :
    parseI64 (Nat.toDigits 10 n) = if n < 2 ^ 63 then some (n : ℤ) else none := by
  rw [parseI64, if_neg (head_toDigits_ne rfl), parseUnsigned_toDigits]
  split_ifs <;> rfl

/-! ## Prefixes -/

theorem stripPrefix_append (front rest : List Char) : stripPrefix front (front ++ rest) = some rest := by
  rw [stripPrefix, if_pos (List.isPrefixOf_iff_prefix.mpr (prefix_append front rest)),
    drop_left]

theorem stripPrefix_eq_none {front text : List Char} (hnot : ¬ front <+: text) :
    stripPrefix front text = none :=
  if_neg (mt isPrefixOf_iff_prefix.mp hnot)

end RinaDown.Texts

namespace RinaDown.Strings

def trim (s : String) : String := String.ofList (Texts.trim s.toList)

end RinaDown.Strings
