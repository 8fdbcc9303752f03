import RinaDown.Texts

/-!
# The resume checkpoint

After every segment the writer saves the number of the next segment, the bytes written and
the media sequence number of the playlist as one text. A text that was saved is read back as
it was, unless a number is too large for its type, and then the download is not resumed.
-/

namespace RinaDown.HlsCheckpoint

open CharacterPatterns (Text)
open Texts List

def splitn (sep : Char) : ℕ → Text → List Text
  | 0, _ => []
  | 1, text => [text]
  | n + 2, text =>
      match text.dropWhile (· ≠ sep) with
      | [] => [text]
      | _ :: rest => text.takeWhile (· ≠ sep) :: splitn sep (n + 1) rest

/-- The text that the writer saves. -/
def formatCheckpoint (nextToWrite downloadedBytes mediaSequence : ℕ) : Text :=
  Nat.toDigits 10 nextToWrite ++ ':' :: Nat.toDigits 10 downloadedBytes ++
    ':' :: Nat.toDigits 10 mediaSequence

/-- The saved segment, the saved bytes and, if it is known, the saved media sequence. -/
def parseResumeCheckpoint (s : Text) : ℕ × ℤ × Option ℕ :=
  let parts := splitn ':' 3 s
  match parts[0]?.bind (parseUnsigned (2 ^ 64)) with
  | none => (0, 0, none)
  | some idx =>
      (idx, (parts[1]?.bind parseI64).getD 0, parts[2]?.bind (parseUnsigned (2 ^ 64)))

/-! ## What was saved is read back -/

theorem splitn_digits (k n : ℕ) (rest : Text) :
    splitn ':' (k + 2) (Nat.toDigits 10 n ++ ':' :: rest) =
      Nat.toDigits 10 n :: splitn ':' (k + 1) rest := by
  have hdigits : ∀ c ∈ Nat.toDigits 10 n, decide (c ≠ ':') = true := fun c hc =>
    decide_eq_true (ne_of_isDigit (isDigit_of_mem hc) rfl)
  rw [splitn, dropWhile_append_of_pos hdigits, takeWhile_append_of_pos hdigits]
  simp

/-- A saved checkpoint is read back, or read as one that is not resumed. -/
theorem parseResumeCheckpoint_format {idx bytes mediaSequence : ℕ} (h : mediaSequence < 2 ^ 64) :
    parseResumeCheckpoint (formatCheckpoint idx bytes mediaSequence) =
        (idx, (bytes : ℤ), some mediaSequence) ∨
      (parseResumeCheckpoint (formatCheckpoint idx bytes mediaSequence)).1 = 0 ∨
      (parseResumeCheckpoint (formatCheckpoint idx bytes mediaSequence)).2.1 = 0 := by
  have hparts : splitn ':' 3 (formatCheckpoint idx bytes mediaSequence) =
      [Nat.toDigits 10 idx, Nat.toDigits 10 bytes, Nat.toDigits 10 mediaSequence] := by
    rw [formatCheckpoint, append_assoc, cons_append, splitn_digits 1,
      splitn_digits 0]
    rfl
  simp only [parseResumeCheckpoint, hparts, getElem?_cons_zero, getElem?_cons_succ,
    Option.bind_some, parseUnsigned_toDigits, parseI64_toDigits, if_pos h]
  by_cases hidx : idx < 2 ^ 64
  · by_cases hbytes : bytes < 2 ^ 63
    · left
      rw [if_pos hidx, if_pos hbytes]
      rfl
    · right
      right
      rw [if_pos hidx, if_neg hbytes]
      rfl
  · right
    left
    rw [if_neg hidx]

end RinaDown.HlsCheckpoint
