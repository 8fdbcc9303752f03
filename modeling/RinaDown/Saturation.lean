import Mathlib.Algebra.Group.Nat.Defs

/-!
# Saturating arithmetic

A sum or a product of 64 bits that does not fit is the largest number.
-/

namespace RinaDown.Saturation

def maxU64 : ℕ := 2 ^ 64 - 1

def saturatingAdd (a b : ℕ) : ℕ := min (a + b) maxU64

def saturatingMul (a b : ℕ) : ℕ := min (a * b) maxU64

end RinaDown.Saturation
