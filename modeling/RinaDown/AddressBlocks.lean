import Mathlib.Data.Nat.Bitwise

/-!
# Blocks of an address space

A block is given by its first address and by the number of leading bits that its addresses
share. To belong to it is to lie in an interval, and a mask that keeps the leading bits of a
word cuts the word down to a multiple of a power of two.
-/

namespace RinaDown.AddressBlocks

structure Block (width : ℕ) where
  base : ℕ
  len : ℕ
  aligned : 2 ^ (width - len) ∣ base

variable {width : ℕ}

def Block.Contains (b : Block width) (x : ℕ) : Prop :=
  x / 2 ^ (width - b.len) = b.base / 2 ^ (width - b.len)

instance (b : Block width) (x : ℕ) : Decidable (b.Contains x) :=
  inferInstanceAs (Decidable (_ = _))

theorem Block.contains_iff (b : Block width) (x : ℕ) :
    b.Contains x ↔ b.base ≤ x ∧ x < b.base + 2 ^ (width - b.len) := by
  obtain ⟨q,hq⟩ := b.aligned
  have hpos : 0 < 2 ^ (width - b.len) := Nat.two_pow_pos _
  unfold Block.Contains
  rw [hq, Nat.mul_div_cancel_left q hpos, Nat.div_eq_iff hpos, Nat.mul_comm q]
  constructor
  · rintro ⟨hlow,hhigh⟩
    exact ⟨hlow,by omega⟩
  · rintro ⟨hlow,hhigh⟩
    exact ⟨hlow,by omega⟩

/-- The mask of all bits from the `k`th on cuts a word of `width` bits down to a multiple of
`2 ^ k`. -/
theorem and_leading (x k : ℕ) (hx : x < 2 ^ width) :
    x &&& (2 ^ (width - k) - 1) * 2 ^ k = x / 2 ^ k * 2 ^ k := by
  apply Nat.eq_of_testBit_eq
  intro i
  rw [Nat.testBit_and, Nat.testBit_mul_two_pow, Nat.testBit_mul_two_pow,
    Nat.testBit_two_pow_sub_one, Nat.testBit_div_two_pow]
  by_cases hi : k ≤ i
  · rw [Nat.sub_add_cancel hi]
    by_cases hwidth : i < width
    · have hlt : i - k < width - k := by omega
      simp [hi, hlt]
    · have hzero : x.testBit i = false :=
        Nat.testBit_lt_two_pow (lt_of_lt_of_le hx (Nat.pow_le_pow_right (by decide) (by omega)))
      simp [hzero]
  · simp [hi]

end RinaDown.AddressBlocks
