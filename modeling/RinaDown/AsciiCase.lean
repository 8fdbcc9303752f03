import Mathlib.Data.Char

/-!
# ASCII case

The capital letters of ASCII are made small, and no other character is changed.
-/

namespace RinaDown.AsciiCase

theorem toNat_toLower (c : Char) : c.toLower.toNat =
    if 65 ≤ c.toNat ∧ c.toNat ≤ 90 then c.toNat + 32 else c.toNat := by
  have hge (n : UInt32) : c.val ≥ n ↔ n.toNat ≤ c.toNat := UInt32.le_iff_toNat_le
  have hle (n : UInt32) : c.val ≤ n ↔ c.toNat ≤ n.toNat := UInt32.le_iff_toNat_le
  unfold Char.toLower
  by_cases hupper : 65 ≤ c.toNat ∧ c.toNat ≤ 90
  · rw [if_pos hupper, dif_pos ⟨(hge 65).mpr hupper.1,(hle 90).mpr hupper.2⟩]
    change (c.val + 32).toNat = c.toNat + 32
    have hval : c.val.toNat = c.toNat := rfl
    rw [UInt32.toNat_add, hval]
    change (c.toNat + 32) % 2 ^ 32 = _
    omega
  · rw [if_neg hupper, dif_neg fun h => hupper ⟨(hge 65).mp h.1,(hle 90).mp h.2⟩]

theorem toLower_toLower (c : Char) : c.toLower.toLower = c.toLower := by
  apply Char.toNat_inj.mp
  rw [toNat_toLower c.toLower]
  apply if_neg
  rw [toNat_toLower c]
  split_ifs <;> omega

theorem toLower_eq_iff {c c' : Char} (h : c'.toNat < 65) : c.toLower = c' ↔ c = c' := by
  rw [← Char.toNat_inj, ← Char.toNat_inj, toNat_toLower]
  split_ifs <;> omega

end RinaDown.AsciiCase
