import Mathlib.Algebra.Order.BigOperators.Group.List
import Mathlib.Tactic.Ring

/-!
# Fair shares

Holders are spread over nodes. If a new holder is admitted below the rounded up
average, some node can always take it, because not every node can be at or above
the average of one holder more than there are.
-/

namespace RinaDown.FairShare
open List

def divCeil (a b : ℕ) : ℕ := (a + b - 1) / b

theorem le_mul_divCeil (a : ℕ) {b : ℕ} (hb : 0 < b) : a ≤ b * divCeil a b := by
  have h := Nat.lt_mul_div_succ (a + b - 1) hb
  rw [Nat.mul_add, Nat.mul_one] at h
  rw [divCeil]
  omega

/-- Some load is below the share of one holder more than there are. -/
theorem exists_lt_share {loads : List ℕ} {total : ℕ} (hne : loads ≠ [])
    (hsum : loads.sum ≤ total) : ∃ x ∈ loads, x < divCeil (total + 1) loads.length := by
  by_contra hall
  have hge : ∀ x ∈ loads, divCeil (total + 1) loads.length ≤ x := by
    intro x hx
    by_contra hlt
    exact hall ⟨x,hx,not_le.mp hlt⟩
  have hsum' := card_nsmul_le_sum loads _ hge
  rw [nsmul_eq_mul, Nat.cast_id] at hsum'
  have hceil := le_mul_divCeil (total + 1) (length_pos_iff.mpr hne)
  omega

variable {α : Type*}

theorem sum_range_single (n k : ℕ) :
    ((List.range n).map (fun i => if k = i then 1 else 0)).sum = if k < n then 1 else 0 := by
  induction n with
  | zero => rfl
  | succ n ih =>
    rw [range_succ, map_append, sum_append, ih, map_singleton,
      sum_singleton]
    split_ifs <;> omega

/-- The loads of the nodes `0..n` add up to the number of holders. -/
theorem sum_countP_range {n : ℕ} (node : α → ℕ) {holders : List α}
    (hlt : ∀ a ∈ holders, node a < n) :
    ((List.range n).map (fun i => holders.countP (fun a => node a = i))).sum = holders.length := by
  induction holders with
  | nil => simp
  | cons a holders ih =>
    have hsplit : (List.range n).map (fun i => (a :: holders).countP (fun a => node a = i)) =
        (List.range n).map (fun i => holders.countP (fun a => node a = i) +
          if node a = i then 1 else 0) := by
      refine map_congr_left (fun i _ => ?_)
      simp [countP_cons]
    rw [hsplit, sum_map_add, ih (fun b hb => hlt b (mem_cons_of_mem a hb)),
      sum_range_single, if_pos (hlt a mem_cons_self), length_cons]

end RinaDown.FairShare
