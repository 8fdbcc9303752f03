import Mathlib.Order.OrderIsoNat

/-!
# Infinite executions of partial step functions

An execution that takes a step at every time, and the rule that carries its liveness: a rank
in a well-founded order that no step raises and some later step always lowers ends in the
goal.
-/

namespace RinaDown.LabelledExecutions

universe u v w

variable {σ : Type u} {α : Type v} {step : σ → α → Option σ}

/-- At every time the step with the label of that time leads to the next state. -/
def Endless (step : σ → α → Option σ) (s : ℕ → σ) (a : ℕ → α) : Prop :=
  ∀ n, step (s n) (a n) = some (s (n + 1))

variable {s : ℕ → σ} {a : ℕ → α} {Cond : σ → α → Prop}

/-- What a step preserves under the condition, an infinite execution preserves. -/
theorem Endless.invariant {Inv : σ → Prop}
    (hstep : ∀ s a t, Inv s → Cond s a → step s a = some t → Inv t) (h : Endless step s a)
    (hcond : ∀ n, Cond (s n) (a n)) (hs : Inv (s 0)) (n : ℕ) : Inv (s n) := by
  induction n with
  | zero => exact hs
  | succ n ih => exact hstep (s n) (a n) (s (n + 1)) ih (hcond n) (h n)

/-- Short of the goal no step raises the rank, and again and again a step lowers it. -/
theorem exists_goal_of_rank {β : Type w} [PartialOrder β] [WellFoundedLT β] (rank : σ → β)
    (Goal : σ → Prop) (hle : ∀ n, ¬ Goal (s (n + 1)) → rank (s (n + 1)) ≤ rank (s n))
    (hlt : ∀ n, ∃ m ≥ n, ¬ Goal (s (m + 1)) → rank (s (m + 1)) < rank (s m)) :
    ∃ n, Goal (s n) := by
  by_contra hnever
  rw [not_exists] at hnever
  have hantitone : Antitone fun n => rank (s n) :=
    antitone_nat_of_succ_le fun n => hle n (hnever (n + 1))
  obtain ⟨n,hconst⟩ := WellFoundedLT.antitone_chain_condition hantitone
  obtain ⟨m,hm,hlower⟩ := hlt n
  have heq : rank (s m) = rank (s (m + 1)) := (hconst m hm).symm.trans (hconst (m + 1) (by omega))
  exact (hlower (hnever (m + 1))).ne heq.symm

end RinaDown.LabelledExecutions
