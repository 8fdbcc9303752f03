/-!
# One pass over a waiting list

Waiting items are offered to a resource one after the other. An offer changes
the state of the resource and tells whether the item stays in the list. The
rules carry what one offer preserves through the pass, and give what is true of
the items that are still waiting when it ends.
-/

namespace RinaDown.WaitingList

universe u v w

variable {σ : Type u} {ι : Type v}

/-- Offer every item in order; the flag of an offer tells that the item stays. -/
def offerAll (offer : σ → ι → σ × Bool) : σ → List ι → σ × List ι
  | s, [] => (s, [])
  | s, i :: rest =>
    let r := offerAll offer (offer s i).1 rest
    (r.1, if (offer s i).2 then i :: r.2 else r.2)

variable (offer : σ → ι → σ × Bool)

@[simp] theorem offerAll_nil (s : σ) : offerAll offer s [] = (s, []) := rfl

theorem offerAll_cons_state (s : σ) (i : ι) (rest : List ι) :
    (offerAll offer s (i :: rest)).1 = (offerAll offer (offer s i).1 rest).1 := rfl

theorem offerAll_cons_kept (s : σ) (i : ι) (rest : List ι) :
    (offerAll offer s (i :: rest)).2 =
      if (offer s i).2 then i :: (offerAll offer (offer s i).1 rest).2
      else (offerAll offer (offer s i).1 rest).2 := rfl

/-- What every offer relates, the pass relates. -/
theorem offerAll_rel {R : σ → σ → Prop} (hrefl : ∀ s, R s s)
    (htrans : ∀ {s t u}, R s t → R t u → R s u) (hoffer : ∀ s i, R s (offer s i).1)
    (s : σ) (items : List ι) : R s (offerAll offer s items).1 := by
  induction items generalizing s with
  | nil => exact hrefl s
  | cons i rest ih => exact htrans (hoffer s i) (ih (offer s i).1)

/-- An invariant of the state and of the items still waiting: those kept so far, then the rest. -/
theorem offerAll_invariant_append {P : σ → List ι → Prop}
    (hkeep : ∀ s kept i rest, P s (kept ++ i :: rest) → (offer s i).2 = true →
      P (offer s i).1 (kept ++ i :: rest))
    (htake : ∀ s kept i rest, P s (kept ++ i :: rest) → (offer s i).2 = false →
      P (offer s i).1 (kept ++ rest))
    {s : σ} {kept items : List ι} (h : P s (kept ++ items)) :
    P (offerAll offer s items).1 (kept ++ (offerAll offer s items).2) := by
  induction items generalizing s kept with
  | nil => exact h
  | cons i rest ih =>
    cases hi : (offer s i).2 with
    | true =>
      have hnext : P (offer s i).1 ((kept ++ [i]) ++ rest) := by
        simpa using hkeep s kept i rest h hi
      simpa [offerAll_cons_state, offerAll_cons_kept, hi] using ih hnext
    | false =>
      simpa [offerAll_cons_state, offerAll_cons_kept, hi] using ih (htake s kept i rest h hi)

theorem offerAll_invariant {P : σ → List ι → Prop}
    (hkeep : ∀ s kept i rest, P s (kept ++ i :: rest) → (offer s i).2 = true →
      P (offer s i).1 (kept ++ i :: rest))
    (htake : ∀ s kept i rest, P s (kept ++ i :: rest) → (offer s i).2 = false →
      P (offer s i).1 (kept ++ rest))
    {s : σ} {items : List ι} (h : P s items) :
    P (offerAll offer s items).1 (offerAll offer s items).2 :=
  @offerAll_invariant_append _ _ offer _ hkeep htake s [] items h

/-- If an item that stays is blocked and no offer unblocks one, all that stay are blocked. -/
theorem offerAll_blocked {B : σ → ι → Prop}
    (hstays : ∀ s i, (offer s i).2 = true → B (offer s i).1 i)
    (hstable : ∀ s i j, B s j → B (offer s i).1 j)
    (s : σ) (items : List ι) :
    ∀ i ∈ (offerAll offer s items).2, B (offerAll offer s items).1 i := by
  have hpass : ∀ (rest : List ι) (s : σ) (i : ι), B s i →
      B (offerAll offer s rest).1 i := by
    intro rest
    induction rest with
    | nil => exact fun _ _ h => h
    | cons j rest ih => exact fun s i h => ih (offer s j).1 i (hstable s j i h)
  induction items generalizing s with
  | nil => simp
  | cons i rest ih =>
    intro j hj
    rw [offerAll_cons_kept] at hj
    rw [offerAll_cons_state]
    cases hi : (offer s i).2 with
    | true =>
      rw [if_pos hi] at hj
      rcases List.mem_cons.mp hj with rfl | hj
      · exact hpass rest _ j (hstays s j hi)
      · exact ih _ j hj
    | false =>
      rw [if_neg (by simp [hi])] at hj
      exact ih _ j hj

end RinaDown.WaitingList
