import Mathlib.Data.List.Perm.Subperm
import Mathlib.Data.List.Sort

/-!
# The nearest elements of a stream

Elements arrive in portions, and after each portion only the `n` nearest of those
at hand are kept. What was dropped is not asked for again: the kept elements are
the nearest of all that have arrived, since a dropped element is beaten by `n`
kept ones, and these leave only for nearer ones.
-/

namespace RinaDown.NearestLists
open List

variable {α κ : Type*} [LinearOrder κ]

/-- The stable sort by distance, cut to the first `n`. -/
def nearest (dist : α → κ) (n : ℕ) (l : List α) : List α :=
  (l.mergeSort (fun a b => dist a ≤ dist b)).take n

/-- The kept elements are the `n` nearest of those that have arrived. -/
structure IsNearest (dist : α → κ) (n : ℕ) (Arrived : α → Prop) (kept : List α) : Prop where
  sorted : kept.Pairwise (fun a b => dist a ≤ dist b)
  arrived : ∀ a ∈ kept, Arrived a
  full : ∀ b, Arrived b → b ∉ kept → kept.length = n
  nearer : ∀ b, Arrived b → b ∉ kept → ∀ a ∈ kept, dist a ≤ dist b

variable {dist : α → κ} {n : ℕ} {Arrived : α → Prop} {l kept fresh : List α}

theorem pairwise_mergeSort_dist (dist : α → κ) (l : List α) :
    (l.mergeSort (fun a b => dist a ≤ dist b)).Pairwise (fun a b => dist a ≤ dist b) :=
  l.pairwise_mergeSort' (Order.Preimage dist (· ≤ ·))

theorem isNearest_mergeSort (dist : α → κ) (n : ℕ) (l : List α) :
    IsNearest dist n (fun a => a ∈ l) (l.mergeSort (fun a b => dist a ≤ dist b)) where
  sorted := pairwise_mergeSort_dist dist l
  arrived _ ha := mem_mergeSort.mp ha
  full _ hb hnot := absurd (mem_mergeSort.mpr hb) hnot
  nearer _ hb hnot := absurd (mem_mergeSort.mpr hb) hnot

theorem mem_of_mem_nearest {a : α} (h : a ∈ nearest dist n l) : a ∈ l :=
  mem_mergeSort.mp (mem_of_mem_take h)

theorem nearest_cut {a b : α} (hb : b ∈ l) (hout : b ∉ nearest dist n l) :
    (nearest dist n l).length = n ∧ (a ∈ nearest dist n l → dist a ≤ dist b) := by
  have hsorted := pairwise_mergeSort_dist dist l
  have hmem : b ∈ l.mergeSort (fun a b => dist a ≤ dist b) := mem_mergeSort.mpr hb
  rw [← take_append_drop n (l.mergeSort (fun a b => dist a ≤ dist b))] at hsorted hmem
  have hdrop : b ∈ (l.mergeSort (fun a b => dist a ≤ dist b)).drop n :=
    (mem_append.mp hmem).resolve_left hout
  refine ⟨?_,fun ha => (pairwise_append.mp hsorted).2.2 a ha b hdrop⟩
  rw [nearest, length_take, Nat.min_eq_left]
  by_contra hshort
  rw [drop_of_length_le (by omega)] at hdrop
  cases hdrop

theorem IsNearest.merge (h : IsNearest dist n Arrived kept) (hnodup : (kept ++ fresh).Nodup) :
    IsNearest dist n (fun a => Arrived a ∨ a ∈ fresh) (nearest dist n (kept ++ fresh)) := by
  have hcut : ∀ b, (Arrived b ∨ b ∈ fresh) → b ∉ nearest dist n (kept ++ fresh) →
      (nearest dist n (kept ++ fresh)).length = n ∧
        ∀ a ∈ nearest dist n (kept ++ fresh), dist a ≤ dist b := by
    intro b hb hout
    by_cases hin : b ∈ kept ++ fresh
    · exact ⟨(nearest_cut (a := b) hin hout).1,fun a => (nearest_cut hin hout).2⟩
    · have hold : Arrived b := hb.resolve_right (fun hf => hin (mem_append_right _ hf))
      have hgone : b ∉ kept := fun hk => hin (mem_append_left _ hk)
      have hfull := h.full b hold hgone
      have hlength : (nearest dist n (kept ++ fresh)).length = n := by
        rw [nearest, length_take, length_mergeSort, length_append]
        omega
      refine ⟨hlength,?_⟩
      intro a ha
      by_contra hfar
      -- all the kept elements would stand before `a`, which leaves no room for it
      have hkept : ∀ k ∈ kept, k ∈ nearest dist n (kept ++ fresh) := by
        intro k hk
        by_contra hk'
        have hle := (nearest_cut (a := a) (mem_append_left fresh hk) hk').2 ha
        exact hfar (le_trans hle (h.nearer b hold hgone k hk))
      have hnew : a ∉ kept := fun hk => hfar (h.nearer b hold hgone a hk)
      have hsub : (a :: kept).Subperm (nearest dist n (kept ++ fresh)) := by
        refine List.Nodup.subperm (nodup_cons.mpr ⟨hnew,?_⟩) ?_
        · exact (nodup_append.mp hnodup).1
        · intro k hk
          rcases mem_cons.mp hk with rfl | hk
          · exact ha
          · exact hkept k hk
      have hcount := hsub.length_le
      rw [length_cons] at hcount
      omega
  refine ⟨?_,?_,fun b hb hout => (hcut b hb hout).1,fun b hb hout => (hcut b hb hout).2⟩
  · exact (pairwise_mergeSort_dist dist _).sublist (take_sublist _ _)
  · intro a ha
    exact (mem_append.mp (mem_of_mem_nearest ha)).imp_left (h.arrived a)

end RinaDown.NearestLists
