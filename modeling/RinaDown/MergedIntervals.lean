import Mathlib.Data.List.Sort

/-!
# Merged intervals

A set of points is kept as a list of half-open intervals that neither overlap nor
touch. An interval is added at the end, and the list is sorted by the starts and
merged from left to right.
-/

namespace RinaDown.MergedIntervals
open List

variable {κ : Type*} [LinearOrder κ]

/-- One turn of the merge; the last interval comes first. -/
def absorb (merged : List (κ × κ)) (r : κ × κ) : List (κ × κ) :=
  match merged with
  | [] => [r]
  | last :: rest =>
    if r.1 ≤ last.2 then (last.1, max last.2 r.2) :: rest else r :: last :: rest

def merge (l : List (κ × κ)) : List (κ × κ) :=
  ((l.insertionSort (fun a b => a.1 ≤ b.1)).foldl absorb []).reverse

def Covers (l : List (κ × κ)) (i : κ) : Prop := ∃ r ∈ l, r.1 ≤ i ∧ i < r.2

/-- Sorted, and with a gap between any two. -/
structure Separated (l : List (κ × κ)) : Prop where
  gaps : l.Pairwise (fun a b => a.2 < b.1)
  nonempty : ∀ r ∈ l, r.1 < r.2

variable {l merged rest : List (κ × κ)} {r : κ × κ} {i start stop : κ}

theorem not_covers_nil : ¬ Covers ([] : List (κ × κ)) i := by
  rintro ⟨r,hr,-⟩
  cases hr

theorem covers_cons : Covers (r :: l) i ↔ (r.1 ≤ i ∧ i < r.2) ∨ Covers l i := by
  constructor
  · rintro ⟨q,hq,hi⟩
    rcases mem_cons.mp hq with rfl | hq
    · exact .inl hi
    · exact .inr ⟨q,hq,hi⟩
  · rintro (hi | ⟨q,hq,hi⟩)
    · exact ⟨r,mem_cons_self,hi⟩
    · exact ⟨q,mem_cons_of_mem r hq,hi⟩

theorem covers_congr {l' : List (κ × κ)} (h : ∀ r, r ∈ l ↔ r ∈ l') : Covers l i ↔ Covers l' i :=
  exists_congr fun r => and_congr_left fun _ => h r

theorem covers_concat : Covers (l ++ [r]) i ↔ Covers l i ∨ (r.1 ≤ i ∧ i < r.2) := by
  rw [covers_congr (show ∀ q, q ∈ l ++ [r] ↔ q ∈ r :: l by simp [or_comm]), covers_cons, or_comm]

/-- What the merge has made of the intervals up to here, before it goes on with `rest`. -/
structure Absorbed (merged rest : List (κ × κ)) : Prop where
  gaps : merged.Pairwise (fun a b => b.2 < a.1)
  nonempty : ∀ r ∈ merged, r.1 < r.2
  below : ∀ last ∈ merged.head?, ∀ r ∈ rest, last.1 ≤ r.1

theorem absorb_absorbed (h : Absorbed merged (r :: rest)) (hr : r.1 < r.2)
    (hsorted : ∀ q ∈ rest, r.1 ≤ q.1) : Absorbed (absorb merged r) rest := by
  obtain ⟨hgaps,hnonempty,hbelow⟩ := h
  cases merged with
  | nil =>
    exact ⟨pairwise_singleton _ _,by simpa [absorb] using hr,
      by simpa [absorb] using hsorted⟩
  | cons last merged =>
    obtain ⟨hlast,hgaps⟩ := pairwise_cons.mp hgaps
    have hstart : last.1 ≤ r.1 := hbelow last rfl r mem_cons_self
    have hlen := hnonempty last mem_cons_self
    unfold absorb
    dsimp only
    split_ifs with htouch
    · refine ⟨pairwise_cons.mpr ⟨hlast,hgaps⟩,?_,?_⟩
      · intro q hq
        rcases mem_cons.mp hq with rfl | hq
        · exact lt_of_lt_of_le hlen (le_max_left _ _)
        · exact hnonempty q (mem_cons_of_mem _ hq)
      · intro q hq p hp
        cases hq
        exact le_trans hstart (hsorted p hp)
    · have hgap : last.2 < r.1 := not_le.mp htouch
      refine ⟨pairwise_cons.mpr ⟨?_,pairwise_cons.mpr ⟨hlast,hgaps⟩⟩,?_,?_⟩
      · intro q hq
        rcases mem_cons.mp hq with rfl | hq
        · exact hgap
        · exact lt_trans (lt_trans (hlast q hq) hlen) hgap
      · intro q hq
        rcases mem_cons.mp hq with rfl | hq
        · exact hr
        · exact hnonempty q hq
      · intro q hq p hp
        cases hq
        exact hsorted p hp

theorem covers_absorb (h : Absorbed merged (r :: rest)) :
    Covers (absorb merged r) i ↔ (r.1 ≤ i ∧ i < r.2) ∨ Covers merged i := by
  cases merged with
  | nil => exact covers_cons
  | cons last merged =>
    have hstart : last.1 ≤ r.1 := h.below last rfl r mem_cons_self
    unfold absorb
    dsimp only
    split_ifs with htouch
    · rw [covers_cons, covers_cons, ← or_assoc]
      refine or_congr_left ⟨?_,?_⟩
      · rintro ⟨hle,hlt⟩
        rcases lt_sup_iff.mp hlt with hlast | hlt
        · exact .inr ⟨hle,hlast⟩
        · rcases le_or_gt r.1 i with hri | hri
          · exact .inl ⟨hri,hlt⟩
          · exact .inr ⟨hle,lt_of_lt_of_le hri htouch⟩
      · rintro (⟨hle,hlt⟩ | ⟨hle,hlt⟩)
        · exact ⟨le_trans hstart hle,lt_of_lt_of_le hlt (le_max_right _ _)⟩
        · exact ⟨hle,lt_of_lt_of_le hlt (le_max_left _ _)⟩
    · exact covers_cons

theorem foldl_absorb (h : Absorbed merged rest) (hrest : ∀ r ∈ rest, r.1 < r.2)
    (hsorted : rest.Pairwise (fun a b => a.1 ≤ b.1)) :
    Absorbed (rest.foldl absorb merged) [] ∧
      ∀ i, Covers (rest.foldl absorb merged) i ↔ Covers merged i ∨ Covers rest i := by
  induction rest generalizing merged with
  | nil => exact ⟨h,fun i => by simp [not_covers_nil]⟩
  | cons r rest ih =>
    obtain ⟨hle,hsorted⟩ := pairwise_cons.mp hsorted
    have hr := hrest r mem_cons_self
    obtain ⟨habsorbed,hcovers⟩ := ih (absorb_absorbed h hr hle)
      (fun q hq => hrest q (mem_cons_of_mem r hq)) hsorted
    refine ⟨habsorbed,?_⟩
    intro i
    rw [foldl_cons, hcovers i, covers_absorb h, covers_cons]
    tauto

theorem merge_spec (h : ∀ r ∈ l, r.1 < r.2) :
    Separated (merge l) ∧ ∀ i, Covers (merge l) i ↔ Covers l i := by
  have hperm := perm_insertionSort (fun a b : κ × κ => a.1 ≤ b.1) l
  have hsorted : (l.insertionSort (fun a b : κ × κ => a.1 ≤ b.1)).Pairwise (fun a b => a.1 ≤ b.1) :=
    pairwise_insertionSort _ l
  obtain ⟨⟨hgaps,hnonempty,-⟩,hcovers⟩ := foldl_absorb
    (show Absorbed [] _ from ⟨List.Pairwise.nil,nofun,nofun⟩) (fun r hr => h r (hperm.mem_iff.mp hr)) hsorted
  refine ⟨⟨pairwise_reverse.mpr hgaps,fun r hr => hnonempty r (mem_reverse.mp hr)⟩,?_⟩
  intro i
  rw [merge, covers_congr (fun r => mem_reverse), hcovers i,
    covers_congr (fun r => hperm.mem_iff), or_iff_right not_covers_nil]

end RinaDown.MergedIntervals
