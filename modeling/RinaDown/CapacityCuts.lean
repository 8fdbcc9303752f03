import Mathlib.Data.List.Sort

/-!
# Cutting a list to a capacity

The elements of a list are cut to a number, by a cutoff that fewer elements than that number
exceed: the first elements that are not before the cutoff are kept. No element that is cut
is then later than one that is kept, exactly if what is cut does not exceed the cutoff. This
depends on the order of the list where elements tie.
-/

namespace RinaDown.CapacityCuts
open List

variable {α β : Type*} [LinearOrder β] (f : α → β)

def notBefore (c : β) (l : List α) : List α := l.filter fun e => c ≤ f e

def kept (c : β) (n : ℕ) (l : List α) : List α := (notBefore f c l).take n

/-- No element that is cut is later than one that is kept. -/
def KeepsLatest (c : β) (n : ℕ) (l : List α) : Prop :=
  ∀ e ∈ l, e ∉ kept f c n l → ∀ k ∈ kept f c n l, f e ≤ f k

/-- The element that is followed by fewer than a number of others in sorted order. -/
def cutoff (d : β) (n : ℕ) (l : List β) : β :=
  (l.mergeSort fun a b => a ≤ b).getD ((l.mergeSort fun a b => a ≤ b).length - n) d

variable {f} {c : β} {n : ℕ} {l : List α}

theorem mem_notBefore {e : α} : e ∈ notBefore f c l ↔ e ∈ l ∧ c ≤ f e := by
  rw [notBefore, mem_filter, decide_eq_true_eq]

theorem exists_cutoff (d : β) {l : List β} (hpos : 0 < n) (hlength : n ≤ l.length) :
    ∃ (s : List β) (hi : s.length - n < s.length), s.Pairwise (· ≤ ·) ∧ s.Perm l ∧
      cutoff d n l = s[s.length - n] := by
  have hperm := mergeSort_perm l fun a b => a ≤ b
  have hi := Nat.sub_lt_of_pos_le hpos (hlength.trans_eq hperm.length_eq.symm)
  refine ⟨_,hi,l.pairwise_mergeSort' (· ≤ ·),hperm,?_⟩
  rw [cutoff, getD_eq_getElem?_getD, getElem?_eq_getElem hi, Option.getD_some]

theorem countP_cutoff_lt {d : β} {l : List β} (hpos : 0 < n) (hlength : n ≤ l.length) :
    l.countP (cutoff d n l < ·) < n := by
  obtain ⟨s,hi,hsorted,hperm,hcut⟩ := exists_cutoff d hpos hlength
  rw [hcut, ← hperm.countP_eq]
  have hfront : (s.take (s.length - n + 1)).countP (s[s.length - n] < ·) = 0 := by
    apply countP_eq_zero.mpr
    intro x hx
    obtain ⟨j,hj,rfl⟩ := mem_iff_getElem.mp hx
    rw [getElem_take, decide_eq_true_eq, not_lt]
    rw [length_take] at hj
    obtain hlt | heq := Nat.lt_or_eq_of_le (Nat.le_of_lt_succ (lt_of_lt_of_le hj (min_le_left _ _)))
    · exact pairwise_iff_getElem.mp hsorted _ _ _ _ hlt
    · simp only [heq, le_refl]
  have hback := countP_le_length (p := (decide <| s[s.length - n] < ·))
    (l := s.drop (s.length - n + 1))
  rw [length_drop] at hback
  calc s.countP (s[s.length - n] < ·)
      = (s.take (s.length - n + 1)).countP (s[s.length - n] < ·) +
          (s.drop (s.length - n + 1)).countP (s[s.length - n] < ·) := by
        rw [← countP_append, take_append_drop]
    _ < n := by omega

theorem le_countP_cutoff_le {d : β} {l : List β} (hpos : 0 < n) (hlength : n ≤ l.length) :
    n ≤ l.countP (cutoff d n l ≤ ·) := by
  obtain ⟨s,hi,hsorted,hperm,hcut⟩ := exists_cutoff d hpos hlength
  have hsize := hperm.length_eq
  rw [hcut, ← hperm.countP_eq]
  have hall : (s.drop (s.length - n)).countP (s[s.length - n] ≤ ·) = n := by
    rw [countP_eq_length.mpr, length_drop]
    · omega
    · intro x hx
      obtain ⟨j,hj,rfl⟩ := mem_iff_getElem.mp hx
      rw [getElem_drop, decide_eq_true_eq]
      obtain rfl | hpos := Nat.eq_zero_or_pos j
      · exact le_refl _
      · exact pairwise_iff_getElem.mp hsorted _ _ _ _ (by omega)
  exact hall.ge.trans (drop_sublist _ _).countP_le

/-- An element exceeds the cutoff if there are fewer than the number that are as late. -/
theorem cutoff_lt_iff {d b : β} {l : List β} (hpos : 0 < n) (hlength : n ≤ l.length) :
    cutoff d n l < b ↔ l.countP (b ≤ ·) < n := by
  constructor
  · intro h
    refine (countP_mono_left fun x _ hx => ?_).trans_lt (countP_cutoff_lt (d := d) hpos hlength)
    exact decide_eq_true (h.trans_le (of_decide_eq_true hx))
  · intro h
    by_contra hle
    refine absurd h (not_lt.mpr ((le_countP_cutoff_le (d := d) hpos hlength).trans ?_))
    refine countP_mono_left fun x _ hx => ?_
    exact decide_eq_true ((not_lt.mp hle).trans (of_decide_eq_true hx))

theorem cutoff_le_iff {d b : β} {l : List β} (hpos : 0 < n) (hlength : n ≤ l.length) :
    cutoff d n l ≤ b ↔ l.countP (b < ·) < n := by
  constructor
  · intro h
    refine (countP_mono_left fun x _ hx => ?_).trans_lt (countP_cutoff_lt (d := d) hpos hlength)
    exact decide_eq_true (h.trans_lt (of_decide_eq_true hx))
  · intro h
    by_contra hlt
    refine absurd h (not_lt.mpr ((le_countP_cutoff_le (d := d) hpos hlength).trans ?_))
    refine countP_mono_left fun x _ hx => ?_
    exact decide_eq_true ((not_le.mp hlt).trans_le (of_decide_eq_true hx))

theorem mem_drop_of_not_mem_kept {e : α} (he : e ∈ notBefore f c l) (hcut : e ∉ kept f c n l) :
    e ∈ (notBefore f c l).drop n := by
  rw [← take_append_drop n (notBefore f c l)] at he
  exact (mem_append.mp he).resolve_left hcut

theorem not_mem_kept (hnodup : l.Nodup) {e : α} (he : e ∈ (notBefore f c l).drop n) :
    e ∉ kept f c n l := by
  have h : ((notBefore f c l).take n ++ (notBefore f c l).drop n).Nodup := by
    rw [take_append_drop]
    exact hnodup.filter _
  intro hkept
  exact (disjoint_of_nodup_append h) hkept he

/-- If something is cut that is not before the cutoff, an element at the cutoff is kept. -/
theorem exists_kept_le (hcount : l.countP (c < f ·) < n)
    (hlong : n ≤ (notBefore f c l).length) : ∃ k ∈ kept f c n l, f k ≤ c := by
  by_contra hnone
  simp only [not_exists, not_and, not_le] at hnone
  have hall : (kept f c n l).countP (c < f ·) = (kept f c n l).length :=
    countP_eq_length.mpr fun k hk => decide_eq_true (hnone k hk)
  have hsub : (kept f c n l).Sublist l := (take_sublist _ _).trans filter_sublist
  have hle := hsub.countP_le (p := fun e => decide (c < f e))
  rw [hall, kept, length_take, Nat.min_eq_left hlong] at hle
  omega

theorem keepsLatest_iff (hnodup : l.Nodup) (hcount : l.countP (c < f ·) < n) :
    KeepsLatest f c n l ↔ ∀ e ∈ (notBefore f c l).drop n, f e ≤ c := by
  constructor
  · intro h e he
    have hlong : n ≤ (notBefore f c l).length := by
      have hpos := length_pos_of_mem he
      rw [length_drop] at hpos
      omega
    obtain ⟨k,hk,hkc⟩ := exists_kept_le hcount hlong
    have hmem := mem_notBefore.mp (mem_of_mem_drop he)
    exact (h e hmem.1 (not_mem_kept hnodup he) k hk).trans hkc
  · intro h e he hcut k hk
    have hck : c ≤ f k := (mem_notBefore.mp (mem_of_mem_take hk)).2
    by_cases hbefore : c ≤ f e
    · exact (h e (mem_drop_of_not_mem_kept (mem_notBefore.mpr ⟨he,hbefore⟩) hcut)).trans hck
    · exact (le_of_not_ge hbefore).trans hck

end RinaDown.CapacityCuts
