import RinaDown.Aria2

/-!
# Pages of the tasks

A client asks for a page by an offset and a number, both of 64 bits. The page consists of
the positions that the offset and the number name, counted from the front in order or from
the back in reverse. Consecutive pages are consecutive windows of the list, or of the list
in reverse. The end of a page from the front is computed in 64 bits, which it may exceed.
-/

namespace RinaDown.TaskPages
open List

open Aria2 (paginate)

variable {α : Type}

/-! ## Windows of a list -/

/-- The elements at the positions from one to before another, in order. -/
def between (lo hi : ℤ) (items : List α) : List α :=
  (items.zipIdx.filter fun e => lo ≤ e.2 ∧ e.2 < hi).map Prod.fst

theorem between_from (lo hi : ℤ) (items : List α) (i : ℕ) :
    ((items.zipIdx i).filter fun e => lo ≤ e.2 ∧ e.2 < hi).map Prod.fst =
      (items.take (hi - i).toNat).drop (lo - i).toNat := by
  induction items generalizing i with
  | nil =>
    rw [take_nil, drop_nil]
    rfl
  | cons x items ih =>
    rw [zipIdx_cons, filter_cons]
    have hnext := ih (i + 1)
    by_cases hhi : (i : ℤ) < hi
    · have htake : (hi - i).toNat = (hi - (i + 1 : ℕ)).toNat + 1 := by omega
      rw [htake, take_succ_cons]
      by_cases hlo : lo ≤ i
      · have hdrop : (lo - i).toNat = 0 := by omega
        have hdrop' : (lo - (i + 1 : ℕ)).toNat = 0 := by omega
        rw [if_pos (decide_eq_true ⟨hlo,hhi⟩), map_cons, hnext, hdrop, hdrop',
          drop_zero, drop_zero]
      · have hdrop : (lo - i).toNat = (lo - (i + 1 : ℕ)).toNat + 1 := by omega
        rw [if_neg (by simp [hlo]), hnext, hdrop, drop_succ_cons]
    · have htake : (hi - i).toNat = 0 := by omega
      have htake' : (hi - (i + 1 : ℕ)).toNat = 0 := by omega
      rw [if_neg (by simp [hhi]), hnext, htake, htake', take_zero, take_zero,
        drop_nil, drop_nil]

theorem between_eq (lo hi : ℤ) (items : List α) :
    between lo hi items = (items.take hi.toNat).drop lo.toNat := by
  have h := between_from lo hi items 0
  rwa [Int.natCast_zero, Int.sub_zero, Int.sub_zero] at h

/-- The windows of one width, one after the other, are the front of the list. -/
theorem windows_flatMap (l : List α) (n m : ℕ) :
    (List.range m).flatMap (fun k => (l.drop (k * n)).take n) = l.take (m * n) := by
  induction m with
  | zero => rw [Nat.zero_mul, take_zero, range_zero, flatMap_nil]
  | succ m ih =>
    rw [range_succ, flatMap_append, ih, flatMap_singleton, Nat.succ_mul,
      take_add]

/-! ## Pages -/

def page (items : List α) (offset num : ℤ) : List α :=
  let len : ℤ := items.length
  if 0 ≤ offset then between offset (min (offset + num) len) items
  else if len + offset < 0 then []
  else (between (max 0 (len + offset - num + 1)) (len + offset + 1) items).reverse

/-- The end of the page is not computed, or it has 64 bits. -/
def Fits (items : List α) (offset num : ℤ) : Prop :=
  offset < 0 ∨ num ≤ 0 ∨ (items.length : ℤ) ≤ offset ∨ offset + num < 2 ^ 63

instance (items : List α) (offset num : ℤ) : Decidable (Fits items offset num) :=
  inferInstanceAs (Decidable (_ ∨ _ ∨ _ ∨ _))

section
variable {items : List α} {offset num : ℤ}

theorem page_eq_nil (h : num ≤ 0 ∨ (items.length : ℤ) ≤ offset) : page items offset num = [] := by
  unfold page
  dsimp only
  split_ifs with hoffset hend
  · rw [between_eq]
    apply drop_eq_nil_of_le
    rw [length_take]
    omega
  · rfl
  · rw [between_eq]
    apply reverse_eq_nil_iff.mpr
    apply drop_eq_nil_of_le
    rw [length_take]
    omega

theorem paginate_of_not_fits (h : ¬Fits items offset num) : paginate items offset num = none := by
  unfold Fits at h
  unfold paginate
  dsimp only
  rw [if_neg (by omega), if_pos (by omega), if_neg (by omega), if_pos (by omega)]

theorem paginate_of_fits (h : Fits items offset num) :
    paginate items offset num = some (page items offset num) := by
  unfold Fits at h
  unfold paginate
  dsimp only
  split_ifs with hnum hoffset hlen hsum hend
  · rw [page_eq_nil (.inl hnum)]
  · rw [page_eq_nil (.inr hlen)]
  · omega
  · unfold page
    dsimp only
    rw [if_pos hoffset, between_eq]
  · unfold page
    dsimp only
    rw [if_neg hoffset, if_pos hend]
  · have hstart : (max 0 (items.length + offset - num + 1)).toNat =
        (items.length + offset - (num - 1)).toNat := by omega
    unfold page
    dsimp only
    rw [if_neg hoffset, if_neg hend, between_eq, hstart]

end

theorem page_front (items : List α) (k n : ℕ) : page items k n = (items.drop k).take n := by
  unfold page
  dsimp only
  rw [if_pos (Int.natCast_nonneg k), between_eq, Int.toNat_natCast]
  have hstop : (min ((k : ℤ) + n) items.length).toNat = min (k + n) items.length := by omega
  rw [hstop, ← take_take, take_length, drop_take, Nat.add_sub_cancel_left]

theorem page_back (items : List α) (k n : ℕ) :
    page items (-1 - k) n = (items.reverse.drop k).take n := by
  rw [drop_reverse, take_reverse, length_take]
  unfold page
  dsimp only
  rw [if_neg (by omega)]
  split_ifs with hend
  · have hnone : items.length - k = 0 := by omega
    rw [hnone, take_zero, drop_nil, reverse_nil]
  · have hstop : ((items.length : ℤ) + (-1 - k) + 1).toNat = items.length - k := by omega
    have hstart : (max 0 ((items.length : ℤ) + (-1 - k) - n + 1)).toNat =
        min (items.length - k) items.length - n := by omega
    rw [between_eq, hstop, hstart]

/-! ## Walks -/

/-- The pages of one size at some offsets, one after the other. -/
def walk (items : List α) (num : ℤ) : List ℤ → Option (List α)
  | [] => some []
  | offset :: offsets =>
      (paginate items offset num).bind fun page =>
        (walk items num offsets).map fun rest => page ++ rest

/-- The offsets of consecutive pages from the front. -/
def fromFront (n m : ℕ) : List ℤ := (List.range m).map fun k => ((k * n : ℕ) : ℤ)

/-- The offsets of consecutive pages from the back. -/
def fromBack (n m : ℕ) : List ℤ := (List.range m).map fun k => -1 - ((k * n : ℕ) : ℤ)

theorem walk_of_fits {items : List α} {num : ℤ} {offsets : List ℤ}
    (h : ∀ offset ∈ offsets, Fits items offset num) :
    walk items num offsets = some (offsets.flatMap fun offset => page items offset num) := by
  induction offsets with
  | nil => rfl
  | cons offset offsets ih =>
    obtain ⟨hoffset,hoffsets⟩ := forall_mem_cons.mp h
    rw [walk, paginate_of_fits hoffset, ih hoffsets]
    rfl

theorem walk_of_not_fits {items : List α} {num offset : ℤ} {offsets : List ℤ}
    (hmem : offset ∈ offsets) (h : ¬Fits items offset num) : walk items num offsets = none := by
  induction offsets with
  | nil => cases hmem
  | cons o offsets ih =>
    rw [walk]
    obtain rfl | hmem := mem_cons.mp hmem
    · rw [paginate_of_not_fits h]
      rfl
    · rw [ih hmem]
      cases paginate items o num <;> rfl

theorem walk_front {items : List α} {n m : ℕ} (hm : items.length ≤ m * n) :
    walk items n (fromFront n m) = some items ↔ ∀ k < m, Fits items ((k * n : ℕ) : ℤ) n := by
  constructor
  · intro hwalk k hk
    by_contra hfits
    have hmem : ((k * n : ℕ) : ℤ) ∈ fromFront n m :=
      mem_map_of_mem (mem_range.mpr hk)
    rw [walk_of_not_fits hmem hfits] at hwalk
    cases hwalk
  · intro hfits
    have hall : ∀ offset ∈ fromFront n m, Fits items offset n := by
      intro offset hmem
      obtain ⟨k,hk,rfl⟩ := mem_map.mp hmem
      exact hfits k (mem_range.mp hk)
    rw [walk_of_fits hall, fromFront, flatMap_map]
    congr 1
    calc (List.range m).flatMap (fun k => page items ((k * n : ℕ) : ℤ) n)
        = (List.range m).flatMap (fun k => (items.drop (k * n)).take n) := by
          congr 1
          funext k
          exact page_front items (k * n) n
      _ = items.take (m * n) := windows_flatMap items n m
      _ = items := take_of_length_le hm

theorem walk_back {items : List α} {n m : ℕ} (hm : items.length ≤ m * n) :
    walk items n (fromBack n m) = some items.reverse := by
  have hall : ∀ offset ∈ fromBack n m, Fits items offset n := by
    intro offset hmem
    obtain ⟨k,-,rfl⟩ := mem_map.mp hmem
    apply Or.inl
    omega
  rw [walk_of_fits hall, fromBack, flatMap_map]
  congr 1
  calc (List.range m).flatMap (fun k => page items (-1 - ((k * n : ℕ) : ℤ)) n)
      = (List.range m).flatMap (fun k => (items.reverse.drop (k * n)).take n) := by
        congr 1
        funext k
        exact page_back items (k * n) n
    _ = items.reverse.take (m * n) := windows_flatMap items.reverse n m
    _ = items.reverse := take_of_length_le (length_reverse.trans_le hm)

/-- A page is the one that was asked for exactly if its end fits; a walk from the front
visits every task once exactly if the ends of its pages fit, and one from the back does. -/
theorem pages_iff (items : List α) :
    (∀ offset num : ℤ,
      paginate items offset num = some (page items offset num) ↔ Fits items offset num) ∧
      ∀ n m : ℕ, items.length ≤ m * n →
        (walk items n (fromFront n m) = some items ↔
          ∀ k < m, Fits items ((k * n : ℕ) : ℤ) n) ∧
        walk items n (fromBack n m) = some items.reverse := by
  refine ⟨fun offset num => ⟨fun h => ?_,paginate_of_fits⟩,fun n m hm =>
    ⟨walk_front hm,walk_back hm⟩⟩
  by_contra hfits
  rw [paginate_of_not_fits hfits] at h
  cases h

theorem pages_iff_sample :
    walk [10, 11, 12, 13, 14] (2 : ℕ) (fromBack 2 3) = some [14, 13, 12, 11, 10] :=
  ((pages_iff [10, 11, 12, 13, 14]).2 2 3 (by decide)).2

/-- Two tasks, and all but the first are asked for. -/
theorem page_overflows :
    paginate [10, 11] 1 (2 ^ 63 - 1) = none ∧ page [10, 11] 1 (2 ^ 63 - 1) = [11] := by
  decide

end RinaDown.TaskPages
