import Mathlib.Algebra.Order.Ring.Int

/-!
# Changed elements of lists

What remains of a list of which one element is changed or removed.
-/

namespace RinaDown.Lists
open Option List

variable {α β : Type*} {l : List α} {a : α}

theorem getLast?_modify (l : List α) (i : ℕ) (f : α → α) :
    (l.modify i f).getLast? = l.getLast?.map fun a => if i = l.length - 1 then f a else a := by
  rw [getLast?_eq_getElem?, getLast?_eq_getElem?, length_modify,
    getElem?_modify]
  rfl

theorem sum_map_modify (g : α → ℤ) {f : α → α} {k : ℕ} (h : l[k]? = some a) :
    ((l.modify k f).map g).sum = (l.map g).sum + (g (f a) - g a) := by
  induction l generalizing k with
  | nil => cases h
  | cons x l ih =>
      cases k with
      | zero =>
          cases h
          rw [modify_zero_cons, map_cons, map_cons, sum_cons, sum_cons]
          omega
      | succ k =>
          have := ih h
          rw [modify_succ_cons, map_cons, map_cons, sum_cons, sum_cons]
          omega

theorem countP_set_add (p : α → Bool) {i : ℕ} (b : α) (h : l[i]? = some a) :
    (l.set i b).countP p + (if p a then 1 else 0) =
      l.countP p + (if p b then 1 else 0) := by
  induction l generalizing i with
  | nil => cases h
  | cons x l ih =>
      cases i with
      | zero =>
          cases h
          rw [set_cons_zero, countP_cons, countP_cons]
          omega
      | succ i =>
          have := ih h
          rw [set_cons_succ, countP_cons, countP_cons]
          omega

theorem getElem?_concat_or {l : List α} {i : ℕ} {a b : α} (h : (l ++ [a])[i]? = some b) :
    l[i]? = some b ∨ i = l.length ∧ b = a := by
  rcases Nat.lt_or_ge i l.length with hlt | hge
  · exact .inl ((getElem?_append_left hlt).symm.trans h)
  · rw [getElem?_append_right hge, getElem?_singleton] at h
    split_ifs at h with hi
    exact .inr ⟨by omega,(some.inj h).symm⟩

theorem getElem?_set_or {l : List α} {i j : ℕ} {a b : α} (h : (l.set i a)[j]? = some b) :
    i ≠ j ∧ l[j]? = some b ∨ i = j ∧ b = a := by
  rw [getElem?_set] at h
  split_ifs at h with hij
  · exact .inr ⟨hij,(some.inj h).symm⟩
  · exact .inl ⟨hij,h⟩

theorem getElem?_modify_or {l : List α} {i j : ℕ} {f : α → α} {b : α}
    (h : (l.modify i f)[j]? = some b) :
    i ≠ j ∧ l[j]? = some b ∨ i = j ∧ ∃ a, l[j]? = some a ∧ b = f a := by
  rw [getElem?_modify] at h
  obtain ⟨a,ha,rfl⟩ := map_eq_some_iff.mp h
  by_cases hij : i = j
  · exact .inr ⟨hij,a,ha,if_pos hij⟩
  · exact .inl ⟨hij,by rw [ha]; exact congrArg some (if_neg hij).symm⟩

theorem sum_map_eraseIdx_lt (f : α → ℕ) {i : ℕ} (h : l[i]? = some a)
    (hpos : 0 < f a) : ((l.eraseIdx i).map f).sum < (l.map f).sum := by
  induction l generalizing i with
  | nil => cases h
  | cons z l ih =>
    cases i with
    | zero =>
      obtain rfl := some.inj h
      simp only [eraseIdx_cons_zero, map_cons, sum_cons]
      omega
    | succ i =>
      have hrest := ih h
      simp only [eraseIdx_cons_succ, map_cons, sum_cons]
      omega

theorem flatMap_modify_perm {f : α → List β} {g : α → α} {b : β} (hg : ∀ a, f (g a) = f a ++ [b])
    {c : ℕ} (h : l[c]? = some a) : ((l.modify c g).flatMap f).Perm (b :: l.flatMap f) := by
  induction l generalizing c with
  | nil => cases h
  | cons x l ih =>
      cases c with
      | zero =>
          rw [modify_zero_cons, flatMap_cons, flatMap_cons, ← cons_append, hg]
          exact (perm_append_singleton b (f x)).append_right _
      | succ c =>
          rw [modify_succ_cons, flatMap_cons, flatMap_cons]
          exact ((ih h).append_left _).trans perm_middle

end RinaDown.Lists
