import Mathlib.Data.List.Basic

/-!
# Fields joined by a separator

Fields that do not contain the separator can be read back from their concatenation, and no
other fields of the same number have it.
-/

namespace RinaDown.JoinedFields
open List

universe u

variable {α : Type u} (sep : α)

def joined : List (List α) → List α
  | [] => []
  | [field] => field
  | field :: next :: rest => field ++ sep :: joined (next :: rest)

variable {sep}

theorem joined_cons {field : List α} {rest : List (List α)} (h : rest ≠ []) :
    joined sep (field :: rest) = field ++ sep :: joined sep rest := by
  cases rest with
  | nil => exact absurd rfl h
  | cons next rest => rfl

theorem count_joined [DecidableEq α] (sep : α) {fields : List (List α)} (h : fields ≠ []) :
    (joined sep fields).count sep + 1 = fields.flatten.count sep + fields.length := by
  induction fields with
  | nil => exact absurd rfl h
  | cons field rest ih =>
      cases rest with
      | nil => simp [joined]
      | cons next rest =>
          have hrest := ih (cons_ne_nil next rest)
          rw [joined_cons (cons_ne_nil next rest), count_append, count_cons_self,
            flatten_cons, count_append, length_cons]
          omega

/-- A field without the separator ends at the first one. -/
theorem append_sep_inj [DecidableEq α] {x y s t : List α} (hx : sep ∉ x) (hy : sep ∉ y)
    (h : x ++ sep :: s = y ++ sep :: t) : x = y ∧ s = t := by
  have htake : ∀ (z r : List α), sep ∉ z → (z ++ sep :: r).takeWhile (· ≠ sep) = z := by
    intro z r hz
    have hall : ∀ a ∈ z, decide (a ≠ sep) = true := fun a ha =>
      decide_eq_true fun heq => hz (heq ▸ ha)
    rw [takeWhile_append_of_pos hall]
    simp
  have hxy : x = y := by rw [← htake x s hx, h, htake y t hy]
  subst hxy
  exact ⟨rfl,tail_eq_of_cons_eq (append_cancel_left h)⟩

theorem joined_inj_of_free [DecidableEq α] {xs ys : List (List α)}
    (hlength : xs.length = ys.length) (hxs : ∀ x ∈ xs, sep ∉ x) (hys : ∀ y ∈ ys, sep ∉ y)
    (h : joined sep xs = joined sep ys) : xs = ys := by
  induction xs generalizing ys with
  | nil => exact (length_eq_zero_iff.mp hlength.symm).symm
  | cons x xs ih =>
      obtain ⟨y,ys,rfl⟩ := exists_of_length_succ ys hlength.symm
      rw [forall_mem_cons] at hxs hys
      have hrest : xs.length = ys.length := Nat.succ.inj hlength
      by_cases hnil : xs = []
      · subst hnil
        obtain rfl := length_eq_zero_iff.mp hrest.symm
        exact congrArg (· :: []) h
      · have hnil' : ys ≠ [] := fun heq => hnil (length_eq_zero_iff.mp (by rw [hrest, heq]; rfl))
        rw [joined_cons hnil, joined_cons hnil'] at h
        obtain ⟨rfl,htail⟩ := append_sep_inj hxs.1 hys.1 h
        rw [ih hrest hxs.2 hys.2 htail]

theorem joined_inj [DecidableEq α] {xs ys : List (List α)} (hlength : xs.length = ys.length)
    (hxs : ∀ x ∈ xs, sep ∉ x) (h : joined sep xs = joined sep ys) : xs = ys := by
  by_cases hnil : xs = []
  · subst hnil
    exact (length_eq_zero_iff.mp hlength.symm).symm
  · have hnil' : ys ≠ [] := fun heq => hnil (length_eq_zero_iff.mp (by rw [hlength, heq]; rfl))
    have hcount := count_joined sep hnil
    have hcount' := count_joined sep hnil'
    have hzero : xs.flatten.count sep = 0 := count_eq_zero.mpr fun hmem =>
      let ⟨x,hx,hsep⟩ := mem_flatten.mp hmem
      hxs x hx hsep
    rw [h, hzero] at hcount
    have hzero' : ys.flatten.count sep = 0 := by omega
    refine joined_inj_of_free hlength hxs (fun y hy hsep => ?_) h
    exact count_eq_zero.mp hzero' (mem_flatten.mpr ⟨y,hy,hsep⟩)

end RinaDown.JoinedFields
