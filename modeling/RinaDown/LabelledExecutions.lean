import Mathlib.Data.Int.NatAbs
import Mathlib.Data.List.Basic

/-!
# Executions of partial step functions

A system is a state type, a label type and a partial step function. A label
carries every choice the environment makes, so an execution is determined by
its start state and its list of labels, and can be evaluated. The lemmas turn a
fact about one step into a fact about every execution.
-/

namespace RinaDown.LabelledExecutions
open List Option

universe u v w

variable {σ : Type u} {α : Type v} {τ : Type w}

/-- Take the labelled steps from left to right; `none` if one is not enabled. -/
def exec (step : σ → α → Option σ) : σ → List α → Option σ
  | s, [] => some s
  | s, a :: as => (step s a).bind (fun t => exec step t as)

variable {step : σ → α → Option σ}

@[simp] theorem exec_nil (s : σ) : exec step s [] = some s := rfl

theorem exec_cons (s : σ) (a : α) (as : List α) :
    exec step s (a :: as) = (step s a).bind (fun t => exec step t as) := rfl

theorem exec_cons_iff {s u : σ} {a : α} {as : List α} :
    exec step s (a :: as) = some u ↔ ∃ t, step s a = some t ∧ exec step t as = some u := by
  simp [exec_cons, bind_eq_some_iff]

theorem exec_append (s : σ) (as bs : List α) :
    exec step s (as ++ bs) = (exec step s as).bind (fun t => exec step t bs) := by
  induction as generalizing s with
  | nil => simp
  | cons a as ih =>
    cases h : step s a with
    | none => simp [exec_cons, h]
    | some t => simp [exec_cons, h, ih]

/-- What one step preserves, every execution preserves. -/
theorem exec_invariant {Inv : σ → Prop}
    (hstep : ∀ s a t, Inv s → step s a = some t → Inv t)
    {s t : σ} {as : List α} (hs : Inv s) (h : exec step s as = some t) : Inv t := by
  induction as generalizing s with
  | nil =>
    cases h
    exact hs
  | cons a as ih =>
    obtain ⟨r,hr,hrest⟩ := exec_cons_iff.mp h
    exact ih (hstep s a r hs hr) hrest

/-- A measure that every step lowers bounds the length of every execution. -/
theorem exec_length_le {Inv : σ → Prop} (μ : σ → ℕ)
    (hstep : ∀ s a t, Inv s → step s a = some t → Inv t ∧ μ t < μ s)
    {s t : σ} {as : List α} (hs : Inv s) (h : exec step s as = some t) :
    as.length + μ t ≤ μ s := by
  induction as generalizing s with
  | nil =>
    cases h
    exact Nat.le_of_eq (Nat.zero_add _)
  | cons a as ih =>
    obtain ⟨r,hr,hrest⟩ := exec_cons_iff.mp h
    obtain ⟨hinv,hlt⟩ := hstep s a r hs hr
    have hle := ih hinv hrest
    rw [length_cons]
    omega

/-- The sum over the parts of a system is such a measure. -/
theorem sum_map_set_lt (f : α → ℕ) {l : List α} {i : ℕ} {x y : α}
    (h : l[i]? = some x) (hlt : f y < f x) : ((l.set i y).map f).sum < (l.map f).sum := by
  induction l generalizing i with
  | nil => cases h
  | cons z l ih =>
    cases i with
    | zero =>
      obtain rfl := some.inj h
      simp only [set_cons_zero, map_cons, sum_cons]
      omega
    | succ i =>
      have hrest := ih h
      simp only [set_cons_succ, map_cons, sum_cons]
      omega

/-- A step of one part leaves the others. -/
theorem mem_set_of_ne {l : List α} {i : ℕ} {x y z : α} (h : l[i]? = some y) (hx : x ∈ l)
    (hne : x ≠ y) : x ∈ l.set i z := by
  obtain ⟨j,hj⟩ := mem_iff_getElem?.mp hx
  have hij : i ≠ j := by
    rintro rfl
    rw [h] at hj
    exact hne (some.inj hj).symm
  exact mem_of_getElem? ((getElem?_set_ne hij).trans hj)

/-- Every step of the execution meets a condition on its label and on the state before it. -/
def Meets (step : σ → α → Option σ) (Cond : σ → α → Prop) : σ → List α → Prop
  | _, [] => True
  | s, a :: as => Cond s a ∧ ∀ t, step s a = some t → Meets step Cond t as

variable {Cond : σ → α → Prop}

@[simp] theorem meets_nil (s : σ) : Meets step Cond s [] := trivial

theorem meets_cons {s : σ} {a : α} {as : List α} :
    Meets step Cond s (a :: as) ↔ Cond s a ∧ ∀ t, step s a = some t → Meets step Cond t as :=
  Iff.rfl

theorem meets_append {s t : σ} {as bs : List α} (hm : Meets step Cond s (as ++ bs))
    (h : exec step s as = some t) : Meets step Cond s as ∧ Meets step Cond t bs := by
  induction as generalizing s with
  | nil =>
    cases h
    exact ⟨trivial,hm⟩
  | cons a as ih =>
    obtain ⟨r,hr,hrest⟩ := exec_cons_iff.mp h
    obtain ⟨-,hbs⟩ := ih (hm.2 r hr) hrest
    exact ⟨⟨hm.1,fun u hu => (ih (hm.2 u hu) (by rwa [some.inj (hu.symm.trans hr)])).1⟩,hbs⟩

theorem meets_and {Cond' : σ → α → Prop} {s : σ} {as : List α} (h : Meets step Cond s as)
    (h' : Meets step Cond' s as) : Meets step (fun s a => Cond s a ∧ Cond' s a) s as := by
  induction as generalizing s with
  | nil => trivial
  | cons a as ih => exact ⟨⟨h.1,h'.1⟩,fun t ht => ih (h.2 t ht) (h'.2 t ht)⟩

/-- The condition of an execution can be evaluated along it. -/
def meetsDecidable (step : σ → α → Option σ) (Cond : σ → α → Prop) [∀ s a, Decidable (Cond s a)] :
    (s : σ) → (as : List α) → Decidable (Meets step Cond s as)
  | _, [] => isTrue trivial
  | s, a :: as =>
    match h : step s a with
    | none => decidable_of_iff (Cond s a) (by simp [Meets, h])
    | some t =>
      have := meetsDecidable step Cond t as
      decidable_of_iff (Cond s a ∧ Meets step Cond t as) (by simp [Meets, h])

instance [∀ s a, Decidable (Cond s a)] (s : σ) (as : List α) : Decidable (Meets step Cond s as) :=
  meetsDecidable step Cond s as

/-- What a step preserves under the condition, every execution that meets it preserves. -/
theorem exec_invariant_of_meets {Inv : σ → Prop}
    (hstep : ∀ s a t, Inv s → Cond s a → step s a = some t → Inv t)
    {s t : σ} {as : List α} (hs : Inv s) (hm : Meets step Cond s as)
    (h : exec step s as = some t) : Inv t := by
  induction as generalizing s with
  | nil =>
    cases h
    exact hs
  | cons a as ih =>
    obtain ⟨r,hr,hrest⟩ := exec_cons_iff.mp h
    exact ih (hstep s a r hs hm.1 hr) (hm.2 r hr) hrest

end RinaDown.LabelledExecutions
