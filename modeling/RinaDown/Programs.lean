import Mathlib.Data.List.Basic

/-!
# Programs that call a host

A program ends with a value, panics, or calls an operation of its host and goes on with the
reply. A host with a state runs a program; the trace of the run lists the operations that were
called. Of a list of programs that run one after the other, those that call nothing may be
taken out: what the others do and answer stays the same.
-/

namespace RinaDown.Programs

universe u v w

inductive Program (Op : Type u) (Reply : Op → Type v) (α : Type w) where
  | ret (a : α)
  | panic
  | call (op : Op) (next : Reply op → Program Op Reply α)

variable {Op : Type u} {Reply : Op → Type v} {α β : Type w}

namespace Program

def bind : Program Op Reply α → (α → Program Op Reply β) → Program Op Reply β
  | .ret a, f => f a
  | .panic, _ => .panic
  | .call op next, f => .call op fun r => (next r).bind f

instance : Monad (Program Op Reply) where
  pure := .ret
  bind := bind

theorem bind_ret (p : Program Op Reply α) : p.bind .ret = p := by
  induction p with
  | ret a => rfl
  | panic => rfl
  | call op next ih =>
      rw [bind]
      congr 1
      funext r
      exact ih r

theorem bind_bind {γ : Type w} (p : Program Op Reply α) (f : α → Program Op Reply β)
    (g : β → Program Op Reply γ) : (p.bind f).bind g = p.bind fun a => (f a).bind g := by
  induction p with
  | ret a => rfl
  | panic => rfl
  | call op next ih =>
      rw [bind, bind, bind]
      congr 1
      funext r
      exact ih r

instance : LawfulMonad (Program Op Reply) :=
  LawfulMonad.mk' (Program Op Reply) bind_ret (fun _ _ => rfl) bind_bind

def perform (op : Op) : Program Op Reply (Reply op) := .call op .ret

end Program

open Program List

/-! ## Runs -/

/-- What a host does when an operation is called. -/
abbrev Host (Op : Type u) (Reply : Op → Type v) (σ : Type*) := (op : Op) → σ → Reply op × σ

/-- The end of a run. A panic leaves no value. -/
structure Outcome (Op : Type u) (σ : Type*) (α : Type w) where
  value : Option α
  state : σ
  trace : List Op

variable {σ : Type*}

def Outcome.map (f : α → β) (o : Outcome Op σ α) : Outcome Op σ β :=
  ⟨o.value.map f,o.state,o.trace⟩

/-- A run that goes on after its value. -/
def Outcome.andThen (o : Outcome Op σ α) (f : α → σ → Outcome Op σ β) : Outcome Op σ β :=
  match o.value with
  | none => ⟨none,o.state,o.trace⟩
  | some a => ⟨(f a o.state).value,(f a o.state).state,o.trace ++ (f a o.state).trace⟩

variable (host : Host Op Reply σ)

def run : Program Op Reply α → σ → Outcome Op σ α
  | .ret a, s => ⟨some a,s,[]⟩
  | .panic, s => ⟨none,s,[]⟩
  | .call op next, s =>
      let o := run (next (host op s).1) (host op s).2
      ⟨o.value,o.state,op :: o.trace⟩

theorem run_bind (p : Program Op Reply α) (f : α → Program Op Reply β) (s : σ) :
    run host (p >>= f) s = (run host p s).andThen fun a => run host (f a) := by
  induction p generalizing s with
  | ret a => rfl
  | panic => rfl
  | call op next ih =>
      have hnext : run host ((next (host op s).1).bind f) (host op s).2 =
          (run host (next (host op s).1) (host op s).2).andThen fun a => run host (f a) :=
        ih (host op s).1 (host op s).2
      change (⟨_,_,op :: _⟩ : Outcome Op σ β) = _
      rw [hnext, run, Outcome.andThen, Outcome.andThen]
      cases (run host (next (host op s).1) (host op s).2).value <;> rfl

theorem run_map (f : α → β) (p : Program Op Reply α) (s : σ) :
    run host (f <$> p) s = (run host p s).map f := by
  rw [← bind_pure_comp, run_bind, Outcome.andThen, Outcome.map]
  cases (run host p s).value with
  | none => rfl
  | some a => exact congrArg (Outcome.mk _ _) (append_nil _)

/-! ## Programs that run one after the other -/

/-- The answers to the elements of a list, where only some of the elements were asked. -/
def fill (asked : α → Bool) (silent : α → β) : List α → List β → List β
  | [], _ => []
  | x :: l, answers =>
      if asked x then answers.take 1 ++ fill asked silent l (answers.drop 1)
      else silent x :: fill asked silent l answers

theorem mapM_eq_fill (asked : α → Bool) (silent : α → β) (f g : α → Program Op Reply β)
    (hasked : ∀ x, asked x = true → f x = g x)
    (hsilent : ∀ x, asked x = false → f x = pure (silent x)) (l : List α) :
    l.mapM f = fill asked silent l <$> (l.filter asked).mapM g := by
  induction l with
  | nil => rfl
  | cons x l ih =>
      rw [mapM_cons, ih]
      cases hx : asked x with
      | true =>
          rw [hasked x hx, filter_cons_of_pos hx, mapM_cons, map_bind]
          congr 1
          funext y
          simp only [bind_map_left, map_bind, map_pure, fill, hx, if_pos, take_one,
            drop_one, head?_cons, tail_cons, Option.toList_some,
            singleton_append]
      | false =>
          rw [hsilent x hx, filter_cons_of_neg (by simp [hx]), pure_bind, bind_map_left,
            ← bind_pure_comp]
          congr 1
          funext ys
          rw [fill, hx]
          rfl

/-- What follows the elements of a list needs to know the answers of one length only. -/
theorem bind_mapM_congr (f : α → Program Op Reply β) {l : List α} {γ : Type w}
    {next next' : List β → Program Op Reply γ}
    (h : ∀ ys, ys.length = l.length → next ys = next' ys) :
    l.mapM f >>= next = l.mapM f >>= next' := by
  induction l generalizing next next' with
  | nil => exact h [] rfl
  | cons x l ih =>
      simp only [mapM_cons, bind_assoc, pure_bind]
      congr 1
      funext y
      apply ih
      intro ys hlength
      exact h (y :: ys) (congrArg Nat.succ hlength)

theorem mem_trace_mapM {f : α → Program Op Reply β} {op : Op} {l : List α} {s : σ}
    (h : op ∈ (run host (l.mapM f) s).trace) :
    ∃ x ∈ l, ∃ s', op ∈ (run host (f x) s').trace := by
  induction l generalizing s with
  | nil => exact absurd h (not_mem_nil)
  | cons x l ih =>
      rw [mapM_cons, run_bind, Outcome.andThen] at h
      cases hvalue : (run host (f x) s).value with
      | none =>
          rw [hvalue] at h
          exact ⟨x,mem_cons_self,s,h⟩
      | some y =>
          simp only [hvalue, bind_pure_comp, run_map, Outcome.map] at h
          rcases mem_append.mp h with h | h
          · exact ⟨x,mem_cons_self,s,h⟩
          · obtain ⟨z,hz,hop⟩ := ih h
            exact ⟨z,mem_cons_of_mem x hz,hop⟩

end RinaDown.Programs
