import RinaDown.Programs

/-!
# Programs that do the same

Two programs without a panic are related if they call the same operations, with whatever
replies, and their values are related. A run of one then leaves the state and the trace of a
run of the other. Programs that run one after the other may be related one by one, also if
each of one list is a program of its own.
-/

namespace RinaDown.Programs
open List Option

universe u v w

variable {Op : Type u} {Reply : Op → Type v} {α β γ δ : Type w}

inductive Related (R : α → β → Prop) : Program Op Reply α → Program Op Reply β → Prop where
  | ret {a b} (h : R a b) : Related R (.ret a) (.ret b)
  | call {op next next'} (h : ∀ r, Related R (next r) (next' r)) :
      Related R (.call op next) (.call op next')

namespace Related

variable {R : α → β → Prop} {S : γ → δ → Prop} {x : Program Op Reply α} {y : Program Op Reply β}

theorem bind {f : α → Program Op Reply γ} {g : β → Program Op Reply δ} (h : Related R x y)
    (hnext : ∀ a b, R a b → Related S (f a) (g b)) : Related S (x >>= f) (y >>= g) := by
  induction h with
  | ret h => exact hnext _ _ h
  | call h ih => exact call ih

theorem perform {Reply : Op → Type w} {op : Op} {f : Reply op → Program Op Reply γ}
    {g : Reply op → Program Op Reply δ} (h : ∀ r, Related S (f r) (g r)) :
    Related S (Program.perform op >>= f) (Program.perform op >>= g) := call h

theorem map {f : α → γ} {g : β → δ} (h : Related R x y) (hnext : ∀ a b, R a b → S (f a) (g b)) :
    Related S (f <$> x) (g <$> y) := by
  rw [← bind_pure_comp, ← bind_pure_comp]
  exact h.bind fun a b hab => ret (hnext a b hab)

theorem run_eq {σ : Type*} (h : Related R x y) (host : Host Op Reply σ) (s : σ) :
    ∃ a b, R a b ∧ (run host x s).value = some a ∧ (run host y s).value = some b ∧
      (run host x s).state = (run host y s).state ∧
      (run host x s).trace = (run host y s).trace := by
  induction h generalizing s with
  | ret h => exact ⟨_,_,h,rfl,rfl,rfl,rfl⟩
  | call h ih =>
    obtain ⟨a,b,hab,hx,hy,hstate,htrace⟩ := ih (host _ s).1 (host _ s).2
    exact ⟨a,b,hab,hx,hy,hstate,congrArg _ htrace⟩

end Related

/-! ## Programs of their own -/

section
variable {σ : Type*} (host : Host Op Reply σ) {ι : Type*}

/-- Programs that run one after the other, each on its own: a panic ends only one of them. -/
def runEach (f : ι → Program Op Reply α) : List ι → σ → Outcome Op σ (List (Option α))
  | [], s => ⟨some [],s,[]⟩
  | i :: is, s =>
      let o := run host (f i) s
      let rest := runEach f is o.state
      ⟨rest.value.map (o.value :: ·),rest.state,o.trace ++ rest.trace⟩

variable {host}

/-- The answers of one run and of runs of their own belong to the same programs. -/
theorem values_of_mem {f : ι → Program Op Reply α} {g : ι → Program Op Reply β} {answer : β → α}
    {is : List ι} {i : ι} {s s' : σ} {answers : List β}
    (hrun : (run host (is.mapM f) s).value = some (answers.map answer))
    (heach : (runEach host g is s').value = some (answers.map some)) (hmem : i ∈ is) :
    ∃ b t t', (run host (f i) t).value = some (answer b) ∧
      (run host (g i) t').value = some b := by
  induction is generalizing s s' answers with
  | nil => cases hmem
  | cons j is ih =>
    obtain ⟨values,hvalues,hall⟩ := map_eq_some_iff.mp heach
    cases answers with
    | nil => cases hall
    | cons b answers =>
      obtain ⟨hb,rfl⟩ := cons.inj hall
      rw [mapM_cons, run_bind, Outcome.andThen] at hrun
      cases hj : (run host (f j) s).value with
      | none =>
        rw [hj] at hrun
        cases hrun
      | some a =>
        simp only [hj, bind_pure_comp, run_map, Outcome.map] at hrun
        obtain ⟨rest,hrest,hcons⟩ := map_eq_some_iff.mp hrun
        obtain ⟨rfl,rfl⟩ := cons.inj hcons
        obtain rfl | hmem := mem_cons.mp hmem
        · exact ⟨b,s,s',hj,hb⟩
        · exact ih hrest hvalues hmem

/-- Related programs, one list run as one program and one each on its own. -/
theorem run_mapM_related {is : List ι} {f : ι → Program Op Reply α} {g : ι → Program Op Reply β}
    {answer : β → α} (h : ∀ i ∈ is, Related (fun a b => a = answer b) (f i) (g i)) (s : σ) :
    ∃ values : List β, (run host (is.mapM f) s).value = some (values.map answer) ∧
      (runEach host g is s).value = some (values.map some) ∧
      (run host (is.mapM f) s).state = (runEach host g is s).state ∧
      (run host (is.mapM f) s).trace = (runEach host g is s).trace := by
  induction is generalizing s with
  | nil => exact ⟨[],rfl,rfl,rfl,rfl⟩
  | cons i is ih =>
    obtain ⟨hi,his⟩ := forall_mem_cons.mp h
    obtain ⟨_,b,rfl,hf,hg,hstate,htrace⟩ := hi.run_eq host s
    obtain ⟨values,hvalues,heach,hstates,htraces⟩ := ih his (run host (g i) s).state
    refine ⟨b :: values,?_,?_,?_,?_⟩
    · rw [mapM_cons, run_bind, Outcome.andThen, hf]
      simp only [bind_pure_comp, run_map, Outcome.map, hstate, hvalues, map_some,
        map_cons]
    · rw [runEach, heach, hg]
      rfl
    · rw [mapM_cons, run_bind, Outcome.andThen, hf]
      simp only [bind_pure_comp, run_map, Outcome.map, hstate, hstates, runEach]
    · rw [mapM_cons, run_bind, Outcome.andThen, hf]
      simp only [bind_pure_comp, run_map, Outcome.map, hstate, htrace, htraces, runEach]

end

end RinaDown.Programs
