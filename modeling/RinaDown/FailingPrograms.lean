import RinaDown.Programs

/-!
# Programs that may fail

A program that may fail ends with a value or with an error. The operations that it may call bound
what a run does to the state, whether it fails or not; a triple says what holds after a run that
does not fail.
-/

namespace RinaDown.FailingPrograms

open Programs Programs.Program List

universe u v w

variable {Op : Type u} {Reply : Op → Type v} {ε α β : Type w} {σ : Type*}

abbrev Failing (Op : Type u) (Reply : Op → Type v) (ε α : Type w) :=
  ExceptT ε (Program Op Reply) α

/-! ## The operations of a program -/

/-- Every operation that the program may call, with any replies, has the property. -/
def Calls (P : Op → Prop) : Program Op Reply α → Prop
  | .ret _ => True
  | .panic => True
  | .call op next => P op ∧ ∀ r, Calls P (next r)

variable {P Q : Op → Prop}

theorem Calls.perform {Reply : Op → Type w} {op : Op} (h : P op) :
    Calls P (perform op : Program Op Reply (Reply op)) :=
  ⟨h,fun _ => trivial⟩

variable {p : Program Op Reply α} {f : α → Failing Op Reply ε β} {x : Failing Op Reply ε α}

theorem Calls.bind {f : α → Program Op Reply β} (hp : Calls P p) (hf : ∀ a, Calls P (f a)) :
    Calls P (p >>= f) := by
  induction p with
  | ret a => exact hf a
  | panic => trivial
  | call op next ih => exact ⟨hp.1,fun r => ih r (hp.2 r)⟩

theorem Calls.map {f : α → β} (hp : Calls P p) : Calls P (f <$> p) := by
  rw [← bind_pure_comp]
  exact hp.bind fun _ => trivial

theorem Calls.lift (hp : Calls P p) :
    Calls P (ExceptT.lift p : Failing Op Reply ε α).run :=
  hp.map

theorem Calls.mono (h : Calls P p) (himp : ∀ op, P op → Q op) :
    Calls Q p := by
  induction p with
  | ret a => trivial
  | panic => trivial
  | call op next ih => exact ⟨himp op h.1,fun r => ih r (h.2 r)⟩

theorem Calls.bindFailing (hx : Calls P x.run) (hf : ∀ a, Calls P (f a).run) :
    Calls P (x >>= f).run := by
  rw [ExceptT.run_bind]
  apply hx.bind
  intro r
  cases r with
  | ok a => exact hf a
  | error e => trivial

theorem Calls.forMFailing {x : α → Failing Op Reply ε PUnit} {l : List α}
    (h : ∀ a ∈ l, Calls P (x a).run) : Calls P (l.forM x).run := by
  induction l with
  | nil => trivial
  | cons a l ih =>
      change Calls P (x a >>= fun _ => l.forM x).run
      apply (h a mem_cons_self).bindFailing
      intro _
      exact ih fun b hb => h b (mem_cons_of_mem a hb)

/-! ## The values of a program -/

/-- Every value of the program, with any replies, has the property. -/
def Returns (Q : α → Prop) : Program Op Reply α → Prop
  | .ret a => Q a
  | .panic => True
  | .call _ next => ∀ r, Returns Q (next r)

theorem returns_of_forall {Q : α → Prop} (h : ∀ a, Q a) (p : Program Op Reply α) :
    Returns Q p := by
  induction p with
  | ret a => exact h a
  | panic => trivial
  | call op next ih => exact ih

theorem Returns.bind {f : α → Program Op Reply β} {A : α → Prop} {B : β → Prop} (hp : Returns A p)
    (hf : ∀ a, A a → Returns B (f a)) :
    Returns B (p >>= f) := by
  induction p with
  | ret a => exact hf a hp
  | panic => trivial
  | call op next ih => exact fun r => ih r (hp r)

theorem Returns.value {A : α → Prop} (h : Returns A p) {host : Host Op Reply σ} {s : σ} {a : α}
    (hvalue : (run host p s).value = some a) : A a := by
  induction p generalizing s with
  | ret b =>
      cases hvalue
      exact h
  | panic => cases hvalue
  | call op next ih => exact ih _ (h _) hvalue

/-- Every value that is not an error has the property. -/
def Yields (A : α → Prop) (x : Failing Op Reply ε α) : Prop :=
  Returns (fun r => ∀ a, r = .ok a → A a) x.run

section
variable {A : α → Prop} {B : β → Prop} {x : Failing Op Reply ε α}

theorem Yields.pure {a : α} (h : A a) : Yields A (pure a : Failing Op Reply ε α) := by
  rintro b ⟨⟩
  exact h

theorem Yields.throw (e : ε) : Yields A (throw e : Failing Op Reply ε α) := by
  rintro b ⟨⟩

theorem Yields.lift {p : Program Op Reply α} (h : Returns A p) :
    Yields A (ExceptT.lift p : Failing Op Reply ε α) := by
  have hmap : Returns (fun r : Except ε α => ∀ a, r = .ok a → A a) (p >>= fun a => .ret (.ok a)) :=
    h.bind fun a ha => by
      rintro b ⟨⟩
      exact ha
  exact hmap

theorem yields_true (x : Failing Op Reply ε α) : Yields (fun _ => True) x :=
  returns_of_forall (fun _ _ _ => trivial) x.run

theorem Yields.value (h : Yields A x) {host : Host Op Reply σ} {s : σ} {a : α}
    (hvalue : (run host x.run s).value = some (.ok a)) : A a :=
  Returns.value h hvalue a rfl

theorem Yields.bind {f : α → Failing Op Reply ε β} (hx : Yields A x)
    (hf : ∀ a, A a → Yields B (f a)) : Yields B (x >>= f) := by
  rw [Yields, ExceptT.run_bind]
  refine Returns.bind hx fun r hr => ?_
  cases r with
  | ok a => exact hf a (hr a rfl)
  | error e => rintro b ⟨⟩

end

variable {host : Host Op Reply σ}

/-- A run relates its states as its operations do. -/
theorem run_related {R : σ → σ → Prop} (hrefl : ∀ s, R s s)
    (htrans : ∀ s t u, R s t → R t u → R s u) (hstep : ∀ op s, P op → R s (host op s).2)
    (h : Calls P p) (s : σ) : R s (run host p s).state := by
  induction p generalizing s with
  | ret a => exact hrefl s
  | panic => exact hrefl s
  | call op next ih =>
      apply htrans s (host op s).2
      · exact hstep op s h.1
      · exact ih _ (h.2 _) _

/-! ## Runs that do not fail -/

variable (host)

/-- After a run from a state with `pre` that ends with a value, `post` holds. -/
def Triple (pre : σ → Prop) (x : Failing Op Reply ε α) (post : α → σ → Prop) : Prop :=
  ∀ s, pre s → ∀ a, (run host x.run s).value = some (.ok a) → post a (run host x.run s).state

variable {host} {pre pre' : σ → Prop} {post post' : α → σ → Prop}

theorem run_bindFailing (x : Failing Op Reply ε α) (f : α → Failing Op Reply ε β) (s : σ) :
    run host (x >>= f).run s = (run host x.run s).andThen fun r s' =>
      match r with
      | .ok a => run host (f a).run s'
      | .error e => ⟨some (.error e),s',[]⟩ := by
  rw [ExceptT.run_bind, run_bind]
  congr 1
  funext r s'
  cases r with
  | ok a => rfl
  | error e => rfl

theorem value_bindFailing {s : σ} {b : β} (h : (run host (x >>= f).run s).value = some (.ok b)) :
    ∃ a, (run host x.run s).value = some (.ok a) ∧
      (run host (f a).run (run host x.run s).state).value = some (.ok b) ∧
      (run host (x >>= f).run s).state =
        (run host (f a).run (run host x.run s).state).state := by
  rw [run_bindFailing, Outcome.andThen] at h ⊢
  cases hvalue : (run host x.run s).value with
  | none =>
      rw [hvalue] at h
      cases h
  | some r =>
      rw [hvalue] at h
      cases r with
      | error e => cases h
      | ok a => exact ⟨a,rfl,h,rfl⟩

theorem run_bindFailing_ok {s : σ} {a : α} (h : (run host x.run s).value = some (.ok a)) :
    (run host (x >>= f).run s).value = (run host (f a).run (run host x.run s).state).value ∧
      (run host (x >>= f).run s).state = (run host (f a).run (run host x.run s).state).state := by
  rw [run_bindFailing, Outcome.andThen, h]
  exact ⟨rfl,rfl⟩

theorem Triple.pure {a : α} (h : ∀ s, pre s → post a s) :
    Triple host pre (pure a : Failing Op Reply ε α) post := by
  intro s hs b hb
  cases hb
  exact h s hs

theorem Triple.throw (e : ε) : Triple host pre (throw e : Failing Op Reply ε α) post := by
  intro s _ a ha
  cases ha

theorem Triple.lift
    (h : ∀ s, pre s → ∀ a, (run host p s).value = some a → post a (run host p s).state) :
    Triple host pre (ExceptT.lift p : Failing Op Reply ε α) post := by
  intro s hs a ha
  have hrun : run host (ExceptT.lift p : Failing Op Reply ε α).run s =
      (run host p s).map Except.ok := run_map host Except.ok p s
  rw [hrun] at ha ⊢
  obtain ⟨b,hb,heq⟩ := Option.map_eq_some_iff.mp ha
  cases heq
  exact h s hs a hb

theorem Triple.bind {R : α → σ → Prop} {G : β → σ → Prop} (hx : Triple host pre x R)
    (hf : ∀ a, Triple host (R a) (f a) G) : Triple host pre (x >>= f) G := by
  intro s hs b hb
  obtain ⟨a,hvalue,hb,hstate⟩ := value_bindFailing hb
  rw [hstate]
  exact hf a _ (hx s hs a hvalue) b hb

theorem Triple.weaken (h : Triple host pre x post) (hpre : ∀ s, pre' s → pre s)
    (hpost : ∀ a s, post a s → post' a s) :
    Triple host pre' x post' :=
  fun s hs a ha => hpost a _ (h s (hpre s hs) a ha)

theorem Triple.also {inv : σ → Prop} (h : Triple host inv x post)
    (hkeep : ∀ s, inv s → inv (run host x.run s).state) :
    Triple host inv x fun a s => inv s ∧ post a s :=
  fun s hs a ha => ⟨hkeep s hs,h s hs a ha⟩

theorem Triple.and (h : Triple host pre x post) (h' : Triple host pre' x post') :
    Triple host (fun s => pre s ∧ pre' s) x fun a s => post a s ∧ post' a s :=
  fun s hs a ha => ⟨h s hs.1 a ha,h' s hs.2 a ha⟩

theorem Triple.forM {x : α → Failing Op Reply ε PUnit} {l : List α}
    (h : ∀ a ∈ l, Triple host pre (x a) fun _ => pre) :
    Triple host pre (l.forM x) fun _ => pre := by
  induction l with
  | nil => exact Triple.pure fun _ hs => hs
  | cons a l ih =>
      change Triple host pre (x a >>= fun _ => l.forM x) _
      refine Triple.bind (h a mem_cons_self) ?_
      intro _
      exact ih fun b hb => h b (mem_cons_of_mem a hb)

/-- Every element does its part, which the elements that differ from it keep. -/
theorem Triple.forM_each {D : α → σ → Prop} {x : α → Failing Op Reply ε PUnit} {l : List α}
    (hdone : ∀ a ∈ l, Triple host pre (x a) fun _ s => pre s ∧ D a s)
    (hkeep : ∀ a ∈ l, ∀ b ∈ l, a ≠ b → Triple host (D b) (x a) fun _ => D b) :
    Triple host pre (l.forM x) fun _ s => pre s ∧ ∀ a ∈ l, D a s := by
  induction l with
  | nil => exact Triple.pure fun _ hs => ⟨hs,fun _ hmem => absurd hmem not_mem_nil⟩
  | cons a l ih =>
      change Triple host pre (x a >>= fun _ => l.forM x) _
      refine Triple.bind (hdone a mem_cons_self) ?_
      intro _
      have hrest := ih (fun b hb => hdone b (mem_cons_of_mem a hb)) fun b hb c hc =>
        hkeep b (mem_cons_of_mem a hb) c (mem_cons_of_mem a hc)
      by_cases hmem : a ∈ l
      · refine hrest.weaken (fun _ hs => hs.1) fun _ s hs => ⟨hs.1,?_⟩
        intro b hb
        rcases mem_cons.mp hb with rfl | hb
        · exact hs.2 b hmem
        · exact hs.2 b hb
      · have ha : Triple host (D a) (l.forM x) fun _ => D a := by
          apply Triple.forM
          intro b hb
          refine hkeep b (mem_cons_of_mem a hb) a mem_cons_self ?_
          rintro rfl
          exact hmem hb
        refine (hrest.and ha).weaken (fun _ hs => hs) fun _ s hs => ⟨hs.1.1,?_⟩
        intro b hb
        rcases mem_cons.mp hb with rfl | hb
        · exact hs.2
        · exact hs.1.2 b hb

end RinaDown.FailingPrograms
