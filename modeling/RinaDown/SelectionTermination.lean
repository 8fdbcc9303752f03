import Mathlib.Algebra.Order.Group.Nat
import Mathlib.Data.List.Nodup
import RinaDown.SelectionAgreement

/-!
# Selection requests end

Each step of a call under way leaves less to do, and while a call is under way
one can go on; so every request ends. Once no call holds a token, the hub shows
the requests that are in the registry.
-/

namespace RinaDown.SelectionRegistry
open DaemonProjection LabelledExecutions List
open Option hiding map map_map

variable {Dto : DtoKind → Type}

def Label.inner : Label Dto → Bool
  | .subscribe _ => false
  | .unsubscribe _ => false
  | .resolveAllDefaults => false
  | .begin _ _ _ => false
  | .resolve _ _ => false
  | .resolveForTask _ _ _ _ => false
  | _ => true

def Phase.work : Phase → ℕ
  | .announcing => 4
  | .waiting => 3
  | .expired => 2
  | .closing => 1
  | .done => 0

def Call.work : Call → ℕ
  | .resolving _ _ => 3
  | .sending _ _ => 2
  | .notifying _ _ => 1
  | .publishing requestIds => requestIds.length + 1

namespace Registry

/-- A bound on the steps that the calls under way will still take. -/
def work (s : Registry Dto) : ℕ :=
  (s.callers.map (fun c => c.phase.work)).sum + (s.calls.map Call.work).sum

def Finished (s : Registry Dto) : Prop := s.calls = [] ∧ ∀ c ∈ s.callers, c.phase = .done

variable {s t : Registry Dto} {r : String}

theorem callerWork_setPhase {c : Caller Dto} (hunique : (s.callers.map Caller.requestId).Nodup)
    (hc : s.caller r = some c) {phase : Phase} (hlt : phase.work < c.phase.work) :
    ((s.setPhase r phase).callers.map (fun c => c.phase.work)).sum <
      (s.callers.map (fun c => c.phase.work)).sum := by
  have hmem : c ∈ s.callers := mem_of_find?_eq_some hc
  have hid := caller_requestId hc
  simp only [setPhase, updateCaller, map_map]
  refine sum_lt_sum _ _ (fun d hd => ?_) ⟨c,hmem,?_⟩
  · simp only [Function.comp_apply]
    split_ifs with hd'
    · have heq : d = c := inj_on_of_nodup_map hunique hd hmem (hd'.trans hid.symm)
      exact heq ▸ hlt.le
    · exact le_refl _
  · simpa [hid] using hlt

theorem callWork_replaceCall {call : Call} (next : List Call) (h : call ∈ s.calls) :
    ((s.replaceCall call next).calls.map Call.work).sum + call.work =
      (s.calls.map Call.work).sum + (next.map Call.work).sum := by
  have hsum := ((perm_cons_erase h).map Call.work).sum_eq
  simp only [map_cons, sum_cons] at hsum
  simp only [replaceCall, map_append, sum_append]
  omega

theorem callerWork_sendTo (o : SelectionOutcome) :
    (s.sendTo r o).callers.map (fun c => c.phase.work) = s.callers.map (fun c => c.phase.work) := by
  simp only [sendTo, updateCaller, map_map]
  refine map_congr_left (fun c _ => ?_)
  simp only [Function.comp_apply]
  split_ifs <;> rfl

theorem work_removePending (s : Registry Dto) (r : String) : (s.removePending r).work = s.work :=
  rfl

theorem work_replaceCall {call : Call} (next : List Call) (h : call ∈ s.calls) :
    (s.replaceCall call next).work + call.work = s.work + (next.map Call.work).sum := by
  have hcalls := callWork_replaceCall next h
  have hsame : (s.replaceCall call next).work =
      (s.callers.map (fun c => c.phase.work)).sum +
        ((s.replaceCall call next).calls.map Call.work).sum := rfl
  rw [hsame, work]
  omega

theorem work_setPhase_lt {c : Caller Dto} (hunique : (s.callers.map Caller.requestId).Nodup)
    (hc : s.caller r = some c) {phase : Phase} (hlt : phase.work < c.phase.work) :
    (s.setPhase r phase).work < s.work :=
  Nat.add_lt_add_right (callerWork_setPhase hunique hc hlt) _

theorem work_resolve {o : SelectionOutcome} (hcall : .resolving r o ∈ s.calls) :
    (s.resolve r o).work < s.work := by
  have hdrop := work_replaceCall [] hcall
  have htake := work_replaceCall (s := s.removePending r) [.sending r o] hcall
  rw [work_removePending] at htake
  simp only [map_nil, sum_nil, map_cons, sum_cons, Call.work] at hdrop htake
  have herror : ∀ result,
      ((s.replaceCall (.resolving r o) []).returnFrom r o result).work < s.work := by
    intro result
    have hsame : ((s.replaceCall (.resolving r o) []).returnFrom r o result).work =
        (s.replaceCall (.resolving r o) []).work := rfl
    omega
  unfold Registry.resolve
  simp only
  split
  case h_1 => exact herror _
  case h_2 =>
    split
    case h_1 => exact herror _
    case h_2 => omega

end Registry

variable {s : Registry Dto} {c : Caller Dto} {r : String}

/-- Every step of a call under way leaves less to do. -/
theorem work_lt {t : Registry Dto} {a : Label Dto} (h : s.Inv) (ha : a.inner)
    (hstep : step s a = some t) : t.work < s.work := by
  have hphase : ∀ {r phase c} (next : Phase), s.callerIn r phase = some c →
      next.work < phase.work → (s.setPhase c.requestId next).work < s.work := by
    intro r phase c next hc hlt
    obtain ⟨hcaller,rfl⟩ := Registry.callerIn_eq_some.mp hc
    obtain rfl := Registry.caller_requestId hcaller
    exact Registry.work_setPhase_lt h.unique hcaller hlt
  cases a with
  | subscribe => cases ha
  | unsubscribe => cases ha
  | resolveAllDefaults => cases ha
  | «begin» => cases ha
  | resolve => cases ha
  | resolveForTask => cases ha
  | publishPending r =>
    simp only [step, map_eq_some_iff] at hstep
    obtain ⟨c,hc,rfl⟩ := hstep
    exact hphase .waiting hc (by decide)
  | receive r =>
    simp only [step, bind_eq_some_iff, map_eq_some_iff] at hstep
    obtain ⟨c,hc,o,-,rfl⟩ := hstep
    unfold Registry.receive
    split
    · exact hphase .done hc (by decide)
    · exact hphase .expired hc (by decide)
  | expire r =>
    simp only [step, bind_eq_some_iff, ite_none_right_eq_some,
      some.injEq] at hstep
    obtain ⟨c,hc,-,rfl⟩ := hstep
    exact hphase .expired hc (by decide)
  | timeout r =>
    simp only [step, map_eq_some_iff] at hstep
    obtain ⟨c,hc,rfl⟩ := hstep
    unfold Registry.timeout
    split_ifs
    · exact hphase .closing hc (by decide)
    · exact hphase .done hc (by decide)
  | publishTimeout r =>
    simp only [step, map_eq_some_iff] at hstep
    obtain ⟨c,hc,rfl⟩ := hstep
    exact hphase .done hc (by decide)
  | lock r o =>
    simp only [step, ite_none_right_eq_some, some.injEq] at hstep
    obtain ⟨hcall,rfl⟩ := hstep
    exact Registry.work_resolve hcall
  | send r o =>
    simp only [step, ite_none_right_eq_some, some.injEq] at hstep
    obtain ⟨hcall,rfl⟩ := hstep
    have hwork := Registry.work_replaceCall [.notifying r o] hcall
    have hsame : ((s.replaceCall (.sending r o) [.notifying r o]).sendTo r o).work =
        (s.replaceCall (.sending r o) [.notifying r o]).work := by
      rw [Registry.work, Registry.callerWork_sendTo]
      rfl
    simp only [map_cons, map_nil, sum_cons, sum_nil, Call.work] at hwork
    omega
  | publishResolved r o =>
    simp only [step, ite_none_right_eq_some, some.injEq] at hstep
    obtain ⟨hcall,rfl⟩ := hstep
    have hwork := Registry.work_replaceCall [] hcall
    have hsame : (((s.replaceCall (.notifying r o) []).publish (.selectionResolved r)).returnFrom r o
        (.ok ())).work = (s.replaceCall (.notifying r o) []).work := rfl
    simp only [map_nil, sum_nil, Call.work] at hwork
    omega
  | publishOne ids r =>
    simp only [step, ite_none_right_eq_some, some.injEq] at hstep
    obtain ⟨⟨hcall,hmem⟩,rfl⟩ := hstep
    have hwork := Registry.work_replaceCall [.publishing (ids.erase r)] hcall
    have hsame : (s.publishOne ids r).work =
        (s.replaceCall (.publishing ids) [.publishing (ids.erase r)]).work := rfl
    have hlength := length_erase_of_mem hmem
    have hpos := length_pos_of_mem hmem
    simp only [map_cons, map_nil, sum_cons, sum_nil, Call.work] at hwork
    omega
  | finishPublishing =>
    simp only [step, ite_none_right_eq_some, some.injEq] at hstep
    obtain ⟨hcall,rfl⟩ := hstep
    have hwork := Registry.work_replaceCall [] hcall
    simp only [map_nil, sum_nil, length_nil, Call.work] at hwork
    omega

theorem callerIn_of_mem (h : (s.callers.map Caller.requestId).Nodup) (hc : c ∈ s.callers) :
    s.callerIn c.requestId c.phase = some c := by
  refine Registry.callerIn_eq_some.mpr ⟨?_,rfl⟩
  have hsome : (s.caller c.requestId).isSome := by
    simp only [Registry.caller, find?_isSome]
    exact ⟨c,hc,by simp⟩
  obtain ⟨d,hd⟩ := isSome_iff_exists.mp hsome
  have heq : d = c :=
    inj_on_of_nodup_map h (mem_of_find?_eq_some hd) hc (Registry.caller_requestId hd)
  exact heq ▸ hd

def CanStep (s : Registry Dto) : Prop :=
  ∃ a t, a.inner = true ∧ Ordered s a ∧ step s a = some t

theorem canStep_of_isSome {a : Label Dto} (hinner : a.inner = true) (hordered : Ordered s a)
    (h : (step s a).isSome) : CanStep s := by
  obtain ⟨t,ht⟩ := isSome_iff_exists.mp h
  exact ⟨a,t,hinner,hordered,ht⟩

theorem callerIn_of_phaseOf {phase : Phase} (h : s.phaseOf r = some phase) :
    ∃ c, s.callerIn r phase = some c := by
  obtain ⟨c,hc,hphase⟩ := map_eq_some_iff.mp h
  exact ⟨c,Registry.callerIn_eq_some.mpr ⟨hc,hphase⟩⟩

theorem canStep_of_announcing (h : s.phaseOf r = some .announcing) : CanStep s := by
  obtain ⟨c,hc⟩ := callerIn_of_phaseOf h
  exact canStep_of_isSome (a := .publishPending r) rfl trivial (by simp [step, hc])

theorem canStep_of_expired (h : s.phaseOf r = some .expired) :
    CanStep s := by
  obtain ⟨c,hc⟩ := callerIn_of_phaseOf h
  exact canStep_of_isSome (a := .timeout r) rfl trivial (by simp [step, hc])

/-- A caller that has not returned can go on, if no other call is under way. -/
theorem canStep_of_caller (hcalls : s.calls = []) (hc : s.callerIn r c.phase = some c)
    (hphase : c.phase ≠ .done) : CanStep s := by
  cases hp : c.phase with
  | announcing =>
    rw [hp] at hc
    exact canStep_of_isSome (a := .publishPending r) rfl trivial (by simp [step, hc])
  | waiting =>
    rw [hp] at hc
    cases hvalue : c.value with
    | none =>
      exact canStep_of_isSome (a := .expire r) rfl (by simp [Ordered, hcalls])
        (by simp [step, hc, hvalue])
    | some o =>
      exact canStep_of_isSome (a := .receive r) rfl trivial (by simp [step, hc, hvalue])
  | expired =>
    rw [hp] at hc
    exact canStep_of_isSome (a := .timeout r) rfl trivial (by simp [step, hc])
  | closing =>
    rw [hp] at hc
    exact canStep_of_isSome (a := .publishTimeout r) rfl trivial (by simp [step, hc])
  | done => exact absurd hp hphase

theorem canStep_of_call {call : Call} (h : call ∈ s.calls) : CanStep s := by
  cases call with
  | resolving r o =>
    by_cases hexp : s.phaseOf r = some .expired
    · exact canStep_of_expired hexp
    · exact canStep_of_isSome (a := .lock r o) rfl (fun he => absurd he hexp) (by simp [step, h])
  | sending r o => exact canStep_of_isSome (a := .send r o) rfl trivial (by simp [step, h])
  | notifying r o =>
    by_cases hann : s.phaseOf r = some .announcing
    · exact canStep_of_announcing hann
    · exact canStep_of_isSome (a := .publishResolved r o) rfl hann (by simp [step, h])
  | publishing ids =>
    cases ids with
    | nil => exact canStep_of_isSome (a := .finishPublishing) rfl trivial (by simp [step, h])
    | cons r ids =>
      by_cases hann : s.phaseOf r = some .announcing
      · exact canStep_of_announcing hann
      · exact canStep_of_isSome (a := .publishOne (r :: ids) r) rfl hann (by simp [step, h])

/-- While a call is under way, one can go on. -/
theorem canStep_of_not_finished (h : s.Inv) (hs : ¬s.Finished) :
    CanStep s := by
  by_cases hcalls : s.calls = []
  · have hcaller : ∃ c ∈ s.callers, c.phase ≠ .done := by
      by_contra hnone
      exact hs ⟨hcalls,fun c hc => by_contra fun hp => hnone ⟨c,hc,hp⟩⟩
    obtain ⟨c,hc,hphase⟩ := hcaller
    exact canStep_of_caller hcalls (callerIn_of_mem h.unique hc) hphase
  · obtain ⟨call,hcall⟩ := exists_mem_of_ne_nil _ hcalls
    exact canStep_of_call hcall

/-! ## Runs -/

/-- No call holds a token beside the registry, and every request has been announced. -/
def Registry.Quiet (s : Registry Dto) : Prop :=
  (∀ c ∈ s.calls, c.tokens = []) ∧
    ∀ c ∈ s.callers, c.phase ≠ .announcing ∧ c.phase ≠ .closing

/-- The requests that the hub shows, and those in the registry. -/
def Registry.shownIds (s : Registry Dto) : List String :=
  s.hub.pendingSelections.map SelectionRequest.requestId

def Registry.pendingIds (s : Registry Dto) : List String := s.pending.map Prod.fst

/-- What the registry promises in every state. -/
structure Faithful (s : Registry Dto) : Prop where
  /-- A request has one outcome once its caller has returned, and none before. -/
  once : ∀ c ∈ s.callers,
    (s.outcomes.map Prod.fst).count c.requestId = if c.phase = .done then 1 else 0
  /-- The caller gets the outcome for which `resolve` has returned success. -/
  resolved : ∀ r o, (r, o, .ok ()) ∈ s.returned → s.Delivered r o
  noGhost : s.Quiet → s.shownIds.Perm s.pendingIds
  /-- The calls under way can go on until they have all returned. -/
  goesOn : ¬s.Finished → CanStep s
  ends : ∀ a t, a.inner = true → step s a = some t → t.work < s.work

theorem faithful_of_inv (h : s.Inv) : Faithful s where
  once c hc := by
    have hcaller := (Registry.callerIn_eq_some.mp (callerIn_of_mem h.unique hc)).1
    have hout := (h.balanced c.requestId).outcome
    rw [Registry.phaseOf_of_caller hcaller] at hout
    simp only [some.injEq] at hout
    exact hout
  resolved r o ho := (h.sound r).returned o ho
  noGhost hquiet := by
    refine perm_iff_count.mpr (fun q => ?_)
    have hacc := h.balanced q
    have hcalls : s.callTokens q = 0 := by
      refine count_eq_zero_of_not_mem (fun hmem => ?_)
      obtain ⟨c,hc,hq⟩ := mem_flatMap.mp hmem
      rw [hquiet.1 c hc] at hq
      cases hq
    have hphase : s.phaseOf q ≠ some .announcing ∧ s.phaseOf q ≠ some .closing := by
      constructor <;> intro hp <;> obtain ⟨c,hc,hcp⟩ := map_eq_some_iff.mp hp
      · exact (hquiet.2 c (mem_of_find?_eq_some hc)).1 hcp
      · exact (hquiet.2 c (mem_of_find?_eq_some hc)).2 hcp
    have hshown := hacc.visible
    rw [if_neg hphase.1, Registry.tokens, if_neg hphase.2, Registry.held, hcalls] at hshown
    simpa [Registry.shown, Registry.shownIds, Registry.pendingIds] using hshown
  goesOn hs := canStep_of_not_finished h hs
  ends _ _ ha hstep := work_lt h ha hstep

/-- In every run whose steps are in order, every state keeps the registry's promises. -/
theorem run_faithful {s t : Registry Dto} {as : List (Label Dto)} (hs : Initial s)
    (hm : Meets step Ordered s as) (hrun : exec step s as = some t) : Faithful t := by
  have hstep : ∀ (s : Registry Dto) a t, s.Inv → Ordered s a → step s a = some t → t.Inv :=
    fun _ _ _ h ha hstep => step_inv h ha hstep
  exact faithful_of_inv (exec_invariant_of_meets hstep (Registry.Initial.inv hs) hm hrun)

/-! ## A request on fixed inputs -/

def emptySnapshot : DaemonSnapshot (fun _ => Unit) where
  tasks := []
  queues := []
  queuePositions := []
  groups := []
  config := ⟨0,∅⟩
  rssSources := []
  rssItemRevisions := ∅
  plugins := []
  components := []
  webhookDeliveries := []
  priority := []
  runtimeStats := ⟨0,0,0,0,none,""⟩
  pendingSelections := []

def newRegistry : Registry (fun _ => Unit) := ⟨[],[],[],[],[],emptySnapshot,[],[]⟩

theorem newRegistry_initial : Initial newRegistry := ⟨rfl,rfl,rfl,rfl,rfl,rfl,rfl⟩

def quality : PendingSelection := ⟨.hls,"task",.hls 0⟩

/-- The user takes the third quality before the timer fires. -/
def answered : List (Label (fun _ => Unit)) :=
  [.subscribe "ui", .begin "r" quality (), .publishPending "r", .resolve "r" (.hls 2),
    .lock "r" (.hls 2), .send "r" (.hls 2), .receive "r", .publishResolved "r" (.hls 2)]

/-- The timer fires between the lock section of `resolve` and its send. -/
def tooLate : List (Label (fun _ => Unit)) :=
  [.subscribe "ui", .begin "r" quality (), .publishPending "r", .resolve "r" (.hls 2),
    .lock "r" (.hls 2), .expire "r", .send "r" (.hls 2), .publishResolved "r" (.hls 2),
    .timeout "r"]

/-- The last subscriber leaves between the lock section of `begin` and its publish. -/
def ghost : List (Label (fun _ => Unit)) :=
  [.subscribe "ui", .begin "r" quality (), .unsubscribe "ui", .publishOne ["r"] "r",
    .finishPublishing, .publishPending "r", .receive "r"]

theorem run_faithful_answered : ∃ t, exec step newRegistry answered = some t ∧ Faithful t := by
  have hm : Meets step Ordered newRegistry answered := by decide +kernel
  have hrun : (exec step newRegistry answered).isSome := by decide +kernel
  obtain ⟨t,ht⟩ := isSome_iff_exists.mp hrun
  exact ⟨t,ht,run_faithful newRegistry_initial hm ht⟩

structure Summary where
  returned : List (String × SelectionOutcome × Except SelectionError Unit)
  outcomes : List (String × Reply)
  phases : List Phase
  calls : List Call
  shown : List String
  pending : List String
  deriving DecidableEq

def Registry.summary (s : Registry Dto) : Summary :=
  ⟨s.returned,s.outcomes,s.callers.map Caller.phase,s.calls,s.shownIds,s.pendingIds⟩

theorem all_done (h : s.callers.map Caller.phase = [.done]) (hc : c ∈ s.callers) :
    c.phase = .done := by
  have hmem : c.phase ∈ s.callers.map Caller.phase := mem_map_of_mem hc
  rw [h] at hmem
  exact mem_singleton.mp hmem

/-- `resolve` returns success and the caller takes its default; and the hub goes on showing a request
that is over. -/
theorem default_after_success :
    (∃ t, exec step newRegistry tooLate = some t ∧
      t.returned = [("r", .hls 2, .ok ())] ∧
      t.outcomes = [("r", .timedOutDefaulted (.hls 0))] ∧ ¬Faithful t) ∧
    ∃ t, exec step newRegistry ghost = some t ∧ t.calls = [] ∧ t.pendingIds = [] ∧
      t.shownIds = ["r"] ∧ ¬Faithful t := by
  constructor
  · have hrun : (exec step newRegistry tooLate).map Registry.summary =
        some ⟨[("r", .hls 2, .ok ())],[("r", .timedOutDefaulted (.hls 0))],[.done],[],[],[]⟩ := by
      decide +kernel
    obtain ⟨t,ht,hsum⟩ := map_eq_some_iff.mp hrun
    simp only [Registry.summary, Summary.mk.injEq] at hsum
    obtain ⟨hret,hout,hphases,-⟩ := hsum
    refine ⟨t,ht,hret,hout,fun h => ?_⟩
    obtain ⟨c,choice,hc,-,⟨-,hp⟩ | ⟨-,hmem⟩⟩ := h.resolved "r" (.hls 2) (by simp [hret])
    · rw [all_done hphases (mem_of_find?_eq_some hc)] at hp
      rcases hp with hp | hp <;> cases hp
    · rw [hout] at hmem
      cases mem_singleton.mp hmem
  · have hrun : (exec step newRegistry ghost).map Registry.summary =
        some ⟨[],[("r", .userChose (.hls 0))],[.done],[],["r"],[]⟩ := by
      decide +kernel
    obtain ⟨t,ht,hsum⟩ := map_eq_some_iff.mp hrun
    simp only [Registry.summary, Summary.mk.injEq] at hsum
    obtain ⟨-,-,hphases,hcalls,hshown,hpending⟩ := hsum
    refine ⟨t,ht,hcalls,hpending,hshown,fun h => ?_⟩
    have hquiet : t.Quiet := by
      refine ⟨by simp [hcalls],fun c hc => ?_⟩
      rw [all_done hphases hc]
      decide
    have hperm := h.noGhost hquiet
    rw [hshown, hpending] at hperm
    simpa using hperm.length_eq

end RinaDown.SelectionRegistry
