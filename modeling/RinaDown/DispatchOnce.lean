import RinaDown.LabelledExecutions
import RinaDown.RemoteDispatch

/-!
# How often a dispatch is executed

The record of an executed dispatch is its binding. It is executed once, and no two remote tasks
have one local task, in every run that loses no binding while the dispatch still shows as pending
and is shown no dispatch as pending after its binding is gone.
-/

namespace RinaDown.DispatchOnce

open KeyedTable LabelledExecutions RemoteDispatch List

def Executed (s : State) (id : String) : Prop := id ∈ s.created.map Prod.fst

instance (s : State) (id : String) : Decidable (Executed s id) :=
  inferInstanceAs (Decidable (id ∈ s.created.map Prod.fst))

/-- The tasks that the service has or will have in its projection. -/
def shown (s : State) : List RemoteTask :=
  s.projection ++ s.loop.tasks ++ s.refreshes.flatMap Refresh.tasks

def Offered (s : State) (id : String) : Prop :=
  ∃ task ∈ shown s, task.isDispatch s.device = true ∧ task.id = id

instance (s : State) (id : String) : Decidable (Offered s id) :=
  inferInstanceAs (Decidable (∃ task ∈ shown s, task.isDispatch s.device = true ∧ task.id = id))

def bindingId : Loop → Option String
  | .binding task _ _ => some task.id
  | _ => none

def Recorded (s : State) (id : String) : Prop :=
  (s.bindings.lookup id).isSome = true ∨ bindingId s.loop = some id

instance (s : State) (id : String) : Decidable (Recorded s id) :=
  inferInstanceAs (Decidable (_ ∨ _))

structure DispatchedOnce (s : State) : Prop where
  once : (s.created.map Prod.fst).Nodup
  injective : ∀ a b localId, s.bindings.lookup a = some localId →
    s.bindings.lookup b = some localId → a = b

/-! ## The condition -/

def statusRemoves (s : State) (remoteId : String) (status : RemoteTaskStatus)
    (outcome : Outcome) : Bool :=
  s.reported.lookup remoteId ≠ some status &&
    (outcome = .gone || outcome = .ok && status.isTerminal)

def itemRemoves (s : State) (remoteId localId : String) (localTasks : List LocalTask)
    (outcome : Outcome) : Bool :=
  match localTasks.find? fun task => task.taskId = localId with
  | none =>
      missingGraceRounds ≤ saturatingSucc ((s.localMissing.lookup remoteId).getD 0) &&
        (s.reported.lookup remoteId = some .failed || outcome ≠ .error)
  | some task => statusRemoves s remoteId (localStatus task.status) outcome

def removes (s : State) : Label → List String
  | .reportNext outcome =>
      match s.loop with
      | .reporting ((remoteId, localId) :: _) localTasks =>
          if itemRemoves s remoteId localId localTasks outcome then [remoteId] else []
      | _ => []
  | .merge k =>
      match s.refreshes[k]? with
      | some (.fetched incoming previous) =>
          (applyMissingGrace s.missing incoming previous).removed
      | _ => []
  | _ => []

def receives : Label → List RemoteTask
  | .event task => [task]
  | .fetch incoming => incoming
  | _ => []

/-- No step removes the binding of an executed dispatch that shows as pending, none receives an
executed dispatch as pending unless it is bound, and the service restarts only when the projection
that is stored shows no executed dispatch as pending. -/
structure Careful (s : State) (label : Label) : Prop where
  removes : ∀ id ∈ removes s label, Executed s id → ¬ Offered s id
  receives : ∀ task ∈ receives label, task.isDispatch s.device = true → Executed s task.id →
    Recorded s task.id
  restart : label = .restart → ∀ task ∈ s.stored, task.isDispatch s.device = true →
    ¬ Executed s task.id

instance (s : State) (label : Label) : Decidable (Careful s label) :=
  decidable_of_iff
    ((∀ id ∈ DispatchOnce.removes s label, Executed s id → ¬ Offered s id) ∧
      (∀ task ∈ DispatchOnce.receives label, task.isDispatch s.device = true →
        Executed s task.id → Recorded s task.id) ∧
      (label = .restart → ∀ task ∈ s.stored, task.isDispatch s.device = true →
        ¬ Executed s task.id))
    ⟨fun ⟨hremoves,hreceives,hrestart⟩ => ⟨hremoves,hreceives,hrestart⟩,
      fun h => ⟨h.removes,h.receives,h.restart⟩⟩

/-! ## The invariant -/

structure Inv (s : State) : Prop where
  once : (s.created.map Prod.fst).Nodup
  injective : ∀ a b localId, s.bindings.lookup a = some localId →
    s.bindings.lookup b = some localId → a = b
  known : ∀ a localId, s.bindings.lookup a = some localId → localId ∈ s.locals
  recorded : ∀ id, Executed s id → Offered s id → Recorded s id
  binding : ∀ task localId rest, s.loop = .binding task localId rest →
    localId ∈ s.locals ∧ ∀ a, s.bindings.lookup a ≠ some localId
  dispatches : ∀ task ∈ s.loop.dispatches, task.isDispatch s.device = true

variable {s : State} {device : String} {locals : List String} {bindings : Bindings}
  {localTasks : List LocalTask} {task : RemoteTask} {tasks : List RemoteTask}

theorem Inv.dispatchedOnce (h : Inv s) : DispatchedOnce s := ⟨h.once,h.injective⟩

theorem inv_start {stored : List RemoteTask} {created : List (String × String)}
    (honce : (created.map Prod.fst).Nodup)
    (hstored : ∀ task ∈ stored, task.isDispatch device = true → task.id ∉ created.map Prod.fst) :
    Inv (start device stored locals created) where
  once := honce
  injective _ _ _ h := nomatch h
  known _ _ h := nomatch h
  recorded id hexecuted := by
    rintro ⟨task,htask,hdispatch,rfl⟩
    simp only [shown, start, Loop.tasks, Loop.dispatches, flatMap_nil, append_nil]
      at htask
    exact absurd hexecuted (hstored task htask hdispatch)
  binding _ _ _ h := nomatch h
  dispatches _ h := nomatch h

theorem inv_start_nil (device : String) (stored : List RemoteTask) (locals : List String) :
    Inv (start device stored locals []) :=
  inv_start nodup_nil fun _ _ _ => not_mem_nil

section
variable {s : State} (h : Inv s)
include h

theorem Inv.show {t : State} (hcreated : t.created = s.created) (hdevice : t.device = s.device)
    (hbindings : t.bindings = s.bindings) (hlocals : s.locals ⊆ t.locals)
    (hloop : t.loop = s.loop ∨ bindingId s.loop = none ∧ bindingId t.loop = none ∧
      ∀ task ∈ t.loop.dispatches, task.isDispatch s.device = true)
    (hshown : ∀ task ∈ shown t, task.isDispatch s.device = true →
      Offered s task.id ∨ (Executed s task.id → Recorded s task.id)) : Inv t := by
  refine ⟨hcreated ▸ h.once,hbindings ▸ h.injective,?_,?_,?_,?_⟩
  · intro a localId ha
    exact hlocals (h.known a localId (hbindings ▸ ha))
  · rintro _ hexecuted ⟨task,htask,hdispatch,rfl⟩
    rw [Executed, hcreated] at hexecuted
    rw [hdevice] at hdispatch
    have hrecorded : Recorded s task.id := by
      rcases hshown task htask hdispatch with hoffered | hrecorded
      · exact h.recorded _ hexecuted hoffered
      · exact hrecorded hexecuted
    rw [Recorded, hbindings]
    rcases hrecorded with hbound | hbinding
    · exact .inl hbound
    · rcases hloop with heq | ⟨hnone,-,-⟩
      · exact .inr (heq ▸ hbinding)
      · exact absurd (hnone.symm.trans hbinding) (Option.some_ne_none _).symm
  · intro task localId rest hbinding
    rcases hloop with heq | ⟨-,hnone,-⟩
    · obtain ⟨hlocal,hunbound⟩ := h.binding task localId rest (heq ▸ hbinding)
      exact ⟨hlocals hlocal,hbindings ▸ hunbound⟩
    · rw [hbinding, bindingId] at hnone
      exact absurd hnone (Option.some_ne_none _)
  · rw [hdevice]
    rcases hloop with heq | ⟨-,-,hdispatches⟩
    · exact heq ▸ h.dispatches
    · exact hdispatches

theorem Inv.lose {t : State} (hcreated : t.created = s.created) (hdevice : t.device = s.device)
    (hlocals : t.locals = s.locals) (hloop : t.loop = s.loop)
    (hshown : ∀ task ∈ shown t, task ∈ shown s)
    (hbindings : ∀ id, t.bindings.lookup id = s.bindings.lookup id ∨
      t.bindings.lookup id = none ∧ (Executed s id → ¬ Offered s id)) : Inv t := by
  have hlookup : ∀ {a localId}, t.bindings.lookup a = some localId →
      s.bindings.lookup a = some localId := by
    intro a localId ha
    rcases hbindings a with heq | ⟨hnone,-⟩
    · exact heq ▸ ha
    · exact absurd (hnone.symm.trans ha) (Option.some_ne_none _).symm
  refine ⟨hcreated ▸ h.once,?_,?_,?_,?_,?_⟩
  · intro a b localId ha hb
    exact h.injective a b localId (hlookup ha) (hlookup hb)
  · intro a localId ha
    exact hlocals ▸ h.known a localId (hlookup ha)
  · rintro _ hexecuted ⟨task,htask,hdispatch,rfl⟩
    rw [Executed, hcreated] at hexecuted
    rw [hdevice] at hdispatch
    have hoffered : Offered s task.id := ⟨task,hshown task htask,hdispatch,rfl⟩
    rcases h.recorded _ hexecuted hoffered with hbound | hbinding
    · rcases hbindings task.id with heq | ⟨-,hgone⟩
      · exact .inl (heq ▸ hbound)
      · exact absurd hoffered (hgone hexecuted)
    · exact .inr (hloop ▸ hbinding)
  · intro task localId rest hbinding
    obtain ⟨hlocal,hunbound⟩ := h.binding task localId rest (hloop ▸ hbinding)
    exact ⟨hlocals ▸ hlocal,fun a ha => hunbound a (hlookup ha)⟩
  · rw [hloop, hdevice]
    exact h.dispatches

end

/-! ## Bindings to local tasks -/

/-- No two remote tasks have one local task, and every local task is known. -/
structure Distinct (locals : List String) (bindings : Bindings) : Prop where
  injective : ∀ a b localId, bindings.lookup a = some localId →
    bindings.lookup b = some localId → a = b
  known : ∀ a localId, bindings.lookup a = some localId → localId ∈ locals

theorem Distinct.insert (h : Distinct locals bindings) (id : String) {localId : String}
    (hlocal : localId ∈ locals) (hunbound : ∀ a, bindings.lookup a ≠ some localId) :
    Distinct locals (insert id localId bindings) where
  injective a b other ha hb := by
    rw [lookup_insert] at ha hb
    split_ifs at ha hb with hida hidb hidb
    · exact hida.trans hidb.symm
    · cases ha
      exact absurd hb (hunbound b)
    · cases hb
      exact absurd ha (hunbound a)
    · exact h.injective a b other ha hb
  known a other ha := by
    rw [lookup_insert] at ha
    split_ifs at ha with hid
    · cases ha
      exact hlocal
    · exact h.known a other ha

theorem mem_claimed {a localId : String} (h : bindings.lookup a = some localId) :
    localId ∈ claimed bindings :=
  mem_map.mpr ⟨_,mem_of_lookup h,rfl⟩

theorem foldl_maxByScore_mem (remote : RemoteTask) (tasks : List LocalTask)
    (best : Option LocalTask) {task : LocalTask}
    (h : tasks.foldl (maxByScore remote) best = some task) : task ∈ tasks ∨ best = some task := by
  induction tasks generalizing best with
  | nil => exact .inr h
  | cons first tasks ih =>
      rw [foldl_cons] at h
      rcases ih _ h with hmem | hbest
      · exact .inl (mem_cons_of_mem _ hmem)
      · cases best with
        | none =>
            rw [maxByScore] at hbest
            exact .inl (Option.some.inj hbest ▸ mem_cons_self)
        | some b =>
            simp only [maxByScore] at hbest
            split_ifs at hbest with hscore
            · exact .inl (Option.some.inj hbest ▸ mem_cons_self)
            · exact .inr hbest

/-- A task is bound again to a local one that no other has. -/
theorem rebindTo_spec {remote : RemoteTask} {task : LocalTask}
    (h : rebindTo (claimed bindings) localTasks remote = some task) :
    task ∈ localTasks ∧ ∀ a, bindings.lookup a ≠ some task.taskId := by
  rcases foldl_maxByScore_mem _ _ _ h with hmem | hnone
  · obtain ⟨hlocal,hfree⟩ := mem_filter.mp hmem
    simp only [decide_eq_true_eq] at hfree
    exact ⟨hlocal,fun a ha => hfree.1 (mem_claimed ha)⟩
  · exact absurd hnone (Option.some_ne_none _).symm

theorem rebindOne_spec (device : String) (remote : RemoteTask) (h : Distinct locals bindings)
    (hlocals : ∀ task ∈ localTasks, task.taskId ∈ locals) :
    Distinct locals (rebindOne device localTasks bindings remote) ∧
      ∀ a, (bindings.lookup a).isSome = true →
        ((rebindOne device localTasks bindings remote).lookup a).isSome = true := by
  rw [rebindOne]
  split_ifs with hskip
  · exact ⟨h,fun _ ha => ha⟩
  · cases hto : rebindTo (claimed bindings) localTasks remote with
    | none => exact ⟨h,fun _ ha => ha⟩
    | some task =>
        obtain ⟨hmem,hunbound⟩ := rebindTo_spec hto
        refine ⟨h.insert remote.id (hlocals task hmem) hunbound,fun a ha => ?_⟩
        simp only [lookup_insert]
        split_ifs
        · rfl
        · exact ha

theorem rebuildBindings_spec (device : String) (hlocals : ∀ task ∈ localTasks, task.taskId ∈ locals)
    (remoteTasks : List RemoteTask) (h : Distinct locals bindings) :
    Distinct locals (rebuildBindings device localTasks remoteTasks bindings) ∧
      ∀ a, (bindings.lookup a).isSome = true →
        ((rebuildBindings device localTasks remoteTasks bindings).lookup a).isSome = true := by
  induction remoteTasks generalizing bindings with
  | nil => exact ⟨h,fun _ ha => ha⟩
  | cons remote remoteTasks ih =>
      obtain ⟨hone,hkept⟩ := rebindOne_spec device remote h hlocals
      obtain ⟨hrest,hkept'⟩ := ih hone
      exact ⟨hrest,fun a ha => hkept' a (hkept a ha)⟩

/-! ## What is shown -/

theorem mem_upsert {other : RemoteTask} (h : other ∈ upsert task tasks) :
    other = task ∨ other ∈ tasks := by
  induction tasks with
  | nil => exact .inl (mem_singleton.mp h)
  | cons existing tasks ih =>
      rw [upsert] at h
      split_ifs at h
      · exact (mem_cons.mp h).imp_right (mem_cons_of_mem _)
      · rcases mem_cons.mp h with rfl | hrest
        · exact .inr mem_cons_self
        · exact (ih hrest).imp_right (mem_cons_of_mem _)

theorem mem_progressItem {id : String} (hdispatch : task.isDispatch device = true)
    (h : task ∈ progressItem id tasks) :
    task ∈ tasks := by
  induction tasks with
  | nil => exact h
  | cons first tasks ih =>
      rw [progressItem] at h
      split_ifs at h with hid hterminal
      · exact h
      · rcases mem_cons.mp h with rfl | hrest
        · simp [RemoteTask.isDispatch] at hdispatch
        · exact mem_cons_of_mem _ hrest
      · rcases mem_cons.mp h with rfl | hrest
        · exact mem_cons_self
        · exact mem_cons_of_mem _ (ih hrest)

theorem mem_progress {ids : List String} (hdispatch : task.isDispatch device = true)
    (h : task ∈ progress ids tasks) : task ∈ tasks := by
  induction ids generalizing tasks with
  | nil => exact h
  | cons id ids ih => exact mem_progressItem hdispatch (ih h)

theorem mem_foldl_graceStep {incoming : List RemoteTask} {previous : List RemoteTask} {g : Grace}
    (h : task ∈ (previous.foldl (graceStep incoming) g).merged) :
    task ∈ g.merged ∨ task ∈ previous := by
  induction previous generalizing g with
  | nil => exact .inl h
  | cons first previous ih =>
      rw [foldl_cons] at h
      rcases ih h with hmerged | hprevious
      · have hfirst : task ∈ g.merged ∨ task = first := by
          grind [graceStep]
        rcases hfirst with hmerged | rfl
        · exact .inl hmerged
        · exact .inr mem_cons_self
      · exact .inr (mem_cons_of_mem _ hprevious)

/-- What a snapshot is merged into shows what the snapshot and the projection show. -/
theorem mem_merged {rounds : Table String ℕ} {incoming previous : List RemoteTask}
    (h : task ∈ (applyMissingGrace rounds incoming previous).merged) :
    task ∈ (Refresh.fetched incoming previous).tasks :=
  mem_append.mpr (mem_foldl_graceStep h)

theorem mem_shown :
    task ∈ shown s ↔ task ∈ s.projection ∨ task ∈ s.loop.tasks ∨
      ∃ refresh ∈ s.refreshes, task ∈ refresh.tasks := by
  rw [shown, mem_append, mem_append, mem_flatMap, or_assoc]

theorem offered_of_mem (h : task ∈ shown s) (hdispatch : task.isDispatch s.device = true) :
    Offered s task.id :=
  ⟨task,h,hdispatch,rfl⟩

/-! ## Steps -/

section
variable {s : State} (h : Inv s)
include h

theorem Inv.distinct : Distinct s.locals s.bindings := ⟨h.injective,h.known⟩

theorem Inv.setLoop {loop : Loop} (hbefore : bindingId s.loop = none)
    (hafter : bindingId loop = none)
    (hdispatches : ∀ task ∈ loop.dispatches, task.isDispatch s.device = true)
    (htasks : ∀ task ∈ loop.tasks, task.isDispatch s.device = true →
      Offered s task.id ∨ (Executed s task.id → Recorded s task.id)) :
    Inv { s with loop } := by
  apply h.show (t := { s with loop }) rfl rfl rfl (.refl _)
    (.inr ⟨hbefore,hafter,hdispatches⟩)
  intro task htask hdispatch
  rcases mem_shown.mp htask with hprojection | hloop | hrefresh
  · exact .inl (offered_of_mem (mem_shown.mpr (.inl hprojection)) hdispatch)
  · exact htasks task hloop hdispatch
  · exact .inl (offered_of_mem (mem_shown.mpr (.inr (.inr hrefresh))) hdispatch)

theorem Inv.setRest {loop : Loop} (hbefore : bindingId s.loop = none)
    (hafter : bindingId loop = none) (htasks : loop.tasks = loop.dispatches)
    (hrest : ∀ task ∈ loop.dispatches, task ∈ s.loop.dispatches ∨ task ∈ s.projection ∧
      task.isDispatch s.device = true) : Inv { s with loop } := by
  have hdispatches : ∀ task ∈ loop.dispatches, task.isDispatch s.device = true := by
    intro task htask
    rcases hrest task htask with hloop | ⟨-,hdispatch⟩
    · exact h.dispatches task hloop
    · exact hdispatch
  refine h.setLoop hbefore hafter hdispatches fun task htask hdispatch => .inl ?_
  rcases hrest task (htasks ▸ htask) with hloop | ⟨hprojection,-⟩
  · refine offered_of_mem (mem_shown.mpr (.inr (.inl ?_))) hdispatch
    cases hphase : s.loop <;> rw [hphase] at hloop
    case storing => exact absurd hloop not_mem_nil
    all_goals exact hloop
  · exact offered_of_mem (mem_shown.mpr (.inl hprojection)) hdispatch

theorem Inv.stop (hbefore : bindingId s.loop = none) : Inv { s with loop := .idle } :=
  h.setRest hbefore rfl rfl fun _ htask => absurd htask not_mem_nil

theorem Inv.setProjection (tasks : List RemoteTask) (saved : Bool)
    (htasks : ∀ task ∈ tasks, task ∈ shown s) : Inv (setProjection s tasks saved) := by
  apply h.show (t := RemoteDispatch.setProjection s tasks saved) rfl rfl rfl
    (.refl _) (.inl rfl)
  intro task htask hdispatch
  left
  rcases mem_shown.mp htask with hprojection | hrest
  · exact offered_of_mem (htasks task hprojection) hdispatch
  · exact offered_of_mem (mem_shown.mpr (.inr hrest)) hdispatch

theorem Inv.rebuild {localTasks : List LocalTask} (hidle : s.loop = .idle)
    (hlocals : ∀ task ∈ localTasks, task.taskId ∈ s.locals) :
    Inv { s with
      bindings := rebuildBindings s.device localTasks s.projection s.bindings
      loop := .starting } := by
  obtain ⟨hdistinct,hkept⟩ := rebuildBindings_spec s.device hlocals s.projection
    h.distinct
  refine ⟨h.once,hdistinct.injective,hdistinct.known,?_,nofun,nofun⟩
  rintro _ hexecuted ⟨task,htask,hdispatch,rfl⟩
  have hshown : task ∈ shown s := by
    rw [mem_shown, hidle]
    exact mem_shown.mp htask
  rcases h.recorded _ hexecuted (offered_of_mem hshown hdispatch) with hbound | hbinding
  · exact .inl (hkept _ hbound)
  · rw [hidle] at hbinding
    exact nomatch hbinding

theorem Inv.createNext {t : State} {task : RemoteTask} {rest : List RemoteTask}
    {localId : Option String} (hloop : s.loop = .accepting (task :: rest))
    (hstep : createNext s task rest localId = some t) : Inv t := by
  have hbefore : bindingId s.loop = none := by
    rw [hloop]
    rfl
  have hdispatch : task.isDispatch s.device = true := by
    apply h.dispatches
    rw [hloop]
    exact mem_cons_self
  have hoffered : Offered s task.id := by
    refine offered_of_mem (mem_shown.mpr (.inr (.inl ?_))) hdispatch
    rw [hloop]
    exact mem_cons_self
  have hrest : ∀ other ∈ rest, other ∈ s.loop.dispatches := by
    rw [hloop]
    exact fun other => mem_cons_of_mem task
  unfold RemoteDispatch.createNext at hstep
  split_ifs at hstep with hbound
  · cases hstep
    exact h.setRest hbefore rfl rfl fun other hother => .inl (hrest other hother)
  · cases localId with
    | none =>
        cases hstep
        exact h.stop hbefore
    | some localId =>
        simp only at hstep
        split_ifs at hstep with hlocal
        cases hstep
        have hnew : ¬ Executed s task.id := by
          intro hexecuted
          rcases h.recorded _ hexecuted hoffered with hbound' | hbinding
          · exact hbound hbound'
          · rw [hbefore] at hbinding
            exact nomatch hbinding
        refine ⟨?_,h.injective,?_,?_,?_,?_⟩
        · rw [map_cons, nodup_cons]
          exact ⟨hnew,h.once⟩
        · exact fun a other ha => mem_cons_of_mem _ (h.known a other ha)
        · rintro _ hexecuted ⟨other,hother,hdispatch',rfl⟩
          rcases mem_cons.mp hexecuted with heq | hexecuted
          · exact .inr (congrArg some heq.symm)
          · have hshown : other ∈ shown s := by
              rw [mem_shown] at hother ⊢
              exact hother.imp_right (Or.imp_left fun hmem => by
                rw [hloop]
                exact mem_cons_of_mem task hmem)
            rcases h.recorded _ hexecuted (offered_of_mem hshown hdispatch') with hbound' | hbinding
            · exact .inl hbound'
            · rw [hbefore] at hbinding
              exact nomatch hbinding
        · intro other otherId otherRest hbinding
          cases hbinding
          exact ⟨mem_cons_self,fun a ha => hlocal (h.known a _ ha)⟩
        · exact fun other hother => h.dispatches other (hrest other hother)

theorem Inv.bind {task : RemoteTask} {localId : String} {rest : List RemoteTask}
    (hloop : s.loop = .binding task localId rest) :
    Inv { s with bindings := insert task.id localId s.bindings, loop := .announcing task rest } := by
  obtain ⟨hlocal,hunbound⟩ := h.binding task localId rest hloop
  have hdistinct := h.distinct.insert task.id hlocal hunbound
  refine ⟨h.once,hdistinct.injective,hdistinct.known,?_,nofun,?_⟩
  · rintro _ hexecuted ⟨other,hother,hdispatch,rfl⟩
    have hshown : other ∈ shown s := by
      rw [mem_shown, hloop]
      exact mem_shown.mp hother
    left
    simp only [lookup_insert]
    split_ifs with heq
    · rfl
    · rcases h.recorded _ hexecuted (offered_of_mem hshown hdispatch) with hbound | hbinding
      · exact hbound
      · rw [hloop] at hbinding
        exact absurd (Option.some.inj hbinding).symm heq
  · intro other hother
    apply h.dispatches
    rw [hloop]
    exact hother

end

/-- What a report does: it removes at most the binding of its task. -/
structure Reported (s t : State) (remoteId : String) (removes : Prop) : Prop where
  frame : (t.created, t.device, t.locals, t.loop, t.projection, t.refreshes) =
    (s.created, s.device, s.locals, s.loop, s.projection, s.refreshes)
  bindings : ∀ id, t.bindings.lookup id = s.bindings.lookup id ∨
    t.bindings.lookup id = none ∧ id = remoteId ∧ removes

theorem lookup_remove (bindings : Bindings) (remoteId id : String) :
    (remove remoteId bindings).lookup id = bindings.lookup id ∨
      (remove remoteId bindings).lookup id = none ∧ id = remoteId := by
  rw [remove, lookup_retain]
  by_cases hid : id = remoteId
  · exact .inr (by simp [hid])
  · exact .inl (by simp [hid])

theorem reportStatusIfChanged_spec (s : State) (remoteId : String) (status : RemoteTaskStatus)
    (outcome : Outcome) :
    Reported s (reportStatusIfChanged s remoteId status outcome).1 remoteId
      (statusRemoves s remoteId status outcome = true) := by
  unfold reportStatusIfChanged
  by_cases hreported : s.reported.lookup remoteId = some status
  · rw [if_pos hreported]
    exact ⟨rfl,fun _ => .inl rfl⟩
  · rw [if_neg hreported]
    cases outcome with
    | ok =>
        by_cases hterminal : status.isTerminal = true
        · refine ⟨rfl,fun id => ?_⟩
          simp only [hterminal, if_true]
          exact (lookup_remove s.bindings remoteId id).imp_right fun hid =>
            ⟨hid.1,hid.2,by simp [statusRemoves, hreported, hterminal]⟩
        · refine ⟨rfl,fun _ => .inl ?_⟩
          simp only [hterminal, Bool.false_eq_true, if_false]
    | gone =>
        exact ⟨rfl,fun id => (lookup_remove s.bindings remoteId id).imp_right fun hid =>
          ⟨hid.1,hid.2,by simp [statusRemoves, hreported]⟩⟩
    | error => exact ⟨rfl,fun _ => .inl rfl⟩

/-- A report lets the loop go on unless the cloud's answer is an error. -/
theorem reportStatusIfChanged_true {remoteId : String} {status : RemoteTaskStatus}
    {outcome : Outcome} (h : (reportStatusIfChanged s remoteId status outcome).2 = true) :
    s.reported.lookup remoteId = some status ∨ outcome ≠ .error := by
  unfold reportStatusIfChanged at h
  by_cases hreported : s.reported.lookup remoteId = some status
  · exact .inl hreported
  · rw [if_neg hreported] at h
    cases outcome with
    | ok => exact .inr (by decide)
    | gone => exact .inr (by decide)
    | error => exact nomatch h

theorem reportItem_spec (s : State) (remoteId localId : String) (localTasks : List LocalTask)
    (outcome : Outcome) :
    Reported s (reportItem s remoteId localId localTasks outcome).1 remoteId
      (itemRemoves s remoteId localId localTasks outcome = true) := by
  unfold reportItem itemRemoves
  cases hfind : localTasks.find? fun task => task.taskId = localId with
  | some task =>
      obtain ⟨hframe,hbindings⟩ := reportStatusIfChanged_spec
        { s with localMissing := remove remoteId s.localMissing } remoteId (localStatus task.status)
        outcome
      exact ⟨hframe,hbindings⟩
  | none =>
      simp only
      generalize saturatingSucc ((s.localMissing.lookup remoteId).getD 0) = count
      by_cases hcount : missingGraceRounds ≤ count
      · rw [if_pos hcount]
        have hspec := reportStatusIfChanged_spec
          { s with localMissing := insert remoteId count s.localMissing } remoteId .failed outcome
        have htrue := @reportStatusIfChanged_true
          { s with localMissing := insert remoteId count s.localMissing } remoteId .failed outcome
        cases hreport : reportStatusIfChanged
          { s with localMissing := insert remoteId count s.localMissing } remoteId .failed outcome with
        | mk t ok =>
            rw [hreport] at hspec htrue
            have hremoves : statusRemoves s remoteId .failed outcome = true →
                (s.reported.lookup remoteId = some .failed ∨ outcome ≠ .error) := by
              intro hstatus
              cases outcome with
              | ok => exact .inr (by decide)
              | gone => exact .inr (by decide)
              | error => simp [statusRemoves] at hstatus
            cases ok with
            | false =>
                refine ⟨hspec.frame,fun id => (hspec.bindings id).imp_right fun hid => ?_⟩
                exact ⟨hid.1,hid.2.1,by simpa [hcount] using hremoves hid.2.2⟩
            | true =>
                have hitem := htrue rfl
                refine ⟨hspec.frame,fun id => ?_⟩
                rcases lookup_remove t.bindings remoteId id with hkept | ⟨hgone,hid⟩
                · rcases hspec.bindings id with heq | ⟨hnone,hid,-⟩
                  · exact .inl (hkept.trans heq)
                  · exact .inr ⟨hkept.trans hnone,hid,by simpa [hcount] using hitem⟩
                · exact .inr ⟨hgone,hid,by simpa [hcount] using hitem⟩
      · rw [if_neg hcount]
        exact ⟨rfl,fun _ => .inl rfl⟩

/-! ## Every step -/

section
variable {s t : State} (h : Inv s)
include h

theorem Inv.reportNext {outcome : Outcome} (hcareful : Careful s (.reportNext outcome))
    (hstep : step s (.reportNext outcome) = some t) : Inv t := by
  simp only [step, loopStep] at hstep
  cases hloop : s.loop <;> rw [hloop] at hstep
  case reporting order localTasks =>
    cases order with
    | nil => exact nomatch hstep
    | cons entry rest =>
        obtain ⟨remoteId,localId⟩ := entry
        have hspec := reportItem_spec s remoteId localId localTasks outcome
        simp only at hstep
        cases hitem : reportItem s remoteId localId localTasks outcome with
        | mk r ok =>
            rw [hitem] at hspec hstep
            obtain ⟨hframe,hbindings⟩ := hspec
            simp only [Prod.mk.injEq] at hframe
            obtain ⟨hcreated,hdevice,hlocals,hloop',hprojection,hrefreshes⟩ := hframe
            have hr : Inv r := by
              apply h.lose hcreated hdevice hlocals hloop'
              · rw [shown, hprojection, hloop', hrefreshes]
                exact fun _ htask => htask
              · intro id
                refine (hbindings id).imp_right fun ⟨hnone,hid,hremoves⟩ => ⟨hnone,?_⟩
                apply hcareful.removes
                rw [removes, hloop, hid]
                simp [hremoves]
            have hbefore : bindingId r.loop = none := by
              rw [hloop', hloop]
              rfl
            cases ok with
            | true =>
                cases hstep
                exact hr.setRest hbefore rfl rfl fun _ htask => absurd htask not_mem_nil
            | false =>
                cases hstep
                exact hr.stop hbefore
  all_goals exact nomatch hstep

theorem Inv.merge {k : ℕ} (hcareful : Careful s (.merge k)) (hstep : step s (.merge k) = some t) :
    Inv t := by
  simp only [step] at hstep
  cases hk : s.refreshes[k]? with
  | none => simp [hk] at hstep
  | some refresh =>
      cases refresh with
      | merged tasks => simp [hk] at hstep
      | fetched incoming previous =>
          rw [hk] at hstep
          cases hstep
          apply h.lose (t := mergeRefresh s k incoming previous) rfl rfl rfl rfl
          · intro task htask
            rw [mem_shown] at htask ⊢
            refine htask.imp_right (Or.imp_right ?_)
            rintro ⟨refresh,hrefresh,htask⟩
            rcases mem_or_eq_of_mem_set hrefresh with hold | rfl
            · exact ⟨refresh,hold,htask⟩
            · exact ⟨_,mem_of_getElem? hk,mem_merged htask⟩
          · intro id
            simp only [mergeRefresh, lookup_retain]
            split_ifs with hkept
            · exact .inl rfl
            · refine .inr ⟨rfl,hcareful.removes id ?_⟩
              rw [decide_eq_true_eq, not_not] at hkept
              rw [removes, hk]
              exact hkept

theorem Inv.finish {k : ℕ} {saved : Bool} (hstep : step s (.finish k saved) = some t) : Inv t := by
  simp only [step] at hstep
  cases hk : s.refreshes[k]? with
  | none => simp [hk] at hstep
  | some refresh =>
      cases refresh with
      | fetched incoming previous => simp [hk] at hstep
      | merged tasks =>
          rw [hk] at hstep
          cases hstep
          have hset := h.setProjection tasks saved fun task htask =>
            mem_shown.mpr (.inr (.inr ⟨_,mem_of_getElem? hk,htask⟩))
          apply hset.lose
            (t := { RemoteDispatch.setProjection s tasks saved with
              refreshes := s.refreshes.eraseIdx k }) rfl rfl rfl rfl
          · intro task htask
            rw [mem_shown] at htask ⊢
            refine htask.imp_right (Or.imp_right ?_)
            rintro ⟨refresh,hrefresh,htask⟩
            exact ⟨refresh,mem_of_mem_eraseIdx hrefresh,htask⟩
          · exact fun id => .inl rfl

theorem Inv.fetch {incoming : List RemoteTask} (hcareful : Careful s (.fetch incoming)) :
    Inv { s with refreshes := s.refreshes ++ [.fetched incoming s.projection] } := by
  apply h.show (t := { s with refreshes := s.refreshes ++ [.fetched incoming s.projection] })
    rfl rfl rfl (.refl _) (.inl rfl)
  intro task htask hdispatch
  have hrest : task ∈ shown s ∨ task ∈ incoming := by
    rw [mem_shown] at htask ⊢
    simp only [mem_append, mem_singleton] at htask
    rcases htask with hprojection | hloop | ⟨refresh,hrefresh | rfl,htask⟩
    · exact .inl (.inl hprojection)
    · exact .inl (.inr (.inl hloop))
    · exact .inl (.inr (.inr ⟨refresh,hrefresh,htask⟩))
    · exact (mem_append.mp htask).symm.imp_left .inl
  rcases hrest with hshown | hincoming
  · exact .inl (offered_of_mem hshown hdispatch)
  · exact .inr (hcareful.receives task hincoming hdispatch)

end

theorem step_inv (s : State) (label : Label) (t : State) (h : Inv s) (hcareful : Careful s label)
    (hstep : step s label = some t) : Inv t := by
  cases label with
  | localCreated localId =>
      cases hstep
      apply h.show (t := { s with locals := localId :: s.locals }) rfl rfl rfl
        (subset_cons_self _ _) (.inl rfl)
      exact fun task htask hdispatch => .inl (offered_of_mem htask hdispatch)
  | save =>
      cases hstep
      exact ⟨h.once,h.injective,h.known,h.recorded,h.binding,h.dispatches⟩
  | event task =>
      simp only [step, loopStep] at hstep
      split_ifs at hstep with hidle
      cases hstep
      refine h.setLoop (by rw [hidle]; rfl) rfl (fun _ hmem => absurd hmem not_mem_nil) ?_
      intro other hother hdispatch
      rcases mem_upsert hother with rfl | hprojection
      · exact .inr (hcareful.receives other mem_cons_self hdispatch)
      · exact .inl (offered_of_mem (mem_shown.mpr (.inl hprojection)) hdispatch)
  | progress ids =>
      simp only [step, loopStep] at hstep
      split_ifs at hstep with hidle
      cases hstep
      refine h.setLoop (by rw [hidle]; rfl) rfl (fun _ hmem => absurd hmem not_mem_nil) ?_
      intro other hother hdispatch
      exact .inl (offered_of_mem (mem_shown.mpr (.inl (mem_progress hdispatch hother))) hdispatch)
  | store saved =>
      simp only [step, loopStep] at hstep
      split at hstep
      · next tasks hloop =>
        cases hstep
        have hset := h.setProjection tasks saved fun task htask =>
          mem_shown.mpr (.inr (.inl (by rw [hloop]; exact htask)))
        exact hset.stop (by change bindingId s.loop = none; rw [hloop]; rfl)
      · exact nomatch hstep
  | rebuild localTasks =>
      simp only [step, loopStep] at hstep
      split_ifs at hstep with hidle
      cases hstep
      exact h.rebuild hidle.1 hidle.2
  | accept =>
      simp only [step, loopStep] at hstep
      split_ifs at hstep with hstarting
      cases hstep
      refine h.setRest (by rw [hstarting]; rfl) rfl rfl fun task htask => .inr ?_
      exact mem_filter.mp htask
  | create localId =>
      simp only [step, loopStep] at hstep
      split at hstep
      · next task rest hloop => exact h.createNext hloop hstep
      · exact nomatch hstep
  | bind =>
      simp only [step, loopStep] at hstep
      split at hstep
      · next task localId rest hloop =>
        cases hstep
        exact h.bind hloop
      · exact nomatch hstep
  | announce ok =>
      simp only [step, loopStep] at hstep
      split at hstep
      · next task rest hloop =>
        have hbefore : bindingId s.loop = none := by
          rw [hloop]
          rfl
        split_ifs at hstep
        · cases hstep
          have hrest : Inv { s with loop := .accepting rest } :=
            h.setRest hbefore rfl rfl fun other hother => .inl (by rw [hloop]; exact hother)
          exact ⟨hrest.once,hrest.injective,hrest.known,hrest.recorded,hrest.binding,
            hrest.dispatches⟩
        · cases hstep
          exact h.stop hbefore
      · exact nomatch hstep
  | report order localTasks =>
      simp only [step, loopStep] at hstep
      split_ifs at hstep with hidle
      cases hstep
      exact h.setRest (by rw [hidle.1]; rfl) rfl rfl fun _ htask => absurd htask not_mem_nil
  | reportNext outcome => exact h.reportNext hcareful hstep
  | done =>
      simp only [step, loopStep] at hstep
      split at hstep
      · next hloop =>
        cases hstep
        exact h.stop (by rw [hloop]; rfl)
      · next hloop =>
        cases hstep
        exact h.stop (by rw [hloop]; rfl)
      · exact nomatch hstep
  | fetch incoming =>
      cases hstep
      exact h.fetch hcareful
  | merge k => exact h.merge hcareful hstep
  | finish k saved => exact h.finish hstep
  | restart =>
      cases hstep
      exact inv_start h.once (hcareful.restart rfl)

/-- In every careful run each dispatch is executed at most once, and no two remote tasks have one
local task. -/
theorem dispatches_executed_once {device : String} {stored : List RemoteTask}
    {locals : List String} {labels : List Label} {s : State}
    (hcareful : Meets step Careful (start device stored locals []) labels)
    (h : exec step (start device stored locals []) labels = some s) : DispatchedOnce s :=
  (exec_invariant_of_meets step_inv (inv_start_nil device stored locals) hcareful h).dispatchedOnce

def sampleTask (status : RemoteTaskStatus) : RemoteTask where
  id := "r"
  toDevice := "here"
  url := "u"
  fileName := "f"
  saveDir := none
  status := status

def sampleLocal (status : ℤ) : LocalTask := ⟨"a","u","","f","",status⟩

/-- A dispatch is executed and reported, shows as accepted, and completes before a restart. -/
def sampleLabels : List Label :=
  [.fetch [sampleTask .pending], .merge 0, .finish 0 true, .rebuild [], .accept, .create (some "a"),
    .bind, .announce true, .done, .event (sampleTask .accepted), .store true,
    .report [("r", "a")] [sampleLocal 3], .reportNext .ok, .done, .restart, .rebuild [sampleLocal 3],
    .accept]

theorem dispatches_executed_once_sample :
    ∃ s, exec step (start "here" [] [] []) sampleLabels = some s ∧ DispatchedOnce s := by
  have hexec : (exec step (start "here" [] [] []) sampleLabels).isSome = true := by decide +kernel
  obtain ⟨s,hs⟩ := Option.isSome_iff_exists.mp hexec
  exact ⟨s,hs,dispatches_executed_once (by decide +kernel) hs⟩

/-- The report of an executed dispatch fails, and the service restarts with the dispatch pending. -/
def repeatedLabels : List Label :=
  [.fetch [sampleTask .pending], .merge 0, .finish 0 true, .rebuild [], .accept, .create (some "a"),
    .bind, .announce false, .restart, .fetch [sampleTask .pending], .merge 0, .finish 0 true,
    .rebuild [sampleLocal 1], .accept, .create (some "b")]

theorem dispatches_not_executed_once :
    ¬ ∀ (device : String) (stored : List RemoteTask) (locals : List String) (labels : List Label)
      (s : State), exec step (start device stored locals []) labels = some s →
        DispatchedOnce s := by
  intro h
  have hexec : (exec step (start "here" [] [] []) repeatedLabels).any
      (fun s => s.created = [("r", "b"), ("r", "a")]) = true := by decide +kernel
  obtain ⟨s,hs,hcreated⟩ := (Option.any_eq_true _ _).mp hexec
  have honce := (h "here" [] [] repeatedLabels s hs).once
  rw [of_decide_eq_true hcreated] at honce
  exact absurd honce (by decide)

end RinaDown.DispatchOnce
