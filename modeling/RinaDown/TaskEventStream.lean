import RinaDown.TaskEvents
import RinaDown.LabelledExecutions

/-!
# The stream of the events of a task

The events of a task are those of the transitions between its statuses, in the order in which
the statuses were recorded, if the calls for one task do not overlap. A task that a snapshot
has stopped has no further event if no late report is recorded before a snapshot lists the
task again.
-/

namespace RinaDown.TaskEvents

open KeyedTable LabelledExecutions List
open Option hiding filter filter_map map map_map

/-! ## The events of the changes of a task -/

def Change.apply : Option ℤ → Change → Option ℤ
  | _, .recorded status _ => some status
  | _, .listed status => some status
  | _, .disappeared => none

/-- The event of a change, after a status. -/
def Change.event (prev : Option ℤ) : Change → Option TaskEventKind
  | .recorded next _ => taskEventForTransition prev next
  | .listed _ => none
  | .disappeared => if prev.any fun status => !isTerminalStatus status then some .stop else none

def statusAfter (cs : List Change) : Option ℤ := cs.foldl Change.apply none

def eventAt (cs : List Change) (i : ℕ) : Option TaskEventKind :=
  cs[i]?.bind (Change.event (statusAfter (cs.take i)))

def eventsOf (cs : List Change) : List TaskEventKind := (List.range cs.length).filterMap (eventAt cs)

/-- A snapshot has stopped the task and none has listed it since. -/
def Stopped (cs : List Change) : Prop :=
  ∃ i < cs.length, eventAt cs i = some .stop ∧
    ∀ m < cs.length, i < m → ∀ status, cs[m]? ≠ some (.listed status)

/-- After a stop there is an event only once a snapshot has listed the task again. -/
def ListedAfterStop (cs : List Change) : Prop :=
  ∀ i j kind, i < j → eventAt cs i = some .stop → eventAt cs j = some kind →
    ∃ m status, i < m ∧ m < j ∧ cs[m]? = some (.listed status)

variable {cs : List Change} {c : Change}

theorem statusAfter_append (cs : List Change) (c : Change) :
    statusAfter (cs ++ [c]) = c.apply (statusAfter cs) := by
  rw [statusAfter, foldl_append]
  rfl

variable {i : ℕ} {kind : TaskEventKind} {states : Table String ℤ}

theorem eventAt_append_of_lt (hi : i < cs.length) : eventAt (cs ++ [c]) i = eventAt cs i := by
  rw [eventAt, eventAt, getElem?_append_left hi, take_append_of_le_length (Nat.le_of_lt hi)]

theorem eventAt_length (cs : List Change) (c : Change) :
    eventAt (cs ++ [c]) cs.length = c.event (statusAfter cs) := by
  rw [eventAt, getElem?_concat_length, take_left]
  rfl

theorem lt_of_eventAt (h : eventAt cs i = some kind) :
    i < cs.length := by
  obtain ⟨c,hc,-⟩ := bind_eq_some_iff.mp h
  exact (List.getElem?_eq_some_iff.mp hc).1

theorem eventsOf_append (cs : List Change) (c : Change) :
    eventsOf (cs ++ [c]) = eventsOf cs ++ (c.event (statusAfter cs)).toList := by
  have hbefore : (List.range cs.length).filterMap (eventAt (cs ++ [c])) =
      (List.range cs.length).filterMap (eventAt cs) := by
    apply filterMap_congr
    intro i hi
    exact eventAt_append_of_lt (mem_range.mp hi)
  rw [eventsOf, length_append, length_singleton, range_succ, filterMap_append,
    hbefore, eventsOf]
  cases hevent : c.event (statusAfter cs) with
  | none => simp [eventAt_length, hevent]
  | some kind => simp [eventAt_length, hevent]

/-- A stop is the event of the disappearance of a task that was not finished. -/
theorem eventAt_stop_iff : eventAt cs i = some .stop ↔
    cs[i]? = some .disappeared ∧
      ∃ status, statusAfter (cs.take i) = some status ∧ isTerminalStatus status = false := by
  rw [eventAt, bind_eq_some_iff]
  constructor
  · rintro ⟨c,hc,hevent⟩
    cases c with
    | recorded status errorMessage =>
        rw [Change.event, taskEventForTransition] at hevent
        split_ifs at hevent <;> cases hevent
    | listed status => cases hevent
    | disappeared =>
        rw [Change.event] at hevent
        split_ifs at hevent with hany
        obtain ⟨status,hstatus,hterminal⟩ := (any_eq_true _ _).mp hany
        exact ⟨hc,status,hstatus,by simpa using hterminal⟩
  · rintro ⟨hc,status,hstatus,hterminal⟩
    refine ⟨_,hc,?_⟩
    rw [Change.event, hstatus, any_some, hterminal]
    rfl

/-- The status that is reported by an event. -/
def TaskEventKind.status : TaskEventKind → ℤ
  | .start => 1
  | .pause => 2
  | .complete => 3
  | .error => 4
  | .stop => 0

/-- Every other event is that of a report with its status, which differs from the one before. -/
theorem recorded_of_eventAt (h : eventAt cs i = some kind) (hkind : kind ≠ .stop) :
    ∃ status errorMessage, cs[i]? = some (.recorded status errorMessage) ∧
      statusAfter (cs.take i) ≠ some status ∧ status = kind.status := by
  obtain ⟨c,hc,hevent⟩ := bind_eq_some_iff.mp h
  cases c with
  | recorded status errorMessage =>
      refine ⟨status,errorMessage,hc,?_⟩
      rw [Change.event, taskEventForTransition] at hevent
      split_ifs at hevent with hsame h1 hprev h2 h3 h4 <;> cases hevent
      · exact ⟨hsame,h1⟩
      · exact ⟨hsame,h2.1⟩
      · exact ⟨hsame,h3.1⟩
      · exact ⟨hsame,h4.1⟩
  | listed status => cases hevent
  | disappeared =>
      rw [Change.event] at hevent
      split_ifs at hevent
      exact absurd (some.inj hevent).symm hkind

theorem statusAfter_take_succ (hc : cs[i]? = some c) :
    statusAfter (cs.take (i + 1)) = c.apply (statusAfter (cs.take i)) := by
  rw [take_add_one, hc, toList_some, statusAfter_append]

/-- Between two events of one kind, the task has another status. -/
theorem status_changes_between {j : ℕ} (hij : i < j) (hkind : kind ≠ .stop)
    (hi : eventAt cs i = some kind) (hj : eventAt cs j = some kind) :
    ∃ m, i < m ∧ m ≤ j ∧ statusAfter (cs.take m) ≠ statusAfter (cs.take (i + 1)) := by
  obtain ⟨status,errorMessage,hci,-,hstatus⟩ := recorded_of_eventAt hi hkind
  obtain ⟨status',errorMessage',-,hne,hstatus'⟩ := recorded_of_eventAt hj hkind
  refine ⟨j,hij,Nat.le_refl j,?_⟩
  rw [statusAfter_take_succ hci, Change.apply, hstatus, ← hstatus']
  exact hne

/-! ## What holds for one task -/

/-- The status, the changes, and the events that were broadcast and that are still to be. -/
structure TaskInv (status : Option ℤ) (cs : List Change) (sent waiting : List TaskEventKind) :
    Prop where
  current : status = statusAfter cs
  stream : sent ++ waiting = eventsOf cs
  single : waiting.length ≤ 1
  sentinel : ∀ errorMessage, .recorded 4 errorMessage ∈ cs → errorMessage ≠ "deleted"
  stopped : Stopped cs → status = none
  listedAfterStop : ListedAfterStop cs

variable {status : Option ℤ} {sent waiting : List TaskEventKind}

theorem TaskInv.send (h : TaskInv status cs sent [kind]) :
    TaskInv status cs (sent ++ [kind]) [] :=
  ⟨h.current,by rw [append_nil]; exact h.stream,Nat.zero_le 1,h.sentinel,h.stopped,
    h.listedAfterStop⟩

theorem stopped_append (h : Stopped (cs ++ [c])) :
    c.event (statusAfter cs) = some .stop ∨ Stopped cs ∧ ∀ status, c ≠ .listed status := by
  obtain ⟨i,hi,hstop,hlisted⟩ := h
  rw [length_append, length_singleton] at hi hlisted
  by_cases hlast : i = cs.length
  · rw [hlast, eventAt_length] at hstop
    exact .inl hstop
  · have hlt : i < cs.length := by omega
    rw [eventAt_append_of_lt hlt] at hstop
    refine .inr ⟨⟨i,hlt,hstop,fun m hm him status heq => ?_⟩,fun status heq => ?_⟩
    · refine hlisted m (Nat.lt_succ_of_lt hm) him status ?_
      rw [getElem?_append_left hm, heq]
    · refine hlisted cs.length (Nat.lt_succ_self _) hlt status ?_
      rw [getElem?_concat_length, heq]

theorem disappeared_of_event (h : c.event status = some .stop) : c = .disappeared := by
  cases c with
  | recorded next errorMessage =>
      rw [Change.event, taskEventForTransition] at h
      split_ifs at h <;> cases h
  | listed next => cases h
  | disappeared => rfl

theorem listedAfterStop_append (h : ListedAfterStop cs)
    (hlate : Stopped cs → ∃ status, c = .listed status) : ListedAfterStop (cs ++ [c]) := by
  intro i j kind hij hstop hevent
  have hj := lt_of_eventAt hevent
  rw [length_append, length_singleton] at hj
  have hi : i < cs.length := by omega
  rw [eventAt_append_of_lt hi] at hstop
  by_cases hlast : j = cs.length
  · subst hlast
    rw [eventAt_length] at hevent
    by_contra hnone
    have hstopped : Stopped cs := by
      refine ⟨i,hi,hstop,fun m hm him status heq => hnone ⟨m,status,him,hm,?_⟩⟩
      rw [getElem?_append_left hm, heq]
    obtain ⟨status,rfl⟩ := hlate hstopped
    cases hevent
  · have hlt : j < cs.length := by omega
    rw [eventAt_append_of_lt hlt] at hevent
    obtain ⟨m,status,him,hmj,hlisted⟩ := h i j kind hij hstop hevent
    refine ⟨m,status,him,hmj,?_⟩
    rw [getElem?_append_left (Nat.lt_trans hmj hlt), hlisted]

/-- The next change of a task. Its event comes after those that were broadcast. -/
theorem TaskInv.append (h : TaskInv status cs sent waiting)
    (hwaiting : c.event status = none ∨ waiting = [])
    (hlate : Stopped cs → ∃ status, c = .listed status)
    (hsentinel : ∀ errorMessage, c = .recorded 4 errorMessage → errorMessage ≠ "deleted") :
    TaskInv (c.apply status) (cs ++ [c]) sent (waiting ++ (c.event status).toList) := by
  obtain ⟨rfl,hstream,hsingle,hsentinels,-,hlisted⟩ := h
  constructor
  · rw [statusAfter_append]
  · rw [eventsOf_append, ← hstream, append_assoc]
  · rcases hwaiting with hnone | rfl
    · rw [hnone, toList_none, append_nil]
      exact hsingle
    · cases c.event (statusAfter cs) with
      | none => exact Nat.zero_le 1
      | some kind => exact Nat.le_refl 1
  · intro errorMessage hmem
    rcases mem_append.mp hmem with hold | hnew
    · exact hsentinels errorMessage hold
    · exact hsentinel errorMessage (mem_singleton.mp hnew).symm
  · intro hstopped
    rcases stopped_append hstopped with hstop | ⟨hbefore,hne⟩
    · rw [disappeared_of_event hstop]
      rfl
    · obtain ⟨status,hc⟩ := hlate hbefore
      exact absurd hc (hne status)
  · exact listedAfterStop_append hlisted hlate

/-! ## What holds for the hub -/

def kindsOf (events : List TaskEvent) (taskId : String) : List TaskEventKind :=
  (events.filter (·.taskId = taskId)).map (·.kind)

def changesOf (history : List (String × Change)) (taskId : String) : List Change :=
  (history.filter (·.1 = taskId)).map Prod.snd

def EmitCall.events : EmitCall → List TaskEvent
  | .broadcasting events => events
  | _ => []

def waitingEvents (calls : List EmitCall) : List TaskEvent := calls.flatMap EmitCall.events

structure Inv (s : WsHub) : Prop where
  keys : (keys s.taskStates).Nodup
  tasks : ∀ taskId, TaskInv (s.taskStates.lookup taskId) (changesOf s.history taskId)
    (kindsOf s.taskEvents taskId) (kindsOf (waitingEvents s.calls) taskId)

theorem kindsOf_append (events events' : List TaskEvent) (taskId : String) :
    kindsOf (events ++ events') taskId = kindsOf events taskId ++ kindsOf events' taskId := by
  rw [kindsOf, filter_append, map_append]
  rfl

theorem changesOf_append (history history' : List (String × Change)) (taskId : String) :
    changesOf (history ++ history') taskId =
      changesOf history taskId ++ changesOf history' taskId := by
  rw [changesOf, filter_append, map_append]
  rfl

theorem waitingEvents_set {calls : List EmitCall} {call : EmitCall} (h : calls[i]? = some call) :
    ∃ before after, waitingEvents calls = before ++ call.events ++ after ∧
      ∀ call', waitingEvents (calls.set i call') = before ++ EmitCall.events call' ++ after := by
  obtain ⟨hi,hcall⟩ := List.getElem?_eq_some_iff.mp h
  refine ⟨waitingEvents (calls.take i),waitingEvents (calls.drop (i + 1)),?_,fun call' => ?_⟩
  · conv_lhs => rw [← take_append_drop i calls, drop_eq_getElem_cons hi, hcall]
    simp [waitingEvents]
  · rw [set_eq_take_append_cons_drop, if_pos hi]
    simp [waitingEvents]

theorem kindsOf_waiting_set {calls : List EmitCall} {call call' : EmitCall}
    (h : calls[i]? = some call) (hcall : call.events = []) {taskId : String}
    (hwaiting : kindsOf call'.events taskId = [] ∨ kindsOf (waitingEvents calls) taskId = []) :
    kindsOf (waitingEvents (calls.set i call')) taskId =
      kindsOf (waitingEvents calls) taskId ++ kindsOf call'.events taskId := by
  obtain ⟨before,after,hbefore,hafter⟩ := waitingEvents_set h
  rw [hcall, append_nil] at hbefore
  rw [hbefore] at hwaiting
  rw [hafter, hbefore]
  simp only [kindsOf_append] at hwaiting ⊢
  rcases hwaiting with hnone | hnone
  · simp [hnone]
  · obtain ⟨h1,h2⟩ := append_eq_nil_iff.mp hnone
    simp [h1, h2]

/-- A snapshot and a report record the changes of a task one after another. -/
def RecordOrderly (s : WsHub) : EmitCall → Prop
  | .cached (.taskProgress p) => isDeleteSentinel p.status p.errorMessage = false →
      (s.taskStates.lookup p.taskId = some p.status ∨
        kindsOf (waitingEvents s.calls) p.taskId = []) ∧
      ¬ Stopped (changesOf s.history p.taskId)
  | .cached (.tasksSnapshot tasks) => ∀ e ∈ s.taskStates, liveIn tasks e.1 = false →
      isTerminalStatus e.2 = false → kindsOf (waitingEvents s.calls) e.1 = []
  | _ => True

def Orderly (s : WsHub) : Label → Prop
  | .recordStates i => ∀ call ∈ s.calls[i]?, RecordOrderly s call
  | _ => True

variable {s t : WsHub}

theorem Inv.of_waiting (h : Inv s) (hstates : t.taskStates = s.taskStates)
    (hhistory : t.history = s.history) (hevents : t.taskEvents = s.taskEvents)
    (hwaiting : ∀ taskId, kindsOf (waitingEvents t.calls) taskId =
      kindsOf (waitingEvents s.calls) taskId) : Inv t := by
  refine ⟨hstates ▸ h.keys,fun taskId => ?_⟩
  rw [hstates, hhistory, hevents, hwaiting]
  exact h.tasks taskId

theorem Inv.recordProgress (h : Inv s) {p : TaskProgress}
    (hcall : s.calls[i]? = some (.cached (.taskProgress p)))
    (horderly : RecordOrderly s (.cached (.taskProgress p))) : Inv (s.recordProgress i p) := by
  rw [WsHub.recordProgress]
  by_cases hsentinel : isDeleteSentinel p.status p.errorMessage = true
  · rw [if_pos hsentinel]
    refine h.of_waiting rfl rfl rfl fun taskId => ?_
    rw [kindsOf_waiting_set hcall rfl (.inl rfl)]
    exact append_nil _
  · rw [if_neg hsentinel]
    obtain ⟨hbroadcast,hlate⟩ := horderly (eq_false_of_ne_true hsentinel)
    have hkinds : ∀ taskId, kindsOf (EmitCall.broadcasting
        ((taskEventForTransition (s.taskStates.lookup p.taskId) p.status).toList.map
          fun kind => ⟨p.taskId,kind⟩)).events taskId =
        if taskId = p.taskId then
          (taskEventForTransition (s.taskStates.lookup p.taskId) p.status).toList else [] := by
      intro taskId
      cases taskEventForTransition (s.taskStates.lookup p.taskId) p.status with
      | none => simp [EmitCall.events, kindsOf]
      | some kind =>
          by_cases htask : taskId = p.taskId
          · simp [EmitCall.events, kindsOf, htask]
          · simp [EmitCall.events, kindsOf, htask, Ne.symm htask]
    have hevent : taskEventForTransition (s.taskStates.lookup p.taskId) p.status = none ∨
        kindsOf (waitingEvents s.calls) p.taskId = [] := by
      rcases hbroadcast with hsame | hnone
      · left
        rw [taskEventForTransition, if_pos hsame]
      · exact .inr hnone
    refine ⟨nodup_insert h.keys,fun taskId => ?_⟩
    simp only [lookup_insert, changesOf_append]
    by_cases htask : taskId = p.taskId
    · subst htask
      rw [kindsOf_waiting_set hcall rfl, hkinds, if_pos rfl, if_pos rfl]
      · have hchanges : changesOf [(p.taskId, Change.recorded p.status p.errorMessage)] p.taskId =
            [.recorded p.status p.errorMessage] := by simp [changesOf]
        rw [hchanges]
        refine (h.tasks p.taskId).append (c := .recorded p.status p.errorMessage) hevent
          (fun hstopped => absurd hstopped hlate) ?_
        intro errorMessage heq hdeleted
        injection heq with hstatus hmessage
        rw [isDeleteSentinel, hstatus, hmessage, hdeleted] at hsentinel
        exact hsentinel rfl
      · rcases hevent with hnone | hnone
        · left
          rw [hkinds, hnone, if_pos rfl]
          rfl
        · exact .inr hnone
    · have hchanges : changesOf [(p.taskId, Change.recorded p.status p.errorMessage)] taskId = [] := by
        simp [changesOf, Ne.symm htask]
      rw [if_neg htask, hchanges, append_nil, kindsOf_waiting_set hcall rfl, hkinds,
        if_neg htask, append_nil]
      · exact h.tasks taskId
      · left
        rw [hkinds, if_neg htask]

theorem lookup_foldl_orInsert (tasks : List TaskInfo) (states : Table String ℤ) (taskId : String) :
    (tasks.foldl (fun states t => orInsert t.taskId t.status states) states).lookup taskId =
      (states.lookup taskId).or ((tasks.find? (·.taskId = taskId)).map (·.status)) := by
  induction tasks generalizing states with
  | nil => simp
  | cons t tasks ih =>
      rw [foldl_cons, ih, lookup_orInsert, find?_cons]
      by_cases htask : taskId = t.taskId
      · subst htask
        cases states.lookup t.taskId <;> simp
      · simp [htask, Ne.symm htask]

theorem nodup_foldl_orInsert (tasks : List TaskInfo) (h : (keys states).Nodup) :
    (keys (tasks.foldl (fun states t => orInsert t.taskId t.status states) states)).Nodup := by
  induction tasks generalizing states with
  | nil => exact h
  | cons t tasks ih => exact ih (nodup_orInsert h)

theorem liveIn_eq (tasks : List TaskInfo) (taskId : String) :
    liveIn tasks taskId = (tasks.find? (·.taskId = taskId)).isSome := by
  rw [liveIn, ← isSome_find?]

theorem lookup_reconcile (states : Table String ℤ) (tasks : List TaskInfo) (taskId : String) :
    (reconcileSnapshotStates states tasks).1.lookup taskId =
      if liveIn tasks taskId then
        (states.lookup taskId).or ((tasks.find? (·.taskId = taskId)).map (·.status))
      else none := by
  rw [reconcileSnapshotStates, lookup_foldl_orInsert, lookup_retain, liveIn_eq]
  cases tasks.find? (·.taskId = taskId) with
  | none => rfl
  | some t => rfl

/-- The change of a task in a snapshot. -/
def snapshotChange (states : Table String ℤ) (tasks : List TaskInfo) (taskId : String) :
    Option Change :=
  match states.lookup taskId with
  | some _ => if liveIn tasks taskId then none else some .disappeared
  | none => ((tasks.find? (·.taskId = taskId)).map (·.status)).map .listed

theorem changesOf_snapshot (h : (keys states).Nodup) (tasks : List TaskInfo) (taskId : String) :
    changesOf (snapshotChanges states tasks) taskId = (snapshotChange states tasks taskId).toList := by
  have hreconciled : (keys (reconcileSnapshotStates states tasks).1).Nodup :=
    nodup_foldl_orInsert tasks (nodup_retain _ h)
  have hdropped := filter_key (nodup_retain (fun id => !liveIn tasks id) h) taskId
  have hlisted := filter_key (nodup_retain (fun id => (states.lookup id).isNone) hreconciled) taskId
  rw [lookup_retain] at hdropped hlisted
  rw [snapshotChanges, changesOf_append, changesOf, changesOf, filter_map, filter_map]
  simp only [Function.comp_def, hdropped, hlisted]
  simp only [lookup_reconcile, snapshotChange, liveIn_eq]
  cases states.lookup taskId with
  | none =>
      cases tasks.find? (·.taskId = taskId) with
      | none => rfl
      | some t => rfl
  | some status =>
      cases tasks.find? (·.taskId = taskId) with
      | none => rfl
      | some t => rfl

theorem kindsOf_map (l : Table String ℤ) (kind : TaskEventKind) (taskId : String) :
    kindsOf ((l.map Prod.fst).map fun taskId => ⟨taskId,kind⟩) taskId =
      (l.filter fun e => e.1 = taskId).map fun _ => kind := by
  rw [kindsOf, map_map, filter_map, map_map]
  rfl

theorem kindsOf_snapshot (h : (keys states).Nodup) (tasks : List TaskInfo) (taskId : String) :
    kindsOf ((reconcileSnapshotStates states tasks).2.map fun taskId => ⟨taskId,.stop⟩) taskId =
      ((snapshotChange states tasks taskId).bind
        (Change.event (states.lookup taskId))).toList := by
  rw [reconcileSnapshotStates, kindsOf_map, filter_comm, filter_key h, snapshotChange]
  cases states.lookup taskId with
  | none => cases tasks.find? (·.taskId = taskId) <;> rfl
  | some status =>
      cases hlive : liveIn tasks taskId with
      | true => simp [hlive]
      | false =>
          cases hterminal : isTerminalStatus status with
          | true | false => simp [hlive, hterminal, Change.event]

theorem lookup_snapshot (states : Table String ℤ) (tasks : List TaskInfo) (taskId : String) :
    (reconcileSnapshotStates states tasks).1.lookup taskId =
      ((snapshotChange states tasks taskId).map (Change.apply (states.lookup taskId))).getD
        (states.lookup taskId) := by
  rw [lookup_reconcile, snapshotChange, liveIn_eq]
  cases states.lookup taskId with
  | none | some status => cases tasks.find? (·.taskId = taskId) <;> rfl

/-- A snapshot registers a task, or drops it from the table. -/
theorem snapshotChange_cases {tasks : List TaskInfo} {taskId : String}
    (h : snapshotChange states tasks taskId = some c) :
    (states.lookup taskId = none ∧ ∃ status, c = .listed status) ∨
      c = .disappeared ∧ ∃ status, states.lookup taskId = some status ∧
        liveIn tasks taskId = false := by
  rw [snapshotChange] at h
  cases hlookup : states.lookup taskId with
  | none =>
      rw [hlookup] at h
      obtain ⟨status,-,rfl⟩ := map_eq_some_iff.mp h
      exact .inl ⟨rfl,status,rfl⟩
  | some status =>
      simp only [hlookup] at h
      split_ifs at h with hlive
      exact .inr ⟨(some.inj h).symm,status,rfl,eq_false_of_ne_true hlive⟩

theorem Inv.recordSnapshot (h : Inv s) {tasks : List TaskInfo}
    (hcall : s.calls[i]? = some (.cached (.tasksSnapshot tasks)))
    (horderly : RecordOrderly s (.cached (.tasksSnapshot tasks))) :
    Inv (s.recordSnapshot i tasks) := by
  refine ⟨nodup_foldl_orInsert tasks (nodup_retain _ h.keys),fun taskId => ?_⟩
  have hkinds := kindsOf_snapshot h.keys tasks taskId
  have htask := h.tasks taskId
  simp only [WsHub.recordSnapshot, changesOf_append, changesOf_snapshot h.keys, lookup_snapshot]
  cases hchange : snapshotChange s.taskStates tasks taskId with
  | none =>
      rw [hchange] at hkinds
      rw [kindsOf_waiting_set hcall rfl, EmitCall.events, hkinds]
      · simpa using htask
      · exact .inl hkinds
  | some c =>
      rw [hchange, bind_some] at hkinds
      have hwaiting : c.event (s.taskStates.lookup taskId) = none ∨
          kindsOf (waitingEvents s.calls) taskId = [] := by
        rcases snapshotChange_cases hchange with ⟨-,status,rfl⟩ | ⟨rfl,status,hlookup,hlive⟩
        · exact .inl rfl
        · cases hterminal : isTerminalStatus status with
          | true =>
              left
              rw [hlookup, Change.event, any_some, hterminal]
              rfl
          | false => exact .inr (horderly _ (mem_of_lookup hlookup) hlive hterminal)
      have hlate : Stopped (changesOf s.history taskId) → ∃ status, c = .listed status := by
        intro hstopped
        rcases snapshotChange_cases hchange with ⟨-,hlisted⟩ | ⟨-,status,hlookup,-⟩
        · exact hlisted
        · rw [htask.stopped hstopped] at hlookup
          cases hlookup
      have hsentinel : ∀ errorMessage, c = .recorded 4 errorMessage → errorMessage ≠ "deleted" := by
        rintro errorMessage rfl
        rcases snapshotChange_cases hchange with ⟨-,status,hlisted⟩ | ⟨hdropped,-⟩
        · cases hlisted
        · cases hdropped
      rw [kindsOf_waiting_set hcall rfl, EmitCall.events, hkinds]
      · exact htask.append hwaiting hlate hsentinel
      · rcases hwaiting with hnone | hnone
        · left
          rw [EmitCall.events, hkinds, hnone]
          rfl
        · exact .inr hnone

/-- An event that is broadcast is the only one of its task that waits. -/
theorem Inv.broadcast (h : Inv s) {j : ℕ} {events : List TaskEvent} {event : TaskEvent}
    (hcall : s.calls[i]? = some (.broadcasting events)) (hevent : events[j]? = some event) :
    Inv { s with
      calls := s.calls.set i (.broadcasting (events.eraseIdx j))
      taskEvents := s.taskEvents ++ [event] } := by
  obtain ⟨before,after,hbefore,hafter⟩ := waitingEvents_set hcall
  obtain ⟨hj,hget⟩ := List.getElem?_eq_some_iff.mp hevent
  have hsplit : events = events.take j ++ event :: events.drop (j + 1) := by
    rw [← hget, ← drop_eq_getElem_cons hj, take_append_drop]
  refine ⟨h.keys,fun taskId => ?_⟩
  have htask := h.tasks taskId
  rw [hbefore, EmitCall.events] at htask
  simp only [hafter, EmitCall.events, eraseIdx_eq_take_drop_succ, kindsOf_append]
  rw [hsplit] at htask
  simp only [kindsOf_append] at htask
  by_cases hid : event.taskId = taskId
  · have hcons : kindsOf (event :: events.drop (j + 1)) taskId =
        event.kind :: kindsOf (events.drop (j + 1)) taskId := by simp [kindsOf, hid]
    have hone : kindsOf [event] taskId = [event.kind] := by simp [kindsOf, hid]
    rw [hcons] at htask
    have hsingle := htask.single
    simp only [length_append, length_cons] at hsingle
    have hnil : kindsOf before taskId = [] ∧ kindsOf (events.take j) taskId = [] ∧
        kindsOf (events.drop (j + 1)) taskId = [] ∧ kindsOf after taskId = [] := by
      refine ⟨?_,?_,?_,?_⟩ <;> apply eq_nil_of_length_eq_zero <;> omega
    obtain ⟨h1,h2,h3,h4⟩ := hnil
    rw [h1, h2, h3, h4] at htask ⊢
    rw [hone]
    exact htask.send
  · have hcons : kindsOf (event :: events.drop (j + 1)) taskId =
        kindsOf (events.drop (j + 1)) taskId := by simp [kindsOf, hid]
    have hnone : kindsOf [event] taskId = [] := by simp [kindsOf, hid]
    rw [hcons] at htask
    rw [hnone, append_nil]
    exact htask

theorem Inv.step (h : Inv s) {a : Label} (horderly : Orderly s a) (hstep : step s a = some t) :
    Inv t := by
  cases a with
  | emit event =>
      obtain rfl := some.inj hstep
      refine h.of_waiting rfl rfl rfl fun taskId => ?_
      rw [waitingEvents, flatMap_append, kindsOf_append]
      exact append_nil _
  | cacheSpeeds i =>
      rw [TaskEvents.step] at hstep
      split at hstep
      · next event hcall =>
          obtain rfl := some.inj hstep
          refine h.of_waiting rfl rfl rfl fun taskId => ?_
          rw [kindsOf_waiting_set hcall rfl (.inl rfl)]
          exact append_nil _
      · cases hstep
  | recordStates i =>
      rw [TaskEvents.step] at hstep
      split at hstep
      · next p hcall =>
          obtain rfl := some.inj hstep
          exact h.recordProgress hcall (horderly _ hcall)
      · next tasks hcall =>
          obtain rfl := some.inj hstep
          exact h.recordSnapshot hcall (horderly _ hcall)
      · cases hstep
  | broadcastTaskEvent i j =>
      rw [TaskEvents.step] at hstep
      split at hstep
      · next events hcall =>
          obtain ⟨event,hevent,rfl⟩ := map_eq_some_iff.mp hstep
          exact h.broadcast hcall hevent
      · cases hstep

theorem inv_newHub : Inv newHub := by
  refine ⟨nodup_nil,fun taskId => ?_⟩
  refine ⟨rfl,rfl,Nat.zero_le 1,fun _ hmem => absurd hmem not_mem_nil,?_,?_⟩
  · rintro ⟨i,hi,-⟩
    exact absurd hi (Nat.not_lt_zero i)
  · intro i j kind _ hstop
    exact absurd (lt_of_eventAt hstop) (Nat.not_lt_zero i)

/-! ## The run -/

/-- The events of a task. The table has the status after all changes, and the events that were
broadcast, followed by those that are still to be, are the events of the changes in order. -/
structure OrderlyEvents (s : WsHub) (taskId : String) : Prop where
  status : s.taskStates.lookup taskId = statusAfter (changesOf s.history taskId)
  stream : kindsOf s.taskEvents taskId ++ kindsOf (waitingEvents s.calls) taskId =
    eventsOf (changesOf s.history taskId)
  stops : ∀ i, eventAt (changesOf s.history taskId) i = some .stop ↔
    (changesOf s.history taskId)[i]? = some .disappeared ∧
      ∃ status, statusAfter ((changesOf s.history taskId).take i) = some status ∧
        isTerminalStatus status = false
  errors : ∀ i, eventAt (changesOf s.history taskId) i = some .error →
    ∃ errorMessage, (changesOf s.history taskId)[i]? = some (.recorded 4 errorMessage) ∧
      errorMessage ≠ "deleted"
  repeats : ∀ i j kind, i < j → kind ≠ .stop → eventAt (changesOf s.history taskId) i = some kind →
    eventAt (changesOf s.history taskId) j = some kind → ∃ m, i < m ∧ m ≤ j ∧
      statusAfter ((changesOf s.history taskId).take m) ≠
        statusAfter ((changesOf s.history taskId).take (i + 1))
  listedAfterStop : ListedAfterStop (changesOf s.history taskId)

theorem Inv.orderlyEvents (h : Inv s) (taskId : String) : OrderlyEvents s taskId := by
  have htask := h.tasks taskId
  constructor
  · exact htask.current
  · exact htask.stream
  · exact fun i => eventAt_stop_iff
  · intro i herror
    obtain ⟨status,errorMessage,hchange,-,rfl⟩ :=
      recorded_of_eventAt herror (fun hstop => TaskEventKind.noConfusion hstop)
    exact ⟨errorMessage,hchange,htask.sentinel errorMessage (mem_of_getElem? hchange)⟩
  · exact fun i j kind hij hkind => status_changes_between hij hkind
  · exact htask.listedAfterStop

/-- In every run of orderly steps, the events of every task are orderly. -/
theorem run_orderly_events {as : List Label} (hm : Meets TaskEvents.step Orderly newHub as)
    (h : exec TaskEvents.step newHub as = some t) : ∀ taskId, OrderlyEvents t taskId := by
  have hstep : ∀ s a t, Inv s → Orderly s a → TaskEvents.step s a = some t → Inv t :=
    fun s a t hs ha hstep => hs.step ha hstep
  exact (exec_invariant_of_meets hstep inv_newHub hm h).orderlyEvents

/-! ## Examples of runs -/

instance (cs : List Change) : Decidable (Stopped cs) :=
  decidable_of_iff (∃ i < cs.length, eventAt cs i = some .stop ∧
      ∀ m < cs.length, i < m → ∀ c ∈ cs[m]?, ∀ status ∈ c.apply none, c ≠ .listed status) (by
    refine exists_congr fun i => and_congr_right fun _ => and_congr_right fun _ => ?_
    refine forall_congr' fun m => forall_congr' fun _ => forall_congr' fun _ => ?_
    constructor
    · intro h status heq
      exact h _ heq status rfl rfl
    · rintro h c hc status - rfl
      exact h status hc)

instance (s : WsHub) : ∀ call, Decidable (RecordOrderly s call)
  | .cached (.taskProgress p) => inferInstanceAs (Decidable
      (isDeleteSentinel p.status p.errorMessage = false →
        (s.taskStates.lookup p.taskId = some p.status ∨
          kindsOf (waitingEvents s.calls) p.taskId = []) ∧
        ¬ Stopped (changesOf s.history p.taskId)))
  | .cached (.tasksSnapshot tasks) => inferInstanceAs (Decidable (∀ e ∈ s.taskStates,
      liveIn tasks e.1 = false → isTerminalStatus e.2 = false →
        kindsOf (waitingEvents s.calls) e.1 = []))
  | .entered _ | .broadcasting _ => isTrue trivial

instance : ∀ s a, Decidable (Orderly s a)
  | s, .recordStates i => inferInstanceAs (Decidable (∀ call ∈ s.calls[i]?, RecordOrderly s call))
  | _, .emit _ | _, .cacheSpeeds _ | _, .broadcastTaskEvent .. => isTrue trivial

def sampleProgress (status : ℤ) (errorMessage : String) : EngineEvent :=
  .taskProgress ⟨"t",status,0,errorMessage,0,0⟩

def sampleCall (event : EngineEvent) (i : ℕ) : List Label :=
  [.emit event, .cacheSpeeds i, .recordStates i, .broadcastTaskEvent i 0]

/-- A task is downloaded and deleted, and then listed and started again. -/
def deletedRun : List Label :=
  sampleCall (sampleProgress 1 "") 0 ++
    [.emit (sampleProgress 4 "deleted"), .cacheSpeeds 1, .recordStates 1] ++
    sampleCall (.tasksSnapshot []) 2 ++
    [.emit (.tasksSnapshot [⟨"t",0⟩]), .cacheSpeeds 3, .recordStates 3] ++
    sampleCall (sampleProgress 1 "") 4

theorem run_orderly_events_deleted :
    ∃ t, exec TaskEvents.step newHub deletedRun = some t ∧
      t.taskEvents = [⟨"t",.start⟩, ⟨"t",.stop⟩, ⟨"t",.start⟩] ∧
      ∀ taskId, OrderlyEvents t taskId := by
  have hm : Meets TaskEvents.step Orderly newHub deletedRun := by decide +kernel
  have hrun : (exec TaskEvents.step newHub deletedRun).any (fun t =>
      t.taskEvents = [⟨"t",.start⟩, ⟨"t",.stop⟩, ⟨"t",.start⟩]) = true := by decide +kernel
  obtain ⟨t,h,hevents⟩ := (any_eq_true _ _).mp hrun
  exact ⟨t,h,of_decide_eq_true hevents,run_orderly_events hm h⟩

/-- A second report is recorded before the event of the first is broadcast. -/
def overlappingRun : List Label :=
  [.emit (sampleProgress 1 ""), .emit (sampleProgress 2 ""), .cacheSpeeds 0, .cacheSpeeds 1,
    .recordStates 0, .recordStates 1, .broadcastTaskEvent 1 0, .broadcastTaskEvent 0 0]

/-- A report comes after the snapshot that has stopped its task. -/
def lateRun : List Label :=
  sampleCall (sampleProgress 1 "") 0 ++ sampleCall (.tasksSnapshot []) 1 ++
    sampleCall (sampleProgress 1 "") 2

/-- The events of overlapping calls are broadcast in the wrong order, and a late report starts
a stopped task that no snapshot has listed. -/
theorem events_out_of_order :
    (∃ t, exec TaskEvents.step newHub overlappingRun = some t ∧
      kindsOf t.taskEvents "t" = [.pause, .start] ∧
      eventsOf (changesOf t.history "t") = [.start, .pause]) ∧
    ∃ t, exec TaskEvents.step newHub lateRun = some t ∧
      kindsOf t.taskEvents "t" = [.start, .stop, .start] ∧
      changesOf t.history "t" = [.recorded 1 "", .disappeared, .recorded 1 ""] := by
  have hoverlapping : (exec TaskEvents.step newHub overlappingRun).any (fun t =>
      kindsOf t.taskEvents "t" = [.pause, .start] ∧
        eventsOf (changesOf t.history "t") = [.start, .pause]) = true := by decide +kernel
  have hlate : (exec TaskEvents.step newHub lateRun).any (fun t =>
      kindsOf t.taskEvents "t" = [.start, .stop, .start] ∧
        changesOf t.history "t" = [.recorded 1 "", .disappeared, .recorded 1 ""]) = true := by
    decide +kernel
  obtain ⟨t,ht,hfacts⟩ := (any_eq_true _ _).mp hoverlapping
  obtain ⟨u,hu,hfacts'⟩ := (any_eq_true _ _).mp hlate
  exact ⟨⟨t,ht,of_decide_eq_true hfacts⟩,u,hu,of_decide_eq_true hfacts'⟩

end RinaDown.TaskEvents
