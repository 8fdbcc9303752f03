import RinaDown.DaemonProjection
import RinaDown.LabelledExecutions

/-!
# The agent's mirror of the daemon

The agent applies the daemon's events to its own copy of the snapshot, with a
reducer that is written separately. The two agree on every event but two, and
the mirror is exact in every state of a run as long as those two have nothing
to change.
-/

namespace RinaDown.AgentMirror
open DaemonProjection LabelledExecutions List

inductive AgentKind where
  | session
  | sync
  | preferences
  | gateway
  | cloudDevices
  | linkedDevices
  | remoteTasks
  | pendingCaptures
  deriving DecidableEq, Repr

structure AgentSnapshot (Dto : DtoKind → Type) (Own : AgentKind → Type) where
  daemon : DaemonSnapshot Dto
  daemonConnected : Bool
  session : Own .session
  sync : Own .sync
  preferences : Own .preferences
  gateway : Own .gateway
  cloudDevices : Own .cloudDevices
  linkedDevices : Own .linkedDevices
  remoteTasks : Own .remoteTasks
  pendingCaptures : Own .pendingCaptures

inductive AgentEvent (Dto : DtoKind → Type) (Own : AgentKind → Type) where
  | daemon (event : DaemonEvent Dto)
  | daemonSnapshotReplaced (daemon : DaemonSnapshot Dto)
  | daemonConnectionChanged (connected : Bool)
  | sessionChanged (session : Own .session)
  | syncChanged (sync : Own .sync)
  | preferencesChanged (preferences : Own .preferences)
  | gatewayChanged (gateway : Own .gateway)
  | cloudDevicesChanged (devices : Own .cloudDevices)
  | linkedDevicesChanged (devices : Own .linkedDevices)
  | remoteTasksChanged (tasks : Own .remoteTasks)
  | pendingCapturesChanged (captures : Own .pendingCaptures)

variable {Dto : DtoKind → Type} {Own : AgentKind → Type}

def applyEngineMessage (s : DaemonSnapshot Dto) : EngineMessage Dto → DaemonSnapshot Dto
  | .tasksSnapshot tasks => { s with tasks := tasks }
  | .queuesChanged queues => { s with queues := queues }
  | .queuePositionsChanged positions => { s with queuePositions := positions }
  | .groupsChanged groups => { s with groups := groups }
  | .rssSourcesChanged sources => { s with rssSources := sources }
  | .webhookDeliveriesChanged deliveries => { s with webhookDeliveries := deliveries }
  | .taskMetaProbed taskId fileName totalBytes =>
    s.modifyTask taskId (Task.metaProbed fileName totalBytes)
  | .taskQueueChanged taskId queueId => s.modifyTask taskId (fun t => { t with queueId := queueId })
  | .taskRouteChanged taskId route => s.modifyTask taskId (fun t => { t with autoRoute := route })
  | .rssItemsChanged sourceId => s.bumpRssItems sourceId
  | .pluginAutoDisabled identity reason => s.disablePlugin identity reason
  | .taskProgress m =>
    if m.status = 4 ∧ m.errorMessage = "deleted" then s.removeTask m.taskId
    else s.modifyTask m.taskId (Task.progress m)
  | _ => s

def applyDaemonEvent (s : DaemonSnapshot Dto) : DaemonEvent Dto → DaemonSnapshot Dto
  | .snapshotReplaced replacement => replacement
  | .engine message => applyEngineMessage s message
  | .taskChanged task => s.putTask task
  | .taskDeleted taskId => s.removeTask taskId
  | .queuesChanged queues => { s with queues := queues }
  | .groupsChanged groups => { s with groups := groups }
  | .configChanged config => { s with config := config }
  | .rssChanged sourceId itemRevision =>
    { s with rssItemRevisions := s.rssItemRevisions.insert sourceId itemRevision }
  | .pluginsChanged plugins => { s with plugins := plugins }
  | .componentsChanged components => { s with components := components }
  | .webhooksChanged deliveries => { s with webhookDeliveries := deliveries }
  | .runtimeStatsChanged stats => s.setRuntimeStats stats
  | .selectionPending request => (s.dropSelection request.requestId).addSelection request
  | .selectionResolved requestId => s.dropSelection requestId

def applyEvent (s : AgentSnapshot Dto Own) : AgentEvent Dto Own → AgentSnapshot Dto Own
  | .daemon event => { s with daemon := applyDaemonEvent s.daemon event }
  | .daemonSnapshotReplaced daemon => { s with daemon := daemon }
  | .daemonConnectionChanged connected => { s with daemonConnected := connected }
  | .sessionChanged session => { s with session := session }
  | .syncChanged sync => { s with sync := sync }
  | .preferencesChanged preferences => { s with preferences := preferences }
  | .gatewayChanged gateway => { s with gateway := gateway }
  | .cloudDevicesChanged devices => { s with cloudDevices := devices }
  | .linkedDevicesChanged devices => { s with linkedDevices := devices }
  | .remoteTasksChanged tasks => { s with remoteTasks := tasks }
  | .pendingCapturesChanged captures => { s with pendingCaptures := captures }

def forward (s : AgentSnapshot Dto Own) (es : List (DaemonEvent Dto)) : AgentSnapshot Dto Own :=
  es.foldl (fun s e => applyEvent s (.daemon e)) s

/-! ## Snapshots without statistics -/

def withoutStats (s : DaemonSnapshot Dto) : DaemonSnapshot Dto :=
  s.setRuntimeStats ⟨0,0,0,0,none,""⟩

/-- The snapshots are equal, runtime statistics aside. -/
def Mirrors (agent daemon : DaemonSnapshot Dto) : Prop := withoutStats agent = withoutStats daemon

theorem Mirrors.refl (s : DaemonSnapshot Dto) : Mirrors s s := rfl

variable {a b : DaemonSnapshot Dto}

theorem Mirrors.trans {c : DaemonSnapshot Dto} (h : Mirrors a b) (h' : Mirrors b c) :
    Mirrors a c := Eq.trans h h'

theorem Mirrors.symm (h : Mirrors a b) : Mirrors b a := Eq.symm h

theorem mirrors_setRuntimeStats (s : DaemonSnapshot Dto) (stats : RuntimeStats) :
    Mirrors (s.setRuntimeStats stats) s := rfl

theorem withoutStats_applyDaemonEvent (s : DaemonSnapshot Dto) (e : DaemonEvent Dto) :
    withoutStats (applyDaemonEvent (withoutStats s) e) = withoutStats (applyDaemonEvent s e) := by
  cases e with
  | engine m =>
    cases m with
    | taskProgress m =>
      simp only [applyDaemonEvent, applyEngineMessage]
      split_ifs <;> rfl
    | _ => rfl
  | taskChanged task =>
    have htasks : (withoutStats s).tasks = s.tasks := rfl
    simp only [applyDaemonEvent, DaemonSnapshot.putTask, htasks]
    split_ifs <;> rfl
  | _ => rfl

theorem mirrors_applyDaemonEvent (h : Mirrors a b) (e : DaemonEvent Dto) :
    Mirrors (applyDaemonEvent a e) (applyDaemonEvent b e) := by
  unfold Mirrors at h ⊢
  rw [← withoutStats_applyDaemonEvent a, h, withoutStats_applyDaemonEvent b]

theorem Mirrors.tasks (h : Mirrors a b) : a.tasks = b.tasks := by
  have htasks := congrArg DaemonSnapshot.tasks (show withoutStats a = withoutStats b from h)
  exact htasks

theorem Mirrors.priority (h : Mirrors a b) :
    a.priority = b.priority := by
  have hpriority := congrArg DaemonSnapshot.priority (show withoutStats a = withoutStats b from h)
  exact hpriority

/-! ## The two reducers -/

/-- What the event does to the daemon's tasks and priority that the agent's reducer does not do. -/
def Mirrored (s : DaemonSnapshot Dto) : DaemonEvent Dto → Prop
  | .engine (.fileMissingChanged updates) =>
    (updates.foldl DaemonSnapshot.setFileMissing s).tasks = s.tasks
  | .engine (.priorityTaskChanged priorityTaskId) =>
    (s.setPriority priorityTaskId).priority = s.priority
  | _ => True

theorem foldl_setFileMissing (updates : List (String × Bool)) (s : DaemonSnapshot Dto) :
    updates.foldl DaemonSnapshot.setFileMissing s =
      { s with tasks := (updates.foldl DaemonSnapshot.setFileMissing s).tasks } := by
  induction updates generalizing s with
  | nil => rfl
  | cons u updates ih =>
    rw [foldl_cons, ih]
    rfl

theorem reducers_agree_iff (s : DaemonSnapshot Dto) (e : DaemonEvent Dto) :
    Mirrors (applyDaemonEvent s e) (DaemonProjection.applyEvent s e) ↔ Mirrored s e := by
  cases e with
  | engine m =>
    cases m with
    | fileMissingChanged updates =>
      constructor
      · intro h
        exact h.tasks.symm
      · intro h
        have hfold := foldl_setFileMissing updates s
        rw [show (updates.foldl DaemonSnapshot.setFileMissing s).tasks = s.tasks from h] at hfold
        exact congrArg withoutStats hfold.symm
    | priorityTaskChanged priorityTaskId =>
      constructor
      · intro h
        exact h.priority.symm
      · intro h
        have hset : s.setPriority priorityTaskId = s := by
          cases s
          unfold DaemonSnapshot.setPriority
          congr 1
        exact congrArg withoutStats hset.symm
    | _ => exact ⟨fun _ => trivial,fun _ => rfl⟩
  | _ => exact ⟨fun _ => trivial,fun _ => rfl⟩

theorem mirrors_publish_iff {s : EventState Dto} (h : Mirrors a s.snapshot) (e : DaemonEvent Dto) :
    Mirrors (applyDaemonEvent a e) (s.publish e).snapshot ↔ Mirrored s.snapshot e := by
  obtain ⟨stats,hstats⟩ := publish_snapshot s e
  have hdaemon : Mirrors (s.publish e).snapshot (DaemonProjection.applyEvent s.snapshot e) := by
    rw [hstats]
    exact mirrors_setRuntimeStats _ stats
  have hagent := mirrors_applyDaemonEvent h e
  rw [← reducers_agree_iff]
  exact ⟨fun hm => (hagent.symm.trans hm).trans hdaemon,
    fun hm => (hagent.trans hm).trans hdaemon.symm⟩

/-! ## Runs -/

def publishStep (s : EventState Dto) (e : DaemonEvent Dto) : Option (EventState Dto) :=
  some (s.publish e)

theorem mirrors_run_iff {a : AgentSnapshot Dto Own} {s : EventState Dto}
    (h : Mirrors a.daemon s.snapshot) (es : List (DaemonEvent Dto)) :
    (∀ fs, fs <+: es → Mirrors (forward a fs).daemon (fs.foldl EventState.publish s).snapshot) ↔
      Meets publishStep (fun s e => Mirrored s.snapshot e) s es := by
  induction es generalizing a s with
  | nil =>
    refine ⟨fun _ => trivial,fun _ fs hfs => ?_⟩
    rw [prefix_nil.mp hfs]
    exact h
  | cons e es ih =>
    have hstep := mirrors_publish_iff h e
    rw [meets_cons]
    constructor
    · intro hall
      have hone := hall [e] ⟨es,rfl⟩
      refine ⟨hstep.mp hone,fun t ht => ?_⟩
      cases ht
      refine (ih (a := applyEvent a (.daemon e)) hone).mp (fun fs hfs => ?_)
      exact hall (e :: fs) (cons_prefix_cons.mpr ⟨rfl,hfs⟩)
    · rintro ⟨hcond,hrest⟩ fs hfs
      cases fs with
      | nil => exact h
      | cons f fs =>
        obtain ⟨rfl,hpre⟩ := cons_prefix_cons.mp hfs
        exact (ih (a := applyEvent a (.daemon f)) (hstep.mpr hcond)).mpr (hrest _ rfl) fs hpre

/-- From a common snapshot on, the mirror equals the daemon's projection after every event, if and
only if no file-missing event changes a task and no priority event changes the priority. -/
theorem agent_mirrors_daemon (a : AgentSnapshot Dto Own) (s : EventState Dto)
    (es : List (DaemonEvent Dto)) :
    (∀ fs, fs <+: es →
      Mirrors (forward (applyEvent a (.daemonSnapshotReplaced s.snapshot)) fs).daemon
        (fs.foldl EventState.publish s).snapshot) ↔
      Meets publishStep (fun s e => Mirrored s.snapshot e) s es :=
  mirrors_run_iff (a := applyEvent a (.daemonSnapshotReplaced s.snapshot)) (Mirrors.refl _) es

def sampleSnapshot : DaemonSnapshot (fun _ => Unit) where
  tasks := [⟨"t","u","f","d",3,9,9,"","",false,"",0,0,"",0,()⟩]
  queues := []
  queuePositions := []
  groups := []
  config := ⟨0,∅⟩
  rssSources := []
  rssItemRevisions := ∅
  plugins := []
  components := []
  webhookDeliveries := []
  priority := []
  runtimeStats := ⟨0,0,0,0,none,""⟩
  pendingSelections := []

def sampleAgent : AgentSnapshot (fun _ => Unit) (fun _ => Unit) :=
  ⟨sampleSnapshot,true,(),(),(),(),(),(),(),()⟩

/-- The two events that the agent's reducer ignores. -/
theorem agent_drifts :
    (forward sampleAgent [.engine (.priorityTaskChanged "t")]).daemon.priority ≠
      ((⟨sampleSnapshot,∅,∅⟩ : EventState (fun _ => Unit)).publish
        (.engine (.priorityTaskChanged "t"))).snapshot.priority ∧
    (forward sampleAgent [.engine (.fileMissingChanged [("t", true)])]).daemon.tasks.map
        Task.fileMissing ≠
      ((⟨sampleSnapshot,∅,∅⟩ : EventState (fun _ => Unit)).publish
        (.engine (.fileMissingChanged [("t", true)]))).snapshot.tasks.map Task.fileMissing := by
  decide +kernel

end RinaDown.AgentMirror
