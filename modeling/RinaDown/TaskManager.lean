import RinaDown.LabelledExecutions

/-!
# The manager's view of one task

The maps of `DownloadManager` restricted to one task that is not a torrent, its row in the
database, and the downloaders that were spawned for it. Commands run one after the other in the
actor; a spawned downloader writes statuses and exits on its own, and its `TaskDone` is handled by
a later step. What other tasks contribute is a label.
-/

namespace RinaDown.TaskManager

/-- The status codes 0 to 5 of a task row. -/
inductive TaskStatus where
  | pending
  | downloading
  | paused
  | completed
  | error
  | preparing
  deriving DecidableEq, Repr

def TaskStatus.terminal : TaskStatus → Bool
  | .completed => true
  | .error => true
  | _ => false

def cancelledErrorMessage : String := "cancelled"

structure TaskInfo where
  status : TaskStatus
  errorMessage : String
  deriving DecidableEq, Repr

/-- `handle` is filled in by the spawn; a resolver placeholder has none. -/
structure ActiveTaskEntry where
  generation : ℕ
  handle : Bool
  deriving DecidableEq, Repr

structure PendingPause where
  generation : ℕ
  notify : Bool
  resumeRequested : Bool
  deriving DecidableEq, Repr

structure QueuedTask where
  isResume : Bool
  deriving DecidableEq, Repr

inductive ResolveKind where
  | start
  | resume
  deriving DecidableEq, Repr

structure PendingResolve where
  kind : ResolveKind
  generation : ℕ
  deriving DecidableEq, Repr

inductive ResolveResult where
  | ok
  | error (message : String)
  | cancelled
  deriving DecidableEq, Repr

/-- A spawned downloader. `ended` once it has written its terminal status, after which it writes no
more bytes; `seen` once the manager has handled its `TaskDone` or read that status. -/
structure Spawn where
  generation : ℕ
  cancelled : Bool
  ended : Bool
  exited : Bool
  reported : Bool
  seen : Bool
  deriving DecidableEq, Repr

/-- The downloader may still write the temporary file and the segment rows. -/
def Spawn.Running (sp : Spawn) : Prop := sp.ended = false ∧ sp.exited = false

instance (sp : Spawn) : Decidable sp.Running :=
  inferInstanceAs (Decidable (sp.ended = false ∧ sp.exited = false))

structure Manager where
  generation : ℕ
  activeTask : Option ActiveTaskEntry
  pendingPause : Option PendingPause
  queued : Option QueuedTask
  pendingResolve : Option PendingResolve
  row : Option TaskInfo
  resolver : Bool
  /-- Generations of the resolver workers whose outcome has not arrived. -/
  resolveWorkers : List ℕ
  /-- Newest first. -/
  spawns : List Spawn
  deriving DecidableEq, Repr

namespace Manager

def updateSpawn (m : Manager) (g : ℕ) (f : Spawn → Spawn) : Manager :=
  { m with spawns := m.spawns.map (fun sp => if sp.generation = g then f sp else sp) }

def updateTaskStatus (m : Manager) (status : TaskStatus) (message : String) : Manager :=
  { m with row := m.row.map (fun _ => ⟨status,message⟩) }

def cancelToken (m : Manager) (g : ℕ) : Manager :=
  m.updateSpawn g (fun sp => { sp with cancelled := true })

def spawnDownloader (m : Manager) : Manager :=
  { m with
    generation := m.generation + 1
    activeTask := some ⟨m.generation + 1,true⟩
    spawns := ⟨m.generation + 1,false,false,false,false,false⟩ :: m.spawns }

def beginResolve (m : Manager) (kind : ResolveKind) : Manager :=
  { m with
    generation := m.generation + 1
    activeTask := some ⟨m.generation + 1,false⟩
    pendingResolve := some ⟨kind,m.generation + 1⟩
    resolveWorkers := (m.generation + 1) :: m.resolveWorkers }

/-- `do_start_task`; `resolved` is the flag of the queue entry. -/
def doStartTask (m : Manager) (resolved : Bool) : Manager :=
  if m.resolver && !resolved then m.beginResolve .start else m.spawnDownloader

/-- `do_resume_task`; `applied` tells a re-entry with the outcome of the resolver. -/
def doResumeTask (m : Manager) (applied : Bool) : Manager :=
  match m.row with
  | none => m
  | some _ => if m.resolver && !applied then m.beginResolve .resume else m.spawnDownloader

def clearPendingResolve (m : Manager) : Manager := { m with pendingResolve := none }

def removeQueued (m : Manager) : Manager := { m with queued := none }

def pushQueued (m : Manager) (q : QueuedTask) : Manager := { m with queued := some q }

def removeActive (m : Manager) : Manager := { m with activeTask := none }

/-- The pause of an active task: a real downloader is waited for. -/
def pauseActive (m : Manager) (e : ActiveTaskEntry) (notify : Bool) : Manager :=
  { (m.cancelToken e.generation).removeActive with
    pendingPause := if e.handle then some ⟨e.generation,notify,false⟩ else m.pendingPause }

def pauseTaskInner (m : Manager) (notify : Bool) : Manager :=
  match m.pendingPause with
  | some p =>
    { m.clearPendingResolve with pendingPause := some { p with notify := p.notify || notify } }
  | none =>
    match m.queued with
    | some _ => m.clearPendingResolve.removeQueued.updateTaskStatus .paused ""
    | none =>
      match m.activeTask with
      | none => m.clearPendingResolve
      | some e => (m.clearPendingResolve.pauseActive e notify).updateTaskStatus .paused ""

/-- Remove an entry that a resume takes for stale, because the row is terminal. -/
def forceRemove (m : Manager) (g : ℕ) : Manager :=
  (m.updateSpawn g (fun sp => { sp with seen := sp.seen || sp.ended })).removeActive

/-- The part of a resume after the checks of the active entry: start, or join the queue. The flag
tells that the task was queued. -/
def resumeInactive (m : Manager) (capacity : Bool) : Manager × Bool :=
  match m.queued with
  | some _ => (m, false)
  | none =>
    if capacity then (m.doResumeTask false, false)
    else match m.row with
      | none => (m, false)
      | some _ => (m.pushQueued ⟨true⟩, true)

/-- `resume_task_inner` and `resume_task_with_row` up to the status of a task that was queued; `row`
is what they have read. -/
def resumeWith (m : Manager) (row : Option TaskInfo) (capacity : Bool) : Manager × Bool :=
  match m.pendingPause with
  | some p => ({ m with pendingPause := some { p with resumeRequested := true } }, false)
  | none =>
    match m.activeTask with
    | none => m.resumeInactive capacity
    | some e =>
      if (row.map (fun t => t.status.terminal)).getD false then
        (m.forceRemove e.generation).resumeInactive capacity
      else (m, false)

/-- A task that was queued is `pending` in the database, unless it is completed. -/
def persistPending (m : Manager) (row : Option TaskInfo) : Manager :=
  if row.map TaskInfo.status = some .completed then m else m.updateTaskStatus .pending ""

def resumeTaskInner (m : Manager) (capacity : Bool) : Manager :=
  let r := m.resumeWith m.row capacity
  if r.2 then r.1.persistPending m.row else r.1

def cancelActive (m : Manager) : Manager :=
  match m.activeTask with
  | none => m
  | some e => (m.cancelToken e.generation).removeActive

def cancelTask (m : Manager) : Manager :=
  m.clearPendingResolve.removeQueued.cancelActive.updateTaskStatus .error cancelledErrorMessage

def restartTask (m : Manager) (capacity : Bool) : Manager :=
  match m.row with
  | none => m
  | some t =>
    let wasActive := m.activeTask.isSome || t.status ∈ [.pending, .downloading, .preparing]
    let stopped := if wasActive then m.pauseTaskInner false else m
    (stopped.updateTaskStatus .pending "").resumeTaskInner capacity

def setTaskSegments (m : Manager) (capacity : Bool) : Manager :=
  match m.row with
  | none => m
  | some t =>
    if t.status = .completed then m
    else if m.activeTask.isSome || t.status ∈ [.downloading, .preparing] then
      (m.pauseTaskInner false).resumeTaskInner capacity
    else m

/-- `set_priority_task` on this task, after the other tasks were paused. -/
def setPriorityTask (m : Manager) (capacity : Bool) : Manager :=
  if m.activeTask.isSome then m.removeQueued
  else if m.queued.isSome then m.removeQueued.doResumeTask false
  else m.resumeTaskInner capacity

/-- One step of the actor's retry timer: `is_task_in_error`, then `resume_task_auto`. -/
def autoRetry (m : Manager) (capacity : Bool) : Manager :=
  match m.row with
  | none => m
  | some t =>
    if t.status = .error ∧ t.errorMessage ≠ cancelledErrorMessage then m.resumeTaskInner capacity
    else m

def batchPause (m : Manager) : Manager :=
  let waiting :=
    if m.queued.isSome then m.removeQueued.clearPendingResolve.updateTaskStatus .paused "" else m
  if m.activeTask.isSome then waiting.pauseTaskInner false else waiting

def deleteTask (m : Manager) : Manager :=
  { m.clearPendingResolve.removeQueued.cancelActive with row := none }

/-- This task's turn in `drain_queue`, where the global limit leaves room. -/
def drainQueue (m : Manager) (queueCapacity : Bool) : Manager :=
  match m.queued with
  | none => m
  | some q =>
    if m.activeTask.isSome then m.removeQueued
    else if queueCapacity then
      if q.isResume then m.removeQueued.doResumeTask false else m.removeQueued.doStartTask false
    else m

/-- `batch_resume` with the row it has loaded for this task; other tasks of the batch may drain the
queue before the pending status is persisted. -/
def batchResume (m : Manager) (snapshot : TaskInfo) (capacity drained : Bool) : Manager :=
  let r := m.resumeWith (some snapshot) capacity
  if r.2 then
    (if drained then r.1.drainQueue true else r.1).persistPending (some snapshot)
  else r.1

/-- `active_tasks.remove` where the generation matches. -/
def removeMatching (m : Manager) (g : ℕ) : Manager :=
  if m.activeTask.any (fun e => e.generation = g) then m.removeActive else m

/-- `finish_pending_pause`: whether a latched resume is released. -/
def finishPendingPause (m : Manager) (g : ℕ) : Manager × Bool :=
  match m.pendingPause with
  | none => (m, false)
  | some p =>
    if p.generation ≠ g then (m, false)
    else ({ m with pendingPause := none },
      !m.activeTask.any (fun e => e.generation ≠ g) &&
        (m.row.map (fun t => p.resumeRequested && t.status ∈ [.pending, .paused])).getD false)

/-- `on_task_done`; the queue is drained by a step of its own. -/
def onTaskDone (m : Manager) (g : ℕ) (capacity : Bool) : Manager :=
  let r := (m.removeMatching g).finishPendingPause g
  if r.2 then r.1.resumeTaskInner capacity else r.1

/-- `on_resolve_ready` for an outcome without a manifest. -/
def onResolveReady (m : Manager) (g : ℕ) (result : ResolveResult) : Manager :=
  match m.pendingResolve with
  | none => m.removeMatching g
  | some pr =>
    if pr.generation ≠ g then m.removeMatching g
    else match result with
      | .cancelled => m.cancelTask
      | .ok =>
        if m.row = none then m.clearPendingResolve.removeActive
        else match pr.kind with
          | .start => m.clearPendingResolve.doStartTask true
          | .resume => m.clearPendingResolve.removeActive.doResumeTask true
      | .error message => (m.updateTaskStatus .error message).clearPendingResolve.removeActive

/-- `create_task`: the row, then a start, a place in the queue or a paused task. -/
def createTask (m : Manager) (resolver startPaused capacity : Bool) : Manager :=
  let status := if startPaused then TaskStatus.paused else .pending
  let created := { m with resolver := resolver, row := some ⟨status,""⟩ }
  if startPaused then created
  else if capacity then created.doStartTask false
  else created.pushQueued ⟨false⟩

end Manager

inductive Label where
  | createTask (resolver startPaused capacity : Bool)
  | pauseTask (notify : Bool)
  | resumeTask (capacity : Bool)
  | cancelTask
  | restartTask (capacity : Bool)
  | setTaskSegments (capacity : Bool)
  | setPriorityTask (capacity : Bool)
  | autoRetry (capacity : Bool)
  | batchPause
  | batchResume (snapshot : TaskInfo) (capacity drained : Bool)
  | deleteTask
  | drainQueue (queueCapacity : Bool)
  | onTaskDone (g : ℕ) (capacity : Bool)
  | onResolveReady (g : ℕ) (result : ResolveResult)
  | spawnPreparing (g : ℕ)
  | spawnDownloading (g : ℕ)
  | spawnEnds (g : ℕ) (completed : Bool) (message : String)
  | spawnExits (g : ℕ)
  deriving DecidableEq, Repr

/-- The terminal status of a downloader. -/
def endStatus (completed : Bool) (message : String) : TaskInfo :=
  if completed then ⟨.completed,""⟩ else ⟨.error,message⟩

/-- A downloader acts at one of its control points. -/
def spawnStep (m : Manager) (g : ℕ) (enabled : Spawn → Prop) [DecidablePred enabled]
    (f : Manager → Manager) : Option Manager :=
  if ∃ sp ∈ m.spawns, sp.generation = g ∧ enabled sp then some (f m) else none

def step (m : Manager) : Label → Option Manager
  | .createTask resolver startPaused capacity =>
    if m.row = none ∧ m.spawns = [] ∧ m.activeTask = none ∧ m.pendingPause = none then
      some (m.createTask resolver startPaused capacity)
    else none
  | .pauseTask notify => some (m.pauseTaskInner notify)
  | .resumeTask capacity => some (m.resumeTaskInner capacity)
  | .cancelTask => some m.cancelTask
  | .restartTask capacity => some (m.restartTask capacity)
  | .setTaskSegments capacity => some (m.setTaskSegments capacity)
  | .setPriorityTask capacity => some (m.setPriorityTask capacity)
  | .autoRetry capacity => some (m.autoRetry capacity)
  | .batchPause => some m.batchPause
  | .batchResume snapshot capacity drained =>
    if m.row = none then none else some (m.batchResume snapshot capacity drained)
  | .deleteTask => some m.deleteTask
  | .drainQueue queueCapacity => some (m.drainQueue queueCapacity)
  | .onTaskDone g capacity =>
    spawnStep m g (fun sp => sp.exited = true ∧ sp.reported = false) (fun m =>
      (m.updateSpawn g (fun sp => { sp with reported := true, seen := true })).onTaskDone g
        capacity)
  | .onResolveReady g result =>
    if g ∈ m.resolveWorkers then
      some ({ m with resolveWorkers := m.resolveWorkers.erase g }.onResolveReady g result)
    else none
  | .spawnPreparing g =>
    spawnStep m g Spawn.Running (fun m => m.updateTaskStatus .preparing "")
  | .spawnDownloading g =>
    spawnStep m g Spawn.Running (fun m => m.updateTaskStatus .downloading "")
  | .spawnEnds g completed message =>
    spawnStep m g Spawn.Running (fun m =>
      { m.updateSpawn g (fun sp => { sp with ended := true }) with
        row := m.row.map (fun _ => endStatus completed message) })
  | .spawnExits g =>
    spawnStep m g (fun sp => sp.exited = false ∧ (sp.ended = true ∨ sp.cancelled = true))
      (fun m => m.updateSpawn g (fun sp => { sp with exited := true }))

/-- A task at startup: unknown, or loaded from a row that startup has made idle. -/
structure Initial (m : Manager) : Prop where
  active : m.activeTask = none
  pause : m.pendingPause = none
  queue : m.queued = none
  resolve : m.pendingResolve = none
  workers : m.resolveWorkers = []
  spawns : m.spawns = []
  idle : ∀ t, m.row = some t → t.status = .paused ∨ t.status.terminal = true

theorem spawnStep_eq_some {m t : Manager} {g : ℕ} {enabled : Spawn → Prop}
    [DecidablePred enabled] {f : Manager → Manager} :
    spawnStep m g enabled f = some t ↔
      (∃ sp ∈ m.spawns, sp.generation = g ∧ enabled sp) ∧ f m = t := by
  unfold spawnStep
  split_ifs with h
  · simp [h]
  · simp [h]

namespace Manager

variable (m : Manager) (g : ℕ) (f : Spawn → Spawn) (status : TaskStatus) (message : String)

@[simp] theorem updateSpawn_row : (m.updateSpawn g f).row = m.row := rfl
@[simp] theorem updateSpawn_activeTask : (m.updateSpawn g f).activeTask = m.activeTask := rfl
@[simp] theorem updateSpawn_pendingPause : (m.updateSpawn g f).pendingPause = m.pendingPause := rfl
@[simp] theorem updateSpawn_queued : (m.updateSpawn g f).queued = m.queued := rfl
@[simp] theorem updateSpawn_pendingResolve :
    (m.updateSpawn g f).pendingResolve = m.pendingResolve := rfl
@[simp] theorem updateSpawn_resolver : (m.updateSpawn g f).resolver = m.resolver := rfl

@[simp] theorem updateTaskStatus_spawns : (m.updateTaskStatus status message).spawns = m.spawns := rfl
@[simp] theorem updateTaskStatus_activeTask :
    (m.updateTaskStatus status message).activeTask = m.activeTask := rfl
@[simp] theorem updateTaskStatus_pendingPause :
    (m.updateTaskStatus status message).pendingPause = m.pendingPause := rfl
@[simp] theorem updateTaskStatus_queued :
    (m.updateTaskStatus status message).queued = m.queued := rfl
@[simp] theorem updateTaskStatus_pendingResolve :
    (m.updateTaskStatus status message).pendingResolve = m.pendingResolve := rfl

@[simp] theorem updateTaskStatus_row_eq_none :
    (m.updateTaskStatus status message).row = none ↔ m.row = none := by
  simp [updateTaskStatus]

variable {m g f}

theorem mem_updateSpawn {sp : Spawn} :
    sp ∈ (m.updateSpawn g f).spawns ↔
      ∃ old ∈ m.spawns, (if old.generation = g then f old else old) = sp := List.mem_map

variable (m)

/-- What a pause does: note a notification, leave the queue, stop the active task, or nothing. -/
theorem pauseTaskInner_cases (notify : Bool) :
    (∃ p, m.pendingPause = some p ∧ m.pauseTaskInner notify =
      { m.clearPendingResolve with pendingPause := some { p with notify := p.notify || notify } }) ∨
    (m.pendingPause = none ∧ m.queued ≠ none ∧ m.pauseTaskInner notify =
      m.clearPendingResolve.removeQueued.updateTaskStatus .paused "") ∨
    (m.pendingPause = none ∧ m.queued = none ∧ m.activeTask = none ∧
      m.pauseTaskInner notify = m.clearPendingResolve) ∨
    (m.pendingPause = none ∧ m.queued = none ∧ ∃ e, m.activeTask = some e ∧
      m.pauseTaskInner notify =
        (m.clearPendingResolve.pauseActive e notify).updateTaskStatus .paused "") := by
  unfold pauseTaskInner
  cases hp : m.pendingPause with
  | some p => exact .inl ⟨p,rfl,rfl⟩
  | none =>
    cases hq : m.queued with
    | some q => exact .inr (.inl ⟨rfl,by simp,rfl⟩)
    | none =>
      cases he : m.activeTask with
      | none => exact .inr (.inr (.inl ⟨rfl,rfl,rfl,rfl⟩))
      | some e => exact .inr (.inr (.inr ⟨rfl,rfl,e,rfl,rfl⟩))

@[simp] theorem pauseTaskInner_row_eq_none (notify : Bool) :
    (m.pauseTaskInner notify).row = none ↔ m.row = none := by
  rcases m.pauseTaskInner_cases notify with
    ⟨p,hp,heq⟩ | ⟨hp,hq,heq⟩ | ⟨hp,hq,he,heq⟩ | ⟨hp,hq,e,he,heq⟩ <;> rw [heq]
  · rfl
  · exact updateTaskStatus_row_eq_none ..
  · rfl
  · exact updateTaskStatus_row_eq_none ..

/-! ### The row of the task -/

@[simp] theorem doStartTask_row (resolved : Bool) : (m.doStartTask resolved).row = m.row := by
  unfold doStartTask
  split_ifs <;> rfl

@[simp] theorem doResumeTask_row (applied : Bool) : (m.doResumeTask applied).row = m.row := by
  unfold doResumeTask
  cases hrow : m.row with
  | none => exact hrow
  | some row => split_ifs <;> exact hrow

@[simp] theorem resumeInactive_row (capacity : Bool) :
    (m.resumeInactive capacity).1.row = m.row := by
  unfold resumeInactive
  cases hq : m.queued with
  | some q => rfl
  | none =>
    cases capacity with
    | true => exact m.doResumeTask_row false
    | false => cases hrow : m.row <;> exact hrow

@[simp] theorem resumeWith_row (row : Option TaskInfo) (capacity : Bool) :
    (m.resumeWith row capacity).1.row = m.row := by
  unfold resumeWith
  cases hp : m.pendingPause with
  | some p => rfl
  | none =>
    cases he : m.activeTask with
    | none => exact m.resumeInactive_row capacity
    | some e =>
      simp only
      split_ifs
      · exact (m.forceRemove e.generation).resumeInactive_row capacity
      · rfl

@[simp] theorem drainQueue_row (queueCapacity : Bool) :
    (m.drainQueue queueCapacity).row = m.row := by
  unfold drainQueue
  cases hq : m.queued with
  | none => rfl
  | some q =>
    simp only
    split_ifs
    · rfl
    · exact m.removeQueued.doResumeTask_row false
    · exact m.removeQueued.doStartTask_row false
    · rfl

@[simp] theorem cancelActive_row : m.cancelActive.row = m.row := by
  unfold cancelActive
  cases m.activeTask <;> rfl

@[simp] theorem removeMatching_row : (m.removeMatching g).row = m.row := by
  unfold removeMatching
  split_ifs <;> rfl

@[simp] theorem finishPendingPause_row : (m.finishPendingPause g).1.row = m.row := by
  unfold finishPendingPause
  cases m.pendingPause with
  | none => rfl
  | some p =>
    simp only
    split_ifs <;> rfl

@[simp] theorem persistPending_row_eq_none (row : Option TaskInfo) :
    (m.persistPending row).row = none ↔ m.row = none := by
  unfold persistPending
  split_ifs
  · rfl
  · exact updateTaskStatus_row_eq_none ..

@[simp] theorem resumeTaskInner_row_eq_none (capacity : Bool) :
    (m.resumeTaskInner capacity).row = none ↔ m.row = none := by
  unfold resumeTaskInner
  simp only
  split_ifs <;> simp

@[simp] theorem cancelTask_row_eq_none : m.cancelTask.row = none ↔ m.row = none := by
  unfold cancelTask
  simp [clearPendingResolve, removeQueued]

@[simp] theorem restartTask_row_eq_none (capacity : Bool) :
    (m.restartTask capacity).row = none ↔ m.row = none := by
  unfold restartTask
  cases hrow : m.row with
  | none => simp [hrow]
  | some row =>
    simp only
    split_ifs <;> simp [hrow]

@[simp] theorem setTaskSegments_row_eq_none (capacity : Bool) :
    (m.setTaskSegments capacity).row = none ↔ m.row = none := by
  unfold setTaskSegments
  cases hrow : m.row with
  | none => simp [hrow]
  | some row =>
    simp only
    split_ifs <;> simp [hrow]

@[simp] theorem setPriorityTask_row_eq_none (capacity : Bool) :
    (m.setPriorityTask capacity).row = none ↔ m.row = none := by
  unfold setPriorityTask
  split_ifs <;> simp [removeQueued]

@[simp] theorem autoRetry_row_eq_none (capacity : Bool) :
    (m.autoRetry capacity).row = none ↔ m.row = none := by
  unfold autoRetry
  cases hrow : m.row with
  | none => simp [hrow]
  | some row =>
    simp only
    split_ifs <;> simp [hrow]

@[simp] theorem batchPause_row_eq_none : m.batchPause.row = none ↔ m.row = none := by
  unfold batchPause
  simp only
  split_ifs <;> simp [removeQueued, clearPendingResolve]

@[simp] theorem batchResume_row_eq_none (snapshot : TaskInfo) (capacity drained : Bool) :
    (m.batchResume snapshot capacity drained).row = none ↔ m.row = none := by
  unfold batchResume
  simp only
  split_ifs <;> simp

@[simp] theorem onTaskDone_row_eq_none (capacity : Bool) :
    (m.onTaskDone g capacity).row = none ↔ m.row = none := by
  unfold onTaskDone
  simp only
  split_ifs <;> simp

@[simp] theorem onResolveReady_row_eq_none (result : ResolveResult) :
    (m.onResolveReady g result).row = none ↔ m.row = none := by
  unfold onResolveReady
  cases m.pendingResolve with
  | none => simp
  | some pr =>
    by_cases hgen : pr.generation ≠ g
    · simp [hgen]
    · simp only [if_neg hgen]
      cases result with
      | ok =>
        simp only
        split_ifs with hrow
        · simp [removeActive, clearPendingResolve]
        · cases pr.kind <;> simp [removeActive, clearPendingResolve]
      | error message => simp [removeActive, clearPendingResolve]
      | cancelled => simp

theorem createTask_row_ne_none (resolver startPaused capacity : Bool) :
    (m.createTask resolver startPaused capacity).row ≠ none := by
  unfold createTask
  simp only
  split_ifs <;> simp [pushQueued]

end Manager

theorem row_ne_none_step {m t : Manager} {a : Label} (hrow : m.row ≠ none)
    (hdelete : a ≠ .deleteTask) (hstep : step m a = some t) : t.row ≠ none := by
  cases a with
  | createTask resolver startPaused capacity =>
    simp only [step] at hstep
    split_ifs at hstep
    cases hstep
    exact m.createTask_row_ne_none resolver startPaused capacity
  | deleteTask => exact absurd rfl hdelete
  | batchResume snapshot capacity drained | onResolveReady g result =>
    simp only [step] at hstep
    split_ifs at hstep
    cases hstep
    simpa using hrow
  | onTaskDone g capacity | spawnPreparing g | spawnDownloading g | spawnEnds g completed message =>
    simp only [step, spawnStep_eq_some] at hstep
    obtain ⟨-,rfl⟩ := hstep
    simpa using hrow
  | spawnExits g =>
    simp only [step, spawnStep_eq_some] at hstep
    obtain ⟨-,rfl⟩ := hstep
    exact hrow
  | pauseTask notify | resumeTask capacity | cancelTask | restartTask capacity
  | setTaskSegments capacity | setPriorityTask capacity | autoRetry capacity | batchPause
  | drainQueue queueCapacity => cases hstep; simpa using hrow

end RinaDown.TaskManager
