import Mathlib.Data.List.Dedup
import RinaDown.TaskManager
import RinaDown.WaitingList

/-!
# The scheduler of the download manager

The maps of `DownloadManager` that decide which task runs, next to the task rows of the database.
One message of the actor is one step. Downloaders, resolvers, timers and the seeding manager are
steps of the environment, and `Choices` holds what it decides while one message is handled.
Database operations succeed.
-/

namespace RinaDown.DownloadManager
open TaskManager (TaskStatus PendingPause)
open WaitingList

universe u v

variable {T : Type u} {Q : Type v}

inductive UrlKind where
  | http
  | magnet
  | torrentFile
  deriving DecidableEq, Repr

def isMagnet (url : UrlKind) : Bool := url = .magnet

def isTorrentFileUrl (url : UrlKind) : Bool := url = .torrentFile

def isBtUrl (url : UrlKind) : Bool := isMagnet url || isTorrentFileUrl url

inductive ErrorMessage where
  | empty
  | cancelled
  | duplicateTorrent
  | failure
  deriving DecidableEq, Repr

def seedingStatusActive : ℕ := 1

def seedingStatusQueued : ℕ := 8

def seedingUserStopped : ℕ := 4

/-- A row of the table `tasks`; `resolver` tells that it names a resolver plugin. -/
structure TaskInfo (Q : Type v) where
  status : TaskStatus
  errorMessage : ErrorMessage
  url : UrlKind
  queueId : Q
  resolver : Bool
  seedingStatus : ℕ
  downloadedBytes : ℕ
  deriving DecidableEq, Repr

structure ActiveTaskEntry (T : Type u) (Q : Type v) where
  taskId : T
  generation : ℕ
  handle : Bool
  isBt : Bool
  queueId : Q
  deriving DecidableEq, Repr

structure QueuedTask (T : Type u) (Q : Type v) where
  taskId : T
  isResume : Bool
  url : UrlKind
  torrentFileBytes : Bool
  queueId : Q
  resolver : Bool
  resolved : Bool
  deriving DecidableEq, Repr

def QueuedTask.bypassesQueue (q : QueuedTask T Q) : Bool := isMagnet q.url || q.torrentFileBytes

def QueuedTask.useBt (q : QueuedTask T Q) : Bool :=
  isMagnet q.url || q.torrentFileBytes || isTorrentFileUrl q.url

theorem QueuedTask.useBt_of_bypassesQueue {q : QueuedTask T Q} (h : q.bypassesQueue) : q.useBt := by
  rw [QueuedTask.bypassesQueue] at h
  rw [QueuedTask.useBt, h]
  rfl

inductive PendingResolve (T : Type u) (Q : Type v) where
  | start (queued : QueuedTask T Q) (generation : ℕ)
  | resume (generation : ℕ)
  deriving DecidableEq, Repr

def PendingResolve.generation : PendingResolve T Q → ℕ
  | .start _ g => g
  | .resume g => g

/-- What a resolver returns: an error, a URL to put in, or a manifest, with the new tasks for the
items after the first if it has an item at all. -/
inductive ResolveResult (T : Type u) where
  | error
  | ok (url : Option UrlKind)
  | manifest (siblings : Option (List T)) (overThreshold fissionFails : Bool)
  deriving DecidableEq, Repr

/-- One end of Boost: the tasks that it owed a resume, those that it has resumed, those that run only
since then, and those of the first that are still paused. -/
structure Restore (T : Type u) where
  owed : List T
  resumed : List T
  started : List T
  stranded : List T
  deriving DecidableEq, Repr

/-- What the run has done that the manager does not keep. -/
structure History (T : Type u) where
  /-- `set_max_concurrent` went below the number then running, which is still above the limit. -/
  lowered : Bool
  /-- The tasks that Boost has paused and the user has not touched since. -/
  held : List T
  /-- The ends of Boost, newest first. -/
  restores : List (Restore T)
  /-- A change has given a waiting task room, and no `drain_queue` has followed. -/
  undrained : Bool
  /-- A command has ended so. -/
  idled : Bool
  /-- A task was started without a check where the check would have failed. -/
  unchecked : Bool
  /-- A queue was deleted while it had active or waiting tasks. -/
  staleQueue : Bool
  deriving DecidableEq, Repr

structure Manager (T : Type u) (Q : Type v) where
  maxConcurrent : ℕ
  mainQueue : Q
  laterQueue : Q
  /-- The `max_concurrent` of every queue. -/
  queues : Q → Option ℕ
  rows : T → Option (TaskInfo Q)
  activeTasks : List (ActiveTaskEntry T Q)
  pendingQueue : List (QueuedTask T Q)
  pendingPauses : T → Option PendingPause
  pendingResolve : T → Option (PendingResolve T Q)
  retryScheduled : List (T × Q)
  occupiedQueues : List Q
  priorityTaskId : Option T
  autoPausedIds : List T
  generation : ℕ
  /-- Emitted `queue.drained` events, newest first. -/
  drained : List Q
  /-- Downloaders and resolver workers that have not reported. -/
  spawned : List (T × ℕ)
  resolveWorkers : List (T × ℕ)
  /-- Timers whose task will arrive on `retry_rx`, and those that a plugin has asked for. -/
  retryTimers : List T
  pluginTimers : List T
  history : History T

/-- The walks over a hash table, whose order is not determined. -/
inductive HashWalk where
  | boostActive
  | boostStray
  | boostRestore
  | batchActive
  | btActive
  deriving DecidableEq, Repr

/-- What the environment decides while one message is handled: which starts of a torrent fail, by
their generation, the seeding status that a resumed seeder gets, and the order of hash tables. -/
structure Choices (T : Type u) where
  btFails : ℕ → Bool
  reseeded : T → ℕ
  order : HashWalk → List T → List T
  order_perm : ∀ walk ids, (order walk ids).Perm ids

namespace Manager

variable [DecidableEq T] [DecidableEq Q] (m : Manager T Q) (env : Choices T) (t : T)

def activeIds : List T := m.activeTasks.map ActiveTaskEntry.taskId

def queuedIds : List T := m.pendingQueue.map QueuedTask.taskId

def findActive : Option (ActiveTaskEntry T Q) := m.activeTasks.find? (fun e => e.taskId = t)

def queueOf : Option Q := (m.rows t).map TaskInfo.queueId

def httpActive : ℕ := m.activeTasks.countP (fun e => !e.isBt)

def hasCapacity : Bool := m.maxConcurrent = 0 ∨ m.httpActive < m.maxConcurrent

def activeInQueue (q : Q) : ℕ := m.activeTasks.countP (fun e => e.queueId = q)

def hasQueueCapacity (q : Q) : Bool :=
  match m.queues q with
  | none => true
  | some limit => limit = 0 ∨ m.activeInQueue q < limit

def hasRoom (q : Q) : Bool := m.hasCapacity && m.hasQueueCapacity q

/-- A waiting task could start now. -/
def idle : Bool := m.pendingQueue.any (fun q => m.hasRoom q.queueId)

def updateRow (f : TaskInfo Q → TaskInfo Q) : Manager T Q :=
  { m with rows := Function.update m.rows t ((m.rows t).map f) }

def updateTaskStatus (status : TaskStatus) (message : ErrorMessage) : Manager T Q :=
  m.updateRow t (fun row => { row with status := status, errorMessage := message })

def insertRow (row : TaskInfo Q) : Manager T Q :=
  { m with rows := Function.update m.rows t (some row) }

def deleteRow : Manager T Q := { m with rows := Function.update m.rows t none }

def resetRow : Manager T Q :=
  m.updateRow t (fun row =>
    { row with status := .pending, errorMessage := .empty, downloadedBytes := 0 })

def updateSeedingStatus (code : ℕ) : Manager T Q :=
  m.updateRow t (fun row => { row with seedingStatus := code })

def removeActive : Manager T Q :=
  { m with activeTasks := m.activeTasks.filter (fun e => e.taskId ≠ t) }

def insertActive (e : ActiveTaskEntry T Q) : Manager T Q :=
  { m with activeTasks := e :: m.activeTasks.filter (fun d => d.taskId ≠ e.taskId) }

def removeQueued : Manager T Q :=
  { m with pendingQueue := m.pendingQueue.eraseP (fun q => q.taskId = t) }

def pushQueued (q : QueuedTask T Q) : Manager T Q :=
  { m with pendingQueue := m.pendingQueue ++ [q] }

def clearPendingResolve : Manager T Q :=
  { m with pendingResolve := Function.update m.pendingResolve t none }

def setPendingPause (p : Option PendingPause) : Manager T Q :=
  { m with pendingPauses := Function.update m.pendingPauses t p }

def removeRetry : Manager T Q :=
  { m with retryScheduled := m.retryScheduled.filter (fun r => r.1 ≠ t) }

def unpauseAuto : Manager T Q :=
  { m with autoPausedIds := m.autoPausedIds.filter (fun i => i ≠ t) }

def setQueue (pending : List (QueuedTask T Q)) : Manager T Q := { m with pendingQueue := pending }

/-- A change without `drain_queue`; `wanted` tells that it gives a waiting task room. -/
def noteChange (wanted : Bool) : Manager T Q :=
  { m with history := { m.history with undrained := m.history.undrained || wanted } }

def setDrained : Manager T Q := { m with history := { m.history with undrained := false } }

def occupied : List Q :=
  (m.activeTasks.map ActiveTaskEntry.queueId ++ m.pendingQueue.map QueuedTask.queueId ++
    m.retryScheduled.map Prod.snd).dedup

def syncQueueOccupancy : Manager T Q :=
  { m with
    occupiedQueues := m.occupied
    drained := m.occupiedQueues.filter (fun q => q ∉ m.occupied) ++ m.drained }

/-- A start would go wrong: the task also waits, its queue is not the one in the database, or there
is no slot besides the one that it may hold. -/
def startsUnchecked (isBt : Bool) (q : Q) : Bool :=
  t ∈ m.queuedIds ∨ m.queueOf t ≠ some q ∨
    ¬(isBt ∨ m.history.lowered ∨ (m.removeActive t).hasCapacity)

def noteStart (isBt : Bool) (q : Q) : Manager T Q :=
  { m with
    history := { m.history with
      unchecked := m.history.unchecked || m.startsUnchecked t isBt q } }

def takeGeneration : Manager T Q := { m with generation := m.generation + 1 }

def noteSpawn : Manager T Q := { m with spawned := (t, m.generation) :: m.spawned }

def notePendingResolve (pending : PendingResolve T Q) : Manager T Q :=
  { m with
    pendingResolve := Function.update m.pendingResolve t (some pending)
    resolveWorkers := (t, m.generation) :: m.resolveWorkers }

/-- Take the next generation and spawn the downloader, unless its torrent cannot be opened. -/
def spawnDownloader (isBt : Bool) (q : Q) : Manager T Q :=
  let next := m.takeGeneration
  if isBt && env.btFails next.generation then
    (next.removeActive t).updateTaskStatus t .error .failure
  else (next.noteSpawn t).insertActive ⟨t,next.generation,true,isBt,q⟩

def beginResolve (isBt : Bool) (q : Q) (pending : ℕ → PendingResolve T Q) : Manager T Q :=
  let next := m.takeGeneration
  (next.notePendingResolve t (pending next.generation)).insertActive
    ⟨t,next.generation,false,isBt,q⟩

def beginResolveStart (queued : QueuedTask T Q) : Manager T Q :=
  m.beginResolve queued.taskId queued.useBt queued.queueId (PendingResolve.start queued)

def beginResolveResume : Manager T Q :=
  match m.rows t with
  | none => m
  | some row => m.beginResolve t (isBtUrl row.url) row.queueId PendingResolve.resume

def doStartTask (queued : QueuedTask T Q) : Manager T Q :=
  if queued.resolver && !queued.resolved then m.beginResolveStart queued
  else m.spawnDownloader env queued.taskId queued.useBt queued.queueId

/-- `applied` is the outcome of the resolver in a second entry, with the URL it has put in. -/
def doResumeTask (applied : Option (Option UrlKind)) : Manager T Q :=
  match m.rows t with
  | none => m
  | some row =>
    if row.resolver && applied.isNone then m.beginResolveResume t
    else m.spawnDownloader env t (isBtUrl ((applied.getD none).getD row.url)) row.queueId

omit [DecidableEq Q] in
theorem doResumeTask_of_none {applied : Option (Option UrlKind)} (h : m.rows t = none) :
    m.doResumeTask env t applied = m := by
  simp [doResumeTask, h]

omit [DecidableEq Q] in
theorem doResumeTask_of_row {applied : Option (Option UrlKind)} {row : TaskInfo Q}
    (h : m.rows t = some row) :
    m.doResumeTask env t applied =
      if row.resolver && applied.isNone then
        m.beginResolve t (isBtUrl row.url) row.queueId PendingResolve.resume
      else m.spawnDownloader env t (isBtUrl ((applied.getD none).getD row.url)) row.queueId := by
  simp [doResumeTask, beginResolveResume, h]

def startQueued (queued : QueuedTask T Q) : Manager T Q :=
  if queued.isResume then m.doResumeTask env queued.taskId none else m.doStartTask env queued

/-- One turn of the loop of `drain_queue`; the flag of the state is `global_full`, the flag of the
result tells that the task is kept. -/
def drainOffer (s : Manager T Q × Bool) (queued : QueuedTask T Q) : (Manager T Q × Bool) × Bool :=
  if s.2 then (s, true)
  else if !s.1.hasCapacity then ((s.1, true), true)
  else if queued.taskId ∈ s.1.activeIds then (s, false)
  else if !s.1.hasQueueCapacity queued.queueId then (s, true)
  else ((s.1.startQueued env queued, false), false)

def drainQueue : Manager T Q :=
  let r := offerAll (drainOffer env) (m.setQueue [], false) m.pendingQueue
  (r.1.1.setQueue r.2).setDrained

def enqueuePersistedTask (queued : QueuedTask T Q) : Manager T Q :=
  if queued.bypassesQueue || m.hasRoom queued.queueId then
    ((m.doStartTask env queued).drainQueue env).syncQueueOccupancy
  else (m.pushQueued queued).syncQueueOccupancy

def resumeEntry (row : TaskInfo Q) : QueuedTask T Q :=
  ⟨t,true,row.url,false,row.queueId,false,false⟩

/-- `try_resume_seeding`; `none` when the task is no stopped seeder. -/
def tryResumeSeeding (row : TaskInfo Q) : Option (Manager T Q) :=
  if row.status = .completed ∧ 2 ≤ row.seedingStatus ∧ row.seedingStatus ≤ 7 then
    some (m.updateSeedingStatus t (env.reseeded t))
  else none

/-- The end of a resume: start, or join the queue. The flag tells that the task was queued. -/
def admitResume (row : Option (TaskInfo Q)) : Manager T Q × Bool :=
  match row with
  | none => if m.hasCapacity then ((m.doResumeTask env t none).drainQueue env, false) else (m, false)
  | some r =>
    if isBtUrl r.url || m.hasRoom r.queueId then
      ((m.doResumeTask env t none).drainQueue env, false)
    else (m.pushQueued (resumeEntry t r), true)

/-- The part of a resume after the checks of the active entry; `none` when it returns early. -/
def resumeInactive (row : Option (TaskInfo Q)) : Manager T Q × Option Bool :=
  if t ∈ m.queuedIds then (m, none)
  else match row.bind (m.tryResumeSeeding env t) with
    | some reseeded => (reseeded, none)
    | none => ((m.admitResume env t row).1, some (m.admitResume env t row).2)

/-- A waiting task could start if the task gave up its slot. -/
def slotWanted : Bool := (m.removeActive t).idle

/-- Drop an entry that a resume takes for stale, because the row is terminal. -/
def forceRemove : Manager T Q := (m.removeActive t).noteChange (m.slotWanted t)

/-- The common part of `resume_task_inner` and `resume_task_with_row`, with the row they have read;
`none` when it returns early. -/
def resumeWith (row : Option (TaskInfo Q)) : Manager T Q × Option Bool :=
  match m.pendingPauses t with
  | some p => (m.setPendingPause t (some { p with resumeRequested := true }), none)
  | none =>
    if t ∈ m.activeIds then
      if (row.map (fun r => r.status.terminal)).getD false then
        (m.forceRemove t).resumeInactive env t row
      else (m, none)
    else m.resumeInactive env t row

/-- `resume_task_inner`: a task that was queued is pending, unless it is completed. -/
def resumeTaskInner : Manager T Q :=
  let r := (m.removeRetry t).resumeWith env t (m.rows t)
  match r.2 with
  | none => r.1
  | some false => r.1.syncQueueOccupancy
  | some true =>
    (if (m.rows t).map TaskInfo.status = some .completed then r.1
      else r.1.updateTaskStatus t .pending .empty).syncQueueOccupancy

def resumeTask : Manager T Q := m.resumeTaskInner env t

def resumable : Bool := (m.rows t).any (fun row => row.status ≠ .completed)

/-- The task is paused, and nothing will start it. -/
def stranded : Bool :=
  (m.rows t).any (fun row => row.status = .paused) ∧ t ∉ m.activeIds ∧ t ∉ m.queuedIds ∧
    ¬(m.pendingPauses t).any PendingPause.resumeRequested

/-- Boost is over and has resumed nothing yet. -/
def endBoost : Manager T Q :=
  { m with
    priorityTaskId := none
    autoPausedIds := []
    history := { m.history with held := [] } }

def resumeUnlessCompleted : Manager T Q :=
  if (m.rows t).map TaskInfo.status = some .completed then m else m.resumeTask env t

/-- The record of an end of Boost that has led from `m` to `restored`. -/
def noteRestore (restored : Manager T Q) : Manager T Q :=
  { restored with
    history := { restored.history with
      restores :=
        ⟨m.history.held.filter (fun id => m.resumable id),
          m.autoPausedIds.filter (fun id => m.resumable id),
          restored.activeIds.filter (fun id => id ∉ m.activeIds ∧ id ∉ m.queuedIds),
          (m.history.held.filter (fun id => m.resumable id)).filter
            (fun id => restored.stranded id)⟩ :: restored.history.restores } }

/-- Boost is over: resume what it has paused, apart from completed tasks. -/
def clearPriority : Manager T Q :=
  m.noteRestore ((env.order .boostRestore m.autoPausedIds).foldl
    (fun s id => s.resumeUnlessCompleted env id) m.endBoost)

/-- The guard that follows the removal of a task: it may have been the target of Boost. -/
def boostGuard : Manager T Q := if m.priorityTaskId = some t then m.clearPriority env else m

/-- The pause of an active task up to the guard: a real downloader is waited for. -/
def stopActive (e : ActiveTaskEntry T Q) (notify : Bool) : Manager T Q :=
  let removed := m.removeActive t
  let flushing :=
    if e.handle then removed.setPendingPause t (some ⟨e.generation,notify,false⟩) else removed
  (flushing.updateTaskStatus t .paused .empty).drainQueue env

/-- The pause of a completed torrent that is seeding or waits for a seeding slot. -/
def pauseSeeding : Manager T Q :=
  match m.rows t with
  | none => m
  | some row =>
    if row.status = .completed ∧
        (row.seedingStatus = seedingStatusActive ∨ row.seedingStatus = seedingStatusQueued) then
      m.updateSeedingStatus t seedingUserStopped
    else m

def pauseTaskInner (notify : Bool) : Manager T Q :=
  let s := (m.clearPendingResolve t).removeRetry t
  match s.pendingPauses t with
  | some p =>
    (s.setPendingPause t (some { p with notify := p.notify || notify })).syncQueueOccupancy
  | none =>
    if t ∈ s.queuedIds then
      ((s.removeQueued t).updateTaskStatus t .paused .empty).syncQueueOccupancy
    else match s.findActive t with
      | some e => ((s.stopActive env t e notify).boostGuard env t).syncQueueOccupancy
      | none => (s.pauseSeeding t).syncQueueOccupancy

def inFlight (status : TaskStatus) : Bool := status ∈ [.pending, .downloading, .preparing]

def restartTask : Manager T Q :=
  match m.rows t with
  | none => m
  | some row =>
    if isBtUrl row.url then m
    else
      let stopped :=
        if t ∈ m.activeIds ∨ inFlight row.status then m.pauseTaskInner env t false else m
      ((stopped.resetRow t).removeRetry t).resumeTask env t

def setTaskSegments : Manager T Q :=
  match m.rows t with
  | none => m
  | some row =>
    if row.status = .completed then m
    else if t ∈ m.activeIds ∨ row.status = .downloading ∨ row.status = .preparing then
      (m.pauseTaskInner env t false).resumeTask env t
    else m

/-- The user has touched these tasks, so Boost does not answer for them any more. -/
def release (ids : List T) : Manager T Q :=
  { m with history := { m.history with held := m.history.held.filter (fun i => i ∉ ids) } }

def cancelTask : Manager T Q :=
  ((((m.clearPendingResolve t).removeQueued t).removeActive t).updateTaskStatus t .error
    .cancelled).drainQueue env

def deleteTask : Manager T Q :=
  let removed := (((m.removeRetry t).clearPendingResolve t).removeQueued t).removeActive t
  ((((removed.deleteRow t).unpauseAuto t).boostGuard env t).drainQueue env).syncQueueOccupancy

def deleteTasksBatch (ids : List T) : Manager T Q :=
  if ids = [] then m
  else
    let removed :=
      { m with
        pendingQueue := m.pendingQueue.filter (fun q => q.taskId ∉ ids)
        activeTasks := m.activeTasks.filter (fun e => e.taskId ∉ ids)
        rows := fun i => if i ∈ ids then none else m.rows i }
    let cleaned :=
      ids.foldl (fun s id => ((s.unpauseAuto id).removeRetry id).boostGuard env id) removed
    (cleaned.drainQueue env).syncQueueOccupancy

/-- One task of `batch_resume`, with the rows it has loaded; a task that is queued is noted. -/
def batchResumeOne (rows : T → Option (TaskInfo Q)) (s : Manager T Q × List T) (id : T) :
    Manager T Q × List T :=
  match rows id with
  | none => s
  | some row =>
    let r := s.1.resumeWith env id (some row)
    (r.1, if r.2 = some true ∧ row.status ≠ .completed then id :: s.2 else s.2)

def batchResume (ids : List T) : Manager T Q :=
  let r := ids.foldl (batchResumeOne env m.rows) (m, [])
  r.2.foldl (fun s id => s.updateTaskStatus id .pending .empty) r.1

def batchPause (ids seeders : List T) : Manager T Q :=
  let queued := m.queuedIds.filter (fun id => id ∈ ids)
  let withdrawn :=
    queued.foldl (fun s id => (s.clearPendingResolve id).updateTaskStatus id .paused .empty)
      { m with pendingQueue := m.pendingQueue.filter (fun q => q.taskId ∉ ids) }
  let active := (env.order .batchActive withdrawn.activeIds).filter (fun id => id ∈ ids)
  let stopped := active.foldl (fun s id => s.pauseTaskInner env id false) withdrawn
  (seeders.filter (fun id => id ∈ ids)).foldl (fun s id => s.pauseTaskInner env id false) stopped

/-- `finish_pending_pause`; the flag tells that a latched resume is released. -/
def finishPendingPause (g : ℕ) : Manager T Q × Bool :=
  match m.pendingPauses t with
  | none => (m, false)
  | some p =>
    if p.generation ≠ g then (m, false)
    else
      (m.setPendingPause t none,
        !(m.findActive t).any (fun e => e.generation ≠ g) &&
          ((m.rows t).map (fun row => p.resumeRequested &&
            (row.status = .pending ∨ row.status = .paused))).getD false)

/-- What `on_task_done` does with the row of a finished task: a placeholder of a duplicate torrent
is deleted, a failed task may be tried again. -/
def settleRow (retries : Bool) : Manager T Q :=
  match m.rows t with
  | none => m
  | some row =>
    if row.status = .error ∧ row.errorMessage = .duplicateTorrent then
      (m.removeRetry t).deleteRow t
    else if row.status = .error ∧ retries then
      { m.removeRetry t with
        retryScheduled := (t, row.queueId) :: (m.removeRetry t).retryScheduled
        retryTimers := t :: m.retryTimers }
    else m

/-- `on_task_done`; `retries` tells that the task is tried over another route or again. -/
def onTaskDone (g : ℕ) (retries : Bool) : Manager T Q :=
  let isMatched := (m.findActive t).any (fun e => e.generation = g)
  let removed := if isMatched then (m.removeActive t).boostGuard env t else m
  let r := removed.finishPendingPause t g
  let drained := r.1.drainQueue env
  let resumed := if r.2 then drained.resumeTaskInner env t else drained
  (if isMatched then resumed.settleRow t retries else resumed).syncQueueOccupancy

/-- A task of a manifest, which always has the resolver of its mother. -/
def manifestEntry (row : TaskInfo Q) : QueuedTask T Q :=
  ⟨t,false,row.url,false,row.queueId,true,false⟩

/-- A waiting task could start beside this entry. -/
def roomBeside (e : ActiveTaskEntry T Q) : Bool := (m.insertActive e).idle

/-- `begin_resolve_start` of a task of a manifest, which nothing drains after. -/
def startManifestTask (row : TaskInfo Q) : Manager T Q :=
  ((m.noteStart t (isBtUrl row.url) row.queueId).noteChange
    (m.roomBeside ⟨t,0,false,isBtUrl row.url,row.queueId⟩)).beginResolveStart
      (manifestEntry t row)

/-- `fission_into_group`: the mother's status and the rows of its siblings. -/
def fissionIntoGroup (row : TaskInfo Q) (siblings : List T) (status : TaskStatus) : Manager T Q :=
  { m with
    rows := fun id =>
      if id ∈ siblings then some ⟨status,.empty,row.url,row.queueId,true,0,0⟩
      else (m.updateRow t (fun r => { r with status := status })).rows id }

/-- The part of `apply_manifest_fission` for a manifest with more than one item. -/
def fissionSiblings (row : TaskInfo Q) (siblings : List T) (overThreshold fissionFails : Bool) :
    Manager T Q :=
  if fissionFails then (m.updateTaskStatus t .error .failure).drainQueue env
  else if overThreshold then (m.fissionIntoGroup t row siblings .paused).noteChange m.idle
  else
    siblings.foldl (fun s id => s.enqueuePersistedTask env (manifestEntry id row))
      ((m.fissionIntoGroup t row siblings .pending).startManifestTask t row)

/-- `apply_manifest_fission` on the row of the task, whose placeholder is gone. -/
def applyManifestFission (row : TaskInfo Q) (siblings : Option (List T))
    (overThreshold fissionFails : Bool) : Manager T Q :=
  if row.downloadedBytes ≠ 0 then (m.updateTaskStatus t .error .failure).drainQueue env
  else match siblings with
    | none => m.drainQueue env
    | some [] => m.startManifestTask t row
    | some siblings => m.fissionSiblings env t row siblings overThreshold fissionFails

/-- `on_resolve_ready` with the result of the pending resolve. -/
def applyResolve (pending : PendingResolve T Q) (row : TaskInfo Q) :
    ResolveResult T → Manager T Q
  | .error =>
    (((m.updateTaskStatus t .error .failure).clearPendingResolve t).removeActive t).drainQueue env
  | .ok url =>
    match pending with
    | .start queued _ =>
      let resolved := { queued with url := url.getD queued.url, resolved := true }
      (((m.noteStart t resolved.useBt resolved.queueId).clearPendingResolve t).doStartTask env
        resolved).drainQueue env
    | .resume _ =>
      ((((m.noteStart t (isBtUrl (url.getD row.url)) row.queueId).clearPendingResolve
        t).removeActive t).doResumeTask env t (some url)).drainQueue env
  | .manifest siblings overThreshold fissionFails =>
    ((m.clearPendingResolve t).removeActive t).applyManifestFission env t row siblings
      overThreshold fissionFails

/-- An outcome that is not the pending one may only drop a placeholder of its own. -/
def dropOutcome (g : ℕ) : Manager T Q :=
  if (m.findActive t).any (fun e => e.generation = g) then (m.removeActive t).drainQueue env else m

def onResolveReady (g : ℕ) (cancelled : Bool) (result : ResolveResult T) : Manager T Q :=
  match m.pendingResolve t with
  | none => m.dropOutcome env t g
  | some pending =>
    if pending.generation ≠ g then m.dropOutcome env t g
    else if cancelled then (m.release [t]).cancelTask env t
    else match m.rows t with
      | none => ((m.clearPendingResolve t).removeActive t).drainQueue env
      | some row => m.applyResolve env t pending row result

def setMaxConcurrent (max : ℕ) : Manager T Q :=
  ({ m with
    maxConcurrent := max
    history := { m.history with
      lowered := m.history.lowered || (max ≠ 0 && max < m.httpActive) } }).drainQueue env

def setLimit (q : Q) (limit : ℕ) : Manager T Q :=
  { m with queues := Function.update m.queues q (some limit) }

def createQueue (q : Q) (limit : ℕ) : Manager T Q := m.setLimit q limit

/-- A task of the queue waits that could start under the limit. -/
def limitWanted (q : Q) (limit : ℕ) : Bool :=
  m.hasCapacity && (limit = 0 ∨ m.activeInQueue q < limit) &&
    m.pendingQueue.any (fun p => p.queueId = q)

def updateQueue (q : Q) (limit : ℕ) : Manager T Q :=
  match m.queues q with
  | none => m
  | some _ => (m.setLimit q limit).noteChange (m.limitWanted q limit)

/-- `Db::delete_queue` and the queue's entry in memory: its rows go to the main queue. -/
def dropQueue (q : Q) : Manager T Q :=
  { m with
    queues := Function.update m.queues q none
    rows := fun id => (m.rows id).map (fun row =>
      if row.queueId = q then { row with queueId := m.mainQueue } else row) }

def queueInUse (q : Q) : Bool :=
  m.activeTasks.any (fun e => e.queueId = q) || m.pendingQueue.any (fun p => p.queueId = q)

def deleteQueue (q : Q) : Manager T Q :=
  if q = m.mainQueue ∨ q = m.laterQueue then m
  else
    { m.dropQueue q with
      history := { m.history with staleQueue := m.history.staleQueue || m.queueInUse q } }

/-- The task waits and could start in the queue, or one waits elsewhere that could start if the task
left. -/
def moveWanted (q : Q) : Bool :=
  (t ∈ m.queuedIds && m.hasRoom q) ||
    (m.hasCapacity &&
      m.pendingQueue.any (fun p =>
        p.queueId ≠ q && (m.removeActive t).hasQueueCapacity p.queueId))

def requeue (q : Q) : Manager T Q :=
  { m.updateRow t (fun row => { row with queueId := q }) with
    activeTasks := m.activeTasks.map (fun e => if e.taskId = t then { e with queueId := q } else e)
    pendingQueue :=
      m.pendingQueue.map (fun p => if p.taskId = t then { p with queueId := q } else p) }

def moveTaskToQueue (q : Q) : Manager T Q := (m.requeue t q).noteChange (m.moveWanted t q)

def noteAutoPaused : Manager T Q :=
  { m with
    autoPausedIds := t :: (m.unpauseAuto t).autoPausedIds
    history := { m.history with held := t :: m.history.held } }

def autoPause (id : T) : Manager T Q := (m.noteAutoPaused id).pauseTaskInner env id false

/-- Steps 2 to 4 of `set_priority_task`: pause what is active, what waits, and what the freed slots
have started meanwhile. -/
def autoPauseOthers : Manager T Q :=
  let active := (env.order .boostActive m.activeIds).filter (fun id => id ≠ t)
  let first := active.foldl (fun s id => s.autoPause env id) m
  let queued := first.queuedIds.filter (fun id => id ≠ t)
  let second := queued.foldl (fun s id => s.autoPause env id) first
  let stray := (env.order .boostStray second.activeIds).filter
    (fun id => id ≠ t ∧ id ∉ second.autoPausedIds)
  stray.foldl (fun s id => s.autoPause env id) second

/-- Step 5 of `set_priority_task`: a target that was queued starts without a check. -/
def startTarget (wasQueued : Bool) : Manager T Q :=
  if t ∈ m.activeIds then m
  else if wasQueued then
    match m.rows t with
    | none => m.unpauseAuto t
    | some row =>
      ((m.unpauseAuto t).noteStart t (isBtUrl row.url) row.queueId).doResumeTask env t none
  else (m.unpauseAuto t).resumeTask env t

def dropTarget : Manager T Q :=
  { m.unpauseAuto t with
    priorityTaskId := none
    history := { m.history with held := m.history.held.filter (fun i => i ≠ t) } }

def setTarget : Manager T Q := { m with priorityTaskId := some t }

def setPriorityTask (target : Option T) : Manager T Q :=
  match target with
  | none => m.clearPriority env
  | some id =>
    if m.priorityTaskId = some id then m.clearPriority env
    else
      let others := ((m.dropTarget id).removeQueued id).autoPauseOthers env id
      let started := (others.setTarget id).startTarget env id (id ∈ m.queuedIds)
      if id ∈ started.activeIds then started else started.clearPriority env

/-- `invalidate_bt_session` with a session: pause the active torrents, without `drain_queue`. -/
def invalidateBtSession : Manager T Q :=
  let ids := env.order .btActive
    ((m.activeTasks.filter (fun e => e.isBt)).map ActiveTaskEntry.taskId)
  ids.foldl
    (fun s id =>
      if id ∈ s.activeIds then
        (((s.removeActive id).noteChange (s.slotWanted id)).updateTaskStatus id .paused
          .empty).boostGuard env id
      else s) m

/-- `plugin_request_retry`; `accepted` tells that the retry budget is not used up. -/
def pluginRequestRetry (accepted : Bool) : Manager T Q :=
  if accepted ∧ (m.rows t).map TaskInfo.status = some .error then
    { m with pluginTimers := t :: m.pluginTimers }
  else m

def endTimer : Manager T Q :=
  { m with retryTimers := m.retryTimers.erase t, pluginTimers := m.pluginTimers.erase t }

/-- What the actor does with a task on `retry_rx`: `is_task_in_error`, then `resume_task_auto`. -/
def retryFires : Manager T Q :=
  match m.rows t with
  | none => m
  | some row =>
    if row.status = .error ∧ row.errorMessage ≠ .cancelled then m.resumeTaskInner env t else m

end Manager

/-- The fields of `NewTaskSpec` that decide how a task starts. -/
structure NewTaskSpec (Q : Type v) where
  url : UrlKind
  torrentFileBytes : Bool
  queueId : Q
  resolver : Bool
  resolverItem : Bool
  startPaused : Bool
  deriving DecidableEq, Repr

/-- The URL in the database: a task from a torrent file has a placeholder for one. -/
def NewTaskSpec.dbUrl (spec : NewTaskSpec Q) : UrlKind :=
  if spec.torrentFileBytes then .torrentFile else spec.url

/-- An item of a manifest without its resolver fails at once. -/
def NewTaskSpec.rejected (spec : NewTaskSpec Q) : Bool := spec.resolverItem && !spec.resolver

def NewTaskSpec.row (spec : NewTaskSpec Q) : TaskInfo Q :=
  ⟨if spec.rejected then .error else if spec.startPaused then .paused else .pending,
    if spec.rejected then .failure else .empty,spec.dbUrl,spec.queueId,spec.resolver,0,0⟩

def NewTaskSpec.entry (t : T) (spec : NewTaskSpec Q) : QueuedTask T Q :=
  ⟨t,false,spec.dbUrl,spec.torrentFileBytes,spec.queueId,spec.resolver,false⟩

/-- Messages to the actor, and the steps of the environment. -/
inductive Message (T : Type u) (Q : Type v) where
  | createTask (t : T) (spec : NewTaskSpec Q)
  | pauseTask (t : T)
  | resumeTask (t : T)
  | restartTask (t : T)
  | setTaskSegments (t : T)
  | cancelTask (t : T)
  | deleteTask (t : T)
  | deleteTasksBatch (ids : List T)
  | batchResume (ids : List T)
  | batchPause (ids seeders : List T)
  | setPriorityTask (target : Option T)
  | setMaxConcurrent (max : ℕ)
  | createQueue (q : Q) (limit : ℕ)
  | updateQueue (q : Q) (limit : ℕ)
  | deleteQueue (q : Q)
  | moveTaskToQueue (t : T) (q : Q)
  | invalidateBtSession
  | taskDone (t : T) (g : ℕ) (retries : Bool)
  | resolveReady (t : T) (g : ℕ) (cancelled : Bool) (result : ResolveResult T)
  | pluginRequestRetry (t : T) (accepted : Bool)
  | retryFires (t : T)
  | report (t : T) (status : TaskStatus) (message : ErrorMessage) (bytes : ℕ)
  | seeding (t : T) (code : ℕ)

namespace Manager

variable [DecidableEq T] [DecidableEq Q] (m : Manager T Q) (env : Choices T) (t : T)

/-- Nothing mentions the task: a new id is a fresh UUID. -/
def Unused : Prop :=
  m.rows t = none ∧ t ∉ m.activeIds ∧ t ∉ m.queuedIds ∧ m.pendingPauses t = none ∧
    m.pendingResolve t = none ∧ m.priorityTaskId ≠ some t ∧ t ∉ m.autoPausedIds

instance : Decidable (m.Unused t) :=
  inferInstanceAs (Decidable (_ ∧ _ ∧ _ ∧ _ ∧ _ ∧ _ ∧ _))

def createTask (spec : NewTaskSpec Q) : Manager T Q :=
  let created := m.insertRow t spec.row
  if spec.rejected || spec.startPaused then created
  else created.enqueuePersistedTask env (spec.entry t)

def endSpawn (g : ℕ) : Manager T Q := { m with spawned := m.spawned.erase (t, g) }

def endWorker (g : ℕ) : Manager T Q := { m with resolveWorkers := m.resolveWorkers.erase (t, g) }

def newTasks : ResolveResult T → List T
  | .manifest siblings _ _ => siblings.getD []
  | _ => []

/-- The manager handles one message; `none` where the environment cannot send it. -/
def handle : Message T Q → Option (Manager T Q)
  | .createTask t spec => if m.Unused t then some (m.createTask env t spec) else none
  | .pauseTask t => some ((m.release [t]).pauseTaskInner env t true)
  | .resumeTask t => some (m.resumeTask env t)
  | .restartTask t => some (m.restartTask env t)
  | .setTaskSegments t => some (m.setTaskSegments env t)
  | .cancelTask t => some ((m.release [t]).cancelTask env t)
  | .deleteTask t => some ((m.release [t]).deleteTask env t)
  | .deleteTasksBatch ids => some ((m.release ids).deleteTasksBatch env ids)
  | .batchResume ids => some (m.batchResume env ids)
  | .batchPause ids seeders => some ((m.release ids).batchPause env ids seeders)
  | .setPriorityTask target => some (m.setPriorityTask env target)
  | .setMaxConcurrent max => some (m.setMaxConcurrent env max)
  | .createQueue q limit => if m.queues q = none then some (m.createQueue q limit) else none
  | .updateQueue q limit => some (m.updateQueue q limit)
  | .deleteQueue q => some (m.deleteQueue q)
  | .moveTaskToQueue t q => some (m.moveTaskToQueue t q)
  | .invalidateBtSession => some (m.invalidateBtSession env)
  | .taskDone t g retries =>
    if (t, g) ∈ m.spawned then some ((m.endSpawn t g).onTaskDone env t g retries) else none
  | .resolveReady t g cancelled result =>
    if (t, g) ∈ m.resolveWorkers ∧ (newTasks result).Nodup ∧
        ∀ id ∈ newTasks result, m.Unused id ∧ id ≠ t then
      some ((m.endWorker t g).onResolveReady env t g cancelled result)
    else none
  | .pluginRequestRetry t accepted => some (m.pluginRequestRetry t accepted)
  | .retryFires t =>
    if t ∈ m.retryTimers ∨ t ∈ m.pluginTimers then some ((m.endTimer t).retryFires env t) else none
  | .report t status message bytes =>
    if t ∈ m.spawned.map Prod.fst then
      some (m.updateRow t (fun row =>
        { row with status := status, errorMessage := message, downloadedBytes := bytes }))
    else none
  | .seeding t code => some (m.updateSeedingStatus t code)

def settle : Manager T Q :=
  { m with
    history := { m.history with
      lowered := m.history.lowered && (m.maxConcurrent ≠ 0 && m.maxConcurrent < m.httpActive)
      idled := m.history.idled || m.history.undrained
      undrained := false } }

/-- A step that the scheduler gets wrong has been taken. -/
def slipped : Bool := m.history.idled || m.history.unchecked || m.history.staleQueue

end Manager

variable [DecidableEq T] [DecidableEq Q]

/-- One message, with what the environment decides meanwhile. -/
def step (m : Manager T Q) (a : Choices T × Message T Q) : Option (Manager T Q) :=
  (m.handle a.1 a.2).map Manager.settle

/-- The manager at startup, with any rows and queues in the database. -/
structure Initial (m : Manager T Q) : Prop where
  active : m.activeTasks = []
  queue : m.pendingQueue = []
  pauses : ∀ t, m.pendingPauses t = none
  resolves : ∀ t, m.pendingResolve t = none
  retries : m.retryScheduled = []
  occupied : m.occupiedQueues = []
  target : m.priorityTaskId = none
  autoPaused : m.autoPausedIds = []
  spawned : m.spawned = []
  workers : m.resolveWorkers = []
  timers : m.retryTimers = [] ∧ m.pluginTimers = []
  history : m.history = ⟨false,[],[],false,false,false,false⟩

end RinaDown.DownloadManager
