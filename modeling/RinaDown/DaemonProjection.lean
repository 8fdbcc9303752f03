import Mathlib.Algebra.Order.BigOperators.Group.List
import RinaDown.Texts

/-!
# The daemon's projection

The snapshot that the daemon holds of its own state, the events that change it,
and the reducer that applies an event. Records that the reducer only copies are
opaque: `Dto kind` is the type of the records, or of the rest of a record, of
that kind.
-/

namespace RinaDown.DaemonProjection
open Std (TreeMap)

inductive DtoKind where
  | task
  | queue
  | queuePosition
  | group
  | rssSource
  | plugin
  | component
  | webhookDelivery
  | selection
  deriving DecidableEq, Repr

structure Task (Dto : DtoKind → Type) where
  taskId : String
  url : String
  fileName : String
  saveDir : String
  status : ℤ
  downloadedBytes : ℤ
  totalBytes : ℤ
  errorMessage : String
  queueId : String
  fileMissing : Bool
  autoRoute : String
  uploadedBytes : ℤ
  seedingStatus : ℤ
  seedingMessage : String
  seedingTimeSecs : ℤ
  rest : Dto .task

structure Plugin (Dto : DtoKind → Type) where
  identity : String
  enabled : Bool
  disabledReason : String
  rest : Dto .plugin

structure SelectionRequest (Dto : DtoKind → Type) where
  requestId : String
  rest : Dto .selection

structure ConfigSnapshot where
  revision : ℕ
  values : TreeMap String String

structure RuntimeStats where
  activeTasks : ℕ
  pendingTasks : ℕ
  totalDownloadBps : ℤ
  totalUploadBps : ℤ
  diskFreeBytes : Option ℕ
  saveDir : String
  deriving DecidableEq, Repr

structure DaemonSnapshot (Dto : DtoKind → Type) where
  tasks : List (Task Dto)
  queues : List (Dto .queue)
  queuePositions : List (Dto .queuePosition)
  groups : List (Dto .group)
  config : ConfigSnapshot
  rssSources : List (Dto .rssSource)
  rssItemRevisions : TreeMap String ℕ
  plugins : List (Plugin Dto)
  components : List (Dto .component)
  webhookDeliveries : List (Dto .webhookDelivery)
  priority : List String
  runtimeStats : RuntimeStats
  pendingSelections : List (SelectionRequest Dto)

structure Progress where
  taskId : String
  status : ℤ
  downloadedBytes : ℤ
  totalBytes : ℤ
  speed : ℤ
  uploadSpeed : ℤ
  fileName : String
  saveDir : String
  url : String
  errorMessage : String
  uploadedBytes : ℤ
  seedingStatus : ℤ
  seedingMessage : String
  seedingTimeSecs : ℤ
  deriving DecidableEq, Repr

/-- The engine's messages; the last group changes no projection. -/
inductive EngineMessage (Dto : DtoKind → Type) where
  | taskProgress (progress : Progress)
  | tasksSnapshot (tasks : List (Task Dto))
  | taskMetaProbed (taskId fileName : String) (totalBytes : ℤ)
  | taskQueueChanged (taskId queueId : String)
  | taskRouteChanged (taskId route : String)
  | queuesChanged (queues : List (Dto .queue))
  | queuePositionsChanged (positions : List (Dto .queuePosition))
  | groupsChanged (groups : List (Dto .group))
  | rssSourcesChanged (sources : List (Dto .rssSource))
  | rssItemsChanged (sourceId : String)
  | webhookDeliveriesChanged (deliveries : List (Dto .webhookDelivery))
  | fileMissingChanged (updates : List (String × Bool))
  | priorityTaskChanged (priorityTaskId : String)
  | pluginAutoDisabled (identity reason : String)
  | segmentProgress
  | segmentSplit
  | taskCdnEvent
  | hlsSelectionRequest
  | btSelectionRequest
  | resolveVariantRequest
  | pong
  | duplicateTorrent
  | pluginHookActivity
  | pluginsChanged
  | rssFeedValidated
  | componentProgress
  | componentResult
  | linkIncomingPairing
  | linkDevicesChanged

inductive DaemonEvent (Dto : DtoKind → Type) where
  | snapshotReplaced (snapshot : DaemonSnapshot Dto)
  | engine (message : EngineMessage Dto)
  | taskChanged (task : Task Dto)
  | taskDeleted (taskId : String)
  | queuesChanged (queues : List (Dto .queue))
  | groupsChanged (groups : List (Dto .group))
  | configChanged (config : ConfigSnapshot)
  | rssChanged (sourceId : String) (itemRevision : ℕ)
  | pluginsChanged (plugins : List (Plugin Dto))
  | componentsChanged (components : List (Dto .component))
  | webhooksChanged (deliveries : List (Dto .webhookDelivery))
  | runtimeStatsChanged (stats : RuntimeStats)
  | selectionPending (request : SelectionRequest Dto)
  | selectionResolved (requestId : String)

variable {Dto : DtoKind → Type}

/-! ## Updates -/

def modifyFirst {α : Type} (p : α → Bool) (f : α → α) : List α → List α
  | [] => []
  | a :: l => if p a then f a :: l else a :: modifyFirst p f l

def orKeep (old new : String) : String := if new = "" then old else new

def Task.progress (m : Progress) (t : Task Dto) : Task Dto :=
  { t with
    status := m.status
    downloadedBytes := m.downloadedBytes
    totalBytes := m.totalBytes
    fileName := orKeep t.fileName m.fileName
    saveDir := orKeep t.saveDir m.saveDir
    url := orKeep t.url m.url
    errorMessage := m.errorMessage
    uploadedBytes := m.uploadedBytes
    seedingStatus := m.seedingStatus
    seedingMessage := m.seedingMessage
    seedingTimeSecs := m.seedingTimeSecs }

def Task.metaProbed (fileName : String) (totalBytes : ℤ) (t : Task Dto) : Task Dto :=
  { t with fileName := orKeep t.fileName fileName, totalBytes := totalBytes }

def Plugin.autoDisable (reason : String) (p : Plugin Dto) : Plugin Dto :=
  { p with enabled := false, disabledReason := reason }

namespace DaemonSnapshot

def modifyTask (s : DaemonSnapshot Dto) (taskId : String) (f : Task Dto → Task Dto) :
    DaemonSnapshot Dto :=
  { s with tasks := modifyFirst (fun t => t.taskId = taskId) f s.tasks }

def removeTask (s : DaemonSnapshot Dto) (taskId : String) : DaemonSnapshot Dto :=
  { s with tasks := s.tasks.filter (fun t => t.taskId ≠ taskId) }

def putTask (s : DaemonSnapshot Dto) (task : Task Dto) : DaemonSnapshot Dto :=
  if s.tasks.any (fun t => t.taskId = task.taskId) then s.modifyTask task.taskId (fun _ => task)
  else { s with tasks := s.tasks ++ [task] }

def bumpRssItems (s : DaemonSnapshot Dto) (sourceId : String) : DaemonSnapshot Dto :=
  { s with
    rssItemRevisions := s.rssItemRevisions.insert sourceId
      (min ((s.rssItemRevisions[sourceId]?).getD 0 + 1) (2 ^ 64 - 1)) }

def disablePlugin (s : DaemonSnapshot Dto) (identity reason : String) : DaemonSnapshot Dto :=
  { s with plugins := modifyFirst (fun p => p.identity = identity) (Plugin.autoDisable reason) s.plugins }

def dropSelection (s : DaemonSnapshot Dto) (requestId : String) : DaemonSnapshot Dto :=
  { s with pendingSelections := s.pendingSelections.filter (fun r => r.requestId ≠ requestId) }

def addSelection (s : DaemonSnapshot Dto) (request : SelectionRequest Dto) : DaemonSnapshot Dto :=
  { s with pendingSelections := s.pendingSelections ++ [request] }

def setFileMissing (s : DaemonSnapshot Dto) (update : String × Bool) : DaemonSnapshot Dto :=
  s.modifyTask update.1 (fun t => { t with fileMissing := update.2 })

def setPriority (s : DaemonSnapshot Dto) (priorityTaskId : String) : DaemonSnapshot Dto :=
  { s with priority := if priorityTaskId = "" then [] else [priorityTaskId] }

def setRuntimeStats (s : DaemonSnapshot Dto) (stats : RuntimeStats) : DaemonSnapshot Dto :=
  { s with runtimeStats := stats }

end DaemonSnapshot

/-! ## The reducer -/

def applyEngineMessage (s : DaemonSnapshot Dto) : EngineMessage Dto → DaemonSnapshot Dto
  | .tasksSnapshot tasks => { s with tasks := tasks }
  | .taskProgress m =>
    if m.status = 4 ∧ m.errorMessage = "deleted" then s.removeTask m.taskId
    else s.modifyTask m.taskId (Task.progress m)
  | .taskMetaProbed taskId fileName totalBytes =>
    s.modifyTask taskId (Task.metaProbed fileName totalBytes)
  | .taskQueueChanged taskId queueId => s.modifyTask taskId (fun t => { t with queueId := queueId })
  | .taskRouteChanged taskId route => s.modifyTask taskId (fun t => { t with autoRoute := route })
  | .queuesChanged queues => { s with queues := queues }
  | .queuePositionsChanged positions => { s with queuePositions := positions }
  | .groupsChanged groups => { s with groups := groups }
  | .rssSourcesChanged sources => { s with rssSources := sources }
  | .rssItemsChanged sourceId => s.bumpRssItems sourceId
  | .webhookDeliveriesChanged deliveries => { s with webhookDeliveries := deliveries }
  | .fileMissingChanged updates => updates.foldl DaemonSnapshot.setFileMissing s
  | .priorityTaskChanged priorityTaskId => s.setPriority priorityTaskId
  | .pluginAutoDisabled identity reason => s.disablePlugin identity reason
  | _ => s

def applyEvent (s : DaemonSnapshot Dto) : DaemonEvent Dto → DaemonSnapshot Dto
  | .snapshotReplaced replacement => replacement
  | .engine message => applyEngineMessage s message
  | .taskChanged task => s.putTask task
  | .taskDeleted taskId => s.removeTask taskId
  | .queuesChanged queues => { s with queues := queues }
  | .groupsChanged groups => { s with groups := groups }
  | .configChanged config => { s with config := config }
  | .rssChanged sourceId itemRevision =>
    { s with rssItemRevisions := s.rssItemRevisions.insert sourceId itemRevision }
  | .pluginsChanged plugins => { s with plugins := plugins }
  | .componentsChanged components => { s with components := components }
  | .webhooksChanged deliveries => { s with webhookDeliveries := deliveries }
  | .runtimeStatsChanged stats => s.setRuntimeStats stats
  | .selectionPending request => (s.dropSelection request.requestId).addSelection request
  | .selectionResolved requestId => s.dropSelection requestId

/-! ## Runtime statistics -/

/-- The part of the hub's state behind its lock that an event changes. -/
structure EventState (Dto : DtoKind → Type) where
  snapshot : DaemonSnapshot Dto
  downloadSpeeds : TreeMap String ℤ
  uploadSpeeds : TreeMap String ℤ

def isLive (status : ℤ) : Bool := status = 1 ∨ status = 5

namespace EventState

def clearSpeeds (s : EventState Dto) : EventState Dto :=
  { s with downloadSpeeds := ∅, uploadSpeeds := ∅ }

def removeSpeeds (s : EventState Dto) (taskId : String) : EventState Dto :=
  { s with downloadSpeeds := s.downloadSpeeds.erase taskId, uploadSpeeds := s.uploadSpeeds.erase taskId }

def retainSpeeds (s : EventState Dto) (tasks : List (Task Dto)) : EventState Dto :=
  let live := fun taskId (_ : ℤ) => tasks.any (fun t => t.taskId = taskId && isLive t.status)
  { s with downloadSpeeds := s.downloadSpeeds.filter live, uploadSpeeds := s.uploadSpeeds.filter live }

def recordSpeeds (s : EventState Dto) (m : Progress) : EventState Dto :=
  { s with
    downloadSpeeds := s.downloadSpeeds.insert m.taskId (max m.speed 0)
    uploadSpeeds := s.uploadSpeeds.insert m.taskId (max m.uploadSpeed 0) }

end EventState

def trackSpeeds (s : EventState Dto) : DaemonEvent Dto → EventState Dto
  | .snapshotReplaced _ => s.clearSpeeds
  | .taskDeleted taskId => s.removeSpeeds taskId
  | .taskChanged task => if isLive task.status then s else s.removeSpeeds task.taskId
  | .engine (.tasksSnapshot tasks) => s.retainSpeeds tasks
  | .engine (.taskProgress m) =>
    if isLive m.status then s.recordSpeeds m else s.removeSpeeds m.taskId
  | _ => s

/-- `saturating_add` over the speeds, none of which is negative. -/
def sumSpeeds (speeds : TreeMap String ℤ) : ℤ :=
  speeds.toList.foldl (fun total p => min (total + p.2) (2 ^ 63 - 1)) 0

def configuredSaveDir (config : ConfigSnapshot) : Option String :=
  (config.values["default_save_dir"]?).filter (fun path => !path.toList.all Texts.isWhitespace)

def computeStats (s : EventState Dto) : RuntimeStats where
  activeTasks := min (s.snapshot.tasks.countP (fun t => isLive t.status)) (2 ^ 32 - 1)
  pendingTasks := min (s.snapshot.tasks.countP (fun t => t.status = 0)) (2 ^ 32 - 1)
  totalDownloadBps := sumSpeeds s.downloadSpeeds
  totalUploadBps := sumSpeeds s.uploadSpeeds
  diskFreeBytes := s.snapshot.runtimeStats.diskFreeBytes
  saveDir := (configuredSaveDir s.snapshot.config).getD s.snapshot.runtimeStats.saveDir

def EventState.applyRuntimeStats (s : EventState Dto) (e : DaemonEvent Dto) : EventState Dto :=
  let t := trackSpeeds s e
  { t with snapshot := t.snapshot.setRuntimeStats (computeStats t) }

def EventState.publish (s : EventState Dto) (e : DaemonEvent Dto) : EventState Dto :=
  { s with snapshot := applyEvent s.snapshot e }.applyRuntimeStats e

@[simp] theorem trackSpeeds_snapshot (s : EventState Dto) (e : DaemonEvent Dto) :
    (trackSpeeds s e).snapshot = s.snapshot := by
  unfold trackSpeeds
  split <;> try rfl
  all_goals split_ifs <;> rfl

/-- Only the statistics know more than the event. -/
theorem publish_snapshot (s : EventState Dto) (e : DaemonEvent Dto) :
    ∃ stats, (s.publish e).snapshot = (applyEvent s.snapshot e).setRuntimeStats stats := by
  simp only [EventState.publish, EventState.applyRuntimeStats, trackSpeeds_snapshot]
  exact ⟨_,rfl⟩

end RinaDown.DaemonProjection
