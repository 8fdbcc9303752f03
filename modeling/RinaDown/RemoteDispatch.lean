import RinaDown.KeyedTable

/-!
# The remote task service

The cloud sends tasks that other devices dispatch to this one. The service keeps them in a
projection, which is stored, and creates a local task for each pending one; the table of these
bindings is not stored. A snapshot of the cloud's tasks can be fetched at any time beside the
loop.
-/

namespace RinaDown.RemoteDispatch

open KeyedTable

inductive RemoteTaskStatus where
  | pending
  | accepted
  | downloading
  | paused
  | completed
  | failed
  | canceled
deriving DecidableEq

def RemoteTaskStatus.isTerminal : RemoteTaskStatus → Bool
  | .completed | .failed | .canceled => true
  | _ => false

structure RemoteTask where
  id : String
  toDevice : String
  url : String
  fileName : String
  saveDir : Option String
  status : RemoteTaskStatus
deriving DecidableEq

structure LocalTask where
  taskId : String
  url : String
  originUrl : String
  fileName : String
  saveDir : String
  status : ℤ
deriving DecidableEq

/-- The task is to be accepted on the device. -/
def RemoteTask.isDispatch (device : String) (task : RemoteTask) : Bool :=
  task.toDevice = device && task.status = .pending

def localStatus : ℤ → RemoteTaskStatus
  | 1 => .downloading
  | 2 => .paused
  | 3 => .completed
  | 4 => .failed
  | _ => .accepted

def missingGraceRounds : ℕ := 3

/-- The counters are bytes. -/
def saturatingSucc (n : ℕ) : ℕ := min 255 (n + 1)

/-! ## Bindings -/

/-- The url decides; the file name and the directory add to the score. -/
def rebindScore (remote : RemoteTask) (task : LocalTask) : ℤ :=
  if remote.url ≠ task.url ∧ remote.url ≠ task.originUrl then -1
  else
    10 + (if remote.fileName ≠ "" ∧ remote.fileName = task.fileName then 4 else 0)
      + (if remote.saveDir = some task.saveDir then 2 else 0)

/-- The last of the tasks with the highest score. -/
def maxByScore (remote : RemoteTask) (best : Option LocalTask) (task : LocalTask) :
    Option LocalTask :=
  match best with
  | none => some task
  | some b => if rebindScore remote b ≤ rebindScore remote task then some task else some b

/-- The local task that a remote one is bound to again. -/
def rebindTo (claimed : List String) (localTasks : List LocalTask) (remote : RemoteTask) :
    Option LocalTask :=
  (localTasks.filter fun task => task.taskId ∉ claimed ∧ 11 ≤ rebindScore remote task).foldl
    (maxByScore remote) none

abbrev Bindings := Table String String

/-- The local tasks that are bound, in any order. -/
def claimed (bindings : Bindings) : List String := bindings.map Prod.snd

def rebindOne (device : String) (localTasks : List LocalTask) (bindings : Bindings)
    (remote : RemoteTask) : Bindings :=
  if remote.toDevice ≠ device ∨ remote.status = .pending ∨ remote.status.isTerminal = true ∨
      (bindings.lookup remote.id).isSome = true then bindings
  else
    match rebindTo (claimed bindings) localTasks remote with
    | some task => insert remote.id task.taskId bindings
    | none => bindings

def rebuildBindings (device : String) (localTasks : List LocalTask) (remoteTasks : List RemoteTask)
    (bindings : Bindings) : Bindings :=
  remoteTasks.foldl (rebindOne device localTasks) bindings

/-! ## Snapshots -/

/-- What a snapshot leaves of the tasks that it does not have: the rounds for which each has been
missing, the tasks that are kept, and the ids whose bindings are removed. -/
structure Grace where
  rounds : Table String ℕ
  merged : List RemoteTask
  removed : List String

def graceStep (incoming : List RemoteTask) (g : Grace) (task : RemoteTask) : Grace :=
  if task.id ∈ incoming.map RemoteTask.id ∨ task.status.isTerminal = true then
    { g with rounds := remove task.id g.rounds }
  else
    let round := saturatingSucc ((g.rounds.lookup task.id).getD 0)
    if round < missingGraceRounds then
      { g with rounds := insert task.id round g.rounds, merged := g.merged ++ [task] }
    else { g with rounds := remove task.id g.rounds, removed := g.removed ++ [task.id] }

def applyMissingGrace (rounds : Table String ℕ) (incoming previous : List RemoteTask) : Grace :=
  previous.foldl (graceStep incoming) ⟨rounds,incoming,[]⟩

/-- A snapshot that has been fetched, with the projection that was read after it, and one that is
merged and not stored yet. -/
inductive Refresh where
  | fetched (incoming previous : List RemoteTask)
  | merged (tasks : List RemoteTask)
deriving DecidableEq

def Refresh.tasks : Refresh → List RemoteTask
  | .fetched incoming previous => incoming ++ previous
  | .merged tasks => tasks

/-! ## Events -/

/-- The first task with the id of the event is replaced. -/
def upsert (task : RemoteTask) : List RemoteTask → List RemoteTask
  | [] => [task]
  | existing :: tasks =>
      if existing.id = task.id then task :: tasks else existing :: upsert task tasks

def progressItem (id : String) : List RemoteTask → List RemoteTask
  | [] => []
  | task :: tasks =>
      if task.id = id then
        (if task.status.isTerminal then task else { task with status := .downloading }) :: tasks
      else task :: progressItem id tasks

def progress (ids : List String) (tasks : List RemoteTask) : List RemoteTask :=
  ids.foldl (fun tasks id => progressItem id tasks) tasks

/-! ## The state -/

/-- What the loop does: it stores a projection, begins to accept dispatches, is about to create a
local task, has created one, has bound it and is about to report it, or reports progress. -/
inductive Loop where
  | idle
  | storing (tasks : List RemoteTask)
  | starting
  | accepting (rest : List RemoteTask)
  | binding (task : RemoteTask) (localId : String) (rest : List RemoteTask)
  | announcing (task : RemoteTask) (rest : List RemoteTask)
  | reporting (rest : Bindings) (localTasks : List LocalTask)
deriving DecidableEq

/-- The dispatches that the loop has still to accept. -/
def Loop.dispatches : Loop → List RemoteTask
  | .accepting rest | .binding _ _ rest | .announcing _ rest => rest
  | _ => []

def Loop.tasks : Loop → List RemoteTask
  | .storing tasks => tasks
  | loop => loop.dispatches

/-- The local tasks that the daemon has ever had are known, and which of them the service created
for which remote one. -/
structure State where
  device : String
  projection : List RemoteTask
  stored : List RemoteTask
  bindings : Bindings
  reported : Table String RemoteTaskStatus
  localMissing : Table String ℕ
  missing : Table String ℕ
  refreshes : List Refresh
  loop : Loop
  locals : List String
  created : List (String × String)

/-- The service starts with the projection that is stored and with nothing else. -/
def start (device : String) (stored : List RemoteTask) (locals : List String)
    (created : List (String × String)) : State where
  device := device
  projection := stored
  stored := stored
  bindings := []
  reported := []
  localMissing := []
  missing := []
  refreshes := []
  loop := .idle
  locals := locals
  created := created

/-! ## Steps -/

/-- What the cloud answers to a report: `gone` is 404 or 409. -/
inductive Outcome where
  | ok
  | gone
  | error
deriving DecidableEq

/-- The state after a report, and whether the loop goes on. -/
def reportStatusIfChanged (s : State) (remoteId : String) (status : RemoteTaskStatus)
    (outcome : Outcome) : State × Bool :=
  if s.reported.lookup remoteId = some status then (s, true)
  else
    match outcome with
    | .ok =>
        ({ s with
          reported := insert remoteId status s.reported
          bindings := if status.isTerminal then remove remoteId s.bindings else s.bindings }, true)
    | .gone => ({ s with bindings := remove remoteId s.bindings }, true)
    | .error => (s, false)

def reportItem (s : State) (remoteId localId : String) (localTasks : List LocalTask)
    (outcome : Outcome) : State × Bool :=
  match localTasks.find? fun task => task.taskId = localId with
  | none =>
      let count := saturatingSucc ((s.localMissing.lookup remoteId).getD 0)
      let s := { s with localMissing := insert remoteId count s.localMissing }
      if missingGraceRounds ≤ count then
        match reportStatusIfChanged s remoteId .failed outcome with
        | (s, true) => ({ s with bindings := remove remoteId s.bindings }, true)
        | (s, false) => (s, false)
      else (s, true)
  | some task =>
      reportStatusIfChanged { s with localMissing := remove remoteId s.localMissing } remoteId
        (localStatus task.status) outcome

inductive Label where
  | localCreated (localId : String)
  | event (task : RemoteTask)
  | progress (ids : List String)
  | store (saved : Bool)
  | save
  | rebuild (localTasks : List LocalTask)
  | accept
  | create (localId : Option String)
  | bind
  | announce (ok : Bool)
  | report (order : Bindings) (localTasks : List LocalTask)
  | reportNext (outcome : Outcome)
  | done
  | fetch (incoming : List RemoteTask)
  | merge (k : ℕ)
  | finish (k : ℕ) (saved : Bool)
  | restart
deriving DecidableEq

def setProjection (s : State) (tasks : List RemoteTask) (saved : Bool) : State :=
  { s with projection := tasks, stored := if saved then tasks else s.stored }

/-- The next dispatch: one that is bound is skipped, and an error ends the round. -/
def createNext (s : State) (task : RemoteTask) (rest : List RemoteTask) (localId : Option String) :
    Option State :=
  if (s.bindings.lookup task.id).isSome = true then some { s with loop := .accepting rest }
  else
    match localId with
    | none => some { s with loop := .idle }
    | some localId =>
        if localId ∈ s.locals then none
        else some { s with
          loop := .binding task localId rest
          locals := localId :: s.locals
          created := (task.id, localId) :: s.created }

def mergeRefresh (s : State) (k : ℕ) (incoming previous : List RemoteTask) : State :=
  let g := applyMissingGrace s.missing incoming previous
  { s with
    missing := g.rounds
    bindings := retain (· ∉ g.removed) s.bindings
    refreshes := s.refreshes.set k (.merged g.merged) }

def loopStep (s : State) : Label → Option State
  | .event task => if s.loop = .idle then some { s with loop := .storing (upsert task s.projection) }
      else none
  | .progress ids =>
      if s.loop = .idle then some { s with loop := .storing (progress ids s.projection) } else none
  | .store saved =>
      match s.loop with
      | .storing tasks => some { setProjection s tasks saved with loop := .idle }
      | _ => none
  | .rebuild localTasks =>
      if s.loop = .idle ∧ ∀ task ∈ localTasks, task.taskId ∈ s.locals then
        some { s with
          bindings := rebuildBindings s.device localTasks s.projection s.bindings
          loop := .starting }
      else none
  | .accept =>
      if s.loop = .starting then
        some { s with loop := .accepting (s.projection.filter (·.isDispatch s.device)) }
      else none
  | .create localId =>
      match s.loop with
      | .accepting (task :: rest) => createNext s task rest localId
      | _ => none
  | .bind =>
      match s.loop with
      | .binding task localId rest =>
          some { s with
            bindings := insert task.id localId s.bindings
            loop := .announcing task rest }
      | _ => none
  | .announce ok =>
      match s.loop with
      | .announcing task rest =>
          if ok then
            some { s with
              reported := insert task.id .accepted s.reported
              loop := .accepting rest }
          else some { s with loop := .idle }
      | _ => none
  | .report order localTasks =>
      if s.loop = .idle ∧ order.Perm s.bindings then
        some { s with loop := .reporting order localTasks }
      else none
  | .reportNext outcome =>
      match s.loop with
      | .reporting ((remoteId, localId) :: rest) localTasks =>
          match reportItem s remoteId localId localTasks outcome with
          | (s, true) => some { s with loop := .reporting rest localTasks }
          | (s, false) => some { s with loop := .idle }
      | _ => none
  | .done =>
      match s.loop with
      | .accepting [] | .reporting [] _ => some { s with loop := .idle }
      | _ => none
  | _ => none

/-- Snapshots, other services that save the state, other local tasks and restarts come at any
time. -/
def step (s : State) : Label → Option State
  | .localCreated localId => some { s with locals := localId :: s.locals }
  | .save => some { s with stored := s.projection }
  | .fetch incoming =>
      some { s with refreshes := s.refreshes ++ [.fetched incoming s.projection] }
  | .merge k =>
      match s.refreshes[k]? with
      | some (.fetched incoming previous) => some (mergeRefresh s k incoming previous)
      | _ => none
  | .finish k saved =>
      match s.refreshes[k]? with
      | some (.merged tasks) =>
          some { setProjection s tasks saved with refreshes := s.refreshes.eraseIdx k }
      | _ => none
  | .restart => some (start s.device s.stored s.locals s.created)
  | label => loopStep s label

end RinaDown.RemoteDispatch
