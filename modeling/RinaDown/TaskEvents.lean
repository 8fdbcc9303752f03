import RinaDown.KeyedTable

/-!
# Task events of the hub

A progress report updates the rates, then records the status of its task, and then broadcasts the
event of the transition; a snapshot drops the tasks that it does not list, broadcasts a stop for
each that was not finished, in any order, and registers the new ones. Calls may interleave between
these steps. What happened to the statuses is the history of the run.
-/

namespace RinaDown.TaskEvents

open KeyedTable

inductive TaskEventKind where
  | start
  | pause
  | stop
  | complete
  | error
deriving DecidableEq, Repr

structure TaskEvent where
  taskId : String
  kind : TaskEventKind
deriving DecidableEq, Repr

structure LiveSpeed where
  downloadBps : ℤ
  uploadBps : ℤ
deriving DecidableEq

/-- The fields of a progress report that the rates and the events depend on. -/
structure TaskProgress where
  taskId : String
  status : ℤ
  speed : ℤ
  errorMessage : String
  uploadSpeedBps : ℤ
  seedingStatus : ℤ
deriving DecidableEq

structure TaskInfo where
  taskId : String
  status : ℤ
deriving DecidableEq

inductive EngineEvent where
  | taskProgress (p : TaskProgress)
  | tasksSnapshot (tasks : List TaskInfo)
deriving DecidableEq

def taskEventForTransition (prev : Option ℤ) (next : ℤ) : Option TaskEventKind :=
  if prev = some next then none
  else if next = 1 then
    if prev = none ∨ prev = some 0 ∨ prev = some 2 ∨ prev = some 5 then some .start else none
  else if next = 2 ∧ prev.isSome then some .pause
  else if next = 3 ∧ prev.isSome then some .complete
  else if next = 4 ∧ prev.isSome then some .error
  else none

def isTerminalStatus (status : ℤ) : Bool := status = 3 ∨ status = 4

def isDeleteSentinel (status : ℤ) (errorMessage : String) : Bool :=
  status = 4 ∧ errorMessage = "deleted"

def liveIn (tasks : List TaskInfo) (taskId : String) : Bool := tasks.any fun t => t.taskId = taskId

def reconcileSnapshotStates (states : Table String ℤ) (tasks : List TaskInfo) : Table String ℤ × List String :=
  (tasks.foldl (fun states t => orInsert t.taskId t.status states)
      (retain (liveIn tasks) states),
    (states.filter fun e => !liveIn tasks e.1 && !isTerminalStatus e.2).map Prod.fst)

/-! ## The hub -/

/-- What happens to the status of a task: a report, its first listing, or its disappearance. -/
inductive Change where
  | recorded (status : ℤ) (errorMessage : String)
  | listed (status : ℤ)
  | disappeared
deriving DecidableEq

/-- A call of `emit` before and after it has updated the rates, and with the events that it has
yet to broadcast. -/
inductive EmitCall where
  | entered (event : EngineEvent)
  | cached (event : EngineEvent)
  | broadcasting (events : List TaskEvent)
deriving DecidableEq

structure WsHub where
  liveSpeeds : Table String LiveSpeed
  taskStates : Table String ℤ
  calls : List EmitCall
  taskEvents : List TaskEvent
  history : List (String × Change)
deriving DecidableEq

inductive Label where
  | emit (event : EngineEvent)
  | cacheSpeeds (i : ℕ)
  | recordStates (i : ℕ)
  | broadcastTaskEvent (i j : ℕ)
deriving DecidableEq

def newHub : WsHub := ⟨[],[],[],[],[]⟩

variable (s : WsHub)

def updateSpeeds (speeds : Table String LiveSpeed) : EngineEvent → Table String LiveSpeed
  | .taskProgress p =>
      if (p.status = 1 ∨ p.status = 5) ∨ p.seedingStatus = 1 then
        insert p.taskId ⟨p.speed,p.uploadSpeedBps⟩ speeds
      else remove p.taskId speeds
  | .tasksSnapshot tasks => retain (liveIn tasks) speeds

def WsHub.recordProgress (i : ℕ) (p : TaskProgress) : WsHub :=
  if isDeleteSentinel p.status p.errorMessage then { s with calls := s.calls.set i (.broadcasting []) }
  else
    let prev := s.taskStates.lookup p.taskId
    let kind := taskEventForTransition prev p.status
    { s with
      taskStates := insert p.taskId p.status s.taskStates
      calls := s.calls.set i (.broadcasting (kind.toList.map fun kind => ⟨p.taskId,kind⟩))
      history := s.history ++ [(p.taskId, .recorded p.status p.errorMessage)] }

/-- The changes that a snapshot makes, in any order of the tasks. -/
def snapshotChanges (states : Table String ℤ) (tasks : List TaskInfo) : List (String × Change) :=
  (retain (fun taskId => !liveIn tasks taskId) states).map (fun e => (e.1, .disappeared)) ++
    (retain (fun taskId => (states.lookup taskId).isNone)
      (reconcileSnapshotStates states tasks).1).map fun e => (e.1, .listed e.2)

def WsHub.recordSnapshot (i : ℕ) (tasks : List TaskInfo) : WsHub :=
  let reconciled := reconcileSnapshotStates s.taskStates tasks
  { s with
    taskStates := reconciled.1
    calls := s.calls.set i (.broadcasting (reconciled.2.map fun taskId => ⟨taskId,.stop⟩))
    history := s.history ++ snapshotChanges s.taskStates tasks }

def step (s : WsHub) : Label → Option WsHub
  | .emit event => some { s with calls := s.calls ++ [.entered event] }
  | .cacheSpeeds i =>
      match s.calls[i]? with
      | some (.entered event) =>
          some { s with
            liveSpeeds := updateSpeeds s.liveSpeeds event
            calls := s.calls.set i (.cached event) }
      | _ => none
  | .recordStates i =>
      match s.calls[i]? with
      | some (.cached (.taskProgress p)) => some (s.recordProgress i p)
      | some (.cached (.tasksSnapshot tasks)) => some (s.recordSnapshot i tasks)
      | _ => none
  | .broadcastTaskEvent i j =>
      match s.calls[i]? with
      | some (.broadcasting events) =>
          events[j]?.map fun event =>
            { s with
              calls := s.calls.set i (.broadcasting (events.eraseIdx j))
              taskEvents := s.taskEvents ++ [event] }
      | _ => none

end RinaDown.TaskEvents
