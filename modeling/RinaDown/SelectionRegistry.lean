import RinaDown.DaemonProjection

/-!
# The selection registry

`DaemonSelection` keeps the requests that wait for a choice of the user. A
request ends by a resolution, by the departure of the last subscriber, by the
shutdown or by its timeout. Each call takes the lock of the registry, releases
it, and only then sends the outcome or publishes to the hub; between these
steps other calls may run. Request ids are fresh UUIDs.
-/

namespace RinaDown.SelectionRegistry
open DaemonProjection

inductive SelectionType where
  | hls
  | bt
  | variant
  deriving DecidableEq, Repr

inductive SelectionOutcome where
  | hls (index : ℤ)
  | bt (indices : List ℤ)
  | variant (index : ℤ)
  | cancelled
  deriving DecidableEq, Repr

inductive SelectionError where
  | notFound
  | conflict
  | invalidOutcome
  | hlsCancel
  deriving DecidableEq, Repr

def resolvedHistoryLimit : ℕ := 1024

def validateOutcome : SelectionType → SelectionOutcome → Except SelectionError Unit
  | .hls, .hls _ => .ok ()
  | .bt, .bt _ => .ok ()
  | .variant, .variant _ => .ok ()
  | .hls, .cancelled => .error .hlsCancel
  | .bt, .cancelled => .ok ()
  | .variant, .cancelled => .ok ()
  | _, _ => .error .invalidOutcome

/-- What a caller makes of an outcome; `none` where it falls back to its default. -/
def chosen : SelectionType → SelectionOutcome → Option SelectionOutcome
  | .hls, .hls index => some (.hls index)
  | .bt, .bt indices => some (.bt indices)
  | .bt, .cancelled => some (.bt [-1])
  | .variant, .variant index => some (.variant index)
  | .variant, .cancelled => some (.variant (-1))
  | _, _ => none

/-- The engine's `SelectionOutcome`. -/
inductive Reply where
  | userChose (choice : SelectionOutcome)
  | timedOutDefaulted (choice : SelectionOutcome)
  | noSelectorConfigured (choice : SelectionOutcome)
  deriving DecidableEq, Repr

structure PendingSelection where
  kind : SelectionType
  taskId : String
  defaultChoice : SelectionOutcome
  deriving DecidableEq, Repr

/-- `VecDeque::push_back` of a bounded history. -/
def rememberResolved (resolved : List String) (requestId : String) : List String :=
  (resolved ++ [requestId]).drop (resolved.length + 1 - resolvedHistoryLimit)

/-- Where a `select_*` call is; in `expired` it has dropped its receiver, in `closing` it has taken
its request from the registry. -/
inductive Phase where
  | announcing
  | waiting
  | expired
  | closing
  | done
  deriving DecidableEq, Repr

variable {Dto : DtoKind → Type}

/-- A `select_*` call with the value in its oneshot channel; `rest` is what only the hub reads of
its request. -/
structure Caller (Dto : DtoKind → Type) where
  requestId : String
  selection : PendingSelection
  rest : Dto .selection
  value : Option SelectionOutcome
  phase : Phase

/-- The other calls under way: `resolve` before its lock, before it sends and before it publishes,
and the calls that end several requests before they publish them. -/
inductive Call where
  | resolving (requestId : String) (outcome : SelectionOutcome)
  | sending (requestId : String) (outcome : SelectionOutcome)
  | notifying (requestId : String) (outcome : SelectionOutcome)
  | publishing (requestIds : List String)
  deriving DecidableEq, Repr

/-- The registry, the calls under way, the projection of the hub, the resolutions that have
returned and the outcomes of the requests. -/
structure Registry (Dto : DtoKind → Type) where
  subscribers : List String
  pending : List (String × PendingSelection)
  resolved : List String
  callers : List (Caller Dto)
  calls : List Call
  hub : DaemonSnapshot Dto
  returned : List (String × SelectionOutcome × Except SelectionError Unit)
  outcomes : List (String × Reply)

namespace Registry

variable (s : Registry Dto)

def caller (requestId : String) : Option (Caller Dto) :=
  s.callers.find? (fun c => c.requestId = requestId)

def pendingOf (requestId : String) : Option PendingSelection :=
  (s.pending.find? (fun p => p.1 = requestId)).map Prod.snd

def updateCaller (requestId : String) (f : Caller Dto → Caller Dto) : Registry Dto :=
  { s with callers := s.callers.map (fun c => if c.requestId = requestId then f c else c) }

def setPhase (requestId : String) (phase : Phase) : Registry Dto :=
  s.updateCaller requestId (fun c => { c with phase := phase })

/-- `oneshot::Sender::send`: the value is lost if the receiver is gone. -/
def sendTo (requestId : String) (outcome : SelectionOutcome) : Registry Dto :=
  s.updateCaller requestId (fun c =>
    if c.phase = .announcing ∨ c.phase = .waiting then { c with value := some outcome } else c)

def publish (event : DaemonEvent Dto) : Registry Dto := { s with hub := applyEvent s.hub event }

def removePending (requestId : String) : Registry Dto :=
  { s with
    pending := s.pending.filter (fun p => p.1 ≠ requestId)
    resolved := rememberResolved s.resolved requestId }

def finish (requestId : String) (reply : Reply) : Registry Dto :=
  { s.setPhase requestId .done with outcomes := (requestId, reply) :: s.outcomes }

def replaceCall (call : Call) (next : List Call) : Registry Dto :=
  { s with calls := s.calls.erase call ++ next }

def returnFrom (requestId : String) (outcome : SelectionOutcome)
    (result : Except SelectionError Unit) : Registry Dto :=
  { s with returned := (requestId, outcome, result) :: s.returned }

/-- `begin`; without subscribers the default is taken at once. -/
def «begin» (requestId : String) (selection : PendingSelection) (rest : Dto .selection) :
    Registry Dto :=
  if s.subscribers = [] then
    { s with
      callers := ⟨requestId,selection,rest,none,.done⟩ :: s.callers
      outcomes := (requestId, .noSelectorConfigured selection.defaultChoice) :: s.outcomes }
  else
    { s with
      callers := ⟨requestId,selection,rest,none,.announcing⟩ :: s.callers
      pending := (requestId, selection) :: s.pending }

def receive (c : Caller Dto) (outcome : SelectionOutcome) : Registry Dto :=
  match chosen c.selection.kind outcome with
  | some choice => s.finish c.requestId (.userChose choice)
  | none => s.setPhase c.requestId .expired

def timeout (c : Caller Dto) : Registry Dto :=
  if (s.pendingOf c.requestId).isSome then
    (s.removePending c.requestId).setPhase c.requestId .closing
  else s.finish c.requestId (.timedOutDefaulted c.selection.defaultChoice)

def resolve (requestId : String) (outcome : SelectionOutcome) : Registry Dto :=
  let call := Call.resolving requestId outcome
  match s.pendingOf requestId with
  | none =>
    let error := if requestId ∈ s.resolved then SelectionError.conflict else .notFound
    (s.replaceCall call []).returnFrom requestId outcome (.error error)
  | some selection =>
    match validateOutcome selection.kind outcome with
    | .error error => (s.replaceCall call []).returnFrom requestId outcome (.error error)
    | .ok _ => (s.removePending requestId).replaceCall call [.sending requestId outcome]

/-- The lock section that ends all pending requests with their defaults. -/
def takeAll : Registry Dto :=
  let sent := s.pending.foldl (fun t p => t.sendTo p.1 p.2.defaultChoice) s
  { sent with
    pending := []
    resolved := s.pending.foldl (fun resolved p => rememberResolved resolved p.1) s.resolved
    calls := sent.calls ++ [.publishing (s.pending.map Prod.fst)] }

def resolveAllDefaults : Registry Dto := s.takeAll

def unsubscribe (connectionId : String) : Registry Dto :=
  let left := { s with subscribers := s.subscribers.filter (· ≠ connectionId) }
  if left.subscribers = [] then left.takeAll else left

/-- Publish one of the ids that a call has ended. -/
def publishOne (requestIds : List String) (requestId : String) : Registry Dto :=
  (s.replaceCall (.publishing requestIds) [.publishing (requestIds.erase requestId)]).publish
    (.selectionResolved requestId)

end Registry

/-- Steps of the calls; `resolveForTask` names the request that it has found for the task. -/
inductive Label (Dto : DtoKind → Type) where
  | subscribe (connectionId : String)
  | unsubscribe (connectionId : String)
  | resolveAllDefaults
  | «begin» (requestId : String) (selection : PendingSelection) (rest : Dto .selection)
  | resolve (requestId : String) (outcome : SelectionOutcome)
  | resolveForTask (taskId : String) (kind : SelectionType) (outcome : SelectionOutcome)
      (requestId : String)
  | publishPending (requestId : String)
  | receive (requestId : String)
  | expire (requestId : String)
  | timeout (requestId : String)
  | publishTimeout (requestId : String)
  | lock (requestId : String) (outcome : SelectionOutcome)
  | send (requestId : String) (outcome : SelectionOutcome)
  | publishResolved (requestId : String) (outcome : SelectionOutcome)
  | publishOne (requestIds : List String) (requestId : String)
  | finishPublishing

def Registry.callerIn (s : Registry Dto) (requestId : String) (phase : Phase) :
    Option (Caller Dto) :=
  (s.caller requestId).filter (fun c => c.phase = phase)

def step (s : Registry Dto) : Label Dto → Option (Registry Dto)
  | .subscribe connectionId =>
    some { s with
      subscribers := s.subscribers.filter (· ≠ connectionId) ++ [connectionId] }
  | .unsubscribe connectionId => some (s.unsubscribe connectionId)
  | .resolveAllDefaults => some s.resolveAllDefaults
  | .begin requestId selection rest =>
    if (s.caller requestId).isNone then some (s.begin requestId selection rest) else none
  | .resolve requestId outcome =>
    some { s with calls := s.calls ++ [.resolving requestId outcome] }
  | .resolveForTask taskId kind outcome requestId =>
    if (s.pendingOf requestId).any (fun p => p.taskId = taskId ∧ p.kind = kind) then
      some { s with calls := s.calls ++ [.resolving requestId outcome] }
    else none
  | .publishPending requestId =>
    (s.callerIn requestId .announcing).map (fun c =>
      (s.setPhase c.requestId .waiting).publish (.selectionPending ⟨c.requestId,c.rest⟩))
  | .receive requestId =>
    (s.callerIn requestId .waiting).bind (fun c => c.value.map (s.receive c))
  | .expire requestId =>
    (s.callerIn requestId .waiting).bind (fun c =>
      if c.value.isNone then some (s.setPhase c.requestId .expired) else none)
  | .timeout requestId => (s.callerIn requestId .expired).map s.timeout
  | .publishTimeout requestId =>
    (s.callerIn requestId .closing).map (fun c =>
      (s.finish c.requestId (.timedOutDefaulted c.selection.defaultChoice)).publish
        (.selectionResolved c.requestId))
  | .lock requestId outcome =>
    if .resolving requestId outcome ∈ s.calls then some (s.resolve requestId outcome) else none
  | .send requestId outcome =>
    if .sending requestId outcome ∈ s.calls then
      some ((s.replaceCall (.sending requestId outcome) [.notifying requestId outcome]).sendTo
        requestId outcome)
    else none
  | .publishResolved requestId outcome =>
    if .notifying requestId outcome ∈ s.calls then
      some (((s.replaceCall (.notifying requestId outcome) []).publish
        (.selectionResolved requestId)).returnFrom requestId outcome (.ok ()))
    else none
  | .publishOne requestIds requestId =>
    if .publishing requestIds ∈ s.calls ∧ requestId ∈ requestIds then
      some (s.publishOne requestIds requestId)
    else none
  | .finishPublishing =>
    if .publishing [] ∈ s.calls then some (s.replaceCall (.publishing []) []) else none

structure Initial (s : Registry Dto) : Prop where
  subscribers : s.subscribers = []
  pending : s.pending = []
  callers : s.callers = []
  calls : s.calls = []
  hub : s.hub.pendingSelections = []
  returned : s.returned = []
  outcomes : s.outcomes = []

end RinaDown.SelectionRegistry
