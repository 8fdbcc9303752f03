import RinaDown.KeyedTable
import RinaDown.LabelledExecutions
import RinaDown.WebhookDelivery

/-!
# The webhook dispatcher

An event goes to the endpoints that subscribe to it, each of which has a worker with a queue. The
worker of an endpoint is made when the first event for it is sent, and delivers what is in its
queue one by one. However calls of `emit`, reloads and workers are interleaved, every job that was
sent has one record, in the order in which the jobs were sent.
-/

namespace RinaDown.WebhookDispatcher

open KeyedTable WebhookDelivery

/-- A job with its place among all jobs and the call that sent it. -/
structure Job where
  number : ℕ
  call : ℕ
  spec : EndpointSpec
  event : WebhookEvent
deriving DecidableEq

structure Worker where
  id : String
  queue : List Job
  current : Option (Job × Progress)
deriving DecidableEq

/-- A call has seen that an endpoint is enabled, has targets left, holds the sender of a worker,
or has returned the number of its targets. -/
inductive EmitPhase where
  | checking
  | choosing (targets : List EndpointSpec) (dispatched : ℕ)
  | sending (spec : EndpointSpec) (worker : ℕ) (targets : List EndpointSpec) (dispatched : ℕ)
  | returned (dispatched : ℕ)
deriving DecidableEq

structure Emit where
  event : WebhookEvent
  phase : EmitPhase
deriving DecidableEq

/-- The workers are in the order in which they were spawned, and found by the table of endpoint
ids. The jobs that were sent and the records that were pushed are kept in their orders. -/
structure Inner where
  endpoints : List EndpointSpec
  anyEnabled : Bool
  reloads : List Bool
  emits : List Emit
  poisoned : Bool
  workers : Table String ℕ
  spawned : List Worker
  permits : ℕ
  log : List Delivery
  enqueued : List Job
  records : List (Job × Delivery)

def maxConcurrentDeliveries : ℕ := 4

def maxDeliveryLog : ℕ := 1000

def newInner : Inner :=
  ⟨[],false,[],[],false,[],[],maxConcurrentDeliveries,[],[],[]⟩

inductive Action where
  | receive
  | acquire
  | attempt (reply : Reply)
  | push

inductive Label where
  | reload (parsed : Option (List EndpointSpec))
  | storeEnabled (reload : ℕ)
  | emit (event : WebhookEvent)
  | select (call : ℕ)
  | workerFor (call : ℕ)
  | send (call : ℕ)
  | work (worker : ℕ) (action : Action)

/-- What cannot be parsed keeps the endpoints. -/
def reloadEndpoints (s : Inner) : Option (List EndpointSpec) → Inner
  | none => s
  | some parsed =>
      { s with endpoints := parsed, reloads := s.reloads ++ [parsed.any EndpointSpec.enabled] }

def targets (endpoints : List EndpointSpec) (event : WebhookEvent) : List EndpointSpec :=
  endpoints.filter fun e => e.enabled && e.subscribes event.kind && e.matchesQueue event.queueId

def setPhase (s : Inner) (c : ℕ) (call : Emit) (phase : EmitPhase) : Inner :=
  { s with emits := s.emits.set c { call with phase } }

def select (s : Inner) (c : ℕ) (call : Emit) : Inner :=
  let chosen := targets s.endpoints call.event
  setPhase s c call (if chosen = [] then .returned 0 else .choosing chosen chosen.length)

def spawnWorker (s : Inner) (id : String) : Inner :=
  { s with spawned := s.spawned ++ [⟨id,[],none⟩] }

/-- A worker for the endpoint. With a poisoned lock each call makes its own. -/
def workerFor (s : Inner) (id : String) : Inner × ℕ :=
  if s.poisoned then (spawnWorker s id, s.spawned.length)
  else
    match s.workers.lookup id with
    | some existing => (s, existing)
    | none =>
        ({ spawnWorker s id with workers := insert id s.spawned.length s.workers },
          s.spawned.length)

/-- The job is behind what is in the queue of the worker. -/
def sendJob (s : Inner) (w : ℕ) (job : Job) : Inner :=
  { s with
    spawned := s.spawned.modify w fun worker => { worker with queue := worker.queue ++ [job] }
    enqueued := s.enqueued ++ [job] }

def send (s : Inner) (c w : ℕ) (call : Emit) (spec : EndpointSpec) (rest : List EndpointSpec)
    (dispatched : ℕ) : Inner :=
  setPhase (sendJob s w ⟨s.enqueued.length,c,spec,call.event⟩) c call
    (if rest = [] then .returned dispatched else .choosing rest dispatched)

def setWorker (s : Inner) (w : ℕ) (worker : Worker) (permits : ℕ) : Inner :=
  { s with spawned := s.spawned.set w worker, permits }

/-- The oldest record leaves a full log. -/
def pushLog (log : List Delivery) (record : Delivery) : List Delivery :=
  (if log.length ≥ maxDeliveryLog then log.drop 1 else log) ++ [record]

def push (s : Inner) (w : ℕ) (worker : Worker) (job : Job) (record : Delivery) : Inner :=
  { setWorker s w { worker with current := none } s.permits with
    log := pushLog s.log record
    records := s.records ++ [(job, record)] }

section
variable (parseUrl : String → Option Url)

/-- The steps of a worker, which takes the next job when it has none. -/
def workerStep (s : Inner) (w : ℕ) (worker : Worker) (action : Action) : Option Inner :=
  match action, worker.current, worker.queue with
  | .receive, none, job :: queue =>
      some (setWorker s w
        { worker with queue, current := some (job, deliver parseUrl job.spec job.event) } s.permits)
  | .acquire, some (job, .waiting record), _ =>
      if 0 < s.permits then
        some (setWorker s w { worker with current := some (job, .attempting record 1) }
          (s.permits - 1))
      else none
  | .attempt reply, some (job, .attempting record n), _ =>
      let progress := attempt maxAttempts n record reply
      -- The permit is given back with the record.
      some (setWorker s w { worker with current := some (job, progress) }
        (if progress.holds then s.permits else s.permits + 1))
  | .push, some (job, .done record), _ => some (push s w worker job record)
  | _, _, _ => none

def step (s : Inner) : Label → Option Inner
  | .reload parsed => some (reloadEndpoints s parsed)
  | .storeEnabled r =>
      (s.reloads[r]?).map fun enabled =>
        { s with anyEnabled := enabled, reloads := s.reloads.eraseIdx r }
  | .emit event =>
      some { s with
        emits := s.emits ++ [⟨event,if s.anyEnabled then .checking else .returned 0⟩] }
  | .select c =>
      match s.emits[c]? with
      | some call => if call.phase = .checking then some (select s c call) else none
      | none => none
  | .workerFor c =>
      match s.emits[c]? with
      | some call =>
          match call.phase with
          | .choosing (spec :: rest) dispatched =>
              let found := workerFor s spec.id
              some (setPhase found.1 c call (.sending spec found.2 rest dispatched))
          | _ => none
      | none => none
  | .send c =>
      match s.emits[c]? with
      | some call =>
          match call.phase with
          | .sending spec w rest dispatched => some (send s c w call spec rest dispatched)
          | _ => none
      | none => none
  | .work w action => (s.spawned[w]?).bind fun worker => workerStep parseUrl s w worker action

end

/-! ## What holds -/

def Worker.jobs (worker : Worker) : List Job := (worker.current.map Prod.fst).toList ++ worker.queue

def enqueuedFor (s : Inner) (id : String) : List Job := s.enqueued.filter fun job => job.spec.id = id

def recordedFor (s : Inner) (id : String) : List Job :=
  (s.records.map Prod.fst).filter fun job => job.spec.id = id

def sentBy (s : Inner) (c : ℕ) : List Job := s.enqueued.filter fun job => job.call = c

/-- Every endpoint has one worker, which has the jobs for the endpoint that have no record yet, in
the order in which they were sent. A call has sent as many jobs as it returns. -/
structure Accounted (s : Inner) : Prop where
  single : ∀ (w v : ℕ) (a b : Worker), s.spawned[w]? = some a → s.spawned[v]? = some b →
    a.id = b.id → w = v
  own : ∀ a ∈ s.spawned, ∀ job ∈ a.jobs, job.spec.id = a.id
  ordered : ∀ a ∈ s.spawned, recordedFor s a.id ++ a.jobs = enqueuedFor s a.id
  unknown : ∀ id, (∀ a ∈ s.spawned, a.id ≠ id) → recordedFor s id = [] ∧ enqueuedFor s id = []
  distinct : (s.enqueued.map Job.number).Nodup
  counted : ∀ (c : ℕ) (call : Emit) (n : ℕ), s.emits[c]? = some call → call.phase = .returned n →
    (sentBy s c).length = n
  attempts : ∀ r ∈ s.records, r.2.attempts ≤ maxAttempts ∧ r.2.Describes r.1.spec r.1.event

end RinaDown.WebhookDispatcher
