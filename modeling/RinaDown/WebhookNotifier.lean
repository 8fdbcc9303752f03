import RinaDown.WebhookDispatcher

/-!
# Telling the host of deliveries

Each record that is pushed to the delivery log is followed by a notification of the host: at
once, or by a task that waits until some time after the last one. The host gets the newest
records. Calls of `push_log` by workers and the waiting tasks are interleaved at their locks
and atomics. Instants are nanoseconds.
-/

namespace RinaDown.WebhookNotifier

open WebhookDispatcher

variable {Record : Type}

def wireDeltaLimit : ℕ := 100

def emitMinInterval : ℕ := 500 * 10 ^ 6

/-- A call of `push_log` or a waiting task, by what it does next. -/
inductive HostTask (Record : Type) where
  | pushing (record : Record)
  | notifying
  | reading
  | comparing (now : ℕ)
  | delaying (delay : ℕ)
  | sleeping (wake : ℕ)
  | waking
  | emitting
  | snapshotting
  | sending (entries : List Record) (taken : ℕ)
deriving DecidableEq

/-- A record, whether there was a sink, and how many events there were. -/
structure Push (Record : Type) where
  record : Record
  sink : Bool
  before : ℕ
deriving DecidableEq

/-- `WebhookDeliveriesChanged`, and how many records had been pushed at its snapshot. -/
structure Event (Record : Type) where
  entries : List Record
  taken : ℕ
deriving DecidableEq

/-- The records that were pushed, the events, and how many records had been pushed at the last
snapshot, are the history. -/
structure Inner (Record : Type) where
  log : List Record
  sink : Bool
  lastEmit : Option ℕ
  emitPending : Bool
  clock : ℕ
  tasks : List (HostTask Record)
  pushed : List (Push Record)
  events : List (Event Record)
  taken : ℕ

inductive Label (Record : Type) where
  | setSink
  | tick (d : ℕ)
  | pushLog (record : Record)
  | advance (i : ℕ)

def pushLog (log : List Record) (record : Record) : List Record :=
  (if log.length ≥ maxDeliveryLog then log.drop 1 else log) ++ [record]

def goOn (s : Inner Record) (i : ℕ) (task : HostTask Record) : Inner Record :=
  { s with tasks := s.tasks.set i task }

def finish (s : Inner Record) (i : ℕ) : Inner Record := { s with tasks := s.tasks.eraseIdx i }

/-- The window since the last emission, within which the task waits. -/
def compare (s : Inner Record) (i now : ℕ) : Inner Record :=
  match s.lastEmit with
  | some prev =>
    if now - prev < emitMinInterval then goOn s i (.delaying (emitMinInterval - (now - prev)))
    else { goOn s i .emitting with lastEmit := some now }
  | none => { goOn s i .emitting with lastEmit := some now }

def stepTask (s : Inner Record) (i : ℕ) : HostTask Record → Option (Inner Record)
  | .pushing record =>
    some { goOn s i .notifying with
      log := pushLog s.log record
      pushed := s.pushed ++ [⟨record,s.sink,s.events.length⟩] }
  | .notifying => some (if s.sink then goOn s i .reading else finish s i)
  | .reading => some (goOn s i (.comparing s.clock))
  | .comparing now => some (compare s i now)
  | .delaying delay =>
    some (if s.emitPending then finish s i
      else { goOn s i (.sleeping (s.clock + delay)) with emitPending := true })
  | .sleeping wake =>
    if wake ≤ s.clock then some { goOn s i .waking with emitPending := false } else none
  | .waking => some { goOn s i .emitting with lastEmit := some s.clock }
  | .emitting => some (if s.sink then goOn s i .snapshotting else finish s i)
  | .snapshotting =>
    some { goOn s i (.sending (s.log.reverse.take wireDeltaLimit) s.pushed.length) with
      taken := s.pushed.length }
  | .sending entries taken =>
    some { finish s i with events := s.events ++ [⟨entries,taken⟩] }

def step (s : Inner Record) : Label Record → Option (Inner Record)
  | .setSink => some { s with sink := true }
  | .tick d => some { s with clock := s.clock + d }
  | .pushLog record => some { s with tasks := s.tasks ++ [.pushing record] }
  | .advance i => (s.tasks[i]?).bind (stepTask s i)

structure Initial (s : Inner Record) : Prop where
  log : s.log.length ≤ maxDeliveryLog
  emitPending : s.emitPending = false
  tasks : s.tasks = []
  pushed : s.pushed = []
  events : s.events = []
  taken : s.taken = 0

end RinaDown.WebhookNotifier
