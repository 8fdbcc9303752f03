import Mathlib.Data.List.Sublists
import RinaDown.ServiceLine

/-!
# The queue of seeds

`SeedingManager` keeps completed torrents seeding: at most `cap` of them are
active, the others wait in a queue. Its operations run under one lock. The
order in which a hash table is walked and the readings of the clock are choices
of the environment. A run also keeps the ids in the order of their
registration, which the manager itself does not know.
-/

namespace RinaDown.SeedingQueue

universe u v

variable {T : Type u} {H : Type v}

inductive SeedingStopReason where
  | none
  | ratioReached
  | timeReached
  | inactiveTimeReached
  | userStopped
  | taskDeleted
  | sessionReleased
  deriving DecidableEq, Repr

/-- An active seed; instants are nanoseconds. -/
structure SeedingEntry (H : Type v) where
  handle : H
  seedTimeBaseSecs : ℤ
  stintStarted : ℕ
  lastUploadInstant : ℕ
  lastUploadedBytes : ℤ
  uploadedAtCompletion : ℤ
  lastSessionUploaded : ℤ
  stopReason : SeedingStopReason
  deriving DecidableEq, Repr

structure QueuedSeed (H : Type v) where
  handle : H
  uploadedAtCompletion : ℤ
  seedTimeBaseSecs : ℤ
  deriving DecidableEq, Repr

inductive SeedingRegistration where
  | activated
  | queued
  | alreadyPresent
  deriving DecidableEq, Repr

structure UnregisteredSeed where
  wasActive : Bool
  seedTimeSecs : ℤ
  deriving DecidableEq, Repr

/-- `i64::saturating_add`. -/
def saturatingAdd (a b : ℤ) : ℤ := max (-2 ^ 63) (min (a + b) (2 ^ 63 - 1))

/-- The cumulative seconds with the present stint. -/
def SeedingEntry.effectiveSeedTimeSecs (e : SeedingEntry H) (now : ℕ) : ℤ :=
  saturatingAdd e.seedTimeBaseSecs ((now - e.stintStarted) / 10 ^ 9 : ℕ)

def startStint (handle : H) (uploaded session base : ℤ) (now : ℕ) : SeedingEntry H :=
  ⟨handle,base,now,now,uploaded,uploaded,session,.none⟩

/-- The active seeds and the queue, with the last reading of the clock. -/
structure SeedingManager (T : Type u) (H : Type v) where
  active : List (T × SeedingEntry H)
  queued : List (T × QueuedSeed H)
  cap : ℕ
  clock : ℕ
  deriving DecidableEq, Repr

/-- The order in which a hash table is walked. -/
structure HashOrder (α : Type*) where
  walk : List α → List α
  perm : ∀ xs, (walk xs).Perm xs

/-- `Iterator::max_by_key`, which takes the last of equal elements. -/
def maxByKey {α : Type*} (key : α → ℕ) (xs : List α) : Option α :=
  xs.foldl (fun best x =>
    match best with
    | none => some x
    | some b => if key b ≤ key x then some x else some b) none

def stint (e : T × SeedingEntry H) : ℕ := e.2.stintStarted

namespace SeedingManager

variable [DecidableEq T] (m : SeedingManager T H)

def activeIds : List T := m.active.map Prod.fst

def queuedIds : List T := m.queued.map Prod.fst

def setCap (cap : ℕ) : SeedingManager T H := { m with cap := cap }

def hasFreeSlot : Bool := m.cap = 0 ∨ m.active.length < m.cap

def insertActive (id : T) (e : SeedingEntry H) : SeedingManager T H :=
  { m with active := m.active.filter (fun d => d.1 ≠ id) ++ [(id, e)] }

def readClock (d : ℕ) : SeedingManager T H := { m with clock := m.clock + d }

/-- `register`; a seed that becomes active reads the clock. -/
def register (id : T) (handle : H) (uploaded session base : ℤ) (d : ℕ) :
    SeedingManager T H × SeedingRegistration :=
  if id ∈ m.activeIds ∨ id ∈ m.queuedIds then (m, .alreadyPresent)
  else if m.hasFreeSlot then
    ((m.readClock d).insertActive id (startStint handle uploaded session base (m.clock + d)),
      .activated)
  else ({ m with queued := m.queued ++ [(id, ⟨handle,uploaded,base⟩)] }, .queued)

/-- One turn of the first loop of `reconcile`: the first of the queue becomes active. -/
def promoteFront (d : ℕ) : Option (SeedingManager T H × T) :=
  if m.hasFreeSlot then
    match m.queued with
    | [] => none
    | (id, q) :: rest =>
      some (({ m with queued := rest }.readClock d).insertActive id
        (startStint q.handle q.uploadedAtCompletion 0 q.seedTimeBaseSecs (m.clock + d)), id)
  else none

/-- Promote until there is no slot or nobody waits, with the ids that were activated. -/
def promoteLoop (ticks : ℕ → ℕ) : ℕ → SeedingManager T H → SeedingManager T H × List T
  | 0, m => (m, [])
  | n + 1, m =>
    match m.promoteFront (ticks n) with
    | none => (m, [])
    | some (next, id) => ((promoteLoop ticks n next).1, id :: (promoteLoop ticks n next).2)

/-- The end of a stint: the seed goes to the front of the queue. -/
def demote (id : T) (e : SeedingEntry H) (now : ℕ) : SeedingManager T H :=
  { m with
    active := m.active.filter (fun d => d.1 ≠ id)
    queued := (id, ⟨e.handle,e.uploadedAtCompletion,e.effectiveSeedTimeSecs now⟩) :: m.queued }

/-- Demote the seed that was activated last until the cap holds, with what was demoted. -/
def demoteLoop (order : HashOrder (T × SeedingEntry H)) (now : ℕ) :
    ℕ → SeedingManager T H → SeedingManager T H × List (T × ℤ)
  | 0, m => (m, [])
  | n + 1, m =>
    if m.cap < m.active.length then
      match maxByKey stint (order.walk m.active) with
      | none => (m, [])
      | some (id, e) =>
        let r := demoteLoop order now n (m.demote id e now)
        (r.1, (id, e.effectiveSeedTimeSecs now) :: r.2)
    else (m, [])

/-- `reconcile`; `ticks` and `d` are what the clock goes on by between its readings. -/
def reconcile (order : HashOrder (T × SeedingEntry H)) (ticks : ℕ → ℕ) (d : ℕ) :
    SeedingManager T H × List T × List (T × ℤ) :=
  let promoted := promoteLoop ticks m.queued.length m
  if promoted.1.cap = 0 then (promoted.1, promoted.2, [])
  else
    let now := promoted.1.clock + d
    let r := demoteLoop order now promoted.1.active.length (promoted.1.readClock d)
    (r.1, promoted.2, r.2)

/-- `unregister`: the seed goes from where it is. -/
def unregister (id : T) (d : ℕ) : SeedingManager T H × Option UnregisteredSeed :=
  match m.active.find? (fun e => e.1 = id) with
  | some e =>
    ({ m.readClock d with active := m.active.filter (fun e => e.1 ≠ id) },
      some ⟨true,e.2.effectiveSeedTimeSecs (m.clock + d)⟩)
  | none =>
    match m.queued.find? (fun q => q.1 = id) with
    | none => (m, none)
    | some q =>
      ({ m with queued := m.queued.eraseP (fun q => q.1 = id) }, some ⟨false,q.2.seedTimeBaseSecs⟩)

end SeedingManager

inductive Op (T : Type u) (H : Type v) where
  | register (id : T) (handle : H) (uploaded session base : ℤ) (d : ℕ)
  | reconcile (order : HashOrder (T × SeedingEntry H)) (ticks : ℕ → ℕ) (d : ℕ)
  | unregister (id : T) (d : ℕ)
  | setCap (cap : ℕ)

/-- The manager with the registered ids in the order of their registration. -/
structure Seeding (T : Type u) (H : Type v) where
  manager : SeedingManager T H
  arrivals : List T

variable [DecidableEq T]

namespace Seeding

def register (s : Seeding T H) (id : T) (handle : H) (uploaded session base : ℤ) (d : ℕ) :
    Seeding T H :=
  let r := s.manager.register id handle uploaded session base d
  ⟨r.1,if r.2 = .alreadyPresent then s.arrivals else s.arrivals ++ [id]⟩

def unregister (s : Seeding T H) (id : T) (d : ℕ) : Seeding T H :=
  ⟨(s.manager.unregister id d).1,s.arrivals.filter (· ≠ id)⟩

end Seeding

def step (s : Seeding T H) : Op T H → Option (Seeding T H)
  | .register id handle uploaded session base d =>
    some (s.register id handle uploaded session base d)
  | .reconcile order ticks d => some { s with manager := (s.manager.reconcile order ticks d).1 }
  | .unregister id d => some (s.unregister id d)
  | .setCap cap => some { s with manager := s.manager.setCap cap }

def new : Seeding T H := ⟨⟨[],[],0,0⟩,[]⟩

end RinaDown.SeedingQueue
