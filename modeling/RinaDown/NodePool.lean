import RinaDown.LabelledExecutions
import RinaDown.FairShare

/-!
# The pool of pinned nodes

A pool holds the system route in slot 0 and one slot for each candidate address. A worker leases a
node for a segment, reports how it went and drops the lease, each under the pool's lock. The live
leases are kept as a ghost; throughputs are values of a type with the operations of the source on
floats.
-/

namespace RinaDown.NodePool
open FairShare LabelledExecutions

/-- The arithmetic of throughputs. -/
class Throughput (F : Type) where
  /-- `DEFAULT_EWMA_BPS`. -/
  default : F
  /-- The average after a sample of so many bytes in so much time. -/
  sampled : F → ℕ → ℕ → F
  halved : F → F
  /-- `ewma * 0.5^n`. -/
  decayed : F → ℕ → F
  gt : F → F → Bool
  eq : F → F → Bool
  toInt : F → ℤ

def minSampleBytes : ℕ := 256 * 1024

def kickStreak : ℕ := 3

def leasesEmitMinGap : ℕ := 2000

structure NodeSlot (F Ip Client : Type) where
  /-- `none` is the system route. -/
  ip : Option Ip
  client : Option Client
  ewmaBps : F
  failStreak : ℕ
  kicked : Bool
  outstanding : ℕ
  origin : String
  bytesDone : ℕ

structure NodeLease (Ip Client : Type) where
  nodeId : ℕ
  client : Client
  ip : Option Ip

structure CdnNodeInfo (Ip : Type) where
  ip : Option Ip
  origin : String
  bytes : ℤ
  ewmaBps : ℤ
  active : ℤ

inductive CdnEvent (Ip : Type) where
  | leases (nodes : List (CdnNodeInfo Ip))
  | kick (ip : Ip) (reason : String) (candidates : ℕ)
  | breaker

structure PoolInner (F Ip Client : Type) where
  slots : List (NodeSlot F Ip Client)
  noAggregateRecorded : Bool
  lastLeasesEmit : Option ℕ
  lastLeasesSig : List ℕ

/-- What a pool is built with: a template for pinned clients and a sink for events. -/
structure Setup where
  template : Bool
  sink : Bool

/-- A pool with its live leases and what its sink has received. -/
structure Pool (F Ip Client : Type) where
  inner : PoolInner F Ip Client
  live : List (NodeLease Ip Client)
  emitted : List (CdnEvent Ip)

variable {F Ip Client : Type}

def newSlot [Throughput F] (ip : Option Ip) (client : Option Client) (prior : Option F)
    (origin : Option String) : NodeSlot F Ip Client where
  ip := ip
  client := client
  ewmaBps := prior.getD Throughput.default
  failStreak := 0
  kicked := false
  outstanding := 0
  origin := origin.getD ""
  bytesDone := 0

def newPool (slots : List (NodeSlot F Ip Client)) : Pool F Ip Client where
  inner := ⟨slots,false,none,[]⟩
  live := []
  emitted := []

def single [Throughput F] (client : Client) : Pool F Ip Client :=
  newPool [newSlot none (some client) none none]

def multi [Throughput F] (candidates : List Ip) (lookupEwma : Ip → Option F)
    (origins : Ip → Option String) (taskClient : Client) : Pool F Ip Client :=
  newPool (newSlot none (some taskClient) none none ::
    candidates.map (fun ip => newSlot (some ip) none (lookupEwma ip) (origins ip)))

/-! ## Choosing a node -/

def isAlive (slots : List (NodeSlot F Ip Client)) (i : ℕ) : Bool :=
  (slots[i]?).any (fun s => !s.kicked)

def alive (slots : List (NodeSlot F Ip Client)) : List ℕ :=
  (List.range slots.length).filter (isAlive slots)

def outstandingAt (slots : List (NodeSlot F Ip Client)) (i : ℕ) : ℕ :=
  (slots[i]?.map NodeSlot.outstanding).getD 0

def totalOutstanding (slots : List (NodeSlot F Ip Client)) : ℕ :=
  (slots.map NodeSlot.outstanding).sum

def fairShare (slots : List (NodeSlot F Ip Client)) : ℕ :=
  divCeil (totalOutstanding slots + 1) (alive slots).length

def candidates (slots : List (NodeSlot F Ip Client)) : List ℕ :=
  (alive slots).filter (fun i => outstandingAt slots i < fairShare slots)

section Scores

variable [Throughput F]

def NodeSlot.score (s : NodeSlot F Ip Client) : F :=
  Throughput.decayed s.ewmaBps (min s.failStreak 60)

def better (slots : List (NodeSlot F Ip Client)) (i best : ℕ) : Bool :=
  match slots[i]?, slots[best]? with
  | some a, some b =>
    Throughput.gt a.score b.score ||
      (Throughput.eq a.score b.score &&
        (decide (a.outstanding < b.outstanding) || (a.outstanding = b.outstanding && decide (i < best))))
  | _, _ => false

def bestOf (slots : List (NodeSlot F Ip Client)) : List ℕ → ℕ
  | [] => 0
  | i :: rest => rest.foldl (fun best j => if better slots j best then j else best) i

def pick (slots : List (NodeSlot F Ip Client)) : ℕ :=
  if alive slots = [] then 0
  else if candidates slots = [] then bestOf slots (alive slots)
  else bestOf slots (candidates slots)

end Scores

/-! ## Operations -/

namespace PoolInner

def modifySlot (inner : PoolInner F Ip Client) (i : ℕ)
    (f : NodeSlot F Ip Client → NodeSlot F Ip Client) : PoolInner F Ip Client :=
  { inner with slots := inner.slots.modify i f }

def kickedPinned (inner : PoolInner F Ip Client) : ℕ :=
  inner.slots.countP (fun s => s.ip.isSome && s.kicked)

def alivePinned (inner : PoolInner F Ip Client) : ℕ :=
  inner.slots.countP (fun s => s.ip.isSome && !s.kicked)

end PoolInner

def NodeSlot.kick (s : NodeSlot F Ip Client) : NodeSlot F Ip Client := { s with kicked := true }

def NodeSlot.build (client : Client) (s : NodeSlot F Ip Client) : NodeSlot F Ip Client :=
  { s with client := some client }

def NodeSlot.acquire (s : NodeSlot F Ip Client) : NodeSlot F Ip Client :=
  { s with outstanding := s.outstanding + 1 }

def NodeSlot.release (s : NodeSlot F Ip Client) : NodeSlot F Ip Client :=
  { s with outstanding := s.outstanding - 1 }

/-- The breaker of the aggregation is recorded once. -/
def checkBreaker (inner : PoolInner F Ip Client) : PoolInner F Ip Client × List (CdnEvent Ip) :=
  if inner.noAggregateRecorded then (inner, [])
  else if inner.kickedPinned > inner.alivePinned then
    ({ inner with noAggregateRecorded := true }, [.breaker])
  else (inner, [])

def kickNode (inner : PoolInner F Ip Client) (i : ℕ) (reason : String) (count : ℕ) :
    PoolInner F Ip Client × List (CdnEvent Ip) :=
  let kicks := ((inner.slots[i]?.bind NodeSlot.ip).map (fun ip => .kick ip reason count)).toList
  let r := checkBreaker (inner.modifySlot i NodeSlot.kick)
  (r.1, kicks ++ r.2)

/-- What the loop of `lease` has found. -/
structure Chosen (F Ip Client : Type) where
  nodeId : ℕ
  client : Client
  ip : Option Ip
  inner : PoolInner F Ip Client
  events : List (CdnEvent Ip)

section Lease

variable [Throughput F]

/-- The loop of `lease`: a node whose client cannot be built is kicked, and the next is tried. -/
def leaseLoop (cfg : Setup) (buildPinnedClient : Ip → Option Client) :
    ℕ → PoolInner F Ip Client → Option (Chosen F Ip Client)
  | 0, _ => none
  | fuel + 1, inner =>
    let chosen := pick inner.slots
    match inner.slots[chosen]? with
    | none => none
    | some slot =>
      match slot.client with
      | some client => some ⟨chosen,client,slot.ip,inner,[]⟩
      | none =>
        match (if cfg.template then slot.ip.bind buildPinnedClient else none) with
        | some client =>
          some ⟨chosen,client,slot.ip,inner.modifySlot chosen (NodeSlot.build client),[]⟩
        | none =>
          let r := kickNode inner chosen "build" 0
          (leaseLoop cfg buildPinnedClient fuel r.1).map (fun c => { c with events := r.2 ++ c.events })

/-- The snapshot of the leases, if they have changed and the last one is old enough. -/
def leasesEventLocked (cfg : Setup) (now : ℕ) (inner : PoolInner F Ip Client) :
    PoolInner F Ip Client × List (CdnEvent Ip) :=
  let sig := inner.slots.map NodeSlot.outstanding
  if inner.slots.length < 2 || !cfg.sink then (inner, [])
  else if sig = inner.lastLeasesSig then (inner, [])
  else if inner.lastLeasesEmit.any (fun last => now - last < leasesEmitMinGap) then (inner, [])
  else
    ({ inner with lastLeasesEmit := some now, lastLeasesSig := sig },
      [.leases ((inner.slots.filter (fun s => !s.kicked || s.outstanding > 0)).map (fun s =>
        ⟨s.ip,s.origin,min s.bytesDone (2 ^ 63 - 1),Throughput.toInt s.ewmaBps,
          min s.outstanding (2 ^ 31 - 1)⟩))])

/-- Events leave the lock only if the pool has a sink. -/
def Pool.update (cfg : Setup) (p : Pool F Ip Client) (live : List (NodeLease Ip Client))
    (r : PoolInner F Ip Client × List (CdnEvent Ip)) : Pool F Ip Client where
  inner := r.1
  live := live
  emitted := p.emitted ++ if cfg.sink then r.2 else []

/-- A lease lands on a node whose client is there; the number of slots bounds the kicks. -/
def choose (cfg : Setup) (buildPinnedClient : Ip → Option Client) (p : Pool F Ip Client) :
    Option (Chosen F Ip Client) :=
  leaseLoop cfg buildPinnedClient (p.inner.slots.length + 1) p.inner

def lease (cfg : Setup) (buildPinnedClient : Ip → Option Client) (now : ℕ) (p : Pool F Ip Client) :
    Option (NodeLease Ip Client × Pool F Ip Client) :=
  (choose cfg buildPinnedClient p).map (fun c =>
    let l : NodeLease Ip Client := ⟨c.nodeId,c.client,c.ip⟩
    let r := leasesEventLocked cfg now (c.inner.modifySlot c.nodeId NodeSlot.acquire)
    (l, p.update cfg (p.live ++ [l]) (r.1, c.events ++ r.2)))

def dropLease (cfg : Setup) (now : ℕ) (p : Pool F Ip Client) (j : ℕ) : Option (Pool F Ip Client) :=
  p.live[j]?.map (fun l => p.update cfg (p.live.eraseIdx j)
    (leasesEventLocked cfg now (p.inner.modifySlot l.nodeId NodeSlot.release)))

/-- The outcome of a segment; `versionChanged` is a validator mismatch. -/
inductive Outcome where
  | ok
  | error (versionChanged : Bool)

def NodeSlot.succeed (bytes elapsed : ℕ) (s : NodeSlot F Ip Client) : NodeSlot F Ip Client :=
  { s with
    failStreak := 0
    bytesDone := min (s.bytesDone + bytes) (2 ^ 64 - 1)
    ewmaBps :=
      if bytes ≥ minSampleBytes ∧ elapsed ≠ 0 then Throughput.sampled s.ewmaBps bytes elapsed
      else s.ewmaBps }

def NodeSlot.fail (s : NodeSlot F Ip Client) : NodeSlot F Ip Client :=
  { s with failStreak := s.failStreak + 1, ewmaBps := Throughput.halved s.ewmaBps }

/-- The system route is never kicked. -/
def failNode (inner : PoolInner F Ip Client) (i : ℕ) (versionChanged : Bool) :
    PoolInner F Ip Client × List (CdnEvent Ip) :=
  let failed := inner.modifySlot i NodeSlot.fail
  match failed.slots[i]? with
  | none => (failed, [])
  | some slot =>
    if slot.ip.isSome ∧ (versionChanged ∨ slot.failStreak ≥ kickStreak) then
      kickNode failed i (if versionChanged then "validator" else "fail")
        (if versionChanged then 0 else slot.failStreak)
    else (failed, [])

def reportInner (inner : PoolInner F Ip Client) (i bytes elapsed : ℕ) :
    Outcome → PoolInner F Ip Client × List (CdnEvent Ip)
  | .ok => (inner.modifySlot i (NodeSlot.succeed bytes elapsed), [])
  | .error versionChanged => failNode inner i versionChanged

def report (cfg : Setup) (p : Pool F Ip Client) (j bytes elapsed : ℕ) (outcome : Outcome) :
    Option (Pool F Ip Client) :=
  p.live[j]?.map (fun l => p.update cfg p.live (reportInner p.inner l.nodeId bytes elapsed outcome))

end Lease

def retire (s : NodeSlot F Ip Client) : NodeSlot F Ip Client :=
  if s.ip.isSome then s.kick else s

/-- Every pinned node is retired and the system route gets the client. -/
def switchToClient (p : Pool F Ip Client) (client : Client) : Pool F Ip Client :=
  { p with
    inner := { p.inner with
      noAggregateRecorded := true
      slots := (p.inner.slots.map retire).modify 0 (NodeSlot.build client) } }

inductive Label (Ip Client : Type) where
  | lease (buildPinnedClient : Ip → Option Client) (now : ℕ)
  | drop (j now : ℕ)
  | report (j bytes elapsed : ℕ) (outcome : Outcome)
  | switchToClient (client : Client)

def step [Throughput F] (cfg : Setup) (p : Pool F Ip Client) :
    Label Ip Client → Option (Pool F Ip Client)
  | .lease buildPinnedClient now => (lease cfg buildPinnedClient now p).map Prod.snd
  | .drop j now => dropLease cfg now p j
  | .report j bytes elapsed outcome => report cfg p j bytes elapsed outcome
  | .switchToClient client => some (switchToClient p client)

end RinaDown.NodePool
