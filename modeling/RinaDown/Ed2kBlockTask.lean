import Mathlib.Data.List.Sort
import RinaDown.Ed2kHash

/-!
# One block from one peer

A block task connects, negotiates a slot, makes sure of the hashset, and takes
the parts of its block as the peer sends them, straight into the temporary file
and into a buffer that it hashes at the end. What the peer sends and when
anything fails is up to the environment.
-/

namespace RinaDown.Ed2kBlockTask
open Ed2kHash List

/-- The content of a file: its length fits a signed offset. -/
abbrev File := { content : Bytes // content.length < 2 ^ 63 }

namespace File

def setLen (length : ℕ) : Option File :=
  if h : length < 2 ^ 63 then some ⟨List.replicate length 0,by simpa using h⟩ else none

/-- The bytes with `data` from `start` on, over what is there. -/
def overwrite (content data : Bytes) (start : ℕ) : Bytes :=
  content.take start ++ data ++ content.drop (start + data.length)

/-- `seek` and `write_all` within the file. -/
def write (file : File) (start : ℕ) (data : Bytes) : File :=
  if h : start + data.length ≤ file.1.length then
    ⟨overwrite file.1 data start,by
      have hlt := file.2
      simp only [overwrite, List.length_append, List.length_take, List.length_drop]
      omega⟩
  else file

@[simp] theorem length_write (file : File) (start : ℕ) (data : Bytes) :
    (file.write start data).1.length = file.1.length := by
  rw [write]
  split_ifs with h
  · simp only [overwrite, length_append, length_take, length_drop]
    omega
  · rfl

end File

structure PeerAddr where
  ip : UInt32
  port : UInt16
  deriving DecidableEq, Repr

inductive Source where
  | highId (peer : PeerAddr)
  | lowId (clientId : UInt32)
  deriving DecidableEq, Repr

inductive DownloadError where
  | cancelled
  | ed2k (detail : String)
  | ed2kIntegrity (detail : String)
  | io (detail : String)
  | db (detail : String)
  deriving DecidableEq, Repr

def DownloadError.isIntegrity : DownloadError → Bool
  | .ed2kIntegrity _ => true
  | _ => false

structure PartRange where
  start : ℕ
  endExclusive : ℕ
  deriving DecidableEq, Repr

/-- What the block loop of a task works on; `received` is relative to the block. -/
structure Transfer where
  received : List (ℕ × ℕ)
  inflight : List PartRange
  nextReqStart : ℕ
  hasherBuf : Bytes
  deriving DecidableEq, Repr

def maxIntervals : ℕ := 16

def maxInflight : ℕ := 3

/-- One turn of `merge_intervals`; the last interval comes first. -/
def mergeStep (merged : List (ℕ × ℕ)) (r : ℕ × ℕ) : List (ℕ × ℕ) :=
  match merged with
  | [] => [r]
  | last :: rest =>
    if r.1 ≤ last.2 then (last.1, max last.2 r.2) :: rest else r :: last :: rest

def mergeIntervals (intervals : List (ℕ × ℕ)) : List (ℕ × ℕ) :=
  ((intervals.insertionSort (fun a b => a.1 ≤ b.1)).foldl mergeStep []).reverse

def intervalCovered (received : List (ℕ × ℕ)) (start stop : ℕ) : Bool :=
  received.any (fun r => r.1 ≤ start ∧ stop ≤ r.2)

def receivedCovers (received : List (ℕ × ℕ)) (blockLen : ℕ) : Bool :=
  match received with
  | [r] => r.1 = 0 ∧ blockLen ≤ r.2
  | _ => false

def refill (blockEnd : ℕ) (t : Transfer) : ℕ → Transfer
  | 0 => t
  | fuel + 1 =>
    if t.inflight.length < maxInflight ∧ t.nextReqStart < blockEnd then
      let reqEnd := min (t.nextReqStart + blockSize) blockEnd
      refill blockEnd
        { t with inflight := t.inflight ++ [⟨t.nextReqStart,reqEnd⟩], nextReqStart := reqEnd } fuel
    else t

/-- `accept_part`. With `written = some n` the disk takes only `n` bytes and the write fails. -/
def acceptPart (blockStart blockEnd totalBytes : ℕ) (t : Transfer) (file : File)
    (start endExclusive : ℕ) (data : Bytes) (written : Option ℕ) :
    File × Except DownloadError Transfer :=
  if endExclusive ≤ start ∨ start < blockStart ∨ blockEnd < endExclusive ∨
      totalBytes < endExclusive then
    (file, .error (.ed2kIntegrity "sendingpart out of bounds"))
  else if data.length ≠ endExclusive - start then
    (file, .error (.ed2kIntegrity "sendingpart length mismatch"))
  else if !t.inflight.any (fun r => r.start ≤ start ∧ endExclusive ≤ r.endExclusive) then
    (file, .error (.ed2kIntegrity "unrequested data received"))
  else
    match written with
    | some n => (file.write start (data.take n), .error (.io "write failed"))
    | none =>
      let file := file.write start data
      let rel := start - blockStart
      if t.hasherBuf.length < rel + data.length then
        (file, .error (.ed2kIntegrity "buffer overflow"))
      else
        let received := mergeIntervals (t.received ++ [(rel, endExclusive - blockStart)])
        if maxIntervals < received.length then
          (file, .error (.ed2kIntegrity "too many fragmented intervals (flood?)"))
        else
          (file, .ok { t with
            received
            inflight := t.inflight.filter (fun r =>
              !intervalCovered received (r.start - blockStart) (r.endExclusive - blockStart))
            hasherBuf := File.overwrite t.hasherBuf data rel })

inductive Phase where
  | connecting
  | negotiating
  | hashset
  | opening
  | transferring (t : Transfer)
  | finished (result : Except DownloadError Digest)
  | panicked

structure BlockTask where
  index : ℕ
  source : Source
  phase : Phase

/-- What the tasks of a download share and do not change. -/
structure Job where
  rootHash : Digest
  totalBytes : ℕ
  partSize : ℕ
  deriving DecidableEq

inductive Event where
  | connected
  | slot
  | hashSetAnswer (partHashes : List Digest)
  | opened
  | sendingPart (start endExclusive : ℕ) (data : Bytes) (written : Option ℕ)
  | compressedPart (start : ℕ) (data : Bytes) (written : Option ℕ)
  | otherFrame
  | complete
  | fails (error : DownloadError)
  | panics

/-- The hashset that the tasks share, and the temporary file. -/
structure Shared where
  hashsetCache : Option (List Digest)
  temp : Option File

def BlockTask.moveTo (task : BlockTask) (phase : Phase) : BlockTask := { task with phase }

def takePart (job : Job) (task : BlockTask) (t : Transfer) (shared : Shared) (file : File)
    (start endExclusive : ℕ) (data : Bytes) (written : Option ℕ) : BlockTask × Shared :=
  let span := partSpan task.index job.totalBytes job.partSize
  let result := acceptPart span.1 span.2 job.totalBytes (refill span.2 t maxInflight) file start
    endExclusive data written
  let shared := { shared with temp := some result.1 }
  match result.2 with
  | .ok t => (task.moveTo (.transferring t), shared)
  | .error e => (task.moveTo (.finished (.error e)), shared)

def step (md4 : Bytes → Digest) (job : Job) (task : BlockTask) (shared : Shared) :
    Event → Option (BlockTask × Shared)
  | .connected =>
    match task.phase with
    | .connecting => some (task.moveTo .negotiating, shared)
    | _ => none
  | .slot =>
    match task.phase with
    | .negotiating =>
      if partCount job.totalBytes job.partSize = 1 ∨ shared.hashsetCache.isSome then
        some (task.moveTo .opening, shared)
      else some (task.moveTo .hashset, shared)
    | _ => none
  | .hashSetAnswer partHashes =>
    match task.phase with
    | .hashset =>
      if verifyHashsetRoot md4 partHashes job.rootHash job.totalBytes job.partSize then
        some (task.moveTo .opening,
          { shared with hashsetCache := some (shared.hashsetCache.getD partHashes) })
      else
        some (task.moveTo (.finished (.error (.ed2kIntegrity "hashset root mismatch (poison?)"))),
          shared)
    | _ => none
  | .opened =>
    match task.phase, shared.temp with
    | .opening, some _ =>
      let span := partSpan task.index job.totalBytes job.partSize
      some (task.moveTo (.transferring ⟨[],[],span.1,List.replicate (span.2 - span.1) 0⟩), shared)
    | _, _ => none
  | .sendingPart start endExclusive data written =>
    match task.phase, shared.temp with
    | .transferring t, some file =>
      some (takePart job task t shared file start endExclusive data written)
    | _, _ => none
  | .compressedPart start data written =>
    match task.phase, shared.temp with
    | .transferring t, some file =>
      some (takePart job task t shared file start ((start + data.length) % 2 ^ 64) data written)
    | _, _ => none
  | .otherFrame =>
    match task.phase with
    | .transferring t =>
      let span := partSpan task.index job.totalBytes job.partSize
      some (task.moveTo (.transferring (refill span.2 t maxInflight)), shared)
    | _ => none
  | .complete =>
    match task.phase with
    | .transferring t =>
      let span := partSpan task.index job.totalBytes job.partSize
      if receivedCovers t.received (span.2 - span.1) then
        some (task.moveTo (.finished (.ok (md4 t.hasherBuf))), shared)
      else none
    | _ => none
  | .fails error =>
    match task.phase with
    | .finished _ => none
    | .panicked => none
    | _ => some (task.moveTo (.finished (.error error)), shared)
  | .panics =>
    match task.phase with
    | .finished _ => none
    | .panicked => none
    | _ => some (task.moveTo .panicked, shared)

/-! ## What a step leaves alone -/

/-- The hashset of the tasks leads to the root. -/
def Shared.Trusted (md4 : Bytes → Digest) (job : Job) (shared : Shared) : Prop :=
  ∀ hashes, shared.hashsetCache = some hashes →
    verifyHashsetRoot md4 hashes job.rootHash job.totalBytes job.partSize

/-- A task keeps its block, the file its length and the hashset its root. -/
structure Frame (md4 : Bytes → Digest) (job : Job) (task : BlockTask) (shared : Shared)
    (task' : BlockTask) (shared' : Shared) : Prop where
  index : task'.index = task.index
  length : shared'.temp.map (fun file => file.1.length) = shared.temp.map (fun file => file.1.length)
  trusted : shared.Trusted md4 job → shared'.Trusted md4 job

variable {md4 : Bytes → Digest} {job : Job} {task task' : BlockTask} {shared shared' : Shared}

theorem frame_moveTo (phase : Phase) : Frame md4 job task shared (task.moveTo phase) shared :=
  ⟨rfl,rfl,id⟩

theorem length_acceptPart (blockStart blockEnd totalBytes : ℕ) (t : Transfer) (file : File)
    (start endExclusive : ℕ) (data : Bytes) (written : Option ℕ) :
    (acceptPart blockStart blockEnd totalBytes t file start endExclusive data written).1.1.length =
      file.1.length := by
  cases written <;> simp only [acceptPart] <;> split_ifs <;>
    first | rfl | exact File.length_write _ _ _

theorem frame_takePart {t : Transfer} {file : File} (hfile : shared.temp = some file)
    {start endExclusive : ℕ} {data : Bytes} {written : Option ℕ}
    (h : takePart job task t shared file start endExclusive data written = (task', shared')) :
    Frame md4 job task shared task' shared' := by
  have hlength := length_acceptPart (partSpan task.index job.totalBytes job.partSize).1
    (partSpan task.index job.totalBytes job.partSize).2 job.totalBytes
    (refill (partSpan task.index job.totalBytes job.partSize).2 t maxInflight) file start
    endExclusive data written
  simp only [takePart] at h
  split at h <;> cases h <;> exact ⟨rfl,by rw [hfile]; exact congrArg some hlength,id⟩

theorem step_frame {event : Event} (h : step md4 job task shared event = some (task', shared')) :
    Frame md4 job task shared task' shared' := by
  cases event with
  | connected =>
    simp only [step] at h
    split at h
    · cases h; exact frame_moveTo _
    · cases h
  | slot =>
    simp only [step] at h
    split at h
    · split_ifs at h <;> cases h <;> exact frame_moveTo _
    · cases h
  | hashSetAnswer partHashes =>
    simp only [step] at h
    split at h
    · split_ifs at h with hverified
      · cases h
        refine ⟨rfl,rfl,fun htrusted hashes hcache => ?_⟩
        cases hold : shared.hashsetCache with
        | none =>
          rw [hold] at hcache
          cases hcache
          exact hverified
        | some old =>
          rw [hold] at hcache
          cases hcache
          exact htrusted old hold
      · cases h; exact frame_moveTo _
    · cases h
  | opened =>
    simp only [step] at h
    split at h
    · cases h; exact frame_moveTo _
    · cases h
  | sendingPart start endExclusive data written | compressedPart start data written =>
    simp only [step] at h
    split at h
    · next hfile => exact frame_takePart hfile (Option.some.inj h)
    · cases h
  | otherFrame =>
    simp only [step] at h
    split at h
    · cases h; exact frame_moveTo _
    · cases h
  | complete =>
    simp only [step] at h
    split at h
    · split_ifs at h
      cases h
      exact frame_moveTo _
    · cases h
  | fails error | panics =>
    simp only [step] at h
    split at h
    · cases h
    · cases h
    · cases h; exact frame_moveTo _

end RinaDown.Ed2kBlockTask
