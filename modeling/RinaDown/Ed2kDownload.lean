import RinaDown.Ed2kBlockTask

/-!
# The ED2K downloader

`run_ed2k_download_inner`: the temporary file and the rows of the blocks are
prepared, then rounds of the block loop alternate with the final verification
until it passes or something gives up. Block tasks run beside the loop. The list
of lost blocks is history: blocks that a round has dropped.
-/

namespace RinaDown.Ed2kDownload
open Ed2kHash Ed2kBlockTask

def defaultEd2kConcurrency : ℕ := 4

def maxEd2kConcurrency : ℕ := 8

def blockMissing : ℤ := 0

def blockVerified : ℤ := 3

def blockMaxRetries : ℕ := 5

def maxSourceRetries : ℕ := 3

def finalizeMaxRetries : ℕ := 2

def ed2kConcurrency (segmentCount : ℤ) (remaining : ℕ) : ℕ :=
  let requested := if segmentCount ≤ 0 then defaultEd2kConcurrency else segmentCount.toNat
  min (max 1 (min requested maxEd2kConcurrency)) (max remaining 1)

/-! ## Stored blocks -/

structure BlockRow where
  index : ℕ
  state : ℤ
  downloadedBytes : ℤ
  retryCount : ℤ
  deriving DecidableEq, Repr

/-- `INSERT .. ON CONFLICT DO NOTHING`; the rows are in the order of their index. -/
def insertRow (row : BlockRow) : List BlockRow → List BlockRow
  | [] => [row]
  | r :: rest =>
    if row.index < r.index then row :: r :: rest
    else if row.index = r.index then r :: rest
    else r :: insertRow row rest

def initEd2kBlocks (rows : List BlockRow) (blockCount : ℕ) : List BlockRow :=
  (List.range blockCount).foldl (fun rows i => insertRow ⟨i,0,0,0⟩ rows) rows

def updateEd2kBlock (rows : List BlockRow) (blockIndex : ℕ) (state downloadedBytes : ℤ)
    (bumpRetry : Bool) : List BlockRow :=
  rows.map (fun r =>
    if r.index = blockIndex then
      { r with state, downloadedBytes, retryCount := if bumpRetry then r.retryCount + 1 else r.retryCount }
    else r)

def markMissing (rows : List BlockRow) (indexes : List ℕ) : List BlockRow :=
  indexes.foldl (fun rows i => updateEd2kBlock rows i blockMissing 0 false) rows

def Verified (rows : List BlockRow) (block : ℕ) : Prop :=
  ∃ r ∈ rows, r.index = block ∧ r.state = blockVerified

instance (rows : List BlockRow) (block : ℕ) : Decidable (Verified rows block) :=
  inferInstanceAs (Decidable (∃ r ∈ rows, r.index = block ∧ r.state = blockVerified))

/-! ## Sources -/

def Eligible (sources backoff integrityBl : List Source) (source : Source) : Prop :=
  source ∈ sources ∧ source ∉ backoff ∧ source ∉ integrityBl

def pickLoop (sources backoff integrityBl : List Source) : ℕ → ℕ → Option Source × ℕ
  | 0, roundRobin => (none, roundRobin)
  | turns + 1, roundRobin =>
    match sources[roundRobin % sources.length]? with
    | none => (none, roundRobin)
    | some source =>
      let next := (roundRobin + 1) % 2 ^ 64
      if source ∉ backoff ∧ source ∉ integrityBl then (some source, next)
      else pickLoop sources backoff integrityBl turns next

/-- The source and the counter after it. -/
def pickSource (sources backoff integrityBl : List Source) (roundRobin : ℕ) : Option Source × ℕ :=
  pickLoop sources backoff integrityBl sources.length roundRobin

/-! ## The final verification -/

def digestAt (blob : Bytes) (i : ℕ) : Digest := Vector.ofFn (fun k => blob.getD (16 * i + k) 0)

def readPart (md4 : Bytes → Digest) (job : Job) (file : File) (i : ℕ) : Option Digest :=
  let span := partSpan i job.totalBytes job.partSize
  if span.2 - span.1 ≤ (file.1.drop span.1).length then
    some (md4 (part file.1 i job.totalBytes job.partSize))
  else none

def diskHashes (md4 : Bytes → Digest) (job : Job) (file : File) : Option (List Digest) :=
  (List.range (partCount job.totalBytes job.partSize)).mapM (readPart md4 job file)

/-- `finalize_and_verify`: the rows after it, and its result. -/
def finalizeAndVerify (md4 : Bytes → Digest) (job : Job) (temp : Option File)
    (rows : List BlockRow) (hashsetRow : Option Bytes) :
    List BlockRow × Except DownloadError Unit :=
  let count := partCount job.totalBytes job.partSize
  match temp.bind (diskHashes md4 job) with
  | none => (rows, .error (.io "read failed"))
  | some disk =>
    if count = 1 then
      if disk[0]? = some job.rootHash then (rows, .ok ())
      else (markMissing rows [0], .error (.ed2kIntegrity "single block hash mismatch"))
    else
      match hashsetRow with
      | none => (rows, .error (.ed2k "hashset missing in db"))
      | some blob =>
        if blob.length ≠ count * 16 then (rows, .error (.ed2k "hashset blob length mismatch"))
        else
          let bad := (List.range count).filter (fun i => disk[i]? ≠ some (digestAt blob i))
          if bad ≠ [] then
            (markMissing rows bad, .error (.ed2kIntegrity "disk block hash mismatch"))
          else if computeRoot md4 (buildRootInput disk job.totalBytes job.partSize) ≠ job.rootHash then
            (markMissing rows (List.range count),
              .error (.ed2kIntegrity "recomputed root mismatch (corrupt hashset table?)"))
          else (rows, .ok ())

def RootOf (md4 : Bytes → Digest) (job : Job) (disk : List Digest) : Prop :=
  if partCount job.totalBytes job.partSize = 1 then disk[0]? = some job.rootHash
  else computeRoot md4 (buildRootInput disk job.totalBytes job.partSize) = job.rootHash

/-- The verification passes on the root and changes no row, or it fails and some rows are missing. -/
theorem finalizeAndVerify_cases (md4 : Bytes → Digest) (job : Job) (temp : Option File)
    (rows : List BlockRow) (hashsetRow : Option Bytes) :
    ((finalizeAndVerify md4 job temp rows hashsetRow).2 = .ok () ∧
      (finalizeAndVerify md4 job temp rows hashsetRow).1 = rows ∧
        ∃ disk, temp.bind (diskHashes md4 job) = some disk ∧ RootOf md4 job disk) ∨
    ∃ error, (finalizeAndVerify md4 job temp rows hashsetRow).2 = .error error ∧
      ∃ is, (finalizeAndVerify md4 job temp rows hashsetRow).1 = markMissing rows is := by
  rw [finalizeAndVerify]
  cases hdisk : temp.bind (diskHashes md4 job) with
  | none => exact .inr ⟨_,rfl,[],rfl⟩
  | some disk =>
    by_cases hone : partCount job.totalBytes job.partSize = 1
    · by_cases hroot : disk[0]? = some job.rootHash
      · refine .inl ⟨?_,?_,disk,rfl,?_⟩
        · simp [hone, hroot]
        · simp [hone, hroot]
        · rw [RootOf, if_pos hone]
          exact hroot
      · simp only [hone, hroot, if_true, if_false]
        exact .inr ⟨_,rfl,[0],rfl⟩
    · cases hashsetRow with
      | none =>
        simp only [hone, if_false]
        exact .inr ⟨_,rfl,[],rfl⟩
      | some blob =>
        simp only [hone, if_false]
        split_ifs with hlen hbad hroot
        · exact .inr ⟨_,rfl,[],rfl⟩
        · exact .inr ⟨_,rfl,_,rfl⟩
        · exact .inr ⟨_,rfl,_,rfl⟩
        · refine .inl ⟨rfl,rfl,disk,rfl,?_⟩
          rw [RootOf, if_neg hone]
          exact not_not.mp hroot

/-! ## The run -/

/-- Where the run is; `reloading` follows a round of the block loop that has ended with success. -/
inductive RunPhase where
  | preparing
  | loading
  | reloading
  | finalizing
  | top
  | filling
  | refreshing
  | waiting
  | renaming
  | returned (result : Except DownloadError ℤ)

structure Download where
  job : Job
  segmentCount : ℤ
  shared : Shared
  finalFile : Option File
  rows : List BlockRow
  hashsetRow : Option Bytes
  phase : RunPhase
  pending : List ℕ
  concurrency : ℕ
  join : List BlockTask
  sources : List Source
  backoff : List Source
  integrityBl : List Source
  roundRobin : ℕ
  sourceRetries : ℕ
  finalizeRetries : ℕ
  strikes : ℕ → ℕ
  cancelled : Bool
  lost : List ℕ

/-- `as i64`. -/
def toI64 (n : ℕ) : ℤ := if n < 2 ^ 63 then n else n - 2 ^ 64

namespace Download

variable (s : Download)

def blockCount : ℕ := partCount s.job.totalBytes s.job.partSize

def isSingle : Bool := s.blockCount = 1

/-- The run returns; the tasks of a round go with it. -/
def giveUp (error : DownloadError) : Download :=
  { s with phase := .returned (.error error), join := [] }

/-- The temporary file and the rows, and the end of a run for an empty file. -/
def prepare : Download :=
  let blockCount := s.blockCount
  let prepared : Option Download :=
    if s.shared.temp.map (fun file => file.1.length) = some s.job.totalBytes then
      some { s with rows := initEd2kBlocks s.rows blockCount }
    else
      (File.setLen s.job.totalBytes).map (fun file =>
        { s with
          shared := { s.shared with temp := some file }
          rows := markMissing (initEd2kBlocks s.rows blockCount) (List.range blockCount) })
  match prepared with
  | none => s.giveUp (.io "set_len failed")
  | some t =>
    if t.job.totalBytes = 0 then
      if t.job.rootHash = md4Empty then { t with phase := .renaming }
      else t.giveUp (.ed2kIntegrity "0-byte file root hash mismatch")
    else { t with phase := .loading }

/-- The start of a round: the rows decide what is pending. -/
def load : Download :=
  let pending := (s.rows.filter (fun r => r.state ≠ blockVerified)).map BlockRow.index
  if pending = [] then { s with phase := .finalizing, pending := [], join := [], lost := [] }
  else
    { s with
      phase := .top
      pending
      concurrency := ed2kConcurrency s.segmentCount pending.length
      join := []
      lost := [] }

def finalize (md4 : Bytes → Digest) : Download :=
  let result := finalizeAndVerify md4 s.job s.shared.temp s.rows s.hashsetRow
  let t := { s with rows := result.1 }
  match result.2 with
  | .ok () => { t with phase := .renaming }
  | .error error =>
    if error.isIntegrity ∧ s.finalizeRetries < finalizeMaxRetries then
      { t with phase := .loading, finalizeRetries := s.finalizeRetries + 1 }
    else t.giveUp error

def enter : Download := if s.cancelled then s.giveUp .cancelled else { s with phase := .filling }

/-- The end of the filling of a round. -/
def leaveFilling : Download :=
  if s.join = [] then
    if s.pending = [] then { s with phase := .reloading } else { s with phase := .refreshing }
  else { s with phase := .waiting }

def fill : Download :=
  if s.join.length < s.concurrency ∧ s.pending ≠ [] then
    match pickSource s.sources s.backoff s.integrityBl s.roundRobin, s.pending with
    | (some source, roundRobin), index :: rest =>
      { s with
        pending := rest
        join := s.join ++ [⟨index,source,.connecting⟩]
        roundRobin }
    | (_, roundRobin), _ => { s with roundRobin }.leaveFilling
  else s.leaveFilling

def refresh (merged : List Source) : Download :=
  if merged ≠ [] then
    { s with phase := .top, sources := merged, backoff := [], sourceRetries := 0 }
  else
    let t := { s with sourceRetries := s.sourceRetries + 1 }
    if maxSourceRetries ≤ t.sourceRetries then t.giveUp (.ed2k "no sources found for this ed2k file")
    else { t with phase := .top }

def matchesBlock (index : ℕ) (digest : Digest) : Bool :=
  if s.isSingle then digest = s.job.rootHash
  else (s.shared.hashsetCache.bind (fun hashes => hashes[index]?)) = some digest

def storeBlock (stored : Bool) (index : ℕ) (state downloadedBytes : ℤ) (bumpRetry : Bool) :
    List BlockRow :=
  if stored then updateEd2kBlock s.rows index state downloadedBytes bumpRetry else s.rows

/-- What the loop does with the result of a task that it has taken out of `join`; `stored` and `saved`
tell which writes to the database have succeeded. -/
def handle (task : BlockTask) (stored saved : Bool) : Option Download :=
  let span := partSpan task.index s.job.totalBytes s.job.partSize
  match task.phase with
  | .panicked => some { s with phase := .top, lost := task.index :: s.lost }
  | .finished (.ok digest) =>
    if s.matchesBlock task.index digest then
      some { s with
        phase := .top
        rows := s.storeBlock stored task.index blockVerified (toI64 (span.2 - span.1)) false
        hashsetRow := if saved ∧ !s.isSingle then
            (s.shared.hashsetCache.map (fun hashes => hashes.flatMap Vector.toList)).or s.hashsetRow
          else s.hashsetRow
        lost := if stored then s.lost else task.index :: s.lost }
    else
      let t := { s with
        phase := .top
        rows := s.storeBlock stored task.index blockMissing 0 true
        pending := s.pending ++ [task.index]
        strikes := Function.update s.strikes task.index (s.strikes task.index + 1)
        integrityBl := task.source :: s.integrityBl }
      some (if blockMaxRetries ≤ t.strikes task.index then
        t.giveUp (.ed2kIntegrity "block irrecoverable") else t)
  | .finished (.error error) =>
    let t := { s with
      phase := .top
      rows := s.storeBlock stored task.index blockMissing 0 false
      pending := s.pending ++ [task.index] }
    some (if error.isIntegrity then { t with integrityBl := task.source :: s.integrityBl }
      else { t with backoff := task.source :: s.backoff })
  | _ => none

end Download

inductive Label where
  | prepare
  | load
  | finalize
  | enter
  | fill
  | refresh (merged : List Source)
  | joinNext (k : ℕ) (stored saved : Bool)
  | task (k : ℕ) (event : Event)
  | cancel
  | interrupt
  | fail (error : DownloadError)
  | rename

/-- One step; `fail` is an error of the disk or of the database that ends the run. -/
def step (md4 : Bytes → Digest) (s : Download) : Label → Option Download
  | .prepare =>
    match s.phase with
    | .preparing => some s.prepare
    | _ => none
  | .load =>
    match s.phase with
    | .loading => some s.load
    | .reloading => some s.load
    | _ => none
  | .finalize =>
    match s.phase with
    | .finalizing => some (s.finalize md4)
    | _ => none
  | .enter =>
    match s.phase with
    | .top => some s.enter
    | _ => none
  | .fill =>
    match s.phase with
    | .filling => some s.fill
    | _ => none
  | .refresh merged =>
    match s.phase with
    | .refreshing => some (s.refresh merged)
    | _ => none
  | .joinNext k stored saved =>
    match s.phase, s.join[k]? with
    | .waiting, some task => { s with join := s.join.eraseIdx k }.handle task stored saved
    | _, _ => none
  | .task k event =>
    match s.join[k]? with
    | some task =>
      (Ed2kBlockTask.step md4 s.job task s.shared event).map (fun result =>
        { s with join := s.join.set k result.1, shared := result.2 })
    | none => none
  | .cancel => some { s with cancelled := true }
  | .interrupt =>
    match s.phase with
    | .refreshing => if s.cancelled then some (s.giveUp .cancelled) else none
    | _ => none
  | .fail error =>
    match s.phase with
    | .preparing => some (s.giveUp error)
    | .loading => some (s.giveUp error)
    | .reloading => some (s.giveUp error)
    | .finalizing => if error.isIntegrity then none else some (s.giveUp error)
    | .renaming => some (s.giveUp error)
    | _ => none
  | .rename =>
    match s.phase, s.shared.temp with
    | .renaming, some file =>
      some { s with
        phase := .returned (.ok (toI64 s.job.totalBytes))
        finalFile := some file
        shared := { s.shared with temp := none } }
    | _, _ => none

structure Initial (s : Download) : Prop where
  phase : s.phase = .preparing
  partSize : 0 < s.job.partSize
  totalBytes : s.job.totalBytes < 2 ^ 64
  ordered : (s.rows.map BlockRow.index).Pairwise (· < ·)
  hashsetCache : s.shared.hashsetCache = none
  pending : s.pending = []
  join : s.join = []
  sources : s.sources = []
  roundRobin : s.roundRobin = 0
  lost : s.lost = []

end RinaDown.Ed2kDownload
