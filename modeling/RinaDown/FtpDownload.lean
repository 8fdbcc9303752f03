import RinaDown.SegmentLayout
import RinaDown.SourcedFiles

/-!
# FTP downloads

A run downloads a file over FTP, by one stream or in segments, to a temporary file. A single
stream resumes from the length of the file, the segments from their rows. Every byte of the file
is taken with the size that the server reported in the run, and the offset in the server's file. A
run is stopped at any point, and one that was cancelled may still go on beside the next.
-/

namespace RinaDown.FtpDownload

open SegmentLayout SourcedFiles

structure Origin where
  total : ℤ
  offset : ℤ
deriving DecidableEq

abbrev TempFile := File Origin

def fileLen (file : Option TempFile) : ℤ := (file.map File.len).getD 0

/-! ## Rows -/

def dbDownloaded (rows : List SegmentRow) : ℤ := (rows.map (·.downloadedBytes)).sum

/-- The end that the last segment plans. -/
def lastEnd (rows : List SegmentRow) : ℤ := (rows.getLast?.map (·.endByte)).getD (-1)

def resetSegmentsProgress (rows : List SegmentRow) : List SegmentRow :=
  rows.map fun row => { row with downloadedBytes := 0 }

def updateSegmentProgressBounded (rows : List SegmentRow) (index downloaded startByte : ℤ) :
    List SegmentRow :=
  rows.map fun row =>
    if row.index = index ∧ row.startByte = startByte then
      { row with
        downloadedBytes :=
          if downloaded > row.endByte - row.startByte + 1 then row.endByte - row.startByte + 1
          else downloaded }
    else row

/-- The rows of a plan, in the order of the loop over `0..segment_count`. -/
def freshRow (count total : ℤ) (i : ℕ) : SegmentRow where
  index := i
  startByte := i * total.tdiv count
  endByte := if (i : ℤ) = count - 1 then total - 1 else (i + 1) * total.tdiv count - 1
  downloadedBytes := 0

def clampCount (segments total : ℤ) : ℤ := if segments > total then max total 1 else max segments 1

def freshRows (segments total : ℤ) : List SegmentRow :=
  (List.range (clampCount segments total).toNat).map (freshRow (clampCount segments total) total)

/-! ## Runs -/

/-- One transfer: where it starts, what is on the disk, and what has been received. -/
structure Writer where
  start : ℤ
  flushed : ℤ
  pos : ℤ
deriving DecidableEq

inductive Result where
  | ok
  | cancelled
  | failed
deriving DecidableEq

inductive WorkerPhase where
  | running (writer : Writer)
  | waiting (start : ℤ)
  | ended (result : Result)
deriving DecidableEq

structure Worker where
  index : ℤ
  startByte : ℤ
  endByte : ℤ
  attempts : ℕ
  phase : WorkerPhase
deriving DecidableEq

/-- The first four prepare a download in segments. -/
inductive Phase where
  | resetting
  | dropping
  | planning
  | allocating
  | working (workers : List Worker)
  | opening (attempts : ℕ)
  | creating (attempts : ℕ)
  | writing (attempts : ℕ) (writer : Writer)
  | checking (replied : Bool)
deriving DecidableEq

/-- A run knows the size that the server reported, 0 for none. The server may ignore the offset at
which a transfer should start, and end the data without a positive reply. -/
structure Run where
  total : ℤ
  honours : Bool
  confirms : Bool
  segments : ℤ
  spawnGen : ℤ
  cancelled : Bool
  phase : Phase
deriving DecidableEq

/-- What a run renamed to the destination, and whether the transfer ended with a positive reply. -/
structure Completion where
  total : ℤ
  file : TempFile
  replied : Bool

/-- A task and its last run. `made` is the size for which the file was created and resumed, if
single streams alone have written it. -/
structure State where
  file : Option TempFile
  made : Option ℤ
  rows : List SegmentRow
  epoch : ℤ
  run : Option Run
  completed : List Completion

/-- What a run is started with: how many connections, what the rows, the advisor and the server
say, and how the probe of the server ends. -/
structure Params where
  isResume : Bool
  segmentCount : ℤ
  loaded : Bool
  advised : ℤ
  total : ℤ
  honours : Bool
  confirms : Bool
  probe : Option Bool
  spawnGen : ℤ
deriving DecidableEq

def Params.segments (p : Params) (rows : List SegmentRow) : ℤ :=
  if p.segmentCount ≤ 0 then
    if p.isResume = true ∧ p.loaded = true ∧ rows ≠ [] then rows.length else p.advised
  else p.segmentCount

def Params.wantsSegments (p : Params) (rows : List SegmentRow) : Bool :=
  0 < p.total && 1048576 < p.total && 1 < p.segments rows

def maxRetries : ℕ := 3

/-! ## Transfers -/

def Writer.source (r : Run) (w : Writer) (i : ℤ) : Origin :=
  ⟨r.total,if r.honours then i else i - w.start⟩

def Writer.spill (r : Run) (w : Writer) (n : ℤ) (f : TempFile) : TempFile :=
  f.write w.flushed (w.flushed + n) (w.source r)

def Writer.flush (r : Run) (w : Writer) (f : TempFile) : TempFile :=
  f.write w.flushed w.pos (w.source r)

/-- How the reader of a transfer ends: at the end of the data, after which the server's reply is
read and not looked at, because it saw that the run is cancelled, or with an error. -/
inductive ReaderEnd where
  | complete (replied : Bool)
  | stopped
  | failed
deriving DecidableEq

/-- What happens in a transfer. Data is received and goes to the disk later; progress is saved
after a flush; the channel is closed by the reader; the disk fails; the run is cancelled; the file
is not opened; and a segment is tried again. -/
inductive Event where
  | receive (n : ℤ)
  | spill (n : ℤ)
  | save (saved : Bool)
  | close (reader : ReaderEnd) (flushed saved : Bool)
  | writeFailed (saved : Bool)
  | cancelled (flushed saved : Bool)
  | openFailed
  | retry (loaded : Bool)
deriving DecidableEq

/-! ## Segments -/

def Worker.become (w : Worker) (phase : WorkerPhase) : Worker := { w with phase }

/-- After an error a segment is tried again, three times in all. -/
def Worker.fail (w : Worker) (start : ℤ) : Worker :=
  { w with
    attempts := w.attempts + 1
    phase := if maxRetries ≤ w.attempts + 1 then .ended .failed else .waiting start }

/-- A write that the database refuses, or whose epoch is not that of the task, is lost. -/
def saveProgress (s : State) (r : Run) (w : Worker) (pos : ℤ) (saved : Bool) : List SegmentRow :=
  if saved = true ∧ s.epoch = r.spawnGen then
    updateSegmentProgressBounded s.rows w.index (pos - w.startByte) w.startByte
  else s.rows

/-- Where a segment is tried again. -/
def resumeAt (rows : List SegmentRow) (w : Worker) (start : ℤ) (loaded : Bool) : ℤ :=
  match rows.find? fun row => row.index = w.index with
  | some row => if loaded then w.startByte + row.downloadedBytes else start
  | none => start

def runningEvent (s : State) (r : Run) (f : TempFile) (w : Worker) (a : Writer) :
    Event → Option (TempFile × List SegmentRow × Worker)
  | .receive n =>
      if 0 < n ∧ a.pos + n ≤ w.endByte + 1 then
        some (f, s.rows, w.become (.running { a with pos := a.pos + n }))
      else none
  | .spill n =>
      if 0 < n ∧ a.flushed + n ≤ a.pos then
        some (a.spill r n f, s.rows, w.become (.running { a with flushed := a.flushed + n }))
      else none
  | .save saved =>
      some (a.flush r f, saveProgress s r w a.pos saved,
        w.become (.running { a with flushed := a.pos }))
  | .close _ false _ => some (f, s.rows, w.fail a.start)
  | .close (.complete _) true saved =>
      if a.pos = w.endByte + 1 then
        some (a.flush r f, saveProgress s r w a.pos saved, w.become (.ended .ok))
      else none
  | .close .stopped true saved =>
      if r.cancelled = true then
        some (a.flush r f, saveProgress s r w a.pos saved, w.become (.ended .ok))
      else none
  | .close .failed true saved =>
      some (a.flush r f, saveProgress s r w a.pos saved, w.fail a.start)
  | .writeFailed saved => some (f, saveProgress s r w a.pos saved, w.fail a.start)
  | .cancelled flushed saved =>
      if r.cancelled = true then
        some (if flushed then a.flush r f else f, saveProgress s r w a.pos saved,
          w.become (.ended .cancelled))
      else none
  | .openFailed => some (f, s.rows, w.fail a.start)
  | .retry _ => none

def workerEvent (s : State) (r : Run) (f : TempFile) (w : Worker) (event : Event) :
    Option (TempFile × List SegmentRow × Worker) :=
  match w.phase with
  | .running a => runningEvent s r f w a event
  | .waiting start =>
      match event with
      | .retry loaded =>
          let start := resumeAt s.rows w start loaded
          some (f, s.rows, w.become
            (if w.endByte < start then .ended .ok else .running ⟨start,start,start⟩))
      | .cancelled _ _ =>
          if r.cancelled = true then some (f, s.rows, w.become (.ended .cancelled)) else none
      | _ => none
  | .ended _ => none

/-- The segments that have something left. -/
def spawnWorkers (rows : List SegmentRow) : List Worker :=
  (rows.filter fun row => row.startByte + row.downloadedBytes ≤ row.endByte).map fun row =>
    let start := row.startByte + row.downloadedBytes
    ⟨row.index,row.startByte,row.endByte,0,.running ⟨start,start,start⟩⟩

/-! ## Steps -/

inductive Label where
  | next (ok : Bool)
  | worker (k : ℕ) (event : Event)
  | open (deleted : Bool)
  | create (ok : Bool)
  | single (event : Event)
  | complete (ok : Bool)
  | cancel
deriving DecidableEq

def setPhase (s : State) (r : Run) (phase : Phase) : State := { s with run := some { r with phase } }

def stop (s : State) : State := { s with run := none }

/-- A server that ignores offsets is found by the probe. Without segments there are no rows. -/
def startRun (s : State) (p : Params) (epochSet deleted : Bool) : Option State :=
  let run (phase : Phase) : Run :=
    ⟨p.total,p.honours,p.confirms,p.segments s.rows,p.spawnGen,false,phase⟩
  if p.wantsSegments s.rows = true then
    if p.probe = some false then
      some { s with
        rows := if deleted then [] else s.rows
        run := some (run (.opening 0)) }
    else if p.honours = true then
      some { s with
        epoch := if epochSet then p.spawnGen else s.epoch
        run := some (run .resetting) }
    else none
  else some { s with run := some (run (.opening 0)) }

/-- Progress is reset if the file is not there or is shorter than what is counted. -/
def resetRows (file : Option TempFile) (rows : List SegmentRow) : List SegmentRow :=
  if 0 < dbDownloaded rows ∧ (fileLen file = 0 ∨ fileLen file < dbDownloaded rows) then
    resetSegmentsProgress rows
  else rows

/-- A plan for another size is deleted. -/
def dropRows (total : ℤ) (rows : List SegmentRow) : List SegmentRow :=
  if rows ≠ [] ∧ 0 < total ∧ lastEnd rows ≠ total - 1 then [] else rows

def planRows (r : Run) (rows : List SegmentRow) : List SegmentRow :=
  if rows = [] then freshRows r.segments r.total else rows

def nextPhase (s : State) (r : Run) : Phase → Option State
  | .resetting => some (setPhase { s with rows := resetRows s.file s.rows } r .dropping)
  | .dropping => some (setPhase { s with rows := dropRows r.total s.rows } r .planning)
  | .planning => some (setPhase { s with rows := planRows r s.rows } r .allocating)
  | .allocating =>
      some (setPhase { s with file := some ((s.file.getD empty).extend r.total), made := none } r
        (.working (spawnWorkers s.rows)))
  | _ => none

/-- A single stream resumes a file that is shorter than the size. -/
def resumes (r : Run) (file : Option TempFile) : Bool :=
  0 < r.total && 0 < fileLen file && fileLen file < r.total

/-- After an error a single stream is tried again, three times in all. -/
def retrySingle (s : State) (r : Run) (attempts : ℕ) : State :=
  if maxRetries ≤ attempts + 1 then stop s else setPhase s r (.opening (attempts + 1))

def singleEvent (s : State) (r : Run) (f : TempFile) (attempts : ℕ) (a : Writer) :
    Event → Option State
  | .receive n =>
      if 0 < n then some (setPhase s r (.writing attempts { a with pos := a.pos + n })) else none
  | .spill n =>
      if 0 < n ∧ a.flushed + n ≤ a.pos then
        some (setPhase { s with file := some (a.spill r n f) } r
          (.writing attempts { a with flushed := a.flushed + n }))
      else none
  | .save _ =>
      some (setPhase { s with file := some (a.flush r f) } r
        (.writing attempts { a with flushed := a.pos }))
  | .close _ false _ => some (retrySingle s r attempts)
  | .close (.complete replied) true _ =>
      if r.confirms = true → replied = true then
        some (setPhase { s with file := some (a.flush r f) } r (.checking replied))
      else none
  | .close .stopped true _ =>
      if r.cancelled = true then
        some (setPhase { s with file := some (a.flush r f) } r (.checking false))
      else none
  | .close .failed true _ => some (retrySingle { s with file := some (a.flush r f) } r attempts)
  | .writeFailed _ => some (retrySingle s r attempts)
  | .cancelled flushed _ =>
      if r.cancelled = true then
        some (stop { s with file := some (if flushed then a.flush r f else f) })
      else none
  | .openFailed => some (retrySingle s r attempts)
  | .retry _ => none

def rename (s : State) (total : ℤ) (f : TempFile) (replied : Bool) : State :=
  { s with file := none, run := none, completed := s.completed ++ [⟨total,f,replied⟩] }

/-- A file of another length than the size is refused, and one that is longer is removed. -/
def completeSingle (s : State) (r : Run) (f : TempFile) (replied ok : Bool) : State :=
  if 0 < r.total ∧ f.len ≠ r.total then
    stop { s with file := if r.total < f.len then none else some f }
  else if ok then rename s r.total f replied
  else stop s

/-- The progress of the rows adds up, and the file is not shorter than the size. -/
def completeSegments (s : State) (r : Run) (f : TempFile) (workers : List Worker) (ok : Bool) :
    State :=
  if (∀ w ∈ workers, w.phase = .ended .ok) ∧ dbDownloaded s.rows = r.total ∧ r.total ≤ f.len ∧
      ok = true then
    rename s r.total f false
  else stop s

def Worker.hasEnded (w : Worker) : Bool :=
  match w.phase with
  | .ended _ => true
  | _ => false

def runStep (s : State) (r : Run) : Label → Option State
  | .next ok => if ok then nextPhase s r r.phase else some (stop s)
  | .worker k event =>
      match r.phase, s.file with
      | .working workers, some f =>
          match workers[k]? with
          | some w =>
              (workerEvent s r f w event).map fun (f, rows, w) =>
                setPhase { s with file := some f, rows } r (.working (workers.set k w))
          | none => none
      | _, _ => none
  | .open deleted =>
      match r.phase with
      | .opening attempts =>
          if resumes r s.file = true then
            let len := fileLen s.file
            let made := if s.made = some r.total then s.made else none
            some (setPhase { s with made } r (.writing attempts ⟨len,len,len⟩))
          else
            some (setPhase { s with rows := if deleted then [] else s.rows } r
              (.creating attempts))
      | _ => none
  | .create ok =>
      match r.phase with
      | .creating attempts =>
          if ok then
            some (setPhase { s with file := some empty, made := some r.total } r
              (.writing attempts ⟨0,0,0⟩))
          else some (retrySingle s r attempts)
      | _ => none
  | .single event =>
      match r.phase, s.file with
      | .writing attempts a, some f => singleEvent s r f attempts a event
      | _, _ => none
  | .complete ok =>
      match r.phase, s.file with
      | .checking replied, some f => some (completeSingle s r f replied ok)
      | .working workers, some f =>
          if workers.all Worker.hasEnded then some (completeSegments s r f workers ok) else none
      | _, _ => none
  | .cancel => some { s with run := some { r with cancelled := true } }

/-- A task, with the runs before the last one that have not ended. -/
structure Task where
  state : State
  earlier : List Run

def initial (file : Option TempFile) : Task := ⟨⟨file,none,[],0,none,[]⟩,[]⟩

inductive Action where
  | start (p : Params) (epochSet deleted : Bool)
  | last (label : Label)
  | earlier (k : ℕ) (label : Label)
  | crash
  | deleteTemp
deriving DecidableEq

def putBack (earlier : List Run) (k : ℕ) : Option Run → List Run
  | some r => earlier.set k r
  | none => earlier.eraseIdx k

/-- A cancelled run is not waited for: the next one is started beside it. -/
def step (t : Task) : Action → Option Task
  | .start p epochSet deleted =>
      (startRun t.state p epochSet deleted).map fun s => ⟨s,t.state.run.toList ++ t.earlier⟩
  | .last label =>
      t.state.run.bind fun r => (runStep t.state r label).map fun s => ⟨s,t.earlier⟩
  | .earlier k label =>
      t.earlier[k]?.bind fun r =>
        (runStep { t.state with run := some r } r label).map fun s =>
          ⟨{ s with run := t.state.run },putBack t.earlier k s.run⟩
  | .crash => some ⟨stop t.state,[]⟩
  | .deleteTemp => some ⟨{ t.state with file := none },t.earlier⟩

end RinaDown.FtpDownload
