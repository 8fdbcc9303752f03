import RinaDown.HlsCheckpoint
import RinaDown.HlsSegments

/-!
# The download of a media playlist

A task is run until it completes, and every run is given the playlist that the server answers
with. A run starts the temp file again or continues it at the saved checkpoint, and one writer
appends the segments in order. It ends by a rename, by a failure, or by a crash, in which the
bytes that were not flushed may be lost.
-/

namespace RinaDown.HlsDownload

open CharacterPatterns LengthFraming HlsSegments HlsCheckpoint Texts

/-! ## The temp file -/

/-- The content of the temp file, of which the first `flushed` bytes cannot be lost. -/
structure TempFile where
  content : Bytes
  flushed : ℕ
deriving Repr, DecidableEq

/-- The end of a write. Writes are carried out in the background, so a failed one is reported
by a later write or by the flush; `kept` bytes of the file are then left. -/
inductive Write where
  | done
  | failed (kept : ℕ) (rolledBack : Bool)
deriving Repr, DecidableEq

def TempFile.append (f : TempFile) (data : Bytes) : TempFile :=
  { f with content := f.content ++ data }

def TempFile.lose (f : TempFile) (kept : ℕ) : TempFile :=
  { f with content := f.content.take (max kept f.flushed) }

/-- `File::set_len`: the file is cut, or filled up with zeros. -/
def TempFile.setLen (f : TempFile) (size : ℕ) : TempFile :=
  { f with content := f.content.take size ++ List.replicate (size - f.content.length) 0 }

/-- `File::flush`, which may report a failed write. -/
def TempFile.flush (f : TempFile) : Option ℕ → TempFile
  | none => { f with flushed := f.content.length }
  | some kept => f.lose kept

def TempFile.writeLimited (f : TempFile) (data : Bytes) (rollbackTo : ℕ) : Write → TempFile × Bool
  | .done => (f.append data, true)
  | .failed kept rolledBack =>
      let lost := (f.append data).lose kept
      (if rolledBack then lost.setLen rollbackTo else lost, false)

/-! ## The state of a task -/

/-- The run of a task: the segments that are still to arrive, those that wait for their turn,
and whether the initialization segment of the next one is written. -/
structure Writer where
  playlist : MediaPlaylist
  nextToWrite : ℕ
  downloadedBytes : ℕ
  producers : List ℕ
  pending : List (ℕ × Bytes)
  initCache : List (HlsInitMap × Bytes)
  initWritten : Bool
  failed : Bool
deriving DecidableEq

/-- The temp file, the saved checkpoint and the run. `savedFor` is the playlist whose writer
saved the checkpoint, as long as the temp file was not created anew since, and `renamed` the
playlist and the content of every file that a run completed; no step reads them. -/
structure Download where
  temp : Option TempFile
  checkpoint : Option Text
  writer : Option Writer
  savedFor : Option MediaPlaylist
  renamed : List (MediaPlaylist × Bytes)
deriving DecidableEq

/-- What a run is given, and which of its operations succeed before it writes. -/
structure Start where
  isResume : Bool
  playlist : MediaPlaylist
  readOk : Bool
  sizeOk : Bool
  truncateOk : Bool
  openOk : Bool
  deleteOk : Bool

inductive Label where
  | started (start : Start)
  | received (idx : ℕ) (ok : Bool)
  | cancelled
  | wroteInit (fetched : Bool) (write : Write)
  | wroteSegment (write : Write) (saved : Bool)
  | stopped (lost : Option ℕ)
  | finished (lost : Option ℕ) (deleteOk renameOk : Bool)
  | crashed (extra kept : ℕ)

variable (host : Host) (s : Download)

/-! ## The start of a run -/

def Download.fileSize : ℕ := (s.temp.map (·.content.length)).getD 0

def Download.savedCheckpoint (start : Start) : ℕ × ℤ × Option ℕ :=
  match if start.readOk then s.checkpoint else none with
  | some text => parseResumeCheckpoint text
  | none => (0, 0, none)

def usesComputedIv (segments : List HlsSegment) : Bool :=
  segments.any fun segment => segment.key.any fun k => k.method = .aes128 ∧ k.iv = none

def mediaSeqChanged (playlist : MediaPlaylist) : Option ℕ → Bool
  | some prev => prev ≠ playlist.mediaSequence
  | none => usesComputedIv playlist.segments

/-- The segment and the size at which a resumed run continues, if it does. -/
def Download.resumePoint (start : Start) : Option (ℕ × ℕ) :=
  let saved := s.savedCheckpoint start
  let fileSize := if start.sizeOk then s.fileSize else 0
  if 0 < saved.1 ∧ 0 < fileSize ∧ 0 < saved.2.1 ∧
      mediaSeqChanged start.playlist saved.2.2 = false then
    some (saved.1, (min saved.2.1 fileSize).toNat)
  else none

/-- One producer for each segment that is left. -/
def newWriter (playlist : MediaPlaylist) (skipSegments downloadedBytes : ℕ) : Writer where
  playlist := playlist
  nextToWrite := skipSegments
  downloadedBytes := downloadedBytes
  producers := (List.range playlist.segments.length).drop skipSegments
  pending := []
  initCache := []
  initWritten := false
  failed := false

/-- The temp file is created anew. A run that is no resume deletes the checkpoint first. -/
def Download.startAnew (start : Start) : Download :=
  let cleaned :=
    if start.isResume || !start.deleteOk then s else { s with checkpoint := none, savedFor := none }
  if start.openOk then
    { cleaned with
      temp := some ⟨[],0⟩
      savedFor := none
      writer := some (newWriter start.playlist 0 0) }
  else cleaned

/-- The temp file is cut at the size and opened for appending. -/
def Download.continueAt (start : Start) (skipSegments size : ℕ) : Download :=
  if size < s.fileSize ∧ start.truncateOk = false then s
  else
    let kept := ((s.temp.map (·.content)).getD []).take size
    let truncated := { s with temp := some ⟨kept,kept.length⟩ }
    if start.openOk then
      { truncated with writer := some (newWriter start.playlist skipSegments size) }
    else truncated

def Download.start (start : Start) : Download :=
  match if start.isResume then s.resumePoint start else none with
  | some (skipSegments, size) => s.continueAt start skipSegments size
  | none => s.startAnew start

/-! ## The writer -/

def Writer.inLoop (w : Writer) : Bool :=
  !w.failed && decide (w.nextToWrite < w.playlist.segments.length)

/-- The segment that is written next, if it has arrived. -/
def Writer.next (w : Writer) : Option Bytes := w.pending.lookup w.nextToWrite

/-- The initialization segment comes before the next segment. -/
def Writer.wantsInit (w : Writer) : Bool :=
  needsInitSegment w.playlist.segments w.nextToWrite && !w.initWritten

def Download.fail (w : Writer) (f : TempFile) : Download :=
  { s with temp := some f, writer := some { w with failed := true } }

def Download.receive (w : Writer) (f : TempFile) (idx : ℕ) (ok : Bool) : Download :=
  match if ok then segmentData host w.playlist idx else none with
  | some data =>
      { s with
        writer := some { w with
          producers := w.producers.erase idx
          pending := (idx, data) :: w.pending } }
  | none => s.fail w f

def fetchInitSegment (cache : List (HlsInitMap × Bytes)) (map : HlsInitMap) (ok : Bool) :
    Option (Bytes × List (HlsInitMap × Bytes)) :=
  match cache.lookup map with
  | some data => some (data, cache)
  | none =>
      if ok then
        (downloadSegment host map.uri map.byteRange).map fun data => (data, (map, data) :: cache)
      else none

def Download.writeInit (w : Writer) (f : TempFile) (map : HlsInitMap) (fetched : Bool)
    (write : Write) : Download :=
  match fetchInitSegment host w.initCache map fetched with
  | none => s.fail w f
  | some (data, cache) =>
      let written := f.writeLimited data w.downloadedBytes write
      if written.2 then
        { s with
          temp := some written.1
          writer := some { w with
            initCache := cache
            initWritten := true
            downloadedBytes := w.downloadedBytes + data.length } }
      else s.fail w written.1

/-- The next segment is appended and the checkpoint is saved. -/
def Download.writeSegment (w : Writer) (f : TempFile) (data : Bytes) (write : Write)
    (saved : Bool) : Download :=
  let written := f.writeLimited data w.downloadedBytes write
  if written.2 then
    let w' := { w with
      nextToWrite := w.nextToWrite + 1
      downloadedBytes := w.downloadedBytes + data.length
      pending := w.pending.filter (·.1 ≠ w.nextToWrite)
      initWritten := false }
    let advanced := { s with temp := some written.1, writer := some w' }
    if saved then
      { advanced with
        checkpoint := some (formatCheckpoint w'.nextToWrite w'.downloadedBytes
          w.playlist.mediaSequence)
        savedFor := some w.playlist }
    else advanced
  else s.fail w written.1

/-- All segments are written: the flush, the deletion of the checkpoint and the rename. -/
def Download.finish (w : Writer) (f : TempFile) (lost : Option ℕ) (deleteOk renameOk : Bool) :
    Download :=
  let flushed := { s with temp := some (f.flush lost), writer := none }
  if lost.isSome then flushed
  else
    let cleaned := if deleteOk then { flushed with checkpoint := none, savedFor := none } else flushed
    if renameOk then
      { cleaned with temp := none, renamed := s.renamed ++ [(w.playlist, f.content)] }
    else cleaned

def Writer.currentBlock (w : Writer) : Bytes :=
  match if w.inLoop then w.next else none with
  | none => []
  | some data => if w.wantsInit then initData host w.playlist w.nextToWrite else data

/-- The process ends: some bytes of the current block may have been written, and bytes that
were not flushed may be lost. -/
def Download.crash (w : Writer) (f : TempFile) (extra kept : ℕ) : Download :=
  { s with
    temp := some ((f.append ((w.currentBlock host).take extra)).lose kept)
    writer := none }

/-- A step of the run. Cancellation is seen between two segments. -/
def Download.writerStep (w : Writer) (f : TempFile) : Label → Option Download
  | .started _ => none
  | .received idx ok =>
      if w.inLoop && w.next.isNone && decide (idx ∈ w.producers) then some (s.receive host w f idx ok)
      else none
  | .cancelled => if w.inLoop && !w.initWritten then some (s.fail w f) else none
  | .wroteInit fetched write =>
      match w.playlist.segments[w.nextToWrite]?.bind (·.map) with
      | none => none
      | some map =>
          if w.inLoop && w.next.isSome && w.wantsInit then
            some (s.writeInit host w f map fetched write)
          else none
  | .wroteSegment write saved =>
      match w.next with
      | none => none
      | some data =>
          if w.inLoop && !w.wantsInit then some (s.writeSegment w f data write saved) else none
  | .stopped lost =>
      if w.failed then some { s with temp := some (f.flush lost), writer := none } else none
  | .finished lost deleteOk renameOk =>
      if !w.failed && decide (w.playlist.segments.length ≤ w.nextToWrite) then
        some (s.finish w f lost deleteOk renameOk)
      else none
  | .crashed extra kept => some (s.crash host w f extra kept)

def step (s : Download) (a : Label) : Option Download :=
  match s.writer, s.temp, a with
  | none, _, .started start => if start.playlist.segments = [] then none else some (s.start start)
  | some w, some f, a => s.writerStep host w f a
  | _, _, _ => none

/-- A task before its first run. A temp file or a checkpoint may be left from elsewhere. -/
structure Initial (s : Download) : Prop where
  writer : s.writer = none
  savedFor : s.savedFor = none
  renamed : s.renamed = []

end RinaDown.HlsDownload
