import RinaDown.Finalization
import RinaDown.Saturation
import RinaDown.TaskRename

/-!
# The end of an HLS download

When all the segments are on disk the temporary file gets the name of the task,
which ends in `.ts`. A second track is fetched and muxed in if that works. What is
MP4 by then is renamed, a transport stream is remuxed, and the row gets the new
name. Every outcome of these steps is a parameter. A directory in the place of a
file makes the operations on it fail, so only files are entries.
-/

namespace RinaDown.HlsCompletion

open FileNames (forceTsExtension stemAndExtension tempExt)
open Finalization (Seen dedupFilename)
open Saturation (saturatingAdd)
open SingleStream (DownloadError)
open TaskRename (Volume)

/-! ## The directory -/

inductive Content where
  | video
  | audio
  | muxed
  | remuxed
  | unfinished
  deriving DecidableEq

/-- A file that was there before, or one that the task wrote. -/
inductive Entry (File : Type) where
  | other (file : File)
  | own (content : Content)
  deriving DecidableEq

abbrev Directory (File : Type) := List Char → Option (Entry File)

section
variable {File : Type} (fault : Option String) (d : Directory File) (k : List Char)

def write (content : Content) : Directory File := Function.update d k (some (.own content))

def removeQuietly : Directory File := if fault = none then Function.update d k none else d

def rename (target : List Char) : Except String (Directory File) :=
  match fault, d k with
  | some e, _ => .error e
  | none, none => .error "No such file or directory (os error 2)"
  | none, some entry => .ok (Function.update (Function.update d k none) target (some entry))

end

/-! ## Names -/

def withExtension (name ext : String) : String := (stemAndExtension name).1 ++ "." ++ ext

def hasExtension (name ext : String) : Bool :=
  ((stemAndExtension name).2.map fun e => e.toList.map Char.toLower) = some ext.toList

def audioName (video : String) : String := (stemAndExtension video).1 ++ ".audio.m4a"

def audioTempName (video : String) : String := audioName video ++ tempExt

/-- The container, and whether it takes the options of MOV files. -/
def muxContainerFor (name : String) : String × Bool :=
  if hasExtension name "webm" then ("webm", false)
  else if hasExtension name "mkv" then ("mkv", false)
  else if hasExtension name "m4v" ∨ hasExtension name "mov" then ("mov", true)
  else ("mp4", true)

def muxedTmpName (video : String) : String :=
  withExtension video ("muxed." ++ (muxContainerFor video).1)

def desiredName (video : String) : String := (stemAndExtension video).1 ++ ".mp4"

def mp4TmpName (target : String) : String := withExtension target "mp4.tmp"

def entryOf (v : Volume) (name : String) : List Char := name.toList.map v.fold

/-! ## Parameters -/

structure Params where
  actualName : String
  audioUrl : Option String
  fmp4 : Bool
  allowOverwrite : Bool
  downloadedBytes : ℤ
  deriving DecidableEq

inductive Operation where
  | rename
  | removeAudio
  | removeAudioTemp
  | createAudioTemp
  | renameAudio
  | renameMuxed
  | removeMuxedTmp
  | removeMuxedAudio
  | renameMp4
  | readTs
  | convert
  | createMp4Tmp
  | writeMp4Tmp
  | claim
  | removeOld
  | reclaim
  | removeUnclaimedTmp
  | renameMp4Tmp
  | removeClaim
  | removeUnrenamedTmp
  | removeMp4Tmp
  | updateFileInfo
  | removeTs
  | removeOrphan
  deriving DecidableEq

/-- How the run of ffmpeg ends, and whether it had opened its output. -/
inductive Ffmpeg where
  | notRun (opened : Bool) (message : String)
  | cancelled (opened : Bool)
  | failed (opened : Bool) (status stderr : String)
  | succeeded
  deriving DecidableEq

/-- What the steps meet: which operations fail, what the network, the volume and
ffmpeg answer, and what the choice of a name sees. -/
structure Outcomes where
  fault : Operation → Option String
  audioTrack : Except DownloadError ℤ
  muxSpace : Option ℕ
  ffmpeg : Ffmpeg
  tsLength : Option ℕ
  remuxSpace : Option ℕ
  seen : Seen
  mp4Length : Option ℕ

/-- The directory, and the row of the task. -/
structure Saved (File : Type) where
  directory : Directory File
  fileName : String
  totalBytes : ℤ

def precheckMargin : ℕ := 64 * 1024 * 1024

def maxRemuxBytes : ℕ := 512 * 1024 * 1024

/-- A volume that tells nothing is trusted. -/
def remuxSpaceOk (avail : Option ℕ) (fileLen : ℕ) : Bool :=
  avail.all fun a => saturatingAdd fileLen precheckMargin ≤ a

def expectedBytes (downloadedBytes : ℤ) : ℕ := (max downloadedBytes 0).toNat

/-- A length that is not known or does not fit is the length of what was fetched. -/
def mp4Size (length : Option ℕ) (downloadedBytes : ℤ) : ℤ :=
  ((length.filter fun n => n < 2 ^ 63).map Int.ofNat).getD downloadedBytes

/-! ## The steps -/

section
variable {File : Type} (v : Volume) (o : Outcomes)

/-- Leftovers of an earlier round go first. -/
def downloadAudioTrack (video : String) (d : Directory File) :
    Except DownloadError ℤ × Directory File :=
  let audio := entryOf v (audioName video)
  let audioTemp := entryOf v (audioTempName video)
  let cleared := removeQuietly (o.fault .removeAudioTemp)
    (removeQuietly (o.fault .removeAudio) d audio) audioTemp
  match o.fault .createAudioTemp with
  | some e => (.error (.io e), cleared)
  | none =>
    match o.audioTrack with
    | .error e => (.error e, write cleared audioTemp .unfinished)
    | .ok bytes =>
      match rename (o.fault .renameAudio) (write cleared audioTemp .audio) audioTemp audio with
      | .error e =>
        (.error (.other s!"failed to rename {audioTempName video} -> {audioName video}: {e}"),
          write cleared audioTemp .audio)
      | .ok renamed => (.ok bytes, renamed)

def openMuxedTmp (opened : Bool) (d : Directory File) (muxedTmp : List Char) : Directory File :=
  if opened then write d muxedTmp .unfinished else d

def muxAudioVideo (video : String) (expected : ℕ) (d : Directory File) :
    Except DownloadError Unit × Directory File :=
  let muxedTmp := entryOf v (muxedTmpName video)
  if remuxSpaceOk o.muxSpace expected = false then
    (.error (.other (s!"insufficient disk space for mux: need ~{expected}B + margin, have " ++
      s!"{o.muxSpace.getD 0}B")), d)
  else
    match o.ffmpeg with
    | .notRun opened e =>
      (.error (.other s!"failed to run ffmpeg: {e}"), openMuxedTmp opened d muxedTmp)
    | .cancelled opened =>
      (.error .cancelled,
        removeQuietly (o.fault .removeMuxedTmp) (openMuxedTmp opened d muxedTmp) muxedTmp)
    | .failed opened status stderr =>
      (.error (.other s!"ffmpeg exited with {status}: {String.ofList (stderr.toList.take 500)}"),
        removeQuietly (o.fault .removeMuxedTmp) (openMuxedTmp opened d muxedTmp) muxedTmp)
    | .succeeded =>
      match rename (o.fault .renameMuxed) (write d muxedTmp .muxed) muxedTmp (entryOf v video) with
      | .error e =>
        (.error (.other s!"failed to replace video with muxed file: {e}"),
          removeQuietly (o.fault .removeMuxedTmp) (write d muxedTmp .muxed) muxedTmp)
      | .ok renamed => (.ok (), renamed)

/-- The second track: whether it was muxed in, and the bytes fetched so far. Only a
cancellation ends the download. -/
def addAudio (p : Params) (video : String) (d : Directory File) :
    Except DownloadError (Bool × ℤ) × Directory File :=
  match p.audioUrl with
  | none => (.ok (false, p.downloadedBytes), d)
  | some _ =>
    match downloadAudioTrack v o video d with
    | (.error .cancelled, d) => (.error .cancelled, d)
    | (.error _, d) => (.ok (false, p.downloadedBytes), d)
    | (.ok audioBytes, d) =>
      match muxAudioVideo v o video (expectedBytes (p.downloadedBytes + audioBytes)) d with
      | (.error .cancelled, d) => (.error .cancelled, d)
      | (.error _, d) => (.ok (false, p.downloadedBytes + audioBytes), d)
      | (.ok (), d) =>
        (.ok (true, p.downloadedBytes + audioBytes),
          removeQuietly (o.fault .removeMuxedAudio) d (entryOf v (audioName video)))

section
variable (toLowercase : String → String) (allowOverwrite : Bool)

def uniqueName (video : String) : String :=
  dedupFilename toLowercase (desiredName video) [] [] allowOverwrite o.seen

def finalizeMp4Path (video : String) (d : Directory File) : Option String × Directory File :=
  let target := uniqueName o toLowercase allowOverwrite video
  if hasExtension video "mp4" then (some video, d)
  else if target = video then (some target, d)
  else
    match rename (o.fault .renameMp4) d (entryOf v video) (entryOf v target) with
    | .ok renamed => (some target, renamed)
    | .error _ => (none, d)

/-- A name that is taken is freed and tried again once, in overwrite mode. -/
def claimMp4 (target : String) (d : Directory File) : Bool × Directory File :=
  let mp4 := entryOf v target
  if o.fault .claim ≠ none then (false, d)
  else if d mp4 = none then (true, write d mp4 .unfinished)
  else if allowOverwrite = true ∧ o.fault .removeOld = none then
    if o.fault .reclaim = none then (true, write d mp4 .unfinished)
    else (false, Function.update d mp4 none)
  else (false, d)

/-- The blocking part of the remux: whether it succeeded. -/
def convertFile (video target : String) (d : Directory File) : Bool × Directory File :=
  let mp4 := entryOf v target
  let mp4Tmp := entryOf v (mp4TmpName target)
  if o.fault .readTs ≠ none ∨ o.fault .convert ≠ none ∨ d (entryOf v video) = none then (false, d)
  else if o.fault .createMp4Tmp ≠ none then (false, d)
  else if o.fault .writeMp4Tmp ≠ none then (false, write d mp4Tmp .unfinished)
  else
    match claimMp4 v o allowOverwrite target (write d mp4Tmp .remuxed) with
    | (false, d) => (false, removeQuietly (o.fault .removeUnclaimedTmp) d mp4Tmp)
    | (true, d) =>
      match rename (o.fault .renameMp4Tmp) d mp4Tmp mp4 with
      | .error _ =>
        (false, removeQuietly (o.fault .removeUnrenamedTmp)
          (removeQuietly (o.fault .removeClaim) d mp4) mp4Tmp)
      | .ok renamed => (true, renamed)

/-- The stream stays whatever goes wrong. -/
def remuxTsToMp4 (video : String) (d : Directory File) : Option String × Directory File :=
  let target := uniqueName o toLowercase allowOverwrite video
  if hasExtension video "ts" = false then (none, d)
  else
    match o.tsLength with
    | none => (none, d)
    | some fileLen =>
      if maxRemuxBytes < fileLen ∨ remuxSpaceOk o.remuxSpace fileLen = false then (none, d)
      else
        match convertFile v o allowOverwrite video target d with
        | (true, d) => (some target, d)
        | (false, d) =>
          (none, removeQuietly (o.fault .removeMp4Tmp) d (entryOf v (mp4TmpName target)))

end

variable (toLowercase : String → String) (p : Params)

/-- The row gets the new name, and what has the other name goes. -/
def saveMp4 (video : String) (downloadedBytes : ℤ) (mp4 : Option String) (s : Saved File) :
    ℤ × Saved File :=
  match mp4 with
  | none => (downloadedBytes, s)
  | some mp4Name =>
    let size := mp4Size o.mp4Length downloadedBytes
    match o.fault .updateFileInfo with
    | none =>
      (size, ⟨removeQuietly (o.fault .removeTs) s.directory (entryOf v video),mp4Name,size⟩)
    | some _ =>
      (downloadedBytes, { s with
        directory := removeQuietly (o.fault .removeOrphan) s.directory (entryOf v mp4Name) })

/-- All from the last segment on. The row has the name of the task. -/
def runHlsDownloadInner (d : Directory File) : Except DownloadError ℤ × Saved File :=
  let video := forceTsExtension p.actualName
  let temp := video ++ tempExt
  match rename (o.fault .rename) d (entryOf v temp) (entryOf v video) with
  | .error e => (.error (.other s!"failed to rename {temp} -> {video}: {e}"), ⟨d,video,0⟩)
  | .ok d =>
    match addAudio v o p video d with
    | (.error e, d) => (.error e, ⟨d,video,0⟩)
    | (.ok (muxedToMp4, downloadedBytes), d) =>
      let (mp4, d) :=
        if muxedToMp4 ∨ p.fmp4 then finalizeMp4Path v o toLowercase p.allowOverwrite video d
        else remuxTsToMp4 v o toLowercase p.allowOverwrite video d
      let (size, s) := saveMp4 v o video downloadedBytes mp4 ⟨d,video,0⟩
      (.ok size, s)

end

end RinaDown.HlsCompletion
