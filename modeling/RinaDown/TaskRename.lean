import RinaDown.RenameSequences
import RinaDown.SanitizedNames
import RinaDown.Texts

/-!
# Renaming a task

The user gives a task that is not running another name. Its final file, its
temporary file and, where it has a second track, the files of that one are renamed
in this order, and then the row is written. Whether an operation fails is a
parameter. A volume tells names apart by their parts, perhaps after folding their
letters.
-/

namespace RinaDown.TaskRename

open FileNames (tempExt stemAndExtension)
open RenameSequences
open SanitizedNames (Platform isSeparator isSafeFileName)
open Strings (trim)

/-! ## Names and files -/

/-- A volume may fold letters, but nothing else is a dot to it. -/
structure Volume where
  platform : Platform
  fold : Char → Char
  fold_dot : ∀ c, fold c = fold '.' → c = '.'

abbrev RelPath := List (List Char)

/-- Empty parts and current directories are skipped. -/
def parts (platform : Platform) (name : List Char) : RelPath :=
  (name.splitOnP (isSeparator platform)).filter fun part => part ≠ [] ∧ part ≠ ['.']

def fileStem (file : List Char) : List Char :=
  (stemAndExtension (String.ofList file)).1.toList

/-- The path of the second track. -/
def buildAudioPath (videoPath : RelPath) : RelPath :=
  videoPath.dropLast ++
    [(videoPath.getLast?.map fileStem).getD "video".toList ++ ".audio.m4a".toList]

def appendToLast (path : RelPath) (ext : List Char) : RelPath :=
  path.dropLast ++ [path.getLastD [] ++ ext]

inductive Artifact where
  | final
  | temp
  | audio
  | audioTemp
  deriving DecidableEq

namespace Volume

variable (v : Volume)

def path (name : String) : Artifact → RelPath
  | .final => parts v.platform name.toList
  | .temp => parts v.platform (name.toList ++ tempExt.toList)
  | .audio => buildAudioPath (parts v.platform name.toList)
  | .audioTemp => appendToLast (buildAudioPath (parts v.platform name.toList)) tempExt.toList

/-- The entry of the directory that a path finds. -/
def key (path : RelPath) : RelPath := path.map (List.map v.fold)

def file (name : String) (a : Artifact) : RelPath := v.key (v.path name a)

def isSafe (name : String) : Bool := isSafeFileName v.platform name

end Volume

/-! ## Tasks -/

structure Row where
  fileName : String
  url : String
  status : ℤ
  audioUrl : Option String
  deriving DecidableEq

inductive Step where
  | load
  | final
  | temp
  | rollback
  | loadAudioUrl
  | audio
  | audioTemp
  | save
  deriving DecidableEq

/-- The manager, its database and the directory that the task saves to. -/
structure Manager (File : Type) where
  activeTasks : List String
  rows : String → Option Row
  directory : Directory RelPath File

def isMagnetUrl (url : List Char) : Bool := (url.take 8).map Char.toLower = "magnet:?".toList

def isTorrentFileUrl (url : List Char) : Bool := "torrent-file://".toList.isPrefixOf url

def isBtUrl (url : String) : Bool := isMagnetUrl url.toList || isTorrentFileUrl url.toList

def isDashUrl (url : String) : Bool :=
  ".mpd".toList.isSuffixOf
    (((url.toList.takeWhile (· ≠ '?')).takeWhile (· ≠ '#')).map Char.toLower)

/-- An empty url is none. -/
def Row.loadAudioUrl (t : Row) : Option String := t.audioUrl.filter (· ≠ "")

/-! ## The renames -/

section
variable {File : Type} (v : Volume) (fails : Step → Option String)

def moveQuietly (step : Step) (d : Directory RelPath File) (old new : RelPath) :
    Directory RelPath File :=
  if d.entry old ≠ none then
    match fails step with
    | some _ => d
    | none => rename d old new
  else d

/-- A url that cannot be read counts as none. -/
def hasAudioSidecar (t : Row) : Bool :=
  isDashUrl t.url || match fails .loadAudioUrl with
    | some _ => false
    | none => t.loadAudioUrl.isSome

variable (t : Row) (newName : String)

def moveAudio (d : Directory RelPath File) : Directory RelPath File :=
  if hasAudioSidecar fails t then
    moveQuietly fails .audioTemp
      (moveQuietly fails .audio d (v.file t.fileName .audio) (v.file newName .audio))
      (v.file t.fileName .audioTemp) (v.file newName .audioTemp)
  else d

/-- A temporary file that does not move takes the final file back. -/
def moveTemp (d : Directory RelPath File) : Except String Unit × Directory RelPath File :=
  if d.entry (v.file t.fileName .temp) ≠ none then
    match fails .temp with
    | some e =>
      (.error s!"rename: {e}", match fails .rollback with
        | some _ => d
        | none => rename d (v.file newName .final) (v.file t.fileName .final))
    | none =>
      (.ok (), moveAudio v fails t newName
        (rename d (v.file t.fileName .temp) (v.file newName .temp)))
  else (.ok (), moveAudio v fails t newName d)

def moveFiles (d : Directory RelPath File) : Except String Unit × Directory RelPath File :=
  if d.entry (v.file t.fileName .final) ≠ none then
    match fails .final with
    | some e => (.error s!"rename: {e}", d)
    | none => moveTemp v fails t newName
        (rename d (v.file t.fileName .final) (v.file newName .final))
  else moveTemp v fails t newName d

variable (toLowercase : String → String) (m : Manager File) (taskId : String)

/-- The checks. A task that has the name already needs nothing. -/
def admitRename : Except String (Option Row) :=
  if v.isSafe newName = false then .error "invalid-name"
  else if taskId ∈ m.activeTasks then .error "task-active"
  else
    match fails .load with
    | some e => .error s!"db: {e}"
    | none =>
      match m.rows taskId with
      | none => .error "not-found"
      | some t =>
        if t.status = 1 ∨ t.status = 5 then .error "task-active"
        else if isBtUrl t.url then .error "bt-unsupported"
        else if t.fileName = newName then .ok none
        else if toLowercase t.fileName ≠ toLowercase newName ∧
            (m.directory.entry (v.file newName .final) ≠ none ∨
              m.directory.entry (v.file newName .temp) ≠ none) then
          .error "target-exists"
        else .ok (some t)

def saveName (directory : Directory RelPath File) : Except String Unit × Manager File :=
  match fails .save with
  | some e => (.error s!"db: {e}", { m with directory := directory })
  | none =>
    (.ok (), { m with
      directory := directory
      rows := Function.update m.rows taskId (some { t with fileName := newName }) })

/-- With an unsafe old name only the row is written. -/
def carryOut : Except String Unit × Manager File :=
  if v.isSafe t.fileName then
    match moveFiles v fails t newName m.directory with
    | (.error e, directory) => (.error e, { m with directory := directory })
    | (.ok (), directory) => saveName fails t newName m taskId directory
  else saveName fails t newName m taskId m.directory

end

def renameTask {File : Type} (v : Volume) (toLowercase : String → String)
    (fails : Step → Option String) (m : Manager File) (taskId newName : String) :
    Except String Unit × Manager File :=
  match admitRename v fails (trim newName) toLowercase m taskId with
  | .error e => (.error e, m)
  | .ok none => (.ok (), m)
  | .ok (some t) => carryOut v fails t (trim newName) m taskId

end RinaDown.TaskRename
