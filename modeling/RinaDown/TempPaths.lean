import RinaDown.FileNames
import RinaDown.LabelledExecutions
import RinaDown.OrderedMap

/-!
# Temporary files of running downloads

A first start reserves the temporary path of the name it picks, and its `TaskDone` releases it. A
resumed download uses the stored name and reserves nothing. The downloader itself decides which
name it writes, and a delete releases the path of the stored name. BitTorrent tasks write no such
file and are left out.
-/

namespace RinaDown.TempPaths
open Std (TreeMap)
open FileNames LabelledExecutions OrderedMap

inductive Protocol where
  | http
  | ftp
  | hls
  | dash
  | trackPair
  | ed2k
  deriving DecidableEq, Repr

structure Row where
  saveDir : String
  fileName : String
  protocol : Protocol
  deriving DecidableEq, Repr

/-- A spawned downloader whose `TaskDone` has not been handled. -/
structure Run where
  task : ℕ
  saveDir : String
  fileName : String
  protocol : Protocol
  allowOverwrite : Bool
  prologue : Bool
  path : Option Path
  reservation : Option Path
  exited : Bool
  aborted : Bool
  deriving DecidableEq, Repr

structure Manager where
  generation : ℕ
  rows : TreeMap ℕ Row
  runs : TreeMap ℕ Run
  activeTasks : TreeMap ℕ ℕ
  reserved : Finset Path
  disk : Disk

/-- What the prologue of a first start finds out: the names of the probe and of the url, and a
fresh identifier. -/
structure Naming where
  probed : String
  urlName : Option String
  uniq : String
  deriving DecidableEq, Repr

inductive Label where
  | createTask (t : ℕ) (row : Row)
  | startTask (t : ℕ) (fileName : String) (allowOverwrite : Bool)
  | resumeTask (t : ℕ)
  | finalizeStartFileName (g : ℕ) (n : Naming)
  | openTemp (g : ℕ) (source : String)
  | deactivate (t : ℕ)
  | runExits (g : ℕ)
  | onTaskDone (g : ℕ)
  | renameTask (t : ℕ) (newName : String)
  | restartTask (t : ℕ)
  | deleteTask (t : ℕ) (timedOut stillWriting : Bool)
  | deleteTasksBatch (t : ℕ)
  | abort (g : ℕ) (stillWriting : Bool)
  | diskChanges (disk : Disk)

/-! ## Names -/

def knownName (m : Manager) (r : Run) : String :=
  if r.fileName = "" then (m.rows[r.task]?).elim "" Row.fileName else r.fileName

def probedName (m : Manager) (r : Run) (n : Naming) : String :=
  if knownName m r = "" then n.probed else knownName m r

/-- The name the HLS and the DASH downloader will use. -/
def normalizedName (m : Manager) (r : Run) (n : Naming) : String :=
  match r.protocol with
  | .hls =>
    forceTsExtension
      (if probedName m r n = "" then n.urlName.getD "download.ts" else probedName m r n)
  | .dash =>
    if probedName m r n = "" then mp4Name (n.urlName.getD "download.mpd") else probedName m r n
  | _ => probedName m r n

/-- The name a downloader writes; `source` is the name in the response, the url or the link. -/
def writtenName (protocol : Protocol) (fileName source : String) : String :=
  match protocol with
  | .http => if fileName = "" then source else sanitizeFilename fileName
  | .ftp => if fileName = "" then source else fileName
  | .hls => forceTsExtension (if fileName = "" then source else sanitizeFilename fileName)
  | .dash => if fileName = "" then mp4Name source else sanitizeFilename fileName
  | .trackPair => if fileName = "" then mp4Name source else sanitizeFilename fileName
  | .ed2k => source

def Row.tempPath (row : Row) : Path := FileNames.tempPath row.saveDir row.fileName

def Run.target (r : Run) (source : String) : Path :=
  FileNames.tempPath r.saveDir (writtenName r.protocol r.fileName source)

def Run.temps (r : Run) : List Path :=
  (if r.exited then [] else r.path.toList) ++ r.reservation.toList

/-! ## Tables -/

def Row.setName (name : String) (row : Row) : Row := { row with fileName := name }

def setTaskFileName (t : ℕ) (name : String) (rows : TreeMap ℕ Row) : TreeMap ℕ Row :=
  rows.modify t (Row.setName name)

/-- Only an empty name is filled. -/
def updateTaskFileName (t : ℕ) (name : String) (rows : TreeMap ℕ Row) : TreeMap ℕ Row :=
  rows.modify t (fun row => if row.fileName = "" then row.setName name else row)

def spawnRun (m : Manager) (r : Run) : Manager :=
  { m with
    generation := m.generation + 1
    runs := m.runs.insert m.generation r
    activeTasks := m.activeTasks.insert r.task m.generation }

def setRun (m : Manager) (g : ℕ) (r : Run) : Manager := { m with runs := m.runs.insert g r }

def setRows (m : Manager) (rows : TreeMap ℕ Row) : Manager := { m with rows := rows }

def setDisk (m : Manager) (disk : Disk) : Manager := { m with disk := disk }

def reserve (m : Manager) (p : Path) : Manager := { m with reserved := insert p m.reserved }

def releasePath (m : Manager) (p : Path) : Manager := { m with reserved := m.reserved.erase p }

def deactivate (m : Manager) (t : ℕ) : Manager := { m with activeTasks := m.activeTasks.erase t }

/-! ## Operations -/

def doStartTask (m : Manager) (t : ℕ) (row : Row) (fileName : String) (allowOverwrite : Bool) :
    Manager :=
  spawnRun m ⟨t,row.saveDir,fileName,row.protocol,allowOverwrite,true,none,none,false,false⟩

def doResumeTask (m : Manager) (t : ℕ) (row : Row) : Manager :=
  spawnRun m ⟨t,row.saveDir,row.fileName,row.protocol,false,false,none,none,false,false⟩

def writeProbed (m : Manager) (r : Run) (n : Naming) (rows : TreeMap ℕ Row) : TreeMap ℕ Row :=
  if knownName m r = "" ∧ n.probed ≠ "" then updateTaskFileName r.task n.probed rows else rows

def writeNormalized (m : Manager) (r : Run) (n : Naming) (rows : TreeMap ℕ Row) : TreeMap ℕ Row :=
  if normalizedName m r n ≠ probedName m r n then
    updateTaskFileName r.task (normalizedName m r n) rows
  else rows

def dedupedName (toLowercase : String → String) (m : Manager) (r : Run) (n : Naming) : String :=
  dedupFilenameSync toLowercase m.disk r.saveDir (normalizedName m r n) m.reserved r.allowOverwrite
    n.uniq

def writeDeduped (toLowercase : String → String) (m : Manager) (r : Run) (n : Naming)
    (rows : TreeMap ℕ Row) : TreeMap ℕ Row :=
  if dedupedName toLowercase m r n ≠ normalizedName m r n then
    updateTaskFileName r.task (dedupedName toLowercase m r n) rows
  else rows

def Run.named (r : Run) (name : String) (reservation : Option Path) : Run :=
  { r with fileName := name, prologue := false, reservation := reservation }

def reservedPath (toLowercase : String → String) (m : Manager) (r : Run) (n : Naming) : Path :=
  FileNames.tempPath r.saveDir (dedupedName toLowercase m r n)

def finalizeStartFileName (toLowercase : String → String) (m : Manager) (g : ℕ) (r : Run)
    (n : Naming) : Manager :=
  if normalizedName m r n = "" then
    setRun (setRows m (writeNormalized m r n (writeProbed m r n m.rows))) g (r.named "" none)
  else
    reserve
      (setRun
        (setRows m (writeDeduped toLowercase m r n (writeNormalized m r n (writeProbed m r n m.rows))))
        g (r.named (dedupedName toLowercase m r n) (some (reservedPath toLowercase m r n))))
      (reservedPath toLowercase m r n)

/-- The row receives the name that the downloader writes, by the writer of each downloader. -/
def publishName (r : Run) (source : String) (rows : TreeMap ℕ Row) : TreeMap ℕ Row :=
  match r.protocol with
  | .ed2k => rows
  | .trackPair => updateTaskFileName r.task (writtenName r.protocol r.fileName source) rows
  | _ => setTaskFileName r.task (writtenName r.protocol r.fileName source) rows

def openTemp (m : Manager) (g : ℕ) (r : Run) (source : String) : Manager :=
  setRun (setRows m (publishName r source m.rows)) g { r with path := some (r.target source) }

def Run.exit (r : Run) : Run := { r with exited := true }

/-- An aborted run sends no `TaskDone`; a blocking writer of it may go on. -/
def Run.abort (r : Run) (stillWriting : Bool) : Run :=
  { r with
    prologue := false, reservation := none, aborted := true, exited := r.exited || !stillWriting }

def removeActive (m : Manager) (g : ℕ) (r : Run) : Manager :=
  if m.activeTasks[r.task]? = some g then deactivate m r.task else m

def releaseReservation (m : Manager) (r : Run) : Manager :=
  match r.reservation with
  | some p => releasePath m p
  | none => m

def onTaskDone (m : Manager) (g : ℕ) (r : Run) : Manager :=
  removeActive { releaseReservation m r with runs := m.runs.erase g } g r

def moveFile (d : Disk) (old new : Path) : Disk :=
  if old ∈ d.files then { d with files := insert new (d.files.erase old) } else d

def moveFiles (d : Disk) (row : Row) (newName : String) : Disk :=
  moveFile (moveFile d ⟨row.saveDir,row.fileName⟩ ⟨row.saveDir,newName⟩)
    row.tempPath (row.setName newName).tempPath

def renameTask (toLowercase : String → String) (m : Manager) (t : ℕ) (row : Row)
    (newName : String) : Manager :=
  if ¬ isSafeFileName newName ∨ m.activeTasks[t]? ≠ none ∨ row.fileName = newName then m
  else if toLowercase row.fileName ≠ toLowercase newName ∧
      (⟨row.saveDir,newName⟩ ∈ m.disk.entries ∨ (row.setName newName).tempPath ∈ m.disk.entries) then m
  else
    setRows (setDisk m (if isSafeFileName row.fileName then moveFiles m.disk row newName else m.disk))
      (setTaskFileName t newName m.rows)

def removeFile (d : Disk) (p : Path) : Disk := { d with files := d.files.erase p }

/-- The entry is removed and the temporary file of the stored name deleted; the resume that follows
is a step of its own. -/
def restartTask (m : Manager) (t : ℕ) (row : Row) : Manager :=
  setDisk (deactivate m t)
    (if isSafeFileName row.fileName then removeFile m.disk row.tempPath else m.disk)

def removeTask (m : Manager) (t : ℕ) : Manager :=
  deactivate (setRows m (m.rows.erase t)) t

def activeRun (m : Manager) (t : ℕ) : Option (ℕ × Run) :=
  (m.activeTasks[t]?).bind (fun g => (m.runs[g]?).map (fun r => (g, r)))

/-- The delete waits for the handle. If the wait times out the run is aborted and the path of the
stored name released. -/
def deleteTask (m : Manager) (t : ℕ) (row : Row) (timedOut stillWriting : Bool) : Option Manager :=
  match activeRun m t with
  | none => if timedOut then none else some (removeTask m t)
  | some (g, r) =>
    if timedOut then
      some (removeTask
        (setRun (if row.fileName = "" then m else releasePath m row.tempPath) g
          (r.abort stillWriting)) t)
    else if r.exited then some (removeTask m t)
    else none

/-- The batch releases the path before it waits. -/
def deleteTasksBatch (m : Manager) (t : ℕ) (row : Row) : Manager :=
  removeTask (releasePath m row.tempPath) t

/-! ## Steps -/

section Steps

variable (toLowercase : String → String)

def step (m : Manager) : Label → Option Manager
  | .createTask t row =>
    if m.rows[t]? = none ∧ ∀ r ∈ values m.runs, r.task ≠ t then
      some (setRows m (m.rows.insert t row))
    else none
  | .startTask t fileName allowOverwrite =>
    if m.activeTasks[t]? = none then
      (m.rows[t]?).map (fun row => doStartTask m t row fileName allowOverwrite)
    else none
  | .resumeTask t =>
    if m.activeTasks[t]? = none then (m.rows[t]?).map (doResumeTask m t) else none
  | .finalizeStartFileName g n => (m.runs[g]?).bind (fun r =>
    if r.prologue ∧ ¬ r.exited ∧
        Unused m.disk m.reserved (tempPath r.saveDir (numberedName (normalizedName m r n) n.uniq)) then
      some (finalizeStartFileName toLowercase m g r n)
    else none)
  | .openTemp g source => (m.runs[g]?).bind (fun r =>
    if ¬ r.prologue ∧ ¬ r.exited ∧ r.path = none then some (openTemp m g r source) else none)
  | .deactivate t => some (deactivate m t)
  | .runExits g => (m.runs[g]?).map (fun r => setRun m g r.exit)
  | .onTaskDone g => (m.runs[g]?).bind (fun r =>
    if r.exited ∧ ¬ r.aborted then some (onTaskDone m g r) else none)
  | .renameTask t newName => (m.rows[t]?).map (fun row => renameTask toLowercase m t row newName)
  | .restartTask t => (m.rows[t]?).map (restartTask m t)
  | .deleteTask t timedOut stillWriting =>
    (m.rows[t]?).bind (fun row => deleteTask m t row timedOut stillWriting)
  | .deleteTasksBatch t => (m.rows[t]?).map (deleteTasksBatch m t)
  | .abort g stillWriting => (m.runs[g]?).bind (fun r =>
    if m.rows[r.task]? = none then some (setRun m g (r.abort stillWriting)) else none)
  | .diskChanges disk => some (setDisk m disk)

end Steps

/-- A manager at startup, over any rows and any disk. -/
structure Initial (m : Manager) : Prop where
  runs : ∀ g : ℕ, m.runs[g]? = none
  activeTasks : ∀ t : ℕ, m.activeTasks[t]? = none
  reserved : m.reserved = ∅

end RinaDown.TempPaths
