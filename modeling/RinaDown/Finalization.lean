import RinaDown.FileNames
import RinaDown.SingleStream

/-!
# Finalization of HTTP downloads

A verified download creates its final name exclusively, as an empty placeholder, and then moves
the temporary file onto that. A name that is taken is deleted once in overwrite mode, and
otherwise replaced by another name. Every operation on the directory is a step of its own. Whose
an entry is, which tasks were started and what they delete or replace is recorded; the code reads
none of it.
-/

namespace RinaDown.Finalization

open FileNames (numberedName tempExt)
open SingleStream (Bytes DownloadError)

/-- Whose a file is. An orphan is a placeholder whose removal failed. -/
inductive Owner where
  | foreign
  | temporary (task : ℕ)
  | placeholder (task : ℕ)
  | orphan
  | product (task : ℕ)
deriving DecidableEq

inductive Entry where
  | directory
  | file (owner : Owner) (bytes : Bytes)
deriving DecidableEq

inductive Phase where
  | claiming
  | renaming
  | cleaning (message : String)
  | conflicted
  | inspecting
  | removing
  | deduping
  | completed (name : String)
  | failed (error : DownloadError)
deriving DecidableEq

/-- A task that finalizes its download: its parameters and the variables of the loop. -/
structure Finalizer where
  actualName : String
  allowOverwrite : Bool
  bytes : Bytes
  chosen : String
  avoid : List String
  avoidLoaded : Bool
  overwriteAttempted : Bool
  attempt : ℕ
  phase : Phase
deriving DecidableEq

/-- A file that a task deleted or replaced. -/
structure Loss where
  finalizer : Finalizer
  entry : String
  owner : Owner
  bytes : Bytes
deriving DecidableEq

/-- The directory, by the entries that the file system tells apart, with what appeared in it. -/
structure State where
  directory : String → Option Entry
  tasks : ℕ → Option Finalizer
  started : List ℕ
  appeared : List (String × Entry)
  losses : List Loss

/-- What the probes and the scan of the directory find, at whatever moments they look, and the
identifier that is drawn. -/
structure Seen where
  finalExists : Bool
  finalIsDir : Bool
  tempExists : Bool
  listing : List String
  uniq : String

/-- A step of another program, or of a task with what its operation meets: an error that has
nothing to do with the entry, the names that the database lists, or what it sees. -/
inductive Label where
  | appear (name : String) (contents : Option Bytes)
  | start (t : ℕ) (actualName : String) (allowOverwrite : Bool) (bytes : Bytes)
  | retry (t : ℕ) (allowOverwrite : Bool)
  | createNew (t : ℕ) (fault : Option String)
  | rename (t : ℕ) (fault : Option String)
  | removePlaceholder (t : ℕ) (fault : Bool)
  | conflict (t : ℕ) (siblings : Option (List String))
  | inspect (t : ℕ) (fault : Bool)
  | removeFile (t : ℕ) (fault : Bool)
  | dedup (t : ℕ) (seen : Seen)

/-! ## Names -/

section
variable (toLowercase : String → String)

def dedupFilename (name : String) (reserved avoid : List String) (allowOverwrite : Bool)
    (seen : Seen) : String :=
  let finalConflict := if allowOverwrite then seen.finalIsDir else seen.finalExists
  if name ++ tempExt ∉ reserved ∧ toLowercase name ∉ avoid ∧ finalConflict = false ∧
      seen.tempExists = false then
    name
  else
    ((List.range' 1 9999).map (fun i => numberedName name (toString i))).find? (fun newName =>
      newName ++ tempExt ∉ reserved ∧ toLowercase newName ∉ avoid ∧
        toLowercase newName ∉ seen.listing ∧ toLowercase (newName ++ tempExt) ∉ seen.listing)
      |>.getD (numberedName name seen.uniq)

end

def Finalizer.tempName (f : Finalizer) : String := f.actualName ++ tempExt

/-- The loop begins: nothing is chosen but the name, and nothing is known of the siblings. -/
def Finalizer.begin (f : Finalizer) : Finalizer :=
  { f with
    chosen := f.actualName, avoid := [], avoidLoaded := false, overwriteAttempted := false,
    attempt := 0, phase := .claiming }

def Finalizer.goto (f : Finalizer) (phase : Phase) : Finalizer := { f with phase := phase }

def renameError (f : Finalizer) (message : String) : DownloadError :=
  .other s!"failed to rename {f.tempName} → {f.chosen}: {message}"

def claimError (f : Finalizer) (attempt : ℕ) : DownloadError :=
  .other (s!"failed to claim a destination name for {f.actualName} after {attempt} attempts " ++
    "(directory keeps racing us)")

/-- The names of unfinished tasks are read once. -/
def Finalizer.loadAvoid (toLowercase : String → String) (f : Finalizer)
    (siblings : Option (List String)) : Finalizer :=
  if f.avoidLoaded then f
  else
    { f with
      avoidLoaded := true
      avoid := (siblings.map (List.map toLowercase)).getD f.avoid }

def mayOverwrite (toLowercase : String → String) (f : Finalizer) : Bool :=
  f.allowOverwrite && !f.overwriteAttempted && decide (f.chosen = f.actualName) &&
    decide (toLowercase f.chosen ∉ f.avoid)

def Finalizer.makeWay (toLowercase : String → String) (f : Finalizer) : Finalizer :=
  if mayOverwrite toLowercase f then { f with overwriteAttempted := true, phase := .inspecting }
  else f.goto .deduping

/-- The name is taken: after five attempts the task fails. -/
def Finalizer.conflict (toLowercase : String → String) (f : Finalizer)
    (siblings : Option (List String)) : Finalizer :=
  if 5 < f.attempt + 1 then
    { f with attempt := f.attempt + 1, phase := .failed (claimError f (f.attempt + 1)) }
  else
    { f.loadAvoid toLowercase siblings with attempt := f.attempt + 1 }.makeWay toLowercase

/-! ## Operations -/

def State.setTask (s : State) (t : ℕ) (f : Finalizer) : State :=
  { s with tasks := Function.update s.tasks t (some f) }

def State.setEntry (s : State) (entry : String) (e : Option Entry) : State :=
  { s with directory := Function.update s.directory entry e }

/-- A file that is not the placeholder of the task itself is recorded before it goes. -/
def State.lose (s : State) (t : ℕ) (f : Finalizer) (entry : String) : State :=
  match s.directory entry with
  | some (.file owner bytes) =>
      if owner = .placeholder t then s
      else { s with losses := ⟨f,entry,owner,bytes⟩ :: s.losses }
  | _ => s

/-- A file of another program, or a directory. -/
def foreignEntry : Option Bytes → Entry
  | some bytes => .file .foreign bytes
  | none => .directory

section
variable (entryOf : String → String)

def appear (s : State) (name : String) (contents : Option Bytes) : Option State :=
  if s.directory (entryOf name) = none then
    some { s.setEntry (entryOf name) (some (foreignEntry contents)) with
      appeared := (entryOf name, foreignEntry contents) :: s.appeared }
  else none

/-- A task whose temporary file is complete. -/
def start (s : State) (t : ℕ) (actualName : String) (allowOverwrite : Bool) (bytes : Bytes) :
    Option State :=
  let f : Finalizer :=
    ⟨actualName,allowOverwrite,bytes,actualName,[],false,false,0,.claiming⟩
  if s.tasks t = none ∧ s.directory (entryOf f.tempName) = none then
    some { (s.setTask t f).setEntry (entryOf f.tempName) (some (.file (.temporary t) bytes)) with
      started := t :: s.started }
  else none

def createNew (s : State) (t : ℕ) (f : Finalizer) (fault : Option String) : State :=
  match fault, s.directory (entryOf f.chosen) with
  | some message, _ => s.setTask t (f.goto (.failed (renameError f message)))
  | none, some _ => s.setTask t (f.goto .conflicted)
  | none, none =>
      (s.setTask t (f.goto .renaming)).setEntry (entryOf f.chosen)
        (some (.file (.placeholder t) []))

/-- A move replaces a file, and fails onto a directory. -/
def rename (s : State) (t : ℕ) (f : Finalizer) (fault : Option String) : State :=
  match fault, s.directory (entryOf f.tempName), s.directory (entryOf f.chosen) with
  | some message, _, _ => s.setTask t (f.goto (.cleaning message))
  | none, none, _ => s.setTask t (f.goto (.cleaning "no such file"))
  | none, _, some .directory => s.setTask t (f.goto (.cleaning "is a directory"))
  | none, some .directory, _ => s.setTask t (f.goto (.cleaning "not a file"))
  | none, some (.file _ bytes), _ =>
      (((s.lose t f (entryOf f.chosen)).setEntry (entryOf f.tempName) none).setEntry
        (entryOf f.chosen) (some (.file (.product t) bytes))).setTask t
        (f.goto (.completed f.chosen))

/-- The error of the removal is ignored. -/
def removePlaceholder (s : State) (t : ℕ) (f : Finalizer) (message : String) (fault : Bool) :
    State :=
  let failed := f.goto (.failed (renameError f message))
  match s.directory (entryOf f.chosen) with
  | some (.file owner bytes) =>
      if fault then
        if owner = .placeholder t then
          (s.setEntry (entryOf f.chosen) (some (.file .orphan bytes))).setTask t failed
        else s.setTask t failed
      else ((s.lose t f (entryOf f.chosen)).setEntry (entryOf f.chosen) none).setTask t failed
  | _ => s.setTask t failed

/-- An error of the inspection counts as no directory. -/
def inspect (s : State) (t : ℕ) (f : Finalizer) (fault : Bool) : State :=
  if s.directory (entryOf f.chosen) = some .directory ∧ fault = false then
    s.setTask t (f.goto .deduping)
  else s.setTask t (f.goto .removing)

def removeFile (s : State) (t : ℕ) (f : Finalizer) (fault : Bool) : State :=
  match fault, s.directory (entryOf f.chosen) with
  | false, some (.file _ _) =>
      ((s.lose t f (entryOf f.chosen)).setEntry (entryOf f.chosen) none).setTask t
        (f.goto .claiming)
  | _, _ => s.setTask t (f.goto .deduping)

variable (toLowercase : String → String)

/-- The step of a task in its phase. -/
def stepTask (s : State) (t : ℕ) (f : Finalizer) : Label → Option State
  | .retry _ allowOverwrite =>
      match f.phase with
      | .failed _ => some (s.setTask t { f.begin with allowOverwrite := allowOverwrite })
      | _ => none
  | .createNew _ fault =>
      if f.phase = .claiming then some (createNew entryOf s t f fault) else none
  | .rename _ fault => if f.phase = .renaming then some (rename entryOf s t f fault) else none
  | .removePlaceholder _ fault =>
      match f.phase with
      | .cleaning message => some (removePlaceholder entryOf s t f message fault)
      | _ => none
  | .conflict _ siblings =>
      if f.phase = .conflicted then some (s.setTask t (f.conflict toLowercase siblings)) else none
  | .inspect _ fault => if f.phase = .inspecting then some (inspect entryOf s t f fault) else none
  | .removeFile _ fault =>
      if f.phase = .removing then some (removeFile entryOf s t f fault) else none
  | .dedup _ seen =>
      if f.phase = .deduping then
        some (s.setTask t
          { f with
            chosen := dedupFilename toLowercase f.actualName [] f.avoid false seen
            phase := .claiming })
      else none
  | _ => none

def Label.task : Label → ℕ
  | .appear _ _ => 0
  | .start t _ _ _ | .retry t _ | .createNew t _ | .rename t _ | .removePlaceholder t _
  | .conflict t _ | .inspect t _ | .removeFile t _ | .dedup t _ => t

def step (s : State) : Label → Option State
  | .appear name contents => appear entryOf s name contents
  | .start t actualName allowOverwrite bytes => start entryOf s t actualName allowOverwrite bytes
  | label => (s.tasks label.task).bind fun f => stepTask entryOf toLowercase s label.task f label

end

end RinaDown.Finalization
