import Mathlib.Data.Finset.Basic
import Mathlib.Data.Int.NatAbs
import Mathlib.Data.List.DropRight

/-!
# File names of downloads

How a name is cleaned before it reaches the disk, and how a first start picks a
name whose temporary file is neither reserved nor on disk. A name is one path
component and a directory is a normalised path. The lower case of a string is a
parameter, since the case mapping is Unicode's.
-/

namespace RinaDown.FileNames
open List Bool

structure Path where
  dir : String
  entry : String
  deriving DecidableEq, Repr

def tempExt : String := ".fdownloading"

def tempPath (saveDir fileName : String) : Path := ⟨saveDir,fileName ++ tempExt⟩

structure Disk where
  files : Finset Path
  dirs : Finset Path
  deriving DecidableEq

def Disk.entries (d : Disk) : Finset Path := d.files ∪ d.dirs

/-! ## Cleaning a name -/

def maxFilenameBytes : ℕ := 200

def windowsReservedNames : List String :=
  ["CON", "PRN", "AUX", "NUL", "COM1", "COM2", "COM3", "COM4", "COM5", "COM6", "COM7", "COM8",
    "COM9", "LPT1", "LPT2", "LPT3", "LPT4", "LPT5", "LPT6", "LPT7", "LPT8", "LPT9"]

def isControl (c : Char) : Bool := c.toNat < 32 || (127 ≤ c.toNat && c.toNat < 160)

def illegalChars : List Char := "<>:\"/\\|?*".toList

def replaceIllegal (c : Char) : Char := if c ∈ illegalChars ∨ isControl c then '_' else c

def isEdge (c : Char) : Bool := c = '.' || c = ' '

def trimMatches (s : List Char) : List Char := (s.dropWhile isEdge).rdropWhile isEdge

def splitLastDot (s : List Char) : Option (List Char × List Char) :=
  match s.rdropWhile (· ≠ '.') with
  | [] => none
  | d => some (d.dropLast, s.rtakeWhile (· ≠ '.'))

def byteLength (s : List Char) : ℕ := (s.map Char.utf8Size).sum

/-- The longest prefix within a budget of bytes. -/
def cutBytes : ℕ → List Char → List Char
  | _, [] => []
  | budget, c :: s => if c.utf8Size ≤ budget then c :: cutBytes (budget - c.utf8Size) s else []

def avoidReservedName (s : List Char) : List Char :=
  if windowsReservedNames.any (fun r =>
      r.toList.map Char.toLower = (s.takeWhile (· ≠ '.')).map Char.toLower) then '_' :: s
  else s

def truncateBytes (s : List Char) : List Char :=
  match splitLastDot s with
  | none => cutBytes maxFilenameBytes s
  | some (stem, ext) => cutBytes (maxFilenameBytes - byteLength ('.' :: ext)) stem ++ '.' :: ext

def orDownload (s : List Char) : String := if s = [] then "download" else String.ofList s

def sanitizeFilename (name : String) : String :=
  let s := trimMatches (name.toList.map replaceIllegal)
  if s = [] then "download"
  else if byteLength (avoidReservedName s) ≤ maxFilenameBytes then
    String.ofList (avoidReservedName s)
  else orDownload (trimMatches (truncateBytes (avoidReservedName s)))

def replaceExtension (name ext : String) : String :=
  match splitLastDot name.toList with
  | none => name ++ "." ++ ext
  | some (stem, _) => String.ofList stem ++ "." ++ ext

def forceTsExtension (name : String) : String := replaceExtension name "ts"

/-- The name that the DASH downloader takes from a url. -/
def mp4Name (urlName : String) : String := replaceExtension urlName "mp4"

def isSafeFileName (name : String) : Bool := name ∉ ["", ".", ".."]

/-! ## Picking a name -/

def stemAndExtension (name : String) : String × Option String :=
  if name = ".." then (name, none)
  else match splitLastDot name.toList with
    | none => (name, none)
    | some ([], _) => (name, none)
    | some (stem, ext) => (String.ofList stem, some (String.ofList ext))

def numberedName (name label : String) : String :=
  match stemAndExtension name with
  | (stem, some ext) => stem ++ " (" ++ label ++ ")." ++ ext
  | (stem, none) => stem ++ " (" ++ label ++ ")"

/-- The name is used as it is. Overwriting tolerates a file of that name, but not a directory. -/
def keepsName (disk : Disk) (dir name : String) (reserved : Finset Path) (allowOverwrite : Bool) :
    Bool :=
  tempPath dir name ∉ reserved
    && (if allowOverwrite then ⟨dir,name⟩ ∉ disk.dirs else ⟨dir,name⟩ ∉ disk.entries)
    && tempPath dir name ∉ disk.entries

section Lowercase

variable (toLowercase : String → String)

/-- The scan of the directory has no entry of that name up to case. -/
def absent (disk : Disk) (dir name : String) : Bool :=
  ∀ p ∈ disk.entries, p.dir = dir → toLowercase p.entry ≠ toLowercase name

def isFree (disk : Disk) (dir : String) (reserved : Finset Path) (newName : String) : Bool :=
  tempPath dir newName ∉ reserved && absent toLowercase disk dir newName
    && absent toLowercase disk dir (newName ++ tempExt)

/-- `uniq` is the identifier drawn when all the numbers are taken. -/
def dedupFilenameSync (disk : Disk) (dir name : String) (reserved : Finset Path)
    (allowOverwrite : Bool) (uniq : String) : String :=
  if keepsName disk dir name reserved allowOverwrite then name
  else
    ((List.range' 1 9999).map (fun i => numberedName name (toString i))).find?
      (isFree toLowercase disk dir reserved) |>.getD (numberedName name uniq)

variable {toLowercase} {disk : Disk} {dir name uniq : String} {reserved : Finset Path}
  {allowOverwrite : Bool}

def Unused (disk : Disk) (reserved : Finset Path) (p : Path) : Prop :=
  p ∉ reserved ∧ p ∉ disk.files

instance (reserved : Finset Path) (p : Path) : Decidable (Unused disk reserved p) :=
  inferInstanceAs (Decidable (_ ∧ _))

theorem keepsName_unused (h : keepsName disk dir name reserved allowOverwrite = true) :
    Unused disk reserved (tempPath dir name) := by
  simp only [keepsName, and_eq_true, decide_eq_true_eq] at h
  obtain ⟨⟨hres,-⟩,hdisk⟩ := h
  exact ⟨hres,fun hf => hdisk (Finset.mem_union_left _ hf)⟩

theorem isFree_unused {newName : String}
    (h : isFree toLowercase disk dir reserved newName = true) :
    Unused disk reserved (tempPath dir newName) := by
  simp only [isFree, absent, and_eq_true, decide_eq_true_eq] at h
  obtain ⟨⟨hres,-⟩,htemp⟩ := h
  refine ⟨hres,fun hf => ?_⟩
  exact htemp (tempPath dir newName) (Finset.mem_union_left _ hf) rfl rfl

theorem dedupFilenameSync_unused
    (huniq : Unused disk reserved (tempPath dir (numberedName name uniq))) :
    Unused disk reserved
      (tempPath dir (dedupFilenameSync toLowercase disk dir name reserved allowOverwrite uniq)) := by
  unfold dedupFilenameSync
  split_ifs with hkeep
  · exact keepsName_unused hkeep
  cases hfind : ((range' 1 9999).map (fun i => numberedName name (toString i))).find?
      (isFree toLowercase disk dir reserved) with
  | none => exact huniq
  | some newName => exact isFree_unused (find?_some hfind)

variable (toLowercase reserved) in
/-- Without overwriting, no file has the name that is picked. -/
theorem dedupFilenameSync_absent (huniq : ⟨dir,numberedName name uniq⟩ ∉ disk.files) :
    ⟨dir,dedupFilenameSync toLowercase disk dir name reserved false uniq⟩ ∉ disk.files := by
  unfold dedupFilenameSync
  split_ifs with hkeep
  · simp only [keepsName, and_eq_true, false_eq_true, if_false, decide_eq_true_eq] at hkeep
    exact fun hfile => hkeep.1.2 (Finset.mem_union_left _ hfile)
  cases hfind : ((range' 1 9999).map (fun i => numberedName name (toString i))).find?
      (isFree toLowercase disk dir reserved) with
  | none => exact huniq
  | some newName =>
    have hfree := find?_some hfind
    simp only [isFree, absent, and_eq_true, decide_eq_true_eq] at hfree
    exact fun hfile => hfree.1.2 ⟨dir,newName⟩ (Finset.mem_union_left _ hfile) rfl rfl

end Lowercase

theorem tempPath_inj {f : Path} {dir name : String}
    (h : tempPath f.dir f.entry = tempPath dir name) : f = ⟨dir,name⟩ := by
  obtain ⟨hdir,hentry⟩ := Path.mk.inj h
  obtain ⟨d,entry⟩ := f
  exact Path.mk.injEq .. ▸ ⟨hdir,(String.append_left_inj _).mp hentry⟩

example : sanitizeFilename "a:b?.zip" = "a_b_.zip" := by decide +kernel

end RinaDown.FileNames
