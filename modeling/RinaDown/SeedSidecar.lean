import RinaDown.BoundarySegments
import RinaDown.ByteRanges
import RinaDown.ByteReaders
import RinaDown.KeyedTable
import RinaDown.PercentDecoding

/-!
# The sidecar of a seeded torrent

Beside a torrent of which some files are kept there is a file with the bytes that its pieces have
in other files, and with the place where every kept file was moved to. The places are written
relative to the save directory and are checked again when the sidecar is loaded.
-/

namespace RinaDown.SeedSidecar

open BoundarySegments ByteRanges List Option
open ByteReaders
open LengthFraming (Bytes)
open PercentDecoding (fromUtf8)
open TextSlices (encode)

/-! ## Paths -/

structure Name where
  bytes : Bytes
  plain : bytes ≠ [] ∧ 0x2F ∉ bytes ∧ bytes ≠ [0x2E] ∧ bytes ≠ [0x2E, 0x2E]
deriving DecidableEq

inductive Component
  | rootDir
  | curDir
  | parentDir
  | normal (name : Name)
deriving DecidableEq

abbrev Path := List Component

/-- `PathBuf::push` of one name. A name that is empty or a dot adds no component. -/
def push (path : Path) (comp : List Char) : Path :=
  if h : encode comp ≠ [] ∧ 0x2F ∉ encode comp ∧ encode comp ≠ [0x2E] ∧
      encode comp ≠ [0x2E, 0x2E] then
    path ++ [.normal ⟨encode comp,h⟩]
  else if comp = ['.', '.'] then path ++ [.parentDir] else path

def relParts : Path → Except String (List (List Char))
  | [] => .ok []
  | .normal s :: rest =>
      match fromUtf8 s.bytes with
      | some part => (relParts rest).map (part :: ·)
      | none => .error "non-utf8 path component"
  | _ :: _ => .error "unexpected path component"

/-- The part of the path below the save directory. -/
def relPathString (dst saveDir : Path) : Except String (List Char) :=
  if saveDir.isPrefixOf dst then
    (relParts (dst.drop saveDir.length)).bind fun parts =>
      if parts = [] then .error "empty relative path" else .ok (['/'].intercalate parts)
  else .error "dst not under save_dir"

def isUnsafe (comp : List Char) : Bool :=
  comp == [] || comp == ['.'] || comp == ['.', '.'] || comp.contains '\\' || comp.contains ':'

def resolveFrom (path : Path) : List (List Char) → Except String Path
  | [] => .ok path
  | comp :: rest =>
      if isUnsafe comp then .error "unsafe path component" else resolveFrom (push path comp) rest

/-- The text is split into one part at least. -/
def resolveRelPath (rel : List Char) (saveDir : Path) : Except String Path :=
  resolveFrom saveDir (rel.splitOn '/')

/-- A name that is also taken for one part of a path when it is loaded. -/
def Name.IsPortable (name : Name) : Prop := 0x5C ∉ name.bytes ∧ 0x3A ∉ name.bytes

/-- All names below the save directory are portable. -/
def IsPortable (dst saveDir : Path) : Prop :=
  ∀ name, .normal name ∈ dst.drop saveDir.length → name.IsPortable

variable {dst saveDir rel path : Path} {parts : List (List Char)} {s : List Char} {name : Name}

/-- The component is the name that is written as the part. -/
inductive IsPart : Component → List Char → Prop
  | intro {name : Name} {part : List Char} (h : encode part = name.bytes) :
      IsPart (.normal name) part

theorem relParts_ok (h : relParts rel = .ok parts) : List.Forall₂ IsPart rel parts := by
  induction rel generalizing parts with
  | nil =>
    obtain rfl := Except.ok.inj h
    exact .nil
  | cons c rel ih =>
    cases c with
    | normal name =>
      rw [relParts] at h
      cases hpart : fromUtf8 name.bytes with
      | none =>
        rw [hpart] at h
        cases h
      | some part =>
        rw [hpart] at h
        cases hrest : relParts rel with
        | error e =>
          rw [hrest] at h
          cases h
        | ok rest =>
          rw [hrest] at h
          obtain rfl := Except.ok.inj h
          exact .cons ⟨PercentDecoding.encode_of_fromUtf8 hpart⟩ (ih hrest)
    | rootDir => cases h
    | curDir => cases h
    | parentDir => cases h

theorem mem_part {part : List Char} {c : Char} (hpart : encode part = name.bytes)
    (hc : c.toNat < 128) : c ∈ part ↔ UInt8.ofNat c.toNat ∈ name.bytes := by
  rw [← hpart, PercentDecoding.mem_encode hc]

theorem isUnsafe_part {part : List Char} (hpart : encode part = name.bytes) :
    isUnsafe part = true ↔ ¬ name.IsPortable := by
  have hplain := name.plain
  have hnil : part ≠ [] := fun heq => hplain.1 (by rw [← hpart, heq]; rfl)
  have hdot : part ≠ ['.'] := fun heq => hplain.2.2.1 (by rw [← hpart, heq]; rfl)
  have hdots : part ≠ ['.', '.'] := fun heq => hplain.2.2.2 (by rw [← hpart, heq]; rfl)
  have hbackslash := @mem_part name part '\\' hpart (by decide)
  have hcolon := @mem_part name part ':' hpart (by decide)
  simp only [isUnsafe, Bool.or_eq_true, beq_iff_eq, hnil, hdot, hdots, contains_iff_mem,
    false_or, hbackslash, hcolon, Name.IsPortable, not_and_or, not_not]
  exact Iff.rfl

theorem push_part {part : List Char} (hpart : encode part = name.bytes) :
    push path part = path ++ [.normal name] := by
  obtain ⟨bytes,hplain⟩ := name
  obtain rfl : encode part = bytes := hpart
  rw [push, dif_pos hplain]

theorem resolveFrom_ok (h : List.Forall₂ IsPart rel parts)
    (hportable : ∀ name, Component.normal name ∈ rel → name.IsPortable) :
    resolveFrom path parts = .ok (path ++ rel) := by
  induction h generalizing path with
  | nil => rw [resolveFrom, append_nil]
  | @cons comp part rel parts hpart _ ih =>
    obtain ⟨hpart⟩ := hpart
    have hsafe := mt (isUnsafe_part hpart).mp (not_not.mpr (hportable _ mem_cons_self))
    rw [resolveFrom, if_neg hsafe, push_part hpart,
      ih fun name hname => hportable name (mem_cons_of_mem _ hname), append_assoc,
      singleton_append]

theorem resolveFrom_error (h : List.Forall₂ IsPart rel parts)
    (hname : Component.normal name ∈ rel) (hnot : ¬ name.IsPortable) :
    ∃ e, resolveFrom path parts = .error e := by
  induction h generalizing path with
  | nil => exact absurd hname not_mem_nil
  | @cons comp part rel parts hpart _ ih =>
    obtain ⟨hpart⟩ := hpart
    rw [resolveFrom]
    split_ifs with hunsafe
    · exact ⟨_,rfl⟩
    · obtain heq | hname := mem_cons.mp hname
      · obtain rfl := Component.normal.inj heq
        exact absurd ((isUnsafe_part hpart).mpr hnot) hunsafe
      · exact ih hname

theorem no_slash (h : List.Forall₂ IsPart rel parts) : ∀ part ∈ parts, '/' ∉ part := by
  induction h with
  | nil => exact forall_mem_nil _
  | cons hpart _ ih =>
    obtain ⟨hpart⟩ := hpart
    refine forall_mem_cons.mpr ⟨fun hslash => ?_,ih⟩
    exact (Name.plain _).2.1 ((mem_part hpart (by decide)).mp hslash)

theorem relPathString_ok (h : relPathString dst saveDir = .ok s) :
    ∃ rel parts, dst = saveDir ++ rel ∧ List.Forall₂ IsPart rel parts ∧ s.splitOn '/' = parts := by
  rw [relPathString] at h
  split_ifs at h with hfront
  cases hparts : relParts (dst.drop saveDir.length) with
  | error e =>
    rw [hparts] at h
    cases h
  | ok parts =>
    rw [hparts] at h
    have hjoin : (if parts = [] then Except.error "empty relative path"
        else Except.ok (['/'].intercalate parts)) = Except.ok s := h
    split_ifs at hjoin with hne
    obtain rfl := Except.ok.inj hjoin
    have hall := relParts_ok hparts
    obtain ⟨rel,rfl⟩ := isPrefixOf_iff_prefix.mp hfront
    rw [drop_left] at hall
    refine ⟨rel,parts,rfl,hall,splitOn_intercalate '/' (no_slash hall) hne⟩

/-- A path that is written comes back, or is refused, by its names. -/
theorem resolve_rel (h : relPathString dst saveDir = .ok s) :
    (IsPortable dst saveDir → resolveRelPath s saveDir = .ok dst) ∧
      (¬ IsPortable dst saveDir → ∃ e, resolveRelPath s saveDir = .error e) := by
  obtain ⟨rel,parts,rfl,hall,hsplit⟩ := relPathString_ok h
  rw [IsPortable, drop_left, resolveRelPath, hsplit]
  refine ⟨resolveFrom_ok hall,fun hnot => ?_⟩
  obtain ⟨name,hnot⟩ := not_forall.mp hnot
  obtain ⟨hname,hnot⟩ := Classical.not_imp.mp hnot
  exact resolveFrom_error hall hname hnot

/-! ## The writer -/

structure SelectedEntry where
  fileId : ℕ
  relPath : List Char
  len : ℕ
deriving DecidableEq

structure PartsHeader where
  version : ℕ
  infoHash : List Char
  pieceLength : ℕ
  totalLength : ℕ
  selected : List SelectedEntry
  segments : List SegmentEntry
deriving DecidableEq

/-- `serde_json` for the header. -/
structure Serde where
  toVec : PartsHeader → Option Bytes
  fromSlice : Bytes → Option PartsHeader

def Serde.RoundTrips (serde : Serde) : Prop :=
  ∀ header json, serde.toVec header = some json →
    json ≠ [] ∧ serde.fromSlice json = some header

def partsMagic : Bytes := [0x46, 0x58, 0x50, 0x41, 0x52, 0x54, 0x53, 0x31]

def partsVersion : ℕ := 1

def maxHeaderLen : ℕ := 16 * 1024 * 1024

structure SidecarWriteRequest where
  sidecarPath : Path
  infoHashHex : List Char
  pieceLength : ℕ
  totalLength : ℕ
  files : List PartsFileMeta
  selected : List (ℕ × Path)
  saveDir : Path

/-- The bytes of a segment are copied in chunks. -/
def copyRange (src : Bytes) (pos remaining : ℕ) : Option Bytes :=
  if remaining = 0 then some []
  else
    (readExactAt src pos (min remaining (256 * 1024))).bind fun buf =>
      (copyRange src (pos + min remaining (256 * 1024))
        (remaining - min remaining (256 * 1024))).map (buf ++ ·)
termination_by remaining
decreasing_by omega

section
variable (serde : Serde) (stage : List (List Char) → Option Bytes) (diskError : Option String)

def selectedEntries (files : List PartsFileMeta) (saveDir : Path) :
    List (ℕ × Path) → Except String (List SelectedEntry)
  | [] => .ok []
  | (id, dst) :: rest =>
      match files[id]? with
      | none => .error "selected file_id out of range"
      | some f =>
          (relPathString dst saveDir).bind fun relPath =>
            (selectedEntries files saveDir rest).map (⟨id,relPath,f.len⟩ :: ·)

def copySegments (files : List PartsFileMeta) : List Segment → Except String Bytes
  | [] => .ok []
  | s :: rest =>
      match (files[s.fileId]?).bind fun f => stage f.relativePath with
      | none => .error "open staging"
      | some src =>
          match copyRange src s.offset s.len with
          | none => .error "read staging"
          | some bytes => (copySegments files rest).map (bytes ++ ·)

def SidecarWriteRequest.segments (req : SidecarWriteRequest) : List Segment :=
  boundarySegments req.files (req.selected.map Prod.fst).toFinset req.pieceLength req.totalLength

def SidecarWriteRequest.header (req : SidecarWriteRequest) (selected : List SelectedEntry) :
    PartsHeader :=
  ⟨partsVersion,req.infoHashHex,req.pieceLength,req.totalLength,selected,
    segmentEntries 0 req.segments⟩

/-- The bytes of the sidecar and the number of its segments. -/
def writeSidecar (req : SidecarWriteRequest) : Except String (Bytes × ℕ) :=
  (selectedEntries req.files req.saveDir req.selected).bind fun selected =>
    match serde.toVec (req.header selected) with
    | none => .error "serialize header"
    | some json =>
        if maxHeaderLen < json.length then .error "header too large"
        else match diskError with
          | some e => .error e
          | none =>
              (copySegments stage req.files req.segments).map fun blob =>
                (partsMagic ++ (Reader.toLe 4 json.length ++ (json ++ blob)), req.segments.length)

end

/-! ## The loader -/

structure SegSpec where
  offset : ℕ
  len : ℕ
  blobPos : ℕ

structure SeedLayout where
  sidecarPath : Path
  infoHash : List Char
  selected : List (ℕ × Path)
  parts : ℕ → List SegSpec
  maxFileId : ℕ

def loadSelected (saveDir : Path) :
    List SelectedEntry → List (ℕ × Path) → ℕ → Except String (List (ℕ × Path) × ℕ)
  | [], selected, maxFileId => .ok (selected, maxFileId)
  | entry :: rest, selected, maxFileId =>
      (resolveRelPath entry.relPath saveDir).bind fun path =>
        if (selected.lookup entry.fileId).isSome then .error "duplicate selected file_id"
        else loadSelected saveDir rest ((entry.fileId, path) :: selected)
          (max maxFileId entry.fileId)

def loadSegments (selected : List (ℕ × Path)) (blobLen : ℕ) :
    List SegmentEntry → ℕ → Except String ℕ
  | [], maxFileId => .ok maxFileId
  | entry :: rest, maxFileId =>
      if (selected.lookup entry.segment.fileId).isSome then .error "segment for selected file_id"
      else if 2 ^ 64 ≤ entry.blobOffset + entry.segment.len then .error "segment overflow"
      else if blobLen < entry.blobOffset + entry.segment.len then .error "segment beyond blob end"
      else loadSegments selected blobLen rest (max maxFileId entry.segment.fileId)

/-- The parts of a file, in the order of their places in it. -/
def partsOf (blobBase : ℕ) (segments : List SegmentEntry) (id : ℕ) : List SegSpec :=
  ((segments.filter fun entry => entry.segment.fileId == id).map fun entry =>
    ⟨entry.segment.offset,entry.segment.len,blobBase + entry.blobOffset⟩).mergeSort
    fun a b => a.offset ≤ b.offset

def seedLayout (sidecarPath saveDir : Path) (header : PartsHeader) (blobBase fileLen : ℕ) :
    Except String SeedLayout :=
  (loadSelected saveDir header.selected [] 0).bind fun (selected, maxFileId) =>
    if selected = [] then .error "sidecar has no selected files"
    else (loadSegments selected (fileLen - blobBase) header.segments maxFileId).map
      fun maxFileId =>
        ⟨sidecarPath,header.infoHash,selected,partsOf blobBase header.segments,maxFileId⟩

/-- There is nothing to load if the sidecar is not there. -/
def loadSeedFactory (serde : Serde) (file : Except String (Option Bytes))
    (sidecarPath saveDir : Path) : Except String (Option SeedLayout) :=
  file.bind fun
    | none => .ok none
    | some bytes =>
        match Reader.take 8 bytes with
        | (none, _) => .error "read"
        | (some magic, rest) =>
            if magic ≠ partsMagic then .error "bad magic"
            else match Reader.u32Le rest with
              | (none, _) => .error "read"
              | (some headerLen, rest) =>
                  if headerLen.toNat = 0 ∨ maxHeaderLen < headerLen.toNat then
                    .error "bad header length"
                  else match Reader.take headerLen.toNat rest with
                    | (none, _) => .error "read"
                    | (some json, _) =>
                        match serde.fromSlice json with
                        | none => .error "parse header"
                        | some header =>
                            if header.version ≠ partsVersion then .error "unsupported version"
                            else (seedLayout sidecarPath saveDir header (12 + headerLen.toNat)
                              bytes.length).map some

/-! ## What is loaded -/

section
variable {files : List PartsFileMeta} {selected acc : List (ℕ × Path)}
  {entries : List SelectedEntry} {maxFileId n : ℕ}

/-- The entry of a selected file. -/
inductive IsEntry (files : List PartsFileMeta) (saveDir : Path) : ℕ × Path → SelectedEntry → Prop
  | intro {id : ℕ} {dst : Path} {relPath : List Char} {f : PartsFileMeta}
      (hf : files[id]? = some f) (hrel : relPathString dst saveDir = .ok relPath) :
      IsEntry files saveDir (id, dst) ⟨id,relPath,f.len⟩

theorem selectedEntries_ok (h : selectedEntries files saveDir selected = .ok entries) :
    List.Forall₂ (IsEntry files saveDir) selected entries := by
  induction selected generalizing entries with
  | nil =>
    obtain rfl := Except.ok.inj h
    exact .nil
  | cons x selected ih =>
    obtain ⟨id,dst⟩ := x
    rw [selectedEntries] at h
    cases hf : files[id]? with
    | none =>
      rw [hf] at h
      cases h
    | some f =>
      rw [hf] at h
      cases hrel : relPathString dst saveDir with
      | error e =>
        rw [hrel] at h
        cases h
      | ok relPath =>
        rw [hrel] at h
        cases hrest : selectedEntries files saveDir selected with
        | error e =>
          rw [hrest] at h
          cases h
        | ok rest =>
          rw [hrest] at h
          obtain rfl := Except.ok.inj h
          exact .cons ⟨hf,hrel⟩ (ih hrest)

theorem loadSelected_ok (h : List.Forall₂ (IsEntry files saveDir) selected entries)
    (hportable : ∀ x ∈ selected, IsPortable x.2 saveDir)
    (hnew : (selected.map Prod.fst ++ acc.map Prod.fst).Nodup) :
    ∃ m, loadSelected saveDir entries acc maxFileId = .ok (selected.reverse ++ acc, m) ∧
      (maxFileId < n → (∀ x ∈ selected, x.1 < n) → m < n) := by
  induction h generalizing acc maxFileId with
  | nil => exact ⟨maxFileId,rfl,fun hmax _ => hmax⟩
  | @cons x entry selected entries hentry _ ih =>
    obtain ⟨hf,hrel⟩ := hentry
    rename_i id dst relPath f
    obtain ⟨hdst,hrest⟩ := forall_mem_cons.mp hportable
    have hresolve := (resolve_rel hrel).1 hdst
    have hnew' : (selected.map Prod.fst ++ ((id, dst) :: acc).map Prod.fst).Nodup := by
      rw [map_cons]
      exact (perm_middle.nodup_iff).mpr hnew
    have hnone : ((acc.lookup id).isSome) = false := by
      rw [← Bool.not_eq_true, ← KeyedTable.mem_keys]
      rw [map_cons, cons_append, nodup_cons] at hnew
      exact fun hmem => hnew.1 (mem_append_right _ hmem)
    obtain ⟨m,hload,hbound⟩ := @ih ((id, dst) :: acc) (max maxFileId id) hrest hnew'
    refine ⟨m,?_,fun hmax hids => ?_⟩
    · rw [loadSelected, hresolve]
      dsimp only [Except.bind]
      rw [if_neg (by rw [hnone]; exact Bool.false_ne_true), hload]
      simp
    · obtain ⟨hid,hids⟩ := forall_mem_cons.mp hids
      exact hbound (max_lt hmax hid) hids

theorem loadSelected_error (h : List.Forall₂ (IsEntry files saveDir) selected entries)
    (hbad : ¬ ((∀ x ∈ selected, IsPortable x.2 saveDir) ∧
      (selected.map Prod.fst ++ acc.map Prod.fst).Nodup)) (hacc : (acc.map Prod.fst).Nodup) :
    ∃ e, loadSelected saveDir entries acc maxFileId = .error e := by
  induction h generalizing acc maxFileId with
  | nil => exact absurd ⟨forall_mem_nil _,hacc⟩ hbad
  | @cons x entry selected entries hentry _ ih =>
    obtain ⟨hf,hrel⟩ := hentry
    rename_i id dst relPath f
    rw [loadSelected]
    by_cases hdst : IsPortable dst saveDir
    · rw [(resolve_rel hrel).1 hdst]
      dsimp only [Except.bind]
      split_ifs with hsome
      · exact ⟨_,rfl⟩
      · have hnotMem : id ∉ acc.map Prod.fst := fun hmem => hsome (KeyedTable.mem_keys.mp hmem)
        refine ih (fun hgood => hbad ?_) (nodup_cons.mpr ⟨hnotMem,hacc⟩)
        refine ⟨forall_mem_cons.mpr ⟨hdst,hgood.1⟩,?_⟩
        have hnodup := hgood.2
        rw [map_cons] at hnodup
        exact (perm_middle.nodup_iff).mp hnodup
    · obtain ⟨e,he⟩ := (resolve_rel hrel).2 hdst
      rw [he]
      exact ⟨e,rfl⟩

theorem loadSegments_ok {segments : List SegmentEntry} {blobLen : ℕ}
    (h : ∀ entry ∈ segments, selected.lookup entry.segment.fileId = none ∧
      entry.blobOffset + entry.segment.len ≤ blobLen ∧ entry.segment.fileId < n)
    (hblob : blobLen < 2 ^ 64) (hmax : maxFileId < n) :
    ∃ m, loadSegments selected blobLen segments maxFileId = .ok m ∧ m < n := by
  induction segments generalizing maxFileId with
  | nil => exact ⟨maxFileId,rfl,hmax⟩
  | cons entry segments ih =>
    obtain ⟨⟨hnone,hle,hid⟩,hrest⟩ := forall_mem_cons.mp h
    rw [loadSegments, hnone, if_neg (by simp), if_neg (by omega), if_neg (by omega)]
    exact ih hrest (max_lt hmax hid)

end

/-! ## What is written -/

section
variable {serde : Serde} {stage : List (List Char) → Option Bytes} {diskError : Option String}
  {req : SidecarWriteRequest} {files : List PartsFileMeta} {segments : List Segment}
  {src bytes blob written : Bytes} {pos n blobCursor count : ℕ}

theorem copyRange_some (h : copyRange src pos n = some bytes) :
    bytes.length = n ∧ ∀ i < n, bytes[i]? = src[pos + i]? := by
  induction n using Nat.strong_induction_on generalizing pos bytes with
  | _ n ih =>
    rw [copyRange] at h
    split_ifs at h with hzero
    · obtain rfl := some.inj h
      exact ⟨hzero.symm,by omega⟩
    · obtain ⟨buf,hbuf,hrest⟩ := bind_eq_some_iff.mp h
      obtain ⟨rest,hcopy,rfl⟩ := map_eq_some_iff.mp hrest
      generalize hchunk : min n (256 * 1024) = chunk at hbuf hcopy
      obtain ⟨hlength,hget⟩ := readExactAt_some hbuf
      obtain ⟨hlength',hget'⟩ := ih (n - chunk) (by omega) hcopy
      refine ⟨by rw [length_append]; omega,fun i hi => ?_⟩
      obtain hlt | hge := Nat.lt_or_ge i chunk
      · rw [getElem?_append_left (by omega), hget i hlt]
      · have hplace : pos + chunk + (i - chunk) = pos + i := by omega
        rw [getElem?_append_right (by omega), hlength, hget' _ (by omega), hplace]

def stageByte (stage : List (List Char) → Option Bytes) (f : PartsFileMeta) (k : ℕ) : UInt8 :=
  (((stage f.relativePath).getD [])[k]?).getD 0

/-- The blob has the staging bytes of all segments where their entries say. -/
theorem copySegments_ok (h : copySegments stage files segments = .ok blob) :
    blob.length = (segments.map Segment.len).sum ∧
      ∀ entry ∈ segmentEntries blobCursor segments, ∀ f, files[entry.segment.fileId]? = some f →
        ∀ i < entry.segment.len, blob[entry.blobOffset - blobCursor + i]? =
          some (stageByte stage f (entry.segment.offset + i)) := by
  induction segments generalizing blob blobCursor with
  | nil =>
    obtain rfl := Except.ok.inj h
    exact ⟨rfl,fun entry hentry => absurd hentry not_mem_nil⟩
  | cons s segments ih =>
    rw [copySegments] at h
    cases hsrc : (files[s.fileId]?).bind fun f => stage f.relativePath with
    | none =>
      rw [hsrc] at h
      cases h
    | some src =>
      rw [hsrc] at h
      dsimp only at h
      cases hcopy : copyRange src s.offset s.len with
      | none =>
        rw [hcopy] at h
        cases h
      | some bytes =>
        rw [hcopy] at h
        cases hrest : copySegments stage files segments with
        | error e =>
          rw [hrest] at h
          cases h
        | ok rest =>
          rw [hrest] at h
          obtain rfl := Except.ok.inj h
          obtain ⟨hlength,hget⟩ := copyRange_some hcopy
          obtain ⟨hlength',hget'⟩ := @ih rest (blobCursor + s.len) hrest
          refine ⟨by rw [length_append, map_cons, sum_cons]; omega,?_⟩
          intro entry hentry f hf i hi
          obtain rfl | hentry := mem_cons.mp hentry
          · have hstage : stage f.relativePath = some src := by
              rw [hf] at hsrc
              exact hsrc
            dsimp only at hi ⊢
            have hbyte := hget i hi
            rw [getElem?_eq_getElem (by omega : i < bytes.length)] at hbyte
            rw [Nat.sub_self, Nat.zero_add, getElem?_append_left (by omega),
              getElem?_eq_getElem (by omega), stageByte, hstage, getD_some, ← hbyte,
              getD_some]
          · have hle := le_blobOffset hentry
            have hplace : entry.blobOffset - blobCursor + i - bytes.length =
                entry.blobOffset - (blobCursor + s.len) + i := by omega
            rw [getElem?_append_right (by omega), hplace]
            exact hget' entry hentry f hf i hi

def sidecarBytes (json blob : Bytes) : Bytes :=
  partsMagic ++ (Reader.toLe 4 json.length ++ (json ++ blob))

theorem writeSidecar_ok (h : writeSidecar serde stage diskError req = .ok (written, count)) :
    ∃ entries json blob, List.Forall₂ (IsEntry req.files req.saveDir) req.selected entries ∧
      serde.toVec (req.header entries) = some json ∧ json.length ≤ maxHeaderLen ∧
      copySegments stage req.files req.segments = .ok blob ∧ written = sidecarBytes json blob := by
  rw [writeSidecar] at h
  cases hentries : selectedEntries req.files req.saveDir req.selected with
  | error e =>
    rw [hentries] at h
    cases h
  | ok entries =>
    rw [hentries] at h
    dsimp only [Except.bind] at h
    cases hjson : serde.toVec (req.header entries) with
    | none =>
      rw [hjson] at h
      cases h
    | some json =>
      rw [hjson] at h
      dsimp only at h
      split_ifs at h with hlong
      split at h
      · cases h
      · cases hblob : copySegments stage req.files req.segments with
        | error e =>
          rw [hblob] at h
          cases h
        | ok blob =>
          rw [hblob] at h
          obtain ⟨rfl,-⟩ := Prod.mk.inj (Except.ok.inj h)
          exact ⟨entries,json,blob,selectedEntries_ok hentries,hjson,Nat.le_of_not_lt hlong,
            rfl,rfl⟩

variable {json : Bytes}

theorem length_sidecarBytes :
    (sidecarBytes json blob).length = 12 + json.length + blob.length := by
  have hmagic : partsMagic.length = 8 := rfl
  simp only [sidecarBytes, length_append, hmagic, Reader.length_toLe]
  omega

theorem getElem?_sidecarBytes (i : ℕ) :
    (sidecarBytes json blob)[12 + json.length + i]? = blob[i]? := by
  have hmagic : partsMagic.length = 8 := rfl
  have hfront : (partsMagic ++ (Reader.toLe 4 json.length ++ json)).length = 12 + json.length := by
    simp only [length_append, hmagic, Reader.length_toLe]
    omega
  rw [sidecarBytes, ← append_assoc _ json, ← append_assoc partsMagic,
    getElem?_append_right (by omega), hfront, Nat.add_sub_cancel_left]

/-- The header is read back, and the layout is made from it. -/
theorem loadSeedFactory_sidecarBytes {header : PartsHeader} (hne : json ≠ [])
    (hmax : json.length ≤ maxHeaderLen) (hparse : serde.fromSlice json = some header)
    (hversion : header.version = partsVersion) (sidecarPath saveDir : Path) :
    loadSeedFactory serde (.ok (some (sidecarBytes json blob))) sidecarPath saveDir =
      (seedLayout sidecarPath saveDir header (12 + json.length)
        (12 + json.length + blob.length)).map some := by
  have hmax' : json.length ≤ 16 * 1024 * 1024 := hmax
  have hpos := length_pos_of_ne_nil hne
  have hlen : (UInt32.ofNat json.length).toNat = json.length := by
    rw [UInt32.toNat_ofNat']
    omega
  have hmagic : Reader.take 8 (sidecarBytes json blob) =
      (some partsMagic, Reader.toLe 4 json.length ++ (json ++ blob)) := Reader.reads_take rfl _
  have hread : Reader.u32Le (Reader.toLe 4 json.length ++ (json ++ blob)) =
      (some (UInt32.ofNat json.length), json ++ blob) := by
    have hreads := Reader.reads_u32Le (UInt32.ofNat json.length)
    rw [hlen] at hreads
    exact hreads _
  have hjson : Reader.take json.length (json ++ blob) = (some json, blob) :=
    Reader.reads_take rfl _
  have hbound : ¬ (json.length = 0 ∨ maxHeaderLen < json.length) := by
    rw [maxHeaderLen]
    omega
  simp only [loadSeedFactory, Except.bind, hmagic, hread, hlen, hjson, hparse, hversion,
    length_sidecarBytes, ne_eq, not_true_eq_false, if_false, if_neg hbound]

end

/-! ## The layout that is loaded -/

section
variable {layout : Layout} {sidecarPath saveDir : Path} {infoHash : List Char}
  {selected : List (ℕ × Path)} {entries : List SelectedEntry} {base blobLen : ℕ}

/-- The request for a torrent of which some files were kept. -/
def request (layout : Layout) (sidecarPath saveDir : Path) (infoHash : List Char)
    (selected : List (ℕ × Path)) : SidecarWriteRequest :=
  ⟨sidecarPath,infoHash,layout.pieceLength,layout.totalLength,layout.files,selected,saveDir⟩

/-- What can be loaded: there is a file, no file comes twice, and all places are portable. -/
def Loadable (saveDir : Path) (selected : List (ℕ × Path)) : Prop :=
  selected ≠ [] ∧ (selected.map Prod.fst).Nodup ∧ ∀ x ∈ selected, IsPortable x.2 saveDir

theorem lt_of_isEntry (h : List.Forall₂ (IsEntry layout.files saveDir) selected entries) :
    ∀ x ∈ selected, x.1 < layout.files.length := by
  induction h with
  | nil => exact forall_mem_nil _
  | cons hentry _ ih =>
    obtain ⟨hf,-⟩ := hentry
    exact List.forall_mem_cons.mpr ⟨(List.getElem?_eq_some_iff.mp hf).1,ih⟩

theorem notMem_selected {s : Segment} {ids : Finset ℕ} (h : s ∈ layout.segments ids) :
    s.fileId ∉ ids ∧ s.fileId < layout.files.length := by
  obtain ⟨hpos,-⟩ := mem_boundarySegments h
  obtain ⟨f,hf,hid,-⟩ := wanted_of_mem h ⟨le_rfl,Nat.lt_add_of_pos_right hpos⟩
  exact ⟨hid,(List.getElem?_eq_some_iff.mp hf).1⟩

theorem le_of_mem_segmentEntries {segments : List Segment} {blobCursor : ℕ} {entry : SegmentEntry}
    (h : entry ∈ segmentEntries blobCursor segments) :
    entry.blobOffset + entry.segment.len ≤ blobCursor + (segments.map Segment.len).sum := by
  induction segments generalizing blobCursor with
  | nil => exact absurd h not_mem_nil
  | cons s segments ih =>
    rw [map_cons, sum_cons]
    obtain rfl | h := mem_cons.mp h
    · dsimp only
      omega
    · have hle := ih h
      omega

theorem mem_of_mem_segmentEntries {segments : List Segment} {blobCursor : ℕ}
    {entry : SegmentEntry} (h : entry ∈ segmentEntries blobCursor segments) :
    entry.segment ∈ segments := by
  rw [← @map_segmentEntries segments blobCursor]
  exact mem_map_of_mem h

theorem seedLayout_ok (hload : Loadable saveDir selected)
    (hentries : List.Forall₂ (IsEntry layout.files saveDir) selected entries)
    (htotal : layout.totalLength < 2 ^ 64)
    (hblob : blobLen = ((layout.segments (selected.map Prod.fst).toFinset).map Segment.len).sum) :
    ∃ m < layout.files.length, seedLayout sidecarPath saveDir
      ((request layout sidecarPath saveDir infoHash selected).header entries) base
        (base + blobLen) = .ok ⟨sidecarPath,infoHash,selected.reverse,
          partsOf base (segmentEntries 0 (layout.segments (selected.map Prod.fst).toFinset)),m⟩ := by
  obtain ⟨hne,hnodup,hportable⟩ := hload
  have hids := lt_of_isEntry hentries
  obtain ⟨x,hx⟩ := exists_mem_of_ne_nil selected hne
  obtain ⟨m,hselected,hm⟩ := @loadSelected_ok _ _ _ [] _ 0 layout.files.length
    hentries hportable (by simpa using hnodup)
  rw [append_nil] at hselected
  have hparts : ∀ entry ∈ segmentEntries 0 (layout.segments (selected.map Prod.fst).toFinset),
      selected.reverse.lookup entry.segment.fileId = none ∧
        entry.blobOffset + entry.segment.len ≤ blobLen ∧
          entry.segment.fileId < layout.files.length := by
    intro entry hentry
    obtain ⟨hid,hlt⟩ := notMem_selected (mem_of_mem_segmentEntries hentry)
    have hle := le_of_mem_segmentEntries hentry
    refine ⟨?_,by omega,hlt⟩
    rw [← not_isSome_iff_eq_none, ← KeyedTable.mem_keys, KeyedTable.keys, map_reverse,
      mem_reverse]
    exact fun hmem => hid (mem_toFinset.mpr hmem)
  have hsum := @sum_segments_le layout (selected.map Prod.fst).toFinset
  obtain ⟨m',hsegments,hm'⟩ := loadSegments_ok hparts (by omega)
    (hm (Nat.zero_lt_of_lt (hids x hx)) hids)
  refine ⟨m',hm',?_⟩
  have hsegments' : loadSegments selected.reverse (base + blobLen - base)
      ((request layout sidecarPath saveDir infoHash selected).header entries).segments m = .ok m' := by
    rw [Nat.add_sub_cancel_left]
    exact hsegments
  have hreverse : selected.reverse ≠ [] := by simpa using hne
  have hheader : ((request layout sidecarPath saveDir infoHash selected).header entries).selected =
      entries := rfl
  rw [seedLayout, hheader, hselected]
  dsimp only [Except.bind]
  rw [if_neg hreverse, hsegments']
  rfl

theorem seedLayout_error (hload : ¬ Loadable saveDir selected)
    (hentries : List.Forall₂ (IsEntry layout.files saveDir) selected entries) :
    ∃ e, seedLayout sidecarPath saveDir
      ((request layout sidecarPath saveDir infoHash selected).header entries) base
        (base + blobLen) = .error e := by
  have hheader : ((request layout sidecarPath saveDir infoHash selected).header entries).selected =
      entries := rfl
  rw [seedLayout, hheader]
  by_cases hgood : (∀ x ∈ selected, IsPortable x.2 saveDir) ∧
      (selected.map Prod.fst ++ ([] : List (ℕ × Path)).map Prod.fst).Nodup
  · obtain ⟨m,hselected,-⟩ := @loadSelected_ok _ _ _ _ _ 0 0 hentries hgood.1 hgood.2
    have hnil : selected = [] := by
      by_contra hne
      exact hload ⟨hne,by simpa using hgood.2,hgood.1⟩
    rw [hselected, hnil]
    exact ⟨_,rfl⟩
  · obtain ⟨e,he⟩ := @loadSelected_error _ _ _ _ _ 0 hentries hgood nodup_nil
    rw [he]
    exact ⟨e,rfl⟩

end

end RinaDown.SeedSidecar
