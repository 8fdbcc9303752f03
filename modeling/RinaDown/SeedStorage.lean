import Mathlib.Data.List.Pairwise
import RinaDown.NearestLists
import RinaDown.SeedSidecar

/-!
# The storage of a seeded torrent

A kept file is read and written at the place it was moved to, and the rest goes to the blob of the
sidecar, as far as it has it. What is read is the bytes of the torrent's files, also after writes.
-/

namespace RinaDown.SeedStorage

open BoundarySegments ByteRanges List
open LengthFraming (Bytes)
open PercentDecoding (fromUtf8)
open SeedSidecar
open TextSlices (encode)

abbrev Disk := Path → Option Bytes

def Disk.update (disk : Disk) (path : Path) (content : Bytes) : Disk := fun p =>
  if p = path then some content else disk p

inductive Slot
  | selected (path : Path)
  | parts (segments : List SegSpec)
  | padding

structure PartsSeedStorage where
  slots : List Slot
  blobPath : Path
  filesOpened : Bool
  blobOpened : Bool

/-! ## The storage -/

def slotOf (layout : SeedLayout) (f : PartsFileMeta) (id : ℕ) : Slot :=
  if f.padding then .padding
  else match layout.selected.lookup id with
    | some path => .selected path
    | none => .parts (layout.parts id)

def create (layout : SeedLayout) (torrentHash : List Char) (files : List PartsFileMeta) :
    Except String PartsSeedStorage :=
  if layout.infoHash ≠ [] ∧ layout.infoHash.map Char.toLower ≠ torrentHash.map Char.toLower then
    .error "parts sidecar info-hash mismatch"
  else if files.length ≤ layout.maxFileId then .error "parts sidecar references file_id"
  else .ok ⟨files.zipIdx.map fun (f, id) => slotOf layout f id,layout.sidecarPath,false,false⟩

/-- A selected file that is missing is not made. -/
def Slot.isThere (disk : Disk) : Slot → Bool
  | .selected path => (disk path).isSome
  | _ => true

def Slot.needsBlob : Slot → Bool
  | .parts segments => !segments.isEmpty
  | _ => false

def PartsSeedStorage.init (st : PartsSeedStorage) (disk : Disk) :
    Except String PartsSeedStorage :=
  if ¬ st.slots.all (Slot.isThere disk) then .error "open final file"
  else if st.slots.any Slot.needsBlob then
    if (disk st.blobPath).isSome then .ok { st with filesOpened := true, blobOpened := true }
    else .error "open parts sidecar"
  else .ok { st with filesOpened := true }

/-- From `cur` on the parts are read, with zeros between them. The flag says whether there were
any. -/
def readPartsRanges (blob : Bytes) (stop : ℕ) : List SegSpec → ℕ → Option (Bytes × Bool)
  | [], cur => some (List.replicate (stop - cur) 0, cur < stop)
  | seg :: segments, cur =>
      if seg.offset + seg.len ≤ cur then readPartsRanges blob stop segments cur
      else if stop ≤ seg.offset then some (List.replicate (stop - cur) 0, cur < stop)
      else
        let gapEnd := if cur < seg.offset then min seg.offset stop else cur
        let gap := List.replicate (gapEnd - cur) 0
        if stop ≤ gapEnd then some (gap, cur < gapEnd)
        else
          let takeEnd := min (seg.offset + seg.len) stop
          (readExactAt blob (seg.blobPos + (gapEnd - seg.offset)) (takeEnd - gapEnd)).bind
            fun taken =>
              if stop ≤ takeEnd then some (gap ++ taken, cur < gapEnd)
              else (readPartsRanges blob stop segments takeEnd).map fun (rest, hadGap) =>
                (gap ++ (taken ++ rest), cur < gapEnd || hadGap)

/-- What the parts have room for is written, and counted. -/
def writePartsRanges (offset : ℕ) (buf : Bytes) : List SegSpec → Bytes → Bytes × ℕ
  | [], blob => (blob, 0)
  | seg :: segments, blob =>
      let start := max seg.offset offset
      let stop := min (seg.offset + seg.len) (offset + buf.length)
      if stop ≤ start then writePartsRanges offset buf segments blob
      else
        let (blob, covered) := writePartsRanges offset buf segments
          (writeAllAt blob (seg.blobPos + (start - seg.offset))
            ((buf.drop (start - offset)).take (stop - start)))
        (blob, stop - start + covered)

def PartsSeedStorage.openedFile (st : PartsSeedStorage) (disk : Disk) (path : Path) :
    Except String Bytes :=
  if st.filesOpened then
    match disk path with
    | some content => .ok content
    | none => .error "file not opened"
  else .error "file not opened"

def PartsSeedStorage.openedBlob (st : PartsSeedStorage) (disk : Disk) : Except String Bytes :=
  if st.blobOpened then
    match disk st.blobPath with
    | some blob => .ok blob
    | none => .error "parts blob not opened"
  else .error "parts blob not opened"

def PartsSeedStorage.preadExact (st : PartsSeedStorage) (disk : Disk) (fileId offset n : ℕ) :
    Except String Bytes :=
  match st.slots[fileId]? with
  | some (.selected path) =>
      (st.openedFile disk path).bind fun content =>
        match readExactAt content offset n with
        | some buf => .ok buf
        | none => .error "short read"
  | some (.parts segments) =>
      (st.openedBlob disk).bind fun blob =>
        match readPartsRanges blob (offset + n) segments offset with
        | some (buf, _) => .ok buf
        | none => .error "short read"
  | some .padding => .ok (List.replicate n 0)
  | none => .error "no such file_id"

def PartsSeedStorage.pwriteAll (st : PartsSeedStorage) (disk : Disk) (fileId offset : ℕ)
    (buf : Bytes) : Except String Disk :=
  match st.slots[fileId]? with
  | some (.selected path) =>
      (st.openedFile disk path).map fun content =>
        disk.update path (writeAllAt content offset buf)
  | some (.parts segments) =>
      (st.openedBlob disk).map fun blob =>
        disk.update st.blobPath (writePartsRanges offset buf segments blob).1
  | some .padding => .ok disk
  | none => .error "no such file_id"

/-! ## Reading through the parts -/

section
variable {blob buf : Bytes} {stop cur offset : ℕ} {segments l r : List SegSpec} {seg : SegSpec}
  {g : ℕ → UInt8}

def SegSpec.Covers (seg : SegSpec) (k : ℕ) : Prop := seg.offset ≤ k ∧ k < seg.offset + seg.len

/-- The part has the bytes of the file in the blob. -/
def SegSpec.HasBytes (blob : Bytes) (g : ℕ → UInt8) (seg : SegSpec) : Prop :=
  ∀ i < seg.len, blob[seg.blobPos + i]? = some (g (seg.offset + i))

def Apart (a b : SegSpec) : Prop := a.offset + a.len ≤ b.offset

theorem readPartsRanges_eq (hsorted : segments.Pairwise Apart)
    (hbytes : ∀ seg ∈ segments, SegSpec.HasBytes blob g seg) (hcur : cur ≤ stop)
    (hzero : ∀ k, cur ≤ k → k < stop → (∀ seg ∈ segments, ¬ SegSpec.Covers seg k) → g k = 0) :
    ∃ hadGap, readPartsRanges blob stop segments cur = some (span g cur (stop - cur), hadGap) := by
  induction segments generalizing cur with
  | nil =>
    refine ⟨decide (cur < stop),?_⟩
    rw [readPartsRanges, span_const fun k hge hlt => hzero k hge (by omega) (forall_mem_nil _)]
  | cons seg segments ih =>
    obtain ⟨hapart,hsorted⟩ := pairwise_cons.mp hsorted
    obtain ⟨hseg,hbytes⟩ := forall_mem_cons.mp hbytes
    -- Nothing before the end of the part is in a later one.
    have hlater : ∀ k, k < seg.offset + seg.len → ∀ b ∈ segments, ¬ SegSpec.Covers b k := by
      intro k hk b hb hcovers
      have hle := hapart b hb
      unfold Apart at hle
      have hge := hcovers.1
      omega
    rw [readPartsRanges]
    by_cases hbefore : seg.offset + seg.len ≤ cur
    · rw [if_pos hbefore]
      refine ih hsorted hbytes hcur fun k hge hlt hnone => hzero k hge hlt ?_
      refine forall_mem_cons.mpr ⟨fun hcovers => ?_,hnone⟩
      have hk := hcovers.2
      omega
    by_cases hafter : stop ≤ seg.offset
    · refine ⟨decide (cur < stop),?_⟩
      rw [if_neg hbefore, if_pos hafter, span_const fun k hge hlt => hzero k hge (by omega)
        (forall_mem_cons.mpr ⟨fun hcovers => ?_,hlater k (by omega)⟩)]
      have hk := hcovers.1
      omega
    rw [if_neg hbefore, if_neg hafter]
    dsimp only
    generalize hgapEnd : (if cur < seg.offset then min seg.offset stop else cur) = gapEnd
    have hends : cur ≤ gapEnd ∧ gapEnd ≤ stop ∧ (gapEnd = cur ∨ gapEnd ≤ seg.offset) ∧
        (stop ≤ gapEnd ∨ seg.offset ≤ gapEnd) := by
      split_ifs at hgapEnd <;> omega
    obtain ⟨hge,hle,hgapped,hreached⟩ := hends
    have hgap : List.replicate (gapEnd - cur) 0 = span g cur (gapEnd - cur) := by
      refine (span_const fun k hge hlt => hzero k hge (by omega) ?_).symm
      refine forall_mem_cons.mpr ⟨fun hcovers => ?_,hlater k (by omega)⟩
      have hk := hcovers.1
      omega
    by_cases hdone : stop ≤ gapEnd
    · obtain rfl : gapEnd = stop := by omega
      exact ⟨decide (cur < gapEnd),by rw [if_pos le_rfl, hgap]⟩
    rw [if_neg hdone]
    generalize htakeEnd : min (seg.offset + seg.len) stop = takeEnd
    have htake : gapEnd ≤ takeEnd := by omega
    have hread : readExactAt blob (seg.blobPos + (gapEnd - seg.offset)) (takeEnd - gapEnd) =
        some (span g gapEnd (takeEnd - gapEnd)) := by
      refine readExactAt_eq fun i hi => ?_
      have hplace : seg.offset + (gapEnd - seg.offset + i) = gapEnd + i := by omega
      rw [Nat.add_assoc, hseg _ (by omega), hplace]
    have hjoin : span g cur (gapEnd - cur) ++ span g gapEnd (takeEnd - gapEnd) =
        span g cur (takeEnd - cur) := by
      have happend := @span_append g cur (gapEnd - cur) (takeEnd - gapEnd)
      rw [Nat.add_sub_cancel' hge] at happend
      rw [happend]
      congr 1
      omega
    rw [hread, Option.bind_some, hgap]
    by_cases hall : stop ≤ takeEnd
    · obtain rfl : takeEnd = stop := by omega
      exact ⟨decide (cur < gapEnd),by rw [if_pos le_rfl, hjoin]⟩
    · obtain ⟨hadGap,hrest⟩ := ih hsorted hbytes (show takeEnd ≤ stop by omega)
        fun k hge hlt hnone => hzero k (by omega) hlt
          (forall_mem_cons.mpr ⟨fun hcovers => by have hk := hcovers.2; omega,hnone⟩)
      refine ⟨decide (cur < gapEnd) || hadGap,?_⟩
      have happend := @span_append g cur (takeEnd - cur) (stop - takeEnd)
      rw [Nat.add_sub_cancel' (by omega)] at happend
      rw [if_neg hall, hrest, Option.map_some, ← append_assoc, hjoin, happend]
      congr 3
      omega

theorem writePartsRanges_skip (hskip : ∀ seg ∈ l, ∀ k, offset ≤ k → k < offset + buf.length →
    ¬ SegSpec.Covers seg k) (hne : buf ≠ []) :
    writePartsRanges offset buf (l ++ r) blob = writePartsRanges offset buf r blob := by
  induction l with
  | nil => rfl
  | cons seg l ih =>
    obtain ⟨hseg,hskip⟩ := forall_mem_cons.mp hskip
    have hpos := length_pos_of_ne_nil hne
    have hnone : min (seg.offset + seg.len) (offset + buf.length) ≤ max seg.offset offset := by
      by_contra hsome
      exact hseg (max seg.offset offset) (by omega) (by omega) ⟨by omega,by omega⟩
    rw [cons_append, writePartsRanges]
    dsimp only
    rw [if_pos hnone, ih hskip]

theorem writePartsRanges_nil : writePartsRanges offset [] segments blob = (blob, 0) := by
  induction segments with
  | nil => rfl
  | cons seg segments ih =>
    rw [writePartsRanges]
    dsimp only [length_nil]
    rw [if_pos (by omega), ih]

theorem writePartsRanges_inside (hsorted : (l ++ seg :: r).Pairwise Apart)
    (hin : seg.offset ≤ offset ∧ offset + buf.length ≤ seg.offset + seg.len) :
    (writePartsRanges offset buf (l ++ seg :: r) blob).1 =
      writeAllAt blob (seg.blobPos + (offset - seg.offset)) buf := by
  by_cases hne : buf = []
  · rw [hne, writePartsRanges_nil, writeAllAt, if_pos rfl]
  have hpos := length_pos_of_ne_nil hne
  obtain ⟨-,hright,hacross⟩ := pairwise_append.mp hsorted
  have hl : ∀ b ∈ l, ∀ k, offset ≤ k → k < offset + buf.length → ¬ SegSpec.Covers b k := by
    intro b hb k hge hlt hcovers
    have hle : b.offset + b.len ≤ seg.offset := hacross b hb seg mem_cons_self
    have hk := hcovers.2
    omega
  have hr : ∀ b ∈ r, ∀ k, offset ≤ k → k < offset + buf.length → ¬ SegSpec.Covers b k := by
    intro b hb k hge hlt hcovers
    have hle : seg.offset + seg.len ≤ b.offset := (pairwise_cons.mp hright).1 b hb
    have hk := hcovers.1
    omega
  have hrest : ∀ blob, writePartsRanges offset buf r blob = (blob, 0) := fun blob => by
    have hskip := @writePartsRanges_skip blob _ _ _ [] hr hne
    rwa [append_nil] at hskip
  have hstart : max seg.offset offset = offset := by omega
  have hstop : min (seg.offset + seg.len) (offset + buf.length) = offset + buf.length := by omega
  rw [writePartsRanges_skip hl hne, writePartsRanges]
  dsimp only
  rw [hstart, hstop, if_neg (by omega), hrest, Nat.sub_self, drop_zero,
    take_of_length_le (by omega)]

end

/-! ## The parts of a file -/

section
variable {layout : Layout} {selected : List (ℕ × Path)} {base id k : ℕ} {seg : SegSpec}

def kept (layout : Layout) (selected : List (ℕ × Path)) : List Segment :=
  layout.segments (selected.map Prod.fst).toFinset

def keptEntries (layout : Layout) (selected : List (ℕ × Path)) : List SegmentEntry :=
  segmentEntries 0 (kept layout selected)

abbrev IsBoundary (layout : Layout) (selected : List (ℕ × Path)) (id k : ℕ) : Prop :=
  layout.Wanted (selected.map Prod.fst).toFinset id k

def specOf (base : ℕ) (entry : SegmentEntry) : SegSpec :=
  ⟨entry.segment.offset,entry.segment.len,base + entry.blobOffset⟩

theorem mem_partsOf {entries : List SegmentEntry} : seg ∈ partsOf base entries id ↔
    ∃ entry ∈ entries, entry.segment.fileId = id ∧ seg = specOf base entry := by
  rw [partsOf, mem_mergeSort, mem_map]
  constructor
  · rintro ⟨entry,hentry,rfl⟩
    obtain ⟨hentry,hid⟩ := mem_filter.mp hentry
    exact ⟨entry,hentry,beq_iff_eq.mp hid,rfl⟩
  · rintro ⟨entry,hentry,hid,rfl⟩
    exact ⟨entry,mem_filter.mpr ⟨hentry,beq_iff_eq.mpr hid⟩,rfl⟩

theorem exists_entry {s : Segment} (hs : s ∈ kept layout selected) :
    ∃ entry ∈ keptEntries layout selected, entry.segment = s := by
  rw [← @map_segmentEntries (kept layout selected) 0] at hs
  obtain ⟨entry,hentry,heq⟩ := mem_map.mp hs
  exact ⟨entry,hentry,heq⟩

/-- The parts of a file cover its boundary bytes. -/
theorem covers_iff : (∃ seg ∈ partsOf base (keptEntries layout selected) id, SegSpec.Covers seg k) ↔
    IsBoundary layout selected id k := by
  rw [IsBoundary, ← exists_covers_iff]
  constructor
  · rintro ⟨seg,hseg,hcovers⟩
    obtain ⟨entry,hentry,rfl,rfl⟩ := mem_partsOf.mp hseg
    exact ⟨entry.segment,mem_of_mem_segmentEntries hentry,decide_eq_true ⟨rfl,hcovers⟩⟩
  · rintro ⟨s,hs,hcovers⟩
    obtain ⟨entry,hentry,rfl⟩ := exists_entry hs
    obtain ⟨hid,hk⟩ := of_decide_eq_true hcovers
    exact ⟨specOf base entry,mem_partsOf.mpr ⟨entry,hentry,hid,rfl⟩,hk⟩

/-- Where no byte is covered twice, no two segments have one in common. -/
theorem pairwise_of_countP {α β : Type} {covers : β → α → Bool} {l : List α}
    (h : ∀ k, l.countP (covers k) ≤ 1) :
    l.Pairwise fun a b => ∀ k, ¬ (covers k a = true ∧ covers k b = true) := by
  induction l with
  | nil => exact .nil
  | cons a l ih =>
    refine .cons (fun b hb k hboth => ?_) (ih fun k => ?_)
    · have hcount := h k
      rw [countP_cons, if_pos hboth.1] at hcount
      have hpos := countP_pos_iff.mpr ⟨b,hb,hboth.2⟩
      omega
    · have hcount := h k
      rw [countP_cons] at hcount
      omega

theorem pairwise_keptEntries : (keptEntries layout selected).Pairwise fun a b =>
    ∀ id k, ¬ (a.segment.covers id k = true ∧ b.segment.covers id k = true) := by
  have honce : ∀ x : ℕ × ℕ, (kept layout selected).countP (fun s => s.covers x.1 x.2) ≤ 1 :=
    fun x => (boundary_segments_kept layout _).once x.1 x.2
  have hpairwise := @pairwise_of_countP Segment (ℕ × ℕ) (fun x s => s.covers x.1 x.2) _ honce
  rw [← @map_segmentEntries (kept layout selected) 0, pairwise_map] at hpairwise
  exact hpairwise.imp fun h id k => h (id, k)

/-- The parts of a file come one after the other. -/
theorem pairwise_partsOf : (partsOf base (keptEntries layout selected) id).Pairwise Apart := by
  have hsorted : (partsOf base (keptEntries layout selected) id).Pairwise fun a b =>
      a.offset ≤ b.offset :=
    NearestLists.pairwise_mergeSort_dist SegSpec.offset _
  have hdisjoint : (partsOf base (keptEntries layout selected) id).Pairwise fun a b =>
      ∀ k, ¬ (SegSpec.Covers a k ∧ SegSpec.Covers b k) := by
    have hperm := mergeSort_perm (((keptEntries layout selected).filter fun entry =>
      entry.segment.fileId == id).map (specOf base)) fun a b => decide (a.offset ≤ b.offset)
    refine (hperm.pairwise_iff fun h k hboth => h k hboth.symm).mpr ?_
    rw [pairwise_map]
    refine (pairwise_keptEntries.filter _).imp_of_mem fun ha hb h k hboth => h id k ?_
    have hida := beq_iff_eq.mp (mem_filter.mp ha).2
    have hidb := beq_iff_eq.mp (mem_filter.mp hb).2
    exact ⟨decide_eq_true ⟨hida,hboth.1⟩,decide_eq_true ⟨hidb,hboth.2⟩⟩
  refine (hsorted.and hdisjoint).imp_of_mem fun {a b} ha hb h => ?_
  obtain ⟨hle,hnone⟩ := h
  have hpos : 0 < b.len := by
    obtain ⟨entry,hentry,-,rfl⟩ := mem_partsOf.mp hb
    exact (mem_boundarySegments (mem_of_mem_segmentEntries hentry)).1
  by_contra hlt
  unfold Apart at hlt
  exact hnone b.offset ⟨⟨hle,by omega⟩,⟨le_rfl,by omega⟩⟩

end

/-! ## Serving -/

structure Write where
  fileId : ℕ
  offset : ℕ
  buf : Bytes

def Write.over (w : Write) (bytes : ℕ → ℕ → UInt8) : ℕ → ℕ → UInt8 := fun id =>
  if id = w.fileId then overwrite (bytes id) w.offset w.buf else bytes id

/-- The write is inside one of the segments. -/
def Write.Inside (segments : List Segment) (w : Write) : Prop :=
  ∃ s ∈ segments, s.fileId = w.fileId ∧ s.offset ≤ w.offset ∧
    w.offset + w.buf.length ≤ s.offset + s.len

def PartsSeedStorage.writes (st : PartsSeedStorage) (disk : Disk) :
    List Write → Except String Disk
  | [] => .ok disk
  | w :: rest => (st.pwriteAll disk w.fileId w.offset w.buf).bind fun disk => st.writes disk rest

section
variable (layout : Layout) (selected : List (ℕ × Path))

/-- The selected files are where they were moved to. -/
def Originals (disk : Disk) : Prop :=
  ∀ x ∈ selected, ∀ f, layout.files[x.1]? = some f →
    ∃ content, disk x.2 = some content ∧ content.length = f.len

/-- The bytes of the selected files on the disk, and of the others at the boundaries. -/
def view (disk : Disk) (boundary : ℕ → ℕ → UInt8) (id k : ℕ) : UInt8 :=
  match selected.lookup id with
  | some dst => (((disk dst).getD [])[k]?).getD 0
  | none => boundary id k

/-- Any span of a file is read as these bytes. With no segment at all the blob is not opened, and
what is not selected has no byte to be read. -/
def Serves (st : PartsSeedStorage) (disk : Disk) (bytes : ℕ → ℕ → UInt8) : Prop :=
  ∀ id f offset n, layout.files[id]? = some f → offset + n ≤ f.len →
    (id ∈ selected.map Prod.fst ∨ f.padding = true ∨ kept layout selected ≠ []) →
    st.preadExact disk id offset n = .ok (span (bytes id) offset n)

/-- The blob of the sidecar has these bytes at the boundaries, and its header is as written. -/
structure BlobHolds (blobPath : Path) (base : ℕ) (written : Bytes) (disk : Disk)
    (boundary : ℕ → ℕ → UInt8) : Prop where
  file : ∃ file, disk blobPath = some file ∧ file.length = written.length ∧
    (∀ i < base, file[i]? = written[i]?) ∧
    ∀ entry ∈ keptEntries layout selected, ∀ i < entry.segment.len,
      file[base + entry.blobOffset + i]? =
        some (boundary entry.segment.fileId (entry.segment.offset + i))
  outside : ∀ id k, ¬ IsBoundary layout selected id k → boundary id k = 0

end

section
variable {layout : Layout} {selected : List (ℕ × Path)} {base m : ℕ} {blobPath : Path}
  {infoHash torrentHash : List Char} {disk : Disk} {boundary : ℕ → ℕ → UInt8} {written : Bytes}
  {st : PartsSeedStorage}

theorem lookup_of_mem {l : List (ℕ × Path)} (hnodup : (l.map Prod.fst).Nodup) {x : ℕ × Path}
    (hx : x ∈ l) : l.lookup x.1 = some x.2 :=
  (KeyedTable.lookup_eq_some_iff hnodup).mpr hx

theorem lookup_of_notMem {l : List (ℕ × Path)} {id : ℕ} (hid : id ∉ l.map Prod.fst) :
    l.lookup id = none := by
  rw [← Option.not_isSome_iff_eq_none, ← KeyedTable.mem_keys]
  exact hid

def loaded (layout : Layout) (selected : List (ℕ × Path)) (base : ℕ) (blobPath : Path)
    (infoHash : List Char) (m : ℕ) : SeedLayout :=
  ⟨blobPath,infoHash,selected.reverse,partsOf base (keptEntries layout selected),m⟩

def opened (layout : Layout) (selected : List (ℕ × Path)) (loaded : SeedLayout) :
    PartsSeedStorage where
  slots := layout.files.zipIdx.map fun (f, id) => slotOf loaded f id
  blobPath := loaded.sidecarPath
  filesOpened := true
  blobOpened := decide (kept layout selected ≠ [])

section
variable {id : ℕ} {f : PartsFileMeta}

theorem slots_opened {l : SeedLayout} (hf : layout.files[id]? = some f) :
    (opened layout selected l).slots[id]? = some (slotOf l f id) := by
  rw [opened, getElem?_map, getElem?_zipIdx, hf, Nat.zero_add]
  rfl

theorem slotOf_padding {l : SeedLayout} (hpadding : f.padding = true) :
    slotOf l f id = .padding := if_pos hpadding

theorem slotOf_selected (hpadding : f.padding = false) (hnodup : (selected.map Prod.fst).Nodup)
    {dst : Path} (hdst : (id, dst) ∈ selected) :
    slotOf (loaded layout selected base blobPath infoHash m) f id = .selected dst := by
  have hreverse : (selected.reverse.map Prod.fst).Nodup := by
    rw [map_reverse]
    exact nodup_reverse.mpr hnodup
  have hlookup : selected.reverse.lookup id = some dst :=
    lookup_of_mem hreverse (mem_reverse.mpr hdst)
  rw [slotOf, if_neg (by rw [hpadding]; exact Bool.false_ne_true), loaded]
  dsimp only
  rw [hlookup]

theorem slotOf_parts (hpadding : f.padding = false) (hid : id ∉ selected.map Prod.fst) :
    slotOf (loaded layout selected base blobPath infoHash m) f id =
      .parts (partsOf base (keptEntries layout selected) id) := by
  have hlookup : selected.reverse.lookup id = none := lookup_of_notMem (by simpa using hid)
  rw [slotOf, if_neg (by rw [hpadding]; exact Bool.false_ne_true), loaded]
  dsimp only
  rw [hlookup]

end

theorem hasBytes_of_blob {blob : Bytes} {id : ℕ}
    (hblob : ∀ entry ∈ keptEntries layout selected, ∀ i < entry.segment.len,
      blob[base + entry.blobOffset + i]? =
        some (boundary entry.segment.fileId (entry.segment.offset + i))) :
    ∀ seg ∈ partsOf base (keptEntries layout selected) id,
      SegSpec.HasBytes blob (boundary id) seg := by
  intro seg hseg
  obtain ⟨entry,hentry,rfl,rfl⟩ := mem_partsOf.mp hseg
  exact fun i hi => hblob entry hentry i hi

/-- A request is for files that are no padding. -/
def NoPadding (layout : Layout) (selected : List (ℕ × Path)) : Prop :=
  ∀ x ∈ selected, ∀ f, layout.files[x.1]? = some f → f.padding = false

theorem serves (hnodup : (selected.map Prod.fst).Nodup) (hpadding : NoPadding layout selected)
    (horiginals : Originals layout selected disk)
    (hblob : BlobHolds layout selected blobPath base written disk boundary) :
    Serves layout selected (opened layout selected (loaded layout selected base blobPath infoHash m))
      disk (view selected disk boundary) := by
  intro id f offset n hf hle hcase
  rw [PartsSeedStorage.preadExact]
  cases hpad : f.padding with
  | true =>
    have hid : id ∉ selected.map Prod.fst := by
      intro hmem
      obtain ⟨x,hx,rfl⟩ := mem_map.mp hmem
      rw [hpadding x hx f hf] at hpad
      exact Bool.noConfusion hpad
    rw [slots_opened hf, slotOf_padding hpad]
    refine congrArg Except.ok (span_const fun k _ _ => ?_).symm
    rw [view, lookup_of_notMem hid]
    refine hblob.outside id k ?_
    rintro ⟨g,hg,-,hnot,-⟩
    obtain rfl := Option.some.inj (hf.symm.trans hg)
    rw [hpad] at hnot
    exact Bool.noConfusion hnot
  | false =>
    by_cases hid : id ∈ selected.map Prod.fst
    · obtain ⟨⟨id,dst⟩,hx,rfl⟩ := mem_map.mp hid
      obtain ⟨content,hcontent,hlength⟩ := horiginals _ hx f hf
      dsimp only at hf hcontent ⊢
      have hlookup := lookup_of_mem hnodup hx
      rw [slots_opened hf, slotOf_selected hpad hnodup hx]
      have hread : readExactAt content offset n = some (span (view selected disk boundary id) offset n) := by
        refine readExactAt_eq fun i hi => ?_
        have hbyte : content[offset + i]? = some content[offset + i] :=
          getElem?_eq_getElem (by omega)
        rw [view, hlookup]
        dsimp only
        rw [hcontent, Option.getD_some, hbyte, Option.getD_some]
      simp only [PartsSeedStorage.openedFile, opened, hcontent, if_true, Except.bind, hread]
    · obtain ⟨file,hfile,-,-,hbytes⟩ := hblob.file
      have hne : kept layout selected ≠ [] := by
        obtain hmem | hpad' | hne := hcase
        · exact absurd hmem hid
        · rw [hpad] at hpad'
          exact Bool.noConfusion hpad'
        · exact hne
      rw [slots_opened hf, slotOf_parts hpad hid]
      have hview : view selected disk boundary id = boundary id := by
        funext k
        rw [view, lookup_of_notMem hid]
      obtain ⟨hadGap,hread⟩ := readPartsRanges_eq pairwise_partsOf
        (@hasBytes_of_blob _ _ _ _ _ id hbytes) (Nat.le_add_right offset n) fun k _ _ hnone =>
          hblob.outside id k fun hboundary => by
            obtain ⟨seg,hseg,hcovers⟩ := covers_iff.mpr hboundary
            exact hnone seg hseg hcovers
      rw [Nat.add_sub_cancel_left] at hread
      simp only [PartsSeedStorage.openedBlob, opened, loaded, hfile, hne, ne_eq, not_false_eq_true,
        decide_true, if_true, Except.bind, hread, hview]

/-- Different segments have no byte in common, in the torrent or in the blob. -/
theorem apart_of_ne {a b : SegmentEntry} (ha : a ∈ keptEntries layout selected)
    (hb : b ∈ keptEntries layout selected) (hne : a ≠ b) :
    (a.blobOffset + a.segment.len ≤ b.blobOffset ∨ b.blobOffset + b.segment.len ≤ a.blobOffset) ∧
      ∀ id k, ¬ (a.segment.covers id k = true ∧ b.segment.covers id k = true) := by
  let R (a b : SegmentEntry) : Prop :=
    (a.blobOffset + a.segment.len ≤ b.blobOffset ∨ b.blobOffset + b.segment.len ≤ a.blobOffset) ∧
      ∀ id k, ¬ (a.segment.covers id k = true ∧ b.segment.covers id k = true)
  have hsymm : Std.Symm R := ⟨fun _ _ h => ⟨h.1.symm,fun id k hboth => h.2 id k hboth.symm⟩⟩
  have hblob : (keptEntries layout selected).Pairwise fun a b =>
      a.blobOffset + a.segment.len ≤ b.blobOffset := pairwise_segmentEntries
  have hall : (keptEntries layout selected).Pairwise R :=
    (hblob.and pairwise_keptEntries).imp fun h => ⟨.inl h.1,h.2⟩
  exact hall.forall ha hb hne

theorem write_inside (horiginals : Originals layout selected disk)
    (hblob : BlobHolds layout selected blobPath base written disk boundary) {w : Write}
    (hw : w.Inside (kept layout selected)) :
    ∃ disk', (opened layout selected (loaded layout selected base blobPath infoHash m)).pwriteAll
        disk w.fileId w.offset w.buf = .ok disk' ∧
      BlobHolds layout selected blobPath base written disk' (w.over boundary) ∧
      Originals layout selected disk' ∧ ∀ path, path ≠ blobPath → disk' path = disk path := by
  obtain ⟨s,hs,hid,hfrom,hto⟩ := hw
  obtain ⟨file,hfile,hlength,hheader,hbytes⟩ := hblob.file
  obtain ⟨entry,hentry,rfl⟩ := exists_entry hs
  obtain ⟨hpos,-⟩ := mem_boundarySegments hs
  obtain ⟨f,hf,hnot,hpad,-⟩ := wanted_of_mem hs ⟨le_rfl,Nat.lt_add_of_pos_right hpos⟩
  have hne : kept layout selected ≠ [] := ne_nil_of_mem hs
  have hnot' : w.fileId ∉ selected.map Prod.fst := fun hmem =>
    hnot (mem_toFinset.mpr (hid ▸ hmem))
  rw [hid] at hf
  -- The end of the segment is inside the file.
  have hend : base + entry.blobOffset + entry.segment.len ≤ file.length := by
    have hlast := hbytes entry hentry (entry.segment.len - 1) (by omega)
    have hlt := (List.getElem?_eq_some_iff.mp hlast).1
    omega
  have hmem : specOf base entry ∈ partsOf base (keptEntries layout selected) w.fileId :=
    mem_partsOf.mpr ⟨entry,hentry,hid,rfl⟩
  obtain ⟨l,r,hsplit⟩ := append_of_mem hmem
  have hsorted := @pairwise_partsOf layout selected base w.fileId
  rw [hsplit] at hsorted
  have hwritten := @writePartsRanges_inside file _ _ _ _ _ hsorted ⟨hfrom,hto⟩
  generalize hplace : (specOf base entry).blobPos + (w.offset - (specOf base entry).offset) = place
    at hwritten
  have hplace' : place = base + entry.blobOffset + (w.offset - entry.segment.offset) := hplace.symm
  have hle : place + w.buf.length ≤ file.length := by omega
  refine ⟨disk.update blobPath (writeAllAt file place w.buf),?_,⟨⟨writeAllAt file place w.buf,
    if_pos rfl,(length_writeAllAt hle).trans hlength,fun i hi => ?_,fun e he i hi => ?_⟩,
    fun id k hnone => ?_⟩,fun x hx g hg => ?_,fun path hpath => if_neg hpath⟩
  · rw [PartsSeedStorage.pwriteAll, slots_opened hf, slotOf_parts hpad hnot', hsplit]
    simp only [PartsSeedStorage.openedBlob, opened, loaded, hfile, hne, ne_eq, not_false_eq_true,
      decide_true, if_true, Except.map, hwritten]
  · rw [getElem?_writeAllAt hle, if_neg (by omega), hheader i hi]
  · rw [getElem?_writeAllAt hle, Write.over]
    by_cases hsame : e = entry
    · subst hsame
      rw [if_pos hid]
      by_cases hin : w.offset ≤ e.segment.offset + i ∧ e.segment.offset + i < w.offset + w.buf.length
      · have hindex : base + e.blobOffset + i - place = e.segment.offset + i - w.offset := by omega
        rw [if_pos (by omega), hindex, overwrite_in hin.1 hin.2]
      · rw [if_neg (by omega), overwrite_out (by omega), hbytes e hentry i hi]
    · obtain ⟨hblob',hnone⟩ := apart_of_ne he hentry hsame
      rw [if_neg (by omega), hbytes e he i hi]
      split_ifs with hfile'
      · rw [overwrite_out]
        by_contra hin
        refine hnone w.fileId (e.segment.offset + i) ⟨decide_eq_true ⟨hfile',?_⟩,
          decide_eq_true ⟨hid,?_⟩⟩
        · omega
        · omega
      · rfl
  · rw [Write.over]
    split_ifs with hfile'
    · subst hfile'
      rw [overwrite_out]
      · exact hblob.outside _ k hnone
      · by_contra hin
        refine hnone ?_
        rw [← hid]
        exact wanted_of_mem hs (by omega)
    · exact hblob.outside id k hnone
  · obtain ⟨content,hcontent,hlength'⟩ := horiginals x hx g hg
    by_cases hpath : x.2 = blobPath
    · refine ⟨writeAllAt file place w.buf,if_pos hpath,?_⟩
      rw [hpath, hfile] at hcontent
      rw [length_writeAllAt hle, Option.some.inj hcontent, hlength']
    · exact ⟨content,(if_neg hpath).trans hcontent,hlength'⟩

theorem writes_inside {writes : List Write} (horiginals : Originals layout selected disk)
    (hblob : BlobHolds layout selected blobPath base written disk boundary)
    (hwrites : ∀ w ∈ writes, w.Inside (kept layout selected)) :
    ∃ disk', (opened layout selected (loaded layout selected base blobPath infoHash m)).writes
        disk writes = .ok disk' ∧
      BlobHolds layout selected blobPath base written disk'
        (writes.foldl (fun bytes w => w.over bytes) boundary) ∧
      Originals layout selected disk' ∧ ∀ path, path ≠ blobPath → disk' path = disk path := by
  induction writes generalizing disk boundary with
  | nil => exact ⟨disk,rfl,hblob,horiginals,fun _ _ => rfl⟩
  | cons w writes ih =>
    obtain ⟨hw,hwrites⟩ := forall_mem_cons.mp hwrites
    obtain ⟨disk₁,hwrite,hblob₁,horiginals₁,hframe₁⟩ :=
      @write_inside layout selected base m blobPath infoHash disk boundary written horiginals hblob w hw
    obtain ⟨disk₂,hrest,hblob₂,horiginals₂,hframe₂⟩ := ih horiginals₁ hblob₁ hwrites
    refine ⟨disk₂,?_,hblob₂,horiginals₂,fun path hpath =>
      (hframe₂ path hpath).trans (hframe₁ path hpath)⟩
    rw [PartsSeedStorage.writes, hwrite]
    exact hrest

/-! ## Opening -/

theorem needsBlob_iff :
    (layout.files.zipIdx.map fun x =>
      slotOf (loaded layout selected base blobPath infoHash m) x.1 x.2).any Slot.needsBlob = true ↔
      kept layout selected ≠ [] := by
  rw [any_map, any_eq_true]
  constructor
  · rintro ⟨⟨f,id⟩,-,hneeds⟩ hnil
    have hparts : partsOf base (keptEntries layout selected) id = [] := by
      refine eq_nil_iff_forall_not_mem.mpr fun seg hseg => ?_
      obtain ⟨entry,hentry,-,-⟩ := mem_partsOf.mp hseg
      rw [keptEntries, hnil] at hentry
      exact absurd hentry not_mem_nil
    simp only [Function.comp_apply, slotOf, loaded, hparts] at hneeds
    split at hneeds
    · cases hneeds
    · split at hneeds <;> cases hneeds
  · intro hne
    obtain ⟨s,hs⟩ := exists_mem_of_ne_nil _ hne
    obtain ⟨hpos,-⟩ := mem_boundarySegments hs
    obtain ⟨f,hf,hnot,hpad,-⟩ := wanted_of_mem hs ⟨le_rfl,Nat.lt_add_of_pos_right hpos⟩
    obtain ⟨entry,hentry,rfl⟩ := exists_entry hs
    refine ⟨(f, entry.segment.fileId),mk_mem_zipIdx_iff_getElem?.mpr hf,?_⟩
    have hmem : specOf base entry ∈
        partsOf base (keptEntries layout selected) entry.segment.fileId :=
      mem_partsOf.mpr ⟨entry,hentry,rfl,rfl⟩
    rw [Function.comp_apply, slotOf_parts hpad fun hmem => hnot (mem_toFinset.mpr hmem),
      Slot.needsBlob, Bool.not_eq_true', isEmpty_eq_false_iff]
    exact ne_nil_of_mem hmem

/-- The storage is made for the torrent of the sidecar, and opened if its files are there. -/
theorem create_init (hnodup : (selected.map Prod.fst).Nodup) (hm : m < layout.files.length)
    (hhash : infoHash.map Char.toLower = torrentHash.map Char.toLower)
    (horiginals : Originals layout selected disk) (hblob : (disk blobPath).isSome) :
    ∃ st, create (loaded layout selected base blobPath infoHash m) torrentHash layout.files = .ok st ∧
      st.init disk = .ok (opened layout selected
        (loaded layout selected base blobPath infoHash m)) := by
  have hcreate : create (loaded layout selected base blobPath infoHash m) torrentHash layout.files =
      .ok ⟨layout.files.zipIdx.map fun x =>
        slotOf (loaded layout selected base blobPath infoHash m) x.1 x.2,blobPath,false,false⟩ := by
    have hlt : ¬ layout.files.length ≤
        (loaded layout selected base blobPath infoHash m).maxFileId := Nat.not_le_of_lt hm
    rw [create, if_neg fun h => h.2 hhash, if_neg hlt]
    rfl
  refine ⟨_,hcreate,?_⟩
  have hthere : (layout.files.zipIdx.map fun x =>
      slotOf (loaded layout selected base blobPath infoHash m) x.1 x.2).all (Slot.isThere disk) =
        true := by
    rw [all_map, all_eq_true]
    rintro ⟨f,id⟩ hf
    have hf := mk_mem_zipIdx_iff_getElem?.mp hf
    rw [Function.comp_apply]
    cases hpad : f.padding with
    | true =>
      rw [slotOf_padding hpad]
      rfl
    | false =>
      by_cases hid : id ∈ selected.map Prod.fst
      · obtain ⟨⟨id,dst⟩,hx,rfl⟩ := mem_map.mp hid
        obtain ⟨content,hcontent,-⟩ := horiginals _ hx f hf
        rw [slotOf_selected hpad hnodup hx, Slot.isThere, hcontent]
        rfl
      · rw [slotOf_parts hpad hid]
        rfl
  rw [PartsSeedStorage.init, if_neg (not_not.mpr hthere)]
  by_cases hne : kept layout selected ≠ []
  · rw [if_pos (needsBlob_iff.mpr hne), if_pos hblob, opened, decide_eq_true hne]
    rfl
  · rw [if_neg (mt needsBlob_iff.mp hne), opened, decide_eq_false hne]
    rfl

/-! ## The round trip -/

def boundaryBytes (layout : Layout) (selected : List (ℕ × Path))
    (stage : List (List Char) → Option Bytes) (id k : ℕ) : UInt8 :=
  if (kept layout selected).any (Segment.covers id k) then
    match layout.files[id]? with
    | some f => stageByte stage f k
    | none => 0
  else 0

end

section
variable {serde : Serde} {stage : List (List Char) → Option Bytes} {diskError : Option String}
  {layout : Layout} {sidecarPath saveDir : Path} {infoHash : List Char}
  {selected : List (ℕ × Path)} {written : Bytes} {count : ℕ}

/-- What was written is loaded, and the storage that is opened for the torrent serves the files, as
they are on the disk and as the staging bytes are at the boundaries. Writes inside the segments
are served after that, and change no other file and nothing else in the sidecar. -/
structure RoundTrips (serde : Serde) (stage : List (List Char) → Option Bytes) (layout : Layout)
    (sidecarPath saveDir : Path) (infoHash : List Char) (selected : List (ℕ × Path))
    (written : Bytes) : Prop where
  served : ∃ factory, loadSeedFactory serde (.ok (some written)) sidecarPath saveDir =
      .ok (some factory) ∧ factory.infoHash = infoHash ∧
    ∀ torrentHash, infoHash.map Char.toLower = torrentHash.map Char.toLower →
    ∀ disk, disk sidecarPath = some written → Originals layout selected disk →
    ∃ st opened, create factory torrentHash layout.files = .ok st ∧ st.init disk = .ok opened ∧
      Serves layout selected opened disk
        (view selected disk (boundaryBytes layout selected stage)) ∧
      ∀ writes : List Write, (∀ w ∈ writes, w.Inside (kept layout selected)) →
        ∃ disk', opened.writes disk writes = .ok disk' ∧
          Serves layout selected opened disk' (view selected disk'
            (writes.foldl (fun bytes w => w.over bytes) (boundaryBytes layout selected stage))) ∧
          (∀ path, path ≠ sidecarPath → disk' path = disk path) ∧
          ∃ base file, disk' sidecarPath = some file ∧ file.length = written.length ∧
            written.length = base + ((kept layout selected).map Segment.len).sum ∧
            ∀ i < base, file[i]? = written[i]?
  restored : ∀ x ∈ selected, ∃ s, relPathString x.2 saveDir = .ok s ∧
    resolveRelPath s saveDir = .ok x.2

theorem blobHolds_written {blob : Bytes} {base : ℕ} {disk : Disk}
    (hcopy : copySegments stage layout.files (kept layout selected) = .ok blob)
    (hget : ∀ i, written[base + i]? = blob[i]?) (hdisk : disk sidecarPath = some written) :
    BlobHolds layout selected sidecarPath base written disk
      (boundaryBytes layout selected stage) := by
  obtain ⟨-,hbytes⟩ := @copySegments_ok stage layout.files (kept layout selected) blob 0 hcopy
  refine ⟨⟨written,hdisk,rfl,fun _ _ => rfl,fun entry hentry i hi => ?_⟩,fun id k hnot => ?_⟩
  · have hs := mem_of_mem_segmentEntries hentry
    obtain ⟨f,hf,-⟩ := wanted_of_mem hs (k := entry.segment.offset + i)
      ⟨Nat.le_add_right _ i,Nat.add_lt_add_left hi _⟩
    have hbyte := hbytes entry hentry f hf i hi
    rw [Nat.sub_zero] at hbyte
    have hcovered : (kept layout selected).any
        (Segment.covers entry.segment.fileId (entry.segment.offset + i)) = true :=
      any_eq_true.mpr ⟨_,hs,decide_eq_true ⟨rfl,Nat.le_add_right _ i,
        Nat.add_lt_add_left hi _⟩⟩
    rw [Nat.add_assoc, hget, hbyte, boundaryBytes, if_pos hcovered, hf]
  · rw [boundaryBytes, if_neg]
    intro hcovered
    obtain ⟨s,hs,hk⟩ := any_eq_true.mp hcovered
    exact hnot (exists_covers_iff.mp ⟨s,hs,hk⟩)

theorem relPathString_of_mem {files : List PartsFileMeta} {entries : List SelectedEntry}
    (h : List.Forall₂ (IsEntry files saveDir) selected entries) {x : ℕ × Path} (hx : x ∈ selected) :
    ∃ s, relPathString x.2 saveDir = .ok s := by
  induction h with
  | nil => exact absurd hx not_mem_nil
  | cons hentry _ ih =>
    obtain ⟨-,hrel⟩ := hentry
    obtain rfl | hx := mem_cons.mp hx
    · exact ⟨_,hrel⟩
    · exact ih hx

/-- The sidecar and the storage give everything back if and only if what was selected can be
loaded. -/
theorem seed_round_trip_iff (hserde : serde.RoundTrips) (htotal : layout.totalLength < 2 ^ 64)
    (hpadding : NoPadding layout selected)
    (h : writeSidecar serde stage diskError (request layout sidecarPath saveDir infoHash selected) =
      .ok (written, count)) :
    RoundTrips serde stage layout sidecarPath saveDir infoHash selected written ↔
      Loadable saveDir selected := by
  obtain ⟨entries,json,blob,hentries,hjson,hmax,hcopy,rfl⟩ := writeSidecar_ok h
  obtain ⟨hne,hparse⟩ := hserde _ _ hjson
  have hload := @loadSeedFactory_sidecarBytes _ blob _ _ hne hmax hparse rfl sidecarPath saveDir
  have hlength : blob.length = ((kept layout selected).map Segment.len).sum :=
    (@copySegments_ok stage layout.files (kept layout selected) blob 0 hcopy).1
  by_cases hloadable : Loadable saveDir selected
  · refine iff_of_true ?_ hloadable
    obtain ⟨m,hm,hlayout⟩ := @seedLayout_ok _ sidecarPath _ infoHash _ _
      (12 + json.length) _ hloadable hentries htotal hlength
    rw [hlayout] at hload
    refine ⟨⟨_,hload,rfl,fun torrentHash hhash disk hdisk horiginals => ?_⟩,fun x hx => ?_⟩
    · have hblob := blobHolds_written hcopy getElem?_sidecarBytes hdisk
      have hsome : (disk sidecarPath).isSome = true := by rw [hdisk]; rfl
      obtain ⟨st,hcreate,hinit⟩ := @create_init _ _ (12 + json.length) _ _ _ _ _ hloadable.2.1 hm
        hhash horiginals hsome
      refine ⟨st,_,hcreate,hinit,serves hloadable.2.1 hpadding horiginals hblob,
        fun writes hwrites => ?_⟩
      obtain ⟨disk',hrun,hblob',horiginals',hframe⟩ := @writes_inside layout selected
        (12 + json.length) m sidecarPath infoHash disk _ _ writes horiginals hblob hwrites
      obtain ⟨file,hfile,hlength',hheader,-⟩ := hblob'.file
      refine ⟨disk',hrun,serves hloadable.2.1 hpadding horiginals' hblob',hframe,
        12 + json.length,file,hfile,hlength',?_,hheader⟩
      rw [length_sidecarBytes, hlength]
    · obtain ⟨s,hs⟩ := relPathString_of_mem hentries hx
      exact ⟨s,hs,(resolve_rel hs).1 (hloadable.2.2 x hx)⟩
  · refine iff_of_false (fun hround => ?_) hloadable
    obtain ⟨factory,hfactory,-⟩ := hround.served
    obtain ⟨e,he⟩ := @seedLayout_error _ sidecarPath _ infoHash _ _
      (12 + json.length) blob.length hloadable hentries
    rw [hload, he] at hfactory
    cases hfactory

end

/-! ## Two files in one piece -/

def sampleFile (name : List Char) (len offset : ℕ) : PartsFileMeta :=
  ⟨[name],len,offset,⟨0,1⟩,false⟩

theorem sampleFile_ranged {name : List Char} {len offset : ℕ} (hlen : 0 < len)
    (hle : offset + len ≤ 4) : (sampleFile name len offset).Ranged 4 where
  nonempty _ p := by
    rw [contains_iff]
    constructor
    · rintro ⟨-,hp⟩
      have hp : p < 1 := hp
      refine ⟨0,hlen,?_⟩
      rw [Nat.lt_one_iff.mp hp]
      exact Nat.div_eq_of_lt (by dsimp only [sampleFile]; omega)
    · rintro ⟨k,hk,rfl⟩
      have hzero : (offset + k) / 4 = 0 := Nat.div_eq_of_lt (by dsimp only [sampleFile] at hk; omega)
      exact ⟨Nat.zero_le _,Nat.lt_of_le_of_lt (Nat.le_of_eq hzero) Nat.one_pos⟩
  empty hzero := by
    dsimp only [sampleFile] at hzero
    omega

def sampleLayout : Layout where
  files := [sampleFile ['a'] 2 0, sampleFile ['b'] 1 2]
  pieceLength := 4
  totalLength := 3
  pieceLength_pos := by decide
  laid := ⟨rfl,rfl,rfl⟩
  ranged := by
    intro f hf
    simp only [List.mem_cons, List.not_mem_nil, or_false] at hf
    obtain rfl | rfl := hf
    · exact sampleFile_ranged (by decide) (by decide)
    · exact sampleFile_ranged (by decide) (by decide)

def sampleStage (path : List (List Char)) : Option Bytes :=
  if path = [['b']] then some [7] else none

/-- The header of the sidecar when the first file was moved to a name of one character. -/
def sampleHeader (c : Char) : PartsHeader :=
  ⟨1,[],4,3,[⟨0,[c],2⟩],[⟨⟨1,0,1⟩,0⟩]⟩

def sampleJson (c : Char) : Bytes :=
  0x7B :: encode ("\"version\":1,\"info_hash\":\"\",\"piece_length\":4,\"total_length\":3,".toList ++
    "\"selected\":[\x7b\"file_id\":0,\"rel_path\":\"".toList ++ c ::
    "\",\"len\":2\x7d],\"segments\":[\x7b\"file_id\":1,\"offset\":0,".toList ++
    "\"len\":1,\"blob_offset\":0\x7d]\x7d".toList)

def sampleSerde (c : Char) : Serde where
  toVec header := if header = sampleHeader c then some (sampleJson c) else none
  fromSlice json := if json = sampleJson c then some (sampleHeader c) else none

theorem sampleSerde_roundTrips (c : Char) : (sampleSerde c).RoundTrips := by
  intro header json h
  simp only [sampleSerde] at h ⊢
  split_ifs at h with hheader
  obtain rfl := Option.some.inj h
  exact ⟨cons_ne_nil _ _,by rw [if_pos rfl, hheader]⟩

def sampleSelected (name : Name) : List (ℕ × Path) := [(0, [.rootDir, .normal name])]

theorem sampleSelected_noPadding (name : Name) :
    NoPadding sampleLayout (sampleSelected name) := by
  intro x hx f hf
  obtain rfl := mem_singleton.mp hx
  obtain rfl := Option.some.inj hf
  rfl

theorem relPathString_sample {name : Name} {c : Char} (hname : fromUtf8 name.bytes = some [c]) :
    relPathString [.rootDir, .normal name] [.rootDir] = .ok [c] := by
  simp [relPathString, relParts, hname, Except.map, Except.bind]

theorem writeSidecar_sample {name : Name} {c : Char} (hname : fromUtf8 name.bytes = some [c])
    (hlength : (sampleJson c).length ≤ maxHeaderLen) :
    writeSidecar (sampleSerde c) sampleStage none
      (request sampleLayout [] [.rootDir] [] (sampleSelected name)) =
        .ok (sidecarBytes (sampleJson c) [7], 1) := by
  have hentries : selectedEntries sampleLayout.files [.rootDir] (sampleSelected name) =
      .ok [⟨0,[c],2⟩] := by
    simp [selectedEntries, sampleSelected, sampleLayout, sampleFile, relPathString_sample hname,
      Except.bind, Except.map]
  have hsegments : (request sampleLayout [] [.rootDir] [] (sampleSelected name)).segments =
      [⟨1,0,1⟩] := by
    have hids : ((sampleSelected name).map Prod.fst).toFinset = {0} := rfl
    simp only [SidecarWriteRequest.segments, request, hids]
    decide
  have hheader : (request sampleLayout [] [.rootDir] [] (sampleSelected name)).header
      [⟨0,[c],2⟩] = sampleHeader c := by
    rw [SidecarWriteRequest.header, hsegments]
    rfl
  have hjson : (sampleSerde c).toVec (sampleHeader c) = some (sampleJson c) := if_pos rfl
  have hcopy : copySegments sampleStage sampleLayout.files [⟨1,0,1⟩] = .ok [7] := by
    have hrange : copyRange [7] 0 1 = some [7] := by
      rw [copyRange, copyRange]
      rfl
    simp [copySegments, sampleLayout, sampleFile, sampleStage, hrange, Except.map]
  have hfields : selectedEntries (request sampleLayout [] [.rootDir] [] (sampleSelected name)).files
      (request sampleLayout [] [.rootDir] [] (sampleSelected name)).saveDir
      (request sampleLayout [] [.rootDir] [] (sampleSelected name)).selected =
        .ok [⟨0,[c],2⟩] := hentries
  have hcopied : copySegments sampleStage
      (request sampleLayout [] [.rootDir] [] (sampleSelected name)).files [⟨1,0,1⟩] = .ok [7] :=
    hcopy
  rw [writeSidecar, hfields]
  simp only [Except.bind, hheader, hjson, if_neg (Nat.not_lt_of_le hlength), hsegments, hcopied,
    Except.map]
  rfl

def nameOf (b : UInt8) (h : [b] ≠ [] ∧ 0x2F ∉ [b] ∧ [b] ≠ [0x2E] ∧ [b] ≠ [0x2E, 0x2E]) : Name :=
  ⟨[b],h⟩

/-- The first file is kept as `a`, and given back. -/
theorem sample_round_trips : RoundTrips (sampleSerde 'a') sampleStage sampleLayout [] [.rootDir] []
    (sampleSelected (nameOf 0x61 (by decide))) (sidecarBytes (sampleJson 'a') [7]) := by
  have hname : fromUtf8 (nameOf 0x61 (by decide)).bytes = some ['a'] :=
    PercentDecoding.fromUtf8_encode ['a']
  refine (seed_round_trip_iff (sampleSerde_roundTrips 'a') (by decide)
    (sampleSelected_noPadding _) (writeSidecar_sample hname (by decide +kernel))).mpr ?_
  refine ⟨cons_ne_nil _ _,nodup_singleton _,fun x hx name hmem => ?_⟩
  obtain rfl := mem_singleton.mp hx
  obtain rfl := Component.normal.inj (mem_singleton.mp hmem)
  exact ⟨by decide,by decide⟩

/-- A file that is kept under a name with a colon is written and not loaded. -/
theorem colon_is_refused :
    ¬ (∀ serde stage diskError layout sidecarPath saveDir infoHash selected written count,
      serde.RoundTrips → layout.totalLength < 2 ^ 64 → NoPadding layout selected →
      writeSidecar serde stage diskError (request layout sidecarPath saveDir infoHash selected) =
        .ok (written, count) →
      RoundTrips serde stage layout sidecarPath saveDir infoHash selected written) ∧
      resolveRelPath [':'] [.rootDir] = .error "unsafe path component" := by
  have hrefused : resolveRelPath [':'] [.rootDir] = .error "unsafe path component" := by
    rw [resolveRelPath]
    rfl
  refine ⟨fun hall => ?_,hrefused⟩
  have hname : fromUtf8 (nameOf 0x3A (by decide)).bytes = some [':'] :=
    PercentDecoding.fromUtf8_encode [':']
  have hround := hall _ _ _ _ _ _ _ _ _ _ (sampleSerde_roundTrips ':')
    (by decide) (sampleSelected_noPadding _) (writeSidecar_sample hname (by decide +kernel))
  obtain ⟨s,hs,hresolve⟩ := hround.restored _ (mem_singleton_self _)
  obtain rfl := Except.ok.inj ((relPathString_sample hname).symm.trans hs)
  rw [hrefused] at hresolve
  cases hresolve

end RinaDown.SeedStorage
