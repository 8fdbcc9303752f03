import Mathlib.Data.Finset.Basic
import Mathlib.Data.Int.NatAbs

/-!
# The boundary segments of a partial torrent

The files of a torrent lie end to end, and a piece may have bytes of several files. When only
some files are kept, the bytes of the others that share a piece with a kept file are kept beside
them, one segment after the other.
-/

namespace RinaDown.BoundarySegments

/-- The pieces from `start` to `stop`, without the last. -/
structure PieceRange where
  start : ℕ
  stop : ℕ

def PieceRange.contains (r : PieceRange) (p : ℕ) : Bool := r.start ≤ p && p < r.stop

def PieceRange.isEmpty (r : PieceRange) : Bool := !(r.start < r.stop)

structure PartsFileMeta where
  /-- The components of the path in the torrent. -/
  relativePath : List (List Char)
  len : ℕ
  offsetInTorrent : ℕ
  pieceRange : PieceRange
  padding : Bool

structure Segment where
  fileId : ℕ
  offset : ℕ
  len : ℕ
deriving DecidableEq

/-- The pieces that some selected file is in. -/
def needed (files : List PartsFileMeta) (selected : Finset ℕ) (p : ℕ) : Bool :=
  files.zipIdx.any fun (f, id) => decide (id ∈ selected) && !f.padding && f.pieceRange.contains p

/-- The bytes of the file that lie in the piece, unless there are none. -/
def candidate (pieceLength totalLength : ℕ) (f : PartsFileMeta) (id p : ℕ) : Option Segment :=
  let pieceStart := p * pieceLength
  let pieceEnd := min (pieceStart + pieceLength) totalLength
  let fileEnd := f.offsetInTorrent + f.len
  let start := max pieceStart f.offsetInTorrent
  let stop := min pieceEnd fileEnd
  if start < stop then some ⟨id,start - f.offsetInTorrent,stop - start⟩ else none

/-- Only the first and the last piece of a file can have bytes of other files. -/
def candidates (f : PartsFileMeta) : List ℕ :=
  let first := f.pieceRange.start
  let last := f.pieceRange.stop - 1
  if last ≠ first then [first, last] else [first]

def fileSegments (files : List PartsFileMeta) (selected : Finset ℕ) (pieceLength totalLength : ℕ)
    (f : PartsFileMeta) (id : ℕ) : List Segment :=
  if id ∈ selected ∨ f.padding = true ∨ f.len = 0 ∨ f.pieceRange.isEmpty = true then []
  else ((candidates f).filter (needed files selected)).filterMap
    (candidate pieceLength totalLength f id)

def boundarySegments (files : List PartsFileMeta) (selected : Finset ℕ)
    (pieceLength totalLength : ℕ) : List Segment :=
  files.zipIdx.flatMap fun (f, id) => fileSegments files selected pieceLength totalLength f id

structure SegmentEntry where
  segment : Segment
  blobOffset : ℕ
deriving DecidableEq

/-- The segments are laid one after the other in the blob. -/
def segmentEntries (blobCursor : ℕ) : List Segment → List SegmentEntry
  | [] => []
  | s :: segments => ⟨s,blobCursor⟩ :: segmentEntries (blobCursor + s.len) segments

/-! ## Torrents -/

/-- A byte of the file lies in the piece. -/
def PartsFileMeta.HasByteIn (f : PartsFileMeta) (pieceLength p : ℕ) : Prop :=
  ∃ k < f.len, (f.offsetInTorrent + k) / pieceLength = p

/-- The pieces that are counted for a file. An empty file has no byte: no piece may be counted for
it, or a piece that it touches. -/
structure PartsFileMeta.Ranged (f : PartsFileMeta) (pieceLength : ℕ) : Prop where
  nonempty : f.len ≠ 0 → ∀ p, f.pieceRange.contains p = true ↔ f.HasByteIn pieceLength p
  empty : f.len = 0 → ∀ p, f.pieceRange.contains p = true →
    p * pieceLength ≤ f.offsetInTorrent ∧ f.offsetInTorrent ≤ p * pieceLength + pieceLength

/-- The files lie end to end. -/
def LaidFrom : ℕ → List PartsFileMeta → ℕ → Prop
  | offset, [], totalLength => offset = totalLength
  | offset, f :: files, totalLength =>
      f.offsetInTorrent = offset ∧ LaidFrom (offset + f.len) files totalLength

structure Layout where
  files : List PartsFileMeta
  pieceLength : ℕ
  totalLength : ℕ
  pieceLength_pos : 0 < pieceLength
  laid : LaidFrom 0 files totalLength
  ranged : ∀ f ∈ files, f.Ranged pieceLength

/-- A piece in which the file has a byte, or that is counted for an empty file. -/
def PartsFileMeta.Overlaps (f : PartsFileMeta) (pieceLength p : ℕ) : Prop :=
  f.HasByteIn pieceLength p ∨ f.len = 0 ∧ f.pieceRange.contains p = true

/-- A selected file overlaps the piece. -/
def Layout.Overlapped (layout : Layout) (selected : Finset ℕ) (p : ℕ) : Prop :=
  ∃ id f, layout.files[id]? = some f ∧ id ∈ selected ∧ f.padding = false ∧
    f.Overlaps layout.pieceLength p

/-- A byte of a file that is not selected, in a piece of one that is. -/
def Layout.Wanted (layout : Layout) (selected : Finset ℕ) (id k : ℕ) : Prop :=
  ∃ f, layout.files[id]? = some f ∧ id ∉ selected ∧ f.padding = false ∧ k < f.len ∧
    layout.Overlapped selected ((f.offsetInTorrent + k) / layout.pieceLength)

def Segment.covers (id k : ℕ) (s : Segment) : Bool :=
  decide (s.fileId = id ∧ s.offset ≤ k ∧ k < s.offset + s.len)

/-! ## Where the files lie -/

section
variable {files : List PartsFileMeta} {offset totalLength id id' t : ℕ} {f g : PartsFileMeta}

theorem LaidFrom.le (h : LaidFrom offset files totalLength) : offset ≤ totalLength := by
  induction files generalizing offset with
  | nil => exact h.le
  | cons f files ih => exact Nat.le_of_add_right_le (ih h.2)

theorem LaidFrom.bounds (h : LaidFrom offset files totalLength) (hf : files[id]? = some f) :
    offset ≤ f.offsetInTorrent ∧ f.offsetInTorrent + f.len ≤ totalLength := by
  induction files generalizing offset id with
  | nil => simp at hf
  | cons f' files ih =>
    cases id with
    | zero =>
      obtain rfl : f' = f := by simpa using hf
      obtain ⟨rfl,hrest⟩ := h
      exact ⟨le_rfl,hrest.le⟩
    | succ id =>
      have hbounds := ih h.2 (by simpa using hf)
      omega

theorem LaidFrom.ordered (h : LaidFrom offset files totalLength) (hf : files[id]? = some f)
    (hg : files[id']? = some g) (hlt : id < id') :
    f.offsetInTorrent + f.len ≤ g.offsetInTorrent := by
  induction files generalizing offset id id' with
  | nil => simp at hf
  | cons f' files ih =>
    obtain ⟨id',rfl⟩ : ∃ m, id' = m + 1 := ⟨id' - 1,by omega⟩
    have hg' : files[id']? = some g := by simpa using hg
    cases id with
    | zero =>
      obtain rfl : f' = f := by simpa using hf
      obtain ⟨rfl,hrest⟩ := h
      exact (hrest.bounds hg').1
    | succ id => exact ih h.2 (by simpa using hf) hg' (Nat.lt_of_succ_lt_succ hlt)

/-- Every place is in some file. -/
theorem LaidFrom.exists_file (h : LaidFrom offset files totalLength) (ht : offset ≤ t)
    (ht' : t < totalLength) :
    ∃ (id : ℕ) (f : PartsFileMeta), files[id]? = some f ∧
      f.offsetInTorrent ≤ t ∧ t < f.offsetInTorrent + f.len := by
  induction files generalizing offset with
  | nil =>
    have heq : offset = totalLength := h
    omega
  | cons f files ih =>
    obtain ⟨rfl,hrest⟩ := h
    by_cases hin : t < f.offsetInTorrent + f.len
    · exact ⟨0,f,rfl,ht,hin⟩
    · obtain ⟨id,g,hg,hplace⟩ := ih hrest (Nat.le_of_not_lt hin)
      exact ⟨id + 1,g,hg,hplace⟩

end

/-! ## The pieces of a file -/

section
variable {f : PartsFileMeta} {pieceLength totalLength p k id id' : ℕ}

theorem contains_iff {r : PieceRange} : r.contains p = true ↔ r.start ≤ p ∧ p < r.stop := by
  simp [PieceRange.contains]

theorem PartsFileMeta.Ranged.touches (h : f.Ranged pieceLength) (hpos : 0 < pieceLength)
    (hp : f.pieceRange.contains p = true) :
    p * pieceLength ≤ f.offsetInTorrent + f.len ∧
      f.offsetInTorrent ≤ p * pieceLength + pieceLength := by
  by_cases hlen : f.len = 0
  · have htouch := h.empty hlen p hp
    omega
  · obtain ⟨k,hk,hbyte⟩ := (h.nonempty hlen p).mp hp
    have hplace := (Nat.div_eq_iff hpos).mp hbyte
    omega

theorem overlaps_iff (h : f.Ranged pieceLength) :
    f.Overlaps pieceLength p ↔ f.pieceRange.contains p = true := by
  by_cases hlen : f.len = 0
  · constructor
    · rintro (⟨k,hk,-⟩ | ⟨-,hp⟩)
      · omega
      · exact hp
    · intro hp
      exact .inr ⟨hlen,hp⟩
  · rw [h.nonempty hlen p]
    exact or_iff_left fun hnone => hlen hnone.1

theorem PartsFileMeta.Ranged.ends (h : f.Ranged pieceLength) (hlen : f.len ≠ 0) :
    f.pieceRange.isEmpty = false ∧ f.pieceRange.start = f.offsetInTorrent / pieceLength ∧
      f.pieceRange.stop - 1 = (f.offsetInTorrent + f.len - 1) / pieceLength := by
  have hbyte : ∀ p, (f.pieceRange.start ≤ p ∧ p < f.pieceRange.stop) ↔
      f.HasByteIn pieceLength p := fun p => contains_iff.symm.trans (h.nonempty hlen p)
  have hfirst := (hbyte (f.offsetInTorrent / pieceLength)).mpr ⟨0,by omega,rfl⟩
  have hlast := (hbyte ((f.offsetInTorrent + f.len - 1) / pieceLength)).mpr
    ⟨f.len - 1,by omega,by congr 1; omega⟩
  obtain ⟨k,-,hstart⟩ := (hbyte f.pieceRange.start).mp ⟨le_rfl,by omega⟩
  obtain ⟨k',hk',hstop⟩ := (hbyte (f.pieceRange.stop - 1)).mp (by omega)
  have hle := Nat.div_le_div_right (c := pieceLength) (Nat.le_add_right f.offsetInTorrent k)
  have hle' : (f.offsetInTorrent + k') / pieceLength ≤
      (f.offsetInTorrent + f.len - 1) / pieceLength := Nat.div_le_div_right (by omega)
  refine ⟨?_,by omega,by omega⟩
  simp only [PieceRange.isEmpty, Bool.not_eq_false', decide_eq_true_eq]
  omega

/-- The candidate has the bytes that lie in its piece. -/
theorem candidate_covers (hpos : 0 < pieceLength)
    (htotal : f.offsetInTorrent + f.len ≤ totalLength) :
    ((candidate pieceLength totalLength f id p).map (Segment.covers id' k)).getD false =
      decide (id = id' ∧ k < f.len ∧ (f.offsetInTorrent + k) / pieceLength = p) := by
  rw [candidate, Bool.eq_iff_iff, decide_eq_true_eq, Nat.div_eq_iff hpos]
  split_ifs with hspan
  · simp only [Option.map_some, Option.getD_some, Segment.covers, decide_eq_true_eq]
    omega
  · simp only [Option.map_none, Option.getD_none, Bool.false_eq_true, false_iff]
    omega

theorem mem_candidates_iff :
    p ∈ candidates f ↔ p = f.pieceRange.start ∨ p = f.pieceRange.stop - 1 := by
  simp only [candidates]
  split_ifs with hlast
  · simp
  · rw [not_not.mp hlast]
    simp

theorem nodup_candidates : (candidates f).Nodup := by
  simp only [candidates]
  split_ifs with hlast
  · simpa using Ne.symm hlast
  · exact List.nodup_singleton _

end

/-! ## The segments of all files -/

section
variable {layout : Layout} {selected : Finset ℕ} {id k p : ℕ} {f : PartsFileMeta}

theorem needed_iff : needed layout.files selected p = true ↔ layout.Overlapped selected p := by
  simp only [needed, List.any_eq_true, Prod.exists, List.mem_zipIdx_iff_getElem?, Bool.and_eq_true,
    Bool.not_eq_true', decide_eq_true_eq, Layout.Overlapped]
  constructor
  · rintro ⟨g,id,hg,⟨hselected,hpadding⟩,hp⟩
    have hranged := layout.ranged g (List.mem_of_getElem? hg)
    exact ⟨id,g,hg,hselected,hpadding,(overlaps_iff hranged).mpr hp⟩
  · rintro ⟨id,g,hg,hselected,hpadding,hp⟩
    have hranged := layout.ranged g (List.mem_of_getElem? hg)
    exact ⟨g,id,hg,⟨hselected,hpadding⟩,(overlaps_iff hranged).mp hp⟩

/-- A byte of a file that is not selected is in a needed piece only at one of its ends. -/
theorem mem_candidates (hf : layout.files[id]? = some f) (hid : id ∉ selected) (hk : k < f.len)
    (h : layout.Overlapped selected ((f.offsetInTorrent + k) / layout.pieceLength)) :
    (f.offsetInTorrent + k) / layout.pieceLength ∈ candidates f := by
  obtain ⟨id',g,hg,hselected,-,hoverlaps⟩ := h
  generalize hp : (f.offsetInTorrent + k) / layout.pieceLength = p at hoverlaps ⊢
  have hranged := layout.ranged g (List.mem_of_getElem? hg)
  obtain ⟨hstart,hstop⟩ := hranged.touches layout.pieceLength_pos
    ((overlaps_iff hranged).mp hoverlaps)
  obtain ⟨-,hfirst,hlast⟩ := (layout.ranged f (List.mem_of_getElem? hf)).ends (by omega)
  have hge : f.offsetInTorrent / layout.pieceLength ≤ p :=
    hp ▸ Nat.div_le_div_right (Nat.le_add_right _ k)
  have hle : p ≤ (f.offsetInTorrent + f.len - 1) / layout.pieceLength :=
    hp ▸ Nat.div_le_div_right (by omega)
  have hne : id ≠ id' := fun heq => hid (heq ▸ hselected)
  rw [mem_candidates_iff]
  obtain hlt | hlt := Nat.lt_or_gt_of_ne hne
  · -- The selected file comes after: the piece goes on past the end of the file.
    have hordered := layout.laid.ordered hf hg hlt
    right
    have hbyte : f.offsetInTorrent + f.len - 1 < (p + 1) * layout.pieceLength := by
      rw [Nat.succ_mul]
      omega
    have hmax := Nat.lt_succ_iff.mp ((Nat.div_lt_iff_lt_mul layout.pieceLength_pos).mpr hbyte)
    omega
  · have hordered := layout.laid.ordered hg hf hlt
    left
    have hmin := (Nat.le_div_iff_mul_le layout.pieceLength_pos).mpr
      (Nat.le_trans hstart hordered)
    omega

theorem countP_piece {c : Prop} [Decidable c] {b : ℕ → Bool} {l : List ℕ} (hl : l.Nodup) :
    l.countP (fun a => decide (c ∧ p = a) && b a) = if c ∧ b p = true ∧ p ∈ l then 1 else 0 := by
  by_cases h : c ∧ b p = true
  · have hcount : l.countP (fun a => decide (c ∧ p = a) && b a) = l.count p := by
      refine List.countP_congr fun a _ => ?_
      simp only [Bool.and_eq_true, decide_eq_true_eq, beq_iff_eq]
      constructor
      · rintro ⟨⟨-,rfl⟩,-⟩
        rfl
      · rintro rfl
        exact ⟨⟨h.1,rfl⟩,h.2⟩
    rw [hcount, hl.count]
    simp [h]
  · rw [if_neg fun hall => h ⟨hall.1,hall.2.1⟩, List.countP_eq_zero]
    simp only [Bool.and_eq_true, decide_eq_true_eq]
    rintro a - ⟨⟨hc,rfl⟩,hb⟩
    exact h ⟨hc,hb⟩

open Classical in
theorem countP_fileSegments {id' : ℕ} (hf : layout.files[id']? = some f) :
    (fileSegments layout.files selected layout.pieceLength layout.totalLength f id').countP
      (Segment.covers id k) = if id' = id ∧ layout.Wanted selected id k then 1 else 0 := by
  have hwanted : id' = id → (layout.Wanted selected id k ↔ id ∉ selected ∧ f.padding = false ∧
      k < f.len ∧ layout.Overlapped selected ((f.offsetInTorrent + k) / layout.pieceLength)) := by
    rintro rfl
    constructor
    · rintro ⟨g,hg,h⟩
      obtain rfl := Option.some.inj (hf.symm.trans hg)
      exact h
    · exact fun h => ⟨f,hf,h⟩
  by_cases hskip : id' ∈ selected ∨ f.padding = true ∨ f.len = 0 ∨ f.pieceRange.isEmpty = true
  · rw [fileSegments, if_pos hskip, List.countP_nil, if_neg]
    rintro ⟨rfl,h⟩
    obtain ⟨hid,hpadding,hk,-⟩ := (hwanted rfl).mp h
    have hends := (layout.ranged f (List.mem_of_getElem? hf)).ends (by omega)
    simp [hid, hpadding, hends.1] at hskip
    omega
  · obtain ⟨hid,hpadding,-⟩ := not_or.mp hskip |>.imp_right not_or.mp
    have htotal := (layout.laid.bounds hf).2
    rw [fileSegments, if_neg hskip, List.countP_filterMap, List.countP_filter]
    simp only [candidate_covers layout.pieceLength_pos htotal, ← and_assoc]
    rw [countP_piece nodup_candidates]
    refine if_congr ?_ rfl rfl
    rw [needed_iff]
    constructor
    · rintro ⟨⟨rfl,hk⟩,hneeded,-⟩
      exact ⟨rfl,(hwanted rfl).mpr ⟨hid,Bool.not_eq_true _ ▸ hpadding,hk,hneeded⟩⟩
    · rintro ⟨rfl,h⟩
      obtain ⟨-,-,hk,hneeded⟩ := (hwanted rfl).mp h
      exact ⟨⟨rfl,hk⟩,hneeded,mem_candidates hf hid hk hneeded⟩

theorem sum_zipIdx {α : Type} {g : α → ℕ} {l : List α} {n i : ℕ} :
    ((l.zipIdx n).map fun x => if x.2 = i then g x.1 else 0).sum =
      if n ≤ i then (l[i - n]?.map g).getD 0 else 0 := by
  induction l generalizing n with
  | nil => simp
  | cons a l ih =>
    rw [List.zipIdx_cons, List.map_cons, List.sum_cons, ih]
    obtain hlt | rfl | hgt := Nat.lt_trichotomy i n
    · rw [if_neg (Nat.ne_of_gt hlt), if_neg (by omega), if_neg (by omega)]
    · rw [if_pos rfl, if_neg (by omega), if_pos le_rfl, Nat.sub_self]
      rfl
    · obtain ⟨j,rfl⟩ : ∃ j, i = n + 1 + j := ⟨i - (n + 1),by omega⟩
      have hsub : n + 1 + j - n = j + 1 := by omega
      rw [if_neg (by omega), if_pos (Nat.le_add_right _ j), if_pos (by omega),
        Nat.add_sub_cancel_left, hsub, List.getElem?_cons_succ, Nat.zero_add]

open Classical in
/-- The segments have the wanted bytes once, and no other. -/
theorem countP_boundarySegments :
    (boundarySegments layout.files selected layout.pieceLength layout.totalLength).countP
      (Segment.covers id k) = if layout.Wanted selected id k then 1 else 0 := by
  have hfiles : ∀ x ∈ layout.files.zipIdx,
      (fileSegments layout.files selected layout.pieceLength layout.totalLength x.1 x.2).countP
        (Segment.covers id k) =
      if x.2 = id then if layout.Wanted selected id k then 1 else 0 else 0 := by
    intro x hx
    rw [countP_fileSegments (List.mem_zipIdx_iff_getElem?.mp hx)]
    by_cases hid : x.2 = id <;> simp [hid]
  rw [boundarySegments, List.countP_flatMap]
  refine (congrArg List.sum (List.map_congr_left hfiles)).trans ?_
  rw [@sum_zipIdx _ (fun _ => if layout.Wanted selected id k then 1 else 0), Nat.sub_zero,
    if_pos (Nat.zero_le id)]
  cases hf : layout.files[id]? with
  | none =>
    rw [if_neg]
    · rfl
    · rintro ⟨f,hf',-⟩
      exact Option.some_ne_none f (hf'.symm.trans hf)
  | some f => rfl

theorem exists_covers_iff :
    (∃ s ∈ boundarySegments layout.files selected layout.pieceLength layout.totalLength,
      s.covers id k = true) ↔ layout.Wanted selected id k := by
  have hcount := @countP_boundarySegments layout selected id k
  rw [← List.countP_pos_iff, hcount]
  split_ifs with hwanted <;> simp [hwanted]

theorem mem_boundarySegments {s : Segment} (hs : s ∈ boundarySegments layout.files selected
    layout.pieceLength layout.totalLength) :
    0 < s.len ∧ ∃ f, layout.files[s.fileId]? = some f ∧ s.offset + s.len ≤ f.len := by
  obtain ⟨⟨f,id⟩,hf,hfile⟩ := List.mem_flatMap.mp hs
  have hs : s ∈ fileSegments layout.files selected layout.pieceLength layout.totalLength f id :=
    hfile
  rw [fileSegments] at hs
  split_ifs at hs
  · exact absurd hs List.not_mem_nil
  · obtain ⟨p,-,hp⟩ := List.mem_filterMap.mp hs
    rw [candidate] at hp
    split_ifs at hp with hspan
    obtain rfl := Option.some.inj hp
    refine ⟨Nat.sub_pos_of_lt hspan,f,List.mk_mem_zipIdx_iff_getElem?.mp hf,?_⟩
    dsimp only
    generalize min (p * layout.pieceLength + layout.pieceLength) layout.totalLength = pieceEnd
      at hspan ⊢
    omega

theorem wanted_of_mem {s : Segment} (hs : s ∈ boundarySegments layout.files selected
    layout.pieceLength layout.totalLength) (hk : s.offset ≤ k ∧ k < s.offset + s.len) :
    layout.Wanted selected s.fileId k :=
  exists_covers_iff.mp ⟨s,hs,decide_eq_true ⟨rfl,hk⟩⟩

/-! ## The blob -/

variable {segments l r : List Segment} {blobCursor : ℕ}

theorem segmentEntries_append : segmentEntries blobCursor (l ++ r) =
    segmentEntries blobCursor l ++ segmentEntries (blobCursor + (l.map Segment.len).sum) r := by
  induction l generalizing blobCursor with
  | nil => simp [segmentEntries]
  | cons s l ih =>
    rw [List.cons_append, segmentEntries, ih, segmentEntries, List.map_cons, List.sum_cons,
      Nat.add_assoc]
    rfl

theorem le_blobOffset {e : SegmentEntry} (he : e ∈ segmentEntries blobCursor segments) :
    blobCursor ≤ e.blobOffset := by
  induction segments generalizing blobCursor with
  | nil => exact absurd he List.not_mem_nil
  | cons s segments ih =>
    obtain rfl | he := List.mem_cons.mp he
    · exact le_rfl
    · exact Nat.le_of_add_right_le (ih he)

theorem pairwise_segmentEntries : (segmentEntries blobCursor segments).Pairwise fun a b =>
    a.blobOffset + a.segment.len ≤ b.blobOffset := by
  induction segments generalizing blobCursor with
  | nil => exact .nil
  | cons s segments ih => exact .cons (fun e he => le_blobOffset he) ih

theorem map_segmentEntries :
    (segmentEntries blobCursor segments).map SegmentEntry.segment = segments := by
  induction segments generalizing blobCursor with
  | nil => rfl
  | cons s segments ih => rw [segmentEntries, List.map_cons, ih]

theorem getElem?_segmentEntries {s : Segment} :
    (segmentEntries blobCursor (l ++ s :: r))[l.length]? =
      some ⟨s,blobCursor + (l.map Segment.len).sum⟩ := by
  have hlength : (segmentEntries blobCursor l).length = l.length := by
    rw [← List.length_map SegmentEntry.segment, map_segmentEntries]
  rw [segmentEntries_append, ← hlength, List.getElem?_append_right le_rfl, Nat.sub_self]
  rfl

end

/-! ## What is kept -/

def Layout.segments (layout : Layout) (selected : Finset ℕ) : List Segment :=
  boundarySegments layout.files selected layout.pieceLength layout.totalLength

/-! ## How long the blob is -/

section
variable {layout : Layout} {selected : Finset ℕ} {id p pieceLength totalLength : ℕ}
  {f : PartsFileMeta}

def spanLength (pieceLength : ℕ) (f : PartsFileMeta) (p : ℕ) : ℕ :=
  min (p * pieceLength + pieceLength) (f.offsetInTorrent + f.len) -
    max (p * pieceLength) f.offsetInTorrent

theorem len_candidate {s : Segment} (h : candidate pieceLength totalLength f id p = some s) :
    s.len ≤ spanLength pieceLength f p := by
  rw [candidate] at h
  split_ifs at h
  obtain rfl := Option.some.inj h
  unfold spanLength
  dsimp only
  omega

theorem sum_filterMap_le {l : List ℕ} :
    ((l.filterMap (candidate pieceLength totalLength f id)).map Segment.len).sum ≤
      (l.map (spanLength pieceLength f)).sum := by
  induction l with
  | nil => exact le_rfl
  | cons p l ih =>
    rw [List.filterMap_cons, List.map_cons, List.sum_cons]
    split
    · omega
    · rename_i s hs
      have hlen := len_candidate hs
      rw [List.map_cons, List.sum_cons]
      omega

theorem sum_filter_le {l : List ℕ} {b : ℕ → Bool} {g : ℕ → ℕ} :
    ((l.filter b).map g).sum ≤ (l.map g).sum := by
  induction l with
  | nil => exact le_rfl
  | cons p l ih =>
    rw [List.filter_cons]
    split_ifs
    · simpa using ih
    · rw [List.map_cons, List.sum_cons]
      omega

theorem sum_candidates_le :
    ((candidates f).map (spanLength pieceLength f)).sum ≤ f.len := by
  have hspan : ∀ p, spanLength pieceLength f p ≤ f.len := fun p => by
    unfold spanLength
    omega
  simp only [candidates]
  split_ifs with hlast
  · -- Two pieces have no byte in common.
    simp only [List.map_cons, List.map_nil, List.sum_cons, List.sum_nil]
    have hapart : ∀ a b, a < b → a * pieceLength + pieceLength ≤ b * pieceLength := fun a b hab =>
      Nat.succ_mul a pieceLength ▸ Nat.mul_le_mul_right pieceLength hab
    unfold spanLength
    obtain hlt | hlt := Nat.lt_or_gt_of_ne hlast
    · have hle := hapart _ _ hlt
      omega
    · have hle := hapart _ _ hlt
      omega
  · simpa using hspan f.pieceRange.start

theorem sum_fileSegments_le {files : List PartsFileMeta} :
    ((fileSegments files selected pieceLength totalLength f id).map Segment.len).sum ≤ f.len := by
  rw [fileSegments]
  split_ifs
  · exact Nat.zero_le _
  · exact (sum_filterMap_le.trans sum_filter_le).trans sum_candidates_le

theorem sum_flatMap_le {files : List PartsFileMeta} {g : PartsFileMeta × ℕ → List Segment}
    {offset n : ℕ} (h : LaidFrom offset files totalLength)
    (hg : ∀ f id, ((g (f, id)).map Segment.len).sum ≤ f.len) :
    offset + (((files.zipIdx n).flatMap g).map Segment.len).sum ≤ totalLength := by
  induction files generalizing offset n with
  | nil => exact h.le
  | cons f files ih =>
    have hfile := hg f n
    have hrest := ih (n := n + 1) h.2
    rw [List.zipIdx_cons, List.flatMap_cons, List.map_append, List.sum_append]
    omega

theorem sum_segments_le : ((layout.segments selected).map Segment.len).sum ≤ layout.totalLength := by
  have hsum := @sum_flatMap_le layout.totalLength layout.files
    (fun x => fileSegments layout.files selected layout.pieceLength layout.totalLength x.1 x.2)
    0 0 layout.laid fun f id => sum_fileSegments_le
  rw [Nat.zero_add] at hsum
  exact hsum

end

/-- What is kept of the files that are not selected. -/
structure Layout.Kept (layout : Layout) (selected : Finset ℕ) (segments : List Segment) :
    Prop where
  wanted : ∀ id k, (∃ s ∈ segments, s.covers id k = true) ↔ layout.Wanted selected id k
  once : ∀ id k, segments.countP (Segment.covers id k) ≤ 1
  parts : ∀ s ∈ segments, 0 < s.len ∧
    ∃ f, layout.files[s.fileId]? = some f ∧ s.offset + s.len ≤ f.len
  consecutive : ∀ l s r, segments = l ++ s :: r →
    (segmentEntries 0 segments)[l.length]? = some ⟨s,(l.map Segment.len).sum⟩
  apart : (segmentEntries 0 segments).Pairwise fun a b =>
    a.blobOffset + a.segment.len ≤ b.blobOffset
  /-- Whatever is read of a piece that is needed is in a selected file, padding or a segment. -/
  seeds : ∀ p, layout.Overlapped selected p → ∀ t, p * layout.pieceLength ≤ t →
    t < min (p * layout.pieceLength + layout.pieceLength) layout.totalLength →
    ∃ id f, layout.files[id]? = some f ∧
      (f.offsetInTorrent ≤ t ∧ t < f.offsetInTorrent + f.len) ∧
      (id ∈ selected ∨ f.padding = true ∨
        ∃ s ∈ segments, s.covers id (t - f.offsetInTorrent) = true)

/-- The bytes of the files that are not selected are kept where they are in a piece of one that
is, each of them once, and nothing else is. -/
theorem boundary_segments_kept (layout : Layout) (selected : Finset ℕ) :
    layout.Kept selected (layout.segments selected) where
  wanted _ _ := exists_covers_iff
  once id k := by
    classical
    rw [Layout.segments, countP_boundarySegments]
    split_ifs
    · exact le_rfl
    · exact Nat.zero_le 1
  parts _ hs := mem_boundarySegments hs
  consecutive l s r h := by
    rw [h, getElem?_segmentEntries, Nat.zero_add]
  apart := pairwise_segmentEntries
  seeds p hp t ht ht' := by
    obtain ⟨id,f,hf,hplace⟩ := layout.laid.exists_file (Nat.zero_le t) (by omega)
    refine ⟨id,f,hf,hplace,?_⟩
    by_cases hid : id ∈ selected
    · exact .inl hid
    by_cases hpadding : f.padding = true
    · exact .inr (.inl hpadding)
    refine .inr (.inr (exists_covers_iff.mpr ⟨f,hf,hid,Bool.not_eq_true _ ▸ hpadding,?_⟩))
    have hpiece : t / layout.pieceLength = p :=
      (Nat.div_eq_iff layout.pieceLength_pos).mpr (by omega)
    rw [Nat.add_sub_cancel' hplace.1, hpiece]
    exact ⟨by omega,hp⟩

end RinaDown.BoundarySegments
