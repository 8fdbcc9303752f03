import Mathlib.Data.List.Sort
import RinaDown.SegmentLayout

/-!
# Coverage validation

`validate_coverage` sorts the segments by start and checks the first start, the
last end, contiguity and the sum of the sizes. It accepts every layout, and what
it accepts is a partition as soon as no segment is empty.
-/

namespace RinaDown.SegmentCoverage
open Std (TreeMap)
open OrderedMap IntervalPartition SegmentLayout List

inductive CoverageError where
  | noSegments
  | firstStart (startByte : ℤ)
  | lastEnd (endByte expected : ℤ)
  | gapOrOverlap (prevIndex prevEnd currIndex currStart : ℤ)
  | totalCoverage (totalCoverage totalBytes : ℤ)
  deriving DecidableEq, Repr

def CoverageError.message : CoverageError → String
  | .noSegments => "no segments"
  | .firstStart startByte => s!"first segment starts at {startByte} instead of 0"
  | .lastEnd endByte expected => s!"last segment ends at {endByte} instead of {expected}"
  | .gapOrOverlap prevIndex prevEnd currIndex currStart =>
    s!"gap or overlap between segment {prevIndex} (end={prevEnd}) and segment {currIndex} " ++
      s!"(start={currStart})"
  | .totalCoverage coverage totalBytes => s!"total coverage {coverage} != total_bytes {totalBytes}"

def StartLe (a b : LiveSegment) : Prop := a.startByte ≤ b.startByte

instance : DecidableRel StartLe := fun a b => inferInstanceAs (Decidable (a.startByte ≤ b.startByte))

instance : Std.Total StartLe := ⟨fun a b => le_total a.startByte b.startByte⟩

instance : IsTrans LiveSegment StartLe := ⟨fun _ _ _ h1 h2 => Int.le_trans h1 h2⟩

/-- `sort_by_key(|s| s.start_byte)`, which is stable. -/
def sortByStart (l : List LiveSegment) : List LiveSegment := l.insertionSort StartLe

def contiguityError : List LiveSegment → Option CoverageError
  | prev :: curr :: rest =>
    if curr.startByte ≠ prev.endByte + 1 then
      some (.gapOrOverlap prev.index prev.endByte curr.index curr.startByte)
    else contiguityError (curr :: rest)
  | _ => none

def validateCoverage (segments : SegmentMap) (totalBytes : ℤ) : Except CoverageError Unit :=
  match sortByStart (values segments) with
  | [] => .error .noSegments
  | first :: rest =>
    let last := (first :: rest).getLast (List.cons_ne_nil first rest)
    if first.startByte ≠ 0 then .error (.firstStart first.startByte)
    else if last.endByte ≠ totalBytes - 1 then .error (.lastEnd last.endByte (totalBytes - 1))
    else
      match contiguityError (first :: rest) with
      | some e => .error e
      | none =>
        if total LiveSegment.size segments ≠ totalBytes then
          .error (.totalCoverage (total LiveSegment.size segments) totalBytes)
        else .ok ()

variable {l : List LiveSegment} {segments : SegmentMap} {totalBytes : ℤ}

theorem mem_sortByStart {s : LiveSegment} : s ∈ sortByStart l ↔ s ∈ l :=
  mem_insertionSort StartLe

theorem contiguityError_none_of_tiles : ∀ {a b : ℤ},
    Tiles LiveSegment.startByte LiveSegment.endByte a l b → contiguityError l = none := by
  induction l with
  | nil => intro a b _; rfl
  | cons v l ih =>
    rintro a b ⟨hlo,hv,hl⟩
    cases l with
    | nil => rfl
    | cons w l =>
      rw [contiguityError, if_neg (not_not.mpr hl.1)]
      exact ih hl

theorem getLast_endByte_of_tiles : ∀ {a b : ℤ} (hne : l ≠ []),
    Tiles LiveSegment.startByte LiveSegment.endByte a l b → (l.getLast hne).endByte = b - 1 := by
  induction l with
  | nil => simp
  | cons v l ih =>
    rintro a b hne ⟨hlo,hv,hl⟩
    cases l with
    | nil =>
      have : v.endByte + 1 = b := hl
      simp only [getLast_singleton]
      omega
    | cons w l =>
      rw [getLast_cons (cons_ne_nil w l)]
      exact ih _ hl

theorem tiles_of_contiguityError_none : ∀ (v : LiveSegment) {b : ℤ},
    (∀ s ∈ v :: l, s.startByte ≤ s.endByte) → contiguityError (v :: l) = none →
    ((v :: l).getLast (List.cons_ne_nil v l)).endByte = b - 1 →
    Tiles LiveSegment.startByte LiveSegment.endByte v.startByte (v :: l) b := by
  induction l with
  | nil =>
    intro v b hne _ hlast
    refine ⟨rfl,hne v mem_cons_self,?_⟩
    simp only [getLast_singleton] at hlast
    show v.endByte + 1 = b
    omega
  | cons w l ih =>
    intro v b hne hcont hlast
    rw [contiguityError] at hcont
    split_ifs at hcont with hstart
    rw [getLast_cons (cons_ne_nil w l)] at hlast
    have hrest := ih w (fun s hs => hne s (mem_cons_of_mem v hs)) hcont hlast
    rw [not_not.mp hstart] at hrest
    exact ⟨rfl,hne v mem_cons_self,hrest⟩

theorem tiles_sortByStart {nextIndex : ℤ} (h : Layout segments nextIndex totalBytes) :
    Tiles LiveSegment.startByte LiveSegment.endByte 0 (sortByStart (values segments)) totalBytes := by
  have hperm : (sortByStart (values segments)).Perm (values segments) :=
    perm_insertionSort StartLe _
  refine h.partition.tiles h.total_pos.le (fun s => ?_) ?_ (pairwise_insertionSort StartLe _)
  · rw [mem_sortByStart, mem_values]
  · have hpair : (values segments).Pairwise
        (fun v w => v.endByte < w.startByte ∨ w.endByte < v.startByte) :=
      values_pairwise (fun j k v w hj hk hne => h.partition.disjoint j k v w hj hk hne)
    exact hperm.symm.pairwise hpair (fun {_ _} h => Or.symm h)

theorem total_size_of_tiles
    (h : Tiles LiveSegment.startByte LiveSegment.endByte 0 (sortByStart (values segments)) totalBytes) :
    total LiveSegment.size segments = totalBytes := by
  have hperm : (sortByStart (values segments)).Perm (values segments) :=
    perm_insertionSort StartLe _
  have hsum := h.sum
  have hsize : (values segments).map LiveSegment.size =
      (values segments).map (fun s => s.endByte - s.startByte + 1) := by
    refine map_congr_left ?_
    intro s hs
    have hwithin := h.within s (mem_sortByStart.2 hs)
    rw [LiveSegment.size]
    omega
  rw [total, hsize, ← (hperm.map _).sum_eq, hsum, sub_zero]

theorem validateCoverage_of_tiles (hpos : 0 < totalBytes)
    (htiles : Tiles LiveSegment.startByte LiveSegment.endByte 0 (sortByStart (values segments)) totalBytes) :
    validateCoverage segments totalBytes = .ok () := by
  have hsize := total_size_of_tiles htiles
  unfold validateCoverage
  cases hsort : sortByStart (values segments) with
  | nil =>
    rw [hsort] at htiles
    have hzero : (0 : ℤ) = totalBytes := htiles
    omega
  | cons first rest =>
    rw [hsort] at htiles
    have hlast := getLast_endByte_of_tiles (cons_ne_nil first rest) htiles
    simp [htiles.1, hlast, contiguityError_none_of_tiles htiles, hsize]

/-- What the check accepts is tiled by the segments, if none of them is empty. -/
theorem tiles_of_validateCoverage (hne : ∀ s ∈ values segments, s.startByte ≤ s.endByte)
    (h : validateCoverage segments totalBytes = .ok ()) :
    Tiles LiveSegment.startByte LiveSegment.endByte 0 (sortByStart (values segments)) totalBytes ∧
      0 < totalBytes := by
  unfold validateCoverage at h
  cases hsort : sortByStart (values segments) with
  | nil => simp [hsort] at h
  | cons first rest =>
    have hneList : ∀ s ∈ first :: rest, s.startByte ≤ s.endByte := by
      intro s hs
      rw [← hsort, mem_sortByStart] at hs
      exact hne s hs
    cases hcont : contiguityError (first :: rest) with
    | some e =>
      simp only [hsort, hcont] at h
      split_ifs at h
    | none =>
      simp only [hsort, hcont] at h
      split_ifs at h with hfirst hlast hsum
      rw [not_not] at hfirst hlast
      have htiles := tiles_of_contiguityError_none first hneList hcont hlast
      rw [hfirst] at htiles
      have hle := htiles.2.2.le
      have hstart := htiles.2.1
      refine ⟨htiles,?_⟩
      omega

theorem validateCoverage_of_layout {nextIndex : ℤ} (h : Layout segments nextIndex totalBytes) :
    validateCoverage segments totalBytes = .ok () :=
  validateCoverage_of_tiles h.total_pos (tiles_sortByStart h)

/-- What the check accepts is a partition, if no segment is empty. -/
theorem partitions_of_validateCoverage (hkey : ∀ (k : ℤ) s, segments[k]? = some s → s.index = k)
    (hne : ∀ (k : ℤ) s, segments[k]? = some s → s.startByte ≤ s.endByte)
    (h : validateCoverage segments totalBytes = .ok ()) :
    Partitions LiveSegment.startByte LiveSegment.endByte (fun k : ℤ => segments[k]?) totalBytes ∧
      0 < totalBytes := by
  have hvalues : ∀ s ∈ values segments, s.startByte ≤ s.endByte := by
    intro s hs
    obtain ⟨k,hk⟩ := mem_values.1 hs
    exact hne k s hk
  obtain ⟨htiles,hpos⟩ := tiles_of_validateCoverage hvalues h
  refine ⟨htiles.partitions ?_ ?_,hpos⟩
  · intro s
    rw [mem_sortByStart, mem_values]
  · intro j k s hj hk
    rw [← hkey j s hj, hkey k s hk]

/-! ## The check is exact -/

def holders (segments : SegmentMap) (offset : ℤ) : ℕ :=
  (values segments).countP fun s => s.startByte ≤ offset ∧ offset ≤ s.endByte

/-- The check accepts non-empty segments if and only if every offset is in exactly one of them and
none begins before the file or reaches past its end. -/
theorem validateCoverage_exact (segments : SegmentMap) (totalBytes : ℤ) (htotal : 1 ≤ totalBytes)
    (hne : ∀ s ∈ values segments, s.startByte ≤ s.endByte) :
    validateCoverage segments totalBytes = .ok () ↔
      (∀ offset, 0 ≤ offset → offset < totalBytes → holders segments offset = 1) ∧
        ∀ s ∈ values segments, 0 ≤ s.startByte ∧ s.endByte ≤ totalBytes - 1 := by
  have hperm : (sortByStart (values segments)).Perm (values segments) :=
    perm_insertionSort StartLe _
  have hok : validateCoverage segments totalBytes = .ok () ↔
      Tiles LiveSegment.startByte LiveSegment.endByte 0
        (sortByStart (values segments)) totalBytes := by
    constructor
    · intro h
      exact (tiles_of_validateCoverage hne h).1
    · intro h
      exact validateCoverage_of_tiles htotal h
  have hsorted : ∀ s ∈ sortByStart (values segments), s.startByte ≤ s.endByte := by
    intro s hs
    exact hne s (mem_sortByStart.1 hs)
  rw [hok, tiles_iff_countP (by omega) hsorted (pairwise_insertionSort StartLe _)]
  simp only [mem_sortByStart, hperm.countP_eq, Int.le_sub_one_iff, holders]
  exact and_comm

def segmentPair : SegmentMap :=
  (∅ : SegmentMap).insert 3 ⟨3,5,9,0,.pending⟩ |>.insert 7 ⟨7,0,4,0,.pending⟩

theorem segmentPair_exact :
    validateCoverage segmentPair 10 = .ok () ↔
      (∀ offset, 0 ≤ offset → offset < 10 → holders segmentPair offset = 1) ∧
        ∀ s ∈ values segmentPair, 0 ≤ s.startByte ∧ s.endByte ≤ 10 - 1 := by
  have hvalues : values segmentPair = [⟨3,5,9,0,.pending⟩, ⟨7,0,4,0,.pending⟩] := by
    rfl
  exact validateCoverage_exact segmentPair 10 (by decide) (by simp [hvalues])

/-- A segment before the file, which covers no offset of it. -/
def segmentBefore : SegmentMap :=
  (∅ : SegmentMap).insert 0 ⟨0,-5,-1,0,.pending⟩ |>.insert 1 ⟨1,0,9,0,.pending⟩

theorem segmentBefore_rejected :
    (∀ s ∈ values segmentBefore, s.startByte ≤ s.endByte) ∧
      (∀ offset, 0 ≤ offset → offset < 10 → holders segmentBefore offset = 1) ∧
        (∀ s ∈ values segmentBefore, s.endByte ≤ 10 - 1) ∧
          validateCoverage segmentBefore 10 ≠ .ok () := by
  have hvalues : values segmentBefore = [⟨0,-5,-1,0,.pending⟩, ⟨1,0,9,0,.pending⟩] := by
    rfl
  have hfirst : validateCoverage segmentBefore 10 = .error (.firstStart (-5)) := by
    rw [validateCoverage, hvalues]
    rfl
  refine ⟨?_,?_,?_,?_⟩
  · simp [hvalues]
  · intro offset hzero hten
    simp only [holders, hvalues, countP_cons, countP_nil, decide_eq_true_eq]
    split_ifs
    all_goals omega
  · simp [hvalues]
  · simp [hfirst]

end RinaDown.SegmentCoverage
