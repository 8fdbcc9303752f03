import Mathlib.Tactic.Ring
import RinaDown.IntervalPartition
import RinaDown.OrderedMap

/-!
# The segment map

The coordinator's authoritative state: an ordered map from a segment index to a
byte range with its recorded progress. The two ways the map is first filled are
here, the uniform split of a fresh download and the rows of an earlier run, and
the layout invariant that every later mutation has to keep.
-/

namespace RinaDown.SegmentLayout
open Std (TreeMap)
open OrderedMap IntervalPartition

inductive SegState where
  | pending
  | active
  | completed
  deriving DecidableEq, Repr

structure LiveSegment where
  index : ℤ
  startByte : ℤ
  endByte : ℤ
  /-- Bytes downloaded within this segment, relative to `startByte`. -/
  downloadedBytes : ℤ
  state : SegState
  deriving DecidableEq, Repr

namespace LiveSegment

def size (s : LiveSegment) : ℤ := max (s.endByte - s.startByte + 1) 0

def remaining (s : LiveSegment) : ℤ := max (s.size - s.downloadedBytes) 0

end LiveSegment

/-- A `BTreeMap<i32, LiveSegment>`. -/
abbrev SegmentMap := TreeMap ℤ LiveSegment

/-- A row of the `task_segments` table, without its task. -/
structure SegmentRow where
  index : ℤ
  startByte : ℤ
  endByte : ℤ
  downloadedBytes : ℤ
  deriving DecidableEq, Repr

def freshSegment (count totalBytes i : ℤ) : LiveSegment where
  index := i
  startByte := i * totalBytes.tdiv count
  endByte := if i = count - 1 then totalBytes - 1 else (i + 1) * totalBytes.tdiv count - 1
  downloadedBytes := 0
  state := .pending

def pushFresh (count totalBytes : ℤ) (acc : SegmentMap × List (ℤ × ℤ × ℤ)) (i : ℕ) :
    SegmentMap × List (ℤ × ℤ × ℤ) :=
  let seg := freshSegment count totalBytes i
  (acc.1.insert i seg, acc.2 ++ [((i : ℤ), seg.startByte, seg.endByte)])

/-- The map and the rows to insert, in the order of the loop over `0..count`. -/
def buildFreshSegments (count totalBytes : ℤ) : SegmentMap × List (ℤ × ℤ × ℤ) :=
  (List.range count.toNat).foldl (pushFresh count totalBytes) (∅, [])

def restoredSegment (r : SegmentRow) : LiveSegment where
  index := r.index
  startByte := r.startByte
  endByte := r.endByte
  downloadedBytes := r.downloadedBytes
  state := if r.downloadedBytes ≥ r.endByte - r.startByte + 1 then .completed else .pending

/-- The resume branch: the map and the next free index. -/
def restoreSegments (existing : List SegmentRow) : SegmentMap × ℤ :=
  existing.foldl
    (fun acc r =>
      (acc.1.insert r.index (restoredSegment r),
        if r.index ≥ acc.2 then r.index + 1 else acc.2))
    (∅, 0)

/-- The header's invariants of the segment map: keys, indices below `nextIndex`, an exact
partition of the planned file, and progress that is never negative. -/
structure Layout (segments : SegmentMap) (nextIndex effectiveTotalBytes : ℤ) : Prop where
  key : ∀ (k : ℤ) s, segments[k]? = some s → s.index = k
  below : ∀ (k : ℤ) s, segments[k]? = some s → k < nextIndex
  partition : Partitions LiveSegment.startByte LiveSegment.endByte (fun k : ℤ => segments[k]?)
    effectiveTotalBytes
  total_pos : 0 < effectiveTotalBytes
  progress : ∀ (k : ℤ) s, segments[k]? = some s → 0 ≤ s.downloadedBytes

namespace Layout

variable {segments : SegmentMap} {nextIndex effectiveTotalBytes : ℤ}

theorem fresh_none (h : Layout segments nextIndex effectiveTotalBytes) :
    segments[nextIndex]? = none := by
  cases hk : segments[nextIndex]? with
  | none => rfl
  | some s => exact absurd (h.below _ _ hk) (lt_irrefl _)

theorem size_eq (h : Layout segments nextIndex effectiveTotalBytes) {k : ℤ} {s : LiveSegment}
    (hk : segments[k]? = some s) : s.size = s.endByte - s.startByte + 1 := by
  have := h.partition.nonempty k s hk
  simp only [LiveSegment.size]
  omega

theorem get_of_mem_values (h : Layout segments nextIndex effectiveTotalBytes) {s : LiveSegment}
    (hs : s ∈ values segments) : segments[s.index]? = some s := by
  obtain ⟨k,hk⟩ := mem_values.mp hs
  rw [h.key k s hk, hk]

theorem modify (h : Layout segments nextIndex effectiveTotalBytes) (k : ℤ)
    (f : LiveSegment → LiveSegment)
    (hf : ∀ s, segments[k]? = some s → (f s).index = s.index ∧ (f s).startByte = s.startByte ∧
      (f s).endByte = s.endByte ∧ 0 ≤ (f s).downloadedBytes) :
    Layout (segments.modify k f) nextIndex effectiveTotalBytes := by
  have hget : ∀ {j : ℤ} {t}, (segments.modify k f)[j]? = some t →
      ∃ s, segments[j]? = some s ∧ t.index = s.index ∧ t.startByte = s.startByte ∧
        t.endByte = s.endByte ∧ 0 ≤ t.downloadedBytes := by
    intro j t hj
    rw [getElem?_modify_eq] at hj
    split_ifs at hj with hjk
    · subst hjk
      obtain ⟨s,hs,rfl⟩ := Option.map_eq_some_iff.mp hj
      exact ⟨s,hs,hf s hs⟩
    · exact ⟨t,hj,rfl,rfl,rfl,h.progress j t hj⟩
  refine ⟨fun j t hj => ?_,fun j t hj => ?_,h.partition.congr (fun j => ?_),h.total_pos,
    fun j t hj => ?_⟩
  · obtain ⟨s,hs,hidx,-⟩ := hget hj
    rw [hidx, h.key j s hs]
  · obtain ⟨s,hs,-⟩ := hget hj
    exact h.below j s hs
  · rw [getElem?_modify_eq]
    split_ifs with hjk
    · subst hjk
      cases hs : segments[j]? with
      | none => rfl
      | some s =>
        obtain ⟨-,hlo,hhi,-⟩ := hf s hs
        simp [hlo, hhi]
    · rfl
  · obtain ⟨s,hs,-,-,-,hd⟩ := hget hj
    exact hd

/-- A split: the segment keeps what lies below `p`, a new one takes the rest. -/
theorem split (h : Layout segments nextIndex effectiveTotalBytes) {k p : ℤ} {s child : LiveSegment}
    {f : LiveSegment → LiveSegment} (hs : segments[k]? = some s)
    (hp : s.startByte < p ∧ p ≤ s.endByte)
    (hf : (f s).index = s.index ∧ (f s).startByte = s.startByte ∧ (f s).endByte = p - 1 ∧
      0 ≤ (f s).downloadedBytes)
    (hchild : child.index = nextIndex ∧ child.startByte = p ∧ child.endByte = s.endByte ∧
      0 ≤ child.downloadedBytes) :
    Layout ((segments.modify k f).insert nextIndex child) (nextIndex + 1) effectiveTotalBytes := by
  have hkn : k < nextIndex := h.below k s hs
  have hget : ∀ j : ℤ, ((segments.modify k f).insert nextIndex child)[j]? =
      if j = nextIndex then some child else if j = k then some (f s) else segments[j]? := by
    intro j
    rw [getElem?_insert_eq, getElem?_modify_eq, hs, Option.map_some]
  have hcases : ∀ {j : ℤ} {t}, ((segments.modify k f).insert nextIndex child)[j]? = some t →
      (j = nextIndex ∧ t = child) ∨ (j = k ∧ t = f s) ∨ segments[j]? = some t := by
    intro j t hj
    rw [hget] at hj
    split_ifs at hj with h1 h2
    · exact .inl ⟨h1,by simpa [eq_comm] using hj⟩
    · exact .inr (.inl ⟨h2,by simpa [eq_comm] using hj⟩)
    · exact .inr (.inr hj)
  refine ⟨fun j t hj => ?_,fun j t hj => ?_,?_,h.total_pos,fun j t hj => ?_⟩
  · rcases hcases hj with ⟨rfl,rfl⟩ | ⟨rfl,rfl⟩ | hj
    · exact hchild.1
    · rw [hf.1, h.key j s hs]
    · exact h.key j t hj
  · rcases hcases hj with ⟨rfl,rfl⟩ | ⟨rfl,rfl⟩ | hj
    · omega
    · omega
    · have := h.below j t hj
      omega
  · have hold : ((segments.modify k f).insert nextIndex child)[k]? = some (f s) := by
      simp [hget, hkn.ne]
    have hnew : ((segments.modify k f).insert nextIndex child)[nextIndex]? = some child := by simp
    exact h.partition.split hs h.fresh_none hp hold ⟨hf.2.1,hf.2.2.1⟩ hnew
      ⟨hchild.2.1,hchild.2.2.1⟩ (fun j h1 h2 => by simp [hget, h1, h2])
  · rcases hcases hj with ⟨rfl,rfl⟩ | ⟨rfl,rfl⟩ | hj
    · exact hchild.2.2.2
    · exact hf.2.2.2
    · exact h.progress j t hj

/-- An append: a new segment takes everything from the old total to the new one. -/
theorem append (h : Layout segments nextIndex effectiveTotalBytes) {total : ℤ} {child : LiveSegment}
    (htotal : effectiveTotalBytes < total)
    (hchild : child.index = nextIndex ∧ child.startByte = effectiveTotalBytes ∧
      child.endByte = total - 1 ∧ 0 ≤ child.downloadedBytes) :
    Layout (segments.insert nextIndex child) (nextIndex + 1) total := by
  have hcases : ∀ {j : ℤ} {t}, (segments.insert nextIndex child)[j]? = some t →
      (j = nextIndex ∧ t = child) ∨ segments[j]? = some t := by
    intro j t hj
    rw [getElem?_insert_eq] at hj
    split_ifs at hj with h1
    · exact .inl ⟨h1,by simpa [eq_comm] using hj⟩
    · exact .inr hj
  refine ⟨fun j t hj => ?_,fun j t hj => ?_,?_,h.total_pos.trans htotal,fun j t hj => ?_⟩
  · rcases hcases hj with ⟨rfl,rfl⟩ | hj
    · exact hchild.1
    · exact h.key j t hj
  · rcases hcases hj with ⟨rfl,rfl⟩ | hj
    · omega
    · have := h.below j t hj
      omega
  · have hnew : (segments.insert nextIndex child)[nextIndex]? = some child := by simp
    exact h.partition.append h.total_pos.le htotal h.fresh_none hnew
      ⟨hchild.2.1,hchild.2.2.1⟩ (fun j h1 => by simp [getElem?_insert_eq, h1])
  · rcases hcases hj with ⟨rfl,rfl⟩ | hj
    · exact hchild.2.2.2
    · exact h.progress j t hj

/-- A merge: a segment takes over the range of the one right after it. -/
theorem merge (h : Layout segments nextIndex effectiveTotalBytes) {k k' : ℤ}
    {s s' : LiveSegment} (hne : k ≠ k') (hs : segments[k]? = some s) (hs' : segments[k']? = some s')
    (hadj : s'.startByte = s.endByte + 1) :
    Layout ((segments.erase k').modify k (fun t => { t with endByte := s'.endByte })) nextIndex
      effectiveTotalBytes := by
  have hget : ∀ j : ℤ, ((segments.erase k').modify k
      (fun t => { t with endByte := s'.endByte }))[j]? =
      if j = k then some { s with endByte := s'.endByte }
      else if j = k' then none else segments[j]? := by
    intro j
    rw [getElem?_modify_eq, getElem?_erase_eq, getElem?_erase_eq, if_neg hne, hs]
    rfl
  have hcases : ∀ {j : ℤ} {t}, ((segments.erase k').modify k
      (fun t => { t with endByte := s'.endByte }))[j]? = some t →
      (j = k ∧ t = { s with endByte := s'.endByte }) ∨ segments[j]? = some t := by
    intro j t hj
    rw [hget] at hj
    split_ifs at hj with h1 h2
    · exact .inl ⟨h1,by simpa [eq_comm] using hj⟩
    · exact .inr hj
  refine ⟨fun j t hj => ?_,fun j t hj => ?_,?_,h.total_pos,fun j t hj => ?_⟩
  · rcases hcases hj with ⟨rfl,rfl⟩ | hj
    · exact h.key j s hs
    · exact h.key j t hj
  · rcases hcases hj with ⟨rfl,rfl⟩ | hj
    · exact h.below j s hs
    · exact h.below j t hj
  · refine h.partition.merge hne hs hs' hadj (w := { s with endByte := s'.endByte }) ?_ ⟨rfl,rfl⟩
      ?_ (fun j h1 h2 => ?_)
    · simp [hget]
    · simp [hget, Ne.symm hne]
    · simp [hget, h1, h2]
  · rcases hcases hj with ⟨rfl,rfl⟩ | hj
    · exact h.progress j s hs
    · exact h.progress j t hj

theorem congr (h : Layout segments nextIndex effectiveTotalBytes) {segments' : SegmentMap}
    (heq : ∀ k : ℤ, segments'[k]? = segments[k]?) :
    Layout segments' nextIndex effectiveTotalBytes := by
  refine ⟨fun k s hk => h.key k s (by rw [← heq, hk]),fun k s hk => h.below k s (by rw [← heq, hk]),
    h.partition.congr (fun k => by rw [heq]),h.total_pos,
    fun k s hk => h.progress k s (by rw [← heq, hk])⟩

end Layout

private theorem getElem?_foldl_pushFresh (count totalBytes k : ℤ) (n : ℕ) :
    ((List.range n).foldl (pushFresh count totalBytes) (∅, [])).1[k]? =
      if 0 ≤ k ∧ k < n then some (freshSegment count totalBytes k) else none := by
  induction n with
  | zero => simp
  | succ n ih =>
    rw [List.range_succ, List.foldl_append, List.foldl_cons, List.foldl_nil]
    simp only [pushFresh, getElem?_insert_eq, ih]
    by_cases hk : k = n
    · subst hk
      simp
    · have : (0 ≤ k ∧ k < n) ↔ (0 ≤ k ∧ k < (n + 1 : ℕ)) := by omega
      simp only [hk, if_false, this]

theorem buildFreshSegments_get (count totalBytes k : ℤ) :
    (buildFreshSegments count totalBytes).1[k]? =
      if 0 ≤ k ∧ k < count then some (freshSegment count totalBytes k) else none := by
  have hiff : (0 ≤ k ∧ k < count.toNat) ↔ (0 ≤ k ∧ k < count) := by omega
  rw [buildFreshSegments, getElem?_foldl_pushFresh]
  simp only [hiff]

/-- A fresh plan with between one segment and one segment per byte is a layout. -/
theorem buildFreshSegments_layout {count totalBytes : ℤ} (h1 : 1 ≤ count)
    (h2 : count ≤ totalBytes) :
    Layout (buildFreshSegments count totalBytes).1 count totalBytes := by
  set chunk := totalBytes.tdiv count with hchunk
  have hdiv : chunk = totalBytes / count := Int.tdiv_eq_ediv_of_nonneg (by omega)
  have hpos : 1 ≤ chunk := by
    rw [hdiv]
    exact Int.le_ediv_of_mul_le (by omega) (by omega)
  have hle : count * chunk ≤ totalBytes := by
    rw [hdiv]
    exact Int.mul_ediv_self_le (by omega)
  have hget : ∀ {k : ℤ} {s}, (buildFreshSegments count totalBytes).1[k]? = some s →
      0 ≤ k ∧ k < count ∧ s = freshSegment count totalBytes k := by
    intro k s hk
    rw [buildFreshSegments_get] at hk
    split_ifs at hk with h
    exact ⟨h.1,h.2,by simpa [eq_comm] using hk⟩
  have hlast : ∀ k, 0 ≤ k → k < count → (k + 1) * chunk ≤ totalBytes := by
    intro k _ hk
    exact (mul_le_mul_of_nonneg_right (by omega) (by omega)).trans hle
  have hrange : ∀ k, 0 ≤ k → k < count →
      (freshSegment count totalBytes k).startByte = k * chunk ∧
      (freshSegment count totalBytes k).startByte ≤ (freshSegment count totalBytes k).endByte ∧
      (k + 1) * chunk ≤ (freshSegment count totalBytes k).endByte + 1 ∧
      (freshSegment count totalBytes k).endByte < totalBytes ∧
      (k ≠ count - 1 → (freshSegment count totalBytes k).endByte = (k + 1) * chunk - 1) ∧
      (k = count - 1 → (freshSegment count totalBytes k).endByte = totalBytes - 1) := by
    intro k h0 hk
    have h3 := hlast k h0 hk
    have h4 : (k + 1) * chunk = k * chunk + chunk := by ring
    simp only [freshSegment, ← hchunk]
    split_ifs with h
    · subst h
      exact ⟨trivial,by omega,by omega,by omega,fun hne => absurd rfl hne,fun _ => rfl⟩
    · exact ⟨trivial,by omega,by omega,by omega,fun _ => rfl,fun heq => absurd heq h⟩
  refine ⟨fun k s hk => ?_,fun k s hk => ?_,⟨fun k s hk => ?_,fun k s hk => ?_,
    fun x h0 hx => ?_,fun j k s t hj hk hne => ?_⟩,by omega,fun k s hk => ?_⟩
  · obtain ⟨_,_,rfl⟩ := hget hk
    rfl
  · exact (hget hk).2.1
  · obtain ⟨hk0,hkc,rfl⟩ := hget hk
    exact (hrange k hk0 hkc).2.1
  · obtain ⟨hk0,hkc,rfl⟩ := hget hk
    have h3 := hrange k hk0 hkc
    refine ⟨?_,h3.2.2.2.1⟩
    rw [h3.1]
    exact mul_nonneg hk0 (by omega)
  · -- the owner of `x` is `x / chunk`, except in the longer last segment
    by_cases hxl : x < (count - 1) * chunk
    · have hq0 : 0 ≤ x / chunk := Int.ediv_nonneg h0 (by omega)
      have hq : x / chunk < count - 1 := Int.ediv_lt_of_lt_mul (by omega) hxl
      have h3 := hrange (x / chunk) hq0 (by omega)
      have h4 := Int.ediv_mul_le x (b := chunk) (by omega)
      have h5 := Int.lt_ediv_add_one_mul_self x (b := chunk) (by omega)
      refine ⟨x / chunk,freshSegment count totalBytes (x / chunk),?_,?_,?_⟩
      · rw [buildFreshSegments_get, if_pos ⟨hq0,by omega⟩]
      · rw [h3.1]
        exact h4
      · omega
    · have h3 := hrange (count - 1) (by omega) (by omega)
      refine ⟨count - 1,freshSegment count totalBytes (count - 1),?_,?_,?_⟩
      · rw [buildFreshSegments_get, if_pos (by omega)]
      · rw [h3.1]
        omega
      · rw [h3.2.2.2.2.2 rfl]
        omega
  · obtain ⟨hj0,hjc,rfl⟩ := hget hj
    obtain ⟨hk0,hkc,rfl⟩ := hget hk
    have h3 := hrange j hj0 hjc
    have h4 := hrange k hk0 hkc
    rcases lt_or_gt_of_ne hne with hlt | hlt
    · have h5 : (j + 1) * chunk ≤ k * chunk := mul_le_mul_of_nonneg_right (by omega) (by omega)
      have h6 := h3.2.2.2.2.1 (by omega)
      omega
    · have h5 : (k + 1) * chunk ≤ j * chunk := mul_le_mul_of_nonneg_right (by omega) (by omega)
      have h6 := h4.2.2.2.2.1 (by omega)
      omega
  · obtain ⟨_,_,rfl⟩ := hget hk
    exact le_rfl

end RinaDown.SegmentLayout
