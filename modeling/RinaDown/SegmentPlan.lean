import RinaDown.LabelledExecutions
import RinaDown.SegmentWork

/-!
# Runs of the segment plan

The coordinator's plan is the segment map with the next free index and the
planned total. A step is one mutation of it, with what the environment reported
as its label. From a fresh or a restored plan every run keeps the layout.
-/

namespace RinaDown.SegmentPlan
open Std (TreeMap)
open OrderedMap SegmentLayout SegmentCoverage SegmentWork Option
open LabelledExecutions

structure Plan where
  segments : SegmentMap
  nextIndex : ℤ
  effectiveTotalBytes : ℤ

/-- The map's part of the `Done` arm, and the index of the shortfall child. -/
def doneSegment (p : Plan) (segIndex downloadedBytes : ℤ) : Plan × Option ℤ :=
  match p.segments[segIndex]? with
  | none => (p, none)
  | some seg =>
    if downloadedBytes > 0 ∧ downloadedBytes < seg.size then
      let remStart := seg.startByte + downloadedBytes
      let finished := p.segments.modify segIndex (fun s =>
        { s with endByte := remStart - 1, downloadedBytes := downloadedBytes, state := .completed })
      ({ p with
          segments := finished.insert p.nextIndex ⟨p.nextIndex,remStart,seg.endByte,0,.pending⟩
          nextIndex := p.nextIndex + 1 }, some p.nextIndex)
    else
      ({ p with segments := p.segments.modify segIndex (fun s =>
          { s with downloadedBytes := min downloadedBytes seg.size, state := .completed }) }, none)

/-- The in-place growth: a tail segment from the old total to the reported one. -/
def growPlan (p : Plan) (reportedTotal : ℤ) : Plan where
  segments := p.segments.insert p.nextIndex
    ⟨p.nextIndex,p.effectiveTotalBytes,reportedTotal - 1,0,.pending⟩
  nextIndex := p.nextIndex + 1
  effectiveTotalBytes := reportedTotal

inductive PlanStep where
  | done (segIndex downloadedBytes : ℤ)
  | failed (segIndex : ℤ)
  | trueSizeLarger (reportedTotal : ℤ)
  | findNextWork (minSplit : ℤ)
  | findNextPendingOnly
  | tryProactiveSplit (minSplit : ℤ)
  | absorb (openEndedStreaming : Option ℤ) (merged : Bool)
  | sync (snapshot : List SegmentProgressInfo)

/-- A reported count of bytes is not negative; a stale size report changes nothing. -/
def step (p : Plan) : PlanStep → Option Plan
  | .done segIndex downloadedBytes =>
    if 0 ≤ downloadedBytes then some (doneSegment p segIndex downloadedBytes).1 else none
  | .failed segIndex => some { p with segments := setState p.segments segIndex .pending }
  | .trueSizeLarger reportedTotal =>
    if reportedTotal > p.effectiveTotalBytes then some (growPlan p reportedTotal) else some p
  | .findNextWork minSplit =>
    match findNextWork p.segments p.nextIndex minSplit with
    | none => some p
    | some (_, segments, nextIndex) => some { p with segments := segments, nextIndex := nextIndex }
  | .findNextPendingOnly =>
    match findNextPendingOnly p.segments with
    | none => some p
    | some (_, segments) => some { p with segments := segments }
  | .tryProactiveSplit minSplit =>
    match tryProactiveSplit p.segments p.nextIndex minSplit with
    | none => some p
    | some (_, segments, nextIndex) => some { p with segments := segments, nextIndex := nextIndex }
  | .absorb openEndedStreaming merged =>
    match absorbPlan p.segments openEndedStreaming with
    | none => some p
    | some (openIdx, newEnd, absorbed) =>
      if merged then some { p with segments := applyMerge p.segments openIdx newEnd absorbed }
      else some p
  | .sync snapshot =>
    if ∀ info ∈ snapshot, 0 ≤ info.downloadedBytes then
      some { p with segments := syncDownloadedFromShared p.segments snapshot }
    else none

def freshPlan (count totalBytes : ℤ) : Plan where
  segments := (buildFreshSegments count totalBytes).1
  nextIndex := count
  effectiveTotalBytes := totalBytes

def restoredPlan (existing : List SegmentRow) (totalBytes : ℤ) : Plan where
  segments := (restoreSegments existing).1
  nextIndex := (restoreSegments existing).2
  effectiveTotalBytes := totalBytes

/-- The two ways to start. The rows record no negative progress, as no writer of the table
stores any. -/
inductive Initial : Plan → Prop
  | fresh {count totalBytes : ℤ} (hcount : 1 ≤ count) (htotal : count ≤ totalBytes) :
      Initial (freshPlan count totalBytes)
  | restored {existing : List SegmentRow} {totalBytes : ℤ}
      (hne : ∀ r ∈ existing, r.startByte ≤ r.endByte)
      (hprogress : ∀ r ∈ existing, 0 ≤ r.downloadedBytes)
      (hok : validateCoverage (restoreSegments existing).1 totalBytes = .ok ()) :
      Initial (restoredPlan existing totalBytes)

def LaidOut (p : Plan) : Prop := Layout p.segments p.nextIndex p.effectiveTotalBytes

theorem restoreSegments_get (existing : List SegmentRow) :
    ∀ (k : ℤ) s, (restoreSegments existing).1[k]? = some s →
      (∃ r ∈ existing, r.index = k ∧ s = restoredSegment r) ∧ k < (restoreSegments existing).2 := by
  have hfold : ∀ (rows seen : List SegmentRow) (acc : SegmentMap × ℤ),
      (∀ (k : ℤ) s, acc.1[k]? = some s →
        (∃ r ∈ seen, r.index = k ∧ s = restoredSegment r) ∧ k < acc.2) →
      ∀ (k : ℤ) s, (rows.foldl (fun acc r => (acc.1.insert r.index (restoredSegment r),
          if r.index ≥ acc.2 then r.index + 1 else acc.2)) acc).1[k]? = some s →
        (∃ r ∈ seen ++ rows, r.index = k ∧ s = restoredSegment r) ∧
          k < (rows.foldl (fun acc r => (acc.1.insert r.index (restoredSegment r),
            if r.index ≥ acc.2 then r.index + 1 else acc.2)) acc).2 := by
    intro rows
    induction rows with
    | nil => exact fun seen acc hacc => by simpa using hacc
    | cons r rows ih =>
      intro seen acc hacc
      have := ih (seen ++ [r]) (acc.1.insert r.index (restoredSegment r),
        if r.index ≥ acc.2 then r.index + 1 else acc.2) (fun k s hk => ?_)
      · simpa using this
      · rw [getElem?_insert_eq] at hk
        split_ifs at hk with hkr
        · rw [some.injEq] at hk
          exact ⟨⟨r,by simp,hkr.symm,hk.symm⟩,by simp only; split_ifs <;> omega⟩
        · obtain ⟨⟨r',hr',heq⟩,hlt⟩ := hacc k s hk
          exact ⟨⟨r',by simp [hr'],heq⟩,by simp only; split_ifs <;> omega⟩
  intro k s hk
  simpa [restoreSegments] using hfold existing [] (∅, 0) (by simp) k s hk

theorem laidOut_initial {p : Plan} (h : Initial p) : LaidOut p := by
  cases h with
  | fresh hcount htotal => exact buildFreshSegments_layout hcount htotal
  | @restored existing totalBytes hne hprogress hok =>
    have hget := restoreSegments_get existing
    have hkey : ∀ (k : ℤ) s, (restoreSegments existing).1[k]? = some s → s.index = k := by
      intro k s hk
      obtain ⟨⟨r,-,hidx,rfl⟩,-⟩ := hget k s hk
      exact hidx
    have hnonempty : ∀ (k : ℤ) s, (restoreSegments existing).1[k]? = some s →
        s.startByte ≤ s.endByte := by
      intro k s hk
      obtain ⟨⟨r,hr,-,rfl⟩,-⟩ := hget k s hk
      exact hne r hr
    obtain ⟨hpart,hpos⟩ := partitions_of_validateCoverage hkey hnonempty hok
    refine ⟨hkey,fun k s hk => (hget k s hk).2,hpart,hpos,fun k s hk => ?_⟩
    obtain ⟨⟨r,hr,-,rfl⟩,-⟩ := hget k s hk
    exact hprogress r hr

theorem laidOut_doneSegment {p : Plan} (h : LaidOut p) (segIndex : ℤ) {downloadedBytes : ℤ}
    (hd : 0 ≤ downloadedBytes) : LaidOut (doneSegment p segIndex downloadedBytes).1 := by
  cases hs : p.segments[segIndex]? with
  | none => simpa [doneSegment, hs] using h
  | some seg =>
    have hsize := h.size_eq hs
    have hne := h.partition.nonempty segIndex seg hs
    by_cases hshort : downloadedBytes > 0 ∧ downloadedBytes < seg.size
    · simp only [doneSegment, hs, hshort, and_self, if_true]
      exact h.split hs ⟨by omega,by omega⟩ ⟨rfl,rfl,rfl,hd⟩ ⟨rfl,rfl,rfl,le_rfl⟩
    · simp only [doneSegment, hs, hshort, if_false]
      exact h.modify segIndex _ (fun s hs => ⟨rfl,rfl,rfl,le_min hd (by omega)⟩)

theorem laidOut_step {p q : Plan} {a : PlanStep} (h : LaidOut p) (hstep : step p a = some q) :
    LaidOut q := by
  cases a with
  | done segIndex downloadedBytes =>
    simp only [step] at hstep
    split_ifs at hstep with hd
    cases hstep
    exact laidOut_doneSegment h segIndex hd
  | failed segIndex =>
    cases hstep
    exact layout_setState h segIndex .pending
  | trueSizeLarger reportedTotal =>
    simp only [step] at hstep
    split_ifs at hstep with hlarger
    · cases hstep
      exact Layout.append h hlarger ⟨rfl,rfl,rfl,le_rfl⟩
    · cases hstep
      exact h
  | findNextWork minSplit =>
    cases hfind : findNextWork p.segments p.nextIndex minSplit with
    | none =>
      simp only [step, hfind, some.injEq] at hstep
      exact hstep ▸ h
    | some r =>
      simp only [step, hfind, some.injEq] at hstep
      subst hstep
      exact layout_findNextWork h hfind
  | findNextPendingOnly =>
    cases hfind : findNextPendingOnly p.segments with
    | none =>
      simp only [step, hfind, some.injEq] at hstep
      exact hstep ▸ h
    | some r =>
      simp only [step, hfind, some.injEq] at hstep
      subst hstep
      exact layout_findNextPendingOnly h hfind
  | tryProactiveSplit minSplit =>
    cases hfind : tryProactiveSplit p.segments p.nextIndex minSplit with
    | none =>
      simp only [step, hfind, some.injEq] at hstep
      exact hstep ▸ h
    | some r =>
      simp only [step, hfind, some.injEq] at hstep
      subst hstep
      exact layout_splitInHalf h (tryProactiveSplit_eq_some hfind).2
  | absorb openEndedStreaming merged =>
    cases hplan : absorbPlan p.segments openEndedStreaming with
    | none =>
      simp only [step, hplan, some.injEq] at hstep
      exact hstep ▸ h
    | some r =>
      simp only [step, hplan] at hstep
      split_ifs at hstep
      · cases hstep
        exact layout_absorb h hplan
      · cases hstep
        exact h
  | sync snapshot =>
    simp only [step] at hstep
    split_ifs at hstep with hd
    cases hstep
    exact layout_syncDownloadedFromShared h hd

theorem laidOut_exec {p q : Plan} {as : List PlanStep} (h : LaidOut p)
    (hrun : exec step p as = some q) : LaidOut q :=
  exec_invariant (fun _ _ _ hp hs => laidOut_step hp hs) h hrun

/-- Every run of the plan keeps the header's invariants, and the coverage check passes in every
state it reaches. -/
theorem plan_run_covers {p q : Plan} {as : List PlanStep} (hinit : Initial p)
    (hrun : exec step p as = some q) :
    Layout q.segments q.nextIndex q.effectiveTotalBytes ∧
      validateCoverage q.segments q.effectiveTotalBytes = .ok () := by
  have h := laidOut_exec (laidOut_initial hinit) hrun
  exact ⟨h,validateCoverage_of_layout h⟩

/-- Two restored rows, a growth, a proactive split, an absorption and a short report. -/
def sampleRows : List SegmentRow := [⟨0,0,299999,0⟩, ⟨4,300000,399999,100000⟩]

def sampleSteps : List PlanStep :=
  [.findNextWork 65536, .sync [⟨0,0,299999,1000⟩], .tryProactiveSplit 65536,
    .trueSizeLarger 500000, .absorb (some 0) true, .done 0 200, .failed 5, .findNextPendingOnly]

theorem plan_run_covers_sample :
    ∃ q, exec step (restoredPlan sampleRows 400000) sampleSteps = some q ∧
      validateCoverage q.segments q.effectiveTotalBytes = .ok () := by
  have hrun : (exec step (restoredPlan sampleRows 400000) sampleSteps).isSome := by decide +kernel
  obtain ⟨q,hq⟩ := isSome_iff_exists.mp hrun
  exact ⟨q,hq,(plan_run_covers (.restored (by decide) (by decide) (by decide +kernel)) hq).2⟩

end RinaDown.SegmentPlan
