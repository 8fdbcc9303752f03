import RinaDown.SegmentCoverage

/-!
# Work assignment

The functions that look for work in the segment map, split a segment, absorb the
pending segments behind an open-ended stream and read the shared progress back.
Each comes with one lemma that says what it does to the map, and the layout is
kept by the four changes they are made of: a change inside a segment, a split,
an append and a merge.
-/

namespace RinaDown.SegmentWork
open Std (TreeMap)
open OrderedMap IntervalPartition SegmentLayout Option

def maxSegments : ℕ := 64

def minSplitBytes : ℤ := 2 * 1024 * 1024

def tailMinSplitBytes : ℤ := 64 * 1024

structure WorkerAssignment where
  segIndex : ℤ
  segStart : ℤ
  actualStart : ℤ
  segEnd : ℤ
  openEnded : Bool
  noRange : Bool
  deriving DecidableEq, Repr

structure NextWork where
  assignment : WorkerAssignment
  /-- The index of the segment that an in-half split has shrunk. -/
  splitParent : Option ℤ
  deriving DecidableEq, Repr

/-- One entry of the state that the coordinator shares with the workers. -/
structure SegmentProgressInfo where
  index : ℤ
  startByte : ℤ
  endByte : ℤ
  downloadedBytes : ℤ
  deriving DecidableEq, Repr

def setState (segments : SegmentMap) (idx : ℤ) (st : SegState) : SegmentMap :=
  segments.modify idx (fun s => { s with state := st })

def assignmentOf (s : LiveSegment) : WorkerAssignment where
  segIndex := s.index
  segStart := s.startByte
  actualStart := s.startByte + s.downloadedBytes
  segEnd := s.endByte
  openEnded := false
  noRange := false

def findNextPendingOnly (segments : SegmentMap) : Option (NextWork × SegmentMap) :=
  match (values segments).find? (fun s => s.state = .pending) with
  | none => none
  | some seg => some (⟨assignmentOf seg,none⟩, setState segments seg.index .active)

/-- `max_by_key`: the last element among those of maximal key. -/
def maxByKey (f : LiveSegment → ℤ) (l : List LiveSegment) : Option LiveSegment :=
  l.foldl (fun acc s =>
    match acc with
    | none => some s
    | some best => if f s < f best then some best else some s) none

/-- The in-half division of the largest active segment, shared by the two callers, who
differ in the state of the upper half. -/
def splitInHalf (childState : SegState) (segments : SegmentMap) (nextIndex minSplit : ℤ) :
    Option (NextWork × SegmentMap × ℤ) :=
  if (values segments).countP (fun s => s.state ≠ .completed) ≥ maxSegments then none
  else
    match maxByKey LiveSegment.remaining
        ((values segments).filter (fun s => s.state = .active ∧ s.remaining ≥ minSplit)) with
    | none => none
    | some bestSeg =>
      match segments[bestSeg.index]? with
      | none => none
      | some best =>
        let currentPos := best.startByte + best.downloadedBytes
        let remaining := best.endByte - currentPos + 1
        if remaining < minSplit then none
        else
          let splitPoint := currentPos + remaining.tdiv 2
          if splitPoint ≤ currentPos ∨ splitPoint > best.endByte then none
          else
            let newSeg : LiveSegment := ⟨nextIndex,splitPoint,best.endByte,0,childState⟩
            let shrunk := segments.modify bestSeg.index
              (fun s => { s with endByte := splitPoint - 1 })
            some (⟨assignmentOf newSeg,some bestSeg.index⟩, shrunk.insert nextIndex newSeg,
              nextIndex + 1)

def trySplitLargest (segments : SegmentMap) (nextIndex minSplit : ℤ) :
    Option (NextWork × SegmentMap × ℤ) :=
  splitInHalf .active segments nextIndex minSplit

def tryProactiveSplit (segments : SegmentMap) (nextIndex minSplit : ℤ) :
    Option (NextWork × SegmentMap × ℤ) :=
  if (values segments).any (fun s => s.state = .pending) then none
  else splitInHalf .pending segments nextIndex minSplit

def maxActiveRemaining (segments : SegmentMap) : ℤ :=
  (((values segments).filter (fun s => s.state = .active)).map LiveSegment.remaining).max?.getD 0

/-- A pending segment, else a split at the threshold, else a tail micro-split if there is a
straggler. -/
def findNextWork (segments : SegmentMap) (nextIndex minSplit : ℤ) :
    Option (NextWork × SegmentMap × ℤ) :=
  match findNextPendingOnly segments with
  | some (work, segments') => some (work, segments', nextIndex)
  | none =>
    match trySplitLargest segments nextIndex minSplit with
    | some r => some r
    | none =>
      if minSplit > tailMinSplitBytes then
        if maxActiveRemaining segments ≥ 2 * tailMinSplitBytes then
          trySplitLargest segments nextIndex tailMinSplitBytes
        else none
      else none

def absorbable (segments : SegmentMap) (newEnd : ℤ) : Option LiveSegment :=
  (values segments).find?
    (fun s => s.state = .pending ∧ s.downloadedBytes = 0 ∧ s.startByte = newEnd + 1)

/-- The `while let` loop of the absorption; `absorbLoop_exit` shows that the fuel is enough. -/
def absorbLoop (segments : SegmentMap) : ℕ → ℤ → List ℤ → ℤ × List ℤ
  | 0, newEnd, absorbed => (newEnd, absorbed)
  | fuel + 1, newEnd, absorbed =>
    match absorbable segments newEnd with
    | none => (newEnd, absorbed)
    | some s => absorbLoop segments fuel s.endByte (absorbed ++ [s.index])

/-- What the absorption asks the database to merge: the open segment, its new end and the
segments to absorb; `none` where the function returns early. -/
def absorbPlan (segments : SegmentMap) (openEndedStreaming : Option ℤ) :
    Option (ℤ × ℤ × List ℤ) :=
  match openEndedStreaming with
  | none => none
  | some openIdx =>
    match segments[openIdx]? with
    | none => none
    | some s =>
      if s.state = .active then
        let r := absorbLoop segments ((values segments).length + 1) s.endByte []
        if r.2.isEmpty then none else some (openIdx, r.1, r.2)
      else none

def applyMerge (segments : SegmentMap) (openIdx newEnd : ℤ) (absorbed : List ℤ) : SegmentMap :=
  (absorbed.foldl (fun m idx => m.erase idx) segments).modify openIdx
    (fun s => { s with endByte := newEnd })

def syncOne (segments : SegmentMap) (info : SegmentProgressInfo) : SegmentMap :=
  segments.modify info.index
    (fun s => if s.state = .active then { s with downloadedBytes := info.downloadedBytes } else s)

def syncDownloadedFromShared (segments : SegmentMap) (snapshot : List SegmentProgressInfo) :
    SegmentMap :=
  snapshot.foldl syncOne segments

theorem maxByKey_mem {f : LiveSegment → ℤ} {l : List LiveSegment} {s : LiveSegment}
    (h : maxByKey f l = some s) : s ∈ l := by
  have hfold : ∀ (l : List LiveSegment) (acc : Option LiveSegment),
      l.foldl (fun acc s =>
        match acc with
        | none => some s
        | some best => if f s < f best then some best else some s) acc = some s →
      s ∈ l ∨ acc = some s := by
    intro l
    induction l with
    | nil => exact fun acc h => .inr h
    | cons t l ih =>
      intro acc hacc
      rcases ih _ hacc with hmem | hnew
      · exact .inl (List.mem_cons_of_mem t hmem)
      · cases acc with
        | none =>
          simp only [some.injEq] at hnew
          exact .inl (by simp [hnew])
        | some best =>
          simp only at hnew
          split_ifs at hnew with hlt
          · exact .inr hnew
          · simp only [some.injEq] at hnew
            exact .inl (by simp [hnew])
  rcases hfold l none h with hmem | hnone
  · exact hmem
  · simp at hnone

variable {segments segments' : SegmentMap} {work : NextWork}
  {minSplit nextIndex nextIndex' total newEnd openIdx : ℤ} {absorbed : List ℤ}

theorem findNextPendingOnly_eq_some (h : findNextPendingOnly segments = some (work, segments')) :
    ∃ s ∈ values segments, s.state = .pending ∧ work = ⟨assignmentOf s,none⟩ ∧
      segments' = setState segments s.index .active := by
  unfold findNextPendingOnly at h
  cases hfind : (values segments).find? (fun s => s.state = .pending) with
  | none => simp [hfind] at h
  | some s =>
    simp only [hfind, some.injEq, Prod.mk.injEq] at h
    have hp := List.find?_some hfind
    exact ⟨s,List.mem_of_find?_eq_some hfind,by simpa using hp,h.1.symm,h.2.symm⟩

def splitPoint (s : LiveSegment) : ℤ :=
  s.startByte + s.downloadedBytes + (s.endByte - (s.startByte + s.downloadedBytes) + 1).tdiv 2

theorem splitInHalf_eq_some {childState : SegState}
    (hkey : ∀ (k : ℤ) s, segments[k]? = some s → s.index = k)
    (h : splitInHalf childState segments nextIndex minSplit = some (work, segments', nextIndex')) :
    ∃ s, segments[s.index]? = some s ∧ s.state = .active ∧ minSplit ≤ s.remaining ∧
      s.startByte + s.downloadedBytes < splitPoint s ∧ splitPoint s ≤ s.endByte ∧
      work = ⟨assignmentOf ⟨nextIndex,splitPoint s,s.endByte,0,childState⟩,some s.index⟩ ∧
      segments' = (segments.modify s.index (fun t => { t with endByte := splitPoint s - 1 })).insert
        nextIndex ⟨nextIndex,splitPoint s,s.endByte,0,childState⟩ ∧
      nextIndex' = nextIndex + 1 := by
  unfold splitInHalf at h
  split_ifs at h with hcount
  cases hmax : maxByKey LiveSegment.remaining ((values segments).filter
      (fun s => s.state = .active ∧ s.remaining ≥ minSplit)) with
  | none =>
    rw [hmax] at h
    simp at h
  | some s =>
    have hmem := maxByKey_mem hmax
    simp only [List.mem_filter, mem_values, decide_eq_true_eq] at hmem
    obtain ⟨⟨k,hk⟩,hactive,hrem⟩ := hmem
    obtain rfl := hkey k s hk
    simp only [hmax, hk] at h
    split_ifs at h with h1 h2
    rw [not_or, not_le, not_lt] at h2
    simp only [some.injEq, Prod.mk.injEq] at h
    exact ⟨s,hk,hactive,hrem,h2.1,h2.2,h.1.symm,h.2.1.symm,h.2.2.symm⟩

theorem layout_setState (h : Layout segments nextIndex total) (idx : ℤ) (st : SegState) :
    Layout (setState segments idx st) nextIndex total :=
  h.modify idx _ (fun s hs => ⟨rfl,rfl,rfl,h.progress idx s hs⟩)

theorem layout_findNextPendingOnly (h : Layout segments nextIndex total)
    (hfind : findNextPendingOnly segments = some (work, segments')) :
    Layout segments' nextIndex total := by
  obtain ⟨s,-,-,-,rfl⟩ := findNextPendingOnly_eq_some hfind
  exact layout_setState h s.index .active

theorem layout_splitInHalf {childState : SegState} (h : Layout segments nextIndex total)
    (hsplit : splitInHalf childState segments nextIndex minSplit = some (work, segments', nextIndex')) :
    Layout segments' nextIndex' total := by
  obtain ⟨s,hs,-,-,hlo,hhi,-,rfl,rfl⟩ := splitInHalf_eq_some h.key hsplit
  have hd := h.progress s.index s hs
  exact h.split hs ⟨by omega,hhi⟩ ⟨rfl,rfl,rfl,hd⟩ ⟨rfl,rfl,rfl,le_rfl⟩

/-- The work found is a pending segment or the upper half of a split. -/
theorem findNextWork_cases
    (h : findNextWork segments nextIndex minSplit = some (work, segments', nextIndex')) :
    (findNextPendingOnly segments = some (work, segments') ∧ nextIndex' = nextIndex) ∨
    ∃ threshold, splitInHalf .active segments nextIndex threshold =
      some (work, segments', nextIndex') := by
  unfold findNextWork at h
  cases hpend : findNextPendingOnly segments with
  | some r =>
    obtain ⟨w,m⟩ := r
    simp only [hpend, some.injEq, Prod.mk.injEq] at h
    obtain ⟨rfl,rfl,rfl⟩ := h
    exact .inl ⟨rfl,rfl⟩
  | none =>
    simp only [hpend] at h
    cases hsplit : trySplitLargest segments nextIndex minSplit with
    | some r =>
      simp only [hsplit] at h
      exact .inr ⟨minSplit,by rw [← h, ← hsplit, trySplitLargest]⟩
    | none =>
      simp only [hsplit] at h
      split_ifs at h
      exact .inr ⟨tailMinSplitBytes,h⟩

theorem layout_findNextWork (h : Layout segments nextIndex total)
    (hfind : findNextWork segments nextIndex minSplit = some (work, segments', nextIndex')) :
    Layout segments' nextIndex' total := by
  rcases findNextWork_cases hfind with ⟨hpend,rfl⟩ | ⟨threshold,hsplit⟩
  · exact layout_findNextPendingOnly h hpend
  · exact layout_splitInHalf h hsplit

theorem tryProactiveSplit_eq_some {r : NextWork × SegmentMap × ℤ}
    (h : tryProactiveSplit segments nextIndex minSplit = some r) :
    (∀ s ∈ values segments, s.state ≠ .pending) ∧
      splitInHalf .pending segments nextIndex minSplit = some r := by
  unfold tryProactiveSplit at h
  split_ifs at h with hany
  exact ⟨by simpa using hany,h⟩

theorem layout_syncOne {info : SegmentProgressInfo} (h : Layout segments nextIndex total)
    (hinfo : 0 ≤ info.downloadedBytes) :
    Layout (syncOne segments info) nextIndex total := by
  refine h.modify info.index _ (fun s hs => ?_)
  split_ifs
  · exact ⟨rfl,rfl,rfl,hinfo⟩
  · exact ⟨rfl,rfl,rfl,h.progress _ s hs⟩

theorem layout_syncDownloadedFromShared {snapshot : List SegmentProgressInfo} :
    ∀ {segments : SegmentMap} {nextIndex total : ℤ}, Layout segments nextIndex total →
    (∀ info ∈ snapshot, 0 ≤ info.downloadedBytes) →
    Layout (syncDownloadedFromShared segments snapshot) nextIndex total := by
  induction snapshot with
  | nil => exact fun h _ => h
  | cons info snapshot ih =>
    intro segments nextIndex total h hd
    exact ih (layout_syncOne h (hd info List.mem_cons_self))
      (fun i hi => hd i (List.mem_cons_of_mem info hi))

/-- Pending segments without progress that follow each other from `e + 1` on. -/
inductive AbsorbChain (segments : SegmentMap) : ℤ → List ℤ → ℤ → Prop
  | nil (e : ℤ) : AbsorbChain segments e [] e
  | cons {e e' idx : ℤ} {l : List ℤ} {s : LiveSegment} (hs : segments[idx]? = some s)
      (hstate : s.state = .pending) (hzero : s.downloadedBytes = 0) (hstart : s.startByte = e + 1)
      (hrest : AbsorbChain segments s.endByte l e') : AbsorbChain segments e (idx :: l) e'

theorem absorbable_eq_some {s : LiveSegment} (h : absorbable segments newEnd = some s) :
    s ∈ values segments ∧ s.state = .pending ∧ s.downloadedBytes = 0 ∧
      s.startByte = newEnd + 1 := by
  have hp := List.find?_some h
  exact ⟨List.mem_of_find?_eq_some h,by simpa using hp⟩

theorem absorbLoop_chain (hkey : ∀ (k : ℤ) s, segments[k]? = some s → s.index = k) (fuel : ℕ) :
    ∀ (newEnd : ℤ) (absorbed : List ℤ), ∃ l,
      (absorbLoop segments fuel newEnd absorbed).2 = absorbed ++ l ∧
      AbsorbChain segments newEnd l (absorbLoop segments fuel newEnd absorbed).1 := by
  induction fuel with
  | zero => exact fun newEnd absorbed => ⟨[],by simp [absorbLoop],.nil newEnd⟩
  | succ fuel ih =>
    intro newEnd absorbed
    cases hfind : absorbable segments newEnd with
    | none => exact ⟨[],by simp [absorbLoop, hfind],by simpa [absorbLoop, hfind] using .nil newEnd⟩
    | some s =>
      obtain ⟨hmem,hstate,hzero,hstart⟩ := absorbable_eq_some hfind
      obtain ⟨k,hk⟩ := mem_values.mp hmem
      obtain ⟨l,hl,hchain⟩ := ih s.endByte (absorbed ++ [s.index])
      refine ⟨s.index :: l,?_,?_⟩
      · simp only [absorbLoop, hfind, hl, List.append_assoc, List.cons_append, List.nil_append]
      · simp only [absorbLoop, hfind]
        exact .cons (by rw [hkey k s hk, hk]) hstate hzero hstart hchain

theorem AbsorbChain.lo_gt {e e' : ℤ} {l : List ℤ} (hlay : Layout segments nextIndex total)
    (h : AbsorbChain segments e l e') :
    ∀ k ∈ l, ∃ s, segments[k]? = some s ∧ s.state = .pending ∧ e < s.startByte := by
  induction h with
  | nil e => simp
  | @cons e e' idx l s hs hstate hzero hstart hrest ih =>
    intro k hk
    rcases List.mem_cons.mp hk with rfl | hk
    · exact ⟨s,hs,hstate,by omega⟩
    · obtain ⟨t,ht,htstate,hlt⟩ := ih k hk
      have := hlay.partition.nonempty idx s hs
      exact ⟨t,ht,htstate,by omega⟩

theorem AbsorbChain.congr {e e' : ℤ} {l : List ℤ} (h : AbsorbChain segments e l e')
    (heq : ∀ k ∈ l, segments'[k]? = segments[k]?) :
    AbsorbChain segments' e l e' := by
  induction h with
  | nil e => exact .nil e
  | cons hs hstate hzero hstart hrest ih =>
    exact .cons (by rw [heq _ List.mem_cons_self, hs]) hstate hzero hstart
      (ih (fun k hk => heq k (List.mem_cons_of_mem _ hk)))

theorem getElem?_foldl_erase (l : List ℤ) : ∀ (segments : SegmentMap) (k : ℤ),
    (l.foldl (fun m idx => m.erase idx) segments)[k]? =
      if k ∈ l then none else segments[k]? := by
  induction l with
  | nil => simp
  | cons idx l ih =>
    intro segments k
    rw [List.foldl_cons, ih, getElem?_erase_eq]
    by_cases h1 : k ∈ l
    · simp [h1]
    · by_cases h2 : k = idx <;> simp [h1, h2]

theorem applyMerge_get {o : LiveSegment} (ho : segments[openIdx]? = some o)
    (hopen : openIdx ∉ absorbed) (k : ℤ) :
    (applyMerge segments openIdx newEnd absorbed)[k]? =
      if k = openIdx then some { o with endByte := newEnd }
      else if k ∈ absorbed then none else segments[k]? := by
  rw [applyMerge, getElem?_modify_eq, getElem?_foldl_erase, getElem?_foldl_erase, if_neg hopen, ho]
  rfl

/-- Absorbing a chain is absorbing its segments one after the other. -/
theorem layout_applyMerge :
    ∀ {segments : SegmentMap} {o : LiveSegment}, Layout segments nextIndex total →
    segments[openIdx]? = some o → o.state = .active →
    AbsorbChain segments o.endByte absorbed newEnd →
    Layout (applyMerge segments openIdx newEnd absorbed) nextIndex total := by
  induction absorbed with
  | nil =>
    intro segments o h ho _ hchain
    cases hchain
    refine h.congr (fun k => ?_)
    rw [applyMerge_get ho (by simp)]
    by_cases hk : k = openIdx <;> simp [hk, ho]
  | cons idx l ih =>
    intro segments o h ho hactive hchain
    have hlo := hchain.lo_gt h
    cases hchain with
    | @cons _ _ _ _ s hs hstate hzero hstart hrest =>
    have hne : openIdx ≠ idx := by
      rintro rfl
      rw [ho, some.injEq] at hs
      simp [← hs, hactive] at hstate
    have hnotMem : ∀ k ∈ l, k ≠ openIdx ∧ k ≠ idx := by
      intro k hk
      obtain ⟨t,ht,htstate,hlt⟩ := hrest.lo_gt h k hk
      have hsne := h.partition.nonempty idx s hs
      refine ⟨?_,?_⟩
      · rintro rfl
        rw [ho, some.injEq] at ht
        simp [← ht, hactive] at htstate
      · rintro rfl
        rw [hs, some.injEq] at ht
        subst ht
        omega
    set merged := (segments.erase idx).modify openIdx (fun t => { t with endByte := s.endByte })
      with hmerged
    have hget : ∀ k : ℤ, merged[k]? = if k = openIdx then some { o with endByte := s.endByte }
        else if k = idx then none else segments[k]? := by
      intro k
      rw [hmerged, getElem?_modify_eq, getElem?_erase_eq, getElem?_erase_eq, if_neg hne, ho]
      rfl
    have hmergedLayout : Layout merged nextIndex total := h.merge hne ho hs hstart
    have ho' : merged[openIdx]? = some { o with endByte := s.endByte } := by
      rw [hget, if_pos rfl]
    have hrest' : AbsorbChain merged s.endByte l newEnd :=
      hrest.congr (fun k hk => by
        obtain ⟨h1,h2⟩ := hnotMem k hk
        rw [hget, if_neg h1, if_neg h2])
    refine (ih hmergedLayout ho' hactive hrest').congr (fun k => ?_)
    have hopenl : openIdx ∉ l := fun hmem => (hnotMem openIdx hmem).1 rfl
    rw [applyMerge_get ho' hopenl, applyMerge_get ho (by simp [hne, hopenl]), hget]
    by_cases h1 : k = openIdx
    · simp [h1]
    · simp only [if_neg h1, List.mem_cons]
      by_cases h2 : k = idx
      · simp [h2]
      · simp [h2]

/-- The early returns aside, the plan is a chain behind the active open segment. -/
theorem absorbPlan_eq_some {openEndedStreaming : Option ℤ}
    (hkey : ∀ (k : ℤ) s, segments[k]? = some s → s.index = k)
    (h : absorbPlan segments openEndedStreaming = some (openIdx, newEnd, absorbed)) :
    openEndedStreaming = some openIdx ∧ ∃ o, segments[openIdx]? = some o ∧ o.state = .active ∧
      absorbed ≠ [] ∧ AbsorbChain segments o.endByte absorbed newEnd := by
  cases openEndedStreaming with
  | none => simp [absorbPlan] at h
  | some i =>
    simp only [absorbPlan] at h
    cases hi : segments[i]? with
    | none => simp [hi] at h
    | some o =>
      simp only [hi] at h
      split_ifs at h with hactive hempty
      obtain ⟨l,hl,hchain⟩ := absorbLoop_chain hkey ((values segments).length + 1) o.endByte []
      simp only [some.injEq, Prod.mk.injEq] at h
      obtain ⟨rfl,rfl,rfl⟩ := h
      refine ⟨rfl,o,hi,hactive,by simpa using hempty,?_⟩
      rw [List.nil_append] at hl
      rw [hl]
      exact hchain

theorem layout_absorb {openEndedStreaming : Option ℤ} (h : Layout segments nextIndex total)
    (hplan : absorbPlan segments openEndedStreaming = some (openIdx, newEnd, absorbed)) :
    Layout (applyMerge segments openIdx newEnd absorbed) nextIndex total := by
  obtain ⟨-,o,ho,hactive,-,hchain⟩ := absorbPlan_eq_some h.key hplan
  exact layout_applyMerge h ho hactive hchain

theorem countP_lt_countP {α : Type*} {p q : α → Bool} {l : List α}
    (hpq : ∀ a ∈ l, p a → q a) {b : α} (hb : b ∈ l) (hq : q b) (hp : ¬ p b) :
    l.countP p < l.countP q := by
  induction l with
  | nil => simp at hb
  | cons a l ih =>
    have hle : l.countP p ≤ l.countP q :=
      List.countP_mono_left (fun c hc => hpq c (List.mem_cons_of_mem a hc))
    rcases List.mem_cons.mp hb with rfl | hb
    · simp only [List.countP_cons, hp, hq, if_true]
      simp only [Bool.false_eq_true, if_false]
      omega
    · have hlt := ih (fun c hc => hpq c (List.mem_cons_of_mem a hc)) hb
      have ha := hpq a List.mem_cons_self
      simp only [List.countP_cons]
      split_ifs with h1 h2
      · omega
      · exact absurd (ha h1) h2
      · omega
      · omega

/-- The loop of the absorption ends because it finds no further segment, not for lack of fuel:
every segment it takes starts behind all it has taken. -/
theorem absorbLoop_exit (h : Layout segments nextIndex total) (fuel : ℕ) :
    ∀ (newEnd : ℤ) (absorbed : List ℤ),
      (values segments).countP (fun s => newEnd < s.startByte) < fuel →
      absorbable segments (absorbLoop segments fuel newEnd absorbed).1 = none := by
  induction fuel with
  | zero => intro newEnd absorbed hlt; omega
  | succ fuel ih =>
    intro newEnd absorbed hlt
    cases hfind : absorbable segments newEnd with
    | none => simp [absorbLoop, hfind]
    | some s =>
      obtain ⟨hmem,-,-,hstart⟩ := absorbable_eq_some hfind
      have hne := h.partition.nonempty _ s (h.get_of_mem_values hmem)
      have hcount : (values segments).countP (fun t => s.endByte < t.startByte) <
          (values segments).countP (fun t => newEnd < t.startByte) :=
        countP_lt_countP (fun t _ ht => by simp only [decide_eq_true_eq] at ht ⊢; omega) hmem
          (by simp only [decide_eq_true_eq]; omega) (by simp only [decide_eq_true_eq]; omega)
      simp only [absorbLoop, hfind]
      exact ih s.endByte _ (by omega)

end RinaDown.SegmentWork
