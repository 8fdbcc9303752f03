import RinaDown.SegmentPlan

/-!
# The absorption of pending segments

The open stream takes over the pending segments that follow it byte for byte. In a layout the
segment behind a given byte is unique, so that of all runs of such segments one is the longest.
-/

namespace RinaDown.StreamAbsorption

open OrderedMap SegmentLayout SegmentWork SegmentPlan LabelledExecutions Option List

variable {segments : SegmentMap} {nextIndex total : ℤ}

variable {newEnd openIdx : ℤ} {absorbed : List ℤ} {o : LiveSegment}

theorem not_absorbable {idx : ℤ} {s : LiveSegment} (hend : absorbable segments newEnd = none)
    (hs : segments[idx]? = some s) (hstate : s.state = .pending) (hzero : s.downloadedBytes = 0) :
    s.startByte ≠ newEnd + 1 := by
  intro hstart
  have hnone := find?_eq_none.1 hend s (mem_values.2 ⟨idx,hs⟩)
  simp [hstate, hzero, hstart] at hnone

theorem eq_of_startByte (h : Layout segments nextIndex total) {j k : ℤ} {s t : LiveSegment}
    (hs : segments[j]? = some s) (ht : segments[k]? = some t) (hstart : s.startByte = t.startByte) :
    j = k := by
  have hs' := h.partition.nonempty j s hs
  have ht' := h.partition.nonempty k t ht
  exact h.partition.eq_of_mem hs ht ⟨le_rfl,hs'⟩ ⟨hstart.ge,hstart.le.trans ht'⟩

/-- Every run of absorbable segments begins the one at which the loop stops. -/
theorem isPrefix_of_chain (h : Layout segments nextIndex total) {e e₁ e₂ : ℤ} {l l' : List ℤ}
    (hchain : AbsorbChain segments e l e₁) (hmax : AbsorbChain segments e l' e₂)
    (hend : absorbable segments e₂ = none) : l <+: l' := by
  induction hchain generalizing l' with
  | nil e => exact nil_prefix
  | cons hs hstate hzero hstart hrest ih =>
    cases hmax with
    | nil => exact absurd hstart (not_absorbable hend hs hstate hzero)
    | cons hs' hstate' hzero' hstart' hrest' =>
      have hidx := eq_of_startByte h hs hs' (hstart.trans hstart'.symm)
      subst hidx
      have hsame := some.inj (hs.symm.trans hs')
      subst hsame
      exact (prefix_cons_inj _).2 (ih hrest')

theorem absorbLoop_succ (fuel : ℕ) : ∀ (newEnd : ℤ) (absorbed : List ℤ),
    absorbable segments (absorbLoop segments fuel newEnd absorbed).1 = none →
      absorbLoop segments (fuel + 1) newEnd absorbed = absorbLoop segments fuel newEnd absorbed := by
  induction fuel with
  | zero =>
    intro newEnd absorbed hend
    have hnone : absorbable segments newEnd = none := hend
    simp only [absorbLoop, hnone]
  | succ fuel ih =>
    intro newEnd absorbed hend
    cases hfind : absorbable segments newEnd with
    | none => simp only [absorbLoop, hfind]
    | some s =>
      simp only [absorbLoop, hfind] at hend
      have hrest := ih s.endByte (absorbed ++ [s.index]) hend
      rw [absorbLoop, hfind]
      exact hrest.trans (by rw [absorbLoop, hfind])

/-- One step of the loop for each segment, and one to see that it is over, are enough. -/
theorem absorbLoop_enough (h : Layout segments nextIndex total) (newEnd : ℤ) {fuel : ℕ}
    (hfuel : (values segments).length + 1 ≤ fuel) :
    absorbLoop segments fuel newEnd [] =
      absorbLoop segments ((values segments).length + 1) newEnd [] := by
  induction fuel, hfuel using Nat.le_induction with
  | base => rfl
  | succ fuel hfuel ih =>
    have hexit : absorbable segments (absorbLoop segments fuel newEnd []).1 = none :=
      absorbLoop_exit h fuel newEnd [] (countP_le_length.trans_lt hfuel)
    exact (absorbLoop_succ fuel newEnd [] hexit).trans ih

/-- The loop ends, and what it absorbs is the longest run of absorbable segments behind the open
segment. -/
structure Absorbs (segments : SegmentMap) (openEnd newEnd : ℤ) (absorbed : List ℤ) : Prop where
  ends : ∀ fuel, (values segments).length < fuel →
    absorbLoop segments fuel openEnd [] = (newEnd, absorbed)
  stopped : absorbable segments newEnd = none
  chain : AbsorbChain segments openEnd absorbed newEnd
  longest : ∀ l e, AbsorbChain segments openEnd l e → l <+: absorbed

theorem absorbs_of_layout (h : Layout segments nextIndex total) (openEnd : ℤ) :
    ∃ newEnd absorbed, Absorbs segments openEnd newEnd absorbed := by
  have hexit := absorbLoop_exit h ((values segments).length + 1) openEnd []
    (countP_le_length.trans_lt (Nat.lt_succ_self _))
  obtain ⟨l,hl,hchain⟩ := absorbLoop_chain h.key ((values segments).length + 1) openEnd []
  rw [nil_append] at hl
  refine ⟨_,l,?_,hexit,hchain,?_⟩
  · intro fuel hfuel
    rw [absorbLoop_enough h openEnd hfuel, ← hl]
  · intro l' e hchain'
    exact isPrefix_of_chain h hchain' hchain hexit

/-! ## The absorption in a run -/

theorem absorbPlan_of_absorbs (ho : segments[openIdx]? = some o) (hactive : o.state = .active)
    (h : Absorbs segments o.endByte newEnd absorbed) :
    absorbPlan segments (some openIdx) =
      if absorbed.isEmpty then none else some (openIdx, newEnd, absorbed) := by
  have hloop := h.ends _ (Nat.lt_succ_self _)
  simp only [absorbPlan, ho, hactive, if_true, hloop]

theorem not_mem_absorbed (hlayout : Layout segments nextIndex total)
    (ho : segments[openIdx]? = some o) (hactive : o.state = .active)
    (hchain : AbsorbChain segments o.endByte absorbed newEnd) :
    openIdx ∉ absorbed := by
  intro hmem
  obtain ⟨s,hs,hpending,-⟩ := hchain.lo_gt hlayout openIdx hmem
  rw [ho, some.injEq] at hs
  rw [← hs, hactive] at hpending
  cases hpending

def Absorbed (before after : SegmentMap) (openIdx newEnd : ℤ) (absorbed : List ℤ) : Prop :=
  ∀ k : ℤ, after[k]? =
    if k = openIdx then before[k]?.map fun o => { o with endByte := newEnd }
    else if k ∈ absorbed then none else before[k]?

theorem absorbed_nil (ho : segments[openIdx]? = some o) :
    Absorbed segments segments openIdx o.endByte [] := by
  intro k
  split_ifs with hk hmem
  · rw [hk, ho]
    rfl
  · cases hmem
  · rfl

theorem absorbed_applyMerge (ho : segments[openIdx]? = some o) (hnot : openIdx ∉ absorbed) :
    Absorbed segments (applyMerge segments openIdx newEnd absorbed) openIdx newEnd absorbed := by
  intro k
  rw [applyMerge_get ho hnot]
  split_ifs with hk hmem
  · rw [hk, ho]
    rfl
  · rfl
  · rfl

/-- In every state of every run of the coordinator: the absorption leaves the map as it is where
there is no active open segment; else its loop ends and absorbs the longest run of pending
segments without progress that follow the open one byte for byte. When the merge is persisted
exactly these leave the map and the open segment ends where they ended; when it is not the plan is
unchanged. -/
theorem absorption_maximal (p q : Plan) (steps : List PlanStep) (hinit : Initial p)
    (hrun : exec step p steps = some q) (openEnded : Option ℤ) (merged : Bool) :
    ∃ r, step q (.absorb openEnded merged) = some r ∧
      ((∀ openIdx o, openEnded = some openIdx → q.segments[openIdx]? = some o →
        o.state ≠ .active) → r = q) ∧
      ∀ openIdx o, openEnded = some openIdx → q.segments[openIdx]? = some o → o.state = .active →
        ∃ newEnd absorbed, Absorbs q.segments o.endByte newEnd absorbed ∧
          (merged = true → Absorbed q.segments r.segments openIdx newEnd absorbed) ∧
          (merged = false → r = q) := by
  have hlayout : Layout q.segments q.nextIndex q.effectiveTotalBytes :=
    laidOut_exec (laidOut_initial hinit) hrun
  by_cases hopen : ∃ openIdx o, openEnded = some openIdx ∧ q.segments[openIdx]? = some o ∧
      o.state = .active
  · obtain ⟨openIdx,o,rfl,ho,hactive⟩ := hopen
    obtain ⟨newEnd,absorbed,habsorbs⟩ := absorbs_of_layout hlayout o.endByte
    have hplan := absorbPlan_of_absorbs ho hactive habsorbs
    have hnot := not_mem_absorbed hlayout ho hactive habsorbs.chain
    have hresult : ∃ r, step q (.absorb (some openIdx) merged) = some r ∧
        (merged = true → Absorbed q.segments r.segments openIdx newEnd absorbed) ∧
        (merged = false → r = q) := by
      cases absorbed with
      | nil =>
        refine ⟨q,by simp [step, hplan],?_,fun _ => rfl⟩
        intro _
        cases habsorbs.chain
        exact absorbed_nil ho
      | cons idx l =>
        cases merged with
        | true =>
          refine ⟨_,by simp [step, hplan]; rfl,fun _ => absorbed_applyMerge ho hnot,by simp⟩
        | false => exact ⟨q,by simp [step, hplan],by simp,fun _ => rfl⟩
    obtain ⟨r,hr,hmerged,hfailed⟩ := hresult
    refine ⟨r,hr,?_,?_⟩
    · intro hnone
      exact absurd hactive (hnone openIdx o rfl ho)
    · intro openIdx' o' hidx ho' _
      cases hidx
      rw [ho, some.injEq] at ho'
      exact ⟨newEnd,absorbed,ho' ▸ habsorbs,hmerged,hfailed⟩
  · have hplan : absorbPlan q.segments openEnded = none := by
      cases openEnded with
      | none => rfl
      | some openIdx =>
        cases ho : q.segments[openIdx]? with
        | none => simp [absorbPlan, ho]
        | some o =>
          have hactive : o.state ≠ .active := fun hactive => hopen ⟨openIdx,o,rfl,ho,hactive⟩
          simp [absorbPlan, ho, hactive]
    refine ⟨q,by simp [step, hplan],fun _ => rfl,?_⟩
    intro openIdx o hidx ho hactive
    exact absurd ⟨openIdx,o,hidx,ho,hactive⟩ hopen

/-- The first of three segments is active and absorbs the other two. -/
theorem absorption_sample :
    (exec step (freshPlan 3 9) [.findNextPendingOnly, .absorb (some 0) true]).map
        (fun r => values r.segments) = some [⟨0,0,8,0,.active⟩] ∧
      ∃ q r, exec step (freshPlan 3 9) [.findNextPendingOnly] = some q ∧
        step q (.absorb (some 0) true) = some r := by
  refine ⟨by decide +kernel,?_⟩
  have hrun : (exec step (freshPlan 3 9) [.findNextPendingOnly]).isSome := by decide +kernel
  obtain ⟨q,hq⟩ := isSome_iff_exists.1 hrun
  obtain ⟨r,hr,-⟩ := absorption_maximal (freshPlan 3 9) q [.findNextPendingOnly]
    (.fresh (by decide) (by decide)) hq (some 0) true
  exact ⟨q,r,hq,hr⟩

end RinaDown.StreamAbsorption
