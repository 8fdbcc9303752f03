import Mathlib.Data.Rat.Init
import Mathlib.Order.Lattice
import RinaDown.LabelledExecutions

/-!
# The connection ramp of a task

At every full tick a task evaluates the last growth by the throughput, shrinks after a lasting
degradation, and else doubles the number of connections it allows, or probes with one more. A
rejection halves it. The throughput is of any type with a comparison and a product, and how much
work is found for new workers is up to the environment.
-/

namespace RinaDown.ConnectionRamp

open LabelledExecutions Option

inductive RampVerdict where
  | improved
  | freeze
  | collapse
deriving DecidableEq

inductive FreezeState where
  | active
  | soft (ticksWaited cooldown attempts : ℕ)
  | hard
deriving DecidableEq

inductive RangeVerdict where
  | unknown
  | supported
  | unsupported
deriving DecidableEq

def maxSegments : ℕ := 64

def minSplitBytes : ℤ := 2 * 1024 * 1024

def tailFractionDenom : ℤ := 50

def rampInitialWorkers : ℕ := 2

def rampMinEvalWindowMs : ℕ := 500

def rampSoftProbeCooldownTicks : ℕ := 15

def rampSoftProbeMaxAttempts : ℕ := 2

def rampSoftProbeTaskBudget : ℕ := 6

def rampShrinkStrikes : ℕ := 2

def u32Max : ℕ := 2 ^ 32 - 1

/-- `as usize` of a signed number. -/
def asUsize (n : Int32) : ℕ := (n.toInt % 2 ^ 64).toNat

section
variable {F : Type} [OfScientific F] [Mul F] [LT F] [DecidableLT F]

def rampImproveFactor : F := 1.05

def rampCollapseFactor : F := 0.5

def rampPeakDecay : F := 0.99

/-! ## Decisions -/

def rampVerdict (preGrowBps currentBps : F) : RampVerdict :=
  if currentBps > preGrowBps * rampImproveFactor then .improved
  else if currentBps < preGrowBps * rampCollapseFactor then .collapse
  else .freeze

def isTail (remaining : ℤ) (workerCap : ℕ) (total : ℤ) : Bool :=
  remaining < workerCap * minSplitBytes ∧ remaining < total.tdiv tailFractionDenom

def shouldShrink (throughput peak : F) (allowed cap alive : ℕ) (frozen awaitingEval : Bool) :
    Bool :=
  !awaitingEval && (frozen || allowed ≥ cap) && allowed > 1 && alive = allowed &&
    decide (peak > 0.0) && decide (throughput < peak * rampCollapseFactor)

def shouldExpand (frozen connSensitive : Bool) (alive allowed cap : ℕ) (shrunkThisTick : Bool) :
    Bool :=
  !frozen && !connSensitive && alive ≥ allowed && allowed < cap && !shrunkThisTick

def initialAllowedWorkers (workerCap : ℕ) (hint : Option Int32) : ℕ :=
  let base :=
    match hint with
    | some h => if asUsize h > rampInitialWorkers then asUsize h else rampInitialWorkers
    | none => rampInitialWorkers
  max (min workerCap base) 1

/-- The maximum of the platform is a parameter. -/
def hintUncapCeiling (hintUncapMax : ℕ) (allow : Bool) (negativeCap hint : Option Int32)
    (baseCap : ℕ) : ℕ :=
  if !allow || negativeCap.isSome then baseCap
  else
    match hint with
    | none => baseCap
    | some h =>
        if h ≤ 0 then baseCap
        else
          let target := min (min (asUsize h * 2) hintUncapMax) maxSegments
          if target > baseCap then target else baseCap

def softProbeReady (freeze : FreezeState) (tail rangeOk serialMode connSensitive : Bool)
    (rejectStrikes alive allowed workerCap taskProbesUsed : ℕ) : Bool :=
  match freeze with
  | .soft ticksWaited cooldown attempts =>
      ticksWaited ≥ cooldown && attempts < rampSoftProbeMaxAttempts && !tail && rangeOk &&
        !serialMode && !connSensitive && rejectStrikes = 0 && alive ≥ allowed &&
        allowed < workerCap && taskProbesUsed < rampSoftProbeTaskBudget
  | _ => false

/-- The next state, and whether the quota goes back to that before the probe. -/
def softProbeEvalTransition (verdict : RampVerdict) (attempts cooldown : ℕ) :
    FreezeState × Bool :=
  match verdict with
  | .improved => (.active, false)
  | .freeze =>
      let nextAttempts := min (attempts + 1) u32Max
      if nextAttempts ≥ rampSoftProbeMaxAttempts then (.hard, true)
      else (.soft 0 (min (cooldown * 2) u32Max) nextAttempts, true)
  | .collapse => (.hard, true)

def freezeVerdictNextState (taskProbesUsed : ℕ) : FreezeState :=
  if taskProbesUsed ≥ rampSoftProbeTaskBudget then .hard else .soft 0 rampSoftProbeCooldownTicks 0

def sustainedShrinkNextState (current : FreezeState) (taskProbesUsed : ℕ) : FreezeState :=
  if current = .active then freezeVerdictNextState taskProbesUsed else .hard

end

/-! ## The state of the coordinator -/

/-- What is known when the task starts. The policies of the domain are shared with other tasks and
may change from one read to the next. -/
structure Setup where
  initialSegmentCount : Int32
  allowHintUncap : Bool
  hintUncapMax : ℕ
  domainCap : Option Int32
  uncapCap : Option Int32
  uncapHint : Option Int32
  startHint : Option Int32
  initialHint : Option Int32
  pendingCount : ℕ
  openEnded : Bool
  sizeIsEstimate : Bool

def Setup.workerCap (c : Setup) : ℕ :=
  let cap := (max 1 (min c.initialSegmentCount.toInt maxSegments)).toNat
  let cap :=
    match c.domainCap with
    | some domainCap => if asUsize (max domainCap 1) < cap then asUsize (max domainCap 1) else cap
    | none => cap
  hintUncapCeiling c.hintUncapMax c.allowHintUncap c.uncapCap c.uncapHint cap

/-- `slots` are the workers that have not been retired. -/
structure Ramp (F : Type) where
  allowedWorkers : ℕ
  slots : ℕ
  serialMode : Bool
  freeze : FreezeState
  rejectStrikes : ℕ
  awaitingRampEval : Bool
  probeWindow : Bool
  softProbeTaskUsed : ℕ
  preGrowThroughput : F
  preGrowWorkers : ℕ
  peakThroughput : F
  shrinkStrikes : ℕ
  rangeVerdict : RangeVerdict

/-- What a tick measures and finds: the workers that have died, the bytes, whether there is work,
for how many new workers before and after a growth, and the flag that workers may set meanwhile. -/
structure Tick (F : Type) where
  dead : ℕ
  dtMs : ℕ
  throughput : F
  bytes : ℤ
  total : ℤ
  allDone : Bool
  refill : ℕ
  regrow : ℕ
  probeSensitive : Bool
  expandSensitive : Bool

inductive Label (F : Type) where
  | tick (t : Tick F)
  | reject (slotOpen : Bool)
  | done (work slotOpen : Bool)
  | close (n : ℕ)
  | decideRange (supportsRange : Bool)
  | rangeVerdict (supportsRange : Bool)

section
variable {F : Type} [OfScientific F] [Mul F] [LT F] [DecidableLT F]

def start (c : Setup) : Ramp F :=
  let allowed := initialAllowedWorkers c.workerCap c.initialHint
  { allowedWorkers := allowed
    slots := if c.openEnded then min (min c.pendingCount allowed) 1 else min c.pendingCount allowed
    serialMode := false
    freeze := .active
    rejectStrikes := 0
    awaitingRampEval := false
    probeWindow := false
    softProbeTaskUsed := 0
    preGrowThroughput := 0.0
    preGrowWorkers := allowed
    peakThroughput := 0.0
    shrinkStrikes := 0
    rangeVerdict := if c.sizeIsEstimate then .unknown else .supported }

namespace Ramp

def closeSlots (s : Ramp F) (n : ℕ) : Ramp F := { s with slots := s.slots - n }

/-- A rejection while other requests are in flight. -/
def reject (s : Ramp F) (slotOpen : Bool) : Ramp F :=
  let s := { s with
    rejectStrikes := s.rejectStrikes + 1
    freeze := .hard
    awaitingRampEval := false
    probeWindow := false }
  let s :=
    if !s.serialMode && s.rejectStrikes = 1 && s.slots > 2 then
      { s with allowedWorkers := max (s.slots / 2) 1 }
    else { s with serialMode := true }
  s.closeSlots slotOpen.toNat

/-- A worker that has finished its segment is retired above the quota or without work. -/
def done (s : Ramp F) (work slotOpen : Bool) : Ramp F :=
  if (!s.serialMode && s.slots > s.allowedWorkers) || !work then s.closeSlots slotOpen.toNat else s

/-- Workers are started up to the quota, as long as there is work. -/
def fill (s : Ramp F) (work : ℕ) : Ramp F :=
  if s.slots < s.allowedWorkers then { s with slots := min (s.slots + work) s.allowedWorkers }
  else s

def countWait (s : Ramp F) : Ramp F :=
  match s.awaitingRampEval, s.freeze with
  | false, .soft ticksWaited cooldown attempts =>
      { s with freeze := .soft (min (ticksWaited + 1) u32Max) cooldown attempts }
  | _, _ => s

def enterTail (s : Ramp F) (tail : Bool) : Ramp F :=
  if tail then { s with awaitingRampEval := false, probeWindow := false } else s

def rollBack (s : Ramp F) : Ramp F := { s with allowedWorkers := max s.preGrowWorkers 1 }

def evaluate (s : Ramp F) (c : Setup) (throughput : F) : Ramp F :=
  if s.awaitingRampEval then
    let verdict := rampVerdict s.preGrowThroughput throughput
    let wasProbe := s.probeWindow
    let s := { s with awaitingRampEval := false, probeWindow := false }
    if wasProbe then
      let attempts := match s.freeze with | .soft _ _ attempts => attempts | _ => 0
      let cooldown :=
        match s.freeze with
        | .soft _ cooldown _ => cooldown
        | _ => rampSoftProbeCooldownTicks
      let next := softProbeEvalTransition verdict attempts cooldown
      let s := { s with freeze := next.1 }
      if next.2 then s.rollBack else s
    else
      match verdict with
      | .improved => s
      | .collapse => { s with freeze := .hard }.rollBack
      | .freeze =>
          let s := if c.startHint.any (fun h => s.preGrowWorkers ≥ asUsize h) then s.rollBack else s
          { s with freeze := freezeVerdictNextState s.softProbeTaskUsed }
  else s

/-- The peak decays, and after two windows far below it the quota is halved. -/
def sustainedShrink (s : Ramp F) (c : Setup) (throughput : F) (tail : Bool) : Ramp F × Bool :=
  let frozen := decide (s.freeze ≠ .active)
  let s := { s with peakThroughput := s.peakThroughput * rampPeakDecay }
  if throughput > s.peakThroughput then
    ({ s with peakThroughput := throughput, shrinkStrikes := 0 }, false)
  else if !tail && shouldShrink throughput s.peakThroughput s.allowedWorkers c.workerCap s.slots
      frozen s.awaitingRampEval then
    let s := { s with shrinkStrikes := s.shrinkStrikes + 1 }
    if s.shrinkStrikes ≥ rampShrinkStrikes then
      ({ s with
        shrinkStrikes := 0
        allowedWorkers := max (s.allowedWorkers / 2) 1
        freeze := sustainedShrinkNextState s.freeze s.softProbeTaskUsed }, true)
    else (s, false)
  else ({ s with shrinkStrikes := 0 }, false)

def probe (s : Ramp F) (c : Setup) (throughput : F) : Ramp F :=
  { s with
    preGrowThroughput := throughput
    preGrowWorkers := s.allowedWorkers
    awaitingRampEval := true
    probeWindow := true
    softProbeTaskUsed := min (s.softProbeTaskUsed + 1) u32Max
    allowedWorkers := min (s.allowedWorkers + 1) c.workerCap }

def expand (s : Ramp F) (c : Setup) (throughput : F) : Ramp F :=
  { s with
    preGrowThroughput := throughput
    preGrowWorkers := s.allowedWorkers
    awaitingRampEval := true
    probeWindow := false
    allowedWorkers := min (s.allowedWorkers * 2) c.workerCap }

/-- The loop that starts workers and grows the quota at most once. -/
def grow (s : Ramp F) (c : Setup) (t : Tick F) (tail shrunk : Bool) : Ramp F :=
  let s := s.fill t.refill
  if tail || shrunk then s
  else if softProbeReady s.freeze tail true s.serialMode t.probeSensitive s.rejectStrikes s.slots
      s.allowedWorkers c.workerCap s.softProbeTaskUsed then
    (s.probe c t.throughput).fill t.regrow
  else if shouldExpand (decide (s.freeze ≠ .active)) t.expandSensitive s.slots s.allowedWorkers
      c.workerCap shrunk then
    (s.expand c t.throughput).fill t.regrow
  else s

end Ramp

def Tick.tail (t : Tick F) (c : Setup) : Bool :=
  isTail (max (t.total - t.bytes) 0) c.workerCap t.total

/-- The quota is adapted in a full window, with several connections and a server that has shown to
support ranges. -/
def adapts (s : Ramp F) (t : Tick F) : Bool :=
  !s.serialMode && !t.allDone && s.rangeVerdict = .supported

def Ramp.beforeEval (s : Ramp F) (c : Setup) (t : Tick F) : Ramp F :=
  (s.closeSlots t.dead).countWait.enterTail (t.tail c)

def Ramp.fullTick (s : Ramp F) (c : Setup) (t : Tick F) : Ramp F :=
  let evaluated := (s.beforeEval c t).evaluate c t.throughput
  let shrunk := evaluated.sustainedShrink c t.throughput (t.tail c)
  shrunk.1.grow c t (t.tail c) shrunk.2

def Ramp.rampTick (s : Ramp F) (c : Setup) (t : Tick F) : Ramp F :=
  if t.dtMs < rampMinEvalWindowMs then
    if adapts s t then (s.closeSlots t.dead).fill t.refill else s.closeSlots t.dead
  else if adapts s t then s.fullTick c t
  else (s.closeSlots t.dead).countWait

def step (c : Setup) (s : Ramp F) : Label F → Option (Ramp F)
  | .tick t => some (s.rampTick c t)
  | .reject slotOpen => some (s.reject slotOpen)
  | .done work slotOpen => some (s.done work slotOpen)
  | .close n => some (s.closeSlots n)
  | .decideRange supportsRange =>
      -- The first response decides once for all.
      if s.rangeVerdict = .unknown then
        some { s with rangeVerdict := if supportsRange then .supported else .unsupported }
      else none
  | .rangeVerdict supportsRange =>
      if s.rangeVerdict = if supportsRange then .supported else .unsupported then
        some (if supportsRange then s else { s with freeze := .hard })
      else none

end

/-! ## The first quota -/

theorem one_le_asUsize_max (n : Int32) : 1 ≤ asUsize (max n 1) := by
  have hlow : 1 ≤ (max n 1).toInt := by
    change 1 ≤ (if n ≤ 1 then (1 : Int32) else n).toInt
    split_ifs with h
    · decide
    · have hlt := mt Int32.le_iff_toInt_le.mpr h
      have hone : (1 : Int32).toInt = 1 := by decide
      omega
  have hhigh := (max n 1).toInt_lt
  simp only [asUsize]
  omega

theorem le_hintUncapCeiling (hintUncapMax : ℕ) (allow : Bool) (negativeCap hint : Option Int32)
    (baseCap : ℕ) : baseCap ≤ hintUncapCeiling hintUncapMax allow negativeCap hint baseCap := by
  unfold hintUncapCeiling
  split
  · exact Nat.le_refl _
  · cases hint with
    | none => exact Nat.le_refl _
    | some h =>
      simp only
      split_ifs with _ hmore
      · exact Nat.le_refl _
      · exact hmore.le
      · exact Nat.le_refl _

theorem Setup.one_le_workerCap (c : Setup) : 1 ≤ c.workerCap := by
  refine Nat.le_trans ?_ (le_hintUncapCeiling ..)
  have hbase : 1 ≤ (max 1 (min c.initialSegmentCount.toInt maxSegments)).toNat := by omega
  cases hdomain : c.domainCap with
  | none => simpa only using hbase
  | some d =>
    simp only
    split
    · exact one_le_asUsize_max d
    · exact hbase

theorem one_le_initialAllowedWorkers (workerCap : ℕ) (hint : Option Int32) :
    1 ≤ initialAllowedWorkers workerCap hint := Nat.le_max_right _ _

theorem initialAllowedWorkers_le {workerCap : ℕ} (hcap : 1 ≤ workerCap) (hint : Option Int32) :
    initialAllowedWorkers workerCap hint ≤ workerCap :=
  max_le (Nat.min_le_left _ _) hcap

/-! ## What each part of a tick can do -/

def FreezeState.Cooled : FreezeState → Prop
  | .soft _ cooldown _ => 0 < cooldown
  | _ => True

/-- Nothing is grown in this state. -/
def FreezeState.Stalled : FreezeState → Prop
  | .active => False
  | .soft ticksWaited cooldown _ => ticksWaited < cooldown
  | .hard => True

theorem cooled_freezeVerdictNextState (used : ℕ) : (freezeVerdictNextState used).Cooled := by
  unfold freezeVerdictNextState
  split_ifs
  · trivial
  · show 0 < rampSoftProbeCooldownTicks
    decide

theorem stalled_freezeVerdictNextState (used : ℕ) : (freezeVerdictNextState used).Stalled := by
  unfold freezeVerdictNextState
  split_ifs
  · trivial
  · show 0 < rampSoftProbeCooldownTicks
    decide

theorem cooled_sustainedShrinkNextState (current : FreezeState) (used : ℕ) :
    (sustainedShrinkNextState current used).Cooled := by
  unfold sustainedShrinkNextState
  split_ifs
  · exact cooled_freezeVerdictNextState used
  · trivial

@[simp] theorem sustainedShrinkNextState_hard (used : ℕ) :
    sustainedShrinkNextState .hard used = .hard := rfl

theorem softProbeEvalTransition_cooled (verdict : RampVerdict) (attempts : ℕ) {cooldown : ℕ}
    (h : 0 < cooldown) : (softProbeEvalTransition verdict attempts cooldown).1.Cooled := by
  cases verdict with
  | improved => trivial
  | collapse => trivial
  | freeze =>
    simp only [softProbeEvalTransition]
    split_ifs
    · trivial
    · show 0 < min (cooldown * 2) u32Max
      simp only [u32Max]
      omega

theorem softProbeEvalTransition_stalled {verdict : RampVerdict} (attempts : ℕ) {cooldown : ℕ}
    (h : 0 < cooldown) (hv : verdict ≠ .improved) :
    (softProbeEvalTransition verdict attempts cooldown).1.Stalled := by
  cases verdict with
  | improved => exact absurd rfl hv
  | collapse => trivial
  | freeze =>
    have hcooled := softProbeEvalTransition_cooled .freeze attempts h
    simp only [softProbeEvalTransition] at hcooled ⊢
    split_ifs at hcooled ⊢
    · trivial
    · exact hcooled

theorem not_stalled_of_ready {freeze : FreezeState} {tail rangeOk serialMode connSensitive : Bool}
    {strikes alive allowed cap used : ℕ}
    (h : softProbeReady freeze tail rangeOk serialMode connSensitive strikes alive allowed cap
      used = true) : ¬ freeze.Stalled ∧ allowed < cap ∧ used < rampSoftProbeTaskBudget := by
  cases freeze with
  | soft ticksWaited cooldown attempts =>
    simp only [softProbeReady, Bool.and_eq_true, decide_eq_true_eq] at h
    exact ⟨Nat.not_lt.mpr h.1.1.1.1.1.1.1.1.1,h.1.2,h.2⟩
  | _ => simp [softProbeReady] at h

theorem not_stalled_of_expand {freeze : FreezeState} {connSensitive shrunk : Bool}
    {alive allowed cap : ℕ}
    (h : shouldExpand (decide (freeze ≠ .active)) connSensitive alive allowed cap shrunk = true) :
    ¬ freeze.Stalled ∧ allowed < cap := by
  simp only [shouldExpand, Bool.and_eq_true, decide_eq_true_eq, Bool.not_eq_true',
    decide_eq_false_iff_not, not_not] at h
  obtain ⟨⟨⟨⟨rfl,-⟩,-⟩,hlt⟩,-⟩ := h
  exact ⟨fun hstalled => hstalled,hlt⟩

section
variable {F : Type} {c : Setup} {s : Ramp F}

theorem fill_cases (s : Ramp F) (work : ℕ) :
    ∃ n, s.fill work = { s with slots := n } ∧ n ≤ max s.slots s.allowedWorkers := by
  unfold Ramp.fill
  split_ifs with h
  · exact ⟨_,rfl,(Nat.min_le_right _ _).trans (Nat.le_max_right _ _)⟩
  · exact ⟨_,rfl,Nat.le_max_left _ _⟩

@[simp] theorem fill_freeze (s : Ramp F) (work : ℕ) : (s.fill work).freeze = s.freeze := by
  obtain ⟨n,hn,-⟩ := fill_cases s work
  rw [hn]

@[simp] theorem fill_allowedWorkers (s : Ramp F) (work : ℕ) :
    (s.fill work).allowedWorkers = s.allowedWorkers := by
  obtain ⟨n,hn,-⟩ := fill_cases s work
  rw [hn]

/-- The quota that a growth leaves: at most the double, and within the cap. -/
theorem grow_cases (t : Tick F) (tail shrunk : Bool) (h : 1 ≤ s.allowedWorkers) :
    (∃ n ≤ max s.slots s.allowedWorkers, s.grow c t tail shrunk = { s with slots := n }) ∨
      shrunk = false ∧ ¬ s.freeze.Stalled ∧ ∃ allowed probe used n,
        s.grow c t tail shrunk = { s with
          preGrowThroughput := t.throughput
          preGrowWorkers := s.allowedWorkers
          awaitingRampEval := true
          probeWindow := probe
          softProbeTaskUsed := used
          allowedWorkers := allowed
          slots := n } ∧
        (s.allowedWorkers ≤ allowed ∧ allowed ≤ c.workerCap ∧ allowed ≤ 2 * s.allowedWorkers) ∧
        (used ≤ s.softProbeTaskUsed ∨ used ≤ rampSoftProbeTaskBudget) ∧
        n ≤ max s.slots allowed := by
  obtain ⟨m,hfill,hm⟩ := fill_cases s t.refill
  simp only [Ramp.grow, hfill]
  split_ifs with hstop hready hexpand
  · exact .inl ⟨m,hm,rfl⟩
  · refine .inr ⟨by simp_all,?_⟩
    obtain ⟨hstalled,hlt,hused⟩ := not_stalled_of_ready hready
    obtain ⟨n,hn,hle⟩ := fill_cases (Ramp.probe { s with slots := m } c t.throughput) t.regrow
    simp only [Ramp.probe] at hn hle
    refine ⟨hstalled,_,_,_,n,hn,⟨by omega,by omega,by omega⟩,.inr (by omega),?_⟩
    omega
  · refine .inr ⟨by simp_all,?_⟩
    obtain ⟨hstalled,hlt⟩ := not_stalled_of_expand hexpand
    obtain ⟨n,hn,hle⟩ := fill_cases (Ramp.expand { s with slots := m } c t.throughput) t.regrow
    simp only [Ramp.expand] at hn hle
    refine ⟨hstalled,_,_,_,n,hn,⟨by omega,by omega,by omega⟩,.inl (Nat.le_refl _),?_⟩
    omega
  · exact .inl ⟨m,hm,rfl⟩

end

section
variable {F : Type} [OfScientific F] [Mul F] [LT F] [DecidableLT F] {c : Setup} {s : Ramp F}

/-- The new state that an evaluation can leave, and why. -/
theorem evaluate_cases (c : Setup) (throughput : F) (h : s.freeze.Cooled) :
    (s.awaitingRampEval = false ∧ s.evaluate c throughput = s) ∨
      s.awaitingRampEval = true ∧ ∃ freeze allowed,
        s.evaluate c throughput = { s with
          awaitingRampEval := false
          probeWindow := false
          freeze := freeze
          allowedWorkers := allowed } ∧
        (allowed = s.allowedWorkers ∨ allowed = max s.preGrowWorkers 1) ∧ freeze.Cooled ∧
        (rampVerdict s.preGrowThroughput throughput ≠ .improved → freeze.Stalled) := by
  cases hawaiting : s.awaitingRampEval with
  | false => exact .inl ⟨rfl,by simp [Ramp.evaluate, hawaiting]⟩
  | true =>
    refine .inr ⟨rfl,?_⟩
    cases hprobe : s.probeWindow with
    | true =>
      have hpos : 0 < (match s.freeze with
          | .soft _ cooldown _ => cooldown
          | _ => rampSoftProbeCooldownTicks) := by
        cases hfreeze : s.freeze with
        | soft _ cooldown _ => rwa [hfreeze] at h
        | _ => decide
      let verdict := rampVerdict s.preGrowThroughput throughput
      have hcooled := softProbeEvalTransition_cooled verdict
        (match s.freeze with | .soft _ _ attempts => attempts | _ => 0) hpos
      have hstalled := fun hv : verdict ≠ .improved => softProbeEvalTransition_stalled
        (match s.freeze with | .soft _ _ attempts => attempts | _ => 0) hpos hv
      simp only [Ramp.evaluate, hawaiting, hprobe, if_true]
      split_ifs with hback
      · exact ⟨_,_,rfl,.inr rfl,hcooled,hstalled⟩
      · exact ⟨_,_,rfl,.inl rfl,hcooled,hstalled⟩
    | false =>
      simp only [Ramp.evaluate, hawaiting, hprobe, if_true, Bool.false_eq_true, if_false]
      cases hverdict : rampVerdict s.preGrowThroughput throughput with
      | improved => exact ⟨_,_,rfl,.inl rfl,h,fun hv => absurd rfl hv⟩
      | collapse => exact ⟨_,_,rfl,.inr rfl,trivial,fun _ => trivial⟩
      | freeze =>
        simp only
        split_ifs with hback
        · exact ⟨_,_,rfl,.inr rfl,cooled_freezeVerdictNextState _,
            fun _ => stalled_freezeVerdictNextState _⟩
        · exact ⟨_,_,rfl,.inl rfl,cooled_freezeVerdictNextState _,
            fun _ => stalled_freezeVerdictNextState _⟩

theorem sustainedShrink_cases (c : Setup) (s : Ramp F) (throughput : F) (tail : Bool) :
    ∃ peak strikes,
      s.sustainedShrink c throughput tail =
          ({ s with peakThroughput := peak, shrinkStrikes := strikes }, false) ∨
        s.slots = s.allowedWorkers ∧ s.awaitingRampEval = false ∧
          s.sustainedShrink c throughput tail =
            ({ s with
              peakThroughput := peak
              shrinkStrikes := strikes
              allowedWorkers := max (s.allowedWorkers / 2) 1
              freeze := sustainedShrinkNextState s.freeze s.softProbeTaskUsed }, true) := by
  simp only [Ramp.sustainedShrink]
  split_ifs with hpeak hshrink hstrikes
  · exact ⟨_,_,.inl rfl⟩
  · simp only [shouldShrink, Bool.and_eq_true, Bool.not_eq_true', decide_eq_true_eq] at hshrink
    exact ⟨_,_,.inr ⟨hshrink.2.1.1.2,hshrink.2.1.1.1.1.1,rfl⟩⟩
  · exact ⟨_,_,.inl rfl⟩
  · exact ⟨_,_,.inl rfl⟩

end

/-! ## The invariant -/

/-- A growth that waits for its evaluation: going back keeps the workers in bounds. -/
structure Window {F : Type} (s : Ramp F) : Prop where
  one_le_pre : 1 ≤ s.preGrowWorkers
  pre_le : s.preGrowWorkers ≤ s.allowedWorkers
  allowed_le : s.allowedWorkers ≤ 2 * s.preGrowWorkers
  slots_le : s.slots ≤ 2 * s.preGrowWorkers + 1
  not_hard : s.freeze ≠ .hard
  supported : s.rangeVerdict = .supported

/-- The workers never exceed twice the quota by more than one, which is what halving them needs. -/
structure Inv {F : Type} (c : Setup) (s : Ramp F) : Prop where
  one_le : 1 ≤ s.allowedWorkers
  le_cap : s.allowedWorkers ≤ c.workerCap
  slots_le : s.slots ≤ 2 * s.allowedWorkers + 1
  cooled : s.freeze.Cooled
  used_le : s.softProbeTaskUsed ≤ rampSoftProbeTaskBudget
  window : s.awaitingRampEval = true → Window s

section
variable {F : Type} {c : Setup} {s : Ramp F}

theorem Inv.withSlots (h : Inv c s) {n : ℕ} (hn : n ≤ max s.slots s.allowedWorkers) :
    Inv c { s with slots := n } where
  one_le := h.one_le
  le_cap := h.le_cap
  slots_le := by
    have hslots := h.slots_le
    show n ≤ 2 * s.allowedWorkers + 1
    omega
  cooled := h.cooled
  used_le := h.used_le
  window hawaiting := by
    have hw := h.window hawaiting
    have hslots := hw.slots_le
    have hallowed := hw.allowed_le
    exact { hw with slots_le := by show n ≤ 2 * s.preGrowWorkers + 1; omega }

theorem Inv.closeSlots (h : Inv c s) (n : ℕ) : Inv c (s.closeSlots n) :=
  h.withSlots ((Nat.sub_le _ _).trans (Nat.le_max_left _ _))

theorem Inv.fill (h : Inv c s) (work : ℕ) : Inv c (s.fill work) := by
  obtain ⟨n,hn,hle⟩ := fill_cases s work
  rw [hn]
  exact h.withSlots hle

theorem Inv.of_settled (hone : 1 ≤ s.allowedWorkers) (hcap : s.allowedWorkers ≤ c.workerCap)
    (hslots : s.slots ≤ 2 * s.allowedWorkers + 1) (hcooled : s.freeze.Cooled)
    (hused : s.softProbeTaskUsed ≤ rampSoftProbeTaskBudget) (h : s.awaitingRampEval = false) :
    Inv c s :=
  ⟨hone,hcap,hslots,hcooled,hused,fun hawaiting => by simp [h] at hawaiting⟩

theorem countWait_cases (s : Ramp F) :
    s.countWait = s ∨ s.awaitingRampEval = false ∧ ∃ ticksWaited cooldown attempts waited,
      s.freeze = .soft ticksWaited cooldown attempts ∧
        s.countWait = { s with freeze := .soft waited cooldown attempts } := by
  unfold Ramp.countWait
  split
  next ticksWaited cooldown attempts hawaiting hfreeze =>
    exact .inr ⟨hawaiting,_,_,_,_,hfreeze,rfl⟩
  next => exact .inl rfl

theorem Inv.countWait (h : Inv c s) : Inv c s.countWait := by
  rcases countWait_cases s with heq | ⟨hawaiting,_,_,_,_,hfreeze,heq⟩
  · rwa [heq]
  · have hcooled := h.cooled
    rw [hfreeze] at hcooled
    rw [heq]
    exact Inv.of_settled h.one_le h.le_cap h.slots_le hcooled h.used_le hawaiting

@[simp] theorem countWait_allowedWorkers (s : Ramp F) :
    s.countWait.allowedWorkers = s.allowedWorkers := by
  rcases countWait_cases s with heq | ⟨-,_,_,_,_,-,heq⟩ <;> rw [heq]

@[simp] theorem countWait_rangeVerdict (s : Ramp F) :
    s.countWait.rangeVerdict = s.rangeVerdict := by
  rcases countWait_cases s with heq | ⟨-,_,_,_,_,-,heq⟩ <;> rw [heq]

theorem countWait_hard (h : s.freeze = .hard) : s.countWait.freeze = .hard := by
  rcases countWait_cases s with heq | ⟨-,_,_,_,_,hfreeze,-⟩
  · rwa [heq]
  · simp [h] at hfreeze

theorem Inv.enterTail (h : Inv c s) (tail : Bool) : Inv c (s.enterTail tail) := by
  cases tail with
  | false => exact h
  | true => exact Inv.of_settled h.one_le h.le_cap h.slots_le h.cooled h.used_le rfl

@[simp] theorem enterTail_allowedWorkers (s : Ramp F) (tail : Bool) :
    (s.enterTail tail).allowedWorkers = s.allowedWorkers := by
  cases tail <;> rfl

@[simp] theorem enterTail_freeze (s : Ramp F) (tail : Bool) :
    (s.enterTail tail).freeze = s.freeze := by
  cases tail <;> rfl

@[simp] theorem enterTail_rangeVerdict (s : Ramp F) (tail : Bool) :
    (s.enterTail tail).rangeVerdict = s.rangeVerdict := by
  cases tail <;> rfl

@[simp] theorem closeSlots_allowedWorkers (s : Ramp F) (n : ℕ) :
    (s.closeSlots n).allowedWorkers = s.allowedWorkers := rfl

@[simp] theorem closeSlots_freeze (s : Ramp F) (n : ℕ) : (s.closeSlots n).freeze = s.freeze := rfl

@[simp] theorem closeSlots_rangeVerdict (s : Ramp F) (n : ℕ) :
    (s.closeSlots n).rangeVerdict = s.rangeVerdict := rfl

theorem Inv.beforeEval (h : Inv c s) (t : Tick F) : Inv c (s.beforeEval c t) :=
  (h.closeSlots t.dead).countWait.enterTail (t.tail c)

@[simp] theorem beforeEval_allowedWorkers (s : Ramp F) (c : Setup) (t : Tick F) :
    (s.beforeEval c t).allowedWorkers = s.allowedWorkers := by simp [Ramp.beforeEval]

@[simp] theorem beforeEval_rangeVerdict (s : Ramp F) (c : Setup) (t : Tick F) :
    (s.beforeEval c t).rangeVerdict = s.rangeVerdict := by simp [Ramp.beforeEval]

theorem beforeEval_hard (t : Tick F) (h : s.freeze = .hard) :
    (s.beforeEval c t).freeze = .hard := by
  rw [Ramp.beforeEval, enterTail_freeze]
  exact countWait_hard h

/-- A rejection halves the workers, and these are at most about twice the quota. -/
theorem Inv.reject (h : Inv c s) (slotOpen : Bool) :
    Inv c (s.reject slotOpen) ∧ (s.reject slotOpen).freeze = .hard ∧
      (s.reject slotOpen).allowedWorkers ≤ s.allowedWorkers := by
  have hone := h.one_le
  have hcap := h.le_cap
  have hslots := h.slots_le
  simp only [Ramp.reject]
  split_ifs with hhalve
  · refine ⟨Inv.closeSlots ?_ _,rfl,?_⟩
    · refine Inv.of_settled (Nat.le_max_right _ _) ?_ ?_ trivial h.used_le rfl
      · show max (s.slots / 2) 1 ≤ c.workerCap
        omega
      · show s.slots ≤ 2 * max (s.slots / 2) 1 + 1
        omega
    · show max (s.slots / 2) 1 ≤ s.allowedWorkers
      omega
  · refine ⟨Inv.closeSlots ?_ _,rfl,Nat.le_refl _⟩
    exact Inv.of_settled hone hcap hslots trivial h.used_le rfl

theorem Inv.done (h : Inv c s) (work slotOpen : Bool) : Inv c (s.done work slotOpen) := by
  unfold Ramp.done
  split_ifs
  · exact h.closeSlots _
  · exact h

theorem done_quota (s : Ramp F) (work slotOpen : Bool) :
    (s.done work slotOpen).allowedWorkers = s.allowedWorkers ∧
      (s.done work slotOpen).freeze = s.freeze := by
  unfold Ramp.done
  split_ifs <;> exact ⟨rfl,rfl⟩

theorem Inv.grow (h : Inv c s) (t : Tick F) (tail shrunk : Bool)
    (hrange : s.rangeVerdict = .supported) : Inv c (s.grow c t tail shrunk) := by
  have hone := h.one_le
  have hslots := h.slots_le
  have hused := h.used_le
  rcases grow_cases (c := c) t tail shrunk h.one_le with ⟨n,hn,heq⟩ |
    ⟨-,hstalled,allowed,probe,used,n,heq,⟨hle,hcap,hdouble⟩,hbudget,hn⟩
  · rw [heq]
    exact h.withSlots hn
  · rw [heq]
    constructor
    · show 1 ≤ allowed
      omega
    · exact hcap
    · show n ≤ 2 * allowed + 1
      omega
    · exact h.cooled
    · show used ≤ rampSoftProbeTaskBudget
      omega
    · refine fun _ => ⟨hone,hle,hdouble,?_,fun hhard => ?_,hrange⟩
      · show n ≤ 2 * s.allowedWorkers + 1
        omega
      · have hhard' : s.freeze = .hard := hhard
        rw [hhard'] at hstalled
        exact hstalled trivial

theorem grow_kept (h : Inv c s) (t : Tick F) (tail shrunk : Bool)
    (hkept : shrunk = true ∨ s.freeze.Stalled) :
    (s.grow c t tail shrunk).allowedWorkers = s.allowedWorkers ∧
      (s.grow c t tail shrunk).freeze = s.freeze := by
  rcases grow_cases (c := c) t tail shrunk h.one_le with ⟨n,-,heq⟩ | ⟨hshrunk,hstalled,-⟩
  · rw [heq]
    exact ⟨rfl,rfl⟩
  · rcases hkept with htrue | hstill
    · simp [htrue] at hshrunk
    · exact absurd hstill hstalled

end

section
variable {F : Type} [OfScientific F] [Mul F] [LT F] [DecidableLT F] {c : Setup} {s : Ramp F}

omit [Mul F] [LT F] [DecidableLT F] in
theorem Inv.start (c : Setup) : Inv c (start (F := F) c) := by
  have hcap := c.one_le_workerCap
  have hone := one_le_initialAllowedWorkers c.workerCap c.initialHint
  refine Inv.of_settled hone (initialAllowedWorkers_le hcap _) ?_ trivial (Nat.zero_le _) rfl
  simp only [ConnectionRamp.start]
  split_ifs <;> omega

theorem Inv.evaluate (h : Inv c s) (throughput : F) :
    Inv c (s.evaluate c throughput) ∧ (s.evaluate c throughput).awaitingRampEval = false ∧
      (s.evaluate c throughput).allowedWorkers ≤ s.allowedWorkers ∧
      (s.evaluate c throughput).rangeVerdict = s.rangeVerdict := by
  rcases evaluate_cases c throughput h.cooled with
    ⟨hawaiting,heq⟩ | ⟨hawaiting,freeze,allowed,heq,hallowed,hcooled,-⟩
  · rw [heq]
    exact ⟨h,hawaiting,Nat.le_refl _,rfl⟩
  · have hone := h.one_le
    have hcap := h.le_cap
    have hslots := h.slots_le
    have hw := h.window hawaiting
    have hpre := hw.one_le_pre
    have hle := hw.pre_le
    have hback := hw.slots_le
    rw [heq]
    refine ⟨Inv.of_settled ?_ ?_ ?_ hcooled h.used_le rfl,rfl,?_,rfl⟩
    · show 1 ≤ allowed
      omega
    · show allowed ≤ c.workerCap
      omega
    · show s.slots ≤ 2 * allowed + 1
      omega
    · show allowed ≤ s.allowedWorkers
      omega

theorem evaluate_hard (h : Inv c s) (hfreeze : s.freeze = .hard) (throughput : F) :
    s.evaluate c throughput = s := by
  rcases evaluate_cases c throughput h.cooled with ⟨-,heq⟩ | ⟨hawaiting,-⟩
  · exact heq
  · exact absurd hfreeze (h.window hawaiting).not_hard

theorem evaluate_stalled (h : Inv c s) (throughput : F) (hawaiting : s.awaitingRampEval = true)
    (hverdict : rampVerdict s.preGrowThroughput throughput ≠ .improved) :
    (s.evaluate c throughput).freeze.Stalled := by
  rcases evaluate_cases c throughput h.cooled with
    ⟨hsettled,-⟩ | ⟨-,freeze,allowed,heq,-,-,hstalled⟩
  · simp [hawaiting] at hsettled
  · rw [heq]
    exact hstalled hverdict

/-- A shrink never raises the quota, and without one the quota and the freeze are kept. -/
theorem Inv.sustainedShrink (h : Inv c s) (throughput : F) (tail : Bool)
    (hsettled : s.awaitingRampEval = false) :
    let r := s.sustainedShrink c throughput tail
    Inv c r.1 ∧ r.1.allowedWorkers ≤ s.allowedWorkers ∧ r.1.rangeVerdict = s.rangeVerdict ∧
      (s.freeze.Stalled → r.2 = false → r.1.freeze.Stalled) ∧
      (s.freeze = .hard → r.1.freeze = .hard) := by
  have hone := h.one_le
  have hcap := h.le_cap
  have hslots := h.slots_le
  obtain ⟨peak,strikes,heq | ⟨halive,-,heq⟩⟩ := sustainedShrink_cases c s throughput tail
  · simp only [heq]
    exact ⟨Inv.of_settled hone hcap hslots h.cooled h.used_le hsettled,Nat.le_refl _,trivial,
      fun hstalled _ => hstalled,fun hhard => hhard⟩
  · simp only [heq]
    refine ⟨Inv.of_settled ?_ ?_ ?_ (cooled_sustainedShrinkNextState _ _) h.used_le hsettled,?_,
      trivial,fun _ hshrunk => absurd hshrunk (by decide),fun hhard => ?_⟩
    · exact Nat.le_max_right _ _
    · show max (s.allowedWorkers / 2) 1 ≤ c.workerCap
      omega
    · show s.slots ≤ 2 * max (s.allowedWorkers / 2) 1 + 1
      omega
    · omega
    · rw [hhard, sustainedShrinkNextState_hard]

end

/-! ## Steps and runs -/

section
variable {F : Type} [OfScientific F] [Mul F] [LT F] [DecidableLT F] {c : Setup} {s t : Ramp F}

/-- The steps that are meant to lower the quota: a rejection, a growth that did not pay, and a
shrink after a lasting degradation. -/
def Lowers (c : Setup) (s : Ramp F) : Label F → Prop
  | .reject _ => True
  | .tick t =>
      ¬ t.dtMs < rampMinEvalWindowMs ∧ adapts s t = true ∧
        ((s.beforeEval c t).awaitingRampEval = true ∧
            rampVerdict (s.beforeEval c t).preGrowThroughput t.throughput ≠ .improved ∨
          (((s.beforeEval c t).evaluate c t.throughput).sustainedShrink c t.throughput
            (t.tail c)).2 = true)
  | _ => False

omit [OfScientific F] [Mul F] [LT F] [DecidableLT F] in
theorem supported_of_adapts {tick : Tick F} (h : adapts s tick = true) :
    s.rangeVerdict = .supported := by
  simp only [adapts, Bool.and_eq_true, decide_eq_true_eq] at h
  exact h.2

theorem Inv.fullTick (h : Inv c s) (tick : Tick F) (hrange : s.rangeVerdict = .supported) :
    Inv c (s.fullTick c tick) ∧
      (Lowers c s (.tick tick) → (s.fullTick c tick).allowedWorkers ≤ s.allowedWorkers) ∧
      (s.freeze = .hard → (s.fullTick c tick).freeze = .hard ∧
        (s.fullTick c tick).allowedWorkers ≤ s.allowedWorkers) := by
  have hbefore := h.beforeEval tick
  obtain ⟨hinv,hsettled,hlow,hkept⟩ := hbefore.evaluate tick.throughput
  obtain ⟨hinv',hlow',hkept',hstall,hhard'⟩ :=
    hinv.sustainedShrink tick.throughput (tick.tail c) hsettled
  have hrange' := (hkept'.trans hkept).trans ((beforeEval_rangeVerdict s c tick).trans hrange)
  have hle := (hlow'.trans hlow).trans (beforeEval_allowedWorkers s c tick).le
  refine ⟨hinv'.grow tick (tick.tail c) _ hrange',fun hlowers => ?_,fun hhard => ?_⟩
  · -- After such a window the growth is barred, by the freeze or by the shrink.
    refine ((grow_kept hinv' tick (tick.tail c) _ ?_).1).le.trans hle
    rcases hlowers.2.2 with ⟨hawaiting,hverdict⟩ | hshrunk
    · have hstalled := evaluate_stalled hbefore tick.throughput hawaiting hverdict
      cases hshrunk : (((s.beforeEval c tick).evaluate c tick.throughput).sustainedShrink c
        tick.throughput (tick.tail c)).2 with
      | true => exact .inl rfl
      | false => exact .inr (hstall hstalled hshrunk)
    · exact .inl hshrunk
  · have hfreeze : ((s.beforeEval c tick).evaluate c tick.throughput).freeze = .hard := by
      rw [evaluate_hard hbefore (beforeEval_hard tick hhard)]
      exact beforeEval_hard tick hhard
    have hend := hhard' hfreeze
    have hgrow := grow_kept (c := c) hinv' tick (tick.tail c)
      (((s.beforeEval c tick).evaluate c tick.throughput).sustainedShrink c tick.throughput
        (tick.tail c)).2 (.inr (by rw [hend]; trivial))
    exact ⟨hgrow.2.trans hend,hgrow.1.le.trans hle⟩

theorem Inv.step (h : Inv c s) {label : Label F} (hstep : step c s label = some t) :
    Inv c t ∧ (Lowers c s label → t.allowedWorkers ≤ s.allowedWorkers) ∧
      (s.freeze = .hard → t.freeze = .hard ∧ t.allowedWorkers ≤ s.allowedWorkers) := by
  cases label with
  | tick tick =>
    cases hstep
    simp only [Ramp.rampTick]
    split_ifs with hshort hadapts hadapts
    · refine ⟨(h.closeSlots _).fill _,fun _ => ?_,fun hhard => ⟨?_,?_⟩⟩ <;> simp [*]
    · refine ⟨h.closeSlots _,fun _ => ?_,fun hhard => ⟨?_,?_⟩⟩ <;> simp [*]
    · exact h.fullTick tick (supported_of_adapts hadapts)
    · exact ⟨(h.closeSlots _).countWait,fun _ => by simp,
        fun hhard => ⟨countWait_hard hhard,by simp⟩⟩
  | reject slotOpen =>
    cases hstep
    obtain ⟨hinv,hhard,hle⟩ := h.reject slotOpen
    exact ⟨hinv,fun _ => hle,fun _ => ⟨hhard,hle⟩⟩
  | done work slotOpen =>
    cases hstep
    obtain ⟨hallowed,hfreeze⟩ := done_quota s work slotOpen
    exact ⟨h.done work slotOpen,fun _ => hallowed.le,
      fun hhard => ⟨hfreeze.trans hhard,hallowed.le⟩⟩
  | close n =>
    cases hstep
    exact ⟨h.closeSlots n,fun _ => Nat.le_refl _,fun hhard => ⟨hhard,Nat.le_refl _⟩⟩
  | decideRange supportsRange =>
    by_cases hunknown : s.rangeVerdict = .unknown
    · simp only [ConnectionRamp.step, if_pos hunknown, some.injEq] at hstep
      subst hstep
      have hsettled : s.awaitingRampEval = false := by
        cases hawaiting : s.awaitingRampEval with
        | false => rfl
        | true => simp [(h.window hawaiting).supported] at hunknown
      exact ⟨Inv.of_settled h.one_le h.le_cap h.slots_le h.cooled h.used_le hsettled,
        fun _ => Nat.le_refl _,fun hhard => ⟨hhard,Nat.le_refl _⟩⟩
    · simp [ConnectionRamp.step, hunknown] at hstep
  | rangeVerdict supportsRange =>
    cases supportsRange with
    | true =>
      have ht : t = s := by
        simp only [ConnectionRamp.step, if_true, ite_none_right_eq_some,
          some.injEq] at hstep
        exact hstep.2.symm
      subst ht
      exact ⟨h,fun _ => Nat.le_refl _,fun hhard => ⟨hhard,Nat.le_refl _⟩⟩
    | false =>
      simp only [ConnectionRamp.step, Bool.false_eq_true, if_false, ite_none_right_eq_some,
        some.injEq] at hstep
      obtain ⟨hverdict,rfl⟩ := hstep
      have hsettled : s.awaitingRampEval = false := by
        cases hawaiting : s.awaitingRampEval with
        | false => rfl
        | true => simp [(h.window hawaiting).supported] at hverdict
      exact ⟨Inv.of_settled h.one_le h.le_cap h.slots_le trivial h.used_le hsettled,
        fun _ => Nat.le_refl _,fun _ => ⟨rfl,Nat.le_refl _⟩⟩

theorem Inv.exec {labels : List (Label F)} (h : Inv c s)
    (hrun : exec (ConnectionRamp.step c) s labels = some t) : Inv c t :=
  exec_invariant (fun _ _ _ hinv hstep => (hinv.step hstep).1) h hrun

/-- A hard freeze is final: no run raises the quota again. -/
theorem Inv.hard_final {labels : List (Label F)} (h : Inv c s) (hhard : s.freeze = .hard)
    (hrun : LabelledExecutions.exec (ConnectionRamp.step c) s labels = some t) :
    t.freeze = .hard ∧ t.allowedWorkers ≤ s.allowedWorkers := by
  have hend := @exec_invariant _ _ _
    (fun u => Inv c u ∧ u.freeze = .hard ∧ u.allowedWorkers ≤ s.allowedWorkers)
    (fun u label v hinv hstep => by
      obtain ⟨hinv',-,hkeep⟩ := hinv.1.step hstep
      obtain ⟨hfreeze,hle⟩ := hkeep hinv.2.1
      exact ⟨hinv',hfreeze,hle.trans hinv.2.2⟩)
    _ _ _ ⟨h,hhard,Nat.le_refl _⟩ hrun
  exact hend.2

/-- The quota stays within its bounds, what is meant to lower it never raises it, a hard freeze is
final, and the probes of a task are bounded. -/
theorem ramp_quota_kept (c : Setup) (labels : List (Label F)) (s : Ramp F)
    (h : exec (step c) (start c) labels = some s) :
    (1 ≤ s.allowedWorkers ∧ s.allowedWorkers ≤ c.workerCap) ∧
      s.softProbeTaskUsed ≤ rampSoftProbeTaskBudget ∧
      (∀ label t, Lowers c s label → step c s label = some t →
        t.allowedWorkers ≤ s.allowedWorkers) ∧
      (s.freeze = .hard → ∀ labels' t, exec (step c) s labels' = some t →
        t.freeze = .hard ∧ t.allowedWorkers ≤ s.allowedWorkers) := by
  have hinv : Inv c s := (Inv.start c).exec h
  refine ⟨⟨hinv.one_le,hinv.le_cap⟩,hinv.used_le,?_,?_⟩
  · intro label t hlowers hstep
    exact (hinv.step hstep).2.1 hlowers
  · intro hhard labels' t hrun
    exact hinv.hard_final hhard hrun

/-- In every run one worker more than twice the quota is alive at most, also after the quota that a
growth in evaluation goes back to. -/
theorem ramp_workers_bounded {c : Setup} {labels : List (Label F)} {s : Ramp F}
    (h : exec (step c) (start c) labels = some s) : Inv c s :=
  (Inv.start c).exec h

end

def setupSample : Setup where
  initialSegmentCount := 16
  allowHintUncap := false
  hintUncapMax := 64
  domainCap := none
  uncapCap := none
  uncapHint := none
  startHint := none
  initialHint := none
  pendingCount := 16
  openEnded := false
  sizeIsEstimate := false

def tickSample (throughput : ℚ) : Tick ℚ where
  dead := 0
  dtMs := 2000
  throughput := throughput
  bytes := 0
  total := 2 ^ 40
  allDone := false
  refill := 64
  regrow := 64
  probeSensitive := false
  expandSensitive := false

/-- Two growths to eight workers, a collapse back to four, and a rejection. -/
def labelsSample : List (Label ℚ) :=
  [.tick (tickSample 100), .tick (tickSample 200), .tick (tickSample 50), .reject true]

theorem ramp_quota_kept_sample :
    ∃ s : Ramp ℚ, exec (step setupSample) (start setupSample) labelsSample = some s ∧
      s.allowedWorkers = 4 ∧ s.freeze = .hard ∧
      (1 ≤ s.allowedWorkers ∧ s.allowedWorkers ≤ setupSample.workerCap) := by
  have hrun : ((exec (step setupSample) (start setupSample) labelsSample).any fun s : Ramp ℚ =>
      s.allowedWorkers = 4 ∧ s.freeze = .hard) = true := by decide +kernel
  obtain ⟨s,hs,hend⟩ := (any_eq_true _ _).mp hrun
  have hend' := of_decide_eq_true hend
  exact ⟨s,hs,hend'.1,hend'.2,(ramp_quota_kept setupSample labelsSample s hs).1⟩

theorem ramp_workers_bounded_sample :
    ∃ s : Ramp ℚ, exec (step setupSample) (start setupSample) labelsSample = some s ∧
      Inv setupSample s := by
  have hrun : (exec (step setupSample) (start setupSample) labelsSample : Option (Ramp ℚ)).isSome :=
    by decide +kernel
  exact (isSome_iff_exists.mp hrun).imp fun _ h => ⟨h,ramp_workers_bounded h⟩

end RinaDown.ConnectionRamp
