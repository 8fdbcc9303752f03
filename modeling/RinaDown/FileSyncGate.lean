import RinaDown.LabelledExecutions
import RinaDown.DurabilityLog
import RinaDown.SegmentLayout

/-!
# The file sync gate

Any number of workers write segments of one file through their own buffers and
share one gate, which serialises their syncs and lets a worker adopt the start
of another worker's sync as its watermark. A worker is at one point of
`do_segment`; whatever it waits for lies between two steps, so that a label is
one uninterrupted piece of one party's code.
-/

namespace RinaDown.FileSyncGate
open Std (TreeMap)
open OrderedMap SegmentLayout DurabilityLog LabelledExecutions List Option Function

/-- `MIN_SYNC_GAP` in nanoseconds. -/
def minSyncGap : ℕ := 2 * 1000000000

structure GateState where
  syncing : Bool
  lastCompletedStart : Option ℕ
  deriving DecidableEq, Repr

inductive Purpose where
  /-- `sync_if_stale` from the periodic save. -/
  | periodic
  /-- `sync_covering` from the completion. -/
  | completion
  deriving DecidableEq, Repr

inductive Decision where
  | adopt (start : ℕ)
  | wait
  | doSync
  deriving DecidableEq, Repr

def syncOrWait (g : GateState) : Decision := if g.syncing then .wait else .doSync

def syncIfStale (g : GateState) (now : ℕ) : Decision :=
  match g.lastCompletedStart with
  | some s => if now - s < minSyncGap then .adopt s else syncOrWait g
  | none => syncOrWait g

def syncCovering (g : GateState) (snapT : ℕ) : Decision :=
  match g.lastCompletedStart with
  | some s => if s ≥ snapT then .adopt s else syncOrWait g
  | none => syncOrWait g

def decision (g : GateState) (now snapT : ℕ) : Purpose → Decision
  | .periodic => syncIfStale g now
  | .completion => syncCovering g snapT

inductive Stage where
  /-- About to look at the gate. -/
  | deciding
  /-- `syncing` is set, `my_start` is not read yet. -/
  | starting
  /-- `sync_data` is running. -/
  | running (sync : Sync)
  deriving DecidableEq, Repr

inductive Phase where
  | idle
  | writing
  /-- The buffer is flushed, `snap_t` is not read yet. -/
  | flushed (purpose : Purpose)
  | syncing (purpose : Purpose) (snapT : ℕ) (stage : Stage)
  /-- `sync_covering` has returned, the completion row is not written yet. -/
  | completing
  deriving DecidableEq, Repr

structure Worker where
  seg : ℤ
  segDownloaded : ℤ
  /-- The first offset that is still in the write buffer. -/
  bufStart : ℤ
  durableOffset : ℤ
  pendingSnap : Option (ℤ × ℕ)
  phase : Phase
  deriving DecidableEq, Repr

/-- `reached` lists what got into `durable_progress`, into a batch or into a completion row, and
`coveringReturns` the calls of `sync_covering` with what they returned. -/
structure State where
  history : History ℤ
  gate : GateState
  workers : ℕ → Worker
  owner : ℤ → Option ℕ
  shared : ℤ → ℤ
  durableProgress : TreeMap ℤ ℤ
  reached : List (ℤ × ℤ)
  coveringReturns : List (ℕ × ℕ)

/-- The durable offset after a periodic sync, and what stays pending. -/
def commitSnapshot (wk : Worker) (snapT syncedStart : ℕ) : ℤ × Option (ℤ × ℕ) :=
  if syncedStart ≥ snapT then (wk.segDownloaded, none)
  else
    (match wk.pendingSnap with
      | some (off, t) => if syncedStart ≥ t then off else wk.durableOffset
      | none => wk.durableOffset, some (wk.segDownloaded, snapT))

def setWorker (st : State) (w : ℕ) (wk : Worker) : State :=
  { st with workers := Function.update st.workers w wk }

/-- What the worker does with the start instant that its sync call has returned. -/
def afterSync (st : State) (w : ℕ) (wk : Worker) (snapT syncedStart : ℕ) : Purpose → State
  | .periodic =>
    let r := commitSnapshot wk snapT syncedStart
    let st' := setWorker st w
      { wk with durableOffset := r.1, pendingSnap := r.2, phase := .writing }
    if r.1 ≠ wk.durableOffset then
      { st' with
        durableProgress := st.durableProgress.insert wk.seg r.1
        reached := (wk.seg, r.1) :: st.reached }
    else st'
  | .completion =>
    { setWorker st w { wk with phase := .completing } with
      coveringReturns := (snapT, syncedStart) :: st.coveringReturns }

def endAttempt (st : State) (w : ℕ) (wk : Worker) : State :=
  { setWorker st w { wk with phase := .idle } with owner := Function.update st.owner wk.seg none }

/-- What `take_durable_progress_rows` passes on to the batch: index, bytes and start. -/
def takeDurableProgressRows (durableProgress : TreeMap ℤ ℤ) (segments : SegmentMap) :
    List (ℤ × ℤ × ℤ) :=
  durableProgress.toList.filterMap (fun p =>
    match segments[p.1]? with
    | none => none
    | some seg =>
      if seg.state = .completed then none
      else some (p.1, max (min p.2 seg.size) 0, seg.startByte))

inductive Label where
  | tick (d : ℕ)
  /-- An attempt on a segment nobody else is on, from progress recorded in the shared state. -/
  | begin (w : ℕ) (seg downloaded : ℤ)
  | write (w : ℕ) (n : ℤ)
  /-- The buffer passes on a part of its content by itself. -/
  | spill (w : ℕ) (upTo : ℤ)
  | flush (w : ℕ) (purpose : Purpose)
  | snapshot (w : ℕ)
  | decide (w : ℕ)
  | readStart (w : ℕ)
  | finish (w : ℕ) (ok : Bool)
  | persist (w : ℕ)
  /-- The exits on cancel, stall and stream error, which flush and do not use the gate. -/
  | abort (w : ℕ)
  | drain (segments : SegmentMap)

def step (st : State) : Label → Option State
  | .tick d => some { st with history := st.history.tick d }
  | .begin w seg downloaded =>
    if (st.workers w).phase = .idle ∧ st.owner seg = none ∧ 0 ≤ downloaded ∧
        downloaded ≤ st.shared seg then
      some { setWorker st w ⟨seg,downloaded,downloaded,downloaded,none,.writing⟩ with
        history := st.history.tick 0, owner := Function.update st.owner seg (some w) }
    else none
  | .write w n =>
    let wk := st.workers w
    if wk.phase = .writing ∧ 0 ≤ n then
      some { setWorker st w { wk with segDownloaded := wk.segDownloaded + n } with
        history := st.history.tick 0
        shared := Function.update st.shared wk.seg (wk.segDownloaded + n) }
    else none
  | .spill w upTo =>
    let wk := st.workers w
    if wk.phase = .writing ∧ wk.bufStart ≤ upTo ∧ upTo ≤ wk.segDownloaded then
      some { setWorker st w { wk with bufStart := upTo } with
        history := st.history.flush wk.seg wk.bufStart upTo }
    else none
  | .flush w purpose =>
    let wk := st.workers w
    if wk.phase = .writing then
      some { setWorker st w { wk with bufStart := wk.segDownloaded, phase := .flushed purpose } with
        history := st.history.flush wk.seg wk.bufStart wk.segDownloaded }
    else none
  | .snapshot w =>
    let wk := st.workers w
    match wk.phase with
    | .flushed purpose =>
      some { setWorker st w { wk with phase := .syncing purpose st.history.now .deciding } with
        history := st.history.tick 0 }
    | _ => none
  | .decide w =>
    let wk := st.workers w
    match wk.phase with
    | .syncing purpose snapT .deciding =>
      match decision st.gate st.history.now snapT purpose with
      | .adopt s => some (afterSync { st with history := st.history.tick 0 } w wk snapT s purpose)
      | .wait => some { st with history := st.history.tick 0 }
      | .doSync =>
        some { setWorker st w { wk with phase := .syncing purpose snapT .starting } with
          history := st.history.tick 0, gate := { st.gate with syncing := true } }
    | _ => none
  | .readStart w =>
    let wk := st.workers w
    match wk.phase with
    | .syncing purpose snapT .starting =>
      let sync : Sync := ⟨st.history.seq,st.history.now⟩
      some { setWorker st w { wk with phase := .syncing purpose snapT (.running sync) } with
        history := st.history.start }
    | _ => none
  | .finish w ok =>
    let wk := st.workers w
    match wk.phase with
    | .syncing purpose snapT (.running sync) =>
      if ok then
        some (afterSync { st with
          history := st.history.complete sync
          gate := ⟨false,some sync.start⟩ } w wk snapT sync.start purpose)
      else
        some (endAttempt { st with
          history := st.history.tick 0
          gate := { st.gate with syncing := false } } w wk)
    | _ => none
  | .persist w =>
    let wk := st.workers w
    if wk.phase = .completing then
      some (endAttempt { st with
        history := st.history.tick 0
        shared := Function.update st.shared wk.seg wk.segDownloaded
        reached := (wk.seg, wk.segDownloaded) :: st.reached } w wk)
    else none
  | .abort w =>
    let wk := st.workers w
    if wk.phase = .writing then
      some (endAttempt { st with
        history := st.history.flush wk.seg wk.bufStart wk.segDownloaded
        shared := Function.update st.shared wk.seg wk.segDownloaded } w wk)
    else none
  | .drain segments =>
    some { st with
      history := st.history.tick 0
      durableProgress := ∅
      reached := (takeDurableProgressRows st.durableProgress segments).map
        (fun r => (r.1, r.2.1)) ++ st.reached }

/-- The shared progress of a run that resumes from the given rows. -/
def recorded (rows : List SegmentRow) (k : ℤ) : ℤ :=
  match rows.find? (fun r => r.index = k) with
  | some r => r.downloadedBytes
  | none => 0

/-- What the rows record was flushed by an earlier run. -/
def initial (rows : List SegmentRow) : State where
  history := ⟨1,0,rows.map (fun r => ⟨r.index,0,r.downloadedBytes,0⟩),[],[]⟩
  gate := ⟨false,none⟩
  workers := fun _ => ⟨0,0,0,0,none,.idle⟩
  owner := fun _ => none
  shared := recorded rows
  durableProgress := ∅
  reached := []
  coveringReturns := []

/-- Where a snapshot is taken, no sync has read the same instant as its start before the segment's
bytes were flushed. -/
def Careful (st : State) : Label → Prop
  | .snapshot w => ∀ s ∈ st.history.starts, s.start = st.history.now →
      ∀ f ∈ st.history.flushes, f.key = (st.workers w).seg → f.lo < f.hi → f.seq < s.seq
  | _ => True

instance (st : State) (a : Label) : Decidable (Careful st a) := by
  cases a <;> unfold Careful <;> infer_instance

def Holds (wk : Worker) : Prop :=
  ∃ purpose snapT, wk.phase = .syncing purpose snapT .starting ∨
    ∃ sync, wk.phase = .syncing purpose snapT (.running sync)

/-- What `c` guards holds of careful runs only. -/
structure WorkerInv (c : Prop) (st : State) (w : ℕ) (wk : Worker) : Prop where
  owned : wk.phase ≠ .idle → st.owner wk.seg = some w
  buffer : wk.phase ≠ .idle →
    wk.bufStart ≤ wk.segDownloaded ∧ st.history.Flushed wk.seg wk.bufStart
  shared : wk.phase ≠ .idle →
    st.shared wk.seg ≤ wk.segDownloaded ∨ st.history.Flushed wk.seg (st.shared wk.seg)
  flushed : wk.phase ≠ .idle → wk.phase ≠ .writing → wk.bufStart = wk.segDownloaded
  pending : wk.phase ≠ .idle → ∀ off t, wk.pendingSnap = some (off, t) → c →
    st.history.FlushedBefore wk.seg off t
  snap : ∀ purpose snapT stage, wk.phase = .syncing purpose snapT stage →
    snapT ≤ st.history.now ∧ (c → st.history.FlushedBefore wk.seg wk.segDownloaded snapT)
  running : ∀ purpose snapT sync, wk.phase = .syncing purpose snapT (.running sync) →
    sync ∈ st.history.starts ∧ snapT ≤ sync.start ∧
      ∀ s, st.gate.lastCompletedStart = some s → s ≤ sync.start
  completing : wk.phase = .completing → c → st.history.Covered wk.seg wk.segDownloaded
  holds : Holds wk → st.gate.syncing = true

structure Inv (c : Prop) (st : State) : Prop where
  wellTimed : st.history.WellTimed
  last : ∀ s, st.gate.lastCompletedStart = some s → ∃ r ∈ st.history.syncs, r.start = s
  worker : ∀ w, WorkerInv c st w (st.workers w)
  holder : ∀ w w', Holds (st.workers w) → Holds (st.workers w') → w = w'
  free : ∀ seg, st.owner seg = none → st.history.Flushed seg (st.shared seg)
  durable : ∀ (k v : ℤ), st.durableProgress[k]? = some v → c → st.history.Covered k v
  reached : ∀ p ∈ st.reached, c → st.history.Covered p.1 p.2
  returns : ∀ p ∈ st.coveringReturns, p.1 ≤ p.2

variable {c : Prop}

variable {w : ℕ} {wk : Worker} {st st' : State} {hist : History ℤ} {g : GateState}
  {purpose : Purpose} {as : List Label}

theorem WorkerInv.frame (h : WorkerInv c st w wk) (hwell : st.history.WellTimed)
    (hext : st'.history.Extends st.history)
    (howner : st.owner wk.seg = some w → st'.owner wk.seg = some w)
    (hshared : st.owner wk.seg = some w → st'.shared wk.seg = st.shared wk.seg)
    (hgate : Holds wk → st'.gate = st.gate) : WorkerInv c st' w wk := by
  refine ⟨fun hp => howner (h.owned hp),fun hp => ?_,fun hp => ?_,h.flushed,
    fun hp off t ht hc => ?_,fun p t stage hp => ?_,fun p t sync hp => ?_,fun hp hc => ?_,
    fun hp => ?_⟩
  · exact ⟨(h.buffer hp).1,(h.buffer hp).2.mono hext le_rfl⟩
  · rw [hshared (h.owned hp)]
    exact (h.shared hp).imp id (fun hf => hf.mono hext le_rfl)
  · exact (h.pending hp off t ht hc).mono hwell hext
  · exact ⟨(h.snap p t stage hp).1.trans hext.now_le,
      fun hc => ((h.snap p t stage hp).2 hc).mono hwell hext⟩
  · obtain ⟨hs,ht,hlast⟩ := h.running p t sync hp
    rw [hgate ⟨p,t,.inr ⟨sync,hp⟩⟩]
    exact ⟨hext.starts hs,ht,hlast⟩
  · exact (h.completing hp hc).mono hext le_rfl
  · rw [hgate hp]
    exact h.holds hp

/-- What a step of worker `w` has to show: the rest of the invariant is framed. -/
theorem Inv.update (h : Inv c st) (w : ℕ) (hext : st'.history.Extends st.history)
    (hwell : st'.history.WellTimed) (hothers : ∀ v, v ≠ w → st'.workers v = st.workers v)
    (howner : ∀ v seg, v ≠ w → st.owner seg = some v → st'.owner seg = some v ∧ st'.shared seg = st.shared seg)
    (hgate : ∀ v, v ≠ w → Holds (st.workers v) → st'.gate = st.gate)
    (hlast : ∀ s, st'.gate.lastCompletedStart = some s → ∃ r ∈ st'.history.syncs, r.start = s)
    (hw : WorkerInv c st' w (st'.workers w))
    (hholder : Holds (st'.workers w) → ∀ v, v ≠ w → ¬ Holds (st.workers v))
    (hfree : ∀ seg, st'.owner seg = none → st'.history.Flushed seg (st'.shared seg))
    (hdurable : ∀ (k v : ℤ), st'.durableProgress[k]? = some v → c → st'.history.Covered k v)
    (hreached : ∀ p ∈ st'.reached, c → st'.history.Covered p.1 p.2)
    (hreturns : ∀ p ∈ st'.coveringReturns, p.1 ≤ p.2) : Inv c st' := by
  refine ⟨hwell,hlast,fun v => ?_,fun v v' hv hv' => ?_,hfree,hdurable,hreached,hreturns⟩
  · by_cases hvw : v = w
    · exact hvw ▸ hw
    · rw [hothers v hvw]
      exact (h.worker v).frame h.wellTimed hext (fun ho => (howner v _ hvw ho).1)
        (fun ho => (howner v _ hvw ho).2) (hgate v hvw)
  · by_cases hvw : v = w
    · by_cases hvw' : v' = w
      · rw [hvw, hvw']
      · rw [hothers v' hvw'] at hv'
        exact absurd hv' (hholder (hvw ▸ hv) v' hvw')
    · rw [hothers v hvw] at hv
      by_cases hvw' : v' = w
      · exact absurd hv (hholder (hvw' ▸ hv') v hvw)
      · rw [hothers v' hvw'] at hv'
        exact h.holder v v' hv hv'

theorem WorkerInv.setPhase (h : WorkerInv c st w wk) (hne : wk.phase ≠ .idle) {ph : Phase}
    (hflushed : ph ≠ .writing → wk.bufStart = wk.segDownloaded)
    (hsnap : ∀ purpose snapT stage, ph = .syncing purpose snapT stage → snapT ≤ st.history.now ∧
      (c → st.history.FlushedBefore wk.seg wk.segDownloaded snapT))
    (hrunning : ∀ purpose snapT sync, ph = .syncing purpose snapT (.running sync) →
      sync ∈ st.history.starts ∧ snapT ≤ sync.start ∧ ∀ s, st.gate.lastCompletedStart = some s →
      s ≤ sync.start)
    (hcompleting : ph = .completing → c → st.history.Covered wk.seg wk.segDownloaded)
    (hholds : Holds { wk with phase := ph } → st.gate.syncing = true) :
    WorkerInv c st w { wk with phase := ph } :=
  ⟨fun _ => h.owned hne,fun _ => h.buffer hne,fun _ => h.shared hne,
    fun _ hw => hflushed hw,fun _ => h.pending hne,hsnap,hrunning,hcompleting,hholds⟩

theorem workerInv_idle (hp : wk.phase = .idle) :
    WorkerInv c st w wk := by
  refine ⟨fun h => absurd hp h,fun h => absurd hp h,fun h => absurd hp h,fun h => absurd hp h,
    fun h => absurd hp h,fun _ _ _ h => ?_,fun _ _ _ h => ?_,fun h => ?_,fun h => ?_⟩
  · simp [hp] at h
  · simp [hp] at h
  · simp [hp] at h
  · obtain ⟨_,_,h | ⟨_,h⟩⟩ := h <;> simp [hp] at h

theorem WorkerInv.extend {v : ℕ} {wk' : Worker} (h : WorkerInv c st v wk)
    (hwell : st.history.WellTimed) (hext : hist.Extends st.history) :
    WorkerInv c { setWorker st w wk' with history := hist } v wk :=
  h.frame hwell hext id (fun _ => rfl) (fun _ => rfl)

theorem Inv.move (h : Inv c st) (w : ℕ) (hext : hist.Extends st.history) (hwell : hist.WellTimed)
    (hw : WorkerInv c { setWorker st w wk with history := hist } w wk)
    (hholder : Holds wk → ∀ v, v ≠ w → ¬ Holds (st.workers v)) :
    Inv c { setWorker st w wk with history := hist } := by
  refine h.update w hext hwell (fun v hv => by simp [setWorker, hv])
    (fun v seg _ ho => ⟨ho,rfl⟩) (fun _ _ _ => rfl) (fun s hs => ?_) (by simpa [setWorker] using hw)
    (by simpa [setWorker] using hholder) (fun seg ho => ?_) (fun k v hk hc => ?_) (fun p hp hc => ?_)
    h.returns
  · obtain ⟨r,hr,hrs⟩ := h.last s hs
    exact ⟨r,hext.syncs hr,hrs⟩
  · exact (h.free seg ho).mono hext le_rfl
  · exact (h.durable k v hk hc).mono hext le_rfl
  · exact (h.reached p hp hc).mono hext le_rfl

theorem Inv.tick (h : Inv c st) (d : ℕ) :
    Inv c { st with history := st.history.tick d } := by
  have hext := History.extends_tick st.history d
  have hsame : { setWorker st 0 (st.workers 0) with history := st.history.tick d } =
      { st with history := st.history.tick d } := by
    simp [setWorker]
  rw [← hsame]
  refine h.move 0 hext (h.wellTimed.tick d) ?_ (fun hv v hne hv' => ?_)
  · exact (h.worker 0).frame h.wellTimed hext id (fun _ => rfl) (fun _ => rfl)
  · exact hne (h.holder v 0 hv' hv)

theorem commitSnapshot_cases (wk : Worker) (snapT syncedStart : ℕ) :
    ((commitSnapshot wk snapT syncedStart).1 = wk.durableOffset ∨
      (syncedStart ≥ snapT ∧ (commitSnapshot wk snapT syncedStart).1 = wk.segDownloaded) ∨
      ∃ t, wk.pendingSnap = some ((commitSnapshot wk snapT syncedStart).1, t) ∧ syncedStart ≥ t) ∧
    ((commitSnapshot wk snapT syncedStart).2 = none ∨
      (commitSnapshot wk snapT syncedStart).2 = some (wk.segDownloaded, snapT)) := by
  unfold commitSnapshot
  split_ifs with hnew
  · exact ⟨.inr (.inl ⟨hnew,rfl⟩),.inl rfl⟩
  · refine ⟨?_,.inr rfl⟩
    cases hpend : wk.pendingSnap with
    | none => exact .inl rfl
    | some r =>
      obtain ⟨off,t⟩ := r
      simp only
      split_ifs with hold
      · exact .inr (.inr ⟨t,rfl,hold⟩)
      · exact .inl rfl

/-- A sync call that returns the start of a completed sync, for `sync_covering` not before the
snapshot. -/
theorem inv_afterSync (h : Inv c st) {snapT s : ℕ} {stage : Stage}
    (hphase : (st.workers w).phase = .syncing purpose snapT stage) (hext : hist.Extends st.history)
    (hwell : hist.WellTimed) (hgate : ∀ v, v ≠ w → Holds (st.workers v) → g = st.gate)
    (hlast : ∀ r, g.lastCompletedStart = some r → ∃ q ∈ hist.syncs, q.start = r)
    (hs : ∃ q ∈ hist.syncs, q.start = s) (hcover : purpose = .completion → snapT ≤ s) :
    Inv c (afterSync { st with history := hist, gate := g } w (st.workers w) snapT s purpose) := by
  have hne : (st.workers w).phase ≠ .idle := by simp [hphase]
  have hwk := h.worker w
  obtain ⟨hle,hsnap⟩ := hwk.snap _ _ _ hphase
  have hbuf : (st.workers w).bufStart = (st.workers w).segDownloaded :=
    hwk.flushed hne (by simp [hphase])
  obtain ⟨q,hq,rfl⟩ := hs
  have hnotHolds : ∀ {wk : Worker}, (wk.phase = .writing ∨ wk.phase = .completing) → ¬ Holds wk := by
    rintro wk (hp | hp) ⟨_,_,h | ⟨_,h⟩⟩ <;> simp [hp] at h
  have hshared := (hwk.shared hne).imp id (fun hf => hf.mono hext le_rfl)
  have hfree : ∀ seg, st.owner seg = none → hist.Flushed seg (st.shared seg) :=
    fun seg ho => (h.free seg ho).mono hext le_rfl
  have hdurable : ∀ (k v : ℤ), st.durableProgress[k]? = some v → c → hist.Covered k v :=
    fun k v hk hc => (h.durable k v hk hc).mono hext le_rfl
  have hreached : ∀ p ∈ st.reached, c → hist.Covered p.1 p.2 :=
    fun p hp hc => (h.reached p hp hc).mono hext le_rfl
  have hbefore : c → hist.FlushedBefore (st.workers w).seg (st.workers w).segDownloaded snapT :=
    fun hc => (hsnap hc).mono h.wellTimed hext
  cases purpose with
  | completion =>
    have hcov : c → hist.Covered (st.workers w).seg (st.workers w).segDownloaded :=
      fun hc => (hbefore hc).covered hwell hq (hcover rfl)
    refine h.update w hext hwell (fun v hv => by simp [afterSync, setWorker, hv])
      (fun v seg _ ho => ⟨ho,rfl⟩) hgate hlast ?_ ?_ hfree hdurable hreached ?_
    · simp only [afterSync, setWorker, update_self]
      exact ⟨fun _ => hwk.owned hne,
        fun _ => ⟨hbuf.le,(hwk.buffer hne).2.mono hext le_rfl⟩,fun _ => hshared,
        fun _ _ => hbuf,fun _ off t ht hc => (hwk.pending hne off t ht hc).mono h.wellTimed hext,
        fun _ _ _ hp => by simp at hp,fun _ _ _ hp => by simp at hp,fun _ => hcov,
        fun hp => absurd hp (hnotHolds (.inr rfl))⟩
    · simp only [afterSync, setWorker, update_self]
      exact fun hp => absurd hp (hnotHolds (.inr rfl))
    · intro p hp
      rcases mem_cons.mp hp with rfl | hp
      · exact hcover rfl
      · exact h.returns p hp
  | periodic =>
    obtain ⟨hdur,hpend⟩ := commitSnapshot_cases (st.workers w) snapT q.start
    have hnew : (commitSnapshot (st.workers w) snapT q.start).1 ≠ (st.workers w).durableOffset →
        c → hist.Covered (st.workers w).seg (commitSnapshot (st.workers w) snapT q.start).1 := by
      intro hchanged hc
      rcases hdur with hsame | ⟨hge,hval⟩ | ⟨t,ht,hge⟩
      · exact absurd hsame hchanged
      · rw [hval]
        exact (hbefore hc).covered hwell hq hge
      · exact ((hwk.pending hne _ t ht hc).mono h.wellTimed hext).covered hwell hq hge
    have hworker : ∀ st' : State, st'.history = hist → st'.owner = st.owner →
        st'.shared = st.shared → WorkerInv c st' w { st.workers w with
          durableOffset := (commitSnapshot (st.workers w) snapT q.start).1
          pendingSnap := (commitSnapshot (st.workers w) snapT q.start).2
          phase := .writing } := by
      intro st' hhist hown hsh
      refine ⟨fun _ => by rw [hown]; exact hwk.owned hne,fun _ => ?_,fun _ => ?_,
        fun _ hp => absurd rfl hp,fun _ off t ht hc => ?_,fun _ _ _ hp => by simp at hp,
        fun _ _ _ hp => by simp at hp,fun hp => by simp at hp,
        fun hp => absurd hp (hnotHolds (.inl rfl))⟩
      · rw [hhist]
        exact ⟨hbuf.le,(hwk.buffer hne).2.mono hext le_rfl⟩
      · rw [hhist, hsh]
        exact hshared
      · rw [hhist]
        rcases hpend with hnone | hsome
        · rw [hnone] at ht
          simp at ht
        · rw [hsome, some.injEq, Prod.mk.injEq] at ht
          obtain ⟨rfl,rfl⟩ := ht
          exact hbefore hc
    simp only [afterSync]
    split_ifs with hchanged
    · refine h.update w hext hwell (fun v hv => by simp [setWorker, hv])
        (fun v seg _ ho => ⟨ho,rfl⟩) hgate hlast ?_ ?_ hfree (fun k v hk => ?_) (fun p hp => ?_)
        h.returns
      · simp only [setWorker, update_self]
        exact hworker _ rfl rfl rfl
      · simp only [setWorker, update_self]
        exact fun hp => absurd hp (hnotHolds (.inl rfl))
      · simp only [getElem?_insert_eq] at hk
        split_ifs at hk with hkey
        · rw [some.injEq] at hk
          rw [hkey, ← hk]
          exact hnew hchanged
        · exact hdurable k v hk
      · rcases mem_cons.mp hp with rfl | hp
        · exact hnew hchanged
        · exact hreached p hp
    · refine h.update w hext hwell (fun v hv => by simp [setWorker, hv])
        (fun v seg _ ho => ⟨ho,rfl⟩) hgate hlast ?_ ?_ hfree hdurable hreached h.returns
      · simp only [setWorker, update_self]
        exact hworker _ rfl rfl rfl
      · simp only [setWorker, update_self]
        exact fun hp => absurd hp (hnotHolds (.inl rfl))

/-- The end of an attempt whose buffer has been flushed: the segment is free again. -/
theorem inv_endAttempt (h : Inv c st) {shared : ℤ → ℤ} {reached : List (ℤ × ℤ)}
    (hne : (st.workers w).phase ≠ .idle) (hext : hist.Extends st.history) (hwell : hist.WellTimed)
    (hgate : ∀ v, v ≠ w → Holds (st.workers v) → g = st.gate)
    (hlast : ∀ r, g.lastCompletedStart = some r → ∃ q ∈ hist.syncs, q.start = r)
    (hshared : ∀ seg, seg ≠ (st.workers w).seg → shared seg = st.shared seg)
    (hflushed : hist.Flushed (st.workers w).seg (shared (st.workers w).seg))
    (hreached : ∀ p ∈ reached, c → hist.Covered p.1 p.2) :
    Inv c (endAttempt { st with history := hist, gate := g, shared := shared, reached := reached } w
      (st.workers w)) := by
  have hown := (h.worker w).owned hne
  have hnotHolds : ¬ Holds { st.workers w with phase := .idle } := by
    rintro ⟨_,_,h | ⟨_,h⟩⟩ <;> simp at h
  have hother : ∀ v seg, v ≠ w → st.owner seg = some v → seg ≠ (st.workers w).seg := by
    rintro v seg hv ho rfl
    rw [hown, some.injEq] at ho
    exact hv ho.symm
  refine h.update w hext hwell (fun v hv => by simp [endAttempt, setWorker, hv])
    (fun v seg hv ho => ?_) hgate hlast ?_ ?_ (fun seg ho => ?_)
    (fun k v hk hc => (h.durable k v hk hc).mono hext le_rfl) hreached h.returns
  · simp only [endAttempt, setWorker, update_of_ne (hother v seg hv ho)]
    exact ⟨ho,hshared seg (hother v seg hv ho)⟩
  · simp only [endAttempt, setWorker, update_self]
    exact workerInv_idle rfl
  · simp only [endAttempt, setWorker, update_self]
    exact fun hp => absurd hp hnotHolds
  · by_cases hseg : seg = (st.workers w).seg
    · rw [hseg]
      exact hflushed
    · simp only [endAttempt, setWorker, update_of_ne hseg] at ho ⊢
      rw [hshared seg hseg]
      exact (h.free seg ho).mono hext le_rfl

theorem inv_initial (rows : List SegmentRow) : Inv c (initial rows) := by
  refine ⟨⟨fun f hf => ?_,by simp [initial],by simp [initial]⟩,by simp [initial],
    fun w => workerInv_idle rfl,?_,?_,by simp [initial],by simp [initial],by simp [initial]⟩
  · obtain ⟨r,-,rfl⟩ := mem_map.mp hf
    exact Nat.zero_lt_one
  · rintro w w' ⟨_,_,h | ⟨_,h⟩⟩ <;> simp [initial] at h
  · intro seg _ b hb0 hb
    simp only [initial, recorded] at hb
    cases hfind : rows.find? (fun r => r.index = seg) with
    | none =>
      simp only [hfind] at hb
      omega
    | some r =>
      simp only [hfind] at hb
      have hidx := find?_some hfind
      refine ⟨⟨r.index,0,r.downloadedBytes,0⟩,?_,by simpa using hidx,hb0,hb⟩
      exact mem_map.mpr ⟨r,mem_of_find?_eq_some hfind,rfl⟩

theorem inv_begin (h : Inv c st) {seg downloaded : ℤ}
    (hstep : step st (.begin w seg downloaded) = some st') : Inv c st' := by
  simp only [step] at hstep
  split_ifs at hstep with hguard
  obtain ⟨hidle,hfree,hd0,hd⟩ := hguard
  cases hstep
  have hext := History.extends_tick st.history 0
  have hflushed := (h.free seg hfree).mono hext le_rfl
  have hnotHolds : ¬ Holds ⟨seg,downloaded,downloaded,downloaded,none,.writing⟩ := by
    rintro ⟨_,_,h | ⟨_,h⟩⟩ <;> simp at h
  have hother : ∀ v s, st.owner s = some v → s ≠ seg := by
    rintro v s ho rfl
    simp [hfree] at ho
  refine h.update w hext (h.wellTimed.tick 0)
    (fun v hv => by simp [setWorker, hv]) (fun v s _ ho => ?_) (fun _ _ _ => rfl)
    h.last ?_ ?_ (fun s ho => ?_)
    (fun k v hk hc => (h.durable k v hk hc).mono hext le_rfl)
    (fun p hp hc => (h.reached p hp hc).mono hext le_rfl) h.returns
  · simp only [update_of_ne (hother v s ho)]
    exact ⟨ho,rfl⟩
  · simp only [setWorker, update_self]
    exact ⟨fun _ => by simp,fun _ => ⟨le_rfl,(h.free seg hfree).mono hext hd⟩,
      fun _ => .inr hflushed,fun _ hp => absurd rfl hp,
      fun _ off t ht => by simp at ht,fun _ _ _ hp => by simp at hp,
      fun _ _ _ hp => by simp at hp,fun hp => by simp at hp,fun hp => absurd hp hnotHolds⟩
  · simp only [setWorker, update_self]
    exact fun hp => absurd hp hnotHolds
  · by_cases hs : s = seg
    · simp [hs] at ho
    · simp only [update_of_ne hs] at ho
      exact (h.free s ho).mono hext le_rfl

theorem not_holds_of_writing (hp : wk.phase = .writing) : ¬ Holds wk := by
  rintro ⟨_,_,h | ⟨_,h⟩⟩ <;> simp [hp] at h

theorem inv_write (h : Inv c st) {n : ℤ} (hstep : step st (.write w n) = some st') : Inv c st' := by
  simp only [step] at hstep
  split_ifs at hstep with hguard
  obtain ⟨hp,hn⟩ := hguard
  cases hstep
  have hext := History.extends_tick st.history 0
  have hne : (st.workers w).phase ≠ .idle := by simp [hp]
  have hwk := h.worker w
  have hother : ∀ v seg, v ≠ w → st.owner seg = some v → seg ≠ (st.workers w).seg := by
    rintro v seg hv ho rfl
    rw [hwk.owned hne, some.injEq] at ho
    exact hv ho.symm
  refine h.update w hext (h.wellTimed.tick 0)
    (fun v hv => by simp [setWorker, hv]) (fun v seg hv ho => ⟨ho,?_⟩) (fun _ _ _ => rfl)
    h.last ?_ ?_ (fun seg ho => ?_)
    (fun k v hk hc => (h.durable k v hk hc).mono hext le_rfl)
    (fun p hp hc => (h.reached p hp hc).mono hext le_rfl) h.returns
  · simp only [update_of_ne (hother v seg hv ho)]
  · simp only [setWorker, update_self]
    have hb := hwk.buffer hne
    refine ⟨fun _ => hwk.owned hne,fun _ => ⟨by simp only; omega,hb.2.mono hext le_rfl⟩,
      fun _ => .inl (by simp),fun _ hw => absurd hp hw,
      fun _ off t ht hc => (hwk.pending hne off t ht hc).mono h.wellTimed hext,
      fun _ _ _ hs => ?_,fun _ _ _ hs => ?_,fun hs => ?_,
      fun hs => absurd hs (not_holds_of_writing hp)⟩
    · simp [hp] at hs
    · simp [hp] at hs
    · simp [hp] at hs
  · simp only [setWorker, update_self]
    exact fun hs => absurd hs (not_holds_of_writing hp)
  · have hseg : seg ≠ (st.workers w).seg := by
      rintro rfl
      simp [setWorker, hwk.owned hne] at ho
    simp only [update_of_ne hseg]
    exact (h.free seg ho).mono hext le_rfl

theorem inv_spill (h : Inv c st) {upTo : ℤ} (hstep : step st (.spill w upTo) = some st') :
    Inv c st' := by
  simp only [step] at hstep
  split_ifs at hstep with hguard
  obtain ⟨hp,hlo,hhi⟩ := hguard
  cases hstep
  have hne : (st.workers w).phase ≠ .idle := by simp [hp]
  have hwk := h.worker w
  have hext := History.extends_flush st.history (st.workers w).seg (st.workers w).bufStart upTo
  refine h.move w hext (h.wellTimed.flush _ _ _) ?_
    (fun hs => absurd hs (not_holds_of_writing hp))
  refine ⟨fun _ => hwk.owned hne,fun _ => ⟨hhi,(hwk.buffer hne).2.flush⟩,
    fun _ => (hwk.shared hne).imp id (fun hf => hf.mono hext le_rfl),
    fun _ hw => absurd hp hw,fun _ off t ht hc => (hwk.pending hne off t ht hc).mono h.wellTimed hext,
    fun _ _ _ hs => ?_,fun _ _ _ hs => ?_,fun hs => ?_,
    fun hs => absurd hs (not_holds_of_writing hp)⟩
  · simp [hp] at hs
  · simp [hp] at hs
  · simp [hp] at hs

theorem inv_flush (h : Inv c st) (hstep : step st (.flush w purpose) = some st') : Inv c st' := by
  simp only [step] at hstep
  split_ifs at hstep with hp
  cases hstep
  have hne : (st.workers w).phase ≠ .idle := by simp [hp]
  have hwk := h.worker w
  have hext := History.extends_flush st.history (st.workers w).seg (st.workers w).bufStart
    (st.workers w).segDownloaded
  have hnotHolds : ∀ {wk : Worker}, wk.phase = .flushed purpose → ¬ Holds wk := by
    rintro wk hp ⟨_,_,h | ⟨_,h⟩⟩ <;> simp [hp] at h
  refine h.move w hext (h.wellTimed.flush _ _ _) ?_ (fun hs => absurd hs (hnotHolds rfl))
  exact ⟨fun _ => hwk.owned hne,fun _ => ⟨le_rfl,(hwk.buffer hne).2.flush⟩,
    fun _ => (hwk.shared hne).imp id (fun hf => hf.mono hext le_rfl),fun _ _ => rfl,
    fun _ off t ht hc => (hwk.pending hne off t ht hc).mono h.wellTimed hext,
    fun _ _ _ hs => by simp at hs,fun _ _ _ hs => by simp at hs,fun hs => by simp at hs,
    fun hs => absurd hs (hnotHolds rfl)⟩

theorem inv_snapshot (h : Inv c st) (hcareful : c → Careful st (.snapshot w))
    (hstep : step st (.snapshot w) = some st') : Inv c st' := by
  simp only [step] at hstep
  split at hstep <;> cases hstep
  rename_i purpose hp
  have hne : (st.workers w).phase ≠ .idle := by simp [hp]
  have hext := History.extends_tick st.history 0
  have hbuf := (h.worker w).flushed hne (by simp [hp])
  have hflushed := ((h.worker w).buffer hne).2
  rw [hbuf] at hflushed
  have hnotHolds : ¬ Holds { st.workers w with
      phase := .syncing purpose st.history.now .deciding } := by
    rintro ⟨_,_,h | ⟨_,h⟩⟩ <;> simp at h
  refine h.move w hext (h.wellTimed.tick 0) ?_ (fun hs => absurd hs hnotHolds)
  refine ((h.worker w).extend h.wellTimed hext).setPhase hne
    (fun _ => hbuf) (fun p t stage hs => ?_) (fun _ _ _ hs => by simp at hs) (fun hs => by simp at hs)
    (fun hs => absurd hs hnotHolds)
  simp only [Phase.syncing.injEq] at hs
  obtain ⟨-,rfl,-⟩ := hs
  exact ⟨le_rfl,fun hc => (hflushed.before h.wellTimed (hcareful hc)).mono h.wellTimed hext⟩

theorem decision_adopt {now snapT s : ℕ} (h : decision g now snapT purpose = .adopt s) :
    g.lastCompletedStart = some s ∧ (purpose = .completion → snapT ≤ s) := by
  have hnot : syncOrWait g ≠ .adopt s := by
    unfold syncOrWait
    split_ifs <;> simp
  cases purpose with
  | periodic =>
    simp only [decision, syncIfStale] at h
    split at h
    · rename_i r hr
      split_ifs at h
      · simp only [Decision.adopt.injEq] at h
        exact ⟨by rw [hr, h],fun hc => by simp at hc⟩
      · exact absurd h hnot
    · exact absurd h hnot
  | completion =>
    simp only [decision, syncCovering] at h
    split at h
    · rename_i r hr
      split_ifs at h with hge
      · simp only [Decision.adopt.injEq] at h
        exact ⟨by rw [hr, h],fun _ => by omega⟩
      · exact absurd h hnot
    · exact absurd h hnot

theorem decision_doSync {now snapT : ℕ} (h : decision g now snapT purpose = .doSync) :
    g.syncing = false := by
  have hsync : syncOrWait g = .doSync → g.syncing = false := by
    unfold syncOrWait
    split_ifs with hs <;> simp [hs]
  cases purpose with
  | periodic =>
    simp only [decision, syncIfStale] at h
    split at h
    · split_ifs at h
      exact hsync h
    · exact hsync h
  | completion =>
    simp only [decision, syncCovering] at h
    split at h
    · split_ifs at h
      exact hsync h
    · exact hsync h

theorem inv_decide (h : Inv c st) (hstep : step st (.decide w) = some st') : Inv c st' := by
  have hext := History.extends_tick st.history 0
  simp only [step] at hstep
  split at hstep
  · rename_i purpose snapT hp
    have hne : (st.workers w).phase ≠ .idle := by simp [hp]
    cases hdec : decision st.gate st.history.now snapT purpose with
    | adopt s =>
      simp only [hdec, some.injEq] at hstep
      subst hstep
      obtain ⟨hs,hcover⟩ := decision_adopt hdec
      exact inv_afterSync h hp hext (h.wellTimed.tick 0) (fun _ _ _ => rfl) h.last
        (h.last s hs) hcover
    | wait =>
      simp only [hdec, some.injEq] at hstep
      exact hstep ▸ h.tick 0
    | doSync =>
      simp only [hdec, some.injEq] at hstep
      subst hstep
      have hfree := decision_doSync hdec
      have hnone : ∀ v, ¬ Holds (st.workers v) := by
        intro v hv
        have := (h.worker v).holds hv
        simp [hfree] at this
      refine h.update w hext (h.wellTimed.tick 0) (fun v hv => by simp [setWorker, hv])
        (fun v seg _ ho => ⟨ho,rfl⟩) (fun v _ hv => absurd hv (hnone v)) h.last ?_
        (fun _ v _ => hnone v) (fun seg ho => (h.free seg ho).mono hext le_rfl)
        (fun k v hk hc => (h.durable k v hk hc).mono hext le_rfl)
        (fun p hp hc => (h.reached p hp hc).mono hext le_rfl) h.returns
      have hframe : WorkerInv c { setWorker st w { st.workers w with
            phase := .syncing purpose snapT .starting } with
          history := st.history.tick 0, gate := { st.gate with syncing := true } } w
          (st.workers w) :=
        (h.worker w).frame h.wellTimed hext id (fun _ => rfl) (fun hv => absurd hv (hnone w))
      simp only [setWorker, update_self]
      refine hframe.setPhase hne
        (fun _ => (h.worker w).flushed hne (by simp [hp])) (fun p t stage hs => ?_)
        (fun _ _ _ hs => by simp at hs) (fun hs => by simp at hs) (fun _ => rfl)
      simp only [Phase.syncing.injEq] at hs
      obtain ⟨-,rfl,-⟩ := hs
      obtain ⟨hle,hf⟩ := (h.worker w).snap _ _ _ hp
      exact ⟨hle.trans hext.now_le,fun hc => (hf hc).mono h.wellTimed hext⟩
  · cases hstep

theorem inv_readStart (h : Inv c st) (hstep : step st (.readStart w) = some st') : Inv c st' := by
  simp only [step] at hstep
  split at hstep <;> cases hstep
  rename_i purpose snapT hp
  have hext := History.extends_start st.history
  have hne : (st.workers w).phase ≠ .idle := by simp [hp]
  have hholds : Holds (st.workers w) := ⟨purpose,snapT,.inl hp⟩
  obtain ⟨hle,hf⟩ := (h.worker w).snap _ _ _ hp
  refine h.move w hext h.wellTimed.start ?_
    (fun _ v hv hholds' => hv (h.holder v w hholds' hholds))
  refine ((h.worker w).extend h.wellTimed hext).setPhase hne
    (fun _ => (h.worker w).flushed hne (by simp [hp])) (fun p t stage hs => ?_)
    (fun p t sync hs => ?_) (fun hs => by simp at hs) (fun _ => (h.worker w).holds hholds)
  · simp only [Phase.syncing.injEq] at hs
    obtain ⟨-,rfl,-⟩ := hs
    exact ⟨hle.trans hext.now_le,fun hc => (hf hc).mono h.wellTimed hext⟩
  · simp only [Phase.syncing.injEq, Stage.running.injEq] at hs
    obtain ⟨-,rfl,rfl⟩ := hs
    refine ⟨mem_cons_self,hle,fun s hs => ?_⟩
    obtain ⟨r,hr,rfl⟩ := h.last s hs
    exact h.wellTimed.start_le r (h.wellTimed.syncs hr)

theorem inv_finish (h : Inv c st) {ok : Bool} (hstep : step st (.finish w ok) = some st') :
    Inv c st' := by
  simp only [step] at hstep
  split at hstep
  · rename_i purpose snapT sync hp
    have hne : (st.workers w).phase ≠ .idle := by simp [hp]
    have hholds : Holds (st.workers w) := ⟨purpose,snapT,.inr ⟨sync,hp⟩⟩
    have honly : ∀ v, v ≠ w → Holds (st.workers v) → False :=
      fun v hv hv' => hv (h.holder v w hv' hholds)
    obtain ⟨hsync,hle,hmono⟩ := (h.worker w).running _ _ _ hp
    cases ok with
    | true =>
      simp only [if_true, some.injEq] at hstep
      subst hstep
      refine inv_afterSync h hp (History.extends_complete st.history sync)
        (h.wellTimed.complete hsync)
        (fun v hv hv' => (honly v hv hv').elim) (fun r hr => ?_) ⟨sync,mem_cons_self,rfl⟩
        (fun _ => hle)
      simp only [some.injEq] at hr
      subst hr
      exact ⟨sync,mem_cons_self,rfl⟩
    | false =>
      simp only [Bool.false_eq_true, if_false, some.injEq] at hstep
      subst hstep
      have hext := History.extends_tick st.history 0
      have hbuf := (h.worker w).buffer hne
      rw [(h.worker w).flushed hne (by simp [hp])] at hbuf
      refine inv_endAttempt h hne hext (h.wellTimed.tick 0)
        (fun v hv hv' => (honly v hv hv').elim)
        h.last (fun _ _ => rfl) ?_
        (fun p hp hc => (h.reached p hp hc).mono hext le_rfl)
      rcases (h.worker w).shared hne with hshared | hshared
      · exact hbuf.2.mono hext hshared
      · exact hshared.mono hext le_rfl
  · cases hstep

theorem inv_persist (h : Inv c st) (hstep : step st (.persist w) = some st') : Inv c st' := by
  simp only [step] at hstep
  split_ifs at hstep with hp
  cases hstep
  have hext := History.extends_tick st.history 0
  have hne : (st.workers w).phase ≠ .idle := by simp [hp]
  have hbuf := (h.worker w).buffer hne
  rw [(h.worker w).flushed hne (by simp [hp])] at hbuf
  refine inv_endAttempt h hne hext (h.wellTimed.tick 0) (fun _ _ _ => rfl)
    h.last
    (fun seg hseg => by rw [update_of_ne hseg]) ?_ (fun p hmem hc => ?_)
  · rw [update_self]
    exact hbuf.2.mono hext le_rfl
  · rcases mem_cons.mp hmem with rfl | hmem
    · exact ((h.worker w).completing hp hc).mono hext le_rfl
    · exact (h.reached p hmem hc).mono hext le_rfl

theorem inv_abort (h : Inv c st) (hstep : step st (.abort w) = some st') : Inv c st' := by
  simp only [step] at hstep
  split_ifs at hstep with hp
  cases hstep
  have hne : (st.workers w).phase ≠ .idle := by simp [hp]
  have hext := History.extends_flush st.history (st.workers w).seg (st.workers w).bufStart
    (st.workers w).segDownloaded
  refine inv_endAttempt h hne hext (h.wellTimed.flush _ _ _)
    (fun _ _ _ => rfl) h.last
    (fun seg hseg => by rw [update_of_ne hseg]) ?_
    (fun p hmem hc => (h.reached p hmem hc).mono hext le_rfl)
  rw [update_self]
  exact ((h.worker w).buffer hne).2.flush

/-- A batch row comes from an entry of `durable_progress` and is clamped, never raised above it. -/
theorem mem_takeDurableProgressRows {durableProgress : TreeMap ℤ ℤ} {segments : SegmentMap}
    {r : ℤ × ℤ × ℤ} (h : r ∈ takeDurableProgressRows durableProgress segments) :
    ∃ v, durableProgress[r.1]? = some v ∧ ∃ seg, segments[r.1]? = some seg ∧
      seg.state ≠ .completed ∧ r.2 = (max (min v seg.size) 0, seg.startByte) := by
  simp only [takeDurableProgressRows, mem_filterMap] at h
  obtain ⟨⟨k,v⟩,hmem,hrow⟩ := h
  have hk := TreeMap.mem_toList_iff_getElem?_eq_some.mp hmem
  cases hseg : segments[k]? with
  | none => simp [hseg] at hrow
  | some seg =>
    simp only [hseg] at hrow
    split_ifs at hrow with hcompleted
    simp only [some.injEq] at hrow
    subst hrow
    exact ⟨v,hk,seg,hseg,hcompleted,rfl⟩

theorem inv_drain (h : Inv c st) {segments : SegmentMap}
    (hstep : step st (.drain segments) = some st') : Inv c st' := by
  cases hstep
  have hext := History.extends_tick st.history 0
  refine ⟨h.wellTimed.tick 0,h.last,fun w => ?_,h.holder,
    fun seg ho => (h.free seg ho).mono hext le_rfl,by simp,fun p hp hc => ?_,h.returns⟩
  · exact (h.worker w).frame h.wellTimed hext id (fun _ => rfl) (fun _ => rfl)
  · rcases mem_append.mp hp with hp | hp
    · obtain ⟨r,hr,rfl⟩ := mem_map.mp hp
      obtain ⟨v,hv,seg,-,-,hrow⟩ := mem_takeDurableProgressRows hr
      intro b hb0 hb
      simp only [hrow] at hb
      exact (h.durable _ v hv hc).mono hext le_rfl b hb0 (by omega)
    · exact (h.reached p hp hc).mono hext le_rfl

theorem inv_step {a : Label} (h : Inv c st) (hcareful : c → Careful st a)
    (hstep : step st a = some st') : Inv c st' := by
  cases a with
  | tick d =>
    cases hstep
    exact h.tick d
  | begin w seg downloaded => exact inv_begin h hstep
  | write w n => exact inv_write h hstep
  | spill w upTo => exact inv_spill h hstep
  | flush w purpose => exact inv_flush h hstep
  | snapshot w => exact inv_snapshot h hcareful hstep
  | decide w => exact inv_decide h hstep
  | readStart w => exact inv_readStart h hstep
  | finish w ok => exact inv_finish h hstep
  | persist w => exact inv_persist h hstep
  | abort w => exact inv_abort h hstep
  | drain segments => exact inv_drain h hstep

theorem inv_exec {rows : List SegmentRow} (hrun : exec step (initial rows) as = some st) :
    Inv False st :=
  exec_invariant (fun _ _ _ h hs => inv_step h False.elim hs) (inv_initial rows) hrun

theorem inv_careful {rows : List SegmentRow} (hrun : exec step (initial rows) as = some st)
    (hm : Meets step Careful (initial rows) as) :
    Inv True st :=
  exec_invariant_of_meets (fun _ _ _ h hc hs => inv_step h (fun _ => hc) hs) (inv_initial rows) hm
    hrun

theorem afterSync_gate (st : State) (w : ℕ) (wk : Worker) (snapT s : ℕ) (purpose : Purpose) :
    (afterSync st w wk snapT s purpose).gate = st.gate := by
  cases purpose with
  | periodic =>
    simp only [afterSync]
    split_ifs <;> rfl
  | completion => rfl

/-- The watermark that the gate publishes never goes back: only the holder of `syncing` writes it,
and what it writes was read when the previous value was already published. -/
theorem lastCompletedStart_step {a : Label} (h : Inv c st) (hstep : step st a = some st') {s : ℕ}
    (hs : st.gate.lastCompletedStart = some s) :
    ∃ s', st'.gate.lastCompletedStart = some s' ∧ s ≤ s' := by
  cases a with
  | finish w ok =>
    simp only [step] at hstep
    split at hstep
    · rename_i purpose snapT sync hp
      cases ok with
      | true =>
        simp only [if_true, some.injEq] at hstep
        subst hstep
        rw [afterSync_gate]
        exact ⟨sync.start,rfl,((h.worker w).running _ _ _ hp).2.2 s hs⟩
      | false =>
        simp only [Bool.false_eq_true, if_false, some.injEq] at hstep
        subst hstep
        exact ⟨s,hs,le_rfl⟩
    · cases hstep
  | decide w =>
    simp only [step] at hstep
    split at hstep
    · split at hstep <;> simp only [some.injEq] at hstep <;> subst hstep
      · rw [afterSync_gate]
        exact ⟨s,hs,le_rfl⟩
      · exact ⟨s,hs,le_rfl⟩
      · exact ⟨s,hs,le_rfl⟩
    · cases hstep
  | tick d => cases hstep; exact ⟨s,hs,le_rfl⟩
  | drain segments => cases hstep; exact ⟨s,hs,le_rfl⟩
  | snapshot w | readStart w =>
    simp only [step] at hstep
    split at hstep <;> cases hstep
    exact ⟨s,hs,le_rfl⟩
  | begin w seg downloaded | write w n | spill w upTo | flush w purpose | persist w | abort w =>
    simp only [step] at hstep
    split_ifs at hstep
    cases hstep
    exact ⟨s,hs,le_rfl⟩

theorem lastCompletedStart_exec : ∀ {st st' : State}, Inv False st →
    exec step st as = some st' → ∀ {s : ℕ}, st.gate.lastCompletedStart = some s →
    ∃ s', st'.gate.lastCompletedStart = some s' ∧ s ≤ s' := by
  induction as with
  | nil =>
    intro st st' _ hrun s hs
    cases hrun
    exact ⟨s,hs,le_rfl⟩
  | cons a as ih =>
    intro st st' h hrun s hs
    obtain ⟨t,ht,hrest⟩ := exec_cons_iff.mp hrun
    obtain ⟨r,hr,hle⟩ := lastCompletedStart_step h ht hs
    obtain ⟨s',hs',hle'⟩ := ih (inv_step h False.elim ht) hrest hr
    exact ⟨s',hs',hle.trans hle'⟩

/-- The durability contract of the gate, in every careful run from any recorded rows: what reaches
`durable_progress`, a batch or a completion row was flushed before some completed sync started,
`sync_covering` returns no earlier start than the snapshot, and the watermark only grows. -/
theorem gate_durability {rows : List SegmentRow} {as bs : List Label} {st st' : State}
    (hrun : exec step (initial rows) as = some st) (hm : Meets step Careful (initial rows) as)
    (hrest : exec step st bs = some st') :
    (∀ p ∈ st.reached, st.history.Covered p.1 p.2) ∧
    (∀ (k v : ℤ), st.durableProgress[k]? = some v → st.history.Covered k v) ∧
    (∀ p ∈ st.coveringReturns, p.1 ≤ p.2) ∧
    ∀ s, st.gate.lastCompletedStart = some s →
      ∃ s', st'.gate.lastCompletedStart = some s' ∧ s ≤ s' := by
  have h := inv_careful hrun hm
  exact ⟨fun p hp => h.reached p hp trivial,fun k v hk => h.durable k v hk trivial,h.returns,
    fun _ hs => lastCompletedStart_exec (inv_exec hrun) hrest hs⟩

/-- Worker 1 adopts the periodic sync of worker 0, then both complete, one after a failed sync. -/
def sampleRun : List Label :=
  [.begin 0 0 0, .begin 1 1 30, .write 0 10, .write 1 5, .tick 7, .flush 0 .periodic,
    .flush 1 .periodic, .snapshot 1, .snapshot 0, .tick 1, .decide 0, .decide 1, .readStart 0,
    .finish 0 true, .decide 1, .drain (buildFreshSegments 2 80).1, .write 0 30, .tick 9,
    .flush 0 .completion, .snapshot 0, .decide 0, .readStart 0, .finish 0 false, .begin 0 0 40,
    .flush 0 .completion, .snapshot 0, .decide 0, .readStart 0, .finish 0 true, .persist 0]

theorem gate_durability_sample :
    ∃ st, exec step (initial [⟨1,40,79,30⟩]) sampleRun = some st ∧
      (0, 40) ∈ st.reached ∧ st.history.Covered 0 40 := by
  have hrun : ((exec step (initial [⟨1,40,79,30⟩]) sampleRun).map
      (fun st => st.reached.contains (0, 40))) = some true := by decide +kernel
  obtain ⟨st,hst,hmem⟩ := map_eq_some_iff.mp hrun
  have hmem : (0, 40) ∈ st.reached := by simpa using hmem
  exact ⟨st,hst,hmem,(gate_durability hst (by decide +kernel) (exec_nil st)).1 _ hmem⟩

/-- Worker 1 flushes after the sync of worker 0 has started and reads the same instant. -/
theorem gate_trusts_earlier_start : ∃ st, exec step (initial [])
    [.begin 0 0 0, .begin 1 1 0, .write 0 10, .flush 0 .periodic, .snapshot 0, .decide 0,
      .readStart 0, .write 1 5, .flush 1 .completion, .snapshot 1, .finish 0 true, .decide 1,
      .persist 1] = some st ∧ (1, 5) ∈ st.reached ∧ ¬ st.history.Covered 1 5 := by
  refine ⟨_,rfl,by decide,fun h => ?_⟩
  obtain ⟨f,hf,hrange,s,hs,hlt⟩ := h 0 le_rfl (by decide)
  revert f s
  decide

/-- One worker at most syncs, and what a segment without a worker counts is flushed. -/
theorem gate_exclusive {rows : List SegmentRow} {as : List Label} {st : State}
    (hrun : exec step (initial rows) as = some st) :
    (∀ w w', Holds (st.workers w) → Holds (st.workers w') → w = w') ∧
      ∀ k, st.owner k = none → st.history.Flushed k (st.shared k) :=
  ⟨(inv_exec hrun).holder,(inv_exec hrun).free⟩

/-- In the sample run worker 0 syncs alone, and leaves its segment with 40 flushed bytes. -/
theorem gate_exclusive_sample :
    (∃ st, exec step (initial [⟨1,40,79,30⟩]) (sampleRun.take 13) = some st ∧
      Holds (st.workers 0) ∧ ∀ w, Holds (st.workers w) → w = 0) ∧
    ∃ st, exec step (initial [⟨1,40,79,30⟩]) sampleRun = some st ∧
      st.owner 0 = none ∧ st.shared 0 = 40 ∧ st.history.Flushed 0 40 := by
  have hprefix : ((exec step (initial [⟨1,40,79,30⟩]) (sampleRun.take 13)).map
      (fun st => (st.workers 0).phase)) = some (.syncing .periodic 7 (.running ⟨13,8⟩)) := by
    decide +kernel
  have hrun : ((exec step (initial [⟨1,40,79,30⟩]) sampleRun).map
      (fun st => (st.owner 0, st.shared 0))) = some (none, 40) := by decide +kernel
  obtain ⟨st,hst,hphase⟩ := map_eq_some_iff.mp hprefix
  have hholds : Holds (st.workers 0) := ⟨_,_,.inr ⟨_,hphase⟩⟩
  obtain ⟨st',hst',hfree⟩ := map_eq_some_iff.mp hrun
  simp only [Prod.mk.injEq] at hfree
  exact ⟨⟨st,hst,hholds,fun w hw => (gate_exclusive hst).1 w 0 hw hholds⟩,st',hst',hfree.1,hfree.2,
    hfree.2 ▸ (gate_exclusive hst').2 0 hfree.1⟩

end RinaDown.FileSyncGate
