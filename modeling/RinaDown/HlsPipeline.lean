import RinaDown.KeyedTable
import RinaDown.LabelledExecutions
import RinaDown.LengthFraming
import Mathlib.Algebra.Order.BigOperators.Group.Finset
import Mathlib.Order.Interval.Finset.Nat

/-!
# The segment tasks of an HLS download

Every remaining segment has a task that takes a permit, downloads, and sends its outcome into a
bounded channel before it lets the permit go. One writer receives the outcomes, keeps those that
came too early, and writes the segments in order. What it has received and cannot write yet is
counted by nothing, so while the first segment is slow all the others come to lie in memory.
-/

namespace RinaDown.HlsPipeline

open KeyedTable LabelledExecutions LengthFraming List Function Option

def defaultHlsConcurrency : ℕ := 8
def maxHlsConcurrency : ℕ := 16

/-- The setting `segment_count`, where zero and below stand for the default. -/
def requested (segmentCount : ℤ) : ℕ :=
  if segmentCount ≤ 0 then defaultHlsConcurrency else segmentCount.toNat

def hlsConcurrency (segmentCount : ℤ) (remainingSegments : ℕ) : ℕ :=
  min (min (max (requested segmentCount) 1) maxHlsConcurrency) (max remainingSegments 1)

inductive DownloadError
  | cancelled
  | other (message : List Char)
  deriving DecidableEq, Repr

abbrev Outcome := Except DownloadError Bytes

/-- The task of a segment. It has a permit while it downloads and sends. -/
inductive Producer
  | waiting
  | downloading
  | sending (outcome : Outcome)
  | ended

def Producer.holdsPermit : Producer → Bool
  | downloading | sending _ => true
  | _ => false

def Producer.hasEnded : Producer → Bool
  | ended => true
  | _ => false

/-- Where the writer stands. From `joining` on its end of the channel is closed. -/
inductive Writer
  | entering
  | receiving
  | flushing
  | writing (data : Bytes)
  | joining (fatalError : Option DownloadError)
  | returned (fatalError : Option DownloadError)

def Writer.closed : Writer → Bool
  | joining _ | returned _ => true
  | _ => false

/-- The setting, the first segment that is left, and the number of all segments. -/
structure Config where
  segmentCount : ℤ
  firstIdx : ℕ
  total : ℕ

def Config.indices (cfg : Config) : Finset ℕ := Finset.Ico cfg.firstIdx cfg.total

def Config.remaining (cfg : Config) : ℕ := cfg.total - cfg.firstIdx

def Config.concurrency (cfg : Config) : ℕ := hlsConcurrency cfg.segmentCount cfg.remaining

structure Pipeline where
  producers : ℕ → Producer
  channel : List (ℕ × Outcome)
  pending : Table ℕ Bytes
  nextToWrite : ℕ
  cancelled : Bool
  writer : Writer
  written : List (ℕ × Bytes)

/-- The buffers that are finished and not written, in the channel and in the map. -/
def Pipeline.buffered (s : Pipeline) : ℕ :=
  (s.channel.filter (fun message => message.2.isOk)).length + s.pending.length

def Pipeline.held (cfg : Config) (s : Pipeline) : ℕ :=
  (cfg.indices.filter (fun i => (s.producers i).holdsPermit)).card

def Pipeline.setProducer (s : Pipeline) (i : ℕ) (producer : Producer) : Pipeline :=
  { s with producers := Function.update s.producers i producer }

def Pipeline.leave (s : Pipeline) (fatalError : Option DownloadError) : Pipeline :=
  { s with
    channel := []
    cancelled := s.cancelled || fatalError.isSome
    writer := .joining fatalError }

def start (cfg : Config) : Pipeline where
  producers _ := .waiting
  channel := []
  pending := []
  nextToWrite := cfg.firstIdx
  cancelled := false
  writer := .entering
  written := []

/-- The label carries what the servers and the disk answer, and who is scheduled. -/
inductive Act
  | acquire (i : ℕ)
  | finish (i : ℕ) (outcome : Outcome)
  | send (i : ℕ)
  | write (failure : Option DownloadError)
  | cancel

def Act.isCancel : Act → Bool
  | cancel => true
  | _ => false

/-- The writer takes its next step; one that writes, with the initialization segment
where one is due, may fail. -/
def Pipeline.advance (cfg : Config) (s : Pipeline) (failure : Option DownloadError) :
    Option Pipeline :=
  match s.writer with
  | .entering =>
    if s.nextToWrite < cfg.total then
      if s.cancelled then some (s.leave (some .cancelled)) else some { s with writer := .receiving }
    else
      some (s.leave none)
  | .receiving =>
    match s.pending.lookup s.nextToWrite, s.channel with
    | some _, _ => some { s with writer := .flushing }
    | none, (i, .ok data) :: channel =>
      some { s with channel := channel, pending := insert i data s.pending }
    | none, (_, .error e) :: _ => some (s.leave (some e))
    | none, [] =>
      -- the channel is closed when the last task has dropped its sender
      if ∀ i ∈ cfg.indices, (s.producers i).hasEnded then
        some (s.leave (some .cancelled))
      else
        none
  | .flushing =>
    match s.pending.lookup s.nextToWrite with
    | none => some { s with writer := .entering }
    | some data =>
      let removed := { s with pending := remove s.nextToWrite s.pending }
      if s.cancelled then
        some (removed.leave (some .cancelled))
      else
        some { removed with writer := .writing data }
  | .writing data =>
    match failure with
    | some e => some (s.leave (some e))
    | none =>
      some
        { s with
          written := s.written ++ [(s.nextToWrite, data)]
          nextToWrite := s.nextToWrite + 1
          writer := .flushing }
  | .joining fatalError =>
    if ∀ i ∈ cfg.indices, (s.producers i).hasEnded then
      some { s with writer := .returned fatalError }
    else
      none
  | .returned _ => none

def step (cfg : Config) (s : Pipeline) : Act → Option Pipeline
  | .acquire i =>
    match s.producers i with
    | .waiting =>
      if i ∈ cfg.indices ∧ s.held cfg < cfg.concurrency then
        if s.cancelled then
          some (s.setProducer i (.sending (.error .cancelled)))
        else
          some (s.setProducer i .downloading)
      else
        none
    | _ => none
  | .finish i outcome =>
    match s.producers i with
    | .downloading => some (s.setProducer i (.sending outcome))
    | _ => none
  | .send i =>
    match s.producers i with
    | .sending outcome =>
      if s.writer.closed then
        some (s.setProducer i .ended)
      else if s.channel.length < cfg.concurrency then
        some { s.setProducer i .ended with channel := s.channel ++ [(i, outcome)] }
      else
        none
    | _ => none
  | .write failure => s.advance cfg failure
  | .cancel => if s.cancelled then none else some { s with cancelled := true }

/-! ## What is in the channel and in the map -/

variable {cfg : Config} {s t : Pipeline}

@[simp] theorem setProducer_self (s : Pipeline) (i : ℕ) (producer : Producer) :
    (s.setProducer i producer).producers i = producer :=
  update_self _ _ _

variable {i : ℕ} {failure : Option DownloadError}

theorem setProducer_ne (s : Pipeline) {j : ℕ} (hij : j ≠ i) (producer : Producer) :
    (s.setProducer i producer).producers j = s.producers j :=
  update_of_ne hij _ _

def Pipeline.waitingIndices (s : Pipeline) : List ℕ := s.channel.map Prod.fst ++ keys s.pending

structure Queued (cfg : Config) (s : Pipeline) : Prop where
  holders : ∀ i, (s.producers i).holdsPermit → i ∈ cfg.indices
  ended : ∀ i ∈ s.waitingIndices, i ∈ cfg.indices ∧ (s.producers i).hasEnded
  nodup : s.waitingIndices.Nodup

theorem Queued.of_sublist (h : Queued cfg s) (hproducers : t.producers = s.producers)
    (hsub : t.waitingIndices.Sublist s.waitingIndices) : Queued cfg t where
  holders := by
    rw [hproducers]
    exact h.holders
  ended i hi := by
    rw [hproducers]
    exact h.ended i (hsub.subset hi)
  nodup := h.nodup.sublist hsub

theorem Queued.leave (h : Queued cfg s) (fatalError : Option DownloadError) :
    Queued cfg (s.leave fatalError) :=
  h.of_sublist rfl (sublist_append_right _ _)

theorem keys_remove_sublist (i : ℕ) (l : Table ℕ Bytes) : (keys (remove i l)).Sublist (keys l) :=
  (filter_sublist).map Prod.fst

theorem Queued.setProducer (h : Queued cfg s) (hi : i ∈ cfg.indices)
    (hnot : (s.producers i).hasEnded = false) (producer : Producer) :
    Queued cfg (s.setProducer i producer) where
  holders j hj := by
    by_cases hij : j = i
    · rwa [hij]
    · refine h.holders j ?_
      rwa [setProducer_ne s hij] at hj
  ended j hj := by
    obtain ⟨hmem,hended⟩ := h.ended j hj
    have hij : j ≠ i := fun heq => by
      rw [heq, hnot] at hended
      cases hended
    rw [setProducer_ne s hij]
    exact ⟨hmem,hended⟩
  nodup := h.nodup

theorem Queued.sent (h : Queued cfg s) (hi : i ∈ cfg.indices)
    (hnot : (s.producers i).hasEnded = false) (outcome : Outcome) :
    Queued cfg { s.setProducer i .ended with channel := s.channel ++ [(i, outcome)] } := by
  have hset := h.setProducer hi hnot .ended
  have hperm : ({ s.setProducer i .ended with
      channel := s.channel ++ [(i, outcome)] } : Pipeline).waitingIndices.Perm
        (i :: s.waitingIndices) := by
    simp only [Pipeline.waitingIndices, map_append, map_cons, map_nil,
      append_assoc]
    exact perm_middle
  refine ⟨hset.holders,?_,hperm.nodup_iff.mpr (nodup_cons.mpr ⟨?_,h.nodup⟩)⟩
  · intro j hj
    rcases mem_cons.mp (hperm.mem_iff.mp hj) with rfl | hj
    · refine ⟨hi,?_⟩
      dsimp only
      rw [setProducer_self]
      rfl
    · exact hset.ended j hj
  · intro hmem
    have hended := (h.ended i hmem).2
    rw [hnot] at hended
    cases hended

theorem Queued.received (h : Queued cfg s) {data : Bytes} {channel : List (ℕ × Outcome)}
    (hchannel : s.channel = (i, .ok data) :: channel) :
    Queued cfg { s with channel := channel, pending := insert i data s.pending } := by
  have hindices : s.waitingIndices = i :: (channel.map Prod.fst ++ keys s.pending) := by
    rw [Pipeline.waitingIndices, hchannel]
    rfl
  have hnodup := h.nodup
  rw [hindices, nodup_cons] at hnodup
  have hperm : ({ s with
      channel := channel, pending := insert i data s.pending } : Pipeline).waitingIndices.Perm
        (i :: (channel.map Prod.fst ++ keys (remove i s.pending))) :=
    perm_middle
  have hsub := hperm.subperm.trans
    (((keys_remove_sublist i s.pending).append_left (channel.map Prod.fst)).cons_cons i).subperm
  rw [← hindices] at hsub
  refine ⟨h.holders,fun j hj => h.ended j (hsub.subset hj),?_⟩
  refine hperm.nodup_iff.mpr (nodup_cons.mpr ⟨?_,?_⟩)
  · intro hmem
    exact hnodup.1 (((keys_remove_sublist i s.pending).append_left _).subset hmem)
  · exact hnodup.2.sublist ((keys_remove_sublist i s.pending).append_left _)

theorem advance_queued (h : Queued cfg s) (hstep : s.advance cfg failure = some t) :
    Queued cfg t := by
  have hsame : ∀ writer, Queued cfg { s with writer := writer } := fun writer =>
    h.of_sublist rfl (.refl _)
  have hremoved : Queued cfg { s with pending := remove s.nextToWrite s.pending } :=
    h.of_sublist rfl ((keys_remove_sublist _ _).append_left _)
  unfold Pipeline.advance at hstep
  split at hstep
  · split_ifs at hstep <;> cases hstep
    · exact h.leave _
    · exact hsame _
    · exact h.leave _
  · split at hstep
    · cases hstep
      exact hsame _
    · rename_i hchannel
      cases hstep
      exact h.received hchannel
    · cases hstep
      exact h.leave _
    · split_ifs at hstep
      cases hstep
      exact h.leave _
  · split at hstep
    · cases hstep
      exact hsame _
    · dsimp only at hstep
      split_ifs at hstep <;> cases hstep
      · exact hremoved.leave _
      · exact hremoved.of_sublist rfl (.refl _)
  · split at hstep <;> cases hstep
    · exact h.leave _
    · exact h.of_sublist rfl (.refl _)
  · split_ifs at hstep
    cases hstep
    exact hsame _
  · cases hstep

theorem step_queued (h : Queued cfg s) {a : Act} (hstep : step cfg s a = some t) :
    Queued cfg t := by
  cases a with
  | acquire i =>
    simp only [step] at hstep
    split at hstep
    · rename_i hwaiting
      have hnot : (s.producers i).hasEnded = false := by rw [hwaiting]; rfl
      split_ifs at hstep with hguard hcancelled <;> cases hstep
      · exact h.setProducer hguard.1 hnot _
      · exact h.setProducer hguard.1 hnot _
    · cases hstep
  | finish i outcome =>
    simp only [step] at hstep
    split at hstep
    · rename_i hdownloading
      cases hstep
      refine h.setProducer (h.holders i ?_) ?_ _
      · rw [hdownloading]
        rfl
      · rw [hdownloading]
        rfl
    · cases hstep
  | send i =>
    simp only [step] at hstep
    split at hstep
    · rename_i outcome hsending
      have hi : i ∈ cfg.indices := h.holders i (by rw [hsending]; rfl)
      have hnot : (s.producers i).hasEnded = false := by rw [hsending]; rfl
      split_ifs at hstep <;> cases hstep
      · exact h.setProducer hi hnot _
      · exact h.sent hi hnot outcome
    · cases hstep
  | write failure => exact advance_queued h hstep
  | cancel =>
    simp only [step] at hstep
    split_ifs at hstep
    cases hstep
    exact h.of_sublist rfl (.refl _)

theorem start_queued (cfg : Config) : Queued cfg (start cfg) where
  holders _ hi := nomatch hi
  ended _ hi := nomatch hi
  nodup := nodup_nil

theorem Queued.buffered_le (h : Queued cfg s) : s.buffered ≤ cfg.remaining := by
  have hsubset : s.waitingIndices.toFinset ⊆ cfg.indices := by
    intro i hi
    exact (h.ended i (mem_toFinset.mp hi)).1
  have hcard := Finset.card_le_card hsubset
  rw [toFinset_card_of_nodup h.nodup] at hcard
  have hlength : s.waitingIndices.length = s.channel.length + s.pending.length := by
    rw [Pipeline.waitingIndices, length_append, length_map, KeyedTable.keys, length_map]
  have hfilter := length_filter_le (fun message => message.2.isOk) s.channel
  have hindices : cfg.indices.card = cfg.remaining := Nat.card_Ico _ _
  unfold Pipeline.buffered
  omega

/-! ## What the writer has written -/

structure Ordered (cfg : Config) (s : Pipeline) : Prop where
  written : s.written.map Prod.fst = List.range' cfg.firstIdx (s.nextToWrite - cfg.firstIdx)
  first_le : cfg.firstIdx ≤ s.nextToWrite
  le_total : s.nextToWrite ≤ max cfg.firstIdx cfg.total
  writing : ∀ data, s.writer = .writing data → s.nextToWrite < cfg.total
  success : s.writer = .joining none ∨ s.writer = .returned none → cfg.total ≤ s.nextToWrite

theorem Ordered.move (h : Ordered cfg s) (hnext : t.nextToWrite = s.nextToWrite)
    (hwritten : t.written = s.written)
    (hwriting : ∀ data, t.writer = .writing data → s.nextToWrite < cfg.total)
    (hsuccess : t.writer = .joining none ∨ t.writer = .returned none →
      cfg.total ≤ s.nextToWrite) : Ordered cfg t where
  written := by rw [hwritten, hnext, h.written]
  first_le := by rw [hnext]; exact h.first_le
  le_total := by rw [hnext]; exact h.le_total
  writing data hdata := by rw [hnext]; exact hwriting data hdata
  success hdone := by rw [hnext]; exact hsuccess hdone

theorem lookup_lt_total (h : Queued cfg s) {data : Bytes}
    (hdata : s.pending.lookup s.nextToWrite = some data) : s.nextToWrite < cfg.total := by
  have hkey : s.nextToWrite ∈ keys s.pending := mem_keys.mpr (by rw [hdata]; rfl)
  have hmem := (h.ended _ (mem_append_right _ hkey)).1
  exact (Finset.mem_Ico.mp hmem).2

theorem advance_ordered (hq : Queued cfg s) (h : Ordered cfg s)
    (hstep : s.advance cfg failure = some t) : Ordered cfg t := by
  unfold Pipeline.advance at hstep
  split at hstep
  · split_ifs at hstep <;> cases hstep
    · exact h.move rfl rfl nofun nofun
    · exact h.move rfl rfl nofun nofun
    · refine h.move rfl rfl nofun (fun _ => ?_)
      omega
  · split at hstep
    · cases hstep
      exact h.move rfl rfl nofun nofun
    · cases hstep
      rename_i hwriter _ _ _ _ _ _ _
      exact h.move rfl rfl (by simp [hwriter]) (by simp [hwriter])
    · cases hstep
      exact h.move rfl rfl nofun nofun
    · split_ifs at hstep
      cases hstep
      exact h.move rfl rfl nofun nofun
  · split at hstep
    · cases hstep
      exact h.move rfl rfl nofun nofun
    · rename_i data hdata
      dsimp only at hstep
      split_ifs at hstep <;> cases hstep
      · exact h.move rfl rfl nofun nofun
      · exact h.move rfl rfl (fun _ _ => lookup_lt_total hq hdata) nofun
  · rename_i data hwriter
    have hlt := h.writing data hwriter
    have hle := h.first_le
    split at hstep <;> cases hstep
    · exact h.move rfl rfl nofun nofun
    · refine ⟨?_,?_,?_,nofun,nofun⟩
      · dsimp only
        rw [Nat.succ_sub hle, range'_concat, map_append, h.written]
        simp only [map_cons, map_nil, Nat.one_mul]
        rw [Nat.add_sub_cancel' hle]
      · exact Nat.le_succ_of_le hle
      · exact Nat.le_trans hlt (Nat.le_max_right _ _)
  · rename_i fatalError hwriter
    split_ifs at hstep
    cases hstep
    refine h.move rfl rfl nofun ?_
    rintro (hdone | hdone)
    · cases hdone
    · cases hdone
      exact h.success (.inl hwriter)
  · cases hstep

theorem step_ordered (hq : Queued cfg s) (h : Ordered cfg s) {a : Act}
    (hstep : step cfg s a = some t) : Ordered cfg t := by
  cases a with
  | write failure => exact advance_ordered hq h hstep
  | cancel =>
    simp only [step] at hstep
    split_ifs at hstep
    cases hstep
    exact h.move rfl rfl h.writing h.success
  | acquire i | send i =>
    simp only [step] at hstep
    split at hstep
    · split_ifs at hstep <;> cases hstep
      · exact h.move rfl rfl h.writing h.success
      · exact h.move rfl rfl h.writing h.success
    · cases hstep
  | finish i outcome =>
    simp only [step] at hstep
    split at hstep <;> cases hstep
    exact h.move rfl rfl h.writing h.success

theorem start_ordered (cfg : Config) : Ordered cfg (start cfg) where
  written := by
    rw [show (start cfg).nextToWrite = cfg.firstIdx from rfl, Nat.sub_self]
    rfl
  first_le := Nat.le_refl _
  le_total := Nat.le_max_left _ _
  writing := nofun
  success := nofun

/-! ## Every schedule ends -/

def Producer.stepsLeft : Producer → ℕ
  | waiting => 4
  | downloading => 3
  | sending _ => 2
  | ended => 0

/-- The writer comes back to the loop head only after it has written a segment. -/
def Pipeline.writerLeft (cfg : Config) (s : Pipeline) : ℕ :=
  match s.writer with
  | .entering => 6 * (cfg.total - s.nextToWrite) + 5
  | .receiving => 6 * (cfg.total - s.nextToWrite) + 4
  | .flushing =>
    if (s.pending.lookup s.nextToWrite).isSome then 6 * (cfg.total - s.nextToWrite) + 3
    else 6 * (cfg.total - s.nextToWrite) + 6
  | .writing _ => 6 * (cfg.total - s.nextToWrite) + 2
  | .joining _ => 1
  | .returned _ => 0

def Pipeline.stepsLeft (cfg : Config) (s : Pipeline) : ℕ :=
  ∑ i ∈ cfg.indices, (s.producers i).stepsLeft + s.channel.length + s.writerLeft cfg +
    (if s.cancelled then 0 else 1)

theorem sum_setProducer_lt (hi : i ∈ cfg.indices) (producer : Producer) {n : ℕ}
    (hlt : producer.stepsLeft + n < (s.producers i).stepsLeft) :
    ∑ j ∈ cfg.indices, ((s.setProducer i producer).producers j).stepsLeft + n <
      ∑ j ∈ cfg.indices, (s.producers j).stepsLeft := by
  rw [← Finset.add_sum_erase _ _ hi, ← Finset.add_sum_erase _ (fun j => (s.producers j).stepsLeft) hi,
    setProducer_self]
  have hrest : ∑ j ∈ cfg.indices.erase i, ((s.setProducer i producer).producers j).stepsLeft =
      ∑ j ∈ cfg.indices.erase i, (s.producers j).stepsLeft := by
    refine Finset.sum_congr rfl ?_
    intro j hj
    rw [setProducer_ne s (Finset.ne_of_mem_erase hj)]
  rw [hrest]
  omega

/-- Leaving the loop costs the writer at least one step. -/
theorem leave_stepsLeft (fatalError : Option DownloadError) (h : 1 < s.writerLeft cfg)
    (hproducers : t.producers = s.producers) (hcancelled : t.cancelled = s.cancelled) :
    (t.leave fatalError).stepsLeft cfg < s.stepsLeft cfg := by
  have hle : (if (t.leave fatalError).cancelled = true then 0 else 1) ≤
      (if s.cancelled = true then 0 else 1) := by
    unfold Pipeline.leave
    rw [hcancelled]
    cases s.cancelled <;> cases fatalError <;> simp
  have hsame : ∑ i ∈ cfg.indices, ((t.leave fatalError).producers i).stepsLeft =
      ∑ i ∈ cfg.indices, (s.producers i).stepsLeft := by
    rw [← hproducers]
    rfl
  have hchannel : (t.leave fatalError).channel.length = 0 := rfl
  have hwriter : (t.leave fatalError).writerLeft cfg = 1 := rfl
  unfold Pipeline.stepsLeft
  omega

theorem advance_stepsLeft (h : Ordered cfg s) (hstep : s.advance cfg failure = some t) :
    t.stepsLeft cfg < s.stepsLeft cfg := by
  unfold Pipeline.advance at hstep
  split at hstep
  · rename_i hwriter
    have hleft : s.writerLeft cfg = 6 * (cfg.total - s.nextToWrite) + 5 := by
      rw [Pipeline.writerLeft, hwriter]
    split_ifs at hstep <;> cases hstep
    · exact leave_stepsLeft _ (by omega) rfl rfl
    · unfold Pipeline.stepsLeft
      rw [hleft]
      exact Nat.add_lt_add_right (Nat.add_lt_add_left (Nat.lt_succ_self _) _) _
    · exact leave_stepsLeft _ (by omega) rfl rfl
  · rename_i hwriter
    have hleft : s.writerLeft cfg = 6 * (cfg.total - s.nextToWrite) + 4 := by
      rw [Pipeline.writerLeft, hwriter]
    split at hstep
    · rename_i hdata
      cases hstep
      have hflush : Pipeline.writerLeft cfg { s with writer := .flushing } =
          6 * (cfg.total - s.nextToWrite) + 3 := by
        simp [Pipeline.writerLeft, hdata]
      unfold Pipeline.stepsLeft
      rw [hleft, hflush]
      exact Nat.add_lt_add_right (Nat.add_lt_add_left (Nat.lt_succ_self _) _) _
    · rename_i hchannel
      cases hstep
      unfold Pipeline.stepsLeft
      simp only [Pipeline.writerLeft, hwriter, hchannel, length_cons]
      omega
    · cases hstep
      exact leave_stepsLeft _ (by omega) rfl rfl
    · split_ifs at hstep
      cases hstep
      exact leave_stepsLeft _ (by omega) rfl rfl
  · rename_i hwriter
    split at hstep
    · rename_i hnone
      cases hstep
      unfold Pipeline.stepsLeft
      simp only [Pipeline.writerLeft, hwriter, hnone]
      simp
    · rename_i data hdata
      have hleft : s.writerLeft cfg = 6 * (cfg.total - s.nextToWrite) + 3 := by
        simp [Pipeline.writerLeft, hwriter, hdata]
      dsimp only at hstep
      split_ifs at hstep <;> cases hstep
      · exact leave_stepsLeft _ (by omega) rfl rfl
      · unfold Pipeline.stepsLeft
        simp only [Pipeline.writerLeft, hwriter, hdata]
        simp
  · rename_i data hwriter
    have hlt := h.writing data hwriter
    have hleft : s.writerLeft cfg = 6 * (cfg.total - s.nextToWrite) + 2 := by
      rw [Pipeline.writerLeft, hwriter]
    split at hstep <;> cases hstep
    · exact leave_stepsLeft _ (by omega) rfl rfl
    · unfold Pipeline.stepsLeft
      simp only [Pipeline.writerLeft, hwriter]
      split <;> omega
  · rename_i fatalError hwriter
    split_ifs at hstep
    cases hstep
    unfold Pipeline.stepsLeft
    simp only [Pipeline.writerLeft, hwriter]
    omega
  · cases hstep

theorem step_stepsLeft (hq : Queued cfg s) (h : Ordered cfg s) {a : Act}
    (hstep : step cfg s a = some t) : t.stepsLeft cfg < s.stepsLeft cfg := by
  cases a with
  | write failure => exact advance_stepsLeft h hstep
  | cancel =>
    simp only [step] at hstep
    split_ifs at hstep with hcancelled
    cases hstep
    unfold Pipeline.stepsLeft
    rw [if_neg hcancelled]
    exact Nat.lt_succ_self _
  | acquire i =>
    simp only [step] at hstep
    split at hstep
    · rename_i hwaiting
      split_ifs at hstep with hguard hcancelled <;> cases hstep
      · have hsum := sum_setProducer_lt (s := s) hguard.1
          (.sending (.error .cancelled)) (n := 1) (by rw [hwaiting]; decide)
        unfold Pipeline.stepsLeft
        exact Nat.add_lt_add_right (Nat.add_lt_add_right (Nat.add_lt_add_right (by omega) _) _) _
      · have hsum := sum_setProducer_lt (s := s) hguard.1 .downloading (n := 0)
          (by rw [hwaiting]; decide)
        unfold Pipeline.stepsLeft
        exact Nat.add_lt_add_right (Nat.add_lt_add_right (Nat.add_lt_add_right (by omega) _) _) _
    · cases hstep
  | finish i outcome =>
    simp only [step] at hstep
    split at hstep
    · rename_i hdownloading
      cases hstep
      have hsum := sum_setProducer_lt (s := s) (hq.holders i (by rw [hdownloading]; rfl))
        (.sending outcome) (n := 0) (by rw [hdownloading]; exact Nat.lt_succ_self 2)
      unfold Pipeline.stepsLeft
      exact Nat.add_lt_add_right (Nat.add_lt_add_right (Nat.add_lt_add_right (by omega) _) _) _
    · cases hstep
  | send i =>
    simp only [step] at hstep
    split at hstep
    · rename_i outcome hsending
      have hsum := sum_setProducer_lt (s := s) (hq.holders i (by rw [hsending]; rfl))
        .ended (n := 1) (by rw [hsending]; exact Nat.lt_succ_self 1)
      split_ifs at hstep <;> cases hstep
      · unfold Pipeline.stepsLeft
        exact Nat.add_lt_add_right (Nat.add_lt_add_right (Nat.add_lt_add_right (by omega) _) _) _
      · unfold Pipeline.stepsLeft
        refine Nat.add_lt_add_right (Nat.add_lt_add_right ?_ _) _
        dsimp only
        rw [length_append, length_singleton]
        omega
    · cases hstep

theorem start_stepsLeft (cfg : Config) : (start cfg).stepsLeft cfg = 10 * cfg.remaining + 6 := by
  have hsum : ∑ i ∈ cfg.indices, ((start cfg).producers i).stepsLeft = cfg.remaining * 4 := by
    have hcard : cfg.indices.card = cfg.remaining := Nat.card_Ico _ _
    rw [← hcard]
    exact Finset.sum_const_nat fun _ _ => rfl
  unfold Pipeline.stepsLeft
  rw [hsum]
  simp only [start, Pipeline.writerLeft, length_nil, Config.remaining]
  simp
  omega

/-! ## Nobody waits forever -/

theorem concurrency_pos (cfg : Config) : 0 < cfg.concurrency := by
  unfold Config.concurrency hlsConcurrency maxHlsConcurrency
  omega

/-- A task that has not ended can move, or one that holds a permit can. -/
theorem task_moves (hopen : s.writer.closed = true ∨ s.channel = []) (hi : i ∈ cfg.indices)
    (hnot : (s.producers i).hasEnded ≠ true) :
    ∃ a : Act, a.isCancel = false ∧ (step cfg s a).isSome = true := by
  by_cases hholder : ∃ j, (s.producers j).holdsPermit = true
  · obtain ⟨j,hj⟩ := hholder
    cases hproducer : s.producers j with
    | waiting | ended =>
      rw [hproducer] at hj
      cases hj
    | downloading =>
      refine ⟨.finish j (.error .cancelled),rfl,?_⟩
      simp only [step, hproducer]
      rfl
    | sending outcome =>
      refine ⟨.send j,rfl,?_⟩
      simp only [step, hproducer]
      rcases hopen with hclosed | hempty
      · rw [if_pos hclosed]
        rfl
      · have hroom : s.channel.length < cfg.concurrency := by
          rw [hempty]
          exact concurrency_pos cfg
        split_ifs
        · rfl
        · rfl
  · cases hproducer : s.producers i with
    | waiting =>
      refine ⟨.acquire i,rfl,?_⟩
      have hheld : s.held cfg = 0 := by
        refine Finset.card_eq_zero.mpr (Finset.filter_eq_empty_iff.mpr ?_)
        intro j _ hj
        exact hholder ⟨j,hj⟩
      have hguard : i ∈ cfg.indices ∧ s.held cfg < cfg.concurrency :=
        ⟨hi,by rw [hheld]; exact concurrency_pos cfg⟩
      simp only [step, hproducer, if_pos hguard]
      split_ifs
      · rfl
      · rfl
    | downloading | sending outcome => exact absurd ⟨i,by rw [hproducer]; rfl⟩ hholder
    | ended =>
      rw [hproducer] at hnot
      exact absurd rfl hnot

/-- The writer only ever waits for tasks, and never with a full channel. -/
theorem advance_blocked (h : s.advance cfg none = none) :
    (∃ fatalError, s.writer = .returned fatalError) ∨
      ((s.writer.closed = true ∨ s.channel = []) ∧
        ∃ i ∈ cfg.indices, (s.producers i).hasEnded ≠ true) := by
  have hsome : ¬ (∀ i ∈ cfg.indices, (s.producers i).hasEnded = true) →
      ∃ i ∈ cfg.indices, (s.producers i).hasEnded ≠ true := by
    intro hnot
    by_contra hnone
    exact hnot fun i hi => by_contra fun hi' => hnone ⟨i,hi,hi'⟩
  unfold Pipeline.advance at h
  split at h
  · split_ifs at h
  · split at h
    · cases h
    · cases h
    · cases h
    · rename_i hchannel
      split_ifs at h with hall
      exact .inr ⟨.inr hchannel,hsome hall⟩
  · split at h
    · cases h
    · dsimp only at h
      split_ifs at h
  · cases h
  · rename_i hwriter
    split_ifs at h with hall
    exact .inr ⟨.inl (by rw [hwriter]; rfl),hsome hall⟩
  · rename_i fatalError hwriter
    exact .inl ⟨fatalError,hwriter⟩

theorem someone_moves (hrun : ∀ fatalError, s.writer ≠ .returned fatalError) :
    ∃ a : Act, a.isCancel = false ∧ (step cfg s a).isSome = true := by
  cases hadvance : s.advance cfg none with
  | some t => exact ⟨.write none,rfl,by rw [step, hadvance]; rfl⟩
  | none =>
    rcases advance_blocked hadvance with ⟨fatalError,hwriter⟩ | ⟨hopen,i,hi,hnot⟩
    · exact absurd hwriter (hrun fatalError)
    · exact task_moves hopen hi hnot

/-! ## Whole schedules -/

theorem schedule_invariant {as : List Act} (h : exec (step cfg) (start cfg) as = some s) :
    Queued cfg s ∧ Ordered cfg s ∧ as.length + s.stepsLeft cfg ≤ 10 * cfg.remaining + 6 := by
  have hstart : Queued cfg (start cfg) ∧ Ordered cfg (start cfg) :=
    ⟨start_queued cfg,start_ordered cfg⟩
  have hstep : ∀ s a t, Queued cfg s ∧ Ordered cfg s → step cfg s a = some t →
      (Queued cfg t ∧ Ordered cfg t) ∧ t.stepsLeft cfg < s.stepsLeft cfg :=
    fun s a t hs ht =>
      ⟨⟨step_queued hs.1 ht,step_ordered hs.1 hs.2 ht⟩,step_stepsLeft hs.1 hs.2 ht⟩
  have hinv := exec_invariant (fun s a t hs ht => (hstep s a t hs ht).1) hstart h
  have hlength := exec_length_le (Pipeline.stepsLeft cfg) hstep hstart h
  rw [start_stepsLeft] at hlength
  exact ⟨hinv.1,hinv.2,hlength⟩

/-- Every schedule is short, and one that cannot go on has ended: with all segments
written in order, or with an error. -/
theorem schedules_end {as : List Act} (h : exec (step cfg) (start cfg) as = some s) :
    as.length ≤ 10 * cfg.remaining + 6 ∧
      ((∃ a : Act, a.isCancel = false ∧ (step cfg s a).isSome = true) ∨
        (∃ e, s.writer = .returned (some e)) ∨
        (s.writer = .returned none ∧
          s.written.map Prod.fst = List.range' cfg.firstIdx cfg.remaining)) := by
  obtain ⟨-,hordered,hlength⟩ := schedule_invariant h
  refine ⟨by omega,?_⟩
  by_cases hreturned : ∃ fatalError, s.writer = .returned fatalError
  · obtain ⟨fatalError,hwriter⟩ := hreturned
    cases fatalError with
    | some e => exact .inr (.inl ⟨e,hwriter⟩)
    | none =>
      refine .inr (.inr ⟨hwriter,?_⟩)
      have hdone := hordered.success (.inr hwriter)
      have hfirst := hordered.first_le
      have htotal := hordered.le_total
      have hremaining : s.nextToWrite - cfg.firstIdx = cfg.remaining := by
        unfold Config.remaining
        omega
      rw [hordered.written, hremaining]
  · exact .inl (someone_moves fun fatalError hwriter => hreturned ⟨fatalError,hwriter⟩)

/-! ## The first segment is slow -/

/-- The later segments have come, the first one has not begun. -/
structure Overtaken (cfg : Config) (k : ℕ) (s : Pipeline) : Prop where
  writer : s.writer = .receiving
  channel : s.channel = []
  running : s.cancelled = false
  next : s.nextToWrite = cfg.firstIdx
  waiting : ∀ i, i ≤ cfg.firstIdx ∨ cfg.firstIdx + k < i → s.producers i = .waiting
  idle : ∀ i, (s.producers i).holdsPermit = false
  pending : s.pending.length = k
  early : ∀ i ∈ keys s.pending, cfg.firstIdx < i ∧ i ≤ cfg.firstIdx + k

theorem Overtaken.lookup {k : ℕ} (h : Overtaken cfg k s) :
    s.pending.lookup s.nextToWrite = none := by
  cases hdata : s.pending.lookup s.nextToWrite with
  | none => rfl
  | some data =>
    have hkey := h.early _ (mem_keys.mpr (by rw [hdata]; rfl))
    rw [h.next] at hkey
    omega

def pass (i : ℕ) (data : Bytes) : List Act := [.acquire i, .finish i (.ok data), .send i]

/-- A task that takes its permit while nobody holds one brings its segment into the channel. -/
theorem exec_pass (hi : i ∈ cfg.indices) (hwaiting : s.producers i = .waiting)
    (hidle : ∀ j, (s.producers j).holdsPermit = false) (hrunning : s.cancelled = false)
    (hchannel : s.channel = []) (hwriter : s.writer = .receiving) (data : Bytes) :
    ∃ t, exec (step cfg) s (pass i data) = some t ∧
      t = { s with
        producers := Function.update s.producers i .ended, channel := [(i, .ok data)] } := by
  have hheld : s.held cfg = 0 := by
    refine Finset.card_eq_zero.mpr (Finset.filter_eq_empty_iff.mpr ?_)
    intro j _
    rw [hidle j]
    exact Bool.false_ne_true
  have hguard : i ∈ cfg.indices ∧ s.held cfg < cfg.concurrency :=
    ⟨hi,by rw [hheld]; exact concurrency_pos cfg⟩
  have hacquire : step cfg s (.acquire i) = some (s.setProducer i .downloading) := by
    simp [step, hwaiting, hguard, hrunning]
  have hfinish : step cfg (s.setProducer i .downloading) (.finish i (.ok data)) =
      some (s.setProducer i (.sending (.ok data))) := by
    simp [step, Pipeline.setProducer]
  have hsend : step cfg (s.setProducer i (.sending (.ok data))) (.send i) =
      some { s.setProducer i .ended with channel := [(i, .ok data)] } := by
    have hroom := concurrency_pos cfg
    simp [step, Pipeline.setProducer, hwriter, Writer.closed, hchannel, hroom]
  refine ⟨_,?_,rfl⟩
  simp only [pass, exec_cons, hacquire, hfinish, hsend, bind_some, exec_nil]
  rfl

theorem overtaken_succ {k : ℕ} (h : Overtaken cfg k s) (hk : cfg.firstIdx + (k + 1) < cfg.total) :
    ∃ as t, exec (step cfg) s as = some t ∧ Overtaken cfg (k + 1) t := by
  have hi : cfg.firstIdx + (k + 1) ∈ cfg.indices := Finset.mem_Ico.mpr ⟨by omega,hk⟩
  obtain ⟨t,hpass,ht⟩ := exec_pass hi (h.waiting _ (.inr (by omega))) h.idle h.running
    h.channel h.writer []
  have hreceive : step cfg t (.write none) = some
      { t with channel := [], pending := insert (cfg.firstIdx + (k + 1)) [] s.pending } := by
    rw [ht]
    simp [step, Pipeline.advance, h.writer, h.lookup]
  refine ⟨pass (cfg.firstIdx + (k + 1)) [] ++ [.write none],
    { t with channel := [], pending := insert (cfg.firstIdx + (k + 1)) [] s.pending },?_,?_⟩
  · rw [exec_append, hpass, bind_some, exec_cons, hreceive]
    rfl
  · rw [ht]
    refine ⟨h.writer,rfl,h.running,h.next,?_,?_,?_,?_⟩
    · intro i hi
      dsimp only
      rw [update_of_ne (by omega)]
      exact h.waiting i (by omega)
    · intro i
      dsimp only
      by_cases heq : i = cfg.firstIdx + (k + 1)
      · rw [heq, update_self]
        rfl
      · rw [update_of_ne heq]
        exact h.idle i
    · dsimp only
      have hnew : cfg.firstIdx + (k + 1) ∉ keys s.pending := by
        intro hmem
        have hle := (h.early _ hmem).2
        omega
      rw [length_insert hnew, h.pending]
    · intro i hi
      rcases mem_cons.mp hi with rfl | hi
      · exact ⟨by omega,Nat.le_refl _⟩
      · have hearly := h.early i ((keys_remove_sublist _ _).subset hi)
        omega

theorem overtaken_run (k : ℕ) (hk : cfg.firstIdx + k < cfg.total) :
    ∃ as s, exec (step cfg) (start cfg) as = some s ∧ Overtaken cfg k s := by
  induction k with
  | zero =>
    refine ⟨[.write none],{ start cfg with writer := .receiving },?_,?_⟩
    · have hlt : (start cfg).nextToWrite < cfg.total := hk
      have hadvance : step cfg (start cfg) (.write none) =
          some { start cfg with writer := .receiving } := by
        rw [step, Pipeline.advance]
        exact if_pos hlt
      rw [exec_cons, hadvance]
      rfl
    · exact ⟨rfl,rfl,rfl,rfl,fun _ _ => rfl,fun _ => rfl,rfl,nofun⟩
  | succ k ih =>
    obtain ⟨as,s,hexec,hs⟩ := ih (by omega)
    obtain ⟨bs,t,hexec',ht⟩ := overtaken_succ hs hk
    exact ⟨as ++ bs,t,by rw [exec_append, hexec, bind_some, hexec'],ht⟩

/-- With `k` later segments in the map, the first one makes one more in the channel. -/
theorem buffered_reached (k : ℕ) (hk : cfg.firstIdx + k < cfg.total) :
    ∃ as s, exec (step cfg) (start cfg) as = some s ∧ s.buffered = k + 1 := by
  obtain ⟨as,s,hexec,hs⟩ := overtaken_run k hk
  have hi : cfg.firstIdx ∈ cfg.indices := Finset.mem_Ico.mpr ⟨Nat.le_refl _,by omega⟩
  obtain ⟨t,hpass,ht⟩ := exec_pass hi (hs.waiting _ (.inl (Nat.le_refl _))) hs.idle hs.running
    hs.channel hs.writer []
  refine ⟨as ++ pass cfg.firstIdx [],t,by rw [exec_append, hexec, bind_some, hpass],?_⟩
  have hpending := hs.pending
  rw [ht, Pipeline.buffered]
  dsimp only
  rw [hpending]
  exact Nat.add_comm 1 k

/-! ## The bound -/

/-- The buffers in memory never exceed the concurrency, and every schedule ends. -/
def MemoryBound (cfg : Config) : Prop :=
  ∀ as s, exec (step cfg) (start cfg) as = some s →
    s.buffered ≤ cfg.concurrency ∧
    as.length ≤ 10 * cfg.remaining + 6 ∧
    ((∃ a : Act, a.isCancel = false ∧ (step cfg s a).isSome = true) ∨
      (∃ e, s.writer = .returned (some e)) ∨
      (s.writer = .returned none ∧
        s.written.map Prod.fst = List.range' cfg.firstIdx cfg.remaining))

/-- The bound holds exactly where there are no more segments than the setting allows at once. -/
theorem memoryBound_iff (cfg : Config) :
    MemoryBound cfg ↔
      cfg.remaining ≤ min (max (requested cfg.segmentCount) 1) maxHlsConcurrency := by
  have hpos : 1 ≤ min (max (requested cfg.segmentCount) 1) maxHlsConcurrency := by
    unfold maxHlsConcurrency
    omega
  constructor
  · intro hbound
    by_contra hmany
    have hconcurrency : cfg.concurrency =
        min (max (requested cfg.segmentCount) 1) maxHlsConcurrency := by
      unfold Config.concurrency hlsConcurrency
      omega
    have hk : cfg.firstIdx + cfg.concurrency < cfg.total := by
      unfold Config.remaining at hmany
      omega
    obtain ⟨as,s,hexec,hbuffered⟩ := buffered_reached cfg.concurrency hk
    have hle := (hbound as s hexec).1
    omega
  · intro hfew as s hexec
    have hqueued := (schedule_invariant hexec).1.buffered_le
    refine ⟨?_,schedules_end hexec⟩
    unfold Config.concurrency hlsConcurrency
    omega

/-- At any concurrency a schedule ends, is stuck only at its end, and writes in order. -/
theorem schedule_live {as : List Act} (h : exec (step cfg) (start cfg) as = some s) :
    as.length ≤ 10 * cfg.remaining + 6 ∧
      ((∀ a : Act, a.isCancel = false → step cfg s a = none) → ∃ e, s.writer = .returned e) ∧
      s.written.map Prod.fst = List.range' cfg.firstIdx (s.nextToWrite - cfg.firstIdx) := by
  refine ⟨(schedules_end h).1,fun hstuck => ?_,(schedule_invariant h).2.1.written⟩
  by_contra hrun
  obtain ⟨a,ha,hmoves⟩ := someone_moves fun e he => hrun ⟨e,he⟩
  rw [hstuck a ha] at hmoves
  cases hmoves

/-- Three segments with two permits. The second one is there before the first one. -/
def secondFirst : List Act :=
  [.write none, .acquire 0, .acquire 1, .finish 1 (.ok [21]), .send 1, .acquire 2, .write none,
    .finish 0 (.ok [11]), .send 0, .finish 2 (.ok [31]), .send 2] ++ List.replicate 15 (.write none)

theorem schedule_live_secondFirst : ∃ s,
    exec (step ⟨2,0,3⟩) (start ⟨2,0,3⟩) secondFirst = some s ∧
      (s.written,s.writer) = ([(0,[11]),(1,[21]),(2,[31])],.returned none) ∧
        secondFirst.length ≤ 36 ∧ s.written.map Prod.fst = List.range' 0 (s.nextToWrite - 0) := by
  have hrun : (exec (step ⟨2,0,3⟩) (start ⟨2,0,3⟩) secondFirst).map
      (fun s => (s.written,s.writer)) = some ([(0,[11]),(1,[21]),(2,[31])],.returned none) := rfl
  obtain ⟨s,hs,hresult⟩ := map_eq_some_iff.mp hrun
  obtain ⟨hlength,-,horder⟩ := schedule_live hs
  exact ⟨s,hs,hresult,hlength,horder⟩

/-- Two segments at once, and the first of four is slow: the other three are held. -/
theorem slow_first_segment_exceeds : ¬ MemoryBound { segmentCount := 2, firstIdx := 0, total := 4 } := by
  intro hbound
  have hexec : ∃ s, exec (step { segmentCount := 2, firstIdx := 0, total := 4 })
      (start { segmentCount := 2, firstIdx := 0, total := 4 })
      ([.write none, .acquire 0] ++ pass 1 [] ++ [.write none] ++ pass 2 [] ++ [.write none] ++
        pass 3 []) = some s ∧ s.buffered = 3 := by
    refine ⟨_,rfl,rfl⟩
  obtain ⟨s,hs,hbuffered⟩ := hexec
  have hle := (hbound _ s hs).1
  rw [hbuffered] at hle
  exact absurd hle (by decide)

end RinaDown.HlsPipeline
