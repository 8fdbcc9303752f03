import RinaDown.Ed2kReception

/-!
# A block from an honest peer

An honest peer answers the ranges that it is asked for in order, in as many frames as it likes.
The downloader repeats its outstanding ranges after every frame, so the peer is asked for them
again. A block of more than three ranges lets the first one go before it asks for the fourth, and
takes the second answer to the first three for unrequested data.
-/

namespace RinaDown.Ed2kHonestPeer

open Ed2kHash Ed2kBlockTask LabelledExecutions List Option

/-- A block of a file that a peer has, and the file that is downloaded into. -/
structure Sharing where
  job : Job
  index : ℕ
  source : Source
  copy : File
  temp : File
  copy_length : copy.1.length = job.totalBytes
  temp_length : temp.1.length = job.totalBytes
  nonempty : (partSpan index job.totalBytes job.partSize).1 <
    (partSpan index job.totalBytes job.partSize).2

structure SendingPart where
  start : ℕ
  endExclusive : ℕ
  data : Bytes
  deriving DecidableEq

def SendingPart.range (part : SendingPart) : PartRange := ⟨part.start,part.endExclusive⟩

/-- The task, the ranges that were requested and not answered yet, on their way or with
the peer, and the frames on their way back. Both connections keep the order. -/
structure Exchange where
  task : BlockTask
  shared : Shared
  requests : List PartRange
  frames : List SendingPart

inductive Turn
  | answer (length : ℕ)
  | receive
  deriving DecidableEq

def slice (content : Bytes) (start stop : ℕ) : Bytes := (content.drop start).take (stop - start)

namespace Sharing

variable (x : Sharing) (md4 : Bytes → Digest)

def span : ℕ × ℕ := partSpan x.index x.job.totalBytes x.job.partSize

def blockLen : ℕ := x.span.2 - x.span.1

/-- The head of the loop: all outstanding ranges are requested. -/
def request (s : Exchange) : Exchange :=
  match s.task.phase with
  | .transferring t =>
    { s with requests := s.requests ++ (refill x.span.2 t maxInflight).inflight }
  | _ => s

def start : Exchange :=
  x.request
    { task :=
        { index := x.index
          source := x.source
          phase := .transferring ⟨[],[],x.span.1,List.replicate x.blockLen 0⟩ }
      shared := { hashsetCache := none, temp := some x.temp }
      requests := []
      frames := [] }

def answer (s : Exchange) (length : ℕ) : Option Exchange :=
  match s.task.phase, s.requests with
  | .transferring _, r :: requests =>
    if 0 < length ∧ r.start + length ≤ r.endExclusive then
      let stop := r.start + length
      some
        { s with
          requests := if stop < r.endExclusive then ⟨stop,r.endExclusive⟩ :: requests else requests
          frames := s.frames ++ [⟨r.start,stop,slice x.copy.1 r.start stop⟩] }
    else none
  | _, _ => none

/-- The downloader takes a frame, and ends or goes on to the head of its loop. -/
def receive (s : Exchange) : Option Exchange :=
  match s.frames with
  | [] => none
  | part :: frames =>
    match step md4 x.job s.task s.shared
        (.sendingPart part.start part.endExclusive part.data none) with
    | none => none
    | some (task, shared) =>
      match step md4 x.job task shared .complete with
      | some (task, shared) => some { s with task, shared, frames }
      | none => some (x.request { s with task, shared, frames })

def turn (s : Exchange) : Turn → Option Exchange
  | .answer length => x.answer s length
  | .receive => x.receive md4 s

/-- Whatever the timing, the exchange goes on until it has the digest of the block, and
it does not go on forever. -/
def Completes : Prop :=
  (∀ turns s, exec (x.turn md4) x.start turns = some s →
    (∃ a, (x.turn md4 s a).isSome = true) ∨
      s.task.phase =
        .finished (.ok (md4 (part x.copy.1 x.index x.job.totalBytes x.job.partSize)))) ∧
  ∃ bound, ∀ turns s, exec (x.turn md4) x.start turns = some s → turns.length ≤ bound

end Sharing

/-! ## Requests -/

theorem refill_received (blockEnd : ℕ) (t : Transfer) (fuel : ℕ) :
    (refill blockEnd t fuel).received = t.received ∧
      (refill blockEnd t fuel).hasherBuf = t.hasherBuf := by
  induction fuel generalizing t with
  | zero => exact ⟨rfl,rfl⟩
  | succ fuel ih =>
    rw [refill]
    split_ifs
    · exact ih _
    · exact ⟨rfl,rfl⟩

theorem refill_done {blockEnd : ℕ} {t : Transfer} (h : t.nextReqStart = blockEnd) (fuel : ℕ) :
    refill blockEnd t fuel = t := by
  cases fuel with
  | zero => rfl
  | succ fuel =>
    rw [refill, if_neg (by omega)]

def Consecutive : ℕ → List PartRange → ℕ → Prop
  | a, [], b => a = b
  | a, r :: rs, b => r.start = a ∧ r.start < r.endExclusive ∧ Consecutive r.endExclusive rs b

variable {a b stop n : ℕ} {rs : List PartRange} {r : PartRange} {content : Bytes} {f : SendingPart}

theorem consecutive_append {qs : List PartRange} :
    Consecutive a (rs ++ qs) b ↔ ∃ c, Consecutive a rs c ∧ Consecutive c qs b := by
  induction rs generalizing a with
  | nil => simp [Consecutive]
  | cons r rs ih =>
    simp only [cons_append, Consecutive, ih]
    constructor
    · rintro ⟨hstart,hlt,c,hc⟩
      exact ⟨c,⟨hstart,hlt,hc.1⟩,hc.2⟩
    · rintro ⟨c,⟨hstart,hlt,hrs⟩,hqs⟩
      exact ⟨hstart,hlt,c,hrs,hqs⟩

theorem Consecutive.le (h : Consecutive a rs b) : a ≤ b := by
  induction rs generalizing a with
  | nil => exact Nat.le_of_eq h
  | cons r rs ih =>
    obtain ⟨hstart,hlt,hrs⟩ := h
    have hle := ih hrs
    omega

theorem Consecutive.mem (h : Consecutive a rs b) (hr : r ∈ rs) :
    a ≤ r.start ∧ r.start < r.endExclusive ∧ r.endExclusive ≤ b := by
  induction rs generalizing a with
  | nil => cases hr
  | cons q rs ih =>
    obtain ⟨hstart,hlt,hrs⟩ := h
    rcases mem_cons.mp hr with rfl | hr
    · exact ⟨Nat.le_of_eq hstart.symm,hlt,hrs.le⟩
    · have hrest := ih hrs hr
      omega

theorem min_min_add (next size rest stop : ℕ) :
    min (min (next + size) stop + rest) stop = min (next + (rest + size)) stop := by
  omega

/-- What is requested at the start, with room for `fuel` more ranges. -/
theorem refill_consecutive (a blockEnd : ℕ) (fuel : ℕ) {t : Transfer}
    (h : Consecutive a t.inflight t.nextReqStart) (hroom : t.inflight.length + fuel ≤ maxInflight)
    (hle : t.nextReqStart ≤ blockEnd) :
    Consecutive a (refill blockEnd t fuel).inflight (refill blockEnd t fuel).nextReqStart ∧
      (refill blockEnd t fuel).nextReqStart = min (t.nextReqStart + fuel * blockSize) blockEnd ∧
      (refill blockEnd t fuel).inflight.length ≤ maxInflight := by
  induction fuel generalizing t with
  | zero =>
    refine ⟨h,?_,hroom⟩
    rw [refill]
    omega
  | succ fuel ih =>
    rw [refill]
    split_ifs with hmore
    · have hpos : 0 < blockSize := by decide
      have hnext := ih (t := { t with
        inflight := t.inflight ++ [⟨t.nextReqStart,min (t.nextReqStart + blockSize) blockEnd⟩]
        nextReqStart := min (t.nextReqStart + blockSize) blockEnd })
        (consecutive_append.mpr ⟨t.nextReqStart,h,rfl,by dsimp only; omega,rfl⟩)
        (by
          rw [length_append, length_singleton]
          omega)
        (Nat.min_le_right _ _)
      refine ⟨hnext.1,?_,hnext.2.2⟩
      rw [hnext.2.1, Nat.succ_mul]
      exact min_min_add _ _ _ _
    · have hdone : t.nextReqStart = blockEnd := by omega
      refine ⟨h,?_,by omega⟩
      omega

/-! ## A block whose ranges are all outstanding at once -/

variable {x : Sharing} {md4 : Bytes → Digest} {s s' : Exchange} {t : Transfer} {p : ℕ}
  {front rest : List PartRange}

def Exchange.stream (s : Exchange) : List PartRange := s.frames.map SendingPart.range ++ s.requests

def offsetsBelow (n : ℕ) : List (ℕ × ℕ) := if n = 0 then [] else [(0, n)]

/-- The block has come up to `p`, and the rest of it comes first in the stream. -/
structure Smooth (x : Sharing) (s : Exchange) (t : Transfer) (p : ℕ) (front rest : List PartRange) :
    Prop where
  task : s.task = ⟨x.index,x.source,.transferring t⟩
  temp : ∃ file, s.shared.temp = some file
  from_start : x.span.1 ≤ p
  to_end : p < x.span.2
  received : t.received = offsetsBelow (p - x.span.1)
  bufferLength : t.hasherBuf.length = x.blockLen
  buffer : t.hasherBuf.take (p - x.span.1) = slice x.copy.1 x.span.1 p
  asked : (refill x.span.2 t maxInflight).nextReqStart = x.span.2
  few : (refill x.span.2 t maxInflight).inflight.length ≤ maxInflight
  within : ∀ r ∈ (refill x.span.2 t maxInflight).inflight,
    x.span.1 ≤ r.start ∧ r.start < r.endExclusive ∧ r.endExclusive ≤ x.span.2
  stream : s.stream = front ++ rest
  consecutive : Consecutive p front x.span.2
  outstanding : ∀ q ∈ front, ∃ r ∈ (refill x.span.2 t maxInflight).inflight,
    r.start ≤ q.start ∧ q.endExclusive ≤ r.endExclusive
  exact : ∀ f ∈ s.frames, f.data = slice x.copy.1 f.start f.endExclusive
  good : ∀ r ∈ s.requests, r.start < r.endExclusive

def requestedBytes (rs : List PartRange) : ℕ := (rs.map (fun r => r.endExclusive - r.start)).sum

/-- An answer takes two off for every byte; a frame that comes adds less than the bytes of
three blocks. -/
def stepsLeft (x : Sharing) (s : Exchange) (p : ℕ) : ℕ :=
  (x.span.2 - p) * (6 * x.blockLen + 1) + 2 * requestedBytes s.requests + s.frames.length

theorem length_slice {start : ℕ} (h : stop ≤ content.length) :
    (slice content start stop).length = stop - start := by
  rw [slice, length_take, length_drop]
  omega

theorem slice_append {c : ℕ} (hab : a ≤ b) (hbc : b ≤ c) :
    slice content a b ++ slice content b c = slice content a c := by
  have hdrop : content.drop b = (content.drop a).drop (b - a) := by
    rw [drop_drop]
    congr 1
    omega
  have hlen : c - a = (b - a) + (c - b) := by omega
  rw [slice, slice, slice, hdrop, hlen, take_add]

theorem span_le_total (x : Sharing) : x.span.2 ≤ x.job.totalBytes := Nat.min_le_right _ _

theorem requestedBytes_le (h : ∀ r ∈ rs, r.endExclusive - r.start ≤ n) :
    requestedBytes rs ≤ rs.length * n := by
  induction rs with
  | nil => exact Nat.zero_le _
  | cons r rs ih =>
    have hr := h r mem_cons_self
    have hrs := ih fun q hq => h q (mem_cons_of_mem r hq)
    rw [requestedBytes, map_cons, sum_cons, length_cons, Nat.succ_mul]
    rw [requestedBytes] at hrs
    omega

theorem requestedBytes_append (rs qs : List PartRange) :
    requestedBytes (rs ++ qs) = requestedBytes rs + requestedBytes qs := by
  rw [requestedBytes, map_append, sum_append]
  rfl

def cut (r : PartRange) (stop : ℕ) : List PartRange :=
  if stop < r.endExclusive then [⟨stop,r.endExclusive⟩] else []

theorem mem_cut {q : PartRange} (h : q ∈ cut r stop) :
    q.start = stop ∧ stop < r.endExclusive ∧ q.endExclusive = r.endExclusive := by
  unfold cut at h
  split_ifs at h with hlt
  · rw [mem_singleton.mp h]
    exact ⟨rfl,hlt,rfl⟩
  · cases h

theorem requestedBytes_cut (h : stop ≤ r.endExclusive) :
    requestedBytes (cut r stop) = r.endExclusive - stop := by
  unfold cut requestedBytes
  split_ifs
  · simp
  · simp
    omega

theorem consecutive_cut (hn : 0 < n) (hle : r.start + n ≤ r.endExclusive)
    (h : Consecutive a (r :: rs) b) :
    Consecutive a (⟨r.start,r.start + n⟩ :: (cut r (r.start + n) ++ rs)) b := by
  obtain ⟨hstart,hlt,hrs⟩ := h
  refine ⟨hstart,Nat.lt_add_of_pos_right hn,?_⟩
  unfold cut
  split_ifs with hmore
  · exact ⟨rfl,hmore,hrs⟩
  · have hend : r.start + n = r.endExclusive := by omega
    rw [hend]
    exact hrs

/-- An answer splits the range that comes next from the peer. -/
theorem smooth_answer (h : Smooth x s t p front rest) (hstep : x.answer s n = some s') :
    ∃ front' rest', Smooth x s' t p front' rest' ∧ stepsLeft x s' p < stepsLeft x s p := by
  unfold Sharing.answer at hstep
  split at hstep
  · rename_i r requests hphase hrequests
    split_ifs at hstep with hn
    have hnew : s' = { s with
        requests := cut r (r.start + n) ++ requests
        frames := s.frames ++
          [⟨r.start,r.start + n,slice x.copy.1 r.start (r.start + n)⟩] } := by
      unfold cut
      split_ifs <;> simp_all
    have hstream := h.stream
    rw [Exchange.stream, hrequests] at hstream
    have hexact : ∀ f ∈ s'.frames, f.data = slice x.copy.1 f.start f.endExclusive := by
      intro f hf
      rw [hnew] at hf
      rcases mem_append.mp hf with hf | hf
      · exact h.exact f hf
      · rw [mem_singleton.mp hf]
    have hgood : ∀ q ∈ s'.requests, q.start < q.endExclusive := by
      intro q hq
      rw [hnew] at hq
      rcases mem_append.mp hq with hq | hq
      · obtain ⟨hstart,hlt,hend⟩ := mem_cut hq
        omega
      · exact h.good q (by rw [hrequests]; exact mem_cons_of_mem r hq)
    have hleft : stepsLeft x s' p < stepsLeft x s p := by
      have hbytes := requestedBytes_cut hn.2
      unfold stepsLeft
      rw [hnew, hrequests]
      dsimp only
      rw [requestedBytes_append, hbytes, length_append, length_singleton, requestedBytes,
        requestedBytes, map_cons, sum_cons]
      omega
    have hstream' : s'.stream = s.frames.map SendingPart.range ++
        ⟨r.start,r.start + n⟩ :: (cut r (r.start + n) ++ requests) := by
      rw [hnew]
      simp [Exchange.stream, SendingPart.range]
    have hkeep : ∀ front' rest', s'.stream = front' ++ rest' → Consecutive p front' x.span.2 →
        (∀ q ∈ front', ∃ r ∈ (refill x.span.2 t maxInflight).inflight,
          r.start ≤ q.start ∧ q.endExclusive ≤ r.endExclusive) →
        Smooth x s' t p front' rest' := by
      intro front' rest' hs hc ho
      have htask : s'.task = s.task := by rw [hnew]
      have hshared : s'.shared = s.shared := by rw [hnew]
      exact ⟨htask.trans h.task,hshared ▸ h.temp,h.from_start,h.to_end,h.received,
        h.bufferLength,h.buffer,h.asked,h.few,h.within,hs,hc,ho,hexact,hgood⟩
    rcases append_eq_append_iff.mp hstream with ⟨a,hfront,hrest⟩ | ⟨c,hframes,hrest⟩
    · cases a with
      | nil =>
        rw [append_nil] at hfront
        rw [nil_append] at hrest
        refine ⟨front,_,hkeep front _ (by rw [hstream', hfront]) h.consecutive h.outstanding,hleft⟩
      | cons q a =>
        obtain ⟨rfl,hrequests'⟩ := cons.inj hrest
        refine ⟨s.frames.map SendingPart.range ++
          ⟨r.start,r.start + n⟩ :: (cut r (r.start + n) ++ a),rest,hkeep _ _ ?_ ?_ ?_,hleft⟩
        · rw [hstream', hrequests']
          simp
        · have hconsecutive := h.consecutive
          rw [hfront] at hconsecutive
          obtain ⟨m,hm,htail⟩ := consecutive_append.mp hconsecutive
          exact consecutive_append.mpr ⟨m,hm,consecutive_cut hn.1 hn.2 htail⟩
        · have hin : ∀ q ∈ s.frames.map SendingPart.range ++ r :: a,
              ∃ r ∈ (refill x.span.2 t maxInflight).inflight,
                r.start ≤ q.start ∧ q.endExclusive ≤ r.endExclusive := by
            rw [← hfront]
            exact h.outstanding
          intro q hq
          obtain ⟨u,hu,hstart,hend⟩ := hin r (mem_append_right _ mem_cons_self)
          rcases mem_append.mp hq with hq | hq
          · exact hin q (mem_append_left _ hq)
          · rcases mem_cons.mp hq with rfl | hq
            · exact ⟨u,hu,hstart,Nat.le_trans hn.2 hend⟩
            · rcases mem_append.mp hq with hq | hq
              · obtain ⟨hqs,hlt,hqe⟩ := mem_cut hq
                exact ⟨u,hu,by omega,by omega⟩
              · exact hin q (mem_append_right _ (mem_cons_of_mem r hq))
    · refine ⟨front,c ++ ⟨r.start,r.start + n⟩ :: (cut r (r.start + n) ++ requests),
        hkeep _ _ ?_ h.consecutive h.outstanding,hleft⟩
      rw [hstream', hframes, append_assoc]
  · cases hstep

theorem offsetsBelow_pos (h : 0 < n) : offsetsBelow n = [(0, n)] := if_neg (by omega)

theorem mergeIntervals_offsetsBelow {m : ℕ} (h : n < m) :
    mergeIntervals (offsetsBelow n ++ [(n, m)]) = offsetsBelow m := by
  rw [offsetsBelow_pos (Nat.lt_of_le_of_lt (Nat.zero_le n) h)]
  rcases Nat.eq_zero_or_pos n with rfl | hpos
  · rfl
  · rw [offsetsBelow_pos hpos]
    have hmax : max n m = m := Nat.max_eq_right (Nat.le_of_lt h)
    simp [mergeIntervals, mergeStep, hmax]

theorem take_overwrite {data : Bytes} (h : n ≤ content.length) :
    (File.overwrite content data n).take (n + data.length) = content.take n ++ data := by
  have hlen : (content.take n ++ data).length = n + data.length := by
    rw [length_append, length_take, Nat.min_eq_left h]
  rw [File.overwrite, ← hlen, take_left]

theorem smooth_accept (h : Smooth x s t p front rest) {fs : List SendingPart}
    (hframes : s.frames = f :: fs) :
    ∃ front', front = f.range :: front' ∧ f.start = p ∧
      Acceptable x.span.1 x.span.2 x.job.totalBytes (refill x.span.2 t maxInflight) f.start
        f.endExclusive f.data ∧
      fs.map SendingPart.range ++ s.requests = front' ++ rest ∧
      Consecutive f.endExclusive front' x.span.2 := by
  have hstream := h.stream
  have hconsecutive := h.consecutive
  have hend := h.to_end
  have houtstanding := h.outstanding
  have hexact := h.exact f (by rw [hframes]; exact mem_cons_self)
  rw [Exchange.stream, hframes, map_cons, cons_append] at hstream
  cases front with
  | nil =>
    have hdone : p = x.span.2 := hconsecutive
    omega
  | cons q front =>
    obtain ⟨rfl,hrest⟩ := cons.inj hstream
    obtain ⟨hstart,hlt,htail⟩ := hconsecutive
    have hstart : f.start = p := hstart
    have hlt : f.start < f.endExclusive := hlt
    have htail : Consecutive f.endExclusive front x.span.2 := htail
    have htotal := span_le_total x
    have hfrom := h.from_start
    have hle := htail.le
    refine ⟨front,rfl,hstart,⟨hlt,by omega,hle,by omega,?_,?_⟩,hrest,htail⟩
    · rw [hexact, length_slice]
      rw [x.copy_length]
      omega
    · obtain ⟨r,hr,hwithin⟩ := houtstanding f.range mem_cons_self
      exact ⟨r,hr,hwithin⟩

theorem accept_received (h : Smooth x s t p front rest) (data : Bytes) (hlt : p < stop) :
    ((refill x.span.2 t maxInflight).accept x.span.1 p stop data).received =
      offsetsBelow (stop - x.span.1) := by
  have hfrom := h.from_start
  refine Eq.trans ?_ (mergeIntervals_offsetsBelow (Nat.sub_lt_sub_right hfrom hlt))
  unfold Transfer.accept
  dsimp only
  rw [(refill_received _ _ _).1, h.received]

theorem accept_buffer (h : Smooth x s t p front rest) (hlt : p ≤ stop) (hle : stop ≤ x.span.2) :
    (((refill x.span.2 t maxInflight).accept x.span.1 p stop
        (slice x.copy.1 p stop)).hasherBuf).take (stop - x.span.1) =
      slice x.copy.1 x.span.1 stop := by
  have hfrom := h.from_start
  have htotal := span_le_total x
  have hlength : (slice x.copy.1 p stop).length = stop - p :=
    length_slice (by rw [x.copy_length]; omega)
  have hsum : stop - x.span.1 = (p - x.span.1) + (slice x.copy.1 p stop).length := by
    rw [hlength]
    omega
  have hbuffer := h.bufferLength
  have hin : p - x.span.1 ≤ t.hasherBuf.length := by
    rw [hbuffer, Sharing.blockLen]
    have hend := h.to_end
    omega
  unfold Transfer.accept
  dsimp only
  rw [(refill_received _ _ _).2, hsum, take_overwrite hin, h.buffer, slice_append hfrom hlt]

theorem length_accept_buffer (h : Smooth x s t p front rest) (hlt : p ≤ stop)
    (hle : stop ≤ x.span.2) :
    ((refill x.span.2 t maxInflight).accept x.span.1 p stop
      (slice x.copy.1 p stop)).hasherBuf.length = x.blockLen := by
  have hfrom := h.from_start
  have htotal := span_le_total x
  have hlength : (slice x.copy.1 p stop).length = stop - p :=
    length_slice (by rw [x.copy_length]; omega)
  have hbuffer := h.bufferLength
  unfold Transfer.accept
  dsimp only
  rw [(refill_received _ _ _).2, length_overwrite, hbuffer]
  rw [hlength, hbuffer, Sharing.blockLen]
  omega

theorem accept_outstanding (h : Smooth x s t p front rest) {data : Bytes} (hlt : p < stop)
    (hr : r ∈ (refill x.span.2 t maxInflight).inflight) (hafter : stop < r.endExclusive) :
    r ∈ ((refill x.span.2 t maxInflight).accept x.span.1 p stop data).inflight := by
  have hreceived := accept_received h data hlt
  have hfrom := h.from_start
  refine mem_filter.mpr ⟨hr,?_⟩
  have hreceived' : mergeIntervals ((refill x.span.2 t maxInflight).received ++
      [(p - x.span.1, stop - x.span.1)]) = [(0, stop - x.span.1)] :=
    hreceived.trans (offsetsBelow_pos (by omega))
  rw [hreceived']
  simp [intervalCovered]
  omega

theorem receivedCovers_offsetsBelow {len : ℕ} (h : 0 < n) :
    receivedCovers (offsetsBelow n) len = decide (len ≤ n) := by
  rw [offsetsBelow_pos h]
  simp [receivedCovers]

/-- What comes of a frame that is accepted: the block so far is one interval. -/
theorem receive_eq (md4 : Bytes → Digest) (htask : s.task = ⟨x.index,x.source,.transferring t⟩)
    (htemp : ∃ file, s.shared.temp = some file) (hbuffer : t.hasherBuf.length = x.blockLen)
    {l : List SendingPart} (hframes : s.frames = f :: l)
    (ha : Acceptable x.span.1 x.span.2 x.job.totalBytes (refill x.span.2 t maxInflight) f.start f.endExclusive f.data)
    (hn : 0 < n)
    (hreceived : ((refill x.span.2 t maxInflight).accept x.span.1 f.start f.endExclusive
      f.data).received = offsetsBelow n) :
    ∃ shared, (∃ file, shared.temp = some file) ∧
      x.receive md4 s =
        if x.blockLen ≤ n then
          some
            { task := ⟨x.index,x.source,.finished (.ok (md4 ((refill x.span.2 t maxInflight).accept
                x.span.1 f.start f.endExclusive f.data).hasherBuf))⟩
              shared := shared
              requests := s.requests
              frames := l }
        else
          some (x.request
            { task := ⟨x.index,x.source,.transferring ((refill x.span.2 t maxInflight).accept
                x.span.1 f.start f.endExclusive f.data)⟩
              shared := shared
              requests := s.requests
              frames := l }) := by
  obtain ⟨file,hfile⟩ := htemp
  refine ⟨{ s.shared with temp := some (file.write f.start f.data) },⟨_,rfl⟩,?_⟩
  have hlength : (refill x.span.2 t maxInflight).hasherBuf.length = x.span.2 - x.span.1 := by
    rw [(refill_received _ _ _).2]
    exact hbuffer
  have htaken : step md4 x.job s.task s.shared (.sendingPart f.start f.endExclusive f.data none) =
      some (⟨x.index,x.source,.transferring
        ((refill x.span.2 t maxInflight).accept x.span.1 f.start f.endExclusive f.data)⟩,
        { s.shared with temp := some (file.write f.start f.data) }) := by
    have hpart := acceptPart_eq file none ha hlength
    rw [hreceived, offsetsBelow_pos hn] at hpart
    simp only [step, htask, hfile, takePart]
    rw [← Sharing.span, hpart]
    rfl
  have hcomplete : ∀ shared, step md4 x.job ⟨x.index,x.source,.transferring
      ((refill x.span.2 t maxInflight).accept x.span.1 f.start f.endExclusive f.data)⟩ shared
        .complete =
      if x.blockLen ≤ n then
        some (⟨x.index,x.source,.finished (.ok (md4 ((refill x.span.2 t maxInflight).accept
          x.span.1 f.start f.endExclusive f.data).hasherBuf))⟩, shared)
      else none := by
    intro shared
    simp only [step]
    rw [← Sharing.span, hreceived, receivedCovers_offsetsBelow hn]
    simp only [decide_eq_true_iff]
    rfl
  unfold Sharing.receive
  rw [hframes]
  dsimp only
  rw [htaken]
  dsimp only
  rw [hcomplete]
  split_ifs <;> rfl

theorem receive_refused (md4 : Bytes → Digest) (htask : s.task = ⟨x.index,x.source,.transferring t⟩)
    {file : File} (hfile : s.shared.temp = some file) {l : List SendingPart}
    (hframes : s.frames = f :: l)
    (hrefused : ¬ Acceptable x.span.1 x.span.2 x.job.totalBytes (refill x.span.2 t maxInflight)
      f.start f.endExclusive f.data) :
    ∃ s' detail, x.receive md4 s = some s' ∧
      s'.task.phase = .finished (.error (.ed2kIntegrity detail)) := by
  obtain ⟨detail,hresult⟩ := acceptPart_refused file none hrefused
  refine ⟨{ task := ⟨x.index,x.source,.finished (.error (.ed2kIntegrity detail))⟩
            shared := { s.shared with temp := some file }
            requests := s.requests
            frames := l },detail,?_,rfl⟩
  have htaken : step md4 x.job s.task s.shared (.sendingPart f.start f.endExclusive f.data none) =
      some (⟨x.index,x.source,.finished (.error (.ed2kIntegrity detail))⟩,
        { s.shared with temp := some file }) := by
    simp only [step, htask, hfile, takePart]
    rw [← Sharing.span, hresult]
    rfl
  unfold Sharing.receive
  rw [hframes]
  dsimp only
  rw [htaken]
  rfl

/-- A frame completes the block, or the rest of it still comes first. -/
theorem smooth_receive (h : Smooth x s t p front rest) (hstep : x.receive md4 s = some s') :
    (∃ t' p' front' rest', Smooth x s' t' p' front' rest' ∧
      stepsLeft x s' p' < stepsLeft x s p) ∨
      s'.task.phase =
        .finished (.ok (md4 (part x.copy.1 x.index x.job.totalBytes x.job.partSize))) := by
  cases hframes : s.frames with
  | nil =>
    simp only [Sharing.receive, hframes] at hstep
    cases hstep
  | cons f fs =>
    obtain ⟨front',rfl,rfl,hacceptable,hrest,htail⟩ := smooth_accept h hframes
    have hexact := h.exact f (by rw [hframes]; exact mem_cons_self)
    have hlt := hacceptable.nonempty
    have hle := hacceptable.to_end
    have hfrom := h.from_start
    have hreceived := accept_received h f.data hlt
    obtain ⟨shared,htemp,hreceive⟩ := receive_eq md4 h.task h.temp h.bufferLength hframes
      hacceptable (n := f.endExclusive - x.span.1) (by omega) hreceived
    rw [hreceive, Sharing.blockLen] at hstep
    by_cases hdone : x.span.2 - x.span.1 ≤ f.endExclusive - x.span.1
    · rw [if_pos hdone] at hstep
      cases hstep
      right
      have hend : f.endExclusive = x.span.2 := by omega
      have hbuffer := accept_buffer h (Nat.le_of_lt hlt) hle
      have hlength := length_accept_buffer h (Nat.le_of_lt hlt) hle
      have hall : ((refill x.span.2 t maxInflight).accept x.span.1 f.start f.endExclusive
          (slice x.copy.1 f.start f.endExclusive)).hasherBuf.length ≤
            f.endExclusive - x.span.1 := by
        rw [hlength, Sharing.blockLen]
        omega
      rw [take_of_length_le hall] at hbuffer
      dsimp only
      rw [hexact, hbuffer, hend]
      rfl
    · rw [if_neg hdone] at hstep
      cases hstep
      left
      have hasked : ((refill x.span.2 t maxInflight).accept x.span.1 f.start f.endExclusive
          f.data).nextReqStart = x.span.2 := h.asked
      have hrefill := refill_done hasked maxInflight
      have hsub : ∀ r ∈ ((refill x.span.2 t maxInflight).accept x.span.1 f.start f.endExclusive
          f.data).inflight, r ∈ (refill x.span.2 t maxInflight).inflight :=
        fun r hr => mem_of_mem_filter hr
      have hfew : ((refill x.span.2 t maxInflight).accept x.span.1 f.start f.endExclusive
          f.data).inflight.length ≤ maxInflight :=
        Nat.le_trans (length_filter_le _ _) h.few
      refine ⟨_,f.endExclusive,front',rest ++ ((refill x.span.2 t maxInflight).accept x.span.1
        f.start f.endExclusive f.data).inflight,⟨rfl,htemp,by omega,by omega,hreceived,?_,?_,
        ?_,?_,?_,?_,htail,?_,?_,?_⟩,?_⟩
      · rw [hexact]
        exact length_accept_buffer h (Nat.le_of_lt hlt) hle
      · rw [hexact]
        exact accept_buffer h (Nat.le_of_lt hlt) hle
      · rw [hrefill]
        exact hasked
      · rw [hrefill]
        exact hfew
      · rw [hrefill]
        intro r hr
        exact h.within r (hsub r hr)
      · rw [Exchange.stream, ← append_assoc, ← hrest]
        simp only [Sharing.request, hrefill, append_assoc]
      · rw [hrefill]
        intro q hq
        obtain ⟨r,hr,hstart,hend⟩ := h.outstanding q (mem_cons_of_mem _ hq)
        have hmem := htail.mem hq
        exact ⟨r,accept_outstanding h hlt hr (by omega),hstart,hend⟩
      · intro g hg
        refine h.exact g ?_
        rw [hframes]
        exact mem_cons_of_mem f hg
      · intro r hr
        simp only [Sharing.request, hrefill] at hr
        rcases mem_append.mp hr with hr | hr
        · exact h.good r hr
        · exact (h.within r (hsub r hr)).2.1
      · have hbytes : requestedBytes ((refill x.span.2 t maxInflight).accept x.span.1 f.start
            f.endExclusive f.data).inflight ≤ 3 * x.blockLen := by
          refine Nat.le_trans (requestedBytes_le (n := x.blockLen) ?_) (Nat.mul_le_mul_right _ hfew)
          intro r hr
          have hwithin := h.within r (hsub r hr)
          unfold Sharing.blockLen
          omega
        have hgrow : (x.span.2 - f.endExclusive) * (6 * x.blockLen + 1) + (6 * x.blockLen + 1) ≤
            (x.span.2 - f.start) * (6 * x.blockLen + 1) := by
          rw [← Nat.succ_mul]
          exact Nat.mul_le_mul_right _ (by omega)
        unfold stepsLeft
        simp only [Sharing.request, hrefill, requestedBytes_append, hframes, length_cons]
        omega

theorem smooth_start (h : x.blockLen ≤ maxInflight * blockSize) :
    ∃ t front, Smooth x x.start t x.span.1 front [] := by
  have hnonempty : x.span.1 < x.span.2 := x.nonempty
  obtain ⟨hconsecutive,hnext,hfew⟩ := refill_consecutive x.span.1 x.span.2
    maxInflight (t := ⟨[],[],x.span.1,List.replicate x.blockLen 0⟩) rfl (Nat.le_refl _)
    (Nat.le_of_lt hnonempty)
  have hasked : min (x.span.1 + maxInflight * blockSize) x.span.2 = x.span.2 := by
    unfold Sharing.blockLen at h
    generalize maxInflight * blockSize = bytes at h ⊢
    omega
  rw [hnext] at hconsecutive
  have hnext := hnext.trans hasked
  dsimp only at hconsecutive
  rw [hasked] at hconsecutive
  refine ⟨⟨[],[],x.span.1,List.replicate x.blockLen 0⟩,_,rfl,⟨x.temp,rfl⟩,Nat.le_refl _,
    hnonempty,?_,length_replicate,?_,hnext,hfew,fun r hr => hconsecutive.mem hr,?_,
    hconsecutive,?_,nofun,?_⟩
  · rw [Nat.sub_self]
    rfl
  · rw [Nat.sub_self, slice, Nat.sub_self, take_zero, take_zero]
  · simp only [Exchange.stream, Sharing.start, Sharing.request, map_nil, nil_append,
      append_nil]
  · intro q hq
    exact ⟨q,hq,Nat.le_refl _,Nat.le_refl _⟩
  · intro r hr
    simp only [Sharing.start, Sharing.request, nil_append] at hr
    exact (hconsecutive.mem hr).2.1

theorem smooth_moves (h : Smooth x s t p front rest) : ∃ a, (x.turn md4 s a).isSome = true := by
  cases hframes : s.frames with
  | cons f fs =>
    refine ⟨.receive,?_⟩
    simp only [Sharing.turn, Sharing.receive, hframes]
    obtain ⟨file,hfile⟩ := h.temp
    simp only [step, h.task, hfile, takePart]
    split <;> rfl
  | nil =>
    have hstream := h.stream
    have hconsecutive := h.consecutive
    have hend := h.to_end
    rw [Exchange.stream, hframes] at hstream
    cases front with
    | nil =>
      have hdone : p = x.span.2 := hconsecutive
      omega
    | cons q front =>
      have hrequests : s.requests = q :: (front ++ rest) := hstream
      obtain ⟨-,hlt,-⟩ := hconsecutive
      refine ⟨.answer 1,?_⟩
      have hguard : 0 < 1 ∧ q.start + 1 ≤ q.endExclusive := ⟨Nat.one_pos,hlt⟩
      simp only [Sharing.turn, Sharing.answer, h.task, hrequests, if_pos hguard]
      rfl

theorem turn_finished {result : Except DownloadError Digest} (h : s.task.phase = .finished result)
    (a : Turn) : x.turn md4 s a = none := by
  cases a with
  | answer length =>
    simp only [Sharing.turn, Sharing.answer]
    rw [h]
  | receive =>
    simp only [Sharing.turn, Sharing.receive]
    cases s.frames with
    | nil => rfl
    | cons f fs =>
      dsimp only
      simp only [step, h]

theorem smooth_run {turns : List Turn} (h : Smooth x s t p front rest)
    (hrun : exec (x.turn md4) s turns = some s') :
    ((∃ a, (x.turn md4 s' a).isSome = true) ∨ s'.task.phase =
      .finished (.ok (md4 (part x.copy.1 x.index x.job.totalBytes x.job.partSize)))) ∧
      turns.length ≤ stepsLeft x s p := by
  induction turns generalizing s t p front rest with
  | nil =>
    cases hrun
    exact ⟨.inl (smooth_moves h),Nat.zero_le _⟩
  | cons a turns ih =>
    obtain ⟨r,hr,hrest⟩ := exec_cons_iff.mp hrun
    rw [length_cons]
    have hstep : (∃ t' p' front' rest', Smooth x r t' p' front' rest' ∧
        stepsLeft x r p' < stepsLeft x s p) ∨ r.task.phase =
          .finished (.ok (md4 (part x.copy.1 x.index x.job.totalBytes x.job.partSize))) := by
      cases a with
      | answer length =>
        obtain ⟨front',rest',hsmooth,hlt⟩ := smooth_answer h hr
        exact .inl ⟨t,p,front',rest',hsmooth,hlt⟩
      | receive => exact smooth_receive h hr
    rcases hstep with ⟨t',p',front',rest',hsmooth,hlt⟩ | hdone
    · obtain ⟨hend,hlength⟩ := ih hsmooth hrest
      exact ⟨hend,by omega⟩
    · cases turns with
      | nil =>
        cases hrest
        refine ⟨.inr hdone,?_⟩
        have hpos : 0 < stepsLeft x s p := by
          have hend := h.to_end
          unfold stepsLeft
          have hmul : 0 < (x.span.2 - p) * (6 * x.blockLen + 1) :=
            Nat.mul_pos (by omega) (Nat.succ_pos _)
          omega
        exact hpos
      | cons b turns =>
        rw [exec_cons, turn_finished hdone] at hrest
        cases hrest

theorem completes_of_few (h : x.blockLen ≤ maxInflight * blockSize) : x.Completes md4 := by
  obtain ⟨t,front,hstart⟩ := smooth_start h
  exact ⟨fun turns s hrun => (smooth_run hstart hrun).1,
    _,fun turns s hrun => (smooth_run hstart hrun).2⟩

/-! ## A block of more ranges -/

def nth (x : Sharing) (k : ℕ) : PartRange :=
  ⟨x.span.1 + k * blockSize,x.span.1 + (k + 1) * blockSize⟩

def ahead (x : Sharing) (k : ℕ) : List PartRange := (List.range' k (maxInflight - k)).map (nth x)

theorem ahead_cons {k : ℕ} (hk : k < maxInflight) : ahead x k = nth x k :: ahead x (k + 1) := by
  have hlength : maxInflight - k = (maxInflight - (k + 1)) + 1 := by omega
  rw [ahead, hlength, range'_succ, map_cons]
  rfl

theorem ahead_nil (x : Sharing) : ahead x maxInflight = [] := rfl

theorem refill_later (blockEnd : ℕ) (t : Transfer) (fuel : ℕ) :
    ∃ later, (refill blockEnd t fuel).inflight = t.inflight ++ later ∧
      (∀ r ∈ later, t.nextReqStart ≤ r.start) ∧
      t.nextReqStart ≤ (refill blockEnd t fuel).nextReqStart := by
  induction fuel generalizing t with
  | zero => exact ⟨[],(append_nil _).symm,nofun,Nat.le_refl _⟩
  | succ fuel ih =>
    rw [refill]
    split_ifs with hmore
    · obtain ⟨later,hinflight,hlater,hnext⟩ := ih { t with
        inflight := t.inflight ++ [⟨t.nextReqStart,min (t.nextReqStart + blockSize) blockEnd⟩]
        nextReqStart := min (t.nextReqStart + blockSize) blockEnd }
      have hgrow : t.nextReqStart ≤ min (t.nextReqStart + blockSize) blockEnd := by omega
      refine ⟨⟨t.nextReqStart,min (t.nextReqStart + blockSize) blockEnd⟩ :: later,?_,?_,
        Nat.le_trans hgrow hnext⟩
      · rw [hinflight]
        simp
      · intro r hr
        rcases mem_cons.mp hr with rfl | hr
        · exact Nat.le_refl _
        · exact Nat.le_trans hgrow (hlater r hr)
    · exact ⟨[],(append_nil _).symm,nofun,Nat.le_refl _⟩

/-- The first `k` ranges have come, and nothing of the others. -/
structure Sequential (x : Sharing) (k : ℕ) (s : Exchange) (t : Transfer) : Prop where
  task : s.task = ⟨x.index,x.source,.transferring t⟩
  temp : ∃ file, s.shared.temp = some file
  received : t.received = offsetsBelow (k * blockSize)
  bufferLength : t.hasherBuf.length = x.blockLen
  frames : s.frames = []
  outstanding : ∃ later, (refill x.span.2 t maxInflight).inflight = ahead x k ++ later ∧
    ∀ r ∈ later, x.span.1 + maxInflight * blockSize ≤ r.start
  next : x.span.1 + maxInflight * blockSize ≤ (refill x.span.2 t maxInflight).nextReqStart

def whole : List Turn := [.answer blockSize, .receive]

theorem answer_whole (htask : s.task = ⟨x.index,x.source,.transferring t⟩) {k : ℕ}
    {requests : List PartRange} (hrequests : s.requests = nth x k :: requests) :
    x.answer s blockSize = some { s with
      requests := requests
      frames := s.frames ++ [⟨(nth x k).start,(nth x k).endExclusive,
        slice x.copy.1 (nth x k).start (nth x k).endExclusive⟩] } := by
  have hend : (nth x k).start + blockSize = (nth x k).endExclusive := by
    simp only [nth]
    rw [Nat.succ_mul, Nat.add_assoc]
  have hpos : 0 < blockSize := by decide
  simp only [Sharing.answer, htask, hrequests, hend, Nat.lt_irrefl, if_false, hpos, Nat.le_refl,
    and_self, if_true]

theorem nth_start_sub (x : Sharing) (k : ℕ) : (nth x k).start - x.span.1 = k * blockSize :=
  Nat.add_sub_cancel_left _ _

theorem nth_end_sub (x : Sharing) (k : ℕ) :
    (nth x k).endExclusive - x.span.1 = (k + 1) * blockSize :=
  Nat.add_sub_cancel_left _ _

section Long

variable (hlong : maxInflight * blockSize < x.blockLen) {k : ℕ} (hk : k < maxInflight)

theorem nth_start_lt (x : Sharing) (k : ℕ) : (nth x k).start < (nth x k).endExclusive := by
  have hpos : 0 < blockSize := by decide
  exact Nat.add_lt_add_left (Nat.mul_lt_mul_of_pos_right (Nat.lt_succ_self k) hpos) _

include hlong hk

theorem nth_end_lt : (nth x k).endExclusive < x.span.2 := by
  have hmul : (k + 1) * blockSize ≤ maxInflight * blockSize := Nat.mul_le_mul_right _ hk
  have hlen : x.blockLen = x.span.2 - x.span.1 := rfl
  have hend : (nth x k).endExclusive = x.span.1 + (k + 1) * blockSize := rfl
  generalize (k + 1) * blockSize = stop at hmul hend
  generalize maxInflight * blockSize = bytes at hlong hmul
  omega

theorem sequential_acceptable (h : Sequential x k s t) :
    Acceptable x.span.1 x.span.2 x.job.totalBytes (refill x.span.2 t maxInflight) (nth x k).start
      (nth x k).endExclusive (slice x.copy.1 (nth x k).start (nth x k).endExclusive) := by
  have hend := nth_end_lt hlong hk
  have htotal := span_le_total x
  obtain ⟨later,hinflight,-⟩ := h.outstanding
  refine ⟨nth_start_lt x k,Nat.le_add_right _ _,by omega,by omega,length_slice ?_,nth x k,?_,
    Nat.le_refl _,Nat.le_refl _⟩
  · rw [x.copy_length]
    omega
  · rw [hinflight, ahead_cons hk]
    exact mem_cons_self

omit hlong hk in
theorem sequential_received (h : Sequential x k s t) (data : Bytes) :
    ((refill x.span.2 t maxInflight).accept x.span.1 (nth x k).start (nth x k).endExclusive
      data).received = offsetsBelow ((k + 1) * blockSize) := by
  have hpos : 0 < blockSize := by decide
  have hlt : k * blockSize < (k + 1) * blockSize :=
    Nat.mul_lt_mul_of_pos_right (Nat.lt_succ_self k) hpos
  unfold Transfer.accept
  dsimp only
  rw [(refill_received _ _ _).1, h.received, nth_start_sub, nth_end_sub,
    mergeIntervals_offsetsBelow hlt]

omit hlong in
/-- The range that has come is not outstanding any more, and the later ones are. -/
theorem sequential_inflight (h : Sequential x k s t) (data : Bytes) :
    ∃ later, ((refill x.span.2 t maxInflight).accept x.span.1 (nth x k).start
        (nth x k).endExclusive data).inflight = ahead x (k + 1) ++ later ∧
      ∀ r ∈ later, x.span.1 + maxInflight * blockSize ≤ r.start := by
  have hpos : 0 < blockSize := by decide
  have hreceived := sequential_received h data
  rw [offsetsBelow_pos (Nat.mul_pos (Nat.succ_pos k) hpos)] at hreceived
  obtain ⟨later,hinflight,hlater⟩ := h.outstanding
  have hfilter : ((refill x.span.2 t maxInflight).accept x.span.1 (nth x k).start
      (nth x k).endExclusive data).inflight =
        (ahead x k ++ later).filter (fun r => !intervalCovered [(0, (k + 1) * blockSize)]
          (r.start - x.span.1) (r.endExclusive - x.span.1)) := by
    rw [← hreceived, ← hinflight]
    rfl
  have hfirst : intervalCovered [(0, (k + 1) * blockSize)] ((nth x k).start - x.span.1)
      ((nth x k).endExclusive - x.span.1) = true := by
    rw [nth_end_sub]
    simp [intervalCovered]
  have hrest : (ahead x (k + 1)).filter (fun r => !intervalCovered [(0, (k + 1) * blockSize)]
      (r.start - x.span.1) (r.endExclusive - x.span.1)) = ahead x (k + 1) := by
    refine filter_eq_self.mpr ?_
    intro r hr
    obtain ⟨j,hj,rfl⟩ := mem_map.mp hr
    have hkj : k + 1 ≤ j := (mem_range'_1.mp hj).1
    have hlt : (k + 1) * blockSize < (j + 1) * blockSize :=
      Nat.mul_lt_mul_of_pos_right (Nat.succ_lt_succ hkj) hpos
    rw [nth_end_sub]
    simp only [intervalCovered, any_cons, any_nil, Bool.or_false, Bool.not_eq_true',
      decide_eq_false_iff_not]
    exact fun hle => absurd hle.2 (Nat.not_le.mpr hlt)
  refine ⟨later.filter (fun r => !intervalCovered [(0, (k + 1) * blockSize)]
    (r.start - x.span.1) (r.endExclusive - x.span.1)),?_,?_⟩
  · rw [hfilter, ahead_cons hk, cons_append, filter_cons, hfirst, filter_append, hrest]
    rfl
  · intro r hr
    exact hlater r (mem_of_mem_filter hr)

/-- Of a long block the first ranges come in turn, and those that are outstanding are
requested again. -/
theorem sequential_succ (md4 : Bytes → Digest) (h : Sequential x k s t) {requests : List PartRange}
    (hrequests : s.requests = nth x k :: requests) :
    ∃ s' t' later, exec (x.turn md4) s whole = some s' ∧
      Sequential x (k + 1) s' t' ∧ s'.requests = requests ++ (ahead x (k + 1) ++ later) := by
  have hpos : 0 < blockSize := by decide
  have hmul : (k + 1) * blockSize ≤ maxInflight * blockSize := Nat.mul_le_mul_right _ hk
  have hacceptable := sequential_acceptable hlong hk h
  obtain ⟨shared,htemp,hreceive⟩ := receive_eq md4 (s := { s with
      requests := requests
      frames := s.frames ++ [⟨(nth x k).start,(nth x k).endExclusive,
        slice x.copy.1 (nth x k).start (nth x k).endExclusive⟩] }) h.task h.temp h.bufferLength
    (f := ⟨(nth x k).start,(nth x k).endExclusive,
      slice x.copy.1 (nth x k).start (nth x k).endExclusive⟩) (l := [])
    (by rw [h.frames]; rfl) hacceptable (Nat.mul_pos (Nat.succ_pos k) hpos)
    (sequential_received h _)
  rw [if_neg (Nat.not_le.mpr (Nat.lt_of_le_of_lt hmul hlong))] at hreceive
  obtain ⟨later,hinflight,hlater⟩ := sequential_inflight hk h
    (slice x.copy.1 (nth x k).start (nth x k).endExclusive)
  have hreceived := sequential_received h (slice x.copy.1 (nth x k).start (nth x k).endExclusive)
  have hbefore : x.span.1 + maxInflight * blockSize ≤ ((refill x.span.2 t maxInflight).accept
      x.span.1 (nth x k).start (nth x k).endExclusive
      (slice x.copy.1 (nth x k).start (nth x k).endExclusive)).nextReqStart := h.next
  have hbuffer : ((refill x.span.2 t maxInflight).accept x.span.1 (nth x k).start
      (nth x k).endExclusive (slice x.copy.1 (nth x k).start
        (nth x k).endExclusive)).hasherBuf.length = x.blockLen := by
    have hend := nth_end_lt hlong hk
    have hfrom := hacceptable.from_start
    have hlt := hacceptable.nonempty
    unfold Transfer.accept
    dsimp only
    rw [length_overwrite, (refill_received _ _ _).2, h.bufferLength]
    rw [(refill_received _ _ _).2, h.bufferLength, hacceptable.length, Sharing.blockLen]
    omega
  generalize (refill x.span.2 t maxInflight).accept x.span.1 (nth x k).start (nth x k).endExclusive
    (slice x.copy.1 (nth x k).start (nth x k).endExclusive) = t' at *
  obtain ⟨more,hmore,hfrom,hnext⟩ := refill_later x.span.2 t' maxInflight
  have hall : (refill x.span.2 t' maxInflight).inflight = ahead x (k + 1) ++ (later ++ more) := by
    rw [hmore, hinflight, append_assoc]
  refine ⟨x.request ⟨⟨x.index,x.source,.transferring t'⟩,shared,requests,[]⟩,t',later ++ more,
    ?_,⟨rfl,htemp,hreceived,hbuffer,rfl,⟨later ++ more,hall,?_⟩,
      Nat.le_trans hbefore hnext⟩,?_⟩
  · rw [whole, exec_cons, Sharing.turn, answer_whole h.task hrequests, bind_some, exec_cons,
      Sharing.turn, hreceive]
    rfl
  · intro r hr
    rcases mem_append.mp hr with hr | hr
    · exact hlater r hr
    · exact Nat.le_trans hbefore (hfrom r hr)
  · dsimp only [Sharing.request]
    rw [hall]

omit hk in
/-- The loop of a long block begins with the first three ranges. -/
theorem refill_ahead (j : ℕ) (hj : j ≤ maxInflight) :
    refill x.span.2 ⟨[],[],x.span.1,List.replicate x.blockLen 0⟩ maxInflight =
      refill x.span.2 ⟨[],(List.range' 0 j).map (nth x),x.span.1 + j * blockSize,
        List.replicate x.blockLen 0⟩ (maxInflight - j) := by
  induction j with
  | zero =>
    rw [Nat.zero_mul]
    rfl
  | succ j ih =>
    have hend := nth_end_lt hlong hj
    have hstart := nth_start_lt x j
    have hstep : x.span.1 + j * blockSize + blockSize = (nth x j).endExclusive := by
      rw [nth, Nat.succ_mul, Nat.add_assoc]
    have hroom : (List.map (nth x) (range' 0 j)).length < maxInflight := by
      rw [length_map, length_range']
      exact hj
    have hfuel : maxInflight - j = (maxInflight - (j + 1)) + 1 := by omega
    rw [ih (Nat.le_of_lt hj), hfuel, refill, if_pos ⟨hroom,Nat.lt_trans hstart hend⟩]
    dsimp only
    rw [hstep, Nat.min_eq_left (Nat.le_of_lt hend), range'_1_concat, map_append,
      Nat.zero_add]
    rfl

end Long

theorem sequential_start (hlong : maxInflight * blockSize < x.blockLen) :
    ∃ t, Sequential x 0 x.start t ∧ x.start.requests = ahead x 0 := by
  have hrefill := refill_ahead hlong maxInflight (Nat.le_refl _)
  rw [Nat.sub_self, refill] at hrefill
  refine ⟨⟨[],[],x.span.1,List.replicate x.blockLen 0⟩,⟨rfl,⟨_,rfl⟩,?_,length_replicate,
    rfl,⟨[],?_,forall_mem_nil _⟩,?_⟩,?_⟩
  · rw [Nat.zero_mul]
    rfl
  · rw [hrefill, append_nil]
    rfl
  · rw [hrefill]
  · simp only [Sharing.start, Sharing.request, nil_append]
    rw [hrefill]
    rfl

/-- A range that is not outstanding any more is taken for unrequested data. -/
theorem sequential_refused (md4 : Bytes → Digest) (h : Sequential x maxInflight s t) {k : ℕ}
    (hk : k < maxInflight) {requests : List PartRange}
    (hrequests : s.requests = nth x k :: requests) :
    ∃ s' detail, exec (x.turn md4) s whole = some s' ∧
      s'.task.phase = .finished (.error (.ed2kIntegrity detail)) := by
  obtain ⟨file,hfile⟩ := h.temp
  obtain ⟨later,hinflight,hlater⟩ := h.outstanding
  have hrefused : ¬ Acceptable x.span.1 x.span.2 x.job.totalBytes (refill x.span.2 t maxInflight)
      (nth x k).start (nth x k).endExclusive
      (slice x.copy.1 (nth x k).start (nth x k).endExclusive) := by
    rintro ⟨-,-,-,-,-,r,hr,hle,-⟩
    rw [hinflight, ahead_nil, nil_append] at hr
    have hfrom := hlater r hr
    have hpos : 0 < blockSize := by decide
    have hmul : k * blockSize < maxInflight * blockSize := Nat.mul_lt_mul_of_pos_right hk hpos
    have hstart : (nth x k).start = x.span.1 + k * blockSize := rfl
    rw [hstart] at hle
    exact absurd (Nat.le_trans hfrom hle) (Nat.not_le.mpr (Nat.add_lt_add_left hmul _))
  obtain ⟨s',detail,hreceive,hphase⟩ := receive_refused md4 (s := { s with
      requests := requests
      frames := s.frames ++ [⟨(nth x k).start,(nth x k).endExclusive,
        slice x.copy.1 (nth x k).start (nth x k).endExclusive⟩] }) h.task hfile
    (f := ⟨(nth x k).start,(nth x k).endExclusive,
      slice x.copy.1 (nth x k).start (nth x k).endExclusive⟩) (l := [])
    (by rw [h.frames]; rfl) hrefused
  refine ⟨s',detail,?_,hphase⟩
  rw [whole, exec_cons, Sharing.turn, answer_whole h.task hrequests, bind_some, exec_cons,
    Sharing.turn, hreceive]
  rfl

/-- The first three ranges of a long block come, and then the second one comes again. -/
theorem fails_of_many (md4 : Bytes → Digest) (hlong : maxInflight * blockSize < x.blockLen) :
    ∃ turns s detail, exec (x.turn md4) x.start turns = some s ∧
      s.task.phase = .finished (.error (.ed2kIntegrity detail)) := by
  obtain ⟨t₀,h₀,hrequests₀⟩ := sequential_start hlong
  rw [ahead_cons (by decide)] at hrequests₀
  obtain ⟨s₁,t₁,later₁,hrun₁,h₁,hrequests₁⟩ :=
    sequential_succ hlong (by decide) md4 h₀ hrequests₀
  rw [Nat.zero_add, ahead_cons (k := 1) (by decide), cons_append] at hrequests₁
  obtain ⟨s₂,t₂,later₂,hrun₂,h₂,hrequests₂⟩ :=
    sequential_succ hlong (by decide) md4 h₁ hrequests₁
  rw [ahead_cons (k := 1 + 1) (by decide), cons_append, cons_append] at hrequests₂
  obtain ⟨s₃,t₃,later₃,hrun₃,h₃,hrequests₃⟩ :=
    sequential_succ hlong (by decide) md4 h₂ hrequests₂
  rw [show 1 + 1 + 1 = maxInflight from rfl] at h₃ hrequests₃
  rw [ahead_nil, nil_append, cons_append, cons_append] at hrequests₃
  obtain ⟨s₄,detail,hrun₄,hphase⟩ :=
    sequential_refused md4 h₃ (k := 1) (by decide) hrequests₃
  refine ⟨whole ++ (whole ++ (whole ++ whole)),s₄,detail,?_,hphase⟩
  rw [exec_append, hrun₁, bind_some, exec_append, hrun₂, bind_some, exec_append, hrun₃,
    bind_some, hrun₄]

theorem not_completes_of_many (hlong : maxInflight * blockSize < x.blockLen) : ¬ x.Completes md4 := by
  rintro ⟨hends,-⟩
  obtain ⟨turns,s,detail,hrun,hphase⟩ := fails_of_many md4 hlong
  rcases hends turns s hrun with ⟨a,hmoves⟩ | hdone
  · rw [turn_finished hphase] at hmoves
    cases hmoves
  · rw [hphase] at hdone
    cases hdone

/-- An honest peer brings a block through exactly where its ranges are outstanding together:
where they are three at most. -/
theorem completes_iff (md4 : Bytes → Digest) (x : Sharing) :
    x.Completes md4 ↔ x.blockLen ≤ maxInflight * blockSize := by
  constructor
  · intro h
    by_contra hlong
    exact not_completes_of_many (Nat.not_le.mp hlong) h
  · exact completes_of_few

def fourRanges : Sharing where
  job := { rootHash := Vector.replicate 16 0, totalBytes := 737280, partSize := 9728000 }
  index := 0
  source := .lowId 7
  copy := ⟨List.replicate 737280 0,by rw [List.length_replicate]; decide⟩
  temp := ⟨List.replicate 737280 0,by rw [List.length_replicate]; decide⟩
  copy_length := List.length_replicate
  temp_length := List.length_replicate
  nonempty := by decide

theorem fourRanges_fails : ¬ fourRanges.Completes (fun _ => Vector.replicate 16 1) :=
  not_completes_of_many (by decide)

end RinaDown.Ed2kHonestPeer
