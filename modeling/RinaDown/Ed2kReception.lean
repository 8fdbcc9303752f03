import RinaDown.Ed2kBlockTask
import RinaDown.LabelledExecutions
import RinaDown.MergedIntervals

/-!
# The reception of a block

Whatever frames a peer sends, the received intervals of a block are the offsets
that were written, the buffer that will be hashed holds the bytes of the file
there, and what is neither received nor requested lies ahead. Other tasks write
their blocks into the same file meanwhile.
-/

namespace RinaDown.Ed2kBlockTask

open Ed2kHash LabelledExecutions MergedIntervals

/-! ## Bytes -/

theorem getElem?_overwrite {content data : Bytes} {start : ℕ}
    (h : start + data.length ≤ content.length) (j : ℕ) :
    (File.overwrite content data start)[j]? =
      if start ≤ j ∧ j < start + data.length then data[j - start]? else content[j]? := by
  have hlen : (content.take start).length = start := by
    rw [List.length_take]
    omega
  unfold File.overwrite
  rw [List.append_assoc, List.getElem?_append, hlen]
  split_ifs with hlt hin hin
  · omega
  · exact List.getElem?_take_of_lt hlt
  · rw [List.getElem?_append_left (by omega)]
  · rw [List.getElem?_append_right (by omega), List.getElem?_drop]
    congr 1
    omega

theorem File.getElem?_write {file : File} {data : Bytes} {start : ℕ}
    (h : start + data.length ≤ file.1.length) (j : ℕ) :
    (file.write start data).1[j]? =
      if start ≤ j ∧ j < start + data.length then data[j - start]? else file.1[j]? := by
  rw [File.write, dif_pos h]
  exact getElem?_overwrite h j

theorem length_overwrite {content data : Bytes} {start : ℕ}
    (h : start + data.length ≤ content.length) :
    (File.overwrite content data start).length = content.length := by
  simp only [File.overwrite, List.length_append, List.length_take, List.length_drop]
  omega

theorem mergeIntervals_eq (l : List (ℕ × ℕ)) : mergeIntervals l = merge l := by
  have hstep : mergeStep = absorb := by
    funext merged r
    cases merged <;> rfl
  rw [mergeIntervals, hstep]
  rfl

/-! ## One part -/

variable {blockStart blockEnd totalBytes : ℕ} {t t' : Transfer} {file file' : File}
  {start endExclusive : ℕ} {data : Bytes} {written : Option ℕ}

def Transfer.accept (t : Transfer) (blockStart start endExclusive : ℕ) (data : Bytes) : Transfer :=
  let received := mergeIntervals (t.received ++ [(start - blockStart, endExclusive - blockStart)])
  { t with
    received
    inflight := t.inflight.filter (fun r =>
      !intervalCovered received (r.start - blockStart) (r.endExclusive - blockStart))
    hasherBuf := File.overwrite t.hasherBuf data (start - blockStart) }

/-- A part that is within the block and was requested. -/
structure Acceptable (blockStart blockEnd totalBytes : ℕ) (t : Transfer)
    (start endExclusive : ℕ) (data : Bytes) : Prop where
  nonempty : start < endExclusive
  from_start : blockStart ≤ start
  to_end : endExclusive ≤ blockEnd
  in_file : endExclusive ≤ totalBytes
  length : data.length = endExclusive - start
  requested : ∃ r ∈ t.inflight, r.start ≤ start ∧ endExclusive ≤ r.endExclusive

/-- A part that is not acceptable is refused before anything is written. -/
theorem acceptPart_refused (file : File) (written : Option ℕ)
    (h : ¬ Acceptable blockStart blockEnd totalBytes t start endExclusive data) :
    ∃ detail, acceptPart blockStart blockEnd totalBytes t file start endExclusive data written =
      (file, .error (.ed2kIntegrity detail)) := by
  simp only [acceptPart]
  by_cases hbounds : endExclusive ≤ start ∨ start < blockStart ∨ blockEnd < endExclusive ∨
      totalBytes < endExclusive
  · exact ⟨_,if_pos hbounds⟩
  · by_cases hlength : data.length ≠ endExclusive - start
    · exact ⟨_,by rw [if_neg hbounds, if_pos hlength]⟩
    · rw [if_neg hbounds, if_neg hlength]
      refine ⟨_,if_pos ?_⟩
      by_contra hrequested
      have hany : t.inflight.any (fun r => r.start ≤ start ∧ endExclusive ≤ r.endExclusive) =
          true := by simpa using hrequested
      obtain ⟨r,hr,hwithin⟩ := List.any_eq_true.mp hany
      exact h ⟨by omega,by omega,by omega,by omega,by omega,r,hr,by simpa using hwithin⟩

theorem acceptPart_eq (file : File) (written : Option ℕ)
    (h : Acceptable blockStart blockEnd totalBytes t start endExclusive data)
    (hbuffer : t.hasherBuf.length = blockEnd - blockStart) :
    acceptPart blockStart blockEnd totalBytes t file start endExclusive data written =
      match written with
      | some n => (file.write start (data.take n), .error (.io "write failed"))
      | none =>
        (file.write start data,
          if maxIntervals < (t.accept blockStart start endExclusive data).received.length then
            .error (.ed2kIntegrity "too many fragmented intervals (flood?)")
          else .ok (t.accept blockStart start endExclusive data)) := by
  obtain ⟨hlt,hstart,hend,htotal,hlength,r,hr,hwithin⟩ := h
  have hrequested : t.inflight.any (fun r => r.start ≤ start ∧ endExclusive ≤ r.endExclusive) =
      true := List.any_eq_true.mpr ⟨r,hr,by simpa using hwithin⟩
  simp only [acceptPart]
  rw [if_neg (by omega), if_neg (by omega), if_neg (by simp only [hrequested]; decide)]
  cases written with
  | some n => rfl
  | none =>
    dsimp only
    rw [if_neg (by omega)]
    unfold Transfer.accept
    split_ifs <;> rfl

theorem acceptPart_ok (hbuffer : t.hasherBuf.length = blockEnd - blockStart)
    (h : acceptPart blockStart blockEnd totalBytes t file start endExclusive data written =
      (file', .ok t')) :
    Acceptable blockStart blockEnd totalBytes t start endExclusive data ∧
      file' = file.write start data ∧ t' = t.accept blockStart start endExclusive data := by
  by_cases hacceptable : Acceptable blockStart blockEnd totalBytes t start endExclusive data
  · refine ⟨hacceptable,?_⟩
    rw [acceptPart_eq file written hacceptable hbuffer] at h
    cases written with
    | some n => cases h
    | none =>
      dsimp only at h
      split_ifs at h
      · cases h
      · cases h
        exact ⟨rfl,rfl⟩
  · obtain ⟨detail,hrefused⟩ := acceptPart_refused file written hacceptable
    rw [hrefused] at h
    cases h

theorem acceptPart_elsewhere (hbuffer : t.hasherBuf.length = blockEnd - blockStart)
    (hfile : totalBytes ≤ file.1.length) {j : ℕ} (hj : j < blockStart ∨ blockEnd ≤ j) :
    (acceptPart blockStart blockEnd totalBytes t file start endExclusive data written).1.1[j]? =
      file.1[j]? := by
  by_cases h : Acceptable blockStart blockEnd totalBytes t start endExclusive data
  · have hwrite : ∀ n, (file.write start (data.take n)).1[j]? = file.1[j]? := by
      intro n
      obtain ⟨hlt,hstart,hend,htotal,hlength,-⟩ := h
      have htake : (data.take n).length ≤ endExclusive - start := by
        rw [← hlength]
        exact List.length_take_le' n data
      rw [File.getElem?_write (by omega), if_neg (by omega)]
    rw [acceptPart_eq file written h hbuffer]
    cases written with
    | some n => exact hwrite n
    | none =>
      have hall := hwrite data.length
      rwa [List.take_length] at hall
  · obtain ⟨detail,hrefused⟩ := acceptPart_refused file written h
    rw [hrefused]

/-! ## The loop state -/

variable {span : ℕ × ℕ} {parts : List (ℕ × Bytes)}

/-- The loop state after the parts taken so far, each with its offset in the file. -/
structure Reception (span : ℕ × ℕ) (parts : List (ℕ × Bytes)) (t : Transfer) (file : File) :
    Prop where
  separated : Separated t.received
  within : ∀ r ∈ t.received, span.1 + r.2 ≤ span.2
  written : ∀ i, Covers t.received i ↔
    ∃ p ∈ parts, p.1 ≤ span.1 + i ∧ span.1 + i < p.1 + p.2.length
  buffer : ∀ i, Covers t.received i → t.hasherBuf[i]? = file.1[span.1 + i]?
  bufferLength : t.hasherBuf.length = span.2 - span.1
  requested : ∀ i, span.1 + i < span.2 → Covers t.received i ∨
    (∃ r ∈ t.inflight, r.start ≤ span.1 + i ∧ span.1 + i < r.endExclusive) ∨
    t.nextReqStart ≤ span.1 + i
  started : ∀ r ∈ t.inflight, span.1 ≤ r.start
  next : span.1 ≤ t.nextReqStart

namespace Reception

theorem opened (span : ℕ × ℕ) (file : File) :
    Reception span [] ⟨[],[],span.1,List.replicate (span.2 - span.1) 0⟩ file where
  separated := ⟨List.Pairwise.nil,nofun⟩
  within := nofun
  written i := by simp [not_covers_nil]
  buffer i hi := absurd hi not_covers_nil
  bufferLength := List.length_replicate
  requested i _ := .inr (.inr (Nat.le_add_right _ _))
  started := nofun
  next := Nat.le_refl _

theorem request (h : Reception span parts t file) (stop : ℕ) (hstop : t.nextReqStart ≤ stop) :
    Reception span parts
      { t with inflight := t.inflight ++ [⟨t.nextReqStart,stop⟩], nextReqStart := stop } file where
  separated := h.separated
  within := h.within
  written := h.written
  buffer := h.buffer
  bufferLength := h.bufferLength
  requested i hi := by
    rcases h.requested i hi with hcovers | ⟨r,hr,hwithin⟩ | hahead
    · exact .inl hcovers
    · exact .inr (.inl ⟨r,List.mem_append_left _ hr,hwithin⟩)
    · rcases Nat.lt_or_ge (span.1 + i) stop with hlt | hge
      · exact .inr (.inl ⟨_,List.mem_append_right _ List.mem_cons_self,hahead,hlt⟩)
      · exact .inr (.inr hge)
  started r hr := by
    rcases List.mem_append.mp hr with hr | hr
    · exact h.started r hr
    · rw [List.mem_singleton.mp hr]
      exact h.next
  next := Nat.le_trans h.next hstop

theorem refill (h : Reception span parts t file) (fuel : ℕ) :
    Reception span parts (refill span.2 t fuel) file := by
  induction fuel generalizing t with
  | zero => exact h
  | succ fuel ih =>
    rw [Ed2kBlockTask.refill]
    split_ifs with hmore
    · exact ih (h.request _ (by omega))
    · exact h

theorem congr (h : Reception span parts t file)
    (hfile : ∀ i, span.1 + i < span.2 → file'.1[span.1 + i]? = file.1[span.1 + i]?) :
    Reception span parts t file' where
  separated := h.separated
  within := h.within
  written := h.written
  buffer i hi := by
    obtain ⟨r,hr,hle,hlt⟩ := hi
    have hwithin := h.within r hr
    rw [hfile i (by omega)]
    exact h.buffer i ⟨r,hr,hle,hlt⟩
  bufferLength := h.bufferLength
  requested := h.requested
  started := h.started
  next := h.next

theorem accept (h : Reception span parts t file)
    (ha : Acceptable span.1 span.2 totalBytes t start endExclusive data)
    (hfile : totalBytes ≤ file.1.length) :
    Reception span (parts ++ [(start, data)]) (t.accept span.1 start endExclusive data)
      (file.write start data) := by
  obtain ⟨hlt,hstart,hend,htotal,hlength,-⟩ := ha
  have hnonempty : ∀ r ∈ t.received ++ [(start - span.1, endExclusive - span.1)], r.1 < r.2 := by
    intro r hr
    rcases List.mem_append.mp hr with hr | hr
    · exact h.separated.nonempty r hr
    · rw [List.mem_singleton.mp hr]
      exact Nat.sub_lt_sub_right hstart hlt
  obtain ⟨hseparated,hcovers⟩ := merge_spec hnonempty
  have hreceived : (t.accept span.1 start endExclusive data).received =
      merge (t.received ++ [(start - span.1, endExclusive - span.1)]) := mergeIntervals_eq _
  -- an offset is received if it was before, or lies in the part
  have hcovers' : ∀ i, Covers (t.accept span.1 start endExclusive data).received i ↔
      Covers t.received i ∨ (start ≤ span.1 + i ∧ span.1 + i < endExclusive) := by
    intro i
    rw [hreceived, hcovers i, covers_concat]
    refine or_congr_right ?_
    dsimp only
    omega
  have hbefore : ∀ i, Covers t.received i → span.1 + i < span.2 := by
    rintro i ⟨r,hr,-,hi⟩
    have hwithin := h.within r hr
    omega
  have hbuffer := h.bufferLength
  refine ⟨by rwa [hreceived],?_,?_,?_,?_,?_,?_,h.next⟩
  · intro r hr
    have hr' := hr
    rw [hreceived] at hr'
    have hpos := hseparated.nonempty r hr'
    have hin : Covers (t.accept span.1 start endExclusive data).received (r.2 - 1) :=
      ⟨r,hr,by omega,by omega⟩
    rcases (hcovers' _).mp hin with hold | hnew
    · have hlast := hbefore _ hold
      omega
    · omega
  · intro i
    rw [hcovers' i, h.written i]
    simp only [List.mem_append, List.mem_singleton, or_and_right, exists_or, exists_eq_left]
    refine or_congr_right ?_
    omega
  · intro i hi
    have hrel : start - span.1 + data.length ≤ t.hasherBuf.length := by omega
    rw [File.getElem?_write (by omega)]
    refine (getElem?_overwrite hrel i).trans ?_
    rcases (hcovers' i).mp hi with hold | hnew
    · have hsame := h.buffer i hold
      split_ifs
      · congr 1
        omega
      · omega
      · omega
      · exact hsame
    · rw [if_pos (by omega), if_pos (by omega)]
      congr 1
      omega
  · exact (length_overwrite (by omega)).trans hbuffer
  · intro i hi
    rcases h.requested i hi with hold | ⟨r,hr,hle,hlt⟩ | hahead
    · exact .inl ((hcovers' i).mpr (.inl hold))
    · have hfrom := h.started r hr
      by_cases hcovered : intervalCovered (t.accept span.1 start endExclusive data).received
          (r.start - span.1) (r.endExclusive - span.1) = true
      · obtain ⟨q,hq,hin⟩ := List.any_eq_true.mp hcovered
        have hin : q.1 ≤ r.start - span.1 ∧ r.endExclusive - span.1 ≤ q.2 := by simpa using hin
        exact .inl ⟨q,hq,by omega,by omega⟩
      · refine .inr (.inl ⟨r,List.mem_filter.mpr ⟨hr,?_⟩,hle,hlt⟩)
        exact (Bool.not_eq_true' _).mpr (Bool.eq_false_iff.mpr hcovered)
    · exact .inr (.inr hahead)
  · intro r hr
    exact h.started r (List.mem_of_mem_filter hr)

/-- When all is received the buffer is the block as it lies in the file. -/
theorem complete (h : Reception span parts t file)
    (hcovers : receivedCovers t.received (span.2 - span.1) = true) :
    (∀ i, span.1 + i < span.2 → Covers t.received i) ∧
      t.hasherBuf = (file.1.drop span.1).take (span.2 - span.1) := by
  have hall : ∀ i, span.1 + i < span.2 → Covers t.received i := by
    intro i hi
    unfold receivedCovers at hcovers
    split at hcovers
    · rename_i r hreceived
      have hr : r.1 = 0 ∧ span.2 - span.1 ≤ r.2 := by simpa using hcovers
      rw [hreceived]
      exact ⟨r,List.mem_cons_self,by omega,by omega⟩
    · cases hcovers
  refine ⟨hall,?_⟩
  refine List.ext_getElem? ?_
  intro i
  rcases Nat.lt_or_ge i (span.2 - span.1) with hlt | hge
  · rw [h.buffer i (hall i (by omega)), List.getElem?_take_of_lt hlt, List.getElem?_drop]
  · rw [List.getElem?_eq_none (by rw [h.bufferLength]; exact hge),
      List.getElem?_eq_none (by rw [List.length_take]; omega)]

end Reception

/-! ## The run of a task -/

variable {md4 : Bytes → Digest} {job : Job} {task task' : BlockTask} {shared shared' : Shared}

/-- A step of the task, or a write of another task into its own block. -/
inductive Act where
  | event (event : Event)
  | elsewhere (start : ℕ) (data : Bytes)

def Event.brought : Event → List (ℕ × Bytes)
  | .sendingPart start _ data _ => [(start, data)]
  | .compressedPart start data _ => [(start, data)]
  | _ => []

def Act.brought : Act → List (ℕ × Bytes)
  | event e => e.brought
  | elsewhere _ _ => []

def BlockTask.blockSpan (job : Job) (task : BlockTask) : ℕ × ℕ :=
  partSpan task.index job.totalBytes job.partSize

def runStep (md4 : Bytes → Digest) (job : Job) (s : BlockTask × Shared) : Act →
    Option (BlockTask × Shared)
  | .event e => step md4 job s.1 s.2 e
  | .elsewhere start data =>
    match s.2.temp with
    | some file =>
      if start + data.length ≤ file.1.length ∧
          (start + data.length ≤ (s.1.blockSpan job).1 ∨ (s.1.blockSpan job).2 ≤ start) then
        some (s.1, { s.2 with temp := some (file.write start data) })
      else none
    | none => none

/-- Where a task stands and what it has done to its block. -/
def Standing (md4 : Bytes → Digest) (job : Job) (parts : List (ℕ × Bytes)) (index : ℕ) (file : File) :
    Phase → Prop
  | .transferring t => Reception (partSpan index job.totalBytes job.partSize) parts t file
  | .finished (.ok digest) =>
    digest = md4 (part file.1 index job.totalBytes job.partSize) ∧
      ∀ j, (partSpan index job.totalBytes job.partSize).1 ≤ j →
        j < (partSpan index job.totalBytes job.partSize).2 →
          ∃ p ∈ parts, p.1 ≤ j ∧ j < p.1 + p.2.length
  | .finished (.error _) => True
  | .panicked => True
  | _ => parts = []

structure TaskInv (md4 : Bytes → Digest) (job : Job) (parts : List (ℕ × Bytes)) (task : BlockTask)
    (shared : Shared) (file : File) : Prop where
  temp : shared.temp = some file
  length : file.1.length = job.totalBytes
  standing : Standing md4 job parts task.index file task.phase

theorem TaskInv.moveTo (h : TaskInv md4 job parts task shared file) {phase : Phase}
    {parts' : List (ℕ × Bytes)} (hphase : Standing md4 job parts' task.index file phase)
    (hshared : shared'.temp = shared.temp) :
    TaskInv md4 job parts' (task.moveTo phase) shared' file :=
  ⟨hshared.trans h.temp,h.length,hphase⟩

theorem takePart_inv {t : Transfer} (h : TaskInv md4 job parts task shared file)
    (ht : Reception (task.blockSpan job) parts t file)
    (hstep : takePart job task t shared file start endExclusive data written = (task', shared')) :
    ∃ file', TaskInv md4 job (parts ++ [(start, data)]) task' shared' file' ∧
      ∀ j, j < (task.blockSpan job).1 ∨ (task.blockSpan job).2 ≤ j → file'.1[j]? = file.1[j]? := by
  have hrefill := ht.refill maxInflight
  have helsewhere : ∀ j, j < (task.blockSpan job).1 ∨ (task.blockSpan job).2 ≤ j →
      (acceptPart (task.blockSpan job).1 (task.blockSpan job).2 job.totalBytes
        (Ed2kBlockTask.refill (task.blockSpan job).2 t maxInflight) file start endExclusive data
        written).1.1[j]? = file.1[j]? :=
    fun j hj => acceptPart_elsewhere hrefill.bufferLength (Nat.le_of_eq h.length.symm) hj
  have hlength := length_acceptPart (task.blockSpan job).1 (task.blockSpan job).2 job.totalBytes
    (Ed2kBlockTask.refill (task.blockSpan job).2 t maxInflight) file start endExclusive data written
  unfold takePart at hstep
  dsimp only at hstep
  rw [← BlockTask.blockSpan] at hstep
  cases hresult : acceptPart (task.blockSpan job).1 (task.blockSpan job).2 job.totalBytes
    (Ed2kBlockTask.refill (task.blockSpan job).2 t maxInflight) file start endExclusive data written with
  | mk file' result =>
    rw [hresult] at helsewhere hlength hstep
    refine ⟨file',?_,helsewhere⟩
    cases result with
    | error e =>
      cases hstep
      exact ⟨rfl,hlength.trans h.length,trivial⟩
    | ok t' =>
      cases hstep
      obtain ⟨hacceptable,rfl,rfl⟩ := acceptPart_ok hrefill.bufferLength hresult
      exact ⟨rfl,hlength.trans h.length,
        hrefill.accept hacceptable (Nat.le_of_eq h.length.symm)⟩

theorem step_inv {event : Event} (h : TaskInv md4 job parts task shared file)
    (hstep : step md4 job task shared event = some (task', shared')) :
    ∃ file', TaskInv md4 job (parts ++ event.brought) task' shared' file' ∧
      ∀ j, j < (task.blockSpan job).1 ∨ (task.blockSpan job).2 ≤ j → file'.1[j]? = file.1[j]? := by
  have hstanding := h.standing
  -- an event that brings no part leaves the file alone
  have hquiet : ∀ {phase shared'}, event.brought = [] → shared'.temp = shared.temp →
      Standing md4 job parts task.index file phase →
      ∃ file', TaskInv md4 job (parts ++ event.brought) (task.moveTo phase) shared' file' ∧
        ∀ j, j < (task.blockSpan job).1 ∨ (task.blockSpan job).2 ≤ j → file'.1[j]? = file.1[j]? := by
    intro phase shared' hparts htemp hphase
    rw [hparts, List.append_nil]
    exact ⟨file,h.moveTo hphase htemp,fun _ _ => rfl⟩
  cases event with
  | connected =>
    simp only [step] at hstep
    split at hstep
    · rename_i hphase
      rw [hphase] at hstanding
      cases hstep
      exact hquiet rfl rfl hstanding
    · cases hstep
  | slot =>
    simp only [step] at hstep
    split at hstep
    · rename_i hphase
      rw [hphase] at hstanding
      split_ifs at hstep <;> cases hstep <;> exact hquiet rfl rfl hstanding
    · cases hstep
  | hashSetAnswer partHashes =>
    simp only [step] at hstep
    split at hstep
    · rename_i hphase
      rw [hphase] at hstanding
      split_ifs at hstep <;> cases hstep
      · exact hquiet rfl rfl hstanding
      · exact hquiet rfl rfl trivial
    · cases hstep
  | opened =>
    simp only [step] at hstep
    split at hstep
    · rename_i hphase _
      rw [hphase] at hstanding
      have hparts : parts = [] := hstanding
      cases hstep
      refine hquiet rfl rfl ?_
      rw [hparts]
      exact Reception.opened _ _
    · cases hstep
  | sendingPart start endExclusive data written | compressedPart start data written =>
    simp only [step] at hstep
    split at hstep
    · rename_i t file' hphase htemp
      rw [hphase] at hstanding
      cases htemp.symm.trans h.temp
      exact takePart_inv h hstanding (Option.some.inj hstep)
    · cases hstep
  | otherFrame =>
    simp only [step] at hstep
    split at hstep
    · rename_i t hphase
      rw [hphase] at hstanding
      cases hstep
      exact hquiet rfl rfl (Reception.refill hstanding _)
    · cases hstep
  | complete =>
    simp only [step] at hstep
    split at hstep
    · rename_i t hphase
      rw [hphase] at hstanding
      split_ifs at hstep with hcovers
      cases hstep
      obtain ⟨hall,hbuffer⟩ := Reception.complete hstanding hcovers
      refine hquiet rfl rfl ⟨by rw [hbuffer]; rfl,?_⟩
      intro j hstart hend
      obtain ⟨i,rfl⟩ := Nat.exists_eq_add_of_le hstart
      exact (hstanding.written i).mp (hall i hend)
    · cases hstep
  | fails error | panics =>
    simp only [step] at hstep
    split at hstep
    · cases hstep
    · cases hstep
    · cases hstep
      exact hquiet rfl rfl trivial

theorem standing_congr {index : ℕ} {phase : Phase} (h : Standing md4 job parts index file phase)
    (hfile : ∀ j, (partSpan index job.totalBytes job.partSize).1 ≤ j →
      j < (partSpan index job.totalBytes job.partSize).2 → file'.1[j]? = file.1[j]?) :
    Standing md4 job parts index file' phase := by
  cases phase with
  | transferring t =>
    exact Reception.congr h (fun i hi => hfile _ (Nat.le_add_right _ _) hi)
  | finished result =>
    cases result with
    | error e => trivial
    | ok digest =>
      refine ⟨?_,h.2⟩
      have hpart : part file'.1 index job.totalBytes job.partSize =
          part file.1 index job.totalBytes job.partSize := by
        refine List.ext_getElem? ?_
        intro i
        simp only [part, List.getElem?_take, List.getElem?_drop]
        split_ifs with hi
        · exact hfile _ (Nat.le_add_right _ _) (by omega)
        · rfl
      rw [hpart]
      exact h.1
  | panicked => trivial
  | _ => exact h

theorem runStep_inv {s t : BlockTask × Shared} {a : Act}
    (h : ∃ file, TaskInv md4 job parts s.1 s.2 file) (hstep : runStep md4 job s a = some t) :
    ∃ file, TaskInv md4 job (parts ++ a.brought) t.1 t.2 file := by
  obtain ⟨file,hinv⟩ := h
  cases a with
  | event e =>
    obtain ⟨file',hinv',-⟩ := step_inv hinv hstep
    exact ⟨file',hinv'⟩
  | elsewhere start data =>
    simp only [runStep, hinv.temp] at hstep
    split_ifs at hstep with hguard
    cases hstep
    rw [Act.brought, List.append_nil]
    refine ⟨file.write start data,rfl,(File.length_write _ _ _).trans hinv.length,?_⟩
    refine standing_congr hinv.standing ?_
    intro j hstart hend
    obtain ⟨hin,houtside⟩ := hguard
    rw [BlockTask.blockSpan] at houtside
    dsimp only at hstart hend
    rw [File.getElem?_write hin, if_neg (by omega)]

theorem runStep_index {s t : BlockTask × Shared} {a : Act} (hstep : runStep md4 job s a = some t) :
    t.1.index = s.1.index := by
  cases a with
  | event e => exact (step_frame hstep).index
  | elsewhere start data =>
    simp only [runStep] at hstep
    split at hstep
    · split_ifs at hstep
      cases hstep
      rfl
    · cases hstep

theorem run_inv (parts : List (ℕ × Bytes)) {s t : BlockTask × Shared} {acts : List Act}
    (h : ∃ file, TaskInv md4 job parts s.1 s.2 file)
    (hrun : exec (runStep md4 job) s acts = some t) :
    ∃ file, TaskInv md4 job (parts ++ acts.flatMap Act.brought) t.1 t.2 file := by
  induction acts generalizing s parts with
  | nil =>
    cases hrun
    rwa [List.flatMap_nil, List.append_nil]
  | cons a acts ih =>
    obtain ⟨r,hr,hrest⟩ := exec_cons_iff.mp hrun
    rw [List.flatMap_cons, ← List.append_assoc]
    exact ih _ (runStep_inv h hr) hrest

theorem run_index {s t : BlockTask × Shared} {acts : List Act}
    (h : exec (runStep md4 job) s acts = some t) : t.1.index = s.1.index := by
  have hsame : ∀ r a r', r.1.index = s.1.index → runStep md4 job r a = some r' →
      r'.1.index = s.1.index := fun r a r' hr hstep => (runStep_index hstep).trans hr
  exact exec_invariant hsame rfl h

def sampleJob : Job where
  rootHash := Vector.replicate 16 0
  totalBytes := 3
  partSize := 3

def sampleSource : Source := .lowId 7

def sampleFile : File := ⟨[0, 0, 0],by decide⟩

def sampleActs : List Act :=
  [.event .connected, .event .slot, .event .opened, .event (.sendingPart 1 3 [8, 9] none),
    .event (.compressedPart 0 [7, 8] none), .event .complete]

end RinaDown.Ed2kBlockTask
