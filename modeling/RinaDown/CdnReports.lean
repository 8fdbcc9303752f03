import RinaDown.LabelledExecutions

/-!
# Reports of address samples

Samples wait in a bounded buffer. A peek moves them into a lease. Uploads, also several at once,
send the lease in batches and acknowledge it by its batch ID, which no other lease has. A restart
of the daemon is left out.
-/

namespace RinaDown.CdnReports
open LabelledExecutions List Option

variable {σ : Type}

def maxPending : ℕ := 256

def reportBatchSize : ℕ := 64

structure Lease (σ : Type) where
  batchId : ℕ
  samples : List σ

def samplesOf (l : Option (Lease σ)) : List σ := (l.map Lease.samples).getD []

/-- The buffer, the lease that a peek is storing, the stored lease, the uploads with what they
still send, the samples of every batch, and the history of the samples. -/
structure Reports (σ : Type) where
  pending : List σ
  taken : Option (Lease σ)
  lease : Option (Lease σ)
  uploads : List (Lease σ)
  batches : List (List σ)
  recorded : List σ
  confirmed : List σ
  acked : List σ
  dropped : ℕ

inductive Label (σ : Type) where
  | record (sample : σ)
  | peek
  | store (ok : Bool)
  | call (k : ℕ) (ok : Bool)

def initial : Reports σ := ⟨[],none,none,[],[],[],[],[],0⟩

namespace Reports

variable (s : Reports σ)

def record (sample : σ) : Reports σ :=
  let oldest := if maxPending ≤ s.pending.length then 1 else 0
  { s with
    pending := s.pending.drop oldest ++ [sample]
    recorded := s.recorded ++ [sample]
    dropped := s.dropped + oldest }

def takeAll : Reports σ :=
  { s with
    pending := []
    taken := some ⟨s.batches.length,s.pending⟩
    batches := s.batches ++ [s.pending] }

def restoreFront (samples : List σ) : Reports σ :=
  { s with
    pending := (samples ++ s.pending).take maxPending
    taken := none
    dropped := s.dropped + ((samples ++ s.pending).length - maxPending) }

def upload (l : Lease σ) : Reports σ := { s with uploads := s.uploads ++ [l] }

def peek : Reports σ :=
  match s.lease with
  | some l => s.upload l
  | none => if s.pending = [] then s else s.takeAll

/-- A lease that is there already stays. -/
def store (l : Lease σ) (ok : Bool) : Reports σ :=
  if !ok then s.restoreFront l.samples
  else
    match s.lease with
    | some stored => (s.restoreFront l.samples).upload stored
    | none => { s with taken := none, lease := some l }.upload l

def ack (batchId : ℕ) : Reports σ :=
  match s.lease with
  | none => s
  | some l =>
      if l.batchId = batchId then { s with lease := none, acked := s.acked ++ l.samples } else s

/-- An upload sends its next batch, or else the acknowledgement. -/
def call (k : ℕ) (u : Lease σ) (ok : Bool) : Reports σ :=
  if !ok then { s with uploads := s.uploads.eraseIdx k }
  else if u.samples = [] then { s with uploads := s.uploads.eraseIdx k }.ack u.batchId
  else
    { s with
      uploads := s.uploads.set k ⟨u.batchId,u.samples.drop reportBatchSize⟩
      confirmed := s.confirmed ++ u.samples.take reportBatchSize }

/-- The samples that are not lost, in the order of their recording. -/
def kept : List σ := s.acked ++ samplesOf s.lease ++ samplesOf s.taken ++ s.pending

end Reports

def step (s : Reports σ) : Label σ → Option (Reports σ)
  | .record sample => some (s.record sample)
  | .peek => if s.taken.isSome then none else some s.peek
  | .store ok => s.taken.map fun l => s.store l ok
  | .call k ok => s.uploads[k]?.map fun u => s.call k u ok

/-- A lease has the samples of its batch; an upload has sent what it does not still send. -/
structure Inv (s : Reports σ) : Prop where
  ordered : s.kept.Sublist s.recorded
  counted : s.kept.length + s.dropped = s.recorded.length
  bounded : s.pending.length ≤ maxPending
  known : ∀ l, s.taken = some l ∨ s.lease = some l → s.batches[l.batchId]? = some l.samples
  sent : ∀ u ∈ s.uploads, ∃ b, s.batches[u.batchId]? = some b ∧
    ∀ x ∈ b, x ∈ u.samples ∨ x ∈ s.confirmed
  acked : ∀ x ∈ s.acked, x ∈ s.confirmed

namespace Inv

variable {s : Reports σ} {l : Lease σ}

theorem record (h : Inv s) (sample : σ) : Inv (s.record sample) := by
  have hroom : 1 ≤ maxPending := by decide
  have hlength : (s.record sample).pending.length + (s.record sample).dropped =
      s.pending.length + s.dropped + 1 := by
    simp only [Reports.record, length_append, length_drop, length_singleton]
    split_ifs <;> omega
  refine { h with ordered := ?_, counted := ?_, bounded := ?_ }
  · rw [Reports.kept, Reports.record, ← append_assoc]
    exact (((drop_sublist _ _).append_left _).trans h.ordered).append_right _
  · have hcounted := h.counted
    simp only [Reports.kept, length_append] at hcounted ⊢
    simp only [Reports.record, length_append, length_singleton] at hlength ⊢
    omega
  · have hbounded := h.bounded
    simp only [Reports.record, length_append, length_drop, length_singleton]
    split_ifs <;> omega

theorem kept_of_taken (hl : s.taken = some l) :
    s.kept = s.acked ++ samplesOf s.lease ++ (l.samples ++ s.pending) := by
  simp [Reports.kept, samplesOf, hl]

theorem restoreFront (h : Inv s) (hl : s.taken = some l) : Inv (s.restoreFront l.samples) := by
  have hkept := kept_of_taken hl
  refine { h with
    ordered := .trans ?_ (hkept ▸ h.ordered)
    counted := ?_
    bounded := length_take_le _ _
    known := fun l hl => h.known l (hl.imp_left nofun) }
  · simpa [Reports.kept, Reports.restoreFront, samplesOf] using take_sublist _ _
  · have hcounted := h.counted
    rw [hkept] at hcounted
    simp only [Reports.kept, Reports.restoreFront, samplesOf, map_none, getD_none,
      length_append, length_take, length_nil] at hcounted ⊢
    omega

theorem upload (h : Inv s) (hl : s.lease = some l) : Inv (s.upload l) := by
  refine { h with sent := fun u hu => ?_ }
  rcases mem_append.mp hu with hu | hu
  · exact h.sent u hu
  · obtain rfl := mem_singleton.mp hu
    exact ⟨u.samples,h.known u (.inr hl),fun x hx => .inl hx⟩

/-- A new batch has a number that no other has. -/
theorem getElem?_batches_append {n : ℕ} {b samples : List σ} (h : s.batches[n]? = some b) :
    (s.batches ++ [samples])[n]? = some b := by
  rw [List.getElem?_append_left (List.getElem?_eq_some_iff.mp h).1, h]

theorem takeAll (h : Inv s) (ht : s.taken = none) : Inv s.takeAll := by
  have hkept : s.takeAll.kept = s.kept := by simp [Reports.takeAll, Reports.kept, samplesOf, ht]
  refine ⟨hkept ▸ h.ordered,hkept ▸ h.counted,Nat.zero_le _,fun l hl => ?_,fun u hu => ?_,h.acked⟩
  · rcases hl with hl | hl
    · obtain rfl := some.inj hl
      exact getElem?_concat_length
    · exact getElem?_batches_append (h.known l (.inr hl))
  · obtain ⟨b,hb,hsent⟩ := h.sent u hu
    exact ⟨b,getElem?_batches_append hb,hsent⟩

theorem peek (h : Inv s) (ht : s.taken = none) : Inv s.peek := by
  unfold Reports.peek
  split
  · rename_i l hl
    exact h.upload hl
  · split_ifs
    · exact h
    · exact h.takeAll ht

theorem store (h : Inv s) (ht : s.taken = some l) (ok : Bool) : Inv (s.store l ok) := by
  unfold Reports.store
  split_ifs
  · exact h.restoreFront ht
  · split
    · rename_i stored hl
      exact (h.restoreFront ht).upload hl
    · rename_i hl
      have hkept : Reports.kept { s with taken := none, lease := some l } = s.kept := by
        simp [Reports.kept, samplesOf, ht, hl]
      have hknown := h.known l (.inl ht)
      refine upload ⟨hkept ▸ h.ordered,hkept ▸ h.counted,h.bounded,fun l' hl' => ?_,h.sent,
        h.acked⟩ rfl
      obtain rfl := some.inj (hl'.resolve_left nofun)
      exact hknown

theorem acknowledged (h : Inv s) (hl : s.lease = some l) (hsent : ∀ x ∈ l.samples, x ∈ s.confirmed) :
    Inv { s with lease := none, acked := s.acked ++ l.samples } := by
  have hkept : Reports.kept { s with lease := none, acked := s.acked ++ l.samples } = s.kept := by
    simp [Reports.kept, samplesOf, hl]
  refine ⟨hkept ▸ h.ordered,hkept ▸ h.counted,h.bounded,?_,h.sent,fun x hx => ?_⟩
  · exact fun l' hl' => h.known l' (.inl (hl'.resolve_right nofun))
  · exact (mem_append.mp hx).elim (h.acked x) (hsent x)

theorem call (h : Inv s) {k : ℕ} (hu : s.uploads[k]? = some l) (ok : Bool) :
    Inv (s.call k l ok) := by
  obtain ⟨b,hb,hsent⟩ := h.sent l (mem_of_getElem? hu)
  have hgone : Inv { s with uploads := s.uploads.eraseIdx k } :=
    { h with sent := fun u hu => h.sent u (mem_of_mem_eraseIdx hu) }
  unfold Reports.call Reports.ack
  split_ifs with hok hempty
  · exact hgone
  · split
    · exact hgone
    · rename_i l' hl
      split_ifs with hid
      · -- the upload has sent the lease that it acknowledges
        obtain rfl : b = l'.samples :=
          some.inj (hb.symm.trans (hid ▸ h.known l' (.inr hl)))
        refine hgone.acknowledged hl fun x hx => (hsent x hx).resolve_left ?_
        rw [hempty]
        exact not_mem_nil
      · exact hgone
  · have hmono : ∀ x, x ∈ s.confirmed → x ∈ s.confirmed ++ l.samples.take reportBatchSize :=
      fun x hx => mem_append_left _ hx
    refine { h with sent := fun u hu => ?_, acked := fun x hx => hmono x (h.acked x hx) }
    rcases mem_or_eq_of_mem_set hu with hu | rfl
    · obtain ⟨b,hb,hsent⟩ := h.sent u hu
      exact ⟨b,hb,fun x hx => (hsent x hx).imp_right (hmono x)⟩
    · refine ⟨b,hb,fun x hx => ?_⟩
      rcases hsent x hx with hx | hx
      · rw [← take_append_drop reportBatchSize l.samples] at hx
        exact (mem_append.mp hx).symm.imp_right (mem_append_right _)
      · exact .inr (hmono x hx)

end Inv

theorem step_inv (s : Reports σ) (label : Label σ) (t : Reports σ) (h : Inv s)
    (hstep : step s label = some t) : Inv t := by
  cases label with
  | record sample => exact some.inj hstep ▸ h.record sample
  | peek =>
    simp only [step] at hstep
    split_ifs at hstep with ht
    exact some.inj hstep ▸ h.peek (not_isSome_iff_eq_none.mp ht)
  | store ok =>
    obtain ⟨l,hl,rfl⟩ := map_eq_some_iff.mp hstep
    exact h.store hl ok
  | call k ok =>
    obtain ⟨u,hu,rfl⟩ := map_eq_some_iff.mp hstep
    exact h.call hu ok

/-- No sample is lost but by an overflow, and none is acknowledged that the cloud lacks. -/
theorem samples_accounted {labels : List (Label σ)} {s : Reports σ}
    (h : exec step initial labels = some s) :
    s.kept.Sublist s.recorded ∧ s.kept.length + s.dropped = s.recorded.length ∧
      s.pending.length ≤ maxPending ∧ ∀ x ∈ s.acked, x ∈ s.confirmed := by
  have hinv := exec_invariant step_inv
    (by constructor <;> simp [initial, Reports.kept, samplesOf]) h
  exact ⟨hinv.ordered,hinv.counted,hinv.bounded,hinv.acked⟩

theorem samples_accounted_sample : ∃ s : Reports ℕ, s.acked = [5] ∧ s.pending = [6] ∧
    ∀ x ∈ s.acked, x ∈ s.confirmed := by
  have h : exec step initial [.record 5, .peek, .store true, .call 0 true, .record 6,
    .call 0 true] = some ⟨[6],none,none,[],[[5]],[5, 6],[5],[5],0⟩ := rfl
  exact ⟨_,rfl,rfl,(samples_accounted h).2.2.2⟩

end RinaDown.CdnReports
