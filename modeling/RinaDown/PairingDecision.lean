import Mathlib.Data.List.Nodup
import RinaDown.PairingCodes

/-!
# What a registered device has been vouched for

Every record that `handle_confirm` returns goes back to a signed hello with the
code that was then valid, and to an approval of the local user in time. The
second half needs decisions to respect the calls that have already read one.
-/

namespace RinaDown.PairingResponder
open LabelledExecutions LengthFraming LinkCrypto List Option

universe u

variable {Secret Signing Signature : Type u} {P : Primitives Secret Signing Signature}
  {m n : Responder Secret Signing Signature}

/-! ## Sessions -/

def lastDecision (decisions : List Decision) (sessionId : String) : Option Decision :=
  decisions.find? (fun d => d.sessionId = sessionId)

structure Opens (o : Opening Signature) (e : String × ConfirmEntry) : Prop where
  sessionId : o.sessionId = e.1
  created : e.2.created = o.created
  identity : e.2.initiatorIdPub = o.request.fields.initIdPub

/-- The device of the session is registered, and the local user has approved it in time. -/
structure Registered (decisions : List Decision) (o : Opening Signature) (r : String × PeerRecord) :
    Prop where
  sessionId : o.sessionId = r.1
  identity : r.2.identityPub = o.request.fields.initIdPub.toList
  approved : ∃ d, lastDecision decisions r.1 = some d ∧ d.accept ∧ o.created ≤ d.time ∧
    d.time ≤ o.created + localDecisionTimeout

structure SessionBook (m : Responder Secret Signing Signature) : Prop where
  distinct : (m.openings.map Opening.sessionId).Nodup
  past : ∀ o ∈ m.openings, o.created ≤ m.clock
  sessions : ∀ e ∈ m.sessions, ∃ o ∈ m.openings, Opens o e
  decision : ∀ e ∈ m.sessions, e.2.decision = (lastDecision m.decisions e.1).map Decision.accept
  decisions : ∀ d ∈ m.decisions, d.time ≤ m.clock ∧
    ∃ o ∈ m.openings, o.sessionId = d.sessionId ∧ o.created ≤ d.time
  once : (m.records.map Prod.fst).Nodup
  closed : ∀ r ∈ m.records, ∀ e ∈ m.sessions, e.1 ≠ r.1
  records : ∀ r ∈ m.records, ∃ o ∈ m.openings, Registered m.decisions o r

namespace SessionBook

theorem of_subset (h : SessionBook m) (hclock : m.clock ≤ n.clock) (hsessions : n.sessions ⊆ m.sessions)
    (hopen : n.openings = m.openings) (hdec : n.decisions = m.decisions)
    (hrec : n.records = m.records) : SessionBook n := by
  refine ⟨hopen ▸ h.distinct,fun o ho => Nat.le_trans (h.past o (hopen ▸ ho)) hclock,
    fun e he => ?_,fun e he => ?_,fun d hd => ?_,hrec ▸ h.once,fun r hr e he => ?_,
    fun r hr => ?_⟩
  · rw [hopen]
    exact h.sessions e (hsessions he)
  · rw [hdec]
    exact h.decision e (hsessions he)
  · rw [hopen]
    obtain ⟨htime,hopened⟩ := h.decisions d (hdec ▸ hd)
    exact ⟨Nat.le_trans htime hclock,hopened⟩
  · exact h.closed r (hrec ▸ hr) e (hsessions he)
  · rw [hopen, hdec]
    exact h.records r (hrec ▸ hr)

variable {o : Opening Signature} {sessionId : String} {e : String × ConfirmEntry}

theorem opening_eq (h : SessionBook m) {q : Opening Signature} (ho : o ∈ m.openings)
    (hq : q ∈ m.openings) (hid : o.sessionId = q.sessionId) : o = q :=
  inj_on_of_nodup_map h.distinct ho hq hid

theorem lastDecision_mem {decisions : List Decision} {d : Decision}
    (h : lastDecision decisions sessionId = some d) : d ∈ decisions ∧ d.sessionId = sessionId :=
  ⟨mem_of_find?_eq_some h,by simpa using find?_some h⟩

theorem lastDecision_fresh (h : SessionBook m)
    (hfresh : sessionId ∉ m.openings.map Opening.sessionId) :
    lastDecision m.decisions sessionId = none := by
  cases hlast : lastDecision m.decisions sessionId with
  | none => rfl
  | some d =>
    obtain ⟨hmem,hid⟩ := lastDecision_mem hlast
    obtain ⟨-,o,ho,hopened,-⟩ := h.decisions d hmem
    exact absurd (mem_map.mpr ⟨o,ho,hopened.trans hid⟩) hfresh

theorem opens (h : SessionBook m) (hfresh : o.sessionId ∉ m.openings.map Opening.sessionId)
    (hopens : Opens o e) (hdecision : e.2.decision = none) (hcreated : o.created = m.clock)
    (hclock : n.clock = m.clock) (hsessions : n.sessions ⊆ e :: m.sessions)
    (hopen : n.openings = o :: m.openings) (hdec : n.decisions = m.decisions)
    (hrec : n.records = m.records) : SessionBook n := by
  refine ⟨?_,fun q hq => ?_,fun f hf => ?_,fun f hf => ?_,fun d hd => ?_,hrec ▸ h.once,
    fun r hr f hf => ?_,fun r hr => ?_⟩
  · rw [hopen]
    exact nodup_cons.mpr ⟨hfresh,h.distinct⟩
  · rw [hclock]
    rcases mem_cons.mp (hopen ▸ hq) with rfl | hq
    · exact Nat.le_of_eq hcreated
    · exact h.past q hq
  · rw [hopen]
    rcases mem_cons.mp (hsessions hf) with rfl | hf
    · exact ⟨o,mem_cons_self,hopens⟩
    · obtain ⟨q,hq,hold⟩ := h.sessions f hf
      exact ⟨q,mem_cons_of_mem _ hq,hold⟩
  · rw [hdec]
    rcases mem_cons.mp (hsessions hf) with rfl | hf
    · rw [hdecision, ← hopens.sessionId, h.lastDecision_fresh hfresh]
      rfl
    · exact h.decision f hf
  · rw [hclock, hopen]
    obtain ⟨htime,q,hq,hid,hafter⟩ := h.decisions d (hdec ▸ hd)
    exact ⟨htime,q,mem_cons_of_mem _ hq,hid,hafter⟩
  · rw [hrec] at hr
    rcases mem_cons.mp (hsessions hf) with rfl | hf
    · intro hid
      obtain ⟨q,hq,hreg⟩ := h.records r hr
      exact hfresh (mem_map.mpr ⟨q,hq,by rw [hreg.sessionId, ← hid, hopens.sessionId]⟩)
    · exact h.closed r hr f hf
  · rw [hopen, hdec]
    obtain ⟨q,hq,hreg⟩ := h.records r (hrec ▸ hr)
    exact ⟨q,mem_cons_of_mem _ hq,hreg⟩

theorem created_eq (h : SessionBook m) (ho : o ∈ m.openings) (he : e ∈ m.sessions)
    (hid : o.sessionId = e.1) :
    e.2.created = o.created ∧ e.2.initiatorIdPub = o.request.fields.initIdPub := by
  obtain ⟨q,hq,hopens⟩ := h.sessions e he
  obtain rfl : o = q := h.opening_eq ho hq (hid.trans hopens.sessionId.symm)
  exact ⟨hopens.created,hopens.identity⟩

theorem decides (h : SessionBook m) {accept : Bool} (he : e ∈ m.sessions) (hid : e.1 = sessionId)
    (hclock : n.clock = m.clock)
    (hsessions : n.sessions = m.sessions.map (fun e =>
      if e.1 = sessionId then (e.1, { e.2 with decision := some accept }) else e))
    (hopen : n.openings = m.openings)
    (hdec : n.decisions = ⟨sessionId,accept,m.clock⟩ :: m.decisions) (hrec : n.records = m.records)
    : SessionBook n := by
  have hlast : ∀ id, id ≠ sessionId → lastDecision n.decisions id = lastDecision m.decisions id := by
    intro id hne
    rw [hdec, lastDecision, find?_cons_of_neg (by simpa using Ne.symm hne), lastDecision]
  refine ⟨hopen ▸ h.distinct,fun o ho => ?_,fun f hf => ?_,fun f hf => ?_,fun d hd => ?_,
    hrec ▸ h.once,fun r hr f hf => ?_,fun r hr => ?_⟩
  · rw [hclock]
    exact h.past o (hopen ▸ ho)
  · rw [hopen]
    obtain ⟨g,hg,rfl⟩ := mem_map.mp (hsessions ▸ hf)
    obtain ⟨o,ho,hopens⟩ := h.sessions g hg
    refine ⟨o,ho,?_⟩
    split_ifs
    · exact ⟨hopens.sessionId,hopens.created,hopens.identity⟩
    · exact hopens
  · obtain ⟨g,hg,rfl⟩ := mem_map.mp (hsessions ▸ hf)
    split_ifs with hsame
    · rw [hdec, lastDecision, find?_cons_of_pos (by simpa using hsame.symm)]
      rfl
    · rw [hlast g.1 hsame]
      exact h.decision g hg
  · rw [hclock, hopen]
    rcases mem_cons.mp (hdec ▸ hd) with rfl | hd
    · obtain ⟨o,ho,hopens⟩ := h.sessions e he
      exact ⟨Nat.le_refl _,o,ho,hopens.sessionId.trans hid,h.past o ho⟩
    · exact h.decisions d hd
  · obtain ⟨g,hg,rfl⟩ := mem_map.mp (hsessions ▸ hf)
    have hne := h.closed r (hrec ▸ hr) g hg
    split_ifs
    · exact hne
    · exact hne
  · rw [hopen]
    have hr : r ∈ m.records := hrec ▸ hr
    obtain ⟨o,ho,hreg⟩ := h.records r hr
    have hne : r.1 ≠ sessionId := fun heq => h.closed r hr e he (hid.trans heq.symm)
    exact ⟨o,ho,hreg.sessionId,hreg.identity,(hlast r.1 hne).symm ▸ hreg.approved⟩

theorem registers (h : SessionBook m) (he : e ∈ m.sessions) {record : PeerRecord}
    (hrecord : record.identityPub = e.2.initiatorIdPub.toList)
    (happroved : ∀ o ∈ m.openings, o.sessionId = e.1 → ∃ d,
      lastDecision m.decisions e.1 = some d ∧ d.accept ∧ d.time ≤ o.created + localDecisionTimeout)
    (hclock : n.clock = m.clock) (hsessions : n.sessions = m.sessions.filter (fun f => f.1 ≠ e.1))
    (hopen : n.openings = m.openings) (hdec : n.decisions = m.decisions)
    (hrec : n.records = (e.1, record) :: m.records) : SessionBook n := by
  have hsubset : n.sessions ⊆ m.sessions := by
    rw [hsessions]
    exact filter_sublist.subset
  refine ⟨hopen ▸ h.distinct,fun o ho => ?_,fun f hf => ?_,fun f hf => ?_,fun d hd => ?_,?_,
    fun r hr f hf => ?_,fun r hr => ?_⟩
  · rw [hclock]
    exact h.past o (hopen ▸ ho)
  · rw [hopen]
    exact h.sessions f (hsubset hf)
  · rw [hdec]
    exact h.decision f (hsubset hf)
  · rw [hclock, hopen]
    exact h.decisions d (hdec ▸ hd)
  · rw [hrec]
    refine nodup_cons.mpr ⟨fun hmem => ?_,h.once⟩
    obtain ⟨r,hr,hid⟩ := mem_map.mp hmem
    exact h.closed r hr e he hid.symm
  · rcases mem_cons.mp (hrec ▸ hr) with rfl | hr
    · rw [hsessions] at hf
      simpa using (mem_filter.mp hf).2
    · exact h.closed r hr f (hsubset hf)
  · rw [hopen, hdec]
    rcases mem_cons.mp (hrec ▸ hr) with rfl | hr
    · obtain ⟨o,ho,hopens⟩ := h.sessions e he
      obtain ⟨d,hlast,haccept,htime⟩ := happroved o ho hopens.sessionId
      obtain ⟨hmem,hid⟩ := lastDecision_mem hlast
      obtain ⟨-,q,hq,hqid,hafter⟩ := h.decisions d hmem
      obtain rfl : o = q := h.opening_eq ho hq (by rw [hopens.sessionId, hqid, hid])
      exact ⟨o,ho,hopens.sessionId,hrecord.trans (congrArg _ hopens.identity),d,hlast,haccept,
        hafter,htime⟩
    · exact h.records r hr

end SessionBook

/-! ## Confirmations -/

def Responder.Live (m : Responder Secret Signing Signature) (sessionId : String) : Prop :=
  ∃ e ∈ m.sessions, e.1 = sessionId

/-- The deadline is that of the opening. -/
def Responder.Deadline (m : Responder Secret Signing Signature) (sessionId : String) (deadline : ℕ) :
    Prop :=
  ∃ o ∈ m.openings, o.sessionId = sessionId ∧ deadline = o.created + localDecisionTimeout

/-- An approval of the session is not late. -/
def Responder.InTime (m : Responder Secret Signing Signature) (sessionId : String) : Prop :=
  m.Live sessionId → ∀ o ∈ m.openings, o.sessionId = sessionId →
    ∀ d, lastDecision m.decisions sessionId = some d → d.accept →
      d.time ≤ o.created + localDecisionTimeout

/-- The last word on the session is an approval. -/
def Responder.Approved (m : Responder Secret Signing Signature) (sessionId : String) : Prop :=
  m.Live sessionId → ∃ d, lastDecision m.decisions sessionId = some d ∧ d.accept

def Responder.CallOk (m : Responder Secret Signing Signature) : ConfirmCall → Prop
  | .entered _ => True
  | .deadlineKnown sessionId deadline => m.Deadline sessionId deadline
  | .looping sessionId deadline => m.Deadline sessionId deadline ∧ m.InTime sessionId
  | .reading sessionId deadline _ => m.Deadline sessionId deadline ∧ m.InTime sessionId
  | .undecided sessionId deadline _ => m.Deadline sessionId deadline
  | .waiting sessionId deadline _ => m.Deadline sessionId deadline ∧ m.InTime sessionId
  | .removing sessionId =>
    ∃ o ∈ m.openings, o.sessionId = sessionId ∧ o.created + localDecisionTimeout ≤ m.clock
  | .decided sessionId true =>
    (∃ o ∈ m.openings, o.sessionId = sessionId) ∧ m.InTime sessionId ∧ m.Approved sessionId
  | .decided _ false => True

namespace CallOk

variable {call : ConfirmCall}

/-- A call may rely on the same when no opened session comes and no decision is taken. -/
theorem transfer (h : m.CallOk call) (hopen : ∀ o ∈ m.openings, o ∈ n.openings)
    (hold : ∀ o ∈ n.openings, ∀ q ∈ m.openings, o.sessionId = q.sessionId → o ∈ m.openings)
    (hlive : ∀ q ∈ m.openings, n.Live q.sessionId → m.Live q.sessionId)
    (hclock : m.clock ≤ n.clock) (hdec : n.decisions = m.decisions) : n.CallOk call := by
  have hdeadline : ∀ {sessionId deadline}, m.Deadline sessionId deadline →
      n.Deadline sessionId deadline := by
    rintro sessionId deadline ⟨o,ho,hid,hd⟩
    exact ⟨o,hopen o ho,hid,hd⟩
  have htime : ∀ {sessionId} {q : Opening Signature}, q ∈ m.openings → q.sessionId = sessionId →
      m.InTime sessionId → n.InTime sessionId := by
    rintro sessionId q hq rfl ht hl o ho hid
    rw [hdec]
    exact ht (hlive q hq hl) o (hold o ho q hq hid) hid
  match call, h with
  | .entered _, _ => trivial
  | .deadlineKnown _ _, h => exact hdeadline h
  | .looping _ _, ⟨⟨q,hq,hid,hd⟩,ht⟩ => exact ⟨hdeadline ⟨q,hq,hid,hd⟩,htime hq hid ht⟩
  | .reading _ _ _, ⟨⟨q,hq,hid,hd⟩,ht⟩ => exact ⟨hdeadline ⟨q,hq,hid,hd⟩,htime hq hid ht⟩
  | .undecided _ _ _, h => exact hdeadline h
  | .waiting _ _ _, ⟨⟨q,hq,hid,hd⟩,ht⟩ => exact ⟨hdeadline ⟨q,hq,hid,hd⟩,htime hq hid ht⟩
  | .removing _, ⟨q,hq,hid,hlate⟩ => exact ⟨q,hopen q hq,hid,Nat.le_trans hlate hclock⟩
  | .decided _ true, ⟨⟨q,hq,hid⟩,ht,ha⟩ =>
    refine ⟨⟨q,hopen q hq,hid⟩,htime hq hid ht,fun hl => ?_⟩
    rw [hdec]
    exact ha (hid ▸ hlive q hq (hid.symm ▸ hl))
  | .decided _ false, _ => trivial

theorem of_live (h : m.CallOk call) (hlive : ∀ sessionId, n.Live sessionId → m.Live sessionId)
    (hopen : n.openings = m.openings) (hclock : m.clock ≤ n.clock)
    (hdec : n.decisions = m.decisions) : n.CallOk call :=
  transfer h (fun _ ho => hopen ▸ ho) (fun _ ho _ _ _ => hopen ▸ ho) (fun q _ => hlive q.sessionId)
    hclock hdec

end CallOk

/-- The call may register the device of its session without reading a decision again, or with one
that is too late. -/
def ConfirmCall.mayRegister : ConfirmCall → Bool
  | .looping _ _ => true
  | .reading _ _ _ => true
  | .waiting _ _ _ => true
  | .decided _ decision => decision
  | _ => false

/-- No rejection after a call has read an approval, and no approval after the window while a call is
in its loop. -/
def Timely (m : Responder Secret Signing Signature) : Label Secret Signature → Prop
  | .setLocalDecision sessionId accept =>
    ∀ e ∈ m.pruneSessions.sessionOf sessionId, ∀ call ∈ m.confirms, call.sessionId = sessionId →
      if accept then e.created + localDecisionTimeout < m.clock → call.mayRegister = false
      else call ≠ .decided sessionId true
  | _ => True

instance (m : Responder Secret Signing Signature) (a : Label Secret Signature) :
    Decidable (Timely m a) := by
  cases a <;> unfold Timely <;> infer_instance

variable {call : ConfirmCall} {e : String × ConfirmEntry}

theorem CallOk.decides (h : m.CallOk call) {sessionId : String} {accept : Bool}
    (hrespects : call.sessionId = sessionId → if accept then call.mayRegister = true →
      ∀ o ∈ m.openings, o.sessionId = sessionId → m.clock ≤ o.created + localDecisionTimeout
      else call ≠ .decided sessionId true)
    (hlive : ∀ id, n.Live id → m.Live id) (hopen : n.openings = m.openings)
    (hclock : n.clock = m.clock) (hdec : n.decisions = ⟨sessionId,accept,m.clock⟩ :: m.decisions) :
    n.CallOk call := by
  have hlast : ∀ {id}, id ≠ sessionId → lastDecision n.decisions id = lastDecision m.decisions id := by
    intro id hne
    rw [hdec, lastDecision, find?_cons_of_neg (by simpa using Ne.symm hne), lastDecision]
  have hown : lastDecision n.decisions sessionId = some ⟨sessionId,accept,m.clock⟩ := by
    rw [hdec, lastDecision, find?_cons_of_pos (by simp)]
  have hdeadline : ∀ {id deadline}, m.Deadline id deadline → n.Deadline id deadline := fun hd => by
    rwa [Responder.Deadline, hopen]
  have htime : ∀ {id}, call.sessionId = id → call.mayRegister = true → m.InTime id →
      n.InTime id := by
    intro id hid hmay ht hl o ho hoid d hd haccept
    rw [hopen] at ho
    by_cases heq : id = sessionId
    · subst heq
      rw [hown] at hd
      cases hd
      have haccept : accept = true := haccept
      rw [if_pos haccept] at hrespects
      exact hrespects hid hmay o ho hoid
    · rw [hlast heq] at hd
      exact ht (hlive _ hl) o ho hoid d hd haccept
  match call, h with
  | .entered _, _ => trivial
  | .deadlineKnown _ _, h => exact hdeadline h
  | .looping _ _, h => exact ⟨hdeadline h.1,htime rfl rfl h.2⟩
  | .reading _ _ _, h => exact ⟨hdeadline h.1,htime rfl rfl h.2⟩
  | .undecided _ _ _, h => exact hdeadline h
  | .waiting _ _ _, h => exact ⟨hdeadline h.1,htime rfl rfl h.2⟩
  | .removing _, h =>
    rw [Responder.CallOk, hopen, hclock]
    exact h
  | .decided id true, h =>
    refine ⟨hopen ▸ h.1,htime rfl rfl h.2.1,fun hl => ?_⟩
    by_cases heq : id = sessionId
    · subst heq
      refine ⟨_,hown,?_⟩
      by_contra hreject
      exact absurd rfl ((if_neg hreject).mp (hrespects rfl))
    · rw [hlast heq]
      exact h.2.2 (hlive _ hl)
  | .decided _ false, _ => trivial

/-- A call that `notify_waiters` has woken relies on no more. -/
theorem CallOk.notify (h : m.CallOk call) : m.CallOk call.notify := by
  cases call <;> exact h

/-- The sessions, and what each call relies on. -/
structure Book (m : Responder Secret Signing Signature) : Prop where
  sessions : SessionBook m
  calls : ∀ call ∈ m.confirms, m.CallOk call

/-- Sessions go, time passes, and each new call has what it relies on. -/
structure Fades (m n : Responder Secret Signing Signature) : Prop where
  clock : m.clock ≤ n.clock
  sessions : n.sessions ⊆ m.sessions
  openings : n.openings = m.openings
  decisions : n.decisions = m.decisions
  records : n.records = m.records
  calls : ∀ call ∈ n.confirms, call ∈ m.confirms ∨ m.CallOk call

theorem mem_addConfirm {new : ConfirmCall} (h : call ∈ (m.addConfirm new).confirms) :
    call ∈ m.confirms ∨ call = new := by
  simpa [Responder.addConfirm] using h

namespace Book

theorem fades (h : Book m) (hf : Fades m n) : Book n := by
  refine ⟨h.sessions.of_subset hf.clock hf.sessions hf.openings hf.decisions hf.records,
    fun call hcall => ?_⟩
  have hok : m.CallOk call := (hf.calls call hcall).elim (h.calls call) id
  exact CallOk.of_live hok (fun _ ⟨e,he,hid⟩ => ⟨e,hf.sessions he,hid⟩) hf.openings hf.clock
    hf.decisions

variable {sessionId : String}

theorem inTime (h : SessionBook m) {deadline : ℕ} (hd : m.Deadline sessionId deadline)
    (hle : m.clock ≤ deadline) : m.InTime sessionId := by
  obtain ⟨q,hq,hid,rfl⟩ := hd
  intro _ o ho hoid d hlast _
  obtain rfl : o = q := h.opening_eq ho hq (hoid.trans hid.symm)
  have htime := (h.decisions d (SessionBook.lastDecision_mem hlast).1).1
  exact Nat.le_trans htime hle

theorem approved (h : SessionBook m) {e : ConfirmEntry} (he : (sessionId, e) ∈ m.sessions)
    (hdecision : e.decision = some true) :
    ∃ d, lastDecision m.decisions sessionId = some d ∧ d.accept := by
  have hmap := (h.decision _ he).symm.trans hdecision
  obtain ⟨d,hlast,haccept⟩ := map_eq_some_iff.mp hmap
  exact ⟨d,hlast,haccept⟩

theorem stepConfirm (h : Book m) {call : ConfirmCall} (hcall : m.CallOk call)
    (hstep : m.stepConfirm P call = some n) : Book n := by
  have hgoes : ∀ {p : Responder Secret Signing Signature} {new : ConfirmCall},
      p.sessions ⊆ m.sessions → p.clock = m.clock → p.openings = m.openings →
        p.decisions = m.decisions → p.records = m.records → p.confirms = m.confirms →
          m.CallOk new → Book (p.addConfirm new) := by
    intro p new hs hclock ho hd hr hc hok
    refine h.fades ⟨Nat.le_of_eq hclock.symm,hs,ho,hd,hr,fun c hmem => ?_⟩
    rcases mem_addConfirm hmem with hmem | rfl
    · exact .inl (hc ▸ hmem)
    · exact .inr hok
  have hends : ∀ {p : Responder Secret Signing Signature}, p.sessions ⊆ m.sessions →
      p.clock = m.clock → p.openings = m.openings → p.decisions = m.decisions →
        p.records = m.records → p.confirms = m.confirms → Book p :=
    fun hs hclock ho hd hr hc => h.fades ⟨Nat.le_of_eq hclock.symm,hs,ho,hd,hr,
      fun c hmem => .inl (hc ▸ hmem)⟩
  cases call with
  | entered sessionId =>
    cases hstep
    split
    · exact hends pruneSessions_subset rfl rfl rfl rfl rfl
    · next e he =>
      obtain ⟨o,ho,hopens⟩ := h.sessions.sessions _ (pruneSessions_subset (sessionOf_mem he))
      exact hgoes pruneSessions_subset rfl rfl rfl rfl rfl
        ⟨o,ho,hopens.sessionId,congrArg (· + _) hopens.created⟩
  | deadlineKnown sessionId deadline =>
    cases hstep
    refine hgoes (.refl _) rfl rfl rfl rfl rfl ?_
    split_ifs with hlate
    · obtain ⟨o,ho,hid,rfl⟩ := hcall
      exact ⟨o,ho,hid,Nat.le_of_lt hlate⟩
    · exact ⟨hcall,inTime h.sessions hcall (Nat.le_of_not_lt hlate)⟩
  | looping sessionId deadline =>
    cases hstep
    exact hgoes (.refl _) rfl rfl rfl rfl rfl hcall
  | reading sessionId deadline notified =>
    cases hstep
    split
    · exact hends pruneSessions_subset rfl rfl rfl rfl rfl
    · next e he =>
      have hmem := pruneSessions_subset (sessionOf_mem he)
      refine hgoes pruneSessions_subset rfl rfl rfl rfl rfl ?_
      split
      · next decision hdecision =>
        cases decision with
        | false => trivial
        | true =>
          obtain ⟨o,ho,hid,-⟩ := hcall.1
          exact ⟨⟨o,ho,hid⟩,hcall.2,fun _ => approved h.sessions hmem hdecision⟩
      · exact hcall.1
  | undecided sessionId deadline notified =>
    cases hstep
    refine hgoes (.refl _) rfl rfl rfl rfl rfl ?_
    split_ifs with hlate
    · obtain ⟨o,ho,hid,rfl⟩ := hcall
      exact ⟨o,ho,hid,Nat.le_of_lt hlate⟩
    · exact ⟨hcall,inTime h.sessions hcall (Nat.le_of_not_lt hlate)⟩
  | waiting sessionId deadline notified =>
    simp only [Responder.stepConfirm] at hstep
    split_ifs at hstep with hnotified hlate
    · cases hstep
      exact hgoes (.refl _) rfl rfl rfl rfl rfl hcall
    · cases hstep
      obtain ⟨⟨o,ho,hid,rfl⟩,-⟩ := hcall
      exact hgoes (.refl _) rfl rfl rfl rfl rfl ⟨o,ho,hid,hlate⟩
  | removing sessionId =>
    cases hstep
    exact hends (removeSession_subset sessionId) rfl rfl rfl rfl rfl
  | decided sessionId decision =>
    cases hstep
    split
    · exact hends (.refl _) rfl rfl rfl rfl rfl
    · next e he =>
      have hmem := sessionOf_mem he
      cases decision with
      | false => exact hends (removeSession_subset sessionId) rfl rfl rfl rfl rfl
      | true =>
        obtain ⟨-,htime,happroved⟩ := hcall
        have hlive : m.Live sessionId := ⟨_,hmem,rfl⟩
        refine ⟨h.sessions.registers hmem rfl (fun o ho hid => ?_) rfl rfl rfl rfl rfl,
          fun c hc => ?_⟩
        · obtain ⟨d,hlast,haccept⟩ := happroved hlive
          exact ⟨d,hlast,haccept,htime hlive o ho hid d hlast haccept⟩
        · refine CallOk.of_live (h.calls c hc) (fun _ hlive => ?_) rfl (Nat.le_refl _) rfl
          obtain ⟨f,hf,hid⟩ := hlive
          exact ⟨f,removeSession_subset sessionId hf,hid⟩

theorem setLocalDecision (h : Book m) {accept : Bool}
    (htimely : Timely m (.setLocalDecision sessionId accept)) :
    Book (m.setLocalDecision sessionId accept) := by
  rw [Responder.setLocalDecision]
  split
  · exact h.fades ⟨Nat.le_refl _,pruneSessions_subset,rfl,rfl,rfl,fun _ hc => .inl hc⟩
  · next e he =>
    have hpruned : Book m.pruneSessions :=
      h.fades ⟨Nat.le_refl _,pruneSessions_subset,rfl,rfl,rfl,fun _ hc => .inl hc⟩
    have hmem := sessionOf_mem he
    refine ⟨hpruned.sessions.decides hmem rfl rfl rfl rfl rfl rfl,fun call hcall => ?_⟩
    refine CallOk.decides (hpruned.calls call hcall) (fun hid => ?_) (fun id hl => ?_) rfl rfl rfl
    · have hrespects := htimely e he call hcall hid
      split_ifs with haccept
      · rw [if_pos haccept] at hrespects
        intro hmay o ho hoid
        have hcreated := (hpruned.sessions.created_eq ho hmem hoid).1
        by_contra hlate
        have hfalse := hrespects (by rw [hcreated]; exact Nat.lt_of_not_le hlate)
        rw [hmay] at hfalse
        cases hfalse
      · rwa [if_neg haccept] at hrespects
    · obtain ⟨f,hf,rfl⟩ := hl
      obtain ⟨g,hg,rfl⟩ := mem_map.mp hf
      refine ⟨g,hg,?_⟩
      split_ifs <;> rfl

theorem openSession (h : Book m) (request : HelloRequest Signature) (secret : Secret) (serial : ℕ)
    (hfresh : sessionId ∉ m.openings.map Opening.sessionId) :
    Book (m.openSession P request secret serial sessionId) := by
  rw [Responder.openSession]
  split
  · exact h.fades ⟨Nat.le_refl _,.refl _,rfl,rfl,rfl,fun _ hc => .inl hc⟩
  split
  · exact h.fades ⟨Nat.le_refl _,.refl _,rfl,rfl,rfl,fun _ hc => .inl hc⟩
  · refine ⟨h.sessions.opens (o := ⟨sessionId,serial,request,
        m.response P request secret sessionId,P.diffieHellman secret request.fields.initEphPub,
        m.clock⟩)
      (e := (sessionId, m.entryOf P request secret)) hfresh ⟨rfl,rfl,rfl⟩ rfl rfl rfl
      (cons_subset_cons _ pruneSessions_subset) rfl rfl rfl,fun call hcall => ?_⟩
    have hother : ∀ q ∈ m.openings, q.sessionId ≠ sessionId := fun q hq hid =>
      hfresh (mem_map.mpr ⟨q,hq,hid⟩)
    refine CallOk.transfer (h.calls call hcall) (fun o ho => mem_cons_of_mem _ ho)
      (fun o ho q hq hid => ?_) (fun q hq hl => ?_) (Nat.le_refl _) rfl
    · rcases mem_cons.mp ho with rfl | ho
      · exact absurd hid.symm (hother q hq)
      · exact ho
    · obtain ⟨e,he,hid⟩ := hl
      rcases mem_cons.mp he with rfl | he
      · exact absurd hid.symm (hother q hq)
      · exact ⟨e,pruneSessions_subset he,hid⟩

theorem same (h : Book m) (hclock : m.clock = n.clock) (hsessions : n.sessions = m.sessions)
    (hopen : n.openings = m.openings) (hdec : n.decisions = m.decisions)
    (hrec : n.records = m.records) (hconfirms : n.confirms = m.confirms) : Book n :=
  h.fades ⟨Nat.le_of_eq hclock,fun _ he => hsessions ▸ he,hopen,hdec,hrec,
    fun _ hc => .inl (hconfirms ▸ hc)⟩

theorem step (h : Book m) {a : Label Secret Signature} (ha : Timely m a)
    (hstep : PairingResponder.step P m a = some n) : Book n := by
  cases a with
  | tick d =>
    cases hstep
    exact h.fades ⟨Nat.le_add_right _ _,.refl _,rfl,rfl,rfl,fun _ hc => .inl hc⟩
  | generateCode code secret | hello request source | pruneCodes | pruneFailures =>
      cases hstep; exact h.same rfl rfl rfl rfl rfl rfl
  | checkThrottle i =>
    simp only [PairingResponder.step] at hstep
    split at hstep
    · cases hstep
      rw [Responder.checkThrottle]
      split_ifs <;> exact h.same rfl rfl rfl rfl rfl rfl
    · cases hstep
  | takeCode i =>
    simp only [PairingResponder.step] at hstep
    split at hstep
    · cases hstep
      rw [Responder.takeCode]
      split <;> exact h.same rfl rfl rfl rfl rfl rfl
    · cases hstep
  | recordFailedHello i =>
    simp only [PairingResponder.step] at hstep
    split at hstep
    · cases hstep
      rw [Responder.recordFailedHello, Responder.updateBucket]
      split_ifs <;> exact h.same rfl rfl rfl rfl rfl rfl
    · cases hstep
  | openSession i sessionId =>
    simp only [PairingResponder.step] at hstep
    split at hstep
    · split_ifs at hstep with hfresh
      cases hstep
      have hm : Book { m with hellos := m.hellos.eraseIdx i } := h.same rfl rfl rfl rfl rfl rfl
      exact hm.openSession _ _ _ hfresh
    · cases hstep
  | setLocalDecision sessionId accept => cases hstep; exact h.setLocalDecision ha
  | notifyWaiters =>
    simp only [PairingResponder.step] at hstep
    split_ifs at hstep
    cases hstep
    refine h.fades ⟨Nat.le_refl _,.refl _,rfl,rfl,rfl,fun call hc => .inr ?_⟩
    obtain ⟨old,hold,rfl⟩ := mem_map.mp hc
    exact CallOk.notify (h.calls old hold)
  | confirm sessionId =>
    cases hstep
    refine h.fades ⟨Nat.le_refl _,.refl _,rfl,rfl,rfl,fun call hc => ?_⟩
    have hcases : call ∈ m.confirms ∨ call = .entered sessionId := mem_addConfirm hc
    rcases hcases with hold | rfl
    · exact .inl hold
    · exact .inr trivial
  | decline sessionId =>
    cases hstep
    rw [Responder.declineSession]
    split_ifs
    · refine h.fades ⟨Nat.le_refl _,?_,rfl,rfl,rfl,fun _ hc => .inl hc⟩
      exact fun e he => pruneSessions_subset (removeSession_subset sessionId he)
    · exact h.fades ⟨Nat.le_refl _,pruneSessions_subset,rfl,rfl,rfl,fun _ hc => .inl hc⟩
  | stepConfirm i =>
    simp only [PairingResponder.step] at hstep
    split at hstep
    · next call hcall =>
      have hm : Book { m with confirms := m.confirms.eraseIdx i } :=
        h.fades ⟨Nat.le_refl _,.refl _,rfl,rfl,rfl,
          fun _ hc => .inl (mem_of_mem_eraseIdx hc)⟩
      exact hm.stepConfirm
        (CallOk.of_live (h.calls call (mem_of_getElem? hcall)) (fun _ hl => hl) rfl
          (Nat.le_refl _) rfl) hstep
    · cases hstep
  | pruneSessions =>
    cases hstep
    exact h.fades ⟨Nat.le_refl _,pruneSessions_subset,rfl,rfl,rfl,fun _ hc => .inl hc⟩

end Book

/-! ## Pruning -/

/-- The step is the end of the session: a refusal of the initiator, or the last lock section of a
confirmation. -/
def EndsSession (m : Responder Secret Signing Signature) (sessionId : String) :
    Label Secret Signature → Prop
  | .decline id => id = sessionId
  | .stepConfirm i => m.confirms[i]? = some (.removing sessionId) ∨
    ∃ decision, m.confirms[i]? = some (.decided sessionId decision)
  | _ => False

/-- The session is still there. -/
def Responder.Keeps (m : Responder Secret Signing Signature) (e : String × ConfirmEntry) : Prop :=
  ∃ f ∈ m.sessions, f.1 = e.1 ∧ f.2.created = e.2.created

theorem mem_pruneSessions (he : e ∈ m.sessions)
    (hwindow : m.clock ≤ e.2.created + localDecisionTimeout) : e ∈ m.pruneSessions.sessions := by
  refine mem_filter.mpr ⟨he,?_⟩
  have hyoung : m.clock - e.2.created < sessionTtl := by
    simp only [localDecisionTimeout, sessionTtl, seconds] at hwindow ⊢
    omega
  simpa using hyoung

theorem mem_removeSession {sessionId : String} (he : e ∈ m.sessions) (hne : sessionId ≠ e.1) :
    e ∈ (m.removeSession sessionId).sessions :=
  mem_filter.mpr ⟨he,by simpa using Ne.symm hne⟩

theorem stepConfirm_keeps (hstep : m.stepConfirm P call = some n) (he : e ∈ m.sessions)
    (hwindow : m.clock ≤ e.2.created + localDecisionTimeout) (hremoving : call ≠ .removing e.1)
    (hdecided : ∀ decision, call ≠ .decided e.1 decision) : e ∈ n.sessions := by
  have hpruned := mem_pruneSessions he hwindow
  cases call with
  | entered sessionId => cases hstep; split <;> exact hpruned
  | deadlineKnown sessionId deadline | looping sessionId deadline
  | undecided sessionId deadline notified => cases hstep; exact he
  | reading sessionId deadline notified => cases hstep; split <;> exact hpruned
  | waiting sessionId deadline notified =>
    simp only [Responder.stepConfirm] at hstep
    split_ifs at hstep <;> cases hstep <;> exact he
  | removing sessionId =>
    have hne : sessionId ≠ e.1 := fun heq => hremoving (heq ▸ rfl)
    cases hstep
    exact mem_removeSession he hne
  | decided sessionId decision =>
    have hne : sessionId ≠ e.1 := fun heq => hdecided decision (heq ▸ rfl)
    cases hstep
    split
    · exact he
    · split_ifs <;> exact mem_removeSession he hne

theorem keeps_of_mem (he : e ∈ n.sessions) : n.Keeps e :=
  ⟨e,he,rfl,rfl⟩

/-- While the user may decide, a session goes only when the initiator refuses or a confirmation
ends. -/
theorem step_keeps {a : Label Secret Signature} (hstep : step P m a = some n) (he : e ∈ m.sessions)
    (hwindow : m.clock ≤ e.2.created + localDecisionTimeout) (hends : ¬EndsSession m e.1 a) :
    n.Keeps e := by
  have hpruned := mem_pruneSessions he hwindow
  cases a with
  | tick d | generateCode code secret | hello request source | confirm sessionId | pruneCodes
  | pruneFailures => cases hstep; exact keeps_of_mem he
  | checkThrottle i =>
    simp only [step] at hstep
    split at hstep
    · cases hstep
      rw [Responder.checkThrottle]
      split_ifs <;> exact keeps_of_mem he
    · cases hstep
  | takeCode i =>
    simp only [step] at hstep
    split at hstep
    · cases hstep
      rw [Responder.takeCode]
      split <;> exact keeps_of_mem he
    · cases hstep
  | recordFailedHello i =>
    simp only [step] at hstep
    split at hstep
    · cases hstep
      rw [Responder.recordFailedHello, Responder.updateBucket]
      split_ifs <;> exact keeps_of_mem he
    · cases hstep
  | openSession i sessionId =>
    simp only [step] at hstep
    split at hstep
    · split_ifs at hstep
      cases hstep
      rw [Responder.openSession]
      split_ifs
      · exact keeps_of_mem he
      · exact keeps_of_mem he
      · exact keeps_of_mem (mem_cons_of_mem _ hpruned)
    · cases hstep
  | setLocalDecision sessionId accept =>
    cases hstep
    rw [Responder.setLocalDecision]
    split
    · exact keeps_of_mem hpruned
    · refine ⟨_,mem_map_of_mem hpruned,?_⟩
      split_ifs <;> exact ⟨rfl,rfl⟩
  | notifyWaiters =>
    simp only [step] at hstep
    split_ifs at hstep
    cases hstep
    exact keeps_of_mem he
  | decline sessionId =>
    cases hstep
    rw [Responder.declineSession]
    split_ifs
    · exact keeps_of_mem (mem_removeSession hpruned hends)
    · exact keeps_of_mem hpruned
  | stepConfirm i =>
    simp only [step] at hstep
    split at hstep
    · next call hcall =>
      refine keeps_of_mem (stepConfirm_keeps hstep he hwindow (fun heq => ?_) (fun decision heq => ?_))
      · exact hends (.inl (heq ▸ hcall))
      · exact hends (.inr ⟨decision,heq ▸ hcall⟩)
    · cases hstep
  | pruneSessions => cases hstep; exact keeps_of_mem hpruned

/-! ## Runs -/

/-- What the responder promises of the devices it registers and the sessions it keeps. -/
structure Sound (P : Primitives Secret Signing Signature) (m : Responder Secret Signing Signature) :
    Prop where
  vouched : ∀ r ∈ m.records, ∃ o ∈ m.openings, Registered m.decisions o r ∧
    P.verify o.request.fields.initIdPub (transcriptInit o.request.fields) o.request.initiatorSig ∧
      m.Consumed o.serial o.request.fields.code
  oneSession : (m.openings.map Opening.serial).Nodup
  oneRecord : (m.records.map Prod.fst).Nodup
  kept : ∀ a n, step P m a = some n → ∀ e ∈ m.sessions,
    m.clock ≤ e.2.created + localDecisionTimeout → ¬EndsSession m e.1 a → n.Keeps e
  expired : ∀ sessionId, .removing sessionId ∈ m.confirms → ∀ e ∈ m.sessions, e.1 = sessionId →
    e.2.created + localDecisionTimeout ≤ m.clock

structure Inv (P : Primitives Secret Signing Signature) (m : Responder Secret Signing Signature) :
    Prop where
  codes : CodeBook P m
  book : Book m

theorem Initial.inv (h : Initial m) : Inv P m := by
  refine ⟨⟨?_,fun serial => ?_,fun serial hpos => ?_,?_,?_⟩,
    ⟨⟨?_,?_,?_,?_,?_,?_,?_,?_⟩,?_⟩⟩
  · simp [h.codes]
  · simp [Responder.uses, h.codes, h.hellos, h.openings]
  · simp [Responder.uses, h.codes, h.hellos, h.openings] at hpos
  · simp [h.hellos]
  · simp [h.openings]
  · simp [h.openings]
  · simp [h.openings]
  · simp [h.sessions]
  · simp [h.sessions]
  · simp [h.decisions]
  · simp [h.records]
  · simp [h.records]
  · simp [h.records]
  · simp [h.confirms]

theorem Inv.sound (h : Inv P m) : Sound P m where
  vouched r hr := by
    obtain ⟨o,ho,hreg⟩ := h.book.sessions.records r hr
    obtain ⟨hverify,hconsumed⟩ := h.codes.openings o ho
    exact ⟨o,ho,hreg,hverify,hconsumed⟩
  oneSession := by
    refine nodup_iff_count_le_one.mpr (fun serial => ?_)
    have honce := h.codes.once serial
    rw [Responder.uses] at honce
    omega
  oneRecord := h.book.sessions.once
  kept _ _ hstep _ he hwindow hends := step_keeps hstep he hwindow hends
  expired sessionId hcall e he hid := by
    obtain ⟨o,ho,hoid,hlate⟩ := h.book.calls _ hcall
    rw [(h.book.sessions.created_eq ho he (hoid.trans hid.symm)).1]
    exact hlate

/-- In every run whose decisions respect the calls under way, every state is sound. -/
theorem run_sound {s t : Responder Secret Signing Signature} {as : List (Label Secret Signature)}
    (hs : Initial s) (hm : Meets (step P) Timely s as) (hrun : exec (step P) s as = some t) :
    Sound P t := by
  have hstep : ∀ (s : Responder Secret Signing Signature) a t, Inv P s → Timely s a →
      step P s a = some t → Inv P t :=
    fun _ _ _ h ha hstep => ⟨h.codes.step hstep,h.book.step ha hstep⟩
  exact (exec_invariant_of_meets hstep (Initial.inv hs) hm hrun).sound

/-! ## A pairing on fixed inputs -/

def newResponder : Responder Key Key (Key × Bytes) where
  identity := Vector.replicate 32 1
  selfInfo := ⟨"nas",none,none⟩
  codes := []
  sessions := []
  failures := []
  clock := 0
  hellos := []
  confirms := []
  notifies := 0
  generated := 0
  consumptions := []
  openings := []
  decisions := []
  records := []
  errors := []

theorem newResponder_initial : Initial newResponder := ⟨rfl,rfl,rfl,rfl,rfl,rfl,rfl,rfl,rfl⟩

def phoneFields : InitFields :=
  ⟨"123456",Vector.replicate 32 2,Vector.replicate 32 3,"phone",none,none,["10.0.0.2:80"]⟩

def phoneHello : HelloRequest (Key × Bytes) :=
  ⟨phoneFields,(Vector.replicate 32 3, transcriptInit phoneFields)⟩

/-- The phone uses the code, and its confirmation gets to its loop. -/
def untilLoop : List (Label Key (Key × Bytes)) :=
  [.generateCode "123456" (Vector.replicate 32 4), .hello phoneHello none, .checkThrottle 0,
    .takeCode 0, .openSession 0 "s", .confirm "s", .stepConfirm 0, .stepConfirm 0]

/-- The user approves while the confirmation waits. -/
def approving : List (Label Key (Key × Bytes)) :=
  untilLoop ++ [.stepConfirm 0, .stepConfirm 0, .stepConfirm 0, .setLocalDecision "s" true,
    .notifyWaiters, .stepConfirm 0, .stepConfirm 0, .stepConfirm 0, .stepConfirm 0]

/-- The user takes the approval back after the confirmation has read it. -/
def takingBack : List (Label Key (Key × Bytes)) :=
  untilLoop ++ [.setLocalDecision "s" true, .notifyWaiters, .stepConfirm 0, .stepConfirm 0,
    .setLocalDecision "s" false, .notifyWaiters, .stepConfirm 0]

/-- The user approves a second after the window, before the timer of the confirmation. -/
def approvingLate : List (Label Key (Key × Bytes)) :=
  untilLoop ++ [.stepConfirm 0, .stepConfirm 0, .stepConfirm 0, .tick (seconds 61),
    .setLocalDecision "s" true, .notifyWaiters, .stepConfirm 0, .stepConfirm 0, .stepConfirm 0,
    .stepConfirm 0]

theorem run_sound_approving :
    ∃ t, exec (step toy) newResponder approving = some t ∧ t.records.map Prod.fst = ["s"] ∧
      Sound toy t := by
  have hm : Meets (step toy) Timely newResponder approving := by decide +kernel
  have hrun : (exec (step toy) newResponder approving).map (fun t => t.records.map Prod.fst) =
      some ["s"] := by decide +kernel
  obtain ⟨t,ht,hrecords⟩ := map_eq_some_iff.mp hrun
  exact ⟨t,ht,hrecords,run_sound newResponder_initial hm ht⟩

structure Summary where
  registered : List String
  decisions : List Decision
  created : List ℕ
  deriving DecidableEq

def Responder.summary (m : Responder Secret Signing Signature) : Summary :=
  ⟨m.records.map Prod.fst,m.decisions,m.openings.map Opening.created⟩

theorem not_sound_of_summary {decisions : List Decision}
    (hsum : m.summary = ⟨["s"],decisions,[0]⟩)
    (hbad : ∀ d, lastDecision decisions "s" = some d → d.accept → localDecisionTimeout < d.time) :
    ¬Sound P m := by
  simp only [Responder.summary, Summary.mk.injEq] at hsum
  obtain ⟨hrecords,rfl,hcreated⟩ := hsum
  intro h
  obtain ⟨r,hr,hid⟩ := mem_map.mp (hrecords ▸ mem_singleton_self "s")
  obtain ⟨o,ho,hreg,-⟩ := h.vouched r hr
  obtain ⟨d,hlast,haccept,-,htime⟩ := hreg.approved
  have hzero : o.created ∈ m.openings.map Opening.created := mem_map_of_mem ho
  rw [hcreated, mem_singleton] at hzero
  have hlate := hbad d (hid ▸ hlast) haccept
  omega

/-- A device is registered after the user has taken the approval back, and another after an approval
that came too late. -/
theorem registered_after_rejection :
    (∃ t, exec (step toy) newResponder takingBack = some t ∧ t.records.map Prod.fst = ["s"] ∧
      lastDecision t.decisions "s" = some ⟨"s",false,0⟩ ∧ ¬Sound toy t) ∧
    ∃ t, exec (step toy) newResponder approvingLate = some t ∧ t.records.map Prod.fst = ["s"] ∧
      lastDecision t.decisions "s" = some ⟨"s",true,seconds 61⟩ ∧ ¬Sound toy t := by
  constructor
  · have hrun : (exec (step toy) newResponder takingBack).map Responder.summary =
        some ⟨["s"],[⟨"s",false,0⟩, ⟨"s",true,0⟩],[0]⟩ := by decide +kernel
    obtain ⟨t,ht,hsum⟩ := map_eq_some_iff.mp hrun
    refine ⟨t,ht,congrArg Summary.registered hsum,?_,not_sound_of_summary hsum ?_⟩
    · rw [show t.decisions = _ from congrArg Summary.decisions hsum]
      rfl
    · intro d hlast haccept
      cases hlast
      cases haccept
  · have hrun : (exec (step toy) newResponder approvingLate).map Responder.summary =
        some ⟨["s"],[⟨"s",true,seconds 61⟩],[0]⟩ := by decide +kernel
    obtain ⟨t,ht,hsum⟩ := map_eq_some_iff.mp hrun
    refine ⟨t,ht,congrArg Summary.registered hsum,?_,not_sound_of_summary hsum ?_⟩
    · rw [show t.decisions = _ from congrArg Summary.decisions hsum]
      rfl
    · intro d hlast _
      cases hlast
      decide

end RinaDown.PairingResponder
