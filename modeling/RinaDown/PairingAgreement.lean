import Mathlib.Data.List.Nodup
import RinaDown.PairingCodes
import RinaDown.PairingNetwork

/-!
# Two users who see the same string

If both ends show the same authentication string, the two records name each
other and hold one link key, provided that no ephemeral key of a device travels
under an identity of the attacker. The string binds the ephemeral keys and the
agreement; only the signatures bind the identities to them.
-/

namespace RinaDown.PairingNetwork
open LabelledExecutions LengthFraming LinkCrypto PairingResponder List Option

universe u

variable {Secret Signing Signature : Type u} {P : Primitives Secret Signing Signature}

/-! ## What a responder registers -/

section Responders

variable {identity : Signing} {Delivered Delivered' : HelloRequest Signature → Prop}
  {Generated Generated' : Key → Prop} {m n : Responder Secret Signing Signature}

/-- The request of a hello has been delivered, and its secret is that of a code. -/
def CallTraced (P : Primitives Secret Signing Signature) (Delivered : HelloRequest Signature → Prop)
    (Generated : Key → Prop) : HelloCall Secret Signature → Prop
  | .entered request _ => Delivered request
  | .unthrottled request _ => Delivered request
  | .failed _ => True
  | .opened request secret _ => Delivered request ∧ Generated (P.ephPub secret)

structure Carries (o : Opening Signature) (e : String × ConfirmEntry) : Prop where
  sessionId : o.sessionId = e.1
  z : e.2.z = o.z
  identity : e.2.initiatorIdPub = o.request.fields.initIdPub
  addrs : e.2.initiatorAddrs = o.request.fields.initiatorAddrs

structure Registers (P : Primitives Secret Signing Signature) (o : Opening Signature)
    (r : String × PeerRecord) : Prop where
  sessionId : o.sessionId = r.1
  identity : r.2.identityPub = o.request.fields.initIdPub.toList
  linkSecret : r.2.linkSecret = P.deriveLinkKey o.z
  candidates : r.2.candidates = o.request.fields.initiatorAddrs.map (fun a => ⟨.direct,a⟩)

/-- The opening answers a delivered hello with the key of a code. -/
structure Answers (P : Primitives Secret Signing Signature) (identity : Signing)
    (Delivered : HelloRequest Signature → Prop) (Generated : Key → Prop) (o : Opening Signature) :
    Prop where
  delivered : Delivered o.request
  verified : P.verify o.request.fields.initIdPub (transcriptInit o.request.fields)
    o.request.initiatorSig
  generated : Generated o.response.responderEphPub
  identity : o.response.responderIdPub = P.identityPub identity
  sas : o.response.sas =
    P.deriveSas o.z o.request.fields.initEphPub o.response.responderEphPub

/-- All that a responder does goes back to delivered hellos and its own codes. -/
structure Traced (P : Primitives Secret Signing Signature) (identity : Signing)
    (Delivered : HelloRequest Signature → Prop) (Generated : Key → Prop)
    (m : Responder Secret Signing Signature) : Prop where
  self : m.identity = identity
  codes : ∀ c ∈ m.codes, Generated (P.ephPub c.ephSecret)
  calls : ∀ call ∈ m.hellos, CallTraced P Delivered Generated call
  openings : ∀ o ∈ m.openings, Answers P identity Delivered Generated o
  distinct : (m.openings.map Opening.sessionId).Nodup
  sessions : ∀ e ∈ m.sessions, ∃ o ∈ m.openings, Carries o e
  records : ∀ r ∈ m.records, ∃ o ∈ m.openings, Registers P o r

namespace Traced

theorem mono (h : Traced P identity Delivered Generated m)
    (hdelivered : ∀ request, Delivered request → Delivered' request)
    (hgenerated : ∀ key, Generated key → Generated' key) :
    Traced P identity Delivered' Generated' m where
  self := h.self
  codes c hc := hgenerated _ (h.codes c hc)
  calls call hcall := by
    have hold := h.calls call hcall
    cases call with
    | entered request source => exact hdelivered _ hold
    | unthrottled request source => exact hdelivered _ hold
    | failed source => trivial
    | opened request secret serial => exact ⟨hdelivered _ hold.1,hgenerated _ hold.2⟩
  openings o ho := by
    have hold := h.openings o ho
    exact ⟨hdelivered _ hold.delivered,hold.verified,hgenerated _ hold.generated,hold.identity,
      hold.sas⟩
  distinct := h.distinct
  sessions := h.sessions
  records := h.records

theorem of_subset (h : Traced P identity Delivered Generated m) (hid : n.identity = m.identity)
    (hcodes : n.codes ⊆ m.codes)
    (hcalls : ∀ call ∈ n.hellos, call ∈ m.hellos ∨ CallTraced P Delivered Generated call)
    (hopen : n.openings = m.openings) (hsessions : n.sessions ⊆ m.sessions)
    (hrec : n.records = m.records) : Traced P identity Delivered Generated n where
  self := hid.trans h.self
  codes c hc := h.codes c (hcodes hc)
  calls call hcall := (hcalls call hcall).elim (h.calls call) id
  openings o ho := h.openings o (hopen ▸ ho)
  distinct := hopen ▸ h.distinct
  sessions e he := by
    rw [hopen]
    exact h.sessions e (hsessions he)
  records r hr := by
    rw [hopen]
    exact h.records r (hrec ▸ hr)

theorem of_sessions (h : Traced P identity Delivered Generated m) (hid : n.identity = m.identity)
    (hcodes : n.codes = m.codes) (hcalls : n.hellos = m.hellos) (hopen : n.openings = m.openings)
    (hsessions : ∀ f ∈ n.sessions, ∃ e ∈ m.sessions, ∀ o : Opening Signature,
      Carries o e → Carries o f)
    (hrec : ∀ r ∈ n.records, r ∈ m.records ∨ ∃ o ∈ m.openings, Registers P o r) :
    Traced P identity Delivered Generated n where
  self := hid.trans h.self
  codes c hc := h.codes c (hcodes ▸ hc)
  calls call hcall := h.calls call (hcalls ▸ hcall)
  openings o ho := h.openings o (hopen ▸ ho)
  distinct := hopen ▸ h.distinct
  sessions f hf := by
    obtain ⟨e,he,hsame⟩ := hsessions f hf
    obtain ⟨o,ho,hcarries⟩ := h.sessions e he
    exact ⟨o,hopen ▸ ho,hsame o hcarries⟩
  records r hr := by
    rw [hopen]
    exact (hrec r hr).elim (h.records r) id

theorem setLocalDecision (h : Traced P identity Delivered Generated m) (sessionId : String)
    (accept : Bool) : Traced P identity Delivered Generated (m.setLocalDecision sessionId accept) := by
  rw [Responder.setLocalDecision]
  split
  · exact h.of_subset rfl (.refl _) (fun _ => .inl) rfl pruneSessions_subset rfl
  · refine h.of_sessions rfl rfl rfl rfl (fun f hf => ?_) (fun _ => .inl)
    obtain ⟨e,he,rfl⟩ := mem_map.mp hf
    refine ⟨e,pruneSessions_subset he,fun o ho => ?_⟩
    split_ifs
    · exact ⟨ho.sessionId,ho.z,ho.identity,ho.addrs⟩
    · exact ho

variable {request : HelloRequest Signature}

theorem openSession (h : Traced P identity Delivered Generated m) {secret : Secret}
    (hrequest : Delivered request) (hsecret : Generated (P.ephPub secret)) (serial : ℕ)
    {sessionId : String} (hfresh : sessionId ∉ m.openings.map Opening.sessionId) :
    Traced P identity Delivered Generated (m.openSession P request secret serial sessionId) := by
  rw [Responder.openSession]
  split
  · exact h.of_subset rfl (.refl _) (fun _ => .inl) rfl (.refl _) rfl
  split
  · exact h.of_subset rfl (.refl _) (fun _ => .inl) rfl (.refl _) rfl
  · next hverify _ =>
    refine ⟨h.self,h.codes,h.calls,fun o ho => ?_,nodup_cons.mpr ⟨hfresh,h.distinct⟩,
      fun e he => ?_,fun r hr => ?_⟩
    · rcases mem_cons.mp ho with rfl | ho
      · exact ⟨hrequest,by simpa using hverify,hsecret,congrArg P.identityPub h.self,rfl⟩
      · exact h.openings o ho
    · rcases mem_cons.mp he with rfl | he
      · exact ⟨_,mem_cons_self,rfl,rfl,rfl,rfl⟩
      · obtain ⟨o,ho,hcarries⟩ := h.sessions e (pruneSessions_subset he)
        exact ⟨o,mem_cons_of_mem _ ho,hcarries⟩
    · obtain ⟨o,ho,hreg⟩ := h.records r hr
      exact ⟨o,mem_cons_of_mem _ ho,hreg⟩

theorem takeCode (h : Traced P identity Delivered Generated m) (hrequest : Delivered request)
    (source : Option String) :
    Traced P identity Delivered Generated (m.takeCode request source) := by
  have hpruned : m.pruneCodes.codes ⊆ m.codes := filter_sublist.subset
  rw [Responder.takeCode]
  split
  · refine h.of_subset rfl hpruned (fun call hcall => ?_) rfl (.refl _) rfl
    rcases mem_append.mp hcall with hmem | hmem
    · exact .inl hmem
    · cases mem_singleton.mp hmem
      exact .inr trivial
  · next c hfind =>
    have hc := hpruned (mem_of_find?_eq_some hfind)
    refine h.of_subset rfl (fun b hb => hpruned (eraseP_subset hb)) (fun call hcall => ?_) rfl
      (.refl _) rfl
    rcases mem_append.mp hcall with hmem | hmem
    · exact .inl hmem
    · cases mem_singleton.mp hmem
      exact .inr ⟨hrequest,h.codes c hc⟩

theorem stepConfirm (h : Traced P identity Delivered Generated m) {call : ConfirmCall}
    (hstep : m.stepConfirm P call = some n) : Traced P identity Delivered Generated n := by
  have hfewer : ∀ {p : Responder Secret Signing Signature}, p.identity = m.identity →
      p.codes = m.codes → p.hellos = m.hellos → p.openings = m.openings →
        p.sessions ⊆ m.sessions → p.records = m.records →
          Traced P identity Delivered Generated p :=
    fun hid hc hh ho hs hr => h.of_subset hid (hc ▸ .refl _)
      (fun _ hcall => .inl (hh ▸ hcall)) ho hs hr
  cases call with
  | entered sessionId => cases hstep; split <;> exact hfewer rfl rfl rfl rfl pruneSessions_subset rfl
  | deadlineKnown sessionId deadline | looping sessionId deadline
  | undecided sessionId deadline notified =>
    cases hstep
    exact hfewer rfl rfl rfl rfl (.refl _) rfl
  | reading sessionId deadline notified =>
    cases hstep
    split <;> exact hfewer rfl rfl rfl rfl pruneSessions_subset rfl
  | waiting sessionId deadline notified =>
    simp only [Responder.stepConfirm] at hstep
    split_ifs at hstep <;> cases hstep <;> exact hfewer rfl rfl rfl rfl (.refl _) rfl
  | removing sessionId =>
    cases hstep
    exact hfewer rfl rfl rfl rfl (removeSession_subset sessionId) rfl
  | decided sessionId decision =>
    cases hstep
    split
    · exact hfewer rfl rfl rfl rfl (.refl _) rfl
    · next e he =>
      split_ifs
      · refine h.of_sessions rfl rfl rfl rfl
          (fun f hf => ⟨f,removeSession_subset sessionId hf,fun _ => id⟩) (fun r hr => ?_)
        rcases mem_cons.mp hr with rfl | hr
        · obtain ⟨o,ho,hcarries⟩ := h.sessions _ (sessionOf_mem he)
          exact .inr ⟨o,ho,hcarries.sessionId,congrArg Vector.toList hcarries.identity,
            congrArg P.deriveLinkKey hcarries.z,congrArg (List.map _) hcarries.addrs⟩
        · exact .inl hr
      · exact hfewer rfl rfl rfl rfl (removeSession_subset sessionId) rfl

theorem checkThrottle (h : Traced P identity Delivered Generated m) (hrequest : Delivered request)
    (source : Option String) :
    Traced P identity Delivered Generated (m.checkThrottle P request source) := by
  rw [Responder.checkThrottle]
  split_ifs
  · exact h.of_subset rfl (.refl _) (fun _ => .inl) rfl (.refl _) rfl
  · exact h.of_subset rfl (.refl _) (fun _ => .inl) rfl (.refl _) rfl
  · refine h.of_subset rfl (.refl _) (fun call hcall => ?_) rfl (.refl _) rfl
    rcases mem_append.mp hcall with hmem | hmem
    · exact .inl hmem
    · cases mem_singleton.mp hmem
      exact .inr hrequest

/-- A step of a responder, with what it generates and what is delivered to it. -/
theorem step (h : Traced P identity Delivered Generated m)
    {a : PairingResponder.Label Secret Signature} (hstep : PairingResponder.step P m a = some n)
    (hgenerate : ∀ code secret, a = .generateCode code secret → Generated (P.ephPub secret))
    (hdeliver : ∀ request source, a = .hello request source → Delivered request) :
    Traced P identity Delivered Generated n := by
  have herased : ∀ i, Traced P identity Delivered Generated
      { m with hellos := m.hellos.eraseIdx i } := fun i =>
    h.of_subset rfl (.refl _) (fun _ hcall => .inl (mem_of_mem_eraseIdx hcall)) rfl
      (.refl _) rfl
  have hsame : ∀ {p : Responder Secret Signing Signature}, p.identity = m.identity →
      p.codes = m.codes → p.hellos = m.hellos → p.openings = m.openings →
        p.sessions = m.sessions → p.records = m.records →
          Traced P identity Delivered Generated p :=
    fun hid hc hh ho hs hr => h.of_subset hid (hc ▸ .refl _)
      (fun _ hcall => .inl (hh ▸ hcall)) ho (hs ▸ .refl _) hr
  cases a with
  | tick d | confirm sessionId | pruneFailures => cases hstep; exact hsame rfl rfl rfl rfl rfl rfl
  | generateCode code secret =>
    cases hstep
    refine ⟨h.self,fun c hc => ?_,h.calls,h.openings,h.distinct,h.sessions,h.records⟩
    cases mem_singleton.mp hc
    exact hgenerate code secret rfl
  | hello request source =>
    cases hstep
    refine h.of_subset rfl (.refl _) (fun call hcall => ?_) rfl (.refl _) rfl
    rcases mem_append.mp hcall with hmem | hmem
    · exact .inl hmem
    · cases mem_singleton.mp hmem
      exact .inr (hdeliver request source rfl)
  | checkThrottle i =>
    simp only [PairingResponder.step] at hstep
    split at hstep
    · next hcall =>
      cases hstep
      exact (herased i).checkThrottle (h.calls _ (mem_of_getElem? hcall)) _
    · cases hstep
  | takeCode i =>
    simp only [PairingResponder.step] at hstep
    split at hstep
    · next hcall =>
      cases hstep
      exact (herased i).takeCode (h.calls _ (mem_of_getElem? hcall)) _
    · cases hstep
  | recordFailedHello i =>
    simp only [PairingResponder.step] at hstep
    split at hstep
    · cases hstep
      rw [Responder.recordFailedHello, Responder.updateBucket]
      split_ifs <;> exact (herased i).of_subset rfl (.refl _) (fun _ => .inl) rfl
        (.refl _) rfl
    · cases hstep
  | openSession i sessionId =>
    simp only [PairingResponder.step] at hstep
    split at hstep
    · next hcall =>
      split_ifs at hstep with hfresh
      cases hstep
      have htraced := h.calls _ (mem_of_getElem? hcall)
      exact (herased i).openSession htraced.1 htraced.2 _ hfresh
    · cases hstep
  | setLocalDecision sessionId accept => cases hstep; exact h.setLocalDecision sessionId accept
  | notifyWaiters =>
    simp only [PairingResponder.step] at hstep
    split_ifs at hstep
    cases hstep
    exact hsame rfl rfl rfl rfl rfl rfl
  | decline sessionId =>
    cases hstep
    rw [Responder.declineSession]
    split_ifs
    · exact h.of_subset rfl (.refl _) (fun _ => .inl) rfl
        (fun e he => pruneSessions_subset (removeSession_subset sessionId he)) rfl
    · exact h.of_subset rfl (.refl _) (fun _ => .inl) rfl pruneSessions_subset rfl
  | stepConfirm i =>
    simp only [PairingResponder.step] at hstep
    split at hstep
    · have hm : Traced P identity Delivered Generated { m with confirms := m.confirms.eraseIdx i } :=
        hsame rfl rfl rfl rfl rfl rfl
      exact hm.stepConfirm hstep
    · cases hstep
  | pruneCodes =>
    cases hstep
    exact h.of_subset rfl filter_sublist.subset (fun _ => .inl) rfl (.refl _) rfl
  | pruneSessions =>
    cases hstep
    exact h.of_subset rfl (.refl _) (fun _ => .inl) rfl pruneSessions_subset rfl

end Traced

theorem step_openings {a : PairingResponder.Label Secret Signature}
    (hstep : PairingResponder.step P m a = some n) {o : Opening Signature} (ho : o ∈ n.openings) :
    o ∈ m.openings ∨ ∃ k sessionId request secret serial, a = .openSession k sessionId ∧
      m.hellos[k]? = some (.opened request secret serial) ∧ o.request = request ∧
        o.z = P.diffieHellman secret request.fields.initEphPub ∧
          o.response = m.response P request secret sessionId := by
  cases a with
  | tick d | generateCode code secret | hello request source | confirm sessionId | pruneCodes
  | pruneSessions | pruneFailures => cases hstep; exact .inl ho
  | checkThrottle i =>
    simp only [PairingResponder.step] at hstep
    split at hstep
    · cases hstep
      rw [Responder.checkThrottle] at ho
      split_ifs at ho <;> exact .inl ho
    · cases hstep
  | takeCode i =>
    simp only [PairingResponder.step] at hstep
    split at hstep
    · cases hstep
      rw [Responder.takeCode] at ho
      split at ho <;> exact .inl ho
    · cases hstep
  | recordFailedHello i =>
    simp only [PairingResponder.step] at hstep
    split at hstep
    · cases hstep
      rw [Responder.recordFailedHello, Responder.updateBucket] at ho
      split_ifs at ho <;> exact .inl ho
    · cases hstep
  | openSession i sessionId =>
    simp only [PairingResponder.step] at hstep
    split at hstep
    · next request secret serial hcall =>
      split_ifs at hstep
      cases hstep
      rw [Responder.openSession] at ho
      split_ifs at ho
      · exact .inl ho
      · exact .inl ho
      · rcases mem_cons.mp ho with rfl | ho
        · exact .inr ⟨i,sessionId,request,secret,serial,rfl,hcall,rfl,rfl,rfl⟩
        · exact .inl ho
    · cases hstep
  | setLocalDecision sessionId accept =>
    cases hstep
    exact .inl ((sameCodes_setLocalDecision m sessionId accept).openings ▸ ho)
  | notifyWaiters =>
    simp only [PairingResponder.step] at hstep
    split_ifs at hstep
    cases hstep
    exact .inl ho
  | decline sessionId =>
    cases hstep
    exact .inl ((sameCodes_declineSession m sessionId).openings ▸ ho)
  | stepConfirm i =>
    simp only [PairingResponder.step] at hstep
    split at hstep
    · exact .inl ((sameCodes_stepConfirm hstep).openings ▸ ho)
    · cases hstep

end Responders

/-! ## What the keys tell -/

variable {s t : Network Secret Signing Signature}

def Owner.isCode : Owner → Bool
  | .initiator _ => false
  | .code _ => true

/-- The same agreement between the same two ephemeral keys. -/
def SameInputs (z a b z' a' b' : Key) : Prop := z = z' ∧ (a = a' ∧ b = b' ∨ a = b' ∧ b = a')

instance (z a b z' a' b' : Key) : Decidable (SameInputs z a b z' a' b') :=
  inferInstanceAs (Decidable (_ ∧ _))

namespace Network

def InitiatorKey (s : Network Secret Signing Signature) (key : Key) : Prop :=
  ∃ p ∈ s.owners, p.1 = key ∧ p.2.isCode = false

def CodeKey (s : Network Secret Signing Signature) (key : Key) : Prop :=
  ∃ p ∈ s.owners, p.1 = key ∧ p.2.isCode = true

instance (s : Network Secret Signing Signature) (key : Key) : Decidable (s.InitiatorKey key) :=
  inferInstanceAs (Decidable (∃ p ∈ s.owners, p.1 = key ∧ p.2.isCode = false))

instance (s : Network Secret Signing Signature) (key : Key) : Decidable (s.CodeKey key) :=
  inferInstanceAs (Decidable (∃ p ∈ s.owners, p.1 = key ∧ p.2.isCode = true))

/-- A hello that carries the ephemeral key of an initiator says what this initiator has said. -/
def Delivered (P : Primitives Secret Signing Signature) (s : Network Secret Signing Signature)
    (request : HelloRequest Signature) : Prop :=
  request.fields.initEphPub ∈ s.seen ∧
    (P.verify request.fields.initIdPub (transcriptInit request.fields) request.initiatorSig →
      ∀ i, (request.fields.initEphPub, .initiator i) ∈ s.owners →
        ∃ initiator, s.initiators[i]? = some initiator ∧ ∃ f ∈ initiator.hellos,
          f.initIdPub = request.fields.initIdPub ∧ f.initiatorAddrs = request.fields.initiatorAddrs)

/-- The answer of an initiator that carries the key of a code comes from the device of the code. -/
structure AnswerOk (P : Primitives Secret Signing Signature) (s : Network Secret Signing Signature)
    (ephPub : Key) (a : Answer) (n : Negotiated) : Prop where
  sas : a.sas = P.deriveSas n.z ephPub a.responderEphPub
  seen : a.responderEphPub ∈ s.seen
  identity : ∀ d m, (a.responderEphPub, .code d) ∈ s.owners → s.devices[d]? = some m →
    n.responderIdPub = P.identityPub m.identity

structure InitiatorOk (P : Primitives Secret Signing Signature)
    (s : Network Secret Signing Signature) (i : ℕ) (initiator : PairingInitiator Secret Signing) :
    Prop where
  owned : (initiator.ephPub, .initiator i) ∈ s.owners
  hellos : ∀ f ∈ initiator.hellos, f.initEphPub = initiator.ephPub ∧
    f.initIdPub = P.identityPub initiator.identity ∧ f.Short
  answer : ∀ a, initiator.answer = some a → ∃ n, initiator.negotiated = some n ∧
    AnswerOk P s initiator.ephPub a n

/-- No initiator and responder derive one string from different inputs. -/
def Apart (s : Network Secret Signing Signature) : Prop :=
  ∀ initiator ∈ s.initiators, ∀ a ∈ initiator.answer, ∀ n ∈ initiator.negotiated,
    ∀ m ∈ s.devices, ∀ o ∈ m.openings, a.sas = o.response.sas →
      SameInputs n.z initiator.ephPub a.responderEphPub o.z o.request.fields.initEphPub
        o.response.responderEphPub

structure Inv (P : Primitives Secret Signing Signature) (s : Network Secret Signing Signature) :
    Prop where
  distinct : (s.owners.map Prod.fst).Nodup
  seen : ∀ p ∈ s.owners, p.1 ∈ s.seen
  devices : ∀ d m, s.devices[d]? = some m →
    Traced P m.identity (s.Delivered P) (fun key => (key, .code d) ∈ s.owners) m
  initiators : ∀ i initiator, s.initiators[i]? = some initiator → InitiatorOk P s i initiator
  apart : s.Apart

theorem Inv.owner_eq (h : Inv P s) {key : Key} {o q : Owner} (ho : (key, o) ∈ s.owners)
    (hq : (key, q) ∈ s.owners) : o = q :=
  congrArg Prod.snd (inj_on_of_nodup_map h.distinct ho hq rfl)

/-- Keys and hellos are added, and the keys added are fresh. -/
structure Extends (s t : Network Secret Signing Signature) : Prop where
  seen : s.seen ⊆ t.seen
  owners : s.owners ⊆ t.owners
  fresh : ∀ p ∈ t.owners, p.1 ∈ s.seen → p ∈ s.owners
  initiators : ∀ (i : ℕ) (initiator : PairingInitiator Secret Signing),
    s.initiators[i]? = some initiator → ∃ next : PairingInitiator Secret Signing,
      t.initiators[i]? = some next ∧ initiator.hellos ⊆ next.hellos
  devices : ∀ (d : ℕ) (n : Responder Secret Signing Signature), t.devices[d]? = some n →
    ∃ m : Responder Secret Signing Signature, s.devices[d]? = some m ∧ n.identity = m.identity

namespace Extends

theorem delivered (h : Extends s t) {request : HelloRequest Signature}
    (hd : s.Delivered P request) : t.Delivered P request := by
  refine ⟨h.seen hd.1,fun hverify i howner => ?_⟩
  obtain ⟨initiator,hi,f,hf,hid,haddrs⟩ := hd.2 hverify i (h.fresh _ howner hd.1)
  obtain ⟨next,hnext,hsubset⟩ := h.initiators i initiator hi
  exact ⟨next,hnext,f,hsubset hf,hid,haddrs⟩

theorem answerOk (h : Extends s t) {ephPub : Key} {a : Answer} {n : Negotiated}
    (ha : AnswerOk P s ephPub a n) : AnswerOk P t ephPub a n := by
  refine ⟨ha.sas,h.seen ha.seen,fun d m howner hm => ?_⟩
  obtain ⟨m',hm',hid⟩ := h.devices d m hm
  rw [hid]
  exact ha.identity d m' (h.fresh _ howner ha.seen) hm'

theorem initiatorOk (h : Extends s t) {i : ℕ} {initiator : PairingInitiator Secret Signing}
    (hi : InitiatorOk P s i initiator) : InitiatorOk P t i initiator := by
  refine ⟨h.owners hi.owned,hi.hellos,fun a ha => ?_⟩
  obtain ⟨n,hn,hok⟩ := hi.answer a ha
  exact ⟨n,hn,h.answerOk hok⟩

theorem traced (h : Extends s t) {d : ℕ} {identity : Signing} {m : Responder Secret Signing Signature}
    (hm : Traced P identity (s.Delivered P) (fun key => (key, .code d) ∈ s.owners) m) :
    Traced P identity (t.Delivered P) (fun key => (key, .code d) ∈ t.owners) m :=
  hm.mono (fun _ => h.delivered) (fun _ hkey => h.owners hkey)

end Extends

/-- An unforged hello of a device with the key of an initiator was built by this initiator. -/
theorem Inv.delivered (h : Inv P s) {request : HelloRequest Signature} (hshort : request.fields.Short)
    (hforged : ¬s.Forged P request.fields.initIdPub (transcriptInit request.fields)
      request.initiatorSig)
    (hhonest : P.verify request.fields.initIdPub (transcriptInit request.fields)
      request.initiatorSig → s.InitiatorKey request.fields.initEphPub →
        s.Honest P request.fields.initIdPub)
    (hverify : P.verify request.fields.initIdPub (transcriptInit request.fields)
      request.initiatorSig) {i : ℕ} (howner : (request.fields.initEphPub, .initiator i) ∈ s.owners) :
    ∃ initiator, s.initiators[i]? = some initiator ∧ ∃ f ∈ initiator.hellos,
      f.initIdPub = request.fields.initIdPub ∧ f.initiatorAddrs = request.fields.initiatorAddrs := by
  have hkey : s.InitiatorKey request.fields.initEphPub := ⟨_,howner,rfl,rfl⟩
  have hsigned : s.Signed P request.fields.initIdPub (transcriptInit request.fields) := by
    by_contra hnot
    exact hforged ⟨hverify,hhonest hverify hkey,hnot⟩
  rcases hsigned with ⟨initiator,hmem,-,f,hf,htranscript⟩ | ⟨m,-,-,o,-,htranscript⟩
  · obtain ⟨j,hj⟩ := mem_iff_getElem?.mp hmem
    have hok := h.initiators j initiator hj
    obtain ⟨heph,-,hfshort⟩ := hok.hellos f hf
    obtain ⟨-,hephs,hids,-,-,-,haddrs⟩ := transcriptInit_inj hfshort hshort htranscript
    have hj' : (request.fields.initEphPub, Owner.initiator j) ∈ s.owners := by
      rw [← hephs, heph]
      exact hok.owned
    cases h.owner_eq howner hj'
    exact ⟨initiator,hj,f,hf,hids,haddrs⟩
  · exact absurd htranscript.symm (transcriptInit_ne_resp _ _ _)

/-- An unforged response of a device with the key of a code comes from the device of the code. -/
theorem Inv.answered (h : Inv P s) {key identityPub ephPub : Key} {signature : Signature}
    (hforged : ¬s.Forged P identityPub (transcriptResp key ephPub) signature)
    (hhonest : P.verify identityPub (transcriptResp key ephPub) signature → s.CodeKey key →
      s.Honest P identityPub)
    (hverify : P.verify identityPub (transcriptResp key ephPub) signature) {d : ℕ}
    (howner : (key, .code d) ∈ s.owners) {m : Responder Secret Signing Signature}
    (hm : s.devices[d]? = some m) : identityPub = P.identityPub m.identity := by
  have hkey : s.CodeKey key := ⟨_,howner,rfl,rfl⟩
  have hsigned : s.Signed P identityPub (transcriptResp key ephPub) := by
    by_contra hnot
    exact hforged ⟨hverify,hhonest hverify hkey,hnot⟩
  rcases hsigned with ⟨_,-,-,f,-,htranscript⟩ | ⟨m',hmem,hid,o,ho,htranscript⟩
  · exact absurd htranscript (transcriptInit_ne_resp _ _ _)
  · obtain ⟨j,hj⟩ := mem_iff_getElem?.mp hmem
    have hgenerated := ((h.devices j m' hj).openings o ho).generated
    rw [(transcriptResp_inj htranscript).1] at hgenerated
    cases h.owner_eq howner hgenerated
    rw [hm] at hj
    cases hj
    exact hid.symm

/-! ## Steps -/

theorem Inv.adds (h : Inv P s) {key : Key} {owner : Owner} (hfresh : key ∉ s.seen)
    (he : Extends s t) (howners : t.owners = (key, owner) :: s.owners) (hseen : t.seen = key :: s.seen)
    (hdevices : t.devices = s.devices)
    (hnew : ∀ i initiator, t.initiators[i]? = some initiator → s.initiators[i]? = some initiator ∨
      InitiatorOk P t i initiator ∧ initiator.answer = none) : Inv P t where
  distinct := by
    rw [howners]
    refine nodup_cons.mpr ⟨fun hmem => ?_,h.distinct⟩
    obtain ⟨p,hp,rfl⟩ := mem_map.mp hmem
    exact hfresh (h.seen p hp)
  seen p hp := by
    rw [hseen]
    rcases mem_cons.mp (howners ▸ hp) with rfl | hp
    · exact mem_cons_self
    · exact mem_cons_of_mem _ (h.seen p hp)
  devices d m hm := he.traced (h.devices d m (hdevices ▸ hm))
  initiators i initiator hi :=
    (hnew i initiator hi).elim (fun hold => he.initiatorOk (h.initiators i initiator hold)) And.left
  apart initiator hmem a ha n hn m hm o ho heq := by
    obtain ⟨i,hi⟩ := mem_iff_getElem?.mp hmem
    rcases hnew i initiator hi with hold | ⟨-,hnone⟩
    · exact h.apart initiator (mem_of_getElem? hold) a ha n hn m (hdevices ▸ hm) o ho heq
    · rw [hnone] at ha
      cases ha

theorem extends_seen (s : Network Secret Signing Signature) (key : Key) :
    Extends s { s with seen := key :: s.seen } :=
  ⟨subset_cons_self _ _,.refl _,fun _ hp _ => hp,
    fun _ initiator hi => ⟨initiator,hi,.refl _⟩,fun _ n hn => ⟨n,hn,rfl⟩⟩

theorem Inv.sees (h : Inv P s) (key : Key) : Inv P { s with seen := key :: s.seen } where
  distinct := h.distinct
  seen p hp := mem_cons_of_mem _ (h.seen p hp)
  devices d m hm := (extends_seen s key).traced (h.devices d m hm)
  initiators i initiator hi := (extends_seen s key).initiatorOk (h.initiators i initiator hi)
  apart := h.apart

variable {f : PairingInitiator Secret Signing → PairingInitiator Secret Signing}

theorem getElem?_modifyInitiator {i j : ℕ} {next : PairingInitiator Secret Signing}
    (h : (s.modifyInitiator i f).initiators[j]? = some next) :
    ∃ initiator, s.initiators[j]? = some initiator ∧ next = if i = j then f initiator else initiator := by
  rw [modifyInitiator, getElem?_modify] at h
  obtain ⟨initiator,hi,rfl⟩ := map_eq_some_iff.mp h
  exact ⟨initiator,hi,rfl⟩

theorem extends_modify (s : Network Secret Signing Signature) {i : ℕ}
    (hf : ∀ initiator, s.initiators[i]? = some initiator → initiator.hellos ⊆ (f initiator).hellos)
    : Extends s (s.modifyInitiator i f) := by
  refine ⟨.refl _,.refl _,fun _ hp _ => hp,fun j initiator hj => ?_,
    fun _ n hn => ⟨n,hn,rfl⟩⟩
  refine ⟨if i = j then f initiator else initiator,?_,?_⟩
  · rw [modifyInitiator, getElem?_modify, hj]
    rfl
  · split_ifs with hij
    · exact hf initiator (hij ▸ hj)
    · exact .refl _

theorem Inv.modifies (h : Inv P s) {i : ℕ}
    (hhellos : ∀ initiator, s.initiators[i]? = some initiator → initiator.hellos ⊆ (f initiator).hellos)
    (hok : ∀ initiator, s.initiators[i]? = some initiator → InitiatorOk P (s.modifyInitiator i f) i (f initiator))
    (hapart : ∀ initiator, s.initiators[i]? = some initiator →
      ∀ a ∈ (f initiator).answer, ∀ n ∈ (f initiator).negotiated, ∀ m ∈ s.devices,
      ∀ o ∈ m.openings, a.sas = o.response.sas →
      SameInputs n.z (f initiator).ephPub a.responderEphPub o.z o.request.fields.initEphPub
      o.response.responderEphPub)
    : Inv P (s.modifyInitiator i f) where
  distinct := h.distinct
  seen := h.seen
  devices d m hm := (extends_modify s hhellos).traced (h.devices d m hm)
  initiators j next hj := by
    obtain ⟨initiator,hi,rfl⟩ := getElem?_modifyInitiator hj
    split_ifs with hij
    · subst hij
      exact hok initiator hi
    · exact (extends_modify s hhellos).initiatorOk (h.initiators j initiator hi)
  apart next hmem a ha n hn m hm o ho heq := by
    obtain ⟨j,hj⟩ := mem_iff_getElem?.mp hmem
    obtain ⟨initiator,hi,rfl⟩ := getElem?_modifyInitiator hj
    split_ifs at ha hn ⊢ with hij
    · subst hij
      exact hapart initiator hi a ha n hn m hm o ho heq
    · exact h.apart initiator (mem_of_getElem? hi) a ha n hn m hm o ho heq

end Network

open Network

/-- The session that the hello opens shows no string that an initiator has derived from other
inputs. -/
def OpensApart (P : Primitives Secret Signing Signature) (s : Network Secret Signing Signature) :
    HelloCall Secret Signature → Prop
  | .opened request secret _ =>
    ∀ initiator ∈ s.initiators, ∀ a ∈ initiator.answer, ∀ n ∈ initiator.negotiated,
      let z := P.diffieHellman secret request.fields.initEphPub
      a.sas = P.deriveSas z request.fields.initEphPub (P.ephPub secret) →
        SameInputs n.z initiator.ephPub a.responderEphPub z request.fields.initEphPub
          (P.ephPub secret)
  | _ => True

instance (s : Network Secret Signing Signature) (call : HelloCall Secret Signature) :
    Decidable (OpensApart P s call) := by
  cases call <;> unfold OpensApart <;> infer_instance

/-- No ephemeral key of an initiator or of a code comes under an identity that is not of a device, no
two inputs of the two sides give one string, and the fields are shorter than 4 GiB. -/
def Undisturbed (P : Primitives Secret Signing Signature) (s : Network Secret Signing Signature) :
    Label Secret Signature → Prop
  | .newInitiator _ _ => True
  | .buildHello i code selfInfo initiatorAddrs =>
    ∀ initiator ∈ s.initiators[i]?, (initiator.fields P code selfInfo initiatorAddrs).Short
  | .onHelloResponse i response _ =>
    ∀ initiator ∈ s.initiators[i]?,
      (P.verify response.responderIdPub
        (transcriptResp response.responderEphPub initiator.ephPub) response.responderSig →
          s.CodeKey response.responderEphPub → s.Honest P response.responderIdPub) ∧
      ∀ m ∈ s.devices, ∀ o ∈ m.openings,
        let z := P.diffieHellman initiator.ephSecret response.responderEphPub
        P.deriveSas z initiator.ephPub response.responderEphPub = o.response.sas →
          SameInputs z initiator.ephPub response.responderEphPub o.z o.request.fields.initEphPub
            o.response.responderEphPub
  | .responder _ (.hello request _) =>
    request.fields.Short ∧
      (P.verify request.fields.initIdPub (transcriptInit request.fields) request.initiatorSig →
        s.InitiatorKey request.fields.initEphPub → s.Honest P request.fields.initIdPub)
  | .responder d (.openSession k _) =>
    ∀ m ∈ s.devices[d]?, ∀ call ∈ m.hellos[k]?, OpensApart P s call
  | .responder _ _ => True

instance (s : Network Secret Signing Signature) (a : Label Secret Signature) :
    Decidable (Undisturbed P s a) := by
  unfold Undisturbed
  split <;> infer_instance

theorem PairingInitiator.onHelloResponse_ok {i next : PairingInitiator Secret Signing}
    {response : HelloResponse Signature} {responderAddr sas : String}
    (h : i.onHelloResponse P response responderAddr = .ok (sas, next)) :
    P.verify response.responderIdPub (transcriptResp response.responderEphPub i.ephPub)
        response.responderSig = true ∧
      next = { i with
        negotiated := some ⟨P.diffieHellman i.ephSecret response.responderEphPub,
          response.responderIdPub,response.name,response.platform,responderAddr⟩
        answer := some ⟨response.responderEphPub,
          P.deriveSas (P.diffieHellman i.ephSecret response.responderEphPub) i.ephPub
            response.responderEphPub⟩ } := by
  simp only [PairingInitiator.onHelloResponse] at h
  split_ifs at h with _ hverify
  cases h
  exact ⟨by simpa using hverify,rfl⟩

namespace Network

theorem Inv.newInitiator (h : Inv P s) {identity : Signing} {secret : Secret}
    (hfresh : P.ephPub secret ∉ s.seen) :
    Inv P { s with
      initiators := s.initiators ++ [.new P identity secret]
      owners := (P.ephPub secret, .initiator s.initiators.length) :: s.owners
      seen := P.ephPub secret :: s.seen } := by
  refine h.adds hfresh ⟨subset_cons_self _ _,subset_cons_self _ _,fun p hp hs => ?_,
    fun i initiator hi => ?_,fun _ n hn => ⟨n,hn,rfl⟩⟩ rfl rfl rfl (fun i initiator hi => ?_)
  · rcases mem_cons.mp hp with rfl | hp
    · exact absurd hs hfresh
    · exact hp
  · obtain ⟨hlt,-⟩ := List.getElem?_eq_some_iff.mp hi
    exact ⟨initiator,(getElem?_append_left hlt).trans hi,.refl _⟩
  · by_cases hlt : i < s.initiators.length
    · exact .inl ((getElem?_append_left hlt).symm.trans hi)
    · have hi := (getElem?_append_right (Nat.le_of_not_lt hlt)).symm.trans hi
      obtain ⟨hlast,hnew⟩ := List.getElem?_eq_some_iff.mp hi
      have heq : i = s.initiators.length := by
        simp only [length_singleton] at hlast
        omega
      subst heq
      simp only [getElem_singleton] at hnew
      subst hnew
      exact .inr ⟨⟨mem_cons_self,fun f hf => absurd hf not_mem_nil,
        fun a ha => by cases ha⟩,rfl⟩

theorem Inv.buildHello (h : Inv P s) {i : ℕ} {code : String} {selfInfo : SelfInfo}
    {initiatorAddrs : List String}
    (hshort : ∀ initiator ∈ s.initiators[i]?,
      (initiator.fields P code selfInfo initiatorAddrs).Short) :
    Inv P (s.modifyInitiator i (fun initiator => { initiator with
      hellos := initiator.fields P code selfInfo initiatorAddrs :: initiator.hellos })) := by
  refine h.modifies (fun _ _ => subset_cons_self _ _) (fun initiator hi => ?_)
    (fun initiator hi => h.apart initiator (mem_of_getElem? hi))
  have hold := h.initiators i initiator hi
  refine ⟨hold.owned,fun f hf => ?_,fun a ha => ?_⟩
  · rcases mem_cons.mp hf with rfl | hf
    · exact ⟨rfl,rfl,hshort initiator hi⟩
    · exact hold.hellos f hf
  · obtain ⟨n,hn,hok⟩ := hold.answer a ha
    exact ⟨n,hn,hok.sas,hok.seen,hok.identity⟩

theorem Inv.onHelloResponse (h : Inv P s) {i : ℕ} {response : HelloResponse Signature}
    {responderAddr sas : String} {initiator next : PairingInitiator Secret Signing}
    (hi : s.initiators[i]? = some initiator)
    (hforged : ¬s.Forged P response.responderIdPub
      (transcriptResp response.responderEphPub initiator.ephPub) response.responderSig)
    (hcond : Undisturbed P s (.onHelloResponse i response responderAddr))
    (hok : initiator.onHelloResponse P response responderAddr = .ok (sas, next)) :
    Inv P (({ s with seen := response.responderEphPub :: s.seen } :
      Network Secret Signing Signature).modifyInitiator i (fun _ => next)) := by
  obtain ⟨hverify,rfl⟩ := PairingInitiator.onHelloResponse_ok hok
  obtain ⟨hhonest,hapart⟩ := hcond initiator hi
  have hsees := h.sees response.responderEphPub
  refine hsees.modifies (fun old hold => ?_) (fun old hold => ?_) (fun old hold => ?_)
  · cases hi.symm.trans hold
    exact .refl _
  · cases hi.symm.trans hold
    have hbefore := hsees.initiators i initiator hi
    refine ⟨hbefore.owned,hbefore.hellos,fun a ha => ?_⟩
    cases ha
    exact ⟨_,rfl,rfl,mem_cons_self,
      fun d m howner hm => h.answered hforged hhonest hverify howner hm⟩
  · rintro a ⟨⟩ n ⟨⟩ m hm o ho heq
    exact hapart m hm o ho heq

variable {d : ℕ} {m n : Responder Secret Signing Signature}

theorem extends_set (s : Network Secret Signing Signature) (hm : s.devices[d]? = some m)
    (hid : n.identity = m.identity) : Extends s { s with devices := s.devices.set d n } := by
  refine ⟨.refl _,.refl _,fun _ hp _ => hp,
    fun _ initiator hi => ⟨initiator,hi,.refl _⟩,fun j p hp => ?_⟩
  have hp : (s.devices.set d n)[j]? = some p := hp
  rw [getElem?_set] at hp
  split_ifs at hp with hdj hlt
  · cases hp
    exact ⟨m,hdj ▸ hm,hid⟩
  · exact ⟨p,hp,rfl⟩

theorem Inv.sets (h : Inv P s) (hm : s.devices[d]? = some m)
    (hn : Traced P m.identity (s.Delivered P) (fun key => (key, .code d) ∈ s.owners) n)
    (hapart : ∀ o ∈ n.openings, o ∈ m.openings ∨ ∀ initiator ∈ s.initiators,
      ∀ a ∈ initiator.answer, ∀ g ∈ initiator.negotiated, a.sas = o.response.sas →
      SameInputs g.z initiator.ephPub a.responderEphPub o.z o.request.fields.initEphPub
      o.response.responderEphPub)
    : Inv P { s with devices := s.devices.set d n } := by
  have he := extends_set s hm hn.self
  have hdevices : ∀ {j : ℕ} {p : Responder Secret Signing Signature},
      (s.devices.set d n)[j]? = some p → d = j ∧ p = n ∨ s.devices[j]? = some p := by
    intro j p hp
    rw [getElem?_set] at hp
    split_ifs at hp with hdj
    · cases hp
      exact .inl ⟨hdj,rfl⟩
    · exact .inr hp
  refine ⟨h.distinct,h.seen,fun j p hp => ?_,
    fun i initiator hi => he.initiatorOk (h.initiators i initiator hi),
    fun initiator hmem a ha g hg p hp o ho heq => ?_⟩
  · rcases hdevices hp with ⟨rfl,rfl⟩ | hp
    · rw [hn.self]
      exact he.traced hn
    · exact he.traced (h.devices j p hp)
  · obtain ⟨j,hj⟩ := mem_iff_getElem?.mp hp
    rcases hdevices hj with ⟨rfl,rfl⟩ | hj
    · rcases hapart o ho with hold | hnew
      · exact h.apart initiator hmem a ha g hg m (mem_of_getElem? hm) o hold heq
      · exact hnew initiator hmem a ha g hg heq
    · exact h.apart initiator hmem a ha g hg p (mem_of_getElem? hj) o ho heq

theorem Inv.responderStep (h : Inv P s) {a : PairingResponder.Label Secret Signature}
    (hstep : PairingNetwork.responderStep P s d a = some t) :
    Inv P t ∧ t.devices = s.devices ∧ t.initiators = s.initiators ∧ Extends s t ∧
      (∀ code secret, a = .generateCode code secret → (P.ephPub secret, .code d) ∈ t.owners) := by
  have hsame : ∀ {b : PairingResponder.Label Secret Signature}, (∀ code secret, b ≠ .generateCode code secret) →
      Inv P s ∧ s.devices = s.devices ∧ s.initiators = s.initiators ∧ Extends s s ∧
        (∀ code secret, b = .generateCode code secret → (P.ephPub secret, .code d) ∈ s.owners) :=
    fun hb => ⟨h,rfl,rfl,⟨.refl _,.refl _,fun _ hp _ => hp,
      fun _ initiator hi => ⟨initiator,hi,.refl _⟩,fun _ n hn => ⟨n,hn,rfl⟩⟩,
      fun code secret heq => absurd heq (hb code secret)⟩
  cases a with
  | generateCode code secret =>
    simp only [PairingNetwork.responderStep] at hstep
    split_ifs at hstep with hfresh
    cases hstep
    have he : Extends s { s with
        owners := (P.ephPub secret, .code d) :: s.owners
        seen := P.ephPub secret :: s.seen } := by
      refine ⟨subset_cons_self _ _,subset_cons_self _ _,fun p hp hs => ?_,
        fun _ initiator hi => ⟨initiator,hi,.refl _⟩,fun _ n hn => ⟨n,hn,rfl⟩⟩
      rcases mem_cons.mp hp with rfl | hp
      · exact absurd hs hfresh
      · exact hp
    refine ⟨h.adds hfresh he rfl rfl rfl (fun i initiator hi => .inl hi),rfl,rfl,he,
      fun code' secret' heq => ?_⟩
    cases heq
    exact mem_cons_self
  | hello request source =>
    simp only [PairingNetwork.responderStep] at hstep
    split_ifs at hstep
    cases hstep
    exact ⟨h.sees _,rfl,rfl,extends_seen s _,fun _ _ heq => by cases heq⟩
  | _ =>
    cases hstep
    exact hsame (fun _ _ heq => by cases heq)

theorem Inv.hello_delivered (h : Inv P s) {request : HelloRequest Signature}
    {source : Option String} (hcond : Undisturbed P s (.responder d (.hello request source)))
    (hstep : PairingNetwork.responderStep P s d (.hello request source) = some t) :
    t.Delivered P request := by
  simp only [PairingNetwork.responderStep] at hstep
  split_ifs at hstep with hforged
  cases hstep
  exact ⟨mem_cons_self,
    fun hverify i howner => h.delivered hcond.1 hforged hcond.2 hverify howner⟩

theorem Inv.responder (h : Inv P s) {a : PairingResponder.Label Secret Signature}
    (hcond : Undisturbed P s (.responder d a)) (hm : s.devices[d]? = some m)
    (hn : PairingResponder.step P m a = some n) (ht : PairingNetwork.responderStep P s d a = some t) :
    Inv P { t with devices := t.devices.set d n } := by
  obtain ⟨hinv,hdevices,hinitiators,he,hgenerated⟩ := h.responderStep ht
  have hm' : t.devices[d]? = some m := hdevices ▸ hm
  refine hinv.sets hm' ((hinv.devices d m hm').step hn hgenerated (fun request source heq => ?_))
    (fun o ho => ?_)
  · subst heq
    exact h.hello_delivered hcond ht
  · rcases step_openings hn ho with hold | ⟨k,sessionId,request,secret,serial,rfl,hcall,hreq,hz,
      hresponse⟩
    · exact .inl hold
    · refine .inr (fun initiator hmem b hb g hg heq => ?_)
      have hapart := hcond m hm _ hcall initiator (hinitiators ▸ hmem) b hb g hg
      rw [hz, hreq, hresponse]
      exact hapart (heq.trans (congrArg HelloResponse.sas hresponse))

theorem Inv.step (h : Inv P s) {a : Label Secret Signature} (hcond : Undisturbed P s a)
    (hstep : PairingNetwork.step P s a = some t) : Inv P t := by
  cases a with
  | newInitiator d secret =>
    simp only [PairingNetwork.step] at hstep
    split at hstep
    · cases hstep
    · split_ifs at hstep with hfresh
      cases hstep
      exact h.newInitiator hfresh
  | buildHello i code selfInfo initiatorAddrs =>
    simp only [PairingNetwork.step] at hstep
    split_ifs at hstep
    cases hstep
    exact h.buildHello hcond
  | onHelloResponse i response responderAddr =>
    simp only [PairingNetwork.step] at hstep
    split at hstep
    · cases hstep
    · next hi =>
      split_ifs at hstep with hforged
      split at hstep
      · cases hstep
        exact h.sees _
      · next hok =>
        cases hstep
        exact h.onHelloResponse hi hforged hcond hok
  | responder d label =>
    simp only [PairingNetwork.step] at hstep
    split at hstep
    · cases hstep
    · next m hm =>
      split at hstep
      · next n t' hn ht =>
        cases hstep
        exact h.responder hcond hm hn ht
      · cases hstep

theorem Initial.inv (h : Initial s) : Inv P s where
  distinct := by simp [h.owners]
  seen := by simp [h.owners]
  devices d m hm := by
    have hinitial := h.devices m (mem_of_getElem? hm)
    refine ⟨rfl,?_,?_,?_,?_,?_,?_⟩
    · simp [hinitial.codes]
    · simp [hinitial.hellos]
    · simp [hinitial.openings]
    · simp [hinitial.openings]
    · simp [hinitial.sessions]
    · simp [hinitial.records]
  initiators := by simp [h.initiators]
  apart := by simp [Apart, h.initiators]

end Network

/-! ## Agreement -/

/-- Equal strings mean records that name the two ends, with the addresses that the initiator has sent
and one link key. -/
def Agrees (P : Primitives Secret Signing Signature) (s : Network Secret Signing Signature) : Prop :=
  ∀ initiator ∈ s.initiators, ∀ a ∈ initiator.answer, ∀ m ∈ s.devices, ∀ o ∈ m.openings,
    a.sas = o.response.sas → ∀ r ∈ m.records, r.1 = o.sessionId → ∀ now,
      ∃ record, initiator.finalize P now = .ok record ∧
        record.identityPub = (P.identityPub m.identity).toList ∧
        r.2.identityPub = (P.identityPub initiator.identity).toList ∧
        (∃ f ∈ initiator.hellos, r.2.candidates = f.initiatorAddrs.map (fun a => ⟨.direct,a⟩)) ∧
        record.linkSecret = r.2.linkSecret

namespace Network

theorem Inv.agrees (h : Inv P s) : Agrees P s := by
  intro initiator hmem a ha m hm o ho hsas r hr hrid now
  obtain ⟨i,hi⟩ := mem_iff_getElem?.mp hmem
  obtain ⟨d,hd⟩ := mem_iff_getElem?.mp hm
  have hok := h.initiators i initiator hi
  obtain ⟨n,hn,hanswer⟩ := hok.answer a ha
  have htraced := h.devices d m hd
  have hopening := htraced.openings o ho
  obtain ⟨q,hq,hreg⟩ := htraced.records r hr
  obtain rfl : q = o := inj_on_of_nodup_map htraced.distinct hq ho (hreg.sessionId.trans hrid)
  obtain ⟨hz,⟨hinit,hresp⟩ | ⟨hcross,-⟩⟩ := h.apart initiator hmem a ha n hn m hm q ho hsas
  · have howner : (q.request.fields.initEphPub, Owner.initiator i) ∈ s.owners := hinit ▸ hok.owned
    obtain ⟨initiator',hi',f,hf,hfid,hfaddrs⟩ :=
      hopening.delivered.2 hopening.verified i howner
    cases hi.symm.trans hi'
    have hcode : (a.responderEphPub, Owner.code d) ∈ s.owners := hresp ▸ hopening.generated
    have hidentity := hanswer.identity d m hcode hd
    refine ⟨_,by rw [PairingInitiator.finalize, hn],congrArg Vector.toList hidentity,?_,
      ⟨f,hf,?_⟩,?_⟩
    · rw [hreg.identity, ← hfid, (hok.hellos f hf).2.1]
    · rw [hreg.candidates, hfaddrs]
    · rw [hreg.linkSecret, hz]
  · -- an ephemeral key of a code is not that of an initiator
    have hcode := hopening.generated
    rw [← hcross] at hcode
    cases h.owner_eq hok.owned hcode

end Network

/-- In every undisturbed run, in every state, equal strings mean agreement. -/
theorem run_agrees {s t : Network Secret Signing Signature} {as : List (Label Secret Signature)}
    (hs : Initial s) (hm : Meets (step P) (Undisturbed P) s as) (hrun : exec (step P) s as = some t) :
    Agrees P t := by
  have hstep : ∀ (s : Network Secret Signing Signature) a t, s.Inv P → Undisturbed P s a →
      step P s a = some t → t.Inv P :=
    fun _ _ _ h ha hstep => Inv.step h ha hstep
  exact Inv.agrees (exec_invariant_of_meets hstep (Initial.inv hs) hm hrun)

/-! ## Pairings on fixed inputs -/

def keyOf (byte : UInt8) : Key := Vector.replicate 32 byte

def newDevice (identity : UInt8) : Responder Key Key (Key × Bytes) where
  identity := keyOf identity
  selfInfo := ⟨"device",none,none⟩
  codes := []
  sessions := []
  failures := []
  clock := 0
  hellos := []
  confirms := []
  notifies := 0
  generated := 0
  consumptions := []
  openings := []
  decisions := []
  records := []
  errors := []

/-- A phone with the identity 1 and a server with the identity 2. -/
def newNetwork : Network Key Key (Key × Bytes) := ⟨[newDevice 1, newDevice 2],[],[],[]⟩

theorem newNetwork_initial : Initial newNetwork where
  devices m hm := by
    simp only [newNetwork, mem_cons, not_mem_nil, or_false] at hm
    rcases hm with rfl | rfl <;> exact ⟨rfl,rfl,rfl,rfl,rfl,rfl,rfl,rfl,rfl⟩
  initiators := rfl
  owners := rfl
  seen := rfl

def helloOf (identity : UInt8) (addr : String) : HelloRequest (Key × Bytes) :=
  let f : InitFields := ⟨"123456",keyOf 4,keyOf identity,"phone",none,none,[addr]⟩
  ⟨f,(keyOf identity, transcriptInit f)⟩

def responseOf (identity : UInt8) : HelloResponse (Key × Bytes) :=
  ⟨"s",keyOf 5,keyOf identity,(keyOf identity, transcriptResp (keyOf 5) (keyOf 4)),"server",none,
    none,""⟩

/-- The phone pairs with the server; the network delivers a hello and a response under the identities
given. -/
def pairing (hello response : UInt8) (addr : String) : List (Label Key (Key × Bytes)) :=
  [.newInitiator 0 (keyOf 4), .responder 1 (.generateCode "123456" (keyOf 5)),
    .buildHello 0 "123456" ⟨"phone",none,none⟩ ["10.0.0.2:80"],
    .responder 1 (.hello (helloOf hello addr) none), .responder 1 (.checkThrottle 0),
    .responder 1 (.takeCode 0), .responder 1 (.openSession 0 "s"),
    .onHelloResponse 0 (responseOf response) "10.0.0.9:80", .responder 1 (.setLocalDecision "s" true),
    .responder 1 (.confirm "s"), .responder 1 (.stepConfirm 0), .responder 1 (.stepConfirm 0),
    .responder 1 (.stepConfirm 0), .responder 1 (.stepConfirm 0), .responder 1 (.stepConfirm 0)]

theorem run_agrees_pairing :
    ∃ t, exec (step toy) newNetwork (pairing 1 2 "10.0.0.2:80") = some t ∧ Agrees toy t := by
  have hm : Meets (step toy) (Undisturbed toy) newNetwork (pairing 1 2 "10.0.0.2:80") := by
    decide +kernel
  have hrun : (exec (step toy) newNetwork (pairing 1 2 "10.0.0.2:80")).isSome := by decide +kernel
  obtain ⟨t,ht⟩ := isSome_iff_exists.mp hrun
  exact ⟨t,ht,run_agrees newNetwork_initial hm ht⟩

/-- The strings are equal, but the responder has registered another identity with addresses that the
initiator has not sent, and the initiator finalizes another identity. -/
def Misled (P : Primitives Secret Signing Signature) (s : Network Secret Signing Signature) : Prop :=
  ∃ initiator ∈ s.initiators, ∃ m ∈ s.devices, ∃ o ∈ m.openings,
    initiator.answer.map Answer.sas = some o.response.sas ∧ ∃ r ∈ m.records, r.1 = o.sessionId ∧
      r.2.identityPub ≠ (P.identityPub initiator.identity).toList ∧
      (∀ f ∈ initiator.hellos, r.2.candidates ≠ f.initiatorAddrs.map (fun a => ⟨.direct,a⟩)) ∧
      (initiator.finalize P 0).toOption.any
        (fun record => record.identityPub ≠ (P.identityPub m.identity).toList)

instance (s : Network Secret Signing Signature) : Decidable (Misled P s) := by
  unfold Misled
  infer_instance

theorem not_agrees_of_misled (h : Misled P s) : ¬Agrees P s := by
  obtain ⟨initiator,hi,m,hm,o,ho,hanswer,r,hr,hid,hother,-⟩ := h
  obtain ⟨a,ha,hsas⟩ := map_eq_some_iff.mp hanswer
  intro hagrees
  obtain ⟨_,-,-,hidentity,-⟩ := hagrees initiator hi a ha m hm o ho hsas r hr hid 0
  exact hother hidentity

/-- The attacker keeps the ephemeral keys and signs both messages with an identity of its own, with an
address of its own in the hello. -/
theorem resigned_pairing_agrees_on_string :
    ∃ t, exec (step toy) newNetwork (pairing 9 9 "6.6.6.6:80") = some t ∧ Misled toy t ∧
      ¬Agrees toy t := by
  have hrun : (exec (step toy) newNetwork (pairing 9 9 "6.6.6.6:80")).any
      (fun t => decide (Misled toy t)) = true := by decide +kernel
  obtain ⟨t,ht,hmisled⟩ := (any_eq_true _ _).mp hrun
  exact ⟨t,ht,of_decide_eq_true hmisled,not_agrees_of_misled (of_decide_eq_true hmisled)⟩

end RinaDown.PairingNetwork
