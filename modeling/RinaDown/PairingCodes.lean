import Mathlib.Data.List.Perm.Basic
import RinaDown.PairingResponder

/-!
# Each code of a pairing opens at most one session

A code is in the table, with a hello that has named it, or behind the session
that this hello has opened. Codes are counted by their serial numbers.
-/

namespace RinaDown.PairingResponder
open LinkCrypto List

universe u

variable {Secret Signing Signature : Type u} {P : Primitives Secret Signing Signature}
  {m n : Responder Secret Signing Signature}

/-! ## Codes -/

/-- The code that a hello under way has taken. -/
def HelloCall.serial? : HelloCall Secret Signature → Option ℕ
  | .opened _ _ serial => some serial
  | _ => none

/-- How often a code is in the table, with a hello or behind a session. -/
def Responder.uses (m : Responder Secret Signing Signature) (serial : ℕ) : ℕ :=
  (m.codes.map CodeEntry.serial).count serial +
    (m.hellos.filterMap HelloCall.serial?).count serial +
    (m.openings.map Opening.serial).count serial

/-- The hello has used the latest code within its life. -/
def Responder.Consumed (m : Responder Secret Signing Signature) (serial : ℕ) (code : String) : Prop :=
  ∃ c ∈ m.consumptions, c.serial = serial ∧ c.code = code ∧ c.serial + 1 = c.generated ∧
    c.age < codeTtl

structure CodeBook (P : Primitives Secret Signing Signature)
    (m : Responder Secret Signing Signature) : Prop where
  latest : ∀ c ∈ m.codes, c.serial + 1 = m.generated
  once : ∀ serial, m.uses serial ≤ 1
  generated : ∀ serial, 0 < m.uses serial → serial < m.generated
  hellos : ∀ request secret serial, .opened request secret serial ∈ m.hellos →
    m.Consumed serial request.fields.code
  openings : ∀ o ∈ m.openings,
    P.verify o.request.fields.initIdPub (transcriptInit o.request.fields) o.request.initiatorSig ∧
      m.Consumed o.serial o.request.fields.code

namespace CodeBook

theorem of_uses (h : CodeBook P m) (hcodes : n.codes.Sublist m.codes)
    (hgen : n.generated = m.generated) (huses : ∀ serial, n.uses serial ≤ m.uses serial)
    (hhellos : ∀ request secret serial, .opened request secret serial ∈ n.hellos →
      n.Consumed serial request.fields.code)
    (hopenings : ∀ o ∈ n.openings,
      P.verify o.request.fields.initIdPub (transcriptInit o.request.fields) o.request.initiatorSig ∧
        n.Consumed o.serial o.request.fields.code) : CodeBook P n := by
  refine ⟨fun c hc => ?_,fun serial => Nat.le_trans (huses serial) (h.once serial),
    fun serial hpos => ?_,hhellos,hopenings⟩
  · rw [hgen]
    exact h.latest c (hcodes.subset hc)
  · rw [hgen]
    exact h.generated serial (Nat.lt_of_lt_of_le hpos (huses serial))

theorem of_le (h : CodeBook P m) {kept extra : List (HelloCall Secret Signature)}
    (hcodes : n.codes.Sublist m.codes) (hgen : n.generated = m.generated)
    (hcon : n.consumptions = m.consumptions) (hhellos : n.hellos = kept ++ extra)
    (hkept : kept.Sublist m.hellos) (hextra : ∀ call ∈ extra, call.serial? = none)
    (hopen : n.openings = m.openings) : CodeBook P n := by
  have hserials : n.hellos.filterMap HelloCall.serial? = kept.filterMap HelloCall.serial? := by
    rw [hhellos, filterMap_append, filterMap_eq_nil_iff.mpr hextra, append_nil]
  have hconsumed : ∀ serial code, n.Consumed serial code = m.Consumed serial code :=
    fun serial code => by rw [Responder.Consumed, Responder.Consumed, hcon]
  refine h.of_uses hcodes hgen (fun serial => ?_) (fun request secret serial hcall => ?_)
    (fun o ho => ?_)
  · have hfirst := (hcodes.map CodeEntry.serial).count_le serial
    have hsecond := (hkept.filterMap HelloCall.serial?).count_le serial
    rw [Responder.uses, Responder.uses, hopen, hserials]
    omega
  · rw [hconsumed]
    rcases mem_append.mp (hhellos ▸ hcall) with hmem | hmem
    · exact h.hellos request secret serial (hkept.subset hmem)
    · cases hextra _ hmem
  · rw [hconsumed]
    exact h.openings o (hopen ▸ ho)

theorem drops (h : CodeBook P m) (hcodes : n.codes.Sublist m.codes)
    (hgen : n.generated = m.generated) (hcon : n.consumptions = m.consumptions)
    (hhellos : n.hellos.Sublist m.hellos) (hopen : n.openings = m.openings) : CodeBook P n :=
  h.of_le hcodes hgen hcon (append_nil _).symm hhellos
    (fun _ hcall => absurd hcall not_mem_nil) hopen

theorem congr (h : CodeBook P m) (hcodes : n.codes = m.codes) (hgen : n.generated = m.generated)
    (hcon : n.consumptions = m.consumptions) (hhellos : n.hellos = m.hellos)
    (hopen : n.openings = m.openings) : CodeBook P n :=
  h.drops (hcodes ▸ .refl _) hgen hcon (hhellos ▸ .refl _) hopen

theorem generateCode (h : CodeBook P m) (code : String) (secret : Secret) :
    CodeBook P (m.generateCode code secret) := by
  have hold : ∀ serial, (m.hellos.filterMap HelloCall.serial?).count serial +
      (m.openings.map Opening.serial).count serial ≤ m.uses serial := fun serial => by
    rw [Responder.uses]
    omega
  have huses : ∀ serial, (m.generateCode code secret).uses serial =
      (if m.generated = serial then 1 else 0) +
        ((m.hellos.filterMap HelloCall.serial?).count serial +
          (m.openings.map Opening.serial).count serial) := fun serial => by
    simp [Responder.uses, Responder.generateCode, count_singleton, Nat.add_assoc]
  have hfresh : m.uses m.generated = 0 := by
    by_contra hne
    exact absurd (h.generated m.generated (Nat.pos_of_ne_zero hne)) (Nat.lt_irrefl _)
  refine ⟨fun c hc => ?_,fun serial => ?_,fun serial hpos => ?_,h.hellos,h.openings⟩
  · cases mem_singleton.mp hc
    rfl
  · have honce := h.once serial
    have hle := hold serial
    rw [huses]
    split_ifs with heq
    · subst heq
      omega
    · omega
  · rw [huses] at hpos
    have hle := hold serial
    show serial < m.generated + 1
    split_ifs at hpos with heq
    · omega
    · have := h.generated serial (by omega)
      omega

theorem count_eraseIdx {hellos : List (HelloCall Secret Signature)} {i : ℕ}
    {call : HelloCall Secret Signature} (hcall : hellos[i]? = some call) (serial : ℕ) :
    (hellos.filterMap HelloCall.serial?).count serial =
      ((hellos.eraseIdx i).filterMap HelloCall.serial?).count serial +
        (if call.serial? = some serial then 1 else 0) := by
  obtain ⟨hi,rfl⟩ := List.getElem?_eq_some_iff.mp hcall
  have hperm := ((getElem_cons_eraseIdx_perm hi).filterMap HelloCall.serial?).count_eq serial
  rw [← hperm, filterMap_cons]
  cases hs : (hellos[i]).serial? with
  | none => simp
  | some k => simp [count_cons]

theorem takes (h : CodeBook P m) {before after : List (CodeEntry Secret)} {c : CodeEntry Secret}
    {kept : List (HelloCall Secret Signature)} {request : HelloRequest Signature}
    (hcodes : (before ++ c :: after).Sublist m.codes) (hcode : c.code = request.fields.code)
    (hyoung : m.clock - c.created < codeTtl) (hkept : kept.Sublist m.hellos)
    (hn : n.codes = before ++ after) (hgen : n.generated = m.generated)
    (hcon : n.consumptions = ⟨c.serial,c.code,m.generated,m.clock - c.created⟩ :: m.consumptions)
    (hhellos : n.hellos = kept ++ [.opened request c.ephSecret c.serial])
    (hopen : n.openings = m.openings) : CodeBook P n := by
  have hconsumed : ∀ {serial code}, m.Consumed serial code → n.Consumed serial code := by
    rintro serial code ⟨u,hu,hrest⟩
    exact ⟨u,hcon ▸ mem_cons_of_mem _ hu,hrest⟩
  have hfewer : (before ++ after).Sublist (before ++ c :: after) :=
    (List.Sublist.refl before).append (sublist_cons_self c after)
  refine h.of_uses (hn ▸ hfewer.trans hcodes) hgen (fun serial => ?_)
    (fun request' secret serial hcall => ?_) (fun o ho => ?_)
  · have hfirst := (hcodes.map CodeEntry.serial).count_le serial
    have hsecond := (hkept.filterMap HelloCall.serial?).count_le serial
    rw [Responder.uses, Responder.uses, hopen, hhellos, hn]
    simp only [map_append, count_append, map_cons, count_cons,
      filterMap_append, filterMap_cons, HelloCall.serial?, filterMap_nil,
      count_nil] at hfirst ⊢
    omega
  · rcases mem_append.mp (hhellos ▸ hcall) with hmem | hmem
    · exact hconsumed (h.hellos request' secret serial (hkept.subset hmem))
    · cases mem_singleton.mp hmem
      have hmem : c ∈ m.codes := hcodes.subset (mem_append_right _ mem_cons_self)
      exact ⟨_,hcon ▸ mem_cons_self,rfl,hcode,h.latest c hmem,hyoung⟩
  · obtain ⟨hverify,hused⟩ := h.openings o (hopen ▸ ho)
    exact ⟨hverify,hconsumed hused⟩

theorem takeCode (h : CodeBook P m) (i : ℕ) (request : HelloRequest Signature)
    (source : Option String) :
    CodeBook P ({ m with hellos := m.hellos.eraseIdx i }.takeCode request source) := by
  have hpruned : m.pruneCodes.codes.Sublist m.codes := filter_sublist
  rw [Responder.takeCode]
  split
  · exact h.of_le hpruned rfl rfl rfl (eraseIdx_sublist _ _) (by simp [HelloCall.serial?]) rfl
  · next c hfind =>
    obtain ⟨hcode,before,after,hsplit,hbefore⟩ := find?_eq_some_iff_append.mp hfind
    have hsplit : m.pruneCodes.codes = before ++ c :: after := hsplit
    have hmem : c ∈ m.pruneCodes.codes := hsplit ▸ mem_append_right _ mem_cons_self
    have herase : m.pruneCodes.codes.eraseP (fun c => c.code = request.fields.code) =
        before ++ after := by
      rw [hsplit, eraseP_append_right _ (by simpa using hbefore),
        eraseP_cons_of_pos (by simpa using hcode)]
    exact h.takes (hsplit ▸ hpruned) (by simpa using hcode) (by simpa using (mem_filter.mp hmem).2)
      (eraseIdx_sublist _ _) herase rfl rfl rfl rfl

theorem openSession (h : CodeBook P m) {i : ℕ} {request : HelloRequest Signature} {secret : Secret}
    {serial : ℕ} (hcall : m.hellos[i]? = some (.opened request secret serial)) (sessionId : String) :
    CodeBook P ({ m with hellos := m.hellos.eraseIdx i }.openSession P request secret serial
      sessionId) := by
  have hsub : (m.hellos.eraseIdx i).Sublist m.hellos := eraseIdx_sublist _ _
  have hdropped : CodeBook P { m with hellos := m.hellos.eraseIdx i } :=
    h.drops (.refl _) rfl rfl hsub rfl
  rw [Responder.openSession]
  split
  · exact hdropped.congr rfl rfl rfl rfl rfl
  split
  · exact hdropped.congr rfl rfl rfl rfl rfl
  · next hverify _ =>
    refine h.of_uses (.refl _) rfl (fun k => ?_) (fun request' secret' k hmem => ?_)
      (fun o ho => ?_)
    · have hcount := count_eraseIdx hcall k
      simp only [HelloCall.serial?, Option.some.injEq] at hcount
      show (m.codes.map CodeEntry.serial).count k +
          ((m.hellos.eraseIdx i).filterMap HelloCall.serial?).count k +
            (serial :: m.openings.map Opening.serial).count k ≤ m.uses k
      rw [Responder.uses, count_cons]
      simp only [beq_iff_eq]
      omega
    · exact h.hellos request' secret' k (hsub.subset hmem)
    · rcases mem_cons.mp ho with rfl | ho
      · exact ⟨by simpa using hverify,h.hellos request secret serial (mem_of_getElem? hcall)⟩
      · exact h.openings o ho

end CodeBook

structure SameCodes (m n : Responder Secret Signing Signature) : Prop where
  codes : n.codes = m.codes
  generated : n.generated = m.generated
  consumptions : n.consumptions = m.consumptions
  hellos : n.hellos = m.hellos
  openings : n.openings = m.openings

theorem sameCodes_setLocalDecision (m : Responder Secret Signing Signature) (sessionId : String)
    (accept : Bool) : SameCodes m (m.setLocalDecision sessionId accept) := by
  rw [Responder.setLocalDecision]
  split <;> exact ⟨rfl,rfl,rfl,rfl,rfl⟩

theorem sameCodes_declineSession (m : Responder Secret Signing Signature) (sessionId : String) :
    SameCodes m (m.declineSession sessionId) := by
  rw [Responder.declineSession]
  split <;> exact ⟨rfl,rfl,rfl,rfl,rfl⟩

theorem sameCodes_stepConfirm {call : ConfirmCall} (h : m.stepConfirm P call = some n) :
    SameCodes m n := by
  cases call with
  | entered sessionId =>
    cases h
    split <;> exact ⟨rfl,rfl,rfl,rfl,rfl⟩
  | deadlineKnown sessionId deadline | looping sessionId deadline
  | undecided sessionId deadline notified | removing sessionId =>
      cases h; exact ⟨rfl,rfl,rfl,rfl,rfl⟩
  | reading sessionId deadline notified =>
    cases h
    split <;> exact ⟨rfl,rfl,rfl,rfl,rfl⟩
  | waiting sessionId deadline notified =>
    simp only [Responder.stepConfirm] at h
    split_ifs at h <;> cases h <;> exact ⟨rfl,rfl,rfl,rfl,rfl⟩
  | decided sessionId decision =>
    cases h
    split
    · exact ⟨rfl,rfl,rfl,rfl,rfl⟩
    · split_ifs <;> exact ⟨rfl,rfl,rfl,rfl,rfl⟩

namespace CodeBook

theorem same (h : CodeBook P m) (hn : SameCodes m n) : CodeBook P n :=
  h.congr hn.codes hn.generated hn.consumptions hn.hellos hn.openings

theorem step (h : CodeBook P m) {a : Label Secret Signature}
    (hstep : PairingResponder.step P m a = some n) : CodeBook P n := by
  cases a with
  | tick d | confirm sessionId | pruneSessions | pruneFailures =>
      cases hstep; exact h.same ⟨rfl,rfl,rfl,rfl,rfl⟩
  | generateCode code secret => cases hstep; exact h.generateCode code secret
  | hello request source =>
    cases hstep
    exact h.of_le (.refl _) rfl rfl rfl (.refl _)
      (by simp [HelloCall.serial?]) rfl
  | checkThrottle i =>
    simp only [PairingResponder.step] at hstep
    split at hstep
    · cases hstep
      have hsub : (m.hellos.eraseIdx i).Sublist m.hellos := eraseIdx_sublist _ _
      rw [Responder.checkThrottle]
      split_ifs
      · exact h.drops (.refl _) rfl rfl hsub rfl
      · exact h.drops (.refl _) rfl rfl hsub rfl
      · exact h.of_le (.refl _) rfl rfl rfl hsub (by simp [HelloCall.serial?]) rfl
    · cases hstep
  | takeCode i =>
    simp only [PairingResponder.step] at hstep
    split at hstep
    · cases hstep
      exact h.takeCode _ _ _
    · cases hstep
  | recordFailedHello i =>
    simp only [PairingResponder.step] at hstep
    split at hstep
    · cases hstep
      have hsub : (m.hellos.eraseIdx i).Sublist m.hellos := eraseIdx_sublist _ _
      rw [Responder.recordFailedHello, Responder.updateBucket]
      split_ifs <;> exact h.drops (.refl _) rfl rfl hsub rfl
    · cases hstep
  | openSession i sessionId =>
    simp only [PairingResponder.step] at hstep
    split at hstep
    · next hcall =>
      split_ifs at hstep
      cases hstep
      exact h.openSession hcall sessionId
    · cases hstep
  | setLocalDecision sessionId accept =>
    cases hstep
    exact h.same (sameCodes_setLocalDecision m sessionId accept)
  | notifyWaiters =>
    simp only [PairingResponder.step] at hstep
    split_ifs at hstep
    cases hstep
    exact h.same ⟨rfl,rfl,rfl,rfl,rfl⟩
  | decline sessionId =>
    cases hstep
    exact h.same (sameCodes_declineSession m sessionId)
  | stepConfirm i =>
    simp only [PairingResponder.step] at hstep
    split at hstep
    · have hsame := sameCodes_stepConfirm hstep
      exact h.same ⟨hsame.codes,hsame.generated,hsame.consumptions,hsame.hellos,hsame.openings⟩
    · cases hstep
  | pruneCodes =>
    cases hstep
    exact h.drops filter_sublist rfl rfl (.refl _) rfl

end CodeBook

end RinaDown.PairingResponder
