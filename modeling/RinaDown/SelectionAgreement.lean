import RinaDown.LabelledExecutions
import RinaDown.SelectionRegistry

/-!
# Every selection request ends once

A request has a token from `begin` until the event that it is resolved has been
published: first its entry in the registry, then the call that has taken the
entry. The hub shows exactly the requests that have a token and have been
announced, and a caller is given the outcome of the call that took its token.
-/

namespace RinaDown.SelectionRegistry
open DaemonProjection List
open Option hiding filter filter_map map map_map

variable {Dto : DtoKind → Type}

/-- The requests that the call has taken and not yet published. -/
def Call.tokens : Call → List String
  | .resolving _ _ => []
  | .sending requestId _ => [requestId]
  | .notifying requestId _ => [requestId]
  | .publishing requestIds => requestIds

namespace Registry

variable (s : Registry Dto) (r : String)

def phaseOf : Option Phase := (s.caller r).map Caller.phase

def callTokens : ℕ := (s.calls.flatMap Call.tokens).count r

/-- The tokens in the registry and with the calls that have taken an entry. -/
def held : ℕ := (s.pending.map Prod.fst).count r + s.callTokens r

def tokens : ℕ := s.held r + (if s.phaseOf r = some .closing then 1 else 0)

def shown : ℕ := (s.hub.pendingSelections.map SelectionRequest.requestId).count r

def ended : ℕ := (s.outcomes.map Prod.fst).count r

/-! ## Callers -/

variable {s r}

variable {c : Caller Dto}

theorem caller_requestId (h : s.caller r = some c) : c.requestId = r := by
  simpa using find?_some h

theorem callerIn_eq_some {phase : Phase} :
    s.callerIn r phase = some c ↔ s.caller r = some c ∧ c.phase = phase := by
  simp [callerIn, filter_eq_some_iff]

theorem phaseOf_of_caller (h : s.caller r = some c) : s.phaseOf r = some c.phase := by
  simp [phaseOf, h]

theorem caller_updateCaller {f : Caller Dto → Caller Dto} (hf : ∀ c, (f c).requestId = c.requestId)
    (q : String) :
    (s.updateCaller r f).caller q = if q = r then (s.caller q).map f else s.caller q := by
  have hfind : ∀ cs : List (Caller Dto),
      (cs.map (fun c => if c.requestId = r then f c else c)).find? (fun c => c.requestId = q) =
        if q = r then (cs.find? (fun c => c.requestId = q)).map f
        else cs.find? (fun c => c.requestId = q) := by
    intro cs
    induction cs with
    | nil => simp
    | cons c cs ih =>
      by_cases hc : c.requestId = r
      · by_cases hq : q = r
        · subst hq
          simp [hc, hf]
        · have hne : ¬r = q := fun h => hq h.symm
          simp [hc, hf, hq, hne, ih]
      · by_cases hq : c.requestId = q
        · have hne : ¬q = r := fun h => hc (hq.trans h)
          simp [hq, hne]
        · simp [hc, hq, ih]
  exact hfind s.callers

theorem caller_setPhase (phase : Phase) (q : String) :
    (s.setPhase r phase).caller q =
      if q = r then (s.caller q).map (fun c => { c with phase := phase }) else s.caller q :=
  caller_updateCaller (f := fun c => { c with phase := phase }) (fun _ => rfl) q

theorem phaseOf_setPhase (h : s.caller r = some c) (phase : Phase) (q : String) :
    (s.setPhase r phase).phaseOf q = if q = r then some phase else s.phaseOf q := by
  by_cases hq : q = r
  · subst hq
    simp [phaseOf, caller_setPhase, h]
  · simp [phaseOf, caller_setPhase, hq]

theorem phaseOf_setPhase_self (h : s.caller r = some c) (phase : Phase) :
    (s.setPhase r phase).phaseOf r = some phase := by
  rw [phaseOf_setPhase h, if_pos rfl]

theorem caller_sendTo (outcome : SelectionOutcome) (q : String) :
    (s.sendTo r outcome).caller q =
      if q = r then (s.caller q).map (fun c =>
        if c.phase = .announcing ∨ c.phase = .waiting then { c with value := some outcome } else c)
      else s.caller q :=
  caller_updateCaller (fun c => by split_ifs <;> rfl) q

theorem phaseOf_sendTo (outcome : SelectionOutcome) (q : String) :
    (s.sendTo r outcome).phaseOf q = s.phaseOf q := by
  rw [phaseOf, caller_sendTo]
  split_ifs
  · cases h : s.caller q with
    | none => simp [phaseOf, h]
    | some c =>
      simp only [phaseOf, h, map_some]
      split_ifs <;> rfl
  · rfl

/-! ## Tokens -/

theorem callTokens_replaceCall {call : Call} (next : List Call) (h : call ∈ s.calls) (q : String) :
    (s.replaceCall call next).callTokens q + call.tokens.count q =
      s.callTokens q + (next.flatMap Call.tokens).count q := by
  have hperm := (perm_cons_erase h).flatMap_right Call.tokens
  have hcount := hperm.count_eq q
  simp only [flatMap_cons, count_append] at hcount
  simp only [callTokens, replaceCall, flatMap_append, count_append]
  omega

theorem two_le_callTokens {call other : Call} {q : String} (h : call ∈ s.calls)
    (hother : other ∈ s.calls.erase call) (hq : q ∈ call.tokens) (hq' : q ∈ other.tokens) :
    2 ≤ s.callTokens q := by
  have hcount := ((perm_cons_erase h).flatMap_right Call.tokens).count_eq q
  simp only [flatMap_cons, count_append] at hcount
  have hfirst : 0 < call.tokens.count q := count_pos_iff.mpr hq
  have hsecond : 0 < ((s.calls.erase call).flatMap Call.tokens).count q :=
    count_pos_iff.mpr (mem_flatMap.mpr ⟨other,hother,hq'⟩)
  simp only [callTokens]
  omega

theorem callTokens_pos {call : Call} {q : String} (h : call ∈ s.calls) (hq : q ∈ call.tokens) :
    0 < s.callTokens q :=
  count_pos_iff.mpr (mem_flatMap.mpr ⟨call,h,hq⟩)

theorem pendingOf_isSome : (s.pendingOf r).isSome ↔ 0 < (s.pending.map Prod.fst).count r := by
  simp [pendingOf, count_pos_iff, find?_isSome]

theorem mem_of_pendingOf {p : PendingSelection} (h : s.pendingOf r = some p) :
    (r, p) ∈ s.pending := by
  simp only [pendingOf, map_eq_some_iff] at h
  obtain ⟨⟨q,p'⟩,hfind,rfl⟩ := h
  have hq : q = r := by simpa using find?_some hfind
  exact hq ▸ mem_of_find?_eq_some hfind

theorem count_map_filter_ne {α : Type*} (key : α → String) (xs : List α) (q : String) :
    ((xs.filter (fun x => key x ≠ r)).map key).count q =
      if q = r then 0 else (xs.map key).count q := by
  have hmap : (xs.filter (fun x => key x ≠ r)).map key = (xs.map key).filter (· ≠ r) := by
    rw [filter_map]
    rfl
  rw [hmap]
  split_ifs with hq
  · subst hq
    exact count_eq_zero_of_not_mem (by simp)
  · exact count_filter (decide_eq_true hq)

/-! ## The hub -/

theorem shown_selectionResolved (q : String) :
    (s.publish (.selectionResolved r)).shown q = if q = r then 0 else s.shown q :=
  count_map_filter_ne SelectionRequest.requestId s.hub.pendingSelections q

theorem shown_selectionPending (rest : Dto .selection) (q : String) :
    (s.publish (.selectionPending ⟨r,rest⟩)).shown q = if q = r then 1 else s.shown q := by
  have hdrop := count_map_filter_ne (r := r) SelectionRequest.requestId s.hub.pendingSelections q
  have hsplit : (s.publish (.selectionPending ⟨r,rest⟩)).shown q =
      ((s.hub.pendingSelections.filter (fun x => x.requestId ≠ r)).map
        SelectionRequest.requestId).count q + [r].count q := by
    simp [shown, publish, applyEvent, DaemonSnapshot.dropSelection, DaemonSnapshot.addSelection]
  rw [hsplit, hdrop]
  by_cases hq : q = r
  · subst hq
    simp
  · have hne : ¬r = q := fun h => hq h.symm
    simp [hq, hne, shown]

end Registry

/-! ## Accounts -/

/-- The phase of a request's caller, its tokens, how often the hub shows it and how many outcomes it
has had. -/
structure Account (phase : Option Phase) (tokens shown ended : ℕ) : Prop where
  once : tokens ≤ 1
  unknown : phase = none → tokens = 0
  announcing : phase = some .announcing → tokens = 1
  visible : shown = if phase = some .announcing then 0 else tokens
  outcome : ended = if phase = some .done then 1 else 0

namespace Registry

/-- The books of every request are in order. -/
def Balanced (s : Registry Dto) : Prop :=
  ∀ q, Account (s.phaseOf q) (s.tokens q) (s.shown q) (s.ended q)

variable {s t : Registry Dto} {r : String}

theorem tokens_of_phase {phase : Phase} (h : s.phaseOf r = some phase) (hne : phase ≠ .closing) :
    s.tokens r = s.held r := by
  simp [tokens, h, hne]

/-- Two registries with the same books for a request. -/
structure SameBooks (s t : Registry Dto) (q : String) : Prop where
  phaseOf : t.phaseOf q = s.phaseOf q
  held : t.held q = s.held q
  shown : t.shown q = s.shown q
  ended : t.ended q = s.ended q

theorem SameBooks.account {q : String} (h : SameBooks s t q)
    (hs : Account (s.phaseOf q) (s.tokens q) (s.shown q) (s.ended q)) :
    Account (t.phaseOf q) (t.tokens q) (t.shown q) (t.ended q) := by
  have htokens : t.tokens q = s.tokens q := by rw [tokens, tokens, h.held, h.phaseOf]
  rw [h.phaseOf, htokens, h.shown, h.ended]
  exact hs

theorem Balanced.congr (h : s.Balanced) (hsame : ∀ q, SameBooks s t q) : t.Balanced :=
  fun q => (hsame q).account (h q)

theorem Balanced.update (h : s.Balanced) (hsame : ∀ q, q ≠ r → SameBooks s t q)
    (hr : Account (t.phaseOf r) (t.tokens r) (t.shown r) (t.ended r)) : t.Balanced := by
  intro q
  by_cases hq : q = r
  · exact hq ▸ hr
  · exact (hsame q hq).account (h q)

theorem Balanced.begin (h : s.Balanced) (hr : s.caller r = none) (selection : PendingSelection)
    (rest : Dto .selection) : (s.begin r selection rest).Balanced := by
  have hphase : s.phaseOf r = none := by simp [phaseOf, hr]
  have hacc := h r
  have htokens := hacc.unknown hphase
  have hshown := hacc.visible
  have hended := hacc.outcome
  simp only [hphase, reduceCtorEq, ↓reduceIte] at hshown hended
  have hheld : s.held r = 0 := by
    rw [tokens] at htokens
    omega
  refine h.update (r := r) (fun q hq => ?_) ?_
  · have hne : ¬r = q := fun h => hq h.symm
    unfold Registry.begin
    split_ifs <;>
      exact ⟨by simp [phaseOf, caller, hne],by simp [held, callTokens, hne],
        rfl,by simp [ended, hne]⟩
  · unfold Registry.begin
    split_ifs with hsub
    · have hdone : ({ s with
          callers := ⟨r,selection,rest,none,.done⟩ :: s.callers
          outcomes := (r, .noSelectorConfigured selection.defaultChoice) :: s.outcomes } :
          Registry Dto).phaseOf r = some .done := by simp [phaseOf, caller]
      rw [tokens_of_phase hdone (by decide), hdone]
      refine ⟨?_,by simp,by simp,?_,?_⟩
      · exact hheld.trans_le (Nat.zero_le 1)
      · exact (hshown.trans htokens).trans hheld.symm
      · simpa [ended] using hended
    · have hopen : ({ s with
          callers := ⟨r,selection,rest,none,.announcing⟩ :: s.callers
          pending := (r, selection) :: s.pending } : Registry Dto).phaseOf r =
          some .announcing := by simp [phaseOf, caller]
      have hone : ({ s with
          callers := ⟨r,selection,rest,none,.announcing⟩ :: s.callers
          pending := (r, selection) :: s.pending } : Registry Dto).held r = 1 := by
        simp only [held, callTokens] at hheld ⊢
        simp only [map_cons, count_cons_self]
        omega
      rw [tokens_of_phase hopen (by decide), hopen, hone]
      exact ⟨le_refl 1,by simp,by simp,hshown.trans htokens,hended⟩

theorem held_setPhase (phase : Phase) (q : String) : (s.setPhase r phase).held q = s.held q := rfl

variable {c : Caller Dto}

theorem sameBooks_setPhase (hc : s.caller r = some c) (phase : Phase) {q : String} (hq : q ≠ r) :
    SameBooks s (s.setPhase r phase) q :=
  ⟨by rw [phaseOf_setPhase hc, if_neg hq],rfl,rfl,rfl⟩

theorem Balanced.publishPending (h : s.Balanced) (hc : s.caller r = some c)
    (hphase : c.phase = .announcing) (rest : Dto .selection) :
    ((s.setPhase r .waiting).publish (.selectionPending ⟨r,rest⟩)).Balanced := by
  have hbefore : s.phaseOf r = some .announcing := by rw [phaseOf_of_caller hc, hphase]
  have hacc := h r
  have htokens := hacc.announcing hbefore
  have hended := hacc.outcome
  rw [tokens_of_phase hbefore (by decide)] at htokens
  simp only [hbefore, some.injEq, reduceCtorEq, ↓reduceIte] at hended
  set t := (s.setPhase r .waiting).publish (.selectionPending ⟨r,rest⟩) with ht
  have hwaiting : t.phaseOf r = some .waiting := phaseOf_setPhase_self hc .waiting
  have hshown : ∀ q, t.shown q = if q = r then 1 else s.shown q := shown_selectionPending rest
  refine h.update (r := r) (fun q hq => ?_) ?_
  · refine ⟨(sameBooks_setPhase hc .waiting hq).phaseOf,rfl,?_,rfl⟩
    rw [hshown, if_neg hq]
  · have hheld : t.held r = 1 := htokens
    have hout : t.ended r = 0 := hended
    rw [tokens_of_phase hwaiting (by decide), hwaiting, hshown, if_pos rfl, hheld, hout]
    exact ⟨le_refl 1,by simp,by simp,rfl,rfl⟩

theorem Balanced.expire (h : s.Balanced) (hc : s.caller r = some c) (hphase : c.phase = .waiting) :
    (s.setPhase r .expired).Balanced := by
  have hbefore : s.phaseOf r = some .waiting := by rw [phaseOf_of_caller hc, hphase]
  have hafter : (s.setPhase r .expired).phaseOf r = some .expired :=
    phaseOf_setPhase_self hc .expired
  refine h.update (fun q hq => sameBooks_setPhase hc .expired hq) ?_
  have hacc := h r
  rw [tokens_of_phase hbefore (by decide), hbefore] at hacc
  rw [tokens_of_phase hafter (by decide), hafter]
  exact ⟨hacc.once,by simp,by simp,hacc.visible,hacc.outcome⟩

theorem Balanced.finish (h : s.Balanced) (hc : s.caller r = some c)
    (hphase : c.phase = .waiting ∨ c.phase = .expired) (reply : Reply) :
    (s.finish r reply).Balanced := by
  have hafter : (s.finish r reply).phaseOf r = some .done := phaseOf_setPhase_self hc .done
  have hacc := h r
  have hended : (s.finish r reply).ended r = s.ended r + 1 := by
    simp [Registry.finish, ended, setPhase, updateCaller]
  refine h.update (r := r) (fun q hq => ?_) ?_
  · have hne : ¬r = q := fun h => hq h.symm
    refine ⟨(sameBooks_setPhase hc .done hq).phaseOf,rfl,rfl,?_⟩
    simp [Registry.finish, ended, setPhase, updateCaller, hne]
  · rw [tokens_of_phase hafter (by decide), hafter, hended]
    rcases hphase with hp | hp
    all_goals
      have hbefore := phaseOf_of_caller hc
      rw [hp] at hbefore
      rw [tokens_of_phase hbefore (by decide), hbefore] at hacc
      refine ⟨hacc.once,by simp,by simp,hacc.visible,?_⟩
      simpa using hacc.outcome

theorem held_removePending (q : String) :
    (s.removePending r).held q = if q = r then s.callTokens q else s.held q := by
  have hcount := count_map_filter_ne (r := r) Prod.fst s.pending q
  have hsplit : (s.removePending r).held q =
      ((s.pending.filter (fun p => p.1 ≠ r)).map Prod.fst).count q + s.callTokens q := rfl
  rw [hsplit, hcount]
  split_ifs
  · exact Nat.zero_add _
  · rfl

theorem Balanced.removePending_closing (h : s.Balanced) (hc : s.caller r = some c)
    (hphase : c.phase = .expired) (hpending : (s.pendingOf r).isSome) :
    ((s.removePending r).setPhase r .closing).Balanced := by
  have hbefore : s.phaseOf r = some .expired := by rw [phaseOf_of_caller hc, hphase]
  have hacc := h r
  rw [tokens_of_phase hbefore (by decide), hbefore] at hacc
  have hcount := pendingOf_isSome.mp hpending
  have honce := hacc.once
  have hheld : s.held r = (s.pending.map Prod.fst).count r + s.callTokens r := rfl
  have hremoved : (s.removePending r).caller r = some c := hc
  have hafter := phaseOf_setPhase_self hremoved .closing
  have hempty : ((s.removePending r).setPhase r .closing).held r = s.callTokens r := by
    rw [held_setPhase, held_removePending, if_pos rfl]
  have htokens : ((s.removePending r).setPhase r .closing).tokens r = 1 := by
    rw [tokens, hafter, hempty]
    simp only [↓reduceIte]
    omega
  have hvisible : s.shown r = s.held r := hacc.visible
  refine h.update (r := r) (fun q hq => ⟨?_,?_,rfl,rfl⟩) ?_
  · exact (sameBooks_setPhase hremoved .closing hq).phaseOf
  · rw [held_setPhase, held_removePending, if_neg hq]
  · rw [hafter, htokens]
    have hone : s.shown r = 1 := hvisible.trans (by omega)
    exact ⟨le_refl 1,by simp,by simp,hone,hacc.outcome⟩

theorem Balanced.publishTimeout (h : s.Balanced) (hc : s.caller r = some c)
    (hphase : c.phase = .closing) (reply : Reply) :
    ((s.finish r reply).publish (.selectionResolved r)).Balanced := by
  have hbefore : s.phaseOf r = some .closing := by rw [phaseOf_of_caller hc, hphase]
  have hacc := h r
  have honce := hacc.once
  have hended := hacc.outcome
  rw [tokens, hbefore] at honce
  simp only [hbefore, some.injEq, reduceCtorEq, ↓reduceIte] at honce hended
  set t := (s.finish r reply).publish (.selectionResolved r) with ht
  have hafter : t.phaseOf r = some .done := phaseOf_setPhase_self hc .done
  have hshown : ∀ q, t.shown q = if q = r then 0 else s.shown q := shown_selectionResolved
  have hout : ∀ q, t.ended q = s.ended q + if r = q then 1 else 0 := fun q => by
    simp [ht, Registry.finish, Registry.publish, ended, setPhase, updateCaller, count_cons]
  refine h.update (r := r) (fun q hq => ⟨?_,rfl,?_,?_⟩) ?_
  · exact (sameBooks_setPhase hc .done hq).phaseOf
  · rw [hshown, if_neg hq]
  · rw [hout, if_neg (fun h => hq h.symm), Nat.add_zero]
  · have hheld : t.held r = 0 := by
      have hsame : t.held r = s.held r := rfl
      omega
    rw [tokens_of_phase hafter (by decide), hafter, hshown, if_pos rfl, hheld, hout, if_pos rfl,
      hended]
    exact ⟨by decide,by simp,by simp,rfl,rfl⟩

/-- A call that replaces its entry in the list of calls, and the tokens with it. -/
theorem sameBooks_replaceCall {call : Call} {next : List Call} (hcall : call ∈ s.calls) {q : String}
    (hcount : (next.flatMap Call.tokens).count q = call.tokens.count q) :
    SameBooks s (s.replaceCall call next) q := by
  refine ⟨rfl,?_,rfl,rfl⟩
  have := callTokens_replaceCall next hcall q
  have hsplit : (s.replaceCall call next).held q =
      (s.pending.map Prod.fst).count q + (s.replaceCall call next).callTokens q := rfl
  have hheld : s.held q = (s.pending.map Prod.fst).count q + s.callTokens q := rfl
  omega

theorem Balanced.take (h : s.Balanced) {o : SelectionOutcome} (hcall : .resolving r o ∈ s.calls)
    (hpending : (s.pendingOf r).isSome) :
    ((s.removePending r).replaceCall (.resolving r o) [.sending r o]).Balanced := by
  have hcount := pendingOf_isSome.mp hpending
  have honce := (h r).once
  rw [tokens] at honce
  have hheld : s.held r = (s.pending.map Prod.fst).count r + s.callTokens r := rfl
  refine h.congr (fun q => ⟨rfl,?_,rfl,rfl⟩)
  have hreplace := callTokens_replaceCall (s := s.removePending r) [.sending r o] hcall q
  have hremove := held_removePending (s := s) (r := r) q
  have hsplit : ((s.removePending r).replaceCall (.resolving r o) [.sending r o]).held q =
      ((s.removePending r).pending.map Prod.fst).count q +
        ((s.removePending r).replaceCall (.resolving r o) [.sending r o]).callTokens q := rfl
  have hremoved : (s.removePending r).held q =
      ((s.removePending r).pending.map Prod.fst).count q + (s.removePending r).callTokens q := rfl
  simp only [Call.tokens, count_nil, flatMap_cons, flatMap_nil, append_nil,
    count_singleton, beq_iff_eq] at hreplace
  by_cases hq : q = r
  · subst hq
    have hsame : (s.removePending q).callTokens q = s.callTokens q := rfl
    simp only [↓reduceIte] at hreplace hremove
    omega
  · rw [if_neg hq] at hremove
    rw [if_neg (fun h => hq h.symm)] at hreplace
    omega

/-- The resolution of a request is published, and with it its token has gone. -/
theorem Balanced.publishResolved (h : s.Balanced) (hannounced : s.phaseOf r ≠ some .announcing)
    {call : Call} (next : List Call) (hcall : call ∈ s.calls)
    (hcount : ∀ q, call.tokens.count q = (next.flatMap Call.tokens).count q + if r = q then 1 else 0) :
    ((s.replaceCall call next).publish (.selectionResolved r)).Balanced := by
  set t := (s.replaceCall call next).publish (.selectionResolved r) with ht
  have hshown : ∀ q, t.shown q = if q = r then 0 else s.shown q := shown_selectionResolved
  have hheld : ∀ q, t.held q + (if r = q then 1 else 0) = s.held q := fun q => by
    have hreplace := callTokens_replaceCall next hcall q
    have hsplit : t.held q =
        (s.pending.map Prod.fst).count q + (s.replaceCall call next).callTokens q := rfl
    have hbefore : s.held q = (s.pending.map Prod.fst).count q + s.callTokens q := rfl
    rw [hcount q] at hreplace
    omega
  refine h.update (r := r) (fun q hq => ⟨rfl,?_,?_,rfl⟩) ?_
  · have := hheld q
    rwa [if_neg (fun h => hq h.symm), Nat.add_zero] at this
  · rw [hshown, if_neg hq]
  · have hacc := h r
    have honce := hacc.once
    have hone := hheld r
    rw [if_pos rfl] at hone
    rw [tokens] at honce
    have hphase : t.phaseOf r = s.phaseOf r := rfl
    have htokens : t.tokens r = 0 := by
      rw [tokens, hphase]
      omega
    rw [htokens, hshown, if_pos rfl, hphase]
    refine ⟨Nat.zero_le 1,fun _ => rfl,fun hp => absurd hp hannounced,?_,hacc.outcome⟩
    rw [if_neg hannounced]

theorem sendAll_fields (ps : List (String × PendingSelection)) (s : Registry Dto) :
    let t := ps.foldl (fun t p => t.sendTo p.1 p.2.defaultChoice) s
    t.calls = s.calls ∧ t.hub = s.hub ∧ t.outcomes = s.outcomes ∧ t.returned = s.returned ∧
      ∀ q, t.phaseOf q = s.phaseOf q := by
  induction ps generalizing s with
  | nil => exact ⟨rfl,rfl,rfl,rfl,fun _ => rfl⟩
  | cons p ps ih =>
    obtain ⟨hcalls,hhub,hout,hret,hphase⟩ := ih (s.sendTo p.1 p.2.defaultChoice)
    exact ⟨hcalls,hhub,hout,hret,fun q => (hphase q).trans (phaseOf_sendTo _ q)⟩

/-- The lock section that ends all requests: every token goes from the registry to the call. -/
theorem Balanced.takeAll (h : s.Balanced) : s.takeAll.Balanced := by
  obtain ⟨hcalls,hhub,hout,-,hphase⟩ := sendAll_fields s.pending s
  refine h.congr (fun q => ⟨hphase q,?_,?_,?_⟩)
  · simp only [Registry.takeAll, held, callTokens, hcalls, map_nil, count_nil,
      flatMap_append, count_append, flatMap_cons, flatMap_nil, append_nil,
      Call.tokens]
    omega
  · simp only [Registry.takeAll, shown, hhub]
  · simp only [Registry.takeAll, ended, hout]

end Registry

/-! ## Outcomes -/

theorem chosen_isSome {kind : SelectionType} {o : SelectionOutcome}
    (h : validateOutcome kind o = .ok ()) : (chosen kind o).isSome := by
  cases kind <;> cases o <;> first | rfl | cases h

namespace Registry

/-- The outcome has reached the caller: it will be received, or it has been. -/
def Delivered (s : Registry Dto) (r : String) (o : SelectionOutcome) : Prop :=
  ∃ c choice, s.caller r = some c ∧ chosen c.selection.kind o = some choice ∧
    (c.value = some o ∧ (c.phase = .announcing ∨ c.phase = .waiting) ∨
      c.phase = .done ∧ (r, .userChose choice) ∈ s.outcomes)

/-- What the entry of a request, the call that has taken it and the calls that have returned know
of its caller. -/
structure SoundAt (s : Registry Dto) (r : String) : Prop where
  pending : ∀ p, (r, p) ∈ s.pending → ∃ c, s.caller r = some c ∧ c.selection = p ∧
    c.value = none ∧ (c.phase = .announcing ∨ c.phase = .waiting ∨ c.phase = .expired)
  sending : ∀ o, .sending r o ∈ s.calls → ∃ c, s.caller r = some c ∧ c.value = none ∧
    (c.phase = .announcing ∨ c.phase = .waiting) ∧ (chosen c.selection.kind o).isSome
  notifying : ∀ o, .notifying r o ∈ s.calls → s.Delivered r o
  returned : ∀ o, (r, o, .ok ()) ∈ s.returned → s.Delivered r o

def Sound (s : Registry Dto) : Prop := ∀ r, s.SoundAt r

variable {s t : Registry Dto} {r q : String}

variable {o : SelectionOutcome} {c : Caller Dto}

theorem Delivered.frame (h : s.Delivered q o) (hcaller : t.caller q = s.caller q)
    (hout : ∀ x ∈ s.outcomes, x ∈ t.outcomes) :
    t.Delivered q o := by
  obtain ⟨c,choice,hc,hchoice,hcase⟩ := h
  exact ⟨c,choice,hcaller.trans hc,hchoice,hcase.imp_right (And.imp_right (hout _))⟩

theorem SoundAt.frame (h : s.SoundAt q) (hcaller : t.caller q = s.caller q)
    (hpending : ∀ p, (q, p) ∈ t.pending → (q, p) ∈ s.pending)
    (hcalls : ∀ c ∈ t.calls, q ∈ c.tokens → c ∈ s.calls)
    (hreturned : ∀ o, (q, o, .ok ()) ∈ t.returned → (q, o, .ok ()) ∈ s.returned)
    (hout : ∀ x ∈ s.outcomes, x ∈ t.outcomes) : t.SoundAt q where
  pending p hp := by
    obtain ⟨c,hc,hrest⟩ := h.pending p (hpending p hp)
    exact ⟨c,hcaller.trans hc,hrest⟩
  sending o ho := by
    obtain ⟨c,hc,hrest⟩ := h.sending o (hcalls _ ho (by simp [Call.tokens]))
    exact ⟨c,hcaller.trans hc,hrest⟩
  notifying o ho := (h.notifying o (hcalls _ ho (by simp [Call.tokens]))).frame hcaller hout
  returned o ho := (h.returned o (hreturned o ho)).frame hcaller hout

theorem mem_calls_of_replaceCall {call c : Call} {next : List Call}
    (hnext : ∀ d ∈ next, q ∉ d.tokens) (hc : c ∈ (s.replaceCall call next).calls)
    (hq : q ∈ c.tokens) : c ∈ s.calls := by
  rcases mem_append.mp hc with hold | hnew
  · exact mem_of_mem_erase hold
  · exact absurd hq (hnext c hnew)

theorem caller_setPhase_ne (phase : Phase) (hq : q ≠ r) :
    (s.setPhase r phase).caller q = s.caller q := by
  rw [caller_setPhase, if_neg hq]

/-- Nothing refers to the request but its caller. -/
structure Idle (s : Registry Dto) (r : String) : Prop where
  pending : ∀ p, (r, p) ∉ s.pending
  sending : ∀ o, .sending r o ∉ s.calls
  notifying : ∀ o, .notifying r o ∉ s.calls
  returned : ∀ o, (r, o, .ok ()) ∉ s.returned

theorem Idle.soundAt (h : s.Idle r) : s.SoundAt r :=
  ⟨fun p hp => absurd hp (h.pending p),fun o ho => absurd ho (h.sending o),
    fun o ho => absurd ho (h.notifying o),fun o ho => absurd ho (h.returned o)⟩

theorem Delivered.phase (h : s.Delivered r o) (hc : s.caller r = some c) :
    c.phase = .announcing ∨ c.phase = .waiting ∨ c.phase = .done := by
  obtain ⟨c',choice,hc',-,hcase⟩ := h
  cases hc.symm.trans hc'
  rcases hcase with ⟨-,hp | hp⟩ | ⟨hp,-⟩
  · exact .inl hp
  · exact .inr (.inl hp)
  · exact .inr (.inr hp)

theorem idle_of_none (h : s.SoundAt r) (hr : s.caller r = none) : s.Idle r := by
  refine ⟨fun p hp => ?_,fun o ho => ?_,fun o ho => ?_,fun o ho => ?_⟩
  · obtain ⟨c,hc,-⟩ := h.pending p hp
    cases hr.symm.trans hc
  · obtain ⟨c,hc,-⟩ := h.sending o ho
    cases hr.symm.trans hc
  · obtain ⟨c,-,hc,-⟩ := h.notifying o ho
    cases hr.symm.trans hc
  · obtain ⟨c,-,hc,-⟩ := h.returned o ho
    cases hr.symm.trans hc

theorem idle_of_phase (h : s.SoundAt r) (hc : s.caller r = some c)
    (hphase : c.phase = .expired ∨ c.phase = .closing) (hpending : ∀ p, (r, p) ∉ s.pending) :
    s.Idle r := by
  have hdelivered : ∀ o, ¬s.Delivered r o := by
    intro o ho
    rcases ho.phase hc with hp | hp | hp <;> rcases hphase with hq | hq <;>
      cases hp.symm.trans hq
  refine ⟨hpending,fun o ho => ?_,fun o ho => hdelivered o (h.notifying o ho),
    fun o ho => hdelivered o (h.returned o ho)⟩
  obtain ⟨d,hd,-,hp,-⟩ := h.sending o ho
  cases hc.symm.trans hd
  rcases hp with hp | hp <;> rcases hphase with hq | hq <;> cases hp.symm.trans hq

theorem Sound.begin (h : s.Sound) (hr : s.caller r = none) (selection : PendingSelection)
    (rest : Dto .selection) : (s.begin r selection rest).Sound := by
  have hidle := idle_of_none (h r) hr
  intro q
  by_cases hq : q = r
  · subst hq
    unfold Registry.begin
    split_ifs
    · exact Idle.soundAt ⟨hidle.pending,hidle.sending,hidle.notifying,hidle.returned⟩
    · refine ⟨fun p hp => ?_,fun o ho => absurd ho (hidle.sending o),
        fun o ho => absurd ho (hidle.notifying o),fun o ho => absurd ho (hidle.returned o)⟩
      rcases mem_cons.mp hp with heq | hold
      · cases heq
        exact ⟨⟨q,selection,rest,none,.announcing⟩,by simp [caller],rfl,rfl,.inl rfl⟩
      · exact absurd hold (hidle.pending p)
  · have hne : ¬r = q := fun h => hq h.symm
    unfold Registry.begin
    split_ifs
    · refine (h q).frame ?_ (fun _ hp => hp) (fun _ hc _ => hc) (fun _ ho => ho)
        (fun x hx => mem_cons_of_mem _ hx)
      simp [caller, hne]
    · refine (h q).frame ?_ ?_ (fun _ hc _ => hc) (fun _ ho => ho) (fun x hx => hx)
      · simp [caller, hne]
      · rintro p hp
        rcases mem_cons.mp hp with heq | hold
        · cases heq
          exact absurd rfl hq
        · exact hold

theorem caller_setPhase_self (hc : s.caller r = some c) (phase : Phase) :
    (s.setPhase r phase).caller r = some { c with phase := phase } := by
  rw [caller_setPhase, if_pos rfl, hc]
  rfl

theorem Sound.setPhase (h : s.Sound) {phase : Phase} (hr : (s.setPhase r phase).SoundAt r) :
    (s.setPhase r phase).Sound := by
  intro q
  by_cases hq : q = r
  · exact hq ▸ hr
  · exact (h q).frame (caller_setPhase_ne phase hq) (fun _ hp => hp) (fun _ hc _ => hc)
      (fun _ ho => ho) (fun _ hx => hx)

theorem Sound.publish (h : s.Sound) (event : DaemonEvent Dto) : (s.publish event).Sound :=
  fun q => ⟨(h q).pending,(h q).sending,(h q).notifying,(h q).returned⟩

theorem Sound.publishPending (h : s.Sound) (hc : s.caller r = some c)
    (hphase : c.phase = .announcing) : (s.setPhase r .waiting).Sound := by
  have hself := caller_setPhase_self hc .waiting
  have hdelivered : ∀ o, s.Delivered r o → (s.setPhase r .waiting).Delivered r o := by
    rintro o ⟨c',choice,hc',hchoice,hcase⟩
    cases hc.symm.trans hc'
    refine ⟨_,choice,hself,hchoice,hcase.imp (fun hp => ⟨hp.1,.inr rfl⟩) ?_⟩
    rintro ⟨hp,-⟩
    cases hphase.symm.trans hp
  refine h.setPhase ⟨fun p hp => ?_,fun o ho => ?_,fun o ho => hdelivered o ((h r).notifying o ho),
    fun o ho => hdelivered o ((h r).returned o ho)⟩
  · obtain ⟨c',hc',hsel,hvalue,-⟩ := (h r).pending p hp
    cases hc.symm.trans hc'
    exact ⟨_,hself,hsel,hvalue,.inr (.inl rfl)⟩
  · obtain ⟨c',hc',hvalue,-,hchoice⟩ := (h r).sending o ho
    cases hc.symm.trans hc'
    exact ⟨_,hself,hvalue,.inr rfl,hchoice⟩

/-- A timer fires while no `resolve` is about to send. -/
theorem Sound.expire (h : s.Sound) (hc : s.caller r = some c) (hphase : c.phase = .waiting)
    (hvalue : c.value = none) (hsending : ∀ o, .sending r o ∉ s.calls) :
    (s.setPhase r .expired).Sound := by
  have hself := caller_setPhase_self hc .expired
  have hdelivered : ∀ o, ¬s.Delivered r o := by
    rintro o ⟨c',choice,hc',-,⟨hv,-⟩ | ⟨hp,-⟩⟩
    · cases hc.symm.trans hc'
      cases hvalue.symm.trans hv
    · cases hc.symm.trans hc'
      cases hphase.symm.trans hp
  refine h.setPhase ⟨fun p hp => ?_,fun o ho => absurd ho (hsending o),
    fun o ho => absurd ((h r).notifying o ho) (hdelivered o),
    fun o ho => absurd ((h r).returned o ho) (hdelivered o)⟩
  obtain ⟨c',hc',hsel,hnone,-⟩ := (h r).pending p hp
  cases hc.symm.trans hc'
  exact ⟨_,hself,hsel,hnone,.inr (.inr rfl)⟩

theorem Sound.finish (h : s.Sound) {reply : Reply} (hr : (s.finish r reply).SoundAt r) :
    (s.finish r reply).Sound := by
  intro q
  by_cases hq : q = r
  · exact hq ▸ hr
  · exact (h q).frame (caller_setPhase_ne .done hq) (fun _ hp => hp) (fun _ hc _ => hc)
      (fun _ ho => ho) (fun _ hx => mem_cons_of_mem _ hx)

theorem Sound.receive (h : s.Sound) (hc : s.caller r = some c) (hphase : c.phase = .waiting)
    (hvalue : c.value = some o) :
    (s.receive c o).Sound := by
  have hid : c.requestId = r := caller_requestId hc
  have hpending : ∀ p, (r, p) ∉ s.pending := by
    intro p hp
    obtain ⟨c',hc',-,hnone,-⟩ := (h r).pending p hp
    cases hc.symm.trans hc'
    cases hvalue.symm.trans hnone
  have hsending : ∀ o, .sending r o ∉ s.calls := by
    intro o' ho
    obtain ⟨c',hc',hnone,-⟩ := (h r).sending o' ho
    cases hc.symm.trans hc'
    cases hvalue.symm.trans hnone
  have hsame : ∀ o', s.Delivered r o' → o' = o ∧ ∃ choice, chosen c.selection.kind o = some choice := by
    rintro o' ⟨c',choice,hc',hchoice,⟨hv,-⟩ | ⟨hp,-⟩⟩
    · cases hc.symm.trans hc'
      cases hv.symm.trans hvalue
      exact ⟨rfl,choice,hchoice⟩
    · cases hc.symm.trans hc'
      cases hphase.symm.trans hp
  unfold Registry.receive
  rw [hid]
  split
  case h_1 choice hchoice =>
    have hdelivered : ∀ o', s.Delivered r o' → (s.finish r (.userChose choice)).Delivered r o' := by
      intro o' ho'
      obtain ⟨rfl,-⟩ := hsame o' ho'
      exact ⟨_,choice,caller_setPhase_self hc .done,hchoice,
        .inr ⟨rfl,mem_cons_self⟩⟩
    exact h.finish ⟨fun p hp => absurd hp (hpending p),fun o' ho => absurd ho (hsending o'),
      fun o' ho => hdelivered o' ((h r).notifying o' ho),
      fun o' ho => hdelivered o' ((h r).returned o' ho)⟩
  case h_2 hnone =>
    have hdelivered : ∀ o', ¬s.Delivered r o' := by
      intro o' ho'
      obtain ⟨-,choice,hchoice⟩ := hsame o' ho'
      cases hnone.symm.trans hchoice
    exact h.setPhase (Idle.soundAt ⟨hpending,hsending,
      fun o' ho => hdelivered o' ((h r).notifying o' ho),
      fun o' ho => hdelivered o' ((h r).returned o' ho)⟩)

theorem mem_removePending {p : PendingSelection} :
    (q, p) ∈ (s.removePending r).pending ↔ (q, p) ∈ s.pending ∧ q ≠ r := by
  simp [removePending]

theorem Sound.removePending (h : s.Sound) : (s.removePending r).Sound := by
  intro q
  refine ⟨fun p hp => ?_,(h q).sending,(h q).notifying,(h q).returned⟩
  exact (h q).pending p (mem_removePending.mp hp).1

theorem Sound.timeout (h : s.Sound) (hc : s.caller r = some c) (hphase : c.phase = .expired) :
    (s.timeout c).Sound := by
  have hid : c.requestId = r := caller_requestId hc
  unfold Registry.timeout
  rw [hid]
  split_ifs with hsome
  · have hidle : (s.removePending r).Idle r :=
      idle_of_phase (h.removePending r) hc (.inl hphase)
        (fun p hp => (mem_removePending.mp hp).2 rfl)
    exact h.removePending.setPhase
      (Idle.soundAt ⟨hidle.pending,hidle.sending,hidle.notifying,hidle.returned⟩)
  · have hnone : ∀ p, (r, p) ∉ s.pending := by
      intro p hp
      refine hsome (pendingOf_isSome.mpr (count_pos_iff.mpr ?_))
      exact mem_map_of_mem hp
    have hidle := idle_of_phase (h r) hc (.inl hphase) hnone
    exact h.finish (Idle.soundAt ⟨hidle.pending,hidle.sending,hidle.notifying,hidle.returned⟩)

theorem Sound.publishTimeout (h : s.Sound) (hc : s.caller r = some c) (hphase : c.phase = .closing)
    (reply : Reply) : (s.finish r reply).Sound := by
  have hpending : ∀ p, (r, p) ∉ s.pending := by
    intro p hp
    obtain ⟨c',hc',-,-,hcase⟩ := (h r).pending p hp
    cases hc.symm.trans hc'
    rcases hcase with hp | hp | hp <;> cases hphase.symm.trans hp
  have hidle := idle_of_phase (h r) hc (.inr hphase) hpending
  exact h.finish (Idle.soundAt ⟨hidle.pending,hidle.sending,hidle.notifying,hidle.returned⟩)

theorem Sound.replaceCall (h : s.Sound) {call : Call} {next : List Call}
    (hnext : ∀ d ∈ next, ∀ q o, d ≠ .sending q o ∧ d ≠ .notifying q o) :
    (s.replaceCall call next).Sound := by
  have hold : ∀ d, d ∈ (s.replaceCall call next).calls →
      (∃ q o, d = .sending q o ∨ d = .notifying q o) → d ∈ s.calls := by
    rintro d hd ⟨q,o,hcase⟩
    rcases mem_append.mp hd with hkeep | hnew
    · exact mem_of_mem_erase hkeep
    · rcases hcase with rfl | rfl
      · exact absurd rfl (hnext _ hnew q o).1
      · exact absurd rfl (hnext _ hnew q o).2
  exact fun q => ⟨(h q).pending,fun o ho => (h q).sending o (hold _ ho ⟨q,o,.inl rfl⟩),
    fun o ho => (h q).notifying o (hold _ ho ⟨q,o,.inr rfl⟩),(h q).returned⟩

theorem Sound.returnError (h : s.Sound) (r : String) (o : SelectionOutcome)
    (error : SelectionError) : (s.returnFrom r o (.error error)).Sound := by
  refine fun q => ⟨(h q).pending,(h q).sending,(h q).notifying,fun o' ho => (h q).returned o' ?_⟩
  rcases mem_cons.mp ho with heq | hold
  · cases heq
  · exact hold

/-- `resolve` takes the entry of a request whose timer has not fired. -/
theorem Sound.take (h : s.Sound) {p : PendingSelection} (hp : (r, p) ∈ s.pending)
    (hvalid : validateOutcome p.kind o = .ok ()) (hphase : s.phaseOf r ≠ some .expired) :
    ((s.removePending r).replaceCall (.resolving r o) [.sending r o]).Sound := by
  obtain ⟨c,hc,rfl,hvalue,hwaits⟩ := (h r).pending p hp
  have hopen : c.phase = .announcing ∨ c.phase = .waiting := by
    rcases hwaits with hp | hp | hp
    · exact .inl hp
    · exact .inr hp
    · exact absurd (by rw [phaseOf_of_caller hc, hp]) hphase
  have hold : ∀ d, d ∈ ((s.removePending r).replaceCall (.resolving r o) [.sending r o]).calls →
      d ≠ .sending r o → d ∈ s.calls := by
    intro d hd hne
    rcases mem_append.mp hd with hkeep | hnew
    · exact mem_of_mem_erase hkeep
    · exact absurd (mem_singleton.mp hnew) hne
  intro q
  refine ⟨fun p' hp' => (h q).pending p' (mem_removePending.mp hp').1,fun o' ho => ?_,
    fun o' ho => ((h q).notifying o' (hold _ ho (by simp))).frame rfl (fun _ hx => hx),
    fun o' ho => ((h q).returned o' ho).frame rfl (fun _ hx => hx)⟩
  by_cases heq : Call.sending q o' = .sending r o
  · obtain ⟨rfl,rfl⟩ := Call.sending.inj heq
    exact ⟨c,hc,hvalue,hopen,chosen_isSome hvalid⟩
  · exact (h q).sending o' (hold _ ho heq)

theorem Sound.resolve (h : s.Sound)
    (hordered : s.phaseOf r = some .expired → ∀ p, s.pendingOf r = some p → validateOutcome p.kind o ≠ .ok ()) :
    (s.resolve r o).Sound := by
  have herror : ∀ error, ((s.replaceCall (.resolving r o) []).returnFrom r o (.error error)).Sound :=
    fun error => (h.replaceCall (by simp)).returnError r o error
  unfold Registry.resolve
  simp only
  split
  case h_1 => exact herror _
  case h_2 p hp =>
    split
    case h_1 => exact herror _
    case h_2 hvalid =>
      exact h.take (mem_of_pendingOf hp) hvalid (fun hexp => hordered hexp p hp hvalid)

theorem callTokens_le (hb : s.Balanced) (q : String) : s.callTokens q ≤ 1 := by
  have honce := (hb q).once
  rw [tokens, held] at honce
  omega

theorem caller_sendTo_self (hc : s.caller r = some c) (o : SelectionOutcome)
    (hopen : c.phase = .announcing ∨ c.phase = .waiting) :
    (s.sendTo r o).caller r = some { c with value := some o } := by
  rw [caller_sendTo, if_pos rfl, hc, map_some, if_pos hopen]

theorem Sound.send (h : s.Sound) (hb : s.Balanced) (hcall : .sending r o ∈ s.calls) :
    ((s.replaceCall (.sending r o) [.notifying r o]).sendTo r o).Sound := by
  obtain ⟨c,hc,hvalue,hopen,hchosen⟩ := (h r).sending o hcall
  obtain ⟨choice,hchoice⟩ := isSome_iff_exists.mp hchosen
  have hnone : ∀ d ∈ s.calls.erase (.sending r o), r ∉ d.tokens := by
    intro d hd hr
    have htwo := two_le_callTokens hcall hd (by simp [Call.tokens]) hr
    have hone := callTokens_le hb r
    omega
  have hpending : ∀ p, (r, p) ∉ s.pending := by
    intro p hp
    have hcount : 0 < (s.pending.map Prod.fst).count r :=
      count_pos_iff.mpr (mem_map_of_mem hp)
    have htoken := callTokens_pos hcall (q := r) (by simp [Call.tokens])
    have honce := (hb r).once
    rw [tokens, held] at honce
    omega
  have hself := caller_sendTo_self (s := s.replaceCall (.sending r o) [.notifying r o]) hc o hopen
  intro q
  by_cases hq : q = r
  · subst hq
    refine ⟨fun p hp => absurd hp (hpending p),fun o' ho => ?_,fun o' ho => ?_,fun o' ho => ?_⟩
    · rcases mem_append.mp ho with hold | hnew
      · exact absurd (by simp [Call.tokens]) (hnone _ hold)
      · cases mem_singleton.mp hnew
    · rcases mem_append.mp ho with hold | hnew
      · exact absurd (by simp [Call.tokens]) (hnone _ hold)
      · obtain ⟨-,rfl⟩ := Call.notifying.inj (mem_singleton.mp hnew)
        exact ⟨_,choice,hself,hchoice,.inl ⟨rfl,hopen⟩⟩
    · obtain ⟨c',-,hc',-,⟨hv,-⟩ | ⟨hp,-⟩⟩ := (h q).returned o' ho
      · cases hc.symm.trans hc'
        cases hvalue.symm.trans hv
      · cases hc.symm.trans hc'
        rcases hopen with hw | hw <;> cases hp.symm.trans hw
  · have hnext : ∀ d ∈ [Call.notifying r o], q ∉ d.tokens := by
      intro d hd
      cases mem_singleton.mp hd
      simpa [Call.tokens] using hq
    refine (h q).frame ?_ (fun _ hp => hp) (fun d hd hmem => mem_calls_of_replaceCall hnext hd hmem)
      (fun _ ho => ho) (fun _ hx => hx)
    rw [caller_sendTo, if_neg hq]
    rfl

theorem Sound.publishResolved (h : s.Sound) (hcall : .notifying r o ∈ s.calls) :
    (((s.replaceCall (.notifying r o) []).publish (.selectionResolved r)).returnFrom r o
      (.ok ())).Sound := by
  have hframe : ((s.replaceCall (.notifying r o) []).publish (.selectionResolved r)).Sound :=
    (h.replaceCall (by simp)).publish _
  refine fun q => ⟨(hframe q).pending,(hframe q).sending,(hframe q).notifying,fun o' ho => ?_⟩
  rcases mem_cons.mp ho with heq | hold
  · cases heq
    exact (h r).notifying o hcall
  · exact (h q).returned o' hold

theorem caller_sendAll {ps : List (String × PendingSelection)} (hq : ∀ p ∈ ps, p.1 ≠ q)
    (s : Registry Dto) :
    (ps.foldl (fun t p => t.sendTo p.1 p.2.defaultChoice) s).caller q = s.caller q := by
  induction ps generalizing s with
  | nil => rfl
  | cons p ps ih =>
    have hp : p.1 ≠ q := hq p mem_cons_self
    rw [foldl_cons, ih (fun p' hp' => hq p' (mem_cons_of_mem _ hp')), caller_sendTo,
      if_neg (fun h => hp h.symm)]

/-- The lock section that ends all requests sends to the callers of pending requests only. -/
theorem Sound.takeAll (h : s.Sound) (hb : s.Balanced) : s.takeAll.Sound := by
  obtain ⟨hcalls,-,hout,hret,-⟩ := sendAll_fields s.pending s
  have hold : ∀ d, d ∈ s.takeAll.calls → (∃ q o, d = .sending q o ∨ d = .notifying q o) →
      d ∈ s.calls := by
    rintro d hd ⟨q,o,hcase⟩
    rcases mem_append.mp hd with hkeep | hnew
    · exact hcalls ▸ hkeep
    · cases mem_singleton.mp hnew
      rcases hcase with hcase | hcase <;> cases hcase
  intro q
  by_cases hq : ∃ p, (q, p) ∈ s.pending
  · obtain ⟨p,hp⟩ := hq
    obtain ⟨c,hc,-,hvalue,hwaits⟩ := (h q).pending p hp
    have hdelivered : ∀ o, ¬s.Delivered q o := by
      rintro o ⟨c',-,hc',-,⟨hv,-⟩ | ⟨hp,-⟩⟩
      · cases hc.symm.trans hc'
        cases hvalue.symm.trans hv
      · cases hc.symm.trans hc'
        rcases hwaits with hw | hw | hw <;> cases hp.symm.trans hw
    have hsending : ∀ o, .sending q o ∉ s.calls := by
      intro o ho
      have hcount : 0 < (s.pending.map Prod.fst).count q :=
        count_pos_iff.mpr (mem_map_of_mem hp)
      have htoken := callTokens_pos ho (q := q) (by simp [Call.tokens])
      have honce := (hb q).once
      rw [tokens, held] at honce
      omega
    refine Idle.soundAt ⟨fun p' hp' => absurd hp' (not_mem_nil),?_,?_,?_⟩
    · exact fun o ho => hsending o (hold _ ho ⟨q,o,.inl rfl⟩)
    · exact fun o ho => hdelivered o ((h q).notifying o (hold _ ho ⟨q,o,.inr rfl⟩))
    · intro o ho
      have ho' : (q, o, .ok ()) ∈ s.returned := hret ▸ ho
      exact hdelivered o ((h q).returned o ho')
  · have hcaller : s.takeAll.caller q = s.caller q :=
      caller_sendAll (fun p hp hpq => hq ⟨p.2,by rw [← hpq]; exact hp⟩) s
    have hdelivered : ∀ o, s.Delivered q o → s.takeAll.Delivered q o :=
      fun o ho => ho.frame hcaller (fun x hx => hout.symm ▸ hx)
    refine ⟨fun p hp => absurd hp (not_mem_nil),fun o ho => ?_,fun o ho => ?_,fun o ho => ?_⟩
    · obtain ⟨c,hc,hrest⟩ := (h q).sending o (hold _ ho ⟨q,o,.inl rfl⟩)
      exact ⟨c,hcaller.trans hc,hrest⟩
    · exact hdelivered o ((h q).notifying o (hold _ ho ⟨q,o,.inr rfl⟩))
    · have ho' : (q, o, .ok ()) ∈ s.returned := hret ▸ ho
      exact hdelivered o ((h q).returned o ho')

end Registry

/-! ## Steps -/

def Announced (s : Registry Dto) (r : String) : Prop := s.phaseOf r ≠ some .announcing

instance (s : Registry Dto) (r : String) : Decidable (Announced s r) :=
  inferInstanceAs (Decidable (_ ≠ _))

def takes (s : Registry Dto) (r : String) (o : SelectionOutcome) : Bool :=
  (s.pendingOf r).any (fun p => (validateOutcome p.kind o).isOk)

/-- The steps at which the calls may go wrong: a resolution that is published before its request, a
timer that fires while a `resolve` is about to send, and a `resolve` that takes a request whose timer
has fired. -/
def Ordered (s : Registry Dto) : Label Dto → Prop
  | .publishResolved r _ => Announced s r
  | .publishOne _ r => Announced s r
  | .expire r => s.calls.all (fun c => match c with
    | .sending q _ => q ≠ r
    | _ => true) = true
  | .lock r o => s.phaseOf r = some .expired → takes s r o = false
  | _ => True

instance (s : Registry Dto) (a : Label Dto) : Decidable (Ordered s a) := by
  cases a <;> unfold Ordered <;> infer_instance

structure Registry.Inv (s : Registry Dto) : Prop where
  unique : (s.callers.map Caller.requestId).Nodup
  balanced : s.Balanced
  sound : s.Sound

namespace Registry

variable {s t : Registry Dto} {r : String}

theorem Initial.inv (h : Initial s) : s.Inv := by
  have hcaller : ∀ q, s.caller q = none := fun q => by simp [caller, h.callers]
  refine ⟨by simp [h.callers],fun q => ?_,fun q => ?_⟩
  · have hphase : s.phaseOf q = none := by simp [phaseOf, hcaller]
    have htokens : s.tokens q = 0 := by
      simp [tokens, held, callTokens, hphase, h.pending, h.calls]
    have hshown : s.shown q = 0 := by simp [shown, h.hub]
    have hended : s.ended q = 0 := by simp [ended, h.outcomes]
    rw [hphase, htokens, hshown, hended]
    exact ⟨Nat.zero_le 1,by simp,by simp,by simp,by simp⟩
  · exact Idle.soundAt ⟨by simp [h.pending],by simp [h.calls],by simp [h.calls],
      by simp [h.returned]⟩

theorem map_requestId_updateCaller {f : Caller Dto → Caller Dto}
    (hf : ∀ c, (f c).requestId = c.requestId) :
    (s.updateCaller r f).callers.map Caller.requestId = s.callers.map Caller.requestId := by
  simp only [updateCaller, map_map]
  refine map_congr_left (fun c _ => ?_)
  simp only [Function.comp_apply]
  split_ifs
  · exact hf c
  · rfl

theorem unique_takeAll (h : (s.callers.map Caller.requestId).Nodup) :
    (s.takeAll.callers.map Caller.requestId).Nodup := by
  have hall : ∀ (ps : List (String × PendingSelection)) (s : Registry Dto),
      (ps.foldl (fun t p => t.sendTo p.1 p.2.defaultChoice) s).callers.map Caller.requestId =
        s.callers.map Caller.requestId := by
    intro ps
    induction ps with
    | nil => exact fun _ => rfl
    | cons p ps ih =>
      intro s
      rw [foldl_cons, ih]
      exact map_requestId_updateCaller (fun c => by split_ifs <;> rfl)
  have hsame : s.takeAll.callers.map Caller.requestId = s.callers.map Caller.requestId :=
    hall s.pending s
  rw [hsame]
  exact h

theorem unique_setPhase (h : (s.callers.map Caller.requestId).Nodup) (phase : Phase) :
    ((s.setPhase r phase).callers.map Caller.requestId).Nodup := by
  have hsame : (s.setPhase r phase).callers.map Caller.requestId =
      s.callers.map Caller.requestId :=
    map_requestId_updateCaller (f := fun c => { c with phase := phase }) (fun _ => rfl)
  rw [hsame]
  exact h

theorem Inv.setSubscribers (h : s.Inv) (subscribers : List String) :
    ({ s with subscribers := subscribers } : Registry Dto).Inv :=
  ⟨h.unique,h.balanced,fun q => (h.sound q).frame rfl (fun _ hp => hp) (fun _ hc _ => hc)
    (fun _ ho => ho) (fun _ hx => hx)⟩

theorem Inv.takeAll (h : s.Inv) : s.takeAll.Inv :=
  ⟨unique_takeAll h.unique,h.balanced.takeAll,h.sound.takeAll h.balanced⟩

theorem Inv.replaceCall (h : s.Inv) {call : Call} {next : List Call} (hcall : call ∈ s.calls)
    (htokens : ∀ q, (next.flatMap Call.tokens).count q = call.tokens.count q)
    (hnext : ∀ d ∈ next, ∀ q o, d ≠ .sending q o ∧ d ≠ .notifying q o) :
    (s.replaceCall call next).Inv :=
  ⟨h.unique,h.balanced.congr (fun q => sameBooks_replaceCall hcall (htokens q)),
    h.sound.replaceCall hnext⟩

theorem Inv.addResolving (h : s.Inv) (r : String) (o : SelectionOutcome) :
    ({ s with calls := s.calls ++ [.resolving r o] } : Registry Dto).Inv := by
  refine ⟨h.unique,h.balanced.congr (fun q => ⟨rfl,?_,rfl,rfl⟩),fun q => ?_⟩
  · simp [held, callTokens, Call.tokens]
  · refine (h.sound q).frame rfl (fun _ hp => hp) (fun c hc hq => ?_) (fun _ ho => ho)
      (fun _ hx => hx)
    rcases mem_append.mp hc with hold | hnew
    · exact hold
    · cases mem_singleton.mp hnew
      cases hq

theorem Inv.send (h : s.Inv) {o : SelectionOutcome} (hcall : .sending r o ∈ s.calls) :
    ((s.replaceCall (.sending r o) [.notifying r o]).sendTo r o).Inv := by
  refine ⟨?_,?_,h.sound.send h.balanced hcall⟩
  · have hsame := map_requestId_updateCaller (s := s.replaceCall (.sending r o) [.notifying r o])
      (r := r) (f := fun c => if c.phase = .announcing ∨ c.phase = .waiting then
        { c with value := some o } else c) (fun c => by split_ifs <;> rfl)
    exact (congrArg List.Nodup hsame).mpr h.unique
  · refine h.balanced.congr (fun q => ⟨phaseOf_sendTo o q,?_,rfl,rfl⟩)
    exact (sameBooks_replaceCall hcall (q := q) (by simp [Call.tokens])).held

theorem Inv.resolve (h : s.Inv) {o : SelectionOutcome} (hcall : .resolving r o ∈ s.calls)
    (hordered : s.phaseOf r = some .expired → takes s r o = false) : (s.resolve r o).Inv := by
  have hsound : (s.resolve r o).Sound := by
    refine h.sound.resolve (fun hexp p hp hvalid => ?_)
    have hnot := hordered hexp
    rw [takes, hp] at hnot
    simp [hvalid, Except.isOk, Except.toBool] at hnot
  have herror : ∀ error, ((s.replaceCall (.resolving r o) []).returnFrom r o error).Balanced :=
    fun _ => h.balanced.congr (fun q =>
      ⟨rfl,(sameBooks_replaceCall hcall (q := q) (by simp [Call.tokens])).held,rfl,rfl⟩)
  refine ⟨?_,?_,hsound⟩
  · unfold Registry.resolve
    simp only
    split
    case h_1 => exact h.unique
    case h_2 => split <;> exact h.unique
  · unfold Registry.resolve
    simp only
    split
    case h_1 => exact herror _
    case h_2 p hp =>
      split
      case h_1 => exact herror _
      case h_2 => exact h.balanced.take hcall (by simp [hp])

end Registry

/-- Every step keeps the books and what the calls know of their callers. -/
theorem step_inv {s t : Registry Dto} {a : Label Dto} (h : s.Inv) (ha : Ordered s a)
    (hstep : step s a = some t) : t.Inv := by
  cases a with
  | subscribe connectionId =>
    cases hstep
    exact h.setSubscribers _
  | unsubscribe connectionId =>
    cases hstep
    have hleft := h.setSubscribers (s.subscribers.filter (· ≠ connectionId))
    unfold Registry.unsubscribe
    simp only
    split_ifs
    · exact hleft.takeAll
    · exact hleft
  | resolveAllDefaults =>
    cases hstep
    exact h.takeAll
  | «begin» r selection rest =>
    simp only [step, ite_none_right_eq_some, some.injEq] at hstep
    obtain ⟨hnone,rfl⟩ := hstep
    have hr : s.caller r = none := by simpa using hnone
    have hnew : r ∉ s.callers.map Caller.requestId := by
      simpa [Registry.caller] using hr
    refine ⟨?_,h.balanced.begin hr selection rest,h.sound.begin hr selection rest⟩
    unfold Registry.begin
    split_ifs <;> exact nodup_cons.mpr ⟨hnew,h.unique⟩
  | resolve r o =>
    cases hstep
    exact h.addResolving r o
  | resolveForTask taskId kind o r =>
    simp only [step, ite_none_right_eq_some, some.injEq] at hstep
    obtain ⟨-,rfl⟩ := hstep
    exact h.addResolving r o
  | publishPending r =>
    simp only [step, map_eq_some_iff] at hstep
    obtain ⟨c,hc,rfl⟩ := hstep
    obtain ⟨hcaller,hphase⟩ := Registry.callerIn_eq_some.mp hc
    obtain rfl := Registry.caller_requestId hcaller
    exact ⟨Registry.unique_setPhase h.unique _,h.balanced.publishPending hcaller hphase c.rest,
      (h.sound.publishPending hcaller hphase).publish _⟩
  | receive r =>
    simp only [step, bind_eq_some_iff, map_eq_some_iff] at hstep
    obtain ⟨c,hc,o,hvalue,rfl⟩ := hstep
    obtain ⟨hcaller,hphase⟩ := Registry.callerIn_eq_some.mp hc
    obtain rfl := Registry.caller_requestId hcaller
    refine ⟨?_,?_,h.sound.receive hcaller hphase hvalue⟩
    · unfold Registry.receive
      split <;> exact Registry.unique_setPhase h.unique _
    · unfold Registry.receive
      split
      · exact h.balanced.finish hcaller (.inl hphase) _
      · exact h.balanced.expire hcaller hphase
  | expire r =>
    simp only [step, bind_eq_some_iff, ite_none_right_eq_some,
      some.injEq] at hstep
    obtain ⟨c,hc,hvalue,rfl⟩ := hstep
    obtain ⟨hcaller,hphase⟩ := Registry.callerIn_eq_some.mp hc
    obtain rfl := Registry.caller_requestId hcaller
    have hsending : ∀ o, .sending c.requestId o ∉ s.calls := by
      intro o ho
      have := all_eq_true.mp ha _ ho
      simp at this
    exact ⟨Registry.unique_setPhase h.unique _,h.balanced.expire hcaller hphase,
      h.sound.expire hcaller hphase (by simpa using hvalue) hsending⟩
  | timeout r =>
    simp only [step, map_eq_some_iff] at hstep
    obtain ⟨c,hc,rfl⟩ := hstep
    obtain ⟨hcaller,hphase⟩ := Registry.callerIn_eq_some.mp hc
    obtain rfl := Registry.caller_requestId hcaller
    refine ⟨?_,?_,h.sound.timeout hcaller hphase⟩
    · unfold Registry.timeout
      split_ifs <;> exact Registry.unique_setPhase h.unique _
    · unfold Registry.timeout
      split_ifs with hsome
      · exact h.balanced.removePending_closing hcaller hphase hsome
      · exact h.balanced.finish hcaller (.inr hphase) _
  | publishTimeout r =>
    simp only [step, map_eq_some_iff] at hstep
    obtain ⟨c,hc,rfl⟩ := hstep
    obtain ⟨hcaller,hphase⟩ := Registry.callerIn_eq_some.mp hc
    obtain rfl := Registry.caller_requestId hcaller
    exact ⟨Registry.unique_setPhase h.unique _,h.balanced.publishTimeout hcaller hphase _,
      (h.sound.publishTimeout hcaller hphase _).publish _⟩
  | lock r o =>
    simp only [step, ite_none_right_eq_some, some.injEq] at hstep
    obtain ⟨hcall,rfl⟩ := hstep
    exact h.resolve hcall ha
  | send r o =>
    simp only [step, ite_none_right_eq_some, some.injEq] at hstep
    obtain ⟨hcall,rfl⟩ := hstep
    exact h.send hcall
  | publishResolved r o =>
    simp only [step, ite_none_right_eq_some, some.injEq] at hstep
    obtain ⟨hcall,rfl⟩ := hstep
    have hbalanced := h.balanced.publishResolved ha [] hcall (fun q => by
      simp [Call.tokens, count_singleton])
    exact ⟨h.unique,hbalanced,h.sound.publishResolved hcall⟩
  | publishOne ids r =>
    simp only [step, ite_none_right_eq_some, some.injEq] at hstep
    obtain ⟨⟨hcall,hmem⟩,rfl⟩ := hstep
    have hbalanced := h.balanced.publishResolved ha [.publishing (ids.erase r)] hcall
      (fun q => by
        have hperm := (perm_cons_erase hmem).count_eq q
        simp only [count_cons, beq_iff_eq] at hperm
        simpa [Call.tokens] using hperm)
    exact ⟨h.unique,hbalanced,(h.sound.replaceCall (by simp)).publish _⟩
  | finishPublishing =>
    simp only [step, ite_none_right_eq_some, some.injEq] at hstep
    obtain ⟨hcall,rfl⟩ := hstep
    exact h.replaceCall hcall (by simp [Call.tokens]) (by simp)

end RinaDown.SelectionRegistry
