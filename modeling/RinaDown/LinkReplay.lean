import RinaDown.LinkDataPlane

/-!
# Requests that are sent again

A nonce is kept as long as the time at which it was recorded is in the window, and a request
is accepted as long as its own time is. A request is accepted once if its nonce is only
forgotten after its own time has left the window.
-/

namespace RinaDown.LinkDataPlane

open LabelledExecutions LinkManager List Option

variable (C : Ciphers) {m m' : LinkManager}

/-- The requests whose nonces are forgotten now are too old to be accepted. -/
def ForgetsInTime (m : LinkManager) (now : ℤ) : Prop :=
  ∀ e ∈ m.seenNonces, linkAuthSkewSecs < now - e.seenTs → linkAuthSkewSecs < now - e.request.ts

/-- A verified call has a time that is not before the one at which its nonce was forgotten. -/
structure CheckOrderly (m : LinkManager) (call : Call) : Prop where
  inTime : ForgetsInTime m call.now
  notBefore : ∀ e ∈ m.forgotten, nonceKey e.1 = nonceKey call.request → e.2 ≤ call.now

def Orderly (m : LinkManager) : Label → Prop
  | .prunedExpired => ForgetsInTime m m.clock
  | .checked i => ∀ call ∈ m.calls[i]?, ∀ record ∈ call.record,
      verified C call record = true → CheckOrderly m call
  | _ => True

/-- Every accepted request has a nonce that is recorded, or forgotten in time. -/
structure Inv (m : LinkManager) : Prop where
  calls : ∀ call ∈ m.calls, ((call.now - call.request.ts).natAbs : ℤ) ≤ linkAuthSkewSecs
  keyed : ∀ e ∈ m.seenNonces, e.key = nonceKey e.request
  recorded : ∀ a ∈ m.accepted, (∃ e ∈ m.seenNonces, e.request = a.request) ∨
    ∃ now, (a.request, now) ∈ m.forgotten
  forgotten : ∀ e ∈ m.forgotten, linkAuthSkewSecs < e.2 - e.1.ts
  once : (m.accepted.map (·.request)).Nodup

theorem inv_new (clock : ℤ) (store : List PairingResponder.PeerRecord) : Inv (new clock store) := by
  constructor
  · exact fun _ h => absurd h not_mem_nil
  · exact fun _ h => absurd h not_mem_nil
  · exact fun _ h => absurd h not_mem_nil
  · exact fun _ h => absurd h not_mem_nil
  · exact nodup_nil

theorem Inv.of_calls (h : Inv m) {m' : LinkManager} (hseen : m'.seenNonces = m.seenNonces)
    (hforgotten : m'.forgotten = m.forgotten) (haccepted : m'.accepted = m.accepted)
    (hcalls : ∀ call ∈ m'.calls, ((call.now - call.request.ts).natAbs : ℤ) ≤ linkAuthSkewSecs) :
    Inv m' := by
  constructor
  · exact hcalls
  · rw [hseen]
    exact h.keyed
  · rw [hseen, hforgotten, haccepted]
    exact h.recorded
  · rw [hforgotten]
    exact h.forgotten
  · rw [haccepted]
    exact h.once

theorem Inv.finish (h : Inv m) (i : ℕ) : Inv (m.finish i) :=
  h.of_calls rfl rfl rfl fun call hcall => h.calls call (mem_of_mem_eraseIdx hcall)

theorem Inv.arrive (h : Inv m) (request : Request) : Inv (m.arrive request) := by
  rw [LinkManager.arrive]
  by_cases hcond : request.enc = "v1" ∧ ((m.clock - request.ts).natAbs : ℤ) ≤ linkAuthSkewSecs
  · rw [if_pos hcond]
    refine h.of_calls rfl rfl rfl fun call hcall => ?_
    rcases mem_append.mp hcall with hold | hnew
    · exact h.calls call hold
    · obtain rfl := mem_singleton.mp hnew
      exact hcond.2
  · rw [if_neg hcond]
    exact h

theorem Inv.load (h : Inv m) {i : ℕ} {call : Call} (hcall : m.calls[i]? = some call) :
    Inv (m.load i call) := by
  rw [LinkManager.load]
  cases m.get call.request.device with
  | none => exact h.finish i
  | some record =>
      refine h.of_calls rfl rfl rfl fun other hother => ?_
      rcases mem_or_eq_of_mem_set hother with hold | rfl
      · exact h.calls other hold
      · exact h.calls call (mem_of_getElem? hcall)

theorem Inv.retain (h : Inv m) {now : ℤ} (htime : ForgetsInTime m now) : Inv (m.retain now) := by
  constructor
  · exact h.calls
  · exact fun e he => h.keyed e (mem_of_mem_filter he)
  · intro a ha
    rcases h.recorded a ha with ⟨e,he,hrequest⟩ | ⟨time,hforgotten⟩
    · by_cases hkept : now - e.seenTs ≤ linkAuthSkewSecs
      · exact .inl ⟨e,mem_filter.mpr ⟨he,decide_eq_true hkept⟩,hrequest⟩
      · refine .inr ⟨now,mem_append_right _ (mem_map.mpr ⟨e,?_,?_⟩)⟩
        · exact mem_filter.mpr ⟨he,decide_eq_true (Int.not_le.mp hkept)⟩
        · rw [hrequest]
    · exact .inr ⟨time,mem_append_left _ hforgotten⟩
  · intro e he
    rcases mem_append.mp he with hold | hnew
    · exact h.forgotten e hold
    · obtain ⟨seen,hseen,rfl⟩ := mem_map.mp hnew
      rw [mem_filter, decide_eq_true_eq] at hseen
      exact htime seen hseen.1 hseen.2
  · exact h.once

theorem Inv.accept (h : Inv m) {call : Call} (record : PairingResponder.PeerRecord)
    (hnew : ∀ a ∈ m.accepted, a.request ≠ call.request) : Inv (m.accept C call record) := by
  have hrecorded : ∀ a ∈ m.accepted, (∃ e ∈ m.seenNonces ++
      [⟨nonceKey call.request,call.now,call.request⟩], e.request = a.request) ∨
      ∃ now, (a.request, now) ∈ m.forgotten := by
    intro a ha
    rcases h.recorded a ha with ⟨e,he,hrequest⟩ | hforgotten
    · exact .inl ⟨e,mem_append_left _ he,hrequest⟩
    · exact .inr hforgotten
  have hkeyed : ∀ e ∈ m.seenNonces ++ [⟨nonceKey call.request,call.now,call.request⟩],
      e.key = nonceKey e.request := by
    intro e he
    rcases mem_append.mp he with hold | hlast
    · exact h.keyed e hold
    · obtain rfl := mem_singleton.mp hlast
      rfl
  rw [LinkManager.accept]
  cases openLinkBody C (deriveLinkAeadKey C record.linkSecret) call.request.body with
  | none => exact ⟨h.calls,hkeyed,hrecorded,h.forgotten,h.once⟩
  | some body =>
      refine ⟨h.calls,hkeyed,fun a ha => ?_,h.forgotten,?_⟩
      · rcases mem_append.mp ha with hold | hlast
        · exact hrecorded a hold
        · obtain rfl := mem_singleton.mp hlast
          exact .inl ⟨_,mem_append_right _ (mem_singleton_self _),rfl⟩
      · rw [map_append, nodup_append]
        refine ⟨h.once,pairwise_singleton _ _,?_⟩
        intro request hrequest other hother
        obtain ⟨a,ha,rfl⟩ := mem_map.mp hrequest
        obtain rfl := mem_singleton.mp hother
        exact hnew a ha

theorem Inv.checkNonce (h : Inv m) {call : Call} (record : PairingResponder.PeerRecord)
    (hwindow : ((call.now - call.request.ts).natAbs : ℤ) ≤ linkAuthSkewSecs)
    (horderly : CheckOrderly m call) : Inv (m.checkNonce C call record) := by
  have hretained := h.retain horderly.inTime
  simp only [LinkManager.checkNonce]
  by_cases hseen : ((m.retain call.now).seenNonces.any fun e =>
      e.key = nonceKey call.request) = true
  · rw [if_pos hseen]
    exact hretained
  · rw [if_neg hseen]
    apply hretained.accept
    intro a ha heq
    rcases hretained.recorded a ha with ⟨e,he,hrequest⟩ | ⟨time,hforgotten⟩
    · refine hseen (any_eq_true.mpr ⟨e,he,decide_eq_true ?_⟩)
      rw [hretained.keyed e he, hrequest, heq]
    · -- the time of the call is not before the one at which its nonce was forgotten
      have hlate : time ≤ call.now := by
        rcases mem_append.mp hforgotten with hold | hnow
        · exact horderly.notBefore _ hold (congrArg nonceKey heq)
        · obtain ⟨e,-,hpair⟩ := mem_map.mp hnow
          exact Int.le_of_eq (Prod.mk.inj hpair).2.symm
      have hout : linkAuthSkewSecs < time - a.request.ts := hretained.forgotten _ hforgotten
      rw [heq] at hout
      omega

theorem Inv.check (h : Inv m) {i : ℕ} {call : Call} {record : PairingResponder.PeerRecord}
    (hcall : m.calls[i]? = some call)
    (horderly : verified C call record = true → CheckOrderly m call) :
    Inv (m.check C i call record) := by
  rw [LinkManager.check]
  by_cases hverified : verified C call record = true
  · rw [if_pos hverified]
    have hwindow := h.calls call (mem_of_getElem? hcall)
    exact (h.finish i).checkNonce C record hwindow
      ⟨(horderly hverified).inTime,(horderly hverified).notBefore⟩
  · rw [if_neg hverified]
    exact h.finish i

theorem Inv.step (h : Inv m) {a : Label} (horderly : Orderly C m a)
    (hstep : step C m a = some m') : Inv m' := by
  cases a with
  | clockSet now | stored store =>
      obtain rfl := some.inj hstep
      exact h.of_calls rfl rfl rfl h.calls
  | arrived request =>
      obtain rfl := some.inj hstep
      exact h.arrive request
  | loaded i =>
      rw [LinkDataPlane.step] at hstep
      cases hcall : m.calls[i]? with
      | none =>
          rw [hcall] at hstep
          exact absurd hstep nofun
      | some call =>
          simp only [hcall] at hstep
          split_ifs at hstep
          obtain rfl := some.inj hstep
          exact h.load hcall
  | failed i =>
      rw [LinkDataPlane.step] at hstep
      split_ifs at hstep
      obtain rfl := some.inj hstep
      exact h.finish i
  | checked i =>
      rw [LinkDataPlane.step] at hstep
      cases hfound : m.calls[i]?.bind fun call => call.record.map fun record => (call, record) with
      | none =>
          rw [hfound] at hstep
          exact absurd hstep nofun
      | some found =>
          obtain ⟨call,record⟩ := found
          simp only [hfound] at hstep
          obtain rfl := some.inj hstep
          obtain ⟨call',hcall,hrecord⟩ := bind_eq_some_iff.mp hfound
          obtain ⟨record',hrecord',heq⟩ := map_eq_some_iff.mp hrecord
          obtain ⟨rfl,rfl⟩ := Prod.mk.inj heq
          exact h.check C hcall (horderly call' hcall record' hrecord')
  | prunedExpired =>
      obtain rfl := some.inj hstep
      exact h.retain horderly

/-- In every run of orderly steps, no request is accepted twice. -/
theorem run_accepts_once {clock : ℤ} {store : List PairingResponder.PeerRecord} {as : List Label}
    (hm : Meets (LinkDataPlane.step C) (Orderly C) (new clock store) as)
    (h : exec (LinkDataPlane.step C) (new clock store) as = some m) :
    (m.accepted.map (·.request)).Nodup := by
  have hstep : ∀ s a t, Inv s → Orderly C s a → LinkDataPlane.step C s a = some t → Inv t :=
    fun s a t hs ha hstep => hs.step C ha hstep
  exact (exec_invariant_of_meets hstep (inv_new clock store) hm h).once

/-! ## Examples of runs -/

instance (m : LinkManager) (now : ℤ) : Decidable (ForgetsInTime m now) :=
  inferInstanceAs (Decidable (∀ e ∈ m.seenNonces, linkAuthSkewSecs < now - e.seenTs →
    linkAuthSkewSecs < now - e.request.ts))

instance (m : LinkManager) (call : Call) : Decidable (CheckOrderly m call) :=
  decidable_of_iff (ForgetsInTime m call.now ∧
      ∀ e ∈ m.forgotten, nonceKey e.1 = nonceKey call.request → e.2 ≤ call.now)
    ⟨fun h => ⟨h.1,h.2⟩,fun h => ⟨h.inTime,h.notBefore⟩⟩

instance : ∀ m a, Decidable (Orderly C m a)
  | m, .prunedExpired => inferInstanceAs (Decidable (ForgetsInTime m m.clock))
  | m, .checked i => inferInstanceAs (Decidable (∀ call ∈ m.calls[i]?, ∀ record ∈ call.record,
      verified C call record = true → CheckOrderly m call))
  | _, .clockSet _ | _, .stored _ | _, .arrived _ | _, .loaded _ | _, .failed _ => isTrue trivial

/-- A request is sent at once, again later, and once more after the nonces were pruned. -/
def replayRun (ts : ℤ) : List Label :=
  let request := sampleRequest [1] "b" "n" ts [7]
  [.arrived request, .loaded 0, .checked 0, .clockSet 1010, .arrived request, .loaded 0, .checked 0,
    .clockSet 1121, .prunedExpired, .arrived request] ++
    if ts < 1001 then [] else [.loaded 0, .checked 0]

theorem run_accepts_once_replayed :
    ∃ m, exec (LinkDataPlane.step toy) (new 1000 [samplePeer "b" [1]]) (replayRun 1000) = some m ∧
      m.accepted.length = 1 ∧ (m.accepted.map (·.request)).Nodup := by
  have hm : Meets (LinkDataPlane.step toy) (Orderly toy) (new 1000 [samplePeer "b" [1]])
      (replayRun 1000) := by decide +kernel
  have hrun : (exec (LinkDataPlane.step toy) (new 1000 [samplePeer "b" [1]]) (replayRun 1000)).any
      (fun m => m.accepted.length = 1) = true := by decide +kernel
  obtain ⟨m,h,hlength⟩ := (any_eq_true _ _).mp hrun
  exact ⟨m,h,of_decide_eq_true hlength,run_accepts_once toy hm h⟩

/-- A request whose time is ahead of the clock is accepted again after its nonce is forgotten. -/
theorem request_accepted_twice :
    ∃ m, exec (LinkDataPlane.step toy) (new 1000 [samplePeer "b" [1]]) (replayRun 1060) = some m ∧
      m.accepted.map (·.request) =
        [sampleRequest [1] "b" "n" 1060 [7], sampleRequest [1] "b" "n" 1060 [7]] := by
  have hrun : (exec (LinkDataPlane.step toy) (new 1000 [samplePeer "b" [1]]) (replayRun 1060)).any
      (fun m => m.accepted.map (·.request) =
        [sampleRequest [1] "b" "n" 1060 [7], sampleRequest [1] "b" "n" 1060 [7]]) = true := by
    decide +kernel
  obtain ⟨m,h,hfacts⟩ := (any_eq_true _ _).mp hrun
  exact ⟨m,h,of_decide_eq_true hfacts⟩

end RinaDown.LinkDataPlane
