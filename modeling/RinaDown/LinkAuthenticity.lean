import Mathlib
import RinaDown.LinkNetwork

/-!
# Who has sent an accepted request

The fields that are authenticated cannot be confused, since a dispatched request has no
newline in its fields. A tag that verifies is thus that of a dispatched request, and its
secret is that of the two devices. Nothing in the tag tells in which direction it was sent,
so a request is authentic unless it is one that its receiver has dispatched.
-/

namespace RinaDown.LinkNetwork

open LengthFraming LinkCrypto LinkDataPlane LabelledExecutions JoinedFields
open Option hiding toArray toList_toArray
open List hiding Vector
open PairingResponder (PeerRecord)

/-! ## Fields without a newline -/

theorem eq_newline_of_mem {c : Char} (h : newline ∈ String.utf8EncodeChar c) : c = '\n' := by
  have hbyte : ∀ n, newline = UInt8.ofNat n → n % 256 = 10 := by
    intro n hn
    have hvalue := congrArg UInt8.toNat hn
    rw [UInt8.toNat_ofNat'] at hvalue
    exact hvalue.symm
  revert h
  fun_cases String.utf8EncodeChar c with
  | case1 v hv =>
      intro h
      have hmod := hbyte _ (mem_singleton.mp h)
      have hval : c.val.toNat = 10 := by omega
      exact Char.ext (UInt32.toNat_inj.mp hval)
  | case2 v =>
      intro h
      simp only [mem_cons, not_mem_nil, or_false] at h
      rcases h with h | h <;> have := hbyte _ h <;> omega
  | case3 v =>
      intro h
      simp only [mem_cons, not_mem_nil, or_false] at h
      rcases h with h | h | h <;> have := hbyte _ h <;> omega
  | case4 v =>
      intro h
      simp only [mem_cons, not_mem_nil, or_false] at h
      rcases h with h | h | h | h <;> have := hbyte _ h <;> omega

theorem newline_notMem_asBytes {s : String} (h : '\n' ∉ s.toList) : newline ∉ asBytes s := by
  intro hmem
  rw [asBytes, ← String.utf8Encode_toList, utf8Encode, data_toByteArray,
    toList_toArray, mem_flatMap] at hmem
  obtain ⟨c,hc,hbyte⟩ := hmem
  exact h (eq_newline_of_mem hbyte ▸ hc)

theorem newline_notMem_toString (z : ℤ) : '\n' ∉ (toString z).toList := by
  have hdigits : ∀ n, '\n' ∉ Nat.toDigits 10 n := fun n h =>
    absurd (Nat.isDigit_of_mem_toDigits (by decide) (by decide) h) (by decide)
  cases z with
  | ofNat n =>
      change '\n' ∉ n.repr.toList
      rw [Nat.toList_repr]
      exact hdigits n
  | negSucc n =>
      change '\n' ∉ ("-" ++ n.succ.repr).toList
      rw [String.toList_append, Nat.toList_repr, mem_append, not_or]
      exact ⟨by decide,hdigits _⟩

theorem newline_notMem_hexEncode (bytes : Bytes) : '\n' ∉ (hexEncode bytes).toList := by
  have hdigit : ∀ n < 16, Nat.digitChar n ≠ '\n' := by decide
  rw [hexEncode, String.toList_ofList, mem_flatMap]
  rintro ⟨b,-,hb⟩
  have hbyte := b.toNat_lt
  simp only [mem_cons, not_mem_nil, or_false] at hb
  rcases hb with hb | hb
  · exact hdigit _ (by omega) hb.symm
  · exact hdigit _ (by omega) hb.symm

variable {C : Ciphers}

/-- Two inputs are equal only if their fields and the digests of their bodies are, as soon as
the fields of one of them have no newline. -/
theorem macInput_inj {method path nonce method' path' nonce' : String} {ts ts' : ℤ}
    {body body' : Bytes} (hmethod : '\n' ∉ method.toList) (hpath : '\n' ∉ path.toList)
    (hnonce : '\n' ∉ nonce.toList)
    (h : macInput C method path ts nonce body = macInput C method' path' ts' nonce' body') :
    method = method' ∧ path = path' ∧ ts = ts' ∧ nonce = nonce' ∧
      C.sha256 body = C.sha256 body' := by
  obtain ⟨hfields,hdigest⟩ := append_inj' h (by
    rw [length_cons, length_cons, C.length_sha256, C.length_sha256])
  have hfree : ∀ x ∈ [asBytes method, asBytes path, asBytes (toString ts), asBytes nonce],
      newline ∉ x := by
    simp only [forall_mem_cons]
    exact ⟨newline_notMem_asBytes hmethod,newline_notMem_asBytes hpath,
      newline_notMem_asBytes (newline_notMem_toString ts),newline_notMem_asBytes hnonce,
      fun _ hx => absurd hx not_mem_nil⟩
  have hlist := joined_inj (by rfl) hfree hfields
  simp only [List.cons.injEq, and_true] at hlist
  obtain ⟨h1,h2,h3,h4⟩ := hlist
  exact ⟨asBytes_injective h1,asBytes_injective h2,Int.repr_injective (asBytes_injective h3),
    asBytes_injective h4,tail_eq_of_cons_eq hdigest⟩

/-! ## One device -/

section Manager

variable {m m' : LinkManager}

/-- What a check adds to the accepted requests. -/
structure AcceptedBy (C : Ciphers) (call : Call) (record : PeerRecord) (a : Acceptance) : Prop where
  verified : LinkManager.verified C call record = true
  request : a.request = call.request
  linkSecret : a.linkSecret = record.linkSecret
  device : a.result.device = call.request.device
  opened : openLinkBody C (deriveLinkAeadKey C record.linkSecret) call.request.body =
    some a.result.body

theorem mem_accepted_check {i : ℕ} {call : Call} {record : PeerRecord} {a : Acceptance}
    (ha : a ∈ (m.check C i call record).accepted) :
    a ∈ m.accepted ∨ AcceptedBy C call record a := by
  rw [LinkManager.check] at ha
  by_cases hverified : LinkManager.verified C call record = true
  · simp only [hverified, if_true, LinkManager.checkNonce] at ha
    split_ifs at ha
    · exact .inl ha
    · rw [LinkManager.accept] at ha
      cases hopen : openLinkBody C (deriveLinkAeadKey C record.linkSecret) call.request.body with
      | none =>
          rw [hopen] at ha
          exact .inl ha
      | some body =>
          rw [hopen] at ha
          rcases mem_append.mp ha with hold | hnew
          · exact .inl hold
          · obtain rfl := mem_singleton.mp hnew
            exact .inr ⟨hverified,rfl,rfl,rfl,hopen⟩
  · rw [if_neg hverified] at ha
    exact .inl ha

theorem mem_calls_check {i : ℕ} {call other : Call} {record : PeerRecord}
    (h : other ∈ (m.check C i call record).calls) : other ∈ m.calls := by
  have hcalls : (m.check C i call record).calls = m.calls.eraseIdx i := by
    rw [LinkManager.check]
    split_ifs
    · simp only [LinkManager.checkNonce]
      split_ifs
      · rfl
      · rw [LinkManager.accept]
        cases openLinkBody C (deriveLinkAeadKey C record.linkSecret) call.request.body <;> rfl
    · rfl
  rw [hcalls] at h
  exact mem_of_mem_eraseIdx h

theorem store_check (i : ℕ) (call : Call) (record : PeerRecord) :
    (m.check C i call record).store = m.store := by
  rw [LinkManager.check]
  split_ifs
  · simp only [LinkManager.checkNonce]
    split_ifs
    · rfl
    · rw [LinkManager.accept]
      cases openLinkBody C (deriveLinkAeadKey C record.linkSecret) call.request.body <;> rfl
  · rfl

end Manager

/-! ## The invariant -/

variable {agreed : Agreement}

/-- The device that is named as the sender has dispatched the plaintext to the receiver. -/
def Authentic (dispatched : List Dispatch) (x : Device) (a : Acceptance) : Prop :=
  ∃ e ∈ dispatched, e.device = a.result.device ∧ e.peer = x.fingerprint ∧
    e.method = a.request.method ∧ e.path = a.request.path ∧ e.plaintext = a.result.body

structure Genuine (C : Ciphers) (agreed : Agreement) (e : Dispatch) : Prop where
  held : ∀ pair ∈ agreed e.linkSecret, pair = (e.device, e.peer) ∨ pair = (e.peer, e.device)
  method : '\n' ∉ e.method.toList
  path : '\n' ∉ e.path.toList
  nonce : '\n' ∉ e.nonce.toList
  sealed : ∃ aeadNonce, e.body =
    sealLinkBody C (deriveLinkAeadKey C e.linkSecret) aeadNonce e.plaintext

structure DeviceInv (agreed : Agreement) (dispatched : List Dispatch) (x : Device) : Prop where
  store : ∀ record ∈ x.manager.store, HeldBy agreed x.fingerprint record
  calls : ∀ call ∈ x.manager.calls, ∀ record ∈ call.record,
    record.fingerprint = call.request.device ∧ HeldBy agreed x.fingerprint record
  accepted : ∀ a ∈ x.manager.accepted, (agreed a.linkSecret).isSome = true →
    Authentic dispatched x a

structure Inv (C : Ciphers) (agreed : Agreement) (s : Network) : Prop where
  devices : ∀ x ∈ s.devices, DeviceInv agreed s.dispatched x
  dispatched : ∀ e ∈ s.dispatched, Genuine C agreed e

/-- The request is one that the device has dispatched to the device named as its sender. -/
def Reflects (dispatched : List Dispatch) (x : Device) (request : Request) : Prop :=
  ∃ e ∈ dispatched, e.device = x.fingerprint ∧ e.peer = request.device ∧
    e.method = request.method ∧ e.path = request.path ∧ e.ts = request.ts ∧
    e.nonce = request.nonce ∧ e.body = request.body

def Orderly (s : Network) : Label → Prop
  | .manager d (.checked i) => ∀ x ∈ s.devices[d]?, ∀ call ∈ x.manager.calls[i]?,
      ¬ Reflects s.dispatched x call.request
  | _ => True

/-! ## One step -/

variable {s t : Network} {x : Device} {m : LinkManager}

theorem DeviceInv.of_accepted {dispatched : List Dispatch} (h : DeviceInv agreed dispatched x)
    (haccepted : m.accepted = x.manager.accepted)
    (hstore : ∀ record ∈ m.store, HeldBy agreed x.fingerprint record)
    (hcalls : ∀ call ∈ m.calls, ∀ record ∈ call.record,
      record.fingerprint = call.request.device ∧ HeldBy agreed x.fingerprint record) :
    DeviceInv agreed dispatched { x with manager := m } := by
  refine ⟨hstore,hcalls,fun a ha => ?_⟩
  rw [haccepted] at ha
  exact h.accepted a ha

/-- A request that is verified and no reflection is authentic. -/
theorem authentic_of_verified (h : Inv C agreed s) {call : Call} {record : PeerRecord}
    {a : Acceptance} (ha : AcceptedBy C call record a)
    (hdevice : record.fingerprint = call.request.device)
    (hheld : HeldBy agreed x.fingerprint record) (hagreed : (agreed a.linkSecret).isSome = true)
    (hforged : ¬ s.Forged C agreed call record) (hcollides : ¬ s.Collides C call.request.body)
    (hreflects : ¬ Reflects s.dispatched x call.request) : Authentic s.dispatched x a := by
  rw [ha.linkSecret] at hagreed
  have hcomputed : ∃ e ∈ s.dispatched, e.linkSecret = record.linkSecret ∧
      macInput C e.method e.path e.ts e.nonce e.body =
        macInput C call.request.method call.request.path call.request.ts call.request.nonce
          call.request.body := by
    by_contra hnone
    refine hforged ⟨ha.verified,hagreed,fun e he hsecret heq => hnone ⟨e,he,hsecret,heq⟩⟩
  obtain ⟨e,he,hsecret,hinput⟩ := hcomputed
  have hgenuine := h.dispatched e he
  obtain ⟨hmethod,hpath,hts,hnonce,hdigest⟩ :=
    macInput_inj hgenuine.method hgenuine.path hgenuine.nonce hinput
  have hbody : e.body = call.request.body := by
    by_contra hne
    exact hcollides ⟨e,he,hdigest,hne⟩
  have hplaintext : a.result.body = e.plaintext := by
    obtain ⟨aeadNonce,hsealed⟩ := hgenuine.sealed
    have hopened := ha.opened
    rw [← hbody, hsealed, hsecret] at hopened
    exact openLinkBody_seal C hopened
  obtain ⟨pair,hpair⟩ := isSome_iff_exists.mp hagreed
  have hends : e.device = record.fingerprint ∧ e.peer = x.fingerprint ∨
      e.device = x.fingerprint ∧ e.peer = record.fingerprint := by
    have hsent := hgenuine.held pair (by rw [hsecret]; exact hpair)
    rcases hheld pair hpair with rfl | rfl <;> rcases hsent with hsent | hsent <;>
      obtain ⟨h1,h2⟩ := Prod.mk.inj hsent <;> simp [h1, h2]
  rcases hends with ⟨hfrom,hto⟩ | ⟨hfrom,hto⟩
  · refine ⟨e,he,?_,hto,?_,?_,hplaintext.symm⟩
    · rw [hfrom, hdevice, ha.device]
    · rw [hmethod, ha.request]
    · rw [hpath, ha.request]
  · exact absurd ⟨e,he,hfrom,hto.trans hdevice,hmethod,hpath,hts,hnonce,hbody⟩ hreflects

theorem get_mem {fingerprint : String} {record : PeerRecord}
    (h : m.get fingerprint = some record) : record ∈ m.store ∧ record.fingerprint = fingerprint := by
  rw [LinkManager.get] at h
  have hfound := find?_some h
  rw [decide_eq_true_eq] at hfound
  exact ⟨mem_of_find?_eq_some h,hfound⟩

theorem DeviceInv.step (hs : Inv C agreed s) (h : DeviceInv agreed s.dispatched x)
    {a : LinkDataPlane.Label} (hallows : s.Allows C agreed x a)
    (hreflects : ∀ i, a = .checked i → ∀ call ∈ x.manager.calls[i]?,
      ¬ Reflects s.dispatched x call.request)
    (hstep : LinkDataPlane.step C x.manager a = some m) :
    DeviceInv agreed s.dispatched { x with manager := m } := by
  cases a with
  | clockSet now =>
      obtain rfl := some.inj hstep
      exact h.of_accepted rfl h.store h.calls
  | stored store =>
      obtain rfl := some.inj hstep
      exact h.of_accepted rfl hallows h.calls
  | arrived request =>
      obtain rfl := some.inj hstep
      rw [LinkManager.arrive]
      split_ifs
      · refine h.of_accepted rfl h.store fun call hcall => ?_
        rcases mem_append.mp hcall with hold | hnew
        · exact h.calls call hold
        · obtain rfl := mem_singleton.mp hnew
          exact fun _ hrecord => absurd hrecord (not_mem_none _)
      · exact h.of_accepted rfl h.store h.calls
  | loaded i =>
      rw [LinkDataPlane.step] at hstep
      cases hcall : x.manager.calls[i]? with
      | none =>
          rw [hcall] at hstep
          exact absurd hstep nofun
      | some call =>
          simp only [hcall] at hstep
          split_ifs at hstep
          obtain rfl := some.inj hstep
          rw [LinkManager.load]
          cases hget : x.manager.get call.request.device with
          | none =>
              exact h.of_accepted rfl h.store fun other hother =>
                h.calls other (mem_of_mem_eraseIdx hother)
          | some record =>
              refine h.of_accepted rfl h.store fun other hother => ?_
              obtain ⟨hmem,hfingerprint⟩ := get_mem hget
              rcases mem_or_eq_of_mem_set hother with hold | rfl
              · exact h.calls other hold
              · intro found hfound
                obtain rfl := some.inj hfound
                exact ⟨hfingerprint,h.store record hmem⟩
  | failed i =>
      rw [LinkDataPlane.step] at hstep
      split_ifs at hstep
      obtain rfl := some.inj hstep
      exact h.of_accepted rfl h.store fun other hother =>
        h.calls other (mem_of_mem_eraseIdx hother)
  | checked i =>
      rw [LinkDataPlane.step] at hstep
      cases hfound : x.manager.calls[i]?.bind fun call =>
          call.record.map fun record => (call, record) with
      | none =>
          rw [hfound] at hstep
          exact absurd hstep nofun
      | some found =>
          obtain ⟨call,record⟩ := found
          simp only [hfound] at hstep
          obtain rfl := some.inj hstep
          obtain ⟨call',hcall,hmap⟩ := bind_eq_some_iff.mp hfound
          obtain ⟨record',hrecord,heq⟩ := map_eq_some_iff.mp hmap
          obtain ⟨rfl,rfl⟩ := Prod.mk.inj heq
          obtain ⟨hforged,hcollides⟩ := hallows call' hcall record' hrecord
          obtain ⟨hdevice,hheld⟩ := h.calls call' (mem_of_getElem? hcall) record' hrecord
          refine ⟨?_,fun other hother => h.calls other (mem_calls_check hother),?_⟩
          · rw [store_check]
            exact h.store
          · intro acceptance hacceptance hagreed
            rcases mem_accepted_check hacceptance with hold | hnew
            · exact h.accepted acceptance hold hagreed
            · exact authentic_of_verified hs hnew hdevice hheld hagreed hforged hcollides
                (hreflects i rfl call' hcall)
  | prunedExpired =>
      obtain rfl := some.inj hstep
      exact h.of_accepted rfl h.store h.calls

theorem DeviceInv.dispatched {dispatched : List Dispatch} (h : DeviceInv agreed dispatched x)
    (e : Dispatch) : DeviceInv agreed (dispatched ++ [e]) x := by
  refine ⟨h.store,h.calls,fun a ha hagreed => ?_⟩
  obtain ⟨f,hf,hfacts⟩ := h.accepted a ha hagreed
  exact ⟨f,mem_append_left _ hf,hfacts⟩

theorem genuine_dispatch {record : PeerRecord} (hheld : HeldBy agreed x.fingerprint record)
    (plaintext : Bytes) (uuid : Vector UInt8 16) (aeadNonce : Vector UInt8 12) :
    Genuine C agreed (x.dispatch C record plaintext uuid aeadNonce) := by
  constructor
  · exact hheld
  · change '\n' ∉ "POST".toList
    decide
  · change '\n' ∉ "/api/v1/link/tasks".toList
    decide
  · exact newline_notMem_hexEncode _
  · exact ⟨aeadNonce,rfl⟩

theorem Inv.step (h : Inv C agreed s) {a : Label} (horderly : Orderly s a)
    (hstep : step C agreed s a = some t) : Inv C agreed t := by
  cases a with
  | dispatched d fingerprint plaintext uuid aeadNonce =>
      obtain ⟨x,hx,hstep⟩ := bind_eq_some_iff.mp hstep
      obtain ⟨record,hrecord,hstep⟩ := bind_eq_some_iff.mp hstep
      obtain rfl := some.inj hstep
      have hheld := (h.devices x (mem_of_getElem? hx)).store record (get_mem hrecord).1
      refine ⟨fun y hy => (h.devices y hy).dispatched _,fun e he => ?_⟩
      rcases mem_append.mp he with hold | hnew
      · exact h.dispatched e hold
      · obtain rfl := mem_singleton.mp hnew
        exact genuine_dispatch hheld plaintext uuid aeadNonce
  | manager d label =>
      rw [LinkNetwork.step] at hstep
      cases hx : s.devices[d]? with
      | none =>
          rw [hx] at hstep
          exact absurd hstep nofun
      | some x =>
          simp only [hx] at hstep
          split_ifs at hstep with hallows
          obtain ⟨m,hm,rfl⟩ := map_eq_some_iff.mp hstep
          have hdevice := h.devices x (mem_of_getElem? hx)
          have hnew : DeviceInv agreed s.dispatched { x with manager := m } := by
            refine DeviceInv.step h hdevice hallows (fun i hi => ?_) hm
            subst hi
            exact horderly x hx
          refine ⟨fun y hy => ?_,h.dispatched⟩
          rcases mem_or_eq_of_mem_set hy with hold | rfl
          · exact h.devices y hold
          · exact hnew

theorem Initial.inv (h : Initial agreed s) : Inv C agreed s := by
  refine ⟨fun x hx => ?_,fun e he => ?_⟩
  · obtain ⟨clock,store,hmanager,hstore⟩ := h.managers x hx
    refine ⟨?_,?_,?_⟩
    · rw [hmanager]
      exact hstore
    · rw [hmanager]
      exact fun _ hcall => absurd hcall not_mem_nil
    · rw [hmanager]
      exact fun _ ha => absurd ha not_mem_nil
  · rw [h.dispatched] at he
    exact absurd he not_mem_nil

/-- In every run of orderly steps, a request that is accepted under a secret that the attacker
does not know was dispatched to the device by the device named as its sender. -/
theorem run_authentic {as : List Label} (hs : Initial agreed s)
    (hm : Meets (LinkNetwork.step C agreed) Orderly s as)
    (h : exec (LinkNetwork.step C agreed) s as = some t) :
    ∀ x ∈ t.devices, ∀ a ∈ x.manager.accepted, (agreed a.linkSecret).isSome = true →
      Authentic t.dispatched x a := by
  have hstep : ∀ s a t, Inv C agreed s → Orderly s a → LinkNetwork.step C agreed s a = some t →
      Inv C agreed t := fun s a t hs ha hstep => hs.step ha hstep
  exact fun x hx => ((exec_invariant_of_meets hstep hs.inv hm h).devices x hx).accepted

/-! ## Examples of runs -/

instance (dispatched : List Dispatch) (x : Device) (request : Request) :
    Decidable (Reflects dispatched x request) :=
  inferInstanceAs (Decidable (∃ e ∈ dispatched, _))

instance (dispatched : List Dispatch) (x : Device) (a : Acceptance) :
    Decidable (Authentic dispatched x a) :=
  inferInstanceAs (Decidable (∃ e ∈ dispatched, _))

instance : ∀ s a, Decidable (Orderly s a)
  | s, .manager d (.checked i) => inferInstanceAs (Decidable (∀ x ∈ s.devices[d]?,
      ∀ call ∈ x.manager.calls[i]?, ¬ Reflects s.dispatched x call.request))
  | _, .dispatched .. => isTrue trivial
  | _, .manager _ (.clockSet _) | _, .manager _ (.stored _) | _, .manager _ (.arrived _)
  | _, .manager _ (.loaded _) | _, .manager _ (.failed _) | _, .manager _ .prunedExpired =>
      isTrue trivial

def pairedNetwork : Network where
  devices := [⟨"a",LinkManager.new 1000 [samplePeer "b" [1]]⟩,
    ⟨"b",LinkManager.new 1000 [samplePeer "a" [1]]⟩]
  dispatched := []

def pairAgreed : Agreement := fun linkSecret => if linkSecret = [1] then some ("a", "b") else none

theorem pairedNetwork_initial : Initial pairAgreed pairedNetwork := by
  refine ⟨?_,rfl⟩
  rw [pairedNetwork, forall_mem_cons, forall_mem_singleton]
  exact ⟨⟨1000,_,rfl,by decide⟩,⟨1000,_,rfl,by decide⟩⟩

def sampleDispatch : Dispatch :=
  Device.dispatch toy ⟨"a",LinkManager.new 1000 [samplePeer "b" [1]]⟩ (samplePeer "b" [1]) [7]
    (Vector.replicate 16 0) (Vector.replicate 12 0)

/-- The first device dispatches a task, and a device receives a request. -/
def deliveredRun (d : ℕ) (request : Request) : List Label :=
  [.dispatched 0 "b" [7] (Vector.replicate 16 0) (Vector.replicate 12 0),
    .manager d (.arrived request), .manager d (.loaded 0), .manager d (.checked 0)]

theorem run_authentic_delivered :
    ∃ t, exec (LinkNetwork.step toy pairAgreed) pairedNetwork
        (deliveredRun 1 (sampleDispatch.request toy)) = some t ∧
      (∃ x ∈ t.devices, x.manager.accepted.length = 1) ∧
      ∀ x ∈ t.devices, ∀ a ∈ x.manager.accepted, (pairAgreed a.linkSecret).isSome = true →
        Authentic t.dispatched x a := by
  have hm : Meets (LinkNetwork.step toy pairAgreed) Orderly pairedNetwork
      (deliveredRun 1 (sampleDispatch.request toy)) := by decide +kernel
  have hrun : (exec (LinkNetwork.step toy pairAgreed) pairedNetwork
      (deliveredRun 1 (sampleDispatch.request toy))).any
      (fun t => ∃ x ∈ t.devices, x.manager.accepted.length = 1) = true := by decide +kernel
  obtain ⟨t,h,haccepted⟩ := (any_eq_true _ _).mp hrun
  exact ⟨t,h,of_decide_eq_true haccepted,run_authentic pairedNetwork_initial hm h⟩

/-- A request that comes back to its sender is accepted as one of the peer. -/
theorem reflected_request_accepted :
    ∃ t, exec (LinkNetwork.step toy pairAgreed) pairedNetwork
        (deliveredRun 0 { sampleDispatch.request toy with device := "b" }) = some t ∧
      ∃ x ∈ t.devices, ∃ a ∈ x.manager.accepted, (pairAgreed a.linkSecret).isSome = true ∧
        ¬ Authentic t.dispatched x a := by
  have hrun : (exec (LinkNetwork.step toy pairAgreed) pairedNetwork
      (deliveredRun 0 { sampleDispatch.request toy with device := "b" })).any (fun t =>
        ∃ x ∈ t.devices, ∃ a ∈ x.manager.accepted, (pairAgreed a.linkSecret).isSome = true ∧
          ¬ Authentic t.dispatched x a) = true := by decide +kernel
  obtain ⟨t,h,hfacts⟩ := (any_eq_true _ _).mp hrun
  exact ⟨t,h,of_decide_eq_true hfacts⟩

end RinaDown.LinkNetwork
