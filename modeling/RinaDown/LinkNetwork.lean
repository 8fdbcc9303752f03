import RinaDown.LinkDataPlane

/-!
# Paired devices and an attacker

Every request that a device receives comes from the attacker, who has seen all requests that
were dispatched and chooses every field. A check is no step where it would verify a tag that
no device has computed, with a secret that the attacker does not know, or where the digest of
another body is that of a dispatched one. The dispatched requests are the history of the run.
-/

namespace RinaDown.LinkNetwork

open LengthFraming LinkDataPlane
open PairingResponder (PeerRecord)

structure Device where
  fingerprint : String
  manager : LinkManager
deriving DecidableEq

/-- A call of `dispatch`, with the secret that it has used and the request that it has sent. -/
structure Dispatch where
  device : String
  peer : String
  linkSecret : Bytes
  plaintext : Bytes
  method : String
  path : String
  ts : ℤ
  nonce : String
  body : Bytes
deriving DecidableEq

structure Network where
  devices : List Device
  dispatched : List Dispatch
deriving DecidableEq

inductive Label where
  | dispatched (d : ℕ) (fingerprint : String) (plaintext : Bytes) (uuid : Vector UInt8 16)
      (aeadNonce : Vector UInt8 12)
  | manager (d : ℕ) (label : LinkDataPlane.Label)
deriving DecidableEq

variable (C : Ciphers)

/-- What `dispatch` sends with the record of the peer. -/
def Device.dispatch (x : Device) (record : PeerRecord) (plaintext : Bytes) (uuid : Vector UInt8 16)
    (aeadNonce : Vector UInt8 12) : Dispatch where
  device := x.fingerprint
  peer := record.fingerprint
  linkSecret := record.linkSecret
  plaintext := plaintext
  method := "POST"
  path := "/api/v1/link/tasks"
  ts := x.manager.clock
  nonce := hexEncode uuid.toList
  body := sealLinkBody C (deriveLinkAeadKey C record.linkSecret) aeadNonce plaintext

def Dispatch.request (e : Dispatch) : Request where
  method := e.method
  path := e.path
  device := e.device
  ts := e.ts
  nonce := e.nonce
  body := e.body
  tag := linkAuthTag C e.linkSecret e.method e.path e.ts e.nonce e.body
  enc := "v1"

/-- The two devices for which a link secret was agreed, if the attacker does not know it. -/
abbrev Agreement := Bytes → Option (String × String)

variable (agreed : Agreement)

/-- A secret that the attacker does not know is held by its two devices only. -/
def HeldBy (fingerprint : String) (record : PeerRecord) : Prop :=
  ∀ pair ∈ agreed record.linkSecret,
    pair = (fingerprint, record.fingerprint) ∨ pair = (record.fingerprint, fingerprint)

instance (fingerprint : String) (record : PeerRecord) :
    Decidable (HeldBy agreed fingerprint record) :=
  inferInstanceAs (Decidable (∀ pair ∈ agreed record.linkSecret, _))

namespace Network

variable (s : Network)

/-- The tag verifies under a secret that the attacker does not know, and no device has
computed it. -/
def Forged (call : Call) (record : PeerRecord) : Prop :=
  LinkManager.verified C call record = true ∧ (agreed record.linkSecret).isSome = true ∧
    ∀ e ∈ s.dispatched, e.linkSecret = record.linkSecret →
      macInput C e.method e.path e.ts e.nonce e.body ≠
        macInput C call.request.method call.request.path call.request.ts call.request.nonce
          call.request.body

/-- Another body has the digest of one that was dispatched. -/
def Collides (body : Bytes) : Prop :=
  ∃ e ∈ s.dispatched, C.sha256 e.body = C.sha256 body ∧ e.body ≠ body

instance (call : Call) (record : PeerRecord) : Decidable (s.Forged C agreed call record) :=
  inferInstanceAs (Decidable (_ ∧ _ ∧ _))

instance (body : Bytes) : Decidable (s.Collides C body) :=
  inferInstanceAs (Decidable (∃ e ∈ s.dispatched, _))

/-- What the attacker and the pairing can bring about on a device. -/
def Allows (x : Device) : LinkDataPlane.Label → Prop
  | .stored store => ∀ record ∈ store, HeldBy agreed x.fingerprint record
  | .checked i => ∀ call ∈ x.manager.calls[i]?, ∀ record ∈ call.record,
      ¬ s.Forged C agreed call record ∧ ¬ s.Collides C call.request.body
  | _ => True

instance (x : Device) : ∀ a, Decidable (s.Allows C agreed x a)
  | .stored store => inferInstanceAs (Decidable (∀ record ∈ store, _))
  | .checked i => inferInstanceAs (Decidable (∀ call ∈ x.manager.calls[i]?, ∀ record ∈ call.record, _))
  | .clockSet _ | .arrived _ | .loaded _ | .failed _ | .prunedExpired => isTrue trivial

end Network

def step (s : Network) : Label → Option Network
  | .dispatched d fingerprint plaintext uuid aeadNonce => do
      let x ← s.devices[d]?
      let record ← x.manager.get fingerprint
      pure { s with dispatched := s.dispatched ++ [x.dispatch C record plaintext uuid aeadNonce] }
  | .manager d label =>
      match s.devices[d]? with
      | none => none
      | some x =>
          if s.Allows C agreed x label then
            (LinkDataPlane.step C x.manager label).map fun m =>
              { s with devices := s.devices.set d { x with manager := m } }
          else none

structure Initial (s : Network) : Prop where
  managers : ∀ x ∈ s.devices, ∃ clock store, x.manager = LinkManager.new clock store ∧
    ∀ record ∈ store, HeldBy agreed x.fingerprint record
  dispatched : s.dispatched = []

end RinaDown.LinkNetwork
