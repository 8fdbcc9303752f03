import RinaDown.PairingResponder

/-!
# Pairing over an open network

Devices with a responder each, the initiators that they start, and a network in which every
message comes from the attacker. A message is refused as a step only where it would be a forgery.
Fresh random keys are fresh. The owners and the keys seen, the hellos and the answers are the
history of the run.
-/

namespace RinaDown.PairingNetwork
open LengthFraming LinkCrypto PairingResponder

universe u

variable {Secret Signing Signature : Type u}

structure Negotiated where
  z : Key
  responderIdPub : Key
  responderName : String
  responderPlatform : Option String
  responderAddr : String
  deriving DecidableEq

/-- The ephemeral key and the authentication string of the last accepted response. -/
structure Answer where
  responderEphPub : Key
  sas : String
  deriving DecidableEq

structure PairingInitiator (Secret Signing : Type u) where
  identity : Signing
  ephSecret : Secret
  ephPub : Key
  negotiated : Option Negotiated
  hellos : List InitFields
  answer : Option Answer

namespace PairingInitiator

variable (P : Primitives Secret Signing Signature) (i : PairingInitiator Secret Signing)

def new (identity : Signing) (ephSecret : Secret) : PairingInitiator Secret Signing :=
  ⟨identity,ephSecret,P.ephPub ephSecret,none,[],none⟩

/-- The fields of `build_hello`, which it signs. -/
def fields (code : String) (selfInfo : SelfInfo) (initiatorAddrs : List String) : InitFields :=
  ⟨code,i.ephPub,P.identityPub i.identity,selfInfo.name,selfInfo.platform,selfInfo.appVersion,
    initiatorAddrs⟩

def buildHello (code : String) (selfInfo : SelfInfo) (initiatorAddrs : List String) :
    HelloRequest Signature :=
  let f := i.fields P code selfInfo initiatorAddrs
  ⟨f,P.sign i.identity (transcriptInit f)⟩

def onHelloResponse (response : HelloResponse Signature) (responderAddr : String) :
    Except LinkError (String × PairingInitiator Secret Signing) :=
  if response.responderIdPub = P.identityPub i.identity then .error .selfPairing
  else if !P.verify response.responderIdPub (transcriptResp response.responderEphPub i.ephPub)
      response.responderSig then .error .badSignature
  else
    let z := P.diffieHellman i.ephSecret response.responderEphPub
    if isAllZero z then .error (.badPayload "degenerate x25519 public key")
    else
      let sas := P.deriveSas z i.ephPub response.responderEphPub
      .ok (sas, { i with
        negotiated := some ⟨z,response.responderIdPub,response.name,response.platform,
          responderAddr⟩
        answer := some ⟨response.responderEphPub,sas⟩ })

/-- `finalize`, at a time in seconds. -/
def finalize (now : ℕ) : Except LinkError PeerRecord :=
  match i.negotiated with
  | none => .error .sessionExpired
  | some n =>
    .ok ⟨P.fingerprint n.responderIdPub.toList,n.responderIdPub.toList,n.responderName,
      n.responderPlatform,P.deriveLinkKey n.z,[⟨.direct,n.responderAddr⟩],now,now⟩

end PairingInitiator

/-- Who has made an ephemeral key: an initiator, or the responder of a device for a code. -/
inductive Owner where
  | initiator (i : ℕ)
  | code (d : ℕ)
  deriving DecidableEq

structure Network (Secret Signing Signature : Type u) where
  devices : List (Responder Secret Signing Signature)
  initiators : List (PairingInitiator Secret Signing)
  owners : List (Key × Owner)
  seen : List Key

inductive Label (Secret Signature : Type u) where
  | newInitiator (d : ℕ) (secret : Secret)
  | buildHello (i : ℕ) (code : String) (selfInfo : SelfInfo) (initiatorAddrs : List String)
  | onHelloResponse (i : ℕ) (response : HelloResponse Signature) (responderAddr : String)
  | responder (d : ℕ) (label : PairingResponder.Label Secret Signature)

namespace Network

variable (P : Primitives Secret Signing Signature) (s : Network Secret Signing Signature)

/-- The key is the identity of a device. -/
def Honest (identityPub : Key) : Prop :=
  ∃ m ∈ s.devices, P.identityPub m.identity = identityPub

instance (identityPub : Key) : Decidable (s.Honest P identityPub) :=
  inferInstanceAs (Decidable (∃ m ∈ s.devices, P.identityPub m.identity = identityPub))

/-- A device with the identity has signed the bytes, in a hello or in a response. -/
def Signed (identityPub : Key) (message : Bytes) : Prop :=
  (∃ i ∈ s.initiators, P.identityPub i.identity = identityPub ∧
    ∃ f ∈ i.hellos, transcriptInit f = message) ∨
  ∃ m ∈ s.devices, P.identityPub m.identity = identityPub ∧
    ∃ o ∈ m.openings, transcriptResp o.response.responderEphPub o.request.fields.initEphPub = message

instance (identityPub : Key) (message : Bytes) : Decidable (s.Signed P identityPub message) :=
  inferInstanceAs (Decidable (_ ∨ _))

/-- The signature is valid, of a device, and not one that it has made. -/
def Forged (identityPub : Key) (message : Bytes) (signature : Signature) : Prop :=
  P.verify identityPub message signature ∧ s.Honest P identityPub ∧ ¬s.Signed P identityPub message

instance (identityPub : Key) (message : Bytes) (signature : Signature) :
    Decidable (s.Forged P identityPub message signature) :=
  inferInstanceAs (Decidable (_ ∧ _))

def modifyInitiator (i : ℕ) (f : PairingInitiator Secret Signing → PairingInitiator Secret Signing) :
    Network Secret Signing Signature :=
  { s with initiators := s.initiators.modify i f }

end Network

open Network in
/-- What the network lets a responder do, and the keys that come with it. -/
def responderStep (P : Primitives Secret Signing Signature) (s : Network Secret Signing Signature)
    (d : ℕ) : PairingResponder.Label Secret Signature → Option (Network Secret Signing Signature)
  | .generateCode _ secret =>
    if P.ephPub secret ∈ s.seen then none
    else some { s with
      owners := (P.ephPub secret, .code d) :: s.owners
      seen := P.ephPub secret :: s.seen }
  | .hello request _ =>
    if s.Forged P request.fields.initIdPub (transcriptInit request.fields) request.initiatorSig then
      none
    else some { s with seen := request.fields.initEphPub :: s.seen }
  | _ => some s

def step (P : Primitives Secret Signing Signature) (s : Network Secret Signing Signature) :
    Label Secret Signature → Option (Network Secret Signing Signature)
  | .newInitiator d secret =>
    match s.devices[d]? with
    | none => none
    | some m =>
      if P.ephPub secret ∈ s.seen then none
      else some { s with
        initiators := s.initiators ++ [.new P m.identity secret]
        owners := (P.ephPub secret, .initiator s.initiators.length) :: s.owners
        seen := P.ephPub secret :: s.seen }
  | .buildHello i code selfInfo initiatorAddrs =>
    if i < s.initiators.length then
      some (s.modifyInitiator i (fun initiator => { initiator with
        hellos := (initiator.buildHello P code selfInfo initiatorAddrs).fields :: initiator.hellos }))
    else none
  | .onHelloResponse i response responderAddr =>
    match s.initiators[i]? with
    | none => none
    | some initiator =>
      if s.Forged P response.responderIdPub
          (transcriptResp response.responderEphPub initiator.ephPub) response.responderSig then none
      else
        let t := { s with seen := response.responderEphPub :: s.seen }
        match initiator.onHelloResponse P response responderAddr with
        | .error _ => some t
        | .ok (_, next) => some (t.modifyInitiator i (fun _ => next))
  | .responder d label =>
    match s.devices[d]? with
    | none => none
    | some m =>
      match PairingResponder.step P m label, responderStep P s d label with
      | some n, some t => some { t with devices := t.devices.set d n }
      | _, _ => none

structure Initial (s : Network Secret Signing Signature) : Prop where
  devices : ∀ m ∈ s.devices, PairingResponder.Initial m
  initiators : s.initiators = []
  owners : s.owners = []
  seen : s.seen = []

end RinaDown.PairingNetwork
