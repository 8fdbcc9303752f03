import RinaDown.LabelledExecutions
import RinaDown.LinkCrypto

/-!
# The responder of a pairing

`PairingResponder` keeps the pairing code, the sessions that wait for the
confirmation of both users, and the throttle for wrong codes, each behind a lock
of its own. A call is a sequence of lock sections, between which other calls may
run and time passes; `confirm` waits between two of them. Instants are
nanoseconds. The lists at the end of the state are the history of the run.
-/

namespace RinaDown.PairingResponder
open LengthFraming LinkCrypto List

universe u

variable {Secret Signing Signature : Type u}

def seconds (n : ℕ) : ℕ := n * 10 ^ 9

def codeTtl : ℕ := seconds 120

def sessionTtl : ℕ := seconds 180

def maxFailedHellos : ℕ := 10

def maxFailedHellosGlobal : ℕ := 200

def failedHelloWindow : ℕ := seconds 120

def maxFailedHelloRecords : ℕ := 64

def maxFailureBuckets : ℕ := 256

def unknownSourceKey : String := "unknown"

def localDecisionTimeout : ℕ := seconds 60

inductive LinkError where
  | throttled
  | selfPairing
  | invalidCode
  | badSignature
  | badPayload (detail : String)
  | sessionExpired
  | pairingTimeout
  | rejectedByPeer
  deriving DecidableEq, Repr

structure SelfInfo where
  name : String
  platform : Option String
  appVersion : Option String
  deriving DecidableEq

structure HelloRequest (Signature : Type u) where
  fields : InitFields
  initiatorSig : Signature

structure HelloResponse (Signature : Type u) where
  sessionId : String
  responderEphPub : Key
  responderIdPub : Key
  responderSig : Signature
  name : String
  platform : Option String
  appVersion : Option String
  sas : String

structure ConfirmEntry where
  z : Key
  initiatorIdPub : Key
  name : String
  platform : Option String
  initiatorAddrs : List String
  created : ℕ
  decision : Option Bool
  deriving DecidableEq

/-- A code that nobody has used yet; `serial` counts the codes before it. -/
structure CodeEntry (Secret : Type u) where
  code : String
  ephSecret : Secret
  created : ℕ
  serial : ℕ

inductive TransportKind where
  | direct
  | iroh
  | relay
  deriving DecidableEq, Repr

structure PeerCandidate where
  kind : TransportKind
  address : String
  deriving DecidableEq

structure PeerRecord where
  fingerprint : String
  identityPub : Bytes
  name : String
  platform : Option String
  linkSecret : Bytes
  candidates : List PeerCandidate
  pairedAt : ℕ
  lastSeenAt : ℕ
  deriving DecidableEq

/-- A `handle_hello` between two lock sections: before the throttle, before the codes, before its
failure is recorded, and with the secret of its code. -/
inductive HelloCall (Secret Signature : Type u) where
  | entered (request : HelloRequest Signature) (source : Option String)
  | unthrottled (request : HelloRequest Signature) (source : Option String)
  | failed (source : Option String)
  | opened (request : HelloRequest Signature) (secret : Secret) (serial : ℕ)

/-- A `handle_confirm(.., true)` between two lock sections or at its timer; `notified` tells that
`notify_waiters` has been called since it has made its future. -/
inductive ConfirmCall where
  | entered (sessionId : String)
  | deadlineKnown (sessionId : String) (deadline : ℕ)
  | looping (sessionId : String) (deadline : ℕ)
  | reading (sessionId : String) (deadline : ℕ) (notified : Bool)
  | undecided (sessionId : String) (deadline : ℕ) (notified : Bool)
  | waiting (sessionId : String) (deadline : ℕ) (notified : Bool)
  | removing (sessionId : String)
  | decided (sessionId : String) (decision : Bool)
  deriving DecidableEq

def ConfirmCall.sessionId : ConfirmCall → String
  | .entered sessionId => sessionId
  | .deadlineKnown sessionId _ => sessionId
  | .looping sessionId _ => sessionId
  | .reading sessionId _ _ => sessionId
  | .undecided sessionId _ _ => sessionId
  | .waiting sessionId _ _ => sessionId
  | .removing sessionId => sessionId
  | .decided sessionId _ => sessionId

/-- What `notify_waiters` does to a call. -/
def ConfirmCall.notify : ConfirmCall → ConfirmCall
  | .reading sessionId deadline _ => .reading sessionId deadline true
  | .undecided sessionId deadline _ => .undecided sessionId deadline true
  | .waiting sessionId deadline _ => .waiting sessionId deadline true
  | call => call

/-- A code that a hello has used: the codes generated by then, and its age. -/
structure Consumption where
  serial : ℕ
  code : String
  generated : ℕ
  age : ℕ
  deriving DecidableEq

/-- A session that a hello has opened. -/
structure Opening (Signature : Type u) where
  sessionId : String
  serial : ℕ
  request : HelloRequest Signature
  response : HelloResponse Signature
  z : Key
  created : ℕ

/-- A decision of the local user that `set_local_decision` has taken. -/
structure Decision where
  sessionId : String
  accept : Bool
  time : ℕ
  deriving DecidableEq

structure Responder (Secret Signing Signature : Type u) where
  identity : Signing
  selfInfo : SelfInfo
  codes : List (CodeEntry Secret)
  sessions : List (String × ConfirmEntry)
  failures : List (String × List ℕ)
  clock : ℕ
  hellos : List (HelloCall Secret Signature)
  confirms : List ConfirmCall
  notifies : ℕ
  generated : ℕ
  consumptions : List Consumption
  openings : List (Opening Signature)
  decisions : List Decision
  records : List (String × PeerRecord)
  errors : List LinkError

namespace Responder

variable (P : Primitives Secret Signing Signature) (m : Responder Secret Signing Signature)

def pruneCodes : Responder Secret Signing Signature :=
  { m with codes := m.codes.filter (fun c => m.clock - c.created < codeTtl) }

def pruneSessions : Responder Secret Signing Signature :=
  { m with sessions := m.sessions.filter (fun e => m.clock - e.2.created < sessionTtl) }

def pruneFailures : Responder Secret Signing Signature :=
  { m with
    failures := (m.failures.map (fun b =>
      (b.1, b.2.filter (fun t => m.clock - t < failedHelloWindow)))).filter (fun b => b.2 ≠ []) }

def failureBucketKey (source : Option String) : String := source.getD unknownSourceKey

def bucketOf (key : String) : Option (List ℕ) :=
  (m.failures.find? (fun b => b.1 = key)).map Prod.snd

/-- `entry(key).or_default()` with an update. -/
def updateBucket (key : String) (f : List ℕ → List ℕ) : Responder Secret Signing Signature :=
  if (m.bucketOf key).isSome then
    { m with failures := m.failures.map (fun b => if b.1 = key then (b.1, f b.2) else b) }
  else { m with failures := m.failures ++ [(key, f [])] }

def recordFailedHello (source : Option String) : Responder Secret Signing Signature :=
  let p := m.pruneFailures
  let own := failureBucketKey source
  let key := if (p.bucketOf own).isSome ∨ p.failures.length < maxFailureBuckets then own
    else unknownSourceKey
  p.updateBucket key (fun bucket =>
    (if bucket.length ≥ maxFailedHelloRecords then bucket.tail else bucket) ++ [m.clock])

/-- `is_throttled`, after its pruning. -/
def isThrottled (source : Option String) : Bool :=
  let p := m.pruneFailures
  (p.failures.map (fun b => b.2.length)).sum ≥ maxFailedHellosGlobal ∨
    (p.bucketOf (failureBucketKey source)).any (fun bucket => bucket.length ≥ maxFailedHellos)

def generateCode (code : String) (secret : Secret) : Responder Secret Signing Signature :=
  { m with
    codes := [⟨code,secret,m.clock,m.generated⟩]
    generated := m.generated + 1 }

def refuse (error : LinkError) : Responder Secret Signing Signature :=
  { m with errors := error :: m.errors }

def sessionOf (sessionId : String) : Option ConfirmEntry :=
  (m.sessions.find? (fun e => e.1 = sessionId)).map Prod.snd

def removeSession (sessionId : String) : Responder Secret Signing Signature :=
  { m with sessions := m.sessions.filter (fun e => e.1 ≠ sessionId) }

def addHello (call : HelloCall Secret Signature) : Responder Secret Signing Signature :=
  { m with hellos := m.hellos ++ [call] }

def addConfirm (call : ConfirmCall) : Responder Secret Signing Signature :=
  { m with confirms := m.confirms ++ [call] }

/-! ## Hello -/

/-- The throttle, and the guard against pairing with itself. -/
def checkThrottle (request : HelloRequest Signature) (source : Option String) :
    Responder Secret Signing Signature :=
  let p := m.pruneFailures
  if m.isThrottled source then p.refuse .throttled
  else if request.fields.initIdPub = P.identityPub m.identity then p.refuse .selfPairing
  else p.addHello (.unthrottled request source)

def takeCode (request : HelloRequest Signature) (source : Option String) :
    Responder Secret Signing Signature :=
  let p := m.pruneCodes
  match p.codes.find? (fun c => c.code = request.fields.code) with
  | none => p.addHello (.failed source)
  | some c =>
    { p.addHello (.opened request c.ephSecret c.serial) with
      codes := p.codes.eraseP (fun c => c.code = request.fields.code)
      consumptions := ⟨c.serial,c.code,m.generated,m.clock - c.created⟩ :: m.consumptions }

def response (request : HelloRequest Signature) (secret : Secret) (sessionId : String) :
    HelloResponse Signature :=
  let z := P.diffieHellman secret request.fields.initEphPub
  let responderEphPub := P.ephPub secret
  ⟨sessionId,responderEphPub,P.identityPub m.identity,
    P.sign m.identity (transcriptResp responderEphPub request.fields.initEphPub),m.selfInfo.name,
    m.selfInfo.platform,m.selfInfo.appVersion,
    P.deriveSas z request.fields.initEphPub responderEphPub⟩

def entryOf (request : HelloRequest Signature) (secret : Secret) : ConfirmEntry :=
  ⟨P.diffieHellman secret request.fields.initEphPub,request.fields.initIdPub,request.fields.name,
    request.fields.platform,request.fields.initiatorAddrs,m.clock,none⟩

/-- The signature, the key agreement and the lock section that opens the session. -/
def openSession (request : HelloRequest Signature) (secret : Secret) (serial : ℕ)
    (sessionId : String) : Responder Secret Signing Signature :=
  if !P.verify request.fields.initIdPub (transcriptInit request.fields) request.initiatorSig then
    m.refuse .badSignature
  else if isAllZero (P.diffieHellman secret request.fields.initEphPub) then
    m.refuse (.badPayload "degenerate x25519 public key")
  else
    let p := m.pruneSessions
    { p with
      sessions := (sessionId, m.entryOf P request secret) :: p.sessions
      openings := ⟨sessionId,serial,request,m.response P request secret sessionId,
        P.diffieHellman secret request.fields.initEphPub,m.clock⟩ :: m.openings }

/-! ## Decisions and confirmations -/

/-- The lock section of `set_local_decision`; `notify_waiters` follows. -/
def setLocalDecision (sessionId : String) (accept : Bool) : Responder Secret Signing Signature :=
  let p := m.pruneSessions
  match p.sessionOf sessionId with
  | none => p.refuse .sessionExpired
  | some _ =>
    { p with
      sessions := p.sessions.map (fun e =>
        if e.1 = sessionId then (e.1, { e.2 with decision := some accept }) else e)
      decisions := ⟨sessionId,accept,m.clock⟩ :: m.decisions
      notifies := m.notifies + 1 }

def notifyWaiters : Responder Secret Signing Signature :=
  { m with confirms := m.confirms.map ConfirmCall.notify, notifies := m.notifies - 1 }

def peerRecord (e : ConfirmEntry) : PeerRecord :=
  ⟨P.fingerprint e.initiatorIdPub.toList,e.initiatorIdPub.toList,e.name,e.platform,
    P.deriveLinkKey e.z,e.initiatorAddrs.map (fun a => ⟨.direct,a⟩),m.clock / 10 ^ 9,
    m.clock / 10 ^ 9⟩

def declineSession (sessionId : String) : Responder Secret Signing Signature :=
  let p := m.pruneSessions
  if (p.sessionOf sessionId).isSome then p.removeSession sessionId else p.refuse .sessionExpired

/-- The next step of a `handle_confirm(.., true)`; `none` while it waits. -/
def stepConfirm : ConfirmCall → Option (Responder Secret Signing Signature)
  | .entered sessionId =>
    let p := m.pruneSessions
    some (match p.sessionOf sessionId with
      | none => p.refuse .sessionExpired
      | some e => p.addConfirm (.deadlineKnown sessionId (e.created + localDecisionTimeout)))
  | .deadlineKnown sessionId deadline =>
    some (m.addConfirm (if deadline < m.clock then .removing sessionId
      else .looping sessionId deadline))
  | .looping sessionId deadline => some (m.addConfirm (.reading sessionId deadline false))
  | .reading sessionId deadline notified =>
    let p := m.pruneSessions
    some (match p.sessionOf sessionId with
      | none => p.refuse .sessionExpired
      | some e =>
        p.addConfirm (match e.decision with
          | some decision => .decided sessionId decision
          | none => .undecided sessionId deadline notified))
  | .undecided sessionId deadline notified =>
    some (m.addConfirm (if deadline < m.clock then .removing sessionId
      else .waiting sessionId deadline notified))
  | .waiting sessionId deadline notified =>
    if notified then some (m.addConfirm (.looping sessionId deadline))
    else if deadline ≤ m.clock then some (m.addConfirm (.removing sessionId))
    else none
  | .removing sessionId => some ((m.removeSession sessionId).refuse .pairingTimeout)
  | .decided sessionId decision =>
    some (match m.sessionOf sessionId with
      | none => m.refuse .sessionExpired
      | some e =>
        if decision then
          { m.removeSession sessionId with records := (sessionId, m.peerRecord P e) :: m.records }
        else (m.removeSession sessionId).refuse .rejectedByPeer)

end Responder

inductive Label (Secret Signature : Type u) where
  | tick (d : ℕ)
  | generateCode (code : String) (secret : Secret)
  | hello (request : HelloRequest Signature) (source : Option String)
  | checkThrottle (i : ℕ)
  | takeCode (i : ℕ)
  | recordFailedHello (i : ℕ)
  | openSession (i : ℕ) (sessionId : String)
  | setLocalDecision (sessionId : String) (accept : Bool)
  | notifyWaiters
  | confirm (sessionId : String)
  | decline (sessionId : String)
  | stepConfirm (i : ℕ)
  | pruneCodes
  | pruneSessions
  | pruneFailures

/-- One step of a call; a hello or a confirmation under way is named by its place. -/
def step (P : Primitives Secret Signing Signature) (m : Responder Secret Signing Signature) :
    Label Secret Signature → Option (Responder Secret Signing Signature)
  | .tick d => some { m with clock := m.clock + d }
  | .generateCode code secret => some (m.generateCode code secret)
  | .hello request source => some (m.addHello (.entered request source))
  | .checkThrottle i =>
    match m.hellos[i]? with
    | some (.entered request source) =>
      some ({ m with hellos := m.hellos.eraseIdx i }.checkThrottle P request source)
    | _ => none
  | .takeCode i =>
    match m.hellos[i]? with
    | some (.unthrottled request source) =>
      some ({ m with hellos := m.hellos.eraseIdx i }.takeCode request source)
    | _ => none
  | .recordFailedHello i =>
    match m.hellos[i]? with
    | some (.failed source) =>
      some (({ m with hellos := m.hellos.eraseIdx i }.recordFailedHello source).refuse .invalidCode)
    | _ => none
  | .openSession i sessionId =>
    match m.hellos[i]? with
    | some (.opened request secret serial) =>
      if sessionId ∈ m.openings.map Opening.sessionId then none
      else
        some ({ m with hellos := m.hellos.eraseIdx i }.openSession P request secret serial sessionId)
    | _ => none
  | .setLocalDecision sessionId accept => some (m.setLocalDecision sessionId accept)
  | .notifyWaiters => if 0 < m.notifies then some m.notifyWaiters else none
  | .confirm sessionId => some (m.addConfirm (.entered sessionId))
  | .decline sessionId => some (m.declineSession sessionId)
  | .stepConfirm i =>
    match m.confirms[i]? with
    | some call => { m with confirms := m.confirms.eraseIdx i }.stepConfirm P call
    | none => none
  | .pruneCodes => some m.pruneCodes
  | .pruneSessions => some m.pruneSessions
  | .pruneFailures => some m.pruneFailures

structure Initial (m : Responder Secret Signing Signature) : Prop where
  codes : m.codes = []
  sessions : m.sessions = []
  hellos : m.hellos = []
  confirms : m.confirms = []
  generated : m.generated = 0
  consumptions : m.consumptions = []
  openings : m.openings = []
  decisions : m.decisions = []
  records : m.records = []

section Lookups

variable {m : Responder Secret Signing Signature}

theorem sessionOf_mem {sessionId : String} {e : ConfirmEntry} (h : m.sessionOf sessionId = some e) :
    (sessionId, e) ∈ m.sessions := by
  obtain ⟨f,hf,rfl⟩ := Option.map_eq_some_iff.mp h
  have hid : f.1 = sessionId := by simpa using find?_some hf
  exact hid ▸ mem_of_find?_eq_some hf

theorem pruneSessions_subset : m.pruneSessions.sessions ⊆ m.sessions := filter_sublist.subset

theorem removeSession_subset (sessionId : String) : (m.removeSession sessionId).sessions ⊆ m.sessions :=
  filter_sublist.subset

end Lookups

end RinaDown.PairingResponder
