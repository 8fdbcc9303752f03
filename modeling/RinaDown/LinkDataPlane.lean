import RinaDown.JoinedFields
import RinaDown.PairingResponder

/-!
# The data plane of a link

A paired device signs every request with the link secret of the pair. The receiver checks the time
when the request arrives, waits for its database, and then checks the tag, records the nonce and
decrypts the body. Nonces are forgotten by a later request and by a periodic task. The requests in
the nonce list and the lists after the calls are history that no step reads.
-/

namespace RinaDown.LinkDataPlane

open LengthFraming LinkCrypto JoinedFields
open PairingResponder (PeerRecord)

/-- SHA-256, HMAC-SHA256, HKDF-SHA256 (salt, key material, info and length) and
ChaCha20-Poly1305 with the nonce after the key. -/
structure Ciphers where
  sha256 : Bytes → Bytes
  hmac : Bytes → Bytes → Bytes
  hkdf : Bytes → Bytes → Bytes → ℕ → Bytes
  encrypt : Bytes → Bytes → Bytes → Option Bytes
  decrypt : Bytes → Bytes → Bytes → Option Bytes
  length_sha256 : ∀ data, (sha256 data).length = 32
  decrypt_encrypt : ∀ key nonce data cipher, encrypt key nonce data = some cipher →
    16 ≤ cipher.length ∧ decrypt key nonce cipher = some data

variable (C : Ciphers)

/-! ## Tags and bodies -/

/-- `hex::encode`. -/
def hexEncode (bytes : Bytes) : String :=
  String.ofList (bytes.flatMap fun b => [Nat.digitChar (b.toNat / 16), Nat.digitChar (b.toNat % 16)])

def newline : UInt8 := 10

/-- What is authenticated: four fields with a newline after each, and the digest of the body. -/
def macInput (method path : String) (ts : ℤ) (nonce : String) (body : Bytes) : Bytes :=
  joined newline [asBytes method, asBytes path, asBytes (toString ts), asBytes nonce] ++
    newline :: C.sha256 body

def linkAuthTag (secret : Bytes) (method path : String) (ts : ℤ) (nonce : String)
    (body : Bytes) : String :=
  hexEncode (C.hmac secret (macInput C method path ts nonce body))

def verifyLinkAuthTag (secret : Bytes) (method path : String) (ts : ℤ) (nonce : String)
    (body : Bytes) (tagHex : String) : Bool :=
  linkAuthTag C secret method path ts nonce body = tagHex

def deriveLinkAeadKey (linkSecret : Bytes) : Bytes :=
  C.hkdf (asBytes "rinadown-link-aead-salt-v1") linkSecret (asBytes "rinadown-link-aead-v1") 32

/-- A random nonce of 12 bytes stands before the encrypted body. -/
def sealLinkBody (key : Bytes) (nonce : Vector UInt8 12) (plaintext : Bytes) : Bytes :=
  nonce.toList ++ (C.encrypt key nonce.toList plaintext).getD []

def openLinkBody (key sealed : Bytes) : Option Bytes :=
  if sealed.length < 12 + 16 then none else C.decrypt key (sealed.take 12) (sealed.drop 12)

theorem openLinkBody_seal {key plaintext body : Bytes} {nonce : Vector UInt8 12}
    (h : openLinkBody C key (sealLinkBody C key nonce plaintext) = some body) :
    body = plaintext := by
  have hlength : nonce.toList.length = 12 := nonce.length_toList
  rw [openLinkBody, sealLinkBody] at h
  cases hcipher : C.encrypt key nonce.toList plaintext with
  | none => simp [hcipher, hlength] at h
  | some cipher =>
      obtain ⟨-,hdecrypt⟩ := C.decrypt_encrypt _ _ _ _ hcipher
      rw [hcipher, Option.getD_some, List.take_left' hlength, List.drop_left' hlength,
        hdecrypt] at h
      split_ifs at h
      exact (Option.some.inj h).symm

/-! ## The manager of a device -/

/-- A request to the data plane, its headers and its body. -/
structure Request where
  method : String
  path : String
  device : String
  ts : ℤ
  nonce : String
  body : Bytes
  tag : String
  enc : String
deriving DecidableEq

/-- What an authorized request gives: the device that sent it and the decrypted body. -/
structure LinkRequest where
  device : String
  body : Bytes
deriving DecidableEq

/-- A recorded nonce and the time at which it was recorded, with its request. -/
structure SeenNonce where
  key : String
  seenTs : ℤ
  request : Request
deriving DecidableEq

/-- A call of `authorize` after its time check, before and after the database has answered. -/
structure Call where
  request : Request
  now : ℤ
  record : Option PeerRecord
deriving DecidableEq

structure Acceptance where
  request : Request
  linkSecret : Bytes
  result : LinkRequest
deriving DecidableEq

structure LinkManager where
  clock : ℤ
  store : List PeerRecord
  seenNonces : List SeenNonce
  calls : List Call
  forgotten : List (Request × ℤ)
  accepted : List Acceptance
deriving DecidableEq

inductive Label where
  | clockSet (now : ℤ)
  | stored (store : List PeerRecord)
  | arrived (request : Request)
  | loaded (i : ℕ)
  | failed (i : ℕ)
  | checked (i : ℕ)
  | prunedExpired
deriving DecidableEq

def linkAuthSkewSecs : ℤ := 120

namespace LinkManager

variable (m : LinkManager)

def new (clock : ℤ) (store : List PeerRecord) : LinkManager := ⟨clock,store,[],[],[],[]⟩

def get (fingerprint : String) : Option PeerRecord :=
  m.store.find? fun record => record.fingerprint = fingerprint

def nonceKey (request : Request) : String := request.device ++ ":" ++ request.nonce

def retain (now : ℤ) : LinkManager :=
  { m with
    seenNonces := m.seenNonces.filter fun e => now - e.seenTs ≤ linkAuthSkewSecs
    forgotten := m.forgotten ++
      ((m.seenNonces.filter fun e => linkAuthSkewSecs < now - e.seenTs).map fun e => (e.request, now)) }

/-- The checks on the headers that precede the database. -/
def arrive (request : Request) : LinkManager :=
  if request.enc = "v1" ∧ ((m.clock - request.ts).natAbs : ℤ) ≤ linkAuthSkewSecs then
    { m with calls := m.calls ++ [⟨request,m.clock,none⟩] }
  else m

def finish (i : ℕ) : LinkManager := { m with calls := m.calls.eraseIdx i }

def load (i : ℕ) (call : Call) : LinkManager :=
  match m.get call.request.device with
  | none => m.finish i
  | some record => { m with calls := m.calls.set i { call with record := some record } }

def verified (call : Call) (record : PeerRecord) : Bool :=
  verifyLinkAuthTag C record.linkSecret call.request.method call.request.path call.request.ts
    call.request.nonce call.request.body call.request.tag

/-- The nonce is recorded and the body is decrypted. -/
def accept (call : Call) (record : PeerRecord) : LinkManager :=
  let recorded :=
    { m with seenNonces := m.seenNonces ++ [⟨nonceKey call.request,call.now,call.request⟩] }
  match openLinkBody C (deriveLinkAeadKey C record.linkSecret) call.request.body with
  | none => recorded
  | some body =>
      { recorded with accepted :=
          m.accepted ++ [⟨call.request,record.linkSecret,⟨call.request.device,body⟩⟩] }

/-- The nonces are checked while they are locked. -/
def checkNonce (call : Call) (record : PeerRecord) : LinkManager :=
  let retained := m.retain call.now
  if retained.seenNonces.any fun e => e.key = nonceKey call.request then retained
  else retained.accept C call record

def check (i : ℕ) (call : Call) (record : PeerRecord) : LinkManager :=
  if verified C call record then (m.finish i).checkNonce C call record else m.finish i

end LinkManager

open LinkManager in
def step (m : LinkManager) : Label → Option LinkManager
  | .clockSet now => some { m with clock := now }
  | .stored store => some { m with store := store }
  | .arrived request => some (m.arrive request)
  | .loaded i =>
      match m.calls[i]? with
      | none => none
      | some call => if call.record = none then some (m.load i call) else none
  | .failed i => if i < m.calls.length then some (m.finish i) else none
  | .checked i =>
      match m.calls[i]?.bind fun call => call.record.map fun record => (call, record) with
      | none => none
      | some (call, record) => some (m.check C i call record)
  | .prunedExpired => some (m.retain m.clock)

/-! ## Stand-ins for runs on fixed inputs -/

/-- The cipher appends a tag of zeros, and the other functions cut what they are given. -/
def toy : Ciphers where
  sha256 data := (data ++ List.replicate 32 0).take 32
  hmac key data := key ++ data
  hkdf salt material info length := (material ++ info ++ salt).take length
  encrypt _ _ data := some (data ++ List.replicate 16 0)
  decrypt _ _ cipher := some (cipher.take (cipher.length - 16))
  length_sha256 data := by
    rw [List.length_take, List.length_append, List.length_replicate]
    omega
  decrypt_encrypt key nonce data cipher h := by
    obtain rfl := Option.some.inj h
    have hlength : (data ++ List.replicate 16 0).length - 16 = data.length := by
      rw [List.length_append, List.length_replicate, Nat.add_sub_cancel]
    refine ⟨by simp,?_⟩
    rw [hlength, List.take_left]

def samplePeer (fingerprint : String) (linkSecret : Bytes) : PeerRecord :=
  ⟨fingerprint,[],"",none,linkSecret,[],0,0⟩

def sampleRequest (linkSecret : Bytes) (device nonce : String) (ts : ℤ) (plaintext : Bytes) :
    Request :=
  let sealed :=
    sealLinkBody toy (deriveLinkAeadKey toy linkSecret) (Vector.replicate 12 0) plaintext
  ⟨"POST","/api/v1/link/tasks",device,ts,nonce,sealed,
    linkAuthTag toy linkSecret "POST" "/api/v1/link/tasks" ts nonce sealed,"v1"⟩

end RinaDown.LinkDataPlane
