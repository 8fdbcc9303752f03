import RinaDown.LengthFraming

/-!
# The cryptography of pairing

X25519, Ed25519, HKDF and SHA-256 are parameters. What the program builds on
them is here: the transcripts that are signed, the short authentication string
and the link key.
-/

namespace RinaDown.LinkCrypto
open LengthFraming

universe u

/-- Keys of 32 bytes. -/
abbrev Key := Vector UInt8 32

/-- The primitives, over their private keys and signatures. -/
structure Primitives (Secret Signing Signature : Type u) where
  /-- X25519: the public key of a private one, and the agreement. -/
  ephPub : Secret → Key
  diffieHellman : Secret → Key → Key
  /-- Ed25519. -/
  identityPub : Signing → Key
  sign : Signing → Bytes → Signature
  verify : Key → Bytes → Signature → Bool
  /-- HKDF-SHA256 with a salt, the key material, the info and a length. -/
  hkdf : Bytes → Bytes → Bytes → ℕ → Bytes
  fingerprint : Bytes → String

/-- `str::as_bytes`. -/
def asBytes (s : String) : Bytes := s.toByteArray.data.toList

theorem asBytes_injective {s t : String} (h : asBytes s = asBytes t) : s = t := by
  refine String.toByteArray_inj.mp (ByteArray.ext ?_)
  exact Array.toList_inj.mp h

/-! ## Transcripts -/

/-- The fields that the initiator signs. -/
structure InitFields where
  code : String
  initEphPub : Key
  initIdPub : Key
  name : String
  platform : Option String
  appVersion : Option String
  initiatorAddrs : List String
  deriving DecidableEq

def initDomain : Bytes := asBytes "rinadown-link-init-v1"

def respDomain : Bytes := asBytes "rinadown-link-resp-v1"

def transcriptInit (f : InitFields) : Bytes :=
  initDomain ++ (frame (asBytes f.code) ++ (f.initEphPub.toList ++ (f.initIdPub.toList ++
    (frame (asBytes f.name) ++ (frame (asBytes (f.platform.getD "")) ++
      (frame (asBytes (f.appVersion.getD "")) ++
        (toLeBytes f.initiatorAddrs.length ++ frames (f.initiatorAddrs.map asBytes))))))))

def transcriptResp (respEphPub initEphPub : Key) : Bytes :=
  respDomain ++ (respEphPub.toList ++ initEphPub.toList)

/-- No field has 4 GiB, and there are not 2^32 addresses. -/
structure InitFields.Short (f : InitFields) : Prop where
  code : (asBytes f.code).length < 2 ^ 32
  name : (asBytes f.name).length < 2 ^ 32
  platform : (asBytes (f.platform.getD "")).length < 2 ^ 32
  appVersion : (asBytes (f.appVersion.getD "")).length < 2 ^ 32
  count : f.initiatorAddrs.length < 2 ^ 32
  addrs : ∀ a ∈ f.initiatorAddrs, (asBytes a).length < 2 ^ 32

theorem InitFields.short_iff (f : InitFields) :
    f.Short ↔ (asBytes f.code).length < 2 ^ 32 ∧ (asBytes f.name).length < 2 ^ 32 ∧
      (asBytes (f.platform.getD "")).length < 2 ^ 32 ∧
      (asBytes (f.appVersion.getD "")).length < 2 ^ 32 ∧ f.initiatorAddrs.length < 2 ^ 32 ∧
      ∀ a ∈ f.initiatorAddrs, (asBytes a).length < 2 ^ 32 :=
  ⟨fun h => ⟨h.code,h.name,h.platform,h.appVersion,h.count,h.addrs⟩,
    fun ⟨hcode,hname,hplatform,hversion,hcount,haddrs⟩ =>
      ⟨hcode,hname,hplatform,hversion,hcount,haddrs⟩⟩

instance (f : InitFields) : Decidable f.Short := decidable_of_iff _ f.short_iff.symm

theorem domains_ne (s t : Bytes) : initDomain ++ s ≠ respDomain ++ t := by
  intro h
  have hdomain := (List.append_inj h (by decide +kernel)).1
  revert hdomain
  decide +kernel

theorem key_toList_inj {a b : Key} {s t : Bytes} (h : a.toList ++ s = b.toList ++ t) :
    a = b ∧ s = t := by
  obtain ⟨hkey,hrest⟩ := List.append_inj h (by simp)
  exact ⟨Vector.toList_inj.mp hkey,hrest⟩

/-- A transcript of an initiator determines the keys, the name and the addresses in it. -/
theorem transcriptInit_inj {f g : InitFields} (hf : f.Short) (hg : g.Short)
    (h : transcriptInit f = transcriptInit g) :
    f.code = g.code ∧ f.initEphPub = g.initEphPub ∧ f.initIdPub = g.initIdPub ∧ f.name = g.name ∧
      f.platform.getD "" = g.platform.getD "" ∧ f.appVersion.getD "" = g.appVersion.getD "" ∧
      f.initiatorAddrs = g.initiatorAddrs := by
  obtain ⟨hcode,h⟩ := frame_append_inj hf.code hg.code (List.append_cancel_left h)
  obtain ⟨heph,h⟩ := key_toList_inj h
  obtain ⟨hid,h⟩ := key_toList_inj h
  obtain ⟨hname,h⟩ := frame_append_inj hf.name hg.name h
  obtain ⟨hplatform,h⟩ := frame_append_inj hf.platform hg.platform h
  obtain ⟨hversion,h⟩ := frame_append_inj hf.appVersion hg.appVersion h
  obtain ⟨hcount,h⟩ := List.append_inj h (by simp)
  have hlength := toLeBytes_injective hf.count hg.count hcount
  have hmap : f.initiatorAddrs.map asBytes = g.initiatorAddrs.map asBytes := by
    refine (frames_append_inj (s := []) (t := []) (by simpa using hlength) ?_ ?_ (by simpa using h)).1
    · simpa using hf.addrs
    · simpa using hg.addrs
  exact ⟨asBytes_injective hcode,heph,hid,asBytes_injective hname,asBytes_injective hplatform,
    asBytes_injective hversion,List.map_injective_iff.mpr (fun _ _ => asBytes_injective) hmap⟩

theorem transcriptResp_inj {a b c d : Key} (h : transcriptResp a b = transcriptResp c d) :
    a = c ∧ b = d := by
  obtain ⟨ha,h⟩ := key_toList_inj (List.append_cancel_left h)
  exact ⟨ha,Vector.toList_inj.mp h⟩

theorem transcriptInit_ne_resp (f : InitFields) (a b : Key) :
    transcriptInit f ≠ transcriptResp a b := domains_ne _ _

/-! ## Derived values -/

namespace Primitives

variable {Secret Signing Signature : Type u} (P : Primitives Secret Signing Signature)

def sasDigits : ℕ := 6

def sasModulo : ℕ := 1000000

/-- `u32::from_be_bytes`. -/
def fromBeBytes (bytes : Bytes) : ℕ := bytes.foldl (fun n b => 256 * n + b.toNat) 0

def sortKeys (a b : Key) : Key × Key := if a.toList ≤ b.toList then (a, b) else (b, a)

def deriveSas (z a b : Key) : String :=
  let keys := sortKeys a b
  let okm := P.hkdf (asBytes "rinadown-link-sas-v1") z.toList (keys.1.toList ++ keys.2.toList) 4
  String.ofList
    ((Nat.toDigits 10 (fromBeBytes okm % sasModulo)).leftpad sasDigits '0')

def deriveLinkKey (z : Key) : Bytes :=
  P.hkdf (asBytes "rinadown-link-key-salt-v1") z.toList (asBytes "rinadown-link-key-v1") 32

end Primitives

/-- Stand-ins for runs on fixed inputs: the agreement is commutative and a signature names its key. -/
def toy : Primitives Key Key (Key × Bytes) where
  ephPub secret := secret
  diffieHellman secret other := Vector.zipWith (· ^^^ ·) secret other
  identityPub signing := signing
  sign signing message := (signing, message)
  verify key message signature := signature = (key, message)
  hkdf salt material info length := (material ++ info ++ salt).take length
  fingerprint _ := ""

def isAllZero (z : Key) : Bool := z.toList.foldl (fun acc b => acc ||| b) 0 = 0

end RinaDown.LinkCrypto
