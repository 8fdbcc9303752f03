import RinaDown.ByteReaders
import RinaDown.KadContacts

/-!
# The messages of the Kad network

Contacts and search entries as they are written and read. An identifier stands on
the wire with each of its four words reversed. A tag is written with its name as
one byte behind a marked type; it is read with that or with a counted name.
-/

namespace RinaDown.KadMessages

open LengthFraming (Bytes)
open ByteReaders Reader KadContacts

def kademliaVersion : UInt8 := 0x05

def opBootstrapRes : UInt8 := 0x09
def opRes : UInt8 := 0x29
def opSearchRes : UInt8 := 0x3B

def protoKad : UInt8 := 0xE4

def contactWireSize : ℕ := 25

/-! ## Identifiers and contacts -/

/-- Byte `i` goes to the place of `i` in its word, read backwards; so it comes back. -/
def dwordReverse (src : KadId) : KadId :=
  Vector.ofFn fun i : Fin 16 =>
    have : i.val / 4 * 4 + 3 - i.val % 4 < 16 := by omega
    src[i.val / 4 * 4 + 3 - i.val % 4]

def array16 : Reader KadId := do
  let s ← take 16
  pure (Vector.ofFn fun i : Fin 16 => s.getD i 0)

namespace KadId

def decode : Reader KadId := do
  let wire ← array16
  pure (dwordReverse wire)

def encode (id : KadId) : Bytes := (dwordReverse id).toList

end KadId

namespace Endpoint

def decode : Reader Endpoint := do
  let ip ← u32Le
  let udpPort ← u16Le
  let tcpPort ← u16Le
  pure { ip, udpPort, tcpPort }

def encode (endpoint : Endpoint) : Bytes :=
  toLe 4 endpoint.ip.toNat ++ (toLe 2 endpoint.udpPort.toNat ++ toLe 2 endpoint.tcpPort.toNat)

end Endpoint

namespace Contact

def decode : Reader Contact := do
  let id ← KadId.decode
  let endpoint ← Endpoint.decode
  let version ← u8
  pure { id, endpoint, version }

def encode (c : Contact) : Bytes :=
  KadId.encode c.id ++ (Endpoint.encode c.endpoint ++ [c.version])

end Contact

/-! ## Tags and search entries -/

def tagTypeString : UInt8 := 0x02
def tagTypeUint32 : UInt8 := 0x03
def tagTypeUint16 : UInt8 := 0x08
def tagTypeUint8 : UInt8 := 0x09
def tagTypeUint64 : UInt8 := 0x0B
def tagTypeStr1 : UInt8 := 0x11
def tagTypeStr16 : UInt8 := 0x20

def tagSourceType : UInt8 := 0xFF
def tagSourceIp : UInt8 := 0xFE
def tagSourcePort : UInt8 := 0xFD

inductive TagValue
  | u8 (v : UInt8)
  | u16 (v : UInt16)
  | u32 (v : UInt32)
  | u64 (v : UInt64)
  | str (bytes : Bytes)
  deriving DecidableEq

structure Tag where
  id : UInt8
  value : TagValue
  deriving DecidableEq

namespace Tag

/-- The name behind the type: one byte, or a count and as many bytes. -/
def decodeName (typeByte : UInt8) : Reader UInt8 :=
  if typeByte &&& 0x80 ≠ 0 then u8
  else do
    let nameLen ← u16Le
    let name ← take nameLen.toNat
    pure (if nameLen.toNat = 1 then name.getD 0 0 else 0)

def decodeValue (ty : UInt8) : Reader TagValue :=
  if ty = tagTypeString then do
    let len ← u16Le
    let bytes ← take len.toNat
    pure (.str bytes)
  else if ty = tagTypeUint8 then do
    let v ← u8
    pure (.u8 v)
  else if ty = tagTypeUint16 then do
    let v ← u16Le
    pure (.u16 v)
  else if ty = tagTypeUint32 then do
    let v ← u32Le
    pure (.u32 v)
  else if ty = tagTypeUint64 then do
    let v ← u64Le
    pure (.u64 v)
  else if tagTypeStr1 ≤ ty ∧ ty ≤ tagTypeStr16 then do
    let bytes ← take (ty.toNat - tagTypeStr1.toNat + 1)
    pure (.str bytes)
  else fail

def decode : Reader Tag := do
  let typeByte ← u8
  let id ← decodeName typeByte
  let value ← decodeValue (typeByte &&& 0x7f)
  pure { id, value }

def encode (tag : Tag) : Bytes :=
  match tag.value with
  | .u8 v => (tagTypeUint8 ||| 0x80) :: tag.id :: [v]
  | .u16 v => (tagTypeUint16 ||| 0x80) :: tag.id :: toLe 2 v.toNat
  | .u32 v => (tagTypeUint32 ||| 0x80) :: tag.id :: toLe 4 v.toNat
  | .u64 v => (tagTypeUint64 ||| 0x80) :: tag.id :: toLe 8 v.toNat
  | .str s => (tagTypeString ||| 0x80) :: tag.id :: (toLe 2 (s.length % 2 ^ 16) ++ s)

def asU64 (tag : Tag) : Option UInt64 :=
  match tag.value with
  | .u8 v => some v.toUInt64
  | .u16 v => some v.toUInt64
  | .u32 v => some v.toUInt64
  | .u64 v => some v
  | .str _ => none

end Tag

structure SearchEntry where
  id : KadId
  tags : List Tag
  deriving DecidableEq

structure PeerAddr where
  ip : Ipv4Addr
  port : UInt16
  deriving DecidableEq, Repr

namespace SearchEntry

/-- The tags end at the first that cannot be read, and so does the reading. -/
def decode : Reader SearchEntry := do
  let id ← KadId.decode
  let count ← u8
  let tags ← collect Tag.decode count.toNat
  pure { id, tags }

def encode (e : SearchEntry) : Bytes :=
  KadId.encode e.id ++ UInt8.ofNat (min e.tags.length 255) :: (e.tags.take 255).flatMap Tag.encode

structure SourceTags where
  sourceType : Option UInt64
  ip : Option UInt32
  port : Option UInt16

/-- A later tag of the same name wins. -/
def readSourceTag (found : SourceTags) (tag : Tag) : SourceTags :=
  if tag.id = tagSourceType then { found with sourceType := tag.asU64 }
  else if tag.id = tagSourceIp then { found with ip := tag.asU64.map UInt64.toUInt32 }
  else if tag.id = tagSourcePort then { found with port := tag.asU64.map UInt64.toUInt16 }
  else found

def sourcePeer (e : SearchEntry) : Option PeerAddr :=
  let found := e.tags.foldl readSourceTag { sourceType := none, ip := none, port := none }
  if found.sourceType = some 0 ∨ found.sourceType = some 1 ∨ found.sourceType = some 4 then
    match found.ip, found.port with
    | some ip, some port =>
      if ip = 0 ∨ port = 0 then none
      else if ip = 0xFFFFFFFF then none
      else some { ip, port }
    | _, _ => none
  else none

end SearchEntry

/-! ## Frames -/

def frame (opcode : UInt8) (payload : Bytes) : Bytes := protoKad :: opcode :: payload

def parseFrame : Bytes → Option (UInt8 × UInt8 × Bytes)
  | proto :: opcode :: payload => if proto ≠ protoKad then none else some (proto, opcode, payload)
  | _ => none

def buildBootstrapRes (selfId : KadId) (tcpPort : UInt16) (contacts : List Contact) : Bytes :=
  frame opBootstrapRes (KadId.encode selfId ++ (toLe 2 tcpPort.toNat ++ ([kademliaVersion] ++
    (toLe 2 (contacts.length % 2 ^ 16) ++ contacts.flatMap Contact.encode))))

def buildFindNodeRes (target : KadId) (contacts : List Contact) : Bytes :=
  frame opRes (KadId.encode target ++ ([UInt8.ofNat (min contacts.length 255)] ++
    (contacts.take 255).flatMap Contact.encode))

def buildSearchRes (source target : KadId) (entries : List SearchEntry) : Bytes :=
  frame opSearchRes (KadId.encode source ++ (KadId.encode target ++
    (toLe 2 (entries.length % 2 ^ 16) ++ entries.flatMap SearchEntry.encode)))

def decodeBootstrapRes (payload : Bytes) : Option (List Contact) :=
  let reader : Reader (List Contact) := do
    let _selfId ← KadId.decode
    let _tcpPort ← u16Le
    let _version ← u8
    let declared ← u16Le
    let left ← remaining
    collect Contact.decode (min declared.toNat (left / contactWireSize))
  (reader payload).1

def decodeFindNodeRes (payload : Bytes) : Option (List Contact) :=
  let reader : Reader (List Contact) := do
    let _target ← KadId.decode
    let declared ← u8
    let left ← remaining
    collect Contact.decode (min declared.toNat (left / contactWireSize))
  (reader payload).1

/-- An entry has at least 17 bytes. -/
def decodeSearchRes (payload : Bytes) : Option (List SearchEntry) :=
  let reader : Reader (List SearchEntry) := do
    let _source ← KadId.decode
    let _target ← KadId.decode
    let declared ← u16Le
    let left ← remaining
    collect SearchEntry.decode (min declared.toNat (left / 17 + 1))
  (reader payload).1

/-! ## The file of the contacts -/

/-- The contacts of a version and an edition; some are followed by a key and a flag. -/
def nodesDatContacts (version bootstrapEdition numContacts : UInt32) : Reader (List Contact) := do
  let extra := if 2 ≤ version ∧ bootstrapEdition = 0 then 9 else 0
  let left ← remaining
  collect
    (do
      let c ← Contact.decode
      if 0 < extra then
        let _ ← take extra
        pure c
      else pure c)
    (min numContacts.toNat (left / max (contactWireSize + extra) 1))

def parseNodesDat (bytes : Bytes) : List Contact :=
  let reader : Reader (List Contact) := do
    let first ← u32Le
    if first ≠ 0 then nodesDatContacts 0 0 first
    else
      let version ← u32Le
      if ¬(1 ≤ version ∧ version ≤ 3) then fail
      else if 3 ≤ version then
        let bootstrapEdition ← u32Le
        let numContacts ← u32Le
        nodesDatContacts version bootstrapEdition numContacts
      else
        let numContacts ← u32Le
        nodesDatContacts version 0 numContacts
  ((reader bytes).1).getD []

end RinaDown.KadMessages
