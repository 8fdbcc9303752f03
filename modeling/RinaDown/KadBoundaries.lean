import RinaDown.KadMessages

/-!
# The boundaries of contacts and search entries

What other nodes send is written here as the tag format has it: a name of one byte
or a counted one, and a value of a type that is read or of another type of the
format. A tag that is not read is not skipped. The reader goes on with the next
entry in the middle of it, so all that matters is whether an entry follows.
-/

namespace RinaDown.KadBoundaries

open LengthFraming (Bytes)
open List hiding Vector take
open ByteReaders Reader KadContacts KadMessages

/-! ## Tags on the wire -/

def ReadType (ty : UInt8) : Prop :=
  ty = tagTypeString ∨ ty = tagTypeUint8 ∨ ty = tagTypeUint16 ∨ ty = tagTypeUint32 ∨
    ty = tagTypeUint64 ∨ (tagTypeStr1 ≤ ty ∧ ty ≤ tagTypeStr16)

instance (ty : UInt8) : Decidable (ReadType ty) := by
  unfold ReadType
  infer_instance

/-- A value of another type, such as a hash, a float, a boolean or a blob. It has at
least one byte. -/
structure ForeignValue where
  ty : UInt8
  first : UInt8
  rest : Bytes
  unmarked : ty &&& 0x80 = 0
  unread : ¬ReadType ty

inductive WireValue
  | u8 (v : UInt8)
  | u16 (v : UInt16)
  | u32 (v : UInt32)
  | u64 (v : UInt64)
  | str (s : Bytes) (h : s.length < 2 ^ 16)
  | shortStr (s : Bytes) (h : 0 < s.length ∧ s.length ≤ 16)
  | foreign (v : ForeignValue)

namespace WireValue

def ty : WireValue → UInt8
  | .u8 _ => tagTypeUint8
  | .u16 _ => tagTypeUint16
  | .u32 _ => tagTypeUint32
  | .u64 _ => tagTypeUint64
  | .str _ _ => tagTypeString
  | .shortStr s _ => tagTypeStr1 + UInt8.ofNat (s.length - 1)
  | .foreign v => v.ty

def payload : WireValue → Bytes
  | .u8 v => [v]
  | .u16 v => toLe 2 v.toNat
  | .u32 v => toLe 4 v.toNat
  | .u64 v => toLe 8 v.toNat
  | .str s _ => toLe 2 s.length ++ s
  | .shortStr s _ => s
  | .foreign v => v.first :: v.rest

def value : WireValue → Option TagValue
  | .u8 v => some (.u8 v)
  | .u16 v => some (.u16 v)
  | .u32 v => some (.u32 v)
  | .u64 v => some (.u64 v)
  | .str s _ => some (.str s)
  | .shortStr s _ => some (.str s)
  | .foreign _ => none

end WireValue

inductive WireName
  | marked (id : UInt8)
  | counted (name : Bytes) (h : name.length < 2 ^ 16)

structure WireTag where
  name : WireName
  value : WireValue

namespace WireTag

def id (t : WireTag) : UInt8 :=
  match t.name with
  | .marked id => id
  | .counted name _ => if name.length = 1 then name.getD 0 0 else 0

def header (t : WireTag) : Bytes :=
  match t.name with
  | .marked id => [t.value.ty ||| 0x80, id]
  | .counted name _ => t.value.ty :: (toLe 2 name.length ++ name)

def encode (t : WireTag) : Bytes := t.header ++ t.value.payload

def tag (t : WireTag) : Option Tag := t.value.value.map fun value => { id := t.id, value }

end WireTag

structure WireTags where
  tags : List WireTag
  length_le : tags.length ≤ 255

def WireTags.Read (row : WireTags) : Prop := ∀ t ∈ row.tags, ReadType t.value.ty

structure WireEntry where
  id : KadId
  row : WireTags

namespace WireEntry

def encode (w : WireEntry) : Bytes :=
  KadId.encode w.id ++
    ([UInt8.ofNat w.row.tags.length] ++ w.row.tags.flatMap WireTag.encode)

/-- The address is what a tag of the entry has as an IP and one as a port, in the
width of an address. -/
def Contains (w : WireEntry) (peer : PeerAddr) : Prop :=
  (∃ t ∈ w.row.tags, ∃ tag, t.tag = some tag ∧ tag.id = tagSourceIp ∧
    tag.asU64.map UInt64.toUInt32 = some peer.ip) ∧
  ∃ t ∈ w.row.tags, ∃ tag, t.tag = some tag ∧ tag.id = tagSourcePort ∧
    tag.asU64.map UInt64.toUInt16 = some peer.port

end WireEntry

def searchResPayload (source target : KadId) (entries : List WireEntry) : Bytes :=
  KadId.encode source ++ (KadId.encode target ++
    (toLe 2 entries.length ++ entries.flatMap WireEntry.encode))

def bootstrapResPayload (selfId : KadId) (tcpPort : UInt16) (version : UInt8)
    (contacts : List Contact) : Bytes :=
  KadId.encode selfId ++ (toLe 2 tcpPort.toNat ++ ([version] ++
    (toLe 2 contacts.length ++ contacts.flatMap Contact.encode)))

def findNodeResPayload (target : KadId) (contacts : List Contact) : Bytes :=
  KadId.encode target ++ ([UInt8.ofNat contacts.length] ++ contacts.flatMap Contact.encode)

/-- A contact with the key and the flag that some files have behind it. -/
structure StoredContact where
  contact : Contact
  key : Vector UInt8 9

inductive NodesDatFormat
  | legacy
  | v1
  | v2
  | v3 (bootstrapEdition : UInt32)

namespace NodesDatFormat

def Keyed : NodesDatFormat → Prop
  | .legacy => False
  | .v1 => False
  | .v2 => True
  | .v3 bootstrapEdition => bootstrapEdition = 0

instance : DecidablePred Keyed := fun format => by
  cases format <;> unfold Keyed <;> infer_instance

def header : NodesDatFormat → ℕ → Bytes
  | .legacy, n => toLe 4 n
  | .v1, n => toLe 4 0 ++ (toLe 4 1 ++ toLe 4 n)
  | .v2, n => toLe 4 0 ++ (toLe 4 2 ++ toLe 4 n)
  | .v3 bootstrapEdition, n =>
    toLe 4 0 ++ (toLe 4 3 ++ (toLe 4 bootstrapEdition.toNat ++ toLe 4 n))

end NodesDatFormat

def StoredContact.encode (format : NodesDatFormat) (c : StoredContact) : Bytes :=
  Contact.encode c.contact ++ if format.Keyed then c.key.toList else []

def nodesDat (format : NodesDatFormat) (stored : List StoredContact) : Bytes :=
  format.header stored.length ++ stored.flatMap (StoredContact.encode format)

/-- The entry is one of the list, with its tags possibly cut off. -/
def Trimmed (e : SearchEntry) (w : WireEntry) : Prop :=
  e.id = w.id ∧ e.tags.map some <+: w.row.tags.map WireTag.tag

/-- The entries that are returned are the first of the list, and an address that one
of them gives is in an entry of the list. -/
def AtBoundaries (entries : List WireEntry) (result : Option (List SearchEntry)) : Prop :=
  ∃ decoded, result = some decoded ∧
    (∃ n, List.Forall₂ Trimmed decoded (entries.take n)) ∧
    ∀ e ∈ decoded, ∀ peer, e.sourcePeer = some peer → ∃ w ∈ entries, w.Contains peer

/-! ## Identifiers and contacts -/

theorem dwordReverse_dwordReverse (src : KadId) : dwordReverse (dwordReverse src) = src := by
  ext i hi
  have hback : i / 4 * 4 + 3 - i % 4 < 16 := by omega
  have hplace : (i / 4 * 4 + 3 - i % 4) / 4 * 4 + 3 - (i / 4 * 4 + 3 - i % 4) % 4 = i := by omega
  simp only [dwordReverse, Vector.getElem_ofFn, hplace]

theorem reads_array16 (v : KadId) : Reads array16 v.toList v := by
  have h := (reads_take (show v.toList.length = 16 by simp)).map
    (g := fun s => Vector.ofFn fun i : Fin 16 => s.getD i 0)
  have hv : (Vector.ofFn fun i : Fin 16 => v.toList.getD i 0) = v := by
    ext i hi
    simp
  rwa [hv] at h

theorem reads_kadId (id : KadId) : Reads KadId.decode (KadId.encode id) id := by
  have h := (reads_array16 (dwordReverse id)).map (g := dwordReverse)
  rwa [dwordReverse_dwordReverse] at h

@[simp] theorem length_kadId (id : KadId) : (KadId.encode id).length = 16 := by
  simp [KadId.encode]

theorem reads_endpoint (endpoint : Endpoint) :
    Reads Endpoint.decode (Endpoint.encode endpoint) endpoint := by
  refine (reads_u32Le endpoint.ip).bind ?_
  refine (reads_u16Le endpoint.udpPort).bind ?_
  exact (reads_u16Le endpoint.tcpPort).map

theorem reads_contact (c : Contact) : Reads Contact.decode (Contact.encode c) c := by
  refine (reads_kadId c.id).bind ?_
  refine (reads_endpoint c.endpoint).bind ?_
  exact (reads_u8 c.version).map

theorem length_contact (c : Contact) : (Contact.encode c).length = contactWireSize := by
  simp [Contact.encode, Endpoint.encode, contactWireSize]

/-! ## Tags -/

theorem type_bits {ty : UInt8} (h : ty &&& 0x80 = 0) :
    (ty ||| 0x80) &&& 0x7f = ty ∧ (ty ||| 0x80) &&& 0x80 ≠ 0 ∧ ty &&& 0x7f = ty := by
  have hall : ∀ x : BitVec 8, x &&& 0x80#8 = 0#8 →
      (x ||| 0x80#8) &&& 0x7f#8 = x ∧ (x ||| 0x80#8) &&& 0x80#8 ≠ 0#8 ∧ x &&& 0x7f#8 = x := by
    decide +kernel
  obtain ⟨hmarked,hbit,hplain⟩ := hall ty.toBitVec (congrArg UInt8.toBitVec h)
  refine ⟨UInt8.eq_of_toBitVec_eq hmarked,?_,UInt8.eq_of_toBitVec_eq hplain⟩
  intro hzero
  exact hbit (congrArg UInt8.toBitVec hzero)

theorem shortStr_ty {n : ℕ} {ty : UInt8} (h : n < 16) (hty : ty = tagTypeStr1 + UInt8.ofNat n) :
    ty &&& 0x80 = 0 ∧ tagTypeStr1 ≤ ty ∧ ty ≤ tagTypeStr16 ∧
      ty.toNat - tagTypeStr1.toNat + 1 = n + 1 ∧ ty ≠ tagTypeString ∧ ty ≠ tagTypeUint8 ∧
      ty ≠ tagTypeUint16 ∧ ty ≠ tagTypeUint32 ∧ ty ≠ tagTypeUint64 := by
  subst hty
  revert n
  decide

theorem WireValue.ty_unmarked (v : WireValue) : v.ty &&& 0x80 = 0 := by
  cases v with
  | u8 _ => exact (by decide : tagTypeUint8 &&& 0x80 = 0)
  | u16 _ => exact (by decide : tagTypeUint16 &&& 0x80 = 0)
  | u32 _ => exact (by decide : tagTypeUint32 &&& 0x80 = 0)
  | u64 _ => exact (by decide : tagTypeUint64 &&& 0x80 = 0)
  | str _ _ => exact (by decide : tagTypeString &&& 0x80 = 0)
  | shortStr s h => exact (shortStr_ty (n := s.length - 1) (by omega) rfl).1
  | foreign v => exact v.unmarked

theorem WireValue.readType_iff (v : WireValue) : ReadType v.ty ↔ v.value ≠ none := by
  cases v with
  | u8 _ => exact iff_of_true (.inr (.inl rfl)) nofun
  | u16 _ => exact iff_of_true (.inr (.inr (.inl rfl))) nofun
  | u32 _ => exact iff_of_true (.inr (.inr (.inr (.inl rfl)))) nofun
  | u64 _ => exact iff_of_true (.inr (.inr (.inr (.inr (.inl rfl))))) nofun
  | str _ _ => exact iff_of_true (.inl rfl) nofun
  | shortStr s h =>
    obtain ⟨-,hfirst,hlast,-⟩ := shortStr_ty (n := s.length - 1) (by omega) rfl
    exact iff_of_true (.inr (.inr (.inr (.inr (.inr ⟨hfirst,hlast⟩))))) nofun
  | foreign v => exact iff_of_false v.unread fun h => h rfl

theorem reads_value {v : WireValue} {value : TagValue} (h : v.value = some value) :
    Reads (Tag.decodeValue v.ty) v.payload value := by
  cases v with
  | u8 v =>
    cases h
    exact (reads_u8 v).map
  | u16 v =>
    cases h
    exact (reads_u16Le v).map
  | u32 v =>
    cases h
    exact (reads_u32Le v).map
  | u64 v =>
    cases h
    exact (reads_u64Le v).map
  | str s hs =>
    cases h
    have hlength : (UInt16.ofNat s.length).toNat = s.length := UInt16.toNat_ofNat_of_lt' hs
    have hlen := reads_u16Le (UInt16.ofNat s.length)
    have hbytes := reads_take hlength.symm
    rw [hlength] at hlen
    exact hlen.bind hbytes.map
  | shortStr s hs =>
    cases h
    obtain ⟨-,hfirst,hlast,hlength,h1,h2,h3,h4,h5⟩ :=
      shortStr_ty (by omega)
        (rfl : (WireValue.shortStr s hs).ty = tagTypeStr1 + UInt8.ofNat (s.length - 1))
    have hbytes := reads_take
      (show s.length = (WireValue.shortStr s hs).ty.toNat - tagTypeStr1.toNat + 1 by omega)
    unfold Tag.decodeValue
    rw [if_neg h1, if_neg h2, if_neg h3, if_neg h4, if_neg h5, if_pos ⟨hfirst,hlast⟩]
    exact hbytes.map
  | foreign v => cases h

theorem decodeValue_foreign {ty : UInt8} (h : ¬ReadType ty) (buf : Bytes) :
    Tag.decodeValue ty buf = (none, buf) := by
  unfold ReadType at h
  simp only [not_or] at h
  obtain ⟨h1,h2,h3,h4,h5,h6⟩ := h
  unfold Tag.decodeValue
  rw [if_neg h1, if_neg h2, if_neg h3, if_neg h4, if_neg h5, if_neg h6]
  rfl

/-- Both kinds of names are told apart by the mark of the type. -/
theorem decode_header (t : WireTag) (buf : Bytes) :
    Tag.decode (t.header ++ buf) =
      (do
        let value ← Tag.decodeValue t.value.ty
        pure ({ id := t.id, value } : Tag)) buf := by
  obtain ⟨hmarked,hbit,hplain⟩ := type_bits t.value.ty_unmarked
  obtain ⟨name,value⟩ := t
  cases name with
  | marked id =>
    have hname : Reads (Tag.decodeName (value.ty ||| 0x80)) [id] id := by
      unfold Tag.decodeName
      rw [if_pos hbit]
      exact reads_u8 id
    unfold Tag.decode WireTag.header
    dsimp only
    rw [show [value.ty ||| 0x80, id] ++ buf = [value.ty ||| 0x80] ++ ([id] ++ buf) from rfl,
      bind_some (reads_u8 _ _), bind_some (hname _), hmarked]
    rfl
  | counted name hlt =>
    have hlength : (UInt16.ofNat name.length).toNat = name.length :=
      UInt16.toNat_ofNat_of_lt' hlt
    have hname : Reads (Tag.decodeName value.ty) (toLe 2 name.length ++ name)
        (WireTag.mk (.counted name hlt) value).id := by
      have hlen := reads_u16Le (UInt16.ofNat name.length)
      rw [hlength] at hlen
      unfold Tag.decodeName
      rw [if_neg (not_not.mpr value.ty_unmarked)]
      refine hlen.bind ?_
      have hid : (if (UInt16.ofNat name.length).toNat = 1 then name.getD 0 0 else 0) =
          (WireTag.mk (.counted name hlt) value).id := by
        rw [hlength]
        rfl
      rw [← hid]
      exact (reads_take hlength.symm).map
    unfold Tag.decode WireTag.header
    dsimp only
    rw [show value.ty :: (toLe 2 name.length ++ name) ++ buf =
        [value.ty] ++ (toLe 2 name.length ++ name ++ buf) from rfl,
      bind_some (reads_u8 _ _), bind_some (hname _), hplain]

/-- A tag is read up to its end, or its value is left. -/
theorem decode_tag (t : WireTag) (rest : Bytes) :
    Tag.decode (t.encode ++ rest) =
      (t.tag, if t.tag = none then t.value.payload ++ rest else rest) := by
  unfold WireTag.encode WireTag.tag
  rw [append_assoc, decode_header]
  cases h : t.value.value with
  | none =>
    have hunread : ¬ReadType t.value.ty := fun hread => t.value.readType_iff.mp hread h
    exact bind_none (decodeValue_foreign hunread _)
  | some value => exact bind_some (reads_value h rest)
/-! ## Entries -/

/-- The tags up to the first that is not read. -/
def readable : List WireTag → List Tag
  | [] => []
  | t :: ts =>
    match t.tag with
    | some tag => tag :: readable ts
    | none => []

/-- The bytes of the entry that are left behind the tags that are read. -/
def leftover : List WireTag → Bytes
  | [] => []
  | t :: ts =>
    match t.tag with
    | some _ => leftover ts
    | none => t.value.payload ++ ts.flatMap WireTag.encode

theorem upTo_tags (ts : List WireTag) (rest : Bytes) :
    upTo Tag.decode ts.length (ts.flatMap WireTag.encode ++ rest) =
      (readable ts, leftover ts ++ rest) := by
  induction ts with
  | nil => rfl
  | cons t ts ih =>
    rw [length_cons, flatMap_cons, append_assoc, upTo, decode_tag]
    unfold readable leftover
    cases htag : t.tag with
    | none =>
      simp only [↓reduceIte]
      rw [append_assoc]
    | some tag =>
      simp only [reduceCtorEq, ↓reduceIte]
      rw [ih]

theorem decode_entry (w : WireEntry) (rest : Bytes) :
    SearchEntry.decode (w.encode ++ rest) =
      (some { id := w.id, tags := readable w.row.tags }, leftover w.row.tags ++ rest) := by
  have hcount : (UInt8.ofNat w.row.tags.length).toNat = w.row.tags.length :=
    UInt8.toNat_ofNat_of_lt' (Nat.lt_succ_of_le w.row.length_le)
  unfold SearchEntry.decode WireEntry.encode
  rw [append_assoc, append_assoc, bind_some (reads_kadId w.id _),
    bind_some (reads_u8 _ _), hcount]
  have htags : collect Tag.decode w.row.tags.length (w.row.tags.flatMap WireTag.encode ++ rest) =
      (some (readable w.row.tags), leftover w.row.tags ++ rest) := by
    unfold collect
    rw [upTo_tags]
  exact bind_some htags

theorem readable_cut (ts : List WireTag) :
    (readable ts).map some <+: ts.map WireTag.tag := by
  induction ts with
  | nil => exact prefix_rfl
  | cons t ts ih =>
    unfold readable
    cases htag : t.tag with
    | none => exact nil_prefix
    | some tag =>
      rw [map_cons, map_cons, htag]
      exact prefix_cons_inj _ |>.mpr ih

theorem tag_eq_none_iff (t : WireTag) : t.tag = none ↔ ¬ReadType t.value.ty := by
  rw [t.value.readType_iff, not_not]
  unfold WireTag.tag
  rw [Option.map_eq_none_iff]

variable {ts : List WireTag} {entries : List WireEntry}

/-- Nothing is left of an entry if and only if all its tags are read. -/
theorem leftover_eq_nil (h : ∀ t ∈ ts, ReadType t.value.ty) :
    leftover ts = [] := by
  induction ts with
  | nil => rfl
  | cons t ts ih =>
    unfold leftover
    cases htag : t.tag with
    | none => exact absurd (h t mem_cons_self) ((tag_eq_none_iff t).mp htag)
    | some tag => exact ih fun t ht => h t (mem_cons_of_mem _ ht)

/-- What is left of another entry begins with a byte that the identifiers do not change. -/
theorem leftover_eq_cons (h : ¬∀ t ∈ ts, ReadType t.value.ty) :
    ∃ first rest, leftover ts = first :: rest := by
  induction ts with
  | nil => exact absurd nofun h
  | cons t ts ih =>
    unfold leftover
    cases htag : t.tag with
    | none =>
      have hunread := (tag_eq_none_iff t).mp htag
      rw [t.value.readType_iff, not_not] at hunread
      cases hvalue : t.value with
      | foreign v => exact ⟨v.first,v.rest ++ ts.flatMap WireTag.encode,rfl⟩
      | _ =>
        rw [hvalue] at hunread
        cases hunread
    | some tag =>
      refine ih fun hall => h ?_
      rw [forall_mem_cons]
      refine ⟨?_,hall⟩
      by_contra hunread
      rw [(tag_eq_none_iff t).mpr hunread] at htag
      cases htag

def WireEntry.entry (w : WireEntry) : SearchEntry := { id := w.id, tags := readable w.row.tags }

theorem trimmed_entry (w : WireEntry) : Trimmed w.entry w := ⟨rfl,readable_cut _⟩

theorem reads_entry {w : WireEntry} (h : w.row.Read) :
    Reads SearchEntry.decode w.encode w.entry := by
  intro rest
  rw [decode_entry, leftover_eq_nil h]
  rfl

theorem le_length_entry (w : WireEntry) : 17 ≤ w.encode.length := by
  unfold WireEntry.encode
  rw [length_append, length_append, length_kadId, length_singleton]
  omega

theorem le_length_entries (entries : List WireEntry) :
    17 * entries.length ≤ (entries.flatMap WireEntry.encode).length := by
  induction entries with
  | nil => exact Nat.le_refl _
  | cons w entries ih =>
    have hw := le_length_entry w
    rw [length_cons, flatMap_cons, length_append]
    omega

/-- The estimate of the entries cuts nothing off. -/
theorem decodeSearchRes_payload (source target : KadId) (h : entries.length < 2 ^ 16) :
    decodeSearchRes (searchResPayload source target entries) =
      some (upTo SearchEntry.decode entries.length (entries.flatMap WireEntry.encode)).1 := by
  have hcount : (UInt16.ofNat entries.length).toNat = entries.length := UInt16.toNat_ofNat_of_lt' h
  have hread := reads_u16Le (UInt16.ofNat entries.length)
  rw [hcount] at hread
  have hleft := le_length_entries entries
  have hmin : min entries.length ((entries.flatMap WireEntry.encode).length / 17 + 1) =
      entries.length := by
    rw [Nat.min_eq_left]
    omega
  unfold decodeSearchRes searchResPayload
  dsimp only
  rw [bind_some (reads_kadId source _), bind_some (reads_kadId target _), bind_some (hread _),
    bind_some (show remaining _ = (some _, _) from rfl), hcount, hmin]
  rfl
/-! ## Search results -/

theorem upTo_entries (h : ∀ w ∈ entries.dropLast, w.row.Read) (rest : Bytes) :
    (upTo SearchEntry.decode entries.length (entries.flatMap WireEntry.encode ++ rest)).1 =
      entries.map WireEntry.entry := by
  induction entries with
  | nil => rfl
  | cons w entries ih =>
    rw [length_cons, flatMap_cons, append_assoc, upTo, decode_entry]
    dsimp only
    cases entries with
    | nil => rfl
    | cons v entries =>
      rw [dropLast_cons_cons, forall_mem_cons] at h
      rw [leftover_eq_nil h.1, nil_append, ih h.2]
      rfl

theorem mem_readable {tag : Tag} (h : tag ∈ readable ts) :
    ∃ t ∈ ts, t.tag = some tag := by
  have hmem := (readable_cut ts).subset (mem_map_of_mem h)
  obtain ⟨t,ht,htag⟩ := mem_map.mp hmem
  exact ⟨t,ht,htag⟩

theorem mem_of_readSourceTag_ip {tags : List Tag} {found : SearchEntry.SourceTags} {ip : UInt32}
    (h : (tags.foldl SearchEntry.readSourceTag found).ip = some ip) :
    found.ip = some ip ∨
      ∃ tag ∈ tags, tag.id = tagSourceIp ∧ tag.asU64.map UInt64.toUInt32 = some ip := by
  induction tags generalizing found with
  | nil => exact .inl h
  | cons tag tags ih =>
    rcases ih h with hfound | ⟨later,hmem,hlater⟩
    · unfold SearchEntry.readSourceTag at hfound
      split_ifs at hfound with htype hip hport
      · exact .inl hfound
      · exact .inr ⟨tag,mem_cons_self,hip,hfound⟩
      · exact .inl hfound
      · exact .inl hfound
    · exact .inr ⟨later,mem_cons_of_mem _ hmem,hlater⟩

theorem mem_of_readSourceTag_port {tags : List Tag} {found : SearchEntry.SourceTags}
    {port : UInt16} (h : (tags.foldl SearchEntry.readSourceTag found).port = some port) :
    found.port = some port ∨
      ∃ tag ∈ tags, tag.id = tagSourcePort ∧ tag.asU64.map UInt64.toUInt16 = some port := by
  induction tags generalizing found with
  | nil => exact .inl h
  | cons tag tags ih =>
    rcases ih h with hfound | ⟨later,hmem,hlater⟩
    · unfold SearchEntry.readSourceTag at hfound
      split_ifs at hfound with htype hip hport
      · exact .inl hfound
      · exact .inl hfound
      · exact .inr ⟨tag,mem_cons_self,hport,hfound⟩
      · exact .inl hfound
    · exact .inr ⟨later,mem_cons_of_mem _ hmem,hlater⟩

theorem sourcePeer_some {e : SearchEntry} {peer : PeerAddr} (h : e.sourcePeer = some peer) :
    (∃ tag ∈ e.tags, tag.id = tagSourceIp ∧
      tag.asU64.map UInt64.toUInt32 = some peer.ip) ∧
    ∃ tag ∈ e.tags, tag.id = tagSourcePort ∧
      tag.asU64.map UInt64.toUInt16 = some peer.port := by
  unfold SearchEntry.sourcePeer at h
  dsimp only at h
  split_ifs at h
  split at h
  case h_2 => cases h
  case h_1 ip port hip hport =>
    split_ifs at h
    cases h
    refine ⟨?_,?_⟩
    · exact (mem_of_readSourceTag_ip hip).resolve_left nofun
    · exact (mem_of_readSourceTag_port hport).resolve_left nofun

theorem contains_of_sourcePeer {w : WireEntry} {peer : PeerAddr}
    (h : w.entry.sourcePeer = some peer) : w.Contains peer := by
  obtain ⟨⟨ip,hip,hipId,hipValue⟩,⟨port,hport,hportId,hportValue⟩⟩ := sourcePeer_some h
  obtain ⟨t,ht,htag⟩ := mem_readable hip
  obtain ⟨t',ht',htag'⟩ := mem_readable hport
  exact ⟨⟨t,ht,ip,htag,hipId,hipValue⟩,⟨t',ht',port,htag',hportId,hportValue⟩⟩

theorem atBoundaries_of_read (source target : KadId) (hlength : entries.length < 2 ^ 16)
    (h : ∀ w ∈ entries.dropLast, w.row.Read) :
    AtBoundaries entries (decodeSearchRes (searchResPayload source target entries)) := by
  have hall := upTo_entries h []
  rw [append_nil] at hall
  rw [decodeSearchRes_payload source target hlength, hall]
  refine ⟨_,rfl,⟨entries.length,?_⟩,?_⟩
  · rw [take_length, forall₂_map_left_iff]
    exact forall₂_same.mpr fun w _ => trimmed_entry w
  · intro e he peer hpeer
    obtain ⟨w,hw,rfl⟩ := mem_map.mp he
    exact ⟨w,hw,contains_of_sourcePeer hpeer⟩

/-! ## The entry behind a tag that is not read -/

/-- The identifier that is read is made of the next bytes, whatever they are. -/
theorem decode_entry_cons (first : UInt8) {rest : Bytes} (h : 16 ≤ rest.length) :
    ∃ e left, SearchEntry.decode (first :: rest) = (some e, left) ∧ e.id[3] = first := by
  have htake : take 16 (first :: rest) =
      (some ((first :: rest).take 16), (first :: rest).drop 16) := by
    unfold take
    rw [if_neg (by rw [length_cons]; omega)]
  have hdrop : (first :: rest).drop 16 ≠ [] := by
    rw [ne_eq, drop_eq_nil_iff, length_cons]
    omega
  obtain ⟨count,left,hleft⟩ := exists_cons_of_ne_nil hdrop
  rw [hleft] at htake
  have harray : array16 (first :: rest) =
      (some (Vector.ofFn fun i : Fin 16 => ((first :: rest).take 16).getD i 0), count :: left) :=
    bind_some htake
  obtain ⟨id,hid,hfirst⟩ : ∃ id,
      KadId.decode (first :: rest) = (some id, count :: left) ∧ id[3] = first :=
    ⟨_,bind_some harray,by simp [dwordReverse]⟩
  have hcount : u8 (count :: left) = (some count, left) := rfl
  refine ⟨⟨id,(upTo Tag.decode count.toNat left).1⟩,(upTo Tag.decode count.toNat left).2,
    ?_,hfirst⟩
  unfold SearchEntry.decode
  rw [bind_some hid, bind_some hcount]
  exact bind_some rfl

theorem exists_unread_before {rows : List WireTags} (h : ¬∀ row ∈ rows.dropLast, row.Read) :
    ∃ front row next back, rows = front ++ row :: next :: back ∧
      (∀ r ∈ front, r.Read) ∧ ¬row.Read := by
  induction rows with
  | nil => exact absurd nofun h
  | cons row rows ih =>
    cases rows with
    | nil => exact absurd nofun h
    | cons next back =>
      by_cases hrow : row.Read
      · rw [dropLast_cons_cons, forall_mem_cons, not_and] at h
        obtain ⟨front,row',next',back',hrows,hfront,hunread⟩ := ih (h hrow)
        refine ⟨row :: front,row',next',back',?_,?_,hunread⟩
        · rw [hrows, cons_append]
        · exact forall_mem_cons.mpr ⟨hrow,hfront⟩
      · exact ⟨[],row,next,back,rfl,nofun,hrow⟩

theorem exists_of_mem_left {α β : Type} {R : α → β → Prop} {as : List α} {bs : List β}
    (h : List.Forall₂ R as bs) {a : α} (ha : a ∈ as) : ∃ b ∈ bs, R a b := by
  induction h with
  | nil => cases ha
  | @cons a' b as bs hab _ ih =>
    rcases mem_cons.mp ha with rfl | ha
    · exact ⟨b,mem_cons_self,hab⟩
    · obtain ⟨b',hb',h⟩ := ih ha
      exact ⟨b',mem_cons_of_mem _ hb',h⟩

theorem AtBoundaries.id_eq {decoded : List SearchEntry} {id : KadId}
    (h : AtBoundaries entries (some decoded)) (hid : ∀ w ∈ entries, w.id = id) :
    ∀ e ∈ decoded, e.id = id := by
  obtain ⟨found,hfound,⟨n,htrimmed⟩,-⟩ := h
  cases hfound
  intro e he
  obtain ⟨w,hw,htrim⟩ := exists_of_mem_left htrimmed he
  exact htrim.1.trans (hid w (mem_of_mem_take hw))

/-- Behind a tag that is not read an identifier is made of the bytes of the tag. -/
theorem exists_mem_decoded {front : List WireEntry} (hfront : ∀ w ∈ front, w.row.Read)
    {w : WireEntry} {first : UInt8} {rest : Bytes} (hleft : leftover w.row.tags = first :: rest)
    (v : WireEntry) (back : List WireEntry) :
    ∃ e ∈ (upTo SearchEntry.decode (front ++ w :: v :: back).length
      ((front ++ w :: v :: back).flatMap WireEntry.encode)).1, e.id[3] = first := by
  have hlong := le_length_entry v
  obtain ⟨e,left,hdecode,hfirst⟩ := decode_entry_cons first
    (show 16 ≤ (rest ++ (v.encode ++ back.flatMap WireEntry.encode)).length by
      rw [length_append, length_append]
      omega)
  have hbehind : (upTo SearchEntry.decode (w :: v :: back).length
      ((w :: v :: back).flatMap WireEntry.encode)).1 =
        w.entry :: e :: (upTo SearchEntry.decode back.length left).1 := by
    rw [length_cons, length_cons, flatMap_cons, flatMap_cons, upTo,
      decode_entry, hleft]
    dsimp only
    rw [cons_append, upTo, hdecode]
    rfl
  refine ⟨e,?_,hfirst⟩
  rw [length_append, flatMap_append, upTo_append fun w hw => reads_entry (hfront w hw)]
  rw [hbehind]
  exact mem_append_right _ (mem_cons_of_mem _ mem_cons_self)

theorem add_one_ne_self (b : UInt8) : b + 1 ≠ b := by
  intro h
  have hnat := congrArg UInt8.toNat h
  have hlt := b.toNat_lt
  rw [UInt8.toNat_add, UInt8.toNat_one] at hnat
  omega

/-- Where an entry is behind a tag that is not read, there are identifiers with which
an entry is returned that is not in the list. -/
theorem read_of_atBoundaries (source target : KadId) {rows : List WireTags}
    (hlength : rows.length < 2 ^ 16)
    (h : ∀ entries, entries.map WireEntry.row = rows →
      AtBoundaries entries (decodeSearchRes (searchResPayload source target entries))) :
    ∀ row ∈ rows.dropLast, row.Read := by
  by_contra hunread
  obtain ⟨front,row,next,back,hrows,hfront,hrow⟩ := exists_unread_before hunread
  obtain ⟨first,rest,hleft⟩ := leftover_eq_cons hrow
  -- No identifier of the list has a byte that the tag begins with.
  have hid : (Vector.replicate 16 (first + 1))[3] = first + 1 := Vector.getElem_replicate _
  generalize Vector.replicate 16 (first + 1) = id at hid
  have hread : ∀ w ∈ front.map (WireEntry.mk id), w.row.Read := by
    intro w hw
    obtain ⟨r,hr,rfl⟩ := mem_map.mp hw
    exact hfront r hr
  obtain ⟨e,he,hfirst⟩ := exists_mem_decoded hread (w := ⟨id,row⟩) hleft ⟨id,next⟩
    (back.map (WireEntry.mk id))
  have hentries : front.map (WireEntry.mk id) ++ ⟨id,row⟩ :: ⟨id,next⟩ ::
      back.map (WireEntry.mk id) = rows.map (WireEntry.mk id) := by
    rw [hrows, map_append, map_cons, map_cons]
  rw [hentries] at he
  have hbound := h (rows.map (WireEntry.mk id)) (by
    rw [map_map]
    exact map_id _)
  rw [decodeSearchRes_payload source target (by rwa [length_map])] at hbound
  have hids : ∀ w ∈ rows.map (WireEntry.mk id), w.id = id := by
    intro w hw
    obtain ⟨r,-,rfl⟩ := mem_map.mp hw
    rfl
  rw [hbound.id_eq hids e he, hid] at hfirst
  exact add_one_ne_self first hfirst

/-! ## What is built -/

/-- A string has a length that its count can say. -/
def Fits (tag : Tag) : Prop := ∀ s, tag.value = .str s → s.length < 2 ^ 16

theorem exists_wire {tag : Tag} (h : Fits tag) :
    ∃ t : WireTag, t.encode = tag.encode ∧ t.tag = some tag := by
  obtain ⟨id,value⟩ := tag
  cases value with
  | u8 v => exact ⟨⟨.marked id,.u8 v⟩,rfl,rfl⟩
  | u16 v => exact ⟨⟨.marked id,.u16 v⟩,rfl,rfl⟩
  | u32 v => exact ⟨⟨.marked id,.u32 v⟩,rfl,rfl⟩
  | u64 v => exact ⟨⟨.marked id,.u64 v⟩,rfl,rfl⟩
  | str s =>
    refine ⟨⟨.marked id,.str s (h s rfl)⟩,?_,rfl⟩
    unfold Tag.encode
    dsimp only
    rw [Nat.mod_eq_of_lt (h s rfl)]
    rfl

theorem reads_tag {tag : Tag} (h : Fits tag) : Reads Tag.decode tag.encode tag := by
  obtain ⟨t,hencode,htag⟩ := exists_wire h
  intro rest
  rw [← hencode, decode_tag, htag]
  rfl

theorem reads_searchEntry {e : SearchEntry} (hcount : e.tags.length ≤ 255)
    (h : ∀ tag ∈ e.tags, Fits tag) : Reads SearchEntry.decode e.encode e := by
  have hlength : (UInt8.ofNat e.tags.length).toNat = e.tags.length :=
    UInt8.toNat_ofNat_of_lt' (Nat.lt_succ_of_le hcount)
  have htags : Reads (collect Tag.decode e.tags.length) (e.tags.flatMap Tag.encode)
      (e.tags.map fun tag => tag) :=
    reads_collect fun tag htag => reads_tag (h tag htag)
  rw [map_id'] at htags
  unfold SearchEntry.decode SearchEntry.encode
  rw [Nat.min_eq_left hcount, take_of_length_le hcount]
  refine (reads_kadId e.id).bind ?_
  refine (reads_u8 (UInt8.ofNat e.tags.length)).bind ?_
  rw [hlength]
  exact htags.map

theorem reads_contacts (contacts : List Contact) :
    Reads (do
      let left ← remaining
      collect Contact.decode (min contacts.length (left / contactWireSize)))
      (contacts.flatMap Contact.encode) contacts := by
  have hsize : ∀ left, (contacts.flatMap Contact.encode).length ≤ left →
      contacts.length ≤ left / contactWireSize := by
    intro left hleft
    rw [length_flatMap, map_congr_left fun c _ => length_contact c] at hleft
    simp only [map_const', sum_replicate_nat] at hleft
    exact (Nat.le_div_iff_mul_le (by decide)).mpr hleft
  have h := reads_counted (fun c _ => reads_contact c) hsize
  rwa [map_id'] at h

theorem decodeBootstrapRes_payload (selfId : KadId) (tcpPort : UInt16) (version : UInt8)
    {contacts : List Contact} (h : contacts.length < 2 ^ 16) :
    decodeBootstrapRes (bootstrapResPayload selfId tcpPort version contacts) = some contacts := by
  have hcount : (UInt16.ofNat contacts.length).toNat = contacts.length :=
    UInt16.toNat_ofNat_of_lt' h
  have hread := reads_u16Le (UInt16.ofNat contacts.length)
  have hcontacts := reads_contacts contacts []
  rw [hcount] at hread
  rw [append_nil] at hcontacts
  unfold decodeBootstrapRes bootstrapResPayload
  dsimp only
  rw [bind_some (reads_kadId selfId _), bind_some (reads_u16Le tcpPort _),
    bind_some (reads_u8 version _), bind_some (hread _), hcount, hcontacts]

theorem decodeFindNodeRes_payload (target : KadId) {contacts : List Contact}
    (h : contacts.length ≤ 255) :
    decodeFindNodeRes (findNodeResPayload target contacts) = some contacts := by
  have hcount : (UInt8.ofNat contacts.length).toNat = contacts.length :=
    UInt8.toNat_ofNat_of_lt' (Nat.lt_succ_of_le h)
  have hcontacts := reads_contacts contacts []
  rw [append_nil] at hcontacts
  unfold decodeFindNodeRes findNodeResPayload
  dsimp only
  rw [bind_some (reads_kadId target _), bind_some (reads_u8 _ _), hcount, hcontacts]

theorem le_length_searchEntries (entries : List SearchEntry) :
    17 * entries.length ≤ (entries.flatMap SearchEntry.encode).length := by
  induction entries with
  | nil => exact Nat.le_refl _
  | cons e entries ih =>
    rw [length_cons, flatMap_cons, length_append]
    unfold SearchEntry.encode at ih ⊢
    rw [length_append, length_kadId, length_cons]
    omega

theorem reads_searchEntries {entries : List SearchEntry}
    (h : ∀ e ∈ entries, e.tags.length ≤ 255 ∧ ∀ tag ∈ e.tags, Fits tag) :
    Reads (do
      let left ← remaining
      collect SearchEntry.decode (min entries.length (left / 17 + 1)))
      (entries.flatMap SearchEntry.encode) entries := by
  have hsize : ∀ left, (entries.flatMap SearchEntry.encode).length ≤ left →
      entries.length ≤ left / 17 + 1 := by
    intro left hleft
    have hlong := le_length_searchEntries entries
    omega
  have hreads := reads_counted (fun e he => reads_searchEntry (h e he).1 (h e he).2) hsize
  rwa [map_id'] at hreads

theorem parseFrame_frame (opcode : UInt8) (payload : Bytes) :
    parseFrame (frame opcode payload) = some (protoKad, opcode, payload) := by
  unfold frame parseFrame
  dsimp only
  rw [if_neg (not_not.mpr rfl)]

theorem decode_buildSearchRes (source target : KadId) {entries : List SearchEntry}
    (hlength : entries.length < 2 ^ 16)
    (h : ∀ e ∈ entries, e.tags.length ≤ 255 ∧ ∀ tag ∈ e.tags, Fits tag) :
    (parseFrame (buildSearchRes source target entries)).bind (fun f => decodeSearchRes f.2.2) =
      some entries := by
  have hcount : (UInt16.ofNat entries.length).toNat = entries.length :=
    UInt16.toNat_ofNat_of_lt' hlength
  have hread := reads_u16Le (UInt16.ofNat entries.length)
  have hentries := reads_searchEntries h []
  rw [hcount] at hread
  rw [append_nil] at hentries
  unfold buildSearchRes
  rw [parseFrame_frame, Nat.mod_eq_of_lt hlength, Option.bind_some]
  unfold decodeSearchRes
  dsimp only
  rw [bind_some (reads_kadId source _), bind_some (reads_kadId target _), bind_some (hread _),
    hcount, hentries]

/-! ## The file of the contacts -/

theorem reads_stored {format : NodesDatFormat} {extra : ℕ}
    (hextra : extra = if format.Keyed then 9 else 0) (c : StoredContact) :
    Reads (do
      let c ← Contact.decode
      if 0 < extra then
        let _ ← take extra
        pure c
      else pure c) (c.encode format) c.contact := by
  refine (reads_contact c.contact).bind ?_
  by_cases hkeyed : format.Keyed
  · rw [if_pos hkeyed] at hextra ⊢
    rw [hextra]
    exact (reads_take (by simp)).map (g := fun _ => c.contact)
  · rw [if_neg hkeyed] at hextra ⊢
    rw [hextra]
    exact reads_pure c.contact

theorem reads_nodesDatContacts {format : NodesDatFormat} {version bootstrapEdition : UInt32}
    (hkeyed : format.Keyed ↔ 2 ≤ version ∧ bootstrapEdition = 0) (stored : List StoredContact)
    (h : stored.length < 2 ^ 32) :
    Reads (nodesDatContacts version bootstrapEdition (UInt32.ofNat stored.length))
      (stored.flatMap (StoredContact.encode format)) (stored.map StoredContact.contact) := by
  have hcount : (UInt32.ofNat stored.length).toNat = stored.length :=
    UInt32.toNat_ofNat_of_lt' h
  have hextra : (if 2 ≤ version ∧ bootstrapEdition = 0 then 9 else 0) =
      if format.Keyed then 9 else 0 := by
    simp only [hkeyed]
  unfold nodesDatContacts
  dsimp only
  rw [hcount, hextra]
  refine reads_counted (fun c _ => reads_stored rfl c) ?_
  intro left hleft
  have hsize : ∀ c ∈ stored, (c.encode format).length =
      contactWireSize + if format.Keyed then 9 else 0 := by
    intro c _
    unfold StoredContact.encode
    rw [length_append, length_contact, apply_ite List.length]
    simp
  rw [length_flatMap, map_congr_left hsize] at hleft
  simp only [map_const', sum_replicate_nat] at hleft
  rw [Nat.max_eq_left (Nat.le_add_right_of_le (by decide))]
  exact (Nat.le_div_iff_mul_le (Nat.add_pos_left (by decide) _)).mpr hleft

theorem reads_count {n : ℕ} (h : n < 2 ^ 32) : Reads u32Le (toLe 4 n) (UInt32.ofNat n) := by
  have hread := reads_u32Le (UInt32.ofNat n)
  rwa [UInt32.toNat_ofNat_of_lt' h] at hread

theorem parseNodesDat_nodesDat (format : NodesDatFormat) {stored : List StoredContact}
    (h : stored.length < 2 ^ 32) :
    parseNodesDat (nodesDat format stored) = stored.map StoredContact.contact := by
  have hcount := reads_count h
  have hzero := reads_count (n := 0) (by decide)
  have hsome : ∀ {version bootstrapEdition : UInt32},
      (format.Keyed ↔ 2 ≤ version ∧ bootstrapEdition = 0) →
      nodesDatContacts version bootstrapEdition (UInt32.ofNat stored.length)
        (stored.flatMap (StoredContact.encode format)) =
          (some (stored.map StoredContact.contact), []) := by
    intro version bootstrapEdition hkeyed
    have hreads := reads_nodesDatContacts hkeyed stored h []
    rwa [append_nil] at hreads
  unfold parseNodesDat nodesDat NodesDatFormat.header
  dsimp only
  cases format with
  | legacy =>
    dsimp only
    rw [bind_some (hcount _)]
    by_cases hfirst : UInt32.ofNat stored.length = 0
    · have hlength := congrArg UInt32.toNat hfirst
      rw [UInt32.toNat_ofNat_of_lt' h] at hlength
      rw [if_neg (not_not.mpr hfirst), eq_nil_of_length_eq_zero hlength]
      rfl
    · rw [if_pos hfirst, hsome (by simp [NodesDatFormat.Keyed])]
      rfl
  | v1 | v2 =>
    dsimp only
    rw [append_assoc, append_assoc, bind_some (hzero _), if_neg (by decide),
      bind_some (reads_count (by decide) _), if_neg (by decide), if_neg (by decide),
      bind_some (hcount _), hsome (by simp [NodesDatFormat.Keyed])]
    rfl
  | v3 bootstrapEdition =>
    dsimp only
    rw [append_assoc, append_assoc, append_assoc, bind_some (hzero _),
      if_neg (by decide), bind_some (reads_count (by decide) _), if_neg (by decide),
      if_pos (by decide), bind_some (reads_u32Le bootstrapEdition _), bind_some (hcount _),
      hsome (by simp [NodesDatFormat.Keyed])]
    rfl

/-! ## Where messages are read -/

def zeroId : KadId := Vector.replicate 16 0

/-- A search result is read at its boundaries, whatever the identifiers in it are, if and
only if no entry that another follows has a tag of a type that is not read. Messages of
contacts, and entries that are built here, are read as they were. -/
theorem boundaries_iff (rows : List WireTags) (hrows : rows.length < 2 ^ 16) :
    ((∀ source target entries, entries.map WireEntry.row = rows →
      AtBoundaries entries (decodeSearchRes (searchResPayload source target entries))) ↔
      ∀ row ∈ rows.dropLast, row.Read) ∧
    (∀ source target entries, entries.length < 2 ^ 16 →
      (∀ e ∈ entries, e.tags.length ≤ 255 ∧ ∀ tag ∈ e.tags, Fits tag) →
      (parseFrame (buildSearchRes source target entries)).bind
        (fun f => decodeSearchRes f.2.2) = some entries) ∧
    (∀ selfId tcpPort version contacts, contacts.length < 2 ^ 16 →
      decodeBootstrapRes (bootstrapResPayload selfId tcpPort version contacts) = some contacts ∧
      (parseFrame (buildBootstrapRes selfId tcpPort contacts)).bind
        (fun f => decodeBootstrapRes f.2.2) = some contacts) ∧
    (∀ target contacts, contacts.length ≤ 255 →
      decodeFindNodeRes (findNodeResPayload target contacts) = some contacts ∧
      (parseFrame (buildFindNodeRes target contacts)).bind
        (fun f => decodeFindNodeRes f.2.2) = some contacts) ∧
    ∀ format stored, stored.length < 2 ^ 32 →
      parseNodesDat (nodesDat format stored) = stored.map StoredContact.contact := by
  refine ⟨⟨?_,?_⟩,?_,?_,?_,?_⟩
  · intro h
    exact read_of_atBoundaries zeroId zeroId hrows (h zeroId zeroId)
  · rintro h source target entries rfl
    rw [length_map] at hrows
    refine atBoundaries_of_read source target hrows fun w hw => h w.row ?_
    rw [← map_dropLast]
    exact mem_map_of_mem hw
  · intro source target entries hlength h
    exact decode_buildSearchRes source target hlength h
  · intro selfId tcpPort version contacts h
    refine ⟨decodeBootstrapRes_payload selfId tcpPort version h,?_⟩
    unfold buildBootstrapRes
    rw [parseFrame_frame, Nat.mod_eq_of_lt h, Option.bind_some]
    exact decodeBootstrapRes_payload selfId tcpPort kademliaVersion h
  · intro target contacts h
    refine ⟨decodeFindNodeRes_payload target h,?_⟩
    unfold buildFindNodeRes
    rw [parseFrame_frame, Nat.min_eq_left h, take_of_length_le h, Option.bind_some]
    exact decodeFindNodeRes_payload target h
  · intro format stored h
    exact parseNodesDat_nodesDat format h

/-- A tag of a float, 1.0, which is not read. -/
def floatTag : WireTag where
  name := .marked 0x40
  value := .foreign ⟨0x04,0x00,[0x00, 0x80, 0x3f],by decide,by decide⟩

def floatRow : WireTags := ⟨[floatTag],by decide⟩

def sourceRow : WireTags :=
  ⟨[⟨.marked tagSourceType,.u8 1⟩, ⟨.marked tagSourceIp,.u32 0x06070809⟩,
    ⟨.marked tagSourcePort,.u16 4662⟩],by decide⟩

/-- The second entry is read from the middle of the float of the first. -/
theorem float_moves_boundary :
    ¬AtBoundaries [⟨zeroId,floatRow⟩, ⟨zeroId,sourceRow⟩]
      (decodeSearchRes (searchResPayload zeroId zeroId
        [⟨zeroId,floatRow⟩, ⟨zeroId,sourceRow⟩])) := by
  intro h
  have hdecode : decodeSearchRes (searchResPayload zeroId zeroId
      [⟨zeroId,floatRow⟩, ⟨zeroId,sourceRow⟩]) =
        some [⟨zeroId,[]⟩, ⟨#v[0x3f, 0x80, 0, 0, 0, 0, 0, 0, 0, 0, 0, 0, 0, 0, 0, 0],[]⟩] := by
    decide +kernel
  rw [hdecode] at h
  have hids : ∀ w ∈ [WireEntry.mk zeroId floatRow, ⟨zeroId,sourceRow⟩], w.id = zeroId := by simp
  have hid := h.id_eq hids _ (mem_cons_of_mem _ mem_cons_self)
  revert hid
  decide

def sampleContact : Contact where
  id := zeroId
  endpoint := { ip := 0x06070809, udpPort := 4672, tcpPort := 4662 }
  version := kademliaVersion

def sampleEntry : SearchEntry := ⟨zeroId,[⟨tagSourceType,.u8 1⟩]⟩

theorem boundaries_iff_sample :
    (∀ source target entries, entries.map WireEntry.row = [sourceRow, floatRow] →
      AtBoundaries entries (decodeSearchRes (searchResPayload source target entries))) ∧
    ((parseFrame (buildSearchRes zeroId zeroId [sampleEntry])).bind
      (fun f => decodeSearchRes f.2.2) = some [sampleEntry]) ∧
    (decodeBootstrapRes (bootstrapResPayload zeroId 4662 kademliaVersion [sampleContact]) =
      some [sampleContact]) ∧
    (decodeFindNodeRes (findNodeResPayload zeroId [sampleContact]) = some [sampleContact]) ∧
    parseNodesDat (nodesDat .v2 [⟨sampleContact,Vector.replicate 9 1⟩]) = [sampleContact] := by
  obtain ⟨hsearch,hbuilt,hbootstrap,hfindNode,hnodesDat⟩ :=
    boundaries_iff [sourceRow, floatRow] (by decide)
  refine ⟨hsearch.mpr ?_,?_,?_,?_,?_⟩
  · intro row hrow
    cases mem_singleton.mp hrow
    intro t ht
    rcases mem_cons.mp ht with rfl | ht
    · exact .inr (.inl rfl)
    · rcases mem_cons.mp ht with rfl | ht
      · exact .inr (.inr (.inr (.inl rfl)))
      · cases mem_singleton.mp ht
        exact .inr (.inr (.inl rfl))
  · refine hbuilt zeroId zeroId [sampleEntry] (by decide) ?_
    rw [forall_mem_singleton]
    refine ⟨by decide,?_⟩
    intro tag htag s hs
    cases mem_singleton.mp htag
    cases hs
  · exact (hbootstrap zeroId 4662 kademliaVersion [sampleContact] (by decide)).1
  · exact (hfindNode zeroId [sampleContact] (by decide)).1
  · exact hnodesDat .v2 [⟨sampleContact,Vector.replicate 9 1⟩] (by decide)

end RinaDown.KadBoundaries
