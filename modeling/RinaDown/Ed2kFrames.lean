import RinaDown.ByteReaders
import RinaDown.Ed2kBlockTask

/-!
# Part requests and frames

A part request has three slots of a fixed width, and an empty slot is written as two zeros. A
frame is a protocol byte, the length of what follows, an opcode and a payload.
-/

namespace RinaDown.Ed2kFrames

open ByteReaders.Reader Ed2kHash Ed2kBlockTask
open List hiding Vector

/-! ## Reading at an offset -/

def readLe (name : String) (width : ℕ) (buf : Bytes) (off : ℕ) : Except DownloadError ℕ :=
  if off + width ≤ buf.length then .ok (fromLe ((buf.drop off).take width))
  else .error (.ed2k s!"frame truncated ({name})")

def readU32Le : Bytes → ℕ → Except DownloadError ℕ := readLe "u32" 4

def readU64Le : Bytes → ℕ → Except DownloadError ℕ := readLe "u64" 8

def readHash16 (buf : Bytes) (off : ℕ) : Except DownloadError Digest :=
  if h : off + 16 ≤ buf.length then
    .ok ⟨((buf.drop off).take 16).toArray,by
      rw [List.size_toArray, List.length_take, List.length_drop]
      omega⟩
  else .error (.ed2k "frame truncated (hash16)")

theorem readLe_of_append {name : String} {width n off : ℕ} {buf front back : Bytes}
    (hbuf : buf = front ++ (toLe width n ++ back)) (hoff : front.length = off)
    (hn : n < 256 ^ width) : readLe name width buf off = .ok n := by
  have hlength : off + width ≤ buf.length := by
    rw [hbuf, length_append, length_append, length_toLe, hoff]
    omega
  have hword : (buf.drop off).take width = toLe width n := by
    rw [hbuf, ← hoff, drop_left]
    exact take_left' (length_toLe width n)
  rw [readLe, if_pos hlength, hword, fromLe_toLe width n hn]

theorem readHash16_append (hash : Digest) (back : Bytes) :
    readHash16 (hash.toList ++ back) 0 = .ok hash := by
  have hsize : hash.toList.length = 16 := Vector.length_toList
  have hlength : 0 + 16 ≤ (hash.toList ++ back).length := by
    rw [length_append, hsize]
    omega
  have htake : ((hash.toList ++ back).drop 0).take 16 = hash.toList := by
    rw [drop_zero]
    exact take_left' hsize
  rw [readHash16, dif_pos hlength]
  congr 1
  apply Vector.toList_inj.1
  exact htake

/-! ## Part requests -/

def OP_REQUESTPARTS : UInt8 := 0x47
def OP_REQUESTPARTS_I64 : UInt8 := 0xA3

def OLD_MAX_FILE_SIZE : ℕ := 4290048000

structure RequestParts where
  fileHash : Digest
  ranges : Vector (Option PartRange) 3
  largeFile : Bool
deriving DecidableEq

def RequestParts.starts (rp : RequestParts) : Vector ℕ 3 :=
  rp.ranges.map fun r => (r.map PartRange.start).getD 0

def RequestParts.ends (rp : RequestParts) : Vector ℕ 3 :=
  rp.ranges.map fun r => (r.map PartRange.endExclusive).getD 0

/-- The three numbers of a field, cut to its width. -/
def writeSlots (width : ℕ) (slots : Vector ℕ 3) : Bytes :=
  slots.toList.flatMap fun n => toLe width (n % 256 ^ width)

def encode (rp : RequestParts) : UInt8 × Bytes :=
  if rp.largeFile then
    (OP_REQUESTPARTS_I64, rp.fileHash.toList ++ writeSlots 8 rp.starts ++ writeSlots 8 rp.ends)
  else
    (OP_REQUESTPARTS, rp.fileHash.toList ++ writeSlots 4 rp.starts ++ writeSlots 4 rp.ends)

def readSlots (read : Bytes → ℕ → Except DownloadError ℕ) (width : ℕ) (buf : Bytes) (off : ℕ) :
    Except DownloadError (Vector ℕ 3) := do
  let a ← read buf off
  let b ← read buf (off + width)
  let c ← read buf (off + 2 * width)
  pure #v[a, b, c]

def slotRange (start endExclusive : ℕ) : Option PartRange :=
  if start = 0 ∧ endExclusive = 0 then none else some ⟨start,endExclusive⟩

def decode (payload : Bytes) (largeFile : Bool) : Except DownloadError RequestParts := do
  let fileHash ← readHash16 payload 0
  let starts ←
    if largeFile then readSlots readU64Le 8 payload 16 else readSlots readU32Le 4 payload 16
  let ends ←
    if largeFile then readSlots readU64Le 8 payload (16 + 24)
    else readSlots readU32Le 4 payload (16 + 12)
  pure ⟨fileHash,starts.zipWith slotRange ends,largeFile⟩

theorem eq_three {α : Type} (slots : Vector α 3) : slots = #v[slots[0], slots[1], slots[2]] := by
  apply Vector.ext
  intro i hi
  match i, hi with
  | 0, _ => rfl
  | 1, _ => rfl
  | 2, _ => rfl

theorem readSlots_of_append {name : String} {width off : ℕ} {buf front back : Bytes}
    {slots : Vector ℕ 3} (hbuf : buf = front ++ (writeSlots width slots ++ back))
    (hoff : front.length = off) (hslots : ∀ n ∈ slots, n < 256 ^ width) :
    readSlots (readLe name width) width buf off = .ok slots := by
  obtain ⟨a,b,c,rfl⟩ : ∃ a b c, slots = #v[a, b, c] := ⟨_,_,_,eq_three slots⟩
  have ha : a < 256 ^ width := hslots a (by simp)
  have hb : b < 256 ^ width := hslots b (by simp)
  have hc : c < 256 ^ width := hslots c (by simp)
  have hwritten : writeSlots width #v[a, b, c] = toLe width a ++ (toLe width b ++ toLe width c) := by
    simp [writeSlots, Nat.mod_eq_of_lt ha, Nat.mod_eq_of_lt hb, Nat.mod_eq_of_lt hc]
  rw [hwritten] at hbuf
  simp only [append_assoc] at hbuf
  have hfirst : readLe name width buf off = .ok a := readLe_of_append hbuf hoff ha
  have hbuf₂ : buf = (front ++ toLe width a) ++ (toLe width b ++ (toLe width c ++ back)) := by
    rw [hbuf, append_assoc]
  have hbuf₃ : buf = (front ++ (toLe width a ++ toLe width b)) ++ (toLe width c ++ back) := by
    rw [hbuf, append_assoc, append_assoc]
  have hsecond : readLe name width buf (off + width) = .ok b := by
    refine readLe_of_append hbuf₂ ?_ hb
    rw [length_append, length_toLe, hoff]
  have hthird : readLe name width buf (off + 2 * width) = .ok c := by
    refine readLe_of_append hbuf₃ ?_ hc
    simp only [length_append, length_toLe, hoff]
    omega
  simp only [readSlots, hfirst, hsecond, hthird]
  rfl

theorem length_writeSlots (width : ℕ) (slots : Vector ℕ 3) :
    (writeSlots width slots).length = 3 * width := by
  rw [eq_three slots]
  simp only [writeSlots, flatMap_cons, flatMap_nil, length_append, length_toLe,
    Vector.toList_mk, length_nil]
  omega

/-! ## Round trips -/

/-- A slot that is written and read back: it is empty, or its range does not look empty and its
bounds fit the width. -/
def SlotFits (bound : ℕ) (r : Option PartRange) : Prop :=
  ∀ range, r = some range → 0 < range.endExclusive ∧ range.start < bound ∧
    range.endExclusive < bound

theorem slotRange_of_fits {bound : ℕ} {r : Option PartRange} (h : SlotFits bound r) :
    slotRange ((r.map PartRange.start).getD 0) ((r.map PartRange.endExclusive).getD 0) = r := by
  cases r with
  | none => rfl
  | some range =>
    have hpos := (h range rfl).1
    show slotRange range.start range.endExclusive = some range
    rw [slotRange, if_neg (by omega)]

theorem bounds_of_fits {bound : ℕ} (hbound : 0 < bound) {rp : RequestParts}
    (h : ∀ r ∈ rp.ranges, SlotFits bound r) :
    (∀ n ∈ rp.starts, n < bound) ∧ ∀ n ∈ rp.ends, n < bound := by
  constructor
  · intro n hn
    obtain ⟨r,hr,rfl⟩ := Vector.mem_map.1 hn
    cases r with
    | none => exact hbound
    | some range => exact (h _ hr range rfl).2.1
  · intro n hn
    obtain ⟨r,hr,rfl⟩ := Vector.mem_map.1 hn
    cases r with
    | none => exact hbound
    | some range => exact (h _ hr range rfl).2.2

theorem zipWith_slots {bound : ℕ} {rp : RequestParts} (h : ∀ r ∈ rp.ranges, SlotFits bound r) :
    rp.starts.zipWith slotRange rp.ends = rp.ranges := by
  apply Vector.ext
  intro i hi
  rw [Vector.getElem_zipWith, RequestParts.starts, RequestParts.ends, Vector.getElem_map,
    Vector.getElem_map]
  exact slotRange_of_fits (h _ (Vector.getElem_mem hi))

def slotWidth (largeFile : Bool) : ℕ := if largeFile then 8 else 4

theorem read_request (name : String) (width : ℕ) (hash : Digest) {starts ends : Vector ℕ 3}
    (hstarts : ∀ n ∈ starts, n < 256 ^ width) (hends : ∀ n ∈ ends, n < 256 ^ width) {buf : Bytes}
    (hbuf : buf = hash.toList ++ writeSlots width starts ++ writeSlots width ends) :
    readHash16 buf 0 = .ok hash ∧ readSlots (readLe name width) width buf 16 = .ok starts ∧
      readSlots (readLe name width) width buf (16 + 3 * width) = .ok ends := by
  have hsize : hash.toList.length = 16 := Vector.length_toList
  have hfront : buf = hash.toList ++ (writeSlots width starts ++ writeSlots width ends) := by
    rw [hbuf, append_assoc]
  have hback : buf = (hash.toList ++ writeSlots width starts) ++ (writeSlots width ends ++ []) := by
    rw [hbuf, append_nil]
  refine ⟨?_,readSlots_of_append hfront hsize hstarts,readSlots_of_append hback ?_ hends⟩
  · rw [hfront]
    exact readHash16_append hash _
  · rw [length_append, length_writeSlots, hsize]

theorem decode_encode (rp : RequestParts)
    (h : ∀ r ∈ rp.ranges, SlotFits (256 ^ slotWidth rp.largeFile) r) :
    decode (encode rp).2 rp.largeFile = .ok rp := by
  have hranges := zipWith_slots h
  have hbounds := bounds_of_fits (Nat.pow_pos (by decide)) h
  obtain ⟨fileHash,ranges,largeFile⟩ := rp
  cases largeFile with
  | true =>
    obtain ⟨hhash,hstarts,hends⟩ := read_request "u64" 8 fileHash hbounds.1 hbounds.2 rfl
    simp only [decode, encode, readU64Le, if_true, hhash, hstarts, hends, bind, Except.bind]
    rw [hranges]
    rfl
  | false =>
    obtain ⟨hhash,hstarts,hends⟩ := read_request "u32" 4 fileHash hbounds.1 hbounds.2 rfl
    simp only [decode, encode, readU32Le, Bool.false_eq_true, if_false, hhash, hstarts, hends,
      bind, Except.bind]
    rw [hranges]
    rfl

/-! ## The requests of a session -/

/-- What `send_request_parts` makes of the first three ranges in flight. -/
def requestParts (fileHash : Digest) (inflight : List PartRange) (largeFile : Bool) :
    RequestParts :=
  ⟨fileHash,#v[inflight[0]?, inflight[1]?, inflight[2]?],largeFile⟩

/-- The session takes the wide form for files above the old limit. -/
def isLargeFile (totalBytes : ℕ) : Bool := OLD_MAX_FILE_SIZE < totalBytes

def requested (rp : RequestParts) : List PartRange := rp.ranges.toList.filterMap id

theorem requested_requestParts (fileHash : Digest) {inflight : List PartRange}
    (hcount : inflight.length ≤ maxInflight) (largeFile : Bool) :
    requested (requestParts fileHash inflight largeFile) = inflight := by
  unfold maxInflight at hcount
  match inflight, hcount with
  | [], _ => rfl
  | [_], _ => rfl
  | [_, _], _ => rfl
  | [_, _, _], _ => rfl

/-- A request for ranges of the file is read back as it was. -/
theorem decode_requestParts (fileHash : Digest) {inflight : List PartRange} {totalBytes : ℕ}
    (htotal : totalBytes < 2 ^ 64)
    (hranges : ∀ r ∈ inflight, r.start < r.endExclusive ∧ r.endExclusive ≤ totalBytes) :
    decode (encode (requestParts fileHash inflight (isLargeFile totalBytes))).2
        (isLargeFile totalBytes) =
      .ok (requestParts fileHash inflight (isLargeFile totalBytes)) := by
  have hwidth : totalBytes < 256 ^ slotWidth (isLargeFile totalBytes) := by
    by_cases hlarge : OLD_MAX_FILE_SIZE < totalBytes
    · simp only [slotWidth, isLargeFile, hlarge, decide_true, if_true]
      omega
    · simp only [slotWidth, isLargeFile, hlarge, decide_false, Bool.false_eq_true, if_false]
      unfold OLD_MAX_FILE_SIZE at hlarge
      omega
  refine decode_encode (requestParts fileHash inflight (isLargeFile totalBytes)) ?_
  intro r hr range hrange
  have hmem : range ∈ inflight := by
    subst hrange
    simp only [requestParts, Vector.mem_mk, mem_toArray, mem_cons, not_mem_nil,
      or_false] at hr
    rcases hr with hr | hr | hr
    · exact mem_of_getElem? hr.symm
    · exact mem_of_getElem? hr.symm
    · exact mem_of_getElem? hr.symm
  have hrange' := hranges range hmem
  show 0 < range.endExclusive ∧ range.start < 256 ^ slotWidth (isLargeFile totalBytes) ∧
    range.endExclusive < 256 ^ slotWidth (isLargeFile totalBytes)
  omega

/-! ## Frames -/

def PROTO_EDONKEY : UInt8 := 0xE3
def PROTO_EMULE : UInt8 := 0xC5
def PROTO_PACKED : UInt8 := 0xD4

/-- The length of a frame is a 32-bit sum. -/
def frameWithProto (proto opcode : UInt8) (payload : Bytes) : Bytes :=
  proto :: toLe 4 ((payload.length % 2 ^ 32 + 1) % 2 ^ 32) ++ opcode :: payload

def frame : UInt8 → Bytes → Bytes := frameWithProto PROTO_EDONKEY

/-- What a zlib stream gives read by read, and the error with which it ends, if any. -/
abbrev Zlib := Bytes → List Bytes × Option String

def collectBounded (maxOutput : ℕ) (out : Bytes) :
    List Bytes → Option String → Except DownloadError Bytes
  | [], none => .ok out
  | [], some e => .error (.ed2k s!"zlib decode error: {e}")
  | chunk :: chunks, e =>
      if chunk.isEmpty then .ok out
      else if maxOutput < out.length + chunk.length then
        .error (.ed2k s!"zlib output exceeds limit {maxOutput} (bomb?)")
      else collectBounded maxOutput (out ++ chunk) chunks e

def decompressBounded (zlib : Zlib) (input : Bytes) (maxOutput : ℕ) : Except DownloadError Bytes :=
  collectBounded maxOutput [] (zlib input).1 (zlib input).2

def readExact (n : ℕ) (reader : Bytes) : Except DownloadError (Bytes × Bytes) :=
  if n ≤ reader.length then .ok (reader.take n, reader.drop n) else .error (.io "early eof")

def hexDigits : List Char :=
  ['0', '1', '2', '3', '4', '5', '6', '7', '8', '9', 'a', 'b', 'c', 'd', 'e', 'f']

def hexByte (b : UInt8) : String :=
  String.ofList [hexDigits.getD (b.toNat / 16) '0', hexDigits.getD (b.toNat % 16) '0']

structure Frame where
  proto : UInt8
  opcode : UInt8
  payload : Bytes
deriving DecidableEq

def readFrame (zlib : Zlib) (maxPayloadLen : ℕ) (reader : Bytes) :
    Except DownloadError (Frame × Bytes) := do
  let (head, reader) ← readExact 6 reader
  let proto := head.getD 0 0
  if proto ≠ PROTO_EDONKEY ∧ proto ≠ PROTO_EMULE ∧ proto ≠ PROTO_PACKED then
    .error (.ed2k s!"illegal proto byte 0x{hexByte proto}")
  else
    let size := fromLe ((head.drop 1).take 4)
    if size = 0 then .error (.ed2k "frame size 0 (missing opcode)")
    else if maxPayloadLen < size - 1 then
      .error (.ed2k s!"frame payload len {size - 1} exceeds max {maxPayloadLen}")
    else
      let opcode := head.getD 5 0
      let (payload, reader) ← readExact (size - 1) reader
      if proto = PROTO_PACKED then
        let decompressed ← decompressBounded zlib payload maxPayloadLen
        pure (⟨PROTO_EDONKEY,opcode,decompressed⟩, reader)
      else pure (⟨proto,opcode,payload⟩, reader)

def readFrames (zlib : Zlib) (maxPayloadLen : ℕ) :
    ℕ → Bytes → Except DownloadError (List Frame × Bytes)
  | 0, reader => .ok ([], reader)
  | n + 1, reader => do
      let (first, reader) ← readFrame zlib maxPayloadLen reader
      let (rest, reader) ← readFrames zlib maxPayloadLen n reader
      pure (first :: rest, reader)

theorem readExact_append {n : ℕ} {front back : Bytes} (h : front.length = n) :
    readExact n (front ++ back) = .ok (front, back) := by
  have hlength : n ≤ (front ++ back).length := by
    rw [length_append, h]
    omega
  rw [readExact, if_pos hlength, ← h, take_left, drop_left]

/-- A frame that the reader takes as it is written: it is not compressed, its payload is within the
limit and its length fits 32 bits. -/
structure Readable (maxPayloadLen : ℕ) (f : Frame) : Prop where
  proto : f.proto = PROTO_EDONKEY ∨ f.proto = PROTO_EMULE
  limit : f.payload.length ≤ maxPayloadLen
  fits : f.payload.length + 1 < 2 ^ 32

def Frame.bytes (f : Frame) : Bytes := frameWithProto f.proto f.opcode f.payload

variable {zlib : Zlib} {maxPayloadLen : ℕ}

theorem readFrame_append {f : Frame} (h : Readable maxPayloadLen f) (rest : Bytes) :
    readFrame zlib maxPayloadLen (f.bytes ++ rest) = .ok (f, rest) := by
  obtain ⟨proto,opcode,payload⟩ := f
  have hlimit : payload.length ≤ maxPayloadLen := h.limit
  have hfits : payload.length + 1 < 2 ^ 32 := h.fits
  have hmod : (payload.length % 2 ^ 32 + 1) % 2 ^ 32 = payload.length + 1 := by omega
  set word : Bytes := toLe 4 (payload.length + 1) with hword
  have hwordLength : word.length = 4 := length_toLe 4 _
  have hsize : fromLe word = payload.length + 1 := fromLe_toLe 4 _ (by omega)
  have hbytes : Frame.bytes ⟨proto,opcode,payload⟩ ++ rest =
      (proto :: (word ++ [opcode])) ++ (payload ++ rest) := by
    rw [Frame.bytes, frameWithProto, hmod, ← hword]
    simp
  have hhead : readExact 6 ((proto :: (word ++ [opcode])) ++ (payload ++ rest)) =
      .ok (proto :: (word ++ [opcode]), payload ++ rest) := by
    refine readExact_append ?_
    simp [hwordLength]
  have hproto : ¬ (proto ≠ PROTO_EDONKEY ∧ proto ≠ PROTO_EMULE ∧ proto ≠ PROTO_PACKED) := by
    rcases h.proto with heq | heq
    · exact fun hne => hne.1 heq
    · exact fun hne => hne.2.1 heq
  have hpacked : proto ≠ PROTO_PACKED := by
    rcases h.proto with heq | heq
    · intro hpacked
      exact absurd (heq.symm.trans hpacked) (by decide)
    · intro hpacked
      exact absurd (heq.symm.trans hpacked) (by decide)
  have hsizeField : fromLe (((proto :: (word ++ [opcode])).drop 1).take 4) =
      payload.length + 1 := by
    rw [drop_succ_cons, drop_zero, take_left' hwordLength, hsize]
  have hopcode : (proto :: (word ++ [opcode])).getD 5 0 = opcode := by
    rw [getD_cons_succ, getD_eq_getElem?_getD, ← hwordLength,
      getElem?_concat_length]
    rfl
  have hpayload : readExact (payload.length + 1 - 1) (payload ++ rest) = .ok (payload, rest) :=
    readExact_append (Nat.add_sub_cancel _ _).symm
  rw [hbytes, readFrame, hhead]
  simp only [bind, Except.bind, getD_cons_zero, if_neg hproto, hsizeField, hopcode, hpayload,
    if_neg hpacked, Nat.succ_ne_zero, if_false]
  rw [if_neg (by omega)]
  rfl

/-- Frames are read back one after the other, and what follows them is left. -/
theorem readFrames_append (frames : List Frame) (h : ∀ f ∈ frames, Readable maxPayloadLen f)
    (rest : Bytes) :
    readFrames zlib maxPayloadLen frames.length (frames.flatMap Frame.bytes ++ rest) =
      .ok (frames, rest) := by
  induction frames with
  | nil => rfl
  | cons f frames ih =>
    have hfirst : readFrame zlib maxPayloadLen
        (f.bytes ++ (frames.flatMap Frame.bytes ++ rest)) =
          .ok (f, frames.flatMap Frame.bytes ++ rest) :=
      readFrame_append (h f mem_cons_self) _
    have hrest := ih fun g hg => h g (mem_cons_of_mem f hg)
    rw [flatMap_cons, append_assoc, length_cons, readFrames, hfirst]
    simp only [bind, Except.bind, hrest]
    rfl

/-! ## The codec -/

/-- A request for up to three ranges of the file is read back with its hash and its ranges, in the
form that the session takes for the size of the file; and frames within the limit of the reader
are read back in order from what they are written to. -/
theorem codec_round_trips (fileHash : Digest) (inflight : List PartRange) (totalBytes : ℕ)
    (zlib : Zlib) (maxPayloadLen : ℕ) (frames : List Frame) (rest : Bytes)
    (htotal : totalBytes < 2 ^ 64) (hcount : inflight.length ≤ maxInflight)
    (hranges : ∀ r ∈ inflight, r.start < r.endExclusive ∧ r.endExclusive ≤ totalBytes)
    (hframes : ∀ f ∈ frames, Readable maxPayloadLen f) :
    (∃ rp, decode (encode (requestParts fileHash inflight (isLargeFile totalBytes))).2
          (isLargeFile totalBytes) = .ok rp ∧
        rp.fileHash = fileHash ∧ requested rp = inflight ∧
        (encode (requestParts fileHash inflight (isLargeFile totalBytes))).1 =
          if rp.largeFile then OP_REQUESTPARTS_I64 else OP_REQUESTPARTS) ∧
      readFrames zlib maxPayloadLen frames.length (frames.flatMap Frame.bytes ++ rest) =
        .ok (frames, rest) := by
  refine ⟨⟨_,decode_requestParts fileHash htotal hranges,rfl,
    requested_requestParts fileHash hcount _,?_⟩,readFrames_append frames hframes rest⟩
  show (encode (requestParts fileHash inflight (isLargeFile totalBytes))).1 =
    if isLargeFile totalBytes then OP_REQUESTPARTS_I64 else OP_REQUESTPARTS
  cases isLargeFile totalBytes
  · rfl
  · rfl

/-- Two ranges of a large file, of which one begins at the first byte. -/
def largeRanges : List PartRange := [⟨0,184320⟩, ⟨5000000000,5000184320⟩]

def shortFrames : List Frame := [⟨PROTO_EDONKEY,OP_REQUESTPARTS,[1, 2]⟩, ⟨PROTO_EMULE,0x60,[]⟩]

theorem codec_round_trips_sample :
    (∃ rp, decode (encode (requestParts md4Empty largeRanges (isLargeFile 5000184320))).2
          (isLargeFile 5000184320) = .ok rp ∧ rp.fileHash = md4Empty ∧
        requested rp = largeRanges ∧
        (encode (requestParts md4Empty largeRanges (isLargeFile 5000184320))).1 =
          if rp.largeFile then OP_REQUESTPARTS_I64 else OP_REQUESTPARTS) ∧
      readFrames (fun _ => ([], none)) 2 2 (shortFrames.flatMap Frame.bytes ++ []) =
        .ok (shortFrames, []) :=
  codec_round_trips md4Empty largeRanges 5000184320 (fun _ => ([], none)) 2 shortFrames []
    (by decide) (by decide) (by decide)
    (by
      intro f hf
      simp only [shortFrames, mem_cons, not_mem_nil, or_false] at hf
      rcases hf with rfl | rfl
      · exact ⟨Or.inl rfl,by decide,by decide⟩
      · exact ⟨Or.inr rfl,by decide,by decide⟩)

/-- A payload above the limit of the reader is refused. -/
theorem long_payload_refused :
    ∃ e, readFrames (fun _ => ([], none)) 2 1 (frame OP_REQUESTPARTS [1, 2, 3]) = .error e :=
  ⟨_,rfl⟩

end RinaDown.Ed2kFrames
