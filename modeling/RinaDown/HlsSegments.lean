import RinaDown.CharacterPatterns
import RinaDown.HeaderRuns
import RinaDown.LengthFraming

/-!
# The bytes of a media playlist

A segment is downloaded, whole or as a byte range of its resource, and decrypted with the
key and the initialization vector that the playlist gives for it. The output of a playlist
is its segments in order, every run of segments with one initialization segment after the
bytes of that segment. The writer computes it one segment at a time.
-/

namespace RinaDown.HlsSegments

open CharacterPatterns LengthFraming HeaderRuns Option List

structure HlsInitMap where
  uri : Text
  byteRange : Option (ℕ × ℕ)
deriving Repr, DecidableEq

inductive HlsKeyMethod where
  | aes128
  | none
deriving Repr, DecidableEq

structure HlsKey where
  method : HlsKeyMethod
  uri : Text
  iv : Option Text
deriving Repr, DecidableEq

structure HlsSegment where
  uri : Text
  key : Option HlsKey
  byteRange : Option (ℕ × ℕ)
  map : Option HlsInitMap
deriving Repr, DecidableEq

structure MediaPlaylist where
  segments : List HlsSegment
  mediaSequence : ℕ
  mediaSequence_lt : mediaSequence < 2 ^ 64
deriving DecidableEq

/-- What the servers hold and what the cipher computes: the bytes of a resource or of a range
of it, the key at an address, and AES-128-CBC with and without padding, given the key, the
initialization vector and the data. -/
structure Host where
  resource : Text → Option (ℕ × ℕ) → Bytes
  key : Text → Bytes
  pkcs7 : Bytes → Bytes → Bytes → Option Bytes
  noPadding : Bytes → Bytes → Bytes → Option Bytes

/-! ## One segment -/

/-- A range request is sent for a range that has bytes and an end. -/
def rangeOk (byteRange : Option (ℕ × ℕ)) : Bool :=
  byteRange.all fun range => range.2 ≠ 0 ∧ range.1 + range.2 < 2 ^ 64

/-- `download_segment_with_retry`, when the server answers. -/
def downloadSegment (host : Host) (uri : Text) (byteRange : Option (ℕ × ℕ)) : Option Bytes :=
  if rangeOk byteRange then some (host.resource uri byteRange) else none

def fetchKey (host : Host) (uri : Text) : Option Bytes :=
  if (host.key uri).length = 16 then some (host.key uri) else none

def hexDigit (c : Char) : Option ℕ :=
  if '0' ≤ c ∧ c ≤ '9' then some (c.toNat - '0'.toNat)
  else if 'a' ≤ c ∧ c ≤ 'f' then some (c.toNat - 'a'.toNat + 10)
  else if 'A' ≤ c ∧ c ≤ 'F' then some (c.toNat - 'A'.toNat + 10)
  else none

/-- `u8::from_str_radix(_, 16)` of two characters; a plus sign may come first. -/
def hexByte (high low : Char) : Option UInt8 := do
  let high ← if high = '+' then some 0 else hexDigit high
  let low ← hexDigit low
  pure (UInt8.ofNat (16 * high + low))

def hexBytes : Text → Option Bytes
  | [] => some []
  | [_] => none
  | high :: low :: rest => do
      let byte ← hexByte high low
      let bytes ← hexBytes rest
      pure (byte :: bytes)

def parseIvHex (ivStr : Text) : Option Bytes :=
  let hex := if ivStr.take 2 = ['0', 'x'] ∨ ivStr.take 2 = ['0', 'X'] then ivStr.drop 2 else ivStr
  if hex.length ≠ 32 then none else hexBytes hex

/-- The media sequence number of the segment as a big-endian number of 128 bits. -/
def computeDefaultIv (mediaSequence segmentIndex : ℕ) : Bytes :=
  let sequenceNumber := min (mediaSequence + segmentIndex) (2 ^ 64 - 1)
  List.replicate 8 0 ++
    (List.range 8).map fun i => UInt8.ofNat (sequenceNumber / 2 ^ (8 * (7 - i)))

def decryptSegment (host : Host) (data key iv : Bytes) : Option Bytes :=
  if data = [] then some []
  else if key.length ≠ 16 then none
  else if data.length % 16 ≠ 0 then
    let aligned := data.length / 16 * 16
    if aligned = 0 then none else host.noPadding key iv (data.take aligned)
  else host.pkcs7 key iv data

/-- The address of the key and the initialization vector of an encrypted segment. -/
def keyInfo (segment : HlsSegment) : Option (Text × Option Text) :=
  segment.key.bind fun k => if k.method = .aes128 ∧ k.uri ≠ [] then some (k.uri, k.iv) else none

def ivOf (mediaSequence segIdx : ℕ) : Option Text → Option Bytes
  | some ivHex => parseIvHex ivHex
  | none => some (computeDefaultIv mediaSequence segIdx)

def downloadAndDecryptSegment (host : Host) (mediaSequence segIdx : ℕ) (segment : HlsSegment) :
    Option Bytes := do
  let data ← downloadSegment host segment.uri segment.byteRange
  match keyInfo segment with
  | none => pure data
  | some (keyUri, ivStr) =>
      let key ← fetchKey host keyUri
      let iv ← ivOf mediaSequence segIdx ivStr
      decryptSegment host data key iv

/-! ## Initialization segments -/

def initBytes (host : Host) (map : Option HlsInitMap) : Bytes :=
  (map.map fun map => host.resource map.uri map.byteRange).getD []

/-- The initialization segment comes before a segment that has one, unless the segment
before it has the same. -/
def needsInitSegment (segments : List HlsSegment) (segIdx : ℕ) : Bool :=
  match segments[segIdx]?.bind (·.map) with
  | none => false
  | some cur =>
      match (if segIdx = 0 then none else segments[segIdx - 1]?).bind (·.map) with
      | some prev => prev ≠ cur
      | none => true

/-! ## The output of a playlist -/

variable (host : Host) (playlist : MediaPlaylist)

def segmentData (segIdx : ℕ) : Option Bytes :=
  playlist.segments[segIdx]?.bind (downloadAndDecryptSegment host playlist.mediaSequence segIdx)

def initData (segIdx : ℕ) : Bytes :=
  if needsInitSegment playlist.segments segIdx then
    initBytes host (playlist.segments[segIdx]?.bind (·.map))
  else []

/-- What the writer has written after the first segments. -/
def written : ℕ → Option Bytes
  | 0 => some []
  | n + 1 => do
      let before ← written n
      let data ← segmentData host playlist n
      pure (before ++ initData host playlist n ++ data)

def decodedParts (n : ℕ) : Option (List (Option HlsInitMap × Bytes)) :=
  (List.range n).mapM fun i => do
    let segment ← playlist.segments[i]?
    let data ← segmentData host playlist i
    pure (segment.map, data)

/-- The decrypted bytes of the segments in order, every run of segments with the same
initialization segment after the bytes of that segment. -/
def output : Option Bytes :=
  (decodedParts host playlist playlist.segments.length).map fun parts =>
    (runs parts).flatMap (runOutput (initBytes host))

variable {host playlist}

theorem decodedParts_succ (n : ℕ) :
    decodedParts host playlist (n + 1) =
      (decodedParts host playlist n).bind fun before =>
        playlist.segments[n]?.bind fun segment =>
          (segmentData host playlist n).map fun data => before ++ [(segment.map, data)] := by
  rw [decodedParts, range_succ, mapM_append, ← decodedParts]
  cases decodedParts host playlist n with
  | none => rfl
  | some before =>
      cases hsegment : playlist.segments[n]? with
      | none => simp [hsegment]
      | some segment =>
          cases hdata : segmentData host playlist n with
          | none => simp [hsegment, hdata]
          | some data => simp [hsegment, hdata]

theorem lastKey_decodedParts {n : ℕ} {parts : List (Option HlsInitMap × Bytes)}
    (h : decodedParts host playlist n = some parts) :
    lastKey none parts = if n = 0 then none else playlist.segments[n - 1]?.map (·.map) := by
  cases n with
  | zero =>
      obtain rfl := some.inj h
      rfl
  | succ n =>
      rw [decodedParts_succ] at h
      obtain ⟨before,-,h⟩ := bind_eq_some_iff.mp h
      obtain ⟨segment,hsegment,h⟩ := bind_eq_some_iff.mp h
      obtain ⟨data,-,rfl⟩ := map_eq_some_iff.mp h
      rw [lastKey, getLast?_concat, if_neg (Nat.succ_ne_zero n), Nat.add_sub_cancel, hsegment]
      rfl

theorem initData_eq {n : ℕ} {segment : HlsSegment} (hsegment : playlist.segments[n]? = some segment) :
    initData host playlist n =
      if (if n = 0 then none else playlist.segments[n - 1]?.map (·.map)) = some segment.map then []
      else initBytes host segment.map := by
  rw [initData, needsInitSegment, hsegment]
  cases hmap : segment.map with
  | none => simp [initBytes, hmap]
  | some cur =>
      by_cases hzero : n = 0
      · simp [hzero, hmap]
      · simp only [hzero, if_false, bind_some, hmap]
        cases hprevious : playlist.segments[n - 1]? with
        | none => simp
        | some previous =>
            cases hprev : previous.map with
            | none => simp [hprev]
            | some prev =>
                by_cases heq : prev = cur
                · simp [hprev, heq]
                · simp [hprev, heq]

theorem written_eq (n : ℕ) :
    written host playlist n =
      (decodedParts host playlist n).map (withHeaders (initBytes host) none) := by
  induction n with
  | zero => rfl
  | succ n ih =>
      rw [written, ih, decodedParts_succ]
      cases hparts : decodedParts host playlist n with
      | none => rfl
      | some parts =>
          cases hsegment : playlist.segments[n]? with
          | none => simp [segmentData, hsegment]
          | some segment =>
              cases hdata : segmentData host playlist n with
              | none => simp
              | some data =>
                  simp [withHeaders_append, withHeaders, lastKey_decodedParts hparts,
                    initData_eq hsegment]

/-- Once all segments are written, the file is the output of the playlist. -/
theorem written_length :
    written host playlist playlist.segments.length = output host playlist := by
  rw [written_eq, output]
  congr 1
  funext parts
  exact withHeaders_eq_runs (initBytes host) parts

/-! ## Playlists that begin alike -/

/-- The first segments of the playlists have the same bytes and initialization segments. -/
def SameSegments (host : Host) (playlist playlist' : MediaPlaylist) (n : ℕ) : Prop :=
  ∀ i < n, segmentData host playlist i = segmentData host playlist' i ∧
    initData host playlist i = initData host playlist' i

theorem written_congr {playlist' : MediaPlaylist} {n : ℕ}
    (h : SameSegments host playlist playlist' n) :
    written host playlist n = written host playlist' n := by
  induction n with
  | zero => rfl
  | succ n ih =>
      have hlast := h n (Nat.lt_succ_self n)
      rw [written, written, ih fun i hi => h i (Nat.lt_succ_of_lt hi), hlast.1, hlast.2]

theorem le_length_of_written {n : ℕ} {bytes : Bytes} (h : written host playlist n = some bytes) :
    n ≤ playlist.segments.length := by
  cases n with
  | zero => exact Nat.zero_le _
  | succ n =>
      rw [written] at h
      obtain ⟨before,-,h⟩ := bind_eq_some_iff.mp h
      obtain ⟨data,hdata,-⟩ := bind_eq_some_iff.mp h
      obtain ⟨segment,hsegment,-⟩ := bind_eq_some_iff.mp hdata
      exact (List.getElem?_eq_some_iff.mp hsegment).1

end RinaDown.HlsSegments
