import RinaDown.SegmentRows
import RinaDown.SingleStreamResume

/-!
# The final size check

A download is complete if the file is as long as it should be. What it should be comes from the
size that the browser or a probe declared, from the size that an interrupted download stored, and
from the last response of a single stream. The length of a response is compared as if it were that
of the whole file, also where the response is a range that is written from the start.
-/

namespace RinaDown.FinalSizeCheck

open CharacterPatterns (Text)
open SegmentLayout (SegmentRow)
open SingleStream Option
open Texts (parseI64 trim)

/-! ## The size that is expected -/

structure Sizes where
  isResume : Bool
  hintFileSize : ℤ
  probedTotalBytes : ℤ
  storedTotalBytes : ℤ

/-- The size of the file info: a hint replaces the probe, and one that is negative confirms a
download of unknown size. -/
def Sizes.infoTotalBytes (s : Sizes) : ℤ :=
  if s.hintFileSize ≠ 0 then if 0 < s.hintFileSize then s.hintFileSize else 0
  else s.probedTotalBytes

def driftThreshold (stored : ℤ) : ℤ :=
  if 0 < stored then max 1 (min (stored / 100) 1048576) else 1

def sizeChanged (stored probed : ℤ) : Bool :=
  if stored = 0 then true
  else if probed < stored then true
  -- a size that is a little larger does not move the ends of the segments
  else if stored < probed then decide (driftThreshold stored < probed - stored)
  else false

/-- The size with which a download is resumed, and if it replaces the stored one. -/
def updateTaskFileInfoResume (stored probed : ℤ) : ℤ × Bool :=
  (if sizeChanged stored probed then probed else stored, sizeChanged stored probed)

def Sizes.effectiveTotalBytes (s : Sizes) : ℤ :=
  if s.isResume then (updateTaskFileInfoResume s.storedTotalBytes s.infoTotalBytes).1
  else s.infoTotalBytes

/-! ## The check -/

/-- How the bytes were transferred: in segments, or by a single stream. -/
inductive Transfer where
  | segments (rows : List SegmentRow)
  | single (result : SingleDownloadResult)

def fileLen (file : Option ℕ) : ℤ := (file.getD 0 : ℕ)

def segTotal (rows : List SegmentRow) : ℤ := (rows.map (·.downloadedBytes)).sum

/-- The file of segments is as long as their total from the start: what they downloaded is
counted. -/
def checkSegments (effectiveTotalBytes : ℤ) (rows : List SegmentRow) (file : Option ℕ) :
    Except DownloadError ℤ :=
  if segTotal rows < effectiveTotalBytes then
    .error (.other (s!"segment integrity failed: expected {effectiveTotalBytes} bytes, " ++
      s!"segments downloaded {segTotal rows} bytes"))
  else if fileLen file < effectiveTotalBytes then
    .error (.other (s!"file integrity failed: disk size={fileLen file} bytes, " ++
      s!"expected {effectiveTotalBytes} bytes"))
  else .ok effectiveTotalBytes

def checkSingle (effectiveTotalBytes : ℤ) (respCl : ℤ) (file : Option ℕ) :
    Except DownloadError ℤ :=
  match file with
  | none => .error (.io "no such file")
  | some len =>
      if (len : ℤ) = effectiveTotalBytes then .ok effectiveTotalBytes
      -- the response has another size than was expected, and was read to its end
      else if 0 < respCl ∧ (len : ℤ) = respCl then .ok len
      -- the response has no size, and is not shorter than was expected
      else if respCl ≤ 0 ∧ 0 < (len : ℤ) ∧ effectiveTotalBytes ≤ len then .ok len
      else .error (.other (s!"size mismatch: expected {effectiveTotalBytes} bytes, " ++
        s!"got {len} bytes (response content-length={respCl})"))

def finalSizeCheck (transfer : Transfer) (effectiveTotalBytes : ℤ) (file : Option ℕ) :
    Except DownloadError ℤ :=
  match transfer with
  | .segments rows =>
      if 0 < effectiveTotalBytes then checkSegments effectiveTotalBytes rows file
      else .ok (fileLen file)
  | .single result =>
      if result.decompressed then .ok (fileLen file)
      else if 0 < effectiveTotalBytes then
        checkSingle effectiveTotalBytes result.responseContentLength file
      else .ok (fileLen file)

/-! ## What it accepts -/

def parseContentRangeTotal (raw : Text) : Option ℤ :=
  (stripBytesUnit raw).bind fun rest =>
    (splitOn '/' rest)[1]?.bind fun total => parseI64 (trim total)

/-- The full length that a reply declares: the total of its range, else the length of its body. -/
def completeLength (r : Reply) : Option ℤ :=
  if r.status = 206 then r.contentRange.bind parseContentRangeTotal
  else r.contentLength.map Nat.cast

/-- The hint or the probe declares the full length, or the size that a resume has stored. -/
def Sizes.Declares (s : Sizes) (full : ℤ) : Prop :=
  s.infoTotalBytes = full ∨ s.isResume = true ∧ s.storedTotalBytes = full

/-- A source declares the full length of what is written; that of a decoded body none does. -/
def Declared (s : Sizes) (r : Reply) (full : ℤ) : Prop :=
  detectContentEncoding r.contentEncoding = none ∧ (s.Declares full ∨ completeLength r = some full)

/-- Where the body of a reply ends in the file, by its length if it has one. -/
def endOf (p : Params) (file : Option Bytes) (r : Reply) : ℤ :=
  writeStart p file r + (r.contentLength.getD (dataOf r.body).length : ℕ)

/-- The last reply ends at the full length, or the check refuses what it leaves: nothing, or less
than was expected by a reply without a length. -/
def EndsAt (p : Params) (file : Option Bytes) (r : Reply) (full : ℤ) : Prop :=
  endOf p file r = full ∨
    0 < p.totalBytes ∧ endOf p file r < if r.contentLength = none then p.totalBytes else 1

variable {effective respCl : ℤ} {file : Option ℕ}

theorem checkSegments_ok_iff {rows : List SegmentRow} :
    (∃ total, checkSegments effective rows file = .ok total) ↔
      effective ≤ segTotal rows ∧ effective ≤ fileLen file := by
  rw [checkSegments]
  split_ifs with hrows hfile
  · exact ⟨nofun,fun h => absurd h.1 (Int.not_le.mpr hrows)⟩
  · exact ⟨nofun,fun h => absurd h.2 (Int.not_le.mpr hfile)⟩
  · exact ⟨fun _ => ⟨Int.not_lt.mp hrows,Int.not_lt.mp hfile⟩,fun _ => ⟨_,rfl⟩⟩

theorem checkSingle_ok_iff {len : ℕ} (hpos : 0 < effective) :
    (∃ total, checkSingle effective respCl (some len) = .ok total) ↔
      (len : ℤ) = effective ∨ 0 < respCl ∧ (len : ℤ) = respCl ∨
        respCl ≤ 0 ∧ effective ≤ (len : ℤ) := by
  simp only [checkSingle]
  split_ifs with hequal hdrift hlonger
  · exact ⟨fun _ => .inl hequal,fun _ => ⟨_,rfl⟩⟩
  · exact ⟨fun _ => .inr (.inl hdrift),fun _ => ⟨_,rfl⟩⟩
  · exact ⟨fun _ => .inr (.inr ⟨hlonger.1,hlonger.2.2⟩),fun _ => ⟨_,rfl⟩⟩
  · refine ⟨nofun,?_⟩
    rintro (h | h | h)
    · exact absurd h hequal
    · exact absurd h hdrift
    · exact absurd ⟨h.1,by omega,h.2⟩ hlonger

theorem keeps_segments_iff {s : Sizes} {full : ℤ} {rows : List SegmentRow} (hpos : 0 < effective)
    (hfile : fileLen file ≤ effective) :
    (∀ total, finalSizeCheck (.segments rows) effective file = .ok total → s.Declares full →
        fileLen file = full) ↔
      (s.Declares full → segTotal rows < effective ∨ fileLen file < effective ∨ effective = full) := by
  simp only [finalSizeCheck, if_pos hpos]
  rw [← forall_exists_index (p := fun total => checkSegments effective rows file = .ok total)
    (q := fun _ => s.Declares full → fileLen file = full), checkSegments_ok_iff]
  constructor
  · intro h hdeclared
    by_cases hrows : effective ≤ segTotal rows
    · by_cases hshort : effective ≤ fileLen file
      · exact .inr (.inr ((Int.le_antisymm hshort hfile).trans (h ⟨hrows,hshort⟩ hdeclared)))
      · exact .inr (.inl (Int.not_le.mp hshort))
    · exact .inl (Int.not_le.mp hrows)
  · rintro h ⟨hrows,hshort⟩ hdeclared
    have := h hdeclared
    omega

variable {decompress : ContentEncoding → List Item → List Item} {p : Params} {x : Exchange}
  {r : Reply} {before done : Option Bytes} {result : SingleDownloadResult}

theorem length_kept (p : Params) (before : Option Bytes) (r : Reply) :
    ((kept p before r).length : ℤ) = writeStart p before r := by
  rw [kept, writeStart]
  split_ifs
  · have hle : existingLen p (lengthOf before) ≤ (before.getD []).length :=
      (existingLen_le _).trans_eq (lengthOf_eq before)
    have hnonneg : 0 ≤ existingLen p (lengthOf before) := by
      rw [existingLen, lengthOf, singleResumeAlignmentBytes]
      split_ifs <;> omega
    rw [List.length_take]
    omega
  · rfl

/-- What the last request of the loop leaves, and its result. -/
theorem downloadSingle_last (hreply : respond p (lengthOf before) x = .ok r)
    (hplain : detectContentEncoding r.contentEncoding = none)
    (hrun : downloadSingle decompress p [x] before = (.ok result, done)) :
    result = resultOf p (lengthOf before) r ∧ done = some (kept p before r ++ dataOf r.body) := by
  have honce : downloadSingleOnce decompress p before x = (.ok result, done) := by
    rw [downloadSingle] at hrun
    generalize downloadSingleOnce decompress p before x = outcome at hrun
    rcases loopEnd_cases (p := p) outcome with ⟨hend | ⟨e,hend⟩,-⟩ | ⟨last,hlast,hend,-⟩
    · rw [hend] at hrun
      cases hrun
    · rw [hend] at hrun
      cases hrun
    · rw [hend] at hrun
      cases hrun
      exact Prod.ext hlast rfl
  have hbody : bodyOf decompress r = r.body := by rw [bodyOf, hplain]
  simp only [downloadSingleOnce, hreply, hbody] at honce
  cases haccept : acceptReply p r with
  | error e => simp [haccept] at honce
  | ok u =>
      cases hread : (readStream r.body []).1 with
      | error e => simp [haccept, hread, Except.map] at honce
      | ok v =>
          have hdata := (readStream_ok hread).1
          simp only [haccept, hread, Except.map, hdata, List.nil_append, Prod.mk.injEq,
            Except.ok.injEq] at honce
          exact ⟨honce.1.symm,honce.2.symm⟩

/-- A body is as long as its reply says, so the check compares the file with the end of the reply,
whether or not the reply continues the file. -/
theorem keeps_single_iff {s : Sizes} {full : ℤ} (hfull : 0 < full)
    (hp : p.totalBytes = s.effectiveTotalBytes) (hreply : respond p (lengthOf before) x = .ok r)
    (hrun : downloadSingle decompress p [x] before = (.ok result, done))
    (hbody : ∀ cl ∈ r.contentLength, (dataOf r.body).length = cl) :
    (∀ total, finalSizeCheck (.single result) s.effectiveTotalBytes (done.map List.length) =
        .ok total → Declared s r full → lengthOf done = full) ↔
      (Declared s r full → EndsAt p before r full) := by
  rw [← hp]
  by_cases hdeclared : Declared s r full
  swap
  · simp only [hdeclared, false_implies, implies_true]
  obtain ⟨rfl,rfl⟩ := downloadSingle_last hreply hdeclared.1 hrun
  have hend : lengthOf (some (kept p before r ++ dataOf r.body)) = endOf p before r := by
    have hlength : (r.contentLength.getD (dataOf r.body).length : ℤ) = (dataOf r.body).length := by
      cases hcl : r.contentLength with
      | none => rfl
      | some cl => rw [getD_some, hbody cl hcl]
    rw [endOf, hlength, ← length_kept]
    simp [lengthOf]
  have hplain : (resultOf p (lengthOf before) r).decompressed = false := by
    simp [resultOf, hdeclared.1]
  have hresponse : (resultOf p (lengthOf before) r).responseContentLength =
      if r.contentLength = none then -1 else endOf p before r := by
    cases hcl : r.contentLength with
    | none => simp [resultOf, hcl]
    | some cl =>
        simp only [resultOf, hcl, endOf, writeStart, getD_some]
        split_ifs <;> simp_all
  have hnonneg : 0 ≤ endOf p before r := by
    rw [← hend, lengthOf]
    omega
  rw [hend, finalSizeCheck, hplain, if_neg Bool.false_ne_true, hresponse, EndsAt]
  simp only [hdeclared, forall_const]
  by_cases hpos : 0 < p.totalBytes
  · rw [if_pos hpos, ← forall_exists_index (q := fun _ => endOf p before r = full), map_some,
      checkSingle_ok_iff hpos]
    have hlen : ((kept p before r ++ dataOf r.body).length : ℤ) = endOf p before r := hend
    rw [hlen]
    split_ifs with hnone <;> omega
  · rw [if_neg hpos]
    exact ⟨fun h => .inl (h _ rfl),fun h _ _ => h.resolve_right fun hshort => hpos hshort.1⟩

/-- A download of ten bytes that is resumed with eleven declared. -/
def driftedSizes : Sizes where
  isResume := true
  hintFileSize := 0
  probedTotalBytes := 11
  storedTotalBytes := 10

def plainResult (responseContentLength : ℤ) : SingleDownloadResult where
  responseContentLength := responseContentLength
  decompressed := false
  latchedLastModified := some ""
  resumedRangeStart := none

def misalignedReply : Reply := reply 206 (some "bytes 5-9/10".toList) [.data [5, 6, 7, 8, 9]]

end RinaDown.FinalSizeCheck
