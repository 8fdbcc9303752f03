import RinaDown.LabelledExecutions
import RinaDown.SingleStream

/-!
# Resuming a single stream

A run is a list of calls on one file, up to the first that succeeds. The server gives one
representation for each pair of validators. Where every body that is written begins at the byte at
which it is written, and belongs to the version that the file holds a part of, the file holds a
part of one representation after every call.
-/

namespace RinaDown.SingleStream

open CharacterPatterns (Text)
open LabelledExecutions List Option

/-- What the bytes of a file came from: the validators of the last reply that was written from
its start, and if its body was decoded. -/
structure Origin where
  etag : String
  lastModified : String
  decoded : Bool
deriving DecidableEq

variable (decompress : ContentEncoding → List Item → List Item)
  (versions : String → String → Bytes) (p : Params)

def Origin.rep (versions : String → String → Bytes) (origin : Origin) : Bytes :=
  versions origin.etag origin.lastModified

def Origin.ofReply (r : Reply) : Origin where
  etag := r.etag
  lastModified := r.lastModified
  decoded := (detectContentEncoding r.contentEncoding).isSome

/-- The byte of the representation at which the body of a reply begins: the one that a range
names, or the first. -/
def startOf (r : Reply) : ℤ :=
  if r.status = 206 ∧ detectContentEncoding r.contentEncoding = none then
    (r.contentRange.bind parseContentRangeStart).getD 0
  else 0

/-- The byte of the file at which the body of a reply is written. -/
def writeStart (file : Option Bytes) (r : Reply) : ℤ :=
  if actualResume p (lengthOf file) r then existingLen p (lengthOf file) else 0

def Serves (r : Reply) : Prop :=
  0 ≤ startOf r ∧
    dataOf (bodyOf decompress r) <+: (versions r.etag r.lastModified).drop (startOf r).toNat

instance (r : Reply) : Decidable (Serves decompress versions r) :=
  inferInstanceAs (Decidable (_ ∧ _))

/-- The body of a reply can be written to the file. It begins where it is written. One that ends
without an error has all that is left, unless it is a range of a download of known size, and one
that is decoded ends without an error. A reply that continues the file is of the version of the
file, and a size that is known is not smaller than the version. -/
structure BodyFits (file : Option Bytes) (origin : Origin) (r : Reply) : Prop where
  start : startOf r = writeStart p file r
  whole : isWhole (bodyOf decompress r) = true →
    actualResume p (lengthOf file) r = false ∨ p.totalBytes ≤ 0 →
    (versions r.etag r.lastModified).length ≤
      (startOf r).toNat + (dataOf (bodyOf decompress r)).length
  decoded : (detectContentEncoding r.contentEncoding).isSome = true →
    isWhole (bodyOf decompress r) = true
  version : actualResume p (lengthOf file) r = true →
    versions r.etag r.lastModified = origin.rep versions
  size : actualResume p (lengthOf file) r = true →
    p.totalBytes ≤ 0 ∨ ((versions r.etag r.lastModified).length : ℤ) ≤ p.totalBytes

instance (file : Option Bytes) (origin : Origin) (r : Reply) :
    Decidable (BodyFits decompress versions p file origin r) :=
  decidable_of_iff
    ((startOf r = writeStart p file r) ∧
      (isWhole (bodyOf decompress r) = true →
        actualResume p (lengthOf file) r = false ∨ p.totalBytes ≤ 0 →
        (versions r.etag r.lastModified).length ≤
          (startOf r).toNat + (dataOf (bodyOf decompress r)).length) ∧
      ((detectContentEncoding r.contentEncoding).isSome = true →
        isWhole (bodyOf decompress r) = true) ∧
      (actualResume p (lengthOf file) r = true →
        versions r.etag r.lastModified = origin.rep versions) ∧
      (actualResume p (lengthOf file) r = true →
        p.totalBytes ≤ 0 ∨ ((versions r.etag r.lastModified).length : ℤ) ≤ p.totalBytes))
    ⟨fun ⟨h₁,h₂,h₃,h₄,h₅⟩ => ⟨h₁,h₂,h₃,h₄,h₅⟩,
      fun ⟨h₁,h₂,h₃,h₄,h₅⟩ => ⟨h₁,h₂,h₃,h₄,h₅⟩⟩

/-- A condition on the reply that an exchange writes, if any. -/
def Written (P : Reply → Prop) (file : Option Bytes) (x : Exchange) : Prop :=
  match respond p (lengthOf file) x with
  | .error _ => True
  | .ok r => acceptReply p r = .ok () → P r

instance (P : Reply → Prop) [DecidablePred P] (file : Option Bytes) (x : Exchange) :
    Decidable (Written p P file x) :=
  match h : respond p (lengthOf file) x with
  | .error _ => isTrue (by simp only [Written, h])
  | .ok r => decidable_of_iff (acceptReply p r = .ok () → P r) (by simp only [Written, h])

/-- What the bytes of the file came from after an exchange. -/
def originOnce (file : Option Bytes) (origin : Origin) (x : Exchange) : Origin :=
  match respond p (lengthOf file) x with
  | .error _ => origin
  | .ok r =>
      match acceptReply p r with
      | .error _ => origin
      | .ok _ => if actualResume p (lengthOf file) r then origin else .ofReply r

/-- A condition on the replies that a call writes, up to the end of its loop. -/
def EachWritten (P : Option Bytes → Origin → Reply → Prop) :
    List Exchange → Option Bytes → Origin → Prop
  | [], _, _ => True
  | x :: exchanges, file, origin =>
      Written p (P file origin) file x ∧
        ((loopEnd p (downloadSingleOnce decompress p file x)).isNone = true →
          EachWritten P exchanges (downloadSingleOnce decompress p file x).2
            (originOnce p file origin x))

/-- The condition of a call can be evaluated along it. -/
def eachWrittenDecidable (P : Option Bytes → Origin → Reply → Prop)
    [∀ file origin, DecidablePred (P file origin)] :
    (exchanges : List Exchange) → (file : Option Bytes) → (origin : Origin) →
      Decidable (EachWritten decompress p P exchanges file origin)
  | [], _, _ => isTrue trivial
  | x :: exchanges, file, origin =>
      have := eachWrittenDecidable P exchanges (downloadSingleOnce decompress p file x).2
        (originOnce p file origin x)
      inferInstanceAs (Decidable (_ ∧ (_ → _)))

/-- What the bytes of the file came from after a call. -/
def originAfter : List Exchange → Option Bytes → Origin → Origin
  | [], _, origin => origin
  | x :: exchanges, file, origin =>
      if (loopEnd p (downloadSingleOnce decompress p file x)).isNone then
        originAfter exchanges (downloadSingleOnce decompress p file x).2
          (originOnce p file origin x)
      else originOnce p file origin x

/-! ## One call -/

theorem readStream_prefix (items : List Item) (written : Bytes) :
    (readStream items written).2 <+: written ++ dataOf items := by
  induction items generalizing written with
  | nil => exact prefix_append _ _
  | cons item items ih =>
      cases item with
      | data bytes =>
          rw [readStream, dataOf, ← append_assoc]
          exact ih (written ++ bytes)
      | failed message | stalled | cancelled => exact prefix_append _ _
      | killed lost => exact (List.take_prefix _ _).trans (prefix_append _ _)

theorem readStream_ok {items : List Item} {written : Bytes}
    (h : (readStream items written).1 = .ok ()) :
    (readStream items written).2 = written ++ dataOf items ∧ isWhole items = true := by
  induction items generalizing written with
  | nil => exact ⟨(append_nil _).symm,rfl⟩
  | cons item items ih =>
      cases item with
      | data bytes =>
          rw [readStream] at h
          rw [readStream, dataOf, ← append_assoc]
          exact ih h
      | failed message => cases h
      | stalled => cases h
      | cancelled => cases h
      | killed lost => cases h

theorem readStream_of_isWhole {items : List Item} (h : isWhole items = true) (written : Bytes) :
    (readStream items written).1 = .ok () := by
  induction items generalizing written with
  | nil => rfl
  | cons item items ih =>
      cases item with
      | data bytes => exact ih h (written ++ bytes)
      | failed message => cases h
      | stalled => cases h
      | cancelled => cases h
      | killed lost => cases h

variable {versions p}

theorem existingLen_le (n : ℤ) : existingLen p n ≤ n := by
  rw [existingLen]
  split_ifs
  · have hmod : 0 ≤ n % singleResumeAlignmentBytes := Int.emod_nonneg n (by decide)
    omega
  · exact Int.le_refl n

theorem lengthOf_eq (file : Option Bytes) : lengthOf file = ((file.getD []).length : ℤ) := by
  cases file <;> rfl

def Holds (rep : Bytes) (file : Option Bytes) : Prop := ∀ bytes ∈ file, bytes <+: rep

theorem Holds.getD {rep : Bytes} {file : Option Bytes} (h : Holds rep file) :
    file.getD [] <+: rep := by
  cases file with
  | none => exact nil_prefix
  | some bytes => exact h bytes rfl

variable {file : Option Bytes} {origin : Origin} {r : Reply}

/-- The bytes that stay are those of the representation before the body. -/
theorem BodyFits.kept_eq (hfits : BodyFits decompress versions p file origin r)
    (hfile : Holds (origin.rep versions) file) :
    kept p file r = (versions r.etag r.lastModified).take (startOf r).toNat := by
  rw [kept, hfits.start, writeStart]
  split_ifs with hresume
  · obtain ⟨rest,hrest⟩ := hfile.getD
    have hle : existingLen p (lengthOf file) ≤ ((file.getD []).length : ℤ) := by
      rw [← lengthOf_eq]
      exact existingLen_le _
    rw [hfits.version hresume, ← hrest, take_append_of_le_length (Int.toNat_le.mpr hle)]
  · rfl

theorem kept_append (hfile : Holds (origin.rep versions) file)
    (hserves : Serves decompress versions r)
    (hfits : BodyFits decompress versions p file origin r) :
    kept p file r ++ (readStream (bodyOf decompress r) []).2 <+:
      versions r.etag r.lastModified := by
  have hread := readStream_prefix (bodyOf decompress r) []
  rw [nil_append] at hread
  obtain ⟨rest,hrest⟩ := hread.trans hserves.2
  rw [hfits.kept_eq decompress hfile]
  exact ⟨rest,by rw [append_assoc, hrest, take_append_drop]⟩

/-- A whole body completes the file, unless it is a range of a download of known size. -/
theorem kept_append_whole (hfile : Holds (origin.rep versions) file)
    (hserves : Serves decompress versions r)
    (hfits : BodyFits decompress versions p file origin r)
    (hok : (readStream (bodyOf decompress r) []).1 = .ok ())
    (hlast : actualResume p (lengthOf file) r = false ∨ p.totalBytes ≤ 0) :
    kept p file r ++ (readStream (bodyOf decompress r) []).2 =
      versions r.etag r.lastModified := by
  obtain ⟨hread,hwhole⟩ := readStream_ok hok
  rw [nil_append] at hread
  have hlength := hfits.whole hwhole hlast
  have hdata : dataOf (bodyOf decompress r) =
      (versions r.etag r.lastModified).drop (startOf r).toNat := by
    apply hserves.2.eq_of_length_le
    rw [length_drop]
    omega
  rw [hread, hdata, hfits.kept_eq decompress hfile, take_append_drop]

/-- A request leaves the file alone, or a body is written to it. -/
theorem downloadSingleOnce_cases (file : Option Bytes) (origin : Origin) (x : Exchange) :
    (∃ e, downloadSingleOnce decompress p file x = (.error e, file)) ∧
        originOnce p file origin x = origin ∨
      ∃ r, respond p (lengthOf file) x = .ok r ∧ acceptReply p r = .ok () ∧
        downloadSingleOnce decompress p file x =
          ((readStream (bodyOf decompress r) []).1.map fun _ => resultOf p (lengthOf file) r,
            some (kept p file r ++ (readStream (bodyOf decompress r) []).2)) ∧
        originOnce p file origin x =
          if actualResume p (lengthOf file) r then origin else .ofReply r := by
  rw [downloadSingleOnce, originOnce]
  cases hrespond : respond p (lengthOf file) x with
  | error e => exact .inl ⟨⟨e,rfl⟩,rfl⟩
  | ok r =>
      cases haccept : acceptReply p r with
      | error e =>
          left
          exact ⟨⟨e,by simp only [haccept]⟩,by simp only [haccept]⟩
      | ok u =>
          right
          exact ⟨r,rfl,haccept,by simp only [haccept],by simp only [haccept]⟩

/-- What holds of the file between two requests. -/
structure Sound (versions : String → String → Bytes) (p : Params) (origin : Origin)
    (outcome : Except DownloadError SingleDownloadResult × Option Bytes) : Prop where
  holds : Holds (origin.rep versions) outcome.2
  complete : ∀ result, outcome.1 = .ok result →
    outcome.2 = some (origin.rep versions) ∨
      result.resumedRangeStart ≠ none ∧ 0 < p.totalBytes ∧
        ((origin.rep versions).length : ℤ) ≤ p.totalBytes
  identity : origin.decoded = true →
    ∃ result, outcome.1 = .ok result ∧ result.resumedRangeStart = none

/-- One request keeps a part of a representation in the file. It succeeds with all of it, or with
a range of a download of known size. -/
theorem downloadSingleOnce_sound (hfile : Holds (origin.rep versions) file)
    (horigin : origin.decoded = false) {x : Exchange}
    (hx : Written p (fun r => Serves decompress versions r ∧
      BodyFits decompress versions p file origin r) file x) :
    Sound versions p (originOnce p file origin x) (downloadSingleOnce decompress p file x) := by
  rcases downloadSingleOnce_cases decompress file origin x with
    ⟨⟨e,honce⟩,hsame⟩ | ⟨r,hrespond,haccept,honce,hnext⟩
  · rw [honce, hsame]
    refine ⟨hfile,fun result hresult => ?_,fun hdecoded => ?_⟩
    · cases hresult
    · rw [horigin] at hdecoded
      cases hdecoded
  · simp only [Written, hrespond] at hx
    obtain ⟨hserves,hfits⟩ := hx haccept
    have hrep : (originOnce p file origin x).rep versions = versions r.etag r.lastModified := by
      rw [hnext]
      split_ifs with hresume
      · exact (hfits.version hresume).symm
      · rfl
    have happend := kept_append decompress hfile hserves hfits
    rw [honce]
    constructor
    case holds =>
      intro bytes hbytes
      rw [← some.inj hbytes, hrep]
      exact happend
    case complete =>
      intro result hresult
      cases hok : (readStream (bodyOf decompress r) []).1 with
      | error e =>
          rw [hok] at hresult
          cases hresult
      | ok u =>
          rw [hok] at hresult
          have hresult' : result.resumedRangeStart = (resultOf p (lengthOf file) r).resumedRangeStart :=
            congrArg _ (Except.ok.inj hresult).symm
          rw [hrep, hresult', resultOf]
          by_cases hlast : actualResume p (lengthOf file) r = false ∨ p.totalBytes ≤ 0
          · left
            exact congrArg some (kept_append_whole decompress hfile hserves hfits hok hlast)
          · right
            rw [not_or, Bool.not_eq_false, Int.not_le] at hlast
            refine ⟨by simp [hlast.1],hlast.2,?_⟩
            exact (hfits.size hlast.1).resolve_left (Int.not_le.mpr hlast.2)
    case identity =>
      intro hdecoded
      rw [hnext] at hdecoded
      split_ifs at hdecoded with hresume
      · rw [horigin] at hdecoded
        cases hdecoded
      · refine ⟨resultOf p (lengthOf file) r,?_,if_neg hresume⟩
        rw [readStream_of_isWhole (hfits.decoded hdecoded) []]
        rfl

/-- The loop ends with the result of its last request, and after an error it has no result that
is not a range. -/
theorem loopEnd_cases (outcome : Except DownloadError SingleDownloadResult × Option Bytes) :
    (loopEnd p outcome = none ∨ ∃ e, loopEnd p outcome = some (.error e, outcome.2)) ∧
        (∀ result, outcome.1 = .ok result → result.resumedRangeStart ≠ none) ∨
      ∃ result, outcome.1 = .ok result ∧ loopEnd p outcome = some (.ok result, outcome.2) ∧
        (result.resumedRangeStart = none ∨ p.totalBytes ≤ 0 ∨
          p.totalBytes ≤ lengthOf outcome.2) := by
  obtain ⟨result,file⟩ := outcome
  cases result with
  | error e =>
      left
      refine ⟨.inr ⟨e,rfl⟩,fun result hresult => ?_⟩
      cases hresult
  | ok result =>
      cases hstart : result.resumedRangeStart with
      | none =>
          right
          exact ⟨result,rfl,by simp only [loopEnd, hstart],.inl hstart⟩
      | some rangeStart =>
          have hrange : ∀ other, Except.ok (ε := DownloadError) result = .ok other →
              other.resumedRangeStart ≠ none := by
            rintro _ ⟨⟩
            rw [hstart]
            exact some_ne_none rangeStart
          simp only [loopEnd, hstart]
          split_ifs with hunknown hlong hstuck
          · exact .inr ⟨result,rfl,rfl,.inr (.inl hunknown)⟩
          · exact .inr ⟨result,rfl,rfl,.inr (.inr hlong)⟩
          · exact .inl ⟨.inr ⟨_,rfl⟩,hrange⟩
          · exact .inl ⟨.inl rfl,hrange⟩

/-- A request after which the loop goes on, or after which it fails, wrote no decoded body. -/
theorem Sound.not_decoded {outcome : Except DownloadError SingleDownloadResult × Option Bytes}
    (h : Sound versions p origin outcome)
    (hranges : ∀ result, outcome.1 = .ok result → result.resumedRangeStart ≠ none) :
    origin.decoded = false := by
  cases hdecoded : origin.decoded with
  | false => rfl
  | true =>
      obtain ⟨result,hresult,hnone⟩ := h.identity hdecoded
      exact absurd hnone (hranges result hresult)

/-- Where the loop ends with a success, the file is whole. -/
theorem Sound.whole {outcome : Except DownloadError SingleDownloadResult × Option Bytes}
    (h : Sound versions p origin outcome) {result : SingleDownloadResult}
    (hresult : outcome.1 = .ok result)
    (hwhy : result.resumedRangeStart = none ∨ p.totalBytes ≤ 0 ∨
      p.totalBytes ≤ lengthOf outcome.2) : outcome.2 = some (origin.rep versions) := by
  rcases h.complete result hresult with hwhole | ⟨hrange,hknown,hsize⟩
  · exact hwhole
  · have hlong := (hwhy.resolve_left hrange).resolve_left (Int.not_le.mpr hknown)
    have hholds := h.holds
    cases hfile : outcome.2 with
    | none =>
        rw [hfile] at hlong
        exact absurd hlong (Int.not_le.mpr hknown)
    | some bytes =>
        rw [hfile] at hlong hholds
        have hlength : (origin.rep versions).length ≤ bytes.length := by
          have : ((origin.rep versions).length : ℤ) ≤ (bytes.length : ℤ) :=
            Int.le_trans hsize hlong
          omega
        exact congrArg some ((hholds bytes rfl).eq_of_length_le hlength)

/-- A call keeps a part of a representation in the file, which no decoded body is a part of
unless it succeeds, and it succeeds only with all of it. -/
theorem downloadSingle_sound {exchanges : List Exchange}
    (hfile : Holds (origin.rep versions) file) (horigin : origin.decoded = false)
    (hfits : EachWritten decompress p (fun file origin r => Serves decompress versions r ∧
      BodyFits decompress versions p file origin r) exchanges file origin) :
    Holds ((originAfter decompress p exchanges file origin).rep versions)
        (downloadSingle decompress p exchanges file).2 ∧
      (∀ result, (downloadSingle decompress p exchanges file).1 = .ok result →
        (downloadSingle decompress p exchanges file).2 =
          some ((originAfter decompress p exchanges file origin).rep versions)) ∧
      ((originAfter decompress p exchanges file origin).decoded = true →
        ∃ result, (downloadSingle decompress p exchanges file).1 = .ok result) := by
  induction exchanges generalizing file origin with
  | nil =>
      refine ⟨hfile,fun result hresult => ?_,fun hdecoded => ?_⟩
      · cases hresult
      · rw [originAfter, horigin] at hdecoded
        cases hdecoded
  | cons x exchanges ih =>
      obtain ⟨hx,hrest⟩ := hfits
      have honce := downloadSingleOnce_sound decompress hfile horigin hx
      rw [downloadSingle, originAfter]
      generalize downloadSingleOnce decompress p file x = outcome at *
      generalize originOnce p file origin x = next at *
      rcases loopEnd_cases (p := p) outcome with
        ⟨hend | ⟨e,hend⟩,hranges⟩ | ⟨result,hresult,hend,hwhy⟩
      · rw [hend]
        exact ih honce.holds (honce.not_decoded hranges) (hrest (by rw [hend]; rfl))
      · rw [hend]
        refine ⟨honce.holds,fun result hresult => ?_,fun hdecoded => ?_⟩
        · cases hresult
        · rw [isNone_some, if_neg Bool.false_ne_true, honce.not_decoded hranges] at hdecoded
          cases hdecoded
      · rw [hend]
        exact ⟨honce.holds,fun _ _ => honce.whole hresult hwhy,fun _ => ⟨result,rfl⟩⟩

/-! ## All calls of a download -/

/-- The file on disk, what its bytes came from, and the result of the last call. -/
structure Disk where
  file : Option Bytes
  origin : Origin
  last : Option (Except DownloadError SingleDownloadResult)

def Disk.empty : Disk where
  file := none
  origin := ⟨"","",false⟩
  last := none

abbrev Call := Params × List Exchange

/-- A call. There is none after one that succeeded. -/
def call (s : Disk) (c : Call) : Option Disk :=
  match s.last with
  | some (.ok _) => none
  | _ => some
      { file := (downloadSingle decompress c.1 c.2 s.file).2
        origin := originAfter decompress c.1 c.2 s.file s.origin
        last := some (downloadSingle decompress c.1 c.2 s.file).1 }

variable (versions) in
/-- The server serves what it names in every reply that is written. -/
def Served (s : Disk) (c : Call) : Prop :=
  EachWritten decompress c.1 (fun _ _ r => Serves decompress versions r) c.2 s.file s.origin

variable (versions) in
instance (s : Disk) (c : Call) : Decidable (Served decompress versions s c) :=
  eachWrittenDecidable decompress c.1 _ c.2 s.file s.origin

variable (versions) in
/-- Every reply that is written can be. -/
def Fitting (s : Disk) (c : Call) : Prop :=
  EachWritten decompress c.1 (BodyFits decompress versions c.1) c.2 s.file s.origin

variable (versions) in
instance (s : Disk) (c : Call) : Decidable (Fitting decompress versions s c) :=
  eachWrittenDecidable decompress c.1 _ c.2 s.file s.origin

/-- A file holds a part of one representation from its start. A call that succeeded left all of
it, and one that did not left no byte of a decoded body. -/
structure Exact (versions : String → String → Bytes) (s : Disk) : Prop where
  holds : ∀ bytes ∈ s.file, bytes <+: s.origin.rep versions
  complete : ∀ result, s.last = some (.ok result) → s.file = some (s.origin.rep versions)
  identity : s.origin.decoded = true → ∃ result, s.last = some (.ok result)

theorem eachWritten_and {P Q : Option Bytes → Origin → Reply → Prop} {exchanges : List Exchange}
    (hP : EachWritten decompress p P exchanges file origin)
    (hQ : EachWritten decompress p Q exchanges file origin) :
    EachWritten decompress p (fun file origin r => P file origin r ∧ Q file origin r)
      exchanges file origin := by
  induction exchanges generalizing file origin with
  | nil => trivial
  | cons x exchanges ih =>
      refine ⟨?_,fun hnone => ih (hP.2 hnone) (hQ.2 hnone)⟩
      have hboth := And.intro hP.1 hQ.1
      simp only [Written] at hboth ⊢
      split
      · trivial
      · rename_i r hrespond
        simp only [hrespond] at hboth
        exact fun haccept => ⟨hboth.1 haccept,hboth.2 haccept⟩

theorem exact_empty : Exact versions Disk.empty where
  holds := fun _ hbytes => nomatch hbytes
  complete := fun _ hresult => nomatch hresult
  identity := fun hdecoded => nomatch hdecoded

theorem call_exact (s : Disk) (c : Call) (t : Disk) (hs : Exact versions s)
    (hc : Served decompress versions s c ∧ Fitting decompress versions s c)
    (ht : call decompress s c = some t) : Exact versions t := by
  rw [call] at ht
  split at ht
  · cases ht
  · rename_i hlast
    have horigin : s.origin.decoded = false := by
      cases hdecoded : s.origin.decoded with
      | false => rfl
      | true =>
          obtain ⟨result,hresult⟩ := hs.identity hdecoded
          exact absurd hresult (hlast result)
    obtain ⟨hholds,hcomplete,hidentity⟩ := downloadSingle_sound decompress
      (fun bytes hbytes => hs.holds bytes hbytes) horigin
      (eachWritten_and decompress hc.1 hc.2)
    rw [← some.inj ht]
    constructor
    case holds => exact hholds
    case complete => exact fun result hresult => hcomplete result (some.inj hresult)
    case identity =>
      intro hdecoded
      obtain ⟨result,hresult⟩ := hidentity hdecoded
      exact ⟨result,congrArg some hresult⟩

/-- In every run with a server that serves what it names, and in which each reply that is written
can be, the file is exact after every call. -/
theorem download_single_exact_of_fitting {calls : List Call} {t : Disk}
    (hserved : Meets (call decompress) (Served decompress versions) Disk.empty calls)
    (hfitting : Meets (call decompress) (Fitting decompress versions) Disk.empty calls)
    (h : exec (call decompress) Disk.empty calls = some t) : Exact versions t :=
  exec_invariant_of_meets (call_exact decompress) exact_empty
    (meets_and hserved hfitting) h

/-! ## A range that begins elsewhere -/

def tenBytes : Params where
  getLike := true
  supportsRange := true
  totalBytes := 10
  expectedFilename := "a.bin".toList
  expectedEtag := "v"
  expectedLastModified := ""

def reply (status : ℕ) (contentRange : Option Text) (body : List Item) : Reply where
  status := status
  etag := "v"
  lastModified := ""
  contentType := []
  contentEncoding := none
  contentRange := contentRange
  contentLength := some (dataOf body).length
  body := body

def callWith (r : Reply) : Call := (tenBytes, [⟨.ok r,.error ""⟩])

def version (_ _ : String) : Bytes := [0, 1, 2, 3, 4, 5, 6, 7, 8, 9]

/-- The first call is cancelled after three bytes. The second asks for the range from the first
byte on, gets that from the sixth byte on, and succeeds with it. -/
def misalignedCalls : List Call :=
  [callWith (reply 200 none [.data [0, 1, 2], .cancelled]),
    callWith (reply 206 (some "bytes 5-9/10".toList) [.data [5, 6, 7, 8, 9]])]

/-- Both replies serve what they name, and the file of a call that succeeds is not the
representation. -/
theorem download_single_keeps_misaligned :
    Meets (call fun _ => id) (Served (fun _ => id) version) Disk.empty misalignedCalls ∧
      ∃ t ∈ exec (call fun _ => id) Disk.empty misalignedCalls,
        (∃ result, t.last = some (.ok result)) ∧ t.file = some [5, 6, 7, 8, 9] ∧
          ¬ Exact version t := by
  have hexec : (exec (call fun _ => id) Disk.empty misalignedCalls).any
      (fun t => decide (t.file = some [5, 6, 7, 8, 9] ∧
        ∃ last ∈ t.last, last.isOk = true)) = true := by
    decide +kernel
  obtain ⟨t,ht,hdecide⟩ := (any_eq_true _ _).mp hexec
  obtain ⟨hfile,last,hlast,hok⟩ := of_decide_eq_true hdecide
  cases last with
  | error e => cases hok
  | ok result =>
      refine ⟨by decide +kernel,t,ht,⟨result,hlast⟩,hfile,fun hexact => ?_⟩
      have hwhole := hexact.complete result hlast
      rw [hfile] at hwhole
      have hbytes : [5, 6, 7, 8, 9] = version "" "" := some.inj hwhole
      exact absurd hbytes (by decide)

/-- The same second call with a range from the first byte on. -/
def alignedCalls : List Call :=
  [callWith (reply 200 none [.data [0, 1, 2], .cancelled]),
    callWith (reply 206 (some "bytes 0-9/10".toList) [.data [0, 1, 2, 3, 4], .failed "reset"]),
    callWith (reply 206 (some "bytes 0-9/10".toList) [.data (version "" "")])]

theorem download_single_exact_of_aligned :
    ∃ t ∈ exec (call fun _ => id) Disk.empty alignedCalls,
      t.file = some (version "" "") ∧ Exact version t := by
  have hexec : (exec (call fun _ => id) Disk.empty alignedCalls).any
      (fun t => decide (t.file = some (version "" ""))) = true := by
    decide +kernel
  obtain ⟨t,ht,hfile⟩ := (any_eq_true _ _).mp hexec
  exact ⟨t,ht,of_decide_eq_true hfile,
    download_single_exact_of_fitting (fun _ => id) (by decide +kernel) (by decide +kernel) ht⟩

end RinaDown.SingleStream
