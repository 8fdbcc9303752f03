import RinaDown.HlsDownload
import RinaDown.KeyedTable
import RinaDown.LabelledExecutions

/-!
# The output of a resumed download

A resumed run trusts the saved checkpoint: it continues behind the saved segments if the temp file
holds them, which it does when the file was not created anew since, has at least the saved length
and was not filled up by a rollback, and when the playlist begins with the saved segments.
-/

namespace RinaDown.HlsDownload

open CharacterPatterns LengthFraming HlsSegments HlsCheckpoint LabelledExecutions List Option Bool

/-- A run that continues behind the saved segments finds them in the temp file, and its
playlist begins with them. -/
def ContinuesSaved (host : Host) (s : Download) (start : Start) : Prop :=
  ∀ point ∈ s.resumePoint start, ∃ q ∈ s.savedFor,
    (s.savedCheckpoint start).2.1 ≤ s.fileSize ∧ SameSegments host start.playlist q point.1

/-- A rollback finds all bytes from before the block that failed. -/
def KeepsWritten (s : Download) : Write → Prop
  | .done => True
  | .failed kept rolledBack => rolledBack = true →
      ∀ w ∈ s.writer, ∀ f ∈ s.temp, w.downloadedBytes ≤ max kept f.flushed

def Orderly (host : Host) (s : Download) : Label → Prop
  | .started start => start.isResume = true → ContinuesSaved host s start
  | .wroteInit _ write => KeepsWritten s write
  | .wroteSegment write _ => KeepsWritten s write
  | _ => True

/-! ## The invariant -/

variable {host : Host} {s t : Download} {w : Writer} {f f' : TempFile}

/-- The checkpoint counts segments of a playlist, and the temp file begins with their bytes
unless it is shorter than they are. -/
structure SavedPrefix (host : Host) (s : Download) (q : MediaPlaylist) (idx : ℕ) (bytes : Bytes) :
    Prop where
  checkpoint : s.checkpoint = some (formatCheckpoint idx bytes.length q.mediaSequence)
  written : written host q idx = some bytes
  kept : ∀ f ∈ s.temp, bytes <+: f.content ∨
    (f.content.length < bytes.length ∧ ∀ w ∈ s.writer, w.failed = true)

/-- The content that the writer has appended is that of the segments before the next one. -/
structure Appended (host : Host) (w : Writer) (f : TempFile) (bytes : Bytes) : Prop where
  written : written host w.playlist w.nextToWrite = some bytes
  content : f.content =
    bytes ++ if w.initWritten then initData host w.playlist w.nextToWrite else []
  length : w.downloadedBytes = f.content.length

structure Running (host : Host) (w : Writer) (f : TempFile) : Prop where
  pending : ∀ e ∈ w.pending, segmentData host w.playlist e.1 = some e.2
  cache : ∀ e ∈ w.initCache, e.2 = host.resource e.1.uri e.1.byteRange
  appended : w.failed = false → ∃ bytes, Appended host w f bytes

structure Inv (host : Host) (s : Download) : Prop where
  saved : ∀ q ∈ s.savedFor, ∃ idx bytes, SavedPrefix host s q idx bytes
  running : ∀ w ∈ s.writer, ∃ f ∈ s.temp, Running host w f
  renamed : ∀ e ∈ s.renamed, output host e.1 = some e.2

/-! ## Bytes that are lost -/

theorem content_lose_begins (f : TempFile) (kept : ℕ) : (f.lose kept).content <+: f.content :=
  take_prefix _ _

theorem content_flush_begins (f : TempFile) (lost : Option ℕ) :
    (f.flush lost).content <+: f.content := by
  cases lost with
  | none => exact prefix_refl _
  | some kept => exact content_lose_begins f kept

variable {data bytes : Bytes} {idx skipSegments : ℕ} {q : MediaPlaylist} {write : Write}

/-- Cutting what a failed write left at the old length gives the old content. -/
theorem content_setLen_lose {kept : ℕ} (h : f.content.length ≤ max kept f.flushed) :
    (((f.append data).lose kept).setLen f.content.length).content = f.content := by
  have hlength : f.content.length ≤ ((f.append data).lose kept).content.length := by
    simp only [TempFile.lose, TempFile.append, length_take, length_append]
    omega
  rw [TempFile.setLen, Nat.sub_eq_zero_of_le hlength, replicate_zero, append_nil]
  simp only [TempFile.lose, TempFile.append, take_take, min_eq_left h, take_left]

/-- A failed write leaves a prefix of the file and the block. -/
theorem content_writeLimited_failed {kept : ℕ} {rolledBack : Bool}
    (h : rolledBack = true → f.content.length ≤ max kept f.flushed) :
    (f.writeLimited data f.content.length (.failed kept rolledBack)).1.content <+:
      f.content ++ data := by
  cases rolledBack with
  | false => exact content_lose_begins (f.append data) kept
  | true =>
      rw [TempFile.writeLimited, if_pos rfl, content_setLen_lose (h rfl)]
      exact prefix_append _ _

theorem SavedPrefix.lose (h : SavedPrefix host s q idx bytes) (hwriter : s.writer = some w)
    (htemp : s.temp = some f) (hcheckpoint : t.checkpoint = s.checkpoint)
    (htemp' : t.temp = some f') (hfailed : ∀ w ∈ t.writer, w.failed = true)
    (hbegins : f'.content <+: f.content ++ data) (hdata : w.failed = true → data = []) :
    SavedPrefix host t q idx bytes := by
  refine ⟨hcheckpoint.trans h.checkpoint,h.written,fun current hcurrent => ?_⟩
  obtain rfl := some.inj (htemp'.symm.trans hcurrent)
  rcases h.kept f htemp with hkept | ⟨hshort,hstopped⟩
  · rcases prefix_or_prefix_of_prefix (hkept.trans (prefix_append _ data)) hbegins with
      hle | hge
    · exact .inl hle
    · by_cases hlength : f'.content.length < bytes.length
      · exact .inr ⟨hlength,hfailed⟩
      · exact .inl (hge.eq_of_length_le (Nat.le_of_not_lt hlength) ▸ prefix_refl _)
  · rw [hdata (hstopped w hwriter), append_nil] at hbegins
    exact .inr ⟨hbegins.length_le.trans_lt hshort,hfailed⟩

theorem Inv.lose (h : Inv host s) (hwriter : s.writer = some w) (htemp : s.temp = some f)
    (hcheckpoint : t.checkpoint = s.checkpoint) (hsaved : t.savedFor = s.savedFor)
    (hrenamed : t.renamed = s.renamed) (htemp' : t.temp = some f')
    (hfailed : ∀ v ∈ t.writer, v = { w with failed := true })
    (hbegins : f'.content <+: f.content ++ data) (hdata : w.failed = true → data = []) :
    Inv host t := by
  refine ⟨fun q hq => ?_,fun v hv => ?_,fun e he => h.renamed e (hrenamed ▸ he)⟩
  · obtain ⟨idx,bytes,hprefixed⟩ := h.saved q (hsaved ▸ hq)
    exact ⟨idx,bytes,hprefixed.lose hwriter htemp hcheckpoint htemp'
      (fun v hv => hfailed v hv ▸ rfl) hbegins hdata⟩
  · obtain rfl := hfailed v hv
    obtain ⟨current,-,hrunning⟩ := h.running w hwriter
    exact ⟨f',htemp',hrunning.pending,hrunning.cache,nofun⟩

theorem Inv.fail (h : Inv host s) (hwriter : s.writer = some w) (htemp : s.temp = some f)
    (hbegins : f'.content <+: f.content ++ data) (hdata : w.failed = true → data = []) :
    Inv host (s.fail w f') :=
  h.lose hwriter htemp rfl rfl rfl rfl (fun _ hv => (some.inj hv).symm) hbegins hdata

theorem Inv.runningAt (h : Inv host s) (hwriter : s.writer = some w) (htemp : s.temp = some f) :
    Running host w f := by
  obtain ⟨current,hcurrent,hrunning⟩ := h.running w hwriter
  obtain rfl := some.inj (htemp.symm.trans hcurrent)
  exact hrunning

/-! ## The start of a run -/

theorem running_newWriter {playlist : MediaPlaylist} (bytes : Bytes)
    (h : written host playlist skipSegments = some bytes) :
    Running host (newWriter playlist skipSegments bytes.length) ⟨bytes,bytes.length⟩ := by
  refine ⟨fun e he => absurd he not_mem_nil,fun e he => absurd he not_mem_nil,
    fun _ => ⟨bytes,h,?_,rfl⟩⟩
  exact (append_nil bytes).symm

theorem Inv.deleteCheckpoint (h : Inv host s) :
    Inv host { s with checkpoint := none, savedFor := none } :=
  ⟨fun q hq => absurd hq (not_mem_none q),h.running,h.renamed⟩

theorem Inv.startAnew (h : Inv host s) (start : Start) : Inv host (s.startAnew start) := by
  have hcleaned : Inv host (if start.isResume || !start.deleteOk then s
      else { s with checkpoint := none, savedFor := none }) := by
    split_ifs
    · exact h
    · exact h.deleteCheckpoint
  simp only [Download.startAnew]
  by_cases hopen : start.openOk = true
  · rw [if_pos hopen]
    refine ⟨fun q hq => absurd hq (not_mem_none q),fun v hv => ?_,hcleaned.renamed⟩
    obtain rfl := some.inj hv
    exact ⟨_,rfl,running_newWriter [] rfl⟩
  · rw [if_neg hopen]
    exact hcleaned

/-- A checkpoint from which a run continues is the one that was saved. -/
theorem SavedPrefix.savedCheckpoint_eq {start : Start} (h : SavedPrefix host s q idx bytes)
    (hidx : 0 < (s.savedCheckpoint start).1) (hbytes : 0 < (s.savedCheckpoint start).2.1) :
    s.savedCheckpoint start = (idx, (bytes.length : ℤ), some q.mediaSequence) := by
  have hsaved : s.savedCheckpoint start =
      parseResumeCheckpoint (formatCheckpoint idx bytes.length q.mediaSequence) := by
    rw [Download.savedCheckpoint, h.checkpoint] at hidx ⊢
    cases hreadOk : start.readOk with
    | false =>
        rw [hreadOk] at hidx
        exact absurd hidx (Nat.lt_irrefl 0)
    | true => rfl
  rw [hsaved] at hidx hbytes ⊢
  rcases parseResumeCheckpoint_format q.mediaSequence_lt with hexact | hzero | hzero
  · exact hexact
  · rw [hzero] at hidx
    exact absurd hidx (Nat.lt_irrefl 0)
  · rw [hzero] at hbytes
    exact absurd hbytes (Int.lt_irrefl 0)

/-- A resumed run continues behind the segments that the checkpoint counts. -/
theorem SavedPrefix.resumes {start : Start} (h : SavedPrefix host s q idx bytes) {size : ℕ}
    (hresume : s.resumePoint start = some (skipSegments, size)) :
    skipSegments = idx ∧ size = min bytes.length s.fileSize ∧ 0 < size ∧
      (s.savedCheckpoint start).2.1 = bytes.length ∧
      start.playlist.mediaSequence = q.mediaSequence := by
  rw [Download.resumePoint, ite_none_right_eq_some] at hresume
  obtain ⟨⟨hidx,hfile,hbytes,hsequence⟩,hpoint⟩ := hresume
  obtain ⟨hskip,hsize⟩ := Prod.mk.inj (some.inj hpoint)
  have hread := h.savedCheckpoint_eq hidx hbytes
  simp only [hread] at hskip hsize hbytes hsequence
  have hsizeOk : start.sizeOk = true := by
    by_contra hfails
    rw [if_neg hfails] at hfile
    exact Nat.lt_irrefl 0 hfile
  rw [if_pos hsizeOk] at hfile hsize
  refine ⟨hskip.symm,by omega,by omega,by rw [hread],?_⟩
  exact (by simpa [mediaSeqChanged] using hsequence : q.mediaSequence = _).symm

theorem Inv.continueAt (h : Inv host s) (hwriter : s.writer = none) {start : Start} {size : ℕ}
    (hresume : s.resumePoint start = some (skipSegments, size))
    (hcontinues : ContinuesSaved host s start) :
    Inv host (s.continueAt start skipSegments size) := by
  obtain ⟨q,hq,hlong,hsame⟩ := hcontinues _ hresume
  obtain ⟨idx,bytes,hprefixed⟩ := h.saved q hq
  obtain ⟨rfl,hsize,hpos,hbytes,-⟩ := hprefixed.resumes hresume
  have hle : bytes.length ≤ s.fileSize := by omega
  obtain rfl : size = bytes.length := by omega
  cases htemp : s.temp with
  | none =>
      rw [Download.fileSize, htemp] at hle
      exact absurd (hpos.trans_le hle) (Nat.lt_irrefl 0)
  | some f =>
      have hsize : s.fileSize = f.content.length := by rw [Download.fileSize, htemp]; rfl
      rw [hsize] at hle
      have hkept : f.content.take bytes.length = bytes := by
        rcases hprefixed.kept f htemp with hbegins | ⟨hshort,-⟩
        · exact (prefix_iff_eq_take.mp hbegins).symm
        · exact absurd hle (Nat.not_le_of_lt hshort)
      have hsaved : ∀ t : Download, t.checkpoint = s.checkpoint →
          t.temp = some ⟨bytes,bytes.length⟩ → SavedPrefix host t q skipSegments bytes := by
        refine fun t hcheckpoint htemp' =>
          ⟨hcheckpoint.trans hprefixed.checkpoint,hprefixed.written,fun v hv => ?_⟩
        obtain rfl := some.inj (htemp'.symm.trans hv)
        exact .inl (prefix_refl bytes)
      simp only [Download.continueAt, htemp, map_some, getD_some, hkept]
      by_cases hfails : bytes.length < s.fileSize ∧ start.truncateOk = false
      · rw [if_pos hfails]
        exact h
      · rw [if_neg hfails]
        by_cases hopen : start.openOk = true
        · rw [if_pos hopen]
          have hwritten : written host start.playlist skipSegments = some bytes :=
            (written_congr hsame).trans hprefixed.written
          refine ⟨fun q' hq' => ?_,fun v hv => ?_,h.renamed⟩
          · obtain rfl := some.inj (hq.symm.trans hq')
            exact ⟨skipSegments,bytes,hsaved _ rfl rfl⟩
          · obtain rfl := some.inj hv
            exact ⟨_,rfl,running_newWriter bytes hwritten⟩
        · rw [if_neg hopen]
          refine ⟨fun q' hq' => ?_,fun v hv => ?_,h.renamed⟩
          · obtain rfl := some.inj (hq.symm.trans hq')
            exact ⟨skipSegments,bytes,hsaved _ rfl rfl⟩
          · rw [hwriter] at hv
            exact absurd hv (not_mem_none v)

theorem Inv.start (h : Inv host s) (hwriter : s.writer = none) {start : Start}
    (horderly : Orderly host s (.started start)) : Inv host (s.start start) := by
  rw [Download.start]
  by_cases hresume : start.isResume = true
  · rw [if_pos hresume]
    cases hpoint : s.resumePoint start with
    | none => exact h.startAnew start
    | some point => exact h.continueAt hwriter hpoint (horderly hresume)
  · rw [if_neg hresume]
    exact h.startAnew start

/-! ## The steps of the writer -/

theorem SavedPrefix.grow (h : SavedPrefix host s q idx bytes) (hwriter : s.writer = some w)
    (hrunning : w.failed = false) (htemp : s.temp = some f)
    (hcheckpoint : t.checkpoint = s.checkpoint) (htemp' : t.temp = some f')
    (hbegins : f.content <+: f'.content) :
    SavedPrefix host t q idx bytes := by
  refine ⟨hcheckpoint.trans h.checkpoint,h.written,fun current hcurrent => ?_⟩
  obtain rfl := some.inj (htemp'.symm.trans hcurrent)
  rcases h.kept f htemp with hkept | ⟨-,hstopped⟩
  · exact .inl (hkept.trans hbegins)
  · exact absurd ((hstopped w hwriter).symm.trans hrunning) Bool.noConfusion

theorem not_failed_of_inLoop (h : w.inLoop = true) : w.failed = false := by
  rw [Writer.inLoop, and_eq_true, not_eq_true'] at h
  exact h.1

theorem Inv.receive (h : Inv host s) (hwriter : s.writer = some w) (htemp : s.temp = some f)
    (hloop : w.inLoop = true) (idx : ℕ) (ok : Bool) : Inv host (s.receive host w f idx ok) := by
  have hrunning := not_failed_of_inLoop hloop
  rw [Download.receive]
  cases hdata : (if ok then segmentData host w.playlist idx else none) with
  | none =>
      exact h.fail hwriter htemp (prefix_append f.content []) fun hfailed =>
        absurd (hfailed.symm.trans hrunning) Bool.noConfusion
  | some data =>
      refine ⟨fun q hq => ?_,fun v hv => ?_,h.renamed⟩
      · obtain ⟨saved,bytes,hprefixed⟩ := h.saved q hq
        exact ⟨saved,bytes,hprefixed.grow hwriter hrunning htemp rfl htemp (prefix_refl _)⟩
      · obtain rfl := some.inj hv
        obtain ⟨hpending,hcache,happended⟩ := h.runningAt hwriter htemp
        refine ⟨f,htemp,?_,hcache,fun hfailed => ?_⟩
        · rw [forall_mem_cons]
          refine ⟨?_,hpending⟩
          split_ifs at hdata
          exact hdata
        · obtain ⟨bytes,hwritten,hcontent,hlength⟩ := happended hfailed
          exact ⟨bytes,hwritten,hcontent,hlength⟩

/-- The bytes of an initialization segment are those of its resource. -/
theorem fetchInitSegment_eq {cache cache' : List (HlsInitMap × Bytes)} {map : HlsInitMap}
    {ok : Bool} (hcache : ∀ e ∈ cache, e.2 = host.resource e.1.uri e.1.byteRange)
    (h : fetchInitSegment host cache map ok = some (data, cache')) :
    data = initBytes host (some map) ∧
      ∀ e ∈ cache', e.2 = host.resource e.1.uri e.1.byteRange := by
  rw [fetchInitSegment] at h
  cases hlookup : cache.lookup map with
  | some cached =>
      rw [hlookup] at h
      obtain ⟨rfl,rfl⟩ := Prod.mk.inj (some.inj h)
      exact ⟨hcache _ (KeyedTable.mem_of_lookup hlookup),hcache⟩
  | none =>
      rw [hlookup] at h
      by_cases hok : ok = true
      · simp only [hok, if_true] at h
        obtain ⟨fetched,hfetched,heq⟩ := map_eq_some_iff.mp h
        obtain ⟨rfl,rfl⟩ := Prod.mk.inj heq
        have hresource : fetched = host.resource map.uri map.byteRange := by
          rw [downloadSegment] at hfetched
          split_ifs at hfetched
          exact (some.inj hfetched).symm
        refine ⟨hresource,?_⟩
        rw [forall_mem_cons]
        exact ⟨hresource,hcache⟩
      · simp only [hok] at h
        exact absurd h nofun

/-- What a failed write leaves, when the rollback finds the bytes from before it. -/
theorem writeLimited_failed (hkeeps : KeepsWritten s write) (hwriter : s.writer = some w)
    (htemp : s.temp = some f) (hlength : w.downloadedBytes = f.content.length)
    (hfails : (f.writeLimited data w.downloadedBytes write).2 = false) :
    (f.writeLimited data w.downloadedBytes write).1.content <+: f.content ++ data := by
  cases write with
  | done => exact absurd hfails nofun
  | failed kept rolledBack =>
      rw [hlength]
      apply content_writeLimited_failed
      intro hrolled
      rw [← hlength]
      exact hkeeps hrolled w hwriter f htemp

theorem writeLimited_ok {rollbackTo : ℕ} (h : (f.writeLimited data rollbackTo write).2 = true) :
    (f.writeLimited data rollbackTo write).1 = f.append data := by
  cases write with
  | done => rfl
  | failed kept rolledBack => exact absurd h false_ne_true

theorem Inv.writeInit (h : Inv host s) (hwriter : s.writer = some w) (htemp : s.temp = some f)
    (hloop : w.inLoop = true) (hwants : w.wantsInit = true) {map : HlsInitMap}
    (hmap : w.playlist.segments[w.nextToWrite]?.bind (·.map) = some map) (fetched : Bool)
    (hkeeps : KeepsWritten s write) :
    Inv host (s.writeInit host w f map fetched write) := by
  have hrunning := not_failed_of_inLoop hloop
  have hnotfailed : ∀ data : Bytes, w.failed = true → data = [] := fun _ hfailed =>
    absurd (hfailed.symm.trans hrunning) Bool.noConfusion
  obtain ⟨hpending,hcache,happended⟩ := h.runningAt hwriter htemp
  obtain ⟨bytes,hwritten,hcontent,hlength⟩ := happended hrunning
  rw [Writer.wantsInit, and_eq_true, not_eq_true'] at hwants
  rw [Download.writeInit]
  cases hfetch : fetchInitSegment host w.initCache map fetched with
  | none => exact h.fail hwriter htemp (prefix_append f.content []) (hnotfailed [])
  | some result =>
      obtain ⟨data,cache⟩ := result
      obtain ⟨hdata,hcache'⟩ := fetchInitSegment_eq hcache hfetch
      by_cases hok : (f.writeLimited data w.downloadedBytes write).2 = true
      · simp only [hok, if_true]
        rw [writeLimited_ok hok]
        refine ⟨fun q hq => ?_,fun v hv => ?_,h.renamed⟩
        · obtain ⟨saved,prefixBytes,hprefixed⟩ := h.saved q hq
          exact ⟨saved,prefixBytes,hprefixed.grow hwriter hrunning htemp rfl rfl
            (prefix_append _ _)⟩
        · obtain rfl := some.inj hv
          refine ⟨_,rfl,hpending,hcache',fun _ => ⟨bytes,hwritten,?_,?_⟩⟩
          · rw [hwants.2, if_neg Bool.false_ne_true, append_nil] at hcontent
            simp only [TempFile.append, if_true]
            rw [hcontent, hdata, initData, if_pos hwants.1, hmap]
          · simp only [TempFile.append, length_append, hlength]
      · simp only [hok]
        exact h.fail hwriter htemp (writeLimited_failed hkeeps hwriter htemp hlength
          (eq_false_of_ne_true hok)) (hnotfailed data)

theorem Inv.writeSegment (h : Inv host s) (hwriter : s.writer = some w) (htemp : s.temp = some f)
    (hloop : w.inLoop = true) (hwants : w.wantsInit = false) (hnext : w.next = some data)
    (hkeeps : KeepsWritten s write) (saved : Bool) :
    Inv host (s.writeSegment w f data write saved) := by
  have hrunning := not_failed_of_inLoop hloop
  obtain ⟨hpending,hcache,happended⟩ := h.runningAt hwriter htemp
  obtain ⟨bytes,hwritten,hcontent,hlength⟩ := happended hrunning
  have hdata : segmentData host w.playlist w.nextToWrite = some data :=
    hpending _ (KeyedTable.mem_of_lookup hnext)
  have hinit : (if w.initWritten then initData host w.playlist w.nextToWrite else []) =
      initData host w.playlist w.nextToWrite := by
    by_cases hwritten : w.initWritten = true
    · rw [if_pos hwritten]
    · rw [if_neg hwritten, initData, if_neg]
      intro hneeds
      rw [Writer.wantsInit, hneeds, eq_false_of_ne_true hwritten] at hwants
      cases hwants
  rw [hinit] at hcontent
  have hadvanced : written host w.playlist (w.nextToWrite + 1) = some (f.content ++ data) := by
    rw [written, hwritten, hdata, hcontent]
    rfl
  rw [Download.writeSegment]
  by_cases hok : (f.writeLimited data w.downloadedBytes write).2 = true
  · simp only [hok, if_true]
    rw [writeLimited_ok hok]
    have hadded : w.downloadedBytes + data.length = (f.content ++ data).length := by
      rw [hlength, length_append]
    have hnextPending : ∀ e ∈ w.pending.filter (·.1 ≠ w.nextToWrite),
        segmentData host w.playlist e.1 = some e.2 := fun e he =>
      hpending e (mem_of_mem_filter he)
    cases saved with
    | false =>
        refine ⟨fun q hq => ?_,fun v hv => ?_,h.renamed⟩
        · obtain ⟨idx,prefixBytes,hprefixed⟩ := h.saved q hq
          exact ⟨idx,prefixBytes,hprefixed.grow hwriter hrunning htemp rfl rfl
            (prefix_append _ _)⟩
        · obtain rfl := some.inj hv
          exact ⟨_,rfl,hnextPending,hcache,fun _ =>
            ⟨_,hadvanced,(append_nil _).symm,hadded⟩⟩
    | true =>
        refine ⟨fun q hq => ?_,fun v hv => ?_,h.renamed⟩
        · obtain rfl := some.inj hq
          refine ⟨w.nextToWrite + 1,f.content ++ data,?_,hadvanced,fun v hv => ?_⟩
          · rw [← hadded]
            rfl
          · obtain rfl := some.inj hv
            exact .inl (prefix_refl _)
        · obtain rfl := some.inj hv
          exact ⟨_,rfl,hnextPending,hcache,fun _ =>
            ⟨_,hadvanced,(append_nil _).symm,hadded⟩⟩
  · simp only [hok]
    exact h.fail hwriter htemp (writeLimited_failed hkeeps hwriter htemp hlength
      (eq_false_of_ne_true hok)) fun hfailed =>
        absurd (hfailed.symm.trans hrunning) Bool.noConfusion

theorem Inv.flush (h : Inv host s) (hwriter : s.writer = some w) (htemp : s.temp = some f)
    (lost : Option ℕ) : Inv host { s with temp := some (f.flush lost), writer := none } := by
  have hbegins : (f.flush lost).content <+: f.content ++ [] := by
    rw [append_nil]
    exact content_flush_begins f lost
  exact h.lose hwriter htemp rfl rfl rfl rfl (fun v hv => absurd hv (not_mem_none v))
    hbegins fun _ => rfl

/-- After the last segment the file is the output of the playlist. -/
theorem Appended.output_eq (h : Appended host w f bytes)
    (hall : w.playlist.segments.length ≤ w.nextToWrite) :
    output host w.playlist = some f.content := by
  have hcount : w.nextToWrite = w.playlist.segments.length :=
    Nat.le_antisymm (le_length_of_written h.written) hall
  have hinit : initData host w.playlist w.nextToWrite = [] := by
    rw [initData, needsInitSegment, getElem?_eq_none hall]
    rfl
  have hcontent : f.content = bytes := by
    rw [h.content, hinit, ite_self, append_nil]
  rw [← written_length, ← hcount, h.written, hcontent]

theorem Inv.rename (h : Inv host s) (hwriter : s.writer = none) {playlist : MediaPlaylist}
    (houtput : output host playlist = some bytes) :
    Inv host { s with temp := none, renamed := s.renamed ++ [(playlist, bytes)] } := by
  refine ⟨fun q hq => ?_,fun v hv => ?_,fun e he => ?_⟩
  · obtain ⟨idx,saved,hprefixed⟩ := h.saved q hq
    exact ⟨idx,saved,hprefixed.checkpoint,hprefixed.written,
      fun v hv => absurd hv (not_mem_none v)⟩
  · exact absurd (hwriter.symm.trans hv) nofun
  · rcases mem_append.mp he with hold | hnew
    · exact h.renamed e hold
    · obtain rfl := mem_singleton.mp hnew
      exact houtput

theorem Inv.finish (h : Inv host s) (hwriter : s.writer = some w) (htemp : s.temp = some f)
    (hrunning : w.failed = false) (hall : w.playlist.segments.length ≤ w.nextToWrite)
    (lost : Option ℕ) (deleteOk renameOk : Bool) :
    Inv host (s.finish w f lost deleteOk renameOk) := by
  have hflushed := h.flush hwriter htemp lost
  obtain ⟨bytes,happended⟩ := (h.runningAt hwriter htemp).appended hrunning
  have houtput := happended.output_eq hall
  simp only [Download.finish]
  by_cases hlost : lost.isSome = true
  · rw [if_pos hlost]
    exact hflushed
  · rw [if_neg hlost]
    cases deleteOk with
    | false =>
        cases renameOk with
        | false => exact hflushed
        | true => exact hflushed.rename rfl houtput
    | true =>
        cases renameOk with
        | false => exact hflushed.deleteCheckpoint
        | true => exact hflushed.deleteCheckpoint.rename rfl houtput

theorem Inv.crash (h : Inv host s) (hwriter : s.writer = some w) (htemp : s.temp = some f)
    (extra kept : ℕ) : Inv host (s.crash host w f extra kept) := by
  refine h.lose hwriter htemp rfl rfl rfl rfl (fun v hv => absurd hv (not_mem_none v))
    (content_lose_begins _ _) fun hfailed => ?_
  have hloop : w.inLoop = false := by rw [Writer.inLoop, hfailed]; rfl
  rw [Writer.currentBlock, hloop]
  exact take_nil

theorem Inv.writerStep (h : Inv host s) (hwriter : s.writer = some w) (htemp : s.temp = some f)
    {a : Label} (horderly : Orderly host s a) (hstep : s.writerStep host w f a = some t) : Inv host t := by
  cases a with
  | started start => exact absurd hstep nofun
  | received idx ok =>
      rw [Download.writerStep] at hstep
      split_ifs at hstep with hcond
      obtain rfl := some.inj hstep
      rw [and_eq_true, and_eq_true] at hcond
      exact h.receive hwriter htemp hcond.1.1 idx ok
  | cancelled =>
      rw [Download.writerStep] at hstep
      split_ifs at hstep with hcond
      obtain rfl := some.inj hstep
      rw [and_eq_true] at hcond
      exact h.fail hwriter htemp (prefix_append f.content []) fun hfailed =>
        absurd (hfailed.symm.trans (not_failed_of_inLoop hcond.1)) Bool.noConfusion
  | wroteInit fetched write =>
      rw [Download.writerStep] at hstep
      cases hmap : w.playlist.segments[w.nextToWrite]?.bind (·.map) with
      | none =>
          rw [hmap] at hstep
          exact absurd hstep nofun
      | some map =>
          simp only [hmap] at hstep
          split_ifs at hstep with hcond
          obtain rfl := some.inj hstep
          rw [and_eq_true, and_eq_true] at hcond
          exact h.writeInit hwriter htemp hcond.1.1 hcond.2 hmap fetched horderly
  | wroteSegment write saved =>
      rw [Download.writerStep] at hstep
      cases hnext : w.next with
      | none =>
          rw [hnext] at hstep
          exact absurd hstep nofun
      | some data =>
          simp only [hnext] at hstep
          split_ifs at hstep with hcond
          obtain rfl := some.inj hstep
          rw [and_eq_true, not_eq_true'] at hcond
          exact h.writeSegment hwriter htemp hcond.1 hcond.2 hnext horderly saved
  | stopped lost =>
      rw [Download.writerStep] at hstep
      split_ifs at hstep
      obtain rfl := some.inj hstep
      exact h.flush hwriter htemp lost
  | finished lost deleteOk renameOk =>
      rw [Download.writerStep] at hstep
      split_ifs at hstep with hcond
      obtain rfl := some.inj hstep
      rw [and_eq_true, not_eq_true', decide_eq_true_eq] at hcond
      exact h.finish hwriter htemp hcond.1 hcond.2 lost deleteOk renameOk
  | crashed extra kept =>
      obtain rfl := some.inj hstep
      exact h.crash hwriter htemp extra kept

theorem Inv.step (h : Inv host s) {a : Label} (horderly : Orderly host s a)
    (hstep : step host s a = some t) : Inv host t := by
  cases hwriter : s.writer with
  | none =>
      cases a with
      | started start =>
          simp only [HlsDownload.step, hwriter] at hstep
          split_ifs at hstep
          obtain rfl := some.inj hstep
          exact h.start hwriter horderly
      | _ =>
          simp only [HlsDownload.step, hwriter] at hstep
          exact absurd hstep nofun
  | some w =>
      obtain ⟨f,htemp,-⟩ := h.running w hwriter
      rw [mem_def] at htemp
      simp only [HlsDownload.step, hwriter, htemp] at hstep
      exact h.writerStep hwriter htemp horderly hstep

theorem Initial.inv (h : Initial s) : Inv host s := by
  refine ⟨fun q hq => ?_,fun w hw => ?_,fun e he => ?_⟩
  · rw [h.savedFor] at hq
    exact absurd hq (not_mem_none q)
  · rw [h.writer] at hw
    exact absurd hw (not_mem_none w)
  · rw [h.renamed] at he
    exact absurd he not_mem_nil

/-- In every run of orderly steps, a temp file that is renamed is the output of the playlist
of the run that renames it. -/
theorem run_outputs_playlist {as : List Label} (hs : Initial s)
    (hm : Meets (HlsDownload.step host) (Orderly host) s as)
    (h : exec (HlsDownload.step host) s as = some t) :
    ∀ e ∈ t.renamed, output host e.1 = some e.2 := by
  have hstep : ∀ s a t, Inv host s → Orderly host s a → HlsDownload.step host s a = some t →
      Inv host t := fun s a t hs ha hstep => hs.step ha hstep
  exact (exec_invariant_of_meets hstep hs.inv hm h).renamed

/-- Wherever a run of orderly steps stops, the saved checkpoint counts whole segments that the temp
file begins with, unless the file has become shorter. -/
theorem run_saves_prefix {as : List Label} (hs : Initial s)
    (hm : Meets (HlsDownload.step host) (Orderly host) s as)
    (h : exec (HlsDownload.step host) s as = some t) :
    ∀ q ∈ t.savedFor, ∃ idx bytes, SavedPrefix host t q idx bytes :=
  (exec_invariant_of_meets (fun _ _ _ hs ha hstep => hs.step ha hstep) hs.inv hm h).saved

/-! ## Examples of runs -/

instance (playlist playlist' : MediaPlaylist) (n : ℕ) :
    Decidable (SameSegments host playlist playlist' n) :=
  inferInstanceAs (Decidable (∀ i < n, segmentData host playlist i = segmentData host playlist' i ∧
    initData host playlist i = initData host playlist' i))

instance (start : Start) : Decidable (ContinuesSaved host s start) :=
  inferInstanceAs (Decidable (∀ point ∈ s.resumePoint start, ∃ q ∈ s.savedFor,
    (s.savedCheckpoint start).2.1 ≤ s.fileSize ∧ SameSegments host start.playlist q point.1))

instance : ∀ write, Decidable (KeepsWritten s write)
  | .done => isTrue trivial
  | .failed kept rolledBack => inferInstanceAs (Decidable (rolledBack = true →
      ∀ w ∈ s.writer, ∀ f ∈ s.temp, w.downloadedBytes ≤ max kept f.flushed))

instance : ∀ s a, Decidable (Orderly host s a)
  | s, .started start =>
      inferInstanceAs (Decidable (start.isResume = true → ContinuesSaved host s start))
  | s, .wroteInit _ write | s, .wroteSegment write _ =>
      inferInstanceAs (Decidable (KeepsWritten s write))
  | _, .received .. | _, .cancelled | _, .stopped _ | _, .finished .. | _, .crashed .. =>
      isTrue trivial

def sampleHost : Host where
  resource uri byteRange :=
    let content := if uri = ['m'] then [1, 2, 3, 4] else [9]
    (byteRange.map fun range => (content.drop range.1).take range.2).getD content
  key _ := []
  pkcs7 _ _ _ := none
  noPadding _ _ _ := none

theorem sampleSequence_lt : 7 < 2 ^ 64 := by decide

/-- Three byte ranges of one resource, of which the first two have an initialization segment. -/
def samplePlaylist : MediaPlaylist where
  segments :=
    [⟨['m'],none,some (0, 1),some ⟨['i'],none⟩⟩, ⟨['m'],none,some (1, 2),some ⟨['i'],none⟩⟩,
      ⟨['m'],none,some (3, 1),none⟩]
  mediaSequence := 7
  mediaSequence_lt := sampleSequence_lt

def newDownload : Download := ⟨none,none,none,none,[]⟩

def sampleStart (isResume : Bool) : Start := ⟨isResume,samplePlaylist,true,true,true,true,true⟩

/-- Two segments are written, and in the third the process ends with some bytes kept. The
resumed run writes the third segment. -/
def crashedRun (kept : ℕ) : List Label :=
  [.started (sampleStart false), .received 2 true, .received 1 true, .received 0 true,
    .wroteInit true .done, .wroteSegment .done true, .wroteSegment .done true, .crashed 1 kept,
    .started (sampleStart true), .received 2 true, .wroteSegment .done true,
    .finished none true true]

/-- The file that is renamed after the crash, if none of its bytes were lost. -/
theorem run_outputs_playlist_crashed :
    ∃ t, exec (HlsDownload.step sampleHost) newDownload (crashedRun 5) = some t ∧
      t.renamed.length = 1 ∧ ∀ e ∈ t.renamed, output sampleHost e.1 = some e.2 := by
  have hm : Meets (HlsDownload.step sampleHost) (Orderly sampleHost) newDownload (crashedRun 5) := by
    decide +kernel
  have hrun : (exec (HlsDownload.step sampleHost) newDownload (crashedRun 5)).any
      (fun t => t.renamed.length = 1) = true := by decide +kernel
  obtain ⟨t,ht,hlength⟩ := (any_eq_true _ _).mp hrun
  exact ⟨t,ht,of_decide_eq_true hlength,run_outputs_playlist ⟨rfl,rfl,rfl⟩ hm ht⟩

theorem run_saves_prefix_crashed :
    ∃ t, exec (HlsDownload.step sampleHost) newDownload ((crashedRun 5).take 8) = some t ∧
      ∃ q ∈ t.savedFor, ∃ idx bytes, SavedPrefix sampleHost t q idx bytes := by
  have hrun : (exec (HlsDownload.step sampleHost) newDownload ((crashedRun 5).take 8)).any
      (fun t => t.savedFor.isSome) = true := by decide +kernel
  obtain ⟨t,ht,hsaved⟩ := (any_eq_true _ _).mp hrun
  obtain ⟨q,hq⟩ := isSome_iff_exists.mp hsaved
  exact ⟨t,ht,q,hq, run_saves_prefix ⟨rfl,rfl,rfl⟩ (by decide +kernel) ht q hq⟩

/-- If the file is shorter than the checkpoint after the crash, the renamed file lacks bytes of
the only playlist that was served. -/
theorem renamed_without_lost_bytes :
    ∃ t, exec (HlsDownload.step sampleHost) newDownload (crashedRun 1) = some t ∧
      t.renamed = [(samplePlaylist, [9, 4])] ∧
      output sampleHost samplePlaylist = some [9, 1, 2, 3, 4] := by
  have hrun : (exec (HlsDownload.step sampleHost) newDownload (crashedRun 1)).any (fun t =>
      t.renamed = [(samplePlaylist, [9, 4])] ∧
        output sampleHost samplePlaylist = some [9, 1, 2, 3, 4]) = true := by decide +kernel
  obtain ⟨t,ht,hfacts⟩ := (any_eq_true _ _).mp hrun
  exact ⟨t,ht,of_decide_eq_true hfacts⟩

end RinaDown.HlsDownload
