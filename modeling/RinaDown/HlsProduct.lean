import RinaDown.HlsSteps

/-!
# What the end of an HLS download keeps

Whoever holds none of the names that the steps take keeps his file. The product is
under the name in the row unless the row could not be written after the video got
its new name: what is removed then is the only copy.
-/

namespace RinaDown.HlsProduct

open FileNames (forceTsExtension tempExt)
open HlsCompletion HlsSteps Option
open SingleStream (DownloadError)
open TaskRename (Volume)

section
variable (v : Volume) (o : Outcomes) (toLowercase : String → String) (p : Params)

/-- What was downloaded is MP4 already. -/
def isMp4 : Bool := muxedToMp4 o p || p.fmp4

def targetName : String := uniqueName o toLowercase p.allowOverwrite (forceTsExtension p.actualName)

/-- The names that the way to the new name takes. -/
def mp4Names : List (List Char) :=
  if stopped o p then []
  else if isMp4 o p then
    if o.fault .renameMp4 = none then [entryOf v (targetName o toLowercase p)] else []
  else remuxNames v o (forceTsExtension p.actualName) (targetName o toLowercase p)

/-- The names that the steps take which do not fail. -/
def touchedNames : List (List Char) :=
  if o.fault .rename = none then
    entryOf v (forceTsExtension p.actualName) ::
      (secondTrackNames v o p (forceTsExtension p.actualName) ++ mp4Names v o toLowercase p)
  else []

/-- The video has left its old name for good, and the row cannot be written. -/
def strands : Bool :=
  decide (o.fault .rename = none) && !stopped o p && isMp4 o p &&
    decide (o.fault .renameMp4 = none) && decide (o.fault .updateFileInfo ≠ none)

variable {File : Type}

def KeepsProduct (r : Except DownloadError ℤ × Saved File) : Prop :=
  ∀ size, r.1 = .ok size → HasProduct v r.2.fileName r.2.directory

/-- Files under other names than these are where they were. -/
def KeepsOthers (own : Set (List Char)) (d d' : Directory File) : Prop :=
  ∀ k ∉ own, ∀ file, d k = some (.other file) → d' k = some (.other file)

theorem others_eq_some {d : Directory File} {k : List Char} {file : File} :
    others d k = some file ↔ d k = some (.other file) := by
  unfold others
  cases hk : d k with
  | none => simp
  | some entry => cases entry <;> simp

theorem keepsOthers_iff {own : Set (List Char)} {d d' : Directory File} {names : List (List Char)}
    (h : others d' = clear names (others d)) :
    KeepsOthers own d d' ↔ ∀ k ∈ names, k ∉ own → others d k = none := by
  constructor
  · intro hkeeps k hk hown
    by_contra hne
    obtain ⟨file,hfile⟩ := ne_none_iff_exists'.mp hne
    have hafter := others_eq_some.mpr (hkeeps k hown file (others_eq_some.mp hfile))
    rw [h, clear, if_pos hk] at hafter
    cases hafter
  · intro hfree k hown file hfile
    have hbefore := others_eq_some.mpr hfile
    have hk : k ∉ names := by
      intro hk
      rw [hfree k hk hown] at hbefore
      cases hbefore
    refine others_eq_some.mp ?_
    rw [h, clear, if_neg hk, hbefore]

variable {v o toLowercase p} {d : Directory File}

/-- The directory before the row is written, and the new name if there is one. -/
structure Finished (v : Volume) (o : Outcomes) (toLowercase : String → String) (p : Params)
    (d : Directory File) (r : Option String × Directory File) : Prop where
  moved : isMp4 o p = true ∧ o.fault .renameMp4 = none →
    r.1 = some (targetName o toLowercase p) ∧ HasProduct v (targetName o toLowercase p) r.2 ∧
      r.2 (entryOf v (forceTsExtension p.actualName)) = none
  kept : ¬(isMp4 o p = true ∧ o.fault .renameMp4 = none) →
    HasProduct v (forceTsExtension p.actualName) r.2 ∧
      ∀ mp4, r.1 = some mp4 →
        mp4 = targetName o toLowercase p ∧ HasProduct v (targetName o toLowercase p) r.2
  others : p.allowOverwrite = false → stopped o p = false →
    others r.2 = clear (mp4Names v o toLowercase p) (others d)

theorem finished_of_product (hvideo : HasProduct v (forceTsExtension p.actualName) d) :
    Finished v o toLowercase p d
      (if isMp4 o p then
        finalizeMp4Path v o toLowercase p.allowOverwrite (forceTsExtension p.actualName) d
      else remuxTsToMp4 v o toLowercase p.allowOverwrite (forceTsExtension p.actualName) d) := by
  cases hmp4 : isMp4 o p with
  | true =>
    rw [if_pos rfl]
    cases hrename : o.fault .renameMp4 with
    | none =>
      obtain ⟨d',hrun,hproduct,hgone,hothers⟩ :=
        finalizeMp4Path_moved v o toLowercase p.allowOverwrite p.actualName hrename hvideo
      rw [hrun]
      refine ⟨fun _ => ⟨rfl,hproduct,hgone⟩,fun h => absurd ⟨hmp4,hrename⟩ h,
        fun _ hgoes => ?_⟩
      rw [mp4Names, hgoes, hmp4, if_neg Bool.false_ne_true, if_pos rfl, if_pos hrename]
      exact hothers
    | some e =>
      rw [finalizeMp4Path_kept v o toLowercase p.allowOverwrite p.actualName hrename]
      refine ⟨fun h => ?_,fun _ => ⟨hvideo,fun _ h => nomatch h⟩,fun _ hgoes => ?_⟩
      · rw [hrename] at h
        exact absurd h.2 (some_ne_none e)
      · rw [mp4Names, hgoes, hmp4, if_neg Bool.false_ne_true, if_pos rfl, hrename,
          if_neg (some_ne_none e), clear_nil]
  | false =>
    rw [if_neg Bool.false_ne_true]
    obtain ⟨hold,hnew,hothers⟩ :=
      remuxTsToMp4_spec v o toLowercase p.allowOverwrite p.actualName hvideo
    refine ⟨fun h => ?_,fun _ => ⟨hold,hnew⟩,fun hkeep hgoes => ?_⟩
    · exact absurd (hmp4.symm.trans h.1) Bool.false_ne_true
    · rw [mp4Names, hgoes, hmp4, if_neg Bool.false_ne_true, if_neg Bool.false_ne_true]
      exact hothers hkeep

theorem hasProduct_saveMp4 {r : Option String × Directory File} (downloadedBytes totalBytes : ℤ)
    (h : Finished v o toLowercase p d r) :
    HasProduct v
        (saveMp4 v o (forceTsExtension p.actualName) downloadedBytes r.1
          ⟨r.2,forceTsExtension p.actualName,totalBytes⟩).2.fileName
        (saveMp4 v o (forceTsExtension p.actualName) downloadedBytes r.1
          ⟨r.2,forceTsExtension p.actualName,totalBytes⟩).2.directory ↔
      ¬((isMp4 o p = true ∧ o.fault .renameMp4 = none) ∧ o.fault .updateFileInfo ≠ none) := by
  have hne : entryOf v (forceTsExtension p.actualName) ≠ entryOf v (targetName o toLowercase p) :=
    video_ne_target v toLowercase o p.allowOverwrite p.actualName
  obtain ⟨mp4,d'⟩ := r
  obtain ⟨hmoved,hkept,-⟩ := h
  dsimp only at hmoved hkept ⊢
  by_cases hgone : isMp4 o p = true ∧ o.fault .renameMp4 = none
  · obtain ⟨rfl,hproduct,hnone⟩ := hmoved hgone
    unfold saveMp4
    dsimp only
    cases hfault : o.fault .updateFileInfo with
    | none =>
      refine iff_of_true (hproduct.congr (removeQuietly_of_ne _ hne.symm)) ?_
      exact fun h => h.2 rfl
    | some e =>
      refine iff_of_false ?_ (not_not_intro ⟨hgone,some_ne_none e⟩)
      rintro ⟨content,-,hentry⟩
      dsimp only at hentry
      rw [removeQuietly_of_ne _ hne, hnone] at hentry
      cases hentry
  · refine iff_of_true ?_ (fun h => hgone h.1)
    obtain ⟨hold,hnew⟩ := hkept hgone
    unfold saveMp4
    cases mp4 with
    | none => exact hold
    | some mp4 =>
      obtain ⟨rfl,hproduct⟩ := hnew mp4 rfl
      dsimp only
      cases o.fault .updateFileInfo with
      | none => exact hproduct.congr (removeQuietly_of_ne _ hne.symm)
      | some e => exact hold.congr (removeQuietly_of_ne _ hne)

theorem others_saveMp4 {r : Option String × Directory File} (downloadedBytes totalBytes : ℤ)
    (h : Finished v o toLowercase p d r) :
    others (saveMp4 v o (forceTsExtension p.actualName) downloadedBytes r.1
      ⟨r.2,forceTsExtension p.actualName,totalBytes⟩).2.directory = others r.2 := by
  obtain ⟨mp4,d'⟩ := r
  obtain ⟨hmoved,hkept,-⟩ := h
  dsimp only at hmoved hkept ⊢
  have hvideo : others d' (entryOf v (forceTsExtension p.actualName)) = none := by
    by_cases hgone : isMp4 o p = true ∧ o.fault .renameMp4 = none
    · unfold others
      rw [(hmoved hgone).2.2]
    · exact (hkept hgone).1.others
  have htarget : ∀ name, mp4 = some name → others d' (entryOf v name) = none := by
    intro name hname
    by_cases hgone : isMp4 o p = true ∧ o.fault .renameMp4 = none
    · obtain ⟨hsome,hproduct,-⟩ := hmoved hgone
      obtain rfl := some.inj (hname.symm.trans hsome)
      exact hproduct.others
    · obtain ⟨rfl,hproduct⟩ := (hkept hgone).2 name hname
      exact hproduct.others
  unfold saveMp4
  cases mp4 with
  | none => rfl
  | some name =>
    dsimp only
    cases o.fault .updateFileInfo with
    | none => exact others_removeQuietly_own _ hvideo
    | some e => exact others_removeQuietly_own _ (htarget name rfl)

theorem rename_video
    (htemp : d (entryOf v (forceTsExtension p.actualName ++ tempExt)) = some (.own .video)) :
    ∃ d', rename none d (entryOf v (forceTsExtension p.actualName ++ tempExt))
        (entryOf v (forceTsExtension p.actualName)) = .ok d' ∧
      HasProduct v (forceTsExtension p.actualName) d' ∧
      others d' = clear [entryOf v (forceTsExtension p.actualName)] (others d) :=
  ⟨_,rename_own htemp,⟨.video,rfl,Function.update_self ..⟩,others_moved htemp⟩

/-- The run from the directory that has the whole video under its temporary name. -/
theorem runHlsDownloadInner_spec (v : Volume) (o : Outcomes) (toLowercase : String → String)
    (p : Params)
    (htemp : d (entryOf v (forceTsExtension p.actualName ++ tempExt)) = some (.own .video)) :
    (KeepsProduct v (runHlsDownloadInner v o toLowercase p d) ↔ strands o p = false) ∧
      (p.allowOverwrite = false →
        others (runHlsDownloadInner v o toLowercase p d).2.directory =
          clear (touchedNames v o toLowercase p) (others d)) := by
  unfold runHlsDownloadInner touchedNames strands
  dsimp only
  cases hrename : o.fault .rename with
  | some e =>
    rw [rename_fault]
    refine ⟨iff_of_true (fun _ h => nomatch h) ?_,fun _ => ?_⟩
    · simp
    · simp [clear_nil]
  | none =>
    obtain ⟨d',hrun,hvideo,hmoved⟩ := rename_video htemp
    rw [hrun, if_pos rfl]
    dsimp only
    obtain ⟨hend,hothers,hproduct⟩ := addAudio_spec v o p _ hvideo (video_ne_audio v p.actualName)
      (video_ne_audioTemp v p.actualName) (video_ne_muxedTmp v p.actualName)
    rw [hmoved, ← clear_append] at hothers
    generalize addAudio v o p (forceTsExtension p.actualName) d' = run at hend hothers hproduct ⊢
    obtain ⟨result,added⟩ := run
    cases result with
    | error e =>
      change stopped o p = true at hend
      refine ⟨iff_of_true (fun _ h => nomatch h) ?_,fun _ => ?_⟩
      · simp [hend]
      · rw [mp4Names, hend, if_pos rfl, List.append_nil]
        exact hothers
    | ok pair =>
      obtain ⟨muxed,bytes⟩ := pair
      obtain ⟨hgoes,rfl,rfl⟩ := hend
      have hfinished : Finished v o toLowercase p added _ := finished_of_product hproduct
      have hmp4 : (muxedToMp4 o p = true ∨ p.fmp4 = true) = (isMp4 o p = true) := by
        rw [isMp4, Bool.or_eq_true]
      simp only [hmp4]
      generalize (if isMp4 o p = true then _ else _ : Option String × Directory File) = finished at hfinished ⊢
      constructor
      · have hsaved := hasProduct_saveMp4 (fetchedBytes o p) 0 hfinished
        have hkeeps : ∀ r : ℤ × Saved File, KeepsProduct v (.ok r.1, r.2) ↔
            HasProduct v r.2.fileName r.2.directory :=
          fun r => ⟨fun h => h r.1 rfl,fun h _ _ => h⟩
        refine (hkeeps _).trans (hsaved.trans ?_)
        rw [hgoes]
        simp [and_assoc]
      · intro hkeep
        refine (others_saveMp4 (fetchedBytes o p) 0 hfinished).trans ?_
        rw [hfinished.others hkeep hgoes, hothers, ← clear_append]
        rfl

end

/-- Whatever fails, the end of a download keeps the product under the name in the row
and, unless it may overwrite, the files under other names exactly if the video is not
stranded and no one has a name that the steps take. The names that count as the
task's own are given. -/
theorem completion_keeps_iff {File : Type} (v : Volume) (o : Outcomes)
    (toLowercase : String → String) (p : Params) (own : Set (List Char)) (d : Directory File)
    (htemp : d (entryOf v (forceTsExtension p.actualName ++ tempExt)) = some (.own .video)) :
    KeepsProduct v (runHlsDownloadInner v o toLowercase p d) ∧
        (p.allowOverwrite = false →
          KeepsOthers own d (runHlsDownloadInner v o toLowercase p d).2.directory) ↔
      strands o p = false ∧
        (p.allowOverwrite = false →
          ∀ k ∈ touchedNames v o toLowercase p, k ∉ own → others d k = none) := by
  obtain ⟨hproduct,hothers⟩ := runHlsDownloadInner_spec v o toLowercase p htemp
  refine and_congr hproduct (forall_congr' fun hkeep => ?_)
  exact keepsOthers_iff (hothers hkeep)

def onlyVideo (v : Volume) (p : Params) : Directory String :=
  Function.update (fun _ => none) (entryOf v (forceTsExtension p.actualName ++ tempExt))
    (some (.own .video))

def plainVolume : Volume := ⟨.unix,id,fun _ h => h⟩

def fmp4Params : Params := ⟨"show.m3u8",none,true,false,4096⟩

def lockedDatabase : Outcomes where
  fault := fun operation => if operation = .updateFileInfo then some "database is locked" else none
  audioTrack := .ok 0
  muxSpace := none
  ffmpeg := .succeeded
  tsLength := some 4096
  remuxSpace := none
  seen := ⟨false,false,false,[],"0"⟩
  mp4Length := some 4096

theorem completion_keeps_iff_locked :
    KeepsProduct plainVolume
          (runHlsDownloadInner plainVolume lockedDatabase id fmp4Params
            (onlyVideo plainVolume fmp4Params)) ∧
        (fmp4Params.allowOverwrite = false →
          KeepsOthers ∅ (onlyVideo plainVolume fmp4Params)
            (runHlsDownloadInner plainVolume lockedDatabase id fmp4Params
              (onlyVideo plainVolume fmp4Params)).2.directory) ↔
      strands lockedDatabase fmp4Params = false ∧
        (fmp4Params.allowOverwrite = false →
          ∀ k ∈ touchedNames plainVolume lockedDatabase id fmp4Params, k ∉ (∅ : Set (List Char)) →
            others (onlyVideo plainVolume fmp4Params) k = none) :=
  completion_keeps_iff plainVolume lockedDatabase id fmp4Params ∅ _ (Function.update_self ..)

/-- The renamed video is removed as if the stream were still there. -/
theorem stranded_video_removed :
    ¬KeepsProduct plainVolume (runHlsDownloadInner plainVolume lockedDatabase id fmp4Params
      (onlyVideo plainVolume fmp4Params)) := by
  have hstrands : strands lockedDatabase fmp4Params = true := by decide
  have hspec := (runHlsDownloadInner_spec plainVolume lockedDatabase id fmp4Params
    (d := onlyVideo plainVolume fmp4Params) (Function.update_self ..)).1
  rw [hspec, hstrands]
  exact Bool.noConfusion

end RinaDown.HlsProduct
