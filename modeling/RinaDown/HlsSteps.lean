import RinaDown.HlsCompletion

/-!
# Steps at the end of an HLS download

Every step takes other files away from at most a few names, which depend only on
what fails, and leaves the video where it is or moves it whole. The names of a task
end differently, so no volume takes one for another.
-/

namespace RinaDown.HlsSteps

open FileNames (forceTsExtension replaceExtension numberedName splitLastDot stemAndExtension tempExt)
open Finalization (Seen dedupFilename)
open HlsCompletion List Function Option
open SanitizedNames (splitLastDot_eq_none splitLastDot_eq_some)
open SingleStream (DownloadError)
open TaskRename (Volume)

/-! ## Names -/

/-- The third character from the end. -/
def third (s : List Char) : Option Char := s.reverse[2]?

theorem third_append (s : List Char) {t : List Char} (ht : 3 ≤ t.length) :
    third (s ++ t) = third t := by
  unfold third
  rw [reverse_append, getElem?_append_left (by rw [length_reverse]; omega)]

theorem third_entryOf (v : Volume) (name : String) :
    third (entryOf v name) = (third name.toList).map v.fold := by
  unfold third entryOf
  rw [← map_reverse, getElem?_map]

theorem length_entryOf (v : Volume) (name : String) :
    (entryOf v name).length = name.toList.length := by
  unfold entryOf
  rw [length_map]

theorem entryOf_ne (v : Volume) {a b : String} {c : Char} (ha : third a.toList = some '.')
    (hb : third b.toList = some c) (hc : c ≠ '.') : entryOf v a ≠ entryOf v b := by
  intro h
  have hthird := congrArg third h
  rw [third_entryOf, third_entryOf, ha, hb, map_some, map_some] at hthird
  exact hc (v.fold_dot c (some.inj hthird).symm)

theorem splitLastDot_append (s : List Char) {e : List Char} (he : '.' ∉ e) :
    splitLastDot (s ++ '.' :: e) = some (s, e) := by
  have hpass : ∀ c ∈ e.reverse, decide (c ≠ '.') = true := by
    intro c hc
    exact decide_eq_true fun h => he (h ▸ mem_reverse.mp hc)
  have hrev : (s ++ '.' :: e).reverse = e.reverse ++ '.' :: s.reverse := by simp
  have hdrop : (s ++ '.' :: e).rdropWhile (· ≠ '.') = s ++ ['.'] := by
    rw [rdropWhile, hrev, dropWhile_append_of_pos hpass]
    simp
  have htake : (s ++ '.' :: e).rtakeWhile (· ≠ '.') = e := by
    rw [rtakeWhile, hrev, takeWhile_append_of_pos hpass]
    simp
  unfold splitLastDot
  rw [hdrop, htake]
  cases s with
  | nil => rfl
  | cons c s =>
    have hlast : (c :: (s ++ ['.'])).dropLast = c :: s := by
      rw [← cons_append, dropLast_concat]
    exact congrArg (fun front => some (front, e)) hlast

/-- The last dot is not the first character. -/
theorem stemAndExtension_of_toList {name : String} {s e : List Char} (hs : s ≠ []) (he : '.' ∉ e)
    (hne : e ≠ []) (hname : name.toList = s ++ '.' :: e) :
    stemAndExtension name = (String.ofList s, some (String.ofList e)) := by
  have hparent : name ≠ ".." := by
    rintro rfl
    obtain ⟨c,s,rfl⟩ := exists_cons_of_ne_nil hs
    obtain ⟨c',e,rfl⟩ := exists_cons_of_ne_nil hne
    have hlength := congrArg List.length hname
    simp at hlength
    omega
  obtain ⟨c,s,rfl⟩ := exists_cons_of_ne_nil hs
  unfold stemAndExtension
  rw [if_neg hparent, hname, splitLastDot_append _ he]

theorem stem_ne_nil {name : String} (h : name ≠ "") : (stemAndExtension name).1.toList ≠ [] := by
  have hname : name.toList ≠ [] := fun hnil => h (String.toList_eq_nil_iff.mp hnil)
  unfold stemAndExtension
  split_ifs with hparent
  · exact hname
  · cases splitLastDot name.toList with
    | none => exact hname
    | some pair =>
      obtain ⟨front,ext⟩ := pair
      cases front with
      | nil => exact hname
      | cons c front =>
        dsimp only
        rw [String.toList_ofList]
        exact cons_ne_nil c front

section
variable (video : String)

theorem third_video (name : String) : third (forceTsExtension name).toList = some '.' := by
  have htail : third ".ts".toList = some '.' := by decide
  unfold forceTsExtension replaceExtension
  cases splitLastDot name.toList with
  | none | some pair =>
    dsimp only
    rw [String.append_assoc, String.toList_append, third_append _ (by decide)]
    exact htail

theorem third_audioName : third (audioName video).toList = some 'm' := by
  unfold audioName
  rw [String.toList_append, third_append _ (by decide)]
  decide

theorem third_audioTempName : third (audioTempName video).toList = some 'i' := by
  unfold audioTempName
  rw [String.toList_append, third_append _ (by decide)]
  decide

theorem third_muxedTmpName : ∃ c, third (muxedTmpName video).toList = some c ∧ c ≠ '.' := by
  have hcontainer : (muxContainerFor video).1 = "webm" ∨ (muxContainerFor video).1 = "mkv" ∨
      (muxContainerFor video).1 = "mov" ∨ (muxContainerFor video).1 = "mp4" := by
    unfold muxContainerFor
    split_ifs <;> simp
  unfold muxedTmpName withExtension
  rw [String.toList_append]
  obtain h | h | h | h := hcontainer <;>
    rw [h, third_append _ (by decide)]
  · exact ⟨'e',by decide,by decide⟩
  · exact ⟨'m',by decide,by decide⟩
  · exact ⟨'m',by decide,by decide⟩
  · exact ⟨'m',by decide,by decide⟩

theorem third_mp4TmpName (target : String) : third (mp4TmpName target).toList = some 't' := by
  unfold mp4TmpName withExtension
  rw [String.toList_append, third_append _ (by decide)]
  decide

end

theorem dedupFilename_cases (toLowercase : String → String) (name : String)
    (reserved avoid : List String) (allowOverwrite : Bool) (seen : Seen) :
    dedupFilename toLowercase name reserved avoid allowOverwrite seen = name ∨
      ∃ label, dedupFilename toLowercase name reserved avoid allowOverwrite seen =
        numberedName name label := by
  unfold dedupFilename
  dsimp only
  generalize (if allowOverwrite = true then seen.finalIsDir else seen.finalExists) = conflict
  split_ifs with hfree
  · exact Or.inl rfl
  · right
    cases hfind : ((range' 1 9999).map (fun i => numberedName name (toString i))).find? _ with
    | none => exact ⟨seen.uniq,rfl⟩
    | some newName =>
      obtain ⟨i,-,rfl⟩ := mem_map.mp (mem_of_find?_eq_some hfind)
      exact ⟨toString i,rfl⟩

/-- However the name is chosen, it is a nonempty stem with the extension. -/
theorem exists_uniqueName (toLowercase : String → String) (o : Outcomes) (allowOverwrite : Bool)
    {video : String} (hvideo : video ≠ "") :
    ∃ s ≠ [], (uniqueName o toLowercase allowOverwrite video).toList = s ++ '.' :: "mp4".toList := by
  have hdesired : (desiredName video).toList =
      (stemAndExtension video).1.toList ++ '.' :: "mp4".toList := by
    unfold desiredName
    rw [String.toList_append]
    rfl
  obtain h | ⟨label,h⟩ := dedupFilename_cases toLowercase (desiredName video) [] []
    allowOverwrite o.seen
  · exact ⟨_,stem_ne_nil hvideo,by rw [uniqueName, h, hdesired]⟩
  · refine ⟨(stemAndExtension video).1.toList ++ (" (".toList ++ (label.toList ++ [')'])),
      append_ne_nil_of_left_ne_nil (stem_ne_nil hvideo) _,?_⟩
    rw [uniqueName, h, numberedName,
      stemAndExtension_of_toList (stem_ne_nil hvideo) (by decide) (by decide) hdesired]
    simp

section
variable (v : Volume) (toLowercase : String → String) (o : Outcomes) (allowOverwrite : Bool)
  (name : String)

theorem video_ne : forceTsExtension name ≠ "" := by
  intro h
  have hthird := third_video name
  rw [h] at hthird
  cases hthird

theorem third_uniqueName :
    third (uniqueName o toLowercase allowOverwrite (forceTsExtension name)).toList = some 'm' := by
  obtain ⟨s,-,hs⟩ := exists_uniqueName toLowercase o allowOverwrite (video_ne name)
  rw [hs, third_append _ (by decide)]
  decide

theorem video_ne_target : entryOf v (forceTsExtension name) ≠
    entryOf v (uniqueName o toLowercase allowOverwrite (forceTsExtension name)) :=
  entryOf_ne v (third_video name) (third_uniqueName toLowercase o allowOverwrite name) (by decide)

theorem mp4Tmp_ne_target :
    entryOf v (mp4TmpName (uniqueName o toLowercase allowOverwrite (forceTsExtension name))) ≠
      entryOf v (uniqueName o toLowercase allowOverwrite (forceTsExtension name)) := by
  obtain ⟨s,hne,hs⟩ := exists_uniqueName toLowercase o allowOverwrite (video_ne name)
  intro h
  have hlength := congrArg List.length h
  rw [length_entryOf, length_entryOf, mp4TmpName, withExtension,
    stemAndExtension_of_toList hne (by decide) (by decide) hs, hs] at hlength
  simp at hlength

theorem video_ne_mp4Tmp (target : String) :
    entryOf v (forceTsExtension name) ≠ entryOf v (mp4TmpName target) :=
  entryOf_ne v (third_video name) (third_mp4TmpName target) (by decide)

theorem video_ne_audio :
    entryOf v (forceTsExtension name) ≠ entryOf v (audioName (forceTsExtension name)) :=
  entryOf_ne v (third_video name) (third_audioName _) (by decide)

theorem video_ne_audioTemp :
    entryOf v (forceTsExtension name) ≠ entryOf v (audioTempName (forceTsExtension name)) :=
  entryOf_ne v (third_video name) (third_audioTempName _) (by decide)

theorem video_ne_muxedTmp :
    entryOf v (forceTsExtension name) ≠ entryOf v (muxedTmpName (forceTsExtension name)) := by
  obtain ⟨c,hc,hdot⟩ := third_muxedTmpName (forceTsExtension name)
  exact entryOf_ne v (third_video name) hc hdot

end

/-! ## Other files -/

section
variable {File : Type} {d d' : Directory File} {k target : List Char} {content : Content}

/-- The files that the task did not write. -/
def others (d : Directory File) (k : List Char) : Option File :=
  match d k with
  | some (.other file) => some file
  | _ => none

def clear (names : List (List Char)) (f : List Char → Option File) (k : List Char) : Option File :=
  if k ∈ names then none else f k

theorem clear_nil (f : List Char → Option File) : clear [] f = f := by
  funext k
  exact if_neg not_mem_nil

theorem clear_append (names names' : List (List Char)) (f : List Char → Option File) :
    clear (names ++ names') f = clear names' (clear names f) := by
  funext k
  unfold clear
  by_cases h : k ∈ names <;> by_cases h' : k ∈ names' <;> simp [h, h']

theorem clear_congr {names names' : List (List Char)} (f : List Char → Option File)
    (h : ∀ k, k ∈ names ↔ k ∈ names') : clear names f = clear names' f := by
  funext k
  unfold clear
  rw [if_congr (h k) rfl rfl]

theorem clear_of_none {f : List Char → Option File} (hk : f k = none) : clear [k] f = f := by
  funext k'
  unfold clear
  split_ifs with h
  · rw [mem_singleton.mp h, hk]
  · rfl

theorem others_own (h : d k = some (.own content)) : others d k = none := by
  unfold others
  rw [h]

theorem clear_eq_none {names : List (List Char)} {f : List Char → Option File}
    (h : f k = none) : clear names f k = none := by
  unfold clear
  rw [h, ite_self]

theorem others_write : others (write d k content) = clear [k] (others d) := by
  funext k'
  unfold others clear write
  by_cases h : k' = k
  · rw [h, update_self, if_pos (mem_singleton.mpr rfl)]
  · rw [update_of_ne h, if_neg (mt mem_singleton.mp h)]

theorem others_update_none : others (Function.update d k none) = clear [k] (others d) := by
  funext k'
  unfold others clear
  by_cases h : k' = k
  · rw [h, update_self, if_pos (mem_singleton.mpr rfl)]
  · rw [update_of_ne h, if_neg (mt mem_singleton.mp h)]

theorem others_removeQuietly (fault : Option String) : others (removeQuietly fault d k) =
    clear (if fault = none then [k] else []) (others d) := by
  unfold removeQuietly
  split_ifs with h
  · exact others_update_none
  · exact (clear_nil _).symm

theorem others_removeQuietly_own (fault : Option String) (hk : others d k = none) :
    others (removeQuietly fault d k) = others d := by
  rw [others_removeQuietly]
  split_ifs
  · exact clear_of_none hk
  · exact clear_nil _

theorem rename_own (hk : d k = some (.own content)) :
    rename none d k target =
      .ok (Function.update (Function.update d k none) target (some (.own content))) := by
  unfold rename
  rw [hk]

theorem rename_fault {e : String} : rename (some e) d k target = .error e := rfl

theorem others_moved (hk : d k = some (.own content)) :
    others (Function.update (Function.update d k none) target (some (.own content))) =
      clear [target] (others d) := by
  have hremoved : others (update d k none) = others d := by
    rw [others_update_none, clear_of_none (others_own hk)]
  rw [← hremoved]
  exact others_write

theorem write_self : write d k content k = some (.own content) := update_self ..

theorem write_of_ne (h : k ≠ target) : write d target content k = d k := update_of_ne h ..

theorem removeQuietly_of_ne (fault : Option String) (h : k ≠ target) :
    removeQuietly fault d target k = d k := by
  unfold removeQuietly
  split_ifs
  · exact update_of_ne h ..
  · rfl

end

/-! ## The second track -/

section
variable (v : Volume) (o : Outcomes) (video : String)

/-- The second track is complete on disk. -/
def audioReady : Bool :=
  decide (o.fault .createAudioTemp = none) && o.audioTrack.isOk &&
    decide (o.fault .renameAudio = none)

def audioBytes : ℤ :=
  match o.audioTrack with
  | .ok bytes => bytes
  | .error _ => 0

def audioCancelled : Bool :=
  decide (o.fault .createAudioTemp = none) &&
    match o.audioTrack with
    | .error .cancelled => true
    | _ => false

def audioNames : List (List Char) :=
  (if o.fault .removeAudio = none then [entryOf v (audioName video)] else []) ++
    (if o.fault .removeAudioTemp = none then [entryOf v (audioTempName video)] else []) ++
    (if o.fault .createAudioTemp = none then [entryOf v (audioTempName video)] else []) ++
    (if audioReady o then [entryOf v (audioName video)] else [])

/-- How fetching the second track ends. -/
def AudioEnd : Except DownloadError ℤ → Prop
  | .ok bytes => audioReady o = true ∧ audioCancelled o = false ∧ bytes = audioBytes o
  | .error e => audioReady o = false ∧ (e = .cancelled ↔ audioCancelled o = true)

variable {File : Type} (d : Directory File)

def clearedAudio : Directory File :=
  removeQuietly (o.fault .removeAudioTemp)
    (removeQuietly (o.fault .removeAudio) d (entryOf v (audioName video)))
    (entryOf v (audioTempName video))

theorem others_clearedAudio : others (clearedAudio v o video d) =
    clear ((if o.fault .removeAudio = none then [entryOf v (audioName video)] else []) ++
      (if o.fault .removeAudioTemp = none then [entryOf v (audioTempName video)] else []))
      (others d) := by
  unfold clearedAudio
  rw [others_removeQuietly, others_removeQuietly, clear_append]

theorem clearedAudio_of_ne {k : List Char} (haudio : k ≠ entryOf v (audioName video))
    (htemp : k ≠ entryOf v (audioTempName video)) : clearedAudio v o video d k = d k := by
  unfold clearedAudio
  rw [removeQuietly_of_ne _ htemp, removeQuietly_of_ne _ haudio]

/-- How fetching the second track ends, whom it takes away and what stays. -/
theorem downloadAudioTrack_spec :
    AudioEnd o (downloadAudioTrack v o video d).1 ∧
      others (downloadAudioTrack v o video d).2 = clear (audioNames v o video) (others d) ∧
      ∀ k ≠ entryOf v (audioName video), k ≠ entryOf v (audioTempName video) →
        (downloadAudioTrack v o video d).2 k = d k := by
  have hcleared := others_clearedAudio v o video d
  have hstays : ∀ k, k ≠ entryOf v (audioName video) → k ≠ entryOf v (audioTempName video) →
      clearedAudio v o video d k = d k :=
    fun k haudio htemp => clearedAudio_of_ne v o video d haudio htemp
  unfold clearedAudio at hcleared hstays
  unfold downloadAudioTrack audioNames audioReady
  dsimp only
  generalize removeQuietly (o.fault .removeAudioTemp) _ _ = cleared at hcleared hstays ⊢
  cases hcreate : o.fault .createAudioTemp with
  | some e =>
    refine ⟨?_,?_,hstays⟩
    · simp [AudioEnd, audioReady, audioCancelled, hcreate]
    · simpa [hcreate] using hcleared
  | none =>
    have hwritten : ∀ content, others (write cleared (entryOf v (audioTempName video)) content) =
        clear [entryOf v (audioTempName video)] (others cleared) := fun _ => others_write
    have hkept : ∀ content k, k ≠ entryOf v (audioName video) →
        k ≠ entryOf v (audioTempName video) →
        write cleared (entryOf v (audioTempName video)) content k = d k := by
      intro content k haudio htemp
      rw [write_of_ne htemp, hstays k haudio htemp]
    cases htrack : o.audioTrack with
    | error e =>
      refine ⟨?_,?_,hkept _⟩
      · cases e <;> simp [AudioEnd, audioReady, audioCancelled, hcreate, htrack, Except.isOk,
          Except.toBool]
      · dsimp only
        rw [hwritten, hcleared, ← clear_append]
        simp [Except.isOk, Except.toBool]
    | ok bytes =>
      cases hrename : o.fault .renameAudio with
      | some e =>
        refine ⟨?_,?_,hkept _⟩
        · simp [AudioEnd, audioReady, audioCancelled, hcreate, htrack, hrename, rename_fault]
        · rw [rename_fault]
          dsimp only
          rw [hwritten, hcleared, ← clear_append]
          simp
      | none =>
        dsimp only
        rw [rename_own write_self]
        refine ⟨?_,?_,?_⟩
        · simp [AudioEnd, audioReady, audioCancelled, audioBytes, hcreate, htrack, hrename,
            Except.isOk, Except.toBool]
        · dsimp only
          rw [others_moved write_self, hwritten, hcleared, ← clear_append, ← clear_append]
          simp [Except.isOk, Except.toBool]
        · intro k haudio htemp
          dsimp only
          rw [update_of_ne haudio, update_of_ne htemp, hkept _ k haudio htemp]

end

def isProduct : Content → Bool
  | .video => true
  | .muxed => true
  | .remuxed => true
  | _ => false

/-- The complete product has this name. -/
def HasProduct {File : Type} (v : Volume) (name : String) (d : Directory File) : Prop :=
  ∃ content, isProduct content = true ∧ d (entryOf v name) = some (.own content)

theorem HasProduct.others {File : Type} {v : Volume} {name : String} {d : Directory File}
    (h : HasProduct v name d) : others d (entryOf v name) = none := by
  obtain ⟨content,-,hentry⟩ := h
  exact others_own hentry

theorem HasProduct.congr {File : Type} {v : Volume} {name : String} {d d' : Directory File}
    (h : HasProduct v name d) (heq : d' (entryOf v name) = d (entryOf v name)) :
    HasProduct v name d' := by
  obtain ⟨content,hcontent,hentry⟩ := h
  exact ⟨content,hcontent,heq.trans hentry⟩

section
variable (v : Volume) (o : Outcomes) (video : String) (expected : ℕ)

def muxSucceeds : Bool :=
  remuxSpaceOk o.muxSpace expected && decide (o.ffmpeg = .succeeded) &&
    decide (o.fault .renameMuxed = none)

def muxCancelled : Bool :=
  remuxSpaceOk o.muxSpace expected &&
    match o.ffmpeg with
    | .cancelled _ => true
    | _ => false

def openedNames (opened : Bool) : List (List Char) :=
  if opened then [entryOf v (muxedTmpName video)] else []

def muxNames : List (List Char) :=
  if remuxSpaceOk o.muxSpace expected = false then []
  else
    match o.ffmpeg with
    | .notRun opened _ => openedNames v video opened
    | .cancelled opened => openedNames v video opened ++
        if o.fault .removeMuxedTmp = none then [entryOf v (muxedTmpName video)] else []
    | .failed opened _ _ => openedNames v video opened ++
        if o.fault .removeMuxedTmp = none then [entryOf v (muxedTmpName video)] else []
    | .succeeded => [entryOf v (muxedTmpName video)]

def MuxEnd : Except DownloadError Unit → Prop
  | .ok _ => muxSucceeds o expected = true ∧ muxCancelled o expected = false
  | .error e => muxSucceeds o expected = false ∧ (e = .cancelled ↔ muxCancelled o expected = true)

variable {File : Type} {d : Directory File}

theorem others_openMuxedTmp (opened : Bool) :
    others (openMuxedTmp opened d (entryOf v (muxedTmpName video))) =
      clear (openedNames v video opened) (others d) := by
  unfold openMuxedTmp openedNames
  split_ifs
  · exact others_write
  · exact (clear_nil _).symm

theorem openMuxedTmp_of_ne (opened : Bool) {k muxedTmp : List Char} (h : k ≠ muxedTmp) :
    openMuxedTmp opened d muxedTmp k = d k := by
  unfold openMuxedTmp
  split_ifs
  · exact write_of_ne h
  · rfl

/-- How muxing ends and whom it takes away. The product stays in its place. -/
theorem muxAudioVideo_spec (hvideo : HasProduct v video d)
    (hne : entryOf v video ≠ entryOf v (muxedTmpName video)) :
    MuxEnd o expected (muxAudioVideo v o video expected d).1 ∧
      others (muxAudioVideo v o video expected d).2 =
        clear (muxNames v o video expected) (others d) ∧
      HasProduct v video (muxAudioVideo v o video expected d).2 := by
  have hother := hvideo.others
  unfold muxAudioVideo muxNames
  dsimp only
  cases hspace : remuxSpaceOk o.muxSpace expected with
  | false => exact ⟨by simp [MuxEnd, muxSucceeds, muxCancelled, hspace],(clear_nil _).symm,hvideo⟩
  | true =>
    rw [if_neg Bool.true_eq_false_eq_False, if_neg Bool.true_eq_false_eq_False]
    cases hffmpeg : o.ffmpeg with
    | notRun opened e =>
      refine ⟨?_,others_openMuxedTmp v video opened,?_⟩
      · simp [MuxEnd, muxSucceeds, muxCancelled, hspace, hffmpeg]
      · exact hvideo.congr (openMuxedTmp_of_ne opened hne)
    | cancelled opened | failed opened status stderr =>
      refine ⟨?_,?_,?_⟩
      · simp [MuxEnd, muxSucceeds, muxCancelled, hspace, hffmpeg]
      · dsimp only
        rw [others_removeQuietly, others_openMuxedTmp, ← clear_append]
      · refine hvideo.congr ?_
        dsimp only
        rw [removeQuietly_of_ne _ hne, openMuxedTmp_of_ne opened hne]
    | succeeded =>
      dsimp only
      cases hrename : o.fault .renameMuxed with
      | some e =>
        rw [rename_fault]
        refine ⟨?_,?_,?_⟩
        · simp [MuxEnd, muxSucceeds, muxCancelled, hspace, hffmpeg, hrename]
        · dsimp only
          rw [others_removeQuietly_own _ (others_own write_self), others_write]
        · refine hvideo.congr ?_
          dsimp only
          rw [removeQuietly_of_ne _ hne, write_of_ne hne]
      | none =>
        rw [rename_own write_self]
        refine ⟨?_,?_,?_⟩
        · simp [MuxEnd, muxSucceeds, muxCancelled, hspace, hffmpeg, hrename]
        · dsimp only
          rw [others_moved write_self, others_write, clear_of_none (clear_eq_none hother)]
        · exact ⟨.muxed,rfl,update_self ..⟩

end

section
variable (v : Volume) (o : Outcomes) (p : Params) (video : String)

def expectedOf : ℕ := expectedBytes (p.downloadedBytes + audioBytes o)

def muxedToMp4 : Bool := p.audioUrl.isSome && audioReady o && muxSucceeds o (expectedOf o p)

def stopped : Bool :=
  p.audioUrl.isSome && (audioCancelled o || audioReady o && muxCancelled o (expectedOf o p))

def fetchedBytes : ℤ :=
  if p.audioUrl.isSome && audioReady o then p.downloadedBytes + audioBytes o
  else p.downloadedBytes

def secondTrackNames : List (List Char) :=
  if p.audioUrl.isSome then
    audioNames v o video ++ if audioReady o then muxNames v o video (expectedOf o p) else []
  else []

def AddEnd : Except DownloadError (Bool × ℤ) → Prop
  | .ok (muxed, bytes) =>
    stopped o p = false ∧ muxed = muxedToMp4 o p ∧ bytes = fetchedBytes o p
  | .error _ => stopped o p = true

variable {File : Type} {d : Directory File}

theorem others_audio (hready : audioReady o = true) (f : List Char → Option File) :
    clear (audioNames v o video) f (entryOf v (audioName video)) = none := by
  unfold clear audioNames
  rw [hready]
  exact if_pos (mem_append_right _ (mem_singleton.mpr rfl))

theorem addAudio_spec (hvideo : HasProduct v video d)
    (haudio : entryOf v video ≠ entryOf v (audioName video))
    (htemp : entryOf v video ≠ entryOf v (audioTempName video))
    (hmuxed : entryOf v video ≠ entryOf v (muxedTmpName video)) :
    AddEnd o p (addAudio v o p video d).1 ∧
      others (addAudio v o p video d).2 = clear (secondTrackNames v o p video) (others d) ∧
      HasProduct v video (addAudio v o p video d).2 := by
  unfold addAudio secondTrackNames
  cases hurl : p.audioUrl with
  | none =>
    refine ⟨?_,(clear_nil _).symm,hvideo⟩
    simp [AddEnd, stopped, muxedToMp4, fetchedBytes, hurl]
  | some url =>
    obtain ⟨hend,hothers,hstays⟩ := downloadAudioTrack_spec v o video d
    have hkept := hvideo.congr (hstays _ haudio htemp)
    rw [isSome_some, if_pos rfl]
    dsimp only
    generalize hrun : downloadAudioTrack v o video d = run at hend hothers hkept
    obtain ⟨result,fetched⟩ := run
    cases result with
    | error e =>
      obtain ⟨hready,hcancelled⟩ := hend
      rw [hready, if_neg Bool.false_ne_true, append_nil]
      cases e with
      | cancelled =>
        refine ⟨?_,hothers,hkept⟩
        simp [AddEnd, stopped, hurl, hcancelled.mp rfl]
      | request | io | versionChanged | other =>
        refine ⟨?_,hothers,hkept⟩
        simp only [reduceCtorEq, false_iff, Bool.not_eq_true] at hcancelled
        simp [AddEnd, stopped, muxedToMp4, fetchedBytes, hurl, hready, hcancelled]
    | ok bytes =>
      obtain ⟨hready,hcancelled,rfl⟩ := hend
      obtain ⟨hmux,hmuxOthers,hproduct⟩ :=
        muxAudioVideo_spec v o video (expectedOf o p) hkept hmuxed
      rw [hothers, ← clear_append] at hmuxOthers
      rw [hready, if_pos rfl]
      dsimp only
      change MuxEnd o (expectedOf o p) (muxAudioVideo v o video (expectedBytes
        (p.downloadedBytes + audioBytes o)) fetched).1 at hmux
      unfold expectedOf at hmux hmuxOthers hproduct ⊢
      generalize muxAudioVideo v o video (expectedBytes (p.downloadedBytes + audioBytes o)) fetched =
        run at hmux hmuxOthers hproduct
      obtain ⟨result,last⟩ := run
      cases result with
      | error e =>
        obtain ⟨hfails,hstop⟩ := hmux
        cases e with
        | cancelled =>
          refine ⟨?_,hmuxOthers,hproduct⟩
          simp [AddEnd, stopped, expectedOf, hurl, hready, hstop.mp rfl]
        | request | io | versionChanged | other =>
          refine ⟨?_,hmuxOthers,hproduct⟩
          simp only [reduceCtorEq, false_iff, Bool.not_eq_true] at hstop
          simp [AddEnd, stopped, muxedToMp4, fetchedBytes, expectedOf, hurl, hready, hcancelled,
            hfails, hstop]
      | ok _ =>
        obtain ⟨hworks,hgoes⟩ := hmux
        refine ⟨?_,?_,?_⟩
        · simp [AddEnd, stopped, muxedToMp4, fetchedBytes, expectedOf, hurl, hready, hcancelled,
            hworks, hgoes]
        · have hown : others last (entryOf v (audioName video)) = none := by
            rw [hmuxOthers, clear_append]
            exact clear_eq_none (others_audio v o video hready _)
          exact (others_removeQuietly_own _ hown).trans hmuxOthers
        · exact hproduct.congr (removeQuietly_of_ne _ haudio)

end

/-! ## The new name -/

section
variable (v : Volume) (o : Outcomes) (toLowercase : String → String) (allowOverwrite : Bool)
  (name : String) {File : Type} {d : Directory File}

theorem hasExtension_video : hasExtension (forceTsExtension name) "mp4" = false := by
  have hsplit : ∃ s, (forceTsExtension name).toList = s ++ '.' :: "ts".toList := by
    unfold forceTsExtension replaceExtension
    cases splitLastDot name.toList with
    | none => exact ⟨name.toList,by simp⟩
    | some pair => exact ⟨pair.1,by simp⟩
  obtain ⟨s,hs⟩ := hsplit
  by_cases hne : s = []
  · subst hne
    have hvideo : forceTsExtension name = ".ts" :=
      String.toList_inj.mp hs
    rw [hvideo]
    decide
  · unfold hasExtension
    rw [stemAndExtension_of_toList hne (by decide) (by decide) hs, map_some]
    decide

theorem target_ne_video :
    uniqueName o toLowercase allowOverwrite (forceTsExtension name) ≠ forceTsExtension name := by
  intro h
  have hthird := third_uniqueName toLowercase o allowOverwrite name
  rw [h, third_video] at hthird
  cases hthird

/-- The video goes to the new name and leaves the old one. -/
theorem finalizeMp4Path_moved (hrename : o.fault .renameMp4 = none)
    (hvideo : HasProduct v (forceTsExtension name) d) :
    ∃ d', finalizeMp4Path v o toLowercase allowOverwrite (forceTsExtension name) d =
        (some (uniqueName o toLowercase allowOverwrite (forceTsExtension name)), d') ∧
      HasProduct v (uniqueName o toLowercase allowOverwrite (forceTsExtension name)) d' ∧
      d' (entryOf v (forceTsExtension name)) = none ∧
      others d' = clear
        [entryOf v (uniqueName o toLowercase allowOverwrite (forceTsExtension name))]
        (others d) := by
  obtain ⟨content,hcontent,hentry⟩ := hvideo
  have hne := video_ne_target v toLowercase o allowOverwrite name
  unfold finalizeMp4Path
  dsimp only
  rw [hasExtension_video, if_neg Bool.false_ne_true,
    if_neg (target_ne_video o toLowercase allowOverwrite name), hrename, rename_own hentry]
  refine ⟨_,rfl,⟨content,hcontent,update_self ..⟩,?_,others_moved hentry⟩
  rw [update_of_ne hne, update_self]

theorem finalizeMp4Path_kept {e : String} (hrename : o.fault .renameMp4 = some e) :
    finalizeMp4Path v o toLowercase allowOverwrite (forceTsExtension name) d = (none, d) := by
  unfold finalizeMp4Path
  dsimp only
  rw [hasExtension_video, if_neg Bool.false_ne_true,
    if_neg (target_ne_video o toLowercase allowOverwrite name), hrename, rename_fault]

end

/-! ## The remux -/

section
variable (v : Volume) (o : Outcomes) (allowOverwrite : Bool) (video target : String) {File : Type}
  {d : Directory File}

theorem claimMp4_of_ne {k : List Char} (h : k ≠ entryOf v target) :
    (claimMp4 v o allowOverwrite target d).2 k = d k := by
  unfold claimMp4
  dsimp only
  split_ifs
  · rfl
  · exact write_of_ne h
  · exact write_of_ne h
  · exact update_of_ne h ..
  · rfl

theorem others_claimMp4 (hkeep : allowOverwrite = false) :
    others (claimMp4 v o allowOverwrite target d).2 = others d := by
  unfold claimMp4
  dsimp only
  split_ifs with hfault hfree hover
  · rfl
  · have hnone : others d (entryOf v target) = none := by
      unfold others
      rw [hfree]
    rw [others_write, clear_of_none hnone]
  · exact absurd hover.1 (by rw [hkeep]; decide)
  · exact absurd hover.1 (by rw [hkeep]; decide)
  · rfl

theorem claimMp4_claimed (h : (claimMp4 v o allowOverwrite target d).1 = true) :
    (claimMp4 v o allowOverwrite target d).2 (entryOf v target) = some (.own .unfinished) := by
  unfold claimMp4 at h ⊢
  dsimp only at h ⊢
  split_ifs at h ⊢
  · exact write_self
  · exact write_self

/-- The remux got as far as to its temporary file. -/
def tmpWritten : Bool :=
  decide (o.fault .readTs = none) && decide (o.fault .convert = none) &&
    decide (o.fault .createMp4Tmp = none)

def tmpNames : List (List Char) :=
  if tmpWritten o then [entryOf v (mp4TmpName target)] else []

/-- What the remux leaves, whether it succeeds or not. -/
structure Remuxed (d : Directory File) (r : Bool × Directory File) : Prop where
  old : HasProduct v video r.2
  new : r.1 = true → HasProduct v target r.2
  written : r.1 = true → tmpWritten o = true
  others : allowOverwrite = false → others r.2 = clear (tmpNames v o target) (others d)

theorem convertFile_spec (hvideo : HasProduct v video d)
    (htarget : entryOf v video ≠ entryOf v target)
    (htmp : entryOf v video ≠ entryOf v (mp4TmpName target))
    (hne : entryOf v (mp4TmpName target) ≠ entryOf v target) :
    Remuxed v o allowOverwrite video target d (convertFile v o allowOverwrite video target d) := by
  have hentry : d (entryOf v video) ≠ none := by
    obtain ⟨content,-,h⟩ := hvideo
    rw [h]
    exact some_ne_none _
  have hwritten : ∀ content, HasProduct v video (write d (entryOf v (mp4TmpName target)) content) :=
    fun _ => hvideo.congr (write_of_ne htmp)
  unfold convertFile
  dsimp only
  split_ifs with hread hcreate hwrite
  · have htmps : tmpWritten o = false := by
      unfold tmpWritten
      obtain h | h | h := hread
      · rw [decide_eq_false h, Bool.false_and, Bool.false_and]
      · rw [decide_eq_false h, Bool.and_false, Bool.false_and]
      · exact absurd h hentry
    refine ⟨hvideo,Bool.noConfusion,Bool.noConfusion,fun _ => ?_⟩
    rw [tmpNames, htmps, if_neg Bool.false_ne_true, clear_nil]
  · have htmps : tmpWritten o = false := by
      rw [tmpWritten, decide_eq_false hcreate, Bool.and_false]
    refine ⟨hvideo,Bool.noConfusion,Bool.noConfusion,fun _ => ?_⟩
    rw [tmpNames, htmps, if_neg Bool.false_ne_true, clear_nil]
  all_goals
    have htmps : tmpWritten o = true := by
      simp only [not_or, not_not] at hread hcreate
      simp [tmpWritten, hread, hcreate]
    have hnames : tmpNames v o target = [entryOf v (mp4TmpName target)] := by
      rw [tmpNames, htmps, if_pos rfl]
  · exact ⟨hwritten _,Bool.noConfusion,Bool.noConfusion,fun _ => by rw [hnames, others_write]⟩
  · have hclaimed := claimMp4_claimed v o allowOverwrite target
      (d := write d (entryOf v (mp4TmpName target)) .remuxed)
    have hstays : ∀ k ≠ entryOf v target, _ := fun k h => claimMp4_of_ne v o allowOverwrite target
      (d := write d (entryOf v (mp4TmpName target)) .remuxed) (k := k) h
    have hothers := others_claimMp4 v o allowOverwrite target
      (d := write d (entryOf v (mp4TmpName target)) .remuxed)
    generalize claimMp4 v o allowOverwrite target (write d (entryOf v (mp4TmpName target)) .remuxed) =
      run at hclaimed hstays hothers
    obtain ⟨claimed,d'⟩ := run
    have hkept : HasProduct v video d' := (hwritten .remuxed).congr (hstays _ htarget)
    have htmpEntry : d' (entryOf v (mp4TmpName target)) = some (.own .remuxed) :=
      (hstays _ hne).trans write_self
    cases claimed with
    | false =>
      refine ⟨hkept.congr (removeQuietly_of_ne _ htmp),Bool.noConfusion,Bool.noConfusion,
        fun hkeep => ?_⟩
      dsimp only
      rw [others_removeQuietly_own _ (others_own htmpEntry), hothers hkeep, others_write, hnames]
    | true =>
      dsimp only
      have hmp4 : others d' (entryOf v target) = none := others_own (hclaimed rfl)
      cases hrename : o.fault .renameMp4Tmp with
      | some e =>
        rw [rename_fault]
        refine ⟨hkept.congr ?_,Bool.noConfusion,Bool.noConfusion,fun hkeep => ?_⟩
        · dsimp only
          rw [removeQuietly_of_ne _ htmp, removeQuietly_of_ne _ htarget]
        · dsimp only
          have hremoved := others_removeQuietly_own (o.fault .removeClaim) hmp4
          have htmpOwn : others (removeQuietly (o.fault .removeClaim) d' (entryOf v target))
              (entryOf v (mp4TmpName target)) = none := by
            rw [hremoved]
            exact others_own htmpEntry
          rw [others_removeQuietly_own _ htmpOwn, hremoved, hothers hkeep, others_write, hnames]
      | none =>
        rw [rename_own htmpEntry]
        refine ⟨hkept.congr ?_,fun _ => ⟨.remuxed,rfl,update_self ..⟩,fun _ => htmps,
          fun hkeep => ?_⟩
        · dsimp only
          rw [update_of_ne htarget, update_of_ne htmp]
        · dsimp only
          rw [others_moved htmpEntry, clear_of_none hmp4, hothers hkeep, others_write, hnames]

end

section
variable (v : Volume) (o : Outcomes) (toLowercase : String → String) (allowOverwrite : Bool)
  (name : String) {File : Type} {d : Directory File}

def triedNames (target : String) : List (List Char) :=
  tmpNames v o target ++
    if o.fault .removeMp4Tmp = none then [entryOf v (mp4TmpName target)] else []

def remuxNames (video target : String) : List (List Char) :=
  if hasExtension video "ts" = false then []
  else
    match o.tsLength with
    | none => []
    | some fileLen =>
      if maxRemuxBytes < fileLen ∨ remuxSpaceOk o.remuxSpace fileLen = false then []
      else triedNames v o target

structure RemuxEnd (video target : String) (d : Directory File)
    (r : Option String × Directory File) : Prop where
  old : HasProduct v video r.2
  new : ∀ mp4, r.1 = some mp4 → mp4 = target ∧ HasProduct v target r.2
  others : allowOverwrite = false → others r.2 = clear (remuxNames v o video target) (others d)

theorem clear_triedNames {target : String} (h : tmpWritten o = true)
    (f : List Char → Option File) :
    clear (triedNames v o target) f = clear (tmpNames v o target) f := by
  refine clear_congr f fun k => ?_
  unfold triedNames tmpNames
  rw [h, if_pos rfl]
  split_ifs <;> simp

theorem remuxTsToMp4_spec (hvideo : HasProduct v (forceTsExtension name) d) :
    RemuxEnd v o allowOverwrite (forceTsExtension name)
      (uniqueName o toLowercase allowOverwrite (forceTsExtension name)) d
      (remuxTsToMp4 v o toLowercase allowOverwrite (forceTsExtension name) d) := by
  have hspec := convertFile_spec v o allowOverwrite _
    (uniqueName o toLowercase allowOverwrite (forceTsExtension name)) hvideo
    (video_ne_target v toLowercase o allowOverwrite name) (video_ne_mp4Tmp v name _)
    (mp4Tmp_ne_target v toLowercase o allowOverwrite name)
  have htmp := video_ne_mp4Tmp v name
    (uniqueName o toLowercase allowOverwrite (forceTsExtension name))
  unfold remuxTsToMp4
  dsimp only
  generalize forceTsExtension name = video at *
  generalize uniqueName o toLowercase allowOverwrite video = target at *
  have hnothing : remuxNames v o video target = [] →
      RemuxEnd v o allowOverwrite video target d (none, d) := by
    intro hnames
    refine ⟨hvideo,(fun _ h => nomatch h),fun _ => ?_⟩
    rw [hnames, clear_nil]
  unfold remuxNames at hnothing
  split_ifs at hnothing ⊢ with hts
  · exact hnothing rfl
  · cases hlength : o.tsLength with
    | none =>
      rw [hlength] at hnothing
      exact hnothing rfl
    | some fileLen =>
      rw [hlength] at hnothing
      dsimp only at hnothing ⊢
      split_ifs at hnothing ⊢ with hskip
      · exact hnothing rfl
      · have hnames : remuxNames v o video target = triedNames v o target := by
          rw [remuxNames, if_neg hts, hlength]
          exact if_neg hskip
        generalize convertFile v o allowOverwrite video target d = run at hspec
        obtain ⟨converted,d'⟩ := run
        obtain ⟨hold,hnew,hwritten,hothers⟩ := hspec
        cases converted with
        | true =>
          refine ⟨hold,?_,fun hkeep => ?_⟩
          · rintro mp4 h
            exact ⟨(some.inj h).symm,hnew rfl⟩
          · rw [hnames, clear_triedNames v o (hwritten rfl)]
            exact hothers hkeep
        | false =>
          refine ⟨hold.congr (removeQuietly_of_ne _ htmp),(fun _ h => nomatch h),fun hkeep => ?_⟩
          dsimp only
          rw [others_removeQuietly, hothers hkeep, ← clear_append, hnames, triedNames]

end

end RinaDown.HlsSteps
