import RinaDown.TaskRename

/-!
# Whether renaming a task is atomic

The four files of a task have four names, and no file comes back to a name that it left. So a
rename succeeds with all files under the new name, or fails with nothing changed, exactly where no
rename goes to a name that another file has and none that has happened is left behind by an error.
-/

namespace RinaDown.RenameAtomicity

open FileNames (tempExt stemAndExtension splitLastDot)
open RenameSequences TaskRename List
open SanitizedNames (Platform isSeparator splitLastDot_eq_some)
open Strings (trim)

/-! ## Dots -/

def dots (path : RelPath) : ℕ := (path.map (List.count '.')).sum

variable {v : Volume} {path path' : RelPath} {name name' : String}

theorem count_fold (v : Volume) (s : List Char) :
    (s.map v.fold).count (v.fold '.') = s.count '.' := by
  induction s with
  | nil => rfl
  | cons c s ih =>
    rw [map_cons, count_cons, count_cons, ih]
    by_cases hc : c = '.'
    · rw [hc]
      simp
    · have hfold : v.fold c ≠ v.fold '.' := fun h => hc (v.fold_dot c h)
      simp [hc, hfold]

/-- A path keeps its dots on every volume. -/
theorem dots_eq_of_key (h : v.key path = v.key path') : dots path = dots path' := by
  have hdots : ∀ p, ((v.key p).map (count (v.fold '.'))).sum = dots p := by
    intro p
    unfold Volume.key dots
    rw [map_map]
    refine congrArg List.sum (map_congr_left fun s _ => ?_)
    exact count_fold v s
  rw [← hdots, ← hdots, h]

theorem dots_append : dots (path ++ path') = dots path + dots path' := by
  unfold dots
  rw [map_append, sum_append]

theorem dots_singleton (s : List Char) : dots [s] = s.count '.' := by
  simp [dots]

theorem count_stem (file : List Char) : file.count '.' ≤ (fileStem file).count '.' + 1 := by
  unfold fileStem stemAndExtension
  split_ifs with hparent
  · rw [String.toList_ofList]
    exact Nat.le_succ _
  · rw [String.toList_ofList]
    cases hsplit : splitLastDot file with
    | none =>
      rw [String.toList_ofList]
      exact Nat.le_succ _
    | some pair =>
      obtain ⟨front,ext⟩ := pair
      cases front with
      | nil =>
        dsimp only
        rw [String.toList_ofList]
        exact Nat.le_succ _
      | cons c front =>
        obtain ⟨heq,hext⟩ := splitLastDot_eq_some hsplit
        dsimp only
        rw [String.toList_ofList, heq, count_append, count_cons_self,
          count_eq_zero_of_not_mem hext]

theorem dots_buildAudioPath (path : RelPath) : dots path + 1 ≤ dots (buildAudioPath path) := by
  have htwo : (".audio.m4a".toList).count '.' = 2 := by decide
  unfold buildAudioPath
  rw [dots_append, dots_singleton, count_append, htwo]
  rcases eq_nil_or_concat' path with rfl | ⟨parent,last,rfl⟩
  · exact Nat.le_add_left _ _
  · have hstem := count_stem last
    rw [dropLast_concat, getLast?_concat, dots_append, dots_singleton]
    dsimp only [Option.map_some, Option.getD_some]
    omega

theorem dots_appendToLast (hne : path ≠ []) :
    dots (appendToLast path tempExt.toList) = dots path + 1 := by
  have hone : (tempExt.toList).count '.' = 1 := by decide
  obtain ⟨parent,last,rfl⟩ := (eq_nil_or_concat' path).resolve_left hne
  unfold appendToLast
  rw [dropLast_concat, getLastD_concat, dots_append, dots_append, dots_singleton,
    dots_singleton, count_append, hone]
  rfl

/-! ## The temporary name -/

theorem splitOnP_append {p : Char → Bool} (s : List Char) {t : List Char}
    (h : ∀ c ∈ t, p c = false) :
    ∃ parent last, s.splitOnP p = parent ++ [last] ∧
      (s ++ t).splitOnP p = parent ++ [last ++ t] := by
  induction s with
  | nil =>
    refine ⟨[],[],rfl,?_⟩
    exact splitOnP_eq_singleton h
  | cons c s ih =>
    obtain ⟨parent,last,hs,hst⟩ := ih
    by_cases hc : p c = true
    · refine ⟨[] :: parent,last,?_,?_⟩
      · rw [splitOnP_cons_eq_if_modifyHead, if_pos hc, hs, cons_append]
      · rw [cons_append, splitOnP_cons_eq_if_modifyHead, if_pos hc, hst, cons_append]
    · rw [splitOnP_cons_eq_if_modifyHead, if_neg hc, hs, cons_append,
        splitOnP_cons_eq_if_modifyHead, if_neg hc, hst]
      cases parent with
      | nil => exact ⟨[],c :: last,rfl,rfl⟩
      | cons head parent => exact ⟨(c :: head) :: parent,last,rfl,rfl⟩

theorem tempExt_no_separator (platform : Platform) :
    ∀ c ∈ tempExt.toList, isSeparator platform c = false := by
  have hall : tempExt.toList.all (fun c => !isSeparator platform c) = true := by
    cases platform <;> decide
  intro c hc
  simpa using all_eq_true.mp hall c hc

/-- The temporary name has the last part, which may be one that is skipped, before its end. -/
theorem exists_parts (platform : Platform) (name : List Char) :
    ∃ parent last, parts platform (name ++ tempExt.toList) = parent ++ [last ++ tempExt.toList] ∧
      parts platform name = parent ++ [last].filter fun part => part ≠ [] ∧ part ≠ ['.'] := by
  obtain ⟨front,last,hname,htemp⟩ := splitOnP_append name (tempExt_no_separator platform)
  refine ⟨front.filter fun part => part ≠ [] ∧ part ≠ ['.'],last,?_,?_⟩
  · have hkept : last ++ tempExt.toList ≠ [] ∧ last ++ tempExt.toList ≠ ['.'] := by
      have hlength : tempExt.toList.length = 13 := by decide
      constructor
      · intro h
        have hl := congrArg List.length h
        rw [length_append, hlength, length_nil] at hl
        omega
      · intro h
        have hl := congrArg List.length h
        rw [length_append, hlength, length_singleton] at hl
        omega
    unfold parts
    rw [htemp, filter_append, filter_singleton, decide_eq_true hkept]
    rfl
  · unfold parts
    rw [hname, filter_append]

theorem dots_temp (platform : Platform) (name : List Char) :
    dots (parts platform name) + 1 ≤ dots (parts platform (name ++ tempExt.toList)) := by
  have hone : (tempExt.toList).count '.' = 1 := by decide
  obtain ⟨parent,last,htemp,hname⟩ := exists_parts platform name
  have hlast : dots ([last].filter fun part => part ≠ [] ∧ part ≠ ['.']) ≤ last.count '.' := by
    rw [filter_singleton]
    cases decide (last ≠ [] ∧ last ≠ ['.']) with
    | false => exact Nat.zero_le _
    | true => exact Nat.le_of_eq (dots_singleton last)
  rw [htemp, hname, dots_append, dots_append, dots_singleton, count_append, hone]
  omega

/-! ## The four names -/

theorem key_concat_inj {last last' : List Char}
    (h : v.key (path ++ [last]) = v.key (path' ++ [last'])) :
    v.key path = v.key path' ∧ last.map v.fold = last'.map v.fold := by
  unfold Volume.key at h
  rw [map_append, map_append] at h
  obtain ⟨hparent,hlast⟩ := append_inj' h rfl
  exact ⟨hparent,singleton_inj.mp hlast⟩

/-- Nothing ends as a temporary file and as a second track. -/
theorem tempExt_ne_audio (v : Volume) (s s' : List Char) :
    (s ++ tempExt.toList).map v.fold ≠ (s' ++ ".audio.m4a".toList).map v.fold := by
  have htemp : tempExt.toList = ".fd".toList ++ 'o' :: "wnloading".toList := by decide
  have haudio : ".audio.m4a".toList = '.' :: "audio.m4a".toList := by decide
  have hlength : "wnloading".toList.length = "audio.m4a".toList.length := by decide
  generalize "wnloading".toList = tail at htemp hlength
  generalize "audio.m4a".toList = tail' at haudio hlength
  intro h
  rw [htemp, haudio, ← append_assoc] at h
  simp only [map_append, map_cons] at h
  obtain ⟨-,htail⟩ := append_inj' h (by
    rw [length_cons, length_cons, length_map, length_map, hlength])
  exact absurd (v.fold_dot 'o' (cons.inj htail).1) (by decide)

theorem exists_audio (path : RelPath) :
    ∃ stem, buildAudioPath path = path.dropLast ++ [stem ++ ".audio.m4a".toList] :=
  ⟨_,rfl⟩

theorem temp_ne_audio (v : Volume) (name name' : String) :
    v.file name .temp ≠ v.file name' .audio := by
  obtain ⟨parent,last,htemp,-⟩ := exists_parts v.platform name.toList
  obtain ⟨stem,haudio⟩ := exists_audio (parts v.platform name'.toList)
  unfold Volume.file Volume.path
  dsimp only
  rw [htemp, haudio]
  exact fun h => tempExt_ne_audio v _ _ (key_concat_inj h).2

theorem audioTemp_ne_audio (v : Volume) (name name' : String) :
    v.file name .audioTemp ≠ v.file name' .audio := by
  obtain ⟨stem',haudio'⟩ := exists_audio (parts v.platform name'.toList)
  unfold Volume.file Volume.path
  dsimp only
  rw [haudio']
  exact fun h => tempExt_ne_audio v _ _ (key_concat_inj h).2

/-- What has a temporary file for its second track has the second track itself. -/
theorem final_eq_audio_of_temp (h : v.file name .temp = v.file name' .audioTemp) :
    v.file name .final = v.file name' .audio := by
  obtain ⟨parent,last,htemp,hname⟩ := exists_parts v.platform name.toList
  obtain ⟨stem,haudio⟩ := exists_audio (parts v.platform name'.toList)
  unfold Volume.file Volume.path at h ⊢
  dsimp only at h ⊢
  unfold appendToLast at h
  rw [htemp, haudio, dropLast_concat, getLastD_concat] at h
  obtain ⟨hparent,hlast⟩ := key_concat_inj h
  rw [map_append, map_append, append_left_inj] at hlast
  have hlength := congrArg List.length hlast
  have hten : (".audio.m4a".toList).length = 10 := by decide
  rw [length_map, length_map, length_append, hten] at hlength
  have hkept : last ≠ [] ∧ last ≠ ['.'] := by
    constructor
    · rintro rfl
      rw [length_nil] at hlength
      omega
    · rintro rfl
      rw [length_singleton] at hlength
      omega
  rw [hname, haudio, filter_singleton, decide_eq_true hkept]
  unfold Volume.key at hparent ⊢
  rw [cond_true, map_append, map_append, hparent, map_singleton, map_singleton,
    hlast]

/-- All other files of a name have more dots than the name. -/
theorem dots_lt (v : Volume) (name : String) {a : Artifact} (ha : a ≠ .final) :
    dots (v.path name .final) < dots (v.path name a) := by
  cases a with
  | final => exact absurd rfl ha
  | temp => exact dots_temp v.platform name.toList
  | audio => exact dots_buildAudioPath _
  | audioTemp =>
    obtain ⟨stem,haudio⟩ := exists_audio (parts v.platform name.toList)
    have hne : buildAudioPath (parts v.platform name.toList) ≠ [] := by
      rw [haudio]
      exact concat_ne_nil _ _
    have haudioDots := dots_buildAudioPath (parts v.platform name.toList)
    unfold Volume.path
    dsimp only
    rw [dots_appendToLast hne]
    omega

theorem dots_eq {a a' : Artifact} (h : v.file name a = v.file name' a') :
    dots (v.path name a) = dots (v.path name' a') := dots_eq_of_key h

/-- No name is made from another and the other from it. -/
theorem not_both_ways {a a' : Artifact} (ha : a ≠ .final) (ha' : a' ≠ .final)
    (h : v.file name .final = v.file name' a) : v.file name' .final ≠ v.file name a' := by
  intro h'
  have h₁ := dots_eq h
  have h₂ := dots_eq h'
  have h₃ := dots_lt v name' ha
  have h₄ := dots_lt v name ha'
  omega

theorem final_ne {a : Artifact} (ha : a ≠ .final) : v.file name .final ≠ v.file name a := by
  intro h
  have hdots := dots_eq h
  have hlt := dots_lt v name ha
  omega

def allArtifacts : List Artifact := [.final, .temp, .audio, .audioTemp]

theorem nodup_files (v : Volume) (name : String) : (allArtifacts.map (v.file name)).Nodup := by
  have htemp : v.file name .temp ≠ v.file name .audioTemp := fun h =>
    final_ne (by decide) (final_eq_audio_of_temp h)
  have haudio := temp_ne_audio v name name
  have haudioTemp := (audioTemp_ne_audio v name name).symm
  have hfinal : ∀ a, a ≠ .final → v.file name .final ≠ v.file name a := fun a ha => final_ne ha
  simp [allArtifacts, hfinal, htemp, haudio, haudioTemp]

/-- The renames of artifacts, in order. -/
def moves (v : Volume) (old new : String) (artifacts : List Artifact) : List (RelPath × RelPath) :=
  artifacts.map fun a => (v.file old a, v.file new a)

theorem mem_sources {old new : String} {artifacts : List Artifact} {k : RelPath} :
    k ∈ (moves v old new artifacts).map Prod.fst ↔ ∃ a ∈ artifacts, v.file old a = k := by
  rw [moves, map_map]
  exact mem_map

theorem mem_targets {old new : String} {artifacts : List Artifact} {k : RelPath} :
    k ∈ (moves v old new artifacts).map Prod.snd ↔ ∃ a ∈ artifacts, v.file new a = k := by
  rw [moves, map_map]
  exact mem_map

theorem noReturn_all (v : Volume) (old new : String) : NoReturn (moves v old new allArtifacts) := by
  refine ⟨?_,?_,?_,.inl not_mem_nil,trivial⟩
  · rw [← not_and_or]
    rintro ⟨hgone,hleft⟩
    obtain ⟨a,ha,heq⟩ := mem_targets.mp
      (show _ ∈ (moves v old new [.temp, .audio, .audioTemp]).map Prod.snd from hgone)
    obtain ⟨a',ha',heq'⟩ := mem_sources.mp
      (show _ ∈ (moves v old new [.temp, .audio, .audioTemp]).map Prod.fst from hleft)
    refine not_both_ways ?_ ?_ heq.symm heq'.symm
    · rintro rfl
      exact absurd ha (by decide)
    · rintro rfl
      exact absurd ha' (by decide)
  · rw [← not_and_or]
    rintro ⟨hgone,hleft⟩
    obtain ⟨a,ha,heq⟩ := mem_targets.mp
      (show _ ∈ (moves v old new [.audio, .audioTemp]).map Prod.snd from hgone)
    obtain ⟨a',ha',heq'⟩ := mem_sources.mp
      (show _ ∈ (moves v old new [.audio, .audioTemp]).map Prod.fst from hleft)
    have haudioTemp : ∀ b ∈ [Artifact.audio, Artifact.audioTemp], ∀ n n',
        v.file n .temp = v.file n' b → v.file n .final = v.file n' .audio := by
      intro b hb n n' h
      rcases mem_cons.mp hb with rfl | hb
      · exact absurd h (temp_ne_audio v n n')
      · cases mem_singleton.mp hb
        exact final_eq_audio_of_temp h
    exact not_both_ways (by decide) (by decide) (haudioTemp a ha _ _ heq.symm)
      (haudioTemp a' ha' _ _ heq'.symm)
  · refine .inl fun hgone => ?_
    obtain ⟨a,ha,heq⟩ := mem_targets.mp
      (show _ ∈ (moves v old new [.audioTemp]).map Prod.snd from hgone)
    cases mem_singleton.mp ha
    exact audioTemp_ne_audio v new old heq

/-! ## What the call does to the directory -/

variable {File : Type} {fails : Step → Option String} {t : Row} {newName : String}
  {d : Directory RelPath File}

def stepOf : Artifact → Step
  | .final => .final
  | .temp => .temp
  | .audio => .audio
  | .audioTemp => .audioTemp

/-- The second tracks that are moved. -/
def movedAudio (fails : Step → Option String) (t : Row) : List Artifact :=
  if hasAudioSidecar fails t then
    [.audio, .audioTemp].filter fun a => fails (stepOf a) = none
  else []

/-- The files that are moved if the first two are not refused. -/
def moved (fails : Step → Option String) (t : Row) : List Artifact :=
  .final :: .temp :: movedAudio fails t

/-- The final file is there and is not moved. -/
def FinalRefused (v : Volume) (fails : Step → Option String) (t : Row)
    (d : Directory RelPath File) : Prop :=
  d.entry (v.file t.fileName .final) ≠ none ∧ fails .final ≠ none

/-- A temporary file is there, if only because the final file has just taken its name,
and is not moved. -/
def TempRefused (v : Volume) (fails : Step → Option String) (t : Row) (newName : String)
    (d : Directory RelPath File) : Prop :=
  (d.entry (v.file t.fileName .temp) ≠ none ∨
    d.entry (v.file t.fileName .final) ≠ none ∧
      v.file newName .final = v.file t.fileName .temp) ∧ fails .temp ≠ none

/-- Taking the final file back leaves everything as it was. -/
def Restorable (v : Volume) (fails : Step → Option String) (t : Row) (newName : String)
    (d : Directory RelPath File) : Prop :=
  v.file t.fileName .final = v.file newName .final ∨
  d.entry (v.file newName .final) = none ∧
    (d.entry (v.file t.fileName .final) ≠ none → fails .rollback = none) ∨
  d.entry (v.file t.fileName .final) = none ∧ fails .rollback ≠ none

/-- The directory after the final file is taken back. -/
def rolledBack (v : Volume) (fails : Step → Option String) (t : Row) (newName : String)
    (d : Directory RelPath File) : Directory RelPath File :=
  match fails .rollback with
  | some _ => rename d (v.file t.fileName .final) (v.file newName .final)
  | none => rename (rename d (v.file t.fileName .final) (v.file newName .final))
      (v.file newName .final) (v.file t.fileName .final)

theorem rolledBack_eq_iff :
    rolledBack v fails t newName d = d ↔ Restorable v fails t newName d := by
  unfold rolledBack Restorable
  by_cases hsame : v.file t.fileName .final = v.file newName .final
  · refine iff_of_true ?_ (.inl hsame)
    rw [hsame, rename_self, rename_self]
    split <;> rfl
  · rw [or_iff_right hsame]
    have hsource : (rename d (v.file t.fileName .final) (v.file newName .final)).entry
        (v.file t.fileName .final) = none := renamed_source hsame
    cases hrollback : fails .rollback with
    | some e =>
      have hne : (some e : Option String) ≠ none := nofun
      simp only [hne, not_false_eq_true, and_true, ne_eq, imp_false, not_not]
      constructor
      · intro h
        rw [h] at hsource
        exact .inr hsource
      · rintro (⟨-,hnone⟩ | hnone)
        · exact rename_absent hnone
        · exact rename_absent hnone
    | none =>
      simp only [implies_true, and_true, ne_eq, not_true_eq_false, and_false, or_false]
      constructor
      · intro h
        by_contra hbusy
        obtain ⟨y,hy⟩ := Option.ne_none_iff_exists'.mp hbusy
        by_cases hold : d.entry (v.file t.fileName .final) = none
        · rw [rename_absent hold] at h
          have hleft : (rename d (v.file newName .final) (v.file t.fileName .final)).entry
              (v.file newName .final) = none := renamed_source (Ne.symm hsame)
          rw [h, hy] at hleft
          cases hleft
        · have hlost : (rename (rename d (v.file t.fileName .final) (v.file newName .final))
              (v.file newName .final) (v.file t.fileName .final)).entry (v.file newName .final) ≠
                some y := by
            intro hat
            rcases renamed_some hat with ⟨-,hy'⟩ | ⟨-,hy'⟩
            · exact rename_lost hold hsame hy hy'
            · exact rename_lost hold hsame hy hy'
          rw [h] at hlost
          exact hlost hy
      · intro h
        exact rename_rename h

theorem moveQuietly_eq (step : Step) (old new : RelPath) :
    moveQuietly fails step d old new = if fails step = none then rename d old new else d := by
  unfold moveQuietly
  by_cases h : d.entry old = none
  · rw [if_neg (not_not.mpr h), rename_absent h, ite_self]
  · rw [if_pos h]
    cases fails step <;> rfl

theorem moveAudio_eq : moveAudio v fails t newName d =
    renameAll d (moves v t.fileName newName (movedAudio fails t)) := by
  unfold moveAudio movedAudio
  by_cases hsidecar : hasAudioSidecar fails t = true
  · rw [if_pos hsidecar, if_pos hsidecar, moveQuietly_eq, moveQuietly_eq]
    by_cases haudio : fails .audio = none <;> by_cases htemp : fails .audioTemp = none <;>
      simp [haudio, htemp, stepOf, moves, renameAll]
  · rw [if_neg hsidecar, if_neg hsidecar]
    rfl

theorem moveFiles_eq (v : Volume) (fails : Step → Option String) (t : Row) (newName : String)
    (d : Directory RelPath File) :
    (FinalRefused v fails t d ∧ ∃ e, moveFiles v fails t newName d = (.error e, d)) ∨
    (¬ FinalRefused v fails t d ∧ TempRefused v fails t newName d ∧
      ∃ e, moveFiles v fails t newName d = (.error e, rolledBack v fails t newName d)) ∨
    (¬ FinalRefused v fails t d ∧ ¬ TempRefused v fails t newName d ∧
      moveFiles v fails t newName d =
        (.ok (), renameAll d (moves v t.fileName newName (moved fails t)))) := by
  by_cases hfinal : FinalRefused v fails t d
  · refine .inl ⟨hfinal,?_⟩
    obtain ⟨e,he⟩ := Option.ne_none_iff_exists'.mp hfinal.2
    unfold moveFiles
    rw [if_pos hfinal.1, he]
    exact ⟨_,rfl⟩
  · have hmove : moveFiles v fails t newName d = moveTemp v fails t newName
        (rename d (v.file t.fileName .final) (v.file newName .final)) := by
      unfold moveFiles
      by_cases hpresent : d.entry (v.file t.fileName .final) = none
      · rw [if_neg (not_not.mpr hpresent), rename_absent hpresent]
      · have hgo : fails .final = none := by
          by_contra hrefused
          exact hfinal ⟨hpresent,hrefused⟩
        rw [if_pos hpresent, hgo]
    have htemp : (rename d (v.file t.fileName .final) (v.file newName .final)).entry
        (v.file t.fileName .temp) ≠ none ↔ d.entry (v.file t.fileName .temp) ≠ none ∨
          d.entry (v.file t.fileName .final) ≠ none ∧
            v.file newName .final = v.file t.fileName .temp := by
      by_cases hpresent : d.entry (v.file t.fileName .final) = none
      · rw [rename_absent hpresent]
        simp [hpresent]
      · by_cases hchain : v.file newName .final = v.file t.fileName .temp
        · have hat : (rename d (v.file t.fileName .final) (v.file newName .final)).entry
              (v.file t.fileName .temp) = d.entry (v.file t.fileName .final) := by
            rw [hchain]
            exact renamed_target hpresent
          rw [hat]
          exact iff_of_true hpresent (.inr ⟨hpresent,hchain⟩)
        · have hat : (rename d (v.file t.fileName .final) (v.file newName .final)).entry
              (v.file t.fileName .temp) = d.entry (v.file t.fileName .temp) :=
            renamed_other (final_ne (by decide)).symm (Ne.symm hchain)
          rw [hat]
          simp [hchain]
    rw [hmove]
    by_cases hrefused : TempRefused v fails t newName d
    · refine .inr (.inl ⟨hfinal,hrefused,?_⟩)
      obtain ⟨e,he⟩ := Option.ne_none_iff_exists'.mp hrefused.2
      unfold moveTemp rolledBack
      rw [if_pos (htemp.mpr hrefused.1), he]
      exact ⟨_,rfl⟩
    · refine .inr (.inr ⟨hfinal,hrefused,?_⟩)
      unfold moveTemp
      rw [moveAudio_eq, moveAudio_eq]
      by_cases hpresent : (rename d (v.file t.fileName .final) (v.file newName .final)).entry
          (v.file t.fileName .temp) = none
      · have hall : renameAll d (moves v t.fileName newName (moved fails t)) =
            renameAll (rename (rename d (v.file t.fileName .final) (v.file newName .final))
              (v.file t.fileName .temp) (v.file newName .temp))
              (moves v t.fileName newName (movedAudio fails t)) := rfl
        rw [if_neg (not_not.mpr hpresent), hall, rename_absent hpresent]
      · have hgo : fails .temp = none := by
          by_contra hne
          exact hrefused ⟨htemp.mp hpresent,hne⟩
        rw [if_pos hpresent, hgo]
        rfl

/-! ## Atomicity -/

/-- The files of a task. Those of the second track are its own if it has one, and a name
that is not safe names no file of the directory. -/
def artifacts (v : Volume) (t : Row) : List Artifact :=
  if v.isSafe t.fileName then
    if isDashUrl t.url || t.loadAudioUrl.isSome then allArtifacts else [.final, .temp]
  else []

/-- A call that succeeds leaves all files and the row under the new name, one that fails
leaves all as it was, and no other file is replaced or lost. -/
structure Atomic (v : Volume) (taskId newName : String) (before : Manager File)
    (result : Except String Unit × Manager File) : Prop where
  renamed : result.1 = .ok () → ∃ t, before.rows taskId = some t ∧
    result.2.rows taskId = some { t with fileName := newName } ∧
    ∀ a ∈ artifacts v t, ∀ x, before.directory.entry (v.file t.fileName a) = some x →
      result.2.directory.entry (v.file newName a) = some x
  restored : ∀ e, result.1 = .error e →
    result.2.directory = before.directory ∧ result.2.rows = before.rows
  spared : ∀ t, before.rows taskId = some t →
    ∀ k, (∀ a ∈ artifacts v t, k ≠ v.file t.fileName a) →
      ∀ x, before.directory.entry k = some x → result.2.directory.entry k = some x

/-- A refused rename leaves nothing moved, a row that cannot be written finds nothing
moved, and otherwise every file goes to a free name and none is left behind. -/
def Spares (v : Volume) (fails : Step → Option String) (t : Row) (newName : String)
    (d : Directory RelPath File) : Prop :=
  FinalRefused v fails t d ∨
  ¬ FinalRefused v fails t d ∧ TempRefused v fails t newName d ∧ Restorable v fails t newName d ∨
  ¬ FinalRefused v fails t d ∧ ¬ TempRefused v fails t newName d ∧
    (fails .save ≠ none ∧
      (∀ m ∈ moves v t.fileName newName (moved fails t), d.entry m.1 = none ∨ m.1 = m.2) ∨
    fails .save = none ∧ Clear d [] (moves v t.fileName newName (moved fails t)) ∧
      ∀ a ∈ artifacts v t, a ∉ moved fails t →
        d.entry (v.file t.fileName a) = none ∨ v.file t.fileName a = v.file newName a)

theorem moved_sublist (fails : Step → Option String) (t : Row) :
    List.Sublist (moved fails t) allArtifacts := by
  refine List.Sublist.cons_cons _ (List.Sublist.cons_cons _ ?_)
  unfold movedAudio
  split_ifs
  · exact filter_sublist
  · exact nil_sublist _

theorem moved_subset (hsafe : v.isSafe t.fileName = true) :
    ∀ a ∈ moved fails t, a ∈ artifacts v t := by
  intro a ha
  unfold artifacts
  rw [if_pos hsafe]
  by_cases htracks : (isDashUrl t.url || t.loadAudioUrl.isSome) = true
  · rw [if_pos htracks]
    exact (moved_sublist fails t).subset ha
  · rw [if_neg htracks]
    have hnone : hasAudioSidecar fails t = false := by
      rw [Bool.or_eq_true, not_or, Bool.not_eq_true, Bool.not_eq_true] at htracks
      unfold hasAudioSidecar
      rw [htracks.1, htracks.2]
      cases fails .loadAudioUrl <;> rfl
    unfold moved movedAudio at ha
    rw [hnone] at ha
    exact ha

theorem nodup_sources (v : Volume) (old new : String) {l : List Artifact}
    (h : List.Sublist l allArtifacts) : ((moves v old new l).map Prod.fst).Nodup := by
  rw [moves, map_map]
  exact (nodup_files v old).sublist (h.map _)

theorem nodup_targets (v : Volume) (old new : String) {l : List Artifact}
    (h : List.Sublist l allArtifacts) : ((moves v old new l).map Prod.snd).Nodup := by
  rw [moves, map_map]
  exact (nodup_files v new).sublist (h.map _)

theorem noReturn_moved (v : Volume) (old new : String) (fails : Step → Option String) (t : Row) :
    NoReturn (moves v old new (moved fails t)) :=
  (noReturn_all v old new).sublist ((moved_sublist fails t).map _)

theorem file_injective {a a' : Artifact} (h : v.file name a = v.file name a') : a = a' := by
  have hall : ∀ a, a ∈ allArtifacts := by
    intro a
    cases a <;> decide
  exact inj_on_of_nodup_map (nodup_files v name) (hall a) (hall a') h

/-- The files arrive and the others are spared exactly if those that are moved are delivered
and no other one of the task is there. -/
theorem delivers_moved_iff (hsafe : v.isSafe t.fileName = true) :
    ((∀ a ∈ artifacts v t, ∀ x, d.entry (v.file t.fileName a) = some x →
      (renameAll d (moves v t.fileName newName (moved fails t))).entry (v.file newName a) =
        some x) ∧
    ∀ k, (∀ a ∈ artifacts v t, k ≠ v.file t.fileName a) → ∀ x, d.entry k = some x →
      (renameAll d (moves v t.fileName newName (moved fails t))).entry k = some x) ↔
    Delivers d (moves v t.fileName newName (moved fails t))
      (renameAll d (moves v t.fileName newName (moved fails t))) ∧
    ∀ a ∈ artifacts v t, a ∉ moved fails t →
      d.entry (v.file t.fileName a) = none ∨ v.file t.fileName a = v.file newName a := by
  have hleft : ∀ a, a ∉ moved fails t →
      v.file t.fileName a ∉ (moves v t.fileName newName (moved fails t)).map Prod.fst := by
    intro a ha hmem
    obtain ⟨b,hb,heq⟩ := mem_sources.mp hmem
    exact ha (file_injective heq ▸ hb)
  constructor
  · rintro ⟨harrive,hspare⟩
    have hbehind : ∀ a ∈ artifacts v t, a ∉ moved fails t →
        d.entry (v.file t.fileName a) = none ∨ v.file t.fileName a = v.file newName a := by
      intro a ha hout
      by_cases hnone : d.entry (v.file t.fileName a) = none
      · exact .inl hnone
      · obtain ⟨x,hx⟩ := Option.ne_none_iff_exists'.mp hnone
        exact .inr (renameAll_stays (hleft a hout) hx (harrive a ha x hx)).symm
    refine ⟨⟨?_,?_⟩,hbehind⟩
    · intro m hm x hx
      obtain ⟨a,ha,rfl⟩ := mem_map.mp hm
      exact harrive a (moved_subset hsafe a ha) x hx
    · intro k hk x hx
      by_cases hown : ∃ a ∈ artifacts v t, k = v.file t.fileName a
      · obtain ⟨a,ha,rfl⟩ := hown
        have hout : a ∉ moved fails t := fun hmem => hk (mem_sources.mpr ⟨a,hmem,rfl⟩)
        rcases hbehind a ha hout with hnone | hsame
        · rw [hnone] at hx
          cases hx
        · have hat := harrive a ha x hx
          rwa [← hsame] at hat
      · exact hspare k (fun a ha heq => hown ⟨a,ha,heq⟩) x hx
  · rintro ⟨⟨harrive,hstay⟩,hbehind⟩
    refine ⟨?_,?_⟩
    · intro a ha x hx
      by_cases hmem : a ∈ moved fails t
      · exact harrive _ (mem_map_of_mem hmem) x hx
      · rcases hbehind a ha hmem with hnone | hsame
        · rw [hnone] at hx
          cases hx
        · rw [← hsame]
          exact hstay _ (hleft a hmem) x hx
    · intro k hk x hx
      refine hstay k (fun hmem => ?_) x hx
      obtain ⟨a,ha,heq⟩ := mem_sources.mp hmem
      exact hk a (moved_subset hsafe a ha) heq.symm

variable {toLowercase : String → String} {m : Manager File} {taskId : String}

theorem admitRename_row {r : Option Row}
    (h : admitRename v fails newName toLowercase m taskId = .ok r) :
    ∃ t, m.rows taskId = some t ∧ (r = none → t.fileName = newName) ∧
      ∀ t', r = some t' → t' = t := by
  unfold admitRename at h
  split_ifs at h
  split at h
  · cases h
  · split at h
    · cases h
    · rename_i t hrow
      refine ⟨t,hrow,?_⟩
      split_ifs at h with h₁ h₂ h₃ h₄
      · cases h
        exact ⟨fun _ => h₃,nofun⟩
      · cases h
        exact ⟨nofun,fun t' ht => (Option.some.inj ht).symm⟩

theorem atomic_error_iff {e : String} {directory : Directory RelPath File} :
    Atomic v taskId newName m (.error e, { m with directory := directory }) ↔
      directory = m.directory := by
  constructor
  · intro h
    exact (h.restored e rfl).1
  · rintro rfl
    exact ⟨nofun,fun _ _ => ⟨rfl,rfl⟩,fun _ _ _ _ _ hx => hx⟩

theorem atomic_ok_iff {directory : Directory RelPath File} (hrow : m.rows taskId = some t) :
    Atomic v taskId newName m (.ok (), { m with
      directory := directory
      rows := Function.update m.rows taskId (some { t with fileName := newName }) }) ↔
    (∀ a ∈ artifacts v t, ∀ x, m.directory.entry (v.file t.fileName a) = some x →
      directory.entry (v.file newName a) = some x) ∧
    ∀ k, (∀ a ∈ artifacts v t, k ≠ v.file t.fileName a) → ∀ x, m.directory.entry k = some x →
      directory.entry k = some x := by
  constructor
  · intro h
    obtain ⟨t',hrow',-,harrive⟩ := h.renamed rfl
    cases hrow.symm.trans hrow'
    exact ⟨harrive,h.spared t hrow⟩
  · rintro ⟨harrive,hspare⟩
    refine ⟨fun _ => ⟨t,hrow,Function.update_self _ _ _,harrive⟩,nofun,?_⟩
    intro t' hrow'
    cases hrow.symm.trans hrow'
    exact hspare

theorem atomic_carryOut_iff (hrow : m.rows taskId = some t) (hsafe : v.isSafe t.fileName = true) :
    Atomic v taskId newName m (carryOut v fails t newName m taskId) ↔
      Spares v fails t newName m.directory := by
  unfold carryOut Spares
  rw [if_pos hsafe]
  rcases moveFiles_eq v fails t newName m.directory with
    ⟨hfinal,e,hmove⟩ | ⟨hfinal,htemp,e,hmove⟩ | ⟨hfinal,htemp,hmove⟩
  · rw [hmove]
    exact iff_of_true (atomic_error_iff.mpr rfl) (.inl hfinal)
  · rw [hmove]
    dsimp only
    rw [atomic_error_iff, rolledBack_eq_iff]
    simp only [hfinal, htemp, not_true_eq_false, false_or, not_false_eq_true, true_and, false_and,
      or_false]
  · rw [hmove]
    simp only [hfinal, htemp, not_false_eq_true, true_and, false_or, false_and]
    unfold saveName
    cases hsave : fails .save with
    | some e =>
      dsimp only
      rw [atomic_error_iff, renameAll_eq_iff (noReturn_moved v t.fileName newName fails t)]
      simp
    | none =>
      dsimp only
      rw [atomic_ok_iff hrow, delivers_moved_iff hsafe, delivers_iff
        (nodup_sources v _ _ (moved_sublist fails t)) (nodup_targets v _ _ (moved_sublist fails t))]
      simp

/-- Renaming a task is atomic exactly where the renames that it comes to spare the files. -/
theorem atomic_iff (v : Volume) (toLowercase : String → String) (fails : Step → Option String)
    (m : Manager File) (taskId newName : String) :
    Atomic v taskId (trim newName) m (renameTask v toLowercase fails m taskId newName) ↔
      ∀ t, admitRename v fails (trim newName) toLowercase m taskId = .ok (some t) →
        v.isSafe t.fileName = true → Spares v fails t (trim newName) m.directory := by
  unfold renameTask
  generalize trim newName = newName
  cases hadmit : admitRename v fails newName toLowercase m taskId with
  | error e => exact iff_of_true (atomic_error_iff.mpr rfl) nofun
  | ok r =>
    obtain ⟨t,hrow,hsame,hrow'⟩ := admitRename_row hadmit
    cases r with
    | none =>
      refine iff_of_true ⟨fun _ => ⟨t,hrow,?_,?_⟩,nofun,fun _ _ _ _ _ hx => hx⟩ nofun
      · rw [← hsame rfl]
        exact hrow
      · rw [hsame rfl]
        exact fun _ _ _ hx => hx
    | some t' =>
      obtain rfl : t' = t := hrow' t' rfl
      by_cases hsafe : v.isSafe t'.fileName = true
      · dsimp only
        rw [atomic_carryOut_iff hrow hsafe]
        constructor
        · intro h t ht _
          cases ht
          exact h
        · intro h
          exact h t' rfl hsafe
      · refine iff_of_true ?_ (fun t ht hold => ?_)
        · have hnone : artifacts v t' = [] := if_neg hsafe
          dsimp only
          unfold carryOut saveName
          rw [if_neg hsafe]
          cases fails .save with
          | some e => exact atomic_error_iff.mpr rfl
          | none =>
            refine (atomic_ok_iff hrow).mpr ⟨?_,fun _ _ _ hx => hx⟩
            rw [hnone]
            exact nofun
        · cases ht
          exact absurd hold hsafe

/-! ## A rename that is not atomic -/

def caseSensitive : Volume := ⟨.unix,id,fun _ h => h⟩

def otherTrack : RelPath := ["b.audio.m4a".toList]

/-- A second track of the task and one of another program. -/
def twoTracks : Directory RelPath ℕ where
  entry k := if k = ["a.audio.m4a".toList] then some 1 else if k = otherTrack then some 2 else none
  single h h' := by
    split_ifs at h h' <;> cases h <;> cases h' <;> simp only [*]

def pairedTask : Row := ⟨"a.mp4","https://host/a.mp4",3,some "https://host/a.m4a"⟩

def pairedManager : Manager ℕ where
  activeTasks := []
  rows := fun id => if id = "t" then some pairedTask else none
  directory := twoTracks

/-- The second track replaces a file that has its new name. -/
theorem rename_replaces_track :
    ¬ Atomic caseSensitive "t" "b.mp4" pairedManager
      (renameTask caseSensitive id (fun _ => none) pairedManager "t" "b.mp4") := by
  intro h
  have hkept := h.spared pairedTask rfl otherTrack (by decide +kernel) 2 (by decide +kernel)
  have hreplaced : (renameTask caseSensitive id (fun _ => none) pairedManager "t"
      "b.mp4").2.directory.entry otherTrack = some 1 := by decide +kernel
  rw [hreplaced] at hkept
  cases hkept

end RinaDown.RenameAtomicity
