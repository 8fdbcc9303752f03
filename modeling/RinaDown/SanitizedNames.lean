import RinaDown.FileNames
import RinaDown.TrimmedLists

/-!
# What the sanitizer returns

A cleaned name has no illegal character, no edge and no reserved stem. When it is
too long it is cut, and the cut is only trimmed: it can leave a reserved device
name, and an extension that fills the budget is not cut at all. The names for
which neither happens are sound.
-/

namespace RinaDown.SanitizedNames
open FileNames TrimmedLists List

/-! ## Paths -/

inductive Platform where
  | unix
  | windows
  deriving DecidableEq, Repr

def isSeparator : Platform → Char → Bool
  | .unix, c => c = '/'
  | .windows, c => c = '/' || c = '\\'

inductive Component where
  | drive
  | rootDir
  | curDir
  | parentDir
  | normal (name : List Char)
  deriving DecidableEq, Repr

/-- A drive letter, for Windows. -/
def hasDrive : Platform → List Char → Bool
  | .windows, d :: ':' :: _ => d.isAlpha
  | _, _ => false

/-- Empty components and current directories are skipped. -/
def bodyComponents (platform : Platform) (path : List Char) : List Component :=
  ((path.splitOnP (isSeparator platform)).filter (fun name => name ≠ [] ∧ name ≠ ['.'])).map
    (fun name => if name = ['.', '.'] then .parentDir else .normal name)

/-- A current directory counts at the start of a path that is not rooted. -/
def startComponents (platform : Platform) (path : List Char) : List Component :=
  if path.head?.any (isSeparator platform) then [.rootDir]
  else if (path.splitOnP (isSeparator platform)).head? = some ['.'] then [.curDir]
  else []

/-- `Path::components`. What begins with two separators may have a prefix on Windows; it counts
as rooted here. -/
def components (platform : Platform) (path : List Char) : List Component :=
  if hasDrive platform path then
    .drive :: (startComponents platform (path.drop 2) ++ bodyComponents platform (path.drop 2))
  else startComponents platform path ++ bodyComponents platform path

/-- On Windows a root alone is not enough. -/
def isAbsolute : Platform → List Char → Bool
  | .unix, path => path.head?.any (isSeparator .unix)
  | .windows, path =>
    (hasDrive .windows path && (path.drop 2).head?.any (isSeparator .windows)) ||
      path.head?.any (isSeparator .windows) && (path.drop 1).head?.any (isSeparator .windows)

def isSafeFileName (platform : Platform) (name : String) : Bool :=
  name.toList ≠ [] && !isAbsolute platform name.toList &&
    !(components platform name.toList).any (fun c =>
      c = .parentDir || c = .rootDir || c = .curDir || c = .drive)

/-! ## Sound names -/

def Legal (s : List Char) : Prop := ∀ c ∈ s, c ∉ illegalChars ∧ isControl c = false

instance : DecidablePred Legal := fun s =>
  List.decidableBAll (fun c => c ∉ illegalChars ∧ isControl c = false) s

/-- A device name, in any case. -/
def isReserved (s : List Char) : Bool :=
  windowsReservedNames.any (fun r => r.toList.map Char.toLower = s.map Char.toLower)

def stem (s : List Char) : List Char := s.takeWhile (· ≠ '.')

/-- What the sanitizer promises of a name. -/
structure Sound (name : String) : Prop where
  nonempty : name ≠ ""
  length : byteLength name.toList ≤ maxFilenameBytes
  legal : Legal name.toList
  bare : Bare isEdge name.toList
  unreserved : isReserved (stem name.toList) = false
  safe : ∀ platform, isSafeFileName platform name = true
  stable : sanitizeFilename name = name

def preparedName (name : String) : List Char :=
  avoidReservedName (trimMatches (name.toList.map replaceIllegal))

/-- A device name and blanks fill the budget up to the next character. -/
def LeavesDevice (s : List Char) : Prop :=
  ∃ r blanks c t, s = r ++ blanks ++ c :: t ∧ isReserved r = true ∧
    (∀ b ∈ blanks, b = ' ') ∧ byteLength (r ++ blanks) ≤ maxFilenameBytes ∧
    maxFilenameBytes < byteLength (r ++ blanks) + c.utf8Size

/-- Beside the extension there is room for a device name, and not for the next character. -/
def LeavesDeviceBefore (front ext : List Char) : Prop :=
  ∃ r c t, front = r ++ c :: t ∧ isReserved r = true ∧
    byteLength r + byteLength ('.' :: ext) ≤ maxFilenameBytes ∧
    maxFilenameBytes < byteLength r + c.utf8Size + byteLength ('.' :: ext)

/-- Beside the extension there is no room for the first character, and the extension alone is too
long or a device name. -/
def LeavesExtension (front ext : List Char) : Prop :=
  (∃ c ∈ front.head?, maxFilenameBytes < c.utf8Size + byteLength ('.' :: ext)) ∧
    (maxFilenameBytes < byteLength (ext.dropWhile isEdge) ∨
      isReserved (ext.dropWhile isEdge) = true)

/-- A long name that the cut spoils. -/
def Spoiled (s : List Char) : Prop :=
  maxFilenameBytes < byteLength s ∧
    match splitLastDot s with
    | none => LeavesDevice s
    | some (front, ext) => LeavesDeviceBefore front ext ∨ LeavesExtension front ext

variable {s r front ext : List Char}

/-! ## Safety -/

theorem not_isSeparator {c : Char} (platform : Platform) (h : c ∉ illegalChars) :
    isSeparator platform c = false := by
  have hslash : c ≠ '/' := by
    rintro rfl
    exact h (by decide)
  have hback : c ≠ '\\' := by
    rintro rfl
    exact h (by decide)
  cases platform with
  | unix => simpa [isSeparator] using hslash
  | windows => simpa [isSeparator] using ⟨hslash,hback⟩

theorem not_hasDrive (platform : Platform) (h : Legal s) : hasDrive platform s = false := by
  cases platform with
  | unix => rfl
  | windows =>
    unfold hasDrive
    split
    · exact absurd (by decide) (h ':' (by simp)).1
    · rfl

theorem isSafeFileName_of_legal (platform : Platform) {name : String} (hne : name.toList ≠ [])
    (hlegal : Legal name.toList) (hhead : ∀ c ∈ name.toList.head?, isEdge c = false) :
    isSafeFileName platform name = true := by
  generalize hs : name.toList = s at hne hlegal hhead
  have hsep : ∀ c ∈ s, isSeparator platform c = false :=
    fun c hc => not_isSeparator platform (hlegal c hc).1
  have hfirst : s.head?.any (isSeparator platform) = false := by
    cases s with
    | nil => rfl
    | cons c t => exact hsep c mem_cons_self
  have hdrive : hasDrive platform s = false := not_hasDrive platform hlegal
  have hsplit : s.splitOnP (isSeparator platform) = [s] :=
    splitOnP_eq_singleton hsep
  have hdot : ∀ t, s ≠ '.' :: t := by
    rintro t rfl
    exact absurd (hhead '.' rfl) (by decide)
  have habsolute : isAbsolute platform s = false := by
    cases platform with
    | unix => exact hfirst
    | windows => simp [isAbsolute, hdrive, hfirst]
  simp [isSafeFileName, hs, hne, habsolute, components, hdrive, startComponents, hfirst, hsplit,
    bodyComponents, hdot]

/-! ## Prepared names -/

theorem replaceIllegal_of_legal (h : Legal s) : s.map replaceIllegal = s := by
  conv_rhs => rw [← map_id s]
  refine map_congr_left ?_
  intro c hc
  simp [replaceIllegal, h c hc]

theorem legal_map_replaceIllegal (s : List Char) : Legal (s.map replaceIllegal) := by
  intro c hc
  obtain ⟨d,-,rfl⟩ := mem_map.mp hc
  rw [replaceIllegal]
  split_ifs with hd
  · decide
  · simpa using hd

theorem Legal.subset (h : Legal s) (hr : r ⊆ s) : Legal r := fun c hc => h c (hr hc)

theorem isReserved_chars (h : isReserved r = true) {c : Char} (hc : c ∈ r) :
    isEdge c = false ∧ c ≠ '_' := by
  have hchars : windowsReservedNames.all (fun n =>
      (n.toList.map Char.toLower).all fun d => d ≠ '.' ∧ d ≠ ' ' ∧ d ≠ '_') = true := by decide
  obtain ⟨n,hn,heq⟩ := any_eq_true.mp h
  have hlower : c.toLower ∈ n.toList.map Char.toLower := by
    rw [of_decide_eq_true heq]
    exact mem_map_of_mem hc
  have hname := all_eq_true.mp (all_eq_true.mp hchars n hn) _ hlower
  obtain ⟨hdot,hblank,hline⟩ := of_decide_eq_true hname
  refine ⟨?_,?_⟩
  · have hdot' : c ≠ '.' := by
      rintro rfl
      exact hdot (by decide)
    have hblank' : c ≠ ' ' := by
      rintro rfl
      exact hblank (by decide)
    simp [isEdge, hdot', hblank']
  · rintro rfl
    exact hline (by decide)

theorem isReserved_nil : isReserved [] = false := by decide

theorem avoidReservedName_eq (s : List Char) :
    avoidReservedName s = if isReserved (stem s) = true then '_' :: s else s := rfl

structure Prepared (s : List Char) : Prop where
  nonempty : s ≠ []
  legal : Legal s
  bare : Bare isEdge s
  unreserved : isReserved (stem s) = false

theorem unreserved_underscore (s : List Char) : isReserved (stem ('_' :: s)) = false := by
  refine Bool.eq_false_iff.mpr ?_
  intro h
  exact (isReserved_chars h (c := '_') (by simp [stem])).2 rfl

theorem prepared_avoidReservedName (hne : s ≠ []) (hlegal : Legal s) (hbare : Bare isEdge s) :
    Prepared (avoidReservedName s) := by
  rw [avoidReservedName_eq]
  split_ifs with hreserved
  · refine ⟨by simp,?_,⟨?_,?_⟩,unreserved_underscore s⟩
    · intro c hc
      rcases mem_cons.mp hc with rfl | hc
      · decide
      · exact hlegal c hc
    · rintro c ⟨⟩
      decide
    · intro c hc
      rw [getLast?_cons_of_ne_nil hne] at hc
      exact hbare.last c hc
  · exact ⟨hne,hlegal,hbare,Bool.eq_false_iff.mpr hreserved⟩

theorem Prepared.avoidReservedName_eq (h : Prepared s) : avoidReservedName s = s := by
  rw [SanitizedNames.avoidReservedName_eq, if_neg (by simp [h.unreserved])]

theorem Prepared.clean_eq (h : Prepared s) :
    trimMatches ((String.ofList s).toList.map replaceIllegal) = s := by
  rw [String.toList_ofList, replaceIllegal_of_legal h.legal]
  exact h.bare.trim_eq

theorem sanitizeFilename_of_prepared (h : Prepared s) (hfits : byteLength s ≤ maxFilenameBytes) :
    sanitizeFilename (String.ofList s) = String.ofList s := by
  simp only [sanitizeFilename, h.clean_eq, h.avoidReservedName_eq, if_neg h.nonempty, if_pos hfits]

theorem Prepared.sound (h : Prepared s) (hfits : byteLength s ≤ maxFilenameBytes) :
    Sound (String.ofList s) where
  nonempty := by
    intro hempty
    exact h.nonempty (by simpa using congrArg String.toList hempty)
  length := by simpa using hfits
  legal := by simpa using h.legal
  bare := by simpa using h.bare
  unreserved := by simpa using h.unreserved
  safe platform := isSafeFileName_of_legal platform (by simpa using h.nonempty)
    (by simpa using h.legal) (by simpa using h.bare.head)
  stable := sanitizeFilename_of_prepared h hfits

/-! ## Cutting -/

theorem byteLength_eq (s : List Char) : byteLength s = weight Char.utf8Size s := rfl

theorem cutBytes_eq (budget : ℕ) (s : List Char) :
    cutBytes budget s = cut Char.utf8Size budget s := by
  induction s generalizing budget with
  | nil => rfl
  | cons c s ih => simp only [cutBytes, cut, ih]

theorem splitLastDot_eq_none (h : splitLastDot s = none) : '.' ∉ s := by
  unfold splitLastDot at h
  split at h
  · next hdrop =>
    intro hdot
    rw [rdropWhile_eq_nil_iff] at hdrop
    simpa using hdrop '.' hdot
  · cases h

theorem splitLastDot_eq_some (h : splitLastDot s = some (front, ext)) :
    s = front ++ '.' :: ext ∧ '.' ∉ ext := by
  unfold splitLastDot at h
  split at h
  · cases h
  · next hdrop =>
    cases h
    refine ⟨?_,?_⟩
    · have hlast := rdropWhile_last_not (fun c => decide (c ≠ '.')) s hdrop
      have hdot : (s.rdropWhile fun c => decide (c ≠ '.')).getLast hdrop = '.' := by
        simpa using hlast
      calc s = s.rdropWhile (fun c => decide (c ≠ '.')) ++
            s.rtakeWhile (fun c => decide (c ≠ '.')) := rdropWhile_append_rtakeWhile.symm
        _ = _ := by
            rw [← dropLast_append_getLast hdrop, hdot]
            simp
    · intro hmem
      simpa using mem_rtakeWhile_imp hmem

theorem stem_of_no_dot (h : '.' ∉ s) : stem s = s := by
  rw [stem, takeWhile_eq_self_iff]
  intro c hc
  simpa using fun heq : c = '.' => h (heq ▸ hc)

theorem stem_append_of_dot (h : '.' ∈ r) (t : List Char) : stem (r ++ t) = stem r := by
  obtain ⟨a,b,rfl⟩ := append_of_mem h
  simp [stem, takeWhile_append]

theorem stem_append_dot (h : '.' ∉ r) (t : List Char) : stem (r ++ '.' :: t) = r := by
  have hall : r.takeWhile (fun c => decide (c ≠ '.')) = r := stem_of_no_dot h
  rw [stem, takeWhile_append, if_pos (by rw [hall])]
  simp

/-- The parts of a prepared name with a dot. -/
structure Parts (s front ext : List Char) : Prop where
  split : splitLastDot s = some (front, ext)
  eq : s = front ++ '.' :: ext
  no_dot : '.' ∉ ext
  last : ∀ c ∈ ext.getLast?, isEdge c = false
  ext_ne : ext ≠ []
  front_ne : front ≠ []

theorem Prepared.parts (h : Prepared s) (hsplit : splitLastDot s = some (front, ext)) :
    Parts s front ext := by
  obtain ⟨rfl,hdot⟩ := splitLastDot_eq_some hsplit
  have hlast : ∀ c ∈ ('.' :: ext).getLast?, isEdge c = false := by
    intro c hc
    refine h.bare.last c ?_
    rw [getLast?_append, Option.mem_def.mp hc]
    rfl
  have hext : ext ≠ [] := by
    rintro rfl
    exact absurd (hlast '.' rfl) (by decide)
  refine ⟨hsplit,rfl,hdot,?_,hext,?_⟩
  · intro c hc
    exact hlast c (by rwa [getLast?_cons_of_ne_nil hext])
  · rintro rfl
    exact absurd (h.bare.head '.' rfl) (by decide)

theorem truncateBytes_of_none (h : splitLastDot s = none) :
    truncateBytes s = cut Char.utf8Size maxFilenameBytes s := by
  simp only [truncateBytes, h, cutBytes_eq]

theorem Parts.truncateBytes_eq (h : Parts s front ext) :
    truncateBytes s =
      cut Char.utf8Size (maxFilenameBytes - byteLength ('.' :: ext)) front ++ '.' :: ext := by
  simp only [truncateBytes, h.split, cutBytes_eq]

theorem cut_prefix (budget : ℕ) (s : List Char) :
    ∃ t, s = cut Char.utf8Size budget s ++ t ∧
      byteLength (cut Char.utf8Size budget s) ≤ budget ∧
      ∀ c ∈ t.head?, budget < byteLength (cut Char.utf8Size budget s) + c.utf8Size :=
  cut_eq_iff.mp rfl

/-- The cut keeps the first character unless it does not fit. -/
theorem cut_eq_nil_iff {budget : ℕ} {c : Char} {t : List Char} :
    cut Char.utf8Size budget (c :: t) = [] ↔ budget < c.utf8Size := by
  rw [cut]
  split_ifs with hfits <;> simp <;> omega

theorem Prepared.trim_cut (h : Prepared s) :
    trimMatches (cut Char.utf8Size maxFilenameBytes s) =
      (cut Char.utf8Size maxFilenameBytes s).rdropWhile isEdge := by
  obtain ⟨t,ht,-,-⟩ := cut_prefix maxFilenameBytes s
  refine trim_of_head ?_
  intro c hc
  refine h.bare.head c ?_
  rw [ht, head?_append, Option.mem_def.mp hc]
  rfl

/-- With a dot nothing is trimmed as long as something before it is kept. -/
theorem Parts.trim_kept (h : Parts s front ext) (hbare : Bare isEdge s) {budget : ℕ}
    (hkept : cut Char.utf8Size budget front ≠ []) :
    trimMatches (cut Char.utf8Size budget front ++ '.' :: ext) =
      cut Char.utf8Size budget front ++ '.' :: ext := by
  obtain ⟨t,ht,-,-⟩ := cut_prefix budget front
  refine Bare.trim_eq ⟨?_,?_⟩
  · intro c hc
    refine hbare.head c ?_
    rw [head?_append_of_ne_nil _ hkept] at hc
    rw [h.eq, ht, append_assoc, head?_append_of_ne_nil _ hkept]
    exact hc
  · intro c hc
    rw [getLast?_append_of_ne_nil _ (by simp), getLast?_cons_of_ne_nil h.ext_ne] at hc
    exact h.last c hc

theorem Parts.trim_dropped (h : Parts s front ext) :
    trimMatches ('.' :: ext) = ext.dropWhile isEdge := by
  have hlast : ∀ c ∈ ('.' :: ext).getLast?, isEdge c = false := by
    intro c hc
    rw [getLast?_cons_of_ne_nil h.ext_ne] at hc
    exact h.last c hc
  rw [show trimMatches ('.' :: ext) = ('.' :: ext).dropWhile isEdge from trim_of_last hlast]
  rfl

theorem Prepared.truncated_ne_nil (h : Prepared s) : trimMatches (truncateBytes s) ≠ [] := by
  cases hsplit : splitLastDot s with
  | none =>
    rw [truncateBytes_of_none hsplit]
    cases s with
    | nil => exact absurd rfl h.nonempty
    | cons c s =>
      refine trim_ne_nil (a := c) ?_ (h.bare.head c rfl)
      have hsmall := c.utf8Size_le_four
      rw [cut, if_pos (by rw [maxFilenameBytes]; omega)]
      exact mem_cons_self
  | some parts =>
    have hparts := h.parts hsplit
    rw [hparts.truncateBytes_eq]
    refine trim_ne_nil (a := parts.2.getLast hparts.ext_ne) ?_ (hparts.last _ ?_)
    · exact mem_append_right _ (mem_cons_of_mem _ (getLast_mem _))
    · exact getLast?_eq_some_getLast _

/-! ## Which names are spoiled -/

/-- Only the length and the stem of a trimmed name are in doubt. -/
theorem sound_iff (hne : r ≠ []) (hlegal : Legal r) (hbare : Bare isEdge r) :
    Sound (String.ofList r) ↔ byteLength r ≤ maxFilenameBytes ∧ isReserved (stem r) = false := by
  constructor
  · intro h
    exact ⟨by simpa using h.length,by simpa using h.unreserved⟩
  · rintro ⟨hlength,hstem⟩
    exact Prepared.sound ⟨hne,hlegal,hbare,hstem⟩ hlength

theorem isReserved_cut_iff (hdot : '.' ∉ s) (hlong : maxFilenameBytes < byteLength s) :
    isReserved ((cut Char.utf8Size maxFilenameBytes s).rdropWhile isEdge) = true ↔
      LeavesDevice s := by
  obtain ⟨t,ht,hfits,hnext⟩ := cut_prefix maxFilenameBytes s
  constructor
  · intro hreserved
    cases t with
    | nil =>
      rw [append_nil] at ht
      rw [← ht] at hfits
      omega
    | cons c t =>
      have hparts := rdropWhile_append_rtakeWhile
        (p := isEdge) (l := cut Char.utf8Size maxFilenameBytes s)
      refine ⟨_,_,c,t,by rw [hparts]; exact ht,hreserved,?_,by rw [hparts]; exact hfits,
        by rw [hparts]; exact hnext c rfl⟩
      intro b hb
      have hedge : isEdge b = true := mem_rtakeWhile_imp hb
      have hmem : b ∈ s := by
        rw [ht]
        exact mem_append_left _ ((rtakeWhile_suffix isEdge _).subset hb)
      have hne : b ≠ '.' := by
        rintro rfl
        exact hdot hmem
      simpa [isEdge, hne] using hedge
  · rintro ⟨r,blanks,c,t,hs,hreserved,hblanks,hle,hlt⟩
    have hcut : cut Char.utf8Size maxFilenameBytes s = r ++ blanks := by
      refine cut_eq_iff.mpr ⟨c :: t,hs,hle,?_⟩
      rintro d ⟨⟩
      exact hlt
    have hlast : ∀ d ∈ r.getLast?, isEdge d = false :=
      fun d hd => (isReserved_chars hreserved (mem_of_mem_getLast? hd)).1
    have hedges : ∀ b ∈ blanks, isEdge b = true := by
      intro b hb
      rw [hblanks b hb]
      decide
    rw [hcut, rdropWhile_append_of_all hlast hedges]
    exact hreserved

theorem Prepared.sound_of_none (h : Prepared s) (hlong : maxFilenameBytes < byteLength s)
    (hsplit : splitLastDot s = none) :
    Sound (String.ofList (trimMatches (truncateBytes s))) ↔ ¬ LeavesDevice s := by
  have hdot : '.' ∉ s := splitLastDot_eq_none hsplit
  obtain ⟨t,ht,hfits,-⟩ := cut_prefix maxFilenameBytes s
  have htrim := h.trim_cut
  rw [truncateBytes_of_none hsplit]
  have hsub : trimMatches (cut Char.utf8Size maxFilenameBytes s) ⊆ s := by
    intro c hc
    rw [ht]
    exact mem_append_left _ (trim_within.subset hc)
  have hnodot : '.' ∉ trimMatches (cut Char.utf8Size maxFilenameBytes s) :=
    fun hmem => hdot (hsub hmem)
  have hne : trimMatches (cut Char.utf8Size maxFilenameBytes s) ≠ [] := by
    rw [← truncateBytes_of_none hsplit]
    exact h.truncated_ne_nil
  rw [sound_iff hne (h.legal.subset hsub) bare_trim, stem_of_no_dot hnodot, htrim,
    ← isReserved_cut_iff hdot hlong, Bool.not_eq_true]
  refine and_iff_right (le_trans ?_ hfits)
  obtain ⟨blanks,hblanks⟩ := rdropWhile_prefix isEdge (cut Char.utf8Size maxFilenameBytes s)
  conv_rhs => rw [← hblanks, byteLength_eq, weight_append]
  exact Nat.le_add_right _ _

theorem Prepared.sound_of_kept (h : Prepared s) (hlong : maxFilenameBytes < byteLength s)
    (hparts : Parts s front ext)
    (hkept : cut Char.utf8Size (maxFilenameBytes - byteLength ('.' :: ext)) front ≠ []) :
    Sound (String.ofList (trimMatches (truncateBytes s))) ↔
      ¬ (LeavesDeviceBefore front ext ∨ LeavesExtension front ext) := by
  obtain ⟨t,ht,hfits,hnext⟩ := cut_prefix (maxFilenameBytes - byteLength ('.' :: ext)) front
  rw [hparts.truncateBytes_eq, hparts.trim_kept h.bare hkept]
  generalize hr : cut Char.utf8Size (maxFilenameBytes - byteLength ('.' :: ext)) front = r at *
  have hroom : 0 < byteLength r := by
    cases r with
    | nil => exact absurd rfl hkept
    | cons c r =>
      have hpos := c.utf8Size_pos
      rw [byteLength_eq, weight_cons]
      omega
  have hext : ¬ LeavesExtension front ext := by
    rintro ⟨⟨c,hc,hlt⟩,-⟩
    cases front with
    | nil => cases hc
    | cons d front =>
      cases hc
      refine hkept ?_
      rw [← hr, cut_eq_nil_iff]
      omega
  have hsub : r ++ '.' :: ext ⊆ s := by
    intro c hc
    rw [hparts.eq, ht]
    rcases mem_append.mp hc with hc | hc
    · exact mem_append_left _ (mem_append_left _ hc)
    · exact mem_append_right _ hc
  have hbare : Bare isEdge (r ++ '.' :: ext) := by
    rw [← hr, ← hparts.trim_kept h.bare (by rwa [hr])]
    exact bare_trim
  have hlength : byteLength (r ++ '.' :: ext) ≤ maxFilenameBytes := by
    rw [byteLength_eq, weight_append, ← byteLength_eq, ← byteLength_eq]
    omega
  have hstem : isReserved (stem (r ++ '.' :: ext)) = true ↔ LeavesDeviceBefore front ext := by
    constructor
    · intro hreserved
      by_cases hdot : '.' ∈ r
      · rw [stem_append_of_dot hdot] at hreserved
        have hwhole := h.unreserved
        rw [hparts.eq, ht, append_assoc, stem_append_of_dot hdot, hreserved] at hwhole
        cases hwhole
      · rw [stem_append_dot hdot] at hreserved
        cases t with
        | nil =>
          rw [append_nil] at ht
          rw [hparts.eq, ht, byteLength_eq, weight_append, ← byteLength_eq,
            ← byteLength_eq] at hlong
          omega
        | cons c t =>
          have hlt := hnext c rfl
          exact ⟨r,c,t,ht,hreserved,by omega,by omega⟩
    · rintro ⟨d,c,t',hfront,hreserved,hle,hlt⟩
      have hcut : cut Char.utf8Size (maxFilenameBytes - byteLength ('.' :: ext)) front = d := by
        refine cut_eq_iff.mpr ⟨c :: t',hfront,?_,?_⟩
        · rw [← byteLength_eq]
          omega
        · rintro e ⟨⟩
          rw [← byteLength_eq]
          omega
      have hdr : d = r := by rw [← hcut, hr]
      subst hdr
      have hdot : '.' ∉ d := by
        intro hmem
        exact absurd (isReserved_chars hreserved hmem).1 (by decide)
      rw [stem_append_dot hdot]
      exact hreserved
  rw [sound_iff (by simp) (h.legal.subset hsub) hbare, or_iff_left hext, ← hstem, Bool.not_eq_true]
  exact and_iff_right hlength

theorem Prepared.sound_of_dropped (h : Prepared s) (hparts : Parts s front ext)
    (hdropped : cut Char.utf8Size (maxFilenameBytes - byteLength ('.' :: ext)) front = []) :
    Sound (String.ofList (trimMatches (truncateBytes s))) ↔
      ¬ (LeavesDeviceBefore front ext ∨ LeavesExtension front ext) := by
  have hbefore : ¬ LeavesDeviceBefore front ext := by
    rintro ⟨r,c,t,hfront,hreserved,hle,hlt⟩
    have hcut : cut Char.utf8Size (maxFilenameBytes - byteLength ('.' :: ext)) front = r := by
      refine cut_eq_iff.mpr ⟨c :: t,hfront,?_,?_⟩
      · rw [← byteLength_eq]
        omega
      · rintro e ⟨⟩
        rw [← byteLength_eq]
        omega
    rw [hdropped] at hcut
    rw [← hcut, isReserved_nil] at hreserved
    cases hreserved
  have hfirst : ∃ c ∈ front.head?, maxFilenameBytes < c.utf8Size + byteLength ('.' :: ext) := by
    cases front with
    | nil => exact absurd rfl hparts.front_ne
    | cons c front =>
      refine ⟨c,rfl,?_⟩
      have hlt := cut_eq_nil_iff.mp hdropped
      omega
  have htrim : trimMatches (truncateBytes s) = ext.dropWhile isEdge := by
    rw [hparts.truncateBytes_eq, hdropped, nil_append, hparts.trim_dropped]
  have hsub : ext.dropWhile isEdge ⊆ ext := (dropWhile_suffix isEdge).subset
  have hnodot : '.' ∉ ext.dropWhile isEdge := fun hmem => hparts.no_dot (hsub hmem)
  have hne : ext.dropWhile isEdge ≠ [] := by
    rw [← htrim]
    exact h.truncated_ne_nil
  have hlegal : Legal (ext.dropWhile isEdge) := by
    refine h.legal.subset ?_
    intro c hc
    rw [hparts.eq]
    exact mem_append_right _ (mem_cons_of_mem _ (hsub hc))
  have hbare : Bare isEdge (ext.dropWhile isEdge) := by
    rw [← htrim]
    exact bare_trim
  rw [htrim, sound_iff hne hlegal hbare, stem_of_no_dot hnodot, or_iff_right hbefore,
    LeavesExtension, and_iff_right hfirst, not_or, Nat.not_lt, Bool.not_eq_true]

theorem Prepared.sound_truncated_iff (h : Prepared s) (hlong : maxFilenameBytes < byteLength s) :
    Sound (String.ofList (trimMatches (truncateBytes s))) ↔ ¬ Spoiled s := by
  rw [Spoiled, and_iff_right hlong]
  cases hsplit : splitLastDot s with
  | none => exact h.sound_of_none hlong hsplit
  | some parts =>
    by_cases hkept : cut Char.utf8Size (maxFilenameBytes - byteLength ('.' :: parts.2)) parts.1 = []
    · exact h.sound_of_dropped (h.parts hsplit) hkept
    · exact h.sound_of_kept hlong (h.parts hsplit) hkept

theorem prepared_preparedName {name : String}
    (hne : trimMatches (name.toList.map replaceIllegal) ≠ []) : Prepared (preparedName name) := by
  refine prepared_avoidReservedName hne ?_ bare_trim
  exact (legal_map_replaceIllegal name.toList).subset trim_within.subset

theorem sanitizeFilename_of_long {name : String}
    (hne : trimMatches (name.toList.map replaceIllegal) ≠ [])
    (hlong : maxFilenameBytes < byteLength (preparedName name)) :
    sanitizeFilename name =
      String.ofList (trimMatches (truncateBytes (preparedName name))) := by
  simp only [sanitizeFilename, if_neg hne]
  have hcut : ¬ byteLength (avoidReservedName (trimMatches (name.toList.map replaceIllegal))) ≤
      maxFilenameBytes := Nat.not_le_of_lt hlong
  exact (if_neg hcut).trans (if_neg (prepared_preparedName hne).truncated_ne_nil)

theorem sound_download : Sound (String.ofList "download".toList) := by
  exact Prepared.sound ⟨by decide,by decide,by decide,by decide⟩ (by decide)

/-- The sanitizer keeps its promise for the names that the cut does not spoil. -/
theorem sanitizeFilename_sound_iff (name : String) :
    Sound (sanitizeFilename name) ↔ ¬ Spoiled (preparedName name) := by
  by_cases hempty : trimMatches (name.toList.map replaceIllegal) = []
  · have hname : sanitizeFilename name = String.ofList "download".toList := by
      simp only [sanitizeFilename, if_pos hempty]
      decide
    have hprepared : preparedName name = [] := by
      rw [preparedName, hempty]
      decide
    rw [hname, hprepared]
    exact iff_of_true sound_download (fun h => absurd h.1 (by decide))
  · have h := prepared_preparedName hempty
    by_cases hfits : byteLength (preparedName name) ≤ maxFilenameBytes
    · have hname : sanitizeFilename name = String.ofList (preparedName name) := by
        simp only [sanitizeFilename, if_neg hempty]
        exact if_pos hfits
      rw [hname]
      exact iff_of_true (h.sound hfits) (fun hspoiled => absurd hspoiled.1 (by omega))
    · rw [sanitizeFilename_of_long hempty (by omega)]
      exact h.sound_truncated_iff (by omega)

theorem Prepared.not_sound (h : Prepared s) (hspoiled : Spoiled s) :
    ¬ Sound (sanitizeFilename (String.ofList s)) := by
  have hprepared : preparedName (String.ofList s) = s := by
    rw [preparedName, h.clean_eq, h.avoidReservedName_eq]
  have hne : trimMatches ((String.ofList s).toList.map replaceIllegal) ≠ [] := by
    rw [h.clean_eq]
    exact h.nonempty
  rw [sanitizeFilename_of_long hne (by rw [hprepared]; exact hspoiled.1), hprepared]
  exact fun hsound => (h.sound_truncated_iff hspoiled.1).mp hsound hspoiled

/-- An extension of 300 bytes is returned uncut, and a device name before blanks is bared. -/
theorem sanitizeFilename_spoils :
    ¬ Sound (sanitizeFilename (String.ofList ('a' :: '.' :: List.replicate 300 'b'))) ∧
    ¬ Sound (sanitizeFilename
      (String.ofList ('C' :: 'O' :: 'N' :: (List.replicate 300 ' ' ++ ['x'])))) := by
  constructor
  · refine Prepared.not_sound ⟨cons_ne_nil _ _,by decide +kernel,by decide +kernel,
      by decide +kernel⟩ ⟨by decide +kernel,?_⟩
    · have hsplit : splitLastDot ('a' :: '.' :: List.replicate 300 'b') =
          some (['a'], List.replicate 300 'b') := by decide +kernel
      rw [hsplit]
      exact .inr ⟨⟨'a',rfl,by decide +kernel⟩,.inl (by decide +kernel)⟩
  · refine Prepared.not_sound ⟨cons_ne_nil _ _,by decide +kernel,by decide +kernel,
      by decide +kernel⟩ ⟨by decide +kernel,?_⟩
    · have hsplit : splitLastDot ('C' :: 'O' :: 'N' :: (List.replicate 300 ' ' ++ ['x'])) =
          none := by decide +kernel
      rw [hsplit]
      refine ⟨['C', 'O', 'N'],List.replicate 197 ' ',' ',List.replicate 102 ' ' ++ ['x'],
        by decide +kernel,by decide,?_,by decide +kernel,by decide +kernel⟩
      exact fun b hb => eq_of_mem_replicate hb

end RinaDown.SanitizedNames
