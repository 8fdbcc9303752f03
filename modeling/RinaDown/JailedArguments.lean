import RinaDown.PluginManifest
import RinaDown.SplitText

/-!
# Arguments of jailed tools

The arguments that a plugin passes to a jailed tool are texts that the jail rejects one by one.
An option or a filter carries a file name as a value inside its argument, which begins after a
delimiter or an opening quote. What the jail accepts stays in the working directory just where no
value begins in one of the ways that it does not look for.
-/

namespace RinaDown.JailedArguments

open CharacterPatterns (Text)
open PluginManifest (isDriveLetter splitSeparators)
open SplitText List

abbrev InvalidOutput := String

def maxFfmpegArgLen : ℕ := 8 * 1024

def isSeparator (c : Char) : Bool := c = '/' || c = '\\'

def contains (a sub : Text) : Bool := decide (sub <:+: a)

def isSchemeChar (c : Char) : Bool := c.isAlphanum || c = '+' || c = '.' || c = '-'

/-- What stands before the first colon, if there is one, is the scheme of a protocol. -/
def hasScheme (a : Text) : Bool :=
  let scheme := a.takeWhile (· ≠ ':')
  a.contains ':' && 2 ≤ scheme.length && scheme.head?.any Char.isAlpha && scheme.all isSchemeChar

def argRejectReason (arg : String) : Option String :=
  let a := arg.toList
  if a.head?.any isSeparator then some "绝对路径"
  else if isDriveLetter a then some "盘符路径"
  else if (splitSeparators a).contains ['.', '.'] then some ".. 越级"
  else if contains a [':', '/', '/'] then some "URL scheme"
  else if hasScheme a then some "协议前缀"
  else if contains a ['=', '/'] || contains a ['=', '\\'] || contains a [':', '/'] ||
      contains a [':', '\\'] then some "内嵌绝对路径"
  else none

def validateFfmpegArg (a : String) : Except InvalidOutput Unit :=
  if maxFfmpegArgLen < a.utf8ByteSize then .error "ffmpeg 参数过长"
  else if a.toList.contains (Char.ofNat 0) then .error "ffmpeg 参数含 NUL"
  else match argRejectReason a with
    | some reason => .error s!"ffmpeg 参数 '{a}' 被拒: {reason}"
    | none => .ok ()

def validateFfmpegArgs (args : List String) : Except InvalidOutput Unit :=
  args.forM validateFfmpegArg

/-! ## Values -/

def isDelimiter (c : Char) : Bool := c = '=' || c = ':' || c = ',' || c = ';' || c = '|'

def isQuote (c : Char) : Bool := "'\"".toList.contains c

/-- What follows each delimiter and each opening quote, with the character it follows. A quote
opens where none of its kind is open. -/
def values : Option Char → Text → List (Char × Text)
  | _, [] => []
  | none, c :: rest =>
      if isQuote c then (c, rest) :: values (some c) rest
      else if isDelimiter c then (c, rest) :: values none rest
      else values none rest
  | some quote, c :: rest =>
      if c = quote then values none rest
      else if isDelimiter c then (c, rest) :: values (some quote) rest
      else values (some quote) rest

/-- A value ends at the next delimiter or quote. -/
def piece (v : Text) : Text := v.takeWhile fun c => !(isDelimiter c || isQuote c)

def isAbsolute (p : Text) : Bool := p.head?.any isSeparator

def isDrivePath : Text → Bool
  | letter :: ':' :: c :: _ => letter.isAlpha && isSeparator c
  | _ => false

def hasParent (p : Text) : Bool := (splitSeparators p).contains ['.', '.']

/-- Scheme characters, two or more, before a colon. -/
def hasProtocolPrefix (v : Text) : Bool :=
  2 ≤ (v.takeWhile isSchemeChar).length && (v.dropWhile isSchemeChar).head? = some ':'

def inputs (args : List String) : List String :=
  ((args.zip args.tail).filter fun e => e.1 = "-i").map Prod.snd

structure SafePath (p v : Text) : Prop where
  absolute : isAbsolute p = false
  drive : isDrivePath v = false
  parent : hasParent p = false
  url : contains v [':', '/', '/'] = false

/-- No argument, and no value in an argument, leaves the working directory or names a
protocol. -/
structure Safe (args : List String) : Prop where
  arguments : ∀ a ∈ args, SafePath a.toList a.toList
  values : ∀ a ∈ args, ∀ v ∈ values none a.toList, SafePath (piece v.2) v.2
  inputs : ∀ v ∈ inputs args, hasProtocolPrefix v.toList = false

/-! ## What the jail does not look for -/

def beginsWithParent (p : Text) : Bool := p.takeWhile (!isSeparator ·) = ['.', '.']

/-- A separator after a comma, a semicolon, a bar or a quote, a first component `..`, or a last
one that a delimiter or a quote ends. -/
def isMissed (v : Char × Text) : Bool :=
  (v.1 ≠ '=' && v.1 ≠ ':' && isAbsolute v.2) || beginsWithParent (piece v.2) ||
    (beginsWithParent (piece v.2).reverse && piece v.2 ≠ v.2)

/-- No value in an argument begins in a way that is not looked for, nor does an input have a
protocol that does not begin with a letter. -/
structure Covered (args : List String) : Prop where
  values : ∀ a ∈ args, ∀ v ∈ values none a.toList, isMissed v = false
  inputs : ∀ v ∈ inputs args, hasProtocolPrefix v.toList = true → v.toList.head?.any Char.isAlpha

variable {a p : Text} {v : Char × Text} {args : List String}

theorem mem_values {quote : Option Char} (h : v ∈ values quote a) :
    ∃ before, a = before ++ v.1 :: v.2 := by
  induction a generalizing quote with
  | nil => cases quote <;> exact absurd h not_mem_nil
  | cons c rest ih =>
      have hrest : ∀ {quote}, v ∈ values quote rest → ∃ before, c :: rest = before ++ v.1 :: v.2 := by
        intro quote hv
        obtain ⟨before,hbefore⟩ := ih hv
        exact ⟨c :: before,congrArg (cons c) hbefore⟩
      cases quote with
      | none =>
          rw [values] at h
          split_ifs at h with hquote hdelimiter
          · rcases mem_cons.mp h with rfl | h
            · exact ⟨[],rfl⟩
            · exact hrest h
          · rcases mem_cons.mp h with rfl | h
            · exact ⟨[],rfl⟩
            · exact hrest h
          · exact hrest h
      | some quote =>
          rw [values] at h
          split_ifs at h with hquote hdelimiter
          · exact hrest h
          · rcases mem_cons.mp h with rfl | h
            · exact ⟨[],rfl⟩
            · exact hrest h
          · exact hrest h

theorem contains_iff {sub : Text} : contains a sub = true ↔ sub <:+: a := decide_eq_true_iff

structure Accepted (a : Text) : Prop where
  absolute : isAbsolute a = false
  drive : isDriveLetter a = false
  parent : hasParent a = false
  url : ¬ [':', '/', '/'] <:+: a
  scheme : hasScheme a = false
  embedded : ∀ c d, c = '=' ∨ c = ':' → isSeparator d = true → ¬ [c, d] <:+: a

theorem accepted_of_argRejectReason {arg : String} (h : argRejectReason arg = none) :
    Accepted arg.toList := by
  rw [argRejectReason] at h
  split_ifs at h with habsolute hdrive hparent hurl hscheme hembedded
  simp only [Bool.or_eq_true, not_or, contains_iff] at hembedded
  obtain ⟨⟨⟨heq,heq'⟩,hcolon⟩,hcolon'⟩ := hembedded
  refine ⟨Bool.eq_false_iff.mpr habsolute,Bool.eq_false_iff.mpr hdrive,
    Bool.eq_false_iff.mpr hparent,fun hinfix => hurl (contains_iff.mpr hinfix),
    Bool.eq_false_iff.mpr hscheme,?_⟩
  intro c d hc hd
  rw [isSeparator, Bool.or_eq_true, decide_eq_true_iff, decide_eq_true_iff] at hd
  rcases hc with rfl | rfl <;> rcases hd with rfl | rfl
  · exact heq
  · exact heq'
  · exact hcolon
  · exact hcolon'

theorem forM_ok {check : String → Except InvalidOutput Unit} (h : args.forM check = .ok ()) :
    ∀ a ∈ args, check a = .ok () := by
  induction args with
  | nil => exact fun _ hmem => absurd hmem not_mem_nil
  | cons arg args ih =>
      change (check arg >>= fun _ => args.forM check) = _ at h
      cases hcheck : check arg with
      | error e =>
          rw [hcheck] at h
          cases h
      | ok u =>
          rw [hcheck] at h
          intro a ha
          rcases mem_cons.mp ha with rfl | ha
          · exact hcheck
          · exact ih h a ha

theorem accepted_of_validate (h : validateFfmpegArgs args = .ok ()) :
    ∀ a ∈ args, Accepted a.toList := by
  intro a ha
  have hvalid := forM_ok h a ha
  apply accepted_of_argRejectReason
  rw [validateFfmpegArg] at hvalid
  split_ifs at hvalid with hlength hnul
  cases hreason : argRejectReason a with
  | none => rfl
  | some reason =>
      rw [hreason] at hvalid
      cases hvalid

/-! ## Components -/

theorem hasParent_iff : hasParent p = true ↔
    ∃ l r, p = l ++ ['.', '.'] ++ r ∧ IsPart isSeparator l ['.', '.'] r := by
  rw [hasParent, contains_iff_mem]
  exact mem_splitOnP

theorem beginsWithParent_iff : beginsWithParent p = true ↔
    ∃ r, p = ['.', '.'] ++ r ∧ IsPart isSeparator [] ['.', '.'] r := by
  rw [beginsWithParent, decide_eq_true_iff]
  constructor
  · intro h
    refine ⟨p.dropWhile (!isSeparator ·),?_,h ▸ isPart_takeWhile p⟩
    rw [← h, takeWhile_append_dropWhile]
  · rintro ⟨r,rfl,hpart⟩
    exact hpart.eq_takeWhile

theorem free_parent : ∀ c ∈ ['.', '.'], isSeparator c = false := by
  intro c hc
  obtain rfl : c = '.' := by simpa using hc
  rfl

theorem beginsWithParent_reverse {l : Text} (h : ∀ c ∈ l.getLast?, isSeparator c = true) :
    beginsWithParent (l ++ ['.', '.']).reverse = true := by
  refine beginsWithParent_iff.mpr ⟨l.reverse,reverse_append,free_parent,?_,?_⟩
  · exact fun c hc => nomatch hc
  · rw [head?_reverse]
    exact h

theorem hasParent_of_begins (h : beginsWithParent p = true) : hasParent p = true := by
  obtain ⟨r,heq,hpart⟩ := beginsWithParent_iff.mp h
  exact hasParent_iff.mpr ⟨[],r,heq,hpart⟩

theorem hasParent_of_ends (h : beginsWithParent p.reverse = true) :
    hasParent p = true := by
  obtain ⟨r,heq,hpart⟩ := beginsWithParent_iff.mp h
  refine hasParent_iff.mpr ⟨r.reverse,[],?_,free_parent,?_,?_⟩
  · rw [← reverse_reverse p, heq, reverse_append, append_nil]
    rfl
  · rw [getLast?_reverse]
    exact hpart.right
  · exact fun c hc => nomatch hc

/-- Each component `..` of a piece is a component of the argument, unless it is the first, or the
last and something follows. -/
theorem hasParent_piece {before after : Text} (h : hasParent p = true)
    (ha : hasParent (before ++ p ++ after) = false) :
    beginsWithParent p = true ∨ beginsWithParent p.reverse = true ∧ after ≠ [] := by
  obtain ⟨l,r,rfl,hpart⟩ := hasParent_iff.mp h
  have hinner : l ≠ [] → (∀ c ∈ (r ++ after).head?, isSeparator c = true) → False := by
    intro hl hright
    rw [Bool.eq_false_iff] at ha
    apply ha
    refine hasParent_iff.mpr ⟨before ++ l,r ++ after,?_,free_parent,?_,hright⟩
    · simp only [append_assoc]
    · rw [getLast?_append_of_ne_nil before hl]
      exact hpart.left
  by_cases hl : l = []
  · subst hl
    exact .inl (beginsWithParent_iff.mpr ⟨r,rfl,hpart⟩)
  · cases r with
    | nil =>
        rw [append_nil]
        refine .inr ⟨beginsWithParent_reverse hpart.left,?_⟩
        rintro rfl
        exact hinner hl fun c hc => nomatch hc
    | cons c r => exact absurd hpart.right (hinner hl)

/-! ## What is accepted -/

theorem piece_append (v : Text) : ∃ after, v = piece v ++ after :=
  ⟨v.dropWhile _,takeWhile_append_dropWhile.symm⟩

/-- A separator is neither a delimiter nor a quote, so it begins the piece it begins. -/
theorem isAbsolute_piece (v : Text) : isAbsolute (piece v) = isAbsolute v := by
  cases v with
  | nil => rfl
  | cons c v =>
      rw [piece, takeWhile_cons]
      split_ifs with hc
      · rfl
      · rw [isAbsolute, isAbsolute, head?_nil, head?_cons, Option.any_none,
          Option.any_some]
        by_contra hsep
        have hsep : isSeparator c = true := by
          simpa using Ne.symm hsep
        rw [isSeparator, Bool.or_eq_true, decide_eq_true_iff, decide_eq_true_iff] at hsep
        rcases hsep with rfl | rfl
        · exact hc (by decide)
        · exact hc (by decide)

theorem Accepted.isAbsolute_value {before v : Text} {boundary : Char}
    (h : Accepted (before ++ boundary :: v)) (hboundary : boundary = '=' ∨ boundary = ':') :
    isAbsolute v = false := by
  cases v with
  | nil => rfl
  | cons c v =>
      rw [Bool.eq_false_iff]
      intro hc
      exact h.embedded boundary c hboundary hc ⟨before,v,by simp⟩

/-- A drive path has a separator after a colon. -/
theorem Accepted.isDrivePath_infix {v : Text} (h : Accepted a) (hv : v <:+: a) :
    isDrivePath v = false := by
  rw [Bool.eq_false_iff]
  intro hdrive
  rw [isDrivePath.eq_def] at hdrive
  split at hdrive
  · rename_i letter c rest
    rw [Bool.and_eq_true] at hdrive
    exact h.embedded ':' c (.inr rfl) hdrive.2 (.trans ⟨[letter],rest,rfl⟩ hv)
  · cases hdrive

theorem Accepted.safePath (h : Accepted a) : SafePath a a where
  absolute := h.absolute
  drive := h.isDrivePath_infix (infix_refl a)
  parent := h.parent
  url := Bool.eq_false_iff.mpr fun hurl => h.url (contains_iff.mp hurl)

theorem Accepted.safePath_value (h : Accepted a) (hv : v ∈ values none a)
    (hmissed : isMissed v = false) : SafePath (piece v.2) v.2 := by
  obtain ⟨before,heq⟩ := mem_values hv
  obtain ⟨boundary,v⟩ := v
  rw [isMissed, Bool.or_eq_false_iff, Bool.or_eq_false_iff] at hmissed
  obtain ⟨⟨habsolute,hbegins⟩,hends⟩ := hmissed
  subst heq
  have hsuffix : v <:+: before ++ boundary :: v :=
    ((suffix_cons boundary v).trans (suffix_append before _)).isInfix
  refine ⟨?_,h.isDrivePath_infix hsuffix,?_,?_⟩
  · rw [isAbsolute_piece]
    by_cases hboundary : boundary = '=' ∨ boundary = ':'
    · exact h.isAbsolute_value hboundary
    · rw [not_or] at hboundary
      simpa [hboundary.1, hboundary.2] using habsolute
  · rw [Bool.eq_false_iff]
    intro hparent
    obtain ⟨after,hafter⟩ := piece_append v
    have hwhole : hasParent (before ++ [boundary] ++ piece v ++ after) = false := by
      rw [append_assoc, ← hafter, append_assoc]
      exact h.parent
    rcases hasParent_piece hparent hwhole with hfirst | ⟨hlast,hne⟩
    · rw [hbegins] at hfirst
      cases hfirst
    · have hpiece : piece v ≠ v := by
        intro hsame
        rw [hsame] at hafter
        exact hne (self_eq_append_right.mp hafter)
      simp [hlast, hpiece] at hends
  · exact Bool.eq_false_iff.mpr fun hurl => h.url ((contains_iff.mp hurl).trans hsuffix)

theorem not_safePath_of_isMissed (h : isMissed v = true) :
    ¬ SafePath (piece v.2) v.2 := by
  intro hsafe
  rw [isMissed, Bool.or_eq_true, Bool.or_eq_true] at h
  rcases h with (habsolute | hbegins) | hends
  · rw [Bool.and_eq_true] at habsolute
    have hpiece := hsafe.absolute
    rw [isAbsolute_piece, habsolute.2] at hpiece
    cases hpiece
  · have hparent := hsafe.parent
    rw [hasParent_of_begins hbegins] at hparent
    cases hparent
  · rw [Bool.and_eq_true] at hends
    have hparent := hsafe.parent
    rw [hasParent_of_ends hends.1] at hparent
    cases hparent

theorem hasScheme_of_hasProtocolPrefix {v : Text} (h : hasProtocolPrefix v = true)
    (hletter : v.head?.any Char.isAlpha = true) : hasScheme v = true := by
  rw [hasProtocolPrefix, Bool.and_eq_true, decide_eq_true_iff, decide_eq_true_iff] at h
  obtain ⟨hlength,hcolon⟩ := h
  obtain ⟨rest,hrest⟩ := head?_eq_some_iff.mp hcolon
  have hv : v = v.takeWhile isSchemeChar ++ ':' :: rest := by
    rw [← hrest, takeWhile_append_dropWhile]
  have hall : (v.takeWhile isSchemeChar).all isSchemeChar = true := all_takeWhile
  generalize v.takeWhile isSchemeChar = scheme at hlength hv hall
  subst hv
  have hscheme : (scheme ++ ':' :: rest).takeWhile (· ≠ ':') = scheme := by
    rw [takeWhile_append_of_pos, takeWhile_cons_of_neg (by decide), append_nil]
    intro c hc
    rw [decide_eq_true_iff]
    rintro rfl
    have hcolon := all_eq_true.mp hall ':' hc
    exact absurd hcolon (by decide)
  have hhead : scheme.head?.any Char.isAlpha = true := by
    cases scheme with
    | nil => exact absurd hlength (by decide)
    | cons c scheme => exact hletter
  rw [hasScheme, hscheme]
  simp [hlength, hhead, hall]

theorem mem_of_mem_inputs {v : String} (h : v ∈ inputs args) : v ∈ args := by
  obtain ⟨e,he,rfl⟩ := mem_map.mp h
  exact mem_of_mem_tail (of_mem_zip (mem_filter.mp he).1).2

/-- What the jail accepts is safe just where it is covered. -/
theorem ffmpeg_arguments_safe_iff (args : List String) :
    (validateFfmpegArgs args = .ok () → Safe args) ↔
      (validateFfmpegArgs args = .ok () → Covered args) := by
  constructor
  · intro h hvalid
    have hsafe := h hvalid
    refine ⟨fun a ha v hv => ?_,fun v hv hprotocol => ?_⟩
    · rw [Bool.eq_false_iff]
      exact fun hmissed => not_safePath_of_isMissed hmissed (hsafe.values a ha v hv)
    · rw [hsafe.inputs v hv] at hprotocol
      cases hprotocol
  · intro h hvalid
    have hcovered := h hvalid
    have haccepted := accepted_of_validate hvalid
    refine ⟨fun a ha => (haccepted a ha).safePath,fun a ha v hv => ?_,fun v hv => ?_⟩
    · exact (haccepted a ha).safePath_value hv (hcovered.values a ha v hv)
    · rw [Bool.eq_false_iff]
      intro hprotocol
      have hscheme := (haccepted v (mem_of_mem_inputs hv)).scheme
      rw [hasScheme_of_hasProtocolPrefix hprotocol (hcovered.inputs v hv hprotocol)] at hscheme
      cases hscheme

/-- A filter reads a file outside the working directory. -/
theorem ffmpeg_arguments_escape :
    validateFfmpegArgs ["-i", "in.mp4", "-vf", "subtitles=../secret.srt", "out.mp4"] = .ok () ∧
      ¬ Safe ["-i", "in.mp4", "-vf", "subtitles=../secret.srt", "out.mp4"] := by
  refine ⟨rfl,fun hsafe => ?_⟩
  have hpath := hsafe.values "subtitles=../secret.srt" (by decide)
    ('=', "../secret.srt".toList) (by decide)
  exact absurd hpath.parent (by decide)

end RinaDown.JailedArguments
