import RinaDown.RssFilter

/-!
# The rule previews of the two clients

The desktop client and the web client each carry a copy of the rule filter. The copies differ from
the engine in how they trim and split an expression, in the digits, blanks and word boundaries of
the episode formats, in the numbers they accept for an episode, and in what an invalid exclude
expression does.
-/

namespace RinaDown.RssPreview

open CharacterPatterns RssFilter Texts

/-- `\s` of both clients: White_Space without U+0085, and the byte order mark. -/
def isBlank (c : Char) : Bool := (isWhitespace c && c != '\u0085') || c == '\uFEFF'

/-- The text that a format finds for the number of the episode, as read with the classes. -/
def capturedBy (cl : Classes) (title : Text) (format : Pattern × Bool × ℕ) : Option Text :=
  captures (format.1.outcomes cl format.2.1) format.2.2 title

/-- What is left of a title without tags, episode and noise, as read with the classes. -/
def seriesBy (cl : Classes) (tokens : Pattern) (title : Text) : Text :=
  removeAll (noise.outcomes cl false)
    (removeAll (tokens.outcomes cl true) (removeAll (brackets.outcomes cl false) title))

/-! ## The desktop client -/

/-- The classes of `RegExp` without the Unicode flag. -/
def desktopClasses : Classes where
  isDigit := Char.isDigit
  isSpace := isBlank
  isWord c := c.isAlphanum || c == '_'
  foldCase := Char.toUpper
  isWord_of_isDigit c h := by simp [Char.isAlphanum, h]

/-- `String.trim` of the desktop client: White_Space and the byte order mark. -/
def dartTrim (text : Text) : Text := trimWhere (fun c => isWhitespace c || c == '\uFEFF') text

/-- The split of a text at the runs of characters of a set. -/
def splitRuns (f : Char → Bool) : Text → List Text
  | [] => [[]]
  | x :: rest =>
      if f x then
        if rest.head?.any f then splitRuns f rest else [] :: splitRuns f rest
      else (splitRuns f rest).modifyHead (x :: ·)

/-- `int.tryParse`: a number of 64 bits with sign. -/
def tryParseInt (text : Text) : Option ℕ := (decimal text).filter (· < 2 ^ 63)

/-- A verdict of the desktop client; no reason means accepted. -/
structure RssVerdict where
  reason : Option String
  episodeKey : Text
deriving Repr, DecidableEq

variable (p : Platform)

def matchRssKeywords (title expr : Text) (useRegex : Bool) : Bool :=
  let e := dartTrim expr
  if e = [] then true
  else if useRegex then
    match p.regex e with
    | some re => re title
    | none => true
  else
    let lowered := p.toLowercase title
    (e.splitOn '|').any fun alt =>
      ((splitRuns isBlank alt).filter (· ≠ [])).all fun w => contains lowered (p.toLowercase w)

def characters24 (text : Text) : Text := if text.length ≤ 24 then text else text.take 24

/-- The formats of the desktop client are the expressions of the engine. -/
def rssEpisodeKey (title : Text) : Option Text :=
  let episode := episodeMatchers.findSome? fun format =>
    (capturedBy desktopClasses title format).bind tryParseInt
  episode.map (keyOf (characters24 (seriesBy desktopClasses epTokens title)))

def evaluateOne (title : Text) (size : ℤ) (rule : FilterRule) (seen : List Text) :
    RssVerdict × List Text :=
  if !matchRssKeywords p title rule.includeExpr rule.useRegex then
    (⟨some "not_included",[]⟩, seen)
  else if dartTrim rule.excludeExpr ≠ [] ∧
      matchRssKeywords p title rule.excludeExpr rule.useRegex = true then
    (⟨some "excluded",[]⟩, seen)
  else if 0 < size ∧ 0 < rule.sizeMinBytes ∧ size < rule.sizeMinBytes then
    (⟨some "too_small",[]⟩, seen)
  else if 0 < size ∧ 0 < rule.sizeMaxBytes ∧ size > rule.sizeMaxBytes then
    (⟨some "too_large",[]⟩, seen)
  else if rule.smartEpisode then
    match rssEpisodeKey title with
    | none => (⟨none,[]⟩, seen)
    | some key =>
        if key ∈ seen then (⟨some "dup_episode",key⟩, seen) else (⟨none,key⟩, key :: seen)
  else (⟨none,[]⟩, seen)

def evaluateRssBatch (rule : FilterRule) : List (Text × ℤ) → List Text → List RssVerdict
  | [], _ => []
  | item :: items, seen =>
      let judged := evaluateOne p item.1 item.2 rule seen
      judged.1 :: evaluateRssBatch rule items judged.2

/-! ## The web client -/

/-- `String.prototype.trim`. -/
def jsTrim (text : Text) : Text := trimWhere isBlank text

/-- The classes of a regular expression with the Unicode flag. -/
def webClasses : Classes where
  isDigit := Char.isDigit
  isSpace := isBlank
  isWord := p.isWord
  foldCase := p.foldCase
  isWord_of_isDigit c h := p.isWord_of_isDecimal c (p.isDecimal_of_isDigit c h)

inductive PreviewVerdict where
  | accepted (episodeKey : Text)
  | rejected (reason : String) (episodeKey : Text)
deriving Repr, DecidableEq

/-- The cross format with the word boundaries written as lookarounds. -/
def webCrossEp : Pattern :=
  .seq (.notAfter .word) (.seq (.group 1 (.many .digit 1 (some 2)))
    (.seq (letter 'x') (.seq (.group 2 (.many .digit 1 (some 3))) (.notBefore .word))))

def webDashEp : Pattern :=
  .seq (letter '-') (.seq (.many .space 0 none)
    (.seq (.group 1 (.many .digit 2 (some 3))) (.notBefore .word)))

def webDashToken : Pattern :=
  .seq (letter '-') (.seq (.many .space 0 none)
    (.seq (.many .digit 2 (some 3)) (.notBefore .word)))

def webCrossToken : Pattern :=
  .seq (.notAfter .word) (.seq (.many .digit 1 (some 2))
    (.seq (letter 'x') (.seq (.many .digit 1 (some 3)) (.notBefore .word))))

def webEpTokens : Pattern := .alt seasonToken (.alt cjkToken (.alt webDashToken webCrossToken))

def webEpisodeMatchers : List (Pattern × Bool × ℕ) :=
  [(seasonEp, true, 2), (webCrossEp, false, 2), (webDashEp, false, 1), (cjkEp, false, 1)]

/-- `Number.parseInt(text, 10)`: the value of the leading digits, if there are any. -/
def parseInt (text : Text) : Option ℕ := decimal (text.takeWhile Char.isDigit)

def webNormalizedSeries (title : Text) : Text :=
  (seriesBy (webClasses p) webEpTokens title).take 24

/-- The key for the number that a format found, of at most 32 bits. -/
def webKeyFrom (title text : Text) : Option Text :=
  match parseInt text with
  | none => none
  | some episode =>
      if episode > 4294967295 then none else some (keyOf (webNormalizedSeries p title) episode)

def webEpisodeKey (title : Text) : Option Text :=
  webEpisodeMatchers.findSome? fun format =>
    (capturedBy (webClasses p) title format).bind (webKeyFrom p title)

def buildMatcher (expr : Text) (useRegex : Bool) : Matcher :=
  let text := jsTrim expr
  if text = [] then .any
  else if useRegex then
    match p.regex text with
    | some re => .regex re
    | none => .any
  else .keywords ((text.splitOn '|').map fun alt =>
    ((splitRuns isBlank alt).filter (· ≠ [])).map p.toLowercase)

def compileRule (rule : FilterRule) : CompiledRule where
  includeMatcher := buildMatcher p rule.includeExpr rule.useRegex
  excludeMatcher := buildMatcher p rule.excludeExpr rule.useRegex
  smartEpisode := rule.smartEpisode
  sizeMinBytes := max 0 rule.sizeMinBytes
  sizeMaxBytes := max 0 rule.sizeMaxBytes

def evaluate (rule : CompiledRule) (title : Text) (size : ℤ) (seen : List Text) :
    PreviewVerdict × List Text :=
  let lowered := p.toLowercase title
  if !rule.includeMatcher.isMatch title lowered then (.rejected "not_included" [], seen)
  else if !rule.excludeMatcher.isAny && rule.excludeMatcher.isMatch title lowered then
    (.rejected "excluded" [], seen)
  else if 0 < size ∧ 0 < rule.sizeMinBytes ∧ size < rule.sizeMinBytes then
    (.rejected "too_small" [], seen)
  else if 0 < size ∧ 0 < rule.sizeMaxBytes ∧ size > rule.sizeMaxBytes then
    (.rejected "too_large" [], seen)
  else if rule.smartEpisode then
    match webEpisodeKey p title with
    | none => (.accepted [], seen)
    | some k =>
        if k ∈ seen then (.rejected "dup_episode" k, seen) else (.accepted k, k :: seen)
  else (.accepted [], seen)

def evaluateRows (rule : CompiledRule) : List (Text × ℤ) → List Text → List PreviewVerdict
  | [], _ => []
  | item :: items, seen =>
      let judged := evaluate p rule item.1 item.2 seen
      judged.1 :: evaluateRows rule items judged.2

/-- The preview starts from no taken keys. -/
def previewRule (rule : FilterRule) (items : List (Text × ℤ)) : List PreviewVerdict :=
  evaluateRows p (compileRule p rule) items []

end RinaDown.RssPreview
