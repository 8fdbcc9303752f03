import RinaDown.Texts

/-!
# The rule filter of a subscription

A subscription's rule is compiled once per round and judges the items of the round in
order: include, exclude, smallest size, largest size, and last the episode key, which
an accepted item takes. The regular expressions of a user and the lower-casing of a
text belong to the platform and are parameters; the expressions of the program itself
are patterns over characters.
-/

namespace RinaDown.RssFilter

open CharacterPatterns Texts

/-- What the program takes from its platform: the regular expressions of a user, read
without regard to case (`none` for an invalid one), the lower-casing of a text, and the
decimal digits, word characters and case folding of Unicode. -/
structure Platform where
  regex : Text → Option (Text → Bool)
  toLowercase : Text → Text
  isDecimal : Char → Bool
  isWord : Char → Bool
  foldCase : Char → Char
  isDecimal_of_isDigit : ∀ c, c.isDigit = true → isDecimal c = true
  isWord_of_isDecimal : ∀ c, isDecimal c = true → isWord c = true

/-- The classes of the `regex` crate, which are those of Unicode. -/
def Platform.classes (p : Platform) : Classes where
  isDigit := p.isDecimal
  isSpace := isWhitespace
  isWord := p.isWord
  foldCase := p.foldCase
  isWord_of_isDigit := p.isWord_of_isDecimal

/-- A platform for examples: every expression that begins with `[` is invalid, the others
match the texts that contain them. -/
def samplePlatform : Platform where
  regex expr := if expr.head? = some '[' then none else some fun text => contains text expr
  toLowercase text := text.map Char.toLower
  isDecimal c := c.isDigit || ('０' ≤ c && c ≤ '９')
  isWord c := c.isAlphanum || ('０' ≤ c && c ≤ '９')
  foldCase := Char.toLower
  isDecimal_of_isDigit c h := by simp [h]
  isWord_of_isDecimal c h := by
    rcases (Bool.or_eq_true _ _).mp h with h | h <;> simp [Char.isAlphanum, h]

structure FilterRule where
  includeExpr : Text
  excludeExpr : Text
  useRegex : Bool
  smartEpisode : Bool
  sizeMinBytes : ℤ
  sizeMaxBytes : ℤ
deriving Repr, DecidableEq

inductive RejectReason where
  | notIncluded
  | excluded
  | tooSmall
  | tooLarge
  | duplicateEpisode
deriving Repr, DecidableEq

def RejectReason.code : RejectReason → String
  | notIncluded => "not_included"
  | excluded => "excluded"
  | tooSmall => "too_small"
  | tooLarge => "too_large"
  | duplicateEpisode => "dup_episode"

inductive Verdict where
  | accept (episodeKey : Text)
  | reject (reason : RejectReason) (episodeKey : Text)
deriving Repr, DecidableEq

inductive Matcher where
  | any
  | regex (isMatch : Text → Bool)
  | keywords (alts : List (List Text))

variable (p : Platform)

def Matcher.build (expr : Text) (useRegex : Bool) : Matcher :=
  let expr := trim expr
  if expr = [] then any
  else if useRegex then
    match p.regex expr with
    | some re => regex re
    | none => any
  else keywords ((expr.splitOn '|').map fun alt => (splitWhitespace alt).map p.toLowercase)

def Matcher.isMatch (title lowered : Text) : Matcher → Bool
  | any => true
  | regex re => re title
  | keywords alts => alts.any fun words => words.all (contains lowered)

def Matcher.isAny : Matcher → Bool
  | any => true
  | _ => false

def letter (c : Char) : Pattern := .one (.letter c)

/-- `s(\d+)e(\d+)`, read without regard to case. -/
def seasonEp : Pattern :=
  .seq (letter 's') (.seq (.group 1 (.many .digit 1 none))
    (.seq (letter 'e') (.group 2 (.many .digit 1 none))))

/-- `\b(\d{1,2})x(\d{1,3})\b`. -/
def crossEp : Pattern :=
  .seq .wordBoundary (.seq (.group 1 (.many .digit 1 (some 2)))
    (.seq (letter 'x') (.seq (.group 2 (.many .digit 1 (some 3))) .wordBoundary)))

/-- `-\s*(\d{2,3})\b`. -/
def dashEp : Pattern :=
  .seq (letter '-') (.seq (.many .space 0 none)
    (.seq (.group 1 (.many .digit 2 (some 3))) .wordBoundary))

/-- `[话話集]`. -/
def episodeWord : Pattern :=
  .one (.either (.letter '话') (.either (.letter '話') (.letter '集')))

/-- `第\s*(\d+)\s*[话話集]`. -/
def cjkEp : Pattern :=
  .seq (letter '第') (.seq (.many .space 0 none) (.seq (.group 1 (.many .digit 1 none))
    (.seq (.many .space 0 none) episodeWord)))

/-- `\[[^\]]*\]`. -/
def brackets : Pattern :=
  .seq (letter '[') (.seq (.many (.noneOf ']') 0 none) (letter ']'))

/-- `s\d+e\d+`. -/
def seasonToken : Pattern :=
  .seq (letter 's') (.seq (.many .digit 1 none) (.seq (letter 'e') (.many .digit 1 none)))

/-- `第\s*\d+\s*[话話集]`. -/
def cjkToken : Pattern :=
  .seq (letter '第') (.seq (.many .space 0 none) (.seq (.many .digit 1 none)
    (.seq (.many .space 0 none) episodeWord)))

/-- `-\s*\d{2,3}\b`. -/
def dashToken : Pattern :=
  .seq (letter '-') (.seq (.many .space 0 none) (.seq (.many .digit 2 (some 3)) .wordBoundary))

/-- `\b\d{1,2}x\d{1,3}\b`. -/
def crossToken : Pattern :=
  .seq .wordBoundary (.seq (.many .digit 1 (some 2))
    (.seq (letter 'x') (.seq (.many .digit 1 (some 3)) .wordBoundary)))

def epTokens : Pattern := .alt seasonToken (.alt cjkToken (.alt dashToken crossToken))

/-- `[\s/～~]+`. -/
def noise : Pattern :=
  .many (.either .space (.either (.letter '/') (.either (.letter '～') (.letter '~')))) 1 none

/-- `str::parse::<u32>`. -/
def parseU32 (text : Text) : Option ℕ := (decimal text).filter (· < 2 ^ 32)

def normalizedSeries (title : Text) : Text :=
  let text := removeAll (brackets.outcomes p.classes false) title
  let text := removeAll (epTokens.outcomes p.classes true) text
  let text := removeAll (noise.outcomes p.classes false) text
  text.take 24

/-- The four formats of an episode in a title: pattern, whether it ignores case, and
the group that holds the number. -/
def episodeMatchers : List (Pattern × Bool × ℕ) :=
  [(seasonEp, true, 2), (crossEp, false, 2), (dashEp, false, 1), (cjkEp, false, 1)]

/-- The text that a format finds for the number of the episode. -/
def captured (title : Text) (format : Pattern × Bool × ℕ) : Option Text :=
  captures (format.1.outcomes p.classes format.2.1) format.2.2 title

def keyOf (series : Text) (episode : ℕ) : Text := series ++ '#' :: Nat.toDigits 10 episode

def episodeKey (title : Text) : Option Text :=
  (episodeMatchers.findSome? fun format => (captured p title format).bind parseU32).map
    (keyOf (normalizedSeries p title))

structure CompiledRule where
  includeMatcher : Matcher
  excludeMatcher : Matcher
  smartEpisode : Bool
  sizeMinBytes : ℤ
  sizeMaxBytes : ℤ

def CompiledRule.new (rule : FilterRule) : CompiledRule where
  includeMatcher := Matcher.build p rule.includeExpr rule.useRegex
  excludeMatcher := Matcher.build p rule.excludeExpr rule.useRegex
  smartEpisode := rule.smartEpisode
  sizeMinBytes := max rule.sizeMinBytes 0
  sizeMaxBytes := max rule.sizeMaxBytes 0

/-- Judges one item; an accepted item with an episode key takes the key. -/
def CompiledRule.evaluate (rule : CompiledRule) (title : Text) (size : ℤ)
    (seenEpisodes : List Text) : Verdict × List Text :=
  let lowered := p.toLowercase title
  if !rule.includeMatcher.isMatch title lowered then (.reject .notIncluded [], seenEpisodes)
  else if !rule.excludeMatcher.isAny && rule.excludeMatcher.isMatch title lowered then
    (.reject .excluded [], seenEpisodes)
  else if 0 < size ∧ 0 < rule.sizeMinBytes ∧ size < rule.sizeMinBytes then
    (.reject .tooSmall [], seenEpisodes)
  else if 0 < size ∧ 0 < rule.sizeMaxBytes ∧ size > rule.sizeMaxBytes then
    (.reject .tooLarge [], seenEpisodes)
  else if rule.smartEpisode then
    match episodeKey p title with
    | none => (.accept [], seenEpisodes)
    | some k =>
        if k ∈ seenEpisodes then (.reject .duplicateEpisode k, seenEpisodes)
        else (.accept k, k :: seenEpisodes)
  else (.accept [], seenEpisodes)

/-- The verdicts of a list of titles and sizes, judged in order with one set of keys. -/
def CompiledRule.evaluateAll (rule : CompiledRule) : List (Text × ℤ) → List Text → List Verdict
  | [], _ => []
  | item :: items, seenEpisodes =>
      let judged := rule.evaluate p item.1 item.2 seenEpisodes
      judged.1 :: rule.evaluateAll items judged.2

end RinaDown.RssFilter
