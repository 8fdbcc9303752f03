import Mathlib.Data.List.TakeWhile
import RinaDown.RssPreview

/-!
# When the previews show what the engine decides

For expressions that the platforms trim and split alike, and titles in which their engines find
the same, the web preview is the engine's filter started from no keys. The desktop preview differs
in two places: it reads an invalid exclude expression as one that matches, and it takes an episode
number of more than 32 bits. On every list of items these are the only differences, and each is one.
-/

namespace RinaDown.RssPreview

open CharacterPatterns RssFilter Texts List
open Option hiding all all_map any any_map map

/-- The words of a text, whether it is split at characters or at runs of them. -/
theorem splitRuns_splitOnP (f : Char → Bool) (text : Text) :
    ∃ word runs chars, splitRuns f text = word :: runs ∧ text.splitOnP f = word :: chars ∧
      runs.filter (· ≠ []) = chars.filter (· ≠ []) := by
  induction text with
  | nil => exact ⟨[],[],[],rfl,rfl,rfl⟩
  | cons x rest ih =>
      obtain ⟨word,runs,chars,hruns,hchars,hwords⟩ := ih
      by_cases hx : f x = true
      · have hsplit : (x :: rest).splitOnP f = [] :: rest.splitOnP f := by
          simp [splitOnP_cons_eq_if_modifyHead, hx]
        by_cases hnext : rest.head?.any f = true
        · -- the run goes on: the word at its end is empty
          have hempty : word = [] := by
            cases rest with
            | nil => simp at hnext
            | cons y tail =>
                have hy : f y = true := by simpa using hnext
                rw [splitOnP_cons_eq_if_modifyHead, if_pos hy] at hchars
                exact (cons.inj hchars).1.symm
          refine ⟨[],runs,word :: chars,?_,by rw [hsplit, hchars],?_⟩
          · simp only [splitRuns, hx, hnext, if_true, hruns, hempty]
          · rw [hempty, filter_cons_of_neg (by simp), hwords]
        · refine ⟨[],word :: runs,word :: chars,?_,by rw [hsplit, hchars],?_⟩
          · simp only [splitRuns, hx, if_true, if_neg hnext, hruns]
          · rw [filter_cons, filter_cons, hwords]
      · refine ⟨x :: word,runs,chars,?_,?_,hwords⟩
        · simp only [splitRuns, if_neg hx, hruns, modifyHead_cons]
        · rw [splitOnP_cons_eq_if_modifyHead, if_neg hx, hchars, modifyHead_cons]

theorem words_splitRuns (text : Text) :
    (splitRuns isWhitespace text).filter (· ≠ []) = splitWhitespace text := by
  obtain ⟨word,runs,chars,hruns,hchars,hwords⟩ := splitRuns_splitOnP isWhitespace text
  rw [splitWhitespace, hruns, hchars, filter_cons, filter_cons, hwords]

theorem splitRuns_congr {f g : Char → Bool} {text : Text} (h : ∀ c ∈ text, f c = g c) :
    splitRuns f text = splitRuns g text := by
  induction text with
  | nil => rfl
  | cons x rest ih =>
      have hhead : rest.head?.any f = rest.head?.any g := by
        cases rest with
        | nil => rfl
        | cons y tail => exact h y (by simp)
      simp only [splitRuns, h x (by simp), hhead, ih fun c hc => h c (by simp [hc])]

/-! ## The episode formats of the web client -/

variable {cl : Classes} {ignoreCase : Bool}

theorem outcomes_webCrossEp :
    webCrossEp.outcomes cl ignoreCase = crossEp.outcomes cl ignoreCase := by
  have hbegins : Begins cl ignoreCase .digit (.group 1 (.many .digit 1 (some 2))) :=
    (begins_many .digit _ Nat.one_pos).group 1
  have hends : Ends cl ignoreCase .digit (.group 2 (.many .digit 1 (some 3))) :=
    (ends_many .digit _ Nat.one_pos).group 2
  rw [crossEp, outcomes_wordBoundary_seq (hbegins.seq _)]
  symm
  apply outcomes_seq_congr_right
  apply outcomes_seq_congr_right
  apply outcomes_seq_congr_right
  exact outcomes_seq_wordBoundary hends

theorem outcomes_webDashEp :
    webDashEp.outcomes cl ignoreCase = dashEp.outcomes cl ignoreCase := by
  have hends : Ends cl ignoreCase .digit (.group 1 (.many .digit 2 (some 3))) :=
    (ends_many .digit _ Nat.two_pos).group 1
  symm
  apply outcomes_seq_congr_right
  apply outcomes_seq_congr_right
  exact outcomes_seq_wordBoundary hends

theorem outcomes_webDashToken :
    webDashToken.outcomes cl ignoreCase = dashToken.outcomes cl ignoreCase := by
  symm
  apply outcomes_seq_congr_right
  apply outcomes_seq_congr_right
  exact outcomes_seq_wordBoundary (ends_many .digit _ Nat.two_pos)

theorem outcomes_webCrossToken :
    webCrossToken.outcomes cl ignoreCase = crossToken.outcomes cl ignoreCase := by
  have hbegins : Begins cl ignoreCase .digit (.many .digit 1 (some 2)) :=
    begins_many .digit _ Nat.one_pos
  rw [crossToken, outcomes_wordBoundary_seq (hbegins.seq _)]
  symm
  apply outcomes_seq_congr_right
  apply outcomes_seq_congr_right
  apply outcomes_seq_congr_right
  exact outcomes_seq_wordBoundary (ends_many .digit _ Nat.one_pos)

theorem outcomes_webEpTokens :
    webEpTokens.outcomes cl ignoreCase = epTokens.outcomes cl ignoreCase := by
  apply outcomes_alt_congr rfl
  apply outcomes_alt_congr rfl
  exact outcomes_alt_congr outcomes_webDashToken outcomes_webCrossToken

variable (p : Platform)

/-- The three engines match the same in a title with the expressions that are the program's own. -/
structure EnginesAgree (title : Text) : Prop where
  desktop : ∀ format ∈ episodeMatchers,
    capturedBy desktopClasses title format = capturedBy p.classes title format
  desktopSeries : seriesBy desktopClasses epTokens title = seriesBy p.classes epTokens title
  web : ∀ format ∈ webEpisodeMatchers,
    capturedBy (webClasses p) title format = capturedBy p.classes title format
  webSeries : seriesBy (webClasses p) webEpTokens title = seriesBy p.classes webEpTokens title

variable {title : Text} {rule : FilterRule}

variable {p} in
theorem webNormalizedSeries_eq (h : EnginesAgree p title) :
    webNormalizedSeries p title = normalizedSeries p title := by
  rw [webNormalizedSeries, h.webSeries, seriesBy, outcomes_webEpTokens]
  rfl

/-- The number that a format of the web client finds is a run of digits. -/
theorem isDigit_capturedBy {text : Text} {format : Pattern × Bool × ℕ}
    (hformat : format ∈ webEpisodeMatchers) (h : capturedBy (webClasses p) title format = some text)
    : ∀ x ∈ text, x.isDigit = true := by
  have hgroups : GroupsOf .digit format.1 := by
    simp only [webEpisodeMatchers, mem_cons, not_mem_nil, or_false] at hformat
    rcases hformat with rfl | rfl | rfl | rfl <;>
      simp [GroupsOf, seasonEp, webCrossEp, webDashEp, cjkEp, letter, episodeWord]
  exact captures_subset hgroups h

theorem parseInt_eq_decimal {text : Text} (h : ∀ x ∈ text, x.isDigit = true) :
    parseInt text = decimal text := by
  rw [parseInt, takeWhile_eq_self_iff.mpr h]

theorem webKeyFrom_eq (h : EnginesAgree p title) {format : Pattern × Bool × ℕ}
    (hformat : format ∈ webEpisodeMatchers) :
    (capturedBy (webClasses p) title format).bind (webKeyFrom p title) =
      ((capturedBy p.classes title format).bind parseU32).map (keyOf (normalizedSeries p title)) := by
  rw [← h.web format hformat]
  cases hcaptured : capturedBy (webClasses p) title format with
  | none => rfl
  | some text =>
      rw [bind_some, bind_some, webKeyFrom, parseU32,
        parseInt_eq_decimal (isDigit_capturedBy p hformat hcaptured), webNormalizedSeries_eq h]
      cases decimal text with
      | none => rfl
      | some episode =>
          by_cases hwide : episode > 4294967295
          · have hlarge : ¬ episode < 2 ^ 32 := by omega
            rw [filter_some, decide_eq_false hlarge]
            exact if_pos hwide
          · have hlt : episode < 2 ^ 32 := by omega
            rw [filter_some, decide_eq_true hlt]
            exact if_neg hwide

theorem findSome?_congr {α β : Type*} {f g : α → Option β} {l : List α} (h : ∀ x ∈ l, f x = g x) :
    l.findSome? f = l.findSome? g := by
  induction l with
  | nil => rfl
  | cons x l ih =>
      rw [findSome?_cons, findSome?_cons, h x mem_cons_self,
        ih fun y hy => h y (mem_cons_of_mem x hy)]

theorem webEpisodeKey_eq (h : EnginesAgree p title) :
    webEpisodeKey p title = episodeKey p title := by
  have hcross : capturedBy p.classes title (webCrossEp, false, 2) =
      captured p title (crossEp, false, 2) := by
    rw [capturedBy, outcomes_webCrossEp]
    rfl
  have hdash : capturedBy p.classes title (webDashEp, false, 1) =
      captured p title (dashEp, false, 1) := by
    rw [capturedBy, outcomes_webDashEp]
    rfl
  have hkeys : webEpisodeKey p title = webEpisodeMatchers.findSome? fun format =>
      ((capturedBy p.classes title format).bind parseU32).map (keyOf (normalizedSeries p title)) :=
    findSome?_congr fun format hformat => webKeyFrom_eq p h hformat
  rw [hkeys, episodeKey, map_findSome?, webEpisodeMatchers, episodeMatchers]
  simp only [findSome?_cons, findSome?_nil, Function.comp_apply, hcross, hdash]
  rfl

/-! ## Expressions that are trimmed and split alike -/

/-- The words of the expression stand between the same blanks for the clients: no U+0085 or byte
order mark is in an alternative. -/
def SameBlanks (expr : Text) (useRegex : Bool) : Prop :=
  useRegex = false → ∀ alt ∈ (trim expr).splitOn '|', ∀ c ∈ alt, isBlank c = isWhitespace c

/-- The three trims leave the same of an expression, and keywords are split alike. -/
structure SameTrims (rule : FilterRule) : Prop where
  dartInclude : dartTrim rule.includeExpr = trim rule.includeExpr
  dartExclude : dartTrim rule.excludeExpr = trim rule.excludeExpr
  jsInclude : jsTrim rule.includeExpr = trim rule.includeExpr
  jsExclude : jsTrim rule.excludeExpr = trim rule.excludeExpr
  includeBlanks : SameBlanks rule.includeExpr rule.useRegex
  excludeBlanks : SameBlanks rule.excludeExpr rule.useRegex

theorem map_words {α : Type*} {expr : Text} (h : SameBlanks expr false) (f : List Text → α) :
    ((trim expr).splitOn '|').map (fun alt => f ((splitRuns isBlank alt).filter (· ≠ []))) =
      ((trim expr).splitOn '|').map (fun alt => f (splitWhitespace alt)) := by
  apply map_congr_left
  intro alt halt
  rw [splitRuns_congr (h rfl alt halt), words_splitRuns]

theorem buildMatcher_eq {expr : Text} (h : jsTrim expr = trim expr) {useRegex : Bool}
    (hblanks : SameBlanks expr useRegex) :
    buildMatcher p expr useRegex = Matcher.build p expr useRegex := by
  by_cases hempty : trim expr = []
  · simp only [buildMatcher, Matcher.build, h, if_pos hempty]
  · cases useRegex with
    | true =>
        cases hregex : p.regex (trim expr) <;>
          simp only [buildMatcher, Matcher.build, h, if_neg hempty, if_true, hregex]
    | false =>
        simp only [buildMatcher, Matcher.build, h, if_neg hempty, Bool.false_eq_true, if_false]
        exact congrArg Matcher.keywords (map_words hblanks fun words => words.map p.toLowercase)

theorem matchRssKeywords_eq {expr : Text} (h : dartTrim expr = trim expr) {useRegex : Bool}
    (hblanks : SameBlanks expr useRegex) (title : Text) :
    matchRssKeywords p title expr useRegex =
      (Matcher.build p expr useRegex).isMatch title (p.toLowercase title) := by
  simp only [matchRssKeywords, Matcher.build, h]
  by_cases hempty : trim expr = []
  · rw [if_pos hempty, if_pos hempty]
    rfl
  · rw [if_neg hempty, if_neg hempty]
    cases useRegex with
    | true => cases p.regex (trim expr) <;> rfl
    | false =>
        have hwords := map_words hblanks fun words =>
          words.all fun w => contains (p.toLowercase title) (p.toLowercase w)
        have hany := congrArg (·.any id) hwords
        simp only [any_map] at hany
        simp only [Bool.false_eq_true, if_false, Matcher.isMatch, any_map]
        refine hany.trans ?_
        congr 1
        funext alt
        rw [Function.comp_apply, Function.comp_apply, all_map]
        rfl

theorem compileRule_eq (h : SameTrims rule) :
    compileRule p rule = CompiledRule.new p rule := by
  simp only [compileRule, CompiledRule.new, buildMatcher_eq p h.jsInclude h.includeBlanks,
    buildMatcher_eq p h.jsExclude h.excludeBlanks, Int.max_comm 0]

/-! ## Verdicts -/

def dartVerdict : Verdict → RssVerdict
  | .accept key => ⟨none,key⟩
  | .reject reason key => ⟨some reason.code,key⟩

def webVerdict : Verdict → PreviewVerdict
  | .accept key => .accepted key
  | .reject reason key => .rejected reason.code key

/-- The first of the four checks before the episode that refuses an item. -/
def refusal (rule : CompiledRule) (title : Text) (size : ℤ) : Option RejectReason :=
  if !rule.includeMatcher.isMatch title (p.toLowercase title) then some .notIncluded
  else if !rule.excludeMatcher.isAny && rule.excludeMatcher.isMatch title (p.toLowercase title) then
    some .excluded
  else if 0 < size ∧ 0 < rule.sizeMinBytes ∧ size < rule.sizeMinBytes then some .tooSmall
  else if 0 < size ∧ 0 < rule.sizeMaxBytes ∧ size > rule.sizeMaxBytes then some .tooLarge
  else none

def takeKey (key : Option Text) (seen : List Text) : Verdict × List Text :=
  match key with
  | none => (.accept [], seen)
  | some k => if k ∈ seen then (.reject .duplicateEpisode k, seen) else (.accept k, k :: seen)

def judge (refused : Option RejectReason) (key : Option Text) (seen : List Text) :
    Verdict × List Text :=
  match refused with
  | some reason => (.reject reason [], seen)
  | none => takeKey key seen

theorem evaluate_eq_judge (rule : CompiledRule) (title : Text) (size : ℤ) (seen : List Text) :
    rule.evaluate p title size seen =
      judge (refusal p rule title size)
        (if rule.smartEpisode then episodeKey p title else none) seen := by
  simp only [CompiledRule.evaluate, refusal]
  by_cases hinclude : (!rule.includeMatcher.isMatch title (p.toLowercase title)) = true
  · simp only [if_pos hinclude, judge]
  by_cases hexclude :
      (!rule.excludeMatcher.isAny && rule.excludeMatcher.isMatch title (p.toLowercase title)) = true
  · simp only [if_neg hinclude, if_pos hexclude, judge]
  by_cases hsmall : 0 < size ∧ 0 < rule.sizeMinBytes ∧ size < rule.sizeMinBytes
  · simp only [if_neg hinclude, if_neg hexclude, if_pos hsmall, judge]
  by_cases hlarge : 0 < size ∧ 0 < rule.sizeMaxBytes ∧ size > rule.sizeMaxBytes
  · simp only [if_neg hinclude, if_neg hexclude, if_neg hsmall, if_pos hlarge, judge]
  · simp only [if_neg hinclude, if_neg hexclude, if_neg hsmall, if_neg hlarge, judge]
    cases rule.smartEpisode with
    | false => rfl
    | true => cases episodeKey p title <;> rfl

theorem web_takeKey (key : Option Text) (seen : List Text) :
    (takeKey key seen).map webVerdict id =
      match key with
      | none => (.accepted [], seen)
      | some k =>
          if k ∈ seen then (.rejected "dup_episode" k, seen) else (.accepted k, k :: seen) := by
  cases key with
  | none => rfl
  | some k =>
      by_cases hk : k ∈ seen
      · simp only [takeKey, if_pos hk]
        rfl
      · simp only [takeKey, if_neg hk]
        rfl

theorem web_evaluate_eq {rule : CompiledRule} (h : rule.smartEpisode = true → EnginesAgree p title)
    (size : ℤ) (seen : List Text) :
    evaluate p rule title size seen = (rule.evaluate p title size seen).map webVerdict id := by
  rw [evaluate_eq_judge]
  simp only [evaluate, refusal]
  by_cases hinclude : (!rule.includeMatcher.isMatch title (p.toLowercase title)) = true
  · simp only [if_pos hinclude, judge]
    rfl
  by_cases hexclude :
      (!rule.excludeMatcher.isAny && rule.excludeMatcher.isMatch title (p.toLowercase title)) = true
  · simp only [if_neg hinclude, if_pos hexclude, judge]
    rfl
  by_cases hsmall : 0 < size ∧ 0 < rule.sizeMinBytes ∧ size < rule.sizeMinBytes
  · simp only [if_neg hinclude, if_neg hexclude, if_pos hsmall, judge]
    rfl
  by_cases hlarge : 0 < size ∧ 0 < rule.sizeMaxBytes ∧ size > rule.sizeMaxBytes
  · simp only [if_neg hinclude, if_neg hexclude, if_neg hsmall, if_pos hlarge, judge]
    rfl
  · simp only [if_neg hinclude, if_neg hexclude, if_neg hsmall, if_neg hlarge, judge, web_takeKey]
    cases hsmart : rule.smartEpisode with
    | false => rfl
    | true =>
        rw [webEpisodeKey_eq p (h hsmart)]
        cases episodeKey p title <;> rfl

theorem evaluateRows_eq (h : SameTrims rule) {items : List (Text × ℤ)}
    (hagree : rule.smartEpisode = true → ∀ item ∈ items, EnginesAgree p item.1) (seen : List Text) :
    evaluateRows p (compileRule p rule) items seen =
      ((CompiledRule.new p rule).evaluateAll p items seen).map webVerdict := by
  rw [compileRule_eq p h]
  induction items generalizing seen with
  | nil => rfl
  | cons item items ih =>
      have hitem : (CompiledRule.new p rule).smartEpisode = true → EnginesAgree p item.1 :=
        fun hsmart => hagree hsmart item mem_cons_self
      simp only [evaluateRows, CompiledRule.evaluateAll, map_cons, web_evaluate_eq p hitem,
        Prod.map_fst, Prod.map_snd, id_eq,
        ih fun hsmart other hother => hagree hsmart other (mem_cons_of_mem item hother)]

/-! ## The desktop preview -/

/-- The exclude expression is an invalid regular expression. -/
def InvalidExclude (rule : FilterRule) : Prop :=
  rule.useRegex = true ∧ trim rule.excludeExpr ≠ [] ∧ p.regex (trim rule.excludeExpr) = none

def Included (rule : FilterRule) (title : Text) : Prop :=
  (Matcher.build p rule.includeExpr rule.useRegex).isMatch title (p.toLowercase title) = true

/-- The item reaches the episode check: included, not excluded, of a size in bounds. -/
structure Passes (rule : FilterRule) (title : Text) (size : ℤ) : Prop where
  included : Included p rule title
  notExcluded : (Matcher.build p rule.excludeExpr rule.useRegex).isAny = false →
    (Matcher.build p rule.excludeExpr rule.useRegex).isMatch title (p.toLowercase title) = false
  notSmall : 0 < size → 0 < rule.sizeMinBytes → rule.sizeMinBytes ≤ size
  notLarge : 0 < size → 0 < rule.sizeMaxBytes → size ≤ rule.sizeMaxBytes

/-- The number of the first format whose number fits 64 bits with sign. -/
def episodeNumber (title : Text) : Option ℕ :=
  episodeMatchers.findSome? fun format => (captured p title format).bind tryParseInt

/-- The episode number of the title needs more than 32 bits. -/
def WideEpisode (title : Text) : Prop := ∃ n, episodeNumber p title = some n ∧ 2 ^ 32 ≤ n

/-- No defect of the desktop preview shows on the item. -/
structure Faithful (rule : FilterRule) (item : Text × ℤ) : Prop where
  validExclude : Included p rule item.1 → ¬ InvalidExclude p rule
  narrowEpisode : rule.smartEpisode = true → Passes p rule item.1 item.2 → ¬ WideEpisode p item.1

theorem rssEpisodeKey_eq (hagree : EnginesAgree p title) :
    rssEpisodeKey title = (episodeNumber p title).map (keyOf (normalizedSeries p title)) := by
  have hseries : ∀ text : Text, characters24 text = text.take 24 := by
    intro text
    rw [characters24]
    split_ifs with h
    · exact (take_of_length_le h).symm
    · rfl
  have hnumber : (episodeMatchers.findSome? fun format =>
      (capturedBy desktopClasses title format).bind tryParseInt) = episodeNumber p title :=
    findSome?_congr fun format hformat => by rw [hagree.desktop format hformat]; rfl
  rw [rssEpisodeKey, hnumber, hseries, hagree.desktopSeries]
  rfl

/-- A search for a number below a bound finds what a search with a larger bound finds,
if that is below the bound too. -/
theorem findSome?_filter {α : Type*} (f : α → Option ℕ) {a b : ℕ} (hab : a ≤ b) (l : List α)
    (h : ∀ n, l.findSome? (fun x => (f x).filter (· < b)) = some n → n < a) :
    l.findSome? (fun x => (f x).filter (· < a)) = l.findSome? (fun x => (f x).filter (· < b)) := by
  induction l with
  | nil => rfl
  | cons x l ih =>
      simp only [findSome?_cons] at h ⊢
      cases hx : f x with
      | none =>
          simp only [hx, filter_none] at h ⊢
          exact ih h
      | some n =>
          have hfilter : ∀ c, (some n).filter (fun m => decide (m < c)) =
              if n < c then some n else none := fun c => by simp [Option.filter]
          simp only [hx, hfilter] at h ⊢
          by_cases hb : n < b
          · have ha : n < a := h n (by rw [if_pos hb])
            rw [if_pos ha, if_pos hb]
          · have ha : ¬ n < a := by omega
            simp only [if_neg hb] at h
            rw [if_neg ha, if_neg hb]
            exact ih h

/-- A number that both sides accept gives both sides one key. -/
theorem rssEpisodeKey_eq_of_narrow (hagree : EnginesAgree p title) (h : ¬ WideEpisode p title) :
    rssEpisodeKey title = episodeKey p title := by
  have hnarrow : ∀ n, episodeNumber p title = some n → n < 2 ^ 32 := by
    intro n hn
    by_contra hwide
    exact h ⟨n,hn,Nat.le_of_not_lt hwide⟩
  have hsearch : ∀ c, episodeMatchers.findSome?
        (fun format => (captured p title format).bind fun text => (decimal text).filter (· < c)) =
      episodeMatchers.findSome?
        (fun format => ((captured p title format).bind decimal).filter (· < c)) := by
    intro c
    congr 1
    funext format
    cases captured p title format <;> rfl
  have hnumber : episodeNumber p title = _ := hsearch (2 ^ 63)
  have hkey : (episodeMatchers.findSome? fun format => (captured p title format).bind parseU32) = _ :=
    hsearch (2 ^ 32)
  rw [hnumber] at hnarrow
  rw [rssEpisodeKey_eq p hagree, episodeKey, hnumber, hkey, findSome?_filter _ (by decide) _ hnarrow]

theorem keyOf_injective (series : Text) : Function.Injective (keyOf series) := by
  intro m n h
  have hdigits : Nat.toDigits 10 m = Nat.toDigits 10 n :=
    (cons.inj (append_cancel_left h)).2
  calc m = Nat.ofDigitChars 10 (Nat.toDigits 10 m) 0 := Nat.ofDigitChars_ten_toDigits.symm
    _ = Nat.ofDigitChars 10 (Nat.toDigits 10 n) 0 := by rw [hdigits]
    _ = n := Nat.ofDigitChars_ten_toDigits

theorem episodeKey_narrow {key : Text} (h : episodeKey p title = some key) :
    ∃ n, key = keyOf (normalizedSeries p title) n ∧ n < 2 ^ 32 := by
  rw [episodeKey, map_eq_some_iff] at h
  obtain ⟨n,hn,rfl⟩ := h
  obtain ⟨format,-,hformat⟩ := exists_of_findSome?_eq_some hn
  rw [bind_eq_some_iff] at hformat
  obtain ⟨text,-,htext⟩ := hformat
  rw [parseU32, filter_eq_some_iff] at htext
  exact ⟨n,rfl,by simpa using htext.2⟩

theorem rssEpisodeKey_ne_of_wide (hagree : EnginesAgree p title) (h : WideEpisode p title) :
    ∃ key, rssEpisodeKey title = some key ∧ key ≠ [] ∧ episodeKey p title ≠ some key := by
  obtain ⟨n,hn,hwide⟩ := h
  refine ⟨keyOf (normalizedSeries p title) n,by rw [rssEpisodeKey_eq p hagree, hn]; rfl,
    by simp [keyOf],?_⟩
  intro hkey
  obtain ⟨m,hm,hnarrow⟩ := episodeKey_narrow p hkey
  have : n = m := keyOf_injective _ hm
  omega

theorem build_of_invalid (h : InvalidExclude p rule) :
    Matcher.build p rule.excludeExpr rule.useRegex = .any := by
  obtain ⟨hregex,hne,hinvalid⟩ := h
  simp only [Matcher.build, if_neg hne, hregex, if_true, hinvalid]

/-- For an exclude expression that is not invalid, the desktop client asks what the engine
asks. -/
theorem excludes_iff (h : SameTrims rule) (hvalid : ¬ InvalidExclude p rule) (title : Text) :
    (dartTrim rule.excludeExpr ≠ [] ∧
        matchRssKeywords p title rule.excludeExpr rule.useRegex = true) ↔
      (!(Matcher.build p rule.excludeExpr rule.useRegex).isAny &&
        (Matcher.build p rule.excludeExpr rule.useRegex).isMatch title
          (p.toLowercase title)) = true := by
  rw [matchRssKeywords_eq p h.dartExclude h.excludeBlanks, h.dartExclude, Bool.and_eq_true, Bool.not_eq_true']
  apply and_congr_left
  intro _
  by_cases hempty : trim rule.excludeExpr = []
  · simp [Matcher.build, hempty, Matcher.isAny]
  · simp only [Matcher.build, if_neg hempty]
    cases hregex : rule.useRegex with
    | false => simp [Matcher.isAny, hempty]
    | true =>
        cases hcompiled : p.regex (trim rule.excludeExpr) with
        | none => exact absurd ⟨hregex,hempty,hcompiled⟩ hvalid
        | some re => simp [Matcher.isAny, hempty]

theorem dart_takeKey (key : Option Text) (seen : List Text) :
    (takeKey key seen).map dartVerdict id =
      match key with
      | none => (⟨none,[]⟩, seen)
      | some k => if k ∈ seen then (⟨some "dup_episode",k⟩, seen) else (⟨none,k⟩, k :: seen) := by
  cases key with
  | none => rfl
  | some k =>
      by_cases hk : k ∈ seen
      · simp only [takeKey, if_pos hk]
        rfl
      · simp only [takeKey, if_neg hk]
        rfl

/-- The desktop client judges as a compiled rule does whose four checks agree with its own. -/
theorem evaluateOne_eq_judge_of (compiled : CompiledRule)
    (hinc : matchRssKeywords p title rule.includeExpr rule.useRegex =
      compiled.includeMatcher.isMatch title (p.toLowercase title))
    (hexc : compiled.includeMatcher.isMatch title (p.toLowercase title) = true →
      ((dartTrim rule.excludeExpr ≠ [] ∧
      matchRssKeywords p title rule.excludeExpr rule.useRegex = true) ↔
      (!compiled.excludeMatcher.isAny &&
      compiled.excludeMatcher.isMatch title (p.toLowercase title)) = true))
    (hmin : compiled.sizeMinBytes = max rule.sizeMinBytes 0)
    (hmax : compiled.sizeMaxBytes = max rule.sizeMaxBytes 0) (size : ℤ) (seen : List Text) :
    evaluateOne p title size rule seen =
      (judge (refusal p compiled title size)
        (if rule.smartEpisode then rssEpisodeKey title else none) seen).map dartVerdict id := by
  have hsmallIff : (0 < size ∧ 0 < rule.sizeMinBytes ∧ size < rule.sizeMinBytes) ↔
      (0 < size ∧ 0 < compiled.sizeMinBytes ∧ size < compiled.sizeMinBytes) := by omega
  have hlargeIff : (0 < size ∧ 0 < rule.sizeMaxBytes ∧ size > rule.sizeMaxBytes) ↔
      (0 < size ∧ 0 < compiled.sizeMaxBytes ∧ size > compiled.sizeMaxBytes) := by omega
  simp only [evaluateOne, refusal, hinc]
  by_cases hinclude : (!compiled.includeMatcher.isMatch title (p.toLowercase title)) = true
  · simp only [if_pos hinclude, judge]
    rfl
  simp only [hexc (by simpa using hinclude), hsmallIff, hlargeIff]
  by_cases hexclude : (!compiled.excludeMatcher.isAny &&
      compiled.excludeMatcher.isMatch title (p.toLowercase title)) = true
  · simp only [if_neg hinclude, if_pos hexclude, judge]
    rfl
  by_cases hsmall : 0 < size ∧ 0 < compiled.sizeMinBytes ∧ size < compiled.sizeMinBytes
  · simp only [if_neg hinclude, if_neg hexclude, if_pos hsmall, judge]
    rfl
  by_cases hlarge : 0 < size ∧ 0 < compiled.sizeMaxBytes ∧ size > compiled.sizeMaxBytes
  · simp only [if_neg hinclude, if_neg hexclude, if_neg hsmall, if_pos hlarge, judge]
    rfl
  · simp only [if_neg hinclude, if_neg hexclude, if_neg hsmall, if_neg hlarge, judge, dart_takeKey]
    cases rule.smartEpisode with
    | false => rfl
    | true => cases rssEpisodeKey title <;> rfl

/-- Where the exclude expression is valid, the desktop client judges as the engine does,
by its own episode key. -/
theorem evaluateOne_eq_judge (h : SameTrims rule)
    (hvalid : Included p rule title → ¬ InvalidExclude p rule) (size : ℤ) (seen : List Text) :
    evaluateOne p title size rule seen =
      (judge (refusal p (CompiledRule.new p rule) title size)
        (if rule.smartEpisode then rssEpisodeKey title else none) seen).map dartVerdict id :=
  evaluateOne_eq_judge_of p (CompiledRule.new p rule)
    (matchRssKeywords_eq p h.dartInclude h.includeBlanks title)
    (fun hincluded => excludes_iff p h (hvalid hincluded) title) rfl rfl size seen

theorem evaluateOne_of_invalid (h : SameTrims rule) (hincluded : Included p rule title)
    (hinvalid : InvalidExclude p rule) (size : ℤ) (seen : List Text) :
    evaluateOne p title size rule seen = (⟨some "excluded",[]⟩, seen) := by
  have hinc : matchRssKeywords p title rule.includeExpr rule.useRegex = true :=
    (matchRssKeywords_eq p h.dartInclude h.includeBlanks title).trans hincluded
  have hexc : matchRssKeywords p title rule.excludeExpr rule.useRegex = true := by
    rw [matchRssKeywords_eq p h.dartExclude h.excludeBlanks, build_of_invalid p hinvalid]
    rfl
  have htrim : dartTrim rule.excludeExpr ≠ [] := by
    rw [h.dartExclude]
    exact hinvalid.2.1
  simp only [evaluateOne, hinc, Bool.not_true, Bool.false_eq_true, if_false]
  rw [if_pos ⟨htrim,hexc⟩]

/-- The engine refuses nothing for an invalid exclude expression. -/
theorem refusal_of_invalid (hinvalid : InvalidExclude p rule) (title : Text) (size : ℤ) :
    refusal p (CompiledRule.new p rule) title size ≠ some .excluded := by
  simp only [refusal, CompiledRule.new, build_of_invalid p hinvalid, Matcher.isAny,
    Bool.not_true, Bool.false_and, Bool.false_eq_true, if_false]
  split_ifs <;> simp

theorem refusal_eq_none_iff {compiled : CompiledRule} {size : ℤ} :
    refusal p compiled title size = none ↔
      compiled.includeMatcher.isMatch title (p.toLowercase title) = true ∧
        (compiled.excludeMatcher.isAny = false →
          compiled.excludeMatcher.isMatch title (p.toLowercase title) = false) ∧
        ¬ (0 < size ∧ 0 < compiled.sizeMinBytes ∧ size < compiled.sizeMinBytes) ∧
        ¬ (0 < size ∧ 0 < compiled.sizeMaxBytes ∧ size > compiled.sizeMaxBytes) := by
  rw [refusal]
  by_cases hinclude : compiled.includeMatcher.isMatch title (p.toLowercase title) = true
  · rw [if_neg (by simp [hinclude])]
    by_cases hexclude : (!compiled.excludeMatcher.isAny &&
        compiled.excludeMatcher.isMatch title (p.toLowercase title)) = true
    · rw [if_pos hexclude]
      have : ¬ (compiled.excludeMatcher.isAny = false →
          compiled.excludeMatcher.isMatch title (p.toLowercase title) = false) := by
        simpa using hexclude
      exact ⟨nofun,fun hpasses => absurd hpasses.2.1 this⟩
    · rw [if_neg hexclude]
      have hnot : compiled.excludeMatcher.isAny = false →
          compiled.excludeMatcher.isMatch title (p.toLowercase title) = false := by
        simpa using hexclude
      split_ifs with hsmall hlarge
      · exact ⟨nofun,fun hpasses => absurd hsmall hpasses.2.2.1⟩
      · exact ⟨nofun,fun hpasses => absurd hlarge hpasses.2.2.2⟩
      · exact ⟨fun _ => ⟨hinclude,hnot,hsmall,hlarge⟩,fun _ => rfl⟩
  · rw [if_pos (by simpa using hinclude)]
    exact ⟨nofun,fun hpasses => absurd hpasses.1 hinclude⟩

theorem refusal_eq_none {size : ℤ} :
    refusal p (CompiledRule.new p rule) title size = none ↔ Passes p rule title size := by
  have hmin : (CompiledRule.new p rule).sizeMinBytes = max rule.sizeMinBytes 0 := rfl
  have hmax : (CompiledRule.new p rule).sizeMaxBytes = max rule.sizeMaxBytes 0 := rfl
  rw [refusal_eq_none_iff, hmin, hmax]
  constructor
  · rintro ⟨hincluded,hexcluded,hsmall,hlarge⟩
    exact ⟨hincluded,hexcluded,by omega,by omega⟩
  · rintro ⟨hincluded,hexcluded,hsmall,hlarge⟩
    exact ⟨hincluded,hexcluded,by omega,by omega⟩

/-! ## Lists of items -/

theorem code_injective : Function.Injective RejectReason.code := by
  intro r s h
  cases r <;> cases s <;> first | rfl | exact absurd h (by decide)

theorem judge_none_key (key : Option Text) (seen : List Text) :
    (dartVerdict (judge none key seen).1).episodeKey = key.getD [] := by
  cases key with
  | none => rfl
  | some k =>
      by_cases hk : k ∈ seen
      · simp only [judge, takeKey, if_pos hk]
        rfl
      · simp only [judge, takeKey, if_neg hk]
        rfl

theorem judge_none_reason (key : Option Text) (seen : List Text) :
    (dartVerdict (judge none key seen).1).reason ≠ some "excluded" := by
  cases key with
  | none => exact nofun
  | some k =>
      by_cases hk : k ∈ seen
      · simp only [judge, takeKey, if_pos hk]
        exact fun h => absurd (code_injective (some.inj h) : _ = RejectReason.excluded) nofun
      · simp only [judge, takeKey, if_neg hk]
        exact nofun

theorem evaluateOne_of_faithful (h : SameTrims rule) {item : Text × ℤ}
    (hagree : rule.smartEpisode = true → EnginesAgree p item.1) (hitem : Faithful p rule item)
    (seen : List Text) :
    evaluateOne p item.1 item.2 rule seen =
      ((CompiledRule.new p rule).evaluate p item.1 item.2 seen).map dartVerdict id := by
  rw [evaluateOne_eq_judge p h hitem.validExclude, evaluate_eq_judge]
  cases hrefusal : refusal p (CompiledRule.new p rule) item.1 item.2 with
  | some reason => rfl
  | none =>
      have hpasses := (refusal_eq_none p).mp hrefusal
      cases hsmart : rule.smartEpisode with
      | false => simp [CompiledRule.new, hsmart]
      | true =>
          have hkey := rssEpisodeKey_eq_of_narrow p (hagree hsmart) (hitem.narrowEpisode hsmart hpasses)
          simp [CompiledRule.new, hsmart, hkey]

theorem faithful_of_evaluateOne (h : SameTrims rule) {item : Text × ℤ}
    (hagree : rule.smartEpisode = true → EnginesAgree p item.1) {seen : List Text}
    (hsame : (evaluateOne p item.1 item.2 rule seen).1 =
      dartVerdict ((CompiledRule.new p rule).evaluate p item.1 item.2 seen).1) :
    Faithful p rule item := by
  rw [evaluate_eq_judge] at hsame
  have hvalid : Included p rule item.1 → ¬ InvalidExclude p rule := by
    intro hincluded hinvalid
    rw [evaluateOne_of_invalid p h hincluded hinvalid] at hsame
    have hreason := congrArg RssVerdict.reason hsame
    cases hrefusal : refusal p (CompiledRule.new p rule) item.1 item.2 with
    | none =>
        rw [hrefusal] at hreason
        exact judge_none_reason _ seen hreason.symm
    | some reason =>
        rw [hrefusal] at hreason
        have hne := refusal_of_invalid p hinvalid item.1 item.2
        rw [hrefusal] at hne
        have hcode : RejectReason.excluded.code = reason.code := some.inj hreason
        exact hne (congrArg some (code_injective hcode).symm)
  refine ⟨hvalid,fun hsmart hpasses hwide => ?_⟩
  rw [evaluateOne_eq_judge p h hvalid, (refusal_eq_none p).mpr hpasses] at hsame
  have hcompiled : (CompiledRule.new p rule).smartEpisode = true := hsmart
  simp only [hsmart, hcompiled, if_true, Prod.map_fst] at hsame
  have hkeys := congrArg RssVerdict.episodeKey hsame
  rw [judge_none_key, judge_none_key] at hkeys
  obtain ⟨key,hkey,hne,hother⟩ := rssEpisodeKey_ne_of_wide p (hagree hsmart) hwide
  rw [hkey] at hkeys
  cases hengine : episodeKey p item.1 with
  | none =>
      rw [hengine] at hkeys
      exact hne hkeys
  | some k =>
      rw [hengine] at hkeys
      exact hother (hengine.trans (congrArg some hkeys.symm))

theorem evaluateRssBatch_eq_iff (h : SameTrims rule) {items : List (Text × ℤ)}
    (hagree : rule.smartEpisode = true → ∀ item ∈ items, EnginesAgree p item.1) (seen : List Text) :
    evaluateRssBatch p rule items seen =
        ((CompiledRule.new p rule).evaluateAll p items seen).map dartVerdict ↔
      ∀ item ∈ items, Faithful p rule item := by
  induction items generalizing seen with
  | nil => simp [evaluateRssBatch, CompiledRule.evaluateAll]
  | cons item items ih =>
      have hhere : rule.smartEpisode = true → EnginesAgree p item.1 :=
        fun hsmart => hagree hsmart item mem_cons_self
      have hrest : rule.smartEpisode = true → ∀ other ∈ items, EnginesAgree p other.1 :=
        fun hsmart other hother => hagree hsmart other (mem_cons_of_mem item hother)
      rw [evaluateRssBatch, CompiledRule.evaluateAll, map_cons, cons.injEq,
        forall_mem_cons]
      constructor
      · rintro ⟨hhead,htail⟩
        have hitem := faithful_of_evaluateOne p h hhere hhead
        rw [evaluateOne_of_faithful p h hhere hitem] at htail
        exact ⟨hitem,(ih hrest _).mp htail⟩
      · rintro ⟨hitem,hitems⟩
        rw [evaluateOne_of_faithful p h hhere hitem]
        exact ⟨rfl,(ih hrest _).mpr hitems⟩

/-- An include expression with an empty alternative, and an exclude word. -/
def sampleRule : FilterRule where
  includeExpr := "1080p |".toList
  excludeExpr := " hevc".toList
  useRegex := false
  smartEpisode := true
  sizeMinBytes := 10
  sizeMaxBytes := 0

def sampleItems : List (Text × ℤ) :=
  [("Show - 02 1080P".toList, 20), ("Show S01E02".toList, 0), ("Show 1x03 HEVC".toList, 20)]

theorem sameBlanks_of_all {expr : Text} {useRegex : Bool} (h : (((trim expr).splitOn '|').all
    fun alt => alt.all fun c => isBlank c == isWhitespace c) = true) : SameBlanks expr useRegex := by
  intro _ alt halt c hc
  exact eq_of_beq (all_eq_true.mp (all_eq_true.mp h alt halt) c hc)

/-- Where the engines differ, so may the previews: a full-width season number, and a word that the
engine alone splits. -/
example : (episodeKey samplePlatform "X S０１E02".toList).isSome = true ∧
    webEpisodeKey samplePlatform "X S０１E02".toList = none ∧
    (Matcher.build samplePlatform "a\u0085b".toList false).isMatch "a b".toList "a b".toList = true ∧
    (buildMatcher samplePlatform "a\u0085b".toList false).isMatch "a b".toList "a b".toList = false := by
  decide +kernel

end RinaDown.RssPreview
