import Mathlib.Data.Int.NatAbs
import Mathlib.Data.List.Basic

/-!
# Backtracking patterns over characters

A small pattern language with the meaning that backtracking engines share: the outcomes of a
pattern at a cursor are listed in the order in which an engine tries them, and the first outcome
at the leftmost position is the match. Repetition is repetition of one character set, so every
pattern is run by structural recursion.
-/

namespace RinaDown.CharacterPatterns
open List

abbrev Text := List Char

instance : LawfulBEq Text := inferInstance

/-- What an engine takes for digits, blanks and word characters, and how it folds case.
Digits are word characters. -/
structure Classes where
  isDigit : Char → Bool
  isSpace : Char → Bool
  isWord : Char → Bool
  foldCase : Char → Char
  isWord_of_isDigit : ∀ c, isDigit c = true → isWord c = true

inductive CharSet where
  | letter (c : Char)
  | digit
  | space
  | word
  | noneOf (c : Char)
  | either (s t : CharSet)
deriving Repr, DecidableEq

inductive Pattern where
  | one (s : CharSet)
  | many (s : CharSet) (least : ℕ) (most : Option ℕ)
  | group (n : ℕ) (p : Pattern)
  | seq (p q : Pattern)
  | alt (p q : Pattern)
  | wordBoundary
  | notAfter (s : CharSet)
  | notBefore (s : CharSet)
deriving Repr, DecidableEq

/-- A position in a text: the character before it, the text after it and the groups
captured so far. -/
structure Cursor where
  previous : Option Char
  rest : Text
  groups : List (ℕ × Text)
deriving Repr, DecidableEq

section Semantics

variable (cl : Classes) (ignoreCase : Bool)

def sameLetter (c x : Char) : Bool :=
  if ignoreCase then cl.foldCase c == cl.foldCase x else c == x

def CharSet.takes : CharSet → Char → Bool
  | letter c, x => sameLetter cl ignoreCase c x
  | digit, x => cl.isDigit x
  | space, x => cl.isSpace x
  | word, x => cl.isWord x
  | noneOf c, x => !sameLetter cl ignoreCase c x
  | either s t, x => s.takes x || t.takes x

def Cursor.advance (c : Cursor) (k : ℕ) : Cursor :=
  { c with previous := (c.rest.take k).getLast?.or c.previous, rest := c.rest.drop k }

/-- How many characters a greedy repetition takes at first. -/
def reach (s : CharSet) (most : Option ℕ) (c : Cursor) : ℕ :=
  let run := (c.rest.takeWhile (s.takes cl ignoreCase)).length
  match most with
  | none => run
  | some m => min run m

/-- The outcomes of a pattern, in the order in which they are tried. -/
def Pattern.outcomes : Pattern → Cursor → List Cursor
  | one s, c =>
      match c.rest with
      | [] => []
      | x :: _ => if s.takes cl ignoreCase x then [c.advance 1] else []
  | many s least most, c =>
      ((List.range (reach cl ignoreCase s most c + 1)).filter (least ≤ ·)).reverse.map c.advance
  | group n p, c =>
      (p.outcomes c).map fun d =>
        { d with groups := (n, c.rest.take (c.rest.length - d.rest.length)) :: d.groups }
  | seq p q, c => (p.outcomes c).flatMap q.outcomes
  | alt p q, c => p.outcomes c ++ q.outcomes c
  | wordBoundary, c =>
      if c.previous.any cl.isWord = c.rest.head?.any cl.isWord then [] else [c]
  | notAfter s, c => if c.previous.any (s.takes cl ignoreCase) then [] else [c]
  | notBefore s, c => if c.rest.head?.any (s.takes cl ignoreCase) then [] else [c]

end Semantics

/-- A repetition is tried with the longest run first. -/
example (cl : Classes) :
    (Pattern.many (.noneOf 'x') 1 none).outcomes cl false ⟨none,['4', '2', 'x'],[]⟩ =
      [⟨some '2',['x'],[]⟩, ⟨some '4',['2', 'x'],[]⟩] := by
  rw [Pattern.outcomes]
  rfl

def firstMatch (m : Cursor → List Cursor) : Option Char → Text → Option Cursor
  | previous, [] => (m ⟨previous,[],[]⟩).head?
  | previous, x :: rest => (m ⟨previous,x :: rest,[]⟩).head?.or (firstMatch m (some x) rest)

/-- The text of group `n` in the leftmost match. -/
def captures (m : Cursor → List Cursor) (n : ℕ) (text : Text) : Option Text :=
  (firstMatch m none text).bind fun d => d.groups.lookup n

/-- Deletes every match, from left to right; `skip` characters of the current match
are still to be deleted. -/
def removeFrom (m : Cursor → List Cursor) : ℕ → Option Char → Text → Text
  | _, _, [] => []
  | skip + 1, _, x :: rest => removeFrom m skip (some x) rest
  | 0, previous, x :: rest =>
      match (m ⟨previous,x :: rest,[]⟩).head? with
      | none => x :: removeFrom m 0 (some x) rest
      | some d =>
          match rest.length + 1 - d.rest.length with
          | 0 => x :: removeFrom m 0 (some x) rest
          | taken + 1 => removeFrom m taken (some x) rest

def removeAll (m : Cursor → List Cursor) (text : Text) : Text :=
  removeFrom m 0 none text

section Lemmas

variable {cl : Classes} {ignoreCase : Bool}

theorem any_isWord {x : Option Char}
    (h : x.any (CharSet.digit.takes cl ignoreCase) = true) : x.any cl.isWord = true := by
  obtain ⟨y,hy,hd⟩ := (Option.any_eq_true _ _).mp h
  exact (Option.any_eq_true _ _).mpr ⟨y,hy,cl.isWord_of_isDigit y hd⟩

variable {p : Pattern} {c : Cursor} {s : CharSet}

theorem outcomes_seq_congr {q q' : Pattern}
    (h : ∀ d ∈ p.outcomes cl ignoreCase c, q.outcomes cl ignoreCase d = q'.outcomes cl ignoreCase d) :
    (Pattern.seq p q).outcomes cl ignoreCase c = (Pattern.seq p q').outcomes cl ignoreCase c := by
  simp only [Pattern.outcomes]
  exact flatMap_congr h

theorem outcomes_alt_congr {p' q q' : Pattern}
    (hp : p.outcomes cl ignoreCase = p'.outcomes cl ignoreCase)
    (hq : q.outcomes cl ignoreCase = q'.outcomes cl ignoreCase) :
    (Pattern.alt p q).outcomes cl ignoreCase = (Pattern.alt p' q').outcomes cl ignoreCase := by
  funext c
  simp only [Pattern.outcomes, hp, hq]

theorem reach_le (cl : Classes) (ignoreCase : Bool) (s : CharSet) (most : Option ℕ) (c : Cursor) :
    reach cl ignoreCase s most c ≤ (c.rest.takeWhile (s.takes cl ignoreCase)).length := by
  cases most with
  | none => exact Nat.le_refl _
  | some m => exact Nat.min_le_left _ _

theorem mem_outcomes_many {least : ℕ} {most : Option ℕ} {d : Cursor}
    (h : d ∈ (Pattern.many s least most).outcomes cl ignoreCase c) :
    ∃ k, least ≤ k ∧ k ≤ (c.rest.takeWhile (s.takes cl ignoreCase)).length ∧
      (∀ m ∈ most, k ≤ m) ∧ d = c.advance k := by
  simp only [Pattern.outcomes, mem_map, mem_reverse, mem_filter, mem_range,
    decide_eq_true_eq] at h
  obtain ⟨k,⟨hk,hleast⟩,rfl⟩ := h
  have hreach := reach_le cl ignoreCase s most c
  refine ⟨k,hleast,by omega,?_,rfl⟩
  rintro m rfl
  have hmost : reach cl ignoreCase s (some m) c ≤ m := Nat.min_le_right _ _
  omega

/-- A prefix no longer than the leading run of a set lies in the set. -/
theorem take_of_le_takeWhile {f : Char → Bool} {text : Text} {k : ℕ}
    (hk : k ≤ (text.takeWhile f).length) : ∀ x ∈ text.take k, f x = true := by
  induction text generalizing k with
  | nil => simp
  | cons y rest ih =>
      intro x hx
      cases k with
      | zero => simp at hx
      | succ k =>
          by_cases hy : f y = true
          · rw [takeWhile_cons_of_pos hy] at hk
            rw [take_succ_cons, mem_cons] at hx
            rcases hx with rfl | hx
            · exact hy
            · exact ih (by simpa using hk) x hx
          · rw [takeWhile_cons_of_neg hy] at hk
            simp at hk

/-- A pattern that takes nothing but after seeing a character of `s` ahead. -/
def Begins (cl : Classes) (ignoreCase : Bool) (s : CharSet) (p : Pattern) : Prop :=
  ∀ c, p.outcomes cl ignoreCase c ≠ [] → c.rest.head?.any (s.takes cl ignoreCase) = true

/-- A pattern that leaves the cursor after a character of `s`. -/
def Ends (cl : Classes) (ignoreCase : Bool) (s : CharSet) (p : Pattern) : Prop :=
  ∀ c, ∀ d ∈ p.outcomes cl ignoreCase c, d.previous.any (s.takes cl ignoreCase) = true

theorem begins_many (s : CharSet) {least : ℕ} (most : Option ℕ) (h : 0 < least) :
    Begins cl ignoreCase s (.many s least most) := by
  intro c hc
  obtain ⟨d,hd⟩ := exists_mem_of_ne_nil _ hc
  obtain ⟨k,hleast,hk,-,-⟩ := mem_outcomes_many hd
  cases hrest : c.rest with
  | nil => simp [hrest] at hk; omega
  | cons x rest =>
      by_cases hx : s.takes cl ignoreCase x = true
      · simp [hx]
      · rw [hrest, takeWhile_cons_of_neg hx] at hk
        simp at hk
        omega

theorem Begins.group (h : Begins cl ignoreCase s p) (n : ℕ) :
    Begins cl ignoreCase s (.group n p) := by
  intro c hc
  apply h c
  intro hnil
  simp [Pattern.outcomes, hnil] at hc

theorem Begins.seq (h : Begins cl ignoreCase s p) (q : Pattern) :
    Begins cl ignoreCase s (.seq p q) := by
  intro c hc
  apply h c
  intro hnil
  simp [Pattern.outcomes, hnil] at hc

theorem ends_many (s : CharSet) {least : ℕ} (most : Option ℕ) (h : 0 < least) :
    Ends cl ignoreCase s (.many s least most) := by
  intro c d hd
  obtain ⟨k,hleast,hk,-,rfl⟩ := mem_outcomes_many hd
  have hlen : k ≤ c.rest.length :=
    Nat.le_trans hk (List.takeWhile_prefix _).length_le
  have hne : c.rest.take k ≠ [] := by
    intro hnil
    have : (c.rest.take k).length = 0 := by rw [hnil]; rfl
    rw [length_take, Nat.min_eq_left hlen] at this
    omega
  have hlast := take_of_le_takeWhile hk _ (getLast_mem hne)
  simp [Cursor.advance, getLast?_eq_some_getLast hne, hlast]

theorem Ends.group (h : Ends cl ignoreCase s p) (n : ℕ) :
    Ends cl ignoreCase s (.group n p) := by
  intro c d hd
  simp only [Pattern.outcomes, mem_map] at hd
  obtain ⟨e,he,rfl⟩ := hd
  exact h c e he

/-- Before a digit, a word boundary asserts that no word character stands behind. -/
theorem outcomes_wordBoundary_before
    (h : c.rest.head?.any (CharSet.digit.takes cl ignoreCase) = true) :
    Pattern.wordBoundary.outcomes cl ignoreCase c =
      (Pattern.notAfter .word).outcomes cl ignoreCase c := by
  have hword := any_isWord h
  by_cases hprevious : c.previous.any cl.isWord = true
  · rw [Pattern.outcomes, if_pos (hprevious.trans hword.symm)]
    exact (if_pos hprevious).symm
  · rw [Pattern.outcomes, if_neg fun heq => hprevious (heq.trans hword)]
    exact (if_neg hprevious).symm

/-- After a digit, a word boundary asserts that no word character stands ahead. -/
theorem outcomes_wordBoundary_after (h : c.previous.any (CharSet.digit.takes cl ignoreCase) = true) :
    Pattern.wordBoundary.outcomes cl ignoreCase c =
      (Pattern.notBefore .word).outcomes cl ignoreCase c := by
  have hword := any_isWord h
  by_cases hahead : c.rest.head?.any cl.isWord = true
  · rw [Pattern.outcomes, if_pos (hword.trans hahead.symm)]
    exact (if_pos hahead).symm
  · rw [Pattern.outcomes, if_neg fun heq => hahead (heq.symm.trans hword)]
    exact (if_neg hahead).symm

theorem outcomes_wordBoundary_seq (h : Begins cl ignoreCase .digit p) :
    (Pattern.seq .wordBoundary p).outcomes cl ignoreCase =
      (Pattern.seq (.notAfter .word) p).outcomes cl ignoreCase := by
  funext c
  by_cases hp : p.outcomes cl ignoreCase c = []
  · simp only [Pattern.outcomes]
    split_ifs <;> simp [hp]
  · rw [Pattern.outcomes, outcomes_wordBoundary_before (h c hp)]
    rfl

theorem outcomes_seq_wordBoundary (h : Ends cl ignoreCase .digit p) :
    (Pattern.seq p .wordBoundary).outcomes cl ignoreCase =
      (Pattern.seq p (.notBefore .word)).outcomes cl ignoreCase := by
  funext c
  exact outcomes_seq_congr fun d hd => outcomes_wordBoundary_after (h c d hd)

theorem outcomes_seq_congr_right {q q' : Pattern}
    (h : q.outcomes cl ignoreCase = q'.outcomes cl ignoreCase) :
    (Pattern.seq p q).outcomes cl ignoreCase = (Pattern.seq p q').outcomes cl ignoreCase := by
  funext c
  exact outcomes_seq_congr fun d _ => by rw [h]

/-- Every group of the pattern is a run of characters of `s`. -/
def GroupsOf (s : CharSet) : Pattern → Prop
  | .group _ (.many t _ _) => t = s
  | .group _ _ => False
  | .seq p q => GroupsOf s p ∧ GroupsOf s q
  | .alt p q => GroupsOf s p ∧ GroupsOf s q
  | _ => True

def GroupsIn (f : Char → Bool) (c : Cursor) : Prop :=
  ∀ g ∈ c.groups, ∀ x ∈ g.2, f x = true

theorem groupsIn_outcomes (hp : GroupsOf s p) (hc : GroupsIn (s.takes cl ignoreCase) c) :
    ∀ d ∈ p.outcomes cl ignoreCase c, GroupsIn (s.takes cl ignoreCase) d := by
  induction p generalizing c with
  | one t =>
      intro d hd
      simp only [Pattern.outcomes] at hd
      split at hd
      · simp at hd
      · split_ifs at hd <;> simp at hd
        subst hd
        exact hc
  | many t least most =>
      intro d hd
      obtain ⟨k,-,-,-,rfl⟩ := mem_outcomes_many hd
      exact hc
  | group n q ih =>
      intro d hd
      cases q with
      | many t least most =>
          obtain rfl : t = s := hp
          simp only [Pattern.outcomes, mem_map] at hd
          obtain ⟨e,he,rfl⟩ := hd
          obtain ⟨k,-,hk,-,rfl⟩ := mem_outcomes_many (by
            simp only [Pattern.outcomes, mem_map]; exact he)
          have hlen : k ≤ c.rest.length := Nat.le_trans hk (List.takeWhile_prefix _).length_le
          intro g hg
          rcases mem_cons.mp hg with rfl | hg
          · have htaken : c.rest.length - (c.rest.drop k).length = k := by
              rw [length_drop]; omega
            simp only [Cursor.advance, htaken]
            exact take_of_le_takeWhile hk
          · exact hc g hg
      | _ => exact absurd hp (by simp [GroupsOf])
  | seq p q ihp ihq =>
      intro d hd
      simp only [Pattern.outcomes, mem_flatMap] at hd
      obtain ⟨e,he,hd⟩ := hd
      exact ihq hp.2 (ihp hp.1 hc e he) d hd
  | alt p q ihp ihq =>
      intro d hd
      simp only [Pattern.outcomes, mem_append] at hd
      rcases hd with hd | hd
      · exact ihp hp.1 hc d hd
      · exact ihq hp.2 hc d hd
  | wordBoundary | notAfter t | notBefore t =>
      intro d hd
      simp only [Pattern.outcomes] at hd
      split_ifs at hd <;> simp at hd
      exact hd ▸ hc

theorem firstMatch_outcome {m : Cursor → List Cursor} {previous : Option Char} {text : Text}
    {d : Cursor} (h : firstMatch m previous text = some d) :
    ∃ c, c.groups = [] ∧ d ∈ m c := by
  induction text generalizing previous with
  | nil => exact ⟨_,rfl,mem_of_mem_head? h⟩
  | cons x rest ih =>
      rw [firstMatch, Option.or_eq_some_iff] at h
      rcases h with h | ⟨-,h⟩
      · exact ⟨_,rfl,mem_of_mem_head? h⟩
      · exact ih h

/-- A captured group lies in the set that all groups of the pattern are runs of. -/
theorem captures_subset (hp : GroupsOf s p) {n : ℕ} {text t : Text}
    (h : captures (p.outcomes cl ignoreCase) n text = some t) :
    ∀ x ∈ t, s.takes cl ignoreCase x = true := by
  rw [captures, Option.bind_eq_some_iff] at h
  obtain ⟨d,hd,hlookup⟩ := h
  obtain ⟨c,hc,hmem⟩ := firstMatch_outcome hd
  have hgroups : GroupsIn (s.takes cl ignoreCase) d :=
    groupsIn_outcomes hp (by intro g hg; simp [hc] at hg) d hmem
  obtain ⟨l,r,hsplit,-⟩ := lookup_eq_some_iff.mp hlookup
  exact hgroups (n, t) (by rw [hsplit]; simp)

end Lemmas

end RinaDown.CharacterPatterns
