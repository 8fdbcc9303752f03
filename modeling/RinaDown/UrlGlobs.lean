import RinaDown.AsciiCase
import RinaDown.TextSlices
import RinaDown.WildcardPatterns

/-!
# URL globs

A plugin says by patterns which URLs are for it. A pattern is split at its stars, and the URL
is searched for the parts from left to right.
-/

namespace RinaDown.UrlGlobs

open AsciiCase TextSlices WildcardPatterns List Option Bool

def toAsciiLowercase (s : String) : List Char := s.toList.map Char.toLower

/-- The search for the parts of a pattern with `n` parts, from the part `i` on. There is no
result if the text is cut inside a character. -/
def globLoop (text : List Char) (n : ℕ) : ℕ → ℕ → List (List Char) → Option Bool
  | _, _, [] => some true
  | i, pos, part :: parts =>
      if part.isEmpty then globLoop text n (i + 1) pos parts
      else if i = 0 then do
        let rest ← sliceFrom text pos
        if !part.isPrefixOf rest then some false
        else globLoop text n (i + 1) (pos + byteLen part) parts
      else if i = n - 1 then do
        let rest ← sliceFrom text pos
        if !part.isSuffixOf rest then some false
        else globLoop text n (i + 1) pos parts
      else do
        let rest ← sliceFrom text pos
        match find part rest with
        | some idx => globLoop text n (i + 1) (pos + (idx + byteLen part)) parts
        | none => some false

def globSegments (pattern text : List Char) : Option Bool :=
  if !pattern.contains '*' then some (pattern == text)
  else
    let parts := pattern.splitOn '*'
    globLoop text parts.length 0 0 parts

def urlGlobMatch (pattern url : String) : Option Bool :=
  globSegments (toAsciiLowercase pattern) (toAsciiLowercase url)

/-- There is a result, and it tells whether the proposition holds. -/
def Decides (result : Option Bool) (P : Prop) : Prop := ∃ b, result = some b ∧ (b = true ↔ P)

theorem decides_some {b : Bool} {P : Prop} (h : b = true ↔ P) : Decides (some b) P := ⟨b,rfl,h⟩

theorem Decides.congr {result : Option Bool} {P Q : Prop} (h : Decides result P) (hiff : P ↔ Q) :
    Decides result Q := by
  obtain ⟨b,hb,hP⟩ := h
  exact ⟨b,hb,hP.trans hiff⟩

/-- The URL is obtained, up to ASCII case, when every star of the pattern is replaced with some
text. -/
def Obtained (pattern url : String) : Prop :=
  ∃ text, Expands '*' pattern.toList text ∧ text.map Char.toLower = url.toList.map Char.toLower

variable {text rest part : List Char} {parts : List (List Char)} {n i pos : ℕ}

theorem globLoop_last (hslice : sliceFrom text pos = some rest) (hi : 0 < i) (hn : i + 1 = n) :
    Decides (globLoop text n i pos [part]) (Gaps [part] rest) := by
  rw [globLoop]
  by_cases hempty : part.isEmpty = true
  · rw [if_pos hempty]
    obtain rfl := isEmpty_iff.mp hempty
    exact decides_some (iff_of_true rfl (gaps_singleton_iff.mpr (nil_suffix)))
  · rw [if_neg hempty, if_neg (by omega), if_pos (by omega), hslice, bind_eq_bind,
      bind_some, gaps_singleton_iff, ← isSuffixOf_iff_suffix]
    cases part.isSuffixOf rest with
    | false => exact decides_some Iff.rfl
    | true => exact decides_some Iff.rfl

/-- After the first part, the parts of the pattern are found exactly if they occur in order. -/
theorem globLoop_later (hslice : sliceFrom text pos = some rest) (hi : 0 < i)
    (hn : i + parts.length = n) (hne : parts ≠ []) :
    Decides (globLoop text n i pos parts) (Gaps parts rest) := by
  induction parts generalizing i pos rest with
  | nil => exact absurd rfl hne
  | cons part parts ih =>
    rw [length_cons] at hn
    obtain rfl | hmore := eq_or_ne parts []
    · exact globLoop_last hslice hi hn
    · have hpos := length_pos_iff.mpr hmore
      rw [globLoop]
      by_cases hempty : part.isEmpty = true
      · rw [if_pos hempty]
        obtain rfl := isEmpty_iff.mp hempty
        exact (ih hslice (by omega) (by omega) hmore).congr (gaps_nil_cons_iff hmore).symm
      · rw [if_neg hempty, if_neg (by omega), if_neg (by omega), hslice, bind_eq_bind,
          bind_some]
        cases hfind : find part rest with
        | none =>
          refine decides_some (iff_of_false false_ne_true ?_)
          rintro ⟨gap,rest',heq,-⟩
          exact find_eq_none hfind gap rest' heq
        | some idx =>
          obtain ⟨gap,rest',rfl,rfl,hfirst⟩ := find_eq_some hfind
          have hnext : sliceFrom text (pos + (byteLen gap + byteLen part)) = some rest' := by
            rw [← Nat.add_assoc]
            exact sliceFrom_add (sliceFrom_add hslice)
          exact (ih hnext (by omega) (by omega) hmore).congr
            (gaps_cons_of_isFirst hfirst hmore).symm

theorem globLoop_decides (hne : parts ≠ []) :
    Decides (globLoop text (part :: parts).length 0 0 (part :: parts))
      (Fits (part :: parts) text) := by
  have hlength : 1 + parts.length = (part :: parts).length := Nat.add_comm _ _
  rw [globLoop]
  by_cases hempty : part.isEmpty = true
  · rw [if_pos hempty]
    obtain rfl := isEmpty_iff.mp hempty
    refine (globLoop_later sliceFrom_zero Nat.one_pos hlength hne).congr ?_
    simp only [Fits, nil_append, exists_eq_left']
  · rw [if_neg hempty, if_pos rfl, sliceFrom_zero, bind_eq_bind, bind_some]
    by_cases hbegins : part <+: text
    · obtain ⟨rest,rfl⟩ := hbegins
      have hnext : sliceFrom (part ++ rest) (0 + byteLen part) = some rest :=
        sliceFrom_add sliceFrom_zero
      rw [List.isPrefixOf_iff_prefix.mpr (prefix_append part rest)]
      refine (globLoop_later hnext Nat.one_pos hlength hne).congr ?_
      simp only [Fits, append_cancel_left_eq, exists_eq_left']
    · rw [eq_false_iff.mpr fun h => hbegins (List.isPrefixOf_iff_prefix.mp h)]
      refine decides_some (iff_of_false false_ne_true ?_)
      rintro ⟨rest,rfl,-⟩
      exact hbegins (prefix_append part rest)

theorem globSegments_decides (pattern text : List Char) :
    Decides (globSegments pattern text) (Expands '*' pattern text) := by
  rw [globSegments]
  by_cases hstar : '*' ∈ pattern
  · obtain ⟨front,back,rfl⟩ := append_of_mem hstar
    obtain ⟨part,parts,hfront⟩ := exists_cons_of_ne_nil (splitOn_ne_nil '*' front)
    have hsplit : (front ++ '*' :: back).splitOn '*' = part :: (parts ++ back.splitOn '*') := by
      rw [splitOn_append_cons_self, hfront, cons_append]
    have hmore : parts ++ back.splitOn '*' ≠ [] :=
      append_ne_nil_of_right_ne_nil _ (splitOn_ne_nil '*' back)
    rw [contains_iff_mem.mpr hstar]
    simp only [hsplit]
    refine (globLoop_decides hmore).congr ?_
    rw [← hsplit]
    exact expands_iff_fits.symm
  · rw [eq_false_iff.mpr fun h => hstar (contains_iff_mem.mp h)]
    refine decides_some ?_
    rw [expands_iff_eq hstar, beq_iff_eq, eq_comm]

/-- A URL is matched by a pattern exactly if it is obtained from the pattern, and every pattern
and URL give a result. -/
theorem urlGlobMatch_iff (pattern url : String) :
    ∃ b, urlGlobMatch pattern url = some b ∧ (b = true ↔ Obtained pattern url) := by
  have hstar (c : Char) : c.toLower = '*' ↔ c = '*' := toLower_eq_iff (by decide)
  exact (globSegments_decides _ _).congr (expands_map_iff hstar toLower_toLower)

example : urlGlobMatch "*://x.com/*é*" "HTTPS://X.com/aéb" = some true := by decide

end RinaDown.UrlGlobs
