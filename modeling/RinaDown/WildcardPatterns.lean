import Mathlib.Data.List.Infix

/-!
# Patterns with a wildcard

A pattern describes the lists that are obtained from it when every wildcard is replaced with
some list. They are the lists in which the pieces between the wildcards occur in order, the
first at the beginning and the last at the end. A list can be searched for the pieces from
left to right: the first place of a piece leaves the most for the others.
-/

namespace RinaDown.WildcardPatterns
open List

variable {α : Type*}

/-- Every wildcard of the pattern is replaced with some list. -/
inductive Expands (star : α) : List α → List α → Prop
  | nil : Expands star [] []
  | literal {c : α} {pattern text : List α} (hne : c ≠ star) (h : Expands star pattern text) :
      Expands star (c :: pattern) (c :: text)
  | wildcard (gap : List α) {pattern text : List α} (h : Expands star pattern text) :
      Expands star (star :: pattern) (gap ++ text)

/-- The pieces occur in order, each after a gap, and the last one at the end. -/
def Gaps : List (List α) → List α → Prop
  | [], text => text = []
  | piece :: pieces, text => ∃ gap rest, text = gap ++ (piece ++ rest) ∧ Gaps pieces rest

/-- The pieces occur in order, the first one at the beginning and the last one at the end. -/
def Fits : List (List α) → List α → Prop
  | [], _ => False
  | piece :: pieces, text => ∃ rest, text = piece ++ rest ∧ Gaps pieces rest

variable {star c : α} {piece : List α} {pieces : List (List α)} {pattern text rest gap : List α}

theorem gaps_cons_iff : Gaps (piece :: pieces) text ↔
    ∃ gap rest, text = gap ++ rest ∧ Fits (piece :: pieces) rest := by
  constructor
  · rintro ⟨gap,rest,rfl,h⟩
    exact ⟨gap,piece ++ rest,rfl,rest,rfl,h⟩
  · rintro ⟨gap,_,rfl,rest,rfl,h⟩
    exact ⟨gap,rest,rfl,h⟩

theorem gaps_singleton_iff : Gaps [piece] text ↔ piece <:+ text := by
  constructor
  · rintro ⟨gap,_,rfl,rfl⟩
    rw [append_nil]
    exact suffix_append gap piece
  · rintro ⟨gap,rfl⟩
    exact ⟨gap,[],by rw [append_nil],rfl⟩

theorem Gaps.append_left (h : Gaps pieces text) (hne : pieces ≠ []) (gap : List α) :
    Gaps pieces (gap ++ text) := by
  cases pieces with
  | nil => exact absurd rfl hne
  | cons piece pieces =>
    obtain ⟨gap',rest,rfl,hrest⟩ := h
    exact ⟨gap ++ gap',rest,(append_assoc _ _ _).symm,hrest⟩

theorem gaps_nil_cons_iff (hne : pieces ≠ []) : Gaps ([] :: pieces) text ↔ Gaps pieces text := by
  constructor
  · rintro ⟨gap,rest,rfl,h⟩
    exact h.append_left hne gap
  · intro h
    exact ⟨[],text,rfl,h⟩

/-- The piece does not occur before the end of the gap. -/
def IsFirst (gap piece rest : List α) : Prop :=
  ∀ gap' rest', gap ++ (piece ++ rest) = gap' ++ (piece ++ rest') → gap.length ≤ gap'.length

/-- Nothing is lost if the first place of a piece is taken. -/
theorem gaps_cons_of_isFirst (hfirst : IsFirst gap piece rest) (hne : pieces ≠ []) :
    Gaps (piece :: pieces) (gap ++ (piece ++ rest)) ↔ Gaps pieces rest := by
  constructor
  · rintro ⟨gap',rest',heq,h⟩
    have hle := hfirst gap' rest' heq
    have hlength := congrArg List.length heq
    simp only [length_append] at hlength
    have hsuffix : rest' <:+ rest := by
      have hleft : rest' <:+ gap ++ (piece ++ rest) := by
        rw [heq]
        exact (suffix_append _ _).trans (suffix_append _ _)
      have hright : rest <:+ gap ++ (piece ++ rest) :=
        (suffix_append _ _).trans (suffix_append _ _)
      exact suffix_of_suffix_length_le hleft hright (by omega)
    obtain ⟨skipped,rfl⟩ := hsuffix
    exact h.append_left hne skipped
  · intro h
    exact ⟨gap,rest,rfl,h⟩

theorem fits_cons_head_iff : Fits ((c :: piece) :: pieces) text ↔
    ∃ rest, text = c :: rest ∧ Fits (piece :: pieces) rest := by
  constructor
  · rintro ⟨rest,rfl,h⟩
    exact ⟨piece ++ rest,rfl,rest,rfl,h⟩
  · rintro ⟨_,rfl,rest,rfl,h⟩
    exact ⟨rest,rfl,h⟩

theorem expands_cons_of_ne (hne : c ≠ star) : Expands star (c :: pattern) text ↔
    ∃ rest, text = c :: rest ∧ Expands star pattern rest := by
  constructor
  · rintro (_ | ⟨-,h⟩ | ⟨gap,h⟩)
    · exact ⟨_,rfl,h⟩
    · exact absurd rfl hne
  · rintro ⟨rest,rfl,h⟩
    exact .literal hne h

theorem expands_cons_self : Expands star (star :: pattern) text ↔
    ∃ gap rest, text = gap ++ rest ∧ Expands star pattern rest := by
  constructor
  · rintro (_ | ⟨hne,-⟩ | ⟨gap,h⟩)
    · exact absurd rfl hne
    · exact ⟨gap,_,rfl,h⟩
  · rintro ⟨gap,rest,rfl,h⟩
    exact .wildcard gap h

theorem expands_iff_fits [DecidableEq α] :
    Expands star pattern text ↔ Fits (pattern.splitOn star) text := by
  induction pattern generalizing text with
  | nil =>
    rw [splitOn_nil]
    constructor
    · rintro ⟨⟩
      exact ⟨[],rfl,rfl⟩
    · rintro ⟨_,rfl,rfl⟩
      exact .nil
  | cons c pattern ih =>
    obtain ⟨piece,pieces,hsplit⟩ := exists_cons_of_ne_nil (splitOn_ne_nil star pattern)
    rw [splitOn_cons_eq_if_modifyHead]
    by_cases hc : c = star
    · subst hc
      simp only [hsplit] at ih
      rw [if_pos (beq_self_eq_true c), expands_cons_self, hsplit]
      simp only [Fits, nil_append, exists_eq_left', gaps_cons_iff]
      simp only [ih, Fits]
    · rw [if_neg (by simpa using hc), expands_cons_of_ne hc, hsplit, modifyHead_cons,
        fits_cons_head_iff]
      simp only [ih, hsplit]

/-- A pattern without a wildcard. -/
theorem expands_iff_eq (h : star ∉ pattern) : Expands star pattern text ↔ text = pattern := by
  induction pattern generalizing text with
  | nil =>
    constructor
    · rintro ⟨⟩
      rfl
    · rintro rfl
      exact .nil
  | cons c pattern ih =>
    rw [mem_cons, not_or] at h
    rw [expands_cons_of_ne (Ne.symm h.1)]
    simp only [ih h.2, exists_eq_right]

theorem Expands.map {f : α → α} (hstar : ∀ c, f c = star ↔ c = star)
    (h : Expands star pattern text) : Expands star (pattern.map f) (text.map f) := by
  induction h with
  | nil => exact .nil
  | literal hne _ ih => exact .literal (fun h => hne ((hstar _).mp h)) ih
  | wildcard gap _ ih =>
    rw [map_cons, (hstar star).mpr rfl, map_append]
    exact .wildcard _ ih

theorem Expands.exists_map {f : α → α} (hstar : ∀ c, f c = star ↔ c = star)
    (h : Expands star (pattern.map f) text) (hfixed : text.map f = text) :
    ∃ text', Expands star pattern text' ∧ text'.map f = text := by
  induction pattern generalizing text with
  | nil =>
    cases h
    exact ⟨[],.nil,rfl⟩
  | cons c pattern ih =>
    rw [map_cons] at h
    by_cases hc : f c = star
    · obtain rfl := (hstar c).mp hc
      rw [hc, expands_cons_self] at h
      obtain ⟨gap,rest,rfl,h⟩ := h
      rw [map_append] at hfixed
      obtain ⟨hgap,hrest⟩ := append_inj hfixed (length_map f)
      obtain ⟨text',hexpands,hmap⟩ := ih h hrest
      exact ⟨gap ++ text',.wildcard gap hexpands,by rw [map_append, hgap, hmap]⟩
    · rw [expands_cons_of_ne hc] at h
      obtain ⟨rest,rfl,h⟩ := h
      rw [map_cons] at hfixed
      obtain ⟨text',hexpands,hmap⟩ := ih h (cons.inj hfixed).2
      exact ⟨c :: text',.literal (fun heq => hc ((hstar c).mpr heq)) hexpands,
        by rw [map_cons, hmap]⟩

/-- Up to a map that spares the wildcard. -/
theorem expands_map_iff {f : α → α} (hstar : ∀ c, f c = star ↔ c = star)
    (hf : ∀ c, f (f c) = f c) : Expands star (pattern.map f) (text.map f) ↔
      ∃ text', Expands star pattern text' ∧ text'.map f = text.map f := by
  constructor
  · intro h
    refine h.exists_map hstar ?_
    rw [map_map]
    exact map_congr_left fun c _ => hf c
  · rintro ⟨text',h,heq⟩
    rw [← heq]
    exact h.map hstar

end RinaDown.WildcardPatterns
