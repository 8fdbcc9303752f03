import Mathlib.Data.Set.Function

/-!
# Sequences of renames

A directory has files under names, each under one name only. A rename takes a file
to another name and replaces what is there. When files are renamed one after the
other, each arrives and nothing else is lost exactly if every name that a file goes
to is free, or was left before, and is not left afterwards.
-/

namespace RinaDown.RenameSequences
open List Option

variable {κ α : Type*}

/-- A file has one name. -/
structure Directory (κ α : Type*) where
  entry : κ → Option α
  single : ∀ {k k' x}, entry k = some x → entry k' = some x → k = k'

variable {d d' : Directory κ α} {k k' a b : κ} {x y : α}

theorem Directory.eq_of_entry (h : ∀ k, d.entry k = d'.entry k) : d = d' := by
  cases d
  cases d'
  cases funext h
  rfl

/-! ## Delivery -/

variable {m : κ × κ} {moves : List (κ × κ)}

/-- Every file that is moved is at its new name, and every other where it was. -/
def Delivers (d : Directory κ α) (moves : List (κ × κ)) (d' : Directory κ α) : Prop :=
  (∀ m ∈ moves, ∀ x, d.entry m.1 = some x → d'.entry m.2 = some x) ∧
  ∀ k, k ∉ moves.map Prod.fst → ∀ x, d.entry k = some x → d'.entry k = some x

/-- Each file goes to a name that is free or was left before, and that is not left after. -/
def Clear (d : Directory κ α) : List κ → List (κ × κ) → Prop
  | _, [] => True
  | before, m :: moves =>
    (d.entry m.1 = none ∨ m.1 = m.2 ∨
      (d.entry m.2 = none ∨ m.2 ∈ before) ∧ m.2 ∉ moves.map Prod.fst) ∧
    Clear d (m.1 :: before) moves

variable {before : List κ} {entry : κ → Option α}

theorem clear_cons : Clear d before (m :: moves) ↔
    (d.entry m.1 = none ∨ m.1 = m.2 ∨
      (d.entry m.2 = none ∨ m.2 ∈ before) ∧ m.2 ∉ moves.map Prod.fst) ∧
    Clear d (m.1 :: before) moves := Iff.rfl

theorem clear_congr {before' : List κ} (h : ∀ k, k ∈ before ↔ k ∈ before') :
    Clear d before moves ↔ Clear d before' moves := by
  induction moves generalizing before before' with
  | nil => exact Iff.rfl
  | cons m moves ih =>
    have hmem : ∀ k, k ∈ m.1 :: before ↔ k ∈ m.1 :: before' := fun k => by
      simp only [mem_cons, h k]
    rw [clear_cons, clear_cons, h m.2, ih hmem]

theorem clear_swap :
    Clear d (a :: b :: before) moves ↔ Clear d (b :: a :: before) moves :=
  clear_congr fun k => by simp only [mem_cons, or_left_comm]

theorem clear_of_absent (h : d.entry a = none) :
    Clear d (a :: before) moves ↔ Clear d before moves := by
  induction moves generalizing before with
  | nil => exact Iff.rfl
  | cons m moves ih =>
    have htarget : d.entry m.2 = none ∨ m.2 ∈ a :: before ↔ d.entry m.2 = none ∨ m.2 ∈ before := by
      by_cases ha : m.2 = a
      · exact iff_of_true (.inl (ha ▸ h)) (.inl (ha ▸ h))
      · rw [mem_cons, or_iff_right ha]
    rw [clear_cons, clear_cons, htarget, clear_swap, ih]

theorem clear_of_not_gone (h : a ∉ moves.map Prod.snd) :
    Clear d (a :: before) moves ↔ Clear d before moves := by
  induction moves generalizing before with
  | nil => exact Iff.rfl
  | cons m moves ih =>
    rw [map_cons, mem_cons, not_or] at h
    rw [clear_cons, clear_cons, mem_cons, or_iff_right (Ne.symm h.1), clear_swap, ih h.2]

/-- Where the first file does not move, all depends on the others. -/
theorem delivers_cons_of_rest (h : d.entry m.1 = none ∨ m.1 = m.2)
    (hsources : m.1 ∉ moves.map Prod.fst) :
    Delivers d (m :: moves) d' ↔ Delivers d moves d' := by
  constructor
  · rintro ⟨harrive,hstay⟩
    refine ⟨fun r hr => harrive r (mem_cons_of_mem m hr),?_⟩
    intro k hk x hx
    by_cases hkm : k = m.1
    · rcases h with hnone | hsame
      · rw [hkm, hnone] at hx
        cases hx
      · rw [hkm] at hx ⊢
        rw [hsame]
        exact harrive m mem_cons_self x hx
    · refine hstay k ?_ x hx
      rw [map_cons, mem_cons, not_or]
      exact ⟨hkm,hk⟩
  · rintro ⟨harrive,hstay⟩
    refine ⟨?_,?_⟩
    · intro r hr x hx
      rcases mem_cons.mp hr with rfl | hr
      · rcases h with hnone | hsame
        · rw [hnone] at hx
          cases hx
        · rw [← hsame]
          exact hstay r.1 hsources x hx
      · exact harrive r hr x hx
    · intro k hk x hx
      rw [map_cons, mem_cons, not_or] at hk
      exact hstay k hk.2 x hx

/-! ## Renames -/

variable [DecidableEq κ]

/-- The entries after a rename. Without a file of the first name nothing happens. -/
def renamed (entry : κ → Option α) (a b k : κ) : Option α :=
  if entry a = none ∨ k ≠ a ∧ k ≠ b then entry k
  else if k = b then entry a
  else none

theorem renamed_absent (h : entry a = none) :
    renamed entry a b k = entry k := if_pos (.inl h)

theorem renamed_other (ha : k ≠ a) (hb : k ≠ b) :
    renamed entry a b k = entry k := if_pos (.inr ⟨ha,hb⟩)

theorem renamed_target (h : entry a ≠ none) :
    renamed entry a b b = entry a := by
  unfold renamed
  rw [if_neg (fun hor => hor.elim h fun hand => hand.2 rfl), if_pos rfl]

theorem renamed_source (hab : a ≠ b) : renamed entry a b a = none := by
  unfold renamed
  by_cases h : entry a = none
  · rw [if_pos (.inl h), h]
  · rw [if_neg (fun hor => hor.elim h fun hand => hand.1 rfl), if_neg hab]

/-- A file that is there after a rename was at the first name, or is where it was. -/
theorem renamed_some (h : renamed entry a b k = some x) :
    k = b ∧ entry a = some x ∨ (k ≠ b ∨ entry a = none) ∧ entry k = some x := by
  unfold renamed at h
  split_ifs at h with hsame htarget
  · rcases hsame with hnone | ⟨-,hb⟩
    · exact .inr ⟨.inr hnone,h⟩
    · exact .inr ⟨.inl hb,h⟩
  · exact .inl ⟨htarget,h⟩

theorem renamed_single (d : Directory κ α) (h : renamed d.entry a b k = some x)
    (h' : renamed d.entry a b k' = some x) : k = k' := by
  have hat : ∀ {j}, renamed d.entry a b j = some x → d.entry a = some x → j = b := by
    intro j hj ha
    rcases renamed_some hj with ⟨hjb,-⟩ | ⟨hjb | hnone,hx⟩
    · exact hjb
    · cases d.single hx ha
      rw [renamed_source hjb] at hj
      cases hj
    · rw [hnone] at ha
      cases ha
  rcases renamed_some h with ⟨rfl,ha⟩ | ⟨hk,hx⟩
  · exact (hat h' ha).symm
  · rcases renamed_some h' with ⟨rfl,ha⟩ | ⟨-,hx'⟩
    · exact hat h ha
    · exact d.single hx hx'

def rename (d : Directory κ α) (a b : κ) : Directory κ α :=
  ⟨renamed d.entry a b,renamed_single d⟩

theorem rename_absent (h : d.entry a = none) : rename d a b = d :=
  Directory.eq_of_entry fun _ => renamed_absent h

theorem rename_self : rename d a a = d := by
  refine Directory.eq_of_entry fun k => ?_
  by_cases h : d.entry a = none
  · exact renamed_absent h
  · by_cases hk : k = a
    · rw [hk]
      exact renamed_target h
    · exact renamed_other hk hk

theorem rename_rename (h : d.entry b = none) : rename (rename d a b) b a = d := by
  by_cases ha : d.entry a = none
  · rw [rename_absent ha, rename_absent h]
  · refine Directory.eq_of_entry fun k => ?_
    have hmoved : (rename d a b).entry b = d.entry a := renamed_target ha
    have hpresent : (rename d a b).entry b ≠ none := fun hnone => ha (hmoved.symm.trans hnone)
    by_cases hka : k = a
    · rw [hka]
      exact (renamed_target hpresent).trans hmoved
    · by_cases hkb : k = b
      · rw [hkb] at hka ⊢
        exact (renamed_source hka).trans h.symm
      · exact (renamed_other hkb hka).trans (renamed_other hka hkb)

theorem rename_lost (ha : d.entry a ≠ none) (hab : a ≠ b) (hb : d.entry b = some x) :
    (rename d a b).entry k ≠ some x := by
  intro h
  rcases renamed_some h with ⟨-,hx⟩ | ⟨hk,hx⟩
  · exact hab (d.single hx hb)
  · exact hk.elim (fun hkb => hkb (d.single hx hb)) ha

/-! ## Sequences -/

def renameAll (d : Directory κ α) (moves : List (κ × κ)) : Directory κ α :=
  moves.foldl (fun d m => rename d m.1 m.2) d

theorem renameAll_cons : renameAll d (m :: moves) = renameAll (rename d m.1 m.2) moves := rfl

theorem renameAll_lost (h : ∀ k, d.entry k ≠ some x) : (renameAll d moves).entry k ≠ some x := by
  induction moves generalizing d with
  | nil => exact h k
  | cons m moves ih =>
    refine ih fun k hk => ?_
    rcases renamed_some hk with ⟨-,hx⟩ | ⟨-,hx⟩
    · exact h _ hx
    · exact h _ hx

theorem renameAll_left (hout : k ∉ moves.map Prod.snd)
    (h : d.entry k = none ∨ k ∈ moves.map Prod.fst) : (renameAll d moves).entry k = none := by
  induction moves generalizing d with
  | nil => exact h.resolve_right not_mem_nil
  | cons m moves ih =>
    rw [map_cons, mem_cons, not_or] at hout
    refine ih hout.2 ?_
    by_cases hk : k = m.1
    · subst hk
      exact .inl (renamed_source hout.1)
    · rcases h with hnone | hmem
      · exact .inl ((renamed_other hk hout.1).trans hnone)
      · rw [map_cons] at hmem
        exact .inr (mem_of_ne_of_mem hk hmem)

theorem renameAll_stays (hout : k ∉ moves.map Prod.fst) (hk : d.entry k = some x)
    (h : (renameAll d moves).entry k' = some x) : k' = k := by
  induction moves generalizing d with
  | nil => exact d.single h hk
  | cons m moves ih =>
    rw [map_cons, mem_cons, not_or] at hout
    by_cases hb : k = m.2
    · by_cases ha : d.entry m.1 = none
      · refine ih hout.2 ?_ h
        exact (renamed_absent ha).trans hk
      · rw [hb] at hk
        have hlost : ∀ j, (rename d m.1 m.2).entry j ≠ some x := fun j =>
          rename_lost ha (fun hab => hout.1 (hb.trans hab.symm)) hk
        exact absurd h (renameAll_lost (d := rename d m.1 m.2) hlost)
    · exact ih hout.2 ((renamed_other hout.1 hb).trans hk) h

/-! ## Where sequences deliver -/

/-- A rename to a name that is not left and not gone to any more makes the name before it
one that was left before. -/
theorem clear_rename (hsources : a ∉ moves.map Prod.fst) (hleft : b ∉ moves.map Prod.fst)
    (hgone : b ∉ moves.map Prod.snd) :
    Clear (rename d a b) before moves ↔ Clear d (a :: before) moves := by
  induction moves generalizing before with
  | nil => exact Iff.rfl
  | cons m moves ih =>
    simp only [map_cons, mem_cons, not_or] at hsources hleft hgone
    have hsource : (rename d a b).entry m.1 = d.entry m.1 :=
      renamed_other (Ne.symm hsources.1) (Ne.symm hleft.1)
    have htarget : (rename d a b).entry m.2 = none ∨ m.2 ∈ before ↔
        d.entry m.2 = none ∨ m.2 ∈ a :: before := by
      by_cases ha : m.2 = a
      · have hfree : (rename d a b).entry m.2 = none := by
          rw [ha]
          exact renamed_source (fun hab => hgone.1 (hab.symm.trans ha.symm))
        exact iff_of_true (.inl hfree) (.inr (ha ▸ mem_cons_self))
      · rw [show (rename d a b).entry m.2 = d.entry m.2 from
          renamed_other ha (Ne.symm hgone.1), mem_cons, or_iff_right ha]
    rw [clear_cons, clear_cons, hsource, htarget, ih hsources.2 hleft.2 hgone.2, clear_swap]

theorem delivers_rename {m : κ × κ} (hfree : d.entry m.2 = none) (hleft : m.2 ∉ moves.map Prod.fst)
    (hsources : m.1 ∉ moves.map Prod.fst) (hpresent : d.entry m.1 ≠ none) :
    Delivers d (m :: moves) d' ↔ Delivers (rename d m.1 m.2) moves d' := by
  have hsame : ∀ r ∈ moves, (rename d m.1 m.2).entry r.1 = d.entry r.1 := by
    intro r hr
    have hmem := mem_map_of_mem (f := Prod.fst) hr
    exact renamed_other (fun h => hsources (h ▸ hmem)) (fun h => hleft (h ▸ hmem))
  have hmoved : (rename d m.1 m.2).entry m.2 = d.entry m.1 := renamed_target hpresent
  constructor
  · rintro ⟨harrive,hstay⟩
    refine ⟨?_,?_⟩
    · intro r hr x hx
      rw [hsame r hr] at hx
      exact harrive r (mem_cons_of_mem m hr) x hx
    · intro k hk x hx
      rcases renamed_some hx with ⟨rfl,hsource⟩ | ⟨-,hx'⟩
      · exact harrive m mem_cons_self x hsource
      · refine hstay k ?_ x hx'
        rw [map_cons, mem_cons, not_or]
        refine ⟨?_,hk⟩
        rintro rfl
        by_cases hab : m.1 = m.2
        · rw [hab, hfree] at hx'
          cases hx'
        · rw [show (rename d m.1 m.2).entry m.1 = none from renamed_source hab] at hx
          cases hx
  · rintro ⟨harrive,hstay⟩
    refine ⟨?_,?_⟩
    · intro r hr x hx
      rcases mem_cons.mp hr with rfl | hr
      · exact hstay r.2 hleft x (hmoved.trans hx)
      · exact harrive r hr x ((hsame r hr).trans hx)
    · intro k hk x hx
      rw [map_cons, mem_cons, not_or] at hk
      refine hstay k hk.2 x ?_
      have hkb : k ≠ m.2 := by
        rintro rfl
        rw [hfree] at hx
        cases hx
      exact (renamed_other hk.1 hkb).trans hx

/-- A first file that moves arrives only at a free name that is not left afterwards. -/
theorem free_of_delivers (hpresent : d.entry m.1 ≠ none) (hab : m.1 ≠ m.2)
    (hgone : m.2 ∉ moves.map Prod.snd)
    (h : Delivers d (m :: moves) (renameAll (rename d m.1 m.2) moves)) :
    d.entry m.2 = none ∧ m.2 ∉ moves.map Prod.fst := by
  obtain ⟨harrive,hstay⟩ := h
  constructor
  · by_contra hbusy
    obtain ⟨y,hy⟩ := ne_none_iff_exists'.mp hbusy
    have hlost : ∀ k, (renameAll (rename d m.1 m.2) moves).entry k ≠ some y := fun k =>
      renameAll_lost fun k => rename_lost hpresent hab hy
    by_cases hmem : m.2 ∈ moves.map Prod.fst
    · obtain ⟨r,hr,hr2⟩ := mem_map.mp hmem
      exact hlost r.2 (harrive r (mem_cons_of_mem m hr) y (hr2 ▸ hy))
    · refine hlost m.2 (hstay m.2 ?_ y hy)
      rw [map_cons, mem_cons, not_or]
      exact ⟨Ne.symm hab,hmem⟩
  · intro hmem
    obtain ⟨x,hx⟩ := ne_none_iff_exists'.mp hpresent
    have hat := harrive m mem_cons_self x hx
    rw [renameAll_left hgone (.inr hmem)] at hat
    cases hat

theorem rename_rest (h : d.entry m.1 = none ∨ m.1 = m.2) : rename d m.1 m.2 = d := by
  rcases h with hnone | heq
  · exact rename_absent hnone
  · rw [← heq]
    exact rename_self

/-- Renames one after the other deliver every file exactly if all goes to free names. -/
theorem delivers_iff (hsources : (moves.map Prod.fst).Nodup)
    (htargets : (moves.map Prod.snd).Nodup) :
    Delivers d moves (renameAll d moves) ↔ Clear d [] moves := by
  induction moves generalizing d with
  | nil => exact iff_of_true ⟨nofun,fun _ _ _ hx => hx⟩ trivial
  | cons m moves ih =>
    rw [map_cons, nodup_cons] at hsources htargets
    rw [renameAll_cons]
    by_cases hrest : d.entry m.1 = none ∨ m.1 = m.2
    · have hclear : Clear d [m.1] moves ↔ Clear d [] moves := by
        rcases hrest with hnone | heq
        · exact clear_of_absent hnone
        · exact clear_of_not_gone (heq ▸ htargets.1)
      rw [rename_rest hrest, delivers_cons_of_rest hrest hsources.1, ih hsources.2 htargets.2]
      rw [clear_cons, hclear]
      exact ⟨fun h => ⟨hrest.imp_right .inl,h⟩,And.right⟩
    · rw [not_or] at hrest
      obtain ⟨hpresent,hab⟩ := hrest
      constructor
      · intro h
        obtain ⟨hfree,hleft⟩ := free_of_delivers hpresent hab htargets.1 h
        rw [delivers_rename hfree hleft hsources.1 hpresent, ih hsources.2 htargets.2,
          clear_rename hsources.1 hleft htargets.1] at h
        exact ⟨.inr (.inr ⟨.inl hfree,hleft⟩),h⟩
      · rintro ⟨hhead,h⟩
        obtain ⟨hfree,hleft⟩ := (hhead.resolve_left hpresent).resolve_left hab
        rw [← clear_rename hsources.1 hleft htargets.1, ← ih hsources.2 htargets.2] at h
        have hnone := hfree.resolve_right not_mem_nil
        exact (delivers_rename hnone hleft hsources.1 hpresent).mpr h

/-! ## Nothing moved -/

/-- No file comes back to the name that it left. -/
def NoReturn : List (κ × κ) → Prop
  | [] => True
  | m :: moves => (m.1 ∉ moves.map Prod.snd ∨ m.2 ∉ moves.map Prod.fst) ∧ NoReturn moves

omit [DecidableEq κ] in
theorem NoReturn.sublist {moves' : List (κ × κ)} (h : NoReturn moves)
    (hsub : List.Sublist moves' moves) :
    NoReturn moves' := by
  induction hsub with
  | slnil => exact h
  | cons m hsub ih => exact ih h.2
  | cons_cons m hsub ih =>
    have hfst := (hsub.map Prod.fst).subset
    have hsnd := (hsub.map Prod.snd).subset
    exact ⟨h.1.imp (fun hm hmem => hm (hsnd hmem)) (fun hm hmem => hm (hfst hmem)),ih h.2⟩

/-- The directory is as before exactly if no file was moved. -/
theorem renameAll_eq_iff (hback : NoReturn moves) :
    renameAll d moves = d ↔ ∀ m ∈ moves, d.entry m.1 = none ∨ m.1 = m.2 := by
  induction moves with
  | nil => exact iff_of_true rfl nofun
  | cons m moves ih =>
    rw [renameAll_cons, forall_mem_cons]
    by_cases hrest : d.entry m.1 = none ∨ m.1 = m.2
    · rw [rename_rest hrest, ih hback.2, and_iff_right hrest]
    · refine iff_of_false (fun h => ?_) (fun h => hrest h.1)
      rw [not_or] at hrest
      obtain ⟨x,hx⟩ := ne_none_iff_exists'.mp hrest.1
      have hsource : (rename d m.1 m.2).entry m.1 = none := renamed_source hrest.2
      have htarget : (rename d m.1 m.2).entry m.2 = some x := (renamed_target hrest.1).trans hx
      rcases hback.1 with hgone | hleft
      · have hnone := renameAll_left hgone (.inl hsource)
        rw [h, hx] at hnone
        cases hnone
      · have hat : (renameAll (rename d m.1 m.2) moves).entry m.1 = some x := by rw [h, hx]
        exact hrest.2 (renameAll_stays hleft htarget hat)

end RinaDown.RenameSequences
