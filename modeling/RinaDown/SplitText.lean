import Mathlib.Data.List.Infix

/-!
# Parts of a split list

A list is split at the elements with a property. Its parts are what lies between two of them, or
between one of them and an end of the list.
-/

namespace RinaDown.SplitText
open List

variable {α : Type*} {p : α → Bool}

/-- A part is free of the elements at which a list is split, and lies between two of them or the
ends of the list. -/
structure IsPart (p : α → Bool) (l seg r : List α) : Prop where
  free : ∀ x ∈ seg, p x = false
  left : ∀ x ∈ l.getLast?, p x = true
  right : ∀ x ∈ r.head?, p x = true

theorem IsPart.cons {l seg r : List α} {x : α} (h : IsPart p l seg r) (hl : l ≠ []) :
    IsPart p (x :: l) seg r where
  free := h.free
  left y hy := by
    rw [getLast?_cons_of_ne_nil hl] at hy
    exact h.left y hy
  right := h.right

theorem IsPart.tail {l seg r : List α} {x : α} (h : IsPart p (x :: l) seg r) :
    IsPart p l seg r where
  free := h.free
  left y hy := by
    cases l with
    | nil => cases hy
    | cons z l =>
        apply h.left y
        rw [getLast?_cons_of_ne_nil (cons_ne_nil z l)]
        exact hy
  right := h.right

theorem isPart_takeWhile (xs : List α) :
    IsPart p [] (xs.takeWhile fun x => !p x) (xs.dropWhile fun x => !p x) where
  free x hx := by
    have hfree := all_eq_true.mp all_takeWhile x hx
    rwa [Bool.not_eq_true'] at hfree
  left x hx := by cases hx
  right x hx := by
    have hhead := head?_dropWhile_not (fun x => !p x) xs
    rw [Option.mem_def.mp hx] at hhead
    simpa using hhead

theorem IsPart.eq_takeWhile {seg r : List α} (h : IsPart p [] seg r) :
    (seg ++ r).takeWhile (fun x => !p x) = seg := by
  induction seg with
  | nil =>
      cases r with
      | nil => rfl
      | cons x r => rw [nil_append, takeWhile_cons_of_neg (by simp [h.right x rfl])]
  | cons x seg ih =>
      have hrest : IsPart p [] seg r :=
        ⟨fun y hy => h.free y (mem_cons_of_mem x hy),h.left,h.right⟩
      rw [cons_append,
        takeWhile_cons_of_pos (by simp [h.free x mem_cons_self]), ih hrest]

/-- The parts after the first one. -/
theorem splitOnP_eq (xs : List α) :
    ∃ rest, xs.splitOnP p = (xs.takeWhile fun x => !p x) :: rest ∧
      ∀ seg, seg ∈ rest ↔ ∃ l r, l ≠ [] ∧ xs = l ++ seg ++ r ∧ IsPart p l seg r := by
  induction xs with
  | nil =>
      refine ⟨[],rfl,fun seg => ⟨fun h => absurd h not_mem_nil,?_⟩⟩
      rintro ⟨l,r,hl,heq,-⟩
      simp [hl] at heq
  | cons x xs ih =>
      obtain ⟨rest,hsplit,hrest⟩ := ih
      cases hx : p x with
      | true =>
          refine ⟨xs.splitOnP p,?_,fun seg => ⟨fun hseg => ?_,?_⟩⟩
          · rw [splitOnP_cons_eq_if_modifyHead, if_pos hx, takeWhile_cons_of_neg (by simp [hx])]
          · rw [hsplit] at hseg
            rcases mem_cons.mp hseg with rfl | hseg
            · refine ⟨[x],xs.dropWhile fun x => !p x,cons_ne_nil x [],?_,?_⟩
              · rw [append_assoc, takeWhile_append_dropWhile]
                rfl
              · refine ⟨(isPart_takeWhile xs).free,fun y hy => ?_,(isPart_takeWhile xs).right⟩
                cases hy
                exact hx
            · obtain ⟨l,r,hl,rfl,hpart⟩ := (hrest seg).mp hseg
              exact ⟨x :: l,r,cons_ne_nil x l,rfl,hpart.cons hl⟩
          · rintro ⟨l,r,hl,heq,hpart⟩
            rw [hsplit]
            cases l with
            | nil => exact absurd rfl hl
            | cons y l =>
                obtain ⟨rfl,rfl⟩ := cons.inj heq
                cases l with
                | nil =>
                    apply mem_cons.mpr
                    exact .inl hpart.tail.eq_takeWhile.symm
                | cons z l =>
                    apply mem_cons_of_mem
                    exact (hrest seg).mpr ⟨z :: l,r,cons_ne_nil z l,rfl,hpart.tail⟩
      | false =>
          refine ⟨rest,?_,fun seg => (hrest seg).trans ⟨?_,?_⟩⟩
          · rw [splitOnP_cons_eq_if_modifyHead, hsplit, if_neg (by simp [hx]),
              takeWhile_cons_of_pos (by simp [hx])]
            rfl
          · rintro ⟨l,r,hl,rfl,hpart⟩
            exact ⟨x :: l,r,cons_ne_nil x l,rfl,hpart.cons hl⟩
          · rintro ⟨l,r,hl,heq,hpart⟩
            cases l with
            | nil => exact absurd rfl hl
            | cons y l =>
                obtain ⟨rfl,rfl⟩ := cons.inj heq
                cases l with
                | nil =>
                    have hy := hpart.left x rfl
                    rw [hx] at hy
                    cases hy
                | cons z l => exact ⟨z :: l,r,cons_ne_nil z l,rfl,hpart.tail⟩

theorem mem_splitOnP {seg xs : List α} :
    seg ∈ xs.splitOnP p ↔ ∃ l r, xs = l ++ seg ++ r ∧ IsPart p l seg r := by
  obtain ⟨rest,hsplit,hrest⟩ := splitOnP_eq (p := p) xs
  rw [hsplit, mem_cons, hrest]
  constructor
  · rintro (rfl | ⟨l,r,-,heq,hpart⟩)
    · exact ⟨[],_,(takeWhile_append_dropWhile).symm,isPart_takeWhile xs⟩
    · exact ⟨l,r,heq,hpart⟩
  · rintro ⟨l,r,rfl,hpart⟩
    cases l with
    | nil => exact .inl hpart.eq_takeWhile.symm
    | cons x l => exact .inr ⟨x :: l,r,cons_ne_nil x l,rfl,hpart⟩

end RinaDown.SplitText
