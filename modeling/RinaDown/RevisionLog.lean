import Mathlib.Data.Nat.Basic
import Mathlib.Order.Basic

/-!
# Logs of revisions

A server that keeps one item for each key. It gives every item it accepts a
revision above all it gave before, refuses an item only if it holds the content
already, and answers with the items above a given revision.
-/

namespace RinaDown.RevisionLog
open List

variable {K D C : Type*}

structure Item (K D C : Type*) where
  key : K
  content : C
  version : ℕ
  origin : D
  revision : ℕ
  deriving DecidableEq

structure Log (K D C : Type*) where
  items : List (Item K D C)
  revision : ℕ
  deriving DecidableEq

/-- The answer to a client that has everything up to `r`. -/
def itemsSince (log : Log K D C) (r : ℕ) : List (Item K D C) :=
  log.items.filter (fun x => r < x.revision)

section Push
variable [DecidableEq K] [DecidableEq C]

/-- One pushed item; the stamp holds the revision and the version of an item that is accepted. -/
def offer (log : Log K D C) (origin : D) (key : K) (content : C) :
    Option (ℕ × ℕ) → Option (Log K D C)
  | some (revision, version) =>
    if log.revision < revision then
      some ⟨log.items.filter (fun x => x.key ≠ key) ++ [⟨key,content,version,origin,revision⟩],
        revision⟩
    else none
  | none =>
    if log.items.any (fun x => x.key = key ∧ x.content = content) then some log else none

def push (log : Log K D C) (origin : D) : List (K × C) → List (Option (ℕ × ℕ)) → Option (Log K D C)
  | [], [] => some log
  | (key, content) :: sent, stamp :: stamps =>
    match offer log origin key content stamp with
    | some next => push next origin sent stamps
    | none => none
  | _, _ => none

end Push

/-- One item for each key, none above the revision of the log. -/
structure WellFormed (log : Log K D C) : Prop where
  unique : ∀ x ∈ log.items, ∀ y ∈ log.items, x.key = y.key → x = y
  bounded : ∀ x ∈ log.items, x.revision ≤ log.revision

/-- What the items sent by `origin` can do to a log. -/
structure Pushed (log : Log K D C) (origin : D) (sent : List (K × C)) (next : Log K D C) :
    Prop where
  wellFormed : WellFormed next
  le : log.revision ≤ next.revision
  new : ∀ x ∈ next.items, x ∈ log.items ∨ x.origin = origin ∧ log.revision < x.revision
  holds : ∀ p ∈ sent, ∀ x ∈ next.items, x.key = p.1 → x.content = p.2
  others : ∀ x ∈ next.items, x.key ∉ sent.map Prod.fst → x ∈ log.items

theorem wellFormed_empty : WellFormed (⟨[],0⟩ : Log K D C) :=
  ⟨by simp,by simp⟩

variable {origin : D} {log next : Log K D C}

theorem Pushed.cons {mid : Log K D C} {p : K × C} {sent : List (K × C)}
    (hfirst : Pushed log origin [p] mid) (hrest : Pushed mid origin sent next)
    (hfresh : p.1 ∉ sent.map Prod.fst) : Pushed log origin (p :: sent) next := by
  refine ⟨hrest.wellFormed,hfirst.le.trans hrest.le,?_,?_,?_⟩
  · intro x hx
    rcases hrest.new x hx with hmid | ⟨ho,hlt⟩
    · exact hfirst.new x hmid
    · exact .inr ⟨ho,hfirst.le.trans_lt hlt⟩
  · intro q hq x hx hk
    rcases mem_cons.mp hq with rfl | hq
    · exact hfirst.holds q (mem_singleton_self q) x (hrest.others x hx (hk ▸ hfresh)) hk
    · exact hrest.holds q hq x hx hk
  · intro x hx hk
    rw [map_cons, mem_cons, not_or] at hk
    exact hfirst.others x (hrest.others x hx hk.2) (by simpa using hk.1)

variable [DecidableEq K]

theorem offer_accepted {key : K} (item : Item K D C) (hw : WellFormed log) (hkey : item.key = key)
    (hlt : log.revision < item.revision) :
    Pushed log item.origin [(key, item.content)]
      ⟨log.items.filter (fun x => x.key ≠ key) ++ [item],item.revision⟩ := by
  have hmem : ∀ x : Item K D C, x ∈ log.items.filter (fun x => x.key ≠ key) ++ [item] →
      (x ∈ log.items ∧ x.key ≠ key) ∨ x = item := by
    intro x hx
    simpa using hx
  refine ⟨⟨?_,?_⟩,hlt.le,?_,?_,?_⟩
  · intro x hx y hy hxy
    rcases hmem x hx with ⟨hx,hxk⟩ | rfl <;> rcases hmem y hy with ⟨hy,hyk⟩ | rfl
    · exact hw.unique x hx y hy hxy
    · exact absurd (hxy.trans hkey) hxk
    · exact absurd (hxy.symm.trans hkey) hyk
    · rfl
  · intro x hx
    rcases hmem x hx with ⟨hx,-⟩ | rfl
    · exact (hw.bounded x hx).trans hlt.le
    · exact le_rfl
  · intro x hx
    rcases hmem x hx with ⟨hx,-⟩ | rfl
    · exact .inl hx
    · exact .inr ⟨rfl,hlt⟩
  · intro p hp x hx hk
    rw [mem_singleton.mp hp] at hk ⊢
    rcases hmem x hx with ⟨-,hxk⟩ | rfl
    · exact absurd hk hxk
    · rfl
  · intro x hx hk
    rcases hmem x hx with ⟨hx,-⟩ | rfl
    · exact hx
    · exact absurd (by simp [hkey]) hk

variable [DecidableEq C]

theorem offer_refused {key : K} {content : C} (hw : WellFormed log)
    (hany : log.items.any (fun x => x.key = key ∧ x.content = content)) :
    Pushed log origin [(key, content)] log := by
  obtain ⟨y,hy,hyk,hyc⟩ : ∃ y ∈ log.items, y.key = key ∧ y.content = content := by
    simpa using hany
  refine ⟨hw,le_rfl,fun x hx => .inl hx,?_,fun x hx _ => hx⟩
  intro p hp x hx hk
  rw [mem_singleton.mp hp] at hk ⊢
  rw [hw.unique x hx y hy (hk.trans hyk.symm), hyc]

theorem offer_pushed {key : K} {content : C} {stamp : Option (ℕ × ℕ)} (hw : WellFormed log)
    (h : offer log origin key content stamp = some next) :
    Pushed log origin [(key, content)] next := by
  cases stamp with
  | some stamp =>
    by_cases hlt : log.revision < stamp.1
    · rw [offer, if_pos hlt] at h
      cases h
      exact offer_accepted ⟨key,content,stamp.2,origin,stamp.1⟩ hw rfl hlt
    · rw [offer, if_neg hlt] at h
      cases h
  | none =>
    by_cases hany : log.items.any (fun x => x.key = key ∧ x.content = content) = true
    · rw [offer, if_pos hany] at h
      cases h
      exact offer_refused hw hany
    · rw [offer, if_neg hany] at h
      cases h

/-- A push of distinct keys leaves the log with the pushed contents. -/
theorem push_pushed {sent : List (K × C)} {stamps : List (Option (ℕ × ℕ))} (hw : WellFormed log)
    (hn : (sent.map Prod.fst).Nodup) (h : push log origin sent stamps = some next) :
    Pushed log origin sent next := by
  induction sent generalizing log stamps with
  | nil =>
    cases stamps with
    | nil =>
      cases h
      exact ⟨hw,le_rfl,fun x hx => .inl hx,by simp,fun x hx _ => hx⟩
    | cons stamp stamps => cases h
  | cons p sent ih =>
    cases stamps with
    | nil => cases h
    | cons stamp stamps =>
      rw [push] at h
      cases hoffer : offer log origin p.1 p.2 stamp with
      | none =>
        rw [hoffer] at h
        cases h
      | some mid =>
        rw [hoffer] at h
        rw [map_cons, nodup_cons] at hn
        have hfirst := offer_pushed hw hoffer
        exact hfirst.cons (ih hfirst.wellFormed hn.2 h) hn.1

end RinaDown.RevisionLog
