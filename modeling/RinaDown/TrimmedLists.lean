import Mathlib.Data.Int.NatAbs
import Mathlib.Data.List.DropRight

/-!
# Trimmed and cut lists

Trimming drops the elements with a property from both ends of a list, and
cutting keeps the longest prefix whose weight stays within a budget.
-/

namespace RinaDown.TrimmedLists
open List

variable {α : Type*}

section Trim

variable (p : α → Bool)

def trim (l : List α) : List α := (l.dropWhile p).rdropWhile p

/-- No end of the list has the property. -/
structure Bare (l : List α) : Prop where
  head : ∀ a ∈ l.head?, p a = false
  last : ∀ a ∈ l.getLast?, p a = false

variable {p} {l : List α}

theorem bare_iff : Bare p l ↔
    l.head?.all (fun a => !p a) = true ∧ l.getLast?.all (fun a => !p a) = true := by
  simp only [Option.all_eq_true, Bool.not_eq_true']
  exact ⟨fun h => ⟨h.head,h.last⟩,fun h => ⟨h.1,h.2⟩⟩

instance : Decidable (Bare p l) := decidable_of_iff _ bare_iff.symm

theorem trim_within : trim p l <:+: l :=
  (List.rdropWhile_prefix p _).isInfix.trans (dropWhile_suffix p).isInfix

theorem rdropWhile_of_last (h : ∀ a ∈ l.getLast?, p a = false) : l.rdropWhile p = l := by
  rw [rdropWhile_eq_self_iff]
  intro hl
  simp [h _ (getLast?_eq_some_getLast hl)]

theorem dropWhile_of_head (h : ∀ a ∈ l.head?, p a = false) : l.dropWhile p = l := by
  cases l with
  | nil => rfl
  | cons a l => simp [h a rfl]

theorem getLast?_dropWhile_of_last (h : ∀ a ∈ l.getLast?, p a = false) :
    ∀ a ∈ (l.dropWhile p).getLast?, p a = false := by
  intro a ha
  obtain ⟨t,ht⟩ := dropWhile_suffix (l := l) p
  refine h a ?_
  rw [← ht, getLast?_append, Option.mem_def.mp ha]
  rfl

theorem bare_trim : Bare p (trim p l) := by
  constructor
  · intro a ha
    obtain ⟨t,ht⟩ := rdropWhile_prefix p (l.dropWhile p)
    have hkept : ((l.dropWhile p).rdropWhile p).head? = some a := ha
    have hhead : (l.dropWhile p).head? = some a := by
      rw [← ht, head?_append, hkept]
      rfl
    have hnot := head?_dropWhile_not p l
    rw [hhead] at hnot
    simpa using hnot
  · intro a ha
    obtain ⟨hne,heq⟩ := mem_getLast?_eq_getLast ha
    have hnot := rdropWhile_last_not p (l.dropWhile p) hne
    rw [heq]
    exact Bool.eq_false_iff.mpr hnot

theorem Bare.trim_eq (h : Bare p l) : trim p l = l := by
  rw [trim, dropWhile_of_head h.head, rdropWhile_of_last h.last]

theorem trim_of_head (h : ∀ a ∈ l.head?, p a = false) : trim p l = l.rdropWhile p := by
  rw [trim, dropWhile_of_head h]

theorem trim_of_last (h : ∀ a ∈ l.getLast?, p a = false) : trim p l = l.dropWhile p :=
  rdropWhile_of_last (getLast?_dropWhile_of_last h)

theorem trim_ne_nil {a : α} (ha : a ∈ l) (hp : p a = false) : trim p l ≠ [] := by
  intro hnil
  rw [trim, rdropWhile_eq_nil_iff] at hnil
  have hall : l.dropWhile p = [] := by
    cases hdrop : l.dropWhile p with
    | nil => rfl
    | cons b t =>
      have hb := head?_dropWhile_not p l
      rw [hdrop] at hb hnil
      simp [hnil b mem_cons_self] at hb
  rw [dropWhile_eq_nil_iff] at hall
  simp [hall a ha] at hp

theorem rdropWhile_append_of_all {s : List α} (hl : ∀ a ∈ l.getLast?, p a = false)
    (hs : ∀ a ∈ s, p a = true) : (l ++ s).rdropWhile p = l := by
  induction s using reverseRecOn with
  | nil => simpa using rdropWhile_of_last hl
  | append_singleton s a ih =>
    rw [← append_assoc, rdropWhile_concat_pos _ _ _ (hs a (by simp))]
    exact ih (fun b hb => hs b (by simp [hb]))

end Trim

section Cut

variable (w : α → ℕ)

def weight (l : List α) : ℕ := (l.map w).sum

/-- The longest prefix within the budget. -/
def cut : ℕ → List α → List α
  | _, [] => []
  | budget, a :: l => if w a ≤ budget then a :: cut (budget - w a) l else []

variable {w} {l r s : List α}

@[simp] theorem weight_nil : weight w [] = 0 := rfl

@[simp] theorem weight_cons (a : α) : weight w (a :: l) = w a + weight w l := by
  simp [weight]

@[simp] theorem weight_append : weight w (l ++ r) = weight w l + weight w r := by
  simp [weight]

/-- The cut is the prefix that fits while the next element does not. -/
theorem cut_eq_iff {budget : ℕ} :
    cut w budget l = r ↔
      ∃ s, l = r ++ s ∧ weight w r ≤ budget ∧ ∀ a ∈ s.head?, budget < weight w r + w a := by
  induction l generalizing budget r with
  | nil =>
    constructor
    · rintro rfl
      exact ⟨[],rfl,Nat.zero_le _,by simp⟩
    · rintro ⟨s,h,-,-⟩
      rw [cut, (append_eq_nil_iff.mp h.symm).1]
  | cons a l ih =>
    rw [cut]
    split_ifs with hfits
    · constructor
      · rintro rfl
        obtain ⟨s,hl,hle,hnext⟩ := ih.mp (rfl : cut w (budget - w a) l = _)
        refine ⟨s,by rw [cons_append, ← hl],?_,?_⟩
        · rw [weight_cons]
          omega
        · intro b hb
          have hlt := hnext b hb
          rw [weight_cons]
          omega
      · rintro ⟨s,hl,hle,hnext⟩
        cases r with
        | nil =>
          cases hl
          have hlt := hnext a rfl
          rw [weight_nil] at hlt
          omega
        | cons b r =>
          rw [cons_append, cons.injEq] at hl
          obtain ⟨rfl,hl⟩ := hl
          rw [weight_cons] at hle
          refine congrArg (a :: ·) (ih.mpr ⟨s,hl,by omega,?_⟩)
          intro c hc
          have hlt := hnext c hc
          rw [weight_cons] at hlt
          omega
    · constructor
      · rintro rfl
        exact ⟨a :: l,rfl,Nat.zero_le _,by simpa using hfits⟩
      · rintro ⟨s,hl,hle,-⟩
        cases r with
        | nil => rfl
        | cons b r =>
          rw [cons_append, cons.injEq] at hl
          obtain ⟨rfl,-⟩ := hl
          rw [weight_cons] at hle
          omega

end Cut

end RinaDown.TrimmedLists
