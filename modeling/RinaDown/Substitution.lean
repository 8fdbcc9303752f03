import Mathlib.Data.List.Flatten

/-!
# Substitution of keys

A table gives values to keys. A text is read from left to right: the value of a key is written
where the key stands, and every other symbol is copied.
-/

namespace RinaDown.Substitution
open List

variable {α β γ : Type*} [DecidableEq α]

def substitute (table : List (List α × List β)) (copy : α → List β) : List α → List β
  | [] => []
  | c :: cs =>
    match table.find? fun entry => entry.1.isPrefixOf (c :: cs) with
    | some (key, value) => value ++ substitute table copy (cs.drop (key.length - 1))
    | none => copy c ++ substitute table copy cs
termination_by text => text.length

/-- No two keys can stand at one place. -/
structure Unambiguous (table : List (List α × List β)) : Prop where
  ne_nil : ∀ entry ∈ table, entry.1 ≠ []
  eq_of_prefix : ∀ entry ∈ table, ∀ entry' ∈ table, entry.1 <+: entry'.1 → entry = entry'

variable {table : List (List α × List β)} {copy : α → List β} {key text cs : List α}
  {value : List β} {c : α}

@[simp] theorem substitute_nil : substitute table copy [] = [] := by
  rw [substitute]

theorem substitute_cons (h : ∀ entry ∈ table, ¬ entry.1 <+: c :: cs) :
    substitute table copy (c :: cs) = copy c ++ substitute table copy cs := by
  have hnone : (table.find? fun entry => entry.1.isPrefixOf (c :: cs)) = none :=
    find?_eq_none.mpr fun entry hentry hprefix =>
      h entry hentry (List.isPrefixOf_iff_prefix.mp hprefix)
  rw [substitute, hnone]

theorem substitute_key (ht : Unambiguous table) (h : (key, value) ∈ table) (text : List α) :
    substitute table copy (key ++ text) = value ++ substitute table copy text := by
  obtain ⟨c,cs,rfl⟩ := exists_cons_of_ne_nil (ht.ne_nil _ h)
  have hfind : (table.find? fun entry => entry.1.isPrefixOf (c :: (cs ++ text))) =
      some (c :: cs, value) := by
    cases hfound : table.find? fun entry => entry.1.isPrefixOf (c :: (cs ++ text)) with
    | none =>
      have hprefix := isPrefixOf_iff_prefix.mpr (prefix_append (c :: cs) text)
      exact absurd hprefix (find?_eq_none.mp hfound _ h)
    | some entry =>
      have hmem := mem_of_find?_eq_some hfound
      have hprefix : entry.1 <+: c :: cs ++ text :=
        isPrefixOf_iff_prefix.mp (find?_some hfound :)
      obtain hle | hle := prefix_or_prefix_of_prefix hprefix (prefix_append _ text)
      · rw [ht.eq_of_prefix _ hmem _ h hle]
      · rw [ht.eq_of_prefix _ h _ hmem hle]
  rw [cons_append, substitute, hfind]
  simp

/-- What is written is what the values and the copies make of it, from the end on. -/
theorem substitute_rec (hne : ∀ entry ∈ table, entry.1 ≠ []) {P : List α → List β → Prop}
    (hnil : P [] [])
    (hkey : ∀ entry ∈ table, ∀ text out, P text out → P (entry.1 ++ text) (entry.2 ++ out))
    (hcopy : ∀ c text out, (∀ entry ∈ table, ¬ entry.1 <+: c :: text) → P text out →
      P (c :: text) (copy c ++ out)) (text : List α) : P text (substitute table copy text) := by
  fun_induction substitute table copy text with
  | case1 => exact hnil
  | case2 c cs key value hfind ih =>
    have hmem := mem_of_find?_eq_some hfind
    have hprefix : key <+: c :: cs := isPrefixOf_iff_prefix.mp (find?_some hfind :)
    obtain ⟨rest,hrest⟩ := hprefix
    obtain ⟨c',key',rfl⟩ := exists_cons_of_ne_nil (hne _ hmem)
    obtain ⟨rfl,rfl⟩ := cons.inj hrest
    have hdrop : (key'.append rest).drop ((c' :: key').length - 1) = rest := by
      rw [length_cons, Nat.add_sub_cancel]
      exact drop_left
    rw [hdrop] at ih ⊢
    exact hkey _ hmem rest _ ih
  | case3 c cs hfind ih =>
    refine hcopy c cs _ (fun entry hentry hprefix => ?_) ih
    exact find?_eq_none.mp hfind entry hentry (List.isPrefixOf_iff_prefix.mpr hprefix)

/-! ## Readings -/

/-- A symbol that is copied, or a key for which its value is written. -/
inductive Part (α β : Type*) where
  | copied (c : α)
  | filled (key : List α) (value : List β)

def Part.source : Part α β → List α
  | .copied c => [c]
  | .filled key _ => key

def Part.written (copy : α → List β) : Part α β → List β
  | .copied c => copy c
  | .filled _ value => value

/-- No key of the table stands where a symbol is copied. -/
def IsReading (table : List (List α × List β)) : List (Part α β) → Prop
  | [] => True
  | .copied c :: parts =>
    (∀ entry ∈ table, ¬ entry.1 <+: c :: parts.flatMap Part.source) ∧ IsReading table parts
  | .filled key value :: parts => (key, value) ∈ table ∧ IsReading table parts

/-- The text is read in parts, and what is written for each part does not depend on the others. -/
theorem exists_reading (ht : Unambiguous table) (text : List α) : ∃ parts : List (Part α β),
    parts.flatMap Part.source = text ∧
      parts.flatMap (Part.written copy) = substitute table copy text ∧ IsReading table parts := by
  refine substitute_rec (P := fun text out => ∃ parts : List (Part α β),
    parts.flatMap Part.source = text ∧ parts.flatMap (Part.written copy) = out ∧
      IsReading table parts) ht.ne_nil ⟨[],rfl,rfl,trivial⟩ ?_ ?_ text
  · rintro ⟨key,value⟩ hentry text out ⟨parts,rfl,rfl,hparts⟩
    exact ⟨.filled key value :: parts,rfl,rfl,hentry,hparts⟩
  · rintro c text out hnone ⟨parts,rfl,rfl,hparts⟩
    exact ⟨.copied c :: parts,rfl,rfl,hnone,hparts⟩

/-! ## Values -/

/-- What is written can be translated afterwards or symbol by symbol. -/
theorem flatMap_substitute (g : β → List γ) (text : List α) :
    (substitute table copy text).flatMap g =
      substitute (table.map fun entry => (entry.1, entry.2.flatMap g))
        (fun c => (copy c).flatMap g) text := by
  fun_induction substitute table copy text with
  | case1 => rw [substitute_nil, flatMap_nil]
  | case2 c cs key value hfind ih =>
    rw [substitute, find?_map]
    simp only [Function.comp_def, hfind, Option.map_some]
    rw [flatMap_append, ih]
  | case3 c cs hfind ih =>
    rw [substitute, find?_map]
    simp only [Function.comp_def, hfind, Option.map_none]
    rw [flatMap_append, ih]

/-- What every value and every copy has, everything that is written has. -/
theorem forall_mem_substitute {P : β → Prop} (text : List α)
    (htable : ∀ entry ∈ table, ∀ x ∈ entry.2, P x) (hcopy : ∀ c ∈ text, ∀ x ∈ copy c, P x) :
    ∀ x ∈ substitute table copy text, P x := by
  fun_induction substitute table copy text with
  | case1 => exact fun _ hx => absurd hx not_mem_nil
  | case2 c cs key value hfind ih =>
    intro x hx
    obtain hx | hx := mem_append.mp hx
    · exact htable _ (mem_of_find?_eq_some hfind) x hx
    · exact ih (fun c' hc' => hcopy c' (mem_cons_of_mem c (mem_of_mem_drop hc'))) x hx
  | case3 c cs hfind ih =>
    intro x hx
    obtain hx | hx := mem_append.mp hx
    · exact hcopy c mem_cons_self x hx
    · exact ih (fun c' hc' => hcopy c' (mem_cons_of_mem c hc')) x hx

end RinaDown.Substitution
