import Mathlib.Data.Int.NatAbs
import Mathlib.Data.List.Nodup

/-!
# Keyed tables

A table is a list of values under keys. Where every key occurs once, the table is what is
looked up in it.
-/

namespace RinaDown.KeyedTable
open List Option

universe u v

abbrev Table (K : Type u) (V : Type v) := List (K × V)

variable {K : Type u} {V : Type v}

def keys (l : Table K V) : List K := l.map Prod.fst

def retain (p : K → Bool) (l : Table K V) : Table K V := l.filter fun e => p e.1

variable [DecidableEq K]

def insert (key : K) (value : V) (l : Table K V) : Table K V :=
  (key, value) :: retain (· ≠ key) l

def remove (key : K) (l : Table K V) : Table K V := retain (· ≠ key) l

/-- A value is inserted unless there is one. -/
def orInsert (key : K) (value : V) (l : Table K V) : Table K V :=
  if (l.lookup key).isSome then l else (key, value) :: l

variable {l : Table K V} {key k : K} {value v : V}

theorem lookup_retain (p : K → Bool) (l : Table K V) (k : K) :
    (retain p l).lookup k = if p k then l.lookup k else none := by
  induction l with
  | nil => simp [retain]
  | cons e l ih =>
      obtain ⟨key,value⟩ := e
      rw [retain] at ih ⊢
      by_cases hkey : k = key
      · subst hkey
        by_cases hp : p k = true
        · simp [hp]
        · simp [hp, ih]
      · have hne : (k == key) = false := beq_false_of_ne hkey
        by_cases hp : p key = true
        · simp [hp, lookup_cons, hne, ih]
        · simp [hp, lookup_cons, hne, ih]

theorem lookup_insert (key : K) (value : V) (l : Table K V) (k : K) :
    (insert key value l).lookup k = if k = key then some value else l.lookup k := by
  rw [insert, lookup_cons, lookup_retain]
  by_cases hkey : k = key
  · simp [hkey]
  · simp [hkey, beq_false_of_ne hkey]

theorem lookup_orInsert (key : K) (value : V) (l : Table K V) (k : K) :
    (orInsert key value l).lookup k =
      if k = key then some ((l.lookup key).getD value) else l.lookup k := by
  rw [orInsert]
  by_cases hkey : k = key
  · subst hkey
    cases hlookup : l.lookup k with
    | none => simp
    | some v => simp [hlookup]
  · have hne : (k == key) = false := beq_false_of_ne hkey
    split_ifs
    · rfl
    · rw [lookup_cons, hne]

theorem lookup_remove (key : K) (l : Table K V) (k : K) :
    (remove key l).lookup k = if k = key then none else l.lookup k := by
  rw [remove, lookup_retain]
  by_cases hkey : k = key
  · simp [hkey]
  · simp [hkey]

theorem mem_of_lookup (h : l.lookup k = some v) : (k, v) ∈ l := by
  obtain ⟨l₁,l₂,rfl,-⟩ := lookup_eq_some_iff.mp h
  exact mem_append_right l₁ mem_cons_self

theorem mem_keys : k ∈ keys l ↔ (l.lookup k).isSome = true := by
  induction l with
  | nil => simp [keys]
  | cons e l ih =>
      obtain ⟨key,value⟩ := e
      by_cases hkey : k = key
      · simp [keys, hkey]
      · have hne : (k == key) = false := beq_false_of_ne hkey
        rw [keys] at ih ⊢
        simp [lookup_cons, hne, hkey, ih]

omit [DecidableEq K] in
theorem nodup_retain (p : K → Bool) (h : (keys l).Nodup) : (keys (retain p l)).Nodup :=
  h.sublist (filter_sublist.map Prod.fst)

theorem nodup_insert (h : (keys l).Nodup) : (keys (insert key value l)).Nodup := by
  rw [insert, keys, map_cons, nodup_cons]
  refine ⟨fun hmem => ?_,nodup_retain _ h⟩
  rw [← keys, mem_keys, lookup_retain] at hmem
  simp at hmem

theorem nodup_orInsert (h : (keys l).Nodup) : (keys (orInsert key value l)).Nodup := by
  rw [orInsert]
  split_ifs with hlookup
  · exact h
  · rw [keys, map_cons, nodup_cons]
    exact ⟨fun hmem => hlookup (mem_keys.mp hmem),h⟩

theorem length_insert (h : key ∉ keys l) : (insert key value l).length = l.length + 1 := by
  have hretain : retain (· ≠ key) l = l := by
    refine filter_eq_self.mpr ?_
    intro e he
    have hne : e.1 ≠ key := fun heq => h (heq ▸ mem_map_of_mem he)
    simpa using hne
  rw [insert, hretain, length_cons]

theorem filter_key (h : (keys l).Nodup) (k : K) :
    l.filter (fun e => e.1 = k) = ((l.lookup k).map fun v => (k, v)).toList := by
  induction l with
  | nil => rfl
  | cons e l ih =>
      obtain ⟨key,value⟩ := e
      rw [keys, map_cons, nodup_cons] at h
      by_cases hkey : k = key
      · subst hkey
        have hnone : l.lookup k = none := by
          by_contra hsome
          exact h.1 (mem_keys.mpr (isSome_iff_ne_none.mpr hsome))
        rw [filter_cons, ih h.2, hnone, lookup_cons_self]
        simp
      · have hne : (k == key) = false := beq_false_of_ne hkey
        rw [filter_cons, ih h.2, lookup_cons, hne]
        simp [Ne.symm hkey]

theorem lookup_eq_some_iff (h : (keys l).Nodup) : l.lookup k = some v ↔ (k, v) ∈ l := by
  refine ⟨mem_of_lookup,fun hmem => ?_⟩
  have hfilter : (k, v) ∈ l.filter fun e => e.1 = k := mem_filter.mpr ⟨hmem,by simp⟩
  rw [filter_key h, mem_toList, map_eq_some_iff] at hfilter
  obtain ⟨w,hw,heq⟩ := hfilter
  cases heq
  exact hw

theorem lookup_perm {l' : Table K V} (h : (keys l).Nodup) (hperm : l.Perm l') (k : K) :
    l.lookup k = l'.lookup k := by
  have h' : (keys l').Nodup := (hperm.map Prod.fst).nodup_iff.mp h
  apply ext
  intro v
  rw [lookup_eq_some_iff h, lookup_eq_some_iff h', hperm.mem_iff]

/-- Values are changed or dropped. -/
def filterMapValues {W : Type*} (f : V → Option W) (l : Table K V) : Table K W :=
  l.filterMap fun e => (f e.2).map fun w => (e.1, w)

omit [DecidableEq K] in
theorem keys_filterMapValues_sublist {W : Type*} (f : V → Option W) (l : Table K V) :
    (keys (filterMapValues f l)).Sublist (keys l) := by
  induction l with
  | nil => exact List.Sublist.refl []
  | cons e l ih =>
      rw [filterMapValues] at ih ⊢
      rw [filterMap_cons]
      cases f e.2 with
      | none => exact ih.cons e.1
      | some w => exact ih.cons_cons e.1

theorem lookup_filterMapValues {W : Type*} (f : V → Option W) (h : (keys l).Nodup) (k : K) :
    (filterMapValues f l).lookup k = (l.lookup k).bind f := by
  have hnodup : (keys (filterMapValues f l)).Nodup := h.sublist (keys_filterMapValues_sublist f l)
  apply ext
  intro w
  rw [lookup_eq_some_iff hnodup, filterMapValues, mem_filterMap, bind_eq_some_iff]
  constructor
  · rintro ⟨⟨key,v⟩,hmem,heq⟩
    obtain ⟨w',hw,heq⟩ := map_eq_some_iff.mp heq
    cases heq
    exact ⟨v,(lookup_eq_some_iff h).mpr hmem,hw⟩
  · rintro ⟨v,hv,hw⟩
    exact ⟨(k, v),mem_of_lookup hv,by rw [hw]; rfl⟩

/-! ## Many entries -/

def insertAll (new l : Table K V) : Table K V := new.foldl (fun map e => insert e.1 e.2 map) l

theorem nodup_insertAll (new : Table K V) (h : (keys l).Nodup) : (keys (insertAll new l)).Nodup := by
  induction new generalizing l with
  | nil => exact h
  | cons e new ih => exact ih (nodup_insert h)

theorem lookup_insertAll {new : Table K V} (h : (keys new).Nodup) (l : Table K V) (k : K) :
    (insertAll new l).lookup k = (new.lookup k).or (l.lookup k) := by
  induction new generalizing l with
  | nil => rfl
  | cons e new ih =>
      obtain ⟨key,value⟩ := e
      rw [keys, map_cons, nodup_cons] at h
      have hfold : insertAll ((key, value) :: new) l = insertAll new (insert key value l) := rfl
      rw [hfold, ih h.2, lookup_insert, lookup_cons]
      by_cases hkey : k = key
      · subst hkey
        have hnone : new.lookup k = none := by
          by_contra hsome
          exact h.1 (mem_keys.mpr (isSome_iff_ne_none.mpr hsome))
        simp [hnone]
      · simp [hkey, beq_false_of_ne hkey]

theorem mem_of_mem_insertAll {new : Table K V} {e : K × V} (he : e ∈ insertAll new l) :
    e ∈ new ∨ e ∈ l := by
  induction new generalizing l with
  | nil => exact .inr he
  | cons a new ih =>
      rcases ih he with hnew | hl
      · exact .inl (mem_cons_of_mem a hnew)
      · rcases mem_cons.mp hl with rfl | hold
        · exact .inl mem_cons_self
        · exact .inr (mem_of_mem_filter hold)

end RinaDown.KeyedTable
