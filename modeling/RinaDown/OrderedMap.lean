import Mathlib.Algebra.Order.BigOperators.Group.List
import Mathlib.Data.Int.NatAbs

/-!
# Ordered maps

The values of an ordered map in key order, and how they change under the map
operations. A sum over the values is all a bookkeeping proof needs to know
about the order.
-/

namespace RinaDown.OrderedMap
open Std List

universe u v

variable {κ : Type u} {V : Type v} {cmp : κ → κ → Ordering}

def values (m : TreeMap κ V cmp) : List V := m.toList.map Prod.snd

/-- The sum of a measure over the values. -/
def total (f : V → ℤ) (m : TreeMap κ V cmp) : ℤ := ((values m).map f).sum

variable [TransCmp cmp]

variable [LawfulEqCmp cmp]

theorem getElem?_insert_eq [DecidableEq κ] (m : TreeMap κ V cmp) (k j : κ) (v : V) :
    (m.insert k v)[j]? = if j = k then some v else m[j]? := by
  rw [TreeMap.getElem?_insert]
  by_cases h : j = k
  · simp [h, ReflCmp.compare_self]
  · simp [h, LawfulEqCmp.compare_eq_iff_eq, Ne.symm h]

theorem getElem?_erase_eq [DecidableEq κ] (m : TreeMap κ V cmp) (k j : κ) :
    (m.erase k)[j]? = if j = k then none else m[j]? := by
  rw [TreeMap.getElem?_erase]
  by_cases h : j = k
  · simp [h, ReflCmp.compare_self]
  · simp [h, LawfulEqCmp.compare_eq_iff_eq, Ne.symm h]

theorem getElem?_insert_cases [DecidableEq κ] {m : TreeMap κ V cmp} {k j : κ} {v w : V}
    (h : (m.insert k v)[j]? = some w) : j = k ∧ w = v ∨ j ≠ k ∧ m[j]? = some w := by
  rw [getElem?_insert_eq] at h
  split_ifs at h with hjk
  · exact .inl ⟨hjk,(Option.some.inj h).symm⟩
  · exact .inr ⟨hjk,h⟩

theorem getElem?_of_erase [DecidableEq κ] {m : TreeMap κ V cmp} {k j : κ} {v : V}
    (h : (m.erase k)[j]? = some v) : j ≠ k ∧ m[j]? = some v := by
  rw [getElem?_erase_eq] at h
  split_ifs at h with hjk
  exact ⟨hjk,h⟩

theorem getElem?_modify_eq [DecidableEq κ] (m : TreeMap κ V cmp) (k j : κ) (f : V → V) :
    (m.modify k f)[j]? = if j = k then m[k]?.map f else m[j]? := by
  rw [TreeMap.getElem?_modify]
  by_cases h : j = k
  · simp [h, ReflCmp.compare_self]
  · simp [h, LawfulEqCmp.compare_eq_iff_eq, Ne.symm h]

@[simp] theorem mem_values {m : TreeMap κ V cmp} {v : V} :
    v ∈ values m ↔ ∃ k : κ, m[k]? = some v := by
  constructor
  · intro h
    obtain ⟨p,hp,rfl⟩ := mem_map.mp h
    exact ⟨p.1,TreeMap.mem_toList_iff_getElem?_eq_some.mp hp⟩
  · rintro ⟨k,hk⟩
    exact mem_map.mpr ⟨(k, v),TreeMap.mem_toList_iff_getElem?_eq_some.mpr hk,rfl⟩

theorem values_pairwise {m : TreeMap κ V cmp} {R : V → V → Prop}
    (h : ∀ (j k : κ) a b, m[j]? = some a → m[k]? = some b → j ≠ k → R a b) : (values m).Pairwise R := by
  rw [values, pairwise_map]
  refine List.Pairwise.imp_of_mem ?_ (TreeMap.distinct_keys_toList (t := m))
  intro p q hp hq hne
  rw [LawfulEqCmp.compare_eq_iff_eq] at hne
  exact h p.1 q.1 p.2 q.2 (TreeMap.mem_toList_iff_getElem?_eq_some.mp hp)
    (TreeMap.mem_toList_iff_getElem?_eq_some.mp hq) hne

variable [DecidableEq κ]

end RinaDown.OrderedMap
