import Mathlib.Algebra.Order.Ring.Int

/-!
# Files whose bytes have a source

A file has a length and, for each place below it, where the byte came from; a byte that was never
written has no source. A range of the file holds a source if each of its bytes came from the place
that the source names for it.
-/

namespace RinaDown.SourcedFiles

universe u

variable {α : Type u}

structure File (α : Type u) where
  len : ℤ
  byte : ℤ → Option α

def empty : File α := ⟨0,fun _ => none⟩

namespace File

/-- The places from `a` up to `b` are written. What lies between the end of the file and `a` has
no source. -/
def write (f : File α) (a b : ℤ) (source : ℤ → α) : File α :=
  if a < b then
    { len := max f.len b
      byte := fun i =>
        if a ≤ i ∧ i < b then some (source i) else if i < f.len then f.byte i else none }
  else f

def extend (f : File α) (n : ℤ) : File α :=
  { len := max f.len n, byte := fun i => if i < f.len then f.byte i else none }

/-- The bytes from `a` up to `b` came from where the source says. -/
def Holds (f : File α) (source : ℤ → α) (a b : ℤ) : Prop :=
  ∀ i, a ≤ i → i < b → i < f.len ∧ f.byte i = some (source i)

variable {f : File α} {source : ℤ → α} {a b c : ℤ}

theorem Holds.mono (h : f.Holds source a b) {a' b' : ℤ} (ha : a ≤ a') (hb : b' ≤ b) :
    f.Holds source a' b' :=
  fun i hi hi' => h i (ha.trans hi) (hi'.trans_le hb)

theorem holds_of_le (h : b ≤ a) : f.Holds source a b :=
  fun _ hi hi' => absurd (hi.trans_lt hi') h.not_gt

theorem Holds.append (h : f.Holds source a b) (h' : f.Holds source b c) : f.Holds source a c := by
  intro i hi hi'
  rcases lt_or_ge i b with hlt | hge
  · exact h i hi hlt
  · exact h' i hge hi'

theorem len_write_of_le (h : b ≤ f.len) : (f.write a b source).len = f.len := by
  rw [write]
  split_ifs
  · exact max_eq_left h
  · rfl

theorem len_write_append (h : f.len = a) (hab : a ≤ b) : (f.write a b source).len = b := by
  rw [write]
  split_ifs with hlt
  · exact max_eq_right (h ▸ hab)
  · exact h.trans (le_antisymm hab (not_lt.mp hlt))

theorem holds_write : (f.write a b source).Holds source a b := by
  intro i hi hi'
  rw [write, if_pos (hi.trans_lt hi')]
  exact ⟨hi'.trans_le (le_max_right _ _),if_pos ⟨hi,hi'⟩⟩

theorem Holds.write (h : f.Holds source a b) (c d : ℤ) : (f.write c d source).Holds source a b := by
  intro i hi hi'
  obtain ⟨hlen,hbyte⟩ := h i hi hi'
  rw [File.write]
  split_ifs
  · refine ⟨hlen.trans_le (le_max_left _ _),?_⟩
    simp only [hlen, if_true, hbyte, ite_self]
  · exact ⟨hlen,hbyte⟩

theorem Holds.extend (h : f.Holds source a b) (n : ℤ) : (f.extend n).Holds source a b := by
  intro i hi hi'
  obtain ⟨hlen,hbyte⟩ := h i hi hi'
  exact ⟨hlen.trans_le (le_max_left _ _),(if_pos hlen).trans hbyte⟩

/-- What a range holds can be evaluated. -/
def holdsDecidable [DecidableEq α] (f : File α) (source : ℤ → α) (a b : ℤ) :
    Decidable (f.Holds source a b) :=
  decidable_of_iff (∀ k ∈ List.range (b - a).toNat,
      a + k < f.len ∧ f.byte (a + k) = some (source (a + k))) <| by
    constructor
    · intro h i hi hi'
      have hk := h (i - a).toNat (List.mem_range.mpr (by omega))
      rwa [show a + ((i - a).toNat : ℤ) = i by omega] at hk
    · intro h k hk
      have hlt := List.mem_range.mp hk
      exact h (a + k) (by omega) (by omega)

instance [DecidableEq α] (f : File α) (source : ℤ → α) (a b : ℤ) : Decidable (f.Holds source a b) :=
  holdsDecidable f source a b

end File

end RinaDown.SourcedFiles
