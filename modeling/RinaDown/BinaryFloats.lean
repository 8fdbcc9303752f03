import Mathlib.Tactic.Ring

/-!
# The order of binary64 numbers

A number is given by its sign and the other 63 bits, read as one magnitude. Without the NaNs the
magnitudes are ordered as the values are, and every finite value is a multiple of the smallest
positive one, so that comparisons and the doubling of a number can be stated over the integers.
-/

namespace RinaDown.BinaryFloats
open Bool

structure F64 where
  negative : Bool
  magnitude : ℕ
  bound : magnitude < 2 ^ 63
deriving DecidableEq

def infinity : ℕ := 2047 * 2 ^ 52

namespace F64

def zero : F64 := ⟨false,0,by decide⟩

def isNan (x : F64) : Bool := infinity < x.magnitude

def isFinite (x : F64) : Bool := x.magnitude < infinity

/-- Both zeros have the key zero. -/
def key (x : F64) : ℤ := if x.negative then -x.magnitude else x.magnitude

def le (x y : F64) : Bool := !x.isNan && !y.isNan && x.key ≤ y.key

def lt (x y : F64) : Bool := !x.isNan && !y.isNan && x.key < y.key

/-- The larger of two numbers, or the other one where one is no number. -/
def max (x y : F64) : F64 :=
  if x.isNan then y else if y.isNan then x else if x.key < y.key then y else x

def totalKey (x : F64) : ℤ := if x.negative then -x.magnitude - 1 else x.magnitude

/-- The total order, in which a negative zero is below a positive one and NaNs are outermost. -/
def totalCmp (x y : F64) : Ordering := compare x.totalKey y.totalKey

end F64

/-! ## Values -/

/-- The value of a finite magnitude in units of the smallest positive number. -/
def scaled (m : ℕ) : ℕ :=
  if m < 2 ^ 52 then m else (2 ^ 52 + m % 2 ^ 52) * 2 ^ (m / 2 ^ 52 - 1)

def F64.units (x : F64) : ℤ := if x.negative then -scaled x.magnitude else scaled x.magnitude

theorem scaled_of_lt {m : ℕ} (h : m < 2 ^ 52) : scaled m = m := if_pos h

theorem scaled_add (e f : ℕ) (hf : f < 2 ^ 52) :
    scaled ((e + 1) * 2 ^ 52 + f) = (2 ^ 52 + f) * 2 ^ e := by
  have hge : ¬ (e + 1) * 2 ^ 52 + f < 2 ^ 52 := by
    rw [Nat.add_mul]
    omega
  have hmod : ((e + 1) * 2 ^ 52 + f) % 2 ^ 52 = f := by omega
  have hdiv : ((e + 1) * 2 ^ 52 + f) / 2 ^ 52 = e + 1 := by omega
  rw [scaled, if_neg hge, hmod, hdiv, Nat.add_sub_cancel]

theorem magnitude_cases (m : ℕ) :
    m < 2 ^ 52 ∨ ∃ e f, f < 2 ^ 52 ∧ m = (e + 1) * 2 ^ 52 + f := by
  by_cases h : m < 2 ^ 52
  · exact Or.inl h
  · right
    refine ⟨m / 2 ^ 52 - 1,m % 2 ^ 52,Nat.mod_lt m (by decide),?_⟩
    omega

theorem scaled_lt_succ (m : ℕ) : scaled m < scaled (m + 1) := by
  rcases magnitude_cases m with h | ⟨e,f,hf,rfl⟩
  · rw [scaled_of_lt h]
    by_cases hlast : m + 1 < 2 ^ 52
    · rw [scaled_of_lt hlast]
      omega
    · have hm : m + 1 = (0 + 1) * 2 ^ 52 + 0 := by omega
      rw [hm, scaled_add 0 0 (by decide)]
      omega
  · have hpos : 0 < 2 ^ e := Nat.two_pow_pos e
    rw [scaled_add e f hf]
    by_cases hlast : f + 1 < 2 ^ 52
    · rw [Nat.add_assoc, scaled_add e (f + 1) hlast]
      exact (Nat.mul_lt_mul_right hpos).2 (by omega)
    · -- The next number has the next exponent.
      have hnext : (e + 1) * 2 ^ 52 + f + 1 = (e + 1 + 1) * 2 ^ 52 + 0 := by
        rw [Nat.add_mul (e + 1)]
        omega
      have hpow : 2 ^ (e + 1) = 2 * 2 ^ e := Nat.pow_succ'
      rw [hnext, scaled_add (e + 1) 0 (by decide), hpow, ← Nat.mul_assoc]
      exact (Nat.mul_lt_mul_right hpos).2 (by omega)

theorem scaled_strictMono : StrictMono scaled := strictMono_nat_of_lt_succ scaled_lt_succ

namespace F64

variable {x y z : F64}

theorem isNan_iff : x.isNan = true ↔ infinity < x.magnitude := decide_eq_true_iff

theorem isFinite_iff : x.isFinite = true ↔ x.magnitude < infinity := decide_eq_true_iff

theorem not_isNan_of_isFinite (h : x.isFinite = true) : x.isNan = false := by
  rw [← not_eq_true, isNan_iff]
  exact not_lt.2 (isFinite_iff.1 h).le

theorem le_iff_key (hx : x.isNan = false) (hy : y.isNan = false) :
    x.le y = true ↔ x.key ≤ y.key := by
  rw [le, hx, hy]
  simp

/-- Finite numbers compare as their values. -/
theorem le_iff_units (hx : x.isFinite = true) (hy : y.isFinite = true) :
    x.le y = true ↔ x.units ≤ y.units := by
  have hmono : scaled x.magnitude ≤ scaled y.magnitude ↔ x.magnitude ≤ y.magnitude :=
    scaled_strictMono.le_iff_le
  have hmono' : scaled y.magnitude ≤ scaled x.magnitude ↔ y.magnitude ≤ x.magnitude :=
    scaled_strictMono.le_iff_le
  have hzero : ∀ m, scaled m = 0 ↔ m = 0 := fun m => scaled_strictMono.injective.eq_iff' rfl
  have hx0 := hzero x.magnitude
  have hy0 := hzero y.magnitude
  rw [le_iff_key (not_isNan_of_isFinite hx) (not_isNan_of_isFinite hy), key, key, units, units]
  split_ifs
  all_goals omega

theorem le_trans (h : x.le y = true) (h' : y.le z = true) : x.le z = true := by
  simp only [le, and_eq_true, decide_eq_true_eq] at h h' ⊢
  exact ⟨⟨h.1.1,h'.1.2⟩,h.2.trans h'.2⟩

theorem le_max_left (hx : x.isNan = false) : x.le (x.max y) = true := by
  rw [max, hx]
  simp only [false_eq_true, if_false]
  split_ifs with hy hkey
  · exact (le_iff_key hx hx).2 le_rfl
  · exact (le_iff_key hx (eq_false_of_not_eq_true hy)).2 hkey.le
  · exact (le_iff_key hx hx).2 le_rfl

theorem le_max_right (hy : y.isNan = false) : y.le (x.max y) = true := by
  rw [max, hy]
  split_ifs with hx hnan hkey
  · exact (le_iff_key hy hy).2 le_rfl
  · cases hnan
  · exact (le_iff_key hy hy).2 le_rfl
  · exact (le_iff_key hy (eq_false_of_not_eq_true hx)).2 (not_lt.1 hkey)

theorem not_isNan_of_lt (h : x.lt y = true) : x.isNan = false ∧ y.isNan = false := by
  simp only [lt, and_eq_true, not_eq_true'] at h
  exact h.1

/-- On positive numbers the total order is the order of the values. -/
theorem le_of_totalKey_le (hx : zero.lt x = true) (hy : zero.lt y = true)
    (h : x.totalKey ≤ y.totalKey) : x.le y = true := by
  have hpositive : ∀ z : F64, zero.lt z = true → z.key = z.totalKey := by
    intro z hz
    simp only [lt, and_eq_true, decide_eq_true_eq] at hz
    have hkey := hz.2
    rw [key, totalKey]
    split_ifs with hnegative
    · simp only [key, zero, hnegative, false_eq_true, if_false, if_true] at hkey
      omega
    · rfl
  rw [le_iff_key (not_isNan_of_lt hx).2 (not_isNan_of_lt hy).2, hpositive x hx, hpositive y hy]
  exact h

/-! ## Twice a number -/

def doubledMagnitude (m : ℕ) : ℕ :=
  if m < 2 ^ 52 then 2 * m
  else if m + 2 ^ 52 < infinity then m + 2 ^ 52
  else if m ≤ infinity then infinity
  else m

theorem doubledMagnitude_lt {m : ℕ} (h : m < 2 ^ 63) : doubledMagnitude m < 2 ^ 63 := by
  unfold doubledMagnitude infinity
  split_ifs
  · omega
  · omega
  · omega
  · exact h

/-- The product with `2.0`: the fraction of a subnormal number is doubled, the exponent of any
other one goes up by one, and what is too large is infinite. -/
def double (x : F64) : F64 :=
  ⟨x.negative,doubledMagnitude x.magnitude,doubledMagnitude_lt x.bound⟩

theorem doubledMagnitude_mono {m n : ℕ} (h : m ≤ n) : doubledMagnitude m ≤ doubledMagnitude n := by
  unfold doubledMagnitude infinity
  split_ifs
  all_goals omega

theorem isNan_double : x.double.isNan = x.isNan := by
  rw [Bool.eq_iff_iff, isNan_iff, isNan_iff]
  show infinity < doubledMagnitude x.magnitude ↔ infinity < x.magnitude
  unfold doubledMagnitude infinity
  split_ifs
  all_goals omega

theorem doubledMagnitude_zero : doubledMagnitude 0 = 0 := rfl

theorem key_double (x : F64) :
    x.double.key = if x.negative then -(doubledMagnitude x.magnitude : ℤ)
      else doubledMagnitude x.magnitude := rfl

theorem double_le (h : x.le y = true) : x.double.le y.double = true := by
  simp only [le, and_eq_true, not_eq_true', decide_eq_true_eq] at h
  obtain ⟨⟨hx,hy⟩,hkey⟩ := h
  rw [le_iff_key (isNan_double.trans hx) (isNan_double.trans hy), key_double, key_double]
  rw [key, key] at hkey
  have hmono : x.magnitude ≤ y.magnitude →
      doubledMagnitude x.magnitude ≤ doubledMagnitude y.magnitude := doubledMagnitude_mono
  have hmono' : y.magnitude ≤ x.magnitude →
      doubledMagnitude y.magnitude ≤ doubledMagnitude x.magnitude := doubledMagnitude_mono
  split_ifs at hkey ⊢
  · omega
  · omega
  · -- Only zero is between a positive number and a negative one.
    have hx0 : x.magnitude = 0 := by omega
    have hy0 : y.magnitude = 0 := by omega
    simp [hx0, hy0, doubledMagnitude_zero]
  · omega

theorem scaled_doubledMagnitude {m : ℕ} (h : doubledMagnitude m < infinity) :
    scaled (doubledMagnitude m) = 2 * scaled m := by
  rcases magnitude_cases m with hm | ⟨e,f,hf,rfl⟩
  · rw [doubledMagnitude, if_pos hm, scaled_of_lt hm]
    by_cases hsmall : 2 * m < 2 ^ 52
    · exact scaled_of_lt hsmall
    · have hsplit : 2 * m = (0 + 1) * 2 ^ 52 + (2 * m - 2 ^ 52) := by omega
      rw [hsplit, scaled_add 0 _ (by omega)]
      omega
  · have hge : ¬ (e + 1) * 2 ^ 52 + f < 2 ^ 52 := by
      rw [Nat.add_mul]
      omega
    have hfits : (e + 1) * 2 ^ 52 + f + 2 ^ 52 < infinity := by
      by_contra hlarge
      rw [doubledMagnitude, if_neg hge, if_neg hlarge] at h
      split_ifs at h
      · omega
      · omega
    have hnext : (e + 1) * 2 ^ 52 + f + 2 ^ 52 = (e + 1 + 1) * 2 ^ 52 + f := by ring
    rw [doubledMagnitude, if_neg hge, if_pos hfits, hnext, scaled_add (e + 1) f hf,
      scaled_add e f hf, Nat.pow_succ]
    ring

/-- A double that does not overflow has twice the value. -/
theorem units_double (h : x.double.isFinite = true) : x.double.units = 2 * x.units := by
  have hscaled := scaled_doubledMagnitude (isFinite_iff.1 h)
  rw [units, units]
  show (if x.negative then -(scaled (doubledMagnitude x.magnitude) : ℤ)
    else scaled (doubledMagnitude x.magnitude)) = _
  rw [hscaled]
  split_ifs
  · push_cast
    ring
  · push_cast
    ring

theorem units_nonneg (h : x.negative = false) : 0 ≤ x.units := by
  rw [units, h]
  simp

theorem not_negative_of_lt (h : zero.lt x = true) : x.negative = false := by
  simp only [lt, and_eq_true, decide_eq_true_eq] at h
  by_contra hnegative
  have hkey := h.2
  simp only [key, zero, eq_true_of_not_eq_false hnegative, false_eq_true, if_false,
    if_true] at hkey
  omega

/-- A finite positive number that is at least the double of a finite one has at least twice its
value, also where the double of a negative number is infinite. -/
theorem two_mul_units_le (hle : y.double.le x = true) (hx : x.isFinite = true)
    (hpositive : zero.lt x = true) : 2 * y.units ≤ x.units := by
  have hx0 : 0 ≤ x.units := units_nonneg (not_negative_of_lt hpositive)
  by_cases hy : y.negative = true
  · have hunits : y.units ≤ 0 := by
      rw [units, if_pos hy]
      omega
    omega
  · have hkey : y.double.key ≤ x.key := by
      simp only [le, and_eq_true, decide_eq_true_eq] at hle
      exact hle.2
    have hdouble : y.double.isFinite = true := by
      rw [key_double, if_neg hy, key, not_negative_of_lt hpositive] at hkey
      simp only [false_eq_true, if_false, Nat.cast_le] at hkey
      exact isFinite_iff.2 (hkey.trans_lt (isFinite_iff.1 hx))
    rw [← units_double hdouble]
    exact (le_iff_units hdouble hx).1 hle

end F64

end RinaDown.BinaryFloats
