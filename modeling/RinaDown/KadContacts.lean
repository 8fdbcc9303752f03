import Mathlib.Data.Vector.Basic

/-!
# Contacts of the Kad network

A contact has an identifier of 128 bits and an endpoint. An IPv4 address is the
number that its octets write from the left. Identifiers are compared by their
XOR distance to a target, byte by byte from the left, and that is the order of
the distances as numbers.
-/

namespace RinaDown.KadContacts

/-- In the order of memory. -/
abbrev KadId := Vector UInt8 16

abbrev Ipv4Addr := UInt32

structure Endpoint where
  ip : Ipv4Addr
  udpPort : UInt16
  tcpPort : UInt16
  deriving DecidableEq, Repr

structure Contact where
  id : KadId
  endpoint : Endpoint
  version : UInt8
  deriving DecidableEq

/-! ## Distances -/

/-- The first index at which the distances differ decides. -/
def xorCmpAt (a b target : KadId) : List (Fin 16) → Ordering
  | [] => .eq
  | i :: rest =>
    match compare (a[i] ^^^ target[i]) (b[i] ^^^ target[i]) with
    | .eq => xorCmpAt a b target rest
    | order => order

def xorCmp (a b target : KadId) : Ordering := xorCmpAt a b target (List.finRange 16)

/-- The number that bytes write after the digits of `n`. -/
def appendBytes {ι : Type*} (byte : ι → UInt8) : ℕ → List ι → ℕ
  | n, [] => n
  | n, i :: rest => appendBytes byte (256 * n + (byte i).toNat) rest

/-- The XOR distance as a number. -/
def distance (target a : KadId) : ℕ :=
  appendBytes (fun i : Fin 16 => a[i] ^^^ target[i]) 0 (List.finRange 16)

theorem appendBytes_lt {ι : Type*} {f g : ι → UInt8} {m n : ℕ} (h : m < n) (is : List ι) :
    appendBytes f m is < appendBytes g n is := by
  induction is generalizing m n with
  | nil => exact h
  | cons i is ih =>
    refine ih ?_
    have hbyte := (f i).toNat_lt
    omega

theorem appendBytes_lt_pow {ι : Type*} (f : ι → UInt8) (n : ℕ) (is : List ι) :
    appendBytes f n is < (n + 1) * 256 ^ is.length := by
  induction is generalizing n with
  | nil => simp [appendBytes]
  | cons i is ih =>
    have hbyte := (f i).toNat_lt
    calc appendBytes f (256 * n + (f i).toNat) is
        < (256 * n + (f i).toNat + 1) * 256 ^ is.length := ih _
      _ ≤ ((n + 1) * 256) * 256 ^ is.length := Nat.mul_le_mul_right _ (by omega)
      _ = (n + 1) * 256 ^ (is.length + 1) := by rw [Nat.pow_succ]; ac_rfl

theorem distance_lt (target a : KadId) : distance target a < 2 ^ 128 := by
  have h := appendBytes_lt_pow (fun i : Fin 16 => a[i] ^^^ target[i]) 0 (List.finRange 16)
  rw [List.length_finRange] at h
  exact h

theorem compare_byte_lt {x y : UInt8} (h : x.toNat < y.toNat) : compare x y = .lt := by
  simp [compare, compareOfLessAndEq, UInt8.lt_iff_toNat_lt, h]

theorem compare_byte_gt {x y : UInt8} (h : y.toNat < x.toNat) : compare x y = .gt := by
  have hne : x ≠ y := fun heq => by
    subst heq
    omega
  simp [compare, compareOfLessAndEq, UInt8.lt_iff_toNat_lt, hne, Nat.le_of_lt h]

theorem compare_byte_self (x : UInt8) : compare x x = .eq := by
  simp [compare, compareOfLessAndEq]

theorem xorCmpAt_eq (a b target : KadId) (n : ℕ) (is : List (Fin 16)) :
    xorCmpAt a b target is =
      compare (appendBytes (fun i : Fin 16 => a[i] ^^^ target[i]) n is)
        (appendBytes (fun i : Fin 16 => b[i] ^^^ target[i]) n is) := by
  induction is generalizing n with
  | nil => simp [xorCmpAt, appendBytes]
  | cons i is ih =>
    simp only [xorCmpAt, appendBytes]
    rcases lt_trichotomy (a[i] ^^^ target[i]).toNat (b[i] ^^^ target[i]).toNat with hlt | heq | hgt
    · rw [compare_byte_lt hlt]
      exact (Nat.compare_eq_lt.mpr (appendBytes_lt (by omega) is)).symm
    · rw [UInt8.toNat_inj.mp heq, compare_byte_self]
      exact ih _
    · rw [compare_byte_gt hgt]
      exact (Nat.compare_eq_gt.mpr (appendBytes_lt (by omega) is)).symm

theorem xorCmp_eq (a b target : KadId) :
    xorCmp a b target = compare (distance target a) (distance target b) :=
  xorCmpAt_eq a b target 0 _

theorem xorCmp_eq_lt_iff (a b target : KadId) :
    xorCmp a b target = .lt ↔ distance target a < distance target b := by
  rw [xorCmp_eq, Nat.compare_eq_lt]

theorem xorCmp_isLE_iff (a b target : KadId) :
    (xorCmp a b target).isLE = true ↔ distance target a ≤ distance target b := by
  rw [xorCmp_eq, Nat.isLE_compare]

end RinaDown.KadContacts
