import Mathlib.Data.Int.NatAbs
import Mathlib.Data.List.Basic

/-!
# Length-prefixed framing

A field is framed by four little-endian bytes of its length. Fields shorter than
4 GiB can be read back from the front of what they are written to.
-/

namespace RinaDown.LengthFraming
open List

abbrev Bytes := List UInt8

def toLeBytes (n : ℕ) : Bytes :=
  [UInt8.ofNat n, UInt8.ofNat (n / 2 ^ 8), UInt8.ofNat (n / 2 ^ 16), UInt8.ofNat (n / 2 ^ 24)]

def frame (bytes : Bytes) : Bytes := toLeBytes bytes.length ++ bytes

def frames (fields : List Bytes) : Bytes := fields.flatMap frame

@[simp] theorem length_toLeBytes (n : ℕ) : (toLeBytes n).length = 4 := rfl

theorem ofNat_inj {m n : ℕ} : UInt8.ofNat m = UInt8.ofNat n ↔ m % 2 ^ 8 = n % 2 ^ 8 := by
  rw [← UInt8.toNat_inj]
  simp

theorem toLeBytes_injective {m n : ℕ} (hm : m < 2 ^ 32) (hn : n < 2 ^ 32)
    (h : toLeBytes m = toLeBytes n) : m = n := by
  simp only [toLeBytes, cons.injEq, ofNat_inj, and_true] at h
  obtain ⟨h0,h1,h2,h3⟩ := h
  omega

/-- A framed field can be read back from the front. -/
theorem frame_append_inj {x y s t : Bytes} (hx : x.length < 2 ^ 32) (hy : y.length < 2 ^ 32)
    (h : frame x ++ s = frame y ++ t) : x = y ∧ s = t := by
  simp only [frame, append_assoc] at h
  obtain ⟨hlength,hrest⟩ := append_inj h (by simp)
  exact append_inj hrest (toLeBytes_injective hx hy hlength)

theorem frames_append_inj {xs ys : List Bytes} {s t : Bytes} (hlength : xs.length = ys.length)
    (hxs : ∀ x ∈ xs, x.length < 2 ^ 32) (hys : ∀ y ∈ ys, y.length < 2 ^ 32)
    (h : frames xs ++ s = frames ys ++ t) : xs = ys ∧ s = t := by
  induction xs generalizing ys with
  | nil =>
    obtain rfl := length_eq_zero_iff.mp hlength.symm
    exact ⟨rfl,h⟩
  | cons x xs ih =>
    obtain ⟨y,ys,rfl⟩ := exists_of_length_succ ys hlength.symm
    simp only [frames, flatMap_cons, append_assoc] at h
    obtain ⟨rfl,hrest⟩ := frame_append_inj (hxs x (by simp)) (hys y (by simp)) h
    obtain ⟨rfl,hs⟩ := ih (Nat.succ.inj hlength) (fun z hz => hxs z (mem_cons_of_mem _ hz))
      (fun z hz => hys z (mem_cons_of_mem _ hz)) hrest
    exact ⟨rfl,hs⟩

end RinaDown.LengthFraming
