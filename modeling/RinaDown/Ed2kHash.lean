import Mathlib.Data.Vector.Basic
import RinaDown.Saturation

/-!
# Parts and root hashes of ED2K files

A file is cut into parts of one size, each part is hashed, and the hashes of the
parts are hashed again to the root. MD4 is a parameter. A file whose size is a
multiple of the part size gets the hash of an empty part at the end of the list
before it is hashed.
-/

namespace RinaDown.Ed2kHash

open Saturation

abbrev Bytes := List UInt8

abbrev Digest := Vector UInt8 16

def ed2kPartSize : ℕ := 9728000

def blockSize : ℕ := 184320

def md4Empty : Digest :=
  #v[0x31, 0xd6, 0xcf, 0xe0, 0xd1, 0x6a, 0xe9, 0x31, 0xb7, 0x3c, 0x59, 0xd7, 0xe0, 0xc0, 0x89, 0xc0]

def partCount (totalSize partSize : ℕ) : ℕ :=
  if totalSize = 0 then 1 else (totalSize + partSize - 1) / partSize

def partSpan (index totalSize partSize : ℕ) : ℕ × ℕ :=
  let start := saturatingMul index partSize
  let stop := min (saturatingAdd start partSize) totalSize
  (min start totalSize, stop)

def isPhantomTail (totalSize partSize : ℕ) : Bool := 0 < totalSize ∧ totalSize % partSize = 0

section Roots

variable (md4 : Bytes → Digest)

def computeRoot : List Digest → Digest
  | [h] => h
  | hashes => md4 (hashes.flatMap Vector.toList)

def buildRootInput (netHashes : List Digest) (totalSize partSize : ℕ) : List Digest :=
  if isPhantomTail totalSize partSize then netHashes ++ [md4Empty] else netHashes

def verifyHashsetRoot (netHashes : List Digest) (expectedRoot : Digest) (totalSize partSize : ℕ) :
    Bool :=
  netHashes.length = partCount totalSize partSize ∧
    computeRoot md4 (buildRootInput netHashes totalSize partSize) = expectedRoot

end Roots

def part (content : Bytes) (index totalSize partSize : ℕ) : Bytes :=
  let span := partSpan index totalSize partSize
  (content.drop span.1).take (span.2 - span.1)

/-- Below 2^64 nothing saturates. -/
theorem partSpan_eq {totalSize : ℕ} (h : totalSize < 2 ^ 64) (index partSize : ℕ) :
    partSpan index totalSize partSize =
      (min (index * partSize) totalSize, min ((index + 1) * partSize) totalSize) := by
  have hmax : totalSize ≤ maxU64 := by
    rw [maxU64]
    omega
  rw [partSpan, saturatingMul, saturatingAdd, Nat.add_mul, Nat.one_mul]
  refine Prod.ext ?_ ?_ <;> dsimp only <;> omega

theorem part_single {content : Bytes} {partSize : ℕ} (hps : 0 < partSize)
    (hlen : content.length < 2 ^ 64) (hone : partCount content.length partSize = 1) :
    part content 0 content.length partSize = content := by
  have hle : content.length ≤ partSize := by
    rw [partCount] at hone
    split_ifs at hone with hzero
    · omega
    · have hlt := Nat.lt_mul_of_div_lt (show (content.length + partSize - 1) / partSize < 2 by omega) hps
      omega
  rw [part, partSpan_eq hlen]
  simp [Nat.min_eq_right hle]

end RinaDown.Ed2kHash
