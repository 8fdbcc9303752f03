import RinaDown.Ed2kHash

/-!
# Hashsets and their root

The root of a file is computed from the hashes of its parts, by a hasher that is fed in updates.
The spans of the parts follow each other from the first byte to the last, and the list of their
hashes passes the check for the root, however the bytes are cut into updates.
-/

namespace RinaDown.Ed2kHashsets

open Ed2kHash List

/-! ## Hashers -/

structure Hasher where
  State : Type
  new : State
  update : State → Bytes → State
  finalize : State → Digest

def Hasher.run (h : Hasher) (chunks : List Bytes) : Digest := h.finalize (chunks.foldl h.update h.new)

/-- The digest is that of all bytes in one update, and that of no byte is the known one. -/
structure Lawful (h : Hasher) : Prop where
  updates : ∀ chunks, h.run chunks = h.run [chunks.flatten]
  empty : h.run [[]] = md4Empty

def hashPart (h : Hasher) (data : Bytes) : Digest := h.run [data]

variable {h : Hasher}

theorem computeRoot_updates (hlawful : Lawful h) (hashes : List Digest) (hmany : hashes.length ≠ 1) :
    computeRoot (hashPart h) hashes = h.run (hashes.map Vector.toList) := by
  rw [hlawful.updates (hashes.map Vector.toList)]
  cases hashes with
  | nil => rfl
  | cons first rest =>
    cases rest with
    | nil => exact absurd rfl hmany
    | cons second rest => rfl

def rootHash (h : Hasher) (data : Bytes) (partSize : ℕ) : Digest :=
  let total := data.length
  let hashes := (List.range (partCount total partSize)).map fun i =>
    hashPart h (part data i total partSize)
  computeRoot (hashPart h) (buildRootInput hashes total partSize)

/-! ## The spans of the parts -/

variable {total partSize : ℕ}

theorem partCount_eq (htotal : 1 ≤ total) (hsize : 0 < partSize) :
    partCount total partSize = (total - 1) / partSize + 1 := by
  rw [partCount, if_neg (by omega), ← Nat.add_div_right _ hsize]
  congr 1
  omega

theorem lt_partCount_iff (htotal : 1 ≤ total) (hsize : 0 < partSize) (i : ℕ) :
    i < partCount total partSize ↔ i * partSize < total := by
  rw [partCount_eq htotal hsize, Nat.lt_succ_iff, Nat.le_div_iff_mul_le hsize]
  omega

/-- The spans of a file: they follow each other from the first byte to the last, each has a byte
and none is longer than the part size. -/
structure Spans (total partSize : ℕ) : Prop where
  first : (partSpan 0 total partSize).1 = 0
  next : ∀ i, i + 1 < partCount total partSize →
    (partSpan (i + 1) total partSize).1 = (partSpan i total partSize).2
  last : (partSpan (partCount total partSize - 1) total partSize).2 = total
  size : ∀ i < partCount total partSize,
    (partSpan i total partSize).1 < (partSpan i total partSize).2 ∧
      (partSpan i total partSize).2 - (partSpan i total partSize).1 ≤ partSize
  exact : ∀ x < total, ∃ i < partCount total partSize,
    ∀ j < partCount total partSize,
      ((partSpan j total partSize).1 ≤ x ∧ x < (partSpan j total partSize).2) ↔ j = i

theorem spans_of_pos (htotal : 1 ≤ total) (hbound : total < 2 ^ 64) (hsize : 0 < partSize) :
    Spans total partSize := by
  have hcount := lt_partCount_iff htotal hsize
  have hpos : 0 < partCount total partSize := (hcount 0).2 (by omega)
  constructor
  · rw [partSpan_eq hbound]
    simp
  · intro i hi
    rw [partSpan_eq hbound, partSpan_eq hbound]
  · rw [partSpan_eq hbound]
    show min ((partCount total partSize - 1 + 1) * partSize) total = total
    have hend : ¬ partCount total partSize < partCount total partSize := lt_irrefl _
    rw [Nat.sub_add_cancel hpos]
    rw [hcount] at hend
    omega
  · intro i hi
    have hstart := (hcount i).1 hi
    rw [partSpan_eq hbound, Nat.add_mul, Nat.one_mul]
    dsimp only
    omega
  · intro x hx
    have hin : x / partSize * partSize ≤ x := Nat.div_mul_le_self x partSize
    refine ⟨x / partSize,(hcount _).2 (hin.trans_lt hx),?_⟩
    intro j hj
    rw [partSpan_eq hbound]
    have hbefore : j ≤ x / partSize ↔ j * partSize ≤ x := Nat.le_div_iff_mul_le hsize
    have hafter : x / partSize < j + 1 ↔ x < (j + 1) * partSize := Nat.div_lt_iff_lt_mul hsize
    dsimp only
    omega

/-! ## The root is that of the parts -/

theorem partCount_of_mod_eq_zero (htotal : 1 ≤ total) (hsize : 0 < partSize)
    (hmod : total % partSize = 0) : partCount total partSize = total / partSize := by
  have hexact : total / partSize * partSize = total := Nat.div_mul_cancel (Nat.dvd_of_mod_eq_zero hmod)
  have hcount := lt_partCount_iff htotal hsize
  have hlower : ¬ total / partSize < partCount total partSize := by
    rw [hcount, hexact]
    exact lt_irrefl _
  have hupper : total / partSize ≤ partCount total partSize := by
    by_contra hlt
    have hless : ¬ partCount total partSize < partCount total partSize := lt_irrefl _
    rw [hcount, not_lt] at hless
    have hle : total / partSize ≤ partCount total partSize :=
      Nat.div_le_of_le_mul (by rwa [Nat.mul_comm])
    omega
  omega

theorem partCount_of_mod_ne_zero (htotal : 1 ≤ total) (hsize : 0 < partSize)
    (hmod : total % partSize ≠ 0) : partCount total partSize = total / partSize + 1 := by
  have hcount := lt_partCount_iff htotal hsize
  have hsplit := Nat.div_add_mod' total partSize
  have hlower : total / partSize < partCount total partSize := (hcount _).2 (by omega)
  have hmod_lt := Nat.mod_lt total hsize
  have hupper : ¬ total / partSize + 1 < partCount total partSize := by
    rw [hcount, Nat.add_mul, Nat.one_mul]
    omega
  omega

/-- The parts of a file by the definition of the root: an exact multiple of the part size has an
empty part at its end. -/
def rootParts (content : Bytes) (partSize : ℕ) : List Bytes :=
  (List.range (content.length / partSize + 1)).map fun i =>
    (content.drop (i * partSize)).take partSize

/-- One part is hashed once; of several parts the hashes are hashed again. -/
def treeRoot (h : Hasher) : List Bytes → Digest
  | [data] => hashPart h data
  | parts => h.run (parts.map fun data => (hashPart h data).toList)

variable {content : Bytes}

theorem part_eq (hbound : content.length < 2 ^ 64) (i : ℕ) :
    part content i content.length partSize = (content.drop (i * partSize)).take partSize := by
  rw [part, partSpan_eq hbound, Nat.add_mul, Nat.one_mul]
  dsimp only
  by_cases hin : i * partSize ≤ content.length
  · rw [Nat.min_eq_left hin, take_eq_take_iff, length_drop]
    omega
  · rw [drop_eq_nil_of_le (by omega), drop_eq_nil_of_le (by omega)]
    simp

/-- The input of the root has the hash of each part, with the known hash for the empty one. -/
theorem buildRootInput_eq (hlawful : Lawful h) (htotal : 1 ≤ content.length)
    (hbound : content.length < 2 ^ 64) (hsize : 0 < partSize) :
    buildRootInput ((List.range (partCount content.length partSize)).map fun i =>
        hashPart h (part content i content.length partSize)) content.length partSize =
      (rootParts content partSize).map (hashPart h) := by
  have hhashes : ∀ n, ((List.range n).map fun i =>
      hashPart h (part content i content.length partSize)) =
        (List.range n).map fun i => hashPart h ((content.drop (i * partSize)).take partSize) := by
    intro n
    simp only [part_eq hbound]
  rw [hhashes, rootParts, map_map, buildRootInput]
  by_cases hmod : content.length % partSize = 0
  · have htail : isPhantomTail content.length partSize = true := by
      simp only [isPhantomTail, decide_eq_true_eq]
      omega
    have hend : content.length / partSize * partSize = content.length :=
      Nat.div_mul_cancel (Nat.dvd_of_mod_eq_zero hmod)
    have hempty : hashPart h [] = md4Empty := hlawful.empty
    rw [if_pos htail, partCount_of_mod_eq_zero htotal hsize hmod, range_succ, map_append]
    simp [hend, hempty]
  · have htail : ¬ isPhantomTail content.length partSize = true := by
      simp only [isPhantomTail, decide_eq_true_eq]
      omega
    rw [if_neg htail, partCount_of_mod_ne_zero htotal hsize hmod]
    rfl

theorem rootHash_eq_treeRoot (hlawful : Lawful h) (htotal : 1 ≤ content.length)
    (hbound : content.length < 2 ^ 64) (hsize : 0 < partSize) :
    rootHash h content partSize = treeRoot h (rootParts content partSize) := by
  rw [rootHash, buildRootInput_eq hlawful htotal hbound hsize]
  generalize rootParts content partSize = parts
  by_cases hone : parts.length = 1
  · obtain ⟨data,rfl⟩ := length_eq_one_iff.1 hone
    rfl
  · rw [computeRoot_updates hlawful _ (by rwa [length_map]), map_map]
    cases parts with
    | nil => rfl
    | cons first rest =>
      cases rest with
      | nil => exact absurd rfl hone
      | cons second rest => rfl

/-! ## Updates in chunks -/

/-- The pieces of chunks that lie in a window of their bytes. -/
def pieces : ℕ → ℕ → List Bytes → List Bytes
  | _, _, [] => []
  | lo, hi, chunk :: chunks =>
      (chunk.take hi).drop lo :: pieces (lo - chunk.length) (hi - chunk.length) chunks

theorem flatten_pieces (chunks : List Bytes) : ∀ lo hi,
    (pieces lo hi chunks).flatten = (chunks.flatten.take hi).drop lo := by
  induction chunks with
  | nil =>
    intro lo hi
    simp [pieces]
  | cons chunk chunks ih =>
    intro lo hi
    rw [pieces, flatten_cons, flatten_cons, ih, take_append, drop_append,
      length_take]
    by_cases hhi : hi ≤ chunk.length
    · simp [Nat.sub_eq_zero_of_le hhi]
    · rw [Nat.min_eq_right (by omega)]

def chunkedHashes (h : Hasher) (chunks : List Bytes) (total partSize : ℕ) : List Digest :=
  (List.range (partCount total partSize)).map fun i =>
    h.run (pieces (partSpan i total partSize).1 (partSpan i total partSize).2 chunks)

theorem chunkedHashes_eq (hlawful : Lawful h) {chunks : List Bytes}
    (hchunks : chunks.flatten = content) :
    chunkedHashes h chunks content.length partSize =
      (List.range (partCount content.length partSize)).map fun i =>
        hashPart h (part content i content.length partSize) := by
  rw [chunkedHashes]
  refine map_congr_left ?_
  intro i _
  rw [hlawful.updates, flatten_pieces, hchunks, drop_take]
  rfl

/-! ## The check -/

/-- The spans of the parts are those of a partition into parts of at most the part size; the
hashes of the parts, from any chunks of the content, pass the check for the root, which is the hash
of all parts with the empty one at the end of an exact multiple; and a list of another length does
not pass. -/
theorem hashset_accepted (h : Hasher) (hlawful : Lawful h) (content : Bytes) (partSize : ℕ)
    (htotal : 1 ≤ content.length) (hbound : content.length < 2 ^ 64) (hsize : 0 < partSize) :
    Spans content.length partSize ∧
      (∀ chunks, chunks.flatten = content →
        verifyHashsetRoot (hashPart h) (chunkedHashes h chunks content.length partSize)
          (rootHash h content partSize) content.length partSize = true) ∧
      rootHash h content partSize = treeRoot h (rootParts content partSize) ∧
      ∀ hashes root, hashes.length ≠ partCount content.length partSize →
        verifyHashsetRoot (hashPart h) hashes root content.length partSize = false := by
  refine ⟨spans_of_pos htotal hbound hsize,?_,rootHash_eq_treeRoot hlawful htotal hbound hsize,?_⟩
  · intro chunks hchunks
    rw [chunkedHashes_eq hlawful hchunks]
    simp [verifyHashsetRoot, rootHash]
  · intro hashes root hlength
    simp [verifyHashsetRoot, hlength]

/-- MD4 of the three letters and of the two hashes that make the root of a file of three bytes
with parts of three bytes. -/
def md4Letters : Digest :=
  #v[0xa4, 0x48, 0x01, 0x7a, 0xaf, 0x21, 0xd8, 0x52, 0x5f, 0xc1, 0x0a, 0xe8, 0x7a, 0xa6, 0x72, 0x9d]

def md4Root : Digest :=
  #v[0x8b, 0x51, 0xde, 0x98, 0x72, 0xe6, 0xc0, 0x6d, 0x79, 0xbf, 0xf7, 0xf9, 0x20, 0xd0, 0x8a, 0xa5]

def letters : Bytes := [0x61, 0x62, 0x63]

/-- MD4 on these inputs. -/
def knownDigest (data : Bytes) : Digest :=
  if data = letters then md4Letters
  else if data = md4Letters.toList ++ md4Empty.toList then md4Root
  else md4Empty

def knownHasher : Hasher := ⟨Bytes,[],fun state data => state ++ data,knownDigest⟩

theorem lawful_knownHasher : Lawful knownHasher := by
  constructor
  · intro chunks
    have hstate : chunks.foldl (fun state data : Bytes => state ++ data) [] = chunks.flatten := by
      simpa using @foldl_append_eq_append Bytes UInt8 chunks id []
    exact congrArg knownDigest hstate
  · decide

theorem letters_accepted :
    rootHash knownHasher letters 3 = md4Root ∧
      verifyHashsetRoot (hashPart knownHasher)
        (chunkedHashes knownHasher [[0x61], [], [0x62, 0x63]] 3 3) (rootHash knownHasher letters 3)
        3 3 = true :=
  ⟨by decide,(hashset_accepted knownHasher lawful_knownHasher letters 3 (by decide) (by decide)
    (by decide)).2.1 [[0x61], [], [0x62, 0x63]] rfl⟩

end RinaDown.Ed2kHashsets
