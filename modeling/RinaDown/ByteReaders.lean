import RinaDown.LengthFraming

/-!
# Byte readers

A reader takes a value from the front of a byte string. Where it fails it has
moved as far as it came, so a caller that goes on after a failure goes on from
there. What a reader reads from a code word it reads from it in front of
anything, and readers compose as the code words do.
-/

namespace RinaDown.ByteReaders
open List

open LengthFraming (Bytes)

/-- The value, if there is one, and the bytes that are left. -/
def Reader (α : Type) := Bytes → Option α × Bytes

instance : Monad Reader where
  pure a := fun buf => (some a, buf)
  bind r f := fun buf =>
    match r buf with
    | (some a, rest) => f a rest
    | (none, rest) => (none, rest)

variable {α β : Type}

namespace Reader

def fail : Reader α := fun buf => (none, buf)

def remaining : Reader ℕ := fun buf => (some buf.length, buf)

def take (n : ℕ) : Reader Bytes := fun buf =>
  if buf.length < n then (none, buf) else (some (buf.take n), buf.drop n)

def u8 : Reader UInt8
  | [] => (none, [])
  | b :: rest => (some b, rest)

def fromLe : Bytes → ℕ
  | [] => 0
  | b :: rest => b.toNat + 256 * fromLe rest

def toLe : ℕ → ℕ → Bytes
  | 0, _ => []
  | width + 1, n => UInt8.ofNat n :: toLe width (n / 256)

def u16Le : Reader UInt16 := do
  let s ← take 2
  pure (UInt16.ofNat (fromLe s))

def u32Le : Reader UInt32 := do
  let s ← take 4
  pure (UInt32.ofNat (fromLe s))

def u64Le : Reader UInt64 := do
  let s ← take 8
  pure (UInt64.ofNat (fromLe s))

/-- Up to `n` values, until one fails. -/
def upTo (r : Reader α) : ℕ → Bytes → List α × Bytes
  | 0, buf => ([], buf)
  | n + 1, buf =>
    match r buf with
    | (some a, rest) => (a :: (upTo r n rest).1, (upTo r n rest).2)
    | (none, rest) => ([], rest)

def collect (r : Reader α) (n : ℕ) : Reader (List α) := fun buf =>
  (some (upTo r n buf).1, (upTo r n buf).2)

/-! ## What is read from a code word -/

/-- The reader takes the code word for the value, whatever follows. -/
def Reads (r : Reader α) (word : Bytes) (a : α) : Prop :=
  ∀ rest, r (word ++ rest) = (some a, rest)

variable {r : Reader α} {f : α → Reader β} {word word' : Bytes} {a : α} {b : β}

theorem bind_some {buf rest : Bytes} (h : r buf = (some a, rest)) : (r >>= f) buf = f a rest := by
  change (match r buf with | (some a, rest) => f a rest | (none, rest) => (none, rest)) = f a rest
  rw [h]

theorem bind_none {buf rest : Bytes} (h : r buf = (none, rest)) :
    (r >>= f) buf = (none, rest) := by
  change (match r buf with | (some a, rest) => f a rest | (none, rest) => (none, rest)) = _
  rw [h]

theorem reads_pure (a : α) : Reads (pure a) [] a := fun _ => rfl

theorem Reads.bind (h : Reads r word a) (h' : Reads (f a) word' b) :
    Reads (r >>= f) (word ++ word') b := by
  intro rest
  rw [append_assoc, bind_some (h _), h']

theorem Reads.map {g : α → β} (h : Reads r word a) :
    Reads (do let a ← r; pure (g a)) word (g a) := by
  have hbind := h.bind (f := fun a => pure (g a)) (reads_pure (g a))
  rwa [append_nil] at hbind

theorem reads_take {n : ℕ} (h : word.length = n) : Reads (take n) word word := by
  intro rest
  unfold take
  rw [if_neg (by rw [length_append]; omega), ← h, take_left, drop_left]

theorem reads_u8 (byte : UInt8) : Reads u8 [byte] byte := fun _ => rfl

@[simp] theorem length_toLe (width n : ℕ) : (toLe width n).length = width := by
  induction width generalizing n with
  | zero => rfl
  | succ width ih => rw [toLe, length_cons, ih]

theorem fromLe_toLe (width n : ℕ) (h : n < 256 ^ width) : fromLe (toLe width n) = n := by
  induction width generalizing n with
  | zero =>
    rw [Nat.pow_zero] at h
    exact (Nat.lt_one_iff.mp h).symm
  | succ width ih =>
    have hdiv : n / 256 < 256 ^ width := by
      rw [Nat.pow_succ] at h
      exact Nat.div_lt_of_lt_mul (Nat.mul_comm _ _ ▸ h)
    have hbyte : (UInt8.ofNat n).toNat = n % 256 := UInt8.toNat_ofNat'
    rw [toLe, fromLe, ih _ hdiv, hbyte]
    exact Nat.mod_add_div n 256

theorem reads_u16Le (v : UInt16) : Reads u16Le (toLe 2 v.toNat) v := by
  have h := (reads_take (length_toLe 2 v.toNat)).map (g := fun s => UInt16.ofNat (fromLe s))
  rw [fromLe_toLe 2 v.toNat v.toNat_lt, UInt16.ofNat_toNat] at h
  exact h

theorem reads_u32Le (v : UInt32) : Reads u32Le (toLe 4 v.toNat) v := by
  have h := (reads_take (length_toLe 4 v.toNat)).map (g := fun s => UInt32.ofNat (fromLe s))
  rw [fromLe_toLe 4 v.toNat v.toNat_lt, UInt32.ofNat_toNat] at h
  exact h

theorem reads_u64Le (v : UInt64) : Reads u64Le (toLe 8 v.toNat) v := by
  have h := (reads_take (length_toLe 8 v.toNat)).map (g := fun s => UInt64.ofNat (fromLe s))
  rw [fromLe_toLe 8 v.toNat v.toNat_lt, UInt64.ofNat_toNat] at h
  exact h

/-! ## Many values -/

/-- Values that are read one after another, and then what follows. -/
theorem upTo_append {γ : Type} {encode : γ → Bytes} {value : γ → α} {words : List γ}
    (h : ∀ w ∈ words, Reads r (encode w) (value w)) (n : ℕ) (rest : Bytes) :
    upTo r (words.length + n) (words.flatMap encode ++ rest) =
      (words.map value ++ (upTo r n rest).1, (upTo r n rest).2) := by
  induction words with
  | nil => rw [length_nil, Nat.zero_add]; rfl
  | cons w words ih =>
    have hw := h w mem_cons_self (words.flatMap encode ++ rest)
    have hrest := ih fun v hv => h v (mem_cons_of_mem w hv)
    rw [length_cons, Nat.succ_add, flatMap_cons, append_assoc, upTo, hw]
    dsimp only
    rw [hrest]
    rfl

theorem reads_collect {γ : Type} {encode : γ → Bytes} {value : γ → α} {words : List γ}
    (h : ∀ w ∈ words, Reads r (encode w) (value w)) :
    Reads (collect r words.length) (words.flatMap encode) (words.map value) := by
  intro rest
  have hall := upTo_append h 0 rest
  rw [Nat.add_zero] at hall
  unfold collect
  rw [hall]
  simp [upTo]

/-- An estimate of what is left that covers the values cuts nothing off. -/
theorem reads_counted {γ : Type} {encode : γ → Bytes} {value : γ → α} {words : List γ}
    {estimate : ℕ → ℕ} (h : ∀ w ∈ words, Reads r (encode w) (value w))
    (hestimate : ∀ left, (words.flatMap encode).length ≤ left → words.length ≤ estimate left) :
    Reads (do let left ← remaining; collect r (min words.length (estimate left)))
      (words.flatMap encode) (words.map value) := by
  intro rest
  have hleft : remaining (words.flatMap encode ++ rest) =
    (some (words.flatMap encode ++ rest).length, words.flatMap encode ++ rest) := rfl
  rw [bind_some hleft, Nat.min_eq_left (hestimate _ (by rw [length_append]; omega))]
  exact reads_collect h rest

end Reader

end RinaDown.ByteReaders
