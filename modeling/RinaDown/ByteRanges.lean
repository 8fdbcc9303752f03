import RinaDown.LengthFraming

/-!
# Ranges of bytes

A file is read and written at given places. The bytes of a range are a function of their places,
so that ranges can be put together and what a write changes can be said place by place.
-/

namespace RinaDown.ByteRanges
open List

open LengthFraming (Bytes)

def span (g : ℕ → UInt8) (offset n : ℕ) : Bytes := (List.range n).map fun i => g (offset + i)

/-- `read_exact_at`: a short read is an error. -/
def readExactAt (content : Bytes) (offset n : ℕ) : Option Bytes :=
  let buf := (content.drop offset).take n
  if buf.length = n then some buf else none

/-- `write_all_at`: a file is filled with zeros up to where it is written. -/
def writeAllAt (content : Bytes) (offset : ℕ) (data : Bytes) : Bytes :=
  if data = [] then content
  else content.take offset ++ List.replicate (offset - content.length) 0 ++ data ++
    content.drop (offset + data.length)

/-- The places from `offset` on have the data. -/
def overwrite (g : ℕ → UInt8) (offset : ℕ) (data : Bytes) (k : ℕ) : UInt8 :=
  if offset ≤ k then (data[k - offset]?).getD (g k) else g k

variable {g h : ℕ → UInt8} {content data : Bytes} {offset pos m n i k : ℕ}

@[simp] theorem length_span : (span g offset n).length = n := by
  rw [span, length_map, length_range]

theorem getElem?_span : (span g offset n)[i]? = if i < n then some (g (offset + i)) else none := by
  rw [span, getElem?_map]
  split_ifs with hi
  · rw [getElem?_range hi, Option.map_some]
  · rw [getElem?_eq_none (by rw [length_range]; omega), Option.map_none]

theorem span_append : span g offset m ++ span g (offset + m) n = span g offset (m + n) := by
  rw [span, span, span, range_add, map_append, map_map]
  congr 1
  refine map_congr_left fun i _ => ?_
  rw [Function.comp_apply, Nat.add_assoc]

theorem span_congr (heq : ∀ k, offset ≤ k → k < offset + n → g k = h k) :
    span g offset n = span h offset n := by
  refine map_congr_left fun i hi => heq _ (Nat.le_add_right offset i) ?_
  have hlt := mem_range.mp hi
  omega

theorem span_const {b : UInt8} (heq : ∀ k, offset ≤ k → k < offset + n → g k = b) :
    span g offset n = List.replicate n b := by
  rw [span_congr (h := fun _ => b) heq, span, map_const', length_range]

theorem readExactAt_eq
    (heq : ∀ i < n, content[pos + i]? = some (g (offset + i))) :
    readExactAt content pos n = some (span g offset n) := by
  have hbuf : (content.drop pos).take n = span g offset n := by
    apply ext_getElem?
    intro i
    rw [getElem?_take, getElem?_span, getElem?_drop]
    split_ifs with hi
    · exact heq i hi
    · rfl
  rw [readExactAt, hbuf, if_pos length_span]

theorem readExactAt_some {buf : Bytes} (hread : readExactAt content pos n = some buf) :
    buf.length = n ∧ ∀ i < n, buf[i]? = content[pos + i]? := by
  rw [readExactAt] at hread
  split_ifs at hread with hlength
  obtain rfl := Option.some.inj hread
  refine ⟨hlength,fun i hi => ?_⟩
  rw [getElem?_take, if_pos hi, getElem?_drop]

theorem length_writeAllAt (hle : offset + data.length ≤ content.length) :
    (writeAllAt content offset data).length = content.length := by
  rw [writeAllAt]
  split_ifs
  · rfl
  · simp only [length_append, length_take, length_replicate, length_drop]
    omega

theorem getElem?_writeAllAt (hle : offset + data.length ≤ content.length) :
    (writeAllAt content offset data)[i]? =
      if offset ≤ i ∧ i < offset + data.length then data[i - offset]? else content[i]? := by
  by_cases hdata : data = []
  · rw [writeAllAt, if_pos hdata, if_neg]
    rw [hdata, length_nil]
    omega
  have htake : (content.take offset).length = offset := by
    rw [length_take]
    omega
  rw [writeAllAt, if_neg hdata, Nat.sub_eq_zero_of_le (by omega), replicate_zero,
    append_nil]
  obtain hlt | hge := Nat.lt_or_ge i offset
  · rw [if_neg (by omega), append_assoc, getElem?_append_left (by omega),
      getElem?_take, if_pos hlt]
  obtain hin | hout := Nat.lt_or_ge i (offset + data.length)
  · rw [if_pos ⟨hge,hin⟩, getElem?_append_left (by rw [length_append]; omega),
      getElem?_append_right (by omega), htake]
  · rw [if_neg (by omega), getElem?_append_right (by rw [length_append]; omega),
      getElem?_drop, length_append, htake]
    congr 1
    omega

theorem overwrite_in (hge : offset ≤ k) (hlt : k < offset + data.length) :
    data[k - offset]? = some (overwrite g offset data k) := by
  have hsome : data[k - offset]? = some data[k - offset] := getElem?_eq_getElem (by omega)
  rw [overwrite, if_pos hge, hsome, Option.getD_some]

theorem overwrite_out (hout : k < offset ∨ offset + data.length ≤ k) :
    overwrite g offset data k = g k := by
  rw [overwrite]
  split_ifs with hge
  · rw [getElem?_eq_none (by omega), Option.getD_none]
  · rfl

end RinaDown.ByteRanges
