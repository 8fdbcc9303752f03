import Mathlib.Data.List.MinMax

/-!
# Expiring chains

A cell keeps the best of the values that are recorded in it, and the time of the newest. When the
newest has expired the cell is empty, and the next value starts anew. So the cell holds the best of
the values back to the first gap that is as long as the time to live. A copy of the cell from
earlier times is behind it, and merging the copy changes nothing.
-/

namespace RinaDown.ExpiringChains
open Option

universe u

structure Stamped (V : Type u) where
  value : V
  time : ℕ
deriving DecidableEq

variable {V : Type u}

/-- What has not expired. -/
def fresh (ttl now : ℕ) (cell : Option (Stamped V)) : Option (Stamped V) :=
  cell.filter fun r => now - r.time < ttl

/-- The records, newest first, from now back to the first gap of at least `ttl`. -/
def chain (ttl : ℕ) : ℕ → List (Stamped V) → List (Stamped V)
  | _, [] => []
  | now, r :: records => if now - r.time < ttl then r :: chain ttl r.time records else []

section
variable (better : V → V → Bool)

def best (a b : V) : V := if better b a then b else a

/-- A new value replaces what has expired, and otherwise the better value is kept. -/
def record (ttl now : ℕ) (value : V) (cell : Option (Stamped V)) : Option (Stamped V) :=
  match fresh ttl now cell with
  | none => some ⟨value,now⟩
  | some old => some ⟨best better old.value value,now⟩

/-- A copy is taken over where there is nothing or where it is better. -/
def adopt (ttl now : ℕ) (copy cell : Option (Stamped V)) : Option (Stamped V) :=
  match copy, fresh ttl now cell with
  | none, _ => cell
  | some c, none => some c
  | some c, some m => if better c.value m.value then some c else cell

/-- The best of the values, newest first. -/
def bestOf : List (Stamped V) → Option V
  | [] => none
  | r :: records =>
    match bestOf records with
    | none => some r.value
    | some v => some (best better v r.value)

/-- The best value under the newest time. -/
def summary (records : List (Stamped V)) : Option (Stamped V) :=
  match records.head?, bestOf better records with
  | some r, some v => some ⟨v,r.time⟩
  | _, _ => none

end

/-! ## Time passes -/

variable {ttl now t : ℕ} {cell : Option (Stamped V)} {records : List (Stamped V)}

theorem fresh_eq_some_iff {r : Stamped V} :
    fresh ttl now cell = some r ↔ cell = some r ∧ now - r.time < ttl := by
  rw [fresh, filter_eq_some_iff, decide_eq_true_iff]

@[simp] theorem fresh_none : fresh ttl now (none : Option (Stamped V)) = none := rfl

@[simp] theorem fresh_some (r : Stamped V) :
    fresh ttl now (some r) = if now - r.time < ttl then some r else none := by
  rw [fresh, filter_some]
  simp only [decide_eq_true_eq]

theorem fresh_fresh (h : now ≤ t) : fresh ttl t (fresh ttl now cell) = fresh ttl t cell := by
  apply ext
  intro r
  rw [fresh_eq_some_iff, fresh_eq_some_iff, fresh_eq_some_iff]
  constructor
  · exact fun ⟨⟨hcell,_⟩,hfresh⟩ => ⟨hcell,hfresh⟩
  · intro ⟨hcell,hfresh⟩
    exact ⟨⟨hcell,by omega⟩,hfresh⟩

variable {better : V → V → Bool}

theorem bestOf_cons_isSome (r : Stamped V) (records : List (Stamped V)) :
    (bestOf better (r :: records)).isSome = true := by
  rw [bestOf]
  split <;> rfl

theorem summary_cons (r : Stamped V) (records : List (Stamped V)) :
    summary better (r :: records) = (bestOf better (r :: records)).map fun v => ⟨v,r.time⟩ := by
  obtain ⟨v,hv⟩ := isSome_iff_exists.mp (@bestOf_cons_isSome _ better r records)
  rw [summary, List.head?_cons, hv]
  rfl

theorem map_value_summary (records : List (Stamped V)) :
    (summary better records).map Stamped.value = bestOf better records := by
  cases records with
  | nil => rfl
  | cons r records =>
    rw [summary_cons, map_map]
    exact map_id'

/-- A chain is cut off as a whole, when its newest record expires. -/
theorem summary_chain_of_le (h : now ≤ t) : summary better (chain ttl t records) =
    fresh ttl t (summary better (chain ttl now records)) := by
  cases records with
  | nil => rfl
  | cons r records =>
    rw [chain, chain]
    by_cases ht : t - r.time < ttl
    · have hnow : now - r.time < ttl := by omega
      rw [if_pos ht, if_pos hnow, summary_cons]
      cases bestOf better (r :: chain ttl r.time records) with
      | none => rfl
      | some v => simp [ht]
    · rw [if_neg ht]
      by_cases hnow : now - r.time < ttl
      · rw [if_pos hnow, summary_cons]
        cases bestOf better (r :: chain ttl r.time records) with
        | none => rfl
        | some v => simp [ht, summary]
      · rw [if_neg hnow]
        rfl

/-! ## What is kept -/

/-- A cell holds its chain of records, and a copy of it is behind. -/
structure Kept (better : V → V → Bool) (ttl now : ℕ) (copy cell : Option (Stamped V))
    (records : List (Stamped V)) : Prop where
  holds : fresh ttl now cell = summary better (chain ttl now records)
  past : ∀ m, cell = some m → m.time ≤ now
  behind : ∀ c, fresh ttl now copy = some c →
    ∃ m, fresh ttl now cell = some m ∧ better c.value m.value = false ∧ c.time ≤ m.time

variable {copy : Option (Stamped V)}

theorem kept_nil : Kept better ttl now (none : Option (Stamped V)) none [] :=
  ⟨rfl,nofun,nofun⟩

theorem Kept.later (h : Kept better ttl now copy cell records) (hle : now ≤ t) :
    Kept better ttl t copy cell records where
  holds := by rw [← fresh_fresh hle, h.holds, ← summary_chain_of_le hle]
  past m hm := (h.past m hm).trans hle
  behind c hc := by
    rw [← fresh_fresh hle, fresh_eq_some_iff] at hc
    obtain ⟨m,hm,hbetter,htime⟩ := h.behind c hc.1
    refine ⟨m,?_,hbetter,htime⟩
    rw [← fresh_fresh hle, hm, fresh_eq_some_iff]
    exact ⟨rfl,by omega⟩

theorem Kept.prune (h : Kept better ttl now copy cell records) :
    Kept better ttl now copy (fresh ttl now cell) records where
  holds := by rw [fresh_fresh le_rfl, h.holds]
  past m hm := h.past m (fresh_eq_some_iff.mp hm).1
  behind c hc := by
    rw [fresh_fresh le_rfl]
    exact h.behind c hc

theorem Kept.save (hirrefl : ∀ v, better v v = false) (h : Kept better ttl now copy cell records) :
    Kept better ttl now (fresh ttl now cell) (fresh ttl now cell) records where
  holds := h.prune.holds
  past := h.prune.past
  behind c hc := ⟨c,hc,hirrefl c.value,le_rfl⟩

theorem Kept.restore (hirrefl : ∀ v, better v v = false) (hle : now ≤ t)
    (h : Kept better ttl now copy cell records) :
    Kept better ttl t (fresh ttl now cell) (adopt better ttl t (fresh ttl t (fresh ttl now cell)) none)
      records := by
  have hadopt : adopt better ttl t (fresh ttl t (fresh ttl now cell)) none = fresh ttl t cell := by
    rw [fresh_fresh hle]
    cases fresh ttl t cell with
    | none => rfl
    | some c => rfl
  rw [hadopt]
  have hlater := (h.later hle).prune
  refine ⟨hlater.holds,hlater.past,fun c hc => ⟨c,?_,hirrefl c.value,le_rfl⟩⟩
  rw [fresh_fresh hle] at hc
  rw [fresh_fresh le_rfl, hc]

/-- The copy changes nothing. -/
theorem Kept.adopt_eq (h : Kept better ttl now copy cell records) :
    adopt better ttl now (fresh ttl now copy) cell = cell := by
  cases hcopy : fresh ttl now copy with
  | none => rfl
  | some c =>
    obtain ⟨m,hm,hbetter,-⟩ := h.behind c hcopy
    simp [adopt, hm, hbetter]

theorem Kept.record (httl : 0 < ttl)
    (hneg : ∀ a b c, better b a = true → better c a = false → better c b = false)
    (h : Kept better ttl now copy cell records) (value : V) :
    Kept better ttl now copy (record better ttl now value cell) (⟨value,now⟩ :: records) := by
  have hchain : chain ttl now (⟨value,now⟩ :: records) =
      (⟨value,now⟩ :: chain ttl now records : List (Stamped V)) := by
    rw [chain, if_pos (by simpa using httl)]
  have hbest : bestOf better (chain ttl now records) =
      (fresh ttl now cell).map Stamped.value := by
    rw [h.holds, map_value_summary]
  have hnow : ∀ v : V, fresh ttl now (some ⟨v,now⟩) = some ⟨v,now⟩ := fun v => by
    rw [fresh_eq_some_iff]
    exact ⟨rfl,by simpa using httl⟩
  cases hcell : fresh ttl now cell with
  | none =>
    have hrecord : ExpiringChains.record better ttl now value cell = some ⟨value,now⟩ := by
      rw [ExpiringChains.record, hcell]
    rw [hrecord]
    refine ⟨?_,fun m hm => by cases hm; exact le_rfl,fun c hc => ?_⟩
    · rw [hnow, hchain, summary_cons, bestOf, hbest, hcell]
      rfl
    · obtain ⟨m,hm,-⟩ := h.behind c hc
      rw [hcell] at hm
      cases hm
  | some old =>
    have hrecord : ExpiringChains.record better ttl now value cell =
        some ⟨best better old.value value,now⟩ := by
      rw [ExpiringChains.record, hcell]
    rw [hrecord]
    refine ⟨?_,fun m hm => by cases hm; exact le_rfl,fun c hc => ?_⟩
    · rw [hnow, hchain, summary_cons, bestOf, hbest, hcell]
      rfl
    · obtain ⟨m,hm,hbetter,htime⟩ := h.behind c hc
      cases hcell.symm.trans hm
      refine ⟨_,hnow _,?_,htime.trans (h.past old (fresh_eq_some_iff.mp hcell).1)⟩
      show better c.value (best better old.value value) = false
      rw [best]
      split_ifs with hnew
      · exact hneg _ _ _ hnew hbetter
      · exact hbetter

/-! ## The best by an order -/

section
variable [LinearOrder V]

theorem best_lt (a b : V) : best (fun x y => decide (x < y)) a b = min a b := by
  rw [best, min_def]
  by_cases h : a ≤ b
  · simp [h, not_lt.mpr h]
  · simp [h, not_le.mp h]

theorem best_gt (a b : V) : best (fun x y => decide (y < x)) a b = max a b := by
  rw [best, max_def]
  by_cases h : a < b
  · simp [h, h.le]
  · by_cases hle : a ≤ b
    · simp [le_antisymm hle (not_lt.mp h)]
    · simp [h, hle]

theorem bestOf_lt (records : List (Stamped V)) :
    bestOf (fun x y => decide (x < y)) records = (records.map Stamped.value).min? := by
  induction records with
  | nil => rfl
  | cons r records ih =>
    rw [bestOf, ih, List.map_cons, List.min?_cons]
    cases (records.map Stamped.value).min? with
    | none => rfl
    | some v => simp [best_lt, min_comm]

theorem bestOf_gt (records : List (Stamped V)) :
    bestOf (fun x y => decide (y < x)) records = (records.map Stamped.value).max? := by
  induction records with
  | nil => rfl
  | cons r records ih =>
    rw [bestOf, ih, List.map_cons, List.max?_cons]
    cases (records.map Stamped.value).max? with
    | none => rfl
    | some v => simp [best_gt, max_comm]

end

end RinaDown.ExpiringChains
