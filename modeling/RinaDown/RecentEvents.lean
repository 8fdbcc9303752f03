import Mathlib.Data.Int.NatAbs
import Mathlib.Data.List.Nodup

/-!
# Counting recent events

Events are counted by key within a window that moves with the clock. A table keeps the times
of the events of each key in a bucket. It is as good as the log of all events if it has lost
only what has left the window.
-/

namespace RinaDown.RecentEvents
open List

variable {κ : Type*} [DecidableEq κ]

def recent (window now : ℕ) (times : List ℕ) : List ℕ := times.filter fun t => now - t < window

abbrev Buckets (κ : Type*) := List (κ × List ℕ)

def bucket (table : Buckets κ) (key : κ) : Option (List ℕ) :=
  (table.find? fun b => b.1 = key).map Prod.snd

def times (table : Buckets κ) (key : κ) : List ℕ := (bucket table key).getD []

def total (table : Buckets κ) : ℕ := (table.map fun b => b.2.length).sum

def prune (window now : ℕ) (table : Buckets κ) : Buckets κ :=
  (table.map fun b => (b.1, recent window now b.2)).filter fun b => b.2 ≠ []

def add (key : κ) (t : ℕ) (table : Buckets κ) : Buckets κ :=
  if (bucket table key).isSome then
    table.map fun b => if b.1 = key then (b.1, b.2 ++ [t]) else b
  else table ++ [(key, [t])]

def timesOf (log : List (κ × ℕ)) (key : κ) : List ℕ := (log.filter fun e => e.1 = key).map Prod.snd

/-- A table that has lost only what has left the window. -/
structure Agrees (window now : ℕ) (table : Buckets κ) (log : List (κ × ℕ)) : Prop where
  nodup : (table.map Prod.fst).Nodup
  nonempty : ∀ b ∈ table, b.2 ≠ []
  times : ∀ now', now ≤ now' → ∀ key,
    recent window now' (times table key) = recent window now' (timesOf log key)
  total : ∀ now', now ≤ now' →
    total (prune window now' table) = (recent window now' (log.map Prod.snd)).length

variable {window now now' t : ℕ} {l : List ℕ} {table : Buckets κ} {log : List (κ × ℕ)}
  {key key' : κ}

/-! ## Windows -/

theorem recent_append (l l' : List ℕ) :
    recent window now (l ++ l') = recent window now l ++ recent window now l' :=
  filter_append _ _

theorem recent_recent (h : now ≤ now') :
    recent window now' (recent window now l) = recent window now' l := by
  rw [recent, recent, filter_filter]
  refine filter_congr fun t _ => ?_
  rw [← Bool.decide_and]
  exact decide_eq_decide.mpr (by omega)

theorem countP_le_of_forall₂ {α β : Type*} {R : α → β → Prop} {p : α → Bool} {q : β → Bool}
    {l : List α} {l' : List β} (h : List.Forall₂ R l l')
    (hpq : ∀ x y, R x y → p x = true → q y = true) : l.countP p ≤ l'.countP q := by
  induction h with
  | nil => exact Nat.le_refl _
  | @cons x y l l' hxy _ ih =>
    rw [countP_cons, countP_cons]
    cases hx : p x with
    | false => exact Nat.le_add_right_of_le ih
    | true =>
      rw [hpq x y hxy hx]
      exact Nat.add_le_add_right ih _

/-! ## Buckets -/

omit [DecidableEq κ] in
theorem total_cons (b : κ × List ℕ) : total (b :: table) = b.2.length + total table := by
  rw [total, map_cons, sum_cons, total]

omit [DecidableEq κ] in
theorem length_le_total (h : ∀ b ∈ table, b.2 ≠ []) : table.length ≤ total table := by
  induction table with
  | nil => exact Nat.le_refl _
  | cons b table ih =>
    have hpos := length_pos_iff.mpr (h b mem_cons_self)
    have hle := ih fun b' hb' => h b' (mem_cons_of_mem _ hb')
    rw [total_cons, length_cons]
    omega

theorem bucket_cons (b : κ × List ℕ) :
    bucket (b :: table) key = if b.1 = key then some b.2 else bucket table key := by
  rw [bucket, find?_cons]
  by_cases h : b.1 = key
  · rw [if_pos h, decide_eq_true h]
    rfl
  · rw [if_neg h, decide_eq_false h]
    rfl

theorem bucket_isSome_iff : (bucket table key).isSome = true ↔ key ∈ table.map Prod.fst := by
  induction table with
  | nil => exact iff_of_false Bool.false_ne_true not_mem_nil
  | cons b table ih =>
    rw [bucket_cons, map_cons, mem_cons, ← ih]
    split_ifs with hkey
    · exact iff_of_true rfl (Or.inl hkey.symm)
    · rw [or_iff_right (Ne.symm hkey)]

theorem bucket_eq_none (h : key ∉ table.map Prod.fst) : bucket table key = none :=
  Option.not_isSome_iff_eq_none.mp fun hsome => h (bucket_isSome_iff.mp hsome)

theorem times_of_mem {b : κ × List ℕ} (hnodup : (table.map Prod.fst).Nodup) (hb : b ∈ table) :
    times table b.1 = b.2 := by
  induction table with
  | nil => cases hb
  | cons b' table ih =>
    rw [map_cons, nodup_cons] at hnodup
    rw [times, bucket_cons]
    obtain rfl | hb := mem_cons.mp hb
    · rw [if_pos rfl, Option.getD_some]
    · have hne : b'.1 ≠ b.1 := fun heq => hnodup.1 (heq ▸ mem_map_of_mem hb)
      rw [if_neg hne]
      exact ih hnodup.2 hb

omit [DecidableEq κ] in
theorem prune_cons (b : κ × List ℕ) : prune window now (b :: table) =
    if recent window now b.2 = [] then prune window now table
    else (b.1, recent window now b.2) :: prune window now table := by
  rw [prune, map_cons, filter_cons]
  by_cases h : recent window now b.2 = []
  · rw [if_pos h, if_neg (by simpa using h)]
    rfl
  · rw [if_neg h, if_pos (by simpa using h)]
    rfl

omit [DecidableEq κ] in
theorem total_prune : total (prune window now table) =
    (table.map fun b => (recent window now b.2).length).sum := by
  induction table with
  | nil => rfl
  | cons b table ih =>
    rw [prune_cons, map_cons, sum_cons, ← ih]
    split_ifs with hempty
    · rw [hempty, length_nil, Nat.zero_add]
    · rw [total_cons]

omit [DecidableEq κ] in
theorem total_prune_le : total (prune window now table) ≤ total table := by
  induction table with
  | nil => exact Nat.le_refl _
  | cons b table ih =>
    have hle := length_filter_le (fun t => decide (now - t < window)) b.2
    rw [prune_cons, total_cons]
    split_ifs
    · omega
    · rw [total_cons]
      exact Nat.add_le_add hle ih

omit [DecidableEq κ] in
theorem keys_prune_sublist :
    ((prune window now table).map Prod.fst).Sublist (table.map Prod.fst) := by
  have hkeys : (table.map fun b => (b.1, recent window now b.2)).map Prod.fst =
      table.map Prod.fst := by
    rw [map_map]
    rfl
  rw [← hkeys]
  exact filter_sublist.map Prod.fst

theorem times_prune (hnodup : (table.map Prod.fst).Nodup) :
    times (prune window now table) key = recent window now (times table key) := by
  induction table with
  | nil => rfl
  | cons b table ih =>
    rw [map_cons, nodup_cons] at hnodup
    have htail := ih hnodup.2
    rw [prune_cons, times, times, bucket_cons]
    rw [times, times] at htail
    by_cases hkey : b.1 = key
    · subst hkey
      have hnone : bucket (prune window now table) b.1 = none :=
        bucket_eq_none fun h => hnodup.1 (keys_prune_sublist.subset h)
      rw [if_pos rfl, Option.getD_some]
      split_ifs with hempty
      · rw [hnone, hempty]
        rfl
      · rw [bucket_cons, if_pos rfl, Option.getD_some]
    · rw [if_neg hkey]
      split_ifs with hempty
      · exact htail
      · rw [bucket_cons, if_neg hkey]
        exact htail

omit [DecidableEq κ] in
theorem prune_prune (h : now ≤ now') :
    prune window now' (prune window now table) = prune window now' table := by
  induction table with
  | nil => rfl
  | cons b table ih =>
    rw [prune_cons, prune_cons]
    split_ifs with hempty hempty' hempty'
    · exact ih
    · rw [← recent_recent h, hempty] at hempty'
      exact absurd rfl hempty'
    · rw [prune_cons, recent_recent h, if_pos hempty', ih]
    · rw [prune_cons, recent_recent h, if_neg hempty', ih]

/-! ## Adding an event -/

theorem add_of_not_mem (h : key ∉ table.map Prod.fst) : add key t table = table ++ [(key, [t])] := by
  rw [add, bucket_eq_none h]
  rfl

theorem add_cons (b : κ × List ℕ) (hnodup : ((b :: table).map Prod.fst).Nodup) :
    add key t (b :: table) =
      if b.1 = key then (b.1, b.2 ++ [t]) :: table else b :: add key t table := by
  rw [map_cons, nodup_cons] at hnodup
  rw [add, bucket_cons]
  by_cases hkey : b.1 = key
  · subst hkey
    rw [if_pos rfl, if_pos rfl, Option.isSome_some, if_pos rfl, map_cons, if_pos rfl]
    congr 1
    refine (map_congr_left fun b' hb' => if_neg fun heq => ?_).trans (map_id _)
    exact hnodup.1 (heq ▸ mem_map_of_mem hb')
  · rw [if_neg hkey, if_neg hkey, add]
    split_ifs
    · rw [map_cons, if_neg hkey]
    · rfl

/-- What is summed over the buckets. -/
theorem sum_add {f : List ℕ → ℕ} {c : ℕ} (hf : ∀ l, f (l ++ [t]) = f l + c) (hnil : f [] = 0)
    (hnodup : (table.map Prod.fst).Nodup) :
    ((add key t table).map fun b => f b.2).sum = (table.map fun b => f b.2).sum + c := by
  induction table with
  | nil =>
    have h := hf []
    rw [nil_append, hnil, Nat.zero_add] at h
    rw [add_of_not_mem not_mem_nil]
    simp [h]
  | cons b table ih =>
    have htail := ih (nodup_cons.mp hnodup).2
    rw [add_cons b hnodup]
    split_ifs
    · rw [map_cons, map_cons, sum_cons, sum_cons, hf]
      omega
    · rw [map_cons, map_cons, sum_cons, sum_cons, htail]
      omega

theorem total_add (hnodup : (table.map Prod.fst).Nodup) :
    total (add key t table) = total table + 1 :=
  sum_add (fun _ => length_append) rfl hnodup

theorem times_add (hnodup : (table.map Prod.fst).Nodup) : times (add key t table) key' =
    if key' = key then times table key ++ [t] else times table key' := by
  induction table with
  | nil =>
    rw [add_of_not_mem not_mem_nil, nil_append, times, bucket_cons]
    by_cases hkey : key' = key
    · rw [if_pos hkey, if_pos hkey.symm]
      rfl
    · rw [if_neg hkey, if_neg (Ne.symm hkey)]
      rfl
  | cons b table ih =>
    have htail := ih (nodup_cons.mp hnodup).2
    rw [times, times] at htail
    rw [add_cons b hnodup, times, times, times, bucket_cons, bucket_cons]
    by_cases hkey : b.1 = key
    · subst hkey
      rw [if_pos rfl, bucket_cons, if_pos rfl]
      by_cases hkey' : key' = b.1
      · rw [if_pos hkey'.symm, if_pos hkey']
        rfl
      · rw [if_neg (Ne.symm hkey'), if_neg hkey', if_neg (Ne.symm hkey')]
    · rw [if_neg hkey, if_neg hkey, bucket_cons]
      by_cases hkey' : b.1 = key'
      · rw [if_pos hkey', if_pos hkey', if_neg fun h => hkey (hkey'.trans h)]
      · rw [if_neg hkey', if_neg hkey']
        exact htail

theorem keys_add (hnodup : (table.map Prod.fst).Nodup) :
    ((add key t table).map Prod.fst).Nodup := by
  by_cases hmem : key ∈ table.map Prod.fst
  · have hkeys : (table.map fun b => if b.1 = key then (b.1, b.2 ++ [t]) else b).map Prod.fst =
        table.map Prod.fst := by
      rw [map_map]
      refine map_congr_left fun b _ => ?_
      rw [Function.comp_apply]
      split_ifs <;> rfl
    rw [add, if_pos (bucket_isSome_iff.mpr hmem), hkeys]
    exact hnodup
  · rw [add_of_not_mem hmem, map_append, nodup_append]
    refine ⟨hnodup,nodup_singleton _,fun k hk k' hk' heq => ?_⟩
    obtain rfl := mem_singleton.mp hk'
    exact hmem (heq ▸ hk)

theorem add_nonempty (h : ∀ b ∈ table, b.2 ≠ []) : ∀ b ∈ add key t table, b.2 ≠ [] := by
  intro b hb
  rw [add] at hb
  split_ifs at hb
  · obtain ⟨b',hb',rfl⟩ := mem_map.mp hb
    split_ifs
    · exact append_ne_nil_of_right_ne_nil _ (cons_ne_nil t [])
    · exact h b' hb'
  · obtain hb | hb := mem_append.mp hb
    · exact h b hb
    · obtain rfl := mem_singleton.mp hb
      exact cons_ne_nil t []

/-! ## Tables that agree with the log -/

namespace Agrees

theorem nil (window now : ℕ) : Agrees window now ([] : Buckets κ) [] :=
  ⟨nodup_nil,fun _ hb => absurd hb not_mem_nil,fun _ _ _ => rfl,fun _ _ => rfl⟩

theorem later (h : Agrees window now table log) (hle : now ≤ now') :
    Agrees window now' table log :=
  ⟨h.nodup,h.nonempty,fun t ht => h.times t (Nat.le_trans hle ht),
    fun t ht => h.total t (Nat.le_trans hle ht)⟩

theorem prune (h : Agrees window now table log) :
    Agrees window now (RecentEvents.prune window now table) log where
  nodup := keys_prune_sublist.nodup h.nodup
  nonempty b hb := by
    have hmem := (mem_filter.mp hb).2
    exact of_decide_eq_true hmem
  times t ht key := by
    rw [times_prune h.nodup, recent_recent ht, h.times t ht]
  total t ht := by
    rw [prune_prune ht, h.total t ht]

theorem add (h : Agrees window now table log) (key : κ) (t : ℕ) :
    Agrees window now (RecentEvents.add key t table) (log ++ [(key, t)]) where
  nodup := keys_add h.nodup
  nonempty := add_nonempty h.nonempty
  times now' hle key' := by
    rw [times_add h.nodup, timesOf, filter_append, map_append, recent_append]
    have hold := h.times now' hle key'
    rw [timesOf] at hold
    by_cases hkey : key' = key
    · subst hkey
      rw [if_pos rfl, recent_append, hold, filter_singleton, decide_eq_true rfl]
      rfl
    · rw [if_neg hkey, hold, filter_singleton, decide_eq_false (Ne.symm hkey)]
      exact (append_nil _).symm
  total now' hle := by
    have hold := h.total now' hle
    rw [total_prune] at hold ⊢
    have hnew : ∀ l : List ℕ, (recent window now' (l ++ [t])).length =
        (recent window now' l).length + (recent window now' [t]).length := by
      intro l
      rw [recent_append, length_append]
    have hadd := @sum_add κ _ t table key (fun l => (recent window now' l).length) _ hnew rfl h.nodup
    rw [hadd, hold, map_append, recent_append, length_append]
    rfl

end Agrees

end RinaDown.RecentEvents
