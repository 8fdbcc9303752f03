import Mathlib.Algebra.Order.Ring.Int
import Mathlib.Data.List.Pairwise

/-!
# Partitions of an interval into labelled closed ranges

A family of values, each with a closed range of integers, partitions `[0, T)` if the ranges are
non-empty, stay inside, are disjoint and leave no gap. The family is given by its labels, because
the operations below replace one or two of them. A partition sorted by start is a tiling, and the
other way round.
-/

namespace RinaDown.IntervalPartition
open List Option

universe u v

variable {κ : Type u} {V : Type v} {lo hi : V → ℤ}

structure Partitions (lo hi : V → ℤ) (f : κ → Option V) (T : ℤ) : Prop where
  nonempty : ∀ k v, f k = some v → lo v ≤ hi v
  within : ∀ k v, f k = some v → 0 ≤ lo v ∧ hi v < T
  cover : ∀ x, 0 ≤ x → x < T → ∃ k v, f k = some v ∧ lo v ≤ x ∧ x ≤ hi v
  disjoint : ∀ j k v w, f j = some v → f k = some w → j ≠ k → hi v < lo w ∨ hi w < lo v

variable {T : ℤ} {f g : κ → Option V} {l : List V}

theorem Partitions.eq_of_mem (h : Partitions lo hi f T) {j k : κ} {v w : V} {x : ℤ}
    (hj : f j = some v) (hk : f k = some w) (hv : lo v ≤ x ∧ x ≤ hi v) (hw : lo w ≤ x ∧ x ≤ hi w) :
    j = k := by
  by_contra hne
  rcases h.disjoint j k v w hj hk hne with h | h <;> omega

theorem Partitions.congr (h : Partitions lo hi f T)
    (hfg : ∀ k, (g k).map (fun v => (lo v, hi v)) = (f k).map (fun v => (lo v, hi v))) :
    Partitions lo hi g T := by
  have hback : ∀ {k w}, g k = some w → ∃ v, f k = some v ∧ lo v = lo w ∧ hi v = hi w := by
    intro k w hk
    have := hfg k
    rw [hk, map_some, eq_comm, map_eq_some_iff] at this
    obtain ⟨v,hv,heq⟩ := this
    exact ⟨v,hv,congrArg Prod.fst heq,congrArg Prod.snd heq⟩
  refine ⟨fun k w hk => ?_,fun k w hk => ?_,fun x h0 hT => ?_,fun j k w w' hj hk hne => ?_⟩
  · obtain ⟨v,hv,hlo,hhi⟩ := hback hk
    have := h.nonempty k v hv
    omega
  · obtain ⟨v,hv,hlo,hhi⟩ := hback hk
    have := h.within k v hv
    omega
  · obtain ⟨k,v,hv,hx⟩ := h.cover x h0 hT
    have := hfg k
    rw [hv, map_some, map_eq_some_iff] at this
    obtain ⟨w,hw,heq⟩ := this
    have hlo : lo w = lo v := congrArg Prod.fst heq
    have hhi : hi w = hi v := congrArg Prod.snd heq
    exact ⟨k,w,hw,by omega,by omega⟩
  · obtain ⟨v,hv,hlo,hhi⟩ := hback hj
    obtain ⟨v',hv',hlo',hhi'⟩ := hback hk
    have := h.disjoint j k v v' hv hv' hne
    omega

/-- Splitting: the label `k` keeps what lies below `p`, a fresh label takes the rest. -/
theorem Partitions.split {p : ℤ} (h : Partitions lo hi f T) {k k' : κ} {v w w' : V}
    (hk : f k = some v) (hfresh : f k' = none) (hp : lo v < p ∧ p ≤ hi v) (hgk : g k = some w)
    (hw : lo w = lo v ∧ hi w = p - 1) (hgk' : g k' = some w') (hw' : lo w' = p ∧ hi w' = hi v)
    (hother : ∀ j, j ≠ k → j ≠ k' → g j = f j) : Partitions lo hi g T := by
  have hne : k ≠ k' := by
    rintro rfl
    simp [hk] at hfresh
  have hin := h.within k v hk
  have hcases : ∀ {j u}, g j = some u →
      (j = k ∧ u = w) ∨ (j = k' ∧ u = w') ∨ (j ≠ k ∧ j ≠ k' ∧ f j = some u) := by
    intro j u hj
    by_cases h1 : j = k
    · subst h1
      exact .inl ⟨rfl,by simpa [hgk, eq_comm] using hj⟩
    by_cases h2 : j = k'
    · subst h2
      exact .inr (.inl ⟨rfl,by simpa [hgk', eq_comm] using hj⟩)
    · exact .inr (.inr ⟨h1,h2,by rw [← hother j h1 h2, hj]⟩)
  refine ⟨fun j u hj => ?_,fun j u hj => ?_,fun x h0 hT => ?_,fun i j u u' hi' hj' hij => ?_⟩
  · rcases hcases hj with ⟨rfl,rfl⟩ | ⟨rfl,rfl⟩ | ⟨-,-,hf⟩
    · omega
    · omega
    · exact h.nonempty j u hf
  · rcases hcases hj with ⟨rfl,rfl⟩ | ⟨rfl,rfl⟩ | ⟨-,-,hf⟩
    · omega
    · omega
    · exact h.within j u hf
  · obtain ⟨j,u,hu,hx⟩ := h.cover x h0 hT
    by_cases h1 : j = k
    · subst h1
      rw [hk, some.injEq] at hu
      subst hu
      by_cases hxp : x < p
      · exact ⟨j,w,hgk,by omega,by omega⟩
      · exact ⟨k',w',hgk',by omega,by omega⟩
    · have h2 : j ≠ k' := by
        rintro rfl
        simp [hfresh] at hu
      exact ⟨j,u,by rw [hother j h1 h2, hu],hx⟩
  · rcases hcases hi' with ⟨rfl,rfl⟩ | ⟨rfl,rfl⟩ | ⟨hik,-,hf⟩ <;>
      rcases hcases hj' with ⟨rfl,rfl⟩ | ⟨rfl,rfl⟩ | ⟨hjk,-,hf'⟩
    · exact absurd rfl hij
    · omega
    · have := h.disjoint _ _ _ _ hk hf' hij
      omega
    · omega
    · exact absurd rfl hij
    · have := h.disjoint _ _ _ _ hk hf' (Ne.symm hjk)
      omega
    · have := h.disjoint _ _ _ _ hf hk hij
      omega
    · have := h.disjoint _ _ _ _ hf hk hik
      omega
    · exact h.disjoint i j u u' hf hf' hij

/-- Appending: a fresh label takes everything from the old end to the new one. -/
theorem Partitions.append {T' : ℤ} (h : Partitions lo hi f T) {k' : κ} {w' : V} (hT0 : 0 ≤ T)
    (hT : T < T') (hfresh : f k' = none) (hgk' : g k' = some w') (hw' : lo w' = T ∧ hi w' = T' - 1)
    (hother : ∀ j, j ≠ k' → g j = f j) : Partitions lo hi g T' := by
  have hcases : ∀ {j u}, g j = some u → (j = k' ∧ u = w') ∨ (j ≠ k' ∧ f j = some u) := by
    intro j u hj
    by_cases h1 : j = k'
    · subst h1
      exact .inl ⟨rfl,by simpa [hgk', eq_comm] using hj⟩
    · exact .inr ⟨h1,by rw [← hother j h1, hj]⟩
  refine ⟨fun j u hj => ?_,fun j u hj => ?_,fun x h0 hx => ?_,fun i j u u' hi' hj' hij => ?_⟩
  · rcases hcases hj with ⟨rfl,rfl⟩ | ⟨-,hf⟩
    · omega
    · exact h.nonempty j u hf
  · rcases hcases hj with ⟨rfl,rfl⟩ | ⟨-,hf⟩
    · omega
    · have := h.within j u hf
      omega
  · by_cases hxT : x < T
    · obtain ⟨j,u,hu,hxu⟩ := h.cover x h0 hxT
      have h1 : j ≠ k' := by
        rintro rfl
        simp [hfresh] at hu
      exact ⟨j,u,by rw [hother j h1, hu],hxu⟩
    · exact ⟨k',w',hgk',by omega,by omega⟩
  · rcases hcases hi' with ⟨rfl,rfl⟩ | ⟨-,hf⟩ <;>
      rcases hcases hj' with ⟨rfl,rfl⟩ | ⟨-,hf'⟩
    · exact absurd rfl hij
    · have := h.within j u' hf'
      omega
    · have := h.within i u hf
      omega
    · exact h.disjoint i j u u' hf hf' hij

/-- Merging: the label `k` takes over the range of the label `k'` right after its own. -/
theorem Partitions.merge (h : Partitions lo hi f T) {k k' : κ} {v v' w : V} (hne : k ≠ k')
    (hk : f k = some v) (hk' : f k' = some v') (hadj : lo v' = hi v + 1) (hgk : g k = some w)
    (hw : lo w = lo v ∧ hi w = hi v') (hgk' : g k' = none)
    (hother : ∀ j, j ≠ k → j ≠ k' → g j = f j) : Partitions lo hi g T := by
  have hin := h.within k v hk
  have hin' := h.within k' v' hk'
  have hv := h.nonempty k v hk
  have hv' := h.nonempty k' v' hk'
  have hcases : ∀ {j u}, g j = some u →
      (j = k ∧ u = w) ∨ (j ≠ k ∧ j ≠ k' ∧ f j = some u) := by
    intro j u hj
    by_cases h1 : j = k
    · subst h1
      exact .inl ⟨rfl,by simpa [hgk, eq_comm] using hj⟩
    · have h2 : j ≠ k' := by
        rintro rfl
        simp [hgk'] at hj
      exact .inr ⟨h1,h2,by rw [← hother j h1 h2, hj]⟩
  refine ⟨fun j u hj => ?_,fun j u hj => ?_,fun x h0 hT => ?_,fun i j u u' hi' hj' hij => ?_⟩
  · rcases hcases hj with ⟨rfl,rfl⟩ | ⟨-,-,hf⟩
    · omega
    · exact h.nonempty j u hf
  · rcases hcases hj with ⟨rfl,rfl⟩ | ⟨-,-,hf⟩
    · omega
    · exact h.within j u hf
  · obtain ⟨j,u,hu,hx⟩ := h.cover x h0 hT
    by_cases h1 : j = k
    · subst h1
      rw [hk, some.injEq] at hu
      subst hu
      exact ⟨j,w,hgk,by omega,by omega⟩
    by_cases h2 : j = k'
    · subst h2
      rw [hk', some.injEq] at hu
      subst hu
      exact ⟨k,w,hgk,by omega,by omega⟩
    · exact ⟨j,u,by rw [hother j h1 h2, hu],hx⟩
  · rcases hcases hi' with ⟨rfl,rfl⟩ | ⟨hik,hik',hf⟩ <;>
      rcases hcases hj' with ⟨rfl,rfl⟩ | ⟨hjk,hjk',hf'⟩
    · exact absurd rfl hij
    · have h1 := h.disjoint _ _ _ _ hk hf' hij
      have h2 := h.disjoint _ _ _ _ hk' hf' (Ne.symm hjk')
      have h3 := h.nonempty j u' hf'
      omega
    · have h1 := h.disjoint _ _ _ _ hf hk hij
      have h2 := h.disjoint _ _ _ _ hf hk' hik'
      have h3 := h.nonempty i u hf
      omega
    · exact h.disjoint i j u u' hf hf' hij

/-- The values tile `[a, b)` from left to right. -/
def Tiles (lo hi : V → ℤ) : ℤ → List V → ℤ → Prop
  | a, [], b => a = b
  | a, v :: l, b => lo v = a ∧ lo v ≤ hi v ∧ Tiles lo hi (hi v + 1) l b

theorem Tiles.le : ∀ {a b : ℤ}, Tiles lo hi a l b → a ≤ b := by
  induction l with
  | nil =>
    intro a b h
    exact le_of_eq h
  | cons v l ih =>
    rintro a b ⟨hlo,hv,hl⟩
    have := ih hl
    omega

theorem Tiles.within : ∀ {a b : ℤ}, Tiles lo hi a l b →
    ∀ v ∈ l, a ≤ lo v ∧ lo v ≤ hi v ∧ hi v < b := by
  induction l with
  | nil => simp
  | cons v l ih =>
    rintro a b ⟨hlo,hv,hl⟩ w hw
    rcases mem_cons.mp hw with rfl | hw
    · have := hl.le
      omega
    · have := ih hl w hw
      omega

theorem Tiles.cover : ∀ {a b : ℤ}, Tiles lo hi a l b →
    ∀ x, a ≤ x → x < b → ∃ v ∈ l, lo v ≤ x ∧ x ≤ hi v := by
  induction l with
  | nil =>
    intro a b h x hax hxb
    have : a = b := h
    omega
  | cons v l ih =>
    rintro a b ⟨hlo,hv,hl⟩ x hax hxb
    by_cases hx : x ≤ hi v
    · exact ⟨v,mem_cons_self,by omega,hx⟩
    · obtain ⟨w,hw,hxw⟩ := ih hl x (by omega) hxb
      exact ⟨w,mem_cons_of_mem v hw,hxw⟩

theorem Tiles.pairwise : ∀ {a b : ℤ}, Tiles lo hi a l b →
    l.Pairwise (fun v w => hi v < lo w ∨ hi w < lo v) := by
  induction l with
  | nil => simp
  | cons v l ih =>
    rintro a b ⟨hlo,hv,hl⟩
    refine pairwise_cons.mpr ⟨fun w hw => .inl ?_,ih hl⟩
    have := hl.within w hw
    omega

theorem Tiles.sum : ∀ {a b : ℤ}, Tiles lo hi a l b →
    (l.map (fun v => hi v - lo v + 1)).sum = b - a := by
  induction l with
  | nil =>
    intro a b h
    have : a = b := h
    simp [this]
  | cons v l ih =>
    rintro a b ⟨hlo,hv,hl⟩
    have := ih hl
    simp only [map_cons, sum_cons]
    omega

theorem Tiles.map {g : V → V} (hg : ∀ v, lo (g v) = lo v ∧ hi (g v) = hi v) :
    ∀ {a b : ℤ}, Tiles lo hi a l b → Tiles lo hi a (l.map g) b := by
  induction l with
  | nil => exact fun h => h
  | cons v l ih =>
    rintro a b ⟨hlo,hv,hl⟩
    refine ⟨(hg v).1.trans hlo,?_,?_⟩
    · rw [(hg v).1, (hg v).2]
      exact hv
    · rw [(hg v).2]
      exact ih hl

theorem Tiles.concat {v : V} (hv : lo v ≤ hi v) : ∀ {a : ℤ},
    Tiles lo hi a l (lo v) → Tiles lo hi a (l ++ [v]) (hi v + 1) := by
  induction l with
  | nil => exact fun h => ⟨h.symm,hv,rfl⟩
  | cons w l ih => exact fun ⟨hlo,hw,hl⟩ => ⟨hlo,hw,ih hl⟩

theorem Tiles.last : ∀ {a b : ℤ}, Tiles lo hi a l b →
    ∀ v ∈ l.getLast?, hi v + 1 = b := by
  induction l with
  | nil => exact fun _ v hv => nomatch hv
  | cons w l ih =>
    rintro a b ⟨-,-,hl⟩ v hv
    cases l with
    | nil =>
      cases hv
      exact hl
    | cons u l => exact ih hl v (by rwa [getLast?_cons_cons] at hv)

/-- Disjoint ranges that cover `[a, b)`, sorted by start, tile it. -/
theorem tiles_of_cover : ∀ {a b : ℤ}, a ≤ b →
    (∀ v ∈ l, a ≤ lo v ∧ lo v ≤ hi v ∧ hi v < b) →
    (∀ x, a ≤ x → x < b → ∃ v ∈ l, lo v ≤ x ∧ x ≤ hi v) →
    l.Pairwise (fun v w => hi v < lo w ∨ hi w < lo v) →
    l.Pairwise (fun v w => lo v ≤ lo w) → Tiles lo hi a l b := by
  induction l with
  | nil =>
    intro a b hab _ hcover _ _
    by_contra hne
    have hlt : a < b := lt_of_le_of_ne hab hne
    obtain ⟨v,hv,-⟩ := hcover a (le_refl a) hlt
    simp at hv
  | cons v l ih =>
    intro a b hab hin hcover hdisj hsort
    rw [pairwise_cons] at hdisj hsort
    have hv := hin v mem_cons_self
    have hstart : lo v = a := by
      obtain ⟨w,hw,hwa⟩ := hcover a (le_refl a) (by omega)
      have hw0 := hin w hw
      rcases mem_cons.mp hw with rfl | hw
      · omega
      · have := hsort.1 w hw
        omega
    refine ⟨hstart,hv.2.1,ih (by omega) (fun w hw => ?_) (fun x hax hxb => ?_) hdisj.2 hsort.2⟩
    · have h1 := hin w (mem_cons_of_mem v hw)
      have h2 := hdisj.1 w hw
      have h3 := hsort.1 w hw
      omega
    · obtain ⟨w,hw,hxw⟩ := hcover x (by omega) hxb
      rcases mem_cons.mp hw with rfl | hw
      · omega
      · exact ⟨w,hw,hxw⟩

theorem Partitions.tiles (h : Partitions lo hi f T) (hT : 0 ≤ T)
    (hmem : ∀ v, v ∈ l ↔ ∃ k, f k = some v)
    (hdisj : l.Pairwise (fun v w => hi v < lo w ∨ hi w < lo v))
    (hsort : l.Pairwise (fun v w => lo v ≤ lo w)) : Tiles lo hi 0 l T := by
  refine tiles_of_cover hT (fun v hv => ?_) (fun x h0 hx => ?_) hdisj hsort
  · obtain ⟨k,hk⟩ := (hmem v).mp hv
    exact ⟨(h.within k v hk).1,h.nonempty k v hk,(h.within k v hk).2⟩
  · obtain ⟨k,v,hk,hxv⟩ := h.cover x h0 hx
    exact ⟨v,(hmem v).mpr ⟨k,hk⟩,hxv⟩

theorem Tiles.partitions (h : Tiles lo hi 0 l T) (hmem : ∀ v, v ∈ l ↔ ∃ k, f k = some v)
    (hinj : ∀ j k v, f j = some v → f k = some v → j = k) : Partitions lo hi f T := by
  refine ⟨fun k v hk => ?_,fun k v hk => ?_,fun x h0 hx => ?_,fun j k v w hj hk hne => ?_⟩
  · exact (h.within v ((hmem v).mpr ⟨k,hk⟩)).2.1
  · have := h.within v ((hmem v).mpr ⟨k,hk⟩)
    exact ⟨this.1,this.2.2⟩
  · obtain ⟨v,hv,hxv⟩ := h.cover x h0 hx
    obtain ⟨k,hk⟩ := (hmem v).mp hv
    exact ⟨k,v,hk,hxv⟩
  · have hvw : v ≠ w := by
      rintro rfl
      exact hne (hinj j k v hj hk)
    have : Std.Symm (fun v w : V => hi v < lo w ∨ hi w < lo v) := ⟨fun _ _ => Or.symm⟩
    exact h.pairwise.forall ((hmem v).mpr ⟨j,hj⟩) ((hmem w).mpr ⟨k,hk⟩) hvw

/-! ## Numbers in exactly one range -/

/-- Tiles hold every number of the interval once and no other number. -/
theorem Tiles.countP : ∀ {a b : ℤ}, Tiles lo hi a l b → ∀ x,
    l.countP (fun v => lo v ≤ x ∧ x ≤ hi v) = if a ≤ x ∧ x < b then 1 else 0 := by
  induction l with
  | nil =>
    intro a b h x
    have hab : a = b := h
    rw [countP_nil, if_neg (by omega)]
  | cons v l ih =>
    intro a b h x
    obtain ⟨hlo,hv,hl⟩ := h
    have hle := hl.le
    rw [countP_cons, ih hl x]
    simp only [decide_eq_true_eq]
    split_ifs
    all_goals omega

theorem pairwise_of_countP (hne : ∀ v ∈ l, lo v ≤ hi v)
    (hone : ∀ x, l.countP (fun v => lo v ≤ x ∧ x ≤ hi v) ≤ 1) :
    l.Pairwise (fun v w => hi v < lo w ∨ hi w < lo v) := by
  induction l with
  | nil => exact List.Pairwise.nil
  | cons v l ih =>
    have hv := hne v mem_cons_self
    refine pairwise_cons.2 ⟨?_,ih (fun w hw => hne w (mem_cons_of_mem v hw)) ?_⟩
    · intro w hw
      have hw' := hne w (mem_cons_of_mem v hw)
      by_contra hmeet
      -- The larger of the two starts is in both ranges.
      have hx := hone (max (lo v) (lo w))
      have hpos : 0 < l.countP
          (fun u => lo u ≤ max (lo v) (lo w) ∧ max (lo v) (lo w) ≤ hi u) :=
        countP_pos_iff.2 ⟨w,hw,by simp only [decide_eq_true_eq]; omega⟩
      rw [countP_cons, if_pos (by simp only [decide_eq_true_eq]; omega)] at hx
      omega
    · intro x
      have hx := hone x
      rw [countP_cons] at hx
      omega

/-- Ranges sorted by start tile an interval if and only if they are inside it and every number of
it is in exactly one of them. -/
theorem tiles_iff_countP {a b : ℤ} (hab : a ≤ b) (hne : ∀ v ∈ l, lo v ≤ hi v)
    (hsort : l.Pairwise (fun v w => lo v ≤ lo w)) :
    Tiles lo hi a l b ↔ (∀ v ∈ l, a ≤ lo v ∧ hi v < b) ∧
      ∀ x, a ≤ x → x < b → l.countP (fun v => lo v ≤ x ∧ x ≤ hi v) = 1 := by
  constructor
  · intro h
    refine ⟨?_,?_⟩
    · intro v hv
      have hwithin := h.within v hv
      exact ⟨hwithin.1,hwithin.2.2⟩
    · intro x hax hxb
      rw [h.countP, if_pos ⟨hax,hxb⟩]
  · intro ⟨hin,hone⟩
    refine tiles_of_cover hab ?_ ?_ (pairwise_of_countP hne ?_) hsort
    · intro v hv
      exact ⟨(hin v hv).1,hne v hv,(hin v hv).2⟩
    · intro x hax hxb
      have hpos : 0 < l.countP (fun v => lo v ≤ x ∧ x ≤ hi v) := by
        rw [hone x hax hxb]
        exact Nat.one_pos
      obtain ⟨v,hv,hx⟩ := countP_pos_iff.1 hpos
      exact ⟨v,hv,of_decide_eq_true hx⟩
    · intro x
      by_cases hx : a ≤ x ∧ x < b
      · exact (hone x hx.1 hx.2).le
      · have hzero : l.countP (fun v => lo v ≤ x ∧ x ≤ hi v) = 0 := by
          rw [countP_eq_zero]
          intro v hv
          have hv' := hin v hv
          simp only [decide_eq_true_eq]
          omega
        rw [hzero]
        exact Nat.zero_le 1

end RinaDown.IntervalPartition
