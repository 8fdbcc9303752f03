import RinaDown.LabelledExecutions
import RinaDown.SeedingQueue

/-!
# First come, first served

While a new seed is registered only when the seeds are settled, the active seeds
followed by the queue are the registered seeds in the order of their
registration: each operation moves the border between the two, takes a seed out
or appends one.
-/

namespace RinaDown.SeedingQueue
open LabelledExecutions ServiceLine
open List hiding beq_eq_decide

universe u v

variable {T : Type u} {H : Type v}

/-! ## The last stint -/

theorem maxByKey_foldl_spec {α : Type*} (key : α → ℕ) (xs : List α) (b : α) :
    ∃ c, xs.foldl (fun best x =>
        match best with
        | none => some x
        | some b => if key b ≤ key x then some x else some b) (some b) = some c ∧
      (c = b ∨ c ∈ xs) ∧ key b ≤ key c ∧ ∀ x ∈ xs, key x ≤ key c := by
  induction xs generalizing b with
  | nil => exact ⟨b,rfl,.inl rfl,le_refl _,by simp⟩
  | cons x xs ih =>
    by_cases h : key b ≤ key x
    · obtain ⟨c,hc,hmem,hle,hall⟩ := ih x
      refine ⟨c,by simpa [h] using hc,?_,h.trans hle,?_⟩
      · exact .inr (by simpa using hmem)
      · simpa using ⟨hle,hall⟩
    · obtain ⟨c,hc,hmem,hle,hall⟩ := ih b
      refine ⟨c,by simpa [h] using hc,?_,hle,?_⟩
      · exact hmem.imp_right (mem_cons_of_mem x)
      · have hx : key x ≤ key c := by omega
        simpa using ⟨hx,hall⟩

/-- `max_by_key` finds an element of the largest key. -/
theorem maxByKey_spec {α : Type*} (key : α → ℕ) {xs : List α} (h : xs ≠ []) :
    ∃ c ∈ xs, maxByKey key xs = some c ∧ ∀ x ∈ xs, key x ≤ key c := by
  cases xs with
  | nil => exact absurd rfl h
  | cons b xs =>
    obtain ⟨c,hc,hmem,hle,hall⟩ := maxByKey_foldl_spec key xs b
    exact ⟨c,by simpa using hmem,hc,by simpa using ⟨hle,hall⟩⟩

/-- If stints start one after the other, the last entry has the latest one. -/
theorem maxByKey_walk_last (order : HashOrder (T × SeedingEntry H))
    {xs : List (T × SeedingEntry H)} {e : T × SeedingEntry H}
    (h : (xs ++ [e]).Pairwise (fun a b => stint a < stint b)) :
    maxByKey stint (order.walk (xs ++ [e])) = some e := by
  have hperm := order.perm (xs ++ [e])
  have hne : order.walk (xs ++ [e]) ≠ [] := by
    intro hnil
    rw [hnil] at hperm
    simpa using hperm.length_eq
  obtain ⟨c,hc,heq,hall⟩ := maxByKey_spec stint hne
  have hle : stint e ≤ stint c := hall e (hperm.mem_iff.mpr (by simp))
  have hmem : c ∈ xs ∨ c = e := by simpa using hperm.mem_iff.mp hc
  rcases hmem with hxs | rfl
  · have hlt : stint c < stint e := (pairwise_append.mp h).2.2 c hxs e (by simp)
    omega
  · exact heq

variable [DecidableEq T]

namespace SeedingManager

/-- The active seeds are served, the queue waits. -/
def line (m : SeedingManager T H) : Line T := ⟨m.activeIds,m.queuedIds⟩

/-- The cap holds, and nobody waits while a slot is free. -/
def Settled (m : SeedingManager T H) : Prop :=
  (m.cap = 0 ∨ m.active.length ≤ m.cap) ∧ (m.queued = [] ∨ m.hasFreeSlot = false)

instance (m : SeedingManager T H) : Decidable m.Settled :=
  @instDecidableAnd _ _ _ (@instDecidableOr _ _
    (decidable_of_iff (m.queued.isEmpty = true) List.isEmpty_iff) _)

/-- The reading of the clock is later than the start of every stint. -/
def LaterThanStints (m : SeedingManager T H) (reading : ℕ) : Prop :=
  ∀ e ∈ m.active, stint e < reading

instance (m : SeedingManager T H) (reading : ℕ) : Decidable (m.LaterThanStints reading) :=
  inferInstanceAs (Decidable (∀ e ∈ m.active, _))

/-- What every operation keeps: no id twice, and the active seeds in the order of their stints. -/
structure Regular (m : SeedingManager T H) : Prop where
  nodup : m.line.order.Nodup
  stints : m.active.Pairwise (fun a b => stint a < stint b)
  clock : ∀ e ∈ m.active, stint e ≤ m.clock

variable {m n : SeedingManager T H} {e : SeedingEntry H} {id : T}

omit [DecidableEq T] in
theorem hasFreeSlot_iff :
    m.hasFreeSlot = true ↔ m.cap = 0 ∨ m.active.length < m.cap := by
  simp [hasFreeSlot]

theorem insertActive_of_notMem (h : id ∉ m.activeIds) :
    m.insertActive id e = { m with active := m.active ++ [(id, e)] } := by
  have hkeep : m.active.filter (fun d => d.1 ≠ id) = m.active := by
    refine filter_eq_self.mpr (fun d hd => decide_eq_true ?_)
    rintro rfl
    exact h (mem_map_of_mem hd)
  rw [insertActive, hkeep]

omit [DecidableEq T] in
theorem Regular.append {queued : List (T × QueuedSeed H)} {clock : ℕ} (h : m.Regular)
    (hnodup : (m.activeIds ++ id :: queued.map Prod.fst).Nodup) (hclock : m.clock ≤ clock)
    (hlater : m.LaterThanStints e.stintStarted) (he : e.stintStarted ≤ clock) :
    ({ m with active := m.active ++ [(id, e)], queued := queued, clock := clock } :
      SeedingManager T H).Regular where
  nodup := by simpa [line, activeIds, queuedIds] using hnodup
  stints := by
    refine pairwise_append.mpr ⟨h.stints,by simp,fun d hd b hb => ?_⟩
    cases mem_singleton.mp hb
    exact hlater d hd
  clock d hd := by
    rcases mem_append.mp hd with hd | hd
    · exact (h.clock d hd).trans hclock
    · cases mem_singleton.mp hd
      exact he

/-! ## Promotion -/

structure Promoted (m n : SeedingManager T H) : Prop where
  cap : n.cap = m.cap
  order : n.line.order = m.line.order
  grown : ∃ new, n.active = m.active ++ new
  regular : n.Regular
  within : n.cap = 0 ∨ n.active.length ≤ max m.active.length n.cap

omit [DecidableEq T] in
theorem Promoted.refl (h : m.Regular) : m.Promoted m :=
  ⟨rfl,rfl,⟨[],by simp⟩,h,.inr (le_max_left _ _)⟩

omit [DecidableEq T] in
theorem Promoted.trans {o : SeedingManager T H} (h : m.Promoted n) (h' : n.Promoted o) :
    m.Promoted o := by
  obtain ⟨new,hnew⟩ := h.grown
  obtain ⟨new',hnew'⟩ := h'.grown
  refine ⟨h'.cap.trans h.cap,h'.order.trans h.order,⟨new ++ new',by rw [hnew', hnew]; simp⟩,
    h'.regular,?_⟩
  have hcap := h'.cap
  rcases h.within with hz | hle
  · exact .inl (hcap.trans hz)
  · rcases h'.within with hz' | hle'
    · exact .inl hz'
    · exact .inr (by omega)

theorem promoteFront_spec {d : ℕ} (hm : m.Regular) (hd : m.LaterThanStints (m.clock + d))
    (h : m.promoteFront d = some (n, id)) :
    m.Promoted n ∧ m.queued.length = n.queued.length + 1 := by
  unfold promoteFront at h
  split at h
  case isFalse => cases h
  case isTrue hfree =>
    split at h
    case h_1 => cases h
    case h_2 seed q rest hq =>
      obtain ⟨rfl,rfl⟩ := Prod.mk.inj (Option.some.inj h)
      have hnodup : (m.activeIds ++ seed :: rest.map Prod.fst).Nodup := by
        simpa [line, queuedIds, hq] using hm.nodup
      have hnew : seed ∉ ({ m with queued := rest }.readClock d : SeedingManager T H).activeIds :=
        fun hmem => (nodup_append.mp hnodup).2.2 seed hmem seed (by simp) rfl
      rw [insertActive_of_notMem hnew]
      refine ⟨⟨rfl,?_,⟨_,rfl⟩,?_,?_⟩,by simp [hq, readClock]⟩
      · simp [line, activeIds, queuedIds, readClock, hq]
      · exact hm.append hnodup (Nat.le_add_right _ _) hd (le_refl _)
      · have := hasFreeSlot_iff.mp hfree
        simp only [readClock, length_append, length_singleton]
        omega

theorem promoteFront_eq_none {d : ℕ} (h : m.promoteFront d = none) :
    m.queued = [] ∨ m.hasFreeSlot = false := by
  unfold promoteFront at h
  split at h
  case isFalse hfree => exact .inr (by simpa using hfree)
  case isTrue =>
    split at h
    case h_1 hq => exact .inl hq
    case h_2 => cases h

/-- The first loop of `reconcile` promotes until there is no slot or nobody waits. -/
theorem promoteLoop_spec {ticks : ℕ → ℕ} (n : ℕ) (hm : m.Regular)
    (hfirst : 0 < n → m.LaterThanStints (m.clock + ticks (n - 1)))
    (hticks : ∀ i < n - 1, 0 < ticks i) (hn : m.queued.length = n) :
    m.Promoted (promoteLoop ticks n m).1 ∧
      ((promoteLoop ticks n m).1.queued = [] ∨ (promoteLoop ticks n m).1.hasFreeSlot = false) := by
  induction n generalizing m with
  | zero => exact ⟨.refl hm,.inl (length_eq_zero_iff.mp hn)⟩
  | succ n ih =>
    simp only [promoteLoop]
    split
    case h_1 hnone => exact ⟨.refl hm,promoteFront_eq_none hnone⟩
    case h_2 next id hsome =>
      obtain ⟨hpromoted,hlength⟩ := promoteFront_spec hm (hfirst (Nat.succ_pos n)) hsome
      have hlater : 0 < n → next.LaterThanStints (next.clock + ticks (n - 1)) := by
        intro hpos e he
        have hle := hpromoted.regular.clock e he
        have htick := hticks (n - 1) (by omega)
        omega
      obtain ⟨hrest,hstop⟩ := ih hpromoted.regular hlater (fun i hi => hticks i (by omega)) (by omega)
      exact ⟨hpromoted.trans hrest,hstop⟩

/-! ## Demotion -/

/-- The last of the active seeds have become the front of the queue. -/
structure Demoted (m n : SeedingManager T H) : Prop where
  cap : n.cap = m.cap
  order : n.line.order = m.line.order
  front : ∃ gone, m.active = n.active ++ gone ∧ n.queuedIds = gone.map Prod.fst ++ m.queuedIds
  regular : n.Regular

omit [DecidableEq T] in
theorem Demoted.refl (h : m.Regular) : m.Demoted m :=
  ⟨rfl,rfl,⟨[],by simp⟩,h⟩

omit [DecidableEq T] in
theorem Demoted.trans {o : SeedingManager T H} (h : m.Demoted n) (h' : n.Demoted o) :
    m.Demoted o := by
  obtain ⟨gone,hactive,hqueued⟩ := h.front
  obtain ⟨gone',hactive',hqueued'⟩ := h'.front
  refine ⟨h'.cap.trans h.cap,h'.order.trans h.order,⟨gone' ++ gone,?_,?_⟩,h'.regular⟩
  · rw [hactive, hactive', append_assoc]
  · rw [hqueued', hqueued, map_append, append_assoc]

theorem demote_last {xs : List (T × SeedingEntry H)} (now : ℕ) (hm : m.Regular)
    (hlast : m.active = xs ++ [(id, e)]) :
    m.Demoted (m.demote id e now) ∧ (m.demote id e now).active = xs := by
  have hids : (xs.map Prod.fst ++ id :: m.queuedIds).Nodup := by
    simpa [line, activeIds, hlast] using hm.nodup
  have hxs : (m.demote id e now).active = xs := by
    have hkeep : xs.filter (fun d => d.1 ≠ id) = xs := by
      refine filter_eq_self.mpr (fun d hd => decide_eq_true ?_)
      exact (nodup_append.mp hids).2.2 d.1 (mem_map_of_mem hd) id (by simp)
    rw [demote, hlast, filter_append, hkeep]
    simp
  have hqueued : (m.demote id e now).queuedIds = id :: m.queuedIds := rfl
  have horder : (m.demote id e now).line.order = m.line.order := by
    simp [line, activeIds, hxs, hqueued, hlast]
  have hsub : xs.Sublist m.active := hlast ▸ sublist_append_left xs _
  refine ⟨⟨rfl,horder,⟨[(id, e)],by rw [hxs, hlast],by rw [hqueued]; rfl⟩,?_⟩,hxs⟩
  exact ⟨horder ▸ hm.nodup,hxs ▸ hm.stints.sublist hsub,
    fun d hd => hm.clock d (hsub.subset (hxs ▸ hd))⟩

/-- The second loop of `reconcile` demotes until the cap holds. -/
theorem demoteLoop_spec (order : HashOrder (T × SeedingEntry H)) (now n : ℕ) (hm : m.Regular)
    (hn : m.active.length ≤ n) :
    m.Demoted (demoteLoop order now n m).1 ∧
      (demoteLoop order now n m).1.active.length = min m.active.length m.cap := by
  induction n generalizing m with
  | zero => exact ⟨.refl hm,by simp only [demoteLoop]; omega⟩
  | succ n ih =>
    simp only [demoteLoop]
    split
    case isFalse hle =>
      refine ⟨.refl hm,?_⟩
      show m.active.length = min m.active.length m.cap
      omega
    case isTrue hlt =>
      obtain ⟨xs,e,hlast⟩ : ∃ xs e, m.active = xs ++ [e] := by
        have hne : m.active ≠ [] := ne_nil_of_length_pos (by omega)
        exact ⟨_,_,(dropLast_append_getLast hne).symm⟩
      have hmax : maxByKey stint (order.walk m.active) = some e := by
        rw [hlast]
        exact maxByKey_walk_last order (hlast ▸ hm.stints)
      have hlength : m.active.length = xs.length + 1 := by simp [hlast]
      obtain ⟨hstep,hactive⟩ := demote_last now hm hlast
      obtain ⟨hrest,hmin⟩ := ih hstep.regular (by rw [hactive]; omega)
      simp only [hmax]
      refine ⟨hstep.trans hrest,?_⟩
      rw [hmin, hactive, hstep.cap]
      omega

/-! ## Reconciliation -/

/-- What `reconcile` needs from the clock. -/
def Ticking (m : SeedingManager T H) (ticks : ℕ → ℕ) : Prop :=
  (0 < m.queued.length → m.LaterThanStints (m.clock + ticks (m.queued.length - 1))) ∧
    ∀ i < m.queued.length - 1, 0 < ticks i

instance (m : SeedingManager T H) (ticks : ℕ → ℕ) : Decidable (m.Ticking ticks) :=
  inferInstanceAs (Decidable ((_ → _) ∧ ∀ i < _, _))

theorem demoteLoop_of_le (order : HashOrder (T × SeedingEntry H)) (now n : ℕ)
    (h : m.active.length ≤ m.cap) : demoteLoop order now n m = (m, []) := by
  cases n with
  | zero => rfl
  | succ n => simp [demoteLoop, Nat.not_lt.mpr h]

omit [DecidableEq T] in
theorem Regular.readClock (h : m.Regular) (d : ℕ) :
    (m.readClock d).Regular :=
  ⟨h.nodup,h.stints,fun e he => (h.clock e he).trans (Nat.le_add_right _ _)⟩

/-- `reconcile` leaves the seeds settled. It has only promoted or only demoted. -/
theorem reconcile_spec (order : HashOrder (T × SeedingEntry H)) {ticks : ℕ → ℕ} (d : ℕ)
    (hm : m.Regular) (hticks : m.Ticking ticks) :
    (m.reconcile order ticks d).1.Settled ∧
      (m.Promoted (m.reconcile order ticks d).1 ∨ m.Demoted (m.reconcile order ticks d).1) := by
  obtain ⟨hpromoted,hstop⟩ := promoteLoop_spec m.queued.length hm hticks.1 hticks.2 rfl
  simp only [reconcile]
  generalize (promoteLoop ticks m.queued.length m).1 = p at hpromoted hstop ⊢
  by_cases hz : p.cap = 0
  · simp only [hz, ↓reduceIte]
    exact ⟨⟨.inl hz,hstop⟩,.inl hpromoted⟩
  simp only [hz, ↓reduceIte]
  by_cases hle : p.active.length ≤ p.cap
  · -- nothing to demote: only the clock has been read
    rw [demoteLoop_of_le order _ _ (m := p.readClock d) hle]
    exact ⟨⟨.inr hle,hstop⟩,.inl ⟨hpromoted.cap,hpromoted.order,hpromoted.grown,
      hpromoted.regular.readClock d,hpromoted.within⟩⟩
  · -- over the cap: nothing has been promoted
    obtain ⟨hdemoted,hlength⟩ := demoteLoop_spec order (p.clock + d) p.active.length
      (hpromoted.regular.readClock d) (le_refl _)
    generalize (demoteLoop order (p.clock + d) p.active.length (p.readClock d)).1 = r
      at hdemoted hlength ⊢
    have hfull : r.active.length = r.cap := by
      have hcap : r.cap = p.cap := hdemoted.cap
      have hmin : r.active.length = min p.active.length p.cap := hlength
      omega
    have hslot : r.hasFreeSlot = false := by
      have hcap : r.cap = p.cap := hdemoted.cap
      simp [hasFreeSlot, hcap, hz]
      omega
    refine ⟨⟨.inr hfull.le,.inr hslot⟩,.inr ?_⟩
    obtain ⟨new,hnew⟩ := hpromoted.grown
    have hnil : new = [] := by
      rcases hpromoted.within with h0 | hmax
      · exact absurd h0 hz
      · have hsum : p.active.length = m.active.length + new.length := by simp [hnew]
        exact length_eq_zero_iff.mp (by omega)
    have hactive : p.active = m.active := by simp [hnew, hnil]
    have hqueued : p.queuedIds = m.queuedIds := by
      have horder := hpromoted.order
      simpa [line, activeIds, hactive] using horder
    obtain ⟨gone,hgone,hfront⟩ := hdemoted.front
    exact ⟨hdemoted.cap.trans hpromoted.cap,hdemoted.order.trans hpromoted.order,
      ⟨gone,hactive ▸ hgone,hqueued ▸ hfront⟩,hdemoted.regular⟩

/-! ## The other operations -/

theorem register_alreadyPresent (handle : H) (uploaded session base : ℤ) (d : ℕ)
    (h : id ∈ m.activeIds ∨ id ∈ m.queuedIds) :
    m.register id handle uploaded session base d = (m, .alreadyPresent) := by
  simp [register, h]

theorem register_of_free (handle : H) (uploaded session base : ℤ) (d : ℕ)
    (h : ¬(id ∈ m.activeIds ∨ id ∈ m.queuedIds)) (hslot : m.hasFreeSlot = true) :
    m.register id handle uploaded session base d =
      ({ m with
        active := m.active ++ [(id, startStint handle uploaded session base (m.clock + d))]
        clock := m.clock + d }, .activated) := by
  have hnew : id ∉ (m.readClock d).activeIds := fun hmem => h (.inl hmem)
  rw [register, if_neg h, if_pos hslot, insertActive_of_notMem hnew]
  rfl

theorem register_of_full (handle : H) (uploaded session base : ℤ) (d : ℕ)
    (h : ¬(id ∈ m.activeIds ∨ id ∈ m.queuedIds)) (hslot : m.hasFreeSlot = false) :
    m.register id handle uploaded session base d =
      ({ m with queued := m.queued ++ [(id, ⟨handle,uploaded,base⟩)] }, .queued) := by
  simp [register, h, hslot]

theorem register_new (handle : H) (uploaded session base : ℤ) (d : ℕ)
    (h : ¬(id ∈ m.activeIds ∨ id ∈ m.queuedIds)) :
    (m.register id handle uploaded session base d).2 ≠ .alreadyPresent ∧
      (m.register id handle uploaded session base d).1.line = m.line.join m.hasFreeSlot id := by
  cases hslot : m.hasFreeSlot with
  | false =>
    rw [register_of_full _ _ _ _ _ h hslot]
    simp [line, Line.join, activeIds, queuedIds]
  | true =>
    rw [register_of_free _ _ _ _ _ h hslot]
    simp [line, Line.join, activeIds, queuedIds]

theorem Regular.register {handle : H} {uploaded session base : ℤ} {d : ℕ} (hm : m.Regular)
    (h : ¬(id ∈ m.activeIds ∨ id ∈ m.queuedIds)) (hd : m.LaterThanStints (m.clock + d)) :
    (m.register id handle uploaded session base d).1.Regular := by
  have hids : (id :: m.line.order).Nodup :=
    nodup_cons.mpr ⟨by simpa [line] using h,hm.nodup⟩
  cases hslot : m.hasFreeSlot with
  | false =>
    rw [register_of_full _ _ _ _ _ h hslot]
    refine ⟨?_,hm.stints,hm.clock⟩
    have hperm : (m.line.order ++ [id]).Perm (id :: m.line.order) := perm_append_comm
    simpa [line, activeIds, queuedIds] using hperm.nodup_iff.mpr hids
  | true =>
    rw [register_of_free _ _ _ _ _ h hslot]
    refine hm.append ?_ (Nat.le_add_right _ _) hd (le_refl _)
    have hperm : (m.activeIds ++ id :: m.queuedIds).Perm (id :: m.line.order) :=
      perm_middle
    exact hperm.nodup_iff.mpr hids

theorem mem_active_register {handle : H} {uploaded session base : ℤ} {d : ℕ}
    {e : T × SeedingEntry H} (he : e ∈ m.active) :
    e ∈ (m.register id handle uploaded session base d).1.active := by
  by_cases h : id ∈ m.activeIds ∨ id ∈ m.queuedIds
  · rw [register_alreadyPresent _ _ _ _ _ h]
    exact he
  cases hslot : m.hasFreeSlot with
  | false =>
    rw [register_of_full _ _ _ _ _ h hslot]
    exact he
  | true =>
    rw [register_of_free _ _ _ _ _ h hslot]
    exact mem_append_left _ he

theorem Settled.register (hm : m.Settled) (id : T) (handle : H) (uploaded session base : ℤ) (d : ℕ) :
    (m.register id handle uploaded session base d).1.Settled := by
  by_cases h : id ∈ m.activeIds ∨ id ∈ m.queuedIds
  · rw [register_alreadyPresent _ _ _ _ _ h]
    exact hm
  cases hslot : m.hasFreeSlot with
  | false =>
    rw [register_of_full _ _ _ _ _ h hslot]
    exact ⟨hm.1,.inr hslot⟩
  | true =>
    rw [register_of_free _ _ _ _ _ h hslot]
    refine ⟨?_,.inl (hm.2.resolve_right (by simp [hslot]))⟩
    refine (hasFreeSlot_iff.mp hslot).imp_right (fun hlt => ?_)
    simpa using Nat.succ_le_of_lt hlt

theorem map_fst_eraseP {β : Type*} (xs : List (T × β)) (id : T) :
    (xs.eraseP (fun q => q.1 = id)).map Prod.fst = (xs.map Prod.fst).erase id := by
  induction xs with
  | nil => rfl
  | cons x xs ih =>
    by_cases hx : x.1 = id
    · simp [hx]
    · simp [hx, ih]

theorem map_fst_filter {β : Type*} (xs : List (T × β)) (id : T) :
    (xs.filter (fun e => e.1 ≠ id)).map Prod.fst = (xs.map Prod.fst).filter (· ≠ id) := by
  rw [filter_map]
  rfl

theorem filter_ne_of_notMem {xs : List T} (h : id ∉ xs) : xs.filter (· ≠ id) = xs := by
  refine filter_eq_self.mpr (fun x hx => decide_eq_true ?_)
  rintro rfl
  exact h hx

theorem unregister_line (hm : m.Regular) (id : T) (d : ℕ) :
    (m.unregister id d).1.line = m.line.leave id := by
  have hnodup := nodup_append.mp hm.nodup
  rw [unregister]
  split
  case h_1 e he =>
    have hid : e.1 = id := by simpa using find?_some he
    have hmem : id ∈ m.activeIds := hid ▸ mem_map_of_mem (mem_of_find?_eq_some he)
    have hwaits : id ∉ m.queuedIds := fun hq => hnodup.2.2 id hmem id hq rfl
    have hids : (m.active.filter (fun e => e.1 ≠ id)).map Prod.fst = m.activeIds.filter (· ≠ id) :=
      map_fst_filter m.active id
    rw [Line.leave]
    exact congrArg₂ Line.mk hids (filter_ne_of_notMem hwaits).symm
  case h_2 hnone =>
    have hactive : id ∉ m.activeIds := by
      rw [find?_eq_none] at hnone
      rintro hmem
      obtain ⟨e,he,rfl⟩ := mem_map.mp hmem
      exact hnone e he (by simp)
    have hserved : m.activeIds.filter (· ≠ id) = m.activeIds := filter_ne_of_notMem hactive
    split
    case h_1 hq =>
      have hwaits : id ∉ m.queuedIds := by
        rw [find?_eq_none] at hq
        rintro hmem
        obtain ⟨q,hqm,rfl⟩ := mem_map.mp hmem
        exact hq q hqm (by simp)
      exact congrArg₂ Line.mk hserved.symm (filter_ne_of_notMem hwaits).symm
    case h_2 =>
      have hids : (m.queued.eraseP (fun q => q.1 = id)).map Prod.fst =
          m.queuedIds.filter (· ≠ id) := by
        rw [map_fst_eraseP]
        have hwaits : (m.queued.map Prod.fst).Nodup := hnodup.2.1
        rw [hwaits.erase_eq_filter id]
        exact filter_congr (fun x _ => by simp [bne, beq_eq_decide])
      exact congrArg₂ Line.mk hserved.symm hids

theorem unregister_active (m : SeedingManager T H) (id : T) (d : ℕ) :
    (m.unregister id d).1.active.Sublist m.active ∧ m.clock ≤ (m.unregister id d).1.clock := by
  rw [unregister]
  split
  case h_1 => exact ⟨filter_sublist,Nat.le_add_right _ _⟩
  case h_2 => split <;> exact ⟨.refl _,le_refl _⟩

theorem Regular.unregister (hm : m.Regular) (id : T) (d : ℕ) :
    (m.unregister id d).1.Regular := by
  obtain ⟨hsub,hclock⟩ := unregister_active m id d
  refine ⟨?_,hm.stints.sublist hsub,fun e he => (hm.clock e (hsub.subset he)).trans hclock⟩
  rw [unregister_line hm, Line.order_leave]
  exact hm.nodup.filter _

end SeedingManager

/-! ## Runs -/

/-- A new seed comes when the seeds are settled, and the clock goes on between two stints. -/
def Fair (s : Seeding T H) : Op T H → Prop
  | .register _ _ _ _ _ d =>
    s.manager.Settled ∧ s.manager.LaterThanStints (s.manager.clock + d)
  | .reconcile _ ticks _ => s.manager.Ticking ticks
  | .unregister _ _ => True
  | .setCap _ => True

instance (s : Seeding T H) (a : Op T H) : Decidable (Fair s a) := by
  cases a <;> unfold Fair <;> infer_instance

/-- The operations after which the seeds shall be settled. -/
def Op.settles : Op T H → Bool
  | .register .. => true
  | .reconcile .. => true
  | .unregister .. => false
  | .setCap _ => false

/-- The demoted seeds are the front of the queue, in the order of their activation. -/
def DemotedInOrder (m n : SeedingManager T H) : Prop :=
  ∃ (front : List (T × SeedingEntry H)) (rest : List T),
    front.Pairwise (fun a b => stint a < stint b) ∧
      (∀ e, e ∈ front ↔ e ∈ m.active ∧ e.1 ∈ n.queuedIds) ∧
      n.queuedIds = front.map Prod.fst ++ rest

/-- What a step does to the queue of seeds. -/
structure Orderly (s : Seeding T H) (a : Op T H) (t : Seeding T H) : Prop where
  /-- Every id is active or queued at most once, and not both. -/
  distinct : (t.manager.activeIds ++ t.manager.queuedIds).Nodup
  settled : a.settles → t.manager.Settled
  /-- Who becomes active was registered before everybody who still waits. -/
  fifo : ∀ x ∈ t.manager.activeIds, x ∉ s.manager.activeIds →
    ∀ w ∈ t.manager.queuedIds, [x, w].Sublist t.arrivals
  demoted : DemotedInOrder s.manager t.manager

/-- The line of seeds is the order of their registration. -/
structure InOrder (s : Seeding T H) : Prop where
  regular : s.manager.Regular
  arrivals : s.manager.line.order = s.arrivals

omit [DecidableEq T] in
theorem new_inOrder : InOrder (new : Seeding T H) :=
  ⟨⟨nodup_nil,List.Pairwise.nil,by simp [new]⟩,rfl⟩

variable {s : Seeding T H} {m n : SeedingManager T H}

theorem InOrder.step {t : Seeding T H} {a : Op T H} (h : InOrder s) (ha : Fair s a)
    (hstep : step s a = some t) : InOrder t := by
  cases a with
  | register id handle uploaded session base d =>
    cases hstep
    by_cases hmem : id ∈ s.manager.activeIds ∨ id ∈ s.manager.queuedIds
    · simp only [Seeding.register, SeedingManager.register_alreadyPresent _ _ _ _ _ hmem,
        ↓reduceIte]
      exact h
    · obtain ⟨hsettled,hclock⟩ := ha
      obtain ⟨hnew,hline⟩ := SeedingManager.register_new handle uploaded session base d hmem
      refine ⟨h.regular.register hmem hclock,?_⟩
      simp only [Seeding.register, if_neg hnew, hline]
      rw [Line.order_join, h.arrivals]
      intro hfree
      have hqueue := hsettled.2.resolve_right (by simp [hfree])
      simp [SeedingManager.line, SeedingManager.queuedIds, hqueue]
  | reconcile order ticks d =>
    cases hstep
    obtain ⟨-,hgrown | hshrunk⟩ := SeedingManager.reconcile_spec order d h.regular ha
    · exact ⟨hgrown.regular,hgrown.order.trans h.arrivals⟩
    · exact ⟨hshrunk.regular,hshrunk.order.trans h.arrivals⟩
  | unregister id d =>
    cases hstep
    refine ⟨h.regular.unregister id d,?_⟩
    simp only [Seeding.unregister, SeedingManager.unregister_line h.regular, Line.order_leave,
      h.arrivals]
  | setCap cap =>
    cases hstep
    exact ⟨⟨h.regular.nodup,h.regular.stints,h.regular.clock⟩,h.arrivals⟩

omit [DecidableEq T] in
theorem InOrder.fifo (h : InOrder s) {x w : T} (hx : x ∈ s.manager.activeIds)
    (hw : w ∈ s.manager.queuedIds) : [x, w].Sublist s.arrivals :=
  h.arrivals ▸ Line.served_before_waiting (l := s.manager.line) hx hw

omit [DecidableEq T] in
theorem demotedInOrder_of_none (h : ∀ e ∈ m.active, e.1 ∉ n.queuedIds) : DemotedInOrder m n := by
  refine ⟨[],n.queuedIds,List.Pairwise.nil,fun e => ⟨?_,?_⟩,rfl⟩
  · rintro ⟨⟩
  · rintro ⟨he,hq⟩
    exact absurd hq (h e he)

omit [DecidableEq T] in
theorem SeedingManager.Regular.notMem_queuedIds (h : m.Regular) {e : T × SeedingEntry H}
    (he : e ∈ m.active) : e.1 ∉ m.queuedIds :=
  fun hq => (nodup_append.mp h.nodup).2.2 e.1 (mem_map_of_mem he) e.1 hq rfl

omit [DecidableEq T] in
theorem demotedInOrder_of_promoted (h : m.Promoted n) :
    DemotedInOrder m n := by
  obtain ⟨new,hnew⟩ := h.grown
  refine demotedInOrder_of_none (fun e he => h.regular.notMem_queuedIds ?_)
  rw [hnew]
  exact mem_append_left new he

omit [DecidableEq T] in
theorem demotedInOrder_of_demoted (hm : m.Regular) (h : m.Demoted n) :
    DemotedInOrder m n := by
  obtain ⟨gone,hactive,hqueued⟩ := h.front
  refine ⟨gone,m.queuedIds,?_,fun e => ⟨fun he => ?_,?_⟩,hqueued⟩
  · exact hm.stints.sublist (hactive ▸ sublist_append_right n.active gone)
  · refine ⟨hactive ▸ mem_append_right _ he,?_⟩
    rw [hqueued]
    exact mem_append_left _ (mem_map_of_mem he)
  · rintro ⟨he,hq⟩
    rw [hactive] at he
    rcases mem_append.mp he with hn | hg
    · exact absurd hq (h.regular.notMem_queuedIds hn)
    · exact hg

theorem queuedIds_unregister (hm : m.Regular) (id : T) (d : ℕ) :
    (m.unregister id d).1.queuedIds = m.queuedIds.filter (· ≠ id) :=
  congrArg Line.waiting (SeedingManager.unregister_line hm id d)

theorem InOrder.orderly {t : Seeding T H} {a : Op T H} (h : InOrder s) (ha : Fair s a)
    (hstep : SeedingQueue.step s a = some t) : Orderly s a t := by
  have ht : InOrder t := h.step ha hstep
  refine ⟨ht.regular.nodup,?_,fun x hx _ w hw => ht.fifo hx hw,?_⟩
  · intro hsettles
    cases a with
    | register id handle uploaded session base d =>
      cases hstep
      exact ha.1.register id handle uploaded session base d
    | reconcile order ticks d =>
      cases hstep
      exact (SeedingManager.reconcile_spec order d h.regular ha).1
    | unregister id d => cases hsettles
    | setCap cap => cases hsettles
  · cases a with
    | register id handle uploaded session base d =>
      cases hstep
      exact demotedInOrder_of_none (fun e he =>
        ht.regular.notMem_queuedIds (SeedingManager.mem_active_register he))
    | reconcile order ticks d =>
      cases hstep
      rcases (SeedingManager.reconcile_spec order d h.regular ha).2 with hgrown | hshrunk
      · exact demotedInOrder_of_promoted hgrown
      · exact demotedInOrder_of_demoted h.regular hshrunk
    | unregister id d =>
      cases hstep
      refine demotedInOrder_of_none (fun e he hq => h.regular.notMem_queuedIds he ?_)
      simp only [Seeding.unregister, queuedIds_unregister h.regular] at hq
      exact mem_of_mem_filter hq
    | setCap cap =>
      cases hstep
      exact demotedInOrder_of_none (fun e he => h.regular.notMem_queuedIds he)

/-- In every run in which `register` finds the seeds settled, every step keeps the discipline. -/
theorem run_orderly {s t : Seeding T H} {as : List (Op T H)} {a : Op T H}
    (hm : Meets step Fair new as) (hrun : exec step new as = some s) (ha : Fair s a)
    (hstep : step s a = some t) : Orderly s a t := by
  have hinv : ∀ (s : Seeding T H) a t, InOrder s → Fair s a → step s a = some t → InOrder t :=
    fun _ _ _ h ha hstep => h.step ha hstep
  exact (exec_invariant_of_meets hinv new_inOrder hm hrun).orderly ha hstep

/-! ## Seeds on fixed inputs -/

def asFilled {α : Type*} : HashOrder α := ⟨fun xs => xs,fun _ => .refl _⟩

/-- One slot for the seeds 1 and 2; after that 1 goes, and a slot is free. -/
def freedSlot : List (Op ℕ Unit) :=
  [.setCap 1, .register 1 () 0 0 0 1, .register 2 () 0 0 0 1, .unregister 1 1]

theorem run_orderly_freedSlot :
    ∃ s t : Seeding ℕ Unit, exec step new freedSlot = some s ∧
      step s (.reconcile asFilled (fun _ => 1) 1) = some t ∧
      Orderly s (.reconcile asFilled (fun _ => 1) 1) t := by
  have hm : Meets (step (T := ℕ) (H := Unit)) Fair new freedSlot := by decide
  exact ⟨_,_,rfl,rfl,run_orderly hm rfl (by decide) rfl⟩

/-- A seed that is registered before the next `reconcile` takes the slot for which 2 waits. -/
theorem late_seed_overtakes :
    ∃ s t : Seeding ℕ Unit, exec step new freedSlot = some s ∧
      step s (.register 3 () 0 0 0 1) = some t ∧
      3 ∈ t.manager.activeIds ∧ 3 ∉ s.manager.activeIds ∧ 2 ∈ t.manager.queuedIds ∧
      t.arrivals = [2, 3] ∧ ¬Orderly s (.register 3 () 0 0 0 1) t := by
  refine ⟨_,_,rfl,rfl,by decide,by decide,by decide,by decide,fun h => ?_⟩
  have hfifo := h.fifo 3 (by decide) (by decide) 2 (by decide)
  revert hfifo
  decide

end RinaDown.SeedingQueue
