import RinaDown.NodePool

/-!
# Leases of the node pool

What every run of a pool keeps: the system route stays alive, a kicked node stays
kicked, the counters of the slots count the live leases, and a lease is always
granted, on an alive node below its fair share.
-/

namespace RinaDown.NodePool
open FairShare LabelledExecutions List Option

variable {F Ip Client : Type}

/-! ## Slots over time -/

/-- The slots keep their addresses, built clients stay, and kicks are for good and for pinned
nodes only. -/
structure SlotEvolves (v w : NodeSlot F Ip Client) : Prop where
  ip : w.ip = v.ip
  client : v.client.isSome → w.client.isSome
  kicked : v.kicked → w.kicked
  system : v.ip = none → w.kicked = v.kicked

def Evolves (old new : List (NodeSlot F Ip Client)) : Prop :=
  List.Forall₂ SlotEvolves old new

theorem SlotEvolves.refl (v : NodeSlot F Ip Client) : SlotEvolves v v :=
  ⟨rfl,id,id,fun _ => rfl⟩

variable {v : NodeSlot F Ip Client} {l m slots : List (NodeSlot F Ip Client)}
  {p q : Pool F Ip Client} {inner u : PoolInner F Ip Client}

theorem SlotEvolves.trans {u w : NodeSlot F Ip Client} (h : SlotEvolves u v) (h' : SlotEvolves v w)
    : SlotEvolves u w :=
  ⟨h'.ip.trans h.ip,fun hc => h'.client (h.client hc),fun hk => h'.kicked (h.kicked hk),
    fun hn => (h'.system (h.ip.trans hn)).trans (h.system hn)⟩

theorem Evolves.refl (l : List (NodeSlot F Ip Client)) : Evolves l l :=
  forall₂_same.mpr (fun v _ => .refl v)

theorem Evolves.trans {n : List (NodeSlot F Ip Client)} (h : Evolves l m) (h' : Evolves m n) :
    Evolves l n := by
  induction h generalizing n with
  | nil => exact h'
  | cons hvw _ ih =>
    cases h' with
    | cons hwu hrest => exact .cons (hvw.trans hwu) (ih hrest)

theorem Evolves.length_eq (h : Evolves l m) :
    l.length = m.length := List.Forall₂.length_eq h

theorem Evolves.get (h : Evolves l m) {i : ℕ} (hv : l[i]? = some v) :
    ∃ w, m[i]? = some w ∧ SlotEvolves v w := by
  induction h generalizing i with
  | nil => simp at hv
  | cons hvw _ ih =>
    cases i with
    | zero =>
      cases hv
      exact ⟨_,rfl,hvw⟩
    | succ i => exact ih (by simpa using hv)

theorem evolves_of_get (hlen : l.length = m.length)
    (h : ∀ (i : ℕ) v w, l[i]? = some v → m[i]? = some w → SlotEvolves v w) : Evolves l m := by
  refine forall₂_iff_get.mpr ⟨hlen,fun i h1 h2 => ?_⟩
  exact h i _ _ (by simp [getElem?_eq_getElem h1]) (by simp [getElem?_eq_getElem h2])

theorem evolves_modify (l : List (NodeSlot F Ip Client)) (i : ℕ)
    {f : NodeSlot F Ip Client → NodeSlot F Ip Client}
    (hf : ∀ v, l[i]? = some v → SlotEvolves v (f v)) : Evolves l (l.modify i f) := by
  refine evolves_of_get (by simp) (fun j v w hv hw => ?_)
  by_cases hij : i = j
  · subst hij
    rw [getElem?_modify_eq, hv, Option.map_eq_map, Option.map_some, Option.some.injEq] at hw
    exact hw ▸ hf v hv
  · rw [getElem?_modify_ne _ _ hij, hv, some.injEq] at hw
    exact hw ▸ .refl v

theorem slotEvolves_kick (h : v.ip.isSome) : SlotEvolves v v.kick :=
  ⟨rfl,id,fun _ => rfl,fun hnone => by simp [hnone] at h⟩

theorem slotEvolves_build (v : NodeSlot F Ip Client) (client : Client) :
    SlotEvolves v (v.build client) :=
  ⟨rfl,fun _ => rfl,id,fun _ => rfl⟩

@[simp] theorem checkBreaker_slots (inner : PoolInner F Ip Client) :
    (checkBreaker inner).1.slots = inner.slots := by
  unfold checkBreaker
  split_ifs <;> rfl

@[simp] theorem kickNode_slots (inner : PoolInner F Ip Client) (i : ℕ) (reason : String)
    (count : ℕ) : (kickNode inner i reason count).1.slots = inner.slots.modify i NodeSlot.kick := by
  simp [kickNode, PoolInner.modifySlot]

/-! ## The system route -/

/-- Slot 0 is the system route with its client, alive; the others are pinned. -/
structure Rooted (slots : List (NodeSlot F Ip Client)) : Prop where
  system : ∃ v, slots[0]? = some v ∧ v.ip = none ∧ v.kicked = false ∧ v.client.isSome
  pinned : ∀ (i : ℕ) v, slots[i]? = some v → 0 < i → v.ip.isSome

theorem Rooted.evolves {old new : List (NodeSlot F Ip Client)} (h : Rooted old)
    (hev : Evolves old new) : Rooted new := by
  obtain ⟨v,hv,hip,hkicked,hclient⟩ := h.system
  obtain ⟨w,hw,hvw⟩ := hev.get hv
  refine ⟨⟨w,hw,hvw.ip.trans hip,(hvw.system hip).trans hkicked,hvw.client hclient⟩,?_⟩
  intro i u hu hi
  obtain ⟨v',hv'⟩ : ∃ v', old[i]? = some v' := by
    have hlt : i < old.length := by
      rw [hev.length_eq]
      exact (List.getElem?_eq_some_iff.mp hu).1
    exact ⟨old[i],getElem?_eq_getElem hlt⟩
  obtain ⟨w',hw',hvw'⟩ := hev.get hv'
  cases hu.symm.trans hw'
  rw [hvw'.ip]
  exact h.pinned i v' hv' hi

theorem Rooted.pos_of_client_none (h : Rooted slots) {i : ℕ} (hv : slots[i]? = some v)
    (hnone : v.client = none) :
    v.ip.isSome := by
  rcases Nat.eq_zero_or_pos i with rfl | hi
  · obtain ⟨w,hw,-,-,hclient⟩ := h.system
    cases hv.symm.trans hw
    simp [hnone] at hclient
  · exact h.pinned i v hv hi

/-! ## Choosing -/

theorem isAlive_iff {i : ℕ} :
    isAlive slots i ↔ ∃ v, slots[i]? = some v ∧ v.kicked = false := by
  unfold isAlive
  cases slots[i]? <;> simp

theorem mem_alive {i : ℕ} :
    i ∈ alive slots ↔ ∃ v, slots[i]? = some v ∧ v.kicked = false := by
  rw [alive, mem_filter, mem_range, isAlive_iff]
  constructor
  · exact fun h => h.2
  · rintro ⟨v,hv,hk⟩
    exact ⟨(List.getElem?_eq_some_iff.mp hv).1,v,hv,hk⟩

theorem Rooted.zero_alive (h : Rooted slots) :
    0 ∈ alive slots := by
  obtain ⟨v,hv,-,hk,-⟩ := h.system
  exact mem_alive.mpr ⟨v,hv,hk⟩

theorem map_outstandingAt (slots : List (NodeSlot F Ip Client)) :
    (List.range slots.length).map (outstandingAt slots) = slots.map NodeSlot.outstanding := by
  refine ext_getElem (by simp) (fun i h1 h2 => ?_)
  have hi : i < slots.length := by simpa using h1
  simp [outstandingAt, getElem?_eq_getElem hi]

theorem sum_alive_le (slots : List (NodeSlot F Ip Client)) :
    ((alive slots).map (outstandingAt slots)).sum ≤ totalOutstanding slots := by
  rw [totalOutstanding, ← map_outstandingAt]
  exact ((filter_sublist).map _).sum_le_sum (fun _ _ => Nat.zero_le _)

/-- The fallback of `pick` is never needed. -/
theorem candidates_ne_nil (h : alive slots ≠ []) :
    candidates slots ≠ [] := by
  have hne : (alive slots).map (outstandingAt slots) ≠ [] := by simpa using h
  obtain ⟨x,hx,hlt⟩ := exists_lt_share hne (sum_alive_le slots)
  obtain ⟨i,hi,rfl⟩ := mem_map.mp hx
  rw [length_map] at hlt
  have hmem : i ∈ candidates slots := by
    simp only [candidates, mem_filter, decide_eq_true_eq]
    exact ⟨hi,hlt⟩
  exact ne_nil_of_mem hmem

/-! ## Counting the live leases -/

/-- The counter of every slot is the number of its live leases. -/
def Balanced (p : Pool F Ip Client) : Prop :=
  ∀ i, outstandingAt p.inner.slots i = p.live.countP (fun l => l.nodeId = i)

theorem outstandingAt_modify (slots : List (NodeSlot F Ip Client)) (i j : ℕ)
    (f : NodeSlot F Ip Client → NodeSlot F Ip Client) :
    outstandingAt (slots.modify i f) j =
      if i = j then (slots[i]?.map (fun v => (f v).outstanding)).getD 0 else outstandingAt slots j := by
  unfold outstandingAt
  rw [getElem?_modify]
  by_cases hij : i = j
  · subst hij
    simp [Function.comp_def]
  · simp [hij]

theorem outstandingAt_modify_of_keeps (f : NodeSlot F Ip Client → NodeSlot F Ip Client)
    (hf : ∀ v, (f v).outstanding = v.outstanding) (slots : List (NodeSlot F Ip Client)) (i j : ℕ) :
    outstandingAt (slots.modify i f) j = outstandingAt slots j := by
  rw [outstandingAt_modify]
  split_ifs with hij
  · simp [outstandingAt, hf, hij]
  · rfl

theorem Balanced.total (h : Balanced p) :
    totalOutstanding p.inner.slots = p.live.length := by
  have hlt : ∀ l ∈ p.live, l.nodeId < p.inner.slots.length := by
    intro l hl
    by_contra hge
    have hzero : NodePool.outstandingAt p.inner.slots l.nodeId = 0 := by
      simp [NodePool.outstandingAt, getElem?_eq_none (not_lt.mp hge)]
    rw [h, countP_eq_zero] at hzero
    simpa using hzero l hl
  rw [← sum_countP_range NodeLease.nodeId hlt, totalOutstanding, ← map_outstandingAt]
  exact congrArg List.sum (map_congr_left (fun i _ => h i))

theorem countP_eraseIdx {α : Type*} {p : α → Bool} {l : List α} {j : ℕ} {a : α}
    (ha : l[j]? = some a) : l.countP p = (l.eraseIdx j).countP p + if p a then 1 else 0 := by
  obtain ⟨hj,rfl⟩ := List.getElem?_eq_some_iff.mp ha
  rw [← (getElem_cons_eraseIdx_perm hj).countP_eq, countP_cons]

/-! ## Switching -/

theorem evolves_switch (slots : List (NodeSlot F Ip Client)) (client : Client) :
    Evolves slots ((slots.map retire).modify 0 (NodeSlot.build client)) := by
  have hretire : Evolves slots (slots.map retire) := by
    refine evolves_of_get (by simp) (fun i v w hv hw => ?_)
    rw [getElem?_map, hv, map_some, some.injEq] at hw
    subst hw
    unfold retire
    split_ifs with hip
    · exact slotEvolves_kick hip
    · exact .refl v
  exact hretire.trans (evolves_modify _ _ (fun v _ => slotEvolves_build v client))

theorem retire_outstanding (v : NodeSlot F Ip Client) : (retire v).outstanding = v.outstanding := by
  unfold retire
  split_ifs <;> rfl

/-- All pinned nodes have been kicked. -/
def Switched (slots : List (NodeSlot F Ip Client)) : Prop :=
  ∀ v ∈ slots, v.ip.isSome → v.kicked = true

theorem Switched.evolves {old new : List (NodeSlot F Ip Client)} (h : Switched old)
    (hev : Evolves old new) : Switched new := by
  induction hev with
  | nil => exact h
  | cons hvw _ ih =>
    intro w hw hip
    rcases mem_cons.mp hw with rfl | hw
    · exact hvw.kicked (h _ mem_cons_self (by rw [← hvw.ip]; exact hip))
    · exact ih (fun v hv => h v (mem_cons_of_mem _ hv)) w hw hip

theorem switched_switchToClient (p : Pool F Ip Client) (client : Client) :
    Switched (switchToClient p client).inner.slots := by
  have hretired : Switched (p.inner.slots.map retire) := by
    intro v hv hip
    obtain ⟨w,-,rfl⟩ := mem_map.mp hv
    unfold retire at hip ⊢
    split_ifs at hip ⊢ with hw
    · rfl
    · exact absurd hip hw
  exact hretired.evolves (evolves_modify _ _ (fun v _ => slotEvolves_build v client))

/-! ## Picking -/

variable [Throughput F]

theorem bestOf_mem (slots : List (NodeSlot F Ip Client)) {l : List ℕ} (h : l ≠ []) :
    bestOf slots l ∈ l := by
  cases l with
  | nil => exact absurd rfl h
  | cons i rest =>
    have hfold : ∀ (rest : List ℕ) (best : ℕ),
        rest.foldl (fun best j => if better slots j best then j else best) best ∈ best :: rest := by
      intro rest
      induction rest with
      | nil => simp
      | cons j rest ih =>
        intro best
        rw [foldl_cons]
        split_ifs
        · exact mem_cons_of_mem _ (ih j)
        · rcases mem_cons.mp (ih best) with heq | hmem
          · rw [heq]
            exact mem_cons_self
          · exact mem_cons_of_mem _ (mem_cons_of_mem _ hmem)
    exact hfold rest i

theorem pick_mem_candidates (h : alive slots ≠ []) :
    pick slots ∈ candidates slots := by
  rw [pick, if_neg h, if_neg (candidates_ne_nil h)]
  exact bestOf_mem slots (candidates_ne_nil h)

theorem pick_spec (h : Rooted slots) :
    ∃ v, slots[pick slots]? = some v ∧ v.kicked = false ∧ v.outstanding < fairShare slots := by
  have hmem := pick_mem_candidates (ne_nil_of_mem h.zero_alive)
  simp only [candidates, mem_filter, decide_eq_true_eq] at hmem
  obtain ⟨v,hv,hk⟩ := mem_alive.mp hmem.1
  refine ⟨v,hv,hk,?_⟩
  simpa [outstandingAt, hv] using hmem.2

/-! ## Granting a lease -/

@[simp] theorem leasesEventLocked_slots (cfg : Setup) (now : ℕ) (inner : PoolInner F Ip Client) :
    (leasesEventLocked cfg now inner).1.slots = inner.slots := by
  unfold leasesEventLocked
  simp only
  split_ifs <;> rfl

theorem countP_modify_lt {α : Type*} {p : α → Bool} {f : α → α} {l : List α} :
    ∀ {i : ℕ} {v : α}, l[i]? = some v → p v = true → p (f v) = false →
      (l.modify i f).countP p < l.countP p := by
  induction l with
  | nil => simp
  | cons a l ih =>
    intro i v hv hp hf
    cases i with
    | zero =>
      cases hv
      simp [hp, hf]
    | succ i =>
      have := ih (i := i) (by simpa using hv) hp hf
      rw [modify_succ_cons, countP_cons, countP_cons]
      omega

/-- Where the loop is after kicking nodes whose client cannot be built. -/
inductive Tried (cfg : Setup) (buildPinnedClient : Ip → Option Client) :
    PoolInner F Ip Client → PoolInner F Ip Client → Prop
  | refl (inner : PoolInner F Ip Client) : Tried cfg buildPinnedClient inner inner
  | kick {inner u : PoolInner F Ip Client} {slot : NodeSlot F Ip Client}
      (hslot : inner.slots[pick inner.slots]? = some slot) (hclient : slot.client = none)
      (hbuild : (if cfg.template then slot.ip.bind buildPinnedClient else none) = none)
      (hrest : Tried cfg buildPinnedClient (kickNode inner (pick inner.slots) "build" 0).1 u) :
      Tried cfg buildPinnedClient inner u

variable {cfg : Setup} {buildPinnedClient : Ip → Option Client}

theorem Tried.evolves (h : Tried cfg buildPinnedClient inner u) (hroot : Rooted inner.slots) :
    Evolves inner.slots u.slots := by
  induction h with
  | refl inner => exact .refl _
  | @kick inner u slot hslot hclient hbuild hrest ih =>
    have hkick : Evolves inner.slots (kickNode inner (pick inner.slots) "build" 0).1.slots := by
      rw [kickNode_slots]
      refine evolves_modify _ _ (fun v hv => ?_)
      cases hslot.symm.trans hv
      exact slotEvolves_kick (hroot.pos_of_client_none hslot hclient)
    exact hkick.trans (ih (hroot.evolves hkick))

/-- No matter which nodes could not be built, `pick` has a candidate. -/
theorem Tried.candidates_ne_nil (h : Tried cfg buildPinnedClient inner u)
    (hroot : Rooted inner.slots) :
    candidates u.slots ≠ [] :=
  NodePool.candidates_ne_nil (ne_nil_of_mem (hroot.evolves (h.evolves hroot)).zero_alive)

/-- What the loop returns: a client on the slot `v` that `pick` chose when the slots were those
of `u`. -/
structure Lands (cfg : Setup) (buildPinnedClient : Ip → Option Client)
    (inner : PoolInner F Ip Client) (c : Chosen F Ip Client) (u : PoolInner F Ip Client)
    (v : NodeSlot F Ip Client) : Prop where
  tried : Tried cfg buildPinnedClient inner u
  slot : u.slots[c.nodeId]? = some v
  alive : v.kicked = false
  share : v.outstanding < fairShare u.slots
  ip : c.ip = v.ip
  inner : c.inner = u ∨ c.inner = u.modifySlot c.nodeId (NodeSlot.build c.client)

/-- The loop ends: every round kicks a pinned node that was alive. -/
theorem leaseLoop_lands (cfg : Setup) (buildPinnedClient : Ip → Option Client) (fuel : ℕ) :
    ∀ (inner : PoolInner F Ip Client), Rooted inner.slots → inner.alivePinned < fuel →
      ∃ c u v, leaseLoop cfg buildPinnedClient fuel inner = some c ∧
        Lands cfg buildPinnedClient inner c u v := by
  induction fuel with
  | zero => intro inner _ hlt; omega
  | succ fuel ih =>
    intro inner hroot hlt
    obtain ⟨slot,hslot,hkicked,hshare⟩ := pick_spec hroot
    cases hclient : slot.client with
    | some client =>
      exact ⟨⟨pick inner.slots,client,slot.ip,inner,[]⟩,inner,slot,
        by simp [leaseLoop, hslot, hclient],
        ⟨.refl inner,hslot,hkicked,hshare,rfl,.inl rfl⟩⟩
    | none =>
      cases hbuild : (if cfg.template then slot.ip.bind buildPinnedClient else none) with
      | some client =>
        exact ⟨⟨pick inner.slots,client,slot.ip,
            inner.modifySlot (pick inner.slots) (NodeSlot.build client),[]⟩,inner,slot,
          by simp only [leaseLoop, hslot, hclient, hbuild],
          ⟨.refl inner,hslot,hkicked,hshare,rfl,.inr rfl⟩⟩
      | none =>
        have hip := hroot.pos_of_client_none hslot hclient
        have hone := Tried.kick hslot hclient hbuild (.refl _)
        have hless : (kickNode inner (pick inner.slots) "build" 0).1.alivePinned <
            inner.alivePinned := by
          rw [PoolInner.alivePinned, PoolInner.alivePinned, kickNode_slots]
          exact countP_modify_lt hslot (by simp [hip, hkicked]) (by simp [NodeSlot.kick])
        obtain ⟨c,u,v,hc,hland⟩ := ih (kickNode inner (pick inner.slots) "build" 0).1
          (hroot.evolves (hone.evolves hroot)) (by omega)
        exact ⟨{ c with events := (kickNode inner (pick inner.slots) "build" 0).2 ++ c.events },u,v,
          by simp only [leaseLoop, hslot, hclient, hbuild, hc, map_some],
          ⟨.kick hslot hclient hbuild hland.tried,hland.slot,hland.alive,hland.share,hland.ip,
            hland.inner⟩⟩

theorem choose_lands (cfg : Setup) (buildPinnedClient : Ip → Option Client)
    (hroot : Rooted p.inner.slots) :
    ∃ c u v, choose cfg buildPinnedClient p = some c ∧ Lands cfg buildPinnedClient p.inner c u v :=
  leaseLoop_lands cfg buildPinnedClient _ p.inner hroot (Nat.lt_succ_of_le countP_le_length)

theorem Lands.evolves {c : Chosen F Ip Client} (h : Lands cfg buildPinnedClient inner c u v)
    (hroot : Rooted inner.slots) : Evolves inner.slots c.inner.slots := by
  obtain rfl | heq := h.inner
  · exact h.tried.evolves hroot
  · rw [heq]
    exact (h.tried.evolves hroot).trans
      (evolves_modify _ _ (fun w _ => slotEvolves_build w c.client))

theorem Tried.outstandingAt (h : Tried cfg buildPinnedClient inner u) (j : ℕ) :
    outstandingAt u.slots j = outstandingAt inner.slots j := by
  induction h with
  | refl inner => rfl
  | kick hslot hclient hbuild hrest ih =>
    rw [ih, kickNode_slots, outstandingAt_modify_of_keeps NodeSlot.kick (fun _ => rfl)]

theorem Lands.outstandingAt {c : Chosen F Ip Client} (h : Lands cfg buildPinnedClient inner c u v)
    (j : ℕ) :
    outstandingAt c.inner.slots j = outstandingAt inner.slots j := by
  obtain rfl | heq := h.inner
  · exact h.tried.outstandingAt j
  · rw [heq, ← h.tried.outstandingAt j]
    exact outstandingAt_modify_of_keeps (NodeSlot.build c.client) (fun _ => rfl) _ _ _

/-! ## Steps -/

theorem reportInner_slots (inner : PoolInner F Ip Client) (i bytes elapsed : ℕ) (outcome : Outcome) :
    Evolves inner.slots (reportInner inner i bytes elapsed outcome).1.slots ∧
      ∀ j, outstandingAt (reportInner inner i bytes elapsed outcome).1.slots j =
        outstandingAt inner.slots j := by
  cases outcome with
  | ok =>
    exact ⟨evolves_modify _ _ (fun v _ => ⟨rfl,id,id,fun _ => rfl⟩),
      fun j => outstandingAt_modify_of_keeps (NodeSlot.succeed bytes elapsed) (fun _ => rfl) _ _ _⟩
  | error versionChanged =>
    have hfail : Evolves inner.slots (inner.slots.modify i NodeSlot.fail) :=
      evolves_modify _ _ (fun v _ => ⟨rfl,id,id,fun _ => rfl⟩)
    have hkeep : ∀ j, outstandingAt (inner.slots.modify i NodeSlot.fail) j =
        outstandingAt inner.slots j :=
      fun j => outstandingAt_modify_of_keeps NodeSlot.fail (fun _ => rfl) _ _ _
    simp only [reportInner, failNode, PoolInner.modifySlot]
    cases hslot : (inner.slots.modify i NodeSlot.fail)[i]? with
    | none => exact ⟨hfail,hkeep⟩
    | some slot =>
      simp only
      by_cases hkick : slot.ip.isSome ∧ (versionChanged ∨ slot.failStreak ≥ kickStreak)
      · rw [if_pos hkick, kickNode_slots]
        refine ⟨hfail.trans (evolves_modify _ _ (fun v hv => ?_)),fun j => ?_⟩
        · cases hslot.symm.trans hv
          exact slotEvolves_kick hkick.1
        · rw [outstandingAt_modify_of_keeps NodeSlot.kick (fun _ => rfl)]
          exact hkeep j
      · rw [if_neg hkick]
        exact ⟨hfail,hkeep⟩

structure Sound (p : Pool F Ip Client) : Prop where
  rooted : Rooted p.inner.slots
  balanced : Balanced p

theorem sound_step {a : Label Ip Client} (h : Sound p) (hstep : step cfg p a = some q) :
    Sound q ∧ Evolves p.inner.slots q.inner.slots := by
  obtain ⟨hroot,hbal⟩ := h
  suffices hev : Evolves p.inner.slots q.inner.slots ∧ Balanced q from
    ⟨⟨hroot.evolves hev.1,hev.2⟩,hev.1⟩
  cases a with
  | lease buildPinnedClient now =>
    obtain ⟨c,u,v,hc,hland⟩ := choose_lands cfg buildPinnedClient hroot
    simp only [step, lease, hc, map_some, some.injEq] at hstep
    subst hstep
    have hacq : Evolves c.inner.slots (c.inner.slots.modify c.nodeId NodeSlot.acquire) :=
      evolves_modify _ _ (fun v _ => ⟨rfl,id,id,fun _ => rfl⟩)
    refine ⟨?_,fun i => ?_⟩
    · simp only [Pool.update, leasesEventLocked_slots, PoolInner.modifySlot]
      exact (hland.evolves hroot).trans hacq
    · simp only [Pool.update, leasesEventLocked_slots, PoolInner.modifySlot]
      rw [outstandingAt_modify, countP_append, ← hbal i]
      obtain ⟨w,hw,-⟩ : ∃ w, c.inner.slots[c.nodeId]? = some w ∧ SlotEvolves v w := by
        obtain rfl | heq := hland.inner
        · exact ⟨v,hland.slot,.refl v⟩
        · rw [heq]
          exact ⟨_,by simp [PoolInner.modifySlot, hland.slot],slotEvolves_build v c.client⟩
      by_cases hi : c.nodeId = i
      · subst hi
        rw [if_pos rfl, ← hland.outstandingAt]
        simp [NodePool.outstandingAt, hw, NodeSlot.acquire]
      · rw [if_neg hi, hland.outstandingAt]
        simp [hi]
  | drop j now =>
    obtain ⟨l,hl,rfl⟩ := map_eq_some_iff.mp hstep
    refine ⟨?_,fun i => ?_⟩
    · simp only [Pool.update, leasesEventLocked_slots, PoolInner.modifySlot]
      exact evolves_modify _ _ (fun v _ => ⟨rfl,id,id,fun _ => rfl⟩)
    · simp only [Pool.update, leasesEventLocked_slots, PoolInner.modifySlot]
      have hcount := hbal i
      rw [countP_eraseIdx hl] at hcount
      rw [outstandingAt_modify]
      by_cases hi : l.nodeId = i
      · subst hi
        rw [if_pos rfl]
        simp only [decide_true, if_true] at hcount
        cases hslot : p.inner.slots[l.nodeId]? with
        | none => simp [NodePool.outstandingAt, hslot] at hcount
        | some v =>
          simp only [NodePool.outstandingAt, hslot, map_some, getD_some] at hcount
          simp only [map_some, getD_some, NodeSlot.release]
          omega
      · rw [if_neg hi, hcount]
        simp [hi]
  | report j bytes elapsed outcome =>
    obtain ⟨l,hl,rfl⟩ := map_eq_some_iff.mp hstep
    obtain ⟨hev,hkeep⟩ := reportInner_slots p.inner l.nodeId bytes elapsed outcome
    exact ⟨hev,fun i => (hkeep i).trans (hbal i)⟩
  | switchToClient client =>
    cases hstep
    refine ⟨evolves_switch _ client,fun i => ?_⟩
    refine Eq.trans ?_ (hbal i)
    simp only [switchToClient]
    rw [outstandingAt_modify_of_keeps (NodeSlot.build client) (fun _ => rfl)]
    simp only [NodePool.outstandingAt, getElem?_map, Option.map_map, Function.comp_def,
      retire_outstanding]

theorem sound_exec {as : List (Label Ip Client)} (h : Sound p)
    (hrun : exec (step cfg) p as = some q) : Sound q ∧ Evolves p.inner.slots q.inner.slots := by
  induction as generalizing p with
  | nil =>
    cases hrun
    exact ⟨h,.refl _⟩
  | cons a as ih =>
    obtain ⟨r,hr,hrest⟩ := exec_cons_iff.mp hrun
    obtain ⟨hsound,hev⟩ := sound_step h hr
    obtain ⟨hq,hev'⟩ := ih hsound hrest
    exact ⟨hq,hev.trans hev'⟩

/-! ## Runs -/

inductive Initial : Pool F Ip Client → Prop
  | single (client : Client) : Initial (single client)
  | multi (candidates : List Ip) (lookupEwma : Ip → Option F) (origins : Ip → Option String)
      (taskClient : Client) : Initial (multi candidates lookupEwma origins taskClient)

theorem sound_newPool (client : Client) (slots : List (NodeSlot F Ip Client))
    (hnew : ∀ v ∈ slots, v.ip.isSome ∧ v.outstanding = 0) :
    Sound (newPool (newSlot none (some client) none none :: slots)) := by
  refine ⟨⟨⟨_,rfl,rfl,rfl,rfl⟩,fun i v hv hi => ?_⟩,fun i => ?_⟩
  · obtain ⟨i,rfl⟩ := Nat.exists_eq_succ_of_ne_zero hi.ne'
    exact (hnew v (mem_of_getElem? (by simpa [newPool] using hv))).1
  · cases i with
    | zero => rfl
    | succ i =>
      simp only [newPool, outstandingAt, getElem?_cons_succ, countP_nil]
      cases hv : slots[i]? with
      | none => rfl
      | some v => exact (hnew v (mem_of_getElem? hv)).2

theorem sound_initial (h : Initial p) : Sound p := by
  cases h with
  | single client => exact sound_newPool client [] (by simp)
  | multi candidates lookupEwma origins taskClient =>
    refine sound_newPool taskClient _ (fun v hv => ?_)
    obtain ⟨ip,-,rfl⟩ := mem_map.mp hv
    exact ⟨rfl,rfl⟩

theorem switched_exec {as : List (Label Ip Client)} {client : Client} (h : Sound p)
    (hrun : exec (step cfg) p as = some q) (hmem : .switchToClient client ∈ as) :
    Switched q.inner.slots := by
  obtain ⟨bs,cs,rfl⟩ := append_of_mem hmem
  rw [exec_append] at hrun
  obtain ⟨r,hr,hrest⟩ := bind_eq_some_iff.mp hrun
  obtain ⟨s,hs,hrun'⟩ := exec_cons_iff.mp hrest
  have hsound := (sound_exec h hr).1
  have hsound' := (sound_step hsound hs).1
  cases hs
  exact (switched_switchToClient r client).evolves (sound_exec hsound' hrun').2

/-- In every state `u` that a run reaches the system route is alive, what was kicked before still
is, the counters add up to the live leases, and the next lease is granted: whatever clients cannot
be built, `pick` has a candidate, the lease lands on an alive node below its fair share, and it is
the system route once the pool has been switched. -/
theorem node_pool_run {s t u : Pool F Ip Client} {as bs : List (Label Ip Client)}
    (hinit : Initial s) (hs : exec (step cfg) s as = some t) (ht : exec (step cfg) t bs = some u) :
    (∃ v, u.inner.slots[0]? = some v ∧ v.ip = none ∧ v.kicked = false) ∧
    (∀ (i : ℕ) v, t.inner.slots[i]? = some v → v.kicked = true →
      ∃ w, u.inner.slots[i]? = some w ∧ w.kicked = true) ∧
    totalOutstanding u.inner.slots = u.live.length ∧
    ∀ buildPinnedClient now,
      (∀ w, Tried cfg buildPinnedClient u.inner w → candidates w.slots ≠ []) ∧
      ∃ l u', lease cfg buildPinnedClient now u = some (l, u') ∧
        (∃ w v, Tried cfg buildPinnedClient u.inner w ∧ w.slots[l.nodeId]? = some v ∧
          l.ip = v.ip ∧ v.kicked = false ∧ v.outstanding < fairShare w.slots) ∧
        ∀ client, .switchToClient client ∈ bs → l.ip = none := by
  have hsound := (sound_exec (sound_initial hinit) hs).1
  obtain ⟨⟨hroot,hbal⟩,hev⟩ := sound_exec hsound ht
  obtain ⟨sys,hsys,hip,hkicked,-⟩ := hroot.system
  refine ⟨⟨sys,hsys,hip,hkicked⟩,fun i v hv hk => ?_,hbal.total,fun buildPinnedClient now => ?_⟩
  · obtain ⟨w,hw,hvw⟩ := hev.get hv
    exact ⟨w,hw,hvw.kicked hk⟩
  · refine ⟨fun w hw => hw.candidates_ne_nil hroot,?_⟩
    obtain ⟨c,w,v,hc,hland⟩ := choose_lands cfg buildPinnedClient hroot
    refine ⟨⟨c.nodeId,c.client,c.ip⟩,_,by simp only [lease, hc, map_some]; rfl,
      ⟨w,v,hland.tried,hland.slot,hland.ip,hland.alive,hland.share⟩,fun client hmem => ?_⟩
    have hswitched := (switched_exec hsound ht hmem).evolves (hland.tried.evolves hroot)
    by_contra hne
    have hpinned : v.ip.isSome := by
      rw [← hland.ip]
      exact isSome_iff_ne_none.mpr hne
    have := hswitched v (mem_of_getElem? hland.slot) hpinned
    rw [hland.alive] at this
    exact Bool.false_ne_true this

/-- The source's formulas over exact numbers, times in nanoseconds. -/
instance rationalThroughput : Throughput ℚ where
  default := 4 * 1024 * 1024
  sampled ewma bytes elapsed := 7 / 10 * ewma + 3 / 10 * (bytes * 1000000000 / elapsed)
  halved ewma := ewma / 2
  decayed ewma n := ewma / 2 ^ n
  gt a b := decide (b < a)
  eq a b := decide (a = b)
  toInt a := a.floor

def samplePool : Pool ℚ ℕ String := multi [1, 2] (fun _ => none) (fun _ => some "doh") "task"

/-- Two leases, of which one ends with a version mismatch and is dropped. -/
def sampleBefore : List (Label ℕ String) :=
  [.lease (fun _ => some "pinned") 0, .lease (fun _ => some "pinned") 1,
    .report 1 1000 5000000 (.error true), .drop 1 3000]

def sampleAfter : List (Label ℕ String) :=
  [.report 0 (512 * 1024) 1000000 .ok, .switchToClient "proxy", .lease (fun _ => none) 4000]

theorem node_pool_run_sample :
    ∃ u, exec (step ⟨true,true⟩) samplePool (sampleBefore ++ sampleAfter) = some u ∧
      totalOutstanding u.inner.slots = u.live.length ∧
      ∃ l u', lease ⟨true,true⟩ (fun _ => none) 5000 u = some (l, u') ∧ l.ip = none := by
  have hbefore : (exec (step ⟨true,true⟩) samplePool sampleBefore).isSome := by decide +kernel
  obtain ⟨t,ht⟩ := isSome_iff_exists.mp hbefore
  have hafter : ((exec (step ⟨true,true⟩) samplePool sampleBefore).bind
      (fun t => exec (step ⟨true,true⟩) t sampleAfter)).isSome := by decide +kernel
  rw [ht] at hafter
  obtain ⟨u,hu⟩ := isSome_iff_exists.mp hafter
  obtain ⟨-,-,htotal,hlease⟩ := node_pool_run (.multi _ _ _ _) ht hu
  obtain ⟨-,l,u',hl,-,hswitch⟩ := hlease (fun _ => none) 5000
  have hmem : .switchToClient "proxy" ∈ sampleAfter := by simp [sampleAfter]
  exact ⟨u,by rw [exec_append, ht]; exact hu,htotal,l,u',hl,hswitch "proxy" hmem⟩

end RinaDown.NodePool
