import RinaDown.Ed2kDownload
import RinaDown.LabelledExecutions

/-!
# The block loop loses no block

Every block that is not stored as verified is pending or with one task, unless
a task has panicked or the row of a verified block could not be written. A round
that ends with success has verified all others.
-/

namespace RinaDown.Ed2kDownload
open LabelledExecutions Ed2kHash Ed2kBlockTask List

/-! ## Rows -/

def indexes (rows : List BlockRow) : List ℕ := rows.map BlockRow.index

variable {rows : List BlockRow} {backoff integrityBl sources : List Source} {roundRobin : ℕ}

theorem indexes_insertRow {row : BlockRow} {i : ℕ} :
    i ∈ indexes (insertRow row rows) ↔ i = row.index ∨ i ∈ indexes rows := by
  induction rows with
  | nil => simp [indexes, insertRow]
  | cons q rest ih =>
    rw [insertRow]
    split_ifs with hlt heq
    · simp [indexes]
    · simp only [indexes, map_cons, mem_cons, heq]
      tauto
    · simp only [indexes, map_cons, mem_cons] at ih ⊢
      rw [ih]
      tauto

theorem ordered_insertRow {row : BlockRow} (h : (indexes rows).Pairwise (· < ·)) :
    (indexes (insertRow row rows)).Pairwise (· < ·) := by
  induction rows with
  | nil => simp [indexes, insertRow]
  | cons q rest ih =>
    obtain ⟨hfirst,hrest⟩ := pairwise_cons.mp (show (q.index :: indexes rest).Pairwise (· < ·) from h)
    rw [insertRow]
    split_ifs with hlt heq
    · refine pairwise_cons.mpr ⟨fun i hi => ?_,h⟩
      rcases mem_cons.mp hi with rfl | hi
      · exact hlt
      · exact Nat.lt_trans hlt (hfirst i hi)
    · exact h
    · refine pairwise_cons.mpr ⟨fun i hi => ?_,ih hrest⟩
      rcases indexes_insertRow.mp hi with rfl | hi
      · exact Nat.lt_of_le_of_ne (Nat.le_of_not_lt hlt) (Ne.symm heq)
      · exact hfirst i hi

theorem initEd2kBlocks_succ (rows : List BlockRow) (n : ℕ) :
    initEd2kBlocks rows (n + 1) = insertRow ⟨n,0,0,0⟩ (initEd2kBlocks rows n) := by
  rw [initEd2kBlocks, range_succ, foldl_append]
  rfl

theorem ordered_initEd2kBlocks (h : (indexes rows).Pairwise (· < ·)) (n : ℕ) :
    (indexes (initEd2kBlocks rows n)).Pairwise (· < ·) := by
  induction n with
  | zero => exact h
  | succ n ih =>
    rw [initEd2kBlocks_succ]
    exact ordered_insertRow ih

theorem mem_initEd2kBlocks (rows : List BlockRow) {n i : ℕ} (hi : i < n) :
    i ∈ indexes (initEd2kBlocks rows n) := by
  induction n with
  | zero => exact absurd hi (Nat.not_lt_zero i)
  | succ n ih =>
    rw [initEd2kBlocks_succ]
    refine indexes_insertRow.mpr ?_
    rcases Nat.lt_succ_iff_lt_or_eq.mp hi with hlt | rfl
    · exact .inr (ih hlt)
    · exact .inl rfl

@[simp] theorem indexes_updateEd2kBlock (rows : List BlockRow) (i : ℕ) (state bytes : ℤ)
    (bump : Bool) : indexes (updateEd2kBlock rows i state bytes bump) = indexes rows := by
  rw [indexes, updateEd2kBlock, map_map]
  refine map_congr_left (fun r _ => ?_)
  rw [Function.comp_apply]
  split_ifs <;> rfl

@[simp] theorem indexes_markMissing (rows : List BlockRow) (is : List ℕ) :
    indexes (markMissing rows is) = indexes rows := by
  induction is generalizing rows with
  | nil => rfl
  | cons i is ih =>
    rw [markMissing, foldl_cons]
    exact (ih _).trans (indexes_updateEd2kBlock _ _ _ _ _)

theorem verified_update_ne {i b : ℕ} {state bytes : ℤ} {bump : Bool} (hne : b ≠ i)
    (h : Verified rows b) : Verified (updateEd2kBlock rows i state bytes bump) b := by
  obtain ⟨r,hr,rfl,hstate⟩ := h
  refine ⟨r,mem_map.mpr ⟨r,hr,if_neg hne⟩,rfl,hstate⟩

theorem verified_update_self {i : ℕ} {bytes : ℤ} {bump : Bool} (h : i ∈ indexes rows) :
    Verified (updateEd2kBlock rows i blockVerified bytes bump) i := by
  obtain ⟨r,hr,rfl⟩ := mem_map.mp h
  exact ⟨_,mem_map.mpr ⟨r,hr,if_pos rfl⟩,rfl,rfl⟩

/-! ## The choice of a source -/

theorem pickLoop_isSome {turns : ℕ} (hbound : roundRobin + turns ≤ 2 ^ 64) {j : ℕ} (hj : j < turns)
    {source : Source} (hat : sources[(roundRobin + j) % sources.length]? = some source)
    (hfree : source ∉ backoff ∧ source ∉ integrityBl) :
    (pickLoop sources backoff integrityBl turns roundRobin).1.isSome := by
  induction turns generalizing roundRobin j with
  | zero => exact absurd hj (Nat.not_lt_zero j)
  | succ turns ih =>
    rw [pickLoop]
    have hpos : 0 < sources.length := Nat.zero_lt_of_lt (List.getElem?_eq_some_iff.mp hat).choose
    split
    · next hnone =>
      have hlt := Nat.mod_lt roundRobin hpos
      exact absurd (getElem?_eq_none_iff.mp hnone) (Nat.not_le_of_lt hlt)
    · next first hfirst =>
      split_ifs with htaken
      · rfl
      · cases j with
        | zero =>
          rw [Nat.add_zero, hfirst] at hat
          cases hat
          exact absurd hfree htaken
        | succ j =>
          have hnext : (roundRobin + 1) % 2 ^ 64 = roundRobin + 1 := Nat.mod_eq_of_lt (by omega)
          rw [hnext]
          refine ih (j := j) (by omega) (by omega) ?_
          rw [Nat.add_assoc, Nat.add_comm 1 j]
          exact hat

/-- A source that is not blacklisted and does not back off is found before the counter wraps. -/
theorem pickSource_isSome (hbound : roundRobin + sources.length ≤ 2 ^ 64) {source : Source}
    (h : Eligible sources backoff integrityBl source) :
    (pickSource sources backoff integrityBl roundRobin).1.isSome := by
  obtain ⟨hmem,hfree⟩ := h
  obtain ⟨i,hi⟩ := mem_iff_getElem?.mp hmem
  obtain ⟨hlt,-⟩ := List.getElem?_eq_some_iff.mp hi
  have hpos : 0 < sources.length := Nat.zero_lt_of_lt hlt
  -- the turn at which the counter stands at the source
  let j := (i + (sources.length - roundRobin % sources.length)) % sources.length
  have hj : j < sources.length := Nat.mod_lt _ hpos
  have hat : (roundRobin + j) % sources.length = i := by
    have hmod := Nat.mod_lt roundRobin hpos
    rw [← Nat.mod_add_mod, Nat.add_mod_mod,
      show roundRobin % sources.length + (i + (sources.length - roundRobin % sources.length)) =
        i + sources.length by omega, Nat.add_mod_right, Nat.mod_eq_of_lt hlt]
  exact pickLoop_isSome hbound hj (hat ▸ hi) hfree

theorem pickLoop_counter {turns : ℕ} (hbound : roundRobin + turns < 2 ^ 64) :
    (pickLoop sources backoff integrityBl turns roundRobin).2 ≤ roundRobin + turns := by
  induction turns generalizing roundRobin with
  | zero => exact Nat.le_refl _
  | succ turns ih =>
    rw [pickLoop]
    have hnext : (roundRobin + 1) % 2 ^ 64 = roundRobin + 1 := Nat.mod_eq_of_lt (by omega)
    split
    · omega
    · rw [hnext]
      split_ifs
      · dsimp only
        omega
      · have hrest : (pickLoop sources backoff integrityBl turns (roundRobin + 1)).2 ≤
            roundRobin + 1 + turns := ih (by omega)
        exact Nat.le_trans hrest (by omega)

/-! ## The ledger of blocks -/

def RunPhase.inBlockLoop : RunPhase → Bool
  | .top => true
  | .filling => true
  | .refreshing => true
  | .waiting => true
  | _ => false

def RunPhase.prepared : RunPhase → Bool
  | .preparing => false
  | .returned _ => false
  | _ => true

def RunPhase.succeeded : RunPhase → Bool
  | .finalizing => true
  | .renaming => true
  | .returned (.ok _) => true
  | _ => false

theorem RunPhase.not_succeeded {p : RunPhase} (h : p.inBlockLoop = true) : p.succeeded = false := by
  cases p <;> first | rfl | cases h

theorem RunPhase.prepared_of_inBlockLoop {p : RunPhase} (h : p.inBlockLoop = true) :
    p.prepared = true := by
  cases p <;> first | rfl | cases h

namespace Download

variable {md4 : Bytes → Digest} {s t : Download}

def running (s : Download) : List ℕ := s.join.map BlockTask.index

def AllVerified (s : Download) : Prop := ∀ b < s.blockCount, Verified s.rows b

/-- The loop drops the block of the task: the task has panicked, or its row is not written. -/
def drops (s : Download) (task : BlockTask) (stored : Bool) : Bool :=
  match task.phase with
  | .panicked => true
  | .finished (.ok digest) => s.matchesBlock task.index digest && !stored
  | _ => false

/-- Every block is stored as verified, pending, with a task, or lost. -/
structure Accounted (s : Download) : Prop where
  covered : ∀ b < s.blockCount, ¬Verified s.rows b → b ∈ s.pending ∨ b ∈ s.running ∨ b ∈ s.lost
  once : (s.pending ++ s.running).Nodup

structure Inv (s : Download) : Prop where
  ordered : (indexes s.rows).Pairwise (· < ·)
  complete : s.phase.prepared = true → ∀ b < s.blockCount, b ∈ indexes s.rows
  loop : s.phase.inBlockLoop = true → s.Accounted
  idle : s.phase.inBlockLoop = false → s.join = []
  reloading : s.phase = .reloading → ∀ b < s.blockCount, ¬Verified s.rows b → b ∈ s.lost
  succeeded : s.phase.succeeded = true → s.job.totalBytes ≠ 0 → s.AllVerified

theorem inv_giveUp (h : (indexes s.rows).Pairwise (· < ·)) (error : DownloadError) :
    Inv (s.giveUp error) where
  ordered := h
  complete hphase := by cases hphase
  loop hphase := by cases hphase
  idle _ := rfl
  reloading hphase := by cases hphase
  succeeded hphase := by cases hphase

theorem inv_of_loop (hordered : (indexes s.rows).Pairwise (· < ·))
    (hcomplete : ∀ b < s.blockCount, b ∈ indexes s.rows) (hphase : s.phase.inBlockLoop = true)
    (haccounted : s.Accounted) : Inv s where
  ordered := hordered
  complete _ := hcomplete
  loop _ := haccounted
  idle hidle := by
    rw [hphase] at hidle
    cases hidle
  reloading hreloading := by
    rw [hreloading] at hphase
    cases hphase
  succeeded hsucceeded := by
    rw [RunPhase.not_succeeded hphase] at hsucceeded
    cases hsucceeded

theorem Inv.prepare (h : Inv s) (hjoin : s.join = []) : Inv s.prepare := by
  have hordered := ordered_initEd2kBlocks h.ordered s.blockCount
  have hcomplete : ∀ b < s.blockCount, b ∈ indexes (initEd2kBlocks s.rows s.blockCount) :=
    fun b hb => mem_initEd2kBlocks s.rows hb
  have hafter : ∀ {t : Download}, t.join = [] → t.job = s.job →
      indexes t.rows = indexes (initEd2kBlocks s.rows s.blockCount) →
        Inv (if t.job.totalBytes = 0 then
          if t.job.rootHash = md4Empty then { t with phase := .renaming }
          else t.giveUp (.ed2kIntegrity "0-byte file root hash mismatch")
        else { t with phase := .loading }) := by
    intro t hj hjob hrows
    have hcount : t.blockCount = s.blockCount := by rw [blockCount, hjob, blockCount]
    have hsorted : (indexes t.rows).Pairwise (· < ·) := hrows ▸ hordered
    have hall : ∀ b < t.blockCount, b ∈ indexes t.rows := fun b hb => by
      rw [hrows]
      exact hcomplete b (hcount ▸ hb)
    split_ifs with hzero
    · exact ⟨hsorted,fun _ => hall,nofun,fun _ => hj,nofun,
        fun _ hne => absurd hzero hne⟩
    · exact inv_giveUp hsorted _
    · exact ⟨hsorted,fun _ => hall,nofun,fun _ => hj,nofun,
        nofun⟩
  rw [Download.prepare]
  split_ifs
  · exact hafter hjoin rfl rfl
  · cases hlen : File.setLen s.job.totalBytes with
    | none => exact inv_giveUp h.ordered _
    | some file => exact hafter hjoin rfl (indexes_markMissing _ _)

theorem Inv.load (h : Inv s) (hprepared : s.phase.prepared = true) : Inv s.load := by
  have hcomplete := h.complete hprepared
  have hpending : ∀ b < s.blockCount, ¬Verified s.rows b →
      b ∈ (s.rows.filter (fun r => r.state ≠ blockVerified)).map BlockRow.index := by
    intro b hb hnot
    obtain ⟨r,hr,rfl⟩ := mem_map.mp (hcomplete b hb)
    refine mem_map.mpr ⟨r,mem_filter.mpr ⟨hr,?_⟩,rfl⟩
    simpa using fun hstate => hnot ⟨r,hr,rfl,hstate⟩
  rw [Download.load]
  split_ifs with hempty
  · refine ⟨h.ordered,fun _ => hcomplete,nofun,fun _ => rfl,
      nofun,fun _ _ b hb => ?_⟩
    by_contra hnot
    have hmem := hpending b hb hnot
    rw [hempty] at hmem
    exact not_mem_nil hmem
  · refine inv_of_loop h.ordered hcomplete rfl ⟨fun b hb hnot => .inl (hpending b hb hnot),?_⟩
    have hnodup : (indexes s.rows).Nodup := h.ordered.imp Nat.ne_of_lt
    exact (append_nil _).symm ▸ hnodup.sublist (filter_sublist.map _)

theorem Inv.finalize (h : Inv s) (hphase : s.phase = .finalizing) : Inv (s.finalize md4) := by
  have hcomplete := h.complete (by rw [hphase]; rfl)
  have hjoin : s.join = [] := h.idle (by rw [hphase]; rfl)
  rw [Download.finalize]
  dsimp only
  rcases finalizeAndVerify_cases md4 s.job s.shared.temp s.rows s.hashsetRow with
    ⟨hok,hrows,-⟩ | ⟨error,herror,is,hrows⟩
  · rw [hok, hrows]
    exact ⟨h.ordered,fun _ => hcomplete,nofun,fun _ => hjoin,nofun,
      fun _ => h.succeeded (by rw [hphase]; rfl)⟩
  · have hindexes := indexes_markMissing s.rows is
    have hordered : (indexes (markMissing s.rows is)).Pairwise (· < ·) := hindexes ▸ h.ordered
    rw [herror, hrows]
    dsimp only
    split_ifs
    · refine ⟨hordered,fun _ b hb => ?_,nofun,fun _ => hjoin,nofun,nofun⟩
      exact hindexes ▸ hcomplete b hb
    · exact inv_giveUp hordered _

theorem Accounted.congr (h : s.Accounted) (hjob : t.job = s.job) (hrows : t.rows = s.rows)
    (hpending : t.pending = s.pending) (hrunning : t.running = s.running)
    (hlost : t.lost = s.lost) : t.Accounted := by
  refine ⟨fun b hb hnot => ?_,?_⟩
  · rw [hpending, hrunning, hlost]
    refine h.covered b ?_ (hrows ▸ hnot)
    rwa [blockCount, hjob] at hb
  · rw [hpending, hrunning]
    exact h.once

theorem Inv.enter (h : Inv s) (hphase : s.phase = .top) : Inv s.enter := by
  rw [Download.enter]
  split_ifs
  · exact inv_giveUp h.ordered _
  · exact inv_of_loop h.ordered (h.complete (by rw [hphase]; rfl)) rfl
      ((h.loop (by rw [hphase]; rfl)).congr rfl rfl rfl rfl rfl)

/-- The filling ends: with a task to wait for, with nothing pending, or for lack of sources. -/
theorem inv_leaveFilling (hordered : (indexes s.rows).Pairwise (· < ·))
    (hcomplete : ∀ b < s.blockCount, b ∈ indexes s.rows) (h : s.Accounted) :
    Inv s.leaveFilling := by
  rw [leaveFilling]
  split_ifs with hjoin hpending
  · refine ⟨hordered,fun _ => hcomplete,nofun,fun _ => hjoin,fun _ b hb hnot => ?_,nofun⟩
    have hcovered := h.covered b hb hnot
    rw [hpending, running, hjoin] at hcovered
    exact (hcovered.resolve_left not_mem_nil).resolve_left not_mem_nil
  · exact inv_of_loop hordered hcomplete rfl (h.congr rfl rfl rfl rfl rfl)
  · exact inv_of_loop hordered hcomplete rfl (h.congr rfl rfl rfl rfl rfl)

theorem Inv.fill (h : Inv s) (hphase : s.phase = .filling) : Inv s.fill := by
  have hcomplete := h.complete (by rw [hphase]; rfl)
  have haccounted := h.loop (by rw [hphase]; rfl)
  rw [Download.fill]
  split_ifs
  · split
    · next source roundRobin index rest hpick hpending =>
      refine inv_of_loop h.ordered hcomplete (congrArg RunPhase.inBlockLoop hphase)
        ⟨fun b hb hnot => ?_,?_⟩
      · rcases haccounted.covered b hb hnot with hmem | hmem | hmem
        · rw [hpending] at hmem
          rcases mem_cons.mp hmem with rfl | hmem
          · exact .inr (.inl (by simp [running]))
          · exact .inl hmem
        · refine .inr (.inl ?_)
          rw [running, map_append]
          exact mem_append_left _ hmem
        · exact .inr (.inr hmem)
      · have honce := haccounted.once
        rw [hpending] at honce
        have hperm : (rest ++ (s.join ++ [(⟨index,source,.connecting⟩ : BlockTask)]).map
            BlockTask.index).Perm (index :: rest ++ s.running) := by
          rw [map_append, ← append_assoc]
          exact perm_append_comm
        exact hperm.nodup_iff.mpr honce
    · exact inv_leaveFilling h.ordered hcomplete (haccounted.congr rfl rfl rfl rfl rfl)
  · exact inv_leaveFilling h.ordered hcomplete haccounted

theorem Inv.refresh (h : Inv s) (hphase : s.phase = .refreshing) (merged : List Source) :
    Inv (s.refresh merged) := by
  have hcomplete := h.complete (by rw [hphase]; rfl)
  have haccounted := h.loop (by rw [hphase]; rfl)
  rw [Download.refresh]
  split_ifs
  · exact inv_of_loop h.ordered hcomplete rfl (haccounted.congr rfl rfl rfl rfl rfl)
  · dsimp only
    split_ifs
    · exact inv_giveUp (s := { s with sourceRetries := s.sourceRetries + 1 }) h.ordered _
    · exact inv_of_loop h.ordered hcomplete rfl (haccounted.congr rfl rfl rfl rfl rfl)

theorem indexes_storeBlock (s : Download) (stored : Bool) (i : ℕ) (state bytes : ℤ) (bump : Bool) :
    indexes (s.storeBlock stored i state bytes bump) = indexes s.rows := by
  rw [storeBlock]
  split_ifs
  · exact indexes_updateEd2kBlock _ _ _ _ _
  · rfl

theorem verified_storeBlock_ne {stored : Bool} {i b : ℕ} {state bytes : ℤ} {bump : Bool}
    (hne : b ≠ i) (h : Verified s.rows b) :
    Verified (s.storeBlock stored i state bytes bump) b := by
  rw [storeBlock]
  split_ifs
  · exact verified_update_ne hne h
  · exact h

/-- The ledger while a task is out of `join`. -/
structure Holds (s : Download) (index : ℕ) : Prop where
  covered : ∀ b < s.blockCount, ¬Verified s.rows b →
    b = index ∨ b ∈ s.pending ∨ b ∈ s.running ∨ b ∈ s.lost
  once : (s.pending ++ index :: s.running).Nodup

theorem Accounted.holds (h : s.Accounted) {k : ℕ} {task : BlockTask} (hk : s.join[k]? = some task) :
    Holds { s with join := s.join.eraseIdx k } task.index := by
  obtain ⟨hlt,rfl⟩ := List.getElem?_eq_some_iff.mp hk
  have hperm : ((s.join[k]).index :: (s.join.eraseIdx k).map BlockTask.index).Perm s.running :=
    (getElem_cons_eraseIdx_perm hlt).map BlockTask.index
  refine ⟨fun b hb hnot => ?_,(hperm.append_left s.pending).nodup_iff.mpr h.once⟩
  rcases h.covered b hb hnot with hmem | hmem | hmem
  · exact .inr (.inl hmem)
  · rcases mem_cons.mp (hperm.mem_iff.mpr hmem) with rfl | hmem
    · exact .inl rfl
    · exact .inr (.inr (.inl hmem))
  · exact .inr (.inr (.inr hmem))

theorem Holds.drop {index : ℕ} (h : Holds s index) (hjob : t.job = s.job)
    (hrows : ∀ b, b ≠ index → Verified s.rows b → Verified t.rows b)
    (hpending : t.pending = s.pending) (hrunning : t.running = s.running)
    (hlost : ∀ b ∈ s.lost, b ∈ t.lost)
    (hindex : index < s.blockCount → Verified t.rows index ∨ index ∈ t.lost) :
    t.Accounted := by
  refine ⟨fun b hb hnot => ?_,?_⟩
  · rw [hpending, hrunning]
    by_cases heq : b = index
    · subst heq
      exact .inr (.inr ((hindex (by rwa [blockCount, hjob] at hb)).resolve_left hnot))
    · have hb' : b < s.blockCount := by rwa [blockCount, hjob] at hb
      rcases h.covered b hb' (fun hv => hnot (hrows b heq hv)) with hmem | hmem | hmem | hmem
      · exact absurd hmem heq
      · exact .inl hmem
      · exact .inr (.inl hmem)
      · exact .inr (.inr (hlost b hmem))
  · rw [hpending, hrunning]
    exact h.once.sublist ((List.Sublist.refl _).append (sublist_cons_self _ _))

theorem Holds.requeue {index : ℕ} (h : Holds s index) (hjob : t.job = s.job)
    (hrows : ∀ b, b ≠ index → Verified s.rows b → Verified t.rows b)
    (hpending : t.pending = s.pending ++ [index]) (hrunning : t.running = s.running)
    (hlost : t.lost = s.lost) : t.Accounted := by
  refine ⟨fun b hb hnot => ?_,?_⟩
  · rw [hpending, hrunning, hlost]
    by_cases heq : b = index
    · subst heq
      exact .inl (mem_append_right _ mem_cons_self)
    · have hb' : b < s.blockCount := by rwa [blockCount, hjob] at hb
      rcases h.covered b hb' (fun hv => hnot (hrows b heq hv)) with hmem | hmem | hmem
      · exact absurd hmem heq
      · exact .inl (mem_append_left _ hmem)
      · exact .inr hmem
  · rw [hpending, hrunning, append_assoc]
    exact h.once

theorem Holds.handle {task : BlockTask} (h : Holds s task.index)
    (hordered : (indexes s.rows).Pairwise (· < ·)) (hcomplete : ∀ b < s.blockCount, b ∈ indexes s.rows)
    {stored saved : Bool} (hstep : s.handle task stored saved = some t) : Inv t := by
  have hsorted : ∀ state bytes bump,
      (indexes (s.storeBlock stored task.index state bytes bump)).Pairwise (· < ·) :=
    fun state bytes bump => (indexes_storeBlock s stored task.index state bytes bump) ▸ hordered
  have hall : ∀ state bytes bump, ∀ b < s.blockCount,
      b ∈ indexes (s.storeBlock stored task.index state bytes bump) :=
    fun state bytes bump b hb =>
      (indexes_storeBlock s stored task.index state bytes bump) ▸ hcomplete b hb
  cases hphase : task.phase with
  | panicked =>
    simp only [Download.handle, hphase] at hstep
    cases hstep
    exact inv_of_loop hordered hcomplete rfl (h.drop rfl (fun _ _ hv => hv) rfl rfl
      (fun b hb => mem_cons_of_mem _ hb) (fun _ => .inr mem_cons_self))
  | finished result =>
    cases result with
    | ok digest =>
      simp only [Download.handle, hphase] at hstep
      by_cases hmatch : s.matchesBlock task.index digest = true
      · rw [if_pos hmatch] at hstep
        cases hstep
        refine inv_of_loop (hsorted _ _ _) (hall _ _ _) rfl (h.drop rfl
          (fun b hne hv => verified_storeBlock_ne hne hv) rfl rfl (fun b hb => ?_) (fun hlt => ?_))
        · dsimp only
          split_ifs
          · exact hb
          · exact mem_cons_of_mem _ hb
        · cases stored with
          | true => exact .inl (verified_update_self (hcomplete task.index hlt))
          | false => exact .inr mem_cons_self
      · rw [if_neg hmatch] at hstep
        cases hstep
        split_ifs
        · exact inv_giveUp (hsorted _ _ _) _
        · exact inv_of_loop (hsorted _ _ _) (hall _ _ _) rfl (h.requeue rfl
            (fun b hne hv => verified_storeBlock_ne hne hv) rfl rfl rfl)
    | error error =>
      simp only [Download.handle, hphase] at hstep
      cases hstep
      by_cases herror : error.isIntegrity = true
      · rw [if_pos herror]
        exact inv_of_loop (hsorted _ _ _) (hall _ _ _) rfl (h.requeue rfl
          (fun b hne hv => verified_storeBlock_ne hne hv) rfl rfl rfl)
      · rw [if_neg herror]
        exact inv_of_loop (hsorted _ _ _) (hall _ _ _) rfl (h.requeue rfl
          (fun b hne hv => verified_storeBlock_ne hne hv) rfl rfl rfl)
  | _ => simp only [Download.handle, hphase, reduceCtorEq] at hstep

theorem Inv.task (h : Inv s) {k : ℕ} {task task' : BlockTask} {shared : Shared}
    (hk : s.join[k]? = some task) (hindex : task'.index = task.index) :
    Inv { s with join := s.join.set k task', shared := shared } := by
  have hrunning : (s.join.set k task').map BlockTask.index = s.running := by
    obtain ⟨hlt,rfl⟩ := List.getElem?_eq_some_iff.mp hk
    have hlt' : k < (s.join.map BlockTask.index).length := by simpa using hlt
    calc (s.join.set k task').map BlockTask.index
        = (s.join.map BlockTask.index).set k ((s.join.map BlockTask.index)[k]) := by
          rw [map_set, hindex, getElem_map]
      _ = s.running := set_getElem_self hlt'
  have hloop : s.phase.inBlockLoop = true := by
    by_contra hnot
    rw [h.idle (by simpa using hnot)] at hk
    cases hk
  exact inv_of_loop h.ordered (h.complete (RunPhase.prepared_of_inBlockLoop hloop)) hloop
    ((h.loop hloop).congr rfl rfl rfl hrunning rfl)

theorem Inv.step (h : Inv s) {a : Label} (hstep : Ed2kDownload.step md4 s a = some t) : Inv t := by
  cases a with
  | prepare =>
    simp only [Ed2kDownload.step] at hstep
    split at hstep
    · next hphase =>
      cases hstep
      exact h.prepare (h.idle (by rw [hphase]; rfl))
    · cases hstep
  | load =>
    simp only [Ed2kDownload.step] at hstep
    split at hstep
    · next hphase => cases hstep; exact h.load (by rw [hphase]; rfl)
    · next hphase => cases hstep; exact h.load (by rw [hphase]; rfl)
    · cases hstep
  | finalize =>
    simp only [Ed2kDownload.step] at hstep
    split at hstep
    · next hphase => cases hstep; exact h.finalize hphase
    · cases hstep
  | enter =>
    simp only [Ed2kDownload.step] at hstep
    split at hstep
    · next hphase => cases hstep; exact h.enter hphase
    · cases hstep
  | fill =>
    simp only [Ed2kDownload.step] at hstep
    split at hstep
    · next hphase => cases hstep; exact h.fill hphase
    · cases hstep
  | refresh merged =>
    simp only [Ed2kDownload.step] at hstep
    split at hstep
    · next hphase => cases hstep; exact h.refresh hphase merged
    · cases hstep
  | joinNext k stored saved =>
    simp only [Ed2kDownload.step] at hstep
    split at hstep
    · next hphase hk =>
      exact ((h.loop (by rw [hphase]; rfl)).holds hk).handle h.ordered
        (h.complete (by rw [hphase]; rfl)) hstep
    · cases hstep
  | task k event =>
    simp only [Ed2kDownload.step] at hstep
    split at hstep
    · next task hk =>
      obtain ⟨⟨task',shared⟩,hevent,rfl⟩ := Option.map_eq_some_iff.mp hstep
      exact h.task hk (step_frame hevent).index
    · cases hstep
  | cancel => cases hstep; exact ⟨h.ordered,h.complete,fun hp =>
      (h.loop hp).congr rfl rfl rfl rfl rfl,h.idle,h.reloading,h.succeeded⟩
  | interrupt =>
    simp only [Ed2kDownload.step] at hstep
    split at hstep
    · split_ifs at hstep
      cases hstep
      exact inv_giveUp h.ordered _
    · cases hstep
  | fail error =>
    simp only [Ed2kDownload.step] at hstep
    split at hstep <;> try split_ifs at hstep
    all_goals first
      | (cases hstep; exact inv_giveUp h.ordered _)
      | cases hstep
  | rename =>
    simp only [Ed2kDownload.step] at hstep
    split at hstep
    · next hphase _ =>
      cases hstep
      exact ⟨h.ordered,nofun,nofun,fun _ => h.idle (by rw [hphase]; rfl),nofun,
        fun _ => h.succeeded (by rw [hphase]; rfl)⟩
    · cases hstep

theorem Initial.inv (h : Initial s) : Inv s := by
  refine ⟨h.ordered,fun hp => ?_,fun hp => ?_,fun _ => h.join,fun hp => ?_,fun hp => ?_⟩ <;>
    rw [h.phase] at hp <;> cases hp

end Download

open Download

/-! ## Runs -/

/-- No task panics, the row of each verified block is written, and the counter of the round robin
stays within its type. -/
def Steady (s : Download) : Label → Prop
  | .fill => s.roundRobin + 2 * s.sources.length < 2 ^ 64
  | .refresh merged => s.roundRobin + merged.length < 2 ^ 64
  | .joinNext k stored _ => ∀ task ∈ s.join[k]?, s.drops task stored = false
  | _ => True

instance (s : Download) (a : Label) : Decidable (Steady s a) := by
  cases a <;> unfold Steady <;> infer_instance

/-- No block is lost and the counter is far from its end. -/
structure Calm (s : Download) : Prop where
  lost : s.lost = []
  counter : s.roundRobin + s.sources.length < 2 ^ 64

variable {md4 : Bytes → Digest} {s t : Download}

theorem Calm.congr (h : Calm s) (hlost : t.lost = s.lost) (hcounter : t.roundRobin = s.roundRobin)
    (hsources : t.sources = s.sources) : Calm t :=
  ⟨hlost.trans h.lost,by rw [hcounter, hsources]; exact h.counter⟩

theorem calm_leaveFilling (h : Calm s) : Calm s.leaveFilling := by
  rw [leaveFilling]
  split_ifs <;> exact h.congr rfl rfl rfl

theorem Calm.fill (h : Calm s) (hcond : s.roundRobin + 2 * s.sources.length < 2 ^ 64) :
    Calm s.fill := by
  have hpick : (pickSource s.sources s.backoff s.integrityBl s.roundRobin).2 ≤
      s.roundRobin + s.sources.length := pickLoop_counter (by omega)
  rw [Download.fill]
  cases hp : pickSource s.sources s.backoff s.integrityBl s.roundRobin with
  | mk picked roundRobin =>
    rw [hp] at hpick
    have hcounter : roundRobin + s.sources.length < 2 ^ 64 := by
      dsimp only at hpick
      omega
    split_ifs
    · split
      · next heq _ => cases heq; exact ⟨h.lost,hcounter⟩
      · next heq _ => cases heq; exact calm_leaveFilling ⟨h.lost,hcounter⟩
    · exact calm_leaveFilling h

theorem Calm.refresh (h : Calm s) {merged : List Source}
    (hcond : s.roundRobin + merged.length < 2 ^ 64) : Calm (s.refresh merged) := by
  rw [Download.refresh]
  split_ifs
  · exact ⟨h.lost,hcond⟩
  · dsimp only
    split_ifs <;> exact h.congr rfl rfl rfl

theorem Calm.handle (h : Calm s) {task : BlockTask} {stored saved : Bool}
    (hcond : s.drops task stored = false) (hstep : s.handle task stored saved = some t) : Calm t := by
  rw [drops] at hcond
  cases hphase : task.phase with
  | panicked =>
    rw [hphase] at hcond
    cases hcond
  | finished result =>
    rw [hphase] at hcond
    cases result with
    | ok digest =>
      simp only [Download.handle, hphase] at hstep
      by_cases hmatch : s.matchesBlock task.index digest = true
      · rw [if_pos hmatch] at hstep
        cases hstep
        have hstored : stored = true := by simpa [hmatch] using hcond
        exact h.congr (if_pos hstored) rfl rfl
      · rw [if_neg hmatch] at hstep
        cases hstep
        split_ifs <;> exact h.congr rfl rfl rfl
    | error error =>
      simp only [Download.handle, hphase] at hstep
      cases hstep
      by_cases herror : error.isIntegrity = true
      · rw [if_pos herror]
        exact h.congr rfl rfl rfl
      · rw [if_neg herror]
        exact h.congr rfl rfl rfl
  | _ => simp only [Download.handle, hphase, reduceCtorEq] at hstep

theorem Calm.prepare (h : Calm s) : Calm s.prepare := by
  rw [Download.prepare]
  split_ifs
  · dsimp only
    split_ifs <;> exact h.congr rfl rfl rfl
  · cases hlen : File.setLen s.job.totalBytes with
    | none => exact h.congr rfl rfl rfl
    | some file =>
      dsimp only [Option.map_some]
      split_ifs <;> exact h.congr rfl rfl rfl

theorem Calm.step (h : Calm s) {a : Label} (hcond : Steady s a)
    (hstep : Ed2kDownload.step md4 s a = some t) : Calm t := by
  cases a with
  | fill =>
    simp only [Ed2kDownload.step] at hstep
    split at hstep
    · cases hstep; exact h.fill hcond
    · cases hstep
  | refresh merged =>
    simp only [Ed2kDownload.step] at hstep
    split at hstep
    · cases hstep; exact h.refresh hcond
    · cases hstep
  | joinNext k stored saved =>
    simp only [Ed2kDownload.step] at hstep
    split at hstep
    · next task _ hk =>
      have hcalm : Calm { s with join := s.join.eraseIdx k } := h.congr rfl rfl rfl
      exact hcalm.handle (hcond task hk) hstep
    · cases hstep
  | prepare =>
    simp only [Ed2kDownload.step] at hstep
    split at hstep
    · cases hstep; exact h.prepare
    · cases hstep
  | load =>
    simp only [Ed2kDownload.step, Download.load] at hstep
    split at hstep
    · cases hstep; split_ifs <;> exact ⟨rfl,h.counter⟩
    · cases hstep; split_ifs <;> exact ⟨rfl,h.counter⟩
    · cases hstep
  | finalize =>
    simp only [Ed2kDownload.step, Download.finalize] at hstep
    split at hstep
    · cases hstep
      split
      · exact h.congr rfl rfl rfl
      · split_ifs <;> exact h.congr rfl rfl rfl
    · cases hstep
  | enter =>
    simp only [Ed2kDownload.step, Download.enter] at hstep
    split at hstep
    · cases hstep; split_ifs <;> exact h.congr rfl rfl rfl
    · cases hstep
  | task k event =>
    simp only [Ed2kDownload.step] at hstep
    split at hstep
    · obtain ⟨_,-,rfl⟩ := Option.map_eq_some_iff.mp hstep
      exact h.congr rfl rfl rfl
    · cases hstep
  | cancel => cases hstep; exact h.congr rfl rfl rfl
  | interrupt =>
    simp only [Ed2kDownload.step] at hstep
    split at hstep
    · split_ifs at hstep
      cases hstep
      exact h.congr rfl rfl rfl
    · cases hstep
  | fail error =>
    simp only [Ed2kDownload.step] at hstep
    split at hstep <;> try split_ifs at hstep
    all_goals first
      | (cases hstep; exact h.congr rfl rfl rfl)
      | cases hstep
  | rename =>
    simp only [Ed2kDownload.step] at hstep
    split at hstep
    · cases hstep; exact h.congr rfl rfl rfl
    · cases hstep

/-- What the block loop owes in every state. -/
structure Scheduled (s : Download) : Prop where
  owned : s.phase.inBlockLoop = true → ∀ b < s.blockCount, ¬Verified s.rows b →
    b ∈ s.pending ∧ b ∉ s.running ∨ b ∉ s.pending ∧ s.running.count b = 1
  apart : s.phase.inBlockLoop = true → ∀ b ∈ s.pending, b ∉ s.running
  picks : ∀ source, Eligible s.sources s.backoff s.integrityBl source →
    (pickSource s.sources s.backoff s.integrityBl s.roundRobin).1.isSome
  roundSucceeds : s.phase = .reloading → s.AllVerified
  succeeds : s.phase.succeeded = true → s.job.totalBytes ≠ 0 → s.AllVerified

theorem scheduled_of_inv (h : Inv s) (hcalm : Calm s) : Scheduled s := by
  have hapart : s.phase.inBlockLoop = true → ∀ b ∈ s.pending, b ∉ s.running := by
    intro hloop b hb hrunning
    exact (nodup_append.mp (h.loop hloop).once).2.2 b hb b hrunning rfl
  refine ⟨fun hloop b hb hnot => ?_,hapart,fun source hsource => ?_,fun hphase b hb => ?_,
    h.succeeded⟩
  · rcases (h.loop hloop).covered b hb hnot with hmem | hmem | hmem
    · exact .inl ⟨hmem,hapart hloop b hmem⟩
    · refine .inr ⟨fun hpending => hapart hloop b hpending hmem,?_⟩
      exact count_eq_one_of_mem (nodup_append.mp (h.loop hloop).once).2.1 hmem
    · rw [hcalm.lost] at hmem
      exact absurd hmem not_mem_nil
  · exact pickSource_isSome (Nat.le_of_lt hcalm.counter) hsource
  · by_contra hnot
    have hmem := h.reloading hphase b hb hnot
    rw [hcalm.lost] at hmem
    exact not_mem_nil hmem

/-- In every steady run, in every state, no block is lost. -/
theorem blocks_accounted {s t : Download} {as : List Label} (hs : Initial s)
    (hm : Meets (step md4) Steady s as) (hrun : exec (step md4) s as = some t) : Scheduled t := by
  have hstep : ∀ (s : Download) a t, s.Inv ∧ Calm s → Steady s a → step md4 s a = some t →
      t.Inv ∧ Calm t :=
    fun _ _ _ h ha hstep => ⟨h.1.step hstep,h.2.step ha hstep⟩
  have hcalm : Calm s := ⟨hs.lost,by rw [hs.roundRobin, hs.sources]; decide⟩
  obtain ⟨hinv,hcalm⟩ := exec_invariant_of_meets hstep ⟨Initial.inv hs,hcalm⟩ hm hrun
  exact scheduled_of_inv hinv hcalm

/-! ## A download on fixed inputs -/

def digestAb : Digest :=
  #v[0xec, 0x38, 0x8d, 0xd7, 0x89, 0x99, 0xdf, 0xc7, 0xcf, 0x46, 0x32, 0x46, 0x56, 0x93, 0xb6, 0xbf]

def digestC : Digest :=
  #v[0x9a, 0x8b, 0x79, 0x5a, 0xf5, 0x6c, 0x9a, 0x4e, 0x3d, 0x2f, 0xc2, 0x37, 0x94, 0xed, 0xc2, 0x09]

def rootAbc : Digest :=
  #v[0x3a, 0x67, 0x81, 0x5b, 0x2e, 0x2b, 0x40, 0x46, 0x67, 0x51, 0x92, 0xc7, 0x19, 0x8d, 0xf0, 0x81]

/-- MD4 on the inputs of the download: nothing, "ab", "c" and the two digests. -/
def sampleMd4 (bytes : Bytes) : Digest :=
  if bytes = [] then md4Empty
  else if bytes = [97, 98] then digestAb
  else if bytes = [99] then digestC
  else if bytes = digestAb.toList ++ digestC.toList then rootAbc
  else md4Empty

def newDownload : Download where
  job := ⟨rootAbc,3,2⟩
  segmentCount := 0
  shared := ⟨none,none⟩
  finalFile := none
  rows := []
  hashsetRow := none
  phase := .preparing
  pending := []
  concurrency := 0
  join := []
  sources := []
  backoff := []
  integrityBl := []
  roundRobin := 0
  sourceRetries := 0
  finalizeRetries := 0
  strikes := fun _ => 0
  cancelled := false
  lost := []

theorem newDownload_initial : Initial newDownload :=
  ⟨rfl,by decide,by decide,List.Pairwise.nil,rfl,rfl,rfl,rfl,rfl,rfl⟩

def peer : Source := .lowId 1

def untilWaiting : List Label :=
  [.prepare, .load, .enter, .fill, .refresh [peer], .enter, .fill, .fill, .fill]

def firstBlock : List Label :=
  [.task 0 .connected, .task 0 .slot, .task 0 (.hashSetAnswer [digestAb, digestC]), .task 0 .opened,
    .task 0 (.sendingPart 0 2 [97, 98] none), .task 0 .complete, .joinNext 0 true true]

def secondBlock : List Label :=
  [.enter, .fill, .task 0 .connected, .task 0 .slot, .task 0 .opened,
    .task 0 (.sendingPart 2 3 [99] none), .task 0 .complete, .joinNext 0 true true]

def downloading : List Label :=
  untilWaiting ++ firstBlock ++ secondBlock ++ [.enter, .fill, .load, .finalize, .rename]

def panicking : List Label := untilWaiting ++ [.task 0 .panics, .joinNext 0 true true]

theorem blocks_accounted_downloading :
    ∃ t, exec (step sampleMd4) newDownload downloading = some t ∧ Scheduled t := by
  have hm : Meets (step sampleMd4) Steady newDownload downloading := by decide +kernel
  have hrun : (exec (step sampleMd4) newDownload downloading).isSome := by decide +kernel
  obtain ⟨t,ht⟩ := Option.isSome_iff_exists.mp hrun
  exact ⟨t,ht,blocks_accounted newDownload_initial hm ht⟩

/-- A block of the file is neither stored as verified, nor pending, nor with a task. -/
def Forgotten (s : Download) (b : ℕ) : Prop :=
  s.phase.inBlockLoop = true ∧ b < s.blockCount ∧ ¬Verified s.rows b ∧ b ∉ s.pending ∧ b ∉ s.running

instance (s : Download) (b : ℕ) : Decidable (Forgotten s b) := by
  unfold Forgotten
  infer_instance

/-- After the panic of its task the first block is nowhere. -/
theorem panicked_block_forgotten :
    ∃ t, exec (step sampleMd4) newDownload panicking = some t ∧ Forgotten t 0 ∧ ¬Scheduled t := by
  have hrun : (exec (step sampleMd4) newDownload panicking).any (fun t => decide (Forgotten t 0)) =
      true := by decide +kernel
  obtain ⟨t,ht,hforgotten⟩ := (Option.any_eq_true _ _).mp hrun
  have hforgotten := of_decide_eq_true hforgotten
  refine ⟨t,ht,hforgotten,fun h => ?_⟩
  obtain ⟨hloop,hlt,hnot,hpending,hrunning⟩ := hforgotten
  rcases h.owned hloop 0 hlt hnot with ⟨hmem,-⟩ | ⟨-,hcount⟩
  · exact hpending hmem
  · rw [count_eq_zero_of_not_mem hrunning] at hcount
    cases hcount

/-- Also in a run with panics a block that is not verified is pending, with a task or dropped, and
success means that all blocks are verified. -/
theorem blocks_traced {s t : Download} {as : List Label} (hs : Initial s)
    (hrun : exec (step md4) s as = some t) : t.Inv :=
  exec_invariant (fun _ _ _ h hstep => h.step hstep) (Initial.inv hs) hrun

theorem blocks_traced_panicking :
    ∃ t, exec (step sampleMd4) newDownload panicking = some t ∧ t.Inv := by
  have hrun : (exec (step sampleMd4) newDownload panicking).isSome := by decide +kernel
  exact (Option.isSome_iff_exists.mp hrun).imp
    fun _ ht => ⟨ht,blocks_traced newDownload_initial ht⟩

/-- At the end of its type the counter passes over the only free source. -/
example : pickSource [.lowId 1, .lowId 2, .lowId 3] [.lowId 1, .lowId 2] [] (2 ^ 64 - 1) = (none, 2) := by
  decide

end RinaDown.Ed2kDownload
