import RinaDown.TaskScheduling

/-!
# Commands keep the scheduling invariant

Resumes, pauses and the batch commands are built from the primitive changes of
an entry, from starts and from `drain_queue`. A command that frees room ends
with a drain, or has been recorded as one that does not.
-/

namespace RinaDown.TaskScheduling
open DownloadManager List Bool
open TaskManager (TaskStatus PendingPause)

universe u v

variable {T : Type u} {Q : Type v} [DecidableEq T] [DecidableEq Q]
variable {m m' : Manager T Q} {env : Choices T} {t : T}

omit [DecidableEq T] in
theorem hasRoom_congr (hactive : m'.activeTasks = m.activeTasks)
    (hmax : m'.maxConcurrent = m.maxConcurrent) (hqueues : m'.queues = m.queues) (q : Q) :
    m'.hasRoom q = m.hasRoom q := by
  simp only [Manager.hasRoom, Manager.hasCapacity, Manager.hasQueueCapacity, Manager.httpActive,
    Manager.activeInQueue, hactive, hmax, hqueues]
  rfl

omit [DecidableEq T] in
theorem idle_congr (hactive : m'.activeTasks = m.activeTasks)
    (hqueued : m'.pendingQueue = m.pendingQueue) (hmax : m'.maxConcurrent = m.maxConcurrent)
    (hqueues : m'.queues = m.queues) : m'.idle = m.idle := by
  have hroom : m'.hasRoom = m.hasRoom := funext (hasRoom_congr hactive hmax hqueues)
  rw [Manager.idle, Manager.idle, hqueued, hroom]

omit [DecidableEq T] in
theorem Conserving.mono (h : Conserving m) (hactive : m'.activeTasks = m.activeTasks)
    (hqueued : m'.pendingQueue.Sublist m.pendingQueue)
    (hmax : m'.maxConcurrent = m.maxConcurrent) (hqueues : m'.queues = m.queues)
    (hundrained : m'.history.undrained = m.history.undrained) : Conserving m' := by
  refine h.imp (fun h => hundrained.trans h) ?_
  intro hidle
  rw [Manager.idle, any_eq_false] at hidle ⊢
  intro q hq hroom
  rw [hasRoom_congr hactive hmax hqueues] at hroom
  exact hidle q (hqueued.subset hq) hroom

theorem Conserving.updateRow (h : Conserving m) (t : T) (f : TaskInfo Q → TaskInfo Q) :
    Conserving (m.updateRow t f) :=
  Conserving.mono h rfl (.refl _) rfl rfl rfl

omit [DecidableEq T] in
theorem Conserving.pushQueued (h : Conserving m) {q : QueuedTask T Q}
    (hroom : m.hasRoom q.queueId = false) : Conserving (m.pushQueued q) := by
  refine h.imp id ?_
  intro hidle
  rw [Manager.idle, any_eq_false] at hidle ⊢
  intro p hp
  rcases mem_append.mp hp with hp | hp
  · exact hidle p hp
  · rw [mem_singleton.mp hp]
    exact eq_false_iff.mp hroom

section Resume

variable {row : Option (TaskInfo Q)}

/-- The row that a resume has read still names the queue and the URL of the task. -/
def RowRead (m : Manager T Q) (t : T) (row : Option (TaskInfo Q)) : Prop :=
  row.map origin = (m.rows t).map origin

theorem resumeInactive_cases (m : Manager T Q) (env : Choices T) (t : T)
    (row : Option (TaskInfo Q)) : (m.resumeInactive env t row).1 = m ∨
    (m.resumeInactive env t row).1 = m.updateSeedingStatus t (env.reseeded t) ∨
    t ∉ m.queuedIds ∧ (m.resumeInactive env t row).1 = (m.admitResume env t row).1 := by
  unfold Manager.resumeInactive
  split_ifs with hq
  · exact .inl rfl
  · cases hseed : row.bind (m.tryResumeSeeding env t) with
    | none => exact .inr (.inr ⟨hq,rfl⟩)
    | some reseeded =>
      obtain ⟨r,rfl,hr⟩ := Option.bind_eq_some_iff.mp hseed
      unfold Manager.tryResumeSeeding at hr
      split_ifs at hr
      cases hr
      exact .inr (.inl rfl)

theorem admitResume_cases (m : Manager T Q) (env : Choices T) (t : T)
    (row : Option (TaskInfo Q)) : (m.admitResume env t row).1 = m ∨
    (m.admitResume env t row).1 = (m.doResumeTask env t none).drainQueue env ∨
    ∃ r, m.hasRoom r.queueId = false ∧
      (m.admitResume env t row).1 = m.pushQueued (Manager.resumeEntry t r) := by
  unfold Manager.admitResume
  cases row with
  | none =>
    simp only
    split_ifs with hcap
    · exact .inr (.inl rfl)
    · exact .inl rfl
  | some r =>
    simp only
    split_ifs with hstart
    · exact .inr (.inl rfl)
    · refine .inr (.inr ⟨r,?_,rfl⟩)
      simpa using (not_or.mp (fun h => hstart (or_eq_true_iff.mpr h))).2

theorem Placed.admitResume (h : Placed m) (ha : t ∉ m.activeIds) (hq : t ∉ m.queuedIds)
    (hp : m.pendingPauses t = none) (hread : RowRead m t row) :
    Placed (m.admitResume env t row).1 := by
  have hqueue : ∀ r r', row = some r → m.rows t = some r' → origin r = origin r' := by
    rintro r r' rfl hr'
    simpa [RowRead, hr'] using hread
  unfold Manager.admitResume
  cases row with
  | none =>
    have hnone : m.rows t = none := by simpa [RowRead] using hread.symm
    simp only [Manager.doResumeTask_of_none m env t hnone]
    split_ifs with hcap
    · exact h.drainQueue env
    · exact h
  | some r =>
    simp only
    split_ifs with hstart
    · refine Placed.drainQueue (h.doResumeTask ?_) env
      intro r' hr'
      have hsame := hqueue r r' rfl hr'
      simp only [origin, Prod.mk.injEq] at hsame
      have hqueueOf : m.queueOf t = some r'.queueId := by simp [Manager.queueOf, hr']
      rcases or_eq_true_iff.mp hstart with hbt | hroom
      · exact ⟨hq,hp,hqueueOf,.inl (by simpa [hsame.2.1] using hbt)⟩
      · exact startable_of_hasCapacity ha hq hp hqueueOf (and_eq_true_iff.mp hroom).1
    · refine h.pushQueued ha hq hp ?_
      change m.queueOf t = some r.queueId
      rw [queueOf_eq_origin, ← show (some r).map origin = _ from hread]
      rfl

theorem Conserving.admitResume (h : Conserving m) : Conserving (m.admitResume env t row).1 := by
  rcases admitResume_cases m env t row with hm | hm | ⟨r,hroom,hm⟩ <;> rw [hm]
  · exact h
  · exact Conserving.drainQueue _ env
  · exact Conserving.pushQueued (q := Manager.resumeEntry t r) h hroom

theorem steady_admitResume : Steady m (m.admitResume env t row).1 := by
  rcases admitResume_cases m env t row with hm | hm | ⟨r,-,hm⟩ <;> rw [hm]
  · exact .refl m
  · exact steady_doResumeTask.trans steady_drainQueue
  · exact ⟨rfl,rfl,rfl,rfl,rfl,rfl,fun _ => rfl,fun _ => .rfl⟩

theorem Placed.resumeInactive (h : Placed m) (ha : t ∉ m.activeIds)
    (hp : m.pendingPauses t = none) (hread : RowRead m t row) :
    Placed (m.resumeInactive env t row).1 := by
  rcases resumeInactive_cases m env t row with hm | hm | ⟨hq,hm⟩ <;> rw [hm]
  · exact h
  · exact h.updateRow t _ (fun _ => rfl)
  · exact h.admitResume ha hq hp hread

theorem Conserving.resumeInactive (h : Conserving m) :
    Conserving (m.resumeInactive env t row).1 := by
  rcases resumeInactive_cases m env t row with hm | hm | ⟨-,hm⟩ <;> rw [hm]
  · exact h
  · exact h.updateRow t _
  · exact h.admitResume

theorem steady_resumeInactive : Steady m (m.resumeInactive env t row).1 := by
  rcases resumeInactive_cases m env t row with hm | hm | ⟨-,hm⟩ <;> rw [hm]
  · exact .refl m
  · exact steady_updateRow _ (fun _ => rfl)
  · exact steady_admitResume

omit [DecidableEq T] [DecidableEq Q] in
theorem confined_pushQueued (q : QueuedTask T Q) :
    Confined (fun i => i = q.taskId) m (m.pushQueued q) := by
  intro i hi
  rcases hi with hi | hi
  · exact .inl (.inl hi)
  · rw [Manager.queuedIds, Manager.pushQueued, map_append, mem_append] at hi
    exact hi.imp .inr (fun hi => mem_singleton.mp hi)

theorem confined_admitResume : Confined (fun i => i = t) m (m.admitResume env t row).1 := by
  rcases admitResume_cases m env t row with hm | hm | ⟨r,-,hm⟩ <;> rw [hm]
  · exact .refl _ m
  · exact confined_doResumeTask.trans ((confined_drainQueue _ env).weaken (fun _ h => h.elim))
  · exact confined_pushQueued (Manager.resumeEntry t r)

theorem confined_resumeInactive : Confined (fun i => i = t) m (m.resumeInactive env t row).1 := by
  rcases resumeInactive_cases m env t row with hm | hm | ⟨-,hm⟩ <;> rw [hm]
  · exact .refl _ m
  · exact .refl _ m
  · exact confined_admitResume

theorem resumeWith_cases (m : Manager T Q) (env : Choices T) (t : T) (row : Option (TaskInfo Q)) :
    (∃ p, m.pendingPauses t = some p ∧ m.resumeWith env t row =
      (m.setPendingPause t (some { p with resumeRequested := true }), none)) ∨
    (m.pendingPauses t = none ∧ t ∈ m.activeIds ∧ m.resumeWith env t row = (m, none)) ∨
    (m.pendingPauses t = none ∧ t ∈ m.activeIds ∧
      (row.map (fun r => r.status.terminal)).getD false = true ∧
      m.resumeWith env t row = (m.forceRemove t).resumeInactive env t row) ∨
    (m.pendingPauses t = none ∧ t ∉ m.activeIds ∧
      m.resumeWith env t row = m.resumeInactive env t row) := by
  cases hp : m.pendingPauses t with
  | some p => exact .inl ⟨p,rfl,by simp [Manager.resumeWith, hp]⟩
  | none =>
    by_cases ha : t ∈ m.activeIds
    · by_cases hterminal : (row.map (fun r => r.status.terminal)).getD false = true
      · exact .inr (.inr (.inl ⟨rfl,ha,hterminal,by
          simp only [Manager.resumeWith, hp, if_pos ha, if_pos hterminal]⟩))
      · exact .inr (.inl ⟨rfl,ha,by
          simp only [Manager.resumeWith, hp, if_pos ha, if_neg hterminal]⟩)
    · exact .inr (.inr (.inr ⟨rfl,ha,by simp only [Manager.resumeWith, hp, if_neg ha]⟩))

theorem Placed.forceRemove (h : Placed m) (t : T) : Placed (m.forceRemove t) :=
  (h.removeActive t).congr rfl rfl rfl rfl rfl rfl rfl

omit [DecidableEq Q] in
theorem steady_latch {p : PendingPause} (hp : m.pendingPauses t = some p) (p' : PendingPause) :
    Steady m (m.setPendingPause t (some p')) := by
  refine ⟨rfl,rfl,rfl,rfl,rfl,rfl,fun _ => rfl,?_⟩
  intro i
  by_cases hi : i = t
  · subst hi
    simp [Manager.setPendingPause, hp]
  · simp [Manager.setPendingPause, Function.update_of_ne hi]

theorem Placed.resumeWith (h : Placed m) (hread : RowRead m t row) :
    Placed (m.resumeWith env t row).1 := by
  obtain ⟨p,hp,hm⟩ | ⟨-,-,hm⟩ | ⟨hp,ha,-,hm⟩ | ⟨hp,ha,hm⟩ := resumeWith_cases m env t row
  · rw [hm]
    exact h.changePendingPause hp _
  · rw [hm]
    exact h
  · rw [hm]
    exact (h.forceRemove t).resumeInactive (not_mem_activeIds_removeActive m t) hp hread
  · rw [hm]
    exact h.resumeInactive ha hp hread

theorem Conserving.resumeWith (h : Conserving m) : Conserving (m.resumeWith env t row).1 := by
  obtain ⟨p,-,hm⟩ | ⟨-,-,hm⟩ | ⟨-,-,-,hm⟩ | ⟨-,-,hm⟩ := resumeWith_cases m env t row
  · rw [hm]
    exact h.mono rfl (.refl _) rfl rfl rfl
  · rw [hm]
    exact h
  · rw [hm]
    exact Conserving.resumeInactive (Conserving.removeSlot m t)
  · rw [hm]
    exact Conserving.resumeInactive h

theorem steady_resumeWith : Steady m (m.resumeWith env t row).1 := by
  obtain ⟨p,hp,hm⟩ | ⟨-,-,hm⟩ | ⟨-,-,-,hm⟩ | ⟨-,-,hm⟩ := resumeWith_cases m env t row
  · rw [hm]
    exact steady_latch hp _
  · rw [hm]
    exact .refl m
  · rw [hm]
    have hforced : Steady m (m.forceRemove t) :=
      ⟨rfl,rfl,rfl,rfl,rfl,rfl,fun _ => rfl,fun _ => .rfl⟩
    exact hforced.trans steady_resumeInactive
  · rw [hm]
    exact steady_resumeInactive

theorem confined_resumeWith : Confined (fun i => i = t) m (m.resumeWith env t row).1 := by
  obtain ⟨p,-,hm⟩ | ⟨-,-,hm⟩ | ⟨-,-,-,hm⟩ | ⟨-,-,hm⟩ := resumeWith_cases m env t row
  · rw [hm]
    exact .refl _ m
  · rw [hm]
    exact .refl _ m
  · rw [hm]
    have hforced : Confined (fun i => i = t) m (m.forceRemove t) :=
      confined_of_sublist filter_sublist (.refl _)
    exact hforced.trans confined_resumeInactive
  · rw [hm]
    exact confined_resumeInactive

end Resume

omit [DecidableEq Q] in
theorem Placed.removeRetry (h : Placed m) (t : T) : Placed (m.removeRetry t) :=
  h.congr rfl rfl rfl rfl rfl rfl rfl

omit [DecidableEq T] in
theorem Placed.syncQueueOccupancy (h : Placed m) : Placed m.syncQueueOccupancy :=
  h.congr rfl rfl rfl rfl rfl rfl rfl

omit [DecidableEq T] in
theorem steady_syncQueueOccupancy : Steady m m.syncQueueOccupancy :=
  ⟨rfl,rfl,rfl,rfl,rfl,rfl,fun _ => rfl,fun _ => .rfl⟩

/-- A resume may end with the refresh of the occupancy, and with the pending status. -/
theorem resumeTaskInner_cases (m : Manager T Q) (env : Choices T) (t : T) :
    m.resumeTaskInner env t = ((m.removeRetry t).resumeWith env t (m.rows t)).1 ∨
    m.resumeTaskInner env t =
      ((m.removeRetry t).resumeWith env t (m.rows t)).1.syncQueueOccupancy ∨
    m.resumeTaskInner env t =
      (((m.removeRetry t).resumeWith env t (m.rows t)).1.updateTaskStatus t .pending
        .empty).syncQueueOccupancy := by
  simp only [Manager.resumeTaskInner]
  cases ((m.removeRetry t).resumeWith env t (m.rows t)).2 with
  | none => exact .inl rfl
  | some queued =>
    cases queued with
    | false => exact .inr (.inl rfl)
    | true =>
      simp only
      split_ifs with hcompleted
      · exact .inr (.inl rfl)
      · exact .inr (.inr rfl)

theorem Placed.resumeTaskInner (h : Placed m) (env : Choices T) (t : T) :
    Placed (m.resumeTaskInner env t) := by
  have hr : Placed ((m.removeRetry t).resumeWith env t (m.rows t)).1 :=
    (h.removeRetry t).resumeWith rfl
  rcases resumeTaskInner_cases m env t with hm | hm | hm
  · rw [hm]
    exact hr
  · rw [hm]
    exact hr.syncQueueOccupancy
  · rw [hm]
    exact (hr.updateTaskStatus t _ _).syncQueueOccupancy

theorem Conserving.resumeTaskInner (h : Conserving m) (env : Choices T) (t : T) :
    Conserving (m.resumeTaskInner env t) := by
  have hr : Conserving ((m.removeRetry t).resumeWith env t (m.rows t)).1 :=
    Conserving.resumeWith (h.mono rfl (.refl _) rfl rfl rfl)
  rcases resumeTaskInner_cases m env t with hm | hm | hm
  · rw [hm]
    exact hr
  · rw [hm]
    exact hr.mono rfl (.refl _) rfl rfl rfl
  · rw [hm]
    exact hr.mono rfl (.refl _) rfl rfl rfl

theorem steady_resumeTaskInner : Steady m (m.resumeTaskInner env t) := by
  have hremoved : Steady m (m.removeRetry t) :=
    ⟨rfl,rfl,rfl,rfl,rfl,rfl,fun _ => rfl,fun _ => .rfl⟩
  have hr : Steady m ((m.removeRetry t).resumeWith env t (m.rows t)).1 :=
    hremoved.trans steady_resumeWith
  rcases resumeTaskInner_cases m env t with hm | hm | hm
  · rw [hm]
    exact hr
  · rw [hm]
    exact hr.trans steady_syncQueueOccupancy
  · rw [hm]
    exact (hr.trans (steady_updateTaskStatus _ _)).trans steady_syncQueueOccupancy

theorem confined_resumeTaskInner : Confined (fun i => i = t) m (m.resumeTaskInner env t) := by
  have hr : Confined (fun i => i = t) m ((m.removeRetry t).resumeWith env t (m.rows t)).1 :=
    confined_resumeWith
  rcases resumeTaskInner_cases m env t with hm | hm | hm
  · rw [hm]
    exact hr
  · rw [hm]
    exact hr
  · rw [hm]
    exact hr

section Boost

/-- The resumes at the end of Boost. -/
theorem restoring_induction {P : Manager T Q → Prop} (hend : P m.endBoost)
    (hresume : ∀ s, ∀ id ∈ m.autoPausedIds, P s → P (s.resumeUnlessCompleted env id)) :
    P ((env.order .boostRestore m.autoPausedIds).foldl
      (fun s id => s.resumeUnlessCompleted env id) m.endBoost) := by
  refine foldlRecOn _ _ hend ?_
  intro s hs id hid
  exact hresume s id ((env.order_perm _ _).mem_iff.mp hid) hs

/-- What a resume keeps and a record does not touch, the end of Boost keeps. -/
theorem clearPriority_induction {P : Manager T Q → Prop} (hend : P m.endBoost)
    (hresume : ∀ s, ∀ id ∈ m.autoPausedIds, P s → P (s.resumeTaskInner env id))
    (hnote : ∀ s, P s → P (m.noteRestore s)) : P (m.clearPriority env) := by
  refine hnote _ (restoring_induction hend ?_)
  intro s id hid hs
  unfold Manager.resumeUnlessCompleted
  split_ifs with hcompleted
  · exact hs
  · exact hresume s id hid hs

theorem Placed.clearPriority (h : Placed m) (env : Choices T) : Placed (m.clearPriority env) :=
  clearPriority_induction (h.congr rfl rfl rfl rfl rfl rfl rfl)
    (fun _ id _ hs => hs.resumeTaskInner env id)
    (fun _ hs => hs.congr rfl rfl rfl rfl rfl rfl rfl)

theorem Conserving.clearPriority (h : Conserving m) (env : Choices T) :
    Conserving (m.clearPriority env) :=
  clearPriority_induction (h.mono rfl (.refl _) rfl rfl rfl)
    (fun _ id _ hs => hs.resumeTaskInner env id)
    (fun _ hs => hs.mono rfl (.refl _) rfl rfl rfl)

theorem steady_clearPriority : Steady m.endBoost (m.clearPriority env) :=
  clearPriority_induction (.refl _) (fun _ _ _ hs => hs.trans steady_resumeTaskInner)
    (fun _ hs => hs.trans ⟨rfl,rfl,rfl,rfl,rfl,rfl,fun _ => rfl,fun _ => .rfl⟩)

theorem confined_clearPriority :
    Confined (fun i => i ∈ m.autoPausedIds) m (m.clearPriority env) := by
  refine clearPriority_induction (.refl _ m) ?_ (fun _ hs => hs)
  intro s id hid hs
  exact hs.trans (confined_resumeTaskInner.weaken (by rintro i rfl; exact hid))

theorem Placed.boostGuard (h : Placed m) (env : Choices T) (t : T) :
    Placed (m.boostGuard env t) := by
  unfold Manager.boostGuard
  split_ifs with htarget
  · exact h.clearPriority env
  · exact h

theorem Conserving.boostGuard (h : Conserving m) (env : Choices T) (t : T) :
    Conserving (m.boostGuard env t) := by
  unfold Manager.boostGuard
  split_ifs with htarget
  · exact h.clearPriority env
  · exact h

end Boost

section Pause

theorem Placed.stopActive (h : Placed m) {e : ActiveTaskEntry T Q} {notify : Bool}
    (hq : t ∉ m.queuedIds) (hr : m.pendingResolve t = none) :
    Placed (m.stopActive env t e notify) := by
  simp only [Manager.stopActive]
  refine Placed.drainQueue (Placed.updateTaskStatus ?_ t _ _) env
  split_ifs with hhandle
  · exact (h.removeActive t).setPendingPause (not_mem_activeIds_removeActive m t) hq hr
  · exact h.removeActive t

omit [DecidableEq Q] in
theorem Placed.pauseSeeding (h : Placed m) (t : T) : Placed (m.pauseSeeding t) := by
  unfold Manager.pauseSeeding
  cases hrow : m.rows t with
  | none => exact h
  | some row =>
    simp only
    split_ifs with hseeding
    · exact h.updateRow t _ (fun _ => rfl)
    · exact h

theorem Conserving.pauseSeeding (h : Conserving m) (t : T) : Conserving (m.pauseSeeding t) := by
  unfold Manager.pauseSeeding
  cases hrow : m.rows t with
  | none => exact h
  | some row =>
    simp only
    split_ifs with hseeding
    · exact h.updateRow t _
    · exact h

def pausing (m : Manager T Q) (t : T) : Manager T Q := (m.clearPendingResolve t).removeRetry t

theorem pauseTaskInner_cases (m : Manager T Q) (env : Choices T) (t : T) (notify : Bool) :
    (∃ p, m.pendingPauses t = some p ∧ m.pauseTaskInner env t notify =
      ((pausing m t).setPendingPause t
        (some { p with notify := p.notify || notify })).syncQueueOccupancy) ∨
    (m.pendingPauses t = none ∧ t ∈ m.queuedIds ∧ m.pauseTaskInner env t notify =
      (((pausing m t).removeQueued t).updateTaskStatus t .paused .empty).syncQueueOccupancy) ∨
    (∃ e, m.pendingPauses t = none ∧ t ∉ m.queuedIds ∧ m.findActive t = some e ∧
      m.pauseTaskInner env t notify =
        (((pausing m t).stopActive env t e notify).boostGuard env t).syncQueueOccupancy) ∨
    (m.pendingPauses t = none ∧ t ∉ m.queuedIds ∧ m.findActive t = none ∧
      m.pauseTaskInner env t notify = ((pausing m t).pauseSeeding t).syncQueueOccupancy) := by
  have hpauses : (pausing m t).pendingPauses = m.pendingPauses := rfl
  have hqueued : (pausing m t).queuedIds = m.queuedIds := rfl
  have hactive : (pausing m t).findActive t = m.findActive t := rfl
  change _ ∨ _ ∨ _ ∨ _
  cases hp : m.pendingPauses t with
  | some p =>
    refine .inl ⟨p,rfl,?_⟩
    simp only [Manager.pauseTaskInner, ← pausing.eq_1, hpauses, hp]
  | none =>
    by_cases hq : t ∈ m.queuedIds
    · refine .inr (.inl ⟨rfl,hq,?_⟩)
      simp only [Manager.pauseTaskInner, ← pausing.eq_1, hpauses, hp, hqueued, if_pos hq]
    · cases he : m.findActive t with
      | some e =>
        refine .inr (.inr (.inl ⟨e,rfl,hq,rfl,?_⟩))
        simp only [Manager.pauseTaskInner, ← pausing.eq_1, hpauses, hp, hqueued, if_neg hq, hactive,
          he]
      | none =>
        refine .inr (.inr (.inr ⟨rfl,hq,rfl,?_⟩))
        simp only [Manager.pauseTaskInner, ← pausing.eq_1, hpauses, hp, hqueued, if_neg hq, hactive,
          he]

omit [DecidableEq Q] in
theorem Placed.pausing (h : Placed m) (t : T) : Placed (pausing m t) :=
  (h.clearPendingResolve t).removeRetry t

theorem Placed.pauseTaskInner (h : Placed m) (env : Choices T) (t : T) (notify : Bool) :
    Placed (m.pauseTaskInner env t notify) := by
  have hpausing := h.pausing t
  obtain ⟨p,hp,hm⟩ | ⟨-,-,hm⟩ | ⟨e,-,hq,-,hm⟩ | ⟨-,-,-,hm⟩ :=
    pauseTaskInner_cases m env t notify
  · rw [hm]
    exact (hpausing.changePendingPause hp _).syncQueueOccupancy
  · rw [hm]
    exact ((hpausing.removeQueued t).updateTaskStatus t _ _).syncQueueOccupancy
  · rw [hm]
    have hresolve : (TaskScheduling.pausing m t).pendingResolve t = none := by
      simp [TaskScheduling.pausing, Manager.clearPendingResolve, Manager.removeRetry]
    exact ((hpausing.stopActive hq hresolve).boostGuard env t).syncQueueOccupancy
  · rw [hm]
    exact (hpausing.pauseSeeding t).syncQueueOccupancy

theorem Conserving.pauseTaskInner (h : Conserving m) (env : Choices T) (t : T) (notify : Bool) :
    Conserving (m.pauseTaskInner env t notify) := by
  obtain ⟨p,-,hm⟩ | ⟨-,-,hm⟩ | ⟨e,-,-,-,hm⟩ | ⟨-,-,-,hm⟩ :=
    pauseTaskInner_cases m env t notify
  · rw [hm]
    exact h.mono rfl (.refl _) rfl rfl rfl
  · rw [hm]
    exact h.mono rfl eraseP_sublist rfl rfl rfl
  · rw [hm]
    have hstop : Conserving ((pausing m t).stopActive env t e notify) :=
      Conserving.drainQueue _ env
    exact (hstop.boostGuard env t).mono rfl (.refl _) rfl rfl rfl
  · rw [hm]
    have hpausing : Conserving (pausing m t) := h.mono rfl (.refl _) rfl rfl rfl
    exact (hpausing.pauseSeeding t).mono rfl (.refl _) rfl rfl rfl

end Pause

end RinaDown.TaskScheduling
