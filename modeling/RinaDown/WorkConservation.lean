import RinaDown.SchedulerInvariant

/-!
# Every command leaves a scheduled manager

The remaining commands, and the invariant of a run. A run goes wrong only at
the recorded steps: a change of limits, queues or entries that is not drained, a
start that checks nothing, and the deletion of a queue in use.
-/

namespace RinaDown.TaskScheduling
open LabelledExecutions DownloadManager List Function
open Option hiding any any_eq_false map map_map
open TaskManager (TaskStatus PendingPause)

universe u v

variable {T : Type u} {Q : Type v} [DecidableEq T] [DecidableEq Q]
variable {m m' : Manager T Q} {env : Choices T} {t : T}

/-- The target of Boost is not among the tasks that Boost will resume. -/
def Aimed (m : Manager T Q) : Prop := ∀ t, m.priorityTaskId = some t → t ∉ m.autoPausedIds

omit [DecidableEq T] [DecidableEq Q] in
theorem Aimed.congr (h : Aimed m) (htarget : m'.priorityTaskId = m.priorityTaskId)
    (hauto : m'.autoPausedIds = m.autoPausedIds) : Aimed m' := by
  intro t ht
  rw [hauto]
  exact h t (htarget ▸ ht)

omit [DecidableEq T] [DecidableEq Q] in
theorem Aimed.of_steady (h : Aimed m) (hs : Steady m m') : Aimed m' :=
  h.congr hs.priorityTaskId hs.autoPausedIds

theorem aimed_clearPriority (m : Manager T Q) (env : Choices T) : Aimed (m.clearPriority env) := by
  intro t ht
  rw [steady_clearPriority.priorityTaskId] at ht
  cases ht

theorem Aimed.boostGuard (h : Aimed m) (env : Choices T) (t : T) : Aimed (m.boostGuard env t) := by
  unfold Manager.boostGuard
  split_ifs with htarget
  · exact aimed_clearPriority m env
  · exact h

theorem Aimed.stopActive (h : Aimed m) {e : ActiveTaskEntry T Q} {notify : Bool} :
    Aimed (m.stopActive env t e notify) := by
  simp only [Manager.stopActive]
  refine Aimed.of_steady (Aimed.of_steady ?_ (steady_updateTaskStatus _ _)) steady_drainQueue
  split_ifs with hhandle
  · exact h
  · exact h

omit [DecidableEq Q] in
theorem Aimed.pauseSeeding (h : Aimed m) : Aimed (m.pauseSeeding t) := by
  unfold Manager.pauseSeeding
  cases hrow : m.rows t with
  | none => exact h
  | some row =>
    simp only
    split_ifs with hseeding
    · exact h
    · exact h

theorem Aimed.pauseTaskInner (h : Aimed m) (env : Choices T) (t : T) (notify : Bool) :
    Aimed (m.pauseTaskInner env t notify) := by
  have hpausing : Aimed (pausing m t) := h
  obtain ⟨p,-,hm⟩ | ⟨-,-,hm⟩ | ⟨e,-,-,-,hm⟩ | ⟨-,-,-,hm⟩ :=
    pauseTaskInner_cases m env t notify
  · rw [hm]
    exact h
  · rw [hm]
    exact h
  · rw [hm]
    exact hpausing.stopActive.boostGuard env t
  · rw [hm]
    exact hpausing.pauseSeeding

/-- What a command preserves. -/
structure Sound (m : Manager T Q) : Prop where
  placed : Placed m
  conserving : Conserving m
  aimed : Aimed m

section Commands

theorem Sound.updateRow (h : Sound m) (t : T) (f : TaskInfo Q → TaskInfo Q)
    (hf : ∀ row, origin (f row) = origin row) : Sound (m.updateRow t f) :=
  ⟨h.placed.updateRow t f hf,h.conserving.updateRow t f,h.aimed⟩

theorem Sound.updateTaskStatus (h : Sound m) (t : T) (status : TaskStatus)
    (message : ErrorMessage) : Sound (m.updateTaskStatus t status message) :=
  h.updateRow t _ (fun _ => rfl)

theorem Sound.resetRow (h : Sound m) (t : T) : Sound (m.resetRow t) :=
  h.updateRow t _ (fun _ => rfl)

theorem Sound.removeRetry (h : Sound m) (t : T) : Sound (m.removeRetry t) :=
  ⟨h.placed.removeRetry t,h.conserving.mono rfl (.refl _) rfl rfl rfl,h.aimed⟩

omit [DecidableEq T] in
theorem Sound.syncQueueOccupancy (h : Sound m) : Sound m.syncQueueOccupancy :=
  ⟨h.placed.syncQueueOccupancy,h.conserving.mono rfl (.refl _) rfl rfl rfl,h.aimed⟩

theorem Sound.of_drain (h : Placed m) (ha : Aimed m) : Sound (m.drainQueue env) :=
  ⟨h.drainQueue env,Conserving.drainQueue m env,ha.of_steady steady_drainQueue⟩

theorem Sound.resumeTaskInner (h : Sound m) (env : Choices T) (t : T) :
    Sound (m.resumeTaskInner env t) :=
  ⟨h.placed.resumeTaskInner env t,h.conserving.resumeTaskInner env t,
    h.aimed.of_steady steady_resumeTaskInner⟩

theorem Sound.clearPriority (h : Sound m) (env : Choices T) : Sound (m.clearPriority env) :=
  ⟨h.placed.clearPriority env,h.conserving.clearPriority env,aimed_clearPriority m env⟩

theorem Sound.boostGuard (h : Sound m) (env : Choices T) (t : T) : Sound (m.boostGuard env t) :=
  ⟨h.placed.boostGuard env t,h.conserving.boostGuard env t,h.aimed.boostGuard env t⟩

theorem Sound.pauseTaskInner (h : Sound m) (env : Choices T) (t : T) (notify : Bool) :
    Sound (m.pauseTaskInner env t notify) :=
  ⟨h.placed.pauseTaskInner env t notify,h.conserving.pauseTaskInner env t notify,
    h.aimed.pauseTaskInner env t notify⟩

theorem Sound.restartTask (h : Sound m) (env : Choices T) (t : T) :
    Sound (m.restartTask env t) := by
  unfold Manager.restartTask
  cases hrow : m.rows t with
  | none => exact h
  | some row =>
    simp only
    split_ifs with hbt hactive
    · exact h
    · exact (((h.pauseTaskInner env t false).resetRow t).removeRetry t).resumeTaskInner env t
    · exact ((h.resetRow t).removeRetry t).resumeTaskInner env t

theorem Sound.setTaskSegments (h : Sound m) (env : Choices T) (t : T) :
    Sound (m.setTaskSegments env t) := by
  unfold Manager.setTaskSegments
  cases hrow : m.rows t with
  | none => exact h
  | some row =>
    simp only
    split_ifs with hcompleted hactive
    · exact h
    · exact (h.pauseTaskInner env t false).resumeTaskInner env t
    · exact h

theorem Sound.cancelTask (h : Placed m) (ha : Aimed m) (env : Choices T) (t : T) :
    Sound (m.cancelTask env t) :=
  Sound.of_drain ((((h.clearPendingResolve t).removeQueued t).removeActive t).updateTaskStatus t
    .error .cancelled) ha

omit [DecidableEq Q] in
theorem Placed.deleteRow (h : Placed m) (ht : ¬Present m t) : Placed (m.deleteRow t) := by
  refine h.mono (.refl _) (.refl _) ?_ (fun _ h => h) (fun _ => .inr rfl) rfl rfl
  intro i hi
  have hne : i ≠ t := fun hit => ht (hit ▸ hi)
  simp [Manager.queueOf, Manager.deleteRow, update_of_ne hne]

omit [DecidableEq Q] in
theorem Aimed.unpauseAuto (h : Aimed m) (t : T) : Aimed (m.unpauseAuto t) := by
  intro i hi hmem
  exact h i hi (mem_of_mem_filter hmem)

omit [DecidableEq Q] in
theorem Placed.unpauseAuto (h : Placed m) (t : T) : Placed (m.unpauseAuto t) :=
  h.congr rfl rfl rfl rfl rfl rfl rfl

theorem Sound.deleteTask (h : Placed m) (ha : Aimed m) (env : Choices T) (t : T) :
    Sound (m.deleteTask env t) := by
  have hremoved := (((h.removeRetry t).clearPendingResolve t).removeQueued t).removeActive t
  have hgone : ¬Present ((((m.removeRetry t).clearPendingResolve t).removeQueued t).removeActive t)
      t := by
    rintro (hactive | hqueued)
    · exact not_mem_activeIds_removeActive _ t hactive
    · exact h.not_mem_removeQueued t hqueued
  have herased := ((hremoved.deleteRow hgone).unpauseAuto t).boostGuard env t
  have haimed := (Aimed.unpauseAuto (m := ((((m.removeRetry t).clearPendingResolve t).removeQueued
    t).removeActive t).deleteRow t) ha t).boostGuard env t
  exact (Sound.of_drain herased haimed).syncQueueOccupancy

theorem Sound.deleteTasksBatch (h : Sound m) (env : Choices T) (ids : List T) :
    Sound (m.deleteTasksBatch env ids) := by
  unfold Manager.deleteTasksBatch
  split_ifs with hnil
  · exact h
  · have hremoved : Placed { m with
        pendingQueue := m.pendingQueue.filter (fun q => q.taskId ∉ ids)
        activeTasks := m.activeTasks.filter (fun e => e.taskId ∉ ids)
        rows := fun i => if i ∈ ids then none else m.rows i } := by
      refine h.placed.mono filter_sublist filter_sublist ?_ (fun _ h => h)
        (fun _ => .inr rfl) rfl rfl
      intro i hi
      have hout : i ∉ ids := by
        rcases hi with hi | hi
        · obtain ⟨e,he,rfl⟩ := mem_map.mp hi
          simpa using (mem_filter.mp he).2
        · obtain ⟨q,hq,rfl⟩ := mem_map.mp hi
          simpa using (mem_filter.mp hq).2
      simp [Manager.queueOf, hout]
    refine Sound.syncQueueOccupancy (Sound.of_drain ?_ ?_)
    · refine foldlRecOn _ _ hremoved ?_
      intro s hs id _
      exact ((hs.unpauseAuto id).removeRetry id).boostGuard env id
    · refine foldlRecOn _ _ h.aimed ?_
      intro s hs id _
      exact Aimed.boostGuard (m := (s.unpauseAuto id).removeRetry id) (hs.unpauseAuto id) env id

theorem Sound.batchResume (h : Sound m) (env : Choices T) (ids : List T) :
    Sound (m.batchResume env ids) := by
  have hloop : Sound (ids.foldl (Manager.batchResumeOne env m.rows) (m, [])).1 ∧
      Steady m (ids.foldl (Manager.batchResumeOne env m.rows) (m, [])).1 := by
    refine foldlRecOn (motive := fun s : Manager T Q × List T => Sound s.1 ∧ Steady m s.1)
      _ _ ⟨h,.refl m⟩ ?_
    rintro s ⟨hs,hsteady⟩ id -
    unfold Manager.batchResumeOne
    cases hrow : m.rows id with
    | none => exact ⟨hs,hsteady⟩
    | some row =>
      have hread : RowRead s.1 id (some row) := by
        rw [RowRead, hsteady.origins id, hrow]
      exact ⟨⟨hs.placed.resumeWith hread,hs.conserving.resumeWith,
        hs.aimed.of_steady steady_resumeWith⟩,hsteady.trans steady_resumeWith⟩
  simp only [Manager.batchResume]
  refine foldlRecOn _ _ hloop.1 ?_
  intro s hs id _
  exact hs.updateTaskStatus id _ _

theorem Sound.batchPause (h : Sound m) (env : Choices T) (ids seeders : List T) :
    Sound (m.batchPause env ids seeders) := by
  have hstart : Sound { m with
      pendingQueue := m.pendingQueue.filter (fun q => q.taskId ∉ ids) } :=
    ⟨h.placed.mono (.refl _) filter_sublist (fun _ _ => rfl) (fun _ h => h)
      (fun _ => .inr rfl) rfl rfl,h.conserving.mono rfl filter_sublist rfl rfl rfl,h.aimed⟩
  simp only [Manager.batchPause]
  refine foldlRecOn _ _ (foldlRecOn _ _ (foldlRecOn _ _ hstart ?_) ?_) ?_
  · intro s hs id _
    exact Sound.updateTaskStatus (m := s.clearPendingResolve id)
      ⟨hs.placed.clearPendingResolve id,hs.conserving.mono rfl (.refl _) rfl rfl rfl,hs.aimed⟩ id _ _
  · intro s hs id _
    exact hs.pauseTaskInner env id false
  · intro s hs id _
    exact hs.pauseTaskInner env id false

end Commands

section TaskDone

omit [DecidableEq Q] in
theorem Placed.finishPendingPause (h : Placed m) (g : ℕ) :
    Placed (m.finishPendingPause t g).1 := by
  unfold Manager.finishPendingPause
  cases hp : m.pendingPauses t with
  | none => exact h
  | some p =>
    simp only
    split_ifs with hg
    · exact h
    · exact h.changePendingPause hp none

omit [DecidableEq Q] in
theorem finishPendingPause_of_none (h : m.pendingPauses t = none) (g : ℕ) :
    m.finishPendingPause t g = (m, false) := by
  simp [Manager.finishPendingPause, h]

omit [DecidableEq Q] in
theorem Aimed.finishPendingPause (h : Aimed m) (g : ℕ) : Aimed (m.finishPendingPause t g).1 := by
  unfold Manager.finishPendingPause
  cases hp : m.pendingPauses t with
  | none => exact h
  | some p =>
    simp only
    split_ifs with hg
    · exact h
    · exact h

theorem Sound.settleRow (h : Sound m) (ht : ¬Present m t) (retries : Bool) :
    Sound (m.settleRow t retries) := by
  unfold Manager.settleRow
  cases hrow : m.rows t with
  | none => exact h
  | some row =>
    simp only
    split_ifs with hduplicate hretry
    · exact ⟨(h.placed.removeRetry t).deleteRow ht,h.conserving.mono rfl (.refl _) rfl rfl rfl,
        h.aimed⟩
    · exact ⟨h.placed.congr rfl rfl rfl rfl rfl rfl rfl,h.conserving.mono rfl (.refl _) rfl rfl rfl,h.aimed⟩
    · exact h

omit [DecidableEq Q] in
theorem mem_activeIds_of_findActive {e : ActiveTaskEntry T Q} (h : m.findActive t = some e) :
    t ∈ m.activeIds := by
  have hid : e.taskId = t := by simpa using find?_some h
  exact hid ▸ mem_map_of_mem (mem_of_find?_eq_some h)

/-- The finished task is gone while the rest of the step runs, so it cannot come back. -/
theorem gone_of_taskDone (h : Placed m) (ha : Aimed m) (env : Choices T) (ht : t ∈ m.activeIds) :
    ¬Present ((m.removeActive t).boostGuard env t) t ∧
      ((m.removeActive t).boostGuard env t).pendingPauses t = none := by
  have hpause : m.pendingPauses t = none := by
    by_contra hsome
    exact (h.flushing t hsome).1 ht
  have hgone : ¬Present (m.removeActive t) t := by
    rintro (hactive | hqueued)
    · exact not_mem_activeIds_removeActive m t hactive
    · exact h.apart t hqueued ht
  unfold Manager.boostGuard
  split_ifs with htarget
  · constructor
    · intro hpresent
      exact (confined_clearPriority t hpresent).elim hgone (ha t htarget)
    · exact (steady_clearPriority.pauses t).mpr hpause
  · exact ⟨hgone,hpause⟩

theorem Sound.onTaskDone (h : Sound m) (env : Choices T) (t : T) (g : ℕ) (retries : Bool) :
    Sound (m.onTaskDone env t g retries) := by
  have hfinish : ∀ s : Manager T Q, Placed s → Aimed s →
      Sound ((s.finishPendingPause t g).1.drainQueue env) :=
    fun s hs ha => Sound.of_drain (hs.finishPendingPause g) (ha.finishPendingPause g)
  by_cases hmatched : (m.findActive t).any (fun e => e.generation = g) = true
  · obtain ⟨e,he,-⟩ := (any_eq_true _ _).mp hmatched
    obtain ⟨hgone,hpause⟩ :=
      gone_of_taskDone h.placed h.aimed env (mem_activeIds_of_findActive he)
    have hplaced := (h.placed.removeActive t).boostGuard env t
    have haimed := Aimed.boostGuard (m := m.removeActive t) h.aimed env t
    simp only [Manager.onTaskDone, if_pos hmatched, finishPendingPause_of_none hpause]
    refine Sound.syncQueueOccupancy ((Sound.of_drain hplaced haimed).settleRow ?_ retries)
    intro hpresent
    exact (confined_drainQueue _ env t hpresent).elim hgone id
  · simp only [Manager.onTaskDone, if_neg hmatched]
    refine Sound.syncQueueOccupancy ?_
    split_ifs with hlatched
    · exact (hfinish m h.placed h.aimed).resumeTaskInner env t
    · exact hfinish m h.placed h.aimed

end TaskDone

section Resolver

theorem startable_of_checked {isBt : Bool} {q : Q} (hp : m.pendingPauses t = none)
    (hchecked : m.startsUnchecked t isBt q = false) : Startable m t isBt q := by
  have hall : t ∉ m.queuedIds ∧ m.queueOf t = some q ∧
      (isBt = true ∨ m.history.lowered = true ∨ (m.removeActive t).hasCapacity = true) := by
    rw [Manager.startsUnchecked, decide_eq_false_iff_not, not_or, not_or, not_not, not_not] at hchecked
    exact hchecked
  exact ⟨hall.1,hp,hall.2.1,hall.2.2⟩

theorem slipped_noteStart {isBt : Bool} {q : Q} (h : m.startsUnchecked t isBt q = true) :
    (m.noteStart t isBt q).slipped = true := by
  simp [Manager.slipped, Manager.noteStart, h]

theorem Placed.noteStart (h : Placed m) (isBt : Bool) (q : Q) : Placed (m.noteStart t isBt q) :=
  h.congr rfl rfl rfl rfl rfl rfl rfl

omit [DecidableEq Q] in
theorem Startable.removeActive {isBt : Bool} {q : Q} (h : Startable m t isBt q) :
    Startable (m.removeActive t) t isBt q := by
  refine ⟨h.queued,h.pause,h.queue,h.room.imp_right (Or.imp_right ?_)⟩
  intro hcap
  rw [hasCapacity_removeActive (not_mem_activeIds_removeActive m t)]
  exact hcap

variable {row : TaskInfo Q} {queued : QueuedTask T Q} {siblings : List T}

theorem Sound.applyResolve_ok {pending : PendingResolve T Q} (h : Sound m) (env : Choices T)
    (hrow : m.rows t = some row) (hpending : m.pendingResolve t = some pending)
    (url : Option UrlKind) :
    (m.applyResolve env t pending row (.ok url)).slipped = true ∨
      Sound (m.applyResolve env t pending row (.ok url)) := by
  have hpause : m.pendingPauses t = none := by
    by_contra hsome
    simp [(h.placed.flushing t hsome).2.2] at hpending
  cases pending with
  | start queued g =>
    obtain rfl := h.placed.resolving t queued g hpending
    simp only [Manager.applyResolve]
    set resolved := { queued with url := url.getD queued.url, resolved := true }
    set noted := (m.noteStart queued.taskId resolved.useBt resolved.queueId).clearPendingResolve
      queued.taskId
    cases hchecked : m.startsUnchecked queued.taskId resolved.useBt resolved.queueId with
    | true =>
      left
      rw [steady_drainQueue.slipped, steady_doStartTask.slipped]
      exact slipped_noteStart hchecked
    | false =>
      right
      have hstart : Startable m queued.taskId resolved.useBt resolved.queueId :=
        startable_of_checked hpause hchecked
      have hnoted : Placed noted :=
        (h.placed.noteStart resolved.useBt resolved.queueId).clearPendingResolve queued.taskId
      refine Sound.of_drain (hnoted.doStartTask ?_)
        (Aimed.of_steady (m := noted) h.aimed steady_doStartTask)
      exact ⟨hstart.queued,hstart.pause,hstart.queue,hstart.room⟩
  | resume g =>
    simp only [Manager.applyResolve]
    set noted := ((m.noteStart t (isBtUrl (url.getD row.url)) row.queueId).clearPendingResolve
      t).removeActive t
    cases hchecked : m.startsUnchecked t (isBtUrl (url.getD row.url)) row.queueId with
    | true =>
      left
      rw [steady_drainQueue.slipped, steady_doResumeTask.slipped]
      exact slipped_noteStart hchecked
    | false =>
      right
      have hstart := (startable_of_checked hpause hchecked).removeActive
      have hnoted : Placed noted :=
        ((h.placed.noteStart _ row.queueId).clearPendingResolve t).removeActive t
      refine Sound.of_drain (hnoted.doResumeTask ?_)
        (Aimed.of_steady (m := noted) h.aimed steady_doResumeTask)
      intro r hr
      obtain rfl : r = row := some.inj (hr.symm.trans hrow)
      exact ⟨hstart.queued,hstart.pause,hstart.queue,hstart.room⟩

theorem Sound.enqueuePersistedTask (h : Sound m) (env : Choices T)
    (hgone : ¬Present m queued.taskId) (hp : m.pendingPauses queued.taskId = none)
    (hqueue : m.queueOf queued.taskId = some queued.queueId) :
    Sound (m.enqueuePersistedTask env queued) := by
  have hactive : queued.taskId ∉ m.activeIds := fun ha => hgone (.inl ha)
  have hqueued : queued.taskId ∉ m.queuedIds := fun hq => hgone (.inr hq)
  unfold Manager.enqueuePersistedTask
  split_ifs with hroom
  · refine Sound.syncQueueOccupancy (Sound.of_drain (h.placed.doStartTask ?_)
      (h.aimed.of_steady steady_doStartTask))
    rcases Bool.or_eq_true_iff.mp hroom with hbypass | hroom
    · exact ⟨hqueued,hp,hqueue,.inl (QueuedTask.useBt_of_bypassesQueue hbypass)⟩
    · exact startable_of_hasCapacity hactive hqueued hp hqueue (Bool.and_eq_true_iff.mp hroom).1
  · have hfull : m.hasRoom queued.queueId = false := by
      simpa using (not_or.mp (fun h => hroom (Bool.or_eq_true_iff.mpr h))).2
    exact Sound.syncQueueOccupancy ⟨h.placed.pushQueued hactive hqueued hp hqueue,
      h.conserving.pushQueued hfull,h.aimed⟩

theorem steady_enqueuePersistedTask :
    Steady m (m.enqueuePersistedTask env queued) := by
  unfold Manager.enqueuePersistedTask
  split_ifs with hroom
  · exact (steady_doStartTask.trans steady_drainQueue).trans steady_syncQueueOccupancy
  · exact ⟨rfl,rfl,rfl,rfl,rfl,rfl,fun _ => rfl,fun _ => .rfl⟩

theorem confined_enqueuePersistedTask :
    Confined (fun i => i = queued.taskId) m (m.enqueuePersistedTask env queued) := by
  unfold Manager.enqueuePersistedTask
  split_ifs with hroom
  · exact Confined.trans confined_doStartTask
      ((confined_drainQueue _ env).weaken (fun _ h => h.elim))
  · exact confined_pushQueued (m := m) queued

/-- A new task of a manifest: its row is there, nothing else is. -/
structure Newcomer (m : Manager T Q) (q : Q) (t : T) : Prop where
  gone : ¬Present m t
  pause : m.pendingPauses t = none
  queue : m.queueOf t = some q

omit [DecidableEq T] [DecidableEq Q] in
theorem Newcomer.of_steady {q : Q} (h : Newcomer m q t) (hs : Steady m m')
    (hgone : ¬Present m' t) : Newcomer m' q t :=
  ⟨hgone,(hs.pauses t).mpr h.pause,(hs.queueOf t).trans h.queue⟩

/-- The siblings of a manifest are queued one after the other. -/
theorem Sound.enqueueSiblings (env : Choices T) (siblings : List T) (hnodup : siblings.Nodup)
    (h : Sound m) (hnew : ∀ id ∈ siblings, Newcomer m row.queueId id) :
    Sound (siblings.foldl
      (fun s id => s.enqueuePersistedTask env (Manager.manifestEntry id row)) m) := by
  induction siblings generalizing m with
  | nil => exact h
  | cons id rest ih =>
    have hid := hnew id mem_cons_self
    refine ih (nodup_cons.mp hnodup).2 (h.enqueuePersistedTask env hid.gone hid.pause hid.queue)
      ?_
    intro i hi
    have hi' := hnew i (mem_cons_of_mem id hi)
    refine hi'.of_steady steady_enqueuePersistedTask ?_
    intro hpresent
    rcases confined_enqueuePersistedTask i hpresent with hbefore | rfl
    · exact hi'.gone hbefore
    · exact (nodup_cons.mp hnodup).1 hi

omit [DecidableEq Q] in
theorem queueOf_fissionIntoGroup {status : TaskStatus} (i : T) :
    (m.fissionIntoGroup t row siblings status).queueOf i =
      if i ∈ siblings then some row.queueId else m.queueOf i := by
  by_cases hi : i ∈ siblings
  · simp [Manager.queueOf, Manager.fissionIntoGroup, hi]
  · have hsame := (steady_updateRow (m := m) (t := t)
      (fun r : TaskInfo Q => { r with status := status }) (fun _ => rfl)).queueOf i
    rw [if_neg hi, ← hsame]
    simp [Manager.queueOf, Manager.fissionIntoGroup, hi]

omit [DecidableEq Q] in
theorem Placed.fissionIntoGroup (h : Placed m) (t : T) (row : TaskInfo Q) (status : TaskStatus)
    (hnew : ∀ id ∈ siblings, ¬Present m id) :
    Placed (m.fissionIntoGroup t row siblings status) := by
  refine h.mono (.refl _) (.refl _) ?_ (fun _ h => h) (fun _ => .inr rfl) rfl rfl
  intro i hi
  rw [queueOf_fissionIntoGroup, if_neg (fun hmem => hnew i hmem hi)]

omit [DecidableEq T] [DecidableEq Q] in
theorem useBt_manifestEntry (row : TaskInfo Q) :
    (Manager.manifestEntry t row).useBt = isBtUrl row.url := by
  simp [QueuedTask.useBt, Manager.manifestEntry, isBtUrl]

theorem steady_startManifestTask :
    Steady (m.noteStart t (isBtUrl row.url) row.queueId) (m.startManifestTask t row) :=
  have hmarked : Steady (m.noteStart t (isBtUrl row.url) row.queueId)
      ((m.noteStart t (isBtUrl row.url) row.queueId).noteChange
        (m.roomBeside ⟨t,0,false,isBtUrl row.url,row.queueId⟩)) :=
    ⟨rfl,rfl,rfl,rfl,rfl,rfl,fun _ => rfl,fun _ => .rfl⟩
  hmarked.trans steady_beginResolve

theorem confined_startManifestTask :
    Confined (fun i => i = t) m (m.startManifestTask t row) :=
  confined_beginResolve (m := (m.noteStart t (isBtUrl row.url) row.queueId).noteChange
    (m.roomBeside ⟨t,0,false,isBtUrl row.url,row.queueId⟩))

/-- Whether a waiting task could start beside an entry depends on its flag and its queue only. -/
theorem roomBeside_congr {e d : ActiveTaskEntry T Q} (hid : e.taskId = d.taskId)
    (hbt : e.isBt = d.isBt) (hqueue : e.queueId = d.queueId) :
    m.roomBeside e = m.roomBeside d := by
  have hhttp : (m.insertActive e).httpActive = (m.insertActive d).httpActive := by
    simp [Manager.httpActive, Manager.insertActive, countP_cons, hid, hbt]
  have hin : (m.insertActive e).activeInQueue = (m.insertActive d).activeInQueue := by
    funext q
    simp [Manager.activeInQueue, Manager.insertActive, countP_cons, hid, hqueue]
  have hroom : (m.insertActive e).hasRoom = (m.insertActive d).hasRoom := by
    funext q
    simp only [Manager.hasRoom, Manager.hasCapacity, Manager.hasQueueCapacity, hhttp, hin]
    rfl
  simp only [Manager.roomBeside, Manager.idle, hroom]
  rfl

theorem Conserving.startManifestTask :
    Conserving (m.startManifestTask t row) := by
  rw [Conserving]
  cases hwanted : m.roomBeside ⟨t,0,false,isBtUrl row.url,row.queueId⟩ with
  | true =>
    left
    simp [Manager.startManifestTask, Manager.beginResolveStart, Manager.beginResolve,
      Manager.noteChange, Manager.insertActive, Manager.notePendingResolve,
      Manager.takeGeneration, hwanted]
  | false =>
    have hsame : m.roomBeside
          ⟨t,m.generation + 1,false,(Manager.manifestEntry t row).useBt,row.queueId⟩ =
        m.roomBeside ⟨t,0,false,isBtUrl row.url,row.queueId⟩ :=
      roomBeside_congr rfl (useBt_manifestEntry row) rfl
    have hidle : (m.startManifestTask t row).idle = m.roomBeside
        ⟨t,m.generation + 1,false,(Manager.manifestEntry t row).useBt,row.queueId⟩ := by
      rw [Manager.roomBeside]
      have hactive : (m.startManifestTask t row).activeTasks = (m.insertActive
          ⟨t,m.generation + 1,false,(Manager.manifestEntry t row).useBt,
            row.queueId⟩).activeTasks := by
        simp only [Manager.startManifestTask, Manager.beginResolveStart, Manager.beginResolve,
          Manager.insertActive]
        rfl
      refine idle_congr hactive ?_ ?_ ?_ <;>
        simp only [Manager.startManifestTask, Manager.beginResolveStart, Manager.beginResolve,
          Manager.insertActive, Manager.notePendingResolve, Manager.takeGeneration,
          Manager.noteChange, Manager.noteStart]
    right
    rw [hidle, hsame, hwanted]

theorem Sound.startManifestTask (h : Placed m) (ha : Aimed m) (hp : m.pendingPauses t = none) :
    (m.startManifestTask t row).slipped = true ∨ Sound (m.startManifestTask t row) := by
  cases hchecked : m.startsUnchecked t (isBtUrl row.url) row.queueId with
  | true => exact .inl (steady_startManifestTask.slipped.trans (slipped_noteStart hchecked))
  | false =>
    have hstart := startable_of_checked hp hchecked
    have hnoted : Placed ((m.noteStart t (isBtUrl row.url) row.queueId).noteChange
        (m.roomBeside ⟨t,0,false,isBtUrl row.url,row.queueId⟩)) :=
      h.congr rfl rfl rfl rfl rfl rfl rfl
    have hroom : (Manager.manifestEntry t row).useBt = true ∨ m.history.lowered = true ∨
        (m.removeActive t).hasCapacity = true := by
      rw [useBt_manifestEntry]
      exact hstart.room
    have haimed : Aimed (m.startManifestTask t row) :=
      Aimed.of_steady (m := m.noteStart t _ _) ha steady_startManifestTask
    have hplaced : Placed (m.startManifestTask t row) :=
      hnoted.beginResolveStart ⟨hstart.queued,hstart.pause,hstart.queue,hroom⟩
    exact .inr ⟨hplaced,Conserving.startManifestTask,haimed⟩

theorem slipped_enqueueSiblings (row : TaskInfo Q) (siblings : List T) :
    (siblings.foldl (fun s id => s.enqueuePersistedTask env (Manager.manifestEntry id row))
      m).slipped = m.slipped := by
  induction siblings generalizing m with
  | nil => rfl
  | cons id rest ih => exact ih.trans steady_enqueuePersistedTask.slipped

theorem Sound.fissionSiblings (h : Placed m) (ha : Aimed m) (env : Choices T)
    (hp : m.pendingPauses t = none) (overThreshold fissionFails : Bool) (hnodup : siblings.Nodup)
    (hnew : ∀ id ∈ siblings, ¬Present m id ∧ m.pendingPauses id = none ∧ id ≠ t) :
    (m.fissionSiblings env t row siblings overThreshold fissionFails).slipped = true ∨
      Sound (m.fissionSiblings env t row siblings overThreshold fissionFails) := by
  have hgone : ∀ id ∈ siblings, ¬Present m id := fun id hid => (hnew id hid).1
  unfold Manager.fissionSiblings
  split_ifs with hfails hover
  · exact .inr (Sound.of_drain (h.updateTaskStatus t .error .failure) ha)
  · have hfission := h.fissionIntoGroup t row .paused hgone
    exact .inr ⟨hfission.congr rfl rfl rfl rfl rfl rfl rfl,Conserving.noteChange (.inr id),ha⟩
  · have hfission := h.fissionIntoGroup t row .pending hgone
    rw [slipped_enqueueSiblings]
    refine (Sound.startManifestTask hfission ha hp).imp_right ?_
    intro hstarted
    refine hstarted.enqueueSiblings env siblings hnodup ?_
    intro id hid
    obtain ⟨hpresent,hpause,hne⟩ := hnew id hid
    have hqueue : (m.fissionIntoGroup t row siblings .pending).queueOf id = some row.queueId := by
      rw [queueOf_fissionIntoGroup, if_pos hid]
    have hsteady : Steady ((m.fissionIntoGroup t row siblings .pending).noteStart t _ _)
        ((m.fissionIntoGroup t row siblings .pending).startManifestTask t row) :=
      steady_startManifestTask
    refine ⟨?_,(hsteady.pauses id).mpr hpause,(hsteady.queueOf id).trans hqueue⟩
    intro hstart
    exact (confined_startManifestTask id hstart).elim hpresent hne

theorem Sound.applyManifestFission (h : Placed m) (ha : Aimed m) (env : Choices T)
    (hp : m.pendingPauses t = none) (siblings : Option (List T)) (overThreshold fissionFails : Bool)
    (hnodup : (siblings.getD []).Nodup)
    (hnew : ∀ id ∈ siblings.getD [], ¬Present m id ∧ m.pendingPauses id = none ∧ id ≠ t) :
    (m.applyManifestFission env t row siblings overThreshold fissionFails).slipped = true ∨
      Sound (m.applyManifestFission env t row siblings overThreshold fissionFails) := by
  unfold Manager.applyManifestFission
  by_cases hdata : row.downloadedBytes ≠ 0
  · rw [if_pos hdata]
    exact .inr (Sound.of_drain (h.updateTaskStatus t .error .failure) ha)
  · rw [if_neg hdata]
    match siblings with
    | none => exact .inr (Sound.of_drain h ha)
    | some [] => exact Sound.startManifestTask h ha hp
    | some (sibling :: rest) =>
      exact Sound.fissionSiblings h ha env hp overThreshold fissionFails hnodup hnew

theorem Sound.dropOutcome (h : Sound m) (env : Choices T) (g : ℕ) :
    Sound (m.dropOutcome env t g) := by
  unfold Manager.dropOutcome
  split_ifs with hown
  · exact Sound.of_drain (h.placed.removeActive t) h.aimed
  · exact h

theorem Sound.onResolveReady (h : Sound m) (env : Choices T) (t : T) (g : ℕ) (cancelled : Bool)
    (result : ResolveResult T) (hnodup : (Manager.newTasks result).Nodup)
    (hnew : ∀ id ∈ Manager.newTasks result, m.Unused id ∧ id ≠ t) :
    (m.onResolveReady env t g cancelled result).slipped = true ∨
      Sound (m.onResolveReady env t g cancelled result) := by
  unfold Manager.onResolveReady
  cases hpending : m.pendingResolve t with
  | none => exact .inr (h.dropOutcome env g)
  | some pending =>
    simp only
    split_ifs with hg hcancelled
    · exact .inr (h.dropOutcome env g)
    · exact .inr (Sound.cancelTask (m := m.release [t])
        (h.placed.congr rfl rfl rfl rfl rfl rfl rfl) h.aimed env t)
    · have hcleared := (h.placed.clearPendingResolve t).removeActive t
      cases hrow : m.rows t with
      | none => exact .inr (Sound.of_drain hcleared h.aimed)
      | some row =>
        cases result with
        | error =>
          exact .inr (Sound.of_drain (((h.placed.updateTaskStatus t .error
            .failure).clearPendingResolve t).removeActive t) h.aimed)
        | ok url => exact h.applyResolve_ok env hrow hpending url
        | manifest siblings overThreshold fissionFails =>
          have hpause : m.pendingPauses t = none := by
            by_contra hsome
            simp [(h.placed.flushing t hsome).2.2] at hpending
          refine Sound.applyManifestFission hcleared h.aimed env hpause siblings overThreshold
            fissionFails hnodup ?_
          intro id hid
          obtain ⟨⟨-,hactive,hqueued,hnone,-⟩,hne⟩ := hnew id hid
          refine ⟨?_,hnone,hne⟩
          rintro (hpresent | hpresent)
          · exact hactive (mem_activeIds_removeActive.mp hpresent).1
          · exact hqueued hpresent

end Resolver

section Priority

omit [DecidableEq Q] in
theorem waiting_doResumeTask {applied : Option (Option UrlKind)} :
    (m.doResumeTask env t applied).pendingQueue = m.pendingQueue ∧
      (m.doResumeTask env t applied).history = m.history := by
  cases hrow : m.rows t with
  | none =>
    rw [Manager.doResumeTask_of_none m env t hrow]
    exact ⟨rfl,rfl⟩
  | some row =>
    rw [Manager.doResumeTask_of_row m env t hrow]
    simp only [Manager.spawnDownloader]
    split_ifs with hresolve hfails
    · exact ⟨rfl,rfl⟩
    · exact ⟨rfl,rfl⟩
    · exact ⟨rfl,rfl⟩

theorem Conserving.doResumeTask (h : Conserving m) (ha : t ∉ m.activeIds)
    {applied : Option (Option UrlKind)} : Conserving (m.doResumeTask env t applied) := by
  have hwaiting : (m.doResumeTask env t applied).pendingQueue = m.pendingQueue ∧
      (m.doResumeTask env t applied).history = m.history := waiting_doResumeTask
  obtain ⟨hqueue,hhistory⟩ := hwaiting
  refine h.imp (fun hundrained => hhistory ▸ hundrained) ?_
  intro hidle
  rw [Manager.idle, any_eq_false] at hidle ⊢
  intro q hq
  have hroom := Bool.eq_false_iff.mpr (hidle q (hqueue ▸ hq))
  exact Bool.eq_false_iff.mp ((narrows_doResumeTask ha).hasRoom_eq_false
    steady_doResumeTask.maxConcurrent steady_doResumeTask.queues hroom)

theorem boost_stopActive (m : Manager T Q) (env : Choices T) (t : T) (e : ActiveTaskEntry T Q)
    (notify : Bool) : (m.stopActive env t e notify).priorityTaskId = m.priorityTaskId ∧
      (m.stopActive env t e notify).autoPausedIds = m.autoPausedIds ∧
      ∀ i, i ≠ t → ((m.stopActive env t e notify).pendingPauses i = none ↔
        m.pendingPauses i = none) := by
  simp only [Manager.stopActive]
  have hsteady : ∀ s : Manager T Q,
      Steady s ((s.updateTaskStatus t .paused .empty).drainQueue env) :=
    fun s => (steady_updateTaskStatus _ _).trans steady_drainQueue
  split_ifs with hhandle
  · have hs := hsteady ((m.removeActive t).setPendingPause t (some ⟨e.generation,notify,false⟩))
    refine ⟨hs.priorityTaskId,hs.autoPausedIds,?_⟩
    intro i hi
    rw [hs.pauses i]
    simp [Manager.setPendingPause, update_of_ne hi, Manager.removeActive]
  · have hs := hsteady (m.removeActive t)
    exact ⟨hs.priorityTaskId,hs.autoPausedIds,fun i _ => hs.pauses i⟩

omit [DecidableEq Q] in
theorem boost_pauseSeeding :
    (m.pauseSeeding t).priorityTaskId = m.priorityTaskId ∧
      (m.pauseSeeding t).autoPausedIds = m.autoPausedIds ∧
      (m.pauseSeeding t).pendingPauses = m.pendingPauses := by
  unfold Manager.pauseSeeding
  cases hrow : m.rows t with
  | none => exact ⟨rfl,rfl,rfl⟩
  | some row =>
    simp only
    split_ifs with hseeding
    · exact ⟨rfl,rfl,rfl⟩
    · exact ⟨rfl,rfl,rfl⟩

theorem boost_pauseTaskInner (env : Choices T) (t : T) (h : m.priorityTaskId = none)
    (notify : Bool) :
    (m.pauseTaskInner env t notify).priorityTaskId = none ∧
      (m.pauseTaskInner env t notify).autoPausedIds = m.autoPausedIds ∧
      ∀ i, i ≠ t → ((m.pauseTaskInner env t notify).pendingPauses i = none ↔
        m.pendingPauses i = none) := by
  obtain ⟨p,-,hm⟩ | ⟨-,-,hm⟩ | ⟨e,-,-,-,hm⟩ | ⟨-,-,-,hm⟩ :=
    pauseTaskInner_cases m env t notify
  · rw [hm]
    refine ⟨h,rfl,?_⟩
    intro i hi
    simp [Manager.syncQueueOccupancy, Manager.setPendingPause, update_of_ne hi, pausing,
      Manager.removeRetry, Manager.clearPendingResolve]
  · rw [hm]
    exact ⟨h,rfl,fun _ _ => .rfl⟩
  · rw [hm]
    obtain ⟨htarget,hauto,hpauses⟩ := boost_stopActive (pausing m t) env t e notify
    have hguard : ((pausing m t).stopActive env t e notify).boostGuard env t =
        (pausing m t).stopActive env t e notify := by
      have hnone : ((pausing m t).stopActive env t e notify).priorityTaskId = none :=
        htarget.trans h
      rw [Manager.boostGuard, if_neg (by simp [hnone])]
    rw [hguard]
    exact ⟨htarget.trans h,hauto,hpauses⟩
  · rw [hm]
    obtain ⟨htarget,hauto,hpauses⟩ := boost_pauseSeeding (m := pausing m t) (t := t)
    exact ⟨htarget.trans h,hauto,fun i _ => iff_of_eq (congrArg (fun f => f i = none) hpauses)⟩

/-- The state of `set_priority_task` while it pauses the others: the target is on the way to run. -/
structure Pausing (id : T) (waited : Bool) (m : Manager T Q) : Prop where
  placed : Placed m
  conserving : Conserving m
  noTarget : m.priorityTaskId = none
  cleared : id ∉ m.autoPausedIds
  pause : waited = true → m.pendingPauses id = none

variable {waited : Bool}

theorem Pausing.autoPause {id i : T} (h : Pausing id waited m) (env : Choices T) (hi : i ≠ id) :
    Pausing id waited (m.autoPause env i) := by
  have hplaced : Placed (m.noteAutoPaused i) :=
    h.placed.congr rfl rfl rfl rfl rfl rfl rfl
  have hconserving : Conserving (m.noteAutoPaused i) :=
    h.conserving.mono rfl (.refl _) rfl rfl rfl
  obtain ⟨htarget,hauto,hpauses⟩ :=
    boost_pauseTaskInner (m := m.noteAutoPaused i) env i h.noTarget false
  refine ⟨hplaced.pauseTaskInner env i false,hconserving.pauseTaskInner env i false,htarget,?_,
    ?_⟩
  · intro hmem
    have hlist : id ∈ (m.noteAutoPaused i).autoPausedIds := hauto ▸ hmem
    rcases mem_cons.mp hlist with hid | hid
    · exact hi hid.symm
    · exact h.cleared (mem_of_mem_filter hid)
  · intro hwaited
    exact (hpauses id (Ne.symm hi)).mpr (h.pause hwaited)

theorem Pausing.autoPauseAll {id : T} (env : Choices T) (ids : List T) (hids : ∀ i ∈ ids, i ≠ id)
    (h : Pausing id waited m) :
    Pausing id waited (ids.foldl (fun s i => s.autoPause env i) m) := by
  refine foldlRecOn _ _ h ?_
  intro s hs i hi
  exact hs.autoPause env (hids i hi)

theorem Pausing.autoPauseOthers {id : T} (h : Pausing id waited m) (env : Choices T) :
    Pausing id waited (m.autoPauseOthers env id) := by
  simp only [Manager.autoPauseOthers]
  refine Pausing.autoPauseAll env _ ?_ (Pausing.autoPauseAll env _ ?_
    (Pausing.autoPauseAll env _ ?_ h))
  · intro i hi
    exact (of_decide_eq_true (mem_filter.mp hi).2).1
  · intro i hi
    exact of_decide_eq_true (mem_filter.mp hi).2
  · intro i hi
    exact of_decide_eq_true (mem_filter.mp hi).2

/-- Step 5: the target runs already, or is resumed, or starts from the queue without a check. -/
theorem Sound.startTarget {id : T} (h : Pausing id waited m) (env : Choices T) :
    ((m.setTarget id).startTarget env id waited).slipped = true ∨
      Sound ((m.setTarget id).startTarget env id waited) := by
  have haimed : Aimed (m.setTarget id) := by
    intro i hi
    cases hi
    exact h.cleared
  have htarget : Sound (m.setTarget id) :=
    ⟨h.placed.congr rfl rfl rfl rfl rfl rfl rfl,
      h.conserving.mono rfl (.refl _) rfl rfl rfl,haimed⟩
  have hunpaused : Sound ((m.setTarget id).unpauseAuto id) :=
    ⟨htarget.placed.unpauseAuto id,htarget.conserving.mono rfl (.refl _) rfl rfl rfl,
      haimed.unpauseAuto id⟩
  unfold Manager.startTarget
  split_ifs with hactive hwaited
  · exact .inr htarget
  · cases hrow : (m.setTarget id).rows id with
    | none => exact .inr hunpaused
    | some row =>
      set unpaused := (m.setTarget id).unpauseAuto id
      set noted := unpaused.noteStart id (isBtUrl row.url) row.queueId
      change (noted.doResumeTask env id none).slipped = true ∨ Sound (noted.doResumeTask env id none)
      cases hchecked : unpaused.startsUnchecked id (isBtUrl row.url) row.queueId with
      | true => exact .inl (steady_doResumeTask.slipped.trans (slipped_noteStart hchecked))
      | false =>
        have hstart := startable_of_checked (h.pause hwaited) hchecked
        have hnoted : Placed noted := hunpaused.placed.noteStart _ _
        have hconserving : Conserving noted := hunpaused.conserving.mono rfl (.refl _) rfl rfl rfl
        refine .inr ⟨hnoted.doResumeTask ?_,hconserving.doResumeTask hactive,
          Aimed.of_steady (m := noted) hunpaused.aimed steady_doResumeTask⟩
        intro r hr
        obtain rfl : r = row := some.inj (hr.symm.trans hrow)
        exact ⟨hstart.queued,hstart.pause,hstart.queue,hstart.room⟩
  · exact .inr (hunpaused.resumeTaskInner env id)

theorem Sound.setPriorityTask (h : Sound m) (env : Choices T) (target : Option T) :
    (m.setPriorityTask env target).slipped = true ∨ Sound (m.setPriorityTask env target) := by
  unfold Manager.setPriorityTask
  cases target with
  | none => exact .inr (h.clearPriority env)
  | some id =>
    simp only
    by_cases hsame : m.priorityTaskId = some id
    · rw [if_pos hsame]
      exact .inr (h.clearPriority env)
    · rw [if_neg hsame]
      have hdropped : Pausing id (decide (id ∈ m.queuedIds))
          ((m.dropTarget id).removeQueued id) := by
        refine ⟨Placed.removeQueued (m := m.dropTarget id) ?_ id,?_,rfl,?_,?_⟩
        · exact h.placed.congr rfl rfl rfl rfl rfl rfl rfl
        · exact h.conserving.mono rfl eraseP_sublist rfl rfl rfl
        · simp [Manager.dropTarget, Manager.removeQueued, Manager.unpauseAuto]
        · intro hwaited
          by_contra hsome
          exact (h.placed.flushing id hsome).2.1 (of_decide_eq_true hwaited)
      rcases Sound.startTarget (hdropped.autoPauseOthers env) env with hslipped | hstarted
      · left
        split_ifs with hactive
        · exact hslipped
        · rw [steady_clearPriority.slipped]
          exact hslipped
      · right
        split_ifs with hactive
        · exact hstarted
        · exact hstarted.clearPriority env

end Priority

section Queues

theorem Sound.setMaxConcurrent (h : Sound m) (env : Choices T) (max : ℕ) :
    Sound (m.setMaxConcurrent env max) := by
  refine Sound.of_drain ⟨h.placed.active_nodup,h.placed.queued_nodup,h.placed.apart,
    h.placed.active_queue,h.placed.queued_queue,h.placed.flushing,h.placed.resolving,?_⟩ h.aimed
  intro hlowered hmax
  have hnot : ¬(max ≠ 0 ∧ max < m.httpActive) := by
    simpa using (Bool.or_eq_false_iff.mp hlowered).2
  exact not_lt.mp (fun hlt => hnot ⟨hmax,hlt⟩)

omit [DecidableEq T] in
theorem hasQueueCapacity_congr {q : Q} (hqueue : m'.queues q = m.queues q)
    (hactive : m'.activeTasks = m.activeTasks) : m'.hasQueueCapacity q = m.hasQueueCapacity q := by
  simp only [Manager.hasQueueCapacity, Manager.activeInQueue, hqueue, hactive]
  rfl

omit [DecidableEq T] in
theorem Sound.createQueue (h : Sound m) {q : Q} (hnew : m.queues q = none) (limit : ℕ) :
    Sound (m.createQueue q limit) := by
  refine ⟨h.placed.congr rfl rfl rfl rfl rfl rfl rfl,h.conserving.imp id ?_,h.aimed⟩
  intro hidle
  rw [Manager.idle, any_eq_false] at hidle ⊢
  intro p hp hroom
  refine hidle p hp ?_
  obtain ⟨hcap,hqueue⟩ := Bool.and_eq_true_iff.mp hroom
  refine Bool.and_eq_true_iff.mpr ⟨hcap,?_⟩
  by_cases hpq : p.queueId = q
  · simp [Manager.hasQueueCapacity, hpq, hnew]
  · have hsame : (m.createQueue q limit).hasQueueCapacity p.queueId = m.hasQueueCapacity p.queueId :=
      hasQueueCapacity_congr (update_of_ne hpq _ _) rfl
    exact hsame ▸ hqueue

omit [DecidableEq T] in
theorem hasQueueCapacity_setLimit (m : Manager T Q) (q : Q) (limit : ℕ) :
    (m.setLimit q limit).hasQueueCapacity q = decide (limit = 0 ∨ m.activeInQueue q < limit) := by
  simp only [Manager.hasQueueCapacity, Manager.setLimit, update_self]
  rfl

omit [DecidableEq T] in
theorem Sound.updateQueue (h : Sound m) (q : Q) (limit : ℕ) : Sound (m.updateQueue q limit) := by
  unfold Manager.updateQueue
  cases hq : m.queues q with
  | none => exact h
  | some old =>
    refine ⟨h.placed.congr rfl rfl rfl rfl rfl rfl rfl,
      Conserving.noteChange (h.conserving.imp id ?_),h.aimed⟩
    intro hidle hnew
    obtain ⟨p,hp,hroom⟩ := any_eq_true.mp hnew
    obtain ⟨hcap,hqueue⟩ := Bool.and_eq_true_iff.mp hroom
    change m.hasCapacity = true at hcap
    by_cases hpq : p.queueId = q
    · -- the task waits in the queue itself, so the new limit lets it in
      have hunder : decide (limit = 0 ∨ m.activeInQueue q < limit) = true := by
        rw [← hasQueueCapacity_setLimit]
        exact hpq ▸ hqueue
      exact Bool.and_eq_true_iff.mpr ⟨Bool.and_eq_true_iff.mpr ⟨hcap,hunder⟩,
        any_eq_true.mpr ⟨p,hp,by simpa using hpq⟩⟩
    · have hother : (m.setLimit q limit).hasQueueCapacity p.queueId =
          m.hasQueueCapacity p.queueId :=
        hasQueueCapacity_congr (update_of_ne hpq _ _) rfl
      exact absurd (Bool.and_eq_true_iff.mpr ⟨hcap,hother ▸ hqueue⟩)
        (any_eq_false.mp hidle p hp)

omit [DecidableEq T] in
theorem Sound.dropQueue (h : Sound m) {q : Q} (hunused : m.queueInUse q = false) :
    Sound (m.dropQueue q) := by
  obtain ⟨hactive,hqueued⟩ := Bool.or_eq_false_iff.mp hunused
  have hqueueOf : ∀ i, Present m i → m.queueOf i ≠ some q := by
    rintro i (hi | hi) hqi
    · obtain ⟨e,he,rfl⟩ := mem_map.mp hi
      rw [h.placed.active_queue e he] at hqi
      exact any_eq_false.mp hactive e he (by simpa using hqi)
    · obtain ⟨p,hp,rfl⟩ := mem_map.mp hi
      rw [h.placed.queued_queue p hp] at hqi
      exact any_eq_false.mp hqueued p hp (by simpa using hqi)
  refine ⟨h.placed.mono (.refl _) (.refl _) ?_ (fun _ h => h) (fun _ => .inr rfl) rfl rfl,
    h.conserving.imp id ?_,h.aimed⟩
  · intro i hi
    have hne := hqueueOf i hi
    cases hrow : m.rows i with
    | none => simp [Manager.queueOf, Manager.dropQueue, hrow]
    | some row =>
      have hrowne : row.queueId ≠ q := by simpa [Manager.queueOf, hrow] using hne
      simp [Manager.queueOf, Manager.dropQueue, hrow, hrowne]
  · intro hidle
    rw [Manager.idle, any_eq_false] at hidle ⊢
    intro p hp hroom
    have hne : p.queueId ≠ q := by simpa using any_eq_false.mp hqueued p hp
    have hsame : (m.dropQueue q).hasQueueCapacity p.queueId = m.hasQueueCapacity p.queueId :=
      hasQueueCapacity_congr (update_of_ne hne _ _) rfl
    obtain ⟨hcap,hqueue⟩ := Bool.and_eq_true_iff.mp hroom
    exact hidle p hp (Bool.and_eq_true_iff.mpr ⟨hcap,hsame ▸ hqueue⟩)

omit [DecidableEq T] in
theorem Sound.deleteQueue (h : Sound m) (q : Q) :
    (m.deleteQueue q).slipped = true ∨ Sound (m.deleteQueue q) := by
  unfold Manager.deleteQueue
  split_ifs with hbuiltin
  · exact .inr h
  · cases hused : m.queueInUse q with
    | true => exact .inl (by simp [Manager.slipped])
    | false =>
      have hdropped := h.dropQueue hused
      exact .inr ⟨hdropped.placed.congr rfl rfl rfl rfl rfl rfl rfl,
        hdropped.conserving.mono rfl (.refl _) rfl rfl rfl,
        hdropped.aimed⟩

omit [DecidableEq Q] in
theorem httpActive_requeue (m : Manager T Q) (t : T) (q : Q) :
    (m.requeue t q).httpActive = m.httpActive := by
  simp only [Manager.httpActive, Manager.requeue, countP_map]
  refine countP_congr ?_
  intro e _
  simp only [comp_apply]
  split_ifs <;> rfl

omit [DecidableEq Q] in
/-- The row and the entries of a moved task change together. -/
theorem Placed.requeue (h : Placed m) (t : T) (q : Q) : Placed (m.requeue t q) := by
  have hactive : (m.requeue t q).activeIds = m.activeIds := by
    simp only [Manager.activeIds, Manager.requeue, map_map]
    refine map_congr_left ?_
    intro e _
    simp only [comp_apply]
    split_ifs <;> rfl
  have hqueued : (m.requeue t q).queuedIds = m.queuedIds := by
    simp only [Manager.queuedIds, Manager.requeue, map_map]
    refine map_congr_left ?_
    intro e _
    simp only [comp_apply]
    split_ifs <;> rfl
  have hqueue : ∀ i, (m.requeue t q).queueOf i =
      if i = t then (m.queueOf t).map (fun _ => q) else m.queueOf i := by
    intro i
    by_cases hi : i = t
    · subst hi
      simp [Manager.queueOf, Manager.requeue, Manager.updateRow,
        comp_def]
    · simp [Manager.queueOf, Manager.requeue, Manager.updateRow, hi]
  refine ⟨hactive ▸ h.active_nodup,hqueued ▸ h.queued_nodup,?_,?_,?_,?_,h.resolving,?_⟩
  · rw [hactive, hqueued]
    exact h.apart
  · intro e he
    obtain ⟨d,hd,rfl⟩ := mem_map.mp he
    have hd' := h.active_queue d hd
    rw [hqueue]
    split_ifs with hdt
    · rw [← hdt, hd']
      rfl
    · exact hd'
  · intro e he
    obtain ⟨d,hd,rfl⟩ := mem_map.mp he
    have hd' := h.queued_queue d hd
    rw [hqueue]
    split_ifs with hdt
    · rw [← hdt, hd']
      rfl
    · exact hd'
  · rw [hactive, hqueued]
    exact h.flushing
  · intro hlowered hmax
    rw [httpActive_requeue]
    exact h.bounded hlowered hmax

/-- The number of active tasks in the queue that the task moves to does not shrink. -/
theorem activeInQueue_le_requeue (m : Manager T Q) (t : T) (q : Q) :
    m.activeInQueue q ≤ (m.requeue t q).activeInQueue q := by
  simp only [Manager.activeInQueue, Manager.requeue, countP_map]
  refine countP_mono_left ?_
  intro e _ he
  simp only [comp_apply]
  split_ifs
  · simp
  · exact he

theorem activeInQueue_requeue_of_ne (m : Manager T Q) (t : T) {q p : Q} (h : p ≠ q) :
    (m.requeue t q).activeInQueue p = (m.removeActive t).activeInQueue p := by
  simp only [Manager.activeInQueue, Manager.requeue,
    Manager.removeActive, countP_map, countP_filter]
  refine countP_congr ?_
  intro e _
  by_cases he : e.taskId = t
  · simp [he, h.symm]
  · simp [he]

omit [DecidableEq Q] in
theorem hasCapacity_requeue (m : Manager T Q) (t : T) (q : Q) :
    (m.requeue t q).hasCapacity = m.hasCapacity := by
  simp only [Manager.hasCapacity, httpActive_requeue m t q]
  rfl

theorem hasQueueCapacity_of_requeue {q : Q}
    (h : (m.requeue t q).hasQueueCapacity q = true) : m.hasQueueCapacity q = true := by
  have hle := activeInQueue_le_requeue m t q
  have hqueues : (m.requeue t q).queues = m.queues := rfl
  unfold Manager.hasQueueCapacity at h ⊢
  rw [hqueues] at h
  cases hlimit : m.queues q with
  | none => rfl
  | some limit =>
    rw [hlimit] at h
    have hunder : limit = 0 ∨ (m.requeue t q).activeInQueue q < limit := by simpa using h
    simpa using hunder.imp_right (fun hlt => lt_of_le_of_lt hle hlt)

theorem Conserving.moveTaskToQueue (h : Conserving m) (t : T) (q : Q) :
    Conserving (m.moveTaskToQueue t q) := by
  refine Conserving.noteChange (h.imp id ?_)
  intro hidle hmoved
  obtain ⟨p',hp',hroom⟩ := any_eq_true.mp hmoved
  obtain ⟨p,hp,rfl⟩ := mem_map.mp hp'
  obtain ⟨hcap',hqueue⟩ := Bool.and_eq_true_iff.mp hroom
  have hcap : m.hasCapacity = true := by
    rw [← hcap', ← hasCapacity_requeue m t q]
  by_cases hpt : p.taskId = t
  · rw [if_pos hpt] at hqueue
    have hroom : m.hasRoom q = true :=
      Bool.and_eq_true_iff.mpr ⟨hcap,hasQueueCapacity_of_requeue hqueue⟩
    have hwaits : t ∈ m.queuedIds := hpt ▸ mem_map_of_mem hp
    simp [Manager.moveWanted, hwaits, hroom]
  · rw [if_neg hpt] at hqueue
    by_cases hpq : p.queueId = q
    · have hroom : m.hasRoom p.queueId = true := by
        rw [hpq] at hqueue ⊢
        exact Bool.and_eq_true_iff.mpr ⟨hcap,hasQueueCapacity_of_requeue hqueue⟩
      exact absurd hroom (any_eq_false.mp hidle p hp)
    · have hleft : (m.removeActive t).hasQueueCapacity p.queueId = true := by
        rw [← hqueue]
        simp only [Manager.hasQueueCapacity, activeInQueue_requeue_of_ne m t hpq]
        rfl
      have hany : m.pendingQueue.any (fun p =>
          p.queueId ≠ q && (m.removeActive t).hasQueueCapacity p.queueId) = true :=
        any_eq_true.mpr ⟨p,hp,by simp [hpq, hleft]⟩
      simp only [Manager.moveWanted, hcap, hany, Bool.and_self, Bool.or_true]

theorem Sound.moveTaskToQueue (h : Sound m) (t : T) (q : Q) : Sound (m.moveTaskToQueue t q) :=
  ⟨(h.placed.requeue t q).congr rfl rfl rfl rfl rfl rfl rfl,h.conserving.moveTaskToQueue t q,
    h.aimed⟩

theorem Sound.invalidateBtSession (h : Sound m) (env : Choices T) :
    Sound (m.invalidateBtSession env) := by
  simp only [Manager.invalidateBtSession]
  refine foldlRecOn _ _ h ?_
  intro s hs id _
  split_ifs with hactive
  · have hremoved : Sound ((s.removeActive id).noteChange (s.slotWanted id)) :=
      ⟨(hs.placed.removeActive id).congr rfl rfl rfl rfl rfl rfl rfl,Conserving.removeSlot s id,
        hs.aimed⟩
    exact (hremoved.updateTaskStatus id .paused .empty).boostGuard env id
  · exact hs

end Queues

section Runs

omit [DecidableEq Q] in
theorem Placed.insertRow (h : Placed m) {row : TaskInfo Q} (ht : ¬Present m t) :
    Placed (m.insertRow t row) := by
  refine h.mono (.refl _) (.refl _) ?_ (fun _ h => h) (fun _ => .inr rfl) rfl rfl
  intro i hi
  have hne : i ≠ t := fun hit => ht (hit ▸ hi)
  simp [Manager.queueOf, Manager.insertRow, update_of_ne hne]

theorem Sound.createTask (h : Sound m) (env : Choices T) (hnew : m.Unused t)
    (spec : NewTaskSpec Q) : Sound (m.createTask env t spec) := by
  obtain ⟨-,hactive,hqueued,hpause,-⟩ := hnew
  have hgone : ¬Present m t := fun hpresent => hpresent.elim hactive hqueued
  have hcreated : Sound (m.insertRow t spec.row) :=
    ⟨h.placed.insertRow hgone,h.conserving.mono rfl (.refl _) rfl rfl rfl,h.aimed⟩
  have hqueue : (m.insertRow t spec.row).queueOf t = some spec.queueId := by
    simp [Manager.queueOf, Manager.insertRow, NewTaskSpec.row]
  simp only [Manager.createTask]
  split_ifs with hstop
  · exact hcreated
  · exact hcreated.enqueuePersistedTask env hgone hpause hqueue

theorem Sound.retryFires (h : Sound m) (env : Choices T) (t : T) : Sound (m.retryFires env t) := by
  unfold Manager.retryFires
  cases hrow : m.rows t with
  | none => exact h
  | some row =>
    simp only
    split_ifs with herror
    · exact h.resumeTaskInner env t
    · exact h

omit [DecidableEq T] in
theorem Sound.pluginRequestRetry (h : Sound m) (accepted : Bool) :
    Sound (m.pluginRequestRetry t accepted) := by
  unfold Manager.pluginRequestRetry
  split_ifs with haccepted
  · exact ⟨h.placed.congr rfl rfl rfl rfl rfl rfl rfl,h.conserving.mono rfl (.refl _) rfl rfl rfl,h.aimed⟩
  · exact h

omit [DecidableEq T] in
/-- What has been spawned and what Boost answers for are no part of the schedule. -/
theorem Sound.congr (h : Sound m) (hplaced : Placed m') (hactive : m'.activeTasks = m.activeTasks)
    (hqueued : m'.pendingQueue = m.pendingQueue) (hmax : m'.maxConcurrent = m.maxConcurrent)
    (hqueues : m'.queues = m.queues) (hundrained : m'.history.undrained = m.history.undrained)
    (htarget : m'.priorityTaskId = m.priorityTaskId)
    (hauto : m'.autoPausedIds = m.autoPausedIds) : Sound m' :=
  ⟨hplaced,h.conserving.mono hactive (by rw [hqueued]) hmax hqueues hundrained,
    h.aimed.congr htarget hauto⟩

theorem Sound.release (h : Sound m) (ids : List T) : Sound (m.release ids) :=
  h.congr (h.placed.congr rfl rfl rfl rfl rfl rfl rfl) rfl rfl rfl rfl rfl rfl rfl

theorem Sound.endSpawn (h : Sound m) (t : T) (g : ℕ) : Sound (m.endSpawn t g) :=
  h.congr (h.placed.congr rfl rfl rfl rfl rfl rfl rfl) rfl rfl rfl rfl rfl rfl rfl

theorem Sound.endWorker (h : Sound m) (t : T) (g : ℕ) : Sound (m.endWorker t g) :=
  h.congr (h.placed.congr rfl rfl rfl rfl rfl rfl rfl) rfl rfl rfl rfl rfl rfl rfl

theorem Sound.endTimer (h : Sound m) (t : T) : Sound (m.endTimer t) :=
  h.congr (h.placed.congr rfl rfl rfl rfl rfl rfl rfl) rfl rfl rfl rfl rfl rfl rfl

/-- One message, apart from the steps that have been recorded as wrong. -/
theorem Sound.handle (h : Sound m) (message : Message T Q) {m' : Manager T Q}
    (hstep : m.handle env message = some m') : m'.slipped = true ∨ Sound m' := by
  cases message with
  | createTask t spec =>
    simp only [Manager.handle, ite_none_right_eq_some] at hstep
    obtain ⟨hnew,hm⟩ := hstep
    cases hm
    exact .inr (h.createTask env hnew spec)
  | pauseTask t =>
    cases hstep
    exact .inr ((h.release [t]).pauseTaskInner env t true)
  | resumeTask t =>
    cases hstep
    exact .inr (h.resumeTaskInner env t)
  | restartTask t =>
    cases hstep
    exact .inr (h.restartTask env t)
  | setTaskSegments t =>
    cases hstep
    exact .inr (h.setTaskSegments env t)
  | cancelTask t =>
    cases hstep
    exact .inr (Sound.cancelTask (h.release [t]).placed h.aimed env t)
  | deleteTask t =>
    cases hstep
    exact .inr (Sound.deleteTask (h.release [t]).placed h.aimed env t)
  | deleteTasksBatch ids =>
    cases hstep
    exact .inr ((h.release ids).deleteTasksBatch env ids)
  | batchResume ids =>
    cases hstep
    exact .inr (h.batchResume env ids)
  | batchPause ids seeders =>
    cases hstep
    exact .inr ((h.release ids).batchPause env ids seeders)
  | setPriorityTask target =>
    cases hstep
    exact h.setPriorityTask env target
  | setMaxConcurrent max =>
    cases hstep
    exact .inr (h.setMaxConcurrent env max)
  | createQueue q limit =>
    simp only [Manager.handle, ite_none_right_eq_some] at hstep
    obtain ⟨hnew,hm⟩ := hstep
    cases hm
    exact .inr (h.createQueue hnew limit)
  | updateQueue q limit =>
    cases hstep
    exact .inr (h.updateQueue q limit)
  | deleteQueue q =>
    cases hstep
    exact h.deleteQueue q
  | moveTaskToQueue t q =>
    cases hstep
    exact .inr (h.moveTaskToQueue t q)
  | invalidateBtSession =>
    cases hstep
    exact .inr (h.invalidateBtSession env)
  | taskDone t g retries =>
    simp only [Manager.handle, ite_none_right_eq_some] at hstep
    obtain ⟨-,hm⟩ := hstep
    cases hm
    exact .inr ((h.endSpawn t g).onTaskDone env t g retries)
  | resolveReady t g cancelled result =>
    simp only [Manager.handle, ite_none_right_eq_some] at hstep
    obtain ⟨⟨-,hnodup,hnew⟩,hm⟩ := hstep
    cases hm
    exact (h.endWorker t g).onResolveReady env t g cancelled result hnodup hnew
  | pluginRequestRetry t accepted =>
    cases hstep
    exact .inr (h.pluginRequestRetry accepted)
  | retryFires t =>
    simp only [Manager.handle, ite_none_right_eq_some] at hstep
    obtain ⟨-,hm⟩ := hstep
    cases hm
    exact .inr ((h.endTimer t).retryFires env t)
  | report t status message bytes =>
    simp only [Manager.handle, ite_none_right_eq_some] at hstep
    obtain ⟨-,hm⟩ := hstep
    cases hm
    exact .inr (h.updateRow t _ (fun _ => rfl))
  | seeding t code =>
    cases hstep
    exact .inr (h.updateRow t _ (fun _ => rfl))

omit [DecidableEq T] in
/-- At the end of a command, waiting with free room is recorded, and the record of a lowered limit
is kept only while the limit is exceeded. -/
theorem Sound.settle (h : Sound m) (hclean : m.settle.slipped = false) : Sound m.settle := by
  refine ⟨⟨h.placed.active_nodup,h.placed.queued_nodup,h.placed.apart,h.placed.active_queue,
    h.placed.queued_queue,h.placed.flushing,h.placed.resolving,?_⟩,.inr ?_,h.aimed⟩
  · intro hlowered hmax
    rcases Bool.and_eq_false_iff.mp hlowered with hlow | hwithin
    · exact h.placed.bounded hlow hmax
    · have hnot : ¬(m.maxConcurrent ≠ 0 ∧ m.maxConcurrent < m.httpActive) := by
        simpa using hwithin
      exact not_lt.mp (fun hlt => hnot ⟨hmax,hlt⟩)
  · change m.idle = false
    have hdrained : m.history.undrained = false := by
      have hidled := (Bool.or_eq_false_iff.mp (Bool.or_eq_false_iff.mp hclean).1).1
      exact (Bool.or_eq_false_iff.mp hidled).2
    exact h.conserving.resolve_left (by simp [hdrained])

/-- The step takes none of the turns that are recorded as wrong: it leaves no room that nothing
drains in front of a waiting task, starts no task unchecked that a check would have held back, and
deletes no queue in use. -/
def Clean (m : Manager T Q) (a : Choices T × Message T Q) : Prop :=
  (step m a).all (fun t => !t.slipped) = true

instance (m : Manager T Q) (a : Choices T × Message T Q) : Decidable (Clean m a) :=
  inferInstanceAs (Decidable (_ = true))

theorem Sound.step (h : Sound m) {a : Choices T × Message T Q} (hclean : Clean m a)
    (hstep : step m a = some m') : Sound m' := by
  obtain ⟨s,hs,rfl⟩ := map_eq_some_iff.mp hstep
  have hnot : s.settle.slipped = false := by
    simpa [Clean, hstep] using hclean
  refine Sound.settle ((h.handle a.2 hs).resolve_left ?_) hnot
  intro hslipped
  have hkept : s.settle.slipped = true := by
    simp only [Manager.slipped, Bool.or_eq_true] at hslipped ⊢
    exact hslipped.imp_left (Or.imp_left (fun hidled => by simp [Manager.settle, hidled]))
  simp [hkept] at hnot

omit [DecidableEq T] in
theorem sound_of_initial (h : Initial m) : Sound m := by
  have hids : m.activeIds = [] := by simp [Manager.activeIds, h.active]
  have hqids : m.queuedIds = [] := by simp [Manager.queuedIds, h.queue]
  refine ⟨⟨by simp [hids],by simp [hqids],by simp [hqids],by simp [h.active],by simp [h.queue],
    ?_,?_,?_⟩,.inr (by simp [Manager.idle, h.queue]),?_⟩
  · exact fun t ht => absurd (h.pauses t) ht
  · intro t q g hq
    rw [h.resolves t] at hq
    cases hq
  · intro _ _
    simp [Manager.httpActive, h.active]
  · intro t ht
    rw [h.target] at ht
    cases ht

/-- The schedule of the manager between two messages. -/
structure Scheduled (m : Manager T Q) : Prop where
  /-- The limit holds, unless it was lowered below the tasks that still run. -/
  bounded : m.history.lowered = false → m.maxConcurrent ≠ 0 → m.httpActive ≤ m.maxConcurrent
  queued_once : m.queuedIds.Nodup
  apart : ∀ t ∈ m.queuedIds, t ∉ m.activeIds
  active_queue : ∀ e ∈ m.activeTasks, m.queueOf e.taskId = some e.queueId
  queued_queue : ∀ q ∈ m.pendingQueue, m.queueOf q.taskId = some q.queueId
  /-- Nobody waits while both limits have room. -/
  conserving : ∀ q ∈ m.pendingQueue, ¬(m.hasCapacity ∧ m.hasQueueCapacity q.queueId)

/-- In every run of clean steps every state is scheduled. -/
theorem run_scheduled {init t : Manager T Q} {as : List (Choices T × Message T Q)}
    (hinit : Initial init) (hclean : Meets DownloadManager.step Clean init as)
    (hrun : exec DownloadManager.step init as = some t) : Scheduled t := by
  have hstep : ∀ (s : Manager T Q) a t, (Sound s ∧ s.history.undrained = false) → Clean s a →
      DownloadManager.step s a = some t → (Sound t ∧ t.history.undrained = false) := by
    rintro s a t ⟨hs,-⟩ hc ht
    obtain ⟨r,-,rfl⟩ := map_eq_some_iff.mp ht
    exact ⟨hs.step hc ht,rfl⟩
  have hstart : Sound init ∧ init.history.undrained = false :=
    ⟨sound_of_initial hinit,by rw [hinit.history]⟩
  obtain ⟨hsound,hdrained⟩ := exec_invariant_of_meets hstep hstart hclean hrun
  have hidle : t.idle = false :=
    hsound.conserving.resolve_left (fun h => by simp [hdrained] at h)
  refine ⟨hsound.placed.bounded,hsound.placed.queued_nodup,hsound.placed.apart,
    hsound.placed.active_queue,hsound.placed.queued_queue,?_⟩
  intro q hq hroom
  exact any_eq_false.mp hidle q hq (Bool.and_eq_true_iff.mpr hroom)

/-- An empty manager with the queue `5`, for one task at a time. -/
def depot : Manager ℕ ℕ where
  maxConcurrent := 2
  mainQueue := 0
  laterQueue := 1
  queues := fun q => if q = 5 then some 1 else if q < 2 then some 0 else none
  rows := fun _ => none
  activeTasks := []
  pendingQueue := []
  pendingPauses := fun _ => none
  pendingResolve := fun _ => none
  retryScheduled := []
  occupiedQueues := []
  priorityTaskId := none
  autoPausedIds := []
  generation := 0
  drained := []
  spawned := []
  resolveWorkers := []
  retryTimers := []
  pluginTimers := []
  history := ⟨false,[],[],false,false,false,false⟩

theorem initial_depot : Initial depot := by
  constructor <;> intros <;> first | rfl | exact ⟨rfl,rfl⟩

def calm : Choices ℕ := ⟨fun _ => false,fun _ => 1,fun _ ids => ids,fun _ ids => .refl ids⟩

def plainTask (q : ℕ) : NewTaskSpec ℕ := ⟨.http,false,q,false,false,false⟩

def twoTasks : List (Choices ℕ × Message ℕ ℕ) :=
  [(calm, .createTask 1 (plainTask 5)), (calm, .createTask 2 (plainTask 5))]

theorem run_scheduled_twoTasks :
    ∃ t, exec DownloadManager.step depot (twoTasks ++ [(calm, .pauseTask 1)]) = some t ∧
      Scheduled t := by
  have hclean : Meets DownloadManager.step Clean depot (twoTasks ++ [(calm, .pauseTask 1)]) := by
    decide +kernel
  have hrun : (exec DownloadManager.step depot (twoTasks ++ [(calm, .pauseTask 1)])).isSome := by
    decide +kernel
  exact (isSome_iff_exists.mp hrun).imp
    (fun _ h => ⟨h,run_scheduled initial_depot hclean h⟩)

/-- The second task waits for its queue only, and nothing starts it when the limit is raised. -/
theorem raised_limit_idles :
    ∃ t, exec DownloadManager.step depot (twoTasks ++ [(calm, .updateQueue 5 3)]) = some t ∧
      ¬Scheduled t := by
  have hrun : (exec DownloadManager.step depot (twoTasks ++ [(calm, .updateQueue 5 3)])).any
      Manager.idle = true := by
    decide +kernel
  obtain ⟨t,ht,hidle⟩ := (any_eq_true _ _).mp hrun
  refine ⟨t,ht,?_⟩
  intro hscheduled
  obtain ⟨q,hq,hroom⟩ := any_eq_true.mp hidle
  exact hscheduled.conserving q hq (Bool.and_eq_true_iff.mp hroom)

end Runs

end RinaDown.TaskScheduling
