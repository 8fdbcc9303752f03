import RinaDown.DownloadManager

/-!
# The scheduling invariant

Every entry is in one place, under the queue that the database names; the limit
is respected; and nobody waits in front of free room. A start is the only step
that takes a slot, `drain_queue` the only one that fills all of them, and every
command is a composition of a few primitive changes with these two.
-/

namespace RinaDown.TaskScheduling
open WaitingList DownloadManager List Function
open TaskManager (TaskStatus PendingPause)

universe u v

variable {T : Type u} {Q : Type v}
variable {m m' : Manager T Q} {env : Choices T} {t : T}

/-- Where the tasks are, and what the entries say. -/
structure Placed (m : Manager T Q) : Prop where
  active_nodup : m.activeIds.Nodup
  queued_nodup : m.queuedIds.Nodup
  apart : ∀ t ∈ m.queuedIds, t ∉ m.activeIds
  active_queue : ∀ e ∈ m.activeTasks, m.queueOf e.taskId = some e.queueId
  queued_queue : ∀ q ∈ m.pendingQueue, m.queueOf q.taskId = some q.queueId
  /-- A task that still flushes is nowhere else. -/
  flushing : ∀ t, m.pendingPauses t ≠ none →
    t ∉ m.activeIds ∧ t ∉ m.queuedIds ∧ m.pendingResolve t = none
  resolving : ∀ t q g, m.pendingResolve t = some (.start q g) → q.taskId = t
  bounded : m.history.lowered = false → m.maxConcurrent ≠ 0 → m.httpActive ≤ m.maxConcurrent

/-- Nobody waits in front of free room, unless a change that gave it has not been drained yet. -/
def Conserving [DecidableEq Q] (m : Manager T Q) : Prop :=
  m.history.undrained = true ∨ m.idle = false

/-- The fields of a row that no start or resume changes. -/
def origin (row : TaskInfo Q) : Q × UrlKind × Bool := (row.queueId, row.url, row.resolver)

/-- What a start, a resume and `drain_queue` leave alone. -/
structure Steady (m m' : Manager T Q) : Prop where
  maxConcurrent : m'.maxConcurrent = m.maxConcurrent
  queues : m'.queues = m.queues
  lowered : m'.history.lowered = m.history.lowered
  slipped : m'.slipped = m.slipped
  priorityTaskId : m'.priorityTaskId = m.priorityTaskId
  autoPausedIds : m'.autoPausedIds = m.autoPausedIds
  origins : ∀ t, (m'.rows t).map origin = (m.rows t).map origin
  pauses : ∀ t, m'.pendingPauses t = none ↔ m.pendingPauses t = none

theorem Steady.refl (m : Manager T Q) : Steady m m :=
  ⟨rfl,rfl,rfl,rfl,rfl,rfl,fun _ => rfl,fun _ => .rfl⟩

theorem Steady.trans {m m' m'' : Manager T Q} (h : Steady m m') (h' : Steady m' m'') :
    Steady m m'' where
  maxConcurrent := h'.maxConcurrent.trans h.maxConcurrent
  queues := h'.queues.trans h.queues
  lowered := h'.lowered.trans h.lowered
  slipped := h'.slipped.trans h.slipped
  priorityTaskId := h'.priorityTaskId.trans h.priorityTaskId
  autoPausedIds := h'.autoPausedIds.trans h.autoPausedIds
  origins := fun t => (h'.origins t).trans (h.origins t)
  pauses := fun t => (h'.pauses t).trans (h.pauses t)

theorem queueOf_eq_origin (m : Manager T Q) (t : T) :
    m.queueOf t = ((m.rows t).map origin).map Prod.fst := by
  simp [Manager.queueOf, comp_def, origin]

theorem Steady.queueOf (h : Steady m m') (t : T) : m'.queueOf t = m.queueOf t := by
  simp [queueOf_eq_origin, h.origins t]

variable [DecidableEq T]

/-- Rows change only in the fields that a start may write. -/
theorem steady_updateRow (f : TaskInfo Q → TaskInfo Q) (hf : ∀ row, origin (f row) = origin row) :
    Steady m (m.updateRow t f) := by
  refine ⟨rfl,rfl,rfl,rfl,rfl,rfl,?_,fun _ => .rfl⟩
  intro i
  by_cases hi : i = t
  · subst hi
    simp [Manager.updateRow, comp_def, hf]
  · simp [Manager.updateRow, update_of_ne hi]

theorem steady_updateTaskStatus (status : TaskStatus) (message : ErrorMessage) :
    Steady m (m.updateTaskStatus t status message) :=
  steady_updateRow _ (fun _ => rfl)

omit [DecidableEq T] in
theorem Placed.mono (h : Placed m) (hactive : m'.activeTasks.Sublist m.activeTasks)
    (hqueued : m'.pendingQueue.Sublist m.pendingQueue)
    (hqueue : ∀ t, t ∈ m'.activeIds ∨ t ∈ m'.queuedIds → m'.queueOf t = m.queueOf t)
    (hpauses : ∀ t, m'.pendingPauses t ≠ none → m.pendingPauses t ≠ none)
    (hresolves : ∀ t, m'.pendingResolve t = none ∨ m'.pendingResolve t = m.pendingResolve t)
    (hmax : m'.maxConcurrent = m.maxConcurrent)
    (hlowered : m'.history.lowered = m.history.lowered) : Placed m' := by
  have hids : m'.activeIds.Sublist m.activeIds := hactive.map _
  have hqids : m'.queuedIds.Sublist m.queuedIds := hqueued.map _
  refine ⟨h.active_nodup.sublist hids,h.queued_nodup.sublist hqids,?_,?_,?_,?_,?_,?_⟩
  · intro t ht ht'
    exact h.apart t (hqids.subset ht) (hids.subset ht')
  · intro e he
    rw [hqueue e.taskId (.inl (mem_map_of_mem he))]
    exact h.active_queue e (hactive.subset he)
  · intro q hq
    rw [hqueue q.taskId (.inr (mem_map_of_mem hq))]
    exact h.queued_queue q (hqueued.subset hq)
  · intro t ht
    obtain ⟨ha,hq,hr⟩ := h.flushing t (hpauses t ht)
    refine ⟨fun h' => ha (hids.subset h'),fun h' => hq (hqids.subset h'),?_⟩
    rcases hresolves t with hnone | hsame
    · exact hnone
    · rw [hsame, hr]
  · intro t q g hqg
    rcases hresolves t with hnone | hsame
    · rw [hnone] at hqg
      cases hqg
    · exact h.resolving t q g (hsame ▸ hqg)
  · intro hlow hne
    rw [hmax] at hne ⊢
    exact le_trans hactive.countP_le (h.bounded (hlowered ▸ hlow) hne)

omit [DecidableEq T] in
theorem Placed.congr (h : Placed m) (hactive : m'.activeTasks = m.activeTasks)
    (hqueued : m'.pendingQueue = m.pendingQueue) (hrows : m'.rows = m.rows)
    (hpauses : m'.pendingPauses = m.pendingPauses)
    (hresolves : m'.pendingResolve = m.pendingResolve)
    (hmax : m'.maxConcurrent = m.maxConcurrent)
    (hlowered : m'.history.lowered = m.history.lowered) : Placed m' := by
  refine h.mono (by rw [hactive]) (by rw [hqueued]) ?_ ?_ ?_ hmax hlowered
  · intro t _
    rw [Manager.queueOf, Manager.queueOf, hrows]
  · intro t ht
    rwa [hpauses] at ht
  · intro t
    rw [hresolves]
    exact .inr rfl

theorem Placed.removeActive (h : Placed m) (t : T) : Placed (m.removeActive t) :=
  h.mono filter_sublist (.refl _) (fun _ _ => rfl) (fun _ h => h) (fun _ => .inr rfl) rfl rfl

theorem not_mem_activeIds_removeActive (m : Manager T Q) (t : T) :
    t ∉ (m.removeActive t).activeIds := by
  simp [Manager.removeActive, Manager.activeIds]

theorem activeTasks_removeActive (h : t ∉ m.activeIds) :
    (m.removeActive t).activeTasks = m.activeTasks := by
  refine filter_eq_self.mpr ?_
  intro e he
  have hne : e.taskId ≠ t := fun hte => h (hte ▸ mem_map_of_mem he)
  simpa using hne

theorem hasCapacity_removeActive (h : t ∉ m.activeIds) :
    (m.removeActive t).hasCapacity = m.hasCapacity := by
  simp only [Manager.hasCapacity, Manager.httpActive, activeTasks_removeActive h]
  rfl

theorem mem_activeIds_removeActive {i : T} :
    i ∈ (m.removeActive t).activeIds ↔ i ∈ m.activeIds ∧ i ≠ t := by
  simp only [Manager.removeActive, Manager.activeIds, mem_map, mem_filter,
    decide_eq_true_eq]
  constructor
  · rintro ⟨e,⟨he,hne⟩,rfl⟩
    exact ⟨⟨e,he,rfl⟩,hne⟩
  · rintro ⟨⟨e,he,rfl⟩,hne⟩
    exact ⟨e,⟨he,hne⟩,rfl⟩

theorem Placed.removeQueued (h : Placed m) (t : T) : Placed (m.removeQueued t) :=
  h.mono (.refl _) eraseP_sublist (fun _ _ => rfl) (fun _ h => h) (fun _ => .inr rfl) rfl rfl

theorem not_mem_eraseP {ids : List (QueuedTask T Q)} (h : (ids.map QueuedTask.taskId).Nodup)
    (t : T) : t ∉ (ids.eraseP (fun q => q.taskId = t)).map QueuedTask.taskId := by
  induction ids with
  | nil => simp
  | cons q rest ih =>
    rw [map_cons, nodup_cons] at h
    by_cases hq : q.taskId = t
    · rw [eraseP_cons_of_pos (by simpa using hq)]
      exact hq ▸ h.1
    · rw [eraseP_cons_of_neg (by simpa using hq), map_cons, mem_cons, not_or]
      exact ⟨Ne.symm hq,ih h.2⟩

theorem Placed.not_mem_removeQueued (h : Placed m) (t : T) : t ∉ (m.removeQueued t).queuedIds :=
  not_mem_eraseP h.queued_nodup t

theorem Placed.clearPendingResolve (h : Placed m) (t : T) : Placed (m.clearPendingResolve t) := by
  refine h.mono (.refl _) (.refl _) (fun _ _ => rfl) (fun _ h => h) ?_ rfl rfl
  intro i
  by_cases hi : i = t
  · exact .inl (by simp [Manager.clearPendingResolve, hi])
  · exact .inr (by simp [Manager.clearPendingResolve, update_of_ne hi])

theorem Placed.updateRow (h : Placed m) (t : T) (f : TaskInfo Q → TaskInfo Q)
    (hf : ∀ row, origin (f row) = origin row) : Placed (m.updateRow t f) :=
  h.mono (.refl _) (.refl _) (fun i _ => (steady_updateRow f hf).queueOf i) (fun _ h => h)
    (fun _ => .inr rfl) rfl rfl

theorem Placed.updateTaskStatus (h : Placed m) (t : T) (status : TaskStatus)
    (message : ErrorMessage) : Placed (m.updateTaskStatus t status message) :=
  h.updateRow t _ (fun _ => rfl)

theorem Placed.setPendingPause (h : Placed m) {p : PendingPause} (ha : t ∉ m.activeIds)
    (hq : t ∉ m.queuedIds) (hr : m.pendingResolve t = none) :
    Placed (m.setPendingPause t (some p)) := by
  refine ⟨h.active_nodup,h.queued_nodup,h.apart,h.active_queue,h.queued_queue,?_,h.resolving,
    h.bounded⟩
  intro i hi
  by_cases hit : i = t
  · subst hit
    exact ⟨ha,hq,hr⟩
  · exact h.flushing i (by simpa [Manager.setPendingPause, update_of_ne hit] using hi)

theorem Placed.changePendingPause (h : Placed m) {p : PendingPause}
    (hp : m.pendingPauses t = some p) (p' : Option PendingPause) :
    Placed (m.setPendingPause t p') := by
  refine h.mono (.refl _) (.refl _) (fun _ _ => rfl) ?_ (fun _ => .inr rfl) rfl rfl
  intro i hi
  by_cases hit : i = t
  · subst hit
    simp [hp]
  · simpa [Manager.setPendingPause, update_of_ne hit] using hi

theorem Placed.insertActive (h : Placed m) {e : ActiveTaskEntry T Q} (hq : e.taskId ∉ m.queuedIds)
    (hp : m.pendingPauses e.taskId = none) (hqueue : m.queueOf e.taskId = some e.queueId)
    (hroom : e.isBt ∨ m.history.lowered ∨ (m.removeActive e.taskId).hasCapacity) :
    Placed (m.insertActive e) := by
  have hr := h.removeActive e.taskId
  have hids : (m.insertActive e).activeIds = e.taskId :: (m.removeActive e.taskId).activeIds := rfl
  refine ⟨?_,h.queued_nodup,?_,?_,h.queued_queue,?_,h.resolving,?_⟩
  · rw [hids]
    exact nodup_cons.mpr ⟨not_mem_activeIds_removeActive m e.taskId,hr.active_nodup⟩
  · intro i hi
    rw [hids, mem_cons, not_or]
    exact ⟨fun hie => hq (hie ▸ hi),hr.apart i hi⟩
  · intro d hd
    rcases mem_cons.mp hd with rfl | hd
    · exact hqueue
    · exact hr.active_queue d hd
  · intro i hi
    obtain ⟨ha,hqi,hri⟩ := hr.flushing i hi
    refine ⟨?_,hqi,hri⟩
    rw [hids, mem_cons, not_or]
    exact ⟨fun hie => hi (hie ▸ hp),ha⟩
  · intro hlow hne
    have hcount : (m.insertActive e).httpActive =
        (m.removeActive e.taskId).httpActive + if e.isBt then 0 else 1 := by
      cases hbt : e.isBt with
      | true | false => simp [Manager.insertActive, Manager.httpActive, Manager.removeActive, hbt]
    rw [hcount]
    change _ ≤ m.maxConcurrent
    cases hbt : e.isBt with
    | true => exact hr.bounded hlow hne
    | false =>
      have hcap : (m.removeActive e.taskId).hasCapacity := by
        simpa [hbt, show m.history.lowered = false from hlow] using hroom
      have hlt : (m.removeActive e.taskId).httpActive < (m.removeActive e.taskId).maxConcurrent := by
        simpa [Manager.hasCapacity, show (m.removeActive e.taskId).maxConcurrent ≠ 0 from hne]
          using hcap
      exact hlt

omit [DecidableEq T] in
theorem Placed.pushQueued (h : Placed m) {q : QueuedTask T Q} (ha : q.taskId ∉ m.activeIds)
    (hq : q.taskId ∉ m.queuedIds) (hp : m.pendingPauses q.taskId = none)
    (hqueue : m.queueOf q.taskId = some q.queueId) : Placed (m.pushQueued q) := by
  have hids : (m.pushQueued q).queuedIds = m.queuedIds ++ [q.taskId] := by
    simp [Manager.pushQueued, Manager.queuedIds]
  refine ⟨h.active_nodup,?_,?_,h.active_queue,?_,?_,h.resolving,h.bounded⟩
  · rw [hids]
    exact nodup_append.mpr ⟨h.queued_nodup,nodup_singleton _,by
      rintro i hi j hj rfl
      exact hq (mem_singleton.mp hj ▸ hi)⟩
  · intro i hi
    rw [hids, mem_append, mem_singleton] at hi
    rcases hi with hi | rfl
    · exact h.apart i hi
    · exact ha
  · intro p hp'
    rcases mem_append.mp hp' with hp' | hp'
    · exact h.queued_queue p hp'
    · rw [mem_singleton.mp hp']
      exact hqueue
  · intro i hi
    obtain ⟨hai,hqi,hri⟩ := h.flushing i hi
    refine ⟨hai,?_,hri⟩
    rw [hids, mem_append, mem_singleton, not_or]
    exact ⟨hqi,fun hie => hi (hie ▸ hp)⟩

section Starts

/-- A task that may be started: it is in no other place, its row names the queue, and its slot is
there. -/
structure Startable (m : Manager T Q) (t : T) (isBt : Bool) (q : Q) : Prop where
  queued : t ∉ m.queuedIds
  pause : m.pendingPauses t = none
  queue : m.queueOf t = some q
  room : isBt ∨ m.history.lowered ∨ (m.removeActive t).hasCapacity

variable {isBt : Bool} {q : Q}

omit [DecidableEq T] in
theorem Placed.takeGeneration (h : Placed m) : Placed m.takeGeneration :=
  h.congr rfl rfl rfl rfl rfl rfl rfl

omit [DecidableEq T] in
theorem Placed.noteSpawn (h : Placed m) : Placed (m.noteSpawn t) :=
  h.congr rfl rfl rfl rfl rfl rfl rfl

theorem Placed.notePendingResolve (h : Placed m) {pending : PendingResolve T Q}
    (hp : m.pendingPauses t = none) (hid : ∀ q g, pending = .start q g → q.taskId = t) :
    Placed (m.notePendingResolve t pending) := by
  refine ⟨h.active_nodup,h.queued_nodup,h.apart,h.active_queue,h.queued_queue,?_,?_,
    h.bounded⟩
  · intro i hi
    have hit : i ≠ t := fun hit => hi (hit ▸ hp)
    obtain ⟨ha,hq,hr⟩ := h.flushing i hi
    exact ⟨ha,hq,by simpa [Manager.notePendingResolve, update_of_ne hit] using hr⟩
  · intro i p g hpg
    by_cases hit : i = t
    · subst hit
      exact hid p g (by simpa [Manager.notePendingResolve] using hpg)
    · exact h.resolving i p g
        (by simpa [Manager.notePendingResolve, update_of_ne hit] using hpg)

theorem Placed.spawnDownloader (h : Placed m) (hs : Startable m t isBt q) :
    Placed (m.spawnDownloader env t isBt q) := by
  simp only [Manager.spawnDownloader]
  split_ifs with hfails
  · exact (h.takeGeneration.removeActive t).updateTaskStatus t _ _
  · exact Placed.insertActive (e := ⟨t,_,true,isBt,q⟩) h.takeGeneration.noteSpawn hs.queued
      hs.pause hs.queue hs.room

variable {pending : ℕ → PendingResolve T Q} {queued : QueuedTask T Q}
  {applied : Option (Option UrlKind)} {P : T → Prop}

theorem Placed.beginResolve (h : Placed m) (hs : Startable m t isBt q)
    (hid : ∀ n p g, pending n = .start p g → p.taskId = t) :
    Placed (m.beginResolve t isBt q pending) :=
  Placed.insertActive (e := ⟨t,_,false,isBt,q⟩)
    (h.takeGeneration.notePendingResolve hs.pause (hid _)) hs.queued hs.pause hs.queue hs.room

theorem Placed.beginResolveStart (h : Placed m)
    (hs : Startable m queued.taskId queued.useBt queued.queueId) :
    Placed (m.beginResolveStart queued) := by
  refine h.beginResolve hs ?_
  intro n p g hp
  cases hp
  rfl

theorem Placed.doStartTask (h : Placed m)
    (hs : Startable m queued.taskId queued.useBt queued.queueId) :
    Placed (m.doStartTask env queued) := by
  unfold Manager.doStartTask
  split_ifs with hresolve
  · exact h.beginResolveStart hs
  · exact h.spawnDownloader hs

theorem Placed.doResumeTask (h : Placed m)
    (hs : ∀ row, m.rows t = some row → Startable m t (isBtUrl ((applied.getD none).getD row.url)) row.queueId) :
    Placed (m.doResumeTask env t applied) := by
  cases hrow : m.rows t with
  | none =>
    rw [Manager.doResumeTask_of_none m env t hrow]
    exact h
  | some row =>
    have hsr := hs row hrow
    rw [Manager.doResumeTask_of_row m env t hrow]
    split_ifs with hresolve
    · have hnone : applied = none := by simpa using (Bool.and_eq_true_iff.mp hresolve).2
      subst hnone
      exact h.beginResolve hsr (fun _ _ _ hp => by cases hp)
    · exact h.spawnDownloader hsr

/-- With a free slot, a task that is nowhere may start. -/
theorem startable_of_hasCapacity (ha : t ∉ m.activeIds) (hq : t ∉ m.queuedIds)
    (hp : m.pendingPauses t = none) (hqueue : m.queueOf t = some q) (hcap : m.hasCapacity) :
    Startable m t isBt q := by
  refine ⟨hq,hp,hqueue,.inr (.inr ?_)⟩
  rw [hasCapacity_removeActive ha]
  exact hcap

theorem Placed.startQueued (h : Placed m) (ha : queued.taskId ∉ m.activeIds)
    (hq : queued.taskId ∉ m.queuedIds) (hp : m.pendingPauses queued.taskId = none)
    (hqueue : m.queueOf queued.taskId = some queued.queueId) (hcap : m.hasCapacity) :
    Placed (m.startQueued env queued) := by
  unfold Manager.startQueued
  split_ifs with hresume
  · refine h.doResumeTask ?_
    intro row hrow
    refine startable_of_hasCapacity ha hq hp ?_ hcap
    simp [Manager.queueOf, hrow]
  · exact h.doStartTask (startable_of_hasCapacity ha hq hp hqueue hcap)

theorem steady_spawnDownloader : Steady m (m.spawnDownloader env t isBt q) := by
  simp only [Manager.spawnDownloader]
  split_ifs with hfails
  · have hdropped : Steady m (m.takeGeneration.removeActive t) :=
      ⟨rfl,rfl,rfl,rfl,rfl,rfl,fun _ => rfl,fun _ => .rfl⟩
    exact hdropped.trans (steady_updateRow _ (fun _ => rfl))
  · exact ⟨rfl,rfl,rfl,rfl,rfl,rfl,fun _ => rfl,fun _ => .rfl⟩

theorem steady_beginResolve :
    Steady m (m.beginResolve t isBt q pending) :=
  ⟨rfl,rfl,rfl,rfl,rfl,rfl,fun _ => rfl,fun _ => .rfl⟩

theorem steady_doStartTask : Steady m (m.doStartTask env queued) := by
  unfold Manager.doStartTask
  split_ifs with hresolve
  · exact steady_beginResolve
  · exact steady_spawnDownloader

theorem steady_doResumeTask :
    Steady m (m.doResumeTask env t applied) := by
  cases hrow : m.rows t with
  | none =>
    rw [Manager.doResumeTask_of_none m env t hrow]
    exact .refl m
  | some row =>
    rw [Manager.doResumeTask_of_row m env t hrow]
    split_ifs with hresolve
    · exact steady_beginResolve
    · exact steady_spawnDownloader

theorem steady_startQueued : Steady m (m.startQueued env queued) := by
  unfold Manager.startQueued
  split_ifs with hresume
  · exact steady_doResumeTask
  · exact steady_doStartTask

/-- The active tasks stay, so the others have no more room than before. -/
def Narrows (m m' : Manager T Q) : Prop := m.activeTasks.Sublist m'.activeTasks

omit [DecidableEq T] in
theorem Narrows.refl (m : Manager T Q) : Narrows m m := List.Sublist.refl _

theorem narrows_insertActive {e : ActiveTaskEntry T Q} (h : e.taskId ∉ m.activeIds) :
    Narrows m (m.insertActive e) := by
  have hfilter := activeTasks_removeActive h
  simp only [Manager.removeActive] at hfilter
  simp only [Narrows, Manager.insertActive, hfilter]
  exact sublist_cons_self e _

theorem narrows_spawnDownloader (h : t ∉ m.activeIds) :
    Narrows m (m.spawnDownloader env t isBt q) := by
  simp only [Manager.spawnDownloader]
  split_ifs with hfails
  · have hsame : (m.takeGeneration.removeActive t).activeTasks = m.activeTasks :=
      activeTasks_removeActive h
    have hkept : Narrows m (m.takeGeneration.removeActive t) := by
      rw [Narrows, hsame]
    exact hkept
  · exact narrows_insertActive (m := m.takeGeneration.noteSpawn t)
      (e := ⟨t,m.takeGeneration.generation,true,isBt,q⟩) h

theorem narrows_beginResolve (h : t ∉ m.activeIds) :
    Narrows m (m.beginResolve t isBt q pending) :=
  narrows_insertActive
    (m := m.takeGeneration.notePendingResolve t (pending m.takeGeneration.generation))
    (e := ⟨t,m.takeGeneration.generation,false,isBt,q⟩) h

theorem narrows_doResumeTask (h : t ∉ m.activeIds) :
    Narrows m (m.doResumeTask env t applied) := by
  cases hrow : m.rows t with
  | none =>
    rw [Manager.doResumeTask_of_none m env t hrow]
    exact .refl m
  | some row =>
    rw [Manager.doResumeTask_of_row m env t hrow]
    split_ifs with hresolve
    · exact narrows_beginResolve h
    · exact narrows_spawnDownloader h

theorem narrows_startQueued (h : queued.taskId ∉ m.activeIds) :
    Narrows m (m.startQueued env queued) := by
  unfold Manager.startQueued Manager.doStartTask
  split_ifs with hresume hresolve
  · exact narrows_doResumeTask h
  · exact narrows_beginResolve h
  · exact narrows_spawnDownloader h

omit [DecidableEq T] in
theorem Narrows.hasRoom_eq_false [DecidableEq Q] (h : Narrows m m')
    (hmax : m'.maxConcurrent = m.maxConcurrent)
    (hqueues : m'.queues = m.queues) {q : Q} (hroom : m.hasRoom q = false) :
    m'.hasRoom q = false := by
  rw [Manager.hasRoom, Bool.and_eq_false_iff] at hroom ⊢
  refine hroom.imp ?_ ?_
  · intro hcap
    simp only [Manager.hasCapacity, decide_eq_false_iff_not, hmax] at hcap ⊢
    have hcount : m.httpActive ≤ m'.httpActive := List.Sublist.countP_le h
    omega
  · intro hcap
    simp only [Manager.hasQueueCapacity, hqueues] at hcap ⊢
    cases hq : m.queues q with
    | none => simp [hq] at hcap
    | some limit =>
      have hcount : m.activeInQueue q ≤ m'.activeInQueue q := List.Sublist.countP_le h
      simp only [hq, decide_eq_false_iff_not] at hcap ⊢
      omega

def Present (m : Manager T Q) (t : T) : Prop := t ∈ m.activeIds ∨ t ∈ m.queuedIds

def Confined (P : T → Prop) (m m' : Manager T Q) : Prop :=
  ∀ i, Present m' i → Present m i ∨ P i

omit [DecidableEq T] in
theorem Confined.refl (P : T → Prop) (m : Manager T Q) : Confined P m m := fun _ h => .inl h

omit [DecidableEq T] in
theorem Confined.trans {m m' m'' : Manager T Q} (h : Confined P m m') (h' : Confined P m' m'') :
    Confined P m m'' :=
  fun i hi => (h' i hi).elim (h i) .inr

omit [DecidableEq T] in
theorem Confined.weaken {R : T → Prop} (h : Confined P m m') (hPR : ∀ i, P i → R i) :
    Confined R m m' :=
  fun i hi => (h i hi).imp_right (hPR i)

omit [DecidableEq T] in
theorem confined_of_sublist (hactive : m'.activeTasks.Sublist m.activeTasks)
    (hqueued : m'.pendingQueue.Sublist m.pendingQueue) : Confined P m m' :=
  fun _ hi => .inl (hi.imp (fun h => (hactive.map _).subset h) (fun h => (hqueued.map _).subset h))

theorem confined_insertActive (e : ActiveTaskEntry T Q) :
    Confined (fun i => i = e.taskId) m (m.insertActive e) := by
  intro i hi
  rcases hi with hi | hi
  · rcases mem_cons.mp hi with rfl | hi
    · exact .inr rfl
    · exact .inl (.inl (mem_activeIds_removeActive.mp hi).1)
  · exact .inl (.inr hi)

theorem confined_spawnDownloader :
    Confined (fun i => i = t) m (m.spawnDownloader env t isBt q) := by
  simp only [Manager.spawnDownloader]
  split_ifs with hfails
  · exact confined_of_sublist filter_sublist (.refl _)
  · exact confined_insertActive (m := m.takeGeneration.noteSpawn t)
      ⟨t,m.takeGeneration.generation,true,isBt,q⟩

theorem confined_beginResolve :
    Confined (fun i => i = t) m (m.beginResolve t isBt q pending) :=
  confined_insertActive
    (m := m.takeGeneration.notePendingResolve t (pending m.takeGeneration.generation))
    ⟨t,m.takeGeneration.generation,false,isBt,q⟩

theorem confined_doResumeTask :
    Confined (fun i => i = t) m (m.doResumeTask env t applied) := by
  cases hrow : m.rows t with
  | none =>
    rw [Manager.doResumeTask_of_none m env t hrow]
    exact .refl _ m
  | some row =>
    rw [Manager.doResumeTask_of_row m env t hrow]
    split_ifs with hresolve
    · exact confined_beginResolve
    · exact confined_spawnDownloader

theorem confined_doStartTask :
    Confined (fun i => i = queued.taskId) m (m.doStartTask env queued) := by
  unfold Manager.doStartTask
  split_ifs with hresolve
  · exact confined_beginResolve
  · exact confined_spawnDownloader

theorem confined_startQueued :
    Confined (fun i => i = queued.taskId) m (m.startQueued env queued) := by
  unfold Manager.startQueued
  split_ifs with hresume
  · exact confined_doResumeTask
  · exact confined_doStartTask

end Starts

section Drain

theorem spawnDownloader_setQueue {isBt : Bool} {q : Q} (pending : List (QueuedTask T Q)) :
    (m.setQueue pending).spawnDownloader env t isBt q =
      (m.spawnDownloader env t isBt q).setQueue pending := by
  simp only [Manager.spawnDownloader]
  split_ifs with hfails hfails' hfails'
  · rfl
  · exact absurd hfails hfails'
  · exact absurd hfails' hfails
  · rfl

theorem startQueued_setQueue (queued : QueuedTask T Q) (pending : List (QueuedTask T Q)) :
    (m.setQueue pending).startQueued env queued = (m.startQueued env queued).setQueue pending := by
  unfold Manager.startQueued Manager.doStartTask
  split_ifs with hresume hresolve
  · cases hrow : m.rows queued.taskId with
    | none =>
      rw [Manager.doResumeTask_of_none m env _ hrow,
        Manager.doResumeTask_of_none (m.setQueue pending) env _ hrow]
    | some row =>
      rw [Manager.doResumeTask_of_row m env _ hrow,
        Manager.doResumeTask_of_row (m.setQueue pending) env _ hrow]
      split_ifs with hresolve
      · rfl
      · exact spawnDownloader_setQueue pending
  · rfl
  · exact spawnDownloader_setQueue pending

variable [DecidableEq Q]

/-- What a turn of the loop does: keep the task for lack of room, drop it, or start it. -/
theorem drainOffer_cases (env : Choices T) (s : Manager T Q × Bool) (queued : QueuedTask T Q) :
    ((Manager.drainOffer env s queued).1.1 = s.1 ∧ (Manager.drainOffer env s queued).2 = true ∧
      (s.2 = true ∧ (Manager.drainOffer env s queued).1.2 = true ∨
        s.2 = false ∧ s.1.hasRoom queued.queueId = false ∧
          ((Manager.drainOffer env s queued).1.2 = true → s.1.hasCapacity = false))) ∨
    (Manager.drainOffer env s queued = (s, false) ∧ s.2 = false ∧
      queued.taskId ∈ s.1.activeIds) ∨
    (Manager.drainOffer env s queued = ((s.1.startQueued env queued, false), false) ∧
      s.2 = false ∧ queued.taskId ∉ s.1.activeIds ∧ s.1.hasRoom queued.queueId = true) := by
  unfold Manager.drainOffer
  split_ifs with hfull hcap hactive hqueue
  · exact .inl ⟨rfl,rfl,.inl ⟨hfull,hfull⟩⟩
  · have hnone : s.1.hasCapacity = false := by simpa using hcap
    exact .inl ⟨rfl,rfl,.inr ⟨by simpa using hfull,by simp [Manager.hasRoom, hnone],
      fun _ => hnone⟩⟩
  · exact .inr (.inl ⟨rfl,by simpa using hfull,hactive⟩)
  · have hnone : s.1.hasQueueCapacity queued.queueId = false := by simpa using hqueue
    exact .inl ⟨rfl,rfl,.inr ⟨by simpa using hfull,by simp [Manager.hasRoom, hnone],
      fun h => absurd h hfull⟩⟩
  · refine .inr (.inr ⟨rfl,by simpa using hfull,hactive,?_⟩)
    simp only [Bool.not_eq_true, Bool.not_eq_false'] at hcap hqueue
    simp [Manager.hasRoom, hcap, hqueue]

theorem steady_drainOffer (s : Manager T Q × Bool) (queued : QueuedTask T Q) :
    Steady s.1 (Manager.drainOffer env s queued).1.1 := by
  obtain ⟨hs,-⟩ | ⟨hs,-⟩ | ⟨hs,-⟩ := drainOffer_cases env s queued
  · rw [hs]
    exact .refl _
  · rw [hs]
    exact .refl _
  · rw [hs]
    exact steady_startQueued

theorem steady_drainQueue : Steady m (m.drainQueue env) := by
  have hloop := offerAll_rel (Manager.drainOffer env)
    (R := fun s s' : Manager T Q × Bool => Steady s.1 s'.1) (fun s => .refl s.1)
    (fun h h' => h.trans h') steady_drainOffer (m.setQueue [], false) m.pendingQueue
  exact ⟨hloop.maxConcurrent,hloop.queues,hloop.lowered,hloop.slipped,hloop.priorityTaskId,
    hloop.autoPausedIds,hloop.origins,hloop.pauses⟩

/-- The flag of the loop tells that the global limit is reached. -/
def FullFlag (s : Manager T Q × Bool) : Prop := s.2 = true → s.1.hasCapacity = false

theorem fullFlag_drainOffer {s : Manager T Q × Bool} (queued : QueuedTask T Q) (h : FullFlag s) :
    FullFlag (Manager.drainOffer env s queued).1 := by
  obtain ⟨hs,-,hflag⟩ | ⟨hs,-⟩ | ⟨hs,-⟩ := drainOffer_cases env s queued
  · intro hset
    rw [hs]
    exact hflag.elim (fun hf => h hf.1) (fun hf => hf.2.2 hset)
  · rw [hs]
    exact h
  · rw [hs]
    exact fun hset => absurd hset (by simp)

theorem idle_drainQueue (m : Manager T Q) (env : Choices T) :
    (m.drainQueue env).idle = false := by
  have hflag : FullFlag
      (offerAll (Manager.drainOffer env) (m.setQueue [], false) m.pendingQueue).1 :=
    offerAll_rel _ (R := fun s s' : Manager T Q × Bool => FullFlag s → FullFlag s')
      (fun _ h => h) (fun h h' hs => h' (h hs)) (fun s q => fullFlag_drainOffer q)
      _ _ (fun h => absurd h (by simp))
  have hblocked := offerAll_blocked (Manager.drainOffer env)
    (B := fun s q => FullFlag s → s.1.hasRoom q.queueId = false) ?_ ?_
    (m.setQueue [], false) m.pendingQueue
  · refine any_eq_false.mpr ?_
    intro q hq
    have hroom := hblocked q hq hflag
    exact Bool.eq_false_iff.mp hroom
  · intro s q hkeep hset
    obtain ⟨hs,-,hwhy⟩ | ⟨hs,-⟩ | ⟨hs,-⟩ := drainOffer_cases env s q
    · rcases hwhy with ⟨-,hfull⟩ | ⟨-,hroom,-⟩
      · simp [Manager.hasRoom, hset hfull]
      · rw [hs]
        exact hroom
    · simp [hs] at hkeep
    · simp [hs] at hkeep
  · intro s i j hj hset
    obtain ⟨hs,-,hwhy⟩ | ⟨hs,-⟩ | ⟨hs,hflag',hactive,-⟩ := drainOffer_cases env s i
    · have hpre : FullFlag s := by
        intro hfull
        rcases hwhy with ⟨-,hfull'⟩ | ⟨hnot,-⟩
        · exact hs ▸ hset hfull'
        · exact absurd hfull (by simp [hnot])
      rw [hs]
      exact hj hpre
    · rw [hs] at hset ⊢
      exact hj hset
    · have hroom := hj (fun h => absurd h (by simp [hflag']))
      rw [hs]
      have hsteady : Steady s.1 (s.1.startQueued env i) := steady_startQueued
      exact (narrows_startQueued hactive).hasRoom_eq_false hsteady.maxConcurrent hsteady.queues hroom

theorem placed_drainOffer {s : Manager T Q × Bool} {queued : QueuedTask T Q}
    {kept rest : List (QueuedTask T Q)} (h : Placed (s.1.setQueue (kept ++ queued :: rest))) :
    ((Manager.drainOffer env s queued).2 = true →
      Placed ((Manager.drainOffer env s queued).1.1.setQueue (kept ++ queued :: rest))) ∧
    ((Manager.drainOffer env s queued).2 = false →
      Placed ((Manager.drainOffer env s queued).1.1.setQueue (kept ++ rest))) := by
  have hsub : (kept ++ rest).Sublist (kept ++ queued :: rest) :=
    List.Sublist.append_left (sublist_cons_self queued rest) kept
  have hrest : Placed (s.1.setQueue (kept ++ rest)) :=
    h.mono (.refl _) hsub (fun _ _ => rfl) (fun _ h => h) (fun _ => .inr rfl) rfl rfl
  obtain ⟨hs,hkeep,-⟩ | ⟨hs,-⟩ | ⟨hs,-,hactive,hroom⟩ :=
    drainOffer_cases env s queued
  · rw [hkeep, hs]
    exact ⟨fun _ => h,fun h' => absurd h' (by simp)⟩
  · rw [hs]
    exact ⟨fun h' => absurd h' (by simp),fun _ => hrest⟩
  · rw [hs]
    refine ⟨fun h' => absurd h' (by simp),fun _ => ?_⟩
    rw [← startQueued_setQueue]
    have hmem : queued ∈ (s.1.setQueue (kept ++ queued :: rest)).pendingQueue :=
      mem_append_right _ mem_cons_self
    have hid : queued.taskId ∈ (s.1.setQueue (kept ++ queued :: rest)).queuedIds :=
      mem_map_of_mem hmem
    have hout : queued.taskId ∉ (s.1.setQueue (kept ++ rest)).queuedIds := by
      have hperm : (s.1.setQueue (kept ++ queued :: rest)).queuedIds.Perm
          (queued.taskId :: (s.1.setQueue (kept ++ rest)).queuedIds) :=
        perm_middle.map QueuedTask.taskId
      exact (nodup_cons.mp (hperm.nodup_iff.mp h.queued_nodup)).1
    have hpause : s.1.pendingPauses queued.taskId = none := by
      by_contra hsome
      exact (h.flushing _ hsome).2.1 hid
    exact hrest.startQueued hactive hout hpause (h.queued_queue queued hmem)
      (Bool.and_eq_true_iff.mp hroom).1

theorem Placed.drainQueue (h : Placed m) (env : Choices T) : Placed (m.drainQueue env) := by
  have hloop : Placed
      ((offerAll (Manager.drainOffer env) (m.setQueue [], false) m.pendingQueue).1.1.setQueue
        (offerAll (Manager.drainOffer env) (m.setQueue [], false) m.pendingQueue).2) := by
    refine offerAll_invariant _ (s := (m.setQueue [], false))
      (P := fun (s : Manager T Q × Bool) waiting => Placed (s.1.setQueue waiting)) ?_ ?_ h
    · exact fun s kept q rest hs hkeep => (placed_drainOffer hs).1 hkeep
    · exact fun s kept q rest hs htake => (placed_drainOffer hs).2 htake
  exact hloop.congr rfl rfl rfl rfl rfl rfl rfl

theorem confined_drainQueue (m : Manager T Q) (env : Choices T) :
    Confined (fun _ => False) m (m.drainQueue env) := by
  have hloop := offerAll_invariant (Manager.drainOffer env)
    (s := (m.setQueue [], false))
    (P := fun (s : Manager T Q × Bool) waiting =>
      Confined (fun _ => False) m (s.1.setQueue waiting)) ?_ ?_ (Confined.refl _ m)
  · exact hloop
  · intro s kept q rest hs hkeep
    obtain ⟨hm,-⟩ | ⟨hm,-⟩ | ⟨hm,-⟩ := drainOffer_cases env s q
    · rw [hm]
      exact hs
    · simp [hm] at hkeep
    · simp [hm] at hkeep
  · intro s kept q rest hs htake
    have hsub : (kept ++ rest).Sublist (kept ++ q :: rest) :=
      List.Sublist.append_left (sublist_cons_self q rest) kept
    have hrest : Confined (fun _ => False) m (s.1.setQueue (kept ++ rest)) :=
      hs.trans (confined_of_sublist (.refl _) hsub)
    obtain ⟨-,hkeep,-⟩ | ⟨hm,-⟩ | ⟨hm,-⟩ := drainOffer_cases env s q
    · simp [hkeep] at htake
    · rw [hm]
      exact hrest
    · rw [hm, ← startQueued_setQueue]
      intro i hi
      rcases confined_startQueued i hi with hi | rfl
      · exact hrest i hi
      · exact hs q.taskId (.inr (mem_map_of_mem (mem_append_right _ mem_cons_self)))

theorem Conserving.drainQueue (m : Manager T Q) (env : Choices T) :
    Conserving (m.drainQueue env) := .inr (idle_drainQueue m env)

omit [DecidableEq T] in
/-- A change is noted when it gives a waiting task room that was not there before. -/
theorem Conserving.noteChange {wanted : Bool}
    (h : m.history.undrained = true ∨ (m.idle = true → wanted = true)) :
    Conserving (m.noteChange wanted) := by
  rcases h with hundrained | hwanted
  · exact .inl (by simp [Manager.noteChange, hundrained])
  · cases hidle : m.idle with
    | true => exact .inl (by simp [Manager.noteChange, hwanted hidle])
    | false => exact .inr hidle

theorem Conserving.removeSlot (m : Manager T Q) (t : T) :
    Conserving ((m.removeActive t).noteChange (m.slotWanted t)) :=
  Conserving.noteChange (.inr id)

end Drain

end RinaDown.TaskScheduling
