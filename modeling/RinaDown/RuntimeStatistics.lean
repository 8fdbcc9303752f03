import RinaDown.AgentMirror

/-!
# Runtime statistics

The counters that the hub publishes are counted anew after every event, but the
speeds are kept under the ids of their tasks and follow the events on their own.
Both maps follow them in the same way.
-/

namespace RinaDown.RuntimeStatistics
open Std (TreeMap)
open LabelledExecutions DaemonProjection List
open AgentMirror (publishStep sampleSnapshot)

variable {Dto : DtoKind → Type}

/-! ## Capped sums -/

def total (speeds : TreeMap String ℤ) : ℤ := (speeds.toList.map Prod.snd).sum

theorem foldl_min_add {α : Type*} {cap : ℤ} (f : α → ℤ) (l : List α) (hf : ∀ a ∈ l, 0 ≤ f a) :
    ∀ {acc : ℤ}, acc ≤ cap →
      l.foldl (fun sum a => min (sum + f a) cap) acc = min (acc + (l.map f).sum) cap := by
  induction l with
  | nil =>
    intro acc hacc
    simp [hacc]
  | cons a l ih =>
    intro acc hacc
    have hrest : ∀ b ∈ l, 0 ≤ f b := fun b hb => hf b (mem_cons_of_mem a hb)
    have hsum : 0 ≤ (l.map f).sum := sum_nonneg (by simpa using hrest)
    rw [foldl_cons, ih hrest (min_le_right _ _), map_cons, sum_cons]
    omega

/-! ## Active tasks -/

/-- There is a task with this id, and it is downloading or being prepared. -/
def Active (s : DaemonSnapshot Dto) (taskId : String) : Prop :=
  ∃ t ∈ s.tasks, t.taskId = taskId ∧ isLive t.status = true

theorem mem_modifyFirst {α : Type} {p : α → Bool} {f : α → α} {l : List α} {a : α} (ha : a ∈ l) :
    a ∈ modifyFirst p f l ∨ p a = true ∧ f a ∈ modifyFirst p f l := by
  induction l with
  | nil => cases ha
  | cons b l ih =>
    rw [modifyFirst]
    rcases mem_cons.mp ha with rfl | hmem
    · by_cases hp : p a = true
      · simp [hp]
      · simp [hp]
    · by_cases hp : p b = true
      · simp [hp, hmem]
      · simpa [hp] using (ih hmem).imp .inr (And.imp_right .inr)

theorem of_mem_modifyFirst {α : Type} {p : α → Bool} {f : α → α} {l : List α} {b : α}
    (hb : b ∈ modifyFirst p f l) : b ∈ l ∨ ∃ a ∈ l, p a = true ∧ b = f a := by
  induction l with
  | nil => cases hb
  | cons a l ih =>
    rw [modifyFirst] at hb
    split_ifs at hb with hp
    · rcases mem_cons.mp hb with rfl | hmem
      · exact .inr ⟨a,mem_cons_self,hp,rfl⟩
      · exact .inl (mem_cons_of_mem a hmem)
    · rcases mem_cons.mp hb with rfl | hmem
      · exact .inl mem_cons_self
      · refine (ih hmem).imp (mem_cons_of_mem a) ?_
        exact fun ⟨c,hc,h⟩ => ⟨c,mem_cons_of_mem a hc,h⟩

theorem exists_mem_modifyFirst {α : Type} {p : α → Bool} {f : α → α} {l : List α}
    (h : ∃ a ∈ l, p a = true) : ∃ a ∈ l, p a = true ∧ f a ∈ modifyFirst p f l := by
  induction l with
  | nil => simp at h
  | cons b l ih =>
    rw [modifyFirst]
    by_cases hp : p b = true
    · exact ⟨b,mem_cons_self,hp,by simp [hp]⟩
    · obtain ⟨a,ha,hpa,hmem⟩ := ih (by simpa [hp] using h)
      exact ⟨a,mem_cons_of_mem b ha,hpa,by simp [hp, hmem]⟩

variable {s : DaemonSnapshot Dto} {taskId k : String}

theorem active_congr {s' : DaemonSnapshot Dto} (h : s'.tasks = s.tasks) (hk : Active s k) :
    Active s' k := by
  rw [Active, h]
  exact hk

theorem active_modifyTask {f : Task Dto → Task Dto} (hid : ∀ t, (f t).taskId = t.taskId)
    (hstatus : ∀ t, (f t).status = t.status) (hk : Active s k) : Active (s.modifyTask taskId f) k := by
  obtain ⟨t,ht,rfl,hlive⟩ := hk
  rcases mem_modifyFirst (p := fun t => t.taskId = taskId) (f := f) ht with hmem | ⟨-,hmem⟩
  · exact ⟨t,hmem,rfl,hlive⟩
  · exact ⟨f t,hmem,hid t,by rw [hstatus, hlive]⟩

theorem active_modifyTask_of_ne {f : Task Dto → Task Dto} (hne : k ≠ taskId) (hk : Active s k) :
    Active (s.modifyTask taskId f) k := by
  obtain ⟨t,ht,rfl,hlive⟩ := hk
  rcases mem_modifyFirst (p := fun t => t.taskId = taskId) (f := f) ht with hmem | ⟨heq,-⟩
  · exact ⟨t,hmem,rfl,hlive⟩
  · exact absurd (of_decide_eq_true heq) hne

theorem active_removeTask (hne : k ≠ taskId) (hk : Active s k) : Active (s.removeTask taskId) k := by
  obtain ⟨t,ht,rfl,hlive⟩ := hk
  exact ⟨t,mem_filter.mpr ⟨ht,by simpa using hne⟩,rfl,hlive⟩

theorem active_putTask_of_ne {task : Task Dto} (hne : k ≠ task.taskId) (hk : Active s k) :
    Active (s.putTask task) k := by
  rw [DaemonSnapshot.putTask]
  split_ifs
  · exact active_modifyTask_of_ne hne hk
  · exact hk.imp fun t ht => ⟨mem_append_left _ ht.1,ht.2⟩

theorem active_putTask {task : Task Dto} (hlive : isLive task.status = true) :
    Active (s.putTask task) task.taskId := by
  rw [DaemonSnapshot.putTask]
  split_ifs with hany
  · obtain ⟨t,-,-,hmem⟩ := exists_mem_modifyFirst (f := fun _ => task) (any_eq_true.mp hany)
    exact ⟨task,hmem,rfl,hlive⟩
  · exact ⟨task,mem_append_right _ mem_cons_self,rfl,hlive⟩

theorem active_setFileMissing (updates : List (String × Bool)) (hk : Active s k) :
    Active (updates.foldl DaemonSnapshot.setFileMissing s) k := by
  induction updates generalizing s with
  | nil => exact hk
  | cons u updates ih =>
    exact ih (active_modifyTask (fun _ => rfl) (fun _ => rfl) hk)

/-! ## One event -/

/-- A progress event with an active status names a task of the projection. -/
def Known (s : DaemonSnapshot Dto) : DaemonEvent Dto → Prop
  | .engine (.taskProgress m) => isLive m.status = true → ∃ t ∈ s.tasks, t.taskId = m.taskId
  | _ => True

def speedsAfter (reported : Progress → ℤ) (speeds : TreeMap String ℤ) :
    DaemonEvent Dto → TreeMap String ℤ
  | .snapshotReplaced _ => ∅
  | .taskDeleted taskId => speeds.erase taskId
  | .taskChanged task => if isLive task.status then speeds else speeds.erase task.taskId
  | .engine (.tasksSnapshot tasks) =>
    speeds.filter fun taskId _ => tasks.any (fun t => t.taskId = taskId && isLive t.status)
  | .engine (.taskProgress m) =>
    if isLive m.status then speeds.insert m.taskId (max (reported m) 0) else speeds.erase m.taskId
  | _ => speeds

theorem trackSpeeds_eq (s : EventState Dto) (e : DaemonEvent Dto) :
    trackSpeeds s e = { s with
      downloadSpeeds := speedsAfter Progress.speed s.downloadSpeeds e
      uploadSpeeds := speedsAfter Progress.uploadSpeed s.uploadSpeeds e } := by
  cases e with
  | taskChanged task =>
    rw [trackSpeeds, speedsAfter, speedsAfter]
    split_ifs <;> rfl
  | engine message =>
    cases message with
    | taskProgress m =>
      rw [trackSpeeds, speedsAfter, speedsAfter]
      split_ifs <;> rfl
    | _ => rfl
  | _ => rfl

/-- The speeds are those of active tasks, and none is negative. -/
def Tracks (s : DaemonSnapshot Dto) (speeds : TreeMap String ℤ) : Prop :=
  ∀ taskId v, speeds[taskId]? = some v → 0 ≤ v ∧ Active s taskId

variable {speeds : TreeMap String ℤ} {s' : DaemonSnapshot Dto}

theorem tracks_empty : Tracks s ∅ := by
  intro taskId v h
  simp at h

theorem Tracks.mono (h : Tracks s speeds) (hactive : ∀ k, Active s k → Active s' k) :
    Tracks s' speeds :=
  fun taskId v hv => (h taskId v hv).imp_right (hactive taskId)

theorem Tracks.erase (h : Tracks s speeds)
    (hactive : ∀ k, k ≠ taskId → Active s k → Active s' k) : Tracks s' (speeds.erase taskId) := by
  intro k v hv
  rw [TreeMap.getElem?_erase] at hv
  split_ifs at hv with heq
  have hne : k ≠ taskId := fun hk => heq (by simp [hk])
  exact (h k v hv).imp_right (hactive k hne)

theorem Tracks.insert (h : Tracks s speeds) {v : ℤ} (hv : 0 ≤ v) (hnew : Active s' taskId)
    (hactive : ∀ k, k ≠ taskId → Active s k → Active s' k) :
    Tracks s' (speeds.insert taskId v) := by
  intro k w hw
  rw [TreeMap.getElem?_insert] at hw
  split_ifs at hw with heq
  · cases hw
    rw [Std.LawfulEqCmp.compare_eq_iff_eq] at heq
    exact ⟨hv,heq ▸ hnew⟩
  · have hne : k ≠ taskId := fun hk => heq (by simp [hk])
    exact (h k w hw).imp_right (hactive k hne)

theorem Tracks.retain (h : Tracks s speeds) (tasks : List (Task Dto)) :
    Tracks { s with tasks := tasks } (speeds.filter fun taskId _ =>
      tasks.any (fun t => t.taskId = taskId && isLive t.status)) := by
  intro k v hv
  rw [TreeMap.getElem?_filter', Option.filter_eq_some_iff] at hv
  obtain ⟨t,ht,hlive⟩ := any_eq_true.mp hv.2
  rw [Bool.and_eq_true, decide_eq_true_iff] at hlive
  exact ⟨(h k v hv.1).1,t,ht,hlive⟩

theorem tracks_taskProgress (reported : Progress → ℤ) (h : Tracks s speeds) {m : Progress}
    (hknown : Known s (.engine (.taskProgress m))) :
    Tracks (applyEvent s (.engine (.taskProgress m)))
      (speedsAfter reported speeds (.engine (.taskProgress m) : DaemonEvent Dto)) := by
  have hothers : ∀ k, k ≠ m.taskId → Active s k →
      Active (applyEvent s (.engine (.taskProgress m))) k := by
    intro k hne hk
    rw [applyEvent, applyEngineMessage]
    split_ifs
    · exact active_removeTask hne hk
    · exact active_modifyTask_of_ne hne hk
  rw [speedsAfter]
  split_ifs with hlive
  · refine h.insert (le_max_right _ _) ?_ hothers
    have hstatus : ¬ (m.status = 4 ∧ m.errorMessage = "deleted") := by
      intro hdeleted
      rw [hdeleted.1] at hlive
      cases hlive
    obtain ⟨t,ht,heq⟩ := hknown hlive
    obtain ⟨t,-,hid,hmem⟩ := exists_mem_modifyFirst (f := Task.progress m)
      (p := fun t : Task Dto => t.taskId = m.taskId) ⟨t,ht,decide_eq_true heq⟩
    rw [applyEvent, applyEngineMessage, if_neg hstatus]
    exact ⟨_,hmem,of_decide_eq_true hid,hlive⟩
  · exact h.erase hothers

theorem tracks_speedsAfter (reported : Progress → ℤ) (h : Tracks s speeds) {e : DaemonEvent Dto}
    (hknown : Known s e) : Tracks (applyEvent s e) (speedsAfter reported speeds e) := by
  cases e with
  | snapshotReplaced replacement => exact tracks_empty
  | taskDeleted taskId => exact h.erase fun k hne hk => active_removeTask hne hk
  | taskChanged task =>
    rw [speedsAfter]
    split_ifs with hlive
    · refine h.mono fun k hk => ?_
      by_cases heq : k = task.taskId
      · exact heq ▸ active_putTask hlive
      · exact active_putTask_of_ne heq hk
    · exact h.erase fun k hne hk => active_putTask_of_ne hne hk
  | engine message =>
    cases message with
    | taskProgress m => exact tracks_taskProgress reported h hknown
    | tasksSnapshot tasks => exact h.retain tasks
    | taskMetaProbed taskId fileName totalBytes | taskQueueChanged taskId queueId
    | taskRouteChanged taskId route =>
      exact h.mono fun k hk => active_modifyTask (fun _ => rfl) (fun _ => rfl) hk
    | fileMissingChanged updates => exact h.mono fun k hk => active_setFileMissing updates hk
    | _ => exact h.mono fun k hk => active_congr rfl hk
  | _ => exact h.mono fun k hk => active_congr rfl hk

/-- A progress event that names no task leaves a speed under its id. -/
theorem ghost_of_not_known (reported : Progress → ℤ) (speeds : TreeMap String ℤ)
    {e : DaemonEvent Dto} (h : ¬ Known s e) : ∃ taskId,
      taskId ∈ speedsAfter reported speeds e ∧ ¬ Active (applyEvent s e) taskId := by
  cases e with
  | engine message =>
    cases message with
    | taskProgress m =>
      rw [Known, Classical.not_imp] at h
      obtain ⟨hlive,hnone⟩ := h
      refine ⟨m.taskId,?_,fun ⟨t,ht,hid,_⟩ => hnone ?_⟩
      · rw [speedsAfter, if_pos hlive]
        exact TreeMap.mem_insert_self
      · rw [applyEvent, applyEngineMessage] at ht
        split_ifs at ht
        · exact ⟨t,mem_of_mem_filter ht,hid⟩
        · rcases of_mem_modifyFirst ht with hmem | ⟨u,hmem,heq,-⟩
          · exact ⟨t,hmem,hid⟩
          · exact ⟨u,hmem,of_decide_eq_true heq⟩
    | _ => exact absurd trivial h
  | _ => exact absurd trivial h

theorem sumSpeeds_eq (h : Tracks s speeds) : sumSpeeds speeds = min (total speeds) (2 ^ 63 - 1) := by
  have hpos : ∀ p ∈ speeds.toList, 0 ≤ p.2 := fun p hp =>
    (h p.1 p.2 (TreeMap.mem_toList_iff_getElem?_eq_some.mp hp)).1
  rw [sumSpeeds, foldl_min_add Prod.snd speeds.toList hpos (by decide), zero_add, total]

/-! ## Runs -/

def newState (snapshot : DaemonSnapshot Dto) : EventState Dto := ⟨snapshot,∅,∅⟩

/-- The statistics are those of the tasks and of the speeds, as far as their fields can hold them,
and every speed is that of an active task. -/
structure Agrees (s : EventState Dto) : Prop where
  activeTasks : s.snapshot.runtimeStats.activeTasks =
    min (s.snapshot.tasks.countP fun t => isLive t.status) (2 ^ 32 - 1)
  pendingTasks : s.snapshot.runtimeStats.pendingTasks =
    min (s.snapshot.tasks.countP fun t => t.status = 0) (2 ^ 32 - 1)
  downloadSpeeds : ∀ taskId ∈ s.downloadSpeeds, Active s.snapshot taskId
  uploadSpeeds : ∀ taskId ∈ s.uploadSpeeds, Active s.snapshot taskId
  totalDownloadBps : s.snapshot.runtimeStats.totalDownloadBps =
    min (total s.downloadSpeeds) (2 ^ 63 - 1)
  totalUploadBps : s.snapshot.runtimeStats.totalUploadBps = min (total s.uploadSpeeds) (2 ^ 63 - 1)

/-- The snapshot that a hub is created with carries the statistics of its own tasks. -/
structure Counted (snapshot : DaemonSnapshot Dto) : Prop where
  activeTasks : snapshot.runtimeStats.activeTasks =
    min (snapshot.tasks.countP fun t => isLive t.status) (2 ^ 32 - 1)
  pendingTasks : snapshot.runtimeStats.pendingTasks =
    min (snapshot.tasks.countP fun t => t.status = 0) (2 ^ 32 - 1)
  totalDownloadBps : snapshot.runtimeStats.totalDownloadBps = 0
  totalUploadBps : snapshot.runtimeStats.totalUploadBps = 0

def Sound (s : EventState Dto) : Prop :=
  Tracks s.snapshot s.downloadSpeeds ∧ Tracks s.snapshot s.uploadSpeeds

theorem Tracks.active (h : Tracks s speeds) : ∀ taskId ∈ speeds, Active s taskId := by
  intro taskId hmem
  exact (h taskId _ (TreeMap.getElem?_eq_some_getElem hmem)).2

theorem total_empty : total ∅ = 0 := rfl

theorem agrees_newState_iff {snapshot : DaemonSnapshot Dto} :
    Agrees (newState snapshot) ↔ Counted snapshot := by
  have hcap : min (total ∅) (2 ^ 63 - 1) = 0 := by
    rw [total_empty]
    decide
  constructor
  · intro h
    exact ⟨h.activeTasks,h.pendingTasks,h.totalDownloadBps.trans hcap,h.totalUploadBps.trans hcap⟩
  · intro h
    exact ⟨h.activeTasks,h.pendingTasks,tracks_empty.active,tracks_empty.active,
      h.totalDownloadBps.trans hcap.symm,h.totalUploadBps.trans hcap.symm⟩

section Publish

variable {s : EventState Dto} {e : DaemonEvent Dto}

theorem publish_tasks : (s.publish e).snapshot.tasks = (applyEvent s.snapshot e).tasks := by
  obtain ⟨stats,hstats⟩ := publish_snapshot s e
  rw [hstats]
  rfl

theorem publish_downloadSpeeds :
    (s.publish e).downloadSpeeds = speedsAfter Progress.speed s.downloadSpeeds e := by
  rw [EventState.publish, EventState.applyRuntimeStats, trackSpeeds_eq]

theorem publish_uploadSpeeds :
    (s.publish e).uploadSpeeds = speedsAfter Progress.uploadSpeed s.uploadSpeeds e := by
  rw [EventState.publish, EventState.applyRuntimeStats, trackSpeeds_eq]

theorem active_publish_iff :
    Active (s.publish e).snapshot k ↔ Active (applyEvent s.snapshot e) k := by
  rw [Active, publish_tasks, Active]

theorem sound_publish (h : Sound s) (hknown : Known s.snapshot e) : Sound (s.publish e) := by
  constructor
  · rw [publish_downloadSpeeds]
    exact (tracks_speedsAfter _ h.1 hknown).mono fun k => active_publish_iff.mpr
  · rw [publish_uploadSpeeds]
    exact (tracks_speedsAfter _ h.2 hknown).mono fun k => active_publish_iff.mpr

/-- The totals are the sums of the speeds behind the event, and not of those before it. -/
theorem agrees_publish (h : Sound (s.publish e)) : Agrees (s.publish e) where
  activeTasks := rfl
  pendingTasks := rfl
  downloadSpeeds := h.1.active
  uploadSpeeds := h.2.active
  totalDownloadBps := sumSpeeds_eq h.1
  totalUploadBps := sumSpeeds_eq h.2

theorem agrees_publish_iff (h : Sound s) : Agrees (s.publish e) ↔ Known s.snapshot e := by
  constructor
  · intro hagrees
    by_contra hknown
    obtain ⟨taskId,hmem,hactive⟩ := ghost_of_not_known Progress.speed s.downloadSpeeds hknown
    rw [← publish_downloadSpeeds] at hmem
    exact hactive (active_publish_iff.mp (hagrees.downloadSpeeds taskId hmem))
  · intro hknown
    exact agrees_publish (sound_publish h hknown)

end Publish

theorem agrees_run_iff {s : EventState Dto} (h : Sound s) (es : List (DaemonEvent Dto)) :
    (∀ fs, fs <+: es → Agrees (fs.foldl EventState.publish s)) ↔
      Agrees s ∧ Meets publishStep (fun s e => Known s.snapshot e) s es := by
  induction es generalizing s with
  | nil => simp [prefix_nil]
  | cons e es ih =>
    rw [meets_cons]
    constructor
    · intro hall
      have hone := hall [e] ⟨es,rfl⟩
      have hknown := (agrees_publish_iff h).mp hone
      refine ⟨hall [] List.nil_prefix,hknown,fun t ht => ?_⟩
      cases ht
      refine ((ih (sound_publish h hknown)).mp fun fs hfs => ?_).2
      exact hall (e :: fs) (cons_prefix_cons.mpr ⟨rfl,hfs⟩)
    · rintro ⟨hagrees,hknown,hrest⟩ fs hfs
      cases fs with
      | nil => exact hagrees
      | cons f fs =>
        obtain ⟨rfl,hpre⟩ := cons_prefix_cons.mp hfs
        have hsound := sound_publish h hknown
        exact (ih hsound).mpr ⟨agrees_publish hsound,hrest _ rfl⟩ fs hpre

/-- The statistics agree with the projection from the creation of the hub and after every event,
if and only if the first snapshot carries its own statistics and every progress event with an
active status names a task of the projection. -/
theorem runtime_stats_agree_iff (snapshot : DaemonSnapshot Dto) (es : List (DaemonEvent Dto)) :
    (∀ fs, fs <+: es → Agrees (fs.foldl EventState.publish (newState snapshot))) ↔
      Counted snapshot ∧ Meets publishStep (fun s e => Known s.snapshot e) (newState snapshot) es := by
  rw [agrees_run_iff ⟨tracks_empty,tracks_empty⟩, agrees_newState_iff]

/-! ## A late progress event -/

def progressOf (status : ℤ) (errorMessage : String) (speed : ℤ) : Progress :=
  ⟨"t",status,5,9,speed,0,"","","",errorMessage,0,0,"",0⟩

/-- The task is deleted, and a worker that was still running reports its last speed. -/
def lateProgress : List (DaemonEvent (fun _ => Unit)) :=
  [.engine (.taskProgress (progressOf 4 "deleted" 0)), .engine (.taskProgress (progressOf 1 "" 4096))]

theorem ghost_speed_remains :
    ¬ Agrees (lateProgress.foldl EventState.publish (newState sampleSnapshot)) ∧
    (lateProgress.foldl EventState.publish (newState sampleSnapshot)).snapshot.tasks.length = 0 ∧
    (lateProgress.foldl EventState.publish
      (newState sampleSnapshot)).snapshot.runtimeStats.totalDownloadBps = 4096 := by
  refine ⟨fun h => ?_,by decide +kernel,by decide +kernel⟩
  have hactive := h.downloadSpeeds "t" (by decide +kernel)
  obtain ⟨t,ht,-⟩ := hactive
  have hnone : (lateProgress.foldl EventState.publish (newState sampleSnapshot)).snapshot.tasks = [] :=
    eq_nil_of_length_eq_zero (by decide +kernel)
  rw [hnone] at ht
  cases ht

end RinaDown.RuntimeStatistics
