import Mathlib.Data.List.Nodup
import Mathlib.Order.Nat
import RinaDown.TaskManager

/-!
# Consistency of the manager's entries

What the entries of one task say about each other in every state of every run:
generations only grow, an entry with a handle and a pending pause refer to the
newest downloader, and a pending pause excludes every other entry.
-/

namespace RinaDown.ManagerConsistency
open LabelledExecutions TaskManager List

def newest (m : Manager) : Option ℕ := m.spawns.head?.map Spawn.generation

structure Consistent (m : Manager) : Prop where
  sorted : m.spawns.Pairwise (fun a b => b.generation < a.generation)
  bounded : ∀ sp ∈ m.spawns, sp.generation ≤ m.generation
  workers : ∀ g ∈ m.resolveWorkers, g ≤ m.generation ∧ ∀ sp ∈ m.spawns, sp.generation ≠ g
  exited : ∀ sp ∈ m.spawns, sp.exited = true → sp.ended = true ∨ sp.cancelled = true
  active : ∀ e ∈ m.activeTask, e.handle = true → newest m = some e.generation
  placeholder : ∀ e ∈ m.activeTask, e.handle = false → ∀ sp ∈ m.spawns,
    sp.generation ≠ e.generation
  paused : ∀ p ∈ m.pendingPause, m.activeTask = none ∧ m.queued = none ∧ m.pendingResolve = none ∧
    newest m = some p.generation
  resolver : m.pendingResolve ≠ none → m.resolver = true
  gone : m.row = none → m.queued = none ∧ m.pendingResolve = none

variable {m t : Manager} {g : ℕ} {e : ActiveTaskEntry} {sp : Spawn}

theorem newest_updateSpawn {f : Spawn → Spawn} (hgen : ∀ sp, (f sp).generation = sp.generation) :
    newest (m.updateSpawn g f) = newest m := by
  unfold newest Manager.updateSpawn
  rw [head?_map, Option.map_map]
  apply congrArg (fun k => m.spawns.head?.map k)
  funext sp
  simp only [Function.comp_apply]
  split_ifs
  · exact hgen sp
  · rfl

namespace Consistent

theorem pendingPause_eq_none_of_queued (h : Consistent m) (hq : m.queued ≠ none) :
    m.pendingPause = none := by
  cases hp : m.pendingPause with
  | none => rfl
  | some p => exact absurd (h.paused p hp).2.1 hq

theorem pendingPause_eq_none_of_resolve (h : Consistent m) (hr : m.pendingResolve ≠ none) :
    m.pendingPause = none := by
  cases hp : m.pendingPause with
  | none => rfl
  | some p => exact absurd (h.paused p hp).2.2.1 hr

theorem pendingResolve_eq_none (h : Consistent m) (hr : m.resolver = false) :
    m.pendingResolve = none := by
  by_contra hne
  have hresolver := h.resolver hne
  simp [hr] at hresolver

theorem eraseWorker (h : Consistent m) (g : ℕ) :
    Consistent { m with resolveWorkers := m.resolveWorkers.erase g } :=
  { h with workers := fun g' hg' => h.workers g' (mem_of_mem_erase hg') }

/-- A spawn that does not resolve first finds nothing left to resolve. -/
theorem pendingResolve_of_spawn (h : Consistent m) {resolved : Bool}
    (hresolve : resolved = true → m.pendingResolve = none)
    (hbegin : ¬ (m.resolver && !resolved) = true) : m.pendingResolve = none := by
  cases hr : m.resolver with
  | false => exact h.pendingResolve_eq_none hr
  | true =>
    apply hresolve
    simpa [hr] using hbegin

theorem eq_of_generation (h : Consistent m) {a b : Spawn} (ha : a ∈ m.spawns) (hb : b ∈ m.spawns)
    (hgen : a.generation = b.generation) : a = b := by
  have hnodup : (m.spawns.map Spawn.generation).Nodup :=
    pairwise_map.mpr (h.sorted.imp (fun hab => Nat.ne_of_gt hab))
  exact inj_on_of_nodup_map hnodup ha hb hgen

/-! ### Row, queue and entries -/

theorem setRow (h : Consistent m) {row : Option TaskInfo} (hrow : row = none ↔ m.row = none) :
    Consistent { m with row := row } :=
  { h with gone := fun hnone => h.gone (hrow.mp hnone) }

theorem updateTaskStatus (h : Consistent m) (status : TaskStatus) (message : String) :
    Consistent (m.updateTaskStatus status message) :=
  h.setRow (by simp)

theorem persistPending (h : Consistent m) (row : Option TaskInfo) :
    Consistent (m.persistPending row) := by
  unfold Manager.persistPending
  split_ifs
  · exact h
  · exact h.updateTaskStatus _ _

theorem removeQueued (h : Consistent m) : Consistent m.removeQueued :=
  { h with
    paused := fun p hp => ⟨(h.paused p hp).1,rfl,(h.paused p hp).2.2⟩
    gone := fun hnone => ⟨rfl,(h.gone hnone).2⟩ }

theorem clearPendingResolve (h : Consistent m) : Consistent m.clearPendingResolve :=
  { h with
    paused := fun p hp => ⟨(h.paused p hp).1,(h.paused p hp).2.1,rfl,(h.paused p hp).2.2.2⟩
    resolver := fun hne => absurd rfl hne
    gone := fun hnone => ⟨(h.gone hnone).1,rfl⟩ }

theorem removeActive (h : Consistent m) : Consistent m.removeActive :=
  { h with
    active := by simp [Manager.removeActive]
    placeholder := by simp [Manager.removeActive]
    paused := fun p hp => ⟨rfl,(h.paused p hp).2⟩ }

theorem removeMatching (h : Consistent m) (g : ℕ) : Consistent (m.removeMatching g) := by
  unfold Manager.removeMatching
  split_ifs
  · exact h.removeActive
  · exact h

theorem pushQueued (h : Consistent m) (hrow : m.row ≠ none) (hpause : m.pendingPause = none)
    (q : QueuedTask) : Consistent (m.pushQueued q) :=
  { h with
    paused := by simp [Manager.pushQueued, hpause]
    gone := fun hnone => absurd hnone hrow }

theorem latch (h : Consistent m) {p q : PendingPause} (hp : m.pendingPause = some p)
    (hgen : q.generation = p.generation) : Consistent { m with pendingPause := some q } :=
  { h with
    paused := by
      intro q' hq'
      cases hq'
      exact hgen ▸ h.paused p hp }

theorem finish (h : Consistent m) : Consistent { m with pendingPause := none } :=
  { h with paused := by simp }

/-! ### Downloaders -/

theorem updateSpawn (h : Consistent m) {f : Spawn → Spawn}
    (hgen : ∀ sp, (f sp).generation = sp.generation)
    (hexited : ∀ sp ∈ m.spawns, sp.generation = g →
      (sp.exited = true → sp.ended = true ∨ sp.cancelled = true) →
      (f sp).exited = true → (f sp).ended = true ∨ (f sp).cancelled = true) :
    Consistent (m.updateSpawn g f) := by
  have hupdate : ∀ sp : Spawn,
      (if sp.generation = g then f sp else sp).generation = sp.generation := by
    intro sp
    split_ifs
    · exact hgen sp
    · rfl
  have hbound : ∀ sp' ∈ (m.updateSpawn g f).spawns, ∃ sp ∈ m.spawns,
      sp'.generation = sp.generation := by
    intro sp' hmem
    obtain ⟨sp,hsp,rfl⟩ := Manager.mem_updateSpawn.mp hmem
    exact ⟨sp,hsp,hupdate sp⟩
  constructor
  case sorted =>
    apply pairwise_map.mpr
    apply h.sorted.imp
    intro a b hab
    rw [hupdate, hupdate]
    exact hab
  case bounded =>
    intro sp' hmem
    obtain ⟨sp,hsp,heq⟩ := hbound sp' hmem
    exact heq ▸ h.bounded sp hsp
  case workers =>
    intro g' hg'
    refine ⟨(h.workers g' hg').1,?_⟩
    intro sp' hmem
    obtain ⟨sp,hsp,heq⟩ := hbound sp' hmem
    exact heq ▸ (h.workers g' hg').2 sp hsp
  case exited =>
    intro sp' hmem
    obtain ⟨sp,hsp,rfl⟩ := Manager.mem_updateSpawn.mp hmem
    split_ifs with hg
    · exact hexited sp hsp hg (h.exited sp hsp)
    · exact h.exited sp hsp
  case active =>
    intro e he hhandle
    rw [newest_updateSpawn hgen]
    exact h.active e he hhandle
  case placeholder =>
    intro e he hhandle sp' hmem
    obtain ⟨sp,hsp,heq⟩ := hbound sp' hmem
    exact heq ▸ h.placeholder e he hhandle sp hsp
  case paused =>
    intro p hp
    rw [newest_updateSpawn hgen]
    exact h.paused p hp
  case resolver => exact h.resolver
  case gone => exact h.gone

theorem spawnDownloader (h : Consistent m) (hrow : m.row ≠ none) (hpause : m.pendingPause = none)
    (hresolve : m.pendingResolve = none) : Consistent m.spawnDownloader := by
  constructor
  case sorted =>
    apply pairwise_cons.mpr
    exact ⟨fun sp hsp => Nat.lt_succ_of_le (h.bounded sp hsp),h.sorted⟩
  case bounded =>
    intro sp hmem
    rcases mem_cons.mp hmem with rfl | hsp
    · exact le_rfl
    · exact (h.bounded sp hsp).trans (Nat.le_succ _)
  case workers =>
    intro g hg
    obtain ⟨hle,hne⟩ := h.workers g hg
    refine ⟨hle.trans (Nat.le_succ _),?_⟩
    intro sp hmem
    rcases mem_cons.mp hmem with rfl | hsp
    · exact (Nat.lt_succ_of_le hle).ne'
    · exact hne sp hsp
  case exited =>
    intro sp hmem hx
    rcases mem_cons.mp hmem with rfl | hsp
    · cases hx
    · exact h.exited sp hsp hx
  case active =>
    intro e he _
    cases he
    rfl
  case placeholder =>
    intro e he hhandle
    cases he
    cases hhandle
  case paused =>
    intro p hp
    simp [Manager.spawnDownloader, hpause] at hp
  case resolver => exact fun hne => absurd hresolve hne
  case gone => exact fun hnone => absurd hnone hrow

theorem beginResolve (h : Consistent m) (hrow : m.row ≠ none) (hpause : m.pendingPause = none)
    (hresolver : m.resolver = true) (kind : ResolveKind) : Consistent (m.beginResolve kind) :=
  have hfresh : ∀ sp ∈ m.spawns, sp.generation ≠ m.generation + 1 :=
    fun sp hsp => (Nat.lt_succ_of_le (h.bounded sp hsp)).ne
  { h with
    bounded := fun sp hsp => (h.bounded sp hsp).trans (Nat.le_succ _)
    workers := by
      intro g hg
      rcases mem_cons.mp hg with rfl | hg
      · exact ⟨le_rfl,hfresh⟩
      · exact ⟨(h.workers g hg).1.trans (Nat.le_succ _),(h.workers g hg).2⟩
    active := by
      intro e he hhandle
      cases he
      cases hhandle
    placeholder := by
      intro e he _
      cases he
      exact hfresh
    paused := by
      intro p hp
      simp [Manager.beginResolve, hpause] at hp
    resolver := fun _ => hresolver
    gone := fun hnone => absurd hnone hrow }

theorem doStartTask (h : Consistent m) (hrow : m.row ≠ none) (hpause : m.pendingPause = none)
    {resolved : Bool} (hresolve : resolved = true → m.pendingResolve = none) :
    Consistent (m.doStartTask resolved) := by
  unfold Manager.doStartTask
  split_ifs with hbegin
  · rw [Bool.and_eq_true] at hbegin
    exact h.beginResolve hrow hpause hbegin.1 _
  · exact h.spawnDownloader hrow hpause (h.pendingResolve_of_spawn hresolve hbegin)

theorem doResumeTask (h : Consistent m) (hpause : m.pendingPause = none) {applied : Bool}
    (hresolve : applied = true → m.pendingResolve = none) :
    Consistent (m.doResumeTask applied) := by
  unfold Manager.doResumeTask
  cases hrow : m.row with
  | none => exact h
  | some row =>
    have hne : m.row ≠ none := by simp [hrow]
    split_ifs with hbegin
    · rw [Bool.and_eq_true] at hbegin
      exact h.beginResolve hne hpause hbegin.1 _
    · exact h.spawnDownloader hne hpause (h.pendingResolve_of_spawn hresolve hbegin)

/-! ### Commands -/

theorem cancelToken (h : Consistent m) (g : ℕ) : Consistent (m.cancelToken g) :=
  h.updateSpawn (fun _ => rfl) (fun _ _ _ _ _ => .inr rfl)

theorem pauseTaskInner (h : Consistent m) (notify : Bool) : Consistent (m.pauseTaskInner notify) := by
  have hclear := h.clearPendingResolve
  rcases m.pauseTaskInner_cases notify with
    ⟨p,hp,heq⟩ | ⟨-,-,heq⟩ | ⟨-,-,-,heq⟩ | ⟨-,hq,e,he,heq⟩ <;> rw [heq]
  · exact hclear.latch hp rfl
  · exact hclear.removeQueued.updateTaskStatus _ _
  · exact hclear
  · refine Consistent.updateTaskStatus ?_ _ _
    have hinactive := (hclear.cancelToken e.generation).removeActive
    exact { hinactive with
      paused := by
        intro p' hp'
        simp only [Manager.pauseActive] at hp'
        split_ifs at hp' with hhandle
        · cases hp'
          refine ⟨rfl,hq,rfl,?_⟩
          exact (hclear.cancelToken e.generation).active e he hhandle
        · exact hinactive.paused p' hp' }

theorem cancelActive (h : Consistent m) : Consistent m.cancelActive := by
  unfold Manager.cancelActive
  cases he : m.activeTask with
  | none => exact h
  | some e => exact (h.cancelToken e.generation).removeActive

theorem cancelTask (h : Consistent m) : Consistent m.cancelTask :=
  h.clearPendingResolve.removeQueued.cancelActive.updateTaskStatus _ _

theorem deleteTask (h : Consistent m) : Consistent m.deleteTask :=
  have hcancel := h.clearPendingResolve.removeQueued.cancelActive
  { hcancel with
    gone := by
      intro _
      unfold Manager.deleteTask Manager.cancelActive
      cases m.clearPendingResolve.removeQueued.activeTask <;> exact ⟨rfl,rfl⟩ }

theorem batchPause (h : Consistent m) : Consistent m.batchPause := by
  have hwaiting : Consistent (if m.queued.isSome then
      m.removeQueued.clearPendingResolve.updateTaskStatus .paused "" else m) := by
    split_ifs
    · exact h.removeQueued.clearPendingResolve.updateTaskStatus _ _
    · exact h
  unfold Manager.batchPause
  cases m.activeTask.isSome with
  | true => exact hwaiting.pauseTaskInner _
  | false => exact hwaiting

theorem forceRemove (h : Consistent m) (g : ℕ) : Consistent (m.forceRemove g) :=
  Consistent.removeActive (h.updateSpawn (fun _ => rfl) (fun _ _ _ hx => hx))

theorem resumeInactive (h : Consistent m) (hpause : m.pendingPause = none) (capacity : Bool) :
    Consistent (m.resumeInactive capacity).1 := by
  unfold Manager.resumeInactive
  cases hq : m.queued with
  | some q => exact h
  | none =>
    cases capacity with
    | true => exact h.doResumeTask hpause (by simp)
    | false =>
      cases hrow : m.row with
      | none => exact h
      | some row => exact h.pushQueued (by simp [hrow]) hpause _

theorem resumeWith (h : Consistent m) (row : Option TaskInfo) (capacity : Bool) :
    Consistent (m.resumeWith row capacity).1 := by
  unfold Manager.resumeWith
  cases hp : m.pendingPause with
  | some p => exact h.latch hp rfl
  | none =>
    cases he : m.activeTask with
    | none => exact h.resumeInactive hp capacity
    | some e =>
      simp only
      split_ifs
      · exact (h.forceRemove e.generation).resumeInactive hp capacity
      · exact h

theorem resumeTaskInner (h : Consistent m) (capacity : Bool) :
    Consistent (m.resumeTaskInner capacity) := by
  have hresume := h.resumeWith m.row capacity
  unfold Manager.resumeTaskInner
  simp only
  split_ifs
  · exact hresume.persistPending _
  · exact hresume

theorem restartTask (h : Consistent m) (capacity : Bool) : Consistent (m.restartTask capacity) := by
  unfold Manager.restartTask
  cases hrow : m.row with
  | none => exact h
  | some row =>
    simp only
    split_ifs
    · exact ((h.pauseTaskInner false).updateTaskStatus _ _).resumeTaskInner capacity
    · exact (h.updateTaskStatus _ _).resumeTaskInner capacity

theorem setTaskSegments (h : Consistent m) (capacity : Bool) :
    Consistent (m.setTaskSegments capacity) := by
  unfold Manager.setTaskSegments
  cases hrow : m.row with
  | none => exact h
  | some row =>
    simp only
    split_ifs
    · exact h
    · exact (h.pauseTaskInner false).resumeTaskInner capacity
    · exact h

theorem setPriorityTask (h : Consistent m) (capacity : Bool) :
    Consistent (m.setPriorityTask capacity) := by
  unfold Manager.setPriorityTask
  split_ifs with he hq
  · exact h.removeQueued
  · have hp := h.pendingPause_eq_none_of_queued (Option.isSome_iff_ne_none.mp hq)
    exact h.removeQueued.doResumeTask hp (by simp)
  · exact h.resumeTaskInner capacity

theorem autoRetry (h : Consistent m) (capacity : Bool) : Consistent (m.autoRetry capacity) := by
  unfold Manager.autoRetry
  cases hrow : m.row with
  | none => exact h
  | some row =>
    simp only
    split_ifs
    · exact h.resumeTaskInner capacity
    · exact h

theorem drainQueue (h : Consistent m) (queueCapacity : Bool) :
    Consistent (m.drainQueue queueCapacity) := by
  unfold Manager.drainQueue
  cases hq : m.queued with
  | none => exact h
  | some q =>
    have hne : m.queued ≠ none := by simp [hq]
    have hp := h.pendingPause_eq_none_of_queued hne
    have hrow : m.row ≠ none := fun hrow => hne (h.gone hrow).1
    simp only
    split_ifs
    · exact h.removeQueued
    · exact h.removeQueued.doResumeTask hp (by simp)
    · exact h.removeQueued.doStartTask hrow hp (by simp)
    · exact h

theorem batchResume (h : Consistent m) (snapshot : TaskInfo) (capacity drained : Bool) :
    Consistent (m.batchResume snapshot capacity drained) := by
  have hresume := h.resumeWith (some snapshot) capacity
  unfold Manager.batchResume
  simp only
  split_ifs
  · exact (hresume.drainQueue true).persistPending _
  · exact hresume.persistPending _
  · exact hresume

theorem onTaskDone (h : Consistent m) (g : ℕ) (capacity : Bool) :
    Consistent (m.onTaskDone g capacity) := by
  have hremove := h.removeMatching g
  have hfinish : Consistent ((m.removeMatching g).finishPendingPause g).1 := by
    unfold Manager.finishPendingPause
    cases (m.removeMatching g).pendingPause with
    | none => exact hremove
    | some p =>
      simp only
      split_ifs
      · exact hremove
      · exact hremove.finish
  unfold Manager.onTaskDone
  simp only
  split_ifs
  · exact hfinish.resumeTaskInner capacity
  · exact hfinish

theorem onResolveReady (h : Consistent m) (g : ℕ) (result : ResolveResult) :
    Consistent (m.onResolveReady g result) := by
  have hclear := h.clearPendingResolve
  unfold Manager.onResolveReady
  cases hr : m.pendingResolve with
  | none => exact h.removeMatching g
  | some pr =>
    have hp : m.pendingPause = none := h.pendingPause_eq_none_of_resolve (by simp [hr])
    by_cases hgen : pr.generation ≠ g
    · simp only [if_pos hgen]
      exact h.removeMatching g
    · simp only [if_neg hgen]
      cases result with
      | ok =>
        simp only
        split_ifs with hrow
        · exact hclear.removeActive
        · cases pr.kind with
          | start => exact hclear.doStartTask hrow hp (fun _ => rfl)
          | resume => exact hclear.removeActive.doResumeTask hp (fun _ => rfl)
      | error message => exact (h.updateTaskStatus .error message).clearPendingResolve.removeActive
      | cancelled => exact h.cancelTask

theorem createTask (h : Consistent m) (hrow : m.row = none) (hpause : m.pendingPause = none)
    (resolver startPaused capacity : Bool) :
    Consistent (m.createTask resolver startPaused capacity) := by
  have hcreated : ∀ status : TaskStatus,
      Consistent { m with resolver := resolver, row := some ⟨status,""⟩ } := fun status =>
    { h with
      resolver := fun hne => absurd (h.gone hrow).2 hne
      gone := by simp }
  unfold Manager.createTask
  simp only
  split_ifs
  · exact hcreated _
  · exact (hcreated _).doStartTask (by simp) hpause (by simp)
  · exact (hcreated _).pushQueued (by simp) hpause _

theorem initial (h : Initial m) : Consistent m := by
  constructor <;> simp [h.spawns, h.workers, h.active, h.pause, h.resolve, h.queue]

theorem step (h : Consistent m) {a : Label} (hstep : step m a = some t) : Consistent t := by
  cases a with
  | createTask resolver startPaused capacity =>
    simp only [TaskManager.step] at hstep
    split_ifs at hstep with hnew
    cases hstep
    exact h.createTask hnew.1 hnew.2.2.2 resolver startPaused capacity
  | pauseTask notify => cases hstep; exact h.pauseTaskInner notify
  | resumeTask capacity => cases hstep; exact h.resumeTaskInner capacity
  | cancelTask => cases hstep; exact h.cancelTask
  | restartTask capacity => cases hstep; exact h.restartTask capacity
  | setTaskSegments capacity => cases hstep; exact h.setTaskSegments capacity
  | setPriorityTask capacity => cases hstep; exact h.setPriorityTask capacity
  | autoRetry capacity => cases hstep; exact h.autoRetry capacity
  | batchPause => cases hstep; exact h.batchPause
  | batchResume snapshot capacity drained =>
    simp only [TaskManager.step] at hstep
    split_ifs at hstep
    cases hstep
    exact h.batchResume snapshot capacity drained
  | deleteTask => cases hstep; exact h.deleteTask
  | drainQueue queueCapacity => cases hstep; exact h.drainQueue queueCapacity
  | onTaskDone g capacity =>
    simp only [TaskManager.step, spawnStep_eq_some] at hstep
    obtain ⟨-,rfl⟩ := hstep
    refine Consistent.onTaskDone ?_ g capacity
    exact h.updateSpawn (fun _ => rfl) (fun _ _ _ hx => hx)
  | onResolveReady g result =>
    simp only [TaskManager.step] at hstep
    split_ifs at hstep with hg
    cases hstep
    have herase := h.eraseWorker g
    exact herase.onResolveReady g result
  | spawnPreparing g | spawnDownloading g =>
    simp only [TaskManager.step, spawnStep_eq_some] at hstep
    obtain ⟨-,rfl⟩ := hstep
    exact h.updateTaskStatus _ _
  | spawnEnds g completed message =>
    simp only [TaskManager.step, spawnStep_eq_some] at hstep
    obtain ⟨-,rfl⟩ := hstep
    have hended : Consistent (m.updateSpawn g (fun sp => { sp with ended := true })) :=
      h.updateSpawn (fun _ => rfl) (fun _ _ _ _ _ => .inl rfl)
    exact hended.setRow (by simp)
  | spawnExits g =>
    simp only [TaskManager.step, spawnStep_eq_some] at hstep
    obtain ⟨⟨sp,hsp,hgen,-,hstopped⟩,rfl⟩ := hstep
    refine h.updateSpawn (fun _ => rfl) ?_
    intro sp' hsp' hgen' _ _
    exact h.eq_of_generation hsp' hsp (hgen'.trans hgen.symm) ▸ hstopped

end Consistent

/-- What the entries say about each other holds in every run, under every order of commands,
downloaders and resolutions. -/
theorem run_consistent {as : List Label} (hm : Initial m)
    (h : exec TaskManager.step m as = some t) : Consistent t :=
  exec_invariant (fun _ _ _ hs hstep => hs.step hstep) (Consistent.initial hm) h

def idle : Manager := ⟨0,none,none,none,none,none,false,[],[]⟩

/-- A resume is latched while the old downloader flushes. -/
def latchedResume : List Label :=
  [.createTask false false true, .pauseTask true, .resumeTask true, .spawnExits 1,
    .onTaskDone 1 true]

theorem run_consistent_sample :
    ∃ t, exec TaskManager.step idle latchedResume = some t ∧ Consistent t :=
  have hm : Initial idle := ⟨rfl,rfl,rfl,rfl,rfl,rfl,by simp [idle]⟩
  ⟨_,rfl,@run_consistent _ _ latchedResume hm rfl⟩

end RinaDown.ManagerConsistency
