import RinaDown.ManagerConsistency

/-!
# At most one writer of a task

A generation is spawned only after the previous one is known to have ended.
The pause path records the generation that is still flushing; `cancel_task`
forgets it, and a resume that finds an entry under a terminal status takes the
status for one written by that entry's downloader. `Awaits` excludes these two
steps and nothing else.
-/

namespace RinaDown.SingleWriter
open LabelledExecutions TaskManager ManagerConsistency Option List

/-- No two downloaders run, and every downloader but the newest has been seen to end. -/
def OneWriter (m : Manager) : Prop :=
  (∀ a ∈ m.spawns, ∀ b ∈ m.spawns, a.Running → b.Running → a = b) ∧
    ∀ sp ∈ m.spawns.tail, sp.seen = true

instance (m : Manager) : Decidable (OneWriter m) := inferInstanceAs (Decidable (_ ∧ _))

/-- Every cancelled downloader has reported, or a pending pause waits for it. -/
def NoneAbandoned (m : Manager) : Prop :=
  m.row ≠ none → ∀ sp ∈ m.spawns, sp.cancelled = true →
    sp.reported = true ∨ m.pendingPause.map PendingPause.generation = some sp.generation

instance (m : Manager) : Decidable (NoneAbandoned m) := inferInstanceAs (Decidable (_ → _))

/-- If the row that a resume has read is terminal, the downloader of the active entry has ended. -/
def Genuine (m : Manager) (row : Option TaskInfo) : Prop :=
  m.pendingPause = none → (row.map (fun t => t.status.terminal)).getD false = true →
    ∀ e ∈ m.activeTask, e.handle = true →
      ∃ sp ∈ m.spawns, sp.generation = e.generation ∧ sp.ended = true

instance (m : Manager) (row : Option TaskInfo) : Decidable (Genuine m row) :=
  inferInstanceAs (Decidable (_ → _ → _))

/-- A step that can start a downloader is taken when none is abandoned, and a resume does not take
an old terminal status for the end of the running downloader. -/
def Awaits (m : Manager) : Label → Prop
  | .resumeTask capacity => (capacity = true → NoneAbandoned m) ∧ Genuine m m.row
  | .autoRetry capacity => (capacity = true → NoneAbandoned m) ∧ Genuine m m.row
  | .restartTask capacity => capacity = true → NoneAbandoned m
  | .setTaskSegments capacity => capacity = true → NoneAbandoned m
  | .setPriorityTask _ => NoneAbandoned m
  | .batchResume snapshot _ _ => NoneAbandoned m ∧ Genuine m (some snapshot)
  | .drainQueue _ => m.queued ≠ none → NoneAbandoned m
  | _ => True

instance (m : Manager) : (a : Label) → Decidable (Awaits m a)
  | .resumeTask _ | .autoRetry _ | .batchResume .. => inferInstanceAs (Decidable (_ ∧ _))
  | .restartTask _ | .setTaskSegments _ | .drainQueue _ => inferInstanceAs (Decidable (_ → _))
  | .setPriorityTask _ => inferInstanceAs (Decidable (NoneAbandoned m))
  | .createTask .. | .pauseTask _ | .cancelTask | .batchPause | .deleteTask | .onTaskDone ..
  | .onResolveReady .. | .spawnPreparing _ | .spawnDownloading _ | .spawnEnds .. | .spawnExits _ =>
    inferInstanceAs (Decidable True)

/-! ## The invariant -/

def AllSeen (m : Manager) : Prop := ∀ sp ∈ m.spawns, sp.seen = true

/-- An unseen downloader is the newest one, and is cancelled or has the active entry; a resolver
works only while there is none. -/
structure Inv (m : Manager) : Prop where
  awaited : ∀ sp ∈ m.spawns.tail, sp.seen = true
  still : ∀ sp ∈ m.spawns, sp.seen = true → ¬ sp.Running
  reported : ∀ sp ∈ m.spawns, sp.reported = true → sp.seen = true
  held : m.row ≠ none → ∀ sp ∈ m.spawns, sp.seen = false → sp.cancelled = true ∨
    ∃ e ∈ m.activeTask, e.handle = true ∧ e.generation = sp.generation
  resolving : m.pendingResolve ≠ none → AllSeen m

variable {m t : Manager} {g : ℕ} {e : ActiveTaskEntry} {sp : Spawn}

namespace Inv

theorem newest_of_unseen (h : Inv m) (hmem : sp ∈ m.spawns) (hseen : sp.seen = false) :
    newest m = some sp.generation := by
  have htail := h.awaited
  unfold newest
  cases hs : m.spawns with
  | nil => simp [hs] at hmem
  | cons a rest =>
    rw [hs] at hmem htail
    rcases mem_cons.mp hmem with heq | hrest
    · simp [heq]
    · have := htail sp hrest
      simp [hseen] at this

theorem allSeen (h : Inv m) (hrow : m.row ≠ none) (hpause : m.pendingPause = none)
    (hactive : ∀ e ∈ m.activeTask, e.handle = false) (hnone : NoneAbandoned m) : AllSeen m := by
  intro sp hmem
  by_contra hseen
  rw [Bool.not_eq_true] at hseen
  rcases h.held hrow sp hmem hseen with hcancelled | ⟨e,he,hhandle,-⟩
  · rcases hnone hrow sp hmem hcancelled with hrep | hpending
    · have := h.reported sp hmem hrep
      simp [hseen] at this
    · simp [hpause] at hpending
  · have := hactive e he
    simp [hhandle] at this

theorem oneWriter (h : Inv m) (hm : Consistent m) : OneWriter m := by
  refine ⟨?_,h.awaited⟩
  intro a ha b hb hra hrb
  have hunseen : ∀ sp ∈ m.spawns, sp.Running → newest m = some sp.generation := by
    intro sp hsp hrun
    apply h.newest_of_unseen hsp
    by_contra hseen
    rw [Bool.not_eq_false] at hseen
    exact h.still sp hsp hseen hrun
  have hgen := (hunseen a ha hra).symm.trans (hunseen b hb hrb)
  exact hm.eq_of_generation ha hb (some.inj hgen)

/-! ### Row, queue and entries -/

variable {row : Option TaskInfo} {capacity : Bool}

theorem setRow (h : Inv m) (hrow : row = none ↔ m.row = none) :
    Inv { m with row := row } :=
  { h with held := fun hne => h.held (fun hnone => hne (hrow.mpr hnone)) }

theorem updateTaskStatus (h : Inv m) (status : TaskStatus) (message : String) :
    Inv (m.updateTaskStatus status message) :=
  h.setRow (by simp)

theorem persistPending (h : Inv m) (row : Option TaskInfo) : Inv (m.persistPending row) := by
  unfold Manager.persistPending
  split_ifs
  · exact h
  · exact h.updateTaskStatus _ _

theorem removeQueued (h : Inv m) : Inv m.removeQueued := { h with }

theorem pushQueued (h : Inv m) (q : QueuedTask) : Inv (m.pushQueued q) := { h with }

theorem setPendingPause (h : Inv m) (p : Option PendingPause) :
    Inv { m with pendingPause := p } := { h with }

theorem clearPendingResolve (h : Inv m) : Inv m.clearPendingResolve :=
  { h with resolving := fun hne => absurd rfl hne }

theorem removeActive (h : Inv m)
    (hdone : ∀ sp ∈ m.spawns, sp.seen = false → sp.cancelled = false → ∀ e ∈ m.activeTask,
      e.handle = true → e.generation ≠ sp.generation) :
    Inv m.removeActive :=
  { h with
    held := by
      intro hrow sp hmem hseen
      rcases h.held hrow sp hmem hseen with hcancelled | ⟨e,he,hhandle,hgen⟩
      · exact .inl hcancelled
      · left
        by_contra hcancelled
        rw [Bool.not_eq_true] at hcancelled
        exact hdone sp hmem hseen hcancelled e he hhandle hgen }

theorem removeActive_of_allSeen (h : Inv m) (hseen : AllSeen m) : Inv m.removeActive := by
  apply h.removeActive
  intro sp hsp hs
  simp [hseen sp hsp] at hs

/-! ### Downloaders -/

theorem updateSpawn (h : Inv m) {f : Spawn → Spawn}
    (hgen : ∀ sp, (f sp).generation = sp.generation)
    (hseen : ∀ sp, sp.seen = true → (f sp).seen = true)
    (hcancelled : ∀ sp, sp.cancelled = true → (f sp).cancelled = true)
    (hstill : ∀ sp ∈ m.spawns, sp.generation = g → (f sp).seen = true → ¬ (f sp).Running)
    (hreported : ∀ sp ∈ m.spawns, sp.generation = g → (f sp).reported = true →
      (f sp).seen = true) : Inv (m.updateSpawn g f) := by
  have hmono : ∀ sp : Spawn, sp.seen = true →
      (if sp.generation = g then f sp else sp).seen = true := by
    intro sp hs
    split_ifs
    · exact hseen sp hs
    · exact hs
  constructor
  case awaited =>
    intro sp' hmem
    rw [Manager.updateSpawn, ← map_tail] at hmem
    obtain ⟨sp,hsp,rfl⟩ := mem_map.mp hmem
    exact hmono sp (h.awaited sp hsp)
  case still =>
    intro sp' hmem
    obtain ⟨sp,hsp,rfl⟩ := Manager.mem_updateSpawn.mp hmem
    split_ifs with hg
    · exact hstill sp hsp hg
    · exact h.still sp hsp
  case reported =>
    intro sp' hmem
    obtain ⟨sp,hsp,rfl⟩ := Manager.mem_updateSpawn.mp hmem
    split_ifs with hg
    · exact hreported sp hsp hg
    · exact h.reported sp hsp
  case held =>
    intro hrow sp' hmem hunseen
    obtain ⟨sp,hsp,rfl⟩ := Manager.mem_updateSpawn.mp hmem
    have hold : sp.seen = false := by
      by_contra hs
      rw [Bool.not_eq_false] at hs
      simp [hmono sp hs] at hunseen
    rcases h.held hrow sp hsp hold with hc | ⟨e,he,hhandle,heq⟩
    · left
      split_ifs
      · exact hcancelled sp hc
      · exact hc
    · right
      refine ⟨e,he,hhandle,heq.trans ?_⟩
      split_ifs
      · exact (hgen sp).symm
      · rfl
  case resolving =>
    intro hne sp' hmem
    obtain ⟨sp,hsp,rfl⟩ := Manager.mem_updateSpawn.mp hmem
    exact hmono sp (h.resolving hne sp hsp)

theorem spawnDownloader (h : Inv m) (hseen : AllSeen m) (hresolve : m.pendingResolve = none) :
    Inv m.spawnDownloader := by
  constructor
  case awaited => exact hseen
  case still =>
    intro sp hmem hs
    rcases mem_cons.mp hmem with rfl | hsp
    · cases hs
    · exact h.still sp hsp hs
  case reported =>
    intro sp hmem hr
    rcases mem_cons.mp hmem with rfl | hsp
    · cases hr
    · exact h.reported sp hsp hr
  case held =>
    intro _ sp hmem hs
    rcases mem_cons.mp hmem with rfl | hsp
    · exact .inr ⟨_,rfl,rfl,rfl⟩
    · simp [hseen sp hsp] at hs
  case resolving => exact fun hne => absurd hresolve hne

theorem beginResolve (h : Inv m) (hseen : AllSeen m) (kind : ResolveKind) :
    Inv (m.beginResolve kind) :=
  { h with
    held := by
      intro _ sp hsp hs
      simp [hseen sp hsp] at hs
    resolving := fun _ => hseen }

theorem doStartTask (h : Inv m) (hm : Consistent m) (hseen : AllSeen m) {resolved : Bool}
    (hresolve : resolved = true → m.pendingResolve = none) : Inv (m.doStartTask resolved) := by
  unfold Manager.doStartTask
  split_ifs with hbegin
  · exact h.beginResolve hseen _
  · exact h.spawnDownloader hseen (hm.pendingResolve_of_spawn hresolve hbegin)

theorem doResumeTask (h : Inv m) (hm : Consistent m) (hseen : m.row ≠ none → AllSeen m)
    {applied : Bool} (hresolve : applied = true → m.pendingResolve = none) :
    Inv (m.doResumeTask applied) := by
  unfold Manager.doResumeTask
  cases hrow : m.row with
  | none => exact h
  | some row =>
    have hall := hseen (by simp [hrow])
    split_ifs with hbegin
    · exact h.beginResolve hall _
    · exact h.spawnDownloader hall (hm.pendingResolve_of_spawn hresolve hbegin)

/-! ### Commands -/

theorem cancelRemove (h : Inv m) (he : m.activeTask = some e) :
    Inv (m.cancelToken e.generation).removeActive := by
  have hcancel : Inv (m.cancelToken e.generation) :=
    h.updateSpawn (fun _ => rfl) (fun _ hs => hs) (fun _ _ => rfl)
      (fun sp hsp _ => h.still sp hsp) (fun sp hsp _ => h.reported sp hsp)
  apply hcancel.removeActive
  intro sp hsp _ hc e' he' _ hgen
  have heq : e' = e := by
    rw [Manager.cancelToken, Manager.updateSpawn_activeTask, he] at he'
    exact (mem_some.mp he').symm
  obtain ⟨old,hold,rfl⟩ := Manager.mem_updateSpawn.mp hsp
  split_ifs at hc hgen with hold'
  exact hold' (heq ▸ hgen.symm)

theorem pauseTaskInner (h : Inv m) (notify : Bool) : Inv (m.pauseTaskInner notify) := by
  have hclear := h.clearPendingResolve
  rcases m.pauseTaskInner_cases notify with
    ⟨p,hp,heq⟩ | ⟨-,-,heq⟩ | ⟨-,-,-,heq⟩ | ⟨-,hq,e,he,heq⟩ <;> rw [heq]
  · exact hclear.setPendingPause _
  · exact hclear.removeQueued.updateTaskStatus _ _
  · exact hclear
  · exact ((hclear.cancelRemove he).setPendingPause _).updateTaskStatus _ _

theorem cancelActive (h : Inv m) : Inv m.cancelActive := by
  unfold Manager.cancelActive
  cases he : m.activeTask with
  | none => exact h
  | some e => exact h.cancelRemove he

theorem cancelTask (h : Inv m) : Inv m.cancelTask :=
  h.clearPendingResolve.removeQueued.cancelActive.updateTaskStatus _ _

theorem deleteTask (h : Inv m) : Inv m.deleteTask :=
  { h.clearPendingResolve.removeQueued.cancelActive with held := fun hne => absurd rfl hne }

theorem batchPause (h : Inv m) : Inv m.batchPause := by
  have hwaiting : Inv (if m.queued.isSome then
      m.removeQueued.clearPendingResolve.updateTaskStatus .paused "" else m) := by
    split_ifs
    · exact h.removeQueued.clearPendingResolve.updateTaskStatus _ _
    · exact h
  unfold Manager.batchPause
  cases m.activeTask.isSome with
  | true => exact hwaiting.pauseTaskInner _
  | false => exact hwaiting

/-- The stale entry is that of a downloader that has ended, which is now seen. -/
theorem forceRemove (h : Inv m) (hm : Consistent m) (he : m.activeTask = some e)
    (hended : e.handle = true → ∃ sp ∈ m.spawns, sp.generation = e.generation ∧ sp.ended = true) :
    Inv (m.forceRemove e.generation) := by
  have hunique : ∀ sp ∈ m.spawns, sp.generation = e.generation → e.handle = true →
      sp.ended = true := by
    intro sp hsp hgen hhandle
    obtain ⟨sp',hsp',hgen',hended'⟩ := hended hhandle
    exact hm.eq_of_generation hsp hsp' (hgen.trans hgen'.symm) ▸ hended'
  have hmark : Inv (m.updateSpawn e.generation
      (fun sp => { sp with seen := sp.seen || sp.ended })) := by
    apply h.updateSpawn
    case hgen => exact fun _ => rfl
    case hcancelled => exact fun _ hc => hc
    case hseen =>
      intro sp hs
      simp [hs]
    case hstill =>
      intro sp hsp _ hs hrun
      rcases (Bool.or_eq_true _ _).mp hs with hs | hs
      · exact h.still sp hsp hs hrun
      · exact absurd (hrun.1.symm.trans hs) (by decide)
    case hreported =>
      intro sp hsp _ hr
      simp [h.reported sp hsp hr]
  apply hmark.removeActive
  intro sp hsp hs _ e' he' hhandle hgen
  have heq : e' = e := by
    rw [Manager.updateSpawn_activeTask, he] at he'
    exact (mem_some.mp he').symm
  subst heq
  obtain ⟨old,hold,rfl⟩ := Manager.mem_updateSpawn.mp hsp
  split_ifs at hs hgen with hold'
  · simp [hunique old hold hold' hhandle] at hs
  · exact hold' hgen.symm

theorem resumeInactive (h : Inv m) (hm : Consistent m)
    (hseen : capacity = true → m.row ≠ none → AllSeen m) : Inv (m.resumeInactive capacity).1 := by
  unfold Manager.resumeInactive
  cases hq : m.queued with
  | some q => exact h
  | none =>
    cases capacity with
    | true => exact h.doResumeTask hm (hseen rfl) (by simp)
    | false =>
      cases hrow : m.row with
      | none => exact h
      | some row => exact h.pushQueued _

theorem noneAbandoned_forceRemove (hnone : NoneAbandoned m) : NoneAbandoned (m.forceRemove g) := by
  intro hrow sp hsp hc
  obtain ⟨old,hold,rfl⟩ := Manager.mem_updateSpawn.mp hsp
  split_ifs at hc ⊢
  · exact hnone hrow old hold hc
  · exact hnone hrow old hold hc

theorem resumeWith (h : Inv m) (hm : Consistent m)
    (hnone : m.pendingPause = none → capacity = true → NoneAbandoned m) (hgenuine : Genuine m row) :
    Inv (m.resumeWith row capacity).1 := by
  unfold Manager.resumeWith
  cases hp : m.pendingPause with
  | some p => exact h.setPendingPause _
  | none =>
    cases he : m.activeTask with
    | none =>
      apply h.resumeInactive hm
      intro hc hrow
      exact h.allSeen hrow hp (by simp [he]) (hnone hp hc)
    | some e =>
      simp only
      split_ifs with hterminal
      · have hforce := h.forceRemove hm he (hgenuine hp hterminal e he)
        apply hforce.resumeInactive (hm.forceRemove _)
        intro hc hrow
        exact hforce.allSeen hrow hp (by simp [Manager.forceRemove, Manager.removeActive])
          (noneAbandoned_forceRemove (hnone hp hc))
      · exact h

theorem resumeTaskInner (h : Inv m) (hm : Consistent m)
    (hnone : m.pendingPause = none → capacity = true → NoneAbandoned m) (hgenuine : Genuine m m.row)
    : Inv (m.resumeTaskInner capacity) := by
  have hresume := h.resumeWith hm hnone hgenuine
  unfold Manager.resumeTaskInner
  simp only
  split_ifs
  · exact hresume.persistPending _
  · exact hresume

theorem resumeTaskInner_of_allSeen (h : Inv m) (hm : Consistent m) (hp : m.pendingPause = none)
    (he : m.activeTask = none) (hseen : AllSeen m) :
    Inv (m.resumeTaskInner capacity) := by
  have hresume : Inv (m.resumeInactive capacity).1 := h.resumeInactive hm (fun _ _ => hseen)
  unfold Manager.resumeTaskInner Manager.resumeWith
  rw [hp, he]
  simp only
  split_ifs
  · exact hresume.persistPending _
  · exact hresume

theorem genuine_of_inactive (he : m.activeTask = none) (row : Option TaskInfo) : Genuine m row := by
  intro _ _ e hmem
  simp [he] at hmem

/-- After a pause the row is not terminal, unless there was nothing to pause. -/
theorem genuine_pauseTaskInner (m : Manager) (notify : Bool) :
    Genuine (m.pauseTaskInner notify) (m.pauseTaskInner notify).row := by
  intro hpause hterminal
  rcases m.pauseTaskInner_cases notify with
    ⟨p,hp,heq⟩ | ⟨hp,hq,heq⟩ | ⟨hp,hq,he,heq⟩ | ⟨hp,hq,e,he,heq⟩ <;>
    rw [heq] at hpause hterminal ⊢
  · simp at hpause
  · cases hrow : m.row <;>
      simp [Manager.updateTaskStatus, Manager.removeQueued, Manager.clearPendingResolve, hrow,
        TaskStatus.terminal] at hterminal
  · simp [Manager.clearPendingResolve, he]
  · simp [Manager.pauseActive, Manager.removeActive]

theorem noneAbandoned_pauseTaskInner (hm : Consistent m) {notify : Bool} (hnone : NoneAbandoned m)
    (hpause : (m.pauseTaskInner notify).pendingPause = none) :
    NoneAbandoned (m.pauseTaskInner notify) := by
  rcases m.pauseTaskInner_cases notify with
    ⟨p,hp,heq⟩ | ⟨hp,hq,heq⟩ | ⟨hp,hq,he,heq⟩ | ⟨hp,hq,e,he,heq⟩ <;>
    rw [heq] at hpause ⊢
  · simp at hpause
  · exact fun hrow => hnone (fun hn => hrow ((Manager.updateTaskStatus_row_eq_none ..).mpr hn))
  · exact hnone
  · intro hrow sp hsp hc
    have hhandle : e.handle = false := by
      by_contra hh
      rw [Bool.not_eq_false] at hh
      simp [Manager.pauseActive, hh] at hpause
    obtain ⟨old,hold,rfl⟩ := Manager.mem_updateSpawn.mp hsp
    rw [if_neg (hm.placeholder e he hhandle old hold)] at hc ⊢
    have hrep := hnone (fun hn => hrow ((Manager.updateTaskStatus_row_eq_none ..).mpr hn)) old hold hc
    exact .inl (by simpa [hp] using hrep)

theorem restartTask (h : Inv m) (hm : Consistent m) (hnone : capacity = true → NoneAbandoned m) :
    Inv (m.restartTask capacity) := by
  unfold Manager.restartTask
  cases hrow : m.row with
  | none => exact h
  | some row =>
    simp only
    split_ifs
    · apply ((h.pauseTaskInner false).updateTaskStatus _ _).resumeTaskInner
        ((hm.pauseTaskInner false).updateTaskStatus _ _)
      · intro hp hc hne
        exact noneAbandoned_pauseTaskInner hm (hnone hc) hp (by simpa using hne)
      · intro _ hterminal
        cases hr : (m.pauseTaskInner false).row <;>
          simp [Manager.updateTaskStatus, hr, TaskStatus.terminal] at hterminal
    · apply (h.updateTaskStatus _ _).resumeTaskInner (hm.updateTaskStatus _ _)
      · intro _ hc hne
        exact hnone hc (by simp [hrow])
      · intro _ hterminal
        simp [Manager.updateTaskStatus, hrow, TaskStatus.terminal] at hterminal

theorem setTaskSegments (h : Inv m) (hm : Consistent m) (hnone : capacity = true → NoneAbandoned m)
    : Inv (m.setTaskSegments capacity) := by
  unfold Manager.setTaskSegments
  cases hrow : m.row with
  | none => exact h
  | some row =>
    simp only
    split_ifs
    · exact h
    · apply (h.pauseTaskInner false).resumeTaskInner (hm.pauseTaskInner false)
      · exact fun hp hc => noneAbandoned_pauseTaskInner hm (hnone hc) hp
      · exact genuine_pauseTaskInner m false
    · exact h

theorem setPriorityTask (h : Inv m) (hm : Consistent m) (hnone : NoneAbandoned m) :
    Inv (m.setPriorityTask capacity) := by
  unfold Manager.setPriorityTask
  split_ifs with he hq
  · exact h.removeQueued
  · rw [not_isSome_iff_eq_none] at he
    have hp := hm.pendingPause_eq_none_of_queued (isSome_iff_ne_none.mp hq)
    apply h.removeQueued.doResumeTask hm.removeQueued _ (by simp)
    exact fun hrow => h.allSeen hrow hp (by simp [he]) hnone
  · rw [not_isSome_iff_eq_none] at he
    exact h.resumeTaskInner hm (fun _ _ => hnone) (genuine_of_inactive he _)

theorem autoRetry (h : Inv m) (hm : Consistent m) (hnone : capacity = true → NoneAbandoned m)
    (hgenuine : Genuine m m.row) :
    Inv (m.autoRetry capacity) := by
  unfold Manager.autoRetry
  cases hrow : m.row with
  | none => exact h
  | some row =>
    simp only
    split_ifs
    · exact h.resumeTaskInner hm (fun _ => hnone) hgenuine
    · exact h

theorem drainQueue (h : Inv m) (hm : Consistent m) {queueCapacity : Bool}
    (hnone : m.queued ≠ none → NoneAbandoned m) : Inv (m.drainQueue queueCapacity) := by
  unfold Manager.drainQueue
  cases hq : m.queued with
  | none => exact h
  | some q =>
    have hne : m.queued ≠ none := by simp [hq]
    have hrow : m.row ≠ none := fun hrow => hne (hm.gone hrow).1
    simp only
    by_cases he : m.activeTask.isSome = true
    · rw [if_pos he]
      exact h.removeQueued
    · have hseen : AllSeen m := by
        rw [not_isSome_iff_eq_none] at he
        exact h.allSeen hrow (hm.pendingPause_eq_none_of_queued hne) (by simp [he]) (hnone hne)
      rw [if_neg he]
      split_ifs
      · exact h.removeQueued.doResumeTask hm.removeQueued (fun _ => hseen) (by simp)
      · exact h.removeQueued.doStartTask hm.removeQueued hseen (by simp)
      · exact h

theorem noneAbandoned_resumeInactive (hnone : NoneAbandoned m)
    (hqueued : (m.resumeInactive capacity).2 = true) :
    NoneAbandoned (m.resumeInactive capacity).1 := by
  unfold Manager.resumeInactive at hqueued ⊢
  cases hq : m.queued with
  | some q => simp [hq] at hqueued
  | none =>
    cases capacity with
    | true => simp [hq] at hqueued
    | false =>
      cases hrow : m.row with
      | none => simp [hq, hrow] at hqueued
      | some row => exact hnone

theorem noneAbandoned_resumeWith (hnone : NoneAbandoned m)
    (hqueued : (m.resumeWith row capacity).2 = true) :
    NoneAbandoned (m.resumeWith row capacity).1 := by
  unfold Manager.resumeWith at hqueued ⊢
  cases hp : m.pendingPause with
  | some p => simp [hp] at hqueued
  | none =>
    cases he : m.activeTask with
    | none =>
      simp only [hp, he] at hqueued ⊢
      exact noneAbandoned_resumeInactive hnone hqueued
    | some e =>
      simp only [hp, he] at hqueued ⊢
      split_ifs at hqueued ⊢
      exact noneAbandoned_resumeInactive (noneAbandoned_forceRemove hnone) hqueued

theorem batchResume (h : Inv m) (hm : Consistent m) {snapshot : TaskInfo} {drained : Bool}
    (hnone : NoneAbandoned m) (hgenuine : Genuine m (some snapshot)) :
    Inv (m.batchResume snapshot capacity drained) := by
  have hresume : Inv (m.resumeWith (some snapshot) capacity).1 :=
    h.resumeWith hm (fun _ _ => hnone) hgenuine
  unfold Manager.batchResume
  simp only
  split_ifs with hqueued
  · apply (hresume.drainQueue (hm.resumeWith _ _) _).persistPending
    exact fun _ => noneAbandoned_resumeWith hnone hqueued
  · exact hresume.persistPending _
  · exact hresume

theorem removeMatching (h : Inv m)
    (hdone : ∀ sp ∈ m.spawns, sp.seen = false → sp.generation ≠ g) : Inv (m.removeMatching g) := by
  unfold Manager.removeMatching
  split_ifs with hany
  · apply h.removeActive
    intro sp hsp hs _ e he _ heq
    have hgen : e.generation = g := by
      rw [mem_def.mp he] at hany
      simpa using hany
    exact hdone sp hsp hs (heq.symm.trans hgen)
  · exact h

theorem onTaskDone (h : Inv m) (hm : Consistent m)
    (hdone : ∀ sp ∈ m.spawns, sp.seen = false → sp.generation ≠ g) :
    Inv (m.onTaskDone g capacity) := by
  have hremove := h.removeMatching hdone
  have hconsistent := hm.removeMatching g
  have hspawns : (m.removeMatching g).spawns = m.spawns := by
    unfold Manager.removeMatching
    split_ifs <;> rfl
  unfold Manager.onTaskDone Manager.finishPendingPause
  cases hp : (m.removeMatching g).pendingPause with
  | none => exact hremove
  | some p =>
    have hpaused := hconsistent.paused p hp
    have hfinish := hremove.setPendingPause none
    by_cases hgen : p.generation ≠ g
    · simp only [if_pos hgen]
      exact hremove
    · rw [not_not] at hgen
      have hseen : AllSeen { m.removeMatching g with pendingPause := none } := by
        intro sp hsp
        by_contra hs
        rw [Bool.not_eq_true] at hs
        have hnew := hremove.newest_of_unseen hsp hs
        rw [hpaused.2.2.2, hgen] at hnew
        exact hdone sp (hspawns ▸ hsp) hs (some.inj hnew).symm
      simp only [hgen, ne_eq, not_true_eq_false, if_false]
      split_ifs
      · exact hfinish.resumeTaskInner_of_allSeen hconsistent.finish rfl hpaused.1 hseen
      · exact hfinish

theorem onResolveReady (h : Inv m) (hm : Consistent m) {result : ResolveResult}
    (hg : ∀ sp ∈ m.spawns, sp.generation ≠ g) : Inv (m.onResolveReady g result) := by
  have hstale : Inv (m.removeMatching g) := h.removeMatching (fun sp hsp _ => hg sp hsp)
  unfold Manager.onResolveReady
  cases hr : m.pendingResolve with
  | none => exact hstale
  | some pr =>
    have hseen : AllSeen m := h.resolving (by simp [hr])
    have hclear := h.clearPendingResolve
    have hconsistent := hm.clearPendingResolve
    by_cases hgen : pr.generation ≠ g
    · simp only [if_pos hgen]
      exact hstale
    · simp only [if_neg hgen]
      cases result with
      | ok =>
        simp only
        split_ifs with hrow
        · exact hclear.removeActive_of_allSeen hseen
        · cases pr.kind with
          | start => exact hclear.doStartTask hconsistent hseen (fun _ => rfl)
          | resume =>
            exact (hclear.removeActive_of_allSeen hseen).doResumeTask hconsistent.removeActive
              (fun _ => hseen) (fun _ => rfl)
      | error message =>
        exact (h.updateTaskStatus .error message).clearPendingResolve.removeActive_of_allSeen hseen
      | cancelled => exact h.cancelTask

theorem createTask (h : Inv m) (hm : Consistent m) (hrow : m.row = none) (hspawns : m.spawns = [])
    {resolver startPaused : Bool} : Inv (m.createTask resolver startPaused capacity) := by
  have hseen : AllSeen m := by simp [AllSeen, hspawns]
  have hresolve := (hm.gone hrow).2
  have hcreated : ∀ status : TaskStatus,
      Inv { m with resolver := resolver, row := some ⟨status,""⟩ } := fun status =>
    { h with held := by simp [hspawns] }
  unfold Manager.createTask
  simp only
  split_ifs
  · exact hcreated _
  · unfold Manager.doStartTask
    split_ifs
    · exact (hcreated _).beginResolve hseen _
    · exact (hcreated _).spawnDownloader hseen hresolve
  · exact (hcreated _).pushQueued _

theorem initial (h : Initial m) : Inv m := by
  constructor <;> simp [h.spawns, h.resolve]

theorem step (h : Inv m) (hm : Consistent m) {a : Label} (hcond : Awaits m a)
    (hstep : step m a = some t) : Inv t := by
  cases a with
  | createTask resolver startPaused capacity =>
    simp only [TaskManager.step] at hstep
    split_ifs at hstep with hnew
    cases hstep
    exact h.createTask hm hnew.1 hnew.2.1
  | pauseTask notify => cases hstep; exact h.pauseTaskInner notify
  | resumeTask capacity => cases hstep; exact h.resumeTaskInner hm (fun _ => hcond.1) hcond.2
  | cancelTask => cases hstep; exact h.cancelTask
  | restartTask capacity => cases hstep; exact h.restartTask hm hcond
  | setTaskSegments capacity => cases hstep; exact h.setTaskSegments hm hcond
  | setPriorityTask capacity => cases hstep; exact h.setPriorityTask hm hcond
  | autoRetry capacity => cases hstep; exact h.autoRetry hm hcond.1 hcond.2
  | batchPause => cases hstep; exact h.batchPause
  | batchResume snapshot capacity drained =>
    simp only [TaskManager.step] at hstep
    split_ifs at hstep
    cases hstep
    exact h.batchResume hm hcond.1 hcond.2
  | deleteTask => cases hstep; exact h.deleteTask
  | drainQueue queueCapacity => cases hstep; exact h.drainQueue hm hcond
  | onTaskDone g capacity =>
    simp only [TaskManager.step, spawnStep_eq_some] at hstep
    obtain ⟨⟨sp,hsp,hgen,hexited,-⟩,rfl⟩ := hstep
    have hunique : ∀ sp' ∈ m.spawns, sp'.generation = g → sp'.exited = true := by
      intro sp' hsp' hgen'
      exact hm.eq_of_generation hsp' hsp (hgen'.trans hgen.symm) ▸ hexited
    have hreport : Inv (m.updateSpawn g (fun sp => { sp with reported := true, seen := true })) := by
      refine h.updateSpawn (fun _ => rfl) (fun _ _ => rfl) (fun _ hc => hc) ?_ ?_
      · intro sp' hsp' hgen' _ hrun
        simpa [hunique sp' hsp' hgen'] using hrun.2
      · exact fun _ _ _ _ => rfl
    apply hreport.onTaskDone (hm.updateSpawn (fun _ => rfl) (fun _ _ _ hx => hx))
    intro sp' hsp' hs heq
    obtain ⟨old,hold,rfl⟩ := Manager.mem_updateSpawn.mp hsp'
    split_ifs at hs heq with hg
    exact hg heq
  | onResolveReady g result =>
    simp only [TaskManager.step] at hstep
    split_ifs at hstep with hg
    cases hstep
    have herase := hm.eraseWorker g
    have hinv : Inv { m with resolveWorkers := m.resolveWorkers.erase g } := { h with }
    exact hinv.onResolveReady herase (hm.workers g hg).2
  | spawnPreparing g | spawnDownloading g =>
    simp only [TaskManager.step, spawnStep_eq_some] at hstep
    obtain ⟨-,rfl⟩ := hstep
    exact h.updateTaskStatus _ _
  | spawnEnds g completed message =>
    simp only [TaskManager.step, spawnStep_eq_some] at hstep
    obtain ⟨-,rfl⟩ := hstep
    have hended : Inv (m.updateSpawn g (fun sp => { sp with ended := true })) := by
      refine h.updateSpawn (fun _ => rfl) (fun _ hs => hs) (fun _ hc => hc) ?_ ?_
      · exact fun _ _ _ _ hrun => by simpa using hrun.1
      · exact fun sp hsp _ => h.reported sp hsp
    exact hended.setRow (by simp)
  | spawnExits g =>
    simp only [TaskManager.step, spawnStep_eq_some] at hstep
    obtain ⟨-,rfl⟩ := hstep
    refine h.updateSpawn (fun _ => rfl) (fun _ hs => hs) (fun _ hc => hc) ?_ ?_
    · exact fun _ _ _ _ hrun => by simpa using hrun.2
    · exact fun sp hsp _ => h.reported sp hsp

end Inv

theorem inv_exec {as : List Label} (h : Inv m) (hm : Consistent m)
    (hcond : Meets step Awaits m as) (hrun : exec step m as = some t) :
    Consistent t ∧ Inv t := by
  have hstep : ∀ s a t, Consistent s ∧ Inv s → Awaits s a → step s a = some t →
      Consistent t ∧ Inv t :=
    fun s a t hs hc hstep => ⟨hs.1.step hstep,hs.2.step hs.1 hc hstep⟩
  exact exec_invariant_of_meets hstep ⟨hm,h⟩ hcond hrun

/-- In every run whose steps await the downloaders, at most one generation runs at any time, and a
new one is spawned only after the end of the previous one has been seen. -/
theorem single_writer {as : List Label} (hm : Initial m) (hcond : Meets step Awaits m as)
    (hrun : exec step m as = some t) : OneWriter t :=
  have h := inv_exec (Inv.initial hm) (Consistent.initial hm) hcond hrun
  h.2.oneWriter h.1

def fresh : Manager where
  generation := 0
  activeTask := none
  pendingPause := none
  queued := none
  pendingResolve := none
  row := none
  resolver := false
  resolveWorkers := []
  spawns := []

/-- The cancelled downloader is still flushing when the task is resumed. -/
def cancelThenResume : List Label :=
  [.createTask false false true, .spawnPreparing 1, .cancelTask, .resumeTask true]

/-- A failed task is resumed twice before its new downloader has written a status. -/
def resumeTwice : List Label :=
  [.createTask false false true, .spawnEnds 1 false "timeout", .spawnExits 1, .onTaskDone 1 true,
    .resumeTask true, .resumeTask true]

theorem two_writers :
    (exec step fresh cancelThenResume).any (fun t => ¬ OneWriter t) = true ∧
      (exec step fresh resumeTwice).any (fun t => ¬ OneWriter t) = true := by
  decide

/-- A pause that waits for the flushing downloader, a latched resume, and a retry after an error. -/
def pauseThenResume : List Label :=
  [.createTask false false true, .spawnPreparing 1, .pauseTask true, .resumeTask true,
    .spawnExits 1, .onTaskDone 1 true, .spawnDownloading 2, .spawnEnds 2 false "timeout",
    .resumeTask true, .cancelTask, .spawnExits 3, .onTaskDone 3 true, .resumeTask true]

theorem single_writer_sample :
    ∃ t, exec step fresh pauseThenResume = some t ∧ OneWriter t :=
  have hm : Initial fresh := ⟨rfl,rfl,rfl,rfl,rfl,rfl,by simp [fresh]⟩
  have hcond : Meets step Awaits fresh pauseThenResume := by decide
  ⟨_,rfl,single_writer hm hcond rfl⟩

end RinaDown.SingleWriter
