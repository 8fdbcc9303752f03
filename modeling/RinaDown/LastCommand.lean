import RinaDown.ManagerConsistency

/-!
# The last command decides

Whether a task is running or stopped once every old downloader has reported should depend on the
last command only. A latched resume is not cleared by a later pause, its release fails after a
cancel, and a cancelled downloader that still writes a status does both. `Obeyed` excludes these
steps.
-/

namespace RinaDown.LastCommand
open LabelledExecutions TaskManager ManagerConsistency Option List

inductive Command where
  | run
  | stop
  deriving DecidableEq, Repr

def command? : Label → Option Command
  | .pauseTask _ => some .stop
  | .batchPause => some .stop
  | .cancelTask => some .stop
  | .resumeTask _ => some .run
  | .restartTask _ => some .run
  | .batchResume _ _ _ => some .run
  | _ => none

/-- A manager with its last command, and whether what that command started has ended by itself. -/
structure Tracked where
  manager : Manager
  last : Option Command
  ended : Bool
  deriving DecidableEq, Repr

/-- The active downloader or the resolver ends by itself. -/
def endsItself (m : Manager) : Label → Bool
  | .spawnEnds g _ _ => m.activeTask.any (fun e => e.handle && e.generation = g)
  | .onResolveReady g (.error _) => m.pendingResolve.any (fun pr => pr.generation = g)
  | _ => false

/-- The user closes the dialog of the resolver, which cancels the task. -/
def dismissed (m : Manager) : Label → Bool
  | .onResolveReady g .cancelled => m.pendingResolve.any (fun pr => pr.generation = g)
  | _ => false

/-- The steps of other features: they are neither commands of the user nor of the environment. -/
def otherFeature : Label → Bool
  | .setTaskSegments _ => true
  | .setPriorityTask _ => true
  | .autoRetry _ => true
  | .deleteTask => true
  | _ => false

def step (s : Tracked) (a : Label) : Option Tracked :=
  if otherFeature a then none
  else (TaskManager.step s.manager a).bind (fun m =>
    match command? a with
    | some c => if s.manager.row = none then none else some ⟨m,some c,c = .stop && s.ended⟩
    | none =>
      some ⟨m,if dismissed s.manager a then some .stop else s.last,
        s.ended || endsItself s.manager a⟩)

/-- A manager at startup; a task whose row is terminal has ended. -/
structure Initial (s : Tracked) : Prop where
  manager : TaskManager.Initial s.manager
  last : s.last = none
  ended : s.ended = s.manager.row.any (fun t => t.status.terminal)

def cancelledRow : TaskInfo := ⟨.error,cancelledErrorMessage⟩

/-- Every downloader but the one of the active entry has reported. -/
def Settled (m : Manager) : Prop :=
  ∀ sp ∈ m.spawns, sp.reported = true ∨
    m.activeTask.any (fun e => e.handle && e.generation = sp.generation) = true

instance (m : Manager) : Decidable (Settled m) := inferInstanceAs (Decidable (∀ _ ∈ _, _))

/-- A stopped task is paused or cancelled, unless it had ended before. -/
def Stopped (ended : Bool) (t : TaskInfo) : Prop :=
  t.status = .paused ∨ t = cancelledRow ∨ ended = true ∧ t.status.terminal = true

instance (ended : Bool) (t : TaskInfo) : Decidable (Stopped ended t) :=
  inferInstanceAs (Decidable (_ ∨ _))

/-- Once all old downloaders have reported, the task is running or queued (or has ended by itself)
after a resume, and stopped after a pause or a cancel. -/
def LastWins (s : Tracked) : Prop :=
  Settled s.manager →
    (s.last = some .run →
      s.manager.activeTask ≠ none ∨ s.manager.queued ≠ none ∨ s.ended = true) ∧
    (s.last = some .stop →
      s.manager.activeTask = none ∧ s.manager.queued = none ∧
        ∃ t ∈ s.manager.row, Stopped s.ended t)

instance (s : Tracked) : Decidable (LastWins s) := inferInstanceAs (Decidable (_ → _))

def releasable (t : TaskInfo) : Bool := t.status ∈ [.pending, .paused]

/-- A latched resume that the `TaskDone` will release. -/
def Latched (m : Manager) : Prop :=
  ∃ p ∈ m.pendingPause, p.resumeRequested = true ∧ ∃ t ∈ m.row, releasable t = true

instance (m : Manager) : Decidable (Latched m) := inferInstanceAs (Decidable (∃ _ ∈ _, _))

/-- A pause finds no latched resume, a resume is latched over a row that allows its release, a
batch has read that a row is terminal, and only the active downloader writes statuses. -/
def Obeyed (m : Manager) : Label → Prop
  | .pauseTask _ => ¬ Latched m ∧ (m.queued ≠ none → m.activeTask = none)
  | .batchPause => ¬ Latched m
  | .resumeTask _ => m.pendingPause ≠ none → ∀ t ∈ m.row, releasable t = true
  | .restartTask _ => m.queued ≠ none → m.activeTask = none
  | .batchResume snapshot _ _ => (m.pendingPause ≠ none → ∀ t ∈ m.row, releasable t = true) ∧
    (m.activeTask ≠ none → ∀ t ∈ m.row, t.status.terminal = true → snapshot.status.terminal = true)
  | .spawnPreparing g => m.activeTask.any (fun e => e.handle && e.generation = g) = true
  | .spawnDownloading g => m.activeTask.any (fun e => e.handle && e.generation = g) = true
  | .spawnEnds g _ _ => m.activeTask.any (fun e => e.handle && e.generation = g) = true
  | _ => True

instance (m : Manager) (a : Label) : Decidable (Obeyed m a) := by
  cases a <;> unfold Obeyed <;> infer_instance

/-! ## The invariant -/

structure Idle (m : Manager) (ended : Bool) : Prop where
  active : m.activeTask = none
  queued : m.queued = none
  pause : m.pendingPause = none
  resolve : m.pendingResolve = none
  stopped : ∀ t ∈ m.row, Stopped ended t

structure Flushing (m : Manager) (p : PendingPause) : Prop where
  pause : m.pendingPause = some p
  unreported : ∀ sp ∈ m.spawns, sp.generation = p.generation → sp.reported = false
  row : ∀ t ∈ m.row, t.status = .paused ∨ t = cancelledRow ∨
    t.status = .pending ∧ p.resumeRequested = true

structure Busy (m : Manager) (ended : Bool) : Prop where
  busy : m.activeTask ≠ none ∨ m.queued ≠ none
  pause : m.pendingPause = none
  handle : ∀ e ∈ m.activeTask, e.handle = true → m.pendingResolve = none ∧
    ∀ sp ∈ m.spawns, sp.generation = e.generation → sp.reported = false ∧ sp.cancelled = false ∧
      (sp.ended = true → ended = true ∧ ∀ t ∈ m.row, t.status.terminal = true)
  placeholder : ∀ e ∈ m.activeTask, e.handle = false →
    m.pendingResolve.map PendingResolve.generation = some e.generation

inductive Mode (m : Manager) (last : Option Command) (ended : Bool) : Prop where
  | idle (h : Idle m ended) (hrun : last = some .run → ended = true)
  | flushing (p : PendingPause) (h : Flushing m p) (hrun : last = some .run → Latched m)
      (hstop : last = some .stop → ¬ Latched m)
  | busy (h : Busy m ended) (hstop : last ≠ some .stop)

structure Inv (s : Tracked) : Prop where
  consistent : Consistent s.manager
  mode : Mode s.manager s.last s.ended
  known : s.last ≠ none → s.manager.row ≠ none

variable {m t : Manager} {ended : Bool} {last : Option Command} {g : ℕ}

variable {p : PendingPause}

theorem latched_iff (hp : m.pendingPause = some p) :
    Latched m ↔ p.resumeRequested = true ∧ ∃ t ∈ m.row, releasable t = true := by
  simp [Latched, hp]

theorem Inv.lastWins {s : Tracked} (h : Inv s) : LastWins s := by
  intro hsettled
  cases h.mode with
  | idle hidle hrun =>
    refine ⟨fun hl => .inr (.inr (hrun hl)),fun hl => ⟨hidle.active,hidle.queued,?_⟩⟩
    obtain ⟨t,ht⟩ := ne_none_iff_exists'.mp (h.known (by simp [hl]))
    exact ⟨t,ht,hidle.stopped t ht⟩
  | flushing p hflush hrun hstop =>
    exfalso
    have hpaused := h.consistent.paused p hflush.pause
    have hnew := hpaused.2.2.2
    unfold newest at hnew
    obtain ⟨sp,hsp,hgen⟩ := map_eq_some_iff.mp hnew
    have hmem := mem_of_mem_head? hsp
    rcases hsettled sp hmem with hrep | hactive
    · simp [hflush.unreported sp hmem hgen] at hrep
    · simp [hpaused.1] at hactive
  | busy hbusy hstop =>
    refine ⟨fun _ => ?_,fun hl => absurd hl hstop⟩
    rcases hbusy.busy with ha | hq
    · exact .inl ha
    · exact .inr (.inl hq)

/-! ### Starting and queueing -/

theorem busy_of_queued (ended : Bool) (hp : m.pendingPause = none) (he : m.activeTask = none)
    (hq : m.queued ≠ none) : Busy m ended where
  busy := .inr hq
  pause := hp
  handle := by simp [he]
  placeholder := by simp [he]

theorem busy_spawnDownloader (hm : Consistent m) (ended : Bool) (hp : m.pendingPause = none)
    (hresolve : m.pendingResolve = none) : Busy m.spawnDownloader ended where
  busy := .inl (by simp [Manager.spawnDownloader])
  pause := hp
  handle := by
    intro e he _
    cases he
    refine ⟨hresolve,?_⟩
    intro sp hmem hgen
    rcases mem_cons.mp hmem with rfl | hsp
    · exact ⟨rfl,rfl,fun hended => by cases hended⟩
    · exact absurd hgen (Nat.lt_succ_of_le (hm.bounded sp hsp)).ne
  placeholder := by
    intro e he hhandle
    cases he
    cases hhandle

theorem busy_beginResolve (ended : Bool) (hp : m.pendingPause = none) (kind : ResolveKind) :
    Busy (m.beginResolve kind) ended where
  busy := .inl (by simp [Manager.beginResolve])
  pause := hp
  handle := by
    intro e he hhandle
    cases he
    cases hhandle
  placeholder := by
    intro e he _
    cases he
    rfl

theorem busy_doStartTask (hm : Consistent m) (ended : Bool) (hp : m.pendingPause = none)
    {resolved : Bool} (hresolve : resolved = true → m.pendingResolve = none) :
    Busy (m.doStartTask resolved) ended := by
  unfold Manager.doStartTask
  split_ifs with hbegin
  · exact busy_beginResolve ended hp _
  · exact busy_spawnDownloader hm ended hp (hm.pendingResolve_of_spawn hresolve hbegin)

theorem busy_doResumeTask (hm : Consistent m) (ended : Bool) (hp : m.pendingPause = none)
    (hrow : m.row ≠ none) {applied : Bool} (hresolve : applied = true → m.pendingResolve = none) :
    Busy (m.doResumeTask applied) ended := by
  obtain ⟨row,hrow⟩ := ne_none_iff_exists'.mp hrow
  unfold Manager.doResumeTask
  rw [hrow]
  simp only
  split_ifs with hbegin
  · exact busy_beginResolve ended hp _
  · exact busy_spawnDownloader hm ended hp (hm.pendingResolve_of_spawn hresolve hbegin)

theorem busy_resumeInactive (hm : Consistent m) (ended : Bool) (hp : m.pendingPause = none)
    (hrow : m.row ≠ none) (he : m.activeTask = none) (capacity : Bool) :
    Busy (m.resumeInactive capacity).1 ended := by
  unfold Manager.resumeInactive
  cases hq : m.queued with
  | some q => exact busy_of_queued ended hp he (by simp [hq])
  | none =>
    cases capacity with
    | true => exact busy_doResumeTask hm ended hp hrow (by simp)
    | false =>
      obtain ⟨row,hrow⟩ := ne_none_iff_exists'.mp hrow
      simp only [hrow]
      exact busy_of_queued ended hp he (by simp [Manager.pushQueued])

/-- A resume that has read whether the row is terminal leaves the task active or queued. -/
theorem busy_resumeWith (hm : Consistent m) (hp : m.pendingPause = none) (hrow : m.row ≠ none)
    (hbusy : m.activeTask ≠ none → ∃ ended, Busy m ended) (row : Option TaskInfo) (capacity : Bool)
    (hread : m.activeTask ≠ none → ∀ t ∈ m.row, t.status.terminal = true →
      (row.map (fun t => t.status.terminal)).getD false = true) :
    Busy (m.resumeWith row capacity).1 false := by
  unfold Manager.resumeWith
  rw [hp]
  cases he : m.activeTask with
  | none => exact busy_resumeInactive hm false hp hrow he capacity
  | some e =>
    have hactive : m.activeTask ≠ none := by simp [he]
    obtain ⟨ended,hold⟩ := hbusy hactive
    simp only
    split_ifs with hterminal
    · exact busy_resumeInactive (hm.forceRemove e.generation) false hp hrow rfl capacity
    · exact { hold with
        handle := by
          intro e' he' hhandle
          obtain ⟨hresolve,hspawn⟩ := hold.handle e' he' hhandle
          refine ⟨hresolve,?_⟩
          intro sp hsp hgen
          obtain ⟨hrep,hcancel,hend⟩ := hspawn sp hsp hgen
          refine ⟨hrep,hcancel,fun hended => ?_⟩
          obtain ⟨t,ht⟩ := ne_none_iff_exists'.mp hrow
          exact absurd (hread hactive t ht ((hend hended).2 t ht)) hterminal }

theorem Busy.updateTaskStatus (h : Busy m false) (status : TaskStatus) (message : String) :
    Busy (m.updateTaskStatus status message) false :=
  { h with
    handle := by
      intro e he hhandle
      refine ⟨(h.handle e he hhandle).1,?_⟩
      intro sp hsp hgen
      obtain ⟨hrep,hcancel,hend⟩ := (h.handle e he hhandle).2 sp hsp hgen
      exact ⟨hrep,hcancel,fun hended => absurd (hend hended).1 (by decide)⟩ }

theorem Busy.persistPending (h : Busy m false) (row : Option TaskInfo) :
    Busy (m.persistPending row) false := by
  unfold Manager.persistPending
  split_ifs
  · exact h
  · exact h.updateTaskStatus _ _

theorem Busy.drainQueue (h : Busy m ended) (hm : Consistent m) (queueCapacity : Bool) :
    Busy (m.drainQueue queueCapacity) ended := by
  unfold Manager.drainQueue
  cases hq : m.queued with
  | none => exact h
  | some q =>
    have hrow : m.row ≠ none := fun hrow => by simp [(hm.gone hrow).1] at hq
    simp only
    split_ifs with he
    · exact { h with busy := .inl (isSome_iff_ne_none.mp he) }
    · exact busy_doResumeTask hm.removeQueued ended h.pause hrow (by simp)
    · exact busy_doStartTask hm.removeQueued ended h.pause (by simp)
    · exact h

/-! ### The commands -/

theorem resumeWith_of_pendingPause (hp : m.pendingPause = some p) (row : Option TaskInfo)
    (capacity : Bool) : m.resumeWith row capacity =
      ({ m with pendingPause := some { p with resumeRequested := true } }, false) := by
  unfold Manager.resumeWith
  rw [hp]

theorem mode_latch (hrow : m.row ≠ none)
    (hspawn : ∀ sp ∈ m.spawns, sp.generation = p.generation → sp.reported = false)
    (hreleasable : ∀ t ∈ m.row, releasable t = true) :
    Mode { m with pendingPause := some { p with resumeRequested := true } } (some .run) false := by
  have hlatched : Latched { m with pendingPause := some { p with resumeRequested := true } } := by
    obtain ⟨t,ht⟩ := ne_none_iff_exists'.mp hrow
    exact ⟨_,rfl,rfl,t,ht,hreleasable t ht⟩
  refine Mode.flushing _ ⟨rfl,hspawn,?_⟩ (fun _ => hlatched) (fun hl => by cases hl)
  intro t ht
  have hr := hreleasable t ht
  cases hs : t.status <;> simp_all [releasable]

theorem busy_resumeTaskInner (hm : Consistent m) (hp : m.pendingPause = none) (hrow : m.row ≠ none)
    (hbusy : m.activeTask ≠ none → ∃ ended, Busy m ended) (capacity : Bool) :
    Busy (m.resumeTaskInner capacity) false := by
  have hresume := busy_resumeWith hm hp hrow hbusy m.row capacity
    (fun _ t ht hterminal => by simp [mem_def.mp ht, hterminal])
  unfold Manager.resumeTaskInner
  simp only
  split_ifs
  · exact hresume.persistPending _
  · exact hresume

/-- A resume of a task whose pending pause, if there is one, stands over a releasable row. -/
theorem mode_resumeTaskInner (hm : Consistent m) (hrow : m.row ≠ none)
    (hpending : ∀ p ∈ m.pendingPause, (∀ sp ∈ m.spawns, sp.generation = p.generation →
      sp.reported = false) ∧ ∀ t ∈ m.row, releasable t = true)
    (hbusy : m.activeTask ≠ none → ∃ ended, Busy m ended) (capacity : Bool) :
    Mode (m.resumeTaskInner capacity) (some .run) false := by
  cases hp : m.pendingPause with
  | some p =>
    unfold Manager.resumeTaskInner
    rw [resumeWith_of_pendingPause hp]
    exact mode_latch hrow (hpending p hp).1 (hpending p hp).2
  | none => exact Mode.busy (busy_resumeTaskInner hm hp hrow hbusy capacity) (by simp)

theorem mode_resumeTask (hm : Consistent m) (hrow : m.row ≠ none) (h : Mode m last ended)
    (hcond : m.pendingPause ≠ none → ∀ t ∈ m.row, releasable t = true) (capacity : Bool) :
    Mode (m.resumeTaskInner capacity) (some .run) false := by
  cases h with
  | idle hidle _ =>
    apply mode_resumeTaskInner hm hrow
    · simp [hidle.pause]
    · exact fun he => absurd hidle.active he
  | flushing p hflush _ _ =>
    apply mode_resumeTaskInner hm hrow
    · intro p' hp'
      cases hflush.pause.symm.trans hp'
      exact ⟨hflush.unreported,hcond (by simp [hflush.pause])⟩
    · exact fun he => absurd (hm.paused p hflush.pause).1 he
  | busy hbusy _ =>
    apply mode_resumeTaskInner hm hrow
    · simp [hbusy.pause]
    · exact fun _ => ⟨ended,hbusy⟩

theorem mode_batchResume (hm : Consistent m) (hrow : m.row ≠ none) (h : Mode m last ended)
    {snapshot : TaskInfo} (hcond : m.pendingPause ≠ none → ∀ t ∈ m.row, releasable t = true)
    (hread : m.activeTask ≠ none → ∀ t ∈ m.row, t.status.terminal = true →
      snapshot.status.terminal = true)
    (capacity drained : Bool) :
    Mode (m.batchResume snapshot capacity drained) (some .run) false := by
  unfold Manager.batchResume
  have hinactive : m.pendingPause = none → (m.activeTask ≠ none → ∃ ended, Busy m ended) →
      Busy (m.resumeWith (some snapshot) capacity).1 false := fun hp hbusy =>
    busy_resumeWith hm hp hrow hbusy _ capacity (fun he t ht hterminal => by simp [hread he t ht hterminal])
  have hbusy : Busy (m.resumeWith (some snapshot) capacity).1 false → Mode (
      let r := m.resumeWith (some snapshot) capacity
      if r.2 then
        (if drained then r.1.drainQueue true else r.1).persistPending (some snapshot)
      else r.1) (some .run) false := by
    intro hresume
    simp only
    split_ifs
    · exact Mode.busy ((hresume.drainQueue (hm.resumeWith _ _) _).persistPending _) (by simp)
    · exact Mode.busy (hresume.persistPending _) (by simp)
    · exact Mode.busy hresume (by simp)
  cases h with
  | idle hidle _ => exact hbusy (hinactive hidle.pause (fun he => absurd hidle.active he))
  | flushing p hflush _ _ =>
    rw [resumeWith_of_pendingPause hflush.pause]
    exact mode_latch hrow hflush.unreported (hcond (by simp [hflush.pause]))
  | busy hold _ => exact hbusy (hinactive hold.pause (fun _ => ⟨ended,hold⟩))

theorem stopped_paused (ended : Bool) (message : String) : Stopped ended ⟨.paused,message⟩ :=
  .inl rfl

theorem mode_pauseActive (hp : m.pendingPause = none) (hq : m.queued = none) {e : ActiveTaskEntry}
    (hspawn : e.handle = true → ∀ sp ∈ m.spawns, sp.generation = e.generation →
      sp.reported = false) (notify : Bool) :
    Mode ((m.clearPendingResolve.pauseActive e notify).updateTaskStatus .paused "") (some .stop)
      ended := by
  have hrow : ∀ t ∈ ((m.clearPendingResolve.pauseActive e notify).updateTaskStatus .paused "").row,
      t.status = .paused := by
    intro t ht
    simp only [Manager.updateTaskStatus, mem_def, map_eq_some_iff] at ht
    obtain ⟨_,_,rfl⟩ := ht
    rfl
  cases hhandle : e.handle with
  | false =>
    refine Mode.idle ⟨rfl,hq,?_,rfl,fun t ht => .inl (hrow t ht)⟩ (fun hl => by cases hl)
    simp [Manager.pauseActive, hhandle, hp, Manager.clearPendingResolve, Manager.cancelToken,
      Manager.removeActive]
  | true =>
    have hpause : ((m.clearPendingResolve.pauseActive e notify).updateTaskStatus .paused
        "").pendingPause = some ⟨e.generation,notify,false⟩ := by
      simp [Manager.pauseActive, hhandle]
    refine Mode.flushing _ ⟨hpause,?_,fun t ht => .inl (hrow t ht)⟩ (fun hl => by cases hl) ?_
    · intro sp hsp hgen
      obtain ⟨old,hold,rfl⟩ := Manager.mem_updateSpawn.mp hsp
      split_ifs at hgen ⊢ with hg
      · exact hspawn hhandle old hold hg
      · exact absurd hgen hg
    · intro _ hlatched
      have hreq := ((latched_iff hpause).mp hlatched).1
      cases hreq

theorem mode_pauseTask (h : Mode m last ended) (hcond : ¬ Latched m)
    (hboth : m.queued ≠ none → m.activeTask = none) (notify : Bool) :
    Mode (m.pauseTaskInner notify) (some .stop) ended := by
  rcases m.pauseTaskInner_cases notify with
    ⟨p,hp,heq⟩ | ⟨hp,hq,heq⟩ | ⟨hp,hq,he,heq⟩ | ⟨hp,hq,e,he,heq⟩ <;> rw [heq]
  · cases h with
    | idle hidle _ => simp [hidle.pause] at hp
    | busy hbusy _ => simp [hbusy.pause] at hp
    | flushing p' hflush _ _ =>
      cases hflush.pause.symm.trans hp
      refine Mode.flushing _ ⟨rfl,hflush.unreported,hflush.row⟩ (fun hl => by cases hl) ?_
      intro _ hlatched
      obtain ⟨q,hq,hreq,hrow⟩ := hlatched
      cases hq
      exact hcond ⟨p,hp,hreq,hrow⟩
  · refine Mode.idle ⟨hboth hq,rfl,hp,rfl,?_⟩ (fun hl => by cases hl)
    intro t ht
    simp only [Manager.updateTaskStatus, mem_def, map_eq_some_iff] at ht
    obtain ⟨_,_,rfl⟩ := ht
    exact stopped_paused _ _
  · cases h with
    | idle hidle _ => exact Mode.idle ⟨he,hq,hp,rfl,hidle.stopped⟩ (fun hl => by cases hl)
    | flushing p hflush _ _ => simp [hflush.pause] at hp
    | busy hbusy _ =>
      rcases hbusy.busy with hne | hne
      · exact absurd he hne
      · exact absurd hq hne
  · cases h with
    | idle hidle _ => simp [hidle.active] at he
    | flushing p hflush _ _ => simp [hflush.pause] at hp
    | busy hbusy _ =>
      apply mode_pauseActive hp hq
      exact fun hhandle sp hsp hgen => ((hbusy.handle e he hhandle).2 sp hsp hgen).1

theorem mode_batchPause (hm : Consistent m) (h : Mode m last ended) (hcond : ¬ Latched m) :
    Mode m.batchPause (some .stop) ended := by
  unfold Manager.batchPause
  cases h with
  | idle hidle _ =>
    simp only [hidle.queued, hidle.active, isSome_none, Bool.false_eq_true, if_false]
    exact Mode.idle hidle (fun hl => by cases hl)
  | flushing p hflush _ _ =>
    have hpaused := hm.paused p hflush.pause
    simp only [hpaused.1, hpaused.2.1, isSome_none, Bool.false_eq_true, if_false]
    exact Mode.flushing p hflush (fun hl => by cases hl) (fun _ => hcond)
  | busy hbusy _ =>
    cases hq : m.queued with
    | none =>
      have he : m.activeTask ≠ none := hbusy.busy.resolve_right (fun hne => hne hq)
      simp only [isSome_none, Bool.false_eq_true, if_false,
        if_pos (isSome_iff_ne_none.mpr he)]
      have hmode : Mode m none ended := Mode.busy hbusy (by simp)
      exact mode_pauseTask hmode hcond (fun hne => absurd hq hne) false
    | some q =>
      simp only [isSome_some, if_true]
      cases he : m.activeTask with
      | none =>
        simp only [isSome_none, Bool.false_eq_true, if_false]
        refine Mode.idle ⟨he,rfl,hbusy.pause,rfl,?_⟩ (fun hl => by cases hl)
        intro t ht
        simp only [Manager.updateTaskStatus, mem_def, map_eq_some_iff] at ht
        obtain ⟨_,_,rfl⟩ := ht
        exact stopped_paused _ _
      | some e =>
        simp only [isSome_some, if_true]
        have hpause : (m.removeQueued.clearPendingResolve.updateTaskStatus .paused
            "").pendingPause = none := hbusy.pause
        rcases (m.removeQueued.clearPendingResolve.updateTaskStatus .paused
            "").pauseTaskInner_cases false with
          ⟨p,hp,-⟩ | ⟨-,hne,-⟩ | ⟨-,-,hne,-⟩ | ⟨-,-,e',he',heq⟩
        · exact absurd (hpause.symm.trans hp) (by simp)
        · exact absurd rfl hne
        · exact absurd (he.symm.trans hne) (by simp)
        · cases he.symm.trans he'
          rw [heq]
          apply mode_pauseActive hpause rfl
          exact fun hhandle sp hsp hgen => ((hbusy.handle e he hhandle).2 sp hsp hgen).1

theorem mode_cancelTask (hm : Consistent m) (h : Mode m last ended) :
    Mode m.cancelTask (some .stop) ended := by
  have hrow : ∀ t ∈ m.cancelTask.row, t = cancelledRow := by
    intro t ht
    simp only [Manager.cancelTask, Manager.updateTaskStatus, mem_def,
      map_eq_some_iff] at ht
    obtain ⟨_,_,rfl⟩ := ht
    rfl
  have hcancel : m.cancelTask.activeTask = none ∧ m.cancelTask.queued = none ∧
      m.cancelTask.pendingResolve = none ∧ m.cancelTask.pendingPause = m.pendingPause := by
    unfold Manager.cancelTask Manager.cancelActive
    cases he : m.clearPendingResolve.removeQueued.activeTask with
    | none => exact ⟨he,rfl,rfl,rfl⟩
    | some e => exact ⟨rfl,rfl,rfl,rfl⟩
  obtain ⟨hactive,hqueued,hresolve,hpause⟩ := hcancel
  have hidle : m.pendingPause = none → Mode m.cancelTask (some .stop) ended := fun hp =>
    Mode.idle ⟨hactive,hqueued,hpause.trans hp,hresolve,fun t ht => .inr (.inl (hrow t ht))⟩
      (fun hl => by cases hl)
  cases h with
  | idle h _ => exact hidle h.pause
  | busy h _ => exact hidle h.pause
  | flushing p hflush _ _ =>
    have hspawns : m.cancelTask.spawns = m.spawns := by
      have he := (hm.paused p hflush.pause).1
      simp [Manager.cancelTask, Manager.cancelActive, Manager.clearPendingResolve,
        Manager.removeQueued, he]
    refine Mode.flushing p ⟨hpause.trans hflush.pause,hspawns ▸ hflush.unreported,?_⟩
      (fun hl => by cases hl) ?_
    · exact fun t ht => .inr (.inl (hrow t ht))
    · rintro _ ⟨_,_,_,t,ht,hr⟩
      rw [hrow t ht] at hr
      cases hr

theorem Mode.unreported (h : Mode m last ended) (hp : m.pendingPause = some p) :
    ∀ sp ∈ m.spawns, sp.generation = p.generation → sp.reported = false := by
  cases h with
  | idle hidle _ => simp [hidle.pause] at hp
  | flushing p' hflush _ _ =>
    cases hflush.pause.symm.trans hp
    exact hflush.unreported
  | busy hbusy _ => simp [hbusy.pause] at hp

/-- What a pause leaves for the resume of a restart. -/
theorem pauseTaskInner_inactive (hm : Consistent m) (h : Mode m last ended)
    (hboth : m.queued ≠ none → m.activeTask = none) (notify : Bool) :
    (m.pauseTaskInner notify).activeTask = none ∧
      ∀ p ∈ (m.pauseTaskInner notify).pendingPause, ∀ sp ∈ (m.pauseTaskInner notify).spawns,
        sp.generation = p.generation → sp.reported = false := by
  rcases m.pauseTaskInner_cases notify with
    ⟨p,hp,heq⟩ | ⟨hp,hq,heq⟩ | ⟨hp,hq,he,heq⟩ | ⟨hp,hq,e,he,heq⟩ <;> rw [heq]
  · refine ⟨(hm.paused p hp).1,?_⟩
    intro p' hp' sp hsp hgen
    cases hp'
    exact h.unreported hp sp hsp hgen
  · exact ⟨hboth hq,fun p hp' => absurd (hp.symm.trans hp') (by simp)⟩
  · exact ⟨he,fun p hp' => absurd (hp.symm.trans hp') (by simp)⟩
  · have hmode : Mode ((m.clearPendingResolve.pauseActive e notify).updateTaskStatus .paused "")
        (some .stop) ended := by
      apply mode_pauseActive hp hq
      intro hhandle sp hsp hgen
      cases h with
      | idle hidle _ => simp [hidle.active] at he
      | flushing p hflush _ _ => simp [hflush.pause] at hp
      | busy hbusy _ => exact ((hbusy.handle e he hhandle).2 sp hsp hgen).1
    exact ⟨rfl,fun p hp' => hmode.unreported hp'⟩

theorem mode_restartTask (hm : Consistent m) (hrow : m.row ≠ none) (h : Mode m last ended)
    (hboth : m.queued ≠ none → m.activeTask = none) (capacity : Bool) :
    Mode (m.restartTask capacity) (some .run) false := by
  have hreleasable : ∀ m : Manager, ∀ t ∈ (m.updateTaskStatus .pending "").row,
      releasable t = true := by
    intro m t ht
    simp only [Manager.updateTaskStatus, mem_def, map_eq_some_iff] at ht
    obtain ⟨_,_,rfl⟩ := ht
    rfl
  obtain ⟨row,hsome⟩ := ne_none_iff_exists'.mp hrow
  unfold Manager.restartTask
  rw [hsome]
  simp only
  split_ifs with hactive
  · obtain ⟨hinactive,hunreported⟩ := pauseTaskInner_inactive hm h hboth false
    apply mode_resumeTaskInner ((hm.pauseTaskInner false).updateTaskStatus _ _)
    · simpa [m.pauseTaskInner_row_eq_none] using hrow
    · exact fun p hp => ⟨hunreported p hp,hreleasable _⟩
    · exact fun he => absurd hinactive he
  · rw [Bool.or_eq_true, not_or, not_isSome_iff_eq_none] at hactive
    apply mode_resumeTaskInner (hm.updateTaskStatus _ _)
    · simpa using hrow
    · exact fun p hp => ⟨h.unreported hp,hreleasable m⟩
    · exact fun he => absurd hactive.1 he

/-! ### The environment -/

theorem mode_drainQueue (hm : Consistent m) (h : Mode m last ended) (queueCapacity : Bool) :
    Mode (m.drainQueue queueCapacity) last ended := by
  have hnone : m.queued = none → m.drainQueue queueCapacity = m := by
    intro hq
    simp [Manager.drainQueue, hq]
  cases h with
  | idle hidle hrun =>
    rw [hnone hidle.queued]
    exact Mode.idle hidle hrun
  | flushing p hflush hrun hstop =>
    rw [hnone (hm.paused p hflush.pause).2.1]
    exact Mode.flushing p hflush hrun hstop
  | busy hbusy hstop => exact Mode.busy (hbusy.drainQueue hm queueCapacity) hstop

theorem removeMatching_of_inactive (he : m.activeTask = none) (g : ℕ) : m.removeMatching g = m := by
  simp [Manager.removeMatching, he]

theorem Busy.of_not_ended (h : Busy m false) : Busy m ended :=
  { h with
    handle := by
      intro e he hhandle
      refine ⟨(h.handle e he hhandle).1,?_⟩
      intro sp hsp hgen
      obtain ⟨hrep,hcancel,hend⟩ := (h.handle e he hhandle).2 sp hsp hgen
      exact ⟨hrep,hcancel,fun hended => absurd (hend hended).1 (by decide)⟩ }

/-- The `TaskDone` of the downloader that a pause waits for releases a latched resume. -/
theorem mode_release (hm : Consistent m) (hp : m.pendingPause = some p)
    (hrow : ∀ t ∈ m.row, t.status = .paused ∨ t = cancelledRow ∨ t.status = .pending ∧ p.resumeRequested = true)
    (hrun : last = some .run → Latched m) (hstop : last = some .stop → ¬ Latched m)
    (capacity : Bool) :
    Mode (m.onTaskDone p.generation capacity) last ended := by
  have hpaused := hm.paused p hp
  have hfinish : m.finishPendingPause p.generation = ({ m with pendingPause := none },
      (m.row.map (fun t => p.resumeRequested && releasable t)).getD false) := by
    simp [Manager.finishPendingPause, hp, hpaused.1, releasable]
  have hiff : (m.row.map (fun t => p.resumeRequested && releasable t)).getD false = true ↔
      Latched m := by
    rw [latched_iff hp]
    cases hr : m.row <;> simp
  unfold Manager.onTaskDone
  rw [removeMatching_of_inactive hpaused.1, hfinish]
  simp only
  split_ifs with hreleased
  · have hlatched := hiff.mp hreleased
    obtain ⟨q,hq,hreq,t,ht,hr⟩ := hlatched
    have hresume : Busy (({ m with pendingPause := none } : Manager).resumeTaskInner capacity) false :=
      busy_resumeTaskInner hm.finish rfl (by simp [mem_def.mp ht])
        (fun he => absurd hpaused.1 he) capacity
    exact Mode.busy hresume.of_not_ended (fun hl => hstop hl ⟨q,hq,hreq,t,ht,hr⟩)
  · have hnot : ¬ Latched m := fun hl => hreleased (hiff.mpr hl)
    refine Mode.idle ⟨hpaused.1,hpaused.2.1,rfl,hpaused.2.2.1,?_⟩ (fun hl => absurd (hrun hl) hnot)
    intro t ht
    rcases hrow t ht with hs | hs | ⟨hs,hreq⟩
    · exact .inl hs
    · exact .inr (.inl hs)
    · exfalso
      apply hnot
      rw [latched_iff hp]
      exact ⟨hreq,t,ht,by simp [releasable, hs]⟩

def report (m : Manager) (g : ℕ) : Manager :=
  m.updateSpawn g (fun sp => { sp with reported := true, seen := true })

theorem mode_onTaskDone (hm : Consistent m) (h : Mode m last ended) {sp : Spawn}
    (hsp : sp ∈ m.spawns) (hgen : sp.generation = g) (hexited : sp.exited = true) (capacity : Bool) :
    Mode ((report m g).onTaskDone g capacity) last ended := by
  have hreport : Consistent (report m g) := hm.updateSpawn (fun _ => rfl) (fun _ _ _ hx => hx)
  have hother : ∀ {g' : ℕ}, g' ≠ g → ∀ sp' ∈ (report m g).spawns, sp'.generation = g' →
      sp' ∈ m.spawns := by
    intro g' hne sp' hmem hgen'
    obtain ⟨old,hold,rfl⟩ := Manager.mem_updateSpawn.mp hmem
    split_ifs at hgen' ⊢ with hg
    · exact absurd (hgen'.symm.trans hg) hne
    · exact hold
  cases h with
  | idle hidle hrun =>
    have heq : (report m g).onTaskDone g capacity = report m g := by
      unfold Manager.onTaskDone
      rw [removeMatching_of_inactive (show (report m g).activeTask = none from hidle.active)]
      simp [Manager.finishPendingPause, report, hidle.pause]
    rw [heq]
    exact Mode.idle { hidle with } hrun
  | flushing p hflush hrun hstop =>
    have hpaused := hm.paused p hflush.pause
    by_cases hp : p.generation = g
    · subst hp
      exact mode_release hreport hflush.pause hflush.row hrun hstop capacity
    · have heq : (report m g).onTaskDone g capacity = report m g := by
        unfold Manager.onTaskDone
        rw [removeMatching_of_inactive (show (report m g).activeTask = none from hpaused.1)]
        simp [Manager.finishPendingPause, report, hflush.pause, hp]
      rw [heq]
      refine Mode.flushing p { hflush with unreported := ?_ } hrun hstop
      intro sp' hmem hgen'
      exact hflush.unreported sp' (hother hp sp' hmem hgen') hgen'
  | busy hbusy hstop =>
    have heq : (report m g).onTaskDone g capacity = (report m g).removeMatching g := by
      have hp : ((report m g).removeMatching g).pendingPause = none := by
        unfold Manager.removeMatching
        split_ifs <;> exact hbusy.pause
      unfold Manager.onTaskDone Manager.finishPendingPause
      rw [hp]
      simp
    rw [heq]
    unfold Manager.removeMatching
    split_ifs with hany
    · obtain ⟨e,he⟩ : ∃ e, m.activeTask = some e := by
        cases he : m.activeTask with
        | none => simp [report, he] at hany
        | some e => exact ⟨e,rfl⟩
      have hg : e.generation = g := by simpa [report, he] using hany
      have hhandle : e.handle = true := by
        by_contra hh
        rw [Bool.not_eq_true] at hh
        exact hm.placeholder e he hh sp hsp (hgen.trans hg.symm)
      obtain ⟨hresolve,hspawn⟩ := hbusy.handle e he hhandle
      obtain ⟨-,hcancel,hend⟩ := hspawn sp hsp (hgen.trans hg.symm)
      have hended := hend ((hm.exited sp hsp hexited).resolve_right (by simp [hcancel]))
      cases hq : m.queued with
      | some q => exact Mode.busy (busy_of_queued ended hbusy.pause rfl (by simp [report,
          Manager.removeActive, hq])) hstop
      | none =>
        refine Mode.idle ⟨rfl,hq,hbusy.pause,hresolve,?_⟩ (fun _ => hended.1)
        exact fun t ht => .inr (.inr ⟨hended.1,hended.2 t ht⟩)
    · refine Mode.busy { hbusy with handle := ?_ } hstop
      intro e he hhandle
      have hne : e.generation ≠ g := by
        intro hg
        apply hany
        rw [show (report m g).activeTask = some e from he]
        simp [hg]
      refine ⟨(hbusy.handle e he hhandle).1,?_⟩
      intro sp' hmem hgen'
      exact (hbusy.handle e he hhandle).2 sp' (hother hne sp' hmem hgen') hgen'

theorem removeMatching_of_stale (hm : Consistent m) (h : Busy m ended)
    (hg : ∀ sp ∈ m.spawns, sp.generation ≠ g)
    (hstale : m.pendingResolve.map PendingResolve.generation ≠ some g) : m.removeMatching g = m := by
  unfold Manager.removeMatching
  split_ifs with hany
  · exfalso
    cases he : m.activeTask with
    | none => simp [he] at hany
    | some e =>
      have hgen : e.generation = g := by simpa [he] using hany
      cases hhandle : e.handle with
      | true =>
        have hnew := hm.active e he hhandle
        unfold newest at hnew
        obtain ⟨sp,hsp,hsame⟩ := map_eq_some_iff.mp hnew
        exact hg sp (mem_of_mem_head? hsp) (hsame.trans hgen)
      | false => exact hstale (hgen ▸ h.placeholder e he hhandle)
  · rfl

/-- The outcome of a resolver worker, whose generation is that of no downloader. -/
theorem mode_onResolveReady (hm : Consistent m) (h : Mode m last ended)
    (hg : ∀ sp ∈ m.spawns, sp.generation ≠ g) (result : ResolveResult) :
    Mode (m.onResolveReady g result)
      (if dismissed m (.onResolveReady g result) then some .stop else last)
      (ended || endsItself m (.onResolveReady g result)) := by
  have hstale : m.pendingResolve.map PendingResolve.generation ≠ some g →
      m.onResolveReady g result = m.removeMatching g ∧
        dismissed m (.onResolveReady g result) = false ∧
        endsItself m (.onResolveReady g result) = false := by
    intro hne
    unfold Manager.onResolveReady
    cases hr : m.pendingResolve with
    | none => cases result <;> simp [dismissed, endsItself, hr]
    | some pr =>
      have hgen : pr.generation ≠ g := by simpa [hr] using hne
      cases result <;> simp [dismissed, endsItself, hr, hgen]
  by_cases hawaited : m.pendingResolve.map PendingResolve.generation = some g
  · obtain ⟨pr,hr,hgen⟩ := map_eq_some_iff.mp hawaited
    have hne : m.pendingResolve ≠ none := by simp [hr]
    have hrow : m.row ≠ none := fun hrow => hne (hm.gone hrow).2
    cases h with
    | idle hidle _ => exact absurd hidle.resolve hne
    | flushing p hflush _ _ => exact absurd (hm.paused p hflush.pause).2.2.1 hne
    | busy hbusy hstop =>
      have hclear := hm.clearPendingResolve
      unfold Manager.onResolveReady
      cases result with
      | ok =>
        simp only [hr, hgen, ne_eq, not_true_eq_false, if_false, hrow, dismissed, endsItself,
          Bool.false_eq_true, Bool.or_false]
        cases pr.kind with
        | start => exact Mode.busy (busy_doStartTask hclear ended hbusy.pause (fun _ => rfl)) hstop
        | resume =>
          exact Mode.busy (busy_doResumeTask hclear.removeActive ended hbusy.pause hrow
            (fun _ => rfl)) hstop
      | error message =>
        simp only [hr, hgen, ne_eq, not_true_eq_false, if_false, dismissed, endsItself,
          Bool.false_eq_true, any_some, decide_true, Bool.or_true]
        cases hq : m.queued with
        | some q =>
          refine Mode.busy (busy_of_queued true hbusy.pause rfl ?_) hstop
          simp [Manager.updateTaskStatus, Manager.clearPendingResolve, Manager.removeActive, hq]
        | none =>
          refine Mode.idle ⟨rfl,hq,hbusy.pause,rfl,?_⟩ (fun _ => rfl)
          intro t ht
          simp only [Manager.updateTaskStatus, Manager.clearPendingResolve, Manager.removeActive,
            mem_def, map_eq_some_iff] at ht
          obtain ⟨_,_,rfl⟩ := ht
          exact .inr (.inr ⟨rfl,rfl⟩)
      | cancelled =>
        simp only [hr, hgen, ne_eq, not_true_eq_false, if_false, dismissed, endsItself,
          any_some, decide_true, if_true, Bool.or_false]
        exact mode_cancelTask hm (Mode.busy hbusy hstop)
  · obtain ⟨heq,hdismissed,hends⟩ := hstale hawaited
    rw [heq, hdismissed, hends, Bool.or_false]
    simp only [Bool.false_eq_true, if_false]
    cases h with
    | idle hidle hrun =>
      rw [removeMatching_of_inactive hidle.active]
      exact Mode.idle hidle hrun
    | flushing p hflush hrun hstop =>
      rw [removeMatching_of_inactive (hm.paused p hflush.pause).1]
      exact Mode.flushing p hflush hrun hstop
    | busy hbusy hstop =>
      rw [removeMatching_of_stale hm hbusy hg hawaited]
      exact Mode.busy hbusy hstop

theorem Mode.busy_of_active (h : Mode m last ended) (hm : Consistent m)
    (hactive : m.activeTask ≠ none) : Busy m ended ∧ last ≠ some .stop := by
  cases h with
  | idle hidle _ => exact absurd hidle.active hactive
  | flushing p hflush _ _ => exact absurd (hm.paused p hflush.pause).1 hactive
  | busy hbusy hstop => exact ⟨hbusy,hstop⟩

theorem active_of_any (hany : m.activeTask.any (fun e => e.handle && e.generation = g) = true) :
    ∃ e, m.activeTask = some e ∧ e.handle = true ∧ e.generation = g := by
  cases he : m.activeTask with
  | none => simp [he] at hany
  | some e => exact ⟨e,rfl,by simpa [he] using hany⟩

theorem mode_spawnStatus (hm : Consistent m) (h : Mode m last ended) {sp : Spawn}
    (hsp : sp ∈ m.spawns) (hgen : sp.generation = g) (hrunning : sp.Running)
    (hactive : m.activeTask.any (fun e => e.handle && e.generation = g) = true)
    (status : TaskStatus) : Mode (m.updateTaskStatus status "") last ended := by
  obtain ⟨e,he,hhandle,hg⟩ := active_of_any hactive
  obtain ⟨hbusy,hstop⟩ := h.busy_of_active hm (by simp [he])
  refine Mode.busy { hbusy with handle := ?_ } hstop
  intro e' he' hhandle'
  cases he.symm.trans he'
  refine ⟨(hbusy.handle e he hhandle).1,?_⟩
  intro sp' hsp' hgen'
  obtain ⟨hrep,hcancel,-⟩ := (hbusy.handle e he hhandle).2 sp' hsp' hgen'
  refine ⟨hrep,hcancel,fun hended => ?_⟩
  have hsame := hm.eq_of_generation hsp' hsp (hgen'.trans (hg.trans hgen.symm))
  exact absurd (hsame ▸ hended) (by simp [hrunning.1])

theorem mode_spawnEnds (hm : Consistent m) (h : Mode m last ended)
    (hactive : m.activeTask.any (fun e => e.handle && e.generation = g) = true) (completed : Bool)
    (message : String) :
    Mode { m.updateSpawn g (fun sp => { sp with ended := true }) with
      row := m.row.map (fun _ => endStatus completed message) } last true := by
  obtain ⟨e,he,hhandle,hg⟩ := active_of_any hactive
  obtain ⟨hbusy,hstop⟩ := h.busy_of_active hm (by simp [he])
  have hterminal : ∀ t ∈ m.row.map (fun _ => endStatus completed message),
      t.status.terminal = true := by
    intro t ht
    obtain ⟨_,_,rfl⟩ := map_eq_some_iff.mp ht
    cases completed <;> rfl
  refine Mode.busy ⟨hbusy.busy,hbusy.pause,?_,hbusy.placeholder⟩ hstop
  intro e' he' hhandle'
  refine ⟨(hbusy.handle e' he' hhandle').1,?_⟩
  intro sp' hmem hgen'
  obtain ⟨old,hold,rfl⟩ := Manager.mem_updateSpawn.mp hmem
  have hsame : (if old.generation = g then { old with ended := true } else old).generation =
      old.generation := by split_ifs <;> rfl
  obtain ⟨hrep,hcancel,-⟩ := (hbusy.handle e' he' hhandle').2 old hold (hsame.symm.trans hgen')
  refine ⟨?_,?_,fun _ => ⟨rfl,hterminal⟩⟩
  · split_ifs
    · exact hrep
    · exact hrep
  · split_ifs
    · exact hcancel
    · exact hcancel

theorem mode_spawnExits (h : Mode m last ended) :
    Mode (m.updateSpawn g (fun sp => { sp with exited := true })) last ended := by
  have hold : ∀ sp' ∈ (m.updateSpawn g (fun sp => { sp with exited := true })).spawns,
      ∃ sp ∈ m.spawns, sp'.generation = sp.generation ∧ sp'.reported = sp.reported ∧
        sp'.cancelled = sp.cancelled ∧ sp'.ended = sp.ended := by
    intro sp' hmem
    obtain ⟨sp,hsp,rfl⟩ := Manager.mem_updateSpawn.mp hmem
    refine ⟨sp,hsp,?_⟩
    split_ifs <;> exact ⟨rfl,rfl,rfl,rfl⟩
  cases h with
  | idle hidle hrun => exact Mode.idle { hidle with } hrun
  | flushing p hflush hrun hstop =>
    refine Mode.flushing p { hflush with unreported := ?_ } hrun hstop
    intro sp' hmem hgen
    obtain ⟨sp,hsp,hgen',hrep,-,-⟩ := hold sp' hmem
    exact hrep.trans (hflush.unreported sp hsp (hgen'.symm.trans hgen))
  | busy hbusy hstop =>
    refine Mode.busy { hbusy with handle := ?_ } hstop
    intro e he hhandle
    refine ⟨(hbusy.handle e he hhandle).1,?_⟩
    intro sp' hmem hgen
    obtain ⟨sp,hsp,hgen',hrep,hcancel,hend⟩ := hold sp' hmem
    rw [hrep, hcancel, hend]
    exact (hbusy.handle e he hhandle).2 sp hsp (hgen'.symm.trans hgen)

theorem mode_createTask (hm : Consistent m) (hrow : m.row = none) (hp : m.pendingPause = none)
    (he : m.activeTask = none) (ended resolver startPaused capacity : Bool) :
    Mode (m.createTask resolver startPaused capacity) none ended := by
  have hgone := hm.gone hrow
  have hcreated : Consistent { m with resolver := resolver, row := some ⟨.pending,""⟩ } :=
    { hm with
      resolver := fun hne => absurd hgone.2 hne
      gone := by simp }
  unfold Manager.createTask
  cases startPaused with
  | true =>
    refine Mode.idle ⟨he,hgone.1,hp,hgone.2,?_⟩ (by simp)
    intro t ht
    cases ht
    exact stopped_paused _ _
  | false =>
    cases capacity with
    | true => exact Mode.busy (busy_doStartTask hcreated ended hp (by simp)) (by simp)
    | false => exact Mode.busy (busy_of_queued ended hp he (by simp [Manager.pushQueued])) (by simp)

theorem mode_step (hm : Consistent m) (h : Mode m last ended) (hknown : last ≠ none → m.row ≠ none)
    {a : Label} (hcond : Obeyed m a) (hother : otherFeature a = false)
    (hrow : command? a ≠ none → m.row ≠ none) (hstep : TaskManager.step m a = some t) :
    match command? a with
    | some c => Mode t (some c) (c = .stop && ended)
    | none => Mode t (if dismissed m a then some .stop else last) (ended || endsItself m a) := by
  cases a with
  | pauseTask notify =>
    cases hstep
    exact mode_pauseTask h hcond.1 hcond.2 notify
  | batchPause =>
    cases hstep
    exact mode_batchPause hm h hcond
  | cancelTask =>
    cases hstep
    exact mode_cancelTask hm h
  | resumeTask capacity =>
    cases hstep
    exact mode_resumeTask hm (hrow (by simp [command?])) h hcond capacity
  | restartTask capacity =>
    cases hstep
    exact mode_restartTask hm (hrow (by simp [command?])) h hcond capacity
  | batchResume snapshot capacity drained =>
    simp only [TaskManager.step] at hstep
    split_ifs at hstep with hnone
    cases hstep
    exact mode_batchResume hm hnone h hcond.1 hcond.2 capacity drained
  | createTask resolver startPaused capacity =>
    simp only [TaskManager.step] at hstep
    split_ifs at hstep with hnew
    cases hstep
    have hlast : last = none := by
      by_contra hne
      exact hknown hne hnew.1
    subst hlast
    simpa [command?, dismissed, endsItself] using
      mode_createTask hm hnew.1 hnew.2.2.2 hnew.2.2.1 ended resolver startPaused capacity
  | drainQueue queueCapacity =>
    cases hstep
    simpa [command?, dismissed, endsItself] using mode_drainQueue hm h queueCapacity
  | onTaskDone g capacity =>
    simp only [TaskManager.step, spawnStep_eq_some] at hstep
    obtain ⟨⟨sp,hsp,hgen,hexited,-⟩,rfl⟩ := hstep
    simpa [command?, dismissed, endsItself, report] using
      mode_onTaskDone hm h hsp hgen hexited capacity
  | onResolveReady g result =>
    simp only [TaskManager.step] at hstep
    split_ifs at hstep with hg
    cases hstep
    have herase := hm.eraseWorker g
    have hmode : Mode { m with resolveWorkers := m.resolveWorkers.erase g } last ended := by
      cases h with
      | idle hidle hrun => exact Mode.idle { hidle with } hrun
      | flushing p hflush hrun hstop => exact Mode.flushing p { hflush with } hrun hstop
      | busy hbusy hstop => exact Mode.busy { hbusy with } hstop
    exact mode_onResolveReady herase hmode (hm.workers g hg).2 result
  | spawnPreparing g | spawnDownloading g =>
    simp only [TaskManager.step, spawnStep_eq_some] at hstep
    obtain ⟨⟨sp,hsp,hgen,hrunning⟩,rfl⟩ := hstep
    simpa [command?, dismissed, endsItself] using mode_spawnStatus hm h hsp hgen hrunning hcond _
  | spawnEnds g completed message =>
    simp only [TaskManager.step, spawnStep_eq_some] at hstep
    obtain ⟨-,rfl⟩ := hstep
    have hends := mode_spawnEnds hm h hcond completed message
    simpa [command?, dismissed, endsItself, show m.activeTask.any _ = true from hcond] using hends
  | spawnExits g =>
    simp only [TaskManager.step, spawnStep_eq_some] at hstep
    obtain ⟨-,rfl⟩ := hstep
    simpa [command?, dismissed, endsItself] using mode_spawnExits h
  | setTaskSegments capacity => cases hother
  | setPriorityTask capacity => cases hother
  | autoRetry capacity => cases hother
  | deleteTask => cases hother

theorem Inv.step {s u : Tracked} {a : Label} (h : Inv s) (hcond : Obeyed s.manager a)
    (hstep : step s a = some u) : Inv u := by
  unfold LastCommand.step at hstep
  have hother : otherFeature a = false := by
    cases ho : otherFeature a with
    | false => rfl
    | true => simp [ho] at hstep
  simp only [hother, Bool.false_eq_true, if_false] at hstep
  obtain ⟨m,hm,hstep⟩ := bind_eq_some_iff.mp hstep
  have hconsistent := h.consistent.step hm
  have hdelete : a ≠ .deleteTask := fun ha => by simp [ha, otherFeature] at hother
  cases hc : command? a with
  | some c =>
    simp only [hc] at hstep
    split_ifs at hstep with hrow
    cases hstep
    have hmode := mode_step h.consistent h.mode h.known hcond hother (fun _ => hrow) hm
    rw [hc] at hmode
    exact ⟨hconsistent,hmode,fun _ => row_ne_none_step hrow hdelete hm⟩
  | none =>
    simp only [hc] at hstep
    cases hstep
    have hmode := mode_step h.consistent h.mode h.known hcond hother (fun hne => absurd hc hne) hm
    rw [hc] at hmode
    refine ⟨hconsistent,hmode,?_⟩
    intro hlast
    apply row_ne_none_step _ hdelete hm
    intro hrow
    have hresolve := (h.consistent.gone hrow).2
    have hdismissed : dismissed s.manager a = false := by
      cases a with
      | onResolveReady g result => cases result <;> simp [dismissed, hresolve]
      | _ => rfl
    simp only [hdismissed, Bool.false_eq_true, if_false] at hlast
    exact h.known hlast hrow

theorem inv_initial {s : Tracked} (h : Initial s) : Inv s where
  consistent := Consistent.initial h.manager
  mode := by
    refine Mode.idle ⟨h.manager.active,h.manager.queue,h.manager.pause,h.manager.resolve,?_⟩
      (by simp [h.last])
    intro t ht
    rcases h.manager.idle t ht with hpaused | hterminal
    · exact .inl hpaused
    · right
      right
      refine ⟨?_,hterminal⟩
      simp [h.ended, mem_def.mp ht, hterminal]
  known := by simp [h.last]

/-- In every run whose steps obey the condition, the last command decides: once all old downloaders
have reported, the task is running or queued after a resume, and stopped after a pause or cancel. -/
theorem last_command_wins {s u : Tracked} {as : List Label} (hs : Initial s)
    (hcond : Meets step (fun s a => Obeyed s.manager a) s as) (hrun : exec step s as = some u) :
    LastWins u :=
  (exec_invariant_of_meets (fun _ _ _ h hc hstep => h.step hc hstep) (inv_initial hs) hcond
    hrun).lastWins

def fresh : Tracked where
  manager :=
    { generation := 0, activeTask := none, pendingPause := none, queued := none,
      pendingResolve := none, row := none, resolver := false, resolveWorkers := [], spawns := [] }
  last := none
  ended := false

/-- The second pause does not clear the latch of the resume before it. -/
def pauseResumePause : List Label :=
  [.createTask false false true, .spawnPreparing 1, .pauseTask true, .resumeTask true,
    .pauseTask true, .spawnExits 1, .onTaskDone 1 true]

/-- The resume is latched over the status of the cancel, and dropped. -/
def pauseCancelResume : List Label :=
  [.createTask false false true, .spawnPreparing 1, .pauseTask true, .cancelTask,
    .resumeTask true, .spawnExits 1, .onTaskDone 1 true]

/-- The cancelled downloader writes its first status after the pause. -/
def lateStatus : List Label :=
  [.createTask false false true, .pauseTask true, .spawnPreparing 1, .resumeTask true,
    .spawnExits 1, .onTaskDone 1 true]

theorem last_command_overruled :
    (exec step fresh pauseResumePause).any (fun s => ¬ LastWins s) = true ∧
      (exec step fresh pauseCancelResume).any (fun s => ¬ LastWins s) = true ∧
      (exec step fresh lateStatus).any (fun s => ¬ LastWins s) = true := by
  decide

/-- A resume is latched and released, and a restart is queued before the cancel. -/
def latchedThenCancelled : List Label :=
  [.createTask false false true, .spawnPreparing 1, .pauseTask true, .resumeTask true,
    .spawnExits 1, .onTaskDone 1 true, .spawnDownloading 2, .batchPause, .restartTask false,
    .spawnExits 2, .onTaskDone 2 false, .drainQueue false, .cancelTask]

theorem last_command_wins_sample :
    ∃ u, exec step fresh latchedThenCancelled = some u ∧ LastWins u :=
  have hs : Initial fresh := ⟨⟨rfl,rfl,rfl,rfl,rfl,rfl,by simp [fresh]⟩,rfl,rfl⟩
  have hcond : Meets step (fun s a => Obeyed s.manager a) fresh latchedThenCancelled := by decide
  ⟨_,rfl,last_command_wins hs hcond rfl⟩

end RinaDown.LastCommand
