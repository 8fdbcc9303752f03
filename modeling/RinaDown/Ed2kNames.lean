import RinaDown.TempPathExclusivity

/-!
# File names of ED2K downloads

A download that completes moves its temporary file to its final name. An HTTP download creates
that name exclusively, or takes another one; every other download replaces what has the name. An
ED2K download has the name of its link, whatever name the manager has reserved for it. What HLS
and DASH downloads do after the move is left out.
-/

namespace RinaDown.Ed2kNames

open Std (TreeMap)
open FileNames LabelledExecutions OrderedMap TempPaths TempPathExclusivity Option List Bool

/-- A run, and a file that it replaced. -/
structure Replacement where
  run : Run
  file : Path
deriving DecidableEq

structure State where
  manager : Manager
  replaced : List Replacement

/-- A step of the manager, or the move of the temporary file of a name; `chosen` is the name that
an HTTP download claims. -/
inductive Event where
  | manager (label : Label)
  | complete (g : ℕ) (name chosen : String)

def finalPath (r : Run) (name : String) : Path := ⟨r.saveDir,name⟩

def targetName (r : Run) (name chosen : String) : String :=
  match r.protocol with
  | .http => chosen
  | _ => name

/-- An exclusive create fails for a name that exists. Overwriting, an HTTP download deletes the
file of its own name first. -/
def claimed (disk : Disk) (r : Run) (name chosen : String) : Bool :=
  finalPath r chosen ∉ disk.entries ||
    r.allowOverwrite && decide (chosen = name) && finalPath r name ∉ disk.dirs

/-- A move fails onto a directory. -/
def movable (disk : Disk) (r : Run) (name chosen : String) : Bool :=
  match r.protocol with
  | .http => claimed disk r name chosen
  | _ => finalPath r name ∉ disk.dirs

def moveTo (disk : Disk) (r : Run) (name target : String) : Disk :=
  { disk with files := insert (finalPath r target) (disk.files.erase (tempPath r.saveDir name)) }

def complete (s : State) (g : ℕ) (r : Run) (name target : String) : State where
  manager := setRun (setDisk s.manager (moveTo s.manager.disk r name target)) g r.exit
  replaced :=
    if finalPath r target ∈ s.manager.disk.files then ⟨r,finalPath r target⟩ :: s.replaced
    else s.replaced

section Steps

variable (toLowercase : String → String)

def step (s : State) : Event → Option State
  | .manager label =>
    (TempPaths.step toLowercase s.manager label).map (fun m => { s with manager := m })
  | .complete g name chosen => (s.manager.runs[g]?).bind (fun r =>
    if r.exited = false ∧ r.path = some (tempPath r.saveDir name) ∧
        tempPath r.saveDir name ∈ s.manager.disk.files ∧
        movable s.manager.disk r name chosen = true then
      some (complete s g r name (targetName r name chosen))
    else none)

end Steps

/-- Running downloads of different tasks write different temporary files, and a download that
completed replaced a file only in overwrite mode. -/
def KeepsFiles (s : State) : Prop :=
  WritesApart s.manager ∧ ∀ replacement ∈ s.replaced, replacement.run.allowOverwrite = true

/-- The run moves its file without a claim, and must not overwrite. -/
def unclaimed (r : Run) : Bool := decide (r.protocol ≠ .http) && !r.allowOverwrite

/-- A running download that moves without a claim writes or has reserved this name. -/
def Held (m : Manager) (f : Path) : Prop :=
  ∃ q ∈ values m.runs, q.exited = false ∧ unclaimed q = true ∧ tempPath f.dir f.entry ∈ q.temps

instance (m : Manager) (f : Path) : Decidable (Held m f) := inferInstanceAs (Decidable (∃ _ ∈ _, _))

/-- A task starts when its earlier run has ended. A name that was not reserved is free when it is
opened, and so is the name of a fresh identifier. No file comes from outside, or by a rename, to a
name that a running download writes or has reserved. -/
def NamesLeft (m : Manager) : Label → Prop
  | .startTask t _ _ | .resumeTask t => ∀ q ∈ values m.runs, q.task = t → q.exited = true
  | .finalizeStartFileName g n => ∀ r ∈ m.runs[g]?,
    finalPath r (numberedName (normalizedName m r n) n.uniq) ∉ m.disk.files
  | .openTemp g source => ∀ r ∈ m.runs[g]?, r.reservation = some (r.target source) ∨
    unclaimed r = false ∨ finalPath r (writtenName r.protocol r.fileName source) ∉ m.disk.files
  | .renameTask t newName => ∀ row ∈ m.rows[t]?,
    ¬ Held m ⟨row.saveDir,newName⟩ ∧ ¬ Held m (row.setName newName).tempPath
  | .diskChanges disk => ∀ f ∈ disk.files, f ∈ m.disk.files ∨ ¬ Held m f
  | _ => True

instance (m : Manager) (a : Label) : Decidable (NamesLeft m a) := by
  apply a.casesOn (motive := fun a => Decidable (NamesLeft m a)) <;> intros <;>
    unfold NamesLeft <;> infer_instance

/-- The steps of the manager are undisturbed and leave the names of running downloads; an HTTP
download claims its own name, or one that is not held. -/
def Coordinated (s : State) : Event → Prop
  | .manager label => Undisturbed s.manager label ∧ NamesLeft s.manager label
  | .complete g name chosen => ∀ r ∈ s.manager.runs[g]?, r.protocol = .http →
    chosen = name ∨ ¬ Held s.manager (finalPath r chosen)

instance (s : State) (e : Event) : Decidable (Coordinated s e) :=
  match e with
  | .manager _ => inferInstanceAs (Decidable (_ ∧ _))
  | .complete _ _ _ => inferInstanceAs (Decidable (∀ _ ∈ _, _))

/-! ## The names of running downloads stay free -/

/-- Running downloads are of different tasks, and no file has a name that is held. -/
structure NamesFree (m : Manager) : Prop where
  alone : ∀ (g k : ℕ) r q, g ≠ k → m.runs[g]? = some r → m.runs[k]? = some q →
    r.exited = false → q.exited = false → r.task ≠ q.task
  free : ∀ f ∈ m.disk.files, ¬ Held m f

namespace NamesFree

variable {m m' : Manager} {g t : ℕ} {r r' : Run} {f : Path} {disk : Disk}

theorem initial (hi : Initial m) : NamesFree m where
  alone g _ r _ _ hr := by
    rw [hi.runs g] at hr
    cases hr
  free f _ := by
    rintro ⟨q,hq,-⟩
    obtain ⟨g,hg⟩ := mem_values.mp hq
    rw [hi.runs g] at hg
    cases hg

theorem congr (h : NamesFree m) (hruns : m'.runs = m.runs)
    (hfiles : ∀ f ∈ m'.disk.files, f ∈ m.disk.files ∨ ¬ Held m f) : NamesFree m' where
  alone := by
    rw [hruns]
    exact h.alone
  free f hf := by
    rw [Held, hruns]
    exact (hfiles f hf).elim (h.free f) id

theorem same (h : NamesFree m) (hruns : m'.runs = m.runs) (hdisk : m'.disk = m.disk) :
    NamesFree m' :=
  h.congr hruns fun f hf => .inl (by rwa [hdisk] at hf)

theorem setRows (h : NamesFree m) (rows : TreeMap ℕ Row) : NamesFree (TempPaths.setRows m rows) :=
  h.same rfl rfl

/-- A run of a task that no other running download has, and whose names no file has. -/
theorem insertRun (h : NamesFree m)
    (halone : ∀ (k : ℕ) q, k ≠ g → m.runs[k]? = some q → r.exited = false → q.exited = false →
      r.task ≠ q.task)
    (hfree : r.exited = false → unclaimed r = true →
      ∀ f ∈ m.disk.files, tempPath f.dir f.entry ∉ r.temps) : NamesFree (setRun m g r) := by
  have hruns : ∀ (k : ℕ) q, (m.runs.insert g r)[k]? = some q →
      k = g ∧ q = r ∨ k ≠ g ∧ m.runs[k]? = some q := fun _ _ => getElem?_insert_cases
  constructor
  · intro j k a b hne ha hb halive hblive
    obtain ⟨rfl,rfl⟩ | ⟨hj,ha'⟩ := hruns j a ha <;> obtain ⟨rfl,rfl⟩ | ⟨hk,hb'⟩ := hruns k b hb
    · exact absurd rfl hne
    · exact halone k b hk hb' halive hblive
    · exact (halone j a hj ha' hblive halive).symm
    · exact h.alone j k a b hne ha' hb' halive hblive
  · rintro f hf ⟨q,hq,hlive,hunclaimed,hmem⟩
    obtain ⟨k,hk⟩ := mem_values.mp hq
    obtain ⟨rfl,rfl⟩ | ⟨-,hk⟩ := hruns k q hk
    · exact hfree hlive hunclaimed f hf hmem
    · exact h.free f hf ⟨q,mem_values.mpr ⟨k,hk⟩,hlive,hunclaimed,hmem⟩

theorem updateRun (h : NamesFree m) (hr : m.runs[g]? = some r) (htask : r'.task = r.task)
    (hlive : r'.exited = false → r.exited = false)
    (hfree : r'.exited = false → unclaimed r' = true →
      ∀ f ∈ m.disk.files, tempPath f.dir f.entry ∉ r'.temps) : NamesFree (setRun m g r') := by
  refine h.insertRun (fun k q hk hq hlive' hqlive => ?_) hfree
  rw [htask]
  exact h.alone g k r q hk.symm hr hq (hlive hlive') hqlive

/-- No file has a name of a running download. -/
theorem not_mem_temps (h : NamesFree m) (hr : m.runs[g]? = some r) (hlive : r.exited = false)
    (hunclaimed : unclaimed r = true) (hf : f ∈ m.disk.files) :
    tempPath f.dir f.entry ∉ r.temps :=
  fun hmem => h.free f hf ⟨r,mem_values.mpr ⟨g,hr⟩,hlive,hunclaimed,hmem⟩

theorem shrinkRun (h : NamesFree m) (hr : m.runs[g]? = some r) (htask : r'.task = r.task)
    (hlive : r'.exited = false → r.exited = false) (hunclaimed : unclaimed r' = unclaimed r)
    (hsub : ∀ p ∈ r'.temps, p ∈ r.temps) : NamesFree (setRun m g r') :=
  h.updateRun hr htask hlive fun hlive' hclaim _ hf hmem =>
    h.not_mem_temps hr (hlive hlive') (hunclaimed ▸ hclaim) hf (hsub _ hmem)

theorem exit (h : NamesFree m) (hr : m.runs[g]? = some r) : NamesFree (setRun m g r.exit) :=
  h.shrinkRun hr rfl (fun hlive => nomatch hlive) rfl fun _ hp => exit_temps hp

theorem abort {w : Bool} (h : NamesFree m) (hr : m.runs[g]? = some r) :
    NamesFree (setRun m g (r.abort w)) :=
  h.shrinkRun hr rfl (fun hlive => (or_eq_false_iff.mp hlive).1) rfl fun _ hp => abort_temps hp

theorem eraseRun (h : NamesFree m) : NamesFree { m with runs := m.runs.erase g } := by
  have hmem : ∀ (k : ℕ) q, (m.runs.erase g)[k]? = some q → m.runs[k]? = some q :=
    fun _ _ hk => (getElem?_of_erase hk).2
  constructor
  · exact fun j k a b hne ha hb => h.alone j k a b hne (hmem j a ha) (hmem k b hb)
  · rintro f hf ⟨q,hq,hheld⟩
    obtain ⟨k,hk⟩ := mem_values.mp hq
    exact h.free f hf ⟨q,mem_values.mpr ⟨k,hmem k q hk⟩,hheld⟩

theorem spawnRun (h : NamesFree m) (htemps : r.temps = [])
    (hended : ∀ q ∈ values m.runs, q.task = r.task → q.exited = true) :
    NamesFree (TempPaths.spawnRun m r) := by
  have hrun : NamesFree (setRun m m.generation r) := by
    refine h.insertRun (fun k q _ hq _ hlive heq => ?_) fun _ _ f _ => by simp [htemps]
    rw [hended q (mem_values.mpr ⟨k,hq⟩) heq.symm] at hlive
    cases hlive
  exact hrun.same rfl rfl

/-- The prologue picks a name that no file has. -/
theorem finalizeStartFileName {toLowercase : String → String} {n : Naming} (h : NamesFree m)
    (hr : m.runs[g]? = some r) (hlive : r.exited = false)
    (huniq : finalPath r (numberedName (normalizedName m r n) n.uniq) ∉ m.disk.files) :
    NamesFree (finalizeStartFileName toLowercase m g r n) := by
  unfold TempPaths.finalizeStartFileName
  split_ifs
  · refine (h.setRows _).shrinkRun hr rfl id rfl fun p hp => ?_
    simp only [Run.named, Run.temps, toList_none, append_nil] at hp
    exact mem_append_left _ hp
  · have htask : (r.named (dedupedName toLowercase m r n)
        (some (reservedPath toLowercase m r n))).task = r.task := rfl
    have hnamed := (h.setRows (writeDeduped toLowercase m r n
      (writeNormalized m r n (writeProbed m r n m.rows)))).updateRun hr htask id
    refine (hnamed fun _ hunclaimed f hf hmem => ?_).same rfl rfl
    rcases mem_append.mp hmem with hmem | hmem
    · exact h.not_mem_temps hr hlive hunclaimed hf (mem_append_left _ hmem)
    · obtain rfl := tempPath_inj (mem_singleton.mp hmem)
      refine dedupFilenameSync_absent toLowercase m.reserved huniq ?_
      have hoverwrite : r.allowOverwrite = false := by
        simpa [unclaimed, Run.named] using (and_eq_true_iff.mp hunclaimed).2
      rwa [dedupedName, hoverwrite] at hf

theorem openTemp {source : String} (h : NamesFree m) (hr : m.runs[g]? = some r)
    (hlive : r.exited = false)
    (hcond : r.reservation = some (r.target source) ∨ unclaimed r = false ∨
      finalPath r (writtenName r.protocol r.fileName source) ∉ m.disk.files) :
    NamesFree (openTemp m g r source) := by
  refine (h.setRows _).updateRun hr rfl id fun _ hunclaimed f hf hmem => ?_
  have hold := h.not_mem_temps hr hlive hunclaimed hf
  rcases mem_append.mp hmem with hmem | hmem
  · have htarget : tempPath f.dir f.entry = r.target source := by simpa [hlive] using hmem
    rcases hcond with hreserved | hclaimed | hfree
    · exact hold (htarget ▸ reservation_mem_temps hreserved)
    · exact absurd (hclaimed.symm.trans hunclaimed) false_ne_true
    · obtain rfl := tempPath_inj htarget
      exact hfree hf
  · exact hold (mem_append_right _ hmem)

theorem mem_moveFile {old new : Path} (hf : f ∈ (moveFile disk old new).files) :
    f = new ∨ f ∈ disk.files := by
  unfold moveFile at hf
  split_ifs at hf
  · exact (Finset.mem_insert.mp hf).imp_right Finset.mem_of_mem_erase
  · exact .inr hf

theorem renameTask {toLowercase : String → String} {row : Row} {newName : String}
    (h : NamesFree m) (hname : ¬ Held m ⟨row.saveDir,newName⟩)
    (htemp : ¬ Held m (row.setName newName).tempPath) :
    NamesFree (renameTask toLowercase m t row newName) := by
  unfold TempPaths.renameTask
  split_ifs
  · exact h
  · exact h
  · refine h.congr rfl fun f hf => ?_
    rcases mem_moveFile hf with rfl | hf
    · exact .inr htemp
    · rcases mem_moveFile hf with rfl | hf
      · exact .inr hname
      · exact .inl hf
  · exact h.same rfl rfl

end NamesFree

/-! ## Runs -/

structure Inv (s : State) : Prop where
  manager : Invariant s.manager
  names : NamesFree s.manager
  replaced : ∀ replacement ∈ s.replaced, replacement.run.allowOverwrite = true

theorem allowOverwrite_of_claimed {disk : Disk} {r : Run} {name chosen : String}
    (h : claimed disk r name chosen = true) (hfile : finalPath r chosen ∈ disk.files) :
    r.allowOverwrite = true := by
  rw [claimed, or_eq_true, and_eq_true, and_eq_true] at h
  rcases h with habsent | ⟨⟨hoverwrite,-⟩,-⟩
  · exact absurd (Finset.mem_union_left _ hfile) (of_decide_eq_true habsent)
  · exact hoverwrite

variable {toLowercase : String → String} {m m' : Manager} {s t : State} {g : ℕ} {r : Run}
  {name chosen : String}

theorem NamesFree.deleteTask {i : ℕ} {row : Row} {timedOut stillWriting : Bool} (h : NamesFree m)
    (hstep : deleteTask m i row timedOut stillWriting = some m') : NamesFree m' := by
  unfold TempPaths.deleteTask at hstep
  cases hact : activeRun m i with
  | none =>
    simp only [hact] at hstep
    split_ifs at hstep
    cases hstep
    exact h.same rfl rfl
  | some gr =>
    obtain ⟨g,r⟩ := gr
    have hr := activeRun_run hact
    simp only [hact] at hstep
    split_ifs at hstep with htime hname hexit <;> cases hstep
    · exact (h.abort hr).same rfl rfl
    · exact (h.abort hr).same rfl rfl
    · exact h.same rfl rfl

theorem namesFree_step {a : Label} (h : NamesFree m) (hcond : NamesLeft m a)
    (hstep : TempPaths.step toLowercase m a = some m') : NamesFree m' := by
  cases a with
  | createTask t row =>
    simp only [TempPaths.step] at hstep
    split_ifs at hstep
    cases hstep
    exact h.setRows _
  | startTask t fileName allowOverwrite | resumeTask t =>
    simp only [TempPaths.step] at hstep
    split_ifs at hstep
    obtain ⟨row,-,rfl⟩ := map_eq_some_iff.mp hstep
    exact h.spawnRun rfl hcond
  | finalizeStartFileName g n =>
    obtain ⟨r,hr,hstep⟩ := bind_eq_some_iff.mp hstep
    split_ifs at hstep with hguard
    cases hstep
    exact h.finalizeStartFileName hr (eq_false_of_ne_true hguard.2.1) (hcond r hr)
  | openTemp g source =>
    obtain ⟨r,hr,hstep⟩ := bind_eq_some_iff.mp hstep
    split_ifs at hstep with hguard
    cases hstep
    exact h.openTemp hr (eq_false_of_ne_true hguard.2.1) (hcond r hr)
  | deactivate t =>
    cases hstep
    exact h.same rfl rfl
  | runExits g =>
    obtain ⟨r,hr,rfl⟩ := map_eq_some_iff.mp hstep
    exact h.exit hr
  | onTaskDone g =>
    obtain ⟨r,hr,hstep⟩ := bind_eq_some_iff.mp hstep
    split_ifs at hstep
    cases hstep
    refine (h.eraseRun (g := g)).same ?_ ?_ <;> unfold onTaskDone removeActive releaseReservation <;>
      split_ifs <;> split <;> rfl
  | renameTask t newName =>
    obtain ⟨row,hrow,rfl⟩ := map_eq_some_iff.mp hstep
    exact h.renameTask (hcond row hrow).1 (hcond row hrow).2
  | restartTask t =>
    obtain ⟨row,-,rfl⟩ := map_eq_some_iff.mp hstep
    refine h.congr rfl fun f hf => .inl ?_
    simp only [restartTask, setDisk] at hf
    split_ifs at hf
    · exact Finset.mem_of_mem_erase hf
    · exact hf
  | deleteTask t timedOut stillWriting =>
    obtain ⟨row,-,hstep⟩ := bind_eq_some_iff.mp hstep
    exact h.deleteTask hstep
  | deleteTasksBatch t =>
    obtain ⟨row,-,rfl⟩ := map_eq_some_iff.mp hstep
    exact h.same rfl rfl
  | abort g stillWriting =>
    obtain ⟨r,hr,hstep⟩ := bind_eq_some_iff.mp hstep
    split_ifs at hstep
    cases hstep
    exact h.abort hr
  | diskChanges disk =>
    cases hstep
    exact h.congr rfl hcond

/-- The new file has the name of a temporary file that only this run has, or a name that is not
held. -/
theorem NamesFree.complete (h : NamesFree m) (hinv : Invariant m) (hr : m.runs[g]? = some r)
    (hlive : r.exited = false) (hpath : r.path = some (tempPath r.saveDir name))
    (htarget : chosen = name ∨ ¬ Held m (finalPath r chosen)) :
    NamesFree (setRun (setDisk m (moveTo m.disk r name chosen)) g r.exit) := by
  have hexit := h.exit hr
  refine hexit.congr rfl fun f hf => ?_
  rcases Finset.mem_insert.mp hf with rfl | hf
  · right
    rintro ⟨q,hq,hqlive,hunclaimed,hmem⟩
    obtain ⟨k,hk⟩ := mem_values.mp hq
    obtain ⟨-,rfl⟩ | ⟨hkg,hk⟩ := getElem?_insert_cases hk
    · cases hqlive
    rcases htarget with rfl | hfree
    · exact hinv.apart g k r q hr hk (h.alone g k r q (Ne.symm hkg) hr hk hlive hqlive) _
        (path_mem_temps hlive hpath) hmem
    · exact hfree ⟨q,mem_values.mpr ⟨k,hk⟩,hqlive,hunclaimed,hmem⟩
  · exact .inl (Finset.mem_of_mem_erase hf)

/-- A run that moves without a claim finds no file of its name, by its temporary path. -/
theorem Inv.allowOverwrite (h : Inv s) (hr : s.manager.runs[g]? = some r) (hlive : r.exited = false)
    (hpath : r.path = some (tempPath r.saveDir name)) (hprotocol : r.protocol ≠ .http)
    (hfile : finalPath r name ∈ s.manager.disk.files) : r.allowOverwrite = true := by
  by_contra hoverwrite
  have hunclaimed : unclaimed r = true := by
    simp only [unclaimed, hprotocol, ne_eq, not_false_eq_true, decide_true, Bool.true_and]
    exact not_eq_true' _ ▸ eq_false_of_ne_true hoverwrite
  exact h.names.not_mem_temps hr hlive hunclaimed hfile (path_mem_temps hlive hpath)

theorem inv_step (s : State) (e : Event) (t : State) (h : Inv s) (hcond : Coordinated s e)
    (hstep : step toLowercase s e = some t) : Inv t := by
  cases e with
  | manager label =>
    obtain ⟨m,hm,rfl⟩ := map_eq_some_iff.mp hstep
    exact ⟨invariant_step h.manager hcond.1 hm,namesFree_step h.names hcond.2 hm,h.replaced⟩
  | complete g name chosen =>
    obtain ⟨r,hr,hstep⟩ := bind_eq_some_iff.mp hstep
    split_ifs at hstep with hguard
    obtain ⟨hlive,hpath,-,hmovable⟩ := hguard
    cases hstep
    have htarget : targetName r name chosen = name ∨
        ¬ Held s.manager (finalPath r (targetName r name chosen)) := by
      cases hprotocol : r.protocol with
      | http => simpa only [targetName, hprotocol] using hcond r hr hprotocol
      | _ => exact .inl (by simp only [targetName, hprotocol])
    have hreplaced : finalPath r (targetName r name chosen) ∈ s.manager.disk.files →
        r.allowOverwrite = true := by
      intro hfile
      cases hprotocol : r.protocol with
      | http =>
        simp only [movable, hprotocol] at hmovable
        simp only [targetName, hprotocol] at hfile
        exact allowOverwrite_of_claimed hmovable hfile
      | _ =>
        simp only [targetName, hprotocol] at hfile
        exact h.allowOverwrite hr hlive hpath (by simp [hprotocol]) hfile
    refine ⟨?_,h.names.complete h.manager hr hlive hpath htarget,?_⟩
    · exact (h.manager.setDisk _).shrinkRun hr rfl (fun _ hp => hp) (fun _ hp => exit_temps hp)
    · intro replacement hmem
      simp only [complete] at hmem
      split_ifs at hmem with hfile
      · rcases mem_cons.mp hmem with rfl | hmem
        · exact hreplaced hfile
        · exact h.replaced replacement hmem
      · exact h.replaced replacement hmem

def linked (fileName : String) : Row := ⟨"downloads",fileName,.ed2k⟩

def onDisk (names : List String) : Disk :=
  ⟨(names.map (fun name => (⟨"downloads",name⟩ : Path))).toFinset,∅⟩

/-- The first start of a task whose stored name is that of its link. -/
def startsAt (t g : ℕ) (name : String) (row : Row) : List Event :=
  [.manager (.createTask t row), .manager (.startTask t name false),
    .manager (.finalizeStartFileName g naming), .manager (.openTemp g name)]

/-- An ED2K download and an HTTP download of two names, with a file of the second name that
appears. -/
def coordinatedEvents : List Event :=
  startsAt 0 0 "a.avi" (linked "a.avi") ++ startsAt 1 1 "b.avi" (stored "b.avi") ++
    [.manager (.diskChanges (onDisk ["a.avi.fdownloading", "b.avi.fdownloading", "b.avi"])),
      .complete 0 "a.avi" "a.avi", .complete 1 "b.avi" "b (1).avi"]

/-- Two links of one name: the manager reserves two names. -/
def sameLinks : List Event :=
  startsAt 0 0 "a.avi" (linked "a.avi") ++ startsAt 1 1 "a.avi" (linked "a.avi")

/-- A link of the name of a file: the manager reserves another name. -/
def takenName : List Event :=
  .manager (.diskChanges (onDisk ["a.avi"])) :: startsAt 0 0 "a.avi" (linked "a.avi") ++
    [.manager (.diskChanges (onDisk ["a.avi", "a.avi.fdownloading"])),
      .complete 0 "a.avi" "a.avi"]

end RinaDown.Ed2kNames
