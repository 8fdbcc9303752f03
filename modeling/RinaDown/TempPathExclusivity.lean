import RinaDown.TempPaths

/-!
# No two tasks write the same temporary file

A reservation is a path without an owner, so it protects only what reserves:
two resumed tasks of one stored name write the same file, a downloader may clean
its reserved name into the name of another, and deleting a task releases the
path of its stored name even if the task never reserved it. `Undisturbed`
excludes these steps, and then the paths of different tasks stay apart.
-/

namespace RinaDown.TempPathExclusivity
open Std (TreeMap)
open FileNames LabelledExecutions OrderedMap TempPaths Option

/-- Running downloads of different tasks write different temporary files. -/
def WritesApart (m : Manager) : Prop :=
  ∀ r ∈ values m.runs, ∀ q ∈ values m.runs, r.task ≠ q.task → r.exited = false → q.exited = false →
    ∀ p ∈ r.path, q.path ≠ some p

/-- What a running download of an existing task has reserved is reserved. -/
def ReservationsHeld (m : Manager) : Prop :=
  ∀ r ∈ values m.runs, r.exited = false → m.rows[r.task]? ≠ none →
    ∀ p ∈ r.reservation, p ∈ m.reserved

def Exclusive (m : Manager) : Prop := WritesApart m ∧ ReservationsHeld m

instance (m : Manager) : Decidable (WritesApart m) := inferInstanceAs (Decidable (∀ _ ∈ _, _))

instance (m : Manager) : Decidable (ReservationsHeld m) := inferInstanceAs (Decidable (∀ _ ∈ _, _))

/-- The path of the stored name of a task is reserved by no other task. -/
def releasesOwn (m : Manager) (t : ℕ) : Prop :=
  ∀ row ∈ m.rows[t]?, ∀ q ∈ values m.runs, q.task ≠ t → m.rows[q.task]? ≠ none →
    q.reservation ≠ some row.tempPath

instance (m : Manager) (t : ℕ) : Decidable (releasesOwn m t) :=
  inferInstanceAs (Decidable (∀ _ ∈ _, _))

/-- A downloader writes the path it has reserved or one that no other task writes or has reserved.
When a first start reserves, the paths of other tasks are reserved or on disk. A delete releases no
path of another task. -/
def Undisturbed (m : Manager) : Label → Prop
  | .openTemp g source => ∀ r ∈ m.runs[g]?, r.reservation = some (r.target source) ∨
    ∀ q ∈ values m.runs, q.task ≠ r.task → r.target source ∉ q.temps
  | .finalizeStartFileName g _ => ∀ r ∈ m.runs[g]?, ∀ q ∈ values m.runs, q.task ≠ r.task →
    ∀ p ∈ q.temps, p ∈ m.reserved ∨ p ∈ m.disk.files
  | .deleteTask t true _ => releasesOwn m t
  | .deleteTasksBatch t => releasesOwn m t
  | _ => True

instance (m : Manager) (a : Label) : Decidable (Undisturbed m a) := by
  unfold Undisturbed
  split <;> infer_instance

/-! ## The invariant -/

/-- The runs are numbered, the paths of different tasks are apart, and the reservations of existing
tasks are reserved and distinct. -/
structure Invariant (m : Manager) : Prop where
  bounded : ∀ (g : ℕ) r, m.runs[g]? = some r → g < m.generation
  apart : ∀ (g h : ℕ) r q, m.runs[g]? = some r → m.runs[h]? = some q → r.task ≠ q.task →
    ∀ p ∈ r.temps, p ∉ q.temps
  distinct : ∀ (g h : ℕ) r q, g ≠ h → m.runs[g]? = some r → m.runs[h]? = some q →
    m.rows[r.task]? ≠ none → ∀ p ∈ r.reservation, q.reservation ≠ some p
  held : ∀ (g : ℕ) r, m.runs[g]? = some r → m.rows[r.task]? ≠ none →
    ∀ p ∈ r.reservation, p ∈ m.reserved

theorem path_mem_temps {r : Run} {p : Path} (hlive : r.exited = false) (hp : r.path = some p) :
    p ∈ r.temps := by
  simp [Run.temps, hlive, hp]

theorem reservation_mem_temps {r : Run} {p : Path} (hp : r.reservation = some p) : p ∈ r.temps := by
  simp [Run.temps, hp]

theorem exclusive_of_invariant {m : Manager} (h : Invariant m) : Exclusive m := by
  constructor
  · intro r hr q hq htask hrlive hqlive p hp hpq
    obtain ⟨g,hg⟩ := mem_values.mp hr
    obtain ⟨k,hk⟩ := mem_values.mp hq
    exact h.apart g k r q hg hk htask p (path_mem_temps hrlive hp) (path_mem_temps hqlive hpq)
  · intro r hr _ hrow p hp
    obtain ⟨g,hg⟩ := mem_values.mp hr
    exact h.held g r hg hrow p hp

theorem invariant_initial {m : Manager} (h : Initial m) : Invariant m := by
  constructor <;> intros <;> simp_all [h.runs]

/-! ## What the updates preserve -/

variable {m : Manager} {r r' : Run} {g t : ℕ} {p : Path}

theorem Invariant.reserve (h : Invariant m) : Invariant (reserve m p) where
  bounded := h.bounded
  apart := h.apart
  distinct := h.distinct
  held g r hr hrow p hp := Finset.mem_insert_of_mem (h.held g r hr hrow p hp)

theorem Invariant.releasePath (h : Invariant m)
    (hfree : ∀ r ∈ values m.runs, m.rows[r.task]? ≠ none → r.reservation ≠ some p) :
    Invariant (releasePath m p) where
  bounded := h.bounded
  apart := h.apart
  distinct := h.distinct
  held g r hr hrow q hq := by
    refine Finset.mem_erase.mpr ⟨?_,h.held g r hr hrow q hq⟩
    rintro rfl
    exact hfree r (mem_values.mpr ⟨g,hr⟩) hrow hq

theorem Invariant.deactivate (h : Invariant m) : Invariant (deactivate m t) :=
  ⟨h.bounded,h.apart,h.distinct,h.held⟩

theorem Invariant.setDisk (h : Invariant m) (disk : Disk) : Invariant (setDisk m disk) :=
  ⟨h.bounded,h.apart,h.distinct,h.held⟩

/-- New rows, none of them of a task that has a run and had no row. -/
theorem Invariant.setRows {rows : TreeMap ℕ Row} (h : Invariant m)
    (hrows : ∀ r ∈ values m.runs, rows[r.task]? ≠ none → m.rows[r.task]? ≠ none) :
    Invariant (setRows m rows) where
  bounded := h.bounded
  apart := h.apart
  distinct g k r q hne hr hq hrow :=
    h.distinct g k r q hne hr hq (hrows r (mem_values.mpr ⟨g,hr⟩) hrow)
  held g r hr hrow := h.held g r hr (hrows r (mem_values.mpr ⟨g,hr⟩) hrow)

theorem Invariant.eraseRun (h : Invariant m) : Invariant { m with runs := m.runs.erase g } := by
  have hmem : ∀ (k : ℕ) q, (m.runs.erase g)[k]? = some q → m.runs[k]? = some q :=
    fun _ _ hk => (getElem?_of_erase hk).2
  exact
    { bounded := fun k q hk => h.bounded k q (hmem k q hk)
      apart := fun j k r q hr hq => h.apart j k r q (hmem j r hr) (hmem k q hq)
      distinct := fun j k r q hne hr hq => h.distinct j k r q hne (hmem j r hr) (hmem k q hq)
      held := fun k q hk => h.held k q (hmem k q hk) }

/-- A run whose paths no other task has, and whose reservation is reserved and its own. -/
theorem Invariant.insertRun (h : Invariant m) (hg : g < m.generation)
    (hapart : ∀ (k : ℕ) q, k ≠ g → m.runs[k]? = some q → q.task ≠ r.task →
      ∀ p ∈ r.temps, p ∉ q.temps)
    (hres : ∀ p ∈ r.reservation, m.rows[r.task]? ≠ none → p ∈ m.reserved ∧
      ∀ (k : ℕ) q, k ≠ g → m.runs[k]? = some q → q.reservation ≠ some p) :
    Invariant (setRun m g r) := by
  have hruns : ∀ (k : ℕ) q, (m.runs.insert g r)[k]? = some q →
      k = g ∧ q = r ∨ k ≠ g ∧ m.runs[k]? = some q := fun _ _ => getElem?_insert_cases
  constructor
  · intro k q hk
    obtain ⟨rfl,rfl⟩ | ⟨-,hk⟩ := hruns k q hk
    · exact hg
    · exact h.bounded k q hk
  · intro j k a b ha hb htask p hpa hpb
    obtain ⟨rfl,rfl⟩ | ⟨hj,hj'⟩ := hruns j a ha <;> obtain ⟨rfl,rfl⟩ | ⟨hk,hk'⟩ := hruns k b hb
    · exact htask rfl
    · exact hapart k b hk hk' htask.symm p hpa hpb
    · exact hapart j a hj hj' htask p hpb hpa
    · exact h.apart j k a b hj' hk' htask p hpa hpb
  · intro j k a b hne ha hb hrow p hpa hpb
    obtain ⟨rfl,rfl⟩ | ⟨hj,hj'⟩ := hruns j a ha <;> obtain ⟨rfl,rfl⟩ | ⟨hk,hk'⟩ := hruns k b hb
    · exact hne rfl
    · exact (hres p hpa hrow).2 k b hk hk' hpb
    · by_cases htask : a.task = b.task
      · exact (hres p hpb (htask ▸ hrow)).2 j a hj hj' hpa
      · exact hapart j a hj hj' htask p (reservation_mem_temps hpb) (reservation_mem_temps hpa)
    · exact h.distinct j k a b hne hj' hk' hrow p hpa hpb
  · intro k q hk hrow p hp
    obtain ⟨rfl,rfl⟩ | ⟨-,hk⟩ := hruns k q hk
    · exact (hres p hp hrow).1
    · exact h.held k q hk hrow p hp

theorem Invariant.updateRun (h : Invariant m) (hr : m.runs[g]? = some r) (htask : r'.task = r.task)
    (hkeep : ∀ p ∈ r'.reservation, r.reservation = some p)
    (hapart : ∀ q ∈ values m.runs, q.task ≠ r.task → ∀ p ∈ r'.temps, p ∉ q.temps) :
    Invariant (setRun m g r') := by
  refine h.insertRun (h.bounded g r hr) ?_ ?_
  · intro k q _ hq hne
    exact hapart q (mem_values.mpr ⟨k,hq⟩) (htask ▸ hne)
  · intro p hp hrow
    rw [htask] at hrow
    have hold := hkeep p hp
    exact ⟨h.held g r hr hrow p hold,
      fun k q hne hq hq' => h.distinct g k r q hne.symm hr hq hrow p hold hq'⟩

theorem Invariant.shrinkRun (h : Invariant m) (hr : m.runs[g]? = some r) (htask : r'.task = r.task)
    (hkeep : ∀ p ∈ r'.reservation, r.reservation = some p) (hsub : ∀ p ∈ r'.temps, p ∈ r.temps) :
    Invariant (setRun m g r') := by
  refine h.updateRun hr htask hkeep ?_
  intro q hq hne p hp
  obtain ⟨k,hk⟩ := mem_values.mp hq
  exact h.apart g k r q hr hk hne.symm p (hsub p hp)

theorem Invariant.spawnRun (h : Invariant m) (htemps : r.temps = []) (hres : r.reservation = none) :
    Invariant (spawnRun m r) := by
  have hnext : Invariant { m with generation := m.generation + 1 } :=
    ⟨fun g r hr => (h.bounded g r hr).trans (Nat.lt_succ_self _),h.apart,h.distinct,h.held⟩
  have hrun := hnext.insertRun (g := m.generation) (r := r) (Nat.lt_succ_self _)
    (by simp [htemps]) (by simp [hres])
  exact ⟨hrun.bounded,hrun.apart,hrun.distinct,hrun.held⟩

/-! ## Runs -/

theorem exit_temps {q : Path} (h : q ∈ r.exit.temps) : q ∈ r.temps := by
  simp [Run.temps, Run.exit] at h
  exact reservation_mem_temps h

theorem abort_temps {w : Bool} {q : Path} (h : q ∈ (r.abort w).temps) : q ∈ r.temps := by
  cases hr : r.exited <;> cases w <;> simp_all [Run.temps, Run.abort]

theorem Invariant.abort {w : Bool} (h : Invariant m) (hr : m.runs[g]? = some r) :
    Invariant (setRun m g (r.abort w)) :=
  h.shrinkRun hr rfl (by simp [Run.abort]) (fun _ hp => abort_temps hp)

def SameTasks (rows rows' : TreeMap ℕ Row) : Prop := ∀ t : ℕ, rows'[t]? ≠ none → rows[t]? ≠ none

theorem SameTasks.refl (rows : TreeMap ℕ Row) : SameTasks rows rows := fun _ h => h

theorem SameTasks.trans {a b c : TreeMap ℕ Row} (h : SameTasks a b) (h' : SameTasks b c) :
    SameTasks a c :=
  fun t ht => h t (h' t ht)

theorem sameTasks_modify (rows : TreeMap ℕ Row) (t : ℕ) (f : Row → Row) :
    SameTasks rows (rows.modify t f) := by
  intro u hu
  rw [getElem?_modify_eq] at hu
  by_cases hut : u = t
  · subst hut
    simpa using hu
  · simpa [hut] using hu

theorem sameTasks_writeProbed (n : Naming) (rows : TreeMap ℕ Row) :
    SameTasks rows (writeProbed m r n rows) := by
  unfold writeProbed
  split_ifs
  · exact sameTasks_modify _ _ _
  · exact .refl _

theorem sameTasks_writeNormalized (n : Naming) (rows : TreeMap ℕ Row) :
    SameTasks rows (writeNormalized m r n rows) := by
  unfold writeNormalized
  split_ifs
  · exact sameTasks_modify _ _ _
  · exact .refl _

theorem sameTasks_writeDeduped (toLowercase : String → String) (m : Manager) (r : Run) (n : Naming)
    (rows : TreeMap ℕ Row) : SameTasks rows (writeDeduped toLowercase m r n rows) := by
  unfold writeDeduped
  split_ifs
  · exact sameTasks_modify _ _ _
  · exact .refl _

theorem sameTasks_publishName (source : String) (rows : TreeMap ℕ Row) :
    SameTasks rows (publishName r source rows) := by
  unfold publishName
  split
  · exact .refl _
  · exact sameTasks_modify _ _ _
  · exact sameTasks_modify _ _ _

theorem Invariant.sameTasks {rows : TreeMap ℕ Row} (h : Invariant m)
    (hrows : SameTasks m.rows rows) : Invariant (TempPaths.setRows m rows) :=
  h.setRows (fun r _ => hrows r.task)

/-! ## Operations -/

theorem sameTasks_writeNames (n : Naming) :
    SameTasks m.rows (writeNormalized m r n (writeProbed m r n m.rows)) :=
  (sameTasks_writeProbed n m.rows).trans (sameTasks_writeNormalized n _)

theorem reservedPath_unused (toLowercase : String → String) {n : Naming}
    (huniq : Unused m.disk m.reserved
      (tempPath r.saveDir (numberedName (normalizedName m r n) n.uniq))) :
    Unused m.disk m.reserved (reservedPath toLowercase m r n) :=
  dedupFilenameSync_unused huniq

/-- The new reservation is no path of another task, and no reservation of this one. -/
theorem Invariant.finalizeStartFileName {toLowercase : String → String} {n : Naming}
    (h : Invariant m) (hr : m.runs[g]? = some r)
    (huniq : Unused m.disk m.reserved
      (tempPath r.saveDir (numberedName (normalizedName m r n) n.uniq)))
    (hcond : ∀ q ∈ values m.runs, q.task ≠ r.task →
      ∀ p ∈ q.temps, p ∈ m.reserved ∨ p ∈ m.disk.files) :
    Invariant (finalizeStartFileName toLowercase m g r n) := by
  have hnames := sameTasks_writeNames (m := m) (r := r) n
  unfold TempPaths.finalizeStartFileName
  split_ifs
  · refine (h.sameTasks hnames).shrinkRun hr rfl (by simp [Run.named]) ?_
    intro p hp
    simp only [Run.named, Run.temps, toList_none, List.append_nil] at hp
    exact List.mem_append_left _ hp
  have hrows := hnames.trans (sameTasks_writeDeduped toLowercase m r n _)
  obtain ⟨hres,hdisk⟩ := reservedPath_unused toLowercase huniq
  have hother : ∀ q ∈ values m.runs, q.task ≠ r.task → reservedPath toLowercase m r n ∉ q.temps :=
    fun q hq hne hmem => (hcond q hq hne _ hmem).elim hres hdisk
  refine ((h.sameTasks hrows).reserve (p := reservedPath toLowercase m r n)).insertRun
    (h.bounded g r hr) ?_ ?_
  · intro k q _ hq hne p hp
    obtain hp | hp := List.mem_append.mp hp
    · exact h.apart g k r q hr hq hne.symm p (List.mem_append_left _ hp)
    · obtain rfl : p = reservedPath toLowercase m r n := by simpa [Run.named] using hp
      exact hother q (mem_values.mpr ⟨k,hq⟩) hne
  · intro p hp hrow
    obtain rfl : p = reservedPath toLowercase m r n := by simpa [Run.named] using hp.symm
    refine ⟨Finset.mem_insert_self _ _,fun k q _ hq hqres => ?_⟩
    by_cases htask : q.task = r.task
    · exact hres (h.held k q hq (htask ▸ hrows r.task hrow) _ hqres)
    · exact hother q (mem_values.mpr ⟨k,hq⟩) htask (reservation_mem_temps hqres)

theorem Invariant.openTemp {source : String} (h : Invariant m) (hr : m.runs[g]? = some r)
    (hcond : r.reservation = some (r.target source) ∨
      ∀ q ∈ values m.runs, q.task ≠ r.task → r.target source ∉ q.temps) :
    Invariant (openTemp m g r source) := by
  refine (h.sameTasks (sameTasks_publishName (r := r) source m.rows)).updateRun hr rfl
    (fun _ hp => hp) ?_
  intro q hq hne p hp
  obtain ⟨k,hk⟩ := mem_values.mp hq
  have hold : ∀ p ∈ r.temps, p ∉ q.temps := h.apart g k r q hr hk hne.symm
  obtain hp | hp := List.mem_append.mp hp
  · obtain rfl : p = r.target source := by
      cases hexit : r.exited <;> simp_all
    exact hcond.elim (fun hres => hold _ (reservation_mem_temps hres)) (fun hfree => hfree q hq hne)
  · exact hold p (List.mem_append_right _ hp)

theorem Invariant.removeActive (h : Invariant m) : Invariant (removeActive m g r) := by
  unfold TempPaths.removeActive
  split_ifs
  · exact h.deactivate
  · exact h

/-- The released path is the run's own reservation: no other run of an existing task has it. -/
theorem Invariant.onTaskDone (h : Invariant m) (hr : m.runs[g]? = some r) :
    Invariant (onTaskDone m g r) := by
  refine Invariant.removeActive ?_
  have herase : Invariant { m with runs := m.runs.erase g } := h.eraseRun
  cases hres : r.reservation with
  | none =>
    simp only [releaseReservation, hres]
    exact herase
  | some p =>
    simp only [releaseReservation, hres]
    refine herase.releasePath (p := p) ?_
    intro q hq hrow hqres
    obtain ⟨k,hk⟩ := mem_values.mp hq
    obtain ⟨hkg,hk⟩ := getElem?_of_erase hk
    exact h.distinct k g q r hkg hk hr hrow p hqres hres

theorem Invariant.removeTask (h : Invariant m) : Invariant (removeTask m t) := by
  refine (h.setRows ?_).deactivate
  intro r _ hrow
  rw [getElem?_erase_eq] at hrow
  split_ifs at hrow
  · exact absurd rfl hrow
  · exact hrow

theorem Invariant.releaseAndRemove {row : Row} (h : Invariant m) (hrow : m.rows[t]? = some row)
    (hcond : releasesOwn m t) :
    Invariant (TempPaths.removeTask (TempPaths.releasePath m row.tempPath) t) := by
  refine Invariant.releasePath (m := TempPaths.removeTask m t) h.removeTask ?_
  intro q hq hqrow
  have hqt : q.task ≠ t := by
    intro hqt
    simp [TempPaths.removeTask, TempPaths.setRows, TempPaths.deactivate, hqt] at hqrow
  refine hcond row hrow q hq hqt ?_
  simpa [TempPaths.removeTask, TempPaths.setRows, TempPaths.deactivate, getElem?_erase_eq, hqt]
    using hqrow

theorem activeRun_run (h : activeRun m t = some (g, r)) : m.runs[g]? = some r := by
  simp only [activeRun, bind_eq_some_iff, map_eq_some_iff] at h
  obtain ⟨k,-,q,hq,heq⟩ := h
  cases heq
  exact hq

theorem Invariant.deleteTask {row : Row} {timedOut stillWriting : Bool} {m' : Manager}
    (h : Invariant m) (hrow : m.rows[t]? = some row)
    (hcond : timedOut = true → releasesOwn m t)
    (hstep : deleteTask m t row timedOut stillWriting = some m') : Invariant m' := by
  unfold TempPaths.deleteTask at hstep
  cases hact : activeRun m t with
  | none =>
    simp only [hact] at hstep
    split_ifs at hstep
    cases hstep
    exact h.removeTask
  | some gr =>
    obtain ⟨g,r⟩ := gr
    have hr := activeRun_run hact
    simp only [hact] at hstep
    split_ifs at hstep with htime hname hexit
    · cases hstep
      exact (h.abort hr).removeTask
    · cases hstep
      have hremoved := h.releaseAndRemove hrow (hcond htime)
      exact hremoved.abort hr
    · cases hstep
      exact h.removeTask

theorem Invariant.renameTask {toLowercase : String → String} {row : Row} {newName : String}
    (h : Invariant m) : Invariant (renameTask toLowercase m t row newName) := by
  unfold TempPaths.renameTask
  split_ifs
  · exact h
  · exact h
  · exact (h.setDisk _).sameTasks (sameTasks_modify _ _ _)
  · exact (h.setDisk _).sameTasks (sameTasks_modify _ _ _)

/-! ## Runs of the manager -/

variable {toLowercase : String → String}

theorem invariant_step {a : Label} {m' : Manager} (h : Invariant m) (hcond : Undisturbed m a)
    (hstep : step toLowercase m a = some m') : Invariant m' := by
  cases a with
  | createTask t row =>
    simp only [step] at hstep
    split_ifs at hstep with hnew
    cases hstep
    refine h.setRows ?_
    intro r hr hrow
    rw [getElem?_insert_eq, if_neg (hnew.2 r hr)] at hrow
    exact hrow
  | startTask t fileName allowOverwrite | resumeTask t =>
    simp only [step] at hstep
    split_ifs at hstep
    obtain ⟨row,-,rfl⟩ := map_eq_some_iff.mp hstep
    exact h.spawnRun rfl rfl
  | finalizeStartFileName g n =>
    obtain ⟨r,hr,hstep⟩ := bind_eq_some_iff.mp hstep
    split_ifs at hstep with hguard
    cases hstep
    exact h.finalizeStartFileName hr hguard.2.2 (hcond r hr)
  | openTemp g source =>
    obtain ⟨r,hr,hstep⟩ := bind_eq_some_iff.mp hstep
    split_ifs at hstep
    cases hstep
    exact h.openTemp hr (hcond r hr)
  | deactivate t =>
    cases hstep
    exact h.deactivate
  | runExits g =>
    obtain ⟨r,hr,rfl⟩ := map_eq_some_iff.mp hstep
    exact h.shrinkRun hr rfl (fun _ hp => hp) (fun _ hp => exit_temps hp)
  | onTaskDone g =>
    obtain ⟨r,hr,hstep⟩ := bind_eq_some_iff.mp hstep
    split_ifs at hstep
    cases hstep
    exact h.onTaskDone hr
  | renameTask t newName =>
    obtain ⟨row,-,rfl⟩ := map_eq_some_iff.mp hstep
    exact h.renameTask
  | restartTask t =>
    obtain ⟨row,-,rfl⟩ := map_eq_some_iff.mp hstep
    exact h.deactivate.setDisk _
  | deleteTask t timedOut stillWriting =>
    obtain ⟨row,hrow,hstep⟩ := bind_eq_some_iff.mp hstep
    refine h.deleteTask hrow ?_ hstep
    rintro rfl
    exact hcond
  | deleteTasksBatch t =>
    obtain ⟨row,hrow,rfl⟩ := map_eq_some_iff.mp hstep
    exact h.releaseAndRemove hrow hcond
  | abort g stillWriting =>
    obtain ⟨r,hr,hstep⟩ := bind_eq_some_iff.mp hstep
    split_ifs at hstep
    cases hstep
    exact h.abort hr
  | diskChanges disk =>
    cases hstep
    exact h.setDisk disk

/-- In a run whose steps are all undisturbed, running downloads of different tasks write different
files and keep their reservations. -/
theorem temp_paths_exclusive {init m : Manager} {labels : List Label} (hi : Initial init)
    (hm : Meets (step toLowercase) Undisturbed init labels)
    (h : exec (step toLowercase) init labels = some m) : Exclusive m :=
  exclusive_of_invariant
    (exec_invariant_of_meets (fun _ _ _ => invariant_step) (invariant_initial hi) hm h)

def emptyManager : Manager := ⟨0,∅,∅,∅,∅,⟨∅,∅⟩⟩

def naming : Naming := ⟨"",none,"id"⟩

def stored (fileName : String) : Row := ⟨"downloads",fileName,.http⟩

/-- Three tasks of one name, the last one resumed after it was started once; the first is restarted
and the second deleted while its downloader flushes. -/
def undisturbedRun : List Label :=
  [.createTask 0 (stored "a.zip"), .createTask 1 (stored "a.zip"), .createTask 2 (stored ""),
    .startTask 0 "a.zip" false, .startTask 1 "a.zip" false, .startTask 2 "" false,
    .finalizeStartFileName 0 naming, .finalizeStartFileName 1 naming,
    .finalizeStartFileName 2 naming, .openTemp 0 "", .openTemp 1 "", .openTemp 2 "b.zip",
    .deactivate 0, .runExits 0, .onTaskDone 0, .renameTask 0 "c.zip", .resumeTask 0, .openTemp 3 "",
    .deleteTasksBatch 1, .abort 1 true, .restartTask 2, .resumeTask 2, .runExits 2, .onTaskDone 2,
    .openTemp 4 "", .runExits 3, .deleteTask 0 false false]

theorem temp_paths_exclusive_sample :
    ∃ m, exec (step String.toLower) emptyManager undisturbedRun = some m ∧ Exclusive m :=
  have hi : Initial emptyManager := ⟨by simp [emptyManager],by simp [emptyManager],rfl⟩
  have hm : Meets (step String.toLower) Undisturbed emptyManager undisturbedRun := by
    decide +kernel
  have hrun : (exec (step String.toLower) emptyManager undisturbedRun).isSome := by decide +kernel
  (isSome_iff_exists.mp hrun).imp (fun _ h => ⟨h,temp_paths_exclusive hi hm h⟩)

/-- Two resumed tasks of one stored name. -/
def resumedTwice : List Label :=
  [.createTask 0 (stored "a.zip"), .createTask 1 (stored "a.zip"), .resumeTask 0, .resumeTask 1,
    .openTemp 0 "", .openTemp 1 ""]

def startedTwice (a b : String) : List Label :=
  [.createTask 0 (stored a), .createTask 1 (stored b), .startTask 0 a false, .startTask 1 b false,
    .finalizeStartFileName 0 naming, .finalizeStartFileName 1 naming]

/-- The downloader cleans two reserved names into one. -/
def cleanedTwice : List Label := startedTwice "a:b" "a?b" ++ [.openTemp 0 "", .openTemp 1 ""]

def deletedSibling : List Label := startedTwice "a.zip" "a.zip" ++ [.deleteTasksBatch 1]

theorem temp_paths_shared :
    ((exec (step String.toLower) emptyManager resumedTwice).any (fun m => ¬ WritesApart m)) = true ∧
    ((exec (step String.toLower) emptyManager cleanedTwice).any (fun m => ¬ WritesApart m)) = true ∧
    ((exec (step String.toLower) emptyManager deletedSibling).any
      (fun m => ¬ ReservationsHeld m)) = true := by
  decide +kernel

end RinaDown.TempPathExclusivity
