import RinaDown.Finalization
import RinaDown.LabelledExecutions

/-!
# Finalization loses no file

Whatever the tasks of a directory and other programs do, a name that is taken is not replaced, and
only overwriting deletes. It deletes the file of a name without a look at whose that is: that no
other task has the name at that moment is the condition on the steps.
-/

namespace RinaDown.Finalization

open LabelledExecutions Option List Bool
open SingleStream (Bytes DownloadError)

variable (entryOf : String → String)

def Phase.isOpen : Phase → Bool
  | .completed _ => false
  | _ => true

def Phase.isClaim : Phase → Bool
  | .renaming | .cleaning _ => true
  | _ => false

def Phase.isOverwriting : Phase → Bool
  | .inspecting | .removing => true
  | _ => false

/-- A loss by overwriting: of a foreign file of the task's own name, in overwrite mode. -/
structure Overwrites (loss : Loss) : Prop where
  mode : loss.finalizer.allowOverwrite = true
  entry : loss.entry = entryOf loss.finalizer.actualName
  owner : loss.owner = .foreign

/-- The losses have that foreign file. -/
def Lost (s : State) (entry : String) (bytes : Bytes) : Prop :=
  ∃ loss ∈ s.losses, loss.entry = entry ∧ loss.owner = .foreign ∧ loss.bytes = bytes

/-- What holds in a directory in which no file is lost. -/
structure Safe (s : State) : Prop where
  /-- A completed task has its content under the name that it reports. -/
  content : ∀ t f name, s.tasks t = some f → f.phase = .completed name →
    s.directory (entryOf name) = some (.file (.product t) f.bytes)
  distinct : ∀ t u f g name name', t ≠ u → s.tasks t = some f → s.tasks u = some g →
    f.phase = .completed name → g.phase = .completed name' → entryOf name ≠ entryOf name'
  /-- What appears stays, unless it is a file that is overwritten. -/
  appeared : ∀ x ∈ s.appeared, s.directory x.1 = some x.2 ∨
    ∃ bytes, x.2 = .file .foreign bytes ∧ Lost s x.1 bytes
  losses : ∀ loss ∈ s.losses, Overwrites entryOf loss
  /-- A failed task has its temporary file. -/
  failed : ∀ t f error, s.tasks t = some f → f.phase = .failed error →
    s.directory (entryOf f.tempName) = some (.file (.temporary t) f.bytes)
  /-- A placeholder is of a task that is about to move its file onto it. -/
  placeholder : ∀ entry owner bytes, s.directory entry = some (.file owner bytes) →
    owner ≠ .orphan ∧ ∀ t, owner = .placeholder t →
      ∃ f, s.tasks t = some f ∧ f.phase.isClaim = true ∧ entry = entryOf f.chosen

/-- When overwriting deletes, the name is not that of a file of a task, and the removal of a
placeholder works. -/
def Orderly (s : State) : Label → Prop
  | .removeFile t false => ∀ f ∈ s.tasks t, f.phase = .removing →
      entryOf f.tempName ≠ entryOf f.actualName ∧ ∀ u ∈ s.started, u ≠ t → ∀ g ∈ s.tasks u,
        entryOf g.chosen ≠ entryOf f.actualName ∧ entryOf g.tempName ≠ entryOf f.actualName
  | .removePlaceholder _ fault => fault = false
  | _ => True

instance (s : State) (label : Label) : Decidable (Orderly entryOf s label) := by
  unfold Orderly
  split <;> infer_instance

/-! ## The invariant -/

/-- What a task has in the directory. -/
structure Own (s : State) (t : ℕ) (f : Finalizer) : Prop where
  temporary : f.phase.isOpen = true →
    s.directory (entryOf f.tempName) = some (.file (.temporary t) f.bytes)
  claim : f.phase.isClaim = true →
    ∃ bytes, s.directory (entryOf f.chosen) = some (.file (.placeholder t) bytes)
  content : ∀ name, f.phase = .completed name →
    s.directory (entryOf name) = some (.file (.product t) f.bytes)
  /-- It overwrites under its own name. -/
  overwriting : f.phase.isOverwriting = true →
    f.allowOverwrite = true ∧ f.chosen = f.actualName

def Owner.task : Owner → Option ℕ
  | .foreign | .orphan => none
  | .temporary t | .placeholder t | .product t => some t

/-- The entry of a file of the task is that of one of its names. -/
def Named (f : Finalizer) (entry : String) : Owner → Prop
  | .temporary _ => entry = entryOf f.tempName
  | .placeholder _ => f.phase.isClaim = true ∧ entry = entryOf f.chosen
  | .product _ => f.phase = .completed f.chosen ∧ entry = entryOf f.chosen
  | _ => True

structure Inv (s : State) : Prop where
  own : ∀ t f, s.tasks t = some f → Own entryOf s t f
  started : ∀ t f, s.tasks t = some f → t ∈ s.started
  named : ∀ entry owner bytes t, s.directory entry = some (.file owner bytes) →
    owner.task = some t → ∃ f, s.tasks t = some f ∧ Named entryOf f entry owner
  orphan : ∀ entry bytes, s.directory entry ≠ some (.file .orphan bytes)
  appeared : ∀ x ∈ s.appeared, s.directory x.1 = some x.2 ∨
    ∃ bytes, x.2 = .file .foreign bytes ∧ Lost s x.1 bytes
  foreign : ∀ x ∈ s.appeared, x.2 = .directory ∨ ∃ bytes, x.2 = .file .foreign bytes
  losses : ∀ loss ∈ s.losses, Overwrites entryOf loss

variable {entryOf} {s s' : State} {t : ℕ} {f f' : Finalizer}

theorem Inv.safe (h : Inv entryOf s) : Safe entryOf s where
  content := fun t f name hf hname => (h.own t f hf).content name hname
  distinct := by
    intro t u f g name name' hne hf hg hname hname' hentry
    have hthere := (h.own t f hf).content name hname
    rw [hentry, (h.own u g hg).content name' hname'] at hthere
    have howner := (Entry.file.inj (some.inj hthere)).1
    exact hne (Owner.product.inj howner).symm
  appeared := h.appeared
  losses := h.losses
  failed := by
    intro t f error hf herror
    apply (h.own t f hf).temporary
    rw [herror]
    rfl
  placeholder := by
    intro entry owner bytes hentry
    constructor
    · rintro rfl
      exact h.orphan entry bytes hentry
    · rintro t rfl
      exact h.named entry _ bytes t hentry rfl

/-- What a step of a task does to the entries: each one stays, or what goes is the task's own or a
foreign file that it overwrites, and what comes is its own or foreign. -/
structure Keeps (t : ℕ) (s s' : State) : Prop where
  entries : ∀ entry, s'.directory entry = s.directory entry ∨
    (∀ e, s.directory entry = some e →
      (∃ bytes, e = .file (.temporary t) bytes ∨ e = .file (.placeholder t) bytes) ∨
        ∃ bytes, e = .file .foreign bytes ∧ Lost s' entry bytes) ∧
      ∀ owner bytes, s'.directory entry = some (.file owner bytes) →
        owner = .foreign ∨ owner.task = some t
  tasks : ∀ u, u ≠ t → s'.tasks u = s.tasks u
  started : ∀ u ∈ s.started, u ∈ s'.started
  lost : ∀ loss ∈ s.losses, loss ∈ s'.losses

variable {bytes : Bytes} {owner : Owner}

/-- A file of another task stays. -/
theorem Keeps.entry (h : Keeps t s s') {entry : String} {u : ℕ}
    (hentry : s.directory entry = some (.file owner bytes)) (howner : owner.task = some u)
    (hut : u ≠ t) : s'.directory entry = some (.file owner bytes) := by
  rcases h.entries entry with hkept | ⟨hgone,-⟩
  · rw [hkept, hentry]
  · rcases hgone _ hentry with ⟨b,hown | hown⟩ | ⟨b,hforeign,-⟩
    · cases hown
      exact absurd (some.inj howner).symm hut
    · cases hown
      exact absurd (some.inj howner).symm hut
    · cases hforeign
      cases howner

theorem Keeps.own (hk : Keeps t s s') {u : ℕ} (hut : u ≠ t) (h : Own entryOf s u f) :
    Own entryOf s' u f where
  temporary := fun hopen => hk.entry (h.temporary hopen) rfl hut
  claim := by
    intro hclaim
    obtain ⟨bytes,hentry⟩ := h.claim hclaim
    exact ⟨bytes,hk.entry hentry rfl hut⟩
  content := fun name hname => hk.entry (h.content name hname) rfl hut
  overwriting := h.overwriting

theorem Keeps.appeared (hk : Keeps t s s') {x : String × Entry}
    (hforeign : x.2 = .directory ∨ ∃ bytes, x.2 = .file .foreign bytes)
    (h : s.directory x.1 = some x.2 ∨ ∃ bytes, x.2 = .file .foreign bytes ∧ Lost s x.1 bytes) :
    s'.directory x.1 = some x.2 ∨ ∃ bytes, x.2 = .file .foreign bytes ∧ Lost s' x.1 bytes := by
  rcases h with hentry | ⟨bytes,hfile,loss,hmem,hloss⟩
  · rcases hk.entries x.1 with hkept | ⟨hgone,-⟩
    · left
      rw [hkept, hentry]
    · rcases hgone _ hentry with ⟨b,hown⟩ | hlost
      · exfalso
        rcases hforeign with hx | ⟨b',hx⟩ <;> rw [hx] at hown <;>
          rcases hown with hown | hown <;> cases hown
      · exact .inr hlost
  · exact .inr ⟨bytes,hfile,loss,hk.lost loss hmem,hloss⟩

/-- A step of a task preserves the invariant if it does so for the task itself. -/
theorem Inv.keeps (f' : Finalizer) (h : Inv entryOf s) (hk : Keeps t s s')
    (hlosses : ∀ loss ∈ s'.losses, Overwrites entryOf loss)
    (happeared : s'.appeared = s.appeared) (hf' : s'.tasks t = some f') (hstarted : t ∈ s'.started)
    (hown : Own entryOf s' t f')
    (hnamed : ∀ entry owner bytes, s'.directory entry = some (.file owner bytes) →
      owner.task = some t → Named entryOf f' entry owner) : Inv entryOf s' where
  own := by
    intro u f hf
    by_cases hut : u = t
    · rw [hut] at hf ⊢
      rw [hf'] at hf
      cases hf
      exact hown
    · rw [hk.tasks u hut] at hf
      exact hk.own hut (h.own u f hf)
  started := by
    intro u f hf
    by_cases hut : u = t
    · rwa [hut]
    · rw [hk.tasks u hut] at hf
      exact hk.started u (h.started u f hf)
  named := by
    intro entry owner bytes u hentry howner
    by_cases hut : u = t
    · rw [hut] at howner ⊢
      exact ⟨f',hf',hnamed entry owner bytes hentry howner⟩
    · rw [hk.tasks u hut]
      rcases hk.entries entry with hkept | ⟨-,hnew⟩
      · rw [hkept] at hentry
        exact h.named entry owner bytes u hentry howner
      · rcases hnew owner bytes hentry with rfl | htask
        · cases howner
        · rw [howner] at htask
          exact absurd (some.inj htask) hut
  orphan := by
    intro entry bytes hentry
    rcases hk.entries entry with hkept | ⟨-,hnew⟩
    · rw [hkept] at hentry
      exact h.orphan entry bytes hentry
    · rcases hnew _ bytes hentry with heq | heq <;> cases heq
  appeared := by
    intro x hx
    rw [happeared] at hx
    exact hk.appeared (h.foreign x hx) (h.appeared x hx)
  foreign := by
    rw [happeared]
    exact h.foreign
  losses := hlosses

/-! ## The steps of a task -/

theorem setTask_tasks_ne {u : ℕ} (hut : u ≠ t) : (s.setTask t f).tasks u = s.tasks u :=
  Function.update_of_ne hut _ _

theorem setTask_tasks_self : (s.setTask t f).tasks t = some f := Function.update_self _ _ _

theorem setEntry_self {entry : String} {e : Option Entry} :
    (s.setEntry entry e).directory entry = e :=
  Function.update_self _ _ _

theorem setEntry_ne {entry k : String} {e : Option Entry} (hne : k ≠ entry) :
    (s.setEntry entry e).directory k = s.directory k :=
  Function.update_of_ne hne _ _

/-- A file that the task has under one of its names keeps it as long as the claim does. -/
theorem Inv.stillNamed (f' : Finalizer) (h : Inv entryOf s) (hf : s.tasks t = some f)
    (hname : f'.actualName = f.actualName) (hopen : f.phase.isOpen = true) {entry : String}
    (hclaim : f.phase.isClaim = true → entry = entryOf f.chosen → f'.phase.isClaim = true ∧ f'.chosen = f.chosen)
    (hentry : s.directory entry = some (.file owner bytes)) (howner : owner.task = some t) :
    Named entryOf f' entry owner := by
  obtain ⟨g,hg,hnamed⟩ := h.named entry owner bytes t hentry howner
  rw [hf] at hg
  cases hg
  cases owner with
  | foreign => trivial
  | orphan => trivial
  | temporary u =>
      rw [Named, Finalizer.tempName, hname]
      exact hnamed
  | placeholder u =>
      obtain ⟨hphase,hchosen⟩ := hclaim hnamed.1 hnamed.2
      rw [Named, hchosen]
      exact ⟨hphase,hnamed.2⟩
  | product u =>
      rw [hnamed.1] at hopen
      cases hopen

theorem Inv.setTask (h : Inv entryOf s) (hf : s.tasks t = some f)
    (hname : f'.actualName = f.actualName) (hbytes : f'.bytes = f.bytes)
    (hopen : f.phase.isOpen = true) (hopen' : f'.phase.isOpen = true)
    (hclaim : f'.phase.isClaim = f.phase.isClaim)
    (hchosen : f.phase.isClaim = true → f'.chosen = f.chosen)
    (hoverwriting : f'.phase.isOverwriting = true →
      f'.allowOverwrite = true ∧ f'.chosen = f'.actualName) : Inv entryOf (s.setTask t f') := by
  have hown := h.own t f hf
  refine h.keeps (t := t) f' ?_ h.losses rfl setTask_tasks_self (h.started t f hf) ?_ ?_
  · exact ⟨fun _ => .inl rfl,fun u hut => setTask_tasks_ne hut,fun _ hu => hu,
      fun _ hmem => hmem⟩
  · constructor
    case temporary =>
      intro _
      have htemporary := hown.temporary hopen
      rw [Finalizer.tempName] at htemporary ⊢
      rw [hname, hbytes]
      exact htemporary
    case claim =>
      intro hclaim'
      rw [hclaim] at hclaim'
      rw [hchosen hclaim']
      exact hown.claim hclaim'
    case content =>
      intro name hcompleted
      rw [hcompleted] at hopen'
      cases hopen'
    case overwriting => exact hoverwriting
  · intro entry owner bytes hentry howner
    exact h.stillNamed f' hf hname hopen (fun hyes _ => ⟨hclaim.trans hyes,hchosen hyes⟩)
      hentry howner

theorem Inv.goto (h : Inv entryOf s) (hf : s.tasks t = some f) {phase : Phase}
    (hopen : f.phase.isOpen = true) (hopen' : phase.isOpen = true)
    (hclaim : phase.isClaim = f.phase.isClaim)
    (hoverwriting : phase.isOverwriting = true → f.phase.isOverwriting = true) :
    Inv entryOf (s.setTask t (f.goto phase)) :=
  h.setTask hf rfl rfl hopen hopen' hclaim (fun _ => rfl)
    fun hphase => (h.own t f hf).overwriting (hoverwriting hphase)

theorem Inv.placeholderCreated (h : Inv entryOf s) (hf : s.tasks t = some f)
    (hphase : f.phase = .claiming) (hfree : s.directory (entryOf f.chosen) = none) :
    Inv entryOf ((s.setTask t (f.goto .renaming)).setEntry (entryOf f.chosen)
      (some (.file (.placeholder t) []))) := by
  have hopen : f.phase.isOpen = true := by
    rw [hphase]
    rfl
  refine h.keeps (t := t) (f.goto .renaming) ?_ h.losses rfl setTask_tasks_self
    (h.started t f hf) ?_ ?_
  · refine ⟨?_,fun u hut => setTask_tasks_ne hut,fun _ hu => hu,fun _ hmem => hmem⟩
    intro entry
    by_cases hc : entry = entryOf f.chosen
    · right
      rw [hc, hfree, setEntry_self]
      refine ⟨fun _ heq => (nomatch heq),?_⟩
      rintro owner bytes ⟨⟩
      exact .inr rfl
    · exact .inl (setEntry_ne hc)
  · constructor
    case temporary =>
      intro _
      have htemporary := (h.own t f hf).temporary hopen
      have hne : entryOf f.tempName ≠ entryOf f.chosen := by
        intro heq
        rw [heq, hfree] at htemporary
        cases htemporary
      exact (setEntry_ne hne).trans htemporary
    case claim => exact fun _ => ⟨[],setEntry_self⟩
    case content => exact fun name hcompleted => nomatch hcompleted
    case overwriting => exact fun hoverwriting => nomatch hoverwriting
  · intro entry owner bytes hentry howner
    by_cases hc : entry = entryOf f.chosen
    · rw [hc, setEntry_self] at hentry
      cases hentry
      exact ⟨rfl,hc⟩
    · rw [setEntry_ne hc] at hentry
      refine h.stillNamed (f.goto .renaming) hf rfl hopen (fun hclaim _ => ?_) hentry howner
      rw [hphase] at hclaim
      cases hclaim

theorem Inv.createNew (h : Inv entryOf s) (hf : s.tasks t = some f) (hphase : f.phase = .claiming)
    (fault : Option String) : Inv entryOf (createNew entryOf s t f fault) := by
  have hopen : f.phase.isOpen = true := by
    rw [hphase]
    rfl
  have hclaim : f.phase.isClaim = false := by
    rw [hphase]
    rfl
  cases fault with
  | some message => exact h.goto hf hopen rfl hclaim.symm (fun hover => nomatch hover)
  | none =>
      simp only [Finalization.createNew]
      split
      · rename_i heq
        cases heq
      · exact h.goto hf hopen rfl hclaim.symm (fun hover => nomatch hover)
      · rename_i hfree
        exact h.placeholderCreated hf hphase hfree

theorem lose_placeholder {entry : String}
    (hentry : s.directory entry = some (.file (.placeholder t) bytes)) :
    s.lose t f entry = s := by
  rw [State.lose, hentry]
  exact if_pos rfl

/-- The temporary file takes the place of the placeholder. -/
theorem Inv.moved (h : Inv entryOf s) (hf : s.tasks t = some f) (hopen : f.phase.isOpen = true)
    (hchosen : s.directory (entryOf f.chosen) = some (.file (.placeholder t) bytes)) :
    Inv entryOf (((s.setEntry (entryOf f.tempName) none).setEntry (entryOf f.chosen)
      (some (.file (.product t) f.bytes))).setTask t (f.goto (.completed f.chosen))) := by
  have htemporary := (h.own t f hf).temporary hopen
  have hne : entryOf f.tempName ≠ entryOf f.chosen := by
    intro heq
    rw [heq, hchosen] at htemporary
    cases htemporary
  have hkept : ∀ entry, entry ≠ entryOf f.chosen → entry ≠ entryOf f.tempName →
      ((s.setEntry (entryOf f.tempName) none).setEntry (entryOf f.chosen)
        (some (.file (.product t) f.bytes))).directory entry = s.directory entry :=
    fun entry hc ht => (setEntry_ne hc).trans (setEntry_ne ht)
  have hgone : ((s.setEntry (entryOf f.tempName) none).setEntry (entryOf f.chosen)
      (some (.file (.product t) f.bytes))).directory (entryOf f.tempName) = none :=
    (setEntry_ne hne).trans setEntry_self
  refine h.keeps (t := t) (f.goto (.completed f.chosen)) ?_ h.losses rfl
    setTask_tasks_self (h.started t f hf) ?_ ?_
  · refine ⟨?_,fun u hut => setTask_tasks_ne hut,fun _ hu => hu,fun _ hmem => hmem⟩
    intro entry
    by_cases hc : entry = entryOf f.chosen
    · right
      rw [hc, hchosen]
      constructor
      · rintro e ⟨⟩
        exact .inl ⟨bytes,.inr rfl⟩
      · rintro owner b hentry
        cases setEntry_self.symm.trans hentry
        exact .inr rfl
    · by_cases ht : entry = entryOf f.tempName
      · right
        rw [ht, htemporary]
        constructor
        · rintro e ⟨⟩
          exact .inl ⟨f.bytes,.inl rfl⟩
        · intro owner b hentry
          cases hgone.symm.trans hentry
      · exact .inl (hkept entry hc ht)
  · constructor
    case temporary => exact fun hopen => nomatch hopen
    case claim => exact fun hclaim => nomatch hclaim
    case content =>
      intro name hcompleted
      cases hcompleted
      exact setEntry_self
    case overwriting => exact fun hoverwriting => nomatch hoverwriting
  · intro entry owner b hentry howner
    by_cases hc : entry = entryOf f.chosen
    · rw [hc] at hentry ⊢
      cases setEntry_self.symm.trans hentry
      exact ⟨rfl,rfl⟩
    · by_cases ht : entry = entryOf f.tempName
      · rw [ht] at hentry
        cases hgone.symm.trans hentry
      · exact h.stillNamed (f.goto (.completed f.chosen)) hf rfl hopen (fun _ heq => absurd heq hc)
          ((hkept entry hc ht).symm.trans hentry) howner

theorem Inv.rename (h : Inv entryOf s) (hf : s.tasks t = some f) (hphase : f.phase = .renaming)
    (fault : Option String) : Inv entryOf (rename entryOf s t f fault) := by
  have hown := h.own t f hf
  have hopen : f.phase.isOpen = true := by
    rw [hphase]
    rfl
  have hclaim : f.phase.isClaim = true := by
    rw [hphase]
    rfl
  cases fault with
  | some message => exact h.goto hf hopen rfl hclaim.symm (fun hover => nomatch hover)
  | none =>
      obtain ⟨bytes,hchosen⟩ := hown.claim hclaim
      simp only [Finalization.rename, hown.temporary hopen, hchosen, lose_placeholder hchosen]
      exact h.moved hf hopen hchosen

/-- The task deletes what has the name that it chose. -/
theorem Inv.cleared (h : Inv entryOf s) (hf : s.tasks t = some f) (hopen : f.phase.isOpen = true)
    {losses : List Loss} {phase : Phase} (hopen' : phase.isOpen = true)
    (hclaim : phase.isClaim = false) (hover : phase.isOverwriting = false)
    (hsub : ∀ loss ∈ s.losses, loss ∈ losses) (hlosses : ∀ loss ∈ losses, Overwrites entryOf loss)
    (hchosen : s.directory (entryOf f.chosen) = some (.file owner bytes))
    (howner : owner = .placeholder t ∨ owner = .foreign ∧ Lost { s with losses := losses } (entryOf f.chosen) bytes) :
    Inv entryOf (({ s with losses := losses }.setEntry (entryOf f.chosen) none).setTask t
      (f.goto phase)) := by
  have htemporary := (h.own t f hf).temporary hopen
  have hne : entryOf f.tempName ≠ entryOf f.chosen := by
    intro heq
    rw [heq, hchosen] at htemporary
    rcases howner with rfl | ⟨rfl,-⟩ <;> cases htemporary
  refine h.keeps (t := t) (f.goto phase) ?_ hlosses rfl setTask_tasks_self (h.started t f hf) ?_ ?_
  · refine ⟨?_,fun u hut => setTask_tasks_ne hut,fun _ hu => hu,hsub⟩
    intro entry
    by_cases hc : entry = entryOf f.chosen
    · right
      rw [hc, hchosen]
      constructor
      · rintro e ⟨⟩
        rcases howner with rfl | ⟨rfl,hlost⟩
        · exact .inl ⟨bytes,.inr rfl⟩
        · exact .inr ⟨bytes,rfl,hlost⟩
      · intro owner' b hentry
        cases setEntry_self.symm.trans hentry
    · exact .inl (setEntry_ne hc)
  · constructor
    case temporary => exact fun _ => (setEntry_ne hne).trans htemporary
    case claim => exact fun hyes => absurd (hclaim.symm.trans hyes) false_ne_true
    case content =>
      rintro name (hcompleted : phase = _)
      rw [hcompleted] at hopen'
      cases hopen'
    case overwriting => exact fun hyes => absurd (hover.symm.trans hyes) false_ne_true
  · intro entry owner' b hentry htask
    by_cases hc : entry = entryOf f.chosen
    · rw [hc] at hentry
      cases setEntry_self.symm.trans hentry
    · exact h.stillNamed (f.goto phase) hf rfl hopen (fun _ heq => absurd heq hc)
        ((setEntry_ne hc).symm.trans hentry) htask

theorem Inv.removePlaceholder (h : Inv entryOf s) (hf : s.tasks t = some f) {message : String}
    (hphase : f.phase = .cleaning message) :
    Inv entryOf (removePlaceholder entryOf s t f message false) := by
  have hopen : f.phase.isOpen = true := by
    rw [hphase]
    rfl
  obtain ⟨bytes,hchosen⟩ := (h.own t f hf).claim (by rw [hphase]; rfl)
  simp only [Finalization.removePlaceholder, hchosen, lose_placeholder hchosen]
  exact h.cleared hf hopen rfl rfl rfl (fun _ hmem => hmem) h.losses hchosen (.inl rfl)

/-- The file that overwriting deletes is nobody's. -/
theorem Inv.foreign_of_orderly (h : Inv entryOf s) (hf : s.tasks t = some f)
    (hphase : f.phase = .removing) (horderly : Orderly entryOf s (.removeFile t false))
    (hchosen : s.directory (entryOf f.chosen) = some (.file owner bytes)) : owner = .foreign := by
  obtain ⟨hown,hothers⟩ := horderly f hf hphase
  rw [((h.own t f hf).overwriting (by rw [hphase]; rfl)).2] at hchosen
  cases howner : owner.task with
  | none =>
      cases owner with
      | foreign => rfl
      | orphan => exact absurd hchosen (h.orphan _ bytes)
      | _ => cases howner
  | some u =>
      exfalso
      obtain ⟨g,hg,hnamed⟩ := h.named _ owner bytes u hchosen howner
      by_cases hut : u = t
      · subst hut
        rw [hf] at hg
        cases hg
        cases owner with
        | temporary v => exact hown hnamed.symm
        | placeholder v =>
            rw [Named, hphase] at hnamed
            cases hnamed.1
        | product v =>
            rw [Named, hphase] at hnamed
            cases hnamed.1
        | _ => cases howner
      · obtain ⟨hname,htemp⟩ := hothers u (h.started u g hg) hut g hg
        cases owner with
        | temporary v => exact htemp hnamed.symm
        | placeholder v | product v => exact hname hnamed.2.symm
        | _ => cases howner

theorem Inv.removeFile (h : Inv entryOf s) (hf : s.tasks t = some f) (hphase : f.phase = .removing)
    {fault : Bool} (horderly : Orderly entryOf s (.removeFile t fault)) :
    Inv entryOf (removeFile entryOf s t f fault) := by
  have hopen : f.phase.isOpen = true := by
    rw [hphase]
    rfl
  have hclaim : f.phase.isClaim = false := by
    rw [hphase]
    rfl
  obtain ⟨hmode,hname⟩ := (h.own t f hf).overwriting (by rw [hphase]; rfl)
  simp only [Finalization.removeFile]
  split
  · rename_i owner bytes hchosen
    obtain rfl := h.foreign_of_orderly hf hphase horderly hchosen
    have hlose : s.lose t f (entryOf f.chosen) =
        { s with losses := ⟨f,entryOf f.chosen,.foreign,bytes⟩ :: s.losses } := by
      rw [State.lose, hchosen]
      exact if_neg (fun heq => nomatch heq)
    rw [hlose]
    refine h.cleared hf hopen rfl rfl rfl (fun _ hmem => mem_cons_of_mem _ hmem) ?_ hchosen
      (.inr ⟨rfl,_,mem_cons_self,rfl,rfl,rfl⟩)
    intro loss hmem
    rcases mem_cons.mp hmem with rfl | hmem
    · exact ⟨hmode,congrArg entryOf hname,rfl⟩
    · exact h.losses loss hmem
  · exact h.goto hf hopen rfl hclaim.symm (fun hover => nomatch hover)

theorem loadAvoid_fields (toLowercase : String → String) (f : Finalizer)
    (siblings : Option (List String)) :
    (f.loadAvoid toLowercase siblings).actualName = f.actualName ∧
      (f.loadAvoid toLowercase siblings).bytes = f.bytes := by
  rw [Finalizer.loadAvoid]
  split_ifs
  · exact ⟨rfl,rfl⟩
  · exact ⟨rfl,rfl⟩

/-- A task overwrites only under its own name. -/
theorem makeWay_spec (toLowercase : String → String) (f : Finalizer) :
    (f.makeWay toLowercase).actualName = f.actualName ∧
      (f.makeWay toLowercase).bytes = f.bytes ∧
      (f.makeWay toLowercase).phase.isOpen = true ∧
      (f.makeWay toLowercase).phase.isClaim = false ∧
      ((f.makeWay toLowercase).phase.isOverwriting = true →
        (f.makeWay toLowercase).allowOverwrite = true ∧
          (f.makeWay toLowercase).chosen = (f.makeWay toLowercase).actualName) := by
  rw [Finalizer.makeWay]
  split_ifs with hoverwrite
  · simp only [mayOverwrite, and_eq_true, decide_eq_true_eq] at hoverwrite
    exact ⟨rfl,rfl,rfl,rfl,fun _ => ⟨hoverwrite.1.1.1,hoverwrite.1.2⟩⟩
  · exact ⟨rfl,rfl,rfl,rfl,fun hover => nomatch hover⟩

theorem Inv.conflict (h : Inv entryOf s) (hf : s.tasks t = some f)
    (hphase : f.phase = .conflicted) (toLowercase : String → String)
    (siblings : Option (List String)) :
    Inv entryOf (s.setTask t (f.conflict toLowercase siblings)) := by
  have hopen : f.phase.isOpen = true := by
    rw [hphase]
    rfl
  have hclaim : f.phase.isClaim = false := by
    rw [hphase]
    rfl
  have hno : f.phase.isClaim ≠ true := by
    rw [hclaim]
    exact false_ne_true
  rw [Finalizer.conflict]
  split_ifs
  · exact h.setTask hf rfl rfl hopen rfl hclaim.symm (fun _ => rfl) (fun hover => nomatch hover)
  · obtain ⟨hname,hbytes⟩ := loadAvoid_fields toLowercase f siblings
    obtain ⟨hname',hbytes',hopen',hclaim',hover⟩ := makeWay_spec toLowercase
      { f.loadAvoid toLowercase siblings with attempt := f.attempt + 1 }
    exact h.setTask hf (hname'.trans hname) (hbytes'.trans hbytes) hopen hopen'
      (hclaim'.trans hclaim.symm) (fun hyes => absurd hyes hno) hover

theorem Inv.inspect (h : Inv entryOf s) (hf : s.tasks t = some f)
    (hphase : f.phase = .inspecting) (fault : Bool) :
    Inv entryOf (inspect entryOf s t f fault) := by
  have hopen : f.phase.isOpen = true := by
    rw [hphase]
    rfl
  have hclaim : f.phase.isClaim = false := by
    rw [hphase]
    rfl
  rw [Finalization.inspect]
  split_ifs
  · exact h.goto hf hopen rfl hclaim.symm (fun hover => nomatch hover)
  · exact h.goto hf hopen rfl hclaim.symm (fun _ => by rw [hphase]; rfl)

theorem stepTask_inv {toLowercase : String → String} {label : Label} (h : Inv entryOf s)
    (hf : s.tasks label.task = some f) (horderly : Orderly entryOf s label)
    (hstep : stepTask entryOf toLowercase s label.task f label = some s') : Inv entryOf s' := by
  cases label with
  | appear name contents => cases hstep
  | start t actualName allowOverwrite bytes => cases hstep
  | retry t allowOverwrite =>
      simp only [stepTask] at hstep
      split at hstep
      · rename_i error hphase
        cases hstep
        refine h.setTask hf rfl rfl ?_ rfl ?_ (fun hclaim => ?_) (fun hover => nomatch hover)
        · rw [hphase]
          rfl
        · rw [hphase]
          rfl
        · rw [hphase] at hclaim
          cases hclaim
      · cases hstep
  | createNew t fault =>
      simp only [stepTask] at hstep
      split_ifs at hstep with hphase
      cases hstep
      exact h.createNew hf hphase fault
  | rename t fault =>
      simp only [stepTask] at hstep
      split_ifs at hstep with hphase
      cases hstep
      exact h.rename hf hphase fault
  | removePlaceholder t fault =>
      simp only [stepTask] at hstep
      split at hstep
      · rename_i message hphase
        cases hstep
        obtain rfl : fault = false := horderly
        exact h.removePlaceholder hf hphase
      · cases hstep
  | conflict t siblings =>
      simp only [stepTask] at hstep
      split_ifs at hstep with hphase
      cases hstep
      exact h.conflict hf hphase toLowercase siblings
  | inspect t fault =>
      simp only [stepTask] at hstep
      split_ifs at hstep with hphase
      cases hstep
      exact h.inspect hf hphase fault
  | removeFile t fault =>
      simp only [stepTask] at hstep
      split_ifs at hstep with hphase
      cases hstep
      exact h.removeFile hf hphase horderly
  | dedup t seen =>
      simp only [stepTask] at hstep
      split_ifs at hstep with hphase
      cases hstep
      refine h.setTask hf rfl rfl ?_ rfl ?_ (fun hclaim => ?_) (fun hover => nomatch hover)
      · rw [hphase]
        rfl
      · rw [hphase]
        rfl
      · rw [hphase] at hclaim
        cases hclaim

/-! ## The directory -/

/-- A new entry, of the task or foreign, leaves the others as they are. -/
theorem keeps_added {k : String} {e : Entry} (hfree : s.directory k = none)
    (he : ∀ owner bytes, e = .file owner bytes → owner = .foreign ∨ owner.task = some t)
    (hdirectory : s'.directory = (s.setEntry k (some e)).directory)
    (htasks : ∀ u, u ≠ t → s'.tasks u = s.tasks u) (hstarted : ∀ u ∈ s.started, u ∈ s'.started)
    (hlosses : s'.losses = s.losses) : Keeps t s s' := by
  refine ⟨?_,htasks,hstarted,?_⟩
  · intro entry
    rw [hdirectory]
    by_cases hk : entry = k
    · right
      rw [hk, hfree, setEntry_self]
      refine ⟨fun _ heq => (nomatch heq),?_⟩
      intro owner bytes heq
      exact he owner bytes (some.inj heq)
    · exact .inl (setEntry_ne hk)
  · rw [hlosses]
    exact fun _ hmem => hmem

theorem Inv.start (h : Inv entryOf s) {actualName : String} {allowOverwrite : Bool}
    (hstep : start entryOf s t actualName allowOverwrite bytes = some s') :
    Inv entryOf s' := by
  simp only [Finalization.start] at hstep
  split_ifs at hstep with hguard
  obtain ⟨hnew,hfree⟩ := hguard
  have hs' := some.inj hstep
  have hdirectory : s'.directory = (s.setEntry (entryOf (actualName ++ FileNames.tempExt))
      (some (.file (.temporary t) bytes))).directory := by
    rw [← hs']
    rfl
  have hstarted : s'.started = t :: s.started := by rw [← hs']
  have hk := keeps_added (t := t) hfree (by rintro owner b ⟨⟩; exact .inr rfl) hdirectory
    (fun u hut => by rw [← hs']; exact setTask_tasks_ne hut)
    (fun u hu => by rw [hstarted]; exact mem_cons_of_mem _ hu) (by rw [← hs']; rfl)
  refine h.keeps _ hk ?_ (by rw [← hs']; rfl) (by rw [← hs']; exact setTask_tasks_self) ?_ ?_ ?_
  · rw [← hs']
    exact h.losses
  · rw [hstarted]
    exact mem_cons_self
  · constructor
    case temporary =>
      intro _
      rw [hdirectory]
      exact setEntry_self
    case claim => exact fun hclaim => nomatch hclaim
    case content => exact fun name hcompleted => nomatch hcompleted
    case overwriting => exact fun hover => nomatch hover
  · intro entry owner b hentry howner
    rw [hdirectory] at hentry
    by_cases hc : entry = entryOf (actualName ++ FileNames.tempExt)
    · rw [hc] at hentry ⊢
      cases setEntry_self.symm.trans hentry
      rfl
    · rw [setEntry_ne hc] at hentry
      obtain ⟨g,hg,-⟩ := h.named entry owner b t hentry howner
      rw [hnew] at hg
      cases hg

theorem Inv.appear (h : Inv entryOf s) {name : String} {contents : Option Bytes}
    (hstep : appear entryOf s name contents = some s') : Inv entryOf s' := by
  rw [Finalization.appear] at hstep
  split_ifs at hstep with hfree
  have hs' := some.inj hstep
  have hdirectory : s'.directory =
      (s.setEntry (entryOf name) (some (foreignEntry contents))).directory := by
    rw [← hs']
  have hforeign : foreignEntry contents = .directory ∨
      ∃ bytes, foreignEntry contents = .file .foreign bytes := by
    cases contents with
    | none => exact .inl rfl
    | some bytes => exact .inr ⟨bytes,rfl⟩
  have hnew : ∀ owner bytes, foreignEntry contents = .file owner bytes → owner = .foreign := by
    intro owner bytes heq
    rcases hforeign with hd | ⟨b,hfile⟩
    · cases hd.symm.trans heq
    · cases hfile.symm.trans heq
      rfl
  have htasks : s'.tasks = s.tasks := by
    rw [← hs']
    rfl
  have hstarted : s'.started = s.started := by
    rw [← hs']
    rfl
  have hlosses : s'.losses = s.losses := by
    rw [← hs']
    rfl
  have happeared : s'.appeared = (entryOf name, foreignEntry contents) :: s.appeared := by
    rw [← hs']
  -- a step of no task keeps what every task has
  have hk : ∀ t, Keeps t s s' := fun t =>
    keeps_added hfree (fun owner bytes heq => .inl (hnew owner bytes heq)) hdirectory
      (fun u _ => congrFun htasks u) (fun u hu => by rwa [hstarted]) hlosses
  have hold : ∀ {entry owner bytes}, s'.directory entry = some (.file owner bytes) →
      owner ≠ .foreign → s.directory entry = some (.file owner bytes) := by
    intro entry owner bytes hentry howner
    rw [hdirectory] at hentry
    by_cases hc : entry = entryOf name
    · rw [hc, setEntry_self] at hentry
      exact absurd (hnew owner bytes (some.inj hentry)) howner
    · rwa [setEntry_ne hc] at hentry
  constructor
  case own =>
    intro u f hf
    rw [htasks] at hf
    exact (hk (u + 1)).own (Nat.ne_of_lt (Nat.lt_succ_self u)) (h.own u f hf)
  case started =>
    rw [htasks, hstarted]
    exact h.started
  case named =>
    intro entry owner bytes u hentry howner
    rw [htasks]
    refine h.named entry owner bytes u (hold hentry ?_) howner
    rintro rfl
    cases howner
  case orphan =>
    intro entry bytes hentry
    exact h.orphan entry bytes (hold hentry (fun heq => nomatch heq))
  case appeared =>
    intro x hx
    rw [happeared] at hx
    rcases mem_cons.mp hx with rfl | hx
    · left
      rw [hdirectory]
      exact setEntry_self
    · exact (hk 0).appeared (h.foreign x hx) (h.appeared x hx)
  case foreign =>
    intro x hx
    rw [happeared] at hx
    rcases mem_cons.mp hx with rfl | hx
    · exact hforeign
    · exact h.foreign x hx
  case losses =>
    rw [hlosses]
    exact h.losses

/-! ## Runs -/

def emptyState : State := ⟨fun _ => none,fun _ => none,[],[],[]⟩

theorem inv_emptyState : Inv entryOf emptyState where
  own := fun _ _ hf => nomatch hf
  started := fun _ _ hf => nomatch hf
  named := fun _ _ _ _ hentry => nomatch hentry
  orphan := fun _ _ hentry => nomatch hentry
  appeared := fun _ hx => nomatch hx
  foreign := fun _ hx => nomatch hx
  losses := fun _ hmem => nomatch hmem

variable {toLowercase : String → String}

theorem step_inv (s : State) (label : Label) (s' : State) (h : Inv entryOf s)
    (horderly : Orderly entryOf s label) (hstep : step entryOf toLowercase s label = some s') :
    Inv entryOf s' := by
  cases label with
  | appear name contents => exact h.appear hstep
  | start t actualName allowOverwrite bytes => exact h.start hstep
  | _ =>
      obtain ⟨f,hf,hstep⟩ := bind_eq_some_iff.mp hstep
      exact stepTask_inv h hf horderly hstep

/-- In every run in which overwriting deletes no file of a name that a task has, and placeholders
can be removed, no file is lost. -/
theorem finalization_safe {labels : List Label}
    (hm : Meets (step entryOf toLowercase) (Orderly entryOf) emptyState labels)
    (h : exec (step entryOf toLowercase) emptyState labels = some s) : Safe entryOf s :=
  (exec_invariant_of_meets step_inv inv_emptyState hm h).safe

def nothingSeen : Seen := ⟨false,false,false,[],""⟩

/-- A task takes another name, since its own appeared, and its first move fails; another task
overwrites the file of its name. -/
def orderlyLabels : List Label :=
  [.start 0 "a.bin" false [1], .start 1 "b.bin" true [2], .appear "a.bin" (some [7]),
    .appear "b.bin" (some [8]), .createNew 0 none, .createNew 1 none, .conflict 0 (some ["b.bin"]),
    .conflict 1 (some ["a.bin"]),
    .dedup 0 { nothingSeen with finalExists := true, listing := ["a.bin", "b.bin"] },
    .inspect 1 false, .createNew 0 none, .removeFile 1 false, .rename 0 (some "busy"),
    .createNew 1 none, .removePlaceholder 0 false, .rename 1 none]

theorem finalization_safe_sample :
    ∃ s ∈ exec (step id String.toLower) emptyState orderlyLabels,
      s.directory "a.bin.fdownloading" = some (.file (.temporary 0) [1]) ∧
        s.directory "b.bin" = some (.file (.product 1) [2]) ∧ Safe id s := by
  have hexec : (exec (step id String.toLower) emptyState orderlyLabels).any (fun s => decide
      (s.directory "a.bin.fdownloading" = some (.file (.temporary 0) [1]) ∧
        s.directory "b.bin" = some (.file (.product 1) [2]))) = true := by
    decide +kernel
  obtain ⟨s,hs,hfiles⟩ := (any_eq_true _ _).mp hexec
  obtain ⟨htemporary,hproduct⟩ := of_decide_eq_true hfiles
  exact ⟨s,hs,htemporary,hproduct,finalization_safe (by decide +kernel) hs⟩

/-- The first task takes another name since a directory has its own. The second, which overwrites
and has that other name, is started before the first completes. -/
def overwritingLabels : List Label :=
  [.start 0 "a.bin" true [1], .appear "a.bin" none, .createNew 0 none, .conflict 0 (some []),
    .inspect 0 false, .dedup 0 ⟨true,true,true,["a.bin", "a.bin.fdownloading"],""⟩,
    .start 1 "a (1).bin" true [2], .createNew 0 none, .rename 0 none, .createNew 1 none,
    .conflict 1 (some []), .inspect 1 false, .removeFile 1 false, .createNew 1 none,
    .rename 1 none]

/-- Both tasks report the name, and it has the content of the second. -/
theorem finalization_overwrites_product :
    (exec (step id String.toLower) emptyState overwritingLabels).any (fun s => decide
      ((s.tasks 0).map Finalizer.phase = some (.completed "a (1).bin") ∧
        (s.tasks 1).map Finalizer.phase = some (.completed "a (1).bin") ∧
        s.directory "a (1).bin" = some (.file (.product 1) [2]) ∧
        s.losses.map Loss.owner = [.product 0])) = true := by
  decide +kernel

end RinaDown.Finalization
