import Mathlib.Data.List.Infix
import RinaDown.FailingPrograms
import RinaDown.KeyedTable

/-!
# File systems

A program calls the operations of a file system, any of which may fail. A lawful file system
changes only what an operation is about, and its replies are true; the laws leave open what an
operation that fails has done there. An operation on a path below a directory may create the
directories above.
-/

namespace RinaDown.FileSystem

open FailingPrograms KeyedTable Programs List

abbrev Bytes := List UInt8

/-- The names on the way from the root. -/
abbrev Path := List String

inductive Node where
  | directory
  | file (bytes : Bytes)
deriving DecidableEq

abbrev Tree := Path → Option Node

inductive FsOp where
  | createDirAll (path : Path)
  | removeDirAll (path : Path)
  | write (path : Path) (bytes : Bytes)
  | copy (source target : Path)
  | read (path : Path)
  | readDir (path : Path)
  | pathExists (path : Path)
  | isFile (path : Path)
  | isDir (path : Path)
deriving DecidableEq

/-- An entry of a directory that could not be read has no name. -/
abbrev FsOp.Reply : FsOp → Type
  | .read _ => Except String Bytes
  | .readDir _ => Except String (List (Option String))
  | .pathExists _ => Bool
  | .isFile _ => Bool
  | .isDir _ => Bool
  | _ => Except String Unit

def FsOp.isQuery : FsOp → Bool
  | .createDirAll _ | .removeDirAll _ | .write _ _ | .copy _ _ => false
  | _ => true

/-! ## Programs of one operation -/

abbrev Disk := Program FsOp FsOp.Reply

def createDirAll (p : Path) : Disk (Except String Unit) := .perform (FsOp.createDirAll p)

def removeDirAll (p : Path) : Disk (Except String Unit) := .perform (FsOp.removeDirAll p)

def write (p : Path) (bytes : Bytes) : Disk (Except String Unit) := .perform (FsOp.write p bytes)

def copy (source target : Path) : Disk (Except String Unit) := .perform (FsOp.copy source target)

def read (p : Path) : Disk (Except String Bytes) := .perform (FsOp.read p)

def readDir (p : Path) : Disk (Except String (List (Option String))) := .perform (FsOp.readDir p)

def pathExists (p : Path) : Disk Bool := .perform (FsOp.pathExists p)

def isFile (p : Path) : Disk Bool := .perform (FsOp.isFile p)

def isDir (p : Path) : Disk Bool := .perform (FsOp.isDir p)

abbrev Queries {α : Type} (p : Disk α) : Prop := Calls (fun op => op.isQuery = true) p

theorem queries_read (p : Path) : Queries (read p) := Calls.perform rfl

theorem queries_readDir (p : Path) : Queries (readDir p) := Calls.perform rfl

theorem queries_isFile (p : Path) : Queries (isFile p) := Calls.perform rfl

theorem queries_isDir (p : Path) : Queries (isDir p) := Calls.perform rfl

variable {σ : Type*}

structure Lawful (host : Host FsOp FsOp.Reply σ) (view : σ → Tree) : Prop where
  query : ∀ op s, op.isQuery = true → view (host op s).2 = view s
  createDirAll : ∀ p s q, view (host (.createDirAll p) s).2 q = view s q ∨
    q <+: p ∧ view s q = none ∧ view (host (.createDirAll p) s).2 q = some .directory
  removeDirAll : ∀ p s q, ¬ p <+: q → view (host (.removeDirAll p) s).2 q = view s q
  write : ∀ p bytes s q, q ≠ p → view (host (.write p bytes) s).2 q = view s q
  written : ∀ p bytes s, (host (.write p bytes) s).1 = .ok () →
    view (host (.write p bytes) s).2 p = some (.file bytes)
  copy : ∀ source target s q, q ≠ target → view (host (.copy source target) s).2 q = view s q
  copied : ∀ source target s, (host (.copy source target) s).1 = .ok () →
    ∃ bytes, view s source = some (.file bytes) ∧
      view (host (.copy source target) s).2 target = some (.file bytes)
  read : ∀ p s bytes, (host (.read p) s).1 = .ok bytes → view s p = some (.file bytes)
  listed : ∀ p s entries, (host (.readDir p) s).1 = .ok entries → none ∉ entries →
    ∀ name, view s (p ++ [name]) ≠ none → some name ∈ entries
  isDir : ∀ p s, (host (.isDir p) s).1 = true → view s p = some .directory

/-! ## What a program changes -/

/-- Nothing changes but what is written, and directories that are created where nothing was. -/
def Keeps (written created : Path → Prop) (t t' : Tree) : Prop :=
  ∀ q, t' q = t q ∨ written q ∨ created q ∧ t q = none ∧ t' q = some .directory

variable {written created written' created' : Path → Prop} {t t' u : Tree}

theorem Keeps.refl (t : Tree) : Keeps written created t t := fun _ => .inl rfl

theorem Keeps.trans (h : Keeps written created t t') (h' : Keeps written created t' u) :
    Keeps written created t u := by
  intro q
  rcases h q with heq | hw | ⟨hc,hnone,hdir⟩
  · have h'q := h' q
    rw [heq] at h'q
    exact h'q
  · exact .inr (.inl hw)
  · rcases h' q with heq' | hw' | ⟨-,hnone',-⟩
    · exact .inr (.inr ⟨hc,hnone,heq'.trans hdir⟩)
    · exact .inr (.inl hw')
    · rw [hdir] at hnone'
      cases hnone'

/-- What an operation may change is within what is written and created. -/
def FsOp.Within (written created : Path → Prop) : FsOp → Prop
  | .createDirAll p => ∀ q, q <+: p → written q ∨ created q
  | .removeDirAll p => ∀ q, p <+: q → written q
  | .write p _ => written p
  | .copy _ target => written target
  | _ => True

/-- What an operation may change is below a directory; it may create the directories above. -/
abbrev FsOp.Below (dir : Path) (op : FsOp) : Prop :=
  op.Within (fun q => dir <+: q) fun q => q <+: dir

section
variable {host : Host FsOp FsOp.Reply σ} {view : σ → Tree}

theorem FsOp.Within.mono {op : FsOp} (h : op.Within written created)
    (hw : ∀ q, written q → written' q) (hc : ∀ q, created q → written' q ∨ created' q) :
    op.Within written' created' := by
  cases op with
  | createDirAll p =>
      intro q hq
      rcases h q hq with hwritten | hcreated
      · exact .inl (hw q hwritten)
      · exact hc q hcreated
  | removeDirAll p =>
      intro q hq
      exact hw q (h q hq)
  | write p bytes => exact hw p h
  | copy source target => exact hw target h
  | _ => trivial

theorem Queries.within {α : Type} {p : Disk α} (h : Queries p) :
    Calls (FsOp.Within written created) p := by
  refine h.mono fun op hop => ?_
  cases op with
  | createDirAll p => cases hop
  | removeDirAll p => cases hop
  | write p bytes => cases hop
  | copy source target => cases hop
  | _ => trivial

theorem Lawful.keeps (h : Lawful host view) {o : FsOp} (ho : o.Within written created)
    (s : σ) : Keeps written created (view s) (view (host o s).2) := by
  intro q
  cases o with
  | createDirAll p =>
      rcases h.createDirAll p s q with heq | ⟨hbegins,hnode⟩
      · exact .inl heq
      · rcases ho q hbegins with hw | hc
        · exact .inr (.inl hw)
        · exact .inr (.inr ⟨hc,hnode⟩)
  | removeDirAll p =>
      by_cases hq : p <+: q
      · exact .inr (.inl (ho q hq))
      · exact .inl (h.removeDirAll p s q hq)
  | write p bytes =>
      by_cases hq : q = p
      · rw [hq]
        exact .inr (.inl ho)
      · exact .inl (h.write p bytes s q hq)
  | copy source target =>
      by_cases hq : q = target
      · rw [hq]
        exact .inr (.inl ho)
      · exact .inl (h.copy source target s q hq)
  | _ => exact .inl (congrFun (h.query _ s rfl) q)

/-- A run changes only what its operations may change. -/
theorem Lawful.run_keeps (h : Lawful host view) {α : Type} {p : Program FsOp FsOp.Reply α}
    (hp : Calls (FsOp.Within written created) p) (s : σ) :
    Keeps written created (view s) (view (run host p s).state) :=
  run_related (R := fun s t => Keeps written created (view s) (view t)) (fun _ => Keeps.refl _)
    (fun _ _ _ h₁ h₂ => h₁.trans h₂) (fun _ s hop => h.keeps hop s) hp s

theorem Keeps.bindFailing {ε α β : Type} {x : Failing FsOp FsOp.Reply ε α}
    {f : α → Failing FsOp FsOp.Reply ε β} {s : σ}
    (hx : Keeps written created (view s) (view (run host x.run s).state))
    (hf : ∀ a, (run host x.run s).value = some (.ok a) →
      Keeps written created (view (run host x.run s).state)
        (view (run host (f a).run (run host x.run s).state).state)) :
    Keeps written created (view s) (view (run host (x >>= f).run s).state) := by
  rw [run_bindFailing, Outcome.andThen]
  cases hvalue : (run host x.run s).value with
  | none => exact hx
  | some r =>
      cases r with
      | error e => exact hx
      | ok a => exact hx.trans (hf a hvalue)

theorem Lawful.run_query (h : Lawful host view) {α : Type} {p : Program FsOp FsOp.Reply α}
    (hp : Queries p) (s : σ) : view (run host p s).state = view s :=
  run_related (R := fun s t => view t = view s) (fun _ => rfl) (fun _ _ _ h₁ h₂ => h₂.trans h₁)
    (fun op s hop => h.query op s hop) hp s

end

/-! ## A file system in memory -/

local instance : BEq Path := instBEqOfDecidableEq

/-- The nodes of a file system, and the operations that fail in it. -/
structure Memory where
  nodes : Table Path Node
  faults : List FsOp

def Memory.view (m : Memory) : Tree := fun q => m.nodes.lookup q

/-- The directories on the way to a path and its own. -/
def createDirs (m : Memory) (p : Path) : Memory :=
  { m with nodes := p.inits.foldl (fun nodes q => orInsert q .directory nodes) m.nodes }

def namesIn (p : Path) (nodes : Table Path Node) : List String :=
  nodes.filterMap fun e => if e.1.dropLast = p then e.1.getLast? else none

/-- A file is put into a directory, over a file. -/
def Memory.put (m : Memory) (p : Path) (bytes : Bytes) : Except String Unit × Memory :=
  if m.view p.dropLast = some .directory ∧ m.view p ≠ some .directory then
    (.ok (), { m with nodes := insert p (.file bytes) m.nodes })
  else (.error "No such file or directory", m)

def Memory.perform : (op : FsOp) → Memory → op.Reply × Memory
  | .createDirAll p, m =>
      if p.inits.all fun q => m.view q = none ∨ m.view q = some .directory then
        (.ok (), createDirs m p)
      else (.error "Not a directory", m)
  | .removeDirAll p, m =>
      (.ok (), { m with nodes := retain (fun q => !p.isPrefixOf q) m.nodes })
  | .write p bytes, m => m.put p bytes
  | .copy source target, m =>
      match m.view source with
      | some (.file bytes) => m.put target bytes
      | _ => (.error "No such file or directory", m)
  | .read p, m =>
      match m.view p with
      | some (.file bytes) => (.ok bytes, m)
      | _ => (.error "No such file or directory", m)
  | .readDir p, m => (.ok ((namesIn p m.nodes).map some), m)
  | .pathExists p, m => ((m.view p).isSome, m)
  | .isFile p, m => (match m.view p with | some (.file _) => true | _ => false, m)
  | .isDir p, m => (decide (m.view p = some .directory), m)

def failure : (op : FsOp) → op.Reply
  | .createDirAll _ | .removeDirAll _ | .write _ _ | .copy _ _ => .error "Input/output error"
  | .read _ => .error "Input/output error"
  | .readDir _ => .error "Input/output error"
  | .pathExists _ | .isFile _ | .isDir _ => false

def memoryHost : Host FsOp FsOp.Reply Memory := fun op m =>
  if op ∈ m.faults then (failure op, m) else m.perform op

theorem view_put (m : Memory) (p : Path) (bytes : Bytes) {q : Path} (hq : q ≠ p) :
    (m.put p bytes).2.view q = m.view q := by
  rw [Memory.put]
  split_ifs with hput
  · change (insert p _ m.nodes).lookup q = _
    rw [lookup_insert, if_neg hq]
    rfl
  · rfl

theorem put_ok {m : Memory} {p : Path} {bytes : Bytes} (h : (m.put p bytes).1 = .ok ()) :
    (m.put p bytes).2.view p = some (.file bytes) := by
  rw [Memory.put] at h ⊢
  split_ifs at h ⊢ with hput
  change (insert p _ m.nodes).lookup p = _
  rw [lookup_insert, if_pos rfl]

theorem lookup_foldl_orInsert (paths : List Path) (nodes : Table Path Node) (q : Path) :
    (paths.foldl (fun nodes q => orInsert q .directory nodes) nodes).lookup q =
      nodes.lookup q ∨
    q ∈ paths ∧ nodes.lookup q = none ∧
      (paths.foldl (fun nodes q => orInsert q .directory nodes) nodes).lookup q =
        some .directory := by
  induction paths generalizing nodes with
  | nil => exact .inl rfl
  | cons p paths ih =>
      rw [foldl_cons]
      have hfirst := lookup_orInsert p Node.directory nodes q
      rcases ih (orInsert p .directory nodes) with heq | ⟨hmem,hnone,hdir⟩
      · rw [heq, hfirst]
        by_cases hq : q = p
        · subst hq
          cases hnode : nodes.lookup q with
          | none => exact .inr ⟨mem_cons_self,rfl,if_pos rfl⟩
          | some node => exact .inl (if_pos rfl)
        · exact .inl (if_neg hq)
      · rw [hfirst] at hnone
        by_cases hq : q = p
        · rw [if_pos hq] at hnone
          cases hnone
        · rw [if_neg hq] at hnone
          exact .inr ⟨mem_cons_of_mem p hmem,hnone,hdir⟩

theorem mem_namesIn {p : Path} {name : String} {nodes : Table Path Node}
    (h : nodes.lookup (p ++ [name]) ≠ none) : name ∈ namesIn p nodes := by
  obtain ⟨node,hnode⟩ := Option.ne_none_iff_exists'.mp h
  refine mem_filterMap.mpr ⟨(p ++ [name], node),mem_of_lookup hnode,?_⟩
  rw [if_pos dropLast_concat]
  exact getLast?_concat

section
variable {op : FsOp} {m : Memory}

theorem memoryHost_of_mem (h : op ∈ m.faults) : memoryHost op m = (failure op, m) := if_pos h

theorem memoryHost_of_not_mem (h : op ∉ m.faults) : memoryHost op m = m.perform op := if_neg h

end

theorem perform_query {op : FsOp} (hop : op.isQuery = true) (m : Memory) :
    (m.perform op).2 = m := by
  cases op with
  | read p =>
      simp only [Memory.perform]
      split <;> rfl
  | readDir p => rfl
  | pathExists p => rfl
  | isFile p => rfl
  | isDir p => rfl
  | _ => cases hop

theorem view_perform_createDirAll (p : Path) (m : Memory) (q : Path) :
    (m.perform (.createDirAll p)).2.view q = m.view q ∨
    q <+: p ∧ m.view q = none ∧ (m.perform (.createDirAll p)).2.view q = some .directory := by
  simp only [Memory.perform]
  split_ifs with hall
  · rcases lookup_foldl_orInsert p.inits m.nodes q with heq | ⟨hmem,hnode⟩
    · exact .inl heq
    · exact .inr ⟨(mem_inits q p).mp hmem,hnode⟩
  · exact .inl rfl

theorem view_perform_copy (source target : Path) (m : Memory) {q : Path} (hq : q ≠ target) :
    (m.perform (.copy source target)).2.view q = m.view q := by
  simp only [Memory.perform]
  split
  · exact view_put m target _ hq
  · rfl

theorem perform_copy_ok {source target : Path} {m : Memory}
    (h : (m.perform (.copy source target)).1 = .ok ()) :
    ∃ bytes, m.view source = some (.file bytes) ∧
      (m.perform (.copy source target)).2.view target = some (.file bytes) := by
  simp only [Memory.perform] at h ⊢
  split at h
  · rename_i bytes hsource
    simp only [hsource]
    exact ⟨bytes,rfl,put_ok h⟩
  · cases h

theorem perform_read_ok {p : Path} {m : Memory} {bytes : Bytes}
    (h : (m.perform (.read p)).1 = .ok bytes) : m.view p = some (.file bytes) := by
  simp only [Memory.perform] at h
  split at h
  · rename_i bytes' hnode
    cases h
    exact hnode
  · cases h

/-- A file system in memory is lawful, whatever fails in it. -/
theorem lawful_memoryHost : Lawful memoryHost Memory.view where
  query op m hop := by
    by_cases hfault : op ∈ m.faults
    · rw [memoryHost_of_mem hfault]
    · rw [memoryHost_of_not_mem hfault, perform_query hop]
  createDirAll p m q := by
    by_cases hfault : .createDirAll p ∈ m.faults
    · rw [memoryHost_of_mem hfault]
      exact .inl rfl
    · rw [memoryHost_of_not_mem hfault]
      exact view_perform_createDirAll p m q
  removeDirAll p m q hq := by
    by_cases hfault : .removeDirAll p ∈ m.faults
    · rw [memoryHost_of_mem hfault]
    · rw [memoryHost_of_not_mem hfault]
      have hretained : (!p.isPrefixOf q) = true := by
        rw [Bool.not_eq_true', ← Bool.not_eq_true, isPrefixOf_iff_prefix]
        exact hq
      exact (lookup_retain (fun q => !p.isPrefixOf q) m.nodes q).trans (if_pos hretained)
  write p bytes m q hq := by
    by_cases hfault : .write p bytes ∈ m.faults
    · rw [memoryHost_of_mem hfault]
    · rw [memoryHost_of_not_mem hfault]
      exact view_put m p bytes hq
  written p bytes m h := by
    by_cases hfault : .write p bytes ∈ m.faults
    · rw [memoryHost_of_mem hfault] at h
      cases h
    · rw [memoryHost_of_not_mem hfault] at h ⊢
      exact put_ok h
  copy source target m q hq := by
    by_cases hfault : .copy source target ∈ m.faults
    · rw [memoryHost_of_mem hfault]
    · rw [memoryHost_of_not_mem hfault]
      exact view_perform_copy source target m hq
  copied source target m h := by
    by_cases hfault : .copy source target ∈ m.faults
    · rw [memoryHost_of_mem hfault] at h
      cases h
    · rw [memoryHost_of_not_mem hfault] at h ⊢
      exact perform_copy_ok h
  read p m bytes h := by
    by_cases hfault : .read p ∈ m.faults
    · rw [memoryHost_of_mem hfault] at h
      cases h
    · rw [memoryHost_of_not_mem hfault] at h
      exact perform_read_ok h
  listed p m entries h _ name hname := by
    by_cases hfault : .readDir p ∈ m.faults
    · rw [memoryHost_of_mem hfault] at h
      cases h
    · rw [memoryHost_of_not_mem hfault] at h
      cases h
      exact mem_map_of_mem (mem_namesIn hname)
  isDir p m h := by
    by_cases hfault : .isDir p ∈ m.faults
    · rw [memoryHost_of_mem hfault] at h
      cases h
    · rw [memoryHost_of_not_mem hfault] at h
      exact of_decide_eq_true h

end RinaDown.FileSystem
