import Mathlib.Data.List.Sort
import RinaDown.LabelledExecutions
import RinaDown.Lists
import RinaDown.RoutePriors

/-!
# Writes of the route priors

Each operation changes the table in memory, takes a snapshot of it and spawns a write of the
snapshot with the next sequence number. A write that finds a later number gives up. With a fixed
network the last snapshot is what stays in the database, as long as the numbers are taken in the
order of the snapshots and no write is stored after a later one.
-/

namespace RinaDown.RoutePersistence

open LabelledExecutions RinaDown.Lists RoutePriors List Option

def routeFormatVersion : ℕ := 1

/-- What is stored, as the value that its text encodes. -/
structure RouteFile (Bps : Type) where
  v : ℕ
  net : String
  hosts : RouteTable Bps
deriving DecidableEq

/-- A call has changed the table, holds a snapshot of it, or has returned. The snapshots are
counted. -/
inductive Call (Bps : Type) where
  | updated
  | snapshot (file : RouteFile Bps) (taken : ℕ)
  | returned
deriving DecidableEq

inductive WritePhase where
  | spawned
  | writing
  | stored
  | discarded
deriving DecidableEq

structure Write (Bps : Type) where
  seq : UInt64
  file : RouteFile Bps
  taken : ℕ
  phase : WritePhase
deriving DecidableEq

/-- The calls and the writes are in the order in which they came, and `taken` is the number of
snapshots. -/
structure State (Bps : Type) where
  net : String
  routes : RouteTable Bps
  calls : List (Call Bps)
  taken : ℕ
  persistSeq : UInt64
  writes : List (Write Bps)
  stored : Option (RouteFile Bps)

variable {Bps : Type}

def startState (net : String) (routes : RouteTable Bps) (persistSeq : UInt64)
    (stored : Option (RouteFile Bps)) : State Bps :=
  ⟨net,routes,[],0,persistSeq,[],stored⟩

inductive Label (Bps : Type) where
  | call (operation : Operation Bps) (now : ℕ)
  | snapshot (call : ℕ) (now : ℕ) (visited : RouteTable Bps)
  | number (call : ℕ)
  | check (write : ℕ)
  | store (write : ℕ)

/-- The table is cleared and needs no snapshot. -/
def clearAll (s : State Bps) : State Bps :=
  { s with
    routes := []
    calls := s.calls ++ [.snapshot ⟨routeFormatVersion,s.net,[]⟩ (s.taken + 1)]
    taken := s.taken + 1 }

section
variable [Zero Bps]

def call (s : State Bps) (operation : Operation Bps) (now : ℕ) : State Bps :=
  match operation with
  | .clearAll => clearAll s
  | operation =>
      { s with routes := operation.update now s.routes, calls := s.calls ++ [.updated] }

/-- Nothing is written before the network is known. -/
def persist (s : State Bps) (c : ℕ) (now : ℕ) (visited : RouteTable Bps) : State Bps :=
  if s.net = "" then { s with calls := s.calls.set c .returned }
  else
    { s with
      routes := prune now visited
      calls := s.calls.set c
        (.snapshot ⟨routeFormatVersion,s.net,prune now visited⟩ (s.taken + 1))
      taken := s.taken + 1 }

end

def spawnWrite (s : State Bps) (c : ℕ) (file : RouteFile Bps) (taken : ℕ) : State Bps :=
  { s with
    calls := s.calls.set c .returned
    persistSeq := s.persistSeq + 1
    writes := s.writes ++ [⟨s.persistSeq + 1,file,taken,.spawned⟩] }

def setPhase (s : State Bps) (i : ℕ) (phase : WritePhase) : State Bps :=
  { s with writes := s.writes.modify i fun w => { w with phase } }

def step [Zero Bps] [DecidableEq Bps] (s : State Bps) : Label Bps → Option (State Bps)
  | .call operation now => some (call s operation now)
  | .snapshot c now visited =>
      -- The entries of the table are visited in any order.
      if s.calls[c]? = some .updated ∧ visited.isPerm s.routes then
        some (persist s c now visited)
      else none
  | .number c =>
      match s.calls[c]? with
      | some (.snapshot file taken) => some (spawnWrite s c file taken)
      | _ => none
  | .check i =>
      match s.writes[i]? with
      | some w =>
          if w.phase = .spawned then
            some (setPhase s i (if s.persistSeq ≠ w.seq then .discarded else .writing))
          else none
      | none => none
  | .store i =>
      match s.writes[i]? with
      | some w =>
          if w.phase = .writing then some { setPhase s i .stored with stored := some w.file }
          else none
      | none => none

/-! ## What holds -/

def Settled (s : State Bps) : Prop :=
  (∀ c ∈ s.calls, c = .returned) ∧ ∀ w ∈ s.writes, w.phase = .stored ∨ w.phase = .discarded

def State.file (s : State Bps) : RouteFile Bps := ⟨routeFormatVersion,s.net,s.routes⟩

/-- After the last write the table in memory is what is stored. -/
def Persisted (s : State Bps) : Prop := Settled s → s.calls ≠ [] → s.stored = some s.file

/-- A snapshot gets its number after those of all earlier snapshots that have one, and a write is
stored before all later ones. -/
def Ordered (s : State Bps) : Label Bps → Prop
  | .number c =>
      match s.calls[c]? with
      | some (.snapshot _ taken) => ∀ w ∈ s.writes, w.taken < taken
      | _ => True
  | .store i => ∀ w ∈ s.writes.drop (i + 1), w.phase ≠ .stored
  | _ => True

/-! ## Lists -/

theorem mem_drop_of_getLast? {α : Type*} {l : List α} {i : ℕ} {a b : α} (h : l[i]? = some a)
    (hlast : l.getLast? = some b) (hi : i ≠ l.length - 1) : b ∈ l.drop (i + 1) := by
  rw [getLast?_eq_getElem?] at hlast
  have hlt := (List.getElem?_eq_some_iff.mp h).1
  apply mem_of_getElem? (i := l.length - 1 - (i + 1))
  rw [getElem?_drop, ← hlast]
  congr 1
  omega

/-! ## The invariant -/

/-- The last write is the one whose number is current, and the newest snapshot is held by a call
or by the last write, unless a call has yet to take one. -/
structure Inv (s : State Bps) : Prop where
  net : s.net ≠ ""
  taken : ∀ file taken, Call.snapshot file taken ∈ s.calls → taken ≤ s.taken
  last : ∀ w, s.writes.getLast? = some w → w.seq = s.persistSeq ∧ w.phase ≠ .discarded ∧
    (w.phase = .stored → s.stored = some w.file)
  newest : s.calls ≠ [] → .updated ∈ s.calls ∨ .snapshot s.file s.taken ∈ s.calls ∨
    ∃ w, s.writes.getLast? = some w ∧ w.taken = s.taken ∧ w.file = s.file

theorem inv_startState {net : String} (hnet : net ≠ "") (routes : RouteTable Bps)
    (persistSeq : UInt64) (stored : Option (RouteFile Bps)) :
    Inv (startState net routes persistSeq stored) where
  net := hnet
  taken _ _ h := nomatch h
  last _ h := nomatch h
  newest h := absurd rfl h

variable {s : State Bps}

theorem Inv.persisted (h : Inv s) : Persisted s := by
  rintro ⟨hcalls,hwrites⟩ hne
  obtain hupdated | hsnapshot | ⟨w,hlast,-,hfile⟩ := h.newest hne
  · cases hcalls _ hupdated
  · cases hcalls _ hsnapshot
  · obtain ⟨-,hkept,hstored⟩ := h.last w hlast
    rw [← hfile]
    exact hstored ((hwrites w (mem_of_getLast? hlast)).resolve_right hkept)

theorem Inv.clearAll (h : Inv s) : Inv (clearAll s) where
  net := h.net
  taken file taken hmem := by
    rcases mem_append.mp hmem with hmem | hmem
    · exact Nat.le_succ_of_le (h.taken file taken hmem)
    · cases mem_singleton.mp hmem
      exact le_rfl
  last := h.last
  newest _ := .inr (.inl (mem_append_right _ (mem_singleton_self _)))

theorem Inv.update (h : Inv s) (routes : RouteTable Bps) :
    Inv { s with routes, calls := s.calls ++ [.updated] } where
  net := h.net
  taken file taken hmem := by
    rcases mem_append.mp hmem with hmem | hmem
    · exact h.taken file taken hmem
    · cases mem_singleton.mp hmem
  last := h.last
  newest _ := .inl (mem_append_right _ (mem_singleton_self _))

section
variable [Zero Bps]

theorem Inv.call {s : State Bps} (h : Inv s) (operation : Operation Bps) (now : ℕ) :
    Inv (call s operation now) := by
  cases operation with
  | clearAll => exact h.clearAll
  | _ => exact h.update _

theorem Inv.persist {s : State Bps} (h : Inv s) {c : ℕ} (hcall : s.calls[c]? = some .updated)
    (now : ℕ) (visited : RouteTable Bps) : Inv (persist s c now visited) := by
  rw [RoutePersistence.persist, if_neg h.net]
  refine ⟨h.net,?_,h.last,fun _ => .inr (.inl ?_)⟩
  · intro file taken hmem
    rcases mem_or_eq_of_mem_set hmem with hmem | hnew
    · exact Nat.le_succ_of_le (h.taken file taken hmem)
    · cases hnew
      exact le_rfl
  · exact List.mem_set (List.getElem?_eq_some_iff.mp hcall).1 _

end

theorem Inv.spawnWrite (h : Inv s) {c : ℕ} {file : RouteFile Bps} {taken : ℕ}
    (hcall : s.calls[c]? = some (.snapshot file taken)) (hordered : ∀ w ∈ s.writes, w.taken < taken)
    : Inv (spawnWrite s c file taken) where
  net := h.net
  taken file' taken' hmem := by
    rcases mem_or_eq_of_mem_set hmem with hmem | hnew
    · exact h.taken file' taken' hmem
    · cases hnew
  last w hlast := by
    rw [RoutePersistence.spawnWrite, getLast?_concat] at hlast
    cases hlast
    exact ⟨rfl,nofun,nofun⟩
  newest _ := by
    have hmem := mem_of_getElem? hcall
    have htaken := h.taken file taken hmem
    obtain hupdated | hsnapshot | ⟨w,hlast,hnewest,-⟩ := h.newest (ne_nil_of_mem hmem)
    · exact .inl (mem_set_of_ne hcall hupdated nofun)
    · by_cases hsame : Call.snapshot s.file s.taken = .snapshot file taken
      · cases hsame
        exact .inr (.inr ⟨_,getLast?_concat,rfl,rfl⟩)
      · exact .inr (.inl (mem_set_of_ne hcall hsnapshot hsame))
    · have hbefore := hordered w (mem_of_getLast? hlast)
      omega

theorem Inv.newest_setPhase (h : Inv s) (i : ℕ) (phase : WritePhase) (hne : s.calls ≠ []) :
    .updated ∈ s.calls ∨ .snapshot s.file s.taken ∈ s.calls ∨
      ∃ w, (setPhase s i phase).writes.getLast? = some w ∧ w.taken = s.taken ∧ w.file = s.file := by
  obtain hupdated | hsnapshot | ⟨w,hlast,htaken,hfile⟩ := h.newest hne
  · exact .inl hupdated
  · exact .inr (.inl hsnapshot)
  · refine .inr (.inr ⟨_,(getLast?_modify _ _ _).trans (congrArg _ hlast),?_,?_⟩)
    · split_ifs <;> exact htaken
    · split_ifs <;> exact hfile

theorem Inv.check (h : Inv s) {i : ℕ} {w : Write Bps} (hwrite : s.writes[i]? = some w) :
    Inv (setPhase s i (if s.persistSeq ≠ w.seq then .discarded else .writing)) where
  net := h.net
  taken := h.taken
  last v hlast := by
    rw [setPhase, getLast?_modify] at hlast
    obtain ⟨u,hu,rfl⟩ := map_eq_some_iff.mp hlast
    obtain ⟨hseq,hkept,hstored⟩ := h.last u hu
    by_cases hi : i = s.writes.length - 1
    · rw [getLast?_eq_getElem?, ← hi, hwrite] at hu
      obtain rfl := some.inj hu
      rw [if_pos hi, if_neg (not_not_intro hseq.symm)]
      exact ⟨hseq,nofun,nofun⟩
    · rw [if_neg hi]
      exact ⟨hseq,hkept,hstored⟩
  newest := h.newest_setPhase i _

theorem Inv.store (h : Inv s) {i : ℕ} {w : Write Bps} (hwrite : s.writes[i]? = some w)
    (hordered : ∀ v ∈ s.writes.drop (i + 1), v.phase ≠ .stored) :
    Inv { setPhase s i .stored with stored := some w.file } where
  net := h.net
  taken := h.taken
  last v hlast := by
    change (s.writes.modify i _).getLast? = some v at hlast
    rw [getLast?_modify] at hlast
    obtain ⟨u,hu,rfl⟩ := map_eq_some_iff.mp hlast
    obtain ⟨hseq,hkept,-⟩ := h.last u hu
    by_cases hi : i = s.writes.length - 1
    · rw [getLast?_eq_getElem?, ← hi, hwrite] at hu
      obtain rfl := some.inj hu
      rw [if_pos hi]
      exact ⟨hseq,nofun,fun _ => rfl⟩
    · rw [if_neg hi]
      have hbehind := hordered u (mem_drop_of_getLast? hwrite hu hi)
      exact ⟨hseq,hkept,fun hstored => absurd hstored hbehind⟩
  newest := h.newest_setPhase i _

section
variable [Zero Bps] [DecidableEq Bps]

theorem step_inv (s : State Bps) (label : Label Bps) (t : State Bps) (h : Inv s)
    (hordered : Ordered s label) (hstep : step s label = some t) : Inv t := by
  cases label with
  | call operation now =>
      cases hstep
      exact h.call operation now
  | snapshot c now visited =>
      obtain ⟨⟨hcall,-⟩,hstep⟩ := ite_none_right_eq_some.mp hstep
      cases hstep
      exact h.persist hcall now visited
  | number c =>
      simp only [step] at hstep
      split at hstep
      next file taken hcall =>
        cases hstep
        rw [Ordered, hcall] at hordered
        exact h.spawnWrite hcall hordered
      next => cases hstep
  | check i =>
      simp only [step] at hstep
      split at hstep
      next w hwrite =>
        obtain ⟨-,hstep⟩ := ite_none_right_eq_some.mp hstep
        cases hstep
        exact h.check hwrite
      next => cases hstep
  | store i =>
      simp only [step] at hstep
      split at hstep
      next w hwrite =>
        obtain ⟨-,hstep⟩ := ite_none_right_eq_some.mp hstep
        cases hstep
        exact h.store hwrite hordered
      next => cases hstep

/-- What is stored converges to the table in every ordered execution. -/
theorem priors_persisted {net : String} (hnet : net ≠ "") {routes : RouteTable Bps}
    {persistSeq : UInt64} {stored : Option (RouteFile Bps)} {labels : List (Label Bps)}
    {s : State Bps} (hm : Meets step Ordered (startState net routes persistSeq stored) labels)
    (h : exec step (startState net routes persistSeq stored) labels = some s) : Persisted s :=
  (exec_invariant_of_meets step_inv (inv_startState hnet routes persistSeq stored) hm h).persisted

end

instance (s : State Bps) (label : Label Bps) : Decidable (Ordered s label) :=
  match label with
  | .number c =>
      match h : s.calls[c]? with
      | some (.snapshot _ taken) =>
          decidable_of_iff (∀ w ∈ s.writes, w.taken < taken) (by simp [Ordered, h])
      | some .updated | some .returned | none => isTrue (by simp [Ordered, h])
  | .store i => inferInstanceAs (Decidable (∀ w ∈ s.writes.drop (i + 1), w.phase ≠ .stored))
  | .call .. | .snapshot .. | .check _ => isTrue trivial

instance [DecidableEq Bps] (s : State Bps) : Decidable (Settled s) :=
  inferInstanceAs (Decidable ((∀ c ∈ s.calls, c = .returned) ∧
    ∀ w ∈ s.writes, w.phase = .stored ∨ w.phase = .discarded))

/-- A file with a host is not what an empty table is stored as. -/
theorem stale_not_persisted {net : String} {e : String × HostRoute Bps}
    (h : s.routes = [] ∧ Settled s ∧ s.calls ≠ [] ∧ s.stored = some ⟨routeFormatVersion,net,[e]⟩) :
    s.routes = [] ∧ s.stored = some ⟨routeFormatVersion,net,[e]⟩ ∧ ¬ Persisted s := by
  obtain ⟨hroutes,hsettled,hne,hstored⟩ := h
  refine ⟨hroutes,hstored,fun hpersisted => ?_⟩
  have hfile := hstored.symm.trans (hpersisted hsettled hne)
  rw [State.file, hroutes] at hfile
  cases hfile

def wonRoute : HostRoute ℕ := ⟨9,1000,1,9,0,0,0,9⟩

/-- The prior of a host is recorded and cleared, and the first write gives up. -/
def clearedLabels : List (Label ℕ) :=
  [.call (.recordProxyWin "a.example" 1000) 9, .snapshot 0 9 [("a.example", wonRoute)], .number 0,
    .call (.clearProxyPrior "a.example") 9, .snapshot 1 9 [("a.example", wonRoute.clearProxy)],
    .number 1, .check 0, .check 1, .store 1]

theorem priors_persisted_sample :
    ∃ s ∈ exec step (startState "0a1b" [] 0 none) clearedLabels,
      s.stored = some ⟨routeFormatVersion,"0a1b",[]⟩ ∧ Persisted s := by
  have hexec : (exec step (startState "0a1b" [] 0 none) clearedLabels).any (fun s =>
      decide (s.stored = some ⟨routeFormatVersion,"0a1b",[]⟩)) = true := by
    decide +kernel
  obtain ⟨s,hs,hstored⟩ := (any_eq_true _ _).mp hexec
  exact ⟨s,hs,of_decide_eq_true hstored,priors_persisted (by decide) (by decide +kernel) hs⟩

/-- The snapshot that was taken first gets its number last. -/
def overtakenNumberLabels : List (Label ℕ) :=
  [.call (.recordProxyWin "a.example" 1000) 9, .snapshot 0 9 [("a.example", wonRoute)],
    .call (.clearProxyPrior "a.example") 9, .snapshot 1 9 [("a.example", wonRoute.clearProxy)],
    .number 1, .number 0, .check 0, .check 1, .store 1]

/-- A write that has looked at its number is stored after the write of the cleared table. -/
def overtakenStoreLabels : List (Label ℕ) :=
  [.call (.recordProxyWin "a.example" 1000) 9, .snapshot 0 9 [("a.example", wonRoute)], .number 0,
    .check 0, .call .clearAll 9, .number 1, .check 1, .store 1, .store 0]

/-- All writes are over, the table in memory is empty, and the cleared prior is stored. -/
theorem priors_not_persisted :
    (∃ s ∈ exec step (startState "0a1b" [] 0 none) overtakenNumberLabels, s.routes = [] ∧
        s.stored = some ⟨routeFormatVersion,"0a1b",[("a.example", wonRoute)]⟩ ∧ ¬ Persisted s) ∧
      ∃ s ∈ exec step (startState "0a1b" [] 0 none) overtakenStoreLabels, s.routes = [] ∧
        s.stored = some ⟨routeFormatVersion,"0a1b",[("a.example", wonRoute)]⟩ ∧
          ¬ Persisted s := by
  have hnumber : (exec step (startState "0a1b" [] 0 none) overtakenNumberLabels).any (fun s =>
      decide (s.routes = [] ∧ Settled s ∧ s.calls ≠ [] ∧
        s.stored = some ⟨routeFormatVersion,"0a1b",[("a.example", wonRoute)]⟩)) = true := by
    decide +kernel
  have hstore : (exec step (startState "0a1b" [] 0 none) overtakenStoreLabels).any (fun s =>
      decide (s.routes = [] ∧ Settled s ∧ s.calls ≠ [] ∧
        s.stored = some ⟨routeFormatVersion,"0a1b",[("a.example", wonRoute)]⟩)) = true := by
    decide +kernel
  obtain ⟨s,hs,hkept⟩ := (any_eq_true _ _).mp hnumber
  obtain ⟨t,ht,hkept'⟩ := (any_eq_true _ _).mp hstore
  exact ⟨⟨s,hs,stale_not_persisted (of_decide_eq_true hkept)⟩,
    t,ht,stale_not_persisted (of_decide_eq_true hkept')⟩

end RinaDown.RoutePersistence
