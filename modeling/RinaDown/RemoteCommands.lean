import RinaDown.LabelledExecutions
import RinaDown.RemoteDispatch

/-!
# Commands to remote tasks

A command comes as an event of the cloud or as a request to the agent, possibly more than once.
The service keeps the ids of the commands that went well. An id is looked up when a delivery
begins and inserted after its call, and other deliveries may be in between. A command without an
id gets one from its task and its action.
-/

namespace RinaDown.RemoteCommands

open KeyedTable LabelledExecutions RemoteDispatch List Option

/-! ## The service -/

/-- The number of the user's act is in no message: two acts may send the same text. -/
structure Command where
  act : ℕ
  commandId : Option String
  taskId : String
  action : String
deriving DecidableEq

def Command.key (c : Command) : String := c.commandId.getD (c.taskId ++ ":" ++ c.action)

inductive Source where
  | events
  | rpc
deriving DecidableEq

inductive Call where
  | daemon (method taskId : String)
  | cloud (taskId action : String)
deriving DecidableEq

def daemonMethod (action : String) : Except String String :=
  if action = "pause" then .ok "daemon.task.pause"
  else if action = "resume" then .ok "daemon.task.resume"
  else if action = "delete" ∨ action = "cancel" then .ok "daemon.task.delete"
  else .error ("invalid remote action: " ++ action)

/-- The call for a command, by the bindings of that time. -/
def route (device : String) (bindings : Bindings) (task : RemoteTask) (action : String) :
    Except String Call :=
  if task.toDevice = device then
    match daemonMethod action with
    | .ok method => .ok (.daemon method ((bindings.lookup task.id).getD task.id))
    | .error error => .error error
  else .ok (.cloud task.id action)

/-- A delivery has passed the look-up of its id, has its call under way, or has had it go well. -/
inductive Stage where
  | checked
  | calling (call : Call)
  | confirming
deriving DecidableEq

structure Flight where
  source : Source
  command : Command
  task : RemoteTask
  stage : Stage
deriving DecidableEq

/-- A call that was answered, and whether it went well. -/
structure Execution where
  command : Command
  call : Call
  ok : Bool
deriving DecidableEq

/-- `dropped` are the commands whose deliveries ended at the look-up of the id. -/
structure State where
  device : String
  projection : List RemoteTask
  bindings : Bindings
  confirmed : List String
  flights : Table ℕ Flight
  log : List Execution
  dropped : List Command

def start (device : String) : State := ⟨device,[],[],[],[],[],[]⟩

inductive Label where
  | project (tasks : List RemoteTask)
  | rebind (bindings : Bindings)
  | event (k : ℕ) (target : String) (c : Command)
  | request (k : ℕ) (c : Command)
  | resolve (k : ℕ)
  | answer (k : ℕ) (ok : Bool)
  | confirm (k : ℕ)
deriving DecidableEq

def setFlight (s : State) (k : ℕ) (flight : Flight) : State :=
  { s with flights := insert k flight s.flights }

def endFlight (s : State) (k : ℕ) : State := { s with flights := remove k s.flights }

/-- The first statement of `command`. -/
def begin (s : State) (k : ℕ) (source : Source) (c : Command) (task : RemoteTask) : State :=
  if c.key ∈ s.confirmed then { s with dropped := c :: s.dropped }
  else setFlight s k ⟨source,c,task,.checked⟩

def findTask (s : State) (id : String) : Option RemoteTask :=
  s.projection.find? fun task => task.id = id

/-- The loop of events handles one event at a time; requests come at any time. -/
def step (s : State) : Label → Option State
  | .project tasks => some { s with projection := tasks }
  | .rebind bindings => some { s with bindings := bindings }
  | .event k target c =>
      if (s.flights.lookup k).isSome ∨ ∃ e ∈ s.flights, e.2.source = .events then none
      else if target ≠ s.device then some s
      else
        match findTask s c.taskId with
        | none => some s
        | some task => some (begin s k .events c task)
  | .request k c =>
      if (s.flights.lookup k).isSome then none
      else
        match findTask s c.taskId with
        | none => some s
        | some task => some (begin s k .rpc c task)
  | .resolve k =>
      match s.flights.lookup k with
      | some ⟨source,c,task,.checked⟩ =>
          match route s.device s.bindings task c.action with
          | .ok call => some (setFlight s k ⟨source,c,task,.calling call⟩)
          | .error _ => some (endFlight s k)
      | _ => none
  | .answer k ok =>
      match s.flights.lookup k with
      | some ⟨source,c,task,.calling call⟩ =>
          let t := { s with log := s.log ++ [⟨c,call,ok⟩] }
          if ok then some (setFlight t k ⟨source,c,task,.confirming⟩) else some (endFlight t k)
      | _ => none
  | .confirm k =>
      match s.flights.lookup k with
      | some ⟨_,c,_,.confirming⟩ =>
          some { endFlight s k with confirmed := c.key :: s.confirmed }
      | _ => none

/-! ## What is asked of the runs -/

def Succeeded (s : State) (c : Command) : Prop := ∃ x ∈ s.log, x.command = c ∧ x.ok = true

instance (s : State) (c : Command) : Decidable (Succeeded s c) :=
  inferInstanceAs (Decidable (∃ x ∈ s.log, x.command = c ∧ x.ok = true))

structure Applied (s : State) : Prop where
  once : ∀ c, Succeeded s c → s.log.countP (fun x => x.command = c ∧ x.ok = true) = 1
  settled : ∀ front x back, s.log = front ++ x :: back → x.ok = true →
    ∀ y ∈ back, y.command ≠ x.command
  never_swallowed : ∀ c ∈ s.dropped, Succeeded s c

/-- The command that a label delivers to a task of the projection. -/
def delivered (s : State) : Label → Option (ℕ × Command × RemoteTask)
  | .event k target c =>
      if target ≠ s.device then none else (findTask s c.taskId).map fun task => (k, c, task)
  | .request k c => (findTask s c.taskId).map fun task => (k, c, task)
  | _ => none

/-- The service can go on with a delivery to make the call, which is logged as it is answered. -/
def Executes (s : State) (k : ℕ) (c : Command) (call : Call) : Prop :=
  ∀ ok, (exec step s [.resolve k, .answer k ok]).map State.log = some (s.log ++ [⟨c,call,ok⟩])

/-- No delivery of the command is in flight, and its id was confirmed, if at all, for itself. -/
structure Unmixed (s : State) (c : Command) : Prop where
  alone : ∀ e ∈ s.flights, e.2.command ≠ c
  own : c.key ∈ s.confirmed → Succeeded s c

def Careful (s : State) (label : Label) : Prop := ∀ d ∈ delivered s label, Unmixed s d.2.1

/-! ## The invariant -/

variable {s t : State} {k : ℕ} {c : Command} {flight : Flight}

/-- No two flights have one command. -/
def Single (s : State) : Prop :=
  ∀ k f k' f', s.flights.lookup k = some f → s.flights.lookup k' = some f' →
    f.command = f'.command → k = k'

structure Inv (s : State) : Prop where
  single : Single s
  confirming : ∀ k f, s.flights.lookup k = some f → (Succeeded s f.command ↔ f.stage = .confirming)
  kept : ∀ c, Succeeded s c → c.key ∈ s.confirmed ∨
    ∃ k f, s.flights.lookup k = some f ∧ f.command = c
  settled : ∀ front x back, s.log = front ++ x :: back → x.ok = true →
    ∀ y ∈ back, y.command ≠ x.command
  never_swallowed : ∀ c ∈ s.dropped, Succeeded s c

theorem inv_start (device : String) : Inv (start device) where
  single := by simp [Single, start]
  confirming := by simp [start]
  kept := by simp [start, Succeeded]
  settled := by simp [start]
  never_swallowed := by simp [start]

theorem lookup_setFlight (s : State) (k : ℕ) (flight : Flight) (k' : ℕ) :
    (setFlight s k flight).flights.lookup k' =
      if k' = k then some flight else s.flights.lookup k' :=
  lookup_insert k flight s.flights k'

theorem lookup_endFlight (s : State) (k k' : ℕ) :
    (endFlight s k).flights.lookup k' = if k' = k then none else s.flights.lookup k' := by
  rw [endFlight, KeyedTable.remove, lookup_retain]
  by_cases hk : k' = k
  · simp [hk]
  · simp [hk]

theorem Inv.drop (h : Inv s) (hc : Succeeded s c) : Inv { s with dropped := c :: s.dropped } where
  single := h.single
  confirming := h.confirming
  kept := h.kept
  settled := h.settled
  never_swallowed := by
    intro d hd
    rcases mem_cons.1 hd with rfl | hd
    · exact hc
    · exact h.never_swallowed d hd

theorem Single.setFlight (h : Single s)
    (halone : ∀ k' f, k' ≠ k → s.flights.lookup k' = some f → f.command ≠ flight.command) :
    Single (setFlight s k flight) := by
  intro k₁ f₁ k₂ f₂ h₁ h₂ heq
  rw [lookup_setFlight] at h₁ h₂
  by_cases hk₁ : k₁ = k
  · by_cases hk₂ : k₂ = k
    · rw [hk₁, hk₂]
    · rw [if_pos hk₁] at h₁
      rw [if_neg hk₂] at h₂
      cases h₁
      exact absurd heq.symm (halone k₂ f₂ hk₂ h₂)
  · by_cases hk₂ : k₂ = k
    · rw [if_neg hk₁] at h₁
      rw [if_pos hk₂] at h₂
      cases h₂
      exact absurd heq (halone k₁ f₁ hk₁ h₁)
    · rw [if_neg hk₁] at h₁
      rw [if_neg hk₂] at h₂
      exact h k₁ f₁ k₂ f₂ h₁ h₂ heq

theorem Inv.setFlight (h : Inv s)
    (halone : ∀ k' f, k' ≠ k → s.flights.lookup k' = some f → f.command ≠ flight.command)
    (hstage : Succeeded s flight.command ↔ flight.stage = .confirming)
    (hsame : ∀ f, s.flights.lookup k = some f → f.command = flight.command) :
    Inv (setFlight s k flight) where
  single := h.single.setFlight halone
  confirming := by
    intro k' f hf
    rw [lookup_setFlight] at hf
    by_cases hk : k' = k
    · rw [if_pos hk] at hf
      cases hf
      exact hstage
    · rw [if_neg hk] at hf
      exact h.confirming k' f hf
  kept := by
    intro c hc
    rcases h.kept c hc with hconfirmed | ⟨k',f,hf,hfc⟩
    · exact .inl hconfirmed
    · right
      by_cases hk : k' = k
      · refine ⟨k,flight,by rw [lookup_setFlight, if_pos rfl],?_⟩
        rw [← hsame f (hk ▸ hf), hfc]
      · exact ⟨k',f,by rw [lookup_setFlight, if_neg hk, hf],hfc⟩
  settled := h.settled
  never_swallowed := h.never_swallowed

variable {task : RemoteTask} {x : Execution}

theorem Inv.begin {source : Source} (h : Inv s) (hfree : s.flights.lookup k = none)
    (hunmixed : Unmixed s c) :
    Inv (begin s k source c task) := by
  rw [RemoteCommands.begin]
  split_ifs with hconfirmed
  · exact h.drop (hunmixed.own hconfirmed)
  · have halone : ∀ k' f, s.flights.lookup k' = some f → f.command ≠ c :=
      fun k' f hf => hunmixed.alone (k', f) (mem_of_lookup hf)
    have hnot : ¬ Succeeded s c := by
      intro hc
      rcases h.kept c hc with hkey | ⟨k',f,hf,hfc⟩
      · exact hconfirmed hkey
      · exact halone k' f hf hfc
    refine h.setFlight (fun k' f _ hf => halone k' f hf) ?_ (by simp [hfree])
    exact iff_of_false hnot (by simp)

theorem Inv.endFlight (h : Inv s) (hflight : s.flights.lookup k = some flight)
    (hkept : Succeeded s flight.command → flight.command.key ∈ s.confirmed) :
    Inv (endFlight s k) where
  single := by
    intro k₁ f₁ k₂ f₂ h₁ h₂
    rw [lookup_endFlight] at h₁ h₂
    split_ifs at h₁ h₂
    exact h.single k₁ f₁ k₂ f₂ h₁ h₂
  confirming := by
    intro k' f hf
    rw [lookup_endFlight] at hf
    split_ifs at hf
    exact h.confirming k' f hf
  kept := by
    intro c hc
    rcases h.kept c hc with hconfirmed | ⟨k',f,hf,hfc⟩
    · exact .inl hconfirmed
    · by_cases hk : k' = k
      · subst hk
        rw [hflight] at hf
        cases hf
        subst hfc
        exact .inl (hkept hc)
      · exact .inr ⟨k',f,by rw [lookup_endFlight, if_neg hk, hf],hfc⟩
  settled := h.settled
  never_swallowed := h.never_swallowed

/-! ## Answers -/

def record (s : State) (x : Execution) : State := { s with log := s.log ++ [x] }

theorem succeeded_record :
    Succeeded (record s x) c ↔ Succeeded s c ∨ (x.command = c ∧ x.ok = true) := by
  simp [Succeeded, record, or_and_right, exists_or]

theorem settled_record (h : Inv s) (hx : ¬ Succeeded s x.command) :
    ∀ front y back, (record s x).log = front ++ y :: back → y.ok = true →
      ∀ z ∈ back, z.command ≠ y.command := by
  intro front y back hsplit hok z hz
  rcases eq_nil_or_concat back with rfl | ⟨init,last,rfl⟩
  · cases hz
  · rw [concat_eq_append] at hz hsplit
    have hlog : s.log ++ [x] = (front ++ y :: init) ++ [last] := by
      rw [append_assoc]
      exact hsplit
    obtain ⟨hinit,hlast⟩ := append_inj' hlog rfl
    obtain rfl := cons.inj hlast |>.1
    rcases mem_append.1 hz with hz | hz
    · exact h.settled front y init hinit hok z hz
    · obtain rfl := mem_singleton.1 hz
      intro heq
      exact hx ⟨y,by rw [hinit]; simp,heq.symm,hok⟩

theorem Inv.alone (h : Inv s) (hflight : s.flights.lookup k = some flight) :
    ∀ k' f, k' ≠ k → s.flights.lookup k' = some f → f.command ≠ flight.command :=
  fun k' f hk hf heq => hk (h.single k' f k flight hf hflight heq)

theorem Inv.record_failed (h : Inv s) (hx : ¬ Succeeded s x.command) (hfailed : x.ok = false) :
    Inv (record s x) := by
  have hsame : ∀ c, Succeeded (record s x) c ↔ Succeeded s c := by
    intro c
    rw [succeeded_record]
    simp [hfailed]
  constructor
  · exact h.single
  · exact fun k f hf => (hsame f.command).trans (h.confirming k f hf)
  · exact fun c hc => h.kept c ((hsame c).1 hc)
  · exact settled_record h hx
  · exact fun c hc => (hsame c).2 (h.never_swallowed c hc)

theorem Inv.record_ok (h : Inv s) (hx : ¬ Succeeded s x.command) (hok : x.ok = true)
    (hflight : s.flights.lookup k = some flight) (hcommand : flight.command = x.command) :
    Inv (RemoteCommands.setFlight (record s x) k { flight with stage := .confirming }) := by
  have halone := h.alone hflight
  constructor
  · exact Single.setFlight h.single halone
  · intro k' f hf
    rw [lookup_setFlight] at hf
    by_cases hk : k' = k
    · rw [if_pos hk] at hf
      cases hf
      exact iff_of_true (succeeded_record.2 (.inr ⟨hcommand.symm,hok⟩)) rfl
    · rw [if_neg hk] at hf
      have hne : x.command ≠ f.command := fun heq => halone k' f hk hf (heq ▸ hcommand.symm)
      refine Iff.trans ?_ (h.confirming k' f hf)
      show Succeeded (record s x) f.command ↔ _
      rw [succeeded_record]
      simp [hne]
  · intro c hc
    rcases succeeded_record.1 hc with hbefore | ⟨rfl,-⟩
    · rcases h.kept c hbefore with hconfirmed | ⟨k',f,hf,hfc⟩
      · exact .inl hconfirmed
      · have hk : k' ≠ k := by
          intro hk
          rw [hk, hflight] at hf
          cases hf
          exact hx (hcommand ▸ hfc ▸ hbefore)
        exact .inr ⟨k',f,by rw [lookup_setFlight, if_neg hk]; exact hf,hfc⟩
    · exact .inr ⟨k,{ flight with stage := .confirming },
        by rw [lookup_setFlight, if_pos rfl],hcommand⟩
  · exact settled_record h hx
  · exact fun c hc => succeeded_record.2 (.inl (h.never_swallowed c hc))

theorem Inv.confirm (h : Inv s) (hflight : s.flights.lookup k = some flight) :
    Inv { RemoteCommands.endFlight s k with confirmed := flight.command.key :: s.confirmed } := by
  have hinserted : Inv { s with confirmed := flight.command.key :: s.confirmed } :=
    ⟨h.single,h.confirming,fun c hc => (h.kept c hc).imp_left (mem_cons_of_mem _),h.settled,
      h.never_swallowed⟩
  exact hinserted.endFlight hflight fun _ => mem_cons_self

/-! ## The runs -/

theorem step_inv (s : State) (label : Label) (t : State) (h : Inv s) (hcareful : Careful s label)
    (hstep : step s label = some t) : Inv t := by
  cases label with
  | project tasks | rebind bindings =>
      cases hstep
      exact ⟨h.single,h.confirming,h.kept,h.settled,h.never_swallowed⟩
  | event k target c =>
      rw [step] at hstep
      split_ifs at hstep with hbusy htarget
      · cases hstep
        exact h
      · have hfree : s.flights.lookup k = none :=
          not_isSome_iff_eq_none.1 fun hsome => hbusy (.inl hsome)
        cases hfind : findTask s c.taskId with
        | none =>
            simp only [hfind] at hstep
            cases hstep
            exact h
        | some task =>
            simp only [hfind] at hstep
            cases hstep
            exact h.begin hfree (hcareful (k, c, task) (by simp [delivered, htarget, hfind]))
  | request k c =>
      rw [step] at hstep
      split_ifs at hstep with hbusy
      have hfree : s.flights.lookup k = none := not_isSome_iff_eq_none.1 hbusy
      cases hfind : findTask s c.taskId with
      | none =>
          simp only [hfind] at hstep
          cases hstep
          exact h
      | some task =>
          simp only [hfind] at hstep
          cases hstep
          exact h.begin hfree (hcareful (k, c, task) (by simp [delivered, hfind]))
  | resolve k =>
      rw [step] at hstep
      split at hstep
      · rename_i source c task hflight
        have hnot : ¬ Succeeded s c := fun hc =>
          absurd ((h.confirming k _ hflight).1 hc) (by simp)
        split at hstep
        · cases hstep
          refine h.setFlight (fun k' f => h.alone hflight k' f) (iff_of_false hnot (by simp)) ?_
          intro f hf
          rw [hflight] at hf
          cases hf
          rfl
        · cases hstep
          exact h.endFlight hflight fun hc => absurd hc hnot
      · cases hstep
  | answer k ok =>
      rw [step] at hstep
      split at hstep
      · rename_i source c task call hflight
        have hnot : ¬ Succeeded s c := fun hc =>
          absurd ((h.confirming k _ hflight).1 hc) (by simp)
        cases ok with
        | true =>
            cases hstep
            exact h.record_ok hnot rfl hflight rfl
        | false =>
            cases hstep
            have hrecord := @Inv.record_failed s ⟨c,call,false⟩ h hnot rfl
            refine hrecord.endFlight hflight fun hc => ?_
            rw [succeeded_record] at hc
            simp [hnot] at hc
      · cases hstep
  | confirm k =>
      rw [step] at hstep
      split at hstep
      · rename_i source c task hflight
        cases hstep
        exact h.confirm hflight
      · cases hstep

theorem once_of_settled
    (h : ∀ front x back, s.log = front ++ x :: back → x.ok = true →
      ∀ y ∈ back, y.command ≠ x.command) (hc : Succeeded s c) :
    s.log.countP (fun x => x.command = c ∧ x.ok = true) = 1 := by
  obtain ⟨x,hx,rfl,hok⟩ := hc
  obtain ⟨front,back,hsplit⟩ := append_of_mem hx
  have hback : back.countP (fun y => y.command = x.command ∧ y.ok = true) = 0 := by
    rw [countP_eq_zero]
    intro y hy
    simp [h front x back hsplit hok y hy]
  have hfront : front.countP (fun y => y.command = x.command ∧ y.ok = true) = 0 := by
    rw [countP_eq_zero]
    intro y hy hsuccess
    obtain ⟨hyx,hyok⟩ := of_decide_eq_true hsuccess
    obtain ⟨before,after,rfl⟩ := append_of_mem hy
    have hlog : s.log = before ++ y :: (after ++ x :: back) := by
      rw [hsplit, append_assoc, cons_append]
    exact h before y _ hlog hyok x (by simp) hyx.symm
  rw [hsplit, countP_append, countP_cons, hfront, hback]
  simp [hok]

theorem Inv.applied (h : Inv s) : Applied s where
  once _ := once_of_settled h.settled
  settled := h.settled
  never_swallowed := h.never_swallowed

theorem begin_executes {source : Source} {call : Call} (hnew : c.key ∉ s.confirmed)
    (hroute : route s.device s.bindings task c.action = .ok call) :
    Executes (begin s k source c task) k c call := by
  intro ok
  rw [RemoteCommands.begin, if_neg hnew, exec_cons, step, lookup_setFlight, if_pos rfl]
  simp only [RemoteCommands.setFlight, hroute, bind_some, exec_cons, step, lookup_insert,
    if_true]
  cases ok with
  | true => rfl
  | false => rfl

theorem step_delivered {label : Label} (hdelivered : delivered s label = some (k, c, task))
    (hstep : step s label = some t) :
    ∃ source, t = begin s k source c task := by
  cases label with
  | event k' target c' =>
      rw [delivered] at hdelivered
      split_ifs at hdelivered with htarget
      obtain ⟨task',hfind,heq⟩ := map_eq_some_iff.1 hdelivered
      cases heq
      rw [step] at hstep
      split_ifs at hstep with hbusy
      simp only [hfind] at hstep
      cases hstep
      exact ⟨.events,rfl⟩
  | request k' c' =>
      obtain ⟨task',hfind,heq⟩ := map_eq_some_iff.1 hdelivered
      cases heq
      rw [step] at hstep
      split_ifs at hstep with hbusy
      simp only [hfind] at hstep
      cases hstep
      exact ⟨.rpc,rfl⟩
  | _ => cases hdelivered

/-- In every careful run each command that goes well is executed once and never again, none is
swallowed before it went well, and a delivery of one that has not gone well leads to its call. -/
theorem commands_applied_once {device : String} {labels : List Label} {s : State}
    (hcareful : Meets step Careful (start device) labels)
    (h : exec step (start device) labels = some s) :
    Applied s ∧ ∀ label t k c task call, Careful s label →
      delivered s label = some (k, c, task) → ¬ Succeeded s c → step s label = some t →
      route s.device s.bindings task c.action = .ok call → Executes t k c call := by
  have hinv : Inv s := exec_invariant_of_meets step_inv (inv_start device) hcareful h
  refine ⟨hinv.applied,?_⟩
  intro label t k c task call hlabel hdelivered hnot hstep hroute
  obtain ⟨source,rfl⟩ := step_delivered hdelivered hstep
  have hnew : c.key ∉ s.confirmed := fun hkey => hnot ((hlabel _ hdelivered).own hkey)
  exact begin_executes hnew hroute

instance (s : State) (c : Command) : Decidable (Unmixed s c) :=
  decidable_of_iff ((∀ e ∈ s.flights, e.2.command ≠ c) ∧ (c.key ∈ s.confirmed → Succeeded s c))
    ⟨fun h => ⟨h.1,h.2⟩,fun h => ⟨h.alone,h.own⟩⟩

instance (s : State) (label : Label) : Decidable (Careful s label) :=
  inferInstanceAs (Decidable (∀ d ∈ delivered s label, Unmixed s d.2.1))

def sampleTask : RemoteTask where
  id := "t"
  toDevice := "desk"
  url := "u"
  fileName := "f"
  saveDir := none
  status := .downloading

def pressed (act : ℕ) (action : String) : Command := ⟨act,none,"t",action⟩

/-- A pause fails, comes again and goes well, comes once more, and the task is resumed. -/
def sampleLabels : List Label :=
  [.project [sampleTask], .event 0 "desk" (pressed 0 "pause"), .resolve 0, .answer 0 false,
    .request 1 (pressed 0 "pause"), .resolve 1, .answer 1 true, .confirm 1,
    .event 2 "desk" (pressed 0 "pause"), .request 3 (pressed 1 "resume"), .resolve 3,
    .answer 3 true, .confirm 3]

theorem sample_applied_once : ∃ s, exec step (start "desk") sampleLabels = some s ∧ Applied s := by
  have hexec : (exec step (start "desk") sampleLabels).isSome = true := by decide +kernel
  obtain ⟨s,hs⟩ := isSome_iff_exists.1 hexec
  exact ⟨s,hs,(commands_applied_once (by decide +kernel) hs).1⟩

/-- The task is paused, resumed and paused again. -/
def repeatedLabels : List Label :=
  [.project [sampleTask], .request 0 (pressed 0 "pause"), .resolve 0, .answer 0 true, .confirm 0,
    .request 1 (pressed 1 "resume"), .resolve 1, .answer 1 true, .confirm 1,
    .request 2 (pressed 2 "pause")]

theorem second_pause_swallowed :
    ¬ ∀ labels s, exec step (start "desk") labels = some s → Applied s := by
  intro h
  have hexec : (exec step (start "desk") repeatedLabels).any
      (fun s => decide (pressed 2 "pause" ∈ s.dropped) && decide (¬ Succeeded s (pressed 2 "pause")))
        = true := by decide +kernel
  obtain ⟨s,hs,hdropped⟩ := (any_eq_true _ _).1 hexec
  rw [Bool.and_eq_true] at hdropped
  exact of_decide_eq_true hdropped.2
    ((h repeatedLabels s hs).never_swallowed _ (of_decide_eq_true hdropped.1))

end RinaDown.RemoteCommands
