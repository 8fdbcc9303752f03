import RinaDown.RemoteDispatch

/-!
# One round of accepting dispatches

The round goes through the pending tasks for the device, creates a local task for each that is
not bound, binds it and tells the cloud. Any error ends the round. What the round did not tell is
left to the rounds that report progress, in which a status that is on record is not sent again.
-/

namespace RinaDown.PendingDispatches

open KeyedTable RemoteDispatch List

/-! ## The round -/

structure CreateTaskRequest where
  url : String
  fileName : String
  saveDir : String
deriving DecidableEq

def createTaskRequest (task : RemoteTask) : CreateTaskRequest where
  url := task.url
  fileName := task.fileName
  saveDir := task.saveDir.getD ""

inductive RemoteError where
  | daemon
  | protocol (text : String)
  | cloud
deriving DecidableEq

/-- What the daemon answers to the create call: an error, or a result with or without an id. -/
inductive CreateReply where
  | failed
  | created (taskId : Option String)
deriving DecidableEq

def CreateReply.localId : CreateReply → Except RemoteError String
  | .failed => .error .daemon
  | .created none => .error (.protocol "daemon returned no taskId")
  | .created (some taskId) => .ok taskId

/-- A remote task, with the answers that its calls get when they are made. -/
structure Entry where
  task : RemoteTask
  create : CreateReply
  announced : Bool
deriving DecidableEq

structure Created where
  remoteId : String
  localId : String
  request : CreateTaskRequest
deriving DecidableEq

structure AcceptResult where
  state : State
  created : List Created
  accepted : List String
  error : Option RemoteError

def bindTask (s : State) (remoteId localId : String) : State :=
  { s with
    bindings := insert remoteId localId s.bindings
    locals := localId :: s.locals
    created := (remoteId, localId) :: s.created }

def setAccepted (s : State) (remoteId : String) : State :=
  { s with reported := insert remoteId .accepted s.reported }

def acceptDispatches : State → List Entry → AcceptResult
  | s, [] => ⟨s,[],[],none⟩
  | s, e :: entries =>
      if (s.bindings.lookup e.task.id).isSome then acceptDispatches s entries
      else
        match e.create.localId with
        | .error error => ⟨s,[],[],some error⟩
        | .ok localId =>
            let bound := bindTask s e.task.id localId
            let created : Created := ⟨e.task.id,localId,createTaskRequest e.task⟩
            if e.announced then
              let rest := acceptDispatches (setAccepted bound e.task.id) entries
              ⟨rest.state,created :: rest.created,e.task.id :: rest.accepted,rest.error⟩
            else ⟨bound,[created],[],some .cloud⟩

def acceptPendingDispatches (s : State) (entries : List Entry) : AcceptResult :=
  acceptDispatches s (entries.filter fun e => e.task.isDispatch s.device)

/-! ## Rounds of reports -/

/-- The status that `reportItem` sends to the cloud, if it sends one. -/
def sentStatus (s : State) (remoteId localId : String) (localTasks : List LocalTask) :
    Option RemoteTaskStatus :=
  match localTasks.find? fun task => task.taskId = localId with
  | none =>
      if missingGraceRounds ≤ saturatingSucc ((s.localMissing.lookup remoteId).getD 0) ∧
          s.reported.lookup remoteId ≠ some .failed then some .failed
      else none
  | some task =>
      if s.reported.lookup remoteId = some (localStatus task.status) then none
      else some (localStatus task.status)

structure Report where
  remoteId : String
  status : RemoteTaskStatus
  outcome : Outcome
deriving DecidableEq

/-- A round goes through the bindings in an order of its own. -/
structure Round where
  order : Bindings → Bindings
  order_perm : ∀ bindings, (order bindings).Perm bindings
  localTasks : List LocalTask
  outcome : String → Outcome

def reportAll (round : Round) : State → Bindings → State × List Report
  | s, [] => (s, [])
  | s, (remoteId, localId) :: rest =>
      let sent := ((sentStatus s remoteId localId round.localTasks).map fun status =>
        (⟨remoteId,status,round.outcome remoteId⟩ : Report)).toList
      match reportItem s remoteId localId round.localTasks (round.outcome remoteId) with
      | (s, true) => ((reportAll round s rest).1, sent ++ (reportAll round s rest).2)
      | (s, false) => (s, sent)

def reportLocalProgress (round : Round) (s : State) : State × List Report :=
  reportAll round s (round.order s.bindings)

/-- The reports of each round, beside the round. -/
def reportRounds : State → List Round → List (Round × List Report)
  | _, [] => []
  | s, round :: rounds =>
      (round, (reportLocalProgress round s).2) ::
        reportRounds (reportLocalProgress round s).1 rounds

def Round.statusOf (round : Round) (localId : String) : RemoteTaskStatus :=
  match round.localTasks.find? fun task => task.taskId = localId with
  | none => .failed
  | some task => localStatus task.status

/-- The local task is there and no report fails. -/
structure Round.Clean (round : Round) (localId : String) : Prop where
  listed : ∃ task ∈ round.localTasks, task.taskId = localId
  answered : ∀ remoteId, round.outcome remoteId ≠ .error

/-- Some round has told the cloud the status of the local task. -/
def Told (rounds : List (Round × List Report)) (remoteId localId : String) : Prop :=
  ∃ r ∈ rounds, ∃ report ∈ r.2, report.remoteId = remoteId ∧
    report.status = r.1.statusOf localId ∧ report.outcome ≠ .error

/-! ## What is asked of the round -/

def Eligible (s : State) (e : Entry) : Prop :=
  e.task.isDispatch s.device = true ∧ s.bindings.lookup e.task.id = none

instance (s : State) : DecidablePred (Eligible s) := fun e =>
  inferInstanceAs (Decidable (e.task.isDispatch s.device = true ∧ _))

def Entry.Creates (e : Entry) : Prop := ∃ localId, e.create.localId = .ok localId

def Entry.Fails (e : Entry) : Prop := e.Creates → e.announced = false

/-- Every eligible task whose create call succeeds gets a local task, and of every local task the
cloud is told, at the latest by the first round of reports in which nothing fails. -/
def Served (s : State) (entries : List Entry) : Prop :=
  (∀ e ∈ entries, Eligible s e → e.Creates →
    ∃ c ∈ (acceptPendingDispatches s entries).created, c.remoteId = e.task.id) ∧
  ∀ c ∈ (acceptPendingDispatches s entries).created,
    c.remoteId ∈ (acceptPendingDispatches s entries).accepted ∨
      ∀ rounds (last : Round), last.Clean c.localId →
        Told (reportRounds (acceptPendingDispatches s entries).state (rounds ++ [last]))
          c.remoteId c.localId

/-- No failing entry stands before another one that creates a task, and no status of a local task
is on record for an entry whose task is created and not announced. Entries under an id that stood
before are left out. -/
structure Unblocked (s : State) (entries : List Entry) : Prop where
  nothing_after : ∀ front e back, entries.filter (Eligible s) = front ++ e :: back →
    e.task.id ∉ front.map (·.task.id) → e.Fails →
      ∀ f ∈ back, f.Creates → f.task.id ∈ front.map (·.task.id) ∨ (f.task.id = e.task.id ∧ e.Creates)
  nothing_on_record : ∀ front e back, entries.filter (Eligible s) = front ++ e :: back →
    e.task.id ∉ front.map (·.task.id) → e.Creates → e.announced = false →
      ∀ status, s.reported.lookup e.task.id ≠ some (localStatus status)

/-! ## The round of accepting -/

variable {s : State} {entries : List Entry} {e : Entry}

theorem lookup_bindTask (remoteId localId id : String) :
    (bindTask s remoteId localId).bindings.lookup id =
      if id = remoteId then some localId else s.bindings.lookup id :=
  lookup_insert remoteId localId s.bindings id

theorem acceptDispatches_filter (p : Entry → Bool)
    (hp : ∀ e, p e = false → (s.bindings.lookup e.task.id).isSome = true) :
    acceptDispatches s (entries.filter p) = acceptDispatches s entries := by
  induction entries generalizing s with
  | nil => rfl
  | cons e entries ih =>
      cases hpe : p e with
      | false =>
          rw [filter_cons_of_neg (by simp [hpe]), acceptDispatches, if_pos (hp e hpe)]
          exact ih hp
      | true =>
          rw [filter_cons_of_pos hpe, acceptDispatches, acceptDispatches]
          by_cases hbound : (s.bindings.lookup e.task.id).isSome = true
          · rw [if_pos hbound, if_pos hbound]
            exact ih hp
          · rw [if_neg hbound, if_neg hbound]
            cases hid : e.create.localId with
            | error error => rfl
            | ok localId =>
                have hrest : acceptDispatches (setAccepted (bindTask s e.task.id localId) e.task.id)
                    (entries.filter p) =
                      acceptDispatches (setAccepted (bindTask s e.task.id localId) e.task.id)
                        entries := by
                  apply ih
                  intro f hf
                  rw [setAccepted, lookup_bindTask]
                  split_ifs
                  · rfl
                  · exact hp f hf
                simp only [hrest]

theorem acceptPendingDispatches_eq (s : State) (entries : List Entry) :
    acceptPendingDispatches s entries = acceptDispatches s (entries.filter (Eligible s)) := by
  have hfilter : entries.filter (Eligible s) =
      (entries.filter fun e => e.task.isDispatch s.device).filter
        fun e => (s.bindings.lookup e.task.id).isNone := by
    rw [filter_filter]
    apply filter_congr
    intro e _
    rw [Bool.eq_iff_iff, decide_eq_true_iff, Bool.and_eq_true, Option.isNone_iff_eq_none, Eligible,
      and_comm]
  rw [hfilter, acceptPendingDispatches]
  refine (acceptDispatches_filter _ ?_).symm
  intro e he
  cases hlookup : s.bindings.lookup e.task.id with
  | none => simp [hlookup] at he
  | some localId => rfl

def Unbound (s : State) (e : Entry) : Prop := s.bindings.lookup e.task.id = none

def served (s : State) (e : Entry) (localId : String) : State :=
  setAccepted (bindTask s e.task.id localId) e.task.id

def createdOf (e : Entry) (localId : String) : Created :=
  ⟨e.task.id,localId,createTaskRequest e.task⟩

theorem accept_bound (h : ¬ Unbound s e) :
    acceptDispatches s (e :: entries) = acceptDispatches s entries := by
  rw [acceptDispatches, if_pos (Option.isSome_iff_ne_none.2 h)]

theorem accept_error {error : RemoteError} (h : Unbound s e) (hid : e.create.localId = .error error) :
    acceptDispatches s (e :: entries) = ⟨s,[],[],some error⟩ := by
  rw [Unbound] at h
  simp [acceptDispatches, h, hid]

variable {localId : String} {order : Bindings}

theorem accept_unannounced (h : Unbound s e) (hid : e.create.localId = .ok localId)
    (hannounced : e.announced = false) :
    acceptDispatches s (e :: entries) =
      ⟨bindTask s e.task.id localId,[createdOf e localId],[],some .cloud⟩ := by
  rw [Unbound] at h
  simp [acceptDispatches, h, hid, hannounced, createdOf]

theorem accept_announced (h : Unbound s e) (hid : e.create.localId = .ok localId)
    (hannounced : e.announced = true) :
    acceptDispatches s (e :: entries) =
      ⟨(acceptDispatches (served s e localId) entries).state,
        createdOf e localId :: (acceptDispatches (served s e localId) entries).created,
        e.task.id :: (acceptDispatches (served s e localId) entries).accepted,
        (acceptDispatches (served s e localId) entries).error⟩ := by
  rw [Unbound] at h
  simp [acceptDispatches, h, hid, hannounced, createdOf, served]

theorem unbound_served {f : Entry} :
    Unbound (served s e localId) f ↔ f.task.id ≠ e.task.id ∧ Unbound s f := by
  rw [Unbound, served, setAccepted, lookup_bindTask, Unbound]
  by_cases hid : f.task.id = e.task.id
  · simp [hid]
  · simp [hid]

theorem not_creates_of_error {error : RemoteError} (hid : e.create.localId = .error error) :
    ¬ e.Creates := by
  rintro ⟨localId,hok⟩
  rw [hid] at hok
  cases hok

def AllCreated (s : State) (entries : List Entry) : Prop :=
  ∀ f ∈ entries, Unbound s f → f.Creates →
    ∃ c ∈ (acceptDispatches s entries).created, c.remoteId = f.task.id

def NothingAfter (s : State) (entries : List Entry) : Prop :=
  ∀ front e back, entries = front ++ e :: back → Unbound s e →
    e.task.id ∉ front.map (·.task.id) → e.Fails → ∀ f ∈ back, Unbound s f → f.Creates →
      f.task.id ∈ front.map (·.task.id) ∨ (f.task.id = e.task.id ∧ e.Creates)

theorem nothingAfter_bound (h : ¬ Unbound s e) :
    NothingAfter s (e :: entries) ↔ NothingAfter s entries := by
  constructor
  · intro hafter front x back hsplit hx hfirst hfails f hf hfree hcreates
    have hne : x.task.id ≠ e.task.id := fun heq => h (by rw [Unbound, ← heq]; exact hx)
    have hresult := hafter (e :: front) x back (by rw [hsplit]; rfl) hx
      (by simp [hne, hfirst]) hfails f hf hfree hcreates
    have hfe : f.task.id ≠ e.task.id := fun heq => h (by rw [Unbound, ← heq]; exact hfree)
    simpa [hfe] using hresult
  · intro hafter front x back hsplit hx hfirst hfails f hf hfree hcreates
    cases front with
    | nil =>
        obtain ⟨rfl,rfl⟩ := cons.inj hsplit
        exact absurd hx h
    | cons g front =>
        obtain ⟨rfl,rfl⟩ := cons.inj hsplit
        have hnot : x.task.id ∉ front.map (·.task.id) := fun hmem => hfirst (by simp [hmem])
        rcases hafter front x back rfl hx hnot hfails f hf hfree hcreates with hmem | hown
        · exact .inl (mem_cons_of_mem _ hmem)
        · exact .inr hown

/-- A failing entry at the head leaves nothing for the entries after it. -/
theorem nothingAfter_fails (h : Unbound s e) (hfails : e.Fails) :
    NothingAfter s (e :: entries) ↔
      ∀ f ∈ entries, Unbound s f → f.Creates → f.task.id = e.task.id ∧ e.Creates := by
  constructor
  · intro hafter f hf hfree hcreates
    simpa using hafter [] e entries rfl h (by simp) hfails f hf hfree hcreates
  · intro hnone front x back hsplit hx hfirst hxfails f hf hfree hcreates
    cases front with
    | nil =>
        obtain ⟨rfl,rfl⟩ := cons.inj hsplit
        exact .inr (hnone f hf hfree hcreates)
    | cons g front =>
        obtain ⟨rfl,rfl⟩ := cons.inj hsplit
        have hid := (hnone f (by simp [hf]) hfree hcreates).1
        exact .inl (by simp [hid])

theorem nothingAfter_served (hgood : ¬ e.Fails) :
    NothingAfter s (e :: entries) ↔ NothingAfter (served s e localId) entries := by
  constructor
  · intro hafter front x back hsplit hx hfirst hfails f hf hfree hcreates
    obtain ⟨hxe,hx⟩ := unbound_served.1 hx
    obtain ⟨hfe,hfree⟩ := unbound_served.1 hfree
    have hresult := hafter (e :: front) x back (by rw [hsplit]; rfl) hx
      (by simp [hxe, hfirst]) hfails f hf hfree hcreates
    simpa [hfe] using hresult
  · intro hafter front x back hsplit hx hfirst hfails f hf hfree hcreates
    cases front with
    | nil =>
        obtain ⟨rfl,rfl⟩ := cons.inj hsplit
        exact absurd hfails hgood
    | cons g front =>
        obtain ⟨rfl,rfl⟩ := cons.inj hsplit
        by_cases hfe : f.task.id = e.task.id
        · exact .inl (by simp [hfe])
        · have hxe : x.task.id ≠ e.task.id := fun heq => hfirst (by simp [heq])
          have hnot : x.task.id ∉ front.map (·.task.id) := fun hmem => hfirst (by simp [hmem])
          rcases hafter front x back rfl (unbound_served.2 ⟨hxe,hx⟩) hnot hfails f hf
            (unbound_served.2 ⟨hfe,hfree⟩) hcreates with hmem | hown
          · exact .inl (mem_cons_of_mem _ hmem)
          · exact .inr hown

/-- The round creates what it should exactly when nothing that creates stands after a failing
entry. -/
theorem allCreated_iff (s : State) (entries : List Entry) :
    AllCreated s entries ↔ NothingAfter s entries := by
  induction entries generalizing s with
  | nil => simp [AllCreated, NothingAfter]
  | cons e entries ih =>
      by_cases hfree : Unbound s e
      · cases hid : e.create.localId with
        | error error =>
            have hnot := not_creates_of_error hid
            rw [nothingAfter_fails hfree (fun hcreates => absurd hcreates hnot), AllCreated,
              accept_error hfree hid]
            constructor
            · intro hall f hf hunbound hcreates
              obtain ⟨c,hc,-⟩ := hall f (mem_cons_of_mem e hf) hunbound hcreates
              cases hc
            · intro hnone f hf hunbound hcreates
              rcases mem_cons.1 hf with rfl | hf
              · exact absurd hcreates hnot
              · exact absurd (hnone f hf hunbound hcreates).2 hnot
        | ok localId =>
            have hcreates : e.Creates := ⟨localId,hid⟩
            cases hannounced : e.announced with
            | false =>
                rw [nothingAfter_fails hfree (fun _ => hannounced), AllCreated,
                  accept_unannounced hfree hid hannounced]
                constructor
                · intro hall f hf hunbound hfcreates
                  obtain ⟨c,hc,hcid⟩ := hall f (mem_cons_of_mem e hf) hunbound hfcreates
                  obtain rfl := mem_singleton.1 hc
                  exact ⟨hcid.symm,hcreates⟩
                · intro hown f hf hunbound hfcreates
                  refine ⟨createdOf e localId,mem_singleton_self _,?_⟩
                  rcases mem_cons.1 hf with rfl | hf
                  · rfl
                  · exact (hown f hf hunbound hfcreates).1.symm
            | true =>
                have hgood : ¬ e.Fails := fun hfails => by simp [hfails hcreates] at hannounced
                rw [nothingAfter_served hgood, ← ih (served s e localId), AllCreated,
                  accept_announced hfree hid hannounced]
                constructor
                · intro hall f hf hunbound hfcreates
                  obtain ⟨hne,hunbound⟩ := unbound_served.1 hunbound
                  obtain ⟨c,hc,hcid⟩ := hall f (mem_cons_of_mem e hf) hunbound hfcreates
                  rcases mem_cons.1 hc with rfl | hc
                  · exact absurd hcid.symm hne
                  · exact ⟨c,hc,hcid⟩
                · intro hall f hf hunbound hfcreates
                  by_cases hne : f.task.id = e.task.id
                  · exact ⟨createdOf e localId,mem_cons_self,hne.symm⟩
                  · rcases mem_cons.1 hf with rfl | hf
                    · exact absurd rfl hne
                    · obtain ⟨c,hc,hcid⟩ :=
                        hall f hf (unbound_served.2 ⟨hne,hunbound⟩) hfcreates
                      exact ⟨c,mem_cons_of_mem _ hc,hcid⟩
      · rw [nothingAfter_bound hfree, ← ih s, AllCreated, accept_bound hfree]
        constructor
        · exact fun hall f hf => hall f (mem_cons_of_mem e hf)
        · intro hall f hf hunbound
          rcases mem_cons.1 hf with rfl | hf
          · exact absurd hunbound hfree
          · exact hall f hf hunbound

/-- The only local task that is bound to a remote one, and no round has told its status since the
state `s`. -/
structure Waiting (s s' : State) (remoteId localId : String) : Prop where
  bound : ∀ l, (remoteId, l) ∈ s'.bindings ↔ l = localId
  on_record : s'.reported.lookup remoteId = s.reported.lookup remoteId

theorem mem_insert_self {K V : Type} [DecidableEq K] {l : Table K V} {key : K} {value v : V} :
    (key, v) ∈ insert key value l ↔ v = value := by
  simp [KeyedTable.insert, retain]

theorem waiting_bindTask (s : State) (remoteId localId : String) :
    Waiting s (bindTask s remoteId localId) remoteId localId :=
  ⟨fun _ => mem_insert_self,rfl⟩

theorem lookup_served {id : String} (h : id ≠ e.task.id) :
    (served s e localId).reported.lookup id = s.reported.lookup id := by
  rw [served, setAccepted, bindTask, lookup_insert, if_neg h]

/-- An entry that is the first of its id, whose task is created and not announced. -/
structure Unannounced (s : State) (entries : List Entry) (e : Entry) : Prop where
  unbound : Unbound s e
  first : ∃ front back, entries = front ++ e :: back ∧ e.task.id ∉ front.map (·.task.id)
  creates : e.Creates
  silent : e.announced = false

theorem Unannounced.tail {x : Entry} (h : Unannounced (served s e localId) entries x) :
    Unannounced s (e :: entries) x := by
  obtain ⟨hx,⟨front,back,hsplit,hfirst⟩,hcreates,hsilent⟩ := h
  obtain ⟨hne,hx⟩ := unbound_served.1 hx
  exact ⟨hx,⟨e :: front,back,by rw [hsplit]; rfl,by simp [hne, hfirst]⟩,hcreates,hsilent⟩

theorem Unannounced.tail_bound {x : Entry} (hbound : ¬ Unbound s e)
    (h : Unannounced s entries x) : Unannounced s (e :: entries) x := by
  obtain ⟨hx,⟨front,back,hsplit,hfirst⟩,hcreates,hsilent⟩ := h
  have hne : x.task.id ≠ e.task.id := fun heq => hbound (by rw [Unbound, ← heq]; exact hx)
  exact ⟨hx,⟨e :: front,back,by rw [hsplit]; rfl,by simp [hne, hfirst]⟩,hcreates,hsilent⟩

theorem created_waiting {c : Created} (h : c ∈ (acceptDispatches s entries).created) :
    c.remoteId ∈ (acceptDispatches s entries).accepted ∨
      ∃ e, Unannounced s entries e ∧ c.remoteId = e.task.id ∧
        Waiting s (acceptDispatches s entries).state c.remoteId c.localId := by
  induction entries generalizing s with
  | nil => cases h
  | cons e entries ih =>
      by_cases hfree : Unbound s e
      · cases hid : e.create.localId with
        | error error =>
            rw [accept_error hfree hid] at h
            cases h
        | ok localId =>
            cases hannounced : e.announced with
            | false =>
                rw [accept_unannounced hfree hid hannounced] at h ⊢
                obtain rfl := mem_singleton.1 h
                exact .inr ⟨e,⟨hfree,⟨[],entries,rfl,by simp⟩,⟨localId,hid⟩,hannounced⟩,
                  rfl,waiting_bindTask s e.task.id localId⟩
            | true =>
                rw [accept_announced hfree hid hannounced] at h ⊢
                rcases mem_cons.1 h with rfl | h
                · exact .inl mem_cons_self
                · rcases ih h with hmem | ⟨x,hx,hcx,hbound,hrecord⟩
                  · exact .inl (mem_cons_of_mem _ hmem)
                  · have hne : c.remoteId ≠ e.task.id :=
                      hcx ▸ (unbound_served.1 hx.unbound).1
                    exact .inr ⟨x,hx.tail,hcx,hbound,hrecord.trans (lookup_served hne)⟩
      · rw [accept_bound hfree] at h ⊢
        rcases ih h with hmem | ⟨x,hx,hrest⟩
        · exact .inl hmem
        · exact .inr ⟨x,hx.tail_bound hfree,hrest⟩

/-- An unannounced entry that the round gets to is left waiting. -/
theorem waiting_of_unannounced {x : Entry} (hafter : NothingAfter s entries)
    (h : Unannounced s entries x) :
    ∃ c ∈ (acceptDispatches s entries).created, c.remoteId = x.task.id ∧
      c.remoteId ∉ (acceptDispatches s entries).accepted ∧
      Waiting s (acceptDispatches s entries).state c.remoteId c.localId := by
  induction entries generalizing s with
  | nil =>
      obtain ⟨front,back,hsplit,-⟩ := h.first
      simp at hsplit
  | cons e entries ih =>
      obtain ⟨hx,⟨front,back,hsplit,hfirst⟩,hcreates,hsilent⟩ := h
      cases front with
      | nil =>
          obtain ⟨rfl,rfl⟩ := cons.inj hsplit
          obtain ⟨localId,hid⟩ := hcreates
          rw [accept_unannounced hx hid hsilent]
          exact ⟨createdOf e localId,mem_singleton_self _,rfl,not_mem_nil,
            waiting_bindTask s e.task.id localId⟩
      | cons g front =>
          obtain ⟨rfl,rfl⟩ := cons.inj hsplit
          have hne : x.task.id ≠ e.task.id := fun heq => hfirst (by simp [heq])
          have hnot : x.task.id ∉ front.map (·.task.id) := fun hmem => hfirst (by simp [hmem])
          by_cases hfree : Unbound s e
          · by_cases hfails : e.Fails
            · have hown := (nothingAfter_fails hfree hfails).1 hafter x (by simp) hx hcreates
              exact absurd hown.1 hne
            · have hgood : e.Creates ∧ e.announced = true := by
                simpa [Entry.Fails] using hfails
              obtain ⟨⟨localId,hid⟩,hannounced⟩ := hgood
              obtain ⟨c,hc,hcx,hnotAccepted,hbound,hrecord⟩ :=
                ih ((nothingAfter_served hfails).1 hafter)
                  ⟨unbound_served.2 ⟨hne,hx⟩,⟨front,back,rfl,hnot⟩,hcreates,hsilent⟩
              have hce : c.remoteId ≠ e.task.id := hcx ▸ hne
              rw [accept_announced hfree hid hannounced]
              refine ⟨c,mem_cons_of_mem _ hc,hcx,?_,hbound,
                hrecord.trans (lookup_served hce)⟩
              intro hmem
              rcases mem_cons.1 hmem with heq | hmem
              · exact hce heq
              · exact hnotAccepted hmem
          · rw [accept_bound hfree]
            exact ih ((nothingAfter_bound hfree).1 hafter)
              ⟨hx,⟨front,back,rfl,hnot⟩,hcreates,hsilent⟩

/-! ## The rounds of reports -/

variable {remoteId localId : String} {round : Round}

/-- No local task has the status that is on record. -/
def OffRecord (s : State) (remoteId : String) : Prop :=
  ∀ status, s.reported.lookup remoteId ≠ some (localStatus status)

theorem OffRecord.ne_statusOf (h : OffRecord s remoteId) (round : Round) (localId : String) :
    s.reported.lookup remoteId ≠ some (round.statusOf localId) := by
  rw [Round.statusOf]
  split
  · exact h 4
  · exact h _

/-- The bindings and the records of one remote task are those of before. -/
structure SameTask (s s' : State) (remoteId : String) : Prop where
  bindings : ∀ l, (remoteId, l) ∈ s'.bindings ↔ (remoteId, l) ∈ s.bindings
  reported : s'.reported.lookup remoteId = s.reported.lookup remoteId

theorem SameTask.refl (s : State) (remoteId : String) : SameTask s s remoteId :=
  ⟨fun _ => Iff.rfl,rfl⟩

theorem SameTask.trans {s' s'' : State} (h : SameTask s s' remoteId)
    (h' : SameTask s' s'' remoteId) : SameTask s s'' remoteId :=
  ⟨fun l => (h'.bindings l).trans (h.bindings l),h'.reported.trans h.reported⟩

theorem mem_remove {K V : Type} [DecidableEq K] {l : Table K V} {key k : K} {v : V} (h : k ≠ key) :
    (k, v) ∈ KeyedTable.remove key l ↔ (k, v) ∈ l := by
  simp [KeyedTable.remove, retain, h]

theorem reportStatusIfChanged_other {other : String} {status : RemoteTaskStatus}
    {outcome : Outcome} (h : remoteId ≠ other) :
    SameTask s (reportStatusIfChanged s other status outcome).1 remoteId := by
  unfold reportStatusIfChanged
  by_cases hrecord : s.reported.lookup other = some status
  · rw [if_pos hrecord]
    exact SameTask.refl s remoteId
  · rw [if_neg hrecord]
    cases outcome with
    | ok =>
        constructor
        · intro l
          by_cases hterminal : status.isTerminal = true
          · simp only [hterminal, if_true]
            exact mem_remove h
          · simp only [hterminal, Bool.false_eq_true, if_false]
        · show (KeyedTable.insert other status s.reported).lookup remoteId = _
          rw [lookup_insert, if_neg h]
    | gone => exact ⟨fun _ => mem_remove h,rfl⟩
    | error => exact SameTask.refl s remoteId

/-- A round that misses a local task once more. -/
def missOnce (s : State) (remoteId : String) : State :=
  let count := saturatingSucc ((s.localMissing.lookup remoteId).getD 0)
  { s with localMissing := KeyedTable.insert remoteId count s.localMissing }

def dropBinding (s : State) (remoteId : String) : State :=
  { s with bindings := KeyedTable.remove remoteId s.bindings }

def seen (s : State) (remoteId : String) : State :=
  { s with localMissing := KeyedTable.remove remoteId s.localMissing }

variable {localTasks : List LocalTask} {outcome : Outcome}

theorem reportItem_found {task : LocalTask}
    (h : localTasks.find? (fun task => task.taskId = localId) = some task) :
    reportItem s remoteId localId localTasks outcome =
      reportStatusIfChanged (seen s remoteId) remoteId (localStatus task.status) outcome := by
  simp only [reportItem, h, seen]

theorem reportItem_missing (h : localTasks.find? (fun task => task.taskId = localId) = none) :
    reportItem s remoteId localId localTasks outcome =
      if missingGraceRounds ≤ saturatingSucc ((s.localMissing.lookup remoteId).getD 0) then
        if (reportStatusIfChanged (missOnce s remoteId) remoteId .failed outcome).2 then
          (dropBinding (reportStatusIfChanged (missOnce s remoteId) remoteId .failed outcome).1
            remoteId, true)
        else ((reportStatusIfChanged (missOnce s remoteId) remoteId .failed outcome).1, false)
      else (missOnce s remoteId, true) := by
  simp only [reportItem, h]
  change (if _ then
    match reportStatusIfChanged (missOnce s remoteId) remoteId .failed outcome with
      | (s, true) => (dropBinding s remoteId, true)
      | (s, false) => (s, false)
    else (missOnce s remoteId, true)) = _
  generalize reportStatusIfChanged (missOnce s remoteId) remoteId .failed outcome = report
  obtain ⟨t,goes⟩ := report
  cases goes with
  | true => rfl
  | false => rfl

theorem reportItem_other {other otherLocal : String} (h : remoteId ≠ other) :
    SameTask s (reportItem s other otherLocal localTasks outcome).1 remoteId := by
  cases hfind : localTasks.find? fun task => task.taskId = otherLocal with
  | some task =>
      rw [reportItem_found hfind]
      have hsame : SameTask (seen s other) (reportStatusIfChanged (seen s other) other
          (localStatus task.status) outcome).1 remoteId := reportStatusIfChanged_other h
      exact ⟨hsame.bindings,hsame.reported⟩
  | none =>
      rw [reportItem_missing hfind]
      have hsame : SameTask (missOnce s other) (reportStatusIfChanged (missOnce s other) other
          .failed outcome).1 remoteId := reportStatusIfChanged_other h
      split_ifs
      · exact ⟨fun l => (mem_remove h).trans (hsame.bindings l),hsame.reported⟩
      · exact ⟨hsame.bindings,hsame.reported⟩
      · exact ⟨fun _ => Iff.rfl,rfl⟩

/-- An item whose task has no status on record sends the status, or leaves the task as it was. -/
theorem reportItem_self (h : OffRecord s remoteId) :
    (sentStatus s remoteId localId round.localTasks = some (round.statusOf localId) ∧
        (round.outcome remoteId = .error →
          SameTask s (reportItem s remoteId localId round.localTasks .error).1 remoteId)) ∨
      (sentStatus s remoteId localId round.localTasks = none ∧
        (∀ task ∈ round.localTasks, task.taskId ≠ localId) ∧
        (reportItem s remoteId localId round.localTasks (round.outcome remoteId)).2 = true ∧
        SameTask s (reportItem s remoteId localId round.localTasks (round.outcome remoteId)).1
          remoteId) := by
  have hstatus := h.ne_statusOf round localId
  cases hfind : round.localTasks.find? fun task => task.taskId = localId with
  | some task =>
      simp only [Round.statusOf, hfind] at hstatus ⊢
      left
      constructor
      · simp [sentStatus, hfind, hstatus]
      · intro _
        rw [reportItem_found hfind]
        simp only [reportStatusIfChanged, seen, hstatus, if_false]
        exact ⟨fun _ => Iff.rfl,rfl⟩
  | none =>
      simp only [Round.statusOf, hfind] at hstatus ⊢
      by_cases hcount : missingGraceRounds ≤ saturatingSucc ((s.localMissing.lookup remoteId).getD 0)
      · left
        constructor
        · simp [sentStatus, hfind, hcount, hstatus]
        · intro _
          rw [reportItem_missing hfind, if_pos hcount]
          simp only [reportStatusIfChanged, missOnce, hstatus, if_false, Bool.false_eq_true]
          exact ⟨fun _ => Iff.rfl,rfl⟩
      · right
        refine ⟨by simp [sentStatus, hfind, hcount],?_,?_⟩
        · intro task htask
          simpa using find?_eq_none.1 hfind task htask
        · rw [reportItem_missing hfind, if_neg hcount]
          exact ⟨rfl,fun _ => Iff.rfl,rfl⟩

theorem reportStatusIfChanged_goes_on {status : RemoteTaskStatus} (h : outcome ≠ .error) :
    (reportStatusIfChanged s remoteId status outcome).2 = true := by
  unfold reportStatusIfChanged
  by_cases hrecord : s.reported.lookup remoteId = some status
  · rw [if_pos hrecord]
  · rw [if_neg hrecord]
    cases outcome with
    | ok => rfl
    | gone => rfl
    | error => exact absurd rfl h

theorem reportItem_goes_on (h : outcome ≠ .error) :
    (reportItem s remoteId localId localTasks outcome).2 = true := by
  cases hfind : localTasks.find? fun task => task.taskId = localId with
  | some task =>
      rw [reportItem_found hfind]
      exact reportStatusIfChanged_goes_on h
  | none =>
      rw [reportItem_missing hfind, if_pos (reportStatusIfChanged_goes_on h)]
      split_ifs
      · rfl
      · rfl

def itemReport (round : Round) (s : State) (remoteId localId : String) : List Report :=
  ((sentStatus s remoteId localId round.localTasks).map fun status =>
    (⟨remoteId,status,round.outcome remoteId⟩ : Report)).toList

theorem reportAll_cons (rest : Bindings) :
    reportAll round s ((remoteId, localId) :: rest) =
      if (reportItem s remoteId localId round.localTasks (round.outcome remoteId)).2 then
        ((reportAll round
            (reportItem s remoteId localId round.localTasks (round.outcome remoteId)).1 rest).1,
          itemReport round s remoteId localId ++ (reportAll round
            (reportItem s remoteId localId round.localTasks (round.outcome remoteId)).1 rest).2)
      else ((reportItem s remoteId localId round.localTasks (round.outcome remoteId)).1,
        itemReport round s remoteId localId) := by
  rw [reportAll]
  cases reportItem s remoteId localId round.localTasks (round.outcome remoteId) with
  | mk t ok =>
      cases ok with
      | true => rfl
      | false => rfl

/-- Some report of the list tells the cloud the status of the local task. -/
def TellsOf (round : Round) (reports : List Report) (remoteId localId : String) : Prop :=
  ∃ report ∈ reports, report.remoteId = remoteId ∧ report.status = round.statusOf localId ∧
    report.outcome ≠ .error

theorem tellsOf_itemReport
    (h : sentStatus s remoteId localId round.localTasks = some (round.statusOf localId))
    (houtcome : round.outcome remoteId ≠ .error) :
    TellsOf round (itemReport round s remoteId localId) remoteId localId :=
  ⟨⟨remoteId,round.statusOf localId,round.outcome remoteId⟩,by simp [itemReport, h],rfl,rfl,
    houtcome⟩

theorem TellsOf.append_left {front back : List Report} (h : TellsOf round back remoteId localId) :
    TellsOf round (front ++ back) remoteId localId := by
  obtain ⟨report,hmem,hreport⟩ := h
  exact ⟨report,mem_append_right front hmem,hreport⟩

theorem TellsOf.append_right {front back : List Report} (h : TellsOf round front remoteId localId) :
    TellsOf round (front ++ back) remoteId localId := by
  obtain ⟨report,hmem,hreport⟩ := h
  exact ⟨report,mem_append_left back hmem,hreport⟩

theorem OffRecord.of_same {s' : State} (h : OffRecord s remoteId) (hsame : SameTask s s' remoteId) :
    OffRecord s' remoteId := by
  intro status
  rw [hsame.reported]
  exact h status

/-- A round tells the cloud of a task or leaves it as it was. -/
theorem reportAll_told_or_same (h : OffRecord s remoteId)
    (horder : ∀ l, (remoteId, l) ∈ order → l = localId) :
    TellsOf round (reportAll round s order).2 remoteId localId ∨
      SameTask s (reportAll round s order).1 remoteId := by
  induction order generalizing s with
  | nil => exact .inr (SameTask.refl s remoteId)
  | cons entry rest ih =>
      obtain ⟨other,otherLocal⟩ := entry
      have hrest : ∀ l, (remoteId, l) ∈ rest → l = localId :=
        fun l hl => horder l (mem_cons_of_mem _ hl)
      -- An item that leaves the task as it was, and the rest after it if the round goes on.
      have hcontinue : SameTask s
          (reportItem s other otherLocal round.localTasks (round.outcome other)).1 remoteId →
          TellsOf round (reportAll round s ((other, otherLocal) :: rest)).2 remoteId localId ∨
            SameTask s (reportAll round s ((other, otherLocal) :: rest)).1 remoteId := by
        intro hsame
        rw [reportAll_cons]
        split_ifs
        · rcases ih (h.of_same hsame) hrest with htold | hagain
          · exact .inl htold.append_left
          · exact .inr (hsame.trans hagain)
        · exact .inr hsame
      by_cases hother : remoteId = other
      · subst hother
        obtain rfl := horder otherLocal mem_cons_self
        rcases reportItem_self h with ⟨hsent,herror⟩ | ⟨-,-,-,hsame⟩
        · by_cases houtcome : round.outcome remoteId = .error
          · exact hcontinue (by rw [houtcome]; exact herror houtcome)
          · left
            have htold := tellsOf_itemReport hsent houtcome
            rw [reportAll_cons]
            split_ifs
            · exact htold.append_right
            · exact htold
        · exact hcontinue hsame
      · exact hcontinue (reportItem_other hother)

theorem reportAll_clean (hclean : round.Clean localId) (h : OffRecord s remoteId)
    (horder : ∀ l, (remoteId, l) ∈ order ↔ l = localId) :
    TellsOf round (reportAll round s order).2 remoteId localId := by
  have hmem : (remoteId, localId) ∈ order := (horder localId).2 rfl
  have hown : ∀ l, (remoteId, l) ∈ order → l = localId := fun l => (horder l).1
  clear horder
  induction order generalizing s with
  | nil => cases hmem
  | cons entry rest ih =>
      obtain ⟨other,otherLocal⟩ := entry
      rw [reportAll_cons, if_pos (reportItem_goes_on (hclean.answered other))]
      by_cases hother : remoteId = other
      · subst hother
        obtain rfl := hown otherLocal mem_cons_self
        rcases reportItem_self h with ⟨hsent,-⟩ | ⟨-,hmissing,-⟩
        · exact (tellsOf_itemReport hsent (hclean.answered remoteId)).append_right
        · obtain ⟨task,htask,hid⟩ := hclean.listed
          exact absurd hid (hmissing task htask)
      · have htail : (remoteId, localId) ∈ rest := by
          rcases mem_cons.1 hmem with heq | htail
          · exact absurd (congrArg Prod.fst heq) hother
          · exact htail
        exact (ih (h.of_same (reportItem_other hother)) htail
          fun l hl => hown l (mem_cons_of_mem _ hl)).append_left

/-- What waits is told by the first round that goes well, if no round before it has told it. -/
theorem told_of_waiting {rounds : List Round} {last : Round} (hlast : last.Clean localId)
    (h : OffRecord s remoteId) (hbound : ∀ l, (remoteId, l) ∈ s.bindings ↔ l = localId) :
    Told (reportRounds s (rounds ++ [last])) remoteId localId := by
  induction rounds generalizing s with
  | nil =>
      have horder : ∀ l, (remoteId, l) ∈ last.order s.bindings ↔ l = localId :=
        fun l => ((last.order_perm s.bindings).mem_iff).trans (hbound l)
      obtain ⟨report,hreport⟩ := reportAll_clean hlast h horder
      exact ⟨_,mem_singleton_self _,report,hreport⟩
  | cons round rounds ih =>
      have horder : ∀ l, (remoteId, l) ∈ round.order s.bindings → l = localId :=
        fun l hl => (hbound l).1 ((round.order_perm s.bindings).mem_iff.1 hl)
      rcases reportAll_told_or_same h horder with ⟨report,hreport⟩ | hsame
      · exact ⟨_,mem_cons_self,report,hreport⟩
      · obtain ⟨r,hr,hreport⟩ := ih (h.of_same hsame)
          fun l => (hsame.bindings l).trans (hbound l)
        exact ⟨r,mem_cons_of_mem _ hr,hreport⟩

/-- While the local task has the status that is on record, a round sends nothing about it. -/
theorem silent_on_record {task : LocalTask}
    (hrecord : s.reported.lookup remoteId = some (localStatus task.status))
    (hfind : round.localTasks.find? (fun t => t.taskId = localId) = some task)
    (horder : ∀ l, (remoteId, l) ∈ order → l = localId) :
    ∀ report ∈ (reportAll round s order).2, report.remoteId ≠ remoteId := by
  induction order generalizing s with
  | nil => simp [reportAll]
  | cons entry rest ih =>
      obtain ⟨other,otherLocal⟩ := entry
      have hrest : ∀ l, (remoteId, l) ∈ rest → l = localId :=
        fun l hl => horder l (mem_cons_of_mem _ hl)
      have hitem : ∀ report ∈ itemReport round s other otherLocal, report.remoteId ≠ remoteId := by
        intro report hreport
        by_cases hother : remoteId = other
        · subst hother
          obtain rfl := horder otherLocal mem_cons_self
          simp [itemReport, sentStatus, hfind, hrecord] at hreport
        · simp only [itemReport, Option.mem_toList, Option.map_eq_some_iff] at hreport
          obtain ⟨status,-,rfl⟩ := hreport
          exact fun heq => hother heq.symm
      have hkept : (reportItem s other otherLocal round.localTasks
          (round.outcome other)).1.reported.lookup remoteId = some (localStatus task.status) := by
        by_cases hother : remoteId = other
        · subst hother
          obtain rfl := horder otherLocal mem_cons_self
          rw [reportItem_found hfind]
          simp only [reportStatusIfChanged, seen, hrecord, if_true]
        · rw [(reportItem_other hother).reported]
          exact hrecord
      rw [reportAll_cons]
      split_ifs
      · intro report hreport
        rcases mem_append.1 hreport with hreport | hreport
        · exact hitem report hreport
        · exact ih hkept hrest report hreport
      · exact hitem

/-- A round that lists a local task of one status and to which the cloud answers well. -/
def quietRound (localId : String) (status : ℤ) : Round where
  order bindings := bindings
  order_perm _ := .refl _
  localTasks := [⟨localId,"","","","",status⟩]
  outcome _ := .ok

theorem quietRound_clean (localId : String) (status : ℤ) :
    (quietRound localId status).Clean localId :=
  ⟨⟨_,mem_singleton_self _,rfl⟩,fun _ h => by cases h⟩

/-- One round serves every task that it should, and leaves what it did not announce to the
reports, exactly when no failing entry blocks another one. -/
theorem served_iff_unblocked (s : State) (entries : List Entry) :
    Served s entries ↔ Unblocked s entries := by
  have hfree : ∀ e ∈ entries.filter (Eligible s), Unbound s e := by
    intro e he
    exact (of_decide_eq_true (mem_filter.1 he).2).2
  have hall := allCreated_iff s (entries.filter (Eligible s))
  rw [Served, acceptPendingDispatches_eq]
  constructor
  · rintro ⟨hcreated,htold⟩
    have hafter : NothingAfter s (entries.filter (Eligible s)) := by
      refine hall.1 fun f hf _ hcreates => hcreated f (mem_filter.1 hf).1 ?_ hcreates
      exact of_decide_eq_true (mem_filter.1 hf).2
    constructor
    · intro front e back hsplit hfirst hfails f hf
      refine hafter front e back hsplit (hfree e (by rw [hsplit]; simp)) hfirst hfails f hf ?_
      exact hfree f (by rw [hsplit]; simp [hf])
    · intro front e back hsplit hfirst hcreates hsilent status hrecord
      obtain ⟨c,hc,hce,hnot,hwaiting⟩ := waiting_of_unannounced hafter
        ⟨hfree e (by rw [hsplit]; simp),⟨front,back,hsplit,hfirst⟩,hcreates,hsilent⟩
      rcases htold c hc with haccepted | hlater
      · exact hnot haccepted
      · obtain ⟨r,hr,report,hreport,hid,-⟩ :=
          hlater [] (quietRound c.localId status) (quietRound_clean c.localId status)
        obtain rfl := mem_singleton.1 hr
        have honRecord := hwaiting.on_record
        rw [hce, hrecord, ← hce] at honRecord
        have hquiet : (quietRound c.localId status).localTasks.find?
            (fun t => t.taskId = c.localId) = some ⟨c.localId,"","","","",status⟩ := by
          simp [quietRound]
        exact silent_on_record honRecord hquiet (fun l hl => (hwaiting.bound l).1 hl) report
          hreport hid
  · intro hunblocked
    have hafter : NothingAfter s (entries.filter (Eligible s)) := by
      intro front e back hsplit _ hfirst hfails f hf _
      exact hunblocked.nothing_after front e back hsplit hfirst hfails f hf
    constructor
    · intro f hf heligible
      refine hall.2 hafter f (mem_filter.2 ⟨hf,decide_eq_true heligible⟩) heligible.2
    · intro c hc
      rcases created_waiting hc with haccepted | ⟨e,he,hce,hwaiting⟩
      · exact .inl haccepted
      · right
        intro rounds last hlast
        obtain ⟨front,back,hsplit,hfirst⟩ := he.first
        have hoff : OffRecord (acceptDispatches s (entries.filter (Eligible s))).state
            c.remoteId := by
          intro status
          rw [hwaiting.on_record, hce]
          exact hunblocked.nothing_on_record front e back hsplit hfirst he.creates he.silent status
        exact told_of_waiting hlast hoff hwaiting.bound

def sampleTask (id : String) : RemoteTask where
  id := id
  toDevice := "desk"
  url := "http://host/" ++ id
  fileName := id
  saveDir := none
  status := .pending

/-- A task that the daemon refuses keeps the one behind it from being created. -/
theorem refused_head_starves :
    ¬ Served (start "desk" [] [] [])
      [⟨sampleTask "a",.failed,true⟩, ⟨sampleTask "b",.created (some "7"),true⟩] := by
  rintro ⟨hcreated,-⟩
  obtain ⟨c,hc,-⟩ := hcreated ⟨sampleTask "b",.created (some "7"),true⟩ (by simp) (by decide)
    ⟨"7",rfl⟩
  have hnone : (acceptPendingDispatches (start "desk" [] [] [])
      [⟨sampleTask "a",.failed,true⟩,
        ⟨sampleTask "b",.created (some "7"),true⟩]).created = [] := by decide
  rw [hnone] at hc
  cases hc

end RinaDown.PendingDispatches
