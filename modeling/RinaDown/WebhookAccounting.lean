import RinaDown.Lists
import RinaDown.WebhookDispatcher

/-!
# Accounts of webhook jobs

Every worker stands in the table under the id of its endpoint, so a job for an endpoint always
finds the same worker, and what is recorded, delivered and queued for an endpoint is what was sent.
-/

namespace RinaDown.WebhookAccounting

open KeyedTable LabelledExecutions RinaDown.Lists WebhookDelivery WebhookDispatcher List Option

/-! ## Lists -/

variable {α : Type*} {s : Inner} {w : ℕ} {a : Worker}

/-! ## Queues -/

def holdsPermit (worker : Worker) : Bool := worker.current.any fun running => running.2.holds

structure Queues (s : Inner) : Prop where
  poisoned : s.poisoned = false
  known : ∀ (w : ℕ) (a : Worker), s.spawned[w]? = some a → s.workers.lookup a.id = some w
  found : ∀ id w, s.workers.lookup id = some w → ∃ a, s.spawned[w]? = some a ∧ a.id = id
  ordered : ∀ (w : ℕ) (a : Worker), s.spawned[w]? = some a →
    recordedFor s a.id ++ a.jobs = enqueuedFor s a.id
  unknown : ∀ id, s.workers.lookup id = none → recordedFor s id = [] ∧ enqueuedFor s id = []
  permits : s.permits + s.spawned.countP holdsPermit = maxConcurrentDeliveries
  running : ∀ (w : ℕ) (a : Worker) (job : Job) (progress : Progress), s.spawned[w]? = some a →
    a.current = some (job, progress) →
      progress.Within maxAttempts ∧ progress.record.Describes job.spec job.event
  records : ∀ r ∈ s.records, r.2.attempts ≤ maxAttempts ∧ r.2.Describes r.1.spec r.1.event

theorem queues_newInner : Queues newInner where
  poisoned := rfl
  known _ _ h := nomatch h
  found _ _ h := nomatch h
  ordered _ _ h := nomatch h
  unknown _ _ := ⟨rfl,rfl⟩
  permits := rfl
  running _ _ _ _ h := nomatch h
  records _ h := nomatch h

theorem Queues.frame (h : Queues s) (endpoints : List EndpointSpec) (anyEnabled : Bool)
    (reloads : List Bool) (emits : List Emit) :
    Queues { s with endpoints, anyEnabled, reloads, emits } :=
  ⟨h.poisoned,h.known,h.found,h.ordered,h.unknown,h.permits,h.running,h.records⟩

/-- A worker for an endpoint is the one in the table. -/
theorem workerFor_spec (h : Queues s) (id : String) :
    Queues (workerFor s id).1 ∧ (workerFor s id).1.workers.lookup id = some (workerFor s id).2 ∧
      (∀ other w, s.workers.lookup other = some w →
        (workerFor s id).1.workers.lookup other = some w) ∧
      (workerFor s id).1.emits = s.emits ∧ (workerFor s id).1.enqueued = s.enqueued := by
  rw [workerFor, if_neg (by rw [h.poisoned]; decide)]
  cases hlookup : s.workers.lookup id with
  | some existing => exact ⟨h,hlookup,fun _ _ hother => hother,rfl,rfl⟩
  | none =>
      have hnew : (insert id s.spawned.length s.workers).lookup id = some s.spawned.length := by
        rw [lookup_insert, if_pos rfl]
      have hold : ∀ other w, s.workers.lookup other = some w →
          (insert id s.spawned.length s.workers).lookup other = some w := by
        intro other w hother
        rw [lookup_insert, if_neg, hother]
        rintro rfl
        rw [hlookup] at hother
        cases hother
      refine ⟨⟨h.poisoned,?_,?_,?_,?_,?_,?_,h.records⟩,hnew,hold,rfl,rfl⟩
      · intro w a ha
        rcases getElem?_concat_or ha with ha | ⟨rfl,rfl⟩
        · exact hold a.id w (h.known w a ha)
        · exact hnew
      · intro other w hother
        change (insert id s.spawned.length s.workers).lookup other = some w at hother
        rw [lookup_insert] at hother
        split_ifs at hother with hsame
        · cases hother
          exact ⟨_,getElem?_concat_length,hsame.symm⟩
        · obtain ⟨a,ha,hid⟩ := h.found other w hother
          have hlt := (List.getElem?_eq_some_iff.mp ha).1
          exact ⟨a,(getElem?_append_left hlt).trans ha,hid⟩
      · intro w a ha
        rcases getElem?_concat_or ha with ha | ⟨rfl,rfl⟩
        · exact h.ordered w a ha
        · obtain ⟨hrecorded,henqueued⟩ := h.unknown id hlookup
          exact (congrArg (· ++ []) hrecorded).trans henqueued.symm
      · intro other hother
        apply h.unknown
        change (insert id s.spawned.length s.workers).lookup other = none at hother
        rw [lookup_insert] at hother
        split_ifs at hother
        exact hother
      · change s.permits + (s.spawned ++ [_]).countP holdsPermit = _
        rw [countP_append]
        exact h.permits
      · intro w a job progress ha hcurrent
        rcases getElem?_concat_or ha with ha | ⟨rfl,rfl⟩
        · exact h.running w a job progress ha hcurrent
        · cases hcurrent

theorem enqueuedFor_sendJob (s : Inner) (w : ℕ) (job : Job) (id : String) :
    enqueuedFor (sendJob s w job) id =
      enqueuedFor s id ++ if job.spec.id = id then [job] else [] := by
  rw [enqueuedFor, sendJob, filter_append, ← enqueuedFor]
  by_cases hid : job.spec.id = id
  · simp [hid]
  · simp [hid]

theorem Queues.sendJob (h : Queues s) {job : Job} (hw : s.workers.lookup job.spec.id = some w) :
    Queues (sendJob s w job) where
  poisoned := h.poisoned
  known v a ha := by
    rcases getElem?_modify_or ha with ⟨-,ha⟩ | ⟨rfl,b,hb,rfl⟩
    · exact h.known v a ha
    · exact h.known w b hb
  found id v hv := by
    obtain ⟨a,ha,hid⟩ := h.found id v hv
    refine ⟨_,(getElem?_modify _ _ _ _).trans (congrArg _ ha),?_⟩
    split_ifs <;> exact hid
  ordered v a ha := by
    rw [enqueuedFor_sendJob]
    rcases getElem?_modify_or ha with ⟨hne,ha⟩ | ⟨rfl,b,hb,rfl⟩
    · have hother : job.spec.id ≠ a.id := by
        intro hsame
        have hknown := h.known v a ha
        rw [← hsame, hw] at hknown
        exact hne (some.inj hknown)
      rw [if_neg hother, append_nil]
      exact h.ordered v a ha
    · have hown : job.spec.id = b.id := by
        obtain ⟨c,hc,hid⟩ := h.found job.spec.id w hw
        rw [some.inj (hb.symm.trans hc), hid]
      rw [if_pos hown, ← h.ordered w b hb, append_assoc]
      exact congrArg (recordedFor s b.id ++ ·) (append_assoc _ _ _).symm
  unknown id hid := by
    obtain ⟨hrecorded,henqueued⟩ := h.unknown id hid
    refine ⟨hrecorded,?_⟩
    rw [enqueuedFor_sendJob, if_neg, henqueued, append_nil]
    rintro rfl
    cases hw.symm.trans hid
  permits := by
    obtain ⟨a,ha,-⟩ := h.found job.spec.id w hw
    have hcount := countP_set_add holdsPermit { a with queue := a.queue ++ [job] } ha
    rw [← h.permits]
    change s.permits + (s.spawned.modify w _).countP holdsPermit = _
    rw [modify_eq_set_getElem?, ha]
    exact congrArg (s.permits + ·) (Nat.add_right_cancel hcount)
  running v a job progress ha hcurrent := by
    rcases getElem?_modify_or ha with ⟨-,ha⟩ | ⟨rfl,b,hb,rfl⟩
    · exact h.running v a job progress ha hcurrent
    · exact h.running w b job progress hb hcurrent
  records := h.records

theorem Queues.setWorker (h : Queues s) {b : Worker} {permits : ℕ} (ha : s.spawned[w]? = some a)
    (hid : b.id = a.id) (hjobs : b.jobs = a.jobs)
    (hpermits : permits + (if holdsPermit b then 1 else 0) = s.permits + if holdsPermit a then 1 else 0)
    (hrunning : ∀ job progress, b.current = some (job, progress) → progress.Within maxAttempts ∧
      progress.record.Describes job.spec job.event) :
    Queues (setWorker s w b permits) where
  poisoned := h.poisoned
  known v c hc := by
    rcases getElem?_set_or hc with ⟨-,hc⟩ | ⟨rfl,rfl⟩
    · exact h.known v c hc
    · rw [hid]
      exact h.known w a ha
  found id v hv := by
    obtain ⟨c,hc,hcid⟩ := h.found id v hv
    by_cases hwv : w = v
    · subst hwv
      obtain rfl := some.inj (ha.symm.trans hc)
      exact ⟨b,List.getElem?_set_self (List.getElem?_eq_some_iff.mp ha).1,hid.trans hcid⟩
    · exact ⟨c,(getElem?_set_ne hwv).trans hc,hcid⟩
  ordered v c hc := by
    rcases getElem?_set_or hc with ⟨-,hc⟩ | ⟨rfl,rfl⟩
    · exact h.ordered v c hc
    · rw [hid, hjobs]
      exact h.ordered w a ha
  unknown := h.unknown
  permits := by
    have hcount := countP_set_add holdsPermit b ha
    have htotal := h.permits
    change permits + (s.spawned.set w b).countP holdsPermit = _
    omega
  running v c job progress hc hcurrent := by
    rcases getElem?_set_or hc with ⟨-,hc⟩ | ⟨rfl,rfl⟩
    · exact h.running v c job progress hc hcurrent
    · exact hrunning job progress hcurrent
  records := h.records

theorem recordedFor_push (s : Inner) (w : ℕ) (a : Worker) (job : Job) (record : Delivery)
    (id : String) : recordedFor (push s w a job record) id =
      recordedFor s id ++ if job.spec.id = id then [job] else [] := by
  rw [recordedFor, push, map_append, filter_append, ← recordedFor]
  by_cases hid : job.spec.id = id
  · simp [hid]
  · simp [hid]

theorem Queues.own (h : Queues s) (ha : s.spawned[w]? = some a) {job : Job} (hjob : job ∈ a.jobs) :
    job.spec.id = a.id := by
  have hmem : job ∈ enqueuedFor s a.id := by
    rw [← h.ordered w a ha]
    exact mem_append_right _ hjob
  simpa using of_mem_filter hmem

theorem Queues.push (h : Queues s) {job : Job} {record : Delivery} (ha : s.spawned[w]? = some a)
    (hcurrent : a.current = some (job, .done record)) :
    Queues (push s w a job record) := by
  have hjobs : a.jobs = job :: a.queue := by
    rw [Worker.jobs, hcurrent]
    rfl
  have hown : job.spec.id = a.id := h.own ha (by rw [hjobs]; exact mem_cons_self)
  obtain ⟨hwithin,hdescribes⟩ := h.running w a job _ ha hcurrent
  refine ⟨h.poisoned,?_,?_,?_,?_,?_,?_,?_⟩
  · intro v c hc
    rcases getElem?_set_or hc with ⟨-,hc⟩ | ⟨rfl,rfl⟩
    · exact h.known v c hc
    · exact h.known w a ha
  · intro id v hv
    obtain ⟨c,hc,hcid⟩ := h.found id v hv
    by_cases hwv : w = v
    · subst hwv
      obtain rfl := some.inj (ha.symm.trans hc)
      exact ⟨_,List.getElem?_set_self (List.getElem?_eq_some_iff.mp ha).1,hcid⟩
    · exact ⟨c,(getElem?_set_ne hwv).trans hc,hcid⟩
  · intro v c hc
    rw [recordedFor_push]
    rcases getElem?_set_or hc with ⟨hne,hc⟩ | ⟨rfl,rfl⟩
    · have hother : job.spec.id ≠ c.id := by
        intro hsame
        have hknown := h.known v c hc
        rw [← hsame, hown, h.known w a ha] at hknown
        exact hne (some.inj hknown)
      rw [if_neg hother, append_nil]
      exact h.ordered v c hc
    · have hordered := h.ordered w a ha
      rw [hjobs] at hordered
      rw [if_pos hown, append_assoc]
      exact hordered
  · intro id hid
    obtain ⟨hrecorded,henqueued⟩ := h.unknown id hid
    refine ⟨?_,henqueued⟩
    rw [recordedFor_push, if_neg, hrecorded, append_nil]
    rintro rfl
    rw [hown] at hid
    cases (h.known w a ha).symm.trans hid
  · have hcount := countP_set_add holdsPermit { a with current := none } ha
    have hfree : holdsPermit a = false := by
      rw [holdsPermit, hcurrent]
      rfl
    rw [hfree] at hcount
    exact (congrArg (s.permits + ·) hcount).trans h.permits
  · intro v c job' progress hc hcurrent'
    rcases getElem?_set_or hc with ⟨-,hc⟩ | ⟨rfl,rfl⟩
    · exact h.running v c job' progress hc hcurrent'
    · cases hcurrent'
  · intro r hr
    rcases mem_append.mp hr with hr | hr
    · exact h.records r hr
    · cases mem_singleton.mp hr
      exact ⟨hwithin,hdescribes⟩

/-! ## Steps of workers -/

def cost (worker : Worker) : ℕ :=
  (worker.current.elim 0 fun running => running.2.cost maxAttempts) +
    worker.queue.length * (maxAttempts + 3)

/-- How many steps the workers take at most. -/
def work (s : Inner) : ℕ := (s.spawned.map cost).sum

section
variable {parseUrl : String → Option Url} {s t : Inner} {w : ℕ} {a : Worker} {action : Action}

theorem workerStep_frame (hstep : workerStep parseUrl s w a action = some t) :
    t.emits = s.emits ∧ t.enqueued = s.enqueued ∧ t.workers = s.workers := by
  unfold workerStep at hstep
  split at hstep
  · cases hstep
    exact ⟨rfl,rfl,rfl⟩
  · split_ifs at hstep
    cases hstep
    exact ⟨rfl,rfl,rfl⟩
  · cases hstep
    exact ⟨rfl,rfl,rfl⟩
  · cases hstep
    exact ⟨rfl,rfl,rfl⟩
  · cases hstep

theorem Queues.workerStep (h : Queues s) (ha : s.spawned[w]? = some a)
    (hstep : workerStep parseUrl s w a action = some t) : Queues t ∧ work t < work s := by
  unfold WebhookDispatcher.workerStep at hstep
  split at hstep
  next job queue hcurrent hqueue =>
    cases hstep
    obtain ⟨hwithin,hdescribes,hholds,hcost⟩ :=
      deliver_spec parseUrl job.spec job.event maxAttempts
    refine ⟨h.setWorker ha rfl ?_ ?_ ?_,sum_map_set_lt cost ha ?_⟩
    · rw [Worker.jobs, Worker.jobs, hcurrent, hqueue]
      rfl
    · simp [holdsPermit, hcurrent, hholds]
    · intro job' progress hprogress
      cases hprogress
      exact ⟨hwithin,hdescribes⟩
    · rw [cost, cost, hcurrent, hqueue, length_cons, elim_some, elim_none]
      change (deliver parseUrl job.spec job.event).cost maxAttempts +
        queue.length * (maxAttempts + 3) < _
      rw [Nat.succ_mul]
      omega
  next job record hcurrent =>
    split_ifs at hstep with hpermits
    cases hstep
    obtain ⟨hwithin,hdescribes⟩ := h.running w a job _ ha hcurrent
    refine ⟨h.setWorker ha rfl ?_ ?_ ?_,sum_map_set_lt cost ha ?_⟩
    · rw [Worker.jobs, Worker.jobs, hcurrent]
      rfl
    · simp only [holdsPermit, hcurrent, any_some, Progress.holds]
      simp
      omega
    · intro job' progress hprogress
      cases hprogress
      exact ⟨⟨by rw [hwithin]; decide,by decide⟩,hdescribes⟩
    · rw [cost, cost, hcurrent, elim_some, elim_some, Progress.cost, Progress.cost]
      exact Nat.add_lt_add_right (by decide) _
  next reply job record n hcurrent =>
    cases hstep
    obtain ⟨⟨hlt,hn⟩,hdescribes⟩ := h.running w a job _ ha hcurrent
    obtain ⟨hwithin,hdescribes,hcost⟩ := attempt_spec hn hdescribes reply
    refine ⟨h.setWorker ha rfl ?_ ?_ ?_,sum_map_set_lt cost ha ?_⟩
    · rw [Worker.jobs, Worker.jobs, hcurrent]
      rfl
    · simp only [holdsPermit, hcurrent, any_some]
      split_ifs <;> simp_all [Progress.holds]
    · intro job' progress hprogress
      cases hprogress
      exact ⟨hwithin,hdescribes⟩
    · rw [cost, cost, hcurrent, elim_some, elim_some]
      exact Nat.add_lt_add_right hcost _
  next job record hcurrent =>
    cases hstep
    refine ⟨h.push ha hcurrent,sum_map_set_lt cost ha ?_⟩
    rw [cost, cost, hcurrent]
    exact Nat.add_lt_add_right Nat.one_pos _
  next => cases hstep

end

/-! ## Calls -/

/-- How many targets of a call have no job yet. -/
def left : EmitPhase → ℕ
  | .choosing targets _ => targets.length
  | .sending _ _ targets _ => targets.length + 1
  | _ => 0

def dispatched : EmitPhase → ℕ
  | .checking => 0
  | .choosing _ n | .sending _ _ _ n | .returned n => n

structure Calls (s : Inner) : Prop where
  numbered : s.enqueued.map Job.number = List.range s.enqueued.length
  called : ∀ job ∈ s.enqueued, job.call < s.emits.length
  tally : ∀ (c : ℕ) (call : Emit), s.emits[c]? = some call →
    (sentBy s c).length + left call.phase = dispatched call.phase
  sending : ∀ (c : ℕ) (call : Emit) (spec : EndpointSpec) (w : ℕ) (rest : List EndpointSpec)
    (n : ℕ), s.emits[c]? = some call → call.phase = .sending spec w rest n →
      s.workers.lookup spec.id = some w

theorem calls_newInner : Calls newInner where
  numbered := rfl
  called _ h := nomatch h
  tally _ _ h := nomatch h
  sending _ _ _ _ _ _ h := nomatch h

theorem sentBy_of_le (h : Calls s) {c : ℕ} (hc : s.emits.length ≤ c) :
    sentBy s c = [] := by
  apply filter_eq_nil_iff.mpr
  intro job hjob hcall
  have := h.called job hjob
  rw [of_decide_eq_true hcall] at this
  omega

theorem Calls.emit (h : Calls s) (event : WebhookEvent) {phase : EmitPhase} (hleft : left phase = 0)
    (hdispatched : dispatched phase = 0)
    (hsending : ∀ spec w rest n, phase ≠ .sending spec w rest n) :
    Calls { s with emits := s.emits ++ [⟨event,phase⟩] } where
  numbered := h.numbered
  called job hjob := by
    rw [length_append]
    exact Nat.lt_add_right _ (h.called job hjob)
  tally c call hcall := by
    rcases getElem?_concat_or hcall with hcall | ⟨rfl,rfl⟩
    · exact h.tally c call hcall
    · change (sentBy s s.emits.length).length + left phase = dispatched phase
      rw [sentBy_of_le h le_rfl, hleft, hdispatched]
      rfl
  sending c call spec w rest n hcall hphase := by
    rcases getElem?_concat_or hcall with hcall | ⟨rfl,rfl⟩
    · exact h.sending c call spec w rest n hcall hphase
    · exact absurd hphase (hsending spec w rest n)

theorem Calls.setPhase {t : Inner} (h : Calls s) {c : ℕ} {call : Emit} {phase : EmitPhase}
    (hcall : s.emits[c]? = some call) (hemits : t.emits = s.emits)
    (henqueued : t.enqueued = s.enqueued)
    (hworkers : ∀ id w, s.workers.lookup id = some w → t.workers.lookup id = some w)
    (hleft : dispatched call.phase + left phase = dispatched phase + left call.phase)
    (hsending : ∀ spec w rest n, phase = .sending spec w rest n → t.workers.lookup spec.id = some w)
    : Calls (setPhase t c call phase) where
  numbered := by
    change t.enqueued.map Job.number = List.range t.enqueued.length
    rw [henqueued]
    exact h.numbered
  called job hjob := by
    change job ∈ t.enqueued at hjob
    change job.call < (t.emits.set c _).length
    rw [length_set, hemits]
    exact h.called job (henqueued ▸ hjob)
  tally d other hother := by
    have hsent : sentBy (WebhookDispatcher.setPhase t c call phase) d = sentBy s d := by
      change t.enqueued.filter _ = _
      rw [henqueued]
      rfl
    rw [hsent]
    change (t.emits.set c _)[d]? = some other at hother
    rw [hemits] at hother
    rcases getElem?_set_or hother with ⟨-,hother⟩ | ⟨rfl,rfl⟩
    · exact h.tally d other hother
    · have := h.tally c call hcall
      change _ + left phase = dispatched phase
      omega
  sending d other spec w rest n hother hphase := by
    change (t.emits.set c _)[d]? = some other at hother
    rw [hemits] at hother
    rcases getElem?_set_or hother with ⟨-,hother⟩ | ⟨rfl,rfl⟩
    · exact hworkers _ _ (h.sending d other spec w rest n hother hphase)
    · exact hsending spec w rest n hphase

theorem Calls.send (h : Calls s) {c : ℕ} {call : Emit} {spec : EndpointSpec}
    {rest : List EndpointSpec} {n : ℕ} (hcall : s.emits[c]? = some call)
    (hphase : call.phase = .sending spec w rest n) : Calls (send s c w call spec rest n) where
  numbered := by
    change (s.enqueued ++ [_]).map Job.number = List.range (s.enqueued ++ [_]).length
    rw [map_append, h.numbered, length_append, length_singleton,
      range_succ]
    rfl
  called job hjob := by
    change job.call < (s.emits.set c _).length
    rw [length_set]
    rcases mem_append.mp hjob with hjob | hjob
    · exact h.called job hjob
    · cases mem_singleton.mp hjob
      exact (List.getElem?_eq_some_iff.mp hcall).1
  tally d other hother := by
    change (List.filter _ (s.enqueued ++ [_])).length + _ = _
    rw [filter_append, length_append]
    rcases getElem?_set_or hother with ⟨hne,hother⟩ | ⟨rfl,rfl⟩
    · rw [filter_singleton, decide_eq_false hne]
      exact h.tally d other hother
    · have htally := h.tally c call hcall
      rw [hphase] at htally
      change (sentBy s c).length + (rest.length + 1) = n at htally
      rw [filter_singleton, decide_eq_true rfl]
      change (sentBy s c).length + 1 + _ = _
      split_ifs with hrest
      · rw [hrest] at htally
        exact htally
      · change (sentBy s c).length + 1 + rest.length = n
        omega
  sending d other spec' w' rest' n' hother hother' := by
    rcases getElem?_set_or hother with ⟨-,hother⟩ | ⟨rfl,rfl⟩
    · exact h.sending d other spec' w' rest' n' hother hother'
    · change (if rest = [] then EmitPhase.returned n else .choosing rest n) = _ at hother'
      split_ifs at hother'

/-! ## Executions -/

structure Inv (s : Inner) : Prop where
  queues : Queues s
  calls : Calls s

variable {parseUrl : String → Option Url}

theorem step_inv (s : Inner) (label : Label) (t : Inner) (h : Inv s)
    (hstep : step parseUrl s label = some t) : Inv t := by
  obtain ⟨hqueues,hcalls⟩ := h
  cases label with
  | reload parsed =>
      cases hstep
      cases parsed with
      | none => exact ⟨hqueues,hcalls⟩
      | some parsed =>
          exact ⟨hqueues.frame _ _ _ _,hcalls.numbered,hcalls.called,hcalls.tally,hcalls.sending⟩
  | storeEnabled r =>
      obtain ⟨enabled,-,rfl⟩ := map_eq_some_iff.mp hstep
      exact ⟨hqueues.frame _ _ _ _,hcalls.numbered,hcalls.called,hcalls.tally,hcalls.sending⟩
  | emit event =>
      cases hstep
      refine ⟨hqueues.frame _ _ _ _,hcalls.emit event ?_ ?_ ?_⟩
      · split_ifs <;> rfl
      · split_ifs <;> rfl
      · intro spec w rest n
        split_ifs <;> exact nofun
  | select c =>
      simp only [step] at hstep
      split at hstep
      next call hcall =>
        split_ifs at hstep with hphase
        cases hstep
        refine ⟨hqueues.frame _ _ _ _,hcalls.setPhase hcall rfl rfl (fun _ _ hold => hold) ?_ ?_⟩
        · rw [hphase]
          split_ifs <;> simp [left, dispatched]
        · intro spec w rest n
          split_ifs <;> exact nofun
      next => cases hstep
  | workerFor c =>
      simp only [step] at hstep
      split at hstep
      next call hcall =>
        split at hstep
        next spec rest n hphase =>
          cases hstep
          obtain ⟨hnew,hfound,hold,hemits,henqueued⟩ := workerFor_spec hqueues spec.id
          refine ⟨hnew.frame _ _ _ _,hcalls.setPhase hcall hemits henqueued hold ?_ ?_⟩
          · rw [hphase]
            rfl
          · intro spec' w rest' n' hsending
            cases hsending
            exact hfound
        next => cases hstep
      next => cases hstep
  | send c =>
      simp only [step] at hstep
      split at hstep
      next call hcall =>
        split at hstep
        next spec w rest n hphase =>
          cases hstep
          have hw := hcalls.sending c call spec w rest n hcall hphase
          exact ⟨Queues.frame (hqueues.sendJob hw) _ _ _ _,hcalls.send hcall hphase⟩
        next => cases hstep
      next => cases hstep
  | work w action =>
      obtain ⟨a,ha,hwork⟩ := bind_eq_some_iff.mp hstep
      obtain ⟨hemits,henqueued,hworkers⟩ := workerStep_frame hwork
      refine ⟨(hqueues.workerStep ha hwork).1,?_,?_,?_,?_⟩
      · rw [henqueued]
        exact hcalls.numbered
      · rw [henqueued, hemits]
        exact hcalls.called
      · rw [hemits]
        unfold sentBy
        rw [henqueued]
        exact hcalls.tally
      · rw [hemits, hworkers]
        exact hcalls.sending

theorem exec_inv {labels : List Label} (h : exec (step parseUrl) newInner labels = some s) :
    Inv s :=
  exec_invariant step_inv ⟨queues_newInner,calls_newInner⟩ h

theorem Inv.accounted (h : Inv s) : Accounted s where
  single w v a b ha hb hid := by
    have hknown := h.queues.known w a ha
    rw [hid, h.queues.known v b hb] at hknown
    exact (some.inj hknown).symm
  own a ha job hjob := by
    obtain ⟨w,hw⟩ := mem_iff_getElem?.mp ha
    exact h.queues.own hw hjob
  ordered a ha := by
    obtain ⟨w,hw⟩ := mem_iff_getElem?.mp ha
    exact h.queues.ordered w a hw
  unknown id hid := by
    apply h.queues.unknown
    by_contra hsome
    obtain ⟨w,hw⟩ := ne_none_iff_exists'.mp hsome
    obtain ⟨a,ha,ha'⟩ := h.queues.found id w hw
    exact hid a (mem_of_getElem? ha) ha'
  distinct := by
    rw [h.calls.numbered]
    exact nodup_range
  counted c call n hcall hphase := by
    have := h.calls.tally c call hcall
    rwa [hphase] at this
  attempts := h.queues.records

/-- No worker can take a step. -/
def AtRest (parseUrl : String → Option Url) (s : Inner) : Prop :=
  ∀ w action, step parseUrl s (.work w action) = none

/-- A worker that has a job can take a step, or waits for a permit while another worker can. -/
theorem Queues.jobs_eq_nil (h : Queues s) (hrest : AtRest parseUrl s) (ha : s.spawned[w]? = some a)
    : a.jobs = [] := by
  have hidle : ∀ v b, s.spawned[v]? = some b → ∀ action,
      WebhookDispatcher.workerStep parseUrl s v b action = none := by
    intro v b hb action
    have := hrest v action
    rwa [step, hb] at this
  -- No worker has a permit, so all are free.
  have hfree : s.spawned.countP holdsPermit = 0 := by
    apply countP_eq_zero.mpr
    intro b hb hholds
    obtain ⟨v,hv⟩ := mem_iff_getElem?.mp hb
    obtain ⟨⟨job,progress⟩,hcurrent,hprogress⟩ := (any_eq_true _ _).mp hholds
    cases progress with
    | attempting record n =>
        have := hidle v b hv (.attempt .timedOut)
        simp [WebhookDispatcher.workerStep, mem_def.mp hcurrent] at this
    | waiting record => cases hprogress
    | done record => cases hprogress
  have hpermits : 0 < s.permits := by
    have := h.permits
    rw [hfree] at this
    rw [← Nat.add_zero s.permits, this]
    decide
  have hstep := hidle w a ha
  cases hcurrent : a.current with
  | none =>
      cases hqueue : a.queue with
      | nil => rw [Worker.jobs, hcurrent, hqueue]; rfl
      | cons job queue =>
          have := hstep .receive
          simp [WebhookDispatcher.workerStep, hcurrent, hqueue] at this
  | some running =>
      obtain ⟨job,progress⟩ := running
      cases progress with
      | waiting record =>
          have := hstep .acquire
          simp [WebhookDispatcher.workerStep, hcurrent, hpermits] at this
      | attempting record n =>
          have := hstep (.attempt .timedOut)
          simp [WebhookDispatcher.workerStep, hcurrent] at this
      | done record =>
          have := hstep .push
          simp [WebhookDispatcher.workerStep, hcurrent] at this

/-- When no worker can take a step, every job that was sent has its record. -/
theorem Inv.recorded (h : Inv s) (hrest : AtRest parseUrl s) (id : String) :
    recordedFor s id = enqueuedFor s id := by
  cases hlookup : s.workers.lookup id with
  | none =>
      obtain ⟨hrecorded,henqueued⟩ := h.queues.unknown id hlookup
      rw [hrecorded, henqueued]
  | some w =>
      obtain ⟨a,ha,rfl⟩ := h.queues.found id w hlookup
      have hordered := h.queues.ordered w a ha
      rwa [h.queues.jobs_eq_nil hrest ha, append_nil] at hordered

/-- Workers that go on come to rest, and nothing is sent by them. -/
theorem exec_work {t : Inner} {actions : List (ℕ × Action)} (h : Inv s)
    (hexec : exec (step parseUrl) s (actions.map fun a => .work a.1 a.2) = some t) :
    actions.length + work t ≤ work s ∧ t.enqueued = s.enqueued := by
  induction actions generalizing s with
  | nil =>
      cases hexec
      exact ⟨(Nat.zero_add _).le,rfl⟩
  | cons a actions ih =>
      obtain ⟨r,hr,hrest⟩ := exec_cons_iff.mp hexec
      obtain ⟨worker,hworker,hwork⟩ := bind_eq_some_iff.mp hr
      have hlt := (h.queues.workerStep hworker hwork).2
      obtain ⟨hle,henqueued⟩ := ih (step_inv s _ r h hr) hrest
      refine ⟨?_,henqueued.trans (workerStep_frame hwork).2.1⟩
      rw [length_cons]
      omega

def sampleEndpoint : EndpointSpec :=
  ⟨"a","https://a.example/hook",true,["task.completed"],"",false⟩

def sampleUrl (url : String) : Option Url :=
  if url = "https://a.example/hook" then some ⟨"https",some "a.example"⟩ else none

/-- Two calls race for the worker of an endpoint. -/
def racingLabels : List Label :=
  [.reload (some [sampleEndpoint]), .storeEnabled 0, .emit ⟨.taskCompleted,"main"⟩,
    .emit ⟨.taskCompleted,"later"⟩, .select 0, .select 1, .workerFor 0, .workerFor 1, .send 1,
    .send 0, .work 0 .receive, .work 0 .acquire, .work 0 (.attempt .timedOut),
    .work 0 (.attempt (.response 200)), .work 0 .push]

end RinaDown.WebhookAccounting
