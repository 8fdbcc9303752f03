import Mathlib.Data.List.Perm.Basic
import RinaDown.Lists
import RinaDown.WebhookNotifier

/-!
# What the host is told of

Every record that is pushed is followed by a snapshot, but a snapshot has the newest records
only. The host gets every record if no snapshot comes too late for one, and the last event is
up to date if no snapshot overtakes another on its way to the host.
-/

namespace RinaDown.WebhookSnapshots

open LabelledExecutions RinaDown.Lists WebhookDispatcher WebhookNotifier List Option

variable {Record : Type}

/-- The records that are in no snapshot yet and would not be in the next one. -/
def overdue (s : Inner Record) : List (Push Record) :=
  (s.pushed.take (s.pushed.length - wireDeltaLimit)).drop s.taken

/-- A snapshot is taken when no record that was pushed with a sink is overdue for it, and sent when
no later one has been sent. -/
def InTime (s : Inner Record) : Label Record → Prop
  | .advance i =>
    match s.tasks[i]? with
    | some .snapshotting => ∀ p ∈ overdue s, p.sink = false
    | some (.sending _ taken) => ∀ e ∈ s.events, e.taken ≤ taken
    | _ => True
  | _ => True

instance (s : Inner Record) (label : Label Record) : Decidable (InTime s label) := by
  unfold InTime
  split
  · split <;> infer_instance
  · infer_instance

def rank : HostTask Record → ℕ
  | .pushing _ => 10
  | .notifying => 9
  | .reading => 8
  | .comparing _ => 7
  | .delaying _ => 6
  | .sleeping _ => 5
  | .waking => 4
  | .emitting => 3
  | .snapshotting => 2
  | .sending _ _ => 1

/-- Every record that was pushed with a sink is in a later event when all tasks are done, and the
last event has the last record. Until then the tasks can go on, and come to an end. -/
structure Told (s : Inner Record) : Prop where
  all : s.tasks = [] → ∀ p ∈ s.pushed, p.sink = true →
    ∃ k e, s.events[k]? = some e ∧ p.before ≤ k ∧ p.record ∈ e.entries
  last : s.tasks = [] → ∀ p ∈ s.pushed.getLast?, p.sink = true →
    ∃ e ∈ s.events.getLast?, p.record ∈ e.entries
  goesOn : ∀ i task, s.tasks[i]? = some task →
    ∃ d s', exec step s [.tick d, .advance i] = some s' ∧
      (s'.tasks.map rank).sum < (s.tasks.map rank).sum

/-! ## The invariant -/

/-- A snapshot on its way, or an event, as far as the records are concerned. -/
def InFlight (s : Inner Record) (entries : List Record) (taken : ℕ) : Prop :=
  .sending entries taken ∈ s.tasks ∨ ⟨entries,taken⟩ ∈ s.events

structure Inv (s : Inner Record) : Prop where
  logLength : s.log.length ≤ maxDeliveryLog
  log : ∃ old, s.log.reverse = ((s.pushed.map Push.record).reverse ++ old).take maxDeliveryLog
  takenLe : s.taken ≤ s.pushed.length
  before : ∀ p ∈ s.pushed, p.before ≤ s.events.length
  sink : ∀ p ∈ s.pushed, p.sink = true → s.sink = true
  pending : s.emitPending = true → ∃ wake, .sleeping wake ∈ s.tasks
  -- a record without a snapshot has a task that will take one
  owed : (∃ p ∈ s.pushed.drop s.taken, p.sink = true) →
    ∃ task ∈ s.tasks, 1 < rank task
  covered : ∀ p ∈ s.pushed.take s.taken, p.sink = true →
    (∃ k e, s.events[k]? = some e ∧ p.before ≤ k ∧ p.record ∈ e.entries) ∨
      ∃ entries taken, .sending entries taken ∈ s.tasks ∧ p.record ∈ entries
  upTo : ∀ entries taken, InFlight s entries taken → taken ≤ s.taken ∧
    ∀ p ∈ (s.pushed.take taken).getLast?, p.record ∈ entries
  latest : 0 < s.taken → ∃ entries, InFlight s entries s.taken
  sorted : s.events.Pairwise fun e e' => e.taken ≤ e'.taken

variable {s : Inner Record} {i : ℕ}

/-! ## Tasks -/

section
variable {α : Type*} {l : List α} {x y y' : α}

theorem mem_set_self (h : l[i]? = some y) (y' : α) : y' ∈ l.set i y' :=
  List.mem_set (List.getElem?_eq_some_iff.mp h).1 y'

theorem mem_set_iff (h : l[i]? = some y) (hne : x ≠ y) (hne' : x ≠ y') :
    x ∈ l.set i y' ↔ x ∈ l :=
  ⟨fun hx => (mem_or_eq_of_mem_set hx).resolve_right hne',fun hx => mem_set_of_ne h hx hne⟩

theorem mem_eraseIdx_iff (h : l[i]? = some y) (hne : x ≠ y) : x ∈ l.eraseIdx i ↔ x ∈ l := by
  refine ⟨fun hx => (eraseIdx_sublist l i).subset hx,fun hx => ?_⟩
  obtain ⟨hi,rfl⟩ := List.getElem?_eq_some_iff.mp h
  have hperm := (getElem_cons_eraseIdx_perm hi).symm.subset hx
  exact (mem_cons.mp hperm).resolve_left hne

end

variable {s' : Inner Record} {task task' : HostTask Record}

theorem ne_of_rank {entries : List Record} {taken : ℕ} (h : 1 < rank task) :
    .sending entries taken ≠ task := by
  rintro rfl
  exact absurd h (Nat.lt_irrefl 1)

theorem sleeping_ne (h : rank task ≠ 5) (wake : ℕ) : .sleeping wake ≠ task := by
  rintro rfl
  exact h rfl

/-- Only tasks have changed, and none that sends a snapshot. -/
structure SameHistory (s s' : Inner Record) : Prop where
  log : s'.log = s.log
  pushed : s'.pushed = s.pushed
  events : s'.events = s.events
  taken : s'.taken = s.taken
  sending : ∀ entries taken, .sending entries taken ∈ s'.tasks ↔ .sending entries taken ∈ s.tasks

theorem SameHistory.inFlight (h : SameHistory s s') (entries : List Record) (taken : ℕ) :
    InFlight s' entries taken ↔ InFlight s entries taken := by
  rw [InFlight, InFlight, h.sending, h.events]

theorem Inv.same (h : Inv s) (hs : SameHistory s s') (hsink : s.sink = true → s'.sink = true)
    (hpending : s'.emitPending = true → ∃ wake, .sleeping wake ∈ s'.tasks)
    (howed : (∃ p ∈ s.pushed, p.sink = true) → (∃ task ∈ s.tasks, 1 < rank task) →
      ∃ task ∈ s'.tasks, 1 < rank task) : Inv s' where
  logLength := hs.log ▸ h.logLength
  log := by
    rw [hs.log, hs.pushed]
    exact h.log
  takenLe := by
    rw [hs.taken, hs.pushed]
    exact h.takenLe
  before := by
    rw [hs.pushed, hs.events]
    exact h.before
  sink p hp hflag := hsink (h.sink p (hs.pushed ▸ hp) hflag)
  pending := hpending
  owed := by
    rw [hs.pushed, hs.taken]
    rintro ⟨p,hp,hflag⟩
    exact howed ⟨p,mem_of_mem_drop hp,hflag⟩ (h.owed ⟨p,hp,hflag⟩)
  covered := by
    rw [hs.pushed, hs.taken, hs.events]
    simp only [hs.sending]
    exact h.covered
  upTo entries taken hflight := by
    rw [hs.pushed, hs.taken]
    exact h.upTo entries taken ((hs.inFlight entries taken).mp hflight)
  latest := by
    rw [hs.taken]
    simp only [hs.inFlight]
    exact h.latest
  sorted := hs.events ▸ h.sorted

theorem Inv.goOn (h : Inv s) (htask : s.tasks[i]? = some task) (hrank : 1 < rank task)
    (hrank' : 1 < rank task') (hsame : s'.log = s.log ∧ s'.sink = s.sink ∧ s'.pushed = s.pushed ∧
      s'.events = s.events ∧ s'.taken = s.taken) (htasks : s'.tasks = s.tasks.set i task')
    (hpending : s'.emitPending = true → ∃ wake, .sleeping wake ∈ s'.tasks) : Inv s' := by
  obtain ⟨hlog,hsink,hpushed,hevents,htaken⟩ := hsame
  refine h.same ⟨hlog,hpushed,hevents,htaken,fun entries taken => ?_⟩ (fun hs => hsink ▸ hs)
    hpending fun _ _ => ⟨task',?_,hrank'⟩
  · rw [htasks]
    exact mem_set_iff htask (ne_of_rank hrank) (ne_of_rank hrank')
  · rw [htasks]
    exact mem_set_self htask task'

theorem Inv.finish (h : Inv s) (htask : s.tasks[i]? = some task) (hrank : 1 < rank task)
    (hwake : rank task ≠ 5)
    (howed : s.sink = true → ∃ task' ∈ s.tasks.eraseIdx i, 1 < rank task') :
    Inv (finish s i) := by
  refine h.same ⟨rfl,rfl,rfl,rfl,fun entries taken => ?_⟩ id (fun hpending => ?_)
    fun ⟨p,hp,hflag⟩ _ => howed (h.sink p hp hflag)
  · exact mem_eraseIdx_iff htask (ne_of_rank hrank)
  · obtain ⟨wake,hsleeping⟩ := h.pending hpending
    exact ⟨wake,(mem_eraseIdx_iff htask (sleeping_ne hwake wake)).mpr hsleeping⟩

theorem pending_set (h : Inv s) (htask : s.tasks[i]? = some task) (hwake : rank task ≠ 5)
    (task' : HostTask Record) (hpending : s.emitPending = true) :
    ∃ wake, .sleeping wake ∈ s.tasks.set i task' := by
  obtain ⟨wake,hsleeping⟩ := h.pending hpending
  exact ⟨wake,mem_set_of_ne htask hsleeping (sleeping_ne hwake wake)⟩

/-! ## Records -/

/-- The log has the newest of all records. -/
theorem reverse_pushLog {log all : List Record} (hlength : log.length ≤ maxDeliveryLog)
    (h : log.reverse = all.take maxDeliveryLog) (record : Record) :
    (WebhookNotifier.pushLog log record).reverse = (record :: all).take maxDeliveryLog := by
  have hcut : (record :: all).take maxDeliveryLog = record :: all.take (maxDeliveryLog - 1) := rfl
  rw [WebhookNotifier.pushLog, reverse_append, reverse_singleton, singleton_append,
    hcut]
  congr 1
  split_ifs with hfull
  · have hall : log.length = maxDeliveryLog := Nat.le_antisymm hlength hfull
    rw [reverse_drop, h, take_take, hall]
    rfl
  · have hshort := congrArg List.length h
    rw [length_reverse, length_take] at hshort
    rw [h, take_of_length_le (by omega), take_of_length_le]
    omega

theorem length_pushLog_le {log : List Record} (h : log.length ≤ maxDeliveryLog)
    (record : Record) : (WebhookNotifier.pushLog log record).length ≤ maxDeliveryLog := by
  rw [WebhookNotifier.pushLog, length_append, length_singleton]
  have hpos : 0 < maxDeliveryLog := by decide
  split_ifs
  · rw [length_drop]
    omega
  · omega

theorem Inv.mem_snapshot (h : Inv s) {p : Push Record}
    (hp : p ∈ s.pushed.drop (s.pushed.length - wireDeltaLimit)) :
    p.record ∈ s.log.reverse.take wireDeltaLimit := by
  obtain ⟨old,hlog⟩ := h.log
  have hlimit : min wireDeltaLimit maxDeliveryLog = wireDeltaLimit := by decide
  have hnew : p.record ∈ (s.pushed.map Push.record).reverse.take wireDeltaLimit := by
    rw [take_reverse, length_map, mem_reverse, ← map_drop]
    exact mem_map_of_mem hp
  rw [hlog, take_take, hlimit, take_append]
  exact mem_append_left _ hnew

theorem Inv.pushing (h : Inv s) {record : Record} (htask : s.tasks[i]? = some (.pushing record)) :
    Inv { WebhookNotifier.goOn s i .notifying with
      log := WebhookNotifier.pushLog s.log record
      pushed := s.pushed ++ [⟨record,s.sink,s.events.length⟩] } where
  logLength := length_pushLog_le h.logLength record
  log := by
    obtain ⟨old,hlog⟩ := h.log
    refine ⟨old,?_⟩
    change (WebhookNotifier.pushLog s.log record).reverse = _
    rw [reverse_pushLog h.logLength hlog, map_append, reverse_append]
    rfl
  takenLe := by
    change s.taken ≤ (s.pushed ++ [_]).length
    rw [length_append]
    exact Nat.le_add_right_of_le h.takenLe
  before p hp := by
    obtain hp | hp := mem_append.mp hp
    · exact h.before p hp
    · obtain rfl := mem_singleton.mp hp
      exact Nat.le_refl _
  sink p hp hflag := by
    obtain hp | hp := mem_append.mp hp
    · exact h.sink p hp hflag
    · obtain rfl := mem_singleton.mp hp
      exact hflag
  pending hpending := pending_set h htask (by simp [rank]) _ hpending
  owed _ := ⟨.notifying,mem_set_self htask _,by simp [rank]⟩
  covered p hp hflag := by
    change p ∈ (s.pushed ++ [_]).take s.taken at hp
    rw [take_append_of_le_length h.takenLe] at hp
    obtain hevent | ⟨entries,taken,hsending,hmem⟩ := h.covered p hp hflag
    · exact .inl hevent
    · exact .inr ⟨entries,taken,mem_set_of_ne htask hsending (by simp),hmem⟩
  upTo entries taken hflight := by
    have hold : InFlight s entries taken :=
      hflight.imp (mem_set_iff htask (by simp) (by simp)).mp id
    obtain ⟨hle,hlast⟩ := h.upTo entries taken hold
    refine ⟨hle,fun p hp => hlast p ?_⟩
    change p ∈ ((s.pushed ++ [_]).take taken).getLast? at hp
    rwa [take_append_of_le_length (Nat.le_trans hle h.takenLe)] at hp
  latest hpos := by
    obtain ⟨entries,hflight⟩ := h.latest hpos
    exact ⟨entries,hflight.imp (mem_set_iff htask (by simp) (by simp)).mpr id⟩
  sorted := h.sorted

theorem mem_drop_of_getLast? {α : Type*} {l : List α} {x : α} {n : ℕ} (hx : x ∈ l.getLast?)
    (hpos : 0 < n) : x ∈ l.drop (l.length - n) := by
  obtain ⟨front,rfl⟩ := getLast?_eq_some_iff.mp hx
  rw [length_append, length_singleton, drop_append_of_le_length (by omega)]
  exact mem_append_right _ mem_cons_self

theorem Inv.snapshotting (h : Inv s) (htask : s.tasks[i]? = some .snapshotting)
    (htime : ∀ p ∈ overdue s, p.sink = false) :
    Inv { WebhookNotifier.goOn s i
        (.sending (s.log.reverse.take wireDeltaLimit) s.pushed.length) with
      taken := s.pushed.length } where
  logLength := h.logLength
  log := h.log
  takenLe := Nat.le_refl _
  before := h.before
  sink := h.sink
  pending hpending := pending_set h htask (by simp [rank]) _ hpending
  owed := by
    rintro ⟨p,hp,-⟩
    change p ∈ s.pushed.drop s.pushed.length at hp
    rw [drop_length] at hp
    cases hp
  covered p hp hflag := by
    have hp : p ∈ s.pushed := mem_of_mem_take hp
    rw [← take_append_drop s.taken s.pushed] at hp
    obtain hp | hp := mem_append.mp hp
    · obtain hevent | ⟨entries,taken,hsending,hmem⟩ := h.covered p hp hflag
      · exact .inl hevent
      · exact .inr ⟨entries,taken,mem_set_of_ne htask hsending (by simp),hmem⟩
    · refine .inr ⟨_,_,mem_set_self htask _,h.mem_snapshot ?_⟩
      rw [← take_append_drop (s.pushed.length - wireDeltaLimit) s.pushed,
        drop_append] at hp
      obtain hp | hp := mem_append.mp hp
      · exact absurd hflag (Bool.eq_false_iff.mp (htime p hp))
      · exact mem_of_mem_drop hp
  upTo entries taken hflight := by
    have hcases : HostTask.sending entries taken =
          .sending (s.log.reverse.take wireDeltaLimit) s.pushed.length ∨
        InFlight s entries taken := by
      obtain hsending | hevent := hflight
      · exact (mem_or_eq_of_mem_set hsending).symm.imp id .inl
      · exact .inr (.inr hevent)
    obtain hnew | hold := hcases
    · obtain ⟨rfl,rfl⟩ := HostTask.sending.inj hnew
      refine ⟨Nat.le_refl _,fun p hp => h.mem_snapshot ?_⟩
      change p ∈ (s.pushed.take s.pushed.length).getLast? at hp
      rw [take_length] at hp
      exact mem_drop_of_getLast? hp (by decide)
    · obtain ⟨hle,hlast⟩ := h.upTo entries taken hold
      exact ⟨Nat.le_trans hle h.takenLe,hlast⟩
  latest _ := ⟨_,.inl (mem_set_self htask _)⟩
  sorted := h.sorted

theorem Inv.sending (h : Inv s) {entries : List Record} {taken : ℕ}
    (htask : s.tasks[i]? = some (.sending entries taken))
    (htime : ∀ e ∈ s.events, e.taken ≤ taken) :
    Inv { WebhookNotifier.finish s i with events := s.events ++ [⟨entries,taken⟩] } where
  logLength := h.logLength
  log := h.log
  takenLe := h.takenLe
  before p hp := by
    change p.before ≤ (s.events ++ [_]).length
    rw [length_append]
    exact Nat.le_add_right_of_le (h.before p hp)
  sink := h.sink
  pending hpending := by
    obtain ⟨wake,hsleeping⟩ := h.pending hpending
    exact ⟨wake,(mem_eraseIdx_iff htask (by simp)).mpr hsleeping⟩
  owed hp := by
    obtain ⟨task,hmem,hrank⟩ := h.owed hp
    exact ⟨task,(mem_eraseIdx_iff htask (ne_of_rank hrank).symm).mpr hmem,hrank⟩
  covered p hp hflag := by
    obtain ⟨k,e,he,hk,hmem⟩ | ⟨entries',taken',hsending,hmem⟩ := h.covered p hp hflag
    · refine .inl ⟨k,e,?_,hk,hmem⟩
      rw [List.getElem?_append_left (List.getElem?_eq_some_iff.mp he).1, he]
    · by_cases heq : HostTask.sending entries' taken' = .sending entries taken
      · obtain ⟨rfl,rfl⟩ := HostTask.sending.inj heq
        exact .inl ⟨s.events.length,_,getElem?_concat_length,
          h.before p (mem_of_mem_take hp),hmem⟩
      · exact .inr ⟨entries',taken',(mem_eraseIdx_iff htask heq).mpr hsending,hmem⟩
  upTo entries' taken' hflight := by
    refine h.upTo entries' taken' ?_
    obtain hsending | hevent := hflight
    · exact .inl ((eraseIdx_sublist _ _).subset hsending)
    · obtain hevent | hevent := mem_append.mp hevent
      · exact .inr hevent
      · obtain ⟨rfl,rfl⟩ := Event.mk.inj (mem_singleton.mp hevent)
        exact .inl (mem_of_getElem? htask)
  latest hpos := by
    obtain ⟨entries',hsending | hevent⟩ := h.latest hpos
    · by_cases heq : HostTask.sending entries' s.taken = .sending entries taken
      · obtain ⟨rfl,htaken⟩ := HostTask.sending.inj heq
        refine ⟨entries',.inr (mem_append_right _ ?_)⟩
        change (⟨entries',s.taken⟩ : Event Record) ∈ _
        rw [htaken]
        exact mem_cons_self
      · exact ⟨entries',.inl ((mem_eraseIdx_iff htask heq).mpr hsending)⟩
    · exact ⟨entries',.inr (mem_append_left _ hevent)⟩
  sorted := by
    refine pairwise_append.mpr ⟨h.sorted,pairwise_singleton _ _,fun e he e' he' => ?_⟩
    obtain rfl := mem_singleton.mp he'
    exact htime e he

/-! ## Steps -/

theorem Inv.stepTask (h : Inv s) (htask : s.tasks[i]? = some task)
    (htime : InTime s (.advance i)) (hstep : stepTask s i task = some s') : Inv s' := by
  rw [InTime, htask] at htime
  cases task with
  | pushing record =>
    cases hstep
    exact h.pushing htask
  | notifying =>
    cases hstep
    split_ifs with hsink
    · exact h.goOn htask (by simp [rank]) (by simp [rank]) ⟨rfl,rfl,rfl,rfl,rfl⟩ rfl
        (pending_set h htask (by simp [rank]) .reading)
    · exact h.finish htask (by simp [rank]) (by simp [rank]) fun hs => absurd hs hsink
  | reading =>
    cases hstep
    exact h.goOn htask (by simp [rank]) (by simp [rank]) ⟨rfl,rfl,rfl,rfl,rfl⟩ rfl
      (pending_set h htask (by simp [rank]) _)
  | comparing now =>
    cases hstep
    rw [WebhookNotifier.compare]
    split
    · split_ifs
      · exact h.goOn htask (by simp [rank]) (by simp [rank]) ⟨rfl,rfl,rfl,rfl,rfl⟩ rfl
          (pending_set h htask (by simp [rank]) _)
      · exact h.goOn htask (by simp [rank]) (by simp [rank]) ⟨rfl,rfl,rfl,rfl,rfl⟩ rfl
          (pending_set h htask (by simp [rank]) .emitting)
    · exact h.goOn htask (by simp [rank]) (by simp [rank]) ⟨rfl,rfl,rfl,rfl,rfl⟩ rfl
        (pending_set h htask (by simp [rank]) .emitting)
  | delaying delay =>
    cases hstep
    split_ifs with hpending
    · refine h.finish htask (by simp [rank]) (by simp [rank]) fun _ => ?_
      obtain ⟨wake,hsleeping⟩ := h.pending hpending
      exact ⟨_,(mem_eraseIdx_iff htask (by simp)).mpr hsleeping,by simp [rank]⟩
    · exact h.goOn htask (by simp [rank]) (by simp [rank]) ⟨rfl,rfl,rfl,rfl,rfl⟩ rfl
        fun _ => ⟨_,mem_set_self htask _⟩
  | sleeping wake =>
    rw [WebhookNotifier.stepTask] at hstep
    split_ifs at hstep
    cases hstep
    exact h.goOn htask (by simp [rank]) (by simp [rank]) ⟨rfl,rfl,rfl,rfl,rfl⟩ rfl
      fun hpending => absurd hpending Bool.false_ne_true
  | waking =>
    cases hstep
    exact h.goOn htask (by simp [rank]) (by simp [rank]) ⟨rfl,rfl,rfl,rfl,rfl⟩ rfl
      (pending_set h htask (by simp [rank]) .emitting)
  | emitting =>
    cases hstep
    split_ifs with hsink
    · exact h.goOn htask (by simp [rank]) (by simp [rank]) ⟨rfl,rfl,rfl,rfl,rfl⟩ rfl
        (pending_set h htask (by simp [rank]) .snapshotting)
    · exact h.finish htask (by simp [rank]) (by simp [rank]) fun hs => absurd hs hsink
  | snapshotting =>
    cases hstep
    exact h.snapshotting htask htime
  | sending entries taken =>
    cases hstep
    exact h.sending htask htime

theorem Inv.step {label : Label Record} (h : Inv s) (htime : InTime s label)
    (hstep : step s label = some s') : Inv s' := by
  cases label with
  | setSink =>
    cases hstep
    exact h.same ⟨rfl,rfl,rfl,rfl,fun _ _ => Iff.rfl⟩ (fun _ => rfl) h.pending fun _ hs => hs
  | tick d =>
    cases hstep
    exact h.same ⟨rfl,rfl,rfl,rfl,fun _ _ => Iff.rfl⟩ id h.pending fun _ hs => hs
  | pushLog record =>
    cases hstep
    refine h.same ⟨rfl,rfl,rfl,rfl,fun entries taken => ?_⟩ id (fun hpending => ?_)
      fun _ hs => ?_
    · change _ ∈ s.tasks ++ [_] ↔ _
      simp
    · obtain ⟨wake,hsleeping⟩ := h.pending hpending
      exact ⟨wake,mem_append_left _ hsleeping⟩
    · obtain ⟨task,hmem,hrank⟩ := hs
      exact ⟨task,mem_append_left _ hmem,hrank⟩
  | advance i =>
    obtain ⟨task,htask,hstep⟩ := bind_eq_some_iff.mp hstep
    exact h.stepTask htask htime hstep

theorem inv_of_initial (h : Initial s) : Inv s where
  logLength := h.log
  log := by
    refine ⟨s.log.reverse,?_⟩
    rw [h.pushed, map_nil, reverse_nil, nil_append, take_of_length_le]
    rw [length_reverse]
    exact h.log
  takenLe := by
    rw [h.taken]
    exact Nat.zero_le _
  before p hp := by
    rw [h.pushed] at hp
    cases hp
  sink p hp := by
    rw [h.pushed] at hp
    cases hp
  pending hpending := by
    rw [h.emitPending] at hpending
    cases hpending
  owed := by
    rintro ⟨p,hp,-⟩
    rw [h.pushed, drop_nil] at hp
    cases hp
  covered p hp := by
    rw [h.taken] at hp
    cases hp
  upTo entries taken hflight := by
    rw [InFlight, h.tasks, h.events] at hflight
    obtain hsending | hevent := hflight
    · cases hsending
    · cases hevent
  latest hpos := by
    rw [h.taken] at hpos
    exact absurd hpos (Nat.lt_irrefl 0)
  sorted := by
    rw [h.events]
    exact List.Pairwise.nil

/-! ## The steps left -/

theorem rank_pos (task : HostTask Record) : 0 < rank task := by
  cases task <;> exact Nat.succ_pos _

theorem stepTask_tasks (h : stepTask s i task = some s') :
    (∃ task', rank task' < rank task ∧ s'.tasks = s.tasks.set i task') ∨
      s'.tasks = s.tasks.eraseIdx i := by
  cases task with
  | pushing record =>
    cases h
    exact .inl ⟨.notifying,Nat.lt_succ_self 9,rfl⟩
  | notifying =>
    cases h
    split_ifs
    · exact .inl ⟨.reading,Nat.lt_succ_self 8,rfl⟩
    · exact .inr rfl
  | reading =>
    cases h
    exact .inl ⟨.comparing s.clock,Nat.lt_succ_self 7,rfl⟩
  | comparing now =>
    cases h
    rw [WebhookNotifier.compare]
    split
    · split_ifs
      · exact .inl ⟨.delaying _,Nat.lt_succ_self 6,rfl⟩
      · exact .inl ⟨.emitting,by simp [rank],rfl⟩
    · exact .inl ⟨.emitting,by simp [rank],rfl⟩
  | delaying delay =>
    cases h
    split_ifs
    · exact .inr rfl
    · exact .inl ⟨.sleeping (s.clock + delay),Nat.lt_succ_self 5,rfl⟩
  | sleeping wake =>
    rw [stepTask] at h
    split_ifs at h
    cases h
    exact .inl ⟨.waking,Nat.lt_succ_self 4,rfl⟩
  | waking =>
    cases h
    exact .inl ⟨.emitting,Nat.lt_succ_self 3,rfl⟩
  | emitting =>
    cases h
    split_ifs
    · exact .inl ⟨.snapshotting,Nat.lt_succ_self 2,rfl⟩
    · exact .inr rfl
  | snapshotting =>
    cases h
    exact .inl ⟨.sending _ _,Nat.lt_succ_self 1,rfl⟩
  | sending entries taken =>
    cases h
    exact .inr rfl

/-- Every task can go on after some time. -/
theorem stepTask_enabled (s : Inner Record) (i : ℕ) (task : HostTask Record) :
    ∃ d s', stepTask { s with clock := s.clock + d } i task = some s' := by
  cases task with
  | sleeping wake =>
    refine ⟨wake,_,if_pos ?_⟩
    exact Nat.le_add_left wake s.clock
  | _ => exact ⟨0,_,rfl⟩

theorem goesOn (htask : s.tasks[i]? = some task) :
    ∃ d s', exec step s [.tick d, .advance i] = some s' ∧
      (s'.tasks.map rank).sum < (s.tasks.map rank).sum := by
  obtain ⟨d,s',hstep⟩ := stepTask_enabled s i task
  refine ⟨d,s',?_,?_⟩
  · have hadvance : step { s with clock := s.clock + d } (.advance i) = some s' :=
      bind_eq_some_iff.mpr ⟨task,htask,hstep⟩
    exact exec_cons_iff.mpr ⟨_,rfl,exec_cons_iff.mpr ⟨s',hadvance,exec_nil s'⟩⟩
  · obtain ⟨task',hlt,htasks⟩ | htasks := stepTask_tasks hstep
    · rw [htasks]
      exact sum_map_set_lt rank htask hlt
    · rw [htasks]
      exact sum_map_eraseIdx_lt rank htask (rank_pos task)

/-! ## Runs -/

theorem Inv.told (h : Inv s) : Told s where
  all htasks p hp hflag := by
    rw [← take_append_drop s.taken s.pushed] at hp
    obtain hp | hp := mem_append.mp hp
    · obtain hevent | ⟨entries,taken,hsending,-⟩ := h.covered p hp hflag
      · exact hevent
      · rw [htasks] at hsending
        cases hsending
    · obtain ⟨task,hmem,-⟩ := h.owed ⟨p,hp,hflag⟩
      rw [htasks] at hmem
      cases hmem
  last htasks p hp hflag := by
    -- the last snapshot has the last record, since no task is left to take another one
    have hmem : p ∈ s.pushed := mem_of_getLast? hp
    have htaken : s.taken = s.pushed.length := by
      refine Nat.le_antisymm h.takenLe (Nat.le_of_not_lt fun hlt => ?_)
      have hdrop : p ∈ s.pushed.drop s.taken := by
        have hrest := mem_drop_of_getLast? hp (Nat.sub_pos_of_lt hlt)
        rwa [Nat.sub_sub_self h.takenLe] at hrest
      obtain ⟨task,htask,-⟩ := h.owed ⟨p,hdrop,hflag⟩
      rw [htasks] at htask
      cases htask
    have hpos : 0 < s.taken := htaken ▸ length_pos_of_mem hmem
    obtain ⟨entries,hsending | hevent⟩ := h.latest hpos
    · rw [htasks] at hsending
      cases hsending
    obtain ⟨front,e,hevents⟩ :=
      (eq_nil_or_concat' s.events).resolve_left (ne_nil_of_mem hevent)
    refine ⟨e,getLast?_eq_some_iff.mpr ⟨front,hevents⟩,?_⟩
    -- no event is later than this one, and that of the last snapshot is among them
    have hle : s.taken ≤ e.taken := by
      rw [hevents] at hevent
      obtain hfront | hlast := mem_append.mp hevent
      · have hsorted := h.sorted
        rw [hevents] at hsorted
        exact (pairwise_append.mp hsorted).2.2 _ hfront e (mem_singleton_self e)
      · rw [← mem_singleton.mp hlast]
    have hflight : InFlight s e.entries e.taken := by
      refine .inr ?_
      rw [hevents]
      exact mem_append_right _ mem_cons_self
    obtain ⟨hge,hlast⟩ := h.upTo e.entries e.taken hflight
    refine hlast p ?_
    rwa [Nat.le_antisymm hge hle, htaken, take_length]
  goesOn _ _ htask := WebhookSnapshots.goesOn htask

/-- If every snapshot is in time, the host is told of every record. -/
theorem hosts_told {s t : Inner Record} {labels : List (Label Record)} (hs : Initial s)
    (htime : Meets step InTime s labels) (hexec : exec step s labels = some t) : Told t :=
  (exec_invariant_of_meets (fun _ _ _ hinv hcond hstep => Inv.step hinv hcond hstep)
    (inv_of_initial hs) htime hexec).told

/-! ## Bursts -/

def quiet : Inner ℕ :=
  { log := [], sink := true, lastEmit := none, emitPending := false, clock := 0, tasks := [],
    pushed := [], events := [], taken := 0 }

theorem quiet_initial : Initial quiet where
  log := Nat.zero_le _
  emitPending := rfl
  tasks := rfl
  pushed := rfl
  events := rfl
  taken := rfl

/-- The host is told of the first record at once, and of the second one at the end of the
window. -/
def opening : List (Label ℕ) :=
  .pushLog 0 :: List.replicate 7 (.advance 0) ++ .pushLog 1 :: List.replicate 5 (.advance 0)

def closing : List (Label ℕ) := .tick emitMinInterval :: List.replicate 5 (.advance 0)

theorem hosts_told_twoRecords :
    ∃ t, exec WebhookNotifier.step quiet (opening ++ closing) = some t ∧ Told t :=
  ⟨_,rfl,@hosts_told ℕ quiet _ (opening ++ closing) quiet_initial (by decide) rfl⟩

/-- While a task waits, another call within the window only pushes its record. -/
def pushWaiting (record : Record) : List (Label Record) :=
  .pushLog record :: List.replicate 5 (.advance 1)

theorem exec_pushWaiting {s : Inner Record} {wake prev : ℕ} (htasks : s.tasks = [.sleeping wake])
    (hsink : s.sink = true) (hpending : s.emitPending = true) (hlast : s.lastEmit = some prev)
    (hwindow : s.clock - prev < emitMinInterval) (record : Record) :
    exec step s (pushWaiting record) = some { s with
      log := WebhookNotifier.pushLog s.log record
      pushed := s.pushed ++ [⟨record,true,s.events.length⟩] } := by
  obtain ⟨log,sink,lastEmit,emitPending,clock,tasks,pushed,events,taken⟩ := s
  subst htasks hsink hpending hlast
  simp [exec, pushWaiting, WebhookNotifier.step, stepTask, WebhookNotifier.goOn,
    WebhookNotifier.finish, WebhookNotifier.compare, hwindow]

theorem exec_burst (records : List Record) {s : Inner Record} {wake prev : ℕ}
    (htasks : s.tasks = [.sleeping wake]) (hsink : s.sink = true) (hpending : s.emitPending = true)
    (hlast : s.lastEmit = some prev) (hwindow : s.clock - prev < emitMinInterval) :
    exec step s (records.flatMap pushWaiting) = some { s with
      log := records.foldl WebhookNotifier.pushLog s.log
      pushed := s.pushed ++ records.map fun record => ⟨record,true,s.events.length⟩ } := by
  induction records generalizing s with
  | nil => simp
  | cons record records ih =>
    have hrest := @ih { s with
      log := WebhookNotifier.pushLog s.log record
      pushed := s.pushed ++ [⟨record,true,s.events.length⟩] } htasks hsink hpending hlast hwindow
    rw [flatMap_cons, exec_append, exec_pushWaiting htasks hsink hpending hlast hwindow,
      bind_some, hrest, map_cons, foldl_cons, append_assoc,
      singleton_append]

theorem foldl_pushLog (records : List Record) {log : List Record}
    (h : log.length + records.length ≤ maxDeliveryLog) :
    records.foldl WebhookNotifier.pushLog log = log ++ records := by
  induction records generalizing log with
  | nil => simp
  | cons record records ih =>
    rw [length_cons] at h
    have hroom : ¬ log.length ≥ maxDeliveryLog := by omega
    have hpush : WebhookNotifier.pushLog log record = log ++ [record] := by
      rw [WebhookNotifier.pushLog, if_neg hroom]
    have hlength : (log ++ [record]).length + records.length ≤ maxDeliveryLog := by
      rw [length_append, length_singleton]
      omega
    rw [foldl_cons, hpush, ih hlength, append_assoc, singleton_append]

/-- The snapshot at the end of the window. -/
theorem exec_closing {s : Inner ℕ} {wake : ℕ} (htasks : s.tasks = [.sleeping wake])
    (hsink : s.sink = true) (hwake : wake ≤ s.clock + emitMinInterval) :
    exec WebhookNotifier.step s closing = some { s with
      lastEmit := some (s.clock + emitMinInterval)
      emitPending := false
      clock := s.clock + emitMinInterval
      tasks := []
      events := s.events ++ [⟨s.log.reverse.take wireDeltaLimit,s.pushed.length⟩]
      taken := s.pushed.length } := by
  obtain ⟨log,sink,lastEmit,emitPending,clock,tasks,pushed,events,taken⟩ := s
  subst htasks hsink
  simp [exec, closing, WebhookNotifier.step, stepTask, WebhookNotifier.goOn,
    WebhookNotifier.finish, hwake]

/-- The first of these is too old for the snapshot at the end of the window. -/
def burst : List (Label ℕ) := opening ++ (List.range' 2 100).flatMap pushWaiting ++ closing

def opened : Inner ℕ :=
  { log := [0, 1], sink := true, lastEmit := some 0, emitPending := true, clock := 0,
    tasks := [.sleeping emitMinInterval], pushed := [⟨0,true,0⟩, ⟨1,true,1⟩],
    events := [⟨[0],1⟩], taken := 1 }

def crowded : Inner ℕ :=
  { opened with
    log := opened.log ++ List.range' 2 100
    pushed := opened.pushed ++ (List.range' 2 100).map fun record => ⟨record,true,1⟩ }

theorem exec_crowded :
    exec WebhookNotifier.step quiet (opening ++ (List.range' 2 100).flatMap pushWaiting) =
      some crowded := by
  have hopen : exec WebhookNotifier.step quiet opening = some opened := rfl
  have hburst := @exec_burst ℕ (range' 2 100) opened emitMinInterval 0 rfl rfl rfl rfl
    (by decide)
  rw [foldl_pushLog _ (by decide)] at hburst
  rw [exec_append, hopen, bind_some, hburst]
  rfl

theorem burst_not_told :
    ∃ t, Initial quiet ∧ exec WebhookNotifier.step quiet burst = some t ∧ ¬ Told t := by
  have hclose := @exec_closing crowded emitMinInterval rfl rfl (Nat.le_add_left _ _)
  have hexec : exec WebhookNotifier.step quiet burst =
      exec WebhookNotifier.step crowded closing := by
    rw [burst, exec_append, exec_crowded, bind_some]
  refine ⟨_,quiet_initial,hexec.trans hclose,fun htold => ?_⟩
  -- the second record is in no event
  obtain ⟨k,e,he,hk,hmem⟩ := htold.all rfl ⟨1,true,1⟩
    (mem_append_left _ (by decide)) rfl
  have hshort : k < 2 := (List.getElem?_eq_some_iff.mp he).1
  obtain rfl : k = 1 := Nat.le_antisymm (Nat.le_of_lt_succ hshort) hk
  obtain rfl := some.inj he
  exact absurd hmem (by decide)

end RinaDown.WebhookSnapshots
