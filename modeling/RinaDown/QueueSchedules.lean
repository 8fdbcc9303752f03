import Mathlib.Data.List.Nodup
import RinaDown.LabelledExecutions
import RinaDown.Texts

/-!
# Queue schedules

A queue may have a time of the day at which it starts and one at which it stops,
on the days of a mask. A tick executes what has come due, and a ledger keeps for
each edge the day on which it was last handled. A restart clears the ledger, and
so does a new schedule for its queue. What the ticks have executed is history.
-/

namespace RinaDown.QueueSchedules
open LabelledExecutions List
open Option hiding filter filter_map map
open CharacterPatterns (Text)
open Texts (parseUnsigned)

/-! ## Due actions -/

def parseHhmm (s : Text) : Option ℕ :=
  match s.dropWhile (· ≠ ':') with
  | [] => none
  | _ :: rest =>
    (parseUnsigned (2 ^ 32) (s.takeWhile (· ≠ ':'))).bind fun h =>
      (parseUnsigned (2 ^ 32) rest).bind fun m =>
        if h < 24 ∧ m < 60 then some (h * 60 + m) else none

structure QueueInfo where
  queueId : String
  scheduleEnabled : Bool
  scheduleStart : Text
  scheduleStop : Text
  scheduleDays : BitVec 32
  deriving DecidableEq, Repr

/-- A queue, and whether it is the edge that starts it. -/
abbrev ScheduleEdge := String × Bool

abbrev Ledger := ScheduleEdge → Option ℤ

/-- Days are counted from a Monday. -/
def dayBit (day : ℤ) : BitVec 32 := 1#32 <<< (day % 7).toNat

def edgeTime (q : QueueInfo) (isStart : Bool) : Option ℕ :=
  parseHhmm (if isStart then q.scheduleStart else q.scheduleStop)

/-- One turn of the loop over the edges: the passed edges and the newest of the queue. -/
def passEdge (q : QueueInfo) (fired : Ledger) (today : ℤ) (nowMin : ℕ)
    (acc : List ScheduleEdge × Option (ℕ × Bool)) (isStart : Bool) :
    List ScheduleEdge × Option (ℕ × Bool) :=
  match edgeTime q isStart with
  | none => acc
  | some minute =>
    if nowMin < minute then acc
    else if fired (q.queueId, isStart) = some today then acc
    else (acc.1 ++ [(q.queueId, isStart)],
      if acc.2.all (fun n => n.1 ≤ minute) then some (minute, isStart) else acc.2)

def passQueue (fired : Ledger) (today : ℤ) (bit : BitVec 32) (nowMin : ℕ)
    (acc : List ScheduleEdge × List ScheduleEdge) (q : QueueInfo) :
    List ScheduleEdge × List ScheduleEdge :=
  if !q.scheduleEnabled || q.scheduleDays &&& bit = 0 then acc
  else
    let r := [true, false].foldl (passEdge q fired today nowMin) (acc.1, none)
    match r.2 with
    | none => (r.1, acc.2)
    | some (_, isStart) => (r.1, acc.2 ++ [(q.queueId, isStart)])

/-- The edges that have come due, and the actions to execute. -/
def dueScheduleActions (queues : List QueueInfo) (fired : Ledger) (today : ℤ) (bit : BitVec 32)
    (nowMin : ℕ) : List ScheduleEdge × List ScheduleEdge :=
  queues.foldl (passQueue fired today bit nowMin) ([], [])

/-! ## The manager -/

/-- A start or a stop of a queue by its schedule. -/
structure Execution where
  day : ℤ
  minute : ℕ
  edge : ScheduleEdge
  deriving DecidableEq, Repr

/-- The time is that of the last tick; the last execution comes first. -/
structure Manager where
  queues : List QueueInfo
  scheduleFired : Ledger
  day : ℤ
  minute : ℕ
  executed : List Execution

/-- Without a day in the mask it is every day, and without a time the schedule is off. -/
def QueueInfo.reschedule (q : QueueInfo) (enabled : Bool) (start stop : Text) (days : BitVec 32) :
    QueueInfo :=
  { q with
    scheduleEnabled := enabled && !(start = [] && stop = [])
    scheduleStart := start
    scheduleStop := stop
    scheduleDays := if days &&& 0x7f = 0 then 0x7f else days &&& 0x7f }

def setQueueSchedule (s : Manager) (queueId : String) (enabled : Bool) (start stop : Text)
    (days : BitVec 32) (persisted : Bool) : Manager :=
  if (start ≠ [] ∧ parseHhmm start = none) ∨ (stop ≠ [] ∧ parseHhmm stop = none) then s
  else if persisted = false then s
  else
    { s with
      queues := s.queues.map (fun q =>
        if q.queueId = queueId then q.reschedule enabled start stop days else q)
      scheduleFired := fun e => if e.1 = queueId then none else s.scheduleFired e }

/-- `tick_queue_schedules`; the queues are visited in any order. -/
def tickQueueSchedules (s : Manager) (today : ℤ) (nowMin : ℕ) (order : List QueueInfo) :
    Manager :=
  let r := dueScheduleActions order s.scheduleFired today (dayBit today) nowMin
  { s with
    scheduleFired := fun e => if e ∈ r.1 then some today else s.scheduleFired e
    day := today
    minute := nowMin
    executed := (r.2.map (Execution.mk today nowMin)).reverse ++ s.executed }

inductive Label where
  | tick (today : ℤ) (nowMin : ℕ) (order : List QueueInfo)
  | setQueueSchedule (queueId : String) (enabled : Bool) (start stop : Text) (days : BitVec 32)
      (persisted : Bool)
  | restart

/-- The clock does not go back. -/
def step (s : Manager) : Label → Option Manager
  | .tick today nowMin order =>
    if (s.day < today ∨ s.day = today ∧ s.minute ≤ nowMin) ∧ order.Perm s.queues then
      some (tickQueueSchedules s today nowMin order)
    else none
  | .setQueueSchedule queueId enabled start stop days persisted =>
    some (setQueueSchedule s queueId enabled start stop days persisted)
  | .restart => some { s with scheduleFired := fun _ => none }

def launched (queues : List QueueInfo) (day : ℤ) (minute : ℕ) : Manager :=
  ⟨queues,fun _ => none,day,minute,[]⟩

def Reachable (s : Manager) : Prop :=
  ∃ queues day minute labels, (queues.map QueueInfo.queueId).Nodup ∧
    exec step (launched queues day minute) labels = some s

/-! ## What the schedule asks for -/

def onDay (q : QueueInfo) (day : ℤ) : Bool :=
  q.scheduleEnabled && q.scheduleDays &&& dayBit day ≠ 0

/-- The edge is the latest at or before the minute; of two at the same time it is the stop. -/
def LatestEdge (q : QueueInfo) (minute : ℕ) (isStart : Bool) : Prop :=
  ∃ time, edgeTime q isStart = some time ∧ time ≤ minute ∧
    ∀ other time', edgeTime q other = some time' → time' ≤ minute →
      time' ≤ time ∧ (time' = time → other = false → isStart = false)

/-- What the schedule has executed for a queue, the last first. -/
def history (s : Manager) (queueId : String) : List Execution :=
  s.executed.filter (fun e => e.edge.1 = queueId)

/-- The run state that the schedule has left. -/
def scheduledState (s : Manager) (queueId : String) : Option Bool :=
  (history s queueId).head?.map (fun e => e.edge.2)

def timesExecuted (s : Manager) (day : ℤ) (edge : ScheduleEdge) : ℕ :=
  s.executed.countP (fun e => e.day = day ∧ e.edge = edge)

/-- A restart, or a new schedule for the queue. -/
def Label.rearms (queueId : String) : Label → Bool
  | .tick _ _ _ => false
  | .setQueueSchedule id _ _ _ _ _ => id = queueId
  | .restart => true

variable {q : QueueInfo} {fired : Ledger} {today day : ℤ} {nowMin minute : ℕ} {isStart : Bool}
variable {s t : Manager} {queueId : String}

/-! ## One queue -/

/-- The edge has come due at its time. -/
def DueAt (q : QueueInfo) (fired : Ledger) (today : ℤ) (nowMin : ℕ) (isStart : Bool) (time : ℕ) :
    Prop :=
  edgeTime q isStart = some time ∧ time ≤ nowMin ∧ fired (q.queueId, isStart) ≠ some today

/-- It is the newest edge that has come due. -/
def NewestDue (q : QueueInfo) (fired : Ledger) (today : ℤ) (nowMin : ℕ) (isStart : Bool) : Prop :=
  ∃ time, DueAt q fired today nowMin isStart time ∧
    ∀ other time', DueAt q fired today nowMin other time' →
      time' ≤ time ∧ (time' = time → other = false → isStart = false)

theorem passEdge_of_due {time : ℕ} (h : DueAt q fired today nowMin isStart time)
    (acc : List ScheduleEdge × Option (ℕ × Bool)) :
    passEdge q fired today nowMin acc isStart =
      (acc.1 ++ [(q.queueId, isStart)],
        if acc.2.all (fun n => n.1 ≤ time) then some (time, isStart) else acc.2) := by
  obtain ⟨htime,hle,hfired⟩ := h
  simp only [passEdge, htime]
  rw [if_neg (by omega), if_neg hfired]

theorem passEdge_of_not_due (h : ¬ ∃ time, DueAt q fired today nowMin isStart time)
    (acc : List ScheduleEdge × Option (ℕ × Bool)) :
    passEdge q fired today nowMin acc isStart = acc := by
  cases htime : edgeTime q isStart with
  | none => simp only [passEdge, htime]
  | some time =>
    simp only [passEdge, htime]
    by_cases hlater : nowMin < time
    · rw [if_pos hlater]
    · rw [if_neg hlater, if_pos]
      by_contra hfired
      exact h ⟨time,htime,by omega,hfired⟩

variable {e edge : ScheduleEdge}

theorem mem_passEdge {acc : List ScheduleEdge × Option (ℕ × Bool)} :
    e ∈ (passEdge q fired today nowMin acc isStart).1 ↔
      e ∈ acc.1 ∨ e = (q.queueId, isStart) ∧ ∃ time, DueAt q fired today nowMin isStart time := by
  by_cases h : ∃ time, DueAt q fired today nowMin isStart time
  · obtain ⟨time,hdue⟩ := h
    rw [passEdge_of_due hdue, and_iff_left ⟨time,hdue⟩]
    simp
  · rw [passEdge_of_not_due h]
    simp [h]

/-- The edges of one queue that have come due, and the newest of them. -/
def passEdges (q : QueueInfo) (fired : Ledger) (today : ℤ) (nowMin : ℕ) :
    List ScheduleEdge × Option (ℕ × Bool) :=
  [true, false].foldl (passEdge q fired today nowMin) ([], none)

theorem passEdge_append (q : QueueInfo) (fired : Ledger) (today : ℤ) (nowMin : ℕ) (isStart : Bool)
    (before : List ScheduleEdge) (acc : List ScheduleEdge × Option (ℕ × Bool)) :
    passEdge q fired today nowMin (before ++ acc.1, acc.2) isStart =
      (before ++ (passEdge q fired today nowMin acc isStart).1,
        (passEdge q fired today nowMin acc isStart).2) := by
  by_cases h : ∃ time, DueAt q fired today nowMin isStart time
  · obtain ⟨time,h⟩ := h
    simp only [passEdge_of_due h, append_assoc]
  · simp only [passEdge_of_not_due h]

theorem passEdges_append (before : List ScheduleEdge) :
    [true, false].foldl (passEdge q fired today nowMin) (before, none) =
      (before ++ (passEdges q fired today nowMin).1, (passEdges q fired today nowMin).2) := by
  have hfirst := passEdge_append q fired today nowMin true before ([], none)
  rw [append_nil] at hfirst
  simp only [passEdges, foldl_cons, foldl_nil, hfirst]
  exact passEdge_append q fired today nowMin false before _

theorem mem_passEdges :
    e ∈ (passEdges q fired today nowMin).1 ↔
      e.1 = q.queueId ∧ ∃ time, DueAt q fired today nowMin e.2 time := by
  obtain ⟨id,isStart⟩ := e
  simp only [passEdges, foldl_cons, foldl_nil, mem_passEdge, not_mem_nil, false_or,
    Prod.mk.injEq]
  cases isStart <;> simp

/-- The newest edge is found, and there is none only if nothing is due. -/
theorem passEdges_newest (q : QueueInfo) (fired : Ledger) (today : ℤ) (nowMin : ℕ) :
    match (passEdges q fired today nowMin).2 with
    | none => ∀ isStart time, ¬ DueAt q fired today nowMin isStart time
    | some n => NewestDue q fired today nowMin n.2 := by
  simp only [passEdges, foldl_cons, foldl_nil]
  by_cases hstart : ∃ time, DueAt q fired today nowMin true time
  · obtain ⟨a,ha⟩ := hstart
    rw [passEdge_of_due ha]
    by_cases hstop : ∃ time, DueAt q fired today nowMin false time
    · obtain ⟨b,hb⟩ := hstop
      rw [passEdge_of_due hb]
      have htimes : ∀ other time', DueAt q fired today nowMin other time' →
          time' = if other then a else b := by
        intro other time' hdue
        cases other with
        | false => exact some.inj (hdue.1.symm.trans hb.1)
        | true => exact some.inj (hdue.1.symm.trans ha.1)
      by_cases hab : a ≤ b
      · simp only [all_none, if_true, all_some, hab, decide_true]
        refine ⟨b,hb,fun other time' hdue => ⟨?_,fun _ _ => rfl⟩⟩
        rw [htimes other time' hdue]
        split_ifs <;> omega
      · simp only [all_none, if_true, all_some, hab, decide_false]
        refine ⟨a,ha,?_⟩
        intro other time' hdue
        have htime := htimes other time' hdue
        cases other with
        | false =>
          rw [if_neg (by simp)] at htime
          exact ⟨by omega,by omega⟩
        | true =>
          rw [if_pos rfl] at htime
          exact ⟨htime.le,fun _ h => by cases h⟩
    · rw [passEdge_of_not_due hstop]
      simp only [all_none, if_true]
      refine ⟨a,ha,?_⟩
      intro other time' hdue
      cases other with
      | false => exact absurd ⟨time',hdue⟩ hstop
      | true => exact ⟨(some.inj (hdue.1.symm.trans ha.1)).le,fun _ h => by cases h⟩
  · rw [passEdge_of_not_due hstart]
    by_cases hstop : ∃ time, DueAt q fired today nowMin false time
    · obtain ⟨b,hb⟩ := hstop
      rw [passEdge_of_due hb]
      simp only [all_none, if_true]
      refine ⟨b,hb,?_⟩
      intro other time' hdue
      cases other with
      | false => exact ⟨(some.inj (hdue.1.symm.trans hb.1)).le,fun _ _ => rfl⟩
      | true => exact absurd ⟨time',hdue⟩ hstart
    · rw [passEdge_of_not_due hstop]
      intro isStart time hdue
      cases isStart with
      | false => exact hstop ⟨time,hdue⟩
      | true => exact hstart ⟨time,hdue⟩

/-! ## All queues -/

def passedOf (fired : Ledger) (today : ℤ) (nowMin : ℕ) (q : QueueInfo) : List ScheduleEdge :=
  if onDay q today then (passEdges q fired today nowMin).1 else []

def actionsOf (fired : Ledger) (today : ℤ) (nowMin : ℕ) (q : QueueInfo) : List ScheduleEdge :=
  if onDay q today then
    ((passEdges q fired today nowMin).2.map (fun n => (q.queueId, n.2))).toList
  else []

theorem passQueue_eq (acc : List ScheduleEdge × List ScheduleEdge) :
    passQueue fired today (dayBit today) nowMin acc q =
      (acc.1 ++ passedOf fired today nowMin q, acc.2 ++ actionsOf fired today nowMin q) := by
  by_cases hday : onDay q today = true
  · have hrun : ¬ (!q.scheduleEnabled || decide (q.scheduleDays &&& dayBit today = 0)) = true := by
      simpa [onDay] using hday
    simp only [passQueue, if_neg hrun, passEdges_append, passedOf, actionsOf, if_pos hday]
    cases (passEdges q fired today nowMin).2 <;> simp
  · have hskip : (!q.scheduleEnabled || decide (q.scheduleDays &&& dayBit today = 0)) = true := by
      simpa [onDay, or_iff_not_imp_left] using hday
    simp only [passQueue, if_pos hskip, passedOf, actionsOf, if_neg hday, append_nil]

theorem dueScheduleActions_eq (order : List QueueInfo) :
    dueScheduleActions order fired today (dayBit today) nowMin =
      (order.flatMap (passedOf fired today nowMin), order.flatMap (actionsOf fired today nowMin)) := by
  have hfold : ∀ acc, order.foldl (passQueue fired today (dayBit today) nowMin) acc =
      (acc.1 ++ order.flatMap (passedOf fired today nowMin),
        acc.2 ++ order.flatMap (actionsOf fired today nowMin)) := by
    induction order with
    | nil => simp
    | cons q order ih =>
      intro acc
      rw [foldl_cons, passQueue_eq, ih]
      simp
  exact hfold ([], [])

theorem mem_passedOf :
    e ∈ passedOf fired today nowMin q ↔
      onDay q today = true ∧ e.1 = q.queueId ∧ ∃ time, DueAt q fired today nowMin e.2 time := by
  rw [passedOf]
  split_ifs with hday
  · rw [mem_passEdges, and_iff_right hday]
  · simp [hday]

theorem actionsOf_cases (fired : Ledger) (today : ℤ) (nowMin : ℕ) (q : QueueInfo) :
    (∃ isStart, onDay q today = true ∧ NewestDue q fired today nowMin isStart ∧
      actionsOf fired today nowMin q = [(q.queueId, isStart)]) ∨
    actionsOf fired today nowMin q = [] ∧
      (onDay q today = true → ∀ isStart time, ¬ DueAt q fired today nowMin isStart time) := by
  have hnewest := passEdges_newest q fired today nowMin
  rw [actionsOf]
  split_ifs with hday
  · cases hn : (passEdges q fired today nowMin).2 with
    | none =>
      rw [hn] at hnewest
      exact .inr ⟨rfl,fun _ => hnewest⟩
    | some n =>
      rw [hn] at hnewest
      exact .inl ⟨n.2,hday,hnewest,rfl⟩
  · exact .inr ⟨rfl,fun h => absurd h hday⟩

theorem fst_of_mem_actionsOf (h : e ∈ actionsOf fired today nowMin q) :
    e.1 = q.queueId := by
  obtain ⟨isStart,-,-,heq⟩ | ⟨heq,-⟩ := actionsOf_cases fired today nowMin q
  · rw [heq, mem_singleton] at h
    rw [h]
  · rw [heq] at h
    cases h

theorem filter_actions (fired : Ledger) (today : ℤ) (nowMin : ℕ) {order : List QueueInfo}
    (hids : (order.map QueueInfo.queueId).Nodup)
    (hq : q ∈ order) :
    (order.flatMap (actionsOf fired today nowMin)).filter (fun e => e.1 = q.queueId) =
      actionsOf fired today nowMin q := by
  induction order with
  | nil => cases hq
  | cons p order ih =>
    rw [map_cons, nodup_cons] at hids
    rw [flatMap_cons, filter_append]
    rcases mem_cons.mp hq with rfl | hq
    · have hown : (actionsOf fired today nowMin q).filter (fun e => e.1 = q.queueId) =
          actionsOf fired today nowMin q := by
        rw [filter_eq_self]
        exact fun e he => by simpa using fst_of_mem_actionsOf he
      have hothers : (order.flatMap (actionsOf fired today nowMin)).filter
          (fun e => e.1 = q.queueId) = [] := by
        rw [filter_eq_nil_iff]
        intro e he heq
        obtain ⟨p,hp,hep⟩ := mem_flatMap.mp he
        refine hids.1 (mem_map.mpr ⟨p,hp,?_⟩)
        rw [← fst_of_mem_actionsOf hep]
        simpa using heq
      rw [hown, hothers, append_nil]
    · have hother : (actionsOf fired today nowMin p).filter (fun e => e.1 = q.queueId) = [] := by
        rw [filter_eq_nil_iff]
        intro e he heq
        refine hids.1 (mem_map.mpr ⟨q,hq,?_⟩)
        rw [← fst_of_mem_actionsOf he]
        exact (of_decide_eq_true heq).symm
      rw [hother, nil_append]
      exact ih hids.2 hq

/-! ## A tick -/

variable {order : List QueueInfo}

theorem tick_fired (e : ScheduleEdge) :
    (tickQueueSchedules s today nowMin order).scheduleFired e =
      if e ∈ order.flatMap (passedOf s.scheduleFired today nowMin) then some today
      else s.scheduleFired e := by
  simp only [tickQueueSchedules, dueScheduleActions_eq]

theorem tick_executed :
    (tickQueueSchedules s today nowMin order).executed =
      ((order.flatMap (actionsOf s.scheduleFired today nowMin)).map
        (Execution.mk today nowMin)).reverse ++ s.executed := by
  simp only [tickQueueSchedules, dueScheduleActions_eq]

theorem tick_history (hids : (order.map QueueInfo.queueId).Nodup) (hq : q ∈ order) :
    history (tickQueueSchedules s today nowMin order) q.queueId =
      ((actionsOf s.scheduleFired today nowMin q).map (Execution.mk today nowMin)).reverse ++
        history s q.queueId := by
  rw [history, tick_executed, filter_append, filter_reverse, filter_map]
  have hfilter := filter_actions s.scheduleFired today nowMin hids hq
  exact congrArg (fun l => (l.map (Execution.mk today nowMin)).reverse ++ history s q.queueId)
    hfilter

theorem mem_passed_iff (hids : (order.map QueueInfo.queueId).Nodup) (hq : q ∈ order) :
    (q.queueId, isStart) ∈ order.flatMap (passedOf fired today nowMin) ↔
      onDay q today = true ∧ ∃ time, DueAt q fired today nowMin isStart time := by
  rw [mem_flatMap]
  constructor
  · rintro ⟨p,hp,hpassed⟩
    obtain ⟨hday,hid,hdue⟩ := mem_passedOf.mp hpassed
    have hpq : p = q := inj_on_of_nodup_map hids hp hq hid.symm
    subst hpq
    exact ⟨hday,hdue⟩
  · rintro ⟨hday,hdue⟩
    exact ⟨q,hq,mem_passedOf.mpr ⟨hday,rfl,hdue⟩⟩

theorem tick_fired_of_due (hids : (order.map QueueInfo.queueId).Nodup) (hq : q ∈ order)
    (hday : onDay q today = true) {time : ℕ}
    (hdue : DueAt q s.scheduleFired today nowMin isStart time) :
    (tickQueueSchedules s today nowMin order).scheduleFired (q.queueId, isStart) = some today := by
  rw [tick_fired, if_pos ((mem_passed_iff hids hq).mpr ⟨hday,time,hdue⟩)]

theorem tick_fired_of_not_due (hids : (order.map QueueInfo.queueId).Nodup) (hq : q ∈ order)
    (hnot : ¬ (onDay q today = true ∧ ∃ time, DueAt q s.scheduleFired today nowMin isStart time)) :
    (tickQueueSchedules s today nowMin order).scheduleFired (q.queueId, isStart) =
      s.scheduleFired (q.queueId, isStart) := by
  rw [tick_fired, if_neg (fun h => hnot ((mem_passed_iff hids hq).mp h))]

/-! ## The invariant -/

/-- The edges of the day up to the last tick are handled, and the latest was executed last. -/
structure Handled (s : Manager) (q : QueueInfo) : Prop where
  onDay : onDay q s.day = true
  fired_iff : ∀ isStart time, edgeTime q isStart = some time →
    (s.scheduleFired (q.queueId, isStart) = some s.day ↔ time ≤ s.minute)
  last : ∀ isStart, LatestEdge q s.minute isStart →
    ∃ minute, (history s q.queueId).head? = some ⟨s.day,minute,(q.queueId, isStart)⟩

structure Inv (s : Manager) : Prop where
  ids : (s.queues.map QueueInfo.queueId).Nodup
  fired_le : ∀ e day, s.scheduleFired e = some day → day ≤ s.day
  handled : ∀ q ∈ s.queues, ∀ isStart, s.scheduleFired (q.queueId, isStart) = some s.day →
    Handled s q

theorem inv_launched {queues : List QueueInfo} (hids : (queues.map QueueInfo.queueId).Nodup)
    (day : ℤ) (minute : ℕ) : Inv (launched queues day minute) :=
  ⟨hids,fun _ _ h => (by cases h),fun _ _ _ h => (by cases h)⟩

/-- An edge that was already handled today was in time for the last tick. -/
theorem Inv.handled_today (h : Inv s)
    (hclock : s.day < today ∨ s.day = today ∧ s.minute ≤ nowMin) (hq : q ∈ s.queues)
    (hfired : s.scheduleFired (q.queueId, isStart) = some today) :
    s.day = today ∧ s.minute ≤ nowMin ∧ Handled s q := by
  have hle := h.fired_le _ _ hfired
  obtain hlt | ⟨rfl,hminute⟩ := hclock
  · omega
  · exact ⟨rfl,hminute,h.handled q hq isStart hfired⟩

section Tick

variable (h : Inv s) (hclock : s.day < today ∨ s.day = today ∧ s.minute ≤ nowMin)
  (hperm : order.Perm s.queues) (hq : q ∈ s.queues)
include h hclock hperm hq

theorem tick_fired_iff (hday : onDay q today = true) {time : ℕ}
    (htime : edgeTime q isStart = some time) :
    (tickQueueSchedules s today nowMin order).scheduleFired (q.queueId, isStart) = some today ↔
      time ≤ nowMin := by
  have hids : (order.map QueueInfo.queueId).Nodup := (hperm.map _).nodup_iff.mpr h.ids
  have hmem : q ∈ order := hperm.mem_iff.mpr hq
  by_cases hdue : DueAt q s.scheduleFired today nowMin isStart time
  · exact iff_of_true (tick_fired_of_due hids hmem hday hdue) hdue.2.1
  · rw [tick_fired_of_not_due hids hmem]
    · constructor
      · intro hfired
        obtain ⟨rfl,hminute,hhandled⟩ := h.handled_today hclock hq hfired
        exact ((hhandled.fired_iff isStart time htime).mp hfired).trans hminute
      · intro hle
        by_contra hfired
        exact hdue ⟨htime,hle,hfired⟩
    · rintro ⟨-,time',hdue'⟩
      obtain rfl : time' = time := some.inj (hdue'.1.symm.trans htime)
      exact hdue hdue'

/-- After a tick the latest edge of the day was executed last. -/
theorem tick_last (hday : onDay q today = true) (hlatest : LatestEdge q nowMin isStart) :
    ∃ minute, (history (tickQueueSchedules s today nowMin order) q.queueId).head? =
      some ⟨today,minute,(q.queueId, isStart)⟩ := by
  have hids : (order.map QueueInfo.queueId).Nodup := (hperm.map _).nodup_iff.mpr h.ids
  rw [tick_history hids (hperm.mem_iff.mpr hq)]
  obtain ⟨time,htime,hle,hmax⟩ := hlatest
  obtain ⟨newest,-,⟨time',hdue,hnewest⟩,heq⟩ | ⟨heq,hnone⟩ :=
    actionsOf_cases s.scheduleFired today nowMin q
  · rw [heq]
    have hown : DueAt q s.scheduleFired today nowMin isStart time := by
      refine ⟨htime,hle,?_⟩
      -- had the latest edge been handled before, the newest due edge would be later still
      intro hfired
      obtain ⟨rfl,-,hhandled⟩ := h.handled_today hclock hq hfired
      have hbefore := (hhandled.fired_iff isStart time htime).mp hfired
      have hafter := (hhandled.fired_iff newest time' hdue.1).not.mp hdue.2.2
      have hlate := (hmax newest time' hdue.1 hdue.2.1).1
      omega
    obtain ⟨hle',htie'⟩ := hmax newest time' hdue.1 hdue.2.1
    obtain ⟨hle'',htie''⟩ := hnewest isStart time hown
    have hsame : newest = isStart := by
      cases newest with
      | false => exact (htie' (by omega) rfl).symm
      | true =>
        cases isStart with
        | false => exact (htie'' (by omega) rfl)
        | true => rfl
    exact ⟨nowMin,by rw [hsame]; rfl⟩
  · rw [heq]
    have hfired : s.scheduleFired (q.queueId, isStart) = some today := by
      by_contra hfired
      exact hnone hday isStart time ⟨htime,hle,hfired⟩
    obtain ⟨rfl,hminute,hhandled⟩ := h.handled_today hclock hq hfired
    refine hhandled.last isStart ⟨time,htime,?_,?_⟩
    · exact (hhandled.fired_iff isStart time htime).mp hfired
    · exact fun other time' h' hle' => hmax other time' h' (hle'.trans hminute)

end Tick

theorem inv_tick (h : Inv s) (hclock : s.day < today ∨ s.day = today ∧ s.minute ≤ nowMin)
    (hperm : order.Perm s.queues) : Inv (tickQueueSchedules s today nowMin order) := by
  have hids : (order.map QueueInfo.queueId).Nodup := (hperm.map _).nodup_iff.mpr h.ids
  have hle : s.day ≤ today := by omega
  refine ⟨h.ids,?_,?_⟩
  · intro e day hfired
    rw [tick_fired] at hfired
    split_ifs at hfired
    · exact Int.le_of_eq (some.inj hfired).symm
    · exact Int.le_trans (h.fired_le e day hfired) hle
  · intro q hq isStart hfired
    have hday : onDay q today = true := by
      by_contra hoff
      rw [tick_fired_of_not_due hids (hperm.mem_iff.mpr hq) (fun hdue => hoff hdue.1)] at hfired
      obtain ⟨rfl,-,hhandled⟩ := h.handled_today hclock hq hfired
      exact hoff hhandled.onDay
    exact ⟨hday,fun _ _ => tick_fired_iff h hclock hperm hq hday,
      fun _ => tick_last h hclock hperm hq hday⟩

theorem inv_setQueueSchedule (h : Inv s) (enabled : Bool) (start stop : Text) (days : BitVec 32)
    (persisted : Bool) : Inv (setQueueSchedule s queueId enabled start stop days persisted) := by
  unfold setQueueSchedule
  split_ifs with hinvalid hpersisted
  · exact h
  · exact h
  · refine ⟨?_,?_,?_⟩
    · have hsame : ∀ q : QueueInfo,
          (if q.queueId = queueId then q.reschedule enabled start stop days else q).queueId =
            q.queueId := by
        intro q
        split_ifs <;> rfl
      simpa [Function.comp_def, hsame] using h.ids
    · intro e day hfired
      dsimp only at hfired
      split_ifs at hfired
      exact h.fired_le e day hfired
    · intro q hq isStart hfired
      obtain ⟨p,hp,rfl⟩ := mem_map.mp hq
      by_cases hid : p.queueId = queueId
      · -- its edges are armed again
        rw [if_pos hid] at hfired
        exact absurd hfired (by simp [QueueInfo.reschedule, hid])
      · rw [if_neg hid] at hfired ⊢
        simp only [if_neg hid] at hfired
        obtain ⟨hday,hfirediff,hlast⟩ := h.handled p hp isStart hfired
        refine ⟨hday,?_,hlast⟩
        intro other time htime
        simpa only [if_neg hid] using hfirediff other time htime

theorem step_inv {a : Label} (h : Inv s) (hstep : step s a = some t) : Inv t := by
  cases a with
  | tick today nowMin order =>
    simp only [step] at hstep
    split_ifs at hstep with henabled
    cases hstep
    exact inv_tick h henabled.1 henabled.2
  | setQueueSchedule queueId enabled start stop days persisted =>
    cases hstep
    exact inv_setQueueSchedule h enabled start stop days persisted
  | restart =>
    cases hstep
    exact ⟨h.ids,fun _ _ hfired => (by cases hfired),fun _ _ _ hfired => (by cases hfired)⟩

theorem inv_of_reachable (hs : Reachable s) : Inv s := by
  obtain ⟨queues,day,minute,labels,hids,hrun⟩ := hs
  exact exec_invariant (fun _ _ _ => step_inv) (inv_launched hids day minute) hrun

/-! ## Once a day -/

/-- Since `s` the edge was executed at most once on the day, and then it is recorded. -/
structure OnceSince (s : Manager) (day : ℤ) (edge : ScheduleEdge) (t : Manager) : Prop where
  inv : Inv t
  grows : timesExecuted s day edge ≤ timesExecuted t day edge
  bound : timesExecuted t day edge ≤ timesExecuted s day edge + 1
  recorded : timesExecuted s day edge < timesExecuted t day edge →
    ∃ last, t.scheduleFired edge = some last ∧ day ≤ last

theorem countP_actionsOf_le :
    (actionsOf fired today nowMin q).countP (fun e => e = edge) ≤ 1 := by
  obtain ⟨isStart,-,-,heq⟩ | ⟨heq,-⟩ := actionsOf_cases fired today nowMin q
  · rw [heq]
    exact countP_le_length
  · rw [heq]
    exact Nat.zero_le _

theorem tick_timesExecuted (s : Manager) (today day : ℤ) (nowMin : ℕ)
    (hids : (order.map QueueInfo.queueId).Nodup) (edge : ScheduleEdge) :
    timesExecuted (tickQueueSchedules s today nowMin order) day edge = timesExecuted s day edge ∨
    timesExecuted (tickQueueSchedules s today nowMin order) day edge =
        timesExecuted s day edge + 1 ∧
      day = today ∧ s.scheduleFired edge ≠ some today ∧
      edge ∈ order.flatMap (passedOf s.scheduleFired today nowMin) := by
  have hcount : timesExecuted (tickQueueSchedules s today nowMin order) day edge =
      (if day = today then
        (order.flatMap (actionsOf s.scheduleFired today nowMin)).countP (fun e => e = edge) else 0) +
      timesExecuted s day edge := by
    rw [timesExecuted, tick_executed, countP_append, countP_reverse, countP_map]
    refine congrArg (· + timesExecuted s day edge) ?_
    split_ifs with hday
    · simp [Function.comp_def, hday]
    · rw [countP_eq_zero]
      intro e _ hsame
      exact hday (of_decide_eq_true hsame).1.symm
  rw [hcount]
  by_cases hmem : day = today ∧ edge ∈ order.flatMap (actionsOf s.scheduleFired today nowMin)
  · obtain ⟨hday,hmem⟩ := hmem
    obtain ⟨q,hq,he⟩ := mem_flatMap.mp hmem
    have hid := fst_of_mem_actionsOf he
    have hown : (order.flatMap (actionsOf s.scheduleFired today nowMin)).countP
        (fun e => e = edge) = (actionsOf s.scheduleFired today nowMin q).countP
        (fun e => e = edge) := by
      rw [← filter_actions s.scheduleFired today nowMin hids hq, countP_filter]
      refine countP_congr ?_
      intro e _
      simpa using fun heq : e = edge => heq ▸ hid
    have hone : (actionsOf s.scheduleFired today nowMin q).countP (fun e => e = edge) = 1 := by
      refine Nat.le_antisymm countP_actionsOf_le ?_
      exact countP_pos_iff.mpr ⟨edge,he,by simp⟩
    obtain ⟨isStart,hon,⟨time,hdue,-⟩,heq⟩ | ⟨heq,-⟩ :=
      actionsOf_cases s.scheduleFired today nowMin q
    · rw [heq, mem_singleton] at he
      subst he
      rw [if_pos hday, hown, hone]
      refine .inr ⟨Nat.add_comm _ _,hday,hdue.2.2,?_⟩
      exact (mem_passed_iff hids hq).mpr ⟨hon,time,hdue⟩
    · rw [heq] at he
      cases he
  · refine .inl ?_
    split_ifs with hday
    · rw [countP_eq_zero.mpr, Nat.zero_add]
      intro e he heq
      exact hmem ⟨hday,of_decide_eq_true heq ▸ he⟩
    · exact Nat.zero_add _

theorem once_tick (h : OnceSince s day edge t)
    (hclock : t.day < today ∨ t.day = today ∧ t.minute ≤ nowMin) (hperm : order.Perm t.queues) :
    OnceSince s day edge (tickQueueSchedules t today nowMin order) := by
  have hids : (order.map QueueInfo.queueId).Nodup := (hperm.map _).nodup_iff.mpr h.inv.ids
  have hgrows := h.grows
  have hbound := h.bound
  obtain heq | ⟨heq,rfl,hnot,hpassed⟩ := tick_timesExecuted t today day nowMin hids edge
  · refine ⟨inv_tick h.inv hclock hperm,by omega,by omega,?_⟩
    intro hlt
    obtain ⟨last,hlast,hle⟩ := h.recorded (by omega)
    rw [tick_fired]
    split_ifs
    · have hday := h.inv.fired_le edge last hlast
      exact ⟨today,rfl,by omega⟩
    · exact ⟨last,hlast,hle⟩
  · have hfirst : timesExecuted t day edge = timesExecuted s day edge := by
      by_contra hne
      obtain ⟨last,hlast,hle⟩ := h.recorded (by omega)
      have hday := h.inv.fired_le edge last hlast
      have hsame : last = day := by omega
      exact hnot (hsame ▸ hlast)
    refine ⟨inv_tick h.inv hclock hperm,by omega,by omega,?_⟩
    intro _
    exact ⟨day,by rw [tick_fired, if_pos hpassed],Int.le_refl _⟩

theorem once_run {labels : List Label} (h : Inv s) (hlabels : ∀ a ∈ labels, a.rearms edge.1 = false)
    (hrun : exec step s labels = some t) (day : ℤ) : OnceSince s day edge t := by
  suffices hgen : ∀ u, OnceSince s day edge u → exec step u labels = some t →
      OnceSince s day edge t from
    hgen s ⟨h,Nat.le_refl _,Nat.le_succ _,fun hlt => absurd hlt (Nat.lt_irrefl _)⟩ hrun
  clear hrun
  induction labels with
  | nil =>
    intro u hu hrun
    cases hrun
    exact hu
  | cons a labels ih =>
    intro u hu hrun
    obtain ⟨v,hstep,hrest⟩ := exec_cons_iff.mp hrun
    refine ih (fun b hb => hlabels b (mem_cons_of_mem a hb)) v ?_ hrest
    have harms := hlabels a mem_cons_self
    have hv := step_inv hu.inv hstep
    cases a with
    | tick today nowMin order =>
      simp only [step] at hstep
      split_ifs at hstep with henabled
      cases hstep
      exact once_tick hu henabled.1 henabled.2
    | setQueueSchedule queueId enabled start stop days persisted =>
      cases hstep
      have hid : edge.1 ≠ queueId := fun hid => by simp [Label.rearms, hid] at harms
      unfold setQueueSchedule at hv ⊢
      split_ifs at hv ⊢
      · exact hu
      · exact hu
      · refine ⟨hv,hu.grows,hu.bound,?_⟩
        intro hlt
        obtain ⟨last,hlast,hle⟩ := hu.recorded hlt
        exact ⟨last,(if_neg hid).trans hlast,hle⟩
    | restart => cases harms

/-! ## Schedules are followed -/

theorem exists_latestEdge {time : ℕ} (htime : edgeTime q isStart = some time)
    (hle : time ≤ minute) : ∃ isStart, LatestEdge q minute isStart := by
  by_cases hstop : ∃ stop, edgeTime q false = some stop ∧ stop ≤ minute ∧
      ∀ start, edgeTime q true = some start → start ≤ minute → start ≤ stop
  · obtain ⟨stop,hstop,hin,hmax⟩ := hstop
    refine ⟨false,stop,hstop,hin,?_⟩
    intro other time' htime' hle'
    cases other with
    | false => exact ⟨(some.inj (htime'.symm.trans hstop)).le,fun _ _ => rfl⟩
    | true => exact ⟨hmax time' htime' hle',fun _ _ => rfl⟩
  · have hstart : ∃ start, edgeTime q true = some start ∧ start ≤ minute ∧
        ∀ stop, edgeTime q false = some stop → stop ≤ minute → stop < start := by
      cases isStart with
      | true =>
        refine ⟨time,htime,hle,?_⟩
        intro stop hs hin
        by_contra hnot
        refine hstop ⟨stop,hs,hin,?_⟩
        intro start hstart _
        obtain rfl : start = time := some.inj (hstart.symm.trans htime)
        omega
      | false =>
        have hnot : ¬ ∀ start, edgeTime q true = some start → start ≤ minute → start ≤ time :=
          fun hmax => hstop ⟨time,htime,hle,hmax⟩
        simp only [not_forall, Nat.not_le] at hnot
        obtain ⟨start,hstart,hin,hlt⟩ := hnot
        refine ⟨start,hstart,hin,?_⟩
        intro stop hs _
        obtain rfl : stop = time := some.inj (hs.symm.trans htime)
        exact hlt
    obtain ⟨start,hstart,hin,hmax⟩ := hstart
    refine ⟨true,start,hstart,hin,?_⟩
    intro other time' htime' hle'
    cases other with
    | false =>
      have hlt := hmax time' htime' hle'
      exact ⟨hlt.le,fun heq _ => absurd heq (Nat.ne_of_lt hlt)⟩
    | true => exact ⟨(some.inj (htime'.symm.trans hstart)).le,fun _ h => h⟩

theorem tick_history_of_no_edge (hids : (order.map QueueInfo.queueId).Nodup) (hq : q ∈ order)
    (hnone : onDay q today = false ∨ ∀ isStart, ¬ LatestEdge q nowMin isStart) :
    history (tickQueueSchedules s today nowMin order) q.queueId = history s q.queueId := by
  rw [tick_history hids hq]
  obtain ⟨isStart,hday,⟨time,hdue,-⟩,-⟩ | ⟨heq,-⟩ :=
    actionsOf_cases s.scheduleFired today nowMin q
  · obtain hoff | hnone := hnone
    · rw [hday] at hoff
      cases hoff
    · obtain ⟨latest,hlatest⟩ := exists_latestEdge hdue.1 hdue.2.1
      exact absurd hlatest (hnone latest)
  · rw [heq]
    rfl

theorem tick_enabled (hstep : step s (.tick today nowMin order) = some t) :
    (s.day < today ∨ s.day = today ∧ s.minute ≤ nowMin) ∧ order.Perm s.queues ∧
      t = tickQueueSchedules s today nowMin order := by
  simp only [step] at hstep
  split_ifs at hstep with henabled
  exact ⟨henabled.1,henabled.2,(some.inj hstep).symm⟩

/-- An edge is executed at most once a day until it is armed again, and after a tick the last
execution for a queue is the latest edge of the day, if one has passed. So ticks at the same minute
leave the same run state; before the first edge of the day they leave it as it was. -/
theorem schedules_followed (hs : Reachable s) :
    (∀ labels t edge day, exec step s labels = some t →
      (∀ a ∈ labels, a.rearms edge.1 = false) →
      timesExecuted t day edge ≤ timesExecuted s day edge + 1) ∧
    ∀ today nowMin order t, step s (.tick today nowMin order) = some t → ∀ q ∈ s.queues,
      (∀ isStart, onDay q today = true → LatestEdge q nowMin isStart →
        (∃ minute, (history t q.queueId).head? = some ⟨today,minute,(q.queueId, isStart)⟩) ∧
        ∀ s' order' t', Reachable s' → step s' (.tick today nowMin order') = some t' →
          q ∈ s'.queues → scheduledState t' q.queueId = scheduledState t q.queueId) ∧
      (onDay q today = false ∨ (∀ isStart, ¬ LatestEdge q nowMin isStart) →
        scheduledState t q.queueId = scheduledState s q.queueId) := by
  have hinv := inv_of_reachable hs
  refine ⟨?_,?_⟩
  · intro labels t edge day hrun hlabels
    exact (once_run hinv hlabels hrun day).bound
  · intro today nowMin order t hstep q hq
    obtain ⟨hclock,hperm,rfl⟩ := tick_enabled hstep
    refine ⟨?_,?_⟩
    · intro isStart hday hlatest
      have hlast := tick_last hinv hclock hperm hq hday hlatest
      refine ⟨hlast,?_⟩
      intro s' order' t' hs' hstep' hq'
      obtain ⟨hclock',hperm',rfl⟩ := tick_enabled hstep'
      obtain ⟨minute,hminute⟩ := hlast
      obtain ⟨minute',hminute'⟩ := tick_last (inv_of_reachable hs') hclock' hperm' hq' hday hlatest
      rw [scheduledState, scheduledState, hminute, hminute']
      rfl
    · intro hnone
      have hids : (order.map QueueInfo.queueId).Nodup := (hperm.map _).nodup_iff.mpr hinv.ids
      rw [scheduledState, tick_history_of_no_edge hids (hperm.mem_iff.mpr hq) hnone]
      rfl

/-- A queue that starts at eight and stops at twenty every day. -/
def sampleQueue : QueueInfo :=
  ⟨"q",true,['0', '8', ':', '0', '0'],['2', '0', ':', '0', '0'],0x7f⟩

/-- The machine slept through the stop of the day before in one of two runs. -/
theorem missed_stop_is_not_caught_up :
    ¬ ∀ labels labels' day minute t t' queueId,
      exec step (launched [sampleQueue] 0 0) (labels ++ [.tick day minute [sampleQueue]]) = some t →
      exec step (launched [sampleQueue] 0 0) (labels' ++ [.tick day minute [sampleQueue]]) =
        some t' →
      scheduledState t queueId = scheduledState t' queueId := by
  intro hclaim
  have h := hclaim [.tick 0 540 [sampleQueue], .tick 0 1260 [sampleQueue]]
    [.tick 0 540 [sampleQueue]] 1 1 _ _ "q" rfl rfl
  exact absurd h (by decide)

theorem schedules_followed_sample :
    Reachable (launched [sampleQueue] 0 0) ∧
      scheduledState (tickQueueSchedules (launched [sampleQueue] 0 0) 0 540 [sampleQueue]) "q" =
        some true := by
  have hreach : Reachable (launched [sampleQueue] 0 0) :=
    ⟨[sampleQueue],0,0,[],by simp,rfl⟩
  refine ⟨hreach,?_⟩
  have hlatest : LatestEdge sampleQueue 540 true := by
    refine ⟨480,by decide,by decide,?_⟩
    intro other time' htime hle
    cases other with
    | false =>
      obtain rfl : 1200 = time' := some.inj htime
      omega
    | true =>
      obtain rfl : 480 = time' := some.inj htime
      exact ⟨Nat.le_refl _,fun _ h => h⟩
  obtain ⟨⟨minute,hlast⟩,-⟩ := (((schedules_followed hreach).2 0 540 [sampleQueue] _ rfl
    sampleQueue (by simp [launched])).1 true (by decide) hlatest)
  exact congrArg (Option.map (fun e => e.edge.2)) hlast

end RinaDown.QueueSchedules
