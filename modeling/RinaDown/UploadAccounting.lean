import Mathlib.Algebra.Order.BigOperators.Group.List
import RinaDown.LabelledExecutions
import RinaDown.Lists

/-!
# Accounts of uploads

The engine counts what a torrent has uploaded since it was last started. The progress reporter
adds what its readings of the counter have grown by to the total of the task, and the seeding
manager does the same from the reading with which the task was completed. A frame by which a task
stops drops the state of the reporter. A total is right as long as each reading comes after the last
one of its own session, or after none.
-/

namespace RinaDown.UploadAccounting

open LabelledExecutions RinaDown.Lists List Option

/-! ## The reporter -/

structure TaskSpeedState where
  lastUploadedSnapshot : ℤ
  cumulativeUploaded : ℤ
deriving DecidableEq

def TaskSpeedState.loadTotal (state : TaskSpeedState) (total : ℤ) : TaskSpeedState :=
  if state.cumulativeUploaded = 0 then { state with cumulativeUploaded := total } else state

/-- What the reporter does with the upload statistics of an update. A counter that has gone down
becomes the new baseline. -/
def progressReporter (state : TaskSpeedState) (total uploadedBytes uploadSpeedBps : ℤ)
    (added : Bool) : TaskSpeedState × ℤ :=
  let state := state.loadTotal total
  if uploadedBytes > 0 ∨ uploadSpeedBps > 0 ∨ state.lastUploadedSnapshot > 0 then
    let delta :=
      if uploadedBytes ≥ state.lastUploadedSnapshot then
        uploadedBytes - state.lastUploadedSnapshot
      else 0
    if delta > 0 then
      if added then (⟨uploadedBytes,total + delta⟩, total + delta)
      else (⟨uploadedBytes,state.cumulativeUploaded + delta⟩, total)
    else ({ state with lastUploadedSnapshot := uploadedBytes }, total)
  else (state, total)

/-! ## The seeding manager -/

/-- A task is not registered, seeds with a baseline, or waits for a slot. -/
inductive Seeding where
  | absent
  | active (lastSessionUploaded : ℤ)
  | queued
deriving DecidableEq

/-- A task that is registered stays as it is. -/
def register (seeding : Seeding) (free : Bool) (lastSessionUploaded : ℤ) : Seeding :=
  match seeding with
  | .absent => if free then .active lastSessionUploaded else .queued
  | seeding => seeding

/-- The delta and the new baseline. A counter that has gone down is counted from zero. -/
def applyUploadSnapshot (seeding : Seeding) (snapshot : ℤ) : Option (ℤ × ℤ) :=
  if snapshot < 0 then none
  else
    match seeding with
    | .active lastSessionUploaded =>
        let last := if snapshot < lastSessionUploaded then 0 else lastSessionUploaded
        some (snapshot - last, if snapshot - last ≥ 0 then snapshot else last)
    | _ => none

/-! ## Histories -/

/-- A session with its counter, how far the readings went that were reported, where seeding took
over, and how far the readings went that were applied while seeding. -/
structure Session where
  counter : ℤ
  reported : ℤ
  handed : Option ℤ
  seeded : ℤ
deriving DecidableEq

/-- A reading of the counter of a session, or a number that is sent when there is no counter. A
frame says with it whether the task stops. -/
structure Reading where
  session : Option ℕ
  value : ℤ
  forSeeding : Bool
  terminal : Bool
deriving DecidableEq

/-- The sessions are in their order, the last is the one that is live, and the readings have not
been applied. What the reporter was last given since it has its state, and the seeding manager since
the task seeds, is recorded. -/
structure State where
  live : Bool
  sessions : List Session
  readings : List Reading
  reporter : TaskSpeedState
  lastFrame : Option Reading
  seeding : Seeding
  lastSeeded : Option Reading
  uploadedBytes : ℤ
  base : ℤ
  failed : Bool

def startState (base : ℤ) : State := ⟨false,[],[],⟨0,0⟩,none,.absent,none,base,base,false⟩

inductive Label where
  | start
  | upload (bytes : ℕ)
  | stop
  | read
  | idle (terminal : Bool)
  | readSeeding
  | complete (free : Bool)
  | report (reading : ℕ) (uploadSpeedBps : ℤ) (added : Bool)
  | seed (reading : ℕ) (added : Bool)
  | promote
  | demote
  | unregister

def current (s : State) : ℕ := s.sessions.length - 1

def counter (s : State) : ℤ := ((s.sessions[current s]?).map Session.counter).getD 0

def modifySession (s : State) (k : ℕ) (f : Session → Session) : State :=
  { s with sessions := s.sessions.modify k f }

def reading (s : State) (otherwise : ℤ) (forSeeding terminal : Bool) : Reading :=
  if s.live then ⟨some (current s),counter s,forSeeding,terminal⟩
  else ⟨none,otherwise,forSeeding,terminal⟩

def take (s : State) (r : Reading) : State := { s with readings := s.readings ++ [r] }

/-- Without a live counter the total of the task is taken for one. -/
def complete (s : State) (free : Bool) : State :=
  let r := reading s s.uploadedBytes false true
  let s' :=
    { take s r with
      seeding := register s.seeding free r.value
      lastSeeded := if s.seeding = .absent then some r else s.lastSeeded }
  if s.live ∧ s.seeding = .absent ∧ free then
    modifySession s' (current s) fun x => { x with handed := some r.value, seeded := r.value }
  else s'

/-- A session is noted as reported up to the reading. A frame of a task that stops drops the state
of the reporter, and the next one begins with a new state. -/
def report (s : State) (r : Reading) (uploadSpeedBps : ℤ) (added : Bool) : State :=
  let out := progressReporter s.reporter s.uploadedBytes r.value uploadSpeedBps added
  let s' :=
    { s with
      reporter := if r.terminal then ⟨0,0⟩ else out.1
      lastFrame := if r.terminal then none else some r
      uploadedBytes := out.2
      failed := s.failed || !added }
  match r.session with
  | some k => modifySession s' k fun x => { x with reported := r.value }
  | none => s'

def seed (s : State) (r : Reading) (added : Bool) : State :=
  match applyUploadSnapshot s.seeding r.value with
  | none => s
  | some (delta, last) =>
      let s' :=
        { s with
          seeding := .active last
          lastSeeded := some r
          uploadedBytes := if added then s.uploadedBytes + delta else s.uploadedBytes
          failed := s.failed || !added }
      match r.session with
      | some k =>
          modifySession s' k fun x =>
            { x with handed := some (x.handed.getD 0), seeded := r.value }
      | none => s'

def step (s : State) : Label → Option State
  | .start =>
      if s.live then none
      else some { s with live := true, sessions := s.sessions ++ [⟨0,0,none,0⟩] }
  | .upload bytes =>
      if s.live then
        some (modifySession s (current s) fun x => { x with counter := x.counter + bytes })
      else none
  | .stop => if s.live then some { s with live := false } else none
  | .read => some (take s (reading s 0 false false))
  | .idle terminal => some (take s ⟨none,0,false,terminal⟩)
  | .readSeeding =>
      -- A paused torrent is not read.
      match s.live, s.seeding with
      | true, .active _ => some (take s (reading s 0 true false))
      | _, _ => none
  | .complete free => some (complete s free)
  | .report i uploadSpeedBps added =>
      match s.readings[i]? with
      | some r =>
          if r.forSeeding then none
          else some (report { s with readings := s.readings.eraseIdx i } r uploadSpeedBps added)
      | none => none
  | .seed i added =>
      match s.readings[i]? with
      | some r =>
          if r.forSeeding then some (seed { s with readings := s.readings.eraseIdx i } r added)
          else none
      | none => none
  | .promote =>
      if s.seeding = .queued then some { s with seeding := .active 0, lastSeeded := none } else none
  | .demote =>
      match s.seeding with
      | .active _ => some { s with seeding := .queued }
      | _ => none
  | .unregister => some { s with seeding := .absent }

/-! ## What holds -/

/-- The last reading of the session has been applied on each side of the hand-over. -/
def Session.Observed (x : Session) : Prop :=
  x.reported = x.handed.getD x.counter ∧ ∀ c ∈ x.handed, x.seeded = x.counter

/-- The total never exceeds the counters, and reaches them when all sessions have been observed
and no addition has failed. -/
structure Accounted (s : State) : Prop where
  bound : s.uploadedBytes ≤ s.base + (s.sessions.map Session.counter).sum
  exact : s.failed = false → (∀ x ∈ s.sessions, x.Observed) →
    s.uploadedBytes = s.base + (s.sessions.map Session.counter).sum

/-- A reading is between the last of its session and the hand-over. Unless it is zero, the frame
before it was of the session too, or nothing was reported of the session and that frame, if the
reporter has any, had no number. -/
def ReportFollows (s : State) (r : Reading) : Prop :=
  match r.session with
  | none => r.value = 0
  | some k =>
      ∀ x ∈ s.sessions[k]?, x.reported ≤ r.value ∧ (∀ c ∈ x.handed, r.value ≤ c) ∧
        (r.value = 0 ∨ s.lastFrame.bind Reading.session = some k ∨
          x.reported = 0 ∧ ∀ q ∈ s.lastFrame, q.value = 0)

/-- A reading of a session that seeds comes after another of it. For a session of which nothing has
been counted, the one before it, if the task has seeded since it got its slot, is zero or above. -/
def SeedFollows (s : State) (r : Reading) : Prop :=
  match r.session with
  | none => True
  | some k =>
      ∀ x ∈ s.sessions[k]?,
        if x.handed = none then
          x.reported = 0 ∧ ∀ q ∈ s.lastSeeded, q.value = 0 ∨ r.value < q.value
        else s.lastSeeded.bind Reading.session = some k ∧ x.seeded ≤ r.value

/-- The readings that are applied follow each other, and a session is handed over once. -/
def Careful (s : State) : Label → Prop
  | .complete free =>
      s.live = true → s.seeding = .absent → free = true →
        ∀ x ∈ s.sessions[current s]?, x.handed = none
  | .report i _ _ => ∀ r ∈ s.readings[i]?, ReportFollows s r
  | .seed i _ => ∀ r ∈ s.readings[i]?, SeedFollows s r
  | _ => True

/-! ## One reading -/

theorem lastUploadedSnapshot_loadTotal (state : TaskSpeedState) (total : ℤ) :
    (state.loadTotal total).lastUploadedSnapshot = state.lastUploadedSnapshot := by
  rw [TaskSpeedState.loadTotal]
  split_ifs <;> rfl

/-- A reading is the next baseline, and is counted from the last one if it is not below that. -/
theorem progressReporter_spec {state : TaskSpeedState} {value : ℤ} (total uploadSpeedBps : ℤ)
    (added : Bool) (hnonneg : 0 ≤ state.lastUploadedSnapshot) (hvalue : 0 ≤ value) :
    (progressReporter state total value uploadSpeedBps added).1.lastUploadedSnapshot = value ∧
      (progressReporter state total value uploadSpeedBps added).2 =
        total + if added = true ∧ state.lastUploadedSnapshot ≤ value then
          value - state.lastUploadedSnapshot else 0 := by
  simp only [progressReporter, lastUploadedSnapshot_loadTotal]
  grind [lastUploadedSnapshot_loadTotal]

/-- A seeder counts a reading from its baseline, or from zero, and has it for the next baseline. -/
theorem applyUploadSnapshot_active {last value : ℤ} (hvalue : 0 ≤ value) :
    applyUploadSnapshot (.active last) value =
      some (value - (if value < last then 0 else last), value) := by
  rw [applyUploadSnapshot, if_neg (by omega)]
  grind

/-! ## The invariant -/

variable {k : ℕ} {x : Session} {s : State} {f : Session → Session} {observed : Session → Option ℤ}
  {sessions : List Session} {r : Reading}

/-- What has been counted of a session, on both sides of the hand-over. -/
def Session.counted (x : Session) : ℤ := x.reported + x.handed.elim 0 (x.seeded - ·)

structure Session.Sound (x : Session) : Prop where
  nonneg : 0 ≤ x.reported
  reported_le : x.reported ≤ x.handed.getD x.counter
  seeded_le : ∀ c ∈ x.handed, c ≤ x.seeded ∧ x.seeded ≤ x.counter

theorem Session.Sound.counted_le (h : x.Sound) : x.counted ≤ x.counter := by
  obtain ⟨-,hreported,hseeded⟩ := h
  rw [Session.counted]
  cases hhanded : x.handed with
  | none =>
      rw [hhanded] at hreported
      simpa using hreported
  | some c =>
      obtain ⟨-,hle⟩ := hseeded c hhanded
      rw [hhanded] at hreported
      change x.reported ≤ c at hreported
      change x.reported + (x.seeded - c) ≤ x.counter
      omega

theorem Session.Observed.counted_eq (h : x.Observed) : x.counted = x.counter := by
  obtain ⟨hreported,hseeded⟩ := h
  rw [Session.counted]
  cases hhanded : x.handed with
  | none =>
      rw [hhanded] at hreported
      simpa using hreported
  | some c =>
      rw [hhanded] at hreported
      change x.reported = c at hreported
      change x.reported + (x.seeded - c) = x.counter
      rw [hseeded c hhanded]
      omega

/-- A reading is not above the counter it was taken from, and a seeder reads a counter. -/
structure Reading.Sound (sessions : List Session) (r : Reading) : Prop where
  value : ∀ k, r.session = some k → 0 ≤ r.value ∧ ∃ x, sessions[k]? = some x ∧ r.value ≤ x.counter
  session : r.forSeeding = true → r.session ≠ none

/-- The baseline is the number of the last reading, up to which its session has been observed. -/
structure Baseline (observed : Session → Option ℤ) (baseline : ℤ) (last : Option Reading)
    (sessions : List Session) : Prop where
  value : baseline = (last.map Reading.value).getD 0
  session : ∀ r ∈ last, ∀ k, r.session = some k →
    ∃ x, sessions[k]? = some x ∧ observed x = some r.value

def Session.reporterHas (x : Session) : Option ℤ := some x.reported

def Session.seederHas (x : Session) : Option ℤ := x.handed.map fun _ => x.seeded

structure Inv (s : State) : Prop where
  sound : ∀ x ∈ s.sessions, x.Sound
  readings : ∀ r ∈ s.readings, r.Sound s.sessions
  nonneg : ∀ x ∈ s.sessions, 0 ≤ x.counter
  baseline : 0 ≤ s.reporter.lastUploadedSnapshot
  reporter : Baseline Session.reporterHas s.reporter.lastUploadedSnapshot s.lastFrame s.sessions
  seeder : ∀ last, s.seeding = .active last →
    Baseline Session.seederHas last s.lastSeeded s.sessions
  live : s.live = true → s.sessions ≠ []
  total_le : s.uploadedBytes ≤ s.base + (s.sessions.map Session.counted).sum
  total_eq : s.failed = false → s.uploadedBytes = s.base + (s.sessions.map Session.counted).sum

theorem inv_startState (base : ℤ) : Inv (startState base) where
  sound _ h := nomatch h
  readings _ h := nomatch h
  nonneg _ h := nomatch h
  baseline := le_rfl
  reporter := ⟨rfl,nofun⟩
  seeder _ h := nomatch h
  live h := nomatch h
  total_le := (add_zero base).ge
  total_eq _ := (add_zero base).symm

theorem Inv.accounted (h : Inv s) : Accounted s where
  bound := by
    have hle : (s.sessions.map Session.counted).sum ≤ (s.sessions.map Session.counter).sum :=
      sum_le_sum fun x hx => (h.sound x hx).counted_le
    have := h.total_le
    omega
  exact hfailed hobserved := by
    have heq : s.sessions.map Session.counted = s.sessions.map Session.counter :=
      map_congr_left fun x hx => (hobserved x hx).counted_eq
    rw [← heq]
    exact h.total_eq hfailed

theorem Baseline.modify {baseline : ℤ} {last : Option Reading}
    (h : Baseline observed baseline last sessions) (k : ℕ) (hf : ∀ x, observed (f x) = observed x) :
    Baseline observed baseline last (sessions.modify k f) := by
  refine ⟨h.value,?_⟩
  intro r hr j hj
  obtain ⟨x,hx,hobserved⟩ := h.session r hr j hj
  rw [getElem?_modify, hx]
  by_cases hkj : k = j
  · exact ⟨f x,by simp [hkj],(hf x).trans hobserved⟩
  · exact ⟨x,by simp [hkj],hobserved⟩

theorem Baseline.append {baseline : ℤ} {last : Option Reading}
    (h : Baseline observed baseline last sessions) (x : Session) :
    Baseline observed baseline last (sessions ++ [x]) := by
  refine ⟨h.value,?_⟩
  intro r hr k hk
  obtain ⟨y,hy,hobserved⟩ := h.session r hr k hk
  exact ⟨y,(List.getElem?_append_left (List.getElem?_eq_some_iff.mp hy).1).trans hy,hobserved⟩

/-- The reading that is applied to a session is the last one. -/
theorem Baseline.applied (r : Reading) (hsession : r.session = some k) (hx : sessions[k]? = some x)
    (hf : observed (f x) = some r.value) :
    Baseline observed r.value (some r) (sessions.modify k f) := by
  refine ⟨rfl,?_⟩
  rintro q ⟨⟩ j hj
  obtain rfl := some.inj (hsession.symm.trans hj)
  refine ⟨f x,?_,hf⟩
  rw [getElem?_modify, hx]
  simp

/-- A session is changed and the total grows by what is counted of it. -/
theorem Inv.modify {t : State} (h : Inv s) (hx : s.sessions[k]? = some x)
    (hsessions : t.sessions = s.sessions.modify k f) (hsound : (f x).Sound)
    (hcounter : x.counter ≤ (f x).counter) (hreadings : ∀ r ∈ t.readings, r ∈ s.readings)
    (hbaseline : 0 ≤ t.reporter.lastUploadedSnapshot)
    (hreporter : Baseline Session.reporterHas t.reporter.lastUploadedSnapshot t.lastFrame t.sessions)
    (hseeder : ∀ last, t.seeding = .active last → Baseline Session.seederHas last t.lastSeeded t.sessions)
    (hbase : t.base = s.base)
    (hle : t.uploadedBytes ≤ s.uploadedBytes + ((f x).counted - x.counted))
    (heq : t.failed = false → s.failed = false ∧ t.uploadedBytes = s.uploadedBytes + ((f x).counted - x.counted)) :
    Inv t := by
  have hsum := sum_map_modify Session.counted (f := f) hx
  have hnew : (s.sessions.modify k f)[k]? = some (f x) := by
    rw [getElem?_modify, hx]
    simp
  have hmem : ∀ y ∈ t.sessions, y ∈ s.sessions ∨ y = f x := by
    intro y hy
    rw [hsessions] at hy
    obtain ⟨j,hj⟩ := mem_iff_getElem?.mp hy
    rw [getElem?_modify] at hj
    obtain ⟨z,hz,rfl⟩ := map_eq_some_iff.mp hj
    by_cases hkj : k = j
    · subst hkj
      rw [hx] at hz
      cases hz
      exact .inr (if_pos rfl)
    · rw [if_neg hkj]
      exact .inl (mem_of_getElem? hz)
  refine ⟨?_,?_,?_,hbaseline,hreporter,hseeder,?_,?_,?_⟩
  · intro y hy
    rcases hmem y hy with hy | rfl
    · exact h.sound y hy
    · exact hsound
  · intro r hr
    obtain ⟨hvalue,hsession⟩ := h.readings r (hreadings r hr)
    refine ⟨fun j hj => ?_,hsession⟩
    obtain ⟨hnonneg,y,hy,hle⟩ := hvalue j hj
    refine ⟨hnonneg,?_⟩
    rw [hsessions]
    by_cases hkj : k = j
    · subst hkj
      rw [hx] at hy
      cases hy
      exact ⟨f x,hnew,hle.trans hcounter⟩
    · refine ⟨y,?_,hle⟩
      rw [getElem?_modify, hy]
      simp [hkj]
  · intro y hy
    rcases hmem y hy with hy | rfl
    · exact h.nonneg y hy
    · exact (h.nonneg x (mem_of_getElem? hx)).trans hcounter
  · intro _ hnil
    rw [hsessions] at hnil
    rw [hnil] at hnew
    cases hnew
  · rw [hsessions, hsum, hbase]
    have := h.total_le
    omega
  · intro hfailed
    obtain ⟨hfailed,htotal⟩ := heq hfailed
    rw [hsessions, hsum, hbase, htotal, h.total_eq hfailed]
    omega

theorem Inv.frame {t : State} (h : Inv s) (hsessions : t.sessions = s.sessions)
    (hlive : t.live = true → s.live = true)
    (hreadings : ∀ r ∈ t.readings, r ∈ s.readings ∨ r.Sound s.sessions)
    (hbaseline : 0 ≤ t.reporter.lastUploadedSnapshot)
    (hreporter : Baseline Session.reporterHas t.reporter.lastUploadedSnapshot t.lastFrame s.sessions)
    (hseeder : ∀ last, t.seeding = .active last → Baseline Session.seederHas last t.lastSeeded s.sessions)
    (hbase : t.base = s.base) (htotal : t.uploadedBytes = s.uploadedBytes)
    (hfailed : t.failed = false → s.failed = false) :
    Inv t := by
  rw [← hsessions] at hreporter hseeder
  refine ⟨?_,?_,?_,hbaseline,hreporter,hseeder,?_,?_,?_⟩
  · rw [hsessions]
    exact h.sound
  · intro r hr
    rw [hsessions]
    exact (hreadings r hr).elim (h.readings r) id
  · rw [hsessions]
    exact h.nonneg
  · rw [hsessions]
    exact fun hl => h.live (hlive hl)
  · rw [hsessions, hbase, htotal]
    exact h.total_le
  · rw [hsessions, hbase, htotal]
    exact fun hf => h.total_eq (hfailed hf)

/-! ## Steps -/

theorem Inv.take (h : Inv s) (hr : r.Sound s.sessions) :
    Inv (take s r) := by
  refine h.frame rfl id ?_ h.baseline h.reporter h.seeder rfl rfl id
  intro q hq
  rcases mem_append.mp hq with hq | hq
  · exact .inl hq
  · rw [mem_singleton.mp hq]
    exact .inr hr

theorem Inv.erase (h : Inv s) (i : ℕ) :
    Inv { s with readings := s.readings.eraseIdx i } :=
  h.frame rfl id (fun _ hr => .inl (mem_of_mem_eraseIdx hr)) h.baseline h.reporter h.seeder rfl
    rfl id

theorem Inv.current (h : Inv s) (hlive : s.live = true) :
    ∃ x, s.sessions[current s]? = some x ∧ x.counter = counter s := by
  have hlt : s.sessions.length - 1 < s.sessions.length := by
    have := length_pos_iff.mpr (h.live hlive)
    omega
  refine ⟨s.sessions[s.sessions.length - 1],getElem?_eq_getElem hlt,?_⟩
  rw [counter, UploadAccounting.current, getElem?_eq_getElem hlt]
  rfl

theorem Inv.reading (h : Inv s) (otherwise : ℤ) {forSeeding terminal : Bool}
    (hseeding : forSeeding = true → s.live = true) :
    (reading s otherwise forSeeding terminal).Sound s.sessions := by
  by_cases hlive : s.live
  · rw [UploadAccounting.reading, if_pos hlive]
    refine ⟨fun k hk => ?_,fun _ => nofun⟩
    obtain rfl := some.inj hk
    obtain ⟨x,hx,hcounter⟩ := h.current hlive
    exact ⟨(h.nonneg x (mem_of_getElem? hx)).trans hcounter.le,x,hx,hcounter.ge⟩
  · rw [UploadAccounting.reading, if_neg hlive]
    exact ⟨nofun,fun hforSeeding => absurd (hseeding hforSeeding) hlive⟩

theorem Inv.start (h : Inv s) :
    Inv { s with live := true, sessions := s.sessions ++ [⟨0,0,none,0⟩] } := by
  have hcounted : (s.sessions ++ [(⟨0,0,none,0⟩ : Session)]).map Session.counted =
      s.sessions.map Session.counted ++ [0] := by
    rw [map_append]
    rfl
  refine ⟨?_,?_,?_,h.baseline,h.reporter.append _,fun last hlast => (h.seeder last hlast).append _,
    fun _ => by simp,?_,?_⟩
  · intro x hx
    rcases mem_append.mp hx with hx | hx
    · exact h.sound x hx
    · rw [mem_singleton.mp hx]
      exact ⟨le_rfl,le_rfl,nofun⟩
  · intro r hr
    obtain ⟨hvalue,hsession⟩ := h.readings r hr
    refine ⟨fun k hk => ?_,hsession⟩
    obtain ⟨hnonneg,x,hx,hle⟩ := hvalue k hk
    have hlt := (List.getElem?_eq_some_iff.mp hx).1
    exact ⟨hnonneg,x,(getElem?_append_left hlt).trans hx,hle⟩
  · intro x hx
    rcases mem_append.mp hx with hx | hx
    · exact h.nonneg x hx
    · rw [mem_singleton.mp hx]
  · change s.uploadedBytes ≤ s.base + (List.map _ (s.sessions ++ _)).sum
    rw [hcounted, sum_append, sum_singleton, add_zero]
    exact h.total_le
  · intro hfailed
    change s.uploadedBytes = s.base + (List.map _ (s.sessions ++ _)).sum
    rw [hcounted, sum_append, sum_singleton, add_zero]
    exact h.total_eq hfailed

theorem Inv.upload (h : Inv s) (hlive : s.live = true) (bytes : ℕ) :
    Inv (modifySession s (UploadAccounting.current s)
      fun x => { x with counter := x.counter + bytes }) := by
  obtain ⟨x,hx,-⟩ := h.current hlive
  obtain ⟨hnonneg,hreported,hseeded⟩ := h.sound x (mem_of_getElem? hx)
  refine h.modify hx rfl ⟨hnonneg,?_,?_⟩ (by simp) (fun _ hr => hr) h.baseline
    (h.reporter.modify _ fun _ => rfl) (fun last hlast => (h.seeder last hlast).modify _ fun _ => rfl)
    rfl (by simp [modifySession, Session.counted])
    (fun hf => ⟨hf,by simp [modifySession, Session.counted]⟩)
  · change x.reported ≤ x.handed.getD (x.counter + bytes)
    cases hhanded : x.handed with
    | none =>
        rw [hhanded] at hreported
        change x.reported ≤ x.counter at hreported
        change x.reported ≤ x.counter + bytes
        omega
    | some c =>
        rw [hhanded] at hreported
        exact hreported
  · intro c hc
    obtain ⟨hle,hle'⟩ := hseeded c hc
    exact ⟨hle,hle'.trans (by simp)⟩

theorem Inv.complete (h : Inv s) {free : Bool} (hcareful : Careful s (.complete free)) :
    Inv (complete s free) := by
  have hnot : false = true → s.live = true := nofun
  have hsound : (UploadAccounting.reading s s.uploadedBytes false true).Sound s.sessions :=
    h.reading s.uploadedBytes hnot
  have htaken := h.take hsound
  by_cases hhanded : s.live = true ∧ s.seeding = .absent ∧ free = true
  · rw [UploadAccounting.complete, if_pos hhanded]
    obtain ⟨hlive,habsent,hfree⟩ := hhanded
    obtain ⟨x,hx,hcounter⟩ := h.current hlive
    obtain ⟨hnonneg,hreported,-⟩ := h.sound x (mem_of_getElem? hx)
    have hnone := hcareful hlive habsent hfree x hx
    have hreading : UploadAccounting.reading s s.uploadedBytes false true =
        ⟨some (UploadAccounting.current s),x.counter,false,true⟩ := by
      rw [UploadAccounting.reading, if_pos hlive, hcounter]
    rw [hreading] at htaken ⊢
    have hcounted : x.counted = x.reported := by
      rw [Session.counted, hnone]
      exact add_zero _
    rw [hnone] at hreported
    refine htaken.modify hx rfl ⟨hnonneg,hreported,?_⟩ le_rfl (fun _ hr => hr) h.baseline
      (h.reporter.modify _ fun _ => rfl) ?_ rfl ?_ (fun hf => ⟨hf,?_⟩)
    · intro c hc
      cases hc
      exact ⟨le_rfl,le_rfl⟩
    · intro last hlast
      change register s.seeding free x.counter = .active last at hlast
      rw [habsent, hfree] at hlast
      cases hlast
      simp only [modifySession, if_pos habsent]
      exact Baseline.applied ⟨some (UploadAccounting.current s),x.counter,false,true⟩ rfl hx rfl
    · rw [hcounted]
      simp [Session.counted, modifySession, UploadAccounting.take]
    · rw [hcounted]
      simp [Session.counted, modifySession, UploadAccounting.take]
  · rw [UploadAccounting.complete, if_neg hhanded]
    refine htaken.frame rfl id (fun r hr => .inl hr) h.baseline h.reporter ?_ rfl rfl id
    intro last hlast
    change register s.seeding free _ = .active last at hlast
    by_cases habsent : s.seeding = .absent
    · have hfree : free = true := by
        rw [habsent, register] at hlast
        split_ifs at hlast with hfree
        exact hfree
      have hlive : ¬ s.live = true := fun hlive => hhanded ⟨hlive,habsent,hfree⟩
      rw [habsent, hfree, UploadAccounting.reading, if_neg hlive] at hlast
      cases hlast
      simp only [if_pos habsent]
      rw [UploadAccounting.reading, if_neg hlive]
      exact ⟨rfl,by rintro r ⟨⟩ k ⟨⟩⟩
    · simp only [if_neg habsent]
      rw [register] at hlast
      · exact h.seeder last hlast
      · exact habsent

/-- A frame that follows is counted from what is reported of its session. -/
theorem Inv.grown (h : Inv s) (hfollows : ReportFollows s r) (hsession : r.session = some k)
    (hx : s.sessions[k]? = some x) :
    (if s.reporter.lastUploadedSnapshot ≤ r.value then
      r.value - s.reporter.lastUploadedSnapshot else 0) = r.value - x.reported := by
  have hbaseline := h.baseline
  have hnonneg := (h.sound x (mem_of_getElem? hx)).nonneg
  rw [ReportFollows, hsession] at hfollows
  obtain ⟨hle,-,hvalue | hframe | ⟨hzero,hframe⟩⟩ := hfollows x hx
  · split_ifs <;> omega
  · obtain ⟨q,hq,hqk⟩ := bind_eq_some_iff.mp hframe
    obtain ⟨y,hy,hreported⟩ := h.reporter.session q hq k hqk
    obtain rfl := some.inj (hx.symm.trans hy)
    have hlast := h.reporter.value
    rw [hq] at hlast
    change _ = q.value at hlast
    rw [hlast, ← some.inj hreported, if_pos hle]
  · have hlast := h.reporter.value
    have hnone : (s.lastFrame.map Reading.value).getD 0 = 0 := by
      cases hframe' : s.lastFrame with
      | none => rfl
      | some q => exact hframe q hframe'
    rw [hlast, hnone, hzero]
    split_ifs <;> omega

theorem Inv.report (h : Inv s) {uploadSpeedBps : ℤ} {added : Bool} (hr : r.Sound s.sessions)
    (hfollows : ReportFollows s r) :
    Inv (report s r uploadSpeedBps added) := by
  have hvalue : 0 ≤ r.value := by
    cases hsession : r.session with
    | none =>
        rw [ReportFollows, hsession] at hfollows
        exact hfollows.ge
    | some k => exact (hr.value k hsession).1
  obtain ⟨hbaseline,htotal⟩ :=
    progressReporter_spec s.uploadedBytes uploadSpeedBps added h.baseline hvalue
  rw [UploadAccounting.report]
  cases hsession : r.session with
  | none =>
      rw [ReportFollows, hsession] at hfollows
      change r.value = 0 at hfollows
      refine h.frame rfl id (fun q hq => .inl hq) ?_ ?_ h.seeder rfl ?_ fun hf => ?_
      · dsimp only
        split_ifs
        · exact le_rfl
        · exact hvalue.trans hbaseline.ge
      · dsimp only
        split_ifs
        · exact ⟨rfl,nofun⟩
        · refine ⟨hbaseline,?_⟩
          rintro q ⟨⟩ k hk
          cases hsession.symm.trans hk
      · change Prod.snd _ = _
        have := h.baseline
        rw [htotal, hfollows]
        split_ifs <;> omega
      · exact (Bool.or_eq_false_iff.mp hf).1
  | some k =>
      obtain ⟨-,x,hx,hle⟩ := hr.value k hsession
      have hgrown := h.grown hfollows hsession hx
      rw [ReportFollows, hsession] at hfollows
      obtain ⟨hreported,hhanded,-⟩ := hfollows x hx
      obtain ⟨hnonneg,-,hseeded⟩ := h.sound x (mem_of_getElem? hx)
      have hcounted : Session.counted { x with reported := r.value } - x.counted =
          r.value - x.reported := by
        simp only [Session.counted]
        omega
      refine h.modify hx rfl ⟨hvalue,?_,hseeded⟩ le_rfl (fun _ hq => hq) ?_ ?_
        (fun last hlast => (h.seeder last hlast).modify _ fun _ => rfl) rfl ?_ ?_
      · change r.value ≤ x.handed.getD x.counter
        cases hc : x.handed with
        | none => exact hle
        | some c => exact hhanded c hc
      · dsimp only [modifySession]
        split_ifs
        · exact le_rfl
        · exact hvalue.trans hbaseline.ge
      · dsimp only [modifySession]
        split_ifs
        · exact ⟨rfl,nofun⟩
        · rw [hbaseline]
          exact Baseline.applied r hsession hx rfl
      · rw [hcounted]
        change Prod.snd _ ≤ _
        rw [htotal, ← hgrown]
        split_ifs <;> omega
      · intro hf
        obtain ⟨hf,hadded⟩ := Bool.or_eq_false_iff.mp hf
        refine ⟨hf,?_⟩
        rw [hcounted]
        change Prod.snd _ = _
        rw [htotal, ← hgrown]
        have : added = true := by simpa using hadded
        simp only [this, true_and]

/-- The seeder has its baseline from the last reading of the session, or it is zero or above the
reading. -/
theorem Inv.seedBaseline (h : Inv s) (hfollows : SeedFollows s r) (hk : r.session = some k)
    (hx : s.sessions[k]? = some x) {last : ℤ} (hseeding : s.seeding = .active last) :
    if x.handed = none then x.reported = 0 ∧ (last = 0 ∨ r.value < last)
    else last = x.seeded ∧ x.seeded ≤ r.value := by
  have hlast := (h.seeder last hseeding).value
  rw [SeedFollows, hk] at hfollows
  have hfollows := hfollows x hx
  split_ifs at hfollows ⊢ with hhanded
  · refine ⟨hfollows.1,?_⟩
    cases hseeded : s.lastSeeded with
    | none =>
        rw [hseeded] at hlast
        exact Or.inl hlast
    | some q =>
        rw [hseeded] at hlast
        change last = q.value at hlast
        rw [hlast]
        exact hfollows.2 q hseeded
  · obtain ⟨q,hq,hqk⟩ := bind_eq_some_iff.mp hfollows.1
    obtain ⟨y,hy,hobserved⟩ := (h.seeder last hseeding).session q hq k hqk
    obtain rfl := some.inj (hx.symm.trans hy)
    obtain ⟨c,-,hc⟩ := map_eq_some_iff.mp hobserved
    rw [hq] at hlast
    exact ⟨hlast.trans hc.symm,hfollows.2⟩

/-- The seeder counts what its session has grown by, or a new session from zero. -/
theorem Inv.seed (h : Inv s) {added : Bool} (hr : r.Sound s.sessions)
    (hforSeeding : r.forSeeding = true) (hfollows : SeedFollows s r) : Inv (seed s r added) := by
  obtain ⟨k,hk⟩ := ne_none_iff_exists'.mp (hr.session hforSeeding)
  obtain ⟨hvalue,x,hx,hle⟩ := hr.value k hk
  obtain ⟨hnonneg,hreported,hseeded⟩ := h.sound x (mem_of_getElem? hx)
  rw [UploadAccounting.seed]
  cases hseeding : s.seeding with
  | absent | queued =>
      unfold applyUploadSnapshot
      rw [if_neg (by omega)]
      exact h
  | active last =>
      rw [applyUploadSnapshot_active hvalue, hk]
      have hbaseline := h.seedBaseline hfollows hk hx hseeding
      have hgrown : r.value - (if r.value < last then 0 else last) =
          Session.counted { x with handed := some (x.handed.getD 0), seeded := r.value } -
            x.counted := by
        cases hhanded : x.handed with
        | none =>
            rw [if_pos hhanded] at hbaseline
            simp only [Session.counted, hhanded]
            change _ = x.reported + (r.value - 0) - (x.reported + 0)
            split_ifs <;> omega
        | some c =>
            rw [if_neg (by simp [hhanded])] at hbaseline
            simp only [Session.counted, hhanded]
            change _ = x.reported + (r.value - c) - (x.reported + (x.seeded - c))
            split_ifs <;> omega
      refine h.modify hx rfl ⟨hnonneg,?_,?_⟩ le_rfl (fun _ hq => hq) h.baseline
        (h.reporter.modify _ fun _ => rfl) ?_ rfl ?_ ?_
      · change x.reported ≤ x.handed.getD 0
        cases hhanded : x.handed with
        | none =>
            rw [if_pos hhanded] at hbaseline
            exact hbaseline.1.le
        | some c =>
            rw [hhanded] at hreported
            exact hreported
      · intro c hc
        cases hc
        refine ⟨?_,hle⟩
        cases hhanded : x.handed with
        | none => exact hvalue
        | some c =>
            rw [if_neg (by simp [hhanded])] at hbaseline
            exact (hseeded c hhanded).1.trans hbaseline.2
      · rintro last' ⟨⟩
        exact Baseline.applied r hk hx rfl
      · rw [← hgrown]
        change (if added then s.uploadedBytes + _ else s.uploadedBytes) ≤ _
        split_ifs <;> omega
      · intro hf
        obtain ⟨hf,hadded⟩ := Bool.or_eq_false_iff.mp hf
        refine ⟨hf,?_⟩
        rw [← hgrown]
        exact if_pos (by simpa using hadded)

theorem step_inv (s : State) (label : Label) (t : State) (h : Inv s) (hcareful : Careful s label)
    (hstep : step s label = some t) : Inv t := by
  cases label with
  | start =>
      obtain ⟨-,hstep⟩ := ite_none_left_eq_some.mp hstep
      cases hstep
      exact h.start
  | upload bytes =>
      obtain ⟨hlive,hstep⟩ := ite_none_right_eq_some.mp hstep
      cases hstep
      exact h.upload hlive bytes
  | stop =>
      obtain ⟨-,hstep⟩ := ite_none_right_eq_some.mp hstep
      cases hstep
      exact h.frame rfl nofun (fun _ hr => .inl hr) h.baseline h.reporter h.seeder rfl rfl id
  | read =>
      cases hstep
      exact h.take (h.reading 0 nofun)
  | idle terminal =>
      cases hstep
      exact h.take ⟨nofun,nofun⟩
  | readSeeding =>
      simp only [step] at hstep
      split at hstep
      next hlive _ =>
        cases hstep
        exact h.take (h.reading 0 fun _ => hlive)
      next => cases hstep
  | complete free =>
      cases hstep
      exact h.complete hcareful
  | report i uploadSpeedBps added =>
      simp only [step] at hstep
      split at hstep
      next r hr =>
        obtain ⟨-,hstep⟩ := ite_none_left_eq_some.mp hstep
        cases hstep
        exact (h.erase i).report (h.readings r (mem_of_getElem? hr)) (hcareful r hr)
      next => cases hstep
  | seed i added =>
      simp only [step] at hstep
      split at hstep
      next r hr =>
        obtain ⟨hforSeeding,hstep⟩ := ite_none_right_eq_some.mp hstep
        cases hstep
        exact (h.erase i).seed (h.readings r (mem_of_getElem? hr)) hforSeeding
          (hcareful r hr)
      next => cases hstep
  | promote =>
      obtain ⟨-,hstep⟩ := ite_none_right_eq_some.mp hstep
      cases hstep
      refine h.frame rfl id (fun _ hr => .inl hr) h.baseline h.reporter ?_ rfl rfl id
      rintro last ⟨⟩
      exact ⟨rfl,nofun⟩
  | demote =>
      simp only [step] at hstep
      split at hstep
      next =>
        cases hstep
        exact h.frame rfl id (fun _ hr => .inl hr) h.baseline h.reporter nofun rfl rfl id
      next => cases hstep
  | unregister =>
      cases hstep
      exact h.frame rfl id (fun _ hr => .inl hr) h.baseline h.reporter nofun rfl rfl id

/-- Uploads are accounted for in every execution in which the readings follow each other. -/
theorem uploads_accounted {base : ℤ} {labels : List Label} {s : State}
    (hm : Meets step Careful (startState base) labels)
    (h : exec step (startState base) labels = some s) : Accounted s :=
  (exec_invariant_of_meets step_inv (inv_startState base) hm h).accounted

instance (x : Session) : Decidable x.Observed :=
  inferInstanceAs (Decidable (_ ∧ ∀ c ∈ x.handed, _))

instance (s : State) (r : Reading) : Decidable (ReportFollows s r) := by
  unfold ReportFollows
  split <;> infer_instance

instance (s : State) (r : Reading) : Decidable (SeedFollows s r) := by
  unfold SeedFollows
  split <;> infer_instance

instance (s : State) (label : Label) : Decidable (Careful s label) := by
  unfold Careful
  split <;> infer_instance

/-- A task is paused, resumed and completed, and seeds in two sessions. -/
def seededLabels : List Label :=
  [.start, .upload 100, .read, .report 0 0 true, .stop, .idle true, .report 0 0 true, .start, .read,
    .upload 50, .complete true, .report 0 0 true, .report 0 0 true, .upload 7, .readSeeding,
    .seed 0 true, .demote, .stop, .promote, .start, .upload 30, .readSeeding, .seed 0 true]

theorem uploads_accounted_sample :
    ∃ s ∈ exec step (startState 0) seededLabels, s.uploadedBytes = 187 ∧
      (∀ x ∈ s.sessions, x.Observed) ∧ Accounted s := by
  have hexec : (exec step (startState 0) seededLabels).any (fun s =>
      decide (s.uploadedBytes = 187 ∧ ∀ x ∈ s.sessions, x.Observed)) = true := by
    decide +kernel
  obtain ⟨s,hs,htotal⟩ := (any_eq_true _ _).mp hexec
  obtain ⟨htotal,hobserved⟩ := of_decide_eq_true htotal
  exact ⟨s,hs,htotal,hobserved,uploads_accounted (by decide +kernel) hs⟩

/-- A task is cancelled and resumed, and the frame of the first run comes after that of the new
one. -/
def cancelledLabels : List Label :=
  [.start, .upload 100, .read, .report 0 0 true, .read, .stop, .idle false, .report 1 0 true,
    .report 0 0 true]

/-- A task is completed while the torrent is not live. -/
def completedLabels : List Label :=
  [.start, .upload 100, .read, .report 0 0 true, .stop, .idle false, .report 0 0 true, .complete true,
    .report 0 0 true]

/-- What was uploaded is counted twice. -/
theorem uploads_not_accounted :
    (∃ s ∈ exec step (startState 0) cancelledLabels,
        (s.sessions.map Session.counter).sum = 100 ∧ s.uploadedBytes = 200) ∧
      ∃ s ∈ exec step (startState 0) completedLabels,
        (s.sessions.map Session.counter).sum = 100 ∧ s.uploadedBytes = 200 := by
  have htwice : ∀ labels ∈ [cancelledLabels, completedLabels],
      (exec step (startState 0) labels).any (fun s => decide
        ((s.sessions.map Session.counter).sum = 100 ∧ s.uploadedBytes = 200)) = true := by
    decide +kernel
  obtain ⟨s,hs,hcancelled⟩ := (any_eq_true _ _).mp (htwice cancelledLabels (by simp))
  obtain ⟨t,ht,hcompleted⟩ := (any_eq_true _ _).mp (htwice completedLabels (by simp))
  exact ⟨⟨s,hs,of_decide_eq_true hcancelled⟩,t,ht,of_decide_eq_true hcompleted⟩

end RinaDown.UploadAccounting
