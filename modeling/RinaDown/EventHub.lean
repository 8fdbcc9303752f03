import RinaDown.AgentMirror

/-!
# Event hubs

A hub assigns the sequence number and changes the projection under its lock, and
broadcasts the frame after it has released the lock; a subscriber first takes a
receiver and then, under the lock, a snapshot. Both are two steps, between which
others may run. A receiver that falls behind by more than the capacity of the
channel is told that it lags.
-/

namespace RinaDown.EventHub
open LabelledExecutions List

/-- How events change the state of a hub, and how they are applied to a snapshot of it. -/
structure Reducer (State Snapshot Event : Type) where
  publish : State → Event → State
  view : State → Snapshot
  apply : Snapshot → Event → Snapshot
  view_publish : ∀ s e, view (publish s e) = apply (view s) e

structure Frame (Event : Type) where
  sequence : ℕ
  event : Event
  deriving DecidableEq

/-- A receiver with the snapshot it was given; `start` is where it began in the channel. -/
structure Subscriber (Snapshot Event : Type) where
  start : ℕ
  cursor : ℕ
  given : Option (ℕ × Snapshot)
  received : List (Frame Event)
  lagged : Bool

/-- `publishing` are the frames whose publisher has released the lock but has not sent yet, and
`history` is the projection at every sequence number. -/
structure Hub (State Snapshot Event : Type) where
  sequence : ℕ
  state : State
  publishing : List (Frame Event)
  log : List (Frame Event)
  subscribers : List (Subscriber Snapshot Event)
  history : List Snapshot

inductive Label (Event : Type) where
  | assign (event : Event)
  | send (i : ℕ)
  | subscribe
  | snapshot (j : ℕ)
  | recv (j : ℕ)
  deriving DecidableEq

variable {State Snapshot Event : Type}

def newHub (R : Reducer State Snapshot Event) (state : State) : Hub State Snapshot Event where
  sequence := 0
  state := state
  publishing := []
  log := []
  subscribers := []
  history := [R.view state]

def nextSequence (sequence : ℕ) : ℕ := min (sequence + 1) (2 ^ 64 - 1)

def assign (R : Reducer State Snapshot Event) (h : Hub State Snapshot Event) (e : Event) :
    Hub State Snapshot Event :=
  { h with
    sequence := nextSequence h.sequence
    state := R.publish h.state e
    publishing := h.publishing ++ [⟨nextSequence h.sequence,e⟩]
    history := h.history ++ [R.view (R.publish h.state e)] }

def send (h : Hub State Snapshot Event) (i : ℕ) : Option (Hub State Snapshot Event) :=
  h.publishing[i]?.map (fun f => { h with publishing := h.publishing.eraseIdx i, log := h.log ++ [f] })

def subscribe (h : Hub State Snapshot Event) : Hub State Snapshot Event :=
  { h with subscribers := h.subscribers ++ [⟨h.log.length,h.log.length,none,[],false⟩] }

/-- A receiver that lags goes on with the oldest frame still in the channel. -/
def Subscriber.recv (capacity : ℕ) (log : List (Frame Event)) (s : Subscriber Snapshot Event) :
    Option (Subscriber Snapshot Event) :=
  if s.given.isSome then
    if s.cursor + capacity < log.length then
      some { s with cursor := log.length - capacity, lagged := true }
    else
      log[s.cursor]?.map (fun f =>
        { s with cursor := s.cursor + 1, received := s.received ++ [f] })
  else none

def takeSnapshot (R : Reducer State Snapshot Event) (h : Hub State Snapshot Event)
    (s : Subscriber Snapshot Event) : Option (Subscriber Snapshot Event) :=
  if s.given.isSome then none else some { s with given := some (h.sequence, R.view h.state) }

def updateSubscriber (h : Hub State Snapshot Event) (j : ℕ)
    (f : Subscriber Snapshot Event → Option (Subscriber Snapshot Event)) :
    Option (Hub State Snapshot Event) :=
  (h.subscribers[j]?.bind f).map (fun s => { h with subscribers := h.subscribers.set j s })

def step (R : Reducer State Snapshot Event) (capacity : ℕ) (h : Hub State Snapshot Event) :
    Label Event → Option (Hub State Snapshot Event)
  | .assign e => some (assign R h e)
  | .send i => send h i
  | .subscribe => some (subscribe h)
  | .snapshot j => updateSubscriber h j (takeSnapshot R h)
  | .recv j => updateSubscriber h j (Subscriber.recv capacity h.log)

/-- The frames that a caller keeps: those behind its snapshot. -/
def Subscriber.kept (s : Subscriber Snapshot Event) : List (Frame Event) :=
  match s.given with
  | none => []
  | some (sequence, _) => s.received.filter (fun f => sequence < f.sequence)

/-! ## In order -/

/-- Publishers send in the order in which they were given their numbers, and the numbers do not
run out. -/
def InOrder (h : Hub State Snapshot Event) : Label Event → Prop
  | .assign _ => h.sequence < 2 ^ 64 - 1
  | .send i => i = 0
  | _ => True

instance (h : Hub State Snapshot Event) (a : Label Event) : Decidable (InOrder h a) := by
  cases a <;> unfold InOrder <;> infer_instance

/-- The frames in the order of their numbers lead from each projection to the next. -/
structure Ordered (R : Reducer State Snapshot Event) (h : Hub State Snapshot Event) : Prop where
  sequence : h.sequence = (h.log ++ h.publishing).length
  history : h.history.length = h.sequence + 1
  current : h.history[h.sequence]? = some (R.view h.state)
  frames : ∀ (i : ℕ) f, (h.log ++ h.publishing)[i]? = some f → f.sequence = i + 1 ∧
    ∃ p, h.history[i]? = some p ∧ h.history[i + 1]? = some (R.apply p f.event)

/-- What a subscriber that does not lag has received is a stretch of the log that starts where it
subscribed, and its snapshot is the projection at a number from there on. -/
structure Follows (h : Hub State Snapshot Event) (s : Subscriber Snapshot Event) : Prop where
  cursor : s.cursor = s.start + s.received.length
  inLog : s.cursor ≤ h.log.length
  received : s.received = (h.log.drop s.start).take s.received.length
  given : ∀ n p, s.given = some (n, p) → s.start ≤ n ∧ n ≤ h.sequence ∧ h.history[n]? = some p

def Sound (R : Reducer State Snapshot Event) (h : Hub State Snapshot Event) : Prop :=
  Ordered R h ∧ ∀ s ∈ h.subscribers, s.lagged = false → Follows h s

variable {R : Reducer State Snapshot Event} {capacity : ℕ}

theorem sound_newHub (state : State) : Sound R (newHub R state) :=
  ⟨⟨rfl,rfl,rfl,by simp [newHub]⟩,by simp [newHub]⟩

variable {h h' : Hub State Snapshot Event} {s : Subscriber Snapshot Event}

theorem Follows.mono (hs : Follows h s) (hlog : h.log <+: h'.log) (hhist : h.history <+: h'.history)
    (hseq : h.sequence ≤ h'.sequence) : Follows h' s := by
  obtain ⟨l,hl⟩ := hlog
  obtain ⟨r,hr⟩ := hhist
  refine ⟨hs.cursor,?_,?_,fun n p hn => ?_⟩
  · rw [← hl, length_append]
    have := hs.inLog
    omega
  · have hlen : s.received.length ≤ (h.log.drop s.start).length := by
      have := hs.cursor
      have := hs.inLog
      rw [length_drop]
      omega
    have hstart : s.start ≤ h.log.length := by
      have := hs.cursor
      have := hs.inLog
      omega
    rw [← hl, drop_append_of_le_length hstart, take_append_of_le_length hlen]
    exact hs.received
  · obtain ⟨h1,h2,h3⟩ := hs.given n p hn
    refine ⟨h1,h2.trans hseq,?_⟩
    rw [← hr, List.getElem?_append_left (List.getElem?_eq_some_iff.mp h3).1]
    exact h3

theorem ordered_assign (ho : Ordered R h) (hlt : h.sequence < 2 ^ 64 - 1) (e : Event) :
    Ordered R (assign R h e) := by
  have hnext : nextSequence h.sequence = h.sequence + 1 := by
    unfold nextSequence
    omega
  have hframes : (assign R h e).log ++ (assign R h e).publishing =
      (h.log ++ h.publishing) ++ [⟨h.sequence + 1,e⟩] := by
    simp [assign, hnext]
  refine ⟨?_,?_,?_,fun i f hf => ?_⟩
  · rw [hframes, length_append, ← ho.sequence]
    exact hnext
  · simp [assign, hnext, ho.history]
  · simp [assign, hnext, ← ho.history]
  · rw [hframes] at hf
    by_cases hi : i < (h.log ++ h.publishing).length
    · rw [getElem?_append_left hi] at hf
      obtain ⟨h1,p,h2,h3⟩ := ho.frames i f hf
      refine ⟨h1,p,?_,?_⟩
      · exact List.getElem?_append_left (List.getElem?_eq_some_iff.mp h2).1 ▸ h2
      · exact List.getElem?_append_left (List.getElem?_eq_some_iff.mp h3).1 ▸ h3
    · have hi' : i = h.sequence := by
        have hlt := (List.getElem?_eq_some_iff.mp hf).1
        rw [length_append, length_singleton] at hlt
        have := ho.sequence
        omega
      subst hi'
      rw [ho.sequence, getElem?_concat_length, ← ho.sequence, Option.some.injEq] at hf
      subst hf
      refine ⟨rfl,R.view h.state,?_,?_⟩
      · rw [assign, getElem?_append_left (by rw [ho.history]; omega)]
        exact ho.current
      · rw [assign, ← ho.history, getElem?_concat_length, R.view_publish]

theorem sound_send (hs : Sound R h) (hsend : send h 0 = some h') : Sound R h' := by
  cases hpub : h.publishing with
  | nil => simp [send, hpub] at hsend
  | cons f rest =>
    simp only [send, hpub, getElem?_cons_zero, Option.map_some, eraseIdx_zero,
      tail_cons, Option.some.injEq] at hsend
    subst hsend
    have hframes : (h.log ++ [f]) ++ rest = h.log ++ h.publishing := by simp [hpub]
    obtain ⟨ho,hfollow⟩ := hs
    refine ⟨⟨?_,ho.history,ho.current,?_⟩,fun s hmem hlag => ?_⟩
    · rw [hframes]
      exact ho.sequence
    · rw [hframes]
      exact ho.frames
    · exact (hfollow s hmem hlag).mono ⟨[f],rfl⟩ (prefix_refl _) le_rfl

theorem follows_takeSnapshot (ho : Ordered R h) {t : Subscriber Snapshot Event}
    (hs : s.lagged = false → Follows h s) (ht : takeSnapshot R h s = some t) :
    t.lagged = false → Follows h t := by
  unfold takeSnapshot at ht
  split_ifs at ht
  cases ht
  intro hlag
  obtain ⟨h1,h2,h3,-⟩ := hs hlag
  refine ⟨h1,h2,h3,fun n p hn => ?_⟩
  cases hn
  refine ⟨?_,le_rfl,ho.current⟩
  show s.start ≤ h.sequence
  have hseq := ho.sequence
  rw [length_append] at hseq
  omega

theorem follows_recv {t : Subscriber Snapshot Event} (hs : s.lagged = false → Follows h s)
    (ht : s.recv capacity h.log = some t) :
    t.lagged = false → Follows h t := by
  unfold Subscriber.recv at ht
  split_ifs at ht with hgiven hlag
  · cases ht
    simp
  · obtain ⟨f,hf,rfl⟩ := Option.map_eq_some_iff.mp ht
    intro hlagged
    obtain ⟨h1,h2,h3,h4⟩ := hs hlagged
    have hlt := (List.getElem?_eq_some_iff.mp hf).1
    refine ⟨by simp [h1]; omega,hlt,?_,h4⟩
    have hget : (h.log.drop s.start)[s.received.length]? = some f := by
      rw [getElem?_drop, ← h1]
      exact hf
    rw [length_append, length_singleton, take_add_one, hget, ← h3]
    rfl

theorem sound_updateSubscriber {j : ℕ}
    {f : Subscriber Snapshot Event → Option (Subscriber Snapshot Event)} (hs : Sound R h)
    (hf : ∀ s t, (s.lagged = false → Follows h s) → f s = some t → t.lagged = false → Follows h t)
    (hstep : updateSubscriber h j f = some h') : Sound R h' := by
  obtain ⟨t,ht,rfl⟩ := Option.map_eq_some_iff.mp hstep
  obtain ⟨s,hget,hft⟩ := Option.bind_eq_some_iff.mp ht
  obtain ⟨ho,hfollow⟩ := hs
  refine ⟨⟨ho.sequence,ho.history,ho.current,ho.frames⟩,fun u hu hlag => ?_⟩
  have hkeep : Follows h u := by
    rcases mem_or_eq_of_mem_set hu with hmem | rfl
    · exact hfollow u hmem hlag
    · exact hf s u (hfollow s (mem_of_getElem? hget)) hft hlag
  exact ⟨hkeep.cursor,hkeep.inLog,hkeep.received,hkeep.given⟩

theorem sound_step {a : Label Event} (hs : Sound R h) (hcond : InOrder h a)
    (hstep : step R capacity h a = some h') : Sound R h' := by
  cases a with
  | assign e =>
    cases hstep
    have hnext : h.sequence ≤ nextSequence h.sequence := by
      have := hs.1.sequence
      unfold nextSequence
      simp only [InOrder] at hcond
      omega
    exact ⟨ordered_assign hs.1 hcond e,fun s hmem hlag => (hs.2 s hmem hlag).mono
      (prefix_refl _) ⟨_,rfl⟩ hnext⟩
  | send i =>
    simp only [InOrder] at hcond
    subst hcond
    exact sound_send hs hstep
  | subscribe =>
    cases hstep
    obtain ⟨ho,hfollow⟩ := hs
    refine ⟨⟨ho.sequence,ho.history,ho.current,ho.frames⟩,fun s hmem hlag => ?_⟩
    rcases mem_append.mp hmem with hmem | hnew
    · have hkeep := hfollow s hmem hlag
      exact ⟨hkeep.cursor,hkeep.inLog,hkeep.received,hkeep.given⟩
    · rw [mem_singleton.mp hnew]
      exact ⟨rfl,le_rfl,by simp,by simp⟩
  | snapshot j => exact sound_updateSubscriber hs (fun _ _ h1 h2 => follows_takeSnapshot hs.1 h1 h2) hstep
  | recv j => exact sound_updateSubscriber hs (fun _ _ h1 h2 => follows_recv h1 h2) hstep

/-! ## What subscribers see -/

theorem filter_eq_drop {α : Type*} {p : α → Bool} {l : List α} :
    ∀ {m : ℕ}, (∀ (i : ℕ) a, l[i]? = some a → (p a = true ↔ m ≤ i)) → l.filter p = l.drop m := by
  induction l with
  | nil => simp
  | cons a l ih =>
    intro m hp
    cases m with
    | zero =>
      have hall : ∀ b ∈ a :: l, p b = true := by
        intro b hb
        obtain ⟨i,hi⟩ := mem_iff_getElem?.mp hb
        exact (hp i b hi).mpr (Nat.zero_le i)
      exact filter_eq_self.mpr hall
    | succ m =>
      have ha : ¬ p a = true := by
        rw [hp 0 a rfl]
        omega
      rw [filter_cons_of_neg ha, drop_succ_cons]
      exact ih (fun i b hb => by rw [hp (i + 1) b hb]; omega)

theorem Follows.kept_get (ho : Ordered R h) (hs : Follows h s) {n : ℕ} {p : Snapshot}
    (hgiven : s.given = some (n, p)) :
    s.kept = s.received.drop (n - s.start) ∧
      ∀ (i : ℕ) f, s.kept[i]? = some f → (h.log ++ h.publishing)[n + i]? = some f := by
  have hreceived : ∀ (i : ℕ) f, s.received[i]? = some f →
      (h.log ++ h.publishing)[s.start + i]? = some f := by
    intro i f hf
    have hi := (List.getElem?_eq_some_iff.mp hf).1
    rw [hs.received, getElem?_take_of_lt hi, getElem?_drop] at hf
    rw [List.getElem?_append_left (List.getElem?_eq_some_iff.mp hf).1]
    exact hf
  have hkept : s.kept = s.received.drop (n - s.start) := by
    rw [Subscriber.kept, hgiven]
    refine filter_eq_drop (fun i f hf => ?_)
    rw [decide_eq_true_iff, (ho.frames _ f (hreceived i f hf)).1]
    omega
  refine ⟨hkept,fun i f hf => ?_⟩
  rw [hkept, getElem?_drop] at hf
  have hstart := (hs.given n p hgiven).1
  have hindex : s.start + (n - s.start + i) = n + i := by omega
  rw [← hindex]
  exact hreceived _ f hf

theorem foldl_apply_history {l : List (Frame Event)} :
    ∀ {n : ℕ} {p : Snapshot}, h.history[n]? = some p →
      (∀ (i : ℕ) f, l[i]? = some f → ∃ q, h.history[n + i]? = some q ∧
        h.history[n + i + 1]? = some (R.apply q f.event)) →
      h.history[n + l.length]? = some (l.foldl (fun p f => R.apply p f.event) p) := by
  induction l with
  | nil => exact fun hp _ => hp
  | cons f l ih =>
    intro n p hp hstep
    obtain ⟨q,hq,hnext⟩ := hstep 0 f rfl
    cases hp.symm.trans hq
    have hrest := ih (n := n + 1) hnext (fun i g hg => by
      have := hstep (i + 1) g hg
      rwa [show n + (i + 1) = n + 1 + i by omega] at this)
    rw [length_cons, foldl_cons, show n + (l.length + 1) = n + 1 + l.length by omega]
    exact hrest

/-- If frames are sent in the order of their numbers, what a subscriber that does not lag keeps
are the frames right behind its snapshot in that order, and they lead from the snapshot to the
projection at the last of them. It receives no others if nothing was sent between its subscription
and its snapshot that the snapshot already covers. -/
theorem event_frames_in_order {state : State} {h : Hub State Snapshot Event}
    {as : List (Label Event)} (hm : Meets (step R capacity) InOrder (newHub R state) as)
    (hrun : exec (step R capacity) (newHub R state) as = some h) :
    ∀ s ∈ h.subscribers, s.lagged = false → ∀ n p, s.given = some (n, p) →
      s.kept.map Frame.sequence = List.range' (n + 1) s.kept.length ∧
      h.history[n + s.kept.length]? = some (s.kept.foldl (fun p f => R.apply p f.event) p) ∧
      (s.start = n → s.kept = s.received) := by
  obtain ⟨ho,hfollow⟩ : Sound R h :=
    exec_invariant_of_meets (fun _ _ _ hs hc hstep => sound_step hs hc hstep)
      (sound_newHub state) hm hrun
  intro s hmem hlag n p hgiven
  have hs := hfollow s hmem hlag
  obtain ⟨hkept,hget⟩ := hs.kept_get ho hgiven
  refine ⟨ext_getElem (by simp) (fun i h1 h2 => ?_),?_,fun hstart => ?_⟩
  · have hi : i < s.kept.length := by simpa using h1
    have hframe := (ho.frames _ _ (hget i _ (getElem?_eq_getElem hi))).1
    rw [getElem_map, getElem_range', hframe]
    omega
  · exact foldl_apply_history (hs.given n p hgiven).2.2
      (fun i f hf => (ho.frames _ f (hget i f hf)).2)
  · rw [hkept, hstart, Nat.sub_self, drop_zero]

/-! ## The two hubs -/

section Hubs

open DaemonProjection AgentMirror

variable {Dto : DtoKind → Type} {Own : AgentKind → Type}

theorem foldl_setFileMissing_withoutStats (updates : List (String × Bool))
    (s : DaemonSnapshot Dto) : updates.foldl DaemonSnapshot.setFileMissing (withoutStats s) =
      withoutStats (updates.foldl DaemonSnapshot.setFileMissing s) := by
  induction updates generalizing s with
  | nil => rfl
  | cons u updates ih => exact ih (s.setFileMissing u)

theorem withoutStats_applyEvent (s : DaemonSnapshot Dto) (e : DaemonEvent Dto) :
    withoutStats (DaemonProjection.applyEvent (withoutStats s) e) =
      withoutStats (DaemonProjection.applyEvent s e) := by
  cases e with
  | engine m =>
    cases m with
    | taskProgress m =>
      simp only [DaemonProjection.applyEvent, DaemonProjection.applyEngineMessage]
      split_ifs <;> rfl
    | fileMissingChanged updates =>
      have hfold := congrArg withoutStats (foldl_setFileMissing_withoutStats updates s)
      exact hfold
    | _ => rfl
  | taskChanged task =>
    have htasks : (withoutStats s).tasks = s.tasks := rfl
    simp only [DaemonProjection.applyEvent, DaemonSnapshot.putTask, htasks]
    split_ifs <;> rfl
  | _ => rfl

/-- The daemon's projection is its snapshot, runtime statistics aside. -/
def daemonReducer : Reducer (EventState Dto) (DaemonSnapshot Dto) (DaemonEvent Dto) where
  publish := EventState.publish
  view s := withoutStats s.snapshot
  apply s e := withoutStats (DaemonProjection.applyEvent s e)
  view_publish s e := by
    obtain ⟨stats,hstats⟩ := publish_snapshot s e
    rw [hstats, withoutStats_applyEvent]
    rfl

def agentReducer : Reducer (AgentSnapshot Dto Own) (AgentSnapshot Dto Own) (AgentEvent Dto Own) where
  publish := AgentMirror.applyEvent
  view := id
  apply := AgentMirror.applyEvent
  view_publish _ _ := rfl

/-! ## Out of order -/

def sampleHub : Hub (EventState (fun _ => Unit)) (DaemonSnapshot (fun _ => Unit))
    (DaemonEvent (fun _ => Unit)) :=
  newHub daemonReducer ⟨sampleSnapshot,∅,∅⟩

/-- Two publishers send in the other order, and a publisher runs between a subscription and its
snapshot. -/
theorem event_frames_disordered :
    (exec (step daemonReducer 8) sampleHub
      [.subscribe, .snapshot 0, .assign (.taskDeleted "t"), .assign (.engine (.priorityTaskChanged "t")),
        .send 1, .send 0, .recv 0, .recv 0]).any (fun h => h.subscribers.any (fun s =>
          !s.lagged && decide (s.kept.map Frame.sequence = [2, 1]))) = true ∧
    (exec (step daemonReducer 8) sampleHub
      [.subscribe, .assign (.taskDeleted "t"), .send 0, .snapshot 0, .recv 0]).any
        (fun h => h.subscribers.any (fun s => !s.lagged && decide (s.given.map Prod.fst = some 1) &&
          decide (s.received.map Frame.sequence = [1]))) = true := by
  decide +kernel

def sampleRun : List (Label (DaemonEvent (fun _ => Unit))) :=
  [.subscribe, .assign (.taskDeleted "t"), .snapshot 0, .assign (.engine (.priorityTaskChanged "t")),
    .send 0, .send 0, .recv 0, .recv 0]

theorem event_frames_in_order_sample :
    ∃ h, exec (step daemonReducer 8) sampleHub sampleRun = some h ∧
      ∀ s ∈ h.subscribers, s.lagged = false → ∀ n p, s.given = some (n, p) →
        s.kept.map Frame.sequence = List.range' (n + 1) s.kept.length := by
  have hm : Meets (step daemonReducer 8) InOrder sampleHub sampleRun := by decide +kernel
  have hrun : (exec (step daemonReducer 8) sampleHub sampleRun).isSome := by decide +kernel
  refine (Option.isSome_iff_exists.mp hrun).imp (fun h hh => ⟨hh,?_⟩)
  intro s hs hlag n p hgiven
  exact (event_frames_in_order hm hh s hs hlag n p hgiven).1

end Hubs

end RinaDown.EventHub
