import Mathlib.Data.List.Perm.Basic
import RinaDown.RssIdentity

/-!
# One task for each item

Between the dispatch of an item and the result of its torrent fetch the row of the item is
still new, so a round in between dispatches it again; and a prune may delete rows that wait.
While rounds keep clear of this, an item gets at most one automatic task, and an accepted
item waits in a new row until it is dispatched or the user takes it.
-/

namespace RinaDown.RssSubscription

open CharacterPatterns RssFilter RssItems Texts List Bool

def taskCount (history : List Event) (guid : Text) : ℕ := history.count (.task guid true)

def fetchCount (torrents : List (RssDownloadPlan × Bool)) (guid : Text) : ℕ :=
  torrents.countP fun t => t.2 && t.1.guid == guid

def dispatchOf (guid : Text) : Event → Bool
  | .dispatched g _ => g == guid
  | _ => false

def wasDispatched (history : List Event) (guid : Text) : Bool := history.any (dispatchOf guid)

/-- The item was dispatched, or the user disposed of it or downloaded it, or the subscription
was deleted. -/
def Settled (s : Subscription) (guid : Text) : Prop :=
  wasDispatched s.history guid = true ∨ Event.disposed guid ∈ s.history ∨
    Event.task guid false ∈ s.history ∨ s.stored = none

/-- A new arrival that sorts before an item that waits. -/
def Overtakes (s : Subscription) (rows : List RssItemInfo) (r : RssItemInfo) : Prop :=
  r.guid ∉ rssKnownGuids s.rows ∧ ∃ w ∈ rows, w.status = .new ∧ w.guid ∈ rssKnownGuids s.rows ∧
    wasDispatched s.history w.guid = false ∧ olderFirst r w

instance (s : Subscription) (rows : List RssItemInfo) (r : RssItemInfo) :
    Decidable (Overtakes s rows r) :=
  inferInstanceAs (Decidable (_ ∧ _))

/-- The rows from which a round dispatches. -/
def Subscription.roundRows (s : Subscription) (p : Platform) (source : RssSourceInfo)
    (round : Round) : List RssItemInfo :=
  pruned round (s.rowsWithFeed p source round)

def dispatches (source : RssSourceInfo) (round : Round) : Bool :=
  source.autoDownload && source.seeded && round.selectOk

/-- The new rows that keep waiting items from being dispatched. -/
def crowd (s : Subscription) (rows : List RssItemInfo) : List RssItemInfo :=
  rows.filter fun r =>
    r.status = .new ∧ (wasDispatched s.history r.guid = true ∨ Overtakes s rows r)

/-- What a round must keep clear of. -/
structure RoundOrderly (p : Platform) (s : Subscription) (source : RssSourceInfo) (round : Round) :
    Prop where
  listed : source.seeded = true → ∀ parsed ∈ round.outcome.items,
    otherStatus s.history parsed.guid = true → parsed.guid ∈ rssKnownGuids s.rows
  inserted : s.acceptedItems p source round ≠ [] → round.insertOk = true
  kept : ∀ r ∈ s.rowsWithFeed p source round, r.status = .new → r ∈ s.roundRows p source round
  idle : ∀ r ∈ selected source round (s.roundRows p source round), fetchCount s.torrents r.guid = 0
  marked : ∀ r ∈ selected source round (s.roundRows p source round),
    (round.created r.guid).isSome = true → round.marked r.guid = true
  room : if dispatches source round then
      (crowd s (s.roundRows p source round)).length < (max source.maxPerFetch 1).toNat
    else ∀ r ∈ s.roundRows p source round, r.status = .new →
      ¬ Overtakes s (s.roundRows p source round) r

/-- A successful feed is applied under these conditions, and the row of an automatic task is
written. -/
def Orderly (p : Platform) (s : Subscription) : Label → Prop
  | .fetched round => round.outcome.error = "" →
      ∀ source ∈ s.source, RoundOrderly p s source round
  | .torrentReady i error created marked _ => error = "" → created.isSome = true →
      ∀ t ∈ s.torrents[i]?, t.2 = true → marked = true
  | _ => True

/-! ## Histories -/

theorem taskCount_append (history events : List Event) (guid : Text) :
    taskCount (history ++ events) guid = taskCount history guid + taskCount events guid :=
  count_append

theorem wasDispatched_append (history events : List Event) (guid : Text) :
    wasDispatched (history ++ events) guid = (wasDispatched history guid || wasDispatched events guid) :=
  any_append

variable {guid : Text} {events : List Event} {created : Option Text} {automatic : Bool}
  {plan : RssDownloadPlan} {round : Round} {p : Platform} {source : RssSourceInfo}

theorem wasDispatched_mono {history : List Event} (h : wasDispatched history guid = true)
    (events : List Event) :
    wasDispatched (history ++ events) guid = true := by
  rw [wasDispatched_append, h, Bool.true_or]

theorem otherStatus_mono {history : List Event} (h : otherStatus history guid = true)
    (events : List Event) :
    otherStatus (history ++ events) guid = true := by
  rw [otherStatus_append, h, Bool.true_or]

theorem Settled.mono {s t : Subscription} (h : Settled s guid)
    (hhistory : t.history = s.history ++ events) (hstored : s.stored = none → t.stored = none) :
    Settled t guid := by
  rw [Settled, hhistory]
  rcases h with h | h | h | h
  · exact .inl (wasDispatched_mono h events)
  · exact .inr (.inl (mem_append_left events h))
  · exact .inr (.inr (.inl (mem_append_left events h)))
  · exact .inr (.inr (.inr (hstored h)))

/-! ## The invariant -/

/-- What holds of the rows, the history and the torrent fetches. -/
structure Tidy (s : Subscription) : Prop where
  nodup : (rssKnownGuids s.rows).Nodup
  other : ∀ r ∈ s.rows, r.status = .new → otherStatus s.history r.guid = false
  untasked : ∀ r ∈ s.rows, r.status = .new → taskCount s.history r.guid = 0
  once : ∀ g, taskCount s.history g + fetchCount s.torrents g ≤ 1
  sent : ∀ t ∈ s.torrents, t.2 = true → wasDispatched s.history t.1.guid = true
  noticed : ∀ g, wasDispatched s.history g = true → ∃ st, Event.status g st ∈ s.history
  kept : ∀ g st, Event.status g st ∈ s.history →
    g ∈ rssKnownGuids s.rows ∨ otherStatus s.history g = true ∨ s.stored = none
  tasked : ∀ g, 0 < taskCount s.history g → otherStatus s.history g = true ∨ s.stored = none
  waiting : ∀ g, Event.accepted g ∈ s.history →
    Settled s g ∨ ∃ r ∈ s.rows, r.status = .new ∧ r.guid = g

variable {s t : Subscription}

/-- Events that accept, dispatch and create nothing of their own accord. -/
def Plain (events : List Event) : Prop :=
  ∀ e ∈ events, (∀ g, e ≠ .task g true) ∧ (∀ g st, e ≠ .dispatched g st) ∧ ∀ g, e ≠ .accepted g

theorem Plain.taskCount (h : Plain events) (guid : Text) :
    taskCount events guid = 0 :=
  count_eq_zero.mpr fun hmem => (h _ hmem).1 guid rfl

theorem Plain.wasDispatched (h : Plain events) (guid : Text) :
    wasDispatched events guid = false := by
  rw [RssSubscription.wasDispatched, any_eq_false]
  intro e he hdispatch
  cases e with
  | dispatched g st => exact (h _ he).2.1 g st rfl
  | _ => exact false_ne_true hdispatch

theorem plain_status (rows : List RssItemInfo) :
    Plain (rows.map fun r => .status r.guid r.status) := by
  intro e he
  obtain ⟨r,-,rfl⟩ := mem_map.mp he
  exact ⟨nofun,nofun,nofun⟩

theorem Plain.append {events' : List Event} (h : Plain events) (h' : Plain events') :
    Plain (events ++ events') := fun e he =>
  (mem_append.mp he).elim (h e) (h' e)

theorem Tidy.update (h : Tidy s) (hhistory : t.history = s.history ++ events)
    (hplain : Plain events) (htorrents : t.torrents = s.torrents) (hstored : t.stored = s.stored)
    (hguids : rssKnownGuids t.rows = rssKnownGuids s.rows)
    (hnew : ∀ r ∈ t.rows, r.status = .new → (∃ q ∈ s.rows, q.status = .new ∧ q.guid = r.guid) ∧
      otherStatus events r.guid = false)
    (hstatus : ∀ g st, Event.status g st ∈ events → g ∈ rssKnownGuids s.rows)
    (hleft : ∀ q ∈ s.rows, q.status = .new → Settled t q.guid ∨ ∃ r ∈ t.rows, r.status = .new ∧ r.guid = q.guid)
    : Tidy t where
  nodup := hguids ▸ h.nodup
  other r hr hst := by
    obtain ⟨⟨q,hq,hqst,hguid⟩,hother⟩ := hnew r hr hst
    rw [hhistory, otherStatus_append, hother, Bool.or_false, ← hguid]
    exact h.other q hq hqst
  untasked r hr hst := by
    obtain ⟨⟨q,hq,hqst,hguid⟩,-⟩ := hnew r hr hst
    rw [hhistory, taskCount_append, hplain.taskCount, ← hguid]
    exact h.untasked q hq hqst
  once g := by
    rw [hhistory, htorrents, taskCount_append, hplain.taskCount]
    exact h.once g
  sent f hf hauto := by
    rw [hhistory]
    exact wasDispatched_mono (h.sent f (htorrents ▸ hf) hauto) events
  noticed g hg := by
    rw [hhistory, wasDispatched_append, hplain.wasDispatched, Bool.or_false] at hg
    obtain ⟨st,hst⟩ := h.noticed g hg
    exact ⟨st,hhistory ▸ mem_append_left events hst⟩
  kept g st hmem := by
    rw [hguids, hhistory, hstored]
    rw [hhistory] at hmem
    rcases mem_append.mp hmem with hold | hnew
    · rcases h.kept g st hold with hknown | hother | hnone
      · exact .inl hknown
      · exact .inr (.inl (otherStatus_mono hother events))
      · exact .inr (.inr hnone)
    · exact .inl (hstatus g st hnew)
  tasked g hg := by
    rw [hhistory, taskCount_append, hplain.taskCount, Nat.add_zero] at hg
    rw [hhistory, hstored]
    exact (h.tasked g hg).imp (fun hother => otherStatus_mono hother events) id
  waiting g hg := by
    rw [hhistory] at hg
    rcases mem_append.mp hg with hold | hnew
    · rcases h.waiting g hold with hsettled | ⟨q,hq,hqst,rfl⟩
      · exact .inl (hsettled.mono hhistory fun hnone => hstored.trans hnone)
      · exact hleft q hq hqst
    · exact absurd rfl ((hplain _ hnew).2.2 g)

theorem Tidy.congr (h : Tidy s) (hrows : t.rows = s.rows) (hhistory : t.history = s.history)
    (htorrents : t.torrents = s.torrents) (hstored : s.stored = none → t.stored = none) :
    Tidy t where
  nodup := hrows ▸ h.nodup
  other r hr := by
    rw [hhistory]
    exact h.other r (hrows ▸ hr)
  untasked r hr := by
    rw [hhistory]
    exact h.untasked r (hrows ▸ hr)
  once g := by
    rw [hhistory, htorrents]
    exact h.once g
  sent f hf := by
    rw [hhistory]
    exact h.sent f (htorrents ▸ hf)
  noticed g hg := by
    rw [hhistory] at hg ⊢
    exact h.noticed g hg
  kept g st hmem := by
    rw [hhistory] at hmem ⊢
    rw [hrows]
    exact (h.kept g st hmem).imp id (Or.imp id hstored)
  tasked g hg := by
    rw [hhistory] at hg ⊢
    exact (h.tasked g hg).imp id hstored
  waiting g hg := by
    rw [hhistory] at hg
    rw [hrows]
    exact (h.waiting g hg).imp
      (fun hsettled => hsettled.mono (hhistory.trans (append_nil _).symm) hstored) id

theorem Tidy.broadcastSources (h : Tidy s) (ok : Bool) : Tidy (s.broadcastSources ok) := by
  rw [Subscription.broadcastSources]
  split_ifs
  · exact h.congr rfl rfl rfl id
  · exact h

theorem Tidy.dispatchFetch (h : Tidy s) (now : ℤ) : Tidy (s.dispatchFetch now) := by
  rw [Subscription.dispatchFetch]
  cases s.source with
  | none => exact h
  | some source => exact h.congr rfl rfl rfl id

/-- Events that say nothing of a status. -/
def Statusless (events : List Event) : Prop := ∀ e ∈ events, ∀ g st, e ≠ .status g st

theorem Statusless.otherStatus (h : Statusless events) (guid : Text) :
    otherStatus events guid = false := by
  rw [← not_eq_true, otherStatus_iff]
  rintro ⟨st,-,hmem⟩
  exact h _ hmem guid st rfl

/-- Statuses are written and noted: rows stay in place, and none becomes new. -/
theorem Tidy.write (h : Tidy s) (hplain : Plain events) (hstatusless : Statusless events)
    (hhistory : t.history = s.history ++ (events ++ t.rows.map fun r => .status r.guid r.status))
    (htorrents : t.torrents = s.torrents) (hstored : t.stored = s.stored)
    (hguids : rssKnownGuids t.rows = rssKnownGuids s.rows)
    (hnew : ∀ r ∈ t.rows, r.status = .new → r ∈ s.rows)
    (hleft : ∀ q ∈ s.rows, q.status = .new → Settled t q.guid ∨ q ∈ t.rows) : Tidy t := by
  refine h.update hhistory (hplain.append (plain_status t.rows)) htorrents hstored hguids ?_ ?_ ?_
  · intro r hr hst
    refine ⟨⟨r,hnew r hr hst,hst,rfl⟩,?_⟩
    rw [otherStatus_append, hstatusless.otherStatus, Bool.false_or]
    exact otherStatus_rows (hguids ▸ h.nodup) hr hst
  · intro g st hmem
    rcases mem_append.mp hmem with hevent | hrow
    · exact absurd rfl (hstatusless _ hevent g st)
    · obtain ⟨r,hr,heq⟩ := mem_map.mp hrow
      obtain ⟨hguid,-⟩ := Event.status.inj heq
      rw [← hguids, ← hguid]
      exact mem_rssKnownGuids.mpr ⟨r,hr,rfl⟩
  · intro q hq hst
    exact (hleft q hq hst).imp id fun hq => ⟨q,hq,hst,rfl⟩

theorem statusless_task (guid : Text) (automatic : Bool) : Statusless [.task guid automatic] := by
  intro e he
  rw [mem_singleton] at he
  subst he
  exact nofun

theorem statusless_disposed (guids : List Text) : Statusless (guids.map .disposed) := by
  intro e he
  obtain ⟨g,-,rfl⟩ := mem_map.mp he
  exact nofun

theorem plain_disposed (guids : List Text) : Plain (guids.map .disposed) := by
  intro e he
  obtain ⟨g,-,rfl⟩ := mem_map.mp he
  exact ⟨nofun,nofun,nofun⟩

theorem plain_task (guid : Text) : Plain [.task guid false] := by
  intro e he
  rw [mem_singleton] at he
  subst he
  exact ⟨nofun,nofun,nofun⟩

theorem mem_setRssItemStatus_of_ne {rows : List RssItemInfo} {status : RssItemStatus}
    {reason : String} {taskId : Text} {q : RssItemInfo} (hq : q ∈ rows) (hne : q.guid ≠ guid) :
    q ∈ setRssItemStatus rows guid status reason taskId :=
  mem_map.mpr ⟨q,hq,if_neg hne⟩

theorem Tidy.finishManual (h : Tidy s) (guid : Text) (created : Option Text) (marked : Bool) :
    Tidy (s.finishRssTask false guid created marked) := by
  cases created with
  | none => exact h
  | some taskId =>
      cases marked with
      | false =>
          have hhistory : (s.finishRssTask false guid (some taskId) false).history =
              s.history ++ [.task guid false] := rfl
          refine h.update hhistory (plain_task guid) rfl rfl rfl ?_ ?_ ?_
          · intro r hr hst
            exact ⟨⟨r,hr,hst,rfl⟩,(statusless_task guid false).otherStatus _⟩
          · intro g st hmem
            exact absurd rfl (statusless_task guid false _ hmem g st)
          · intro q hq hst
            exact .inr ⟨q,hq,hst,rfl⟩
      | true =>
          refine h.write (plain_task guid) (statusless_task guid false)
            (append_assoc _ _ _) rfl rfl (rssKnownGuids_setRssItemStatus _ _ _ _) ?_ ?_
          · exact fun r hr hst => (new_of_mem_setRssItemStatus (by nofun) hr hst).1
          · intro q hq hst
            by_cases hguid : q.guid = guid
            · refine .inl (.inr (.inr (.inl ?_)))
              rw [hguid]
              exact mem_append_left _ (mem_append_right _ (mem_singleton.mpr rfl))
            · exact .inr (mem_setRssItemStatus_of_ne hq hguid)

/-- The task of a dispatched item that had none, and no fetch under way. -/
theorem Tidy.finishAutomatic (h : Tidy s) (hnone : taskCount s.history guid = 0)
    (hidle : fetchCount s.torrents guid = 0) (hsent : wasDispatched s.history guid = true)
    {marked : Bool} (hmarked : created.isSome = true → marked = true) :
    Tidy (s.finishRssTask true guid created marked) := by
  cases created with
  | none => exact h
  | some taskId =>
      obtain rfl : marked = true := hmarked rfl
      have hrows : ∀ r ∈ setRssItemStatus s.rows guid .downloaded "" taskId, r.status = .new →
          r ∈ s.rows ∧ r.guid ≠ guid := fun r => new_of_mem_setRssItemStatus nofun
      have hguids : rssKnownGuids (setRssItemStatus s.rows guid .downloaded "" taskId) =
          rssKnownGuids s.rows := rssKnownGuids_setRssItemStatus guid .downloaded "" taskId
      have hnodup : (rssKnownGuids (setRssItemStatus s.rows guid .downloaded "" taskId)).Nodup :=
        hguids ▸ h.nodup
      have hcount : ∀ g, taskCount (s.finishRssTask true guid (some taskId) true).history g =
          taskCount s.history g + if g = guid then 1 else 0 := by
        intro g
        simp only [Subscription.finishRssTask, Subscription.note, Subscription.record, if_true,
          taskCount_append, (plain_status _).taskCount, Nat.add_zero]
        by_cases hg : g = guid
        · simp [taskCount, hg]
        · have hne : ¬ guid = g := fun heq => hg heq.symm
          simp [taskCount, hg, hne]
      have hmono : (s.finishRssTask true guid (some taskId) true).history = s.history ++
          ([.task guid true] ++ (setRssItemStatus s.rows guid .downloaded "" taskId).map
            fun r => .status r.guid r.status) := append_assoc _ _ _
      refine ⟨hnodup,?_,?_,?_,?_,?_,?_,?_,?_⟩
      · intro r hr hst
        rw [hmono, otherStatus_append, h.other r (hrows r hr hst).1 hst, Bool.false_or,
          otherStatus_append, (statusless_task guid true).otherStatus, Bool.false_or]
        exact otherStatus_rows hnodup hr hst
      · intro r hr hst
        rw [hcount, h.untasked r (hrows r hr hst).1 hst, if_neg (hrows r hr hst).2]
      · intro g
        rw [hcount]
        by_cases hg : g = guid
        · rw [hg, hnone, if_pos rfl]
          exact Nat.le_of_eq (congrArg (1 + ·) hidle)
        · rw [if_neg hg, Nat.add_zero]
          exact h.once g
      · intro f hf hauto
        rw [hmono]
        exact wasDispatched_mono (h.sent f hf hauto) _
      · intro g hg
        rw [hmono, wasDispatched_append, wasDispatched_append, (plain_status _).wasDispatched] at hg
        obtain ⟨st,hst⟩ := h.noticed g (by simpa [wasDispatched, dispatchOf] using hg)
        exact ⟨st,hmono ▸ mem_append_left _ hst⟩
      · intro g st hmem
        rw [hmono] at hmem ⊢
        rcases mem_append.mp hmem with hold | hnew
        · rcases h.kept g st hold with hknown | hother | hgone
          · exact .inl (hguids ▸ hknown)
          · exact .inr (.inl (otherStatus_mono hother _))
          · exact .inr (.inr hgone)
        · rcases mem_append.mp hnew with htask | hrow
          · exact absurd rfl (statusless_task guid true _ htask g st)
          · obtain ⟨r,hr,heq⟩ := mem_map.mp hrow
            exact .inl (mem_rssKnownGuids.mpr ⟨r,hr,(Event.status.inj heq).1⟩)
      · intro g hg
        rw [hcount] at hg
        by_cases hguid : g = guid
        · -- the row of the item, if it is still there, is now downloaded
          obtain ⟨st,hst⟩ := h.noticed guid hsent
          rw [hguid, hmono]
          rcases h.kept guid st hst with hknown | hother | hgone
          · left
            rw [← hguids, mem_rssKnownGuids] at hknown
            obtain ⟨r,hr,hrguid⟩ := hknown
            rw [otherStatus_iff]
            refine ⟨r.status,?_,mem_append_right _ (mem_append_right _
              (mem_map.mpr ⟨r,hr,by rw [hrguid]⟩))⟩
            intro hnew
            exact (hrows r hr hnew).2 hrguid
          · exact .inl (otherStatus_mono hother _)
          · exact .inr hgone
        · rw [if_neg hguid, Nat.add_zero] at hg
          rw [hmono]
          exact (h.tasked g hg).imp (fun hother => otherStatus_mono hother _) id
      · intro g hg
        rw [hmono] at hg
        have hold : Event.accepted g ∈ s.history := by
          rcases mem_append.mp hg with hold | hnew
          · exact hold
          · simp at hnew
        rcases h.waiting g hold with hsettled | ⟨q,hq,hst,rfl⟩
        · exact .inl (hsettled.mono hmono id)
        · by_cases hguid : q.guid = guid
          · exact .inl (.inl (by rw [hmono, hguid]; exact wasDispatched_mono hsent _))
          · exact .inr ⟨q,mem_setRssItemStatus_of_ne hq hguid,hst,rfl⟩

/-! ## Torrent fetches -/

theorem Tidy.torrents (h : Tidy s) (hrows : t.rows = s.rows) (hhistory : t.history = s.history)
    (hstored : t.stored = s.stored)
    (honce : ∀ g, taskCount s.history g + fetchCount t.torrents g ≤ 1)
    (hsent : ∀ f ∈ t.torrents, f.2 = true → wasDispatched s.history f.1.guid = true) : Tidy t := by
  have hcongr : Tidy { t with torrents := s.torrents } :=
    h.congr hrows hhistory rfl fun hnone => hstored.trans hnone
  exact ⟨hcongr.nodup,hcongr.other,hcongr.untasked,fun g => hhistory ▸ honce g,
    fun f hf hauto => hhistory ▸ hsent f hf hauto,hcongr.noticed,hcongr.kept,hcongr.tasked,
    hcongr.waiting⟩

theorem fetchCount_push (torrents : List (RssDownloadPlan × Bool)) (plan : RssDownloadPlan)
    (automatic : Bool) (guid : Text) :
    fetchCount (torrents ++ [(plan, automatic)]) guid =
      fetchCount torrents guid + if automatic && plan.guid == guid then 1 else 0 := by
  rw [fetchCount, countP_append, countP_singleton]
  rfl

theorem fetchCount_eraseIdx {torrents : List (RssDownloadPlan × Bool)} {i : ℕ}
    (h : torrents[i]? = some (plan, automatic)) (guid : Text) :
    fetchCount torrents guid =
      fetchCount (torrents.eraseIdx i) guid + if automatic && plan.guid == guid then 1 else 0 := by
  obtain ⟨hi,hget⟩ := List.getElem?_eq_some_iff.mp h
  have hperm := (getElem_cons_eraseIdx_perm hi).countP_eq fun t => t.2 && t.1.guid == guid
  rw [hget, countP_cons] at hperm
  exact hperm.symm

theorem Tidy.eraseTorrent (h : Tidy s) {i : ℕ} (hget : s.torrents[i]? = some (plan, automatic)) :
    Tidy { s with torrents := s.torrents.eraseIdx i } := by
  refine h.torrents rfl rfl rfl (fun g => ?_) fun f hf =>
    h.sent f ((eraseIdx_sublist s.torrents i).subset hf)
  have hcount := fetchCount_eraseIdx hget g
  have honce := h.once g
  have hle : fetchCount (s.torrents.eraseIdx i) g ≤ fetchCount s.torrents g :=
    hcount ▸ Nat.le_add_right _ _
  exact Nat.le_trans (Nat.add_le_add_left hle _) honce

/-- A plan whose item was dispatched, has no task and no fetch under way. -/
structure Ready (s : Subscription) (plan : RssDownloadPlan) : Prop where
  untasked : taskCount s.history plan.guid = 0
  idle : fetchCount s.torrents plan.guid = 0
  sent : wasDispatched s.history plan.guid = true

theorem Tidy.createAutomatic (h : Tidy s) (hready : Ready s plan) {marked : Bool}
    (hmarked : created.isSome = true → marked = true) :
    Tidy (s.createRssTask true plan created marked) := by
  rw [Subscription.createRssTask]
  split_ifs
  · refine h.torrents rfl rfl rfl (fun g => ?_) fun f hf hauto => ?_
    · rw [fetchCount_push]
      by_cases hg : plan.guid = g
      · rw [← hg, hready.untasked, hready.idle]
        simp
      · simpa [hg] using h.once g
    · rcases mem_append.mp hf with hold | hnew
      · exact h.sent f hold hauto
      · obtain rfl := mem_singleton.mp hnew
        exact hready.sent
  · exact h.finishAutomatic hready.untasked hready.idle hready.sent hmarked

theorem Tidy.createManual (h : Tidy s) (plan : RssDownloadPlan) (created : Option Text)
    (marked : Bool) : Tidy (s.createRssTask false plan created marked) := by
  rw [Subscription.createRssTask]
  split_ifs
  · refine h.torrents rfl rfl rfl (fun g => ?_) fun f hf hauto => ?_
    · rw [fetchCount_push]
      simpa using h.once g
    · rcases mem_append.mp hf with hold | hnew
      · exact h.sent f hold hauto
      · obtain rfl := mem_singleton.mp hnew
        exact absurd hauto false_ne_true
  · exact h.finishManual plan.guid created marked

theorem createRssTask_history (s : Subscription) (automatic : Bool) (plan : RssDownloadPlan)
    (created : Option Text) (marked : Bool) :
    ∃ events, (s.createRssTask automatic plan created marked).history = s.history ++ events ∧
      ∀ e ∈ events, e = .task plan.guid automatic ∨ ∃ g st, e = .status g st := by
  rw [Subscription.createRssTask]
  split_ifs
  · exact ⟨[],(append_nil _).symm,fun e he => absurd he not_mem_nil⟩
  · cases created with
    | none => exact ⟨[],(append_nil _).symm,fun e he => absurd he not_mem_nil⟩
    | some taskId =>
        cases marked with
        | false => exact ⟨[.task plan.guid automatic],rfl,fun e he => .inl (by simpa using he)⟩
        | true =>
            refine ⟨_,append_assoc _ _ _,fun e he => ?_⟩
            rcases mem_append.mp he with htask | hrow
            · exact .inl (by simpa using htask)
            · obtain ⟨r,-,rfl⟩ := mem_map.mp hrow
              exact .inr ⟨r.guid,r.status,rfl⟩

theorem Ready.createRssTask {other : RssDownloadPlan} (h : Ready s other)
    (hne : plan.guid ≠ other.guid) (created : Option Text) (marked : Bool) :
    Ready (s.createRssTask true plan created marked) other := by
  obtain ⟨events,hhistory,hevents⟩ := createRssTask_history s true plan created marked
  have hfetches : fetchCount (s.createRssTask true plan created marked).torrents other.guid =
      fetchCount s.torrents other.guid := by
    rw [Subscription.createRssTask]
    split_ifs
    · rw [fetchCount_push]
      simp [hne]
    · cases created with
      | none => rfl
      | some taskId => cases marked <;> rfl
  refine ⟨?_,hfetches.trans h.idle,?_⟩
  · rw [hhistory, taskCount_append, h.untasked, Nat.zero_add, taskCount, count_eq_zero]
    intro hmem
    rcases hevents _ hmem with heq | ⟨g,st,heq⟩
    · exact hne (Event.task.inj heq).1.symm
    · cases heq
  · rw [hhistory]
    exact wasDispatched_mono h.sent events

theorem Tidy.createRssTasks (h : Tidy s) {plans : List RssDownloadPlan}
    (hready : ∀ plan ∈ plans, Ready s plan) (hnodup : (plans.map (·.guid)).Nodup)
    (hmarked : ∀ plan ∈ plans, (round.created plan.guid).isSome = true → round.marked plan.guid = true)
    : Tidy (s.createRssTasks round plans) := by
  rw [Subscription.createRssTasks]
  induction plans generalizing s with
  | nil => exact h
  | cons plan plans ih =>
      rw [forall_mem_cons] at hready hmarked
      rw [map_cons, nodup_cons] at hnodup
      apply ih (h.createAutomatic hready.1 hmarked.1) _ hnodup.2 hmarked.2
      intro other hother
      apply (hready.2 other hother).createRssTask
      intro heq
      exact hnodup.1 (heq ▸ mem_map_of_mem hother)

/-! ## A feed is applied -/

/-- Every row is still there after a feed, with its publication date filled in. -/
theorem exists_rowsWithFeed (p : Platform) (source : RssSourceInfo) (round : Round)
    {q : RssItemInfo} (hq : q ∈ s.rows) : ∃ r ∈ s.rowsWithFeed p source round, Backfilled q r := by
  obtain ⟨f,hf,hrows⟩ := rowsWithFeed_cases s p source round
  have hmem : f q ∈ s.rows.map f := mem_map_of_mem hq
  refine ⟨f q,?_,hf q⟩
  rw [hrows]
  split_ifs
  · exact subset_insertRssItems _ hmem
  · exact hmem

/-- An accepted item has a new row once the rows of its feed are inserted. -/
theorem exists_accepted_row (hinsert : round.insertOk = true) (hstored : s.stored ≠ none)
    (h : Event.accepted guid ∈ s.acceptedItems p source round) :
    ∃ r ∈ s.rowsWithFeed p source round, r.status = .new ∧ r.guid = guid := by
  obtain ⟨r,hr,heq⟩ := mem_map.mp h
  obtain ⟨hadded,hnew⟩ := mem_filter.mp hr
  obtain ⟨f,hf,hrows⟩ := rowsWithFeed_cases s p source round
  refine ⟨r,?_,by simpa using hnew,Event.accepted.inj heq⟩
  rw [hrows, hinsert, Option.isSome_iff_ne_none.mpr hstored]
  simp only [Bool.and_self, if_true, insertRssItems_eq_append]
  rw [rssKnownGuids_map fun q => (hf q).guid]
  exact mem_append_right _ hadded

/-- What a feed records before the statuses of the rows. -/
def Subscription.arrival (s : Subscription) (p : Platform) (source : RssSourceInfo)
    (round : Round) : List Event :=
  .feed (round.outcome.items.map (·.guid)) :: s.acceptedItems p source round

theorem mem_arrival {e : Event} (h : e ∈ s.arrival p source round) : (∃ guids, e = .feed guids) ∨
      e ∈ s.acceptedItems p source round ∧ ∃ guid, e = .accepted guid := by
  rcases mem_cons.mp h with rfl | hmem
  · exact .inl ⟨_,rfl⟩
  · obtain ⟨r,-,rfl⟩ := mem_map.mp hmem
    exact .inr ⟨hmem,r.guid,rfl⟩

theorem statusless_arrival (s : Subscription) (p : Platform) (source : RssSourceInfo)
    (round : Round) : Statusless (s.arrival p source round) := by
  intro e he
  rcases mem_arrival he with ⟨guids,rfl⟩ | ⟨-,g,rfl⟩ <;> exact nofun

theorem taskCount_arrival (s : Subscription) (p : Platform) (source : RssSourceInfo)
    (round : Round) (guid : Text) : taskCount (s.arrival p source round) guid = 0 := by
  refine count_eq_zero.mpr fun hmem => ?_
  rcases mem_arrival hmem with ⟨guids,heq⟩ | ⟨-,g,heq⟩ <;> exact absurd heq nofun

theorem wasDispatched_arrival (s : Subscription) (p : Platform) (source : RssSourceInfo)
    (round : Round) (guid : Text) : wasDispatched (s.arrival p source round) guid = false := by
  rw [wasDispatched, any_eq_false]
  intro e he
  rcases mem_arrival he with ⟨guids,rfl⟩ | ⟨-,g,rfl⟩ <;> exact false_ne_true

theorem fillRows_history (s : Subscription) (p : Platform) (source : RssSourceInfo)
    (round : Round) : (s.fillRows p source round).history = s.history ++ s.arrival p source round ++
      (s.rowsWithFeed p source round).map fun r => .status r.guid r.status := rfl

theorem fillRows_rows (s : Subscription) (p : Platform) (source : RssSourceInfo)
    (round : Round) : (s.fillRows p source round).rows = s.roundRows p source round := rfl

theorem taskCount_fillRows (s : Subscription) (p : Platform) (source : RssSourceInfo)
    (round : Round) (guid : Text) :
    taskCount (s.fillRows p source round).history guid = taskCount s.history guid := by
  rw [fillRows_history, taskCount_append, taskCount_append, taskCount_arrival,
    (plain_status _).taskCount]
  rfl

theorem wasDispatched_fillRows (s : Subscription) (p : Platform) (source : RssSourceInfo)
    (round : Round) (guid : Text) :
    wasDispatched (s.fillRows p source round).history guid = wasDispatched s.history guid := by
  rw [fillRows_history, wasDispatched_append, wasDispatched_append, wasDispatched_arrival,
    (plain_status _).wasDispatched, Bool.or_false, Bool.or_false]

/-- A new row after a feed is of an item that had no other status and has no task. -/
theorem Tidy.new_rowsWithFeed (h : Tidy s) (hround : RoundOrderly p s source round)
    {r : RssItemInfo} (hr : r ∈ s.rowsWithFeed p source round) (hst : r.status = .new) :
    otherStatus s.history r.guid = false ∧ taskCount s.history r.guid = 0 := by
  rcases mem_rowsWithFeed hr with ⟨q,hq,hfill⟩ | ⟨hunknown,hstored,hfresh⟩
  · rw [hfill.guid]
    exact ⟨h.other q hq (hfill.status ▸ hst),h.untasked q hq (hfill.status ▸ hst)⟩
  · have hseeded : source.seeded = true := by simpa using hfresh.later hst
    obtain ⟨parsed,hparsed,hguid,-⟩ := hfresh.listed
    have hother : otherStatus s.history r.guid = false := by
      by_contra hother
      exact hunknown (hguid ▸ hround.listed hseeded parsed hparsed
        (hguid ▸ eq_true_of_ne_false hother))
    refine ⟨hother,?_⟩
    by_contra htask
    rcases h.tasked r.guid (Nat.pos_of_ne_zero htask) with hfalse | hnone
    · rw [hother] at hfalse
      exact false_ne_true hfalse
    · rw [hnone] at hstored
      exact false_ne_true hstored

theorem Tidy.fillRows (h : Tidy s) (hround : RoundOrderly p s source round) :
    Tidy (s.fillRows p source round) := by
  have hnodup := nodup_rowsWithFeed h.nodup p source round
  have hsub : (s.roundRows p source round).Sublist (s.rowsWithFeed p source round) :=
    pruned_sublist round _
  have htasks := taskCount_fillRows s p source round
  have hdispatched := wasDispatched_fillRows s p source round
  have hmono : ∀ g, otherStatus s.history g = true →
      otherStatus (s.fillRows p source round).history g = true := by
    intro g hg
    rw [fillRows_history]
    exact otherStatus_mono (otherStatus_mono hg _) _
  -- a row that the prune deletes had another status, which is noted
  have hnoted : ∀ r ∈ s.rowsWithFeed p source round,
      r.guid ∈ rssKnownGuids (s.roundRows p source round) ∨
        otherStatus (s.fillRows p source round).history r.guid = true := by
    intro r hr
    by_cases hst : r.status = .new
    · exact .inl (mem_rssKnownGuids.mpr ⟨r,hround.kept r hr hst,rfl⟩)
    · exact .inr (otherStatus_iff.mpr ⟨r.status,hst,
        mem_append_right _ (mem_map.mpr ⟨r,hr,rfl⟩)⟩)
  refine ⟨hnodup.sublist (hsub.map _),?_,?_,?_,?_,?_,?_,?_,?_⟩
  · intro r hr hst
    have hrow := hsub.subset hr
    rw [fillRows_history, otherStatus_append, otherStatus_append,
      (h.new_rowsWithFeed hround hrow hst).1, (statusless_arrival _ _ _ _).otherStatus,
      otherStatus_rows hnodup hrow hst]
    rfl
  · intro r hr hst
    rw [htasks]
    exact (h.new_rowsWithFeed hround (hsub.subset hr) hst).2
  · intro g
    rw [htasks]
    exact h.once g
  · intro f hf hauto
    rw [hdispatched]
    exact h.sent f hf hauto
  · intro g hg
    rw [hdispatched] at hg
    obtain ⟨st,hst⟩ := h.noticed g hg
    exact ⟨st,mem_append_left _ (mem_append_left _ hst)⟩
  · intro g st hmem
    rw [fillRows_history, append_assoc] at hmem
    rcases mem_append.mp hmem with hold | hnew
    · rcases h.kept g st hold with hknown | hother | hnone
      · obtain ⟨q,hq,rfl⟩ := mem_rssKnownGuids.mp hknown
        obtain ⟨r,hr,hfill⟩ := exists_rowsWithFeed p source round hq
        exact (hfill.guid ▸ hnoted r hr).imp id .inl
      · exact .inr (.inl (hmono g hother))
      · exact .inr (.inr hnone)
    · rcases mem_append.mp hnew with harrival | hrow
      · exact absurd rfl (statusless_arrival s p source round _ harrival g st)
      · obtain ⟨r,hr,heq⟩ := mem_map.mp hrow
        exact ((Event.status.inj heq).1 ▸ hnoted r hr).imp id .inl
  · intro g hg
    rw [htasks] at hg
    exact (h.tasked g hg).imp (hmono g) id
  · intro g hg
    rw [fillRows_history, append_assoc] at hg
    have hsettled : Settled s g → Settled (s.fillRows p source round) g := fun hsettled =>
      hsettled.mono ((fillRows_history s p source round).trans (append_assoc _ _ _)) id
    rcases mem_append.mp hg with hold | hnew
    · rcases h.waiting g hold with hsettled' | ⟨q,hq,hst,rfl⟩
      · exact .inl (hsettled hsettled')
      · obtain ⟨r,hr,hfill⟩ := exists_rowsWithFeed p source round hq
        have hnew : r.status = .new := hfill.status.trans hst
        exact .inr ⟨r,hround.kept r hr hnew,hnew,hfill.guid⟩
    · rcases mem_append.mp hnew with harrival | hrow
      · rcases mem_arrival harrival with ⟨guids,heq⟩ | ⟨haccepted,-⟩
        · exact absurd heq nofun
        · by_cases hstored : s.stored = none
          · exact .inl (hsettled (.inr (.inr (.inr hstored))))
          · have hinsert := hround.inserted (ne_nil_of_mem haccepted)
            obtain ⟨r,hr,hst,hguid⟩ := exists_accepted_row hinsert hstored haccepted
            exact .inr ⟨r,hround.kept r hr hst,hst,hguid⟩
      · obtain ⟨r,-,heq⟩ := mem_map.mp hrow
        exact absurd heq nofun

/-! ## Dispatch -/

theorem statusless_dispatched (items : List RssItemInfo) :
    Statusless (items.map fun r => .dispatched r.guid r.status) := by
  intro e he
  obtain ⟨r,-,rfl⟩ := mem_map.mp he
  exact nofun

theorem taskCount_dispatched (items : List RssItemInfo) (guid : Text) :
    taskCount (items.map fun r => .dispatched r.guid r.status) guid = 0 := by
  refine count_eq_zero.mpr fun hmem => ?_
  obtain ⟨r,-,heq⟩ := mem_map.mp hmem
  exact absurd heq nofun

theorem wasDispatched_dispatched {items : List RssItemInfo} :
    wasDispatched (items.map fun r => .dispatched r.guid r.status) guid = true ↔
      guid ∈ rssKnownGuids items := by
  simp [wasDispatched, dispatchOf, rssKnownGuids]

/-- Items whose rows were noted are dispatched. -/
theorem Tidy.dispatch (h : Tidy s) {items : List RssItemInfo}
    (hitems : ∀ r ∈ items, ∃ st, Event.status r.guid st ∈ s.history) :
    Tidy (s.record (items.map fun r => .dispatched r.guid r.status)) := by
  refine ⟨h.nodup,?_,?_,?_,?_,?_,?_,?_,?_⟩
  · intro r hr hst
    rw [Subscription.record, otherStatus_append, h.other r hr hst,
      (statusless_dispatched items).otherStatus]
    rfl
  · intro r hr hst
    rw [Subscription.record, taskCount_append, h.untasked r hr hst, taskCount_dispatched]
  · intro g
    rw [Subscription.record, taskCount_append, taskCount_dispatched]
    exact h.once g
  · intro f hf hauto
    exact wasDispatched_mono (h.sent f hf hauto) _
  · intro g hg
    rw [Subscription.record, wasDispatched_append, or_eq_true] at hg
    have hnoted : ∃ st, Event.status g st ∈ s.history := by
      rcases hg with hold | hnew
      · exact h.noticed g hold
      · obtain ⟨r,hr,rfl⟩ := mem_rssKnownGuids.mp (wasDispatched_dispatched.mp hnew)
        exact hitems r hr
    obtain ⟨st,hst⟩ := hnoted
    exact ⟨st,mem_append_left _ hst⟩
  · intro g st hmem
    rcases mem_append.mp hmem with hold | hnew
    · exact (h.kept g st hold).imp id (Or.imp (fun hother => otherStatus_mono hother _) id)
    · exact absurd rfl (statusless_dispatched items _ hnew g st)
  · intro g hg
    rw [Subscription.record, taskCount_append, taskCount_dispatched] at hg
    exact (h.tasked g hg).imp (fun hother => otherStatus_mono hother _) id
  · intro g hg
    rcases mem_append.mp hg with hold | hnew
    · exact (h.waiting g hold).imp (fun hsettled => hsettled.mono rfl id) id
    · obtain ⟨r,-,heq⟩ := mem_map.mp hnew
      exact absurd heq nofun

theorem nodup_selected (source : RssSourceInfo) (round : Round) {rows : List RssItemInfo}
    (h : (rssKnownGuids rows).Nodup) :
    ((selected source round rows).map (·.guid)).Nodup := by
  rw [selected]
  split_ifs
  · have hfilter : ((rows.filter (·.status = .new)).map (·.guid)).Nodup :=
      h.sublist (filter_sublist.map _)
    have hsorted := (((rows.filter (·.status = .new)).perm_insertionSort olderFirst).map
      (·.guid)).nodup_iff.mpr hfilter
    exact hsorted.sublist ((take_sublist _ _).map _)
  · exact nodup_nil

/-- A state after a dispatch whose plans become tasks. -/
structure Dispatched (s : Subscription) (round : Round) (plans : List RssDownloadPlan) : Prop where
  tidy : Tidy s
  ready : ∀ plan ∈ plans, Ready s plan
  nodup : (plans.map (·.guid)).Nodup
  marked : ∀ plan ∈ plans, (round.created plan.guid).isSome = true → round.marked plan.guid = true

theorem Dispatched.nil (h : Tidy s) (round : Round) : Dispatched s round [] :=
  ⟨h,fun _ hplan => absurd hplan not_mem_nil,nodup_nil,
    fun _ hplan => absurd hplan not_mem_nil⟩

theorem Dispatched.broadcastSources {plans : List RssDownloadPlan} (h : Dispatched s round plans)
    (ok : Bool) : Dispatched (s.broadcastSources ok) round plans := by
  refine ⟨h.tidy.broadcastSources ok,fun plan hplan => ?_,h.nodup,h.marked⟩
  obtain ⟨huntasked,hidle,hsent⟩ := h.ready plan hplan
  rw [Subscription.broadcastSources]
  split_ifs
  · exact ⟨huntasked,hidle,hsent⟩
  · exact ⟨huntasked,hidle,hsent⟩

theorem Tidy.persistRuntime (h : Tidy s) (ok : Bool) (runtime : RssSourceInfo → RssSourceInfo) :
    Tidy (s.persistRuntime ok runtime) := by
  refine h.congr rfl rfl rfl fun hnone => ?_
  rw [Subscription.persistRuntime, hnone]
  exact ite_self none

theorem Tidy.applyFetch (h : Tidy s) (hround : Orderly p s (.fetched round)) :
    Dispatched (s.applyFetch p round).1 round (s.applyFetch p round).2 := by
  rw [Subscription.applyFetch]
  cases hsource : s.source with
  | none =>
      apply Dispatched.nil
      exact h.congr rfl rfl rfl id
  | some source =>
      by_cases herror : round.outcome.error = ""
      · simp only [herror, ne_eq, not_true_eq_false, if_false]
        have horderly : RoundOrderly p s source round := hround herror source hsource
        have hfilled := h.fillRows horderly
        have hnew : ∀ r ∈ selected source round (s.roundRows p source round),
            r ∈ s.roundRows p source round ∧ r.status = .new := selected_new
        have hitems : ∀ r ∈ selected source round (s.roundRows p source round),
            ∃ st, Event.status r.guid st ∈ (s.fillRows p source round).history := fun r hr =>
          ⟨r.status,mem_append_right _ (mem_map.mpr
            ⟨r,(pruned_sublist round _).subset (hnew r hr).1,rfl⟩)⟩
        apply Dispatched.broadcastSources
        have htidy := (hfilled.persistRuntime round.persistOk
          (succeeded source round.now round.outcome.feedTitle)).dispatch hitems
        refine ⟨htidy,?_,?_,?_⟩
        · intro plan hplan
          obtain ⟨r,hr,rfl⟩ := mem_map.mp hplan
          exact ⟨htidy.untasked r (hnew r hr).1 (hnew r hr).2,horderly.idle r hr,
            (wasDispatched_append _ _ _).trans (or_eq_true_iff.mpr (.inr
              (wasDispatched_dispatched.mpr (mem_rssKnownGuids.mpr ⟨r,hr,rfl⟩))))⟩
        · rw [map_map]
          exact nodup_selected source round hfilled.nodup
        · intro plan hplan
          obtain ⟨r,hr,rfl⟩ := mem_map.mp hplan
          exact horderly.marked r hr
      · simp only [ne_eq, herror, not_false_eq_true, if_true]
        apply Dispatched.broadcastSources
        apply Dispatched.nil
        apply Tidy.persistRuntime
        exact h.congr rfl rfl rfl id

theorem Tidy.onFetched (h : Tidy s) (hround : Orderly p s (.fetched round)) :
    Tidy (s.onFetched p round) := by
  have happlied := h.applyFetch hround
  have hcreated := happlied.tidy.createRssTasks happlied.ready happlied.nodup happlied.marked
  simp only [Subscription.onFetched]
  split_ifs
  · exact hcreated.broadcastSources _
  · exact hcreated

/-! ## The other steps -/

theorem Tidy.onTorrentReady (h : Tidy s) {i : ℕ} (hget : s.torrents[i]? = some (plan, automatic))
    {error : String} {marked : Bool} (loadOk : Bool)
    (hmarked : error = "" → created.isSome = true → automatic = true → marked = true) :
    Tidy (Subscription.onTorrentReady { s with torrents := s.torrents.eraseIdx i } plan automatic
      error created marked loadOk) := by
  have herased := h.eraseTorrent hget
  rw [Subscription.onTorrentReady]
  split_ifs with herror hnone
  · exact herased
  · exact herased
  · apply Tidy.broadcastSources
    cases automatic with
    | false => exact herased.finishManual plan.guid created marked
    | true =>
        -- this fetch was the only automatic one, and there is no task yet
        have hcount := fetchCount_eraseIdx hget plan.guid
        rw [Bool.true_and, beq_self_eq_true, if_pos rfl] at hcount
        have honce := h.once plan.guid
        have htasks : taskCount s.history plan.guid = 0 := by omega
        have hidle : fetchCount (s.torrents.eraseIdx i) plan.guid = 0 := by omega
        have hsent := h.sent _ (mem_of_getElem? hget) rfl
        exact herased.finishAutomatic htasks hidle hsent fun hsome =>
          hmarked (not_not.mp herror) hsome rfl

theorem Tidy.ignoreItem (h : Tidy s) (guid : Text) (ok loadOk : Bool) :
    Tidy (s.ignoreItem guid ok loadOk) := by
  cases ok with
  | false => exact h
  | true =>
      apply Tidy.broadcastSources
      have hevents : (if guid ∈ rssKnownGuids s.rows then [Event.disposed guid] else []) =
          (if guid ∈ rssKnownGuids s.rows then [guid] else []).map .disposed := by
        split_ifs <;> rfl
      have hplain := plain_disposed (if guid ∈ rssKnownGuids s.rows then [guid] else [])
      have hstatusless := statusless_disposed (if guid ∈ rssKnownGuids s.rows then [guid] else [])
      rw [← hevents] at hplain hstatusless
      refine h.write hplain hstatusless (append_assoc _ _ _) rfl rfl
        (rssKnownGuids_setRssItemStatus _ _ _ _) ?_ ?_
      · exact fun r hr hst => (new_of_mem_setRssItemStatus (by nofun) hr hst).1
      · intro q hq hst
        by_cases hguid : q.guid = guid
        · refine .inl (.inr (.inl (mem_append_left _ (mem_append_right _ ?_))))
          rw [if_pos (mem_rssKnownGuids.mpr ⟨q,hq,hguid⟩), hguid]
          exact mem_singleton.mpr rfl
        · exact .inr (mem_setRssItemStatus_of_ne hq hguid)

theorem Tidy.markAllRead (h : Tidy s) (ok loadOk : Bool) : Tidy (s.markAllRead ok loadOk) := by
  cases ok with
  | false => exact h
  | true =>
      apply Tidy.broadcastSources
      have hplain := plain_disposed ((s.rows.filter (·.status = .new)).map (·.guid))
      have hstatusless := statusless_disposed ((s.rows.filter (·.status = .new)).map (·.guid))
      rw [map_map] at hplain hstatusless
      refine h.write hplain hstatusless (append_assoc _ _ _) rfl rfl
        rssKnownGuids_markAllRssItemsRead ?_ ?_
      · intro r hr hst
        exact absurd hst (mem_markAllRssItemsRead hr).1
      · intro q hq hst
        refine .inl (.inr (.inl (mem_append_left _ (mem_append_right _ ?_))))
        exact mem_map.mpr ⟨q,mem_filter.mpr ⟨hq,by simpa using hst⟩,rfl⟩

theorem Tidy.updateSource (h : Tidy s) (edit : RssSourceInfo) (ok loadOk : Bool) :
    Tidy (s.updateSource edit ok loadOk) := by
  rw [Subscription.updateSource]
  split_ifs
  · exact h
  · apply Tidy.broadcastSources
    exact h.congr rfl rfl rfl fun hnone => by rw [hnone]; rfl

theorem Tidy.deleteSource (h : Tidy s) (ok loadOk : Bool) : Tidy (s.deleteSource ok loadOk) := by
  rw [Subscription.deleteSource]
  split_ifs
  · exact h
  · apply Tidy.broadcastSources
    exact ⟨nodup_nil,fun _ hr => absurd hr not_mem_nil,
      fun _ hr => absurd hr not_mem_nil,h.once,h.sent,h.noticed,
      fun _ _ _ => .inr (.inr rfl),fun _ _ => .inr rfl,
      fun _ _ => .inl (.inr (.inr (.inr rfl)))⟩

theorem Tidy.step {a : Label} (h : Tidy s) (horderly : Orderly p s a) (hstep : step p s a = some t)
    : Tidy t := by
  cases a with
  | tick now =>
      obtain rfl := Option.some.inj hstep
      rw [Subscription.tick]
      split_ifs
      · exact h.dispatchFetch now
      · exact h
  | refreshNow now =>
      obtain rfl := Option.some.inj hstep
      rw [Subscription.refreshNow]
      split_ifs
      · exact h
      · exact h.dispatchFetch now
  | fetched round =>
      cases hfetches : s.fetches with
      | zero =>
        simp only [RssSubscription.step, hfetches] at hstep
        cases hstep
      | succ n =>
        simp only [RssSubscription.step, hfetches] at hstep
        obtain rfl := Option.some.inj hstep
        have hbefore : Tidy { s with fetches := n } := h.congr rfl rfl rfl id
        refine hbefore.onFetched fun herror source hsource => ?_
        obtain ⟨hlisted,hinserted,hkept,hidle,hmarked,hroom⟩ := horderly herror source hsource
        exact ⟨hlisted,hinserted,hkept,hidle,hmarked,hroom⟩
  | torrentReady i error created marked loadOk =>
      simp only [RssSubscription.step] at hstep
      split at hstep
      · cases hstep
      · rename_i plan automatic hget
        obtain rfl := Option.some.inj hstep
        exact h.onTorrentReady hget loadOk fun herror hsome =>
          horderly herror hsome (plan, automatic) hget
  | manualDownload guid readOk created marked loadOk =>
      obtain rfl := Option.some.inj hstep
      rw [Subscription.downloadRssItem]
      split
      · exact (h.createManual _ _ _).broadcastSources _
      · exact h
  | ignoreItem guid ok loadOk =>
      obtain rfl := Option.some.inj hstep
      exact h.ignoreItem guid ok loadOk
  | markAllRead ok loadOk =>
      obtain rfl := Option.some.inj hstep
      exact h.markAllRead ok loadOk
  | updateSource edit ok loadOk =>
      obtain rfl := Option.some.inj hstep
      exact h.updateSource edit ok loadOk
  | deleteSource ok loadOk =>
      obtain rfl := Option.some.inj hstep
      exact h.deleteSource ok loadOk

theorem Initial.tidy (h : Initial s) : Tidy s := by
  refine ⟨?_,?_,?_,?_,?_,?_,?_,?_,?_⟩ <;>
    simp [h.rows, h.torrents, h.history, rssKnownGuids, taskCount, fetchCount, wasDispatched]

end RinaDown.RssSubscription
