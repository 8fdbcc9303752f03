import RinaDown.LabelledExecutions
import RinaDown.RssSubscription

/-!
# Old items stay old

The item table is the only memory of what a subscription has seen. While a feed lists no
item that was handled before and has lost its row, an item of the first feed, an item that
the user ignored or marked read and an item that had any status but new is never dispatched.
A row is lost when the insert of the first round fails, or when a prune deletes it.
-/

namespace RinaDown.RssSubscription

open CharacterPatterns RssFilter RssItems LabelledExecutions Texts List
open Option hiding any any_eq_true map map_id map_map

def feedOf : Event → Option (List Text)
  | .feed guids => some guids
  | _ => none

/-- The guids of the first feed that was applied. -/
def firstFeed (history : List Event) : List Text := (history.findSome? feedOf).getD []

def HasFeed (history : List Event) : Prop := (history.findSome? feedOf).isSome = true

/-- The guid had a row with another status than new. -/
def otherStatus (history : List Event) (guid : Text) : Bool :=
  history.any fun e =>
    match e with
    | .status g status => g == guid && status != .new
    | _ => false

/-- The item was in the first feed, or the user disposed of it, or it had another status
than new. -/
def Handled (history : List Event) (guid : Text) : Prop :=
  guid ∈ firstFeed history ∨ Event.disposed guid ∈ history ∨ otherStatus history guid = true

instance (history : List Event) (guid : Text) : Decidable (Handled history guid) :=
  inferInstanceAs (Decidable (_ ∨ _ ∨ _))

/-- Every dispatch is of a row that is new, and of an item that was not handled before. -/
def DispatchesFresh (history : List Event) : Prop :=
  ∀ before after guid status, history = before ++ .dispatched guid status :: after →
    status = .new ∧ ¬ Handled before guid

variable {guid : Text} {history events : List Event} {rows rows' : List RssItemInfo}
  {r : RssItemInfo} {p : Platform} {source : RssSourceInfo} {round : Round} {s : Subscription}

theorem otherStatus_iff :
    otherStatus history guid = true ↔ ∃ status, status ≠ .new ∧ Event.status guid status ∈ history := by
  rw [otherStatus, any_eq_true]
  constructor
  · rintro ⟨e,he,hother⟩
    cases e with
    | status g status =>
        simp only [Bool.and_eq_true, beq_iff_eq, bne_iff_ne, ne_eq] at hother
        exact ⟨status,hother.2,hother.1 ▸ he⟩
    | _ => exact absurd hother Bool.false_ne_true
  · rintro ⟨status,hne,hmem⟩
    exact ⟨_,hmem,by simpa using hne⟩

theorem firstFeed_append_of_hasFeed (h : HasFeed history) (events : List Event) :
    firstFeed (history ++ events) = firstFeed history := by
  rw [HasFeed] at h
  rw [firstFeed, firstFeed, findSome?_append, or_of_isSome h]

theorem HasFeed.append (h : HasFeed history) (events : List Event) :
    HasFeed (history ++ events) := by
  rw [HasFeed] at h ⊢
  rw [findSome?_append, or_of_isSome h]
  exact h

theorem hasFeed_record_feed (history : List Event) (guids : List Text) :
    HasFeed (history ++ [.feed guids]) := by
  rw [HasFeed, findSome?_append]
  cases history.findSome? feedOf <;> rfl

def Quiet (events : List Event) : Prop :=
  ∀ e ∈ events, feedOf e = none ∧ ∀ guid status, e ≠ .dispatched guid status

theorem firstFeed_append_of_quiet (h : Quiet events) :
    firstFeed (history ++ events) = firstFeed history := by
  have hnone : events.findSome? feedOf = none :=
    findSome?_eq_none_iff.mpr fun e he => (h e he).1
  rw [firstFeed, firstFeed, findSome?_append, hnone, or_none]

theorem quiet_status (rows : List RssItemInfo) :
    Quiet (rows.map fun r => .status r.guid r.status) := by
  intro e he
  obtain ⟨r,-,rfl⟩ := mem_map.mp he
  exact ⟨rfl,nofun⟩

theorem quiet_accepted (s : Subscription) (p : Platform) (source : RssSourceInfo) (round : Round) :
    Quiet (s.acceptedItems p source round) := by
  intro e he
  obtain ⟨r,-,rfl⟩ := mem_map.mp he
  exact ⟨rfl,nofun⟩

theorem quiet_disposed (guids : List Text) : Quiet (guids.map .disposed) := by
  intro e he
  obtain ⟨g,-,rfl⟩ := mem_map.mp he
  exact ⟨rfl,nofun⟩

theorem quiet_task (guid : Text) (automatic : Bool) : Quiet [.task guid automatic] := by
  intro e he
  rw [mem_singleton] at he
  subst he
  exact ⟨rfl,nofun⟩

theorem otherStatus_append :
    otherStatus (history ++ events) guid = (otherStatus history guid || otherStatus events guid) :=
  any_append

/-- What quiet events add to the handled items. -/
theorem handled_append (h : Quiet events) :
    Handled (history ++ events) guid ↔
      Handled history guid ∨ Event.disposed guid ∈ events ∨ otherStatus events guid = true := by
  rw [Handled, Handled, firstFeed_append_of_quiet h, mem_append, otherStatus_append,
    Bool.or_eq_true]
  tauto

def Silent (events : List Event) : Prop :=
  ∀ e ∈ events, feedOf e = none ∧ (∀ guid, e ≠ .disposed guid) ∧ ∀ guid status, e ≠ .status guid status

theorem silent_dispatched (items : List RssItemInfo) :
    Silent (items.map fun r => .dispatched r.guid r.status) := by
  intro e he
  obtain ⟨r,-,rfl⟩ := mem_map.mp he
  exact ⟨rfl,nofun,nofun⟩

theorem handled_of_silent (h : Silent events) (hhandled : Handled (history ++ events) guid) :
    Handled history guid := by
  rcases hhandled with hfeed | hdisposed | hother
  · have hnone : events.findSome? feedOf = none :=
      findSome?_eq_none_iff.mpr fun e he => (h e he).1
    rw [firstFeed, findSome?_append, hnone, or_none] at hfeed
    exact .inl hfeed
  · rcases mem_append.mp hdisposed with hold | hnew
    · exact .inr (.inl hold)
    · exact absurd rfl ((h _ hnew).2.1 guid)
  · obtain ⟨st,hne,hmem⟩ := otherStatus_iff.mp hother
    rcases mem_append.mp hmem with hold | hnew
    · exact .inr (.inr (otherStatus_iff.mpr ⟨st,hne,hold⟩))
    · exact absurd rfl ((h _ hnew).2.2 guid st)

/-! ## Histories that grow -/

theorem dispatch_of_append {before after : List Event} {status : RssItemStatus}
    (h : history ++ events = before ++ .dispatched guid status :: after) :
    (∃ rest, history = before ++ .dispatched guid status :: rest) ∨
      ∃ first, before = history ++ first ∧ events = first ++ .dispatched guid status :: after := by
  rcases append_eq_append_iff.mp h with ⟨first,hbefore,hevents⟩ | ⟨rest,hhistory,hrest⟩
  · exact .inr ⟨first,hbefore,hevents⟩
  · cases rest with
    | nil =>
        rw [append_nil] at hhistory
        exact .inr ⟨[],by rw [hhistory, append_nil],hrest.symm⟩
    | cons e rest =>
        rw [cons_append, cons.injEq] at hrest
        exact .inl ⟨rest,by rw [hhistory, ← hrest.1]⟩

theorem DispatchesFresh.quiet (h : DispatchesFresh history)
    (hquiet : ∀ e ∈ events, ∀ guid status, e ≠ .dispatched guid status) :
    DispatchesFresh (history ++ events) := by
  intro before after guid status heq
  rcases dispatch_of_append heq with ⟨rest,hhistory⟩ | ⟨first,-,hevents⟩
  · exact h before rest guid status hhistory
  · exact absurd rfl (hquiet _ (by rw [hevents]; simp) guid status)

theorem DispatchesFresh.dispatch (h : DispatchesFresh history) {items : List RssItemInfo}
    (hitems : ∀ r ∈ items, r.status = .new ∧ ¬ Handled history r.guid) :
    DispatchesFresh (history ++ items.map fun r => .dispatched r.guid r.status) := by
  intro before after guid status heq
  rcases dispatch_of_append heq with ⟨rest,hhistory⟩ | ⟨first,rfl,hevents⟩
  · exact h before rest guid status hhistory
  · obtain ⟨done,rest,hsplit,hdone,hrest⟩ := map_eq_append_iff.mp hevents
    obtain ⟨r,tail,rfl,hr,-⟩ := map_eq_cons_iff.mp hrest
    obtain ⟨hguid,hstatus⟩ := Event.dispatched.inj hr
    have hmem : r ∈ items := by rw [hsplit]; simp
    -- earlier dispatches of the same round handle nothing
    have hsilent : Silent first := by
      intro e he
      exact silent_dispatched done e (hdone ▸ he)
    refine ⟨hstatus ▸ (hitems r hmem).1,fun hhandled => (hitems r hmem).2 ?_⟩
    rw [hguid]
    exact handled_of_silent hsilent hhandled

/-! ## The rows beside the history -/

/-- The rows of a subscription tell a new item from a handled one. -/
structure Clean (rows : List RssItemInfo) (history : List Event) : Prop where
  nodup : (rssKnownGuids rows).Nodup
  fresh : ∀ r ∈ rows, r.status = .new → ¬ Handled history r.guid
  empty : rows ≠ [] → HasFeed history
  dispatches : DispatchesFresh history

theorem Clean.update (h : Clean rows history) (hquiet : Quiet events)
    (hnodup : (rssKnownGuids rows').Nodup)
    (hnew : ∀ r ∈ rows', r.status = .new → ∃ q ∈ rows, q.status = .new ∧ q.guid = r.guid)
    (hevents : ∀ r ∈ rows', r.status = .new → Event.disposed r.guid ∉ events ∧ otherStatus events r.guid = false)
    (hempty : rows = [] → rows' = []) : Clean rows' (history ++ events) where
  nodup := hnodup
  fresh r hr hstatus := by
    obtain ⟨q,hq,hqstatus,hguid⟩ := hnew r hr hstatus
    obtain ⟨hdisposed,hother⟩ := hevents r hr hstatus
    rw [handled_append hquiet]
    rintro (hold | hold | hold)
    · exact h.fresh q hq hqstatus (hguid ▸ hold)
    · exact hdisposed hold
    · rw [hother] at hold
      exact Bool.false_ne_true hold
  empty hne := (h.empty fun hnil => hne (hempty hnil)).append events
  dispatches := h.dispatches.quiet fun e he => (hquiet e he).2

theorem Clean.record (h : Clean rows history) (hquiet : Quiet events)
    (hevents : ∀ r ∈ rows, r.status = .new → Event.disposed r.guid ∉ events ∧ otherStatus events r.guid = false) :
    Clean rows (history ++ events) :=
  h.update hquiet h.nodup (fun r hr hstatus => ⟨r,hr,hstatus,rfl⟩) hevents id

/-- With one row for each guid, the statuses of the rows say nothing against a new row. -/
theorem otherStatus_rows (h : (rssKnownGuids rows).Nodup) (hr : r ∈ rows)
    (hstatus : r.status = .new) :
    otherStatus (rows.map fun q => .status q.guid q.status) r.guid = false := by
  by_contra hother
  obtain ⟨st,hne,hmem⟩ := otherStatus_iff.mp (eq_true_of_ne_false hother)
  obtain ⟨q,hq,heq⟩ := mem_map.mp hmem
  obtain ⟨hguid,hst⟩ := Event.status.inj heq
  have hsame : q = r := inj_on_of_nodup_map h hq hr hguid
  rw [← hst, hsame] at hne
  exact hne hstatus

theorem Clean.note (h : Clean rows history) :
    Clean rows (history ++ rows.map fun r => .status r.guid r.status) := by
  refine h.record (quiet_status rows) fun r hr hstatus => ⟨?_,otherStatus_rows h.nodup hr hstatus⟩
  intro hmem
  obtain ⟨q,-,heq⟩ := mem_map.mp hmem
  exact absurd heq nofun

theorem Clean.sublist (h : Clean rows history) (hsub : rows'.Sublist rows) :
    Clean rows' history where
  nodup := h.nodup.sublist (hsub.map _)
  fresh r hr := h.fresh r (hsub.subset hr)
  empty hne := h.empty fun hnil => hne (sublist_nil.mp (hnil ▸ hsub))
  dispatches := h.dispatches

theorem Clean.setStatus (h : Clean rows history) {status : RssItemStatus} (hstatus : status ≠ .new)
    (reason : String) (taskId : Text) :
    Clean (setRssItemStatus rows guid status reason taskId) history := by
  have hquiet : Quiet ([] : List Event) := fun e he => absurd he not_mem_nil
  have hnodup : (rssKnownGuids (setRssItemStatus rows guid status reason taskId)).Nodup := by
    rw [rssKnownGuids_setRssItemStatus]
    exact h.nodup
  have hupdate := h.update hquiet hnodup ?_
    (fun _ _ _ => ⟨not_mem_nil,rfl⟩) (by rintro rfl; rfl)
  · rwa [append_nil] at hupdate
  · exact fun r hr hnew => ⟨r,(new_of_mem_setRssItemStatus hstatus hr hnew).1,hnew,rfl⟩

theorem Clean.dispose (h : Clean rows history) (guids : List Text)
    (hguids : rssKnownGuids rows' = rssKnownGuids rows)
    (hnew : ∀ r ∈ rows', r.status = .new → r ∈ rows ∧ r.guid ∉ guids) :
    Clean rows' (history ++ guids.map .disposed) := by
  refine h.update (quiet_disposed guids) (hguids ▸ h.nodup) ?_ ?_ ?_
  · intro r hr hstatus
    exact ⟨r,(hnew r hr hstatus).1,hstatus,rfl⟩
  · intro r hr hstatus
    constructor
    · intro hmem
      obtain ⟨g,hg,heq⟩ := mem_map.mp hmem
      exact (hnew r hr hstatus).2 (Event.disposed.inj heq ▸ hg)
    · rw [← Bool.not_eq_true, otherStatus_iff]
      rintro ⟨st,-,hmem⟩
      obtain ⟨g,-,heq⟩ := mem_map.mp hmem
      exact absurd heq nofun
  · rintro rfl
    exact map_eq_nil_iff.mp hguids

theorem Clean.dispatch (h : Clean rows history) {items : List RssItemInfo}
    (hitems : ∀ r ∈ items, r ∈ rows ∧ r.status = .new) :
    Clean rows (history ++ items.map fun r => .dispatched r.guid r.status) := by
  refine ⟨h.nodup,fun r hr hstatus hhandled => ?_,fun hne => (h.empty hne).append _,
    h.dispatches.dispatch fun r hr =>
      ⟨(hitems r hr).2,h.fresh r (hitems r hr).1 (hitems r hr).2⟩⟩
  exact h.fresh r hr hstatus (handled_of_silent (silent_dispatched items) hhandled)

/-! ## A feed is applied -/

/-- A fresh row: of a listed item that is not known, and new only after the first round. -/
structure FreshRow (known : List Text) (now : ℤ) (firstRound : Bool) (items : List ParsedItem)
    (r : RssItemInfo) : Prop where
  listed : ∃ parsed ∈ items, parsed.guid = r.guid ∧ parsed.pubDate = r.pubDate
  named : r.guid ≠ []
  unknown : r.guid ∉ known
  fetchedAt : r.fetchedAt = now
  later : r.status = .new → firstRound = false

theorem judgedRow_frame (row : RssItemInfo) (verdict : Verdict) :
    (judgedRow row verdict).guid = row.guid ∧ (judgedRow row verdict).pubDate = row.pubDate ∧
      (judgedRow row verdict).fetchedAt = row.fetchedAt := by
  cases verdict <;> exact ⟨rfl,rfl,rfl⟩

theorem mem_freshRows {known : List Text} {now : ℤ} {firstRound : Bool} {items : List ParsedItem}
    {taken : List Text} (h : r ∈ freshRows p source known now firstRound items taken) :
    FreshRow known now firstRound items r := by
  induction items generalizing taken with
  | nil => exact absurd h not_mem_nil
  | cons parsed items ih =>
      have hlift : FreshRow known now firstRound items r →
          FreshRow known now firstRound (parsed :: items) r := by
        rintro ⟨⟨q,hq,hguid⟩,hnamed,hunknown,hfetched,hlater⟩
        exact ⟨⟨q,mem_cons_of_mem _ hq,hguid⟩,hnamed,hunknown,hfetched,hlater⟩
      rw [freshRows] at h
      by_cases hskip : parsed.guid = [] ∨ parsed.guid ∈ known
      · rw [if_pos hskip] at h
        exact hlift (ih h)
      · rw [if_neg hskip] at h
        rw [not_or] at hskip
        by_cases hfirst : firstRound = true
        · rw [if_pos hfirst] at h
          rcases mem_cons.mp h with rfl | h
          · exact ⟨⟨parsed,mem_cons_self,rfl,rfl⟩,hskip.1,hskip.2,rfl,nofun⟩
          · exact hlift (ih h)
        · rw [if_neg hfirst] at h
          rcases mem_cons.mp h with rfl | h
          · obtain ⟨hguid,hdate,hfetched⟩ := judgedRow_frame (itemFromParsed parsed now)
              ((CompiledRule.new p source.rule).evaluate p parsed.title parsed.enclosureLength
                taken).1
            change _ = parsed.guid at hguid
            exact ⟨⟨parsed,mem_cons_self,hguid.symm,hdate.symm⟩,
              fun hnil => hskip.1 (hguid.symm.trans hnil),
              fun hmem => hskip.2 (hguid ▸ hmem),hfetched,fun _ => by simpa using hfirst⟩
          · exact hlift (ih h)

theorem backfillOf_pos (known : List Text) (items : List ParsedItem) :
    ∀ fill ∈ backfillOf known items, 0 < fill.2 := by
  intro fill hfill
  obtain ⟨parsed,hparsed,rfl⟩ := mem_map.mp hfill
  have := (mem_filter.mp hparsed).2
  exact (by simpa using this : _ ∧ _).1

/-- The rows after a feed: the rows before it, backfilled, and inserted fresh rows. -/
theorem rowsWithFeed_cases (s : Subscription) (p : Platform) (source : RssSourceInfo)
    (round : Round) :
    ∃ f : RssItemInfo → RssItemInfo, (∀ r, Backfilled r (f r)) ∧
      s.rowsWithFeed p source round =
        if round.insertOk && s.stored.isSome then
          insertRssItems (s.rows.map f) (s.fresh p source round)
        else s.rows.map f := by
  simp only [Subscription.rowsWithFeed]
  by_cases hbackfill : round.backfillOk = true
  · obtain ⟨f,hf,hrows⟩ := backfillRssPubDates_eq_map
      (backfillOf_pos (s.known round) round.outcome.items) s.rows
    exact ⟨f,hf,by rw [if_pos hbackfill, hrows]⟩
  · exact ⟨id,Backfilled.refl,by rw [if_neg hbackfill, map_id]⟩

/-- A row after a feed comes from a row before it, or is fresh and without a row before. -/
theorem mem_rowsWithFeed (h : r ∈ s.rowsWithFeed p source round) :
    (∃ q ∈ s.rows, Backfilled q r) ∨
      (r.guid ∉ rssKnownGuids s.rows ∧ s.stored.isSome ∧
        FreshRow (s.known round) round.now (!source.seeded) round.outcome.items r) := by
  obtain ⟨f,hf,hrows⟩ := rowsWithFeed_cases s p source round
  have hguids : rssKnownGuids (s.rows.map f) = rssKnownGuids s.rows :=
    rssKnownGuids_map fun q => (hf q).guid
  have hold : r ∈ s.rows.map f → ∃ q ∈ s.rows, Backfilled q r := by
    intro hr
    obtain ⟨q,hq,rfl⟩ := mem_map.mp hr
    exact ⟨q,hq,hf q⟩
  rw [hrows] at h
  split_ifs at h with hinsert
  · rcases mem_insertRssItems h with hr | ⟨hr,hunknown⟩
    · exact .inl (hold hr)
    · have hstored : s.stored.isSome = true := (Bool.and_eq_true _ _ ▸ hinsert).2
      exact .inr ⟨hguids ▸ hunknown,hstored,mem_freshRows hr⟩
  · exact .inl (hold h)

theorem nodup_rowsWithFeed (h : (rssKnownGuids s.rows).Nodup) (p : Platform)
    (source : RssSourceInfo) (round : Round) :
    (rssKnownGuids (s.rowsWithFeed p source round)).Nodup := by
  obtain ⟨f,hf,hrows⟩ := rowsWithFeed_cases s p source round
  have hmap : (rssKnownGuids (s.rows.map f)).Nodup := by
    rw [rssKnownGuids_map fun q => (hf q).guid]
    exact h
  rw [hrows]
  split_ifs
  · exact nodup_insertRssItems hmap
  · exact hmap

/-- No feed applied after the first round lists an item that was handled and has no row. -/
def ListsNoLostItem (s : Subscription) (round : Round) : Prop :=
  ∀ source ∈ s.source, source.seeded = true → ∀ parsed ∈ round.outcome.items,
    parsed.guid ≠ [] → Handled s.history parsed.guid → parsed.guid ∈ rssKnownGuids s.rows

theorem clean_rowsWithFeed (h : Clean s.rows s.history)
    (hseeded : source.seeded = true → HasFeed s.history) (hsource : s.source = some source)
    (hlost : ListsNoLostItem s round) :
    Clean (s.rowsWithFeed p source round)
      (s.history ++ [.feed (round.outcome.items.map (·.guid))]) where
  nodup := nodup_rowsWithFeed h.nodup p source round
  fresh r hr hstatus := by
    -- a new row was there before, or is inserted after the first round
    have hbefore : HasFeed s.history ∧ ¬ Handled s.history r.guid := by
      rcases mem_rowsWithFeed hr with ⟨q,hq,hfill⟩ | ⟨hunknown,-,hfresh⟩
      · refine ⟨h.empty fun hnil => by simp [hnil] at hq,?_⟩
        rw [hfill.guid]
        exact h.fresh q hq (hfill.status ▸ hstatus)
      · have hlater : source.seeded = true := by simpa using hfresh.later hstatus
        obtain ⟨parsed,hparsed,hguid,-⟩ := hfresh.listed
        refine ⟨hseeded hlater,fun hhandled => hunknown ?_⟩
        rw [← hguid] at hhandled ⊢
        exact hlost source hsource hlater parsed hparsed
          (fun hnil => hfresh.named (hguid ▸ hnil)) hhandled
    rintro (hfeed | hdisposed | hother)
    · rw [firstFeed_append_of_hasFeed hbefore.1] at hfeed
      exact hbefore.2 (.inl hfeed)
    · exact hbefore.2 (.inr (.inl (by simpa using hdisposed)))
    · rw [otherStatus_append] at hother
      exact hbefore.2 (.inr (.inr (by simpa [otherStatus] using hother)))
  empty _ := hasFeed_record_feed _ _
  dispatches := h.dispatches.quiet fun e he => by
    rw [mem_singleton] at he
    subst he
    exact nofun

theorem Clean.accept (h : Clean rows history) (p : Platform) (source : RssSourceInfo)
    (round : Round) :
    Clean rows (history ++ s.acceptedItems p source round) := by
  refine h.record (quiet_accepted s p source round) fun r _ _ => ⟨fun hmem => ?_,?_⟩
  · obtain ⟨q,-,heq⟩ := mem_map.mp hmem
    exact absurd heq nofun
  · rw [← Bool.not_eq_true, otherStatus_iff]
    rintro ⟨st,-,hmem⟩
    obtain ⟨q,-,heq⟩ := mem_map.mp hmem
    exact absurd heq nofun

/-! ## The steps -/

/-- The rows are clean, and a seeded subscription has applied a feed. -/
structure Remembers (s : Subscription) : Prop where
  clean : Clean s.rows s.history
  stored : ∀ source ∈ s.stored, source.seeded = true → HasFeed s.history
  source : ∀ source ∈ s.source, source.seeded = true → HasFeed s.history

variable {s t : Subscription}

theorem Remembers.of_hasFeed (hclean : Clean s.rows s.history) (hfeed : HasFeed s.history) :
    Remembers s := ⟨hclean,fun _ _ _ => hfeed,fun _ _ _ => hfeed⟩

theorem Remembers.extend (h : Remembers s) (hclean : Clean t.rows (s.history ++ events))
    (hhistory : t.history = s.history ++ events) (hstored : t.stored = s.stored)
    (hsource : t.source = s.source) : Remembers t where
  clean := hhistory ▸ hclean
  stored source hmem hseeded := by
    rw [hhistory]
    exact (h.stored source (hstored ▸ hmem) hseeded).append events
  source source hmem hseeded := by
    rw [hhistory]
    exact (h.source source (hsource ▸ hmem) hseeded).append events

theorem Remembers.broadcastSources (h : Remembers s) (ok : Bool) :
    Remembers (s.broadcastSources ok) := by
  rw [Subscription.broadcastSources]
  split_ifs
  · exact ⟨h.clean,h.stored,h.stored⟩
  · exact h

theorem Remembers.dispatchFetch (h : Remembers s) (now : ℤ) : Remembers (s.dispatchFetch now) := by
  rw [Subscription.dispatchFetch]
  cases hsource : s.source with
  | none => exact h
  | some source =>
      refine ⟨h.clean,h.stored,fun current hmem hseeded => ?_⟩
      obtain rfl := some.inj hmem
      exact h.source source hsource hseeded

theorem Remembers.finishRssTask (h : Remembers s) (automatic : Bool) (guid : Text)
    (created : Option Text) (marked : Bool) :
    Remembers (s.finishRssTask automatic guid created marked) := by
  cases created with
  | none => exact h
  | some taskId =>
      have htask : Clean s.rows (s.history ++ [.task guid automatic]) :=
        h.clean.record (quiet_task guid automatic) fun r _ _ => ⟨by simp,rfl⟩
      cases marked with
      | false => exact h.extend htask rfl rfl rfl
      | true =>
          have hne : RssItemStatus.downloaded ≠ .new := nofun
          have hrows : Clean (setRssItemStatus s.rows guid .downloaded "" taskId) _ :=
            (htask.setStatus hne "" taskId).note
          rw [append_assoc] at hrows
          exact h.extend hrows (append_assoc _ _ _) rfl rfl

theorem Remembers.createRssTask (h : Remembers s) (automatic : Bool) (plan : RssDownloadPlan)
    (created : Option Text) (marked : Bool) :
    Remembers (s.createRssTask automatic plan created marked) := by
  rw [Subscription.createRssTask]
  split_ifs
  · exact ⟨h.clean,h.stored,h.source⟩
  · exact h.finishRssTask automatic plan.guid created marked

theorem Remembers.createRssTasks (h : Remembers s) (round : Round) (plans : List RssDownloadPlan) :
    Remembers (s.createRssTasks round plans) := by
  rw [Subscription.createRssTasks]
  induction plans generalizing s with
  | nil => exact h
  | cons plan plans ih => exact ih (h.createRssTask true plan _ _)

theorem pruned_sublist (round : Round) (rows : List RssItemInfo) :
    (pruned round rows).Sublist rows := by
  rw [pruned]
  split_ifs
  · exact pruneRssItems_sublist maxItemsPerSource
  · exact List.Sublist.refl rows

theorem selected_new :
    ∀ r ∈ selected source round rows, r ∈ rows ∧ r.status = .new := by
  intro r hr
  rw [selected] at hr
  split_ifs at hr
  · exact mem_rssDispatchableItems hr
  · exact absurd hr not_mem_nil

theorem Remembers.applyFetch (h : Remembers s) (p : Platform)
    (hlost : round.outcome.error = "" → ListsNoLostItem s round) :
    Remembers (s.applyFetch p round).1 := by
  rw [Subscription.applyFetch]
  cases hsource : s.source with
  | none => exact ⟨h.clean,h.stored,fun source hmem => h.source source (hsource ▸ hmem)⟩
  | some source =>
      by_cases herror : round.outcome.error = ""
      · simp only [herror, ne_eq, not_true_eq_false, if_false]
        have haccepted : s.history ++ (.feed (round.outcome.items.map (·.guid)) ::
            s.acceptedItems p source round) =
            s.history ++ [.feed (round.outcome.items.map (·.guid))] ++
              s.acceptedItems p source round := by simp
        have hfilled : Clean (s.fillRows p source round).rows
            (s.fillRows p source round).history := by
          have hrecorded := (clean_rowsWithFeed (p := p) h.clean (h.source source hsource) hsource
            (hlost herror)).accept (s := s) p source round
          rw [← haccepted] at hrecorded
          exact hrecorded.note.sublist (pruned_sublist round _)
        have hfeed : HasFeed (s.fillRows p source round).history := by
          have := (hasFeed_record_feed s.history (round.outcome.items.map (·.guid))).append
            (s.acceptedItems p source round)
          rw [← haccepted] at this
          exact this.append _
        refine (Remembers.of_hasFeed ?_ (hfeed.append _)).broadcastSources _
        exact hfilled.dispatch selected_new
      · simp only [ne_eq, herror, not_false_eq_true, if_true]
        apply Remembers.broadcastSources
        refine ⟨h.clean,?_,?_⟩
        · intro current hmem hseeded
          simp only [Subscription.persistRuntime] at hmem
          split_ifs at hmem
          · obtain ⟨before,-,rfl⟩ := map_eq_some_iff.mp hmem
            exact h.source source hsource hseeded
          · exact h.stored current hmem hseeded
        · intro current hmem hseeded
          obtain rfl := some.inj hmem
          exact h.source source hsource hseeded

theorem Remembers.ignoreItem (h : Remembers s) (guid : Text) (ok loadOk : Bool) :
    Remembers (s.ignoreItem guid ok loadOk) := by
  cases ok with
  | false => exact h
  | true =>
      refine Remembers.broadcastSources ?_ loadOk
      have hignored : ∀ r ∈ setRssItemStatus s.rows guid .ignored "" [], r.status = .new →
          r ∈ s.rows ∧ r.guid ≠ guid := fun r => new_of_mem_setRssItemStatus nofun
      have hclean : Clean (setRssItemStatus s.rows guid .ignored "" [])
          (s.history ++ if guid ∈ rssKnownGuids s.rows then [.disposed guid] else []) := by
        split_ifs
        · exact h.clean.dispose [guid] (rssKnownGuids_setRssItemStatus _ _ _ _)
            fun r hr hstatus => ⟨(hignored r hr hstatus).1,by simpa using (hignored r hr hstatus).2⟩
        · rw [append_nil]
          have hne : RssItemStatus.ignored ≠ .new := nofun
          exact h.clean.setStatus hne "" []
      have hnoted := hclean.note
      rw [append_assoc] at hnoted
      exact h.extend hnoted (append_assoc _ _ _) rfl rfl

theorem Remembers.markAllRead (h : Remembers s) (ok loadOk : Bool) :
    Remembers (s.markAllRead ok loadOk) := by
  cases ok with
  | false => exact h
  | true =>
      refine Remembers.broadcastSources ?_ loadOk
      have hclean : Clean (markAllRssItemsRead s.rows)
          (s.history ++ (s.rows.filter (·.status = .new)).map fun r => .disposed r.guid) := by
        have := h.clean.dispose ((s.rows.filter (·.status = .new)).map (·.guid))
          rssKnownGuids_markAllRssItemsRead
          fun r hr hstatus => absurd hstatus (mem_markAllRssItemsRead hr).1
        rwa [map_map] at this
      have hnoted := hclean.note
      rw [append_assoc] at hnoted
      exact h.extend hnoted (append_assoc _ _ _) rfl rfl

theorem Remembers.updateSource (h : Remembers s) (edit : RssSourceInfo) (ok loadOk : Bool) :
    Remembers (s.updateSource edit ok loadOk) := by
  rw [Subscription.updateSource]
  split_ifs
  · exact h
  · apply Remembers.broadcastSources
    refine ⟨h.clean,fun current hmem hseeded => ?_,h.source⟩
    obtain ⟨before,hbefore,rfl⟩ := map_eq_some_iff.mp hmem
    exact h.stored before hbefore hseeded

theorem Remembers.deleteSource (h : Remembers s) (ok loadOk : Bool) :
    Remembers (s.deleteSource ok loadOk) := by
  rw [Subscription.deleteSource]
  split_ifs
  · exact h
  · apply Remembers.broadcastSources
    refine ⟨h.clean.sublist (nil_sublist _),fun current hmem => ?_,h.source⟩
    exact absurd hmem (not_mem_none _)

/-- No feed applied after the first round lists an item that was handled and has no row. -/
def KeepsItems (s : Subscription) : Label → Prop
  | .fetched round => round.outcome.error = "" → ListsNoLostItem s round
  | _ => True

theorem Remembers.step {a : Label} (h : Remembers s) (hkeeps : KeepsItems s a)
    (hstep : step p s a = some t) : Remembers t := by
  cases a with
  | tick now =>
      obtain rfl := some.inj hstep
      rw [Subscription.tick]
      split_ifs
      · exact h.dispatchFetch now
      · exact h
  | refreshNow now =>
      obtain rfl := some.inj hstep
      rw [Subscription.refreshNow]
      split_ifs
      · exact h
      · exact h.dispatchFetch now
  | fetched round =>
      cases hfetches : s.fetches with
      | zero =>
        simp only [RssSubscription.step, hfetches] at hstep
        exact absurd hstep nofun
      | succ n =>
        simp only [RssSubscription.step, hfetches] at hstep
        obtain rfl := some.inj hstep
        have hbefore : Remembers { s with fetches := n } := ⟨h.clean,h.stored,h.source⟩
        have hlost : round.outcome.error = "" → ListsNoLostItem { s with fetches := n } round :=
          hkeeps
        have happlied := (hbefore.applyFetch p hlost).createRssTasks round
          (Subscription.applyFetch { s with fetches := n } p round).2
        simp only [Subscription.onFetched]
        split_ifs
        · exact happlied.broadcastSources _
        · exact happlied
  | torrentReady i error created marked loadOk =>
      simp only [RssSubscription.step] at hstep
      split at hstep
      · exact absurd hstep nofun
      · obtain rfl := some.inj hstep
        have hbefore : Remembers { s with torrents := s.torrents.eraseIdx i } :=
          ⟨h.clean,h.stored,h.source⟩
        simp only [Subscription.onTorrentReady]
        split_ifs
        · exact hbefore
        · exact hbefore
        · exact (hbefore.finishRssTask _ _ _ _).broadcastSources _
  | manualDownload guid readOk created marked loadOk =>
      obtain rfl := some.inj hstep
      rw [Subscription.downloadRssItem]
      split
      · exact (h.createRssTask false _ _ _).broadcastSources _
      · exact h
  | ignoreItem guid ok loadOk =>
      obtain rfl := some.inj hstep
      exact h.ignoreItem guid ok loadOk
  | markAllRead ok loadOk =>
      obtain rfl := some.inj hstep
      exact h.markAllRead ok loadOk
  | updateSource edit ok loadOk =>
      obtain rfl := some.inj hstep
      exact h.updateSource edit ok loadOk
  | deleteSource ok loadOk =>
      obtain rfl := some.inj hstep
      exact h.deleteSource ok loadOk

theorem Initial.remembers (h : Initial s) : Remembers s where
  clean := by
    rw [h.rows, h.history]
    refine ⟨nodup_nil,fun r hr => absurd hr not_mem_nil,fun hne => absurd rfl hne,?_⟩
    intro before after guid status heq
    simp at heq
  stored source hmem hseeded := by
    have := h.seeded source (h.source ▸ hmem)
    rw [hseeded] at this
    exact absurd this (by decide)
  source source hmem hseeded := by
    have := h.seeded source hmem
    rw [hseeded] at this
    exact absurd this (by decide)

/-- In every run from a new subscription in which no later feed lists a handled item that has
lost its row, every dispatch is of a new row of an item that was not handled before. -/
theorem run_keeps_items {p : Platform} {as : List Label} (hs : Initial s)
    (hm : Meets (step p) KeepsItems s as) (h : exec (step p) s as = some t) :
    DispatchesFresh t.history := by
  have hstep : ∀ s a t, Remembers s → KeepsItems s a → step p s a = some t → Remembers t :=
    fun s a t hs ha hstep => hs.step ha hstep
  exact (exec_invariant_of_meets hstep hs.remembers hm h).clean.dispatches

/-! ## Examples of runs -/

def sampleSource : RssSourceInfo where
  name := []
  enabled := true
  autoDownload := true
  intervalMinutes := 30
  rule := ⟨[],[],false,false,0,0⟩
  notifyOnDownload := true
  maxPerFetch := 2
  lastFetchAt := 0
  lastSuccessAt := 0
  lastError := ""
  failCount := 0
  seeded := false

def newSubscription : Subscription where
  rows := []
  stored := some sampleSource
  source := some sampleSource
  inFlight := false
  fetches := 0
  torrents := []
  history := []

theorem newSubscription_initial : Initial newSubscription := by
  refine ⟨rfl,rfl,fun source hmem => ?_,rfl,rfl,rfl,rfl⟩
  obtain rfl := some.inj hmem
  rfl

def sampleItem (guid : Text) (url : String) (pubDate : ℤ) : ParsedItem where
  guid := guid
  title := guid
  link := []
  enclosureUrl := url.toList
  enclosureLength := 0
  pubDate := pubDate

/-- A round without failures, in which every plan becomes a task. -/
def sampleRound (items : List ParsedItem) (now : ℤ) : Round where
  outcome := ⟨[],items,""⟩
  now := now
  knownOk := true
  takenOk := true
  backfillOk := true
  insertOk := true
  pruneOk := true
  persistOk := true
  selectOk := true
  loadOk := true
  created guid := some guid
  marked _ := true
  reloadOk := true

instance (s : Subscription) (round : Round) : Decidable (ListsNoLostItem s round) :=
  match h : s.source with
  | none => isTrue fun source hmem => absurd (h ▸ hmem) (Option.not_mem_none source)
  | some source =>
      decidable_of_iff (source.seeded = true → ∀ parsed ∈ round.outcome.items, parsed.guid ≠ [] →
        Handled s.history parsed.guid → parsed.guid ∈ rssKnownGuids s.rows)
        ⟨fun hlost current hmem => by
          obtain rfl := Option.some.inj (h.symm.trans hmem)
          exact hlost,fun hlost => hlost source h⟩

instance : ∀ s a, Decidable (KeepsItems s a)
  | s, .fetched round => inferInstanceAs (Decidable (round.outcome.error = "" → ListsNoLostItem s round))
  | _, .tick _ | _, .refreshNow _ | _, .torrentReady .. | _, .manualDownload ..
  | _, .ignoreItem .. | _, .markAllRead .. | _, .updateSource .. | _, .deleteSource .. =>
      isTrue trivial

/-- The first feed, then a feed with a new item and a fetch that fails. -/
def sampleRun : List Label :=
  [.tick 2000, .fetched (sampleRound [sampleItem ['a'] "http://x/a" 5] 2001),
    .refreshNow 2100,
    .fetched (sampleRound [sampleItem ['b'] "http://x/b" 7, sampleItem ['a'] "http://x/a" 5] 2101),
    .ignoreItem ['a'] true true, .refreshNow 2200,
    .fetched { sampleRound [] 2201 with outcome := ⟨[],[],"timeout"⟩ }]

theorem run_keeps_items_sample :
    ∃ t, exec (step samplePlatform) newSubscription sampleRun = some t ∧
      .dispatched ['b'] .new ∈ t.history ∧ DispatchesFresh t.history := by
  have hm : Meets (step samplePlatform) KeepsItems newSubscription sampleRun := by decide +kernel
  have hrun : (exec (step samplePlatform) newSubscription sampleRun).any
      (fun t => .dispatched ['b'] .new ∈ t.history) = true := by decide +kernel
  obtain ⟨t,ht,hdispatched⟩ := (Option.any_eq_true _ _).mp hrun
  exact ⟨t,ht,by simpa using hdispatched,run_keeps_items newSubscription_initial hm ht⟩

/-- The insert of the first round fails, and the next round sees the same feed. -/
def lostSeedRun : List Label :=
  [.tick 2000, .fetched { sampleRound [sampleItem ['a'] "http://x/a" 5] 2001 with insertOk := false },
    .refreshNow 2100, .fetched (sampleRound [sampleItem ['a'] "http://x/a" 5] 2101)]

/-- An item of the first feed is dispatched in the second round. -/
theorem seed_dispatched_after_failed_insert :
    ∃ t, exec (step samplePlatform) newSubscription lostSeedRun = some t ∧
      ['a'] ∈ firstFeed t.history ∧ ¬ DispatchesFresh t.history := by
  have hrun : (exec (step samplePlatform) newSubscription lostSeedRun).any (fun t =>
      t.history = [.feed [['a']], .feed [['a']], .accepted ['a'], .status ['a'] .new] ++
        .dispatched ['a'] .new :: [.task ['a'] true, .status ['a'] .downloaded]) = true := by
    decide +kernel
  obtain ⟨t,ht,hhistory⟩ := (Option.any_eq_true _ _).mp hrun
  have hsplit := of_decide_eq_true hhistory
  refine ⟨t,ht,by rw [hsplit]; decide,fun hfresh => ?_⟩
  exact (hfresh _ _ _ _ hsplit).2 (by decide)

end RinaDown.RssSubscription
