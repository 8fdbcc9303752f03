import RinaDown.InfiniteExecutions
import RinaDown.RssDispatch

/-!
# Waiting items are dispatched in turn

A round dispatches the oldest new rows. An item that waits has a rank: whether its row can
still get a publication date, and how many items that were never dispatched come before it.
No step raises the rank, and a round that dispatches other items lowers it, as long as the
rows that were dispatched before or overtake the item do not fill the round.
-/

namespace RinaDown.RssSubscription

open CharacterPatterns RssFilter RssItems LabelledExecutions Texts List Bool

variable {s t u : Subscription}

/-! ## The rank of a waiting item -/

/-- The new rows of items never dispatched that are not younger than the new row of the item. -/
def aheadRows (s : Subscription) (guid : Text) : List RssItemInfo :=
  s.rows.filter fun r => r.status = .new ∧ wasDispatched s.history r.guid = false ∧
    ∃ w ∈ s.rows, (w.status = .new ∧ w.guid = guid) ∧ olderFirst r w

def ahead (s : Subscription) (guid : Text) : Finset Text :=
  (rssKnownGuids (aheadRows s guid)).toFinset

/-- The new row of the item has no publication date. -/
def Undated (s : Subscription) (guid : Text) : Prop :=
  ∃ w ∈ s.rows, (w.status = .new ∧ w.guid = guid) ∧ w.pubDate = 0

instance (s : Subscription) (guid : Text) : Decidable (Undated s guid) :=
  inferInstanceAs (Decidable (∃ w ∈ s.rows, _))

def rank (s : Subscription) (guid : Text) : ℕ ×ₗ ℕ :=
  toLex (if Undated s guid then 1 else 0, (ahead s guid).card)

variable {guid : Text} {p : Platform} {rows : List RssItemInfo} {w r : RssItemInfo}
  {source : RssSourceInfo}

theorem mem_ahead {g : Text} :
    g ∈ ahead s guid ↔ ∃ r ∈ s.rows, r.guid = g ∧ r.status = .new ∧
      wasDispatched s.history r.guid = false ∧
      ∃ w ∈ s.rows, (w.status = .new ∧ w.guid = guid) ∧ olderFirst r w := by
  simp only [ahead, mem_toFinset, mem_rssKnownGuids, aheadRows, mem_filter,
    decide_eq_true_eq]
  exact ⟨fun ⟨r,⟨hr,hnew,hsent,hw⟩,hguid⟩ => ⟨r,hr,hguid,hnew,hsent,hw⟩,
    fun ⟨r,hr,hguid,hnew,hsent,hw⟩ => ⟨r,⟨hr,hnew,hsent,hw⟩,hguid⟩⟩

theorem rank_le (hundated : Undated t guid → Undated s guid) (hahead : ahead t guid ⊆ ahead s guid)
    : rank t guid ≤ rank s guid := by
  rw [rank, rank, Prod.Lex.toLex_le_toLex]
  have hcard := Finset.card_le_card hahead
  by_cases hs : Undated s guid
  · by_cases ht : Undated t guid
    · exact .inr ⟨by rw [if_pos hs, if_pos ht],hcard⟩
    · exact .inl (by rw [if_pos hs, if_neg ht]; exact Nat.zero_lt_one)
  · exact .inr ⟨by rw [if_neg hs, if_neg fun ht => hs (hundated ht)],hcard⟩

/-! ## Steps that apply no round -/

/-- The history goes on, and a deleted subscription stays deleted. -/
structure Grows (s t : Subscription) : Prop where
  history : s.history <+: t.history
  stored : s.stored = none → t.stored = none

structure Shrinks (s t : Subscription) : Prop extends Grows s t where
  rows : ∀ r ∈ t.rows, r.status = .new → r ∈ s.rows

theorem Grows.trans (h : Grows s t) (h' : Grows t u) : Grows s u :=
  ⟨h.history.trans h'.history,h'.stored ∘ h.stored⟩

theorem Shrinks.refl (s : Subscription) : Shrinks s s :=
  ⟨⟨prefix_refl _,id⟩,fun _ hr _ => hr⟩

theorem Shrinks.trans (h : Shrinks s t) (h' : Shrinks t u) : Shrinks s u :=
  ⟨h.toGrows.trans h'.toGrows,fun r hr hnew => h.rows r (h'.rows r hr hnew) hnew⟩

theorem Grows.settled (h : Grows s t) (hs : Settled s guid) : Settled t guid := by
  obtain ⟨events,hevents⟩ := h.history
  exact hs.mono hevents.symm h.stored

theorem Grows.accepted (h : Grows s t) (hs : Event.accepted guid ∈ s.history) :
    Event.accepted guid ∈ t.history :=
  h.history.subset hs

theorem Grows.undispatched (h : Grows s t) (ht : wasDispatched t.history guid = false) :
    wasDispatched s.history guid = false := by
  obtain ⟨events,hevents⟩ := h.history
  rw [← hevents, wasDispatched_append, or_eq_false_iff] at ht
  exact ht.1

theorem Shrinks.rank_le (h : Shrinks s t) (guid : Text) : rank t guid ≤ rank s guid := by
  apply RssSubscription.rank_le
  · rintro ⟨w,hw,hnew,hdate⟩
    exact ⟨w,h.rows w hw hnew.1,hnew,hdate⟩
  · intro g hg
    obtain ⟨r,hr,hguid,hnew,hsent,w,hw,hwait,holder⟩ := mem_ahead.mp hg
    exact mem_ahead.mpr ⟨r,h.rows r hr hnew,hguid,hnew,h.undispatched hsent,w,
      h.rows w hw hwait.1,hwait,holder⟩

theorem Shrinks.of_rows (hrows : t.rows = s.rows) (hhistory : s.history <+: t.history)
    (hstored : s.stored = none → t.stored = none) : Shrinks s t :=
  ⟨⟨hhistory,hstored⟩,fun _ hr _ => hrows ▸ hr⟩

theorem shrinks_broadcastSources (s : Subscription) (ok : Bool) :
    Shrinks s (s.broadcastSources ok) := by
  rw [Subscription.broadcastSources]
  split_ifs
  · exact Shrinks.of_rows rfl (prefix_refl _) id
  · exact Shrinks.refl s

theorem shrinks_dispatchFetch (s : Subscription) (now : ℤ) : Shrinks s (s.dispatchFetch now) := by
  rw [Subscription.dispatchFetch]
  cases s.source with
  | none => exact Shrinks.refl s
  | some source => exact Shrinks.of_rows rfl (prefix_refl _) id

theorem shrinks_tick (s : Subscription) (now : ℤ) : Shrinks s (s.tick now) := by
  rw [Subscription.tick]
  split_ifs
  · exact shrinks_dispatchFetch s now
  · exact Shrinks.refl s

theorem shrinks_refreshNow (s : Subscription) (now : ℤ) : Shrinks s (s.refreshNow now) := by
  rw [Subscription.refreshNow]
  split_ifs
  · exact Shrinks.refl s
  · exact shrinks_dispatchFetch s now

theorem shrinks_persistRuntime (s : Subscription) (ok : Bool)
    (runtime : RssSourceInfo → RssSourceInfo) : Shrinks s (s.persistRuntime ok runtime) := by
  refine Shrinks.of_rows rfl (prefix_refl _) fun hnone => ?_
  rw [Subscription.persistRuntime, hnone]
  exact ite_self none

theorem shrinks_finishRssTask (s : Subscription) (automatic : Bool) (guid : Text)
    (created : Option Text) (marked : Bool) :
    Shrinks s (s.finishRssTask automatic guid created marked) := by
  cases created with
  | none => exact Shrinks.refl s
  | some taskId =>
      cases marked with
      | false => exact Shrinks.of_rows rfl (prefix_append _ _) id
      | true =>
          exact ⟨⟨(prefix_append _ _).trans (prefix_append _ _),id⟩,
            fun _ hr hnew => (new_of_mem_setRssItemStatus (by nofun) hr hnew).1⟩

theorem shrinks_createRssTask (s : Subscription) (automatic : Bool) (plan : RssDownloadPlan)
    (created : Option Text) (marked : Bool) :
    Shrinks s (s.createRssTask automatic plan created marked) := by
  rw [Subscription.createRssTask]
  split_ifs
  · exact Shrinks.of_rows rfl (prefix_refl _) id
  · exact shrinks_finishRssTask s automatic plan.guid created marked

theorem shrinks_createRssTasks (s : Subscription) (round : Round) (plans : List RssDownloadPlan) :
    Shrinks s (s.createRssTasks round plans) := by
  rw [Subscription.createRssTasks]
  induction plans generalizing s with
  | nil => exact Shrinks.refl s
  | cons plan plans ih => exact (shrinks_createRssTask s true plan _ _).trans (ih _)

theorem shrinks_onTorrentReady (s : Subscription) (plan : RssDownloadPlan) (automatic : Bool)
    (error : String) (created : Option Text) (marked loadOk : Bool) :
    Shrinks s (s.onTorrentReady plan automatic error created marked loadOk) := by
  rw [Subscription.onTorrentReady]
  split_ifs
  · exact Shrinks.refl s
  · exact Shrinks.refl s
  · exact (shrinks_finishRssTask s automatic plan.guid created marked).trans
      (shrinks_broadcastSources _ loadOk)

theorem shrinks_downloadRssItem (s : Subscription) (guid : Text) (readOk : Bool)
    (created : Option Text) (marked loadOk : Bool) :
    Shrinks s (s.downloadRssItem guid readOk created marked loadOk) := by
  rw [Subscription.downloadRssItem]
  split
  · exact (shrinks_createRssTask s false _ created marked).trans (shrinks_broadcastSources _ loadOk)
  · exact Shrinks.refl s

theorem shrinks_ignoreItem (s : Subscription) (guid : Text) (ok loadOk : Bool) :
    Shrinks s (s.ignoreItem guid ok loadOk) := by
  cases ok with
  | false => exact Shrinks.refl s
  | true =>
      refine Shrinks.trans ?_ (shrinks_broadcastSources _ loadOk)
      exact ⟨⟨(prefix_append _ _).trans (prefix_append _ _),id⟩,
        fun _ hr hnew => (new_of_mem_setRssItemStatus (by nofun) hr hnew).1⟩

theorem shrinks_markAllRead (s : Subscription) (ok loadOk : Bool) :
    Shrinks s (s.markAllRead ok loadOk) := by
  cases ok with
  | false => exact Shrinks.refl s
  | true =>
      refine Shrinks.trans ?_ (shrinks_broadcastSources _ loadOk)
      refine ⟨⟨(prefix_append _ _).trans (prefix_append _ _),id⟩,?_⟩
      intro r hr hnew
      exact absurd hnew (mem_markAllRssItemsRead hr).1

theorem shrinks_updateSource (s : Subscription) (edit : RssSourceInfo) (ok loadOk : Bool) :
    Shrinks s (s.updateSource edit ok loadOk) := by
  rw [Subscription.updateSource]
  split_ifs
  · exact Shrinks.refl s
  · refine Shrinks.trans ?_ (shrinks_broadcastSources _ loadOk)
    exact Shrinks.of_rows rfl (prefix_refl _) fun hnone => by rw [hnone]; rfl

theorem shrinks_deleteSource (s : Subscription) (ok loadOk : Bool) :
    Shrinks s (s.deleteSource ok loadOk) := by
  rw [Subscription.deleteSource]
  split_ifs
  · exact Shrinks.refl s
  · refine Shrinks.trans ?_ (shrinks_broadcastSources _ loadOk)
    exact ⟨⟨prefix_refl _,fun _ => rfl⟩,fun _ hr => absurd hr not_mem_nil⟩

/-! ## Steps that apply a round -/

def Subscription.afterRound (s : Subscription) (p : Platform) (source : RssSourceInfo)
    (round : Round) : Subscription :=
  (s.fillRows p source round).record
    ((selected source round (s.roundRows p source round)).map
      fun item => .dispatched item.guid item.status)

theorem grows_afterRound (s : Subscription) (p : Platform) (source : RssSourceInfo)
    (round : Round) : Grows s (s.afterRound p source round) :=
  ⟨((prefix_append _ _).trans (prefix_append _ _)).trans (prefix_append _ _),id⟩

theorem shrinks_onFetched (s : Subscription) (p : Platform) (round : Round) :
    Shrinks (s.applyFetch p round).1 (s.onFetched p round) := by
  have hcreated := shrinks_createRssTasks (s.applyFetch p round).1 round (s.applyFetch p round).2
  simp only [Subscription.onFetched]
  split_ifs
  · exact hcreated.trans (shrinks_broadcastSources _ _)
  · exact hcreated

theorem shrinks_applyFetch (s : Subscription) (p : Platform) (round : Round) :
    (Shrinks s (s.applyFetch p round).1 ∧ (round.outcome.error = "" → s.source = none)) ∨
      ∃ source, round.outcome.error = "" ∧ s.source = some source ∧
        Shrinks (s.afterRound p source round) (s.applyFetch p round).1 := by
  rw [Subscription.applyFetch]
  cases hsource : s.source with
  | none => exact .inl ⟨Shrinks.of_rows rfl (prefix_refl _) id,fun _ => rfl⟩
  | some source =>
      by_cases herror : round.outcome.error = ""
      · simp only [herror, ne_eq, not_true_eq_false, if_false]
        refine .inr ⟨source,trivial,rfl,Shrinks.trans ?_ (shrinks_broadcastSources _ _)⟩
        refine Shrinks.of_rows rfl (prefix_refl _) fun hnone => ?_
        exact (shrinks_persistRuntime (s.fillRows p source round) round.persistOk _).stored hnone
      · simp only [ne_eq, herror, not_false_eq_true, if_true]
        refine .inl ⟨Shrinks.trans ?_ (shrinks_broadcastSources _ _),False.elim⟩
        refine Shrinks.trans ?_ (shrinks_persistRuntime _ _ _)
        exact Shrinks.of_rows rfl (prefix_refl _) id

/-- A step applies a round, or leaves every new row as it was. -/
theorem step_shrinks {a : Label} (h : step p s a = some t) :
    (Shrinks s t ∧ ∀ round, a = .fetched round → round.outcome.error = "" → s.source = none) ∨
      ∃ round source, a = .fetched round ∧ round.outcome.error = "" ∧
        s.source = some source ∧ Shrinks (s.afterRound p source round) t := by
  cases a with
  | tick now =>
      obtain rfl := Option.some.inj h
      exact .inl ⟨shrinks_tick s now,fun _ h => Label.noConfusion h⟩
  | refreshNow now =>
      obtain rfl := Option.some.inj h
      exact .inl ⟨shrinks_refreshNow s now,fun _ h => Label.noConfusion h⟩
  | fetched round =>
      cases hfetches : s.fetches with
      | zero =>
        simp only [step, hfetches] at h
        cases h
      | succ n =>
        simp only [step, hfetches] at h
        obtain rfl := Option.some.inj h
        have hcreated := shrinks_onFetched { s with fetches := n } p round
        have hbefore : Shrinks s { s with fetches := n } :=
          Shrinks.of_rows rfl (prefix_refl _) id
        rcases shrinks_applyFetch { s with fetches := n } p round with
          ⟨happlied,hnone⟩ | ⟨source,herror,hsource,happlied⟩
        · refine .inl ⟨hbefore.trans (happlied.trans hcreated),fun current hcurrent => ?_⟩
          obtain rfl := Label.fetched.inj hcurrent
          exact hnone
        · refine .inr ⟨round,source,rfl,herror,hsource,?_⟩
          obtain ⟨⟨hhistory,hstored⟩,hrows⟩ := happlied.trans hcreated
          exact ⟨⟨hhistory,hstored⟩,hrows⟩
  | torrentReady i error created marked loadOk =>
      simp only [step] at h
      split at h
      · cases h
      · obtain rfl := Option.some.inj h
        have herased : Shrinks s { s with torrents := s.torrents.eraseIdx i } :=
          Shrinks.of_rows rfl (prefix_refl _) id
        exact .inl ⟨herased.trans (shrinks_onTorrentReady _ _ _ error created marked loadOk),
          fun _ h => Label.noConfusion h⟩
  | manualDownload guid readOk created marked loadOk =>
      obtain rfl := Option.some.inj h
      exact .inl ⟨shrinks_downloadRssItem s guid readOk created marked loadOk,fun _ h => Label.noConfusion h⟩
  | ignoreItem guid ok loadOk =>
      obtain rfl := Option.some.inj h
      exact .inl ⟨shrinks_ignoreItem s guid ok loadOk,fun _ h => Label.noConfusion h⟩
  | markAllRead ok loadOk =>
      obtain rfl := Option.some.inj h
      exact .inl ⟨shrinks_markAllRead s ok loadOk,fun _ h => Label.noConfusion h⟩
  | updateSource edit ok loadOk =>
      obtain rfl := Option.some.inj h
      exact .inl ⟨shrinks_updateSource s edit ok loadOk,fun _ h => Label.noConfusion h⟩
  | deleteSource ok loadOk =>
      obtain rfl := Option.some.inj h
      exact .inl ⟨shrinks_deleteSource s ok loadOk,fun _ h => Label.noConfusion h⟩

/-! ## A round lowers the rank -/

/-- A selection takes elements that stand ahead or in the crowd, and more than the crowd. -/
theorem card_lt_of_selection {α : Type*} [DecidableEq α] {before after : Finset α}
    (crowd selection : Finset α)
    (hselection : selection ⊆ before ∪ crowd) (hafter : after ⊆ (before ∪ crowd) \ selection)
    (hcard : crowd.card < selection.card) : after.card < before.card := by
  have hunion := Finset.card_union_le before crowd
  have hle := Finset.card_le_card hafter
  have hsub := Finset.card_le_card hselection
  rw [Finset.card_sdiff_of_subset hselection] at hle
  omega

/-- While a new row is left, a full selection is dispatched. -/
theorem length_rssDispatchableItems {limit : ℤ} (hw : w ∈ rows) (hnew : w.status = .new)
    (hleft : w ∉ rssDispatchableItems rows limit) :
    (rssDispatchableItems rows limit).length = (max limit 1).toNat := by
  have hsorted : w ∈ (rows.filter (·.status = .new)).insertionSort olderFirst := by
    rw [mem_insertionSort, mem_filter]
    exact ⟨hw,by simpa using hnew⟩
  rw [rssDispatchableItems] at hleft ⊢
  rw [length_take]
  apply min_eq_left
  by_contra hshort
  rw [take_of_length_le (by omega)] at hleft
  exact hleft hsorted

/-- Dispatched rows are not younger than a new row that is left. -/
theorem olderFirst_of_dispatchable {limit : ℤ} (hr : r ∈ rssDispatchableItems rows limit)
    (hw : w ∈ rows) (hnew : w.status = .new) (hleft : w ∉ rssDispatchableItems rows limit) :
    olderFirst r w := by
  have hsorted : w ∈ (rows.filter (·.status = .new)).insertionSort olderFirst := by
    rw [mem_insertionSort, mem_filter]
    exact ⟨hw,by simpa using hnew⟩
  have hpairwise := (rows.filter (·.status = .new)).pairwise_insertionSort olderFirst
  rw [rssDispatchableItems] at hr hleft
  rw [← take_append_drop (max limit 1).toNat
    ((rows.filter (·.status = .new)).insertionSort olderFirst)] at hsorted hpairwise
  rcases mem_append.mp hsorted with htake | hdrop
  · exact absurd htake hleft
  · exact (pairwise_append.mp hpairwise).2.2 r hr w hdrop

theorem mem_crowd (hr : r ∈ rows) (hnew : r.status = .new)
    (h : wasDispatched s.history r.guid = true ∨ Overtakes s rows r) :
    r.guid ∈ (rssKnownGuids (crowd s rows)).toFinset := by
  rw [mem_toFinset, mem_rssKnownGuids]
  exact ⟨r,mem_filter.mpr ⟨hr,decide_eq_true ⟨hnew,h⟩⟩,rfl⟩

/-- The new rows of a round that are not younger than a waiting row whose publication date
stayed: rows that stood ahead of it before, or rows of the crowd. -/
theorem ahead_or_crowd {round : Round} {w' : RssItemInfo} (hw : w ∈ s.rows)
    (hwnew : w.status = .new) (hguid : w.guid = guid) (hw' : w' ∈ s.roundRows p source round)
    (hfill : Backfilled w w') (hdate : w'.pubDate = w.pubDate)
    (hsent : wasDispatched s.history guid = false) (hr : r ∈ s.roundRows p source round)
    (hrnew : r.status = .new) (holder : olderFirst r w')
    (hrsent : wasDispatched s.history r.guid = false) :
    r.guid ∈ ahead s guid ∨ Overtakes s (s.roundRows p source round) r := by
  by_cases hknown : r.guid ∈ rssKnownGuids s.rows
  · left
    rcases mem_rowsWithFeed ((pruned_sublist round _).subset hr) with
      ⟨q,hq,hqfill⟩ | ⟨hunknown,-⟩
    · refine mem_ahead.mpr ⟨q,hq,hqfill.guid.symm,hqfill.status ▸ hrnew,hqfill.guid ▸ hrsent,
        w,hw,⟨hwnew,hguid⟩,?_⟩
      -- a backfill moves a row only behind its old place
      have hqr : dispatchKey q ≤ dispatchKey r := by
        rw [← olderFirst_iff, olderFirst, hqfill.guid, hqfill.fetchedAt]
        have hpub := hqfill.pubDate
        rcases hpub with heq | ⟨hzero,hpos⟩
        · exact .inr ⟨heq.symm,.inr ⟨rfl,le_refl _⟩⟩
        · exact .inl (hzero ▸ hpos)
      have hkey : dispatchKey w' = dispatchKey w := by
        rw [dispatchKey, dispatchKey, hdate, hfill.fetchedAt, hfill.guid]
      rw [olderFirst_iff] at holder ⊢
      exact hqr.trans (hkey ▸ holder)
    · exact absurd hknown hunknown
  · refine .inr ⟨hknown,w',hw',hfill.status.trans hwnew,?_,?_,holder⟩
    · rw [hfill.guid]
      exact mem_rssKnownGuids.mpr ⟨w,hw,rfl⟩
    · rw [hfill.guid, hguid]
      exact hsent

theorem undispatched_afterRound {round : Round} :
    wasDispatched (s.afterRound p source round).history guid = false ↔
      wasDispatched s.history guid = false ∧
        guid ∉ rssKnownGuids (selected source round (s.roundRows p source round)) := by
  rw [Subscription.afterRound, Subscription.record, wasDispatched_append, wasDispatched_fillRows,
    or_eq_false_iff, ← wasDispatched_dispatched, not_eq_true]

theorem rank_lt_of_dated (hs : Undated s guid) (ht : ¬ Undated t guid) :
    rank t guid < rank s guid := by
  rw [rank, rank, if_pos hs, if_neg ht, Prod.Lex.toLex_lt_toLex]
  exact .inl Nat.zero_lt_one

theorem rank_lt_of_ahead (hundated : Undated t guid → Undated s guid)
    (hahead : (ahead t guid).card < (ahead s guid).card) : rank t guid < rank s guid := by
  by_cases hs : Undated s guid
  · by_cases ht : Undated t guid
    · rw [rank, rank, if_pos hs, if_pos ht, Prod.Lex.toLex_lt_toLex]
      exact .inr ⟨rfl,hahead⟩
    · exact rank_lt_of_dated hs ht
  · rw [rank, rank, if_neg hs, if_neg fun ht => hs (hundated ht), Prod.Lex.toLex_lt_toLex]
    exact .inr ⟨rfl,hahead⟩

/-- A round that leaves an item waiting does not raise its rank, and lowers it when it
dispatches. -/
theorem rank_afterRound (h : Tidy s) {round : Round} (hround : RoundOrderly p s source round)
    (hw : w ∈ s.rows) (hwnew : w.status = .new) (hguid : w.guid = guid)
    (hleft : wasDispatched (s.afterRound p source round).history guid = false) :
    rank (s.afterRound p source round) guid ≤ rank s guid ∧
      (dispatches source round = true → rank (s.afterRound p source round) guid < rank s guid) := by
  obtain ⟨hsent,hunselected⟩ := undispatched_afterRound.mp hleft
  obtain ⟨w',hwith,hfill⟩ := exists_rowsWithFeed p source round hw
  have hwnew' : w'.status = .new := hfill.status.trans hwnew
  have hguid' : w'.guid = guid := hfill.guid.trans hguid
  have hw' : w' ∈ s.roundRows p source round := hround.kept w' hwith hwnew'
  have hnodup : (rssKnownGuids (s.roundRows p source round)).Nodup :=
    (nodup_rowsWithFeed h.nodup p source round).sublist ((pruned_sublist round _).map _)
  have huniq : ∀ v ∈ (s.afterRound p source round).rows, v.guid = guid → v = w' :=
    fun v hv hvguid => inj_on_of_nodup_map hnodup hv hw' (hvguid.trans hguid'.symm)
  by_cases hdate : w'.pubDate = w.pubDate
  · have hundated : Undated (s.afterRound p source round) guid → Undated s guid := by
      rintro ⟨v,hv,⟨-,hvguid⟩,hvdate⟩
      obtain rfl := huniq v hv hvguid
      exact ⟨w,hw,⟨hwnew,hguid⟩,hdate ▸ hvdate⟩
    -- the items ahead after the round were ahead before it, or overtake
    have hahead : ∀ g ∈ ahead (s.afterRound p source round) guid,
        ∃ r ∈ s.roundRows p source round, r.guid = g ∧ r.status = .new ∧
          g ∉ rssKnownGuids (selected source round (s.roundRows p source round)) ∧
          (g ∈ ahead s guid ∨ Overtakes s (s.roundRows p source round) r) := by
      intro g hg
      obtain ⟨r,hr,rfl,hrnew,hrleft,v,hv,⟨-,hvguid⟩,holder⟩ := mem_ahead.mp hg
      obtain rfl := huniq v hv hvguid
      obtain ⟨hrsent,hrunselected⟩ := undispatched_afterRound.mp hrleft
      exact ⟨r,hr,rfl,hrnew,hrunselected,
        ahead_or_crowd hw hwnew hguid hw' hfill hdate hsent hr hrnew holder hrsent⟩
    have hroom := hround.room
    by_cases hdispatches : dispatches source round = true
    · rw [if_pos hdispatches] at hroom
      have hselected : selected source round (s.roundRows p source round) =
          rssDispatchableItems (s.roundRows p source round) source.maxPerFetch := by
        rw [selected]
        exact if_pos hdispatches
      rw [hselected] at hahead hunselected
      have hwleft : w' ∉ rssDispatchableItems (s.roundRows p source round) source.maxPerFetch :=
        fun hmem => hunselected (mem_rssKnownGuids.mpr ⟨w',hmem,hguid'⟩)
      have hlt : (ahead (s.afterRound p source round) guid).card < (ahead s guid).card := by
        apply card_lt_of_selection
          (rssKnownGuids (crowd s (s.roundRows p source round))).toFinset
          (rssKnownGuids (rssDispatchableItems (s.roundRows p source round)
            source.maxPerFetch)).toFinset
        · intro g hg
          obtain ⟨r,hr,rfl⟩ := mem_rssKnownGuids.mp (mem_toFinset.mp hg)
          obtain ⟨hrow,hrnew⟩ := mem_rssDispatchableItems hr
          have holder := olderFirst_of_dispatchable hr hw' hwnew' hwleft
          rw [Finset.mem_union]
          by_cases hrsent : wasDispatched s.history r.guid = true
          · exact .inr (mem_crowd hrow hrnew (.inl hrsent))
          · exact (ahead_or_crowd hw hwnew hguid hw' hfill hdate hsent hrow hrnew holder
              (eq_false_of_not_eq_true hrsent)).imp id
              fun hover => mem_crowd hrow hrnew (.inr hover)
        · intro g hg
          obtain ⟨r,hr,rfl,hrnew,hrunselected,hplace⟩ := hahead g hg
          rw [Finset.mem_sdiff, Finset.mem_union]
          exact ⟨hplace.imp id fun hover => mem_crowd hr hrnew (.inr hover),
            fun hmem => hrunselected (mem_toFinset.mp hmem)⟩
        · have hcrowd := toFinset_card_le
            (rssKnownGuids (crowd s (s.roundRows p source round)))
          rw [rssKnownGuids, length_map] at hcrowd
          have hfull := length_rssDispatchableItems hw' hwnew' hwleft
          have hnodup' := nodup_selected source round hnodup
          rw [hselected] at hnodup'
          have hcard := toFinset_card_of_nodup hnodup'
          rw [length_map, hfull] at hcard
          exact hcrowd.trans_lt (hroom.trans_eq hcard.symm)
      have hrank := rank_lt_of_ahead hundated hlt
      exact ⟨hrank.le,fun _ => hrank⟩
    · rw [if_neg hdispatches] at hroom
      refine ⟨rank_le hundated fun g hg => ?_,fun hyes => absurd hyes hdispatches⟩
      obtain ⟨r,hr,-,hrnew,-,hplace⟩ := hahead g hg
      exact hplace.elim id fun hover => absurd hover (hroom r hr hrnew)
  · have hpub := hfill.pubDate.resolve_left hdate
    have hrank : rank (s.afterRound p source round) guid < rank s guid := by
      apply rank_lt_of_dated ⟨w,hw,⟨hwnew,hguid⟩,hpub.1⟩
      rintro ⟨v,hv,⟨-,hvguid⟩,hvdate⟩
      obtain rfl := huniq v hv hvguid
      exact hpub.2.ne' hvdate
    exact ⟨hrank.le,fun _ => hrank⟩

/-- The step applies a round that dispatches. -/
def DispatchingRound (s : Subscription) : Label → Prop
  | .fetched round => round.outcome.error = "" ∧ ∃ source ∈ s.source, dispatches source round = true
  | _ => False

/-- No step raises the rank of an item that waits, and a round that dispatches lowers it. -/
theorem rank_step {a : Label} (h : Tidy s) (horderly : Orderly p s a) (hstep : step p s a = some t)
    (haccepted : Event.accepted guid ∈ s.history) (hunsettled : ¬ Settled t guid) :
    rank t guid ≤ rank s guid ∧ (DispatchingRound s a → rank t guid < rank s guid) := by
  rcases step_shrinks hstep with ⟨hshrinks,hno⟩ | ⟨round,source,rfl,herror,hsource,hshrinks⟩
  · refine ⟨hshrinks.rank_le guid,fun hround => ?_⟩
    cases a with
    | fetched round =>
        obtain ⟨herror,source,hsource,-⟩ := hround
        rw [hno round rfl herror] at hsource
        exact absurd hsource (Option.not_mem_none source)
    | _ => exact hround.elim
  · have hgrows := (grows_afterRound s p source round).trans hshrinks.toGrows
    obtain ⟨w,hw,hwnew,hguid⟩ := (h.waiting guid haccepted).resolve_left
      fun hsettled => hunsettled (hgrows.settled hsettled)
    have hleft : wasDispatched (s.afterRound p source round).history guid = false := by
      rw [← not_eq_true]
      exact fun hsent => hunsettled (hshrinks.settled (.inl hsent))
    obtain ⟨hle,hlt⟩ := rank_afterRound h (horderly herror source hsource) hw hwnew hguid hleft
    have hlast := hshrinks.rank_le guid
    refine ⟨hlast.trans hle,?_⟩
    rintro ⟨-,current,hcurrent,hdispatches⟩
    obtain rfl := Option.some.inj (hsource.symm.trans hcurrent)
    exact hlast.trans_lt (hlt hdispatches)

theorem grows_step {a : Label} (h : step p s a = some t) : Grows s t := by
  rcases step_shrinks h with ⟨hshrinks,-⟩ | ⟨round,source,-,-,-,hshrinks⟩
  · exact hshrinks.toGrows
  · exact (grows_afterRound s p source round).trans hshrinks.toGrows

/-- In every orderly run an item gets at most one automatic task, and an accepted item that is
not settled waits in a new row; while orderly rounds go on dispatching it is settled. -/
theorem run_dispatches_in_turn {p : Platform} {as : List Label} (hs : Initial s)
    (hm : Meets (step p) (Orderly p) s as) (h : exec (step p) s as = some t) :
    (∀ guid, taskCount t.history guid ≤ 1) ∧
      (∀ guid, Event.accepted guid ∈ t.history →
        Settled t guid ∨ ∃ r ∈ t.rows, r.status = .new ∧ r.guid = guid) ∧
      ∀ (σ : ℕ → Subscription) (a : ℕ → Label), σ 0 = t → Endless (step p) σ a →
        (∀ n, Orderly p (σ n) (a n)) → (∀ n, ∃ m ≥ n, DispatchingRound (σ m) (a m)) →
        ∀ guid, Event.accepted guid ∈ t.history → ∃ n, Settled (σ n) guid := by
  have hstep : ∀ s a t, Tidy s → Orderly p s a → step p s a = some t → Tidy t :=
    fun s a t hs ha hstep => hs.step ha hstep
  have htidy := exec_invariant_of_meets hstep hs.tidy hm h
  refine ⟨fun guid => (Nat.le_add_right _ _).trans (htidy.once guid),htidy.waiting,?_⟩
  intro σ a hstart hendless horderly hrounds guid haccepted
  subst hstart
  have htidies := hendless.invariant hstep horderly htidy
  have hkeeps : ∀ s a t, Event.accepted guid ∈ s.history → Orderly p s a → step p s a = some t →
      Event.accepted guid ∈ t.history := fun s a t hs _ hstep => (grows_step hstep).accepted hs
  have haccepteds := hendless.invariant hkeeps horderly haccepted
  have hrank := fun n (hunsettled : ¬ Settled (σ (n + 1)) guid) =>
    rank_step (htidies n) (horderly n) (hendless n) (haccepteds n) hunsettled
  apply exists_goal_of_rank (fun s => rank s guid) fun s => Settled s guid
  · exact fun n hunsettled => (hrank n hunsettled).1
  · intro n
    obtain ⟨m,hm,hround⟩ := hrounds n
    exact ⟨m,hm,fun hunsettled => (hrank m hunsettled).2 hround⟩

/-! ## Examples of runs -/

instance (p : Platform) (s : Subscription) (source : RssSourceInfo) (round : Round) :
    Decidable (RoundOrderly p s source round) :=
  decidable_of_iff
    ((source.seeded = true → ∀ parsed ∈ round.outcome.items,
        otherStatus s.history parsed.guid = true → parsed.guid ∈ rssKnownGuids s.rows) ∧
      (s.acceptedItems p source round ≠ [] → round.insertOk = true) ∧
      (∀ r ∈ s.rowsWithFeed p source round, r.status = .new → r ∈ s.roundRows p source round) ∧
      (∀ r ∈ selected source round (s.roundRows p source round),
        fetchCount s.torrents r.guid = 0) ∧
      (∀ r ∈ selected source round (s.roundRows p source round),
        (round.created r.guid).isSome = true → round.marked r.guid = true) ∧
      if dispatches source round then
        (crowd s (s.roundRows p source round)).length < (max source.maxPerFetch 1).toNat
      else ∀ r ∈ s.roundRows p source round, r.status = .new →
        ¬ Overtakes s (s.roundRows p source round) r)
    ⟨fun ⟨hlisted,hinserted,hkept,hidle,hmarked,hroom⟩ =>
      ⟨hlisted,hinserted,hkept,hidle,hmarked,hroom⟩,
    fun h => ⟨h.listed,h.inserted,h.kept,h.idle,h.marked,h.room⟩⟩

instance (p : Platform) : ∀ s a, Decidable (Orderly p s a)
  | s, .fetched round => inferInstanceAs (Decidable (round.outcome.error = "" →
      ∀ source ∈ s.source, RoundOrderly p s source round))
  | s, .torrentReady i error created marked _ => inferInstanceAs (Decidable (error = "" →
      created.isSome = true → ∀ t ∈ s.torrents[i]?, t.2 = true → marked = true))
  | _, .tick _ | _, .refreshNow _ | _, .manualDownload .. | _, .ignoreItem .. | _, .markAllRead ..
  | _, .updateSource .. | _, .deleteSource .. => isTrue trivial

/-- An empty first feed, then a feed whose item is accepted while the selection fails. -/
def delayedRun : List Label :=
  [.tick 2000, .fetched (sampleRound [] 2001), .refreshNow 2100,
    .fetched { sampleRound [sampleItem ['b'] "http://x/b" 7] 2101 with selectOk := false }]

def delayedRow : RssItemInfo := itemFromParsed (sampleItem ['b'] "http://x/b" 7) 2101

/-- A round of an empty feed, in which no task can be created. -/
def emptyRound : Round :=
  { sampleRound [] 2201 with created := fun _ => none, pruneOk := false, loadOk := false }

/-- The subscription after the delayed run and any number of empty rounds. -/
structure Delayed (s : Subscription) : Prop where
  rows : s.rows = [delayedRow]
  torrents : s.torrents = []
  source : ∃ source ∈ s.source,
    source.seeded = true ∧ source.autoDownload = true ∧ source.maxPerFetch = 2
  fetches : s.inFlight = false ∧ s.fetches = 0 ∨ s.fetches = 1

theorem rowsWithFeed_empty (s : Subscription) (source : RssSourceInfo) :
    s.rowsWithFeed samplePlatform source emptyRound = s.rows := by
  simp only [Subscription.rowsWithFeed]
  split_ifs <;> rfl

theorem roundOrderly_empty (h : Delayed s) (hsource : source ∈ s.source) :
    RoundOrderly samplePlatform s source emptyRound := by
  obtain ⟨current,hcurrent,hseeded,hauto,hmax⟩ := h.source
  obtain rfl := Option.some.inj (hsource.symm.trans hcurrent)
  have hrows : s.roundRows samplePlatform source emptyRound = [delayedRow] :=
    (rowsWithFeed_empty s source).trans h.rows
  refine ⟨fun _ parsed hparsed => absurd hparsed not_mem_nil,fun hne => absurd rfl hne,
    fun r hr _ => hr,fun r _ => ?_,fun r _ hcreated => absurd hcreated false_ne_true,?_⟩
  · rw [h.torrents]
    rfl
  · have hdispatches : dispatches source emptyRound = true := by
      rw [dispatches, hseeded, hauto]
      rfl
    have hcrowd : (crowd s [delayedRow]).length ≤ 1 := length_filter_le _ _
    rw [if_pos hdispatches, hrows, hmax]
    exact Nat.lt_succ_of_le hcrowd

theorem createRssTasks_empty (s : Subscription) {plans : List RssDownloadPlan}
    (hplans : ∀ plan ∈ plans, plan.isTorrentFile = false) :
    s.createRssTasks emptyRound plans = s := by
  rw [Subscription.createRssTasks]
  induction plans with
  | nil => rfl
  | cons plan plans ih =>
      rw [forall_mem_cons] at hplans
      rw [foldl_cons, Subscription.createRssTask, hplans.1]
      exact ih hplans.2

theorem onFetched_empty (hrows : s.rows = [delayedRow]) (hsource : s.source = some source) :
    (s.onFetched samplePlatform emptyRound).rows = [delayedRow] ∧
      (s.onFetched samplePlatform emptyRound).torrents = s.torrents ∧
      (s.onFetched samplePlatform emptyRound).source = some (succeeded source 2201 [] source) ∧
      (s.onFetched samplePlatform emptyRound).inFlight = false ∧
      (s.onFetched samplePlatform emptyRound).fetches = s.fetches := by
  have hfilled : s.roundRows samplePlatform source emptyRound = [delayedRow] :=
    (rowsWithFeed_empty s source).trans hrows
  have hplans : ∀ plan ∈ (s.applyFetch samplePlatform emptyRound).2, plan.isTorrentFile = false := by
    simp only [Subscription.applyFetch, hsource, fillRows_rows, hfilled]
    intro plan hplan
    obtain ⟨r,hr,rfl⟩ := mem_map.mp hplan
    obtain rfl := mem_singleton.mp (selected_new r hr).1
    rfl
  have hquiet : notifies emptyRound (s.applyFetch samplePlatform emptyRound).2 = false := by
    simp [notifies, emptyRound]
  have happlied : s.onFetched samplePlatform emptyRound =
      (s.applyFetch samplePlatform emptyRound).1 := by
    simp only [Subscription.onFetched, createRssTasks_empty _ hplans, hquiet]
    rfl
  rw [happlied]
  simp only [Subscription.applyFetch, hsource]
  exact ⟨hfilled,rfl,congrArg (Option.map _) hsource,rfl,rfl⟩

/-- The next state: a refresh, or the result of an empty feed. -/
def Subscription.emptyNext (s : Subscription) : Subscription :=
  if s.fetches = 0 then s.refreshNow 2200
  else Subscription.onFetched { s with fetches := 0 } samplePlatform emptyRound

def emptyLabel (s : Subscription) : Label :=
  if s.fetches = 0 then .refreshNow 2200 else .fetched emptyRound

theorem Delayed.emptyNext (h : Delayed s) :
    Delayed s.emptyNext ∧ step samplePlatform s (emptyLabel s) = some s.emptyNext := by
  obtain ⟨source,hsource,hseeded,hauto,hmax⟩ := h.source
  have hsome : s.source = some source := hsource
  rw [Subscription.emptyNext, emptyLabel]
  rcases h.fetches with ⟨hidle,hfetches⟩ | hfetches
  · rw [if_pos hfetches, if_pos hfetches]
    refine ⟨?_,rfl⟩
    simp only [Subscription.refreshNow, Subscription.dispatchFetch, hidle, hsome]
    exact ⟨h.rows,h.torrents,⟨_,rfl,hseeded,hauto,hmax⟩,.inr (by simp [hfetches])⟩
  · have hone : s.fetches ≠ 0 := by omega
    rw [if_neg hone, if_neg hone]
    refine ⟨?_,by simp only [step, hfetches]⟩
    obtain ⟨hrows,htorrents,hnext,hinFlight,hfetched⟩ :=
      onFetched_empty (s := { s with fetches := 0 }) h.rows hsome
    exact ⟨hrows,htorrents.trans h.torrents,⟨_,hnext,rfl,hauto,hmax⟩,
      .inl ⟨hinFlight,hfetched⟩⟩

def emptyRounds (s : Subscription) : ℕ → Subscription
  | 0 => s
  | n + 1 => (emptyRounds s n).emptyNext

theorem Delayed.emptyRounds (h : Delayed s) (n : ℕ) : Delayed (emptyRounds s n) := by
  induction n with
  | zero => exact h
  | succ n ih => exact ih.emptyNext.1

theorem Delayed.orderly (h : Delayed s) : Orderly samplePlatform s (emptyLabel s) := by
  rw [emptyLabel]
  split_ifs
  · exact trivial
  · exact fun _ source hsource => roundOrderly_empty h hsource

/-- At every second step an empty round dispatches. -/
theorem Delayed.dispatchingRound (h : Delayed s) (n : ℕ) :
    ∃ m ≥ n, DispatchingRound (RssSubscription.emptyRounds s m)
      (emptyLabel (RssSubscription.emptyRounds s m)) := by
  have hround : ∀ u, Delayed u → u.fetches = 1 → DispatchingRound u (emptyLabel u) := by
    intro u hu hfetches
    obtain ⟨source,hsource,hseeded,hauto,-⟩ := hu.source
    rw [emptyLabel, if_neg (by omega)]
    exact ⟨rfl,source,hsource,by rw [dispatches, hseeded, hauto]; rfl⟩
  have hn := h.emptyRounds n
  rcases hn.fetches with ⟨hidle,hfetches⟩ | hfetches
  · refine ⟨n + 1,Nat.le_succ n,hround _ (h.emptyRounds (n + 1)) ?_⟩
    obtain ⟨source,hsource,-⟩ := hn.source
    have hsome : (RssSubscription.emptyRounds s n).source = some source := hsource
    simp [RssSubscription.emptyRounds, Subscription.emptyNext, hfetches, Subscription.refreshNow,
      Subscription.dispatchFetch, hidle, hsome]
  · exact ⟨n,le_refl n,hround _ hn hfetches⟩

theorem run_dispatches_in_turn_delayed :
    ∃ t, exec (step samplePlatform) newSubscription delayedRun = some t ∧
      Event.accepted ['b'] ∈ t.history ∧ taskCount t.history ['b'] ≤ 1 ∧
      ∃ n, Settled (emptyRounds t n) ['b'] := by
  have hm : Meets (step samplePlatform) (Orderly samplePlatform) newSubscription delayedRun := by
    decide +kernel
  have hrun : (exec (step samplePlatform) newSubscription delayedRun).any (fun t =>
      .accepted ['b'] ∈ t.history ∧ t.rows = [delayedRow] ∧ t.torrents = [] ∧
        (t.source.any fun source =>
          source.seeded ∧ source.autoDownload ∧ source.maxPerFetch = 2) ∧
        t.inFlight = false ∧ t.fetches = 0) = true := by decide +kernel
  obtain ⟨t,ht,hfacts⟩ := (Option.any_eq_true _ _).mp hrun
  obtain ⟨haccepted,hrows,htorrents,hsource,hidle⟩ := of_decide_eq_true hfacts
  have hdelayed : Delayed t := by
    obtain ⟨source,hmem,hok⟩ := (Option.any_eq_true _ _).mp hsource
    exact ⟨hrows,htorrents,⟨source,hmem,by simpa using hok⟩,.inl hidle⟩
  obtain ⟨honce,-,hturn⟩ := run_dispatches_in_turn newSubscription_initial hm ht
  refine ⟨t,ht,haccepted,honce ['b'],?_⟩
  exact hturn (emptyRounds t) (fun n => emptyLabel (emptyRounds t n)) rfl
    (fun n => (hdelayed.emptyRounds n).emptyNext.2) (fun n => (hdelayed.emptyRounds n).orderly)
    hdelayed.dispatchingRound ['b'] haccepted

/-- A torrent file is fetched, and before its bytes are there the next round lists its item
again. -/
def twiceRun : List Label :=
  [.tick 2000, .fetched (sampleRound [] 2001), .refreshNow 2100,
    .fetched (sampleRound [sampleItem ['b'] "http://x/b.torrent" 7] 2101), .refreshNow 2200,
    .fetched (sampleRound [sampleItem ['b'] "http://x/b.torrent" 7] 2201),
    .torrentReady 0 "" (some ['1']) true true, .torrentReady 0 "" (some ['2']) true true]

/-- An accepted item gets two automatic tasks. -/
theorem item_downloaded_twice :
    ∃ t, exec (step samplePlatform) newSubscription twiceRun = some t ∧
      Event.accepted ['b'] ∈ t.history ∧ taskCount t.history ['b'] = 2 := by
  have hrun : (exec (step samplePlatform) newSubscription twiceRun).any (fun t =>
      .accepted ['b'] ∈ t.history ∧ taskCount t.history ['b'] = 2) = true := by decide +kernel
  obtain ⟨t,ht,hfacts⟩ := (Option.any_eq_true _ _).mp hrun
  exact ⟨t,ht,of_decide_eq_true hfacts⟩

end RinaDown.RssSubscription
