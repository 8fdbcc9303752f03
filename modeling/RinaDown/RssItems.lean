import Mathlib.Data.List.Sort
import Mathlib.Data.Prod.Lex
import Mathlib.Data.List.Lex
import Mathlib.Data.Char
import RinaDown.RssFilter

/-!
# The items of one subscription

The rows that one subscription has in the item table, one row for each guid, and the
statements that read and write them. A row is inserted once and never written over by
an insert; a prune deletes the oldest rows that were not downloaded.
-/

namespace RinaDown.RssItems

open CharacterPatterns RssFilter Texts List

inductive RssItemStatus where
  | new
  | downloaded
  | ignored
  | filtered
  | duplicateEpisode
  | seedSkipped
deriving Repr, DecidableEq

structure RssItemInfo where
  guid : Text
  title : Text
  link : Text
  enclosureUrl : Text
  enclosureLength : ℤ
  pubDate : ℤ
  fetchedAt : ℤ
  status : RssItemStatus
  taskId : Text
  episodeKey : Text
  reason : String
deriving Repr, DecidableEq

def RssItemInfo.downloadUrl (item : RssItemInfo) : Text :=
  if item.enclosureUrl = [] then item.link else item.enclosureUrl

def itemStatus : RejectReason → RssItemStatus
  | .duplicateEpisode => .duplicateEpisode
  | _ => .filtered

/-- `ORDER BY pub_date ASC, fetched_at ASC, guid ASC`. -/
def olderFirst (a b : RssItemInfo) : Prop :=
  a.pubDate < b.pubDate ∨ (a.pubDate = b.pubDate ∧
    (a.fetchedAt < b.fetchedAt ∨ (a.fetchedAt = b.fetchedAt ∧ a.guid ≤ b.guid)))

instance : DecidableRel olderFirst := fun _ _ => inferInstanceAs (Decidable (_ ∨ _))

/-- `ORDER BY pub_date DESC, fetched_at DESC, guid ASC`. -/
def newerFirst (a b : RssItemInfo) : Prop :=
  b.pubDate < a.pubDate ∨ (b.pubDate = a.pubDate ∧
    (b.fetchedAt < a.fetchedAt ∨ (b.fetchedAt = a.fetchedAt ∧ a.guid ≤ b.guid)))

instance : DecidableRel newerFirst := fun _ _ => inferInstanceAs (Decidable (_ ∨ _))

def rssKnownGuids (rows : List RssItemInfo) : List Text := rows.map (·.guid)

def rssTakenEpisodeKeys (rows : List RssItemInfo) : List Text :=
  (rows.filter fun r => r.episodeKey ≠ [] ∧ (r.status = .new ∨ r.status = .downloaded)).map
    (·.episodeKey)

/-- The new items, oldest first, at most `limit` and at least one. -/
def rssDispatchableItems (rows : List RssItemInfo) (limit : ℤ) : List RssItemInfo :=
  ((rows.filter (·.status = .new)).insertionSort olderFirst).take (max limit 1).toNat

/-- `INSERT … ON CONFLICT (source_id, guid) DO NOTHING`. -/
def insertRow (rows : List RssItemInfo) (item : RssItemInfo) : List RssItemInfo :=
  if item.guid ∈ rssKnownGuids rows then rows else rows ++ [item]

def insertRssItems (rows items : List RssItemInfo) : List RssItemInfo :=
  items.foldl insertRow rows

/-- The rows that an insert adds: the first row of each guid that is not known. -/
def addedRows (known : List Text) : List RssItemInfo → List RssItemInfo
  | [] => []
  | item :: items =>
      if item.guid ∈ known then addedRows known items
      else item :: addedRows (known ++ [item.guid]) items

/-- `UPDATE … SET pub_date = … WHERE guid = … AND pub_date = 0`. -/
def backfillRow (fill : Text × ℤ) (row : RssItemInfo) : RssItemInfo :=
  if row.guid = fill.1 ∧ row.pubDate = 0 then { row with pubDate := fill.2 } else row

def backfillRssPubDates (rows : List RssItemInfo) (fills : List (Text × ℤ)) : List RssItemInfo :=
  fills.foldl (fun rows fill => rows.map (backfillRow fill)) rows

def setRssItemStatus (rows : List RssItemInfo) (guid : Text) (status : RssItemStatus)
    (reason : String) (taskId : Text) : List RssItemInfo :=
  rows.map fun r =>
    if r.guid = guid then { r with status := status, reason := reason, taskId := taskId } else r

def markAllRssItemsRead (rows : List RssItemInfo) : List RssItemInfo :=
  rows.map fun r => if r.status = .new then { r with status := .ignored } else r

def keptGuids (rows : List RssItemInfo) (keep : ℤ) : List Text :=
  ((rows.insertionSort newerFirst).take (max keep 1).toNat).map (·.guid)

/-- Deletes the rows that are not downloaded and not among the newest `keep`. -/
def pruneRssItems (rows : List RssItemInfo) (keep : ℤ) : List RssItemInfo :=
  rows.filter fun r => r.status = .downloaded ∨ r.guid ∈ keptGuids rows keep

/-! ## What the statements leave -/

variable {rows : List RssItemInfo}

/-- The order of dispatch as an order on keys. -/
def dispatchKey (item : RssItemInfo) : ℤ ×ₗ ℤ ×ₗ Text :=
  toLex (item.pubDate, toLex (item.fetchedAt, item.guid))

theorem olderFirst_iff {a b : RssItemInfo} : olderFirst a b ↔ dispatchKey a ≤ dispatchKey b := by
  simp [olderFirst, dispatchKey, Prod.Lex.le_iff]

instance : Std.Total olderFirst :=
  ⟨fun a b => by simpa only [olderFirst_iff] using le_total (dispatchKey a) (dispatchKey b)⟩

instance : IsTrans RssItemInfo olderFirst :=
  ⟨fun a b c => by simpa only [olderFirst_iff] using fun hab hbc => le_trans hab hbc⟩

theorem mem_rssDispatchableItems {limit : ℤ} {r : RssItemInfo}
    (h : r ∈ rssDispatchableItems rows limit) : r ∈ rows ∧ r.status = .new := by
  have hsorted := mem_of_mem_take h
  rw [mem_insertionSort, mem_filter] at hsorted
  exact ⟨hsorted.1,by simpa using hsorted.2⟩

theorem mem_insertRow {item r : RssItemInfo} (h : r ∈ insertRow rows item) :
    r ∈ rows ∨ (r = item ∧ item.guid ∉ rssKnownGuids rows) := by
  rw [insertRow] at h
  split_ifs at h with hknown
  · exact .inl h
  · rw [mem_append, mem_singleton] at h
    exact h.imp id fun heq => ⟨heq,hknown⟩

theorem subset_insertRow (item : RssItemInfo) : rows ⊆ insertRow rows item := by
  rw [insertRow]
  split_ifs
  · exact List.Subset.refl rows
  · exact subset_append_left rows [item]

theorem subset_insertRssItems (items : List RssItemInfo) : rows ⊆ insertRssItems rows items := by
  induction items generalizing rows with
  | nil => exact List.Subset.refl rows
  | cons item items ih => exact List.Subset.trans (subset_insertRow item) ih

theorem mem_rssKnownGuids {g : Text} :
    g ∈ rssKnownGuids rows ↔ ∃ r ∈ rows, r.guid = g := by
  simp [rssKnownGuids]

theorem rssKnownGuids_mono {rows' : List RssItemInfo} (h : rows ⊆ rows') :
    rssKnownGuids rows ⊆ rssKnownGuids rows' := map_subset _ h

theorem mem_insertRssItems {items : List RssItemInfo} {r : RssItemInfo}
    (h : r ∈ insertRssItems rows items) :
    r ∈ rows ∨ (r ∈ items ∧ r.guid ∉ rssKnownGuids rows) := by
  induction items generalizing rows with
  | nil => exact .inl h
  | cons item items ih =>
      change r ∈ insertRssItems (insertRow rows item) items at h
      rcases ih h with hr | ⟨hr,hfresh⟩
      · rcases mem_insertRow hr with hr | ⟨rfl,hfresh⟩
        · exact .inl hr
        · exact .inr ⟨mem_cons_self,hfresh⟩
      · exact .inr ⟨mem_cons_of_mem _ hr,
          fun hknown => hfresh (rssKnownGuids_mono (subset_insertRow item) hknown)⟩

theorem nodup_insertRssItems {items : List RssItemInfo} (h : (rssKnownGuids rows).Nodup) :
    (rssKnownGuids (insertRssItems rows items)).Nodup := by
  induction items generalizing rows with
  | nil => exact h
  | cons item items ih =>
      apply ih
      rw [insertRow]
      split_ifs with hknown
      · exact h
      · rw [rssKnownGuids, map_append, map_singleton]
        exact nodup_append_comm.mp (nodup_cons.mpr ⟨hknown,h⟩)

theorem insertRssItems_eq_append (rows items : List RssItemInfo) :
    insertRssItems rows items = rows ++ addedRows (rssKnownGuids rows) items := by
  induction items generalizing rows with
  | nil => exact (append_nil rows).symm
  | cons item items ih =>
      have hstep : insertRssItems rows (item :: items) = insertRssItems (insertRow rows item) items :=
        rfl
      rw [hstep, ih, insertRow, addedRows]
      split_ifs with hknown
      · rfl
      · simp [rssKnownGuids]

theorem rssKnownGuids_map {f : RssItemInfo → RssItemInfo} (hf : ∀ r, (f r).guid = r.guid) :
    rssKnownGuids (rows.map f) = rssKnownGuids rows := by
  simp [rssKnownGuids, hf]

theorem rssKnownGuids_setRssItemStatus (guid : Text) (status : RssItemStatus) (reason : String)
    (taskId : Text) :
    rssKnownGuids (setRssItemStatus rows guid status reason taskId) = rssKnownGuids rows := by
  apply rssKnownGuids_map
  intro r
  split_ifs <;> rfl

theorem rssKnownGuids_markAllRssItemsRead :
    rssKnownGuids (markAllRssItemsRead rows) = rssKnownGuids rows := by
  apply rssKnownGuids_map
  intro r
  split_ifs <;> rfl

theorem mem_setRssItemStatus {guid : Text} {status : RssItemStatus} {reason : String}
    {taskId : Text} {r : RssItemInfo} (h : r ∈ setRssItemStatus rows guid status reason taskId) :
    (r.guid = guid ∧ r.status = status) ∨ (r.guid ≠ guid ∧ r ∈ rows) := by
  rw [setRssItemStatus, mem_map] at h
  obtain ⟨q,hq,rfl⟩ := h
  split_ifs with hguid
  · exact .inl ⟨hguid,rfl⟩
  · exact .inr ⟨hguid,hq⟩

/-- An item that is new after a status was set is another one. -/
theorem new_of_mem_setRssItemStatus {guid : Text} {status : RssItemStatus} {reason : String}
    {taskId : Text} {r : RssItemInfo} (hne : status ≠ .new)
    (h : r ∈ setRssItemStatus rows guid status reason taskId) (hnew : r.status = .new) :
    r ∈ rows ∧ r.guid ≠ guid := by
  rcases mem_setRssItemStatus h with ⟨-,hset⟩ | ⟨hguid,hold⟩
  · exact absurd (hset.symm.trans hnew) hne
  · exact ⟨hold,hguid⟩

theorem mem_markAllRssItemsRead {r : RssItemInfo} (h : r ∈ markAllRssItemsRead rows) :
    r.status ≠ .new ∧ (r ∈ rows ∨ ∃ q ∈ rows, q.status = .new ∧ r.guid = q.guid) := by
  rw [markAllRssItemsRead, mem_map] at h
  obtain ⟨q,hq,rfl⟩ := h
  split_ifs with hnew
  · exact ⟨nofun,.inr ⟨q,hq,hnew,rfl⟩⟩
  · exact ⟨hnew,.inl hq⟩

/-- What a backfill leaves of a row: everything but the publication date, which moves only
from zero. -/
structure Backfilled (before after : RssItemInfo) : Prop where
  guid : after.guid = before.guid
  status : after.status = before.status
  fetchedAt : after.fetchedAt = before.fetchedAt
  pubDate : after.pubDate = before.pubDate ∨ (before.pubDate = 0 ∧ 0 < after.pubDate)

theorem Backfilled.refl (r : RssItemInfo) : Backfilled r r := ⟨rfl,rfl,rfl,.inl rfl⟩

theorem Backfilled.trans {a b c : RssItemInfo} (h : Backfilled a b) (h' : Backfilled b c) :
    Backfilled a c := by
  refine ⟨h'.guid.trans h.guid,h'.status.trans h.status,h'.fetchedAt.trans h.fetchedAt,?_⟩
  have hfirst := h.pubDate
  have hsecond := h'.pubDate
  omega

theorem backfilled_backfillRow {fill : Text × ℤ} (hfill : 0 < fill.2) (r : RssItemInfo) :
    Backfilled r (backfillRow fill r) := by
  rw [backfillRow]
  split_ifs with h
  · exact ⟨rfl,rfl,rfl,.inr ⟨h.2,hfill⟩⟩
  · exact Backfilled.refl r

/-- A backfill rewrites the rows one by one. -/
theorem backfillRssPubDates_eq_map {fills : List (Text × ℤ)} (hfills : ∀ fill ∈ fills, 0 < fill.2)
    (rows : List RssItemInfo) :
    ∃ f : RssItemInfo → RssItemInfo, (∀ r, Backfilled r (f r)) ∧
      backfillRssPubDates rows fills = rows.map f := by
  induction fills generalizing rows with
  | nil => exact ⟨id,Backfilled.refl,(map_id rows).symm⟩
  | cons fill fills ih =>
      rw [forall_mem_cons] at hfills
      obtain ⟨f,hf,hrows⟩ := ih hfills.2 (rows.map (backfillRow fill))
      refine ⟨f ∘ backfillRow fill,
        fun r => (backfilled_backfillRow hfills.1 r).trans (hf _),?_⟩
      rw [← map_map]
      exact hrows

theorem pruneRssItems_sublist (keep : ℤ) : (pruneRssItems rows keep).Sublist rows :=
  filter_sublist

end RinaDown.RssItems
