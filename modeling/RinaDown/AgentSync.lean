import RinaDown.ConfigSyncService
import RinaDown.CursorReplica
import RinaDown.OrderedMap

/-!
# The configuration sync of the agent

The agent keeps an entry for each key it has seen. A local change makes the entry
dirty; an item of another device is taken over unless the entry is dirty; the
reply of a push cleans the entries that still hold what was sent. A pull comes
before every push, and the push of the same round follows in one step with it.
-/

namespace RinaDown.AgentSync
open RevisionLog ConfigSyncService CursorReplica OrderedMap Std List

inductive SyncOwner where
  | daemon
  | agent
  | preferences
  | excluded
  deriving DecidableEq

/-- The table of settings: who owns a key, which keys have a specification, and which values
pass its validation. -/
structure Settings (K V : Type) where
  ownerForKey : K → SyncOwner
  hasSpec : K → Bool
  validateValue : K → V → Bool

structure PersistedSyncEntry (V : Type) where
  value : V
  version : ℕ
  dirty : Bool
  deleted : Bool
  deriving DecidableEq

/-- What a push says about an entry, and what its reply is compared with. -/
structure SentEntry (V : Type) where
  value : V
  deleted : Bool
  version : ℕ
  deriving DecidableEq

variable {K V D : Type} [Ord K]

/-- `preferences` are the values of the keys that the agent itself owns. -/
structure AgentState (K V : Type) [Ord K] where
  syncEntries : TreeMap K (PersistedSyncEntry V)
  preferences : TreeMap K V
  revision : ℕ
  syncPulled : Bool

def emptyState (K V : Type) [Ord K] : AgentState K V := ⟨∅,∅,0,false⟩

def defaultEntry [Inhabited V] : PersistedSyncEntry V := ⟨default,0,false,false⟩

def entryOrDefault [Inhabited V] (s : AgentState K V) (key : K) : PersistedSyncEntry V :=
  (s.syncEntries[key]?).getD defaultEntry

def setEntry (key : K) (entry : PersistedSyncEntry V) (s : AgentState K V) : AgentState K V :=
  { s with syncEntries := s.syncEntries.insert key entry }

def setPreference (settings : Settings K V) (key : K) (value : V) (deleted : Bool)
    (s : AgentState K V) : AgentState K V :=
  match settings.ownerForKey key with
  | .agent | .preferences =>
    { s with
      preferences := if deleted then s.preferences.erase key else s.preferences.insert key value }
  | .daemon | .excluded => s

/-- A value that is not a deletion and is refused by the specification of its key. -/
def invalid (settings : Settings K V) (key : K) (value : V) (deleted : Bool) : Bool :=
  !deleted && settings.hasSpec key && !settings.validateValue key value

section Operations
variable [Inhabited V] [DecidableEq V] [DecidableEq K] [DecidableEq D]

def markLocal (settings : Settings K V) (key : K) (value : V) (deleted : Bool)
    (s : AgentState K V) : AgentState K V :=
  if settings.ownerForKey key = .excluded ∨ invalid settings key value deleted = true then s
  else
    let entry := { entryOrDefault s key with value := value, deleted := deleted, dirty := true }
    setPreference settings key value deleted (setEntry key entry s)

/-- An item of a pull; `none` is a protocol error, which leaves the state as it is. -/
def applyPullItem (settings : Settings K V) (localDevice : D) (x : Item K D (Content V))
    (s : AgentState K V) : Option (AgentState K V) :=
  if invalid settings x.key x.content.value x.content.deleted then none
  else
    let entry := entryOrDefault s x.key
    if x.origin = localDevice then
      let unchanged := entry.value = x.content.value ∧ entry.deleted = x.content.deleted
      some (setEntry x.key
        { entry with
          version := max entry.version x.version
          dirty := if unchanged then false else entry.dirty } s)
    else if entry.dirty then
      some (setEntry x.key { entry with version := max entry.version x.version } s)
    else
      some (setPreference settings x.key x.content.value x.content.deleted
        (setEntry x.key
          { entry with
            value := x.content.value
            deleted := x.content.deleted
            version := x.version } s))

/-- The items in order, up to the first that is refused; the flag says that there is none. -/
def applyPullItems (settings : Settings K V) (localDevice : D) :
    List (Item K D (Content V)) → AgentState K V → AgentState K V × Bool
  | [], s => (s, true)
  | x :: items, s =>
    match applyPullItem settings localDevice x s with
    | some t => applyPullItems settings localDevice items t
    | none => (s, false)

/-- A forced resync marks the entries of settings that the answer does not name. -/
def markMissing (settings : Settings K V) (remoteKeys : List K) (s : AgentState K V) :
    AgentState K V :=
  { s with
    syncEntries := s.syncEntries.map (fun k e =>
      if settings.hasSpec k ∧ k ∉ remoteKeys then { e with dirty := true } else e) }

/-- The answer of a pull. The revision is cleared before a forced resync, which is seen only if an
item is refused. -/
def applyPull (settings : Settings K V) (localDevice : D) (items : List (Item K D (Content V)))
    (resync : Bool) (revision : ℕ) (s : AgentState K V) : AgentState K V × Bool :=
  let marked := if resync then markMissing settings (items.map Item.key) s else s
  let t := (applyPullItems settings localDevice items marked).1
  if (applyPullItems settings localDevice items marked).2 then
    ({ t with revision := revision, syncPulled := true }, true)
  else (if resync then { t with revision := 0 } else t, false)

def sentEntries (s : AgentState K V) : List (K × SentEntry V) :=
  (s.syncEntries.toList.filter (fun p => p.2.dirty)).map
    (fun p => (p.1, ⟨p.2.value,p.2.deleted,p.2.version⟩))

def confirmEntry (s : AgentState K V) (p : K × SentEntry V) : AgentState K V :=
  { s with
    syncEntries := s.syncEntries.modify p.1 (fun e =>
      if e.value = p.2.value ∧ e.deleted = p.2.deleted ∧ e.version = p.2.version then
        { e with dirty := false }
      else e) }

/-- The reply of a push moves the revision wherever it was. -/
def confirmPushed (sent : List (K × SentEntry V)) (revision : ℕ) (s : AgentState K V) :
    AgentState K V :=
  { sent.foldl confirmEntry s with revision := revision }

end Operations

/-! ## The agent as a replica -/

def contents (sent : List (K × SentEntry V)) : List (K × Content V) :=
  sent.map (fun p => (p.1, ⟨p.2.value,p.2.deleted⟩))

omit [Ord K] in
theorem contents_keys (sent : List (K × SentEntry V)) :
    (contents sent).map Prod.fst = sent.map Prod.fst := by
  simp [contents, Function.comp_def]

def view (s : AgentState K V) : Replica K (Content V) where
  cursor := s.revision
  dirty k := ∃ e, s.syncEntries[k]? = some e ∧ e.dirty = true
  agrees k c := ∃ e, s.syncEntries[k]? = some e ∧ e.value = c.value ∧ e.deleted = c.deleted

@[simp] theorem setPreference_syncEntries (settings : Settings K V) (key : K) (value : V)
    (deleted : Bool) (s : AgentState K V) :
    (setPreference settings key value deleted s).syncEntries = s.syncEntries := by
  unfold setPreference
  split <;> rfl

@[simp] theorem setPreference_revision (settings : Settings K V) (key : K) (value : V)
    (deleted : Bool) (s : AgentState K V) :
    (setPreference settings key value deleted s).revision = s.revision := by
  unfold setPreference
  split <;> rfl

@[simp] theorem view_setPreference (settings : Settings K V) (key : K) (value : V)
    (deleted : Bool) (s : AgentState K V) :
    view (setPreference settings key value deleted s) = view s := by
  simp [view]

section Default
variable [Inhabited V]

theorem entryOrDefault_of_dirty {s : AgentState K V} {k : K} (h : (view s).dirty k) :
    (entryOrDefault s k).dirty = true := by
  obtain ⟨e,he,hd⟩ := h
  simp [entryOrDefault, he, hd]

theorem entryOrDefault_of_agrees {s : AgentState K V} {k : K} {c : Content V}
    (h : (view s).agrees k c) :
    (entryOrDefault s k).value = c.value ∧ (entryOrDefault s k).deleted = c.deleted := by
  obtain ⟨e,he,hc⟩ := h
  simpa [entryOrDefault, he] using hc

end Default

variable [TransOrd K] [LawfulEqOrd K]

variable {s : AgentState K V} {entry : PersistedSyncEntry V}

theorem mem_sentEntries {p : K × SentEntry V} :
    p ∈ sentEntries s ↔ s.syncEntries[p.1]? = some ⟨p.2.value,p.2.version,true,p.2.deleted⟩ := by
  obtain ⟨k,value,deleted,version⟩ := p
  simp only [sentEntries, mem_map, mem_filter, Prod.exists,
    TreeMap.mem_toList_iff_getElem?_eq_some, Prod.mk.injEq, SentEntry.mk.injEq]
  constructor
  · rintro ⟨j,⟨v,n,dirty,del⟩,⟨hget,hd⟩,rfl,rfl,rfl,rfl⟩
    cases hd
    exact hget
  · intro hget
    exact ⟨k,_,⟨hget,rfl⟩,rfl,rfl,rfl,rfl⟩

theorem sends_sentEntries (s : AgentState K V) : Sends (view s) (contents (sentEntries s)) := by
  refine ⟨?_,fun p hp => ?_⟩
  · have hkeys : (s.syncEntries.toList.map Prod.fst).Nodup := by
      rw [TreeMap.map_fst_toList_eq_keys]
      exact TreeMap.nodup_keys
    rw [contents_keys, sentEntries, map_map]
    exact (filter_sublist.map Prod.fst).nodup hkeys
  · obtain ⟨q,hq,rfl⟩ := mem_map.mp hp
    exact ⟨_,mem_sentEntries.mp hq,rfl⟩

variable [DecidableEq K]

theorem setEntry_get (key k : K) (entry : PersistedSyncEntry V) (s : AgentState K V) :
    (setEntry key entry s).syncEntries[k]? =
      if k = key then some entry else s.syncEntries[k]? :=
  getElem?_insert_eq _ _ _ _

theorem view_setEntry_dirty {key k : K} :
    (view (setEntry key entry s)).dirty k ↔
      if k = key then entry.dirty = true else (view s).dirty k := by
  by_cases h : k = key
  · simp [view, setEntry_get, h]
  · simp [view, setEntry_get, h]

theorem view_setEntry_agrees {key k : K} {c : Content V} :
    (view (setEntry key entry s)).agrees k c ↔
      if k = key then entry.value = c.value ∧ entry.deleted = c.deleted
      else (view s).agrees k c := by
  by_cases h : k = key
  · simp [view, setEntry_get, h]
  · simp [view, setEntry_get, h]

variable {settings : Settings K V} {localDevice : D}

theorem absorbs_setEntry {x : Item K D (Content V)}
    (h : entry.dirty = true ∨ entry.value = x.content.value ∧ entry.deleted = x.content.deleted) :
    Absorbs (view s) (view (setEntry x.key entry s)) x where
  cursor := rfl
  item := by simpa [view_setEntry_dirty, view_setEntry_agrees] using h
  others k c hk hor := by simpa [view_setEntry_dirty, view_setEntry_agrees, hk] using hor

theorem edits_markMissing (remoteKeys : List K) (s : AgentState K V) :
    Edits (view s) (view (markMissing settings remoteKeys s)) := by
  have hget : ∀ k, (markMissing settings remoteKeys s).syncEntries[k]? =
      (s.syncEntries[k]?).map (fun e =>
        if settings.hasSpec k ∧ k ∉ remoteKeys then { e with dirty := true } else e) := by
    intro k
    exact TreeMap.getElem?_map
  refine ⟨rfl,?_,?_⟩
  · rintro k ⟨e,he,hd⟩
    refine ⟨_,by rw [hget, he, Option.map_some],?_⟩
    split
    · rfl
    · exact hd
  · rintro k c _ ⟨e,he,hc⟩
    refine ⟨_,by rw [hget, he, Option.map_some],?_⟩
    split <;> exact hc

/-! ## The reply of a push -/

section Reply
variable [DecidableEq V]

theorem confirmEntry_get (s : AgentState K V) (p : K × SentEntry V) (k : K) :
    (confirmEntry s p).syncEntries[k]? = if k = p.1 then (s.syncEntries[p.1]?).map (fun e =>
      if e.value = p.2.value ∧ e.deleted = p.2.deleted ∧ e.version = p.2.version then
        { e with dirty := false } else e) else s.syncEntries[k]? :=
  getElem?_modify_eq _ _ _ _

variable {sent : List (K × SentEntry V)} {s : AgentState K V}

theorem foldl_confirmEntry_get {k : K} (hk : k ∉ sent.map Prod.fst) :
    (sent.foldl confirmEntry s).syncEntries[k]? = s.syncEntries[k]? := by
  induction sent generalizing s with
  | nil => rfl
  | cons p sent ih =>
    rw [map_cons, mem_cons, not_or] at hk
    rw [foldl_cons, ih hk.2, confirmEntry_get, if_neg hk.1]

theorem confirmEntry_held {p : K × SentEntry V}
    (hd : ∃ e, s.syncEntries[p.1]? = some e ∧ e.dirty = true) :
    ∃ e, (confirmEntry s p).syncEntries[p.1]? = some e ∧
      (e.dirty = true ∨ e.value = p.2.value ∧ e.deleted = p.2.deleted) := by
  obtain ⟨e,he,hdirty⟩ := hd
  by_cases hsame : e.value = p.2.value ∧ e.deleted = p.2.deleted ∧ e.version = p.2.version
  · exact ⟨{ e with dirty := false },by rw [confirmEntry_get, if_pos rfl, he, Option.map_some,
      if_pos hsame],.inr ⟨hsame.1,hsame.2.1⟩⟩
  · exact ⟨e,by rw [confirmEntry_get, if_pos rfl, he, Option.map_some, if_neg hsame],
      .inl hdirty⟩

theorem foldl_confirmEntry_held (hn : (sent.map Prod.fst).Nodup)
    (hd : ∀ p ∈ sent, ∃ e, s.syncEntries[p.1]? = some e ∧ e.dirty = true) :
    ∀ p ∈ sent, ∃ e, (sent.foldl confirmEntry s).syncEntries[p.1]? = some e ∧
      (e.dirty = true ∨ e.value = p.2.value ∧ e.deleted = p.2.deleted) := by
  induction sent generalizing s with
  | nil => simp
  | cons q sent ih =>
    rw [map_cons, nodup_cons] at hn
    intro p hp
    rw [foldl_cons]
    rcases mem_cons.mp hp with rfl | hp
    · rw [foldl_confirmEntry_get hn.1]
      exact confirmEntry_held (hd p (mem_cons_self ..))
    · refine ih hn.2 (fun r hr => ?_) p hp
      have hne : r.1 ≠ q.1 := fun heq => hn.1 (heq ▸ mem_map_of_mem hr)
      rw [confirmEntry_get, if_neg hne]
      exact hd r (mem_cons_of_mem _ hr)

/-- The reply cleans no entry that has changed since it was sent. -/
theorem confirms_confirmPushed (revision : ℕ) (h : Sends (view s) (contents sent)) :
    Confirms (view s) (view (confirmPushed sent revision s)) (contents sent) revision True where
  cursor := .inr ⟨trivial,rfl⟩
  kept p hp := by
    obtain ⟨q,hq,rfl⟩ := mem_map.mp hp
    have hn : (sent.map Prod.fst).Nodup := contents_keys sent ▸ h.nodup
    obtain ⟨e,he,hor⟩ := foldl_confirmEntry_held hn
      (fun r hr => h.dirty _ (mem_map_of_mem hr)) q hq
    exact hor.imp (fun hd => ⟨e,he,hd⟩) (fun ha => ⟨e,he,ha⟩)
  others k c hk hor := by
    have hget := foldl_confirmEntry_get (s := s) (contents_keys sent ▸ hk)
    exact hor.imp (fun ⟨e,he,hd⟩ => ⟨e,hget.trans he,hd⟩)
      (fun ⟨e,he,ha⟩ => ⟨e,hget.trans he,ha⟩)

end Reply

/-! ## Local changes and pulled items -/

variable [Inhabited V]

theorem edits_markLocal (key : K) (value : V) (deleted : Bool) (s : AgentState K V) :
    Edits (view s) (view (markLocal settings key value deleted s)) := by
  unfold markLocal
  split
  · exact ⟨rfl,fun _ h => h,fun _ _ _ h => h⟩
  · rw [view_setPreference]
    refine ⟨rfl,fun k hd => ?_,fun k c hclean ha => ?_⟩
    · rw [view_setEntry_dirty]
      by_cases hk : k = key
      · simp [hk]
      · simpa [hk] using hd
    · rw [view_setEntry_dirty] at hclean
      by_cases hk : k = key
      · simp [hk] at hclean
      · simpa [view_setEntry_agrees, hk] using ha

variable [DecidableEq V] [DecidableEq D]

theorem absorbs_applyPullItem {t : AgentState K V} {x : Item K D (Content V)}
    (hown : x.origin = localDevice → (view s).dirty x.key ∨ (view s).agrees x.key x.content)
    (h : applyPullItem settings localDevice x s = some t) : Absorbs (view s) (view t) x := by
  unfold applyPullItem at h
  by_cases hinv : invalid settings x.key x.content.value x.content.deleted = true
  · rw [if_pos hinv] at h
    cases h
  rw [if_neg hinv] at h
  by_cases ho : x.origin = localDevice
  · rw [if_pos ho] at h
    cases h
    refine absorbs_setEntry ?_
    rcases hown ho with hd | ha
    · by_cases hsame : (entryOrDefault s x.key).value = x.content.value ∧
          (entryOrDefault s x.key).deleted = x.content.deleted
      · exact .inr hsame
      · refine .inl ?_
        show (if _ then false else _) = true
        rw [if_neg hsame]
        exact entryOrDefault_of_dirty hd
    · exact .inr (entryOrDefault_of_agrees ha)
  rw [if_neg ho] at h
  by_cases hd : (entryOrDefault s x.key).dirty = true
  · rw [if_pos hd] at h
    cases h
    exact absorbs_setEntry (.inl hd)
  · rw [if_neg hd] at h
    cases h
    rw [view_setPreference]
    exact absorbs_setEntry (.inr ⟨rfl,rfl⟩)

/-! ## The answer of a pull -/

section Pull
variable {log : Log K D (Content V)} {delivered answer : List (Item K D (Content V))}
  {revision : ℕ}

theorem follows_applyPullItems (settings : Settings K V) {items : List (Item K D (Content V))} {s : AgentState K V}
    (hsub : ∀ x ∈ items, x ∈ answer)
    (h : Follows log localDevice delivered (view s) (.pulled answer revision)) :
    let r := applyPullItems settings localDevice items s
    Follows log localDevice delivered (view r.1) (.pulled answer revision) ∧
      (r.2 = true → ∀ x ∈ answer, (x ∈ items ∨ (view s).dirty x.key ∨
        (view s).agrees x.key x.content) → (view r.1).dirty x.key ∨
          (view r.1).agrees x.key x.content) := by
  induction items generalizing s with
  | nil => exact ⟨h,fun _ x _ hor => hor.resolve_left (not_mem_nil)⟩
  | cons x items ih =>
    rw [applyPullItems]
    cases happly : applyPullItem settings localDevice x s with
    | none => exact ⟨h,fun hf => absurd hf (by simp)⟩
    | some t =>
      have hx : x ∈ answer := hsub x (mem_cons_self ..)
      have habs := absorbs_applyPullItem (h.inPhase.held x hx) happly
      obtain ⟨hfollows,hall⟩ := ih (fun y hy => hsub y (mem_cons_of_mem _ hy))
        (h.absorb hx habs)
      refine ⟨hfollows,fun hok y hy hor => hall hok y hy ?_⟩
      rcases hor with hmem | hheld
      · rcases mem_cons.mp hmem with rfl | hmem
        · exact .inr habs.item
        · exact .inl hmem
      · exact .inr (habs.held (h.inPhase.unique y hy x hx) hheld)

/-- The answer moves the cursor if all its items are valid, and is given up otherwise. -/
theorem follows_applyPull {resync : Bool} {s : AgentState K V}
    (h : Follows log localDevice delivered (view s) (.pulled answer revision)) :
    let r := applyPull settings localDevice answer resync revision s
    Follows log localDevice (if r.2 then delivered ++ answer else delivered) (view r.1) .idle := by
  have hmarked : Follows log localDevice delivered
      (view (if resync = true then markMissing settings (answer.map Item.key) s else s))
      (.pulled answer revision) := by
    by_cases hr : resync = true
    · rw [if_pos hr]
      exact h.edit (edits_markMissing _ _)
    · rwa [if_neg hr]
  obtain ⟨hfollows,hall⟩ := follows_applyPullItems settings (fun _ hx => hx) hmarked
  unfold applyPull
  by_cases hok : (applyPullItems settings localDevice answer
      (if resync = true then markMissing settings (answer.map Item.key) s else s)).2 = true
  · simp only [hok, if_true]
    exact hfollows.advance (fun x hx => hall hok x hx (.inl hx))
  · simp only [hok]
    by_cases hr : resync = true
    · simp only [hr, if_true] at hfollows ⊢
      exact hfollows.rewind
    · simp only [hr] at hfollows ⊢
      exact hfollows.fail

end Pull

end RinaDown.AgentSync
