import Mathlib.Data.List.Nodup
import RinaDown.RevisionLog

/-!
# The configuration sync service of the desktop application

The service compares the values of all catalog keys with a snapshot whenever a
provider reports a change, and marks the keys that differ as dirty. A push sends
the values of the dirty keys; what it clears from the dirty set it decides before
it waits for the answer. Values stand for their encodings, which are what the
service compares.
-/

namespace RinaDown.ConfigSyncService
open RevisionLog List

/-- The synced keys with how a remote value is applied to the local values. -/
structure Catalog (K V : Type*) where
  keys : List K
  apply : K → V → (K → V) → K → V
  nodup : keys.Nodup

structure Content (V : Type*) where
  value : V
  deleted : Bool
  deriving DecidableEq

/-- `listening` says that the baseline was taken, sync is enabled and the user is logged in. -/
structure Service (K V : Type*) where
  listening : Bool
  current : K → V
  snapshot : K → V
  dirty : List K
  watermark : ℕ

/-- A request to push: the keys it clears on success, what it sends, and the watermark before. -/
structure PushRequest (K V : Type*) where
  keys : List K
  items : List (K × V)
  before : ℕ
  deriving DecidableEq

variable {K V D : Type*} [DecidableEq K] [DecidableEq V]

def markDirty (keys : List K) (s : Service K V) : Service K V :=
  { s with dirty := s.dirty ∪ keys }

def changedKeys (cat : Catalog K V) (s : Service K V) : List K :=
  cat.keys.filter (fun k => s.snapshot k ≠ s.current k)

def onLocalChange (cat : Catalog K V) (s : Service K V) : Service K V :=
  if s.listening then
    markDirty (changedKeys cat s)
      { s with snapshot := fun k => if k ∈ cat.keys then s.current k else s.snapshot k }
  else s

/-- The providers take new values and notify their listeners. -/
def localChange (cat : Catalog K V) (s : Service K V) (values : K → V) : Service K V :=
  onLocalChange cat { s with current := values }

def applyItem (cat : Catalog K V) (s : Service K V) (x : Item K D (Content V)) : Service K V :=
  if x.key ∉ cat.keys ∨ x.content.deleted = true then s
  else if x.key ∈ s.dirty then s
  else if s.snapshot x.key = x.content.value then s
  else
    { s with
      snapshot := Function.update s.snapshot x.key x.content.value
      current := cat.apply x.key x.content.value s.current }

/-- The part of a pull after the answer has come. -/
def applyPull (cat : Catalog K V) (since : ℕ) (items : List (Item K D (Content V))) (resync : Bool)
    (revision : ℕ) (s : Service K V) : Service K V :=
  let t := items.foldl (applyItem cat) s
  let missing := cat.keys.filter (fun k => k ∉ items.map Item.key)
  { if since = 0 ∨ resync = true then markDirty missing t else t with watermark := revision }

def payload (cat : Catalog K V) (s : Service K V) : List (K × V) :=
  (s.dirty.filter (· ∈ cat.keys)).map (fun k => (k, s.current k))

/-- The part of a push before the wait; without a synced key nothing is sent. -/
def pushDirtyNow (cat : Catalog K V) (s : Service K V) : Service K V × Option (PushRequest K V) :=
  if s.dirty = [] then (s, none)
  else if payload cat s = [] then ({ s with dirty := [] }, none)
  else (s, some ⟨s.dirty,payload cat s,s.watermark⟩)

/-- The part of a push after the answer has come. -/
def pushReplied (request : PushRequest K V) (revision : ℕ) (s : Service K V) : Service K V :=
  { s with
    dirty := s.dirty.filter (· ∉ request.keys)
    watermark :=
      if revision = request.before + 1 ∧ s.watermark = request.before then revision
      else s.watermark }

omit [DecidableEq V] in
theorem mem_payload {cat : Catalog K V} {s : Service K V} {k : K} {v : V} :
    (k, v) ∈ payload cat s ↔ k ∈ s.dirty ∧ k ∈ cat.keys ∧ v = s.current k := by
  simp only [payload, mem_map, mem_filter, decide_eq_true_eq, Prod.mk.injEq]
  constructor
  · rintro ⟨j,⟨hd,hk⟩,rfl,rfl⟩
    exact ⟨hd,hk,rfl⟩
  · rintro ⟨hd,hk,rfl⟩
    exact ⟨k,⟨hd,hk⟩,rfl,rfl⟩

omit [DecidableEq V] in
/-- A push is sent with all dirty keys and the current values of the synced ones. -/
theorem pushDirtyNow_eq_some {cat : Catalog K V} {s : Service K V} {request : PushRequest K V}
    (h : (pushDirtyNow cat s).2 = some request) :
    request = ⟨s.dirty,payload cat s,s.watermark⟩ ∧ (pushDirtyNow cat s).1 = s := by
  by_cases hd : s.dirty = []
  · rw [pushDirtyNow, if_pos hd] at h
    cases h
  by_cases hp : payload cat s = []
  · rw [pushDirtyNow, if_neg hd, if_pos hp] at h
    cases h
  rw [pushDirtyNow, if_neg hd, if_neg hp] at h ⊢
  cases h
  exact ⟨rfl,rfl⟩

/-! ## What a local change does -/

section Changes
variable (cat : Catalog K V)

@[simp] theorem localChange_current (s : Service K V) (values : K → V) :
    (localChange cat s values).current = values := by
  unfold localChange onLocalChange
  split <;> rfl

@[simp] theorem localChange_listening (s : Service K V) (values : K → V) :
    (localChange cat s values).listening = s.listening := by
  unfold localChange onLocalChange
  split <;> rfl

@[simp] theorem localChange_watermark (s : Service K V) (values : K → V) :
    (localChange cat s values).watermark = s.watermark := by
  unfold localChange onLocalChange
  split <;> rfl

theorem localChange_snapshot {s : Service K V} (values : K → V) (h : s.listening = true) {k : K}
    (hk : k ∈ cat.keys) : (localChange cat s values).snapshot k = values k := by
  rw [localChange, onLocalChange, if_pos h]
  exact if_pos hk

theorem mem_dirty_localChange {s : Service K V} (values : K → V) {k : K} :
    k ∈ (localChange cat s values).dirty ↔
      k ∈ s.dirty ∨ s.listening = true ∧ k ∈ cat.keys ∧ s.snapshot k ≠ values k := by
  unfold localChange onLocalChange
  by_cases h : s.listening = true
  · rw [if_pos h]
    simp [markDirty, changedKeys, h]
  · rw [if_neg h]
    simp [h]

def localChanges (s : Service K V) (changes : List (K → V)) : Service K V :=
  changes.foldl (localChange cat) s

@[simp] theorem localChanges_cons (s : Service K V) (values : K → V) (changes : List (K → V)) :
    localChanges cat s (values :: changes) = localChanges cat (localChange cat s values) changes :=
  rfl

/-- A clean key is marked by the first change that gives it another value than its snapshot. -/
theorem mem_dirty_localChanges {s : Service K V} {changes : List (K → V)} {k : K}
    (hk : k ∈ cat.keys) :
    k ∈ (localChanges cat s changes).dirty ↔
      k ∈ s.dirty ∨ s.listening = true ∧ ∃ values ∈ changes, values k ≠ s.snapshot k := by
  induction changes generalizing s with
  | nil => simp [localChanges]
  | cons values changes ih =>
    rw [localChanges_cons, ih, mem_dirty_localChange, localChange_listening]
    by_cases hl : s.listening = true
    · rw [localChange_snapshot cat values hl hk]
      by_cases hv : values k = s.snapshot k
      · simp [hl, hk, hv]
      · simp [hl, hk, hv, Ne.symm hv]
    · simp [hl]

theorem localChanges_current_of_unchanged {s : Service K V} {changes : List (K → V)} {k : K}
    (h : ∀ values ∈ changes, values k = s.current k) :
    (localChanges cat s changes).current k = s.current k := by
  induction changes generalizing s with
  | nil => rfl
  | cons values changes ih =>
    have hv : values k = s.current k := h values (mem_cons_self ..)
    rw [localChanges_cons, ih, localChange_current, hv]
    intro w hw
    rw [localChange_current, hv, h w (mem_cons_of_mem _ hw)]

end Changes

/-! ## Local changes while a push is in flight -/

/-- The service after the changes made while the push was in flight and its answer; a failed
push has none. -/
def afterPush (cat : Catalog K V) (s : Service K V) (request : PushRequest K V)
    (changes : List (K → V)) : Option ℕ → Service K V
  | some revision => pushReplied request revision (localChanges cat s changes)
  | none => localChanges cat s changes

def Edited (s : Service K V) (changes : List (K → V)) (k : K) : Prop :=
  ∃ values ∈ changes, values k ≠ s.current k

instance (s : Service K V) (changes : List (K → V)) (k : K) : Decidable (Edited s changes k) :=
  inferInstanceAs (Decidable (∃ values ∈ changes, values k ≠ s.current k))

/-- Every key edited while the push was in flight is dirty afterwards, so that the next push
sends its value, or has the value that was sent. -/
def KeepsEdits (cat : Catalog K V) (s : Service K V) (request : PushRequest K V)
    (changes : List (K → V)) (reply : Option ℕ) : Prop :=
  let t := afterPush cat s request changes reply
  ∀ k ∈ cat.keys, Edited s changes k →
    (k ∈ t.dirty ∧ (k, t.current k) ∈ payload cat t) ∨ (k, t.current k) ∈ request.items

instance (cat : Catalog K V) (s : Service K V) (request : PushRequest K V)
    (changes : List (K → V)) (reply : Option ℕ) :
    Decidable (KeepsEdits cat s request changes reply) := by
  unfold KeepsEdits
  infer_instance

/-- No key of a push that succeeds is changed to another value meanwhile, and a clean key that
is edited differs from its snapshot at some point while the service listens. -/
structure Undisturbed (cat : Catalog K V) (s : Service K V) (changes : List (K → V))
    (reply : Option ℕ) : Prop where
  sent : reply.isSome = true → ∀ k ∈ cat.keys, k ∈ s.dirty →
    (localChanges cat s changes).current k = s.current k
  clean : ∀ k ∈ cat.keys, k ∉ s.dirty → Edited s changes k →
    s.listening = true ∧ ∃ values ∈ changes, values k ≠ s.snapshot k

variable {cat : Catalog K V} {s : Service K V} {changes : List (K → V)}

theorem edited_of_ne {k : K} (h : (localChanges cat s changes).current k ≠ s.current k) :
    Edited s changes k := by
  by_contra hne
  refine h (localChanges_current_of_unchanged cat ?_)
  intro values hv
  by_contra hc
  exact hne ⟨values,hv,hc⟩

/-- A service whose snapshot is what the providers hold marks every edit of a clean key. -/
theorem Undisturbed.of_synced {reply : Option ℕ} (hl : s.listening = true)
    (hs : ∀ k ∈ cat.keys, s.snapshot k = s.current k)
    (h : reply.isSome = true → ∀ k ∈ cat.keys, k ∈ s.dirty →
      (localChanges cat s changes).current k = s.current k) :
    Undisturbed cat s changes reply where
  sent := h
  clean k hk _ hedit := by
    obtain ⟨values,hv,hne⟩ := hedit
    exact ⟨hl,values,hv,by rwa [hs k hk]⟩

/-- An edit made while a push is in flight survives exactly if it is not of a key of the push,
gives back the value that was sent, or the push fails. -/
theorem edits_survive_push {request : PushRequest K V} (reply : Option ℕ)
    (hsend : (pushDirtyNow cat s).2 = some request) :
    KeepsEdits cat s request changes reply ↔ Undisturbed cat s changes reply := by
  obtain ⟨rfl,-⟩ := pushDirtyNow_eq_some hsend
  cases reply with
  | none =>
    constructor
    · intro h
      refine ⟨by simp,fun k hk hclean hedit => ?_⟩
      rcases h k hk hedit with ⟨hd,-⟩ | hp
      · exact ((mem_dirty_localChanges cat hk).mp hd).resolve_left hclean
      · exact absurd (mem_payload.mp hp).1 hclean
    · intro h k hk hedit
      have hd : k ∈ (localChanges cat s changes).dirty := by
        rw [mem_dirty_localChanges cat hk]
        by_cases hclean : k ∈ s.dirty
        · exact .inl hclean
        · exact .inr (h.clean k hk hclean hedit)
      exact .inl ⟨hd,mem_payload.mpr ⟨hd,hk,rfl⟩⟩
  | some revision =>
    have hdirty : ∀ k, k ∈ (pushReplied ⟨s.dirty,payload cat s,s.watermark⟩ revision
        (localChanges cat s changes)).dirty ↔
          k ∈ (localChanges cat s changes).dirty ∧ k ∉ s.dirty := by
      simp [pushReplied]
    constructor
    · intro h
      refine ⟨fun _ k hk hd => ?_,fun k hk hclean hedit => ?_⟩
      · by_contra hne
        rcases h k hk (edited_of_ne hne) with ⟨hmem,-⟩ | hp
        · exact ((hdirty k).mp hmem).2 hd
        · exact hne (mem_payload.mp hp).2.2
      · rcases h k hk hedit with ⟨hmem,-⟩ | hp
        · exact ((mem_dirty_localChanges cat hk).mp ((hdirty k).mp hmem).1).resolve_left hclean
        · exact absurd (mem_payload.mp hp).1 hclean
    · intro h k hk hedit
      by_cases hd : k ∈ s.dirty
      · exact .inr (mem_payload.mpr ⟨hd,hk,h.sent rfl k hk hd⟩)
      · have hmem := (hdirty k).mpr
          ⟨(mem_dirty_localChanges cat hk).mpr (.inr (h.clean k hk hd hedit)),hd⟩
        exact .inl ⟨hmem,mem_payload.mpr ⟨hmem,hk,rfl⟩⟩

def sampleCatalog : Catalog Bool ℕ where
  keys := [false, true]
  apply k v values := Function.update values k v
  nodup := by decide

def sampleService : Service Bool ℕ where
  listening := true
  current := fun k => if k then 0 else 1
  snapshot := fun k => if k then 0 else 1
  dirty := [false]
  watermark := 4

/-- The key of the push is changed to 2 before the answer, and is clean when it has come. -/
theorem edit_lost_in_flight :
    (pushDirtyNow sampleCatalog sampleService).2 = some ⟨[false],[(false, 1)],4⟩ ∧
      ¬ KeepsEdits sampleCatalog sampleService ⟨[false],[(false, 1)],4⟩
        [fun k => if k then 0 else 2] (some 5) := by
  decide

/-- A change of the other key in flight stays marked. -/
theorem edits_survive_push_sample :
    KeepsEdits sampleCatalog sampleService ⟨[false],[(false, 1)],4⟩
      [fun k => if k then 7 else 1] (some 5) := by
  have hsend : (pushDirtyNow sampleCatalog sampleService).2 = some ⟨[false],[(false, 1)],4⟩ := by
    decide
  refine (edits_survive_push (some 5) hsend).mpr (.of_synced rfl (fun _ _ => rfl) ?_)
  intro _ k _ hk
  cases k with
  | false => rfl
  | true => simp [sampleService] at hk

end RinaDown.ConfigSyncService
