import RinaDown.ConfigSyncService
import RinaDown.CursorReplica

/-!
# The desktop's sync service as a replica

A key is held as the log has it if its value is that of the item, if the item is a
deletion, which the service passes over, or if the catalog does not have the key.
The snapshot of a service in step with its providers is what they hold.
-/

namespace RinaDown.ConfigSyncService
open RevisionLog CursorReplica Function List

variable {K V D : Type*}

def view (cat : Catalog K V) (s : Service K V) : Replica K (Content V) where
  cursor := s.watermark
  dirty k := k ∈ s.dirty
  agrees k c := c.deleted = true ∨ k ∉ cat.keys ∨ s.current k = c.value

/-- The snapshot of a listening service is what the providers hold. -/
structure InStep (cat : Catalog K V) (s : Service K V) : Prop where
  listening : s.listening = true
  snapshot : ∀ k ∈ cat.keys, s.snapshot k = s.current k
  nodup : s.dirty.Nodup

def contents (items : List (K × V)) : List (K × Content V) :=
  items.map (fun p => (p.1, ⟨p.2,false⟩))

theorem contents_keys (items : List (K × V)) :
    (contents items).map Prod.fst = items.map Prod.fst := by
  simp [contents, comp_def]

/-- A request clears no synced key that it does not send. -/
def ClearsSent (cat : Catalog K V) (request : PushRequest K V) : Prop :=
  ∀ k ∈ request.keys, k ∈ cat.keys → k ∈ request.items.map Prod.fst

variable [DecidableEq K] {cat : Catalog K V} {s : Service K V}

theorem payload_keys : (payload cat s).map Prod.fst = s.dirty.filter (· ∈ cat.keys) := by
  simp [payload, comp_def]

theorem sends_payload (h : InStep cat s) : Sends (view cat s) (contents (payload cat s)) := by
  refine ⟨?_,fun p hp => ?_⟩
  · rw [contents_keys, payload_keys]
    exact h.nodup.filter _
  · have hk : p.1 ∈ (contents (payload cat s)).map Prod.fst := mem_map_of_mem hp
    rw [contents_keys, payload_keys] at hk
    exact (mem_filter.mp hk).1

theorem clearsSent_payload (before : ℕ) :
    ClearsSent cat ⟨s.dirty,payload cat s,before⟩ := by
  intro k hd hk
  show k ∈ (payload cat s).map Prod.fst
  rw [payload_keys]
  exact mem_filter.mpr ⟨hd,by simpa using hk⟩

theorem edits_markDirty (keys : List K) : Edits (view cat s) (view cat (markDirty keys s)) where
  cursor := rfl
  dirty _ hk := mem_union_iff.mpr (.inl hk)
  agrees _ _ _ h := h

theorem InStep.markDirty {keys : List K} (h : InStep cat s) (hn : keys.Nodup) :
    InStep cat (markDirty keys s) :=
  ⟨h.listening,h.snapshot,hn.union _⟩

theorem held_of_payload_nil (h : payload cat s = []) {k : K} {c : Content V}
    (hor : (view cat s).dirty k ∨ (view cat s).agrees k c) : (view cat s).agrees k c := by
  refine hor.elim (fun hd => .inr (.inl fun hk => ?_)) id
  have hmem : (k, s.current k) ∈ payload cat s := mem_payload.mpr ⟨hd,hk,rfl⟩
  rw [h] at hmem
  exact not_mem_nil hmem

/-! ## The reply of a push -/

/-- If the keys that were sent still have the value that was sent, clearing them loses nothing. -/
theorem confirms_pushReplied {request : PushRequest K V} (revision : ℕ)
    (hclears : ClearsSent cat request)
    (hsent : ∀ p ∈ request.items, s.current p.1 = p.2) :
    Confirms (view cat s) (view cat (pushReplied request revision s)) (contents request.items)
      revision (revision = request.before + 1) where
  cursor := by
    by_cases h : revision = request.before + 1 ∧ s.watermark = request.before
    · exact .inr ⟨h.1,if_pos h⟩
    · exact .inl (if_neg h)
  kept p hp := by
    obtain ⟨q,hq,rfl⟩ := mem_map.mp hp
    exact .inr (.inr (.inr (hsent q hq)))
  others k c hk hor := by
    rw [contents_keys] at hk
    rcases hor with hd | ha
    · by_cases hkey : k ∈ request.keys
      · exact .inr (.inr (.inl fun hcat => hk (hclears k hkey hcat)))
      · exact .inl (mem_filter.mpr ⟨hd,by simpa using hkey⟩)
    · exact .inr ha

theorem InStep.pushReplied {request : PushRequest K V} {revision : ℕ} (h : InStep cat s) :
    InStep cat (pushReplied request revision s) :=
  ⟨h.listening,h.snapshot,h.nodup.filter _⟩

variable [DecidableEq V]

theorem inStep_localChange (h : InStep cat s) (values : K → V) :
    InStep cat (localChange cat s values) where
  listening := by rw [localChange_listening, h.listening]
  snapshot k hk := by rw [localChange_snapshot cat values h.listening hk, localChange_current]
  nodup := by
    rw [localChange, onLocalChange, if_pos (by exact h.listening)]
    exact (cat.nodup.filter _).union _

theorem edits_localChange (h : InStep cat s) (values : K → V) :
    Edits (view cat s) (view cat (localChange cat s values)) where
  cursor := localChange_watermark cat s values
  dirty k hd := (mem_dirty_localChange cat values).mpr (.inl hd)
  agrees k c hclean ha := by
    rcases ha with hdel | hcat | hval
    · exact .inl hdel
    · exact .inr (.inl hcat)
    · by_cases hk : k ∈ cat.keys
      · -- a clean key of the catalog was not changed
        have hsame : s.snapshot k = values k := by
          by_contra hne
          exact hclean ((mem_dirty_localChange cat values).mpr (.inr ⟨h.listening,hk,hne⟩))
        rw [h.snapshot k hk] at hsame
        refine .inr (.inr ?_)
        show (localChange cat s values).current k = c.value
        rw [localChange_current, ← hsame, hval]
      · exact .inr (.inl hk)

/-! ## The answer of a pull -/

/-- A value is stored as it is, and no other value of the catalog changes. -/
def Stores (cat : Catalog K V) (s : Service K V) (x : Item K D (Content V)) : Prop :=
  ∀ k ∈ cat.keys, cat.apply x.key x.content.value s.current k =
    Function.update s.current x.key x.content.value k

instance (s : Service K V) (x : Item K D (Content V)) : Decidable (Stores cat s x) :=
  inferInstanceAs (Decidable (∀ k ∈ cat.keys, _ = _))

/-- Every item that is applied on the way is stored. -/
def StoresAll (cat : Catalog K V) : Service K V → List (Item K D (Content V)) → Prop
  | _, [] => True
  | s, x :: items => Stores cat s x ∧ StoresAll cat (applyItem cat s x) items

def storesAllDecidable (cat : Catalog K V) :
    (s : Service K V) → (items : List (Item K D (Content V))) → Decidable (StoresAll cat s items)
  | _, [] => isTrue trivial
  | s, x :: items =>
    have := storesAllDecidable cat (applyItem cat s x) items
    inferInstanceAs (Decidable (_ ∧ _))

instance (s : Service K V) (items : List (Item K D (Content V))) :
    Decidable (StoresAll cat s items) :=
  storesAllDecidable cat s items

theorem inStep_applyItem {x : Item K D (Content V)} (h : InStep cat s) (hstores : Stores cat s x) :
    InStep cat (applyItem cat s x) := by
  unfold applyItem
  split
  · exact h
  split
  · exact h
  split
  · exact h
  refine ⟨h.listening,fun k hk => ?_,h.nodup⟩
  show update s.snapshot x.key x.content.value k =
    cat.apply x.key x.content.value s.current k
  rw [hstores k hk]
  by_cases hkey : k = x.key
  · rw [hkey, update_self, update_self]
  · rw [update_of_ne hkey, update_of_ne hkey, h.snapshot k hk]

theorem absorbs_applyItem {x : Item K D (Content V)} (h : InStep cat s)
    (hstores : Stores cat s x) : Absorbs (view cat s) (view cat (applyItem cat s x)) x := by
  unfold applyItem
  by_cases hskip : x.key ∉ cat.keys ∨ x.content.deleted = true
  · rw [if_pos hskip]
    exact ⟨rfl,.inr (hskip.elim (fun hk => .inr (.inl hk)) .inl),fun _ _ _ hor => hor⟩
  rw [if_neg hskip]
  obtain ⟨hcat,-⟩ : x.key ∈ cat.keys ∧ x.content.deleted = false := by simpa using hskip
  by_cases hdirty : x.key ∈ s.dirty
  · rw [if_pos hdirty]
    exact ⟨rfl,.inl hdirty,fun _ _ _ hor => hor⟩
  rw [if_neg hdirty]
  by_cases hsame : s.snapshot x.key = x.content.value
  · rw [if_pos hsame]
    exact ⟨rfl,.inr (.inr (.inr ((h.snapshot _ hcat).symm.trans hsame))),fun _ _ _ hor => hor⟩
  rw [if_neg hsame]
  refine ⟨rfl,.inr (.inr (.inr ?_)),fun k c hk hor => ?_⟩
  · show cat.apply x.key x.content.value s.current x.key = x.content.value
    rw [hstores x.key hcat, update_self]
  · refine hor.imp id (fun ha => ha.imp id ?_)
    rintro (hout | hval)
    · exact .inl hout
    · by_cases hin : k ∈ cat.keys
      · refine .inr ?_
        show cat.apply x.key x.content.value s.current k = c.value
        rw [hstores k hin, update_of_ne hk, hval]
      · exact .inl hin

section Pull
variable {log : Log K D (Content V)} {d : D} {delivered answer : List (Item K D (Content V))}
  {revision : ℕ}

theorem follows_foldl_applyItem {items : List (Item K D (Content V))}
    (hsub : ∀ x ∈ items, x ∈ answer) (hin : InStep cat s) (hstores : StoresAll cat s items)
    (h : Follows log d delivered (view cat s) (.pulled answer revision)) :
    let t := items.foldl (applyItem cat) s
    InStep cat t ∧ Follows log d delivered (view cat t) (.pulled answer revision) ∧
      ∀ x ∈ answer, (x ∈ items ∨ (view cat s).dirty x.key ∨
        (view cat s).agrees x.key x.content) → (view cat t).dirty x.key ∨
          (view cat t).agrees x.key x.content := by
  induction items generalizing s with
  | nil => exact ⟨hin,h,fun x _ hor => hor.resolve_left not_mem_nil⟩
  | cons x items ih =>
    have hx : x ∈ answer := hsub x (mem_cons_self ..)
    have habs := absorbs_applyItem hin hstores.1
    obtain ⟨hin',hfollows,hall⟩ := ih (fun y hy => hsub y (mem_cons_of_mem _ hy))
      (inStep_applyItem hin hstores.1) hstores.2 (h.absorb hx habs)
    refine ⟨hin',hfollows,fun y hy hor => hall y hy ?_⟩
    rcases hor with hmem | hheld
    · rcases mem_cons.mp hmem with rfl | hmem
      · exact .inr habs.item
      · exact .inl hmem
    · exact .inr (habs.held (h.inPhase.unique y hy x hx) hheld)

theorem follows_applyPull (since : ℕ) (resync : Bool) (hin : InStep cat s)
    (hstores : StoresAll cat s answer)
    (h : Follows log d delivered (view cat s) (.pulled answer revision)) :
    let t := applyPull cat since answer resync revision s
    InStep cat t ∧ Follows log d (delivered ++ answer) (view cat t) .idle := by
  obtain ⟨hin',hfollows,hall⟩ := follows_foldl_applyItem (fun _ hx => hx) hin hstores h
  let t : Service K V := { answer.foldl (applyItem cat) s with watermark := revision }
  have ht : InStep cat t := ⟨hin'.listening,hin'.snapshot,hin'.nodup⟩
  have hadvance : Follows log d (delivered ++ answer) (view cat t) .idle :=
    hfollows.advance (fun x hx => hall x hx (.inl hx))
  unfold applyPull
  by_cases hseed : since = 0 ∨ resync = true
  · simp only [if_pos hseed]
    exact ⟨ht.markDirty (cat.nodup.filter _),hadvance.edit (edits_markDirty (s := t) _)⟩
  · simp only [if_neg hseed]
    exact ⟨ht,hadvance⟩

end Pull

end RinaDown.ConfigSyncService
