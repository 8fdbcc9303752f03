import RinaDown.BlobStore
import RinaDown.LabelledExecutions

/-!
# How often a blob is consumed

A call keeps the entry that it found while others remove it, so two calls of `consume` can pass
their checks for one blob. In the runs where none passes while another one has claimed the blob
it is consumed at most once. All entries and files belong to the identifier of a single `put`.
-/

namespace RinaDown.BlobConsumption

open KeyedTable LabelledExecutions BlobStore List Option

/-! ## The names of the files -/

theorem map_colon {text : List Char} (h : ':' ∉ text) :
    (text.map fun c => if c = ':' then '_' else c) = text := by
  induction text with
  | nil => rfl
  | cons c text ih =>
      rw [mem_cons, not_or] at h
      rw [map_cons, ih h.2, if_neg (Ne.symm h.1)]

theorem toList_path {p : Put} (h : ':' ∉ p.uuid.toList) :
    p.path.toList = p.kind.prefixOf.toList ++ '_' :: p.uuid.toList := by
  have hkind : ':' ∉ p.kind.prefixOf.toList := by
    cases p.kind with
    | torrent | plugin | logs => simp [BlobKind.prefixOf]
  rw [Put.path, pathForId, Put.id, String.toList_ofList, String.toList_append,
    String.toList_append, map_append, map_append, map_colon hkind, map_colon h,
    append_assoc]
  rfl

theorem kind_of_head {a b : BlobKind} {rest rest' : List Char}
    (h : a.prefixOf.toList ++ rest = b.prefixOf.toList ++ rest') : a = b := by
  have hhead := congrArg head? h
  cases a with
  | torrent => cases b with
    | torrent => rfl
    | plugin => simp [BlobKind.prefixOf] at hhead
    | logs => simp [BlobKind.prefixOf] at hhead
  | plugin => cases b with
    | torrent => simp [BlobKind.prefixOf] at hhead
    | plugin => rfl
    | logs => simp [BlobKind.prefixOf] at hhead
  | logs => cases b with
    | torrent => simp [BlobKind.prefixOf] at hhead
    | plugin => simp [BlobKind.prefixOf] at hhead
    | logs => rfl

theorem uuid_of_path {p q : Put} (hp : ':' ∉ p.uuid.toList) (hq : ':' ∉ q.uuid.toList)
    (h : p.path = q.path) : p.uuid = q.uuid := by
  have htext := congrArg String.toList h
  rw [toList_path hp, toList_path hq] at htext
  rw [kind_of_head htext] at htext
  exact String.toList_inj.1 (cons.inj (append_cancel_left htext)).2

/-! ## The invariant -/

variable {s t : State} {k : ℕ} {call : Call} {id path : String} {entry : BlobEntry}

/-- The entry is the one that a `put` made for the identifier. -/
def Backed (s : State) (id : String) (entry : BlobEntry) : Prop :=
  ∃ d ∈ s.issued, d.put.id = id ∧ d.put.kind = entry.kind ∧ d.expiresAt = entry.expiresAt ∧
    entry.path = pathForId id

def Named (s : State) (id path : String) : Prop :=
  path = pathForId id ∧ ∃ d ∈ s.issued, d.put.id = id

theorem Backed.named (h : Backed s id entry) : Named s id entry.path := by
  obtain ⟨d,hd,hid,-,-,hpath⟩ := h
  exact ⟨hpath,d,hd,hid⟩

structure Storage (s : State) : Prop where
  entries : ∀ x ∈ s.entries, Backed s x.1 x.2
  files : ∀ p ∈ s.written, ∀ bytes, s.files.lookup p.path = some bytes → bytes = p.bytes
  written : ∀ d ∈ s.issued, d.put ∈ s.written
  uuids : ∀ p ∈ s.written, p.uuid ∈ s.uuids ∧ ':' ∉ p.uuid.toList
  unique : ∀ p ∈ s.written, ∀ q ∈ s.written, p.uuid = q.uuid → p = q

/-- What a call holds is of a blob that was issued. -/
def CallOk (s : State) : Call → Prop
  | .permitting p | .inserting p => p ∈ s.written ∧ ∀ d ∈ s.issued, d.put.uuid ≠ p.uuid
  | .found _ id _ entry | .expiring id entry | .discarding id entry => Backed s id entry
  | .reading id kind entry now => Backed s id entry ∧ entry.kind = kind ∧ now < entry.expiresAt
  | .taking id kind entry now =>
      (Backed s id entry ∧ entry.kind = kind ∧ now < entry.expiresAt) ∧ id ∉ s.taken
  | .unlinking id kind entry now =>
      (Backed s id entry ∧ entry.kind = kind ∧ now < entry.expiresAt) ∧ id ∈ s.taken ∧
        id ∉ s.consumed
  | .swept rest => ∀ x ∈ rest, Named s x.1 x.2
  | .sweptFile id path rest => Named s id path ∧ ∀ x ∈ rest, Named s x.1 x.2
  | .sweeping _ | .draining _ | .scanning => True

/-- What only one call has at a time: the identifier that it drew, or the blob that it consumes. -/
inductive Claim where
  | put (uuid : String)
  | take (id : String)

def claim : Call → Option Claim
  | .permitting p | .inserting p => some (.put p.uuid)
  | .taking id _ _ _ | .unlinking id _ _ _ => some (.take id)
  | _ => none

def Claims (s : State) : Prop :=
  ∀ k call k' call' x, s.calls.lookup k = some call → s.calls.lookup k' = some call' →
    claim call = some x → claim call' = some x → k = k'

structure Tracked (s : State) : Prop where
  calls : ∀ k call, s.calls.lookup k = some call → CallOk s call
  claims : Claims s

structure Spent (s : State) : Prop where
  gone : ∀ id ∈ s.consumed, s.files.lookup (pathForId id) = none ∧ ∃ d ∈ s.issued, d.put.id = id
  taken : ∀ id ∈ s.consumed, id ∈ s.taken
  single : SingleUse s

structure Inv (s : State) : Prop where
  storage : Storage s
  tracked : Tracked s
  spent : Spent s

theorem inv_start (clock : ℕ) (files : Table String Bytes) : Inv (start clock files) where
  storage := by constructor <;> simp [start]
  tracked := by constructor <;> simp [start, Claims]
  spent := by
    constructor
    · simp [start, State.consumed]
    · simp [start, State.consumed]
    · constructor <;> simp [start, State.consumed]

/-! ## What a step may change on its own -/

theorem lookup_set (s : State) (k : ℕ) (call : Call) (k' : ℕ) :
    (s.set k call).calls.lookup k' = if k' = k then some call else s.calls.lookup k' :=
  lookup_insert k call s.calls k'

theorem lookup_drop (s : State) (k k' : ℕ) :
    (s.drop k).calls.lookup k' = if k' = k then none else s.calls.lookup k' :=
  lookup_remove k s.calls k'

theorem lookup_removeEntry (s : State) (id id' : String) :
    (s.removeEntry id).entries.lookup id' = if id' = id then none else s.entries.lookup id' :=
  lookup_remove id s.entries id'

theorem lookup_unlink (s : State) (path path' : String) :
    (s.unlink path).files.lookup path' = if path' = path then none else s.files.lookup path' :=
  lookup_remove path s.files path'

theorem Claims.set (h : Claims s)
    (hclaim : ∀ k' call' x, k' ≠ k → s.calls.lookup k' = some call' → claim call = some x →
      claim call' ≠ some x) : Claims (s.set k call) := by
  intro k₁ c₁ k₂ c₂ x h₁ h₂ hx₁ hx₂
  rw [lookup_set] at h₁ h₂
  split_ifs at h₁ h₂ with hk₁ hk₂ hk₂
  · rw [hk₁, hk₂]
  · cases h₁
    exact absurd hx₂ (hclaim k₂ c₂ x hk₂ h₂ hx₁)
  · cases h₂
    exact absurd hx₁ (hclaim k₁ c₁ x hk₁ h₁ hx₂)
  · exact h k₁ c₁ k₂ c₂ x h₁ h₂ hx₁ hx₂

theorem Claims.alone {call' : Call} (h : Claims s) (hlookup : s.calls.lookup k = some call)
    (hsame : claim call' = none ∨ claim call' = claim call) :
    ∀ k₁ call₁ x, k₁ ≠ k → s.calls.lookup k₁ = some call₁ → claim call' = some x →
      claim call₁ ≠ some x := by
  intro k₁ call₁ x hk h₁ hx hx₁
  rcases hsame with hnone | hsame
  · rw [hnone] at hx
    cases hx
  · exact hk (h k₁ call₁ k call x h₁ hlookup hx₁ (hsame ▸ hx))

theorem Tracked.set (h : Tracked s) (hcall : CallOk s call)
    (hclaim : ∀ k' call' x, k' ≠ k → s.calls.lookup k' = some call' → claim call = some x →
      claim call' ≠ some x) : Tracked (s.set k call) where
  calls := by
    intro k' call' hlookup
    rw [lookup_set] at hlookup
    split_ifs at hlookup with hk
    · cases hlookup
      exact hcall
    · exact h.calls k' call' hlookup
  claims := h.claims.set hclaim

theorem Inv.set (h : Inv s) (hcall : CallOk s call)
    (hclaim : ∀ k' call' x, k' ≠ k → s.calls.lookup k' = some call' → claim call = some x →
      claim call' ≠ some x) : Inv (s.set k call) :=
  ⟨⟨h.storage.entries,h.storage.files,h.storage.written,h.storage.uuids,h.storage.unique⟩,
    h.tracked.set hcall hclaim,⟨h.spent.gone,h.spent.taken,h.spent.single.once,h.spent.single.valid⟩⟩

theorem Inv.setSame {call' : Call} (h : Inv s) (hlookup : s.calls.lookup k = some call)
    (hcall : CallOk s call') (hsame : claim call' = none ∨ claim call' = claim call) :
    Inv (s.set k call') :=
  h.set hcall (h.tracked.claims.alone hlookup hsame)

theorem Inv.drop (h : Inv s) (k : ℕ) : Inv (s.drop k) := by
  refine ⟨⟨h.storage.entries,h.storage.files,h.storage.written,h.storage.uuids,
    h.storage.unique⟩,⟨?_,?_⟩,⟨h.spent.gone,h.spent.taken,h.spent.single.once,h.spent.single.valid⟩⟩
  · intro k' call hlookup
    rw [lookup_drop] at hlookup
    split_ifs at hlookup
    exact h.tracked.calls k' call hlookup
  · intro k₁ c₁ k₂ c₂ x h₁ h₂
    rw [lookup_drop] at h₁ h₂
    split_ifs at h₁ h₂
    exact h.tracked.claims k₁ c₁ k₂ c₂ x h₁ h₂

theorem Inv.tick (h : Inv s) (now : ℕ) : Inv { s with clock := now } :=
  ⟨⟨h.storage.entries,h.storage.files,h.storage.written,h.storage.uuids,h.storage.unique⟩,
    ⟨h.tracked.calls,h.tracked.claims⟩,⟨h.spent.gone,h.spent.taken,h.spent.single.once,h.spent.single.valid⟩⟩

theorem Inv.clear (h : Inv s) : Inv s.clear :=
  ⟨⟨by simp [State.clear],h.storage.files,h.storage.written,h.storage.uuids,h.storage.unique⟩,
    ⟨h.tracked.calls,h.tracked.claims⟩,⟨h.spent.gone,h.spent.taken,h.spent.single.once,h.spent.single.valid⟩⟩

theorem Inv.removeEntry (h : Inv s) (id : String) : Inv (s.removeEntry id) := by
  refine ⟨⟨?_,h.storage.files,h.storage.written,h.storage.uuids,h.storage.unique⟩,
    ⟨h.tracked.calls,h.tracked.claims⟩,⟨h.spent.gone,h.spent.taken,h.spent.single.once,h.spent.single.valid⟩⟩
  exact fun x hx => h.storage.entries x (mem_filter.1 hx).1

theorem Inv.unlink (h : Inv s) (path : String) : Inv (s.unlink path) := by
  refine ⟨⟨h.storage.entries,?_,h.storage.written,h.storage.uuids,h.storage.unique⟩,
    ⟨h.tracked.calls,h.tracked.claims⟩,⟨?_,h.spent.taken,h.spent.single.once,h.spent.single.valid⟩⟩
  · intro p hp bytes hlookup
    rw [lookup_unlink] at hlookup
    split_ifs at hlookup
    exact h.storage.files p hp bytes hlookup
  · intro id hid
    obtain ⟨hgone,hissued⟩ := h.spent.gone id hid
    refine ⟨?_,hissued⟩
    rw [lookup_unlink]
    split_ifs
    · rfl
    · exact hgone

theorem removeFile_eq {ok : Bool} (h : s.removeFile path ok = some t) :
    (t = s ∨ t = s.unlink path) ∧ t.files.lookup path = none := by
  rw [State.removeFile] at h
  split_ifs at h with hnone hok
  · cases h
    exact ⟨.inl rfl,isNone_iff_eq_none.1 hnone⟩
  · cases h
    exact ⟨.inr rfl,by rw [State.unlink, lookup_remove, if_pos rfl]⟩

theorem Inv.removeFile {ok : Bool} (h : Inv s) (hremove : s.removeFile path ok = some t) :
    Inv t := by
  rcases (removeFile_eq hremove).1 with rfl | rfl
  · exact h
  · exact h.unlink path

/-! ## Puts -/

variable {p q : Put}

theorem path_ne_of_fresh (h : Storage s) (hfresh : Fresh s p.uuid) (hq : q ∈ s.written) :
    q.path ≠ p.path := by
  intro heq
  have huuid := uuid_of_path (h.uuids q hq).2 hfresh.2 heq
  exact hfresh.1 (huuid ▸ (h.uuids q hq).1)

theorem lookup_write (bytes : Bytes) (path : String) :
    (s.write p bytes).files.lookup path = if path = p.path then some bytes
      else s.files.lookup path :=
  lookup_insert p.path bytes s.files path

theorem Inv.write (h : Inv s) (hfresh : Fresh s p.uuid) (bytes : Bytes) : Inv (s.write p bytes) := by
  have hstorage := h.storage
  refine ⟨⟨hstorage.entries,?_,hstorage.written,?_,hstorage.unique⟩,
    ⟨h.tracked.calls,h.tracked.claims⟩,
    ⟨?_,h.spent.taken,h.spent.single.once,h.spent.single.valid⟩⟩
  · intro q hq bytes' hlookup
    rw [lookup_write, if_neg (path_ne_of_fresh hstorage hfresh hq)] at hlookup
    exact hstorage.files q hq bytes' hlookup
  · intro q hq
    exact ⟨mem_cons_of_mem _ (hstorage.uuids q hq).1,(hstorage.uuids q hq).2⟩
  · intro id hid
    obtain ⟨hgone,d,hd,rfl⟩ := h.spent.gone id hid
    refine ⟨?_,d,hd,rfl⟩
    have hne : pathForId d.put.id ≠ p.path :=
      path_ne_of_fresh hstorage hfresh (hstorage.written d hd)
    rw [lookup_write, if_neg hne]
    exact hgone

theorem Inv.put (h : Inv s) (hfresh : Fresh s p.uuid) (k : ℕ) :
    Inv (((s.write p p.bytes).complete p).set k (.permitting p)) := by
  have hwrite := h.write hfresh p.bytes
  have hold : ∀ q ∈ s.written, q.uuid ≠ p.uuid :=
    fun q hq heq => hfresh.1 (heq ▸ (h.storage.uuids q hq).1)
  have hcomplete : Inv ((s.write p p.bytes).complete p) := by
    refine ⟨⟨hwrite.storage.entries,?_,?_,?_,?_⟩,⟨?_,hwrite.tracked.claims⟩,
      ⟨hwrite.spent.gone,hwrite.spent.taken,hwrite.spent.single.once,
        hwrite.spent.single.valid⟩⟩
    · intro q hq bytes hlookup
      rcases mem_cons.1 hq with rfl | hq
      · have hfile : (s.write q q.bytes).files.lookup q.path = some bytes := hlookup
        rw [lookup_write, if_pos rfl] at hfile
        exact (some.inj hfile).symm
      · exact hwrite.storage.files q hq bytes hlookup
    · exact fun d hd => mem_cons_of_mem _ (hwrite.storage.written d hd)
    · intro q hq
      rcases mem_cons.1 hq with rfl | hq
      · exact ⟨mem_cons_self,hfresh.2⟩
      · exact hwrite.storage.uuids q hq
    · intro q hq q' hq' heq
      rcases mem_cons.1 hq with rfl | hold₁
      · rcases mem_cons.1 hq' with rfl | hold₂
        · rfl
        · exact absurd heq.symm (hold q' hold₂)
      · rcases mem_cons.1 hq' with rfl | hold₂
        · exact absurd heq (hold q hold₁)
        · exact h.storage.unique q hold₁ q' hold₂ heq
    · intro k' call hlookup
      have hcall := hwrite.tracked.calls k' call hlookup
      cases call with
      | permitting q | inserting q => exact ⟨mem_cons_of_mem _ hcall.1,hcall.2⟩
      | _ => exact hcall
  refine hcomplete.set ⟨mem_cons_self,fun d hd => hold d.put (h.storage.written d hd)⟩ ?_
  intro k' call x _ hlookup hx hx'
  cases hx
  have hcall := h.tracked.calls k' call hlookup
  cases call with
  | permitting q | inserting q =>
      injection some.inj hx' with huuid
      exact hold q hcall.1 huuid
  | _ => cases hx'

theorem Backed.issue (h : Backed s id entry) (p : Put) : Backed (s.issue p) id entry := by
  obtain ⟨d,hd,hrest⟩ := h
  exact ⟨d,mem_cons_of_mem _ hd,hrest⟩

theorem Named.issue (h : Named s id path) (p : Put) : Named (s.issue p) id path := by
  obtain ⟨hpath,d,hd,hid⟩ := h
  exact ⟨hpath,d,mem_cons_of_mem _ hd,hid⟩

theorem CallOk.issue (h : CallOk s call)
    (hclaim : claim call ≠ some (.put p.uuid)) : CallOk (s.issue p) call := by
  have hpending : ∀ q : Put, Option.some (Claim.put q.uuid) ≠ some (.put p.uuid) →
      (q ∈ s.written ∧ ∀ d ∈ s.issued, d.put.uuid ≠ q.uuid) →
        q ∈ s.written ∧ ∀ d ∈ (s.issue p).issued, d.put.uuid ≠ q.uuid := by
    intro q hne hq
    refine ⟨hq.1,?_⟩
    intro d hd
    rcases mem_cons.1 hd with rfl | hd
    · exact fun heq => hne (congrArg (some ∘ Claim.put) heq.symm)
    · exact hq.2 d hd
  cases call with
  | permitting q => exact hpending q hclaim h
  | inserting q => exact hpending q hclaim h
  | found op id kind entry | expiring id entry | discarding id entry => exact Backed.issue h p
  | reading id kind entry now => exact ⟨Backed.issue h.1 p,h.2⟩
  | taking id kind entry now => exact ⟨⟨h.1.1.issue p,h.1.2⟩,h.2⟩
  | unlinking id kind entry now => exact ⟨⟨h.1.1.issue p,h.1.2⟩,h.2⟩
  | swept rest => exact fun x hx => (h x hx).issue p
  | sweptFile id path rest => exact ⟨h.1.issue p,fun x hx => (h.2 x hx).issue p⟩
  | sweeping now => trivial
  | draining paths => trivial
  | scanning => trivial

theorem Inv.issue (h : Inv s) (hlookup : s.calls.lookup k = some (.inserting p)) :
    Inv ((s.issue p).drop k) := by
  have hp := h.tracked.calls k _ hlookup
  have hstorage := h.storage
  have hother : ∀ k' call, k' ≠ k → s.calls.lookup k' = some call → CallOk (s.issue p) call := by
    intro k' call hk hcall
    refine (h.tracked.calls k' call hcall).issue fun hclaim => hk ?_
    exact h.tracked.claims k' call k _ _ hcall hlookup hclaim rfl
  refine ⟨⟨?_,hstorage.files,?_,hstorage.uuids,hstorage.unique⟩,⟨?_,?_⟩,
    ⟨?_,h.spent.taken,h.spent.single.once,?_⟩⟩
  · intro x hx
    rcases mem_cons.1 hx with rfl | hx
    · exact ⟨⟨p,s.clock + BLOB_TTL⟩,mem_cons_self,rfl,rfl,rfl,rfl⟩
    · exact Backed.issue (hstorage.entries x (mem_filter.1 hx).1) p
  · intro d hd
    rcases mem_cons.1 hd with rfl | hd
    · exact hp.1
    · exact hstorage.written d hd
  · intro k' call hcall
    rw [lookup_drop] at hcall
    split_ifs at hcall with hk
    exact hother k' call hk hcall
  · exact (h.drop k).tracked.claims
  · intro id hid
    obtain ⟨hgone,d,hd,hid'⟩ := h.spent.gone id hid
    exact ⟨hgone,d,mem_cons_of_mem _ hd,hid'⟩
  · intro r hr
    obtain ⟨d,hd,hrest⟩ := h.spent.single.valid r hr
    exact ⟨d,mem_cons_of_mem _ hd,hrest⟩

/-! ## Reads and consumptions -/

variable {kind : BlobKind} {now : ℕ} {bytes : Bytes}

/-- What a call that has passed its check knows of its blob. -/
def Checked (s : State) (id : String) (kind : BlobKind) (entry : BlobEntry) (now : ℕ) : Prop :=
  Backed s id entry ∧ entry.kind = kind ∧ now < entry.expiresAt

theorem Checked.issued (h : Checked s id kind entry now) :
    entry.path = pathForId id ∧ ∃ d ∈ s.issued, d.put.id = id ∧ d.put.kind = kind ∧
      now < d.expiresAt := by
  obtain ⟨⟨d,hd,hid,hkind,hexpires,hpath⟩,hentry,hnow⟩ := h
  exact ⟨hpath,d,hd,hid,hkind.trans hentry,hexpires ▸ hnow⟩

theorem Inv.readOk (h : Inv s) (hchecked : Checked s id kind entry now)
    (hfile : s.files.lookup entry.path = some bytes) : Inv (s.readOk id kind bytes now) := by
  obtain ⟨hpath,d,hd,rfl,hkind,hnow⟩ := hchecked.issued
  have hconsumed : (s.readOk d.put.id kind bytes now).consumed = s.consumed := by
    simp [State.readOk, State.consumed]
  have hcalls : ∀ call, CallOk s call → CallOk (s.readOk d.put.id kind bytes now) call := by
    intro call hcall
    cases call with
    | unlinking id kind entry now => exact ⟨hcall.1,hcall.2.1,hconsumed ▸ hcall.2.2⟩
    | _ => exact hcall
  rw [hpath] at hfile
  refine ⟨⟨h.storage.entries,h.storage.files,h.storage.written,h.storage.uuids,
    h.storage.unique⟩,⟨fun k call hlookup => hcalls call (h.tracked.calls k call hlookup),
    h.tracked.claims⟩,⟨?_,?_,?_,?_⟩⟩
  · rw [hconsumed]
    exact h.spent.gone
  · rw [hconsumed]
    exact h.spent.taken
  · rw [hconsumed]
    exact h.spent.single.once
  · intro r hr
    rcases mem_cons.1 hr with rfl | hr
    · refine ⟨d,hd,rfl,hkind,hnow,?_,fun _ => ?_⟩
      · -- The file is there, and the files of what was consumed are not.
        intro hspent
        rw [(h.spent.gone d.put.id hspent).1] at hfile
        cases hfile
      · exact h.storage.files d.put (h.storage.written d hd) bytes hfile
    · exact h.spent.single.valid r hr

theorem Inv.take (h : Inv s) (hlookup : s.calls.lookup k = some (.taking id kind entry now)) :
    Inv ((s.take id).set k (.unlinking id kind entry now)) := by
  have hremoved := h.removeEntry id
  obtain ⟨hchecked,huntaken⟩ := h.tracked.calls k _ hlookup
  have hunspent : id ∉ s.consumed := fun hid => huntaken (h.spent.taken id hid)
  refine ⟨⟨hremoved.storage.entries,h.storage.files,h.storage.written,h.storage.uuids,
    h.storage.unique⟩,⟨?_,?_⟩,⟨h.spent.gone,?_,h.spent.single.once,h.spent.single.valid⟩⟩
  · intro k' call hcall
    rw [lookup_set] at hcall
    split_ifs at hcall with hk
    · cases hcall
      exact ⟨hchecked,mem_cons_self,hunspent⟩
    · have hbefore := h.tracked.calls k' call hcall
      cases call with
      | taking id' kind' entry' now' =>
          refine ⟨hbefore.1,fun hmem => ?_⟩
          rcases mem_cons.1 hmem with rfl | hmem
          · exact hk (h.tracked.claims k' _ k _ _ hcall hlookup rfl rfl)
          · exact hbefore.2 hmem
      | unlinking id' kind' entry' now' =>
          exact ⟨hbefore.1,mem_cons_of_mem _ hbefore.2.1,hbefore.2.2⟩
      | _ => exact hbefore
  · exact Claims.set h.tracked.claims (h.tracked.claims.alone hlookup (.inr rfl))
  · exact fun id' hid' => mem_cons_of_mem _ (h.spent.taken id' hid')

theorem Inv.consumeOk (h : Inv s)
    (hlookup : s.calls.lookup k = some (.unlinking id kind entry now))
    (hfile : s.files.lookup entry.path = none) : Inv ((s.consumeOk id kind now).drop k) := by
  obtain ⟨hchecked,htaken,hunspent⟩ := h.tracked.calls k _ hlookup
  obtain ⟨hpath,d,hd,rfl,hkind,hnow⟩ := Checked.issued hchecked
  have hconsumed : ((s.consumeOk d.put.id kind now).drop k).consumed = d.put.id :: s.consumed := by
    simp [State.consumeOk, State.drop, State.consumed]
  refine ⟨⟨h.storage.entries,h.storage.files,h.storage.written,h.storage.uuids,
    h.storage.unique⟩,⟨?_,(h.drop k).tracked.claims⟩,⟨?_,?_,?_,?_⟩⟩
  · intro k' call hcall
    rw [lookup_drop] at hcall
    split_ifs at hcall with hk
    have hbefore := h.tracked.calls k' call hcall
    cases call with
    | unlinking id' kind' entry' now' =>
        refine ⟨hbefore.1,hbefore.2.1,fun hmem => ?_⟩
        rw [hconsumed] at hmem
        rcases mem_cons.1 hmem with rfl | hmem
        · exact hk (h.tracked.claims k' _ k _ _ hcall hlookup rfl rfl)
        · exact hbefore.2.2 hmem
    | _ => exact hbefore
  · intro id hid
    rw [hconsumed] at hid
    rcases mem_cons.1 hid with rfl | hid
    · exact ⟨hpath ▸ hfile,d,hd,rfl⟩
    · exact h.spent.gone id hid
  · intro id hid
    rw [hconsumed] at hid
    rcases mem_cons.1 hid with rfl | hid
    · exact htaken
    · exact h.spent.taken id hid
  · rw [hconsumed]
    exact nodup_cons.2 ⟨hunspent,h.spent.single.once⟩
  · intro r hr
    rcases mem_cons.1 hr with rfl | hr
    · exact ⟨d,hd,rfl,hkind,hnow,hunspent,fun hop => by cases hop⟩
    · exact h.spent.single.valid r hr

/-! ## The runs -/

theorem Inv.checkEntry {op : Op} (h : Inv s)
    (hlookup : s.calls.lookup k = some (.found op id kind entry))
    (hclaim : op = .consume → Passes s id kind entry → Unclaimed s id) :
    Inv (checkEntry s k op id kind entry) := by
  have hbacked : Backed s id entry := h.tracked.calls k _ hlookup
  unfold BlobStore.checkEntry
  split_ifs with hwrong hexpired
  · exact h.drop k
  · exact h.setSame hlookup hbacked (.inl rfl)
  · rw [not_or, not_not, Bool.not_eq_false] at hwrong
    have hchecked : Checked s id kind entry s.clock :=
      ⟨hbacked,hwrong.1,Nat.lt_of_not_le hexpired⟩
    cases op with
    | read => exact h.setSame hlookup hchecked (.inl rfl)
    | consume =>
        obtain ⟨huntaken,hnone⟩ :=
          hclaim rfl ⟨hwrong.1,hwrong.2,Nat.lt_of_not_le hexpired⟩
        refine h.set ⟨hchecked,huntaken⟩ ?_
        intro k' call x _ hcall hx hx'
        cases hx
        have hbefore := h.tracked.calls k' call hcall
        cases call with
        | taking id' kind' entry' now' =>
            injection some.inj hx' with hid
            exact hnone _ (mem_of_lookup hcall) (congrArg some hid)
        | unlinking id' kind' entry' now' =>
            injection some.inj hx' with hid
            exact huntaken (hid ▸ hbefore.2.1)
        | _ => cases hx'

theorem callStep_inv {label : Label} (h : Inv s) (hcareful : Careful s label)
    (hlookup : s.calls.lookup label.handle = some call)
    (hstep : callStep s label.handle call label = some t) : Inv t := by
  have hcall := h.tracked.calls label.handle call hlookup
  unfold callStep at hstep
  split at hstep
  · rename_i p k ok
    split_ifs at hstep
    · cases hstep
      exact h.setSame hlookup hcall (.inr rfl)
    · cases hstep
      exact h.drop k
  · cases hstep
    exact h.issue hlookup
  · rename_i op id kind entry k
    cases hstep
    refine h.checkEntry hlookup ?_
    rintro rfl hpasses
    unfold Careful at hcareful
    rw [hlookup] at hcareful
    exact hcareful hpasses
  · rename_i id entry k
    cases hstep
    exact (h.removeEntry id).setSame hlookup hcall (.inl rfl)
  · rename_i id entry k ok
    cases hstep
    refine Inv.drop ?_ k
    cases hremove : s.removeFile entry.path ok with
    | none => exact h
    | some u => exact h.removeFile hremove
  · rename_i id kind entry now k ok
    split at hstep
    · rename_i bytes hfile
      split_ifs at hstep
      · cases hstep
        exact (h.readOk hcall hfile).drop k
      · cases hstep
        exact h.drop k
    · cases hstep
      exact h.drop k
  · cases hstep
    exact h.take hlookup
  · rename_i id kind entry now k ok
    split at hstep
    · rename_i u hremove
      cases hstep
      obtain ⟨hu,hgone⟩ := removeFile_eq hremove
      refine (h.removeFile hremove).consumeOk ?_ hgone
      rcases hu with rfl | rfl
      · exact hlookup
      · exact hlookup
    · cases hstep
      exact h.drop k
  · rename_i now k expired
    split_ifs at hstep with hperm
    cases hstep
    refine h.setSame hlookup ?_ (.inl rfl)
    intro x hx
    obtain ⟨e,he,rfl⟩ := mem_map.1 hx
    exact (h.storage.entries e (mem_filter.1 (hperm.mem_iff.1 he)).1).named
  · rename_i k
    cases hstep
    exact h.drop k
  · rename_i id path rest k
    cases hstep
    refine (h.removeEntry id).setSame hlookup ?_ (.inl rfl)
    exact ⟨hcall _ mem_cons_self,fun x hx => hcall x (mem_cons_of_mem _ hx)⟩
  · rename_i id path rest k ok
    split at hstep
    · rename_i u hremove
      cases hstep
      rcases (removeFile_eq hremove).1 with rfl | rfl
      · exact h.setSame hlookup hcall.2 (.inl rfl)
      · exact (h.unlink path).setSame hlookup hcall.2 (.inl rfl)
    · cases hstep
      exact h.drop k
  · cases hstep
    exact h.setSame hlookup trivial (.inl rfl)
  · rename_i path rest k ok
    split at hstep
    · rename_i u hremove
      cases hstep
      exact (h.removeFile hremove).set trivial (fun _ _ x _ _ hx => by cases hx)
    · cases hstep
      exact h.drop k
  · rename_i k path ok
    split_ifs at hstep
    · cases hstep
      exact h.unlink path
    · cases hstep
      exact h.drop k
  · rename_i k
    cases hstep
    exact h.drop k
  · cases hstep

theorem step_inv (s : State) (label : Label) (t : State) (h : Inv s) (hcareful : Careful s label)
    (hstep : step s label = some t) : Inv t := by
  unfold step at hstep
  split at hstep
  · rename_i now
    cases hstep
    exact h.tick now
  · rename_i p n
    split_ifs at hstep with hfresh
    cases hstep
    exact h.write hfresh _
  · rename_i k p
    split_ifs at hstep with hfresh
    cases hstep
    exact h.put hfresh.1 k
  · rename_i k op id kind
    split_ifs at hstep with hfree
    split at hstep
    · cases hstep
      exact h
    · rename_i entry hentry
      cases hstep
      exact h.set (h.storage.entries (id, entry) (mem_of_lookup hentry))
        (fun _ _ x _ _ hx => by cases hx)
  · rename_i k
    split_ifs at hstep
    cases hstep
    exact h.set trivial (fun _ _ x _ _ hx => by cases hx)
  · rename_i k drained
    split_ifs at hstep
    cases hstep
    exact h.clear.set trivial (fun _ _ x _ _ hx => by cases hx)
  · split at hstep
    · rename_i call hlookup
      exact callStep_inv h hcareful hlookup hstep
    · cases hstep

/-! ## The other blobs -/

/-- The step has not touched the entry and the file of any other identifier. -/
def Apart (s t : State) (id : String) : Prop :=
  ∀ p ∈ s.written, p.id ≠ id →
    t.entries.lookup p.id = s.entries.lookup p.id ∧ t.files.lookup p.path = s.files.lookup p.path

theorem apart_of_eq (hentries : t.entries = s.entries) (hfiles : t.files = s.files) (id : String) :
    Apart s t id := by
  intro p _ _
  rw [hentries, hfiles]
  exact ⟨rfl,rfl⟩

theorem apart_removeEntry (s : State) (id : String) : Apart s (s.removeEntry id) id := by
  intro p _ hne
  exact ⟨by rw [lookup_removeEntry, if_neg hne],rfl⟩

theorem path_ne_of_named (h : Storage s) (hnamed : Named s id path) (hp : p ∈ s.written)
    (hne : p.id ≠ id) : p.path ≠ path := by
  obtain ⟨rfl,d,hd,rfl⟩ := hnamed
  intro heq
  have hd' := h.written d hd
  have huuid := uuid_of_path (h.uuids p hp).2 (h.uuids d.put hd').2 heq
  exact hne (congrArg Put.id (h.unique p hp d.put hd' huuid))

theorem apart_unlink (h : Storage s) (hnamed : Named s id path) : Apart s (s.unlink path) id := by
  intro p hp hne
  exact ⟨rfl,by rw [lookup_unlink, if_neg (path_ne_of_named h hnamed hp hne)]⟩

theorem apart_removeFile {ok : Bool} (h : Storage s) (hnamed : Named s id path)
    (hremove : s.removeFile path ok = some t) : Apart s t id := by
  rcases (removeFile_eq hremove).1 with rfl | rfl
  · exact apart_of_eq rfl rfl id
  · exact apart_unlink h hnamed

theorem callStep_apart {label : Label} (h : Inv s)
    (hlookup : s.calls.lookup label.handle = some call)
    (hstep : callStep s label.handle call label = some t) (htarget : call.target = some id) :
    Apart s t id := by
  have hcall := h.tracked.calls label.handle call hlookup
  unfold callStep at hstep
  split at hstep
  · split_ifs at hstep
    · cases hstep
      exact apart_of_eq rfl rfl id
    · cases hstep
      exact apart_of_eq rfl rfl id
  · rename_i p k
    cases hstep
    cases htarget
    intro q _ hne
    refine ⟨?_,rfl⟩
    show (KeyedTable.insert p.id _ s.entries).lookup q.id = _
    rw [lookup_insert, if_neg hne]
  · cases hstep
    unfold BlobStore.checkEntry
    split_ifs
    · exact apart_of_eq rfl rfl id
    · exact apart_of_eq rfl rfl id
    · split
      · exact apart_of_eq rfl rfl id
      · exact apart_of_eq rfl rfl id
  · rename_i id entry k
    cases hstep
    cases htarget
    exact apart_removeEntry s id
  · rename_i id entry k ok
    cases hstep
    cases htarget
    cases hremove : s.removeFile entry.path ok with
    | none => exact apart_of_eq rfl rfl id
    | some u =>
        have happart : Apart s u id := apart_removeFile h.storage (Backed.named hcall) hremove
        exact happart
  · split at hstep
    · split_ifs at hstep
      · cases hstep
        exact apart_of_eq rfl rfl id
      · cases hstep
        exact apart_of_eq rfl rfl id
    · cases hstep
      exact apart_of_eq rfl rfl id
  · rename_i id kind entry now k
    cases hstep
    cases htarget
    exact apart_removeEntry s id
  · rename_i id kind entry now k ok
    cases htarget
    split at hstep
    · rename_i u hremove
      cases hstep
      have happart : Apart s u id := apart_removeFile h.storage (Backed.named hcall.1.1) hremove
      exact happart
    · cases hstep
      exact apart_of_eq rfl rfl id
  · cases htarget
  · cases htarget
  · rename_i id path rest k
    cases hstep
    cases htarget
    exact apart_removeEntry s id
  · rename_i id path rest k ok
    cases htarget
    split at hstep
    · rename_i u hremove
      cases hstep
      have happart : Apart s u id := apart_removeFile h.storage hcall.1 hremove
      exact happart
    · cases hstep
      exact apart_of_eq rfl rfl id
  · cases htarget
  · cases htarget
  · cases htarget
  · cases htarget
  · cases hstep

theorem apart_write (h : Storage s) (hfresh : Fresh s p.uuid) (bytes : Bytes) (id : String) :
    Apart s (s.write p bytes) id := by
  intro q hq _
  exact ⟨rfl,by rw [lookup_write, if_neg (path_ne_of_fresh h hfresh hq)]⟩

theorem apart_of_call {label : Label} (h : Inv s)
    (hstep : (match s.calls.lookup label.handle with
      | some call => callStep s label.handle call label
      | none => none) = some t)
    (htarget : (s.calls.lookup label.handle).bind Call.target = some id) : Apart s t id := by
  cases hlookup : s.calls.lookup label.handle with
  | none =>
      rw [hlookup] at htarget
      cases htarget
  | some call =>
      rw [hlookup] at hstep htarget
      exact callStep_apart h hlookup hstep htarget

theorem Inv.separate (h : Inv s) : Separate s := by
  intro label t id hstep htarget
  show Apart s t id
  cases label with
  | tick now => cases htarget
  | sweep k => cases htarget
  | cleanupAll k drained => cases htarget
  | putFails p n =>
      rw [step] at hstep
      split_ifs at hstep with hfresh
      cases hstep
      exact apart_write h.storage hfresh _ id
  | put k p =>
      rw [step] at hstep
      split_ifs at hstep with hfresh
      cases hstep
      exact apart_write h.storage hfresh.1 _ id
  | call k op id' kind =>
      rw [step] at hstep
      split_ifs at hstep
      split at hstep
      · cases hstep
        exact apart_of_eq rfl rfl id
      · cases hstep
        exact apart_of_eq rfl rfl id
  | _ => exact apart_of_call h hstep htarget

/-- In every careful run a blob is consumed at most once, only what a `put` issued is read and
consumed, with its own bytes and before it expires, and no call touches another blob. -/
theorem blobs_consumed_once {clock : ℕ} {files : Table String Bytes} {labels : List Label}
    (hcareful : Meets step Careful (start clock files) labels)
    (h : exec step (start clock files) labels = some s) : SingleUse s ∧ Separate s := by
  have hinv : Inv s := exec_invariant_of_meets step_inv (inv_start clock files) hcareful h
  exact ⟨hinv.spent.single,hinv.separate⟩

def samplePut : Put := ⟨.torrent,"7f3a",[100, 56]⟩

def sampleLabels : List Label :=
  [.put 0 samplePut, .permit 0 true, .insert 0, .call 1 .read samplePut.id .torrent, .check 1,
    .read 1 true, .call 2 .consume samplePut.id .torrent, .check 2, .take 2, .unlink 2 true,
    .call 3 .consume samplePut.id .torrent]

theorem sample_consumed_once :
    ∃ s, exec step (start 0 []) sampleLabels = some s ∧ SingleUse s ∧ Separate s := by
  have hexec : (exec step (start 0 []) sampleLabels).isSome = true := by decide +kernel
  obtain ⟨s,hs⟩ := isSome_iff_exists.1 hexec
  exact ⟨s,hs,blobs_consumed_once (by decide +kernel) hs⟩

def doubleLabels : List Label :=
  [.put 0 samplePut, .permit 0 true, .insert 0, .call 1 .consume samplePut.id .torrent,
    .call 2 .consume samplePut.id .torrent, .check 1, .check 2, .take 1, .take 2, .unlink 1 true,
    .unlink 2 true]

theorem blob_consumed_twice :
    ¬ ∀ labels s, exec step (start 0 []) labels = some s → SingleUse s := by
  intro h
  have hexec : (exec step (start 0 []) doubleLabels).any
      (fun s => decide (¬ s.consumed.Nodup)) = true := by decide +kernel
  obtain ⟨s,hs,htwice⟩ := (any_eq_true _ _).1 hexec
  exact of_decide_eq_true htwice (h doubleLabels s hs).once

end RinaDown.BlobConsumption
