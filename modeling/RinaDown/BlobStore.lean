import RinaDown.KeyedTable

/-!
# The store of binary blobs

A blob is put once, may be read, and is to be consumed once. Every call takes the lock of the
index for single statements only and touches files outside of it, so that the steps below are
the sections under the lock and the operations on files, and other calls come between any two.
The identifiers of new blobs are random and never drawn twice.
-/

namespace RinaDown.BlobStore

open KeyedTable

abbrev Bytes := List UInt8

def BLOB_TTL : ℕ := 10 * 60

inductive BlobKind where
  | torrent
  | plugin
  | logs
deriving DecidableEq

def BlobKind.prefixOf : BlobKind → String
  | .torrent => "torrent"
  | .plugin => "plugin"
  | .logs => "logs"

structure BlobEntry where
  kind : BlobKind
  path : String
  expiresAt : ℕ
deriving DecidableEq

def pathForId (id : String) : String :=
  String.ofList (id.toList.map fun c => if c = ':' then '_' else c)

/-- A call of `put`, with the identifier that it draws. -/
structure Put where
  kind : BlobKind
  uuid : String
  bytes : Bytes
deriving DecidableEq

def Put.id (p : Put) : String := p.kind.prefixOf ++ ":" ++ p.uuid

def Put.path (p : Put) : String := pathForId p.id

/-- A `put` that has returned. -/
structure Issue where
  put : Put
  expiresAt : ℕ
deriving DecidableEq

inductive Op where
  | read
  | consume
deriving DecidableEq

/-- What a call will do next, with what it holds of the index. -/
inductive Call where
  | permitting (p : Put)
  | inserting (p : Put)
  | found (op : Op) (id : String) (kind : BlobKind) (entry : BlobEntry)
  | expiring (id : String) (entry : BlobEntry)
  | discarding (id : String) (entry : BlobEntry)
  | reading (id : String) (kind : BlobKind) (entry : BlobEntry) (now : ℕ)
  | taking (id : String) (kind : BlobKind) (entry : BlobEntry) (now : ℕ)
  | unlinking (id : String) (kind : BlobKind) (entry : BlobEntry) (now : ℕ)
  | sweeping (now : ℕ)
  | swept (rest : List (String × String))
  | sweptFile (id path : String) (rest : List (String × String))
  | draining (paths : List String)
  | scanning
deriving DecidableEq

/-- A `read` or a `consume` that has returned `Ok`: the time of its check, and the blobs that had
been consumed when it returned. -/
structure Success where
  op : Op
  id : String
  kind : BlobKind
  bytes : Bytes
  now : ℕ
  consumed : List String
deriving DecidableEq

/-- `taken` are the blobs whose entries a `consume` has removed. -/
structure State where
  clock : ℕ
  entries : Table String BlobEntry
  files : Table String Bytes
  calls : Table ℕ Call
  uuids : List String
  written : List Put
  issued : List Issue
  taken : List String
  successes : List Success

/-- The directory may have files that an earlier process left. -/
def start (clock : ℕ) (files : Table String Bytes) : State where
  clock := clock
  entries := []
  files := files
  calls := []
  uuids := []
  written := []
  issued := []
  taken := []
  successes := []

namespace State

def consumed (s : State) : List String :=
  (s.successes.filter fun r => r.op = .consume).map Success.id

def set (s : State) (k : ℕ) (call : Call) : State := { s with calls := insert k call s.calls }

def drop (s : State) (k : ℕ) : State := { s with calls := remove k s.calls }

def removeEntry (s : State) (id : String) : State := { s with entries := remove id s.entries }

def unlink (s : State) (path : String) : State := { s with files := remove path s.files }

def take (s : State) (id : String) : State := { s.removeEntry id with taken := id :: s.taken }

def readOk (s : State) (id : String) (kind : BlobKind) (bytes : Bytes) (now : ℕ) : State :=
  { s with successes := ⟨.read,id,kind,bytes,now,s.consumed⟩ :: s.successes }

def consumeOk (s : State) (id : String) (kind : BlobKind) (now : ℕ) : State :=
  { s with successes := ⟨.consume,id,kind,[],now,s.consumed⟩ :: s.successes }

def write (s : State) (p : Put) (bytes : Bytes) : State :=
  { s with uuids := p.uuid :: s.uuids, files := insert p.path bytes s.files }

def complete (s : State) (p : Put) : State := { s with written := p :: s.written }

def clear (s : State) : State := { s with entries := [] }

def issue (s : State) (p : Put) : State :=
  { s with
    entries := insert p.id ⟨p.kind,p.path,s.clock + BLOB_TTL⟩ s.entries
    issued := ⟨p,s.clock + BLOB_TTL⟩ :: s.issued }

def expired (s : State) (now : ℕ) : List (String × BlobEntry) :=
  s.entries.filter fun e => e.2.expiresAt ≤ now

/-- `remove_file`, where `NotFound` counts as done and any other error does not. -/
def removeFile (s : State) (path : String) (ok : Bool) : Option State :=
  if (s.files.lookup path).isNone then some s
  else if ok then some (s.unlink path)
  else none

end State

/-- `written` and `ok` tell how a file operation ends. A `put` that fails in its first one may
leave some of the bytes. -/
inductive Label where
  | tick (now : ℕ)
  | put (k : ℕ) (p : Put)
  | putFails (p : Put) (n : ℕ)
  | permit (k : ℕ) (ok : Bool)
  | insert (k : ℕ)
  | call (k : ℕ) (op : Op) (id : String) (kind : BlobKind)
  | check (k : ℕ)
  | expire (k : ℕ)
  | discard (k : ℕ) (ok : Bool)
  | read (k : ℕ) (ok : Bool)
  | take (k : ℕ)
  | unlink (k : ℕ) (ok : Bool)
  | sweep (k : ℕ)
  | collect (k : ℕ) (expired : List (String × BlobEntry))
  | sweepEntry (k : ℕ)
  | sweepFile (k : ℕ) (ok : Bool)
  | cleanupAll (k : ℕ) (drained : List (String × BlobEntry))
  | cleanupFile (k : ℕ) (ok : Bool)
  | scan (k : ℕ) (path : String) (ok : Bool)
  | scanEnd (k : ℕ)
deriving DecidableEq

def checkEntry (s : State) (k : ℕ) (op : Op) (id : String) (kind : BlobKind) (entry : BlobEntry) :
    State :=
  if entry.kind ≠ kind ∨ kind.prefixOf.toList.isPrefixOf id.toList = false then s.drop k
  else if entry.expiresAt ≤ s.clock then s.set k (.expiring id entry)
  else
    match op with
    | .read => s.set k (.reading id kind entry s.clock)
    | .consume => s.set k (.taking id kind entry s.clock)

/-- The steps of one call, by what it will do next. -/
def callStep (s : State) (k : ℕ) : Call → Label → Option State
  | .permitting p, .permit _ ok =>
      if ok then if (s.files.lookup p.path).isSome then some (s.set k (.inserting p)) else none
      else some (s.drop k)
  | .inserting p, .insert _ => some ((s.issue p).drop k)
  | .found op id kind entry, .check _ => some (checkEntry s k op id kind entry)
  | .expiring id entry, .expire _ => some ((s.removeEntry id).set k (.discarding id entry))
  | .discarding _ entry, .discard _ ok =>
      some (((s.removeFile entry.path ok).getD s).drop k)
  | .reading id kind entry now, .read _ ok =>
      match s.files.lookup entry.path with
      | some bytes => if ok then some ((s.readOk id kind bytes now).drop k) else some (s.drop k)
      | none => some (s.drop k)
  | .taking id kind entry now, .take _ => some ((s.take id).set k (.unlinking id kind entry now))
  | .unlinking id kind entry now, .unlink _ ok =>
      match s.removeFile entry.path ok with
      | some s => some ((s.consumeOk id kind now).drop k)
      | none => some (s.drop k)
  | .sweeping now, .collect _ expired =>
      if expired.Perm (s.expired now) then
        some (s.set k (.swept (expired.map fun e => (e.1, e.2.path))))
      else none
  | .swept [], .sweepEntry _ => some (s.drop k)
  | .swept ((id, path) :: rest), .sweepEntry _ =>
      some ((s.removeEntry id).set k (.sweptFile id path rest))
  | .sweptFile _ path rest, .sweepFile _ ok =>
      match s.removeFile path ok with
      | some s => some (s.set k (.swept rest))
      | none => some (s.drop k)
  | .draining [], .cleanupFile _ _ => some (s.set k .scanning)
  | .draining (path :: rest), .cleanupFile _ ok =>
      match s.removeFile path ok with
      | some s => some (s.set k (.draining rest))
      | none => some (s.drop k)
  | .scanning, .scan _ path ok =>
      if ok = true ∧ (s.files.lookup path).isSome then some (s.unlink path) else some (s.drop k)
  | .scanning, .scanEnd _ => some (s.drop k)
  | _, _ => none

def Label.handle : Label → ℕ
  | .tick _ | .putFails _ _ => 0
  | .put k _ | .permit k _ | .insert k | .call k _ _ _ | .check k | .expire k | .discard k _
  | .read k _ | .take k | .unlink k _ | .sweep k | .collect k _ | .sweepEntry k | .sweepFile k _
  | .cleanupAll k _ | .cleanupFile k _ | .scan k _ _ | .scanEnd k => k

/-- The identifier is new and has no colon. -/
def Fresh (s : State) (uuid : String) : Prop := uuid ∉ s.uuids ∧ ':' ∉ uuid.toList

instance (s : State) (uuid : String) : Decidable (Fresh s uuid) :=
  inferInstanceAs (Decidable (_ ∧ _))

def step (s : State) (label : Label) : Option State :=
  match label with
  | .tick now => some { s with clock := now }
  | .putFails p n => if Fresh s p.uuid then some (s.write p (p.bytes.take n)) else none
  | .put k p =>
      if Fresh s p.uuid ∧ (s.calls.lookup k).isNone then
        some (((s.write p p.bytes).complete p).set k (.permitting p))
      else none
  | .call k op id kind =>
      if (s.calls.lookup k).isNone then
        match s.entries.lookup id with
        | none => some s
        | some entry => some (s.set k (.found op id kind entry))
      else none
  | .sweep k => if (s.calls.lookup k).isNone then some (s.set k (.sweeping s.clock)) else none
  | .cleanupAll k drained =>
      if (s.calls.lookup k).isNone ∧ drained.Perm s.entries then
        some (s.clear.set k (.draining (drained.map fun e => e.2.path)))
      else none
  | label =>
      match s.calls.lookup label.handle with
      | some call => callStep s label.handle call label
      | none => none

/-! ## What is asked of the runs -/

/-- No `consume` succeeds twice, and what succeeds is for a blob that was issued with that kind,
had not expired at the check and was not consumed when the call returned. -/
structure SingleUse (s : State) : Prop where
  once : s.consumed.Nodup
  valid : ∀ r ∈ s.successes, ∃ d ∈ s.issued, d.put.id = r.id ∧ d.put.kind = r.kind ∧
    r.now < d.expiresAt ∧ r.id ∉ r.consumed ∧ (r.op = .read → r.bytes = d.put.bytes)

def Call.target : Call → Option String
  | .permitting p | .inserting p => some p.id
  | .found _ id _ _ | .expiring id _ | .discarding id _ | .reading id _ _ _ | .taking id _ _ _
  | .unlinking id _ _ _ | .sweptFile id _ _ | .swept ((id, _) :: _) => some id
  | _ => none

/-- The identifier on which a step works. The steps of `cleanup_all` work on all of them. -/
def target (s : State) : Label → Option String
  | .put _ p | .putFails p _ => some p.id
  | .call _ _ id _ => some id
  | .tick _ | .sweep _ | .cleanupAll _ _ => none
  | label => (s.calls.lookup label.handle).bind Call.target

/-- A step that works on one identifier leaves the entries and the files of the others alone. -/
def Separate (s : State) : Prop :=
  ∀ label t id, step s label = some t → target s label = some id →
    ∀ p ∈ s.written, p.id ≠ id →
      t.entries.lookup p.id = s.entries.lookup p.id ∧ t.files.lookup p.path = s.files.lookup p.path

def Passes (s : State) (id : String) (kind : BlobKind) (entry : BlobEntry) : Prop :=
  entry.kind = kind ∧ kind.prefixOf.toList.isPrefixOf id.toList = true ∧ s.clock < entry.expiresAt

instance (s : State) (id : String) (kind : BlobKind) (entry : BlobEntry) :
    Decidable (Passes s id kind entry) := inferInstanceAs (Decidable (_ ∧ _ ∧ _))

def Call.takes : Call → Option String
  | .taking id _ _ _ => some id
  | _ => none

/-- No `consume` has removed the entry or has passed its check and is about to remove it. -/
def Unclaimed (s : State) (id : String) : Prop :=
  id ∉ s.taken ∧ ∀ e ∈ s.calls, e.2.takes ≠ some id

instance (s : State) (id : String) : Decidable (Unclaimed s id) :=
  inferInstanceAs (Decidable (_ ∧ _))

/-- What a `consume` passes its check for is not claimed by another one. -/
def Careful (s : State) (label : Label) : Prop :=
  match label, s.calls.lookup label.handle with
  | .check _, some (.found .consume id kind entry) =>
      Passes s id kind entry → Unclaimed s id
  | _, _ => True

instance (s : State) (label : Label) : Decidable (Careful s label) := by
  unfold Careful
  split
  · infer_instance
  · infer_instance

end RinaDown.BlobStore
