import RinaDown.LabelledExecutions

/-!
# Callbacks of clients with a low id

A call asks the server that a client with a low id connects back, and waits for the connection.
Its sender stands in a table under the low id; an inbound connection takes the sender of the id in
its first frame out of the table, and then hands itself over. A call that times out removes what
stands under its id.
-/

namespace RinaDown.Ed2kCallbacks

open LabelledExecutions Option Function List

/-- The half of a channel that a call does not hold: in the table, taken by a connection, or
gone. -/
inductive Sender where
  | table
  | connection (conn : ℕ)
  | dropped
deriving DecidableEq

inductive Result where
  | stream (conn : ℕ)
  | error (message : String)
deriving DecidableEq

inductive CallPhase where
  | sending
  | waiting
  | timedOut
  | returned (result : Result)
deriving DecidableEq

structure Call where
  lowId : UInt32
  phase : CallPhase
  sender : Sender
  stream : Option ℕ
deriving DecidableEq

inductive ConnPhase where
  | taken (call : ℕ)
  | handed (call : ℕ)
  | closed
deriving DecidableEq

/-- A connection, with whether a call was waiting for it when it looked for one. -/
structure Conn where
  lowId : Option UInt32
  phase : ConnPhase
  awaited : Bool
deriving DecidableEq

/-- The table of pending callbacks, the calls and the connections in the order in which they came,
the connections that were awaited and are lost, and the calls that removed the sender of
another. -/
structure State where
  pending : UInt32 → Option ℕ
  calls : List Call
  conns : List Conn
  lost : List ℕ
  stolen : List (ℕ × ℕ)

def emptyState : State := ⟨fun _ => none,[],[],[],[]⟩

/-- The receiver of a call is alive until the call has timed out or returned. -/
def Call.receives (call : Call) : Bool := call.phase = .sending || call.phase = .waiting

def Call.returned (call : Call) : Bool :=
  match call.phase with
  | .returned _ => true
  | _ => false

def Call.taken (call : Call) : Bool :=
  match call.sender with
  | .connection _ => true
  | _ => false

/-- No connection has been matched to the call yet. -/
def Call.isWaiting (call : Call) : Bool := call.receives && call.stream.isNone && !call.taken

def isWaitingFor (calls : List Call) (lowId : UInt32) : Bool :=
  calls.any fun call => call.lowId = lowId && call.isWaiting

/-! ## Frames -/

def protoEdonkey : UInt8 := 0xE3

def opHello : UInt8 := 0x01

def readU32 : List UInt8 → Option UInt32
  | [b₀, b₁, b₂, b₃] =>
      some (b₀.toUInt32 ||| b₁.toUInt32 <<< 8 ||| b₂.toUInt32 <<< 16 ||| b₃.toUInt32 <<< 24)
  | _ => none

/-- The id is behind the size of a hash and the hash. -/
def parseHelloClientId (protoByte opcode : UInt8) (payload : List UInt8) : Option UInt32 :=
  if protoByte ≠ protoEdonkey ∨ opcode ≠ opHello then none
  else readU32 ((payload.drop 17).take 4)

/-! ## Steps -/

def update (calls : List Call) (c : ℕ) (f : Call → Call) : List Call := calls.modify c f

def Call.drop (call : Call) : Call := { call with sender := .dropped }

def Call.result (call : Call) (result : Result) : Call := { call with phase := .returned result }

/-- The sender that stood in the table is dropped with its entry. -/
def dropSender (calls : List Call) : Option ℕ → List Call
  | none => calls
  | some c => update calls c Call.drop

inductive SendFailure where
  | noSession
  | io (message : String)

def SendFailure.message : SendFailure → String
  | .noSession => "no server session for callback"
  | .io message => message

inductive Label where
  | register (lowId : UInt32)
  | sent (call : ℕ)
  | sendFailed (call : ℕ) (failure : SendFailure)
  | timeout (call : ℕ)
  | cleanUp (call : ℕ)
  | receive (call : ℕ)
  | senderDropped (call : ℕ)
  | inbound (protoByte opcode : UInt8) (payload : List UInt8)
  | handOver (conn : ℕ)

def register (s : State) (lowId : UInt32) : State :=
  { s with
    pending := Function.update s.pending lowId (some s.calls.length)
    calls := dropSender s.calls (s.pending lowId) ++ [⟨lowId,.sending,.table,none⟩] }

/-- The entry under the id of the call is removed, whose ever it is. -/
def cleanUp (s : State) (c : ℕ) (call : Call) : State :=
  { s with
    pending := Function.update s.pending call.lowId none
    calls := update (dropSender s.calls (s.pending call.lowId)) c
      (·.result (.error "callback timed out"))
    stolen := s.stolen ++ ((s.pending call.lowId).filter (· ≠ c)).toList.map fun v => (c, v) }

def inbound (s : State) (lowId : Option UInt32) : State :=
  match lowId with
  | none => { s with conns := s.conns ++ [⟨none,.closed,false⟩] }
  | some id =>
      let awaited := isWaitingFor s.calls id
      match s.pending id with
      | none =>
          { s with
            conns := s.conns ++ [⟨some id,.closed,awaited⟩]
            lost := s.lost ++ if awaited then [s.conns.length] else [] }
      | some c =>
          { s with
            pending := Function.update s.pending id none
            calls := update s.calls c fun call => { call with sender := .connection s.conns.length }
            conns := s.conns ++ [⟨some id,.taken c,awaited⟩] }

/-- A connection whose receiver is gone is lost. -/
def handOver (s : State) (k c : ℕ) (conn : Conn) (call : Call) : State :=
  if call.receives then
    { s with
      calls := update s.calls c fun call => { call with sender := .dropped, stream := some k }
      conns := s.conns.modify k fun conn => { conn with phase := .handed c } }
  else
    { s with
      calls := update s.calls c Call.drop
      conns := s.conns.modify k fun conn => { conn with phase := .closed }
      lost := s.lost ++ if conn.awaited then [k] else [] }

def step (s : State) : Label → Option State
  | .register lowId => some (register s lowId)
  | .sent c =>
      match s.calls[c]? with
      | some call =>
          if call.phase = .sending then
            some { s with calls := update s.calls c fun call => { call with phase := .waiting } }
          else none
      | none => none
  | .sendFailed c failure =>
      match s.calls[c]? with
      | some call =>
          if call.phase = .sending then
            some { s with calls := update s.calls c (·.result (.error failure.message)) }
          else none
      | none => none
  | .timeout c =>
      match s.calls[c]? with
      | some call =>
          -- The channel is looked at first.
          if call.phase = .waiting ∧ call.stream = none ∧ call.sender ≠ .dropped then
            some { s with calls := update s.calls c fun call => { call with phase := .timedOut } }
          else none
      | none => none
  | .cleanUp c =>
      match s.calls[c]? with
      | some call => if call.phase = .timedOut then some (cleanUp s c call) else none
      | none => none
  | .receive c =>
      match s.calls[c]? with
      | some call =>
          match call.phase, call.stream with
          | .waiting, some k => some { s with calls := update s.calls c (·.result (.stream k)) }
          | _, _ => none
      | none => none
  | .senderDropped c =>
      match s.calls[c]? with
      | some call =>
          if call.phase = .waiting ∧ call.stream = none ∧ call.sender = .dropped then
            some { s with
              calls := update s.calls c (·.result (.error "callback sender dropped")) }
          else none
      | none => none
  | .inbound protoByte opcode payload =>
      some (inbound s (parseHelloClientId protoByte opcode payload))
  | .handOver k =>
      match s.conns[k]? with
      | some conn =>
          match conn.phase with
          | .taken c => (s.calls[c]?).map (handOver s k c conn)
          | _ => none
      | none => none

/-! ## What holds -/

/-- Every connection that a call waited for is handed to one, no call removed the sender of
another, and the table has no entry that no call waits for. -/
structure Served (s : State) : Prop where
  lost : s.lost = []
  stolen : s.stolen = []
  handed : ∀ (k : ℕ) (conn : Conn) (c : ℕ), s.conns[k]? = some conn → conn.phase = .handed c →
    ∃ call : Call, s.calls[c]? = some call ∧ some call.lowId = conn.lowId ∧ call.stream = some k
  table : ∀ id, s.pending id ≠ none → ∃ call ∈ s.calls, call.lowId = id ∧ call.returned = false

/-- No other call for the id has not returned; a request fails to be sent only when its call has
been served; and no call times out while a connection has its sender. -/
def Careful (s : State) : Label → Prop
  | .register lowId => ∀ call ∈ s.calls, call.lowId = lowId → call.returned = true
  | .sendFailed c _ => ∀ call ∈ s.calls[c]?, call.stream ≠ none
  | .timeout c => ∀ call ∈ s.calls[c]?, call.taken = false
  | _ => True

/-! ## The invariant -/

/-- Where the sender of a call that has not returned is. -/
inductive Placed (s : State) (c : ℕ) (call : Call) : Prop where
  | table (sender : call.sender = .table) (entry : s.pending call.lowId = some c)
  | connection {k : ℕ} {conn : Conn} (sender : call.sender = .connection k)
      (holder : s.conns[k]? = some conn) (taken : conn.phase = .taken c)
  | served (sender : call.sender = .dropped) (stream : call.stream ≠ none)
  | expired (sender : call.sender = .dropped) (phase : call.phase = .timedOut)

structure Inv (s : State) : Prop where
  lost : s.lost = []
  stolen : s.stolen = []
  handed : ∀ (k : ℕ) (conn : Conn) (c : ℕ), s.conns[k]? = some conn → conn.phase = .handed c →
    ∃ call : Call, s.calls[c]? = some call ∧ some call.lowId = conn.lowId ∧ call.stream = some k
  entry : ∀ id c, s.pending id = some c → ∃ call : Call, s.calls[c]? = some call ∧
    call.lowId = id ∧ call.sender = .table ∧ call.returned = false
  placed : ∀ (c : ℕ) (call : Call), s.calls[c]? = some call → call.returned = false →
    Placed s c call
  taken : ∀ (k : ℕ) (conn : Conn) (c : ℕ), s.conns[k]? = some conn → conn.phase = .taken c →
    ∃ call : Call, s.calls[c]? = some call ∧ call.sender = .connection k ∧
      some call.lowId = conn.lowId ∧ (call.receives = true ∨ conn.awaited = false)
  single : ∀ (c c' : ℕ) (call call' : Call), s.calls[c]? = some call → s.calls[c']? = some call' →
    call.returned = false → call'.returned = false → call.lowId = call'.lowId → c = c'
  fresh : ∀ (c : ℕ) (call : Call), s.calls[c]? = some call → call.sender ≠ .dropped →
    call.stream = none

theorem inv_emptyState : Inv emptyState where
  lost := rfl
  stolen := rfl
  handed _ _ _ h := nomatch h
  entry _ _ h := nomatch h
  placed _ _ h := nomatch h
  taken _ _ _ h := nomatch h
  single _ _ _ _ h := nomatch h
  fresh _ _ h := nomatch h

theorem Inv.served {s : State} (h : Inv s) : Served s where
  lost := h.lost
  stolen := h.stolen
  handed := h.handed
  table id hid := by
    obtain ⟨c,hc⟩ := ne_none_iff_exists'.mp hid
    obtain ⟨call,hcall,hlowId,-,hreturned⟩ := h.entry id c hc
    exact ⟨call,mem_of_getElem? hcall,hlowId,hreturned⟩

/-- A call whose receiver is gone and that has not returned has timed out. -/
theorem Call.phase_eq_timedOut {call : Call} (hreceives : ¬ call.receives)
    (hreturned : call.returned = false) : call.phase = .timedOut := by
  cases hphase : call.phase with
  | sending | waiting => simp [Call.receives, hphase] at hreceives
  | timedOut => rfl
  | returned result => simp [Call.returned, hphase] at hreturned

theorem getElem?_update (calls : List Call) (c : ℕ) (f : Call → Call) (j : ℕ) :
    (update calls c f)[j]? = calls[j]?.map fun call => if c = j then f call else call :=
  getElem?_modify f c calls j

/-- A call stays where it is as long as its entry and its connection do. -/
theorem Placed.mono {s t : State} {c : ℕ} {call : Call} (h : Placed s c call)
    (hentry : s.pending call.lowId = some c → t.pending call.lowId = some c)
    (hconn : ∀ (k : ℕ) (conn : Conn), s.conns[k]? = some conn → conn.phase = .taken c →
      t.conns[k]? = some conn) : Placed t c call := by
  cases h with
  | table hsender hown => exact .table hsender (hentry hown)
  | connection hsender hholder htaken => exact .connection hsender (hconn _ _ hholder htaken) htaken
  | served hsender hstream => exact .served hsender hstream
  | expired hsender hphase => exact .expired hsender hphase

/-- What an update of a call does not take back. -/
structure Advances (call call' : Call) : Prop where
  lowId : call'.lowId = call.lowId
  stream : ∀ k, call.stream = some k → call'.stream = some k
  returned : call'.returned = false → call.returned = false
  fresh : call'.sender ≠ .dropped → call'.stream = none

section
variable {s t : State} (h : Inv s) {c : ℕ} {call : Call} (hcall : s.calls[c]? = some call)
include h hcall

/-- A call is updated: what concerns the others stays, so it remains to say where the call is, and
what the table and the connections have of it. -/
theorem Inv.update (f : Call → Call) (hf : Advances call (f call))
    (hcalls : t.calls = update s.calls c f) (hlost : t.lost = []) (hstolen : t.stolen = [])
    (hhanded : ∀ (k : ℕ) (conn : Conn) j, t.conns[k]? = some conn → conn.phase = .handed j →
      s.conns[k]? = some conn ∨ j = c ∧ some call.lowId = conn.lowId ∧ (f call).stream = some k)
    (hentry : ∀ id j, t.pending id = some j → s.pending id = some j ∧
      (j = c → (f call).sender = .table ∧ (f call).returned = false))
    (hplaced : (f call).returned = false → Placed t c (f call))
    (hothers : ∀ j other, j ≠ c → s.calls[j]? = some other → Placed s j other → Placed t j other)
    (htaken : ∀ (k : ℕ) (conn : Conn) j, t.conns[k]? = some conn → conn.phase = .taken j →
      s.conns[k]? = some conn ∧ j ≠ c ∨ j = c ∧ (f call).sender = .connection k ∧
        some call.lowId = conn.lowId ∧ ((f call).receives = true ∨ conn.awaited = false)) :
    Inv t := by
  have hself : t.calls[c]? = some (f call) := by
    rw [hcalls, getElem?_update, hcall]
    simp
  have hrest : ∀ j, j ≠ c → t.calls[j]? = s.calls[j]? := by
    intro j hj
    rw [hcalls, getElem?_update]
    simp [hj.symm]
  obtain ⟨hlowId,hstream,hreturned,hfresh⟩ := hf
  constructor
  case lost => exact hlost
  case stolen => exact hstolen
  case handed =>
    have := h.handed
    grind
  case entry =>
    have := h.entry
    grind
  case placed =>
    have := h.placed
    grind
  case taken =>
    have := h.taken
    grind
  case single =>
    have := h.single
    grind
  case fresh =>
    have := h.fresh
    grind

/-- The sender of a call that has an entry is in the table. -/
theorem Inv.sender_of_entry (id : UInt32) (hid : s.pending id = some c) :
    call.lowId = id ∧ call.sender = .table ∧ call.returned = false := by
  obtain ⟨x,hx,hlowId⟩ := h.entry id c hid
  obtain rfl := some.inj (hcall.symm.trans hx)
  exact hlowId

theorem Inv.sender_of_taken (k : ℕ) (conn : Conn) (hk : s.conns[k]? = some conn)
    (hphase : conn.phase = .taken c) : call.sender = .connection k ∧
      some call.lowId = conn.lowId ∧ (call.receives = true ∨ conn.awaited = false) := by
  obtain ⟨x,hx,hsender⟩ := h.taken k conn c hk hphase
  obtain rfl := some.inj (hcall.symm.trans hx)
  exact hsender

theorem Inv.setPhase {phase : CallPhase} (hreturned : call.returned = false)
    (hphase : ({ call with phase } : Call).returned = false)
    (hreceives : call.taken = true → ({ call with phase } : Call).receives = true)
    (hexpired : call.phase ≠ .timedOut) :
    Inv { s with calls := Ed2kCallbacks.update s.calls c fun call => { call with phase } } := by
  have hentry := h.sender_of_entry hcall
  have htaken := h.sender_of_taken hcall
  refine h.update hcall _ ⟨rfl,fun _ hk => hk,fun _ => hreturned,h.fresh c call hcall⟩ rfl h.lost
    h.stolen (fun _ _ _ hk _ => .inl hk) ?entry (fun _ => ?placed)
    (fun j other _ _ hp => hp.mono id fun _ _ hk _ => hk) ?taken
  case entry => grind
  case placed =>
    cases h.placed c call hcall hreturned with
    | table hsender hown => exact .table hsender hown
    | connection hsender hholder htaken => exact .connection hsender hholder htaken
    | served hsender hstream => exact .served hsender hstream
    | expired _ hphase => exact absurd hphase hexpired
  case taken => grind [Call.taken]

/-- A call that has been served has no entry and no connection any more. -/
theorem Inv.result (hreturned : call.returned = false) (hstream : call.stream ≠ none)
    (result : Result) :
    Inv { s with calls := Ed2kCallbacks.update s.calls c (·.result result) } := by
  have hfresh := h.fresh c call hcall
  have hentry := h.sender_of_entry hcall
  have htaken := h.sender_of_taken hcall
  refine h.update hcall _ ⟨rfl,fun _ hk => hk,fun _ => hreturned,hfresh⟩ rfl h.lost
    h.stolen (fun _ _ _ hk _ => .inl hk) ?entry nofun
    (fun j other _ _ hp => hp.mono id fun _ _ hk _ => hk) ?taken
  case entry => grind
  case taken => grind

/-- The entry under the id of a call that has not returned is its own. -/
theorem Inv.pending_eq (hreturned : call.returned = false) {v : ℕ}
    (hv : s.pending call.lowId = some v) : v = c := by
  obtain ⟨other,hother,hlowId,-,hother'⟩ := h.entry call.lowId v hv
  exact h.single v c other call hother hcall hother' hreturned hlowId

/-- When the entry of a call is gone, those of the others are not. -/
theorem Inv.pending_erased (hreturned : call.returned = false) (id : UInt32) (j : ℕ) :
    Function.update s.pending call.lowId none id = some j ↔ s.pending id = some j ∧ j ≠ c := by
  have hown := fun v => h.pending_eq (v := v) hcall hreturned
  have hentry := h.sender_of_entry hcall id
  by_cases hid : id = call.lowId
  · subst hid
    rw [update_self]
    grind
  · rw [update_of_ne hid]
    grind

/-- Dropping the sender in the table and then returning updates the call once. -/
theorem Inv.cleanUp_calls (hreturned : call.returned = false) (result : Result) :
    Ed2kCallbacks.update (dropSender s.calls (s.pending call.lowId)) c (·.result result) =
      Ed2kCallbacks.update s.calls c fun x =>
        if s.pending call.lowId = none then x.result result else x.drop.result result := by
  cases hv : s.pending call.lowId with
  | none => rfl
  | some v =>
      obtain rfl := h.pending_eq hcall hreturned hv
      exact modify_modify_eq _ _ _ _

theorem Inv.cleanUp (hphase : call.phase = .timedOut) : Inv (cleanUp s c call) := by
  have hreturned : call.returned = false := by
    rw [Call.returned, hphase]
  have herased := h.pending_erased hcall hreturned
  have hown := fun v => h.pending_eq (v := v) hcall hreturned
  have hentry := h.sender_of_entry hcall
  have htaken := h.sender_of_taken hcall
  have hfresh := h.fresh c call hcall
  refine h.update hcall _ ?advances (h.cleanUp_calls hcall hreturned _) h.lost ?stolen
    (fun _ _ _ hk _ => .inl hk) (fun id j hid => ?entry) (fun hfalse => ?placed)
    (fun j other hj _ hp => ?others) ?taken
  case advances =>
    refine ⟨?_,?_,fun _ => hreturned,?_⟩ <;> grind [Call.result, Call.drop]
  case stolen =>
    rw [Ed2kCallbacks.cleanUp, h.stolen]
    cases hv : s.pending call.lowId with
    | none => rfl
    | some v => simp [hown v hv]
  case entry =>
    obtain ⟨hid,hj⟩ := (herased id j).mp hid
    exact ⟨hid,fun heq => absurd heq hj⟩
  case placed => grind [Call.result, Call.returned]
  case others => exact hp.mono (fun hid => (herased _ j).mpr ⟨hid,hj⟩) fun _ _ hk _ => hk
  case taken =>
    cases hv : s.pending call.lowId with
    | none => grind [Ed2kCallbacks.cleanUp, Call.result, Call.receives]
    | some v =>
        obtain rfl := hown v hv
        grind [Ed2kCallbacks.cleanUp]

theorem Inv.handOver {k : ℕ} {conn : Conn} (hconn : s.conns[k]? = some conn)
    (hphase : conn.phase = .taken c) : Inv (handOver s k c conn call) := by
  obtain ⟨hsender,hlowId,hawaited⟩ := h.sender_of_taken hcall _ _ hconn hphase
  have hstream := h.fresh c call hcall
  have hentry := h.sender_of_entry hcall
  have htaken := h.sender_of_taken hcall
  rw [Ed2kCallbacks.handOver]
  by_cases hreceives : call.receives
  · rw [if_pos hreceives]
    refine h.update hcall _ ⟨rfl,?stream,fun hr => hr,fun hne => absurd rfl hne⟩ rfl h.lost
      h.stolen ?handed ?entry (fun _ => .served rfl nofun)
      (fun j other hj _ hp => hp.mono id ?others) ?taken
    case stream => grind
    case handed => grind
    case entry => grind
    case others => grind
    case taken => grind
  · rw [if_neg hreceives]
    have hlost : conn.awaited = false := hawaited.resolve_left hreceives
    refine h.update hcall _ ⟨rfl,fun _ hk => hk,fun hr => hr,fun hne => absurd rfl hne⟩ rfl ?lost
      h.stolen ?handed ?entry
      (fun hreturned => .expired rfl (Call.phase_eq_timedOut hreceives hreturned))
      (fun j other hj _ hp => hp.mono id ?others) ?taken
    case lost => simp [h.lost, hlost]
    case handed => grind
    case entry => grind
    case others => grind
    case taken => grind

end

section
variable {s : State} (h : Inv s)
include h

theorem Inv.pending_ne_none (id : UInt32) (hwaiting : isWaitingFor s.calls id = true) :
    s.pending id ≠ none := by
  obtain ⟨call,hmem,hcall⟩ := any_eq_true.mp hwaiting
  obtain ⟨c,hc⟩ := mem_iff_getElem?.mp hmem
  have hplaced := h.placed c call hc
  grind [Call.isWaiting, Call.receives, Call.returned, Call.taken, Placed,
    isNone_iff_eq_none]

theorem Inv.receives_or (c : ℕ) (call : Call) (id : UInt32) (hcall : s.calls[c]? = some call)
    (hlowId : call.lowId = id) (hreturned : call.returned = false) :
    call.receives = true ∨ isWaitingFor s.calls id = false := by
  by_cases hwaiting : isWaitingFor s.calls id = true
  · obtain ⟨other,hmem,hother⟩ := any_eq_true.mp hwaiting
    obtain ⟨j,hj⟩ := mem_iff_getElem?.mp hmem
    have hsame := h.single c j call other hcall hj hreturned
    grind [Call.isWaiting, Call.receives, Call.returned]
  · exact .inr (Bool.not_eq_true _ ▸ hwaiting)

/-- A connection that no call is matched with changes nothing for the calls. -/
theorem Inv.closed {lost : List ℕ} (hlost : lost = []) (lowId : Option UInt32) (awaited : Bool) :
    Inv { s with conns := s.conns ++ [⟨lowId,.closed,awaited⟩], lost } := by
  have hhanded := h.handed
  have htaken := h.taken
  constructor
  case lost => exact hlost
  case stolen => exact h.stolen
  case handed => grind
  case entry => exact h.entry
  case placed =>
    intro c call hcall hreturned
    refine (h.placed c call hcall hreturned).mono id fun k x hk _ => ?_
    exact (List.getElem?_append_left (List.getElem?_eq_some_iff.mp hk).1).trans hk
  case taken => grind
  case single => exact h.single
  case fresh => exact h.fresh

theorem Inv.inbound (lowId : Option UInt32) : Inv (inbound s lowId) := by
  cases lowId with
  | none => exact h.closed h.lost _ _
  | some id =>
      rw [Ed2kCallbacks.inbound]
      cases hpending : s.pending id with
      | none =>
          refine h.closed ?_ _ _
          have hwaiting := h.pending_ne_none id
          have hlost := h.lost
          grind
      | some c =>
          obtain ⟨call,hcall,rfl,hsender,hreturned⟩ := h.entry id c hpending
          have herased := h.pending_erased hcall hreturned
          have hreceives := h.receives_or c call _ hcall rfl hreturned
          have htaken := h.sender_of_taken hcall
          refine h.update hcall _ ⟨rfl,fun _ hk => hk,fun hr => hr,?fresh⟩ rfl h.lost h.stolen
            ?handed (fun id j hid => ?entry)
            (fun _ => .connection rfl getElem?_concat_length rfl)
            (fun j other hj _ hp => ?others) ?taken
          case fresh => exact fun _ => h.fresh c call hcall (by rw [hsender]; nofun)
          case handed => grind
          case entry =>
            obtain ⟨hid,hj⟩ := (herased id j).mp hid
            exact ⟨hid,fun heq => absurd heq hj⟩
          case others =>
            refine hp.mono (fun hid => (herased _ j).mpr ⟨hid,hj⟩) fun k x hk _ => ?_
            exact (List.getElem?_append_left (List.getElem?_eq_some_iff.mp hk).1).trans hk
          case taken => grind [Call.receives]

theorem Inv.register {lowId : UInt32}
    (hnone : ∀ call ∈ s.calls, call.lowId = lowId → call.returned = true) :
    Inv (register s lowId) := by
  have hpending : s.pending lowId = none := by
    by_contra hsome
    obtain ⟨call,hmem,hid,hreturned⟩ := h.served.table lowId hsome
    rw [hnone call hmem hid] at hreturned
    cases hreturned
  rw [Ed2kCallbacks.register, hpending, dropSender]
  obtain ⟨hlost,hstolen,hhanded,hentry,hplaced,htaken,hsingle,hfresh⟩ := h
  constructor
  case lost => exact hlost
  case stolen => exact hstolen
  case handed => grind
  case entry =>
    intro id c hid
    change Function.update s.pending lowId (some s.calls.length) id = some c at hid
    by_cases hsame : id = lowId
    · subst hsame
      rw [update_self] at hid
      obtain rfl := some.inj hid
      exact ⟨_,getElem?_concat_length,rfl,rfl,rfl⟩
    · rw [update_of_ne hsame] at hid
      grind
  case placed => grind [update, Placed, Call.returned]
  case taken => grind
  case single => grind [Call.returned]
  case fresh => grind

end

theorem step_inv (s : State) (label : Label) (t : State) (h : Inv s) (hcareful : Careful s label)
    (hstep : step s label = some t) : Inv t := by
  cases label with
  | register lowId =>
      obtain rfl := some.inj hstep
      exact h.register hcareful
  | sent c =>
      simp only [step] at hstep
      split at hstep <;> try contradiction
      next call hcall =>
        split_ifs at hstep with hphase
        obtain rfl := some.inj hstep
        exact h.setPhase hcall (by simp [Call.returned, hphase]) rfl (fun _ => rfl)
          (by simp [hphase])
  | sendFailed c failure =>
      simp only [step] at hstep
      split at hstep <;> try contradiction
      next call hcall =>
        split_ifs at hstep with hphase
        obtain rfl := some.inj hstep
        exact h.result hcall (by simp [Call.returned, hphase]) (hcareful call hcall) _
  | timeout c =>
      simp only [step] at hstep
      split at hstep <;> try contradiction
      next call hcall =>
        split_ifs at hstep with hphase
        obtain rfl := some.inj hstep
        have htaken := hcareful call hcall
        exact h.setPhase hcall (by simp [Call.returned, hphase.1]) rfl
          (fun hconnection => by rw [htaken] at hconnection; cases hconnection)
          (by simp [hphase.1])
  | cleanUp c =>
      simp only [step] at hstep
      split at hstep <;> try contradiction
      next call hcall =>
        split_ifs at hstep with hphase
        obtain rfl := some.inj hstep
        exact h.cleanUp hcall hphase
  | receive c =>
      simp only [step] at hstep
      split at hstep <;> try contradiction
      next call hcall =>
        split at hstep <;> try contradiction
        next k hphase hstream =>
          obtain rfl := some.inj hstep
          exact h.result hcall (by simp [Call.returned, hphase]) (by simp [hstream]) _
  | senderDropped c =>
      simp only [step] at hstep
      split at hstep <;> try contradiction
      next call hcall =>
        split_ifs at hstep with hphase
        obtain ⟨hwaiting,hstream,hdropped⟩ := hphase
        -- The sender of a call is dropped when it has been used or the call has timed out.
        cases h.placed c call hcall (by simp [Call.returned, hwaiting]) with
        | table hsender _ => simp [hdropped] at hsender
        | connection hsender _ _ => simp [hdropped] at hsender
        | served _ hserved => exact absurd hstream hserved
        | expired _ hexpired => simp [hwaiting] at hexpired
  | inbound protoByte opcode payload =>
      obtain rfl := some.inj hstep
      exact h.inbound _
  | handOver k =>
      simp only [step] at hstep
      split at hstep <;> try contradiction
      next conn hconn =>
        split at hstep <;> try contradiction
        next c hphase =>
          obtain ⟨call,hcall,rfl⟩ := map_eq_some_iff.mp hstep
          exact h.handOver hcall hconn hphase

/-- Callbacks are served in every execution whose steps are careful. -/
theorem callbacks_served {labels : List Label} {s : State}
    (hm : Meets step Careful emptyState labels) (h : exec step emptyState labels = some s) :
    Served s :=
  (exec_invariant_of_meets step_inv inv_emptyState hm h).served

instance (s : State) (label : Label) : Decidable (Careful s label) :=
  match label with
  | .register _ => inferInstanceAs (Decidable (∀ call ∈ s.calls, _ → _))
  | .sendFailed c _ => inferInstanceAs (Decidable (∀ call ∈ s.calls[c]?, _))
  | .timeout c => inferInstanceAs (Decidable (∀ call ∈ s.calls[c]?, _))
  | .sent _ | .cleanUp _ | .receive _ | .senderDropped _ | .inbound .. | .handOver _ =>
      inferInstanceAs (Decidable True)

/-- The payload of the HELLO of a client with a low id of one byte. -/
def helloPayload (lowId : UInt8) : List UInt8 :=
  0x10 :: List.replicate 16 0 ++ [lowId, 0, 0, 0]

/-- A call is served, and the next one for the id times out. -/
def servedLabels : List Label :=
  [.register 7, .sent 0, .inbound protoEdonkey opHello (helloPayload 7), .handOver 0, .receive 0,
    .register 7, .sent 1, .timeout 1, .cleanUp 1]

theorem callbacks_served_sample :
    ∃ s ∈ exec step emptyState servedLabels, s.calls.map Call.phase =
      [.returned (.stream 0), .returned (.error "callback timed out")] ∧ Served s := by
  have hexec : (exec step emptyState servedLabels).any (fun s => decide (s.calls.map Call.phase =
      [.returned (.stream 0), .returned (.error "callback timed out")])) = true := by
    decide +kernel
  obtain ⟨s,hs,hphases⟩ := (any_eq_true _ _).mp hexec
  exact ⟨s,hs,of_decide_eq_true hphases,callbacks_served (by decide +kernel) hs⟩

/-- A second download waits for a client when the first has timed out and has not removed its
entry yet. -/
def sharedLabels : List Label :=
  [.register 7, .sent 0, .timeout 0, .register 7, .sent 1, .cleanUp 0,
    .inbound protoEdonkey opHello (helloPayload 7)]

/-- A request that cannot be sent keeps its entry. -/
def unsentLabels : List Label := [.register 7, .sendFailed 0 .noSession]

/-- The first call removes the sender of the second, the connection for the second is lost, and
a call that has returned keeps its entry. -/
theorem callbacks_lost :
    (∃ s ∈ exec step emptyState sharedLabels, s.lost = [0] ∧ s.stolen = [(0, 1)]) ∧
      ∃ s ∈ exec step emptyState unsentLabels,
        s.pending 7 = some 0 ∧ ∀ call ∈ s.calls, call.returned = true := by
  have hshared : (exec step emptyState sharedLabels).any (fun s =>
      decide (s.lost = [0] ∧ s.stolen = [(0, 1)])) = true := by
    decide +kernel
  have hunsent : (exec step emptyState unsentLabels).any (fun s =>
      decide (s.pending 7 = some 0 ∧ ∀ call ∈ s.calls, call.returned = true)) = true := by
    decide +kernel
  obtain ⟨s,hs,hlost⟩ := (any_eq_true _ _).mp hshared
  obtain ⟨t,ht,hkept⟩ := (any_eq_true _ _).mp hunsent
  exact ⟨⟨s,hs,of_decide_eq_true hlost⟩,t,ht,of_decide_eq_true hkept⟩

end RinaDown.Ed2kCallbacks
