import RinaDown.EventHub

/-!
# The agent's connection to the daemon

The agent says hello, fetches a snapshot and then takes event frames, all on one
socket. The daemon subscribes the connection when it handles the hello, and then
either handles the next request or forwards the next frame. Each direction of
the socket is a queue; what the daemon publishes comes from its hub.
-/

namespace RinaDown.DaemonConnection
open DaemonProjection AgentMirror EventHub LabelledExecutions Option List

inductive Request where
  | hello
  | snapshot
  deriving DecidableEq, Repr

inductive Message (Dto : DtoKind → Type) where
  | helloResponse
  | snapshotResponse (sequence : ℕ) (snapshot : DaemonSnapshot Dto)
  | event (frame : Frame (DaemonEvent Dto))
  | close

inductive Phase where
  | disconnected
  | awaitingHello
  | awaitingSnapshot
  | connected
  /-- A message could not be read as a response. -/
  | failed
  deriving DecidableEq, Repr

/-- `cursor` is where the daemon's receiver is, `served` the snapshot it has sent with its
sequence, and `applied` are the frames that the agent has applied since. -/
structure Connection (Dto : DtoKind → Type) where
  phase : Phase
  requests : List Request
  cursor : Option ℕ
  served : Option (ℕ × DaemonSnapshot Dto)
  toAgent : List (Message Dto)
  applied : List (Frame (DaemonEvent Dto))

structure Link (Dto : DtoKind → Type) (Own : AgentKind → Type) where
  hub : Hub (EventState Dto) (DaemonSnapshot Dto) (DaemonEvent Dto)
  conn : Connection Dto
  mirror : AgentSnapshot Dto Own

inductive Label (Dto : DtoKind → Type) where
  | assign (event : DaemonEvent Dto)
  | send (i : ℕ)
  | connect
  | serve
  | forward
  | receive
  | lost

variable {Dto : DtoKind → Type} {Own : AgentKind → Type}

def noConnection : Connection Dto := ⟨.disconnected,[],none,none,[],[]⟩

def newConnection : Connection Dto := ⟨.awaitingHello,[.hello],none,none,[],[]⟩

namespace Link

def setHub (s : Link Dto Own) (hub : Hub (EventState Dto) (DaemonSnapshot Dto) (DaemonEvent Dto)) :
    Link Dto Own := { s with hub := hub }

def setConn (s : Link Dto Own) (conn : Connection Dto) : Link Dto Own := { s with conn := conn }

def apply (s : Link Dto Own) (e : AgentEvent Dto Own) : Link Dto Own :=
  { s with mirror := AgentMirror.applyEvent s.mirror e }

end Link

/-- The daemon handles the next request; the hello subscribes the connection. -/
def serve (s : Link Dto Own) : Option (Link Dto Own) :=
  match s.conn.requests with
  | [] => none
  | .hello :: rest =>
    some (s.setConn { s.conn with
      requests := rest
      cursor := some s.hub.log.length
      toAgent := s.conn.toAgent ++ [.helloResponse] })
  | .snapshot :: rest =>
    some (s.setConn { s.conn with
      requests := rest
      served := some (s.hub.sequence, s.hub.state.snapshot)
      toAgent := s.conn.toAgent ++ [.snapshotResponse s.hub.sequence s.hub.state.snapshot] })

/-- The daemon forwards the next frame, or closes the connection if its receiver lags. -/
def forwardFrame (capacity : ℕ) (s : Link Dto Own) : Option (Link Dto Own) :=
  s.conn.cursor.bind (fun cursor =>
    if cursor + capacity < s.hub.log.length then
      some (s.setConn { s.conn with cursor := none, toAgent := s.conn.toAgent ++ [.close] })
    else
      s.hub.log[cursor]?.map (fun f =>
        s.setConn { s.conn with cursor := some (cursor + 1), toAgent := s.conn.toAgent ++ [.event f] }))

/-- The frame loop, and the waits of the two calls before it, in which a notification is not a
response. -/
def handle (s : Link Dto Own) : Phase → Message Dto → Option (Link Dto Own)
  | .awaitingHello, .helloResponse =>
    some (s.setConn { s.conn with
      phase := .awaitingSnapshot, requests := s.conn.requests ++ [.snapshot] })
  | .awaitingSnapshot, .snapshotResponse _ snapshot =>
    some ((s.setConn { s.conn with phase := .connected }).apply (.daemonSnapshotReplaced snapshot))
  | .awaitingHello, .event _ => some (s.setConn { s.conn with phase := .failed })
  | .awaitingSnapshot, .event _ => some (s.setConn { s.conn with phase := .failed })
  | .connected, .event f =>
    some ((s.setConn { s.conn with applied := s.conn.applied ++ [f] }).apply (.daemon f.event))
  | .disconnected, _ => none
  | .failed, _ => none
  | _, .close => some (s.setConn noConnection)
  | _, _ => some s

def receive (s : Link Dto Own) : Option (Link Dto Own) :=
  match s.conn.toAgent with
  | [] => none
  | m :: rest => handle (s.setConn { s.conn with toAgent := rest }) s.conn.phase m

def step (capacity : ℕ) (s : Link Dto Own) : Label Dto → Option (Link Dto Own)
  | .assign e => some (s.setHub (assign daemonReducer s.hub e))
  | .send i => (send s.hub i).map s.setHub
  | .connect =>
    if s.conn.phase = .disconnected ∨ s.conn.phase = .failed then some (s.setConn newConnection)
    else none
  | .serve => serve s
  | .forward => forwardFrame capacity s
  | .receive => receive s
  | .lost => some (s.setConn noConnection)

def start (daemon : EventState Dto) (agent : AgentSnapshot Dto Own) : Link Dto Own :=
  ⟨newHub daemonReducer daemon,noConnection,agent⟩

/-! ## Exactly once -/

def Message.frame? : Message Dto → Option (Frame (DaemonEvent Dto))
  | .event f => some f
  | _ => none

/-- The numbers of the frames that the agent has applied, that are on the socket, that the daemon's
receiver has not read and that are about to be sent. -/
def Link.pending (s : Link Dto Own) (cursor : ℕ) : List ℕ :=
  (s.conn.applied ++ s.conn.toAgent.filterMap Message.frame? ++ s.hub.log.drop cursor ++
    s.hub.publishing).map Frame.sequence

/-- The mirror is the snapshot with the applied events, and every event behind the snapshot is there
once, and no event that the snapshot covers. -/
def ExactlyOnce (s : Link Dto Own) : Prop :=
  s.conn.phase = .connected → ∀ cursor ∈ s.conn.cursor, ∃ n snapshot,
    s.conn.served = some (n, snapshot) ∧ n ≤ s.hub.sequence ∧
    s.mirror.daemon = s.conn.applied.foldl (fun d f => applyDaemonEvent d f.event) snapshot ∧
    (s.pending cursor).Perm (List.range' (n + 1) (s.hub.sequence - n))

def Connection.window (c : Connection Dto) : Bool := c.cursor.isSome && c.served.isNone

/-- No `publish` overlaps the time between the subscription and the snapshot, and the numbers do not
run out. -/
def Quiet (s : Link Dto Own) : Label Dto → Prop
  | .assign _ => s.conn.window = false ∧ s.hub.sequence < 2 ^ 64 - 1
  | .serve => s.conn.requests.head? = some .hello → s.hub.publishing = []
  | _ => True

instance (s : Link Dto Own) (a : Label Dto) : Decidable (Quiet s a) := by
  cases a <;> unfold Quiet <;> infer_instance

structure Still (s : Link Dto Own) : Prop where
  cursor : s.conn.cursor = some s.hub.log.length
  publishing : s.hub.publishing = []
  served : s.conn.served = none
  applied : s.conn.applied = []

/-- The balance of the frames behind the snapshot, as long as the daemon keeps the connection. -/
structure Balanced (s : Link Dto Own) (n : ℕ) (snapshot : DaemonSnapshot Dto) : Prop where
  served : s.conn.served = some (n, snapshot)
  requests : s.conn.requests = []
  le : n ≤ s.hub.sequence
  perm : ∀ cursor ∈ s.conn.cursor, cursor ≤ s.hub.log.length ∧
    (s.pending cursor).Perm (List.range' (n + 1) (s.hub.sequence - n))

inductive Progress (s : Link Dto Own) : Prop
  | disconnected (conn : s.conn = noConnection)
  | hello (conn : s.conn = newConnection)
  | greeted (phase : s.conn.phase = .awaitingHello) (requests : s.conn.requests = [])
      (still : Still s) (toAgent : s.conn.toAgent = [.helloResponse])
  | asked (phase : s.conn.phase = .awaitingSnapshot) (requests : s.conn.requests = [.snapshot])
      (still : Still s) (toAgent : s.conn.toAgent = [])
  | answered (phase : s.conn.phase = .awaitingSnapshot) (n : ℕ) (snapshot : DaemonSnapshot Dto)
      (balanced : Balanced s n snapshot) (applied : s.conn.applied = []) (l : List (Message Dto))
      (toAgent : s.conn.toAgent = .snapshotResponse n snapshot :: l)
  | connected (phase : s.conn.phase = .connected) (n : ℕ) (snapshot : DaemonSnapshot Dto)
      (balanced : Balanced s n snapshot)
      (mirror : s.mirror.daemon =
        s.conn.applied.foldl (fun d f => applyDaemonEvent d f.event) snapshot)

variable {capacity : ℕ} {s t : Link Dto Own}

theorem Still.no_frame (h : Still s) : forwardFrame capacity s = none := by
  simp [forwardFrame, h.cursor]

variable {n : ℕ} {snapshot : DaemonSnapshot Dto} {f : Frame (DaemonEvent Dto)}

theorem Balanced.assign (h : Balanced s n snapshot) (hlt : s.hub.sequence < 2 ^ 64 - 1)
    (e : DaemonEvent Dto) :
    Balanced (s.setHub (EventHub.assign daemonReducer s.hub e)) n snapshot := by
  have hnext : nextSequence s.hub.sequence = s.hub.sequence + 1 := by
    unfold nextSequence
    omega
  refine ⟨h.served,h.requests,?_,fun cursor hcursor => ⟨(h.perm cursor hcursor).1,?_⟩⟩
  · show n ≤ nextSequence s.hub.sequence
    have := h.le
    omega
  · have hperm := (h.perm cursor hcursor).2
    have hpending : (s.setHub (EventHub.assign daemonReducer s.hub e)).pending cursor =
        s.pending cursor ++ [s.hub.sequence + 1] := by
      simp [Link.pending, Link.setHub, EventHub.assign, hnext]
    have hrange : range' (n + 1) (nextSequence s.hub.sequence - n) =
        range' (n + 1) (s.hub.sequence - n) ++ [s.hub.sequence + 1] := by
      have hle := h.le
      rw [hnext, show s.hub.sequence + 1 - n = s.hub.sequence - n + 1 by omega, range'_concat]
      congr 2
      omega
    rw [hpending]
    show List.Perm _ (range' (n + 1) (nextSequence s.hub.sequence - n))
    rw [hrange]
    exact hperm.append_right _

theorem Balanced.send {i : ℕ} (h : Balanced s n snapshot) (hf : s.hub.publishing[i]? = some f) :
    Balanced (s.setHub { s.hub with
      publishing := s.hub.publishing.eraseIdx i, log := s.hub.log ++ [f] }) n snapshot := by
  refine ⟨h.served,h.requests,h.le,fun cursor hcursor => ?_⟩
  obtain ⟨hle,hperm⟩ := h.perm cursor hcursor
  refine ⟨by simp only [Link.setHub, length_append]; omega,List.Perm.trans ?_ hperm⟩
  obtain ⟨hi,rfl⟩ := List.getElem?_eq_some_iff.mp hf
  have hmove := (getElem_cons_eraseIdx_perm hi).append_left
    (s.conn.applied ++ s.conn.toAgent.filterMap Message.frame? ++ s.hub.log.drop cursor)
  refine List.Perm.trans (List.Perm.of_eq ?_) (hmove.map Frame.sequence)
  simp [Link.pending, Link.setHub, drop_append_of_le_length hle]

theorem Balanced.forward {cursor : ℕ} (h : Balanced s n snapshot)
    (hcursor : s.conn.cursor = some cursor) (hf : s.hub.log[cursor]? = some f) :
    Balanced (s.setConn { s.conn with
      cursor := some (cursor + 1), toAgent := s.conn.toAgent ++ [.event f] }) n snapshot := by
  refine ⟨h.served,h.requests,h.le,fun c hc => ?_⟩
  cases hc
  have hperm := (h.perm cursor hcursor).2
  obtain ⟨hlt,rfl⟩ := List.getElem?_eq_some_iff.mp hf
  refine ⟨hlt,List.Perm.trans (List.Perm.of_eq ?_) hperm⟩
  simp only [Link.pending, Link.setConn]
  rw [drop_eq_getElem_cons hlt, filterMap_append]
  simp [Message.frame?]

theorem Balanced.close (h : Balanced s n snapshot) :
    Balanced (s.setConn { s.conn with cursor := none, toAgent := s.conn.toAgent ++ [.close] })
      n snapshot :=
  ⟨h.served,h.requests,h.le,fun _ hc => by simp [Link.setConn] at hc⟩

/-- What the agent has read of the balance moves from the socket to what it has applied. -/
theorem Balanced.receive (h : Balanced s n snapshot) {m : Message Dto} {rest : List (Message Dto)}
    (hread : s.conn.toAgent = m :: rest) (phase : Phase) : Balanced (s.setConn { s.conn with
      toAgent := rest, phase := phase, applied := s.conn.applied ++ m.frame?.toList }) n snapshot := by
  refine ⟨h.served,h.requests,h.le,fun cursor hcursor => ?_⟩
  obtain ⟨hle,hperm⟩ := h.perm cursor hcursor
  refine ⟨hle,List.Perm.trans (List.Perm.of_eq ?_) hperm⟩
  cases hm : m.frame? <;> simp [Link.pending, Link.setConn, hread, hm]

theorem Still.no_assign (h : Still s) (e : DaemonEvent Dto) : ¬ Quiet s (.assign e) := by
  simp [Quiet, Connection.window, h.cursor, h.served]

theorem progress_assign (h : Progress s) {e : DaemonEvent Dto} (hquiet : Quiet s (.assign e)) :
    Progress (s.setHub (EventHub.assign daemonReducer s.hub e)) := by
  cases h with
  | disconnected conn => exact .disconnected conn
  | hello conn => exact .hello conn
  | greeted phase requests still toAgent => exact absurd hquiet (still.no_assign e)
  | asked phase requests still toAgent => exact absurd hquiet (still.no_assign e)
  | answered phase n snapshot balanced applied l toAgent =>
    exact .answered phase n snapshot (balanced.assign hquiet.2 e) applied l toAgent
  | connected phase n snapshot balanced mirror =>
    exact .connected phase n snapshot (balanced.assign hquiet.2 e) mirror

theorem progress_send (h : Progress s) {i : ℕ} (hf : s.hub.publishing[i]? = some f) :
    Progress (s.setHub { s.hub with
      publishing := s.hub.publishing.eraseIdx i, log := s.hub.log ++ [f] }) := by
  cases h with
  | disconnected conn => exact .disconnected conn
  | hello conn => exact .hello conn
  | greeted phase requests still toAgent => simp [still.publishing] at hf
  | asked phase requests still toAgent => simp [still.publishing] at hf
  | answered phase n snapshot balanced applied l toAgent =>
    exact .answered phase n snapshot (balanced.send hf) applied l toAgent
  | connected phase n snapshot balanced mirror =>
    exact .connected phase n snapshot (balanced.send hf) mirror

theorem progress_serve (h : Progress s) (hquiet : Quiet s .serve) (hstep : serve s = some t) :
    Progress t := by
  cases h with
  | disconnected conn => simp [serve, conn, noConnection] at hstep
  | hello conn =>
    have hpublishing : s.hub.publishing = [] := hquiet (by simp [conn, newConnection])
    simp only [serve, conn, newConnection, some.injEq] at hstep
    subst hstep
    exact .greeted rfl rfl ⟨rfl,hpublishing,rfl,rfl⟩ rfl
  | greeted phase requests still toAgent => simp [serve, requests] at hstep
  | asked phase requests still toAgent =>
    simp only [serve, requests, some.injEq] at hstep
    subst hstep
    refine .answered phase s.hub.sequence s.hub.state.snapshot
      ⟨rfl,rfl,le_rfl,fun cursor hcursor => ?_⟩ still.applied [] (by simp [Link.setConn, toAgent])
    cases still.cursor.symm.trans hcursor
    refine ⟨le_rfl,?_⟩
    simp [Link.pending, Link.setConn, still.applied, still.publishing, toAgent, Message.frame?]
  | answered phase n snapshot balanced applied l toAgent
  | connected phase n snapshot balanced mirror => simp [serve, balanced.requests] at hstep

theorem progress_forward (h : Progress s) (hstep : forwardFrame capacity s = some t) :
    Progress t := by
  have hnext : ∀ n snapshot, Balanced s n snapshot → Balanced t n snapshot ∧
      t.conn.phase = s.conn.phase ∧ t.conn.applied = s.conn.applied ∧ t.mirror = s.mirror ∧
      ∃ l, t.conn.toAgent = s.conn.toAgent ++ l := by
    intro n snapshot hbalanced
    obtain ⟨cursor,hcursor,hrest⟩ := bind_eq_some_iff.mp hstep
    split_ifs at hrest with hlag
    · cases hrest
      exact ⟨hbalanced.close,rfl,rfl,rfl,_,rfl⟩
    · obtain ⟨f,hf,rfl⟩ := map_eq_some_iff.mp hrest
      exact ⟨hbalanced.forward hcursor hf,rfl,rfl,rfl,_,rfl⟩
  cases h with
  | disconnected conn => simp [forwardFrame, conn, noConnection] at hstep
  | hello conn => simp [forwardFrame, conn, newConnection] at hstep
  | greeted phase requests still toAgent => simp [still.no_frame] at hstep
  | asked phase requests still toAgent => simp [still.no_frame] at hstep
  | answered phase n snapshot balanced applied l toAgent =>
    obtain ⟨hbalanced,hphase,happlied,-,r,hr⟩ := hnext n snapshot balanced
    exact .answered (hphase.trans phase) n snapshot hbalanced (happlied.trans applied) (l ++ r)
      (by rw [hr, toAgent]; rfl)
  | connected phase n snapshot balanced mirror =>
    obtain ⟨hbalanced,hphase,happlied,hmirror,-⟩ := hnext n snapshot balanced
    exact .connected (hphase.trans phase) n snapshot hbalanced (by rw [hmirror, happlied, mirror])

theorem progress_receive (h : Progress s) (hstep : receive s = some t) : Progress t := by
  cases h with
  | disconnected conn => simp [receive, conn, noConnection] at hstep
  | hello conn => simp [receive, conn, newConnection] at hstep
  | greeted phase requests still toAgent =>
    simp only [receive, toAgent, phase, handle, some.injEq] at hstep
    subst hstep
    exact .asked rfl (by simp [Link.setConn, requests])
      ⟨still.cursor,still.publishing,still.served,still.applied⟩ rfl
  | asked phase requests still toAgent => simp [receive, toAgent] at hstep
  | answered phase n snapshot balanced applied l toAgent =>
    have hread := balanced.receive toAgent .connected
    simp only [receive, toAgent, phase, handle, some.injEq] at hstep
    subst hstep
    simp only [Message.frame?, toList_none, append_nil] at hread
    refine .connected rfl n snapshot ⟨hread.served,hread.requests,hread.le,hread.perm⟩ ?_
    simp [Link.apply, Link.setConn, AgentMirror.applyEvent, applied]
  | connected phase n snapshot balanced mirror =>
    cases hread : s.conn.toAgent with
    | nil => simp [receive, hread] at hstep
    | cons m rest =>
      have hbalanced := balanced.receive hread .connected
      simp only [receive, hread, phase] at hstep
      cases m with
      | event f =>
        simp only [handle, some.injEq] at hstep
        subst hstep
        refine .connected rfl n snapshot
          ⟨hbalanced.served,hbalanced.requests,hbalanced.le,hbalanced.perm⟩ ?_
        simp [Link.apply, Link.setConn, AgentMirror.applyEvent, mirror]
      | close =>
        simp only [handle, some.injEq] at hstep
        subst hstep
        exact .disconnected rfl
      | helloResponse | snapshotResponse k d =>
        simp only [handle, some.injEq] at hstep
        subst hstep
        simp only [Message.frame?, toList_none, append_nil] at hbalanced
        exact .connected rfl n snapshot
          ⟨hbalanced.served,hbalanced.requests,hbalanced.le,hbalanced.perm⟩ mirror

theorem progress_step {a : Label Dto} (h : Progress s) (hquiet : Quiet s a)
    (hstep : step capacity s a = some t) : Progress t := by
  cases a with
  | assign e =>
    cases hstep
    exact progress_assign h hquiet
  | send i =>
    obtain ⟨hub,hhub,rfl⟩ := map_eq_some_iff.mp hstep
    obtain ⟨f,hf,rfl⟩ := map_eq_some_iff.mp hhub
    exact progress_send h hf
  | connect =>
    simp only [step] at hstep
    split_ifs at hstep
    cases hstep
    exact .hello rfl
  | serve => exact progress_serve h hquiet hstep
  | forward => exact progress_forward h hstep
  | receive => exact progress_receive h hstep
  | lost =>
    cases hstep
    exact .disconnected rfl

/-- If no publish overlaps the time between the daemon's subscription of a connection and the
snapshot it sends, no call of the agent fails for an event frame and every event is reflected
exactly once. -/
theorem handshake_exactly_once {daemon : EventState Dto} {agent : AgentSnapshot Dto Own}
    {as : List (Label Dto)} (hm : Meets (step capacity) Quiet (start daemon agent) as)
    (hrun : exec (step capacity) (start daemon agent) as = some s) :
    s.conn.phase ≠ .failed ∧ ExactlyOnce s := by
  have hstart : Progress (start daemon agent) := .disconnected rfl
  have h : Progress s :=
    exec_invariant_of_meets (fun _ _ _ hp hq hs => progress_step hp hq hs) hstart hm hrun
  cases h with
  | disconnected conn => simp [ExactlyOnce, conn, noConnection]
  | hello conn => simp [ExactlyOnce, conn, newConnection]
  | greeted phase requests still toAgent | asked phase requests still toAgent
  | answered phase n snapshot balanced applied l toAgent => simp [ExactlyOnce, phase]
  | connected phase n snapshot balanced mirror =>
    refine ⟨by simp [phase],fun _ cursor hcursor => ?_⟩
    exact ⟨n,snapshot,balanced.served,balanced.le,mirror,(balanced.perm cursor hcursor).2⟩

def sampleLink : Link (fun _ => Unit) (fun _ => Unit) :=
  start ⟨sampleSnapshot,∅,∅⟩ sampleAgent

/-- An event published between the subscription and the snapshot is counted twice in the mirror, or
fails the connection. -/
theorem handshake_twice_or_failed :
    (exec (step 8) sampleLink [.connect, .serve, .assign (.engine (.rssItemsChanged "s")), .send 0,
      .receive, .serve, .forward, .receive, .receive]).any (fun s =>
        decide (s.conn.phase = .connected) &&
        decide (s.hub.state.snapshot.rssItemRevisions["s"]? = some 1) &&
        decide (s.mirror.daemon.rssItemRevisions["s"]? = some 2)) = true ∧
    (exec (step 8) sampleLink [.connect, .serve, .assign (.engine (.rssItemsChanged "s")), .send 0,
      .receive, .forward, .receive]).any (fun s => decide (s.conn.phase = .failed)) = true := by
  decide +kernel

def sampleHandshake : List (Label (fun _ => Unit)) :=
  [.assign (.engine (.rssItemsChanged "s")), .send 0, .connect, .serve, .receive, .serve,
    .assign (.engine (.rssItemsChanged "s")), .receive, .assign (.taskDeleted "t"), .send 1, .forward,
    .receive, .send 0]

theorem handshake_exactly_once_sample :
    ∃ s, exec (step 8) sampleLink sampleHandshake = some s ∧ s.conn.phase ≠ .failed ∧
      ExactlyOnce s := by
  have hm : Meets (step 8) Quiet sampleLink sampleHandshake := by decide +kernel
  have hrun : (exec (step 8) sampleLink sampleHandshake).isSome := by decide +kernel
  exact (isSome_iff_exists.mp hrun).imp (fun _ h => ⟨h,handshake_exactly_once hm h⟩)

end RinaDown.DaemonConnection
