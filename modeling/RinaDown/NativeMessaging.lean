import RinaDown.LengthFraming

/-!
# The native messaging relay

The relay reads framed messages of a browser extension, forwards them to the App over a pipe, and
answers each of them. It starts the App when it has to. What the App and the system do is up to an
environment. The world has a clock, and for each connection the frames written and the number of
answers read.
-/

namespace RinaDown.NativeMessaging

open LengthFraming List

def maxMessageSize : ℕ := 1024 * 1024

def noLaunchActions : List String := ["ping", "tasks", "task_op", "open_file", "reveal_file"]

def isNoLaunchAction (action : String) : Bool := noLaunchActions.contains action

/-- Milliseconds, on a clock of nanoseconds. -/
def millis (n : ℕ) : ℕ := n * 10 ^ 6

def appLaunchTimeoutMs : ℕ := 10000

def pipePollIntervalMs : ℕ := 50

def appLaunchCooldownMs : ℕ := 15000

structure IncomingMessage where
  action : String
  msgId : ℕ

structure HostResponse where
  success : Bool
  message : String
  msgId : ℕ
deriving DecidableEq

/-! ## The world -/

/-- What happens at each operation of the relay, and what the App answers: `replies c k` is its
answer to the frame `k` of the connection `c`. -/
structure Environment where
  parse : Bytes → Option IncomingMessage
  toVec : HostResponse → Bytes
  connects : ℕ → Bool
  writes : ℕ → Bool
  reads : ℕ → Bool
  replies : ℕ → ℕ → Bytes
  executables : ℕ → Bool
  spawns : ℕ → Bool
  delays : ℕ → ℕ

/-- A frame, and the place of its message in the stream. -/
structure Frame where
  message : ℕ
  raw : Bytes
deriving DecidableEq

/-- The App has received the frames, and answers them in their order. -/
structure Connection where
  frames : List Frame
  taken : ℕ
deriving DecidableEq

/-- A start of the App, and the message that was handled. -/
structure Launch where
  time : ℕ
  message : ℕ
deriving DecidableEq

structure World where
  clock : ℕ
  operations : ℕ
  connections : List Connection
  launches : List Launch

variable (env : Environment) (w : World)

/-- Every operation takes its time. -/
def World.next : World :=
  { w with clock := w.clock + env.delays w.operations, operations := w.operations + 1 }

def now : ℕ × World := ((w.next env).clock, w.next env)

def sleep (d : ℕ) : World := { w.next env with clock := (w.next env).clock + d }

def connect : Option ℕ × World :=
  if env.connects w.operations then
    (some w.connections.length,
      { w.next env with connections := w.connections ++ [⟨[],0⟩] })
  else (none, w.next env)

/-- The App receives a complete frame, or none if the write fails. -/
def writeMessage (c : ℕ) (frame : Frame) : Bool × World :=
  if env.writes w.operations then
    (true, { w.next env with
      connections := w.connections.modify c fun conn =>
        { conn with frames := conn.frames ++ [frame] } })
  else (false, w.next env)

/-- The next answer on a connection and its place, if there is one and it can be read. -/
def readMessage (c : ℕ) : Option (ℕ × Bytes) × World :=
  match w.connections[c]? with
  | none => (none, w.next env)
  | some conn =>
    if env.reads w.operations && decide (conn.taken < conn.frames.length) &&
        decide ((env.replies c conn.taken).length ≤ maxMessageSize) then
      (some (conn.taken, env.replies c conn.taken),
        { w.next env with
          connections := w.connections.modify c fun conn =>
            { conn with taken := conn.taken + 1 } })
    else (none, w.next env)

def findAppExe : Bool × World := (env.executables w.operations, w.next env)

def launchApp (message : ℕ) : Bool × World :=
  if env.spawns w.operations then
    (true, { w.next env with
      launches := w.launches ++ [⟨(w.next env).clock,message⟩] })
  else (false, w.next env)

/-! ## Connections -/

theorem clock_next_le : w.clock ≤ (w.next env).clock := Nat.le_add_right _ _

theorem clock_connect : (connect env w).2.clock = (w.next env).clock := by
  rw [connect]
  split_ifs <;> rfl

theorem clock_lt_sleep (d : ℕ) (h : 0 < d) : w.clock < (sleep env w d).clock :=
  Nat.lt_of_le_of_lt (clock_next_le env w) (Nat.lt_add_of_pos_right h)

/-- Connections are tried until one opens or the deadline has passed. -/
def pollConnect (deadline : ℕ) (w : World) : Option ℕ × World :=
  let opened := connect env w
  if opened.1.isSome then opened
  else
    let t := now env opened.2
    if t.1 ≥ deadline then (none, t.2)
    else pollConnect deadline (sleep env t.2 (millis pipePollIntervalMs))
termination_by deadline - w.clock
decreasing_by
  next hbefore =>
    have hconnect : w.clock ≤ (connect env w).2.clock :=
      Nat.le_trans (clock_next_le env w) (Nat.le_of_eq (clock_connect env w).symm)
    have hnow := clock_next_le env (connect env w).2
    have hsleep := clock_lt_sleep env (now env (connect env w).2).2 (millis pipePollIntervalMs)
      (by decide)
    change ¬((connect env w).2.next env).clock ≥ deadline at hbefore
    change ((connect env w).2.next env).clock < _ at hsleep
    omega

/-- Whether the App was started a short time ago. -/
def coolingDown (lastLaunch : Option ℕ) : Bool × World :=
  match lastLaunch with
  | none => (false, w)
  | some prev =>
    let t := now env w
    (decide ((t.1 - prev) / 10 ^ 6 < appLaunchCooldownMs), t.2)

/-- A handle, the time at which the App was started, and the world. -/
def awaitPipe (deadline launched : ℕ) : Option ℕ × Option ℕ × World :=
  ((pollConnect env deadline w).1, some launched, (pollConnect env deadline w).2)

def awaitApp : Option ℕ × Option ℕ × World :=
  let launched := now env w
  let waiting := now env launched.2
  awaitPipe env waiting.2 (waiting.1 + millis appLaunchTimeoutMs) launched.1

def connectWithAutoLaunch (message : ℕ) (lastLaunch : Option ℕ) :
    Option ℕ × Option ℕ × World :=
  match connect env w with
  | (some p, w) => (some p, lastLaunch, w)
  | (none, w) =>
    match coolingDown env w lastLaunch with
    | (true, w) => (none, lastLaunch, w)
    | (false, w) =>
      match findAppExe env w with
      | (false, w) => (none, lastLaunch, w)
      | (true, w) =>
        match launchApp env w message with
        | (false, w) => (none, lastLaunch, w)
        | (true, w) => awaitApp env w

/-- A connection, for which the App is started unless the action forbids it. -/
def reach (message : ℕ) (isNoLaunch : Bool) (lastLaunch : Option ℕ) :
    Option ℕ × Option ℕ × World :=
  if isNoLaunch then ((connect env w).1, lastLaunch, (connect env w).2)
  else connectWithAutoLaunch env w message lastLaunch

def reconnectAndResend (frame : Frame) (isNoLaunch : Bool) (lastLaunch : Option ℕ) :
    Option ℕ × Option ℕ × World :=
  match reach env w frame.message isNoLaunch lastLaunch with
  | (none, lastLaunch, w) => (none, lastLaunch, w)
  | (some p, lastLaunch, w) =>
    match writeMessage env w p frame with
    | (true, w) => (some p, lastLaunch, w)
    | (false, w) => (none, lastLaunch, w)

/-- A frame is written to a connection, or to a new one if that fails. -/
def forward (p : ℕ) (frame : Frame) (isNoLaunch : Bool) (lastLaunch : Option ℕ) :
    Option ℕ × Option ℕ × World :=
  match writeMessage env w p frame with
  | (true, w) => (some p, lastLaunch, w)
  | (false, w) => reconnectAndResend env w frame isNoLaunch lastLaunch

/-! ## Messages -/

/-- An answer to the extension: a status of the relay, or what was read from a connection. -/
inductive Answer where
  | status (response : HostResponse)
  | relayed (connection place : ℕ) (data : Bytes)

def Answer.data : Answer → Bytes
  | .status response => env.toVec response
  | .relayed _ _ data => data

/-- The variables of the relay, the world, and what was written to the extension. -/
structure Relay where
  pipe : Option ℕ
  lastLaunch : Option ℕ
  world : World
  stdout : Bytes
  answers : List Answer

def Relay.respond (s : Relay) (answer : Answer) : Relay :=
  { s with stdout := s.stdout ++ frame (answer.data env), answers := s.answers ++ [answer] }

def respondStatus (s : Relay) (success : Bool) (message : String) (msgId : ℕ) : Relay :=
  s.respond env (.status ⟨success,message,msgId⟩)

def actionOf (raw : Bytes) : String := ((env.parse raw).map IncomingMessage.action).getD ""

def msgIdOf (raw : Bytes) : ℕ := ((env.parse raw).map IncomingMessage.msgId).getD 0

/-- The pipe is opened if there is none. -/
def ensurePipe (message : ℕ) (raw : Bytes) (s : Relay) : Relay :=
  if s.pipe.isSome then s
  else
    let reached := reach env s.world message (isNoLaunchAction (actionOf env raw)) s.lastLaunch
    { s with pipe := reached.1, lastLaunch := reached.2.1, world := reached.2.2 }

/-- The message is written and its answer read. The pipe is kept only if both succeed. -/
def roundTrip (p message : ℕ) (raw : Bytes) (s : Relay) : Relay :=
  match forward env s.world p ⟨message,raw⟩ (isNoLaunchAction (actionOf env raw)) s.lastLaunch with
  | (none, lastLaunch, w) =>
    respondStatus env { s with pipe := none, lastLaunch := lastLaunch, world := w } false
      "app_not_running" (msgIdOf env raw)
  | (some p, lastLaunch, w) =>
    match readMessage env w p with
    | (some (place, data), w) =>
      { s with pipe := some p, lastLaunch := lastLaunch, world := w }.respond env
        (.relayed p place data)
    | (none, w) =>
      respondStatus env { s with pipe := none, lastLaunch := lastLaunch, world := w } false
        "app_not_running" (msgIdOf env raw)

def handleMessage (message : ℕ) (raw : Bytes) (s : Relay) : Relay :=
  let s := ensurePipe env message raw s
  if actionOf env raw = "warmup" then
    if s.pipe.isSome then respondStatus env s true "warmed" (msgIdOf env raw)
    else respondStatus env s false "app_not_running" (msgIdOf env raw)
  else
    match s.pipe with
    | none => respondStatus env s false "app_not_running" (msgIdOf env raw)
    | some p => roundTrip env p message raw s

/-! ## The loop -/

def fromLeBytes (b₀ b₁ b₂ b₃ : UInt8) : ℕ :=
  b₀.toNat + b₁.toNat * 2 ^ 8 + b₂.toNat * 2 ^ 16 + b₃.toNat * 2 ^ 24

/-- A message, and what comes after it. -/
def readStdinMessage : Bytes → Option (Bytes × Bytes)
  | b₀ :: b₁ :: b₂ :: b₃ :: stdin =>
    let len := fromLeBytes b₀ b₁ b₂ b₃
    if len = 0 ∨ len > maxMessageSize then none
    else if stdin.length < len then none
    else some (stdin.take len, stdin.drop len)
  | _ => none

theorem length_lt_of_read {stdin raw rest : Bytes}
    (h : readStdinMessage stdin = some (raw, rest)) : rest.length < stdin.length := by
  match stdin with
  | b₀ :: b₁ :: b₂ :: b₃ :: stdin =>
    simp only [readStdinMessage] at h
    split_ifs at h
    obtain ⟨rfl,rfl⟩ := Prod.mk.inj (Option.some.inj h)
    simp only [length_drop, length_cons]
    omega

/-- The messages are handled until the extension disconnects. -/
def main (message : ℕ) (stdin : Bytes) (s : Relay) : Relay :=
  match _h : readStdinMessage stdin with
  | none => s
  | some (raw, stdin) => main (message + 1) stdin (handleMessage env message raw s)
termination_by stdin.length
decreasing_by exact length_lt_of_read _h

def start : Relay := ⟨none,none,⟨0,0,[],[]⟩,[],[]⟩

theorem fromLeBytes_toLeBytes {n : ℕ} (h : n < 2 ^ 32) :
    fromLeBytes (UInt8.ofNat n) (UInt8.ofNat (n / 2 ^ 8)) (UInt8.ofNat (n / 2 ^ 16))
      (UInt8.ofNat (n / 2 ^ 24)) = n := by
  simp only [fromLeBytes, UInt8.toNat_ofNat']
  omega

theorem readStdinMessage_frame {raw rest : Bytes} (hpos : 0 < raw.length)
    (hle : raw.length ≤ maxMessageSize) :
    readStdinMessage (frame raw ++ rest) = some (raw, rest) := by
  have hsmall : raw.length < 2 ^ 32 := Nat.lt_of_le_of_lt hle (by decide)
  rw [frame, toLeBytes, append_assoc]
  simp only [cons_append, nil_append, readStdinMessage, fromLeBytes_toLeBytes hsmall]
  rw [if_neg (by omega), if_neg (by rw [length_append]; omega), take_left, drop_left]

/-- Framed messages are handled one after the other. -/
theorem main_frames {raws : List Bytes}
    (h : ∀ raw ∈ raws, 0 < raw.length ∧ raw.length ≤ maxMessageSize) (message : ℕ) (s : Relay) :
    main env message (frames raws) s =
      (raws.zipIdx message).foldl (fun s e => handleMessage env e.2 e.1 s) s := by
  induction raws generalizing message s with
  | nil =>
    rw [main]
    rfl
  | cons raw raws ih =>
    obtain ⟨hpos,hle⟩ := h raw mem_cons_self
    have hread : readStdinMessage (frames (raw :: raws)) = some (raw, frames raws) :=
      readStdinMessage_frame hpos hle
    rw [main]
    split
    · next hnone =>
      rw [hread] at hnone
      cases hnone
    · next raw' stdin' hsome =>
      rw [hread] at hsome
      obtain ⟨rfl,rfl⟩ := Prod.mk.inj (Option.some.inj hsome)
      exact ih (fun raw hraw => h raw (mem_cons_of_mem _ hraw)) _ _

end RinaDown.NativeMessaging
