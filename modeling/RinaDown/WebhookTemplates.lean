import RinaDown.TextSlices
import RinaDown.WebhookDelivery

/-!
# Templates of webhook bodies

A template is read byte by byte. A placeholder is a part between braces that has no other brace in
it; the value of a known one is escaped for a string of JSON, and anything else is copied.
-/

namespace RinaDown.WebhookTemplates

open TextSlices WebhookDelivery List

abbrev Vars := List (List Char × List Char)

/-! ## Variables -/

structure WebhookTask where
  id : String
  fileName : String
  url : String
  saveDir : String
  totalBytes : ℤ
  status : ℤ
  errorMessage : String

def WebhookTask.default : WebhookTask :=
  { id := "", fileName := "", url := "", saveDir := "", totalBytes := 0, status := 0,
    errorMessage := "" }

/-- An event with its task and the name of its queue. -/
structure TaskEvent extends WebhookEvent where
  task : Option WebhookTask
  queueName : String

structure InstanceInfo where
  app : String
  version : String
  host : String

def title : WebhookEventKind → String
  | .taskCreated => "Download created"
  | .taskStarted => "Download started"
  | .taskCompleted => "Download completed"
  | .taskFailed => "Download failed"
  | .taskPaused => "Download paused"
  | .queueDrained => "Queue drained"

def eventSummary (formatBytes : ℤ → String) (event : TaskEvent) : String :=
  match event.task, event.kind with
  | _, .queueDrained =>
    "Queue \"" ++ (if event.queueName = "" then event.queueId else event.queueName) ++
      "\" has no active or pending tasks"
  | some task, .taskFailed =>
    if task.errorMessage = "" then task.fileName else task.fileName ++ " — " ++ task.errorMessage
  | some task, _ =>
    if 0 < task.totalBytes then task.fileName ++ " · " ++ formatBytes task.totalBytes
    else task.fileName
  | none, _ => ""

/-- The placeholders that have a value. -/
def placeholders : List String :=
  ["{event}", "{event.title}", "{event.summary}", "{timestamp}", "{instance.app}",
    "{instance.version}", "{instance.host}", "{queue.id}", "{queue.name}", "{ntfy.topic}",
    "{task.id}", "{task.fileName}", "{task.url}", "{task.saveDir}", "{task.totalBytes}",
    "{task.totalBytesHuman}", "{task.status}", "{task.errorMessage}"]

def assign (value : String → String) : Vars :=
  placeholders.map fun key => (key.toList, (value key).toList)

def vars (formatBytes : ℤ → String) (timestamp : String) (info : InstanceInfo)
    (event : TaskEvent) (ntfyTopic : String) : Vars :=
  let task := event.task.getD WebhookTask.default
  [("{event}", event.kind.wire), ("{event.title}", title event.kind),
    ("{event.summary}", eventSummary formatBytes event), ("{timestamp}", timestamp),
    ("{instance.app}", info.app), ("{instance.version}", info.version),
    ("{instance.host}", info.host), ("{queue.id}", event.queueId),
    ("{queue.name}", event.queueName), ("{ntfy.topic}", ntfyTopic), ("{task.id}", task.id),
    ("{task.fileName}", task.fileName), ("{task.url}", task.url),
    ("{task.saveDir}", task.saveDir), ("{task.totalBytes}", toString task.totalBytes),
    ("{task.totalBytesHuman}", formatBytes task.totalBytes),
    ("{task.status}", toString task.status), ("{task.errorMessage}", task.errorMessage)].map
      fun entry => (entry.1.toList, entry.2.toList)

/-! ## Rendering -/

/-- `{:04x}` -/
def hex4 (n : ℕ) : List Char :=
  [Nat.digitChar (n / 4096 % 16), Nat.digitChar (n / 256 % 16), Nat.digitChar (n / 16 % 16),
    Nat.digitChar (n % 16)]

def escapeChar (c : Char) : List Char :=
  if c = '"' then ['\\', '"']
  else if c = '\\' then ['\\', '\\']
  else if c = '\n' then ['\\', 'n']
  else if c = '\r' then ['\\', 'r']
  else if c = '\t' then ['\\', 't']
  else if c.toNat < 0x20 then '\\' :: 'u' :: hex4 c.toNat
  else [c]

def jsonEscape (raw : List Char) : List Char := raw.flatMap escapeChar

def openBrace : UInt8 := 0x7b

def closeBrace : UInt8 := 0x7d

/-- The first place from `i` on at which the condition of a loop over bytes fails. -/
def skip (p : UInt8 → Bool) (bytes : List UInt8) (i : ℕ) : ℕ :=
  i + ((bytes.drop i).takeWhile p).length

theorem lt_skip {p : UInt8 → Bool} {bytes : List UInt8} {i : ℕ} (h : i < bytes.length)
    (hp : p bytes[i] = true) : i < skip p bytes i := by
  rw [skip, drop_eq_getElem_cons h, takeWhile_cons_of_pos hp, length_cons]
  omega

theorem le_skip {p : UInt8 → Bool} {bytes : List UInt8} {i : ℕ} : i ≤ skip p bytes i :=
  Nat.le_add_right _ _

def fill (vars : Vars) (key : List Char) : List Char :=
  match vars.lookup key with
  | some value => jsonEscape value
  | none => key

/-- What has been rendered when the scan is at byte `i`; a slice that does not start and end between
characters panics. -/
def renderFrom (template : List Char) (vars : Vars) (i : ℕ) (out : List Char) :
    Option (List Char) :=
  if h : i < (encode template).length then
    if hplain : ((encode template)[i] != openBrace) = true then
      (slice template i (skip (· != openBrace) (encode template) i)).bind fun text =>
        renderFrom template vars (skip (· != openBrace) (encode template) i) (out ++ text)
    else
      let j := skip (fun b => b != closeBrace && b != openBrace) (encode template) (i + 1)
      if (encode template).length ≤ j ∨ (encode template)[j]? = some openBrace then
        renderFrom template vars (i + 1) (out ++ ['{'])
      else
        (slice template i (j + 1)).bind fun key =>
          renderFrom template vars (j + 1) (out ++ fill vars key)
  else some out
termination_by (encode template).length - i
decreasing_by
  · have hlt := lt_skip (p := (· != openBrace)) h hplain
    omega
  · omega
  · have hle := @le_skip (fun b => b != closeBrace && b != openBrace) (encode template) (i + 1)
    omega

def renderTemplate (template : List Char) (vars : Vars) : Option (List Char) :=
  renderFrom template vars 0 []

end RinaDown.WebhookTemplates
