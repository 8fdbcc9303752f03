import RinaDown.Texts

/-!
# Deliveries to webhook endpoints

An endpoint subscribes to kinds of events. A delivery checks the endpoint, waits for a permit, and
posts the event until the endpoint accepts it, rejects it, or the attempts are used up. Every
delivery ends with a record.
-/

namespace RinaDown.WebhookDelivery

open Strings (trim)

inductive WebhookEventKind where
  | taskCreated
  | taskStarted
  | taskCompleted
  | taskFailed
  | taskPaused
  | queueDrained
deriving DecidableEq

def WebhookEventKind.wire : WebhookEventKind → String
  | taskCreated => "task.created"
  | taskStarted => "task.started"
  | taskCompleted => "task.completed"
  | taskFailed => "task.failed"
  | taskPaused => "task.paused"
  | queueDrained => "queue.drained"

structure WebhookEvent where
  kind : WebhookEventKind
  queueId : String
deriving DecidableEq

structure EndpointSpec where
  id : String
  url : String
  enabled : Bool
  events : List String
  queueId : String
  allowHttp : Bool
deriving DecidableEq

def EndpointSpec.subscribes (spec : EndpointSpec) (kind : WebhookEventKind) : Bool :=
  spec.events.any (· = kind.wire)

/-- An empty filter matches every queue. -/
def EndpointSpec.matchesQueue (spec : EndpointSpec) (queueId : String) : Bool :=
  spec.queueId = "" || spec.queueId = queueId

/-- What a parsed address has. -/
structure Url where
  scheme : String
  host : Option String

/-- The first check that fails gives the error. -/
def validateEndpoint (parseUrl : String → Option Url) (spec : EndpointSpec) : Except String Unit :=
  let url := trim spec.url
  if url = "" then .error "webhook url is required"
  else
    match parseUrl url with
    | none => .error "webhook url is invalid"
    | some parsed =>
        if parsed.scheme ≠ "https" ∧ parsed.scheme ≠ "http" then
          .error "webhook url must use http or https"
        else if parsed.scheme = "http" ∧ !spec.allowHttp then
          .error "plaintext http requires allowHttp"
        else if parsed.host.getD "" = "" then .error "webhook url is invalid"
        else .ok ()

/-! ## Records -/

def maxAttempts : ℕ := 4

structure Delivery where
  event : String
  endpointId : String
  statusCode : ℕ
  attempts : ℕ
  success : Bool
  error : String
deriving DecidableEq

def Delivery.new (spec : EndpointSpec) (event : WebhookEvent) : Delivery :=
  ⟨event.kind.wire,spec.id,0,0,false,""⟩

inductive Reply where
  | response (status : ℕ)
  | timedOut
  | failed (message : String)

/-- A delivery waits for a permit, makes its attempts with it, and is over. -/
inductive Progress where
  | waiting (record : Delivery)
  | attempting (record : Delivery) (attempt : ℕ)
  | done (record : Delivery)
deriving DecidableEq

def Progress.record : Progress → Delivery
  | waiting record => record
  | attempting record _ => record
  | done record => record

def deliver (parseUrl : String → Option Url) (spec : EndpointSpec) (event : WebhookEvent) :
    Progress :=
  match validateEndpoint parseUrl spec with
  | .error e => .done { Delivery.new spec event with error := e }
  | .ok () => .waiting (Delivery.new spec event)

def finish (record : Delivery) : Progress :=
  .done (if !record.success ∧ record.error = "" then { record with error := "delivery failed" }
    else record)

def retry (most attempt : ℕ) (record : Delivery) : Progress :=
  if attempt < most then .attempting record (attempt + 1) else finish record

/-- A client error is not tried again. -/
def attempt (most n : ℕ) (record : Delivery) : Reply → Progress
  | .response status =>
      if 200 ≤ status ∧ status < 300 then
        finish { record with attempts := n, statusCode := status, success := true, error := "" }
      else
        let record :=
          { record with attempts := n, statusCode := status, error := "HTTP " ++ toString status }
        if 400 ≤ status ∧ status < 500 then finish record else retry most n record
  | .timedOut =>
      retry most n { record with attempts := n, statusCode := 0, error := "request timed out" }
  | .failed message =>
      retry most n { record with attempts := n, statusCode := 0, error := message }

/-! ## Attempts -/

/-- The record is about the endpoint and the event. -/
def Delivery.Describes (record : Delivery) (spec : EndpointSpec) (event : WebhookEvent) : Prop :=
  record.event = event.kind.wire ∧ record.endpointId = spec.id

/-- The attempts of a delivery that may make `most` of them. -/
def Progress.Within (most : ℕ) : Progress → Prop
  | waiting record => record.attempts = 0
  | attempting record n => record.attempts < n ∧ n ≤ most
  | done record => record.attempts ≤ most

/-- Whether the delivery has a permit. -/
def Progress.holds : Progress → Bool
  | attempting .. => true
  | _ => false

/-- How many steps the delivery takes at most. -/
def Progress.cost (most : ℕ) : Progress → ℕ
  | waiting _ => most + 2
  | attempting _ n => most + 2 - n
  | done _ => 1

variable {most n : ℕ} {record : Delivery} {spec : EndpointSpec} {event : WebhookEvent}

theorem within_finish (h : record.attempts ≤ most) : (finish record).Within most := by
  unfold finish
  split_ifs <;> exact h

theorem describes_finish (h : record.Describes spec event) :
    (finish record).record.Describes spec event := by
  unfold finish
  split_ifs <;> exact h

theorem within_retry (h : record.attempts = n) (hn : n ≤ most) :
    (retry most n record).Within most := by
  rw [retry]
  split_ifs with hlt
  · exact ⟨by omega,hlt⟩
  · exact within_finish (by omega)

theorem describes_retry (h : record.Describes spec event) :
    (retry most n record).record.Describes spec event := by
  rw [retry]
  split_ifs
  · exact h
  · exact describes_finish h

theorem cost_retry (hn : n ≤ most) : (retry most n record).cost most < most + 2 - n := by
  rw [retry]
  split_ifs with hlt
  · change most + 2 - (n + 1) < _
    omega
  · change 1 < _
    omega

theorem deliver_spec (parseUrl : String → Option Url) (spec : EndpointSpec) (event : WebhookEvent)
    (most : ℕ) : (deliver parseUrl spec event).Within most ∧
      (deliver parseUrl spec event).record.Describes spec event ∧
      (deliver parseUrl spec event).holds = false ∧
      (deliver parseUrl spec event).cost most ≤ most + 2 := by
  rw [deliver]
  split
  · exact ⟨Nat.zero_le most,⟨rfl,rfl⟩,rfl,by simp [Progress.cost]⟩
  · exact ⟨rfl,⟨rfl,rfl⟩,rfl,le_rfl⟩

/-- An attempt is counted, keeps what the record is about, and takes the delivery nearer to its
end. -/
theorem attempt_spec (hn : n ≤ most) (h : record.Describes spec event) (reply : Reply) :
    (attempt most n record reply).Within most ∧
      (attempt most n record reply).record.Describes spec event ∧
      (attempt most n record reply).cost most < most + 2 - n := by
  have hfinish : 1 < most + 2 - n := by omega
  cases reply with
  | response status =>
      rw [attempt]
      split_ifs
      · exact ⟨within_finish hn,describes_finish h,hfinish⟩
      · exact ⟨within_finish hn,describes_finish h,hfinish⟩
      · exact ⟨within_retry rfl hn,describes_retry h,cost_retry hn⟩
  | timedOut | failed message => exact ⟨within_retry rfl hn,describes_retry h,cost_retry hn⟩

end RinaDown.WebhookDelivery
