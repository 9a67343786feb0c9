import Claudear.Data.Document
import Claudear.Engine.Processing
import Claudear.Storage.Deliveries

/-!
# Webhooks

A tracker sends a webhook when an issue changes. `webhookHandler` looks at the
signature, records the delivery, reads the issue, and unless the issue was
attempted before takes its key in the set of issues in process, records an
attempt and spawns a run. A run gives the key back when it ends.

The set of issues in process forgets: with every claim the entries older than
an hour go, and when there are a thousand the older half.

What a payload parses to, which rule suppresses an issue and what the index of
past issues finds similar are answers or parameters. A webhook of GitHub goes to
a handler of its own.
-/

namespace Claudear.Engine.Webhook

open Claudear.Data Claudear.Storage Claudear.Machine
open Claudear.Engine.Processing (Issue)

/-- The scalars of a payload are not looked at. -/
abbrev Payload := Value Unit

structure MatchResult where
  fits : Bool
  reason : String

/-- `WebhookHandler` -/
structure Handler where
  verifySignature : List UInt8 → (String → Option String) → Bool
  matchesCriteria : Issue → MatchResult

structure Suppression where
  rule : String
  reason : String

structure AppState where
  handlers : String → Option Handler
  hasGithubHandler : Bool
  hasSqliteTracker : Bool
  suppressed : Issue → Option Suppression
  hasEmbeddingService : Bool
  fromSlice : List UInt8 → Option Payload

/-- The request of a webhook. Header names are in lower case. -/
structure Delivery where
  source : String
  headers : String → Option String
  body : List UInt8

structure Reply where
  status : Nat
  body : List (String × String)
  deriving DecidableEq, Repr

/-- The answer with 202. -/
def accepted (shortId : String) : Reply := ⟨202, [("status", "accepted"), ("issue", shortId)]⟩

def ignored (reason : String) : Reply := ⟨200, [("status", "ignored"), ("reason", reason)]⟩

def refused (status : Nat) (error : String) : Reply := ⟨status, [("error", error)]⟩

def failed (reason : String) : Reply := ⟨500, [("status", "error"), ("reason", reason)]⟩

def Reply.isError (r : Reply) : Bool := 400 ≤ r.status

inductive WebhookAction where
  | processed
  | ignored
  | prClosed (merged : Bool)

inductive GithubError where
  | signature
  | other

/-- A similar issue, and how similar in per cent. -/
structure Duplicate where
  similarId : String
  percent : String

/-! ## Issue ids -/

def MAX_ISSUE_ID_LENGTH : Nat := 100

/-- The error, if there is one. -/
def validateIssueId (issueId : String) : Option String :=
  let id := issueId.toList
  if issueId = "" then some "Issue ID cannot be empty"
  else if MAX_ISSUE_ID_LENGTH < issueId.utf8ByteSize then
    some "Issue ID exceeds maximum length of 100 characters"
  else if ['.', '.'] <:+: id then some "Issue ID cannot contain path traversal sequences (..)"
  else if '/' ∈ id then some "Issue ID cannot contain forward slashes (/)"
  else if '\\' ∈ id then some "Issue ID cannot contain backslashes (\\)"
  else if '\x00' ∈ id then some "Issue ID cannot contain null bytes"
  else none

/-! ## The handler -/

/-- `format!("{}:{}", source_name, issue.id)` -/
def processingKey (k : IssueKey) : String := k.source ++ ":" ++ k.issueId

/-- How long a delivery is known, in hours. -/
def RETENTION_HOURS : Nat := 24

inductive Req : Type → Type 1 where
  | github (d : Delivery) : Req (Except GithubError WebhookAction)
  | runsClosed : Req Bool
  | checkAndRecordDelivery (k : DeliveryKey) : Req (Except Error Bool)
  /-- Below the bound. -/
  | random (bound : Nat) : Req Nat
  /-- With `RETENTION_HOURS`. -/
  | cleanupOldDeliveries : Req Unit
  | parsePayload (source : String) (payload : Payload) : Req (Except String (Option Issue))
  | hasAttempted (k : IssueKey) : Req (Except Error Bool)
  | checkDuplicate (issue : Issue) : Req (Option Duplicate)
  /-- Whether the key was free and is taken now. -/
  | claimProcessing (k : IssueKey) : Req Bool
  | dropProcessing (k : IssueKey) : Req Unit
  | recordAttemptWithLabels (k : IssueKey) (shortId : String) (labels : List String) : Req (Except Error Unit)
  | spawnRun (k : IssueKey) : Req Unit
  | respond (r : Reply) : Req Unit
  /-- The work of a run. -/
  | process (k : IssueKey) : Req Unit

abbrev Run := Prog Req

def ask {β : Type} (c : Req β) : Run β := .perform c

/-- The answer, and the issue whose run was spawned. -/
abbrev Handled := Reply × Option IssueKey

def answered (r : Reply) : Run Handled := pure (r, none)

def githubReply : Except GithubError WebhookAction → Reply
  | .ok .processed => ⟨200, [("status", "processed")]⟩
  | .ok .ignored => ignored "Event not applicable"
  | .ok (.prClosed merged) =>
    ⟨200, [("status", "processed"), ("action", "pr_closed"), ("merged", if merged then "true" else "false")]⟩
  | .error .signature => refused 401 "Invalid signature"
  | .error .other => refused 500 "Failed to process GitHub webhook"

variable (A : AppState)

def handleGithubWebhook (d : Delivery) : Run Handled :=
  if A.hasGithubHandler then
    match A.fromSlice d.body with
    | none => answered (refused 400 "Invalid JSON")
    | some _ => do answered (githubReply (← ask (.github d)))
  else answered (refused 404 "GitHub webhook handler is not configured")

/-- `payload.get(key).and_then(as_str)` -/
def Payload.text (payload : Payload) (key : String) : Option String :=
  match payload with
  | .table entries =>
    match entries.lookup key with
    | some (.string text) => some text
    | _ => none
  | _ => none

/-- Slack checks the URL with a challenge. -/
def slackReply (d : Delivery) : Option Reply :=
  if d.source = "slack" then
    match A.fromSlice d.body with
    | none => some (refused 400 "Invalid JSON")
    | some payload =>
      if payload.text "type" = some "url_verification" then
        some ⟨200, [("challenge", (payload.text "challenge").getD "")]⟩
      else none
  else none

def Delivery.deliveryId (d : Delivery) : Option String :=
  (d.headers "linear-delivery").or ((d.headers "x-github-delivery").or (d.headers "sentry-hook-id"))

/-- The record the delivery is known by, where there is one. -/
def AppState.deliveryKey (d : Delivery) : Option DeliveryKey :=
  if A.hasSqliteTracker then d.deliveryId.map (⟨·, d.source⟩) else none

/-- Whether the delivery was recorded before. A check that fails does not stop the webhook. -/
def isDuplicateDelivery (d : Delivery) : Run Bool :=
  match A.deliveryKey d with
  | none => pure false
  | some k => do
    match ← ask (.checkAndRecordDelivery k) with
    | .ok false => return true
    | .ok true | .error _ =>
      if (← ask (.random 50)) = 0 then ask .cleanupOldDeliveries
      return false

/-- From the claim to the spawn. -/
def startRun (k : IssueKey) (issue : Issue) : Run Handled := do
  if ← ask (.claimProcessing k) then
    match ← ask (.recordAttemptWithLabels k issue.shortId issue.labels) with
    | .error _ =>
      ask (.dropProcessing k)
      answered (failed "Failed to record attempt")
    | .ok () =>
      ask (.spawnRun k)
      return (accepted issue.shortId, some k)
  else answered (ignored "Already processing")

def similarIssue (issue : Issue) : Run (Option Duplicate) :=
  if A.hasEmbeddingService then ask (.checkDuplicate issue) else pure none

def handleNewIssue (k : IssueKey) (issue : Issue) : Run Handled := do
  match ← similarIssue A issue with
  | some duplicate =>
    answered ⟨200, [("status", "skipped"),
      ("reason", "Semantic duplicate of " ++ duplicate.similarId ++ " (" ++ duplicate.percent ++ "% similar)")]⟩
  | none => startRun k issue

def handleMatchingIssue (k : IssueKey) (issue : Issue) : Run Handled := do
  match ← ask (.hasAttempted k) with
  | .ok true => answered (ignored "Already attempted")
  | .error _ => answered (failed "Database error")
  | .ok false => handleNewIssue A k issue

def handleIssue (h : Handler) (d : Delivery) (issue : Issue) : Run Handled :=
  match validateIssueId issue.id with
  | some error => answered (refused 400 ("Invalid issue ID: " ++ error))
  | none =>
    match A.suppressed issue with
    | some s => answered ⟨200, [("status", "suppressed"), ("rule", s.rule), ("reason", s.reason)]⟩
    | none =>
      if (h.matchesCriteria issue).fits then handleMatchingIssue A ⟨d.source, issue.id⟩ issue
      else answered (ignored (h.matchesCriteria issue).reason)

def handlePayload (h : Handler) (d : Delivery) : Run Handled :=
  match A.fromSlice d.body with
  | none => answered (refused 400 "Invalid JSON")
  | some payload => do
    match ← ask (.parsePayload d.source payload) with
    | .error _ => answered (refused 400 "Failed to parse payload")
    | .ok none => answered (ignored "Event not applicable")
    | .ok (some issue) => handleIssue A h d issue

/-- A webhook whose signature is right. -/
def handleVerified (h : Handler) (d : Delivery) : Run Handled :=
  match slackReply A d with
  | some reply => answered reply
  | none => do
    if ← ask .runsClosed then
      answered ⟨503, [("status", "unavailable"), ("reason", "Shutting down")]⟩
    else if ← isDuplicateDelivery A d then answered (ignored "Duplicate delivery")
    else handlePayload A h d

def webhookHandler (d : Delivery) : Run Handled :=
  if d.source = "github" then handleGithubWebhook A d
  else
    match A.handlers d.source with
    | none => answered (refused 404 ("Unknown source: " ++ d.source))
    | some h =>
      if h.verifySignature d.body d.headers then handleVerified A h d
      else answered (refused 401 "Invalid signature")

/-- The run of an issue gives its key back. -/
def processIssue (k : IssueKey) : Run Unit := do
  ask (.process k)
  ask (.dropProcessing k)

/-! ## The shared state -/

def PROCESSING_ENTRY_TTL_SECS : Nat := 3600

def MAX_PROCESSING_ENTRIES : Nat := 1000

/-- The keys in process and when each was taken. -/
abbrev ProcessingSet := List (String × Nat)

/-- What goes with a claim: the entries that are too old, and the older half of too many. -/
def cleanedUp (iterate : ProcessingSet → ProcessingSet) (now : Nat) (processing : ProcessingSet) :
    ProcessingSet :=
  let processing := processing.filter fun e => now - e.2 < PROCESSING_ENTRY_TTL_SECS
  if MAX_PROCESSING_ENTRIES ≤ processing.length then
    let entries := (iterate processing).mergeSort fun a b => a.2 ≤ b.2
    let removed := (entries.take (entries.length / 2)).map Prod.fst
    processing.filter fun e => e.1 ∉ removed
  else processing

structure State where
  deliveries : Deliveries
  table : FixAttempts
  processing : ProcessingSet
  closed : Bool
  /-- The runs that were spawned. -/
  spawned : List IssueKey

/-- What a call reads besides the state; which field, its kind says. A write that fails leaves the
state as it is, and `iterate` is the order the set is iterated in. -/
structure Answers where
  now : Timestamp
  instant : Nat
  error : Option Error := none
  random : Nat := 1
  github : Except GithubError WebhookAction := .ok .processed
  parsed : Except String (Option Issue) := .ok none
  duplicate : Option Duplicate := none
  iterate : ProcessingSet → ProcessingSet := id

/-- The answer of a call of the store that may fail. -/
def orFail {β : Type} (e : Answers) (s : State) (r : β × State) : Except Error β × State :=
  match e.error with
  | some error => (.error error, s)
  | none => (.ok r.1, r.2)

def answer {β : Type} (e : Answers) : Req β → State → β × State
  | .github _, s => (e.github, s)
  | .runsClosed, s => (s.closed, s)
  | .checkAndRecordDelivery k, s =>
    let r := s.deliveries.checkAndRecordDelivery e.now k
    orFail e s (r.1, { s with deliveries := r.2 })
  | .random _, s => (e.random, s)
  | .cleanupOldDeliveries, s =>
    ((), if e.error.isSome then s
      else { s with deliveries := s.deliveries.cleanupOldDeliveries e.now RETENTION_HOURS })
  | .parsePayload .., s => (e.parsed, s)
  | .hasAttempted k, s => orFail e s (s.table.hasAttempted k, s)
  | .checkDuplicate _, s => (e.duplicate, s)
  | .claimProcessing k, s =>
    let processing := cleanedUp e.iterate e.instant s.processing
    if processingKey k ∈ processing.map Prod.fst then (false, { s with processing })
    else (true, { s with processing := (processingKey k, e.instant) :: processing })
  | .dropProcessing k, s =>
    ((), { s with processing := s.processing.filter fun entry => entry.1 ≠ processingKey k })
  | .recordAttemptWithLabels k shortId labels, s =>
    orFail e s ((), { s with table := s.table.recordAttemptWithLabels e.now k shortId labels })
  | .spawnRun k, s => ((), { s with spawned := s.spawned ++ [k] })
  | .respond _, s => ((), s)
  | .process _, s => ((), s)

end Claudear.Engine.Webhook
