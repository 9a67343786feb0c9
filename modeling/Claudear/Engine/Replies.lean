import Claudear.Storage.SecurityQueries
import Claudear.Machine.Prog

/-!
# Sending replies

The programs of `replies.rs`. A program makes one call at a time: a transaction
or a query of the store, a look at the clock, a message to the reporter or a ping
to the owner. Each `?` of the source is a bind of `Fallible`.
-/

namespace Claudear.Engine.Security

open Claudear.Core Claudear.Core.DateTime Claudear.Machine Claudear.Storage Claudear.Storage.Security

inductive ConversationStatus where
  | active
  | pending
  | closed
  deriving DecidableEq, Repr

def ConversationStatus.asStr : ConversationStatus → String
  | active => "active"
  | pending => "pending"
  | closed => "closed"

inductive ReporterReply where
  | sent
  | rejected (error : String)
  | unconfirmed (error : String)
  deriving DecidableEq, Repr

inductive ReviewReason where
  | replyFailed
  | replyUnconfirmed
  deriving DecidableEq, Repr

def ReviewReason.asStr : ReviewReason → String
  | replyFailed => "reply_failed"
  | replyUnconfirmed => "reply_unconfirmed"

inductive OwnerAction where
  | newValidReport
  | needsReview (reason : ReviewReason)
  | awardReady
  deriving DecidableEq, Repr

structure PingSubject where
  reportId : Nat
  vulnerabilityId : Option Nat
  severity : Option SecuritySeverity
  deriving DecidableEq, Repr

def PingSubject.forReport (reportId : Nat) (v : Nat × SecurityVulnerability) : PingSubject :=
  ⟨reportId, some v.1, v.2.severity⟩

/-- The calls of the engine. -/
inductive Req : Type → Type 1 where
  | store {α : Type} (call : Call α) : Req (Except Error α)
  | query {α : Type} (query : Query α) : Req (Except Error α)
  | clock : Req DateTime
  | replyToReporter (conversationId body : String) (status : Option ConversationStatus) :
      Req ReporterReply
  | ping (action : OwnerAction) (subject : PingSubject) : Req Unit
  /-- The agent's verdict on which of the candidates a report duplicates. -/
  | securityQuery (candidates : List Nat) : Req (Except Error String)
  /-- The candidates similar enough to compare. -/
  | similar (compared : List Nat) : Req (List Nat)

abbrev Fallible (α : Type) := ExceptT Error (Prog Req) α

def store {α : Type} (call : Call α) : Fallible α := ExceptT.mk (.perform (.store call))

def query {α : Type} (q : Query α) : Fallible α := ExceptT.mk (.perform (.query q))

def perform {α : Type} (c : Req α) : Fallible α := ExceptT.lift (.perform c)

/-- `record`: an error is noted and what comes next goes on. -/
def record {α : Type} (p : Fallible α) : Prog Req (Option α) := do
  let result ← p.run
  return result.toOption

/-- What the replies depend on; durations are in nanoseconds. The text of a reply and what is kept
of an error are left open. -/
structure SecurityInbox where
  closeAfterReply : Bool
  acknowledgeValid : Bool
  reward : NewSecurityAward
  sendingStaleAfter : Nat
  replyRetryBackoff : Nat
  replyBody : SecurityReport → SecurityReplyKind → String
  truncatedError : String → String

def MAX_REPLY_ATTEMPTS : Nat := 3

/-! ## Retries -/

/-- `TimeDelta::MAX` in nanoseconds. -/
def TIME_DELTA_MAX : Int := 9223372036854775807 * 1000000

/-- `TimeDelta::from_std(…).unwrap_or(TimeDelta::MAX)`. -/
def timeDelta (duration : Nat) : Int := min duration TIME_DELTA_MAX

/-- `checked_mul`; the product's seconds are an `i64`. -/
def checkedMul (delta n : Int) : Option Int :=
  let seconds := delta * n / NANOS_PER_SEC
  if -9223372036854775808 < seconds ∧ seconds < 9223372036854775807 then some (delta * n) else none

/-- A rejected reply waits `backoff` times its attempt count since its last claim before it is sent
again. -/
def retryDue (reply : SecurityReply) (backoff : Int) (now : DateTime) : Bool :=
  let wait := (checkedMul backoff (min reply.attempts 2147483647)).getD TIME_DELTA_MAX
  match reply.claimedAt.checkedAdd wait with
  | some due => due ≤ now
  | none => false

/-! ## Delivery -/

inductive Delivery where
  /-- Another delivery holds or completed this reply, or its retry is not due. -/
  | skipped
  | sent
  | failed
  | unconfirmed
  deriving DecidableEq, Repr

def subjectFor (report : Nat × SecurityReport) : Fallible PingSubject :=
  match report.2.vulnerabilityId with
  | none => return ⟨report.1, none, none⟩
  | some vulnerabilityId => do
    let vulnerability ← query (.vulnerability vulnerabilityId)
    return match vulnerability with
      | some v => .forReport report.1 (vulnerabilityId, v)
      | none => ⟨report.1, none, none⟩

def sharing (kind : SecurityReplyKind) (replies : List SecurityReply) : Option SecurityReply :=
  replies.find? fun reply => reply.kind.sharesLedgerEntryWith kind

def ledgerEntry (reportId : Nat) (kind : SecurityReplyKind) : Fallible (Option SecurityReply) := do
  let replies ← query (.replies reportId)
  return sharing kind replies

namespace SecurityInbox

variable (inbox : SecurityInbox)

def conversationStatus (kind : SecurityReplyKind) : Option ConversationStatus :=
  if kind.isTerminal && inbox.closeAfterReply then some .closed
  else if kind = .confirmed then some .pending
  else none

def markUnconfirmed (report : Nat × SecurityReport) (kind : SecurityReplyKind) (error : String) :
    Fallible Unit := do
  let _ ← store (.completeReply report.1 kind .unconfirmed (some error)
    { kind := .replyUnconfirmed
      detail := [("kind", .str kind.asStr), ("error", .str error)] } none)
  let subject ← subjectFor report
  perform (.ping (.needsReview .replyUnconfirmed) subject)

/-- The last allowed attempt hands the report to an admin, from the state it was read in. -/
def escalation (report : SecurityReport) (attempt : Nat) : Option ReportTransition :=
  let transition : ReportTransition := ⟨report.state, .needsHuman⟩
  if attempt ≥ MAX_REPLY_ATTEMPTS && transition.isAllowed then some transition else none

def recordRejected (report : Nat × SecurityReport) (kind : SecurityReplyKind) (attempt : Nat)
    (error : String) : Fallible Unit := do
  let escalation := escalation report.2 attempt
  let reason := if escalation.isSome then [("reason", .str ReviewReason.replyFailed.asStr)] else []
  let escalated ← store (.completeReply report.1 kind .failed (some error)
    { kind := .replyFailed
      detail := [("kind", .str kind.asStr), ("error", .str error), ("attempt", .int attempt)] ++
        reason } escalation)
  if escalated then
    let subject ← subjectFor report
    perform (.ping (.needsReview .replyFailed) subject)

def recordSent (report : Nat × SecurityReport) (kind : SecurityReplyKind)
    (status : Option ConversationStatus) (completion : Option ReportTransition) :
    Fallible Unit := do
  let text : Value := match status with
    | some status => .str status.asStr
    | none => .null
  let _ ← store (.completeReply report.1 kind .sent none
    { kind := .replySent
      detail := [("kind", .str kind.asStr), ("conversation_status", text)] } completion)
  if status = some .closed then
    store (.recordEvent (some report.1) none
      { kind := .conversationClosed, detail := [("kind", .str kind.asStr)] })

/-- Send the claimed reply and record what came of it. -/
def sendClaimed (report : Nat × SecurityReport) (kind : SecurityReplyKind) (attempt : Nat)
    (completion : Option ReportTransition) : Fallible Delivery := do
  let status := inbox.conversationStatus kind
  let body := inbox.replyBody report.2 kind
  let result ← perform (.replyToReporter report.2.conversationId body status)
  match result with
  | .sent =>
    recordSent report kind status completion
    return .sent
  | .rejected error =>
    recordRejected report kind attempt (inbox.truncatedError error)
    return .failed
  | .unconfirmed error =>
    markUnconfirmed report kind (inbox.truncatedError error)
    return .unconfirmed

/-- The delivery of an earlier claim is not known to have failed, or its retry is not due. -/
def notDue (previous : Option SecurityReply) (now : DateTime) : Bool :=
  previous.any fun reply =>
    reply.status ≠ .failed || !retryDue reply (timeDelta inbox.replyRetryBackoff) now

/-- Send `kind` unless a delivery of it already exists or its retry is not due; when it is sent,
apply `completion` to the report. -/
def deliver (report : Nat × SecurityReport) (kind : SecurityReplyKind)
    (completion : Option ReportTransition) : Fallible Delivery := do
  let previous ← ledgerEntry report.1 kind
  let now ← perform .clock
  if inbox.notDue previous now then return .skipped
  else
    let attempt := (previous.map (·.attempts)).getD 0 + 1
    let error : Value := match previous.bind (·.error) with
      | some error => .str error
      | none => .null
    let claimed ← store (.claimReply report.1 kind
      { kind := .replyClaimed
        detail := [("kind", .str kind.asStr), ("attempt", .int attempt),
          ("previous_error", error)] })
    if claimed then inbox.sendClaimed report kind attempt completion
    else return .skipped

/-- Deliver `kind`, or finish `completion` for a reply that was already sent. A fix-live reply
already recorded under the other fix-live kind keeps its kind. -/
def ensureDelivered (report : Nat × SecurityReport) (kind : SecurityReplyKind)
    (completion : ReportTransition) : Fallible Delivery := do
  let existing ← ledgerEntry report.1 kind
  match existing with
  | none => inbox.deliver report kind (some completion)
  | some reply =>
    match reply.status with
    | .failed => inbox.deliver report reply.kind (some completion)
    | .sent =>
      let _ ← store (.transitionReport report.1 completion.fromState completion.toState {}
        { kind := .replySent
          detail := [("kind", .str reply.kind.asStr), ("recovered", .bool true)] })
      return .skipped
    | .sending | .unconfirmed => return .skipped

end SecurityInbox

end Claudear.Engine.Security
