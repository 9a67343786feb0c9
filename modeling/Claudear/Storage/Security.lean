import Claudear.Core.Security
import Claudear.Sql.Table
import Claudear.Sql.Tx
import Claudear.Machine.Run
import Claudear.Storage.Error

/-!
# The security inbox store

The calls of `sqlite/security_reports.rs` on its five tables: reports,
vulnerabilities, the event timeline, the reply ledger and awards. A call is one
immediate transaction at the time `now`; a failing statement, or an answer given
before the commit, rolls it back. Foreign keys and unique indexes are checked by
the statements that can break them. Times are stored by `timestamp` and compared
as text.
-/

namespace Claudear.Storage.Security

open Claudear.Core Claudear.Core.DateTime Claudear.Sql

structure SecurityReport where
  source : String
  conversationId : String
  shortId : String
  mailboxId : String
  url : String
  subject : String
  reporterEmail : Option String
  reporterCustomerId : Option String
  reportedAt : DateTime
  state : SecurityReportState
  outcome : Option SecurityOutcome := none
  publicReason : Option String := none
  assessmentSummary : Option String := none
  affectedRepository : Option String := none
  fixedByCommit : Option String := none
  /-- A day of the calendar. -/
  fixedOn : Option Int := none
  assessmentAttempts : Nat := 0
  customerThreadCount : Nat
  vulnerabilityId : Option Nat := none
  createdAt : DateTime
  updatedAt : DateTime
  deriving DecidableEq, Repr

structure NewSecurityReport where
  source : String
  conversationId : String
  shortId : String
  mailboxId : String
  url : String
  subject : String
  reporterEmail : Option String
  reporterCustomerId : Option String
  reportedAt : DateTime
  customerThreadCount : Nat
  deriving DecidableEq, Repr

/-- Sparse update: only `some` fields are written. -/
structure SecurityReportChanges where
  outcome : Option SecurityOutcome := none
  publicReason : Option String := none
  assessmentSummary : Option String := none
  affectedRepository : Option String := none
  fixedByCommit : Option String := none
  fixedOn : Option Int := none
  assessmentAttempts : Option Nat := none
  vulnerabilityId : Option Nat := none
  deriving DecidableEq, Repr

structure SecurityVulnerability where
  title : String
  summary : String
  repository : Option String
  severity : Option SecuritySeverity
  state : VulnerabilityState
  firstReportId : Nat
  firstReportedAt : DateTime
  fixAttemptId : Option Nat := none
  pullRequestUrl : Option String := none
  mergeCommit : Option String
  mergedAt : Option DateTime
  deployedVersion : Option String := none
  liveAt : Option DateTime := none
  createdAt : DateTime
  updatedAt : DateTime
  deriving DecidableEq, Repr

structure NewSecurityVulnerability where
  title : String
  summary : String
  repository : Option String
  severity : Option SecuritySeverity
  state : VulnerabilityState
  firstReportId : Nat
  firstReportedAt : DateTime
  mergeCommit : Option String
  mergedAt : Option DateTime
  deriving DecidableEq, Repr

/-- Sparse update: only `some` fields are written. -/
structure SecurityVulnerabilityChanges where
  repository : Option String := none
  fixAttemptId : Option Nat := none
  pullRequestUrl : Option String := none
  mergeCommit : Option String := none
  mergedAt : Option DateTime := none
  deployedVersion : Option String := none
  liveAt : Option DateTime := none
  deriving DecidableEq, Repr

structure SecurityEvent where
  reportId : Option Nat
  vulnerabilityId : Option Nat
  kind : SecurityEventKind
  fromState : Option String
  toState : Option String
  actor : Option String
  detail : Detail
  createdAt : DateTime
  deriving DecidableEq, Repr

structure SecurityReply where
  reportId : Nat
  kind : SecurityReplyKind
  status : DeliveryStatus
  error : Option String := none
  attempts : Nat
  claimedAt : DateTime
  completedAt : Option DateTime := none
  deriving DecidableEq, Repr

structure SecurityAward where
  vulnerabilityId : Nat
  reportId : Nat
  recipientEmail : Option String
  campaign : String
  credits : Nat
  status : AwardStatus
  actor : Option String := none
  note : Option String := none
  preparedAt : DateTime
  updatedAt : DateTime
  deriving DecidableEq, Repr

structure NewSecurityAward where
  campaign : String
  credits : Nat
  deriving DecidableEq, Repr

structure Inbox where
  reports : Table SecurityReport
  vulnerabilities : Table SecurityVulnerability
  events : Table SecurityEvent
  replies : Table SecurityReply
  awards : Table SecurityAward

def Inbox.empty : Inbox := ⟨.empty, .empty, .empty, .empty, .empty⟩

abbrev InboxTx (α : Type) := Tx Inbox Error α

def FOREIGN_KEY : Error := .database "FOREIGN KEY constraint failed"

/-! ## Reading rows back -/

/-- `parse_time` wants four digits for the year. -/
def UNREADABLE_TIME : Error :=
  .database "Conversion error from type Text at index: 0, input contains invalid characters"

/-- The times of the row can be parsed. -/
def SecurityReport.Readable (r : SecurityReport) : Prop :=
  r.reportedAt.Writable ∧ r.createdAt.Writable ∧ r.updatedAt.Writable

instance (r : SecurityReport) : Decidable r.Readable := inferInstanceAs (Decidable (_ ∧ _))

def SecurityVulnerability.Readable (v : SecurityVulnerability) : Prop :=
  v.firstReportedAt.Writable ∧ (∀ t ∈ v.mergedAt, t.Writable) ∧ (∀ t ∈ v.liveAt, t.Writable) ∧
    v.createdAt.Writable ∧ v.updatedAt.Writable

instance (v : SecurityVulnerability) : Decidable v.Readable := inferInstanceAs (Decidable (_ ∧ _))

def rowToReport (r : Nat × SecurityReport) : Except Error (Nat × SecurityReport) := do
  require r.2.Readable UNREADABLE_TIME
  return r

def rowToVulnerability (v : Nat × SecurityVulnerability) : Except Error (Nat × SecurityVulnerability) := do
  require v.2.Readable UNREADABLE_TIME
  return v

/-! ## Statements -/

/-- What an event is about, and the states it leads from and to. -/
structure EventRow where
  reportId : Option Nat := none
  vulnerabilityId : Option Nat := none
  fromState : Option String := none
  toState : Option String := none
  deriving DecidableEq, Repr

def EventRow.stored (row : EventRow) (event : NewSecurityEvent) (createdAt : DateTime) :
    SecurityEvent where
  reportId := row.reportId
  vulnerabilityId := row.vulnerabilityId
  kind := event.kind
  fromState := row.fromState
  toState := row.toState
  actor := event.actor
  detail := event.detail
  createdAt := createdAt

def insertEvent (row : EventRow) (event : NewSecurityEvent) (createdAt : DateTime) : InboxTx Unit :=
  fun d => do
    require (∀ i ∈ row.reportId, (d.reports.get i).isSome) FOREIGN_KEY
    require (∀ i ∈ row.vulnerabilityId, (d.vulnerabilities.get i).isSome) FOREIGN_KEY
    return ((), { d with events := d.events.insert (row.stored event createdAt) })

/-- `report_assignments`. -/
def SecurityReportChanges.assign (changes : SecurityReportChanges) (r : SecurityReport) :
    SecurityReport :=
  { r with
    outcome := changes.outcome.or r.outcome
    publicReason := changes.publicReason.or r.publicReason
    assessmentSummary := changes.assessmentSummary.or r.assessmentSummary
    affectedRepository := changes.affectedRepository.or r.affectedRepository
    fixedByCommit := changes.fixedByCommit.or r.fixedByCommit
    fixedOn := changes.fixedOn.or r.fixedOn
    assessmentAttempts := changes.assessmentAttempts.getD r.assessmentAttempts
    vulnerabilityId := changes.vulnerabilityId.or r.vulnerabilityId }

/-- `vulnerability_assignments`. -/
def SecurityVulnerabilityChanges.assign (changes : SecurityVulnerabilityChanges)
    (v : SecurityVulnerability) : SecurityVulnerability :=
  { v with
    repository := changes.repository.or v.repository
    fixAttemptId := changes.fixAttemptId.or v.fixAttemptId
    pullRequestUrl := changes.pullRequestUrl.or v.pullRequestUrl
    mergeCommit := changes.mergeCommit.or v.mergeCommit
    mergedAt := (changes.mergedAt.map timestamp).or v.mergedAt
    deployedVersion := changes.deployedVersion.or v.deployedVersion
    liveAt := (changes.liveAt.map timestamp).or v.liveAt }

def inState (id : Nat) (expected : SecurityReportState) (r : Nat × SecurityReport) : Bool :=
  r.1 = id && r.2.state = expected

/-- `update_in_state` on reports, for the assignments of `move_report`. -/
def updateReportInState (id : Nat) (expected next : SecurityReportState)
    (changes : SecurityReportChanges) (updatedAt : DateTime) : InboxTx Bool := fun d => do
  require (d.reports.any (inState id expected) = true →
    ∀ v ∈ changes.vulnerabilityId, (d.vulnerabilities.get v).isSome) FOREIGN_KEY
  return (d.reports.any (inState id expected),
    { d with reports := d.reports.update (inState id expected) fun r =>
        changes.assign { r with state := next, updatedAt := updatedAt } })

def moveReport (id : Nat) (transition : ReportTransition) (changes : SecurityReportChanges)
    (updatedAt : DateTime) : InboxTx Bool :=
  if transition.isAllowed then
    updateReportInState id transition.fromState transition.toState changes updatedAt
  else return false

def vulnerabilityInState (id : Nat) (expected : VulnerabilityState)
    (v : Nat × SecurityVulnerability) : Bool :=
  v.1 = id && v.2.state = expected

/-- `update_in_state` on vulnerabilities. -/
def updateVulnerabilityInState (id : Nat) (expected next : VulnerabilityState)
    (changes : SecurityVulnerabilityChanges) (updatedAt : DateTime) : InboxTx Bool := fun d =>
  return (d.vulnerabilities.any (vulnerabilityInState id expected),
    { d with vulnerabilities := d.vulnerabilities.update (vulnerabilityInState id expected) fun v =>
        changes.assign { v with state := next, updatedAt := updatedAt } })

/-! ## Reports -/

def ofConversation (source conversationId : String) (r : Nat × SecurityReport) : Bool :=
  r.2.source = source && r.2.conversationId = conversationId

def NewSecurityReport.stored (report : NewSecurityReport) (createdAt : DateTime) :
    SecurityReport where
  source := report.source
  conversationId := report.conversationId
  shortId := report.shortId
  mailboxId := report.mailboxId
  url := report.url
  subject := report.subject
  reporterEmail := report.reporterEmail
  reporterCustomerId := report.reporterCustomerId
  reportedAt := timestamp report.reportedAt
  state := .received
  customerThreadCount := report.customerThreadCount
  createdAt := createdAt
  updatedAt := createdAt

/-- `INSERT … ON CONFLICT(source, conversation_id) DO NOTHING`, with the new row's id. -/
def insertReport (report : NewSecurityReport) (createdAt : DateTime) : InboxTx (Option Nat) :=
  fun d =>
    if d.reports.any (ofConversation report.source report.conversationId) then
      return (none, { d with reports := d.reports.skip })
    else
      return (some d.reports.next, { d with reports := d.reports.insert (report.stored createdAt) })

def readConversation (source conversationId : String) : InboxTx (Nat × SecurityReport) := fun d =>
  match d.reports.first (ofConversation source conversationId) with
  | some r => return (← rowToReport r, d)
  | none => throw (.storage
      ("security report " ++ source ++ ":" ++ conversationId ++ " missing after upsert"))

def recordReceived (createdAt : DateTime) : Option Nat → InboxTx Unit
  | none => return ()
  | some id =>
    insertEvent { reportId := some id, toState := some SecurityReportState.received.asStr }
      { kind := .received } createdAt

def upsertSecurityReport (now : DateTime) (report : NewSecurityReport) :
    InboxTx (Nat × SecurityReport) := do
  let createdAt := timestamp now
  let inserted ← insertReport report createdAt
  recordReceived createdAt inserted
  readConversation report.source report.conversationId

def transitionSecurityReport (now : DateTime) (id : Nat) (expected next : SecurityReportState)
    (changes : SecurityReportChanges) (event : NewSecurityEvent) : InboxTx Bool := do
  let updatedAt := timestamp now
  let moved ← moveReport id ⟨expected, next⟩ changes updatedAt
  if moved then
    insertEvent
      { reportId := some id, fromState := some expected.asStr, toState := some next.asStr }
      event updatedAt
    return true
  else return false

/-- The assessments last written before `cutoff`. -/
def Inbox.staleAssessments (d : Inbox) (cutoff : DateTime) : List Nat :=
  (d.reports.select fun r => r.2.state = .assessing &&
    rfc3339 r.2.updatedAt < rfc3339 (timestamp cutoff)).map Prod.fst

/-- The body of the loop over the stale assessments; `staleAfter` is in nanoseconds. -/
def releaseAssessment (staleAfter : Nat) (updatedAt : DateTime) (id : Nat) : InboxTx Unit := do
  fun d => return ((), { d with reports := d.reports.update (inState id .assessing) fun r =>
    { r with state := .received, assessmentAttempts := r.assessmentAttempts + 1
             updatedAt := updatedAt } })
  insertEvent
    { reportId := some id
      fromState := some SecurityReportState.assessing.asStr
      toState := some SecurityReportState.received.asStr }
    { kind := .assessmentReleased
      detail := [("stale_after_secs", .int (staleAfter / NANOS_PER_SEC : Nat))] }
    updatedAt

def releaseStaleSecurityAssessments (now : DateTime) (staleAfter : Nat) : InboxTx Nat :=
  match now.checkedAdd (-staleAfter) with
  | none => return 0
  | some cutoff => do
    let stale ← Tx.read (·.staleAssessments cutoff)
    stale.forM (releaseAssessment staleAfter (timestamp now))
    return stale.length

def hasThreadCount (id count : Nat) (r : Nat × SecurityReport) : Bool :=
  r.1 = id && r.2.customerThreadCount = count

def setThreadCount (id expectedCount newCount : Nat) (updatedAt : DateTime) : InboxTx Bool :=
  fun d => return (d.reports.any (hasThreadCount id expectedCount),
    { d with reports := d.reports.update (hasThreadCount id expectedCount) fun r =>
        { r with customerThreadCount := newCount, updatedAt := updatedAt } })

def recordSecurityFollowUp (now : DateTime) (id expectedCount newCount : Nat) : InboxTx Bool :=
  if newCount ≤ expectedCount then return false
  else do
    let changed ← setThreadCount id expectedCount newCount (timestamp now)
    if changed then
      insertEvent { reportId := some id }
        { kind := .reporterFollowUp
          detail := [("previous_count", .int expectedCount),
            ("customer_thread_count", .int newCount)] }
        (timestamp now)
      return true
    else return false

def recordSecurityEvent (now : DateTime) (reportId vulnerabilityId : Option Nat)
    (event : NewSecurityEvent) : InboxTx Unit :=
  if reportId.isNone && vulnerabilityId.isNone then
    throw (.storage "a security event needs a report or a vulnerability")
  else
    insertEvent { reportId := reportId, vulnerabilityId := vulnerabilityId } event (timestamp now)

/-! ## Vulnerabilities -/

def NewSecurityVulnerability.stored (v : NewSecurityVulnerability) (createdAt : DateTime) :
    SecurityVulnerability where
  title := v.title
  summary := v.summary
  repository := v.repository
  severity := v.severity
  state := v.state
  firstReportId := v.firstReportId
  firstReportedAt := timestamp v.firstReportedAt
  mergeCommit := v.mergeCommit
  mergedAt := v.mergedAt.map timestamp
  createdAt := createdAt
  updatedAt := createdAt

def insertVulnerability (v : NewSecurityVulnerability) (createdAt : DateTime) : InboxTx Nat :=
  fun d => do
    require ((d.reports.get v.firstReportId).isSome) FOREIGN_KEY
    return (d.vulnerabilities.next,
      { d with vulnerabilities := d.vulnerabilities.insert (v.stored createdAt) })

def readVulnerability (id : Nat) : InboxTx (Nat × SecurityVulnerability) := fun d =>
  match d.vulnerabilities.get id with
  | some v => return (← rowToVulnerability (id, v), d)
  | none => throw (.storage ("security vulnerability " ++ toString id ++ " missing after insert"))

def createSecurityVulnerability (now : DateTime) (v : NewSecurityVulnerability) :
    InboxTx (Nat × SecurityVulnerability) :=
  if v.state.isInitial then do
    let id ← insertVulnerability v (timestamp now)
    insertEvent { vulnerabilityId := some id, toState := some v.state.asStr }
      { kind := .vulnerabilityCreated, detail := [("first_report_id", .int v.firstReportId)] }
      (timestamp now)
    readVulnerability id
  else throw (.storage ("a vulnerability cannot start in " ++ v.state.asStr))

/-- The vulnerability with the smallest id the report is the first reporter of. -/
def Inbox.findSecurityVulnerabilityByFirstReport (d : Inbox) (reportId : Nat) :
    Option (Nat × SecurityVulnerability) :=
  d.vulnerabilities.first (·.2.firstReportId = reportId)

def transitionSecurityVulnerability (now : DateTime) (id : Nat) (expected next : VulnerabilityState)
    (changes : SecurityVulnerabilityChanges) (event : NewSecurityEvent) : InboxTx Bool :=
  if expected.canTransitionTo next then do
    let updated ← updateVulnerabilityInState id expected next changes (timestamp now)
    if updated then
      insertEvent
        { vulnerabilityId := some id, fromState := some expected.asStr, toState := some next.asStr }
        event (timestamp now)
      return true
    else return false
  else return false

/-- The `WHERE` of the statement that replaces the first reporter. -/
def Inbox.replaceable (d : Inbox) (id expectedFirstReportId reportId : Nat) (reportedAt : DateTime)
    (v : Nat × SecurityVulnerability) : Bool :=
  v.1 = id && v.2.firstReportId = expectedFirstReportId &&
    (rfc3339 v.2.firstReportedAt > rfc3339 reportedAt ||
      (rfc3339 v.2.firstReportedAt = rfc3339 reportedAt && v.2.firstReportId > reportId)) &&
    !d.awards.any (·.2.vulnerabilityId = id)

def setFirstReporter (id expectedFirstReportId reportId : Nat) (reportedAt updatedAt : DateTime) :
    InboxTx Bool := fun d => do
  let p := d.replaceable id expectedFirstReportId reportId reportedAt
  require (d.vulnerabilities.any p = true → (d.reports.get reportId).isSome) FOREIGN_KEY
  return (d.vulnerabilities.any p, { d with vulnerabilities := d.vulnerabilities.update p fun v =>
    { v with firstReportId := reportId, firstReportedAt := reportedAt, updatedAt := updatedAt } })

def replaceFirstReporter (now : DateTime) (id expectedFirstReportId reportId : Nat)
    (reportedAt : DateTime) : InboxTx Bool :=
  if reportId = expectedFirstReportId then return false
  else do
    let replaced ←
      setFirstReporter id expectedFirstReportId reportId (timestamp reportedAt) (timestamp now)
    if replaced then
      insertEvent { vulnerabilityId := some id }
        { kind := .firstReporterReplaced
          detail := [("previous_report_id", .int expectedFirstReportId),
            ("report_id", .int reportId)] }
        (timestamp now)
      return true
    else return false

/-! ## The reply ledger -/

def ofReply (reportId : Nat) (kind : SecurityReplyKind) (r : Nat × SecurityReply) : Bool :=
  r.2.reportId = reportId && r.2.kind = kind

def ofReplyIn (reportId : Nat) (kind : SecurityReplyKind) (status : DeliveryStatus)
    (r : Nat × SecurityReply) : Bool :=
  ofReply reportId kind r && r.2.status = status

/-- `query_reply`. -/
def Inbox.reply (d : Inbox) (reportId : Nat) (kind : SecurityReplyKind) : Option SecurityReply :=
  (d.replies.first (ofReply reportId kind)).map Prod.snd

def Inbox.hasOtherFixLiveReply (d : Inbox) (reportId : Nat) (kind : SecurityReplyKind) : Bool :=
  kind.isFixLive && d.replies.any fun r =>
    r.2.reportId = reportId && r.2.kind.isFixLive && r.2.kind ≠ kind

def newReply (reportId : Nat) (kind : SecurityReplyKind) (claimedAt : DateTime) : SecurityReply where
  reportId := reportId
  kind := kind
  status := .sending
  attempts := 1
  claimedAt := claimedAt

def insertReply (reportId : Nat) (kind : SecurityReplyKind) (claimedAt : DateTime) : InboxTx Unit :=
  fun d => do
    require (d.replies.any (ofReply reportId kind) = false)
      (.database "UNIQUE constraint failed: security_replies.report_id, security_replies.kind")
    require (¬ (kind.isFixLive ∧ d.replies.any fun r => r.2.reportId = reportId && r.2.kind.isFixLive))
      (.database "UNIQUE constraint failed: security_replies.report_id")
    require ((d.reports.get reportId).isSome) FOREIGN_KEY
    return ((), { d with replies := d.replies.insert (newReply reportId kind claimedAt) })

/-- The claim of a reply whose last delivery failed. -/
def reclaimReply (reportId : Nat) (kind : SecurityReplyKind) (claimedAt : DateTime) :
    InboxTx Unit := fun d =>
  return ((), { d with replies := d.replies.update (ofReplyIn reportId kind .failed) fun r =>
    { r with status := .sending, attempts := r.attempts + 1, claimedAt := claimedAt
             completedAt := none } })

def recordClaim (reportId : Nat) (previous : Option DeliveryStatus) (event : NewSecurityEvent)
    (claimedAt : DateTime) : InboxTx Bool := do
  insertEvent
    { reportId := some reportId
      fromState := previous.map (·.asStr)
      toState := some DeliveryStatus.sending.asStr }
    event claimedAt
  return true

def claimSecurityReply (now : DateTime) (reportId : Nat) (kind : SecurityReplyKind)
    (event : NewSecurityEvent) : InboxTx Bool := do
  let claimedAt := timestamp now
  let other ← Tx.read (·.hasOtherFixLiveReply reportId kind)
  if other then return false
  else
    let previous ← Tx.read fun d => (d.reply reportId kind).map (·.status)
    match previous with
    | none =>
      insertReply reportId kind claimedAt
      recordClaim reportId previous event claimedAt
    | some .failed =>
      reclaimReply reportId kind claimedAt
      recordClaim reportId previous event claimedAt
    | some _ => return false

/-- `UPDATE security_replies SET status, error, completed_at` of the reply, if it is in status
`expected`. -/
def finishReply (reportId : Nat) (kind : SecurityReplyKind) (expected status : DeliveryStatus)
    (error : Option String) (completedAt : DateTime) : InboxTx Bool := fun d =>
  return (d.replies.any (ofReplyIn reportId kind expected),
    { d with replies := d.replies.update (ofReplyIn reportId kind expected) fun r =>
        { r with status := status, error := error, completedAt := some completedAt } })

def moveOptReport (id : Nat) (updatedAt : DateTime) : Option ReportTransition → InboxTx Bool
  | some transition => moveReport id transition {} updatedAt
  | none => return false

/-- The event of a completion carries the report's transition when the report moved. -/
def completionRow (reportId : Nat) (status : DeliveryStatus) (moved : Bool) :
    Option ReportTransition → EventRow
  | some transition =>
    if moved then
      { reportId := some reportId
        fromState := some transition.fromState.asStr
        toState := some transition.toState.asStr }
    else
      { reportId := some reportId
        fromState := some DeliveryStatus.sending.asStr
        toState := some status.asStr }
  | none =>
    { reportId := some reportId
      fromState := some DeliveryStatus.sending.asStr
      toState := some status.asStr }

def completeSecurityReply (now : DateTime) (reportId : Nat) (kind : SecurityReplyKind)
    (status : DeliveryStatus) (error : Option String) (event : NewSecurityEvent)
    (transition : Option ReportTransition) : InboxTx Bool :=
  if status.isCompletion then do
    let completedAt := timestamp now
    let completed ← finishReply reportId kind .sending status error completedAt
    if completed then
      let moved ← moveOptReport reportId completedAt transition
      insertEvent (completionRow reportId status moved transition) event completedAt
      return moved
    else throw (.storage ("no " ++ kind.asStr ++ " reply is being sent for security report " ++
      toString reportId))
  else throw (.storage ("a reply cannot complete as " ++ status.asStr))

def NOT_DELIVERED_ERROR : String := "confirmed not delivered by an admin"

def confirmSecurityReply (now : DateTime) (reportId : Nat) (kind : SecurityReplyKind)
    (delivered : Bool) (actor : String) : InboxTx Bool := do
  let status : DeliveryStatus := if delivered then .sent else .failed
  let error := if delivered then none else some NOT_DELIVERED_ERROR
  let confirmed ← finishReply reportId kind .unconfirmed status error (timestamp now)
  if confirmed then
    insertEvent
      { reportId := some reportId
        fromState := some DeliveryStatus.unconfirmed.asStr
        toState := some status.asStr }
      { kind := .deliveryConfirmed
        actor := some actor
        detail := [("kind", .str kind.asStr), ("delivered", .bool delivered)] }
      (timestamp now)
    return true
  else return false

/-! ## Awards -/

/-- `query_award`. -/
def Inbox.award (d : Inbox) (vulnerabilityId : Nat) : Option SecurityAward :=
  (d.awards.first (·.2.vulnerabilityId = vulnerabilityId)).map Prod.snd

def NewSecurityAward.stored (award : NewSecurityAward) (vulnerabilityId reportId : Nat)
    (recipientEmail : Option String) (preparedAt : DateTime) : SecurityAward where
  vulnerabilityId := vulnerabilityId
  reportId := reportId
  recipientEmail := recipientEmail
  campaign := award.campaign
  credits := award.credits
  status := .prepared
  preparedAt := preparedAt
  updatedAt := preparedAt

/-- The `INSERT … SELECT … ON CONFLICT(vulnerability_id) DO NOTHING`: the vulnerability with its
first reporter, if that is `reportId`. -/
def insertAward (vulnerabilityId reportId : Nat) (award : NewSecurityAward) (preparedAt : DateTime) :
    InboxTx Bool := fun d =>
  match d.vulnerabilities.get vulnerabilityId, d.reports.get reportId with
  | some v, some r =>
    if v.firstReportId = reportId && !d.awards.any (·.2.vulnerabilityId = vulnerabilityId) then
      let a := award.stored vulnerabilityId reportId r.reporterEmail preparedAt
      return (true, { d with awards := d.awards.insert a })
    else return (false, d)
  | _, _ => return (false, d)

def prepareSecurityAward (now : DateTime) (vulnerabilityId reportId : Nat)
    (award : NewSecurityAward) : InboxTx Bool := do
  let prepared ← insertAward vulnerabilityId reportId award (timestamp now)
  if prepared then
    insertEvent { vulnerabilityId := some vulnerabilityId, toState := some AwardStatus.prepared.asStr }
      { kind := AwardStatus.prepared.eventKind
        detail := [("report_id", .int reportId), ("campaign", .str award.campaign),
          ("credits", .int award.credits)] }
      (timestamp now)
    return true
  else return false

def awardInStatus (vulnerabilityId : Nat) (status : AwardStatus) (a : Nat × SecurityAward) : Bool :=
  a.2.vulnerabilityId = vulnerabilityId && a.2.status = status

def setAwardStatus (vulnerabilityId : Nat) (current next : AwardStatus) (actor note : Option String)
    (updatedAt : DateTime) : InboxTx Bool := fun d =>
  return (d.awards.any (awardInStatus vulnerabilityId current),
    { d with awards := d.awards.update (awardInStatus vulnerabilityId current) fun a =>
        { a with status := next, actor := actor.or a.actor, note := note.or a.note
                 updatedAt := updatedAt } })

def updateSecurityAwardStatus (now : DateTime) (vulnerabilityId : Nat) (expected : List AwardStatus)
    (next : AwardStatus) (actor note : Option String) : InboxTx Bool := do
  let found ← Tx.read (·.award vulnerabilityId)
  match found with
  | none => return false
  | some award =>
    if expected.contains award.status && award.status.canTransitionTo next then
      let updated ←
        setAwardStatus vulnerabilityId award.status next actor note (timestamp now)
      if updated then
        insertEvent
          { vulnerabilityId := some vulnerabilityId
            fromState := some award.status.asStr
            toState := some next.asStr }
          { kind := next.eventKind, actor := actor, detail := [("report_id", .int award.reportId)] }
          (timestamp now)
        return true
      else return false
    else return false

/-! ## Runs -/

/-- A call that writes, by the type of its answer. -/
inductive Call : Type → Type where
  | upsertReport (report : NewSecurityReport) : Call (Nat × SecurityReport)
  | transitionReport (id : Nat) (expected next : SecurityReportState)
      (changes : SecurityReportChanges) (event : NewSecurityEvent) : Call Bool
  | releaseStale (staleAfter : Nat) : Call Nat
  | followUp (id expectedCount newCount : Nat) : Call Bool
  | recordEvent (reportId vulnerabilityId : Option Nat) (event : NewSecurityEvent) : Call Unit
  | createVulnerability (v : NewSecurityVulnerability) : Call (Nat × SecurityVulnerability)
  | transitionVulnerability (id : Nat) (expected next : VulnerabilityState)
      (changes : SecurityVulnerabilityChanges) (event : NewSecurityEvent) : Call Bool
  | replaceFirstReporter (id expectedFirstReportId reportId : Nat) (reportedAt : DateTime) :
      Call Bool
  | claimReply (reportId : Nat) (kind : SecurityReplyKind) (event : NewSecurityEvent) : Call Bool
  | completeReply (reportId : Nat) (kind : SecurityReplyKind) (status : DeliveryStatus)
      (error : Option String) (event : NewSecurityEvent) (transition : Option ReportTransition) :
      Call Bool
  | confirmReply (reportId : Nat) (kind : SecurityReplyKind) (delivered : Bool) (actor : String) :
      Call Bool
  | prepareAward (vulnerabilityId reportId : Nat) (award : NewSecurityAward) : Call Bool
  | updateAward (vulnerabilityId : Nat) (expected : List AwardStatus) (next : AwardStatus)
      (actor note : Option String) : Call Bool

def exec (now : DateTime) {α : Type} : Call α → InboxTx α
  | .upsertReport report => upsertSecurityReport now report
  | .transitionReport id expected next changes event =>
    transitionSecurityReport now id expected next changes event
  | .releaseStale staleAfter => releaseStaleSecurityAssessments now staleAfter
  | .followUp id expectedCount newCount => recordSecurityFollowUp now id expectedCount newCount
  | .recordEvent reportId vulnerabilityId event =>
    recordSecurityEvent now reportId vulnerabilityId event
  | .createVulnerability v => createSecurityVulnerability now v
  | .transitionVulnerability id expected next changes event =>
    transitionSecurityVulnerability now id expected next changes event
  | .replaceFirstReporter id expectedFirstReportId reportId reportedAt =>
    replaceFirstReporter now id expectedFirstReportId reportId reportedAt
  | .claimReply reportId kind event => claimSecurityReply now reportId kind event
  | .completeReply reportId kind status error event transition =>
    completeSecurityReply now reportId kind status error event transition
  | .confirmReply reportId kind delivered actor =>
    confirmSecurityReply now reportId kind delivered actor
  | .prepareAward vulnerabilityId reportId award =>
    prepareSecurityAward now vulnerabilityId reportId award
  | .updateAward vulnerabilityId expected next actor note =>
    updateSecurityAwardStatus now vulnerabilityId expected next actor note

/-- A call at the time `now`. -/
structure Op where
  now : DateTime
  {α : Type}
  call : Call α

/-- The store after a call; a call that fails changes nothing. -/
def step (d : Inbox) (op : Op) : Inbox := (exec op.now op.call).commit d

end Claudear.Storage.Security
