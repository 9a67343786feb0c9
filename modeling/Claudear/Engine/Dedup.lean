import Claudear.Engine.Replies

/-!
# First-reporter deduplication

The programs of `dedup.rs`. `register` only runs while its caller holds the
registration lock. Which vulnerabilities are similar enough to compare, and the
agent's verdict on them, are answers from outside; a verdict that names none of
the candidates is an error.
-/

namespace Claudear.Engine.Security

open Claudear.Core Claudear.Storage Claudear.Storage.Security

def MAX_COMPARED_VULNERABILITIES : Nat := 1000

def NO_DUPLICATE_CHOICE : String := "none"

inductive RegistrationKind where
  /-- A new vulnerability with this report as its first reporter. -/
  | created
  /-- The report was already the first reporter of an existing vulnerability. -/
  | adopted
  /-- The report predates the existing first reporter and took its place. -/
  | replaced
  /-- The report duplicates a vulnerability first reported by someone else. -/
  | duplicate
  /-- The report was already linked to a vulnerability it does not first report. -/
  | relinked
  deriving DecidableEq, Repr

structure Registration where
  kind : RegistrationKind
  vulnerability : Nat × SecurityVulnerability

inductive AssessmentOrigin where
  | agent
  | admin
  deriving DecidableEq, Repr

namespace AssessmentOrigin

def asStr : AssessmentOrigin → String
  | agent => "agent"
  | admin => "admin"

/-- The state a report holds while this origin registers it. -/
def registeringState : AssessmentOrigin → SecurityReportState
  | agent => .assessing
  | admin => .registering

end AssessmentOrigin

structure Assessment where
  title : String
  summary : String
  rootCause : String
  suggestedFix : String
  evidence : String
  severity : Option SecuritySeverity

def Value.ofOption (s : Option String) : Value :=
  match s with
  | some s => .str s
  | none => .null

def Assessment.detail (a : Assessment) (outcome : String) (repository : Option String) : Detail :=
  [("outcome", .str outcome), ("title", .str a.title), ("summary", .str a.summary),
    ("root_cause", .str a.rootCause), ("suggested_fix", .str a.suggestedFix),
    ("evidence", .str a.evidence), ("severity", Value.ofOption (a.severity.map (·.asStr))),
    ("repository", Value.ofOption repository)]

structure MergedFix where
  commit : String
  mergedAt : DateTime

/-- A report found valid, as it was read before the lock was taken. -/
structure ValidReport where
  report : Nat × SecurityReport
  assessment : Assessment
  repository : Option String
  merged : Option MergedFix
  origin : AssessmentOrigin

namespace ValidReport

variable (valid : ValidReport)

def firstReport : FirstReport := ⟨valid.report.1, valid.report.2.reportedAt⟩

def event (kind : SecurityEventKind) (vulnerabilityId : Nat) (registration : RegistrationKind) :
    NewSecurityEvent where
  kind := kind
  detail := valid.assessment.detail SecurityOutcome.valid.asStr valid.repository ++
    [("origin", .str valid.origin.asStr), ("vulnerability_id", .int vulnerabilityId)] ++
    if registration = .relinked then [("relinked", .bool true)] else []

def changes (outcome : SecurityOutcome) (vulnerabilityId : Nat) : SecurityReportChanges where
  outcome := some outcome
  assessmentSummary := some valid.assessment.summary
  affectedRepository := valid.repository
  fixedByCommit := valid.merged.map (·.commit)
  vulnerabilityId := some vulnerabilityId

def linkTracking (v : Nat × SecurityVulnerability) (kind : RegistrationKind) :
    Fallible (Option Registration) := do
  let moved ← store (.transitionReport valid.report.1 valid.origin.registeringState .tracking
    (valid.changes .valid v.1) (valid.event .assessed v.1 kind))
  return if moved then some ⟨kind, v⟩ else none

def linkDuplicate (matched : Nat × SecurityVulnerability) : Fallible (Option Registration) := do
  let award ← query (.award matched.1)
  let decision := selectFirstReporter ⟨matched.2.firstReportId, matched.2.firstReportedAt⟩
    valid.firstReport award.isSome
  let replaced ← if decision = .replace then
      store (.replaceFirstReporter matched.1 matched.2.firstReportId valid.report.1
        valid.report.2.reportedAt)
    else pure false
  if replaced then
    let v ← query (.vulnerability matched.1)
    valid.linkTracking (matched.1, v.getD matched.2) .replaced
  else
    let moved ← store (.transitionReport valid.report.1 valid.origin.registeringState .replying
      (valid.changes .duplicate matched.1)
      (valid.event .duplicateLinked matched.1 .duplicate))
    return if moved then some ⟨.duplicate, matched⟩ else none

def linkedVulnerability : Fallible (Option (Nat × SecurityVulnerability)) :=
  match valid.report.2.vulnerabilityId with
  | some id => do
    let v ← query (.vulnerability id)
    return v.map (id, ·)
  | none => return none

/-- The agent's choice among the candidates. -/
def judge (candidates : List Nat) : Fallible (Option Nat) :=
  if candidates.isEmpty then return none
  else do
    let verdict ← ExceptT.mk (.perform (.securityQuery candidates))
    if verdict = NO_DUPLICATE_CHOICE then return none
    else
      match candidates.find? fun id => toString id = verdict with
      | some id => return some id
      | none => throw (.other "duplicate verdict named an unknown candidate")

def newVulnerability : NewSecurityVulnerability where
  title := valid.assessment.title
  summary := valid.assessment.summary
  repository := valid.repository
  severity := valid.assessment.severity
  state := if valid.merged.isSome then .merged else .awaitingFix
  firstReportId := valid.report.1
  firstReportedAt := valid.report.2.reportedAt
  mergeCommit := valid.merged.map (·.commit)
  mergedAt := valid.merged.map (·.mergedAt)

/-- A report no vulnerability is known for: find the one it duplicates, or create one. -/
def judged : Fallible (Option Registration) := do
  let compared ← query (.vulnerabilityCandidates MAX_COMPARED_VULNERABILITIES)
  let similar ← perform (.similar (compared.map Prod.fst))
  let matched ← judge (similar.filter fun id => compared.any fun v => v.1 = id)
  match matched with
  | some id =>
    let v ← query (.vulnerability id)
    match v with
    | some v => valid.linkDuplicate (id, v)
    | none => throw (.other "duplicate vulnerability disappeared")
  | none =>
    let v ← store (.createVulnerability valid.newVulnerability)
    valid.linkTracking v .created

/-- Link a valid report to its canonical vulnerability. A report already linked to a vulnerability
goes back to it without being judged again. -/
def register : Fallible (Option Registration) := do
  let existing ← query (.vulnerabilityByFirstReport valid.report.1)
  match existing with
  | some v => valid.linkTracking v .adopted
  | none =>
    let linked ← valid.linkedVulnerability
    match linked with
    | some v => valid.linkTracking v .relinked
    | none => valid.judged

end ValidReport

end Claudear.Engine.Security
