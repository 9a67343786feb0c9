import Claudear.Storage.Security
import Mathlib.Data.List.Sort

/-!
# Queries on the security inbox

What the engine reads. The rows of a list carry their ids, and an `ORDER BY` on a
time compares its text.
-/

namespace Claudear.Storage.Security

open Claudear.Core Claudear.Core.DateTime

inductive Query : Type → Type where
  | report (id : Nat) : Query (Option SecurityReport)
  /-- `list_security_reports` of one state, without a limit. -/
  | reports (state : SecurityReportState) : Query (List (Nat × SecurityReport))
  | reportsForVulnerability (vulnerabilityId : Nat) : Query (List (Nat × SecurityReport))
  | timeline (reportId : Nat) : Query (List SecurityEvent)
  | vulnerability (id : Nat) : Query (Option SecurityVulnerability)
  | vulnerabilityByFirstReport (reportId : Nat) : Query (Option (Nat × SecurityVulnerability))
  | vulnerabilityCandidates (limit : Nat) : Query (List (Nat × SecurityVulnerability))
  | replies (reportId : Nat) : Query (List SecurityReply)
  | award (vulnerabilityId : Nat) : Query (Option SecurityAward)
  | awards (status : Option AwardStatus) : Query (List SecurityAward)

/-- `ORDER BY` a time and the id. -/
def orderBy {ρ : Type} (time : ρ → DateTime) (l : List (Nat × ρ)) : List (Nat × ρ) :=
  l.insertionSort fun a b => rfc3339 (time a.2) < rfc3339 (time b.2) ∨
    rfc3339 (time a.2) = rfc3339 (time b.2) ∧ a.1 ≤ b.1

theorem mem_orderBy {ρ : Type} {time : ρ → DateTime} {l : List (Nat × ρ)} {r : Nat × ρ} :
    r ∈ orderBy time l ↔ r ∈ l :=
  List.mem_insertionSort _

namespace Inbox

def listSecurityReports (d : Inbox) (state : SecurityReportState) : List (Nat × SecurityReport) :=
  (orderBy (·.reportedAt) (d.reports.select (·.2.state = state))).reverse

def listReportsForVulnerability (d : Inbox) (vulnerabilityId : Nat) : List (Nat × SecurityReport) :=
  orderBy (·.reportedAt) (d.reports.select (·.2.vulnerabilityId = some vulnerabilityId))

/-- The events of the report and those of its vulnerability. -/
def listSecurityTimeline (d : Inbox) (reportId : Nat) : List SecurityEvent :=
  let vulnerabilityId := (d.reports.get reportId).bind (·.vulnerabilityId)
  let events := d.events.select fun e => e.2.reportId = some reportId ||
    (e.2.vulnerabilityId.isSome && e.2.vulnerabilityId = vulnerabilityId)
  (orderBy (·.createdAt) events).map Prod.snd

def listSecurityVulnerabilityCandidates (d : Inbox) (limit : Nat) :
    List (Nat × SecurityVulnerability) :=
  ((orderBy (·.createdAt) (d.vulnerabilities.select fun _ => true)).reverse).take limit

def listSecurityReplies (d : Inbox) (reportId : Nat) : List SecurityReply :=
  (orderBy (·.claimedAt) (d.replies.select (·.2.reportId = reportId))).map Prod.snd

def listSecurityAwards (d : Inbox) (status : Option AwardStatus) : List SecurityAward :=
  let awards := d.awards.select fun a => status.isNone || status = some a.2.status
  (orderBy (·.preparedAt) awards).map Prod.snd

end Inbox

def Query.answer (d : Inbox) {α : Type} : Query α → α
  | .report id => d.reports.get id
  | .reports state => d.listSecurityReports state
  | .reportsForVulnerability v => d.listReportsForVulnerability v
  | .timeline reportId => d.listSecurityTimeline reportId
  | .vulnerability id => d.vulnerabilities.get id
  | .vulnerabilityByFirstReport reportId => d.findSecurityVulnerabilityByFirstReport reportId
  | .vulnerabilityCandidates limit => d.listSecurityVulnerabilityCandidates limit
  | .replies reportId => d.listSecurityReplies reportId
  | .award vulnerabilityId => d.award vulnerabilityId
  | .awards status => d.listSecurityAwards status

end Claudear.Storage.Security
