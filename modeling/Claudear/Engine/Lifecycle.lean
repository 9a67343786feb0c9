import Claudear.Engine.Dedup

/-!
# The sweep

The steps of `advance` that send replies and hand out awards, and the replies
that follow an assessment. What the sweep does between them (releases, fixes,
registrations) does not touch the ledger.
-/

namespace Claudear.Engine.Security

open Claudear.Core Claudear.Core.DateTime Claudear.Machine Claudear.Storage Claudear.Storage.Security

def UNCONFIRMED_AFTER_RESTART : String :=
  "delivery outcome unknown: the reply was still sending when claudear stopped"

def MIN_UTC : DateTime := ⟨MIN_SECS, 0, .inl (by decide)⟩

namespace SecurityInbox

variable (inbox : SecurityInbox)

/-! ## Settling replies -/

/-- A reply still sending long after its claim may or may not have gone out: it is never resent. -/
def expireStaleSending (report : Nat × SecurityReport) : Fallible Unit := do
  let now ← perform .clock
  let cutoff := (now.checkedAdd (-timeDelta inbox.sendingStaleAfter)).getD MIN_UTC
  let replies ← query (.replies report.1)
  replies.forM fun reply =>
    if reply.status = .sending ∧ reply.claimedAt ≤ cutoff then
      markUnconfirmed report reply.kind UNCONFIRMED_AFTER_RESTART
    else return ()

/-- A first reporter still lacks its acknowledgement while the fix is not live yet. -/
def awaitsConfirmation (report : Nat × SecurityReport) : Fallible Bool :=
  match inbox.acknowledgeValid, report.2.vulnerabilityId with
  | true, some vulnerabilityId => do
    let vulnerability ← query (.vulnerability vulnerabilityId)
    match vulnerability with
    | none => return false
    | some v =>
      if v.firstReportId ≠ report.1 ∨ v.state = .live then return false
      else
        let replies ← query (.replies report.1)
        return (replies.find? fun reply => reply.kind = .confirmed).all fun reply =>
          reply.status = .failed
  | _, _ => return false

/-- The reply of the report's outcome, and the report's way to `closed` once it is sent. -/
def replyWith (report : Nat × SecurityReport) : Fallible Unit :=
  match report.2.outcome.bind SecurityReplyKind.forOutcome with
  | none => return ()
  | some kind => do
    let _ ← inbox.ensureDelivered report kind ⟨.replying, .closed⟩

def settleReportReplies (report : Nat × SecurityReport) : Fallible Unit := do
  inbox.expireStaleSending report
  match report.2.state with
  | .replying => inbox.replyWith report
  | .tracking =>
    let awaits ← inbox.awaitsConfirmation report
    if awaits then
      let _ ← inbox.deliver report .confirmed none
  | _ => return ()

def settleReplies : Prog Req Unit :=
  [SecurityReportState.replying, .tracking].forM fun state => do
    let reports ← record (query (.reports state))
    (reports.getD []).forM fun report => do
      let _ ← record (inbox.settleReportReplies report)

/-! ## Announcing fixes -/

/-- One of the reports was confirmed by an admin. -/
def anyConfirmed : List (Nat × SecurityReport) → Fallible Bool
  | [] => return false
  | report :: reports => do
    let timeline ← query (.timeline report.1)
    if timeline.any fun e => e.reportId = some report.1 && e.kind = .adminConfirmed then return true
    else anyConfirmed reports

/-- An agent alone never earns a reward. -/
def isRewardable (v : Nat × SecurityVulnerability) : Fallible Bool :=
  if v.2.pullRequestUrl.isSome then return true
  else do
    let reports ← query (.reportsForVulnerability v.1)
    anyConfirmed reports

/-- The award is the report's, and it stands. -/
def rewards (award : Option SecurityAward) (reportId : Nat) : Bool :=
  award.any fun a => a.reportId = reportId && a.status ≠ .cancelled

def announceLive (vulnerabilityId : Nat) (reports : List (Nat × SecurityReport)) :
    Fallible Unit := do
  let vulnerability ← query (.vulnerability vulnerabilityId)
  match vulnerability with
  | none => return ()
  | some v =>
    if v.state ≠ .live then return ()
    else
      let rewardable ← isRewardable (vulnerabilityId, v)
      if rewardable then
        let _ ← store (.prepareAward vulnerabilityId v.firstReportId inbox.reward)
      let award ← query (.award vulnerabilityId)
      reports.forM fun report => do
        let kind : SecurityReplyKind :=
          if rewards award report.1 then .fixLiveRewarded else .fixLive
        let _ ← inbox.ensureDelivered report kind ⟨.tracking, .resolved⟩

def notifyAward (award : SecurityAward) : Fallible Unit := do
  let updated ← store (.updateAward award.vulnerabilityId [.prepared] .ownerNotified none none)
  if updated then
    let vulnerability ← query (.vulnerability award.vulnerabilityId)
    let subject : PingSubject := match vulnerability with
      | some v => .forReport award.reportId (award.vulnerabilityId, v)
      | none => ⟨award.reportId, none, none⟩
    perform (.ping .awardReady subject)

def notifyPreparedAwards : Prog Req Unit := do
  let awards ← record (query (.awards (some .prepared)))
  (awards.getD []).forM fun award => do
    let _ ← record (notifyAward award)

/-- The vulnerabilities of the reports in the order of their ids, each with its reports. -/
def byVulnerability (reports : List (Nat × SecurityReport)) :
    List (Nat × List (Nat × SecurityReport)) :=
  let ids := ((reports.filterMap (·.2.vulnerabilityId)).dedup).insertionSort (· ≤ ·)
  ids.map fun id => (id, reports.filter fun report => report.2.vulnerabilityId = some id)

def advanceLive : Prog Req Unit := do
  let tracking ← record (query (.reports .tracking))
  match tracking with
  | none => return ()
  | some reports =>
    (byVulnerability reports).forM fun group => do
      let _ ← record (inbox.announceLive group.1 group.2)
    notifyPreparedAwards

def advance : Prog Req Unit := do
  inbox.settleReplies
  inbox.advanceLive

/-! ## After an assessment -/

def replyWithOutcome (reportId : Nat) : Fallible Unit := do
  let report ← query (.report reportId)
  match report with
  | none => return ()
  | some report => inbox.replyWith (reportId, report)

def acknowledge (reportId : Nat) (registration : Registration) : Fallible Unit := do
  if registration.kind = .created then
    perform (.ping .newValidReport
      (.forReport registration.vulnerability.2.firstReportId registration.vulnerability))
  match registration.kind with
  | .duplicate => inbox.replyWithOutcome reportId
  | .relinked => return ()
  | .created | .adopted | .replaced =>
    if inbox.acknowledgeValid then
      let report ← query (.report reportId)
      match report with
      | some report =>
        let _ ← inbox.deliver (reportId, report) .confirmed none
      | none => return ()

end SecurityInbox

end Claudear.Engine.Security
