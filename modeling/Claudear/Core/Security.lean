import Claudear.Core.Time

/-!
# The security inbox domain

The states of reports, vulnerabilities, replies and awards, the transitions
between them, and the choice of a vulnerability's first reporter. The event
timeline stores states as text; `ofStr?` reads a text back, and the texts of
the kinds of state do not mix.
-/

namespace Claudear.Core

/-! ## Report states -/

inductive SecurityReportState where
  | received
  | assessing
  | needsHuman
  | registering
  | spam
  | replying
  | closed
  | tracking
  | resolved
  deriving DecidableEq, Repr

namespace SecurityReportState

def all : List SecurityReportState :=
  [.received, .assessing, .needsHuman, .registering, .spam, .replying, .closed, .tracking, .resolved]

def asStr : SecurityReportState → String
  | received => "received"
  | assessing => "assessing"
  | needsHuman => "needs_human"
  | registering => "registering"
  | spam => "spam"
  | replying => "replying"
  | closed => "closed"
  | tracking => "tracking"
  | resolved => "resolved"

def ofStr? (s : String) : Option SecurityReportState := all.find? fun a => a.asStr = s

def isTerminal : SecurityReportState → Bool
  | spam | closed | resolved => true
  | _ => false

def canTransitionTo : SecurityReportState → SecurityReportState → Bool
  | received, assessing | received, needsHuman => true
  | assessing, received | assessing, needsHuman | assessing, spam | assessing, replying
  | assessing, tracking => true
  | needsHuman, received | needsHuman, registering | needsHuman, replying | needsHuman, spam => true
  | registering, tracking | registering, replying | registering, needsHuman => true
  | replying, closed | replying, needsHuman => true
  | tracking, resolved | tracking, needsHuman => true
  | _, _ => false

theorem ofStr?_asStr (a : SecurityReportState) : ofStr? a.asStr = some a := by
  cases a <;> decide

theorem not_canTransitionTo {a b : SecurityReportState} (h : a.isTerminal = true) :
    a.canTransitionTo b = false := by
  cases a <;> first | rfl | cases h

end SecurityReportState

structure ReportTransition where
  fromState : SecurityReportState
  toState : SecurityReportState
  deriving DecidableEq, Repr

def ReportTransition.isAllowed (t : ReportTransition) : Bool :=
  t.fromState.canTransitionTo t.toState

/-! ## Vulnerability states -/

inductive VulnerabilityState where
  | awaitingFix
  | fixing
  | merged
  | live
  | needsHuman
  deriving DecidableEq, Repr

namespace VulnerabilityState

def asStr : VulnerabilityState → String
  | awaitingFix => "awaiting_fix"
  | fixing => "fixing"
  | merged => "merged"
  | live => "live"
  | needsHuman => "needs_human"

/-- A vulnerability starts waiting for a fix, or already merged when the fix landed after the
report but before it was assessed. -/
def isInitial : VulnerabilityState → Bool
  | awaitingFix | merged => true
  | _ => false

def canTransitionTo : VulnerabilityState → VulnerabilityState → Bool
  | awaitingFix, fixing | awaitingFix, needsHuman => true
  | fixing, merged | fixing, needsHuman => true
  | merged, live | merged, needsHuman => true
  | needsHuman, fixing | needsHuman, live => true
  | _, _ => false

end VulnerabilityState

/-! ## Outcomes and replies -/

inductive SecurityOutcome where
  | spam
  | valid
  | notReproducible
  | alreadyFixed
  | notVulnerability
  | outOfScope
  | duplicate
  deriving DecidableEq, Repr

inductive SecuritySeverity where
  | critical
  | high
  | medium
  | low
  | informational
  deriving DecidableEq, Repr

def SecurityOutcome.asStr : SecurityOutcome → String
  | spam => "spam"
  | valid => "valid"
  | notReproducible => "not_reproducible"
  | alreadyFixed => "already_fixed"
  | notVulnerability => "not_vulnerability"
  | outOfScope => "out_of_scope"
  | duplicate => "duplicate"

def SecuritySeverity.asStr : SecuritySeverity → String
  | critical => "critical"
  | high => "high"
  | medium => "medium"
  | low => "low"
  | informational => "informational"

inductive SecurityReplyKind where
  | confirmed
  | notReproducible
  | alreadyFixed
  | notVulnerability
  | outOfScope
  | duplicate
  | fixLive
  | fixLiveRewarded
  deriving DecidableEq, Repr

namespace SecurityReplyKind

def forOutcome : SecurityOutcome → Option SecurityReplyKind
  | .spam => none
  | .valid => some confirmed
  | .notReproducible => some notReproducible
  | .alreadyFixed => some alreadyFixed
  | .notVulnerability => some notVulnerability
  | .outOfScope => some outOfScope
  | .duplicate => some duplicate

def asStr : SecurityReplyKind → String
  | confirmed => "confirmed"
  | notReproducible => "not_reproducible"
  | alreadyFixed => "already_fixed"
  | notVulnerability => "not_vulnerability"
  | outOfScope => "out_of_scope"
  | duplicate => "duplicate"
  | fixLive => "fix_live"
  | fixLiveRewarded => "fix_live_rewarded"

def isTerminal (k : SecurityReplyKind) : Bool := k ≠ confirmed

/-- A report gets one fix-live reply, rewarded or not. -/
def isFixLive : SecurityReplyKind → Bool
  | fixLive | fixLiveRewarded => true
  | _ => false

def sharesLedgerEntryWith (k other : SecurityReplyKind) : Bool :=
  k = other || (k.isFixLive && other.isFixLive)

end SecurityReplyKind

inductive DeliveryStatus where
  | sending
  | sent
  | failed
  | unconfirmed
  deriving DecidableEq, Repr

namespace DeliveryStatus

def asStr : DeliveryStatus → String
  | sending => "sending"
  | sent => "sent"
  | failed => "failed"
  | unconfirmed => "unconfirmed"

def isCompletion (s : DeliveryStatus) : Bool := s ≠ sending

end DeliveryStatus

/-! ## Events -/

inductive SecurityEventKind where
  | received
  | assessmentStarted
  | assessmentReleased
  | assessmentFailed
  | needsHuman
  | overridden
  | adminConfirmed
  | screenedSpam
  | assessed
  | vulnerabilityCreated
  | duplicateLinked
  | firstReporterReplaced
  | replyClaimed
  | replySent
  | replyFailed
  | replyUnconfirmed
  | deliveryConfirmed
  | conversationClosed
  | reporterFollowUp
  | fixStarted
  | pullRequestOpened
  | pullRequestLinked
  | fixFailed
  | merged
  | cloudBumpRequired
  | live
  | deploymentCheckFailed
  | awardPrepared
  | ownerNotified
  | awarded
  | awardCancelled
  deriving DecidableEq, Repr

/-- A value in the `detail` object of an event. -/
inductive Value where
  | null
  | bool (b : Bool)
  | int (n : Int)
  | str (s : String)
  deriving DecidableEq, Repr

abbrev Detail := List (String × Value)

structure NewSecurityEvent where
  kind : SecurityEventKind
  actor : Option String := none
  detail : Detail := []
  deriving DecidableEq, Repr

/-! ## Awards -/

inductive AwardStatus where
  | prepared
  | ownerNotified
  | awarded
  | cancelled
  deriving DecidableEq, Repr

namespace AwardStatus

def all : List AwardStatus := [.prepared, .ownerNotified, .awarded, .cancelled]

def asStr : AwardStatus → String
  | prepared => "prepared"
  | ownerNotified => "owner_notified"
  | awarded => "awarded"
  | cancelled => "cancelled"

def ofStr? (s : String) : Option AwardStatus := all.find? fun a => a.asStr = s

def canTransitionTo : AwardStatus → AwardStatus → Bool
  | prepared, ownerNotified | prepared, awarded | prepared, cancelled => true
  | ownerNotified, awarded | ownerNotified, cancelled => true
  | _, _ => false

/-- The event recorded when an award enters this status. -/
def eventKind : AwardStatus → SecurityEventKind
  | prepared => .awardPrepared
  | ownerNotified => .ownerNotified
  | awarded => .awarded
  | cancelled => .awardCancelled

theorem ofStr?_asStr (a : AwardStatus) : ofStr? a.asStr = some a := by
  cases a <;> decide

theorem not_canTransitionTo {a b : AwardStatus} (h : a = .awarded ∨ a = .cancelled) :
    a.canTransitionTo b = false := by
  rcases h with rfl | rfl <;> cases b <;> rfl

end AwardStatus

/-! ## Texts of states -/

theorem SecurityReportState.ofStr?_delivery (s : DeliveryStatus) : ofStr? s.asStr = none := by
  cases s <;> decide

theorem AwardStatus.ofStr?_vulnerability (s : VulnerabilityState) : ofStr? s.asStr = none := by
  cases s <;> decide

/-! ## The first reporter -/

inductive FirstReporterDecision where
  | keepExisting
  | replace
  deriving DecidableEq, Repr

structure FirstReport where
  reportId : Nat
  reportedAt : DateTime
  deriving DecidableEq, Repr

namespace FirstReport

def key (r : FirstReport) : DateTime ×ₗ Nat := toLex (r.reportedAt, r.reportId)

def precedes (r other : FirstReport) : Bool := r.key < other.key

end FirstReport

/-- A prepared award pins the first reporter for good. -/
def selectFirstReporter (current candidate : FirstReport) (awardExists : Bool) :
    FirstReporterDecision :=
  if candidate.precedes current && !awardExists then .replace else .keepExisting

end Claudear.Core
