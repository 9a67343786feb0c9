import Claudear.Sql.Table
import Claudear.Storage.Error
import Claudear.Storage.PrUrl
import Mathlib.Data.List.Sort

/-!
# The `fix_attempts` table

One row per fix attempt. The rows of an issue share `(source, issue_id)`: its
original attempt has no `cascade_repo`, and every downstream repository its fix
cascaded to has a row of its own. Each statement of the tracker is one
`UPDATE`, `INSERT` or query here, with the `WHERE` clause the statement has.
-/

namespace Claudear.Storage

open Claudear.Sql

inductive FixAttemptStatus where
  | pending | success | failed | merged | closed | cannotFix | answered | declined
  deriving DecidableEq, Repr

/-- The columns `source` and `issue_id`. -/
structure IssueKey where
  source : String
  issueId : String
  deriving DecidableEq, Repr

/-- The columns of `fix_attempts` other than its key. -/
structure AttemptRow where
  key : IssueKey
  shortId : String
  attemptedAt : Timestamp
  prUrl : Option String := none
  scmRepo : Option String := none
  scmPrNumber : Option Int := none
  status : FixAttemptStatus := .pending
  errorMessage : Option String := none
  mergedAt : Option Timestamp := none
  resolvedAt : Option Timestamp := none
  retryCount : Nat := 0
  lastRetryAt : Option Timestamp := none
  issueLabels : Option (List String) := none
  parentAttemptId : Option Nat := none
  cascadeRepo : Option String := none
  resetAt : Option Timestamp := none
  answerMessageIds : Option String := none
  routingIntent : Option String := none
  heartbeatAt : Option Timestamp := none
  deriving DecidableEq, Repr

/-- What `row_to_fix_attempt` reads off a row. -/
structure FixAttempt where
  id : Nat
  key : IssueKey
  shortId : String
  attemptedAt : Timestamp
  prUrl : Option String
  scmRepo : Option String
  scmPrNumber : Option Int
  status : FixAttemptStatus
  errorMessage : Option String
  mergedAt : Option Timestamp
  resolvedAt : Option Timestamp
  retryCount : Nat
  lastRetryAt : Option Timestamp
  issueLabels : List String
  parentAttemptId : Option Nat
  cascadeRepo : Option String
  deriving DecidableEq, Repr

def rowToFixAttempt (r : Nat × AttemptRow) : FixAttempt where
  id := r.1
  key := r.2.key
  shortId := r.2.shortId
  attemptedAt := r.2.attemptedAt
  prUrl := r.2.prUrl
  scmRepo := r.2.scmRepo
  scmPrNumber := r.2.scmPrNumber
  status := r.2.status
  errorMessage := r.2.errorMessage
  mergedAt := r.2.mergedAt
  resolvedAt := r.2.resolvedAt
  retryCount := r.2.retryCount
  lastRetryAt := r.2.lastRetryAt
  issueLabels := r.2.issueLabels.getD []
  parentAttemptId := r.2.parentAttemptId
  cascadeRepo := r.2.cascadeRepo

abbrev FixAttempts := Table AttemptRow

/-! ## `WHERE` clauses -/

/-- `source = ? AND issue_id = ?` -/
def ofIssue (k : IssueKey) (r : Nat × AttemptRow) : Bool := r.2.key = k

/-- `source = ? AND issue_id = ? AND cascade_repo IS NULL` -/
def ofOriginal (k : IssueKey) (r : Nat × AttemptRow) : Bool := ofIssue k r && r.2.cascadeRepo.isNone

/-- `id = ?` -/
def ofId (id : Nat) (r : Nat × AttemptRow) : Bool := r.1 = id

namespace AttemptRow

/-- `status IN ('failed', 'closed')` -/
def retryable (r : AttemptRow) : Bool := r.status = .failed || r.status = .closed

/-- `MAX(attempted_at, COALESCE(heartbeat_at, attempted_at))` -/
def lastSeen (r : AttemptRow) : Timestamp := max r.attemptedAt (r.heartbeatAt.getD r.attemptedAt)

/-- Pending, not reset, an original, and with no sign of life since `staleBefore`. -/
def orphaned (staleBefore : Timestamp) (r : AttemptRow) : Bool :=
  r.status = .pending && r.resetAt.isNone && r.cascadeRepo.isNone && decide (r.lastSeen ≤ staleBefore)

/-! ## `SET` clauses and new rows -/

def original (k : IssueKey) (shortId : String) (now : Timestamp) (labels : Option (List String)) :
    AttemptRow :=
  { key := k, shortId, attemptedAt := now, issueLabels := labels }

def cascade (k : IssueKey) (shortId : String) (now : Timestamp) (parentAttemptId : Nat)
    (cascadeRepo : String) : AttemptRow :=
  { key := k, shortId, attemptedAt := now, parentAttemptId := some parentAttemptId,
    cascadeRepo := some cascadeRepo }

def takeUp (shortId : String) (now : Timestamp) (labels : Option (List String)) (r : AttemptRow) :
    AttemptRow :=
  { r with shortId, attemptedAt := now, issueLabels := labels.or r.issueLabels, resetAt := none }

def succeed (prUrl : String) (r : AttemptRow) : AttemptRow :=
  { r with
    status := .success, prUrl := some prUrl, scmRepo := (parsePrUrl prUrl).map Prod.fst,
    scmPrNumber := (parsePrUrl prUrl).map Prod.snd }

def merge (now : Timestamp) (r : AttemptRow) : AttemptRow :=
  { r with status := .merged, mergedAt := some now }

def close (r : AttemptRow) : AttemptRow := { r with status := .closed }

def resolve (now : Timestamp) (r : AttemptRow) : AttemptRow := { r with resolvedAt := some now }

def fail (errorMessage : String) (r : AttemptRow) : AttemptRow :=
  { r with status := .failed, errorMessage := some errorMessage }

/-- `retry_count = MAX(COALESCE(retry_count, 0) - 1, 0)` -/
def failUncharged (errorMessage : String) (r : AttemptRow) : AttemptRow :=
  { r with status := .failed, errorMessage := some errorMessage, retryCount := r.retryCount - 1 }

def giveUp (reason : String) (r : AttemptRow) : AttemptRow :=
  { r with status := .cannotFix, errorMessage := some reason }

def answer (summary : String) (intent : Option String) (r : AttemptRow) : AttemptRow :=
  { r with
    status := .answered, errorMessage := some summary, routingIntent := intent.or r.routingIntent }

def decline (reason : String) (r : AttemptRow) : AttemptRow :=
  { r with status := .declined, errorMessage := some reason }

def countRetry (now : Timestamp) (r : AttemptRow) : AttemptRow :=
  { r with retryCount := r.retryCount + 1, lastRetryAt := some now }

def retry (now : Timestamp) (r : AttemptRow) : AttemptRow :=
  { r with
    status := .pending, retryCount := r.retryCount + 1, lastRetryAt := some now, prUrl := none,
    scmRepo := none, scmPrNumber := none, errorMessage := none, attemptedAt := now }

def reset (now : Timestamp) (r : AttemptRow) : AttemptRow :=
  { r with
    status := .pending, retryCount := 0, resetAt := some now, prUrl := none, scmRepo := none,
    scmPrNumber := none, errorMessage := none, mergedAt := none, resolvedAt := none,
    attemptedAt := now }

def beat (now : Timestamp) (r : AttemptRow) : AttemptRow := { r with heartbeatAt := some now }

def openPr (prUrl scmRepo : String) (prNumber : Int) (r : AttemptRow) : AttemptRow :=
  { r with
    prUrl := some prUrl, scmRepo := some scmRepo, scmPrNumber := some prNumber, status := .success }

def settle (merged : Bool) (now : Timestamp) (r : AttemptRow) : AttemptRow :=
  { r with
    status := if merged then .merged else .closed
    mergedAt := if merged then some now else r.mergedAt }

section
variable (r : AttemptRow) (now : Timestamp) (text : String)

@[simp] theorem succeed_status : (r.succeed text).status = .success := rfl
@[simp] theorem merge_status : (r.merge now).status = .merged := rfl
@[simp] theorem close_status : r.close.status = .closed := rfl
@[simp] theorem fail_status : (r.fail text).status = .failed := rfl
@[simp] theorem failUncharged_status : (r.failUncharged text).status = .failed := rfl
@[simp] theorem giveUp_status : (r.giveUp text).status = .cannotFix := rfl
@[simp] theorem answer_status (intent) : (r.answer text intent).status = .answered := rfl
@[simp] theorem retry_status : (r.retry now).status = .pending := rfl
@[simp] theorem reset_status : (r.reset now).status = .pending := rfl
@[simp] theorem openPr_status (repo number) : (r.openPr text repo number).status = .success := rfl

/-- A released row is no longer pending, so it is not orphaned a second time. -/
@[simp] theorem failUncharged_orphaned : (r.failUncharged text).orphaned now = false := by
  simp [orphaned]

@[simp] theorem fail_retryCount : (r.fail text).retryCount = r.retryCount := rfl
@[simp] theorem failUncharged_retryCount : (r.failUncharged text).retryCount = r.retryCount - 1 := rfl
@[simp] theorem giveUp_retryCount : (r.giveUp text).retryCount = r.retryCount := rfl
@[simp] theorem retry_retryCount : (r.retry now).retryCount = r.retryCount + 1 := rfl

end

end AttemptRow

namespace FixAttempts

/-! ## Queries -/

def hasAttempted (t : FixAttempts) (k : IssueKey) : Bool :=
  t.any fun r => ofIssue k r && r.2.resetAt.isNone

/-- A set in the source. -/
def getAttemptedIssueIds (t : FixAttempts) (source : String) : List String :=
  (t.select fun r => r.2.key.source = source && r.2.resetAt.isNone).map fun r => r.2.key.issueId

theorem mem_getAttemptedIssueIds {t : FixAttempts} {k : IssueKey} :
    k.issueId ∈ t.getAttemptedIssueIds k.source ↔ t.hasAttempted k = true := by
  simp only [getAttemptedIssueIds, hasAttempted, ofIssue, List.mem_map, Prod.exists, Table.mem_select,
    Table.any_eq_true, Bool.and_eq_true, decide_eq_true_eq]
  constructor
  · rintro ⟨i, r, ⟨hi, hsource, hreset⟩, hid⟩
    exact ⟨i, r, hi, by rw [show k = ⟨k.source, k.issueId⟩ from rfl, ← hsource, ← hid], hreset⟩
  · rintro ⟨i, r, hi, rfl, hreset⟩
    exact ⟨i, r, ⟨hi, rfl, hreset⟩, rfl⟩

def getAttempt (t : FixAttempts) (k : IssueKey) : Option FixAttempt :=
  (t.first (ofIssue k)).map rowToFixAttempt

def getAttemptsBatch (t : FixAttempts) (ks : List IssueKey) : List (Option FixAttempt) :=
  if ks.isEmpty then [] else ks.map fun k => (t.first (ofIssue k)).map rowToFixAttempt

/-- `ORDER BY attempted_at ASC` -/
def byAttemptedAt (l : List (Nat × AttemptRow)) : List (Nat × AttemptRow) :=
  l.insertionSort fun a b => a.2.attemptedAt ≤ b.2.attemptedAt

def getRetryableIssues (t : FixAttempts) (maxRetries : Nat) : List FixAttempt :=
  (byAttemptedAt (t.select fun r => r.2.status = .failed && r.2.retryCount < maxRetries)).map
    rowToFixAttempt

theorem mem_getRetryableIssues {t : FixAttempts} {maxRetries : Nat} {a : FixAttempt} :
    a ∈ t.getRetryableIssues maxRetries ↔
      ∃ i r, t.get i = some r ∧ a = rowToFixAttempt (i, r) ∧ r.status = .failed ∧
        r.retryCount < maxRetries := by
  simp only [getRetryableIssues, byAttemptedAt, List.mem_map, List.mem_insertionSort, Prod.exists,
    Table.mem_select, Bool.and_eq_true, decide_eq_true_eq]
  constructor
  · rintro ⟨i, r, ⟨hi, hr⟩, rfl⟩
    exact ⟨i, r, hi, rfl, hr⟩
  · rintro ⟨i, r, hi, rfl, hr⟩
    exact ⟨i, r, ⟨hi, hr⟩, rfl⟩

/-! ## Writers addressed by `(source, issue_id)` -/

/-- Labels are stored as JSON, or as NULL when there are none. -/
def labelsJson (labels : List String) : Option (List String) :=
  if labels.isEmpty then none else some labels

/-- An original row that is not reset is left as it is; a reset one is taken up again. -/
def recordAttemptWithLabels (t : FixAttempts) (now : Timestamp) (k : IssueKey) (shortId : String)
    (labels : List String) : FixAttempts :=
  match t.first (ofOriginal k) with
  | none => t.insert (.original k shortId now (labelsJson labels))
  | some (_, row) =>
    match row.resetAt with
    | some _ => t.update (ofOriginal k) (·.takeUp shortId now (labelsJson labels))
    | none => t

def recordAttempt (t : FixAttempts) (now : Timestamp) (k : IssueKey) (shortId : String) : FixAttempts :=
  t.recordAttemptWithLabels now k shortId []

def markSuccess (t : FixAttempts) (k : IssueKey) (prUrl : String) : FixAttempts :=
  t.update (ofOriginal k) (·.succeed prUrl)

def markMerged (t : FixAttempts) (now : Timestamp) (k : IssueKey) : FixAttempts :=
  t.update (ofOriginal k) (·.merge now)

def markClosed (t : FixAttempts) (k : IssueKey) : FixAttempts :=
  t.update (ofOriginal k) (·.close)

def markResolved (t : FixAttempts) (now : Timestamp) (k : IssueKey) : FixAttempts :=
  t.update (ofOriginal k) (·.resolve now)

def markFailed (t : FixAttempts) (k : IssueKey) (errorMessage : String) : FixAttempts :=
  t.update (ofOriginal k) (·.fail errorMessage)

def markFailedUncharged (t : FixAttempts) (k : IssueKey) (errorMessage : String) : FixAttempts :=
  t.update (ofOriginal k) (·.failUncharged errorMessage)

-- `mark_cannot_fix` and `mark_answered` have no `cascade_repo IS NULL`
def markCannotFix (t : FixAttempts) (k : IssueKey) (reason : String) : FixAttempts :=
  t.update (ofIssue k) (·.giveUp reason)

def markAnswered (t : FixAttempts) (k : IssueKey) (summary : String) (intent : Option String) :
    FixAttempts :=
  t.update (ofIssue k) (·.answer summary intent)

/-- Only an attempt with no outcome of its own is declined. -/
def declinable (k : IssueKey) (r : Nat × AttemptRow) : Bool :=
  ofOriginal k r && (r.2.status = .pending || r.2.retryable)

def markDeclined (t : FixAttempts) (k : IssueKey) (reason : String) : FixAttempts :=
  t.update (declinable k) (·.decline reason)

/-- `existing` is a comma-delimited list with a comma at both ends. -/
def packAnswerMessageIds (existing : Option String) (messageIds : List String) : String :=
  let ids := ((existing.getD "").splitOn ",").filter (· ≠ "")
  let ids := messageIds.foldl (fun ids id => if id ∈ ids then ids else ids ++ [id]) ids
  "," ++ ",".intercalate ids ++ ","

/-- The list is read off the issue's first row and written to every row of the issue. -/
def recordAnswerMessageIds (t : FixAttempts) (k : IssueKey) (messageIds : List String) : FixAttempts :=
  if messageIds.isEmpty then t
  else
    let existing := (t.first (ofIssue k)).bind (·.2.answerMessageIds)
    t.update (ofIssue k) fun r =>
      { r with answerMessageIds := some (packAnswerMessageIds existing messageIds) }

-- neither have `increment_retry`, `prepare_for_retry` and `reset_attempt`
def incrementRetry (t : FixAttempts) (now : Timestamp) (k : IssueKey) : FixAttempts :=
  t.update (ofIssue k) (·.countRetry now)

/-- `source = ? AND issue_id = ? AND status IN ('failed', 'closed')` -/
def retryableOf (k : IssueKey) (r : Nat × AttemptRow) : Bool := ofIssue k r && r.2.retryable

def prepareForRetry (t : FixAttempts) (now : Timestamp) (k : IssueKey) : Except Error FixAttempts :=
  if t.count (retryableOf k) = 0 then
    .error (.storage ("Attempt " ++ k.source ++ "/" ++ k.issueId ++ " not in retryable state (failed/closed)"))
  else .ok (t.update (retryableOf k) (·.retry now))

/-- A retry that is prepared takes every failed or closed row of the issue, and there is one. -/
theorem prepareForRetry_ok {t t' : FixAttempts} {now : Timestamp} {k : IssueKey}
    (h : t.prepareForRetry now k = .ok t') :
    t.any (retryableOf k) = true ∧ t' = t.update (retryableOf k) (·.retry now) := by
  unfold prepareForRetry at h
  split at h
  · cases h
  · rename_i hn
    refine ⟨?_, (Except.ok.inj h).symm⟩
    rw [Table.count_eq_zero] at hn
    push Not at hn
    obtain ⟨i, r, hi, hr⟩ := hn
    exact Table.any_eq_true.mpr ⟨i, r, hi, by simpa using hr⟩

def resetAttempt (t : FixAttempts) (now : Timestamp) (k : IssueKey) : FixAttempts :=
  t.update (ofIssue k) (·.reset now)

def recordAttemptHeartbeat (t : FixAttempts) (now : Timestamp) (k : IssueKey) : FixAttempts :=
  t.update (fun r => ofOriginal k r && r.2.status = .pending) (·.beat now)

/-! ## The orphan release -/

def threeDays : Int := 3 * 24 * 60 * 60

def recentOrphan (now : Timestamp) (staleAfter : Nat) (r : Nat × AttemptRow) : Bool :=
  r.2.orphaned (now - staleAfter) && decide (now - threeDays < r.2.attemptedAt)

def oldOrphan (now : Timestamp) (staleAfter : Nat) (r : Nat × AttemptRow) : Bool :=
  r.2.orphaned (now - staleAfter) && decide (r.2.attemptedAt ≤ now - threeDays)

def interrupted : String := "Interrupted before completion (daemon restarted)"

def tooOld : String := "Interrupted before completion; too old to retry automatically"

/-- Both statements run in one transaction; the count is what the call returns. -/
def releaseOrphanedPendingAttempts (t : FixAttempts) (now : Timestamp) (staleAfter : Nat) :
    Nat × FixAttempts :=
  let released := t.update (recentOrphan now staleAfter) (·.failUncharged interrupted)
  let closed := released.update (oldOrphan now staleAfter) (·.giveUp tooOld)
  (t.count (recentOrphan now staleAfter) + released.count (oldOrphan now staleAfter), closed)

/-! ## Cascade rows -/

/-- A cascade of the issue to the repository that has no PR yet. -/
def openCascade (k : IssueKey) (cascadeRepo : String) (r : Nat × AttemptRow) : Bool :=
  ofIssue k r && r.2.cascadeRepo = some cascadeRepo && (r.2.prUrl = none || r.2.prUrl = some "")

/-- A cascade without a PR is resumed, one with a PR may be triggered again. The parent must be
a row of the table. -/
def recordCascadeAttempt (t : FixAttempts) (now : Timestamp) (k : IssueKey) (shortId : String)
    (parentAttemptId : Nat) (cascadeRepo : String) : Except Error (Nat × FixAttempts) :=
  match t.first (openCascade k cascadeRepo) with
  | some (id, _) => .ok (id, t)
  | none =>
    if (t.get parentAttemptId).isNone then .error (.database "FOREIGN KEY constraint failed")
    else .ok (t.next, t.insert (.cascade k shortId now parentAttemptId cascadeRepo))

def updateAttemptPr (t : FixAttempts) (attemptId : Nat) (prUrl scmRepo : String) (prNumber : Int) :
    FixAttempts :=
  t.update (ofId attemptId) (·.openPr prUrl scmRepo prNumber)

def markCascadeFailed (t : FixAttempts) (attemptId : Nat) (error : String) : FixAttempts :=
  t.update (ofId attemptId) (·.fail error)

def markCascadePrOutcome (t : FixAttempts) (now : Timestamp) (attemptId : Nat) (merged : Bool) :
    FixAttempts :=
  t.update (fun r => ofId attemptId r && r.2.cascadeRepo.isSome) (·.settle merged now)

end FixAttempts

end Claudear.Storage
