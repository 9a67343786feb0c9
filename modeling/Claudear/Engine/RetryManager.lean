import Claudear.Storage.PrimaryRow

/-!
# The retry manager

`RetryManager` decides what becomes of a failed attempt and which attempts are
due. `handle_failure` reads the attempt and writes the decision in two
statements: `failureWrite` is the decision, so a model may put other callers
between the two. The activity log and the QA statistics it also writes are not
read back by any function here.

Delays are milliseconds, and so is the clock `is_ready_for_retry` reads.
-/

namespace Claudear.Engine

open Claudear.Storage

structure RetryConfig where
  maxRetries : Nat
  baseDelayMs : Nat
  maxDelayMs : Nat
  deriving DecidableEq, Repr

inductive RetryDecision where
  | retry (retryCount : Nat) (delay : Nat)
  | cannotFix
  | notFound
  deriving DecidableEq, Repr

def u64Max : Nat := 2 ^ 64 - 1

def i64Max : Nat := 2 ^ 63 - 1

namespace RetryConfig

variable (config : RetryConfig)

/-- Pending attempts are being processed or freshly recorded, so only these two are retried. -/
def shouldRetry (attempt : FixAttempt) : Bool :=
  (attempt.status = .failed || attempt.status = .closed) &&
    decide (attempt.retryCount < config.maxRetries)

/-- `min(base_delay * 2^retry_count, max_delay)`, saturating. -/
def getDelay (retryCount : Nat) : Nat :=
  min (min (config.baseDelayMs * min (2 ^ retryCount) u64Max) u64Max) config.maxDelayMs

/-- The time a retry is due, in milliseconds. -/
def dueAt (attempt : FixAttempt) : Int :=
  attempt.lastRetryAt.getD attempt.attemptedAt * 1000 +
    (min (config.getDelay attempt.retryCount) i64Max : Nat)

def isReadyForRetry (nowMs : Int) (attempt : FixAttempt) : Bool :=
  config.shouldRetry attempt && decide (config.dueAt attempt ≤ nowMs)

def getNextRetryTime (attempt : FixAttempt) : Option Int :=
  if config.shouldRetry attempt then some (config.dueAt attempt) else none

def getReadyRetries (nowMs : Int) (t : FixAttempts) : List FixAttempt :=
  (t.getRetryableIssues config.maxRetries).filter (config.isReadyForRetry nowMs)

/-- The write `handle_failure` decides on, from the attempt it has read. -/
def failureWrite (k : IssueKey) (error : String) : Option FixAttempt → Option TrackerOp
  | none => none
  | some attempt =>
    if config.maxRetries < attempt.retryCount + 1 then
      some (.markCannotFix k
        ("Max retries (" ++ toString config.maxRetries ++ ") reached. Last error: " ++ error))
    -- `prepare_for_retry` counts the retry when it is run
    else some (.markFailed k error)

def failureDecision : Option FixAttempt → RetryDecision
  | none => .notFound
  | some attempt =>
    if config.maxRetries < attempt.retryCount + 1 then .cannotFix
    else .retry (attempt.retryCount + 1) (config.getDelay attempt.retryCount)

/-- `handle_failure` with no other caller between its read and its write. -/
def handleFailure (t : FixAttempts) (now : Timestamp) (k : IssueKey) (error : String) :
    RetryDecision × FixAttempts :=
  let attempt := t.getAttempt k
  (config.failureDecision attempt,
    match config.failureWrite k error attempt with
    | some op => t.exec ⟨now, op⟩
    | none => t)

end RetryConfig

/-- The read before the statement only feeds the activity log. -/
def prepareRetry (t : FixAttempts) (now : Timestamp) (k : IssueKey) : Except Error FixAttempts :=
  t.prepareForRetry now k

variable {config : RetryConfig}

theorem failureWrite_cases {k : IssueKey} {error : String} {attempt : Option FixAttempt}
    {op : TrackerOp} (h : config.failureWrite k error attempt = some op) :
    ∃ a, attempt = some a ∧
      ((config.maxRetries ≤ a.retryCount ∧ ∃ reason, op = .markCannotFix k reason) ∨
        (a.retryCount < config.maxRetries ∧ op = .markFailed k error)) := by
  cases attempt with
  | none => cases h
  | some a =>
    refine ⟨a, rfl, ?_⟩
    simp only [RetryConfig.failureWrite] at h
    split at h
    · exact .inl ⟨by omega, _, (Option.some.inj h).symm⟩
    · exact .inr ⟨by omega, (Option.some.inj h).symm⟩

/-- What is due was listed: a failed row with retries left. -/
theorem mem_getReadyRetries {nowMs : Int} {t : FixAttempts} {a : FixAttempt}
    (h : a ∈ config.getReadyRetries nowMs t) :
    ∃ i r, t.get i = some r ∧ a = rowToFixAttempt (i, r) ∧ r.status = .failed ∧
      r.retryCount < config.maxRetries := by
  obtain ⟨i, r, hi, ha, hr⟩ := FixAttempts.mem_getRetryableIssues.mp (List.mem_filter.mp h).1
  exact ⟨i, r, hi, ha, hr⟩

end Claudear.Engine
