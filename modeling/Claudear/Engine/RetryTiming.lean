import Claudear.Core.Time
import Claudear.Engine.RetryManager

/-!
# When a retry is due

`get_delay` saturates in `u64` and is capped by the configured maximum, which
makes it `base_delay * 2^retry_count` or the maximum (`getDelay_eq`). The delay
is then added to a time. `chrono` panics when the sum is later than its last
time, so a delay of many thousand centuries does
(`retry_timing_total_iff`).

The addition is a parameter: all that is assumed of it is where it panics. A
leap second counts as the second it extends.
-/

namespace Claudear.Engine

open Claudear.Core Claudear.Storage

/-- `t + ChronoDuration::milliseconds(n)`; `none` is the panic. -/
abbrev AddMillis := DateTime → Nat → Option DateTime

/-- The nanoseconds since the epoch, without those of a leap second. -/
def instant (t : DateTime) : Int := t.secs * DateTime.NANOS_PER_SEC + t.nanos % DateTime.NANOS_PER_SEC

/-- The addition panics where the sum is past the last time `chrono` can hold. -/
def AddMillis.Documented (add : AddMillis) : Prop :=
  ∀ t n, t.Representable →
    (add t n = none ↔ DateTime.MAX_SECS * DateTime.NANOS_PER_SEC ≤ instant t + n * 1000000)

/-- What the retry manager reads of an attempt. -/
structure TimedAttempt where
  status : FixAttemptStatus
  retryCount : Nat
  lastRetryAt : Option DateTime
  attemptedAt : DateTime
  deriving DecidableEq, Repr

namespace TimedAttempt

variable (config : RetryConfig) (add : AddMillis) (attempt : TimedAttempt)

def shouldRetry : Bool :=
  (attempt.status = .failed || attempt.status = .closed) &&
    decide (attempt.retryCount < config.maxRetries)

def baseTime : DateTime := attempt.lastRetryAt.getD attempt.attemptedAt

/-- `base_time + ChronoDuration::milliseconds(i64::try_from(delay.as_millis()).unwrap_or(i64::MAX))` -/
def retryTime : Option DateTime :=
  add attempt.baseTime (min (config.getDelay attempt.retryCount) i64Max)

def isReadyForRetry (now : DateTime) : Option Bool :=
  if attempt.shouldRetry config then (attempt.retryTime config add).map fun t => decide (t ≤ now)
  else some false

def getNextRetryTime : Option (Option DateTime) :=
  if attempt.shouldRetry config then (attempt.retryTime config add).map some else some none

end TimedAttempt

/-! ## The delay -/

variable {config : RetryConfig} {add : AddMillis} {attempt : TimedAttempt} {now : DateTime}

theorem getDelay_le (config : RetryConfig) (n : Nat) : config.getDelay n ≤ config.maxDelayMs :=
  min_le_right _ _

theorem getDelay_mono (config : RetryConfig) {m n : Nat} (h : m ≤ n) :
    config.getDelay m ≤ config.getDelay n := by
  unfold RetryConfig.getDelay
  have hp : 2 ^ m ≤ 2 ^ n := Nat.pow_le_pow_right (by decide) h
  have hm : config.baseDelayMs * min (2 ^ m) u64Max ≤ config.baseDelayMs * min (2 ^ n) u64Max :=
    Nat.mul_le_mul_left _ (min_le_min_right _ hp)
  omega

/-- Saturation makes no difference under a maximum that is a `u64`. -/
theorem getDelay_eq (hm : config.maxDelayMs ≤ u64Max) (n : Nat) :
    config.getDelay n = min (config.baseDelayMs * 2 ^ n) config.maxDelayMs := by
  unfold RetryConfig.getDelay
  rcases Nat.eq_zero_or_pos config.baseDelayMs with h0 | h0
  · rw [h0, Nat.zero_mul, Nat.zero_mul]
    omega
  · rcases le_total (2 ^ n) u64Max with hn | hn
    · rw [min_eq_left hn]
      omega
    · have h1 : u64Max ≤ config.baseDelayMs * u64Max := Nat.le_mul_of_pos_left _ h0
      have h2 : config.baseDelayMs * u64Max ≤ config.baseDelayMs * 2 ^ n := Nat.mul_le_mul_left _ hn
      rw [min_eq_right hn]
      omega

/-! ## The time -/

theorem isReadyForRetry_ne_none : attempt.isReadyForRetry config add now ≠ none ↔
    attempt.shouldRetry config = false ∨ attempt.retryTime config add ≠ none := by
  unfold TimedAttempt.isReadyForRetry
  cases attempt.shouldRetry config <;> simp

theorem getNextRetryTime_ne_none : attempt.getNextRetryTime config add ≠ none ↔
    attempt.shouldRetry config = false ∨ attempt.retryTime config add ≠ none := by
  unfold TimedAttempt.getNextRetryTime
  cases attempt.shouldRetry config <;> simp

/-- The delay grows with the retries up to the maximum, whatever the configuration. A time comes
out for every attempt that is not to be retried, and otherwise exactly when the delay ends before
the calendar does. -/
theorem retry_timing_total_iff (config : RetryConfig) (add : AddMillis) (ha : add.Documented)
    (hm : config.maxDelayMs ≤ u64Max) (attempt : TimedAttempt) (now : DateTime)
    (hr : attempt.baseTime.Representable) :
    ((∀ n, config.getDelay n ≤ config.getDelay (n + 1) ∧ config.getDelay n ≤ config.maxDelayMs) ∧
        attempt.getNextRetryTime config add ≠ none ∧
        attempt.isReadyForRetry config add now ≠ none) ↔
      attempt.shouldRetry config = false ∨
        instant attempt.baseTime + (min (min (config.baseDelayMs * 2 ^ attempt.retryCount)
          config.maxDelayMs) i64Max : Nat) * 1000000 <
            DateTime.MAX_SECS * DateTime.NANOS_PER_SEC := by
  have ht : attempt.retryTime config add ≠ none ↔
      instant attempt.baseTime + (min (min (config.baseDelayMs * 2 ^ attempt.retryCount)
        config.maxDelayMs) i64Max : Nat) * 1000000 <
          DateTime.MAX_SECS * DateTime.NANOS_PER_SEC := by
    rw [TimedAttempt.retryTime, getDelay_eq hm, ne_eq, ha _ _ hr, not_le]
  rw [isReadyForRetry_ne_none, getNextRetryTime_ne_none, ht, and_self]
  refine and_iff_right fun n => ⟨?_, getDelay_le config n⟩
  exact getDelay_mono config (Nat.le_succ n)

/-! ## Rows of whole seconds -/

/-- The attempt of a stored row. -/
def TimedAttempt.ofRow (a : FixAttempt) : TimedAttempt where
  status := a.status
  retryCount := a.retryCount
  lastRetryAt := a.lastRetryAt.map fun secs => ⟨secs, 0, .inl (by decide)⟩
  attemptedAt := ⟨a.attemptedAt, 0, .inl (by decide)⟩

/-- The addition within the calendar, out of leap seconds. -/
def addMillis : AddMillis := fun t n => (DateTime.ofNanos (instant t)).checkedAdd (n * 1000000)

theorem instant_ofRow (a : FixAttempt) : instant (TimedAttempt.ofRow a).baseTime =
    a.lastRetryAt.getD a.attemptedAt * 1000000000 := by
  unfold instant TimedAttempt.baseTime TimedAttempt.ofRow DateTime.NANOS_PER_SEC
  cases a.lastRetryAt <;> simp

theorem addMillis_documented : addMillis.Documented := by
  intro t n hr
  have hmin := hr.1
  have h0 : DateTime.MIN_SECS = -8334601228800 := by decide
  have h1 : DateTime.MAX_SECS = 8210266876800 := by decide
  unfold addMillis DateTime.checkedAdd
  rw [DateTime.toNanos_ofNanos]
  unfold DateTime.ofNanos instant DateTime.NANOS_PER_SEC
  rw [h0] at hmin
  rw [h0, h1]
  dsimp only
  split
  · rename_i h
    simp only [reduceCtorEq, false_iff]
    omega
  · rename_i h
    simp only [true_iff]
    omega

/-- The row is due at the millisecond the manager of whole-second rows gives. -/
theorem retryTime_ofRow (config : RetryConfig) (a : FixAttempt) {t : DateTime}
    (h : (TimedAttempt.ofRow a).retryTime config addMillis = some t) :
    t.toNanos = config.dueAt a * 1000000 := by
  unfold TimedAttempt.retryTime addMillis DateTime.checkedAdd at h
  rw [DateTime.toNanos_ofNanos, instant_ofRow] at h
  dsimp only at h
  split at h
  · rw [← Option.some.inj h, DateTime.toNanos_ofNanos, RetryConfig.dueAt]
    have hc : (TimedAttempt.ofRow a).retryCount = a.retryCount := rfl
    rw [hc]
    omega
  · cases h

/-! ## The end of the calendar -/

/-- Delays up to the largest number. -/
def unbounded : RetryConfig where
  maxRetries := 2
  baseDelayMs := u64Max
  maxDelayMs := u64Max

/-- An attempt that failed in 2026. -/
def failedOnce : TimedAttempt where
  status := .failed
  retryCount := 0
  lastRetryAt := none
  attemptedAt := ⟨1793786400, 0, by decide⟩

/-- With the largest maximum the first retry is due after the last time there is. -/
theorem longest_delay_panics :
    failedOnce.getNextRetryTime unbounded addMillis = none ∧
      failedOnce.isReadyForRetry unbounded addMillis failedOnce.attemptedAt = none := by
  have h : failedOnce.retryTime unbounded addMillis = none := by decide +kernel
  have hs : failedOnce.shouldRetry unbounded = true := by decide
  constructor
  · rw [TimedAttempt.getNextRetryTime, if_pos hs, h]
    rfl
  · rw [TimedAttempt.isReadyForRetry, if_pos hs, h]
    rfl

theorem retry_timing_total_iff_unbounded :
    ((∀ n, unbounded.getDelay n ≤ unbounded.getDelay (n + 1) ∧
          unbounded.getDelay n ≤ unbounded.maxDelayMs) ∧
        failedOnce.getNextRetryTime unbounded addMillis ≠ none ∧
        failedOnce.isReadyForRetry unbounded addMillis failedOnce.attemptedAt ≠ none) ↔
      failedOnce.shouldRetry unbounded = false ∨
        instant failedOnce.baseTime + (min (min (unbounded.baseDelayMs * 2 ^ failedOnce.retryCount)
          unbounded.maxDelayMs) i64Max : Nat) * 1000000 <
            DateTime.MAX_SECS * DateTime.NANOS_PER_SEC :=
  retry_timing_total_iff unbounded addMillis addMillis_documented (by decide) failedOnce
    failedOnce.attemptedAt (by unfold DateTime.Representable; decide)

end Claudear.Engine
