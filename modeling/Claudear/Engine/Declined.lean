import Claudear.Engine.RetryManager

/-!
# Declined attempts

A human who refuses approval leaves the issue's attempt `declined`, which is
neither retried nor asked about again unless it is reset. `mark_declined` takes
its own attempts with care, but the marks that report a run's outcome
(`mark_success`, `mark_failed` and their siblings) do not look at the status
they overwrite, so a run still in flight takes the attempt out of `declined`
again. Everything else leaves a declined attempt alone.
-/

namespace Claudear.Engine

open Claudear.Sql Claudear.Storage Claudear.Machine

/-- A tracker call, or a `handle_failure`. -/
inductive Action where
  | call (c : Call)
  | handleFailure (now : Timestamp) (k : IssueKey) (error : String)
  deriving DecidableEq, Repr

namespace Action

def step (config : RetryConfig) (t : FixAttempts) : Action → FixAttempts
  | .call c => t.exec c
  | .handleFailure now k error => (config.handleFailure t now k error).2

/-- A manual reset of the issue. -/
def resets (k : IssueKey) : Action → Bool
  | .call c =>
    match c.op with
    | .resetAttempt k' => k' = k
    | _ => false
  | .handleFailure .. => false

/-- The action reports an outcome for the row `id` of the issue `k`, whatever its status. -/
def overwrites (id : Nat) (k : IssueKey) : Action → Bool
  | .call c =>
    match c.op with
    | .markSuccess k' _ | .markMerged k' | .markClosed k' | .markFailed k' _
    | .markFailedUncharged k' _ | .markCannotFix k' _ | .markAnswered k' _ _ => k' = k
    | .updateAttemptPr attemptId _ _ _ | .markCascadeFailed attemptId _ => attemptId = id
    | _ => false
  | .handleFailure _ k' _ => k' = k

end Action

/-- The attempt is declined, and no retry list has it. -/
def StaysDeclined (id : Nat) (t : FixAttempts) : Prop :=
  (∃ r, t.get id = some r ∧ r.status = .declined) ∧
    ∀ maxRetries, ∀ a ∈ t.getRetryableIssues maxRetries, a.id ≠ id

theorem staysDeclined_iff {id : Nat} {t : FixAttempts} :
    StaysDeclined id t ↔ ∃ r, t.get id = some r ∧ r.status = .declined := by
  refine ⟨fun h => h.1, fun h => ⟨h, ?_⟩⟩
  rintro maxRetries a ha rfl
  obtain ⟨r, hr, hd⟩ := h
  obtain ⟨i, q, hi, rfl, hf, -⟩ := FixAttempts.mem_getRetryableIssues.mp ha
  have hrq : r = q := Option.some.inj (hr.symm.trans hi)
  rw [← hrq, hd] at hf
  cases hf

/-! ## What an action makes of a declined row -/

/-- Only originals are declined. -/
theorem cascade_not_declined {t : FixAttempts} {c : Call} {r : Nat × AttemptRow}
    (h : (c.rewrite t r).status = .declined) : r.2.status = .declined ∨ r.2.cascadeRepo = none := by
  by_contra hn
  obtain ⟨hd, hc⟩ := not_or.mp hn
  have ho := ofOriginal_cascade (Option.isSome_iff_ne_none.mpr hc)
  refine hd ?_
  obtain ⟨now, op⟩ := c
  cases op with
  | markDeclined => simpa [Call.rewrite, FixAttempts.declinable, ho] using h
  | recordCascadeAttempt => exact h
  | markCascadePrOutcome attemptId merged =>
    simp only [Call.rewrite] at h
    split at h
    · cases merged <;> cases h
    · exact h
  | _ =>
    simp only [Call.rewrite] at h
    split_ifs at h <;> first | exact h | cases h

/-- A call takes a declined original out of `declined` exactly if it overwrites or resets it. -/
theorem rewrite_declined {t : FixAttempts} {c : Call} {id : Nat} {r : AttemptRow}
    (ho : r.cascadeRepo = none) (hd : r.status = .declined) :
    (c.rewrite t (id, r)).status = .declined ↔
      (Action.call c).overwrites id r.key = false ∧ (Action.call c).resets r.key = false := by
  obtain ⟨now, op⟩ := c
  cases op with
  | markSuccess k | markMerged k | markClosed k | markFailed k | markFailedUncharged k
  | markCannotFix k | markAnswered k | resetAttempt k =>
    by_cases hk : r.key = k
    · simp [Call.rewrite, Action.overwrites, Action.resets, ofOriginal, ofIssue, ho, hk]
    · simp [Call.rewrite, Action.overwrites, Action.resets, ofOriginal, ofIssue, hd, hk, Ne.symm hk]
  | updateAttemptPr attemptId | markCascadeFailed attemptId =>
    by_cases hi : id = attemptId
    · simp [Call.rewrite, Action.overwrites, Action.resets, ofId, hi]
    · simp [Call.rewrite, Action.overwrites, Action.resets, ofId, hd, hi, Ne.symm hi]
  | markDeclined | prepareForRetry =>
    simp [Call.rewrite, Action.overwrites, Action.resets, FixAttempts.declinable,
      FixAttempts.retryableOf, AttemptRow.retryable, hd]
  | releaseOrphanedPendingAttempts =>
    simp [Call.rewrite, Action.overwrites, Action.resets, FixAttempts.recentOrphan,
      FixAttempts.oldOrphan, AttemptRow.orphaned, hd]
  | markCascadePrOutcome => simp [Call.rewrite, Action.overwrites, Action.resets, ho, hd]
  | recordAttemptWithLabels | markResolved | recordAnswerMessageIds | incrementRetry
  | recordAttemptHeartbeat | recordCascadeAttempt =>
    simp only [Call.rewrite, Action.overwrites, Action.resets, and_self, iff_true]
    first | exact hd | (split <;> exact hd)

/-! ## Steps and runs -/

variable {config : RetryConfig} {t : FixAttempts} {id : Nat} {k : IssueKey}

/-- A `handle_failure` writes nothing, or one of its two marks on the issue it is about. -/
theorem step_handleFailure (config : RetryConfig) (t : FixAttempts) (now : Timestamp) (k : IssueKey)
    (error : String) :
    (t.getAttempt k = none ∧ Action.step config t (.handleFailure now k error) = t) ∨
      ∃ op, Action.step config t (.handleFailure now k error) = t.exec ⟨now, op⟩ ∧
        ∀ id k', (Action.call ⟨now, op⟩).overwrites id k' = decide (k = k') ∧
          (Action.call ⟨now, op⟩).resets k' = false := by
  simp only [Action.step, RetryConfig.handleFailure]
  cases ha : t.getAttempt k with
  | none => exact .inl ⟨rfl, rfl⟩
  | some a =>
    cases hw : config.failureWrite k error (some a) with
    | none =>
      simp only [RetryConfig.failureWrite] at hw
      split at hw <;> cases hw
    | some op =>
      obtain ⟨-, -, ⟨-, reason, rfl⟩ | ⟨-, rfl⟩⟩ := failureWrite_cases hw
      · exact .inr ⟨_, rfl, fun _ _ => ⟨rfl, rfl⟩⟩
      · exact .inr ⟨_, rfl, fun _ _ => ⟨rfl, rfl⟩⟩

/-- The row `id` is the original of the issue `k`. -/
def OriginalAt (id : Nat) (k : IssueKey) (t : FixAttempts) : Prop :=
  ∃ r, t.get id = some r ∧ r.key = k ∧ r.cascadeRepo = none

theorem OriginalAt.exec (h : OriginalAt id k t) (c : Call) : OriginalAt id k (t.exec c) := by
  obtain ⟨r, hr, hk, ho⟩ := h
  exact ⟨_, FixAttempts.get_exec_of hr c, (c.rewrite_key t (id, r)).trans hk,
    (c.rewrite_cascadeRepo t (id, r)).trans ho⟩

theorem OriginalAt.step (h : OriginalAt id k t) (a : Action) : OriginalAt id k (a.step config t) := by
  cases a with
  | call c => exact h.exec c
  | handleFailure now k' error =>
    rcases step_handleFailure config t now k' error with ⟨-, hs⟩ | ⟨op, hs, -⟩
    · rwa [hs]
    · rw [hs]
      exact h.exec _

theorem staysDeclined_exec (h : OriginalAt id k t) (hd : StaysDeclined id t) (c : Call) :
    StaysDeclined id (t.exec c) ↔
      (Action.call c).overwrites id k = false ∧ (Action.call c).resets k = false := by
  obtain ⟨r, hr, rfl, ho⟩ := h
  obtain ⟨q, hq, hd⟩ := hd.1
  obtain rfl : r = q := Option.some.inj (hr.symm.trans hq)
  rw [← rewrite_declined (t := t) ho hd, staysDeclined_iff, FixAttempts.get_exec_of hr]
  simp

/-- What one action does to a declined attempt. -/
theorem staysDeclined_step (h : OriginalAt id k t) (hd : StaysDeclined id t) (a : Action) :
    StaysDeclined id (a.step config t) ↔ a.overwrites id k = false ∧ a.resets k = false := by
  cases a with
  | call c => exact staysDeclined_exec h hd c
  | handleFailure now k' error =>
    rcases step_handleFailure config t now k' error with ⟨hn, hs⟩ | ⟨op, hs, hop⟩
    · -- the attempt itself would have been found
      obtain ⟨r, hr, hk, -⟩ := h
      have hne : k' ≠ k := by
        rintro rfl
        obtain ⟨q, hq⟩ := Table.exists_first hr (show ofIssue k' (id, r) = true by simpa [ofIssue] using hk)
        rw [FixAttempts.getAttempt, hq] at hn
        cases hn
      rw [hs]
      simp [hd, Action.overwrites, Action.resets, hne]
    · rw [hs, staysDeclined_exec h hd, (hop id k).1, (hop id k).2]
      simp [Action.overwrites, Action.resets]

/-- A declined row is an original, in every table the tracker reaches. -/
theorem declined_original (l : List Action) {r : AttemptRow}
    (h : (run (Action.step config) Table.empty l).get id = some r)
    (hd : r.status = .declined) : r.cascadeRepo = none := by
  have hinv : ∀ i q, (run (Action.step config) Table.empty l).get i = some q →
      q.status = .declined → q.cascadeRepo = none := by
    refine run_inv (P := fun t : FixAttempts => ∀ i q, t.get i = some q → q.status = .declined →
      q.cascadeRepo = none) ?_ (by simp) l
    intro t a ih
    have hexec : ∀ c : Call, ∀ i q, (t.exec c).get i = some q → q.status = .declined →
        q.cascadeRepo = none := by
      intro c i q hq hd
      rcases FixAttempts.get_exec_cases hq with ⟨q0, hq0, rfl⟩ | ⟨-, hins⟩
      · rw [c.rewrite_cascadeRepo]
        rcases cascade_not_declined hd with h | h
        · exact ih i q0 hq0 h
        · exact h
      · rcases Call.inserted_cases hins with ⟨_, _, _, -, -, rfl⟩ | ⟨_, _, _, _, -, -, -, rfl⟩ <;>
          cases hd
    cases a with
    | call c => exact hexec c
    | handleFailure now k' error =>
      rcases step_handleFailure config t now k' error with ⟨-, hs⟩ | ⟨op, hs, -⟩
      · simpa only [hs] using ih
      · simpa only [hs] using hexec _
  exact hinv id r h hd

/-- A declined attempt that nobody resets stays declined, and off every retry list, exactly as
long as no run reports an outcome for it. -/
theorem declined_sticky_iff (config : RetryConfig) (l₀ l : List Action) (id : Nat) (r : AttemptRow)
    (hr : (run (Action.step config) Table.empty l₀).get id = some r) (hd : r.status = .declined)
    (hreset : ∀ a ∈ l, a.resets r.key = false) :
    Always (Action.step config) (StaysDeclined id) (run (Action.step config) Table.empty l₀) l ↔
      ∀ a ∈ l, a.overwrites id r.key = false := by
  have ho : OriginalAt id r.key (run (Action.step config) Table.empty l₀) :=
    ⟨r, hr, rfl, declined_original l₀ hr hd⟩
  rw [always_iff_along_inv (I := OriginalAt id r.key) (fun _ a h => h.step a)
    (fun _ a h hd => staysDeclined_step h hd a) ho (staysDeclined_iff.mpr ⟨r, hr, hd⟩), along_const]
  exact forall₂_congr fun a ha => by simp [hreset a ha]

/-- An attempt declined before its run has finished. -/
def declinedInFlight : List Action :=
  [.call ⟨0, .recordAttemptWithLabels ⟨"sentry", "7"⟩ "APP-7" []⟩,
    .call ⟨1, .markDeclined ⟨"sentry", "7"⟩ "Approval declined"⟩]

/-- Neither a heartbeat, nor a retry, nor the failure of another issue moves it. -/
theorem declined_sticky_heartbeat :
    Always (Action.step ⟨2, 1000, 60000⟩) (StaysDeclined 1)
      (run (Action.step ⟨2, 1000, 60000⟩) Table.empty declinedInFlight)
      [.call ⟨2, .recordAttemptHeartbeat ⟨"sentry", "7"⟩⟩, .call ⟨3, .prepareForRetry ⟨"sentry", "7"⟩⟩,
        .handleFailure 4 ⟨"sentry", "8"⟩ "timeout"] :=
  (declined_sticky_iff ⟨2, 1000, 60000⟩ declinedInFlight _ 1
    { key := ⟨"sentry", "7"⟩, shortId := "APP-7", attemptedAt := 0, status := .declined,
      errorMessage := some "Approval declined" } (by decide) rfl (by decide)).mpr (by decide)

/-- The late failure of the run puts it back into the retry queue. -/
theorem declined_lost_to_failure :
    ¬ Always (Action.step ⟨2, 1000, 60000⟩) (StaysDeclined 1)
      (run (Action.step ⟨2, 1000, 60000⟩) Table.empty declinedInFlight)
      [.handleFailure 2 ⟨"sentry", "7"⟩ "timeout"] := by
  rintro ⟨-, ⟨r, hr, hd⟩, -⟩
  have hf : ((run (Action.step ⟨2, 1000, 60000⟩) Table.empty
      (declinedInFlight ++ [.handleFailure 2 ⟨"sentry", "7"⟩ "timeout"])).get 1).map (·.status) =
        some .failed := by
    decide
  rw [run_concat, hr, Option.map_some, hd] at hf
  cases hf

end Claudear.Engine
