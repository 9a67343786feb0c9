import Claudear.Storage.CascadeRows

/-!
# Merged attempts

Nothing takes an attempt out of `merged` on purpose but a reset. The marks that
report a run's or a pull request's outcome look a row up by its issue, or by its
id, and do not look at the status they overwrite: an auto-close that works from
an older list closes a merged attempt, and a run that ends late reopens, fails or
gives it up. A second `mark_merged` moves its `merged_at`. Retries, the orphan
release and everything else leave it alone.
-/

namespace Claudear.Engine

open Claudear.Storage Claudear.Machine

/-- The call reports an outcome for the row `id`, which is as `r` is, other than the merge it has. -/
def unmerges (id : Nat) (r : AttemptRow) (c : Call) : Bool :=
  match c.op with
  | .markSuccess k _ | .markClosed k | .markFailed k _ | .markFailedUncharged k _ => ofOriginal k (id, r)
  | .markCannotFix k _ | .markAnswered k _ _ => ofIssue k (id, r)
  | .markMerged k => ofOriginal k (id, r) && decide (r.mergedAt ≠ some c.now)
  | .updateAttemptPr attemptId _ _ _ | .markCascadeFailed attemptId _ => ofId attemptId (id, r)
  | .markCascadePrOutcome attemptId merged =>
    ofId attemptId (id, r) && r.cascadeRepo.isSome && !(merged && decide (r.mergedAt = some c.now))
  | _ => false

/-- The row is merged, when it was, and no retry list has it. -/
def StaysMerged (id : Nat) (mergedAt : Option Timestamp) (t : FixAttempts) : Prop :=
  (∃ r, t.get id = some r ∧ r.status = .merged ∧ r.mergedAt = mergedAt) ∧
    ∀ maxRetries, ∀ a ∈ t.getRetryableIssues maxRetries, a.id ≠ id

theorem staysMerged_iff {id : Nat} {mergedAt : Option Timestamp} {t : FixAttempts} :
    StaysMerged id mergedAt t ↔ ∃ r, t.get id = some r ∧ r.status = .merged ∧ r.mergedAt = mergedAt := by
  refine ⟨fun h => h.1, fun h => ⟨h, ?_⟩⟩
  rintro maxRetries a ha rfl
  obtain ⟨r, hr, hm, -⟩ := h
  obtain ⟨i, q, hi, rfl, hf, -⟩ := FixAttempts.mem_getRetryableIssues.mp ha
  obtain rfl : r = q := Option.some.inj (hr.symm.trans hi)
  rw [hm] at hf
  cases hf

/-- A call keeps a merged row exactly if it reports no other outcome and does not reset the issue. -/
theorem rewrite_merged {t : FixAttempts} {c : Call} {id : Nat} {r : AttemptRow}
    (hm : r.status = .merged) :
    ((c.rewrite t (id, r)).status = .merged ∧ (c.rewrite t (id, r)).mergedAt = r.mergedAt) ↔
      unmerges id r c = false ∧ c.op ≠ .resetAttempt r.key := by
  obtain ⟨now, op⟩ := c
  cases op with
  | markSuccess k | markClosed k | markFailed k | markFailedUncharged k =>
    cases ho : ofOriginal k (id, r) <;> simp [Call.rewrite, unmerges, ho, hm]
  | markCannotFix k | markAnswered k =>
    cases ho : ofIssue k (id, r) <;> simp [Call.rewrite, unmerges, ho, hm]
  | markMerged k =>
    cases ho : ofOriginal k (id, r) with
    | false => simp [Call.rewrite, unmerges, ho, hm]
    | true =>
      have hat : (r.merge now).mergedAt = some now := rfl
      simp [Call.rewrite, unmerges, ho, hat, eq_comm (a := some now)]
  | updateAttemptPr attemptId | markCascadeFailed attemptId =>
    cases ho : ofId attemptId (id, r) <;> simp [Call.rewrite, unmerges, ho, hm]
  | markCascadePrOutcome attemptId merged =>
    cases ho : ofId attemptId (id, r) && r.cascadeRepo.isSome with
    | false => simp [Call.rewrite, unmerges, ho, hm]
    | true =>
      cases merged with
      | false => simp [Call.rewrite, unmerges, ho, AttemptRow.settle]
      | true => simp [Call.rewrite, unmerges, ho, AttemptRow.settle, eq_comm (a := some now)]
  | resetAttempt k =>
    cases hk : ofIssue k (id, r) with
    | false => simp_all [Call.rewrite, unmerges, ofIssue, eq_comm]
    | true => simp_all [Call.rewrite, unmerges, ofIssue]
  | markDeclined | prepareForRetry =>
    simp [Call.rewrite, unmerges, FixAttempts.declinable, FixAttempts.retryableOf,
      AttemptRow.retryable, hm]
  | releaseOrphanedPendingAttempts =>
    simp [Call.rewrite, unmerges, FixAttempts.recentOrphan, FixAttempts.oldOrphan,
      AttemptRow.orphaned, hm]
  | recordCascadeAttempt => simp [Call.rewrite, unmerges, hm]
  | recordAttemptWithLabels | markResolved | recordAnswerMessageIds | incrementRetry
  | recordAttemptHeartbeat =>
    simp only [Call.rewrite, unmerges, ne_eq, reduceCtorEq, not_false_eq_true, and_self, iff_true]
    split <;> exact ⟨hm, rfl⟩

/-- What identifies the row and its kind, which no call changes. -/
def RowAt (id : Nat) (r : AttemptRow) (t : FixAttempts) : Prop :=
  ∃ q, t.get id = some q ∧ q.key = r.key ∧ q.cascadeRepo = r.cascadeRepo

theorem RowAt.exec {id : Nat} {r : AttemptRow} {t : FixAttempts} (h : RowAt id r t) (c : Call) :
    RowAt id r (t.exec c) := by
  obtain ⟨q, hq, hk, hc⟩ := h
  exact ⟨_, FixAttempts.get_exec_of hq c, (c.rewrite_key t (id, q)).trans hk,
    (c.rewrite_cascadeRepo t (id, q)).trans hc⟩

theorem unmerges_congr {id : Nat} {r q : AttemptRow} (hk : q.key = r.key)
    (hc : q.cascadeRepo = r.cascadeRepo) (hm : q.mergedAt = r.mergedAt) (c : Call) :
    unmerges id q c = unmerges id r c := by
  simp only [unmerges, ofOriginal, ofIssue, ofId, hk, hc, hm]

/-- What one call does to a merged attempt. -/
theorem staysMerged_exec {id : Nat} {r : AttemptRow} {t : FixAttempts} (h : RowAt id r t)
    (hm : StaysMerged id r.mergedAt t) (c : Call) :
    StaysMerged id r.mergedAt (t.exec c) ↔ unmerges id r c = false ∧ c.op ≠ .resetAttempt r.key := by
  obtain ⟨q, hq, hk, hc⟩ := h
  obtain ⟨q', hq', hs, hat⟩ := hm.1
  obtain rfl : q = q' := Option.some.inj (hq.symm.trans hq')
  rw [← unmerges_congr hk hc hat, ← hk, ← rewrite_merged (t := t) hs, hat, staysMerged_iff,
    FixAttempts.get_exec_of hq]
  simp

/-- A merged attempt that nobody resets stays merged, with the time it was, and off every retry list,
exactly as long as nobody reports another outcome for it. -/
theorem merged_stays_iff (l₀ l : List Call) (id : Nat) (r : AttemptRow)
    (hr : (tracked l₀).get id = some r) (hm : r.status = .merged)
    (hreset : ∀ c ∈ l, c.op ≠ .resetAttempt r.key) :
    Always FixAttempts.exec (StaysMerged id r.mergedAt) (tracked l₀) l ↔
      ∀ c ∈ l, unmerges id r c = false := by
  rw [always_iff_along_inv (I := RowAt id r) (fun _ c h => h.exec c)
    (fun _ c h hm => staysMerged_exec h hm c) ⟨r, hr, rfl, rfl⟩ (staysMerged_iff.mpr ⟨r, hr, hm, rfl⟩),
    along_const]
  exact forall₂_congr fun c hc => and_iff_left (hreset c hc)

/-- An attempt whose pull request a sweep has found merged. -/
def mergedOnce : List Call :=
  [⟨0, .recordAttemptWithLabels ⟨"linear", "1"⟩ "ENG-1" []⟩,
    ⟨1, .markSuccess ⟨"linear", "1"⟩ "https://github.com/org/api/pull/7"⟩,
    ⟨2, .markMerged ⟨"linear", "1"⟩⟩]

def mergedRow : AttemptRow :=
  ((AttemptRow.original ⟨"linear", "1"⟩ "ENG-1" 0 none).succeed
    "https://github.com/org/api/pull/7").merge 2

/-- A retry, an orphan release and the merge of another issue leave it alone. -/
theorem merged_stays_retry :
    Always FixAttempts.exec (StaysMerged 1 (some 2)) (tracked mergedOnce)
      [⟨3, .prepareForRetry ⟨"linear", "1"⟩⟩, ⟨4, .releaseOrphanedPendingAttempts 0⟩,
        ⟨5, .markMerged ⟨"linear", "2"⟩⟩] :=
  (merged_stays_iff mergedOnce _ 1 mergedRow (by decide) rfl (by decide)).mpr (by decide)

/-- The auto-close sweep listed the attempt before its merge was seen, and closes it after. -/
theorem merged_lost_to_auto_close :
    ¬ Always FixAttempts.exec (StaysMerged 1 (some 2)) (tracked mergedOnce)
      [⟨3, .markClosed ⟨"linear", "1"⟩⟩] := by
  rintro ⟨-, ⟨r, hr, hm, -⟩, -⟩
  have hc : ((tracked (mergedOnce ++ [⟨3, .markClosed ⟨"linear", "1"⟩⟩])).get 1).map
      AttemptRow.status = some .closed := by
    decide
  rw [tracked, run_concat, hr, Option.map_some, hm] at hc
  cases hc

end Claudear.Engine
