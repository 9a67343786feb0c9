import Claudear.Storage.Tracker

/-!
# Cascade rows under the issue's own writers

The rows of an issue share `(source, issue_id)`. A writer addressed by that pair
is about the issue's original attempt, and `cascade_repo IS NULL` keeps it off
the rows of the downstream fixes. `reset_attempt`, `increment_retry`,
`mark_cannot_fix`, `mark_answered`, `record_answer_message_ids` and
`prepare_for_retry` have no such clause.

A call is `CascadeSafe` in a table where the clause it lacks would exclude
nothing. A run of safe calls leaves every cascade row as it is.
-/

namespace Claudear.Storage

open Claudear.Sql Claudear.Machine

namespace TrackerOp

/-- The operation names a row by its id. -/
def byRowId : TrackerOp → Bool
  | .updateAttemptPr .. | .markCascadeFailed .. | .markCascadePrOutcome .. => true
  | _ => false

/-- The `WHERE` of a statement without `cascade_repo IS NULL`. -/
def unfiltered : TrackerOp → Nat × AttemptRow → Bool
  | .markCannotFix k _, r | .markAnswered k _ _, r | .incrementRetry k, r | .resetAttempt k, r =>
    ofIssue k r
  | .recordAnswerMessageIds k messageIds, r => ofIssue k r && !messageIds.isEmpty
  | .prepareForRetry k, r => FixAttempts.retryableOf k r
  | _, _ => false

end TrackerOp

/-- No cascade row is matched by a clause that should exclude it. -/
def CascadeSafe (t : FixAttempts) (c : Call) : Prop :=
  t.any (fun r => r.2.cascadeRepo.isSome && c.op.unfiltered r) = false

instance (t : FixAttempts) (c : Call) : Decidable (CascadeSafe t c) :=
  inferInstanceAs (Decidable (_ = false))

theorem CascadeSafe.unmatched {t : FixAttempts} {c : Call} (h : CascadeSafe t c) {i : Nat}
    {r : AttemptRow} (hi : t.get i = some r) (hr : r.cascadeRepo.isSome) :
    c.op.unfiltered (i, r) = false := by
  by_contra hu
  have hany : t.any (fun r => r.2.cascadeRepo.isSome && c.op.unfiltered r) = true :=
    Table.any_eq_true.mpr ⟨i, r, hi, by simpa [hr] using hu⟩
  rw [h] at hany
  cases hany

/-- Every cascade row of `t` is in `t'`, with the columns it had. -/
def CascadesKept (t t' : FixAttempts) : Prop :=
  ∀ i r, t.get i = some r → r.cascadeRepo.isSome → t'.get i = some r

theorem ofOriginal_cascade {r : Nat × AttemptRow} (h : r.2.cascadeRepo.isSome) (k : IssueKey) :
    ofOriginal k r = false := by
  have hn : r.2.cascadeRepo.isNone = false := by simpa using h
  rw [ofOriginal, hn, Bool.and_false]

theorem orphaned_cascade {r : AttemptRow} (h : r.cascadeRepo.isSome) (staleBefore : Timestamp) :
    r.orphaned staleBefore = false := by
  have hn : r.cascadeRepo.isNone = false := by simpa using h
  simp only [AttemptRow.orphaned, hn, Bool.and_false, Bool.false_and]

/-- What one call makes of a cascade row its clause does not match. -/
theorem Call.rewrite_cascade (t : FixAttempts) {c : Call} {r : Nat × AttemptRow}
    (hr : r.2.cascadeRepo.isSome) (hid : c.op.byRowId = false) (hu : c.op.unfiltered r = false) :
    c.rewrite t r = r.2 := by
  have ho := ofOriginal_cascade hr
  have hp := orphaned_cascade hr
  obtain ⟨now, op⟩ := c
  cases op with
  | updateAttemptPr => cases hid
  | markCascadeFailed => cases hid
  | markCascadePrOutcome => cases hid
  | markCannotFix | markAnswered | incrementRetry | prepareForRetry | resetAttempt
  | recordAnswerMessageIds =>
    simp only [TrackerOp.unfiltered] at hu
    simp [Call.rewrite, hu]
  | releaseOrphanedPendingAttempts =>
    simp [Call.rewrite, FixAttempts.recentOrphan, FixAttempts.oldOrphan, hp]
  | markDeclined => simp [Call.rewrite, FixAttempts.declinable, ho]
  | recordCascadeAttempt => rfl
  | _ => simp [Call.rewrite, ho]

theorem CascadesKept.exec {t t' : FixAttempts} (h : CascadesKept t t') {c : Call}
    (hid : c.op.byRowId = false) (hs : CascadeSafe t' c) : CascadesKept t (t'.exec c) := by
  intro i r hi hr
  have hi' := h i r hi hr
  rw [FixAttempts.get_exec_of hi', Call.rewrite_cascade t' hr hid (hs.unmatched hi' hr)]

/-- Whatever cascade rows a table has, calls addressed by the issue leave them as they are, in
every state of the run, as long as no unfiltered statement matches one. -/
theorem cascades_kept (t : FixAttempts) (l : List Call) (hid : ∀ c ∈ l, c.op.byRowId = false)
    (hs : Along FixAttempts.exec CascadeSafe t l) :
    Always FixAttempts.exec (CascadesKept t) t l := by
  rw [always_iff_run]
  rintro pre ⟨rest, rfl⟩
  have hs' := (along_append.mp hs).1
  have hid' : Along FixAttempts.exec (fun _ (c : Call) => c.op.byRowId = false) t pre :=
    along_const.mpr fun c hc => hid c (List.mem_append_left _ hc)
  have hboth : Along FixAttempts.exec (fun t c => c.op.byRowId = false ∧ CascadeSafe t c) t pre :=
    along_and.mpr ⟨hid', hs'⟩
  exact hboth.inv (fun _ _ h hc => h.exec hc.1 hc.2) (fun _ _ hi _ => hi)

/-- An issue whose fix has cascaded to a second repository. -/
def cascaded : List Call :=
  [⟨0, .recordAttemptWithLabels ⟨"linear", "ENG-1"⟩ "ENG-1" []⟩,
    ⟨1, .recordCascadeAttempt ⟨"linear", "ENG-1"⟩ "ENG-1" 1 "org/client"⟩]

/-- Marking another issue, and failing this one, keeps the cascade row. -/
theorem cascades_kept_fail :
    Always FixAttempts.exec (CascadesKept (tracked cascaded)) (tracked cascaded)
      [⟨2, .markFailed ⟨"linear", "ENG-1"⟩ "tests fail"⟩, ⟨3, .resetAttempt ⟨"linear", "ENG-2"⟩⟩] :=
  cascades_kept _ _ (by decide) (by decide)

/-- Giving the issue up gives its downstream fix up with it. -/
theorem cascade_row_given_up :
    ¬ Always FixAttempts.exec (CascadesKept (tracked cascaded)) (tracked cascaded)
      [⟨2, .markCannotFix ⟨"linear", "ENG-1"⟩ "not a bug"⟩] := by
  rintro ⟨-, h⟩
  have hrow := h 2 (.cascade ⟨"linear", "ENG-1"⟩ "ENG-1" 1 1 "org/client") (by decide) (by decide)
  revert hrow
  decide

end Claudear.Storage
