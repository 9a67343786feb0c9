import Claudear.Machine.Run
import Claudear.Storage.FixAttempts

/-!
# Runs of the tracker

A `Call` is a call of one of the tracker's writers. `Call.rewrite` is what a
call makes of one row and `Call.inserted` the row it adds; `get_exec` says that
they are all a call does, so an invariant of the table is proved from the two
and no writer is unfolded again.
-/

namespace Claudear.Storage

open Claudear.Sql

/-- A call of one of the tracker's writers. -/
inductive TrackerOp where
  | recordAttemptWithLabels (k : IssueKey) (shortId : String) (labels : List String)
  | markSuccess (k : IssueKey) (prUrl : String)
  | markMerged (k : IssueKey)
  | markClosed (k : IssueKey)
  | markResolved (k : IssueKey)
  | markFailed (k : IssueKey) (errorMessage : String)
  | markFailedUncharged (k : IssueKey) (errorMessage : String)
  | markCannotFix (k : IssueKey) (reason : String)
  | markAnswered (k : IssueKey) (summary : String) (intent : Option String)
  | markDeclined (k : IssueKey) (reason : String)
  | recordAnswerMessageIds (k : IssueKey) (messageIds : List String)
  | incrementRetry (k : IssueKey)
  | prepareForRetry (k : IssueKey)
  | resetAttempt (k : IssueKey)
  | recordAttemptHeartbeat (k : IssueKey)
  | releaseOrphanedPendingAttempts (staleAfter : Nat)
  | recordCascadeAttempt (k : IssueKey) (shortId : String) (parentAttemptId : Nat) (cascadeRepo : String)
  | updateAttemptPr (attemptId : Nat) (prUrl scmRepo : String) (prNumber : Int)
  | markCascadeFailed (attemptId : Nat) (error : String)
  | markCascadePrOutcome (attemptId : Nat) (merged : Bool)
  deriving DecidableEq, Repr

/-- A call and the clock it reads. -/
structure Call where
  now : Timestamp
  op : TrackerOp
  deriving DecidableEq, Repr

/-- The table after a call; a call that fails leaves it as it is. -/
def FixAttempts.exec (t : FixAttempts) (c : Call) : FixAttempts :=
  match c.op with
  | .recordAttemptWithLabels k shortId labels => t.recordAttemptWithLabels c.now k shortId labels
  | .markSuccess k prUrl => t.markSuccess k prUrl
  | .markMerged k => t.markMerged c.now k
  | .markClosed k => t.markClosed k
  | .markResolved k => t.markResolved c.now k
  | .markFailed k errorMessage => t.markFailed k errorMessage
  | .markFailedUncharged k errorMessage => t.markFailedUncharged k errorMessage
  | .markCannotFix k reason => t.markCannotFix k reason
  | .markAnswered k summary intent => t.markAnswered k summary intent
  | .markDeclined k reason => t.markDeclined k reason
  | .recordAnswerMessageIds k messageIds => t.recordAnswerMessageIds k messageIds
  | .incrementRetry k => t.incrementRetry c.now k
  | .prepareForRetry k => (t.prepareForRetry c.now k).toOption.getD t
  | .resetAttempt k => t.resetAttempt c.now k
  | .recordAttemptHeartbeat k => t.recordAttemptHeartbeat c.now k
  | .releaseOrphanedPendingAttempts staleAfter => (t.releaseOrphanedPendingAttempts c.now staleAfter).2
  | .recordCascadeAttempt k shortId parentAttemptId cascadeRepo =>
    match t.recordCascadeAttempt c.now k shortId parentAttemptId cascadeRepo with
    | .ok (_, t') => t'
    | .error _ => t
  | .updateAttemptPr attemptId prUrl scmRepo prNumber => t.updateAttemptPr attemptId prUrl scmRepo prNumber
  | .markCascadeFailed attemptId error => t.markCascadeFailed attemptId error
  | .markCascadePrOutcome attemptId merged => t.markCascadePrOutcome c.now attemptId merged

/-- The tables a tracker reaches from an empty database. -/
abbrev tracked (l : List Call) : FixAttempts := Machine.run FixAttempts.exec Table.empty l

/-! ## What a call does -/

/-- The issue's original attempt is there and reset. -/
def FixAttempts.originalReset (t : FixAttempts) (k : IssueKey) : Bool :=
  match t.first (ofOriginal k) with
  | some (_, row) => row.resetAt.isSome
  | none => false

namespace Call

/-- What a call makes of a row of `t`. -/
def rewrite (t : FixAttempts) (c : Call) (r : Nat × AttemptRow) : AttemptRow :=
  match c.op with
  | .recordAttemptWithLabels k shortId labels =>
    if ofOriginal k r && t.originalReset k then r.2.takeUp shortId c.now (FixAttempts.labelsJson labels)
    else r.2
  | .markSuccess k prUrl => if ofOriginal k r then r.2.succeed prUrl else r.2
  | .markMerged k => if ofOriginal k r then r.2.merge c.now else r.2
  | .markClosed k => if ofOriginal k r then r.2.close else r.2
  | .markResolved k => if ofOriginal k r then r.2.resolve c.now else r.2
  | .markFailed k errorMessage => if ofOriginal k r then r.2.fail errorMessage else r.2
  | .markFailedUncharged k errorMessage => if ofOriginal k r then r.2.failUncharged errorMessage else r.2
  | .markCannotFix k reason => if ofIssue k r then r.2.giveUp reason else r.2
  | .markAnswered k summary intent => if ofIssue k r then r.2.answer summary intent else r.2
  | .markDeclined k reason => if FixAttempts.declinable k r then r.2.decline reason else r.2
  | .recordAnswerMessageIds k messageIds =>
    if ofIssue k r && !messageIds.isEmpty then
      { r.2 with
        answerMessageIds := some <| FixAttempts.packAnswerMessageIds
          ((t.first (ofIssue k)).bind (·.2.answerMessageIds)) messageIds }
    else r.2
  | .incrementRetry k => if ofIssue k r then r.2.countRetry c.now else r.2
  | .prepareForRetry k => if FixAttempts.retryableOf k r then r.2.retry c.now else r.2
  | .resetAttempt k => if ofIssue k r then r.2.reset c.now else r.2
  | .recordAttemptHeartbeat k => if ofOriginal k r && r.2.status = .pending then r.2.beat c.now else r.2
  | .releaseOrphanedPendingAttempts staleAfter =>
    if FixAttempts.recentOrphan c.now staleAfter r then r.2.failUncharged FixAttempts.interrupted
    else if FixAttempts.oldOrphan c.now staleAfter r then r.2.giveUp FixAttempts.tooOld
    else r.2
  | .recordCascadeAttempt .. => r.2
  | .updateAttemptPr attemptId prUrl scmRepo prNumber =>
    if ofId attemptId r then r.2.openPr prUrl scmRepo prNumber else r.2
  | .markCascadeFailed attemptId error => if ofId attemptId r then r.2.fail error else r.2
  | .markCascadePrOutcome attemptId merged =>
    if ofId attemptId r && r.2.cascadeRepo.isSome then r.2.settle merged c.now else r.2

/-- The row a call adds to `t`. -/
def inserted (t : FixAttempts) (c : Call) : Option AttemptRow :=
  match c.op with
  | .recordAttemptWithLabels k shortId labels =>
    if (t.first (ofOriginal k)).isNone then
      some (.original k shortId c.now (FixAttempts.labelsJson labels))
    else none
  | .recordCascadeAttempt k shortId parentAttemptId cascadeRepo =>
    if (t.first (FixAttempts.openCascade k cascadeRepo)).isNone && (t.get parentAttemptId).isSome then
      some (.cascade k shortId c.now parentAttemptId cascadeRepo)
    else none
  | _ => none

/-- The two kinds of rows calls add, and what was looked up before. -/
theorem inserted_cases {t : FixAttempts} {c : Call} {row : AttemptRow} (h : c.inserted t = some row) :
    (∃ k shortId labels, c.op = .recordAttemptWithLabels k shortId labels ∧
      t.first (ofOriginal k) = none ∧
      row = .original k shortId c.now (FixAttempts.labelsJson labels)) ∨
    (∃ k shortId parent repo, c.op = .recordCascadeAttempt k shortId parent repo ∧
      t.first (FixAttempts.openCascade k repo) = none ∧ (t.get parent).isSome ∧
      row = .cascade k shortId c.now parent repo) := by
  obtain ⟨now, op⟩ := c
  cases op with
  | recordAttemptWithLabels k shortId labels =>
    simp only [inserted, Option.isNone_iff_eq_none, Option.ite_none_right_eq_some,
      Option.some.injEq] at h
    exact .inl ⟨k, shortId, labels, rfl, h.1, h.2.symm⟩
  | recordCascadeAttempt k shortId parent repo =>
    simp only [inserted, Bool.and_eq_true, Option.isNone_iff_eq_none, Option.ite_none_right_eq_some,
      Option.some.injEq] at h
    exact .inr ⟨k, shortId, parent, repo, rfl, h.1.1, h.1.2, h.2.symm⟩
  | _ => cases h

end Call

/-- The table a call leaves, key by key. -/
def Call.after (t : FixAttempts) (c : Call) (i : Nat) : Option AttemptRow :=
  match t.get i with
  | some r => some (c.rewrite t (i, r))
  | none => if i = t.next then c.inserted t else none

namespace FixAttempts

variable {t : FixAttempts} {i : Nat}

/-- A call that only updates. -/
theorem after_update {p : Nat × AttemptRow → Bool} {f : AttemptRow → AttemptRow} {c : Call}
    (hr : ∀ r, c.rewrite t r = if p r then f r.2 else r.2) (hi : c.inserted t = none) :
    (t.update p f).get i = c.after t i := by
  simp only [Call.after, Table.get_update, hr, hi, ite_self]
  cases t.get i <;> rfl

/-- A call that changes nothing. -/
theorem after_skip {c : Call} (hr : ∀ r, c.rewrite t r = r.2) (hi : c.inserted t = none) :
    t.get i = c.after t i := by
  simp only [Call.after, hr, hi, ite_self]
  cases t.get i <;> rfl

/-- A call that only adds a row. -/
theorem after_insert {row : AttemptRow} {c : Call} (hr : ∀ r, c.rewrite t r = r.2)
    (hi : c.inserted t = some row) : (t.insert row).get i = c.after t i := by
  simp only [Call.after, Table.get_insert, hr, hi]
  cases h : t.get i with
  | none => rfl
  | some r => simp [Nat.ne_of_lt (Table.lt_next h)]

theorem get_recordAttempt (now : Timestamp) (k : IssueKey) (shortId : String) (labels : List String) :
    (t.recordAttemptWithLabels now k shortId labels).get i =
      Call.after t ⟨now, .recordAttemptWithLabels k shortId labels⟩ i := by
  unfold recordAttemptWithLabels
  split
  · rename_i h
    exact after_insert (fun r => by simp [Call.rewrite, originalReset, h]) (by simp [Call.inserted, h])
  · rename_i id row h
    split
    · rename_i hr
      exact after_update (fun r => by simp [Call.rewrite, originalReset, h, hr])
        (by simp [Call.inserted, h])
    · rename_i hr
      exact after_skip (fun r => by simp [Call.rewrite, originalReset, h, hr])
        (by simp [Call.inserted, h])

theorem get_recordAnswerMessageIds (now : Timestamp) (k : IssueKey) (messageIds : List String) :
    (t.recordAnswerMessageIds k messageIds).get i =
      Call.after t ⟨now, .recordAnswerMessageIds k messageIds⟩ i := by
  unfold recordAnswerMessageIds
  split
  · rename_i h
    exact after_skip (fun r => by simp [Call.rewrite, h]) rfl
  · rename_i h
    exact after_update (fun r => by simp [Call.rewrite, h]) rfl

theorem get_prepareForRetry (now : Timestamp) (k : IssueKey) :
    ((t.prepareForRetry now k).toOption.getD t).get i = Call.after t ⟨now, .prepareForRetry k⟩ i := by
  unfold prepareForRetry
  split
  · -- no row is matched, so the refused call and the update agree
    rename_i h
    have hn := Table.count_eq_zero.mp h
    simp only [Except.toOption, Option.getD_none, Call.after, Call.rewrite, Call.inserted, ite_self]
    cases hi : t.get i with
    | none => rfl
    | some r => simp [hn i r hi]
  · exact after_update (fun _ => rfl) rfl

theorem get_releaseOrphaned (now : Timestamp) (staleAfter : Nat) :
    (t.releaseOrphanedPendingAttempts now staleAfter).2.get i =
      Call.after t ⟨now, .releaseOrphanedPendingAttempts staleAfter⟩ i := by
  simp only [releaseOrphanedPendingAttempts, Table.get_update, Call.after, Call.rewrite, Call.inserted,
    ite_self]
  cases t.get i with
  | none => rfl
  | some r =>
    simp only [Option.map_some]
    split
    · simp [oldOrphan]
    · rfl

theorem get_recordCascade (now : Timestamp) (k : IssueKey) (shortId : String) (parentAttemptId : Nat)
    (cascadeRepo : String) :
    (t.exec ⟨now, .recordCascadeAttempt k shortId parentAttemptId cascadeRepo⟩).get i =
      Call.after t ⟨now, .recordCascadeAttempt k shortId parentAttemptId cascadeRepo⟩ i := by
  simp only [exec, recordCascadeAttempt]
  cases hf : t.first (openCascade k cascadeRepo) with
  | some r => exact after_skip (fun _ => rfl) (by simp [Call.inserted, hf])
  | none =>
    cases hp : t.get parentAttemptId with
    | none => exact after_skip (fun _ => rfl) (by simp [Call.inserted, hp])
    | some r => exact after_insert (fun _ => rfl) (by simp [Call.inserted, hf, hp])

/-- What a call does to the table, key by key. -/
theorem get_exec (t : FixAttempts) (c : Call) (i : Nat) : (t.exec c).get i = c.after t i := by
  obtain ⟨now, op⟩ := c
  cases op with
  | recordAttemptWithLabels k shortId labels => exact get_recordAttempt now k shortId labels
  | recordAnswerMessageIds k messageIds => exact get_recordAnswerMessageIds now k messageIds
  | prepareForRetry k => exact get_prepareForRetry now k
  | releaseOrphanedPendingAttempts staleAfter => exact get_releaseOrphaned now staleAfter
  | recordCascadeAttempt k shortId parent repo => exact get_recordCascade now k shortId parent repo
  | _ => exact after_update (fun _ => rfl) rfl

/-- A row before a call is there after it, rewritten. -/
theorem get_exec_of {r : AttemptRow} (h : t.get i = some r) (c : Call) :
    (t.exec c).get i = some (c.rewrite t (i, r)) := by
  rw [get_exec, Call.after, h]

theorem get_exec_inserted {c : Call} {r : AttemptRow} (h : c.inserted t = some r) :
    (t.exec c).get t.next = some r := by
  rw [get_exec, Call.after, Table.get_next, if_pos rfl, h]

/-- A row after a call is a rewritten row from before it, or the row the call adds. -/
theorem get_exec_cases {c : Call} {r' : AttemptRow} (h : (t.exec c).get i = some r') :
    (∃ r, t.get i = some r ∧ r' = c.rewrite t (i, r)) ∨ i = t.next ∧ c.inserted t = some r' := by
  rw [get_exec, Call.after] at h
  split at h
  · rename_i r hr
    exact .inl ⟨r, hr, (Option.some.inj h).symm⟩
  · split at h
    · exact .inr ⟨‹_›, h⟩
    · cases h

end FixAttempts

/-! ## What no call changes -/

namespace Call

variable (t : FixAttempts) (c : Call) (r : Nat × AttemptRow)

/-- No call moves a row to another issue, or between originals and cascades. -/
theorem rewrite_key : (c.rewrite t r).key = r.2.key := by
  obtain ⟨now, op⟩ := c
  cases op <;> simp only [rewrite] <;> split_ifs <;> rfl

theorem rewrite_cascadeRepo : (c.rewrite t r).cascadeRepo = r.2.cascadeRepo := by
  obtain ⟨now, op⟩ := c
  cases op <;> simp only [rewrite] <;> split_ifs <;> rfl

theorem rewrite_parentAttemptId : (c.rewrite t r).parentAttemptId = r.2.parentAttemptId := by
  obtain ⟨now, op⟩ := c
  cases op <;> simp only [rewrite] <;> split_ifs <;> rfl

end Call

end Claudear.Storage
