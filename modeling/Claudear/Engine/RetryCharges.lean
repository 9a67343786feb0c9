import Claudear.Engine.Retrying
import Claudear.Engine.SettledRuns

/-!
# What a retry costs

A retry runs against a table and a `World` that answers every call from outside
as it likes. `Exit` is what those answers have to do with the ways out of a
retry that cost nothing: it is free exactly when one of them was taken.

Nothing but `prepare_for_retry` charges an attempt, and nothing but
`mark_failed_uncharged` gives a charge back, so the count is followed through
the run as an equation.
-/

namespace Claudear.Engine.Retrying

open Claudear.Sql Claudear.Storage Claudear.Machine Claudear.Text
open Claudear.Engine.Processing
  (originalRow_ofOriginal SECURITY_FIX_SOURCE DEPLOY_QA_SOURCE Issue Intent RepoResolution)
open Claudear.Analysis (contains)

/-! ## Courses -/

/-- A way out of a retry that says nothing about the issue. -/
inductive Exit where
  | stopping | busy | paused
  /-- Loading the issue failed transiently. -/
  | transient
  /-- The approval request got no usable answer. -/
  | unanswered
  /-- The security inbox is not enabled. -/
  | noInbox
  /-- The attempt is failed on a rate limit when it is read back. -/
  | rateLimited
  deriving DecidableEq, Repr

def Outer.exit {β : Type} : Outer β → β → Option Exit
  | .isStopped, true => some .stopping
  | .securityInboxEnabled, false => some .noInbox
  | .getIssue .., .error e => if e.isTransient then some .transient else none
  | .isRateLimitPaused, true => some .paused
  | .claimProcessing .., false => some .busy
  | .requestApproval, .unrecognized => some .unanswered
  | .requestApproval, .unanswered => some .unanswered
  | _, _ => none

/-- The answers from outside to the `n`-th call, to this program's or to one of the processor's. -/
structure World where
  now : Nat → Timestamp
  outer : Nat → {β : Type} → Outer β → β
  processing : Nat → Processing.World

structure Course where
  table : FixAttempts
  calls : Nat := 0
  exits : List Exit := []

def Course.write (s : Course) (t : FixAttempts) : Course :=
  { s with table := t, calls := s.calls + 1 }

def Course.hear (s : Course) (e : Option Exit) : Course :=
  { s with calls := s.calls + 1, exits := s.exits ++ e.toList }

def serve (U : CaseProps) (W : World) {β : Type} : Req β → Course → β × Course
  | .prepareRetry k, s =>
    match prepareRetry s.table (W.now s.calls) k with
    | .ok t => (.ok (), s.write t)
    | .error e => (.error e, s.write s.table)
  | .recordAttemptWithLabels k shortId labels, s =>
    ((), s.write (s.table.recordAttemptWithLabels (W.now s.calls) k shortId labels))
  | .markDeclined k reason, s => ((), s.write (s.table.markDeclined k reason))
  | .markFailed k error, s => ((), s.write (s.table.markFailed k error))
  | .markFailedUncharged k error, s => ((), s.write (s.table.markFailedUncharged k error))
  | .getAttempt k, s =>
    let attempt := s.table.getAttempt k
    (attempt, s.hear ((Watcher.rateLimited U attempt).map fun _ => .rateLimited))
  | .processing p, s =>
    let r := Prog.eval (Processing.serve (W.processing s.calls)) p { table := s.table }
    (r.1, s.write r.2.table)
  | .outer c, s => (W.outer s.calls c, s.hear (c.exit (W.outer s.calls c)))

/-- `retry`, with nobody else at the issue. -/
def Watcher.retryFrom (U : CaseProps) (w : Watcher) (W : World) (a : FixAttempt) (t : FixAttempts) :
    RetryOutcome × Course :=
  Prog.eval (serve U W) (w.retryAttempt U a) { table := t }

/-! ## The count -/

variable {U : CaseProps} {w : Watcher} {W : World} {k : IssueKey} {r : AttemptRow} {n : Nat}
  {s : Course} {t : FixAttempts} {a : FixAttempt}

/-- The retries the issue's own attempt was charged. -/
def retryCount (t : FixAttempts) (k : IssueKey) : Option Nat :=
  (originalRow t k).map AttemptRow.retryCount

/-- A statement that leaves the counter as it is. -/
theorem retryCount_update (h : retryCount t k = some n) {p : Nat × AttemptRow → Bool}
    {f : AttemptRow → AttemptRow} (hf : ∀ r, (f r).key = r.key ∧ (f r).cascadeRepo = r.cascadeRepo ∧
      (f r).retryCount = r.retryCount) : retryCount (t.update p f) k = some n := by
  have hfirst : (t.update p f).first (ofOriginal k) = (t.first (ofOriginal k)).map (Table.setWhere p f) := by
    refine Table.first_update fun r => ?_
    simp only [ofOriginal, ofIssue, Table.setWhere]
    split <;> simp [hf]
  rw [retryCount, originalRow] at h ⊢
  rw [hfirst]
  cases hrow : t.first (ofOriginal k) with
  | none =>
    rw [hrow] at h
    cases h
  | some row =>
    rw [hrow] at h
    simp only [Option.map_some, Table.setWhere] at h ⊢
    split
    · rw [(hf row.2).2.2]
      exact h
    · exact h

theorem retryCount_recordAttempt (h : retryCount t k = some n) (now : Timestamp) (k' : IssueKey)
    (shortId : String) (labels : List String) :
    retryCount (t.recordAttemptWithLabels now k' shortId labels) k = some n := by
  unfold FixAttempts.recordAttemptWithLabels
  split
  · rw [retryCount, originalRow] at h ⊢
    cases hrow : t.first (ofOriginal k) with
    | none =>
      rw [hrow] at h
      cases h
    | some row => rwa [Table.first_insert, hrow, Option.some_or, ← hrow]
  · split
    · exact retryCount_update h fun _ => ⟨rfl, rfl, rfl⟩
    · exact h

theorem retryCount_processing {β : Type} (p : Processing.Run β) (W : Processing.World)
    (h : retryCount t k = some n) :
    retryCount (Prog.eval (Processing.serve W) p { table := t }).2.table k = some n := by
  refine Prog.ends_always (L := fun s : Processing.Course => retryCount s.table k = some n) ?_ p h
  intro β c s hs
  cases c with
  | getAttempt k' => exact hs
  | outer c => exact hs
  | markSuccess k' prUrl | markFailed k' error | markCannotFix k' reason | markAnswered k' summary intent =>
    exact retryCount_update hs fun _ => ⟨rfl, rfl, rfl⟩
  | recordAnswerMessageIds k' ids =>
    simp only [Processing.serve, Processing.Course.write, FixAttempts.recordAnswerMessageIds]
    split
    · exact hs
    · exact retryCount_update hs fun _ => ⟨rfl, rfl, rfl⟩

/-! ## Before the charge -/

/-- The retry goes on, and nothing was written or spent. -/
def Fresh (t : FixAttempts) (s : Course) : Prop := s.table = t ∧ s.exits = []

/-- The retry was left with the table as it was. -/
def Left (t : FixAttempts) (e : Exit) (s : Course) : Prop := s.table = t ∧ s.exits = [e]

theorem Fresh.hear (h : Fresh t s) {β : Type} {c : Outer β} {b : β} (hb : W.outer s.calls c = b)
    (he : c.exit b = none) : Fresh t (serve U W (.outer c) s).2 := by
  refine ⟨h.1, ?_⟩
  simp only [serve, Course.hear, hb, he, h.2, Option.toList_none, List.append_nil]

theorem Fresh.leave (h : Fresh t s) {β : Type} {c : Outer β} {b : β} {e : Exit}
    (hb : W.outer s.calls c = b) (he : c.exit b = some e) : Left t e (serve U W (.outer c) s).2 := by
  refine ⟨h.1, ?_⟩
  simp only [serve, Course.hear, hb, he, h.2, Option.toList_some, List.nil_append]

/-- A program of the processor that does not write. -/
theorem Fresh.processing (h : Fresh t s) {β : Type} {p : Processing.Run β} (hp : Processing.Plain p) :
    Fresh t (serve U W (.processing p) s).2 := by
  refine ⟨?_, h.2⟩
  refine Quiet.ends (L := fun s : Processing.Course => s.table = t) hp () (fun c s hc hs => ?_) h.1
  exact (Processing.serve_plain hc s).1.trans hs

theorem plain_belongsToSecurityInbox (P : Processing.IssueProcessor) (issue : Issue) :
    Processing.Plain (P.belongsToSecurityInbox issue) := by
  unfold Processing.IssueProcessor.belongsToSecurityInbox
  split
  · exact trivial
  · unfold Processing.IssueProcessor.hasSecurityReport
    split
    · refine Processing.plain_call rfl fun report => ?_
      split <;> exact trivial
    · exact trivial

/-! ## The charge -/

/-- Preparing a retry counts it for the issue's own attempt. -/
def ChargedOnce (t : FixAttempts) (k : IssueKey) (n : Nat) : Prop :=
  ∀ now t', prepareRetry t now k = .ok t' → retryCount t' k = some (n + 1)

/-- An issue's own attempt that is failed or closed is charged whatever else its key has. -/
theorem chargedOnce (hr : originalRow t k = some r) (hret : r.retryable = true) :
    ChargedOnce t k r.retryCount := by
  intro now t' h
  obtain ⟨-, rfl⟩ := FixAttempts.prepareForRetry_ok h
  rw [retryCount, originalRow_update (f := (·.retry now)) (fun _ => rfl) (fun _ => rfl)
    AttemptRow.retryable, hr, Option.map_some, if_pos hret]
  · rfl
  · intro i r hk _
    simp [FixAttempts.retryableOf, ofIssue, hk]

theorem any_retryableOf (hr : originalRow t k = some r) (hret : r.retryable = true) :
    t.any (FixAttempts.retryableOf k) = true := by
  obtain ⟨i, hi, ho⟩ := get_originalRow hr
  refine Table.any_eq_true.mpr ⟨i, r, hi, ?_⟩
  rw [FixAttempts.retryableOf, (Bool.and_eq_true_iff.mp ho).1, hret]
  rfl

theorem prepareForRetry_error {now : Timestamp} {e : Error} (h : t.prepareForRetry now k = .error e) :
    t.any (FixAttempts.retryableOf k) = false := by
  unfold FixAttempts.prepareForRetry at h
  split at h
  · rename_i h0
    rw [← Bool.not_eq_true, Table.any_eq_true]
    rintro ⟨i, r, hi, hr⟩
    rw [Table.count_eq_zero.mp h0 i r hi] at hr
    cases hr
  · cases h

/-- The retry was spent, and no way out was taken since. -/
def Charged (t : FixAttempts) (k : IssueKey) (n : Nat) (s : Course) : Prop :=
  t.any (FixAttempts.retryableOf k) = true ∧ retryCount s.table k = some (n + 1) ∧ s.exits = []

/-- The retry was spent on a run; the run's own reading of its attempt may have found a rate limit. -/
def Worked (U : CaseProps) (t : FixAttempts) (k : IssueKey) (n : Nat) (s : Course) : Prop :=
  t.any (FixAttempts.retryableOf k) = true ∧ retryCount s.table k = some (n + 1) ∧
    ∀ e ∈ s.exits, e = .rateLimited ∧ (Watcher.rateLimited U (s.table.getAttempt k)).isSome

theorem Charged.worked (h : Charged t k n s) : Worked U t k n s :=
  ⟨h.1, h.2.1, by simp [h.2.2]⟩

/-- What a spending of the retry leaves. -/
def Spent (t : FixAttempts) (k : IssueKey) (n : Nat) (spend : Except Error Unit) (s : Course) : Prop :=
  match spend with
  | .ok () => Charged t k n s
  | .error _ => Fresh t s ∧ t.any (FixAttempts.retryableOf k) = false

theorem ends_prepareRetry (hc : ChargedOnce t k n) (h : Fresh t s) :
    Prog.Ends (serve U W) (.perform (.prepareRetry k)) (Spent t k n) s := by
  obtain ⟨rfl, hx⟩ := h
  unfold Prog.Ends
  rw [Prog.eval_perform]
  simp only [serve]
  cases hp : prepareRetry s.table (W.now s.calls) k with
  | ok t' => exact ⟨(FixAttempts.prepareForRetry_ok hp).1, hc _ t' hp, hx⟩
  | error e => exact ⟨⟨rfl, hx⟩, prepareForRetry_error hp⟩

/-! ## The run -/

/-- How a run that was to spend the retry ended. -/
def RunEnds (U : CaseProps) (t : FixAttempts) (k : IssueKey) (n : Nat) :
    IssueRun × Spend → Course → Prop
  | (.stopping, none), s => Left t .stopping s
  | (.busy, none), s => Left t .busy s
  | (.paused, none), s => Left t .paused s
  | (.skipped, none), s => Fresh t s
  | (.skipped, some (.error _)), s => Fresh t s ∧ t.any (FixAttempts.retryableOf k) = false
  | (.skipped, some (.ok ())), s | (.declined, some (.ok ())), s => Charged t k n s
  | (.processed, some (.ok ())), s => Worked U t k n s
  | (.unanswered, some (.ok ())), s =>
    t.any (FixAttempts.retryableOf k) = true ∧ retryCount s.table k = some (n + 1) ∧
      s.exits = [.unanswered]
  | _, _ => False

/-- How the part of a run after its admission ends. -/
def AdmittedEnds (U : CaseProps) (t : FixAttempts) (k : IssueKey) (n : Nat) (run : IssueRun)
    (s : Course) : Prop :=
  RunEnds U t k n (run, some (.ok ())) s

theorem Charged.hear (h : Charged t k n s) {β : Type} {c : Outer β} {b : β}
    (hb : W.outer s.calls c = b) (he : c.exit b = none) :
    Charged t k n (serve U W (.outer c) s).2 := by
  refine ⟨h.1, h.2.1, ?_⟩
  simp only [serve, Course.hear, hb, he, h.2.2, Option.toList_none, List.append_nil]

theorem Charged.processing (h : Charged t k n s) {β : Type} (p : Processing.Run β) :
    Charged t k n (serve U W (.processing p) s).2 :=
  ⟨h.1, retryCount_processing p _ h.2.1, h.2.2⟩

theorem Worked.hear (h : Worked U t k n s) {β : Type} {c : Outer β} {b : β}
    (hb : W.outer s.calls c = b) (he : c.exit b = none) :
    Worked U t k n (serve U W (.outer c) s).2 := by
  refine ⟨h.1, h.2.1, ?_⟩
  simp only [serve, Course.hear, hb, he, Option.toList_none, List.append_nil]
  exact h.2.2

/-- Reading the attempt back may find it failed on a rate limit. -/
theorem Worked.readBack (h : Worked U t k n s) : Worked U t k n (serve U W (.getAttempt k) s).2 := by
  refine ⟨h.1, h.2.1, fun e he => ?_⟩
  rcases List.mem_append.mp he with he | he
  · exact h.2.2 e he
  · obtain ⟨error, hl, rfl⟩ := Option.map_eq_some_iff.mp (Option.mem_toList.mp he)
    exact ⟨rfl, Option.isSome_iff_exists.mpr ⟨error, hl⟩⟩

section Run

open Watcher

theorem ends_resolveRepo (h : Charged t k n s) (prRepo : Option String) :
    Prog.Ends (serve U W) (w.resolveRepo prRepo) (fun _ => Charged t k n) s := by
  unfold resolveRepo
  split
  · exact h.processing _
  · exact h.hear rfl rfl

/-- A resolution to go on with, or how the run ends. -/
def Resolved (U : CaseProps) (t : FixAttempts) (k : IssueKey) (n : Nat) :
    Except IssueRun RepoResolution → Course → Prop
  | .ok _, s => Charged t k n s
  | .error run, s => AdmittedEnds U t k n run s

theorem retryCount_markDeclined (h : retryCount t k = some n) (k' : IssueKey) (reason : String) :
    retryCount (t.markDeclined k' reason) k = some n :=
  retryCount_update h fun _ => ⟨rfl, rfl, rfl⟩

theorem ends_approve (h : Charged t k n s) (k' : IssueKey) (resolution : RepoResolution) :
    Prog.Ends (serve U W) (w.approve k' resolution) (Resolved U t k n) s := by
  refine Prog.ends_call ?_
  have hasked (hd : Outer.exit .requestApproval (W.outer s.calls .requestApproval) = none) :
      Charged t k n (serve U W (.outer .requestApproval) s).2 := h.hear rfl hd
  have hleft (hd : Outer.exit .requestApproval (W.outer s.calls .requestApproval) = some .unanswered) :
      AdmittedEnds U t k n .unanswered (serve U W (.outer .requestApproval) s).2 := by
    refine ⟨h.1, h.2.1, ?_⟩
    simp only [serve, Course.hear, hd, h.2.2, Option.toList_some, List.nil_append]
  split <;> rename_i hd
  · exact hasked (congrArg (Outer.exit .requestApproval) hd)
  · rename_i repoName
    have h := (hasked (congrArg (Outer.exit .requestApproval) hd)).processing (U := U) (W := W)
      (w.processor.resolveRepoForCascade repoName)
    refine Prog.ends_call ?_
    split
    · exact h
    · exact h
  · have h := hasked (congrArg (Outer.exit .requestApproval) hd)
    exact ⟨h.1, retryCount_markDeclined h.2.1 k' _, h.2.2⟩
  · exact hleft (congrArg (Outer.exit .requestApproval) hd)
  · exact hleft (congrArg (Outer.exit .requestApproval) hd)

theorem ends_settleResolution (h : Charged t k n s) (k' : IssueKey) (isDeployQa : Bool)
    (prRepo : Option String) :
    Prog.Ends (serve U W) (w.settleResolution k' isDeployQa prRepo) (Resolved U t k n) s := by
  refine (ends_resolveRepo h prRepo).bind fun resolution s h => ?_
  split
  · exact h
  · unfold needsApproval
    split
    · exact h
    · refine Prog.ends_call ?_
      have h := h.hear (U := U) (W := W) (c := .shouldRequestApproval) rfl rfl
      split
      · exact ends_approve h k' resolution
      · exact h

theorem ends_concludeIssue (h : Charged t k n s) (o : Processing.Outcome) :
    Prog.Ends (serve U W) (concludeIssue U o) (AdmittedEnds U t k n) s := by
  unfold concludeIssue
  split
  · rename_i error
    have hpaused := h.hear (U := U) (W := W) (c := .pauseUntilRateLimitReset error) rfl rfl
    split <;> split
    · exact hpaused
    · exact h
    · exact hpaused.worked
    · exact h.worked
  · exact h.worked

theorem ends_processAdmitted (h : Charged t k n s) (source : String) (issue : Issue)
    (reviewFeedback existingPrBranch prRepo : Option String) (intent : Option Intent) :
    Prog.Ends (serve U W)
      (w.processAdmitted U source issue reviewFeedback existingPrBranch prRepo intent)
      (AdmittedEnds U t k n) s := by
  have hclaim : Prog.Ends (serve U W) (askDeployQa source (.claimDeployQaTip issue.id))
      (fun _ => Charged t k n) s := by
    unfold askDeployQa
    split
    · exact h.hear rfl rfl
    · exact h
  refine hclaim.bind fun claimed s h => ?_
  split
  · exact h
  · refine Prog.ends_call ?_
    have h : Charged t k n (serve U W (.recordAttemptWithLabels ⟨source, issue.id⟩ issue.shortId
        issue.labels) s).2 := ⟨h.1, retryCount_recordAttempt h.2.1 _ _ _ _, h.2.2⟩
    refine (ends_settleResolution h _ _ _).bind fun r s h => ?_
    cases r with
    | error run => exact h
    | ok resolution => exact Prog.ends_call (ends_concludeIssue (h.processing _) _)

/-- What every run asks before its admission, and the admission. -/
theorem ends_gates (hc : ChargedOnce t k n) (h : Fresh t s) (key : String) (isQa : Bool)
    {p : Spend → Run (IssueRun × Spend)}
    (hp : ∀ s, Charged t k n s → Prog.Ends (serve U W) (p (some (.ok ()))) (RunEnds U t k n) s) :
    Prog.Ends (serve U W)
      (do
        if ← ask .isRateLimitPaused then return (.paused, none)
        else if !(← ask (.claimProcessing key isQa)) then return (.busy, none)
        else if ← ask .isStopped then return (.stopping, none)
        else
          let spend ← admits (some k)
          if refused spend then return (.skipped, spend)
          else p spend)
      (RunEnds U t k n) s := by
  refine Prog.ends_call ?_
  split <;> rename_i hpaused
  · exact h.leave (U := U) hpaused rfl
  have h := h.hear (U := U) (Bool.eq_false_iff.mpr hpaused) rfl
  refine Prog.ends_call ?_
  split <;> rename_i hclaimed
  · exact h.leave (U := U) ((Bool.not_eq_true' _).mp hclaimed) rfl
  have h := h.hear (U := U)
    (Bool.eq_true_of_not_eq_false fun hf => hclaimed ((Bool.not_eq_true' _).mpr hf)) rfl
  refine Prog.ends_call ?_
  split <;> rename_i hstopped
  · exact h.leave (U := U) hstopped rfl
  have h := h.hear (U := U) (Bool.eq_false_iff.mpr hstopped) rfl
  refine Prog.Ends.bind (Q := fun spend s => ∃ x, spend = some x ∧ Spent t k n x s) ?_ ?_
  · exact (ends_prepareRetry hc h).bind fun x _ h => ⟨x, rfl, h⟩
  · rintro _ s ⟨x, rfl, h⟩
    cases x with
    | ok => exact hp s h
    | error e => exact h

theorem ends_processIssue (hc : ChargedOnce t k n) (h : Fresh t s) (source : String) (issue : Issue)
    (reviewFeedback existingPrBranch prRepo : Option String) (intent : Option Intent) :
    Prog.Ends (serve U W)
      (w.processIssue U source issue reviewFeedback existingPrBranch prRepo intent (some k))
      (RunEnds U t k n) s := by
  refine Prog.ends_call ?_
  have h := h.processing (U := U) (W := W) (plain_belongsToSecurityInbox w.processor issue)
  split
  · exact h
  have hrunnable : Prog.Ends (serve U W) (askDeployQa source (.deployQaTipIsRunnable issue.id))
      (fun _ => Fresh t) (serve U W (.processing (w.processor.belongsToSecurityInbox issue)) s).2 := by
    unfold askDeployQa
    split
    · exact h.hear rfl rfl
    · exact h
  refine hrunnable.bind fun runnable s h => ?_
  split
  · exact h
  · refine ends_gates hc h _ _ fun s h => ?_
    exact (ends_processAdmitted h _ _ _ _ _ _).bind fun run s h => h

/-! ### Security fixes -/

theorem ends_securityFixIsPermanent (h : Worked U t k n s) {shortId : String}
    (hk : k = ⟨SECURITY_FIX_SOURCE, shortId⟩) :
    Prog.Ends (serve U W) (w.securityFixIsPermanent shortId) (fun _ => Worked U t k n) s := by
  subst hk
  refine Prog.ends_call ?_
  have h := h.readBack (W := W)
  split
  · exact h
  · split
    · exact h
    · split <;> exact h

theorem ends_recordFixFailure (h : Charged t k n s) {request : SecurityFixRequest}
    (hk : k = ⟨SECURITY_FIX_SOURCE, request.issue.shortId⟩) (error : String) :
    Prog.Ends (serve U W) (w.recordFixFailure U request error) (fun _ => Worked U t k n) s := by
  unfold recordFixFailure
  split
  · refine Prog.ends_call ?_
    exact (h.worked.hear rfl rfl).hear rfl rfl
  · exact (ends_securityFixIsPermanent h.worked hk).bind fun _ _ h => h.hear rfl rfl

theorem ends_reportFix (h : Charged t k n s) {request : SecurityFixRequest}
    (hk : k = ⟨SECURITY_FIX_SOURCE, request.issue.shortId⟩) (o : Processing.Outcome) :
    Prog.Ends (serve U W) (w.reportFix U request o) (fun _ => Worked U t k n) s := by
  cases o with
  | success prUrl => exact h.worked.hear rfl rfl
  | failed error | completedNoPr reason | wrongRepo suggested original => exact ends_recordFixFailure h hk _

theorem ends_runSecurityFixRequest (hc : ChargedOnce t k n) (h : Fresh t s)
    {request : SecurityFixRequest} (hk : k = ⟨SECURITY_FIX_SOURCE, request.issue.shortId⟩) :
    Prog.Ends (serve U W) (w.runSecurityFixRequest U request (some k)) (RunEnds U t k n) s := by
  refine ends_gates hc h _ _ fun s h => ?_
  refine Prog.ends_call ?_
  have h : Charged t k n (serve U W (.recordAttemptWithLabels ⟨SECURITY_FIX_SOURCE,
      request.issue.shortId⟩ request.issue.shortId []) s).2 :=
    ⟨h.1, retryCount_recordAttempt h.2.1 _ _ _ _, h.2.2⟩
  have hres : Prog.Ends (serve U W) (w.securityFixResolution request) (fun _ => Charged t k n)
      (serve U W (.recordAttemptWithLabels ⟨SECURITY_FIX_SOURCE, request.issue.shortId⟩
        request.issue.shortId []) s).2 := by
    unfold securityFixResolution
    split
    · exact h.processing _
    · exact h
  refine hres.bind fun resolution s h => ?_
  refine Prog.ends_call ?_
  exact (ends_reportFix (h.processing _) hk _).bind fun _ _ h => h

end Run

/-! ## The outcome -/

/-- The outcome an exit comes with. -/
def Exit.leadsTo : Exit → RetryOutcome → Bool
  | .stopping, .stopping | .busy, .busy | .rateLimited, .ran => true
  | .paused, .failed _ | .transient, .failed _ | .unanswered, .failed _ | .noInbox, .failed _ => true
  | _, _ => false

/-- How a retry ends. -/
inductive Ended (t : FixAttempts) (k : IssueKey) (n : Nat) (o : RetryOutcome) (s : Course) : Prop
  /-- It was left with the table as it was. -/
  | left (e : Exit) (h : Left t e s) (ho : e.leadsTo o = true)
  /-- Its admission was refused. -/
  | refused (h : Fresh t s) (hn : t.any (FixAttempts.retryableOf k) = false)
      (ho : ∃ error, o = .failed error)
  | ran (hn : t.any (FixAttempts.retryableOf k) = true) (h : retryCount s.table k = some (n + 1))
      (hx : s.exits = []) (ho : o = .ran)
  /-- It was charged without a run. -/
  | failed (hn : t.any (FixAttempts.retryableOf k) = true) (h : retryCount s.table k = some (n + 1))
      (hx : s.exits = []) (ho : ∃ error, o = .failed error)
      (hf : ∀ q, originalRow s.table k = some q → q.status = .failed)
  /-- Its charge was given back. -/
  | refunded (hn : t.any (FixAttempts.retryableOf k) = true) (h : retryCount s.table k = some n)
      (hx : s.exits ≠ []) (ho : ∀ e ∈ s.exits, e.leadsTo o = true)
      (hf : ∀ q, originalRow s.table k = some q → q.status = .failed)

section Outcome

open Watcher

theorem retryCount_markFailed (h : retryCount t k = some n) (k' : IssueKey) (error : String) :
    retryCount (t.markFailed k' error) k = some n :=
  retryCount_update h fun _ => ⟨rfl, rfl, rfl⟩

/-- The charge is given back. -/
theorem retryCount_markFailedUncharged (h : retryCount t k = some (n + 1)) (error : String) :
    retryCount (t.markFailedUncharged k error) k = some n := by
  have hrow : originalRow (t.markFailedUncharged k error) k =
      (originalRow t k).map (·.failUncharged error) :=
    originalRow_ofOriginal (fun _ => rfl) fun _ => rfl
  obtain ⟨r, hr, hn⟩ := Option.map_eq_some_iff.mp h
  rw [retryCount, hrow, hr, Option.map_some, Option.map_some, AttemptRow.failUncharged_retryCount, hn]
  rfl

theorem failed_markFailed (t : FixAttempts) (k : IssueKey) (error : String) {q : AttemptRow}
    (h : originalRow (t.markFailed k error) k = some q) : q.status = .failed := by
  have hrow : originalRow (t.markFailed k error) k = (originalRow t k).map (·.fail error) :=
    originalRow_ofOriginal (fun _ => rfl) fun _ => rfl
  rw [hrow] at h
  obtain ⟨r, -, rfl⟩ := Option.map_eq_some_iff.mp h
  rfl

theorem failed_markFailedUncharged (t : FixAttempts) (k : IssueKey) (error : String) {q : AttemptRow}
    (h : originalRow (t.markFailedUncharged k error) k = some q) : q.status = .failed := by
  have hrow : originalRow (t.markFailedUncharged k error) k =
      (originalRow t k).map (·.failUncharged error) :=
    originalRow_ofOriginal (fun _ => rfl) fun _ => rfl
  rw [hrow] at h
  obtain ⟨r, -, rfl⟩ := Option.map_eq_some_iff.mp h
  rfl

theorem ends_markRetryFailed (h : Charged t a.key n s) (error : String) :
    Prog.Ends (serve U W) (markRetryFailed a error) (Ended t a.key n) s :=
  .failed h.1 (retryCount_markFailed h.2.1 _ _) h.2.2 ⟨_, rfl⟩ fun _ hq => failed_markFailed _ _ _ hq

theorem ends_failRetry (hc : ChargedOnce t a.key n) (h : Fresh t s) (error : String) :
    Prog.Ends (serve U W) (failRetry a error) (Ended t a.key n) s := by
  refine (ends_prepareRetry hc h).bind fun spend s h => ?_
  cases spend with
  | ok => exact ends_markRetryFailed h error
  | error e => exact .refused h.1 h.2 ⟨_, rfl⟩

theorem ends_refundRateLimited (h : Worked U t a.key n s) :
    Prog.Ends (serve U W) (refundRateLimitedRetry U a) (fun _ => Ended t a.key n .ran) s := by
  refine Prog.ends_call ?_
  have h' := h.readBack (W := W)
  have hleads : ∀ e ∈ (serve U W (.getAttempt a.key) s).2.exits, e.leadsTo .ran = true := by
    intro e he
    rw [(h'.2.2 e he).1]
    rfl
  split <;> rename_i hl
  · rename_i error
    have hread : Watcher.rateLimited U (s.table.getAttempt a.key) = some error := hl
    have hx : (serve U W (.getAttempt a.key) s).2.exits ≠ [] := by
      simp [serve, Course.hear, hread]
    exact .refunded h'.1 (retryCount_markFailedUncharged h'.2.1 error) hx hleads fun _ hq =>
      failed_markFailedUncharged _ _ _ hq
  · -- nothing is given back, and no earlier reading had found a rate limit
    have hread : Watcher.rateLimited U (s.table.getAttempt a.key) = none := hl
    refine .ran h'.1 h'.2.1 (List.eq_nil_iff_forall_not_mem.mpr fun e he => ?_) rfl
    have hsome : (Watcher.rateLimited U (s.table.getAttempt a.key)).isSome := (h'.2.2 e he).2
    rw [hread] at hsome
    cases hsome

theorem ends_retryOutcome (hc : ChargedOnce t a.key n) {x : IssueRun × Spend}
    (h : RunEnds U t a.key n x s) :
    Prog.Ends (serve U W) (retryOutcome U a x) (Ended t a.key n) s := by
  obtain ⟨run, spend⟩ := x
  cases spend with
  | none =>
    cases run with
    | stopping => exact .left .stopping h rfl
    | busy => exact .left .busy h rfl
    | paused => exact .left .paused h rfl
    | skipped => exact ends_failRetry hc h _
    | processed | declined | unanswered => exact h.elim
  | some spend =>
    cases spend with
    | error e =>
      cases run with
      | skipped => exact .refused h.1 h.2 ⟨_, rfl⟩
      | processed | declined | unanswered | stopping | busy | paused => exact h.elim
    | ok =>
      cases run with
      | processed => exact (ends_refundRateLimited h).bind fun _ _ h => h
      | declined => exact .ran h.1 h.2.1 h.2.2 rfl
      | skipped => exact ends_markRetryFailed h _
      | unanswered =>
        have hx : s.exits ≠ [] := by simp [h.2.2]
        refine .refunded h.1 (retryCount_markFailedUncharged h.2.1 _) hx ?_ fun _ hq =>
          failed_markFailedUncharged _ _ _ hq
        intro e he
        have he : e ∈ s.exits := he
        rw [h.2.2, List.mem_singleton] at he
        subst he
        rfl
      | stopping | busy | paused => exact h.elim

/-! ## The retry -/

theorem ends_securityFixRequest (h : Fresh t s) (issueId : String) :
    Prog.Ends (serve U W) (securityFixRequest issueId)
      (fun request s => Fresh t s ∧ ∀ q, request = .ok q → q.issue.shortId = issueId) s := by
  unfold securityFixRequest
  split
  · exact ⟨h, fun q hq => by cases hq⟩
  · rename_i id hid
    refine Prog.ends_call ?_
    have h := h.hear (U := U) (W := W) (c := .getSecurityVulnerability id) rfl rfl
    split
    · exact ⟨h, fun q hq => by cases hq⟩
    · exact ⟨h, fun q hq => by cases hq⟩
    · refine ⟨h, fun q hq => ?_⟩
      cases hq
      exact securityFixShortId_of_parse hid

theorem ends_retrySecurityFix (hc : ChargedOnce t a.key n) (h : Fresh t s)
    (ha : a.key.source = SECURITY_FIX_SOURCE) :
    Prog.Ends (serve U W) (w.retrySecurityFix U a) (Ended t a.key n) s := by
  refine Prog.ends_call ?_
  split <;> rename_i henabled
  · exact .left .noInbox (h.leave (U := U) ((Bool.not_eq_true' _).mp henabled) rfl) rfl
  have h := h.hear (U := U)
    (Bool.eq_true_of_not_eq_false fun hf => henabled ((Bool.not_eq_true' _).mpr hf)) rfl
  refine (ends_securityFixRequest h a.key.issueId).bind fun request s h => ?_
  obtain ⟨h, hshort⟩ := h
  cases request with
  | error error => exact ends_failRetry hc h _
  | ok request =>
    have hk : a.key = ⟨SECURITY_FIX_SOURCE, request.issue.shortId⟩ := by
      rw [hshort request rfl, ← ha]
    exact (ends_runSecurityFixRequest hc h hk).bind fun x s h => ends_retryOutcome hc h

theorem ends_retryIssue (hc : ChargedOnce t a.key n) (h : Fresh t s) :
    Prog.Ends (serve U W) (w.retryIssue U a) (Ended t a.key n) s := by
  unfold retryIssue
  split
  · refine Prog.ends_call ?_
    have hload (b : Except LoadError Issue)
        (hb : W.outer s.calls (.getIssue a.key.source a.key.issueId) = b)
        (he : Outer.exit (.getIssue a.key.source a.key.issueId) b = none) :=
      h.hear (U := U) hb he
    split <;> rename_i hb
    · exact (ends_processIssue hc (hload _ hb rfl) _ _ _ _ _ _).bind fun x s h => ends_retryOutcome hc h
    · rename_i error
      split <;> rename_i htransient
      · exact .left .transient (h.leave (U := U) hb (if_pos htransient)) rfl
      · exact ends_failRetry hc (hload _ hb (if_neg htransient)) _
  · exact ends_failRetry hc h _

theorem ends_retryAttempt (hc : ChargedOnce t a.key n) (h : Fresh t s) :
    Prog.Ends (serve U W) (w.retryAttempt U a) (Ended t a.key n) s := by
  refine Prog.ends_call ?_
  split <;> rename_i hstopped
  · exact .left .stopping (h.leave (U := U) hstopped rfl) rfl
  have h := h.hear (U := U) (Bool.eq_false_iff.mpr hstopped) rfl
  split <;> rename_i ha
  · exact ends_retrySecurityFix hc h ha
  · exact ends_retryIssue hc h

end Outcome

/-! ## The account -/

/-- The attempt was charged once, or not at all, and a retry that failed left it to be retried. -/
structure Accounted (k : IssueKey) (r : AttemptRow) (o : RetryOutcome) (s : Course) : Prop where
  count : retryCount s.table k = some (if s.exits = [] then r.retryCount + 1 else r.retryCount)
  exits : ∀ e ∈ s.exits, e.leadsTo o = true
  free : o = .stopping ∨ o = .busy → s.exits ≠ []
  notPending : ∀ error, o = .failed error → ∀ q, originalRow s.table k = some q → q.status ≠ .pending

/-- A retry of an attempt whose issue is failed or closed is charged unless it left by an exit; the
retry of any other issue writes nothing, and is refused unless it left by an exit before. -/
theorem retry_accounted (U : CaseProps) (w : Watcher) (W : World) {a : FixAttempt} {t : FixAttempts}
    {r : AttemptRow} (hr : originalRow t a.key = some r) :
    let x := w.retryFrom U W a t
    (r.retryable = true → Accounted a.key r x.1 x.2) ∧
      (t.any (FixAttempts.retryableOf a.key) = false → x.2.table = t ∧
        ((x.2.exits = [] ∧ ∃ error, x.1 = .failed error) ∨
          ∃ e, x.2.exits = [e] ∧ e.leadsTo x.1 = true)) := by
  intro x
  constructor
  · intro hret
    have hany := any_retryableOf hr hret
    have hopen : ∀ q, originalRow t a.key = some q → q.status ≠ .pending := by
      intro q hq hp
      obtain rfl := Option.some.inj (hr.symm.trans hq)
      simp [AttemptRow.retryable, hp] at hret
    have h : Ended t a.key r.retryCount x.1 x.2 :=
      ends_retryAttempt (chargedOnce hr hret) (s := { table := t }) ⟨rfl, rfl⟩
    cases h with
    | left e h ho =>
      refine ⟨?_, fun e' he => ?_, fun _ => by simp [h.2], fun _ _ q hq => hopen q (h.1 ▸ hq)⟩
      · simp [h.1, h.2, retryCount, hr]
      · rw [h.2, List.mem_singleton] at he
        exact he ▸ ho
    | refused h hn ho =>
      rw [hany] at hn
      cases hn
    | ran hn h hx ho =>
      refine ⟨by rw [h, if_pos hx], by simp [hx], ?_, ?_⟩
      · rintro (hs | hb)
        · rw [ho] at hs
          cases hs
        · rw [ho] at hb
          cases hb
      · intro error he
        rw [ho] at he
        cases he
    | failed hn h hx ho hf =>
      obtain ⟨error, ho⟩ := ho
      refine ⟨by rw [h, if_pos hx], by simp [hx], ?_, fun _ _ q hq => by simp [hf q hq]⟩
      rintro (hs | hb)
      · rw [ho] at hs
        cases hs
      · rw [ho] at hb
        cases hb
    | refunded hn h hx ho hf =>
      exact ⟨by rw [h, if_neg hx], ho, fun _ => hx, fun _ _ q hq => by simp [hf q hq]⟩
  · intro hn
    have hc : ChargedOnce t a.key 0 := by
      intro now t' h
      rw [(FixAttempts.prepareForRetry_ok h).1] at hn
      cases hn
    have h : Ended t a.key 0 x.1 x.2 := ends_retryAttempt hc (s := { table := t }) ⟨rfl, rfl⟩
    cases h with
    | left e h ho => exact ⟨h.1, .inr ⟨e, h.2, ho⟩⟩
    | refused h hn ho => exact ⟨h.1, .inl ⟨h.2, ho⟩⟩
    | ran h' h hx ho | failed h' h hx ho hf | refunded h' h hx ho hf =>
      rw [hn] at h'
      cases h'

/-! ## Retries of one issue -/

def plainWatcher : Watcher where
  processor := Processing.plainProcessor
  sources := ["linear"]
  retry := { maxRetries := 3, baseDelayMs := 1000, maxDelayMs := 60000 }

/-- A world whose source has the issue, and whose agent opens a pull request. -/
def workingWorld : World where
  now _ := 0
  outer _ := fun
    | .isStopped => false
    | .securityInboxEnabled => false
    | .getIssue .. => .ok Processing.oneInput.issue
    | .getSecurityVulnerability _ => .ok none
    | .isRateLimitPaused => false
    | .claimProcessing .. => true
    | .deployQaTipIsRunnable _ => false
    | .claimDeployQaTip _ => false
    | .resolveRepoForIssue => Processing.oneInput.resolution
    | .shouldRequestApproval => false
    | .requestApproval => .approved
    | .pauseUntilRateLimitReset _ => ()
    | .linkFix .. => ()
    | .recordFixFailure .. => ()
  processing _ := Processing.calmWorld Processing.opensPr

/-- The attempt of an issue that failed once. -/
def oneFailed : FixAttempts :=
  tracked [⟨0, .recordAttemptWithLabels ⟨"linear", "1"⟩ "ENG-1" []⟩,
    ⟨1, .markFailed ⟨"linear", "1"⟩ "agent failed"⟩]

def oneRow : AttemptRow := .original ⟨"linear", "1"⟩ "ENG-1" 0 none

def oneFailedRow : AttemptRow := oneRow.fail "agent failed"

def uncased : CaseProps := ⟨fun _ => false, fun _ => false⟩

theorem retry_accounted_run :
    let x := plainWatcher.retryFrom uncased workingWorld (rowToFixAttempt (1, oneFailedRow)) oneFailed
    x.1 = .ran ∧ Accounted ⟨"linear", "1"⟩ oneFailedRow x.1 x.2 := by
  refine ⟨by decide +kernel, ?_⟩
  exact (retry_accounted uncased plainWatcher workingWorld (a := rowToFixAttempt (1, oneFailedRow))
    (t := oneFailed) (r := oneFailedRow) rfl).1 rfl

/-- A pending attempt is refused: the retry has failed, costs nothing, and leaves it pending. -/
theorem refused_uncharged :
    let x := plainWatcher.retryFrom uncased workingWorld (rowToFixAttempt (1, oneRow)) Processing.onePending
    (∃ error, x.1 = .failed error) ∧ ¬ Accounted ⟨"linear", "1"⟩ oneRow x.1 x.2 := by
  refine ⟨⟨"Storage error: Attempt linear/1 not in retryable state (failed/closed)", by decide +kernel⟩, fun h => ?_⟩
  have hexits : (plainWatcher.retryFrom uncased workingWorld (rowToFixAttempt (1, oneRow))
      Processing.onePending).2.exits = [] := by decide +kernel
  have hcount : retryCount (plainWatcher.retryFrom uncased workingWorld (rowToFixAttempt (1, oneRow))
      Processing.onePending).2.table ⟨"linear", "1"⟩ = some 0 := by decide +kernel
  have h := h.count
  rw [hexits, hcount] at h
  cases h

end Claudear.Engine.Retrying
