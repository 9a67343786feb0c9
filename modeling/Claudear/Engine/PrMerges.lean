import Claudear.Engine.Cascade
import Claudear.Text.Lowercase
import Mathlib.Data.List.Destutter

/-!
# Merged pull requests and releases

`check_pr_merges_and_cascade` asks the code host about every pending pull
request and settles the attempts whose pull request was merged or closed;
`check_releases_and_cascade` takes new releases up. Both start cascades.
-/

namespace Claudear.Engine.PullRequests

open Claudear.Storage Claudear.Machine Claudear.Text

def BUG_LABELS : List String :=
  ["bug", "defect", "error", "fix", "hotfix", "regression", "issue", "problem", "incident", "crash",
   "broken"]

/-- `FixAttempt::is_bug` -/
def isBug (U : CaseProps) (attempt : FixAttempt) : Bool :=
  attempt.key.source = "sentry" ||
    attempt.issueLabels.any fun label =>
      BUG_LABELS.any fun bugLabel => decide (bugLabel.toList <:+: (toLowercase U label).toList)

namespace Watcher

variable (U : CaseProps) (w : Watcher)

/-- Settles the row of the attempt: a cascade row by its id, an original by its issue. -/
def settleRow (attempt : FixAttempt) (merged : Bool) : Req (Except Error Unit) :=
  if attempt.cascadeRepo.isSome then .markCascadePrOutcome attempt.id merged
  else if merged then .markMerged attempt.key
  else .markClosed attempt.key

/-- The regression watch for a merged bug fix; `true` when there is one now. -/
def watchForRegression (attempt : FixAttempt) : Run Bool :=
  if attempt.cascadeRepo.isNone ∧ attempt.key.source ≠ SECURITY_FIX_SOURCE ∧ isBug U attempt then do
    match ← Prog.perform (.createRegressionWatch attempt.key.issueId attempt.id) with
    | .ok () => pure true
    | .error _ => pure false
  else pure false

def forPr (attempt : FixAttempt) (f : String → ExceptT Error Run Unit) : ExceptT Error Run Unit :=
  match attempt.prUrl with
  | some prUrl => f prUrl
  | none => pure ()

/-- Resolves the issue of a merged fix at its source. -/
def autoResolve (attempt : FixAttempt) (watched : Bool) : ExceptT Error Run Unit :=
  whenever (attempt.cascadeRepo.isNone ∧ attempt.key.source ≠ SECURITY_FIX_SOURCE ∧ ¬ watched ∧
      w.autoResolveOnMerge ∧ attempt.key.source ∈ w.sources) do
    match ← ask (.resolveIssue attempt.key) with
    | .ok () =>
      try_ (.markResolved attempt.key)
      forPr attempt fun _ => ask (.effort (.notify attempt.key))
    | .error () => pure ()

/-- What follows a merge that is stored, up to the cascade. -/
def afterMerge (attempt : FixAttempt) : ExceptT Error Run Unit := do
  ask (.effort (.recordActivity "pr_merged"))
  ask (.effort (.updateQaOutcomeStats attempt.id true))
  forPr attempt fun prUrl => ask (.effort (.upsertPrMerged prUrl))
  w.autoResolve attempt (← ExceptT.lift (watchForRegression U attempt))
  whenever (attempt.cascadeRepo.isNone ∧ attempt.key.source ≠ SECURITY_FIX_SOURCE)
    (ask (.effort (.fixShippedReply attempt.key)))
  ask (.effort (.recordFeedbackOutcome attempt.id))
  whenever (attempt.key.source ≠ SECURITY_FIX_SOURCE) (ask (.effort (.postMergeLearning attempt.id)))
  forPr attempt fun prUrl => ask (.effort (.unwatchPr prUrl))

def prMerged (attempt : FixAttempt) : ExceptT Error Run Unit := do
  try_ (settleRow attempt true)
  w.afterMerge U attempt
  whenever (w.cascade.enabled ∧ attempt.key.source ≠ SECURITY_FIX_SOURCE)
    (ExceptT.lift (w.triggerCascade attempt .merge))

def prClosed (attempt : FixAttempt) : ExceptT Error Run Unit := do
  try_ (settleRow attempt false)
  ask (.effort (.recordActivity "pr_closed"))
  ask (.effort (.updateQaOutcomeStats attempt.id false))
  ask (.effort (.recordFeedbackOutcome attempt.id))
  forPr attempt fun prUrl => ask (.effort (.unwatchPr prUrl))
  forPr attempt fun _ => ask (.effort (.notify attempt.key))

/-- Acts on an outcome unless the watcher has stopped meanwhile. -/
def whileRunning (p : ExceptT Error Run Unit) : ExceptT Error Run Bool := do
  if ← ask .isRunning then
    p
    return true
  else return false

/-- What the code host says about the pull request. -/
def onStatus (attempt : FixAttempt) : Except Unit PrStatus → ExceptT Error Run Bool
  | .ok .merged => whileRunning (w.prMerged U attempt)
  | .ok .closed => whileRunning (prClosed attempt)
  | .ok .opened => pure true
  | .error () => pure true

/-- One pending pull request; `false` when the watcher stops. -/
def checkPr (attempt : FixAttempt) : ExceptT Error Run Bool := do
  if ← ask .isRunning then
    match attempt.scmRepo, attempt.scmPrNumber with
    | some scmRepo, some prNumber => w.onStatus U attempt (← ask (.getPrStatus scmRepo prNumber))
    | _, _ => return true
  else return false

def CYCLE_METRICS : List String :=
  ["pr_status_checks", "pr_status_merged", "pr_status_closed", "pr_status_errors",
   "regression_watches_created", "auto_resolved_on_merge", "cascade_triggered", "cascade_failed"]

def checkPrs (pendingPrs : List FixAttempt) : ExceptT Error Run Unit := do
  forWhile (w.checkPr U) pendingPrs
  CYCLE_METRICS.forM fun name => ask (.effort (.recordMetric name))

def checkPrMergesAndCascade : ExceptT Error Run Unit :=
  if w.hasScm then do w.checkPrs U (← try_ .getPendingPrs)
  else w.checkPrs U []

/-! ## Releases -/

def releaseTriggerUpstreams : List String :=
  ((((w.cascade.rules.filter fun r => r.trigger = .release).map CascadeRule.upstream).mergeSort
    fun a b => decide (a ≤ b))).destutter (· ≠ ·)

/-- The one merged last; of two merged at the same time the second. -/
def laterMerge : Option FixAttempt → FixAttempt → Option FixAttempt
  | none, a => some a
  | some b, a =>
    match b.mergedAt, a.mergedAt with
    | none, _ => some a
    | some _, none => some b
    | some x, some y => if x ≤ y then some a else some b

/-- `max_by_key(|attempt| attempt.merged_at)` -/
def lastMerged (attempts : List FixAttempt) : Option FixAttempt := attempts.foldl laterMerge none

theorem laterMerge_cases (best : Option FixAttempt) (a : FixAttempt) :
    laterMerge best a = best ∨ laterMerge best a = some a := by
  cases best with
  | none => exact .inr rfl
  | some b =>
    simp only [laterMerge]
    split
    · exact .inr rfl
    · exact .inl rfl
    · split
      · exact .inr rfl
      · exact .inl rfl

theorem lastMerged_mem {attempts : List FixAttempt} {a : FixAttempt} (h : lastMerged attempts = some a) :
    a ∈ attempts := by
  have hf : ∀ l best, List.foldl laterMerge best l = some a → best = some a ∨ a ∈ l := by
    intro l
    induction l with
    | nil => exact fun _ h => .inl h
    | cons b l ih =>
      intro best h
      rcases ih _ h with h | h
      · rcases laterMerge_cases best b with hb | hb
        · exact .inl (hb.symm.trans h)
        · cases hb.symm.trans h
          exact .inr List.mem_cons_self
      · exact .inr (List.mem_cons_of_mem _ h)
  exact (hf attempts none h).resolve_left fun h => by cases h

/-- Security fixes start no cascade. -/
def releaseCascadeAttempt (repository : String) : Run (Option FixAttempt) := do
  match ← Prog.perform (.getMostRecentMergedAttemptForRepo repository) with
  | .ok (some latest) =>
    if latest.key.source ≠ SECURITY_FIX_SOURCE then return some latest
    else
      match ← Prog.perform (.getAttemptsByStatus .merged) with
      | .ok attempts => return lastMerged (attempts.filter fun a =>
          a.key.source ≠ SECURITY_FIX_SOURCE ∧ a.scmRepo = some repository)
      | .error _ => return none
  | _ => return none

/-- A release that was not seen before. -/
def newRelease (upstream tag : String) : Run Bool := do
  if ← Prog.perform .isRunning then
    effort (.releaseSeen upstream tag)
    match ← releaseCascadeAttempt upstream with
    | some attempt =>
      w.triggerCascade attempt .release
      return true
    | none => return true
  else return false

def checkRelease (upstream : String) : Run Bool := do
  if ← Prog.perform .isRunning then
    match ← Prog.perform (.getLatestRelease upstream) with
    | .ok (some tag) =>
      if (← Prog.perform (.lastSeenRelease upstream)) = some tag then return true
      else w.newRelease upstream tag
    | _ => return true
  else return false

def checkReleasesAndCascade : Run Unit :=
  if w.cascade.enabled ∧ w.hasScm then forWhile w.checkRelease w.releaseTriggerUpstreams
  else pure ()

end Watcher

end Claudear.Engine.PullRequests
