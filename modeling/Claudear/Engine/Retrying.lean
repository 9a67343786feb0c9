import Claudear.Engine.Settling

/-!
# Retrying an attempt

`Watcher::retry` loads the issue of an attempt again and hands it to
`process_issue`, or rebuilds a security fix. The retry is spent by the admission
of the run, once the issue is claimed and the watcher found not stopping; what
the run came to decides whether the retry is given back, or the attempt marked
failed.

The issue's processing is the program of `IssueProcessor`. The rest of the
watcher's surroundings answers as it likes: its sources, the security inbox, its
pauses and claims, and the humans asked for approval.
-/

namespace Claudear.Engine.Retrying

open Claudear.Storage Claudear.Machine Claudear.Text
open Claudear.Engine.Processing
  (Issue Intent Repo RepoResolution Input Outcome IssueProcessor SECURITY_FIX_SOURCE DEPLOY_QA_SOURCE)
open Claudear.Analysis (contains splitWhitespace)

/-! ## Rate limit errors -/

def RATE_LIMIT_PATTERNS : List String :=
  ["rate limit", "ratelimit", "usage limit reached", "5-hour limit reached", "weekly limit reached",
   "too many requests", "quota exceeded", "resource exhausted", "retry-after", "try again later"]

/-- "You've hit your limit", "You've hit your weekly limit": one of the next four words of the clause. -/
def containsHitYourLimit (lower : String) : Bool :=
  lower.toList.tails.any fun s =>
    match "hit your ".toList.isPrefixOf? s with
    | none => false
    | some rest =>
      let clause := rest.takeWhile fun c => c ∉ ['.', ',', '|', '·', '∙', '\n']
      ((splitWhitespace (String.ofList clause)).take 4).any fun word =>
        "limit".toList.isPrefixOf word.toList

/-- The characters before a number, last first, that make it a JSON value. -/
def isJsonValue : List Char → Bool
  | ':' :: before | ' ' :: ':' :: before => before.head? = some '"'
  | _ => false

/-- A status code 429 that is no part of a longer token; `before` is reversed. -/
def containsStandalone429 (before : List Char) : List Char → Bool
  | [] => false
  | c :: s =>
    (match "429".toList.isPrefixOf? (c :: s) with
      | some after =>
        !before.head?.any Char.isAlphanum && !after.head?.any Char.isAlphanum && !isJsonValue before
      | none => false) ||
      containsStandalone429 (c :: before) s

def isRateLimitErrorLower (lower : String) : Bool :=
  RATE_LIMIT_PATTERNS.any (contains lower) || containsHitYourLimit lower ||
    containsStandalone429 [] lower.toList

/-- A `rate_limit_event` that allows the call is none. -/
def isRateLimitError (U : CaseProps) (message : String) : Bool :=
  if contains message "rate_limit_event" &&
      (contains message "\"status\":\"allowed\"" || contains message "\"status\":\"allowed_warning\"") then
    false
  else isRateLimitErrorLower (toLowercase U message)

/-! ## Outcomes -/

/-- The errors of `claudear_core::error::Error` a retry tells apart; of the others their text. -/
inductive LoadError where
  | http (message : String)
  | network (message : String)
  | source (sourceName message : String)
  | other (text : String)
  deriving DecidableEq, Repr

def LoadError.display : LoadError → String
  | .http message => "HTTP request error: " ++ message
  | .network message => "Network error: " ++ message
  | .source sourceName message => "Source error (" ++ sourceName ++ "): " ++ message
  | .other text => text

/-- `retry_trigger_error_is_transient` -/
def LoadError.isTransient : LoadError → Bool
  | .http _ | .network _ => true
  | .source _ message => contains message "already being processed"
  | .other _ => false

inductive IssueRun where
  | processed | declined | unanswered | skipped | busy | stopping | paused
  deriving DecidableEq, Repr

inductive RetryOutcome where
  | ran | stopping | busy
  | failed (error : String)
  deriving DecidableEq, Repr

inductive ApprovalDecision where
  | approved | denied
  | redirect (repoName : String)
  | unrecognized | unanswered
  deriving DecidableEq, Repr

def RETRY_TRIGGER_FAILED : String := "Retry trigger failed"

def APPROVAL_DECLINED_REASON : String := "Approval declined"

/-! ## Security fixes -/

def NEUTRAL_ISSUE_TITLE : String := "Hardening"

def securityFixShortId (vulnerabilityId : Int) : String := "SEC-" ++ toString vulnerabilityId

/-- Only the canonical `SEC-<id>`. -/
def parseSecurityFixShortId (value : String) : Option Int := do
  let digits ← "SEC-".toList.isPrefixOf? value.toList
  if digits.isEmpty || !digits.all Char.isDigit then none
  else
    let id ← parseI64 digits
    if 0 < id ∧ securityFixShortId id = value then some id else none

theorem securityFixShortId_of_parse {value : String} {id : Int}
    (h : parseSecurityFixShortId value = some id) : securityFixShortId id = value := by
  simp only [parseSecurityFixShortId, Option.bind_eq_bind, Option.bind_eq_some_iff] at h
  obtain ⟨digits, -, h⟩ := h
  split at h
  · cases h
  · obtain ⟨n, -, h⟩ := Option.bind_eq_some_iff.mp h
    split at h
    · rename_i hn
      cases h
      exact hn.2
    · cases h

structure SecurityFixRequest where
  vulnerabilityId : Int
  repository : Option String
  issue : Issue

/-! ## The world -/

inductive Outer : Type → Type where
  | isStopped : Outer Bool
  | securityInboxEnabled : Outer Bool
  | getIssue (source issueId : String) : Outer (Except LoadError Issue)
  /-- The repository of the vulnerability, when there is such a vulnerability. -/
  | getSecurityVulnerability (id : Int) : Outer (Except LoadError (Option (Option String)))
  | isRateLimitPaused : Outer Bool
  | claimProcessing (key : String) (isQa : Bool) : Outer Bool
  | deployQaTipIsRunnable (issueId : String) : Outer Bool
  | claimDeployQaTip (issueId : String) : Outer Bool
  | resolveRepoForIssue : Outer RepoResolution
  | shouldRequestApproval : Outer Bool
  | requestApproval : Outer ApprovalDecision
  | pauseUntilRateLimitReset (error : String) : Outer Unit
  | linkFix (vulnerabilityId : Int) (prUrl : String) : Outer Unit
  | recordFixFailure (vulnerabilityId : Int) (error : String) (permanent : Bool) : Outer Unit

inductive Req : Type → Type 1 where
  | prepareRetry (k : IssueKey) : Req (Except Error Unit)
  | recordAttemptWithLabels (k : IssueKey) (shortId : String) (labels : List String) : Req Unit
  | markDeclined (k : IssueKey) (reason : String) : Req Unit
  | markFailed (k : IssueKey) (error : String) : Req Unit
  | markFailedUncharged (k : IssueKey) (error : String) : Req Unit
  | getAttempt (k : IssueKey) : Req (Option FixAttempt)
  /-- A program of the issue processor. -/
  | processing {β : Type} (p : Processing.Run β) : Req β
  | outer {β : Type} (c : Outer β) : Req β

abbrev Run := Prog Req

def ask {β : Type} (c : Outer β) : Run β := .perform (.outer c)

structure Watcher where
  processor : IssueProcessor
  sources : List String
  retry : RetryConfig

def errorText : Error → String
  | .database message => "Database error: " ++ message
  | .storage message => "Storage error: " ++ message
  | .other message => message

/-- What the admission of a run came to, when it was asked for: the retry is spent, or cannot be. -/
abbrev Spend := Option (Except Error Unit)

/-- The admission of a run: `none` admits it. -/
abbrev Admission := Option IssueKey

def admits : Admission → Run Spend
  | none => return none
  | some k => do return some (← .perform (.prepareRetry k))

def refused : Spend → Bool
  | some (.error _) => true
  | _ => false

namespace Watcher

variable (U : CaseProps) (w : Watcher)

/-- A rerun works in the repository its pull request is in. -/
def resolveRepo (prRepo : Option String) : Run RepoResolution :=
  match prRepo with
  | some repo => .perform (.processing (w.processor.resolveRepoForCascade repo))
  | none => ask .resolveRepoForIssue

/-- A human's word on the resolution: the one to go on with, or how the run ends. -/
def approve (k : IssueKey) (resolution : RepoResolution) : Run (Except IssueRun RepoResolution) := do
  match ← ask .requestApproval with
  | .approved => return .ok resolution
  | .redirect repoName =>
    match ← .perform (.processing (w.processor.resolveRepoForCascade repoName)) with
    | .resolved repo => return .ok (.resolved repo)
    | .skip _ => return .error .skipped
  | .denied =>
    .perform (.markDeclined k APPROVAL_DECLINED_REASON)
    return .error .declined
  | .unrecognized | .unanswered => return .error .unanswered

def needsApproval (isDeployQa : Bool) : Run Bool :=
  if isDeployQa then return false else ask .shouldRequestApproval

/-- Only a deploy-QA issue has a tip to ask about. -/
def askDeployQa (source : String) (c : Outer Bool) : Run Bool :=
  if source = DEPLOY_QA_SOURCE then ask c else return true

/-- The resolution of a run that needs no approval, or gets it. -/
def settleResolution (k : IssueKey) (isDeployQa : Bool) (prRepo : Option String) :
    Run (Except IssueRun RepoResolution) := do
  let resolution ← w.resolveRepo prRepo
  match prRepo, resolution with
  | some _, .skip _ => return .error .skipped
  | _, _ =>
    if ← needsApproval isDeployQa then w.approve k resolution
    else return .ok resolution

/-- Pauses on a rate limit, and tells a semantic duplicate from a run. -/
def concludeIssue : Outcome → Run IssueRun
  | .failed error => do
    if isRateLimitError U error then ask (.pauseUntilRateLimitReset error)
    return if contains error "Semantic duplicate of" then .skipped else .processed
  | _ => return .processed

/-- The part of `process_issue` after its admission. -/
def processAdmitted (source : String) (issue : Issue) (reviewFeedback existingPrBranch : Option String)
    (prRepo : Option String) (intent : Option Intent) : Run IssueRun := do
  let k : IssueKey := ⟨source, issue.id⟩
  if !(← askDeployQa source (.claimDeployQaTip issue.id)) then return .skipped
  else
    .perform (.recordAttemptWithLabels k issue.shortId issue.labels)
    match ← w.settleResolution k (source = DEPLOY_QA_SOURCE) (reviewFeedback.bind fun _ => prRepo) with
    | .error run => return run
    | .ok resolution =>
      concludeIssue U (← .perform (.processing (w.processor.run
        { issue, sourceName := source, resolution, reviewFeedback, existingPrBranch, intent })))

def processIssue (source : String) (issue : Issue) (reviewFeedback existingPrBranch : Option String)
    (prRepo : Option String) (intent : Option Intent) (admission : Admission) :
    Run (IssueRun × Spend) := do
  if ← .perform (.processing (w.processor.belongsToSecurityInbox issue)) then return (.skipped, none)
  else
    let intent := if source = DEPLOY_QA_SOURCE then some .question else intent
    if !(← askDeployQa source (.deployQaTipIsRunnable issue.id)) then return (.skipped, none)
    else if ← ask .isRateLimitPaused then return (.paused, none)
    else if !(← ask (.claimProcessing (source ++ ":" ++ issue.id) (intent = some .question))) then
      return (.busy, none)
    else if ← ask .isStopped then return (.stopping, none)
    else
      let spend ← admits admission
      if refused spend then return (.skipped, spend)
      else
        return (← w.processAdmitted U source issue reviewFeedback existingPrBranch prRepo intent, spend)

/-! ### Security fixes -/

def securityFixRequest (issueId : String) : Run (Except LoadError SecurityFixRequest) :=
  match parseSecurityFixShortId issueId with
  | none => return .error (.source SECURITY_FIX_SOURCE (issueId ++ " is not a security fix"))
  | some id => do
    match ← ask (.getSecurityVulnerability id) with
    | .error e => return .error e
    | .ok none =>
      return .error (.source SECURITY_FIX_SOURCE ("vulnerability " ++ toString id ++ " does not exist"))
    | .ok (some repository) =>
      let shortId := securityFixShortId id
      return .ok
        { vulnerabilityId := id, repository
          issue :=
            { id := shortId, shortId, title := NEUTRAL_ISSUE_TITLE, source := SECURITY_FIX_SOURCE } }

/-- The fix that is loaded for an attempt is the attempt's own. -/
theorem allowed_securityFixRequest {σ J G : Type} {M : Monitor Req σ J G} {ok : {β : Type} → G → Req β → Prop}
    {g : G} {issueId : String} (hload : ∀ id, ok g (.outer (.getSecurityVulnerability id))) :
    Allowed M ok (securityFixRequest issueId)
      (fun r _ => ∀ request ∈ r.toOption, request.issue.shortId = issueId) g := by
  unfold securityFixRequest
  split
  · exact fun _ h => by cases h
  · rename_i id hid
    refine allowed_call (hload id) fun loaded s => ?_
    split
    · exact fun _ h => by cases h
    · exact fun _ h => by cases h
    · intro request h
      cases h
      exact securityFixShortId_of_parse hid

/-- Given up, or out of retries. -/
def securityFixIsPermanent (shortId : String) : Run Bool := do
  match ← .perform (.getAttempt ⟨SECURITY_FIX_SOURCE, shortId⟩) with
  | none => return false
  | some attempt =>
    if attempt.status = .cannotFix then return true
    else if attempt.status = .failed ∨ attempt.status = .closed then
      return !w.retry.shouldRetry attempt
    else return false

def recordFixFailure (request : SecurityFixRequest) (error : String) : Run Unit := do
  if isRateLimitError U error then
    ask (.pauseUntilRateLimitReset error)
    ask (.recordFixFailure request.vulnerabilityId error false)
  else
    ask (.recordFixFailure request.vulnerabilityId error
      (← w.securityFixIsPermanent request.issue.shortId))

/-- Reports to the inbox how a fix ended. -/
def reportFix (request : SecurityFixRequest) : Outcome → Run Unit
  | .success prUrl => ask (.linkFix request.vulnerabilityId prUrl)
  | .failed error => w.recordFixFailure U request error
  | .completedNoPr reason => w.recordFixFailure U request reason
  | .wrongRepo _ original =>
    w.recordFixFailure U request ("Wrong repo detected (was: " ++ original ++ ")")

def securityFixResolution (request : SecurityFixRequest) : Run RepoResolution :=
  match request.repository with
  | some repository => .perform (.processing (w.processor.resolveRepoForCascade repository))
  | none => return .skip "the vulnerability has no repository"

/-- A rerun of a security fix, without review feedback. -/
def runSecurityFixRequest (request : SecurityFixRequest) (admission : Admission) :
    Run (IssueRun × Spend) := do
  if ← ask .isRateLimitPaused then return (.paused, none)
  else if !(← ask (.claimProcessing (SECURITY_FIX_SOURCE ++ ":" ++ request.issue.shortId) false)) then
    return (.busy, none)
  else if ← ask .isStopped then return (.stopping, none)
  else
    let spend ← admits admission
    if refused spend then return (.skipped, spend)
    else
      let shortId := request.issue.shortId
      .perform (.recordAttemptWithLabels ⟨SECURITY_FIX_SOURCE, shortId⟩ shortId [])
      let resolution ← w.securityFixResolution request
      let outcome ← .perform (.processing (w.processor.runSecurityFix
        { issue := request.issue, sourceName := SECURITY_FIX_SOURCE, resolution, intent := some .security }))
      w.reportFix U request outcome
      return (.processed, spend)

/-! ### Retries -/

/-- The retry was spent without a run. -/
def markRetryFailed (attempt : FixAttempt) (error : String) : Run RetryOutcome := do
  .perform (.markFailed attempt.key (RETRY_TRIGGER_FAILED ++ ": " ++ error))
  return .failed error

def failRetry (attempt : FixAttempt) (error : String) : Run RetryOutcome := do
  match ← .perform (.prepareRetry attempt.key) with
  | .error _ => return .failed error
  | .ok () => markRetryFailed attempt error

def refundRetry (attempt : FixAttempt) (error : String) : Run RetryOutcome := do
  .perform (.markFailedUncharged attempt.key (RETRY_TRIGGER_FAILED ++ ": " ++ error))
  return .failed error

/-- The error a run ended with, if that is a rate limit. -/
def rateLimited (after : Option FixAttempt) : Option String :=
  after.bind fun a =>
    if a.status = .failed then a.errorMessage.filter (isRateLimitError U) else none

def refundRateLimitedRetry (attempt : FixAttempt) : Run Unit := do
  match rateLimited U (← .perform (.getAttempt attempt.key)) with
  | some error => .perform (.markFailedUncharged attempt.key error)
  | none => return ()

def retryOutcome (attempt : FixAttempt) : IssueRun × Spend → Run RetryOutcome
  | (.processed, some (.ok ())) => do
    refundRateLimitedRetry U attempt
    return .ran
  | (.processed, _) | (.declined, _) => return .ran
  | (.unanswered, some (.ok ())) =>
    refundRetry attempt (attempt.shortId ++ " got no usable answer to its approval request")
  | (.unanswered, _) =>
    return .failed (attempt.shortId ++ " got no usable answer to its approval request")
  | (.stopping, _) => return .stopping
  | (.busy, _) => return .busy
  | (.paused, _) => return .failed (attempt.shortId ++ " was not run while paused for a rate limit")
  | (.skipped, some (.error error)) => return .failed (errorText error)
  | (.skipped, some (.ok ())) => markRetryFailed attempt (attempt.shortId ++ " was skipped")
  | (.skipped, none) => failRetry attempt (attempt.shortId ++ " was skipped")

def retrySecurityFix (attempt : FixAttempt) : Run RetryOutcome := do
  if !(← ask .securityInboxEnabled) then
    return .failed (LoadError.source SECURITY_FIX_SOURCE "the security inbox is not enabled").display
  else
    match ← securityFixRequest attempt.key.issueId with
    | .error error => failRetry attempt error.display
    | .ok request => retryOutcome U attempt (← w.runSecurityFixRequest U request (some attempt.key))

/-- Loads the issue from its source, and runs it. -/
def retryIssue (attempt : FixAttempt) : Run RetryOutcome :=
  if attempt.key.source ∈ w.sources then do
    match ← ask (.getIssue attempt.key.source attempt.key.issueId) with
    | .ok issue =>
      retryOutcome U attempt
        (← w.processIssue U attempt.key.source issue none none none none (some attempt.key))
    | .error error =>
      if error.isTransient then return .failed error.display
      else failRetry attempt error.display
  else failRetry attempt (LoadError.source attempt.key.source "Unknown source").display

def retryAttempt (attempt : FixAttempt) : Run RetryOutcome := do
  if ← ask .isStopped then return .stopping
  else if attempt.key.source = SECURITY_FIX_SOURCE then w.retrySecurityFix U attempt
  else w.retryIssue U attempt

end Watcher

end Claudear.Engine.Retrying
