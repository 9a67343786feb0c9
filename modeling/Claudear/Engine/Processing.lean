import Claudear.Analysis.Issue
import Claudear.Engine.Cascade

/-!
# Processing an issue

`IssueProcessor` takes an issue from its recorded attempt to an outcome: it
answers, triages or fixes, and writes what became of the attempt on the way.

The agent, git, the evaluator, the notifier, the code host and the source answer
as the `Outer` world decides, and every call of theirs that can fail may. The
tracker's writers do what they say. A failure is kept as the text it is
displayed with. Prompts and notification texts are left to the world, and so is
what no decision depends on: statistics, indexing, clean-up.
-/

namespace Claudear.Engine.Processing

open Claudear.Storage Claudear.Machine

def SECURITY_FIX_SOURCE : String := PullRequests.SECURITY_FIX_SOURCE

def DEPLOY_QA_SOURCE : String := "deploy_qa"

def HELPSCOUT_SOURCE : String := "helpscout"

def SECURITY_REFUSAL : String := "security reports are handled by the security inbox"

def SECURITY_FIX_PROMPT_NOT_NEUTRAL : String :=
  "The fix prompt names the security fix, so the fix agent was not run"

def SECURITY_FIX_NEEDS_HUMAN : String :=
  "The security fix agent needs human input, which security fixes never request"

def MAX_REPO_SWAPS : Nat := 1

/-! ## Data -/

structure Issue where
  id : String
  shortId : String
  title : String
  source : String
  labels : List String := []
  mailboxId : Option String := none
  routingIntent : Option String := none

inductive Intent where
  | bug | security | question | fix
  deriving DecidableEq, Repr

def Intent.isBugOrSecurity : Intent → Bool
  | .bug | .security => true
  | _ => false

inductive TriageVerdict where
  | fix | noise | expected | infraTransient | upstreamOwned | needsHuman | unspecified
  deriving DecidableEq, Repr

namespace TriageVerdict

def skipsFix : TriageVerdict → Bool
  | noise | expected | infraTransient | needsHuman => true
  | _ => false

def asStr : TriageVerdict → String
  | fix => "fix"
  | noise => "noise"
  | expected => "expected"
  | infraTransient => "infra_transient"
  | upstreamOwned => "upstream_owned"
  | needsHuman => "needs_human"
  | unspecified => "unspecified"

end TriageVerdict

structure VerifyResult where
  reproduced : Bool
  summary : String := ""
  impact : String := ""
  rootCause : String := ""
  suggestedFix : String := ""
  evidence : String := ""
  triage : TriageVerdict := .unspecified
  ownerRepo : String := ""
  deriving DecidableEq, Repr

inductive ReplyKind where
  | answer | needRepro
  deriving DecidableEq, Repr

def ReplyKind.asStr : ReplyKind → String
  | answer => "answer"
  | needRepro => "need_repro"

structure Repo where
  projectDir : String
  repoName : String
  scmUrl : String
  defaultBranch : String
  deriving DecidableEq, Repr

inductive RepoResolution where
  | resolved (repo : Repo)
  | skip (reason : String)
  deriving DecidableEq, Repr

def RepoResolution.repoName : RepoResolution → Option String
  | .resolved repo => some repo.repoName
  | .skip _ => none

structure AgentResult extends PullRequests.AgentResult where
  blockingQuestion : Option String := none
  wrongRepo : Option String := none
  deriving DecidableEq, Repr

inductive EvalCategory where
  | test | lint | staticAnalysis | coverage
  deriving DecidableEq, Repr

structure EvalDelta where
  category : EvalCategory
  newFailures : Int
  regressions : List String
  deriving DecidableEq, Repr

def hasNewTestFailures (deltas : List EvalDelta) : Bool :=
  deltas.any fun d => d.category = .test && decide (0 < d.newFailures)

def hasRegressions (deltas : List EvalDelta) : Bool :=
  deltas.any fun d => decide (0 < d.newFailures) || !d.regressions.isEmpty

structure Input where
  issue : Issue
  sourceName : String
  resolution : RepoResolution
  reviewFeedback : Option String := none
  existingPrBranch : Option String := none
  intent : Option Intent := none

/-- The attempt the run is for. -/
def Input.key (input : Input) : IssueKey := ⟨input.sourceName, input.issue.id⟩

inductive Outcome where
  | success (prUrl : String)
  | completedNoPr (reason : String)
  | failed (error : String)
  | wrongRepo (suggestedRepo : Option String) (originalRepo : String)
  deriving DecidableEq, Repr

/-! ## The world -/

/-- Calls that are not calls of the attempt tracker. The answer of a call with a time limit is
`none` when it runs out of time. -/
inductive Outer : Type → Type where
  | getSecurityReportByConversation (conversation : String) : Outer (Except String Bool)
  | classifyIntent : Outer (Option Intent)
  | verifyIssue : Outer (Option (Except String VerifyResult))
  | answerQuestion : Outer (Option (Except String String))
  | generateReply (kind : ReplyKind) : Outer (Option (Except String String))
  | createLiveQaDirectory : Outer (Except String Unit)
  | postReply (body : String) : Outer (Except String Unit)
  | notifyAnswer (body : String) : Outer (Except String (List String))
  | discordReferences : Outer String
  | lookupRepo (name : String) : Outer (Except String (Option Repo))
  | inferExcluding (excluded : List String) : Outer (Option Repo)
  | ensureRepoSynced (dir scmUrl : String) : Outer (Except String String)
  | fetchBranch (dir branch : String) : Outer (Except String Unit)
  | createWorktree (dir path checkoutRef : String) (branch : Option String) :
      Outer (Except String Unit)
  | worktreeExists (path : String) : Outer Bool
  | runBaseline (dir : String) : Outer (Except String (List EvalCategory))
  | runAfterAndComputeDeltas (dir : String) : Outer (Except String (List EvalDelta))
  | checkDuplicate : Outer (Except String (Option (String × String)))
  | notifyStart : Outer (Except String Unit)
  | buildIssueContext : Outer (Except String Unit)
  | buildPrompt : Outer String
  | execute (prompt : String) : Outer (Except String AgentResult)
  | findReusableQa (question : String) : Outer (Except String Bool)
  | askHumans (question : String) : Outer (Except String Bool)
  | getDefaultBranch (repo : String) : Outer (Except String String)
  | createPr (repo head base title body : String) : Outer (Except String String)
  | notifySuccess (prUrl : String) : Outer (Except String Unit)
  | notifyCompleted (reason : String) : Outer (Except String Unit)
  | notifyFailed (error : String) : Outer (Except String Unit)
  | notifyRepoSwap (originalRepo newRepo : String) : Outer (Except String Unit)
  | effort (name : String) : Outer Unit

inductive Req : Type → Type 1 where
  | getAttempt (k : IssueKey) : Req (Option FixAttempt)
  | markSuccess (k : IssueKey) (prUrl : String) : Req Unit
  | markFailed (k : IssueKey) (error : String) : Req Unit
  | markCannotFix (k : IssueKey) (reason : String) : Req Unit
  | markAnswered (k : IssueKey) (summary : String) (intent : Option String) : Req Unit
  | recordAnswerMessageIds (k : IssueKey) (messageIds : List String) : Req Unit
  | outer {β : Type} (c : Outer β) : Req β

abbrev Run := Prog Req

def ask {β : Type} (c : Outer β) : Run β := .perform (.outer c)

/-- A call whose failure ends the program. -/
def try_ {β : Type} (c : Outer (Except String β)) : ExceptT String Run β := ExceptT.mk (ask c)

def effort (name : String) : Run Unit := ask (.effort name)

/-! ## The processor -/

structure Config where
  replyEnabled : Bool
  verifyFailOpen : Bool
  verifyTimeoutSecs : Nat
  answerTimeoutSecs : Nat
  deployQaTimeoutSecs : Nat
  deployQaBackstopSecs : Nat
  askEnabled : Bool
  maxRoundsPerAttempt : Nat
  bestEffortOnTimeout : Bool
  evaluationEnabled : Bool
  failOnRegression : Bool
  requireRedGreen : Bool
  /-- `treats_as_security` of the HelpScout configuration, when there is one. -/
  treatsAsSecurity : Option (Option String → Bool)

/-- The services that may be missing, and the functions of other modules its texts are made with:
`debug` is `{:?}` on a string. -/
structure IssueProcessor where
  config : Config
  hasInferrer : Bool
  hasClassifier : Bool
  hasGithubClient : Bool
  hasIssueEmbeddings : Bool
  scrubInternal : String → String
  issueWorktreePath : String → Issue → String
  workspace : String
  debug : String → String
  toLowercase : String → String

/-- `truncate` to 500 characters, the last three of them dots. -/
def preview (output : String) : String :=
  if 500 < output.toList.length then String.ofList (output.toList.take 497) ++ "..." else output

def isSecurityFix (issue : Issue) : Bool := issue.source = SECURITY_FIX_SOURCE

def namesSecurityFix (issue : Issue) (prompt : String) : Bool :=
  let shortId := Text.trim issue.shortId
  !shortId.isEmpty && Analysis.contains prompt shortId

def qaEligibleSource (source : String) : Bool :=
  source ∈ ["discord", "slack", "telegram", "whatsapp"]

/-- `triage_playbook(source).is_some()` -/
def hasTriagePlaybook (source : String) : Bool := source = "sentry"

def BUG_LABELS : List String :=
  ["bug", "defect", "error", "fix", "hotfix", "regression", "issue", "problem", "incident", "crash",
   "broken", "security", "vulnerability", "exploit"]

def isSecurityIssue (config : Config) (issue : Issue) : Bool :=
  isSecurityFix issue ||
    issue.source = HELPSCOUT_SOURCE && (config.treatsAsSecurity.any fun treats => treats issue.mailboxId)

def refuseSecurityIssue : Outcome := .completedNoPr SECURITY_REFUSAL

/-- What `run_inner`'s callers make of its outcome. -/
def notRetried (debug : String → String) : Outcome → Outcome
  | .wrongRepo suggested original =>
    .failed ("Wrong repo detected (was: " ++ original ++ ", suggested: " ++
      suggested.elim "None" (fun s => "Some(" ++ debug s ++ ")") ++ "), not retried")
  | outcome => outcome

namespace IssueProcessor

variable (P : IssueProcessor)

def hasSecurityReport (issue : Issue) : Run Bool :=
  if issue.source = HELPSCOUT_SOURCE then do
    match ← ask (.getSecurityReportByConversation issue.id) with
    | .ok report => return report
    | .error _ => return true
  else return false

def belongsToSecurityInbox (issue : Issue) : Run Bool :=
  if isSecurityIssue P.config issue then return true
  else hasSecurityReport issue

def shareableText (issue : Issue) (text : String) : String :=
  if isSecurityFix issue then P.scrubInternal text else text

def markFailed (input : Input) (error : String) : Run Unit :=
  .perform (.markFailed input.key (P.shareableText input.issue error))

/-- The exits that record the attempt as failed with the outcome's own error. -/
def fail (input : Input) (error : String) : Run Outcome := do
  P.markFailed input error
  return .failed error

def heuristicIsBug (issue : Issue) : Bool :=
  issue.source = "sentry" ||
    issue.labels.any fun label => BUG_LABELS.any fun b => Analysis.contains (P.toLowercase label) b

def classifyIsBugOrSecurity (issue : Issue) : Run Bool :=
  if issue.source = "sentry" then return true
  else if P.hasClassifier then do
    match ← ask .classifyIntent with
    | some intent => return intent.isBugOrSecurity
    | none => return P.heuristicIsBug issue
  else return P.heuristicIsBug issue

/-! ### Answers -/

inductive AnswerRun where
  | question | liveQa
  deriving DecidableEq, Repr

def AnswerRun.forIssue (issue : Issue) : AnswerRun :=
  if issue.source = DEPLOY_QA_SOURCE then .liveQa else .question

def timeoutError : AnswerRun → String
  | .question =>
    "Answer generation timed out after " ++ toString (max P.config.answerTimeoutSecs 1) ++ "s"
  | .liveQa =>
    "Live QA exceeded its " ++ toString (max P.config.deployQaTimeoutSecs 1) ++
      "s limit ([deploy_qa] timeout_secs) and timed out after " ++
      toString P.config.deployQaBackstopSecs ++ "s"

/-- Message ids of the notifier are kept, so that a reply finds the issue. -/
def keepMessageIds (input : Input) (sent : List String) : Run Unit :=
  if sent.isEmpty then return () else .perform (.recordAnswerMessageIds input.key sent)

def deliverAnswer (input : Input) (body notifyBody : String) : ExceptT String Run Unit :=
  if AnswerRun.forIssue input.issue = .liveQa then try_ (.postReply body)
  else if qaEligibleSource input.sourceName then do
    ExceptT.lift (keepMessageIds input (← try_ (.notifyAnswer notifyBody)))
  else do
    match ← ExceptT.lift (ask (.postReply body)) with
    | .ok () => return ()
    | .error _ => ExceptT.lift (keepMessageIds input (← try_ (.notifyAnswer notifyBody)))

def recordAnswered (input : Input) (answer : String) : Run Outcome := do
  .perform (.markAnswered input.key answer input.issue.routingIntent)
  return .completedNoPr "answered question"

def failAnswer (input : Input) (error : String) : Run Outcome := do
  .perform (.markFailed input.key error)
  return .failed error

def withReferences (body references : String) : String :=
  if references.isEmpty then body else body ++ references

/-- The answer is stored without the jump links it is delivered with. -/
def answerWith (input : Input) (references : String) :
    Option (Except String String) → Run Outcome
  | some (.ok answer) => do
    match ← (deliverAnswer input answer (withReferences answer references)).run,
      AnswerRun.forIssue input.issue with
    | .error error, .liveQa => failAnswer input ("Live-QA report was not delivered: " ++ error)
    | _, _ => recordAnswered input answer
  | some (.error error) => failAnswer input error
  | none => failAnswer input (P.timeoutError (AnswerRun.forIssue input.issue))

def answerQuestionIssue (input : Input) : Run Outcome :=
  match AnswerRun.forIssue input.issue with
  | .liveQa => do
    match ← ask .createLiveQaDirectory with
    | .ok () => P.answerWith input "" (← ask .answerQuestion)
    | .error error =>
      failAnswer input ("Could not create a private live-QA directory in " ++ P.workspace ++
        "/.claudear-deploy-qa: " ++ error)
  | .question => do
    let references ← ask .discordReferences
    P.answerWith input references (← ask .answerQuestion)

def runReply (input : Input) (kind : ReplyKind) : Run Outcome := do
  let references ← ask .discordReferences
  match ← ask (.generateReply kind) with
  | some (.ok reply) =>
    -- a reply that is not delivered is logged
    let _ ← (deliverAnswer input reply (withReferences reply references)).run
    .perform (.markAnswered input.key reply input.issue.routingIntent)
    return .completedNoPr ("replied (" ++ kind.asStr ++ ")")
  | some (.error error) => failAnswer input error
  | none =>
    failAnswer input ("Reply generation timed out after " ++ toString P.config.answerTimeoutSecs ++ "s")

/-! ### The question loop -/

def refuseSecurityQuestion (input : Input) : Run Outcome := do
  .perform (.markCannotFix input.key SECURITY_FIX_NEEDS_HUMAN)
  return .failed SECURITY_FIX_NEEDS_HUMAN

/-- What a blocking question becomes: `true` when the agent is asked again. -/
def answered (question : String) : ExceptT String Run Bool := do
  match ← ExceptT.lift (ask (.findReusableQa question)) with
  | .ok true => return true
  | _ =>
    if ← try_ (.askHumans question) then return true
    else return P.config.bestEffortOnTimeout

/-- One round: `next` is the round after it, if there may be one. The loop ends with the agent's
last result, or early with an outcome. -/
def askRound (input : Input) (next : Option (ExceptT String Run (Except Outcome AgentResult))) :
    ExceptT String Run (Except Outcome AgentResult) := do
  let prompt ← ExceptT.lift (ask .buildPrompt)
  if isSecurityFix input.issue && namesSecurityFix input.issue prompt then
    return .error (← ExceptT.lift (P.fail input SECURITY_FIX_PROMPT_NOT_NEUTRAL))
  else
    let result ← try_ (.execute prompt)
    match P.config.askEnabled, result.blockingQuestion with
    | true, some question =>
      if isSecurityFix input.issue then
        return .error (← ExceptT.lift (refuseSecurityQuestion input))
      else
        match next with
        | none =>
          return .ok { result with
            success := false
            error := some ("Maximum blocking-question rounds (" ++
              toString P.config.maxRoundsPerAttempt ++ ") reached") }
        | some next =>
          if ← P.answered question then next
          else
            return .ok { result with
              success := false, error := some "Timed out waiting for human reply" }
    | _, _ => return .ok result

def askLoop (input : Input) : Nat → ExceptT String Run (Except Outcome AgentResult)
  | 0 => P.askRound input none
  | rounds + 1 => P.askRound input (some (askLoop input rounds))

/-! ### The result of the agent -/

/-- A review rerun stays with the pull request the attempt has. -/
def rerunPrUrl (input : Input) (new : Option String) : Run (Option String) :=
  match input.existingPrBranch with
  | none => return new
  | some _ => do
    let stored := (← Prog.perform (.getAttempt input.key)).bind FixAttempt.prUrl
    match new, stored with
    | some newUrl, some existing => return if newUrl ≠ existing then stored else new
    | none, some _ => return stored
    | _, none => return new

def pullRequestText (input : Input) (head : String) : String × String :=
  let opened := "_PR opened automatically by claudear from pushed branch `" ++ head ++ "`._"
  if isSecurityFix input.issue then ("fix: apply hardening changes", opened)
  else
    ("Fix: " ++ input.issue.title,
      "Resolves " ++ input.issue.shortId ++ " (" ++ input.sourceName ++ ").\n\n" ++ opened)

def baseBranch (intent : PrIntentUrl) : Run (Except String String) :=
  match intent.base with
  | some base => return .ok base
  | none => ask (.getDefaultBranch intent.repo)

def ensureRealPr (input : Input) (url : String) : Run (Option String) :=
  match parsePrIntentUrl url, P.hasGithubClient with
  | some intent, true => do
    match ← baseBranch intent with
    | .error _ => return none
    | .ok base =>
      let (title, body) := pullRequestText input intent.head
      match ← ask (.createPr intent.repo intent.head base title body) with
      | .ok url => return some url
      | .error _ => return none
  | _, _ => return none

def effectivePrUrl (input : Input) (new : Option String) : Run (Option String) := do
  match ← rerunPrUrl input new with
  | none => return none
  | some url => if (parsePrUrl url).isSome then return some url else P.ensureRealPr input url

def reportSuccess (input : Input) (prUrl : String) : ExceptT String Run Outcome := do
  ExceptT.lift (.perform (.markSuccess input.key prUrl))
  try_ (.notifySuccess prUrl)
  ExceptT.lift (effort "processing_completed")
  return .success prUrl

def reportCompleted (input : Input) (output : String) : ExceptT String Run Outcome := do
  let reason := P.shareableText input.issue
    (if output.isEmpty then "No PR URL found in output" else preview output)
  ExceptT.lift (P.markFailed input ("Claude completed without creating a PR: " ++ reason))
  try_ (.notifyCompleted reason)
  ExceptT.lift (effort "processing_completed_no_pr")
  return .completedNoPr reason

def reportFailed (input : Input) (result : AgentResult) : ExceptT String Run Outcome := do
  let base := result.error.getD "Unknown error"
  let error := P.shareableText input.issue
    (if result.output.isEmpty then base else base ++ "\n\nClaude's summary: " ++ preview result.output)
  ExceptT.lift (P.markFailed input error)
  try_ (.notifyFailed (P.shareableText input.issue error))
  ExceptT.lift (effort "fix_failed")
  return .failed error

def handleResult (input : Input) (result : AgentResult) : ExceptT String Run Outcome :=
  if result.success then do
    match ← ExceptT.lift (P.effectivePrUrl input result.prUrl) with
    | some prUrl => reportSuccess input prUrl
    | none => P.reportCompleted input result.output
  else P.reportFailed input result

def executePipeline (input : Input) (repo : Repo) : ExceptT String Run Outcome := do
  try_ .notifyStart
  try_ .buildIssueContext
  ExceptT.lift (effort "fix_started")
  match ← P.askLoop input P.config.maxRoundsPerAttempt with
  | .error outcome => return outcome
  | .ok result =>
    match result.wrongRepo with
    | some suggested =>
      ExceptT.lift (effort "wrong_repo_detected")
      return .wrongRepo (some suggested) repo.repoName
    | none => P.handleResult input result

/-! ### The fix pipeline -/

def checkoutRef (input : Input) (repo : Repo) (branch : String) : Run String :=
  match input.existingPrBranch with
  | none => return "origin/" ++ branch
  | some pr => do
    match ← ask (.fetchBranch repo.projectDir pr) with
    | .ok () => return "origin/" ++ pr
    | .error _ => return "origin/" ++ branch

/-- The worktree the issue is fixed in, or why there is none. -/
def checkOut (input : Input) (repo : Repo) : Run (Except String String) := do
  match ← ask (.ensureRepoSynced repo.projectDir repo.scmUrl) with
  | .error e => return .error ("Failed to fetch repository: " ++ e)
  | .ok detected =>
    effort "reindex_repo"
    let branch := if detected ≠ "main" ∨ repo.defaultBranch = "main" then detected else repo.defaultBranch
    let ref ← checkoutRef input repo branch
    let path := P.issueWorktreePath repo.repoName input.issue
    match ← ask (.createWorktree repo.projectDir path ref input.existingPrBranch) with
    | .error e => return .error ("Failed to create worktree: " ++ e)
    | .ok () =>
      effort "sync_repo_files"
      if ← ask (.worktreeExists path) then return .ok path
      else return .error ("Worktree disappeared after creation: " ++ P.debug path)

def baseline (dir : String) : Run (List EvalCategory) :=
  if P.config.evaluationEnabled then do
    match ← ask (.runBaseline dir) with
    | .ok snapshots => return snapshots
    | .error _ => return []
  else return []

/-- The authored test fails on the code as it is. -/
def isRed : Except String (List EvalDelta) → Bool
  | .ok deltas => hasNewTestFailures deltas
  | .error _ => false

/-- Authors a failing test, without a fix, and runs it. -/
def authorTest (dir : String) : Run (Option String) := do
  match ← ask (.execute (← ask .buildPrompt)) with
  | .error e =>
    return some ("Red-green: red-phase agent run failed; cannot confirm a failing reproduction: " ++ e)
  | .ok _ =>
    if isRed (← ask (.runAfterAndComputeDeltas dir)) then return none
    else
      return some ("Red-green: authored test did not fail on the unfixed code; " ++
        "could not confirm reproduction")

/-- Why the red phase stops the run, if it does. -/
def redPhase (input : Input) (dir : String) (snapshots : List EvalCategory) : Run (Option String) :=
  if ¬ P.config.requireRedGreen then return none
  else if .test ∉ snapshots then
    return some ("Red-green: require_red_green is set but no test tool was detected; " ++
      "cannot confirm a failing reproduction")
  else if isSecurityFix input.issue then do
    let _ ← ask .buildIssueContext
    authorTest dir
  else authorTest dir

/-- The issue this one repeats, and by how much. -/
def duplicateOf (input : Input) : Run (Option (String × String)) :=
  if isSecurityFix input.issue ∨ ¬ P.hasIssueEmbeddings then return none
  else do
    match ← ask .checkDuplicate with
    | .ok duplicate => return duplicate
    | .error _ => return none

def resolveRepoForCascade (name : String) : Run RepoResolution :=
  if P.hasInferrer then do
    match ← ask (.lookupRepo name) with
    | .ok (some repo) => return .resolved repo
    | .ok none => return .skip ("Repository '" ++ name ++ "' not found in index")
    | .error e => return .skip ("Index error: " ++ e)
  else return .skip "No inferrer available"

/-- `{:?}` on a list of strings. -/
def debugList (l : List String) : String := "[" ++ ", ".intercalate (l.map P.debug) ++ "]"

def inferAlternative (excluded : List String) : Run RepoResolution := do
  match ← ask (.inferExcluding excluded) with
  | some repo => return .resolved repo
  | none => return .skip ("No alternative repo found (excluded: " ++ P.debugList excluded ++ ")")

def resolveAlternativeRepo (suggested : Option String) (excluded : List String) : Run RepoResolution :=
  if P.hasInferrer then
    match suggested with
    | some name =>
      if name ∈ excluded then P.inferAlternative excluded
      else do
        match ← P.resolveRepoForCascade name with
        | .resolved repo => return .resolved repo
        | .skip _ => P.inferAlternative excluded
    | none => P.inferAlternative excluded
  else return .skip "No inferrer available for repo swap"

/-- The worktree in the repository swapped to. Its failures leave the loop without a write. -/
def checkOutAlternative (input : Input) (repo : Repo) : Run (Except String String) := do
  match ← ask (.ensureRepoSynced repo.projectDir repo.scmUrl) with
  | .error e =>
    return .error ("Failed to fetch alternative repo " ++ repo.repoName ++ ": " ++ e)
  | .ok branch =>
    effort "reindex_repo"
    let path := P.issueWorktreePath repo.repoName input.issue
    match ← ask (.createWorktree repo.projectDir path ("origin/" ++ branch) none) with
    | .error e =>
      return .error ("Failed to create worktree for alternative repo " ++ repo.repoName ++ ": " ++ e)
    | .ok () => return .ok path

/-- The repository the run goes on in, and its worktree. -/
def swapRepo (input : Input) (suggested : Option String) (original : String)
    (excluded : List String) : Run (Except String (Repo × String)) := do
  effort "inference_feedback"
  match ← P.resolveAlternativeRepo suggested excluded with
  | .skip reason =>
    return .error ("Wrong repo detected (was: " ++ original ++ "), no alternative found: " ++ reason)
  | .resolved repo =>
    let _ ← ask (.notifyRepoSwap original repo.repoName)
    match ← P.checkOutAlternative input repo with
    | .error error => return .error error
    | .ok dir => return .ok (repo, dir)

/-- The pipeline, again in another repository while swaps are left; with the worktree of its last
round. -/
def swapLoop (input : Input) : Nat → List String → Repo → String → Run (Except String Outcome × String)
  | 0, _, repo, dir => do return (← (P.executePipeline input repo).run, dir)
  | swaps + 1, excluded, repo, dir => do
    match ← (P.executePipeline input repo).run with
    | .ok (.wrongRepo suggested original) =>
      match ← P.swapRepo input suggested original (excluded ++ [original]) with
      | .error error => return (.ok (.failed error), dir)
      | .ok (alternative, dir) => swapLoop input swaps (excluded ++ [original]) alternative dir
    | result => return (result, dir)

/-- Why the evaluation after the fix fails the attempt, if it does. -/
def regressionGate (snapshots : List EvalCategory) (dir : String) : Run (Option String) :=
  if snapshots.isEmpty then return none
  else do
    match ← ask (.runAfterAndComputeDeltas dir) with
    | .error _ => return none
    | .ok deltas =>
      if (P.config.failOnRegression || P.config.requireRedGreen) && hasRegressions deltas then
        if P.config.requireRedGreen && hasNewTestFailures deltas then
          return some "Red-green: authored test still fails after the fix (not green)"
        else return some "Fix introduced quality regressions (fail_on_regression)"
      else return none

def handlePipelineError (input : Input) : Except String Outcome → Run Unit
  | .ok _ => return ()
  | .error e => do
    let error := P.shareableText input.issue e
    P.markFailed input error
    let _ ← ask (.notifyFailed (P.shareableText input.issue error))
    effort "record_feedback_outcome"

/-- What the pipeline's result becomes once the evaluation after it has run. -/
def concludeRun (input : Input) (gate : Option String) : Except String Outcome → Run Outcome
  | .ok (.success prUrl) => do
    match gate with
    | some error => P.fail input error
    | none => return .success prUrl
  | .ok (.wrongRepo suggested original) =>
    return .failed ("Wrong repo detected (was: " ++ original ++ ", suggested: " ++
      suggested.elim "None" (fun s => "Some(" ++ P.debug s ++ ")") ++ "), retries exhausted")
  | .ok outcome => return outcome
  | .error e => return .failed e

/-- What follows the last round of the pipeline. -/
def finishRun (input : Input) (snapshots : List EvalCategory) (dir : String)
    (result : Except String Outcome) : Run Outcome := do
  P.handlePipelineError input result
  P.concludeRun input (← P.regressionGate snapshots dir) result

def fixIn (input : Input) (repo : Repo) (dir : String) (snapshots : List EvalCategory) : Run Outcome := do
  let (result, dir) ← P.swapLoop input MAX_REPO_SWAPS [] repo dir
  P.finishRun input snapshots dir result

def runInner (input : Input) : Run Outcome :=
  match input.resolution with
  | .skip reason => P.fail input ("Repository resolution failed: " ++ reason)
  | .resolved repo => do
    match ← P.checkOut input repo with
    | .error error => P.fail input error
    | .ok dir =>
      let snapshots ← P.baseline dir
      match ← P.redPhase input dir snapshots with
      | some error => P.fail input error
      | none =>
        match ← P.duplicateOf input with
        | some (similarId, percent) =>
          P.fail input ("Semantic duplicate of " ++ similarId ++ " (" ++ percent ++ " similar)")
        | none => P.fixIn input repo dir snapshots

/-! ### Triage and the entry points -/

def needsTriage (input : Input) : Bool :=
  input.reviewFeedback.isNone && input.intent != some .question && hasTriagePlaybook input.sourceName

def blank (s : String) : Bool := (Text.trim s).isEmpty

/-- `has_details` -/
def diagnosed (verdict : VerifyResult) : Bool :=
  !blank verdict.impact || !blank verdict.rootCause || !blank verdict.suggestedFix

/-- Any failure counts as `verify_fail_open` says. -/
def verdictOf : Option (Except String VerifyResult) → VerifyResult
  | some (.ok verdict) => verdict
  | some (.error e) =>
    { reproduced := P.config.verifyFailOpen
      summary := "Verification unsupported/failed; proceeding to resolve", evidence := e }
  | none =>
    { reproduced := P.config.verifyFailOpen
      summary := "Verification timed out after " ++ toString P.config.verifyTimeoutSecs ++
        "s; proceeding to resolve" }

/-- Posts the findings of a verdict that has any. -/
def reportVerdict (input : Input) (verdict : VerifyResult) : Run Unit :=
  if verdict.reproduced && diagnosed verdict && !qaEligibleSource input.sourceName then
    effort "verification_note"
  else return ()

def runVerify (input : Input) : Run VerifyResult := do
  let verdict := P.verdictOf (← ask .verifyIssue)
  reportVerdict input verdict
  return verdict

def skipAfterTriage (input : Input) (verdict : VerifyResult) : Run (Option Outcome × Input) := do
  let reason := "Triage: " ++ verdict.triage.asStr ++ ": " ++ verdict.summary
  .perform (.markCannotFix input.key reason)
  return (some (.completedNoPr reason), input)

/-- The outcome when the attempt ends here, and the input a fix goes on with. -/
def applyTriage (input : Input) (verdict : VerifyResult) : Run (Option Outcome × Input) :=
  if blank verdict.evidence then return (none, input)
  else if verdict.triage = .upstreamOwned then
    let owner := Text.trim verdict.ownerRepo
    if owner.isEmpty ∨ input.resolution.repoName = some owner then return (none, input)
    else do
      match ← P.resolveRepoForCascade owner with
      | .resolved repo => return (none, { input with resolution := .resolved repo })
      | .skip _ => skipAfterTriage input verdict
  else if verdict.triage.skipsFix then skipAfterTriage input verdict
  else return (none, input)

def triageThenFix (input : Input) : Run Outcome := do
  let verdict ← P.runVerify input
  match ← P.applyTriage input verdict with
  | (some outcome, _) => return outcome
  | (none, input) => return notRetried P.debug (← P.runInner input)

def isBugOrSecurity (input : Input) : Run Bool :=
  match input.intent with
  | some intent => return intent.isBugOrSecurity
  | none => P.classifyIsBugOrSecurity input.issue

def runActionPipeline (input : Input) : Run Outcome := do
  if ← P.isBugOrSecurity input then
    if needsTriage input then P.triageThenFix input
    else
      let verdict ← P.runVerify input
      if verdict.reproduced || input.issue.source = "sentry" then
        return notRetried P.debug (← P.runInner input)
      else P.runReply input .needRepro
  else P.runReply input .answer

def run (input : Input) : Run Outcome := do
  if ← P.belongsToSecurityInbox input.issue then return refuseSecurityIssue
  else if AnswerRun.forIssue input.issue = .liveQa then P.answerQuestionIssue input
  else if P.config.replyEnabled then P.runActionPipeline input
  else if needsTriage input then P.triageThenFix input
  else if input.intent = some .question then P.answerQuestionIssue input
  else return notRetried P.debug (← P.runInner input)

def scrubbed : Outcome → Outcome
  | .failed error => .failed (P.scrubInternal error)
  | .completedNoPr reason => .completedNoPr (P.scrubInternal reason)
  | outcome => outcome

def runSecurityFix (input : Input) : Run Outcome :=
  if isSecurityFix input.issue then do
    return P.scrubbed (notRetried P.debug (← P.runInner input))
  else
    return .failed ("run_security_fix only runs " ++ SECURITY_FIX_SOURCE ++ " issues, not " ++
      input.issue.source)

end IssueProcessor

end Claudear.Engine.Processing
