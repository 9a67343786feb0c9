import Claudear.Engine.Retrying
import Claudear.Machine.Crew

/-!
# Stopping and draining

A run takes its claim before it looks whether the watcher was stopped, and `stop`
sets `stopped` and clears `is_running` before the drain reads `in_flight`: either
the run sees the stop, or the drain sees the claim. Every access to one of the
four atomics, and every section under the lock of the processing set, is one call
here. What a run does under its claims is so many calls of `work`: a run that
panics or is aborted ends after some of them, and drops its claims as the others
do. An issue run detaches tasks besides, which hold no claim and may end after
it: retrieval judges, so that scoring does not delay it, and the beats of its
heartbeat, of which an abort does not stop one that has begun.

A watcher is started once. Its loops, which look at `is_running` and not at
`stopped`, begin when `mark_running` has returned `true`. Triggers, retries and
dispatched tasks come at any time.
-/

namespace Claudear.Engine.Drain

open Claudear.Machine
open Claudear.Engine.Processing (SECURITY_FIX_SOURCE)
open Claudear.Engine.Retrying (IssueRun)

/-- `ProcessingClaim` and `RunClaim` -/
inductive Claim where
  | processing (key : String)
  | run

/-- What an issue run spawns and does not wait for. -/
inductive Task where
  | retrievalJudge
  | heartbeat
  deriving DecidableEq

/-- What claims are taken for, and what runs without one. -/
inductive Work where
  | issueRun (key : String)
  | retry
  | reviewRerun
  | mergeFollowUp
  | releaseCascade
  | detached (task : Task)
  deriving DecidableEq

def Work.isDetached : Work → Bool
  | .detached _ => true
  | _ => false

/-- One call of an issue run. -/
inductive RunStep where
  | work
  | detach (task : Task)

/-- The attempt that review feedback is about. -/
inductive Reviewed where
  | unknown
  | terminal
  | attempt (source issueId : String)

/-- What is decided elsewhere. -/
inductive Ask : Type → Type where
  | isRateLimitPaused : Ask Bool
  /-- The issue is none of the security inbox, and its release tip can be run. -/
  | isProcessable (source issueId : String) : Ask Bool
  | securityInboxEnabled : Ask Bool
  | isSecurityIssue (source issueId : String) : Ask Bool
  | issueLoads (source issueId : String) : Ask Bool
  /-- How many calls of work come before the next claim or the end. -/
  | steps (w : Work) : Ask Nat
  /-- The same for an issue run. A judge is spawned where `retrieval_eval` is enabled and something was
  retrieved, and a beat comes at any time. -/
  | runSteps : Ask (List RunStep)
  | outcome : Ask IssueRun
  /-- The fix a routed security report asks for. -/
  | route : Ask (Option String)
  | hasSlot (source : String) : Ask Bool
  | readyRetries : Ask (List (String × String))
  | reviews : Ask (List Reviewed)
  | rerunsReviewed : Ask Bool
  | reviewFailed : Ask Bool
  | pendingPrs : Ask (List Unit)
  /-- The pull request is merged or closed. -/
  | prEnded : Ask Bool
  | upstreams : Ask (List Unit)
  | newRelease : Ask Bool
  | issueEnded : Ask Bool

inductive Access : Type → Type 1 where
  | swapStopped : Access Bool
  | loadStopped : Access Bool
  | storeRunning (running : Bool) : Access Unit
  | loadRunning : Access Bool
  | insertKey (key : String) : Access Bool
  | removeKey (key : String) : Access Unit
  | containsKey (key : String) : Access Bool
  | addActive : Access Unit
  | subActive : Access Unit
  /-- A claim lives from here to its `subInFlight`. -/
  | addInFlight (claim : Claim) : Access Unit
  | subInFlight (claim : Claim) : Access Unit
  | loadInFlight : Access Nat
  | beginLoops : Access Unit
  | work (w : Work) : Access Unit
  /-- `tokio::spawn`, in the run of the issue. -/
  | detach (key : String) (task : Task) : Access Unit
  | ask {β : Type} (q : Ask β) : Access β

abbrev Run := Prog Access

def ask {β : Type} (q : Ask β) : Run β := .perform (.ask q)

def isStopped : Run Bool := .perform .loadStopped

def isRunning : Run Bool := .perform .loadRunning

/-! ## Claims -/

def claimProcessing (key : String) : Run Bool := do
  if ← .perform (.insertKey key) then
    .perform .addActive
    .perform (.addInFlight (.processing key))
    return true
  else return false

def dropProcessing (key : String) : Run Unit := do
  .perform (.removeKey key)
  .perform .subActive
  .perform (.subInFlight (.processing key))

/-- `busy` without the claim. -/
def withProcessing {α : Type} (key : String) (busy : α) (body : Run α) : Run α := do
  if ← claimProcessing key then
    let a ← body
    dropProcessing key
    return a
  else return busy

/-- What is done under a `claim_run`. -/
def withRun {α : Type} (body : Run α) : Run α := do
  .perform (.addInFlight .run)
  let a ← body
  .perform (.subInFlight .run)
  return a

def unlessStopped {α : Type} (stopping : α) (body : Run α) : Run α := do
  if ← isStopped then return stopping else body

def whileRunning {α : Type} (stopping : α) (body : Run α) : Run α := do
  if ← isRunning then body else return stopping

def works (w : Work) : Run Unit := do
  (List.replicate (← ask (.steps w)) ()).forM fun _ => .perform (.work w)

def runStep (key : String) : RunStep → Run Unit
  | .work => .perform (.work (.issueRun key))
  | .detach task => .perform (.detach key task)

def issueRun (key : String) : Run Unit := do
  (← ask .runSteps).forM (runStep key)

/-! ## Runs and retries -/

def processIssue (source issueId : String) : Run IssueRun := do
  if !(← ask (.isProcessable source issueId)) then return .skipped
  else if ← ask .isRateLimitPaused then return .paused
  else
    let key := source ++ ":" ++ issueId
    withProcessing key .busy <| unlessStopped .stopping do
      issueRun key
      ask .outcome

def runSecurityFixRequest (shortId : String) : Run IssueRun := do
  if ← ask .isRateLimitPaused then return .paused
  else
    let key := SECURITY_FIX_SOURCE ++ ":" ++ shortId
    withProcessing key .busy <| unlessStopped .stopping do
      issueRun key
      ask .outcome

/-- The claim of a report that is routed to a fix is dropped before the fix claims its own. -/
def processSecurityIssue (source issueId : String) : Run IssueRun := do
  if !(← ask .securityInboxEnabled) then return .skipped
  else if ← ask .isRateLimitPaused then return .paused
  else
    let key := source ++ ":" ++ issueId
    let routed ← withProcessing key (.error .busy) <| unlessStopped (.error .stopping) do
      works (.issueRun key)
      match ← ask .route with
      | none => return (.error .processed : Except IssueRun String)
      | some shortId => return .ok shortId
    match routed with
    | .error run => return run
    | .ok shortId => runSecurityFixRequest shortId

def runAgain (source issueId : String) : Run IssueRun :=
  if source = SECURITY_FIX_SOURCE then runSecurityFixRequest issueId else processIssue source issueId

/-- Whether the retry was not begun, or refused, because the watcher is stopping. -/
def retry (source issueId : String) : Run Bool :=
  withRun <| unlessStopped true do
    works .retry
    if ← ask (.issueLoads source issueId) then
      let run ← runAgain source issueId
      works .retry
      return run = .stopping
    else
      works .retry
      return false

/-- Whether the issue was run. -/
def triggerIssueInner (source issueId : String) : Run Bool :=
  unlessStopped false do
    if !(← ask (.issueLoads source issueId)) then return false
    else
      let run ← if ← ask (.isSecurityIssue source issueId) then processSecurityIssue source issueId
        else runAgain source issueId
      return run = .processed ∨ run = .declined

/-! ## The loops -/

/-- Gives up when it has waited long enough. -/
def rerunWithReviewFeedback (source issueId : String) : Nat → Run Unit
  | 0 => return
  | n + 1 => do
    if ← .perform (.containsKey (source ++ ":" ++ issueId)) then
      whileRunning () (rerunWithReviewFeedback source issueId n)
    else if ← triggerIssueInner source issueId then return
    else if ← .perform (.containsKey (source ++ ":" ++ issueId)) then
      whileRunning () (rerunWithReviewFeedback source issueId n)
    else return

def processReviewAction (rounds : Nat) (source issueId : String) : Run Unit := do
  works .reviewRerun
  if ← ask .rerunsReviewed then rerunWithReviewFeedback source issueId rounds
  works .reviewRerun

/-- Whether the loop goes on. -/
def checkReview (rounds : Nat) : Reviewed → Run Bool
  | .unknown | .terminal => return true
  | .attempt source issueId =>
    withRun <| whileRunning false do
      processReviewAction rounds source issueId
      if ← ask .reviewFailed then whileRunning () (works .reviewRerun)
      else works .reviewRerun
      return true

def checkReviews (rounds : Nat) : Run Unit :=
  whileRunning () do forWhile (checkReview rounds) (← ask .reviews)

def checkReleasesAndCascade : Run Unit := do
  forWhile (fun _ => whileRunning false do
    if ← ask .newRelease then
      withRun <| whileRunning false do
        works .releaseCascade
        return true
    else return true) (← ask .upstreams)

def checkPrMergesAndCascade : Run Unit := do
  forWhile (fun _ => whileRunning false do
    if ← ask .prEnded then
      withRun <| whileRunning false do
        works .mergeFollowUp
        return true
    else return true) (← ask .pendingPrs)

def checkAndAutoClosePrs : Run Unit := do
  forWhile (fun _ => unlessStopped false do
    if ← ask .issueEnded then
      withRun <| unlessStopped false do
        works .mergeFollowUp
        return true
    else return true) (← ask .pendingPrs)

def awaitRetrySlot (source : String) : Nat → Run Bool
  | 0 => return false
  | n + 1 => do
    if ← ask (.hasSlot source) then return true
    else whileRunning false (awaitRetrySlot source n)

def processReadyRetries (rounds : Nat) : Run Unit := do
  if ← ask .isRateLimitPaused then return
  else
    forWhile (fun (source, issueId) => whileRunning false do
      if ← .perform (.containsKey (source ++ ":" ++ issueId)) then return true
      else if ← awaitRetrySlot source rounds then return !(← retry source issueId)
      else return false) (← ask .readyRetries)

/-- A retrieval judge scores what the run retrieved and records the scores; a beat is recorded. -/
def runDetached (task : Task) : Run Unit := works (.detached task)

/-! ## Starting and stopping -/

def markRunning : Run Bool := do
  .perform (.storeRunning true)
  if ← isStopped then
    .perform (.storeRunning false)
    return false
  else return true

/-- `Watcher::start` and `HousekeepingWorker::start` -/
def start : Run Unit := do
  if ← markRunning then .perform .beginLoops

def stop : Run Unit := do
  let _ ← .perform .swapStopped
  .perform (.storeRunning false)

/-- Waits for so many rounds; the drain has its own limit. -/
def waitUntilIdle : Nat → Run Unit
  | 0 => return
  | n + 1 => do
    if (← .perform .loadInFlight) = 0 then return
    else waitUntilIdle n

def stopAndDrain (rounds : Nat) : Run Unit := do
  stop
  waitUntilIdle rounds

/-! ## The watcher -/

inductive Service where
  | built
  | starting
  | looping
  deriving DecidableEq

structure State where
  stopped : Bool
  isRunning : Bool
  processing : List String
  activeProcessing : Nat
  inFlight : Nat
  /-- The tasks that were spawned and have not begun. -/
  detached : List Task
  service : Service
  /-- `is_running` has been cleared since the stop. -/
  halted : Bool
  /-- A drain has found nothing in flight since then. -/
  drained : Bool

def State.initial : State := ⟨false, false, [], 0, 0, [], .built, false, false⟩

abbrev Answers := {β : Type} → Ask β → β

def answer {β : Type} (env : Answers) : Access β → State → β × State
  | .swapStopped, s => (s.stopped, { s with stopped := true })
  | .loadStopped, s => (s.stopped, s)
  | .storeRunning running, s =>
    ((), { s with isRunning := running, halted := s.halted || (!running && s.stopped) })
  | .loadRunning, s => (s.isRunning, s)
  | .insertKey key, s =>
    if key ∈ s.processing then (false, s) else (true, { s with processing := key :: s.processing })
  | .removeKey key, s => ((), { s with processing := s.processing.erase key })
  | .containsKey key, s => (key ∈ s.processing, s)
  | .addActive, s => ((), { s with activeProcessing := s.activeProcessing + 1 })
  | .subActive, s => ((), { s with activeProcessing := s.activeProcessing - 1 })
  | .addInFlight _, s => ((), { s with inFlight := s.inFlight + 1 })
  | .subInFlight _, s => ((), { s with inFlight := s.inFlight - 1 })
  | .loadInFlight, s => (s.inFlight, { s with drained := s.drained || (s.halted && s.inFlight == 0) })
  | .beginLoops, s => ((), { s with service := .looping })
  | .work _, s => ((), s)
  | .detach _ task, s => ((), { s with detached := task :: s.detached })
  | .ask q, s => (env q, s)

inductive Job where
  | start
  | stop
  | waitUntilIdle (rounds : Nat)
  | stopAndDrain (rounds : Nat)
  | processIssue (source issueId : String)
  | runSecurityFixRequest (shortId : String)
  | processSecurityIssue (source issueId : String)
  | retry (source issueId : String)
  | triggerIssue (source issueId : String)
  | checkReviews (rounds : Nat)
  | checkReleasesAndCascade
  | checkPrMergesAndCascade
  | checkAndAutoClosePrs
  | processReadyRetries (rounds : Nat)
  | detached (task : Task)

def toUnit {α : Type} (p : Run α) : Run Unit := do
  let _ ← p
  return

namespace Job

def program : Job → Run Unit
  | start => Drain.start
  | stop => Drain.stop
  | waitUntilIdle rounds => Drain.waitUntilIdle rounds
  | stopAndDrain rounds => Drain.stopAndDrain rounds
  | processIssue source issueId => toUnit (Drain.processIssue source issueId)
  | runSecurityFixRequest shortId => toUnit (Drain.runSecurityFixRequest shortId)
  | processSecurityIssue source issueId => toUnit (Drain.processSecurityIssue source issueId)
  | retry source issueId => toUnit (Drain.retry source issueId)
  | triggerIssue source issueId => toUnit (Drain.triggerIssueInner source issueId)
  | checkReviews rounds => Drain.checkReviews rounds
  | checkReleasesAndCascade => Drain.checkReleasesAndCascade
  | checkPrMergesAndCascade => Drain.checkPrMergesAndCascade
  | checkAndAutoClosePrs => Drain.checkAndAutoClosePrs
  | processReadyRetries rounds => Drain.processReadyRetries rounds
  | detached task => Drain.runDetached task

/-- What the loops of a started watcher run. -/
def ofLoops : Job → Bool
  | checkReviews _ | checkReleasesAndCascade | checkPrMergesAndCascade | checkAndAutoClosePrs
  | processReadyRetries _ => true
  | _ => false

def enter (job : Job) (s : State) : Option State :=
  match job with
  | start => if s.service = .built then some { s with service := .starting } else none
  | detached task =>
    if task ∈ s.detached then some { s with detached := s.detached.erase task } else none
  | job => if job.ofLoops ∧ s.service ≠ .looping then none else some s

end Job

def charter : Charter Access State Answers Job where
  answer env c s := answer env c s
  program := Job.program
  enter := Job.enter

end Claudear.Engine.Drain
