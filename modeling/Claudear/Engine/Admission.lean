import Claudear.Engine.Retrying

/-!
# The ways to a run

A poll classifies what it found and fills the two lanes, a lane spawns a task for
each issue once it has a slot, the retry scan retries what is ready one after
the other, and the security inbox starts its fixes. Every one of them asks whether
the watcher is paused, and so does what it starts.

`Call` is a call of one of these programs, down to the calls of the issue
processor: `inline` and `lift` make one program of a watcher's and the
processor's. A task that is spawned is another thread of the pool.
-/

namespace Claudear.Engine.Admission

open Claudear.Storage Claudear.Machine Claudear.Text
open Claudear.Engine.Processing (Issue Intent SECURITY_FIX_SOURCE DEPLOY_QA_SOURCE)
open Claudear.Engine.Retrying (IssueRun RetryOutcome Admission SecurityFixRequest Watcher ask)

/-- What the security inbox made of a report. -/
inductive SecurityRoute where
  | done (reason : String)
  | runFix (request : SecurityFixRequest)

inductive Call : Type → Type 1 where
  | issue {β : Type} (c : Retrying.Req β) : Call β
  | processing {β : Type} (c : Processing.Req β) : Call β
  | isRunning : Call Bool
  /-- Whether any provider is paused. -/
  | isProviderRateLimited : Call Bool
  /-- The issues of a source that a poll goes on with, in order. -/
  | fetchCandidates (source : String) : Call (Except String (List Issue))
  | classifyIntent (issue : Issue) : Call (Option Intent)
  | getReadyRetries : Call (Except String (List FixAttempt))
  | isProcessing (key : String) : Call Bool
  | hasSlot (source : String) (isQa : Bool) : Call Bool
  | slotReleased : Call Unit
  | dispatchLanes (items : List (Issue × Option Intent)) : Call Unit
  | spawn (issue : Issue) (intent : Option Intent) : Call Unit
  | recordRetry (attempt : FixAttempt) (outcome : RetryOutcome) : Call Unit
  | route (issue : Issue) : Call SecurityRoute

abbrev WatcherTask := Prog Call

def isRateLimitPaused : WatcherTask Bool := .perform (.issue (.outer .isRateLimitPaused))

def lift {α : Type} : Processing.Run α → WatcherTask α
  | .ret a => .ret a
  | .call c k => .call (.processing c) fun b => lift (k b)

def inline {α : Type} : Retrying.Run α → WatcherTask α
  | .ret a => .ret a
  | .call (.processing p) k => (lift p).bind fun b => inline (k b)
  | .call c k => .call (.issue c) fun b => inline (k b)

/-- The issues of the deploy-QA source are never polled. -/
def isPollPaused (source : String) : WatcherTask Bool :=
  if source = DEPLOY_QA_SOURCE then return true else isRateLimitPaused

def classifyAll : List Issue → WatcherTask (List (Issue × Option Intent))
  | [] => return []
  | issue :: rest => do
    let intent ← .perform (.classifyIntent issue)
    return (issue, some (intent.getD .fix)) :: (← classifyAll rest)

structure PollOptions where
  source : String
  /-- The source's questions are told from its fixes. -/
  qaSplit : Bool
  maxIssues : Nat
  maxQa : Nat
  dryRun : Bool

/-- Questions first, each kind up to its own limit. -/
def PollOptions.cap (options : PollOptions) (items : List (Issue × Option Intent)) :
    List (Issue × Option Intent) :=
  (items.filter fun i => i.2 = some .question).take options.maxQa ++
    (items.filter fun i => i.2 ≠ some .question).take options.maxIssues

def PollOptions.queue (options : PollOptions) (ordered : List Issue) :
    WatcherTask (List (Issue × Option Intent)) :=
  if options.qaSplit then do return options.cap (← classifyAll ordered)
  else return (ordered.take options.maxIssues).map fun issue => (issue, none)

def pollSource (options : PollOptions) : WatcherTask Unit := do
  if ← isPollPaused options.source then return
  else match ← .perform (.fetchCandidates options.source) with
    | .error _ => return
    | .ok ordered =>
      let items ← options.queue ordered
      if items.isEmpty || options.dryRun then return
      else if ← isRateLimitPaused then return
      else .perform (.dispatchLanes items)

/-- Waits for a slot of the lane, as often as one is released: `none` waits on, and `some false` gives
the lane up. -/
def awaitSlot (source : String) (isQa : Bool) : Nat → WatcherTask (Option Bool)
  | 0 => return none
  | n + 1 => do
    if ← .perform (.hasSlot source isQa) then return some true
    else if !(← .perform .isRunning) then return some false
    else if ← .perform .isProviderRateLimited then return some false
    else
      .perform .slotReleased
      awaitSlot source isQa n

def dispatchLane (source : String) (isQa : Bool) (rounds : Nat) (items : List (Issue × Option Intent)) :
    WatcherTask Unit :=
  forWhile (fun item => do
    if !(← .perform .isRunning) then return false
    else if ← isRateLimitPaused then return false
    else if (← awaitSlot source isQa rounds) = some true then
      .perform (.spawn item.1 item.2)
      return true
    else return false) items

section
variable (U : CaseProps) (w : Watcher)

/-- One retry of the scan, and whether the scan goes on. -/
def scanRetry (rounds : Nat) (attempt : FixAttempt) : WatcherTask Bool := do
  if !(← .perform .isRunning) then return false
  else if ← .perform (.isProcessing (attempt.key.source ++ ":" ++ attempt.key.issueId)) then return true
  else if (← awaitRetrySlot attempt.key.source rounds) = some true then
    let outcome ← inline (w.retryAttempt U attempt)
    .perform (.recordRetry attempt outcome)
    return outcome ≠ .stopping
  else return false
where
  /-- The scan does not look at the pause while it waits. -/
  awaitRetrySlot (source : String) : Nat → WatcherTask (Option Bool)
  | 0 => return none
  | n + 1 => do
    if ← .perform (.hasSlot source false) then return some true
    else if !(← .perform .isRunning) then return some false
    else
      .perform .slotReleased
      awaitRetrySlot source n

def processReadyRetries (rounds : Nat) : WatcherTask Unit := do
  if ← isRateLimitPaused then return
  else match ← .perform .getReadyRetries with
    | .error _ => return
    | .ok ready => forWhile (scanRetry U w rounds) ready

end

/-- `run_security_fix_request` for a fix that is to have no attempt yet. -/
def startSecurityFix (U : CaseProps) (w : Watcher) (request : SecurityFixRequest) : Retrying.Run IssueRun := do
  let shortId := request.issue.shortId
  if ← ask .isRateLimitPaused then return .paused
  else if !(← ask (.claimProcessing (SECURITY_FIX_SOURCE ++ ":" ++ shortId) false)) then return .busy
  else if ← ask .isStopped then return .stopping
  else if (← .perform (.getAttempt ⟨SECURITY_FIX_SOURCE, shortId⟩)).isSome then return .skipped
  else
    .perform (.recordAttemptWithLabels ⟨SECURITY_FIX_SOURCE, shortId⟩ shortId [])
    let resolution ← w.securityFixResolution request
    let outcome ← .perform (.processing (w.processor.runSecurityFix
      { issue := request.issue, sourceName := SECURITY_FIX_SOURCE, resolution, intent := some .security }))
    w.reportFix U request outcome
    return .processed

/-- The repository of the report is resolved without an agent. -/
def processSecurityIssue (U : CaseProps) (w : Watcher) (source : String) (issue : Issue) :
    WatcherTask IssueRun := do
  if !(← inline (ask .securityInboxEnabled)) then return .skipped
  else if ← isRateLimitPaused then return .paused
  else if !(← inline (ask (.claimProcessing (source ++ ":" ++ issue.id) false))) then return .busy
  else if ← inline (ask .isStopped) then return .stopping
  else match ← .perform (.route issue) with
    | .done _ => return .processed
    | .runFix request => inline (startSecurityFix U w request)

/-! ## The threads -/

/-- What a thread of the watcher may do. -/
inductive Job where
  | pollSource (options : PollOptions)
  | dispatchLane (source : String) (isQa : Bool) (rounds : Nat) (items : List (Issue × Option Intent))
  | processReadyRetries (rounds : Nat)
  | processIssue (source : String) (issue : Issue) (reviewFeedback existingPrBranch prRepo : Option String)
    (intent : Option Intent) (admission : Admission)
  | retry (attempt : FixAttempt)
  | startSecurityFix (request : SecurityFixRequest)
  | processSecurityIssue (source : String) (issue : Issue)

def toUnit {α : Type} (p : WatcherTask α) : WatcherTask Unit := do
  let _ ← p
  return

def Job.program (U : CaseProps) (w : Watcher) : Job → WatcherTask Unit
  | .pollSource options => Admission.pollSource options
  | .dispatchLane source isQa rounds items => Admission.dispatchLane source isQa rounds items
  | .processReadyRetries rounds => Admission.processReadyRetries U w rounds
  | .processIssue source issue reviewFeedback existingPrBranch prRepo intent admission =>
    toUnit (inline (w.processIssue U source issue reviewFeedback existingPrBranch prRepo intent admission))
  | .retry attempt => toUnit (inline (w.retryAttempt U attempt))
  | .startSecurityFix request => toUnit (inline (Admission.startSecurityFix U w request))
  | .processSecurityIssue source issue => toUnit (Admission.processSecurityIssue U w source issue)

/-! ## Inlined programs -/

section Inlined

variable {σ G α : Type} {J : Type*} {M : Monitor Call σ J G} {ok : {β : Type} → G → Call β → Prop}
  {Q : α → G → Prop} {g : G}

/-- The monitor of a watcher's program, before it is inlined. -/
def ofWatcher (M : Monitor Call σ J G) : Monitor Retrying.Req σ J G where
  idle := M.idle
  start := M.start
  next g c b s := M.next g (.issue c) b s

/-- The calls of the issue processor are in order and leave the note. -/
structure IgnoresProcessor (M : Monitor Call σ J G) (ok : {β : Type} → G → Call β → Prop) : Prop where
  ok : ∀ {β : Type} (g : G) (c : Processing.Req β), ok g (.processing c)
  next : ∀ {β : Type} (g : G) (c : Processing.Req β) (b : β) (s : σ), M.next g (.processing c) b s = g
  program : ∀ {β : Type} (g : G) (p : Processing.Run β) (b : β) (s : σ),
    M.next g (.issue (.processing p)) b s = g

theorem IgnoresProcessor.allowed_lift (h : IgnoresProcessor M ok) (p : Processing.Run α)
    (hQ : ∀ a, Q a g) : Allowed M ok (lift p) Q g := by
  induction p with
  | ret a => exact hQ a
  | call c f ih =>
    refine ⟨h.ok g c, fun b s => ?_⟩
    rw [h.next]
    exact ih b

theorem IgnoresProcessor.allowed_inline (h : IgnoresProcessor M ok) (s : σ) {p : Retrying.Run α}
    (hp : Allowed (ofWatcher M) (fun g c => ok g (.issue c)) p Q g) : Allowed M ok (inline p) Q g := by
  induction p generalizing g with
  | ret a => exact hp
  | call c f ih =>
    cases c with
    | processing p =>
      refine Allowed.bind (Q := fun _ g' => g' = g) (h.allowed_lift p fun _ => rfl) fun b g' hg => ?_
      subst hg
      have hb := hp.2 b s
      rw [ofWatcher, h.program] at hb
      exact ih b hb
    | _ => exact ⟨hp.1, fun b s => ih b (hp.2 b s)⟩

end Inlined

end Claudear.Engine.Admission
