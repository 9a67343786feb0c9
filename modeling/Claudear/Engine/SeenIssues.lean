import Claudear.Engine.RateLimit
import Claudear.Engine.Seeding
import Claudear.Machine.Crew

/-!
# Seeded issues

After the seeding, polls, lanes, retry scans and everything else of the watcher
run in any number of threads on the table of attempts. A poll leaves out every
attempted issue, and a lane only runs what a poll queued; the retry scan takes
every failed attempt with retries left, once its delay is over, and a seeded
issue is one of these.

A run of an issue begins with the record of its attempt. The other writers of the
table (merges, cascades, the orphan release, other processes) write as they like.
-/

namespace Claudear.Engine.Seeding

open Claudear.Sql Claudear.Storage Claudear.Machine
open Claudear.Engine.Processing (Issue Intent SECURITY_FIX_SOURCE)
open Claudear.Engine.Admission (Job WatcherTask inline IgnoresProcessor)
open Claudear.Engine.Retrying (Watcher)
open Claudear.Text (CaseProps)

/-! ## The daemon -/

structure Daemon where
  table : FixAttempts
  nowMs : Int

namespace Daemon

variable (s : Daemon)

def now : Timestamp := s.nowMs / 1000

def exec (op : TrackerOp) : Daemon := { s with table := s.table.exec ⟨s.now, op⟩ }

end Daemon

/-- What the calls that do not concern the table are answered. -/
abbrev Answers := {β : Type} → Admission.Call β → β

/-- The writer of the table that is called. -/
def writes {β : Type} : Admission.Call β → Option TrackerOp
  | .issue (.prepareRetry k) => some (.prepareForRetry k)
  | .issue (.recordAttemptWithLabels k shortId labels) => some (.recordAttemptWithLabels k shortId labels)
  | .issue (.markDeclined k reason) => some (.markDeclined k reason)
  | .issue (.markFailed k error) => some (.markFailed k error)
  | .issue (.markFailedUncharged k error) => some (.markFailedUncharged k error)
  | .processing (.markSuccess k prUrl) => some (.markSuccess k prUrl)
  | .processing (.markFailed k error) => some (.markFailed k error)
  | .processing (.markCannotFix k reason) => some (.markCannotFix k reason)
  | .processing (.markAnswered k summary intent) => some (.markAnswered k summary intent)
  | .processing (.recordAnswerMessageIds k ids) => some (.recordAnswerMessageIds k ids)
  | _ => none

/-- The candidates of a poll are what its source, its rules and its priorities leave of the issues that
are not attempted yet. A source loads the issue it is asked for. -/
def reply (retry : RetryConfig) (env : Answers) (s : Daemon) {β : Type} : Admission.Call β → β
  | .issue (.prepareRetry k) => (prepareRetry s.table s.now k).map fun _ => ()
  | .issue (.getAttempt k) => s.table.getAttempt k
  | .issue (.outer (.getIssue source issueId)) =>
    (env (.issue (.outer (.getIssue source issueId)))).map fun issue => { issue with id := issueId }
  | .processing (.getAttempt k) => s.table.getAttempt k
  | .fetchCandidates source =>
    (env (.fetchCandidates source)).map fun issues =>
      issues.filter fun issue => issue.id ∉ s.table.getAttemptedIssueIds source
  | .getReadyRetries => (env .getReadyRetries).map fun _ => retry.getReadyRetries s.nowMs s.table
  | c => env c

/-- What goes on beside the seeded issues. -/
inductive Task where
  | watcher (job : Job)
  /-- Somebody else calls a writer. -/
  | write (op : TrackerOp)
  | elapse (ms : Nat)

def charter (U : CaseProps) (w : Watcher) : Charter Admission.Call Daemon Answers Task where
  answer env c s := (reply w.retry env s c, ((writes c).map s.exec).getD s)
  program
    | .watcher job => job.program U w
    | .write _ | .elapse _ => return
  enter
    | .watcher _, s => some s
    | .write op, s => some (s.exec op)
    | .elapse ms, s => some { s with nowMs := s.nowMs + ms }

/-! ## What the threads have in hand -/

/-- The issue that a call begins a run of. -/
def begins {β : Type} : Admission.Call β → β → Option IssueKey
  | .issue (.recordAttemptWithLabels k _ _), _ => some k
  | _, _ => none

/-- The issues a thread is to run from its start. -/
def subjects : Job → List IssueKey
  | .dispatchLane source _ _ items => items.map fun item => ⟨source, item.1.id⟩
  | .processIssue source issue .. => [⟨source, issue.id⟩]
  | .retry attempt => [attempt.key]
  -- the scans look for themselves, and the security inbox starts fixes that have no attempt
  | .pollSource _ | .processReadyRetries _ | .startSecurityFix _ | .processSecurityIssue .. => []

def sourceOf : Job → String
  | .pollSource options => options.source
  | .dispatchLane source .. => source
  | _ => ""

structure Note where
  source : String
  /-- The lanes and the tasks the thread has asked for. -/
  lanes : List (List (Issue × Option Intent)) := []
  tasks : List (Issue × Option Intent) := []
  /-- The issue was in no answer the thread got, and it was not started for it. -/
  clean : Bool

section

variable (k : IssueKey)

/-- The answer has the issue among those to run. -/
def offers {β : Type} : Admission.Call β → β → Bool
  | .fetchCandidates source => fun r =>
    r.toOption.any fun issues => issues.any fun issue => (⟨source, issue.id⟩ : IssueKey) = k
  | .getReadyRetries => fun r => r.toOption.any fun ready => ready.any fun attempt => attempt.key = k
  | .issue (.getAttempt k') => fun attempt => k' = k && attempt.isNone
  | .issue (.outer (.getIssue source _)) => fun r =>
    r.toOption.any fun issue => (⟨source, issue.id⟩ : IssueKey) = k
  | _ => fun _ => false

def asked (g : Note) {β : Type} : Admission.Call β → Note
  | .dispatchLanes items => { g with lanes := g.lanes ++ [items] }
  | .spawn issue intent => { g with tasks := g.tasks ++ [(issue, intent)] }
  | _ => g

def monitor : Monitor Admission.Call Daemon Task Note where
  idle := { source := "", clean := true }
  start
    | .watcher job => { source := sourceOf job, clean := k ∉ subjects job }
    | _ => { source := "", clean := true }
  next g c b _ := { asked g c with clean := g.clean && !offers k c b }

/-- A thread that was offered nothing runs nothing. -/
def apart {β : Type} (g : Note) (c : Admission.Call β) : Prop :=
  g.clean = true →
    match c with
    | .issue (.recordAttemptWithLabels k' _ _) => k' ≠ k
    | .issue (.outer (.getIssue source issueId)) => (⟨source, issueId⟩ : IssueKey) ≠ k
    | .dispatchLanes items => ∀ item ∈ items, (⟨g.source, item.1.id⟩ : IssueKey) ≠ k
    | .spawn issue _ => (⟨g.source, issue.id⟩ : IssueKey) ≠ k
    | _ => True

end

/-! ## What runs another issue -/

section Retrying

open Retrying

/-- The call begins no run of the issue, and loads no issue. -/
def avoids (k : IssueKey) {β : Type} (_ : Unit) : Retrying.Req β → Prop
  | .recordAttemptWithLabels k' _ _ => k' ≠ k
  | .outer (.getIssue ..) => False
  | _ => True

variable {α β : Type} {k : IssueKey} {U : CaseProps} {w : Watcher} {source : String} {issue : Issue}
  {reviewFeedback existingPrBranch prRepo : Option String} {intent : Option Intent}
  {admission : Retrying.Admission} {request : SecurityFixRequest} {attempt : FixAttempt}

theorem quiet_call {c : Retrying.Req β} {f : β → Retrying.Run α} (hc : avoids k () c)
    (h : ∀ b, Quiet (avoids k) (f b)) : Quiet (avoids k) (.perform c >>= f : Retrying.Run α) := ⟨fun _ => hc, h⟩

theorem quiet_ask {c : Outer β} (hc : avoids k () (.outer c)) : Quiet (avoids k) (Retrying.ask c) :=
  ⟨fun _ => hc, fun _ => trivial⟩

theorem quiet_askDeployQa {c : Outer Bool} (hc : avoids k () (.outer c)) :
    Quiet (avoids k) (Watcher.askDeployQa source c) := by
  unfold Watcher.askDeployQa
  split
  · exact quiet_ask hc
  · exact trivial

theorem quiet_resolveRepo : Quiet (avoids k) (w.resolveRepo prRepo) := by
  unfold Watcher.resolveRepo
  split
  · exact quiet_call trivial fun _ => trivial
  · exact quiet_ask trivial

theorem quiet_approve (k' : IssueKey) (resolution : Processing.RepoResolution) :
    Quiet (avoids k) (w.approve k' resolution) := by
  unfold Watcher.approve
  refine quiet_call trivial fun decision => ?_
  cases decision with
  | redirect repoName =>
    refine quiet_call trivial fun redirected => ?_
    cases redirected <;> exact trivial
  | denied => exact quiet_call trivial fun _ => trivial
  | _ => exact trivial

theorem quiet_settleResolution (k' : IssueKey) (isDeployQa : Bool) :
    Quiet (avoids k) (w.settleResolution k' isDeployQa prRepo) := by
  unfold Watcher.settleResolution Watcher.needsApproval
  refine quiet_resolveRepo.bind fun resolution => ?_
  split
  · exact trivial
  · split
    · exact trivial
    · refine quiet_call trivial fun needed => ?_
      split
      · exact quiet_approve k' resolution
      · exact trivial

theorem quiet_concludeIssue (outcome : Processing.Outcome) :
    Quiet (avoids k) (Watcher.concludeIssue U outcome) := by
  cases outcome with
  | failed error =>
    dsimp only [Watcher.concludeIssue]
    split
    · exact quiet_call trivial fun _ => trivial
    · exact trivial
  | _ => exact trivial

theorem quiet_processAdmitted (hk : (⟨source, issue.id⟩ : IssueKey) ≠ k) : Quiet (avoids k)
    (w.processAdmitted U source issue reviewFeedback existingPrBranch prRepo intent) := by
  unfold Watcher.processAdmitted
  refine Quiet.bind (quiet_askDeployQa (c := .claimDeployQaTip issue.id) trivial) fun claimed => ?_
  split
  · exact trivial
  · refine quiet_call hk fun _ => (quiet_settleResolution _ _).bind fun resolution => ?_
    cases resolution with
    | error run => exact trivial
    | ok resolution => exact quiet_call trivial quiet_concludeIssue

theorem quiet_admits : Quiet (avoids k) (admits admission) := by
  cases admission with
  | none => exact trivial
  | some k' => exact quiet_call trivial fun _ => trivial

theorem quiet_processIssue (hk : (⟨source, issue.id⟩ : IssueKey) ≠ k) : Quiet (avoids k)
    (w.processIssue U source issue reviewFeedback existingPrBranch prRepo intent admission) := by
  unfold Watcher.processIssue
  refine quiet_call trivial fun held => ?_
  split
  · exact trivial
  refine Quiet.bind (quiet_askDeployQa (c := .deployQaTipIsRunnable issue.id) trivial) fun runnable => ?_
  split
  · exact trivial
  refine quiet_call trivial fun paused => ?_
  split
  · exact trivial
  refine quiet_call trivial fun claimed => ?_
  split
  · exact trivial
  refine quiet_call trivial fun stopped => ?_
  split
  · exact trivial
  refine quiet_admits.bind fun spend => ?_
  split
  · exact trivial
  · exact (quiet_processAdmitted hk).bind fun _ => trivial

theorem quiet_securityFixIsPermanent (shortId : String) :
    Quiet (avoids k) (w.securityFixIsPermanent shortId) := by
  unfold Watcher.securityFixIsPermanent
  refine quiet_call trivial fun attempt => ?_
  cases attempt with
  | none => exact trivial
  | some attempt =>
    simp only
    split
    · exact trivial
    · split <;> exact trivial

theorem quiet_recordFixFailure (error : String) :
    Quiet (avoids k) (w.recordFixFailure U request error) := by
  unfold Watcher.recordFixFailure
  split
  · exact quiet_call trivial fun _ => quiet_ask trivial
  · exact (quiet_securityFixIsPermanent _).bind fun _ => quiet_ask trivial

theorem quiet_reportFix (outcome : Processing.Outcome) :
    Quiet (avoids k) (w.reportFix U request outcome) := by
  cases outcome with
  | success prUrl => exact quiet_ask trivial
  | failed error | completedNoPr reason | wrongRepo suggested original => exact quiet_recordFixFailure _

theorem quiet_securityFixResolution : Quiet (avoids k) (w.securityFixResolution request) := by
  unfold Watcher.securityFixResolution
  split
  · exact quiet_call trivial fun _ => trivial
  · exact trivial

/-- A security fix whose attempt is recorded, to its end. -/
theorem quiet_securityFix (hk : (⟨SECURITY_FIX_SOURCE, request.issue.shortId⟩ : IssueKey) ≠ k) {a : α}
    (input : Processing.RepoResolution → Processing.Input) :
    Quiet (avoids k) (do
      .perform (.recordAttemptWithLabels ⟨SECURITY_FIX_SOURCE, request.issue.shortId⟩
        request.issue.shortId [])
      let resolution ← w.securityFixResolution request
      let outcome ← .perform (.processing (w.processor.runSecurityFix (input resolution)))
      w.reportFix U request outcome
      return a : Retrying.Run α) := by
  refine quiet_call hk fun _ => quiet_securityFixResolution.bind fun resolution => ?_
  exact quiet_call trivial fun outcome => (quiet_reportFix outcome).bind fun _ => trivial

theorem quiet_runSecurityFixRequest
    (hk : (⟨SECURITY_FIX_SOURCE, request.issue.shortId⟩ : IssueKey) ≠ k) :
    Quiet (avoids k) (w.runSecurityFixRequest U request admission) := by
  unfold Watcher.runSecurityFixRequest
  refine quiet_call trivial fun paused => ?_
  split
  · exact trivial
  refine quiet_call trivial fun claimed => ?_
  split
  · exact trivial
  refine quiet_call trivial fun stopped => ?_
  split
  · exact trivial
  refine quiet_admits.bind fun spend => ?_
  split
  · exact trivial
  · exact quiet_securityFix hk _

theorem quiet_failRetry (error : String) : Quiet (avoids k) (Watcher.failRetry attempt error) := by
  refine quiet_call trivial fun spent => ?_
  cases spent with
  | error e => exact trivial
  | ok _ => exact quiet_call trivial fun _ => trivial

theorem quiet_refundRateLimitedRetry : Quiet (avoids k) (Watcher.refundRateLimitedRetry U attempt) := by
  refine quiet_call trivial fun after => ?_
  split
  · exact quiet_call trivial fun _ => trivial
  · exact trivial

theorem quiet_retryOutcome (r : IssueRun × Spend) : Quiet (avoids k) (Watcher.retryOutcome U attempt r) := by
  unfold Watcher.retryOutcome
  split
  · exact quiet_refundRateLimitedRetry.bind fun _ => trivial
  · exact trivial
  · exact trivial
  · exact quiet_call trivial fun _ => trivial
  · exact trivial
  · exact trivial
  · exact trivial
  · exact trivial
  · exact trivial
  · exact quiet_call trivial fun _ => trivial
  · exact quiet_failRetry _

/-! ### Threads -/

/-- The note of a program of the watcher, before it is inlined. -/
def watcherMonitor (k : IssueKey) : Monitor Retrying.Req Daemon Task Note where
  idle := (monitor k).idle
  start := (monitor k).start
  next g c b s := (monitor k).next g (.issue c) b s

def watcherApart (k : IssueKey) {β : Type} (g : Note) (c : Retrying.Req β) : Prop := apart k g (.issue c)

abbrev Done {α : Type} (_ : α) (_ : Note) : Prop := True

variable {g : Note}

/-- The calls that offer nothing and ask for nothing leave the note. -/
theorem next_eq {c : Admission.Call β} {b : β} {s : Daemon} (hasked : asked g c = g)
    (hoffers : offers k c b = false) : (monitor k).next g c b s = g := by
  simp only [monitor, hasked, hoffers, Bool.not_false, Bool.and_true]

theorem next_offered {c : Admission.Call β} {b : β} {s : Daemon} (hoffers : offers k c b = true) :
    ((monitor k).next g c b s).clean = false := by
  simp only [monitor, hoffers, Bool.not_true, Bool.and_false]

theorem ignoresProcessor : IgnoresProcessor (monitor k) (apart k) where
  ok _ _ _ := trivial
  next _ _ _ _ := next_eq rfl rfl
  program _ _ _ _ := next_eq rfl rfl

theorem allowed_inline {p : Retrying.Run α} {Q : α → Note → Prop}
    (h : Allowed (watcherMonitor k) (watcherApart k) p Q g) :
    Allowed (monitor k) (apart k) (inline p) Q g :=
  ignoresProcessor.allowed_inline ⟨.empty, 0⟩ h

/-- A thread that was offered the issue may do anything. -/
theorem allowed_offered (hg : g.clean = false) (p : Retrying.Run α) :
    Allowed (watcherMonitor k) (watcherApart k) p Done g := by
  induction p generalizing g with
  | ret a => exact trivial
  | call c f ih =>
    refine ⟨fun h => ?_, fun b s => ih b ?_⟩
    · rw [hg] at h
      cases h
    · simp only [watcherMonitor, monitor, hg, Bool.false_and]

theorem allowed_quiet {p : Retrying.Run α} (h : Quiet (avoids k) p) :
    Allowed (watcherMonitor k) (watcherApart k) p Done g := by
  induction p generalizing g with
  | ret a => exact trivial
  | call c f ih =>
    refine ⟨fun _ => ?_, fun b s => ih b (h.2 b)⟩
    have hc := h.1 ()
    cases c with
    | recordAttemptWithLabels => exact hc
    | outer c => cases c <;> first | exact hc.elim | exact trivial
    | _ => exact trivial

theorem allowed_retryIssue (hk : attempt.key ≠ k) :
    Allowed (watcherMonitor k) (watcherApart k) (w.retryIssue U attempt) Done g := by
  unfold Watcher.retryIssue
  split
  · refine allowed_call (fun _ => hk) fun loaded s => ?_
    cases loaded with
    | ok issue =>
      by_cases hoffered : (⟨attempt.key.source, issue.id⟩ : IssueKey) = k
      · refine allowed_offered ?_ _
        exact next_offered (c := .issue (.outer (.getIssue attempt.key.source attempt.key.issueId)))
          (s := s) (decide_eq_true hoffered)
      · exact allowed_quiet ((quiet_processIssue hoffered).bind quiet_retryOutcome)
    | error e =>
      simp only
      split
      · exact trivial
      · exact allowed_quiet (quiet_failRetry _)
  · exact allowed_quiet (quiet_failRetry _)

theorem allowed_retrySecurityFix (hk : attempt.key ≠ k) (hsource : attempt.key.source = SECURITY_FIX_SOURCE) :
    Allowed (watcherMonitor k) (watcherApart k) (w.retrySecurityFix U attempt) Done g := by
  unfold Watcher.retrySecurityFix
  refine allowed_call (fun _ => trivial) fun enabled s => ?_
  split
  · exact trivial
  refine (Watcher.allowed_securityFixRequest fun _ _ => trivial).bind fun r g hr => ?_
  cases r with
  | error error => exact allowed_quiet (quiet_failRetry _)
  | ok request =>
    have hid : request.issue.shortId = attempt.key.issueId := hr request rfl
    have hfix : (⟨SECURITY_FIX_SOURCE, request.issue.shortId⟩ : IssueKey) ≠ k := by
      rwa [← hsource, hid]
    exact allowed_quiet ((quiet_runSecurityFixRequest hfix).bind quiet_retryOutcome)

theorem allowed_retryAttempt (hk : attempt.key ≠ k) :
    Allowed (watcherMonitor k) (watcherApart k) (w.retryAttempt U attempt) Done g := by
  unfold Watcher.retryAttempt
  refine allowed_call (fun _ => trivial) fun stopped s => ?_
  split
  · exact trivial
  split
  · exact allowed_retrySecurityFix hk ‹_›
  · exact allowed_retryIssue hk

/-- A fix is only started for a vulnerability that has no attempt. -/
theorem allowed_startSecurityFix :
    Allowed (watcherMonitor k) (watcherApart k) (Admission.startSecurityFix U w request) Done g := by
  unfold Admission.startSecurityFix
  refine allowed_call (fun _ => trivial) fun paused s => ?_
  split
  · exact trivial
  refine allowed_call (fun _ => trivial) fun claimed s => ?_
  split
  · exact trivial
  refine allowed_call (fun _ => trivial) fun stopped s => ?_
  split
  · exact trivial
  refine allowed_call (fun _ => trivial) fun attempt s => ?_
  cases attempt with
  | some attempt => exact trivial
  | none =>
    by_cases hk : (⟨SECURITY_FIX_SOURCE, request.issue.shortId⟩ : IssueKey) = k
    · refine allowed_offered ?_ _
      refine next_offered (c := .issue (.getAttempt _)) (s := s) ?_
      exact (Bool.and_eq_true _ _).mpr ⟨decide_eq_true hk, rfl⟩
    · exact allowed_quiet (quiet_securityFix hk _)

/-! ### The watcher's own programs -/

theorem allowed_task (hg : g.clean = false) (p : WatcherTask α) : Allowed (monitor k) (apart k) p Done g := by
  induction p generalizing g with
  | ret a => exact trivial
  | call c f ih =>
    refine ⟨fun h => ?_, fun b s => ih b ?_⟩
    · rw [hg] at h
      cases h
    · simp only [monitor, hg, Bool.false_and]

/-- A call that offers nothing and asks for nothing. -/
theorem allowed_plain {c : Admission.Call β} {f : β → WatcherTask α} {Q : α → Note → Prop}
    (hc : apart k g c) (hasked : ∀ g, asked g c = g) (hoffers : ∀ b, offers k c b = false)
    (h : ∀ b, Allowed (monitor k) (apart k) (f b) Q g) :
    Allowed (monitor k) (apart k) (.perform c >>= f) Q g := by
  refine allowed_call hc fun b s => ?_
  rw [next_eq (hasked g) (hoffers b)]
  exact h b

theorem mem_cap {options : Admission.PollOptions} {items : List (Issue × Option Intent)}
    {item : Issue × Option Intent} (h : item ∈ options.cap items) : item ∈ items := by
  rcases List.mem_append.mp h with h | h <;> exact (List.mem_filter.mp (List.mem_of_mem_take h)).1

/-- Classifying the issues adds none, and leaves the note. -/
theorem allowed_classifyAll (issues : List Issue) : Allowed (monitor k) (apart k)
    (Admission.classifyAll issues) (fun items g' => g' = g ∧ ∀ item ∈ items, item.1 ∈ issues) g := by
  induction issues with
  | nil => exact ⟨rfl, fun item h => absurd h List.not_mem_nil⟩
  | cons issue issues ih =>
    refine allowed_plain (fun _ => trivial) (fun _ => rfl) (fun _ => rfl) fun intent => ?_
    refine ih.bind fun items g' h => ⟨h.1, fun item hitem => ?_⟩
    rcases List.mem_cons.mp hitem with rfl | hitem
    · exact List.mem_cons_self
    · exact List.mem_cons_of_mem _ (h.2 item hitem)

theorem allowed_queue (options : Admission.PollOptions) (issues : List Issue) : Allowed (monitor k) (apart k)
    (options.queue issues) (fun items g' => g' = g ∧ ∀ item ∈ items, item.1 ∈ issues) g := by
  unfold Admission.PollOptions.queue
  split
  · exact (allowed_classifyAll issues).bind fun items g' h => ⟨h.1, fun item hitem => h.2 item (mem_cap hitem)⟩
  · refine ⟨rfl, fun item hitem => ?_⟩
    obtain ⟨issue, hissue, rfl⟩ := List.mem_map.mp hitem
    exact List.mem_of_mem_take hissue

/-- A poll asks for lanes of what it was offered. -/
theorem allowed_pollSource (options : Admission.PollOptions) (hg : g.source = options.source) :
    Allowed (monitor k) (apart k) (Admission.pollSource options) Done g := by
  unfold Admission.pollSource Admission.isPollPaused
  split
  · exact trivial
  refine allowed_plain (fun _ => trivial) (fun _ => rfl) (fun _ => rfl) fun paused => ?_
  split
  · exact trivial
  refine allowed_call (fun _ => trivial) fun found s => ?_
  cases hoffers : offers k (.fetchCandidates options.source) found with
  | true => exact allowed_task (next_offered hoffers) _
  | false =>
    rw [next_eq rfl hoffers]
    cases found with
    | error e => exact trivial
    | ok issues =>
      refine (allowed_queue options issues).bind fun items g' h => ?_
      obtain ⟨rfl, hitems⟩ := h
      split
      · exact trivial
      refine allowed_plain (fun _ => trivial) (fun _ => rfl) (fun _ => rfl) fun paused => ?_
      split
      · exact trivial
      refine allowed_perform (fun _ item hitem hk => ?_) fun _ _ => trivial
      rw [hg] at hk
      have hoffered : offers k (.fetchCandidates options.source) (.ok issues) = true :=
        List.any_eq_true.mpr ⟨item.1, hitems item hitem, decide_eq_true hk⟩
      rw [hoffers] at hoffered
      cases hoffered

theorem allowed_awaitSlot (source : String) (isQa : Bool) (rounds : Nat) : Allowed (monitor k) (apart k)
    (Admission.awaitSlot source isQa rounds) (fun _ g' => g' = g) g := by
  induction rounds with
  | zero => exact rfl
  | succ n ih =>
    refine allowed_plain (fun _ => trivial) (fun _ => rfl) (fun _ => rfl) fun free => ?_
    split
    · exact rfl
    refine allowed_plain (fun _ => trivial) (fun _ => rfl) (fun _ => rfl) fun running => ?_
    split
    · exact rfl
    refine allowed_plain (fun _ => trivial) (fun _ => rfl) (fun _ => rfl) fun limited => ?_
    split
    · exact rfl
    · exact allowed_plain (fun _ => trivial) (fun _ => rfl) (fun _ => rfl) fun _ => ih

/-- A lane starts what it was started with. -/
theorem allowed_dispatchLane {isQa : Bool} {rounds : Nat} {items : List (Issue × Option Intent)}
    (hitems : ∀ item ∈ items, (⟨source, item.1.id⟩ : IssueKey) ≠ k) (hg : g.source = source) :
    Allowed (monitor k) (apart k) (Admission.dispatchLane source isQa rounds items) Done g := by
  refine Allowed.mono (allowed_forWhile (L := fun g => g.source = source) (fun item hitem g hg => ?_) hg)
    fun _ _ _ => trivial
  refine allowed_plain (fun _ => trivial) (fun _ => rfl) (fun _ => rfl) fun running => ?_
  split
  · exact hg
  refine allowed_plain (fun _ => trivial) (fun _ => rfl) (fun _ => rfl) fun paused => ?_
  split
  · exact hg
  refine (allowed_awaitSlot source isQa rounds).bind fun slot g' h => ?_
  subst h
  split
  · refine allowed_call (fun _ => ?_) fun _ _ => hg
    rw [hg]
    exact hitems item hitem
  · exact hg

theorem allowed_awaitRetrySlot (source : String) (rounds : Nat) : Allowed (monitor k) (apart k)
    (Admission.scanRetry.awaitRetrySlot source rounds) Done g := by
  induction rounds with
  | zero => exact trivial
  | succ n ih =>
    refine allowed_plain (fun _ => trivial) (fun _ => rfl) (fun _ => rfl) fun free => ?_
    split
    · exact trivial
    refine allowed_plain (fun _ => trivial) (fun _ => rfl) (fun _ => rfl) fun running => ?_
    split
    · exact trivial
    · exact allowed_plain (fun _ => trivial) (fun _ => rfl) (fun _ => rfl) fun _ => ih

theorem allowed_scanRetry (rounds : Nat) (hk : attempt.key ≠ k) :
    Allowed (monitor k) (apart k) (Admission.scanRetry U w rounds attempt) Done g := by
  unfold Admission.scanRetry
  refine allowed_plain (fun _ => trivial) (fun _ => rfl) (fun _ => rfl) fun running => ?_
  split
  · exact trivial
  refine allowed_plain (fun _ => trivial) (fun _ => rfl) (fun _ => rfl) fun processing => ?_
  split
  · exact trivial
  refine (allowed_awaitRetrySlot _ rounds).bind fun slot g' _ => ?_
  split
  · refine (allowed_inline (allowed_retryAttempt hk)).bind fun outcome g'' _ => ?_
    exact allowed_plain (fun _ => trivial) (fun _ => rfl) (fun _ => rfl) fun _ => trivial
  · exact trivial

/-- A scan retries what it was offered. -/
theorem allowed_processReadyRetries (rounds : Nat) :
    Allowed (monitor k) (apart k) (Admission.processReadyRetries U w rounds) Done g := by
  unfold Admission.processReadyRetries
  refine allowed_plain (fun _ => trivial) (fun _ => rfl) (fun _ => rfl) fun paused => ?_
  split
  · exact trivial
  refine allowed_call (fun _ => trivial) fun found s => ?_
  cases hoffers : offers k .getReadyRetries found with
  | true => exact allowed_task (next_offered hoffers) _
  | false =>
    rw [next_eq rfl hoffers]
    cases found with
    | error e => exact trivial
    | ok ready =>
      refine allowed_forWhile (L := fun _ => True) (fun attempt hattempt g' _ => ?_) trivial
      refine allowed_scanRetry rounds fun hk => ?_
      have hoffered : offers k .getReadyRetries (.ok ready) = true :=
        List.any_eq_true.mpr ⟨attempt, hattempt, decide_eq_true hk⟩
      rw [hoffers] at hoffered
      cases hoffered

theorem allowed_processSecurityIssue :
    Allowed (monitor k) (apart k) (Admission.processSecurityIssue U w source issue) Done g := by
  unfold Admission.processSecurityIssue
  refine allowed_plain (fun _ => trivial) (fun _ => rfl) (fun _ => rfl) fun enabled => ?_
  split
  · exact trivial
  refine allowed_plain (fun _ => trivial) (fun _ => rfl) (fun _ => rfl) fun paused => ?_
  split
  · exact trivial
  refine allowed_plain (fun _ => trivial) (fun _ => rfl) (fun _ => rfl) fun claimed => ?_
  split
  · exact trivial
  refine allowed_plain (fun _ => trivial) (fun _ => rfl) (fun _ => rfl) fun stopped => ?_
  split
  · exact trivial
  refine allowed_plain (fun _ => trivial) (fun _ => rfl) (fun _ => rfl) fun route => ?_
  cases route with
  | done reason => exact trivial
  | runFix request => exact allowed_inline allowed_startSecurityFix

theorem allowed_toUnit {p : WatcherTask α} (h : Allowed (monitor k) (apart k) p Done g) :
    Allowed (monitor k) (apart k) (Admission.toUnit p) Done g := h.bind fun _ _ _ => trivial

/-- A thread that is not started for the issue, and is not offered it, does not run it. -/
theorem allowed_program (task : Task) :
    Allowed (monitor k) (apart k) ((charter U w).program task) Done ((monitor k).start task) := by
  cases task with
  | write op => exact trivial
  | elapse ms => exact trivial
  | watcher job =>
    by_cases hk : k ∈ subjects job
    · exact allowed_task (decide_eq_false (not_not.mpr hk)) _
    cases job with
    | pollSource options => exact allowed_pollSource options rfl
    | dispatchLane source isQa rounds items =>
      refine allowed_dispatchLane (fun item hitem h => hk ?_) rfl
      exact List.mem_map.mpr ⟨item, hitem, h⟩
    | processReadyRetries rounds => exact allowed_processReadyRetries rounds
    | processIssue source issue reviewFeedback existingPrBranch prRepo intent admission =>
      have hother : (⟨source, issue.id⟩ : IssueKey) ≠ k := fun h => hk (List.mem_singleton.mpr h.symm)
      exact allowed_toUnit (allowed_inline (allowed_quiet (quiet_processIssue hother)))
    | retry attempt =>
      have hother : attempt.key ≠ k := fun h => hk (List.mem_singleton.mpr h.symm)
      exact allowed_toUnit (allowed_inline (allowed_retryAttempt hother))
    | startSecurityFix request => exact allowed_toUnit (allowed_inline allowed_startSecurityFix)
    | processSecurityIssue source issue => exact allowed_toUnit allowed_processSecurityIssue

end Retrying

/-! ## Runs -/

section Runs

variable {k : IssueKey} {U : CaseProps} {w : Watcher}

abbrev Watched := Crew Admission.Call Daemon Note

/-- The job was asked for by a poll or a lane. -/
def Begun (notes : List Note) : Job → Prop
  | .dispatchLane source isQa _ items =>
    ∃ g ∈ notes, g.source = source ∧
      ∃ lane ∈ g.lanes, items = lane.filter fun item => decide (item.2 = some .question) = isQa
  | .processIssue source issue none none none intent none =>
    ∃ g ∈ notes, g.source = source ∧ (issue, intent) ∈ g.tasks
  | _ => False

/-- Nobody triggers the issue, and nobody resets it. -/
def Untouched (k : IssueKey) (world : Watched) : Turn Answers Task → Prop
  | .spawn (.watcher job) => k ∈ subjects job → Begun world.notes job
  | .spawn (.write op) => op ≠ .resetAttempt k
  | _ => True

/-- A failed attempt of the issue is ready for a retry. -/
def due (config : RetryConfig) (s : Daemon) (k : IssueKey) : Bool :=
  s.table.any fun r =>
    ofIssue k r && r.2.status = .failed && config.isReadyForRetry s.nowMs (rowToFixAttempt r)

def scans {β : Type} : Admission.Call β → β → Option Unit
  | .getReadyRetries => fun _ => some ()
  | _ => fun _ => none

/-- A retry scan finds no attempt of the issue ready. -/
def NotDue (U : CaseProps) (w : Watcher) (k : IssueKey) (world : Watched) (turn : Turn Answers Task) : Prop :=
  (Crew.observe (charter U w) scans world turn).isSome = true → due w.retry world.shared k = false

def NeverRun (U : CaseProps) (w : Watcher) (k : IssueKey) (world : Watched) (turn : Turn Answers Task) : Prop :=
  ∀ x ∈ Crew.observe (charter U w) begins world turn, x.2 ≠ k

/-- What a note may hold: nothing of the issue. -/
structure Free (k : IssueKey) (g : Note) : Prop where
  clean : g.clean = true
  lanes : ∀ lane ∈ g.lanes, ∀ item ∈ lane, (⟨g.source, item.1.id⟩ : IssueKey) ≠ k
  tasks : ∀ item ∈ g.tasks, (⟨g.source, item.1.id⟩ : IssueKey) ≠ k

/-- The issue is seen, and no thread has it in hand or asked for a run of it. -/
structure Inv (k : IssueKey) (s : Daemon) (notes : List Note) : Prop where
  seen : Seen s.table k
  free : ∀ g ∈ notes, Free k g

variable {s : Daemon} {notes : List Note}

/-- What a poll or a lane asked for is none of the issue. -/
theorem Inv.not_begun (h : Inv k s notes) {job : Job} (hjob : Begun notes job) : k ∉ subjects job := by
  unfold Begun at hjob
  split at hjob
  · obtain ⟨g, hg, rfl, lane, hlane, rfl⟩ := hjob
    intro hk
    obtain ⟨item, hitem, hk⟩ := List.mem_map.mp hk
    exact (h.free g hg).lanes lane hlane item (List.mem_filter.mp hitem).1 hk
  · obtain ⟨g, hg, rfl, htask⟩ := hjob
    intro hk
    exact (h.free g hg).tasks _ htask (List.mem_singleton.mp hk).symm
  · exact hjob.elim

theorem Inv.spawn (h : Inv k s notes) {d : Daemon} (hs : Seen d.table k) {g : Note} (hg : Free k g) :
    Inv k d (notes ++ [g]) := by
  refine ⟨hs, fun g' hg' => ?_⟩
  rcases List.mem_append.mp hg' with hg' | hg'
  · exact h.free g' hg'
  · rw [List.mem_singleton.mp hg']
    exact hg

theorem Inv.set (h : Inv k s notes) {s' : Daemon} (hs : Seen s'.table k) (t : Nat) {g : Note}
    (hg : Free k g) : Inv k s' (notes.set t g) := by
  refine ⟨hs, fun g' hg' => ?_⟩
  rcases List.mem_or_eq_of_mem_set hg' with hg' | rfl
  · exact h.free g' hg'
  · exact hg

theorem free_new (source : String) : Free k { source, clean := true } :=
  ⟨rfl, fun _ h => absurd h List.not_mem_nil, fun _ h => absurd h List.not_mem_nil⟩

/-- A thread that is offered nothing asks only for what is none of the issue. -/
theorem Free.next {g : Note} (h : Free k g) {β : Type} {c : Admission.Call β} (hc : apart k g c) {b : β}
    (hoffers : offers k c b = false) : Free k ((monitor k).next g c b s) := by
  have hc := hc h.clean
  have hclean : ((monitor k).next g c b s).clean = true := by
    simp only [monitor, hoffers, h.clean, Bool.not_false, Bool.and_self]
  cases c with
  | dispatchLanes items =>
    refine ⟨hclean, fun lane hlane => ?_, h.tasks⟩
    rcases List.mem_append.mp hlane with hlane | hlane
    · exact h.lanes lane hlane
    · rw [List.mem_singleton.mp hlane]
      exact hc
  | spawn issue intent =>
    refine ⟨hclean, h.lanes, fun item hitem => ?_⟩
    rcases List.mem_append.mp hitem with hitem | hitem
    · exact h.tasks item hitem
    · rw [List.mem_singleton.mp hitem]
      exact hc
  | _ => exact ⟨hclean, h.lanes, h.tasks⟩

/-- Every retry that is ready has a failed row that is. -/
theorem ready_of_due {config : RetryConfig} (h : due config s k = false) {attempt : FixAttempt}
    (ha : attempt ∈ config.getReadyRetries s.nowMs s.table) : attempt.key ≠ k := by
  obtain ⟨hlisted, hready⟩ := List.mem_filter.mp ha
  obtain ⟨i, r, hi, rfl, hfailed, -⟩ := FixAttempts.mem_getRetryableIssues.mp hlisted
  intro hk
  have hdue : due config s k = true := by
    refine Table.any_eq_true.mpr ⟨i, r, hi, ?_⟩
    simp only [Bool.and_eq_true, decide_eq_true_eq]
    exact ⟨⟨decide_eq_true hk, hfailed⟩, hready⟩
  rw [h] at hdue
  cases hdue

/-- Neither a poll, nor the look before a security fix, nor an issue loaded for another attempt, nor a
scan that finds no attempt ready has the issue in its answer. -/
theorem not_offered {config : RetryConfig} (env : Answers) {β : Type} {c : Admission.Call β} {g : Note}
    (hseen : Seen s.table k) (hg : Free k g) (hc : apart k g c)
    (hdue : (scans c (reply config env s c)).isSome = true → due config s k = false) :
    offers k c (reply config env s c) = false := by
  have hc := hc hg.clean
  cases c with
  | fetchCandidates source =>
    simp only [offers, reply]
    cases env (.fetchCandidates source) with
    | error e => rfl
    | ok issues =>
      refine List.any_eq_false.mpr fun issue hissue hk => ?_
      have hk := of_decide_eq_true hk
      have hnot := of_decide_eq_true (List.mem_filter.mp hissue).2
      subst hk
      exact hnot (FixAttempts.mem_getAttemptedIssueIds.mpr hseen)
  | getReadyRetries =>
    simp only [offers, reply]
    cases env .getReadyRetries with
    | error e => rfl
    | ok ready =>
      refine List.any_eq_false.mpr fun attempt hattempt hk => ?_
      exact ready_of_due (hdue rfl) hattempt (of_decide_eq_true hk)
  | issue c =>
    cases c with
    | getAttempt k' =>
      simp only [offers, reply]
      by_cases hk : k' = k
      · subst hk
        rw [Option.isNone_eq_false_iff.mpr hseen.getAttempt, Bool.and_false]
      · rw [decide_eq_false hk, Bool.false_and]
    | outer c =>
      cases c with
      | getIssue source issueId =>
        simp only [offers, reply]
        cases env (.issue (.outer (.getIssue source issueId))) with
        | error e => rfl
        | ok issue => exact decide_eq_false hc
      | _ => rfl
    | _ => rfl
  | _ => rfl

theorem writes_ne_reset {β : Type} (c : Admission.Call β) (op : TrackerOp) (h : writes c = some op) :
    op ≠ .resetAttempt k := by
  rintro rfl
  unfold writes at h
  split at h <;> cases h

theorem seen_answer (env : Answers) {β : Type} (c : Admission.Call β) (h : Seen s.table k) :
    Seen ((charter U w).answer env c s).2.table k := by
  simp only [charter]
  cases hop : writes c with
  | none => exact h
  | some op => exact h.exec (writes_ne_reset c op hop)

/-- One turn. -/
theorem sound_step {world : Watched} {turn : Turn Answers Task}
    (h : Crew.Sound (monitor k) (apart k) (fun _ => True) (Inv k) world)
    (huntouched : Untouched k world turn) (hdue : NotDue U w k world turn) :
    Crew.Sound (monitor k) (apart k) (fun _ => True) (Inv k) (Crew.step (charter U w) (monitor k) world turn) := by
  refine h.turn turn allowed_program (fun task s hturn hs => ?_) fun t env β c f g hturn hp hc => ?_
  · subst hturn
    cases task with
    | watcher job =>
      cases hs
      have hjob : k ∉ subjects job := fun hk => h.inv.not_begun (huntouched hk) hk
      have hnew : (monitor k).start (.watcher job) = { source := sourceOf job, clean := true } := by
        simp only [monitor, decide_eq_true hjob]
      rw [hnew]
      exact h.inv.spawn h.inv.seen (free_new _)
    | write op =>
      cases hs
      exact h.inv.spawn (h.inv.seen.exec (c := ⟨_, op⟩) huntouched) (free_new _)
    | elapse ms =>
      cases hs
      exact h.inv.spawn (d := { world.shared with nowMs := world.shared.nowMs + ms }) h.inv.seen (free_new _)
  · subst hturn
    have hg := h.inv.free g (Crew.mem_notes hp)
    refine h.inv.set (seen_answer env c h.inv.seen) t (hg.next hc (not_offered env h.inv.seen hg hc ?_))
    intro hscan
    refine hdue ?_
    simp only [Crew.observe, hp, Option.isSome_map]
    exact hscan

/-- An issue that was marked as seen is run by no poll and no retry scan, nor by anything these start,
unless somebody triggers or resets it or a scan finds its attempt ready. -/
theorem seeded_never_run (U : CaseProps) (w : Watcher) (W : World) (sources : List String) (t : FixAttempts)
    (nowMs : Int) (l : List (Turn Answers Task)) :
    let seeded := (seedFrom w.processor W sources t).2
    ∀ k ∈ seeded.marked,
      Along (Crew.step (charter U w) (monitor k))
        (fun world turn => Untouched k world turn ∧ NotDue U w k world turn)
        (Crew.initial ⟨seeded.table, nowMs⟩) l →
      Along (Crew.step (charter U w) (monitor k)) (NeverRun U w k) (Crew.initial ⟨seeded.table, nowMs⟩) l := by
  intro seeded k hk h
  refine h.along (P := Crew.Sound (monitor k) (apart k) (fun _ => True) (Inv k))
    (fun world turn hsound hturn => sound_step hsound hturn.1 hturn.2) ?_
    (Crew.sound_initial ⟨marked_seen w.processor W sources t k hk, nofun⟩)
  intro world turn hsound _ x hx hrun
  obtain ⟨env, β, c, f, g, rfl, hp, hbegins⟩ := Crew.observe_eq_some hx
  have hc := hsound.call_ok hp (hsound.inv.free g (Crew.mem_notes hp)).clean
  unfold begins at hbegins
  split at hbegins
  · rw [← hrun, ← Option.some.inj hbegins] at hc
    exact hc rfl
  · cases hbegins

instance (world : Watched) (turn : Turn Answers Task) : Decidable (NotDue U w k world turn) :=
  inferInstanceAs (Decidable (_ → _))

instance (world : Watched) (turn : Turn Answers Task) : Decidable (NeverRun U w k world turn) :=
  inferInstanceAs (Decidable (∀ x ∈ _, _))

end Runs

/-! ## One seeded issue -/

/-- The only source has one issue, and nothing goes wrong. -/
def calmWorld : World where
  now _ := 0
  issues _ := .ok [Processing.oneInput.issue]
  processing _ := Processing.calmWorld Processing.opensPr
  fails _ := none

def seededOnce : Course := (seedFrom Processing.plainProcessor calmWorld ["linear"] .empty).2

/-- A poll, and a scan after `ms` milliseconds. -/
def pollThenScan (ms n : Nat) : List (Turn Answers Task) :=
  [.spawn (.watcher (.pollSource ⟨"linear", false, 5, 5, false⟩)), .spawn (.elapse ms),
    .spawn (.watcher (.processReadyRetries 1))] ++
    List.replicate n (.go 0 fun c => offering c) ++ List.replicate n (.go 2 fun c => offering c)
where
  /-- The source has the issue still. -/
  offering {β : Type} : Admission.Call β → β
  | .fetchCandidates _ => .ok [Processing.oneInput.issue]
  | c => RateLimit.surroundings Processing.opensPr c

theorem untouched_pollThenScan (k : IssueKey) (ms n : Nat) (world : Watched) :
    ∀ turn ∈ pollThenScan ms n, Untouched k world turn := by
  intro turn hturn
  simp only [pollThenScan, List.mem_append, List.mem_cons, List.not_mem_nil, or_false,
    List.mem_replicate] at hturn
  rcases hturn with (((rfl | rfl | rfl) | ⟨-, rfl⟩) | ⟨-, rfl⟩)
  · exact fun h => absurd h List.not_mem_nil
  · exact trivial
  · exact fun h => absurd h List.not_mem_nil
  · exact trivial
  · exact trivial

/-- The poll leaves the issue out, and the scan comes before the delay is over. -/
theorem seeded_never_run_once :
    Along (Crew.step (charter Retrying.uncased Retrying.plainWatcher) (monitor ⟨"linear", "1"⟩))
      (NeverRun Retrying.uncased Retrying.plainWatcher ⟨"linear", "1"⟩)
      (Crew.initial ⟨seededOnce.table, 0⟩) (pollThenScan 500 12) := by
  refine seeded_never_run Retrying.uncased Retrying.plainWatcher calmWorld ["linear"] .empty 0 _
    ⟨"linear", "1"⟩ (by decide +kernel) ?_
  refine along_and.mpr ⟨along_of_forall fun turn hturn world => ?_, by decide +kernel⟩
  exact untouched_pollThenScan _ _ _ world turn hturn

/-- Two seconds later the retry manager runs the issue that nobody triggered. -/
theorem seeded_is_run :
    ⟨"linear", "1"⟩ ∈ seededOnce.marked ∧
      Along (Crew.step (charter Retrying.uncased Retrying.plainWatcher) (monitor ⟨"linear", "1"⟩))
        (Untouched ⟨"linear", "1"⟩) (Crew.initial ⟨seededOnce.table, 0⟩) (pollThenScan 2000 12) ∧
      ¬ Along (Crew.step (charter Retrying.uncased Retrying.plainWatcher) (monitor ⟨"linear", "1"⟩))
        (NeverRun Retrying.uncased Retrying.plainWatcher ⟨"linear", "1"⟩)
        (Crew.initial ⟨seededOnce.table, 0⟩) (pollThenScan 2000 12) := by
  refine ⟨by decide +kernel, along_of_forall fun turn hturn world => ?_, by decide +kernel⟩
  exact untouched_pollThenScan _ _ _ world turn hturn

end Claudear.Engine.Seeding
