import Claudear.Engine.Admission
import Claudear.Engine.RetryCharges

/-!
# Pauses on a rate limit

A run that fails on a rate limit pauses the agent it ran on, by the agent's name,
until the reset time its error tells, or for a quarter of an hour. Whether the
watcher is paused is asked by the name of the configured default provider. With
one name for both, and no pause recorded between a task's check and what it then
starts, no agent is started before a recorded pause is over. The names of the
agents that are not the default provider, and of the orchestrator, are others.
-/

namespace Claudear.Engine.RateLimit

open Claudear.Storage Claudear.Machine Claudear.Text
open Claudear.Engine.Processing (Issue Intent)
open Claudear.Engine.Retrying (IssueRun Watcher)
open Claudear.Engine.Admission

/-! ## Agents -/

inductive AgentSetup where
  | claude | codex | copilot | gemini | llm
  /-- Several providers, and a strategy to choose one. -/
  | orchestrator (providers : List AgentSetup)

/-- `AgentRunner::name` -/
def AgentSetup.name : AgentSetup → String
  | .claude => "claude"
  | .codex => "codex"
  | .copilot => "copilot"
  | .gemini => "gemini"
  | .llm => "llm"
  | .orchestrator _ => "orchestrator"

/-! ## Pauses -/

/-- Milliseconds. -/
abbrev Instant := Nat

def MINUTE : Instant := 60000

structure Pauses where
  now : Instant
  /-- `rate_limit_pause_until` -/
  until_ : List (String × Instant)
  /-- The end of every pause recorded so far. -/
  recorded : List Instant

namespace Pauses

variable (s : Pauses)

def initial (now : Instant) : Pauses := ⟨now, [], []⟩

def get (provider : String) : Option Instant := s.until_.lookup provider

def remove (provider : String) : Pauses :=
  { s with until_ := s.until_.filter fun e => e.1 ≠ provider }

def insert (provider : String) (until_ : Instant) : Pauses :=
  { s with until_ := (provider, until_) :: (s.remove provider).until_ }

def isProviderRateLimited : Bool := s.until_.any fun e => decide (s.now < e.2)

/-- An entry that has expired is removed. -/
def isProviderRateLimitedFor (provider : String) : Bool × Pauses :=
  match s.get provider with
  | some until_ => if s.now < until_ then (true, s) else (false, s.remove provider)
  | none => (false, s)

/-- `parsed` is the reset time read in the error. A pause is never cut short. -/
def pauseUntilRateLimitReset (provider : String) (parsed : Option Instant) : Pauses :=
  let target := parsed.getD (s.now + 15 * MINUTE) + MINUTE
  match s.get provider with
  | some current =>
    if target ≤ current then { s with recorded := s.recorded ++ [current] }
    else { s.insert provider target with recorded := s.recorded ++ [target] }
  | none => { s.insert provider target with recorded := s.recorded ++ [target] }

end Pauses

structure Config where
  agent : AgentSetup
  defaultProvider : String

/-! ## The pool -/

/-- What the calls that do not concern the pauses are answered. -/
abbrev Answers := {β : Type} → Call β → β

/-- `extract` is `extract_rate_limit_reset_time`. -/
def answer (config : Config) (extract : String → Instant → Option Instant) {β : Type} (env : Answers) :
    Call β → Pauses → β × Pauses
  | .issue (.outer .isRateLimitPaused), s => s.isProviderRateLimitedFor config.defaultProvider
  | .issue (.outer (.pauseUntilRateLimitReset error)), s =>
    ((), s.pauseUntilRateLimitReset config.agent.name (extract error s.now))
  | .isProviderRateLimited, s => (s.isProviderRateLimited, s)
  | c, s => (env c, s)

/-- The call starts an agent. -/
def starts {β : Type} : Call β → Bool
  | .processing (.outer .classifyIntent) | .processing (.outer .verifyIssue)
  | .processing (.outer .answerQuestion) | .processing (.outer (.generateReply _))
  | .processing (.outer (.execute _)) | .processing (.outer (.inferExcluding _))
  | .issue (.outer .resolveRepoForIssue) | .classifyIntent _ | .route _ => true
  | _ => false

/-- Time passes. -/
abbrev Elapse := Instant

def pool (config : Config) (extract : String → Instant → Option Instant) (U : CaseProps) (w : Watcher) :
    Pool Call Pauses Answers Job Elapse where
  answer env c s := answer config extract env c s
  program := Job.program U w
  outside s elapsed := { s with now := s.now + elapsed }

/-- How many pauses had been recorded when the thread last found the watcher not paused. -/
abbrev Passed := Option Nat

def monitor : Monitor Call Pauses Job Passed where
  idle := none
  start _ := none
  next g c b s :=
    match c, b with
    | .issue (.outer .isRateLimitPaused), false => some s.recorded.length
    | _, _ => g

/-- An agent is only started past a check. -/
def passed {β : Type} (g : Passed) (c : Call β) : Prop := starts c = true → g.isSome = true

/-! ## Every start is past a check -/

/-- The processor's calls that start no agent. -/
def idle {β : Type} (_ : Unit) (c : Processing.Req β) : Prop := starts (.processing c) = false

/-- The note of a program of the watcher, before it is inlined. -/
def watcherMonitor : Monitor Retrying.Req Pauses Job Passed where
  idle := none
  start _ := none
  next g c b s := monitor.next g (.issue c) b s

def watcherPassed {β : Type} (g : Passed) : Retrying.Req β → Prop
  | .processing p => g.isSome = true ∨ Quiet idle p
  | c => passed g (.issue c)

variable {α β : Type} {g : Passed} {U : CaseProps} {w : Watcher}

theorem next_isSome (hg : g.isSome = true) (c : Call β) (b : β) (s : Pauses) :
    (monitor.next g c b s).isSome = true := by
  simp only [monitor]
  split
  · rfl
  · exact hg

theorem allowed_lift {p : Processing.Run α} (h : g.isSome = true ∨ Quiet idle p) {Q : α → Passed → Prop}
    (hQ : ∀ a, Q a g) : Allowed monitor passed (lift p) Q g := by
  induction p with
  | ret a => exact hQ a
  | call c k ih =>
    refine ⟨fun hs => h.resolve_right fun hq => ?_, fun b s => ih b (h.imp_right fun hq => hq.2 b)⟩
    have hidle : starts (.processing c) = false := hq.1 ()
    rw [hs] at hidle
    cases hidle

theorem allowed_inline {p : Retrying.Run α} {Q : α → Passed → Prop}
    (h : Allowed watcherMonitor watcherPassed p Q g) : Allowed monitor passed (inline p) Q g := by
  induction p generalizing g with
  | ret a => exact h
  | call c k ih =>
    cases c with
    | processing p =>
      refine Allowed.bind (Q := fun _ g' => g' = g) (allowed_lift h.1 fun _ => rfl) fun b g' hg => ?_
      subst hg
      exact ih b (h.2 b (.initial 0))
    | _ => exact ⟨h.1, fun b s => ih b (h.2 b s)⟩

/-- Past a check, everything is allowed. -/
theorem allowed_task (hg : g.isSome = true) (p : WatcherTask α) {Q : α → Passed → Prop}
    (hQ : ∀ a g, g.isSome = true → Q a g) : Allowed monitor passed p Q g := by
  induction p generalizing g with
  | ret a => exact hQ a g hg
  | call c k ih => exact ⟨fun _ => hg, fun b s => ih b (next_isSome hg c b s)⟩

theorem allowed_watcher (hg : g.isSome = true) (p : Retrying.Run α) {Q : α → Passed → Prop}
    (hQ : ∀ a g, g.isSome = true → Q a g) : Allowed watcherMonitor watcherPassed p Q g := by
  induction p generalizing g with
  | ret a => exact hQ a g hg
  | call c k ih =>
    refine ⟨?_, fun b s => ih b (next_isSome hg (.issue c) b s)⟩
    cases c with
    | processing p => exact .inl hg
    | _ => exact fun _ => hg

abbrev Done {α : Type} (_ : α) (_ : Passed) : Prop := True

/-- A check that is passed admits the rest. -/
theorem allowed_check {f : Bool → WatcherTask α} (ht : ∀ g, Allowed monitor passed (f true) Done g) :
    Allowed monitor passed (isRateLimitPaused >>= f) Done g := by
  refine allowed_call (fun h => Bool.noConfusion h) fun b s => ?_
  cases b with
  | true => exact ht _
  | false => exact allowed_task rfl _ fun _ _ _ => trivial

theorem allowed_watcherCheck {f : Bool → Retrying.Run α}
    (ht : ∀ g, Allowed watcherMonitor watcherPassed (f true) Done g) :
    Allowed watcherMonitor watcherPassed (Retrying.ask .isRateLimitPaused >>= f) Done g := by
  refine allowed_call (fun h => Bool.noConfusion h) fun b s => ?_
  cases b with
  | true => exact ht _
  | false => exact allowed_watcher rfl _ fun _ _ _ => trivial

section Watcher

variable {source : String} {issue : Issue} {reviewFeedback existingPrBranch prRepo : Option String}
  {intent : Option Intent} {admission : Retrying.Admission} {request : Retrying.SecurityFixRequest}
  {attempt : FixAttempt}

theorem quiet_belongsToSecurityInbox (P : Processing.IssueProcessor) (issue : Issue) :
    Quiet idle (P.belongsToSecurityInbox issue) := by
  unfold Processing.IssueProcessor.belongsToSecurityInbox Processing.IssueProcessor.hasSecurityReport
  split
  · exact trivial
  · split
    · refine ⟨fun _ => rfl, fun b => ?_⟩
      cases b <;> exact trivial
    · exact trivial

theorem allowed_askDeployQa {c : Retrying.Outer Bool} (hc : ∀ g, passed g (.issue (.outer c)))
    {f : Bool → Retrying.Run α} (h : ∀ b g, Allowed watcherMonitor watcherPassed (f b) Done g) :
    Allowed watcherMonitor watcherPassed (Watcher.askDeployQa source c >>= f) Done g := by
  unfold Watcher.askDeployQa
  split
  · exact allowed_call (hc g) fun b s => h b _
  · exact h true g

theorem allowed_processIssue : Allowed watcherMonitor watcherPassed (w.processIssue U source issue
    reviewFeedback existingPrBranch prRepo intent admission) Done g := by
  unfold Watcher.processIssue
  refine allowed_call (.inr (quiet_belongsToSecurityInbox w.processor issue)) fun b s => ?_
  split
  · exact trivial
  · refine allowed_askDeployQa (fun _ h => Bool.noConfusion h) fun b g => ?_
    split
    · exact trivial
    · exact allowed_watcherCheck fun _ => trivial

theorem allowed_runSecurityFixRequest :
    Allowed watcherMonitor watcherPassed (w.runSecurityFixRequest U request admission) Done g :=
  allowed_watcherCheck fun _ => trivial

theorem allowed_startSecurityFix :
    Allowed watcherMonitor watcherPassed (startSecurityFix U w request) Done g :=
  allowed_watcherCheck fun _ => trivial

theorem allowed_failRetry {error : String} :
    Allowed watcherMonitor watcherPassed (Watcher.failRetry attempt error) Done g := by
  refine allowed_call (fun h => Bool.noConfusion h) fun b s => ?_
  cases b with
  | error e => exact trivial
  | ok _ => exact allowed_call (fun h => Bool.noConfusion h) fun _ _ => trivial

theorem allowed_markRetryFailed {error : String} :
    Allowed watcherMonitor watcherPassed (Watcher.markRetryFailed attempt error) Done g :=
  allowed_call (fun h => Bool.noConfusion h) fun _ _ => trivial

theorem allowed_refundRateLimitedRetry :
    Allowed watcherMonitor watcherPassed (Watcher.refundRateLimitedRetry U attempt) Done g := by
  refine allowed_call (fun h => Bool.noConfusion h) fun b s => ?_
  split
  · exact allowed_perform (fun h => Bool.noConfusion h) fun _ _ => trivial
  · exact trivial

/-- What becomes of a retry is only recorded. -/
theorem allowed_retryOutcome (r : IssueRun × Retrying.Spend) :
    Allowed watcherMonitor watcherPassed (Watcher.retryOutcome U attempt r) Done g := by
  unfold Watcher.retryOutcome
  split
  · exact allowed_refundRateLimitedRetry.bind fun _ _ _ => trivial
  · exact trivial
  · exact trivial
  · exact allowed_call (fun h => Bool.noConfusion h) fun _ _ => trivial
  · exact trivial
  · exact trivial
  · exact trivial
  · exact trivial
  · exact trivial
  · exact allowed_markRetryFailed
  · exact allowed_failRetry

theorem allowed_retrySecurityFix :
    Allowed watcherMonitor watcherPassed (w.retrySecurityFix U attempt) Done g := by
  refine allowed_call (fun h => Bool.noConfusion h) fun b s => ?_
  split
  · exact trivial
  · refine (Watcher.allowed_securityFixRequest fun _ h => Bool.noConfusion h).bind fun r g _ => ?_
    cases r with
    | error e => exact allowed_failRetry
    | ok request => exact allowed_runSecurityFixRequest.bind fun r g _ => allowed_retryOutcome r

theorem allowed_retryIssue : Allowed watcherMonitor watcherPassed (w.retryIssue U attempt) Done g := by
  unfold Watcher.retryIssue
  split
  · refine allowed_call (fun h => Bool.noConfusion h) fun b s => ?_
    cases b with
    | ok issue => exact allowed_processIssue.bind fun r g _ => allowed_retryOutcome r
    | error e =>
      simp only
      split
      · exact trivial
      · exact allowed_failRetry
  · exact allowed_failRetry

theorem allowed_retryAttempt :
    Allowed watcherMonitor watcherPassed (w.retryAttempt U attempt) Done g := by
  refine allowed_call (fun h => Bool.noConfusion h) fun b s => ?_
  split
  · exact trivial
  · split
    · exact allowed_retrySecurityFix
    · exact allowed_retryIssue

end Watcher

theorem allowed_pollSource (options : PollOptions) :
    Allowed monitor passed (pollSource options) Done g := by
  unfold pollSource isPollPaused
  split
  · exact trivial
  · exact allowed_check fun _ => trivial

theorem allowed_dispatchLane {source : String} {isQa : Bool} {rounds : Nat}
    {items : List (Issue × Option Intent)} :
    Allowed monitor passed (dispatchLane source isQa rounds items) Done g := by
  refine allowed_forWhile (fun item _ g _ => ?_) trivial
  refine allowed_call (fun h => Bool.noConfusion h) fun b s => ?_
  split
  · exact trivial
  · exact allowed_check fun _ => trivial

theorem allowed_processReadyRetries {rounds : Nat} :
    Allowed monitor passed (processReadyRetries U w rounds) Done g := by
  exact allowed_check fun _ => trivial

theorem allowed_processSecurityIssue {source : String} {issue : Issue} :
    Allowed monitor passed (processSecurityIssue U w source issue) Done g := by
  refine allowed_call (fun h => Bool.noConfusion h) fun b s => ?_
  split
  · exact trivial
  · exact allowed_check fun _ => trivial

theorem allowed_toUnit {p : WatcherTask α} (h : Allowed monitor passed p Done g) :
    Allowed monitor passed (toUnit p) Done g := h.bind fun _ _ _ => trivial

theorem allowed_program (job : Job) : Allowed monitor passed (job.program U w) Done none := by
  cases job with
  | pollSource options => exact allowed_pollSource options
  | dispatchLane source isQa rounds items => exact allowed_dispatchLane
  | processReadyRetries rounds => exact allowed_processReadyRetries
  | processIssue source issue reviewFeedback existingPrBranch prRepo intent admission =>
    exact allowed_toUnit (allowed_inline allowed_processIssue)
  | retry attempt => exact allowed_toUnit (allowed_inline allowed_retryAttempt)
  | startSecurityFix request => exact allowed_toUnit (allowed_inline allowed_startSecurityFix)
  | processSecurityIssue source issue => exact allowed_toUnit allowed_processSecurityIssue

/-! ## The invariant -/

/-- What the threads' notes say of the pauses. -/
structure Inv (name : String) (s : Pauses) (notes : Nat → Passed) : Prop where
  /-- A pause is in force, or over. -/
  kept : ∀ u ∈ s.recorded, u ≤ s.now ∨ ∃ v, s.get name = some v ∧ u ≤ v
  entries : ∀ e ∈ s.until_, e.2 ∈ s.recorded
  /-- The pauses recorded before a check that was passed are over. -/
  past : ∀ t n, notes t = some n → n ≤ s.recorded.length ∧ ∀ u ∈ s.recorded.take n, u ≤ s.now

variable {s : Pauses} {name : String} {notes : Nat → Passed} {config : Config} {u : Instant}

theorem Inv.update (h : Inv name s notes) (t : Nat)
    (hg : ∀ n, g = some n → n ≤ s.recorded.length ∧ ∀ u ∈ s.recorded.take n, u ≤ s.now) :
    Inv name s (Function.update notes t g) where
  kept := h.kept
  entries := h.entries
  past u n hn := by
    by_cases hu : u = t
    · subst hu
      rw [Function.update_self] at hn
      exact hg n hn
    · rw [Function.update_of_ne hu] at hn
      exact h.past u n hn

theorem Inv.elapse (h : Inv name s notes) (elapsed : Instant) :
    Inv name { s with now := s.now + elapsed } notes where
  kept u hu := (h.kept u hu).imp_left fun hu => Nat.le_add_right_of_le hu
  entries := h.entries
  past t n hn := (h.past t n hn).imp_right fun ho u hu => Nat.le_add_right_of_le (ho u hu)

theorem get_insert (s : Pauses) (provider : String) (u : Instant) :
    (s.insert provider u).get provider = some u := by
  rw [Pauses.get, Pauses.insert, List.lookup_cons_self]

/-- Where the check is passed, every recorded pause is over. -/
theorem Inv.check (h : Inv name s notes) (hc : (s.isProviderRateLimitedFor name).1 = false) :
    ∀ u ∈ s.recorded, u ≤ s.now := by
  intro u hu
  rcases h.kept u hu with hu | ⟨v, hv, huv⟩
  · exact hu
  · rw [Pauses.isProviderRateLimitedFor, hv] at hc
    simp only at hc
    split at hc
    · cases hc
    · rename_i hn
      exact huv.trans (Nat.le_of_not_lt hn)

/-- Checking removes what has expired, and nothing else. -/
theorem Inv.checked (h : Inv name s notes) : Inv name (s.isProviderRateLimitedFor name).2 notes := by
  unfold Pauses.isProviderRateLimitedFor
  split
  · rename_i v hv
    split
    · exact h
    · rename_i hn
      refine ⟨fun u hu => .inl ?_, fun e he => h.entries e (List.mem_filter.mp he).1, h.past⟩
      rcases h.kept u hu with hu | ⟨v', hv', huv⟩
      · exact hu
      · obtain rfl := Option.some.inj (hv.symm.trans hv')
        exact huv.trans (Nat.le_of_not_lt hn)
  · exact h

theorem recorded_check (s : Pauses) (name : String) :
    (s.isProviderRateLimitedFor name).2.recorded = s.recorded ∧
      (s.isProviderRateLimitedFor name).2.now = s.now := by
  unfold Pauses.isProviderRateLimitedFor
  split
  · split <;> exact ⟨rfl, rfl⟩
  · exact ⟨rfl, rfl⟩

/-- A pause is recorded, and those that are recorded last as long as before. -/
theorem pause_spec (s : Pauses) (name : String) (parsed : Option Instant) :
    ∃ u, (s.pauseUntilRateLimitReset name parsed).recorded = s.recorded ++ [u] ∧
      (s.pauseUntilRateLimitReset name parsed).now = s.now ∧
      (s.pauseUntilRateLimitReset name parsed).get name = some u ∧
      (∀ v, s.get name = some v → v ≤ u) ∧
      ∀ e ∈ (s.pauseUntilRateLimitReset name parsed).until_, e ∈ s.until_ ∨ e = (name, u) := by
  unfold Pauses.pauseUntilRateLimitReset
  simp only
  generalize parsed.getD (s.now + 15 * MINUTE) + MINUTE = target
  have hinsert : ∀ e ∈ (s.insert name target).until_, e ∈ s.until_ ∨ e = (name, target) := by
    intro e he
    rcases List.mem_cons.mp he with rfl | he
    · exact .inr rfl
    · exact .inl (List.mem_filter.mp he).1
  split
  · rename_i current hcurrent
    split
    · refine ⟨current, rfl, rfl, hcurrent, fun v hv => ?_, fun e he => .inl he⟩
      exact (Option.some.inj (hv.symm.trans hcurrent)).le
    · rename_i hn
      refine ⟨target, rfl, rfl, get_insert s name target, fun v hv => ?_, hinsert⟩
      obtain rfl := Option.some.inj (hv.symm.trans hcurrent)
      exact Nat.le_of_not_le hn
  · rename_i hnone
    refine ⟨target, rfl, rfl, get_insert s name target, fun v hv => ?_, hinsert⟩
    rw [hnone] at hv
    cases hv

theorem Inv.pause (h : Inv name s notes) (parsed : Option Instant) :
    Inv name (s.pauseUntilRateLimitReset name parsed) notes := by
  obtain ⟨u, hrecorded, hnow, hget, hlonger, hentries⟩ := pause_spec s name parsed
  refine ⟨fun v hv => ?_, fun e he => ?_, fun t n hn => ?_⟩
  · rw [hrecorded, List.mem_append, List.mem_singleton] at hv
    rcases hv with hv | rfl
    · rcases h.kept v hv with hv | ⟨v', hv', hle⟩
      · exact .inl (hnow ▸ hv)
      · exact .inr ⟨u, hget, hle.trans (hlonger v' hv')⟩
    · exact .inr ⟨v, hget, le_rfl⟩
  · rw [hrecorded, List.mem_append, List.mem_singleton]
    rcases hentries e he with he | rfl
    · exact .inl (h.entries e he)
    · exact .inr rfl
  · obtain ⟨hle, ho⟩ := h.past t n hn
    rw [hrecorded, hnow, List.length_append, List.take_append_of_le_length hle]
    exact ⟨Nat.le_add_right_of_le hle, ho⟩

/-! ## Runs -/

section Runs

variable {extract : String → Instant → Option Instant} {world : World Call Pauses Passed}
  {move : Move Answers Job Elapse}

/-- The pauses an undisturbed check, a pause and everything else leave. -/
theorem Inv.call (h : Inv config.defaultProvider s notes) (hname : config.agent.name = config.defaultProvider)
    (t : Nat) (env : Answers) (c : Call β) :
    let r := answer config extract env c s
    Inv config.defaultProvider r.2 (Function.update notes t (monitor.next (notes t) c r.1 r.2)) := by
  intro r
  have hkeep : ∀ {s'}, Inv config.defaultProvider s' notes →
      Inv config.defaultProvider s' (Function.update notes t (notes t)) := by
    intro s' h'
    rwa [Function.update_eq_self]
  have hother : r.2 = s → monitor.next (notes t) c r.1 r.2 = notes t →
      Inv config.defaultProvider r.2 (Function.update notes t (monitor.next (notes t) c r.1 r.2)) := by
    intro hs hg
    rw [hs] at hg ⊢
    rw [hg]
    exact hkeep h
  cases c with
  | issue c =>
    cases c with
    | outer c =>
      cases c with
      | isRateLimitPaused =>
        have hchecked := h.checked
        cases hb : (s.isProviderRateLimitedFor config.defaultProvider).1 with
        | true =>
          have hr : r = (true, (s.isProviderRateLimitedFor config.defaultProvider).2) := by
            rw [← hb]
            rfl
          rw [hr]
          exact hkeep hchecked
        | false =>
          have hr : r = (false, (s.isProviderRateLimitedFor config.defaultProvider).2) := by
            rw [← hb]
            rfl
          rw [hr]
          refine hchecked.update t fun n hn => ?_
          obtain rfl := Option.some.inj hn
          obtain ⟨hrecorded, hnow⟩ := recorded_check s config.defaultProvider
          refine ⟨le_rfl, fun u hu => ?_⟩
          rw [List.take_length, hrecorded] at hu
          rw [hnow]
          exact h.check hb u hu
      | pauseUntilRateLimitReset error =>
        have hpause : Inv config.defaultProvider
            (s.pauseUntilRateLimitReset config.agent.name (extract error s.now)) notes := by
          rw [hname]
          exact h.pause _
        exact hkeep hpause
      | _ => exact hother rfl rfl
    | _ => exact hother rfl rfl
  | _ => exact hother rfl rfl

theorem sound_step (h : Pool.Sound monitor passed (Inv config.defaultProvider) world)
    (hname : config.agent.name = config.defaultProvider) :
    Pool.Sound monitor passed (Inv config.defaultProvider)
      ((pool config extract U w).step monitor world move) := by
  refine h.step move allowed_program (fun s n t hI => hI.update t nofun)
    (fun t job _ => h.inv.update t nofun) (fun t env β c k _ _ _ => h.inv.call hname t env c)
    fun op _ => h.inv.elapse op

theorem sound_initial (now : Instant) :
    Pool.Sound monitor passed (Inv name) (Pool.initial monitor (.initial now)) where
  inv := ⟨nofun, nofun, nofun⟩
  allowed _ := trivial

/-- What is seen of the pauses from outside. -/
inductive Sight where
  | started
  | refused
  deriving DecidableEq

def sight {β : Type} : Call β → β → Option Sight
  | .issue (.outer .isRateLimitPaused), true | .isProviderRateLimited, true => some .refused
  | c, _ => if starts c then some .started else none

variable (config extract U w)

/-- No pause has been recorded since the check before what an agent is started for. -/
def Undisturbed (world : World Call Pauses Passed) (move : Move Answers Job Elapse) : Prop :=
  ∀ x ∈ (pool config extract U w).observe sight world move, x.2 = .started →
    world.note x.1 = some world.shared.recorded.length

/-- Agents are started when every recorded pause is over, and only a recorded pause that is not over
keeps one back. -/
structure Honoured (world : World Call Pauses Passed) (move : Move Answers Job Elapse) : Prop where
  started : ∀ x ∈ (pool config extract U w).observe sight world move, x.2 = .started →
    ∀ u ∈ world.shared.recorded, u ≤ world.shared.now
  refused : ∀ x ∈ (pool config extract U w).observe sight world move, x.2 = .refused →
    ∃ u ∈ world.shared.recorded, world.shared.now < u

variable {config extract U w}

theorem not_honoured {world : World Call Pauses Passed} {move : Move Answers Job Elapse} {t u : Nat}
    (h : (t, .started) ∈ (pool config extract U w).observe sight world move ∧ u ∈ world.shared.recorded ∧
      world.shared.now < u) : ¬ Honoured U w config extract world move :=
  fun hh => Nat.not_lt.mpr (hh.started _ h.1 rfl u h.2.1) h.2.2

theorem mem_of_get (h : s.get name = some u) : (name, u) ∈ s.until_ := by
  obtain ⟨l, l', hl, -⟩ := List.lookup_eq_some_iff.mp h
  rw [hl]
  exact List.mem_append_right _ List.mem_cons_self

theorem Inv.refused (h : Inv name s notes) {provider : String}
    (hc : (s.isProviderRateLimitedFor provider).1 = true) : ∃ u ∈ s.recorded, s.now < u := by
  unfold Pauses.isProviderRateLimitedFor at hc
  split at hc
  · rename_i u hu
    split at hc
    · rename_i hlt
      exact ⟨u, h.entries _ (mem_of_get hu), hlt⟩
    · cases hc
  · cases hc

theorem Inv.waiting (h : Inv name s notes) (hc : s.isProviderRateLimited = true) :
    ∃ u ∈ s.recorded, s.now < u := by
  obtain ⟨e, he, hlt⟩ := List.any_eq_true.mp hc
  exact ⟨e.2, h.entries e he, of_decide_eq_true hlt⟩

/-- Nothing is refused but by the two questions whether there is a pause. -/
theorem Inv.sight_refused (h : Inv name s notes) {env : Answers} {c : Call β}
    (hc : sight c (answer config extract env c s).1 = some .refused) :
    ∃ u ∈ s.recorded, s.now < u := by
  unfold sight at hc
  split at hc
  · rename_i hb
    exact h.refused hb
  · rename_i hb
    exact h.waiting hb
  · split at hc <;> cases hc

/-- Where no pause is recorded between a task's check and the agent it starts, a pause is honoured if
it is recorded by the name of the default provider. -/
theorem pause_honoured (U : CaseProps) (w : Watcher) (config : Config)
    (extract : String → Instant → Option Instant) (now : Instant) (hname : config.agent.name = config.defaultProvider)
    (l : List (Move Answers Job Elapse))
    (h : Along ((pool config extract U w).step monitor) (Undisturbed U w config extract)
      (Pool.initial monitor (.initial now)) l) :
    Along ((pool config extract U w).step monitor) (Honoured U w config extract)
      (Pool.initial monitor (.initial now)) l := by
  refine h.along (P := Pool.Sound monitor passed (Inv config.defaultProvider))
    (fun world move hw _ => sound_step hw hname) (fun world move hw hu => ⟨?_, ?_⟩) (sound_initial now)
  · intro x hx hstarted u hmem
    obtain ⟨-, hover⟩ := hw.inv.past x.1 _ (hu x hx hstarted)
    rw [List.take_length] at hover
    exact hover u hmem
  · rintro ⟨t, x⟩ hx rfl
    obtain ⟨env, β, c, k, rfl, hp, hsight⟩ := Pool.observe_eq_some hx
    exact hw.inv.sight_refused hsight

instance (world : World Call Pauses Passed) (move : Move Answers Job Elapse) :
    Decidable (Undisturbed U w config extract world move) :=
  inferInstanceAs (Decidable (∀ x ∈ _, _))

end Runs

/-! ## Courses -/

/-- The surroundings of a watcher whose agent ends with `result`. -/
def surroundings (result : Processing.AgentResult) : Answers
  | _, .issue (.outer c) => Retrying.workingWorld.outer 0 c
  | _, .issue (.prepareRetry _) => .ok ()
  | _, .issue (.recordAttemptWithLabels ..) => ()
  | _, .issue (.markDeclined ..) => ()
  | _, .issue (.markFailed ..) => ()
  | _, .issue (.markFailedUncharged ..) => ()
  | _, .issue (.getAttempt _) => none
  | _, .issue (.processing p) =>
    (Prog.eval (Processing.serve (Processing.calmWorld result)) p { table := tracked [] }).1
  | _, .processing c => (Processing.serve (Processing.calmWorld result) c { table := tracked [] }).1
  | _, .isRunning => true
  | _, .isProviderRateLimited => false
  | _, .fetchCandidates _ => .ok []
  | _, .classifyIntent _ => none
  | _, .getReadyRetries => .ok []
  | _, .isProcessing _ => false
  | _, .hasSlot .. => true
  | _, .slotReleased => ()
  | _, .dispatchLanes _ => ()
  | _, .spawn .. => ()
  | _, .recordRetry .. => ()
  | _, .route _ => .done ""

def limited : Processing.AgentResult := { success := false, error := some "usage limit reached" }

/-- Thread `t` works on the issue; the agent ends with `result`. -/
def works (t : Nat) (result : Processing.AgentResult) : List (Move Answers Job Elapse) :=
  .start t (.processIssue "linear" Processing.oneInput.issue none none none none none) ::
    List.replicate 40 (.go t (surroundings result))

def plainPool (config : Config) : Pool Call Pauses Answers Job Elapse :=
  pool config (fun _ _ => none) Retrying.uncased Retrying.plainWatcher

def plainRun (config : Config) (l : List (Move Answers Job Elapse)) : World Call Pauses Passed :=
  run ((plainPool config).step monitor) (Pool.initial monitor (.initial 0)) l

/-- An agent runs into the limit, the next issue is refused, and the one after the pause is admitted. -/
def onePause : List (Move Answers Job Elapse) :=
  works 0 limited ++ works 1 Processing.opensPr ++ .outside (16 * MINUTE) :: works 2 Processing.opensPr

theorem pause_honoured_once :
    let P := plainPool ⟨.claude, "claude"⟩
    let s := Pool.initial monitor (.initial 0)
    Along (P.step monitor) (Honoured Retrying.uncased Retrying.plainWatcher ⟨.claude, "claude"⟩
      (fun _ _ => none)) s onePause ∧
    seen (P.step monitor) (P.observe sight) s onePause =
      [(0, .started), (0, .started), (1, .refused), (2, .started), (2, .started)] := by
  refine ⟨?_, by decide +kernel⟩
  exact pause_honoured Retrying.uncased Retrying.plainWatcher ⟨.claude, "claude"⟩ (fun _ _ => none) 0 rfl
    onePause (by decide +kernel)

/-- Behind an orchestrator, the pause is recorded by a name that no check asks for. -/
def behindOrchestrator : List (Move Answers Job Elapse) :=
  works 0 limited ++ (works 1 Processing.opensPr).take 5

/-- Thread 1 passes its check before the pause is recorded. -/
def besideOther : List (Move Answers Job Elapse) :=
  (works 0 limited).take 10 ++ (works 1 Processing.opensPr).take 5 ++ (works 0 limited).drop 10

/-- Both times an agent is started while the pause lasts. -/
theorem pause_ignored :
    ¬ Honoured Retrying.uncased Retrying.plainWatcher ⟨.orchestrator [.claude, .codex], "claude"⟩
      (fun _ _ => none) (plainRun ⟨.orchestrator [.claude, .codex], "claude"⟩ behindOrchestrator)
      (.go 1 (surroundings Processing.opensPr)) ∧
    ¬ Honoured Retrying.uncased Retrying.plainWatcher ⟨.claude, "claude"⟩
      (fun _ _ => none) (plainRun ⟨.claude, "claude"⟩ besideOther)
      (.go 1 (surroundings Processing.opensPr)) := by
  constructor
  · exact not_honoured (t := 1) (u := 16 * MINUTE) (by decide +kernel)
  · exact not_honoured (t := 1) (u := 16 * MINUTE) (by decide +kernel)

end Claudear.Engine.RateLimit
