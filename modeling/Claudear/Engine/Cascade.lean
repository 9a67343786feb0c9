import Claudear.Machine.Prog
import Claudear.Storage.Tracker

/-!
# Cascades to downstream repositories

The watcher follows up a merged pull request or a release in every repository
that depends on the one it is in: `trigger_cascade` looks the dependants up,
records an attempt for each, with the attempt it follows from as its parent,
and runs the agent there. The depth of an attempt is the length of its chain of
parents; `get_cascade_depth` walks the chain.

`Req` is what the watcher asks of the tracker, the code host, the repository
index and the agent while it looks after pull requests.
-/

namespace Claudear.Storage.FixAttempts

open Claudear.Sql

/-! ## Queries about pull requests -/

/-- `ORDER BY attempted_at DESC` -/
def newestFirst (l : List (Nat × AttemptRow)) : List (Nat × AttemptRow) :=
  l.insertionSort fun a b => b.2.attemptedAt ≤ a.2.attemptedAt

/-- `status = 'success' AND pr_url IS NOT NULL AND scm_repo IS NOT NULL` -/
def pendingPr (r : Nat × AttemptRow) : Bool :=
  r.2.status = .success && r.2.prUrl.isSome && r.2.scmRepo.isSome

def getPendingPrs (t : FixAttempts) : List FixAttempt :=
  (newestFirst (t.select pendingPr)).map rowToFixAttempt

def getAttemptById (t : FixAttempts) (id : Nat) : Option FixAttempt :=
  (t.get id).map fun r => rowToFixAttempt (id, r)

/-- `ORDER BY merged_at DESC`, where NULL is the smallest value. -/
def mergedLater (a b : Nat × AttemptRow) : Bool :=
  match a.2.mergedAt, b.2.mergedAt with
  | _, none => true
  | none, some _ => false
  | some a, some b => b ≤ a

def getMostRecentMergedAttemptForRepo (t : FixAttempts) (scmRepo : String) : Option FixAttempt :=
  ((t.select fun r => r.2.scmRepo = some scmRepo && r.2.status = .merged).insertionSort
    fun a b => mergedLater a b = true).head?.map rowToFixAttempt

def getAttemptsByStatus (t : FixAttempts) (status : FixAttemptStatus) : List FixAttempt :=
  (newestFirst (t.select fun r => r.2.status = status)).map rowToFixAttempt

theorem mem_newestFirst {l : List (Nat × AttemptRow)} {r : Nat × AttemptRow} :
    r ∈ newestFirst l ↔ r ∈ l := List.mem_insertionSort _

theorem mem_getPendingPrs {t : FixAttempts} {a : FixAttempt} :
    a ∈ t.getPendingPrs ↔
      ∃ i r, t.get i = some r ∧ pendingPr (i, r) = true ∧ rowToFixAttempt (i, r) = a := by
  simp only [getPendingPrs, List.mem_map, mem_newestFirst, Prod.exists, Table.mem_select, and_assoc]

theorem nodup_getPendingPrs (t : FixAttempts) : (t.getPendingPrs.map FixAttempt.id).Nodup := by
  have hmap : t.getPendingPrs.map FixAttempt.id = (newestFirst (t.select pendingPr)).map Prod.fst := by
    rw [getPendingPrs, List.map_map]
    rfl
  rw [hmap]
  exact ((List.perm_insertionSort _ _).map Prod.fst).nodup_iff.mpr (Table.nodup_select t _)

theorem getMostRecentMergedAttemptForRepo_eq_some {t : FixAttempts} {scmRepo : String}
    {a : FixAttempt} (h : t.getMostRecentMergedAttemptForRepo scmRepo = some a) :
    ∃ i r, t.get i = some r ∧ r.status = .merged ∧ rowToFixAttempt (i, r) = a := by
  obtain ⟨⟨i, r⟩, hr, rfl⟩ := Option.map_eq_some_iff.mp h
  have hm := (List.mem_insertionSort _).mp (List.mem_of_head? hr)
  obtain ⟨hi, hs⟩ := Table.mem_select.mp hm
  rw [Bool.and_eq_true, decide_eq_true_eq, decide_eq_true_eq] at hs
  exact ⟨i, r, hi, hs.2, rfl⟩

theorem mem_getAttemptsByStatus {t : FixAttempts} {status : FixAttemptStatus} {a : FixAttempt} :
    a ∈ t.getAttemptsByStatus status ↔
      ∃ i r, t.get i = some r ∧ r.status = status ∧ rowToFixAttempt (i, r) = a := by
  simp only [getAttemptsByStatus, List.mem_map, mem_newestFirst, Prod.exists, Table.mem_select,
    decide_eq_true_eq, and_assoc]

end Claudear.Storage.FixAttempts

universe u

namespace Claudear.Engine.PullRequests

open Claudear.Sql Claudear.Storage Claudear.Machine

inductive PrStatus where
  | opened | merged | closed
  deriving DecidableEq, Repr

/-- What a run of the agent ends with. -/
structure AgentResult where
  success : Bool
  prUrl : Option String := none
  output : String := ""
  error : Option String := none
  deriving DecidableEq, Repr

/-- Calls whose outcome nothing depends on. -/
inductive Effort where
  | recordActivity (activityType : String)
  | updateQaOutcomeStats (attemptId : Nat) (merged : Bool)
  | upsertPrMerged (prUrl : String)
  | notify (k : IssueKey)
  | fixShippedReply (k : IssueKey)
  | recordFeedbackOutcome (attemptId : Nat)
  | postMergeLearning (attemptId : Nat)
  | watchPr (prUrl : String)
  | unwatchPr (prUrl : String)
  | triggering (attemptId : Nat)
  | recordMetric (name : String)
  | releaseSeen (upstream tag : String)
  deriving DecidableEq, Repr

inductive Req : Type → Type where
  | isRunning : Req Bool
  | getPendingPrs : Req (Except Error (List FixAttempt))
  | getAttemptById (id : Nat) : Req (Except Error (Option FixAttempt))
  | getMostRecentMergedAttemptForRepo (scmRepo : String) : Req (Except Error (Option FixAttempt))
  | getAttemptsByStatus (status : FixAttemptStatus) : Req (Except Error (List FixAttempt))
  | recordCascadeAttempt (k : IssueKey) (shortId : String) (parentAttemptId : Nat)
      (cascadeRepo : String) : Req (Except Error Nat)
  | markMerged (k : IssueKey) : Req (Except Error Unit)
  | markClosed (k : IssueKey) : Req (Except Error Unit)
  | markResolved (k : IssueKey) : Req (Except Error Unit)
  | markCascadePrOutcome (attemptId : Nat) (merged : Bool) : Req (Except Error Unit)
  | markCascadeFailed (attemptId : Nat) (error : String) : Req (Except Error Unit)
  | updateAttemptPr (attemptId : Nat) (prUrl scmRepo : String) (prNumber : Int) :
      Req (Except Error Unit)
  | createRegressionWatch (issueId : String) (fixAttemptId : Nat) : Req (Except Error Unit)
  | getPrStatus (scmRepo : String) (prNumber : Int) : Req (Except Unit PrStatus)
  | getLatestRelease (upstream : String) : Req (Except Unit (Option String))
  | lastSeenRelease (upstream : String) : Req (Option String)
  | resolveIssue (k : IssueKey) : Req (Except Unit Unit)
  | resolveRepoForCascade (name : String) : Req (Option String)
  | createWorktree (name cascadeId : String) : Req (Except Error Unit)
  | execute (attemptId : Nat) : Req (Except Error AgentResult)
  | effort (e : Effort) : Req Unit

/-- What the world decides about a call: the time, a failure, and the answers from outside. -/
structure Env where
  now : Timestamp
  error : Option Error := none
  running : Bool := true
  prStatus : Except Unit PrStatus := .ok .opened
  release : Except Unit (Option String) := .ok none
  lastSeen : Option String := none
  resolved : Except Unit Unit := .ok ()
  cascadeUrl : Option String := none
  agent : AgentResult := { success := false }

def Env.stored (env : Env) {α : Type} (f : FixAttempts → α × FixAttempts) (t : FixAttempts) :
    Except Error α × FixAttempts :=
  match env.error with
  | some e => (.error e, t)
  | none => ((.ok (f t).1), (f t).2)

/-- A call of the tracker either fails, and changes nothing, or does what it says. -/
def Req.answer {β : Type} (env : Env) : Req β → FixAttempts → β × FixAttempts
  | .isRunning, t => (env.running, t)
  | .getPendingPrs, t => env.stored (fun t => (t.getPendingPrs, t)) t
  | .getAttemptById id, t => env.stored (fun t => (t.getAttemptById id, t)) t
  | .getMostRecentMergedAttemptForRepo scmRepo, t =>
    env.stored (fun t => (t.getMostRecentMergedAttemptForRepo scmRepo, t)) t
  | .getAttemptsByStatus status, t => env.stored (fun t => (t.getAttemptsByStatus status, t)) t
  | .recordCascadeAttempt k shortId parentAttemptId cascadeRepo, t =>
    match env.error, t.recordCascadeAttempt env.now k shortId parentAttemptId cascadeRepo with
    | some e, _ => (.error e, t)
    | none, .ok (id, t') => (.ok id, t')
    | none, .error e => (.error e, t)
  | .markMerged k, t => env.stored (fun t => ((), t.markMerged env.now k)) t
  | .markClosed k, t => env.stored (fun t => ((), t.markClosed k)) t
  | .markResolved k, t => env.stored (fun t => ((), t.markResolved env.now k)) t
  | .markCascadePrOutcome attemptId merged, t =>
    env.stored (fun t => ((), t.markCascadePrOutcome env.now attemptId merged)) t
  | .markCascadeFailed attemptId error, t =>
    env.stored (fun t => ((), t.markCascadeFailed attemptId error)) t
  | .updateAttemptPr attemptId prUrl scmRepo prNumber, t =>
    env.stored (fun t => ((), t.updateAttemptPr attemptId prUrl scmRepo prNumber)) t
  | .createRegressionWatch .., t => env.stored (fun t => ((), t)) t
  | .getPrStatus .., t => (env.prStatus, t)
  | .getLatestRelease _, t => (env.release, t)
  | .lastSeenRelease _, t => (env.lastSeen, t)
  | .resolveIssue _, t => (env.resolved, t)
  | .resolveRepoForCascade _, t => (env.cascadeUrl, t)
  | .createWorktree .., t => env.stored (fun t => ((), t)) t
  | .execute _, t => env.stored (fun t => (env.agent, t)) t
  | .effort _, t => ((), t)

/-- The tracker's writer a call is a call of. -/
def Req.writes {β : Type} : Req β → Option TrackerOp
  | .recordCascadeAttempt k shortId parentAttemptId cascadeRepo =>
    some (.recordCascadeAttempt k shortId parentAttemptId cascadeRepo)
  | .markMerged k => some (.markMerged k)
  | .markClosed k => some (.markClosed k)
  | .markResolved k => some (.markResolved k)
  | .markCascadePrOutcome attemptId merged => some (.markCascadePrOutcome attemptId merged)
  | .markCascadeFailed attemptId error => some (.markCascadeFailed attemptId error)
  | .updateAttemptPr attemptId prUrl scmRepo prNumber =>
    some (.updateAttemptPr attemptId prUrl scmRepo prNumber)
  | _ => none

theorem Env.stored_snd (env : Env) {α : Type} (f : FixAttempts → α × FixAttempts) (t : FixAttempts) :
    (env.stored f t).2 = t ∨ (env.stored f t).2 = (f t).2 := by
  unfold Env.stored
  split
  · exact .inl rfl
  · exact .inr rfl

/-- A call leaves the table as it is, or is a call of its writer. -/
theorem answer_snd {β : Type} (env : Env) (c : Req β) (t : FixAttempts) :
    (c.answer env t).2 = t ∨ ∃ op ∈ c.writes, (c.answer env t).2 = t.exec ⟨env.now, op⟩ := by
  cases c with
  | recordCascadeAttempt k shortId p repo =>
    simp only [Req.answer]
    split
    · exact .inl rfl
    · rename_i h
      refine .inr ⟨_, rfl, ?_⟩
      simp only [FixAttempts.exec, h]
    · exact .inl rfl
  | markMerged k | markClosed k | markResolved k | markCascadePrOutcome id merged | markCascadeFailed id error
  | updateAttemptPr id prUrl scmRepo prNumber => exact (env.stored_snd _ t).imp_right fun h => ⟨_, rfl, h⟩
  | getPendingPrs | getMostRecentMergedAttemptForRepo repo | getAttemptsByStatus status =>
    exact .inl ((env.stored_snd _ t).elim id id)
  | getAttemptById id | createRegressionWatch issueId id | createWorktree name id | execute id =>
    exact .inl ((env.stored_snd _ t).elim (fun h => h) fun h => h)
  | _ => exact .inl rfl

/-! ## Cascades -/

def SECURITY_FIX_SOURCE : String := "security"

inductive CascadeTrigger where
  | merge | release
  deriving DecidableEq, Repr

structure CascadeRule where
  upstream : String
  downstream : String
  trigger : CascadeTrigger
  deriving DecidableEq, Repr

structure CascadeConfig where
  enabled : Bool
  /-- 0 is unlimited. -/
  maxDepth : Nat
  rules : List CascadeRule

namespace CascadeConfig

variable (cascade : CascadeConfig)

def findRule (upstream downstream : String) : Option CascadeRule :=
  cascade.rules.find? fun r => r.upstream = upstream && r.downstream = downstream

def findRuleForTrigger (upstream downstream : String) (trigger : CascadeTrigger) :
    Option CascadeRule :=
  cascade.rules.find? fun r =>
    r.upstream = upstream && r.downstream = downstream && r.trigger = trigger

end CascadeConfig

/-- The configuration of the watcher. `relationships` is the dependency graph, as the names of
the dependants of a repository. -/
structure Watcher where
  cascade : CascadeConfig
  relationships : Option (String → List String)
  hasScm : Bool := true
  autoResolveOnMerge : Bool := false
  /-- The names of the sources. -/
  sources : List String := []

def MAX_CASCADE_DEPTH : Nat := 64

/-- The walk up the parents, one parent a round; `none` when the rounds are used up. -/
def walk {m : Type → Type u} [Monad m] (parentOf : Nat → m (Option FixAttempt)) :
    Nat → Nat → List Nat → Option Nat → m (Option Nat)
  | _, depth, _, none => pure (some depth)
  | 0, _, _, some _ => pure none
  | rounds + 1, depth, visited, some parentId =>
    if parentId ∈ visited ∨ MAX_CASCADE_DEPTH ≤ depth then pure (some depth)
    else do
      match ← parentOf parentId with
      | some parent => walk parentOf rounds (depth + 1) (parentId :: visited) parent.parentAttemptId
      | none => pure (some (depth + 1))

/-- `walk_terminates`: the rounds are enough. -/
def getCascadeDepth {m : Type → Type u} [Monad m] (parentOf : Nat → m (Option FixAttempt))
    (attempt : FixAttempt) : m Nat := do
  return (← walk parentOf (MAX_CASCADE_DEPTH + 1) 0 [] attempt.parentAttemptId).getD 0

abbrev Run := Prog Req

/-- The call, its error ending the run. -/
def try_ {α : Type} (c : Req (Except Error α)) : ExceptT Error Run α := ExceptT.mk (.perform c)

def ask {α : Type} (c : Req α) : ExceptT Error Run α := ExceptT.lift (.perform c)

def effort (e : Effort) : Run Unit := .perform (.effort e)

/-- `get_attempt_by_id(id).ok().flatten()` -/
def readAttempt (id : Nat) : Run (Option FixAttempt) := do
  match ← Prog.perform (.getAttemptById id) with
  | .ok attempt => pure attempt
  | .error _ => pure none

/-- At most 500 characters. -/
def clip (s : String) : String :=
  if s.toList.length > 500 then String.ofList (s.toList.take 497) ++ "..." else s

def whenever {ε : Type} (c : Prop) [Decidable c] (p : ExceptT ε Run Unit) : ExceptT ε Run Unit :=
  if c then p else pure ()

/-- The URL of a pull request is stored when it can be parsed. -/
def storePr (attemptId : Nat) (prUrl : String) : ExceptT Error Run Unit :=
  match parsePrUrl prUrl with
  | some (scmRepo, prNumber) => try_ (.updateAttemptPr attemptId prUrl scmRepo prNumber)
  | none => pure ()

def openCascadePr (parent : FixAttempt) (attemptId : Nat) (prUrl : String) :
    ExceptT Error Run Unit := do
  storePr attemptId prUrl
  ask (.effort (.watchPr prUrl))
  ask (.effort (.recordActivity "cascade_pr_created"))
  ask (.effort (.notify parent.key))

def failCascade (parent : FixAttempt) (attemptId : Nat) (error : String) : ExceptT Error Run Unit := do
  try_ (.markCascadeFailed attemptId error)
  ask (.effort (.notify parent.key))

/-- What the run of the agent means for the attempt of the cascade. -/
def settleCascade (parent : FixAttempt) (attemptId : Nat) (result : AgentResult) :
    ExceptT Error Run Unit :=
  if result.success then
    match result.prUrl with
    | some prUrl => openCascadePr parent attemptId prUrl
    | none =>
      let reason := if result.output = "" then "Cascade completed without creating a PR"
        else clip result.output
      failCascade parent attemptId ("Cascade completed without creating a PR: " ++ reason)
  else
    let base := result.error.getD "Unknown error"
    failCascade parent attemptId
      (if result.output = "" then base else base ++ "\n\nClaude's summary: " ++ clip result.output)

/-- The cascade of `parent` to one repository. -/
def cascadeToRepo (parent : FixAttempt) (name : String) : ExceptT Error Run Unit := do
  match ← ask (.resolveRepoForCascade name) with
  | none => return
  | some scmUrl =>
    let attemptId ← try_ (.recordCascadeAttempt parent.key parent.shortId parent.id scmUrl)
    try_ (.createWorktree name ("cascade-" ++ parent.shortId))
    settleCascade parent attemptId (← try_ (.execute attemptId))

namespace Watcher

variable (w : Watcher)

/-- The part of `owner/repo` after the last slash. -/
def shortName (scmRepo : String) : String := (scmRepo.splitOn "/").getLast?.getD scmRepo

/-- The dependants of the repository, by its full name or else by its short one. -/
def dependants (relationships : String → List String) (scmRepo : String) : List String :=
  let full := relationships scmRepo
  if full ≠ [] then full else relationships (shortName scmRepo)

/-- Whether a dependant takes part: by a rule for this trigger, or on a merge without any rule. -/
def cascades (scmRepo : String) (trigger : CascadeTrigger) (name : String) : Bool :=
  match (w.cascade.findRuleForTrigger scmRepo name trigger).or
      (w.cascade.findRuleForTrigger (shortName scmRepo) name trigger) with
  | some _ => true
  | none =>
    match w.cascade.findRule scmRepo name with
    | some r => r.trigger = trigger
    | none => trigger = .merge

/-- The downstream repositories that only a rule names. -/
def ruleOnly (scmRepo : String) (trigger : CascadeTrigger) (names : List String) : List String :=
  (w.cascade.rules.filter fun r =>
    (r.upstream = scmRepo || r.upstream = shortName scmRepo) && r.trigger = trigger &&
      r.downstream ∉ names).map CascadeRule.downstream

/-- An error in one repository does not keep the others from being taken up. -/
def cascadeAll (attempt : FixAttempt) (names : List String) : Run Unit :=
  names.forM fun name => do
    let _ ← (cascadeToRepo attempt name).run

/-- The depth of the attempt is below the configured limit. -/
def depthAllows (attempt : FixAttempt) : Run Bool :=
  if 0 < w.cascade.maxDepth then do
    let depth ← getCascadeDepth readAttempt attempt
    return depth < w.cascade.maxDepth
  else pure true

/-- Takes up the dependants of the repository and the repositories that only rules name. -/
def cascadeFrom (relationships : String → List String) (attempt : FixAttempt) (scmRepo : String)
    (trigger : CascadeTrigger) : Run Unit := do
  let names := dependants relationships scmRepo
  let others := w.ruleOnly scmRepo trigger names
  if names = [] ∧ others = [] then return
  else
    effort (.triggering attempt.id)
    cascadeAll attempt (names.filter (w.cascades scmRepo trigger))
    cascadeAll attempt others

def triggerCascade (attempt : FixAttempt) (trigger : CascadeTrigger) : Run Unit :=
  if attempt.key.source = SECURITY_FIX_SOURCE then pure ()
  else
    match w.relationships, attempt.scmRepo with
    | some relationships, some scmRepo =>
      if w.cascade.enabled ∧ attempt.scmPrNumber.isSome then do
        if ← w.depthAllows attempt then w.cascadeFrom relationships attempt scmRepo trigger
      else pure ()
    | _, _ => pure ()

end Watcher

end Claudear.Engine.PullRequests
