import Claudear.Engine.MergesOnce

/-!
# The webhook for closed pull requests

GitHub tells of a pull request that was merged or closed; `handle_pr_closed_webhook`
looks the attempt up by the URL and marks its issue, so that the dashboard need
not wait for the next check of the pull requests. What follows a merge is left to
that check.

A `Site` is the table with the code host's pull requests beside it. A sweep is one
check by a watcher that keeps running, with a store that does not fail; it sees
what the host has then, and the rest of the world answers each call as it likes.
-/

namespace Claudear.Storage.FixAttempts

open Claudear.Sql

/-- `ORDER BY attempted_at DESC, id DESC LIMIT 1` -/
def getAttemptByPrUrl (t : FixAttempts) (prUrl : String) : Option FixAttempt :=
  (newestFirst (t.select fun r => r.2.prUrl = some prUrl).reverse).head?.map rowToFixAttempt

theorem getAttemptByPrUrl_eq_some {t : FixAttempts} {prUrl : String} {a : FixAttempt}
    (h : t.getAttemptByPrUrl prUrl = some a) :
    ∃ r, t.get a.id = some r ∧ r.prUrl = some prUrl ∧ rowToFixAttempt (a.id, r) = a := by
  obtain ⟨⟨i, r⟩, hr, rfl⟩ := Option.map_eq_some_iff.mp h
  have hm := List.mem_reverse.mp (mem_newestFirst.mp (List.mem_of_head? hr))
  obtain ⟨hi, hurl⟩ := Table.mem_select.mp hm
  exact ⟨r, hi, of_decide_eq_true hurl, rfl⟩

end Claudear.Storage.FixAttempts

namespace Claudear.Engine.PullRequests

open Claudear.Sql Claudear.Storage Claudear.Machine Claudear.Text

/-- Marks by the issue, and neither looks whether the row is a cascade's nor follows a merge up. -/
def handlePrClosedWebhook (t : FixAttempts) (now : Timestamp) (prUrl : String) (merged : Bool) :
    FixAttempts :=
  match t.getAttemptByPrUrl prUrl with
  | none => t
  | some attempt => if merged then t.markMerged now attempt.key else t.markClosed attempt.key

/-! ## The site -/

/-- The pull requests of the code host. -/
abbrev Host := String → Int → PrStatus

def endedAs (merged : Bool) : PrStatus := if merged then .merged else .closed

/-- What the world answers in one sweep, each call by what it asks. -/
structure Sweep where
  now : Timestamp
  resolved : IssueKey → Except Unit Unit
  cascadeUrl : String → Option String
  worktree : String → Option Error
  agent : Nat → Except Error AgentResult

def Sweep.env (sweep : Sweep) (host : Host) {β : Type} : Req β → Env
  | .getPrStatus scmRepo prNumber => { now := sweep.now, prStatus := .ok (host scmRepo prNumber) }
  | .resolveIssue k => { now := sweep.now, resolved := sweep.resolved k }
  | .resolveRepoForCascade name => { now := sweep.now, cascadeUrl := sweep.cascadeUrl name }
  | .createWorktree name _ => { now := sweep.now, error := sweep.worktree name }
  | .execute id =>
    match sweep.agent id with
    | .ok agent => { now := sweep.now, agent }
    | .error e => { now := sweep.now, error := some e }
  | _ => { now := sweep.now }

structure Site where
  host : Host
  table : FixAttempts
  begun : List Begun

def Site.note {β : Type} (s : Site) (c : Req β) : List Begun :=
  match c.begins with
  | some b => s.begun ++ [b]
  | none => s.begun

def Site.serve (sweep : Sweep) {β : Type} (c : Req β) (s : Site) : β × Site :=
  let (b, table) := c.answer (sweep.env s.host c) s.table
  (b, { s with table, begun := s.note c })

inductive Event where
  | prEnds (scmRepo : String) (prNumber : Int) (merged : Bool)
  | sweep (sweep : Sweep)
  | webhook (now : Timestamp) (prUrl : String) (merged : Bool)

def Event.isWebhook : Event → Bool
  | .webhook .. => true
  | _ => false

/-- A pull request ends once. -/
def Site.step (U : CaseProps) (w : Watcher) (s : Site) : Event → Site
  | .prEnds scmRepo prNumber merged =>
    { s with host := fun repo number =>
        if repo = scmRepo ∧ number = prNumber ∧ s.host repo number = .opened then endedAs merged
        else s.host repo number }
  | .sweep sweep => (Prog.eval (Site.serve sweep) (w.checkPrMergesAndCascade U).run s).2
  | .webhook now prUrl merged => { s with table := handlePrClosedWebhook s.table now prUrl merged }

/-! ## What a sweep would do -/

/-- A merge of the attempt is followed up in other repositories. -/
def startsCascade (w : Watcher) (a : FixAttempt) : Bool :=
  w.cascade.enabled && a.key.source ≠ SECURITY_FIX_SOURCE && a.scmPrNumber.isSome &&
    match w.relationships, a.scmRepo with
    | some relationships, some scmRepo =>
      let names := Watcher.dependants relationships scmRepo
      !(decide (names = [] ∧ w.ruleOnly scmRepo .merge names = []))
    | _, _ => false

/-- The code host has ended the attempt's pull request so. -/
def ended (host : Host) (merged : Bool) (a : FixAttempt) : Bool :=
  match a.scmRepo, a.scmPrNumber with
  | some scmRepo, some prNumber => host scmRepo prNumber = endedAs merged
  | _, _ => false

/-- The next sweep settles the attempt as its pull request ended, and begins nothing for it. -/
structure SettlesQuietly (U : CaseProps) (w : Watcher) (host : Host) (merged : Bool) (a : FixAttempt) :
    Prop where
  scm : w.hasScm = true
  original : a.cascadeRepo = none
  opened : a.status = .success ∧ a.prUrl.isSome = true
  ended : ended host merged a = true
  quiet : merged = true → ¬ watches U a ∧ startsCascade w a = false

/-- The webhook does what the next sweep would do, or nothing: an original is marked as it is already,
or as a sweep marks it and begins nothing; of the issue of a cascade there is no original, or one that
is marked closed as it is already. -/
def Harmless (U : CaseProps) (w : Watcher) (s : Site) : Event → Prop
  | .webhook _ prUrl merged =>
    ∀ a ∈ s.table.getAttemptByPrUrl prUrl,
      if a.cascadeRepo.isNone then a.status = movedTo merged ∨ SettlesQuietly U w s.host merged a
      else ∀ r ∈ s.table.first (ofOriginal a.key), merged = false ∧ r.2.status = .closed
  | _ => True

/-- The event changes no row but the one whose pull request it is about. -/
def OwnRowOnly (U : CaseProps) (w : Watcher) (s : Site) (event : Event) : Prop :=
  match event with
  | .webhook _ prUrl _ => ∀ i, (∀ a ∈ s.table.getAttemptByPrUrl prUrl, i ≠ a.id) →
    (s.step U w event).table.get i = s.table.get i
  | _ => True

/-- The attempts have the same statuses, and the same watches and cascades were begun. -/
structure SameOutcome (s s' : Site) : Prop where
  statuses : ∀ i, (s.table.get i).map AttemptRow.status = (s'.table.get i).map AttemptRow.status
  begun : s.begun = s'.begun

end Claudear.Engine.PullRequests
