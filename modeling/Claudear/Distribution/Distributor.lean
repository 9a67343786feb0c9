import Claudear.Distribution.Assignments
import Claudear.Distribution.Balancer
import Claudear.Distribution.CodeOwners
import Claudear.Engine.Cascade

/-!
# The distributor

Makes one developer responsible for each open pull request: `assign_opened`
when Claudear opens one, and `distribute` on a schedule, which reconciles all of
them and then sends the digest or the pings that are due. Both are programs
over calls of the store, the code host and the notifier.

A lookup past the end of the roster panics and ends the program. What the
notifier was given is kept beside the tables, with the channels it went to.
-/

namespace Claudear.Distribution

open Claudear.Core Claudear.Data Claudear.Machine Claudear.Sql Claudear.Storage Claudear.Text

/-! ## Requesters -/

def RESOLVED_USER_KEY : String := "resolved_user"
def ASSIGNEE_KEY : String := "assignee"
def AUTHOR_KEY : String := "author"
def AUTHOR_ID_KEY : String := "author_id"

/-- Sources whose assignee and author are GitHub logins. -/
def GITHUB_SOURCES : List String := ["github", "github_issues"]
def DISCORD_SOURCE : String := "discord"
def SLACK_SOURCE : String := "slack"

namespace Roster

variable (U : CaseProps) (r : Roster)

def byDiscordId (id : String) : Option Developer :=
  r.developers.find? fun developer => developer.discordId = some id

def bySlackId (id : String) : Option Developer :=
  r.developers.find? fun developer => developer.slackId = some id

/-- A metadata text that is not blank. -/
def metadata (issue : Analysis.Issue) (key : String) : Option String :=
  (issue.getMetadata Analysis.Json.asString key).filter fun value => trim value ≠ ""

/-- The chat user who posted the request. -/
def poster (source : String) (id : String) : Option Developer :=
  if source = DISCORD_SOURCE then r.byDiscordId id
  else if source = SLACK_SOURCE then r.bySlackId id
  else none

def requesters (issue : Analysis.Issue) : Option (List String) := do
  let source := toLowercase U issue.source
  let resolved ← match metadata issue RESOLVED_USER_KEY with
    | some slug => r.bySlug slug
    | none => some none
  let logins := if source ∈ GITHUB_SOURCES then [ASSIGNEE_KEY, AUTHOR_KEY].filterMap (metadata issue)
    else []
  let named ← logins.mapM (r.find U)
  let posted := (metadata issue AUTHOR_ID_KEY).bind (r.poster source)
  return distinct ((resolved.toList ++ named.filterMap id ++ posted.toList).map Developer.login)

end Roster

/-! ## Calls -/

/-- What ends a program early. -/
inductive Failure where
  | storage (e : Error)
  | host
  | notifier (e : NotifierError)
  | panic

inductive Call : Type → Type where
  | now : Call Timestamp
  | getPendingPrs : Call (Except Failure (List FixAttempt))
  | activePrAssignments : Call (Except Failure (List PrAssignment))
  | activePrAssignment (prUrl : String) : Call (Except Failure (Option PrAssignment))
  | recordPrAssignment (a : AssignmentRow) : Call (Except Failure (Option PrAssignment))
  | endPrAssignment (id : Nat) (status : AssignmentStatus) : Call (Except Failure Bool)
  | markPrAssignmentNotified (id : Nat) : Call (Except Failure Bool)
  | pullRequest (repo : String) (number : Int) : Call (Except Failure PullRequest)
  | changedFiles (repo : String) (number : Int) : Call (Except Failure (List String))
  | commitAuthors (repo : String) (path : Option String) : Call (Except Failure (List String))
  | codeowners (repo : String) : Call (Except Failure (Option String))
  | notifyPrAssignment (notice : AssignmentNotice) : Call (Except Failure Delivery)
  | notifyPrDigest (digest : Digest) : Call (Except Failure DigestDelivery)

/-- What the world decides about a call. -/
structure Env where
  now : Timestamp
  error : Option Error := none
  pullRequest : String → Int → Except Unit PullRequest
  changedFiles : String → Int → Except Unit (List String)
  commitAuthors : String → Option String → Except Unit (List String)
  codeowners : String → Except Unit (Option String)
  channels : List Channel

/-- A notification with the channels it went to. -/
structure Sent (μ : Type) where
  message : μ
  channels : List Channel

structure Office where
  attempts : FixAttempts
  assignments : Assignments
  pings : List (Sent AssignmentNotice)
  digests : List (Sent Digest)

def hosted {α : Type} (x : Except Unit α) : Except Failure α := x.mapError fun _ => .host

/-- A call of the store either fails, and changes nothing, or does what it says. -/
def Env.stored (env : Env) {α : Type} (f : Office → α × Office) (s : Office) :
    Except Failure α × Office :=
  match env.error with
  | some e => (.error (.storage e), s)
  | none => (.ok (f s).1, (f s).2)

/-- A statement on the assignments. -/
def Office.write {α : Type} (f : Assignments → α × Assignments) (s : Office) : α × Office :=
  ((f s.assignments).1, { s with assignments := (f s.assignments).2 })

/-- The client of the code host answers under the repository and the number it is asked for. -/
def Call.answer {β : Type} (env : Env) : Call β → Office → β × Office
  | .now, s => (env.now, s)
  | .getPendingPrs, s => env.stored (fun s => (s.attempts.getPendingPrs, s)) s
  | .activePrAssignments, s => env.stored (fun s => (s.assignments.activePrAssignments, s)) s
  | .activePrAssignment prUrl, s =>
    env.stored (fun s => (s.assignments.activePrAssignment prUrl, s)) s
  | .recordPrAssignment a, s => env.stored (Office.write fun t => t.recordPrAssignment a) s
  | .endPrAssignment id status, s =>
    env.stored (Office.write fun t => t.endPrAssignment env.now id status) s
  | .markPrAssignmentNotified id, s =>
    env.stored (Office.write fun t => t.markPrAssignmentNotified env.now id) s
  | .pullRequest repo number, s =>
    (hosted ((env.pullRequest repo number).map fun p => { p with repo, number }), s)
  | .changedFiles repo number, s => (hosted (env.changedFiles repo number), s)
  | .commitAuthors repo path, s => (hosted (env.commitAuthors repo path), s)
  | .codeowners repo, s => (hosted (env.codeowners repo), s)
  | .notifyPrAssignment notice, s =>
    ((Distribution.notifyPrAssignment env.channels notice).mapError .notifier,
      { s with pings := s.pings ++ [⟨notice, env.channels⟩] })
  | .notifyPrDigest digest, s =>
    ((Distribution.notifyPrDigest env.channels digest).mapError .notifier,
      { s with digests := s.digests ++ [⟨digest, env.channels⟩] })

abbrev Asks := Prog Call

abbrev Run := ExceptT Failure Asks

def try_ {α : Type} (c : Call (Except Failure α)) : Run α := ExceptT.mk (.perform c)

/-- A call whose failure the program looks at. -/
def ask {α : Type} (c : Call α) : Run α := ExceptT.lift (.perform c)

/-- A lookup in the roster; `none` is its panic. -/
def lookup {α : Type} (x : Option α) : Run α :=
  match x with
  | some a => pure a
  | none => throw .panic

/-! ## Evidence -/

/-- A request that fails drops its signal. -/
def orEmpty {α : Type} (r : Except Failure (List α)) : List α :=
  match r with
  | .ok l => l
  | .error _ => []

/-- What was read of every repository in this run. -/
structure Repositories where
  codeowners : String → Option (Option CodeOwners)
  authors : String → Option (List String)

namespace Repositories

def default : Repositories where
  codeowners := fun _ => none
  authors := fun _ => none

def readCodeowners (R : RegexLite) (m : Repositories) (repo : String) :
    Asks (Option CodeOwners × Repositories) :=
  match m.codeowners repo with
  | some codeowners => pure (codeowners, m)
  | none => do
    let codeowners := match ← Prog.perform (.codeowners repo) with
      | .ok text => text.map (CodeOwners.parse R)
      | .error _ => none
    return (codeowners, { m with codeowners := Function.update m.codeowners repo (some codeowners) })

def readAuthors (m : Repositories) (repo : String) : Asks (List String × Repositories) :=
  match m.authors repo with
  | some authors => pure (authors, m)
  | none => do
    let authors := orEmpty (← Prog.perform (.commitAuthors repo none))
    return (authors, { m with authors := Function.update m.authors repo (some authors) })

end Repositories

def fileAuthors (repo : String) : List String → Asks (List String)
  | [] => pure []
  | path :: rest => do
    let authors := orEmpty (← Prog.perform (.commitAuthors repo (some path)))
    let others ← fileAuthors repo rest
    return authors ++ others

def evidence (R : RegexLite) (repo : String) (number : Int) (requesters : List String)
    (repositories : Repositories) : Asks (Evidence × Repositories) := do
  let files := orEmpty (← Prog.perform (.changedFiles repo number))
  let fileAuthors ← fileAuthors repo files
  let (codeowners, repositories) ← repositories.readCodeowners R repo
  let (repositoryAuthors, repositories) ← repositories.readAuthors repo
  return ({ requesters, files, codeowners := codeowners.map CodeOwners.owners, fileAuthors,
            repositoryAuthors }, repositories)

/-! ## The distributor -/

structure Distributor where
  roster : Roster
  tolerance : Nat
  notifyOnOpen : Bool
  digest : Bool
  notifierName : String

/-- GitLab's merge requests are not distributed. -/
def githubPullRequest (url : String) : Option (String × Int) :=
  (parsePrUrl url).filter fun _ => Analysis.contains url "/pull/"

/-- `PrAssignment::new`, as columns. -/
def newAssignment (assignedAt : Timestamp) (prUrl repo : String) (prNumber : Int)
    (decision : Decision ℚ) : AssignmentRow where
  prUrl := prUrl
  repo := repo
  prNumber := prNumber
  assignee := decision.assignee
  previous := none
  reason := decision.reason
  score := decision.score
  status := .active
  assignedAt := assignedAt
  endedAt := none
  notifiedAt := none

def noticeOf (developer : Developer) (pullRequest : PullRequest) (a : PrAssignment) :
    AssignmentNotice where
  developer := developer
  pullRequest := pullRequest.summary a.prUrl
  reason := a.reason
  previous := a.previous

/-- Tell the assignee, then record that a channel that reaches people did. -/
def ping (developer : Developer) (pullRequest : PullRequest) (a : PrAssignment) : Run Delivery := do
  let delivery ← try_ (.notifyPrAssignment (noticeOf developer pullRequest a))
  if delivery = .delivered then
    let _ ← try_ (.markPrAssignmentNotified a.id)
    return delivery
  else return delivery

/-- What one scheduled run changed. -/
structure Outcome where
  assigned : Nat
  released : Nat
  closed : Nat
  listed : Nat
  deriving DecidableEq, Repr

/-- A pull request waiting for an assignee. -/
structure Unassigned where
  url : String
  pullRequest : PullRequest
  previous : Option String

/-- What the first loop of `distribute` has found. -/
structure Triage where
  released : Nat
  closed : Nat
  held : List String
  kept : List (PullRequest × PrAssignment)
  unassigned : List Unassigned

def Triage.empty : Triage where
  released := 0
  closed := 0
  held := []
  kept := []
  unassigned := []

/-- An open pull request that nobody holds is waiting, if it needs somebody. -/
def Triage.await (U : CaseProps) (s : Triage) (url : String) (pullRequest : PullRequest)
    (previous : Option String) : Triage :=
  if (pullRequest.attention U none).isNeeded then
    { s with unassigned := s.unassigned ++ [⟨url, pullRequest, previous⟩] }
  else s

/-- A pull request with its repository and number there. -/
abbrev Opened := String × String × Int

/-- Those Claudear tracks as open, without the fixes of security issues. -/
def tracked (attempts : List FixAttempt) : List Opened :=
  attempts.filterMap fun attempt =>
    if attempt.key.source = Engine.PullRequests.SECURITY_FIX_SOURCE then none
    else attempt.prUrl.bind fun url => (githubPullRequest url).map fun p => (url, p)

/-- The map from the URLs, in their order: the first entry of each. -/
def openPullRequests (attempts : List FixAttempt) (active : List PrAssignment) : List Opened :=
  firstByKey Prod.fst (tracked attempts ++ active.map fun a => (a.prUrl, a.repo, a.prNumber))

namespace Distributor

variable (U : CaseProps) (R : RegexLite) (D : Distributor)

/-! ### On opening -/

/-- The ping of a new assignment. That it fails is left to the scheduled run. -/
def pingNew (pullRequest : PullRequest) (stored : PrAssignment) : Run Unit := do
  match ← lookup (D.roster.find U stored.assignee) with
  | some developer =>
    let _ ← ExceptT.lift (ping developer pullRequest stored).run
    return ()
  | none => return ()

def assignNeeded (prUrl : String) (issue : Analysis.Issue) (repo : String) (number : Int)
    (pullRequest : PullRequest) : Run (Option PrAssignment) := do
  let active ← try_ .activePrAssignments
  let requesters ← lookup (D.roster.requesters U issue)
  let (evidence, _) ← ExceptT.lift (evidence R repo number requesters .default)
  let candidates ← lookup (evidence.rank U D.roster)
  let decisions ← lookup (Balancer.assign U D.roster D.tolerance [⟨prUrl, candidates⟩]
    (active.map fun a => a.assignee))
  match decisions with
  | [] => return none
  | decision :: _ =>
    let assignedAt ← ask .now
    match ← try_ (.recordPrAssignment (newAssignment assignedAt prUrl repo number decision)) with
    | none => try_ (.activePrAssignment prUrl)
    | some stored =>
      D.pingNew U pullRequest stored
      try_ (.activePrAssignment prUrl)

def assignUnheld (prUrl : String) (issue : Analysis.Issue) (repo : String) (number : Int) :
    Run (Option PrAssignment) := do
  let pullRequest ← try_ (.pullRequest repo number)
  if (pullRequest.attention U none).isNeeded then D.assignNeeded U R prUrl issue repo number pullRequest
  else return none

def assignOpened (prUrl : String) (issue : Analysis.Issue) : Run (Option PrAssignment) :=
  if !D.notifyOnOpen || issue.source = Engine.PullRequests.SECURITY_FIX_SOURCE then pure none
  else
    match githubPullRequest prUrl with
    | none => pure none
    | some (repo, number) => do
      match ← try_ (.activePrAssignment prUrl) with
      | some existing => return some existing
      | none => D.assignUnheld U R prUrl issue repo number

/-! ### On schedule -/

/-- A pull request the host has answered for. -/
def sort (s : Triage) (url : String) (pullRequest : PullRequest) (assignment : Option PrAssignment) :
    Run Triage :=
  if (pullRequest.attention U none).isFinished then
    match assignment with
    | some a => do
      let ended ← try_ (.endPrAssignment a.id .closed)
      return if ended then { s with closed := s.closed + 1 } else s
    | none => pure s
  else
    match assignment with
    | some a => do
      match ← lookup (D.roster.find U a.assignee) with
      | some _ =>
        return { s with held := s.held ++ [a.assignee], kept := s.kept ++ [(pullRequest, a)] }
      | none =>
        let ended ← try_ (.endPrAssignment a.id .released)
        return (if ended then { s with released := s.released + 1 } else s).await U url pullRequest
          (some a.assignee)
    | none => pure (s.await U url pullRequest none)

/-- One turn of the first loop. -/
def triage (active : List PrAssignment) (s : Triage) (entry : Opened) : Run Triage := do
  let assignment := active.reverse.find? fun a => a.prUrl = entry.1
  match ← ask (.pullRequest entry.2.1 entry.2.2) with
  | .error _ => return { s with held := s.held ++ (assignment.map fun a => a.assignee).toList }
  | .ok pullRequest => D.sort U s entry.1 pullRequest assignment

/-- One turn of the second loop. -/
def weigh (s : Repositories × List (Pending ℚ)) (item : Unassigned) :
    Run (Repositories × List (Pending ℚ)) := do
  let (evidence, repositories) ← ExceptT.lift
    (evidence R item.pullRequest.repo item.pullRequest.number [] s.1)
  let candidates ← lookup (evidence.rank U D.roster)
  return (repositories, s.2 ++ [⟨item.url, candidates⟩])

/-- One turn of the third loop. -/
def record (unassigned : List Unassigned) (s : List (Unassigned × PrAssignment))
    (decision : Decision ℚ) : Run (List (Unassigned × PrAssignment)) := do
  match unassigned.find? fun item => item.url = decision.key with
  | none => return s
  | some item =>
    let assignedAt ← ask .now
    let a := newAssignment assignedAt item.url item.pullRequest.repo item.pullRequest.number decision
    match ← try_ (.recordPrAssignment { a with previous := item.previous }) with
    | some stored => return s ++ [(item, stored)]
    | none => return s

/-- What waits on the developers, by their login. -/
def waiting : List (PullRequest × PrAssignment) → Option (List (String × PullRequestSummary))
  | [] => some []
  | (pullRequest, a) :: rest => do
    let found ← D.roster.find U a.assignee
    let others ← waiting rest
    match found with
    | some developer =>
      return if (pullRequest.attention U (some developer.login)).isNeeded then
        (developer.login, pullRequest.summary a.prUrl) :: others else others
    | none => return others

/-- `left.opened_at.cmp(&right.opened_at).then_with(|| left.url.cmp(&right.url))` -/
def age (p : PullRequestSummary) : WithBot DateTime ×ₗ String := toLex (p.openedAt, p.url)

/-- `waiting.remove` gives every developer what is listed under their login. -/
def groups : List Developer → List (String × PullRequestSummary) → List DigestGroup
  | [], _ => []
  | developer :: rest, waiting =>
    match (waiting.filter fun w => w.1 = developer.login).map Prod.snd with
    | [] => groups rest waiting
    | first :: others =>
      ⟨developer, (first :: others).mergeSort (byKey age)⟩ ::
        groups rest (waiting.filter fun w => w.1 ≠ developer.login)

def digestOf (current : List (PullRequest × PrAssignment)) (now : DateTime) : Option Digest := do
  let waiting ← D.waiting U current
  return { groups := groups D.roster.developers waiting, generatedAt := now }

/-- Those the digest reached, of the assignments nobody was told of. -/
def markListed (delivery : DigestDelivery) (p : PullRequest × PrAssignment) : Run Unit :=
  if p.2.notifiedAt.isNone ∧ p.2.prUrl ∈ delivery then do
    let _ ← try_ (.markPrAssignmentNotified p.2.id)
    return ()
  else return ()

def sendDigest (outcome : Outcome) (current : List (PullRequest × PrAssignment)) (now : DateTime) :
    Run Outcome := do
  let digest ← lookup (D.digestOf U current now)
  if digest.groups = [] then return { outcome with listed := digest.count }
  else
    let delivery ← try_ (.notifyPrDigest digest)
    if delivery = [] then return { outcome with listed := digest.count }
    else
      current.forM (markListed delivery)
      return { outcome with listed := digest.count }

/-- One turn of the last loop, which counts the pings that fail. -/
def pingDue (undelivered : Nat) (p : PullRequest × PrAssignment) : Run Nat :=
  if p.2.notifiedAt.isSome then pure undelivered
  else do
    match ← lookup (D.roster.find U p.2.assignee) with
    | none => return undelivered
    | some developer =>
      match ← ExceptT.lift (ping developer p.1 p.2).run with
      | .ok _ => return undelivered
      | .error _ => return undelivered + 1

def pingAll (outcome : Outcome) (current : List (PullRequest × PrAssignment)) : Run Outcome := do
  let undelivered ← current.foldlM (D.pingDue U) 0
  if undelivered > 0 then
    throw (.notifier ⟨D.notifierName, toString undelivered ++ " assignees were not pinged"⟩)
  else return outcome

def distribute (now : DateTime) : Run Outcome := do
  let attempts ← try_ .getPendingPrs
  let active ← try_ .activePrAssignments
  let triage ← (openPullRequests attempts active).foldlM (D.triage U active) .empty
  let (_, pending) ← triage.unassigned.foldlM (D.weigh U R) (.default, [])
  let decisions ← lookup (Balancer.assign U D.roster D.tolerance pending triage.held)
  let assigned ← decisions.foldlM (record triage.unassigned) []
  let outcome := { assigned := assigned.length, released := triage.released, closed := triage.closed,
                   listed := 0 }
  let current := triage.kept ++ assigned.map fun p => (p.1.pullRequest, p.2)
  if D.digest then D.sendDigest U outcome current now else D.pingAll U outcome current

end Distributor

end Claudear.Distribution
