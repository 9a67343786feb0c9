import Claudear.Analysis.Issue
import Claudear.Core.Time
import Claudear.Data.Dict
import Claudear.Data.Keyed
import Claudear.Engine.PrWebhook
import Claudear.Machine.Crew
import Claudear.Storage.PrRecords
import Claudear.Storage.ReviewComments

/-!
# Review feedback

`ReviewWatcher` polls the pull requests it watches for reviews and for comments,
inline ones and those of the conversation. A cursor for each of the two feeds
says how far it has read, and the ledger of comments what still needs an answer.
The watcher takes what a poll found pull request by pull request, reruns the
agent with it and then closes the rows of the comments it was given.

The states are in memory, a map for each process, and are stored on every
change. Processes share the store; the webhooks of a process poll beside its
watcher. What the store and the agent have answered is kept in a log.
-/

namespace Claudear.Storage

/-- The record of a pull request. -/
abbrev RecordOf (prUrl : String) := {pr : PrRecord // pr.prUrl = prUrl}

/-- An attempt at which the pull request was opened. -/
abbrev AttemptOf (prUrl : String) := {attempt : FixAttempt // attempt.prUrl = some prUrl}

theorem Prs.prUrl_of_first {t : Prs} {prUrl : String} {r : Nat × PrRow}
    (h : t.first (Prs.ofUrl prUrl) = some r) : r.2.prUrl = prUrl :=
  Prs.ofUrl_iff.mp (List.find?_some h)

/-- A row whose count is NULL is not read. -/
def Prs.getPr (t : Prs) (prUrl : String) : Option (RecordOf prUrl) :=
  match h : t.first (Prs.ofUrl prUrl) with
  | none => none
  | some r => r.2.reviewCycles.map fun n => ⟨⟨r.2.toPrInfo, n⟩, Prs.prUrl_of_first h⟩

theorem FixAttempts.prUrl_of_getAttemptByPrUrl {t : FixAttempts} {prUrl : String} {a : FixAttempt}
    (h : t.getAttemptByPrUrl prUrl = some a) : a.prUrl = some prUrl := by
  obtain ⟨r, -, hr, ha⟩ := FixAttempts.getAttemptByPrUrl_eq_some h
  exact (congrArg FixAttempt.prUrl ha).symm.trans hr

/-- `get_attempt_by_pr_url`, with the column it asked for. -/
def FixAttempts.attemptOf (t : FixAttempts) (prUrl : String) : Option (AttemptOf prUrl) :=
  match h : t.getAttemptByPrUrl prUrl with
  | none => none
  | some a => some ⟨a, FixAttempts.prUrl_of_getAttemptByPrUrl h⟩

end Claudear.Storage

namespace Claudear.Engine.Reviews

open Claudear.Core Claudear.Data Claudear.Machine Claudear.Sql Claudear.Storage Claudear.Text
open Claudear.Engine.PullRequests (SECURITY_FIX_SOURCE)

/-! ## What the code host answers with -/

structure ReviewUser where
  login : String
  userType : Option String
  deriving DecidableEq, Repr

/-- What is stored of a comment, and the type of its user. -/
structure HostComment where
  comment : ReviewComment
  userType : Option String
  deriving DecidableEq, Repr

namespace HostComment

def user (c : HostComment) : ReviewUser := ⟨c.comment.userLogin, c.userType⟩

/-- `(scm_comment_id, comment_kind)` -/
def ref (c : HostComment) : Int × String := (c.comment.id, c.comment.kind)

end HostComment

structure CodeReview where
  id : Int
  state : String
  body : Option String
  user : ReviewUser
  submittedAt : Option String
  deriving DecidableEq, Repr

/-- The comments on lines of the changes, and those of the conversation. -/
inductive Feed where
  | inline | conversation
  deriving DecidableEq, Repr

/-- The provider, with the libraries that read what it answers with. -/
structure ScmProvider where
  enabled : Bool
  reviewTrigger : String
  allowedBots : List String
  /-- The account Claudear posts as. -/
  login : Option String
  caseProps : CaseProps
  toUppercase : String → String
  parseFromRfc3339 : String → Option DateTime

/-- How far a feed was read. -/
structure Cursor where
  id : Option Int := none
  time : Option String := none
  deriving DecidableEq, Repr

def HostComment.position (c : HostComment) : Cursor := ⟨some c.comment.id, some c.comment.updatedAt⟩

namespace ScmProvider

variable (S : ScmProvider)

/-- `login.to_lowercase()` without the suffix `[bot]`. -/
def stripped (login : String) : String :=
  let l := login.toList
  if "[bot]".toList <:+ l then String.ofList (l.take (l.length - 5)) else login

def isSkippableBot (user : ReviewUser) : Bool :=
  if user.userType = some "Bot" then
    let login := toLowercase S.caseProps user.login
    !S.allowedBots.any fun bot =>
      toLowercase S.caseProps bot = login || toLowercase S.caseProps bot = stripped login
  else false

def isOwnAccount (user : ReviewUser) (selfLogin : Option String) : Bool :=
  selfLogin.any fun login => Analysis.eqIgnoreAsciiCase user.login login

def isIgnoredAuthor (user : ReviewUser) (selfLogin : Option String) : Bool :=
  isOwnAccount user selfLogin || S.isSkippableBot user

def compareTimestamps (a b : String) : Ordering :=
  match S.parseFromRfc3339 a, S.parseFromRfc3339 b with
  | some a, some b => compare a b
  | _, _ => compare a b

def timestampAtOrAfter (candidate since : String) : Bool := S.compareTimestamps candidate since != .lt

/-- The filter of `get_new_review_comments` and `get_new_conversation_comments`. -/
def since (time : Option String) (comments : List HostComment) : List HostComment :=
  comments.filter fun c => time.all fun t => S.timestampAtOrAfter c.comment.updatedAt t

def commentIsAfterCursor (c : ReviewComment) (cursor : Cursor) : Bool :=
  match cursor.time with
  | none => true
  | some time =>
    match S.compareTimestamps c.updatedAt time with
    | .gt => true
    | .lt => false
    | .eq => cursor.id.all fun id => id < c.id

/-- One turn of the loop that finds the latest comment. `-2 ^ 63` is `i64::MIN`. -/
def advance (cursor : Cursor) (c : ReviewComment) : Cursor :=
  let replace := cursor.time.all fun time =>
    match S.compareTimestamps c.updatedAt time with
    | .gt => true
    | .lt => false
    | .eq => cursor.id.getD (-2 ^ 63) < c.id
  if replace then ⟨some c.id, some c.updatedAt⟩ else cursor

def latest (cursor : Cursor) (comments : List ReviewComment) : Cursor := comments.foldl S.advance cursor

/-- The trigger, if there is one, is in the body. -/
def triggers (c : ReviewComment) : Bool :=
  S.reviewTrigger.isEmpty ||
    Analysis.contains (toLowercase S.caseProps c.body) (toLowercase S.caseProps S.reviewTrigger)

/-- Comments of a review need no trigger. -/
def standsAlone (c : ReviewComment) : Bool := c.pullRequestReviewId.isSome || S.triggers c

end ScmProvider

/-! ## Events -/

inductive ReviewEvent where
  | reviewSubmitted (prUrl repo : String) (prNumber : Int) (review : CodeReview)
      (inlineComments : List ReviewComment)
  | commentsAdded (prUrl repo : String) (prNumber : Int) (comments : List ReviewComment)
  deriving DecidableEq, Repr

namespace ReviewEvent

def prUrl : ReviewEvent → String
  | reviewSubmitted prUrl .. => prUrl
  | commentsAdded prUrl .. => prUrl

def comments : ReviewEvent → List ReviewComment
  | reviewSubmitted _ _ _ _ inlineComments => inlineComments
  | commentsAdded _ _ _ comments => comments

def commentRefs (e : ReviewEvent) : List (Int × String) := e.comments.map fun c => (c.id, c.kind)

def requiresAction (S : ScmProvider) : ReviewEvent → Bool
  | reviewSubmitted _ _ _ review _ => S.toUppercase review.state ∈ ["CHANGES_REQUESTED", "COMMENTED"]
  | commentsAdded _ _ _ comments => !comments.isEmpty

def atLine : Option Int → String
  | some line => " (line " ++ toString line ++ ")"
  | none => ""

def inlineLine (c : ReviewComment) : String :=
  "- `" ++ c.path ++ "`" ++ atLine c.line ++ ": " ++ c.body ++ "\n"

def commentBlock (c : ReviewComment) : String :=
  "Comment from @" ++ c.userLogin ++
    (if c.path.isEmpty then "" else " on `" ++ c.path ++ "`" ++ atLine c.line) ++ ":\n" ++ c.body ++ "\n\n"

def getFeedbackSummary (S : ScmProvider) : ReviewEvent → String
  | reviewSubmitted _ _ _ review inlineComments =>
    "Review from @" ++ review.user.login ++ " (" ++ S.toUppercase review.state ++ ")\n" ++
      (match review.body with
        | some body => if body.isEmpty then "" else "\nReview comment:\n" ++ body ++ "\n"
        | none => "") ++
      (if inlineComments.isEmpty then ""
        else "\nInline comments (" ++ toString inlineComments.length ++ "):\n" ++
          String.join (inlineComments.map inlineLine))
  | commentsAdded _ _ _ comments => String.join (comments.map commentBlock)

/-- The first event of the comment's review takes it. -/
def attach : List ReviewEvent → ReviewComment → List ReviewEvent
  | [], _ => []
  | reviewSubmitted prUrl repo prNumber review inlineComments :: rest, c =>
    if c.pullRequestReviewId = some review.id then
      reviewSubmitted prUrl repo prNumber review (inlineComments ++ [c]) :: rest
    else reviewSubmitted prUrl repo prNumber review inlineComments :: attach rest c
  | e :: rest, c => e :: attach rest c

end ReviewEvent

/-! ## States -/

structure PrReviewState where
  prUrl : String
  repo : String
  prNumber : Int
  issueId : String
  source : String
  lastReviewId : Option Int := none
  lastReviewTime : Option String := none
  lastComment : Cursor := {}
  lastIssueComment : Cursor := {}
  isActive : Bool := true
  deriving DecidableEq, Repr

namespace PrReviewState

def cursor (s : PrReviewState) : Feed → Cursor
  | .inline => s.lastComment
  | .conversation => s.lastIssueComment

/-- What `watch_pr` keeps of the state it replaces: the cursor of the conversation is not kept. -/
def merge (s existing : PrReviewState) : PrReviewState :=
  { s with
    lastReviewId := s.lastReviewId.or existing.lastReviewId
    lastReviewTime := s.lastReviewTime.or existing.lastReviewTime
    lastComment := ⟨s.lastComment.id.or existing.lastComment.id,
      s.lastComment.time.or existing.lastComment.time⟩ }

end PrReviewState

/-- How a poll changes a state. A cursor without a time leaves the time as it is. -/
inductive Advance where
  | review (id : Option Int) (time : Option String)
  | comment (feed : Feed) (cursor : Cursor)
  deriving DecidableEq, Repr

def Advance.apply : Advance → PrReviewState → PrReviewState
  | review id time, s => { s with lastReviewId := id, lastReviewTime := time }
  | comment .inline c, s => { s with lastComment := ⟨c.id, c.time.or s.lastComment.time⟩ }
  | comment .conversation c, s => { s with lastIssueComment := ⟨c.id, c.time.or s.lastIssueComment.time⟩ }

/-- The columns of `pr_reviews` a poll fills. -/
structure PrReviewRecord where
  prUrl : String
  reviewer : Option String
  reviewState : Option String
  submittedAt : Option DateTime
  body : Option String
  deriving DecidableEq, Repr

/-! ## Calls -/

inductive Failure where
  | storage (e : Error)
  | host
  | source
  | agent

/-- What the store and the agent have answered. -/
inductive Fact where
  | found (attempt : FixAttempt)
  | cycles (prUrl : String) (reviewCycles : Int)
  | capReached (prUrl : String)
  | rerun (attempt : FixAttempt) (feedback : String)

inductive Call : Type → Type where
  | now : Call Timestamp
  | isRunning : Call Bool
  /-- Whether the host has told which account Claudear posts as. -/
  | knowsLogin : Call Bool
  | getNewReviews (repo : String) (number : Int) (since : Option String) :
      Call (Except Failure (List CodeReview))
  | getNewComments (feed : Feed) (repo : String) (number : Int) (since : Option String) :
      Call (Except Failure (List HostComment))
  | activeStates (p : Nat) : Call (List PrReviewState)
  | activeState (p : Nat) (prUrl : String) : Call (Option PrReviewState)
  | advance (p : Nat) (prUrl : String) (a : Advance) : Call Unit
  | remember (p : Nat) (state : PrReviewState) : Call PrReviewState
  | forget (p : Nat) (prUrl : String) : Call Unit
  | loadStates (p : Nat) (states : List PrReviewState) : Call Unit
  | drainPending (p : Nat) : Call (List ReviewEvent)
  | buffer (p : Nat) (events : List ReviewEvent) : Call Unit
  | savePrReviewState (state : PrReviewState) : Call (Except Failure Unit)
  | deactivatePrReviewState (prUrl : String) : Call (Except Failure Unit)
  | getActivePrReviewStates : Call (Except Failure (List PrReviewState))
  | recordPrReview (record : PrReviewRecord) : Call (Except Failure Unit)
  | recordPrReviewComment (prUrl : String) (c : ReviewComment) : Call (Except Failure Unit)
  | getUnhandledPrReviewComments (prUrl : String) : Call (Except Failure (List ReviewComment))
  | markPrReviewCommentsHandled (prUrl : String) : Call (Except Failure Unit)
  | markPrReviewCommentsHandledByIds (prUrl : String) (refs : List (Int × String)) :
      Call (Except Failure Unit)
  | notePrReviewCommentFailureByIds (prUrl : String) (refs : List (Int × String)) (maxAttempts : Int) :
      Call (Except Failure Unit)
  | getAttemptByPrUrl (prUrl : String) : Call (Except Failure (Option (AttemptOf prUrl)))
  | getPr (prUrl : String) : Call (Except Failure (Option (RecordOf prUrl)))
  | chargePrReviewCycle (pr : PrRecord) (cap : Int) : Call (Except Failure Bool)
  | refundPrReviewCycle (prUrl : String) : Call (Except Failure Unit)
  /-- Whether the index leaves the repository unresolved. -/
  | skipsRepo (repo : String) : Call Bool
  | getIssue (attempt : FixAttempt) : Call (Except Failure Unit)
  /-- A rerun of the agent; it ends once the issue is processed. -/
  | rerun (attempt : FixAttempt) (feedback : String) (branch : Option String) :
      Call (Except Failure Unit)

/-- What the world decides about a call. -/
structure Env where
  now : Timestamp
  error : Option Error := none
  running : Bool := true
  hostUp : Bool := true
  knowsLogin : Bool := true
  reviews : String → Int → Option String → List CodeReview
  order : HashOrder String PrReviewState
  skipsRepo : Bool := false
  issueFound : Bool := true
  agent : Except Unit Unit

/-- A comment in a feed of a pull request. -/
structure Posting extends HostComment where
  feed : Feed
  repo : String
  number : Int
  deriving DecidableEq, Repr

/-- It is in this feed of this pull request. -/
def Posting.isIn (x : Posting) (feed : Feed) (repo : String) (number : Int) : Bool :=
  x.feed = feed && x.repo = repo && x.number = number

/-- The store, the memory of every process, and the code host: its comments as they are, and every
version of one that ever was. -/
structure Desk where
  posted : List Posting
  past : List Posting
  memory : Nat → Dict String PrReviewState
  pending : Nat → List ReviewEvent
  states : Dict String PrReviewState
  prReviews : Table PrReviewRecord
  comments : Comments
  prs : Prs
  attempts : FixAttempts
  log : List Fact

/-- A statement either fails, and changes nothing, or does what it says. -/
def Env.stored (env : Env) {α : Type} (f : Desk → Except Error α × Desk) (s : Desk) :
    Except Failure α × Desk :=
  match env.error with
  | some e => (.error (.storage e), s)
  | none => ((f s).1.mapError .storage, (f s).2)

namespace Desk

def empty : Desk where
  posted := []
  past := []
  memory _ := .empty
  pending _ := []
  states := .empty
  prReviews := .empty
  comments := .empty
  prs := .empty
  attempts := .empty
  log := []

def feed (s : Desk) (feed : Feed) (repo : String) (number : Int) : List HostComment :=
  (s.posted.filter fun x => x.isIn feed repo number).map Posting.toHostComment

def setMemory (s : Desk) (p : Nat) (m : Dict String PrReviewState) : Desk :=
  { s with memory := Function.update s.memory p m }

/-- `save_pr_review_state` -/
def saveState (env : Env) (s : Desk) (state : PrReviewState) : Desk :=
  if env.error.isNone then { s with states := s.states.set state.prUrl state } else s

/-- Under the write lock: a state that is still watched is changed, and stored. -/
def advance (env : Env) (s : Desk) (p : Nat) (prUrl : String) (a : Advance) : Desk :=
  match (s.memory p).get prUrl with
  | none => s
  | some state => (s.setMemory p ((s.memory p).set prUrl (a.apply state))).saveState env (a.apply state)

/-- The state `watch_pr` puts in the map. -/
def merged (s : Desk) (p : Nat) (state : PrReviewState) : PrReviewState :=
  { match (s.memory p).get state.prUrl with
    | some existing => state.merge existing
    | none => state with isActive := true }

def loadStates (s : Desk) (p : Nat) (states : List PrReviewState) : Desk :=
  s.setMemory p ((states.filter fun state => state.isActive).foldl
    (fun m state => m.set state.prUrl state) (s.memory p))

def recordPrReviewComment (s : Desk) (prUrl : String) (c : ReviewComment) :
    Except Error Unit × Desk :=
  match s.comments.recordPrReviewComment (s.prReviews.rows.map fun r => (r.1 : Int)) prUrl c with
  | .ok comments => (.ok (), { s with comments })
  | .error e => (.error e, s)

def chargePrReviewCycle (s : Desk) (now : Timestamp) (pr : PrRecord) (cap : Int) :
    Except Error Bool × Desk :=
  match s.prs.chargePrReviewCycle (s.attempts.rows.map Prod.fst) now pr cap with
  | .ok (charged, prs) => (.ok charged, { s with prs })
  | .error e => (.error e, s)

def activeStates (order : HashOrder String PrReviewState) (m : Dict String PrReviewState) :
    List PrReviewState :=
  ((order.order m.items).map Prod.snd).filter fun state => state.isActive

end Desk

/-- What a call and its answer say. -/
def Call.fact {β : Type} : Call β → β → Option Fact
  | .getAttemptByPrUrl _, .ok (some attempt) => some (.found attempt.val)
  | .getPr prUrl, .ok (some pr) => some (.cycles prUrl pr.val.reviewCycles)
  | .chargePrReviewCycle pr _, .ok false => some (.capReached pr.prUrl)
  | .rerun attempt feedback _, .ok () => some (.rerun attempt feedback)
  | _, _ => none

/-- What a call does and answers, but for the log. -/
def Call.does (S : ScmProvider) {β : Type} (env : Env) : Call β → Desk → β × Desk
  | .now, s => (env.now, s)
  | .isRunning, s => (env.running, s)
  | .knowsLogin, s => (env.knowsLogin, s)
  | .getNewReviews repo number since, s =>
    (if env.hostUp then .ok (env.reviews repo number since) else .error .host, s)
  | .getNewComments feed repo number since, s =>
    (if env.hostUp then .ok (S.since since (s.feed feed repo number)) else .error .host, s)
  | .activeStates p, s => (Desk.activeStates env.order (s.memory p), s)
  | .activeState p prUrl, s => (((s.memory p).get prUrl).filter fun state => state.isActive, s)
  | .advance p prUrl a, s => ((), s.advance env p prUrl a)
  | .remember p state, s =>
    (s.merged p state, s.setMemory p ((s.memory p).set state.prUrl (s.merged p state)))
  | .forget p prUrl, s => ((), s.setMemory p ((s.memory p).erase prUrl))
  | .loadStates p states, s => ((), s.loadStates p states)
  | .drainPending p, s => (s.pending p, { s with pending := Function.update s.pending p [] })
  | .buffer p events, s =>
    ((), { s with pending := Function.update s.pending p (s.pending p ++ events) })
  | .savePrReviewState state, s =>
    env.stored (fun s => (.ok (), { s with states := s.states.set state.prUrl state })) s
  | .deactivatePrReviewState prUrl, s =>
    env.stored (fun s => (.ok (), match s.states.get prUrl with
      | some state => { s with states := s.states.set prUrl { state with isActive := false } }
      | none => s)) s
  | .getActivePrReviewStates, s =>
    env.stored (fun s => (.ok (Desk.activeStates env.order s.states), s)) s
  | .recordPrReview record, s =>
    env.stored (fun s => (.ok (), { s with prReviews := s.prReviews.insert record })) s
  | .recordPrReviewComment prUrl c, s => env.stored (·.recordPrReviewComment prUrl c) s
  | .getUnhandledPrReviewComments prUrl, s =>
    env.stored (fun s => (.ok (s.comments.getUnhandledPrReviewComments prUrl), s)) s
  | .markPrReviewCommentsHandled prUrl, s =>
    env.stored (fun s =>
      (.ok (), { s with comments := s.comments.markPrReviewCommentsHandled env.now prUrl })) s
  | .markPrReviewCommentsHandledByIds prUrl refs, s =>
    env.stored (fun s =>
      (.ok (), { s with comments := s.comments.markPrReviewCommentsHandledByIds env.now prUrl refs })) s
  | .notePrReviewCommentFailureByIds prUrl refs maxAttempts, s =>
    env.stored (fun s => (.ok (), { s with
      comments := s.comments.notePrReviewCommentFailureByIds env.now prUrl refs maxAttempts })) s
  | .getAttemptByPrUrl prUrl, s =>
    env.stored (fun s => (.ok (s.attempts.attemptOf prUrl), s)) s
  | .getPr prUrl, s => env.stored (fun s => (.ok (s.prs.getPr prUrl), s)) s
  | .chargePrReviewCycle pr cap, s => env.stored (·.chargePrReviewCycle env.now pr cap) s
  | .refundPrReviewCycle prUrl, s =>
    env.stored (fun s => (.ok (), { s with prs := s.prs.refundPrReviewCycle env.now prUrl })) s
  | .skipsRepo _, s => (env.skipsRepo, s)
  | .getIssue _, s => (if env.issueFound then .ok () else .error .source, s)
  | .rerun _ _ _, s => (env.agent.mapError fun _ => .agent, s)

def Call.answer (S : ScmProvider) {β : Type} (env : Env) (c : Call β) (s : Desk) : β × Desk :=
  let r := c.does S env s
  (r.1, { r.2 with log := r.2.log ++ (c.fact r.1).toList })

abbrev Asks := Prog Call

abbrev Run := ExceptT Failure Asks

def try_ {α : Type} (c : Call (Except Failure α)) : Run α := ExceptT.mk (.perform c)

/-- A call whose failure the program looks at. -/
def ask {α : Type} (c : Call α) : Run α := ExceptT.lift (.perform c)

/-! ## The review watcher -/

namespace ScmProvider

variable (S : ScmProvider) (p : Nat)

/-- What the loop over the reviews has found. -/
structure Reviewed where
  taken : List CodeReview
  latestId : Option Int
  latestTime : Option String

def reviewRecord (state : PrReviewState) (review : CodeReview) : PrReviewRecord where
  prUrl := state.prUrl
  reviewer := some review.user.login
  reviewState := some review.state
  submittedAt := review.submittedAt.bind S.parseFromRfc3339
  body := review.body

/-- One turn of the loop over the reviews. -/
def takeReview (state : PrReviewState) (selfLogin : Option String) (s : Reviewed) (review : CodeReview) :
    Asks Reviewed :=
  if state.lastReviewId.any (review.id ≤ ·) || S.isIgnoredAuthor review.user selfLogin ||
      S.toUppercase review.state = "PENDING" then pure s
  else do
    let _ ← Prog.perform (.recordPrReview (S.reviewRecord state review))
    let latestTime := match review.submittedAt with
      | none => s.latestTime
      | some time => if s.latestTime.all (S.timestampAtOrAfter time) then some time else s.latestTime
    return { taken := s.taken ++ [review], latestId := some (s.latestId.elim review.id (max · review.id)),
             latestTime }

/-- The comments of a feed that were not read yet. -/
def unread (feed : Feed) (state : PrReviewState) (selfLogin : Option String)
    (comments : List HostComment) : List ReviewComment :=
  ((comments.filter fun c => !S.isIgnoredAuthor c.user selfLogin).map HostComment.comment).filter
    fun c => S.commentIsAfterCursor c (state.cursor feed)

/-- Whether every comment is in the ledger. -/
def recordAll (prUrl : String) : List ReviewComment → Asks Bool
  | [] => pure true
  | c :: rest => do
    let recorded ← Prog.perform (.recordPrReviewComment prUrl c)
    let others ← recordAll prUrl rest
    return recorded.isOk && others

/-- The cursor stays where it is when a comment could not be recorded. -/
def saveCursor (feed : Feed) (state : PrReviewState) (recorded : Bool) (comments : List ReviewComment) :
    Asks Unit :=
  if recorded && !comments.isEmpty then
    .perform (.advance p state.prUrl (.comment feed (S.latest (state.cursor feed) comments)))
  else pure ()

/-- The events of the reviews, with their comments. -/
def reviewEvents (state : PrReviewState) (taken : List CodeReview) (unread : List ReviewComment) :
    List ReviewEvent :=
  unread.foldl ReviewEvent.attach
    (taken.map fun review => .reviewSubmitted state.prUrl state.repo state.prNumber review [])

/-- The comments of no review that was taken. -/
def standalone (taken : List CodeReview) (unread : List ReviewComment) : List ReviewComment :=
  let attached := unread.filter fun c => c.pullRequestReviewId.any fun id => id ∈ taken.map CodeReview.id
  unread.filter fun c => (c.id ∉ attached.map ReviewComment.id) && S.standsAlone c

/-- The events with the comments of their reviews, and the comments that stand alone. -/
def checkComments (state : PrReviewState) (selfLogin : Option String) (taken : List CodeReview)
    (comments : List HostComment) : Asks (List ReviewEvent × List ReviewComment) := do
  let unread := S.unread .inline state selfLogin comments
  let events := reviewEvents state taken unread
  let standalone := S.standalone taken unread
  let recorded ← recordAll state.prUrl (events.flatMap ReviewEvent.comments ++ standalone)
  S.saveCursor p .inline state recorded unread
  return (events, standalone)

/-- The feedback in the conversation. -/
def checkConversation (state : PrReviewState) (selfLogin : Option String) : Asks (List ReviewComment) := do
  let unread := match ← Prog.perform (.getNewComments .conversation state.repo state.prNumber
      (state.cursor .conversation).time) with
    | .ok comments => S.unread .conversation state selfLogin comments
    | .error _ => []
  let feedback := unread.filter S.triggers
  let recorded ← recordAll state.prUrl feedback
  S.saveCursor p .conversation state recorded unread
  return feedback

/-- Those that were not seen, once each. -/
def unseen : List (Int × String) → List ReviewComment → List ReviewComment
  | _, [] => []
  | seen, c :: rest =>
    if (c.id, c.kind) ∈ seen then unseen seen rest else c :: unseen ((c.id, c.kind) :: seen) rest

/-- The ledger's open comments are announced again. -/
def resurface (prUrl : String) (events : List ReviewEvent) (added : List ReviewComment) :
    Asks (List ReviewComment) := do
  match ← Prog.perform (.getUnhandledPrReviewComments prUrl) with
  | .ok pending =>
    return added ++ unseen (added.map (fun c => (c.id, c.kind)) ++ events.flatMap ReviewEvent.commentRefs)
      pending
  | .error _ => return added

/-- What a poll does once it has the new comments. -/
def checkFeeds (state : PrReviewState) (selfLogin : Option String) (taken : List CodeReview)
    (comments : List HostComment) : Asks (List ReviewEvent) := do
  let (events, standalone) ← S.checkComments p state selfLogin taken comments
  let feedback ← S.checkConversation p state selfLogin
  let added ← resurface state.prUrl events (standalone ++ feedback)
  return if added.isEmpty then events
    else events ++ [.commentsAdded state.prUrl state.repo state.prNumber added]

/-- The loop over the reviews, and the cursor of the reviews. -/
def takeReviews (state : PrReviewState) (selfLogin : Option String) (reviews : List CodeReview) :
    Asks (List CodeReview) := do
  let found ← (reviews.mergeSort (byKey CodeReview.id)).foldlM (S.takeReview state selfLogin)
    ⟨[], state.lastReviewId, state.lastReviewTime⟩
  if found.latestId ≠ state.lastReviewId ∨ found.latestTime ≠ state.lastReviewTime then
    Prog.perform (.advance p state.prUrl (.review found.latestId found.latestTime))
    return found.taken
  else return found.taken

def checkPrReviews (state : PrReviewState) : Run (List ReviewEvent) := do
  let selfLogin := if ← ask .knowsLogin then S.login else none
  let reviews ← try_ (.getNewReviews state.repo state.prNumber state.lastReviewTime)
  let taken ← ExceptT.lift (S.takeReviews p state selfLogin reviews)
  match ← ask (.getNewComments .inline state.repo state.prNumber (state.cursor .inline).time) with
  | .error _ =>
    return taken.map fun review => .reviewSubmitted state.prUrl state.repo state.prNumber review []
  | .ok comments => ExceptT.lift (S.checkFeeds p state selfLogin taken comments)

/-- A pull request whose poll fails is left for the next one. -/
def pollState (events : List ReviewEvent) (state : PrReviewState) : Asks (List ReviewEvent) := do
  match ← (S.checkPrReviews p state).run with
  | .ok found => return events ++ found
  | .error _ => return events

def checkForReviews : Asks (List ReviewEvent) := do
  let events ← Prog.perform (.drainPending p)
  if S.enabled then
    let states ← Prog.perform (.activeStates p)
    states.foldlM (S.pollState p) events
  else return events

/-- A webhook's poll leaves its events to the watcher's next one. -/
def checkForPr (prUrl : String) : Run (List ReviewEvent) := do
  if S.enabled then
    match ← ask (.activeState p prUrl) with
    | none => return []
    | some state =>
      let events ← S.checkPrReviews p state
      if events.isEmpty then return events
      else
        let _ ← ask (.buffer p events)
        return events
  else return []

end ScmProvider

def watchPr (p : Nat) (state : PrReviewState) : Asks Unit := do
  let merged ← Prog.perform (.remember p state)
  let _ ← Prog.perform (.savePrReviewState merged)

def unwatchPr (p : Nat) (prUrl : String) : Asks Unit := do
  let _ ← Prog.perform (.deactivatePrReviewState prUrl)
  Prog.perform (.forget p prUrl)

/-- The states are loaded when a process starts. -/
def restore (p : Nat) : Asks Unit := do
  match ← Prog.perform .getActivePrReviewStates with
  | .ok states => Prog.perform (.loadStates p states)
  | .error _ => return ()

/-! ## The watcher -/

def MAX_REVIEW_COMMENT_ATTEMPTS : Int := 5
def MAX_REVIEW_CYCLES : Int := 3

/-- The feedback on a pull request, and the comments it is made of. -/
structure PrReviewFeedback where
  prUrl : String
  feedbacks : List String
  refs : List (Int × String)
  deriving DecidableEq, Repr

namespace PrReviewFeedback

def summary (g : PrReviewFeedback) : String := "\n\n---\n\n".intercalate g.feedbacks

def addEvent (S : ScmProvider) (e : ReviewEvent) : List PrReviewFeedback → List PrReviewFeedback
  | [] => [⟨e.prUrl, [e.getFeedbackSummary S], e.commentRefs⟩]
  | g :: rest =>
    if g.prUrl = e.prUrl then
      { g with feedbacks := g.feedbacks ++ [e.getFeedbackSummary S], refs := g.refs ++ e.commentRefs } :: rest
    else g :: addEvent S e rest

end PrReviewFeedback

def groupReviewFeedbackByPr (S : ScmProvider) (events : List ReviewEvent) : List PrReviewFeedback :=
  (events.filter (·.requiresAction S)).foldl (fun groups e => PrReviewFeedback.addEvent S e groups) []

def isTerminalAttemptStatus (status : FixAttemptStatus) : Bool :=
  status ∈ [.merged, .closed, .cannotFix, .declined]

inductive ReviewOutcome where
  | handled | deferred
  deriving DecidableEq, Repr

inductive ReviewCycleCharge where
  | charged | capReached | uncounted
  deriving DecidableEq, Repr

/-- `PrRecord::new`, linked to the attempt. -/
def newRecord (now : Timestamp) (attempt : FixAttempt) (prUrl repo : String) (number : Int) : PrRecord where
  prUrl := prUrl
  scmRepo := repo
  prNumber := number
  attemptId := some attempt.id
  issueId := some attempt.key.issueId
  issueSource := some attempt.key.source
  createdAt := now
  reviewCycles := 0

structure Watcher where
  scm : ScmProvider
  sources : List String
  /-- The process it runs in. -/
  process : Nat

namespace Watcher

variable (w : Watcher)

def reviewCycleRecord (attempt : FixAttempt) (prUrl : String) : Asks (Option (RecordOf prUrl)) := do
  match ← Prog.perform (.getPr prUrl) with
  | .ok (some record) => return some record
  | .ok none =>
    match attempt.scmRepo, attempt.scmPrNumber with
    | some repo, some number =>
      let now ← Prog.perform .now
      return some ⟨newRecord now attempt prUrl repo number, rfl⟩
    | _, _ => return none
  | .error _ => return none

/-- The pull request has used its cycles. -/
def usedUp (attempt : FixAttempt) : Asks (Option String) := do
  match attempt.prUrl with
  | none => return none
  | some prUrl =>
    match ← reviewCycleRecord attempt prUrl with
    | none => return none
    | some record => return if MAX_REVIEW_CYCLES ≤ record.val.reviewCycles then some prUrl else none

/-- The index does not know the repository of the pull request. -/
def waitsForRepo (attempt : FixAttempt) : Asks Bool :=
  match attempt.prUrl, attempt.scmRepo with
  | some _, some repo => .perform (.skipsRepo repo)
  | _, _ => pure false

def chargeReviewCycle (attempt : FixAttempt) (prUrl : String) : Asks ReviewCycleCharge := do
  match ← reviewCycleRecord attempt prUrl with
  | none => return .uncounted
  | some record =>
    match ← Prog.perform (.chargePrReviewCycle record.val MAX_REVIEW_CYCLES) with
    | .ok true => return .charged
    | .ok false => return .capReached
    | .error _ => return .uncounted

/-- A rerun that does not start gives its cycle back. -/
def rerunCharged (attempt : FixAttempt) (prUrl feedback : String) (branch : Option String)
    (charge : ReviewCycleCharge) : Run ReviewOutcome := do
  match ← ask (.rerun attempt feedback branch) with
  | .ok () => return .handled
  | .error e =>
    if charge = .charged then
      let _ ← ask (.refundPrReviewCycle prUrl)
      throw e
    else throw e

def rerunForFeedback (attempt : FixAttempt) (feedback : String) : Run ReviewOutcome :=
  match attempt.prUrl with
  | none => throw .source
  | some prUrl => do
    let branch := match ← ask (.getPr prUrl) with
      | .ok (some pr) => pr.val.headBranch
      | _ => none
    let charge ← ExceptT.lift (chargeReviewCycle attempt prUrl)
    if charge = .capReached then
      ExceptT.lift (unwatchPr w.process prUrl)
      return .handled
    else rerunCharged attempt prUrl feedback branch charge

def processReviewAction (attempt : FixAttempt) (feedback : String) : Run ReviewOutcome := do
  match ← ExceptT.lift (usedUp attempt) with
  | some prUrl =>
    ExceptT.lift (unwatchPr w.process prUrl)
    return .handled
  | none =>
    if ← ExceptT.lift (waitsForRepo attempt) then return .deferred
    else if attempt.key.source = SECURITY_FIX_SOURCE then w.rerunForFeedback attempt feedback
    else if attempt.key.source ∈ w.sources then do
      try_ (.getIssue attempt)
      w.rerunForFeedback attempt feedback
    else return .handled

/-- What became of a batch is written down in the ledger. -/
def settle (g : PrReviewFeedback) : Except Failure ReviewOutcome → Asks Unit
  | .ok .handled => do
    let _ ← Prog.perform (.markPrReviewCommentsHandledByIds g.prUrl g.refs)
  | .ok .deferred => pure ()
  | .error _ => do
    if ← Prog.perform .isRunning then
      let _ ← Prog.perform (.notePrReviewCommentFailureByIds g.prUrl g.refs MAX_REVIEW_COMMENT_ATTEMPTS)
      return ()
    else return ()

/-- One turn of the loop over the batches: whether it goes on. -/
def handleFeedback (g : PrReviewFeedback) : Run Bool := do
  match ← try_ (.getAttemptByPrUrl g.prUrl) with
  | none =>
    let _ ← ask (.notePrReviewCommentFailureByIds g.prUrl g.refs MAX_REVIEW_COMMENT_ATTEMPTS)
    return true
  | some ⟨attempt, _⟩ =>
    if isTerminalAttemptStatus attempt.status then
      let _ ← ask (.markPrReviewCommentsHandled g.prUrl)
      ExceptT.lift (unwatchPr w.process g.prUrl)
      return true
    else if ← ask .isRunning then
      let outcome ← ExceptT.lift (w.processReviewAction attempt g.summary).run
      ExceptT.lift (settle g outcome)
      return true
    else return false

def checkReviews : Run Unit := do
  if ← ask .isRunning then
    let events ← ExceptT.lift (w.scm.checkForReviews w.process)
    forWhile w.handleFeedback (groupReviewFeedbackByPr w.scm events)
  else return ()

end Watcher

/-! ## The processes and the host -/

inductive Job where
  | checkReviews (p : Nat)
  | checkForPr (p : Nat) (prUrl : String)
  | watch (p : Nat) (prUrl issueId source : String)
  | unwatch (p : Nat) (prUrl : String)
  | restart (p : Nat)
  | post (x : Posting)
  | delete (x : Posting)
  | upsertPr (now : Timestamp) (pr : PrInfo)
  | attempts (attempts : FixAttempts)

/-- Both callers of `watch_pr` take the repository and the number from the URL. -/
def Job.program (S : ScmProvider) (sources : List String) : Job → Asks Unit
  | checkReviews p => do
    let _ ← (Watcher.checkReviews ⟨S, sources, p⟩).run
  | checkForPr p prUrl => do
    let _ ← (S.checkForPr p prUrl).run
  | watch p prUrl issueId source =>
    match parsePrUrl prUrl with
    | some (repo, prNumber) => watchPr p { prUrl, repo, prNumber, issueId, source }
    | none => pure ()
  | unwatch p prUrl => unwatchPr p prUrl
  | restart p => restore p
  | _ => pure ()

namespace Desk

/-- A comment that is written or edited comes after all that was in its feed, and its number is in no
other pull request. -/
def Admits (S : ScmProvider) (s : Desk) (x : Posting) : Prop :=
  ∀ y ∈ s.past, (y.isIn x.feed x.repo x.number = true →
      S.commentIsAfterCursor x.comment y.position = true) ∧
    (y.ref = x.ref → y.repo = x.repo ∧ y.number = x.number)

instance (S : ScmProvider) (s : Desk) (x : Posting) : Decidable (s.Admits S x) :=
  inferInstanceAs (Decidable (∀ y ∈ s.past, _))

/-- In place of the comment's last version, if it has one. -/
def post (s : Desk) (x : Posting) : Desk :=
  { s with
    posted := s.posted.filter (fun y => !(y.isIn x.feed x.repo x.number && y.comment.id = x.comment.id)) ++ [x]
    past := s.past ++ [x] }

/-- What starting a job does: a process that starts has nothing in memory. An upsert leaves the count of
a record that exists as it is, and a new record counts from 0. -/
def enter (S : ScmProvider) (s : Desk) : Job → Option Desk
  | .restart p => some { s.setMemory p .empty with pending := Function.update s.pending p [] }
  | .post x => if s.Admits S x then some (s.post x) else none
  | .delete x => some { s with posted := s.posted.filter (· ≠ x) }
  | .upsertPr now pr =>
    some { s with prs := Prs.exec s.prs (.upsert (s.attempts.rows.map Prod.fst) now ⟨pr, 0⟩) }
  | .attempts attempts => some { s with attempts }
  | _ => some s

end Desk

/-- Any number of processes over one store. -/
def processes (S : ScmProvider) (sources : List String) : Charter Call Desk Env Job where
  answer env c s := c.answer S env s
  program := Job.program S sources
  enter job s := s.enter S job

end Claudear.Engine.Reviews
