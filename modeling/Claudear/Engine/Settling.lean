import Claudear.Engine.Processing
import Claudear.Engine.RetryRace

/-!
# What a run leaves of its attempt

A run of the processor against a table and a `World` that answers every call
from outside, call by call, as it likes. `Event` is what the world's answers
have to do with the exits that do not write: an agent that reports the wrong
repository, the repository swapped to, a repository or worktree that cannot be
had, and a success that could not be announced.

The attempt is followed through each function by one of three assertions:
it is still pending, it is settled as an outcome says, or it is merely there.
-/

namespace Claudear.Engine.Processing

open Claudear.Sql Claudear.Storage Claudear.Machine

/-! ## Runs -/

inductive Event where
  | wrongRepo
  | swapped
  | unavailable
  | notAnnounced (error : String)
  deriving DecidableEq, Repr

def Outer.event {β : Type} : Outer β → β → Option Event
  | .effort name, _ => if name = "wrong_repo_detected" then some .wrongRepo else none
  | .notifyRepoSwap .., _ => some .swapped
  | .ensureRepoSynced .., .error _ => some .unavailable
  | .createWorktree .., .error _ => some .unavailable
  | .notifySuccess _, .error e => some (.notAnnounced e)
  | _, _ => none

/-- The answer to the `n`-th call from outside. -/
abbrev World := Nat → {β : Type} → Outer β → β

structure Course where
  table : FixAttempts
  calls : Nat := 0
  events : List Event := []

def Course.hear (s : Course) (e : Option Event) : Course :=
  { s with calls := s.calls + 1, events := s.events ++ e.toList }

def Course.write (s : Course) (t : FixAttempts) : Course := { s with table := t }

def serve (W : World) {β : Type} : Req β → Course → β × Course
  | .getAttempt k, s => (s.table.getAttempt k, s)
  | .markSuccess k prUrl, s => ((), s.write (s.table.markSuccess k prUrl))
  | .markFailed k error, s => ((), s.write (s.table.markFailed k error))
  | .markCannotFix k reason, s => ((), s.write (s.table.markCannotFix k reason))
  | .markAnswered k summary intent, s => ((), s.write (s.table.markAnswered k summary intent))
  | .recordAnswerMessageIds k ids, s => ((), s.write (s.table.recordAnswerMessageIds k ids))
  | .outer c, s => (W s.calls c, s.hear (c.event (W s.calls c)))

/-- The two ways into the processor. -/
inductive Entry where
  | run | runSecurityFix
  deriving DecidableEq, Repr

def IssueProcessor.enter (P : IssueProcessor) : Entry → Input → Run Outcome
  | .run => P.run
  | .runSecurityFix => P.runSecurityFix

def IssueProcessor.process (P : IssueProcessor) (W : World) (entry : Entry) (input : Input)
    (t : FixAttempts) : Outcome × Course :=
  Prog.eval (serve W) (P.enter entry input) { table := t }

/-! ## Assertions -/

/-- The attempt's stored status agrees with the outcome. -/
def Agrees (k : IssueKey) (t : FixAttempts) : Outcome → Prop
  | .success prUrl => ∃ r, originalRow t k = some r ∧ r.status = .success ∧ r.prUrl = some prUrl
  | .failed _ | .completedNoPr _ =>
    ∃ r, originalRow t k = some r ∧ r.status ≠ .pending ∧ r.status ≠ .success
  | .wrongRepo .. => False

def Pending (k : IssueKey) (es : List Event) (s : Course) : Prop :=
  (∃ r, originalRow s.table k = some r ∧ r.status = .pending) ∧ s.events = es

def Present (k : IssueKey) (es : List Event) (s : Course) : Prop :=
  (∃ r, originalRow s.table k = some r) ∧ s.events = es

def Settled (k : IssueKey) (es : List Event) (o : Outcome) (s : Course) : Prop :=
  Agrees k s.table o ∧ s.events = es

variable {P : IssueProcessor} {W : World} {input : Input} {k : IssueKey} {es : List Event}
  {s : Course} {t : FixAttempts} {o : Outcome}

theorem Pending.present (h : Pending k es s) : Present k es s :=
  ⟨h.1.imp fun _ hr => hr.1, h.2⟩

theorem Settled.present (h : Settled k es o s) : Present k es s := by
  refine ⟨?_, h.2⟩
  obtain ⟨ha, -⟩ := h
  cases o with
  | success prUrl | completedNoPr reason | failed error => exact ha.imp fun _ hr => hr.1
  | wrongRepo suggested original => exact ha.elim

/-! ## Calls -/

section Rows

variable {f : AttemptRow → AttemptRow}

theorem originalRow_ofOriginal (hk : ∀ r, (f r).key = r.key)
    (hc : ∀ r, (f r).cascadeRepo = r.cascadeRepo) :
    originalRow (t.update (ofOriginal k) f) k = (originalRow t k).map f :=
  originalRow_update_self hk hc fun _ _ hk hc => ofOriginal_iff.mpr ⟨hk, hc⟩

theorem originalRow_ofIssue (hk : ∀ r, (f r).key = r.key)
    (hc : ∀ r, (f r).cascadeRepo = r.cascadeRepo) :
    originalRow (t.update (ofIssue k) f) k = (originalRow t k).map f :=
  originalRow_update_self hk hc fun _ _ hk _ => by simpa [ofIssue] using hk

end Rows

/-- The outcome of a run without a pull request. -/
def Outcome.withoutPr : Outcome → Bool
  | .failed _ | .completedNoPr _ => true
  | _ => false

/-- A write that ends the attempt without success. -/
theorem Present.ended (h : Present k es s) {f : AttemptRow → AttemptRow}
    (hrow : originalRow t k = (originalRow s.table k).map f)
    (hf : ∀ r, (f r).status ≠ .pending ∧ (f r).status ≠ .success) (ho : o.withoutPr = true) :
    Settled k es o (s.write t) := by
  obtain ⟨⟨r, hr⟩, he⟩ := h
  have hend : ∃ r, originalRow t k = some r ∧ r.status ≠ .pending ∧ r.status ≠ .success :=
    ⟨f r, hrow.trans (by rw [hr]; rfl), hf r⟩
  cases o with
  | failed error => exact ⟨hend, he⟩
  | completedNoPr reason => exact ⟨hend, he⟩
  | success prUrl => cases ho
  | wrongRepo suggested original => cases ho

theorem Present.failed (h : Present k es s) (error : String) (ho : o.withoutPr = true) :
    Settled k es o (s.write (s.table.markFailed k error)) :=
  h.ended (originalRow_ofOriginal (fun _ => rfl) fun _ => rfl) (fun _ => ⟨by simp, by simp⟩) ho

theorem Present.givenUp (h : Present k es s) (reason : String) (ho : o.withoutPr = true) :
    Settled k es o (s.write (s.table.markCannotFix k reason)) :=
  h.ended (originalRow_ofIssue (fun _ => rfl) fun _ => rfl) (fun _ => ⟨by simp, by simp⟩) ho

theorem Present.answered (h : Present k es s) (answer : String) (intent : Option String)
    (ho : o.withoutPr = true) : Settled k es o (s.write (s.table.markAnswered k answer intent)) :=
  h.ended (originalRow_ofIssue (fun _ => rfl) fun _ => rfl) (fun _ => ⟨by simp, by simp⟩) ho

theorem Present.succeeded (h : Present k es s) (prUrl : String) :
    Settled k es (.success prUrl) (s.write (s.table.markSuccess k prUrl)) := by
  obtain ⟨⟨r, hr⟩, he⟩ := h
  have hrow : originalRow (s.table.markSuccess k prUrl) k = (originalRow s.table k).map (·.succeed prUrl) :=
    originalRow_ofOriginal (fun _ => rfl) fun _ => rfl
  exact ⟨⟨r.succeed prUrl, hrow.trans (by rw [hr]; rfl), by simp, rfl⟩, he⟩

/-- Message ids are written beside the status. -/
theorem Pending.recordIds (h : Pending k es s) (ids : List String) :
    Pending k es (s.write (s.table.recordAnswerMessageIds k ids)) := by
  obtain ⟨⟨r, hr, hp⟩, he⟩ := h
  refine ⟨?_, he⟩
  simp only [Course.write, FixAttempts.recordAnswerMessageIds]
  split
  · exact ⟨r, hr, hp⟩
  · refine ⟨_, (originalRow_ofIssue (fun _ => ?_) fun _ => ?_).trans (by rw [hr, Option.map_some]), ?_⟩
    · rfl
    · rfl
    · exact hp

/-- A call from outside that no answer makes an event of. -/
def Outer.quiet {β : Type} : Outer β → Bool
  | .effort name => name ≠ "wrong_repo_detected"
  | .notifyRepoSwap .. | .ensureRepoSynced .. | .createWorktree .. | .notifySuccess _ => false
  | _ => true

theorem Outer.event_quiet {β : Type} {c : Outer β} (hc : c.quiet = true) (b : β) : c.event b = none := by
  cases c with
  | effort name => exact if_neg (by simpa [Outer.quiet] using hc)
  | notifyRepoSwap | ensureRepoSynced | createWorktree | notifySuccess => cases hc
  | _ => rfl

/-- A call that neither writes nor is an event. -/
def Req.plain {β : Type} : Req β → Bool
  | .getAttempt _ => true
  | .outer c => c.quiet
  | _ => false

theorem serve_plain {β : Type} {c : Req β} (hc : c.plain = true) (s : Course) :
    (serve W c s).2.table = s.table ∧ (serve W c s).2.events = s.events := by
  cases c with
  | getAttempt k => exact ⟨rfl, rfl⟩
  | outer c =>
    refine ⟨rfl, ?_⟩
    simp only [serve, Course.hear, Outer.event_quiet hc, Option.toList_none, List.append_nil]
  | markSuccess | markFailed | markCannotFix | markAnswered | recordAnswerMessageIds => cases hc

theorem Pending.plain (h : Pending k es s) {β : Type} {c : Req β} (hc : c.plain = true) :
    Pending k es (serve W c s).2 := by
  obtain ⟨ht, he⟩ := serve_plain (W := W) hc s
  exact ⟨ht ▸ h.1, he.trans h.2⟩

theorem Settled.plain (h : Settled k es o s) {β : Type} {c : Req β} (hc : c.plain = true) :
    Settled k es o (serve W c s).2 := by
  obtain ⟨ht, he⟩ := serve_plain (W := W) hc s
  exact ⟨ht ▸ h.1, he.trans h.2⟩

/-- A program of such calls. -/
def Plain {α : Type} (p : Run α) : Prop := Quiet (fun (_ : Unit) c => c.plain = true) p

theorem Plain.pending {α : Type} {p : Run α} (hp : Plain p) (h : Pending k es s) :
    Prog.Ends (serve W) p (fun _ => Pending k es) s :=
  Quiet.ends hp () (fun _ _ hc h => h.plain hc) h

theorem Plain.settled {α : Type} {p : Run α} (hp : Plain p) (h : Settled k es o s) :
    Prog.Ends (serve W) p (fun _ => Settled k es o) s :=
  Quiet.ends hp () (fun _ _ hc h => h.plain hc) h

theorem plain_call {α β : Type} {c : Req β} {f : β → Run α} (hc : c.plain = true)
    (hf : ∀ b, Plain (f b)) : Plain (.perform c >>= f) := ⟨fun _ => hc, hf⟩

theorem plain_ask {β : Type} {c : Outer β} (hc : c.quiet = true) : Plain (ask c) :=
  ⟨fun _ => hc, fun _ => trivial⟩

/-! ## Answers -/

section Answers

open IssueProcessor

theorem ends_fail (h : Present input.key es s) (error : String) :
    Prog.Ends (serve W) (P.fail input error) (Settled input.key es) s :=
  h.failed _ rfl

theorem ends_failAnswer (h : Pending input.key es s) (error : String) :
    Prog.Ends (serve W) (failAnswer input error) (Settled input.key es) s :=
  h.present.failed _ rfl

theorem ends_recordAnswered (h : Pending input.key es s) (answer : String) :
    Prog.Ends (serve W) (recordAnswered input answer) (Settled input.key es) s :=
  h.present.answered _ _ rfl

theorem ends_keepMessageIds (h : Pending input.key es s) (sent : List String) :
    Prog.Ends (serve W) (keepMessageIds input sent) (fun _ => Pending input.key es) s := by
  unfold keepMessageIds
  split
  · exact h
  · exact h.recordIds sent

theorem ends_notifyAnswer (h : Pending input.key es s) (body : String) :
    Prog.Ends (serve W)
      (do ExceptT.lift (keepMessageIds input (← try_ (.notifyAnswer body))) :
        ExceptT String Run Unit).run (fun _ => Pending input.key es) s := by
  have h := h.plain (W := W) (c := .outer (.notifyAnswer body)) rfl
  exact Prog.ends_tryCall (fun sent _ => (ends_keepMessageIds h sent).lift.mono fun _ _ ⟨_, _, h⟩ => h)
    fun _ _ => h

theorem ends_deliverAnswer (h : Pending input.key es s) (body notifyBody : String) :
    Prog.Ends (serve W) (deliverAnswer input body notifyBody).run
      (fun _ => Pending input.key es) s := by
  have hpost := h.plain (W := W) (c := .outer (.postReply body)) rfl
  unfold deliverAnswer
  split
  · exact hpost
  · split
    · exact ends_notifyAnswer h notifyBody
    · refine Prog.ends_lift ?_
      split
      · exact hpost
      · exact ends_notifyAnswer hpost notifyBody

theorem ends_answerWith (h : Pending input.key es s) (references : String)
    (answer : Option (Except String String)) :
    Prog.Ends (serve W) (P.answerWith input references answer) (Settled input.key es) s := by
  unfold answerWith
  split
  · refine (ends_deliverAnswer h _ _).bind fun _ _ h => ?_
    split
    · exact ends_failAnswer h _
    · exact ends_recordAnswered h _
  · exact ends_failAnswer h _
  · exact ends_failAnswer h _

theorem ends_answerQuestionIssue (h : Pending input.key es s) :
    Prog.Ends (serve W) (P.answerQuestionIssue input) (Settled input.key es) s := by
  unfold answerQuestionIssue
  split
  · refine Prog.ends_call ?_
    have h := h.plain (W := W) (c := .outer .createLiveQaDirectory) rfl
    split
    · exact Prog.ends_call (ends_answerWith (h.plain rfl) _ _)
    · exact ends_failAnswer h _
  · exact Prog.ends_call (Prog.ends_call (ends_answerWith ((h.plain rfl).plain rfl) _ _))

theorem ends_runReply (h : Pending input.key es s) (kind : ReplyKind) :
    Prog.Ends (serve W) (P.runReply input kind) (Settled input.key es) s := by
  refine Prog.ends_call (Prog.ends_call ?_)
  have h := (h.plain (W := W) (c := .outer .discordReferences) rfl).plain (W := W)
    (c := .outer (.generateReply kind)) rfl
  split
  · exact (ends_deliverAnswer h _ _).bind fun _ _ h => h.present.answered _ _ rfl
  · exact ends_failAnswer h _
  · exact ends_failAnswer h _

end Answers

/-! ## The pipeline -/

section Pipeline

open IssueProcessor

/-- After a round of questions: an early outcome is settled, and otherwise nothing is written. -/
def Asked (k : IssueKey) (es : List Event) :
    Except String (Except Outcome AgentResult) → Course → Prop
  | .ok (.error o), s => Settled k es o s
  | _, s => Pending k es s

theorem ends_answered (h : Pending input.key es s) (question : String) :
    Prog.Ends (serve W) (P.answered question).run (fun _ => Pending input.key es) s := by
  refine Prog.ends_lift ?_
  have h := h.plain (W := W) (c := .outer (.findReusableQa question)) rfl
  split
  · exact h
  · have h := h.plain (W := W) (c := .outer (.askHumans question)) rfl
    refine Prog.ends_tryCall (fun reply _ => ?_) fun _ _ => h
    split
    · exact h
    · exact h

theorem ends_askRound (h : Pending input.key es s)
    {next : Option (ExceptT String Run (Except Outcome AgentResult))}
    (hnext : ∀ p ∈ next, ∀ s, Pending input.key es s →
      Prog.Ends (serve W) p.run (Asked input.key es) s) :
    Prog.Ends (serve W) (P.askRound input next).run (Asked input.key es) s := by
  refine Prog.ends_lift ?_
  have h := h.plain (W := W) (c := .outer .buildPrompt) rfl
  split
  · exact h.present.failed _ rfl
  · have h := h.plain (W := W) (c := .outer (.execute (W s.calls .buildPrompt))) rfl
    refine Prog.ends_tryCall (fun result _ => ?_) fun _ _ => h
    split
    · split
      · exact h.present.givenUp _ rfl
      · split
        · exact h
        · rename_i question _ _ _ _ next
          refine (ends_answered h question).tryBind (fun again s h => ?_) fun _ _ h => h
          split
          · exact hnext next rfl s h
          · exact h
    · exact h

theorem ends_askLoop (rounds : Nat) (h : Pending input.key es s) :
    Prog.Ends (serve W) (P.askLoop input rounds).run (Asked input.key es) s := by
  induction rounds generalizing s with
  | zero => exact ends_askRound h fun p hp => by cases hp
  | succ rounds ih =>
    refine ends_askRound h fun p hp s h => ?_
    cases hp
    exact ih h

theorem plain_effectivePrUrl (new : Option String) : Plain (P.effectivePrUrl input new) := by
  have hrerun : Plain (rerunPrUrl input new) := by
    unfold rerunPrUrl
    split
    · exact trivial
    · refine plain_call rfl fun stored => ?_
      dsimp only
      split <;> exact trivial
  refine hrerun.bind fun url => ?_
  split
  · exact trivial
  · split
    · exact trivial
    · unfold ensureRealPr
      split
      · rename_i intent _ _
        have hbase : Plain (baseBranch intent) := by
          unfold baseBranch
          split
          · exact trivial
          · exact plain_ask rfl
        refine hbase.bind fun base => ?_
        split
        · exact trivial
        · refine plain_call rfl fun url => ?_
          split <;> exact trivial
      · exact trivial

/-- After the pipeline: a wrong repository is noticed before anything is written, and an outcome is
settled. Announcing a success is the one failure that is an event. -/
def Piped (k : IssueKey) (es : List Event) : Except String Outcome → Course → Prop
  | .ok (.wrongRepo ..), s => Pending k (es ++ [.wrongRepo]) s
  | .ok o, s => Settled k es o s
  | .error e, s => Present k es s ∨ Present k (es ++ [.notAnnounced e]) s

theorem Settled.piped (h : Settled k es o s) : Piped k es (.ok o) s := by
  cases o with
  | wrongRepo suggested original => exact h.1.elim
  | success prUrl => exact h
  | completedNoPr reason => exact h
  | failed error => exact h

theorem ends_reportSuccess (h : Pending input.key es s) (prUrl : String) :
    Prog.Ends (serve W) (reportSuccess input prUrl).run (Piped input.key es) s := by
  refine Prog.ends_lift ?_
  have h := h.present.succeeded prUrl
  refine Prog.ends_tryCall (fun _ he => ?_) fun e he => .inr ?_
  · refine Prog.ends_lift (Settled.piped (Settled.plain ?_ (c := .outer (.effort _)) rfl))
    refine ⟨h.1, ?_⟩
    simp only [serve, Course.hear] at he ⊢
    rw [he]
    exact (List.append_nil _).trans h.2
  · refine ⟨h.present.1, ?_⟩
    simp only [serve, Course.hear] at he ⊢
    rw [he, ← h.2]
    rfl

theorem ends_reportCompleted (h : Pending input.key es s) (output : String) :
    Prog.Ends (serve W) (P.reportCompleted input output).run (Piped input.key es) s := by
  refine Prog.ends_lift ?_
  refine Prog.ends_tryCall (fun _ _ => ?_) fun _ _ => .inl ?_
  · exact ((h.present.failed _ rfl).plain rfl).plain (c := .outer (.effort _)) rfl
  · exact ((h.present.failed (o := .completedNoPr "") _ rfl).plain rfl).present

theorem ends_reportFailed (h : Pending input.key es s) (result : AgentResult) :
    Prog.Ends (serve W) (P.reportFailed input result).run (Piped input.key es) s := by
  refine Prog.ends_lift ?_
  refine Prog.ends_tryCall (fun _ _ => ?_) fun _ _ => .inl ?_
  · exact ((h.present.failed _ rfl).plain rfl).plain (c := .outer (.effort _)) rfl
  · exact ((h.present.failed (o := .failed "") _ rfl).plain rfl).present

theorem ends_handleResult (h : Pending input.key es s) (result : AgentResult) :
    Prog.Ends (serve W) (P.handleResult input result).run (Piped input.key es) s := by
  unfold handleResult
  split
  · refine ((plain_effectivePrUrl result.prUrl).pending h).lift.tryBind (fun url s ⟨_, _, h⟩ => ?_)
      fun _ _ ⟨_, he, _⟩ => by cases he
    split
    · exact ends_reportSuccess h _
    · exact ends_reportCompleted h _
  · exact ends_reportFailed h result

theorem ends_executePipeline (h : Pending input.key es s) (repo : Repo) :
    Prog.Ends (serve W) (P.executePipeline input repo).run (Piped input.key es) s := by
  have h := h.plain (W := W) (c := .outer .notifyStart) rfl
  refine Prog.ends_tryCall (fun _ _ => ?_) fun _ _ => .inl h.present
  have h := h.plain (W := W) (c := .outer .buildIssueContext) rfl
  refine Prog.ends_tryCall (fun _ _ => ?_) fun _ _ => .inl h.present
  refine Prog.ends_lift ?_
  have h := h.plain (W := W) (c := .outer (.effort "fix_started")) rfl
  refine (ends_askLoop P.config.maxRoundsPerAttempt h).tryBind (fun r s h => ?_) fun _ _ h => .inl h.present
  split
  · exact Settled.piped h
  · split
    · refine ⟨h.1, ?_⟩
      rw [← h.2]
      rfl
    · exact ends_handleResult h _

end Pipeline

/-! ## Swapping repositories -/

/-- Every repository the agent calls wrong is swapped for another, which can be had. -/
def FollowedUp (es : List Event) : Prop :=
  es.count .wrongRepo ≤ es.count .swapped ∧ (.unavailable ∈ es → .wrongRepo ∉ es)

def Announced (es : List Event) : Prop := ∀ e, .notAnnounced e ∉ es

/-- The events of a run that goes on. -/
structure Clean (es : List Event) : Prop where
  swapped : es.count .wrongRepo = es.count .swapped
  available : .unavailable ∉ es
  announced : Announced es

theorem Clean.nil : Clean [] := ⟨rfl, by simp, fun _ => by simp⟩

theorem Clean.followedUp (h : Clean es) : FollowedUp es := ⟨h.swapped.le, fun hu => absurd hu h.available⟩

theorem Clean.swap (h : Clean es) : Clean (es ++ [.wrongRepo] ++ [.swapped]) where
  swapped := by simp [List.count_append, h.swapped]
  available := by simpa using h.available
  announced e := by simpa using h.announced e

theorem Clean.not_followedUp (h : Clean es) {rest : List Event}
    (hr : rest = [] ∨ rest = [.swapped] ++ [.unavailable]) : ¬ FollowedUp (es ++ [.wrongRepo] ++ rest) := by
  rintro ⟨hc, hu⟩
  rcases hr with rfl | rfl
  · simp only [List.append_nil, List.count_append, h.swapped, List.count_singleton] at hc
    exact absurd hc (by simp)
  · exact hu (by simp) (by simp)

section Swap

open IssueProcessor

theorem plain_resolveRepoForCascade (name : String) : Plain (P.resolveRepoForCascade name) := by
  unfold resolveRepoForCascade
  split
  · refine plain_call rfl fun repo => ?_
    split <;> exact trivial
  · exact trivial

theorem plain_inferAlternative (excluded : List String) : Plain (P.inferAlternative excluded) := by
  refine plain_call rfl fun repo => ?_
  split <;> exact trivial

theorem plain_resolveAlternativeRepo (suggested : Option String) (excluded : List String) :
    Plain (P.resolveAlternativeRepo suggested excluded) := by
  unfold resolveAlternativeRepo
  split
  · split
    · split
      · exact plain_inferAlternative excluded
      · refine (plain_resolveRepoForCascade _).bind fun resolution => ?_
        split
        · exact trivial
        · exact plain_inferAlternative excluded
    · exact plain_inferAlternative excluded
  · exact trivial

/-- A checkout that fails because something cannot be had. -/
def Had {α : Type} (k : IssueKey) (es : List Event) : Except String α → Course → Prop
  | .ok _, s => Pending k es s
  | .error _, s => Pending k (es ++ [.unavailable]) s

theorem Pending.ends_had (h : Pending k es s) {α : Type} {c : Outer (Except String α)}
    (hok : ∀ a, c.event (.ok a) = none) (herr : ∀ e, c.event (.error e) = some .unavailable) :
    Prog.Ends (serve W) (ask c) (Had k es) s := by
  show Had k es (W s.calls c) (s.hear (c.event (W s.calls c)))
  cases W s.calls c with
  | ok a => exact ⟨h.1, by rw [hok, ← h.2]; exact List.append_nil _⟩
  | error e => exact ⟨h.1, by rw [herr, ← h.2]; rfl⟩

theorem ends_checkOutAlternative (h : Pending input.key es s) (repo : Repo) :
    Prog.Ends (serve W) (P.checkOutAlternative input repo) (Had input.key es) s := by
  refine (h.ends_had (fun _ => rfl) fun _ => rfl).bind fun synced s h => ?_
  split
  · exact h
  · refine Prog.ends_call ?_
    have h := Pending.plain h (W := W) (c := .outer (.effort "reindex_repo")) rfl
    refine (h.ends_had (fun _ => rfl) fun _ => rfl).bind fun created s h => ?_
    split <;> exact h

/-- After a swap: what it is given up for is not followed up. -/
def Swapped (k : IssueKey) (es : List Event) : Except String (Repo × String) → Course → Prop
  | .ok _, s => Pending k (es ++ [.swapped]) s
  | .error _, s => ∃ rest, (rest = [] ∨ rest = [.swapped] ++ [.unavailable]) ∧ Pending k (es ++ rest) s

theorem ends_swapRepo (h : Pending input.key es s) (suggested : Option String) (original : String)
    (excluded : List String) :
    Prog.Ends (serve W) (P.swapRepo input suggested original excluded) (Swapped input.key es) s := by
  refine Prog.ends_call ?_
  have h := h.plain (W := W) (c := .outer (.effort "inference_feedback")) rfl
  refine ((plain_resolveAlternativeRepo suggested excluded).pending h).bind fun resolution s h => ?_
  split
  · exact ⟨[], .inl rfl, by rwa [List.append_nil]⟩
  · rename_i repo
    refine Prog.ends_call ?_
    have h : Pending input.key (es ++ [.swapped])
        (serve W (.outer (.notifyRepoSwap original repo.repoName)) s).2 :=
      ⟨h.1, by rw [← h.2]; rfl⟩
    refine (ends_checkOutAlternative h repo).bind fun checked s h => ?_
    split
    · exact ⟨_, .inr rfl, by rw [← List.append_assoc]; exact h⟩
    · exact h

/-- After the loop: what the pipeline made of a clean run, or a wrong repository not followed up. -/
def Looped (k : IssueKey) (r : Except String Outcome) (s : Course) : Prop :=
  (∃ es, Clean es ∧ Piped k es r s ∧ ∀ suggested original, r ≠ .ok (.wrongRepo suggested original)) ∨
    ∃ es, ¬ FollowedUp es ∧ Pending k es s ∧
      ((∃ error, r = .ok (.failed error)) ∨ ∃ suggested original, r = .ok (.wrongRepo suggested original))

theorem Piped.looped (hc : Clean es) {r : Except String Outcome} (h : Piped k es r s) : Looped k r s := by
  by_cases hw : ∃ suggested original, r = .ok (.wrongRepo suggested original)
  · obtain ⟨suggested, original, rfl⟩ := hw
    have hn : ¬ FollowedUp (es ++ [Event.wrongRepo]) := by simpa using hc.not_followedUp (.inl rfl)
    exact .inr ⟨_, hn, h, .inr ⟨suggested, original, rfl⟩⟩
  · exact .inl ⟨es, hc, h, fun suggested original he => hw ⟨suggested, original, he⟩⟩

theorem ends_swapLoop (hc : Clean es) (swaps : Nat) (excluded : List String) (repo : Repo) (dir : String)
    (h : Pending input.key es s) :
    Prog.Ends (serve W) (P.swapLoop input swaps excluded repo dir)
      (fun r => Looped input.key r.1) s := by
  induction swaps generalizing es excluded repo dir s with
  | zero => exact (ends_executePipeline h repo).bind fun _ _ h => h.looped hc
  | succ swaps ih =>
    refine (ends_executePipeline h repo).bind fun r s h => ?_
    split
    · refine (ends_swapRepo h _ _ _).bind fun r s h => ?_
      split
      · obtain ⟨rest, hrest, h⟩ := h
        exact .inr ⟨_, hc.not_followedUp hrest, h, .inl ⟨_, rfl⟩⟩
      · exact ih hc.swap _ _ _ h
    · exact h.looped hc

end Swap

end Claudear.Engine.Processing
