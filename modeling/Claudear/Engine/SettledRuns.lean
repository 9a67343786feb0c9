import Claudear.Engine.Settling

/-!
# Settled runs

A run that is not refused settles its attempt exactly if its success is
announced and every repository the agent calls wrong is followed up. The other
exits are three slips: the refusals and the exits of the repository swap return
without a write, and a notification that fails after the pull request was
recorded ends the run as any failed pipeline does.
-/

namespace Claudear.Engine.Processing

open Claudear.Sql Claudear.Storage Claudear.Machine IssueProcessor

variable {P : IssueProcessor} {W : World} {entry : Entry} {input : Input} {k : IssueKey}
  {es : List Event} {s : Course} {t : FixAttempts} {o : Outcome}

/-- The attempt is failed with this error. -/
def FailedWith (k : IssueKey) (error : String) (t : FixAttempts) : Prop :=
  ∃ r, originalRow t k = some r ∧ r.status = .failed ∧ r.errorMessage = some error

/-- The error a pipeline's failure is stored with. -/
def IssueProcessor.storedError (P : IssueProcessor) (issue : Issue) (e : String) : String :=
  P.shareableText issue (P.shareableText issue e)

/-- A failing notification of the pull request is what the attempt is failed with. -/
def TurnedFailed (P : IssueProcessor) (input : Input) (s : Course) : Prop :=
  ∃ e, .notAnnounced e ∈ s.events ∧ FailedWith input.key (P.storedError input.issue e) s.table

def Settles (P : IssueProcessor) (input : Input) (x : Outcome × Course) : Prop :=
  Agrees input.key x.2.table x.1 ∧ ¬ TurnedFailed P input x.2

/-! ## How a run ends -/

inductive Ended (P : IssueProcessor) (input : Input) (o : Outcome) (s : Course) : Prop where
  | settled {es : List Event} (h : Settled input.key es o s) (hf : FollowedUp es) (ha : Announced es)
  | lost {es : List Event} (h : Pending input.key es s) (ho : o.withoutPr = true) (hn : ¬ FollowedUp es)
  | turned (h : TurnedFailed P input s)

theorem Pending.not_agrees (h : Pending k es s) (ho : o.withoutPr = true) : ¬ Agrees k s.table o := by
  obtain ⟨⟨r, hr, hp⟩, -⟩ := h
  have hn : ¬ ∃ r, originalRow s.table k = some r ∧ r.status ≠ .pending ∧ r.status ≠ .success := by
    rintro ⟨q, hq, hpend, -⟩
    rw [Option.some.inj (hr.symm.trans hq)] at hp
    exact hpend hp
  cases o with
  | failed error => exact hn
  | completedNoPr reason => exact hn
  | success prUrl => cases ho
  | wrongRepo suggested original => cases ho

theorem Ended.settles_iff (h : Ended P input o s) :
    Settles P input (o, s) ↔ Announced s.events ∧ FollowedUp s.events := by
  cases h with
  | settled h hf ha =>
    rw [h.2]
    exact ⟨fun _ => ⟨ha, hf⟩, fun _ => ⟨h.1, fun ⟨e, he, _⟩ => ha e (h.2 ▸ he)⟩⟩
  | lost h ho hn => exact ⟨fun hs => absurd hs.1 (h.not_agrees ho), fun hs => absurd (h.2 ▸ hs.2) hn⟩
  | turned h =>
    refine ⟨fun hs => absurd h hs.2, fun hs => ?_⟩
    obtain ⟨e, he, -⟩ := h
    exact absurd he (hs.1 e)

theorem Agrees.withoutPr {o' : Outcome} (h : Agrees k t o) (ho : o.withoutPr = true)
    (ho' : o'.withoutPr = true) : Agrees k t o' := by
  have hr : ∃ r, originalRow t k = some r ∧ r.status ≠ .pending ∧ r.status ≠ .success := by
    cases o with
    | failed error => exact h
    | completedNoPr reason => exact h
    | success prUrl => cases ho
    | wrongRepo suggested original => cases ho
  cases o' with
  | failed error => exact hr
  | completedNoPr reason => exact hr
  | success prUrl => cases ho'
  | wrongRepo suggested original => cases ho'

/-- Scrubbing an outcome's text changes nothing about it. -/
theorem Ended.withoutPr {o' : Outcome} (h : Ended P input o s) (ho : o.withoutPr = true)
    (ho' : o'.withoutPr = true) : Ended P input o' s := by
  cases h with
  | settled h hf ha => exact .settled ⟨h.1.withoutPr ho ho', h.2⟩ hf ha
  | lost h _ hn => exact .lost h ho' hn
  | turned h => exact .turned h

theorem Ended.notRetried (h : Ended P input o s) :
    Ended P input (Processing.notRetried P.debug o) s := by
  cases o with
  | wrongRepo suggested original =>
    cases h with
    | settled h _ _ => exact h.1.elim
    | lost _ ho _ => cases ho
    | turned h => exact .turned h
  | success prUrl => exact h
  | completedNoPr reason => exact h
  | failed error => exact h

theorem Ended.scrubbed (h : Ended P input o s) : Ended P input (P.scrubbed o) s := by
  cases o with
  | failed error => exact h.withoutPr rfl rfl
  | completedNoPr reason => exact h.withoutPr rfl rfl
  | success prUrl => exact h
  | wrongRepo suggested original => exact h

theorem Settled.ended (h : Settled input.key [] o s) : Ended P input o s :=
  .settled h Clean.nil.followedUp Clean.nil.announced

/-! ## The fix pipeline -/

theorem Ended.plain (h : Ended P input o s) {β : Type} {c : Req β} (hc : c.plain = true) :
    Ended P input o (serve W c s).2 := by
  cases h with
  | settled h hf ha => exact .settled (h.plain hc) hf ha
  | lost h ho hn => exact .lost (h.plain hc) ho hn
  | turned h =>
    obtain ⟨ht, he⟩ := serve_plain (W := W) hc s
    exact .turned (by simpa only [TurnedFailed, ht, he] using h)

theorem Plain.ended {α : Type} {p : Run α} (hp : Plain p) (h : Ended P input o s) :
    Prog.Ends (serve W) p (fun _ => Ended P input o) s :=
  Quiet.ends hp () (fun _ _ hc h => h.plain hc) h

theorem plain_regressionGate (snapshots : List EvalCategory) (dir : String) :
    Plain (P.regressionGate snapshots dir) := by
  unfold regressionGate
  split
  · exact trivial
  · refine plain_call rfl fun deltas => ?_
    split
    · exact trivial
    · split
      · split <;> exact trivial
      · exact trivial

theorem plain_baseline (dir : String) : Plain (P.baseline dir) := by
  unfold baseline
  split
  · refine plain_call rfl fun snapshots => ?_
    split <;> exact trivial
  · exact trivial

theorem plain_authorTest (dir : String) : Plain (authorTest dir) := by
  refine plain_call rfl fun prompt => plain_call rfl fun result => ?_
  split
  · exact trivial
  · refine plain_call rfl fun deltas => ?_
    split <;> exact trivial

theorem plain_redPhase (dir : String) (snapshots : List EvalCategory) :
    Plain (P.redPhase input dir snapshots) := by
  unfold redPhase
  split
  · exact trivial
  · split
    · exact trivial
    · split
      · exact plain_call rfl fun _ => plain_authorTest dir
      · exact plain_authorTest dir

theorem plain_duplicateOf : Plain (P.duplicateOf input) := by
  unfold duplicateOf
  split
  · exact trivial
  · refine plain_call rfl fun duplicate => ?_
    split <;> exact trivial

theorem Clean.ended (hc : Clean es) (h : Settled input.key es o s) : Ended P input o s :=
  .settled h hc.followedUp hc.announced

theorem ends_concludeRun (hc : Clean es) (h : Settled input.key es o s) (gate : Option String) :
    Prog.Ends (serve W) (P.concludeRun input gate (.ok o)) (Ended P input) s := by
  cases o with
  | success prUrl =>
    cases gate with
    | some error => exact (ends_fail h.present error).mono fun _ _ h => hc.ended h
    | none => exact hc.ended h
  | completedNoPr reason => exact hc.ended h
  | failed error => exact hc.ended h
  | wrongRepo suggested original => exact h.1.elim

/-- A pipeline that fails is stored with its error, an unannounced success among them. -/
theorem ends_handlePipelineError (hc : Clean es) {e : String} (h : Piped input.key es (.error e) s) :
    Prog.Ends (serve W) (P.handlePipelineError input (.error e))
      (fun _ => Ended P input (.failed e)) s := by
  have hended : Ended P input (.failed e)
      (s.write (s.table.markFailed input.key (P.storedError input.issue e))) := by
    rcases h with h | h
    · exact hc.ended (h.failed _ rfl)
    · obtain ⟨⟨r, hr⟩, he⟩ := h
      have hrow : originalRow (s.table.markFailed input.key (P.storedError input.issue e)) input.key =
          (originalRow s.table input.key).map (·.fail (P.storedError input.issue e)) :=
        originalRow_ofOriginal (fun _ => rfl) fun _ => rfl
      exact .turned ⟨e, by simp [Course.write, he], _, hrow.trans (by rw [hr]; rfl), rfl, rfl⟩
  exact (hended.plain (c := .outer (.notifyFailed _)) rfl).plain (c := .outer (.effort _)) rfl

theorem ends_finishRun {r : Except String Outcome} (h : Looped input.key r s)
    (snapshots : List EvalCategory) (dir : String) :
    Prog.Ends (serve W) (P.finishRun input snapshots dir r) (Ended P input) s := by
  have hgate := plain_regressionGate (P := P) snapshots dir
  rcases h with ⟨es, hc, h, hw⟩ | ⟨es, hn, h, ho⟩
  · cases r with
    | error e =>
      refine (ends_handlePipelineError hc h).bind fun _ s h => ?_
      exact (hgate.ended h).bind fun _ _ h => h
    | ok o =>
      have hs : Settled input.key es o s := by
        cases o with
        | wrongRepo suggested original => exact absurd rfl (hw suggested original)
        | success prUrl => exact h
        | completedNoPr reason => exact h
        | failed error => exact h
      exact (hgate.settled hs).bind fun gate _ h => ends_concludeRun hc h gate
  · rcases ho with ⟨error, rfl⟩ | ⟨suggested, original, rfl⟩
    · exact (hgate.pending h).bind fun _ _ h => .lost h rfl hn
    · exact (hgate.pending h).bind fun _ _ h => .lost h rfl hn

/-- A checkout fails before anything is written. -/
def CheckedOut (k : IssueKey) : Except String String → Course → Prop
  | .ok _, s => Pending k [] s
  | .error _, s => Pending k [] s ∨ Pending k [.unavailable] s

theorem ends_checkOut (h : Pending input.key [] s) (repo : Repo) :
    Prog.Ends (serve W) (P.checkOut input repo) (CheckedOut input.key) s := by
  refine (h.ends_had (fun _ => rfl) fun _ => rfl).bind fun synced s h => ?_
  split
  · exact .inr h
  · refine Prog.ends_call ?_
    have h := Pending.plain h (W := W) (c := .outer (.effort "reindex_repo")) rfl
    have href (branch : String) : Plain (checkoutRef input repo branch) := by
      unfold checkoutRef
      split
      · exact trivial
      · refine plain_call rfl fun fetched => ?_
        split <;> exact trivial
    refine ((href _).pending h).bind fun ref s h => ?_
    refine (h.ends_had (fun _ => rfl) fun _ => rfl).bind fun created s h => ?_
    split
    · exact .inr h
    · refine Prog.ends_call (Prog.ends_call ?_)
      have h := (Pending.plain h (W := W) (c := .outer (.effort "sync_repo_files")) rfl).plain
        (W := W) (c := .outer (.worktreeExists (P.issueWorktreePath repo.repoName input.issue))) rfl
      split
      · exact h
      · exact .inl h

theorem ends_runInner (h : Pending input.key [] s) :
    Prog.Ends (serve W) (P.runInner input) (Ended P input) s := by
  unfold runInner
  split
  · exact (ends_fail h.present _).mono fun _ _ h => h.ended
  · rename_i repo _
    refine (ends_checkOut h repo).bind fun r s h => ?_
    split
    · rcases h with h | h
      · exact (ends_fail h.present _).mono fun _ _ h => h.ended
      · refine (ends_fail h.present _).mono fun _ _ h => .settled h ?_ fun _ => by simp
        exact ⟨by decide, fun _ => by decide⟩
    · rename_i dir
      refine ((plain_baseline dir).pending h).bind fun snapshots s h => ?_
      refine ((plain_redPhase dir snapshots).pending h).bind fun red s h => ?_
      split
      · exact (ends_fail h.present _).mono fun _ _ h => h.ended
      · refine (plain_duplicateOf.pending h).bind fun duplicate s h => ?_
        split
        · exact (ends_fail h.present _).mono fun _ _ h => h.ended
        · exact (ends_swapLoop Clean.nil _ _ _ _ h).bind fun r s h => ends_finishRun h snapshots r.2

/-! ## Triage -/

theorem plain_runVerify : Plain (P.runVerify input) := by
  refine plain_call rfl fun verdict => Quiet.bind ?_ fun _ => trivial
  unfold reportVerdict
  split
  · exact plain_ask rfl
  · exact trivial

-- the triage reads texts, which no proof about it has to run
attribute [local irreducible] Text.trim

/-- After triage: an attempt that ends here is settled, and otherwise only the repository may have
changed. -/
def Triaged (input : Input) : Option Outcome × Input → Course → Prop
  | (some o, _), s => Settled input.key [] o s
  | (none, input'), s => (∃ resolution, input' = { input with resolution }) ∧ Pending input.key [] s

theorem ends_skipAfterTriage (h : Pending input.key [] s) (verdict : VerifyResult) :
    Prog.Ends (serve W) (skipAfterTriage input verdict) (Triaged input) s :=
  h.present.givenUp _ rfl

theorem ends_applyTriage (h : Pending input.key [] s) (verdict : VerifyResult) :
    Prog.Ends (serve W) (P.applyTriage input verdict) (Triaged input) s := by
  have hgo : Triaged input (none, input) s := ⟨⟨input.resolution, rfl⟩, h⟩
  unfold applyTriage
  split
  · exact hgo
  · split
    · dsimp only
      split
      · exact hgo
      · refine ((plain_resolveRepoForCascade _).pending h).bind fun resolution s h => ?_
        cases resolution with
        | resolved repo => exact ⟨⟨_, rfl⟩, h⟩
        | skip reason => exact ends_skipAfterTriage h verdict
    · split
      · exact ends_skipAfterTriage h verdict
      · exact hgo

theorem ends_fix (h : Pending input.key [] s) :
    Prog.Ends (serve W) (do return notRetried P.debug (← P.runInner input)) (Ended P input) s :=
  (ends_runInner h).bind fun _ _ h => h.notRetried

theorem Ended.resolution {resolution : RepoResolution} (h : Ended P { input with resolution } o s) :
    Ended P input o s := by
  cases h with
  | settled h hf ha => exact .settled h hf ha
  | lost h ho hn => exact .lost h ho hn
  | turned h => exact .turned h

theorem ends_triageThenFix (h : Pending input.key [] s) :
    Prog.Ends (serve W) (P.triageThenFix input) (Ended P input) s := by
  refine (plain_runVerify.pending h).bind fun verdict s h => ?_
  refine (ends_applyTriage h verdict).bind fun r s h => ?_
  split
  · exact Settled.ended h
  · obtain ⟨⟨resolution, rfl⟩, h⟩ := h
    have hfix := ends_fix (P := P) (W := W) (show Pending { input with resolution }.key [] s from h)
    exact hfix.mono fun _ _ h => h.resolution

theorem plain_classify (issue : Issue) : Plain (P.classifyIsBugOrSecurity issue) := by
  unfold classifyIsBugOrSecurity
  split
  · exact trivial
  · split
    · refine plain_call rfl fun intent => ?_
      split <;> exact trivial
    · exact trivial

theorem plain_isBugOrSecurity : Plain (P.isBugOrSecurity input) := by
  unfold isBugOrSecurity
  split
  · exact trivial
  · exact plain_classify input.issue

theorem ends_runActionPipeline (h : Pending input.key [] s) :
    Prog.Ends (serve W) (P.runActionPipeline input) (Ended P input) s := by
  refine (plain_isBugOrSecurity.pending h).bind fun isBug s h => ?_
  split
  · split
    · exact ends_triageThenFix h
    · refine (plain_runVerify.pending h).bind fun verdict s h => ?_
      split
      · exact ends_fix h
      · exact (ends_runReply h _).mono fun _ _ h => h.ended
  · exact (ends_runReply h _).mono fun _ _ h => h.ended

/-! ## The entry points -/

/-- The entry point refuses the issue: a security issue, or an issue that is no security fix. -/
def IssueProcessor.refuses (P : IssueProcessor) (W : World) (input : Input) : Entry → Bool
  | .run =>
    isSecurityIssue P.config input.issue ||
      input.issue.source = HELPSCOUT_SOURCE &&
        !(W 0 (.getSecurityReportByConversation input.issue.id) matches .ok false)
  | .runSecurityFix => !isSecurityFix input.issue

/-- What the table that is not asked yet says of the attempt. -/
theorem pending_start (h : ∃ r, originalRow t k = some r ∧ r.status = .pending) :
    Pending k [] { table := t } := ⟨h, rfl⟩

theorem ends_belongsToSecurityInbox (h : Pending input.key [] s) (hs : s.calls = 0) :
    Prog.Ends (serve W) (P.belongsToSecurityInbox input.issue)
      (fun b s => b = P.refuses W input .run ∧ Pending input.key [] s) s := by
  unfold belongsToSecurityInbox
  split
  · rename_i hi
    refine ⟨?_, h⟩
    show true = _
    simp only [IssueProcessor.refuses, hi, Bool.true_or]
  · rename_i hi
    rw [Bool.not_eq_true] at hi
    unfold hasSecurityReport
    split
    · rename_i hh
      refine Prog.ends_call ?_
      have h := h.plain (W := W) (c := .outer (.getSecurityReportByConversation input.issue.id)) rfl
      have hw : (serve W (.outer (.getSecurityReportByConversation input.issue.id)) s).1 =
          W 0 (.getSecurityReportByConversation input.issue.id) := by rw [← hs]; rfl
      split
      · rename_i report hr
        refine ⟨?_, h⟩
        show report = _
        rw [hw] at hr
        simp only [IssueProcessor.refuses, hi, hh, hr]
        cases report <;> rfl
      · rename_i e hr
        refine ⟨?_, h⟩
        show true = _
        rw [hw] at hr
        simp only [IssueProcessor.refuses, hi, hh, hr]
        rfl
    · rename_i hh
      refine ⟨?_, h⟩
      show false = _
      simp only [IssueProcessor.refuses, hi, hh, Bool.false_or, decide_false, Bool.false_and]

theorem ends_run (h : Pending input.key [] s) (hs : s.calls = 0) :
    Prog.Ends (serve W) (P.run input)
      (fun o s => (P.refuses W input .run = true ∧ Pending input.key [] s ∧ o.withoutPr = true) ∨
        (P.refuses W input .run = false ∧ Ended P input o s)) s := by
  refine (ends_belongsToSecurityInbox h hs).bind fun b s h => ?_
  obtain ⟨hb, h⟩ := h
  split
  · rename_i ht
    exact .inl ⟨hb.symm.trans ht, h, rfl⟩
  · rename_i hf
    have hr : P.refuses W input .run = false := hb.symm.trans (Bool.not_eq_true _ ▸ hf)
    have hended : Prog.Ends (serve W)
        (if AnswerRun.forIssue input.issue = .liveQa then P.answerQuestionIssue input
        else if P.config.replyEnabled then P.runActionPipeline input
        else if needsTriage input then P.triageThenFix input
        else if input.intent = some .question then P.answerQuestionIssue input
        else do return notRetried P.debug (← P.runInner input)) (Ended P input) s := by
      split
      · exact (ends_answerQuestionIssue h).mono fun _ _ h => h.ended
      · split
        · exact ends_runActionPipeline h
        · split
          · exact ends_triageThenFix h
          · split
            · exact (ends_answerQuestionIssue h).mono fun _ _ h => h.ended
            · exact ends_fix h
    exact hended.mono fun _ _ h => .inr ⟨hr, h⟩

theorem ends_runSecurityFix (h : Pending input.key [] s) :
    Prog.Ends (serve W) (P.runSecurityFix input)
      (fun o s => (P.refuses W input .runSecurityFix = true ∧ Pending input.key [] s ∧ o.withoutPr = true) ∨
        (P.refuses W input .runSecurityFix = false ∧ Ended P input o s)) s := by
  unfold runSecurityFix
  split
  · rename_i hi
    refine (ends_runInner h).bind fun _ _ h => .inr ⟨?_, h.notRetried.scrubbed⟩
    simp only [IssueProcessor.refuses, hi, Bool.not_true]
  · rename_i hi
    refine .inl ⟨?_, h, rfl⟩
    simp only [IssueProcessor.refuses, hi, Bool.not_false]

/-- A run settles a pending attempt exactly if it is not refused, the pull request it opens is
announced, and every repository the agent calls wrong is followed up. -/
theorem attempt_settled_iff (P : IssueProcessor) (W : World) (entry : Entry) (input : Input)
    (t : FixAttempts) (h : ∃ r, originalRow t input.key = some r ∧ r.status = .pending) :
    Settles P input (P.process W entry input t) ↔
      P.refuses W input entry = false ∧ Announced (P.process W entry input t).2.events ∧
        FollowedUp (P.process W entry input t).2.events := by
  have hend : Prog.Ends (serve W) (P.enter entry input)
      (fun o s => (P.refuses W input entry = true ∧ Pending input.key [] s ∧ o.withoutPr = true) ∨
        (P.refuses W input entry = false ∧ Ended P input o s)) { table := t } := by
    cases entry with
    | run => exact ends_run (pending_start h) rfl
    | runSecurityFix => exact ends_runSecurityFix (pending_start h)
  rcases hend with ⟨hr, hp, ho⟩ | ⟨hr, he⟩
  · exact ⟨fun hs => absurd hs.1 (hp.not_agrees ho), fun hc => by rw [hr] at hc; cases hc.1⟩
  · exact ⟨fun hs => ⟨hr, he.settles_iff.mp hs⟩, fun hc => he.settles_iff.mpr hc.2⟩

/-! ## Runs of one issue -/

/-- A processor with an index of repositories, and no optional step. -/
def plainProcessor : IssueProcessor where
  config :=
    { replyEnabled := false, verifyFailOpen := true, verifyTimeoutSecs := 600, answerTimeoutSecs := 300
      deployQaTimeoutSecs := 1800, deployQaBackstopSecs := 1860, askEnabled := false
      maxRoundsPerAttempt := 3, bestEffortOnTimeout := false, evaluationEnabled := false
      failOnRegression := false, requireRedGreen := false, treatsAsSecurity := none }
  hasInferrer := true
  hasClassifier := false
  hasGithubClient := false
  hasIssueEmbeddings := false
  scrubInternal := id
  issueWorktreePath repo issue := repo ++ "/" ++ issue.shortId
  workspace := "/repos"
  debug s := "\"" ++ s ++ "\""
  toLowercase := id

/-- A world where nothing goes wrong and the agent ends with `result`. -/
def calmWorld (result : AgentResult) : World := fun _ _ c =>
  match c with
  | .getSecurityReportByConversation _ => .ok false
  | .classifyIntent => none
  | .verifyIssue => none
  | .answerQuestion => none
  | .generateReply _ => none
  | .createLiveQaDirectory => .ok ()
  | .postReply _ => .ok ()
  | .notifyAnswer _ => .ok []
  | .discordReferences => ""
  | .lookupRepo _ => .ok none
  | .inferExcluding _ => none
  | .ensureRepoSynced .. => .ok "main"
  | .fetchBranch .. => .ok ()
  | .createWorktree .. => .ok ()
  | .worktreeExists _ => true
  | .runBaseline _ => .ok []
  | .runAfterAndComputeDeltas _ => .ok []
  | .checkDuplicate => .ok none
  | .notifyStart => .ok ()
  | .buildIssueContext => .ok ()
  | .buildPrompt => ""
  | .execute _ => .ok result
  | .findReusableQa _ => .ok false
  | .askHumans _ => .ok false
  | .getDefaultBranch _ => .ok "main"
  | .createPr .. => .error ""
  | .notifySuccess _ => .ok ()
  | .notifyCompleted _ => .ok ()
  | .notifyFailed _ => .ok ()
  | .notifyRepoSwap .. => .ok ()
  | .effort _ => ()

def oneInput : Input where
  issue := { id := "1", shortId := "ENG-1", title := "Crash", source := "linear" }
  sourceName := "linear"
  resolution := .resolved ⟨"/repos/api", "org/api", "https://github.com/org/api", "main"⟩

def onePending : FixAttempts := tracked [⟨0, .recordAttemptWithLabels ⟨"linear", "1"⟩ "ENG-1" []⟩]

def opensPr : AgentResult := { success := true, prUrl := some "https://github.com/org/api/pull/7" }

/-- The agent opens a pull request, which is announced. -/
theorem attempt_settled_pr :
    Settles plainProcessor oneInput (plainProcessor.process (calmWorld opensPr) .run oneInput onePending) := by
  have hes : (plainProcessor.process (calmWorld opensPr) .run oneInput onePending).2.events = [] := by
    decide +kernel
  refine (attempt_settled_iff _ _ _ _ _ ⟨_, rfl, rfl⟩).mpr ⟨by decide, ?_⟩
  rw [hes]
  exact ⟨Clean.nil.announced, Clean.nil.followedUp⟩

def namesOther : AgentResult := { success := false, wrongRepo := some "org/web" }

/-- The agent says that the issue is about another repository, and there is none to swap to: the run
has failed, and the attempt is still pending. -/
theorem wrong_repo_left_pending :
    ¬ Settles plainProcessor oneInput
      (plainProcessor.process (calmWorld namesOther) .run oneInput onePending) := by
  have hrow : (originalRow (plainProcessor.process (calmWorld namesOther) .run oneInput onePending).2.table
      oneInput.key).map AttemptRow.status = some .pending := by decide +kernel
  rintro ⟨⟨r, hr, hp, -⟩, -⟩
  rw [hr] at hrow
  exact hp (Option.some.inj hrow)

end Claudear.Engine.Processing
