import Claudear.Engine.SeenIssues

/-!
# Retries and finished work

The scan lists every failed row, a row of a cascade as well as an issue's own,
and a retry is for the issue: `prepare_for_retry` takes up whatever failed or
closed row the issue has, and the run that follows is one of the issue itself. So
a merged issue is run again because one of its cascades failed. `Guarded` are the
turns in which a failed or closed cascade stands beside an issue that is failed or
closed itself, and in which a run that a retry began does not mark rows that are
finished by then; `mark_cannot_fix` and `mark_answered` mark those of the cascades
too.
-/

namespace Claudear.Engine.FinishedWork

open Claudear.Sql Claudear.Storage Claudear.Machine
open Claudear.Engine.Processing (Issue Intent SECURITY_FIX_SOURCE)
open Claudear.Engine.Admission (Job WatcherTask inline ofWatcher IgnoresProcessor)
open Claudear.Engine.Retrying (Watcher Outer SecurityFixRequest)
open Claudear.Engine.Seeding (Daemon Answers Task charter reply writes avoids)
open Claudear.Text (CaseProps)

/-! ## Finished rows -/

def isFinished : FixAttemptStatus → Bool
  | .merged | .success | .answered | .declined | .cannotFix => true
  | .pending | .failed | .closed => false

/-- The issue's own attempt is failed or closed. -/
def ownRetryable (t : FixAttempts) (k : IssueKey) : Bool := t.any fun r => ofOriginal k r && r.2.retryable

/-- A cascade of the issue is. -/
def cascadeRetryable (t : FixAttempts) (k : IssueKey) : Bool :=
  t.any fun r => ofIssue k r && r.2.cascadeRepo.isSome && r.2.retryable

/-- Every finished row keeps its status and its pull request. -/
def KeepsFinished (t t' : FixAttempts) : Prop :=
  ∀ r ∈ t.rows, isFinished r.2.status = true →
    ∃ r' ∈ t'.rows, r'.1 = r.1 ∧ r'.2.status = r.2.status ∧ r'.2.prUrl = r.2.prUrl

variable {t : FixAttempts} {k : IssueKey} {now : Timestamp}

theorem retryable_or : t.any (FixAttempts.retryableOf k) = (ownRetryable t k || cascadeRetryable t k) := by
  rw [Bool.eq_iff_iff, Bool.or_eq_true, ownRetryable, cascadeRetryable, Table.any_eq_true, Table.any_eq_true,
    Table.any_eq_true]
  constructor
  · rintro ⟨i, r, hi, hr⟩
    obtain ⟨hk, hr⟩ := Bool.and_eq_true_iff.mp hr
    cases hc : r.cascadeRepo with
    | none => exact .inl ⟨i, r, hi, by simp [ofOriginal, hk, hr, hc]⟩
    | some repo => exact .inr ⟨i, r, hi, by simp [hk, hr, hc]⟩
  · rintro (⟨i, r, hi, hr⟩ | ⟨i, r, hi, hr⟩)
    · simp only [ofOriginal, Bool.and_eq_true] at hr
      exact ⟨i, r, hi, Bool.and_eq_true_iff.mpr ⟨hr.1.1, hr.2⟩⟩
    · simp only [Bool.and_eq_true] at hr
      exact ⟨i, r, hi, Bool.and_eq_true_iff.mpr ⟨hr.1.1, hr.2⟩⟩

theorem prepareForRetry_isOk :
    (t.prepareForRetry now k).toOption.isSome = (ownRetryable t k || cascadeRetryable t k) := by
  rw [← retryable_or]
  unfold FixAttempts.prepareForRetry
  split
  · rename_i h
    rw [Table.count_eq_zero] at h
    refine (eq_false_of_ne_true fun hany => ?_).symm
    obtain ⟨i, r, hi, hr⟩ := Table.any_eq_true.mp hany
    rw [h i r hi] at hr
    cases hr
  · rename_i h
    rw [Table.count_eq_zero] at h
    push Not at h
    obtain ⟨i, r, hi, hr⟩ := h
    exact (Table.any_eq_true.mpr ⟨i, r, hi, by simpa using hr⟩).symm

/-- A retry is only spent on an issue that may be retried just when its cascades bring in no other. -/
theorem spent_well_iff :
    ((t.prepareForRetry now k).toOption.isSome = true → ownRetryable t k = true) ↔
      (cascadeRetryable t k = true → ownRetryable t k = true) := by
  rw [prepareForRetry_isOk, Bool.or_eq_true]
  constructor
  · exact fun h hc => h (.inr hc)
  · rintro h (ho | hc)
    · exact ho
    · exact h hc

/-- The rows a call marks with another status whatever theirs is. -/
def marks : TrackerOp → Nat × AttemptRow → Bool
  | .markSuccess k _ | .markFailed k _ | .markFailedUncharged k _ => ofOriginal k
  | .markCannotFix k _ | .markAnswered k _ _ => ofIssue k
  | _ => fun _ => false

def MarksUnfinished (t : FixAttempts) (op : TrackerOp) : Prop :=
  ∀ r ∈ t.rows, marks op r = true → isFinished r.2.status = false

theorem keeps_exec {β : Type} {c : Admission.Call β} {op : TrackerOp} (hop : writes c = some op)
    (h : MarksUnfinished t op) : KeepsFinished t (t.exec ⟨now, op⟩) := by
  intro r hr hfinished
  have hget : t.get r.1 = some r.2 := Table.get_eq_some.mpr hr
  have hafter : (t.exec ⟨now, op⟩).get r.1 = some (Call.rewrite t ⟨now, op⟩ r) := by
    rw [FixAttempts.get_exec, Call.after, hget]
  refine ⟨(r.1, _), Table.get_eq_some.mp hafter, rfl, ?_⟩
  have hmarks : marks op r = false := by
    refine eq_false_of_ne_true fun hm => ?_
    rw [h r hr hm] at hfinished
    cases hfinished
  have hretryable : r.2.retryable = false := by
    unfold AttemptRow.retryable
    cases hs : r.2.status <;> rw [hs] at hfinished <;> first | rfl | cases hfinished
  have hpending : r.2.status ≠ .pending := by
    intro hs
    rw [hs] at hfinished
    cases hfinished
  unfold writes at hop
  split at hop <;> cases hop <;> dsimp only [Call.rewrite, marks] at hmarks ⊢
  case h_1 => rw [if_neg (by simp [FixAttempts.retryableOf, hretryable])]; exact ⟨rfl, rfl⟩
  case h_2 => split <;> exact ⟨rfl, rfl⟩
  case h_3 =>
    rw [if_neg (by simp [FixAttempts.declinable, hretryable, hpending])]
    exact ⟨rfl, rfl⟩
  case h_10 => split <;> exact ⟨rfl, rfl⟩
  all_goals
    rw [if_neg (by rw [hmarks]; exact Bool.false_ne_true)]
    exact ⟨rfl, rfl⟩

/-! ## What a thread has spent -/

structure Note where
  /-- The thread retries attempts. -/
  retrying : Bool
  /-- The issue of the retry that is under way and spent. -/
  spent : Option IssueKey := none
  /-- A source loaded another issue than it was asked for. -/
  strayed : Bool := false

def retries : Task → Bool
  | .watcher (.processReadyRetries _) | .watcher (.retry _) => true
  | _ => false

def Note.next (g : Note) {β : Type} : Admission.Call β → β → Note
  | .issue (.prepareRetry k) => fun r => { g with spent := if r.toOption.isSome then some k else g.spent }
  | .issue (.outer (.getIssue _ issueId)) => fun r =>
    { g with strayed := g.strayed || r.toOption.any fun issue => issue.id ≠ issueId }
  | .recordRetry .. => fun _ => { g with spent := none }
  | _ => fun _ => g

def monitor : Monitor Admission.Call Daemon Task Note where
  idle := { retrying := false }
  start task := { retrying := retries task }
  next g c b _ := g.next c b

/-- The issue whose attempt is recorded, at the beginning of its run. -/
def records {β : Type} : Admission.Call β → Option IssueKey
  | .issue (.recordAttemptWithLabels k _ _) => some k
  | _ => none

/-- A retry runs the issue that it is spent on. -/
def inOrder {β : Type} (g : Note) (c : Admission.Call β) : Prop :=
  g.retrying = true → g.strayed = false → ∀ k, records c = some k → g.spent = some k

theorem ignoresProcessor : IgnoresProcessor monitor inOrder where
  ok _ _ _ _ _ h := by cases h
  next _ _ _ _ := rfl
  program _ _ _ _ := rfl

section Programs

variable {α β : Type} {g : Note} {U : CaseProps} {w : Watcher} {source : String} {issue : Issue}
  {intent : Option Intent} {attempt : FixAttempt} {request : SecurityFixRequest}

abbrev Done {α : Type} (_ : α) (_ : Note) : Prop := True

abbrev AllowedFor (p : Retrying.Run α) (Q : α → Note → Prop) (g : Note) : Prop :=
  Allowed (ofWatcher monitor) (fun g c => inOrder g (.issue c)) p Q g

/-! ### Programs that run nothing -/

def runsNothing {β : Type} (_ : Unit) (c : Retrying.Req β) : Prop := ∀ k, avoids k () c

theorem quiet_runsNothing {p : Retrying.Run α} (h : ∀ k, Quiet (avoids k) p) : Quiet runsNothing p := by
  induction p with
  | ret a => exact trivial
  | call c f ih => exact ⟨fun _ k => (h k).1 (), fun b => ih b fun k => (h k).2 b⟩

theorem allowed_quiet {p : Retrying.Run α} (h : ∀ k, Quiet (avoids k) p) : AllowedFor p Done g := by
  have h := quiet_runsNothing h
  clear * - h
  induction p generalizing g with
  | ret a => exact trivial
  | call c f ih =>
    refine ⟨fun _ _ k hk => ?_, fun b s => ih b (h.2 b)⟩
    have hc := h.1 () k
    cases c with
    | recordAttemptWithLabels k' shortId labels =>
      cases hk
      exact absurd rfl hc
    | _ => cases hk

/-- A call that begins no run. -/
theorem allowed_other {c : Retrying.Req β} {f : β → Retrying.Run α} {Q : α → Note → Prop}
    (hc : records (.issue c) = none) (h : ∀ b g, AllowedFor (f b) Q g) : AllowedFor (.perform c >>= f) Q g := by
  refine allowed_call (fun _ _ k hk => ?_) fun b s => h b _
  rw [hc] at hk
  cases hk

theorem strayed_next {c : Admission.Call β} {b : β} (hg : g.strayed = true) : (g.next c b).strayed = true := by
  unfold Note.next
  split
  · exact hg
  · exact Bool.or_eq_true_iff.mpr (.inl hg)
  · exact hg
  · exact hg

/-- A thread that was given another issue than it asked for may do anything. -/
theorem allowed_strayed (hg : g.strayed = true) (p : Retrying.Run α) : AllowedFor p Done g := by
  induction p generalizing g with
  | ret a => exact trivial
  | call c f ih =>
    refine ⟨fun _ h => ?_, fun b s => ih b (strayed_next hg)⟩
    rw [hg] at h
    cases h

/-! ### Retries -/

/-- The admission of a retry spends it. -/
theorem allowed_admits (k : IssueKey) :
    AllowedFor (Retrying.admits (some k)) (fun spend g => Retrying.refused spend = false → g.spent = some k) g := by
  refine allowed_call (fun _ _ k hk => by cases hk) fun r s => ?_
  cases r with
  | error e => exact fun h => by cases h
  | ok u => exact fun _ => rfl

theorem allowed_askDeployQa {c : Outer Bool} (hc : records (.issue (.outer c)) = none)
    (hnext : ∀ b, g.next (.issue (.outer c)) b = g) :
    AllowedFor (Watcher.askDeployQa source c) (fun _ g' => g' = g) g := by
  unfold Watcher.askDeployQa
  split
  · refine allowed_perform (fun _ _ k hk => ?_) fun b s => hnext b
    rw [hc] at hk
    cases hk
  · exact rfl

theorem allowed_processAdmitted (hg : g.spent = some ⟨source, issue.id⟩) :
    AllowedFor (w.processAdmitted U source issue none none none intent) Done g := by
  unfold Watcher.processAdmitted
  refine (allowed_askDeployQa (c := .claimDeployQaTip issue.id) rfl fun _ => rfl).bind fun claimed g' h => ?_
  subst h
  split
  · exact trivial
  · refine allowed_call (fun _ _ k hk => ?_) fun _ _ => allowed_quiet fun k => ?_
    · cases hk
      exact hg
    · refine (Seeding.quiet_settleResolution _ _).bind fun resolution => ?_
      cases resolution with
      | error run => exact trivial
      | ok resolution => exact Seeding.quiet_call trivial Seeding.quiet_concludeIssue

theorem allowed_processIssue :
    AllowedFor (w.processIssue U source issue none none none none (some ⟨source, issue.id⟩)) Done g := by
  unfold Watcher.processIssue
  refine allowed_other rfl fun held g => ?_
  split
  · exact trivial
  refine (allowed_askDeployQa (c := .deployQaTipIsRunnable issue.id) rfl fun _ => rfl).bind fun runnable g h => ?_
  split
  · exact trivial
  refine allowed_other rfl fun paused g => ?_
  split
  · exact trivial
  refine allowed_other rfl fun claimed g => ?_
  split
  · exact trivial
  refine allowed_other rfl fun stopped g => ?_
  split
  · exact trivial
  refine (allowed_admits _).bind fun spend g hspend => ?_
  split
  · exact trivial
  · have hspent := hspend (Bool.eq_false_iff.mpr ‹_›)
    exact (allowed_processAdmitted hspent).bind fun _ _ _ => trivial

/-- A security fix from the record of its attempt on. -/
theorem allowed_securityFix {a : α} (hg : g.spent = some ⟨SECURITY_FIX_SOURCE, request.issue.shortId⟩)
    (input : Processing.RepoResolution → Processing.Input) :
    AllowedFor (do
      .perform (.recordAttemptWithLabels ⟨SECURITY_FIX_SOURCE, request.issue.shortId⟩
        request.issue.shortId [])
      let resolution ← w.securityFixResolution request
      let outcome ← .perform (.processing (w.processor.runSecurityFix (input resolution)))
      w.reportFix U request outcome
      return a : Retrying.Run α) Done g := by
  refine allowed_call (fun _ _ k hk => ?_) fun _ _ => allowed_quiet fun k => ?_
  · cases hk
    exact hg
  · refine Seeding.quiet_securityFixResolution.bind fun resolution => ?_
    exact Seeding.quiet_call trivial fun outcome => (Seeding.quiet_reportFix outcome).bind fun _ => trivial

theorem allowed_runSecurityFixRequest :
    AllowedFor (w.runSecurityFixRequest U request (some ⟨SECURITY_FIX_SOURCE, request.issue.shortId⟩)) Done g := by
  unfold Watcher.runSecurityFixRequest
  refine allowed_other rfl fun paused g => ?_
  split
  · exact trivial
  refine allowed_other rfl fun claimed g => ?_
  split
  · exact trivial
  refine allowed_other rfl fun stopped g => ?_
  split
  · exact trivial
  refine (allowed_admits _).bind fun spend g hspend => ?_
  split
  · exact trivial
  · have hspent := hspend (Bool.eq_false_iff.mpr ‹_›)
    exact allowed_securityFix hspent fun resolution =>
      { issue := request.issue, sourceName := SECURITY_FIX_SOURCE, resolution, intent := some .security }

theorem allowed_retryOutcome (r : Retrying.IssueRun × Retrying.Spend) :
    AllowedFor (Watcher.retryOutcome U attempt r) Done g := allowed_quiet fun _ => Seeding.quiet_retryOutcome r

theorem allowed_failRetry (error : String) : AllowedFor (Watcher.failRetry attempt error) Done g :=
  allowed_quiet fun _ => Seeding.quiet_failRetry error

theorem allowed_retryIssue : AllowedFor (w.retryIssue U attempt) Done g := by
  unfold Watcher.retryIssue
  split
  · refine allowed_call (fun _ _ k hk => by cases hk) fun loaded s => ?_
    cases loaded with
    | error e =>
      simp only
      split
      · exact trivial
      · exact allowed_failRetry _
    | ok issue =>
      by_cases hid : issue.id = attempt.key.issueId
      · have hkey : attempt.key = ⟨attempt.key.source, issue.id⟩ := by rw [hid]
        rw [hkey]
        exact allowed_processIssue.bind fun r _ _ => allowed_retryOutcome r
      · refine allowed_strayed ?_ _
        show (g.strayed || decide (issue.id ≠ attempt.key.issueId)) = true
        rw [decide_eq_true hid, Bool.or_true]
  · exact allowed_failRetry _

theorem allowed_retrySecurityFix (hsource : attempt.key.source = SECURITY_FIX_SOURCE) :
    AllowedFor (w.retrySecurityFix U attempt) Done g := by
  unfold Watcher.retrySecurityFix
  refine allowed_other rfl fun enabled g => ?_
  split
  · exact trivial
  refine (Watcher.allowed_securityFixRequest fun _ _ _ k hk => by cases hk).bind fun r g hr => ?_
  cases r with
  | error error => exact allowed_failRetry _
  | ok request =>
    have hkey : attempt.key = ⟨SECURITY_FIX_SOURCE, request.issue.shortId⟩ := by
      rw [hr request rfl, ← hsource]
    rw [hkey]
    exact allowed_runSecurityFixRequest.bind fun r _ _ => allowed_retryOutcome r

theorem allowed_retryAttempt : AllowedFor (w.retryAttempt U attempt) Done g := by
  unfold Watcher.retryAttempt
  refine allowed_other rfl fun stopped g => ?_
  split
  · exact trivial
  split
  · exact allowed_retrySecurityFix ‹_›
  · exact allowed_retryIssue

/-! ### The scan -/

theorem allowed_plain {c : Admission.Call β} {f : β → WatcherTask α} {Q : α → Note → Prop}
    (hc : records c = none) (h : ∀ b g, Allowed monitor inOrder (f b) Q g) :
    Allowed monitor inOrder (.perform c >>= f) Q g := by
  refine allowed_call (fun _ _ k hk => ?_) fun b s => h b _
  rw [hc] at hk
  cases hk

theorem next_retrying (g : Note) (c : Admission.Call β) (b : β) : (g.next c b).retrying = g.retrying := by
  unfold Note.next
  split <;> rfl

/-- A thread that retries nothing may do anything. -/
theorem allowed_free (hg : g.retrying = false) (p : WatcherTask α) : Allowed monitor inOrder p Done g := by
  induction p generalizing g with
  | ret a => exact trivial
  | call c f ih =>
    refine ⟨fun h => ?_, fun b s => ih b ((next_retrying g c b).trans hg)⟩
    rw [hg] at h
    cases h

theorem allowed_awaitRetrySlot (source : String) (rounds : Nat) :
    Allowed monitor inOrder (Admission.scanRetry.awaitRetrySlot source rounds) Done g := by
  induction rounds generalizing g with
  | zero => exact trivial
  | succ n ih =>
    refine allowed_plain rfl fun free g => ?_
    split
    · exact trivial
    refine allowed_plain rfl fun running g => ?_
    split
    · exact trivial
    · exact allowed_plain rfl fun _ _ => ih

theorem allowed_inlined : Allowed monitor inOrder (inline (w.retryAttempt U attempt)) Done g :=
  ignoresProcessor.allowed_inline ⟨.empty, 0⟩ allowed_retryAttempt

theorem allowed_scanRetry (rounds : Nat) :
    Allowed monitor inOrder (Admission.scanRetry U w rounds attempt) Done g := by
  unfold Admission.scanRetry
  refine allowed_plain rfl fun running g => ?_
  split
  · exact trivial
  refine allowed_plain rfl fun processing g => ?_
  split
  · exact trivial
  refine (allowed_awaitRetrySlot _ rounds).bind fun slot g _ => ?_
  split
  · exact allowed_inlined.bind fun outcome g _ => allowed_plain rfl fun _ _ => trivial
  · exact trivial

theorem allowed_processReadyRetries (rounds : Nat) :
    Allowed monitor inOrder (Admission.processReadyRetries U w rounds) Done g := by
  unfold Admission.processReadyRetries
  refine allowed_plain rfl fun paused g => ?_
  split
  · exact trivial
  refine allowed_plain rfl fun found g => ?_
  cases found with
  | error e => exact trivial
  | ok ready =>
    exact allowed_forWhile (L := fun _ => True) (fun attempt _ g _ => allowed_scanRetry rounds) trivial

/-- Every thread runs what it retries only once that is spent. -/
theorem allowed_program (task : Task) :
    Allowed monitor inOrder ((charter U w).program task) Done (monitor.start task) := by
  cases task with
  | write op => exact trivial
  | elapse ms => exact trivial
  | watcher job =>
    cases job with
    | processReadyRetries rounds => exact allowed_processReadyRetries rounds
    | retry attempt => exact allowed_inlined.bind fun _ _ _ => trivial
    | _ => exact allowed_free rfl _

end Programs

/-! ## Runs -/

section Runs

variable {U : CaseProps} {w : Watcher} {op : TrackerOp}

abbrev Watched := Crew Admission.Call Daemon Note

/-- The turn is one of a thread that retries. -/
def ofRetrier (world : Watched) : Turn Answers Task → Bool
  | .go t _ => world.notes[t]?.any Note.retrying
  | .spawn _ => false

/-- The issue a retry is spent on. -/
def spends {β : Type} : Admission.Call β → β → Option IssueKey
  | .issue (.prepareRetry k), .ok () => some k
  | _, _ => none

variable (U w) in
/-- A retry is spent on an issue whose own attempt is failed or closed. -/
def SpentWell (world : Watched) (turn : Turn Answers Task) : Prop :=
  ∀ x ∈ Crew.observe (charter U w) spends world turn, ownRetryable world.shared.table x.2 = true

variable (U w) in
/-- A thread that retries runs the issue its retry was spent on. -/
def RunsSpent (world : Watched) (turn : Turn Answers Task) : Prop :=
  ∀ x ∈ Crew.observe (charter U w) (fun c _ => records c) world turn,
    ∀ g ∈ world.notes[x.1]?, g.retrying = true → g.spent = some x.2

variable (U w) in
/-- No finished row loses its status or its pull request to a retry. -/
def FinishedKept (world : Watched) (turn : Turn Answers Task) : Prop :=
  ofRetrier world turn = true →
    KeepsFinished world.shared.table (Crew.step (charter U w) monitor world turn).shared.table

variable (U w) in
def Spares (world : Watched) (turn : Turn Answers Task) : Prop :=
  SpentWell U w world turn ∧ RunsSpent U w world turn ∧ FinishedKept U w world turn

def retried : TrackerOp → Option IssueKey
  | .prepareForRetry k => some k
  | _ => none

/-- A retry is asked for an issue with a failed or closed cascade only where its own attempt is failed or
closed too, and a thread that retries marks no row that is finished. -/
def Careful (t : FixAttempts) (retrying : Bool) (op : TrackerOp) : Prop :=
  (∀ k ∈ retried op, cascadeRetryable t k = true → ownRetryable t k = true) ∧
    (retrying = true → MarksUnfinished t op)

variable (U w) in
def Guarded (world : Watched) (turn : Turn Answers Task) : Prop :=
  ∀ x ∈ Crew.observe (charter U w) (fun c _ => writes c) world turn,
    Careful world.shared.table (ofRetrier world turn) x.2

/-- Every source has loaded what it was asked for. -/
def Inv (_ : Daemon) (notes : List Note) : Prop := ∀ g ∈ notes, g.strayed = false

theorem next_reply {g : Note} (hg : g.strayed = false) (env : Answers) {β : Type} (c : Admission.Call β)
    (s : Daemon) : (g.next c (reply w.retry env s c)).strayed = false := by
  cases c with
  | issue c =>
    cases c with
    | outer c =>
      cases c with
      | getIssue source issueId =>
        refine Bool.or_eq_false_iff.mpr ⟨hg, ?_⟩
        simp only [reply]
        cases env (.issue (.outer (.getIssue source issueId))) <;> simp [Except.toOption, Except.map]
      | _ => exact hg
    | _ => exact hg
  | _ => exact hg

theorem sound_step {world : Watched} {turn : Turn Answers Task}
    (h : Crew.Sound monitor inOrder (fun _ => True) Inv world) :
    Crew.Sound monitor inOrder (fun _ => True) Inv (Crew.step (charter U w) monitor world turn) := by
  refine h.turn turn allowed_program (fun task s _ _ g hg => ?_) fun t env β c f g _ hp _ g' hg' => ?_
  · rcases List.mem_append.mp hg with hg | hg
    · exact h.inv g hg
    · rw [List.mem_singleton.mp hg]
      rfl
  · rcases List.mem_or_eq_of_mem_set hg' with hg' | rfl
    · exact h.inv g' hg'
    · exact next_reply (h.inv g (Crew.mem_notes hp)) env c world.shared

variable {world : Watched} {turn : Turn Answers Task}

/-- The issue of a retry that is spent. -/
theorem spends_eq_some {β : Type} {c : Admission.Call β} {env : Answers} {s : Daemon}
    (h : spends c (reply w.retry env s c) = some k) :
    writes c = some (.prepareForRetry k) ∧ (s.table.prepareForRetry s.now k).toOption.isSome = true := by
  cases c with
  | issue c =>
    cases c with
    | prepareRetry k' =>
      simp only [reply, prepareRetry] at h
      cases ht : s.table.prepareForRetry s.now k' with
      | error e =>
        rw [ht] at h
        cases h
      | ok t =>
        rw [ht] at h
        obtain rfl := Option.some.inj h
        rw [ht]
        exact ⟨rfl, rfl⟩
    | _ => cases h
  | _ => cases h

theorem spent_well (h : Guarded U w world turn) : SpentWell U w world turn := by
  intro x hx
  obtain ⟨env, β, c, f, g, rfl, hp, hspends⟩ := Crew.observe_eq_some hx
  obtain ⟨hop, hok⟩ := spends_eq_some hspends
  refine spent_well_iff.mpr ((h (x.1, .prepareForRetry x.2) ?_).1 x.2 rfl) hok
  simp only [Crew.observe, hp, hop]
  rfl

theorem runs_spent (h : Crew.Sound monitor inOrder (fun _ => True) Inv world) : RunsSpent U w world turn := by
  intro x hx g hg hretrying
  obtain ⟨env, β, c, f, g', rfl, hp, hrecords⟩ := Crew.observe_eq_some hx
  have hnote : world.notes[x.1]? = some g' := by
    rw [Crew.notes, List.getElem?_map, hp]
    rfl
  obtain rfl := Option.some.inj (hnote.symm.trans hg)
  exact h.call_ok hp hretrying (h.inv g' (Crew.mem_notes hp)) x.2 hrecords

theorem keeps_refl : KeepsFinished t t := fun r hr _ => ⟨r, hr, rfl, rfl, rfl⟩

theorem finished_kept (h : Guarded U w world turn) : FinishedKept U w world turn := by
  intro hr
  cases turn with
  | spawn task => cases hr
  | go t env =>
    rcases hp : world.threads[t]? with - | ⟨a | ⟨c, f⟩, g⟩
    · simp only [Crew.step, hp]
      exact keeps_refl
    · simp only [Crew.step, hp]
      exact keeps_refl
    · have hguard := h
      simp only [Guarded, Crew.observe, hp] at hguard
      simp only [Crew.step, hp, charter]
      cases hop : writes c with
      | none => exact keeps_refl
      | some op =>
        rw [hop] at hguard
        exact keeps_exec hop ((hguard (t, op) rfl).2 hr)

/-- Where no failed or closed cascade brings in an issue whose own attempt is neither, and no run that a
retry began marks a finished row, retries leave finished work alone. -/
theorem finished_work_spared (U : CaseProps) (w : Watcher) (s : Daemon) (l : List (Turn Answers Task)) :
    Along (Crew.step (charter U w) monitor) (Guarded U w) (Crew.initial s) l →
      Along (Crew.step (charter U w) monitor) (Spares U w) (Crew.initial s) l := by
  intro h
  refine h.along (P := Crew.Sound monitor inOrder (fun _ => True) Inv) (fun _ _ hs _ => sound_step hs) ?_
    (Crew.sound_initial fun g hg => absurd hg List.not_mem_nil)
  exact fun world turn hs hguard => ⟨spent_well hguard, runs_spent hs, finished_kept hguard⟩

instance (world : Watched) (turn : Turn Answers Task) : Decidable (Spares U w world turn) :=
  inferInstanceAs (Decidable ((∀ x ∈ _, _) ∧ (∀ x ∈ _, ∀ g ∈ _, _) ∧ (_ → ∀ r ∈ _, _ → ∃ r' ∈ _, _)))

instance (world : Watched) (turn : Turn Answers Task) : Decidable (Guarded U w world turn) :=
  inferInstanceAs (Decidable (∀ x ∈ _, (∀ k ∈ _, _ → _) ∧ (_ → ∀ r ∈ _, _)))

end Runs

/-! ## Retries beside merged work -/

def oneKey : IssueKey := ⟨"linear", "1"⟩

/-- The calls of others, and a scan two seconds later. -/
def thenScan (ops : List TrackerOp) (n : Nat) : List (Turn Answers Task) :=
  ops.map (fun op => .spawn (.write op)) ++
    [.spawn (.elapse 2000), .spawn (.watcher (.processReadyRetries 1))] ++
    List.replicate n (.go (ops.length + 1) (RateLimit.surroundings Processing.opensPr))

/-- An issue is merged; another one's own attempt and a cascade of it failed, and a second cascade of it
is merged. -/
def failedBesideMerged : List TrackerOp :=
  [.recordAttemptWithLabels ⟨"linear", "2"⟩ "LIN-2" [],
    .markSuccess ⟨"linear", "2"⟩ "https://github.com/acme/web/pull/2", .markMerged ⟨"linear", "2"⟩,
    .recordAttemptWithLabels oneKey "LIN-1" [], .markFailed oneKey "timeout",
    .recordCascadeAttempt oneKey "LIN-1" 2 "acme/api", .markCascadeFailed 3 "no agent",
    .recordCascadeAttempt oneKey "LIN-1" 2 "acme/web",
    .updateAttemptPr 4 "https://github.com/acme/web/pull/4" "acme/web" 4, .markCascadePrOutcome 4 true]

/-- The failed issue is run again, once for both rows. -/
theorem finished_work_spared_merged :
    Along (Crew.step (charter Retrying.uncased Retrying.plainWatcher) monitor)
      (Spares Retrying.uncased Retrying.plainWatcher) (Crew.initial ⟨.empty, 0⟩)
      (thenScan failedBesideMerged 45) :=
  finished_work_spared Retrying.uncased Retrying.plainWatcher ⟨.empty, 0⟩ _ (by decide +kernel)

/-- The pull request of the issue is merged, and a cascade of it failed. -/
def mergedWithCascade : List TrackerOp :=
  [.recordAttemptWithLabels oneKey "LIN-1" [], .markSuccess oneKey "https://github.com/acme/web/pull/1",
    .markMerged oneKey, .recordCascadeAttempt oneKey "LIN-1" 1 "acme/api", .markCascadeFailed 2 "no agent"]

def ownAttempt (l : List (Turn Answers Task)) : Option (FixAttemptStatus × Option String) :=
  let world := run (Crew.step (charter Retrying.uncased Retrying.plainWatcher) monitor)
    (Crew.initial ⟨.empty, 0⟩) l
  (world.shared.table.first (ofOriginal oneKey)).map fun r => (r.2.status, r.2.prUrl)

/-- The scan retries the cascade's row, which runs the merged issue again: its attempt ends with the new
run's pull request. -/
theorem merged_issue_is_run :
    ownAttempt (thenScan mergedWithCascade 0) = some (.merged, some "https://github.com/acme/web/pull/1") ∧
      ownAttempt (thenScan mergedWithCascade 30) = some (.success, some "https://github.com/org/api/pull/7") ∧
      ¬ Along (Crew.step (charter Retrying.uncased Retrying.plainWatcher) monitor)
        (Spares Retrying.uncased Retrying.plainWatcher) (Crew.initial ⟨.empty, 0⟩)
        (thenScan mergedWithCascade 30) := by
  decide +kernel

end Claudear.Engine.FinishedWork
