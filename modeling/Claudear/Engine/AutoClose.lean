import Claudear.Engine.Cascade
import Claudear.Storage.PrimaryRow

/-!
# Closing pull requests with their issue

`check_and_auto_close_prs` asks every source about the issues of the pending
pull requests, and closes the attempts of the issues that are done. It lists
rows, original and cascade rows alike, and closes by `(source, issue_id)`, which
is the original row of the issue.
-/

namespace Claudear.Engine.AutoClose

open Claudear.Sql Claudear.Storage Claudear.Machine Claudear.Engine.PullRequests

inductive CloseReq : Type → Type where
  | isStopped : CloseReq Bool
  | getPendingPrs : CloseReq (Except Error (List FixAttempt))
  | getIssueStatus (k : IssueKey) : CloseReq (Except Unit String)
  | markClosed (k : IssueKey) : CloseReq (Except Error Unit)
  | effort (e : Effort) : CloseReq Unit

structure IssueSource where
  name : String
  isTerminalStatus : String → Bool

variable (sources : List IssueSource)

def findSource (name : String) : Option IssueSource := sources.find? fun s => s.name = name

/-- Closes the attempt of an issue that is done. -/
def closeAttempt (attempt : FixAttempt) : Prog CloseReq Unit := do
  .perform (.effort (.recordActivity "pr_auto_closed"))
  let _ ← Prog.perform (.markClosed attempt.key)
  .perform (.effort (.updateQaOutcomeStats attempt.id false))
  .perform (.effort (.notify attempt.key))
  .perform (.effort (.recordFeedbackOutcome attempt.id))
  match attempt.prUrl with
  | some prUrl => .perform (.effort (.unwatchPr prUrl))
  | none => return

/-- One pending pull request: whether it is closed, or `none` when the watcher has stopped. -/
def autoClosePr (attempt : FixAttempt) : Prog CloseReq (Option Bool) := do
  if ← .perform .isStopped then return none
  else
    match findSource sources attempt.key.source with
    | some source =>
      match ← .perform (.getIssueStatus attempt.key) with
      | .ok status =>
        if source.isTerminalStatus status then
          if ← .perform .isStopped then return none
          else
            closeAttempt attempt
            return some true
        else return some false
      | .error () => return some false
    | none => return some false

/-- The attempts that are closed. -/
def autoCloseAll : List FixAttempt → Prog CloseReq (List FixAttempt)
  | [] => pure []
  | attempt :: attempts => do
    match ← autoClosePr sources attempt with
    | none => return []
    | some closed =>
      let rest ← autoCloseAll attempts
      return if closed then attempt :: rest else rest

/-- The URLs of the pull requests that are closed. -/
def checkAndAutoClosePrs : Prog CloseReq (Except Error (List String)) := do
  match ← .perform .getPendingPrs with
  | .ok pendingPrs =>
    let closed ← autoCloseAll sources pendingPrs
    return .ok (closed.filterMap FixAttempt.prUrl)
  | .error e => return .error e

/-! ## Runs -/

/-- What the world answers in one run. `stopped` is whether the watcher has stopped, each time it
is asked. -/
structure CloseEnv where
  status : IssueKey → Except Unit String
  stopped : Nat → Bool := fun _ => false
  listing : Option Error := none
  closing : IssueKey → Option Error := fun _ => none

/-- The table, and how often the watcher was asked whether it has stopped. -/
structure Sweep where
  table : FixAttempts
  asked : Nat := 0

def CloseReq.answer (env : CloseEnv) {β : Type} : CloseReq β → Sweep → β × Sweep
  | .isStopped, s => (env.stopped s.asked, { s with asked := s.asked + 1 })
  | .getPendingPrs, s =>
    match env.listing with
    | some e => (.error e, s)
    | none => (.ok s.table.getPendingPrs, s)
  | .getIssueStatus k, s => (env.status k, s)
  | .markClosed k, s =>
    match env.closing k with
    | some e => (.error e, s)
    | none => (.ok (), { s with table := s.table.markClosed k })
  | .effort _, s => ((), s)

/-- One run of `check_and_auto_close_prs`. -/
def sweep (env : CloseEnv) (t : FixAttempts) : Except Error (List String) × FixAttempts :=
  let r := Prog.eval (CloseReq.answer env) (checkAndAutoClosePrs sources) { table := t }
  (r.1, r.2.table)

variable {sources} {env : CloseEnv} {t t' : FixAttempts} {a : FixAttempt} {s s' : Sweep} {i : Nat}
  {r : AttemptRow} {l : List FixAttempt}

/-- The issue of the attempt is done. -/
def due (sources : List IssueSource) (env : CloseEnv) (a : FixAttempt) : Bool :=
  match findSource sources a.key.source, env.status a.key with
  | some source, .ok status => source.isTerminalStatus status
  | _, _ => false

/-- The attempts a run gets to before the watcher stops; `n` is how often it was asked before. -/
def reached (sources : List IssueSource) (env : CloseEnv) : Nat → List FixAttempt → List FixAttempt
  | _, [] => []
  | n, a :: l =>
    if env.stopped n then []
    else if due sources env a then
      if env.stopped (n + 1) then [] else a :: reached sources env (n + 2) l
    else a :: reached sources env (n + 1) l

/-- `mark_closed`, unless it fails. -/
def close (env : CloseEnv) (t : FixAttempts) (a : FixAttempt) : FixAttempts :=
  if (env.closing a.key).isNone then t.markClosed a.key else t

def closeEach (env : CloseEnv) (t : FixAttempts) (l : List FixAttempt) : FixAttempts := l.foldl (close env) t

theorem eval_closeAttempt :
    Prog.eval (CloseReq.answer env) (closeAttempt a) s = ((), ⟨close env s.table a, s.asked⟩) := by
  have hmark : ((CloseReq.markClosed a.key).answer env s).2 = ⟨close env s.table a, s.asked⟩ := by
    simp only [CloseReq.answer, close]
    cases env.closing a.key <;> rfl
  have htail : ∀ s, Prog.eval (CloseReq.answer env) (do
      .perform (.effort (.updateQaOutcomeStats a.id false))
      .perform (.effort (.notify a.key))
      .perform (.effort (.recordFeedbackOutcome a.id))
      match a.prUrl with
      | some prUrl => .perform (.effort (.unwatchPr prUrl))
      | none => return : Prog CloseReq Unit) s = ((), s) := by
    intro s
    cases a.prUrl <;> rfl
  unfold closeAttempt
  rw [Prog.eval_bind, Prog.eval_bind]
  refine (htail _).trans ?_
  rw [← hmark]
  rfl

theorem eval_autoClosePr : Prog.eval (CloseReq.answer env) (autoClosePr sources a) s =
    if env.stopped s.asked then (none, ⟨s.table, s.asked + 1⟩)
    else if due sources env a then
      if env.stopped (s.asked + 1) then (none, ⟨s.table, s.asked + 2⟩)
      else (some true, ⟨close env s.table a, s.asked + 2⟩)
    else (some false, ⟨s.table, s.asked + 1⟩) := by
  have hask : ∀ s : Sweep, Prog.eval (CloseReq.answer env) (.perform .isStopped) s =
      (env.stopped s.asked, ⟨s.table, s.asked + 1⟩) := fun _ => rfl
  unfold autoClosePr
  rw [Prog.eval_bind, hask]
  cases env.stopped s.asked with
  | true => rfl
  | false =>
    unfold due
    cases findSource sources a.key.source with
    | none => rfl
    | some source =>
      have hstatus : ∀ s : Sweep, Prog.eval (CloseReq.answer env) (.perform (.getIssueStatus a.key)) s =
          (env.status a.key, s) := fun _ => rfl
      simp only [Bool.false_eq_true, if_false]
      rw [Prog.eval_bind, hstatus]
      cases env.status a.key with
      | error e => rfl
      | ok status =>
        by_cases hterm : source.isTerminalStatus status = true
        case neg =>
          simp only [hterm, Bool.false_eq_true, if_false]
          rfl
        case pos =>
          simp only [hterm, if_true]
          rw [Prog.eval_bind, hask]
          cases env.stopped (s.asked + 1) with
          | true => rfl
          | false =>
            simp only [Bool.false_eq_true, if_false]
            rw [Prog.eval_bind, eval_closeAttempt]
            rfl

theorem eval_autoCloseAll (l : List FixAttempt) (s : Sweep) :
    ∃ asked, Prog.eval (CloseReq.answer env) (autoCloseAll sources l) s =
      ((reached sources env s.asked l).filter (due sources env),
        ⟨closeEach env s.table ((reached sources env s.asked l).filter (due sources env)), asked⟩) := by
  induction l generalizing s with
  | nil => exact ⟨s.asked, rfl⟩
  | cons a l ih =>
    unfold autoCloseAll reached
    rw [Prog.eval_bind, eval_autoClosePr]
    cases hstop : env.stopped s.asked with
    | true => exact ⟨s.asked + 1, rfl⟩
    | false =>
      cases hdue : due sources env a with
      | false =>
        obtain ⟨asked, h⟩ := ih ⟨s.table, s.asked + 1⟩
        refine ⟨asked, ?_⟩
        simp only [Bool.false_eq_true, if_false]
        rw [Prog.eval_bind, h, List.filter_cons_of_neg (by rw [hdue]; exact Bool.false_ne_true)]
        rfl
      | true =>
        cases hclaimed : env.stopped (s.asked + 1) with
        | true => exact ⟨s.asked + 2, rfl⟩
        | false =>
          obtain ⟨asked, h⟩ := ih ⟨close env s.table a, s.asked + 2⟩
          refine ⟨asked, ?_⟩
          simp only [Bool.false_eq_true, if_false, if_true]
          rw [Prog.eval_bind, h, List.filter_cons_of_pos hdue]
          rfl

/-! ## What a run leaves -/

/-- The pending pull requests a run lists. -/
def listed (env : CloseEnv) (t : FixAttempts) : List FixAttempt :=
  if env.listing.isNone then t.getPendingPrs else []

/-- The attempts whose pull requests a run reports. -/
def reported (sources : List IssueSource) (env : CloseEnv) (t : FixAttempts) : List FixAttempt :=
  (reached sources env 0 (listed env t)).filter (due sources env)

def report (sources : List IssueSource) (env : CloseEnv) (t : FixAttempts) : Except Error (List String) :=
  match env.listing with
  | some e => .error e
  | none => .ok ((reported sources env t).filterMap FixAttempt.prUrl)

theorem sweep_eq : sweep sources env t = (report sources env t, closeEach env t (reported sources env t)) := by
  unfold sweep checkAndAutoClosePrs report reported listed
  rw [Prog.eval_bind]
  cases hlist : env.listing with
  | some e =>
    have hpending : Prog.eval (CloseReq.answer env) (.perform .getPendingPrs) { table := t } =
        (.error e, { table := t }) := by
      simp only [Prog.eval_perform, CloseReq.answer, hlist]
    rw [hpending]
    rfl
  | none =>
    have hpending : Prog.eval (CloseReq.answer env) (.perform .getPendingPrs) { table := t } =
        (.ok t.getPendingPrs, { table := t }) := by
      simp only [Prog.eval_perform, CloseReq.answer, hlist]
    obtain ⟨asked, h⟩ := @eval_autoCloseAll sources env t.getPendingPrs { table := t }
    rw [hpending]
    simp only [Option.isNone_none, if_true]
    rw [Prog.eval_bind, h]
    rfl

/-- A statement that closes an original leaves it as a second one would. -/
theorem get_close (t : FixAttempts) (a : FixAttempt) (i : Nat) : (close env t a).get i =
    (t.get i).map fun r => if ofOriginal a.key (i, r) && (env.closing a.key).isNone then r.close else r := by
  unfold close
  cases env.closing a.key with
  | none => simp only [Option.isNone_none, if_true, Bool.and_true, FixAttempts.markClosed, Table.get_update]
  | some e => simp

theorem get_closeEach (l : List FixAttempt) (t : FixAttempts) (i : Nat) : (closeEach env t l).get i =
    (t.get i).map fun r =>
      if l.any fun a => ofOriginal a.key (i, r) && (env.closing a.key).isNone then r.close else r := by
  induction l generalizing t with
  | nil => simp [closeEach]
  | cons a l ih =>
    refine (ih (close env t a)).trans ?_
    rw [get_close, Option.map_map]
    congr 1
    funext r
    have hclose : ∀ k, ofOriginal k (i, r.close) = ofOriginal k (i, r) := fun _ => rfl
    simp only [Function.comp, List.any_cons]
    by_cases hc : (ofOriginal a.key (i, r) && (env.closing a.key).isNone) = true
    · simp only [hc, if_true, hclose, Bool.true_or]
      split <;> rfl
    · simp only [hc, Bool.false_eq_true, if_false, Bool.false_or]

/-! ## Retiring what is reported -/

/-- One run changes the status of what it reports, which leaves the pending pull requests, changes
no merged attempt, and leaves nothing to a later run when it gets to its end. -/
structure Retires (sources : List IssueSource) (env : CloseEnv) (t : FixAttempts) : Prop where
  onlyReported : ∀ i r r', t.get i = some r → (sweep sources env t).2.get i = some r' →
    r'.status ≠ r.status → ∃ a ∈ reported sources env t, a.id = i
  leaves : ∀ a ∈ reported sources env t, ∀ b ∈ (sweep sources env t).2.getPendingPrs, b.id ≠ a.id
  merged : ∀ i r, t.get i = some r → r.status = .merged → (sweep sources env t).2.get i = some r
  again : reached sources env 0 (listed env t) = t.getPendingPrs → ∀ env', env'.status = env.status →
    reported sources env' (sweep sources env t).2 = [] ∧
      (sweep sources env' (sweep sources env t).2).2 = (sweep sources env t).2

/-- What a run closes is an original, and closing it does not fail. -/
def ClosesOriginals (sources : List IssueSource) (env : CloseEnv) (t : FixAttempts) : Prop :=
  ∀ a ∈ reached sources env 0 (listed env t), due sources env a = true →
    a.cascadeRepo = none ∧ env.closing a.key = none

theorem reached_subset (n : Nat) (l : List FixAttempt) : ∀ a ∈ reached sources env n l, a ∈ l := by
  induction l generalizing n with
  | nil => exact fun a h => h
  | cons b l ih =>
    intro a h
    unfold reached at h
    split at h
    · cases h
    · have hcons : ∀ m, a ∈ b :: reached sources env m l → a ∈ b :: l := fun m h =>
        (List.mem_cons.mp h).elim (fun h => h ▸ List.mem_cons_self) fun h =>
          List.mem_cons_of_mem _ (ih m a h)
      split at h
      · split at h
        · cases h
        · exact hcons _ h
      · exact hcons _ h

/-- A reported attempt is a row that was pending. -/
theorem reported_row (h : a ∈ reported sources env t) :
    ∃ r, t.get a.id = some r ∧ FixAttempts.pendingPr (a.id, r) = true ∧ rowToFixAttempt (a.id, r) = a ∧
      due sources env a = true := by
  obtain ⟨hr, hdue⟩ := List.mem_filter.mp h
  have hl := reached_subset _ _ a hr
  unfold listed at hl
  split at hl
  · obtain ⟨i, q, hq, hp, rfl⟩ := FixAttempts.mem_getPendingPrs.mp hl
    exact ⟨q, hq, hp, rfl, hdue⟩
  · cases hl

theorem pending_success {p : Nat × AttemptRow} (h : FixAttempts.pendingPr p = true) : p.2.status = .success := by
  simp only [FixAttempts.pendingPr, Bool.and_eq_true, decide_eq_true_eq] at h
  exact h.1.1

/-- Where the run closes a row, it reports its attempt. -/
theorem ClosesOriginals.closed (hu : UniqueOriginal t) (h : ClosesOriginals sources env t)
    (hr : t.get i = some r) (hc : (reported sources env t).any fun a =>
      ofOriginal a.key (i, r) && (env.closing a.key).isNone) :
    ∃ a ∈ reported sources env t, a.id = i ∧ r.status = .success := by
  obtain ⟨a, ha, hc⟩ := List.any_eq_true.mp hc
  obtain ⟨q, hq, hp, hrow, hdue⟩ := reported_row ha
  obtain ⟨hcascade, -⟩ := h a (List.mem_of_mem_filter ha) hdue
  have hk : q.key = a.key := congrArg FixAttempt.key hrow
  have hqc : q.cascadeRepo = a.cascadeRepo := congrArg FixAttempt.cascadeRepo hrow
  have ho : ofOriginal a.key (a.id, q) = true := ofOriginal_iff.mpr ⟨hk, hqc.trans hcascade⟩
  obtain ⟨rfl, rfl⟩ := hu.eq hq hr ho (Bool.and_eq_true _ _ ▸ hc).1
  exact ⟨a, ha, rfl, pending_success hp⟩

/-- The row of a reported attempt is closed. -/
theorem ClosesOriginals.reported_closed (h : ClosesOriginals sources env t)
    (ha : a ∈ reported sources env t) :
    ∃ r, t.get a.id = some r ∧ (sweep sources env t).2.get a.id = some r.close := by
  obtain ⟨q, hq, hp, hrow, hdue⟩ := reported_row ha
  obtain ⟨hcascade, hclosing⟩ := h a (List.mem_of_mem_filter ha) hdue
  have hk : q.key = a.key := congrArg FixAttempt.key hrow
  have hqc : q.cascadeRepo = a.cascadeRepo := congrArg FixAttempt.cascadeRepo hrow
  have ho : ofOriginal a.key (a.id, q) = true := ofOriginal_iff.mpr ⟨hk, hqc.trans hcascade⟩
  refine ⟨q, hq, ?_⟩
  rw [sweep_eq, get_closeEach, hq, Option.map_some, if_pos]
  exact List.any_eq_true.mpr ⟨a, ha, by rw [ho, hclosing]; rfl⟩

theorem due_status {env' : CloseEnv} (h : env'.status = env.status) (a : FixAttempt) :
    due sources env' a = due sources env a := by
  unfold due
  rw [h]

theorem ClosesOriginals.retires (hu : UniqueOriginal t) (h : ClosesOriginals sources env t) :
    Retires sources env t := by
  have hget : ∀ i, (sweep sources env t).2.get i = (t.get i).map fun r =>
      if (reported sources env t).any fun a => ofOriginal a.key (i, r) && (env.closing a.key).isNone
      then r.close else r := by
    intro i
    rw [sweep_eq, get_closeEach]
  have hleaves : ∀ a ∈ reported sources env t, ∀ b ∈ (sweep sources env t).2.getPendingPrs, b.id ≠ a.id := by
    intro a ha b hb hid
    obtain ⟨j, q, hq, hp, rfl⟩ := FixAttempts.mem_getPendingPrs.mp hb
    obtain ⟨r, -, hr'⟩ := h.reported_closed ha
    have hj : j = a.id := hid
    subst hj
    cases Option.some.inj (hr'.symm.trans hq)
    cases pending_success hp
  constructor
  case onlyReported =>
    intro i r r' hr hr' hne
    rw [hget, hr, Option.map_some] at hr'
    split at hr'
    · obtain ⟨a, ha, hid, -⟩ := h.closed hu hr ‹_›
      exact ⟨a, ha, hid⟩
    · cases hr'
      exact absurd rfl hne
  case leaves => exact hleaves
  case merged =>
    intro i r hr hm
    rw [hget, hr, Option.map_some, if_neg]
    intro hc
    obtain ⟨a, -, -, hs⟩ := h.closed hu hr hc
    cases hm.symm.trans hs
  case again =>
    intro hend env' hstatus
    have hnone : reported sources env' (sweep sources env t).2 = [] := by
      refine List.filter_eq_nil_iff.mpr fun b hb hdue => ?_
      have hb := reached_subset _ _ b hb
      unfold listed at hb
      split at hb
      case isFalse => cases hb
      case isTrue =>
        obtain ⟨j, q, hq, hp, rfl⟩ := FixAttempts.mem_getPendingPrs.mp hb
        have hq' := hq
        rw [hget, Option.map_eq_some_iff] at hq'
        obtain ⟨r, hr, hrq⟩ := hq'
        -- a row that is pending after the run was not closed by it
        have hrq : r = q := by
          split at hrq
          · rw [← hrq] at hp
            cases pending_success hp
          · exact hrq
        subst hrq
        have hpending : rowToFixAttempt (j, r) ∈ reached sources env 0 (listed env t) :=
          hend ▸ FixAttempts.mem_getPendingPrs.mpr ⟨j, r, hr, hp, rfl⟩
        rw [due_status hstatus] at hdue
        exact hleaves _ (List.mem_filter.mpr ⟨hpending, hdue⟩) _ hb rfl
    refine ⟨hnone, ?_⟩
    rw [sweep_eq, hnone]
    rfl

/-- A pending pull request that is due and not closed is reported all the same. -/
theorem Retires.closesOriginals (h : Retires sources env t) : ClosesOriginals sources env t := by
  intro a ha hdue
  have hrep : a ∈ reported sources env t := List.mem_filter.mpr ⟨ha, hdue⟩
  obtain ⟨r, hr, hp, hrow, -⟩ := reported_row hrep
  have hk : r.key = a.key := congrArg FixAttempt.key hrow
  have hc : r.cascadeRepo = a.cascadeRepo := congrArg FixAttempt.cascadeRepo hrow
  have hget : (sweep sources env t).2.get a.id = some (if (reported sources env t).any fun b =>
      ofOriginal b.key (a.id, r) && (env.closing b.key).isNone then r.close else r) := by
    rw [sweep_eq, get_closeEach, hr, Option.map_some]
  split at hget
  · rename_i hany
    obtain ⟨b, -, hb⟩ := List.any_eq_true.mp hany
    obtain ⟨ho, hn⟩ := Bool.and_eq_true _ _ ▸ hb
    obtain ⟨hkb, hcb⟩ := ofOriginal_iff.mp ho
    have hkey : b.key = a.key := hkb.symm.trans hk
    rw [hkey] at hn
    exact ⟨hc.symm.trans hcb, Option.isNone_iff_eq_none.mp hn⟩
  · exact absurd rfl (h.leaves a hrep (rowToFixAttempt (a.id, r))
      (FixAttempts.mem_getPendingPrs.mpr ⟨a.id, r, hget, hp, rfl⟩))

/-- A run retires what it reports exactly when all it closes are originals, and no closing fails. -/
theorem auto_close_retires_iff (sources : List IssueSource) (env : CloseEnv) (l : List Call) :
    Retires sources env (tracked l) ↔ ClosesOriginals sources env (tracked l) :=
  ⟨Retires.closesOriginals, ClosesOriginals.retires (uniqueOriginal_tracked l)⟩

/-! An issue that is done, its fix merged, with a downstream pull request still open. -/

def mergedParent : List Call :=
  [⟨0, .recordAttemptWithLabels ⟨"linear", "1"⟩ "1" []⟩,
    ⟨1, .markSuccess ⟨"linear", "1"⟩ "https://github.com/o/lib/pull/1"⟩,
    ⟨2, .markMerged ⟨"linear", "1"⟩⟩,
    ⟨3, .recordCascadeAttempt ⟨"linear", "1"⟩ "1" 1 "https://github.com/o/app"⟩,
    ⟨4, .updateAttemptPr 2 "https://github.com/o/app/pull/2" "o/app" 2⟩]

def linearSource : IssueSource := ⟨"linear", fun status => status = "Done"⟩

/-- The sweep closes the merged original, and keeps the cascade that it reports. -/
theorem merged_parent_closed : ¬ Retires [linearSource] { status := fun _ => .ok "Done" }
    (tracked mergedParent) := by
  intro h
  have hrow : ((tracked mergedParent).get 1).map AttemptRow.status = some .merged := by decide
  obtain ⟨r, hr, hm⟩ := Option.map_eq_some_iff.mp hrow
  have hafter : ((sweep [linearSource] { status := fun _ => .ok "Done" }
      (tracked mergedParent)).2.get 1).map AttemptRow.status = some .closed := by decide +kernel
  rw [h.merged 1 r hr hm, Option.map_some, hm] at hafter
  cases hafter

end Claudear.Engine.AutoClose
