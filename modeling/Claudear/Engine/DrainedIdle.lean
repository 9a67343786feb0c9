import Claudear.Engine.Drain

/-!
# A drained watcher is idle

The note of a thread is the stack of its live claims, and how many of them, the
oldest first, are older than a check that found the watcher not stopping. Work is
only done under such a claim, and so are tasks detached. Once a drain has found
nothing in flight, nobody holds one, and no later check can make one: `stopped`
is never cleared, and `is_running` is only set by the one start, before there is
any loop. What is left are the tasks that runs have detached before.
-/

namespace Claudear.Engine.Drain

open Claudear.Machine
open Claudear.Engine.Retrying (IssueRun)

/-- A caller comes from outside; the start goes through three phases. -/
inductive Role where
  | caller
  | loop
  | detached
  | starting
  | marking
  | marked
  deriving DecidableEq

def Role.starts : Role → Bool
  | .starting | .marking | .marked => true
  | _ => false

structure Note where
  role : Role
  claims : List Claim
  /-- How many of the claims, the oldest first, are older than a check that was passed. -/
  checked : Nat

/-- The role of the thread that runs a job. -/
def Job.role (job : Job) : Role :=
  match job with
  | .start => .starting
  | .detached _ => .detached
  | job => if job.ofLoops then .loop else .caller

def watch : Monitor Access State Job Note where
  idle := ⟨.caller, [], 0⟩
  start job := ⟨job.role, [], 0⟩
  next g c b _ :=
    match c, b with
    | .addInFlight claim, _ => { g with claims := claim :: g.claims }
    | .subInFlight _, _ => { g with claims := g.claims.tail, checked := min g.checked g.claims.tail.length }
    | .loadStopped, false =>
      { g with
        role := if g.role = .marking then .marked else g.role
        checked := g.claims.length }
    | .loadRunning, true => { g with checked := g.claims.length }
    | .storeRunning true, _ => { g with role := .marking }
    | .beginLoops, _ => { g with role := .caller }
    | _, _ => g

/-- What a thread may do. -/
def Ok {β : Type} (g : Note) : Access β → Prop
  | .storeRunning running => running = true → g.role = .starting
  | .beginLoops => g.role = .marked
  | .subInFlight claim => g.claims.head? = some claim
  | .work w => g.role = .detached ∧ w.isDetached = true ∨ 0 < g.checked
  | .detach .. => 0 < g.checked
  | .loadRunning => g.claims ≠ [] → g.role = .loop
  | _ => True

/-! ## Programs that keep their claims -/

/-- At least `n` of the thread's claims are checked. -/
structure At (role : Role) (claims : List Claim) (n : Nat) (g : Note) : Prop where
  role : g.role = role
  claims : g.claims = claims
  checked : n ≤ g.checked

def Keeps {α : Type} (role : Role) (claims : List Claim) (n : Nat) (p : Run α) : Prop :=
  ∀ g, At role claims n g → Allowed watch Ok p (fun _ => At role claims n) g

variable {α β : Type} {role : Role} {claims : List Claim} {n : Nat} {p : Run α} {a : α} {key : String}

theorem keeps_pure : Keeps role claims n (pure a : Run α) := fun _ h => h

theorem Keeps.bind {f : α → Run β} (h : Keeps role claims n p) (hf : ∀ a, Keeps role claims n (f a)) :
    Keeps role claims n (p >>= f) := fun g hg => (h g hg).bind fun a g' hg' => hf a g' hg'

theorem Keeps.ite {c : Prop} [Decidable c] {q : Run α} (hp : Keeps role claims n p)
    (hq : Keeps role claims n q) : Keeps role claims n (if c then p else q) := by
  split
  · exact hp
  · exact hq

theorem keeps_ask (q : Ask β) : Keeps role claims n (ask q) := fun _ h => ⟨trivial, fun _ _ => h⟩

theorem keeps_containsKey : Keeps role claims n (.perform (.containsKey key)) :=
  fun _ h => ⟨trivial, fun _ _ => h⟩

theorem keeps_works (w : Work) : Keeps role claims (n + 1) (works w) := by
  refine (keeps_ask _).bind fun _ _ hg => ?_
  refine allowed_forM (fun _ _ _ hg => ?_) hg
  exact allowed_perform (.inr (Nat.lt_of_lt_of_le n.succ_pos hg.checked)) fun _ _ => hg

theorem keeps_issueRun : Keeps role claims (n + 1) (issueRun key) := by
  refine (keeps_ask _).bind fun _ _ hg => ?_
  refine allowed_forM (fun step _ g hg => ?_) hg
  have hpos : 0 < g.checked := Nat.lt_of_lt_of_le n.succ_pos hg.checked
  cases step with
  | work => exact allowed_perform (.inr hpos) fun _ _ => hg
  | detach task => exact allowed_perform (c := Access.detach key task) hpos fun _ _ => hg

theorem keeps_runDetached (task : Task) : Keeps .detached [] 0 (runDetached task) := by
  refine (keeps_ask _).bind fun _ _ hg => ?_
  refine allowed_forM (fun _ _ _ hg => ?_) hg
  exact allowed_perform (.inl ⟨hg.role, rfl⟩) fun _ _ => hg

theorem keeps_forWhile {f : β → Run Bool} {l : List β} (h : ∀ b, Keeps role claims n (f b)) :
    Keeps role claims n (forWhile f l) := fun _ hg => allowed_forWhile (fun b _ g hg => h b g hg) hg

/-- Past the check, every claim is checked. -/
theorem keeps_unlessStopped {stopping : α} (hr : role.starts = false) (hn : n ≤ claims.length)
    (h : Keeps role claims claims.length p) : Keeps role claims n (unlessStopped stopping p) := by
  refine fun g hg => allowed_call trivial fun b s => ?_
  cases b with
  | true => exact hg
  | false =>
    have hm : g.role ≠ .marking := by
      rw [hg.role]
      rintro rfl
      cases hr
    have hpassed : At role claims claims.length (watch.next g .loadStopped false s) :=
      ⟨(if_neg hm).trans hg.role, hg.claims, (congrArg List.length hg.claims).ge⟩
    exact (h _ hpassed).mono fun a g' hg' => ⟨hg'.role, hg'.claims, hn.trans hg'.checked⟩

theorem keeps_whileRunning {stopping : α} (hn : n ≤ claims.length)
    (h : Keeps .loop claims claims.length p) : Keeps .loop claims n (whileRunning stopping p) := by
  refine fun g hg => allowed_call (fun _ => hg.role) fun b s => ?_
  cases b with
  | false => exact hg
  | true =>
    have hpassed : At .loop claims claims.length (watch.next g .loadRunning true s) :=
      ⟨hg.role, hg.claims, (congrArg List.length hg.claims).ge⟩
    exact (h _ hpassed).mono fun a g' hg' => ⟨hg'.role, hg'.claims, hn.trans hg'.checked⟩

theorem allowed_sub {claim : Claim} (hn : n ≤ claims.length) {g : Note}
    (hg : At role (claim :: claims) n g) :
    Allowed watch Ok (.perform (.subInFlight claim)) (fun _ => At role claims n) g := by
  refine allowed_perform (c := Access.subInFlight claim) ?_ fun _ _ => ⟨hg.role, ?_, ?_⟩
  · show g.claims.head? = some claim
    rw [hg.claims]
    rfl
  · show g.claims.tail = claims
    rw [hg.claims]
    rfl
  · show n ≤ min g.checked g.claims.tail.length
    rw [hg.claims]
    exact le_min hg.checked hn

theorem keeps_withRun (hn : n ≤ claims.length) (h : Keeps role (.run :: claims) n p) :
    Keeps role claims n (withRun p) := by
  refine fun g hg => allowed_call trivial fun _ s => ?_
  have hclaimed : At role (.run :: claims) n (watch.next g (.addInFlight .run) () s) :=
    ⟨hg.role, congrArg (_ :: ·) hg.claims, hg.checked⟩
  refine (h _ hclaimed).bind fun a g hg => ?_
  exact (allowed_sub hn hg).bind fun _ g hg => hg

theorem keeps_withProcessing {busy : α} (hn : n ≤ claims.length)
    (h : Keeps role (.processing key :: claims) n p) : Keeps role claims n (withProcessing key busy p) := by
  refine fun g hg => allowed_call trivial fun b _ => ?_
  cases b with
  | false => exact hg
  | true =>
    refine allowed_call trivial fun _ _ => allowed_call trivial fun _ s => ?_
    have hclaimed : At role (.processing key :: claims) n
        (watch.next g (.addInFlight (.processing key)) () s) :=
      ⟨hg.role, congrArg (_ :: ·) hg.claims, hg.checked⟩
    refine (h _ hclaimed).bind fun a g hg => ?_
    refine allowed_call trivial fun _ _ => allowed_call trivial fun _ _ => ?_
    exact (allowed_sub hn hg).bind fun _ g hg => hg

/-! ## The programs -/

section Programs

variable {source issueId shortId : String} (hr : role.starts = false) (hn : n ≤ claims.length)

include hr hn

/-- What is done under a processing claim, once the watcher is found not stopping. -/
theorem keeps_claimed {busy stopping : α} (h : Keeps role (.processing key :: claims) (claims.length + 1) p) :
    Keeps role claims n (withProcessing key busy (unlessStopped stopping p)) :=
  keeps_withProcessing hn (keeps_unlessStopped hr (Nat.le_succ_of_le hn) h)

theorem keeps_processIssue : Keeps role claims n (processIssue source issueId) := by
  refine (keeps_ask _).bind fun processable => .ite keeps_pure ?_
  refine (keeps_ask _).bind fun paused => .ite keeps_pure ?_
  exact keeps_claimed hr hn (keeps_issueRun.bind fun _ => keeps_ask _)

theorem keeps_runSecurityFixRequest : Keeps role claims n (runSecurityFixRequest shortId) := by
  refine (keeps_ask _).bind fun paused => .ite keeps_pure ?_
  exact keeps_claimed hr hn (keeps_issueRun.bind fun _ => keeps_ask _)

theorem keeps_processSecurityIssue : Keeps role claims n (processSecurityIssue source issueId) := by
  refine (keeps_ask _).bind fun enabled => .ite keeps_pure ?_
  refine (keeps_ask _).bind fun paused => .ite keeps_pure ?_
  refine Keeps.bind (keeps_claimed hr hn ?_) fun routed => ?_
  · refine (keeps_works _).bind fun _ => (keeps_ask _).bind fun route => ?_
    cases route <;> exact keeps_pure
  · cases routed with
    | error run => exact keeps_pure
    | ok shortId => exact keeps_runSecurityFixRequest hr hn

theorem keeps_runAgain : Keeps role claims n (runAgain source issueId) := by
  unfold runAgain
  exact .ite (keeps_runSecurityFixRequest hr hn) (keeps_processIssue hr hn)

theorem keeps_retry : Keeps role claims n (retry source issueId) := by
  refine keeps_withRun hn (keeps_unlessStopped hr (Nat.le_succ_of_le hn) ?_)
  refine (keeps_works _).bind fun _ => (keeps_ask _).bind fun loads => .ite ?_ ?_
  · refine (keeps_runAgain hr le_rfl).bind fun run => ?_
    exact (keeps_works _).bind fun _ => keeps_pure
  · exact (keeps_works _).bind fun _ => keeps_pure

theorem keeps_triggerIssueInner : Keeps role claims n (triggerIssueInner source issueId) := by
  refine keeps_unlessStopped hr hn ?_
  refine (keeps_ask _).bind fun loads => .ite keeps_pure ?_
  refine (keeps_ask _).bind fun security => .ite ?_ ?_
  · exact (keeps_processSecurityIssue hr le_rfl).bind fun _ => keeps_pure
  · exact (keeps_runAgain hr le_rfl).bind fun _ => keeps_pure

end Programs

section Loops

variable {source issueId : String} (hn : n ≤ claims.length)

include hn

theorem keeps_rerunWithReviewFeedback (rounds : Nat) :
    Keeps .loop claims n (rerunWithReviewFeedback source issueId rounds) := by
  induction rounds generalizing n with
  | zero => exact keeps_pure
  | succ rounds ih =>
    have hwait : Keeps .loop claims n (whileRunning () (rerunWithReviewFeedback source issueId rounds)) :=
      keeps_whileRunning hn (ih le_rfl)
    refine keeps_containsKey.bind fun busy => .ite hwait ?_
    refine (keeps_triggerIssueInner rfl hn).bind fun ran => .ite keeps_pure ?_
    exact keeps_containsKey.bind fun busy => .ite hwait keeps_pure

theorem keeps_checkReview (rounds : Nat) (reviewed : Reviewed) :
    Keeps .loop claims n (checkReview rounds reviewed) := by
  cases reviewed with
  | unknown => exact keeps_pure
  | terminal => exact keeps_pure
  | attempt source issueId =>
    refine keeps_withRun hn (keeps_whileRunning (Nat.le_succ_of_le hn) ?_)
    refine Keeps.bind ?_ fun _ => (keeps_ask _).bind fun failed => ?_
    · refine (keeps_works _).bind fun _ => (keeps_ask _).bind fun reruns => ?_
      refine Keeps.ite ?_ (keeps_works _)
      exact (keeps_rerunWithReviewFeedback le_rfl rounds).bind fun _ => keeps_works _
    · refine .ite ?_ ?_
      · exact (keeps_whileRunning le_rfl (keeps_works _)).bind fun _ => keeps_pure
      · exact (keeps_works _).bind fun _ => keeps_pure

/-- What follows up on something the loop found. -/
theorem keeps_followUp (w : Work) (q : Ask Bool) :
    Keeps .loop claims n (whileRunning false do
      if ← ask q then withRun <| whileRunning false do
          works w
          return true
      else return true) := by
  refine keeps_whileRunning hn ((keeps_ask _).bind fun found => .ite ?_ keeps_pure)
  refine keeps_withRun le_rfl (keeps_whileRunning (Nat.le_succ _) ?_)
  exact (keeps_works _).bind fun _ => keeps_pure

theorem keeps_checkReviews (rounds : Nat) : Keeps .loop claims n (checkReviews rounds) := by
  refine keeps_whileRunning hn ((keeps_ask _).bind fun _ => ?_)
  exact keeps_forWhile fun _ => keeps_checkReview le_rfl rounds _

theorem keeps_checkReleasesAndCascade : Keeps .loop claims n checkReleasesAndCascade :=
  (keeps_ask _).bind fun _ => keeps_forWhile fun _ => keeps_followUp hn _ _

theorem keeps_checkPrMergesAndCascade : Keeps .loop claims n checkPrMergesAndCascade :=
  (keeps_ask _).bind fun _ => keeps_forWhile fun _ => keeps_followUp hn _ _

theorem keeps_checkAndAutoClosePrs : Keeps .loop claims n checkAndAutoClosePrs := by
  refine (keeps_ask _).bind fun _ => keeps_forWhile fun _ => ?_
  refine keeps_unlessStopped rfl hn ((keeps_ask _).bind fun ended => .ite ?_ keeps_pure)
  refine keeps_withRun le_rfl (keeps_unlessStopped rfl (Nat.le_succ _) ?_)
  exact (keeps_works _).bind fun _ => keeps_pure

theorem keeps_awaitRetrySlot (rounds : Nat) : Keeps .loop claims n (awaitRetrySlot source rounds) := by
  induction rounds generalizing n with
  | zero => exact keeps_pure
  | succ rounds ih =>
    exact (keeps_ask _).bind fun slot => .ite keeps_pure (keeps_whileRunning hn (ih le_rfl))

theorem keeps_processReadyRetries (rounds : Nat) :
    Keeps .loop claims n (processReadyRetries rounds) := by
  refine (keeps_ask _).bind fun paused => .ite keeps_pure ?_
  refine (keeps_ask _).bind fun _ => keeps_forWhile fun _ => keeps_whileRunning hn ?_
  refine keeps_containsKey.bind fun busy => .ite keeps_pure ?_
  refine (keeps_awaitRetrySlot le_rfl rounds).bind fun slot => .ite ?_ keeps_pure
  exact (keeps_retry rfl le_rfl).bind fun _ => keeps_pure

end Loops

theorem keeps_stop : Keeps role claims n stop := by
  refine fun g hg => allowed_call trivial fun _ _ => ?_
  exact allowed_perform (fun h => Bool.noConfusion h) fun _ _ => hg

theorem keeps_waitUntilIdle (rounds : Nat) : Keeps role claims n (waitUntilIdle rounds) := by
  induction rounds with
  | zero => exact keeps_pure
  | succ rounds ih =>
    refine Keeps.bind (fun _ hg => ⟨trivial, fun _ _ => hg⟩) fun inFlight => ?_
    exact .ite keeps_pure ih

theorem Keeps.toUnit (h : Keeps role claims n p) : Keeps role claims n (toUnit p) :=
  h.bind fun _ => keeps_pure

theorem keeps_program (job : Job) (hj : job ≠ .start) : Keeps job.role [] 0 job.program := by
  cases job with
  | start => exact absurd rfl hj
  | stop => exact keeps_stop
  | waitUntilIdle rounds => exact keeps_waitUntilIdle rounds
  | stopAndDrain rounds => exact keeps_stop.bind fun _ => keeps_waitUntilIdle rounds
  | processIssue source issueId => exact (keeps_processIssue rfl le_rfl).toUnit
  | runSecurityFixRequest shortId => exact (keeps_runSecurityFixRequest rfl le_rfl).toUnit
  | processSecurityIssue source issueId => exact (keeps_processSecurityIssue rfl le_rfl).toUnit
  | retry source issueId => exact (keeps_retry rfl le_rfl).toUnit
  | triggerIssue source issueId => exact (keeps_triggerIssueInner rfl le_rfl).toUnit
  | checkReviews rounds => exact keeps_checkReviews le_rfl rounds
  | checkReleasesAndCascade => exact keeps_checkReleasesAndCascade le_rfl
  | checkPrMergesAndCascade => exact keeps_checkPrMergesAndCascade le_rfl
  | checkAndAutoClosePrs => exact keeps_checkAndAutoClosePrs le_rfl
  | processReadyRetries rounds => exact keeps_processReadyRetries le_rfl rounds
  | detached task => exact keeps_runDetached task

/-- A thread that is done has dropped its claims. -/
def Free (g : Note) : Prop := g.claims = []

theorem allowed_start : Allowed watch Ok start (fun _ => Free) (watch.start .start) := by
  refine allowed_call (fun _ => rfl) fun _ _ => allowed_call trivial fun stopped _ => ?_
  cases stopped with
  | true => exact allowed_call (fun h => by cases h) fun _ _ => rfl
  | false => exact allowed_perform rfl fun _ _ => rfl

theorem allowed_program (job : Job) :
    Allowed watch Ok (charter.program job) (fun _ => Free) (watch.start job) := by
  by_cases hj : job = .start
  · subst hj
    exact allowed_start
  · exact (keeps_program job hj _ ⟨rfl, rfl, le_rfl⟩).mono fun _ _ h => h.claims

/-! ## The invariant -/

def liveClaims (notes : List Note) : Nat := (notes.map fun g => g.claims.length).sum

structure Inv (s : State) (notes : List Note) : Prop where
  count : s.inFlight = liveClaims notes
  checked : ∀ g ∈ notes, g.checked ≤ g.claims.length
  halted : s.halted = true → s.stopped = true
  drained : s.drained = true → s.halted = true ∧ ∀ g ∈ notes, g.checked = 0
  loops : ∀ g ∈ notes, g.role = .loop → s.service = .looping
  starts : ∀ g ∈ notes, g.role.starts = true → s.service = .starting
  one : ∀ (i j : Nat) (g h : Note), notes[i]? = some g → notes[j]? = some h → g.role.starts = true →
    h.role.starts = true → i = j
  /-- Nobody sets `is_running` again. -/
  off : s.halted = true → s.service = .looping → s.isRunning = false
  marked : ∀ g ∈ notes, g.role = .marked → s.halted = true → s.isRunning = false

variable {s s' : State} {notes : List Note} {g g' : Note} {t : Nat}

theorem forall_set {P : Note → Prop} (h : ∀ x ∈ notes, P x) (hg : P g') : ∀ x ∈ notes.set t g', P x := by
  intro x hx
  rcases List.mem_or_eq_of_mem_set hx with hx | rfl
  · exact h x hx
  · exact hg

theorem Inv.one_set (h : Inv s notes) (hg : notes[t]? = some g)
    (hs : g'.role.starts = true → g.role.starts = true) :
    ∀ (i j : Nat) (x y : Note), (notes.set t g')[i]? = some x → (notes.set t g')[j]? = some y → x.role.starts = true →
      y.role.starts = true → i = j := by
  have hold : ∀ (i : Nat) (x : Note), (notes.set t g')[i]? = some x → x.role.starts = true →
      ∃ y, notes[i]? = some y ∧ y.role.starts = true := by
    intro i x hx hstarts
    rw [List.getElem?_set] at hx
    split at hx
    · rename_i hi
      subst hi
      split at hx
      · obtain rfl := Option.some.inj hx
        exact ⟨g, hg, hs hstarts⟩
      · cases hx
    · exact ⟨x, hx, hstarts⟩
  intro i j x y hx hy hxs hys
  obtain ⟨x', hx', hxs'⟩ := hold i x hx hxs
  obtain ⟨y', hy', hys'⟩ := hold j y hy hys
  exact h.one i j x' y' hx' hy' hxs' hys'

theorem liveClaims_set (hg : notes[t]? = some g) :
    liveClaims (notes.set t g') + g.claims.length = liveClaims notes + g'.claims.length :=
  sum_map_set hg

theorem liveClaims_relabel (g' : Note) (hg : notes[t]? = some g) (h : g'.claims = g.claims) :
    liveClaims (notes.set t g') = liveClaims notes := by
  have hlive : liveClaims (notes.set t g') + g.claims.length = _ := liveClaims_set hg
  rw [h] at hlive
  exact Nat.add_right_cancel hlive

theorem le_liveClaims (hg : notes[t]? = some g) : g.claims.length ≤ liveClaims notes :=
  le_sum_map (fun x : Note => x.claims.length) hg

/-- A call that leaves the flags and the note as they are. -/
theorem Inv.still (h : Inv s notes) (hg : notes[t]? = some g) (hcount : s'.inFlight = s.inFlight)
    (hstopped : s.stopped = true → s'.stopped = true) (hhalted : s'.halted = s.halted)
    (hdrained : s'.drained = s.drained) (hrunning : s'.isRunning = s.isRunning)
    (hservice : s'.service = s.service) : Inv s' (notes.set t g) := by
  obtain ⟨ht, rfl⟩ := List.getElem?_eq_some_iff.mp hg
  rw [List.set_getElem_self]
  refine ⟨hcount.trans h.count, h.checked, ?_, ?_, ?_, ?_, h.one, ?_, ?_⟩
  · rw [hhalted]
    exact fun hh => hstopped (h.halted hh)
  · rw [hhalted, hdrained]
    exact h.drained
  · rw [hservice]
    exact h.loops
  · rw [hservice]
    exact h.starts
  · rw [hhalted, hservice, hrunning]
    exact h.off
  · rw [hhalted, hrunning]
    exact h.marked

/-- A claim that is taken, or given back, is counted. -/
theorem Inv.claim (h : Inv s notes) (g' : Note) (hg : notes[t]? = some g) (hrole : g'.role = g.role) {k : Nat}
    (hcount : k + g.claims.length = s.inFlight + g'.claims.length)
    (hchecked : g'.checked ≤ g'.claims.length) (hle : g'.checked ≤ g.checked) :
    Inv { s with inFlight := k } (notes.set t g') := by
  have hmem := List.mem_of_getElem? hg
  have hlive : liveClaims (notes.set t g') + g.claims.length = _ := liveClaims_set hg
  have hs := h.count
  refine ⟨?_, forall_set h.checked hchecked, h.halted, fun hd => ?_, forall_set h.loops ?_,
    forall_set h.starts ?_, h.one_set hg ?_, h.off, forall_set h.marked ?_⟩
  · show k = liveClaims (notes.set t g')
    omega
  · obtain ⟨hh, hall⟩ := h.drained hd
    exact ⟨hh, forall_set hall (Nat.le_zero.mp ((hall g hmem) ▸ hle))⟩
  all_goals rw [hrole]
  · exact h.loops g hmem
  · exact h.starts g hmem
  · exact id
  · exact h.marked g hmem

/-- A check that is passed: the watcher was not drained. -/
theorem Inv.pass (h : Inv s notes) (hg : notes[t]? = some g) (hrole : g'.role = g.role ∨
      g.role = .marking ∧ g'.role = .marked ∧ s.stopped = false) (hclaims : g'.claims = g.claims)
    (hchecked : g'.checked = g.claims.length) (hnot : g.claims ≠ [] → s.drained = false) :
    Inv s (notes.set t g') := by
  have hmem := List.mem_of_getElem? hg
  have hlive : liveClaims (notes.set t g') = _ := liveClaims_relabel g' hg hclaims
  have hs := h.count
  have hstarts : g'.role.starts = true → g.role.starts = true := by
    rcases hrole with hr | ⟨hr, -, -⟩
    · rw [hr]
      exact id
    · rw [hr]
      exact fun _ => rfl
  refine ⟨?_, forall_set h.checked (by rw [hchecked, hclaims]), h.halted, fun hd => ?_,
    forall_set h.loops fun hl => ?_, forall_set h.starts fun hst => h.starts g hmem (hstarts hst),
    h.one_set hg hstarts, h.off, forall_set h.marked fun hm hh => ?_⟩
  · exact hs.trans hlive.symm
  · obtain ⟨hh, hall⟩ := h.drained hd
    refine ⟨hh, forall_set hall ?_⟩
    by_cases hc : g.claims = []
    · rw [hchecked, hc]
      rfl
    · rw [hnot hc] at hd
      cases hd
  · rcases hrole with hr | ⟨-, hr, -⟩
    · exact h.loops g hmem (hr ▸ hl)
    · rw [hr] at hl
      cases hl
  · rcases hrole with hr | ⟨-, -, hstopped⟩
    · exact h.marked g hmem (hr ▸ hm) hh
    · rw [h.halted hh] at hstopped
      cases hstopped

theorem eq_nil_of_liveClaims (h : liveClaims notes = 0) : ∀ g ∈ notes, g.claims = [] := by
  intro g hg
  obtain ⟨t, ht⟩ := List.mem_iff_getElem?.mp hg
  have hle := le_liveClaims ht
  exact List.eq_nil_of_length_eq_zero (by omega)

/-- Beside a thread that starts the watcher, no other does. -/
theorem Inv.alone (h : Inv s notes) (hg : notes[t]? = some g) (hs : g.role.starts = true) :
    ∀ x ∈ notes.set t g', x.role.starts = true → x = g' := by
  intro x hx hxs
  obtain ⟨j, hj⟩ := List.mem_iff_getElem?.mp hx
  rw [List.getElem?_set] at hj
  split at hj
  · split at hj
    · exact (Option.some.inj hj).symm
    · cases hj
  · rename_i hne
    exact absurd (h.one t j g x hg hj hs hxs) hne

theorem Inv.setRunning (h : Inv s notes) (hg : notes[t]? = some g) (hr : g.role = .starting) :
    Inv { s with isRunning := true } (notes.set t { g with role := .marking }) := by
  have hmem := List.mem_of_getElem? hg
  have hs : g.role.starts = true := by rw [hr]; rfl
  have hservice := h.starts g hmem hs
  refine ⟨?_, forall_set h.checked (h.checked g hmem), h.halted, fun hd => ?_, forall_set h.loops nofun,
    forall_set h.starts fun _ => hservice, h.one_set hg fun _ => hs, fun _ hl => ?_, fun x hx hm _ => ?_⟩
  · exact h.count.trans (liveClaims_relabel { g with role := .marking } hg rfl).symm
  · exact (h.drained hd).imp_right fun hall => forall_set hall (hall g hmem)
  · rw [hservice] at hl
    cases hl
  · obtain rfl := h.alone hg hs x hx (by rw [hm]; rfl)
    cases hm

theorem Inv.clearRunning (h : Inv s notes) :
    Inv { s with isRunning := false, halted := s.halted || s.stopped } notes where
  count := h.count
  checked := h.checked
  halted hh := (Bool.or_eq_true _ _ ▸ hh).elim h.halted id
  drained hd := (h.drained hd).imp_left fun hh => by simp [hh]
  loops := h.loops
  starts := h.starts
  one := h.one
  off _ _ := rfl
  marked _ _ _ _ := rfl

theorem Inv.begin (h : Inv s notes) (hg : notes[t]? = some g) (hr : g.role = .marked) :
    Inv { s with service := .looping } (notes.set t { g with role := .caller }) := by
  have hmem := List.mem_of_getElem? hg
  have hs : g.role.starts = true := by rw [hr]; rfl
  have halone : ∀ x ∈ notes.set t { g with role := .caller }, x.role.starts = false := by
    intro x hx
    by_contra hxs
    obtain rfl := h.alone hg hs x hx (Bool.eq_true_of_not_eq_false hxs)
    exact hxs rfl
  refine ⟨?_, forall_set h.checked (h.checked g hmem), h.halted, fun hd => ?_, fun _ _ _ => rfl,
    fun x hx hxs => ?_, h.one_set hg fun hc => (by cases hc), fun hh _ => h.marked g hmem hr hh,
    fun x hx hm => ?_⟩
  · exact h.count.trans (liveClaims_relabel { g with role := .caller } hg rfl).symm
  · exact (h.drained hd).imp_right fun hall => forall_set hall (hall g hmem)
  · rw [halone x hx] at hxs
    cases hxs
  · have hxs := halone x hx
    rw [hm] at hxs
    cases hxs

/-- A drain that finds nothing in flight finds nobody past a check. -/
theorem Inv.drain (h : Inv s notes) :
    Inv { s with drained := s.drained || (s.halted && s.inFlight == 0) } notes := by
  refine ⟨h.count, h.checked, h.halted, fun hd => ?_, h.loops, h.starts, h.one, h.off, h.marked⟩
  simp only [Bool.or_eq_true, Bool.and_eq_true, beq_iff_eq] at hd
  rcases hd with hd | ⟨hh, hz⟩
  · exact h.drained hd
  · refine ⟨hh, fun g hg => ?_⟩
    have hle := h.checked g hg
    rw [eq_nil_of_liveClaims (h.count.symm.trans hz) g hg] at hle
    exact Nat.le_zero.mp hle

theorem Inv.call (h : Inv s notes) {env : Answers} {c : Access β} (hg : notes[t]? = some g)
    (hok : Ok g c) :
    let r := answer env c s
    Inv r.2 (notes.set t (watch.next g c r.1 r.2)) := by
  have hmem := List.mem_of_getElem? hg
  have hsame : ∀ {s'}, Inv s' notes → Inv s' (notes.set t g) := fun h' =>
    h'.still hg rfl id rfl rfl rfl rfl
  cases c with
  | swapStopped => exact h.still hg rfl (fun _ => rfl) rfl rfl rfl rfl
  | loadStopped =>
    show Inv s (notes.set t (watch.next g .loadStopped s.stopped s))
    cases hs : s.stopped with
    | true => exact hsame h
    | false =>
      refine h.pass hg ?_ rfl rfl fun _ => ?_
      · by_cases hm : g.role = .marking
        · exact .inr ⟨hm, if_pos hm, hs⟩
        · exact .inl (if_neg hm)
      · by_contra hd
        have hstopped := h.halted (h.drained (Bool.eq_true_of_not_eq_false hd)).1
        rw [hs] at hstopped
        cases hstopped
  | storeRunning running =>
    cases running with
    | true =>
      have hset := h.setRunning hg (hok rfl)
      show Inv { s with isRunning := true, halted := s.halted || false } _
      rwa [Bool.or_false]
    | false => exact hsame h.clearRunning
  | loadRunning =>
    show Inv s (notes.set t (watch.next g .loadRunning s.isRunning s))
    cases hr : s.isRunning with
    | false => exact hsame h
    | true =>
      refine h.pass hg (.inl rfl) rfl rfl fun hne => ?_
      by_contra hd
      have hoff := h.off (h.drained (Bool.eq_true_of_not_eq_false hd)).1 (h.loops g hmem (hok hne))
      rw [hr] at hoff
      cases hoff
  | insertKey key =>
    simp only [answer]
    split <;> exact h.still hg rfl id rfl rfl rfl rfl
  | removeKey key | addActive | subActive | detach key task => exact h.still hg rfl id rfl rfl rfl rfl
  | containsKey key => exact hsame h
  | addInFlight claim =>
    refine h.claim (watch.next g (.addInFlight claim) () s) hg rfl ?_ ?_ le_rfl
    · show s.inFlight + 1 + g.claims.length = s.inFlight + (g.claims.length + 1)
      omega
    · exact (h.checked g hmem).trans (Nat.le_succ _)
  | subInFlight claim =>
    refine h.claim (watch.next g (.subInFlight claim) () s) hg rfl ?_ (min_le_right _ _) (min_le_left _ _)
    have hle : g.claims.length ≤ s.inFlight := h.count ▸ le_liveClaims hg
    obtain ⟨rest, hclaims⟩ := List.head?_eq_some_iff.mp (show g.claims.head? = some claim from hok)
    show s.inFlight - 1 + g.claims.length = s.inFlight + g.claims.tail.length
    rw [hclaims] at hle ⊢
    simp only [List.length_cons, List.tail_cons] at hle ⊢
    omega
  | loadInFlight => exact hsame h.drain
  | beginLoops => exact h.begin hg hok
  | work w => exact hsame h
  | ask q => exact hsame h

/-- A job of the loops is only started once they have begun, the start only once, and a detached task
when a run has spawned it. -/
theorem enter_cases {job : Job} (h : job.enter s = some s') :
    (job = .start ∧ s.service = .built ∧ s' = { s with service := .starting }) ∨
      ((∃ l, s' = { s with detached := l }) ∧ job.role.starts = false ∧
        (job.role = .loop → s.service = .looping)) := by
  by_cases hj : job = .start
  · subst hj
    simp only [Job.enter] at h
    split at h
    · rename_i hs
      exact .inl ⟨rfl, hs, (Option.some.inj h).symm⟩
    · cases h
  by_cases hd : ∃ task, job = .detached task
  · obtain ⟨task, rfl⟩ := hd
    simp only [Job.enter] at h
    split at h
    · exact .inr ⟨⟨_, (Option.some.inj h).symm⟩, rfl, nofun⟩
    · cases h
  · right
    have he : job.enter s = if job.ofLoops ∧ s.service ≠ .looping then none else some s := by
      cases job <;> first | rfl | exact absurd rfl hj | exact absurd ⟨_, rfl⟩ hd
    have hr : job.role = if job.ofLoops then .loop else .caller := by
      cases job <;> first | rfl | exact absurd rfl hj | exact absurd ⟨_, rfl⟩ hd
    rw [he] at h
    split at h
    · cases h
    · rename_i hs
      refine ⟨⟨s.detached, (Option.some.inj h).symm⟩, ?_, fun hl => ?_⟩
      · rw [hr]
        split <;> rfl
      · by_contra hne
        rw [hr] at hl
        split at hl
        · rename_i hloops
          exact hs ⟨hloops, hne⟩
        · cases hl

theorem getElem?_concat (h : (notes ++ [g'])[t]? = some g) : notes[t]? = some g ∨ t = notes.length ∧ g = g' := by
  rcases Nat.lt_trichotomy t notes.length with ht | ht | ht
  · rw [List.getElem?_append_left ht] at h
    exact .inl h
  · subst ht
    rw [List.getElem?_concat_length] at h
    exact .inr ⟨rfl, (Option.some.inj h).symm⟩
  · rw [List.getElem?_eq_none (by rw [List.length_append]; exact ht)] at h
    cases h

theorem Inv.spawn (h : Inv s notes) {job : Job} (he : job.enter s = some s') :
    Inv s' (notes ++ [watch.start job]) := by
  have hlive : liveClaims (notes ++ [watch.start job]) = liveClaims notes := by
    rw [liveClaims, List.map_append, List.sum_append]
    rfl
  have hnew {P : Note → Prop} (hP : ∀ g ∈ notes, P g) (hj : P (watch.start job)) :
      ∀ g ∈ notes ++ [watch.start job], P g := by
    intro g hg
    rcases List.mem_append.mp hg with hg | hg
    · exact hP g hg
    · exact List.mem_singleton.mp hg ▸ hj
  rcases enter_cases he with ⟨rfl, hs, rfl⟩ | ⟨⟨_, rfl⟩, hstarts, hloop⟩
  · have hnone : ∀ g ∈ notes, g.role.starts = false := by
      intro g hg
      by_contra hg'
      have hservice := h.starts g hg (Bool.eq_true_of_not_eq_false hg')
      rw [hs] at hservice
      cases hservice
    refine ⟨hlive ▸ h.count, hnew h.checked le_rfl, h.halted, fun hd => ?_, hnew ?_ nofun,
      fun _ _ _ => rfl, fun i j x y hx hy hxs hys => ?_, fun _ hl => ?_, hnew ?_ nofun⟩
    · exact (h.drained hd).imp_right fun hall => hnew hall rfl
    · intro g hg hl
      have hservice := h.loops g hg hl
      rw [hs] at hservice
      cases hservice
    · have hlast : ∀ {i : Nat} {x : Note}, (notes ++ [watch.start .start])[i]? = some x →
          x.role.starts = true → i = notes.length := by
        intro i x hx hxs
        rcases getElem?_concat hx with hx | ⟨hi, -⟩
        · rw [hnone x (List.mem_of_getElem? hx)] at hxs
          cases hxs
        · exact hi
      rw [hlast hx hxs, hlast hy hys]
    · cases hl
    · intro g hg hm
      have hgs := hnone g hg
      rw [hm] at hgs
      cases hgs
  · refine ⟨hlive ▸ h.count, hnew h.checked le_rfl, h.halted, fun hd => ?_, hnew h.loops hloop,
      hnew h.starts fun hs => ?_, fun i j x y hx hy hxs hys => ?_, h.off, hnew h.marked fun hm => ?_⟩
    · exact (h.drained hd).imp_right fun hall => hnew hall rfl
    · exact absurd (hstarts.symm.trans hs) Bool.false_ne_true
    · have hold : ∀ {i : Nat} {x : Note}, (notes ++ [watch.start job])[i]? = some x →
          x.role.starts = true → notes[i]? = some x := by
        intro i x hx hxs
        rcases getElem?_concat hx with hx | ⟨-, rfl⟩
        · exact hx
        · exact absurd (hstarts.symm.trans hxs) Bool.false_ne_true
      exact h.one i j x y (hold hx hxs) (hold hy hys) hxs hys
    · have hm' : job.role = .marked := hm
      rw [hm'] at hstarts
      cases hstarts

theorem inv_initial : Inv .initial [] where
  count := rfl
  checked := nofun
  halted := nofun
  drained := nofun
  loops := nofun
  starts := nofun
  one _ _ _ _ h := by cases h
  off := nofun
  marked := nofun

/-! ## Runs -/

/-- What is started or recorded, a task that a run detaches included. -/
def working {β : Type} : Access β → β → Option Work
  | .work w, _ => some w
  | .detach key _, _ => some (.issueRun key)
  | _, _ => none

/-- Once a drain that follows a stop has found nothing in flight, nobody works but what runs have
detached before. -/
def Idle (w : Crew Access State Note) (turn : Turn Answers Job) : Prop :=
  w.shared.drained = true →
    ∀ t x, Crew.observe charter working w turn = some (t, x) → ∃ task, x = .detached task

variable {w : Crew Access State Note} {turn : Turn Answers Job}

theorem sound_step (h : Crew.Sound watch Ok Free Inv w) :
    Crew.Sound watch Ok Free Inv (Crew.step charter watch w turn) :=
  h.step turn allowed_program (fun _ _ _ he => h.inv.spawn he) fun _ _ _ _ _ _ hg hok => h.inv.call hg hok

theorem sound_initial : Crew.Sound watch Ok Free Inv (Crew.initial .initial) := Crew.sound_initial inv_initial

theorem idle_of_sound (h : Crew.Sound watch Ok Free Inv w) : Idle w turn := by
  intro hd t x ho
  obtain ⟨env, β, c, k, g, rfl, hp, hw⟩ := Crew.observe_eq_some ho
  have hok := h.call_ok hp
  have hzero : ¬ 0 < g.checked := by
    rw [(h.inv.drained hd).2 g (List.mem_map_of_mem (List.mem_of_getElem? hp))]
    exact Nat.lt_irrefl 0
  cases c with
  | work y =>
    obtain rfl : y = x := Option.some.inj hw
    have hy := (hok.resolve_right hzero).2
    cases y with
    | detached task => exact ⟨task, rfl⟩
    | _ => cases hy
  | detach => exact absurd hok hzero
  | _ => cases hw

/-- Whatever the order of the accesses: every live claim is counted, and once a drain that follows a
stop has found nothing in flight, no run, retry, review rerun, follow-up or cascade does anything;
only judges and heartbeats that runs have detached by then go on. -/
theorem drained_idle (l : List (Turn Answers Job)) :
    Always (Crew.step charter watch) (fun w => w.shared.inFlight = liveClaims w.notes)
      (Crew.initial .initial) l ∧
    Along (Crew.step charter watch) Idle (Crew.initial .initial) l := by
  constructor
  · refine always_iff_run.mpr fun pre _ => ?_
    exact (run_inv (fun w turn hw => sound_step hw) sound_initial pre).inv.count
  · have hall : Along (Crew.step charter watch) (fun _ _ => True) (Crew.initial .initial) l :=
      along_of_forall fun _ _ _ => trivial
    exact hall.along (fun w turn hw _ => sound_step hw) (fun w turn hw _ => idle_of_sound hw) sound_initial

/-- Nothing stands in the way of a run. -/
def calm : Answers
  | _, .isRateLimitPaused => false
  | _, .isProcessable .. => true
  | _, .securityInboxEnabled => false
  | _, .isSecurityIssue .. => false
  | _, .issueLoads .. => true
  | _, .steps _ => 1
  | _, .runSteps => [.work, .detach .retrievalJudge, .work]
  | _, .outcome => .processed
  | _, .route => none
  | _, .hasSlot _ => true
  | _, .readyRetries => []
  | _, .reviews => []
  | _, .rerunsReviewed => false
  | _, .reviewFailed => false
  | _, .pendingPrs => [()]
  | _, .prEnded => true
  | _, .upstreams => []
  | _, .newRelease => false
  | _, .issueEnded => false

/-- A run that has spawned a judge ends, and the drain finds nothing in flight. -/
def drainBesideJudge : List (Turn Answers Job) :=
  .spawn (.processIssue "linear" "1") :: List.replicate 14 (.go 0 calm) ++ .spawn (.stopAndDrain 1) ::
    List.replicate 3 (.go 1 calm) ++ [.spawn (.detached .retrievalJudge), .go 2 calm]

/-- The judge works after the drain. -/
theorem judge_outlives_drain :
    let w := run (Crew.step charter watch) (Crew.initial .initial) drainBesideJudge
    w.shared.drained = true ∧ w.shared.inFlight = 0 ∧
      Crew.observe charter working w (.go 2 calm) = some (2, .detached .retrievalJudge) := by
  decide +kernel

end Claudear.Engine.Drain
