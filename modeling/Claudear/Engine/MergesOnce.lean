import Claudear.Engine.LoneWatcher

/-!
# One check of the pull requests after another

An error in storing an outcome, or in marking an issue resolved, ends the check:
the pull requests behind it are not looked at. What was acted on is settled, and
does not come up in a later check.
-/

namespace Claudear.Engine.PullRequests

open Claudear.Sql Claudear.Storage Claudear.Machine Claudear.Text

variable {U : CaseProps} {w : Watcher} {answers : Answers} {t t' : FixAttempts} {a : FixAttempt}
  {s s' s₀ : Check} {id i : Nat} {r : AttemptRow}

/-! ## One pull request -/

/-- The attempt is what was read of its row, whose pull request is open. -/
def Listed (t : FixAttempts) (a : FixAttempt) : Prop :=
  ∃ r, t.get a.id = some r ∧ rowToFixAttempt (a.id, r) = a ∧ FixAttempts.pendingPr (a.id, r) = true

theorem Listed.prUrl (h : Listed t a) : a.prUrl.isSome := by
  obtain ⟨r, -, ha, hp⟩ := h
  simp only [FixAttempts.pendingPr, Bool.and_eq_true] at hp
  rw [← ha]
  exact hp.1.2

/-- The row of the attempt has moved, and no other that is taken. -/
structure After (a : FixAttempt) (status : FixAttemptStatus) (t t' : FixAttempts) : Prop where
  sane : Sane t'
  others : ∀ i r, i ≠ a.id → t.get i = some r → Taken r → t'.get i = some r
  own : ∃ r, t'.get a.id = some r ∧ r.status = status ∧ r.prUrl.isSome ∧ r.key = a.key ∧
    r.cascadeRepo = a.cascadeRepo

theorem get_update_original (h : UniqueOriginal t) (hr : t.get id = some r) {k : IssueKey}
    (ho : ofOriginal k (id, r) = true) (f : AttemptRow → AttemptRow) (i : Nat) :
    (t.update (ofOriginal k) f).get i = if i = id then some (f r) else t.get i := by
  split
  · rename_i hi
    subst hi
    exact Table.get_update_of hr ho
  · rename_i hi
    cases hg : t.get i with
    | none => simp [Table.get_update, hg]
    | some q =>
      refine Table.get_update_of_not hg ?_
      rw [Bool.eq_false_iff]
      exact fun hq => hi (h.eq hg hr hq ho).1

theorem After.aside {status : FixAttemptStatus} (h : After a status t s₀.table) (hs : Aside s₀ s) :
    After a status t s.table := by
  obtain ⟨r, hr, hst, hp, hk, hc⟩ := h.own
  exact ⟨hs.sane, fun i q hi hq ht => hs.kept i q (h.others i q hi hq ht) ht,
    r, hs.kept a.id r hr (.inr hp), hst, hp, hk, hc⟩

/-- Marking an issue resolved leaves its attempt where it is. -/
theorem After.resolved {status : FixAttemptStatus} (h : After a status t t') (hc : a.cascadeRepo = none)
    (now : Timestamp) : After a status t (t'.exec ⟨now, .markResolved a.key⟩) := by
  obtain ⟨r, hr, hst, hp, hk, hcr⟩ := h.own
  have ho : ofOriginal a.key (a.id, r) = true := ofOriginal_iff.mpr ⟨hk, hcr.trans hc⟩
  have hget := get_update_original h.sane.original hr ho (·.resolve now)
  have hsane : Sane (t'.exec ⟨now, .markResolved a.key⟩) := h.sane.exec fun _ _ _ _ he => by cases he
  refine ⟨hsane, fun i q hi hq ht => ?_, r.resolve now, ?_, hst, hp, hk, hcr⟩
  · exact (hget i).trans ((if_neg hi).trans (h.others i q hi hq ht))
  · exact (hget a.id).trans (if_pos rfl)

def movedTo (merged : Bool) : FixAttemptStatus := if merged then .merged else .closed

theorem After.of_get {status : FixAttemptStatus} {q : AttemptRow} (hsane : Sane t')
    (hget : ∀ i, t'.get i = if i = a.id then some q else t.get i) (hst : q.status = status)
    (hp : q.prUrl.isSome) (hk : q.key = a.key) (hc : q.cascadeRepo = a.cascadeRepo) :
    After a status t t' :=
  ⟨hsane, fun i _ hi hr _ => (hget i).trans ((if_neg hi).trans hr),
    q, (hget a.id).trans (if_pos rfl), hst, hp, hk, hc⟩

/-- An outcome that is stored moves the row of its attempt. -/
theorem Listed.settle (hs : Sane t) (hl : Listed t a) (merged : Bool) (env : Env) (he : env.error = none) :
    ∃ t', (Watcher.settleRow a merged).answer env t = (.ok (), t') ∧ After a (movedTo merged) t t' := by
  obtain ⟨r, hr, ha, hp⟩ := hl
  have hk : r.key = a.key := congrArg FixAttempt.key ha
  have hc : r.cascadeRepo = a.cascadeRepo := congrArg FixAttempt.cascadeRepo ha
  have hurl : r.prUrl.isSome := by
    simp only [FixAttempts.pendingPr, Bool.and_eq_true] at hp
    exact hp.1.2
  have hstored : ∀ f : FixAttempts → Unit × FixAttempts, env.stored f t = (.ok (), (f t).2) := by
    intro f
    simp only [Env.stored, he]
  unfold Watcher.settleRow
  split
  · rename_i hcs
    refine ⟨_, hstored fun t => ((), t.markCascadePrOutcome env.now a.id merged), ?_⟩
    have hsane : Sane (t.exec ⟨env.now, .markCascadePrOutcome a.id merged⟩) :=
      hs.exec fun _ _ _ _ he => by cases he
    refine After.of_get hsane (fun i => ?_) (rfl : (r.settle merged env.now).status = _) hurl hk hc
    split
    · rename_i hi
      subst hi
      exact Table.get_update_of hr (by simp [ofId, hc, hcs])
    · rename_i hi
      exact Table.get_update_of_ne fun c => by simp [ofId, hi]
  · rename_i hcs
    have ho : ofOriginal a.key (a.id, r) = true :=
      ofOriginal_iff.mpr ⟨hk, hc.trans (by simpa using hcs)⟩
    cases merged with
    | true =>
      have hsane : Sane (t.exec ⟨env.now, .markMerged a.key⟩) := hs.exec fun _ _ _ _ he => by cases he
      exact ⟨_, hstored fun t => ((), t.markMerged env.now a.key),
        After.of_get hsane (get_update_original hs.original hr ho _) (rfl : (r.merge env.now).status = _) hurl hk hc⟩
    | false =>
      have hsane : Sane (t.exec ⟨env.now, .markClosed a.key⟩) := hs.exec fun _ _ _ _ he => by cases he
      exact ⟨_, hstored fun t => ((), t.markClosed a.key),
        After.of_get hsane (get_update_original hs.original hr ho _) (rfl : r.close.status = _) hurl hk hc⟩

theorem settleRow_error {merged : Bool} {env : Env} {e : Error} (he : env.error = some e) :
    (Watcher.settleRow a merged).answer env t = (.error e, t) := by
  unfold Watcher.settleRow
  split
  · simp only [Req.answer, Env.stored, he]
  · split <;> simp only [Req.answer, Env.stored, he]

/-- A merge of the attempt sets up a regression watch. -/
def watches (U : CaseProps) (a : FixAttempt) : Prop :=
  a.cascadeRepo.isNone ∧ a.key.source ≠ SECURITY_FIX_SOURCE ∧ isBug U a

instance : Decidable (watches U a) := inferInstanceAs (Decidable (_ ∧ _))

/-- The place among the calls where the issue is resolved at its source. -/
def resolveCall (U : CaseProps) (a : FixAttempt) : Nat := if watches U a then 7 else 6

/-- The merge resolves the issue at its source, and the attempt cannot be marked resolved. -/
def CannotMark (U : CaseProps) (w : Watcher) (a : FixAttempt) (env : Nat → Env) : Prop :=
  (a.cascadeRepo.isNone ∧ a.key.source ≠ SECURITY_FIX_SOURCE ∧ w.autoResolveOnMerge ∧
    a.key.source ∈ w.sources) ∧
  (watches U a → (env 6).error.isSome) ∧ (env (resolveCall U a)).resolved = .ok () ∧
  (env (resolveCall U a + 1)).error.isSome

theorem cannotMark_watched {env : Nat → Env} (hw : watches U a) : CannotMark U w a env ↔
    (a.cascadeRepo.isNone ∧ a.key.source ≠ SECURITY_FIX_SOURCE ∧ ¬ (env 6).error.isNone ∧
      w.autoResolveOnMerge ∧ a.key.source ∈ w.sources) ∧
      (env 7).resolved = .ok () ∧ (env 8).error.isSome := by
  have h6 : (env 6).error.isSome ↔ ¬ (env 6).error.isNone := by
    cases (env 6).error <;> simp
  unfold CannotMark resolveCall
  rw [if_pos hw, h6]
  constructor
  · rintro ⟨⟨hc, hs, hr, hm⟩, hn, h⟩
    exact ⟨⟨hc, hs, hn hw, hr, hm⟩, h⟩
  · rintro ⟨⟨hc, hs, hn, hr, hm⟩, h⟩
    exact ⟨⟨hc, hs, hr, hm⟩, fun _ => hn, h⟩

theorem cannotMark_unwatched {env : Nat → Env} (hw : ¬ watches U a) : CannotMark U w a env ↔
    (a.cascadeRepo.isNone ∧ a.key.source ≠ SECURITY_FIX_SOURCE ∧ ¬ false = true ∧
      w.autoResolveOnMerge ∧ a.key.source ∈ w.sources) ∧
      (env 6).resolved = .ok () ∧ (env 7).error.isSome := by
  unfold CannotMark resolveCall
  rw [if_neg hw]
  constructor
  · rintro ⟨⟨hc, hs, hr, hm⟩, -, h⟩
    exact ⟨⟨hc, hs, Bool.false_ne_true, hr, hm⟩, h⟩
  · rintro ⟨⟨hc, hs, -, hr, hm⟩, h⟩
    exact ⟨⟨hc, hs, hr, hm⟩, fun h => absurd h hw, h⟩

section Merge

variable {n j : Nat} {log : List Begun} {status : FixAttemptStatus}

theorem eval_watchForRegression_serve :
    Prog.eval (serve answers) (Watcher.watchForRegression U a) ⟨t, n, 5, log⟩ =
      if watches U a then
        ((answers n 6).error.isNone, ⟨t, n, 6, log ++ [.regressionWatch a.id]⟩)
      else (false, ⟨t, n, 5, log⟩) := by
  unfold Watcher.watchForRegression
  split
  · rename_i hw
    have hw : watches U a := hw
    rw [if_pos hw]
    refine (Prog.eval_bind (.perform (Req.createRegressionWatch a.key.issueId a.id)) _).trans ?_
    rw [Prog.eval_perform]
    cases he : (answers n 6).error with
    | none | some e =>
      simp only [serve, Check.count, Req.answer, Env.stored, he]
      rfl
  · rename_i hw
    have hw : ¬ watches U a := hw
    rw [if_neg hw]
    rfl

/-- Only the failure to mark the attempt is an error. -/
theorem ends_autoResolve (h : After a status t t') (watched : Bool) :
    Prog.Ends (serve answers) (w.autoResolve a watched).run
      (fun r s => (After a status t s.table ∧ s.lookups = n ∧ s.begun = log) ∧
        if (a.cascadeRepo.isNone ∧ a.key.source ≠ SECURITY_FIX_SOURCE ∧ ¬ watched ∧
            w.autoResolveOnMerge ∧ a.key.source ∈ w.sources) ∧
            (answers n (j + 1)).resolved = .ok () ∧ (answers n (j + 2)).error.isSome
          then ∃ e, r = .error e else r = .ok ())
      ⟨t', n, j, log⟩ := by
  unfold Watcher.autoResolve whenever
  split
  · rename_i hc
    refine Prog.ends_lift ?_
    have hresolve : serve answers (.resolveIssue a.key) ⟨t', n, j, log⟩ =
        ((answers n (j + 1)).resolved, ⟨t', n, j + 1, log⟩) := rfl
    rw [hresolve]
    cases hres : (answers n (j + 1)).resolved with
    | error e => exact ⟨⟨h, rfl, rfl⟩, by rw [if_neg fun hn => by cases hn.2.1]; rfl⟩
    | ok u =>
      cases herr : (answers n (j + 2)).error with
      | some e =>
        have hcall : serve answers (.markResolved a.key) ⟨t', n, j + 1, log⟩ =
            (.error e, ⟨t', n, j + 2, log⟩) := by
          simp only [serve, Check.count, Req.answer, Env.stored, herr]
          rfl
        refine Prog.ends_tryCall (fun _ hok => ?_) fun e' _ => ?_
        · rw [hcall] at hok
          cases hok
        · rw [hcall]
          refine ⟨⟨h, rfl, rfl⟩, ?_⟩
          rw [if_pos ⟨hc, rfl, rfl⟩]
          exact ⟨e', rfl⟩
      | none =>
        have hcall : serve answers (.markResolved a.key) ⟨t', n, j + 1, log⟩ =
            (.ok (), ⟨t'.exec ⟨(answers n (j + 2)).now, .markResolved a.key⟩, n, j + 2, log⟩) := by
          simp only [serve, Check.count, Req.answer, Env.stored, herr]
          rfl
        have h := h.resolved (Option.isNone_iff_eq_none.mp hc.1) (answers n (j + 2)).now
        refine Prog.ends_tryCall (fun _ _ => ?_) fun _ herr => ?_
        · rw [hcall]
          unfold Watcher.forPr
          split
          all_goals
            refine ⟨⟨h, rfl, rfl⟩, ?_⟩
            rw [if_neg fun hn => by cases hn.2.2]
            rfl
        · rw [hcall] at herr
          cases herr
  · rename_i hc
    refine ⟨⟨h, rfl, rfl⟩, ?_⟩
    rw [if_neg fun hn => hc hn.1]
    rfl

/-- What follows the merge, up to the cascade. -/
theorem ends_afterMerge (h : After a status t t') (hp : a.prUrl.isSome) :
    Prog.Ends (serve answers) (w.afterMerge U a).run
      (fun r s => After a status t s.table ∧ s.lookups = n ∧
        (s.begun = log ∨ s.begun = log ++ [.regressionWatch a.id]) ∧
        (CannotMark U w a (answers n) → ∃ e, r = .error e) ∧
        (¬ CannotMark U w a (answers n) → r = .ok ()))
      ⟨t', n, 2, log⟩ := by
  obtain ⟨prUrl, hprUrl⟩ := Option.isSome_iff_exists.mp hp
  have htells : Tells (do
      whenever (a.cascadeRepo.isNone ∧ a.key.source ≠ SECURITY_FIX_SOURCE)
        (ask (.effort (.fixShippedReply a.key)))
      ask (.effort (.recordFeedbackOutcome a.id))
      whenever (a.key.source ≠ SECURITY_FIX_SOURCE) (ask (.effort (.postMergeLearning a.id)))
      Watcher.forPr a fun prUrl => ask (.effort (.unwatchPr prUrl))) :=
    .bind (.whenever (tells_effort rfl)) (.bind (tells_effort rfl)
      (.bind (.whenever (tells_effort rfl)) (.forPr fun _ => tells_effort rfl)))
  have hfor : ∀ f : String → ExceptT Error Run Unit, Watcher.forPr a f = f prUrl := by
    intro f
    simp only [Watcher.forPr, hprUrl]
  unfold Watcher.afterMerge
  refine Prog.ends_lift (Prog.ends_lift ?_)
  rw [hfor]
  refine Prog.ends_lift ?_
  have hend : ∀ {s : Check} {log' : List Begun}, After a status t s.table → s.lookups = n →
      s.begun = log' → (log' = log ∨ log' = log ++ [.regressionWatch a.id]) →
      ¬ CannotMark U w a (answers n) → Prog.Ends (serve answers) (do
        whenever (a.cascadeRepo.isNone ∧ a.key.source ≠ SECURITY_FIX_SOURCE)
          (ask (.effort (.fixShippedReply a.key)))
        ask (.effort (.recordFeedbackOutcome a.id))
        whenever (a.key.source ≠ SECURITY_FIX_SOURCE) (ask (.effort (.postMergeLearning a.id)))
        Watcher.forPr a fun prUrl => ask (.effort (.unwatchPr prUrl)) : ExceptT Error Run Unit).run
      (fun r s => After a status t s.table ∧ s.lookups = n ∧
        (s.begun = log ∨ s.begun = log ++ [.regressionWatch a.id]) ∧
        (CannotMark U w a (answers n) → ∃ e, r = .error e) ∧
        (¬ CannotMark U w a (answers n) → r = .ok ())) s := by
    intro s log' ha hn hb hlog hmark
    refine (htells answers s s (.refl ha.sane)).mono fun r s' ⟨hr, hs⟩ => ?_
    refine ⟨ha.aside hs, hs.lookups.trans hn, ?_, fun hc => absurd hc hmark, fun _ => hr⟩
    rw [hs.begun, hb]
    exact hlog
  -- where the watch leaves the calls, and what the resolution then depends on
  have hwatch : Prog.Ends (serve answers)
      (ExceptT.lift (Watcher.watchForRegression U a) : ExceptT Error Run Bool).run
      (fun r s => ∃ watched j log', r = .ok watched ∧ s = ⟨t', n, j, log'⟩ ∧
        (log' = log ∨ log' = log ++ [.regressionWatch a.id]) ∧
        (CannotMark U w a (answers n) ↔ (a.cascadeRepo.isNone ∧ a.key.source ≠ SECURITY_FIX_SOURCE ∧
          ¬ watched ∧ w.autoResolveOnMerge ∧ a.key.source ∈ w.sources) ∧
          (answers n (j + 1)).resolved = .ok () ∧ (answers n (j + 2)).error.isSome))
      ⟨t', n, 5, log⟩ := by
    have heval : Prog.Ends (serve answers) (Watcher.watchForRegression U a)
        (fun watched s => (watched, s) = if watches U a then
          ((answers n 6).error.isNone, ⟨t', n, 6, log ++ [.regressionWatch a.id]⟩)
        else (false, ⟨t', n, 5, log⟩)) ⟨t', n, 5, log⟩ := eval_watchForRegression_serve
    refine heval.lift.mono ?_
    rintro r s ⟨watched, rfl, hs⟩
    split at hs
    · rename_i hw
      cases hs
      refine ⟨_, _, _, rfl, rfl, .inr rfl, ?_⟩
      exact cannotMark_watched hw
    · rename_i hw
      cases hs
      refine ⟨_, _, _, rfl, rfl, .inl rfl, ?_⟩
      exact cannotMark_unwatched hw
  refine Prog.Ends.tryBind hwatch ?_ fun e s ⟨_, _, _, hr, _⟩ => by cases hr
  rintro watched _ ⟨_, j, log', hr, rfl, hlog, hiff⟩
  cases hr
  refine Prog.Ends.tryBind (ends_autoResolve h watched) (fun u s hs => ?_) fun e s hs => ?_
  · obtain ⟨⟨ha, hn, hb⟩, hif⟩ := hs
    refine hend ha hn hb hlog fun hc => ?_
    rw [if_pos (hiff.mp hc)] at hif
    obtain ⟨e, he⟩ := hif
    cases he
  · obtain ⟨⟨ha, hn, hb⟩, hif⟩ := hs
    refine ⟨ha, hn, hb ▸ hlog, fun _ => ⟨e, rfl⟩, fun hc => ?_⟩
    rw [if_neg fun h => hc (hiff.mpr h)] at hif
    cases hif

/-- What a stored outcome leaves: a moved row, and what was begun for it. -/
structure Outcome (a : FixAttempt) (status : FixAttemptStatus) (n : Nat) (log : List Begun)
    (t : FixAttempts) (s : Check) : Prop where
  after : After a status t s.table
  lookups : s.lookups = n
  begun : ∃ new, s.begun = log ++ new ∧ new.Nodup ∧ (∀ b ∈ new, b.attemptId = a.id) ∧
    (new ≠ [] → status = .merged)

theorem serve_settleRow_eq (merged : Bool) : serve answers (Watcher.settleRow a merged) ⟨t, n, 1, log⟩ =
    (((Watcher.settleRow a merged).answer { answers n 2 with running := true } t).1,
      ⟨((Watcher.settleRow a merged).answer { answers n 2 with running := true } t).2, n, 2, log⟩) := by
  unfold Watcher.settleRow
  split
  · rfl
  · split <;> rfl

theorem serve_settleRow_error {merged : Bool} {e : Error} (he : (answers n 2).error = some e) :
    serve answers (Watcher.settleRow a merged) ⟨t, n, 1, log⟩ = (.error e, ⟨t, n, 2, log⟩) := by
  have h : (Watcher.settleRow a merged).answer { answers n 2 with running := true } t = (.error e, t) :=
    settleRow_error he
  rw [serve_settleRow_eq, h]

theorem serve_settleRow (hs : Sane t) (hl : Listed t a) (merged : Bool) (he : (answers n 2).error = none) :
    ∃ t', serve answers (Watcher.settleRow a merged) ⟨t, n, 1, log⟩ = (.ok (), ⟨t', n, 2, log⟩) ∧
      After a (movedTo merged) t t' := by
  obtain ⟨t', h, ha⟩ := hl.settle hs merged { answers n 2 with running := true } he
  exact ⟨t', by rw [serve_settleRow_eq, h], ha⟩

/-- The watch of a merge, and then its cascade. -/
theorem Outcome.of_cascade {l : List Begun} (ha : After a .merged t s₀.table) (hn : s₀.lookups = n)
    (hb : s₀.begun = l) (hl : l = log ∨ l = log ++ [.regressionWatch a.id])
    (h : Aside s₀ s ∨ Aside (s₀.begin (.cascade a.id)) s) : Outcome a .merged n log t s := by
  rcases h with h | h
  · refine ⟨ha.aside h, h.lookups.trans hn, ?_⟩
    rw [h.begun, hb]
    rcases hl with rfl | rfl
    · exact ⟨[], (List.append_nil _).symm, List.nodup_nil, fun _ hb => absurd hb List.not_mem_nil, fun _ => rfl⟩
    · refine ⟨_, rfl, List.nodup_singleton _, fun b hb => ?_, fun _ => rfl⟩
      rw [List.mem_singleton.mp hb]
      rfl
  · have ha : After a .merged t (s₀.begin (.cascade a.id)).table := ha
    refine ⟨ha.aside h, h.lookups.trans hn, ?_⟩
    rw [h.begun, Check.begin, hb]
    rcases hl with rfl | rfl
    · refine ⟨_, rfl, List.nodup_singleton _, fun b hb => ?_, fun _ => rfl⟩
      rw [List.mem_singleton.mp hb]
      rfl
    · refine ⟨[.regressionWatch a.id, .cascade a.id], List.append_assoc _ _ _, by simp, fun b hb => ?_,
        fun _ => rfl⟩
      rcases List.mem_pair.mp hb with rfl | rfl <;> rfl

theorem ends_prMerged (hs : Sane t) (hl : Listed t a) (he : (answers n 2).error = none) :
    Prog.Ends (serve answers) (w.prMerged U a).run
      (fun r s => Outcome a .merged n log t s ∧
        (CannotMark U w a (answers n) → ∃ e, r = .error e) ∧
        (¬ CannotMark U w a (answers n) → r = .ok ()))
      ⟨t, n, 1, log⟩ := by
  obtain ⟨t', hserve, ha⟩ : ∃ t', serve answers (Watcher.settleRow a true) ⟨t, n, 1, log⟩ =
      (.ok (), ⟨t', n, 2, log⟩) ∧ After a .merged t t' := serve_settleRow hs hl true he
  unfold Watcher.prMerged
  refine Prog.ends_tryCall (fun _ _ => ?_) fun e he => ?_
  · rw [hserve]
    refine Prog.Ends.tryBind (ends_afterMerge ha hl.prUrl) ?_ ?_
    · rintro u s ⟨ha, hn, hb, hc, -⟩
      have hmark : ¬ CannotMark U w a (answers n) := fun h => by
        obtain ⟨e, he⟩ := hc h
        cases he
      have hend : ∀ {s'}, Aside s s' ∨ Aside (s.begin (.cascade a.id)) s' →
          Outcome a .merged n log t s' := fun h => .of_cascade ha hn rfl hb h
      unfold whenever
      split
      · refine (ends_triggerCascade (.refl ha.sane) a .merge).lift.mono ?_
        rintro r s' ⟨u, rfl, h⟩
        exact ⟨hend h, fun h => absurd h hmark, fun _ => rfl⟩
      · exact ⟨hend (.inl (.refl ha.sane)), fun h => absurd h hmark, fun _ => rfl⟩
    · rintro e s ⟨ha, hn, hb, -, hok⟩
      refine ⟨.of_cascade ha hn rfl hb (.inl (.refl ha.sane)), fun _ => ⟨e, rfl⟩, fun h => ?_⟩
      cases hok h
  · rw [hserve] at he
    cases he

theorem ends_prClosed (hs : Sane t) (hl : Listed t a) (he : (answers n 2).error = none) :
    Prog.Ends (serve answers) (Watcher.prClosed a).run
      (fun r s => Outcome a .closed n log t s ∧ r = .ok ()) ⟨t, n, 1, log⟩ := by
  obtain ⟨t', hserve, ha⟩ : ∃ t', serve answers (Watcher.settleRow a false) ⟨t, n, 1, log⟩ =
      (.ok (), ⟨t', n, 2, log⟩) ∧ After a .closed t t' := serve_settleRow hs hl false he
  have htells : Tells (do
      ask (.effort (.recordActivity "pr_closed"))
      ask (.effort (.updateQaOutcomeStats a.id false))
      ask (.effort (.recordFeedbackOutcome a.id))
      Watcher.forPr a fun prUrl => ask (.effort (.unwatchPr prUrl))
      Watcher.forPr a fun _ => ask (.effort (.notify a.key))) :=
    .bind (tells_effort rfl) (.bind (tells_effort rfl) (.bind (tells_effort rfl)
      (.bind (.forPr fun _ => tells_effort rfl) (.forPr fun _ => tells_effort rfl))))
  unfold Watcher.prClosed
  refine Prog.ends_tryCall (fun _ _ => ?_) fun e he => ?_
  · rw [hserve]
    refine (htells answers _ _ (.refl ha.sane)).mono fun r s ⟨hr, h⟩ => ⟨⟨ha.aside h, h.lookups, [], ?_⟩, hr⟩
    exact ⟨h.begun.trans (List.append_nil _).symm, List.nodup_nil,
      fun _ hb => absurd hb List.not_mem_nil, fun h => absurd rfl h⟩
  · rw [hserve] at he
    cases he

/-- An outcome that cannot be stored ends the check. -/
theorem ends_unsettled {merged : Bool} {e : Error} (he : (answers n 2).error = some e)
    (f : Unit → ExceptT Error Run Unit) :
    Prog.Ends (serve answers) (try_ (Watcher.settleRow a merged) >>= f).run
      (fun r s => (∃ e, r = .error e) ∧ s = ⟨t, n, 2, log⟩) ⟨t, n, 1, log⟩ := by
  refine Prog.ends_tryCall (fun _ hok => ?_) fun e' _ => ?_
  · rw [serve_settleRow_error he] at hok
    cases hok
  · rw [serve_settleRow_error he]
    exact ⟨⟨e', rfl⟩, rfl⟩

theorem ends_whileRunning {p : ExceptT Error Run Unit} {Q : Except Error Unit → Check → Prop}
    (h : Prog.Ends (serve answers) p.run Q ⟨t, n, 1, log⟩) :
    Prog.Ends (serve answers) (Watcher.whileRunning p).run
      (fun r s => ∃ r', Q r' s ∧ r = r'.map fun _ => true) ⟨t, n, 0, log⟩ := by
  refine Prog.ends_lift ?_
  exact Prog.Ends.tryBind h (fun _ _ h => ⟨_, h, rfl⟩) fun _ _ h => ⟨_, h, rfl⟩

end Merge

/-- The pull request can be looked up. -/
def hasPr (a : FixAttempt) : Bool := a.scmRepo.isSome && a.scmPrNumber.isSome

/-- Where the row of an attempt moves, by the answers to its calls. -/
def movesTo (env : Nat → Env) : Option FixAttemptStatus :=
  match (env 0).prStatus, (env 2).error with
  | .ok .merged, none => some .merged
  | .ok .closed, none => some .closed
  | _, _ => none

/-- The attempt's outcome cannot be stored, or the attempt not be marked resolved. -/
def EndsEarly (U : CaseProps) (w : Watcher) (a : FixAttempt) (env : Nat → Env) : Prop :=
  (env 0).prStatus = .ok .merged ∧ ((env 2).error.isSome ∨ CannotMark U w a env) ∨
    (env 0).prStatus = .ok .closed ∧ (env 2).error.isSome

/-- What looking at one pull request leaves. -/
structure Processed (a : FixAttempt) (env : Nat → Env) (s s' : Check) : Prop where
  sane : Sane s'.table
  lookups : s'.lookups = s.lookups + 1
  others : ∀ i r, i ≠ a.id → s.table.get i = some r → Taken r → s'.table.get i = some r
  moved : ∀ status, movesTo env = some status →
    ∃ r, s'.table.get a.id = some r ∧ r.status = status ∧ r.prUrl.isSome
  still : movesTo env = none → s'.table.get a.id = s.table.get a.id
  begun : ∃ new, s'.begun = s.begun ++ new ∧ new.Nodup ∧ (∀ b ∈ new, b.attemptId = a.id) ∧
    (new ≠ [] → movesTo env = some .merged)

theorem Outcome.processed {env : Nat → Env} {status : FixAttemptStatus}
    (h : Outcome a status (s.lookups + 1) s.begun s.table s') (hm : movesTo env = some status) :
    Processed a env s s' where
  sane := h.after.sane
  lookups := h.lookups
  others := h.after.others
  moved st hst := by
    obtain ⟨r, hr, hs, hp, -⟩ := h.after.own
    cases hm.symm.trans hst
    exact ⟨r, hr, hs, hp⟩
  still hn := by
    rw [hm] at hn
    cases hn
  begun := by
    obtain ⟨new, hb, hn, hid, hst⟩ := h.begun
    exact ⟨new, hb, hn, hid, fun hne => hm.trans (congrArg some (hst hne))⟩

theorem Processed.of_still {env : Nat → Env} (hs : Sane s.table) (ht : s'.table = s.table)
    (hl : s'.lookups = s.lookups + 1) (hb : s'.begun = s.begun) (hm : movesTo env = none) :
    Processed a env s s' where
  sane := ht ▸ hs
  lookups := hl
  others i r _ hr _ := by rw [ht, hr]
  moved st hst := by
    rw [hm] at hst
    cases hst
  still _ := by rw [ht]
  begun := ⟨[], by rw [hb, List.append_nil], List.nodup_nil, fun _ hb => absurd hb List.not_mem_nil,
    fun h => absurd rfl h⟩

theorem ends_checkPr (hs : Sane s.table) (hl : Listed s.table a) (hpr : hasPr a = true) :
    Prog.Ends (serve answers) (w.checkPr U a).run
      (fun r s' => Processed a (answers (s.lookups + 1)) s s' ∧
        (EndsEarly U w a (answers (s.lookups + 1)) → ∃ e, r = .error e) ∧
        (¬ EndsEarly U w a (answers (s.lookups + 1)) → r = .ok true)) s := by
  simp only [hasPr, Bool.and_eq_true, Option.isSome_iff_exists] at hpr
  obtain ⟨⟨scmRepo, hr⟩, prNumber, hn⟩ := hpr
  unfold Watcher.checkPr
  refine Prog.ends_lift ?_
  have hrunning : serve answers .isRunning s = (true, ⟨s.table, s.lookups, s.calls + 1, s.begun⟩) := rfl
  rw [hrunning, if_pos rfl, hr, hn]
  refine Prog.ends_lift ?_
  show Prog.Ends (serve answers) (w.onStatus U a (answers (s.lookups + 1) 0).prStatus).run _
    ⟨s.table, s.lookups + 1, 0, s.begun⟩
  generalize hn : s.lookups + 1 = n
  have hquiet : ∀ calls, movesTo (answers n) = none →
      Processed a (answers n) s ⟨s.table, n, calls, s.begun⟩ := fun _ hm =>
    .of_still hs rfl hn.symm rfl hm
  have hearly : ∀ {st}, (answers n 0).prStatus = st → st ≠ .ok .merged → st ≠ .ok .closed →
      movesTo (answers n) = none ∧ ¬ EndsEarly U w a (answers n) := by
    intro st hst hm hc
    refine ⟨?_, ?_⟩
    · unfold movesTo
      split <;> simp_all
    · rintro (⟨h, -⟩ | ⟨h, -⟩)
      · exact hm (hst.symm.trans h)
      · exact hc (hst.symm.trans h)
  cases hst : (answers n 0).prStatus with
  | error e =>
    obtain ⟨hm, he⟩ := hearly hst (fun h => by cases h) fun h => by cases h
    exact ⟨hquiet 0 hm, fun h => absurd h he, fun _ => rfl⟩
  | ok status =>
    cases status with
    | opened =>
      obtain ⟨hm, he⟩ := hearly hst (fun h => by cases h) fun h => by cases h
      exact ⟨hquiet 0 hm, fun h => absurd h he, fun _ => rfl⟩
    | merged =>
      cases he : (answers n 2).error with
      | some e =>
        refine (ends_whileRunning (ends_unsettled he _)).mono ?_
        rintro r s' ⟨r', ⟨⟨e', rfl⟩, rfl⟩, rfl⟩
        have hend : EndsEarly U w a (answers n) := .inl ⟨hst, .inl (by rw [he]; rfl)⟩
        exact ⟨hquiet 2 (by simp only [movesTo, hst, he]), fun _ => ⟨e', rfl⟩, fun h => absurd hend h⟩
      | none =>
        refine (ends_whileRunning (ends_prMerged hs hl he)).mono ?_
        rintro r s' ⟨r', ⟨ho, hc, hok⟩, rfl⟩
        have hiff : EndsEarly U w a (answers n) ↔ CannotMark U w a (answers n) := by
          simp [EndsEarly, hst, he]
        rw [hiff]
        refine ⟨?_, fun h => ?_, fun h => ?_⟩
        · subst hn
          exact ho.processed (by simp only [movesTo, hst, he])
        · obtain ⟨e, rfl⟩ := hc h
          exact ⟨e, rfl⟩
        · rw [hok h]
          rfl
    | closed =>
      cases he : (answers n 2).error with
      | some e =>
        refine (ends_whileRunning (ends_unsettled he _)).mono ?_
        rintro r s' ⟨r', ⟨⟨e', rfl⟩, rfl⟩, rfl⟩
        have hend : EndsEarly U w a (answers n) := .inr ⟨hst, by rw [he]; rfl⟩
        exact ⟨hquiet 2 (by simp only [movesTo, hst, he]), fun _ => ⟨e', rfl⟩, fun h => absurd hend h⟩
      | none =>
        refine (ends_whileRunning (ends_prClosed hs hl he)).mono ?_
        rintro r s' ⟨r', ⟨ho, rfl⟩, rfl⟩
        have hend : ¬ EndsEarly U w a (answers n) := by simp [EndsEarly, hst, he]
        subst hn
        exact ⟨ho.processed (by simp only [movesTo, hst, he]), fun h => absurd h hend, fun _ => rfl⟩

/-! ## One check -/

/-- An attempt without a pull request to look up is passed over. -/
theorem ends_checkPr_without (hpr : hasPr a = false) :
    Prog.Ends (serve answers) (w.checkPr U a).run
      (fun r s' => r = .ok true ∧ s' = { s with calls := s.calls + 1 }) s := by
  refine Prog.ends_lift ?_
  have hrunning : serve answers .isRunning s = (true, ⟨s.table, s.lookups, s.calls + 1, s.begun⟩) := rfl
  rw [hrunning, if_pos rfl]
  split
  · rename_i hr hn
    simp [hasPr, hr, hn] at hpr
  · exact ⟨rfl, rfl⟩

/-- A check of the attempts `l`: the outcomes that can be stored are, up to the first attempt that
ends the check. -/
structure Checked (U : CaseProps) (w : Watcher) (answers : Answers) (l : List FixAttempt)
    (s s' : Check) : Prop where
  sane : Sane s'.table
  others : ∀ i r, i ∉ l.map FixAttempt.id → s.table.get i = some r → Taken r → s'.table.get i = some r
  moved : ∀ (i : Nat) a, (l.filter hasPr)[i]? = some a → ∀ status,
    movesTo (answers (s.lookups + i + 1)) = some status →
    ((∃ r, s'.table.get a.id = some r ∧ r.status = status) ↔
      ∀ j < i, ∀ b, (l.filter hasPr)[j]? = some b → ¬ EndsEarly U w b (answers (s.lookups + j + 1)))
  begun : ∃ new, s'.begun = s.begun ++ new ∧ new.Nodup ∧ ∀ b ∈ new, b.attemptId ∈ l.map FixAttempt.id ∧
    ∃ r, s'.table.get b.attemptId = some r ∧ r.status = .merged ∧ r.prUrl.isSome

theorem Checked.nil (hs : Sane s'.table) (ht : s'.table = s.table) (hb : s'.begun = s.begun) :
    Checked U w answers [] s s' where
  sane := hs
  others i r _ hr _ := by rw [ht, hr]
  moved i a h := by cases h
  begun := ⟨[], by rw [hb, List.append_nil], List.nodup_nil, fun _ hb => absurd hb List.not_mem_nil⟩

theorem Listed.of_others {b : FixAttempt} (h : Listed s.table b)
    (ho : ∀ i r, i ≠ a.id → s.table.get i = some r → Taken r → s'.table.get i = some r)
    (hne : b.id ≠ a.id) : Listed s'.table b := by
  obtain ⟨r, hr, hb, hp⟩ := h
  have hurl : r.prUrl.isSome := by
    simp only [FixAttempts.pendingPr, Bool.and_eq_true] at hp
    exact hp.1.2
  exact ⟨r, ho b.id r hne hr (.inr hurl), hb, hp⟩

theorem movesTo_ne_success {env : Nat → Env} {status : FixAttemptStatus}
    (h : movesTo env = some status) : status ≠ .success := by
  unfold movesTo at h
  split at h
  · cases h; exact fun h => by cases h
  · cases h; exact fun h => by cases h
  · cases h

theorem Listed.not_moved {env : Nat → Env} {status : FixAttemptStatus} (h : Listed t a)
    (hm : movesTo env = some status) : ¬ ∃ r, t.get a.id = some r ∧ r.status = status := by
  rintro ⟨q, hq, hst⟩
  obtain ⟨r, hr, -, hp⟩ := h
  cases Option.some.inj (hr.symm.trans hq)
  simp only [FixAttempts.pendingPr, Bool.and_eq_true, decide_eq_true_eq] at hp
  exact movesTo_ne_success hm (hst.symm.trans hp.1.1)

section Cons

variable {l : List FixAttempt} {s₁ : Check}

theorem filter_cons_of_hasPr (hpr : hasPr a = true) : (a :: l).filter hasPr = a :: l.filter hasPr :=
  List.filter_cons_of_pos hpr

theorem Checked.without (hpr : hasPr a = false) (h : Checked U w answers l s s') :
    Checked U w answers (a :: l) s s' where
  sane := h.sane
  others i r hi := h.others i r fun hm => hi (List.mem_cons_of_mem _ hm)
  moved := by
    rw [List.filter_cons_of_neg (by rw [hpr]; exact Bool.false_ne_true)]
    exact h.moved
  begun := by
    obtain ⟨new, hb, hn, hnew⟩ := h.begun
    exact ⟨new, hb, hn, fun b hb => ⟨List.mem_cons_of_mem _ (hnew b hb).1, (hnew b hb).2⟩⟩

/-- What was begun for the first attempt is behind a merge. -/
theorem Processed.begun_merged {env : Nat → Env} (h : Processed a env s s₁) : ∃ new,
    s₁.begun = s.begun ++ new ∧ new.Nodup ∧ ∀ b ∈ new, b.attemptId = a.id ∧
      ∃ r, s₁.table.get b.attemptId = some r ∧ r.status = .merged ∧ r.prUrl.isSome := by
  obtain ⟨new, hb, hn, hid, hst⟩ := h.begun
  refine ⟨new, hb, hn, fun b hmem => ⟨hid b hmem, ?_⟩⟩
  rw [hid b hmem]
  exact h.moved .merged (hst fun he => by rw [he] at hmem; cases hmem)

/-- The check that ends with its first attempt. -/
theorem Checked.ended (hpr : hasPr a = true) (h : Processed a (answers (s.lookups + 1)) s s')
    (hend : EndsEarly U w a (answers (s.lookups + 1))) (hl : ∀ b ∈ l, Listed s.table b)
    (hn : a.id ∉ l.map FixAttempt.id) : Checked U w answers (a :: l) s s' where
  sane := h.sane
  others i r hi := h.others i r fun he => hi (he ▸ List.mem_cons_self)
  moved i b hb status hst := by
    rw [filter_cons_of_hasPr hpr] at hb ⊢
    cases i with
    | zero =>
      cases hb
      obtain ⟨r, hr, hs, -⟩ := h.moved status hst
      exact ⟨fun _ j hj => absurd hj (Nat.not_lt_zero j), fun _ => ⟨r, hr, hs⟩⟩
    | succ i =>
      have hmem : b ∈ l := List.mem_of_mem_filter (List.mem_of_getElem? hb)
      have hne : b.id ≠ a.id := fun he => hn (he ▸ List.mem_map_of_mem hmem)
      refine ⟨fun hmoved => ?_, fun hearly => ?_⟩
      · exact absurd hmoved (((hl b hmem).of_others h.others hne).not_moved hst)
      · exact absurd hend (hearly 0 (Nat.succ_pos i) a rfl)
  begun := by
    obtain ⟨new, hb, hn, hnew⟩ := h.begun_merged
    exact ⟨new, hb, hn, fun b hb => ⟨(hnew b hb).1 ▸ List.mem_cons_self, (hnew b hb).2⟩⟩

/-- The check that goes on after its first attempt. -/
theorem Checked.cons (hpr : hasPr a = true) (h : Processed a (answers (s.lookups + 1)) s s₁)
    (hend : ¬ EndsEarly U w a (answers (s.lookups + 1))) (hn : a.id ∉ l.map FixAttempt.id)
    (hc : Checked U w answers l s₁ s') : Checked U w answers (a :: l) s s' where
  sane := hc.sane
  others i r hi hr ht := by
    have hi := not_or.mp fun h => hi (List.mem_cons.mpr h)
    exact hc.others i r hi.2 (h.others i r hi.1 hr ht) ht
  moved i b hb status hst := by
    rw [filter_cons_of_hasPr hpr] at hb ⊢
    cases i with
    | zero =>
      cases hb
      obtain ⟨r, hr, hs, hp⟩ := h.moved status hst
      exact ⟨fun _ j hj => absurd hj (Nat.not_lt_zero j),
        fun _ => ⟨r, hc.others a.id r hn hr (.inr hp), hs⟩⟩
    | succ i =>
      have hshift : ∀ j, s₁.lookups + j + 1 = s.lookups + (j + 1) + 1 := by
        intro j
        rw [h.lookups]
        omega
      rw [hc.moved i b hb status (by rw [hshift]; exact hst)]
      constructor
      · intro hall j hj c hj'
        cases j with
        | zero =>
          cases hj'
          exact hend
        | succ j =>
          rw [← hshift]
          exact hall j (Nat.lt_of_succ_lt_succ hj) c hj'
      · intro hall j hj c hj'
        rw [hshift]
        exact hall (j + 1) (Nat.succ_lt_succ hj) c hj'
  begun := by
    obtain ⟨new, hb, hnd, hnew⟩ := h.begun_merged
    obtain ⟨new', hb', hnd', hnew'⟩ := hc.begun
    refine ⟨new ++ new', by rw [hb', hb, List.append_assoc], ?_, fun b hmem => ?_⟩
    · refine hnd.append hnd' fun b hx hy => hn ?_
      rw [← (hnew b hx).1]
      exact (hnew' b hy).1
    · rcases List.mem_append.mp hmem with hx | hy
      · obtain ⟨hid, r, hr, hs, hp⟩ := hnew b hx
        refine ⟨hid ▸ List.mem_cons_self, r, hc.others _ r ?_ hr (.inr hp), hs, hp⟩
        rw [hid]
        exact hn
      · exact ⟨List.mem_cons_of_mem _ (hnew' b hy).1, (hnew' b hy).2⟩

end Cons

/-- The loop over the attempts. -/
theorem ends_loop (l : List FixAttempt) (hs : Sane s.table) (hl : ∀ a ∈ l, Listed s.table a)
    (hn : (l.map FixAttempt.id).Nodup) :
    Prog.Ends (serve answers) (forWhile (w.checkPr U) l).run (fun _ => Checked U w answers l s) s := by
  induction l generalizing s with
  | nil => exact Checked.nil hs rfl rfl
  | cons a l ih =>
    obtain ⟨ha, hl⟩ := List.forall_mem_cons.mp hl
    obtain ⟨hna, hn⟩ := List.nodup_cons.mp hn
    cases hpr : hasPr a with
    | false =>
      refine Prog.Ends.tryBind (ends_checkPr_without hpr) ?_ fun e s' ⟨he, _⟩ => by cases he
      rintro b s' ⟨hb, rfl⟩
      cases hb
      refine (ih (s := { s with calls := s.calls + 1 }) hs hl hn).mono fun _ _ h => ?_
      exact Checked.without hpr ⟨h.sane, h.others, h.moved, h.begun⟩
    | true =>
      refine Prog.Ends.tryBind (ends_checkPr hs ha hpr) (fun b s₁ hp => ?_) fun e s' hp => ?_
      · obtain ⟨hp, herr, hok⟩ := hp
        have hend : ¬ EndsEarly U w a (answers (s.lookups + 1)) := fun h => by
          obtain ⟨e, he⟩ := herr h
          cases he
        cases hok hend
        have hl₁ : ∀ c ∈ l, Listed s₁.table c := fun c hc =>
          (hl c hc).of_others hp.others fun he => hna (he ▸ List.mem_map_of_mem hc)
        exact (ih hp.sane hl₁ hn).mono fun _ _ h => h.cons hpr hp hend hna
      · obtain ⟨hp, -, hok⟩ := hp
        refine Checked.ended hpr hp ?_ hl hna
        by_contra hend
        cases hok hend

/-- The attempts a check goes through. -/
def listed (w : Watcher) (answers : Answers) (t : FixAttempts) : List FixAttempt :=
  if w.hasScm ∧ (answers 0 1).error = none then t.getPendingPrs else []

theorem listed_listed {w : Watcher} : ∀ a ∈ listed w answers t, Listed t a := by
  intro a ha
  unfold listed at ha
  split at ha
  · obtain ⟨i, r, hr, hp, rfl⟩ := FixAttempts.mem_getPendingPrs.mp ha
    exact ⟨r, hr, rfl, hp⟩
  · cases ha

theorem nodup_listed {w : Watcher} : ((listed w answers t).map FixAttempt.id).Nodup := by
  unfold listed
  split
  · exact FixAttempts.nodup_getPendingPrs t
  · exact List.nodup_nil

theorem Checked.of_eq {l : List FixAttempt} {s₁ : Check} (h : Checked U w answers l s s₁)
    (ht : s'.table = s₁.table) (hb : s'.begun = s₁.begun) : Checked U w answers l s s' := by
  obtain ⟨table, lookups, calls, begun⟩ := s'
  cases ht
  cases hb
  exact ⟨h.sane, h.others, h.moved, h.begun⟩

/-- Metrics are recorded beside the table. -/
theorem ends_metrics {s₁ : Check} (names : List String) (ht : s.table = s₁.table) (hb : s.begun = s₁.begun) :
    Prog.Ends (serve answers) (names.forM fun name => ask (.effort (.recordMetric name))).run
      (fun _ s' => s'.table = s₁.table ∧ s'.begun = s₁.begun) s := by
  induction names generalizing s with
  | nil => exact ⟨ht, hb⟩
  | cons name names ih => exact Prog.ends_lift (ih ht hb)

theorem ends_checkPrs (l : List FixAttempt) (hs : Sane s.table) (hl : ∀ a ∈ l, Listed s.table a)
    (hn : (l.map FixAttempt.id).Nodup) :
    Prog.Ends (serve answers) (w.checkPrs U l).run (fun _ => Checked U w answers l s) s :=
  Prog.Ends.tryBind (ends_loop l hs hl hn)
    (fun _ _ h => (ends_metrics _ rfl rfl).mono fun _ _ hsame => h.of_eq hsame.1 hsame.2) fun _ _ h => h

theorem checked_checkMerges (hs : Sane t) :
    Checked U w answers (listed w answers t) { table := t } (checkMerges U w answers t) := by
  have hl : ∀ a ∈ listed w answers t, Listed t a := listed_listed
  have hn : ((listed w answers t).map FixAttempt.id).Nodup := nodup_listed
  show Prog.Ends (serve answers) (w.checkPrMergesAndCascade U).run (fun _ => Checked U w answers
    (listed w answers t) { table := t }) { table := t }
  unfold Watcher.checkPrMergesAndCascade
  split
  · rename_i hscm
    cases he : (answers 0 1).error with
    | some e =>
      have hnil : listed w answers t = [] := if_neg fun h => by
        rw [he] at h
        cases h.2
      have hcall : serve answers .getPendingPrs { table := t } = (.error e, { table := t, calls := 1 }) := by
        simp only [serve, Check.count, Req.answer, Env.stored, he]
        rfl
      rw [hnil]
      refine Prog.ends_tryCall (fun _ hok => ?_) fun _ _ => ?_
      · rw [hcall] at hok
        cases hok
      · rw [hcall]
        exact .nil hs rfl rfl
    | none =>
      have hpending : listed w answers t = t.getPendingPrs := if_pos ⟨hscm, he⟩
      have hcall : serve answers .getPendingPrs { table := t } =
          (.ok t.getPendingPrs, { table := t, calls := 1 }) := by
        simp only [serve, Check.count, Req.answer, Env.stored, he]
        rfl
      rw [hpending] at hl hn ⊢
      refine Prog.ends_tryCall (fun l hok => ?_) fun _ herr => ?_
      · rw [hcall] at hok ⊢
        cases hok
        exact (ends_checkPrs (s := { table := t, calls := 1 }) _ hs hl hn).mono fun _ _ h =>
          ⟨h.sane, h.others, h.moved, h.begun⟩
      · rw [hcall] at herr
        cases herr
  · rename_i hscm
    have hnil : listed w answers t = [] := if_neg fun h => hscm h.1
    rw [hnil]
    exact ends_checkPrs [] hs (fun _ h => by cases h) List.nodup_nil

/-! ## One check after another -/

/-- The attempts of a check that are looked up, in their order. -/
def lookedUp (w : Watcher) (answers : Answers) (t : FixAttempts) : List FixAttempt :=
  (listed w answers t).filter hasPr

/-- Every outcome that can be stored is. -/
def ActsOnEach (U : CaseProps) (w : Watcher) (answers : Answers) (t : FixAttempts) : Prop :=
  ∀ (i : Nat) a, (lookedUp w answers t)[i]? = some a → ∀ status,
    movesTo (answers (i + 1)) = some status →
    ∃ r, (checkMerges U w answers t).table.get a.id = some r ∧ r.status = status

/-- No attempt before an outcome that can be stored ends the check. -/
def NoneEndsEarly (U : CaseProps) (w : Watcher) (answers : Answers) (t : FixAttempts) : Prop :=
  ∀ (i : Nat) a, (lookedUp w answers t)[i]? = some a → ∀ status,
    movesTo (answers (i + 1)) = some status →
    ∀ j < i, ∀ b, (lookedUp w answers t)[j]? = some b → ¬ EndsEarly U w b (answers (j + 1))

/-- One check, and all that was begun so far. -/
def round (U : CaseProps) (w : Watcher) (s : FixAttempts × List Begun) (answers : Answers) :
    FixAttempts × List Begun :=
  let check := checkMerges U w answers s.1
  (check.table, s.2 ++ check.begun)

/-- What was begun is behind a merge, and begun once. -/
structure Once (s : FixAttempts × List Begun) : Prop where
  sane : Sane s.1
  nodup : s.2.Nodup
  merged : ∀ b ∈ s.2, ∃ r, s.1.get b.attemptId = some r ∧ r.status = .merged ∧ r.prUrl.isSome

/-- What was begun before is not about a pull request that is open. -/
theorem Once.not_listed {x : FixAttempts × List Begun} (h : Once x) {b : Begun} (hb : b ∈ x.2) :
    b.attemptId ∉ (listed w answers x.1).map FixAttempt.id := by
  intro hm
  obtain ⟨a, ha, he⟩ := List.mem_map.mp hm
  obtain ⟨q, hq, -, hp⟩ := listed_listed a ha
  obtain ⟨r, hr, hs, -⟩ := h.merged b hb
  rw [← he] at hr
  cases Option.some.inj (hq.symm.trans hr)
  simp only [FixAttempts.pendingPr, Bool.and_eq_true, decide_eq_true_eq] at hp
  cases hs.symm.trans hp.1.1

theorem Once.round {x : FixAttempts × List Begun} (h : Once x) (answers : Answers) :
    Once (round U w x answers) := by
  have hc : Checked U w answers (listed w answers x.1) { table := x.1 } (checkMerges U w answers x.1) :=
    checked_checkMerges h.sane
  obtain ⟨new, hb, hn, hnew⟩ := hc.begun
  have hb : (checkMerges U w answers x.1).begun = new := hb.trans (List.nil_append _)
  refine ⟨hc.sane, ?_, fun b hmem => ?_⟩
  · show (x.2 ++ (checkMerges U w answers x.1).begun).Nodup
    rw [hb]
    exact h.nodup.append hn fun b hx hy => h.not_listed hx (hnew b hy).1
  · have hmem : b ∈ x.2 ++ (checkMerges U w answers x.1).begun := hmem
    rw [hb] at hmem
    rcases List.mem_append.mp hmem with hx | hy
    · obtain ⟨r, hr, hs, hp⟩ := h.merged b hx
      exact ⟨r, hc.others _ r (h.not_listed hx) hr (.inr hp), hs, hp⟩
    · exact (hnew b hy).2

/-- A check acts on every outcome exactly when no attempt before ends it; and however often the
watcher checks, each watch and each cascade begins once. -/
theorem merges_acted_on_once (U : CaseProps) (w : Watcher) (l : List Call) (hl : ∀ c ∈ l, StoresUrl c) :
    (∀ answers, ActsOnEach U w answers (tracked l) ↔ NoneEndsEarly U w answers (tracked l)) ∧
    ∀ checks : List Answers, (run (round U w) (tracked l, []) checks).2.Nodup := by
  have hs := sane_tracked l hl
  refine ⟨fun answers => ?_, fun checks => ?_⟩
  · have hc : Checked U w answers (listed w answers (tracked l)) { table := tracked l }
        (checkMerges U w answers (tracked l)) := checked_checkMerges hs
    have hmoved : ∀ (i : Nat) a, (lookedUp w answers (tracked l))[i]? = some a → ∀ status,
        movesTo (answers (i + 1)) = some status →
        ((∃ r, (checkMerges U w answers (tracked l)).table.get a.id = some r ∧ r.status = status) ↔
          ∀ j < i, ∀ b, (lookedUp w answers (tracked l))[j]? = some b →
            ¬ EndsEarly U w b (answers (j + 1))) := by
      intro i a ha status hst
      have h := hc.moved i a ha status (by rwa [Nat.zero_add])
      simp only [Nat.zero_add] at h
      exact h
    exact ⟨fun h i a ha status hst => (hmoved i a ha status hst).mp (h i a ha status hst),
      fun h i a ha status hst => (hmoved i a ha status hst).mpr (h i a ha status hst)⟩
  · have h0 : Once (tracked l, []) := ⟨hs, List.nodup_nil, fun _ hb => absurd hb List.not_mem_nil⟩
    have h : Once (run (round U w) (tracked l, []) checks) :=
      run_inv (P := Once) (fun _ answers h => h.round answers) h0 checks
    exact h.nodup

/-! Two merged pull requests, and a store that fails once. -/

def twoOpen : List Call :=
  [⟨0, .recordAttemptWithLabels ⟨"linear", "1"⟩ "1" []⟩,
    ⟨0, .markSuccess ⟨"linear", "1"⟩ "https://github.com/o/app/pull/1"⟩,
    ⟨1, .recordAttemptWithLabels ⟨"linear", "2"⟩ "2" []⟩,
    ⟨1, .markSuccess ⟨"linear", "2"⟩ "https://github.com/o/app/pull/2"⟩]

def withoutCascade : Watcher where
  cascade := ⟨false, 0, []⟩
  relationships := none

/-- Everything is merged, and the first outcome cannot be stored. -/
def firstNotStored : Answers := fun i j =>
  { now := 2, prStatus := .ok .merged,
    error := if i = 1 ∧ j = 2 then some (.storage "disk I/O error") else none }

theorem merges_acted_on_once_two :
    (∀ answers, ActsOnEach ⟨fun _ => false, fun _ => false⟩ withoutCascade answers (tracked twoOpen) ↔
      NoneEndsEarly ⟨fun _ => false, fun _ => false⟩ withoutCascade answers (tracked twoOpen)) ∧
    ∀ checks : List Answers, (run (round ⟨fun _ => false, fun _ => false⟩ withoutCascade)
      (tracked twoOpen, []) checks).2.Nodup := by
  refine merges_acted_on_once _ _ _ fun c hc => ?_
  simp only [twoOpen, List.mem_cons, List.not_mem_nil, or_false] at hc
  rcases hc with rfl | rfl | rfl | rfl <;> exact fun _ _ _ _ he => by cases he

theorem merge_not_acted_on : ¬ ActsOnEach ⟨fun _ => false, fun _ => false⟩ withoutCascade
    firstNotStored (tracked twoOpen) := by
  intro h
  have hlist : (lookedUp withoutCascade firstNotStored (tracked twoOpen))[1]?.map FixAttempt.id =
      some 1 := by decide +kernel
  obtain ⟨a, ha, hid⟩ := Option.map_eq_some_iff.mp hlist
  obtain ⟨r, hr, hs⟩ := h 1 a ha .merged (by decide)
  rw [hid] at hr
  have hrow : ((checkMerges ⟨fun _ => false, fun _ => false⟩ withoutCascade firstNotStored
      (tracked twoOpen)).table.get 1).map AttemptRow.status = some .success := by decide +kernel
  rw [hr, Option.map_some, hs] at hrow
  cases hrow

end Claudear.Engine.PullRequests
