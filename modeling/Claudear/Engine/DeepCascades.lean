import Claudear.Engine.CascadeDepth

/-!
# Limits above the cap

The walk up the parents never reports more than `MAX_CASCADE_DEPTH`, so a larger
limit is never met. In a graph where a repository depends on itself, every merge
then adds an attempt one deeper than the last, for as long as pull requests are
merged.
-/

namespace Claudear.Engine.PullRequests

open Claudear.Sql Claudear.Storage Claudear.Machine Claudear.Text

/-! ## Undisturbed runs -/

/-- A run that nobody disturbs, in a world that answers `env` throughout. -/
def evalIn {α : Type} (env : Env) (p : Run α) (t : FixAttempts) : α × FixAttempts :=
  Prog.eval (fun c => Req.answer env c) p t

section

variable {env : Env} {t t' : FixAttempts} {a : FixAttempt} {U : CaseProps} {w : Watcher} {α β ε : Type}

theorem evalIn_bind (p : Run α) (f : α → Run β) :
    evalIn env (p >>= f) t = evalIn env (f (evalIn env p t).1) (evalIn env p t).2 := Prog.eval_bind p f

theorem evalIn_try {p : ExceptT ε Run α} {f : α → ExceptT ε Run β} {x : α}
    (h : evalIn env p.run t = (.ok x, t')) : evalIn env (p >>= f).run t = evalIn env (f x).run t' :=
  Prog.eval_tryBind_ok h

theorem eval_readAttempt (he : env.error = none) (id : Nat) :
    evalIn env (readAttempt id) t = (t.getAttemptById id, t) := by
  refine (evalIn_bind (.perform (Req.getAttemptById id)) _).trans ?_
  have h : evalIn env (.perform (Req.getAttemptById id)) t = (.ok (t.getAttemptById id), t) := by
    show Req.answer env (.getAttemptById id) t = _
    simp only [Req.answer, Env.stored, he]
  rw [h]
  rfl

/-- Undisturbed, the walk reads the table as it is. -/
theorem eval_walk (he : env.error = none) (rounds depth : Nat) (visited : List Nat) (cur : Option Nat) :
    evalIn env (walk readAttempt rounds depth visited cur) t =
      (walk (m := Id) t.getAttemptById rounds depth visited cur, t) := by
  induction rounds generalizing depth visited cur with
  | zero => cases cur <;> rfl
  | succ rounds ih =>
    cases cur with
    | none => rfl
    | some parentId =>
      by_cases hv : parentId ∈ visited ∨ MAX_CASCADE_DEPTH ≤ depth
      · simp only [walk, if_pos hv]
        rfl
      · simp only [walk, if_neg hv]
        rw [evalIn_bind, eval_readAttempt he]
        cases t.getAttemptById parentId with
        | none => rfl
        | some parent => exact ih _ _ _

/-- A limit above the cap lets every attempt cascade. -/
theorem eval_depthAllows (he : env.error = none) (hmax : MAX_CASCADE_DEPTH < w.cascade.maxDepth) :
    evalIn env (w.depthAllows a) t = (true, t) := by
  obtain ⟨d, hd, h⟩ := walk_terminates t.getAttemptById a.parentAttemptId
  have hdepth : evalIn env (getCascadeDepth readAttempt a) t = (d, t) := by
    unfold getCascadeDepth
    rw [evalIn_bind, eval_walk he, h _ (Nat.lt_succ_self _)]
    rfl
  unfold Watcher.depthAllows
  rw [if_pos (by omega), evalIn_bind, hdepth]
  have hlt : d < w.cascade.maxDepth := by omega
  show (decide (d < w.cascade.maxDepth), t) = (true, t)
  rw [decide_eq_true hlt]

/-! ## What follows a merge -/

theorem eval_effort (e : Effort) : evalIn env (ask (.effort e) : ExceptT Error Run Unit).run t = (.ok (), t) :=
  rfl

theorem eval_forPr (e : String → Effort) :
    evalIn env (Watcher.forPr a fun prUrl => ask (.effort (e prUrl))).run t = (.ok (), t) := by
  unfold Watcher.forPr
  split <;> rfl

theorem eval_whenever {c : Prop} [Decidable c] {p : ExceptT Error Run Unit} (h : c →
    evalIn env p.run t = (.ok (), t)) : evalIn env (whenever c p).run t = (.ok (), t) := by
  unfold whenever
  split
  · exact h ‹_›
  · rfl

theorem eval_watchForRegression :
    (evalIn env (Watcher.watchForRegression U a) t).2 = t := by
  unfold Watcher.watchForRegression
  split
  · have h : (evalIn env (.perform (Req.createRegressionWatch a.key.issueId a.id)) t).2 = t :=
      (env.stored_snd _ t).elim id id
    rw [evalIn_bind]
    split <;> exact h
  · rfl

/-- Without auto resolution nothing after the merge touches the table. -/
theorem eval_afterMerge (hw : w.autoResolveOnMerge = false) :
    evalIn env (w.afterMerge U a).run t = (.ok (), t) := by
  obtain ⟨watched, hwatched⟩ : ∃ watched, evalIn env
      (ExceptT.lift (Watcher.watchForRegression U a) : ExceptT Error Run Bool).run t =
        (.ok watched, t) := by
    refine ⟨(evalIn env (Watcher.watchForRegression U a) t).1, (evalIn_bind _ _).trans ?_⟩
    rw [eval_watchForRegression]
    rfl
  have hresolve : evalIn env (w.autoResolve a watched).run t = (.ok (), t) :=
    eval_whenever fun h => by rw [hw] at h; exact absurd h.2.2.2.1 Bool.false_ne_true
  unfold Watcher.afterMerge
  rw [evalIn_try (eval_effort _), evalIn_try (eval_effort _), evalIn_try (eval_forPr _),
    evalIn_try hwatched, evalIn_try hresolve, evalIn_try (eval_whenever fun _ => eval_effort _),
    evalIn_try (eval_effort _), evalIn_try (eval_whenever fun _ => eval_effort _)]
  exact eval_forPr _

end

/-! ## A repository that depends on itself -/

def ownPr : String := "https://github.com/o/app/pull/1"

def ownUrl : String := "https://github.com/o/app"

def linearIssue : IssueKey := ⟨"linear", "1"⟩

def selfDependent (max : Nat) : Watcher where
  cascade := ⟨true, max, []⟩
  relationships := some fun _ => ["app"]

/-- Every pull request is merged at once, and every run of the agent opens one. -/
def productive : Env where
  now := 0
  prStatus := .ok .merged
  cascadeUrl := some ownUrl
  agent := { success := true, prUrl := some ownPr }

/-- The last attempt, `k` deep, has the only pending pull request. -/
structure Tip (t : FixAttempts) (tip : Nat) (r : AttemptRow) (k : Nat) : Prop where
  row : t.get tip = some r
  key : r.key = linearIssue
  status : r.status = .success
  scmRepo : r.scmRepo = some "o/app"
  scmPrNumber : r.scmPrNumber = some 1
  others : ∀ i q, t.get i = some q → i ≠ tip → q.status ≠ .success
  prUrl : ∀ i q, t.get i = some q → q.prUrl = some ownPr
  rooted : Rooted t
  depth : Ancestors t tip k

variable {t : FixAttempts} {tip k : Nat} {r : AttemptRow}

/-- A `WHERE` that only one row meets. -/
theorem select_eq_singleton {p : Nat × AttemptRow → Bool} (hr : t.get tip = some r) (hp : p (tip, r) = true)
    (ho : ∀ i q, t.get i = some q → i ≠ tip → p (i, q) = false) : t.select p = [(tip, r)] := by
  refine List.perm_singleton.mp ((List.perm_ext_iff_of_nodup ?_ (List.nodup_singleton _)).mpr ?_)
  · exact (Table.nodup_select t p).of_map
  · rintro ⟨i, q⟩
    rw [Table.mem_select, List.mem_singleton]
    constructor
    · rintro ⟨hi, hpq⟩
      by_cases he : i = tip
      · subst he
        rw [Option.some.inj (hi.symm.trans hr)]
      · rw [ho i q hi he] at hpq
        cases hpq
    · intro h
      cases h
      exact ⟨hr, hp⟩

theorem Tip.getPendingPrs (h : Tip t tip r k) : t.getPendingPrs = [rowToFixAttempt (tip, r)] := by
  have hs : t.select FixAttempts.pendingPr = [(tip, r)] := by
    refine select_eq_singleton h.row ?_ fun i q hq hi => ?_
    · simp [FixAttempts.pendingPr, h.status, h.prUrl tip r h.row, h.scmRepo]
    · simp [FixAttempts.pendingPr, h.others i q hq hi]
  rw [FixAttempts.getPendingPrs, hs]
  rfl

/-- The pull request of the last attempt is merged, and nothing has followed yet. -/
structure Merged (t : FixAttempts) (tip k : Nat) : Prop where
  row : (t.get tip).isSome
  none : ∀ i q, t.get i = some q → q.status ≠ .success
  prUrl : ∀ i q, t.get i = some q → q.prUrl = some ownPr
  rooted : Rooted t
  depth : Ancestors t tip k

theorem rooted_exec (hroot : Rooted t) (c : Call) (hc : recordsCascade c.op = false) :
    Rooted (t.exec c) := by
  have h : Adds 0 t (t.exec c) := adds_exec t c fun k shortId p repo ho => by
    rw [ho] at hc
    cases hc
  exact h.rooted hroot

/-- A merge settles the row of the tip, by its id or by its issue. -/
def settles (r : AttemptRow) (tip : Nat) : TrackerOp :=
  if r.cascadeRepo.isSome then .markCascadePrOutcome tip true else .markMerged linearIssue

/-- The rows after the merge: the tip is merged, and no other was open. -/
theorem Tip.row_merged (h : Tip t tip r k) {i : Nat} {q : AttemptRow} (hq : t.get i = some q) :
    (Call.rewrite t ⟨0, settles r tip⟩ (i, q)).status ≠ .success ∧
      (Call.rewrite t ⟨0, settles r tip⟩ (i, q)).prUrl = some ownPr := by
  have hu := h.prUrl i q hq
  have ho : ∀ {c : Bool}, (i = tip → q = r → c = true) → c ≠ true → q.status ≠ .success := by
    intro c hc hn
    refine h.others i q hq fun hi => hn (hc hi ?_)
    subst hi
    exact Option.some.inj (hq.symm.trans h.row)
  unfold settles
  split
  · rename_i hs
    simp only [Call.rewrite]
    split
    · exact ⟨(fun h => by cases h), hu⟩
    · rename_i hn
      exact ⟨ho (fun hi hr => by simp [ofId, hi, hr, hs]) hn, hu⟩
  · rename_i hs
    simp only [Call.rewrite]
    split
    · exact ⟨(fun h => by cases h), hu⟩
    · rename_i hn
      exact ⟨ho (fun _ hr => by simpa [ofOriginal, ofIssue, hr, h.key] using hs) hn, hu⟩

theorem Tip.merged (h : Tip t tip r k) : Merged (t.exec ⟨0, settles r tip⟩) tip k := by
  have hrec : recordsCascade (settles r tip) = false ∧ Call.inserted t ⟨0, settles r tip⟩ = none := by
    unfold settles
    split <;> exact ⟨rfl, rfl⟩
  have hrow : ∀ i q, (t.exec ⟨0, settles r tip⟩).get i = some q →
      q.status ≠ .success ∧ q.prUrl = some ownPr := by
    intro i q hq
    rcases FixAttempts.get_exec_cases hq with ⟨r', hr', rfl⟩ | ⟨-, hi⟩
    · exact h.row_merged hr'
    · rw [hrec.2] at hi
      cases hi
  have he := extends_exec t ⟨0, settles r tip⟩
  have htip : (t.get tip).isSome := by
    rw [h.row]
    rfl
  exact ⟨he.isSome htip, fun i q hq => (hrow i q hq).1, fun i q hq => (hrow i q hq).2,
    rooted_exec h.rooted _ hrec.1, h.depth.extends h.rooted he htip⟩

theorem Tip.settle (h : Tip t tip r k) :
    evalIn productive (try_ (Watcher.settleRow (rowToFixAttempt (tip, r)) true)).run t =
      (.ok (), t.exec ⟨0, settles r tip⟩) := by
  have hk : (rowToFixAttempt (tip, r)).key = linearIssue := h.key
  have hc : (rowToFixAttempt (tip, r)).cascadeRepo = r.cascadeRepo := rfl
  unfold Watcher.settleRow settles
  rw [hk, hc]
  split <;> rfl

theorem openCascade_none (h : ∀ i q, t.get i = some q → q.prUrl = some ownPr) (k : IssueKey)
    (repo : String) : t.first (FixAttempts.openCascade k repo) = none := by
  refine Table.first_eq_none.mpr fun i q hq => ?_
  have hne : ownPr ≠ "" := by decide
  simp [FixAttempts.openCascade, h i q hq, hne]

/-- The row of the cascade, with its pull request. -/
def cascadeRow (shortId : String) (tip : Nat) : AttemptRow :=
  (AttemptRow.cascade linearIssue shortId 0 tip ownUrl).openPr ownPr "o/app" 1

def cascadeTable (t : FixAttempts) (shortId : String) (tip : Nat) : FixAttempts :=
  FixAttempts.updateAttemptPr (t.insert (.cascade linearIssue shortId 0 tip ownUrl)) t.next ownPr
    "o/app" 1

theorem get_cascadeTable (shortId : String) (i : Nat) : (cascadeTable t shortId tip).get i =
    if i = t.next then some (cascadeRow shortId tip) else t.get i := by
  unfold cascadeTable FixAttempts.updateAttemptPr
  by_cases hi : i = t.next
  · rw [if_pos hi]
    refine Table.get_update_of ?_ (by simp [ofId, hi])
    rw [Table.get_insert, if_pos hi]
  · rw [if_neg hi, Table.get_update_of_ne (fun c => by simp [ofId, hi]), Table.get_insert, if_neg hi]

theorem extends_cascadeTable (shortId : String) : Extends t (cascadeTable t shortId tip) := by
  intro i q hq
  refine ⟨q, ?_, rfl⟩
  rw [get_cascadeTable, if_neg (Nat.ne_of_lt (Table.lt_next hq)), hq]

/-- The cascade the merge starts is the next tip. -/
theorem Merged.cascade (h : Merged t tip k) (shortId : String) :
    Tip (cascadeTable t shortId tip) t.next (cascadeRow shortId tip) (k + 1) := by
  have he : Extends t (cascadeTable t shortId tip) := extends_cascadeTable shortId
  have hrow : (cascadeTable t shortId tip).get t.next = some (cascadeRow shortId tip) := by
    rw [get_cascadeTable, if_pos rfl]
  have hold : ∀ {i q}, (cascadeTable t shortId tip).get i = some q → i ≠ t.next →
      t.get i = some q := by
    intro i q hq hi
    rwa [get_cascadeTable, if_neg hi] at hq
  constructor
  case row => exact hrow
  case others => exact fun i q hq hi => h.none i q (hold hq hi)
  case prUrl =>
    intro i q hq
    by_cases hi : i = t.next
    · subst hi
      cases Option.some.inj (hq.symm.trans hrow)
      rfl
    · exact h.prUrl i q (hold hq hi)
  case rooted =>
    intro i q p hq hp
    by_cases hi : i = t.next
    · subst hi
      cases Option.some.inj (hq.symm.trans hrow)
      cases hp
      obtain ⟨r, hr⟩ := Option.isSome_iff_exists.mp h.row
      exact ⟨Table.lt_next hr, he.isSome h.row⟩
    · obtain ⟨hlt, hs⟩ := h.rooted i q p (hold hq hi) hp
      exact ⟨hlt, he.isSome hs⟩
  case depth => exact .child hrow rfl (h.depth.extends h.rooted he h.row)
  all_goals rfl

theorem Merged.eval_cascade (h : Merged t tip k) {a : FixAttempt} (ha : a.id = tip)
    (hk : a.key = linearIssue) : evalIn productive (cascadeToRepo a "app").run t =
      (.ok (), cascadeTable t a.shortId tip) := by
  obtain ⟨r, hr⟩ := Option.isSome_iff_exists.mp h.row
  have hrec : t.recordCascadeAttempt 0 linearIssue a.shortId tip ownUrl =
      .ok (t.next, t.insert (.cascade linearIssue a.shortId 0 tip ownUrl)) := by
    simp only [FixAttempts.recordCascadeAttempt, openCascade_none h.prUrl, hr, Option.isNone_some,
      Bool.false_eq_true, if_false]
  have hrecord : evalIn productive (try_ (.recordCascadeAttempt a.key a.shortId a.id ownUrl)).run t =
      (.ok t.next, t.insert (.cascade linearIssue a.shortId 0 tip ownUrl)) := by
    show Req.answer productive (.recordCascadeAttempt a.key a.shortId a.id ownUrl) t = _
    rw [ha, hk]
    simp only [Req.answer, productive, hrec]
  have hparse : parsePrUrl ownPr = some ("o/app", 1) := by decide
  have hstore : ∀ t', evalIn productive (storePr t.next ownPr).run t' =
      (.ok (), FixAttempts.updateAttemptPr t' t.next ownPr "o/app" 1) := by
    intro t'
    unfold storePr
    rw [hparse]
    rfl
  have hurl : evalIn productive (ask (.resolveRepoForCascade "app") : ExceptT Error Run _).run t =
      (.ok (some ownUrl), t) := rfl
  unfold cascadeToRepo
  rw [evalIn_try hurl]
  show evalIn productive (try_ _ >>= _ : ExceptT Error Run Unit).run t = _
  rw [evalIn_try hrecord]
  have htree : ∀ t', evalIn productive (try_ (.createWorktree "app" ("cascade-" ++ a.shortId))).run t' =
      (.ok (), t') := fun _ => rfl
  have hexec : ∀ t', evalIn productive (try_ (.execute t.next)).run t' =
      (.ok productive.agent, t') := fun _ => rfl
  rw [evalIn_try (htree _), evalIn_try (hexec _)]
  show evalIn productive (openCascadePr a t.next ownPr).run _ = _
  unfold openCascadePr
  rw [evalIn_try (hstore _)]
  rfl

/-! ## One merge after another -/

section

variable {max : Nat} (hmax : MAX_CASCADE_DEPTH < max) {U : CaseProps}

include hmax

theorem Merged.eval_triggerCascade (h : Merged t tip k) {a : FixAttempt} (ha : a.id = tip)
    (hk : a.key = linearIssue) (hrepo : a.scmRepo = some "o/app") (hn : a.scmPrNumber = some 1) :
    evalIn productive ((selfDependent max).triggerCascade a .merge) t =
      ((), cascadeTable t a.shortId tip) := by
  have hsource : a.key.source ≠ SECURITY_FIX_SOURCE := by rw [hk]; decide
  have hnames : (["app"].filter ((selfDependent max).cascades "o/app" .merge)) = ["app"] := rfl
  have hall : evalIn productive (Watcher.cascadeAll a ["app"]) t =
      ((), cascadeTable t a.shortId tip) := by
    show evalIn productive (((cascadeToRepo a "app").run >>= fun _ => pure PUnit.unit) >>= fun _ =>
      Watcher.cascadeAll a []) t = _
    rw [evalIn_bind, evalIn_bind, h.eval_cascade ha hk]
    rfl
  have hfrom : evalIn productive ((selfDependent max).cascadeFrom (fun _ => ["app"]) a "o/app" .merge) t =
      ((), cascadeTable t a.shortId tip) := by
    show evalIn productive (effort (.triggering a.id) >>= fun _ =>
      Watcher.cascadeAll a (["app"].filter ((selfDependent max).cascades "o/app" .merge)) >>= fun _ =>
        Watcher.cascadeAll a []) t = _
    rw [hnames, evalIn_bind]
    show evalIn productive (Watcher.cascadeAll a ["app"] >>= _) t = _
    rw [evalIn_bind, hall]
    rfl
  unfold Watcher.triggerCascade
  rw [if_neg hsource, hrepo, hn]
  show evalIn productive ((selfDependent max).depthAllows a >>= fun allowed =>
    if allowed = true then (selfDependent max).cascadeFrom (fun _ => ["app"]) a "o/app" .merge
    else pure ()) t = _
  rw [evalIn_bind, eval_depthAllows rfl hmax]
  exact hfrom

theorem Tip.eval_checkPr (h : Tip t tip r k) :
    ∃ t' tip' r', evalIn productive ((selfDependent max).checkPr U (rowToFixAttempt (tip, r))).run t =
      (.ok true, t') ∧ Tip t' tip' r' (k + 1) := by
  have hsource : (rowToFixAttempt (tip, r)).key.source ≠ SECURITY_FIX_SOURCE := by
    show r.key.source ≠ _
    rw [h.key]
    decide
  refine ⟨_, _, _, ?_, h.merged.cascade r.shortId⟩
  have hcascade := h.merged.eval_triggerCascade hmax (a := rowToFixAttempt (tip, r)) rfl h.key
    h.scmRepo h.scmPrNumber
  have hmerged : evalIn productive ((selfDependent max).prMerged U (rowToFixAttempt (tip, r))).run t =
      (.ok (), cascadeTable (t.exec ⟨0, settles r tip⟩) r.shortId tip) := by
    unfold Watcher.prMerged
    rw [evalIn_try h.settle, evalIn_try (eval_afterMerge rfl)]
    unfold whenever
    rw [if_pos ⟨rfl, hsource⟩]
    refine (evalIn_bind _ _).trans ?_
    rw [hcascade]
    rfl
  have hrun : ∀ {t}, evalIn productive (ask .isRunning : ExceptT Error Run Bool).run t = (.ok true, t) :=
    rfl
  have hstatus : evalIn productive (ask (.getPrStatus "o/app" 1) : ExceptT Error Run _).run t =
      (.ok (.ok .merged), t) := rfl
  unfold Watcher.checkPr
  rw [evalIn_try hrun, if_pos rfl]
  have hr : (rowToFixAttempt (tip, r)).scmRepo = some "o/app" := h.scmRepo
  have hn : (rowToFixAttempt (tip, r)).scmPrNumber = some 1 := h.scmPrNumber
  rw [hr, hn]
  show evalIn productive (ask (.getPrStatus "o/app" 1) >>= fun status =>
    (selfDependent max).onStatus U (rowToFixAttempt (tip, r)) status : ExceptT Error Run Bool).run t = _
  rw [evalIn_try hstatus]
  show evalIn productive (Watcher.whileRunning ((selfDependent max).prMerged U _)).run t = _
  unfold Watcher.whileRunning
  rw [evalIn_try hrun, if_pos rfl, evalIn_try hmerged]
  rfl

/-- One check of the pull requests adds an attempt one deeper. -/
theorem Tip.eval_merges (h : Tip t tip r k) :
    ∃ tip' r', Tip (evalIn productive (Job.program U (selfDependent max) .merges) t).2 tip' r' (k + 1) := by
  obtain ⟨t', tip', r', hcheck, h'⟩ := h.eval_checkPr (U := U) hmax
  refine ⟨tip', r', ?_⟩
  have hpending : evalIn productive (try_ .getPendingPrs).run t =
      (.ok [rowToFixAttempt (tip, r)], t) := by
    show Req.answer productive .getPendingPrs t = _
    simp only [Req.answer, Env.stored, productive, h.getPendingPrs]
  have hall : evalIn productive ((selfDependent max).checkPrs U [rowToFixAttempt (tip, r)]).run t =
      (.ok (), t') := by
    have hloop : evalIn productive
        (forWhile ((selfDependent max).checkPr U) [rowToFixAttempt (tip, r)]).run t = (.ok (), t') := by
      show evalIn productive ((selfDependent max).checkPr U (rowToFixAttempt (tip, r)) >>= fun more =>
        if more = true then pure () else pure () : ExceptT Error Run Unit).run t = _
      rw [evalIn_try hcheck]
      rfl
    unfold Watcher.checkPrs
    rw [evalIn_try hloop]
    rfl
  have hrun : evalIn productive ((selfDependent max).checkPrMergesAndCascade U).run t = (.ok (), t') := by
    show evalIn productive (try_ .getPendingPrs >>= fun pendingPrs =>
      (selfDependent max).checkPrs U pendingPrs : ExceptT Error Run Unit).run t = _
    rw [evalIn_try hpending, hall]
  show Tip (evalIn productive (((selfDependent max).checkPrMergesAndCascade U).run >>= fun _ =>
    pure ()) t).2 tip' r' (k + 1)
  rw [evalIn_bind, hrun]
  exact h'

/-- A run of the watcher that nobody disturbs, up to its end. -/
theorem Tip.cycle {world : World Req FixAttempts View} (hidle : world.prog 0 = .ret ())
    (h : Tip world.shared tip r k) :
    ∃ n tip' r', (run ((watchers U (selfDependent max)).step watch) world
        (.start 0 .merges :: List.replicate n (.go 0 productive))).prog 0 = .ret () ∧
      Tip (run ((watchers U (selfDependent max)).step watch) world
        (.start 0 .merges :: List.replicate n (.go 0 productive))).shared tip' r' (k + 1) := by
  obtain ⟨tip', r', h'⟩ := h.eval_merges (U := U) hmax
  have hstart : (watchers U (selfDependent max)).step watch world (.start 0 .merges) =
      Pool.advance watch world 0 (Job.program U (selfDependent max) .merges) (watch.start .merges)
        world.shared := by
    simp only [Pool.step, hidle]
    rfl
  obtain ⟨n, hs, hr⟩ := Pool.run_go_eval (P := watchers U (selfDependent max)) (M := watch) productive 0
    (Job.program U (selfDependent max) .merges)
    ((watchers U (selfDependent max)).step watch world (.start 0 .merges))
    (by rw [hstart]; exact Function.update_self (0 : Nat) (Job.program U (selfDependent max) .merges) world.prog)
  refine ⟨n, tip', r', hr, ?_⟩
  rw [run_cons, hs, hstart]
  exact h'

end

/-- The first attempt, whose pull request is open. -/
def firstMoves : List (Move Env Job Outside) :=
  [.outside ⟨⟨0, .recordAttemptWithLabels linearIssue "1" []⟩, rfl⟩,
   .outside ⟨⟨0, .markSuccess linearIssue ownPr⟩, rfl⟩]

theorem tip_first : Tip (tracked [⟨0, .recordAttemptWithLabels linearIssue "1" []⟩,
    ⟨0, .markSuccess linearIssue ownPr⟩]) 1
    ((AttemptRow.original linearIssue "1" 0 none).succeed ownPr) 0 := by
  have hone : ∀ i q, (tracked [⟨0, .recordAttemptWithLabels linearIssue "1" []⟩,
      ⟨0, .markSuccess linearIssue ownPr⟩]).get i = some q →
      i = 1 ∧ q.prUrl = some ownPr ∧ q.parentAttemptId = none :=
    Table.forall_get (P := fun (p : Nat × AttemptRow) => p.1 = 1 ∧ p.2.prUrl = some ownPr ∧ p.2.parentAttemptId = none)
      (by decide)
  constructor
  case row => decide
  case scmRepo => decide
  case scmPrNumber => decide
  case others => exact fun i q hq hi => absurd (hone i q hq).1 hi
  case prUrl => exact fun i q hq => (hone i q hq).2.1
  case rooted =>
    intro i q p hq hp
    rw [(hone i q hq).2.2] at hp
    cases hp
  case depth =>
    have hrow : (tracked [⟨0, .recordAttemptWithLabels linearIssue "1" []⟩,
        ⟨0, .markSuccess linearIssue ownPr⟩]).get 1 =
          some ((AttemptRow.original linearIssue "1" 0 none).succeed ownPr) := by decide
    exact .root hrow rfl
  all_goals rfl

/-- Above the cap no limit holds: attempts of every depth are recorded. -/
theorem deep_cascades (U : CaseProps) {max : Nat} (hmax : MAX_CASCADE_DEPTH < max) (k : Nat) :
    ∃ moves, Along ((watchers U (selfDependent max)).step watch) ReadsParents
        (Pool.initial watch Table.empty) moves ∧
      (run ((watchers U (selfDependent max)).step watch) (Pool.initial watch Table.empty) moves).prog 0 =
        .ret () ∧
      ∃ tip r, Tip (run ((watchers U (selfDependent max)).step watch) (Pool.initial watch Table.empty)
        moves).shared tip r k := by
  induction k with
  | zero =>
    refine ⟨firstMoves, ⟨trivial, trivial, trivial⟩, rfl, 1,
      (AttemptRow.original linearIssue "1" 0 none).succeed ownPr, tip_first⟩
  | succ k ih =>
    obtain ⟨moves, hread, hidle, tip, r, h⟩ := ih
    obtain ⟨n, tip', r', hidle', h'⟩ := h.cycle (U := U) hmax hidle
    refine ⟨moves ++ .start 0 .merges :: List.replicate n (.go 0 productive), ?_, ?_, tip', r', ?_⟩
    · refine along_append.mpr ⟨hread, trivial, along_of_forall fun move hm world => ?_⟩
      rw [List.eq_of_mem_replicate hm]
      exact readsParents_go rfl
    · rw [run_append]
      exact hidle'
    · rw [run_append]
      exact h'

theorem limit_exceeded (U : CaseProps) {max : Nat} (hmax : MAX_CASCADE_DEPTH < max) :
    ∃ moves, Along ((watchers U (selfDependent max)).step watch) ReadsParents
        (Pool.initial watch Table.empty) moves ∧
      ¬ DepthBounded max
        (run ((watchers U (selfDependent max)).step watch) (Pool.initial watch Table.empty) moves).shared := by
  obtain ⟨moves, hread, -, tip, r, h⟩ := deep_cascades U hmax (max + 1)
  refine ⟨moves, hread, fun hb => ?_⟩
  obtain ⟨n, hn, ha⟩ := hb tip r h.row
  have := ha.unique h.depth
  omega

/-- A limit holds in every run that can read the parents exactly when the walk can reach it; the
walk itself ends on every table of parents. -/
theorem cascade_depth_limited (max : Nat) (h0 : 0 < max) :
    ((∀ (U : CaseProps) (w : Watcher) (moves : List (Move Env Job Outside)), w.cascade.maxDepth = max →
        Along ((watchers U w).step watch) ReadsParents (Pool.initial watch Table.empty) moves →
        DepthBounded max
          (run ((watchers U w).step watch) (Pool.initial watch Table.empty) moves).shared) ↔
      max ≤ MAX_CASCADE_DEPTH) ∧
    ∀ (parentOf : Nat → Option FixAttempt) (parent : Option Nat),
      ∃ d ≤ MAX_CASCADE_DEPTH, ∀ rounds, MAX_CASCADE_DEPTH < rounds →
        walk (m := Id) parentOf rounds 0 [] parent = some d := by
  refine ⟨⟨fun h => ?_, fun hcap U w moves hw hread => ?_⟩, walk_terminates⟩
  · by_contra hmax
    obtain ⟨moves, hread, hb⟩ := limit_exceeded ⟨fun _ => false, fun _ => false⟩ (not_le.mp hmax)
    exact hb (h _ _ moves rfl hread)
  · subst hw
    exact depth_bounded U w h0 hcap moves hread

theorem cascade_depth_limited_ten : 0 < 10 ∧
    ∀ (U : CaseProps) (w : Watcher) (moves : List (Move Env Job Outside)), w.cascade.maxDepth = 10 →
      Along ((watchers U w).step watch) ReadsParents (Pool.initial watch Table.empty) moves →
      DepthBounded 10
        (run ((watchers U w).step watch) (Pool.initial watch Table.empty) moves).shared :=
  ⟨by decide, (cascade_depth_limited 10 (by decide)).1.mpr (by decide)⟩

/-- A limit of 65 does not keep a chain of merges from going deeper. -/
theorem limit_65_exceeded :
    ¬ ∀ max, 0 < max → ∀ (U : CaseProps) (w : Watcher) (moves : List (Move Env Job Outside)),
      w.cascade.maxDepth = max →
      Along ((watchers U w).step watch) ReadsParents (Pool.initial watch Table.empty) moves →
      DepthBounded max
        (run ((watchers U w).step watch) (Pool.initial watch Table.empty) moves).shared := by
  intro h
  have h65 : MAX_CASCADE_DEPTH < 65 := by decide
  obtain ⟨moves, hread, hb⟩ := limit_exceeded ⟨fun _ => false, fun _ => false⟩ h65
  exact hb (h 65 (by decide) _ _ moves rfl hread)

end Claudear.Engine.PullRequests
