import Claudear.Engine.PrCalls
import Claudear.Engine.PrWebhook
import Claudear.Machine.Twins
import Claudear.Sql.Alike

/-!
# Two sites swept side by side

Rows are tied when they differ in how their pull request ended only, and in
their status only under the keys in `Q`. A check of one pull request cannot tell
tied sites apart, and leaves them tied: a statement that sets a status sets the
same one on both.
-/

namespace Claudear.Engine.PullRequests

open Claudear.Sql Claudear.Storage Claudear.Machine Claudear.Text

variable {U : CaseProps} {w : Watcher} {sweep : Sweep} {host : Host} {t t' : FixAttempts} {a : FixAttempt}
  {s s' : Site} {Q : Nat → Prop} {i : Nat} {q r : AttemptRow}

/-! ## Rows side by side -/

/-- The columns that say nothing of how the pull request ended. -/
def core (r : AttemptRow) : AttemptRow := { r with status := .pending, mergedAt := none, resolvedAt := none }

structure Tied (Q : Nat → Prop) (i : Nat) (q r : AttemptRow) : Prop where
  same : core q = core r
  status : q.status = r.status ∨ Q i

theorem Tied.refl (Q : Nat → Prop) (i : Nat) (r : AttemptRow) : Tied Q i r r := ⟨rfl, .inl rfl⟩

theorem Tied.where_ (h : Tied Q i q r) {p : Nat × AttemptRow → Bool} (hp : ∀ r, p (i, r) = p (i, core r)) :
    p (i, q) = p (i, r) := by
  rw [hp q, hp r, h.same]

/-- A statement that sets the status, the same for every row. -/
theorem Tied.settle (h : Tied Q i q r) {f : AttemptRow → AttemptRow} (hc : ∀ r, core (f r) = core (f (core r)))
    (hs : ∀ r, (f r).status = (f (core r)).status) : Tied Q i (f q) (f r) := by
  refine ⟨?_, .inl ?_⟩
  · rw [hc q, hc r, h.same]
  · rw [hs q, hs r, h.same]

/-- A statement that leaves the status. -/
theorem Tied.keep (h : Tied Q i q r) {f : AttemptRow → AttemptRow} (hc : ∀ r, core (f r) = core (f (core r)))
    (hs : ∀ r, (f r).status = r.status) : Tied Q i (f q) (f r) := by
  refine ⟨?_, ?_⟩
  · rw [hc q, hc r, h.same]
  · rw [hs q, hs r]
    exact h.status

structure TiedSites (Q : Nat → Prop) (s s' : Site) : Prop where
  host : s.host = s'.host
  table : Table.Alike (Tied Q) s.table s'.table
  begun : s.begun = s'.begun

/-! ## Calls -/

/-- What the answers on two tied sites have in common. -/
def eqv (β : Type) : Req β → β → β → Prop
  | .getAttemptById _ => fun b b' =>
    b.map (Option.map FixAttempt.parentAttemptId) = b'.map (Option.map FixAttempt.parentAttemptId)
  | .getPendingPrs => fun _ _ => True
  | .getMostRecentMergedAttemptForRepo _ => fun _ _ => True
  | .getAttemptsByStatus _ => fun _ _ => True
  | _ => fun b b' => b = b'

/-- The same cascade is recorded on both sites. -/
theorem recordCascade_tied (h : Table.Alike (Tied Q) t t') (now : Timestamp) (k : IssueKey) (shortId : String)
    (parent : Nat) (repo : String) :
    (t.recordCascadeAttempt now k shortId parent repo).map Prod.fst =
        (t'.recordCascadeAttempt now k shortId parent repo).map Prod.fst ∧
      Table.Alike (Tied Q) (t.exec ⟨now, .recordCascadeAttempt k shortId parent repo⟩)
        (t'.exec ⟨now, .recordCascadeAttempt k shortId parent repo⟩) := by
  have hfirst := h.first (p := FixAttempts.openCascade k repo) fun i q r hr => hr.where_ fun _ => rfl
  simp only [FixAttempts.exec, FixAttempts.recordCascadeAttempt]
  cases ht : t.first (FixAttempts.openCascade k repo) with
  | some x =>
    rw [ht] at hfirst
    cases ht' : t'.first (FixAttempts.openCascade k repo) with
    | none =>
      rw [ht'] at hfirst
      cases hfirst
    | some y =>
      rw [ht'] at hfirst
      cases hfirst with
      | some hxy => exact ⟨congrArg Except.ok hxy.1, h⟩
  | none =>
    rw [ht] at hfirst
    cases ht' : t'.first (FixAttempts.openCascade k repo) with
    | some y =>
      rw [ht'] at hfirst
      cases hfirst
    | none =>
      simp only [h.isNone_get parent]
      split
      · exact ⟨rfl, h⟩
      · exact ⟨congrArg Except.ok h.next, h.insert (Tied.refl Q _ _)⟩

/-- A statement is stored on both sites, or fails on both. -/
theorem stored_tied (h : Table.Alike (Tied Q) t t') (env : Env) {f : FixAttempts → FixAttempts}
    (hf : Table.Alike (Tied Q) (f t) (f t')) :
    (env.stored (fun t => ((), f t)) t).1 = (env.stored (fun t => ((), f t)) t').1 ∧
      Table.Alike (Tied Q) (env.stored (fun t => ((), f t)) t).2 (env.stored (fun t => ((), f t)) t').2 := by
  unfold Env.stored
  split
  · exact ⟨rfl, h⟩
  · exact ⟨rfl, hf⟩

/-- A query leaves the tables as they are. -/
theorem stored_query (h : Table.Alike (Tied Q) t t') (env : Env) {α : Type} (f : FixAttempts → α) :
    Table.Alike (Tied Q) (env.stored (fun t => (f t, t)) t).2 (env.stored (fun t => (f t, t)) t').2 := by
  rwa [(env.stored_snd (fun t => (f t, t)) t).elim id id, (env.stored_snd (fun t => (f t, t)) t').elim id id]

theorem stored_aside (h : Table.Alike (Tied Q) t t') (env : Env) {α : Type} (a : α) :
    (env.stored (fun t => (a, t)) t).1 = (env.stored (fun t => (a, t)) t').1 ∧
      Table.Alike (Tied Q) (env.stored (fun t => (a, t)) t).2 (env.stored (fun t => (a, t)) t').2 := by
  refine ⟨?_, stored_query h env fun _ => a⟩
  unfold Env.stored
  split <;> rfl

theorem parent_tied (h : Table.Alike (Tied Q) t t') (id : Nat) :
    (t.getAttemptById id).map FixAttempt.parentAttemptId = (t'.getAttemptById id).map FixAttempt.parentAttemptId := by
  unfold FixAttempts.getAttemptById
  cases ht : t.get id with
  | none =>
    have hnone := h.isNone_get id
    rw [ht] at hnone
    rw [Option.isNone_iff_eq_none.mp hnone.symm]
  | some q =>
    obtain ⟨r, hr, htied⟩ := h.get_left ht
    rw [hr]
    exact congrArg (fun r => some r.parentAttemptId) htied.same

/-- One call on two tied tables. -/
theorem answer_tied (h : Table.Alike (Tied Q) t t') (env : Env) {β : Type} (c : Req β) :
    eqv β c (c.answer env t).1 (c.answer env t').1 ∧
      Table.Alike (Tied Q) (c.answer env t).2 (c.answer env t').2 := by
  cases c with
  | getPendingPrs | getAttemptsByStatus status | getMostRecentMergedAttemptForRepo repo =>
    exact ⟨trivial, stored_query h env _⟩
  | getAttemptById id =>
    refine ⟨?_, stored_query h env _⟩
    simp only [eqv, Req.answer, Env.stored]
    split
    · rfl
    · exact congrArg Except.ok (parent_tied h id)
  | recordCascadeAttempt k shortId parent repo =>
    obtain ⟨hfst, htable⟩ := recordCascade_tied h env.now k shortId parent repo
    simp only [eqv, Req.answer]
    simp only [FixAttempts.exec] at htable
    cases env.error with
    | some e => exact ⟨rfl, h⟩
    | none =>
      cases ht : t.recordCascadeAttempt env.now k shortId parent repo with
      | error e =>
        cases ht' : t'.recordCascadeAttempt env.now k shortId parent repo with
        | error e' =>
          rw [ht, ht'] at hfst
          have he : e = e' := Except.error.inj hfst
          exact ⟨congrArg Except.error he, h⟩
        | ok x =>
          rw [ht, ht'] at hfst
          cases hfst
      | ok x =>
        cases ht' : t'.recordCascadeAttempt env.now k shortId parent repo with
        | error e' =>
          rw [ht, ht'] at hfst
          cases hfst
        | ok x' =>
          rw [ht, ht'] at hfst htable
          have hid : x.1 = x'.1 := Except.ok.inj hfst
          exact ⟨congrArg Except.ok hid, htable⟩
  | markMerged k | markClosed k | markCascadeFailed id error | updateAttemptPr id prUrl scmRepo prNumber =>
    exact stored_tied h env (h.update (fun _ _ _ hr => hr.where_ fun _ => rfl) fun _ _ _ hr =>
      hr.settle (fun _ => rfl) fun _ => rfl)
  | markResolved k =>
    exact stored_tied h env (h.update (fun _ _ _ hr => hr.where_ fun _ => rfl) fun _ _ _ hr =>
      hr.keep (fun _ => rfl) fun _ => rfl)
  | markCascadePrOutcome id merged =>
    refine stored_tied h env (h.update (fun _ _ _ hr => ?_) fun _ _ _ hr => hr.settle (fun _ => rfl) fun _ => rfl)
    exact hr.where_ (p := fun r => ofId id r && r.2.cascadeRepo.isSome) fun _ => rfl
  | createRegressionWatch issueId id => exact stored_aside h env ()
  | createWorktree name id => exact stored_aside h env ()
  | execute id => exact stored_aside h env env.agent
  | _ => exact ⟨rfl, h⟩

theorem TiedSites.serve (h : TiedSites Q s s') (sweep : Sweep) {β : Type} (c : Req β) :
    eqv β c (s.serve sweep c).1 (s'.serve sweep c).1 ∧ TiedSites Q (s.serve sweep c).2 (s'.serve sweep c).2 := by
  obtain ⟨host, table, begun⟩ := s
  obtain ⟨host', table', begun'⟩ := s'
  obtain rfl : host = host' := h.host
  obtain rfl : begun = begun' := h.begun
  obtain ⟨heqv, htable⟩ := answer_tied h.table (sweep.env host c) c
  exact ⟨heqv, rfl, htable, rfl⟩

/-! ## Programs -/

theorem shared_ordinary {β : Type} {c : Req β} (hc : c.ordinary = true) : Shared eqv () c := by
  intro b b' h
  cases c with
  | getPendingPrs | getAttemptById | getMostRecentMergedAttemptForRepo | getAttemptsByStatus | recordCascadeAttempt =>
    cases hc
  | _ => exact h

theorem Ordinary.twins {α : Type} {p : Run α} (h : Ordinary p) : Twins eqv p p :=
  .refl (h.imp fun _ hc _ => shared_ordinary (hc ()))

theorem twins_walk (rounds depth : Nat) (visited : List Nat) (cur : Option Nat) :
    Twins eqv (walk readAttempt rounds depth visited cur) (walk readAttempt rounds depth visited cur) := by
  induction rounds generalizing depth visited cur with
  | zero => cases cur <;> exact .ret _
  | succ rounds ih =>
    cases cur with
    | none => exact .ret _
    | some parentId =>
      simp only [walk]
      split
      · exact .ret _
      · refine .call (Req.getAttemptById parentId) fun b b' hb => ?_
        cases b with
        | error e =>
          cases b' with
          | error e' => exact .ret _
          | ok parent' => cases hb
        | ok parent =>
          cases b' with
          | error e' => cases hb
          | ok parent' =>
            have hp : parent.map FixAttempt.parentAttemptId = parent'.map FixAttempt.parentAttemptId :=
              Except.ok.inj hb
            cases parent with
            | none =>
              cases parent' with
              | none => exact .ret _
              | some q => cases hp
            | some q =>
              cases parent' with
              | none => cases hp
              | some r =>
                have hqr : q.parentAttemptId = r.parentAttemptId := Option.some.inj hp
                have h := ih (depth + 1) (parentId :: visited) q.parentAttemptId
                show Twins eqv (walk readAttempt rounds (depth + 1) (parentId :: visited) q.parentAttemptId)
                  (walk readAttempt rounds (depth + 1) (parentId :: visited) r.parentAttemptId)
                rwa [← hqr]

theorem twins_depthAllows : Twins eqv (w.depthAllows a) (w.depthAllows a) := by
  unfold Watcher.depthAllows
  split
  · exact (Twins.bind (Twins.bind (twins_walk _ _ _ _) fun _ => .ret _) fun _ => .ret _)
  · exact .ret _

theorem twins_cascadeToRepo (name : String) :
    Twins eqv (cascadeToRepo a name).run (cascadeToRepo a name).run := by
  refine .refl (Quiet.tryBind ⟨fun _ => shared_ordinary rfl, fun _ => trivial⟩ fun url => ?_)
  cases url with
  | none => exact trivial
  | some scmUrl =>
    refine Quiet.tryBind ⟨fun _ _ _ h => h, fun _ => trivial⟩ fun id => ?_
    refine Quiet.imp (Quiet.tryBind (ordinary_try rfl) fun _ => ?_) fun c hc _ => shared_ordinary (hc ())
    exact Quiet.tryBind (ordinary_try rfl) fun result => ordinary_settleCascade a id result

theorem twins_cascadeAll (names : List String) :
    Twins eqv (Watcher.cascadeAll a names) (Watcher.cascadeAll a names) := by
  induction names with
  | nil => exact .ret _
  | cons name names ih => exact .bind (.bind (twins_cascadeToRepo name) fun _ => .ret _) fun _ => ih

theorem twins_triggerCascade (trigger : CascadeTrigger) :
    Twins eqv (w.triggerCascade a trigger) (w.triggerCascade a trigger) := by
  unfold Watcher.triggerCascade
  split
  · exact .ret _
  · split
    · split
      · refine .bind twins_depthAllows fun allowed => ?_
        split
        · unfold Watcher.cascadeFrom
          dsimp only
          split
          · exact .ret _
          · refine .bind (.call (Req.effort (.triggering a.id)) fun _ _ _ => .ret _) fun _ => ?_
            exact .bind (twins_cascadeAll _) fun _ => twins_cascadeAll _
        · exact .ret _
      · exact .ret _
    · exact .ret _

theorem twins_prMerged : Twins eqv (w.prMerged U a).run (w.prMerged U a).run := by
  refine .tryBind (ordinary_settleRow true).twins fun _ => .tryBind ordinary_afterMerge.twins fun _ => ?_
  unfold whenever
  split
  · exact .bind (twins_triggerCascade .merge) fun _ => .ret _
  · exact .ret _

theorem twins_whileRunning {p : ExceptT Error Run Unit} (h : Twins eqv p.run p.run) :
    Twins eqv (Watcher.whileRunning p).run (Watcher.whileRunning p).run := by
  refine .tryBind (ordinary_ask rfl).twins fun running => ?_
  split
  · exact .tryBind h fun _ => .ret _
  · exact .ret _

/-- The check of one pull request on two tied sites. -/
theorem twins_checkPr : Twins eqv (w.checkPr U a).run (w.checkPr U a).run := by
  refine .tryBind (ordinary_ask rfl).twins fun running => ?_
  split
  · split
    · refine .tryBind (ordinary_ask rfl).twins fun status => ?_
      unfold Watcher.onStatus
      split
      · exact twins_whileRunning twins_prMerged
      · exact twins_whileRunning ordinary_prClosed.twins
      · exact .ret _
      · exact .ret _
    · exact .ret _
  · exact .ret _

theorem TiedSites.checkPr (h : TiedSites Q s s') (sweep : Sweep) (a : FixAttempt) :
    (Prog.eval (Site.serve sweep) (w.checkPr U a).run s).1 =
        (Prog.eval (Site.serve sweep) (w.checkPr U a).run s').1 ∧
      TiedSites Q (Prog.eval (Site.serve sweep) (w.checkPr U a).run s).2
        (Prog.eval (Site.serve sweep) (w.checkPr U a).run s').2 :=
  twins_checkPr.eval (fun c _ _ h => h.serve sweep c) h

end Claudear.Engine.PullRequests
