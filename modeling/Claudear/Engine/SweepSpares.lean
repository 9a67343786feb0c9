import Claudear.Engine.PrWebhook

/-!
# What a check of one pull request leaves alone

In a sweep the store does not fail, so the check of an attempt always goes on to
the next. It leaves the originals of other issues as they are: a cascade writes
rows of cascades only.
-/

namespace Claudear.Engine.PullRequests

open Claudear.Sql Claudear.Storage Claudear.Machine Claudear.Text

variable {U : CaseProps} {w : Watcher} {sweep : Sweep} {t t' : FixAttempts} {a : FixAttempt}
  {s s' s₀ : Site} {i id : Nat} {r : AttemptRow}

/-- The row is an original, and not the attempt's own. -/
def Foreign (a : FixAttempt) (r : AttemptRow) : Prop :=
  r.cascadeRepo = none ∧ (a.cascadeRepo = none → r.key ≠ a.key)

structure Spares (a : FixAttempt) (s₀ s : Site) : Prop where
  host : s.host = s₀.host
  kept : ∀ i r, s₀.table.get i = some r → Foreign a r → s.table.get i = some r

theorem Spares.refl (a : FixAttempt) (s : Site) : Spares a s s := ⟨rfl, fun _ _ h _ => h⟩

theorem Spares.trans (h : Spares a s₀ s) (h' : Spares a s s') : Spares a s₀ s' :=
  ⟨h'.host.trans h.host, fun i r hr hf => h'.kept i r (h.kept i r hr hf) hf⟩

/-- A call whose writer leaves the foreign rows alone. -/
theorem Spares.serve (h : Spares a s₀ s) (sweep : Sweep) {β : Type} (c : Req β)
    (hc : ∀ op ∈ c.writes, ∀ now i r, s.table.get i = some r → Foreign a r →
      (Call.mk now op).rewrite s.table (i, r) = r) : Spares a s₀ (s.serve sweep c).2 := by
  refine h.trans ⟨rfl, fun i r hr hf => ?_⟩
  rcases answer_snd (sweep.env s.host c) c s.table with ht | ⟨op, hop, ht⟩
  · exact (congrArg (fun t => Table.get t i) ht).trans hr
  · refine (congrArg (fun t => Table.get t i) ht).trans ?_
    rw [FixAttempts.get_exec_of hr, hc op hop _ i r hr hf]

theorem Spares.plain (h : Spares a s₀ s) (sweep : Sweep) {β : Type} {c : Req β} (hc : c.writes = none) :
    Spares a s₀ (s.serve sweep c).2 :=
  h.serve sweep c fun op hop => by
    rw [hc] at hop
    cases hop

theorem table_serve {β : Type} {c : Req β} (hc : c.writes = none) : (s.serve sweep c).2.table = s.table :=
  (answer_snd (sweep.env s.host c) c s.table).resolve_right fun ⟨op, hop, _⟩ => by
    rw [hc] at hop
    cases hop

theorem Foreign.not_original (h : Foreign a r) (hc : a.cascadeRepo = none) : ofOriginal a.key (i, r) = false :=
  Bool.eq_false_iff.mpr fun ho => h.2 hc (ofOriginal_iff.mp ho).1

/-! ## Cascades -/

/-- A statement on the row of a cascade. -/
theorem Foreign.not_cascade (h : Foreign a r) (ht : t.get i = some r) {q : AttemptRow} (hq : t.get id = some q)
    (hc : q.cascadeRepo.isSome) : ofId id (i, r) = false := by
  refine decide_eq_false fun he => ?_
  subst he
  cases Option.some.inj (ht.symm.trans hq)
  rw [h.1] at hc
  cases hc

theorem recorded_cascade {k : IssueKey} {shortId repo : String} {p : Nat}
    (h : (s.serve sweep (.recordCascadeAttempt k shortId p repo)).1 = .ok id) :
    ∃ q, (s.serve sweep (.recordCascadeAttempt k shortId p repo)).2.table.get id = some q ∧
      q.cascadeRepo.isSome := by
  simp only [Site.serve, Req.answer, Sweep.env] at h ⊢
  cases hrec : s.table.recordCascadeAttempt sweep.now k shortId p repo with
  | error e =>
    rw [hrec] at h
    cases h
  | ok x =>
    obtain ⟨i, t'⟩ := x
    rw [hrec] at h
    obtain rfl : i = id := Except.ok.inj h
    unfold FixAttempts.recordCascadeAttempt at hrec
    split at hrec
    · rename_i r hf
      cases hrec
      obtain ⟨hr, ho⟩ := Table.first_get hf
      simp only [FixAttempts.openCascade, Bool.and_eq_true, decide_eq_true_eq] at ho
      exact ⟨r, hr, by rw [ho.1.2]; rfl⟩
    · split at hrec
      · cases hrec
      · cases hrec
        exact ⟨_, (Table.get_insert _ _ _).trans (if_pos rfl), rfl⟩

theorem ends_settleCascade_spares (h : Spares a s₀ s) {q : AttemptRow} (hq : s.table.get id = some q)
    (hc : q.cascadeRepo.isSome) (result : AgentResult) :
    Prog.Ends (Site.serve sweep) (settleCascade a id result).run (fun _ => Spares a s₀) s := by
  have hfail : ∀ error, Prog.Ends (Site.serve sweep) (failCascade a id error).run (fun _ => Spares a s₀) s := by
    intro error
    have h : Spares a s₀ (s.serve sweep (.markCascadeFailed id error)).2 := by
      refine h.serve sweep _ fun op hop now i r hr hf => ?_
      cases hop
      simp only [Call.rewrite, hf.not_cascade hr hq hc]
      rfl
    exact Prog.ends_tryCall (fun _ _ => h.plain sweep (c := .effort (.notify a.key)) rfl) fun _ _ => h
  unfold settleCascade
  split
  · split
    · rename_i prUrl _
      have hstore : Prog.Ends (Site.serve sweep) (storePr id prUrl).run (fun _ => Spares a s₀) s := by
        unfold storePr
        split
        · rename_i scmRepo prNumber _
          refine h.serve sweep (.updateAttemptPr id prUrl scmRepo prNumber) fun op hop now i r hr hf => ?_
          cases hop
          simp only [Call.rewrite, hf.not_cascade hr hq hc]
          rfl
        · exact h
      refine Prog.Ends.tryBind hstore (fun _ s h => ?_) fun _ _ h => h
      exact ((h.plain sweep (c := .effort (.watchPr prUrl)) rfl).plain sweep
        (c := .effort (.recordActivity "cascade_pr_created")) rfl).plain sweep
        (c := .effort (.notify a.key)) rfl
    · exact hfail _
  · exact hfail _

theorem ends_cascadeToRepo_spares (h : Spares a s₀ s) (name : String) :
    Prog.Ends (Site.serve sweep) (cascadeToRepo a name).run (fun _ => Spares a s₀) s := by
  refine Prog.ends_lift ?_
  have h := h.plain sweep (c := .resolveRepoForCascade name) rfl
  split
  · exact h
  · rename_i scmUrl _
    have h := h.serve sweep (.recordCascadeAttempt a.key a.shortId a.id scmUrl) fun op hop now i r _ _ => by
      cases hop
      rfl
    refine Prog.ends_tryCall (fun id hid => ?_) fun _ _ => h
    obtain ⟨q, hq, hc⟩ := recorded_cascade hid
    refine Prog.ends_tryCall (fun _ _ => ?_) fun _ _ => h.plain sweep rfl
    have h := h.plain sweep (c := .createWorktree name ("cascade-" ++ a.shortId)) rfl
    refine Prog.ends_tryCall (fun result _ => ?_) fun _ _ => h.plain sweep rfl
    refine ends_settleCascade_spares (h.plain sweep rfl) ?_ hc result
    rw [table_serve rfl, table_serve rfl]
    exact hq

theorem Req.plain_writes {β : Type} {c : Req β} (hc : c.plain = true) : c.writes = none := by
  cases c with
  | getPrStatus => rfl
  | _ =>
    simp only [Req.plain, Bool.and_eq_true, Option.isNone_iff_eq_none] at hc
    exact hc.1

theorem ends_cascadeAll_spares (h : Spares a s₀ s) (names : List String) :
    Prog.Ends (Site.serve sweep) (Watcher.cascadeAll a names) (fun _ => Spares a s₀) s :=
  Prog.ends_forM (fun name _ _ h => (ends_cascadeToRepo_spares h name).bind fun _ _ h => h) h

theorem ends_triggerCascade_spares (h : Spares a s₀ s) (trigger : CascadeTrigger) :
    Prog.Ends (Site.serve sweep) (w.triggerCascade a trigger) (fun _ => Spares a s₀) s := by
  unfold Watcher.triggerCascade
  split
  · exact h
  · split
    · split
      · have hdepth : Prog.Ends (Site.serve sweep) (w.depthAllows a) (fun _ => Spares a s₀) s :=
          Quiet.ends plain_depthAllows () (fun c _ hc h => h.plain sweep (Req.plain_writes hc)) h
        refine hdepth.bind fun allowed s h => ?_
        split
        · unfold Watcher.cascadeFrom
          dsimp only
          split
          · exact h
          · refine Prog.ends_call ?_
            refine (ends_cascadeAll_spares (h.plain sweep rfl) _).bind fun _ s h => ?_
            exact ends_cascadeAll_spares h _
        · exact h
      · exact h
    · exact h

/-! ## Checks that go on -/

/-- A program that ends without an error. -/
def Fine (sweep : Sweep) (a : FixAttempt) {α : Type} (p : ExceptT Error Run α) : Prop :=
  ∀ s₀ s, Spares a s₀ s →
    Prog.Ends (Site.serve sweep) p.run (fun r s => (∃ x, r = .ok x) ∧ Spares a s₀ s) s

theorem fine_pure {α : Type} (x : α) : Fine sweep a (pure x) := fun _ _ h => ⟨⟨x, rfl⟩, h⟩

theorem fine_ask {α : Type} {c : Req α} (hc : c.writes = none) : Fine sweep a (ask c) :=
  fun _ _ h => ⟨⟨_, rfl⟩, h.plain sweep hc⟩

theorem fine_try {c : Req (Except Error Unit)} (hok : ∀ s, (Site.serve sweep c s).1 = .ok ())
    (hc : ∀ op ∈ c.writes, ∀ t now i r, Foreign a r → (Call.mk now op).rewrite t (i, r) = r) :
    Fine sweep a (try_ c) :=
  fun _ s h => ⟨⟨(), hok s⟩, h.serve sweep c fun op hop now i r _ hf => hc op hop _ now i r hf⟩

theorem Fine.bind {α β : Type} {p : ExceptT Error Run α} {f : α → ExceptT Error Run β} (hp : Fine sweep a p)
    (hf : ∀ x, Fine sweep a (f x)) : Fine sweep a (p >>= f) := fun s₀ s h =>
  Prog.Ends.tryBind (hp s₀ s h) (fun x s h => hf x s₀ s h.2) fun _ _ h => by
    obtain ⟨x, hx⟩ := h.1
    cases hx

theorem Fine.whenever {c : Prop} [Decidable c] {p : ExceptT Error Run Unit} (h : c → Fine sweep a p) :
    Fine sweep a (whenever c p) := by
  unfold PullRequests.whenever
  split
  · exact h ‹_›
  · exact fine_pure ()

theorem Fine.forPr {f : String → ExceptT Error Run Unit} (h : ∀ prUrl, Fine sweep a (f prUrl)) :
    Fine sweep a (Watcher.forPr a f) := by
  unfold Watcher.forPr
  split
  · exact h _
  · exact fine_pure ()

theorem fine_lift {α : Type} {p : Run α} (h : ∀ s₀ s, Spares a s₀ s →
    Prog.Ends (Site.serve sweep) p (fun _ => Spares a s₀) s) : Fine sweep a (ExceptT.lift p) :=
  fun s₀ s hs => (h s₀ s hs).lift.mono fun _ _ ⟨x, hx, h⟩ => ⟨⟨x, hx⟩, h⟩

theorem fine_effort (e : Effort) : Fine sweep a (ask (.effort e)) := fine_ask rfl

theorem fine_settleRow (merged : Bool) : Fine sweep a (try_ (Watcher.settleRow a merged)) := by
  unfold Watcher.settleRow
  split
  · rename_i hc
    refine fine_try (fun _ => rfl) fun op hop t now i r hf => ?_
    cases hop
    simp [Call.rewrite, hf.1]
  · rename_i hc
    have hc : a.cascadeRepo = none := by simpa using hc
    split
    · refine fine_try (fun _ => rfl) fun op hop t now i r hf => ?_
      cases hop
      simp [Call.rewrite, hf.not_original hc]
    · refine fine_try (fun _ => rfl) fun op hop t now i r hf => ?_
      cases hop
      simp [Call.rewrite, hf.not_original hc]

theorem fine_autoResolve (watched : Bool) : Fine sweep a (w.autoResolve a watched) := by
  refine .whenever fun hc => (fine_ask rfl).bind fun r => ?_
  cases r with
  | error e => exact fine_pure ()
  | ok r =>
    refine Fine.bind (fine_try (fun _ => rfl) fun op hop t now i r hf => ?_) fun _ => .forPr fun _ => fine_effort _
    cases hop
    simp [Call.rewrite, hf.not_original (Option.isNone_iff_eq_none.mp hc.1)]

theorem fine_watchForRegression : Fine sweep a (ExceptT.lift (Watcher.watchForRegression U a)) := by
  refine fine_lift fun s₀ s h => ?_
  unfold Watcher.watchForRegression
  split
  · refine Prog.ends_call ?_
    have h := h.plain sweep (c := .createRegressionWatch a.key.issueId a.id) rfl
    split <;> exact h
  · exact h

theorem fine_afterMerge : Fine sweep a (w.afterMerge U a) := by
  refine (fine_effort _).bind fun _ => (fine_effort _).bind fun _ => ?_
  refine (Fine.forPr fun _ => fine_effort _).bind fun _ => fine_watchForRegression.bind fun watched => ?_
  refine (fine_autoResolve watched).bind fun _ => (Fine.whenever fun _ => fine_effort _).bind fun _ => ?_
  refine (fine_effort _).bind fun _ => (Fine.whenever fun _ => fine_effort _).bind fun _ => ?_
  exact .forPr fun _ => fine_effort _

theorem fine_prMerged : Fine sweep a (w.prMerged U a) :=
  (fine_settleRow true).bind fun _ => fine_afterMerge.bind fun _ => .whenever fun _ =>
    fine_lift fun _ _ h => ends_triggerCascade_spares h .merge

theorem fine_prClosed : Fine sweep a (Watcher.prClosed a) := by
  refine (fine_settleRow false).bind fun _ => (fine_effort _).bind fun _ => (fine_effort _).bind fun _ => ?_
  exact (fine_effort _).bind fun _ => (Fine.forPr fun _ => fine_effort _).bind fun _ => .forPr fun _ => fine_effort _

theorem ends_whileRunning_spares {p : ExceptT Error Run Unit} (hp : Fine sweep a p) (h : Spares a s₀ s) :
    Prog.Ends (Site.serve sweep) (Watcher.whileRunning p).run (fun r s => r = .ok true ∧ Spares a s₀ s) s := by
  refine Prog.ends_lift ?_
  refine Prog.Ends.tryBind (hp s₀ _ (h.plain sweep rfl)) (fun _ s h => ⟨rfl, h.2⟩) fun _ _ h => ?_
  obtain ⟨⟨x, hx⟩, -⟩ := h
  cases hx

/-- The check of one pull request. -/
theorem ends_checkPr_spares (U : CaseProps) (w : Watcher) (sweep : Sweep) (a : FixAttempt) (s : Site) :
    Prog.Ends (Site.serve sweep) (w.checkPr U a).run (fun r s' => r = .ok true ∧ Spares a s s') s := by
  refine Prog.ends_lift ?_
  have h : Spares a s (s.serve sweep .isRunning).2 := (Spares.refl a s).plain sweep rfl
  split
  · split
    · rename_i scmRepo prNumber _ _
      refine Prog.ends_lift ?_
      have h := h.plain sweep (c := .getPrStatus scmRepo prNumber) rfl
      unfold Watcher.onStatus
      split
      · exact ends_whileRunning_spares fine_prMerged h
      · exact ends_whileRunning_spares fine_prClosed h
      · exact ⟨rfl, h⟩
      · exact ⟨rfl, h⟩
    · exact ⟨rfl, h⟩
  · rename_i hrunning
    exact absurd rfl hrunning

end Claudear.Engine.PullRequests
