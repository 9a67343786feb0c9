import Claudear.Engine.PrMerges
import Claudear.Storage.PrimaryRow

/-!
# A watcher that runs alone

`Answers` is everything the world answers in one check of the pull requests,
call by call: the status lookups are counted, and the calls after each lookup
are counted from it, so any set of calls may fail. `serve` answers a call and
notes the regression watches and cascades that begin.

A cascade leaves the rows alone that have a pull request, and the originals.
-/

namespace Claudear.Engine.PullRequests

open Claudear.Sql Claudear.Storage Claudear.Machine Claudear.Text

/-- `answers i j` answers the `j`-th call after the `i`-th status lookup, and `answers i 0` the
lookup itself. -/
abbrev Answers := Nat → Nat → Env

/-- What is to happen once for an attempt. -/
inductive Begun where
  | regressionWatch (attemptId : Nat)
  | cascade (attemptId : Nat)
  deriving DecidableEq, Repr

def Begun.attemptId : Begun → Nat
  | .regressionWatch id | .cascade id => id

def Req.begins {β : Type} : Req β → Option Begun
  | .createRegressionWatch _ id => some (.regressionWatch id)
  | .effort (.triggering id) => some (.cascade id)
  | _ => none

structure Check where
  table : FixAttempts
  lookups : Nat := 0
  calls : Nat := 0
  begun : List Begun := []

def Check.count {β : Type} (s : Check) : Req β → Nat × Nat
  | .getPrStatus .. => (s.lookups + 1, 0)
  | _ => (s.lookups, s.calls + 1)

def Check.note {β : Type} (s : Check) (c : Req β) : List Begun :=
  match c.begins with
  | some b => s.begun ++ [b]
  | none => s.begun

/-- A call of a watcher that keeps running. -/
def serve (answers : Answers) {β : Type} (c : Req β) (s : Check) : β × Check :=
  let (i, j) := s.count c
  let (b, table) := c.answer { answers i j with running := true } s.table
  (b, ⟨table, i, j, s.note c⟩)

/-- One run of `check_pr_merges_and_cascade`. -/
def checkMerges (U : CaseProps) (w : Watcher) (answers : Answers) (t : FixAttempts) : Check :=
  (Prog.eval (serve answers) (w.checkPrMergesAndCascade U).run { table := t }).2

/-! ## The tables of a watcher -/

/-- A cascade has no pull request with an empty URL. -/
structure Sane (t : FixAttempts) : Prop where
  original : UniqueOriginal t
  prUrl : ∀ i r, t.get i = some r → r.cascadeRepo.isSome → r.prUrl ≠ some ""

/-- A row that no cascade takes up. -/
def Taken (r : AttemptRow) : Prop := r.cascadeRepo = none ∨ r.prUrl.isSome

def Kept (t t' : FixAttempts) : Prop := ∀ i r, t.get i = some r → Taken r → t'.get i = some r

/-- The one writer of a pull request's URL stores a URL it has parsed. -/
def StoresUrl (c : Call) : Prop :=
  ∀ id prUrl scmRepo prNumber, c.op = .updateAttemptPr id prUrl scmRepo prNumber → prUrl ≠ ""

variable {U : CaseProps} {w : Watcher} {answers : Answers} {t t' : FixAttempts} {a : FixAttempt}
  {s s' s₀ : Check} {id i : Nat} {r : AttemptRow}

theorem Sane.exec (h : Sane t) {c : Call} (hc : StoresUrl c) : Sane (t.exec c) := by
  refine ⟨UniqueOriginal.exec h.original c, fun i r hr hs => ?_⟩
  rcases FixAttempts.get_exec_cases hr with ⟨q, hq, rfl⟩ | ⟨-, hi⟩
  · rw [Call.rewrite_cascadeRepo] at hs
    have hp := h.prUrl i q hq hs
    obtain ⟨now, op⟩ := c
    cases op with
    | updateAttemptPr id prUrl scmRepo prNumber =>
      simp only [Call.rewrite]
      split
      · exact fun h => hc id prUrl scmRepo prNumber rfl (Option.some.inj h)
      · exact hp
    | markSuccess k prUrl =>
      have ho : ofOriginal k (i, q) = false := ofOriginal_cascade (r := (i, q)) hs k
      simp only [Call.rewrite, ho]
      exact hp
    | recordCascadeAttempt => exact hp
    | _ =>
      simp only [Call.rewrite]
      split_ifs
      all_goals first | exact hp | exact fun h => by cases h
  · rcases Call.inserted_cases hi with ⟨k, shortId, labels, -, -, rfl⟩ | ⟨k, shortId, p, repo, -, -, -, rfl⟩
    · cases hs
    · exact fun h => by cases h

theorem sane_tracked (l : List Call) (hl : ∀ c ∈ l, StoresUrl c) : Sane (tracked l) := by
  refine Along.inv (P := Sane) (C := fun _ c => StoresUrl c) (along_of_forall fun c hc _ => hl c hc)
    (fun _ _ h hc => h.exec hc) ⟨Table.unique_empty, fun i r h => ?_⟩
  cases h

/-! ## Calls -/

/-- A call that neither writes nor begins anything, and is no status lookup. -/
def Req.plain {β : Type} : Req β → Bool
  | .getPrStatus .. => false
  | c => c.writes.isNone && c.begins.isNone

theorem serve_plain {β : Type} {c : Req β} (hc : c.plain = true) (s : Check) :
    (serve answers c s).2 = { s with calls := s.calls + 1 } := by
  have h : c.writes = none ∧ c.begins = none ∧ s.count c = (s.lookups, s.calls + 1) := by
    cases c with
    | getPrStatus repo number => cases hc
    | _ =>
      simp only [Req.plain, Bool.and_eq_true, Option.isNone_iff_eq_none] at hc
      exact ⟨hc.1, hc.2, rfl⟩
  obtain ⟨hw, hb, hn⟩ := h
  have ht : (c.answer { answers s.lookups (s.calls + 1) with running := true } s.table).2 = s.table :=
    (answer_snd _ c s.table).resolve_right fun ⟨op, hop, _⟩ => by
      rw [hw] at hop
      cases hop
  simp only [serve, hn, Check.note, hb, ht]

/-! ## Cascades -/

/-- A cascade leaves the rows alone that have a pull request, and the originals. -/
structure Aside (s₀ s : Check) : Prop where
  sane : Sane s.table
  kept : Kept s₀.table s.table
  lookups : s.lookups = s₀.lookups
  begun : s.begun = s₀.begun

theorem Aside.refl (h : Sane s.table) : Aside s s := ⟨h, fun _ _ hr _ => hr, rfl, rfl⟩

def Plain {α : Type} (p : Run α) : Prop := Quiet (fun (_ : Unit) c => c.plain = true) p

theorem Aside.plain (answers : Answers) (h : Aside s₀ s) {β : Type} {c : Req β} (hc : c.plain = true) :
    Aside s₀ (serve answers c s).2 := by
  rw [serve_plain hc]
  exact ⟨h.sane, h.kept, h.lookups, h.begun⟩

theorem Plain.ends {α : Type} {p : Run α} (hp : Plain p) (h : Aside s₀ s) :
    Prog.Ends (serve answers) p (fun _ => Aside s₀) s :=
  Quiet.ends hp () (fun _ _ hc h => h.plain answers hc) h

theorem Kept.update (h : Kept t t') (hr : t'.get id = some r) (ho : ¬ Taken r)
    (f : AttemptRow → AttemptRow) : Kept t (t'.update (ofId id) f) := by
  intro i q hq ht
  have hq' := h i q hq ht
  refine Table.get_update_of_not hq' (decide_eq_false fun he => ?_)
  subst he
  exact ho (Option.some.inj (hr.symm.trans hq') ▸ ht)

theorem openCascade_not_taken {k : IssueKey} {repo : String} (hs : Sane t) (hr : t.get id = some r)
    (h : FixAttempts.openCascade k repo (id, r) = true) : ¬ Taken r := by
  simp only [FixAttempts.openCascade, Bool.and_eq_true, Bool.or_eq_true, decide_eq_true_eq] at h
  rintro (hn | hp)
  · rw [hn] at h
    cases h.1.2
  · rcases h.2 with hu | hu
    · rw [hu] at hp
      cases hp
    · exact hs.prUrl id r hr (by rw [h.1.2]; rfl) hu

/-- The row a cascade is recorded in is new, or has no pull request yet. -/
theorem Aside.record (answers : Answers) (h : Aside s₀ s) (k : IssueKey) (shortId : String) (p : Nat) (repo : String) :
    Aside s₀ (serve answers (.recordCascadeAttempt k shortId p repo) s).2 ∧
      ∀ id, (serve answers (.recordCascadeAttempt k shortId p repo) s).1 = .ok id →
        ∃ q, (serve answers (.recordCascadeAttempt k shortId p repo) s).2.table.get id = some q ∧
          ¬ Taken q := by
  simp only [serve, Check.count, Req.answer]
  split
  · exact ⟨⟨h.sane, h.kept, h.lookups, h.begun⟩, fun id hid => by cases hid⟩
  · rename_i id t' _ hrec
    have hsane : Sane t' := by
      have he : Sane (s.table.exec ⟨(answers s.lookups (s.calls + 1)).now,
          .recordCascadeAttempt k shortId p repo⟩) :=
        h.sane.exec fun _ _ _ _ ho => by cases ho
      simp only [FixAttempts.exec, hrec] at he
      exact he
    unfold FixAttempts.recordCascadeAttempt at hrec
    split at hrec
    · rename_i i r hf
      cases hrec
      obtain ⟨hr, ho⟩ := Table.first_get hf
      refine ⟨⟨h.sane, h.kept, h.lookups, h.begun⟩, fun id hid => ?_⟩
      cases hid
      exact ⟨r, hr, openCascade_not_taken h.sane hr ho⟩
    · split at hrec
      · cases hrec
      · cases hrec
        refine ⟨⟨hsane, fun i r hr ht => Table.get_insert_of (h.kept i r hr ht), h.lookups, h.begun⟩,
          fun id hid => ?_⟩
        cases hid
        refine ⟨_, (Table.get_insert _ _ _).trans (if_pos rfl), ?_⟩
        rintro (hn | hp)
        · cases hn
        · cases hp
  · exact ⟨⟨h.sane, h.kept, h.lookups, h.begun⟩, fun id hid => by cases hid⟩

theorem ends_storePr (h : Aside s₀ s) (hr : s.table.get id = some r) (ho : ¬ Taken r) (prUrl : String) :
    Prog.Ends (serve answers) (storePr id prUrl).run (fun _ => Aside s₀) s := by
  unfold storePr
  split
  · rename_i scmRepo prNumber hparse
    have hne : prUrl ≠ "" := by
      rintro rfl
      have hnone : parsePrUrl "" = none := by decide
      cases hnone.symm.trans hparse
    show Aside s₀ (serve answers (.updateAttemptPr id prUrl scmRepo prNumber) s).2
    simp only [serve, Check.count, Req.answer, Env.stored]
    split
    · exact ⟨h.sane, h.kept, h.lookups, h.begun⟩
    · refine ⟨?_, h.kept.update hr ho _, h.lookups, h.begun⟩
      refine h.sane.exec (c := ⟨0, .updateAttemptPr id prUrl scmRepo prNumber⟩) fun _ _ _ _ he => ?_
      cases he
      exact hne
  · exact h

theorem ends_failCascade (h : Aside s₀ s) (hr : s.table.get id = some r) (ho : ¬ Taken r)
    (parent : FixAttempt) (error : String) :
    Prog.Ends (serve answers) (failCascade parent id error).run (fun _ => Aside s₀) s := by
  have hfail : Aside s₀ (serve answers (.markCascadeFailed id error) s).2 := by
    simp only [serve, Check.count, Req.answer, Env.stored]
    split
    · exact ⟨h.sane, h.kept, h.lookups, h.begun⟩
    · refine ⟨?_, h.kept.update hr ho _, h.lookups, h.begun⟩
      exact h.sane.exec (c := ⟨0, .markCascadeFailed id error⟩) fun _ _ _ _ he => by cases he
  exact Prog.ends_tryCall (fun _ _ => hfail.plain answers (c := .effort (.notify parent.key)) rfl)
    fun _ _ => hfail

theorem ends_settleCascade (h : Aside s₀ s) (hr : s.table.get id = some r) (ho : ¬ Taken r)
    (parent : FixAttempt) (result : AgentResult) :
    Prog.Ends (serve answers) (settleCascade parent id result).run (fun _ => Aside s₀) s := by
  unfold settleCascade
  split
  · split
    · rename_i prUrl _
      refine Prog.Ends.tryBind (ends_storePr h hr ho prUrl) (fun _ s h => ?_) fun _ _ h => h
      exact ((h.plain answers (c := .effort (.watchPr prUrl)) rfl).plain answers
        (c := .effort (.recordActivity "cascade_pr_created")) rfl).plain answers
        (c := .effort (.notify parent.key)) rfl
    · exact ends_failCascade h hr ho parent _
  · exact ends_failCascade h hr ho parent _

theorem ends_cascadeToRepo (h : Aside s₀ s) (parent : FixAttempt) (name : String) :
    Prog.Ends (serve answers) (cascadeToRepo parent name).run (fun _ => Aside s₀) s := by
  refine Prog.ends_lift ?_
  have h := h.plain answers (c := .resolveRepoForCascade name) rfl
  split
  · exact h
  · rename_i scmUrl _
    obtain ⟨h, hopen⟩ := h.record answers parent.key parent.shortId parent.id scmUrl
    refine Prog.ends_tryCall (fun id hid => ?_) fun _ _ => h
    obtain ⟨q, hq, ho⟩ := hopen id hid
    refine Prog.ends_tryCall (fun _ _ => ?_) fun _ _ => h.plain answers rfl
    have h := h.plain answers (c := .createWorktree name ("cascade-" ++ parent.shortId)) rfl
    rw [serve_plain rfl] at h ⊢
    refine Prog.ends_tryCall (fun result _ => ?_) fun _ _ => h.plain answers rfl
    have h := h.plain answers (c := .execute id) rfl
    rw [serve_plain rfl] at h ⊢
    exact ends_settleCascade h hq ho parent result

theorem plain_walk (rounds depth : Nat) (visited : List Nat) (cur : Option Nat) :
    Plain (walk readAttempt rounds depth visited cur) := by
  induction rounds generalizing depth visited cur with
  | zero => cases cur <;> exact trivial
  | succ rounds ih =>
    cases cur with
    | none => exact trivial
    | some parentId =>
      by_cases hv : parentId ∈ visited ∨ MAX_CASCADE_DEPTH ≤ depth
      · simp only [walk, if_pos hv]
        exact trivial
      · simp only [walk, if_neg hv]
        refine Quiet.bind ⟨fun _ => rfl, fun b => ?_⟩ fun b => ?_
        · cases b <;> exact trivial
        · cases b with
          | none => exact trivial
          | some parent => exact ih _ _ _

theorem plain_depthAllows : Plain (w.depthAllows a) := by
  unfold Watcher.depthAllows
  split
  · refine Quiet.bind (Quiet.bind (plain_walk _ _ _ _) fun _ => trivial) fun _ => trivial
  · exact trivial

theorem ends_cascadeAll (h : Aside s₀ s) (a : FixAttempt) (names : List String) :
    Prog.Ends (serve answers) (Watcher.cascadeAll a names) (fun _ => Aside s₀) s :=
  Prog.ends_forM (fun name _ _ h => (ends_cascadeToRepo h a name).bind fun _ _ h => h) h

/-- The state with one more beginning. -/
def Check.begin (s : Check) (b : Begun) : Check := { s with begun := s.begun ++ [b] }

theorem ends_triggerCascade (h : Aside s₀ s) (a : FixAttempt) (trigger : CascadeTrigger) :
    Prog.Ends (serve answers) (w.triggerCascade a trigger)
      (fun _ s => Aside s₀ s ∨ Aside (s₀.begin (.cascade a.id)) s) s := by
  unfold Watcher.triggerCascade
  split
  · exact .inl h
  · split
    · split
      · refine (plain_depthAllows.ends h).bind fun allowed s h => ?_
        split
        · unfold Watcher.cascadeFrom
          dsimp only
          split
          · exact .inl h
          · refine Prog.ends_call ?_
            have h : Aside (s₀.begin (.cascade a.id)) (serve answers (.effort (.triggering a.id)) s).2 :=
              ⟨h.sane, h.kept, h.lookups, congrArg (· ++ [Begun.cascade a.id]) h.begun⟩
            refine (ends_cascadeAll h a _).bind fun _ s h => ?_
            exact (ends_cascadeAll h a _).mono fun _ _ h => .inr h
        · exact .inl h
      · exact .inl h
    · exact .inl h

/-! ## Telling others -/

/-- A program that tells others only, and cannot fail. -/
def Tells (p : ExceptT Error Run Unit) : Prop :=
  ∀ (answers : Answers) (s₀ s : Check), Aside s₀ s →
    Prog.Ends (serve answers) p.run (fun r s => r = .ok () ∧ Aside s₀ s) s

theorem tells_effort {e : Effort} (he : (Req.effort e).begins = none) : Tells (ask (.effort e)) :=
  fun answers _ _ h => ⟨rfl, h.plain answers (c := .effort e) (by simp only [Req.plain, he]; rfl)⟩

theorem Tells.whenever {c : Prop} [Decidable c] {p : ExceptT Error Run Unit} (h : Tells p) :
    Tells (whenever c p) := by
  unfold PullRequests.whenever
  split
  · exact h
  · exact fun _ _ _ h => ⟨rfl, h⟩

theorem Tells.forPr {f : String → ExceptT Error Run Unit} (h : ∀ prUrl, Tells (f prUrl)) :
    Tells (Watcher.forPr a f) := by
  unfold Watcher.forPr
  split
  · exact h _
  · exact fun _ _ _ h => ⟨rfl, h⟩

theorem Tells.bind {p q : ExceptT Error Run Unit} (hp : Tells p) (hq : Tells q) :
    Tells (p >>= fun _ => q) := fun answers s₀ s h =>
  Prog.Ends.tryBind (hp answers s₀ s h) (fun _ s h => hq answers s₀ s h.2) fun _ _ h => by cases h.1

end Claudear.Engine.PullRequests
