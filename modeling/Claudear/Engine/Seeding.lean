import Claudear.Engine.RetryCharges

/-!
# Seeding

`seed` goes through the issues of every source and leaves a failed attempt for
each that has none, so that no poll takes it up. A call of the store may fail,
and ends the seeding then; a source that cannot be fetched is passed over.

`Course.marked` keeps the issues that were marked as seen.
-/

namespace Claudear.Engine.Seeding

open Claudear.Sql Claudear.Storage Claudear.Machine
open Claudear.Engine.Processing (Issue IssueProcessor DEPLOY_QA_SOURCE)

def SEEDED : String := "SEEDED: Marked as seen during initial seed"

structure SeedResult where
  total : Nat := 0
  bySource : List (String × Nat) := []
  deriving DecidableEq, Repr

def SeedResult.add (results : SeedResult) (source : String) (seeded : Nat) : SeedResult where
  total := results.total + seeded
  bySource := results.bySource.filter (fun e => e.1 ≠ source) ++ [(source, seeded)]

inductive Req : Type → Type 1 where
  | fetchIssues (source : String) : Req (Except String (List Issue))
  /-- A program of the issue processor. -/
  | processing {β : Type} (p : Processing.Run β) : Req β
  | hasAttempted (k : IssueKey) : Req (Except Error Bool)
  | recordAttemptWithLabels (k : IssueKey) (shortId : String) (labels : List String) : Req (Except Error Unit)
  | markFailed (k : IssueKey) (error : String) : Req (Except Error Unit)

abbrev Run := ExceptT Error (Prog Req)

def try_ {β : Type} (c : Req (Except Error β)) : Run β := ExceptT.mk (.perform c)

def ask {β : Type} (c : Req β) : Run β := ExceptT.lift (.perform c)

/-- Whether the issue was marked. -/
def seedIssue (P : IssueProcessor) (source : String) (issue : Issue) : Run Bool := do
  if ← ask (.processing (P.belongsToSecurityInbox issue)) then return false
  else
    let k : IssueKey := ⟨source, issue.id⟩
    if ← try_ (.hasAttempted k) then return false
    else
      try_ (.recordAttemptWithLabels k issue.shortId issue.labels)
      try_ (.markFailed k SEEDED)
      return true

def seedIssues (P : IssueProcessor) (source : String) : List Issue → Nat → Run Nat
  | [], seeded => return seeded
  | issue :: issues, seeded => do
    let marked ← seedIssue P source issue
    seedIssues P source issues (if marked then seeded + 1 else seeded)

def seedSource (P : IssueProcessor) (source : String) (results : SeedResult) : Run SeedResult := do
  if source = DEPLOY_QA_SOURCE then return results
  else match ← ask (.fetchIssues source) with
    | .error _ => return results
    | .ok issues => return results.add source (← seedIssues P source issues 0)

def seed (P : IssueProcessor) : List String → SeedResult → Run SeedResult
  | [], results => return results
  | source :: sources, results => do seed P sources (← seedSource P source results)

/-! ## Courses -/

/-- What the sources have at the `n`-th call, how the processor's surroundings answer it, and whether
the store fails it. -/
structure World where
  now : Nat → Timestamp
  issues : Nat → Except String (List Issue)
  processing : Nat → Processing.World
  fails : Nat → Option Error

structure Course where
  table : FixAttempts
  calls : Nat := 0
  marked : List IssueKey := []

def Course.tick (s : Course) : Course := { s with calls := s.calls + 1 }

def Course.write (s : Course) (W : World) (op : TrackerOp) : Course :=
  { s.tick with table := s.table.exec ⟨W.now s.calls, op⟩ }

def Course.mark (s : Course) (k : IssueKey) : Course := { s with marked := s.marked ++ [k] }

def serve (W : World) {β : Type} : Req β → Course → β × Course
  | .fetchIssues _, s => (W.issues s.calls, s.tick)
  | .processing p, s => ((Prog.eval (Processing.serve (W.processing s.calls)) p { table := s.table }).1, s.tick)
  | .hasAttempted k, s =>
    match W.fails s.calls with
    | some e => (.error e, s.tick)
    | none => (.ok (s.table.hasAttempted k), s.tick)
  | .recordAttemptWithLabels k shortId labels, s =>
    match W.fails s.calls with
    | some e => (.error e, s.tick)
    | none => (.ok (), s.write W (.recordAttemptWithLabels k shortId labels))
  | .markFailed k error, s =>
    match W.fails s.calls with
    | some e => (.error e, s.tick)
    | none => (.ok (), (s.write W (.markFailed k error)).mark k)

/-- `seed`, with nobody else at the store. -/
def seedFrom (P : IssueProcessor) (W : World) (sources : List String) (t : FixAttempts) :
    Except Error SeedResult × Course :=
  Prog.eval (serve W) (seed P sources {}).run { table := t }

/-! ## Attempts that are seen -/

/-- No poll takes the issue up. -/
def Seen (t : FixAttempts) (k : IssueKey) : Prop := t.hasAttempted k = true

variable {t : FixAttempts} {k : IssueKey}

theorem seen_iff : Seen t k ↔ ∃ i r, t.get i = some r ∧ r.key = k ∧ r.resetAt = none := by
  simp only [Seen, FixAttempts.hasAttempted, ofIssue, Table.any_eq_true, Bool.and_eq_true,
    decide_eq_true_eq, Option.isNone_iff_eq_none]

theorem Seen.getAttempt (h : Seen t k) : (t.getAttempt k).isSome = true := by
  obtain ⟨i, r, hi, hk, -⟩ := seen_iff.mp h
  have hof : ofIssue k (i, r) = true := by simpa [ofIssue] using hk
  obtain ⟨row, hj⟩ := Table.exists_first hi hof
  rw [FixAttempts.getAttempt, hj]
  rfl

/-- Only a reset of its issue takes the mark off a row. -/
theorem rewrite_resetAt {c : Call} {r : Nat × AttemptRow} (h : r.2.resetAt = none)
    (hc : c.op ≠ .resetAttempt r.2.key) : (c.rewrite t r).resetAt = none := by
  obtain ⟨now, op⟩ := c
  cases op with
  | resetAttempt k' =>
    simp only [Call.rewrite]
    split
    · rename_i hk
      rw [ofIssue, decide_eq_true_eq] at hk
      exact absurd (congrArg TrackerOp.resetAttempt hk.symm) hc
    · exact h
  | recordCascadeAttempt => exact h
  | _ =>
    simp only [Call.rewrite]
    split_ifs <;> first | exact h | rfl

theorem Seen.exec (h : Seen t k) {c : Call} (hc : c.op ≠ .resetAttempt k) : Seen (t.exec c) k := by
  obtain ⟨i, r, hi, rfl, hr⟩ := seen_iff.mp h
  exact seen_iff.mpr ⟨i, _, FixAttempts.get_exec_of hi c, Call.rewrite_key t c (i, r), rewrite_resetAt hr hc⟩

/-- An attempt that is recorded is seen, whatever was there before. -/
theorem seen_record (now : Timestamp) (shortId : String) (labels : List String) :
    Seen (t.exec ⟨now, .recordAttemptWithLabels k shortId labels⟩) k := by
  rw [seen_iff]
  cases hf : t.first (ofOriginal k) with
  | none =>
    have hinserted : Call.inserted t ⟨now, .recordAttemptWithLabels k shortId labels⟩ =
        some (.original k shortId now (FixAttempts.labelsJson labels)) := by
      simp only [Call.inserted, hf, Option.isNone_none, if_true]
    exact ⟨t.next, _, FixAttempts.get_exec_inserted hinserted, rfl, rfl⟩
  | some x =>
    obtain ⟨i, r⟩ := x
    obtain ⟨hi, hp⟩ := Table.first_get hf
    have hk : r.key = k := by
      simp only [ofOriginal, ofIssue, Bool.and_eq_true, decide_eq_true_eq] at hp
      exact hp.1
    refine ⟨i, _, FixAttempts.get_exec_of hi _, (Call.rewrite_key ..).trans hk, ?_⟩
    simp only [Call.rewrite, hp, FixAttempts.originalReset, hf, Bool.true_and]
    split
    · rfl
    · rename_i hr
      simpa using hr

/-! ## What is marked is seen -/

section Marking

variable {P : IssueProcessor} {W : World} {source : String} {s : Course}

def Marked (s : Course) : Prop := ∀ k ∈ s.marked, Seen s.table k

theorem Marked.write (h : Marked s) {op : TrackerOp} (hop : ∀ k, op ≠ .resetAttempt k) :
    Marked (s.write W op) := fun k hk => (h k hk).exec (hop k)

theorem Marked.mark (h : Marked s) (hk : Seen s.table k) : Marked (s.mark k) := by
  intro k' hk'
  rcases List.mem_append.mp hk' with hk' | hk'
  · exact h k' hk'
  · rw [List.mem_singleton.mp hk']
    exact hk

/-- A call of the store fails and does nothing, or answers. -/
theorem ends_store {α β : Type} {c : Req (Except Error β)} {f : β → Run α} {b : β} {s' : Course}
    {Q : Except Error α → Course → Prop}
    (hc : serve W c s = match W.fails s.calls with
      | some e => (.error e, s.tick)
      | none => (.ok b, s'))
    (hfail : ∀ e, Q (.error e) s.tick) (hok : Prog.Ends (serve W) (f b).run Q s') :
    Prog.Ends (serve W) (try_ c >>= f).run Q s := by
  cases hw : W.fails s.calls with
  | some e =>
    rw [hw] at hc
    refine Prog.ends_tryCall (fun a ha => ?_) fun e' he => ?_
    · rw [hc] at ha
      cases ha
    · rw [hc]
      exact hfail e'
  | none =>
    rw [hw] at hc
    refine Prog.ends_tryCall (fun a ha => ?_) fun e' he => ?_
    · rw [hc] at ha ⊢
      cases ha
      exact hok
    · rw [hc] at he
      cases he

abbrev Keeps {α : Type} (_ : α) (s : Course) : Prop := Marked s

theorem ends_seedIssue (issue : Issue) (h : Marked s) :
    Prog.Ends (serve W) (seedIssue P source issue).run Keeps s := by
  unfold seedIssue
  refine Prog.ends_lift ?_
  split
  · exact h
  · refine ends_store rfl (fun e => h) ?_
    split
    · exact h
    · refine ends_store rfl (fun e => h) ?_
      have hrecorded : Marked (s.tick.tick.write W
          (.recordAttemptWithLabels ⟨source, issue.id⟩ issue.shortId issue.labels)) :=
        Marked.write (s := s.tick.tick) h fun k hop => by cases hop
      have hseen : Seen (s.tick.tick.write W
          (.recordAttemptWithLabels ⟨source, issue.id⟩ issue.shortId issue.labels)).table
          ⟨source, issue.id⟩ := seen_record _ _ _
      refine ends_store rfl (fun e => hrecorded) ?_
      refine Marked.mark (hrecorded.write fun k hop => by cases hop) (hseen.exec fun hop => ?_)
      cases hop

theorem ends_seedIssues (issues : List Issue) (seeded : Nat) (h : Marked s) :
    Prog.Ends (serve W) (seedIssues P source issues seeded).run Keeps s := by
  induction issues generalizing seeded s with
  | nil => exact h
  | cons issue issues ih =>
    exact (ends_seedIssue issue h).tryBind (fun marked s hs => ih _ hs) fun e s hs => hs

theorem ends_seedSource (results : SeedResult) (h : Marked s) :
    Prog.Ends (serve W) (seedSource P source results).run Keeps s := by
  unfold seedSource
  split
  · exact h
  · refine Prog.ends_lift ?_
    split
    · exact h
    · refine Prog.Ends.tryBind (Q := Keeps) (ends_seedIssues _ 0 h) (fun seeded s hs => ?_) fun e s hs => hs
      exact hs

theorem ends_seed (sources : List String) (results : SeedResult) (h : Marked s) :
    Prog.Ends (serve W) (seed P sources results).run Keeps s := by
  induction sources generalizing results s with
  | nil => exact h
  | cons source sources ih =>
    exact (ends_seedSource results h).tryBind (fun results s hs => ih results hs) fun e s hs => hs

/-- An issue that was marked is seen when the seeding ends, whether it came through or failed. -/
theorem marked_seen (P : IssueProcessor) (W : World) (sources : List String) (t : FixAttempts) :
    Marked (seedFrom P W sources t).2 :=
  ends_seed (s := { table := t }) sources {} fun _ hk => nomatch hk

end Marking

end Claudear.Engine.Seeding
