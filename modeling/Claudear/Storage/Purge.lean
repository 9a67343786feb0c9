import Claudear.Sql.Script
import Claudear.Storage.Error

/-!
# The purge of the operational tables

`purge_operational_data` detaches the feedback outcomes, turns the enforcement of
foreign keys off, empties twenty-two tables one by one and turns it on again. No
transaction is around it, and what was retrieved for an attempt stays. `purge_ends`
says what is left when a statement fails: the statements before it. So an error
leaves the tables as they were exactly if there was nothing in what those
statements emptied, and a success leaves nothing operational exactly if nothing
was retrieved (`all_or_nothing_iff`).
-/

namespace Claudear.Storage

open Claudear.Sql Claudear.Sql.Script

/-- The tables of attempts, PRs, executions, reviews, activity logs, regressions, clusters and metrics,
and every other table of the schema whose rows belong to an attempt, but for the feedback outcomes,
which are detached. -/
inductive Operational where
  | releaseTracking | regressionChecks | regressionWatches
  | prReviewComments | prReviews | prReviewStates
  | claudeExecutions | strategyFingerprints | diffAnalyses | qaUsage | retrievalUsage
  | evalSnapshots | evalDeltas
  | prs
  | issueClusterMembers | issueClusters | contentClusters | severityScores | suppressionLog
  | activityLog | processingMetrics | webhookDeliveries
  | fixAttempts
  deriving DecidableEq, Repr

/-- The deletions: `retrieval_usage` came with a later migration. -/
def purgeOrder : List Operational :=
  [.releaseTracking, .regressionChecks, .regressionWatches, .prReviewComments, .prReviews, .prReviewStates,
    .claudeExecutions, .strategyFingerprints, .diffAnalyses, .qaUsage, .evalSnapshots, .evalDeltas, .prs,
    .issueClusterMembers, .issueClusters, .contentClusters, .severityScores, .suppressionLog, .activityLog,
    .processingMetrics, .webhookDeliveries, .fixAttempts]

theorem mem_purgeOrder {t : Operational} : t ∈ purgeOrder ↔ t ≠ .retrievalUsage := by
  cases t <;> decide

structure FeedbackOutcome (φ : Type) where
  attemptId : Option Nat
  /-- The other columns. -/
  learned : φ

/-- No statement reads the columns `ρ` of a row, nor the tables `κ` that are not named here. -/
structure Tables (ρ φ κ : Type) where
  operational : Operational → List ρ
  feedbackOutcomes : List (FeedbackOutcome φ)
  kept : κ

structure Database (ρ φ κ : Type) where
  tables : Tables ρ φ κ
  /-- `PRAGMA foreign_keys` -/
  foreignKeys : Bool

structure PurgeResult where
  deleted : List (Operational × Nat)
  feedbackOutcomesDetached : Nat

namespace Tables

variable {ρ φ κ : Type}

/-- `UPDATE feedback_outcomes SET attempt_id = NULL WHERE attempt_id IS NOT NULL` -/
def detach (d : Tables ρ φ κ) : Tables ρ φ κ :=
  { d with feedbackOutcomes := d.feedbackOutcomes.map fun r => { r with attemptId := none } }

def attached (d : Tables ρ φ κ) : Nat := d.feedbackOutcomes.countP (·.attemptId.isSome)

/-- `DELETE FROM` each of the tables. -/
def clear (ts : List Operational) (d : Tables ρ φ κ) : Tables ρ φ κ :=
  { d with operational := fun t => if t ∈ ts then [] else d.operational t }

end Tables

section
variable {ρ φ κ : Type} (refers : Tables ρ φ κ → Operational → Bool)

/-- `refers d t` says that a row of another table refers to one of `t`. No reference to these
tables has an `ON DELETE` action, so the deletion fails where references are enforced. -/
def deleteFrom (t : Operational) : Script (Database ρ φ κ) Error (Operational × Nat) := do
  let d ← look
  if d.foreignKeys && refers d.tables t then fail (.database "FOREIGN KEY constraint failed")
  else
    statement (.database "DELETE") (fun d => (t, (d.tables.operational t).length))
      (fun d => { d with tables := d.tables.clear [t] }) fun _ d => d

def deletes : List Operational → Script (Database ρ φ κ) Error (List (Operational × Nat))
  | [] => pure []
  | t :: ts => do
    let n ← deleteFrom refers t
    let ns ← deletes ts
    pure (n :: ns)

def detachOutcomes : Script (Database ρ φ κ) Error Nat :=
  statement (.database "UPDATE") (fun d => d.tables.attached) (fun d => { d with tables := d.tables.detach })
    fun _ d => d

def setForeignKeys (on : Bool) : Script (Database ρ φ κ) Error Unit :=
  commit (.database "PRAGMA") fun d => { d with foreignKeys := on }

def purgeOperationalData : Script (Database ρ φ κ) Error PurgeResult := do
  let detached ← detachOutcomes
  setForeignKeys false
  let result ← attempt (deletes refers purgeOrder)
  setForeignKeys true
  let deleted ← ofExcept result
  pure ⟨deleted, detached⟩

end

/-! ## Where a run of statements ends -/

/-- The statement that fails, counted from the first. -/
def firstFailure (outcomes : List Outcome) : Option Nat := outcomes.findIdx? (· ≠ .done)

section
variable {ρ φ κ : Type} {refers : Tables ρ φ κ → Operational → Bool} {d : Tables ρ φ κ}
  {o : List Outcome} {ts us : List Operational} {t : Operational}

theorem Tables.clear_clear : (d.clear ts).clear us = d.clear (ts ++ us) := by
  rw [clear, clear, clear]
  congr 1
  funext t
  by_cases hu : t ∈ us <;> by_cases ht : t ∈ ts <;> simp [hu, ht]

theorem Tables.clear_eq_iff : d.clear ts = d ↔ ∀ t ∈ ts, d.operational t = [] := by
  constructor
  · intro h t ht
    have ho := congrFun (congrArg operational h) t
    rw [← ho, clear]
    exact if_pos ht
  · intro h
    rw [clear]
    have ho : (fun t => if t ∈ ts then [] else d.operational t) = d.operational := by
      funext t
      split
      · exact (h t ‹_›).symm
      · rfl
    rw [ho]

theorem Tables.detach_eq_iff : d.detach = d ↔ ∀ r ∈ d.feedbackOutcomes, r.attemptId = none := by
  constructor
  · intro h r hr
    have hf : d.feedbackOutcomes.map (fun r => { r with attemptId := none }) = d.feedbackOutcomes :=
      congrArg feedbackOutcomes h
    rw [← hf] at hr
    obtain ⟨q, -, rfl⟩ := List.mem_map.mp hr
    rfl
  · intro h
    have hf : d.feedbackOutcomes.map (fun r => { r with attemptId := none }) =
        d.feedbackOutcomes.map id := by
      refine List.map_congr_left fun r hr => ?_
      obtain ⟨a, l⟩ := r
      rw [show a = none from h _ hr]
      rfl
    rw [detach, hf, List.map_id]

/-- The rule for the first of several statements. -/
theorem firstFailure_of_done (h : ∀ b rest, o ≠ .failed b :: rest) :
    firstFailure o = (firstFailure o.tail).map (· + 1) := by
  cases o with
  | nil => rfl
  | cons a o =>
    cases a with
    | done => simp [firstFailure, List.findIdx?_cons]
    | failed b => exact absurd rfl (h b o)

theorem firstFailure_failed {b : Bool} {rest : List Outcome} : firstFailure (.failed b :: rest) = some 0 := by
  simp [firstFailure, List.findIdx?_cons]

theorem runs_setForeignKeys {on : Bool} {c : Connection (Database ρ φ κ)}
    {Q : Unit → Connection (Database ρ φ κ) → Prop} {E : Error → Connection (Database ρ φ κ) → Prop}
    (h : (∀ b rest, c.outcomes ≠ .failed b :: rest) → Q () ⟨⟨c.data.tables, on⟩, c.outcomes.tail⟩)
    (he : ∀ e b rest, c.outcomes = .failed b :: rest → E e ⟨c.data, rest⟩) :
    Runs (setForeignKeys on) Q E c :=
  runs_commit h (he _)

theorem runs_deleteFrom {c : Connection (Database ρ φ κ)} (hf : c.data.foreignKeys = false) :
    Runs (deleteFrom refers t)
      (fun _ c' => c'.data = ⟨c.data.tables.clear [t], c.data.foreignKeys⟩ ∧
        firstFailure c.outcomes = (firstFailure c'.outcomes).map (· + 1))
      (fun _ c' => c'.data = c.data ∧ firstFailure c.outcomes = some 0) c := by
  refine Runs.bind (runs_look ?_)
  rw [if_neg (by simp [hf])]
  refine runs_statement (fun h => ⟨rfl, firstFailure_of_done h⟩) fun b rest h => ⟨rfl, ?_⟩
  rw [h, firstFailure_failed]

/-- The tables are emptied up to the one whose deletion fails. -/
theorem runs_deletes {c : Connection (Database ρ φ κ)} (hf : c.data.foreignKeys = false) :
    Runs (deletes refers ts)
      (fun _ c' => c'.data = ⟨c.data.tables.clear ts, c.data.foreignKeys⟩ ∧
        firstFailure c.outcomes = (firstFailure c'.outcomes).map (· + ts.length))
      (fun _ c' => ∃ i < ts.length, firstFailure c.outcomes = some i ∧
        c'.data = ⟨c.data.tables.clear (ts.take i), c.data.foreignKeys⟩) c := by
  induction ts generalizing c with
  | nil => exact runs_pure ⟨by simp [Tables.clear], by simp⟩
  | cons t ts ih =>
    refine Runs.bind ((runs_deleteFrom hf).mono (fun n c₁ h₁ => ?_) fun e c₁ h₁ => ?_)
    · obtain ⟨hd, ho⟩ := h₁
      have hf₁ : c₁.data.foreignKeys = false := by rw [hd]; exact hf
      refine Runs.bind ((ih hf₁).mono (fun ns c₂ h₂ => runs_pure ⟨?_, ?_⟩) fun e c₂ h₂ => ?_)
      · rw [h₂.1, hd, Tables.clear_clear]
        rfl
      · rw [ho, h₂.2, Option.map_map]
        rfl
      · obtain ⟨i, hi, hfail, h₂⟩ := h₂
        refine ⟨i + 1, Nat.succ_lt_succ hi, ?_, ?_⟩
        · rw [ho, hfail]
          rfl
        · rw [h₂, hd, Tables.clear_clear, List.take_succ_cons]
          rfl
    · refine ⟨0, Nat.succ_pos _, h₁.2, ?_⟩
      rw [h₁.1]
      simp [Tables.clear]

/-! ## All or nothing -/

/-- What is left of the tables when the `i`-th statement fails: the statements before it are done,
of which the second is a `PRAGMA`. -/
def leftBy (d : Tables ρ φ κ) : Nat → Tables ρ φ κ
  | 0 => d
  | i + 1 => d.detach.clear (purgeOrder.take (i - 1))

def purged (d : Tables ρ φ κ) : Tables ρ φ κ := d.detach.clear purgeOrder

/-- The statements of the purge. -/
def statements : Nat := purgeOrder.length + 3

/-- A purge ends in an error exactly if one of its statements fails, and the statements before
this one have been done. -/
theorem purge_ends (c : Connection (Database ρ φ κ)) :
    Runs (purgeOperationalData refers)
      (fun _ c' => c'.data.tables = purged c.data.tables ∧
        ∀ i < statements, firstFailure c.outcomes ≠ some i)
      (fun _ c' => ∃ i < statements, firstFailure c.outcomes = some i ∧
        c'.data.tables = leftBy c.data.tables i) c := by
  have hn : statements = purgeOrder.length + 3 := rfl
  refine Runs.bind (runs_statement (fun h₁ => ?_) fun b rest h => ?_)
  · have ho₁ := firstFailure_of_done h₁
    refine Runs.bind (runs_setForeignKeys (fun h₂ => ?_) fun e b rest h => ?_)
    · have ho₂ := firstFailure_of_done h₂
      refine Runs.bind (runs_attempt ((runs_deletes rfl).mono (fun ns c₃ h₃ => ?_) fun e c₃ h₃ => ?_))
      · -- the tables are empty, and what may still fail is the second `PRAGMA`
        obtain ⟨hd, ho₃⟩ := h₃
        refine Runs.bind (runs_setForeignKeys (fun h₄ => ?_) fun e b rest h => ?_)
        · have ho₄ := firstFailure_of_done h₄
          refine Runs.bind (runs_pure (runs_pure ⟨congrArg Database.tables hd, fun i hi he => ?_⟩))
          rw [ho₁, ho₂, ho₃, ho₄] at he
          simp only [Option.map_map, Option.map_eq_some_iff, Function.comp] at he
          obtain ⟨j, -, rfl⟩ := he
          omega
        · refine ⟨purgeOrder.length + 2, by omega, ?_, ?_⟩
          · rw [ho₁, ho₂, ho₃, h, firstFailure_failed]
            rfl
          · rw [hd]
            rfl
      · obtain ⟨i, hi, hfail, hd⟩ := h₃
        have hleft : c₃.data.tables = leftBy c.data.tables (i + 2) := by
          rw [hd]
          rfl
        have hsome : firstFailure c.outcomes = some (i + 2) := by
          rw [ho₁, ho₂, hfail]
          rfl
        exact Runs.bind (runs_setForeignKeys (fun _ => Runs.bind ⟨i + 2, by omega, hsome, hleft⟩)
          fun _ _ _ _ => ⟨i + 2, by omega, hsome, hleft⟩)
    · have h : c.outcomes.tail = .failed b :: rest := h
      refine ⟨1, by omega, ?_, ?_⟩
      · rw [ho₁, h, firstFailure_failed]
        rfl
      · simp [leftBy, Tables.clear]
  · refine ⟨0, by omega, ?_, rfl⟩
    rw [h, firstFailure_failed]

/-- What the purge is for: nothing operational is left, outcomes keep what was learned, and
nothing else changes. -/
structure Purged (d d' : Tables ρ φ κ) : Prop where
  emptied : ∀ t, d'.operational t = []
  detached : d'.feedbackOutcomes = d.feedbackOutcomes.map fun r => { r with attemptId := none }
  kept : d'.kept = d.kept

/-- The deletions leave what was retrieved. -/
theorem purged_iff : Purged d (purged d) ↔ d.operational .retrievalUsage = [] := by
  have hn : Operational.retrievalUsage ∉ purgeOrder := by decide
  have hleft : (purged d).operational .retrievalUsage = d.operational .retrievalUsage := by
    simp only [purged, Tables.clear, if_neg hn]
    rfl
  constructor
  · intro h
    exact hleft.symm.trans (h.emptied .retrievalUsage)
  · intro h
    refine ⟨fun t => ?_, rfl, rfl⟩
    by_cases ht : t = .retrievalUsage
    · subst ht
      exact hleft.trans h
    · exact if_pos (mem_purgeOrder.mpr ht)

/-- The statements before the `i`-th had nothing to change. -/
def Untouched (d : Tables ρ φ κ) (i : Nat) : Prop :=
  (0 < i → ∀ r ∈ d.feedbackOutcomes, r.attemptId = none) ∧
    ∀ t ∈ purgeOrder.take (i - 2), d.operational t = []

theorem leftBy_eq_iff {i : Nat} : leftBy d i = d ↔ Untouched d i := by
  cases i with
  | zero =>
    refine iff_of_true rfl ⟨fun h => absurd h (Nat.lt_irrefl 0), fun t ht => ?_⟩
    cases ht
  | succ i =>
    have hi : i + 1 - 2 = i - 1 := by omega
    rw [Untouched, hi, ← Tables.detach_eq_iff]
    constructor
    · intro h
      have hd : d.detach = d := by
        have hf := congrArg Tables.feedbackOutcomes h
        have ho : d.detach.operational = d.operational := rfl
        rw [leftBy, Tables.clear] at hf
        rw [Tables.detach, show d.feedbackOutcomes.map _ = d.feedbackOutcomes from hf]
      refine ⟨fun _ => hd, Tables.clear_eq_iff.mp ?_⟩
      rw [leftBy, hd] at h
      exact h
    · rintro ⟨hd, ht⟩
      rw [leftBy, hd (Nat.succ_pos i)]
      exact Tables.clear_eq_iff.mpr ht

/-- An error leaves every table as it was, and without one the tables are purged. -/
def AllOrNothing (refers : Tables ρ φ κ → Operational → Bool) (c : Connection (Database ρ φ κ)) : Prop :=
  Runs (purgeOperationalData refers) (fun _ c' => Purged c.data.tables c'.data.tables)
    (fun _ c' => c'.data.tables = c.data.tables) c

variable {c : Connection (Database ρ φ κ)}

theorem allOrNothing_of_failure {i : Nat} (hi : i < statements) (he : firstFailure c.outcomes = some i) :
    AllOrNothing refers c ↔ Untouched c.data.tables i := by
  refine (purge_ends c).iff (fun _ c' h => absurd he (h.2 i hi)) fun _ c' h => ?_
  obtain ⟨j, -, hj, ht⟩ := h
  obtain rfl : i = j := Option.some.inj (he.symm.trans hj)
  rw [ht, leftBy_eq_iff]

theorem allOrNothing_of_success (h : ∀ i < statements, firstFailure c.outcomes ≠ some i) :
    AllOrNothing refers c ↔ c.data.tables.operational .retrievalUsage = [] := by
  refine (purge_ends c).iff (fun _ c' hc => ?_) fun _ c' hc => ?_
  · rw [hc.1, purged_iff]
  · obtain ⟨i, hi, he, -⟩ := hc
    exact absurd he (h i hi)

theorem all_or_nothing_iff (refers : Tables ρ φ κ → Operational → Bool) (c : Connection (Database ρ φ κ)) :
    AllOrNothing refers c ↔
      (∀ i < statements, firstFailure c.outcomes = some i → Untouched c.data.tables i) ∧
        ((∀ i < statements, firstFailure c.outcomes ≠ some i) →
          c.data.tables.operational .retrievalUsage = []) := by
  by_cases hf : ∃ i < statements, firstFailure c.outcomes = some i
  · obtain ⟨i, hi, he⟩ := hf
    rw [allOrNothing_of_failure hi he]
    constructor
    · intro hu
      refine ⟨fun j _ hj => ?_, fun hno => absurd he (hno i hi)⟩
      obtain rfl : i = j := Option.some.inj (he.symm.trans hj)
      exact hu
    · exact fun h => h.1 i hi he
  · have hno : ∀ i < statements, firstFailure c.outcomes ≠ some i := fun i hi he => hf ⟨i, hi, he⟩
    rw [allOrNothing_of_success hno]
    exact ⟨fun hr => ⟨fun i hi he => absurd he (hno i hi), fun _ => hr⟩, fun h => h.2 hno⟩

end

/-- One row, in the table `t`. -/
def rowIn (t : Operational) : Database Unit Unit Unit :=
  ⟨⟨fun u => if u = t then [()] else [], [], ()⟩, true⟩

/-- The deletion of `regression_checks` fails, and `release_tracking` is empty by then; and where
nothing fails, what was retrieved is left. -/
theorem failed_purge_deletes :
    ¬ AllOrNothing (fun _ _ => false) ⟨rowIn .releaseTracking, [.done, .done, .done, .failed false]⟩ ∧
      ¬ AllOrNothing (fun _ _ => false) ⟨rowIn .retrievalUsage, []⟩ := by
  constructor
  · rw [allOrNothing_of_failure (i := 3) (by decide) rfl]
    intro hu
    exact absurd (hu.2 .releaseTracking (by decide)) (by decide)
  · rw [allOrNothing_of_success (by decide)]
    decide

end Claudear.Storage
