import Claudear.Data.RunningMean
import Claudear.Machine.Run
import Claudear.Sql.Table
import Mathlib.Tactic.NormNum

/-!
# Prompt experiments

A row of `prompt_experiments` is one variant: how often it succeeded and failed,
and the average time to merge. `update_experiment_stats` moves one counter and
then, in a second statement, takes the time into the average with the new
`success_count` as the number of times. That counts a success without a time and
leaves out a failure with one. Times are exact rationals here.
-/

namespace Claudear.Storage

open Claudear.Sql Claudear.Machine Claudear.Data

structure PromptExperiment where
  experimentName : String
  variant : String
  promptTemplate : String
  promptHash : String
  active : Bool
  successCount : ℤ
  failureCount : ℤ
  avgTimeToMerge : Option ℚ
  avgReviewScore : Option ℚ
  deriving DecidableEq

def PromptExperiment.new (experimentName variant promptTemplate promptHash : String) :
    PromptExperiment :=
  ⟨experimentName, variant, promptTemplate, promptHash, true, 0, 0, none, none⟩

namespace Experiments

abbrev Rows := Table PromptExperiment

def saveExperiment (t : Rows) (experiment : PromptExperiment) : Nat × Rows :=
  (t.next, t.insert experiment)

def updateExperiment (t : Rows) (experimentId : Nat)
    (experimentName variant promptTemplate promptHash : String) (active : Bool) : Bool × Rows :=
  (0 < t.count fun r => r.1 = experimentId,
    t.update (fun r => r.1 = experimentId) fun e =>
      { e with experimentName, variant, promptTemplate, promptHash, active })

def countResult (success : Bool) (e : PromptExperiment) : PromptExperiment :=
  if success then { e with successCount := e.successCount + 1 }
  else { e with failureCount := e.failureCount + 1 }

/-- A division by zero is `NULL`. -/
def averageIn (time : ℚ) (e : PromptExperiment) : PromptExperiment :=
  { e with avgTimeToMerge := match e.avgTimeToMerge with
      | none => some time
      | some avg => rolled avg e.successCount time }

def updateExperimentStats (t : Rows) (experimentId : Nat) (success : Bool)
    (timeToMerge : Option ℚ) : Rows :=
  let counted := t.update (fun r => r.1 = experimentId) (countResult success)
  match timeToMerge with
  | none => counted
  | some time => counted.update (fun r => r.1 = experimentId) (averageIn time)

/-! ## Calls -/

inductive Call where
  | saveExperiment (experiment : PromptExperiment)
  | updateExperiment (experimentId : Nat)
      (experimentName variant promptTemplate promptHash : String) (active : Bool)
  | updateExperimentStats (experimentId : Nat) (success : Bool) (timeToMerge : Option ℚ)

def step (t : Rows) : Call → Rows
  | .saveExperiment e => (saveExperiment t e).2
  | .updateExperiment i n v p h a => (updateExperiment t i n v p h a).2
  | .updateExperimentStats i success time => updateExperimentStats t i success time

/-- The result and the time a call reports of the variant `i`. -/
def result (i : Nat) : Call → Option (Bool × Option ℚ)
  | .updateExperimentStats j success time => if j = i then some (success, time) else none
  | _ => none

def results (i : Nat) (calls : List Call) : List (Bool × Option ℚ) := calls.filterMap (result i)

def successes (i : Nat) (calls : List Call) : Nat := (results i calls).countP (·.1)

def times (i : Nat) (calls : List Call) : List ℚ := (results i calls).filterMap (·.2)

/-- What a report does to the row. -/
def report (r : Bool × Option ℚ) (e : PromptExperiment) : PromptExperiment :=
  match r.2 with
  | none => countResult r.1 e
  | some time => averageIn time (countResult r.1 e)

variable {t : Rows} {i : Nat} {e : PromptExperiment} {c : Call} {pre calls : List Call}
  {success : Bool} {time : Option ℚ} {x avg : ℚ}

@[simp] theorem countResult_avg : (countResult success e).avgTimeToMerge = e.avgTimeToMerge := by
  unfold countResult; split <;> rfl

theorem successCount_report :
    (report (success, time) e).successCount = e.successCount + if success then 1 else 0 := by
  cases time <;> cases success <;> simp [report, averageIn, countResult]

theorem failureCount_report :
    (report (success, time) e).failureCount = e.failureCount + if success then 0 else 1 := by
  cases time <;> cases success <;> simp [report, averageIn, countResult]

theorem avg_report_none : (report (success, none) e).avgTimeToMerge = e.avgTimeToMerge :=
  countResult_avg

theorem avg_report_first (h : e.avgTimeToMerge = none) :
    (report (success, some x) e).avgTimeToMerge = some x := by
  simp only [report, averageIn, countResult_avg, h]

theorem avg_report_next (h : e.avgTimeToMerge = some avg) :
    (report (success, some x) e).avgTimeToMerge =
      rolled avg ((e.successCount + if success then 1 else 0 : ℤ) : ℚ) x := by
  have hs : (report (success, none) e).successCount = e.successCount + if success then 1 else 0 :=
    successCount_report
  rw [← hs]
  simp only [report, averageIn, countResult_avg, h]

theorem get_updateExperimentStats (h : t.get i = some e) :
    (updateExperimentStats t i success time).get i = some (report (success, time) e) := by
  have hc : (t.update (fun r => r.1 = i) (countResult success)).get i = some (countResult success e) :=
    Table.get_update_of h (decide_eq_true rfl)
  cases time with
  | none => exact hc
  | some x => exact Table.get_update_of hc (decide_eq_true rfl)

theorem get_updateExperimentStats_ne {j : Nat} (h : i ≠ j) :
    (updateExperimentStats t j success time).get i = t.get i := by
  have hne : ∀ c : PromptExperiment, decide ((i, c).1 = j) = false := fun _ => decide_eq_false h
  cases time with
  | none => exact Table.get_update_of_ne hne
  | some x => exact (Table.get_update_of_ne hne).trans (Table.get_update_of_ne hne)

/-! ## What a call does to a variant -/

/-- The columns of the statistics. -/
def stats (e : PromptExperiment) : ℤ × ℤ × Option ℚ :=
  (e.successCount, e.failureCount, e.avgTimeToMerge)

/-- A call that reports nothing of the variant leaves its statistics. -/
theorem step_other (h : t.get i = some e) (hc : result i c = none) :
    ∃ e', (step t c).get i = some e' ∧ stats e' = stats e := by
  cases c with
  | saveExperiment d => exact ⟨e, Table.get_insert_of h, rfl⟩
  | updateExperiment j n v p hash a =>
    by_cases hj : i = j
    · subst hj
      exact ⟨_, Table.get_update_of h (decide_eq_true rfl), rfl⟩
    · exact ⟨e, Table.get_update_of_not h (decide_eq_false hj), rfl⟩
  | updateExperimentStats j success time =>
    have hj : i ≠ j := by
      rintro rfl
      simp [result] at hc
    exact ⟨e, (get_updateExperimentStats_ne hj).trans h, rfl⟩

theorem step_report (h : t.get i = some e) (hc : result i c = some (success, time)) :
    (step t c).get i = some (report (success, time) e) := by
  cases c with
  | updateExperimentStats j s x =>
    simp only [result] at hc
    split at hc
    · rename_i hj
      subst hj
      cases hc
      exact get_updateExperimentStats h
    · cases hc
  | saveExperiment _ => cases hc
  | updateExperiment _ _ _ _ _ _ => cases hc

/-! ## The statistics of a run -/

/-- The counters say how many results there were. -/
structure Counted (t : Rows) (i : Nat) (calls : List Call) (e : PromptExperiment) : Prop where
  row : t.get i = some e
  succeeded : e.successCount = successes i calls
  total : e.successCount + e.failureCount = (results i calls).length

/-- And the average is the mean of the times, null only when there were none. -/
structure Accurate (t : Rows) (i : Nat) (calls : List Call) (e : PromptExperiment) : Prop
    extends Counted t i calls e where
  average : e.avgTimeToMerge = mean (times i calls)

/-- A time that is not the first one comes when the successes are as many as the times, the new
ones included, or is the mean of the earlier ones; and there has been a success. -/
def Weighed (i : Nat) (pre : List Call) (c : Call) : Prop :=
  ∀ success x avg, result i c = some (success, some x) → mean (times i pre) = some avg →
    successes i (pre ++ [c]) ≠ 0 ∧
      (successes i (pre ++ [c]) = (times i pre).length + 1 ∨ x = avg)

theorem results_concat : results i (pre ++ [c]) = results i pre ++ (result i c).toList := by
  rw [results, List.filterMap_append]
  cases h : result i c <;> simp [results, h]

theorem successes_concat :
    successes i (pre ++ [c]) = successes i pre + (result i c).toList.countP (·.1) := by
  rw [successes, results_concat, List.countP_append, successes]

theorem times_concat :
    times i (pre ++ [c]) = times i pre ++ (result i c).toList.filterMap (·.2) := by
  rw [times, results_concat, List.filterMap_append, times]

theorem Counted.other (h : Counted t i pre e) (hc : result i c = none) :
    ∃ e', Counted (step t c) i (pre ++ [c]) e' ∧ e'.avgTimeToMerge = e.avgTimeToMerge := by
  obtain ⟨e', hr, hs⟩ := step_other h.row hc
  simp only [stats, Prod.mk.injEq] at hs
  obtain ⟨h1, h2, h3⟩ := hs
  refine ⟨e', ⟨hr, ?_, ?_⟩, h3⟩
  · rw [h1, h.succeeded, successes_concat, hc]
    rfl
  · rw [h1, h2, h.total, results_concat, hc]
    simp

theorem Counted.report (h : Counted t i pre e) (hc : result i c = some (success, time)) :
    Counted (step t c) i (pre ++ [c]) (report (success, time) e) := by
  refine ⟨step_report h.row hc, ?_, ?_⟩
  · rw [successCount_report, h.succeeded, successes_concat, hc]
    cases success <;> simp
  · have ht := h.total
    rw [successCount_report, failureCount_report, results_concat, hc]
    cases success <;> simp <;> omega

theorem Accurate.other (h : Accurate t i pre e) (hc : result i c = none) :
    ∃ e', Accurate (step t c) i (pre ++ [c]) e' := by
  obtain ⟨e', he, ha⟩ := h.toCounted.other hc
  refine ⟨e', he, ?_⟩
  rw [ha, h.average, times_concat, hc]
  simp

/-- After a report only the average is in question. -/
theorem Accurate.report_iff (h : Accurate t i pre e) (hc : result i c = some (success, time)) :
    (∃ e', Accurate (step t c) i (pre ++ [c]) e') ↔
      (Experiments.report (success, time) e).avgTimeToMerge = mean (times i (pre ++ [c])) := by
  have hrep := h.toCounted.report hc
  constructor
  · rintro ⟨e', he⟩
    rw [← Option.some.inj (he.row.symm.trans hrep.row), he.average]
  · exact fun ha => ⟨_, hrep, ha⟩

/-- The average after a report is the mean exactly if the report is weighed right. -/
theorem Accurate.average_iff (h : Accurate t i pre e) (hc : result i c = some (success, time)) :
    (Experiments.report (success, time) e).avgTimeToMerge = mean (times i (pre ++ [c])) ↔
      Weighed i pre c := by
  have ht : times i (pre ++ [c]) = times i pre ++ time.toList := by
    rw [times_concat, hc]
    cases time <;> rfl
  have hs : e.successCount + (if success then 1 else 0) = (successes i (pre ++ [c]) : ℤ) := by
    rw [h.succeeded, successes_concat, hc]
    cases success <;> simp
  cases time with
  | none =>
    have hw : Weighed i pre c := by
      intro s x avg hx
      rw [hc] at hx
      cases hx
    rw [ht, avg_report_none, h.average]
    simpa using hw
  | some x =>
    rw [ht]
    cases ha : mean (times i pre) with
    | none =>
      have hw : Weighed i pre c := by
        intro s y avg _ hm
        rw [ha] at hm
        cases hm
      rw [avg_report_first (h.average.trans ha), mean_eq_none.mp ha]
      exact iff_of_true (by simp [mean]) hw
    | some avg =>
      rw [avg_report_next (h.average.trans ha), hs, Int.cast_natCast]
      refine (rolled_eq_mean_iff ha).trans ?_
      rw [Nat.cast_ne_zero]
      norm_cast
      constructor
      · intro hw s y m hy hm
        rw [hc] at hy
        rw [ha] at hm
        cases hy
        cases hm
        exact hw
      · intro hw
        exact hw success x avg hc ha

/-- One more call keeps a variant's statistics accurate exactly if it is weighed right. -/
theorem accurate_step_iff (h : ∃ e, Accurate t i pre e) :
    (∃ e, Accurate (step t c) i (pre ++ [c]) e) ↔ Weighed i pre c := by
  obtain ⟨e, h⟩ := h
  cases hc : result i c with
  | none =>
    refine iff_of_true (h.other hc) ?_
    intro s x avg hx
    rw [hc] at hx
    cases hx
  | some r =>
    obtain ⟨success, time⟩ := r
    rw [h.report_iff hc, h.average_iff hc]

/-- From its saving on, and whatever is called for the other variants, the statistics of a new
variant are accurate after every call exactly if every call is weighed right. -/
theorem statistics_accurate_iff (t : Rows) (name variant template hash : String)
    (calls : List Call) :
    let saved := saveExperiment t (.new name variant template hash)
    (∀ pre, pre <+: calls → ∃ e, Accurate (run step saved.2 pre) saved.1 pre e) ↔
      ∀ pre c, pre ++ [c] <+: calls → Weighed saved.1 pre c := by
  intro saved
  apply forall_prefix_iff
  · intro pre c h
    rw [run_concat]
    exact accurate_step_iff h
  · have hrow := (Table.get_insert t (.new name variant template hash) t.next).trans (if_pos rfl)
    exact ⟨_, ⟨hrow, rfl, rfl⟩, rfl⟩

/-- A success without a time counts as a time; failures with times leave no average at all. -/
theorem average_wrong :
    let calls : List Call := [.updateExperimentStats 1 true (some 60), .updateExperimentStats 1 true none,
      .updateExperimentStats 1 true (some 120)]
    let failed : List Call := [.updateExperimentStats 1 false (some 60),
      .updateExperimentStats 1 false (some 120)]
    let saved := saveExperiment .empty (.new "prompt" "control" "template" "hash")
    saved.1 = 1 ∧
      ((run step saved.2 calls).get 1).map PromptExperiment.avgTimeToMerge = some (some 80) ∧
      mean (times 1 calls) = some 90 ∧
      ((run step saved.2 failed).get 1).map PromptExperiment.avgTimeToMerge = some none ∧
      mean (times 1 failed) = some 90 := by
  decide +kernel

end Experiments

end Claudear.Storage
