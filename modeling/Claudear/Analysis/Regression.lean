import Claudear.Machine.Run
import Claudear.Sql.Table
import Mathlib.Algebra.Group.Nat.Defs

/-!
# Monitoring a released fix

`RegressionScheduler` checks every monitored watch once a cycle. The number of a
check is the count of the stored checks plus one, as a `u32`; how many are planned
is the duration divided by the interval. A cycle is the time each watch is looked
at and what the checker says of it, which may be an error: the cycle then stops.
-/

namespace Claudear.Analysis.Regression

open Claudear.Sql Claudear.Machine

/-- Nanoseconds. -/
abbrev Time := Int

def second : Int := 1000000000

inductive IssueType where
  | sentryIssue
  | linearBug
  | gitLabIssue
  | jiraIssue
  deriving DecidableEq

inductive RegressionWatchStatus where
  | awaitingRelease
  | monitoring
  | resolved
  | regressed
  deriving DecidableEq

structure RegressionWatch where
  issueType : IssueType
  issueId : String
  status : RegressionWatchStatus
  monitoringStartedAt : Option Time
  resolvedAt : Option Time
  regressedAt : Option Time
  createdAt : Time

structure RegressionCheck where
  regressionWatchId : Nat
  issueStillExists : Bool
  checkedAt : Option Time
  checkDetails : Option String

structure RegressionSchedulerConfig where
  checkIntervalSecs : Nat
  monitoringDurationSecs : Nat
  interval_lt : checkIntervalSecs < 2 ^ 64
  duration_lt : monitoringDurationSecs < 2 ^ 64

structure CheckCycleResult where
  watchId : Nat
  checkNumber : Nat
  regressionDetected : Bool
  isFinalCheck : Bool
  newStatus : Option RegressionWatchStatus
  issueType : IssueType
  issueId : String

/-! ## The tables -/

structure Store where
  watches : Table RegressionWatch
  checks : Table RegressionCheck

/-- The columns `update_regression_watch_status` sets at `now`. -/
def RegressionWatch.withStatus (w : RegressionWatch) (status : RegressionWatchStatus) (now : Time) :
    RegressionWatch :=
  let stamp (s : RegressionWatchStatus) (old : Option Time) := if status = s then some now else old
  { w with
    status := status
    monitoringStartedAt := stamp .monitoring w.monitoringStartedAt
    resolvedAt := stamp .resolved w.resolvedAt
    regressedAt := stamp .regressed w.regressedAt }

namespace Store

def getRegressionWatchesByStatus (s : Store) (status : RegressionWatchStatus) :
    List (Nat × RegressionWatch) :=
  (s.watches.select fun r => r.2.status = status).mergeSort fun a b => b.2.createdAt ≤ a.2.createdAt

def getRegressionChecks (s : Store) (id : Nat) : List (Nat × RegressionCheck) :=
  s.checks.select fun r => r.2.regressionWatchId = id

def recordRegressionCheck (s : Store) (check : RegressionCheck) : Store :=
  { s with checks := s.checks.insert check }

def updateRegressionWatchStatus (s : Store) (id : Nat) (status : RegressionWatchStatus)
    (now : Time) : Store :=
  { s with watches := s.watches.update (fun r => r.1 = id) (·.withStatus status now) }

end Store

/-! ## The scheduler -/

variable {ε : Type}

/-- When each watch is looked at in a cycle, and the answer of the checker about it. -/
structure Cycle (ε : Type) where
  now : Nat → Time
  checkRegression : Nat → Except ε Bool

namespace RegressionSchedulerConfig

def maxChecks (config : RegressionSchedulerConfig) : Nat :=
  config.monitoringDurationSecs / max config.checkIntervalSecs 1

end RegressionSchedulerConfig

/-- `(existing_checks.len() + 1) as u32` -/
def checkNumber (existing : Nat) : Nat := (existing + 1) % 2 ^ 32

/-- `(now - monitoring_started).num_seconds().max(0) as u64` -/
def secsSince (started now : Time) : Nat := ((now - started).tdiv second).toNat

/-- `check_number as u64 * check_interval_secs` -/
def requiredSecs (config : RegressionSchedulerConfig) (number : Nat) : Nat :=
  number * config.checkIntervalSecs % 2 ^ 64

variable (config : RegressionSchedulerConfig)

def checkWatch (c : Cycle ε) (id : Nat) (watch : RegressionWatch) (s : Store) :
    Except ε (Option CheckCycleResult) × Store :=
  let number := checkNumber (s.getRegressionChecks id).length
  match watch.monitoringStartedAt with
  | none => (.ok none, s)
  | some started =>
    if number > config.maxChecks then (.ok none, s)
    else if secsSince started (c.now id) < requiredSecs config number then (.ok none, s)
    else
      let isFinalCheck : Bool := number = config.maxChecks
      match c.checkRegression id with
      | .error e => (.error e, s)
      | .ok detected =>
        let finding := if detected then "Regression detected" else "No regression"
        let s := s.recordRegressionCheck
          { regressionWatchId := id
            issueStillExists := detected
            checkedAt := some (c.now id)
            checkDetails := some s!"Check {number}/{config.maxChecks}: {finding}" }
        let newStatus : Option RegressionWatchStatus :=
          if detected then some .regressed else if isFinalCheck then some .resolved else none
        let s := match newStatus with
          | some status => s.updateRegressionWatchStatus id status (c.now id)
          | none => s
        (.ok (some
          { watchId := id
            checkNumber := number
            regressionDetected := detected
            isFinalCheck := isFinalCheck
            newStatus := newStatus
            issueType := watch.issueType
            issueId := watch.issueId }), s)

/-- The loop over the watches: an error ends the cycle, and what was done before stays. -/
def checkWatches (c : Cycle ε) :
    List (Nat × RegressionWatch) → Store → Except ε (List CheckCycleResult) × Store
  | [], s => (.ok [], s)
  | (id, watch) :: rest, s =>
    match checkWatch config c id watch s with
    | (.error e, s) => (.error e, s)
    | (.ok result, s) =>
      match checkWatches c rest s with
      | (.error e, s) => (.error e, s)
      | (.ok results, s) => (.ok (result.toList ++ results), s)

def checkMonitoringWatches (c : Cycle ε) (s : Store) : Except ε (List CheckCycleResult) × Store :=
  checkWatches config c (s.getRegressionWatchesByStatus .monitoring) s

/-- The store after a cycle. -/
def step (s : Store) (c : Cycle ε) : Store := (checkMonitoringWatches config c s).2

/-- The cycle got through all watches. -/
def completes (s : Store) (c : Cycle ε) : Bool := (checkMonitoringWatches config c s).1.isOk

/-! ## One watch -/

/-- A watch and how often it was checked. -/
structure Progress where
  watch : RegressionWatch
  checks : Nat

namespace Progress

/-- The next check is planned and its time has come. -/
def due (p : Progress) (now : Time) : Bool :=
  match p.watch.monitoringStartedAt with
  | none => false
  | some started =>
    checkNumber p.checks ≤ config.maxChecks &&
      requiredSecs config (checkNumber p.checks) ≤ secsSince started now

/-- What a check makes of the watch. -/
def next (p : Progress) (now : Time) (answer : Except ε Bool) : Progress :=
  if p.due config now then
    match answer with
    | .error _ => p
    | .ok true => ⟨p.watch.withStatus .regressed now, p.checks + 1⟩
    | .ok false =>
      if checkNumber p.checks = config.maxChecks then
        ⟨p.watch.withStatus .resolved now, p.checks + 1⟩
      else ⟨p.watch, p.checks + 1⟩
  else p

end Progress

def Store.progress (s : Store) (id : Nat) : Option Progress :=
  (s.watches.get id).map fun w => ⟨w, (s.getRegressionChecks id).length⟩

variable {config} {s : Store} {c : Cycle ε} {id other : Nat} {p : Progress}
  {watch : RegressionWatch} {ws : List (Nat × RegressionWatch)}

theorem progress_eq_some :
    s.progress id = some p ↔
      s.watches.get id = some p.watch ∧ (s.getRegressionChecks id).length = p.checks := by
  unfold Store.progress
  cases s.watches.get id with
  | none => simp
  | some w =>
    obtain ⟨w', n⟩ := p
    simp

theorem checks_recorded (check : RegressionCheck) :
    ((s.recordRegressionCheck check).getRegressionChecks id).length =
      (s.getRegressionChecks id).length + if check.regressionWatchId = id then 1 else 0 := by
  unfold Store.getRegressionChecks Store.recordRegressionCheck Table.select Table.insert
  rw [List.filter_append, List.length_append]
  split <;> simp_all

theorem due_iff {now : Time} :
    p.due config now = true ↔ ∃ started, p.watch.monitoringStartedAt = some started ∧
      checkNumber p.checks ≤ config.maxChecks ∧
        requiredSecs config (checkNumber p.checks) ≤ secsSince started now := by
  unfold Progress.due
  cases p.watch.monitoringStartedAt with
  | none => simp
  | some started => simp

/-- A check of a watch that is not due does nothing. -/
theorem checkWatch_not_due (h : s.progress id = some p) (hdue : p.due config (c.now id) ≠ true) :
    checkWatch config c id p.watch s = (.ok none, s) := by
  unfold checkWatch
  rw [(progress_eq_some.mp h).2]
  cases hstart : p.watch.monitoringStartedAt with
  | none => rfl
  | some started =>
    dsimp only
    split
    · rfl
    · next hmax =>
      rw [if_pos (Nat.lt_of_not_le fun hle => hdue (due_iff.mpr ⟨started, hstart, by omega, hle⟩))]

theorem checkWatch_self (h : s.progress id = some p) :
    (checkWatch config c id p.watch s).2.progress id =
      some (p.next config (c.now id) (c.checkRegression id)) := by
  unfold Progress.next
  split
  · next hdue =>
    obtain ⟨hw, hn⟩ := progress_eq_some.mp h
    obtain ⟨started, hstart, hmax, hsecs⟩ := due_iff.mp hdue
    unfold checkWatch
    rw [hn, hstart]
    dsimp only
    rw [if_neg (Nat.not_lt.mpr hmax), if_neg (Nat.not_lt.mpr hsecs)]
    cases c.checkRegression id with
    | error e => exact h
    | ok detected =>
      refine progress_eq_some.mpr ?_
      cases detected with
      | true =>
        refine ⟨Table.get_update_of hw (decide_eq_true rfl), ?_⟩
        exact (checks_recorded _).trans (by rw [hn, if_pos rfl])
      | false =>
        by_cases hfinal : checkNumber p.checks = config.maxChecks
        · simp only [hfinal, decide_true, if_true]
          refine ⟨Table.get_update_of hw (decide_eq_true rfl), ?_⟩
          exact (checks_recorded _).trans (by rw [hn, if_pos rfl])
        · simp only [hfinal, decide_false, if_false]
          exact ⟨hw, (checks_recorded _).trans (by rw [hn, if_pos rfl])⟩
  · next hdue =>
    rw [checkWatch_not_due h hdue]
    exact h

/-- A check of another watch leaves this one alone. -/
theorem checkWatch_other (h : other ≠ id) :
    (checkWatch config c other watch s).2.progress id = s.progress id := by
  have hrecord (check : RegressionCheck) (hc : check.regressionWatchId = other) :
      (s.recordRegressionCheck check).progress id = s.progress id := by
    unfold Store.progress
    rw [checks_recorded, if_neg (by rwa [hc])]
    rfl
  have hupdate (s : Store) (status : RegressionWatchStatus) (now : Time) :
      (s.updateRegressionWatchStatus other status now).progress id = s.progress id := by
    unfold Store.progress Store.updateRegressionWatchStatus
    rw [Table.get_update_of_ne fun _ => decide_eq_false (Ne.symm h)]
    rfl
  unfold checkWatch
  cases watch.monitoringStartedAt with
  | none => rfl
  | some started =>
    dsimp only
    split
    · rfl
    · split
      · rfl
      · cases c.checkRegression other with
        | error e => rfl
        | ok detected =>
          dsimp only
          split
          · exact (hupdate _ _ _).trans (hrecord _ rfl)
          · exact hrecord _ rfl

/-! ## One cycle -/

theorem checkWatches_cons :
    (checkWatches config c ((other, watch) :: ws) s).2 =
      (if (checkWatch config c other watch s).1.isOk then
        (checkWatches config c ws (checkWatch config c other watch s).2).2
      else (checkWatch config c other watch s).2) ∧
    (checkWatches config c ((other, watch) :: ws) s).1.isOk =
      ((checkWatch config c other watch s).1.isOk &&
        (checkWatches config c ws (checkWatch config c other watch s).2).1.isOk) := by
  rw [checkWatches]
  rcases checkWatch config c other watch s with ⟨_ | result, s₁⟩
  · exact ⟨rfl, rfl⟩
  · rcases hr : checkWatches config c ws s₁ with ⟨_ | results, s₂⟩ <;> simp [hr, Except.isOk, Except.toBool]

theorem checkWatches_other (h : ∀ w ∈ ws, w.1 ≠ id) :
    (checkWatches config c ws s).2.progress id = s.progress id := by
  induction ws generalizing s with
  | nil => rfl
  | cons w ws ih =>
    obtain ⟨hw, hws⟩ := List.forall_mem_cons.mp h
    rw [checkWatches_cons.1]
    split
    · exact (ih hws).trans (checkWatch_other hw)
    · exact checkWatch_other hw

/-- A check fails when it is due and the checker fails. -/
theorem checkWatch_isOk (h : s.progress id = some p) :
    (checkWatch config c id p.watch s).1.isOk = false ↔
      p.due config (c.now id) = true ∧ ∃ e, c.checkRegression id = .error e := by
  by_cases hdue : p.due config (c.now id) = true
  · obtain ⟨started, hstart, hmax, hsecs⟩ := due_iff.mp hdue
    unfold checkWatch
    rw [(progress_eq_some.mp h).2, hstart]
    dsimp only
    rw [if_neg (Nat.not_lt.mpr hmax), if_neg (Nat.not_lt.mpr hsecs)]
    cases c.checkRegression id with
    | error e => exact iff_of_true rfl ⟨hdue, e, rfl⟩
    | ok detected => exact iff_of_false Bool.noConfusion fun ⟨_, e, he⟩ => by cases he
  · rw [checkWatch_not_due h hdue]
    exact iff_of_false Bool.noConfusion fun hc => hdue hc.1

theorem next_error {now : Time} {e : ε} : p.next config now (.error e : Except ε Bool) = p := by
  unfold Progress.next
  split <;> rfl

/-- The loop checks a watch once, unless an error stops it there or before. -/
theorem checkWatches_self (h : s.progress id = some p) (hmem : (id, p.watch) ∈ ws)
    (hnodup : (ws.map Prod.fst).Nodup) :
    (checkWatches config c ws s).2.progress id =
        some (p.next config (c.now id) (c.checkRegression id)) ∧
        (p.due config (c.now id) = true → ∃ b, c.checkRegression id = .ok b) ∨
      (checkWatches config c ws s).2.progress id = some p ∧
        (checkWatches config c ws s).1.isOk = false := by
  induction ws generalizing s with
  | nil => cases hmem
  | cons w ws ih =>
    rw [List.map_cons, List.nodup_cons] at hnodup
    rw [checkWatches_cons.1, checkWatches_cons.2]
    rcases List.mem_cons.mp hmem with rfl | hmem
    · have hrest : ∀ w ∈ ws, w.1 ≠ id := fun w hw he =>
        hnodup.1 (List.mem_map.mpr ⟨w, hw, he⟩)
      have hself : (checkWatch config c id p.watch s).2.progress id = _ := checkWatch_self h
      by_cases hok : (checkWatch config c id p.watch s).1.isOk = true
      · rw [if_pos hok]
        refine .inl ⟨(checkWatches_other hrest).trans hself, fun hdue => ?_⟩
        cases ha : c.checkRegression id with
        | ok b => exact ⟨b, rfl⟩
        | error e =>
          rw [(checkWatch_isOk h).mpr ⟨hdue, e, ha⟩] at hok
          cases hok
      · rw [if_neg hok, Bool.eq_false_iff.mpr hok, Bool.false_and]
        obtain ⟨-, e, he⟩ := (checkWatch_isOk h).mp (Bool.eq_false_iff.mpr hok)
        rw [he, next_error] at hself
        exact .inr ⟨hself, rfl⟩
    · have hne : w.1 ≠ id := fun he => hnodup.1 (List.mem_map.mpr ⟨(id, p.watch), hmem, he.symm⟩)
      have hkept : (checkWatch config c w.1 w.2 s).2.progress id = some p :=
        (checkWatch_other hne).trans h
      split
      · next hok =>
        rw [hok, Bool.true_and]
        exact ih hkept hmem hnodup.2
      · next hok =>
        rw [Bool.eq_false_iff.mpr hok]
        exact .inr ⟨hkept, rfl⟩

theorem mem_monitored :
    (id, watch) ∈ s.getRegressionWatchesByStatus .monitoring ↔
      s.watches.get id = some watch ∧ watch.status = .monitoring := by
  unfold Store.getRegressionWatchesByStatus
  rw [List.mem_mergeSort, Table.mem_select, decide_eq_true_eq]

/-- A cycle checks each monitored watch, as far as it gets. -/
theorem step_monitoring (h : s.progress id = some p) (hm : p.watch.status = .monitoring) :
    (step config s c).progress id = some (p.next config (c.now id) (c.checkRegression id)) ∧
        (p.due config (c.now id) = true → ∃ b, c.checkRegression id = .ok b) ∨
      (step config s c).progress id = some p ∧ completes config s c = false := by
  refine checkWatches_self h (mem_monitored.mpr ⟨(progress_eq_some.mp h).1, hm⟩) ?_
  exact ((List.mergeSort_perm _ _).map _).nodup_iff.mpr (Table.nodup_select _ _)

/-- A cycle leaves the other watches alone. -/
theorem step_settled (h : s.progress id = some p) (hm : p.watch.status ≠ .monitoring) :
    (step config s c).progress id = some p := by
  refine (checkWatches_other fun w hw he => ?_).trans h
  subst he
  obtain ⟨hget, hstatus⟩ := mem_monitored.mp hw
  rw [(progress_eq_some.mp h).1] at hget
  exact hm ((congrArg RegressionWatch.status (Option.some.inj hget)).trans hstatus)

theorem completes_of_ok (h : ∀ id, ∃ b, c.checkRegression id = .ok b) :
    completes config s c = true := by
  suffices hall : ∀ (ws : List (Nat × RegressionWatch)) (s : Store),
      (checkWatches config c ws s).1.isOk = true from hall _ _
  intro ws
  induction ws with
  | nil => exact fun _ => rfl
  | cons w ws ih =>
    intro s
    rw [checkWatches_cons.2, ih, Bool.and_true]
    obtain ⟨b, hb⟩ := h w.1
    unfold checkWatch
    rw [hb]
    cases w.2.monitoringStartedAt with
    | none => rfl
    | some started =>
      dsimp only
      split
      · rfl
      · split <;> rfl

/-! ## Runs -/

section Property

variable (config) (id : Nat) (started : Time)

/-- What a cycle that checks the watch does: the `n`-th check comes `n` intervals after the start
or later, a regression is marked at once, and the last planned check resolves the watch. -/
def ChecksWell (s : Store) (c : Cycle ε) : Prop :=
  ∀ p p', s.progress id = some p → (step config s c).progress id = some p' → p'.checks ≠ p.checks →
    p'.checks = p.checks + 1 ∧
    started + p'.checks * config.checkIntervalSecs * second ≤ c.now id ∧
    (c.checkRegression id = .ok true → p'.watch.status = .regressed) ∧
    (c.checkRegression id = .ok false → p'.checks = config.maxChecks → p'.watch.status = .resolved)

/-- The times the watch is looked at do not decrease from the start of its monitoring. -/
def NonDecreasing (l : List (Cycle ε)) : Prop := (started :: l.map fun c => c.now id).Pairwise (· ≤ ·)

/-- The cycle gets through, and the monitoring duration has passed. -/
def late (s : Store) (c : Cycle ε) : Nat :=
  if completes config s c = true ∧ started + config.monitoringDurationSecs * second ≤ c.now id then 1
  else 0

/-- The watch is monitored from `started` and was never checked. -/
structure Monitored (s : Store) (watch : RegressionWatch) : Prop where
  progress : s.progress id = some ⟨watch, 0⟩
  status : watch.status = .monitoring
  start : watch.monitoringStartedAt = some started

variable (ε)

/-- Monitoring goes well and ends, whatever the checker says. -/
def MonitoringEnds : Prop :=
  ∀ (s : Store) (id : Nat) (started : Time) (watch : RegressionWatch),
    Monitored id started s watch →
    (∀ l : List (Cycle ε), NonDecreasing id started l →
      Along (step config) (ChecksWell config id started) s l) ∧
    ∃ enough, ∀ l : List (Cycle ε), NonDecreasing id started l →
      enough ≤ total (step config) (late config id started) s l →
      ∃ p, (run (step config) s l).progress id = some p ∧ p.watch.status ≠ .monitoring

end Property

variable {started : Time}

/-- A watch is checked less often than planned while it is monitored. -/
def Planned (config : RegressionSchedulerConfig) (started : Time) (p : Progress) : Prop :=
  p.watch.status = .monitoring →
    p.checks < config.maxChecks ∧ p.watch.monitoringStartedAt = some started

theorem checks_mul_le {n : Nat} (h : n ≤ config.maxChecks) :
    n * config.checkIntervalSecs ≤ config.monitoringDurationSecs :=
  calc n * config.checkIntervalSecs
      ≤ n * max config.checkIntervalSecs 1 := Nat.mul_le_mul_left n (Nat.le_max_left _ _)
    _ ≤ config.maxChecks * max config.checkIntervalSecs 1 := Nat.mul_le_mul_right _ h
    _ ≤ config.monitoringDurationSecs := Nat.div_mul_le_self _ _

theorem requiredSecs_eq {n : Nat} (h : n ≤ config.maxChecks) :
    requiredSecs config n = n * config.checkIntervalSecs :=
  Nat.mod_eq_of_lt (Nat.lt_of_le_of_lt (checks_mul_le h) config.duration_lt)

theorem le_secsSince {n : Nat} {now : Time} (h : started ≤ now) :
    n ≤ secsSince started now ↔ started + n * second ≤ now := by
  have hsecond : (0 : Int) < second := by decide
  have hsince : 0 ≤ now - started := Int.sub_nonneg_of_le h
  have hdiv : (n : Int) ≤ (now - started) / second ↔ n * second ≤ now - started :=
    Int.le_ediv_iff_mul_le hsecond
  have hnonneg : 0 ≤ (now - started) / second := Int.ediv_nonneg hsince (Int.le_of_lt hsecond)
  have hadd : started + n * second ≤ now ↔ n * second ≤ now - started :=
    ⟨Int.le_sub_left_of_add_le, Int.add_le_of_le_sub_left⟩
  rw [secsSince, Int.tdiv_eq_ediv_of_nonneg hsince, Int.le_toNat hnonneg, hdiv, hadd]

/-- What a check makes of a watch, case by case. -/
theorem next_cases (config : RegressionSchedulerConfig) (p : Progress) (now : Time)
    (answer : Except ε Bool) :
    p.next config now answer = p ∨
      p.due config now = true ∧ ∃ b, answer = .ok b ∧
        (p.next config now answer).checks = p.checks + 1 ∧
        (p.next config now answer).watch =
          if b then p.watch.withStatus .regressed now
          else if checkNumber p.checks = config.maxChecks then p.watch.withStatus .resolved now
          else p.watch := by
  unfold Progress.next
  split
  · next hdue =>
    cases answer with
    | error e => exact .inl rfl
    | ok b =>
      refine .inr ⟨hdue, b, rfl, ?_⟩
      cases b with
      | true => exact ⟨rfl, rfl⟩
      | false =>
        dsimp only
        split
        · next hfinal => exact ⟨rfl, rfl⟩
        · next hfinal => exact ⟨rfl, rfl⟩
  · exact .inl rfl

section Ends

variable (hmax : config.maxChecks < 2 ^ 32)

include hmax

theorem checkNumber_eq {n : Nat} (h : n < config.maxChecks) : checkNumber n = n + 1 :=
  Nat.mod_eq_of_lt (Nat.lt_of_le_of_lt h hmax)

/-- A check keeps the watch planned. -/
theorem Planned.next {now : Time} {answer : Except ε Bool} (h : Planned config started p) :
    Planned config started (p.next config now answer) := by
  rcases next_cases config p _ _ with he | ⟨-, b, -, hchecks, hwatch⟩
  · rwa [he]
  · intro hm
    rw [hwatch] at hm
    split at hm
    · cases hm
    · next hb =>
      split at hm
      · cases hm
      · next hfinal =>
        obtain ⟨hlt, hstart⟩ := h hm
        rw [checkNumber_eq hmax hlt] at hfinal
        rw [hchecks, hwatch, if_neg hb, if_neg (by rwa [checkNumber_eq hmax hlt])]
        exact ⟨by omega, hstart⟩

theorem Planned.step (hp : s.progress id = some p) (h : Planned config started p) :
    ∃ p', (step config s c).progress id = some p' ∧ Planned config started p' := by
  by_cases hm : p.watch.status = .monitoring
  · rcases step_monitoring hp hm with ⟨he, -⟩ | ⟨he, -⟩
    · exact ⟨_, he, h.next hmax⟩
    · exact ⟨p, he, h⟩
  · exact ⟨p, step_settled hp hm, h⟩

theorem checksWell (hp : s.progress id = some p) (h : Planned config started p)
    (hnow : started ≤ c.now id) : ChecksWell config id started s c := by
  intro p₁ p' hp₁ hp' hne
  cases hp.symm.trans hp₁
  by_cases hm : p.watch.status = .monitoring
  · rcases step_monitoring (c := c) hp hm with ⟨he, -⟩ | ⟨he, -⟩
    · obtain ⟨hlt, hstart⟩ := h hm
      have hnumber := checkNumber_eq hmax hlt
      cases hp'.symm.trans he
      rcases next_cases config p _ _ with he | ⟨hdue, b, hb, hchecks, hwatch⟩
      · exact absurd (congrArg Progress.checks he) hne
      · obtain ⟨t, ht, hle, hsecs⟩ := due_iff.mp hdue
        cases ht.symm.trans hstart
        rw [requiredSecs_eq hle, le_secsSince hnow, hnumber] at hsecs
        rw [hnumber] at hwatch
        refine ⟨hchecks, by rw [hchecks]; exact_mod_cast hsecs, fun hr => ?_, fun hr hfinal => ?_⟩
        · cases hr.symm.trans hb
          rw [hwatch]
          rfl
        · cases hr.symm.trans hb
          rw [hwatch, if_neg Bool.false_ne_true, if_pos (hchecks.symm.trans hfinal)]
          rfl
    · cases hp'.symm.trans he
      exact absurd rfl hne
  · cases hp'.symm.trans (step_settled hp hm)
    exact absurd rfl hne

/-- A cycle that gets through late checks the watch. -/
theorem late_checks (hp : s.progress id = some p) (h : Planned config started p)
    (hm : p.watch.status = .monitoring) {p' : Progress}
    (hp' : (step config s c).progress id = some p') (hnow : started ≤ c.now id) :
    p.checks + late config id started s c ≤ p'.checks := by
  unfold late
  obtain ⟨hlt, hstart⟩ := h hm
  rcases step_monitoring (c := c) hp hm with ⟨he, hok⟩ | ⟨he, hcut⟩
  · cases hp'.symm.trans he
    rcases next_cases config p _ _ with he | ⟨-, b, -, hchecks, -⟩
    · split
      · next hlate =>
        have hnumber := checkNumber_eq hmax hlt
        have hdue : p.due config (c.now id) = true := by
          refine due_iff.mpr ⟨started, hstart, by omega, ?_⟩
          rw [requiredSecs_eq (by omega)]
          exact Nat.le_trans (checks_mul_le (by omega)) ((le_secsSince hnow).mpr hlate.2)
        obtain ⟨b, hb⟩ := hok hdue
        have hgrown : (p.next config (c.now id) (c.checkRegression id)).checks = p.checks + 1 := by
          unfold Progress.next
          rw [if_pos hdue, hb]
          cases b with
          | true => rfl
          | false => dsimp only; split <;> rfl
        omega
      · rw [he]
        omega
    · split <;> omega
  · cases hp'.symm.trans he
    rw [if_neg (by simp [hcut])]
    omega

/-- A watch that is still monitored was checked in every late cycle that got through. -/
theorem late_run (hp : s.progress id = some p) (h : Planned config started p) {l : List (Cycle ε)}
    (hnow : ∀ c ∈ l, started ≤ c.now id) :
    ∃ p', (run (step config) s l).progress id = some p' ∧ Planned config started p' ∧
      (p'.watch.status = .monitoring → p.watch.status = .monitoring ∧
        p.checks + total (step config) (late config id started) s l ≤ p'.checks) := by
  induction l generalizing s p with
  | nil => exact ⟨p, hp, h, fun hm => ⟨hm, Nat.le_refl _⟩⟩
  | cons c l ih =>
    obtain ⟨hc, hl⟩ := List.forall_mem_cons.mp hnow
    obtain ⟨p₁, hp₁, h₁⟩ := h.step (c := c) hmax hp
    obtain ⟨p', hp', h', hcount⟩ := ih hp₁ h₁ hl
    refine ⟨p', hp', h', fun hm => ?_⟩
    obtain ⟨hm₁, hle⟩ := hcount hm
    have hm₀ : p.watch.status = .monitoring := by
      by_contra hne
      cases hp₁.symm.trans (step_settled hp hne)
      exact hne hm₁
    have hstep := late_checks hmax hp h hm₀ hp₁ hc
    refine ⟨hm₀, ?_⟩
    rw [total]
    omega

theorem monitoring_ends (hpos : 1 ≤ config.maxChecks) : MonitoringEnds ε config := by
  intro s id started watch h
  have hplanned : Planned config started ⟨watch, 0⟩ := fun _ => ⟨hpos, h.start⟩
  have hafter {l : List (Cycle ε)} (hl : NonDecreasing id started l) :
      ∀ c ∈ l, started ≤ c.now id := fun c hc =>
    (List.pairwise_cons.mp hl).1 _ (List.mem_map_of_mem hc)
  refine ⟨fun l hl => ?_, config.maxChecks, fun l hl hlate => ?_⟩
  · have hnow : Along (step config) (fun _ c => started ≤ c.now id) s l :=
      along_of_forall fun c hc _ => hafter hl c hc
    refine hnow.along (P := fun s => ∃ p, s.progress id = some p ∧ Planned config started p)
      (fun s c hs _ => ?_) (fun s c hs hc => ?_) ⟨_, h.progress, hplanned⟩
    · obtain ⟨p, hp, hplan⟩ := hs
      exact hplan.step hmax hp
    · obtain ⟨p, hp, hplan⟩ := hs
      exact checksWell hmax hp hplan hc
  · obtain ⟨p', hp', hplan, hcount⟩ := late_run hmax h.progress hplanned (hafter hl)
    refine ⟨p', hp', fun hm => ?_⟩
    have hlt := (hplan hm).1
    have hle : 0 + _ ≤ p'.checks := (hcount hm).2
    omega

end Ends

/-! ## Configurations whose monitoring never ends -/

/-- A watch that is monitored from time 0. -/
def quiet : RegressionWatch := ⟨.sentryIssue, "", .monitoring, some 0, none, none, 0⟩

def quietStore : Store := ⟨Table.empty.insert quiet, .empty⟩

/-- The duration has passed, and the checker finds nothing. -/
def quietCycle (ε : Type) (config : RegressionSchedulerConfig) : Cycle ε :=
  ⟨fun _ => config.monitoringDurationSecs * second, fun _ => .ok false⟩

theorem quiet_next (hconfig : config.maxChecks = 0 ∨ 2 ^ 32 ≤ config.maxChecks) {now : Time}
    (hwatch : p.watch = quiet) (hp : config.maxChecks = 0 → p.checks = 0) :
    (p.next config now (.ok false : Except ε Bool)).watch = quiet ∧
      (config.maxChecks = 0 → (p.next config now (.ok false : Except ε Bool)).checks = 0) := by
  rcases next_cases config p _ _ with he | ⟨hdue, b, hb, hchecks, hnext⟩
  · rw [he]
    exact ⟨hwatch, hp⟩
  · cases hb
    obtain ⟨-, -, hle, -⟩ := due_iff.mp hdue
    have hlt : checkNumber p.checks < 2 ^ 32 := Nat.mod_lt _ (by decide)
    rcases hconfig with hzero | hlarge
    · rw [hzero, hp hzero] at hle
      exact absurd hle (by decide)
    · rw [hnext, if_neg Bool.false_ne_true, if_neg (by omega)]
      exact ⟨hwatch, fun hzero => by omega⟩

theorem quiet_run (hconfig : config.maxChecks = 0 ∨ 2 ^ 32 ≤ config.maxChecks) (n : Nat)
    {s : Store} (hp : s.progress 1 = some p) (hwatch : p.watch = quiet)
    (hzero : config.maxChecks = 0 → p.checks = 0) :
    (∃ p', (run (step config) s (List.replicate n (quietCycle ε config))).progress 1 = some p' ∧
        p'.watch = quiet) ∧
      total (step config) (late config 1 0) s (List.replicate n (quietCycle ε config)) = n := by
  induction n generalizing s p with
  | zero => exact ⟨⟨p, hp, hwatch⟩, rfl⟩
  | succ n ih =>
    have hcompletes : completes config s (quietCycle ε config) = true :=
      completes_of_ok fun _ => ⟨false, rfl⟩
    have hm : p.watch.status = .monitoring := by rw [hwatch]; rfl
    obtain ⟨he, -⟩ | ⟨-, hcut⟩ := step_monitoring (c := quietCycle ε config) hp hm
    · obtain ⟨hw, hz⟩ := quiet_next (ε := ε) hconfig hwatch hzero
      obtain ⟨hrun, htotal⟩ := ih he hw hz
      refine ⟨hrun, ?_⟩
      rw [List.replicate_succ, total, htotal, late, if_pos ⟨hcompletes, by simp [quietCycle]⟩]
      omega
    · rw [hcompletes] at hcut
      cases hcut

theorem not_monitoring_ends (hconfig : config.maxChecks = 0 ∨ 2 ^ 32 ≤ config.maxChecks) :
    ¬ MonitoringEnds ε config := by
  intro h
  obtain ⟨-, enough, hends⟩ := h quietStore 1 0 quiet ⟨rfl, rfl, rfl⟩
  have hstart : quietStore.progress 1 = some ⟨quiet, 0⟩ := rfl
  obtain ⟨⟨p', hp', hquiet⟩, htotal⟩ := quiet_run (ε := ε) hconfig enough hstart rfl fun _ => rfl
  have hl : NonDecreasing 1 0 (List.replicate enough (quietCycle ε config)) := by
    refine List.pairwise_cons.mpr ⟨fun t ht => ?_, ?_⟩
    · obtain ⟨c, hc, rfl⟩ := List.mem_map.mp ht
      rw [List.eq_of_mem_replicate hc]
      exact Int.mul_nonneg (Int.natCast_nonneg _) (by decide)
    · rw [List.map_replicate]
      exact List.pairwise_replicate.mpr (.inr (Int.le_refl _))
  obtain ⟨p, hp, hstatus⟩ := hends _ hl (Nat.le_of_eq htotal.symm)
  cases hp.symm.trans hp'
  exact hstatus (by rw [hquiet]; rfl)

/-- Monitoring ends exactly when at least one check is planned, and fewer than a `u32` counts. -/
theorem monitoring_ends_iff (ε : Type) (config : RegressionSchedulerConfig) :
    MonitoringEnds ε config ↔ 1 ≤ config.maxChecks ∧ config.maxChecks < 2 ^ 32 := by
  constructor
  · intro h
    by_contra hne
    exact not_monitoring_ends (by omega) h
  · rintro ⟨hpos, hmax⟩
    exact monitoring_ends hmax hpos

/-- Half an hour of monitoring with a check every hour. -/
def shortConfig : RegressionSchedulerConfig := ⟨3600, 1800, by decide, by decide⟩

theorem monitoring_stuck : ¬ MonitoringEnds String shortConfig :=
  not_monitoring_ends (.inl (by decide))

end Claudear.Analysis.Regression
