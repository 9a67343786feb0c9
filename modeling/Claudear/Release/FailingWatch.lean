import Claudear.Release.Tracker

/-!
# A watch that fails

Both sweeps over the watches end at the first watch whose check fails. A watch that
its own lookups would move is then not looked at if it comes later, and not reported
if it came before. `served_iff` says when every such watch is moved and reported.
-/

namespace Claudear.Analysis.Regression

open Claudear.Sql Claudear.Machine

variable {ε : Type} {config : RegressionSchedulerConfig} {s s' : Store} {c : Cycle ε} {id : Nat} {p : Progress}
  {watch : RegressionWatch} {ws : List (Nat × RegressionWatch)}

/-! ## The check of a monitored watch -/

/-- The status a check with this finding gives the watch. -/
def Progress.verdict (config : RegressionSchedulerConfig) (p : Progress) (detected : Bool) :
    Option RegressionWatchStatus :=
  if detected then some .regressed else if checkNumber p.checks = config.maxChecks then some .resolved else none

/-- What a check with this finding reports. -/
def Progress.outcome (config : RegressionSchedulerConfig) (p : Progress) (id : Nat) (detected : Bool) :
    CheckCycleResult where
  watchId := id
  checkNumber := checkNumber p.checks
  regressionDetected := detected
  isFinalCheck := checkNumber p.checks = config.maxChecks
  newStatus := p.verdict config detected
  issueType := p.watch.issueType
  issueId := p.watch.issueId

theorem checkWatch_due (h : s.progress id = some p) (hdue : p.due config (c.now id) = true) :
    (checkWatch config c id p.watch s).1 = (c.checkRegression id).map fun b => some (p.outcome config id b) := by
  obtain ⟨started, hstart, hmax, hsecs⟩ := due_iff.mp hdue
  unfold checkWatch
  rw [(progress_eq_some.mp h).2, hstart]
  dsimp only
  rw [if_neg (Nat.not_lt.mpr hmax), if_neg (Nat.not_lt.mpr hsecs)]
  cases c.checkRegression id with
  | error e => rfl
  | ok detected =>
    simp only [Except.map, Progress.outcome, Progress.verdict, decide_eq_true_eq]

theorem progress_recorded (h : s.progress id = some p) {check : RegressionCheck} (hc : check.regressionWatchId = id) :
    (s.recordRegressionCheck check).progress id = some ⟨p.watch, p.checks + 1⟩ := by
  obtain ⟨hw, hn⟩ := progress_eq_some.mp h
  refine progress_eq_some.mpr ⟨hw, ?_⟩
  rw [checks_recorded, hn, if_pos hc]

theorem progress_updated (h : s.progress id = some p) (status : RegressionWatchStatus) (now : Time) :
    (s.updateRegressionWatchStatus id status now).progress id = some ⟨p.watch.withStatus status now, p.checks⟩ := by
  obtain ⟨hw, hn⟩ := progress_eq_some.mp h
  exact progress_eq_some.mpr ⟨Table.get_update_of hw (decide_eq_true rfl), hn⟩

/-- The check sees of the store how often the watch was checked. -/
theorem checkWatch_same (h : s.progress id = some p) (h' : s'.progress id = some p) :
    (checkWatch config c id watch s).1 = (checkWatch config c id watch s').1 ∧
      (checkWatch config c id watch s).2.progress id = (checkWatch config c id watch s').2.progress id := by
  unfold checkWatch
  rw [(progress_eq_some.mp h).2, (progress_eq_some.mp h').2]
  cases watch.monitoringStartedAt with
  | none => exact ⟨rfl, h.trans h'.symm⟩
  | some started =>
    dsimp only
    split
    · exact ⟨rfl, h.trans h'.symm⟩
    · split
      · exact ⟨rfl, h.trans h'.symm⟩
      · cases c.checkRegression id with
        | error e => exact ⟨rfl, h.trans h'.symm⟩
        | ok detected =>
          refine ⟨rfl, ?_⟩
          dsimp only
          split
          · rw [progress_updated (progress_recorded h rfl), progress_updated (progress_recorded h' rfl)]
          · rw [progress_recorded h rfl, progress_recorded h' rfl]

/-! ## The sweep over the monitored watches -/

def sweepCheck (config : RegressionSchedulerConfig) (c : Cycle ε) (w : Nat × RegressionWatch) (s : Store) :
    Except ε (Option CheckCycleResult) × Store :=
  checkWatch config c w.1 w.2 s

theorem checkWatches_eq_sweep : checkWatches config c ws s = sweep (sweepCheck config c) ws s := by
  induction ws generalizing s with
  | nil => rfl
  | cons w ws ih =>
    rw [checkWatches, sweep, sweepCheck]
    rcases checkWatch config c w.1 w.2 s with ⟨e | result, s₁⟩
    · rfl
    · dsimp only
      rw [ih]
      rcases sweep (sweepCheck config c) ws s₁ with ⟨e | results, s₂⟩ <;> rfl

theorem sweepCheck_independent (config : RegressionSchedulerConfig) (c : Cycle ε) :
    Independent (sweepCheck config c) Prod.fst fun w s => s.progress w.1 where
  other h := checkWatch_other h.symm
  same h h' := checkWatch_same h h'

/-- Every watch that its own check moves is moved and reported. -/
def Served (config : RegressionSchedulerConfig) (c : Cycle ε) (s : Store) : Prop :=
  ∀ id p, s.progress id = some p → p.watch.status = .monitoring → p.due config (c.now id) = true →
    ∀ detected, c.checkRegression id = .ok detected → p.verdict config detected ≠ none →
      (checkMonitoringWatches config c s).2.progress id = some (p.next config (c.now id) (.ok detected : Except ε Bool)) ∧
        ∃ results, (checkMonitoringWatches config c s).1 = .ok results ∧ p.outcome config id detected ∈ results

/-- What the check of a watch alone reports. -/
theorem own_sweepCheck (h : s.progress id = some p) {r : CheckCycleResult} :
    own (sweepCheck config c) s (id, p.watch) = some r ↔
      p.due config (c.now id) = true ∧ ∃ detected, c.checkRegression id = .ok detected ∧ p.outcome config id detected = r := by
  rw [own, sweepCheck]
  by_cases hdue : p.due config (c.now id) = true
  · dsimp only
    rw [checkWatch_due h hdue]
    cases c.checkRegression id <;> simp [hdue, Except.map]
  · rw [checkWatch_not_due h hdue]
    simp [hdue]

theorem forall_monitored {P : Nat × RegressionWatch → Prop} :
    (∀ w ∈ s.getRegressionWatchesByStatus .monitoring, P w) ↔
      ∀ id p, s.progress id = some p → p.watch.status = .monitoring → P (id, p.watch) := by
  constructor
  · intro h id p hp hm
    exact h _ (mem_monitored.mpr ⟨(progress_eq_some.mp hp).1, hm⟩)
  · rintro h ⟨id, w⟩ hw
    obtain ⟨hget, hm⟩ := mem_monitored.mp hw
    exact h id ⟨w, _⟩ (progress_eq_some.mpr ⟨hget, rfl⟩) hm

theorem nodup_monitored : ((s.getRegressionWatchesByStatus .monitoring).map Prod.fst).Nodup :=
  ((List.mergeSort_perm _ _).map _).nodup_iff.mpr (Table.nodup_select _ _)

theorem served_iff :
    Served config c s ↔
      (∀ id p, s.progress id = some p → p.watch.status = .monitoring → p.due config (c.now id) = true →
        ∃ detected, c.checkRegression id = .ok detected) ∨
      ∀ id p, s.progress id = some p → p.watch.status = .monitoring → p.due config (c.now id) = true →
        ∀ detected, c.checkRegression id = .ok detected → p.verdict config detected = none := by
  have hfair := (sweepCheck_independent config c).fair_iff (fun r => r.newStatus ≠ none)
    (fun w _ s' => s'.progress w.1 = (s.progress w.1).map fun p => p.next config (c.now w.1) (c.checkRegression w.1))
    nodup_monitored (forall_monitored.mpr fun id p hp _ => ⟨p, hp⟩)
    (forall_monitored.mpr fun id p hp _ r _ _ s' hs' => by
      rw [hs', sweepCheck, checkWatch_self hp, hp, Option.map_some])
  have hsweep : sweep (sweepCheck config c) (s.getRegressionWatchesByStatus .monitoring) s =
      checkMonitoringWatches config c s := checkWatches_eq_sweep.symm
  rw [hsweep, forall_monitored, forall_monitored, forall_monitored] at hfair
  refine Iff.trans ?_ (hfair.trans (or_congr ?_ ?_))
  all_goals refine forall₄_congr fun id p hp hm => ?_
  · constructor
    · intro h r hr hmoves
      obtain ⟨hdue, detected, hd, rfl⟩ := (own_sweepCheck hp).mp hr
      rw [hp, Option.map_some, hd]
      exact h hdue detected hd hmoves
    · intro h hdue detected hd hmoves
      have hmoved := h _ ((own_sweepCheck hp).mpr ⟨hdue, detected, hd, rfl⟩) hmoves
      rwa [hp, Option.map_some, hd] at hmoved
  · by_cases hdue : p.due config (c.now id) = true
    · rw [sweepCheck, checkWatch_due hp hdue]
      cases c.checkRegression id <;> simp [hdue, Except.map, Except.isOk, Except.toBool]
    · rw [sweepCheck, checkWatch_not_due hp hdue]
      simp [hdue, Except.isOk, Except.toBool]
  · constructor
    · intro h hdue detected hd
      exact not_not.mp (h _ ((own_sweepCheck hp).mpr ⟨hdue, detected, hd, rfl⟩))
    · intro h r hr hmoves
      obtain ⟨hdue, detected, hd, rfl⟩ := (own_sweepCheck hp).mp hr
      exact hmoves (h hdue detected hd)

end Claudear.Analysis.Regression

namespace Claudear.Release

open Claudear.Sql Claudear.Machine Claudear.Analysis

namespace ReleaseTracker

variable {T : ReleaseTracker} {meet : Nat → Meeting} {s s' : Store} {i j : Nat} {w : TrackedWatch}
  {found : List ReleaseTracking} {tag repo : String} {now : Regression.Time}

/-! ## The sweep over the watches that await a release -/

/-- What the store has about a watch: its columns and the releases recorded for it. -/
def tracked (i : Nat) (s : Store) : Option (TrackedWatch × List ReleaseTracking) :=
  (s.watches.get i).map fun w => (w, (s.releases.select fun r => r.2.regressionWatchId = i).map Prod.snd)

/-- The watch in monitoring, with the release it is found in. -/
def released (i : Nat) (tag repo : String) (now : Regression.Time) (p : TrackedWatch × List ReleaseTracking) :
    TrackedWatch × List ReleaseTracking :=
  (TrackedWatch.monitored p.1 now, p.2 ++ [⟨i, tag, repo⟩])

theorem select_recorded (t : Table ReleaseTracking) (r : ReleaseTracking) :
    ((t.insert r).select fun r => r.2.regressionWatchId = i).map Prod.snd =
      (t.select fun r => r.2.regressionWatchId = i).map Prod.snd ++ if r.regressionWatchId = i then [r] else [] := by
  unfold Table.select Table.insert
  rw [List.filter_append, List.map_append]
  by_cases h : r.regressionWatchId = i <;> simp [h]

theorem tracked_transition : tracked i (transitionToMonitoring i tag repo now s) = (tracked i s).map (released i tag repo now) := by
  unfold tracked transitionToMonitoring
  dsimp only
  rw [select_recorded, if_pos rfl]
  cases h : s.watches.get i with
  | none =>
    rw [Table.get_update, h]
    rfl
  | some w =>
    rw [Table.get_update_of h (decide_eq_true rfl)]
    rfl

theorem tracked_transition_of_ne (h : i ≠ j) : tracked i (transitionToMonitoring j tag repo now s) = tracked i s := by
  unfold tracked transitionToMonitoring
  dsimp only
  rw [select_recorded, if_neg (Ne.symm h), List.append_nil, Table.get_update_of_ne fun _ => decide_eq_false h]

theorem checkPending_independent (T : ReleaseTracker) (meet : Nat → Meeting) :
    Independent (T.checkPending meet) Prod.fst fun w s => tracked w.1 s where
  other := fun {w v s} h => by
    unfold checkPending
    rcases T.checkWatchRelease (meet v.1).lookups v.2 with e | _ | ⟨tag, repo⟩
    · rfl
    · rfl
    · exact tracked_transition_of_ne h
  same := fun {w s s' p} h h' => by
    unfold checkPending
    rcases T.checkWatchRelease (meet w.1).lookups w.2 with e | _ | ⟨tag, repo⟩
    · exact ⟨rfl, h.trans h'.symm⟩
    · exact ⟨rfl, h.trans h'.symm⟩
    · refine ⟨rfl, ?_⟩
      dsimp only
      rw [tracked_transition, tracked_transition, h, h']

/-- Every watch that its own check finds in a release is moved and reported. -/
def Served (T : ReleaseTracker) (meet : Nat → Meeting) (s : Store) : Prop :=
  ∀ i w, s.watches.get i = some w → w.status = .awaitingRelease →
    ∀ tag repo, T.checkWatchRelease (meet i).lookups w = .ok (some (tag, repo)) →
      tracked i (T.checkPendingWatches meet s).2 = (tracked i s).map (released i tag repo (meet i).now) ∧
        ∃ ids, (T.checkPendingWatches meet s).1 = .ok ids ∧ i ∈ ids

theorem forall_pending {P : Nat × TrackedWatch → Prop} :
    (∀ w ∈ pending s, P w) ↔ ∀ i w, s.watches.get i = some w → w.status = .awaitingRelease → P (i, w) := by
  have hmem (i : Nat) (w : TrackedWatch) :
      (i, w) ∈ pending s ↔ s.watches.get i = some w ∧ w.status = .awaitingRelease := by
    rw [pending, List.mem_mergeSort, Table.mem_select, decide_eq_true_eq]
  constructor
  · intro h i w hw hs
    exact h _ ((hmem i w).mpr ⟨hw, hs⟩)
  · rintro h ⟨i, w⟩ hw
    exact h i w ((hmem i w).mp hw).1 ((hmem i w).mp hw).2

theorem nodup_pending : ((pending s).map Prod.fst).Nodup :=
  ((List.mergeSort_perm _ _).map _).nodup_iff.mpr (Table.nodup_select _ _)

theorem own_checkPending {r : Nat} :
    own (T.checkPending meet) s (i, w) = some r ↔
      i = r ∧ ∃ tag repo, T.checkWatchRelease (meet i).lookups w = .ok (some (tag, repo)) := by
  unfold own checkPending
  rcases T.checkWatchRelease (meet i).lookups w with e | _ | ⟨tag, repo⟩ <;> simp

theorem served_iff :
    Served T meet s ↔
      (∀ i w, s.watches.get i = some w → w.status = .awaitingRelease →
        ∃ verdict, T.checkWatchRelease (meet i).lookups w = .ok verdict) ∨
      ∀ i w, s.watches.get i = some w → w.status = .awaitingRelease →
        ∀ verdict, T.checkWatchRelease (meet i).lookups w = .ok verdict → verdict = none := by
  have hfair := (checkPending_independent T meet).fair_iff (fun _ => True)
    (fun w _ s' => ∀ tag repo, T.checkWatchRelease (meet w.1).lookups w.2 = .ok (some (tag, repo)) →
      tracked w.1 s' = (tracked w.1 s).map (released w.1 tag repo (meet w.1).now))
    nodup_pending
    (forall_pending.mpr fun i w hw _ => ⟨_, by rw [tracked, hw, Option.map_some]⟩)
    (forall_pending.mpr fun i w _ _ r _ _ s' hs' tag repo hfound => by
      rw [hs', checkPending, hfound]
      exact tracked_transition)
  have hsweep : sweep (T.checkPending meet) (pending s) s = T.checkPendingWatches meet s := rfl
  rw [hsweep, forall_pending, forall_pending, forall_pending] at hfair
  refine Iff.trans ?_ (hfair.trans (or_congr ?_ ?_))
  all_goals refine forall₄_congr fun i w hw hs => ?_
  · constructor
    · intro h r hr _
      obtain ⟨rfl, tag, repo, hfound⟩ := own_checkPending.mp hr
      exact ⟨fun tag repo hfound => (h tag repo hfound).1, (h tag repo hfound).2⟩
    · intro h tag repo hfound
      obtain ⟨hmoved, hreported⟩ := h i (own_checkPending.mpr ⟨rfl, tag, repo, hfound⟩) trivial
      exact ⟨hmoved tag repo hfound, hreported⟩
  · unfold checkPending
    rcases T.checkWatchRelease (meet i).lookups w with e | _ | ⟨tag, repo⟩ <;> simp [Except.isOk, Except.toBool]
  · constructor
    · rintro h (_ | ⟨tag, repo⟩) hfound
      · rfl
      · exact (h i (own_checkPending.mpr ⟨rfl, tag, repo, hfound⟩) trivial).elim
    · intro h r hr _
      obtain ⟨-, tag, repo, hfound⟩ := own_checkPending.mp hr
      cases h _ hfound

end ReleaseTracker

/-! ## Both sweeps -/

/-- A sweep serves all its watches exactly if no check of a watch fails, or no check
moves a watch. -/
theorem sweeps_serve_iff {ε : Type} (T : ReleaseTracker) (meet : Nat → ReleaseTracker.Meeting) (s : ReleaseTracker.Store)
    (config : Regression.RegressionSchedulerConfig) (c : Regression.Cycle ε) (monitored : Regression.Store) :
    (ReleaseTracker.Served T meet s ↔
      (∀ i w, s.watches.get i = some w → w.status = .awaitingRelease →
        ∃ verdict, T.checkWatchRelease (meet i).lookups w = .ok verdict) ∨
      ∀ i w, s.watches.get i = some w → w.status = .awaitingRelease →
        ∀ verdict, T.checkWatchRelease (meet i).lookups w = .ok verdict → verdict = none) ∧
    (Regression.Served config c monitored ↔
      (∀ id p, monitored.progress id = some p → p.watch.status = .monitoring → p.due config (c.now id) = true →
        ∃ detected, c.checkRegression id = .ok detected) ∨
      ∀ id p, monitored.progress id = some p → p.watch.status = .monitoring → p.due config (c.now id) = true →
        ∀ detected, c.checkRegression id = .ok detected → p.verdict config detected = none) :=
  ⟨ReleaseTracker.served_iff, Regression.served_iff⟩

/-! ## A watch that is never reported -/

/-- Fixes in `acme/app` are watched for, and its releases too. -/
def appTracker : ReleaseTracker where
  config := ⟨["acme/app"], []⟩
  relationships := .new
  json :=
    { composer := fun _ => .error "EOF while parsing a value"
      npm := fun _ => .error "EOF while parsing a value"
      pipfile := fun _ => .error "EOF while parsing a value"
      order := ⟨id, List.Perm.refl⟩ }
  semver := sampleCrate
  parseFromRfc3339 _ := .error "premature end of input"

/-- Every pull request is merged and in release `v1`; GitHub does not answer for the second watch. -/
def appLookups (watch : Nat) : Lookups where
  getAttemptById _ := .ok (some ⟨some "acme/app", some 7⟩)
  getPrDetails _ _ :=
    if watch = 2 then .error "GitHub API error (502): Bad Gateway"
    else .ok (some ⟨true, some "a7e4093", some "2024-01-01T00:00:00Z"⟩)
  getLatestRelease _ := .ok (some ⟨"v1", some "2024-01-02T00:00:00Z"⟩)
  isCommitInRelease _ _ _ := .ok true
  getFirstReleaseAfter _ _ := .ok none
  getFileAtRef _ _ _ := .ok none

def awaiting (createdAt : Regression.Time) : TrackedWatch where
  issueType := .linearBug
  issueId := "APP-1"
  status := .awaitingRelease
  monitoringStartedAt := none
  resolvedAt := none
  regressedAt := none
  createdAt := createdAt
  fixAttemptId := 1

def threeWatches : ReleaseTracker.Store where
  watches := ((Table.empty.insert (awaiting 3)).insert (awaiting 2)).insert (awaiting 1)
  releases := .empty

theorem pending_three : ReleaseTracker.pending threeWatches = [(1, awaiting 3), (2, awaiting 2), (3, awaiting 1)] :=
  List.mergeSort_of_pairwise (by decide)

/-- The check of the second watch fails. The first is moved and not reported, the third
is left as it was, and alone each of the two would be moved. -/
theorem failing_watch_starves :
    let swept := appTracker.checkPendingWatches (fun i => ⟨appLookups i, 10⟩) threeWatches
    swept.1 = .error "GitHub API error (502): Bad Gateway" ∧
      (swept.2.watches.get 1).map (fun w => w.status) = some .monitoring ∧
      (swept.2.watches.get 3).map (fun w => w.status) = some .awaitingRelease ∧
      appTracker.checkWatchRelease (appLookups 1) (awaiting 3) = .ok (some ("v1", "acme/app")) ∧
      appTracker.checkWatchRelease (appLookups 3) (awaiting 1) = .ok (some ("v1", "acme/app")) := by
  dsimp only
  unfold ReleaseTracker.checkPendingWatches
  rw [pending_three]
  exact ⟨rfl, rfl, rfl, rfl, rfl⟩

end Claudear.Release
