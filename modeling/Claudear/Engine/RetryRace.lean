import Claudear.Engine.RetryManager

/-!
# Workers racing for retries

Any number of workers list the retries that are due, prepare one of the listed
attempts, run it and report its outcome. A list may be stale when it is acted
on, and `handle_failure` decides on a read that may be stale when it writes.
Every statement is atomic, and a `Step` is one statement of one worker.

`prepare_for_retry` is the only gate between the workers: it takes a failed row
to pending and counts the retry in the same statement. It keeps the counter
within `max_retries` as long as the row it takes is the issue's original
(`Settled`); with a failed cascade row beside the original it may take that one
and leave, or raise, the original (`retry_past_limit`).
-/

namespace Claudear.Engine

open Claudear.Sql Claudear.Storage Claudear.Machine

/-! ## The original row under the tracker's statements -/

/-- The issue's original row. -/
def originalRow (t : FixAttempts) (k : IssueKey) : Option AttemptRow :=
  (t.first (ofOriginal k)).map Prod.snd

section OriginalRow

variable {t : FixAttempts} {k : IssueKey} {r : AttemptRow}

theorem originalRow_eq (hu : UniqueOriginal t) {i : Nat} (hi : t.get i = some r)
    (ho : ofOriginal k (i, r) = true) : originalRow t k = some r := by
  obtain ⟨⟨j, q⟩, hf⟩ := Table.exists_first hi ho
  obtain ⟨hj, hq⟩ := Table.first_get hf
  obtain ⟨-, rfl⟩ := hu.eq hi hj ho hq
  rw [originalRow, hf, Option.map_some]

theorem get_originalRow (h : originalRow t k = some r) :
    ∃ i, t.get i = some r ∧ ofOriginal k (i, r) = true := by
  obtain ⟨⟨i, q⟩, hf, rfl⟩ := Option.map_eq_some_iff.mp h
  exact ⟨i, Table.first_get hf⟩

/-- An `UPDATE` whose clause looks at an original's columns only. -/
theorem originalRow_update {p : Nat × AttemptRow → Bool} {f : AttemptRow → AttemptRow}
    (hk : ∀ r, (f r).key = r.key) (hc : ∀ r, (f r).cascadeRepo = r.cascadeRepo)
    (q : AttemptRow → Bool) (hp : ∀ i r, r.key = k → r.cascadeRepo = none → p (i, r) = q r) :
    originalRow (t.update p f) k = (originalRow t k).map fun r => if q r then f r else r := by
  have hfirst : (t.update p f).first (ofOriginal k) = (t.first (ofOriginal k)).map (Table.setWhere p f) := by
    refine Table.first_update fun r => ?_
    simp only [ofOriginal, ofIssue, Table.setWhere]
    split <;> simp [hk, hc]
  rw [originalRow, hfirst, originalRow]
  cases hf : t.first (ofOriginal k) with
  | none => rfl
  | some r =>
    obtain ⟨i, r⟩ := r
    obtain ⟨hkey, hnone⟩ := ofOriginal_iff.mp (Table.first_get hf).2
    simp only [Option.map_some, Table.setWhere, hp i r hkey hnone]
    split <;> rfl

/-- A statement about another issue. -/
theorem originalRow_update_ne {p : Nat × AttemptRow → Bool} {f : AttemptRow → AttemptRow}
    (hk : ∀ r, (f r).key = r.key) (hc : ∀ r, (f r).cascadeRepo = r.cascadeRepo)
    (hp : ∀ i r, r.key = k → p (i, r) = false) : originalRow (t.update p f) k = originalRow t k := by
  rw [originalRow_update hk hc (fun _ => false) fun i r h _ => hp i r h]
  simp

/-- An unconditional statement about the issue. -/
theorem originalRow_update_self {p : Nat × AttemptRow → Bool} {f : AttemptRow → AttemptRow}
    (hk : ∀ r, (f r).key = r.key) (hc : ∀ r, (f r).cascadeRepo = r.cascadeRepo)
    (hp : ∀ i r, r.key = k → r.cascadeRepo = none → p (i, r) = true) :
    originalRow (t.update p f) k = (originalRow t k).map f := by
  rw [originalRow_update hk hc (fun _ => true) hp]
  simp

end OriginalRow

/-! ## Workers -/

/-- What a worker is at; `failing` has read the attempt for `handle_failure` and not yet
written the decision. -/
inductive Phase where
  | idle
  | running (k : IssueKey)
  | failing (k : IssueKey) (error : String) (attempt : Option FixAttempt)
  deriving DecidableEq

/-- The issue a worker holds. -/
def Phase.key : Phase → Option IssueKey
  | .idle => none
  | .running k | .failing k _ _ => some k

structure Worker where
  listed : List FixAttempt := []
  phase : Phase := .idle

structure State (ω : Type*) where
  table : FixAttempts
  worker : ω → Worker

inductive Step (ω : Type*) where
  | list (w : ω) (nowMs : Int)
  | prepare (w : ω) (attempt : FixAttempt) (now : Timestamp)
  | readFailure (w : ω) (error : String)
  | writeFailure (w : ω) (now : Timestamp)
  | failUncharged (w : ω) (error : String)
  | succeed (w : ω) (prUrl : String)
  | giveUp (w : ω) (reason : String)
  | crash (w : ω)
  | release (now : Timestamp) (staleAfter : Nat)

variable {ω : Type*} [DecidableEq ω]

namespace State

/-- The worker `w` moves to `x` and leaves the table `t`. -/
def move (s : State ω) (w : ω) (t : FixAttempts) (x : Worker) : State ω :=
  ⟨t, Function.update s.worker w x⟩

/-- The issue `w` holds. -/
def holds (s : State ω) (w : ω) : Option IssueKey := (s.worker w).phase.key

/-- The worker reports the outcome of the run it holds. -/
def finish (s : State ω) (w : ω) (mark : IssueKey → FixAttempts) : State ω :=
  match (s.worker w).phase with
  | .running k => s.move w (mark k) { s.worker w with phase := .idle }
  | _ => s

def step (config : RetryConfig) (s : State ω) : Step ω → State ω
  | .list w nowMs =>
    s.move w s.table { s.worker w with listed := config.getReadyRetries nowMs s.table }
  | .prepare w attempt now =>
    if (s.worker w).phase = .idle ∧ attempt ∈ (s.worker w).listed then
      match prepareRetry s.table now attempt.key with
      | .ok t => s.move w t { s.worker w with phase := .running attempt.key }
      | .error _ => s
    else s
  | .readFailure w error =>
    match (s.worker w).phase with
    | .running k =>
      s.move w s.table { s.worker w with phase := .failing k error (s.table.getAttempt k) }
    | _ => s
  | .writeFailure w now =>
    match (s.worker w).phase with
    | .failing k error attempt =>
      let t := match config.failureWrite k error attempt with
        | some op => s.table.exec ⟨now, op⟩
        | none => s.table
      s.move w t { s.worker w with phase := .idle }
    | _ => s
  | .failUncharged w error => s.finish w fun k => s.table.markFailedUncharged k error
  | .succeed w prUrl => s.finish w fun k => s.table.markSuccess k prUrl
  | .giveUp w reason => s.finish w fun k => s.table.markCannotFix k reason
  | .crash w => s.move w s.table {}
  | .release now staleAfter => ⟨(s.table.releaseOrphanedPendingAttempts now staleAfter).2, s.worker⟩

end State

/-! ## The invariant -/

variable {config : RetryConfig} {s : State ω} {w : ω} {k : IssueKey}

@[simp] theorem move_table (t : FixAttempts) (x : Worker) : (s.move w t x).table = t := rfl

@[simp] theorem move_worker_self (t : FixAttempts) (x : Worker) : (s.move w t x).worker w = x :=
  Function.update_self ..

theorem move_worker_ne {w' : ω} (h : w' ≠ w) (t : FixAttempts) (x : Worker) :
    (s.move w t x).worker w' = s.worker w' :=
  Function.update_of_ne h ..

/-- What the workers share: a held attempt is pending and charged, and held once; a listed
attempt that can be prepared has a retry left; a decision is made on the current count. -/
structure Inv (config : RetryConfig) (s : State ω) : Prop where
  unique : UniqueOriginal s.table
  counts : ∀ k r, originalRow s.table k = some r → r.retryCount ≤ config.maxRetries
  held : ∀ w k, s.holds w = some k →
    ∃ r, originalRow s.table k = some r ∧ r.status = .pending ∧ 1 ≤ r.retryCount
  exclusive : ∀ w w' k, s.holds w = some k → s.holds w' = some k → w = w'
  listed : ∀ w, ∀ a ∈ (s.worker w).listed, a.cascadeRepo = none → 0 < config.maxRetries ∧
    ∀ r, originalRow s.table a.key = some r → r.retryable → r.retryCount < config.maxRetries
  read : ∀ w k e a r, (s.worker w).phase = .failing k e (some a) → originalRow s.table k = some r →
    a.retryCount = r.retryCount

/-- A worker's write to the issue `k`, which no other worker holds. -/
theorem Inv.move (h : Inv config s) {t : FixAttempts} {x : Worker} (hu : UniqueOriginal t)
    (hfree : ∀ w' ≠ w, s.holds w' ≠ some k)
    (hother : ∀ k' ≠ k, originalRow t k' = originalRow s.table k')
    (hrow : ∀ r, originalRow t k = some r → r.retryCount ≤ config.maxRetries ∧
      (0 < config.maxRetries → r.retryable → r.retryCount < config.maxRetries))
    (hx : x.phase = .idle ∨ x.phase = .running k ∧
      ∃ r, originalRow t k = some r ∧ r.status = .pending ∧ 1 ≤ r.retryCount)
    (hl : x.listed ⊆ (s.worker w).listed) : Inv config (s.move w t x) := by
  have hself : ∀ k', (s.move w t x).holds w = some k' → k' = k := by
    intro k' hk'
    rcases hx with hx | ⟨hx, -⟩ <;> simp only [State.holds, move_worker_self, hx, Phase.key] at hk'
    · cases hk'
    · exact (Option.some.inj hk').symm
  have hne : ∀ w' ≠ w, ∀ k', (s.move w t x).holds w' = some k' → s.holds w' = some k' ∧ k' ≠ k := by
    intro w' hw' k' hk'
    rw [State.holds, move_worker_ne hw'] at hk'
    exact ⟨hk', fun he => hfree w' hw' (he ▸ hk')⟩
  refine ⟨hu, ?_, ?_, ?_, ?_, ?_⟩
  · intro k' r hr
    by_cases hk : k' = k
    · exact (hrow r (hk ▸ hr)).1
    · exact h.counts k' r (hother k' hk ▸ hr)
  · intro w' k' hw'
    by_cases hw : w' = w
    · subst hw
      obtain rfl := hself k' hw'
      rcases hx with hx | ⟨-, hx⟩
      · simp [State.holds, hx, Phase.key] at hw'
      · exact hx
    · obtain ⟨hw', hk⟩ := hne w' hw k' hw'
      rw [move_table, hother k' hk]
      exact h.held w' k' hw'
  · intro w₁ w₂ k' h₁ h₂
    by_cases hw₁ : w₁ = w <;> by_cases hw₂ : w₂ = w
    · rw [hw₁, hw₂]
    · exact absurd (hself k' (hw₁ ▸ h₁)) (hne w₂ hw₂ k' h₂).2
    · exact absurd (hself k' (hw₂ ▸ h₂)) (hne w₁ hw₁ k' h₁).2
    · exact h.exclusive w₁ w₂ k' (hne w₁ hw₁ k' h₁).1 (hne w₂ hw₂ k' h₂).1
  · intro w' a ha hc
    have hmem : ∃ w'', a ∈ (s.worker w'').listed := by
      by_cases hw : w' = w
      · subst hw
        rw [move_worker_self] at ha
        exact ⟨w', hl ha⟩
      · rw [move_worker_ne hw] at ha
        exact ⟨w', ha⟩
    obtain ⟨w'', ha'⟩ := hmem
    obtain ⟨hpos, hlt⟩ := h.listed w'' a ha' hc
    refine ⟨hpos, fun r hr => ?_⟩
    by_cases hk : a.key = k
    · exact (hrow r (hk ▸ hr)).2 hpos
    · exact hlt r (hother a.key hk ▸ hr)
  · intro w' k' e a r hw' hr
    by_cases hw : w' = w
    · subst hw
      rw [move_worker_self] at hw'
      rcases hx with hx | ⟨hx, -⟩ <;> rw [hx] at hw' <;> cases hw'
    · rw [move_worker_ne hw] at hw'
      have hkey : s.holds w' = some k' := by rw [State.holds, hw', Phase.key]
      have hk : k' ≠ k := fun he => hfree w' hw (he ▸ hkey)
      exact h.read w' k' e a r hw' (hother k' hk ▸ hr)

/-- A worker that writes nothing and holds what it held. -/
theorem Inv.rephase (h : Inv config s) {x : Worker} (hx : x.phase.key = (s.worker w).phase.key)
    (hl : ∀ a ∈ x.listed, a.cascadeRepo = none → 0 < config.maxRetries ∧
      ∀ r, originalRow s.table a.key = some r → r.retryable → r.retryCount < config.maxRetries)
    (hr : ∀ k e a r, x.phase = .failing k e (some a) → originalRow s.table k = some r →
      a.retryCount = r.retryCount) : Inv config (s.move w s.table x) := by
  have hholds : (s.move w s.table x).holds = s.holds := by
    funext w'
    by_cases hw : w' = w
    · subst hw
      rw [State.holds, move_worker_self, hx, State.holds]
    · rw [State.holds, move_worker_ne hw, State.holds]
  refine ⟨h.unique, h.counts, hholds ▸ h.held, hholds ▸ h.exclusive, ?_, ?_⟩
  · intro w'
    by_cases hw : w' = w
    · subst hw
      rw [move_worker_self]
      exact hl
    · rw [move_worker_ne hw]
      exact h.listed w'
  · intro w'
    by_cases hw : w' = w
    · subst hw
      rw [move_worker_self]
      exact hr
    · rw [move_worker_ne hw]
      exact h.read w'

omit [DecidableEq ω] in
theorem Inv.free (h : Inv config s) (hw : s.holds w = some k) : ∀ w' ≠ w, s.holds w' ≠ some k :=
  fun w' hne hw' => hne (h.exclusive w' w k hw' hw)

/-- A worker that reports nothing for the run it held. -/
theorem Inv.drop (h : Inv config s) (hw : s.holds w = some k) {x : Worker} (hx : x.phase = .idle)
    (hl : x.listed ⊆ (s.worker w).listed) : Inv config (s.move w s.table x) := by
  refine h.move h.unique (h.free hw) (fun _ _ => rfl) (fun r hr => ⟨h.counts k r hr, ?_⟩) (.inl hx) hl
  intro _ hret
  obtain ⟨q, hq, hp, -⟩ := h.held w k hw
  obtain rfl : r = q := Option.some.inj (hr.symm.trans hq)
  simp [AttemptRow.retryable, hp] at hret

/-- A worker that reports an outcome for the run it holds. -/
theorem Inv.report (h : Inv config s) (hw : s.holds w = some k) {p : Nat × AttemptRow → Bool}
    {f : AttemptRow → AttemptRow} (hu : UniqueOriginal (s.table.update p f))
    (hk : ∀ r, (f r).key = r.key) (hc : ∀ r, (f r).cascadeRepo = r.cascadeRepo)
    (hself : ∀ i r, r.key = k → r.cascadeRepo = none → p (i, r) = true)
    (hne : ∀ i r, r.key ≠ k → p (i, r) = false)
    (hf : ∀ r, originalRow s.table k = some r → 1 ≤ r.retryCount → r.retryCount ≤ config.maxRetries →
      (f r).retryCount ≤ config.maxRetries ∧
        ((f r).retryable → (f r).retryCount < config.maxRetries)) :
    Inv config (s.move w (s.table.update p f) { s.worker w with phase := .idle }) := by
  refine h.move hu (h.free hw) ?_ ?_ (.inl rfl) (List.Subset.refl _)
  · intro k' hk'
    exact originalRow_update_ne hk hc fun i r hr => hne i r (hr ▸ hk')
  · intro r' hr'
    obtain ⟨r, hr, -, hpos⟩ := h.held w k hw
    rw [originalRow_update_self hk hc hself, hr, Option.map_some, Option.some.injEq] at hr'
    subst hr'
    obtain ⟨hle, hlt⟩ := hf r hr hpos (h.counts k r hr)
    exact ⟨hle, fun _ => hlt⟩

/-! ## One step -/

/-- What keeps the race on the originals: a retry is prepared for a listed original, and takes it
whenever it takes a row of the issue; `handle_failure` reads the original; a release leaves the
attempts that are held, whose heartbeats are fresh. -/
def Settled (s : State ω) : Step ω → Prop
  | .prepare w attempt _ => (s.worker w).phase = .idle → attempt ∈ (s.worker w).listed →
    attempt.cascadeRepo = none ∧ (s.table.any (FixAttempts.retryableOf attempt.key) = true →
      s.table.any (fun r => ofOriginal attempt.key r && r.2.retryable) = true)
  | .readFailure w _ => ∀ k, (s.worker w).phase = .running k → ∀ a, s.table.getAttempt k = some a →
    a.cascadeRepo = none
  | .release now staleAfter => ∀ w k, s.holds w = some k →
    s.table.any (fun r => ofIssue k r && r.2.orphaned (now - staleAfter)) = false
  | _ => True

theorem Inv.list (h : Inv config s) (w : ω) (nowMs : Int) : Inv config (s.step config (.list w nowMs)) := by
  refine h.rephase rfl ?_ (h.read w)
  intro a ha hc
  obtain ⟨i, r, hi, rfl, hf, hlt⟩ := mem_getReadyRetries ha
  have hrow : originalRow s.table r.key = some r :=
    originalRow_eq h.unique hi (ofOriginal_iff.mpr ⟨rfl, hc⟩)
  refine ⟨by omega, fun q hq _ => ?_⟩
  obtain rfl : q = r := Option.some.inj (hq.symm.trans hrow)
  exact hlt

theorem Inv.prepare (h : Inv config s) {w : ω} {attempt : FixAttempt} {now : Timestamp}
    (hs : Settled s (.prepare w attempt now)) : Inv config (s.step config (.prepare w attempt now)) := by
  simp only [State.step]
  split
  · rename_i hready
    obtain ⟨hidle, hmem⟩ := hready
    obtain ⟨hc, hany⟩ := hs hidle hmem
    split
    · rename_i t ht
      obtain ⟨hret, rfl⟩ := FixAttempts.prepareForRetry_ok ht
      obtain ⟨i, r, hi, hr⟩ := Table.any_eq_true.mp (hany hret)
      obtain ⟨ho, hretry⟩ := Bool.and_eq_true_iff.mp hr
      -- the original itself is failed, with a retry left
      have hrow := originalRow_eq h.unique hi ho
      obtain ⟨hpos, hlt⟩ := h.listed w attempt hmem hc
      have hlt := hlt r hrow hretry
      have hnew : originalRow (s.table.update (FixAttempts.retryableOf attempt.key) (·.retry now))
          attempt.key = some (r.retry now) := by
        rw [originalRow_update (f := (·.retry now)) (fun _ => rfl) (fun _ => rfl) AttemptRow.retryable,
          hrow, Option.map_some, if_pos hretry]
        intro j q hq _
        simp [FixAttempts.retryableOf, ofIssue, hq]
      have hu : UniqueOriginal (s.table.update (FixAttempts.retryableOf attempt.key) (·.retry now)) :=
        Table.Unique.update h.unique fun _ _ hkey => hkey
      refine h.move hu ?_ ?_ ?_ (.inr ⟨rfl, _, hnew, rfl, by simp⟩) (List.Subset.refl _)
      · intro w' _ hw'
        obtain ⟨q, hq, hp, -⟩ := h.held w' attempt.key hw'
        obtain rfl : q = r := Option.some.inj (hq.symm.trans hrow)
        simp [AttemptRow.retryable, hp] at hretry
      · intro k' hk'
        refine originalRow_update_ne (fun _ => rfl) (fun _ => rfl) fun j q hq => ?_
        simp [FixAttempts.retryableOf, ofIssue, hq, hk']
      · intro q hq
        obtain rfl : q = r.retry now := Option.some.inj (hq.symm.trans hnew)
        refine ⟨by rw [AttemptRow.retry_retryCount]; omega, fun _ hret => ?_⟩
        simp [AttemptRow.retryable] at hret
    · exact h
  · exact h

theorem Inv.readFailure (h : Inv config s) {w : ω} {error : String}
    (hs : Settled s (.readFailure w error)) : Inv config (s.step config (.readFailure w error)) := by
  simp only [State.step]
  split
  · rename_i k hrun
    refine h.rephase (by simp [hrun, Phase.key]) (h.listed w) ?_
    intro k' e a r hx hr
    simp only [Phase.failing.injEq] at hx
    obtain ⟨rfl, -, ha⟩ := hx
    have hc := hs k hrun a ha
    obtain ⟨⟨i, q⟩, hf, rfl⟩ := Option.map_eq_some_iff.mp ha
    obtain ⟨hi, hk⟩ := Table.first_get hf
    have hrow : originalRow s.table k = some q :=
      originalRow_eq h.unique hi (ofOriginal_iff.mpr ⟨by simpa [ofIssue] using hk, hc⟩)
    obtain rfl : r = q := Option.some.inj (hr.symm.trans hrow)
    rfl
  · exact h

theorem Inv.writeFailure (h : Inv config s) (w : ω) (now : Timestamp) :
    Inv config (s.step config (.writeFailure w now)) := by
  simp only [State.step]
  split
  · rename_i k error attempt hfail
    have hw : s.holds w = some k := by rw [State.holds, hfail, Phase.key]
    split
    · rename_i op hop
      have hu := UniqueOriginal.exec h.unique ⟨now, op⟩
      obtain ⟨a, rfl, ⟨-, reason, rfl⟩ | ⟨hlt, rfl⟩⟩ := failureWrite_cases hop
      · refine h.report hw hu (fun _ => rfl) (fun _ => rfl) ?_ ?_ ?_
        · intro i r hk _
          simp [ofIssue, hk]
        · intro i r hk
          simp [ofIssue, hk]
        · intro r _ _ hle
          exact ⟨hle, by simp [AttemptRow.retryable]⟩
      · refine h.report hw hu (fun _ => rfl) (fun _ => rfl) ?_ ?_ ?_
        · intro i r hk hc
          simp [ofOriginal, ofIssue, hk, hc]
        · intro i r hk
          simp [ofOriginal, ofIssue, hk]
        · -- the count the decision was made on is still the count of the row
          intro r hr _ hle
          have hread := h.read w k error a r hfail hr
          exact ⟨hle, fun _ => by rw [AttemptRow.fail_retryCount]; omega⟩
    · exact h.drop hw rfl (List.Subset.refl _)
  · exact h

/-- The three outcomes a worker reports for the run it holds. -/
theorem Inv.finish (h : Inv config s) {p : IssueKey → Nat × AttemptRow → Bool}
    {f : AttemptRow → AttemptRow} (hu : ∀ k, UniqueOriginal (s.table.update (p k) f))
    (hk : ∀ r, (f r).key = r.key) (hc : ∀ r, (f r).cascadeRepo = r.cascadeRepo)
    (hself : ∀ k i r, r.key = k → r.cascadeRepo = none → p k (i, r) = true)
    (hne : ∀ k i r, r.key ≠ k → p k (i, r) = false)
    (hf : ∀ r, 1 ≤ r.retryCount → r.retryCount ≤ config.maxRetries →
      (f r).retryCount ≤ config.maxRetries ∧
        ((f r).retryable → (f r).retryCount < config.maxRetries)) (w : ω) :
    Inv config (s.finish w fun k => s.table.update (p k) f) := by
  unfold State.finish
  split
  · rename_i k hrun
    have hw : s.holds w = some k := by rw [State.holds, hrun, Phase.key]
    exact h.report hw (hu k) hk hc (hself k) (hne k) fun r _ => hf r
  · exact h

theorem Inv.crash (h : Inv config s) (w : ω) : Inv config (s.step config (.crash w)) := by
  cases hw : s.holds w with
  | some k => exact h.drop hw rfl (List.nil_subset _)
  | none => exact h.rephase hw.symm (by simp) (by simp)

/-! ## The orphan release -/

/-- What the release makes of an original. -/
def released (now : Timestamp) (staleAfter : Nat) (r : AttemptRow) : AttemptRow :=
  if r.orphaned (now - staleAfter) then
    if now - FixAttempts.threeDays < r.attemptedAt then r.failUncharged FixAttempts.interrupted
    else r.giveUp FixAttempts.tooOld
  else r

theorem originalRow_release (t : FixAttempts) (now : Timestamp) (staleAfter : Nat) (k : IssueKey) :
    originalRow (t.releaseOrphanedPendingAttempts now staleAfter).2 k =
      (originalRow t k).map (released now staleAfter) := by
  simp only [FixAttempts.releaseOrphanedPendingAttempts]
  rw [originalRow_update (f := (·.giveUp FixAttempts.tooOld)) (fun _ => rfl) (fun _ => rfl)
      (fun r => FixAttempts.oldOrphan now staleAfter (0, r)) fun _ _ _ _ => rfl,
    originalRow_update (f := (·.failUncharged FixAttempts.interrupted)) (fun _ => rfl) (fun _ => rfl)
      (fun r => FixAttempts.recentOrphan now staleAfter (0, r)) fun _ _ _ _ => rfl, Option.map_map]
  refine congrArg (Option.map · _) (funext fun r => ?_)
  simp only [Function.comp, FixAttempts.recentOrphan, FixAttempts.oldOrphan, released]
  by_cases ho : r.orphaned (now - staleAfter) <;>
    by_cases hr : now - FixAttempts.threeDays < r.attemptedAt
  · simp [ho, hr]
  · simp [ho, hr, Int.not_lt.mp hr]
  · simp [ho]
  · simp [ho]

theorem released_retryable {now : Timestamp} {staleAfter : Nat} {r : AttemptRow}
    (h : (released now staleAfter r).retryable) :
    released now staleAfter r = r ∨ (released now staleAfter r).retryCount = r.retryCount - 1 := by
  unfold released at h ⊢
  split at h
  · split at h
    · exact .inr (by simp [*])
    · simp [AttemptRow.retryable] at h
  · exact .inl (by simp [*])

theorem released_retryCount (now : Timestamp) (staleAfter : Nat) (r : AttemptRow) :
    (released now staleAfter r).retryCount ≤ r.retryCount := by
  unfold released
  split_ifs <;> simp

theorem Inv.release (h : Inv config s) {now : Timestamp} {staleAfter : Nat}
    (hs : Settled s (.release now staleAfter)) : Inv config (s.step config (.release now staleAfter)) := by
  have hrow : ∀ k r', originalRow (s.step config (.release now staleAfter)).table k = some r' →
      ∃ r, originalRow s.table k = some r ∧ released now staleAfter r = r' := by
    intro k r' hr'
    exact Option.map_eq_some_iff.mp ((originalRow_release ..).symm.trans hr')
  -- a held attempt is not orphaned
  have hheld : ∀ w k, s.holds w = some k →
      originalRow (s.step config (.release now staleAfter)).table k = originalRow s.table k := by
    intro w k hw
    obtain ⟨r, hr, -⟩ := h.held w k hw
    obtain ⟨i, hi, ho⟩ := get_originalRow hr
    have hno : r.orphaned (now - staleAfter) = false := by
      by_contra hor
      have hk : ofIssue k (i, r) = true := by simpa [ofIssue] using (ofOriginal_iff.mp ho).1
      have hany : (s.table.any fun r => ofIssue k r && r.2.orphaned (now - staleAfter)) = true :=
        Table.any_eq_true.mpr ⟨i, r, hi, Bool.and_eq_true_iff.mpr ⟨hk, by simpa using hor⟩⟩
      rw [hs w k hw] at hany
      cases hany
    refine (originalRow_release ..).trans ?_
    rw [hr, Option.map_some, released, hno]
    rfl
  refine ⟨UniqueOriginal.exec h.unique ⟨now, .releaseOrphanedPendingAttempts staleAfter⟩, ?_, ?_,
    h.exclusive, ?_, ?_⟩
  · intro k r' hr'
    obtain ⟨r, hr, rfl⟩ := hrow k r' hr'
    exact (released_retryCount now staleAfter r).trans (h.counts k r hr)
  · intro w k hw
    rw [hheld w k hw]
    exact h.held w k hw
  · intro w a ha hc
    obtain ⟨hpos, hlt⟩ := h.listed w a ha hc
    refine ⟨hpos, fun r' hr' hret => ?_⟩
    obtain ⟨r, hr, rfl⟩ := hrow a.key r' hr'
    rcases released_retryable hret with he | he
    · rw [he] at hret ⊢
      exact hlt r hr hret
    · have hle := h.counts a.key r hr
      omega
  · intro w k e a r hw hr
    have hw : (s.worker w).phase = .failing k e (some a) := hw
    have hk : s.holds w = some k := by rw [State.holds, hw, Phase.key]
    exact h.read w k e a r hw (hheld w k hk ▸ hr)

/-! ## Runs -/

theorem Inv.step (h : Inv config s) (a : Step ω) (hs : Settled s a) : Inv config (s.step config a) := by
  have hu : ∀ op, UniqueOriginal (s.table.exec ⟨0, op⟩) := fun op => UniqueOriginal.exec h.unique _
  cases a with
  | list w nowMs => exact h.list w nowMs
  | prepare w attempt now => exact h.prepare hs
  | readFailure w error => exact h.readFailure hs
  | writeFailure w now => exact h.writeFailure w now
  | failUncharged w error =>
    refine h.finish (p := ofOriginal) (fun k => hu (.markFailedUncharged k error)) (fun _ => rfl)
      (fun _ => rfl) (fun k i r hk hc => ofOriginal_iff.mpr ⟨hk, hc⟩) ?_ ?_ w
    · intro k i r hk
      simp [ofOriginal, ofIssue, hk]
    · intro r hpos hle
      exact ⟨by rw [AttemptRow.failUncharged_retryCount]; omega,
        fun _ => by rw [AttemptRow.failUncharged_retryCount]; omega⟩
  | succeed w prUrl =>
    refine h.finish (p := ofOriginal) (fun k => hu (.markSuccess k prUrl)) (fun _ => rfl)
      (fun _ => rfl) (fun k i r hk hc => ofOriginal_iff.mpr ⟨hk, hc⟩) ?_ ?_ w
    · intro k i r hk
      simp [ofOriginal, ofIssue, hk]
    · intro r _ hle
      exact ⟨hle, by simp [AttemptRow.retryable]⟩
  | giveUp w reason =>
    refine h.finish (p := ofIssue) (fun k => hu (.markCannotFix k reason)) (fun _ => rfl)
      (fun _ => rfl) ?_ ?_ ?_ w
    · intro k i r hk _
      simp [ofIssue, hk]
    · intro k i r hk
      simp [ofIssue, hk]
    · intro r _ hle
      exact ⟨hle, by simp [AttemptRow.retryable]⟩
  | crash w => exact h.crash w
  | release now staleAfter => exact h.release hs

/-- No original has been retried too often, and an attempt is held by one worker at most, from
the step that takes it out of `failed` or `closed` to the report of its outcome. -/
structure RetriesBounded (config : RetryConfig) (s : State ω) : Prop where
  counts : ∀ i r, s.table.get i = some r → r.cascadeRepo = none → r.retryCount ≤ config.maxRetries
  exclusive : ∀ w w' k, s.holds w = some k → s.holds w' = some k → w = w'
  pending : ∀ w k i r, s.holds w = some k → s.table.get i = some r → ofOriginal k (i, r) = true →
    r.status = .pending

omit [DecidableEq ω] in
theorem Inv.retriesBounded (h : Inv config s) : RetriesBounded config s where
  counts i r hi hc := h.counts r.key r (originalRow_eq h.unique hi (ofOriginal_iff.mpr ⟨rfl, hc⟩))
  exclusive := h.exclusive
  pending w k i r hw hi ho := by
    obtain ⟨q, hq, hp, -⟩ := h.held w k hw
    obtain rfl : q = r := Option.some.inj (hq.symm.trans (originalRow_eq h.unique hi ho))
    exact hp

/-- Before any worker has listed a retry. -/
def start (t : FixAttempts) : State ω := ⟨t, fun _ => {}⟩

omit [DecidableEq ω] in
theorem inv_start {t : FixAttempts} (hu : UniqueOriginal t)
    (hc : ∀ i r, t.get i = some r → r.cascadeRepo = none → r.retryCount ≤ config.maxRetries) :
    Inv config (start t : State ω) := by
  refine ⟨hu, ?_, ?_, ?_, ?_, ?_⟩
  · intro k r hr
    obtain ⟨i, hi, ho⟩ := get_originalRow hr
    exact hc i r hi (ofOriginal_iff.mp ho).2
  · intro w k hw
    cases hw
  · intro w w' k hw
    cases hw
  · intro w a ha
    cases ha
  · intro w k e a r hw
    cases hw

/-- Whatever the number of workers and the order of their steps, a run that keeps the race on the
originals retries none of them more than `max_retries` times. -/
theorem retries_bounded (config : RetryConfig) (t : FixAttempts) (hu : UniqueOriginal t)
    (hc : ∀ i r, t.get i = some r → r.cascadeRepo = none → r.retryCount ≤ config.maxRetries)
    (l : List (Step ω)) (hs : Along (State.step config) Settled (start t) l) :
    Always (State.step config) (RetriesBounded config) (start t) l := by
  rw [always_iff_run]
  rintro pre ⟨rest, rfl⟩
  exact ((along_append.mp hs).1.inv (fun _ a h => h.step a) (inv_start hu hc)).retriesBounded

/-- Two workers, of which the first retries a failed attempt. -/
theorem retries_bounded_once :
    Always (State.step ⟨1, 0, 0⟩) (RetriesBounded ⟨1, 0, 0⟩) (start (tracked
        [⟨0, .recordAttemptWithLabels ⟨"linear", "ENG-1"⟩ "ENG-1" []⟩,
          ⟨1, .markFailed ⟨"linear", "ENG-1"⟩ "tests fail"⟩]) : State Bool)
      [.list false 9000, .prepare false (rowToFixAttempt (1,
        { key := ⟨"linear", "ENG-1"⟩, shortId := "ENG-1", attemptedAt := 0, status := .failed,
          errorMessage := some "tests fail" })) 9] := by
  refine retries_bounded ⟨1, 0, 0⟩ _ (uniqueOriginal_tracked _) ?_ _ ⟨trivial, ?_, trivial⟩
  · intro i r hi
    exact Table.forall_get (P := fun r => r.2.cascadeRepo = none → r.2.retryCount ≤ 1) (by decide) i r hi
  · intro _ _
    exact ⟨rfl, by decide⟩

/-- A fix that regressed after its merge and was closed on its only retry, beside a cascade row
that failed meanwhile. -/
def closedOnRetry : List Call :=
  [⟨0, .recordAttemptWithLabels ⟨"linear", "ENG-1"⟩ "ENG-1" []⟩,
    ⟨1, .markSuccess ⟨"linear", "ENG-1"⟩ "https://github.com/org/app/pull/1"⟩,
    ⟨2, .markMerged ⟨"linear", "ENG-1"⟩⟩,
    ⟨3, .recordCascadeAttempt ⟨"linear", "ENG-1"⟩ "ENG-1" 1 "org/client"⟩,
    ⟨4, .markFailed ⟨"linear", "ENG-1"⟩ "Regression detected after merge"⟩,
    ⟨5, .prepareForRetry ⟨"linear", "ENG-1"⟩⟩,
    ⟨6, .markSuccess ⟨"linear", "ENG-1"⟩ "https://github.com/org/app/pull/2"⟩,
    ⟨7, .markCascadeFailed 2 "build fails"⟩,
    ⟨8, .markClosed ⟨"linear", "ENG-1"⟩⟩]

/-- A worker lists the failed cascade row, and its retry takes the closed original with it. -/
theorem retry_past_limit :
    ((tracked closedOnRetry).get 1).map (·.retryCount) = some 1 ∧
      ¬ Always (State.step ⟨1, 0, 0⟩) (RetriesBounded ⟨1, 0, 0⟩)
        (start (tracked closedOnRetry) : State Unit)
        [.list () 9000, .prepare () (rowToFixAttempt (2,
          { key := ⟨"linear", "ENG-1"⟩, shortId := "ENG-1", attemptedAt := 3,
            parentAttemptId := some 1, cascadeRepo := some "org/client", status := .failed,
            errorMessage := some "build fails" })) 9] := by
  refine ⟨by decide, ?_⟩
  rintro ⟨-, -, h⟩
  have hle := h.counts 1 (AttemptRow.retry 9
    { key := ⟨"linear", "ENG-1"⟩, shortId := "ENG-1", attemptedAt := 5, prUrl := none,
      mergedAt := some 2, retryCount := 1, lastRetryAt := some 5 }) (by decide) rfl
  revert hle
  decide

end Claudear.Engine
