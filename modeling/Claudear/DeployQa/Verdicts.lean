import Claudear.DeployQa.Workers

/-!
# Verdicts stand

A tip's row does not say which run holds it. A `Watch` adds that: which runs a
stale sweep has taken their tip off, and whose run gave a tip its verdict. A run
holds its tip from its claim until it ends or a sweep takes the tip.

While no run reports or releases a tip that was taken off it, runs only write
what they hold, and a verdict stays until the run that gave it gives another.
The report is stored unconditionally, and the release asks only whether the tip is
running, so the first run to outlast the sweep can do both.
-/

namespace Claudear.DeployQa

open Claudear.Sql Claudear.Storage Claudear.Machine

structure Watch (ω : Type*) where
  state : State ω
  /-- A stale sweep has taken its tip off the worker's run. -/
  swept : ω → Bool
  /-- The worker whose run, still going, gave the tip its verdict. -/
  judge : Nat → Option ω

/-- The worker of a run's report, or of its release. -/
def Step.writer {ω : Type*} : Step ω → Option ω
  | .report w _ | .recordDiscordIds w _ _ _ | .release w _ => some w
  | _ => none

variable {ω : Type*} [DecidableEq ω]

namespace Watch

def initial : Watch ω := ⟨.initial, fun _ => false, fun _ => none⟩

/-- The sweep matches the tip the worker has claimed. -/
def loses (g : Watch ω) (now : Timestamp) (staleAfter : Nat) (w : ω) : Bool :=
  (g.state.phase w).claimed.any fun id => (g.state.tips.get id).any fun r => stale now staleAfter (id, r)

def sweptBy (g : Watch ω) : Step ω → ω → Bool
  | .claim w _ =>
    match g.state.phase w with
    | .found _ _ => Function.update g.swept w false
    | _ => g.swept
  | .sweep now staleAfter => fun w => g.swept w || g.loses now staleAfter w
  | _ => g.swept

/-- The worker's run ends. -/
def forget (g : Watch ω) (w : ω) (id : Nat) : Option ω := if g.judge id = some w then none else g.judge id

def judgeBy (g : Watch ω) : Step ω → Nat → Option ω
  | .report w _ =>
    match g.state.phase w with
    | .judging _ _ reported _ => Function.update g.judge reported (some w)
    | _ => g.judge
  | .release w _ =>
    match g.state.phase w with
    | .holding _ _ => g.forget w
    | _ => g.judge
  | .crash w => g.forget w
  | _ => g.judge

def step (config : DeployQaConfig) (g : Watch ω) (st : Step ω) : Watch ω :=
  ⟨g.state.step config st, g.sweptBy st, g.judgeBy st⟩

/-- The worker's run has claimed the tip, and no sweep has taken it off the run. -/
def Holds (g : Watch ω) (w : ω) (id : Nat) : Prop :=
  (g.state.phase w).claimed = some id ∧ g.swept w = false

/-- A run that has lost its tip reports on it, or releases it while it is running. -/
def late (g : Watch ω) : Step ω → Bool
  | .report w _ =>
    match g.state.phase w with
    | .judging _ _ _ _ => g.swept w
    | _ => false
  | .release w _ =>
    match g.state.phase w with
    | .holding id _ => g.swept w && g.state.tips.any (ofIdStatus id .running)
    | _ => false
  | _ => false

/-- What a step may do to the tips. -/
structure Stands (config : DeployQaConfig) (g : Watch ω) (st : Step ω) : Prop where
  /-- A tip is never lost. -/
  kept : ∀ i r, g.state.tips.get i = some r → ∃ r', (g.step config st).state.tips.get i = some r' ∧
    r'.track = r.track ∧ r'.tag = r.tag
  /-- And is the only one of its track and tag. -/
  one : ∀ i j r q, (g.step config st).state.tips.get i = some r →
    (g.step config st).state.tips.get j = some q → r.track = q.track → r.tag = q.tag → i = j
  /-- A report or a release changes what its run holds. -/
  held : ∀ w, st.writer = some w → ∀ i, (g.step config st).state.tips.get i ≠ g.state.tips.get i →
    g.Holds w i
  /-- A verdict is replaced by nobody but the run that gave it, and by another verdict. -/
  stands : ∀ i r, g.state.tips.get i = some r → r.status.isVerdict = true →
    ∀ r', (g.step config st).state.tips.get i = some r' → r'.status ≠ r.status →
      r'.status.isVerdict = true ∧ ∃ w, st.writer = some w ∧ g.judge i = some w

end Watch

variable {config : DeployQaConfig} {g : Watch ω} {st : Step ω} {w : ω}

@[simp] theorem watch_state : (g.step config st).state = g.state.step config st := rfl

/-! ## The invariant -/

/-- The tip and the issue of a run that has claimed one. -/
def Phase.claim : Phase → Option (Nat × String)
  | .holding id issueId | .judging id issueId _ _ | .posted id issueId _ => some (id, issueId)
  | _ => none

/-- The tip a report is about. -/
def Phase.reported : Phase → Option Nat
  | .judging _ _ reported _ | .posted _ _ reported => some reported
  | _ => none

theorem Phase.claim_of_claimed {x : Phase} {id : Nat} (h : x.claimed = some id) :
    ∃ issueId, x.claim = some (id, issueId) := by
  cases x <;> cases h <;> exact ⟨_, rfl⟩

structure WatchInv (g : Watch ω) : Prop where
  indexed : Tips.Indexed g.state.tips
  found : ∀ w id tip, g.state.phase w = .found id tip → tip.status.isRunnable = true ∧
    ∃ r, g.state.tips.get id = some r ∧ r.issueId = tip.issueId
  claim : ∀ w id issueId, (g.state.phase w).claim = some (id, issueId) →
    ∃ r, g.state.tips.get id = some r ∧ r.issueId = issueId
  reported : ∀ w id, (g.state.phase w).reported = some id → (g.state.phase w).claimed = some id
  /-- A held tip is running, or has its verdict from the run that holds it. -/
  held : ∀ w id r, g.Holds w id → g.state.tips.get id = some r →
    r.status = .running ∨ r.status.isVerdict = true ∧ g.judge id = some w
  unique : ∀ w w' id, g.Holds w id → g.Holds w' id → w = w'
  /-- A run that has stored its verdict still holds its tip. -/
  posted : ∀ w id issueId reported, g.state.phase w = .posted id issueId reported → g.swept w = false ∧
    ∃ r, g.state.tips.get reported = some r ∧ r.status.isVerdict = true

omit [DecidableEq ω] in
theorem watchInv_initial : WatchInv (Watch.initial : Watch ω) where
  indexed := Tips.indexed_empty
  found _ _ _ h := by cases h
  claim _ _ _ h := by cases h
  reported _ _ h := by cases h
  held _ _ _ h _ := by cases h.1
  unique _ _ _ h _ := by cases h.1
  posted _ _ _ _ h := by cases h

/-! ## One step -/

omit [DecidableEq ω] in
theorem WatchInv.held_not_runnable (h : WatchInv g) {id : Nat} {r : DeployQaTip} (hw : g.Holds w id)
    (hr : g.state.tips.get id = some r) : r.status.isRunnable = false := by
  rcases h.held w id r hw hr with hs | ⟨hs, -⟩
  · rw [hs]
    rfl
  · exact DeployQaTipStatus.isRunnable_of_isVerdict hs

/-- A sweep, and the next claim, are all that changes whether a run has lost its tip. -/
theorem swept_before {id : Nat} (hc : (g.state.phase w).claimed = some id)
    (hs : (g.step config st).swept w = false) : g.swept w = false := by
  cases st with
  | claim w' now =>
    cases hp : g.state.phase w' with
    | found id' tip =>
      have hw : w ≠ w' := by
        rintro rfl
        rw [hp] at hc
        cases hc
      simp only [Watch.step, Watch.sweptBy, hp] at hs
      rwa [Function.update_of_ne hw] at hs
    | _ =>
      simp only [Watch.step, Watch.sweptBy, hp] at hs
      exact hs
  | sweep now staleAfter => exact (Bool.or_eq_false_iff.mp hs).1
  | _ => exact hs

/-- What a run holds after a step it has held before, or has claimed in it. -/
theorem holds_before {id : Nat} (hw : (g.step config st).Holds w id) :
    g.Holds w id ∨ ∃ now tip, st = .claim w now ∧ g.state.phase w = .found id tip ∧
      g.state.tips.any (ofIdStatus id tip.status) = true := by
  obtain ⟨hc, hs⟩ := hw
  have hbefore (hc : (g.state.phase w).claimed = some id) : g.Holds w id := ⟨hc, swept_before hc hs⟩
  cases step_moved config g.state st w with
  | same hx =>
    rw [watch_state, hx] at hc
    exact .inl (hbefore hc)
  | unclaimed hx | found hg hr hx =>
    rw [watch_state, hx] at hc
    cases hc
  | claimed hst hp hany hx =>
    rw [watch_state, hx] at hc
    obtain rfl := Option.some.inj hc
    exact .inr ⟨_, _, hst, hp, hany⟩
  | judging hp hg hi hx | posted hst hp hx | recorded hp hx =>
    rw [watch_state, hx] at hc
    exact .inl (hbefore (hp ▸ hc))

omit [DecidableEq ω] in
/-- A run that reports, or releases a running tip, still holds it. -/
theorem holds_of_report (h : WatchInv g) {now : Timestamp} {id reported : Nat} {issueId : String}
    {verdict : DeployQaVerdict} (hp : g.state.phase w = .judging id issueId reported verdict)
    (hl : g.late (.report w now) = false) : g.Holds w reported := by
  refine ⟨h.reported w reported (by rw [hp, Phase.reported]), ?_⟩
  simpa only [Watch.late, hp] using hl

omit [DecidableEq ω] in
theorem holds_of_release {now : Timestamp} {id : Nat} {issueId : String} {r : DeployQaTip}
    (hp : g.state.phase w = .holding id issueId) (hr : g.state.tips.get id = some r)
    (hs : r.status = .running) (hl : g.late (.release w now) = false) : g.Holds w id := by
  refine ⟨by rw [hp, Phase.claimed], ?_⟩
  have hany : g.state.tips.any (ofIdStatus id .running) = true :=
    Table.any_eq_true.mpr ⟨id, r, hr, by simp [ofIdStatus, ofId, hs]⟩
  simpa only [Watch.late, hp, hany, Bool.and_true] using hl

/-- What a step makes of a tip: who it was written by, and what became of its status. -/
inductive Became (g : Watch ω) (st : Step ω) (id : Nat) (r r' : DeployQaTip) : Prop
  | same (h : r' = r)
  | claimed {w : ω} {now : Timestamp} {tip : DeployQaTip} (hst : st = .claim w now)
      (hp : g.state.phase w = .found id tip) (hr : r.status.isRunnable = true) (h : r'.status = .running)
  | linked (hw : st.writer = none) (hr : r.status = .running) (h : r'.status = .running)
  | reported {w : ω} {now : Timestamp} {tip reported : Nat} {issueId : String} {verdict : DeployQaVerdict}
      (hst : st = .report w now) (hp : g.state.phase w = .judging tip issueId reported verdict)
      (hw : g.Holds w id) (h : r'.status.isVerdict = true)
  | recorded {w : ω} {issueId : String} {tip : Nat} (hst : st.writer = some w)
      (hp : g.state.phase w = .posted tip issueId id) (h : r'.status = r.status)
  | released {w : ω} {now : Timestamp} {issueId : String} (hst : st = .release w now)
      (hp : g.state.phase w = .holding id issueId) (hw : g.Holds w id) (hr : r.status = .running) (h : r'.status = .errored)
  | swept {now : Timestamp} {staleAfter : Nat} (hst : st = .sweep now staleAfter)
      (hp : stale now staleAfter (id, r) = true) (h : r'.status = .errored)

theorem ofId_eq {i id : Nat} {r : DeployQaTip} (h : ofId id (i, r) = true) : i = id :=
  of_decide_eq_true h

theorem ofIdStatus_iff {i id : Nat} {r : DeployQaTip} {status : DeployQaTipStatus} :
    ofIdStatus id status (i, r) = true ↔ i = id ∧ r.status = status := by
  simp [ofIdStatus, ofId]

theorem WatchInv.became (h : WatchInv g) (hl : g.late st = false) {id : Nat} {r r' : DeployQaTip}
    (hr : g.state.tips.get id = some r) (hr' : (g.step config st).state.tips.get id = some r') :
    Became g st id r r' := by
  have hupdate {p : Nat × DeployQaTip → Bool} {f : DeployQaTip → DeployQaTip}
      (hr' : (g.state.tips.update p f).get id = some r') : p (id, r) = true ∧ r' = f r ∨ r' = r := by
    obtain ⟨q, hq, ⟨hp, rfl⟩ | ⟨-, rfl⟩⟩ := Table.get_update_cases hr'
    · obtain rfl := Option.some.inj (hr.symm.trans hq)
      exact .inl ⟨hp, rfl⟩
    · exact .inr (Option.some.inj (hq.symm.trans hr))
  cases step_change config g.state st with
  | same he =>
    rw [watch_state, he, hr] at hr'
    exact .same (Option.some.inj hr').symm
  | inserted _ _ _ _ he =>
    rw [watch_state, he, Table.get_insert_of hr] at hr'
    exact .same (Option.some.inj hr').symm
  | claimed hst hp he =>
    rw [watch_state, he] at hr'
    rcases hupdate hr' with ⟨ho, rfl⟩ | rfl
    · obtain ⟨rfl, hs⟩ := ofIdStatus_iff.mp ho
      exact .claimed hst hp (hs ▸ (h.found _ _ _ hp).1) rfl
    · exact .same rfl
  | rewritten hrw he =>
    rw [watch_state, he] at hr'
    rcases hupdate hr' with ⟨ho, rfl⟩ | rfl
    · cases hrw with
      | link now attemptId hp => exact .linked rfl (ofIdStatus_iff.mp ho).2 rfl
      | report now hp =>
        obtain rfl := ofId_eq ho
        exact .reported rfl hp (holds_of_report h hp hl) (tipStatus_isVerdict _)
      | recordDiscordIds now messageId threadId hp =>
        obtain rfl := ofId_eq ho
        exact .recorded rfl hp rfl
      | release now hp =>
        obtain ⟨rfl, hs⟩ := ofIdStatus_iff.mp ho
        exact .released rfl hp (holds_of_release hp hr hs hl) hs rfl
      | sweep now staleAfter => exact .swept rfl ho rfl
    · exact .same rfl

omit [DecidableEq ω] in
theorem isVerdict_of_became {id : Nat} {r r' : DeployQaTip} (h : Became g st id r r')
    (hr : r.status.isVerdict = true) : r'.status.isVerdict = true := by
  have hnot {x : DeployQaTipStatus} (hx : x.isVerdict = false) (hs : r.status = x) : False := by
    rw [hs, hx] at hr
    cases hr
  cases h with
  | same h => exact h ▸ hr
  | claimed _ _ hrun =>
    rw [DeployQaTipStatus.isRunnable_of_isVerdict hr] at hrun
    cases hrun
  | linked _ hs => exact (hnot rfl hs).elim
  | reported _ _ _ h => exact h
  | recorded _ _ h => exact h ▸ hr
  | released _ _ _ hs => exact (hnot rfl hs).elim
  | swept _ hp => exact (hnot rfl (of_decide_eq_true (Bool.and_eq_true_iff.mp hp).1)).elim

/-- A run that goes on holding its tip stays the judge of it. -/
theorem WatchInv.judge_after (h : WatchInv g) (hl : g.late st = false) {id : Nat} (hw : g.Holds w id)
    (hw' : (g.step config st).Holds w id) (hj : g.judge id = some w) :
    (g.step config st).judge id = some w := by
  have hforget {w' : ω} (hidle : (g.step config st).state.phase w' = .idle) : g.forget w' id = some w := by
    rw [Watch.forget, hj, if_neg]
    intro he
    obtain rfl := Option.some.inj he
    have hc := hw'.1
    rw [hidle] at hc
    cases hc
  cases st with
  | report w' now =>
    cases hp : g.state.phase w' with
    | judging id' issueId reported verdict =>
      simp only [Watch.step, Watch.judgeBy, hp]
      by_cases he : id = reported
      · subst he
        rw [Function.update_self, h.unique w' w id (holds_of_report h hp hl) hw]
      · rw [Function.update_of_ne he, hj]
    | _ =>
      simp only [Watch.step, Watch.judgeBy, hp]
      exact hj
  | release w' now =>
    cases hp : g.state.phase w' with
    | holding id' issueId =>
      simp only [Watch.step, Watch.judgeBy, hp]
      exact hforget (by simp [State.step, hp])
    | _ =>
      simp only [Watch.step, Watch.judgeBy, hp]
      exact hj
  | crash w' => exact hforget (by simp [State.step])
  | _ => exact hj

theorem WatchInv.held_after (h : WatchInv g) (hl : g.late st = false) {id : Nat} {r' : DeployQaTip}
    (hw' : (g.step config st).Holds w id) (hr' : (g.step config st).state.tips.get id = some r') :
    r'.status = .running ∨ r'.status.isVerdict = true ∧ (g.step config st).judge id = some w := by
  rcases holds_before hw' with hw | ⟨now, tip, rfl, hp, hany⟩
  · obtain ⟨issueId, hc⟩ := Phase.claim_of_claimed hw.1
    obtain ⟨r, hr, -⟩ := h.claim w id issueId hc
    have hb := h.became hl hr hr'
    have hbefore (hs : r'.status = r.status) :
        r'.status = .running ∨ r'.status.isVerdict = true ∧ (g.step config st).judge id = some w := by
      rw [hs]
      exact (h.held w id r hw hr).imp_right fun hv => ⟨hv.1, h.judge_after hl hw hw' hv.2⟩
    cases hb with
    | same he => exact hbefore (he ▸ rfl)
    | claimed _ _ hrun =>
      rw [h.held_not_runnable hw hr] at hrun
      cases hrun
    | linked _ _ hs => exact .inl hs
    | reported hst hp hheld hs =>
      obtain rfl := h.unique _ _ id hw hheld
      refine .inr ⟨hs, ?_⟩
      subst hst
      obtain rfl : _ = id := Option.some.inj ((h.reported w _ (by rw [hp, Phase.reported])).symm.trans hw.1)
      simp [Watch.step, Watch.judgeBy, hp]
    | recorded _ _ hs => exact hbefore hs
    | released hst hp hheld =>
      -- its run would have ended
      obtain rfl := h.unique _ _ id hw hheld
      subst hst
      have hc := hw'.1
      rw [show (g.step config (.release w _)).state.phase w = .idle by simp [State.step, hp]] at hc
      cases hc
    | swept hst hp =>
      -- and would have lost it
      subst hst
      have hs := (Bool.or_eq_false_iff.mp hw'.2).2
      simp only [Watch.loses, hw.1, Option.any_some, hr, hp] at hs
      cases hs
  · obtain ⟨id', r, hr, ho⟩ := Table.any_eq_true.mp hany
    obtain ⟨rfl, hs⟩ := ofIdStatus_iff.mp ho
    have ht : (g.step config (.claim w now)).state.tips =
        g.state.tips.update (ofIdStatus id' tip.status) (·.setStatus now .running none) := by
      simp only [watch_state, State.step, hp, move_tips]
      rfl
    rw [ht, Table.get_update_of hr ho] at hr'
    obtain rfl := Option.some.inj hr'
    exact .inl rfl

theorem WatchInv.unique_after (h : WatchInv g) {w' : ω} {id : Nat} (hw : (g.step config st).Holds w id)
    (hw' : (g.step config st).Holds w' id) : w = w' := by
  have hclaim {w w' : ω} {tip : DeployQaTip} (hw : g.Holds w id)
      (hp : g.state.phase w' = .found id tip)
      (hany : g.state.tips.any (ofIdStatus id tip.status) = true) : False := by
    obtain ⟨id', r, hr, ho⟩ := Table.any_eq_true.mp hany
    obtain ⟨rfl, hs⟩ := ofIdStatus_iff.mp ho
    have hrun := (h.found w' _ tip hp).1
    rw [← hs, h.held_not_runnable hw hr] at hrun
    cases hrun
  rcases holds_before hw with hw | ⟨now, tip, hst, hp, hany⟩ <;>
    rcases holds_before hw' with hw' | ⟨now', tip', hst', hp', hany'⟩
  · exact h.unique w w' id hw hw'
  · exact (hclaim hw hp' hany').elim
  · exact (hclaim hw' hp hany).elim
  · rw [hst] at hst'
    cases hst'
    rfl

/-- A run loses its tip to a sweep that matches it, and to nothing else. -/
theorem swept_after (hs : g.swept w = false)
    (hsweep : ∀ now staleAfter, st = .sweep now staleAfter → g.loses now staleAfter w = false) :
    (g.step config st).swept w = false := by
  cases st with
  | claim w' now =>
    cases hp : g.state.phase w' with
    | found id tip =>
      simp only [Watch.step, Watch.sweptBy, hp]
      by_cases hw : w = w'
      · rw [hw, Function.update_self]
      · rw [Function.update_of_ne hw, hs]
    | _ =>
      simp only [Watch.step, Watch.sweptBy, hp]
      exact hs
  | sweep now staleAfter => exact Bool.or_eq_false_iff.mpr ⟨hs, hsweep now staleAfter rfl⟩
  | _ => exact hs

theorem WatchInv.posted_after (h : WatchInv g) (hl : g.late st = false) {id reported : Nat}
    {issueId : String} (hp' : (g.step config st).state.phase w = .posted id issueId reported) :
    (g.step config st).swept w = false ∧
      ∃ r, (g.step config st).state.tips.get reported = some r ∧ r.status.isVerdict = true := by
  cases step_moved config g.state st w with
  | same hx =>
    rw [watch_state, hx] at hp'
    obtain ⟨hs, r, hr, hv⟩ := h.posted w id issueId reported hp'
    obtain ⟨r', hr', -⟩ := (step_change config g.state st).kept hr
    refine ⟨swept_after hs fun now staleAfter _ => ?_, r', hr', isVerdict_of_became (h.became hl hr hr') hv⟩
    -- the sweep only matches running tips
    have hc : (g.state.phase w).claimed = some reported := h.reported w reported (by rw [hp', Phase.reported])
    have hrun : r.status ≠ .running := by
      intro he
      rw [he] at hv
      cases hv
    simp [Watch.loses, hc, hr, stale, hrun]
  | posted hst hp hx =>
    rename_i now id' reported' issueId' verdict
    rw [watch_state, hx] at hp'
    cases hp'
    subst hst
    have hw := holds_of_report h hp hl
    obtain ⟨issue, hc⟩ := Phase.claim_of_claimed hw.1
    obtain ⟨r, hr, -⟩ := h.claim w reported issue hc
    refine ⟨hw.2, r.setStatus now (tipStatus verdict) none, ?_, tipStatus_isVerdict verdict⟩
    have ht : (g.step config (.report w now)).state.tips =
        g.state.tips.updateDeployQaTipStatus now reported (tipStatus verdict) none := by
      simp only [watch_state, State.step, hp, move_tips]
    rw [ht, Tips.updateDeployQaTipStatus]
    exact Table.get_update_of hr (by simp [ofId])
  | unclaimed hx =>
    rw [watch_state] at hp'
    rw [hp'] at hx
    cases hx
  | found _ _ hx | claimed _ _ _ hx | judging _ _ _ hx | recorded _ hx =>
    rw [watch_state, hx] at hp'
    cases hp'

theorem WatchInv.found_after (h : WatchInv g) {id : Nat} {tip : DeployQaTip}
    (hp' : (g.step config st).state.phase w = .found id tip) : tip.status.isRunnable = true ∧
      ∃ r, (g.step config st).state.tips.get id = some r ∧ r.issueId = tip.issueId := by
  have hkept {r : DeployQaTip} (hr : g.state.tips.get id = some r) (hi : r.issueId = tip.issueId) :
      ∃ r, (g.step config st).state.tips.get id = some r ∧ r.issueId = tip.issueId := by
    obtain ⟨r', hr', hs⟩ := (step_change config g.state st).kept hr
    exact ⟨r', hr', hs.2.2.trans hi⟩
  cases step_moved config g.state st w with
  | same hx =>
    rw [watch_state, hx] at hp'
    obtain ⟨hrun, r, hr, hi⟩ := h.found w id tip hp'
    exact ⟨hrun, hkept hr hi⟩
  | found hg hr hx =>
    rw [watch_state, hx] at hp'
    cases hp'
    exact ⟨hr, hkept hg rfl⟩
  | unclaimed _ hf => exact absurd hp' (hf id tip)
  | claimed _ _ _ hx | judging _ _ _ hx | posted _ _ hx | recorded _ hx =>
    rw [watch_state, hx] at hp'
    cases hp'

theorem WatchInv.claim_after (h : WatchInv g) {id : Nat} {issueId : String}
    (hc : ((g.step config st).state.phase w).claim = some (id, issueId)) :
    ∃ r, (g.step config st).state.tips.get id = some r ∧ r.issueId = issueId := by
  have hkept (hr : ∃ r, g.state.tips.get id = some r ∧ r.issueId = issueId) :
      ∃ r, (g.step config st).state.tips.get id = some r ∧ r.issueId = issueId := by
    obtain ⟨r, hr, hi⟩ := hr
    obtain ⟨r', hr', hs⟩ := (step_change config g.state st).kept hr
    exact ⟨r', hr', hs.2.2.trans hi⟩
  cases step_moved config g.state st w with
  | same hx =>
    rw [watch_state, hx] at hc
    exact hkept (h.claim w id issueId hc)
  | unclaimed hx =>
    rw [watch_state] at hc
    cases hp : (g.state.step config st).phase w <;> rw [hp] at hx hc <;> cases hx <;> cases hc
  | found _ _ hx =>
    rw [watch_state, hx] at hc
    cases hc
  | claimed _ hp _ hx =>
    rw [watch_state, hx] at hc
    cases hc
    exact hkept (h.found w _ _ hp).2
  | judging hp _ _ hx | posted _ hp hx | recorded hp hx =>
    rw [watch_state, hx] at hc
    exact hkept (h.claim w id issueId (hp ▸ hc))

theorem WatchInv.reported_after (h : WatchInv g) {id : Nat}
    (hr : ((g.step config st).state.phase w).reported = some id) :
    ((g.step config st).state.phase w).claimed = some id := by
  cases step_moved config g.state st w with
  | same hx =>
    rw [watch_state, hx] at hr ⊢
    exact h.reported w id hr
  | unclaimed hx =>
    rw [watch_state] at hr
    cases hp : (g.state.step config st).phase w <;> rw [hp] at hx hr <;> cases hx <;> cases hr
  | judging hp hg hi hx =>
    rw [watch_state, hx] at hr ⊢
    cases hr
    -- one tip has the issue
    obtain ⟨r, hr, hi'⟩ := h.claim w _ _ (by rw [hp, Phase.claim])
    exact congrArg some (h.indexed.issueId hr hg rfl (congrArg some (hi.trans hi'.symm)))
  | posted _ hp hx =>
    rw [watch_state, hx] at hr ⊢
    have hc := h.reported w id (hp ▸ hr)
    rwa [hp] at hc
  | found _ _ hx | claimed _ _ _ hx | recorded _ hx =>
    rw [watch_state, hx] at hr
    cases hr

theorem WatchInv.step (h : WatchInv g) (hl : g.late st = false) : WatchInv (g.step config st) where
  indexed := (step_change config g.state st).indexed h.indexed
  found _ _ _ hp := h.found_after hp
  claim _ _ _ hc := h.claim_after hc
  reported _ _ hr := h.reported_after hr
  held _ _ _ hw hr := h.held_after hl hw hr
  unique _ _ _ hw hw' := h.unique_after hw hw'
  posted _ _ _ _ hp := h.posted_after hl hp

theorem WatchInv.stands (h : WatchInv g) (hl : g.late st = false) : g.Stands config st where
  kept i r hr := by
    obtain ⟨r', hr', ht, hg, -⟩ := (step_change config g.state st).kept hr
    exact ⟨r', hr', ht, hg⟩
  one i j r q hr hq ht hg := ((step_change config g.state st).indexed h.indexed).eq hr hq ht hg
  held w hw i hne := by
    cases hr : g.state.tips.get i with
    | none =>
      rw [hr] at hne
      cases step_change config g.state st with
      | same he => exact absurd (by rw [watch_state, he, hr]) hne
      | inserted hst => cases hst ▸ hw
      | claimed hst => cases hst ▸ hw
      | rewritten _ he => exact absurd (by rw [watch_state, he, Table.get_update, hr, Option.map_none]) hne
    | some r =>
      obtain ⟨r', hr', -⟩ := (step_change config g.state st).kept hr
      rw [hr, watch_state, hr'] at hne
      have hbecame : Became g st i r r' := h.became hl hr hr'
      cases hbecame with
      | same he => exact absurd (congrArg some he) hne
      | claimed hst => cases hst ▸ hw
      | linked hst => cases hst.symm.trans hw
      | reported hst hp hheld => cases hst ▸ hw; exact hheld
      | recorded hst hp =>
        obtain rfl := Option.some.inj (hst.symm.trans hw)
        exact ⟨h.reported _ i (by rw [hp, Phase.reported]), (h.posted _ _ _ _ hp).1⟩
      | released hst hp hheld => cases hst ▸ hw; exact hheld
      | swept hst => cases hst ▸ hw
  stands i r hr hv r' hr' hne := by
    have hnot {x : DeployQaTipStatus} (hx : x.isVerdict = false) (hs : r.status = x) : False := by
      rw [hs, hx] at hv
      cases hv
    cases h.became hl hr hr' with
    | reported hst hp hw hs =>
      rcases h.held _ i r hw hr with hrun | ⟨-, hj⟩
      · exact (hnot rfl hrun).elim
      · exact ⟨hs, _, hst ▸ rfl, hj⟩
    | same he => exact absurd (congrArg _ he) hne
    | recorded _ _ hs => exact absurd hs hne
    | claimed _ _ hrun =>
      rw [DeployQaTipStatus.isRunnable_of_isVerdict hv] at hrun
      cases hrun
    | linked _ hs => exact (hnot rfl hs).elim
    | released _ _ _ hs => exact (hnot rfl hs).elim
    | swept _ hp => exact (hnot rfl (of_decide_eq_true (Bool.and_eq_true_iff.mp hp).1)).elim

/-- As long as no run that has lost its tip reports on it, or releases it under another run, every
tip stays the only one of its track and tag, reports and releases change what their runs hold, and a
verdict stays until the run that gave it gives another. -/
theorem verdicts_stand (config : DeployQaConfig) (l : List (Step ω))
    (hl : Along (Watch.step config) (fun g st => g.late st = false) .initial l) :
    Along (Watch.step config) (fun g st => g.Stands config st) .initial l :=
  hl.along (fun _ _ h hl => h.step hl) (fun _ _ h hl => h.stands hl) watchInv_initial

/-- A run claims a tip and is outlasted by the sweep, and another run claims the tip. -/
def takenOver : List (Step Bool) :=
  [.detect false "api" (some ⟨"org/api", "1.0.0-rc.1", none, none, "", none⟩), .checkDuplicate false,
    .checkInFlight false, .upsert false 0, .find false (issueIdFor "api" "org/api" "1.0.0-rc.1"),
    .claim false 1, .link false 2 1, .sweep 100 50,
    .find true (issueIdFor "api" "org/api" "1.0.0-rc.1"), .claim true 101]

/-- The second run gives its verdict. -/
def judged : List (Step Bool) :=
  [.judge true .allVerified, .report true 102, .recordDiscordIds true 102 (some "m") none,
    .release true 103]

/-- The first ends after it, and finds the tip with a verdict. -/
theorem verdicts_stand_judged :
    Along (Watch.step ⟨false⟩) (fun g st => g.Stands ⟨false⟩ st) .initial
      (takenOver ++ judged ++ [.release false 104]) :=
  verdicts_stand ⟨false⟩ _ (by decide +kernel)

/-- Had it reported, its verdict would have replaced the other's. Had it ended before the other
reported, it would have released the other's tip. -/
theorem verdict_replaced :
    ¬ (run (Watch.step ⟨false⟩) .initial (takenOver ++ judged ++ [.judge false .fail])).Stands ⟨false⟩
        (.report false 104) ∧
      ¬ (run (Watch.step ⟨false⟩) .initial takenOver).Stands ⟨false⟩ (.release false 102) := by
  constructor
  · intro h
    have hh := h.held false rfl 1 (by decide +kernel)
    exact absurd hh.2 (by decide +kernel)
  · intro h
    have hh := h.held false rfl 1 (by decide +kernel)
    exact absurd hh.2 (by decide +kernel)

end Claudear.DeployQa
