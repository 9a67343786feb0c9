import Claudear.DeployQa.Tips
import Claudear.Machine.Run

/-!
# Pollers and runs

Any number of daemons poll the tracks for new release tips, run the QA of the
tips that are pending or errored, and sweep the tips left running for too long.
A `Step` is one statement of one worker; what GitHub, the agent and Discord say
is part of the step.

A run reads the tip it was started for, claims it by a conditional update, links
its attempt, reports what the agent found and releases the tip if that left it
without a verdict. It may take as long as it likes between any two of these.
-/

namespace Claudear.DeployQa

open Claudear.Sql Claudear.Storage Claudear.Machine

structure DeployQaConfig where
  skipIfPreviousRunning : Bool
  deriving DecidableEq, Repr

structure ReleaseTip where
  repo : String
  tag : String
  body : Option String
  publishedAt : Option String
  htmlUrl : String
  authorLogin : Option String
  deriving DecidableEq, Repr

/-- The pending row `poll_track` builds. -/
def ReleaseTip.row (tip : ReleaseTip) (track : String) (now : Timestamp) : DeployQaTip where
  track := track
  repo := tip.repo
  tag := tip.tag
  issueId := issueIdFor track tip.repo tip.tag
  publishedAt := tip.publishedAt
  htmlUrl := some tip.htmlUrl
  authorLogin := tip.authorLogin
  status := .pending
  attemptId := none
  discordMessageId := none
  discordThreadId := none
  releaseBody := tip.body
  createdAt := now
  updatedAt := now

inductive DeployQaPollAction where
  | enqueued | skippedDuplicate | skippedPreviousRunning | noMatchingTip
  | errored (error : Error)
  deriving DecidableEq, Repr

structure DeployQaPollResult where
  track : String
  action : DeployQaPollAction
  tip : Option ReleaseTip
  deriving DecidableEq, Repr

inductive DeployQaVerdict where
  | allVerified | unverified | fail
  deriving DecidableEq, Repr

def tipStatus : DeployQaVerdict → DeployQaTipStatus
  | .allVerified => .verified
  | .unverified => .unverified
  | .fail => .failed

theorem tipStatus_isVerdict (v : DeployQaVerdict) : (tipStatus v).isVerdict = true := by
  cases v <;> rfl

/-- What a worker is at. -/
inductive Phase where
  | idle
  /-- A poll has found the track's newest tip. -/
  | detected (track : String) (tip : ReleaseTip)
  /-- It is no tip of the store. -/
  | unknown (track : String) (tip : ReleaseTip)
  /-- And its track had nothing in flight. -/
  | clear (track : String) (tip : ReleaseTip)
  /-- A run has read its tip as runnable. -/
  | found (id : Nat) (tip : DeployQaTip)
  | holding (id : Nat) (issueId : String)
  /-- A report has read its tip, and not stored its verdict. -/
  | judging (id : Nat) (issueId : String) (reported : Nat) (verdict : DeployQaVerdict)
  /-- A report has stored its verdict, and not recorded where it was posted. -/
  | posted (id : Nat) (issueId : String) (reported : Nat)
  deriving DecidableEq, Repr

/-- The tip a run has claimed. -/
def Phase.claimed : Phase → Option Nat
  | .holding id _ | .judging id _ _ _ | .posted id _ _ => some id
  | _ => none

structure State (ω : Type*) where
  tips : Tips
  phase : ω → Phase
  results : List DeployQaPollResult

inductive Step (ω : Type*) where
  /-- A poll of the track, and the tip GitHub has for it. -/
  | detect (w : ω) (track : String) (tip : Option ReleaseTip)
  | checkDuplicate (w : ω)
  | checkInFlight (w : ω)
  | upsert (w : ω) (now : Timestamp)
  /-- A run for this issue begins: dispatched, retried or triggered. -/
  | find (w : ω) (issueId : String)
  | claim (w : ω) (now : Timestamp)
  | link (w : ω) (now : Timestamp) (attemptId : Nat)
  /-- The agent's report is classified, and its tip looked up. -/
  | judge (w : ω) (verdict : DeployQaVerdict)
  | report (w : ω) (now : Timestamp)
  | recordDiscordIds (w : ω) (now : Timestamp) (messageId threadId : Option String)
  /-- The run ends. -/
  | release (w : ω) (now : Timestamp)
  | crash (w : ω)
  | sweep (now : Timestamp) (staleAfter : Nat)

variable {ω : Type*} [DecidableEq ω]

namespace State

def initial : State ω := ⟨Table.empty, fun _ => .idle, []⟩

def move (s : State ω) (w : ω) (x : Phase) (t : Tips) : State ω :=
  { s with tips := t, phase := Function.update s.phase w x }

/-- A poll ends. -/
def finish (s : State ω) (w : ω) (result : DeployQaPollResult) (t : Tips) : State ω :=
  { s.move w .idle t with results := s.results ++ [result] }

def step (config : DeployQaConfig) (s : State ω) : Step ω → State ω
  | .detect w track tip =>
    match s.phase w, tip with
    | .idle, some tip => s.move w (.detected track tip) s.tips
    | .idle, none => s.finish w ⟨track, .noMatchingTip, none⟩ s.tips
    | _, _ => s
  | .checkDuplicate w =>
    match s.phase w with
    | .detected track tip =>
      match s.tips.getDeployQaTip track tip.tag with
      | some _ => s.finish w ⟨track, .skippedDuplicate, some tip⟩ s.tips
      | none => s.move w (.unknown track tip) s.tips
    | _ => s
  | .checkInFlight w =>
    match s.phase w with
    | .unknown track tip =>
      if config.skipIfPreviousRunning && s.tips.trackHasInFlightDeployQa track then
        s.finish w ⟨track, .skippedPreviousRunning, some tip⟩ s.tips
      else s.move w (.clear track tip) s.tips
    | _ => s
  | .upsert w now =>
    match s.phase w with
    | .clear track tip =>
      match s.tips.upsertDeployQaTip (tip.row track now) with
      | .error e => s.finish w ⟨track, .errored e, none⟩ s.tips
      | .ok (stored, t) =>
        if stored.2.status ≠ .pending ∨ stored.1 = 0 then
          s.finish w ⟨track, .skippedDuplicate, some tip⟩ t
        else s.finish w ⟨track, .enqueued, some tip⟩ t
    | _ => s
  | .find w issueId =>
    match s.phase w with
    | .idle =>
      match s.tips.getDeployQaTipByIssueId issueId with
      | some (id, tip) => if tip.status.isRunnable then s.move w (.found id tip) s.tips else s
      | none => s
    | _ => s
  | .claim w now =>
    match s.phase w with
    | .found id tip =>
      let (changed, t) := s.tips.updateDeployQaTipStatusIf now id tip.status .running none
      s.move w (if changed then .holding id tip.issueId else .idle) t
    | _ => s
  | .link w now attemptId =>
    match s.phase w with
    | .holding id _ =>
      { s with
        tips := (s.tips.updateDeployQaTipStatusIf now id .running .running (some attemptId)).2 }
    | _ => s
  | .judge w verdict =>
    match s.phase w with
    | .holding id issueId =>
      match s.tips.getDeployQaTipByIssueId issueId with
      | some (reported, _) => s.move w (.judging id issueId reported verdict) s.tips
      | none => s
    | _ => s
  | .report w now =>
    match s.phase w with
    | .judging id issueId reported verdict =>
      s.move w (.posted id issueId reported)
        (s.tips.updateDeployQaTipStatus now reported (tipStatus verdict) none)
    | _ => s
  | .recordDiscordIds w now messageId threadId =>
    match s.phase w with
    | .posted id issueId reported =>
      s.move w (.holding id issueId)
        (if messageId.isNone && threadId.isNone then s.tips
          else s.tips.updateDeployQaDiscordIds now reported messageId threadId)
    | _ => s
  | .release w now =>
    match s.phase w with
    | .holding id _ =>
      s.move w .idle (s.tips.updateDeployQaTipStatusIf now id .running .errored none).2
    | _ => s
  | .crash w => s.move w .idle s.tips
  | .sweep now staleAfter => { s with tips := s.tips.releaseStaleRunningDeployQaTips now staleAfter }

end State

/-- The runs of the workers from an empty store. -/
abbrev worked (config : DeployQaConfig) (l : List (Step ω)) : State ω :=
  run (State.step config) .initial l

variable {config : DeployQaConfig} {s : State ω} {w : ω}

@[simp] theorem move_tips (x : Phase) (t : Tips) : (s.move w x t).tips = t := rfl

@[simp] theorem move_results (x : Phase) (t : Tips) : (s.move w x t).results = s.results := rfl

@[simp] theorem move_phase_self (x : Phase) (t : Tips) : (s.move w x t).phase w = x :=
  Function.update_self ..

theorem move_phase_ne {w' : ω} (h : w' ≠ w) (x : Phase) (t : Tips) :
    (s.move w x t).phase w' = s.phase w' :=
  Function.update_of_ne h ..

@[simp] theorem finish_tips (result : DeployQaPollResult) (t : Tips) :
    (s.finish w result t).tips = t := rfl

@[simp] theorem finish_phase (result : DeployQaPollResult) (t : Tips) :
    (s.finish w result t).phase = (s.move w .idle t).phase := rfl

@[simp] theorem finish_results (result : DeployQaPollResult) (t : Tips) :
    (s.finish w result t).results = s.results ++ [result] := rfl

/-! ## What a step does to the tips -/

/-- The other statements of runs, and of sweeps. -/
inductive Rewrites (s : State ω) :
    Step ω → (Nat × DeployQaTip → Bool) → (DeployQaTip → DeployQaTip) → Prop
  | link {w : ω} {id : Nat} {issueId : String} (now : Timestamp) (attemptId : Nat)
    (hp : s.phase w = .holding id issueId) :
    Rewrites s (.link w now attemptId) (ofIdStatus id .running) (·.setStatus now .running (some attemptId))
  | report {w : ω} {id reported : Nat} {issueId : String} {verdict : DeployQaVerdict} (now : Timestamp)
    (hp : s.phase w = .judging id issueId reported verdict) :
    Rewrites s (.report w now) (ofId reported) (·.setStatus now (tipStatus verdict) none)
  | recordDiscordIds {w : ω} {id reported : Nat} {issueId : String} (now : Timestamp)
    (messageId threadId : Option String) (hp : s.phase w = .posted id issueId reported) :
    Rewrites s (.recordDiscordIds w now messageId threadId) (ofId reported)
      (·.setDiscordIds now messageId threadId)
  | release {w : ω} {id : Nat} {issueId : String} (now : Timestamp) (hp : s.phase w = .holding id issueId) :
    Rewrites s (.release w now) (ofIdStatus id .running) (·.setStatus now .errored none)
  | sweep (now : Timestamp) (staleAfter : Nat) :
    Rewrites s (.sweep now staleAfter) (stale now staleAfter) (·.setStatus now .errored none)

/-- What a step leaves of the tips. -/
inductive Change (s : State ω) (st : Step ω) (t : Tips) : Prop
  | same (h : ∀ i, t.get i = s.tips.get i)
  | inserted {w : ω} {now : Timestamp} {track : String} {tip : ReleaseTip} (hst : st = .upsert w now)
      (hp : s.phase w = .clear track tip)
      (hnew : ∀ i r, s.tips.get i = some r → ¬(r.track = track ∧ r.tag = tip.tag))
      (hissue : ∀ i r, s.tips.get i = some r → r.issueId ≠ issueIdFor track tip.repo tip.tag)
      (h : t = s.tips.insert (tip.row track now))
  | claimed {w : ω} {now : Timestamp} {id : Nat} {tip : DeployQaTip} (hst : st = .claim w now)
      (hp : s.phase w = .found id tip)
      (h : t = s.tips.update (ofIdStatus id tip.status) (·.setStatus now .running none))
  | rewritten {p : Nat × DeployQaTip → Bool} {f : DeployQaTip → DeployQaTip} 
      (hr : Rewrites s st p f) (h : t = s.tips.update p f)

theorem step_change (config : DeployQaConfig) (s : State ω) (st : Step ω) :
    Change s st (s.step config st).tips := by
  cases st with
  | detect w track tip =>
    simp only [State.step]
    split <;> exact .same fun _ => rfl
  | checkDuplicate w | checkInFlight w | judge w verdict =>
    simp only [State.step]
    split
    · split <;> exact .same fun _ => rfl
    · exact .same fun _ => rfl
  | upsert w now =>
    simp only [State.step]
    split
    · rename_i track tip hp
      split
      · exact .same fun _ => rfl
      · rename_i stored t hu
        have htips : (if stored.2.status ≠ .pending ∨ stored.1 = 0 then
            s.finish w ⟨track, .skippedDuplicate, some tip⟩ t
          else s.finish w ⟨track, .enqueued, some tip⟩ t).tips = t := by
          split <;> rfl
        rw [htips]
        rcases Tips.upsert_cases hu with ⟨rfl, -⟩ | ⟨rfl, -, hnew, hissue⟩
        · exact .same fun _ => rfl
        · exact .inserted rfl hp hnew hissue rfl
    · exact .same fun _ => rfl
  | find w issueId =>
    simp only [State.step]
    split
    · split
      · split <;> exact .same fun _ => rfl
      · exact .same fun _ => rfl
    · exact .same fun _ => rfl
  | claim w now =>
    simp only [State.step]
    split
    · rename_i id tip hp
      exact .claimed rfl hp rfl
    · exact .same fun _ => rfl
  | link w now attemptId =>
    simp only [State.step]
    split
    · rename_i hp
      exact .rewritten (.link now attemptId hp) rfl
    · exact .same fun _ => rfl
  | report w now =>
    simp only [State.step]
    split
    · rename_i hp
      exact .rewritten (.report now hp) rfl
    · exact .same fun _ => rfl
  | recordDiscordIds w now messageId threadId =>
    simp only [State.step]
    split
    · rename_i hp
      split
      · exact .same fun _ => rfl
      · exact .rewritten (.recordDiscordIds now messageId threadId hp) rfl
    · exact .same fun _ => rfl
  | release w now =>
    simp only [State.step]
    split
    · rename_i hp
      exact .rewritten (.release now hp) rfl
    · exact .same fun _ => rfl
  | crash w => exact .same fun _ => rfl
  | sweep now staleAfter => exact .rewritten (.sweep now staleAfter) rfl

omit [DecidableEq ω] in
/-- A rewritten tip is still the tip of its track and tag. -/
theorem Rewrites.keys {st : Step ω} {p : Nat × DeployQaTip → Bool} {f : DeployQaTip → DeployQaTip}
    (h : Rewrites s st p f) (r : DeployQaTip) :
    (f r).track = r.track ∧ (f r).tag = r.tag ∧ (f r).issueId = r.issueId := by
  cases h <;> exact ⟨rfl, rfl, rfl⟩

omit [DecidableEq ω] in
/-- No rewriting puts a tip in flight. -/
theorem Rewrites.inFlight {st : Step ω} {p : Nat × DeployQaTip → Bool} {f : DeployQaTip → DeployQaTip}
    (h : Rewrites s st p f) {i : Nat} {r : DeployQaTip} (hp : p (i, r) = true)
    (hf : (f r).status.inFlight = true) : r.status.inFlight = true := by
  cases h with
  | link now attemptId =>
    have hr : r.status = .running := by simpa using (Bool.and_eq_true_iff.mp hp).2
    rw [hr]
    rfl
  | report now hw =>
    rename_i verdict
    cases verdict <;> cases hf
  | recordDiscordIds => exact hf
  | release => cases hf
  | sweep => cases hf

/-- The row keeps its track, tag and issue. -/
def SameTip (r r' : DeployQaTip) : Prop := r'.track = r.track ∧ r'.tag = r.tag ∧ r'.issueId = r.issueId

omit [DecidableEq ω] in
/-- Tips are never lost. -/
theorem Change.kept {st : Step ω} {t : Tips} (h : Change s st t) {i : Nat} {r : DeployQaTip}
    (hi : s.tips.get i = some r) : ∃ r', t.get i = some r' ∧ SameTip r r' := by
  have hupdate {p : Nat × DeployQaTip → Bool} {f : DeployQaTip → DeployQaTip}
      (hf : SameTip r (f r)) : ∃ r', (s.tips.update p f).get i = some r' ∧ SameTip r r' := by
    cases hp : p (i, r) with
    | true => exact ⟨f r, Table.get_update_of hi hp, hf⟩
    | false => exact ⟨r, Table.get_update_of_not hi hp, rfl, rfl, rfl⟩
  cases h with
  | same h => exact ⟨r, (h i).trans hi, rfl, rfl, rfl⟩
  | inserted _ _ _ _ h => exact ⟨r, h ▸ Table.get_insert_of hi, rfl, rfl, rfl⟩
  | claimed _ _ h => exact h ▸ hupdate ⟨rfl, rfl, rfl⟩
  | rewritten hr h => exact h ▸ hupdate (hr.keys r)

omit [DecidableEq ω] in
theorem Change.indexed {st : Step ω} {t : Tips} (h : Change s st t) (hi : Tips.Indexed s.tips) :
    Tips.Indexed t := by
  cases h with
  | same h => exact hi.congr h
  | inserted _ _ hnew hissue h => exact h ▸ hi.insert hnew hissue
  | claimed _ _ h => exact h ▸ hi.update fun _ => ⟨rfl, rfl⟩
  | rewritten hr h =>
    refine h ▸ hi.update fun r => ?_
    obtain ⟨ht, hg, hk⟩ := hr.keys r
    exact ⟨by simp only [DeployQaTip.trackTag, ht, hg], by simp only [DeployQaTip.issueKey, hk]⟩

/-! ## Where a step leaves the workers -/

/-- What a step leaves a worker at. -/
inductive Moved (s : State ω) (st : Step ω) (w : ω) (x : Phase) : Prop
  | same (h : x = s.phase w)
  | unclaimed (h : x.claimed = none) (hf : ∀ id tip, x ≠ .found id tip)
  | found {id : Nat} {tip : DeployQaTip} (hg : s.tips.get id = some tip)
      (hr : tip.status.isRunnable = true) (h : x = .found id tip)
  | claimed {now : Timestamp} {id : Nat} {tip : DeployQaTip} (hst : st = .claim w now)
      (hp : s.phase w = .found id tip) (hc : s.tips.any (ofIdStatus id tip.status) = true)
      (h : x = .holding id tip.issueId)
  | judging {id reported : Nat} {issueId : String} {verdict : DeployQaVerdict} {tip : DeployQaTip}
      (hp : s.phase w = .holding id issueId) (hg : s.tips.get reported = some tip)
      (hi : tip.issueId = issueId) (h : x = .judging id issueId reported verdict)
  | posted {now : Timestamp} {id reported : Nat} {issueId : String} {verdict : DeployQaVerdict}
      (hst : st = .report w now) (hp : s.phase w = .judging id issueId reported verdict)
      (h : x = .posted id issueId reported)
  | recorded {id reported : Nat} {issueId : String} (hp : s.phase w = .posted id issueId reported)
      (h : x = .holding id issueId)

/-- A worker moves by its own steps. -/
theorem moved_move {st : Step ω} {w' : ω} {x : Phase} {t : Tips} (h : Moved s st w' x) :
    Moved s st w ((s.move w' x t).phase w) := by
  by_cases hw : w = w'
  · subst hw
    rw [move_phase_self]
    exact h
  · exact .same (move_phase_ne hw x t)

theorem moved_finish {st : Step ω} {w' : ω} {result : DeployQaPollResult} {t : Tips} :
    Moved s st w ((s.finish w' result t).phase w) := by
  rw [finish_phase]
  exact moved_move (.unclaimed rfl (by simp))

theorem step_moved (config : DeployQaConfig) (s : State ω) (st : Step ω) (w : ω) :
    Moved s st w ((s.step config st).phase w) := by
  cases st with
  | detect w' track tip =>
    simp only [State.step]
    split
    · exact moved_move (.unclaimed rfl (by simp))
    · exact moved_finish
    · exact .same rfl
  | checkDuplicate w' | checkInFlight w' =>
    simp only [State.step]
    split
    · split
      · exact moved_finish
      · exact moved_move (.unclaimed rfl (by simp))
    · exact .same rfl
  | upsert w' now =>
    simp only [State.step]
    split
    · split
      · exact moved_finish
      · split <;> exact moved_finish
    · exact .same rfl
  | find w' issueId =>
    simp only [State.step]
    split
    · split
      · rename_i id tip hg
        split
        · rename_i hr
          exact moved_move (.found (Table.first_get hg).1 hr rfl)
        · exact .same rfl
      · exact .same rfl
    · exact .same rfl
  | claim w' now =>
    simp only [State.step]
    split
    · rename_i id tip hp
      refine moved_move ?_
      split
      · rename_i hc
        exact .claimed rfl hp hc rfl
      · exact .unclaimed rfl (by simp)
    · exact .same rfl
  | link w' now attemptId =>
    simp only [State.step]
    split <;> exact .same rfl
  | judge w' verdict =>
    simp only [State.step]
    split
    · rename_i id issueId hp
      split
      · rename_i reported tip hg
        obtain ⟨hg, hi⟩ := Table.first_get hg
        exact moved_move (.judging hp hg (of_decide_eq_true hi) rfl)
      · exact .same rfl
    · exact .same rfl
  | report w' now =>
    simp only [State.step]
    split
    · rename_i hp
      exact moved_move (.posted rfl hp rfl)
    · exact .same rfl
  | recordDiscordIds w' now messageId threadId =>
    simp only [State.step]
    split
    · rename_i hp
      exact moved_move (.recorded hp rfl)
    · exact .same rfl
  | release w' now =>
    simp only [State.step]
    split
    · exact moved_move (.unclaimed rfl (by simp))
    · exact .same rfl
  | crash w' => exact moved_move (.unclaimed rfl (by simp))
  | sweep now staleAfter => exact .same rfl

end Claudear.DeployQa
