import Claudear.DeployQa.Workers
import Mathlib.Data.Fintype.Basic

/-!
# One tip in flight per track

`poll_track` looks the tip up, looks for a tip of the track in flight, and
inserts its own, in three statements. With nobody else putting a tip of the track
in flight between the second and the third, a tip is only inserted when its
track has none, and none is enqueued twice. Nothing in the store sees to that:
the insert's conflict clause looks at the tag alone, and answers the tip that is
there as if it had been inserted.
-/

namespace Claudear.DeployQa

open Claudear.Sql Claudear.Storage Claudear.Machine

variable {ω : Type*} [DecidableEq ω] {config : DeployQaConfig} {s : State ω} {w : ω}

/-- The track a poll is about to insert a tip on. -/
def Phase.clearOn : Phase → Option String
  | .clear track _ => some track
  | _ => none

/-- The worker that puts a tip in flight with this step, and the tip's track. -/
def takesUp (s : State ω) : Step ω → Option (ω × String)
  | .upsert w _ =>
    match s.phase w with
    | .clear track tip => if (s.tips.getDeployQaTip track tip.tag).isNone then some (w, track) else none
    | _ => none
  | .claim w _ =>
    match s.phase w with
    | .found id tip =>
      if s.tips.any (ofIdStatus id tip.status) then (s.tips.get id).map fun r => (w, r.track) else none
    | _ => none
  | _ => none

/-- No tip is put in flight on a track that another poll is about to insert a tip on. -/
def Alone (s : State ω) (st : Step ω) : Prop :=
  ∀ x ∈ takesUp s st, ∀ w, w ≠ x.1 → (s.phase w).clearOn ≠ some x.2

/-- A tip is inserted as pending, and at a moment when no other tip of its track is in flight. -/
def Lone (config : DeployQaConfig) (s : State ω) (st : Step ω) : Prop :=
  ∀ i r, (s.step config st).tips.get i = some r → s.tips.get i = none →
    r.status = .pending ∧ ∀ j q, s.tips.get j = some q → q.track = r.track → q.status.inFlight = false

/-- The tips polls have answered as enqueued. -/
def enqueued (s : State ω) : List (String × String) :=
  s.results.filterMap fun r => if r.action = .enqueued then r.tip.map fun tip => (r.track, tip.tag) else none

/-! ## The invariant -/

structure PollInv (s : State ω) : Prop where
  indexed : Tips.Indexed s.tips
  /-- A poll that found its track clear still would. -/
  clear : ∀ w track, (s.phase w).clearOn = some track → s.tips.trackHasInFlightDeployQa track = false
  stored : ∀ x ∈ enqueued s, ∃ i r, s.tips.get i = some r ∧ r.track = x.1 ∧ r.tag = x.2
  nodup : (enqueued s).Nodup

theorem ofTrackInFlight_iff {track : String} {r : Nat × DeployQaTip} :
    ofTrackInFlight track r = true ↔ r.2.track = track ∧ r.2.status.inFlight = true := by
  simp [ofTrackInFlight]

theorem nothingInFlight {t : Tips} {track : String} :
    t.trackHasInFlightDeployQa track = false ↔
      ∀ i r, t.get i = some r → r.track = track → r.status.inFlight = false := by
  rw [← Bool.not_eq_true, Tips.trackHasInFlightDeployQa, Table.any_eq_true]
  constructor
  · intro h i r hi ht
    by_contra hf
    exact h ⟨i, r, hi, ofTrackInFlight_iff.mpr ⟨ht, Bool.of_not_eq_false hf⟩⟩
  · rintro h ⟨i, r, hi, hr⟩
    obtain ⟨ht, hf⟩ := ofTrackInFlight_iff.mp hr
    rw [h i r hi ht] at hf
    cases hf

/-- A poll comes to be about to insert a tip only by finding its track clear. -/
theorem clearOn_step {st : Step ω} {track : String}
    (hskip : config.skipIfPreviousRunning = true)
    (h : ((s.step config st).phase w).clearOn = some track) :
    (s.phase w).clearOn = some track ∧ (∀ now, st ≠ .upsert w now) ∨
      (s.step config st).tips = s.tips ∧ s.tips.trackHasInFlightDeployQa track = false := by
  have hother {w' : ω} {x : Phase} {t : Tips} (hx : x.clearOn = none)
      (h : ((s.move w' x t).phase w).clearOn = some track) :
      w ≠ w' ∧ (s.phase w).clearOn = some track := by
    by_cases hw : w = w'
    · subst hw
      rw [move_phase_self, hx] at h
      cases h
    · rw [move_phase_ne hw] at h
      exact ⟨hw, h⟩
  have hfinish {w' : ω} {result : DeployQaPollResult} {t : Tips}
      (h : ((s.finish w' result t).phase w).clearOn = some track) :
      w ≠ w' ∧ (s.phase w).clearOn = some track := hother rfl (finish_phase (s := s) result t ▸ h)
  cases st with
  | detect w' track' tip =>
    simp only [State.step] at h
    split at h
    · exact .inl ⟨(hother rfl h).2, fun _ => by simp⟩
    · exact .inl ⟨(hfinish h).2, fun _ => by simp⟩
    · exact .inl ⟨h, fun _ => by simp⟩
  | checkDuplicate w' =>
    simp only [State.step] at h
    split at h
    · split at h
      · exact .inl ⟨(hfinish h).2, fun _ => by simp⟩
      · exact .inl ⟨(hother rfl h).2, fun _ => by simp⟩
    · exact .inl ⟨h, fun _ => by simp⟩
  | checkInFlight w' =>
    simp only [State.step] at h ⊢
    split at h
    · rename_i track' tip hp
      split at h
      · exact .inl ⟨(hfinish h).2, fun _ => by simp⟩
      · rename_i hclear
        by_cases hw : w = w'
        · subst hw
          rw [move_phase_self] at h
          obtain rfl : track' = track := Option.some.inj h
          rw [hskip, Bool.true_and] at hclear
          refine .inr ⟨?_, Bool.eq_false_iff.mpr hclear⟩
          simp [hskip, hclear]
        · rw [move_phase_ne hw] at h
          exact .inl ⟨h, fun _ => by simp⟩
    · exact .inl ⟨h, fun _ => by simp⟩
  | upsert w' now =>
    simp only [State.step] at h
    have hne (hw : w ≠ w') : ∀ now', (Step.upsert w' now : Step ω) ≠ .upsert w now' := by
      intro now' he
      cases he
      exact hw rfl
    split at h
    · split at h
      · exact .inl ⟨(hfinish h).2, hne (hfinish h).1⟩
      · split at h
        · exact .inl ⟨(hfinish h).2, hne (hfinish h).1⟩
        · exact .inl ⟨(hfinish h).2, hne (hfinish h).1⟩
    · rename_i hp
      refine .inl ⟨h, hne fun hw => ?_⟩
      subst hw
      cases hx : s.phase w with
      | clear track' tip => exact hp track' tip hx
      | _ =>
        rw [hx] at h
        cases h
  | find w' issueId =>
    simp only [State.step] at h
    split at h
    · split at h
      · split at h
        · exact .inl ⟨(hother rfl h).2, fun _ => by simp⟩
        · exact .inl ⟨h, fun _ => by simp⟩
      · exact .inl ⟨h, fun _ => by simp⟩
    · exact .inl ⟨h, fun _ => by simp⟩
  | claim w' now =>
    simp only [State.step] at h
    split at h
    · refine .inl ⟨(hother ?_ h).2, fun _ => by simp⟩
      split <;> rfl
    · exact .inl ⟨h, fun _ => by simp⟩
  | link w' now attemptId =>
    simp only [State.step] at h
    split at h <;> exact .inl ⟨h, fun _ => by simp⟩
  | judge w' verdict =>
    simp only [State.step] at h
    split at h
    · split at h
      · exact .inl ⟨(hother rfl h).2, fun _ => by simp⟩
      · exact .inl ⟨h, fun _ => by simp⟩
    · exact .inl ⟨h, fun _ => by simp⟩
  | report w' now | recordDiscordIds w' now messageId threadId | release w' now =>
    simp only [State.step] at h
    split at h
    · exact .inl ⟨(hother rfl h).2, fun _ => by simp⟩
    · exact .inl ⟨h, fun _ => by simp⟩
  | crash w' => exact .inl ⟨(hother rfl h).2, fun _ => by simp⟩
  | sweep now staleAfter => exact .inl ⟨h, fun _ => by simp⟩

/-- Only an insert, or the answer of a pending tip, is answered as enqueued. -/
theorem enqueued_step (config : DeployQaConfig) (s : State ω) (st : Step ω) :
    enqueued (s.step config st) = enqueued s ∨
      ∃ w now track tip stored, st = .upsert w now ∧ s.phase w = .clear track tip ∧
        s.tips.upsertDeployQaTip (tip.row track now) = .ok (stored, (s.step config st).tips) ∧
        stored.2.status = .pending ∧
        enqueued (s.step config st) = enqueued s ++ [(track, tip.tag)] := by
  have hfinish {w : ω} {result : DeployQaPollResult} {t : Tips} (hr : result.action ≠ .enqueued) :
      enqueued (s.finish w result t) = enqueued s := by
    simp [enqueued, List.filterMap_append, hr]
  cases st with
  | detect w track tip =>
    simp only [State.step]
    split
    · exact .inl rfl
    · exact .inl (hfinish (by simp))
    · exact .inl rfl
  | checkDuplicate w | checkInFlight w =>
    simp only [State.step]
    split
    · split
      · exact .inl (hfinish (by simp))
      · exact .inl rfl
    · exact .inl rfl
  | upsert w now =>
    simp only [State.step]
    split
    · rename_i track tip hp
      split
      · exact .inl (hfinish (by simp))
      · rename_i stored t hu
        split
        · exact .inl (hfinish (by simp))
        · rename_i hs
          refine .inr ⟨w, now, track, tip, stored, rfl, hp, hu, ?_, ?_⟩
          · exact not_not.mp fun hn => hs (.inl hn)
          · simp [enqueued, List.filterMap_append]
    · exact .inl rfl
  | find w issueId =>
    simp only [State.step]
    split
    · split
      · split <;> exact .inl rfl
      · exact .inl rfl
    · exact .inl rfl
  | claim w now | link w now attemptId | report w now | recordDiscordIds w now messageId threadId | release w now =>
    simp only [State.step]
    split <;> exact .inl rfl
  | judge w verdict =>
    simp only [State.step]
    split
    · split <;> exact .inl rfl
    · exact .inl rfl
  | crash w => exact .inl rfl
  | sweep now staleAfter => exact .inl rfl

/-! ## One step -/

variable {st : Step ω}

omit [DecidableEq ω] in
theorem PollInv.noneInFlight (h : PollInv s) {track : String} {tip : ReleaseTip}
    (hp : s.phase w = .clear track tip) {i : Nat} {r : DeployQaTip} (hi : s.tips.get i = some r)
    (ht : r.track = track) : r.status.inFlight = false := by
  have hclear : (s.phase w).clearOn = some track := by rw [hp, Phase.clearOn]
  exact nothingInFlight.mp (h.clear w track hclear) i r hi ht

/-- What is put in flight leaves the tracks clear that others have found so. -/
theorem PollInv.clear_step (h : PollInv s) (ha : Alone s st) {track : String}
    (hw : (s.phase w).clearOn = some track) (hst : ∀ now, st ≠ .upsert w now) :
    (s.step config st).tips.trackHasInFlightDeployQa track = false := by
  have hbefore := nothingInFlight.mp (h.clear w track hw)
  refine nothingInFlight.mpr fun i r hi ht => ?_
  have hcase := step_change config s st
  cases hcase with
  | same he =>
    rw [he] at hi
    exact hbefore i r hi ht
  | inserted hst' hp hnew hissue he =>
    rename_i w' now track' tip
    rw [he] at hi
    rcases Table.get_insert_cases hi with ⟨-, rfl⟩ | hi
    · -- the new tip is on a track nobody else is about to insert on
      have hne : w ≠ w' := by
        rintro rfl
        exact hst now hst'
      have hnone : (s.tips.getDeployQaTip track' tip.tag).isNone := by
        rw [Option.isNone_iff_eq_none, Tips.getDeployQaTip, Table.first_eq_none]
        intro j q hj
        exact Bool.eq_false_iff.mpr fun ho => hnew j q hj (Tips.ofTag_iff.mp ho)
      have hup : takesUp s st = some (w', track') := by
        rw [hst', takesUp, hp]
        exact if_pos hnone
      subst ht
      exact absurd hw (ha _ hup w hne)
    · exact hbefore i r hi ht
  | claimed hst' hp he =>
    rename_i w' now id tip
    rw [he] at hi
    obtain ⟨q, hq, ⟨ho, rfl⟩ | ⟨-, rfl⟩⟩ := Table.get_update_cases hi
    · obtain ⟨hid, hs⟩ := Bool.and_eq_true_iff.mp ho
      have hid : i = id := by simpa [ofId] using hid
      subst hid
      have hup : takesUp s st = some (w', q.track) := by
        rw [hst', takesUp, hp]
        simp only
        rw [if_pos (Table.any_eq_true.mpr ⟨i, q, hq, ho⟩), hq, Option.map_some]
      have hne : w ≠ w' := by
        rintro rfl
        rw [hp] at hw
        cases hw
      exact absurd (ht ▸ hw) (ha _ hup w hne)
    · exact hbefore i r hq ht
  | rewritten hr he =>
    rw [he] at hi
    obtain ⟨q, hq, ⟨ho, rfl⟩ | ⟨-, rfl⟩⟩ := Table.get_update_cases hi
    · have hq' := hbefore i q hq ((hr.keys q).1.symm.trans ht)
      exact Bool.eq_false_iff.mpr fun hf => by
        rw [hr.inFlight ho hf] at hq'
        cases hq'
    · exact hbefore i r hq ht

omit [DecidableEq ω] in
/-- A tip answered as enqueued was inserted. -/
theorem PollInv.enqueues_new (h : PollInv s) {now : Timestamp} {track : String} {tip : ReleaseTip}
    {stored : Nat × DeployQaTip} {t : Tips} (hp : s.phase w = .clear track tip)
    (hu : s.tips.upsertDeployQaTip (tip.row track now) = .ok (stored, t))
    (hs : stored.2.status = .pending) :
    t = s.tips.insert (tip.row track now) ∧
      ∀ i r, s.tips.get i = some r → ¬(r.track = track ∧ r.tag = tip.tag) := by
  rcases Tips.upsert_cases hu with ⟨-, hi, ht, -⟩ | ⟨ht, -, hnew, -⟩
  · -- a pending tip of the track is in flight
    have hf := h.noneInFlight hp hi ht
    rw [hs] at hf
    cases hf
  · exact ⟨ht, hnew⟩

theorem PollInv.step (hskip : config.skipIfPreviousRunning = true) (h : PollInv s) (ha : Alone s st) :
    PollInv (s.step config st) where
  indexed := (step_change config s st).indexed h.indexed
  clear w track hw := by
    rcases clearOn_step hskip hw with ⟨hw, hst⟩ | ⟨htips, hclear⟩
    · exact h.clear_step ha hw hst
    · rw [htips]
      exact hclear
  stored := by
    have hkept : ∀ x ∈ enqueued s, ∃ i r, (s.step config st).tips.get i = some r ∧ r.track = x.1 ∧
        r.tag = x.2 := by
      intro x hx
      obtain ⟨i, r, hi, ht, hg⟩ := h.stored x hx
      obtain ⟨r', hi', hs⟩ := (step_change config s st).kept hi
      exact ⟨i, r', hi', hs.1.trans ht, hs.2.1.trans hg⟩
    intro x hx
    rcases enqueued_step config s st with he | ⟨w, now, track, tip, stored, -, hp, hu, hs, he⟩
    · exact hkept x (he ▸ hx)
    · rw [he] at hx
      rcases List.mem_append.mp hx with hx | hx
      · exact hkept x hx
      · rw [List.mem_singleton] at hx
        subst hx
        refine ⟨s.tips.next, tip.row track now, ?_, rfl, rfl⟩
        rw [(h.enqueues_new hp hu hs).1, Table.get_insert, if_pos rfl]
  nodup := by
    rcases enqueued_step config s st with he | ⟨w, now, track, tip, stored, -, hp, hu, hs, he⟩
    · exact he ▸ h.nodup
    · rw [he, List.nodup_append]
      refine ⟨h.nodup, by simp, ?_⟩
      rintro x hx y hy rfl
      rw [List.mem_singleton] at hy
      subst hy
      obtain ⟨i, r, hi, hr⟩ := h.stored _ hx
      exact (h.enqueues_new hp hu hs).2 i r hi hr

theorem PollInv.lone (h : PollInv s) (st : Step ω) : Lone config s st := by
  intro i r hi hnone
  have hcase := step_change config s st
  cases hcase with
  | same he =>
    rw [he, hnone] at hi
    cases hi
  | inserted hst hp hnew hissue he =>
    rw [he] at hi
    rcases Table.get_insert_cases hi with ⟨-, rfl⟩ | hi
    · exact ⟨rfl, fun j q hj ht => h.noneInFlight hp hj ht⟩
    · rw [hnone] at hi
      cases hi
  | claimed hst hp he | rewritten hr he =>
    rw [he, Table.get_update, hnone] at hi
    cases hi

omit [DecidableEq ω] in
theorem pollInv_initial : PollInv (State.initial : State ω) where
  indexed := Tips.indexed_empty
  clear w track h := by cases h
  stored x hx := by cases hx
  nodup := List.nodup_nil

/-- While no tip is put in flight on a track that another poll is about to insert on, every tip is
inserted when its track has none in flight, and none is enqueued twice. -/
theorem one_tip_in_flight (config : DeployQaConfig) (hskip : config.skipIfPreviousRunning = true)
    (l : List (Step ω)) (hl : Along (State.step config) Alone .initial l) :
    Along (State.step config) (Lone config) .initial l ∧ (enqueued (worked config l)).Nodup :=
  ⟨hl.along (fun _ _ h ha => h.step hskip ha) (fun _ st h _ => h.lone st) pollInv_initial,
    (hl.inv (fun _ _ h ha => h.step hskip ha) pollInv_initial).nodup⟩

instance [Fintype ω] (s : State ω) (st : Step ω) : Decidable (Alone s st) :=
  inferInstanceAs (Decidable (∀ x ∈ takesUp s st, ∀ w, w ≠ x.1 → (s.phase w).clearOn ≠ some x.2))

def firstTip : ReleaseTip := ⟨"org/api", "1.0.0-rc.1", none, none, "", none⟩

def secondTip : ReleaseTip := ⟨"org/api", "1.0.0-rc.2", none, none, "", none⟩

/-- A poll of one worker that enqueues a tip, one of another that leaves a newer tip for later, and
the first tip's run. -/
def twoPolls : List (Step Bool) :=
  [.detect false "api" (some firstTip), .checkDuplicate false, .checkInFlight false,
    .detect true "api" (some secondTip), .upsert false 0, .checkDuplicate true, .checkInFlight true,
    .find true (issueIdFor "api" "org/api" "1.0.0-rc.1"), .claim true 1]

theorem one_tip_twoPolls :
    Along (State.step ⟨true⟩) (Lone ⟨true⟩) .initial twoPolls ∧
      (enqueued (worked ⟨true⟩ twoPolls)).Nodup :=
  one_tip_in_flight ⟨true⟩ rfl twoPolls (by decide +kernel)

/-- Both workers find the track clear before either inserts, and GitHub has a newer tip for the
second. -/
def crossedPolls : List (Step Bool) :=
  [.detect false "api" (some firstTip), .checkDuplicate false, .checkInFlight false,
    .detect true "api" (some secondTip), .checkDuplicate true, .checkInFlight true,
    .upsert false 0]

/-- Or the same one: its row is answered as pending to both. -/
def samePolls : List (Step Bool) :=
  [.detect false "api" (some firstTip), .checkDuplicate false, .checkInFlight false,
    .detect true "api" (some firstTip), .checkDuplicate true, .checkInFlight true,
    .upsert false 0, .upsert true 0]

/-- The second tip is inserted beside the first, and one tip is enqueued twice. -/
theorem two_tips_in_flight :
    ¬ Lone ⟨true⟩ (worked ⟨true⟩ crossedPolls) (.upsert true 0) ∧
      ¬ (enqueued (worked ⟨true⟩ samePolls)).Nodup := by
  refine ⟨fun h => ?_, by decide +kernel⟩
  obtain ⟨-, h⟩ := h 2 (secondTip.row "api" 0) (by decide +kernel) (by decide +kernel)
  have hf := h 1 (firstTip.row "api" 0) (by decide +kernel) rfl
  cases hf

end Claudear.DeployQa
