import Claudear.Storage.SecurityCalls
import Claudear.Machine.Trail

/-!
# Awards

An award is prepared for the first reporter of its vulnerability, and from then
on the first reporter is not replaced: each of the two statements looks at the
table the other one writes. The timeline tells the statuses of an award, one
event a step.
-/

namespace Claudear.Storage.Security

open Claudear.Core Claudear.Sql Claudear.Machine Relation

variable {d d' : Inbox} {i vi : Nat} {t : DateTime}

/-! ## Statuses and their events -/

abbrev AwardChange := Option AwardStatus × AwardStatus

/-- The change of the status of the award of `vi` an event tells of. -/
def EventRow.awardChange (vi : Nat) (row : EventRow) : Option AwardChange :=
  if row.vulnerabilityId = some vi then
    (row.toState.bind AwardStatus.ofStr?).map fun n => (row.fromState.bind AwardStatus.ofStr?, n)
  else none

/-- The statuses of the award of `vi` in the order they were recorded. -/
def Inbox.awardChanges (d : Inbox) (vi : Nat) : List AwardChange := d.told (EventRow.awardChange vi)

/-- A walk through the graph of award statuses from `prepared`. -/
abbrev AwardTrail : List AwardChange → AwardStatus → Prop :=
  Trail (fun s => s = .prepared) fun s n => s.canTransitionTo n = true

def Inbox.awardStatus (d : Inbox) (vi : Nat) : Option AwardStatus := (d.award vi).map (·.status)

theorem awardChange_note {row : EventRow} (h : row.isNote) : row.awardChange vi = none := by
  unfold EventRow.awardChange
  rcases h.2 with h | h
  · simp [h]
  · simp [h]

theorem awardChanges_entered (d : Inbox) {vi vj : Nat} {a : Option String} {s : Option AwardStatus}
    {n : AwardStatus} (ha : a = s.map (·.asStr)) (event : NewSecurityEvent) (t : DateTime) :
    (d.record { vulnerabilityId := some vj, fromState := a, toState := some n.asStr } event
      t).awardChanges vi = d.awardChanges vi ++ if vi = vj then [(s, n)] else [] := by
  have hs : a.bind AwardStatus.ofStr? = s := by
    subst ha
    cases s with
    | none => rfl
    | some s => exact AwardStatus.ofStr?_asStr s
  rw [Inbox.awardChanges, told_record]
  simp only [EventRow.awardChange, Option.some.injEq, Option.bind_some, hs,
    AwardStatus.ofStr?_asStr, Option.map_some, eq_comm (a := vj)]
  congr 1
  split <;> rfl

/-! ## The pin -/

structure AwardsPinned (d : Inbox) : Prop where
  unique : Table.Unique (fun a => some a.vulnerabilityId) d.awards
  pinned : ∀ i a, d.awards.get i = some a →
    ∃ v, d.vulnerabilities.get a.vulnerabilityId = some v ∧ v.firstReportId = a.reportId
  told : Told (fun s => s = .prepared) (fun s n => s.canTransitionTo n = true) d.awardStatus
    d.awardChanges

theorem award_eq_some (h : AwardsPinned d) {a : SecurityAward} (ha : d.awards.get i = some a) :
    d.award a.vulnerabilityId = some a := by
  obtain ⟨⟨j, b⟩, hb⟩ := Table.exists_first (p := (·.2.vulnerabilityId = a.vulnerabilityId)) ha
    (decide_eq_true rfl)
  obtain ⟨hget, hk⟩ := Table.first_get hb
  have hj : j = i := h.unique hget ha (congrArg some (of_decide_eq_true hk)) rfl
  subst hj
  rw [Inbox.award, hb]
  exact hget.symm.trans ha

theorem award_eq_none : d.award vi = none ↔ d.awards.any (·.2.vulnerabilityId = vi) = false := by
  rw [Inbox.award, Option.map_eq_none_iff, Table.first_eq_none, Bool.eq_false_iff, Ne,
    Table.any_eq_true]
  simp only [not_exists, not_and, Bool.not_eq_true]

/-- A change that leaves the awards and the first reporters alone. -/
theorem AwardsPinned.frame (hd : AwardsPinned d) (ha : d'.awards = d.awards)
    (hv : ∀ i v, d.vulnerabilities.get i = some v →
      ∃ v', d'.vulnerabilities.get i = some v' ∧ v'.firstReportId = v.firstReportId)
    (hc : ∀ vi, d'.awardChanges vi = d.awardChanges vi) : AwardsPinned d' where
  unique := by
    rw [ha]
    exact hd.unique
  pinned := by
    rw [ha]
    intro i a hi
    obtain ⟨v, hget, hf⟩ := hd.pinned i a hi
    obtain ⟨v', hget', hf'⟩ := hv _ v hget
    exact ⟨v', hget', hf'.trans hf⟩
  told := hd.told.congr (fun vi => by unfold Inbox.awardStatus Inbox.award; rw [ha]) hc

theorem AwardsPinned.of_same (hd : AwardsPinned d) (he : d'.events = d.events)
    (ha : d'.awards = d.awards) (hv : d'.vulnerabilities = d.vulnerabilities) : AwardsPinned d' :=
  hd.frame ha (fun i v h => ⟨v, by rw [hv, h], rfl⟩)
    fun vi => by unfold Inbox.awardChanges Inbox.told; rw [he]

theorem AwardsPinned.noted (hd : AwardsPinned d) {row : EventRow} (h : row.isNote)
    (event : NewSecurityEvent) (t : DateTime) : AwardsPinned (d.record row event t) :=
  hd.frame rfl (fun _ v h => ⟨v, h, rfl⟩) fun vi => by
    simp [Inbox.awardChanges, told_record, awardChange_note h]

/-- What is written about reports and replies is on no award's trail. -/
theorem AwardsPinned.aside (hd : AwardsPinned d) {reports : Table SecurityReport}
    {replies : Table SecurityReply} {ri : Nat} {a b : Option String} (event : NewSecurityEvent)
    (t : DateTime) :
    AwardsPinned ({ d with reports := reports, replies := replies }.record
      { reportId := some ri, fromState := a, toState := b } event t) := by
  refine hd.frame rfl (fun _ v h => ⟨v, h, rfl⟩) fun vi => ?_
  rw [Inbox.awardChanges, told_record, EventRow.awardChange, if_neg nofun]
  exact List.append_nil _

theorem AwardsPinned.replaced (hd : AwardsPinned d) (now : DateTime) (id expected reportId : Nat)
    (reportedAt : DateTime) : AwardsPinned (d.replaced now id expected reportId reportedAt) where
  unique := hd.unique
  pinned := by
    intro i a (ha : d.awards.get i = some a)
    obtain ⟨v, hv, hf⟩ := hd.pinned i a ha
    refine ⟨v, Table.get_update_of_not hv ?_, hf⟩
    rw [Bool.eq_false_iff, Ne, replaceable_iff]
    rintro ⟨rfl, -, -, hn⟩
    rw [Table.any_eq_true.mpr ⟨i, a, ha, decide_eq_true rfl⟩] at hn
    cases hn
  told := hd.told.congr (fun _ => rfl) fun vj => by
    have hn : EventRow.isNote { vulnerabilityId := some id } := ⟨.inl rfl, .inr rfl⟩
    simp only [Inbox.awardChanges, Inbox.replaced, told_record, awardChange_note hn]
    exact List.append_nil _

theorem AwardsPinned.prepared (hd : AwardsPinned d) {v : SecurityVulnerability}
    (hv : d.vulnerabilities.get vi = some v)
    (hn : d.awards.any (·.2.vulnerabilityId = vi) = false) (award : NewSecurityAward)
    (email : Option String) (t : DateTime) :
    AwardsPinned (d.prepared vi v.firstReportId award email t) where
  unique := by
    refine hd.unique.insert fun k hk i a ha he => ?_
    cases hk
    rw [Table.any_eq_true.mpr ⟨i, a, ha, decide_eq_true (Option.some.inj he)⟩] at hn
    cases hn
  pinned := by
    intro i a ha
    rcases Table.get_insert_cases ha with ⟨-, rfl⟩ | ha
    · exact ⟨v, hv, rfl⟩
    · exact hd.pinned i a ha
  told := by
    refine hd.told.create (k := vi) (a := .prepared) ?_ rfl (fun vj => ?_) fun vj => ?_
    · rw [Inbox.awardStatus, award_eq_none.mpr hn]
      rfl
    · show (((d.awards.insert _).first _).map Prod.snd).map _ = _
      rw [Table.first_insert]
      by_cases hj : vj = vi
      · subst hj
        have h := award_eq_none.mpr hn
        rw [Inbox.award, Option.map_eq_none_iff] at h
        simp [h, NewSecurityAward.stored]
      · simp [hj, Ne.symm hj, NewSecurityAward.stored, Inbox.awardStatus, Inbox.award]
    · exact awardChanges_entered (s := none) { d with awards := _ } rfl _ _

theorem award_moved {s n : AwardStatus} {actor note : Option String} {event : NewSecurityEvent}
    {vj : Nat} : (d.awardMoved vi s n actor note event t).award vj = (d.award vj).map fun a =>
      if vj = vi ∧ a.status = s then
        { a with status := n, actor := actor.or a.actor, note := note.or a.note, updatedAt := t }
      else a := by
  show ((d.awards.update _ _).first _).map Prod.snd = _
  rw [Table.first_update]
  · unfold Inbox.award
    cases ha : d.awards.first fun a => decide (a.2.vulnerabilityId = vj) with
    | none => rfl
    | some q =>
      obtain ⟨i, a⟩ := q
      have hk : a.vulnerabilityId = vj := of_decide_eq_true (Table.first_get ha).2
      subst hk
      simp only [Option.map_some, Table.setWhere, awardInStatus_iff]
      split <;> rfl
  · rintro ⟨i, a⟩
    unfold Table.setWhere
    split <;> rfl

theorem AwardsPinned.awardMoved (hd : AwardsPinned d) {a : SecurityAward} {n : AwardStatus}
    (ha : d.award vi = some a) (ht : a.status.canTransitionTo n = true)
    (actor note : Option String) (event : NewSecurityEvent) (t : DateTime) :
    AwardsPinned (d.awardMoved vi a.status n actor note event t) where
  unique := hd.unique.update fun _ _ h => h
  pinned := by
    intro i b hb
    obtain ⟨c, hc, ⟨-, rfl⟩ | ⟨-, rfl⟩⟩ := Table.get_update_cases hb
    · exact hd.pinned i c hc
    · exact hd.pinned i b hc
  told := by
    refine hd.told.move (k := vi) (a := a.status) ?_ ht (fun vj => ?_) fun vj => ?_
    · rw [Inbox.awardStatus, ha, Option.map_some]
    · rw [Inbox.awardStatus, award_moved]
      by_cases hj : vj = vi
      · subst hj
        simp [ha]
      · simp [hj, Inbox.awardStatus]
    · exact awardChanges_entered (s := some a.status) { d with awards := _ } rfl _ _

theorem Effect.pinned {c : Target} (h : Effect c d d') (hd : AwardsPinned d) :
    AwardsPinned d' := by
  cases h with
  | noted hn => exact hd.noted hn _ _
  | received | moved | claimed | reclaimed => exact hd.aside _ _
  | skipped | followed | finished => exact hd.of_same rfl rfl rfl
  | created => exact hd.frame rfl (fun _ v h => ⟨v, Table.get_insert_of h, rfl⟩) fun _ => rfl
  | @vulnerabilityMoved _ p f hf =>
    refine hd.frame rfl (fun i v h => ?_) fun _ => rfl
    cases hp : p (i, v) with
    | true => exact ⟨f v, Table.get_update_of h hp, (hf v).1⟩
    | false => exact ⟨v, Table.get_update_of_not h hp, rfl⟩
  | replaced => exact hd.replaced _ _ _ _ _
  | prepared hv hn => exact hd.prepared hv hn _ _ _
  | awardMoved ha ht => exact hd.awardMoved ha ht _ _ _ _

/-! ## Standing awards -/

/-- The award of `vi` is the report's, and it has not been cancelled. -/
def AwardStands (d : Inbox) (vi ri : Nat) : Prop :=
  ∃ a, d.award vi = some a ∧ a.reportId = ri ∧ a.status ≠ .cancelled

/-- The vulnerability whose award a call cancels. -/
def Call.cancels {α : Type} : Call α → Option Nat
  | .updateAward vi _ .cancelled _ _ => some vi
  | _ => none

def Target.isAward : Target → Bool
  | .award _ => true
  | _ => false

theorem awards_within {c : Target} (hc : c.isAward = false) (h : ReflTransGen (Effect c) d d') :
    d'.awards = d.awards := by
  induction h with
  | refl => rfl
  | tail _ he ih =>
    refine Eq.trans ?_ ih
    cases he with
    | prepared => cases hc
    | awardMoved => cases hc
    | _ => rfl

theorem award_prepared {ri vj : Nat} {award : NewSecurityAward} {email : Option String} :
    (d.prepared vi ri award email t).award vj =
      (d.award vj).or (if vj = vi then some (award.stored vi ri email t) else none) := by
  show ((d.awards.insert _).first _).map Prod.snd = _
  rw [Table.first_insert, Option.map_or]
  congr 1
  simp only [NewSecurityAward.stored, decide_eq_true_eq, eq_comm (a := vi)]
  split <;> rfl

/-- Only its cancelling ends an award. -/
theorem stands_exec {now : DateTime} {α : Type} {call : Call α} {a : α} {ri : Nat}
    (h : (exec now call).run d = .ok (a, d')) (hc : call.cancels ≠ some vi)
    (hs : AwardStands d vi ri) : AwardStands d' vi ri := by
  obtain ⟨b, hb, hri, hstatus⟩ := hs
  have hframe (hf : call.target.isAward = false) : AwardStands d' vi ri := by
    refine ⟨b, ?_, hri, hstatus⟩
    rw [← hb, Inbox.award, Inbox.award, awards_within hf (exec_within call h)]
  cases call with
  | prepareAward vj ri award =>
    rcases prepareSecurityAward_ok h with ⟨-, rfl⟩ | ⟨-, v, r, -, -, -, -, rfl⟩
    · exact ⟨b, hb, hri, hstatus⟩
    · exact ⟨b, by rw [award_prepared, hb]; rfl, hri, hstatus⟩
  | updateAward vj expected next actor note =>
    rcases updateSecurityAwardStatus_ok h with ⟨-, rfl⟩ | ⟨-, c, -, -, -, event, rfl⟩
    · exact ⟨b, hb, hri, hstatus⟩
    · refine ⟨_, by rw [award_moved, hb]; rfl, ?_⟩
      dsimp only
      split
      · next hk =>
        refine ⟨hri, fun hn => hc ?_⟩
        rw [hk.1]
        cases hn
        rfl
      · exact ⟨hri, hstatus⟩
  | _ => exact hframe rfl

/-! ## Awards over a run -/

/-- Nothing changes whose award it is, and a final status does not change. -/
def KeepsAward (i : Nat) (a : SecurityAward) (d : Inbox) : Prop :=
  ∃ b, d.awards.get i = some b ∧ b.vulnerabilityId = a.vulnerabilityId ∧ b.reportId = a.reportId ∧
    (a.status = .awarded ∨ a.status = .cancelled → b.status = a.status)

theorem Effect.keepsAward {c : Target} {a : SecurityAward} (h : Effect c d d')
    (hd : KeepsAward i a d) : KeepsAward i a d' := by
  obtain ⟨b, hb, hv, hr, hs⟩ := hd
  cases h with
  | prepared => exact ⟨b, Table.get_insert_of hb, hv, hr, hs⟩
  | @awardMoved _ vi c n actor note _ t hc ht =>
    cases hp : awardInStatus vi c.status (i, b) with
    | false => exact ⟨b, Table.get_update_of_not hb hp, hv, hr, hs⟩
    | true =>
      refine ⟨_, Table.get_update_of hb hp, hv, hr, fun hfin => ?_⟩
      have hbs : b.status = c.status := (awardInStatus_iff.mp hp).2
      rw [AwardStatus.not_canTransitionTo (hbs ▸ hs hfin ▸ hfin)] at ht
      cases ht
  | _ => exact ⟨b, hb, hv, hr, hs⟩

/-- A vulnerability with an award keeps one. -/
theorem award_run (h : (d.award vi).isSome = true) (m : List Op) :
    ((run step d m).award vi).isSome = true := by
  obtain ⟨a, ha⟩ := Option.isSome_iff_exists.mp h
  obtain ⟨⟨i, b⟩, hb, rfl⟩ := Option.map_eq_some_iff.mp ha
  obtain ⟨hget, hk⟩ := Table.first_get hb
  obtain ⟨c, hc, hv, -⟩ := run_effects (P := KeepsAward i b) Effect.keepsAward
    ⟨b, hget, rfl, rfl, fun _ => rfl⟩ m
  obtain ⟨r, hr⟩ := Table.exists_first (p := (·.2.vulnerabilityId = vi)) hc
    (decide_eq_true (hv.trans (of_decide_eq_true hk)))
  rw [Inbox.award, hr]
  rfl

theorem pinned_run (l : List Op) : AwardsPinned (run step .empty l) :=
  run_effects Effect.pinned
    ⟨Table.unique_empty, fun _ _ h => (by cases h), Told.initial (fun _ => rfl) fun _ => rfl⟩ l

/-- In every state the calls reach, a vulnerability has at most one award, for its first reporter;
the events tell its statuses from `prepared` to the one it has; and it stays the award of that
report, and for good what it was in the end. -/
theorem award_integrity (l : List Op) :
    let d := run step .empty l
    (∀ i j a b, d.awards.get i = some a → d.awards.get j = some b →
      a.vulnerabilityId = b.vulnerabilityId → i = j) ∧
    (∀ i a, d.awards.get i = some a →
      (∃ v, d.vulnerabilities.get a.vulnerabilityId = some v ∧ v.firstReportId = a.reportId) ∧
      AwardTrail (d.awardChanges a.vulnerabilityId) a.status ∧ ∀ m, KeepsAward i a (run step d m)) ∧
    ∀ vi, d.award vi = none → d.awardChanges vi = [] := by
  have h := pinned_run l
  refine ⟨fun i j a b hi hj e => ?_, fun i a ha => ⟨h.pinned i a ha, ?_, fun m => ?_⟩, ?_⟩
  · exact h.unique hi hj (congrArg some e) rfl
  · refine (h.told _).1 a.status ?_
    rw [Inbox.awardStatus, award_eq_some h ha, Option.map_some]
  · exact run_effects Effect.keepsAward ⟨a, ha, rfl, rfl, fun _ => rfl⟩ m
  · intro vi hn
    refine (h.told vi).2 ?_
    rw [Inbox.awardStatus, hn, Option.map_none]

end Claudear.Storage.Security
