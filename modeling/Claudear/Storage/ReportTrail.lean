import Claudear.Storage.SecurityCalls
import Claudear.Machine.Trail

/-!
# The audit trail of a report

What the events of a report say is a walk through the state graph, from `received` to
the state the report is in. Every change of a state writes its event in the same
transaction, so the two cannot come apart.
-/

namespace Claudear.Storage.Security

open Claudear.Core Claudear.Core.DateTime Claudear.Sql Claudear.Sql.Tx Claudear.Machine Relation

variable {d d' : Inbox} {i : Nat}

abbrev StateChange := Option SecurityReportState × SecurityReportState

/-- The change of the state of report `i` an event tells of. -/
def EventRow.stateChange (i : Nat) (row : EventRow) : Option StateChange :=
  if row.reportId = some i then
    (row.toState.bind SecurityReportState.ofStr?).map fun n =>
      (row.fromState.bind SecurityReportState.ofStr?, n)
  else none

/-- The state changes of report `i` in the order they were recorded. -/
def Inbox.stateChanges (d : Inbox) (i : Nat) : List StateChange := d.told (EventRow.stateChange i)

/-- A walk through the state graph from `received`. -/
abbrev ReportTrail : List StateChange → SecurityReportState → Prop :=
  Trail (fun s => s = .received) fun s n => s.canTransitionTo n = true

def Inbox.reportState (d : Inbox) (i : Nat) : Option SecurityReportState :=
  (d.reports.get i).map (·.state)

/-- Every report has its trail, and only a report has one. -/
def Audited (d : Inbox) : Prop :=
  Told (fun s => s = .received) (fun s n => s.canTransitionTo n = true) d.reportState d.stateChanges

theorem stateChange_note {row : EventRow} (h : row.isNote) : row.stateChange i = none := by
  unfold EventRow.stateChange
  rcases h.1 with h | h
  · simp [h]
  · simp [h]

theorem stateChanges_entered (d : Inbox) {i j : Nat} {a : Option String}
    {s : Option SecurityReportState} {n : SecurityReportState} (ha : a = s.map (·.asStr))
    (event : NewSecurityEvent) (t : DateTime) :
    (d.record { reportId := some j, fromState := a, toState := some n.asStr } event t).stateChanges i =
      d.stateChanges i ++ if i = j then [(s, n)] else [] := by
  have hs : a.bind SecurityReportState.ofStr? = s := by
    subst ha
    cases s with
    | none => rfl
    | some s => exact SecurityReportState.ofStr?_asStr s
  rw [Inbox.stateChanges, told_record]
  simp only [EventRow.stateChange, Option.some.injEq, Option.bind_some, hs,
    SecurityReportState.ofStr?_asStr, Option.map_some, eq_comm (a := j)]
  congr 1
  split <;> rfl

theorem Audited.of_same (hd : Audited d) (he : d'.events = d.events) (hr : d'.reports = d.reports) :
    Audited d' :=
  hd.congr (fun i => by unfold Inbox.reportState; rw [hr])
    fun i => by unfold Inbox.stateChanges Inbox.told; rw [he]

theorem Audited.noted (hd : Audited d) {row : EventRow} (h : row.isNote) (event : NewSecurityEvent)
    (t : DateTime) : Audited (d.record row event t) :=
  hd.congr (fun _ => rfl) fun i => by simp [Inbox.stateChanges, told_record, stateChange_note h]

/-- Events of vulnerabilities and awards are on no report's trail. -/
theorem Audited.aside (hd : Audited d) {vi : Nat} {a b : Option String} (event : NewSecurityEvent)
    (t : DateTime) :
    Audited (d.record { vulnerabilityId := some vi, fromState := a, toState := b } event t) := by
  refine hd.congr (fun _ => rfl) fun i => ?_
  simp [Inbox.stateChanges, told_record, EventRow.stateChange]

theorem Audited.received (hd : Audited d) (report : NewSecurityReport) (t : DateTime) :
    Audited ({ d with reports := d.reports.insert (report.stored t) }.record
      { reportId := some d.reports.next, toState := some SecurityReportState.received.asStr }
      { kind := .received } t) := by
  refine hd.create (k := d.reports.next) (a := .received) ?_ rfl (fun i => ?_) fun i => ?_
  · rw [Inbox.reportState, Table.get_next]
    rfl
  · show ((d.reports.insert _).get i).map _ = _
    rw [Table.get_insert]
    split <;> rfl
  · exact stateChanges_entered (s := none) { d with reports := _ } rfl _ _

theorem Audited.moved (hd : Audited d) {id : Nat} {s n : SecurityReportState}
    {f : SecurityReport → SecurityReport} (hr : ∃ r, d.reports.get id = some r ∧ r.state = s)
    (ht : s.canTransitionTo n = true) (hf : ∀ r, (f r).state = n) (event : NewSecurityEvent)
    (t : DateTime) :
    Audited ({ d with reports := d.reports.update (inState id s) f }.record
      { reportId := some id, fromState := some s.asStr, toState := some n.asStr } event t) := by
  obtain ⟨r, hr, hs⟩ := hr
  refine hd.move (k := id) (a := s) ?_ ht (fun i => ?_) fun i => ?_
  · rw [Inbox.reportState, hr, Option.map_some, hs]
  · show ((d.reports.update (inState id s) f).get i).map _ = _
    split
    · rename_i hi
      subst hi
      rw [Table.get_update_of hr (inState_iff.mpr ⟨rfl, hs⟩), Option.map_some, hf]
    · rename_i hi
      rw [Table.get_update_of_ne fun r => by simp [inState, hi]]
      rfl
  · exact stateChanges_entered (s := some s) { d with reports := _ } rfl _ _

theorem Effect.audited {c : Target} (h : Effect c d d') (hd : Audited d) : Audited d' := by
  cases h with
  | noted hn => exact hd.noted hn _ _
  | received => exact hd.received _ _
  | skipped => exact hd.congr (fun _ => rfl) fun _ => rfl
  | moved hr ht hf => exact hd.moved hr ht hf _ _
  | followed hf =>
    refine hd.congr (fun i => ?_) fun _ => rfl
    show ((d.reports.update _ _).get i).map _ = _
    rw [Table.get_update, Option.map_map]
    refine Option.map_congr fun r _ => ?_
    simp only [Function.comp]
    split
    · exact hf r
    · rfl
  | created | vulnerabilityMoved | finished => exact hd.of_same rfl rfl
  | replaced => exact (show Audited { d with vulnerabilities := _ } from hd.of_same rfl rfl).aside _ _
  | claimed | reclaimed =>
    exact (show Audited { d with replies := _ } from hd.of_same rfl rfl).noted
      (note_of_report (s := some .sending)) _ _
  | prepared | awardMoved => exact (show Audited { d with awards := _ } from hd.of_same rfl rfl).aside _ _

theorem audited_run (l : List Op) : Audited (run step .empty l) :=
  run_effects Effect.audited (Told.initial (fun _ => rfl) fun _ => rfl) l

/-! ## Refused transitions -/

theorem transitionSecurityReport_refused {now : DateTime} {id : Nat} {s n : SecurityReportState}
    (changes : SecurityReportChanges) (event : NewSecurityEvent)
    (h : s.canTransitionTo n = false ∨ ∀ r, d.reports.get id = some r → r.state ≠ s) :
    (transitionSecurityReport now id s n changes event).run d = .ok (false, d) := by
  have hmove : (moveReport id ⟨s, n⟩ changes (timestamp now)).run d = .ok (false, d) := by
    unfold moveReport
    split
    · rename_i ha
      have hs : d.reports.any (inState id s) = false := by
        rw [Bool.eq_false_iff, Ne, any_inState]
        rintro ⟨r, hr, hs⟩
        rcases h with h | h
        · exact Bool.false_ne_true (h.symm.trans ha)
        · exact h r hr hs
      simp [updateReportInState, StateT.run, hs, Table.update_of_any_false, require]
    · rfl
  unfold transitionSecurityReport
  simp only [StateT.run_bind, hmove]
  rfl

theorem transitionSecurityReport_commit {now : DateTime} {id : Nat} {s n : SecurityReportState}
    {changes : SecurityReportChanges} {event : NewSecurityEvent}
    (h : (transitionSecurityReport now id s n changes event).answersTrue d = false) :
    (transitionSecurityReport now id s n changes event).commit d = d := by
  cases hr : (transitionSecurityReport now id s n changes event).run d with
  | error e => exact commit_error hr
  | ok a =>
    obtain ⟨b, d'⟩ := a
    rw [commit_ok hr]
    rcases transitionSecurityReport_ok hr with ⟨-, rfl⟩ | ⟨rfl, -⟩
    · rfl
    · rw [answersTrue_ok hr] at h
      cases h

/-! ## Terminal states -/

def Inbox.InState (d : Inbox) (i : Nat) (s : SecurityReportState) : Prop :=
  ∃ r, d.reports.get i = some r ∧ r.state = s

theorem Effect.terminal {c : Target} {s : SecurityReportState} (hs : s.isTerminal = true)
    (h : Effect c d d') (hd : d.InState i s) : d'.InState i s := by
  obtain ⟨r, hr, rfl⟩ := hd
  cases h with
  | received => exact ⟨r, Table.get_insert_of hr, rfl⟩
  | @moved _ _ id s n f _ _ _ ht _ _ =>
    refine ⟨r, Table.get_update_of_not hr ?_, rfl⟩
    rw [Bool.eq_false_iff, Ne, inState_iff]
    rintro ⟨-, rfl⟩
    rw [SecurityReportState.not_canTransitionTo hs] at ht
    cases ht
  | @followed _ p f hf =>
    cases hp : p (i, r) with
    | true => exact ⟨f r, Table.get_update_of hr hp, hf r⟩
    | false => exact ⟨r, Table.get_update_of_not hr hp, rfl⟩
  | _ => exact ⟨r, hr, rfl⟩

/-- In every state the calls reach, the events of a report lead from `received` to its state, a
transition that does not answer `true` has changed nothing, and a terminal state is for good. -/
theorem report_audit_trail (l : List Op) :
    let d := run step .empty l
    (∀ i r, d.reports.get i = some r → ReportTrail (d.stateChanges i) r.state) ∧
    (∀ now id s n changes event,
      (s.canTransitionTo n = false ∨ (∀ r, d.reports.get id = some r → r.state ≠ s) →
        (transitionSecurityReport now id s n changes event).run d = .ok (false, d)) ∧
      ((transitionSecurityReport now id s n changes event).answersTrue d = false →
        (transitionSecurityReport now id s n changes event).commit d = d)) ∧
    ∀ i r, d.reports.get i = some r → r.state.isTerminal = true →
      ∀ m, (run step d m).InState i r.state := by
  refine ⟨fun i r hr => ?_, fun now id s n changes event => ⟨?_, ?_⟩, ?_⟩
  · exact (audited_run l i).1 r.state (by rw [Inbox.reportState, hr, Option.map_some])
  · exact transitionSecurityReport_refused changes event
  · exact transitionSecurityReport_commit
  · intro i r hr hs m
    exact run_effects (Effect.terminal hs) ⟨r, hr, rfl⟩ m

end Claudear.Storage.Security
