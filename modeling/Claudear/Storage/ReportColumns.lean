import Claudear.Storage.SecurityCalls

/-!
# What a call may change of a report

A report is linked to a vulnerability by a transition that names one, its state
is moved by a call that names the state it is moved from, and it becomes a first
reporter by a creation or a replacement.
-/

namespace Claudear.Storage.Security

open Claudear.Core Claudear.Sql

variable {d d' : Inbox} {now t : DateTime} {ri : Nat} {r : SecurityReport}

/-- The report a call may link, and the vulnerability. -/
def Call.links {α : Type} : Call α → Option (Nat × Nat)
  | .transitionReport id _ _ changes _ => changes.vulnerabilityId.map (id, ·)
  | _ => none

/-- The call may move a report out of the state. -/
def Call.leaves {α : Type} (s : SecurityReportState) : Call α → Bool
  | .transitionReport _ expected _ _ _ => expected = s
  | .releaseStale _ => s = .assessing
  | .completeReply _ _ _ _ _ transition => transition.any (·.fromState = s)
  | _ => false

/-- What a call may change of report `ri`. -/
structure ReportChange {α : Type} (call : Call α) (ri : Nat) (r r' : SecurityReport) : Prop where
  state : r'.state = r.state ∨
    call.leaves r.state = true ∧ r.state.canTransitionTo r'.state = true
  link : r'.vulnerabilityId = r.vulnerabilityId ∨
    ∃ vi, call.links = some (ri, vi) ∧ r'.vulnerabilityId = some vi

variable {α : Type} {call : Call α} {a : α}

theorem ReportChange.refl : ReportChange call ri r r := ⟨.inl rfl, .inl rfl⟩

/-- An `UPDATE` of the reports by the call. -/
theorem report_update {p : Nat × SecurityReport → Bool} {f : SecurityReport → SecurityReport}
    (he : d'.reports = d.reports.update p f) (hr : d.reports.get ri = some r)
    (hf : p (ri, r) = true → ReportChange call ri r (f r)) :
    ∃ r', d'.reports.get ri = some r' ∧ ReportChange call ri r r' := by
  cases hp : p (ri, r) with
  | true => exact ⟨f r, he ▸ Table.get_update_of hr hp, hf hp⟩
  | false => exact ⟨r, he ▸ Table.get_update_of_not hr hp, .refl⟩

/-- Each of the released reports was in assessment. -/
theorem Releases.report {staleAfter : Nat} {ids : List Nat} (h : Releases staleAfter t d ids d')
    (hr : d.reports.get ri = some r) : ∃ r', d'.reports.get ri = some r' ∧
      r'.vulnerabilityId = r.vulnerabilityId ∧
      (r'.state = r.state ∨ r.state = .assessing ∧ r'.state = .received) := by
  induction h generalizing r with
  | nil => exact ⟨r, hr, rfl, .inl rfl⟩
  | @cons d d' id ids _ _ ih =>
    by_cases hp : inState id .assessing (ri, r) = true
    · obtain ⟨r', hr', hl, hs⟩ := ih (Table.get_update_of hr hp)
      refine ⟨r', hr', hl, .inr ⟨(inState_iff.mp hp).2, ?_⟩⟩
      rcases hs with hs | ⟨hs, -⟩
      · exact hs
      · cases hs
    · exact ih (Table.get_update_of_not hr (eq_false_of_ne_true hp))

/-! ## First reporters -/

/-- The first reporter of a vulnerability. -/
def Inbox.firstOf (d : Inbox) (vi : Nat) : Option Nat :=
  (d.vulnerabilities.get vi).map (·.firstReportId)

/-- The call may make a report the first reporter of a vulnerability. -/
def Call.namesFirst {α : Type} : Call α → Bool
  | .createVulnerability .. | .replaceFirstReporter .. => true
  | _ => false

theorem Releases.vulnerabilities {staleAfter : Nat} {ids : List Nat}
    (h : Releases staleAfter t d ids d') : d'.vulnerabilities = d.vulnerabilities := by
  induction h with
  | nil => rfl
  | cons _ _ ih => exact ih

/-- What a call does to the columns of a report, and to a first reporter it does not name. -/
theorem columns_exec (h : (exec now call).run d = .ok (a, d')) :
    (∀ ri r, d.reports.get ri = some r → ∃ r', d'.reports.get ri = some r' ∧ ReportChange call ri r r') ∧
      (call.namesFirst = false → ∀ vi, d'.firstOf vi = d.firstOf vi) := by
  have hreports (he : d'.reports = d.reports) (ri : Nat) (r : SecurityReport) (hr : d.reports.get ri = some r) :
      ∃ r', d'.reports.get ri = some r' ∧ ReportChange call ri r r' := ⟨r, he ▸ hr, .refl⟩
  have hfirst (he : d'.vulnerabilities = d.vulnerabilities) (_ : call.namesFirst = false) (vi : Nat) :
      d'.firstOf vi = d.firstOf vi := by
    rw [Inbox.firstOf, Inbox.firstOf, he]
  cases call with
  | upsertReport report =>
    rcases (upsertSecurityReport_ok h).2 with rfl | ⟨-, rfl⟩
    · exact ⟨fun ri r hr => ⟨r, hr, .refl⟩, hfirst rfl⟩
    · exact ⟨fun ri r hr => ⟨r, Table.get_insert_of hr, .refl⟩, hfirst rfl⟩
  | transitionReport id s n changes event =>
    rcases transitionSecurityReport_ok h with ⟨-, rfl⟩ | ⟨-, ht, -, -, rfl⟩
    · exact ⟨hreports rfl, hfirst rfl⟩
    · refine ⟨fun ri r hr => report_update rfl hr fun hp => ?_, hfirst rfl⟩
      obtain ⟨rfl, rfl⟩ := inState_iff.mp hp
      refine ⟨.inr ⟨decide_eq_true rfl, ht⟩, ?_⟩
      cases hv : changes.vulnerabilityId with
      | none => exact .inl (by simp only [SecurityReportChanges.assign, hv, Option.none_or])
      | some vi =>
        refine .inr ⟨vi, by rw [Call.links, hv]; rfl, ?_⟩
        simp only [SecurityReportChanges.assign, hv, Option.some_or]
  | releaseStale staleAfter =>
    obtain ⟨ids, h⟩ := releaseStaleSecurityAssessments_ok h
    refine ⟨fun ri r hr => ?_, hfirst h.vulnerabilities⟩
    obtain ⟨r', hr', hl, hs⟩ := h.report hr
    refine ⟨r', hr', hs.imp (fun h => h) ?_, .inl hl⟩
    rintro ⟨hs, hs'⟩
    exact ⟨decide_eq_true hs, by rw [hs, hs']; rfl⟩
  | followUp id expected new =>
    rcases recordSecurityFollowUp_ok h with rfl | ⟨event, rfl⟩
    · exact ⟨hreports rfl, hfirst rfl⟩
    · exact ⟨fun ri r hr => report_update rfl hr fun _ => ⟨.inl rfl, .inl rfl⟩, hfirst rfl⟩
  | recordEvent ri vi event =>
    rw [recordSecurityEvent_ok h]
    exact ⟨fun ri r hr => ⟨r, hr, .refl⟩, fun _ _ => rfl⟩
  | createVulnerability v =>
    obtain ⟨-, -, rfl⟩ := createSecurityVulnerability_ok h
    exact ⟨hreports rfl, nofun⟩
  | transitionVulnerability id s n changes event =>
    rcases transitionSecurityVulnerability_ok h with rfl | rfl
    · exact ⟨hreports rfl, hfirst rfl⟩
    · refine ⟨hreports rfl, fun _ vi => ?_⟩
      show ((d.vulnerabilities.update _ _).get vi).map _ = _
      rw [Table.get_update, Option.map_map]
      unfold Inbox.firstOf
      congr 1
      funext v
      simp only [Function.comp]
      split <;> rfl
  | replaceFirstReporter id expected reportId reportedAt =>
    rcases replaceFirstReporter_ok h with ⟨-, rfl, -⟩ | ⟨-, -, -, -, rfl⟩ <;> exact ⟨hreports rfl, nofun⟩
  | claimReply ri k event =>
    rcases claimSecurityReply_ok h with ⟨-, rfl, -⟩ | ⟨-, -, -, ⟨-, rfl⟩ | ⟨-, rfl⟩⟩ <;>
      exact ⟨hreports rfl, hfirst rfl⟩
  | completeReply rj k s error event transition =>
    obtain ⟨-, -, d₁, hd₁, rfl⟩ := completeSecurityReply_ok h
    rcases hd₁ with ⟨-, rfl, -⟩ | ⟨-, tr, rfl, ht, -, rfl⟩
    · exact ⟨hreports rfl, hfirst rfl⟩
    · refine ⟨fun ri r hr => report_update rfl hr fun hp => ?_, hfirst rfl⟩
      have hs : r.state = tr.fromState := (inState_iff.mp hp).2
      exact ⟨.inr ⟨decide_eq_true hs.symm, hs ▸ ht⟩, .inl rfl⟩
  | confirmReply ri k delivered actor =>
    rcases confirmSecurityReply_ok h with ⟨-, rfl⟩ | ⟨-, -, rfl⟩ <;> exact ⟨hreports rfl, hfirst rfl⟩
  | prepareAward vi ri award =>
    rcases prepareSecurityAward_ok h with ⟨-, rfl⟩ | ⟨-, v, r, -, -, -, -, rfl⟩ <;>
      exact ⟨hreports rfl, hfirst rfl⟩
  | updateAward vi expected next actor note =>
    rcases updateSecurityAwardStatus_ok h with ⟨-, rfl⟩ | ⟨-, a, -, -, -, event, rfl⟩ <;>
      exact ⟨hreports rfl, hfirst rfl⟩

theorem report_exec (h : (exec now call).run d = .ok (a, d')) (hr : d.reports.get ri = some r) :
    ∃ r', d'.reports.get ri = some r' ∧ ReportChange call ri r r' :=
  (columns_exec h).1 ri r hr

theorem firstOf_exec {vi : Nat} (h : (exec now call).run d = .ok (a, d'))
    (hc : call.namesFirst = false) : d'.firstOf vi = d.firstOf vi := (columns_exec h).2 hc vi

/-! ## Links -/

def Inbox.link (d : Inbox) (ri : Nat) : Option Nat := (d.reports.get ri).bind (·.vulnerabilityId)

theorem link_eq_some {vi : Nat} :
    d.link ri = some vi ↔ ∃ r, d.reports.get ri = some r ∧ r.vulnerabilityId = some vi :=
  Option.bind_eq_some_iff

/-- A call that does not link a report leaves its link. -/
theorem link_same (h : (exec now call).run d = .ok (a, d')) (hr : (d.reports.get ri).isSome = true)
    (hc : ∀ vi, call.links ≠ some (ri, vi)) : d'.link ri = d.link ri := by
  obtain ⟨r, hr⟩ := Option.isSome_iff_exists.mp hr
  obtain ⟨r', hr', hchange⟩ := report_exec h hr
  rcases hchange.link with he | ⟨vi, hvi, -⟩
  · rw [Inbox.link, Inbox.link, hr, hr', Option.bind_some, Option.bind_some, he]
  · exact absurd hvi (hc vi)

theorem known_exec (h : (exec now call).run d = .ok (a, d')) (hr : (d.reports.get ri).isSome = true) :
    (d'.reports.get ri).isSome = true := by
  obtain ⟨r, hr⟩ := Option.isSome_iff_exists.mp hr
  obtain ⟨r', hr', -⟩ := report_exec h hr
  rw [hr']
  rfl

/-- A link stays, unless the call links the report to another vulnerability. -/
theorem link_exec {vi : Nat} (h : (exec now call).run d = .ok (a, d')) (hl : d.link ri = some vi)
    (hc : ∀ vj, call.links = some (ri, vj) → vj = vi) : d'.link ri = some vi := by
  obtain ⟨r, hr, hv⟩ := link_eq_some.mp hl
  obtain ⟨r', hr', hchange⟩ := report_exec h hr
  refine link_eq_some.mpr ⟨r', hr', ?_⟩
  rcases hchange.link with he | ⟨vj, hvj, he⟩
  · exact he.trans hv
  · rw [he, hc vj hvj]

theorem firstOf_created {v : NewSecurityVulnerability} {c : Nat × SecurityVulnerability}
    (h : (createSecurityVulnerability now v).run d = .ok (c, d')) (vi : Nat) :
    d'.firstOf vi = if vi = c.1 then some v.firstReportId else d.firstOf vi := by
  obtain ⟨rfl, -, rfl⟩ := createSecurityVulnerability_ok h
  show ((d.vulnerabilities.insert _).get vi).map _ = _
  rw [Table.get_insert]
  split
  · rfl
  · rfl

theorem firstOf_replaced {id expected reportId : Nat} {reportedAt : DateTime}
    (h : (replaceFirstReporter now id expected reportId reportedAt).run d = .ok (true, d')) :
    d.firstOf id = some expected ∧
      ∀ vi, d'.firstOf vi = if vi = id then some reportId else d.firstOf vi := by
  rcases replaceFirstReporter_ok h with ⟨hb, -⟩ | ⟨-, -, -, hany, rfl⟩
  · cases hb
  · obtain ⟨i, v, hv, hp⟩ := Table.any_eq_true.mp hany
    obtain ⟨rfl, rfl, -⟩ := replaceable_iff.mp hp
    refine ⟨by rw [Inbox.firstOf, hv, Option.map_some], fun vi => ?_⟩
    show ((d.vulnerabilities.update _ _).get vi).map _ = _
    by_cases hi : vi = i
    · subst hi
      rw [Table.get_update_of hv hp, if_pos rfl]
      rfl
    · rw [if_neg hi, Table.get_update_of_ne fun c => ?_]
      · rfl
      · rw [Bool.eq_false_iff, Ne, replaceable_iff]
        exact fun h => hi h.1

end Claudear.Storage.Security
