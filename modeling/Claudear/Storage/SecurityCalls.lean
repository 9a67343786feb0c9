import Claudear.Storage.Security

/-!
# What the security calls do

One lemma a call says what an answered call has done: nothing, or one change
with its event in the same transaction. `Effect` sums the changes up, and
`exec_within` says that every call is a chain of them; only the release of stale
assessments makes more than one. An invariant of the store is a case analysis
over `Effect` and looks at no call again.
-/

namespace Claudear.Storage.Security

open Claudear.Core Claudear.Core.DateTime Claudear.Sql Claudear.Sql.Tx Claudear.Machine Relation

variable {d d' : Inbox} {now t : DateTime}

/-- The store with one more event. -/
def Inbox.record (d : Inbox) (row : EventRow) (event : NewSecurityEvent) (t : DateTime) : Inbox :=
  { d with events := d.events.insert (row.stored event t) }

def SecurityEvent.row (e : SecurityEvent) : EventRow :=
  ⟨e.reportId, e.vulnerabilityId, e.fromState, e.toState⟩

/-- What `f` reads off the events, in the order they were recorded. -/
def Inbox.told {β : Type} (d : Inbox) (f : EventRow → Option β) : List β :=
  d.events.rows.filterMap fun e => f e.2.row

theorem told_record {β : Type} (d : Inbox) (f : EventRow → Option β) (row : EventRow)
    (event : NewSecurityEvent) (t : DateTime) :
    (d.record row event t).told f = d.told f ++ (f row).toList := by
  have h : ([(d.events.next, row.stored event t)].filterMap fun e => f e.2.row) =
      (f row).toList := by
    cases hf : f row <;> simp [SecurityEvent.row, EventRow.stored, hf]
  rw [← h]
  exact List.filterMap_append

/-! ## Statements -/

theorem insertEvent_ok {row : EventRow} {event : NewSecurityEvent} {u : Unit}
    (h : (insertEvent row event t).run d = .ok (u, d')) : d' = d.record row event t := by
  obtain ⟨-, h⟩ := require_bind h
  obtain ⟨-, h⟩ := require_bind h
  cases h
  rfl

theorem insertEvent_run {row : EventRow} (hr : ∀ i ∈ row.reportId, (d.reports.get i).isSome)
    (hv : ∀ i ∈ row.vulnerabilityId, (d.vulnerabilities.get i).isSome) (event : NewSecurityEvent)
    (t : DateTime) : (insertEvent row event t).run d = .ok ((), d.record row event t) := by
  show (require _ _ >>= fun _ => _) = _
  rw [require, if_pos hr, require, if_pos hv]
  rfl

theorem inState_iff {id i : Nat} {s : SecurityReportState} {r : SecurityReport} :
    inState id s (i, r) = true ↔ i = id ∧ r.state = s := by
  simp [inState]

theorem any_inState {id : Nat} {s : SecurityReportState} :
    d.reports.any (inState id s) = true ↔ ∃ r, d.reports.get id = some r ∧ r.state = s := by
  simp only [Table.any_eq_true, inState_iff]
  constructor
  · rintro ⟨i, r, hr, rfl, hs⟩
    exact ⟨r, hr, hs⟩
  · rintro ⟨r, hr, hs⟩
    exact ⟨id, r, hr, rfl, hs⟩

/-- The reports after a transition of `id`. -/
def Inbox.moved (d : Inbox) (id : Nat) (s n : SecurityReportState) (changes : SecurityReportChanges)
    (t : DateTime) : Inbox :=
  { d with reports := d.reports.update (inState id s) fun r =>
      changes.assign { r with state := n, updatedAt := t } }

theorem moveReport_ok {id : Nat} {tr : ReportTransition} {changes : SecurityReportChanges} {b : Bool}
    (h : (moveReport id tr changes t).run d = .ok (b, d')) :
    (b = false ∧ d' = d ∧
        (tr.isAllowed = true → d.reports.any (inState id tr.fromState) = false)) ∨
      b = true ∧ tr.fromState.canTransitionTo tr.toState = true ∧
      (∃ r, d.reports.get id = some r ∧ r.state = tr.fromState) ∧
      (∀ v ∈ changes.vulnerabilityId, (d.vulnerabilities.get v).isSome) ∧
      d' = d.moved id tr.fromState tr.toState changes t := by
  unfold moveReport at h
  split at h
  · rename_i ha
    obtain ⟨hv, h⟩ := require_bind h
    cases h
    cases hb : d.reports.any (inState id tr.fromState) with
    | false =>
      refine .inl ⟨rfl, ?_, fun _ => rfl⟩
      rw [Table.update_of_any_false hb]
    | true => exact .inr ⟨rfl, ha, any_inState.mp hb, hv hb, rfl⟩
  · rename_i ha
    obtain ⟨rfl, rfl⟩ := run_pure h
    exact .inl ⟨rfl, rfl, fun h => absurd h ha⟩

/-! ## Calls on reports -/

theorem transitionSecurityReport_ok {id : Nat} {s n : SecurityReportState}
    {changes : SecurityReportChanges} {event : NewSecurityEvent} {b : Bool}
    (h : (transitionSecurityReport now id s n changes event).run d = .ok (b, d')) :
    (b = false ∧ d' = d) ∨ b = true ∧ s.canTransitionTo n = true ∧
      (∃ r, d.reports.get id = some r ∧ r.state = s) ∧
      (∀ v ∈ changes.vulnerabilityId, (d.vulnerabilities.get v).isSome) ∧
      d' = (d.moved id s n changes (timestamp now)).record
        { reportId := some id, fromState := some s.asStr, toState := some n.asStr } event
        (timestamp now) := by
  obtain ⟨m, d₁, h₁, h₂⟩ := run_bind h
  rcases moveReport_ok h₁ with ⟨rfl, rfl, -⟩ | ⟨rfl, ht, hr, hv, rfl⟩
  · obtain ⟨rfl, rfl⟩ := run_pure h₂
    exact .inl ⟨rfl, rfl⟩
  · obtain ⟨u, d₂, h₂, h₃⟩ := run_bind h₂
    obtain ⟨rfl, rfl⟩ := run_pure h₃
    exact .inr ⟨rfl, ht, hr, hv, insertEvent_ok h₂⟩

theorem upsertSecurityReport_ok {report : NewSecurityReport} {a : Nat × SecurityReport}
    (h : (upsertSecurityReport now report).run d = .ok (a, d')) :
    d'.reports.get a.1 = some a.2 ∧
      (d' = { d with reports := d.reports.skip } ∨
        (d.reports.any (ofConversation report.source report.conversationId) = false ∧
          (report.stored (timestamp now)).Readable) ∧
        d' = { d with reports := d.reports.insert (report.stored (timestamp now)) }.record
          { reportId := some d.reports.next, toState := some SecurityReportState.received.asStr }
          { kind := .received } (timestamp now)) := by
  obtain ⟨o, d₁, h₁, h₂⟩ := run_bind h
  obtain ⟨u, d₂, h₂, h₃⟩ := run_bind h₂
  have hread : d' = d₂ ∧ d₂.reports.first (ofConversation report.source report.conversationId) = some a ∧
      a.2.Readable := by
    simp only [readConversation, StateT.run] at h₃
    split at h₃
    · rename_i r hr
      unfold rowToReport at h₃
      rw [bind_assoc] at h₃
      obtain ⟨hreadable, h₃⟩ := require_bind h₃
      cases h₃
      exact ⟨rfl, hr, hreadable⟩
    · cases h₃
  obtain ⟨rfl, hfirst, hreadable⟩ := hread
  refine ⟨(Table.first_get hfirst).1, ?_⟩
  simp only [insertReport, StateT.run] at h₁
  split at h₁
  · cases h₁
    obtain ⟨-, rfl⟩ := run_pure h₂
    exact .inl rfl
  · rename_i hany
    cases h₁
    have he := insertEvent_ok h₂
    refine .inr ⟨⟨Bool.eq_false_iff.mpr hany, ?_⟩, he⟩
    -- The row that is read back is the new one: no other is of the conversation.
    have hnone : d.reports.first (ofConversation report.source report.conversationId) = none := by
      refine Table.first_eq_none.mpr fun i c hc => eq_false_of_ne_true fun hp => hany ?_
      exact Table.any_eq_true.mpr ⟨i, c, hc, hp⟩
    rw [he] at hfirst
    change (d.reports.insert _).first _ = _ at hfirst
    rw [Table.first_insert, hnone, Option.none_or] at hfirst
    obtain ⟨-, ha⟩ := Option.ite_none_right_eq_some.mp hfirst
    obtain rfl := Option.some.inj ha
    exact hreadable

/-- The store after one stale assessment has been released. -/
def Inbox.released (d : Inbox) (staleAfter id : Nat) (t : DateTime) : Inbox :=
  { d with reports := d.reports.update (inState id .assessing) fun r =>
      { r with state := .received, assessmentAttempts := r.assessmentAttempts + 1
               updatedAt := t } }.record
    { reportId := some id
      fromState := some SecurityReportState.assessing.asStr
      toState := some SecurityReportState.received.asStr }
    { kind := .assessmentReleased
      detail := [("stale_after_secs", .int (staleAfter / NANOS_PER_SEC : Nat))] } t

theorem releaseAssessment_ok {staleAfter id : Nat} {u : Unit}
    (h : (releaseAssessment staleAfter t id).run d = .ok (u, d')) :
    d' = d.released staleAfter id t := by
  obtain ⟨v, d₁, h₁, h₂⟩ := run_bind h
  cases h₁
  exact insertEvent_ok h₂

/-- The loop releases reports one after another, each of them still in assessment when its turn
comes: the ids are those of different rows. -/
inductive Releases (staleAfter : Nat) (t : DateTime) : Inbox → List Nat → Inbox → Prop
  | nil {d : Inbox} : Releases staleAfter t d [] d
  | cons {d d' : Inbox} {id : Nat} {ids : List Nat} (hr : ∃ r, d.reports.get id = some r ∧ r.state = .assessing)
      (h : Releases staleAfter t (d.released staleAfter id t) ids d') :
      Releases staleAfter t d (id :: ids) d'

theorem releases_of_run {staleAfter : Nat} {ids : List Nat} {u : PUnit} (hnd : ids.Nodup)
    (hids : ∀ id ∈ ids, ∃ r, d.reports.get id = some r ∧ r.state = .assessing)
    (h : (ids.forM (releaseAssessment staleAfter t)).run d = .ok (u, d')) :
    Releases staleAfter t d ids d' := by
  induction ids generalizing d with
  | nil =>
    obtain ⟨-, rfl⟩ := run_pure h
    exact .nil
  | cons id ids ih =>
    obtain ⟨v, d₁, h₁, h₂⟩ := run_bind h
    cases releaseAssessment_ok h₁
    obtain ⟨hid, hnd⟩ := List.nodup_cons.mp hnd
    refine .cons (hids id List.mem_cons_self) (ih hnd ?_ h₂)
    intro j hj
    obtain ⟨r, hr, hs⟩ := hids j (List.mem_cons_of_mem id hj)
    refine ⟨r, ?_, hs⟩
    refine Table.get_update_of_not hr ?_
    simp [inState, show j ≠ id from fun e => hid (e ▸ hj)]

theorem releaseStaleSecurityAssessments_ok {staleAfter n : Nat}
    (h : (releaseStaleSecurityAssessments now staleAfter).run d = .ok (n, d')) :
    ∃ ids, Releases staleAfter (timestamp now) d ids d' := by
  unfold releaseStaleSecurityAssessments at h
  cases hc : now.checkedAdd (-staleAfter) with
  | none =>
    rw [hc] at h
    obtain ⟨-, rfl⟩ := run_pure h
    exact ⟨[], .nil⟩
  | some cutoff =>
    simp only [hc, read_bind] at h
    obtain ⟨u, d₁, h₁, h₂⟩ := run_bind h
    obtain ⟨-, rfl⟩ := run_pure h₂
    refine ⟨_, releases_of_run ?_ ?_ h₁⟩
    · exact Table.nodup_select _ _
    · intro id hid
      obtain ⟨⟨i, r⟩, hr, rfl⟩ := List.mem_map.mp hid
      obtain ⟨hr, hp⟩ := Table.mem_select.mp hr
      rw [Bool.and_eq_true, decide_eq_true_eq] at hp
      exact ⟨r, hr, hp.1⟩

theorem recordSecurityFollowUp_ok {id expected new : Nat} {b : Bool}
    (h : (recordSecurityFollowUp now id expected new).run d = .ok (b, d')) :
    d' = d ∨ ∃ event, d' = { d with reports := d.reports.update (hasThreadCount id expected) fun r =>
        { r with customerThreadCount := new, updatedAt := timestamp now } }.record
      { reportId := some id } event (timestamp now) := by
  unfold recordSecurityFollowUp at h
  split at h
  · obtain ⟨-, rfl⟩ := run_pure h
    exact .inl rfl
  · obtain ⟨m, d₁, h₁, h₂⟩ := run_bind h
    cases h₁
    cases hm : d.reports.any (hasThreadCount id expected) with
    | false =>
      rw [hm] at h₂
      obtain ⟨-, rfl⟩ := run_pure h₂
      exact .inl (by rw [Table.update_of_any_false hm])
    | true =>
      rw [hm] at h₂
      obtain ⟨u, d₂, h₂, h₃⟩ := run_bind h₂
      obtain ⟨-, rfl⟩ := run_pure h₃
      exact .inr ⟨_, insertEvent_ok h₂⟩

theorem recordSecurityEvent_ok {ri vi : Option Nat} {event : NewSecurityEvent} {u : Unit}
    (h : (recordSecurityEvent now ri vi event).run d = .ok (u, d')) :
    d' = d.record { reportId := ri, vulnerabilityId := vi } event (timestamp now) := by
  unfold recordSecurityEvent at h
  split at h
  · cases h
  · exact insertEvent_ok h

/-! ## Calls on vulnerabilities -/

theorem createSecurityVulnerability_ok {v : NewSecurityVulnerability}
    {a : Nat × SecurityVulnerability}
    (h : (createSecurityVulnerability now v).run d = .ok (a, d')) :
    a = (d.vulnerabilities.next, v.stored (timestamp now)) ∧
      ((d.reports.get v.firstReportId).isSome = true ∧ (v.stored (timestamp now)).Readable) ∧
      d' = { d with vulnerabilities := d.vulnerabilities.insert (v.stored (timestamp now)) }.record
        { vulnerabilityId := some d.vulnerabilities.next, toState := some v.state.asStr }
        { kind := .vulnerabilityCreated, detail := [("first_report_id", .int v.firstReportId)] }
        (timestamp now) := by
  unfold createSecurityVulnerability at h
  split at h
  · obtain ⟨id, d₁, h₁, h₂⟩ := run_bind h
    obtain ⟨hf, h₁⟩ := require_bind h₁
    cases h₁
    obtain ⟨u, d₂, h₂, h₃⟩ := run_bind h₂
    cases insertEvent_ok h₂
    have hget : (d.vulnerabilities.insert (v.stored (timestamp now))).get d.vulnerabilities.next =
        some (v.stored (timestamp now)) := by
      rw [Table.get_insert, if_pos rfl]
    simp only [readVulnerability, StateT.run, Inbox.record, hget] at h₃
    unfold rowToVulnerability at h₃
    rw [bind_assoc] at h₃
    obtain ⟨hreadable, h₃⟩ := require_bind h₃
    cases h₃
    exact ⟨rfl, ⟨hf, hreadable⟩, rfl⟩
  · cases h

/-- The store after a transition of the vulnerability `id`. -/
def Inbox.vulnerabilityMoved (d : Inbox) (id : Nat) (s n : VulnerabilityState)
    (changes : SecurityVulnerabilityChanges) (event : NewSecurityEvent) (t : DateTime) : Inbox :=
  let p := vulnerabilityInState id s
  { d with vulnerabilities := d.vulnerabilities.update p fun v =>
      changes.assign { v with state := n, updatedAt := t } }.record
    { vulnerabilityId := some id, fromState := some s.asStr, toState := some n.asStr } event t

theorem transitionSecurityVulnerability_ok {id : Nat} {s n : VulnerabilityState}
    {changes : SecurityVulnerabilityChanges} {event : NewSecurityEvent} {b : Bool}
    (h : (transitionSecurityVulnerability now id s n changes event).run d = .ok (b, d')) :
    d' = d ∨ d' = d.vulnerabilityMoved id s n changes event (timestamp now) := by
  unfold transitionSecurityVulnerability at h
  split at h
  · obtain ⟨m, d₁, h₁, h₂⟩ := run_bind h
    cases h₁
    cases hm : d.vulnerabilities.any (vulnerabilityInState id s) with
    | false =>
      rw [hm] at h₂
      obtain ⟨-, rfl⟩ := run_pure h₂
      exact .inl (by rw [Table.update_of_any_false hm])
    | true =>
      rw [hm] at h₂
      obtain ⟨u, d₂, h₂, h₃⟩ := run_bind h₂
      obtain ⟨-, rfl⟩ := run_pure h₃
      exact .inr (insertEvent_ok h₂)
  · obtain ⟨-, rfl⟩ := run_pure h
    exact .inl rfl

/-- The vulnerability whose first reporter a statement replaces. -/
theorem replaceable_iff {id expected reportId i : Nat} {v : SecurityVulnerability} :
    d.replaceable id expected reportId t (i, v) = true ↔ i = id ∧ v.firstReportId = expected ∧
      (rfc3339 t < rfc3339 v.firstReportedAt ∨
        rfc3339 v.firstReportedAt = rfc3339 t ∧ reportId < v.firstReportId) ∧
      d.awards.any (·.2.vulnerabilityId = id) = false := by
  simp [Inbox.replaceable, and_assoc]

/-- The vulnerabilities after the first reporter of `id` has been replaced. -/
def Inbox.reassigned (d : Inbox) (now : DateTime) (id expected reportId : Nat)
    (reportedAt : DateTime) : Table SecurityVulnerability :=
  d.vulnerabilities.update (d.replaceable id expected reportId (timestamp reportedAt)) fun v =>
    { v with firstReportId := reportId, firstReportedAt := timestamp reportedAt
             updatedAt := timestamp now }

/-- The store after the first reporter of `id` has been replaced. -/
def Inbox.replaced (d : Inbox) (now : DateTime) (id expected reportId : Nat)
    (reportedAt : DateTime) : Inbox :=
  { d with vulnerabilities := d.reassigned now id expected reportId reportedAt }.record
    { vulnerabilityId := some id }
    { kind := .firstReporterReplaced
      detail := [("previous_report_id", .int expected), ("report_id", .int reportId)] }
    (timestamp now)

theorem replaceFirstReporter_ok {id expected reportId : Nat} {reportedAt : DateTime} {b : Bool}
    (h : (replaceFirstReporter now id expected reportId reportedAt).run d = .ok (b, d')) :
    (b = false ∧ d' = d ∧ (reportId = expected ∨
        d.vulnerabilities.any (d.replaceable id expected reportId (timestamp reportedAt)) = false)) ∨
      b = true ∧ reportId ≠ expected ∧ (d.reports.get reportId).isSome = true ∧
        d.vulnerabilities.any (d.replaceable id expected reportId (timestamp reportedAt)) = true ∧
        d' = d.replaced now id expected reportId reportedAt := by
  unfold replaceFirstReporter at h
  split at h
  · rename_i he
    obtain ⟨rfl, rfl⟩ := run_pure h
    exact .inl ⟨rfl, rfl, .inl he⟩
  · rename_i hne
    obtain ⟨m, d₁, h₁, h₂⟩ := run_bind h
    obtain ⟨hf, h₁⟩ := require_bind h₁
    cases h₁
    cases hm : d.vulnerabilities.any
        (d.replaceable id expected reportId (timestamp reportedAt)) with
    | false =>
      rw [hm] at h₂
      obtain ⟨rfl, rfl⟩ := run_pure h₂
      exact .inl ⟨rfl, by rw [Table.update_of_any_false hm], .inr rfl⟩
    | true =>
      rw [hm] at h₂
      obtain ⟨u, d₂, h₂, h₃⟩ := run_bind h₂
      obtain ⟨rfl, rfl⟩ := run_pure h₃
      exact .inr ⟨rfl, hne, hf hm, rfl, insertEvent_ok h₂⟩

/-! ## Calls on replies -/

theorem ofReply_iff {ri i : Nat} {k : SecurityReplyKind} {r : SecurityReply} :
    ofReply ri k (i, r) = true ↔ r.reportId = ri ∧ r.kind = k := by
  simp [ofReply]

theorem ofReplyIn_iff {ri i : Nat} {k : SecurityReplyKind} {s : DeliveryStatus} {r : SecurityReply} :
    ofReplyIn ri k s (i, r) = true ↔ (r.reportId = ri ∧ r.kind = k) ∧ r.status = s := by
  simp [ofReplyIn, ofReply]

/-- The store after the first claim of a reply. -/
def Inbox.claimed (d : Inbox) (now : DateTime) (ri : Nat) (k : SecurityReplyKind)
    (event : NewSecurityEvent) : Inbox :=
  { d with replies := d.replies.insert (newReply ri k (timestamp now)) }.record
    { reportId := some ri, toState := some DeliveryStatus.sending.asStr } event (timestamp now)

/-- The store after the claim of a reply whose last delivery failed. -/
def Inbox.reclaimed (d : Inbox) (now : DateTime) (ri : Nat) (k : SecurityReplyKind)
    (event : NewSecurityEvent) : Inbox :=
  { d with replies := d.replies.update (ofReplyIn ri k .failed) fun r =>
      { r with status := .sending, attempts := r.attempts + 1, claimedAt := timestamp now
               completedAt := none } }.record
    { reportId := some ri, fromState := some DeliveryStatus.failed.asStr
      toState := some DeliveryStatus.sending.asStr } event (timestamp now)

theorem claimSecurityReply_ok {ri : Nat} {k : SecurityReplyKind} {event : NewSecurityEvent} {b : Bool}
    (h : (claimSecurityReply now ri k event).run d = .ok (b, d')) :
    (b = false ∧ d' = d ∧ (d.hasOtherFixLiveReply ri k = true ∨
        ∃ r, d.reply ri k = some r ∧ r.status ≠ .failed)) ∨
      b = true ∧ d.hasOtherFixLiveReply ri k = false ∧ (d.reports.get ri).isSome = true ∧
        ((d.reply ri k = none ∧ d' = d.claimed now ri k event) ∨
          (∃ r, d.reply ri k = some r ∧ r.status = .failed) ∧ d' = d.reclaimed now ri k event) := by
  replace h := (read_bind _ _ _).symm.trans h
  split at h
  · rename_i ho
    obtain ⟨rfl, rfl⟩ := run_pure h
    exact .inl ⟨rfl, rfl, .inl ho⟩
  · rename_i ho
    rw [Bool.not_eq_true] at ho
    replace h := (read_bind _ _ _).symm.trans h
    cases hp : d.reply ri k with
    | none =>
      rw [hp] at h
      obtain ⟨u, d₁, h₁, h₂⟩ := run_bind h
      obtain ⟨-, h₁⟩ := require_bind h₁
      obtain ⟨-, h₁⟩ := require_bind h₁
      obtain ⟨hf, h₁⟩ := require_bind h₁
      cases h₁
      obtain ⟨u, d₂, h₂, h₃⟩ := run_bind h₂
      obtain ⟨rfl, rfl⟩ := run_pure h₃
      exact .inr ⟨rfl, ho, hf, .inl ⟨rfl, insertEvent_ok h₂⟩⟩
    | some r =>
      rw [hp] at h
      by_cases hs : r.status = .failed
      · rw [Option.map_some, hs] at h
        obtain ⟨u, d₁, h₁, h₂⟩ := run_bind h
        cases h₁
        obtain ⟨u, d₂, h₂, h₃⟩ := run_bind h₂
        obtain ⟨rfl, rfl⟩ := run_pure h₃
        obtain ⟨hf, -⟩ := require_bind h₂
        exact .inr ⟨rfl, ho, hf _ rfl, .inr ⟨⟨r, rfl, hs⟩, insertEvent_ok h₂⟩⟩
      · have hpure : b = false ∧ d' = d := by
          rw [Option.map_some] at h
          cases hst : r.status with
          | failed => exact absurd hst hs
          | _ => rw [hst] at h; exact run_pure h
        exact .inl ⟨hpure.1, hpure.2, .inr ⟨r, rfl, hs⟩⟩

/-- The store after a reply in status `expected` has been given the status `status`. -/
def Inbox.finished (d : Inbox) (ri : Nat) (k : SecurityReplyKind) (expected status : DeliveryStatus)
    (error : Option String) (t : DateTime) : Inbox :=
  { d with replies := d.replies.update (ofReplyIn ri k expected) fun r =>
      { r with status := status, error := error, completedAt := some t } }

theorem moveOptReport_ok {id : Nat} {o : Option ReportTransition} {b : Bool}
    (h : (moveOptReport id t o).run d = .ok (b, d')) :
    (b = false ∧ d' = d ∧ ∀ tr ∈ o, tr.isAllowed = true →
        d.reports.any (inState id tr.fromState) = false) ∨
      b = true ∧ ∃ tr ∈ o, tr.fromState.canTransitionTo tr.toState = true ∧
      (∃ r, d.reports.get id = some r ∧ r.state = tr.fromState) ∧
      d' = d.moved id tr.fromState tr.toState {} t := by
  cases o with
  | none =>
    obtain ⟨rfl, rfl⟩ := run_pure h
    exact .inl ⟨rfl, rfl, nofun⟩
  | some tr =>
    rcases moveReport_ok h with ⟨hb, hd, hr⟩ | ⟨hb, ht, hr, -, hd⟩
    · refine .inl ⟨hb, hd, fun tr' ht => ?_⟩
      cases ht
      exact hr
    · exact .inr ⟨hb, tr, rfl, ht, hr, hd⟩

theorem completeSecurityReply_ok {ri : Nat} {k : SecurityReplyKind} {s : DeliveryStatus}
    {error : Option String} {event : NewSecurityEvent} {o : Option ReportTransition} {b : Bool}
    (h : (completeSecurityReply now ri k s error event o).run d = .ok (b, d')) :
    s.isCompletion = true ∧ d.replies.any (ofReplyIn ri k .sending) = true ∧ ∃ d₁,
      ((b = false ∧ d₁ = d.finished ri k .sending s error (timestamp now) ∧
          ∀ tr ∈ o, tr.isAllowed = true → d.reports.any (inState ri tr.fromState) = false) ∨
        b = true ∧ ∃ tr ∈ o, tr.fromState.canTransitionTo tr.toState = true ∧
          (∃ r, d.reports.get ri = some r ∧ r.state = tr.fromState) ∧
          d₁ = (d.finished ri k .sending s error (timestamp now)).moved ri tr.fromState tr.toState {}
            (timestamp now)) ∧
      d' = d₁.record (completionRow ri s b o) event (timestamp now) := by
  unfold completeSecurityReply at h
  split at h
  · rename_i hs
    obtain ⟨m, d₁, h₁, h₂⟩ := run_bind h
    cases h₁
    cases hm : d.replies.any (ofReplyIn ri k .sending) with
    | false =>
      rw [hm] at h₂
      cases h₂
    | true =>
      rw [hm] at h₂
      obtain ⟨m, d₂, h₂, h₃⟩ := run_bind h₂
      obtain ⟨u, d₃, h₃, h₄⟩ := run_bind h₃
      obtain ⟨rfl, rfl⟩ := run_pure h₄
      exact ⟨hs, rfl, d₂, moveOptReport_ok h₂, insertEvent_ok h₃⟩
  · cases h

/-- What an admin's answer makes of an unconfirmed delivery. -/
def confirmedStatus (delivered : Bool) : DeliveryStatus := if delivered then .sent else .failed

theorem confirmSecurityReply_ok {ri : Nat} {k : SecurityReplyKind} {delivered : Bool}
    {actor : String} {b : Bool}
    (h : (confirmSecurityReply now ri k delivered actor).run d = .ok (b, d')) :
    (b = false ∧ d' = d) ∨ b = true ∧ d.replies.any (ofReplyIn ri k .unconfirmed) = true ∧
      d' = (d.finished ri k .unconfirmed (confirmedStatus delivered)
          (if delivered then none else some NOT_DELIVERED_ERROR) (timestamp now)).record
        { reportId := some ri
          fromState := some DeliveryStatus.unconfirmed.asStr
          toState := some (confirmedStatus delivered).asStr }
        { kind := .deliveryConfirmed
          actor := some actor
          detail := [("kind", .str k.asStr), ("delivered", .bool delivered)] }
        (timestamp now) := by
  obtain ⟨m, d₁, h₁, h₂⟩ := run_bind h
  cases h₁
  cases hm : d.replies.any (ofReplyIn ri k .unconfirmed) with
  | false =>
    rw [hm] at h₂
    obtain ⟨rfl, rfl⟩ := run_pure h₂
    exact .inl ⟨rfl, by rw [Table.update_of_any_false hm]⟩
  | true =>
    rw [hm] at h₂
    obtain ⟨u, d₂, h₂, h₃⟩ := run_bind h₂
    obtain ⟨rfl, rfl⟩ := run_pure h₃
    exact .inr ⟨rfl, rfl, insertEvent_ok h₂⟩

/-! ## Calls on awards -/

/-- The store after an award has been prepared. -/
def Inbox.prepared (d : Inbox) (vi ri : Nat) (award : NewSecurityAward) (email : Option String)
    (t : DateTime) : Inbox :=
  { d with awards := d.awards.insert (award.stored vi ri email t) }.record
    { vulnerabilityId := some vi, toState := some AwardStatus.prepared.asStr }
    { kind := AwardStatus.prepared.eventKind
      detail := [("report_id", .int ri), ("campaign", .str award.campaign),
        ("credits", .int award.credits)] } t

theorem prepareSecurityAward_ok {vi ri : Nat} {award : NewSecurityAward} {b : Bool}
    (h : (prepareSecurityAward now vi ri award).run d = .ok (b, d')) :
    (b = false ∧ d' = d) ∨ b = true ∧ ∃ v r, d.vulnerabilities.get vi = some v ∧
      d.reports.get ri = some r ∧ v.firstReportId = ri ∧
      d.awards.any (·.2.vulnerabilityId = vi) = false ∧
      d' = d.prepared vi ri award r.reporterEmail (timestamp now) := by
  obtain ⟨m, d₁, h₁, h₂⟩ := run_bind h
  simp only [insertAward, StateT.run] at h₁
  split at h₁
  · rename_i v r hv hr
    split at h₁
    · rename_i hc
      cases h₁
      obtain ⟨u, d₂, h₂, h₃⟩ := run_bind h₂
      obtain ⟨rfl, rfl⟩ := run_pure h₃
      rw [Bool.and_eq_true, decide_eq_true_eq, Bool.not_eq_true'] at hc
      exact .inr ⟨rfl, v, r, hv, hr, hc.1, hc.2, insertEvent_ok h₂⟩
    · cases h₁
      obtain ⟨rfl, rfl⟩ := run_pure h₂
      exact .inl ⟨rfl, rfl⟩
  · cases h₁
    obtain ⟨rfl, rfl⟩ := run_pure h₂
    exact .inl ⟨rfl, rfl⟩

theorem awardInStatus_iff {vi i : Nat} {s : AwardStatus} {a : SecurityAward} :
    awardInStatus vi s (i, a) = true ↔ a.vulnerabilityId = vi ∧ a.status = s := by
  simp [awardInStatus]

/-- The store after the award of `vi` has left the status `s` for `next`. -/
def Inbox.awardMoved (d : Inbox) (vi : Nat) (s next : AwardStatus) (actor note : Option String)
    (event : NewSecurityEvent) (t : DateTime) : Inbox :=
  { d with awards := d.awards.update (awardInStatus vi s) fun a =>
      { a with status := next, actor := actor.or a.actor, note := note.or a.note
               updatedAt := t } }.record
    { vulnerabilityId := some vi, fromState := some s.asStr, toState := some next.asStr } event t

theorem updateSecurityAwardStatus_ok {vi : Nat} {expected : List AwardStatus} {next : AwardStatus}
    {actor note : Option String} {b : Bool}
    (h : (updateSecurityAwardStatus now vi expected next actor note).run d = .ok (b, d')) :
    (b = false ∧ d' = d) ∨ b = true ∧ ∃ a, d.award vi = some a ∧ a.status ∈ expected ∧
      a.status.canTransitionTo next = true ∧ ∃ event,
      d' = d.awardMoved vi a.status next actor note event (timestamp now) := by
  unfold updateSecurityAwardStatus at h
  rw [read_bind] at h
  cases ha : d.award vi with
  | none =>
    rw [ha] at h
    obtain ⟨rfl, rfl⟩ := run_pure h
    exact .inl ⟨rfl, rfl⟩
  | some a =>
    simp only [ha] at h
    split at h
    · rename_i hc
      rw [Bool.and_eq_true, List.contains_iff_mem] at hc
      obtain ⟨m, d₁, h₁, h₂⟩ := run_bind h
      cases h₁
      cases hm : d.awards.any (awardInStatus vi a.status) with
      | false =>
        rw [hm] at h₂
        obtain ⟨rfl, rfl⟩ := run_pure h₂
        exact .inl ⟨rfl, by rw [Table.update_of_any_false hm]⟩
      | true =>
        rw [hm] at h₂
        obtain ⟨u, d₂, h₂, h₃⟩ := run_bind h₂
        obtain ⟨rfl, rfl⟩ := run_pure h₃
        exact .inr ⟨rfl, a, rfl, hc.1, hc.2, _, insertEvent_ok h₂⟩
    · obtain ⟨rfl, rfl⟩ := run_pure h
      exact .inl ⟨rfl, rfl⟩

/-! ## The changes of a call -/

/-- The event reports no change of a report's state and none of an award's status. -/
def EventRow.isNote (row : EventRow) : Prop :=
  (row.reportId = none ∨ row.toState.bind SecurityReportState.ofStr? = none) ∧
    (row.vulnerabilityId = none ∨ row.toState.bind AwardStatus.ofStr? = none)

/-- What a call is out to change, beside the states of reports. -/
inductive Target where
  | claim (reportId : Nat) (kind : SecurityReplyKind)
  | delivery (reportId : Nat) (kind : SecurityReplyKind)
  | first (id expectedFirstReportId reportId : Nat) (reportedAt : DateTime)
  | award (vulnerabilityId : Nat)
  | other

def Call.target {α : Type} : Call α → Target
  | .claimReply ri k _ => .claim ri k
  | .completeReply ri k .. => .delivery ri k
  | .confirmReply ri k .. => .delivery ri k
  | .replaceFirstReporter id expected ri reportedAt => .first id expected ri reportedAt
  | .prepareAward vi .. => .award vi
  | .updateAward vi .. => .award vi
  | _ => .other

/-- One change of a table, together with the event that reports it where there is one, by a call
that is out to change `c`. -/
inductive Effect : Target → Inbox → Inbox → Prop
  | noted {c : Target} {d : Inbox} {row : EventRow} {event : NewSecurityEvent} {t : DateTime}
      (hn : row.isNote) : Effect c d (d.record row event t)
  | received {d : Inbox} {report : NewSecurityReport} {t : DateTime}
      (hnew : d.reports.any (ofConversation report.source report.conversationId) = false)
      (hw : (report.stored t).reportedAt.Writable) :
      Effect .other d ({ d with reports := d.reports.insert (report.stored t) }.record
        { reportId := some d.reports.next, toState := some SecurityReportState.received.asStr }
        { kind := .received } t)
  | skipped {d : Inbox} : Effect .other d { d with reports := d.reports.skip }
  | moved {c : Target} {d : Inbox} {id : Nat} {s n : SecurityReportState} {f : SecurityReport → SecurityReport}
      {event : NewSecurityEvent} {t : DateTime} (hr : ∃ r, d.reports.get id = some r ∧ r.state = s)
      (ht : s.canTransitionTo n = true) (hf : ∀ r, (f r).state = n)
      (hat : ∀ r, (f r).reportedAt = r.reportedAt) :
      Effect c d ({ d with reports := d.reports.update (inState id s) f }.record
        { reportId := some id, fromState := some s.asStr, toState := some n.asStr } event t)
  | followed {d : Inbox} {p : Nat × SecurityReport → Bool} {f : SecurityReport → SecurityReport}
      (hf : ∀ r, (f r).state = r.state) (hat : ∀ r, (f r).reportedAt = r.reportedAt) :
      Effect .other d { d with reports := d.reports.update p f }
  | created {d : Inbox} {v : NewSecurityVulnerability} {t : DateTime}
      (hr : (d.reports.get v.firstReportId).isSome = true)
      (hw : (v.stored t).firstReportedAt.Writable) :
      Effect .other d { d with vulnerabilities := d.vulnerabilities.insert (v.stored t) }
  | vulnerabilityMoved {d : Inbox} {p : Nat × SecurityVulnerability → Bool}
      {f : SecurityVulnerability → SecurityVulnerability}
      (hf : ∀ v, (f v).firstReportId = v.firstReportId ∧ (f v).firstReportedAt = v.firstReportedAt) :
      Effect .other d { d with vulnerabilities := d.vulnerabilities.update p f }
  | replaced {d : Inbox} {now reportedAt : DateTime} {id expected reportId : Nat}
      (hr : (d.reports.get reportId).isSome = true) :
      Effect (.first id expected reportId reportedAt) d (d.replaced now id expected reportId reportedAt)
  | claimed {d : Inbox} {now : DateTime} {ri : Nat} {k : SecurityReplyKind}
      {event : NewSecurityEvent} (ho : d.hasOtherFixLiveReply ri k = false)
      (hr : d.reply ri k = none) : Effect (.claim ri k) d (d.claimed now ri k event)
  | reclaimed {d : Inbox} {now : DateTime} {ri : Nat} {k : SecurityReplyKind}
      {event : NewSecurityEvent} : Effect (.claim ri k) d (d.reclaimed now ri k event)
  | finished {d : Inbox} {ri : Nat} {k : SecurityReplyKind} {expected status : DeliveryStatus}
      {error : Option String} {t : DateTime} (hs : status ≠ .sending) (he : expected ≠ .sent) :
      Effect (.delivery ri k) d (d.finished ri k expected status error t)
  | prepared {d : Inbox} {vi : Nat} {award : NewSecurityAward} {email : Option String}
      {t : DateTime} {v : SecurityVulnerability} (hv : d.vulnerabilities.get vi = some v)
      (hn : d.awards.any (·.2.vulnerabilityId = vi) = false) :
      Effect (.award vi) d (d.prepared vi v.firstReportId award email t)
  | awardMoved {d : Inbox} {vi : Nat} {a : SecurityAward} {next : AwardStatus}
      {actor note : Option String} {event : NewSecurityEvent} {t : DateTime}
      (ha : d.award vi = some a) (ht : a.status.canTransitionTo next = true) :
      Effect (.award vi) d (d.awardMoved vi a.status next actor note event t)

theorem note_of_report {i : Nat} {a : Option String} {s : Option DeliveryStatus} :
    EventRow.isNote { reportId := some i, fromState := a, toState := s.map (·.asStr) } := by
  refine ⟨.inr ?_, .inl rfl⟩
  cases s with
  | none => rfl
  | some s => exact SecurityReportState.ofStr?_delivery s

theorem note_of_vulnerability {i : Nat} {a : Option String} {s : Option VulnerabilityState} :
    EventRow.isNote { vulnerabilityId := some i, fromState := a, toState := s.map (·.asStr) } := by
  refine ⟨.inl rfl, .inr ?_⟩
  cases s with
  | none => rfl
  | some s => exact AwardStatus.ofStr?_vulnerability s

theorem Releases.effects {c : Target} {staleAfter : Nat} {ids : List Nat}
    (h : Releases staleAfter t d ids d') : ReflTransGen (Effect c) d d' := by
  induction h with
  | nil => exact .refl
  | @cons d d' id ids hr _ ih =>
    have h : Effect c d (d.released staleAfter id t) := .moved hr rfl (fun _ => rfl) fun _ => rfl
    exact .head h ih

/-- Every call is a chain of changes. -/
theorem exec_within {α : Type} (call : Call α) :
    Within (ReflTransGen (Effect call.target)) (exec now call) := by
  intro d a d' h
  cases call with
  | upsertReport report =>
    rcases (upsertSecurityReport_ok h).2 with rfl | ⟨⟨hn, hw⟩, rfl⟩
    · exact .single .skipped
    · exact .single (.received hn hw.1)
  | transitionReport id s n changes event =>
    rcases transitionSecurityReport_ok h with ⟨-, rfl⟩ | ⟨-, ht, hr, -, rfl⟩
    · exact .refl
    · exact .single (.moved hr ht (fun _ => rfl) fun _ => rfl)
  | releaseStale staleAfter =>
    obtain ⟨ids, h⟩ := releaseStaleSecurityAssessments_ok h
    exact h.effects
  | followUp id expected new =>
    rcases recordSecurityFollowUp_ok h with rfl | ⟨event, rfl⟩
    · exact .refl
    · refine ReflTransGen.head (.followed ?_ ?_) (.single (.noted (note_of_report (s := none))))
      · exact fun _ => rfl
      · exact fun _ => rfl
  | recordEvent ri vi event =>
    rw [recordSecurityEvent_ok h]
    exact .single (.noted ⟨.inr rfl, .inr rfl⟩)
  | createVulnerability v =>
    obtain ⟨-, ⟨hr, hw⟩, rfl⟩ := createSecurityVulnerability_ok h
    exact ReflTransGen.head (.created hr hw.1) (.single (.noted (note_of_vulnerability (s := some v.state))))
  | transitionVulnerability id s n changes event =>
    rcases transitionSecurityVulnerability_ok h with rfl | rfl
    · exact .refl
    · refine ReflTransGen.head (.vulnerabilityMoved ?_)
        (.single (.noted (note_of_vulnerability (s := some n))))
      exact fun _ => ⟨rfl, rfl⟩
  | replaceFirstReporter id expected reportId reportedAt =>
    rcases replaceFirstReporter_ok h with ⟨-, rfl, -⟩ | ⟨-, -, hr, -, rfl⟩
    · exact .refl
    · exact .single (.replaced hr)
  | claimReply ri k event =>
    rcases claimSecurityReply_ok h with ⟨-, rfl, -⟩ | ⟨-, ho, -, ⟨hr, rfl⟩ | ⟨-, rfl⟩⟩
    · exact .refl
    · exact .single (.claimed ho hr)
    · exact .single .reclaimed
  | completeReply ri k s error event o =>
    obtain ⟨hs, -, d₁, hd, rfl⟩ := completeSecurityReply_ok h
    have hs : s ≠ .sending := of_decide_eq_true hs
    have hsending : DeliveryStatus.sending ≠ .sent := by decide
    rcases hd with ⟨rfl, rfl, -⟩ | ⟨rfl, tr, ho, ht, hr, rfl⟩
    · refine ReflTransGen.head (.finished hs hsending) (.single (.noted ?_))
      cases o <;> exact note_of_report (s := some s)
    · cases ho
      exact ReflTransGen.head (.finished hs hsending) (.single (.moved hr ht (fun _ => rfl) fun _ => rfl))
  | confirmReply ri k delivered actor =>
    rcases confirmSecurityReply_ok h with ⟨-, rfl⟩ | ⟨-, -, rfl⟩
    · exact .refl
    · refine ReflTransGen.head (.finished ?_ (by decide)) (.single (.noted (note_of_report (s := some _))))
      cases delivered <;> decide
  | prepareAward vi ri award =>
    rcases prepareSecurityAward_ok h with ⟨-, rfl⟩ | ⟨-, v, r, hv, -, rfl, hn, rfl⟩
    · exact .refl
    · exact .single (.prepared hv hn)
  | updateAward vi expected next actor note =>
    rcases updateSecurityAwardStatus_ok h with ⟨-, rfl⟩ | ⟨-, a, ha, -, ht, event, rfl⟩
    · exact .refl
    · exact .single (.awardMoved ha ht)

/-- What every change preserves, every call preserves. -/
theorem step_inv {P : Inbox → Prop} (hP : ∀ {c d d'}, Effect c d d' → P d → P d') (hd : P d) (op : Op) :
    P (step d op) := by
  refine Within.commit (P := P) ((exec_within op.call).mono fun d d' h hd => ?_) hd
  induction h with
  | refl => exact hd
  | tail _ he ih => exact hP he ih

theorem run_effects {P : Inbox → Prop} (hP : ∀ {c d d'}, Effect c d d' → P d → P d') (hd : P d)
    (l : List Op) : P (run step d l) :=
  run_inv (P := P) (fun _ op hd => step_inv hP hd op) hd l

end Claudear.Storage.Security
