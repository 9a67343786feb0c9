import Claudear.Storage.Awards

/-!
# The first reporter

`replace_first_reporter` compares stored times as text, and the selector compares
timestamps. On times of four-digit years, cut to the second as they are stored,
the two orders are one, and a report with another time cannot be read back, so it
is not stored. So the attempts for a set of reports end, in any order and among
any other calls, at the report the selector keeps against all of them.
-/

namespace Claudear.Storage.Security

open Claudear.Core Claudear.Core.DateTime Claudear.Sql Claudear.Sql.Tx Claudear.Machine Relation

variable {d d' : Inbox} {vi : Nat} {f : FirstReport}

/-- The recorded first reporter of a vulnerability. -/
def Inbox.firstReporter (d : Inbox) (vi : Nat) : Option FirstReport :=
  (d.vulnerabilities.get vi).map fun v => ⟨v.firstReportId, v.firstReportedAt⟩

/-! ## The two orders -/

/-- The order of the statement. -/
def Earlier (a b : FirstReport) : Prop :=
  rfc3339 a.reportedAt < rfc3339 b.reportedAt ∨
    rfc3339 b.reportedAt = rfc3339 a.reportedAt ∧ a.reportId < b.reportId

/-- A report time as it is stored, and can be read back. -/
def Stored (a : FirstReport) : Prop := timestamp a.reportedAt = a.reportedAt ∧ a.reportedAt.Writable

theorem earlier_iff {a b : FirstReport} (ha : Stored a) (hb : Stored b) :
    Earlier a b ↔ a.precedes b = true := by
  unfold Earlier
  rw [rfc3339_lt_iff ha.1 hb.1 ha.2 hb.2, rfc3339_inj hb.1 ha.1 hb.2 ha.2, FirstReport.precedes,
    decide_eq_true_eq, FirstReport.key, FirstReport.key, Prod.Lex.toLex_lt_toLex,
    eq_comm (a := b.reportedAt)]

theorem not_precedes {a b : FirstReport} : a.precedes b = false ↔ b.key ≤ a.key := by
  rw [FirstReport.precedes, decide_eq_false_iff_not, not_lt]

theorem selectFirstReporter_keep {a b : FirstReport} :
    selectFirstReporter a b false = .keepExisting ↔ a.key ≤ b.key := by
  rw [← not_precedes, selectFirstReporter]
  cases b.precedes a <;> simp

/-! ## One call -/

theorem Effect.keepsFirst {c : Target} (hc : ∀ e r t, c ≠ .first vi e r t) (h : Effect c d d')
    (hf : d.firstReporter vi = some f) : d'.firstReporter vi = some f := by
  obtain ⟨v, hv, he⟩ := Option.map_eq_some_iff.mp hf
  cases h with
  | created =>
    show ((d.vulnerabilities.insert _).get vi).map _ = _
    rw [Table.get_insert_of hv, Option.map_some, he]
  | @vulnerabilityMoved _ p g hg =>
    show ((d.vulnerabilities.update p g).get vi).map _ = _
    rw [Table.get_update, hv, Option.map_some, Option.map_some, ← he]
    split
    · rw [(hg v).1, (hg v).2]
    · rfl
  | @replaced _ _ _ id =>
    show ((d.vulnerabilities.update _ _).get vi).map _ = _
    rw [Table.get_update_of_not hv, Option.map_some, he]
    rw [Bool.eq_false_iff, Ne, replaceable_iff]
    rintro ⟨rfl, -⟩
    exact hc _ _ _ rfl
  | _ => exact hf

/-- The first reporter after a replacement that found its row. -/
theorem firstReporter_replaced (now : DateTime) (id e r : Nat) (t : DateTime)
    (hf : d.firstReporter vi = some f) :
    (d.replaced now id e r t).firstReporter vi = some f ∨ id = vi ∧ f.reportId = e ∧
      Earlier ⟨r, timestamp t⟩ f ∧ d.award vi = none ∧
      (d.replaced now id e r t).firstReporter vi = some ⟨r, timestamp t⟩ := by
  obtain ⟨v, hv, rfl⟩ := Option.map_eq_some_iff.mp hf
  cases hp : d.replaceable id e r (timestamp t) (vi, v) with
  | false =>
    refine .inl ?_
    show ((d.vulnerabilities.update _ _).get vi).map _ = _
    rw [Table.get_update_of_not hv hp, Option.map_some]
  | true =>
    refine .inr ?_
    obtain ⟨rfl, he, ho, hn⟩ := replaceable_iff.mp hp
    refine ⟨rfl, he, ho, award_eq_none.mpr hn, ?_⟩
    show ((d.vulnerabilities.update _ _).get vi).map _ = _
    rw [Table.get_update_of hv hp, Option.map_some]

/-- A call keeps the first reporter, or it is an attempt that expected him, comes before him and
finds no award. -/
theorem firstReporter_step (op : Op) (hf : d.firstReporter vi = some f) :
    (step d op).firstReporter vi = some f ∨ ∃ r t, op.call.target = .first vi f.reportId r t ∧
      Earlier ⟨r, timestamp t⟩ f ∧ d.award vi = none ∧
      (step d op).firstReporter vi = some ⟨r, timestamp t⟩ := by
  obtain ⟨now, call⟩ := op
  unfold step
  cases hr : (exec now call).run d with
  | error e => exact .inl (by rwa [commit_error hr])
  | ok a =>
    obtain ⟨b, d'⟩ := a
    rw [commit_ok hr]
    by_cases hc : ∃ e r t, call.target = .first vi e r t
    · obtain ⟨e, r, t, hc⟩ := hc
      cases call with
      | replaceFirstReporter id e r t =>
        cases hc
        rcases replaceFirstReporter_ok hr with ⟨-, rfl, -⟩ | ⟨-, -, -, -, rfl⟩
        · exact .inl hf
        · rcases firstReporter_replaced now vi e r t hf with h | ⟨-, rfl, he, hn, h⟩
          · exact .inl h
          · exact .inr ⟨r, t, rfl, he, hn, h⟩
      | _ => cases hc
    · refine .inl ?_
      have h := exec_within call hr
      have hc : ∀ e r t, call.target ≠ .first vi e r t := fun e r t he => hc ⟨e, r, t, he⟩
      clear hr
      induction h with
      | refl => exact hf
      | tail _ he ih => exact he.keepsFirst hc ih

/-- An attempt that expects the recorded first reporter puts an earlier one in his place. -/
theorem firstReporter_attempt (now : DateTime) {r : Nat} {t : DateTime}
    (hf : d.firstReporter vi = some f) (hne : r ≠ f.reportId) (he : Earlier ⟨r, timestamp t⟩ f)
    (hr : (d.reports.get r).isSome = true) (hn : d.award vi = none) :
    (step d ⟨now, .replaceFirstReporter vi f.reportId r t⟩).firstReporter vi =
      some ⟨r, timestamp t⟩ := by
  obtain ⟨v, hv, rfl⟩ := Option.map_eq_some_iff.mp hf
  have hp : d.replaceable vi v.firstReportId r (timestamp t) (vi, v) = true :=
    replaceable_iff.mpr ⟨rfl, rfl, he, award_eq_none.mp hn⟩
  have hany := Table.any_eq_true.mpr ⟨vi, v, hv, hp⟩
  have hget : ((d.reassigned now vi v.firstReportId r t).get vi).map (fun v =>
      (⟨v.firstReportId, v.firstReportedAt⟩ : FirstReport)) = some ⟨r, timestamp t⟩ := by
    rw [Inbox.reassigned, Table.get_update_of hv hp, Option.map_some]
  have hset : (setFirstReporter vi v.firstReportId r (timestamp t) (timestamp now)).run d =
      .ok (true, { d with vulnerabilities := d.reassigned now vi v.firstReportId r t }) := by
    show (require _ _ >>= fun _ => _) = _
    rw [require, if_pos fun _ => hr, hany]
    rfl
  have hrun : (replaceFirstReporter now vi v.firstReportId r t).run d =
      .ok (true, d.replaced now vi v.firstReportId r t) := by
    unfold replaceFirstReporter
    rw [if_neg hne, run_bind_ok hset]
    show (insertEvent _ _ _ >>= fun _ => pure true).run _ = _
    rw [run_bind_ok (insertEvent_run (by simp) ?_ _ _)]
    · rfl
    · rintro _ ⟨⟩
      obtain ⟨w, hw, -⟩ := Option.map_eq_some_iff.mp hget
      exact Option.isSome_of_eq_some hw
  exact (congrArg (·.firstReporter vi) (commit_ok hrun)).trans hget

/-! ## The stored times -/

/-- The time of a stored report. -/
def Inbox.reportTime (d : Inbox) (r : Nat) : Option DateTime := (d.reports.get r).map (·.reportedAt)

/-- An attempt for the vulnerability comes with the time of the stored report. -/
def OwnTime (vi : Nat) (d : Inbox) (op : Op) : Prop :=
  ∀ e r t, op.call.target = .first vi e r t → ∀ t', d.reportTime r = some t' → timestamp t = t'

/-- The times of the reports, and the one recorded with the first reporter, can be read back. -/
structure Timely (vi : Nat) (d : Inbox) : Prop where
  reports : ∀ r t, d.reportTime r = some t → Stored ⟨r, t⟩
  first : ∀ f, d.firstReporter vi = some f → Stored f

theorem reportTime_update {p : Nat × SecurityReport → Bool} {f : SecurityReport → SecurityReport}
    (hat : ∀ r, (f r).reportedAt = r.reportedAt) (i : Nat) :
    ((d.reports.update p f).get i).map (·.reportedAt) = d.reportTime i := by
  rw [Table.get_update, Option.map_map, Inbox.reportTime]
  congr 1
  funext r
  simp only [Function.comp]
  split
  · exact hat r
  · rfl

theorem Effect.keepsTime {c : Target} {r : Nat} {t : DateTime} (h : Effect c d d')
    (hr : d.reportTime r = some t) : d'.reportTime r = some t := by
  cases h with
  | received =>
    obtain ⟨q, hq, rfl⟩ := Option.map_eq_some_iff.mp hr
    exact Option.map_eq_some_iff.mpr ⟨q, Table.get_insert_of hq, rfl⟩
  | moved _ _ _ hat | followed _ hat => exact (reportTime_update hat r).trans hr
  | _ => exact hr

/-- A report that could not be read back was not stored. -/
theorem Effect.readable {c : Target} (h : Effect c d d')
    (hd : ∀ r t, d.reportTime r = some t → Stored ⟨r, t⟩) {r : Nat} {t : DateTime}
    (ht : d'.reportTime r = some t) : Stored ⟨r, t⟩ := by
  cases h with
  | received _ hw =>
    obtain ⟨q, hq, rfl⟩ := Option.map_eq_some_iff.mp ht
    rcases Table.get_insert_cases hq with ⟨-, rfl⟩ | hq
    · exact ⟨timestamp_timestamp _, hw⟩
    · exact hd r _ (Option.map_eq_some_iff.mpr ⟨q, hq, rfl⟩)
  | moved _ _ _ hat | followed _ hat => exact hd r t ((reportTime_update hat r).symm.trans ht)
  | _ => exact hd r t ht

theorem readable_run (l : List Op) {r : Nat} {t : DateTime}
    (ht : (run step .empty l).reportTime r = some t) : Stored ⟨r, t⟩ :=
  run_effects (P := fun d => ∀ r t, d.reportTime r = some t → Stored ⟨r, t⟩)
    (fun h hd _ _ => h.readable hd) (fun _ _ h => by cases h) l r t ht

theorem Effect.timely {c : Target} (h : Effect c d d') (hd : Timely vi d)
    (ho : ∀ e r t, c = .first vi e r t → ∀ t', d.reportTime r = some t' → timestamp t = t') :
    Timely vi d' := by
  refine ⟨fun r t => h.readable hd.reports, fun f hf => ?_⟩
  cases h with
  | created _ hw =>
    obtain ⟨v, hv, rfl⟩ := Option.map_eq_some_iff.mp hf
    rcases Table.get_insert_cases hv with ⟨-, rfl⟩ | hv
    · exact ⟨timestamp_timestamp _, hw⟩
    · exact hd.first _ (Option.map_eq_some_iff.mpr ⟨v, hv, rfl⟩)
  | @vulnerabilityMoved _ p g hg =>
    obtain ⟨v, hv, rfl⟩ := Option.map_eq_some_iff.mp hf
    obtain ⟨w, hw, ⟨-, rfl⟩ | ⟨-, rfl⟩⟩ := Table.get_update_cases hv
    · rw [(hg w).1, (hg w).2]
      exact hd.first _ (Option.map_eq_some_iff.mpr ⟨w, hw, rfl⟩)
    · exact hd.first _ (Option.map_eq_some_iff.mpr ⟨v, hw, rfl⟩)
  | @replaced _ now t id e r hr =>
    obtain ⟨v, hv, rfl⟩ := Option.map_eq_some_iff.mp hf
    obtain ⟨w, hw, ⟨hp, rfl⟩ | ⟨-, rfl⟩⟩ := Table.get_update_cases hv
    · obtain ⟨rfl, -⟩ := replaceable_iff.mp hp
      obtain ⟨q, hq⟩ := Option.isSome_iff_exists.mp hr
      have hq : d.reportTime r = some q.reportedAt := Option.map_eq_some_iff.mpr ⟨q, hq, rfl⟩
      refine ⟨timestamp_timestamp _, ?_⟩
      show (timestamp t).Writable
      rw [ho _ _ _ rfl _ hq]
      exact (hd.reports r _ hq).2
    · exact hd.first _ (Option.map_eq_some_iff.mpr ⟨v, hw, rfl⟩)
  | _ => exact hd.first f hf

theorem timely_step {op : Op} (hd : Timely vi d) (ho : OwnTime vi d op) : Timely vi (step d op) := by
  obtain ⟨now, call⟩ := op
  unfold step
  cases hr : (exec now call).run d with
  | error e => rwa [commit_error hr]
  | ok a =>
    obtain ⟨b, d'⟩ := a
    rw [commit_ok hr]
    by_cases hc : ∃ e r t, call.target = .first vi e r t
    · obtain ⟨e, r, t, hc⟩ := hc
      cases call with
      | replaceFirstReporter id e r t =>
        cases hc
        rcases replaceFirstReporter_ok hr with ⟨-, rfl, -⟩ | ⟨-, -, hex, -, rfl⟩
        · exact hd
        · exact (Effect.replaced hex).timely hd ho
      | _ => cases hc
    · have h := exec_within call hr
      clear hr
      induction h with
      | refl => exact hd
      | tail _ he ih => exact he.timely ih fun e r t ht => absurd ⟨e, r, t, ht⟩ hc

theorem timely_run {l : List Op} (h : Along step (OwnTime vi) .empty l) : Timely vi (run step .empty l) :=
  h.inv (fun _ _ => timely_step) ⟨fun _ _ h => (by cases h), fun _ h => (by cases h)⟩

/-! ## A set of reports -/

/-- The report `r` as the store holds it. -/
def reportOf (times : Nat → DateTime) (r : Nat) : FirstReport := ⟨r, timestamp (times r)⟩

/-- Attempts for the vulnerability are made for reports of `S`, with their own times. -/
def AttemptsIn (vi : Nat) (S : List Nat) (times : Nat → DateTime) (op : Op) : Prop :=
  ∀ e r t, op.call.target = .first vi e r t → r ∈ S ∧ t = times r

section Attempts

variable {S : List Nat} {times : Nat → DateTime} {g : Nat}

variable (hw : ∀ r ∈ S, Stored (reportOf times r))

include hw

theorem attempts_step_le {op : Op} (ho : AttemptsIn vi S times op) (hg : g ∈ S)
    (hf : d.firstReporter vi = some (reportOf times g)) :
    ∃ h ∈ S, (step d op).firstReporter vi = some (reportOf times h) ∧
      (reportOf times h).key ≤ (reportOf times g).key := by
  rcases firstReporter_step op hf with h | ⟨r, t, ht, he, -, h⟩
  · exact ⟨g, hg, h, le_refl _⟩
  · obtain ⟨hr, rfl⟩ := ho _ _ _ ht
    have hlt := (earlier_iff (hw r hr) (hw g hg)).mp he
    exact ⟨r, hr, h, le_of_lt (of_decide_eq_true hlt)⟩

theorem attempts_run_le {m : List Op} (hm : ∀ op ∈ m, AttemptsIn vi S times op) (hg : g ∈ S)
    (hf : d.firstReporter vi = some (reportOf times g)) :
    ∃ h ∈ S, (run step d m).firstReporter vi = some (reportOf times h) ∧
      (reportOf times h).key ≤ (reportOf times g).key := by
  induction m generalizing d g with
  | nil => exact ⟨g, hg, hf, le_refl _⟩
  | cons op m ih =>
    obtain ⟨ho, hm⟩ := List.forall_mem_cons.mp hm
    obtain ⟨h, hh, hf, hle⟩ := attempts_step_le hw ho hg hf
    obtain ⟨k, hk, hf, hle'⟩ := ih hm hh hf
    exact ⟨k, hk, hf, hle'.trans hle⟩

/-- After an attempt for `r` that expects the recorded first reporter, he is not later than `r`. -/
theorem attempt_le (now : DateTime) {r : Nat} (hg : g ∈ S) (hr : r ∈ S)
    (hf : d.firstReporter vi = some (reportOf times g)) (hex : (d.reports.get r).isSome = true)
    (hn : d.award vi = none) :
    ∃ h ∈ S, (step d ⟨now, .replaceFirstReporter vi g r (times r)⟩).firstReporter vi =
        some (reportOf times h) ∧ (reportOf times h).key ≤ (reportOf times r).key := by
  have ho : AttemptsIn vi S times ⟨now, .replaceFirstReporter vi g r (times r)⟩ := by
    intro e r' t ht
    cases ht
    exact ⟨hr, rfl⟩
  obtain ⟨h, hh, hf', hle⟩ := attempts_step_le hw ho hg hf
  have hsr := hw r hr
  have hsg := hw g hg
  by_cases he : Earlier (reportOf times r) (reportOf times g)
  · have hne : r ≠ g := by
      rintro rfl
      exact absurd (of_decide_eq_true ((earlier_iff hsr hsr).mp he)) (lt_irrefl _)
    exact ⟨r, hr, firstReporter_attempt now hf hne he hex hn, le_refl _⟩
  · rw [earlier_iff hsr hsg, Bool.not_eq_true, not_precedes] at he
    exact ⟨h, hh, hf', hle.trans he⟩

end Attempts

/-- For stored reports `S`, with the first reporter of a vulnerability among them: once each has been
attempted with its own time while no award exists, in any order and among any other calls, the
recorded one is the report the selector keeps against all of them. Attempts with the reports' own
times never put a later report in the place of an earlier one, and no call changes the first
reporter once there is an award. -/
theorem first_reporter_converges (l : List Op) (vi : Nat) :
    let d := run step .empty l
    (∀ (S : List Nat) (times : Nat → DateTime) (m : List Op), ∀ f ∈ S,
      (∀ r ∈ S, d.reportTime r = some (timestamp (times r))) →
      d.firstReporter vi = some (reportOf times f) → (∀ op ∈ m, AttemptsIn vi S times op) →
      (∀ r ∈ S, r = f ∨ ∃ pre now g post,
        m = pre ++ ⟨now, .replaceFirstReporter vi g r (times r)⟩ :: post ∧
        (run step d pre).firstReporter vi = some (reportOf times g)) →
      (run step d m).award vi = none →
      ∃ g ∈ S, (run step d m).firstReporter vi = some (reportOf times g) ∧
        ∀ r ∈ S, selectFirstReporter (reportOf times g) (reportOf times r) false = .keepExisting) ∧
    (∀ op a b, Along step (OwnTime vi) .empty (l ++ [op]) → d.firstReporter vi = some a →
      (step d op).firstReporter vi = some b → b = a ∨ b.precedes a = true) ∧
    ∀ m a, (d.award vi).isSome = true → d.firstReporter vi = some a →
      (run step d m).firstReporter vi = some a := by
  intro d
  refine ⟨fun S times m f hfS htimes hf hm hall hn => ?_, fun op a b hown ha hb => ?_, ?_⟩
  · have hw : ∀ r ∈ S, Stored (reportOf times r) := fun r hr => readable_run l (htimes r hr)
    obtain ⟨g, hg, hfg, hle⟩ := attempts_run_le hw hm hfS hf
    refine ⟨g, hg, hfg, fun r hr => selectFirstReporter_keep.mpr ?_⟩
    rcases hall r hr with rfl | ⟨pre, now, g', post, rfl, hg'⟩
    · exact hle
    · -- the run up to the attempt, the attempt, and the rest of it
      rw [run_append, run_cons] at hn hfg
      have hpre := fun op ho => hm op (List.mem_append_left _ ho)
      have hpost := fun op ho => hm op (List.mem_append_right _ (List.mem_cons_of_mem _ ho))
      obtain ⟨h₁, hh₁, hf₁, -⟩ := attempts_run_le hw hpre hfS hf
      have he : g' = h₁ := congrArg FirstReport.reportId (Option.some.inj (hg'.symm.trans hf₁))
      subst he
      have htime := run_effects (P := fun d => d.reportTime r = some (timestamp (times r)))
        Effect.keepsTime (htimes r hr) pre
      have hex₁ : ((run step d pre).reports.get r).isSome = true := by
        obtain ⟨q, hq, -⟩ := Option.map_eq_some_iff.mp htime
        exact Option.isSome_of_eq_some hq
      have hn₁ : (run step d pre).award vi = none := by
        by_contra hs
        have h := award_run (Option.isSome_iff_ne_none.mpr hs)
          (⟨now, .replaceFirstReporter vi g' r (times r)⟩ :: post)
        rw [run_cons, hn] at h
        cases h
      obtain ⟨h₂, hh₂, hf₂, hle₂⟩ := attempt_le hw now hh₁ hr hf₁ hex₁ hn₁
      obtain ⟨h₃, hh₃, hf₃, hle₃⟩ := attempts_run_le hw hpost hh₂ hf₂
      have he : reportOf times g = reportOf times h₃ := Option.some.inj (hfg.symm.trans hf₃)
      rw [he]
      exact hle₃.trans hle₂
  · obtain ⟨hl, hop, -⟩ := along_append.mp hown
    have htimely : Timely vi d := timely_run hl
    rcases firstReporter_step op ha with h | ⟨r, t, -, he, -, h⟩
    · exact .inl (Option.some.inj (hb.symm.trans h))
    · cases Option.some.inj (hb.symm.trans h)
      exact .inr ((earlier_iff ((timely_step htimely hop).first _ hb) (htimely.first _ ha)).mp he)
  · intro m a hs ha
    have h : ((run step d m).award vi).isSome = true ∧
        (run step d m).firstReporter vi = some a := by
      refine run_inv (P := fun d : Inbox => (d.award vi).isSome = true ∧ d.firstReporter vi = some a)
        (fun d op hd => ⟨award_run hd.1 [op], ?_⟩) ⟨hs, ha⟩ m
      rcases firstReporter_step op hd.2 with h | ⟨r, t, -, -, hn, -⟩
      · exact h
      · rw [hn] at hd
        cases hd.1
    exact h.2

/-! Two reports, and a vulnerability the second is first recorded for. -/

def emailed (conversationId : String) (reportedAt : DateTime) : NewSecurityReport where
  source := "helpscout"
  conversationId := conversationId
  shortId := conversationId
  mailboxId := "7"
  url := ""
  subject := ""
  reporterEmail := none
  reporterCustomerId := none
  reportedAt := reportedAt
  customerThreadCount := 1

def confirmedFrom (firstReportId : Nat) (firstReportedAt : DateTime) : NewSecurityVulnerability where
  title := ""
  summary := ""
  repository := none
  severity := none
  state := .awaitingFix
  firstReportId := firstReportId
  firstReportedAt := firstReportedAt
  mergeCommit := none
  mergedAt := none

def twoReports (now : DateTime) (times : Nat → DateTime) : List Op :=
  [⟨now, .upsertReport (emailed "1" (times 1))⟩, ⟨now, .upsertReport (emailed "2" (times 2))⟩,
    ⟨now, .createVulnerability (confirmedFrom 2 (times 2))⟩]

def attemptFirst (now : DateTime) (times : Nat → DateTime) : Op :=
  ⟨now, .replaceFirstReporter 1 2 1 (times 1)⟩

def nine : DateTime := ⟨1793782800, 0, by decide⟩

/-- Report 1 an hour before report 2. -/
def hourApart (r : Nat) : DateTime := if r = 1 then ⟨1793779200, 0, by decide⟩ else nine

theorem first_reporter_converges_two :
    ∃ g ∈ [1, 2], (run step (run step .empty (twoReports nine hourApart))
        [attemptFirst nine hourApart]).firstReporter 1 = some (reportOf hourApart g) ∧
      ∀ r ∈ [1, 2],
        selectFirstReporter (reportOf hourApart g) (reportOf hourApart r) false = .keepExisting := by
  refine (first_reporter_converges (twoReports nine hourApart) 1).1 [1, 2] hourApart
    [attemptFirst nine hourApart] 2 (by decide) (by decide +kernel) (by decide +kernel) ?_ ?_
    (by decide +kernel)
  · intro op ho e r t ht
    cases List.mem_singleton.mp ho
    cases ht
    exact ⟨by decide, rfl⟩
  · intro r hr
    have hr : r = 1 ∨ r = 2 := by simpa using hr
    rcases hr with rfl | rfl
    · exact .inr ⟨[], nine, 2, [], rfl, by decide +kernel⟩
    · exact .inl rfl

/-- Within one second of 2026, report 2 before report 1. -/
def sameSecond (r : Nat) : DateTime :=
  if r = 1 then ⟨1793782800, 900000000, by decide⟩ else ⟨1793782800, 100000000, by decide⟩

/-- The selector keeps report 2, and the statement puts report 1 in its place: in one second the
smaller id wins. -/
theorem first_reporter_diverges :
    selectFirstReporter ⟨2, sameSecond 2⟩ ⟨1, sameSecond 1⟩ false = .keepExisting ∧
      (run step .empty (twoReports nine sameSecond ++ [attemptFirst nine sameSecond])).firstReporter 1
        = some ⟨1, timestamp (sameSecond 1)⟩ := by
  decide +kernel

-- A report of the first second of year 10000 is not stored.
example : ((run step .empty [⟨nine, .upsertReport (emailed "1" ⟨253402300800, 0, by decide⟩)⟩]).reports.get 1) =
    none := by
  decide +kernel

end Claudear.Storage.Security
