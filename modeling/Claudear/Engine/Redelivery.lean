import Claudear.Engine.WebhookRuns
import Claudear.Machine.Cut

/-!
# Webhooks that are delivered again

A tracker delivers a webhook again when it was not answered, or with an error.
`webhookHandler` records the delivery before it looks into it, and leaves it
recorded when it fails afterwards or is stopped, so the webhook that comes again
is ignored as a duplicate.

A `Handling` is what the calls of one webhook are answered, and before which the
handler stops. Where a webhook that is recorded as new is handled to the end and
without a failure, every other leaves no trace (`deliveries_honoured`).
-/

namespace Claudear.Engine.Webhook

open Claudear.Storage Claudear.Machine Claudear.Machine.Prog
open Claudear.Engine.Processing (Issue)

/-- What the calls are answered; the handler stops before one that has no answer. -/
structure Handling where
  answers : {β : Type} → Req β → Option Answers

def Handling.answer (w : Handling) {β : Type} (c : Req β) (s : State) : Option (β × State) :=
  (w.answers c).map fun e => Webhook.answer e c s

variable (A : AppState)

def handled (d : Delivery) : Run Handled := do
  let r ← webhookHandler A d
  ask (.respond r.1)
  return r

inductive Event where
  | webhook (d : Delivery) (w : Handling)
  | tracker (c : Call)
  | runEnds (k : IssueKey)
  | shutdown
  /-- With nothing in memory. -/
  | restart

/-- The answer of a webhook, if it got one. -/
def Event.outcome (s : State) : Event → Option Handled
  | .webhook d w => (cut w.answer (handled A d) s).1
  | _ => none

def Event.step (s : State) : Event → State
  | .webhook d w => (cut w.answer (handled A d) s).2
  | .tracker c => { s with table := s.table.exec c }
  | .runEnds k => { s with processing := s.processing.filter fun e => e.1 ≠ processingKey k }
  | .shutdown => { s with closed := true }
  | .restart => { s with processing := [], closed := false }

/-- A webhook with a delivery id that was answered with an error, or not at all. -/
def Event.failed (s : State) : Event → Bool
  | .webhook d w =>
    d.deliveryId.isSome && ((cut w.answer (handled A d) s).1.all fun r => r.1.isError)
  | _ => false

/-! ## What a handling meets -/

section

variable (h : Handler) (d : Delivery) (w : Handling) (s : State)

/-- The webhook gets as far as the check of its delivery. -/
structure Verified : Prop where
  source : d.source ≠ "github"
  handler : A.handlers d.source = some h
  signature : h.verifySignature d.body d.headers = true
  slack : slackReply A d = none
  running : s.closed = false

/-- The issue is found to have no attempt. -/
def Handling.findsNoAttempt (k : IssueKey) : Bool :=
  (w.answers (.hasAttempted k)).any fun e => e.error.isNone && !s.table.hasAttempted k

def Handling.findsNoDuplicate (issue : Issue) : Bool :=
  !A.hasEmbeddingService || (w.answers (.checkDuplicate issue)).any fun e => e.duplicate.isNone

def claimsKey (k : IssueKey) (issue : Issue) : Bool :=
  w.findsNoDuplicate A issue && (w.answers (.claimProcessing k)).isSome

/-- The issue is claimed. -/
def claimsIssue (issue : Issue) : Bool :=
  (validateIssueId issue.id).isNone && (A.suppressed issue).isNone && (h.matchesCriteria issue).fits &&
    w.findsNoAttempt s ⟨d.source, issue.id⟩ && claimsKey A w ⟨d.source, issue.id⟩ issue

/-- The webhook gets as far as the claim of its issue. -/
def getsToClaim : Bool :=
  (A.fromSlice d.body).any fun payload =>
    (w.answers (.parsePayload d.source payload)).any fun e =>
      match e.parsed with
      | .ok (some issue) => claimsIssue A h d w s issue
      | _ => false

/-- Old deliveries are deleted. -/
def Handling.cleansUp : Bool :=
  (w.answers (.random 50)).any (fun e => e.random = 0) &&
    (w.answers .cleanupOldDeliveries).any fun e => e.error.isNone

def Known (k : DeliveryKey) : Prop := (s.deliveries.any fun r => r.2.key = k) = true

/-- A delivery that is known or cannot be checked, and goes no further than to the claim. -/
def Passes : Prop :=
  match A.deliveryKey d with
  | none => getsToClaim A h d w s = false
  | some k =>
    match w.answers (.checkAndRecordDelivery k) with
    | none => True
    | some e =>
      if e.error.isSome then w.cleansUp = false ∧ getsToClaim A h d w s = false
      else Known s k ∨ w.answers .runsClosed = none

/-- The store takes part in a handling of the issue without a failure. -/
def StoreHolds (k : IssueKey) (issue : Issue) : Prop :=
  (∀ e, w.answers (.hasAttempted k) = some e → e.error = none) ∧
    ∀ e, w.answers (.recordAttemptWithLabels k issue.shortId issue.labels) = some e → e.error = none

/-- The webhook is handled to its end: it parses, its issue is valid and the store does not fail. -/
structure Unfailing : Prop where
  answered : ∀ {β : Type} (c : Req β), w.answers c ≠ none
  parses : ∃ payload, A.fromSlice d.body = some payload ∧
    ∀ e, w.answers (.parsePayload d.source payload) = some e → (∀ error, e.parsed ≠ .error error) ∧
      ∀ issue, e.parsed = .ok (some issue) → validateIssueId issue.id = none ∧
        (A.suppressed issue = none → (h.matchesCriteria issue).fits = true →
          StoreHolds w ⟨d.source, issue.id⟩ issue)

/-- The delivery is checked, and the check does not fail. -/
def Checked (k : DeliveryKey) (e : Answers) : Prop :=
  A.deliveryKey d = some k ∧ w.answers (.checkAndRecordDelivery k) = some e ∧ e.error = none

end

/-- A webhook with a delivery id passes, or is checked and handled to its end. -/
def Event.Honoured (s : State) : Event → Prop
  | .webhook d w => d.deliveryId ≠ none → ∀ h, Verified A h d s →
    Passes A h d w s ∨ (∃ k e, Checked A d w k e) ∧ Unfailing A h d w
  | _ => True

/-! ## Handlings that leave no trace -/

section Still

variable {A} {h : Handler} {d : Delivery} {w : Handling} {s s' : State} {k : IssueKey} {issue : Issue}

def NotAccepted (r : Handled) : Prop := r.1.status ≠ 202

theorem answer_eq_some {β : Type} {c : Req β} {b : β} (hb : w.answer c s = some (b, s')) :
    ∃ e, w.answers c = some e ∧ Webhook.answer e c s = (b, s') := by
  obtain ⟨e, he, hr⟩ := Option.map_eq_some_iff.mp hb
  exact ⟨e, he, hr⟩

theorem still_answered {r : Reply} (hr : r.status ≠ 202) :
    Still w.answer (answered r) NotAccepted s := still_pure hr

theorem still_startRun (hk : w.answers (.claimProcessing k) = none) :
    Still w.answer (startRun k issue) NotAccepted s := by
  refine still_call fun taken s' ha => ?_
  obtain ⟨e, he, -⟩ := answer_eq_some ha
  rw [hk] at he
  cases he

theorem still_handleNewIssue (hc : claimsKey A w k issue = false) :
    Still w.answer (handleNewIssue A k issue) NotAccepted s := by
  have hsimilar : Still w.answer (similarIssue A issue)
      (fun r => r = none → w.answers (.claimProcessing k) = none) s := by
    unfold similarIssue
    split
    · rename_i hs
      refine still_perform fun r s' ha => ?_
      obtain ⟨e, he, hr⟩ := answer_eq_some ha
      obtain ⟨rfl, rfl⟩ := Prod.mk.inj hr
      refine ⟨rfl, fun hd => ?_⟩
      simpa [claimsKey, Handling.findsNoDuplicate, hs, he, hd] using hc
    · rename_i hs
      refine still_pure fun _ => ?_
      simpa [claimsKey, Handling.findsNoDuplicate, hs] using hc
  refine hsimilar.bind fun r hr => ?_
  cases r with
  | some duplicate => exact still_answered (by simp)
  | none => exact still_startRun (hr rfl)

theorem still_handleMatchingIssue (hc : (w.findsNoAttempt s k && claimsKey A w k issue) = false) :
    Still w.answer (handleMatchingIssue A k issue) NotAccepted s := by
  refine still_call fun attempted s' ha => ?_
  obtain ⟨e, he, hr⟩ := answer_eq_some ha
  simp only [Webhook.answer, orFail] at hr
  cases herr : e.error with
  | some error =>
    rw [herr] at hr
    obtain ⟨rfl, rfl⟩ := Prod.mk.inj hr
    exact ⟨rfl, still_answered (by simp [failed])⟩
  | none =>
    rw [herr] at hr
    obtain ⟨rfl, rfl⟩ := Prod.mk.inj hr
    refine ⟨rfl, ?_⟩
    cases hat : s.table.hasAttempted k with
    | true => exact still_answered (by simp [ignored])
    | false => exact still_handleNewIssue (by simpa [Handling.findsNoAttempt, he, herr, hat] using hc)

theorem still_handleIssue (hc : claimsIssue A h d w s issue = false) :
    Still w.answer (handleIssue A h d issue) NotAccepted s := by
  unfold handleIssue
  cases hv : validateIssueId issue.id with
  | some error => exact still_answered (by simp [refused])
  | none =>
    cases hs : A.suppressed issue with
    | some rule => exact still_answered (by simp)
    | none =>
      dsimp only
      split
      · rename_i hfit
        exact still_handleMatchingIssue (by simpa [claimsIssue, hv, hs, hfit] using hc)
      · exact still_answered (by simp [ignored])

theorem still_handlePayload (hc : getsToClaim A h d w s = false) :
    Still w.answer (handlePayload A h d) NotAccepted s := by
  unfold handlePayload
  cases hp : A.fromSlice d.body with
  | none => exact still_answered (by simp [refused])
  | some payload =>
    refine still_call fun parsed s' ha => ?_
    obtain ⟨e, he, hr⟩ := answer_eq_some ha
    obtain ⟨rfl, rfl⟩ := Prod.mk.inj hr
    refine ⟨rfl, ?_⟩
    rcases hparsed : e.parsed with error | _ | issue
    · exact still_answered (by simp [refused])
    · exact still_answered (by simp [ignored])
    · exact still_handleIssue (by simpa [getsToClaim, hp, he, hparsed] using hc)

/-- The check of a delivery that passes tells a known one from one that could not be checked. -/
theorem still_isDuplicateDelivery (hp : Passes A h d w s) (hr : w.answers .runsClosed ≠ none) :
    Still w.answer (isDuplicateDelivery A d) (fun known => known = false → getsToClaim A h d w s = false)
      s := by
  unfold isDuplicateDelivery
  unfold Passes at hp
  cases hk : A.deliveryKey d with
  | none =>
    rw [hk] at hp
    exact still_pure fun _ => hp
  | some k =>
    rw [hk] at hp
    refine still_call fun known s' ha => ?_
    obtain ⟨e, he, hb⟩ := answer_eq_some ha
    simp only [he] at hp
    simp only [Webhook.answer, orFail] at hb
    cases herr : e.error with
    | none =>
      rw [herr] at hb hp
      have hknown : Known s k := by simpa [hr] using hp
      simp only [Deliveries.checkAndRecordDelivery, Known] at hb hknown
      rw [if_pos hknown] at hb
      obtain ⟨rfl, rfl⟩ := Prod.mk.inj hb
      exact ⟨rfl, still_pure (by simp)⟩
    | some error =>
      rw [herr] at hb hp
      obtain ⟨rfl, rfl⟩ := Prod.mk.inj hb
      obtain ⟨hclean, hclaim⟩ : w.cleansUp = false ∧ getsToClaim A h d w s = false := by simpa using hp
      refine ⟨rfl, still_call fun n s' ha => ?_⟩
      obtain ⟨e', he', hn⟩ := answer_eq_some ha
      obtain ⟨rfl, rfl⟩ := Prod.mk.inj hn
      refine ⟨rfl, ?_⟩
      split
      · rename_i hzero
        refine still_call fun u s' ha => ?_
        obtain ⟨e'', he'', hc⟩ := answer_eq_some ha
        have hsome : e''.error.isSome = true := by
          simpa [Handling.cleansUp, he', he'', hzero, Option.isSome_iff_ne_none] using hclean
        simp only [Webhook.answer, hsome, if_true] at hc
        obtain ⟨-, rfl⟩ := Prod.mk.inj hc
        exact ⟨rfl, still_pure fun _ => hclaim⟩
      · exact still_pure fun _ => hclaim

/-- A reply that is sent. -/
theorem still_respond {p : Run Handled} {P : Handled → Prop} (hp : Still w.answer p P s) :
    Still w.answer (do let r ← p; ask (.respond r.1); return r) P s := by
  refine hp.bind fun r hr => still_call fun u s' ha => ?_
  obtain ⟨e, -, hs⟩ := answer_eq_some ha
  obtain ⟨-, rfl⟩ := Prod.mk.inj hs
  exact ⟨rfl, still_pure hr⟩

theorem webhookHandler_verified (hv : Verified A h d s) :
    webhookHandler A d = (do
      if ← ask .runsClosed then
        answered ⟨503, [("status", "unavailable"), ("reason", "Shutting down")]⟩
      else if ← isDuplicateDelivery A d then answered (ignored "Duplicate delivery")
      else handlePayload A h d) := by
  simp only [webhookHandler, if_neg hv.source, hv.handler, hv.signature, if_true, handleVerified, hv.slack]

theorem still_passes (hv : Verified A h d s) (hp : Passes A h d w s) :
    Still w.answer (webhookHandler A d) NotAccepted s := by
  rw [webhookHandler_verified hv]
  refine still_call fun closed s' ha => ?_
  obtain ⟨e, he, hc⟩ := answer_eq_some ha
  obtain ⟨rfl, rfl⟩ := Prod.mk.inj hc
  refine ⟨rfl, ?_⟩
  rw [hv.running]
  refine (still_isDuplicateDelivery hp (by simp [he])).bind fun known hknown => ?_
  cases known with
  | true => exact still_answered (by simp [ignored])
  | false => exact still_handlePayload (hknown rfl)

theorem githubReply_status (r : Except GithubError WebhookAction) : (githubReply r).status ≠ 202 := by
  cases r with
  | error e => cases e <;> simp [githubReply, refused]
  | ok action => cases action <;> simp [githubReply, ignored]

theorem still_handleGithubWebhook : Still w.answer (handleGithubWebhook A d) NotAccepted s := by
  unfold handleGithubWebhook
  split
  · split
    · exact still_answered (by simp [refused])
    · refine still_call fun r s' ha => ?_
      obtain ⟨e, -, hr⟩ := answer_eq_some ha
      obtain ⟨rfl, rfl⟩ := Prod.mk.inj hr
      exact ⟨rfl, still_answered (githubReply_status _)⟩
  · exact still_answered (by simp [refused])

/-- A webhook that does not get to the check of its delivery. -/
theorem still_not_verified (hv : ∀ h, ¬ Verified A h d s) :
    Still w.answer (webhookHandler A d) NotAccepted s := by
  unfold webhookHandler
  split
  · exact still_handleGithubWebhook
  · rename_i hsource
    cases hh : A.handlers d.source with
    | none => exact still_answered (by simp [refused])
    | some h =>
      dsimp only
      split
      · rename_i hsignature
        unfold handleVerified
        cases hslack : slackReply A d with
        | some reply =>
          refine still_answered ?_
          unfold slackReply at hslack
          split at hslack
          · split at hslack
            · obtain rfl := Option.some.inj hslack
              simp [refused]
            · split at hslack
              · obtain rfl := Option.some.inj hslack
                simp
              · cases hslack
          · cases hslack
        | none =>
          refine still_call fun closed s' ha => ?_
          obtain ⟨e, -, hc⟩ := answer_eq_some ha
          obtain ⟨rfl, rfl⟩ := Prod.mk.inj hc
          refine ⟨rfl, ?_⟩
          cases hclosed : s.closed with
          | true => exact still_answered (by simp)
          | false => exact absurd ⟨hsource, hh, hsignature, hslack, hclosed⟩ (hv h)
      · exact still_answered (by simp [refused])

end Still

/-! ## Handlings without a failure -/

section Unfailing

variable {A} {h : Handler} {d : Delivery} {w : Handling} {s : State} {k : IssueKey} {issue : Issue}

theorem leaves_answered {α β : Type} {c : Req α} {f : α → Run β} {R : Option β → State → Prop}
    (hc : w.answers c ≠ none)
    (hf : ∀ e, w.answers c = some e →
      Leaves w.answer (f (Webhook.answer e c s).1) R (Webhook.answer e c s).2) :
    Leaves w.answer (ask c >>= f) R s := by
  refine leaves_call (fun hn => ?_) fun a s' ha => ?_
  · exact absurd (Option.map_eq_none_iff.mp hn) hc
  · obtain ⟨e, he, hr⟩ := answer_eq_some ha
    have hf := hf e he
    rw [hr] at hf
    exact hf

/-- The webhook is answered, and not with an error. -/
abbrev Succeeds (w : Handling) (p : Run Handled) (s : State) : Prop :=
  Leaves w.answer p (fun r _ => ∃ a, r = some a ∧ a.1.isError = false) s

theorem succeeds_answered {r : Reply} (hr : r.isError = false) : Succeeds w (answered r) s :=
  leaves_pure ⟨_, rfl, hr⟩

theorem succeeds_startRun (ha : ∀ {β : Type} (c : Req β), w.answers c ≠ none)
    (hr : ∀ e, w.answers (.recordAttemptWithLabels k issue.shortId issue.labels) = some e → e.error = none) :
    Succeeds w (startRun k issue) s := by
  refine leaves_answered (ha _) fun e _ => ?_
  cases (Webhook.answer e (.claimProcessing k) s).1 with
  | false => exact succeeds_answered rfl
  | true =>
    refine leaves_answered (ha _) fun e' he' => ?_
    simp only [Webhook.answer, orFail, hr e' he']
    exact leaves_answered (ha _) fun e'' _ => leaves_pure ⟨_, rfl, rfl⟩

theorem succeeds_handleMatchingIssue (ha : ∀ {β : Type} (c : Req β), w.answers c ≠ none)
    (hr : StoreHolds w k issue) : Succeeds w (handleMatchingIssue A k issue) s := by
  refine leaves_answered (ha _) fun e he => ?_
  simp only [Webhook.answer, orFail, hr.1 e he]
  cases s.table.hasAttempted k with
  | true => exact succeeds_answered rfl
  | false =>
    show Succeeds w (similarIssue A issue >>= _) s
    unfold similarIssue
    split
    · refine leaves_answered (ha _) fun e' _ => ?_
      cases (Webhook.answer e' (.checkDuplicate issue) s).1 with
      | some duplicate => exact succeeds_answered rfl
      | none => exact succeeds_startRun ha hr.2
    · exact succeeds_startRun ha hr.2

theorem succeeds_handlePayload (hu : Unfailing A h d w) : Succeeds w (handlePayload A h d) s := by
  obtain ⟨payload, hp, hparses⟩ := hu.parses
  rw [handlePayload, hp]
  refine leaves_answered (hu.answered _) fun e he => ?_
  obtain ⟨hok, hissue⟩ := hparses e he
  simp only [Webhook.answer]
  rcases hparsed : e.parsed with error | _ | issue
  · exact absurd hparsed (hok error)
  · exact succeeds_answered rfl
  · obtain ⟨hv, hstore⟩ := hissue issue hparsed
    simp only [handleIssue, hv]
    cases hs : A.suppressed issue with
    | some rule => exact succeeds_answered rfl
    | none =>
      dsimp only
      split
      · exact succeeds_handleMatchingIssue hu.answered (hstore hs ‹_›)
      · exact succeeds_answered rfl

theorem succeeds_handled (hv : Verified A h d s) (hu : Unfailing A h d w) : Succeeds w (handled A d) s := by
  have hwebhook : Succeeds w (webhookHandler A d) s := by
    rw [webhookHandler_verified hv]
    refine leaves_answered (hu.answered _) fun e _ => ?_
    simp only [Webhook.answer, hv.running]
    show Succeeds w (isDuplicateDelivery A d >>= _) s
    have hany : Leaves w.answer (isDuplicateDelivery A d) (fun r _ => r ≠ none) s := by
      unfold isDuplicateDelivery
      split
      · exact leaves_pure (by simp)
      · refine leaves_answered (hu.answered _) fun e' _ => ?_
        have hclean (s : State) : Leaves w.answer (do
            if (← ask (.random 50)) = 0 then ask .cleanupOldDeliveries
            return false) (fun r _ => r ≠ none) s := by
          refine leaves_answered (hu.answered _) fun e'' _ => ?_
          split
          · exact leaves_answered (hu.answered _) fun _ _ => leaves_pure (by simp)
          · exact leaves_pure (by simp)
        rcases (Webhook.answer e' (.checkAndRecordDelivery _) s).1 with error | _ | _
        · exact hclean _
        · exact leaves_pure (by simp)
        · exact hclean _
    refine hany.bind (fun _ hn => absurd rfl hn) fun known s' _ => ?_
    cases known with
    | true => exact succeeds_answered rfl
    | false => exact succeeds_handlePayload hu
  refine hwebhook.bind (fun _ hn => ?_) fun r s' hr => ?_
  · obtain ⟨a, ha, -⟩ := hn
    cases ha
  · exact leaves_answered (hu.answered _) fun e _ => leaves_pure hr

end Unfailing

/-! ## What is recorded stays recorded -/

section Recorded

variable {A} {h : Handler} {d : Delivery} {w : Handling} {s s' : State} {k : DeliveryKey} {e : Answers}
  {since : Timestamp}

/-- Old deliveries are not deleted after `last`. -/
def Handling.CleansBefore (w : Handling) (last : Timestamp) : Prop :=
  ∀ e, w.answers .cleanupOldDeliveries = some e → e.now ≤ last

def Event.CleansBefore (last : Timestamp) : Event → Prop
  | .webhook _ w => w.CleansBefore last
  | _ => True

abbrev Remembers (since : Timestamp) (k : DeliveryKey) (s : State) : Prop :=
  s.deliveries.RecordedSince since k

theorem recorded_answer (hw : w.CleansBefore (since + Deliveries.hours RETENTION_HOURS)) {β : Type}
    (c : Req β) (s : State) (r : β × State) (hr : w.answer c s = some r) (hs : Remembers since k s) :
    Remembers since k r.2 := by
  obtain ⟨e, he, rfl⟩ := Option.map_eq_some_iff.mp hr
  cases c with
  | checkAndRecordDelivery k' =>
    simp only [Webhook.answer, orFail]
    cases e.error with
    | some error => exact hs
    | none => exact hs.record
  | cleanupOldDeliveries =>
    simp only [Webhook.answer]
    split
    · exact hs
    · exact hs.cleanup (hw e he)
  | hasAttempted | recordAttemptWithLabels =>
    simp only [Webhook.answer, orFail]
    cases e.error <;> exact hs
  | claimProcessing =>
    simp only [Webhook.answer]
    split <;> exact hs
  | _ => exact hs

theorem leaves_remembers {α : Type} (hw : w.CleansBefore (since + Deliveries.hours RETENTION_HOURS))
    (p : Run α) (hs : Remembers since k s) : Leaves w.answer p (fun _ => Remembers since k) s :=
  leaves_always (recorded_answer hw) p hs

theorem recorded_step {event : Event}
    (he : event.CleansBefore (since + Deliveries.hours RETENTION_HOURS))
    (hs : Remembers since k s) : Remembers since k (event.step A s) := by
  cases event with
  | webhook d w => exact leaves_remembers he _ hs
  | _ => exact hs

/-- A delivery that is checked is recorded afterwards, or has passed. -/
theorem recorded_of_accepted (hv : Verified A h d s) (hc : Checked A d w k e)
    (hw : w.CleansBefore (e.now + Deliveries.hours RETENTION_HOURS)) :
    Known s k ∨ w.answers .runsClosed = none ∨
      Remembers e.now k (Event.step A s (.webhook d w)) := by
  obtain ⟨hk, he, herr⟩ := hc
  by_cases hknown : Known s k
  · exact .inl hknown
  cases hclosed : w.answers .runsClosed with
  | none => exact .inr (.inl rfl)
  | some e₀ =>
    refine .inr (.inr ?_)
    have hnew : Leaves w.answer (isDuplicateDelivery A d)
        (fun _ => Remembers e.now k) s := by
      unfold isDuplicateDelivery
      rw [hk]
      refine leaves_answered (by simp [he]) fun e' he' => ?_
      obtain rfl : e = e' := Option.some.inj (he.symm.trans he')
      have hrow : (s.deliveries.checkAndRecordDelivery e.now k).1 = true :=
        congrArg Prod.fst (if_neg hknown)
      refine leaves_remembers hw _ ?_
      simp only [Webhook.answer, orFail, herr]
      exact Deliveries.RecordedSince.of_check hrow
    have hhandler : Leaves w.answer (webhookHandler A d)
        (fun _ => Remembers e.now k) s := by
      rw [webhookHandler_verified hv]
      refine leaves_answered (by simp [hclosed]) fun e' _ => ?_
      simp only [Webhook.answer, hv.running]
      refine Leaves.bind hnew (fun _ hs => hs) fun known s' hs => ?_
      exact leaves_remembers hw _ hs
    have hall : Leaves w.answer (handled A d) (fun _ => Remembers e.now k) s :=
      Leaves.bind hhandler (fun _ hs => hs) fun _ _ hs => leaves_remembers hw _ hs
    exact hall

end Recorded

/-! ## Runs of deliveries -/

section Runs

variable {A} {d d' : Delivery} {w w' : Handling} {s : State} {k : DeliveryKey} {e : Answers}
  {event : Event} {l : List Event}

theorem still_handled {P : Handled → Prop} (h : Still w.answer (webhookHandler A d) P s) :
    Still w.answer (handled A d) P s := still_respond h

/-- A webhook that fails leaves the state as it is. -/
theorem step_of_failed (hh : event.Honoured A s) (hf : event.failed A s = true) : event.step A s = s := by
  cases event with
  | webhook d w =>
    simp only [Event.failed, Bool.and_eq_true] at hf
    by_cases hv : ∃ h, Verified A h d s
    · obtain ⟨h, hv⟩ := hv
      rcases hh (Option.isSome_iff_ne_none.mp hf.1) h hv with hp | ⟨-, hu⟩
      · exact (still_handled (still_passes hv hp)).1
      · -- a handling without a failure is answered, and not with an error
        obtain ⟨r, hr, herr⟩ := succeeds_handled hv hu
        rw [hr] at hf
        simp [herr] at hf
    · exact (still_handled (still_not_verified fun h hvh => hv ⟨h, hvh⟩)).1
  | _ => cases hf

/-- The run without the webhooks that fail in it. -/
def erase (A : AppState) : State → List Event → List Event
  | _, [] => []
  | s, event :: l =>
    if event.failed A s then erase A (event.step A s) l else event :: erase A (event.step A s) l

/-- What the others were answered. -/
def Event.answeredAs (A : AppState) (s : State) (event : Event) : Option (Option Handled) :=
  if event.failed A s then none else some (event.outcome A s)

theorem run_erase (h : Along (Event.step A) (Event.Honoured A) s l) :
    run (Event.step A) s (erase A s l) = run (Event.step A) s l ∧
      seen (Event.step A) (Event.answeredAs A) s (erase A s l) =
        seen (Event.step A) (Event.answeredAs A) s l := by
  induction l generalizing s with
  | nil => exact ⟨rfl, rfl⟩
  | cons event l ih =>
    obtain ⟨hh, hl⟩ := h
    have ih := ih hl
    rw [erase]
    split
    · rename_i hf
      rw [run_cons, seen, Event.answeredAs, if_pos hf]
      rw [step_of_failed hh hf] at ih ⊢
      exact ih
    · rw [run_cons, run_cons, seen, seen, ih.1, ih.2]
      exact ⟨rfl, rfl⟩

/-- The webhook is answered with 202. -/
def Event.accepted (A : AppState) (s : State) : Event → Prop
  | .webhook d w => ∃ r, (cut w.answer (handled A d) s).1 = some r ∧ r.1.status = 202
  | _ => False

theorem passes_of_known {h : Handler} (hc : Checked A d w k e)
    (hk : Known s k ∨ w.answers .runsClosed = none) : Passes A h d w s := by
  obtain ⟨hkey, he, herr⟩ := hc
  unfold Passes
  simp only [hkey, he, herr, Option.isSome_none, Bool.false_eq_true, if_false]
  exact hk

/-- An accepted delivery was checked, and is recorded. -/
theorem remembers_of_accepted (hid : d.deliveryId ≠ none) (hh : Event.Honoured A s (.webhook d w))
    (ha : Event.accepted A s (.webhook d w))
    (hw : ∀ k e, Checked A d w k e → w.CleansBefore (e.now + Deliveries.hours RETENTION_HOURS)) :
    ∃ k e, Checked A d w k e ∧ Remembers e.now k (Event.step A s (.webhook d w)) := by
  obtain ⟨r, hr, hstatus⟩ := ha
  by_cases hv : ∃ h, Verified A h d s
  · obtain ⟨h, hv⟩ := hv
    have hnot (hp : Passes A h d w s) : False := (still_handled (still_passes hv hp)).2 r hr hstatus
    rcases hh hid h hv with hp | ⟨⟨k, e, hc⟩, -⟩
    · exact (hnot hp).elim
    · rcases recorded_of_accepted hv hc (hw k e hc) with hk | hk | hk
      · exact (hnot (passes_of_known hc (.inl hk))).elim
      · exact (hnot (passes_of_known hc (.inr hk))).elim
      · exact ⟨k, e, hc, hk⟩
  · exact absurd hstatus ((still_handled (still_not_verified fun h hvh => hv ⟨h, hvh⟩)).2 r hr)

/-- A delivery that is recorded comes again and changes nothing. -/
theorem step_of_remembered (hkey : A.deliveryKey d = some k) {since : Timestamp}
    (hm : Remembers since k s) (hid : d.deliveryId ≠ none) (hh : Event.Honoured A s (.webhook d w)) :
    Event.step A s (.webhook d w) = s := by
  have hknown : Known s k := by
    obtain ⟨i, r, hi, hk, -⟩ := hm
    exact Sql.Table.any_eq_true.mpr ⟨i, r, hi, decide_eq_true hk⟩
  by_cases hv : ∃ h, Verified A h d s
  · obtain ⟨h, hv⟩ := hv
    rcases hh hid h hv with hp | ⟨⟨k', e', hc⟩, -⟩
    · exact (still_handled (still_passes hv hp)).1
    · obtain rfl : k' = k := Option.some.inj (hc.1.symm.trans hkey)
      exact (still_handled (still_passes hv (passes_of_known hc (.inl hknown)))).1
  · exact (still_handled (still_not_verified fun h hvh => hv ⟨h, hvh⟩)).1

/-- Where every webhook passes, or is checked and handled to its end, those that fail leave no trace
in what happens otherwise; and one that is accepted does nothing when it comes again within the
retention. -/
theorem deliveries_honoured (A : AppState) (s : State) (l : List Event)
    (h : Along (Event.step A) (Event.Honoured A) s l) :
    (run (Event.step A) s (erase A s l) = run (Event.step A) s l ∧
        seen (Event.step A) (Event.answeredAs A) s (erase A s l) =
          seen (Event.step A) (Event.answeredAs A) s l) ∧
      ∀ pre mid post d w d' w', l = pre ++ .webhook d w :: mid ++ .webhook d' w' :: post →
        d.deliveryId ≠ none → d'.deliveryId = d.deliveryId → d'.source = d.source →
        Event.accepted A (run (Event.step A) s pre) (.webhook d w) →
        (∀ k e, Checked A d w k e → ∀ event ∈ .webhook d w :: mid,
          event.CleansBefore (e.now + Deliveries.hours RETENTION_HOURS)) →
        (run (Event.step A) s (pre ++ .webhook d w :: mid ++ [.webhook d' w'])).spawned =
          (run (Event.step A) s (pre ++ .webhook d w :: mid)).spawned := by
  refine ⟨run_erase h, ?_⟩
  rintro pre mid post d w d' w' rfl hid hid' hsource ha hclean
  rw [List.append_assoc, along_append] at h
  obtain ⟨-, h⟩ := h
  have h' : Along (Event.step A) (Event.Honoured A) (run (Event.step A) s pre)
      ((.webhook d w :: mid) ++ .webhook d' w' :: post) := h
  obtain ⟨hfirst, hsecond⟩ := along_append.mp h'
  obtain ⟨k, e, hc, hm⟩ := remembers_of_accepted hid hfirst.1 ha fun k e hc => hclean k e hc _ List.mem_cons_self
  have hmid : Remembers e.now k (run (Event.step A) (Event.step A (run (Event.step A) s pre) (.webhook d w)) mid) := by
    have hall : Along (Event.step A)
        (fun _ event => event.CleansBefore (e.now + Deliveries.hours RETENTION_HOURS))
        (Event.step A (run (Event.step A) s pre) (.webhook d w)) mid :=
      along_const.mpr fun event hevent => hclean k e hc event (List.mem_cons_of_mem _ hevent)
    exact hall.inv (fun s event hs he => recorded_step he hs) hm
  have hkey : A.deliveryKey d' = some k := by
    rw [← hc.1, AppState.deliveryKey, AppState.deliveryKey, hid', hsource]
  rw [run_append _ (pre ++ .webhook d w :: mid), run_append s pre, run_cons]
  exact congrArg State.spawned (step_of_remembered hkey hmid (hid' ▸ hid) hsecond.1)

end Runs

/-! ## A delivery that fails once -/

def sentryStored : AppState := { sentryOnly with hasSqliteTracker := true }

def hooked : Delivery :=
  { crashed with headers := fun name => if name = "sentry-hook-id" then some "d-1" else none }

def handledWell : Handling := ⟨fun _ => some calm⟩

/-- The payload cannot be parsed this time. -/
def unparsed : Handling := ⟨fun _ => some { calm with parsed := .error "timeout" }⟩

/-- It is answered with an error; when it comes again it is a duplicate, and never runs. -/
theorem failed_delivery_lost :
    (Event.outcome sentryStored nothingYet (.webhook hooked unparsed)).map Prod.fst =
        some (refused 400 "Failed to parse payload") ∧
      (Event.outcome sentryStored (Event.step sentryStored nothingYet (.webhook hooked unparsed))
        (.webhook hooked handledWell)).map Prod.fst = some (ignored "Duplicate delivery") ∧
      (Event.outcome sentryStored nothingYet (.webhook hooked handledWell)).map Prod.fst =
        some (accepted "APP-1") := by
  refine ⟨?_, ?_, ?_⟩ <;> decide +kernel

theorem honoured_handledWell (s : State) :
    Event.Honoured sentryStored s (.webhook hooked handledWell) := by
  intro _ h _
  have hcheck : Checked sentryStored hooked handledWell ⟨"d-1", "sentry"⟩ calm :=
    ⟨by decide +kernel, rfl, rfl⟩
  refine .inr ⟨⟨_, _, hcheck⟩, ⟨fun c hc => ?_, .table [], rfl, fun e he => ?_⟩⟩
  · cases hc
  · obtain rfl : calm = e := Option.some.inj he
    refine ⟨fun error herror => (by cases herror), fun issue hissue => ?_⟩
    obtain rfl : crash = issue := Option.some.inj (Except.ok.inj hissue)
    refine ⟨by decide +kernel, fun _ _ => ⟨fun e he => ?_, fun e he => ?_⟩⟩ <;>
      exact Option.some.inj he ▸ rfl

theorem deliveries_honoured_twice :
    (run (Event.step sentryStored) nothingYet
          (erase sentryStored nothingYet (List.replicate 2 (.webhook hooked handledWell))) =
        run (Event.step sentryStored) nothingYet (List.replicate 2 (.webhook hooked handledWell)) ∧
      seen (Event.step sentryStored) (Event.answeredAs sentryStored) nothingYet
          (erase sentryStored nothingYet (List.replicate 2 (.webhook hooked handledWell))) =
        seen (Event.step sentryStored) (Event.answeredAs sentryStored) nothingYet
          (List.replicate 2 (.webhook hooked handledWell))) ∧
      ∀ pre mid post d w d' w',
        List.replicate 2 (.webhook hooked handledWell) = pre ++ .webhook d w :: mid ++ .webhook d' w' :: post →
        d.deliveryId ≠ none → d'.deliveryId = d.deliveryId → d'.source = d.source →
        Event.accepted sentryStored (run (Event.step sentryStored) nothingYet pre) (.webhook d w) →
        (∀ k e, Checked sentryStored d w k e → ∀ event ∈ .webhook d w :: mid,
          event.CleansBefore (e.now + Deliveries.hours RETENTION_HOURS)) →
        (run (Event.step sentryStored) nothingYet (pre ++ .webhook d w :: mid ++ [.webhook d' w'])).spawned =
          (run (Event.step sentryStored) nothingYet (pre ++ .webhook d w :: mid)).spawned :=
  deliveries_honoured sentryStored nothingYet _
    ⟨honoured_handledWell _, honoured_handledWell _, trivial⟩

end Claudear.Engine.Webhook
