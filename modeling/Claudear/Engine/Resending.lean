import Claudear.Engine.Fencing
import Claudear.Storage.ReportColumns
import Claudear.Storage.ReportTrail

/-!
# How often a reply is sent

A sender decides on the ledger entry, the report and the clock it has read, and
the claim checks none of them again. `resending_bounded` is about the runs in
which a failed reply is claimed by a sender whose reads are still true: then it is
claimed at most `MAX_REPLY_ATTEMPTS` times, each claim waits for its backoff, and
the last rejection hands the report to an admin. In `staleSender` a report is read
before its last rejection and its reply claimed after it.
-/

namespace Claudear.Engine.Security

open Claudear.Core Claudear.Core.DateTime Claudear.Sql Claudear.Sql.Tx Claudear.Machine
  Claudear.Storage Claudear.Storage.Security

/-- The time at which a move claims the reply. -/
def claimAt (inbox : SecurityInbox) (ri : Nat) (k : SecurityReplyKind) (w : World Req Inbox View) :
    Move Env Job Outside → Option DateTime
  | .go t env =>
    if (senders inbox).observe handedOut w (.go t env) = some (t, (ri, k)) then some env.now else none
  | _ => none

/-- The times at which the reply is claimed over a run from the empty store. -/
def claimsOf (inbox : SecurityInbox) (ri : Nat) (k : SecurityReplyKind)
    (l : List (Move Env Job Outside)) : List DateTime :=
  seen ((senders inbox).step watch) (claimAt inbox ri k) (Pool.initial watch .empty) l

/-- Each of the claims is at least the backoff times the number of claims before it after the last
of these, as the ledger records that one to the second. -/
def Spaced (backoff : Nat) (claims : List DateTime) : Prop :=
  ∀ i a b, claims[i]? = some a → claims[i + 1]? = some b →
    (timestamp a).toNanos + backoff * (i + 1 : Nat) ≤ b.toNanos

/-- The last rejection hands a report that is replying or tracking to an admin. -/
def HandsOver (inbox : SecurityInbox) (w : World Req Inbox View) (move : Move Env Job Outside) : Prop :=
  ∀ t ri k, (senders inbox).observe completed w move = some (t, (ri, k), .failed) →
    w.shared.attempts ri k = MAX_REPLY_ATTEMPTS →
    ∀ s ∈ w.shared.reportState ri, s = .replying ∨ s = .tracking →
      ((senders inbox).step watch w move).shared.reportState ri = some .needsHuman

/-! ## Reads that are still true -/

/-- The reply a thread is about to claim. -/
def claiming : Prog Req Unit → Option ReplyKey
  | .call (.store (.claimReply ri k _)) _ => some (ri, k)
  | _ => none

/-- What was read about the failed reply `r` of report `ri` is still true, and the clock has not gone
back. -/
structure Fresh (d : Inbox) (g : View) (now : DateTime) (ri : Nat) (k : SecurityReplyKind)
    (r : SecurityReply) : Prop where
  entry : g.entry ri k = some r
  state : ∃ s ∈ d.reportState ri, (s = .replying ∨ s = .tracking) ∧
    ∀ p ∈ g.reports, p.1 = ri → p.2.state = s
  clock : ∀ c ∈ g.clock, c ≤ now

/-- A call of an admin about a report or its replies. -/
def isAdmin {α : Type} : Call α → Bool
  | .confirmReply .. => true
  | .transitionReport _ expected _ _ _ => expected = .needsHuman
  | _ => false

/-- A failed reply is claimed by senders whose reads are still true, and no admin acts. The clock
tells times that `chrono` can hold. -/
def ResentFresh (w : World Req Inbox View) : Move Env Job Outside → Prop
  | .go t env => env.now.Representable ∧ ∀ ri k, claiming (w.prog t) = some (ri, k) →
    ∀ r ∈ w.shared.reply ri k, r.status = .failed → Fresh w.shared (w.note t) env.now ri k r
  | .outside o => isAdmin o.op.call = false
  | _ => True

variable {inbox : SecurityInbox} {d d' : Inbox} {n : Nat → View} {t : Nat} {g : View} {now : DateTime}
  {ri : Nat} {k : SecurityReplyKind} {α : Type} {call : Call α} {a : α}

theorem fresh_iff {r : SecurityReply} : Fresh d g now ri k r ↔ g.entry ri k = some r ∧
    (∃ s ∈ d.reportState ri, (s = .replying ∨ s = .tracking) ∧
      ∀ p ∈ g.reports, p.1 = ri → p.2.state = s) ∧ ∀ c ∈ g.clock, c ≤ now :=
  ⟨fun h => ⟨h.entry, h.state, h.clock⟩, fun h => ⟨h.1, h.2.1, h.2.2⟩⟩

theorem resentFresh_go {w : World Req Inbox View} {env : Env} :
    ResentFresh w (.go t env) ↔ env.now.Representable ∧ ∀ key ∈ (claiming (w.prog t)).toList,
      ∀ r ∈ (w.shared.reply key.1 key.2).toList, r.status = .failed →
        Fresh w.shared (w.note t) env.now key.1 key.2 r := by
  simp only [Option.mem_toList]
  exact and_congr_right fun _ => ⟨fun h key hk => h key.1 key.2 hk, fun h ri k hk => h (ri, k) hk⟩

instance {r : SecurityReply} : Decidable (Fresh d g now ri k r) := decidable_of_iff' _ fresh_iff

instance (w : World Req Inbox View) : ∀ move, Decidable (ResentFresh w move)
  | .go _ _ => decidable_of_iff' _ resentFresh_go
  | .outside o => inferInstanceAs (Decidable (isAdmin o.op.call = false))
  | .start _ _ => .isTrue trivial
  | .stop _ => .isTrue trivial

/-! ## Reports that are out of the senders' hands -/

def Stopped (d : Inbox) (ri : Nat) : Prop :=
  ∃ s ∈ d.reportState ri, s = .needsHuman ∨ s.isTerminal = true

theorem reportState_exec {s : SecurityReportState} (h : (exec now call).run d = .ok (a, d'))
    (hs : d.reportState ri = some s) : d'.reportState ri = some s ∨
      call.leaves s = true ∧ ∃ s', s.canTransitionTo s' = true ∧ d'.reportState ri = some s' := by
  obtain ⟨r, hr, rfl⟩ := Option.map_eq_some_iff.mp hs
  obtain ⟨r', hr', hchange⟩ := report_exec h hr
  unfold Inbox.reportState
  rw [hr', Option.map_some]
  rcases hchange.state with he | ⟨hl, ht⟩
  · exact .inl (congrArg some he)
  · exact .inr ⟨hl, r'.state, ht, rfl⟩

/-- Only an admin takes a report back. -/
theorem Stopped.exec (h : Stopped d ri) (hrun : (exec now call).run d = .ok (a, d'))
    (hl : call.leaves .needsHuman = false) : Stopped d' ri := by
  obtain ⟨s, hs, hstop⟩ := h
  rcases reportState_exec hrun hs with he | ⟨hleaves, s', ht, -⟩
  · exact ⟨s, he, hstop⟩
  · rcases hstop with rfl | hterm
    · rw [hl] at hleaves
      cases hleaves
    · rw [SecurityReportState.not_canTransitionTo hterm] at ht
      cases ht

theorem open_exec {s : SecurityReportState} (hopen : s = .replying ∨ s = .tracking)
    (hrun : (exec now call).run d = .ok (a, d')) (hs : d.reportState ri = some s) :
    d'.reportState ri = some s ∨ Stopped d' ri := by
  refine (reportState_exec hrun hs).imp (fun h => h) ?_
  rintro ⟨-, s', ht, hs'⟩
  refine ⟨s', hs', ?_⟩
  rcases hopen with rfl | rfl <;> cases s' <;> first | exact .inl rfl | exact .inr rfl | cases ht

/-- The attempt a sender counts is the one the ledger counts, and it knows the state of the report. -/
structure Exact (d : Inbox) (g : View) (c : Claim) : Prop where
  attempt : c.attempt = c.number
  state : ∀ p ∈ g.reports, p.1 = c.reportId → (p.2.state = .replying ∨ p.2.state = .tracking) ∧
    (d.reportState c.reportId = some p.2.state ∨ Stopped d c.reportId)

theorem Exact.exec {c : Claim} (h : Exact d g c) (hrun : (exec now call).run d = .ok (a, d'))
    (hl : call.leaves .needsHuman = false) : Exact d' g c := by
  refine ⟨h.attempt, fun p hp hc => ?_⟩
  obtain ⟨hopen, hs⟩ := h.state p hp hc
  refine ⟨hopen, ?_⟩
  rcases hs with hs | hs
  · exact open_exec hopen hrun hs
  · exact .inr (hs.exec hrun hl)

structure Resending (d : Inbox) (n : Nat → View) : Prop where
  held : Held d n
  bounded : ∀ ri k, d.attempts ri k ≤ MAX_REPLY_ATTEMPTS
  exhausted : ∀ ri k r, d.reply ri k = some r → r.status = .failed → MAX_REPLY_ATTEMPTS ≤ r.attempts →
    Stopped d ri
  last : ∀ t, ∀ c ∈ (n t).claim, MAX_REPLY_ATTEMPTS ≤ c.number → Exact d (n t) c

/-- A thread looks at something, or gives up its claim. -/
theorem Resending.note (h : Resending d n) (hg : ∀ c ∈ g.claim, c ∈ (n t).claim)
    (hr : g.claim.isSome = true → g.reports = (n t).reports) :
    Resending d (Function.update n t g) := by
  refine ⟨h.held.note hg, h.bounded, h.exhausted, fun u c hc hn => ?_⟩
  by_cases hu : u = t
  · subst hu
    rw [Function.update_self] at hc ⊢
    have hexact := h.last u c (hg c hc) hn
    refine ⟨hexact.attempt, fun p hp => hexact.state p ?_⟩
    rwa [← hr (Option.isSome_iff_exists.mpr ⟨c, hc⟩)]
  · rw [Function.update_of_ne hu] at hc ⊢
    exact h.last u c hc hn

/-- A call that claims no reply and takes back no report. -/
theorem Resending.write (h : Resending d n) (hrun : (exec now call).run d = .ok (a, d'))
    (hl : call.leaves .needsHuman = false) (hc : call.target.isClaim = false) (hd' : Held d' n)
    (hfailed : ∀ ri k r', d'.reply ri k = some r' → r'.status = .failed →
      MAX_REPLY_ATTEMPTS ≤ r'.attempts → d.reply ri k = some r' ∨ Stopped d' ri) :
    Resending d' n where
  held := hd'
  bounded ri k := by
    rw [attempts_within hc (exec_within call hrun)]
    exact h.bounded ri k
  exhausted ri k r' hr' hs hn := by
    rcases hfailed ri k r' hr' hs hn with hr | hstop
    · exact (h.exhausted ri k r' hr hs hn).exec hrun hl
    · exact hstop
  last t c hcl hn := (h.last t c hcl hn).exec hrun hl

/-- A failed reply is claimed again while its report is still open, so it has an attempt left. -/
theorem Resending.left (h : Resending d n) {r : SecurityReply} (hr : d.reply ri k = some r)
    (hs : r.status = .failed) (hfresh : Fresh d g now ri k r) : r.attempts < MAX_REPLY_ATTEMPTS := by
  by_contra hn
  obtain ⟨s, hstate, hstop⟩ := h.exhausted ri k r hr hs (Nat.le_of_not_lt hn)
  obtain ⟨s', hs', hopen, -⟩ := hfresh.state
  cases Option.mem_unique hstate hs'
  rcases hopen with rfl | rfl <;> rcases hstop with hstop | hstop <;> cases hstop

theorem Resending.claim (h : Resending d n) {event : NewSecurityEvent} (hg : (n t).claim = none)
    (hrun : (exec now (.claimReply ri k event)).run d = .ok (true, d'))
    (hfresh : ∀ r ∈ d.reply ri k, r.status = .failed → Fresh d (n t) now ri k r) :
    Resending d' (Function.update n t ((n t).claimed ri k d')) := by
  obtain ⟨hfailed, ⟨r', hr', hsending, -, hcount⟩, hother⟩ := claimSecurityReply_reply hrun
  have hattempts (rj : Nat) (kj : SecurityReplyKind) : d'.attempts rj kj =
      d.attempts rj kj + if (rj = ri ∧ kj = k) ∧ true = true then 1 else 0 :=
    claimSecurityReply_attempts hrun
  have hd' := (h.held.claim (unique_within (exec_within _ hrun) h.held.unique) hg hrun).2
  refine ⟨hd', fun rj kj => ?_, fun rj kj q hq hs hn => ?_, fun u c hc hn => ?_⟩
  · rw [hattempts]
    by_cases hk : rj = ri ∧ kj = k
    · obtain ⟨rfl, rfl⟩ := hk
      rw [if_pos ⟨⟨rfl, rfl⟩, rfl⟩]
      cases hr : d.reply rj kj with
      | none =>
        rw [Inbox.attempts, hr]
        decide
      | some r =>
        have hlt := h.left hr (hfailed r hr) (hfresh r hr (hfailed r hr))
        rw [Inbox.attempts, hr]
        exact hlt
    · rw [if_neg fun h => hk h.1]
      exact h.bounded rj kj
  · by_cases hk : rj = ri ∧ kj = k
    · obtain ⟨rfl, rfl⟩ := hk
      cases hq.symm.trans hr'
      rw [hsending] at hs
      cases hs
    · rw [hother rj kj hk] at hq
      exact (h.exhausted rj kj q hq hs hn).exec hrun rfl
  · by_cases hu : u = t
    · subst hu
      rw [Function.update_self] at hc ⊢
      cases hc
      have hnum : d'.attempts ri k = d.attempts ri k + 1 := by
        rw [hattempts, if_pos ⟨⟨rfl, rfl⟩, rfl⟩]
      cases hr : d.reply ri k with
      | none =>
        dsimp only at hn
        rw [hnum, Inbox.attempts, hr] at hn
        exact absurd hn (by decide)
      | some r =>
        obtain ⟨hentry, ⟨s, hs, hopen, hread⟩, -⟩ := hfresh r hr (hfailed r hr)
        refine ⟨?_, fun p hp hpr => ?_⟩
        · dsimp only
          rw [hentry, hnum, Inbox.attempts, hr]
        · rw [hread p hp hpr]
          exact ⟨hopen, open_exec hopen hrun hs⟩
    · rw [Function.update_of_ne hu] at hc ⊢
      exact (h.last u c hc hn).exec hrun rfl

theorem escalation_eq {r : SecurityReport} {attempt : Nat}
    (hopen : r.state = .replying ∨ r.state = .tracking) (hn : MAX_REPLY_ATTEMPTS ≤ attempt) :
    SecurityInbox.escalation r attempt = some ⟨r.state, .needsHuman⟩ := by
  unfold SecurityInbox.escalation
  refine if_pos (Bool.and_eq_true_iff.mpr ⟨decide_eq_true hn, ?_⟩)
  rcases hopen with he | he <;> rw [ReportTransition.isAllowed, he] <;> rfl

theorem reportState_moved {s m : SecurityReportState} {changes : SecurityReportChanges}
    (h : ∃ r, d.reports.get ri = some r ∧ r.state = s) :
    (d.moved ri s m changes now).reportState ri = some m := by
  obtain ⟨r, hr, hs⟩ := h
  unfold Inbox.reportState Inbox.moved
  rw [Table.get_update_of hr (inState_iff.mpr ⟨rfl, hs⟩)]
  rfl

theorem Stopped.not_open (h : Stopped d ri) {s : SecurityReportState} (hs : d.reportState ri = some s) :
    ¬ (s = .replying ∨ s = .tracking) := by
  obtain ⟨s', hs', hstop⟩ := h
  cases Option.mem_unique hs hs'
  rintro (rfl | rfl) <;> rcases hstop with hstop | hstop <;> cases hstop

/-- The last rejection, by a sender that knows it is the last. -/
theorem Resending.rejected (h : Resending d n) {error : Option String} {event : NewSecurityEvent}
    {tr : Option ReportTransition} {b : Bool} (hok : (n t).MayComplete ri k .failed tr)
    (hrun : (exec now (.completeReply ri k .failed error event tr)).run d = .ok (b, d'))
    (hn : MAX_REPLY_ATTEMPTS ≤ d.attempts ri k) :
    Stopped d' ri ∧ ∀ s, d.reportState ri = some s → s = .replying ∨ s = .tracking →
      d'.reportState ri = some .needsHuman := by
  obtain ⟨c, hc, ⟨rfl, rfl⟩, r, hr, hri, rfl⟩ := hok
  obtain ⟨q, hq, -, hnum⟩ := h.held.row t c hc
  rw [Inbox.attempts, hq, Option.map_some, Option.getD_some, hnum] at hn
  have hexact := h.last t c hc hn
  obtain ⟨hopen, hstate⟩ := hexact.state r hr hri
  rw [escalation_eq hopen (hexact.attempt ▸ hn)] at hrun
  obtain ⟨-, -, d₁, hd₁, rfl⟩ := completeSecurityReply_ok hrun
  rcases hd₁ with ⟨-, rfl, hrefused⟩ | ⟨-, tr, htr, -, hin, rfl⟩
  · have hnot : ¬ d.reportState c.reportId = some r.2.state := by
      intro hs
      obtain ⟨x, hx, hxs⟩ := Option.map_eq_some_iff.mp hs
      have hany := hrefused _ rfl (by rcases hopen with he | he <;> rw [he] <;> rfl)
      rw [any_inState.mpr ⟨x, hx, hxs⟩] at hany
      cases hany
    have hstop := hstate.resolve_left hnot
    refine ⟨hstop.exec hrun ?_, fun s hs ho => absurd ho (hstop.not_open hs)⟩
    rcases hopen with he | he <;> rw [he] <;> rfl
  · cases htr
    have hmoved : ((d.finished c.reportId c.kind .sending .failed error (timestamp now)).moved
        c.reportId _ .needsHuman {} (timestamp now)).reportState c.reportId = some .needsHuman :=
      reportState_moved hin
    exact ⟨⟨_, hmoved, .inl rfl⟩, fun _ _ _ => hmoved⟩

/-- A sender takes back no report. -/
theorem ok_leaves (hok : g.Ok inbox (.store call)) : call.leaves .needsHuman = false := by
  have hcompletion {tr : ReportTransition} (h : View.IsCompletion tr) : tr.fromState ≠ .needsHuman := by
    rcases h with rfl | rfl <;> decide
  cases call with
  | transitionReport id s m changes event => exact decide_eq_false (hcompletion hok.1)
  | completeReply ri k s error event tr =>
    rw [Call.leaves, Option.any_eq_false]
    intro x hx
    rw [decide_eq_false_iff_not]
    cases s with
    | sending => cases hok
    | sent => exact hcompletion (hok.2 x hx)
    | failed =>
      obtain ⟨c, -, -, r, -, -, rfl⟩ := hok
      simp only [SecurityInbox.escalation] at hx
      split at hx
      · next ha =>
        cases hx
        intro he
        have hallowed := (Bool.and_eq_true_iff.mp ha).2
        rw [ReportTransition.isAllowed, show r.2.state = .needsHuman from he] at hallowed
        cases hallowed
      · cases hx
    | unconfirmed =>
      rw [hok.1] at hx
      cases hx
  | releaseStale => cases hok
  | _ => rfl

theorem reply_completed {rj : Nat} {kj : SecurityReplyKind} {s : DeliveryStatus}
    {error : Option String} {event : NewSecurityEvent} {tr : Option ReportTransition} {b : Bool}
    (hrun : (exec now (.completeReply ri k s error event tr)).run d = .ok (b, d')) :
    d'.reply rj kj = (d.finished ri k .sending s error (timestamp now)).reply rj kj := by
  obtain ⟨-, -, d₁, hd₁, rfl⟩ := completeSecurityReply_ok hrun
  rcases hd₁ with ⟨-, rfl, -⟩ | ⟨-, tr, -, -, -, rfl⟩ <;> rfl

/-- A call of a sender. -/
theorem Resending.answered (h : Resending d n) {β : Type} {c : Req β} {env : Env} (hok : (n t).Ok inbox c)
    {p : β → Prog Req Unit}
    (hfresh : ∀ ri k, claiming (.call c p) = some (ri, k) →
      ∀ r ∈ d.reply ri k, r.status = .failed → Fresh d (n t) env.now ri k r) :
    let r := Req.answer env c d
    Resending r.2 (Function.update n t ((n t).next c r.1 r.2)) := by
  have hheld : Held (Req.answer env c d).2
      (Function.update n t ((n t).next c (Req.answer env c d).1 (Req.answer env c d).2)) :=
    h.held.call hok
  cases c with
  | store call =>
    rcases answer_store env call d with ⟨e, he⟩ | ⟨a, d', hrun, he⟩
    · rw [he]
      cases call with
      | completeReply => exact h.note (fun _ hc => by cases hc) fun hs => by cases hs
      | _ => exact h.note (fun _ h => h) fun _ => rfl
    · rw [he] at hheld ⊢
      have hother (hc : call.target.isReply = false) : Resending d' n := by
        have hreplies := replies_within hc (exec_within call hrun)
        refine h.write hrun (ok_leaves hok) ?_ (h.held.replies hreplies) fun ri k r' hr' _ _ => .inl ?_
        · cases htarget : call.target with
          | claim => rw [htarget] at hc; cases hc
          | _ => rfl
        · rwa [Inbox.reply, hreplies] at hr'
      cases call with
      | claimReply ri k event =>
        cases a with
        | true => exact h.claim hok.1 hrun (hfresh ri k rfl)
        | false =>
          rcases claimSecurityReply_ok hrun with ⟨-, rfl, -⟩ | ⟨hb, -⟩
          · exact h.note (fun _ h => h) fun _ => rfl
          · cases hb
      | completeReply ri k s error event tr =>
        have hnone : Resending d (Function.update n t { n t with claim := none }) :=
          h.note (fun _ hc => by cases hc) fun hs => by cases hs
        refine hnone.write hrun (ok_leaves hok) rfl hheld fun rj kj r' hr' hs hn => ?_
        rw [reply_completed hrun, reply_finished] at hr'
        obtain ⟨r, hr, rfl⟩ := Option.map_eq_some_iff.mp hr'
        split at hs
        · next hk =>
          obtain ⟨⟨rfl, rfl⟩, hsending⟩ := hk
          cases hs
          refine .inr (h.rejected hok hrun ?_).1
          rw [if_pos ⟨⟨rfl, rfl⟩, hsending⟩] at hn
          rw [Inbox.attempts, hr]
          exact hn
        · next hk =>
          rw [if_neg hk]
          exact .inl hr
      | transitionReport | recordEvent | prepareAward | updateAward =>
        exact (hother rfl).note (fun _ h => h) fun _ => rfl
      | _ => cases hok
  | query q =>
    have hd : (Req.answer env (.query q) d).2 = d := by
      simp only [Req.answer]
      cases env.error <;> rfl
    dsimp only
    rw [hd]
    refine h.note (fun c hc => ?_) fun hsome => ?_
    · rwa [next_query_claim] at hc
    · rw [next_query_claim] at hsome
      have hclaim : (n t).claim ≠ none := fun hn => by rw [hn] at hsome; cases hsome
      cases hr : (Req.answer env (.query q) d).1 with
      | error e => cases q <;> rfl
      | ok a =>
        cases q with
        | report id => exact absurd hok hclaim
        | reports state => exact absurd hok hclaim
        | award vi => exact sawAward_claim.2
        | _ => rfl
  | _ => exact h.note (fun _ h => h) fun _ => rfl

theorem Resending.outside (h : Resending d n) {o : Outside} (ho : isAdmin o.op.call = false) :
    Resending (Security.step d o.op) n := by
  obtain ⟨⟨now, call⟩, hout⟩ := o
  unfold Security.step
  cases hrun : (exec now call).run d with
  | error e =>
    rw [commit_error hrun]
    exact h
  | ok r =>
    obtain ⟨a, d'⟩ := r
    rw [commit_ok hrun]
    have hother (hc : call.target.isReply = false) (hclaim : call.target.isClaim = false)
        (hl : call.leaves .needsHuman = false) : Resending d' n := by
      have hreplies := replies_within hc (exec_within call hrun)
      refine h.write hrun hl hclaim (h.held.replies hreplies) fun ri k r' hr' _ _ => .inl ?_
      rwa [Inbox.reply, hreplies] at hr'
    cases call with
    | claimReply => cases hout
    | completeReply => cases hout
    | confirmReply => cases ho
    | transitionReport id s m changes event => exact hother rfl rfl ho
    | _ => exact hother rfl rfl rfl

/-! ## The waits -/

/-- A retry that is due has waited for its backoff, when it is looked at with a clock that is not
ahead. -/
theorem retryDue_spec {r : SecurityReply} {backoff : Nat} {c : DateTime}
    (h : retryDue r (timeDelta backoff) c = true) (hc : c ≤ now) (hr : r.claimedAt.Representable)
    (hpos : 1 ≤ r.attempts) (hle : r.attempts ≤ MAX_REPLY_ATTEMPTS) :
    r.claimedAt.toNanos + backoff * r.attempts ≤ now.toNanos := by
  have hdelta : timeDelta backoff ≤ backoff ∧ 0 ≤ timeDelta backoff ∧
      (timeDelta backoff = backoff ∨ timeDelta backoff = TIME_DELTA_MAX) ∧
      timeDelta backoff ≤ 9223372036854775807000000 := by
    unfold timeDelta TIME_DELTA_MAX
    omega
  have hmul : checkedMul (timeDelta backoff) (min r.attempts 2147483647) =
      some (timeDelta backoff * r.attempts) := by
    have hthree : r.attempts = 1 ∨ r.attempts = 2 ∨ r.attempts = 3 := by
      unfold MAX_REPLY_ATTEMPTS at hle
      omega
    rw [show min (r.attempts : Int) 2147483647 = r.attempts by omega]
    unfold checkedMul NANOS_PER_SEC
    rcases hthree with he | he | he <;> rw [he] <;> exact if_pos (by omega)
  simp only [retryDue, hmul, Option.getD_some] at h
  cases hdue : r.claimedAt.checkedAdd (timeDelta backoff * r.attempts) with
  | none =>
    rw [hdue] at h
    cases h
  | some due =>
    rw [hdue] at h
    obtain ⟨hnow, hmax⟩ := checkedAdd_le hdue ((of_decide_eq_true h).trans hc)
    rcases hdelta.2.2.1 with he | he
    · rwa [he] at hnow
    · -- a backoff that `chrono` cannot hold is never over
      have hmin : MIN_SECS = -8334601228800 := by decide
      have hend : MAX_SECS = 8210266876800 := by decide
      have hone : TIME_DELTA_MAX * 1 ≤ TIME_DELTA_MAX * r.attempts :=
        Int.mul_le_mul_of_nonneg_left (by omega) (by decide)
      have hclaimed := hr.1
      rw [he] at hmax
      unfold toNanos at hmax
      unfold TIME_DELTA_MAX NANOS_PER_SEC at *
      omega

/-- What a run has claimed of a reply. -/
structure Recorded (inbox : SecurityInbox) (ri : Nat) (k : SecurityReplyKind) (d : Inbox)
    (claims : List DateTime) : Prop where
  last : d.lastClaim ri k = claims.getLast?.map fun a => (claims.length, timestamp a)
  times : ∀ a ∈ claims, a.Representable
  spaced : Spaced inbox.replyRetryBackoff claims

theorem Spaced.concat {backoff : Nat} {claims : List DateTime} {b : DateTime} (h : Spaced backoff claims)
    (hb : ∀ a, claims.getLast? = some a →
      (timestamp a).toNanos + backoff * claims.length ≤ b.toNanos) : Spaced backoff (claims ++ [b]) := by
  intro i x y hx hy
  have hi : i + 1 < (claims ++ [b]).length := (List.getElem?_eq_some_iff.mp hy).1
  rw [List.length_append, List.length_singleton] at hi
  rw [List.getElem?_append_left (by omega)] at hx
  by_cases hlast : i + 1 < claims.length
  · rw [List.getElem?_append_left hlast] at hy
    exact h i x y hx hy
  · have hlen : i + 1 = claims.length := by omega
    rw [hlen, List.getElem?_concat_length] at hy
    cases hy
    rw [hlen]
    refine hb x ?_
    rw [List.getLast?_eq_getElem?, ← hlen]
    exact hx

theorem Recorded.attempts {claims : List DateTime} (h : Recorded inbox ri k d claims) :
    d.attempts ri k = claims.length := by
  rw [attempts_eq, h.last]
  cases hl : claims.getLast? with
  | none =>
    rw [List.getLast?_eq_none_iff.mp hl]
    rfl
  | some a => rfl

theorem Recorded.claim {claims : List DateTime} (hrec : Recorded inbox ri k d claims)
    (h : Resending d n) {event : NewSecurityEvent} (hdue : (n t).Due inbox ri k)
    (hrun : (claimSecurityReply now ri k event).run d = .ok (true, d')) (hnow : now.Representable)
    (hfresh : ∀ r ∈ d.reply ri k, r.status = .failed → Fresh d (n t) now ri k r) :
    Recorded inbox ri k d' (claims ++ [now]) := by
  obtain ⟨hfailed, ⟨r', hr', -, hclaimed, hcount⟩, -⟩ := claimSecurityReply_reply hrun
  refine ⟨?_, fun a ha => ?_, hrec.spaced.concat fun a ha => ?_⟩
  · rw [Inbox.lastClaim, hr', Option.map_some, hclaimed, hcount, hrec.attempts, List.getLast?_concat,
      List.length_append]
    rfl
  · rcases List.mem_append.mp ha with ha | ha
    · exact hrec.times a ha
    · cases List.mem_singleton.mp ha
      exact hnow
  · have hlast := hrec.last
    rw [ha] at hlast
    obtain ⟨r, hr, he⟩ := Option.map_eq_some_iff.mp hlast
    obtain ⟨hattempts, hclaimedAt⟩ := Prod.ext_iff.mp he
    dsimp only at hattempts hclaimedAt
    obtain ⟨hentry, -, hclock⟩ := hfresh r hr (hfailed r hr)
    obtain ⟨-, c, hc, hnot⟩ := hdue
    have hretry : retryDue r (timeDelta inbox.replyRetryBackoff) c = true := by
      rw [hentry] at hnot
      have hor := Bool.or_eq_false_iff.mp hnot
      simpa using hor.2
    have hpos : 1 ≤ r.attempts := by
      rw [hattempts]
      exact List.length_pos_of_mem (List.mem_of_getLast? ha)
    have hle : r.attempts ≤ MAX_REPLY_ATTEMPTS := by
      rw [hattempts, ← hrec.attempts]
      exact h.bounded ri k
    rw [← hclaimedAt, ← hattempts]
    refine retryDue_spec hretry (hclock c hc) ?_ hpos hle
    rw [hclaimedAt]
    exact hrec.times a (List.mem_of_getLast? ha)

theorem Recorded.answered {claims : List DateTime} (hrec : Recorded inbox ri k d claims)
    (h : Resending d n) {β : Type} {c : Req β} {env : Env} (hok : (n t).Ok inbox c)
    {p : β → Prog Req Unit} (hnow : env.now.Representable)
    (hfresh : ∀ ri k, claiming (.call c p) = some (ri, k) →
      ∀ r ∈ d.reply ri k, r.status = .failed → Fresh d (n t) env.now ri k r) :
    let r := Req.answer env c d
    Recorded inbox ri k r.2
      (claims ++ (if handedOut c r.1 = some (ri, k) then some env.now else none).toList) := by
  have hsame {d' : Inbox} (he : d'.lastClaim ri k = d.lastClaim ri k) :
      Recorded inbox ri k d' (claims ++ []) := by
    rw [List.append_nil]
    exact ⟨he.trans hrec.last, hrec.times, hrec.spaced⟩
  cases c with
  | store call =>
    rcases answer_store env call d with ⟨e, he⟩ | ⟨a, d', hrun, he⟩
    · rw [he]
      have hnone : handedOut (.store call) (.error e : Except Error _) = none := by cases call <;> rfl
      dsimp only
      rw [hnone]
      exact hsame rfl
    · rw [he]
      dsimp only
      have hother (hc : call.target.isClaim = false) (hnone : handedOut (.store call) (.ok a) = none) :
          Recorded inbox ri k d' (claims ++
            (if handedOut (.store call) (.ok a) = some (ri, k) then some env.now else none).toList) := by
        rw [hnone]
        exact hsame (lastClaim_within hc (exec_within call hrun))
      cases call with
      | claimReply rj kj event =>
        cases a with
        | true =>
          by_cases hk : rj = ri ∧ kj = k
          · obtain ⟨rfl, rfl⟩ := hk
            rw [show handedOut _ _ = some (rj, kj) from rfl, if_pos rfl]
            exact hrec.claim h hok.2.2.1 hrun hnow (hfresh rj kj rfl)
          · rw [show handedOut _ _ = some (rj, kj) from rfl, if_neg fun he => hk (by cases he; exact ⟨rfl, rfl⟩)]
            refine hsame ?_
            rw [Inbox.lastClaim, (claimSecurityReply_reply hrun).2.2 ri k fun he => hk ⟨he.1.symm, he.2.symm⟩]
            rfl
        | false =>
          rcases claimSecurityReply_ok hrun with ⟨-, rfl, -⟩ | ⟨hb, -⟩
          · exact hsame rfl
          · cases hb
      | _ => exact hother rfl rfl
  | query q =>
    simp only [Req.answer]
    cases env.error with
    | some e => exact hsame rfl
    | none => exact hsame rfl
  | _ => exact hsame rfl

/-! ## Runs -/

theorem resending_step {w : World Req Inbox View} {move : Move Env Job Outside}
    (hw : Pool.Sound watch (View.Ok inbox) Resending w) (hc : ResentFresh w move) :
    Pool.Sound watch (View.Ok inbox) Resending ((senders inbox).step watch w move) := by
  refine hw.step move program_follows (fun s n t hn => hn.note nofun nofun)
    (fun _ _ _ => hw.inv.note nofun nofun) (fun t env β c p hm hp hok => ?_) fun op hop => ?_
  · subst hm
    refine hw.inv.answered (p := p) hok fun ri k hk => hc.2 ri k ?_
    rw [hp]
    exact hk
  · subst hop
    exact hw.inv.outside hc

theorem recorded_step {w : World Req Inbox View} {move : Move Env Job Outside}
    {claims : List DateTime} (hw : Pool.Sound watch (View.Ok inbox) Resending w)
    (hrec : Recorded inbox ri k w.shared claims) (hc : ResentFresh w move) :
    Recorded inbox ri k ((senders inbox).step watch w move).shared
      (claims ++ (claimAt inbox ri k w move).toList) := by
  have hsame : Recorded inbox ri k w.shared (claims ++ []) := by
    rwa [List.append_nil]
  cases move with
  | start t job =>
    simp only [Pool.step]
    cases w.prog t <;> exact hsame
  | go t env =>
    cases hp : w.prog t with
    | ret b =>
      simp only [Pool.step, claimAt, Pool.observe, hp]
      exact hsame
    | call c p =>
      have hanswered := hrec.answered (p := p) hw.inv (hw.call_ok hp) hc.1 fun ri k hk =>
        hc.2 ri k (by rwa [hp])
      have hclaim : claimAt inbox ri k w (.go t env) =
          if handedOut c (Req.answer env c w.shared).1 = some (ri, k) then some env.now else none := by
        have hmap : (handedOut c (Req.answer env c w.shared).1).map (t, ·) = some (t, (ri, k)) ↔
            handedOut c (Req.answer env c w.shared).1 = some (ri, k) := by simp
        simp only [claimAt, Pool.observe, hp, senders, hmap]
      rw [hclaim]
      simp only [Pool.step, hp]
      exact hanswered
  | stop t => exact hsame
  | outside o =>
    have hlast : (Security.step w.shared o.op).lastClaim ri k = w.shared.lastClaim ri k := by
      obtain ⟨⟨now, call⟩, hout⟩ := o
      unfold Security.step
      cases hrun : (exec now call).run w.shared with
      | error e => rw [commit_error hrun]
      | ok r =>
        obtain ⟨a, after⟩ := r
        rw [commit_ok hrun]
        refine lastClaim_within ?_ (exec_within call hrun)
        cases call with
        | claimReply => cases hout
        | _ => rfl
    exact ⟨hlast.trans hsame.last, hsame.times, hsame.spaced⟩

theorem resending_initial : Resending .empty fun _ => watch.idle where
  held := held_initial
  bounded ri k := Nat.zero_le _
  exhausted ri k r hr := by cases hr
  last t c hc := by cases hc

theorem handsOver_of_sound {w : World Req Inbox View} {move : Move Env Job Outside}
    (hw : Pool.Sound watch (View.Ok inbox) Resending w) : HandsOver inbox w move := by
  intro t ri k ho hn s hs hopen
  obtain ⟨env, β, c, p, rfl, hp, hc⟩ := Pool.observe_eq_some ho
  have hok := hw.call_ok hp
  have hshared : ((senders inbox).step watch w (.go t env)).shared = (Req.answer env c w.shared).2 := by
    simp only [Pool.step, hp]
    rfl
  rw [hshared]
  replace hc : completed c (Req.answer env c w.shared).1 = some ((ri, k), .failed) := hc
  cases c with
  | store call =>
    rcases answer_store env call w.shared with ⟨e, he⟩ | ⟨a, d', hrun, he⟩
    · rw [he] at hc
      cases call <;> cases hc
    · rw [he] at hc ⊢
      cases call with
      | completeReply rj kj s' error event tr =>
        cases hc
        exact (hw.inv.rejected hok hrun hn.ge).2 s hs hopen
      | claimReply => cases a <;> cases hc
      | _ => cases hc
  | _ => cases hc

/-- In every run in which no admin acts and a failed reply is claimed by senders whose reads are still
true, a reply is claimed at most `MAX_REPLY_ATTEMPTS` times, each claim waits for its backoff, and the
last rejection hands a report that is replying or tracking to an admin. -/
theorem resending_bounded (inbox : SecurityInbox) (l : List (Move Env Job Outside))
    (h : Along ((senders inbox).step watch) ResentFresh (Pool.initial watch .empty) l) :
    (∀ ri k, (claimsOf inbox ri k l).length ≤ MAX_REPLY_ATTEMPTS ∧
      Spaced inbox.replyRetryBackoff (claimsOf inbox ri k l)) ∧
    Along ((senders inbox).step watch) (HandsOver inbox) (Pool.initial watch .empty) l := by
  have hinitial : Pool.Sound watch (View.Ok inbox) Resending (Pool.initial watch .empty) :=
    ⟨resending_initial, fun _ => trivial⟩
  constructor
  · intro ri k
    have hnone : Recorded inbox ri k Inbox.empty [] := by
      refine ⟨rfl, nofun, fun i a b ha => ?_⟩
      cases ha
    obtain ⟨hsound, hrec⟩ := h.seen (f := claimAt inbox ri k)
      (P := fun w claims => Pool.Sound watch (View.Ok inbox) Resending w ∧
        Recorded inbox ri k w.shared claims)
      (fun w claims move hw hc => ⟨resending_step hw.1 hc, recorded_step hw.1 hw.2 hc⟩)
      ⟨hinitial, hnone⟩
    rw [List.nil_append] at hrec
    exact ⟨hrec.attempts ▸ hsound.inv.bounded ri k, hrec.spaced⟩
  · exact h.along (fun w move hw hc => resending_step hw hc) (fun w move hw _ => handsOver_of_sound hw) hinitial

/-- The time `n` minutes after nine o'clock. -/
def minute (n : Nat) : DateTime := .ofNanos (1793782800000000000 + 60000000000 * n)

def minuteBackoff : SecurityInbox := { inboxWithout 0 with replyRetryBackoff := 60000000000 }

/-- A sender looks after the reply at a minute, and GitHub rejects what it sends. -/
def rejectedAt (n : Nat) : List (Move Env Job Outside) :=
  .start 0 (.replyWithOutcome 1) :: List.replicate 9 (.go 0 { now := minute n, reply := .rejected "" })

def fourSenders : List (Move Env Job Outside) :=
  oneReplying ++ rejectedAt 0 ++ rejectedAt 1 ++ rejectedAt 2 ++ rejectedAt 3

/-- The sender of the third minute waits for the backoff, and the last rejection goes to an admin. -/
example : claimsOf minuteBackoff 1 .notReproducible fourSenders = [minute 0, minute 1, minute 3] ∧
    (run ((senders minuteBackoff).step watch) (Pool.initial watch .empty) fourSenders).shared.reportState 1 =
      some .needsHuman := by
  decide +kernel

theorem resending_bounded_one :
    ((claimsOf minuteBackoff 1 .notReproducible fourSenders).length ≤ MAX_REPLY_ATTEMPTS ∧
      Spaced 60000000000 (claimsOf minuteBackoff 1 .notReproducible fourSenders)) ∧
    Along ((senders minuteBackoff).step watch) (HandsOver minuteBackoff) (Pool.initial watch .empty)
      fourSenders := by
  have h := resending_bounded minuteBackoff fourSenders (by decide +kernel)
  exact ⟨h.1 1 .notReproducible, h.2⟩

/-- Thread 1 reads the report, thread 0 has its reply rejected three times, and thread 1 goes on. -/
def staleSender : List (Move Env Job Outside) :=
  oneReplying ++ .start 1 (.replyWithOutcome 1) :: goes 1 1 .sent ++
    (claims 0 ++ goes 0 4 (.rejected "")) ++ (claims 0 ++ goes 0 4 (.rejected "")) ++
    (claims 0 ++ goes 0 4 (.rejected "")) ++ goes 1 4 .sent

theorem resending_unbounded :
    (claimsOf (inboxWithout 0) 1 .notReproducible staleSender).length = 4 := by
  decide +kernel

end Claudear.Engine.Security
