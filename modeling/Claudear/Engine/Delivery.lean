import Claudear.Engine.Lifecycle
import Claudear.Storage.ReplyLedger

/-!
# Senders and the ledger

Any number of sweeps and of replies after an assessment run at once, each making
its calls one by one, while others use the store and any of them may stop in the
middle. `View` is what a run has seen that its next call may depend on, and
`View.Ok` says of each call what it follows from. `program_follows`: the programs
make no other calls.
-/

namespace Claudear.Engine.Security

open Claudear.Core Claudear.Core.DateTime Claudear.Sql Claudear.Sql.Tx Claudear.Machine
  Claudear.Storage Claudear.Storage.Security

/-! ## Calls and jobs -/

/-- What the world decides about a call: the time, a failure of the store, and the answers from
outside. -/
structure Env where
  now : DateTime
  error : Option Error := none
  reply : ReporterReply := .sent
  verdict : Except Error String := .ok NO_DUPLICATE_CHOICE
  similar : List Nat := []

/-- A transaction at the time `now`; one that fails changes nothing. -/
def transact (now : DateTime) {α : Type} (call : Call α) (d : Inbox) : Except Error α × Inbox :=
  match (exec now call).run d with
  | .ok (a, d') => (.ok a, d')
  | .error e => (.error e, d)

def Req.answer {β : Type} (env : Env) : Req β → Inbox → β × Inbox
  | .store call, d =>
    match env.error with
    | some e => (.error e, d)
    | none => transact env.now call d
  | .query q, d =>
    match env.error with
    | some e => (.error e, d)
    | none => (.ok (q.answer d), d)
  | .clock, d => (env.now, d)
  | .replyToReporter .., d => (env.reply, d)
  | .ping .., d => ((), d)
  | .securityQuery .., d => (env.verdict, d)
  | .similar .., d => (env.similar, d)

/-- A transaction that answers has run; one that fails has changed nothing. -/
theorem answer_store {α : Type} (env : Env) (call : Call α) (d : Inbox) :
    (∃ e, Req.answer env (.store call) d = (.error e, d)) ∨ ∃ a d',
      (exec env.now call).run d = .ok (a, d') ∧ Req.answer env (.store call) d = (.ok a, d') := by
  simp only [Req.answer]
  cases env.error with
  | some e => exact .inl ⟨e, rfl⟩
  | none =>
    simp only [transact]
    cases h : (exec env.now call).run d with
    | error e => exact .inl ⟨e, rfl⟩
    | ok r => exact .inr ⟨r.1, r.2, rfl, rfl⟩

inductive Job where
  | advance
  | replyWithOutcome (reportId : Nat)
  | acknowledge (reportId : Nat) (registration : Registration)

def Job.program (inbox : SecurityInbox) : Job → Prog Req Unit
  | .advance => inbox.advance
  | .replyWithOutcome reportId => do
    let _ ← record (inbox.replyWithOutcome reportId)
  | .acknowledge reportId registration => do
    let _ ← record (inbox.acknowledge reportId registration)

/-- Nobody but a sender claims or completes a reply. -/
def isOutside {α : Type} : Call α → Bool
  | .claimReply .. | .completeReply .. => false
  | _ => true

/-- A call by an admin, the intake, an assessment or the fix pipeline. -/
structure Outside where
  op : Op
  outside : isOutside op.call = true

def senders (inbox : SecurityInbox) : Pool Req Inbox Env Job Outside where
  answer := Req.answer
  program := Job.program inbox
  outside d o := Security.step d o.op

/-! ## What a run has seen -/

/-- A claim that has not been completed. -/
structure Claim where
  reportId : Nat
  kind : SecurityReplyKind
  /-- The attempts in the ledger when the claim was made, which tell it from other claims. -/
  number : Nat
  /-- The attempt the sender takes it for. -/
  attempt : Nat
  deriving DecidableEq

structure View where
  /-- The reports last read. -/
  reports : List (Nat × SecurityReport) := []
  /-- The replies last listed, and their report. -/
  replies : Option (Nat × List SecurityReply) := none
  clock : Option DateTime := none
  /-- The awards read that stood, by vulnerability and report. -/
  standing : List (Nat × Nat) := []
  /-- The reports a rewarded fix-live reply was listed for. -/
  rewarded : List Nat := []
  claim : Option Claim := none

namespace View

/-- The ledger entry of the reply, as it was last listed. -/
def entry (g : View) (ri : Nat) (k : SecurityReplyKind) : Option SecurityReply :=
  g.replies.bind fun r => if r.1 = ri then sharing k r.2 else none

def claimed (g : View) (ri : Nat) (k : SecurityReplyKind) (d : Inbox) : View :=
  let attempt := ((g.entry ri k).map (·.attempts)).getD 0 + 1
  { g with claim := some ⟨ri, k, d.attempts ri k, attempt⟩ }

def listed (g : View) (ri : Nat) (replies : List SecurityReply) : View :=
  let seen := replies.any fun r => r.kind = .fixLiveRewarded
  { g with replies := some (ri, replies), rewarded := if seen then ri :: g.rewarded else g.rewarded }

def sawAward (g : View) (vi : Nat) (award : Option SecurityAward) : View :=
  match award with
  | some a =>
    if a.status = .cancelled then g else { g with standing := (vi, a.reportId) :: g.standing }
  | none => g

def next {β : Type} (g : View) : Req β → β → Inbox → View
  | .store (.claimReply ri k _), .ok true, d => g.claimed ri k d
  | .store (.completeReply ..), _, _ => { g with claim := none }
  | .query (.report id), .ok r, _ => { g with reports := r.toList.map (id, ·) }
  | .query (.reports _), .ok reports, _ => { g with reports := reports }
  | .query (.replies ri), .ok replies, _ => g.listed ri replies
  | .query (.award vi), .ok award, _ => g.sawAward vi award
  | .clock, now, _ => { g with clock := some now }
  | _, _, _ => g

/-! ## What a call follows from -/

def Read (g : View) (ri : Nat) : Prop := ∃ r ∈ g.reports, r.1 = ri

/-- The listed entry has failed, and its retry is due. -/
def Due (g : View) (inbox : SecurityInbox) (ri : Nat) (k : SecurityReplyKind) : Prop :=
  (∃ l, g.replies = some (ri, l)) ∧ ∃ now, g.clock = some now ∧
    inbox.notDue (g.entry ri k) now = false

/-- A rewarded reply was seen for the report, or an award of its vulnerability that stood. -/
def SawReward (g : View) (ri : Nat) : Prop :=
  ri ∈ g.rewarded ∨ ∃ r ∈ g.reports, r.1 = ri ∧ ∃ vi ∈ r.2.vulnerabilityId, (vi, ri) ∈ g.standing

def IsCompletion (tr : ReportTransition) : Prop :=
  tr = ⟨.replying, .closed⟩ ∨ tr = ⟨.tracking, .resolved⟩

def MayComplete (g : View) (ri : Nat) (k : SecurityReplyKind) (s : DeliveryStatus)
    (tr : Option ReportTransition) : Prop :=
  match s with
  | .unconfirmed => tr = none ∧ ∀ c ∈ g.claim, c.reportId = ri ∧ c.kind = k
  | .sent => (∃ c ∈ g.claim, c.reportId = ri ∧ c.kind = k) ∧ ∀ t ∈ tr, IsCompletion t
  | .failed => ∃ c ∈ g.claim, (c.reportId = ri ∧ c.kind = k) ∧
      ∃ r ∈ g.reports, r.1 = ri ∧ tr = SecurityInbox.escalation r.2 c.attempt
  | .sending => False

def Ok (inbox : SecurityInbox) {β : Type} (g : View) : Req β → Prop
  | .store (.claimReply ri k _) =>
    g.claim = none ∧ g.Read ri ∧ g.Due inbox ri k ∧ (k = .fixLiveRewarded → g.SawReward ri)
  | .store (.completeReply ri k s _ _ tr) => g.MayComplete ri k s tr
  | .store (.transitionReport _ s n changes _) => IsCompletion ⟨s, n⟩ ∧ changes = {}
  | .store (.updateAward _ _ n _ _) => n ≠ .cancelled
  | .store (.prepareAward ..) => True
  | .store (.recordEvent ..) => True
  | .store _ => False
  | .query (.report _) => g.claim = none
  | .query (.reports _) => g.claim = none
  | .query (.replies _) => g.claim = none
  | _ => True

end View

def watch : Monitor Req Inbox Job View where
  idle := {}
  start _ := {}
  next := View.next

/-- The rest of the program makes only calls that follow from what it has seen. -/
abbrev Follows (inbox : SecurityInbox) {α : Type} (p : Prog Req α) (Q : α → View → Prop) (g : View) :
    Prop :=
  Allowed watch (View.Ok inbox) p Q g

/-! ## Rules for the calls -/

section Rules

variable {inbox : SecurityInbox} {α β : Type} {g g' g'' : View} {Q : Except Error β → View → Prop}

theorem follows_store {call : Call α} {f : α → Fallible β} (hc : g.Ok inbox (.store call))
    (hok : ∀ a s, Follows inbox (f a).run Q (g.next (.store call) (.ok a) s))
    (herr : ∀ e s, Q (.error e) (g.next (.store call) (.error e) s)) :
    Follows inbox (store call >>= f).run Q g :=
  allowed_tryPerform hc hok herr

theorem follows_query {q : Query α} {f : α → Fallible β} (hc : g.Ok inbox (.query q))
    (hok : ∀ a s, Follows inbox (f a).run Q (g.next (.query q) (.ok a) s))
    (herr : ∀ e s, Q (.error e) (g.next (.query q) (.error e) s)) :
    Follows inbox (query q >>= f).run Q g :=
  allowed_tryPerform hc hok herr

theorem follows_perform {c : Req α} {f : α → Fallible β} (hc : g.Ok inbox c)
    (hf : ∀ a s, Follows inbox (f a).run Q (g.next c a s)) :
    Follows inbox (perform c >>= f).run Q g := ⟨hc, hf⟩

theorem follows_record {p : Fallible α} {R : View → Prop} (h : Follows inbox p.run (fun _ => R) g) :
    Follows inbox (do let _ ← record p) (fun _ => R) g := by
  have hrecord : Follows inbox (record p) (fun _ => R) g := h.bind fun _ _ hg => hg
  exact hrecord.bind fun _ _ hg => hg

theorem follows_ledgerEntry {ri : Nat} {k : SecurityReplyKind} {f : Option SecurityReply → Fallible β}
    (hg : g.claim = none)
    (hok : ∀ l, Follows inbox (f (sharing k l)).run Q (g.listed ri l))
    (herr : ∀ e, Q (.error e) g) : Follows inbox (ledgerEntry ri k >>= f).run Q g := by
  refine ⟨hg, fun r s => ?_⟩
  cases r with
  | ok l => exact hok l
  | error e => exact herr e

/-! ## Between deliveries -/

/-- `g'` is a later view of a run that is between deliveries, of the same reports and awards. -/
structure Later (g g' : View) : Prop where
  claim : g'.claim = none
  reports : g'.reports = g.reports
  standing : g'.standing = g.standing
  rewarded : g.rewarded ⊆ g'.rewarded

theorem Later.refl (h : g.claim = none) : Later g g := ⟨h, rfl, rfl, fun _ h => h⟩

theorem Later.trans (h : Later g g') (h' : Later g' g'') : Later g g'' :=
  ⟨h'.claim, h'.reports.trans h.reports, h'.standing.trans h.standing,
    fun _ hi => h'.rewarded (h.rewarded hi)⟩

theorem Later.sawReward (h : Later g g') {ri : Nat} (hg : g.SawReward ri) : g'.SawReward ri := by
  unfold View.SawReward
  rw [h.reports, h.standing]
  exact hg.imp (fun hi => h.rewarded hi) id

theorem listed_rewarded {ri : Nat} {l : List SecurityReply} :
    g.rewarded ⊆ (g.listed ri l).rewarded := by
  intro j hj
  unfold View.listed
  dsimp only
  split
  · exact List.mem_cons_of_mem _ hj
  · exact hj

theorem mem_listed_rewarded {ri rj : Nat} {l : List SecurityReply}
    (h : rj ∈ (g.listed ri l).rewarded) :
    (rj = ri ∧ ∃ r ∈ l, r.kind = .fixLiveRewarded) ∨ rj ∈ g.rewarded := by
  unfold View.listed at h
  dsimp only at h
  split at h
  · next hseen =>
    obtain ⟨r, hr, hk⟩ := List.any_eq_true.mp hseen
    exact (List.mem_cons.mp h).imp (fun e => ⟨e, r, hr, of_decide_eq_true hk⟩) fun h => h
  · exact .inr h

theorem Later.listed (h : Later g g') {ri : Nat} {l : List SecurityReply} :
    Later g (g'.listed ri l) :=
  ⟨h.claim, h.reports, h.standing, fun _ hi => listed_rewarded (h.rewarded hi)⟩

/-- A rewarded reply is in the list. -/
theorem rewarded_of_listed {ri : Nat} {l : List SecurityReply} {r : SecurityReply} (hr : r ∈ l)
    (hk : r.kind = .fixLiveRewarded) : ri ∈ (g.listed ri l).rewarded := by
  have hany : (l.any fun r => r.kind = .fixLiveRewarded) = true :=
    List.any_eq_true.mpr ⟨r, hr, decide_eq_true hk⟩
  unfold View.listed
  dsimp only
  rw [hany, if_pos rfl]
  exact List.mem_cons_self

end Rules

/-! ## Sending a claimed reply -/

section Sending

variable {inbox : SecurityInbox} {g : View} {report : Nat × SecurityReport} {kind : SecurityReplyKind}

theorem follows_subjectFor {β : Type} {f : PingSubject → Fallible β} {Q : Except Error β → View → Prop}
    (hok : ∀ s, Follows inbox (f s).run Q g) (herr : ∀ e, Q (.error e) g) :
    Follows inbox (subjectFor report >>= f).run Q g := by
  unfold subjectFor
  split
  · exact hok _
  · refine ⟨trivial, fun r s => ?_⟩
    cases r with
    | ok v => exact hok _
    | error e => exact herr e

theorem follows_markUnconfirmed {error : String}
    (hc : ∀ c ∈ g.claim, c.reportId = report.1 ∧ c.kind = kind) :
    Follows inbox (SecurityInbox.markUnconfirmed report kind error).run
      (fun _ g' => g' = { g with claim := none }) g := by
  refine follows_store ⟨rfl, hc⟩ (fun _ s => ?_) fun _ _ => rfl
  exact follows_subjectFor (fun subject => ⟨trivial, fun _ _ => rfl⟩) fun _ => rfl

variable {c : Claim}

theorem follows_recordRejected {error : String} (hg : g.claim = some c) (hr : report ∈ g.reports)
    (hc : c.reportId = report.1 ∧ c.kind = kind) :
    Follows inbox (SecurityInbox.recordRejected report kind c.attempt error).run
      (fun _ g' => g' = { g with claim := none }) g := by
  refine follows_store ⟨c, hg, hc, report, hr, rfl, rfl⟩ (fun escalated s => ?_) fun _ _ => rfl
  cases escalated with
  | true => exact follows_subjectFor (fun subject => ⟨trivial, fun _ _ => rfl⟩) fun _ => rfl
  | false => exact rfl

theorem follows_recordSent {status : Option ConversationStatus}
    {completion : Option ReportTransition} (hg : g.claim = some c)
    (hc : c.reportId = report.1 ∧ c.kind = kind)
    (hcompletion : ∀ t ∈ completion, View.IsCompletion t) :
    Follows inbox (SecurityInbox.recordSent report kind status completion).run
      (fun _ g' => g' = { g with claim := none }) g := by
  refine follows_store ⟨⟨c, hg, hc⟩, hcompletion⟩ (fun _ s => ?_) fun _ _ => rfl
  by_cases hs : status = some .closed
  · rw [if_pos hs]
    exact ⟨trivial, fun r s => by cases r <;> rfl⟩
  · rw [if_neg hs]
    exact rfl

theorem follows_sendClaimed {completion : Option ReportTransition} (hg : g.claim = some c)
    (hr : report ∈ g.reports) (hc : c.reportId = report.1 ∧ c.kind = kind)
    (hcompletion : ∀ t ∈ completion, View.IsCompletion t) :
    Follows inbox (inbox.sendClaimed report kind c.attempt completion).run
      (fun _ g' => g' = { g with claim := none }) g := by
  refine follows_perform trivial fun result s => ?_
  cases result with
  | sent => exact (follows_recordSent hg hc hcompletion).tryBind (fun _ _ h => h) fun _ _ h => h
  | rejected error => exact (follows_recordRejected hg hr hc).tryBind (fun _ _ h => h) fun _ _ h => h
  | unconfirmed error =>
    have hmine : ∀ c' ∈ g.claim, c'.reportId = report.1 ∧ c'.kind = kind := by
      intro c' hc'
      rw [hg, Option.mem_some_iff] at hc'
      exact hc' ▸ hc
    exact (follows_markUnconfirmed hmine).tryBind (fun _ _ h => h) fun _ _ h => h

end Sending

/-! ## Deliveries -/

section Deliveries

variable {inbox : SecurityInbox} {g g₀ : View} {report : Nat × SecurityReport}
  {kind : SecurityReplyKind}

theorem entry_listed {ri : Nat} {l : List SecurityReply} {now : Option DateTime} :
    View.entry { g.listed ri l with clock := now } ri kind = sharing kind l := by
  show (if ri = ri then sharing kind l else none) = _
  rw [if_pos rfl]

theorem follows_deliver {completion : Option ReportTransition} (hg : Later g₀ g)
    (hr : report ∈ g.reports) (hcompletion : ∀ t ∈ completion, View.IsCompletion t)
    (hreward : kind = .fixLiveRewarded → g.SawReward report.1) :
    Follows inbox (inbox.deliver report kind completion).run (fun _ => Later g₀) g := by
  refine follows_ledgerEntry hg.claim (fun l => follows_perform trivial fun now s => ?_) fun _ => hg
  have hlater : Later g { g.listed report.1 l with clock := some now } :=
    ⟨hg.claim, rfl, rfl, listed_rewarded⟩
  show Follows inbox (ExceptT.run (if _ then _ else _)) _ { g.listed report.1 l with clock := some now }
  by_cases hdue : inbox.notDue (sharing kind l) now = true
  · rw [if_pos hdue]
    exact hg.trans hlater
  · rw [if_neg hdue]
    refine follows_store ⟨hg.claim, ⟨report, hr, rfl⟩, ⟨⟨l, rfl⟩, now, rfl, ?_⟩, fun hk =>
      hlater.sawReward (hreward hk)⟩ (fun claimed s => ?_) fun _ _ => hg.trans hlater
    · rw [entry_listed]
      exact eq_false_of_ne_true hdue
    cases claimed with
    | false => exact hg.trans hlater
    | true =>
      let attempt := ((sharing kind l).map (·.attempts)).getD 0 + 1
      have hclaim : (View.claimed { g.listed report.1 l with clock := some now } report.1 kind s).claim =
          some ⟨report.1, kind, s.attempts report.1 kind, attempt⟩ := by
        unfold View.claimed
        rw [entry_listed]
      refine (follows_sendClaimed hclaim hr ⟨rfl, rfl⟩ hcompletion).mono fun _ g' hg' => ?_
      rw [hg']
      exact hg.trans ⟨rfl, rfl, rfl, listed_rewarded⟩

/-- The kind of the entry that is sent again was listed. -/
theorem follows_ensureDelivered {completion : ReportTransition} (hg : Later g₀ g)
    (hr : report ∈ g.reports) (hcompletion : View.IsCompletion completion)
    (hreward : kind = .fixLiveRewarded → g.SawReward report.1) :
    Follows inbox (inbox.ensureDelivered report kind completion).run (fun _ => Later g₀) g := by
  refine follows_ledgerEntry hg.claim (fun l => ?_) fun _ => hg
  have hlater : Later g₀ (g.listed report.1 l) := hg.listed
  have hone : ∀ t ∈ some completion, View.IsCompletion t := by
    intro t ht
    exact Option.mem_some_iff.mp ht ▸ hcompletion
  cases hl : sharing kind l with
  | none =>
    exact follows_deliver hlater hr hone fun hk => ((Later.refl hg.claim).listed).sawReward (hreward hk)
  | some reply =>
    dsimp only
    split
    · exact follows_deliver hlater hr hone fun hk =>
        .inl (rewarded_of_listed (List.mem_of_find?_eq_some hl) hk)
    · exact follows_store ⟨hcompletion, rfl⟩ (fun _ s => hlater) fun _ _ => hlater
    · exact hlater
    · exact hlater

end Deliveries

/-! ## The programs -/

section Programs

variable {inbox : SecurityInbox} {g g₀ : View} {report : Nat × SecurityReport}

theorem follows_expireStaleSending (hg : Later g₀ g) :
    Follows inbox (inbox.expireStaleSending report).run (fun _ => Later g₀) g := by
  refine follows_perform trivial fun now s => ?_
  have hnow : Later g₀ { g with clock := some now } := ⟨hg.claim, hg.reports, hg.standing, hg.rewarded⟩
  refine follows_query (q := .replies report.1) hg.claim (fun l s => ?_) fun _ _ => hnow
  refine allowed_tryForM (fun reply _ g' hg' => ?_) hnow.listed
  split
  · have hnone : ∀ c ∈ g'.claim, c.reportId = report.1 ∧ c.kind = reply.kind := by
      rw [hg'.claim]
      exact nofun
    refine (follows_markUnconfirmed hnone).mono fun _ g'' h => ?_
    rw [h]
    exact ⟨rfl, hg'.reports, hg'.standing, hg'.rewarded⟩
  · exact hg'

theorem follows_awaitsConfirmation (hg : Later g₀ g) :
    Follows inbox (inbox.awaitsConfirmation report).run (fun _ => Later g₀) g := by
  unfold SecurityInbox.awaitsConfirmation
  split
  · refine follows_query (q := .vulnerability _) trivial (fun v s => ?_) fun _ _ => hg
    cases v with
    | none => exact hg
    | some v =>
      dsimp only
      split
      · exact hg
      · exact follows_query (q := .replies report.1) hg.claim (fun l s => hg.listed) fun _ _ => hg
  · exact hg

theorem forOutcome_ne_fixLiveRewarded {o : SecurityOutcome} {k : SecurityReplyKind}
    (h : SecurityReplyKind.forOutcome o = some k) : k ≠ .fixLiveRewarded := by
  rintro rfl
  revert h
  cases o <;> decide

theorem follows_replyWith (hg : Later g₀ g) (hr : report ∈ g.reports) :
    Follows inbox (inbox.replyWith report).run (fun _ => Later g₀) g := by
  unfold SecurityInbox.replyWith
  split
  · exact hg
  · next kind hkind =>
    obtain ⟨o, -, ho⟩ := Option.bind_eq_some_iff.mp hkind
    exact (follows_ensureDelivered hg hr (.inl rfl) fun hk =>
      absurd hk (forOutcome_ne_fixLiveRewarded ho)).tryBind (fun _ _ h => h) fun _ _ h => h

theorem follows_confirm (hg : Later g₀ g) (hr : report ∈ g.reports) :
    Follows inbox (inbox.deliver report .confirmed none).run (fun _ => Later g₀) g :=
  follows_deliver hg hr nofun nofun

theorem follows_settleReportReplies (hg : g.claim = none) (hr : report ∈ g.reports) :
    Follows inbox (inbox.settleReportReplies report).run (fun _ => Later g) g := by
  refine (follows_expireStaleSending (.refl hg)).tryBind (fun _ g' hg' => ?_) fun _ _ h => h
  have hr' : report ∈ g'.reports := hg'.reports ▸ hr
  split
  · exact follows_replyWith hg' hr'
  · refine (follows_awaitsConfirmation hg').tryBind (fun awaits g'' hg'' => ?_) fun _ _ h => h
    cases awaits with
    | true =>
      exact (follows_confirm hg'' (hg''.reports ▸ hr)).tryBind (fun _ _ h => h) fun _ _ h => h
    | false => exact hg''
  · exact hg'

theorem follows_settleReplies (hg : g.claim = none) :
    Follows inbox inbox.settleReplies (fun _ g' => g'.claim = none) g := by
  refine allowed_forM (L := fun g' : View => g'.claim = none) (fun state _ g₁ hg₁ => ?_) hg
  refine ⟨hg₁, fun r s => ?_⟩
  cases r with
  | error e => exact hg₁
  | ok reports =>
    refine (allowed_forM (L := Later { g₁ with reports := reports }) (fun report hr g₂ hg₂ => ?_)
      (.refl hg₁)).mono fun _ _ h => h.claim
    have hr₂ : report ∈ g₂.reports := hg₂.reports ▸ hr
    exact follows_record ((follows_settleReportReplies hg₂.claim hr₂).mono fun _ _ h => hg₂.trans h)

theorem follows_anyConfirmed (reports : List (Nat × SecurityReport)) :
    Follows inbox (SecurityInbox.anyConfirmed reports).run (fun _ g' => g' = g) g := by
  induction reports with
  | nil => exact rfl
  | cons report reports ih =>
    refine follows_query (q := .timeline _) trivial (fun timeline s => ?_) fun _ _ => rfl
    split
    · exact rfl
    · exact ih

theorem follows_isRewardable (v : Nat × SecurityVulnerability) :
    Follows inbox (SecurityInbox.isRewardable v).run (fun _ g' => g' = g) g := by
  unfold SecurityInbox.isRewardable
  split
  · exact rfl
  · exact follows_query (q := .reportsForVulnerability _) trivial
      (fun reports s => follows_anyConfirmed reports) fun _ _ => rfl

theorem sawReward_of_rewards {vi : Nat} {award : Option SecurityAward} (hr : report ∈ g.reports)
    (hv : report.2.vulnerabilityId = some vi) (h : SecurityInbox.rewards award report.1 = true) :
    (g.sawAward vi award).SawReward report.1 := by
  cases award with
  | none => cases h
  | some a =>
    obtain ⟨ha, hs⟩ := Bool.and_eq_true_iff.mp h
    have hstatus : ¬a.status = .cancelled := of_decide_eq_true hs
    have hsaw : g.sawAward vi (some a) = { g with standing := (vi, a.reportId) :: g.standing } :=
      if_neg hstatus
    rw [hsaw]
    exact .inr ⟨report, hr, rfl, vi, hv, of_decide_eq_true ha ▸ List.mem_cons_self⟩

theorem sawAward_claim {vi : Nat} {award : Option SecurityAward} :
    (g.sawAward vi award).claim = g.claim ∧ (g.sawAward vi award).reports = g.reports := by
  unfold View.sawAward
  split
  · split <;> exact ⟨rfl, rfl⟩
  · exact ⟨rfl, rfl⟩

/-- A run between deliveries that has read the same reports. -/
def Same (g g' : View) : Prop := g'.claim = none ∧ g'.reports = g.reports

theorem follows_announceLive {vi : Nat} {reports : List (Nat × SecurityReport)} (hg : g.claim = none)
    (hr : ∀ r ∈ reports, r ∈ g.reports ∧ r.2.vulnerabilityId = some vi) :
    Follows inbox (inbox.announceLive vi reports).run (fun _ => Same g) g := by
  have hsame : Same g g := ⟨hg, rfl⟩
  have hannounce : Follows inbox (ExceptT.run do
      let award ← query (.award vi)
      reports.forM fun report => do
        let kind : SecurityReplyKind :=
          if SecurityInbox.rewards award report.1 then .fixLiveRewarded else .fixLive
        let _ ← inbox.ensureDelivered report kind ⟨.tracking, .resolved⟩) (fun _ => Same g) g := by
    refine follows_query trivial (fun award s => ?_) fun _ _ => hsame
    obtain ⟨hclaim, hreports⟩ := @sawAward_claim g vi award
    refine (allowed_tryForM (Q := fun _ => Later (g.sawAward vi award)) (fun report hmem g' hg' => ?_)
      (.refl (hclaim.trans hg))).mono fun _ g' h => ⟨h.claim, h.reports.trans hreports⟩
    have hr' : report ∈ g'.reports := by
      rw [hg'.reports, hreports]
      exact (hr report hmem).1
    refine (follows_ensureDelivered hg' hr' (.inr rfl) fun hk => ?_).tryBind (fun _ _ h => h)
      fun _ _ h => h
    refine hg'.sawReward (sawReward_of_rewards (hr report hmem).1 (hr report hmem).2 ?_)
    by_contra hnot
    rw [if_neg hnot] at hk
    cases hk
  refine follows_query (q := .vulnerability vi) trivial (fun v s => ?_) fun _ _ => hsame
  cases v with
  | none => exact hsame
  | some v =>
    dsimp only
    split
    · exact hsame
    · refine (follows_isRewardable (vi, v)).tryBind (fun rewardable g' hg' => ?_) fun _ g' hg' =>
        hg' ▸ hsame
      subst hg'
      cases rewardable with
      | true => exact follows_store trivial (fun _ _ => hannounce) fun _ _ => hsame
      | false => exact hannounce

theorem follows_notifyAward {award : SecurityAward} (hg : g.claim = none) :
    Follows inbox (SecurityInbox.notifyAward award).run (fun _ g' => g'.claim = none) g := by
  refine follows_store nofun (fun updated s => ?_) fun _ _ => hg
  cases updated with
  | true =>
    exact follows_query (q := .vulnerability _) trivial
      (fun v s => ⟨trivial, fun _ _ => hg⟩) fun _ _ => hg
  | false => exact hg

theorem mem_byVulnerability {reports : List (Nat × SecurityReport)}
    {group : Nat × List (Nat × SecurityReport)}
    (h : group ∈ SecurityInbox.byVulnerability reports) :
    ∀ r ∈ group.2, r ∈ reports ∧ r.2.vulnerabilityId = some group.1 := by
  obtain ⟨id, -, rfl⟩ := List.mem_map.mp h
  intro r hr
  obtain ⟨hmem, hv⟩ := List.mem_filter.mp hr
  exact ⟨hmem, of_decide_eq_true hv⟩

theorem follows_advanceLive (hg : g.claim = none) :
    Follows inbox inbox.advanceLive (fun _ g' => g'.claim = none) g := by
  refine ⟨hg, fun r s => ?_⟩
  cases r with
  | error e => exact hg
  | ok reports =>
    have hstart : Same { g with reports := reports } { g with reports := reports } := ⟨hg, rfl⟩
    refine (allowed_forM (fun group hgroup g' hg' => ?_) hstart).bind fun _ g' hg' => ?_
    · refine follows_record ((follows_announceLive hg'.1 fun r hr => ?_).mono fun _ g'' h =>
        ⟨h.1, h.2.trans hg'.2⟩)
      rw [hg'.2]
      exact mem_byVulnerability hgroup r hr
    · refine ⟨trivial, fun r s => ?_⟩
      refine allowed_forM (L := fun g' : View => g'.claim = none) (fun award _ g'' hg'' => ?_) ?_
      · exact follows_record (follows_notifyAward hg'')
      · cases r <;> exact hg'.1

theorem read_one (hg : g.claim = none) (r : Nat × SecurityReport) :
    Later { g with reports := [r] } { g with reports := [r] } ∧
      r ∈ View.reports { g with reports := [r] } :=
  ⟨⟨hg, rfl, rfl, fun _ h => h⟩, List.mem_singleton_self r⟩

theorem follows_replyWithOutcome (ri : Nat) (hg : g.claim = none) :
    Follows inbox (inbox.replyWithOutcome ri).run (fun _ _ => True) g := by
  refine follows_query (q := .report ri) hg (fun report s => ?_) fun _ _ => trivial
  cases report with
  | some report =>
    obtain ⟨hlater, hr⟩ := read_one hg (ri, report)
    exact (follows_replyWith hlater hr).mono fun _ _ _ => trivial
  | none => exact trivial

theorem follows_acknowledge (ri : Nat) (registration : Registration) (hg : g.claim = none) :
    Follows inbox (inbox.acknowledge ri registration).run (fun _ _ => True) g := by
  have hping {P : Prop} [Decidable P] {subject : PingSubject} {rest : Fallible Unit}
      (h : Follows inbox rest.run (fun _ _ => True) g) :
      Follows inbox (ExceptT.run (if P then perform (.ping .newValidReport subject) >>= fun _ => rest
        else rest)) (fun _ _ => True) g := by
    split
    · exact follows_perform trivial fun _ _ => h
    · exact h
  unfold SecurityInbox.acknowledge
  split
  · exact hping (follows_replyWithOutcome ri hg)
  · exact hping trivial
  all_goals
    refine hping ?_
    split
    · refine follows_query (q := .report ri) hg (fun report s => ?_) fun _ _ => trivial
      cases report with
      | some report =>
        obtain ⟨hlater, hr⟩ := read_one hg (ri, report)
        refine (follows_confirm hlater hr).bind fun result _ _ => ?_
        cases result <;> exact trivial
      | none => exact trivial
    · exact trivial

/-- Every call of a job follows from what its run has seen. -/
theorem program_follows (job : Job) :
    Follows inbox (job.program inbox) (fun _ _ => True) {} := by
  cases job with
  | advance =>
    exact (follows_settleReplies rfl).bind fun _ g hg =>
      (follows_advanceLive hg).mono fun _ _ _ => trivial
  | replyWithOutcome ri => exact follows_record (follows_replyWithOutcome ri rfl)
  | acknowledge ri registration => exact follows_record (follows_acknowledge ri registration rfl)

end Programs

end Claudear.Engine.Security
