import Claudear.Engine.Delivery
import Claudear.Storage.FirstReporter

/-!
# Whose claim a completion takes effect on

A completion names a report and a kind, not the claim it is for. A claim keeps
the reply from being claimed again as long as the reply has not failed, so a
sender's completion meets its own claim unless the reply was called failed behind
its back, which only an admin can do. `completions_fenced` is about the runs in
which an admin confirms a reply as not delivered only when no sender still holds
a claim of it; in `lateCompletion` one does.
-/

namespace Claudear.Engine.Security

open Claudear.Core Claudear.Core.DateTime Claudear.Sql Claudear.Sql.Tx Claudear.Machine
  Claudear.Storage Claudear.Storage.Security

/-! ## Claims and completions that take effect -/

def Claim.key (c : Claim) : ReplyKey := (c.reportId, c.kind)

/-- The reply that a call hands out. -/
def handedOut {β : Type} : Req β → β → Option ReplyKey
  | .store (.claimReply ri k _), .ok true => some (ri, k)
  | _, _ => none

/-- The reply that a call completes, and its outcome. -/
def completed {β : Type} : Req β → β → Option (ReplyKey × DeliveryStatus)
  | .store (.completeReply ri k s _ _ _), .ok _ => some ((ri, k), s)
  | _, _ => none

/-- A completion takes effect on the claim of the thread that made it, or it is the expiry of a
reply by a thread without a claim; and a reply is handed out to nobody while a thread holds it. -/
structure Fenced (inbox : SecurityInbox) (w : World Req Inbox View) (move : Move Env Job Outside) :
    Prop where
  own : ∀ t ri k s, (senders inbox).observe completed w move = some (t, (ri, k), s) →
    (∃ c ∈ (w.note t).claim, c.key = (ri, k) ∧
      ∃ r, w.shared.reply ri k = some r ∧ r.status = .sending ∧ r.attempts = c.number) ∨
    (w.note t).claim = none ∧ s = .unconfirmed
  alone : ∀ t key, (senders inbox).observe handedOut w move = some (t, key) →
    ∀ u, ∀ c ∈ (w.note u).claim, c.key ≠ key

/-- An admin confirms a reply as not delivered only when no thread holds a claim of it. -/
def ConfirmedAlone (w : World Req Inbox View) : Move Env Job Outside → Prop
  | .outside ⟨⟨_, .confirmReply ri k false _⟩, _⟩ => ∀ t, ∀ c ∈ (w.note t).claim, c.key ≠ (ri, k)
  | _ => True

/-! ## Claims and the ledger -/

/-- A claim that is held is the last one of its reply, which has not failed since. -/
structure Held (d : Inbox) (n : Nat → View) : Prop where
  unique : LedgerUnique d
  row : ∀ t, ∀ c ∈ (n t).claim, ∃ r, d.reply c.reportId c.kind = some r ∧ r.status ≠ .failed ∧
    r.attempts = c.number
  one : ∀ t u, ∀ c ∈ (n t).claim, ∀ e ∈ (n u).claim, c.key = e.key → t = u

variable {inbox : SecurityInbox} {d d' : Inbox} {n : Nat → View} {t : Nat} {g : View} {now : DateTime} {ri : Nat}
  {k : SecurityReplyKind}

/-- A thread's claims are among the ones it had. -/
theorem Held.note (h : Held d n) (hg : ∀ c ∈ g.claim, c ∈ (n t).claim) :
    Held d (Function.update n t g) := by
  have hmem : ∀ u, ∀ c ∈ (Function.update n t g u).claim, c ∈ (n u).claim := by
    intro u c hc
    by_cases hu : u = t
    · subst hu
      rw [Function.update_self] at hc
      exact hg c hc
    · rwa [Function.update_of_ne hu] at hc
  exact ⟨h.unique, fun u c hc => h.row u c (hmem u c hc),
    fun u v c hc e he => h.one u v c (hmem u c hc) e (hmem v e he)⟩

/-- A write that leaves every held reply with its count and not failed. -/
theorem Held.write (h : Held d n) (hu : LedgerUnique d')
    (hd : ∀ t, ∀ c ∈ (n t).claim, ∀ r, d.reply c.reportId c.kind = some r → r.status ≠ .failed →
      ∃ r', d'.reply c.reportId c.kind = some r' ∧ r'.status ≠ .failed ∧ r'.attempts = r.attempts) :
    Held d' n where
  unique := hu
  row t c hc := by
    obtain ⟨r, hr, hs, ha⟩ := h.row t c hc
    obtain ⟨r', hr', hs', ha'⟩ := hd t c hc r hr hs
    exact ⟨r', hr', hs', ha'.trans ha⟩
  one := h.one

theorem Held.replies (h : Held d n) (hd : d'.replies = d.replies) : Held d' n := by
  refine h.write ⟨?_, ?_⟩ fun t c _ r hr hs => ⟨r, ?_, hs, rfl⟩
  · rw [hd]
    exact h.unique.reply
  · rw [hd]
    exact h.unique.fixLive
  · rw [← hr, Inbox.reply, Inbox.reply, hd]

/-- A reply is completed or confirmed: nobody holds it, or it is not called failed. -/
theorem Held.finished (h : Held d n) {expected s : DeliveryStatus} {error : Option String}
    (hs : s = .failed → ∀ t, ∀ c ∈ (n t).claim, c.key ≠ (ri, k)) :
    Held (d.finished ri k expected s error now) n := by
  refine h.write (h.unique.update rfl fun _ => ⟨rfl, rfl⟩) fun t c hc r hr hr' => ?_
  rw [reply_finished, hr, Option.map_some]
  by_cases hk : (c.reportId = ri ∧ c.kind = k) ∧ r.status = expected
  · rw [if_pos hk]
    exact ⟨_, rfl, fun hf => hs hf t c hc (Prod.ext hk.1.1 hk.1.2), rfl⟩
  · rw [if_neg hk]
    exact ⟨r, rfl, hr', rfl⟩

theorem Held.claim (h : Held d n) (hu : LedgerUnique d') {event : NewSecurityEvent}
    (hg : (n t).claim = none) (hc : (claimSecurityReply now ri k event).run d = .ok (true, d')) :
    (∀ u, ∀ c ∈ (n u).claim, c.key ≠ (ri, k)) ∧
      Held d' (Function.update n t ((n t).claimed ri k d')) := by
  obtain ⟨hfailed, ⟨r, hr, hs, -, -⟩, hother⟩ := claimSecurityReply_reply hc
  have hfree : ∀ u, ∀ c ∈ (n u).claim, c.key ≠ (ri, k) := by
    rintro u c hc hk
    obtain ⟨q, hq, hq', -⟩ := h.row u c hc
    obtain ⟨rfl, rfl⟩ := Prod.ext_iff.mp hk
    exact hq' (hfailed q hq)
  have hmem : ∀ u, ∀ c ∈ (Function.update n t ((n t).claimed ri k d') u).claim,
      (u = t ∧ c.key = (ri, k) ∧ c.number = d'.attempts ri k) ∨ c ∈ (n u).claim := by
    intro u c hc
    by_cases hu : u = t
    · subst hu
      rw [Function.update_self] at hc
      cases hc
      exact .inl ⟨rfl, rfl, rfl⟩
    · rw [Function.update_of_ne hu] at hc
      exact .inr hc
  refine ⟨hfree, hu, fun u c hc => ?_, fun u v c hc e he hk => ?_⟩
  · rcases hmem u c hc with ⟨rfl, hk, hnum⟩ | hc
    · obtain ⟨rfl, rfl⟩ := Prod.ext_iff.mp hk
      refine ⟨r, hr, by rw [hs]; decide, ?_⟩
      rw [hnum, Inbox.attempts, hr]
      rfl
    · obtain ⟨q, hq, hq', ha⟩ := h.row u c hc
      exact ⟨q, (hother _ _ fun hk => hfree u c hc (Prod.ext hk.1 hk.2)).trans hq, hq', ha⟩
  · rcases hmem u c hc with ⟨rfl, hkc, -⟩ | hc' <;> rcases hmem v e he with ⟨rfl, hke, -⟩ | he'
    · rfl
    · exact absurd (hk.symm.trans hkc) (hfree v e he')
    · exact absurd (hk.trans hke) (hfree u c hc')
    · exact h.one u v c hc' e he' hk

/-! ## Runs -/

/-- The sender's own claim is given up, and nobody else holds the reply that is called failed. -/
theorem Held.complete (h : Held d n) {s : DeliveryStatus} {error : Option String}
    {tr : Option ReportTransition} (hc : (n t).MayComplete ri k s tr) :
    Held (d.finished ri k .sending s error now)
      (Function.update n t { n t with claim := none }) := by
  have hnone : ∀ c ∈ View.claim { n t with claim := none }, c ∈ (n t).claim := nofun
  refine (h.note hnone).finished fun hs u c hu hk => ?_
  subst hs
  obtain ⟨c₀, hc₀, hk₀, -⟩ := hc
  by_cases hut : u = t
  · subst hut
    rw [Function.update_self] at hu
    cases hu
  · rw [Function.update_of_ne hut] at hu
    exact hut (h.one u t c hu c₀ hc₀ (hk.trans (Prod.ext hk₀.1 hk₀.2).symm))

theorem next_query_claim {α : Type} {q : Query α} {r : Except Error α} :
    (g.next (.query q) r d).claim = g.claim := by
  cases r with
  | error e => cases q <;> rfl
  | ok a =>
    cases q with
    | award vi => exact sawAward_claim.1
    | _ => rfl

/-- A call of a sender keeps the claims and the ledger together. -/
theorem Held.call (h : Held d n) {β : Type} {c : Req β} {env : Env} (hc : (n t).Ok inbox c) :
    let r := Req.answer env c d
    Held r.2 (Function.update n t ((n t).next c r.1 r.2)) := by
  cases c with
  | store call =>
    rcases answer_store env call d with ⟨e, he⟩ | ⟨a, d', hrun, he⟩
    · rw [he]
      refine h.note ?_
      cases call with
      | completeReply => exact nofun
      | _ => exact fun _ h => h
    · rw [he]
      have hother (hrest : call.target.isReply = false) : Held d' n :=
        h.replies (replies_within hrest (exec_within call hrun))
      cases call with
      | claimReply ri k event =>
        cases a with
        | true => exact (h.claim (unique_within (exec_within _ hrun) h.unique) hc.1 hrun).2
        | false =>
          rcases claimSecurityReply_ok hrun with ⟨-, rfl, -⟩ | ⟨hb, -⟩
          · exact h.note fun _ h => h
          · cases hb
      | completeReply ri k s error event tr =>
        obtain ⟨-, -, d₁, hd₁, rfl⟩ := completeSecurityReply_ok hrun
        have hfinished : Held (d.finished ri k .sending s error (timestamp env.now))
            (Function.update n t { n t with claim := none }) := h.complete hc
        refine hfinished.replies ?_
        rcases hd₁ with ⟨-, rfl, -⟩ | ⟨-, tr, -, -, -, rfl⟩ <;> rfl
      | transitionReport | recordEvent | prepareAward | updateAward => exact (hother rfl).note fun _ h => h
      | _ => cases hc
  | query q =>
    have hd : (Req.answer env (.query q) d).2 = d := by
      simp only [Req.answer]
      cases env.error <;> rfl
    dsimp only
    rw [hd]
    refine h.note fun c hc => ?_
    rwa [next_query_claim] at hc
  | _ => exact h.note fun _ h => h

theorem Held.outside (h : Held d n) {o : Outside}
    (hc : ∀ ri k now actor ho, o = ⟨⟨now, .confirmReply ri k false actor⟩, ho⟩ →
      ∀ t, ∀ c ∈ (n t).claim, c.key ≠ (ri, k)) : Held (Security.step d o.op) n := by
  obtain ⟨⟨now, call⟩, ho⟩ := o
  unfold Security.step
  cases hrun : (exec now call).run d with
  | error e =>
    rw [commit_error hrun]
    exact h
  | ok r =>
    obtain ⟨a, d'⟩ := r
    rw [commit_ok hrun]
    cases call with
    | claimReply => cases ho
    | completeReply => cases ho
    | confirmReply ri k delivered actor =>
      rcases confirmSecurityReply_ok hrun with ⟨-, rfl⟩ | ⟨-, -, rfl⟩
      · exact h
      · refine Held.replies (h.finished fun hs => ?_) rfl
        cases delivered with
        | true => cases hs
        | false => exact hc ri k now actor ho rfl
    | _ => exact h.replies (replies_within rfl (exec_within _ hrun))

theorem Held.completed (h : Held d n) {β : Type} {c : Req β} {env : Env} {s : DeliveryStatus}
    (hok : (n t).Ok inbox c) (hc : completed c (Req.answer env c d).1 = some ((ri, k), s)) :
    (∃ c ∈ (n t).claim, c.key = (ri, k) ∧
      ∃ r, d.reply ri k = some r ∧ r.status = .sending ∧ r.attempts = c.number) ∨
    (n t).claim = none ∧ s = .unconfirmed := by
  cases c with
  | store call =>
    rcases answer_store env call d with ⟨e, he⟩ | ⟨a, d', hrun, he⟩
    · rw [he] at hc
      cases call <;> cases hc
    · rw [he] at hc
      cases call with
      | completeReply ri k s error event tr =>
        cases hc
        obtain ⟨-, hany, -⟩ := completeSecurityReply_ok hrun
        obtain ⟨r, hr, hs⟩ := reply_of_any h.unique hany
        have hmine : ∀ c ∈ (n t).claim, c.reportId = ri ∧ c.kind = k →
            ∃ c ∈ (n t).claim, c.key = (ri, k) ∧
              ∃ r, d.reply ri k = some r ∧ r.status = .sending ∧ r.attempts = c.number := by
          rintro c hc ⟨rfl, rfl⟩
          obtain ⟨q, hq, -, ha⟩ := h.row t c hc
          cases hr.symm.trans hq
          exact ⟨c, hc, rfl, r, hr, hs, ha⟩
        cases s with
        | sending => cases hok
        | sent =>
          obtain ⟨⟨c, hc, hk⟩, -⟩ := hok
          exact .inl (hmine c hc hk)
        | failed =>
          obtain ⟨c, hc, hk, -⟩ := hok
          exact .inl (hmine c hc hk)
        | unconfirmed =>
          cases hg : (n t).claim with
          | none => exact .inr ⟨rfl, rfl⟩
          | some c =>
            rw [hg] at hmine
            exact .inl (hmine c rfl (hok.2 c hg))
      | claimReply => cases a <;> cases hc
      | _ => cases hc
  | _ => cases hc

theorem Held.handedOut (h : Held d n) {β : Type} {c : Req β} {env : Env} {key : ReplyKey}
    (hok : (n t).Ok inbox c) (hc : handedOut c (Req.answer env c d).1 = some key) :
    ∀ u, ∀ c ∈ (n u).claim, c.key ≠ key := by
  cases c with
  | store call =>
    rcases answer_store env call d with ⟨e, he⟩ | ⟨a, d', hrun, he⟩
    · rw [he] at hc
      cases call <;> cases hc
    · rw [he] at hc
      cases call with
      | claimReply ri k event =>
        cases a with
        | true =>
          cases hc
          exact (h.claim (unique_within (exec_within _ hrun) h.unique) hok.1 hrun).1
        | false => cases hc
      | _ => cases hc
  | _ => cases hc

theorem held_initial : Held .empty fun _ => watch.idle where
  unique := ⟨Table.unique_empty, Table.unique_empty⟩
  row t c hc := by cases hc
  one t u c hc := by cases hc

/-- In every run in which an admin confirms a reply as not delivered only when no sender holds a
claim of it, a sender's completion takes effect on the claim that the same sender made, and no
reply is claimed while a sender holds it. -/
theorem completions_fenced (inbox : SecurityInbox) (l : List (Move Env Job Outside))
    (h : Along ((senders inbox).step watch) ConfirmedAlone (Pool.initial watch .empty) l) :
    Along ((senders inbox).step watch) (Fenced inbox) (Pool.initial watch .empty) l := by
  refine h.along (P := Pool.Sound watch (View.Ok inbox) Held) (fun w move hw hc => ?_)
    (fun w move hw _ => ⟨fun t ri k s ho => ?_, fun t key ho => ?_⟩) ⟨held_initial, fun _ => trivial⟩
  · refine hw.step move program_follows (fun s n t hn => hn.note nofun)
      (fun _ _ _ => hw.inv.note nofun) (fun t env β c k _ _ hok => hw.inv.call hok) fun op hop => ?_
    subst hop
    refine hw.inv.outside fun ri k now actor ho ho' => ?_
    subst ho'
    exact hc
  · obtain ⟨env, β, c, p, rfl, hp, hcompleted⟩ := Pool.observe_eq_some ho
    exact hw.inv.completed (hw.call_ok hp) hcompleted
  · obtain ⟨env, β, c, p, rfl, hp, hout⟩ := Pool.observe_eq_some ho
    exact hw.inv.handedOut (hw.call_ok hp) hout

/-! A run of three senders and a sweep on the reply of one report. -/

def inboxWithout (waits : Nat) : SecurityInbox where
  closeAfterReply := false
  acknowledgeValid := false
  reward := ⟨"", 0⟩
  sendingStaleAfter := waits
  replyRetryBackoff := waits
  replyBody _ _ := ""
  truncatedError error := error

def calledBy {α : Type} (call : Call α) (h : isOutside call = true) : Move Env Job Outside :=
  .outside ⟨⟨nine, call⟩, h⟩

theorem emailed_outside : isOutside (.upsertReport (emailed "1" nine)) = true := rfl

theorem assessing_outside :
    isOutside (.transitionReport 1 .received .assessing {} { kind := .assessmentStarted }) = true := rfl

def goes (t n : Nat) (reply : ReporterReply) : List (Move Env Job Outside) :=
  List.replicate n (.go t { now := nine, reply := reply })

/-- Thread `t` answers report 1 and goes as far as its claim. -/
def claims (t : Nat) : List (Move Env Job Outside) := .start t (.replyWithOutcome 1) :: goes t 5 .sent

/-- A report whose outcome is to be told to the reporter. -/
def oneReplying : List (Move Env Job Outside) :=
  [calledBy (.upsertReport (emailed "1" nine)) emailed_outside,
    calledBy (.transitionReport 1 .received .assessing {} { kind := .assessmentStarted }) assessing_outside,
    calledBy (.transitionReport 1 .assessing .replying { outcome := some .notReproducible }
      { kind := .assessed }) rfl]

/-- A sender has its reply rejected, the next does not learn what became of it, and neither holds a
claim any more. -/
def twoAnswers : List (Move Env Job Outside) :=
  oneReplying ++ claims 0 ++ goes 0 3 (.rejected "") ++ claims 1 ++ goes 1 3 (.unconfirmed "")

/-- An admin confirms the second reply as not delivered, and a third sender has it delivered. -/
def confirmedAnswer : List (Move Env Job Outside) :=
  twoAnswers ++ calledBy (.confirmReply 1 .notReproducible false "admin") rfl :: claims 2 ++ goes 2 3 .sent

theorem confirmedAlone_goes {w : World Req Inbox View} {t n : Nat} {reply : ReporterReply} :
    Along ((senders inbox).step watch) ConfirmedAlone w (goes t n reply) := by
  refine along_of_forall fun move hm w => ?_
  rw [List.eq_of_mem_replicate hm]
  trivial

theorem confirmedAlone_claims {w : World Req Inbox View} {t : Nat} :
    Along ((senders inbox).step watch) ConfirmedAlone w (claims t) := ⟨trivial, confirmedAlone_goes⟩

theorem confirmedAlone_twoAnswers :
    Along ((senders (inboxWithout 0)).step watch) ConfirmedAlone (Pool.initial watch .empty) twoAnswers := by
  refine along_append.mpr ⟨along_append.mpr ⟨along_append.mpr ⟨along_append.mpr ⟨?_, ?_⟩, ?_⟩, ?_⟩, ?_⟩
  · exact ⟨trivial, trivial, trivial, trivial⟩
  · exact confirmedAlone_claims
  · exact confirmedAlone_goes
  · exact confirmedAlone_claims
  · exact confirmedAlone_goes

/-- Nobody holds a claim when the admin confirms: the two senders are done, and no other has begun. -/
theorem noClaims_twoAnswers (t : Nat) :
    ((run ((senders (inboxWithout 0)).step watch) (Pool.initial watch .empty) twoAnswers).note t).claim =
      none := by
  rcases (by omega : t = 0 ∨ t = 1 ∨ 1 < t) with rfl | rfl | ht
  · decide +kernel
  · decide +kernel
  · refine congrArg View.claim (Pool.note_run_of_ne fun move hm he => ?_)
    have hle : ∀ move ∈ twoAnswers, ∀ u ∈ move.thread, u ≤ 1 := by decide
    have := hle move hm t he
    omega

theorem completions_fenced_one :
    Along ((senders (inboxWithout 0)).step watch) (Fenced (inboxWithout 0))
      (Pool.initial watch .empty) confirmedAnswer := by
  refine completions_fenced (inboxWithout 0) _ (along_append.mpr ⟨?_, ?_⟩)
  · refine along_append.mpr ⟨confirmedAlone_twoAnswers, ?_, confirmedAlone_claims⟩
    intro t c hc
    rw [noClaims_twoAnswers t] at hc
    cases hc
  · exact confirmedAlone_goes

-- The three completions take effect.
example :
    let step := (senders (inboxWithout 0)).step watch
    let w := run step (Pool.initial watch .empty) confirmedAnswer
    (w.shared.reply 1 .notReproducible).map (fun r => (r.status, r.attempts)) = some (.sent, 3) ∧
      seen step ((senders (inboxWithout 0)).observe completed) (Pool.initial watch .empty) confirmedAnswer =
        [(0, (1, .notReproducible), .failed), (1, (1, .notReproducible), .unconfirmed),
          (2, (1, .notReproducible), .sent)] := by
  decide +kernel

/-- Thread 0 claims the reply, and the source rejects it; a sweep takes the claim for stale, an
admin confirms it as not delivered, and thread 2 claims the reply again. -/
def lateCompletion : List (Move Env Job Outside) :=
  oneReplying ++ claims 0 ++ goes 0 1 (.rejected "") ++ .start 1 .advance :: goes 1 4 .sent ++
    [.stop 1, calledBy (.confirmReply 1 .notReproducible false "admin") rfl] ++ claims 2

/-- Thread 0 records its rejection for the claim of thread 2, and thread 3 claims the reply a third
time while thread 2 still sends it. -/
theorem completions_unfenced :
    let step := (senders (inboxWithout 0)).step watch
    let w := run step (Pool.initial watch .empty) lateCompletion
    let w' := run step w (goes 0 1 .sent ++ .start 3 (.replyWithOutcome 1) :: goes 3 4 .sent)
    ¬ Fenced (inboxWithout 0) w (.go 0 { now := nine }) ∧
      ¬ Fenced (inboxWithout 0) w' (.go 3 { now := nine }) := by
  intro step w w'
  constructor
  · intro h
    have hclaim : (w.note 0).claim = some ⟨1, .notReproducible, 1, 1⟩ := by decide +kernel
    have hattempts : (w.shared.reply 1 .notReproducible).map (·.attempts) = some 2 := by decide +kernel
    rcases h.own 0 1 .notReproducible .failed (by decide +kernel) with ⟨c, hc, -, r, hr, -, ha⟩ | ⟨-, hs⟩
    · cases Option.mem_unique hc hclaim
      rw [hr, Option.map_some, ha] at hattempts
      cases hattempts
    · cases hs
  · intro h
    have hclaim : (w'.note 2).claim = some ⟨1, .notReproducible, 2, 2⟩ := by decide +kernel
    exact h.alone 3 (1, .notReproducible) (by decide +kernel) 2 _ hclaim rfl

end Claudear.Engine.Security
