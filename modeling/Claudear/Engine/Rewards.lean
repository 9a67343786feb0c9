import Claudear.Engine.Fencing
import Claudear.Storage.ReportColumns

/-!
# Rewards that are announced

A sweep chooses the kind of a fix-live reply by the award it reads, and from then
on the ledger keeps the kind: a rewarded reply that failed is sent again without
another look at the award. `rewards_stand` is about the runs in which an award is
cancelled before anybody could announce it, or after the reply was sent, and a
report's link stays. In `cancelledBetween` an award is cancelled between two
attempts.
-/

namespace Claudear.Engine.Security

open Claudear.Core Claudear.Sql Claudear.Sql.Tx Claudear.Machine
  Claudear.Storage Claudear.Storage.Security

/-- The award of the report's vulnerability is the report's, and it has not been cancelled. -/
def RewardStands (d : Inbox) (ri : Nat) : Prop := ∃ vi, d.link ri = some vi ∧ AwardStands d vi ri

/-- A rewarded reply is handed out for a report whose reward stands. -/
def Announces (inbox : SecurityInbox) (w : World Req Inbox View) (move : Move Env Job Outside) : Prop :=
  ∀ t ri, (senders inbox).observe handedOut w move = some (t, (ri, .fixLiveRewarded)) →
    RewardStands w.shared ri

/-- An award that the call cancels is of a report that has no rewarded reply or was sent it, and no
running sweep has read the award while it stood. -/
def SparesAward {α : Type} (d : Inbox) (n : Nat → View) (call : Call α) : Prop :=
  ∀ vi, call.cancels = some vi → ∀ a ∈ d.award vi,
    (∀ r ∈ d.reply a.reportId .fixLiveRewarded, r.status = .sent) ∧
      ∀ t, (vi, a.reportId) ∉ (n t).standing

/-- The call links no report to a second vulnerability. -/
def KeepsLink {α : Type} (d : Inbox) (call : Call α) : Prop :=
  ∀ ri vi, call.links = some (ri, vi) → ∀ vj ∈ d.link ri, vj = vi

/-- Others cancel an award only when nobody may announce it any more, and links stay. -/
def CancelledInTime (w : World Req Inbox View) : Move Env Job Outside → Prop
  | .outside o => SparesAward w.shared w.note o.op.call ∧ KeepsLink w.shared o.op.call
  | _ => True

/-! ## What a run has seen of the store -/

variable {inbox : SecurityInbox} {d d' : Inbox} {n : Nat → View} {t : Nat} {g g' : View}

/-- What a run keeps of what it has seen still holds. -/
structure Current (d : Inbox) (g : View) : Prop where
  rewarded : ∀ ri ∈ g.rewarded, (d.reply ri .fixLiveRewarded).isSome = true
  standing : ∀ p ∈ g.standing, AwardStands d p.1 p.2
  reports : ∀ r ∈ g.reports, ∀ vi ∈ r.2.vulnerabilityId, d.link r.1 = some vi

theorem Current.congr (h : Current d g) (h₁ : g'.rewarded = g.rewarded)
    (h₂ : g'.standing = g.standing) (h₃ : g'.reports = g.reports) : Current d g' where
  rewarded := h₁ ▸ h.rewarded
  standing := h₂ ▸ h.standing
  reports := h₃ ▸ h.reports

theorem link_of_get {r : Nat × SecurityReport} (h : d.reports.get r.1 = some r.2) :
    ∀ vi ∈ r.2.vulnerabilityId, d.link r.1 = some vi :=
  fun _ hv => link_eq_some.mpr ⟨r.2, h, hv⟩

theorem reply_of_listed {ri : Nat} {r : SecurityReply} (hr : r ∈ d.listSecurityReplies ri) :
    r.reportId = ri ∧ (d.reply ri r.kind).isSome = true := by
  obtain ⟨⟨i, q⟩, hq, rfl⟩ := List.mem_map.mp hr
  obtain ⟨hget, hri⟩ := Table.mem_select.mp (mem_orderBy.mp hq)
  have hri : q.reportId = ri := of_decide_eq_true hri
  obtain ⟨x, hx⟩ := Table.exists_first hget (ofReply_iff.mpr ⟨hri, rfl⟩)
  refine ⟨hri, ?_⟩
  rw [Inbox.reply, hx]
  rfl

theorem Current.query (h : Current d g) {α : Type} (q : Query α) :
    Current d (g.next (.query q) (.ok (q.answer d)) d) := by
  cases q with
  | report id =>
    refine ⟨h.rewarded, h.standing, fun r hr => link_of_get ?_⟩
    obtain ⟨c, hc, rfl⟩ := List.mem_map.mp hr
    exact Option.mem_toList.mp hc
  | reports state =>
    refine ⟨h.rewarded, h.standing, fun r hr => link_of_get ?_⟩
    exact (Table.mem_select.mp (mem_orderBy.mp (List.mem_reverse.mp hr))).1
  | replies ri =>
    refine ⟨fun rj hj => ?_, h.standing, h.reports⟩
    rcases mem_listed_rewarded hj with ⟨rfl, r, hr, hk⟩ | hj
    · exact hk ▸ (reply_of_listed hr).2
    · exact h.rewarded rj hj
  | award vi =>
    show Current d (g.sawAward vi (d.award vi))
    unfold View.sawAward
    cases ha : d.award vi with
    | none => exact h
    | some a =>
      dsimp only
      split
      · exact h
      · next hs =>
        refine ⟨h.rewarded, fun p hp => ?_, h.reports⟩
        rcases List.mem_cons.mp hp with rfl | hp
        · exact ⟨a, ha, rfl, hs⟩
        · exact h.standing p hp
  | _ => exact h

/-! ## The invariant -/

/-- A rewarded reply that may still be sent is for a reward that stands. -/
structure Announced (d : Inbox) (n : Nat → View) : Prop where
  pending : ∀ ri r, d.reply ri .fixLiveRewarded = some r → r.status ≠ .sent → RewardStands d ri
  current : ∀ t, Current d (n t)

theorem Announced.note (h : Announced d n) (hg : Current d g) :
    Announced d (Function.update n t g) := by
  refine ⟨h.pending, fun u => ?_⟩
  by_cases hu : u = t
  · subst hu
    rwa [Function.update_self]
  · rw [Function.update_of_ne hu]
    exact h.current u

/-- A reward that was standing and is not cancelled stands. -/
theorem RewardStands.kept {now : DateTime} {α : Type} {call : Call α} {a : α} {ri : Nat}
    (h : RewardStands d ri) (hrun : (exec now call).run d = .ok (a, d')) (hlink : KeepsLink d call)
    (hc : ∀ vi, AwardStands d vi ri → call.cancels ≠ some vi) : RewardStands d' ri := by
  obtain ⟨vi, hv, hs⟩ := h
  exact ⟨vi, link_exec hrun hv fun vj hvj => (hlink ri vj hvj vi hv).symm,
    stands_exec hrun (hc vi hs) hs⟩

/-- A call keeps the rewards that may be announced standing, when a rewarded reply it claims first is
for a reward that stands. -/
theorem Announced.write (h : Announced d n) {now : DateTime} {α : Type} {call : Call α} {a : α}
    (hrun : (exec now call).run d = .ok (a, d')) (haward : SparesAward d n call)
    (hlink : KeepsLink d call)
    (hclaim : ∀ ri, call.target = .claim ri .fixLiveRewarded → d.reply ri .fixLiveRewarded = none →
      call.cancels = none ∧ RewardStands d ri) : Announced d' n where
  pending ri r' hr' hs' := by
    have hwithin := exec_within call hrun
    cases hr : d.reply ri .fixLiveRewarded with
    | none =>
      have htarget : call.target = .claim ri .fixLiveRewarded := by
        by_contra hc
        rw [reply_eq_none_within hwithin hc hr] at hr'
        cases hr'
      obtain ⟨hcancel, hstands⟩ := hclaim ri htarget hr
      refine hstands.kept hrun hlink fun vi _ hc => ?_
      rw [hcancel] at hc
      cases hc
    | some r =>
      have hs : r.status ≠ .sent := by
        intro hs
        obtain ⟨q, hq, hqr⟩ := keepsReply_within hwithin r hr
        cases hr'.symm.trans hq
        cases hqr hs
        exact hs' hs
      refine (h.pending ri r hr hs).kept hrun hlink fun vi ⟨b, hb, hri, _⟩ hc => hs ?_
      exact (haward vi hc b hb).1 r (hri ▸ hr)
  current t := by
    have ht := h.current t
    refine ⟨fun ri hri => ?_, fun p hp => ?_, fun r hr vi hv => ?_⟩
    · obtain ⟨r, hr⟩ := Option.isSome_iff_exists.mp (ht.rewarded ri hri)
      obtain ⟨r', hr', -⟩ := keepsReply_within (exec_within call hrun) r hr
      rw [hr']
      rfl
    · refine stands_exec hrun (fun hc => ?_) (ht.standing p hp)
      obtain ⟨b, hb, hri, -⟩ := ht.standing p hp
      exact (haward p.1 hc b hb).2 t (hri ▸ hp)
    · have hl := ht.reports r hr vi hv
      exact link_exec hrun hl fun vj hvj => (hlink r.1 vj hvj vi hl).symm

theorem SawReward.stands (h : Current d g) {ri : Nat} (hg : g.SawReward ri)
    (hn : d.reply ri .fixLiveRewarded = none) : RewardStands d ri := by
  rcases hg with hri | ⟨r, hr, rfl, vi, hv, hs⟩
  · have hsome := h.rewarded ri hri
    rw [hn] at hsome
    cases hsome
  · exact ⟨vi, h.reports r hr vi hv, h.standing _ hs⟩

theorem Current.store (h : Current d g) {α : Type} (call : Call α) (r : Except Error α) (s : Inbox) :
    Current d (g.next (.store call) r s) := by
  cases call with
  | claimReply =>
    cases r with
    | ok b =>
      cases b with
      | true => exact h.congr rfl rfl rfl
      | false => exact h
    | error e => exact h
  | completeReply => exact h.congr rfl rfl rfl
  | _ => exact h

/-- A call of a sender. -/
theorem Announced.call (h : Announced d n) {β : Type} {c : Req β} {env : Env}
    (hok : (n t).Ok inbox c) :
    let r := Req.answer env c d
    Announced r.2 (Function.update n t ((n t).next c r.1 r.2)) := by
  cases c with
  | store call =>
    rcases answer_store env call d with ⟨e, he⟩ | ⟨a, d', hrun, he⟩
    · rw [he]
      exact h.note ((h.current t).store call _ _)
    · rw [he]
      have hd' : Announced d' n := by
        refine h.write hrun (fun vi hc => ?_) (fun ri vi hc => ?_) fun ri hc hn => ?_
        · cases call with
          | updateAward vj expected next actor note =>
            cases next with
            | cancelled => exact absurd rfl hok
            | _ => cases hc
          | _ => cases hc
        · cases call with
          | transitionReport id s n changes event =>
            rw [Call.links, hok.2] at hc
            cases hc
          | _ => cases hc
        · cases call with
          | claimReply rj k event =>
            cases hc
            exact ⟨rfl, SawReward.stands (h.current t) (hok.2.2.2 rfl) hn⟩
          | _ => cases hc
      exact hd'.note ((hd'.current t).store call _ _)
  | query q =>
    simp only [Req.answer]
    cases env.error with
    | some e => exact h.note ((h.current t).congr (by cases q <;> rfl) (by cases q <;> rfl) (by cases q <;> rfl))
    | none => exact h.note ((h.current t).query q)
  | _ => exact h.note ((h.current t).congr rfl rfl rfl)

theorem Announced.outside (h : Announced d n) {o : Outside}
    (hc : SparesAward d n o.op.call ∧ KeepsLink d o.op.call) : Announced (Security.step d o.op) n := by
  obtain ⟨⟨now, call⟩, ho⟩ := o
  unfold Security.step
  cases hrun : (exec now call).run d with
  | error e =>
    rw [commit_error hrun]
    exact h
  | ok r =>
    obtain ⟨a, after⟩ := r
    rw [commit_ok hrun]
    refine h.write hrun hc.1 hc.2 fun ri htarget => ?_
    cases call with
    | claimReply => cases ho
    | _ => cases htarget

theorem current_idle : Current d watch.idle :=
  ⟨fun _ h => (nomatch h), fun _ h => (nomatch h), fun _ h => (nomatch h)⟩

theorem announced_initial : Announced .empty fun _ => watch.idle := by
  refine ⟨fun ri r hr _ => ?_, fun _ => current_idle⟩
  cases hr

theorem Announced.handedOut (h : Announced d n) {β : Type} {c : Req β} {env : Env} {ri : Nat}
    (hok : (n t).Ok inbox c)
    (hc : handedOut c (Req.answer env c d).1 = some (ri, .fixLiveRewarded)) : RewardStands d ri := by
  cases c with
  | store call =>
    rcases answer_store env call d with ⟨e, he⟩ | ⟨a, d', hrun, he⟩
    · rw [he] at hc
      cases call <;> cases hc
    · rw [he] at hc
      cases call with
      | claimReply rj k event =>
        cases a with
        | false => cases hc
        | true =>
          cases hc
          cases hr : d.reply ri .fixLiveRewarded with
          | none => exact SawReward.stands (h.current t) (hok.2.2.2 rfl) hr
          | some r =>
            have hfailed := (claimSecurityReply_reply hrun).1 r hr
            exact h.pending ri r hr (by rw [hfailed]; decide)
      | _ => cases hc
  | _ => cases hc

/-- In every run in which awards are cancelled in time and links stay, a rewarded reply is handed out
only for a report whose reward stands. -/
theorem rewards_stand (inbox : SecurityInbox) (l : List (Move Env Job Outside))
    (h : Along ((senders inbox).step watch) CancelledInTime (Pool.initial watch .empty) l) :
    Along ((senders inbox).step watch) (Announces inbox) (Pool.initial watch .empty) l := by
  refine h.along (P := Pool.Sound watch (View.Ok inbox) Announced) (fun w move hw hc => ?_)
    (fun w move hw _ t ri ho => ?_) ⟨announced_initial, fun _ => trivial⟩
  · refine hw.step move program_follows (fun s n t hn => hn.note current_idle)
      (fun _ _ _ => hw.inv.note current_idle) (fun t env β c k _ _ hok => hw.inv.call hok) fun op hop => ?_
    subst hop
    exact hw.inv.outside hc
  · obtain ⟨env, β, c, p, rfl, hp, hout⟩ := Pool.observe_eq_some ho
    exact hw.inv.handedOut (hw.call_ok hp) hout

/-! A report whose fix is live, and its sweeps. -/

def oneLive : List (Move Env Job Outside) :=
  [calledBy (.upsertReport (emailed "1" nine)) emailed_outside,
    calledBy (.transitionReport 1 .received .assessing {} { kind := .assessmentStarted }) assessing_outside,
    calledBy (.createVulnerability (confirmedFrom 1 nine)) rfl,
    calledBy (.transitionReport 1 .assessing .tracking { vulnerabilityId := some 1 }
      { kind := .assessed }) rfl,
    calledBy (.transitionVulnerability 1 .awaitingFix .fixing { pullRequestUrl := some "" }
      { kind := .pullRequestOpened }) rfl,
    calledBy (.transitionVulnerability 1 .fixing .merged {} { kind := .merged }) rfl,
    calledBy (.transitionVulnerability 1 .merged .live {} { kind := .live }) rfl]

/-- Thread `t` sweeps until there is nothing left to do. -/
def sweeps (t : Nat) (reply : ReporterReply) : List (Move Env Job Outside) :=
  .start t .advance :: goes t 20 reply

theorem rewards_stand_one :
    Along ((senders (inboxWithout 0)).step watch) (Announces (inboxWithout 0))
      (Pool.initial watch .empty) (oneLive ++ sweeps 0 .sent) := by
  refine rewards_stand (inboxWithout 0) _ (along_append.mpr ⟨?_, ?_⟩)
  · refine ⟨⟨?_, ?_⟩, ⟨?_, ?_⟩, ⟨?_, ?_⟩, ⟨?_, ?_⟩, ⟨?_, ?_⟩, ⟨?_, ?_⟩, ⟨?_, ?_⟩, trivial⟩
    case refine_8 =>
      intro ri vi hl vj hvj
      cases hl
      cases hvj
    case refine_2 | refine_4 | refine_6 | refine_10 | refine_12 | refine_14 =>
      exact fun _ _ hl => by cases hl
    all_goals exact fun _ hc => by cases hc
  · refine along_of_forall fun move hm w => ?_
    rcases List.mem_cons.mp hm with rfl | hm
    · exact trivial
    · cases List.eq_of_mem_replicate hm
      exact trivial

/-- A sweep prepares the award and announces it, the source rejects the reply, and the award is
cancelled before the next sweep sends the reply again. -/
def cancelledBetween : List (Move Env Job Outside) :=
  oneLive ++ sweeps 0 (.rejected "") ++
    calledBy (.updateAward 1 [.ownerNotified] .cancelled none none) rfl ::
      .start 1 .advance :: goes 1 11 .sent

theorem reward_announced_after_cancel :
    ¬ Announces (inboxWithout 0)
      (run ((senders (inboxWithout 0)).step watch) (Pool.initial watch .empty) cancelledBetween)
      (.go 1 { now := nine }) := by
  intro h
  obtain ⟨vi, hv, a, ha, -, hs⟩ := h 1 1 (by decide +kernel)
  have hlink : (run ((senders (inboxWithout 0)).step watch) (Pool.initial watch .empty)
      cancelledBetween).shared.link 1 = some 1 := by decide +kernel
  cases hlink.symm.trans hv
  have haward : ((run ((senders (inboxWithout 0)).step watch) (Pool.initial watch .empty)
      cancelledBetween).shared.award 1).map (·.status) = some .cancelled := by decide +kernel
  rw [ha] at haward
  exact hs (Option.some.inj haward)

end Claudear.Engine.Security
