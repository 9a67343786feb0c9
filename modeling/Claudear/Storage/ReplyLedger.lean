import Claudear.Storage.SecurityCalls

/-!
# The reply ledger

A reply is one row of the ledger, and a claim hands it out for sending. The
ledger hands a reply out when it has no row yet or its last delivery failed, so
a reply on its way or delivered is not sent again, and it counts the claims. A
report has one fix-live reply, whichever of the two kinds it is.
-/

namespace Claudear.Storage.Security

open Claudear.Core Claudear.Core.DateTime Claudear.Sql Claudear.Sql.Tx Claudear.Machine Relation

variable {d d' : Inbox} {now t : DateTime} {ri : Nat} {k : SecurityReplyKind}

/-! ## Looking a reply up -/

/-- A statement on the rows of one reply rewrites that reply. -/
theorem reply_update {ri' : Nat} {k' : SecurityReplyKind} {s : DeliveryStatus}
    {f : SecurityReply → SecurityReply} (he : d'.replies = d.replies.update (ofReplyIn ri' k' s) f)
    (hf : ∀ r, (f r).reportId = r.reportId ∧ (f r).kind = r.kind) :
    d'.reply ri k = (d.reply ri k).map fun r =>
      if (ri = ri' ∧ k = k') ∧ r.status = s then f r else r := by
  unfold Inbox.reply
  rw [he, Table.first_update]
  · cases hr : d.replies.first (ofReply ri k) with
    | none => rfl
    | some q =>
      obtain ⟨i, r⟩ := q
      obtain ⟨rfl, rfl⟩ := ofReply_iff.mp (Table.first_get hr).2
      simp only [Option.map_some, Table.setWhere, ofReplyIn_iff]
      split <;> rfl
  · rintro ⟨i, r⟩
    unfold Table.setWhere
    split
    · simp only [ofReply, (hf r).1, (hf r).2]
    · rfl

theorem reply_finished {ri' : Nat} {k' : SecurityReplyKind} {expected s : DeliveryStatus}
    {error : Option String} :
    (d.finished ri' k' expected s error t).reply ri k = (d.reply ri k).map fun r =>
      if (ri = ri' ∧ k = k') ∧ r.status = expected then
        { r with status := s, error := error, completedAt := some t }
      else r :=
  reply_update rfl fun _ => ⟨rfl, rfl⟩

theorem reply_reclaimed {ri' : Nat} {k' : SecurityReplyKind} {event : NewSecurityEvent} :
    (d.reclaimed now ri' k' event).reply ri k = (d.reply ri k).map fun r =>
      if (ri = ri' ∧ k = k') ∧ r.status = .failed then
        { r with status := .sending, attempts := r.attempts + 1, claimedAt := timestamp now
                 completedAt := none }
      else r :=
  reply_update rfl fun _ => ⟨rfl, rfl⟩

theorem reply_claimed {ri' : Nat} {k' : SecurityReplyKind} {event : NewSecurityEvent} :
    (d.claimed now ri' k' event).reply ri k =
      (d.reply ri k).or (if ri = ri' ∧ k = k' then some (newReply ri' k' (timestamp now)) else none) := by
  show ((d.replies.insert (newReply ri' k' (timestamp now))).first (ofReply ri k)).map Prod.snd = _
  rw [Table.first_insert, Option.map_or]
  congr 1
  simp only [ofReply_iff, newReply, eq_comm (a := ri'), eq_comm (a := k')]
  split <;> rfl

/-! ## Uniqueness -/

abbrev ReplyKey := Nat × SecurityReplyKind

def SecurityReply.key (r : SecurityReply) : Option ReplyKey := some (r.reportId, r.kind)

/-- The partial index of the fix-live replies. -/
def SecurityReply.fixLiveKey (r : SecurityReply) : Option Nat :=
  if r.kind.isFixLive then some r.reportId else none

theorem fixLiveKey_eq_some {r : SecurityReply} :
    r.fixLiveKey = some ri ↔ r.kind.isFixLive = true ∧ r.reportId = ri := by
  simp [SecurityReply.fixLiveKey]

structure LedgerUnique (d : Inbox) : Prop where
  reply : Table.Unique SecurityReply.key d.replies
  fixLive : Table.Unique SecurityReply.fixLiveKey d.replies

theorem reply_eq_none (h : d.reply ri k = none) {i : Nat} {r : SecurityReply}
    (hr : d.replies.get i = some r) : ¬ (r.reportId = ri ∧ r.kind = k) := by
  rw [Inbox.reply, Option.map_eq_none_iff, Table.first_eq_none] at h
  intro hk
  rw [← ofReply_iff (i := i), h i r hr] at hk
  cases hk

theorem LedgerUnique.update (h : LedgerUnique d) {p : Nat × SecurityReply → Bool}
    {f : SecurityReply → SecurityReply} (he : d'.replies = d.replies.update p f)
    (hf : ∀ r, (f r).reportId = r.reportId ∧ (f r).kind = r.kind) : LedgerUnique d' where
  reply := by
    rw [he]
    refine h.reply.update fun r c hc => ?_
    rw [← hc, SecurityReply.key, SecurityReply.key, (hf r).1, (hf r).2]
  fixLive := by
    rw [he]
    refine h.fixLive.update fun r c hc => ?_
    rw [← hc, SecurityReply.fixLiveKey, SecurityReply.fixLiveKey, (hf r).1, (hf r).2]

theorem LedgerUnique.insert (h : LedgerUnique d) (ho : d.hasOtherFixLiveReply ri k = false)
    (hr : d.reply ri k = none) (he : d'.replies = d.replies.insert (newReply ri k t)) :
    LedgerUnique d' where
  reply := by
    rw [he]
    refine h.reply.insert fun c hc i r hi hk => reply_eq_none hr hi ?_
    cases hc
    simpa [SecurityReply.key, newReply] using hk
  fixLive := by
    rw [he]
    refine h.fixLive.insert fun c hc i r hi hk => ?_
    obtain ⟨hlive, rfl⟩ := fixLiveKey_eq_some.mp hc
    obtain ⟨hlive', hri⟩ := fixLiveKey_eq_some.mp hk
    simp only [newReply] at hlive hri
    -- the row of the other kind is what the query before the claim looks for
    have hne : r.kind ≠ k := fun e => reply_eq_none hr hi ⟨hri, e⟩
    have hany : d.hasOtherFixLiveReply ri k = true := by
      rw [Inbox.hasOtherFixLiveReply, hlive, Bool.true_and, Table.any_eq_true]
      exact ⟨i, r, hi, by simp [hri, hlive', hne]⟩
    rw [ho] at hany
    cases hany

theorem Effect.unique {c : Target} (h : Effect c d d') (hd : LedgerUnique d) :
    LedgerUnique d' := by
  cases h with
  | claimed ho hr => exact hd.insert ho hr rfl
  | reclaimed | finished => exact hd.update rfl fun _ => ⟨rfl, rfl⟩
  | _ => exact ⟨hd.reply, hd.fixLive⟩

theorem unique_within {c : Target} (h : ReflTransGen (Effect c) d d') (hd : LedgerUnique d) :
    LedgerUnique d' := by
  induction h with
  | refl => exact hd
  | tail _ he ih => exact he.unique ih

theorem unique_run (l : List Op) : LedgerUnique (run step .empty l) :=
  run_effects Effect.unique ⟨Table.unique_empty, Table.unique_empty⟩ l

theorem reply_eq_some (h : LedgerUnique d) {i : Nat} {r : SecurityReply}
    (hr : d.replies.get i = some r) : d.reply r.reportId r.kind = some r := by
  obtain ⟨⟨j, q⟩, hq⟩ := Table.exists_first hr (ofReply_iff.mpr ⟨rfl, rfl⟩)
  obtain ⟨hget, hk⟩ := Table.first_get hq
  obtain ⟨hri, hkind⟩ := ofReply_iff.mp hk
  have hj : j = i := h.reply hget hr (k := (r.reportId, r.kind)) (by rw [SecurityReply.key, hri, hkind]) rfl
  subst hj
  rw [Inbox.reply, hq]
  exact hget.symm.trans hr

/-! ## Claims -/

/-- A reply on its way, delivered or in doubt is not handed out. -/
theorem claimSecurityReply_refused {r : SecurityReply} (hr : d.reply ri k = some r)
    (hs : r.status ≠ .failed) (now : DateTime) (event : NewSecurityEvent) :
    (claimSecurityReply now ri k event).run d = .ok (false, d) := by
  unfold claimSecurityReply
  simp only [read_bind]
  split
  · rfl
  · simp only [read_bind, hr, Option.map_some]
    rfl

def Inbox.attempts (d : Inbox) (ri : Nat) (k : SecurityReplyKind) : Nat :=
  ((d.reply ri k).map (·.attempts)).getD 0

/-- What a claim does: the reply is on its way and counted, and the others are as they were. -/
theorem claimSecurityReply_reply {event : NewSecurityEvent}
    (h : (claimSecurityReply now ri k event).run d = .ok (true, d')) :
    (∀ r ∈ d.reply ri k, r.status = .failed) ∧
      (∃ r, d'.reply ri k = some r ∧ r.status = .sending ∧ r.claimedAt = timestamp now ∧
        r.attempts = d.attempts ri k + 1) ∧
      ∀ ri' k', ¬ (ri' = ri ∧ k' = k) → d'.reply ri' k' = d.reply ri' k' := by
  rcases claimSecurityReply_ok h with ⟨hb, -⟩ | ⟨-, -, -, ⟨hn, rfl⟩ | ⟨⟨r, hr, hs⟩, rfl⟩⟩
  · cases hb
  · refine ⟨by simp [hn], ⟨newReply ri k (timestamp now), ?_, rfl, rfl, ?_⟩, fun ri' k' hne => ?_⟩
    · simp [reply_claimed, hn]
    · simp [newReply, Inbox.attempts, hn]
    · rw [reply_claimed, if_neg hne, Option.or_none]
  · refine ⟨by simp [hr, hs], ⟨_, by rw [reply_reclaimed, hr]; rfl, ?_⟩, fun ri' k' hne => ?_⟩
    · simp [hs, Inbox.attempts, hr]
    · simp [reply_reclaimed, hne]

theorem reply_of_any (h : LedgerUnique d) {s : DeliveryStatus}
    (hany : d.replies.any (ofReplyIn ri k s) = true) : ∃ r, d.reply ri k = some r ∧ r.status = s := by
  obtain ⟨i, r, hr, hk⟩ := Table.any_eq_true.mp hany
  obtain ⟨⟨rfl, rfl⟩, hs⟩ := ofReplyIn_iff.mp hk
  exact ⟨r, reply_eq_some h hr, hs⟩

/-- The call hands reply `k` of report `ri` out for sending. -/
def handsOut (ri : Nat) (k : SecurityReplyKind) (d : Inbox) (op : Op) : Bool :=
  match op with
  | ⟨now, .claimReply ri' k' event⟩ =>
    (ri = ri' && k = k') && (claimSecurityReply now ri' k' event).answersTrue d
  | _ => false

def Target.isClaim : Target → Bool
  | .claim .. => true
  | _ => false

/-- The count of a reply's claims, and the time of the last one. -/
def Inbox.lastClaim (d : Inbox) (ri : Nat) (k : SecurityReplyKind) : Option (Nat × DateTime) :=
  (d.reply ri k).map fun r => (r.attempts, r.claimedAt)

theorem attempts_eq : d.attempts ri k = ((d.lastClaim ri k).map Prod.fst).getD 0 := by
  rw [Inbox.attempts, Inbox.lastClaim, Option.map_map]
  rfl

theorem Effect.lastClaim {c : Target} (hc : c.isClaim = false) (h : Effect c d d') :
    d'.lastClaim ri k = d.lastClaim ri k := by
  cases h with
  | claimed => cases hc
  | reclaimed => cases hc
  | finished =>
    unfold Inbox.lastClaim
    rw [reply_finished, Option.map_map]
    congr 1
    funext r
    simp only [Function.comp]
    split <;> rfl
  | _ => rfl

theorem lastClaim_within {c : Target} (hc : c.isClaim = false) (h : ReflTransGen (Effect c) d d') :
    d'.lastClaim ri k = d.lastClaim ri k := by
  induction h with
  | refl => rfl
  | tail _ he ih => exact (he.lastClaim hc).trans ih

/-- The call is about the ledger. -/
def Target.isReply : Target → Bool
  | .claim .. | .delivery .. => true
  | _ => false

theorem replies_within {c : Target} (hc : c.isReply = false) (h : ReflTransGen (Effect c) d d') :
    d'.replies = d.replies := by
  induction h with
  | refl => rfl
  | tail _ he ih =>
    refine Eq.trans ?_ ih
    cases he with
    | claimed => cases hc
    | reclaimed => cases hc
    | finished => cases hc
    | _ => rfl

/-- A reply stays in the ledger, as it is once it has been sent. -/
def KeepsReply (ri : Nat) (k : SecurityReplyKind) (d d' : Inbox) : Prop :=
  ∀ r, d.reply ri k = some r → ∃ r', d'.reply ri k = some r' ∧ (r.status = .sent → r' = r)

theorem Effect.keepsReply {c : Target} (h : Effect c d d') : KeepsReply ri k d d' := by
  intro r hr
  cases h with
  | claimed => exact ⟨r, by rw [reply_claimed, hr]; rfl, fun _ => rfl⟩
  | reclaimed =>
    refine ⟨_, by rw [reply_reclaimed, hr]; rfl, fun hs => if_neg fun h => ?_⟩
    rw [hs] at h
    cases h.2
  | finished _ he =>
    refine ⟨_, by rw [reply_finished, hr]; rfl, fun hs => if_neg fun h => he ?_⟩
    exact h.2.symm.trans hs
  | _ => exact ⟨r, hr, fun _ => rfl⟩

theorem keepsReply_within {c : Target} (h : ReflTransGen (Effect c) d d') : KeepsReply ri k d d' := by
  intro r hr
  induction h with
  | refl => exact ⟨r, hr, fun _ => rfl⟩
  | tail _ he ih =>
    obtain ⟨q, hq, hqr⟩ := ih
    obtain ⟨r', hr', hrq⟩ := he.keepsReply q hq
    refine ⟨r', hr', fun hs => ?_⟩
    cases hqr hs
    exact hrq hs

/-- Only a claim puts a reply into the ledger. -/
theorem Effect.reply_eq_none {c : Target} (h : Effect c d d') (hc : c ≠ .claim ri k)
    (hr : d.reply ri k = none) : d'.reply ri k = none := by
  cases h with
  | claimed =>
    rw [reply_claimed, hr, if_neg fun hk => hc (by rw [hk.1, hk.2])]
    rfl
  | reclaimed => rw [reply_reclaimed, hr, Option.map_none]
  | finished => rw [reply_finished, hr, Option.map_none]
  | _ => exact hr

theorem reply_eq_none_within {c : Target} (h : ReflTransGen (Effect c) d d') (hc : c ≠ .claim ri k)
    (hr : d.reply ri k = none) : d'.reply ri k = none := by
  induction h with
  | refl => exact hr
  | tail _ he ih => exact he.reply_eq_none hc ih

theorem attempts_within {c : Target} (hc : c.isClaim = false)
    (h : ReflTransGen (Effect c) d d') : d'.attempts ri k = d.attempts ri k := by
  rw [attempts_eq, attempts_eq, lastClaim_within hc h]

theorem claimSecurityReply_attempts {ri' : Nat} {k' : SecurityReplyKind} {event : NewSecurityEvent}
    {b : Bool} (h : (claimSecurityReply now ri' k' event).run d = .ok (b, d')) :
    d'.attempts ri k = d.attempts ri k + if (ri = ri' ∧ k = k') ∧ b = true then 1 else 0 := by
  unfold Inbox.attempts
  rcases claimSecurityReply_ok h with ⟨rfl, rfl, -⟩ | ⟨rfl, -, -, ⟨hn, rfl⟩ | ⟨⟨r, hr, hs⟩, rfl⟩⟩
  · simp
  · rw [reply_claimed]
    by_cases hk : ri = ri' ∧ k = k'
    · obtain ⟨rfl, rfl⟩ := hk
      simp [hn, newReply]
    · simp [hk]
  · rw [reply_reclaimed]
    by_cases hk : ri = ri' ∧ k = k'
    · obtain ⟨rfl, rfl⟩ := hk
      simp [hr, hs]
    · simp [hk]

theorem attempts_step (d : Inbox) (op : Op) :
    (step d op).attempts ri k = d.attempts ri k + if handsOut ri k d op = true then 1 else 0 := by
  obtain ⟨now, call⟩ := op
  unfold step
  cases hr : (exec now call).run d with
  | error e =>
    rw [commit_error hr]
    cases call with
    | claimReply ri' k' event =>
      replace hr : (claimSecurityReply now ri' k' event).run d = .error e := hr
      simp [handsOut, answersTrue_error hr]
    | _ => rfl
  | ok a =>
    obtain ⟨b, d'⟩ := a
    rw [commit_ok hr]
    cases call with
    | claimReply ri' k' event =>
      replace hr : (claimSecurityReply now ri' k' event).run d = .ok (b, d') := hr
      simp [claimSecurityReply_attempts hr, handsOut, answersTrue_ok hr]
    | _ => exact attempts_within rfl (exec_within _ hr)

/-- In every state the calls reach, a reply that is not known to have failed is not handed out, and
one that is handed out again has failed; a report has one fix-live reply; and a reply counts how
often it was handed out. -/
theorem reply_ledger (l : List Op) :
    let d := run step .empty l
    (∀ i r, d.replies.get i = some r → r.status ≠ .failed → ∀ now event,
      (claimSecurityReply now r.reportId r.kind event).run d = .ok (false, d)) ∧
    (∀ op i r, d.replies.get i = some r → handsOut r.reportId r.kind d op = true →
      r.status = .failed) ∧
    (∀ i j r q, d.replies.get i = some r → d.replies.get j = some q → r.reportId = q.reportId →
      r.kind = q.kind ∨ (r.kind.isFixLive = true ∧ q.kind.isFixLive = true) → i = j) ∧
    ∀ ri k, d.attempts ri k =
      total step (fun d op => if handsOut ri k d op = true then 1 else 0) .empty l := by
  have hu := unique_run l
  refine ⟨fun i r hr hs now event => ?_, fun op i r hr ho => ?_, ?_, fun ri k => ?_⟩
  · exact claimSecurityReply_refused (reply_eq_some hu hr) hs now event
  · by_contra hs
    unfold handsOut at ho
    split at ho
    · rename_i now ri' k' event
      rw [Bool.and_eq_true, Bool.and_eq_true, decide_eq_true_eq, decide_eq_true_eq] at ho
      obtain ⟨⟨rfl, rfl⟩, ho⟩ := ho
      obtain ⟨d', hd'⟩ := answersTrue_iff.mp ho
      rw [claimSecurityReply_refused (reply_eq_some hu hr) hs now event] at hd'
      cases hd'
    · cases ho
  · rintro i j r q hr hq hri (hk | ⟨hr', hq'⟩)
    · exact hu.reply hr hq rfl (by rw [SecurityReply.key, hri, hk])
    · exact hu.fixLive hr hq (fixLiveKey_eq_some.mpr ⟨hr', hri⟩) (fixLiveKey_eq_some.mpr ⟨hq', rfl⟩)
  · have h := run_total (g := (Inbox.attempts · ri k)) (I := fun _ => True) (fun _ _ _ => trivial)
      (fun d op _ => attempts_step d op) (s := .empty) trivial l
    rwa [show Inbox.empty.attempts ri k = 0 from rfl, Nat.zero_add] at h

end Claudear.Storage.Security
