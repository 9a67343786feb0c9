import Claudear.Storage.Accounts
import Mathlib.Algebra.Group.Nat.Defs

/-!
# The life of an invite

An invite is open until it is accepted or revoked, and nothing opens it again.
A token belongs to one invite, so a token whose invite is closed (`Spent`) is
never accepted afterwards. Accepting an invite activates an invited user; an
active user is no invited one, so no invite reaches them.
-/

namespace Claudear.Storage.Users

open Claudear.Core Claudear.Sql Claudear.Sql.Tx Claudear.Machine Directory

variable {L : Libraries}

/-! ## Invariants -/

/-- The indexes of `user_invites`: a token is stored once, and a user has one open invite. -/
structure InvitesStored (is : Table InviteRow) : Prop where
  token : Table.Unique (fun c : InviteRow => some c.tokenHash) is
  oneOpen : Table.Unique (fun c : InviteRow => if c.isOpen then some c.userId else none) is

/-- The token is stored, and its invite is accepted or revoked. -/
structure Spent (t : String) (is : Table InviteRow) : Prop where
  stored : is.Has fun c => c.tokenHash = t
  closed : ∀ i c, is.get i = some c → c.tokenHash = t → c.isOpen = false

def IsActive (u : Nat) (us : Table UserRow) : Prop := ∃ c, us.get u = some c ∧ c.status = .active

theorem Account.invitesStored (a a' : Table UserRow × Table InviteRow) (h : Account L a a')
    (ha : InvitesStored a.2) : InvitesStored a'.2 := by
  cases h with
  | insertUser => exact ha
  | setUser => exact ha
  | @close us is p f hf =>
    constructor
    · exact ha.token.update fun c k hk => by rwa [(hf c).1] at hk
    · refine ha.oneOpen.update fun c k hk => ?_
      simp only [(hf c).2.2] at hk
      cases hk
  | @invite us is c ht ho =>
    constructor
    · refine ha.token.insert fun k hk i r hr e => ht i r hr ?_
      exact Option.some.inj (e.trans hk.symm)
    · refine ha.oneOpen.insert fun k hk i r hr e => ?_
      have hc : c.userId = k := by
        split at hk
        · exact Option.some.inj hk
        · cases hk
      split at e
      · rename_i hr'
        have hrk : r.userId = k := Option.some.inj e
        rw [ho i r hr (hrk.trans hc.symm)] at hr'
        cases hr'
      · cases e

/-- Closing invites opens none. -/
theorem Spent.close {t : String} {is : Table InviteRow} (h : Spent t is)
    {p : Nat × InviteRow → Bool} {f : InviteRow → InviteRow}
    (hf : ∀ c : InviteRow, (f c).tokenHash = c.tokenHash ∧ (f c).isOpen = false) :
    Spent t (is.update p f) := by
  constructor
  · obtain ⟨i, c, hc, e⟩ := h.stored
    by_cases hp : p (i, c) = true
    · exact ⟨i, f c, Table.get_update_of hc hp, (hf c).1.trans e⟩
    · exact ⟨i, c, Table.get_update_of_not hc (Bool.eq_false_iff.mpr hp), e⟩
  · intro i r hr e
    obtain ⟨c, hc, ⟨-, rfl⟩ | ⟨-, rfl⟩⟩ := Table.get_update_cases hr
    · exact (hf c).2
    · exact h.closed i r hc e

/-- Closing the invite of a token spends the token. -/
theorem InvitesStored.spent_close {is : Table InviteRow} (h : InvitesStored is) {i : Nat}
    {c : InviteRow} (hc : is.get i = some c) {p : Nat × InviteRow → Bool}
    {f : InviteRow → InviteRow} (hp : c.isOpen = true → p (i, c) = true)
    (hf : ∀ c : InviteRow, (f c).tokenHash = c.tokenHash ∧ (f c).isOpen = false) :
    Spent c.tokenHash (is.update p f) := by
  constructor
  · by_cases hp' : p (i, c) = true
    · exact ⟨i, f c, Table.get_update_of hc hp', (hf c).1⟩
    · exact ⟨i, c, Table.get_update_of_not hc (Bool.eq_false_iff.mpr hp'), rfl⟩
  · intro j r hr e
    obtain ⟨b, hb, ⟨-, rfl⟩ | ⟨hq, rfl⟩⟩ := Table.get_update_cases hr
    · exact (hf b).2
    · have hj : j = i := h.token hb hc (congrArg some e) rfl
      subst hj
      rw [Option.some.inj (hb.symm.trans hc)] at hq ⊢
      by_contra ho
      rw [hp (Bool.not_eq_false _ ▸ ho)] at hq
      cases hq

theorem Account.spent (t : String) (a a' : Table UserRow × Table InviteRow) (h : Account L a a')
    (ha : Spent t a.2) : Spent t a'.2 := by
  cases h with
  | insertUser => exact ha
  | setUser => exact ha
  | close hf => exact ha.close fun c => ⟨(hf c).1, (hf c).2.2⟩
  | @invite us is c ht ho =>
    obtain ⟨j, r, hr, e⟩ := ha.stored
    refine ⟨⟨j, r, Table.get_insert_of hr, e⟩, fun i r' hr' e' => ?_⟩
    rcases Table.get_insert_cases hr' with ⟨-, rfl⟩ | hr'
    · exact absurd (e.trans e'.symm) (ht j r hr)
    · exact ha.closed i r' hr' e'

theorem Account.isActive (u : Nat) (a a' : Table UserRow × Table InviteRow) (h : Account L a a')
    (ha : IsActive u a.1) : IsActive u a'.1 := by
  obtain ⟨c, hc, hs⟩ := ha
  cases h with
  | insertUser => exact ⟨c, Table.get_insert_of hc, hs⟩
  | @setUser us is v f hf he =>
    by_cases hv : u = v
    · refine ⟨f c, Table.get_update_of hc (by simpa using hv), ?_⟩
      rcases hf c with h | h
      · rw [h, hs]
      · exact h
    · exact ⟨c, Table.get_update_of_not hc (by simpa using hv), hs⟩
  | close => exact ⟨c, hc, hs⟩
  | invite => exact ⟨c, hc, hs⟩

theorem invitesStored_run (l : List Call) :
    InvitesStored (run (step L) Directory.empty l).invites :=
  run_accounts (P := fun a => InvitesStored a.2) Account.invitesStored
    ⟨Table.unique_empty, Table.unique_empty⟩ l

/-! ## Accepting -/

theorem claimable_iff {d : Directory} {now : Timestamp} {t : String} {r : Nat × InviteRow} :
    d.claimable L now t r = true ↔ r.2.tokenHash = t ∧ r.2.isOpen = true ∧
      r.2.unexpired L now = true ∧ ∃ c, d.users.get r.2.userId = some c ∧ c.status = .invited := by
  simp only [Directory.claimable, Bool.and_eq_true, decide_eq_true_eq, Option.any_eq_true,
    and_assoc]

/-- Without an invite to claim the call changes nothing. -/
theorem acceptInvite_none {d : Directory} {now : Timestamp} {t pw : String}
    (h : d.invites.first (d.claimable L now t) = none) :
    (acceptInvite L now t pw).run d = .ok (none, d) := by
  have hc : (claimInvite L now t).run d = .ok (none, d) := by
    show Except.ok _ = _
    rw [h, Table.update_of_first_none h]
    rfl
  unfold acceptInvite
  rw [StateT.run_bind, hc]
  rfl

/-- The row an activation leaves. -/
def activated (now : Timestamp) (pw : String) (c : UserRow) : UserRow :=
  { c with passwordHash := pw, status := .active, updatedAt := now }

theorem activate_run {d : Directory} {u : Nat} {c : UserRow} (h : d.users.get u = some c)
    (now : Timestamp) (pw : String) :
    (activate now u pw).run d = .ok (true, { d with
      users := d.users.update (·.1 = u) (activated now pw)
      invites := d.invites.update (fun r => r.2.userId = u ∧ r.2.isOpen) fun c =>
        { c with revokedAt := some now } }) := by
  have hn : d.users.count (·.1 = u) ≠ 0 :=
    Nat.pos_iff_ne_zero.mp (Table.count_pos.mpr ⟨u, c, h, decide_eq_true rfl⟩)
  have hs : (setUser u (activated now pw)).run d =
      .ok (d.users.count (·.1 = u), { d with users := d.users.update (·.1 = u) (activated now pw) }) :=
    rfl
  unfold activate
  rw [StateT.run_bind]
  change ((setUser u (activated now pw)).run d >>= _) = _
  rw [hs]
  show StateT.run (if d.users.count (·.1 = u) = 0 then _ else _) _ = _
  rw [if_neg hn]
  rfl

theorem readUser_run {d : Directory} {u : Nat} {c : UserRow} (h : d.users.get u = some c) :
    (readUser u).run d = .ok ((u, c), d) := by
  simp only [readUser, StateT.run, Table.first_key h]
  rfl

/-- Accepting activates the invited user and spends the token. -/
theorem acceptInvite_some {d : Directory} (hd : InvitesStored d.invites) {now : Timestamp}
    {t : String} {i : Nat} {c : InviteRow}
    (h : d.invites.first (d.claimable L now t) = some (i, c)) (pw : String) :
    ∃ r d', (acceptInvite L now t pw).run d = .ok (some r, d') ∧
      d'.users = d.users.update (·.1 = c.userId) (activated now pw) ∧ Spent t d'.invites := by
  obtain ⟨u, hu, -⟩ := (claimable_iff.mp (Table.first_get h).2).2.2.2
  let is := d.invites.update (d.claimable L now t) fun c => { c with acceptedAt := some now }
  have hclaim : (claimInvite L now t).run d = .ok (some c.userId, { d with invites := is }) := by
    show Except.ok _ = _
    rw [h]
    rfl
  have hact := activate_run (d := { d with invites := is }) hu now pw
  let d' : Directory :=
    { d with
      users := d.users.update (·.1 = c.userId) (activated now pw)
      invites := is.update (fun r => r.2.userId = c.userId ∧ r.2.isOpen) fun c =>
        { c with revokedAt := some now } }
  have hread : (readUser c.userId).run d' = .ok ((c.userId, activated now pw u), d') :=
    readUser_run (Table.get_update_of hu (decide_eq_true rfl))
  refine ⟨(c.userId, activated now pw u), d', ?_, rfl, ?_⟩
  · unfold acceptInvite
    rw [StateT.run_bind, hclaim]
    show ((activate now c.userId pw).run _ >>= _) = _
    rw [hact]
    show ((readUser c.userId).run d' >>= _) = _
    rw [hread]
    rfl
  · have hs : Spent c.tokenHash is :=
      hd.spent_close (Table.first_get h).1 (fun _ => (Table.first_get h).2) fun c =>
        ⟨rfl, by simp [InviteRow.isOpen]⟩
    rw [(claimable_iff.mp (Table.first_get h).2).1] at hs
    exact hs.close fun c => ⟨rfl, by simp [InviteRow.isOpen]⟩

/-- The call is answered with the user whose invite had this token. -/
def accepts (L : Libraries) (t : String) (d : Directory) (c : Call) : Bool :=
  match c.op with
  | .acceptInvite t' pw =>
    t' = t && match (acceptInvite L c.now t' pw).run d with
      | .ok (some _, _) => true
      | _ => false
  | _ => false

/-- How many calls of the run accept the token. -/
def acceptances (L : Libraries) (t : String) (d : Directory) (l : List Call) : Nat :=
  total (step L) (fun d c => if accepts L t d c then 1 else 0) d l

theorem accepts_eq_true {t : String} {d : Directory} {c : Call} (h : accepts L t d c = true) :
    ∃ pw r, c = ⟨c.now, .acceptInvite t pw⟩ ∧
      d.invites.first (d.claimable L c.now t) = some r := by
  obtain ⟨now, op⟩ := c
  cases op with
  | acceptInvite t' pw =>
    simp only [accepts, Bool.and_eq_true, decide_eq_true_eq] at h
    obtain ⟨rfl, h⟩ := h
    cases hf : d.invites.first (d.claimable L now t') with
    | none =>
      rw [acceptInvite_none hf] at h
      cases h
    | some r => exact ⟨pw, r, rfl, rfl⟩
  | _ => cases h

theorem step_acceptInvite (d : Directory) (now : Timestamp) (t pw : String) :
    step L d ⟨now, .acceptInvite t pw⟩ = (acceptInvite L now t pw).commit d :=
  commit_map (acceptInvite L now t pw) Reply.user d

theorem spent_of_accepts {t : String} {d : Directory} {c : Call} (hd : InvitesStored d.invites)
    (h : accepts L t d c = true) : Spent t (step L d c).invites := by
  obtain ⟨pw, ⟨i, r⟩, e, hf⟩ := accepts_eq_true h
  obtain ⟨u, d', hr, -, hs⟩ := acceptInvite_some hd hf pw
  rw [e, step_acceptInvite, commit_ok hr]
  exact hs

theorem not_accepts_of_spent {t : String} {d : Directory} {c : Call} (h : Spent t d.invites) :
    accepts L t d c = false := by
  by_contra ha
  obtain ⟨pw, ⟨i, r⟩, -, hf⟩ := accepts_eq_true (Bool.not_eq_false _ ▸ ha)
  obtain ⟨hg, hp⟩ := Table.first_get hf
  obtain ⟨ht, ho, -⟩ := claimable_iff.mp hp
  rw [h.closed i r hg ht] at ho
  cases ho

/-- The accept page shows an invite exactly when accepting it at that time would succeed. -/
theorem findOpenInvite_isSome {d : Directory} (hd : InvitesStored d.invites) (now : Timestamp)
    (t pw : String) :
    (findOpenInvite L now d t).isSome = accepts L t d ⟨now, .acceptInvite t pw⟩ := by
  unfold findOpenInvite
  cases hf : d.invites.first (d.claimable L now t) with
  | none => simp [accepts, acceptInvite_none hf]
  | some r =>
    obtain ⟨u, d', hr, -⟩ := acceptInvite_some hd hf pw
    obtain ⟨c, hc, -⟩ := (claimable_iff.mp (Table.first_get hf).2).2.2.2
    have hc' : d.users.get r.2.userId = some c := hc
    simp [accepts, hr, hc']

/-! ## Runs -/

theorem acceptances_spent {t : String} {d : Directory} (h : Spent t d.invites) (l : List Call) :
    acceptances L t d l = 0 := by
  induction l generalizing d with
  | nil => rfl
  | cons c l ih =>
    have hs : Spent t (step L d c).invites :=
      step_accounts (P := fun a => Spent t a.2) (Account.spent t) c h
    show (if accepts L t d c then 1 else 0) + acceptances L t (step L d c) l = 0
    rw [not_accepts_of_spent h, ih hs]
    rfl

theorem acceptances_le_one {t : String} {d : Directory} (h : InvitesStored d.invites)
    (l : List Call) : acceptances L t d l ≤ 1 := by
  induction l generalizing d with
  | nil => exact Nat.zero_le 1
  | cons c l ih =>
    show (if accepts L t d c then 1 else 0) + acceptances L t (step L d c) l ≤ 1
    by_cases ha : accepts L t d c = true
    · rw [if_pos ha, acceptances_spent (spent_of_accepts h ha)]
    · rw [if_neg ha, Nat.zero_add]
      exact ih (step_accounts (P := fun a => InvitesStored a.2) Account.invitesStored c h)

/-! ## Ending the open invites of a user -/

theorem revokeOpenInvites_spends {d d' : Directory} (hd : InvitesStored d.invites)
    {now : Timestamp} {u n : Nat} (h : (revokeOpenInvites now u).run d = .ok (n, d')) {i : Nat}
    {c : InviteRow} (hc : d.invites.get i = some c) (hu : c.userId = u) :
    Spent c.tokenHash d'.invites := by
  cases h
  refine hd.spent_close hc (fun ho => decide_eq_true ⟨hu, ho⟩) fun c => ⟨rfl, ?_⟩
  simp [InviteRow.isOpen]

/-- A token spent in the middle of a program is spent at its end. -/
theorem spent_of_within {α : Type} {m : DirTx α} (h : Within (AccountStep L) m) {t : String}
    {d d' : Directory} {a : α} (hr : m.run d = .ok (a, d')) (hs : Spent t d.invites) :
    Spent t d'.invites :=
  preserved_accounts (P := fun a => Spent t a.2) (Account.spent t) (within_of_step h) hr hs

theorem revokeInvite_spends {d d' : Directory} (hd : InvitesStored d.invites) {now : Timestamp}
    {u : Nat} {b : Bool} (h : (revokeInvite now u).run d = .ok (b, d')) {i : Nat} {c : InviteRow}
    (hc : d.invites.get i = some c) (hu : c.userId = u) : Spent c.tokenHash d'.invites := by
  obtain ⟨n, d₁, h₁, h₂⟩ := run_bind h
  obtain ⟨-, rfl⟩ := run_pure h₂
  exact revokeOpenInvites_spends hd h₁ hc hu

theorem issueInvite_spends (L : Libraries) {d d' : Directory} (hd : InvitesStored d.invites)
    {now : Timestamp} {u createdBy : Nat} {tokenHash expiresAt rowId : String} {r : InviteRow}
    (h : (issueInvite now u tokenHash expiresAt createdBy rowId).run d = .ok (r, d')) {i : Nat}
    {c : InviteRow} (hc : d.invites.get i = some c) (hu : c.userId = u) :
    Spent c.tokenHash d'.invites := by
  obtain ⟨id, d₁, h₁, h₂⟩ := run_bind h
  obtain ⟨n, d₂, h₃, h₄⟩ := run_bind h₁
  obtain ⟨_, d₃, h₅, h₆⟩ := run_bind h₄
  obtain ⟨-, rfl⟩ := run_pure h₆
  have hs : Spent c.tokenHash d₂.invites := revokeOpenInvites_spends hd h₃ hc hu
  have hs' := spent_of_within (insertInvite_within (L := L) _) h₅ hs
  exact spent_of_within (readInvite_within (L := L) _) h₂ hs'

theorem activateUser_spends {d d' : Directory} (hd : InvitesStored d.invites) {now : Timestamp}
    {u : Nat} {pw : String} (h : (activateUser now u pw).run d = .ok (true, d')) {i : Nat}
    {c : InviteRow} (hc : d.invites.get i = some c) (hu : c.userId = u) :
    Spent c.tokenHash d'.invites := by
  obtain ⟨n, d₁, h₁, h₂⟩ := run_bind h
  have hi : d₁.invites = d.invites := by
    cases h₁
    rfl
  rw [← hi] at hd hc
  split at h₂
  · obtain ⟨hb, -⟩ := run_pure h₂
    cases hb
  · obtain ⟨m, d₂, h₃, h₄⟩ := run_bind h₂
    obtain ⟨-, rfl⟩ := run_pure h₄
    exact revokeOpenInvites_spends hd h₃ hc hu

/-! ## Active users -/

/-- An invite reaches invited users only. -/
theorem acceptInvite_active {d : Directory} (hd : InvitesStored d.invites) {u : Nat} {c : UserRow}
    (hu : d.users.get u = some c) (hs : c.status = .active) (now : Timestamp) (t pw : String) :
    (step L d ⟨now, .acceptInvite t pw⟩).users.get u = some c := by
  rw [step_acceptInvite]
  cases hf : d.invites.first (d.claimable L now t) with
  | none => rwa [commit_ok (acceptInvite_none hf)]
  | some r =>
    obtain ⟨a, d', hr, hus, -⟩ := acceptInvite_some hd hf pw
    obtain ⟨c', hc', hs'⟩ := (claimable_iff.mp (Table.first_get hf).2).2.2.2
    rw [commit_ok hr, hus]
    refine Table.get_update_of_not hu (decide_eq_false fun e => ?_)
    have hu' : d.users.get u = some c' := (congrArg d.users.get e).trans hc'
    rw [Option.some.inj (hu.symm.trans hu'), hs'] at hs
    cases hs

theorem isActive_run {d : Directory} {u : Nat} (h : IsActive u d.users) (l : List Call) :
    IsActive u (run (step L) d l).users :=
  run_accounts (P := fun a => IsActive u a.1) (Account.isActive u) h l

/-- An expired invite is not accepted, and the call changes nothing. -/
theorem acceptInvite_expired {d : Directory} (hd : InvitesStored d.invites) {now : Timestamp}
    {i : Nat} {c : InviteRow} (hc : d.invites.get i = some c) (he : c.unexpired L now = false)
    (pw : String) : (acceptInvite L now c.tokenHash pw).run d = .ok (none, d) := by
  refine acceptInvite_none (Table.first_eq_none.mpr fun j r hr => ?_)
  by_contra hp
  obtain ⟨ht, -, hx, -⟩ := claimable_iff.mp (Bool.not_eq_false _ ▸ hp)
  have hj : j = i := hd.token hr hc (congrArg some ht) rfl
  subst hj
  rw [Option.some.inj (hr.symm.trans hc), he] at hx
  cases hx

/-- The life of an invite, over every run of the calls: a user has at most one open invite; a
token is accepted at most once, and not after its invite is accepted, revoked, superseded by a
new one or ended by an activation, nor when it is expired; an active user stays active, and
accepting any token leaves their row. -/
theorem invite_lifecycle (L : Libraries) (l : List Call) :
    let d := run (step L) Directory.empty l
    (∀ i j c c', d.invites.get i = some c → d.invites.get j = some c' → c.isOpen = true →
      c'.isOpen = true → c.userId = c'.userId → i = j) ∧
    (∀ t, acceptances L t Directory.empty l ≤ 1) ∧
    (∀ i c, d.invites.get i = some c →
      (c.isOpen = false → ∀ m, acceptances L c.tokenHash d m = 0) ∧
      (∀ now b d', (revokeInvite now c.userId).run d = .ok (b, d') →
        ∀ m, acceptances L c.tokenHash d' m = 0) ∧
      (∀ now t expiresAt createdBy rowId r d',
        (issueInvite now c.userId t expiresAt createdBy rowId).run d = .ok (r, d') →
        ∀ m, acceptances L c.tokenHash d' m = 0) ∧
      (∀ now pw d', (activateUser now c.userId pw).run d = .ok (true, d') →
        ∀ m, acceptances L c.tokenHash d' m = 0) ∧
      ∀ now pw, c.unexpired L now = false →
        (acceptInvite L now c.tokenHash pw).run d = .ok (none, d)) ∧
    ∀ u c, d.users.get u = some c → c.status = .active → ∀ m,
      ∃ c', (run (step L) d m).users.get u = some c' ∧ c'.status = .active ∧
        ∀ now t pw, (step L (run (step L) d m) ⟨now, .acceptInvite t pw⟩).users.get u = some c' := by
  have h := invitesStored_run (L := L) l
  refine ⟨fun i j c c' hi hj ho ho' e => ?_, fun t => acceptances_le_one ?_ l, fun i c hc => ?_,
    fun u c hu hs m => ?_⟩
  · exact h.oneOpen hi hj (if_pos ho) ((if_pos ho').trans (congrArg some e.symm))
  · exact ⟨Table.unique_empty, Table.unique_empty⟩
  · refine ⟨fun ho => ?_, fun now b d' hr => ?_, fun now t x by' id r d' hr => ?_,
      fun now pw d' hr => ?_, fun now pw he => acceptInvite_expired h hc he pw⟩
    · refine acceptances_spent ⟨⟨i, c, hc, rfl⟩, fun j r hr e => ?_⟩
      have hj : j = i := h.token hr hc (congrArg some e) rfl
      subst hj
      rwa [Option.some.inj (hr.symm.trans hc)]
    · exact acceptances_spent (revokeInvite_spends h hr hc rfl)
    · exact acceptances_spent (issueInvite_spends L h hr hc rfl)
    · exact acceptances_spent (activateUser_spends h hr hc rfl)
  · obtain ⟨c', hc', hs'⟩ := isActive_run (L := L) ⟨c, hu, hs⟩ m
    have hm : InvitesStored (run (step L) (run (step L) Directory.empty l) m).invites := by
      rw [← run_append]
      exact invitesStored_run (l ++ m)
    exact ⟨c', hc', hs', fun now t pw => acceptInvite_active hm hc' hs' now t pw⟩

end Claudear.Storage.Users
