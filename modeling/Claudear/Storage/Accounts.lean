import Claudear.Storage.Users

/-!
# What the calls do to users and invites

`Account` is what one statement may do to the tables `users` and `user_invites`;
`exec_within` says that every call is a chain of such statements. An invariant
of these two tables is a case analysis over `Account` and looks at no call
again. The calls that write users or invites leave identities and handles as
they are (`AccountStep`).
-/

namespace Claudear.Storage.Users

open Claudear.Core Claudear.Sql Claudear.Sql.Tx Claudear.Machine Relation

variable {L : Libraries}

/-- The form emails are stored in. -/
def Normalized (L : Libraries) (email : String) : Prop :=
  normalizeLoginEmail L.caseProps email = email

inductive Account (L : Libraries) :
    Table UserRow × Table InviteRow → Table UserRow × Table InviteRow → Prop
  | insertUser {us is c} (hn : Normalized L c.email)
      (hu : ∀ i r, us.get i = some r → r.email ≠ c.email) : Account L (us, is) (us.insert c, is)
  | setUser {us is u f} (hs : ∀ c : UserRow, (f c).status = c.status ∨ (f c).status = .active)
      (he : (∀ c, (f c).email = c.email) ∨ ∃ e, Normalized L e ∧ (∀ c, (f c).email = e) ∧
        ∀ i r, us.get i = some r → i ≠ u → r.email ≠ e) :
      Account L (us, is) (us.update (·.1 = u) f, is)
  /-- Open invites are accepted or revoked. -/
  | close {us is p f} (hf : ∀ c : InviteRow, (f c).tokenHash = c.tokenHash ∧
      (f c).userId = c.userId ∧ (f c).isOpen = false) : Account L (us, is) (us, is.update p f)
  | invite {us is c} (ht : ∀ i r, is.get i = some r → r.tokenHash ≠ c.tokenHash)
      (ho : ∀ i r, is.get i = some r → r.userId = c.userId → r.isOpen = false) :
      Account L (us, is) (us, is.insert c)

namespace Directory

def accounts (d : Directory) : Table UserRow × Table InviteRow := (d.users, d.invites)

def owned (d : Directory) : Table IdentityRow × Table HandleRow := (d.identities, d.handles)

/-- A chain of statements on users and invites, beside any on the other tables. -/
def Changes (L : Libraries) (d d' : Directory) : Prop :=
  ReflTransGen (Account L) d.accounts d'.accounts

/-- A chain of statements on users and invites only. -/
def AccountStep (L : Libraries) (d d' : Directory) : Prop := d.Changes L d' ∧ d'.owned = d.owned

instance : Std.Refl (Changes L) := ⟨fun _ => .refl⟩

instance : IsTrans Directory (Changes L) := ⟨fun _ _ _ => .trans⟩

instance : Std.Refl (AccountStep L) := ⟨fun _ => ⟨.refl, rfl⟩⟩

instance : IsTrans Directory (AccountStep L) :=
  ⟨fun _ _ _ h h' => ⟨h.1.trans h'.1, h'.2.trans h.2⟩⟩

theorem AccountStep.single {d d' : Directory} (h : Account L d.accounts d'.accounts)
    (ho : d'.owned = d.owned) : d.AccountStep L d' := ⟨.single h, ho⟩

theorem Changes.of_accounts {d d' : Directory} (h : d'.accounts = d.accounts) :
    d.Changes L d' := by
  unfold Changes
  rw [h]

end Directory

open Directory

/-! ## Statements -/

theorem ensureLoginEmailAvailable_within (email : String) (except : Option Nat) :
    Within (AccountStep L) (ensureLoginEmailAvailable email except) := by
  intro d a d' h
  obtain ⟨-, h⟩ := require_bind h
  cases h
  exact refl_of _ d

theorem checkEmailIndex_ok {email : String} {except : Option Nat} {d d' : Directory} {u : Unit}
    (h : (checkEmailIndex email except).run d = .ok (u, d')) :
    d' = d ∧ ∀ i r, d.users.get i = some r → (∀ j ∈ except, j ≠ i) → r.email ≠ email := by
  obtain ⟨hc, h⟩ := require_bind h
  cases h
  refine ⟨rfl, fun i r hr hi he => ?_⟩
  rw [Bool.eq_false_iff, ne_eq, Table.any_eq_true] at hc
  refine hc ⟨i, r, hr, ?_⟩
  simpa [he, Option.all_eq_true] using hi

theorem insertUser_within {c : UserRow} (hn : Normalized L c.email) :
    Within (AccountStep L) (insertUser c) := by
  intro d n d' h
  obtain ⟨u, d₁, h₁, h₂⟩ := run_bind h
  obtain ⟨rfl, hu⟩ := checkEmailIndex_ok h₁
  cases h₂
  exact .single (.insertUser hn fun i r hr => hu i r hr nofun) rfl

/-- A statement that leaves the login email. -/
theorem setUser_within {u : Nat} {f : UserRow → UserRow}
    (hs : ∀ c, (f c).status = c.status ∨ (f c).status = .active)
    (he : ∀ c, (f c).email = c.email) : Within (AccountStep L) (setUser u f) := by
  intro d n d' h
  cases h
  exact .single (.setUser hs (.inl he)) rfl

theorem revokeOpenInvites_within (now : Timestamp) (u : Nat) :
    Within (AccountStep L) (revokeOpenInvites now u) := by
  intro d n d' h
  cases h
  exact .single (.close fun c => ⟨rfl, rfl, by simp [InviteRow.isOpen]⟩) rfl

theorem claimInvite_within (now : Timestamp) (t : String) :
    Within (AccountStep L) (claimInvite L now t) := by
  intro d n d' h
  cases h
  exact .single (.close fun c => ⟨rfl, rfl, by simp [InviteRow.isOpen]⟩) rfl

theorem insertInvite_within (c : InviteRow) : Within (AccountStep L) (insertInvite c) := by
  intro d n d' h
  obtain ⟨-, h⟩ := require_bind h
  obtain ⟨ht, h⟩ := require_bind h
  obtain ⟨ho, h⟩ := require_bind h
  obtain ⟨-, h⟩ := require_bind h
  cases h
  rw [Bool.eq_false_iff, ne_eq, Table.any_eq_true] at ht ho
  refine .single (.invite (fun i r hr e => ht ⟨i, r, hr, by simpa using e⟩) ?_) rfl
  intro i r hr e
  by_contra hne
  exact ho ⟨i, r, hr, by simpa [e] using hne⟩

theorem readInvite_within (id : String) : Within (AccountStep L) (readInvite id) := by
  intro d c d' h
  simp only [readInvite, StateT.run] at h
  split at h
  · cases h
    exact refl_of _ d
  · cases h

theorem readUser_within (u : Nat) : Within (AccountStep L) (readUser u) := by
  intro d c d' h
  simp only [readUser, StateT.run] at h
  split at h
  · cases h
    exact refl_of _ d
  · cases h

/-! ## Programs on users and invites -/

theorem checkNewEmail_ok {u : Nat} {email : String} {d d' : Directory} {a : Unit}
    (h : (checkNewEmail u (some email)).run d = .ok (a, d')) :
    d' = d ∧ ∀ i r, d.users.get i = some r → i ≠ u → r.email ≠ email := by
  obtain ⟨_, d₁, h₁, h₂⟩ := run_bind h
  obtain ⟨-, h₁⟩ := require_bind h₁
  cases h₁
  obtain ⟨rfl, hu⟩ := checkEmailIndex_ok h₂
  exact ⟨rfl, fun i r hr hi => hu i r hr fun j hj => by cases hj; exact hi.symm⟩

theorem createUser_within (now : Timestamp) (email passwordHash name : String) (role : Role) :
    Within (AccountStep L) (createUser L now email passwordHash name role) :=
  (ensureLoginEmailAvailable_within _ _).bind fun _ =>
    insertUser_within (normalizeLoginEmail_idem email)

theorem updateUser_within (now : Timestamp) (u : Nat) (email passwordHash name : Option String)
    (role : Option Role) (avatarUrl : Option String) :
    Within (AccountStep L) (updateUser L now u email passwordHash name role avatarUrl) := by
  cases email with
  | none =>
    refine (Within.pure _).bind fun _ => ?_
    split
    · exact Within.pure _
    · refine Within.bind (setUser_within ?_ ?_) fun _ => Within.pure _
      · exact fun _ => .inl rfl
      · exact fun _ => rfl
  | some email =>
    intro d a d' h
    obtain ⟨_, d₁, h₁, h₂⟩ := run_bind h
    obtain ⟨rfl, hu⟩ := checkNewEmail_ok h₁
    obtain ⟨n, d₂, h₂, h₃⟩ := run_bind h₂
    obtain ⟨-, rfl⟩ := run_pure h₃
    cases h₂
    refine .single (.setUser (fun _ => .inl rfl) (.inr ⟨_, ?_, fun _ => rfl, hu⟩)) rfl
    exact normalizeLoginEmail_idem email

theorem replaceInvite_within (now : Timestamp) (u : Nat) (tokenHash expiresAt : String)
    (createdBy : Nat) (rowId : String) :
    Within (AccountStep L) (replaceInvite now u tokenHash expiresAt createdBy rowId) :=
  (revokeOpenInvites_within now u).bind fun _ =>
    (insertInvite_within _).bind fun _ => Within.pure _

theorem activate_within (now : Timestamp) (u : Nat) (passwordHash : String) :
    Within (AccountStep L) (activate now u passwordHash) := by
  refine Within.bind (setUser_within ?_ ?_) fun n => ?_
  · exact fun _ => .inr rfl
  · exact fun _ => rfl
  split
  · exact Within.pure _
  · exact (revokeOpenInvites_within now u).bind fun _ => Within.pure _

theorem issueInvite_within (now : Timestamp) (u : Nat) (tokenHash expiresAt : String)
    (createdBy : Nat) (rowId : String) :
    Within (AccountStep L) (issueInvite now u tokenHash expiresAt createdBy rowId) :=
  (replaceInvite_within now u tokenHash expiresAt createdBy rowId).bind fun _ =>
    readInvite_within _

theorem revokeInvite_within (now : Timestamp) (u : Nat) :
    Within (AccountStep L) (revokeInvite now u) :=
  (revokeOpenInvites_within now u).bind fun _ => Within.pure _

theorem acceptInvite_within (now : Timestamp) (tokenHash passwordHash : String) :
    Within (AccountStep L) (acceptInvite L now tokenHash passwordHash) := by
  refine (claimInvite_within now tokenHash).bind fun claimed => ?_
  cases claimed with
  | none => exact Within.pure _
  | some u =>
    exact (activate_within now u passwordHash).bind fun _ =>
      (readUser_within u).bind fun _ => Within.pure _

theorem writeDirectoryUser_within (now : Timestamp) (user : DirectoryUser) :
    Within (AccountStep L) (writeDirectoryUser L now user) := by
  cases user with
  | existing u name role =>
    refine Within.bind (setUser_within ?_ ?_) fun n => ?_
    · exact fun _ => .inl rfl
    · exact fun _ => rfl
    split
    · exact Within.throw _
    · exact Within.pure _
  | new email name role passwordHash status =>
    exact (ensureLoginEmailAvailable_within _ _).bind fun _ =>
      insertUser_within (normalizeLoginEmail_idem email)

theorem writeOptInvite_within (now : Timestamp) (u : Nat) (invite : Option InviteWrite) :
    Within (AccountStep L) (writeOptInvite now u invite) := by
  cases invite with
  | none => exact Within.pure _
  | some invite =>
    exact (replaceInvite_within now u _ _ _ _).bind fun _ => Within.pure _

/-! ## Programs on identities and handles -/

theorem putIdentities_accounts (c : IdentityRow) : Keeps accounts (putIdentities c) := by
  intro d a d' h
  obtain ⟨-, h⟩ := require_bind h
  obtain ⟨-, h⟩ := require_bind h
  cases h
  rfl

theorem dropIdentities_accounts (u : Nat) : Keeps accounts (dropIdentities u) := by
  intro d n d' h
  cases h
  rfl

theorem releaseHandles_accounts (u : Nat) : Keeps accounts (releaseHandles u) := by
  intro d n d' h
  cases h
  rfl

theorem claimHandle_accounts (c : HandleRow) : Keeps accounts (claimHandle c) := by
  intro d a d' h
  obtain ⟨-, h⟩ := require_bind h
  obtain ⟨-, h⟩ := require_bind h
  cases h
  rfl

theorem claimHandles_accounts (u : Nat) (ids : Identities) :
    Keeps accounts (claimHandles L u ids) := by
  unfold claimHandles
  exact Within.forM (fun h => claimHandle_accounts _) _

theorem writeOptIdentities_accounts (now : Timestamp) (claims : Claims) (u : Nat)
    (write : Option IdentityWrite) : Keeps accounts (writeOptIdentities now claims u write) := by
  cases write with
  | none => exact Within.pure _
  | some write =>
    exact (putIdentities_accounts _).bind fun _ =>
      (releaseHandles_accounts u).bind fun _ => Within.pure _

/-! ## Calls -/

theorem within_of_step {α : Type} {m : DirTx α} (h : Within (AccountStep L) m) :
    Within (Changes L) m :=
  h.mono fun _ _ h => h.1

theorem within_of_accounts {α : Type} {m : DirTx α} (h : Keeps accounts m) :
    Within (Changes L) m :=
  h.mono fun _ _ h => .of_accounts h

theorem writeEntries_within (now : Timestamp) (claims : Claims) (writes : List DirectoryWrite) :
    Within (Changes L) (writeEntries L now claims writes) := by
  induction writes generalizing claims with
  | nil => exact Within.pure _
  | cons write writes ih =>
    refine (within_of_step (writeDirectoryUser_within now write.user)).bind fun u => ?_
    refine (within_of_accounts (writeOptIdentities_accounts now claims u _)).bind fun claims => ?_
    refine (within_of_step (writeOptInvite_within now u write.invite)).bind fun _ => ?_
    exact (ih claims).bind fun _ => Within.pure _

theorem saveDirectory_within (now : Timestamp) (writes : List DirectoryWrite) :
    Within (Changes L) (saveDirectory L now writes) := by
  unfold saveDirectory
  split
  · exact Within.throw _
  · refine (writeEntries_within now ∅ writes).bind fun r => ?_
    refine (Within.forM (fun c => ?_) _).bind fun _ => Within.pure _
    exact within_of_accounts (claimHandles_accounts c.1 c.2)

theorem deleteUserIdentities_accounts (u : Nat) : Keeps accounts (deleteUserIdentities u) :=
  (releaseHandles_accounts u).bind fun _ => (dropIdentities_accounts u).bind fun _ => Within.pure _

/-- Every call is a chain of statements on users and invites. -/
theorem exec_within (L : Libraries) (c : Call) : Within (Changes L) (exec L c) := by
  obtain ⟨now, op⟩ := c
  cases op with
  | createUser => exact (within_of_step (createUser_within ..)).map _
  | updateUser => exact (within_of_step (updateUser_within ..)).map _
  | deleteUserIdentities => exact (within_of_accounts (deleteUserIdentities_accounts _)).map _
  | saveDirectory => exact (saveDirectory_within ..).map _
  | issueInvite => exact (within_of_step (issueInvite_within ..)).map _
  | revokeInvite => exact (within_of_step (revokeInvite_within ..)).map _
  | acceptInvite => exact (within_of_step (acceptInvite_within ..)).map _
  | activateUser => exact (within_of_step (activate_within ..)).map _

/-! ## Invariants -/

/-- What every statement keeps, a chain of statements keeps. -/
theorem Directory.Changes.inv {P : Table UserRow × Table InviteRow → Prop}
    (hP : ∀ a a', Account L a a' → P a → P a') {d d' : Directory} (h : d.Changes L d')
    (hd : P d.accounts) : P d'.accounts := by
  have key : ∀ a, ReflTransGen (Account L) d.accounts a → P a := by
    intro a ha
    induction ha with
    | refl => exact hd
    | tail _ ha ih => exact hP _ _ ha ih
  exact key _ h

theorem preserved_accounts {P : Table UserRow × Table InviteRow → Prop}
    (hP : ∀ a a', Account L a a' → P a → P a') {α : Type} {m : DirTx α}
    (h : Within (Changes L) m) : Within (Preserved fun d : Directory => P d.accounts) m :=
  h.mono fun _ _ hc hd => hc.inv hP hd

/-- An invariant of users and invites that every statement keeps is kept by every call. -/
theorem step_accounts {P : Table UserRow × Table InviteRow → Prop}
    (hP : ∀ a a', Account L a a' → P a → P a') {d : Directory} (c : Call) (h : P d.accounts) :
    P (step L d c).accounts :=
  (preserved_accounts hP (exec_within L c)).commit h

theorem run_accounts {P : Table UserRow × Table InviteRow → Prop}
    (hP : ∀ a a', Account L a a' → P a → P a') {d : Directory} (h : P d.accounts)
    (l : List Call) : P (run (step L) d l).accounts :=
  run_inv (P := fun d : Directory => P d.accounts) (fun _ c => step_accounts hP c) h l

end Claudear.Storage.Users
