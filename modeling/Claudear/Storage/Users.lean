import Claudear.Core.Identity
import Claudear.Sql.Table
import Claudear.Sql.Tx
import Claudear.Machine.Run
import Claudear.Storage.Error

/-!
# The user directory

The `UserStore` calls on four tables: `users`, `user_identities`, `user_handles`
and `user_invites`. A call is one immediate transaction of SQL statements; a
failing statement rolls it back. Unique indexes and foreign keys are checked by
the statements that can break them, with SQLite's messages.

`Libraries` holds what the calls get from code outside the repository and use
as it is. No fact below assumes anything of it.
-/

namespace Claudear.Storage.Users

open Claudear.Core Claudear.Sql Claudear.Text

structure Libraries where
  caseProps : CaseProps
  /-- SQLite's `datetime` on a stored text; `none` is `NULL`. -/
  datetime : String → Option Timestamp

structure UserRow where
  email : String
  passwordHash : String
  name : String
  role : Role
  avatarUrl : Option String
  createdAt : Timestamp
  updatedAt : Timestamp
  status : UserStatus
  deriving DecidableEq, Repr

structure IdentityRow where
  userId : Nat
  slug : Option String
  identities : Identities
  updatedAt : Timestamp
  deriving DecidableEq, Repr

structure HandleRow where
  userId : Nat
  field : IdentityField
  value : String
  deriving DecidableEq, Repr

structure InviteRow where
  id : String
  userId : Nat
  tokenHash : String
  createdBy : Option Nat
  createdAt : Timestamp
  expiresAt : String
  acceptedAt : Option Timestamp
  revokedAt : Option Timestamp
  deriving DecidableEq, Repr

namespace InviteRow

/-- `accepted_at IS NULL AND revoked_at IS NULL`. -/
def isOpen (c : InviteRow) : Bool := c.acceptedAt.isNone && c.revokedAt.isNone

/-- `datetime(expires_at) > datetime('now')`; a text `datetime` cannot read is expired. -/
def unexpired (L : Libraries) (now : Timestamp) (c : InviteRow) : Bool :=
  (L.datetime c.expiresAt).any fun t => now < t

end InviteRow

structure Directory where
  users : Table UserRow
  identities : Table IdentityRow
  handles : Table HandleRow
  invites : Table InviteRow

def Directory.empty : Directory := ⟨.empty, .empty, .empty, .empty⟩

abbrev DirTx (α : Type) := Tx Directory Error α

/-! ## Statements on users -/

def DUPLICATE_LOGIN_EMAIL : String := "UNIQUE constraint failed: users.email"

/-- A user other than `except` has the email up to SQLite's `lower`. -/
def Directory.emailTaken (d : Directory) (email : String) (except : Option Nat) : Bool :=
  d.users.any fun r => r.2.email.toLower = email.toLower ∧ except.all (· ≠ r.1)

def ensureLoginEmailAvailable (email : String) (except : Option Nat) : DirTx Unit := fun d => do
  require (d.emailTaken email except = false) (.database DUPLICATE_LOGIN_EMAIL)
  return ((), d)

/-- The unique index of `users.email`, for a row other than `except`. -/
def checkEmailIndex (email : String) (except : Option Nat) : DirTx Unit := fun d => do
  require ((d.users.any fun r => r.2.email = email ∧ except.all (· ≠ r.1)) = false)
    (.database DUPLICATE_LOGIN_EMAIL)
  return ((), d)

def insertUser (c : UserRow) : DirTx Nat := do
  checkEmailIndex c.email none
  fun d => return (d.users.next, { d with users := d.users.insert c })

/-- `UPDATE users SET f WHERE id = ?`, with the number of rows it changed. -/
def setUser (userId : Nat) (f : UserRow → UserRow) : DirTx Nat := fun d =>
  return (d.users.count (·.1 = userId), { d with users := d.users.update (·.1 = userId) f })

def readUser (userId : Nat) : DirTx (Nat × UserRow) := fun d =>
  match d.users.first (·.1 = userId) with
  | some r => return (r, d)
  | none => throw (.database "Query returned no rows")

/-! ## Statements on identities and handles -/

/-- The upsert of the user's identities row. -/
def putIdentities (c : IdentityRow) : DirTx Unit := fun d => do
  require ((d.identities.any fun r => r.2.userId ≠ c.userId ∧ c.slug.isSome ∧ r.2.slug = c.slug)
      = false) (.database "UNIQUE constraint failed: user_identities.slug")
  require ((d.users.get c.userId).isSome) (.database "FOREIGN KEY constraint failed")
  return ((), { d with identities := d.identities.upsert (·.userId) c })

def dropIdentities (userId : Nat) : DirTx Nat := fun d =>
  return (d.identities.count (·.2.userId = userId),
    { d with identities := d.identities.delete (·.userId = userId) })

def releaseHandles (userId : Nat) : DirTx Unit := fun d =>
  return ((), { d with handles := d.handles.delete (·.userId = userId) })

def claimHandle (c : HandleRow) : DirTx Unit := fun d => do
  require ((d.handles.any fun r => r.2.field = c.field ∧ r.2.value = c.value) = false)
    (.database "UNIQUE constraint failed: user_handles.field, user_handles.value")
  require ((d.users.get c.userId).isSome) (.database "FOREIGN KEY constraint failed")
  return ((), { d with handles := d.handles.insert c })

/-- The claims are made in the order of a hash set; the order decides nothing but the place of
the new rows, for either none of the keys is held by another user or the transaction fails. -/
def claimHandles (L : Libraries) (userId : Nat) (ids : Identities) : DirTx Unit :=
  (ids.handles L.caseProps).forM fun h => claimHandle ⟨userId, h.1, h.2⟩

/-! ## Statements on invites -/

/-- Revoke every open invite of the user, expired or not. -/
def revokeOpenInvites (now : Timestamp) (userId : Nat) : DirTx Nat := fun d =>
  return (d.invites.count fun r => r.2.userId = userId ∧ r.2.isOpen,
    { d with invites := d.invites.update (fun r => r.2.userId = userId ∧ r.2.isOpen) fun c =>
        { c with revokedAt := some now } })

def insertInvite (c : InviteRow) : DirTx Unit := fun d => do
  require (d.invites.any (·.2.id = c.id) = false)
    (.database "UNIQUE constraint failed: user_invites.id")
  require (d.invites.any (·.2.tokenHash = c.tokenHash) = false)
    (.database "UNIQUE constraint failed: user_invites.token_hash")
  require ((d.invites.any fun r => r.2.userId = c.userId ∧ r.2.isOpen) = false)
    (.database "UNIQUE constraint failed: user_invites.user_id")
  require ((d.users.get c.userId).isSome ∧ ∀ u ∈ c.createdBy, (d.users.get u).isSome)
    (.database "FOREIGN KEY constraint failed")
  return ((), { d with invites := d.invites.insert c })

/-- `rowId` is what `generate_row_id` draws. -/
def replaceInvite (now : Timestamp) (userId : Nat) (tokenHash expiresAt : String) (createdBy : Nat)
    (rowId : String) : DirTx String := do
  let _ ← revokeOpenInvites now userId
  insertInvite
    { id := rowId
      userId := userId
      tokenHash := tokenHash
      createdBy := some createdBy
      createdAt := now
      expiresAt := expiresAt
      acceptedAt := none
      revokedAt := none }
  return rowId

def readInvite (id : String) : DirTx InviteRow := fun d =>
  match d.invites.first (·.2.id = id) with
  | some r => return (r.2, d)
  | none => throw (.database "Query returned no rows")

/-- The `WHERE` of the statement that claims an invite. -/
def Directory.claimable (d : Directory) (L : Libraries) (now : Timestamp) (tokenHash : String)
    (r : Nat × InviteRow) : Bool :=
  r.2.tokenHash = tokenHash && r.2.isOpen && r.2.unexpired L now &&
    (d.users.get r.2.userId).any (·.status = .invited)

/-- The claiming `UPDATE … RETURNING user_id`, with the first row it returns. -/
def claimInvite (L : Libraries) (now : Timestamp) (tokenHash : String) : DirTx (Option Nat) :=
  fun d =>
    return ((d.invites.first (d.claimable L now tokenHash)).map (·.2.userId),
      { d with invites := d.invites.update (d.claimable L now tokenHash) fun c =>
          { c with acceptedAt := some now } })

/-- Set the password and status active, and revoke open invites. -/
def activate (now : Timestamp) (userId : Nat) (passwordHash : String) : DirTx Bool := do
  let updated ← setUser userId fun c =>
    { c with passwordHash := passwordHash, status := .active, updatedAt := now }
  if updated = 0 then return false
  else
    let _ ← revokeOpenInvites now userId
    return true

/-! ## Calls -/

structure IdentityWrite where
  slug : Option String
  identities : Identities
  deriving DecidableEq, Repr

/-- `rowId` is what `generate_row_id` draws when the invite is inserted. -/
structure InviteWrite where
  tokenHash : String
  expiresAt : String
  createdBy : Nat
  rowId : String
  deriving DecidableEq, Repr

inductive DirectoryUser where
  | existing (userId : Nat) (name : Option String) (role : Option Role)
  | new (email name : String) (role : Role) (passwordHash : String) (status : UserStatus)
  deriving DecidableEq, Repr

structure DirectoryWrite where
  user : DirectoryUser
  identities : Option IdentityWrite
  invite : Option InviteWrite
  deriving DecidableEq, Repr

def newUser (now : Timestamp) (email passwordHash name : String) (role : Role)
    (status : UserStatus) : UserRow where
  email := email
  passwordHash := passwordHash
  name := name
  role := role
  avatarUrl := none
  createdAt := now
  updatedAt := now
  status := status

def createUser (L : Libraries) (now : Timestamp) (email passwordHash name : String) (role : Role) :
    DirTx Nat := do
  let email := normalizeLoginEmail L.caseProps email
  ensureLoginEmailAvailable email none
  insertUser (newUser now email passwordHash name role .active)

/-- The checks an update makes of the new login email, if it sets one. -/
def checkNewEmail (userId : Nat) : Option String → DirTx Unit
  | none => return ()
  | some email => do
    ensureLoginEmailAvailable email (some userId)
    checkEmailIndex email (some userId)

/-- A call that sets nothing is answered before the transaction commits. -/
def updateUser (L : Libraries) (now : Timestamp) (userId : Nat)
    (email passwordHash name : Option String) (role : Option Role) (avatarUrl : Option String) :
    DirTx Bool := do
  let email := email.map (normalizeLoginEmail L.caseProps)
  checkNewEmail userId email
  if email.isNone && passwordHash.isNone && name.isNone && role.isNone && avatarUrl.isNone then
    return false
  else
    let rows ← setUser userId fun c =>
      { c with
        email := email.getD c.email
        passwordHash := passwordHash.getD c.passwordHash
        name := name.getD c.name
        role := role.getD c.role
        avatarUrl := avatarUrl.or c.avatarUrl
        updatedAt := now }
    return rows ≠ 0

/-- `get_user_by_email`: an exact match first, then the smallest id. -/
def getUserByEmail (L : Libraries) (d : Directory) (email : String) : Option (Nat × UserRow) :=
  let email := normalizeLoginEmail L.caseProps email
  (d.users.first fun r => r.2.email.toLower = email.toLower ∧ r.2.email = email).or
    (d.users.first fun r => r.2.email.toLower = email.toLower)

def deleteUserIdentities (userId : Nat) : DirTx Bool := do
  releaseHandles userId
  let deleted ← dropIdentities userId
  return deleted ≠ 0

/-- Create the user or apply its sparse update, returning the user id. -/
def writeDirectoryUser (L : Libraries) (now : Timestamp) : DirectoryUser → DirTx Nat
  | .existing userId name role => do
    let updated ← setUser userId fun c =>
      { c with
        name := name.getD c.name
        role := role.getD c.role
        updatedAt := if name.isNone && role.isNone then c.updatedAt else now }
    if updated = 0 then throw (.database ("user " ++ toString userId ++ " does not exist"))
    else return userId
  | .new email name role passwordHash status => do
    let email := normalizeLoginEmail L.caseProps email
    ensureLoginEmailAvailable email none
    insertUser (newUser now email passwordHash name role status)

def writeIdentities (now : Timestamp) (userId : Nat) (write : IdentityWrite) : DirTx Unit :=
  putIdentities ⟨userId, write.slug, write.identities, now⟩

/-- The users whose handles are to be claimed, with what they claim. -/
abbrev Claims := Std.TreeMap Nat Identities

def writeOptIdentities (now : Timestamp) (claims : Claims) (userId : Nat) :
    Option IdentityWrite → DirTx Claims
  | none => return claims
  | some write => do
    writeIdentities now userId write
    releaseHandles userId
    return claims.insert userId write.identities

def writeOptInvite (now : Timestamp) (userId : Nat) : Option InviteWrite → DirTx Unit
  | none => return ()
  | some invite => do
    let _ ← replaceInvite now userId invite.tokenHash invite.expiresAt invite.createdBy invite.rowId
    return ()

/-- The first loop of `save_directory`. -/
def writeEntries (L : Libraries) (now : Timestamp) (claims : Claims) :
    List DirectoryWrite → DirTx (List Nat × Claims)
  | [] => return ([], claims)
  | write :: writes => do
    let userId ← writeDirectoryUser L now write.user
    let claims ← writeOptIdentities now claims userId write.identities
    writeOptInvite now userId write.invite
    let r ← writeEntries L now claims writes
    return (userId :: r.1, r.2)

def DirectoryWrite.invitesActiveUser (write : DirectoryWrite) : Bool :=
  write.invite.isSome && match write.user with
    | .new _ _ _ _ .active => true
    | _ => false

def saveDirectory (L : Libraries) (now : Timestamp) (writes : List DirectoryWrite) :
    DirTx (List Nat) := do
  if writes.any (·.invitesActiveUser) then
    throw (.database "an active user cannot be created with an invite")
  else
    let r ← writeEntries L now ∅ writes
    r.2.toList.forM fun c => claimHandles L c.1 c.2
    return r.1

def issueInvite (now : Timestamp) (userId : Nat) (tokenHash expiresAt : String) (createdBy : Nat)
    (rowId : String) : DirTx InviteRow := do
  let id ← replaceInvite now userId tokenHash expiresAt createdBy rowId
  readInvite id

def revokeInvite (now : Timestamp) (userId : Nat) : DirTx Bool := do
  let revoked ← revokeOpenInvites now userId
  return revoked ≠ 0

/-- The invite with its user, as the accept page shows them. -/
def findOpenInvite (L : Libraries) (now : Timestamp) (d : Directory) (tokenHash : String) :
    Option (InviteRow × UserRow) :=
  (d.invites.first (d.claimable L now tokenHash)).bind fun r =>
    (d.users.get r.2.userId).map fun u => (r.2, u)

def acceptInvite (L : Libraries) (now : Timestamp) (tokenHash passwordHash : String) :
    DirTx (Option (Nat × UserRow)) := do
  match ← claimInvite L now tokenHash with
  | none => return none
  | some userId =>
    let _ ← activate now userId passwordHash
    let user ← readUser userId
    return some user

def activateUser (now : Timestamp) (userId : Nat) (passwordHash : String) : DirTx Bool :=
  activate now userId passwordHash

/-! ## Runs -/

inductive Op where
  | createUser (email passwordHash name : String) (role : Role)
  | updateUser (userId : Nat) (email passwordHash name : Option String) (role : Option Role)
      (avatarUrl : Option String)
  | deleteUserIdentities (userId : Nat)
  | saveDirectory (writes : List DirectoryWrite)
  | issueInvite (userId : Nat) (tokenHash expiresAt : String) (createdBy : Nat) (rowId : String)
  | revokeInvite (userId : Nat)
  | acceptInvite (tokenHash passwordHash : String)
  | activateUser (userId : Nat) (passwordHash : String)
  deriving Repr

inductive Reply where
  | userId (id : Nat)
  | done (changed : Bool)
  | userIds (ids : List Nat)
  | invite (invite : InviteRow)
  | user (user : Option (Nat × UserRow))
  deriving Repr

/-- A call at the time `now`. -/
structure Call where
  now : Timestamp
  op : Op
  deriving Repr

def exec (L : Libraries) (c : Call) : DirTx Reply :=
  match c.op with
  | .createUser email passwordHash name role =>
    Reply.userId <$> createUser L c.now email passwordHash name role
  | .updateUser userId email passwordHash name role avatarUrl =>
    Reply.done <$> updateUser L c.now userId email passwordHash name role avatarUrl
  | .deleteUserIdentities userId => Reply.done <$> deleteUserIdentities userId
  | .saveDirectory writes => Reply.userIds <$> saveDirectory L c.now writes
  | .issueInvite userId tokenHash expiresAt createdBy rowId =>
    Reply.invite <$> issueInvite c.now userId tokenHash expiresAt createdBy rowId
  | .revokeInvite userId => Reply.done <$> revokeInvite c.now userId
  | .acceptInvite tokenHash passwordHash =>
    Reply.user <$> acceptInvite L c.now tokenHash passwordHash
  | .activateUser userId passwordHash => Reply.done <$> activateUser c.now userId passwordHash

/-- The directory after a call; a call that fails changes nothing. -/
def step (L : Libraries) (d : Directory) (c : Call) : Directory := (exec L c).commit d

end Claudear.Storage.Users
