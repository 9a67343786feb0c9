import Claudear.Core.Identity
import Claudear.Data.Keyed
import Mathlib.Data.List.AList
import Mathlib.Data.List.Infix

/-!
# The user registry

People configured in the settings (the seed) merged with the people of the
console. `assign_keys` gives every console person a key: an explicit slug
first, then a configured person with the same login email, in the order of the
user ids, then the alias `console-<id>`. A console person replaces the
configured one with the same key.
-/

namespace Claudear.Config

open Claudear.Core Claudear.Text Claudear.Data

/-- The fields of `UserConfig` are those of `Identities`; the conversions copy them. -/
abbrev UserConfig := Identities

def CONSOLE_KEY_PREFIX : String := "console-"

/-- `key.starts_with(CONSOLE_KEY_PREFIX)` -/
def Reserved (key : String) : Prop := CONSOLE_KEY_PREFIX.toList <+: key.toList

instance (key : String) : Decidable (Reserved key) := inferInstanceAs (Decidable (_ <+: _))

structure ConsoleIdentity where
  userId : Int
  loginEmail : String
  slug : Option String
  identities : Identities
  deriving DecidableEq, Repr

inductive IdentityOrigin where
  | config | console
  deriving DecidableEq, Repr

def explicitSlug (entry : ConsoleIdentity) : Option String :=
  (entry.slug.map trim).filter fun slug => slug ≠ ""

def consoleKey (userId : Int) : String := CONSOLE_KEY_PREFIX ++ toString userId

def emailKey (U : CaseProps) (email : String) : Option String :=
  if trim email = "" then none else some (toLowercase U (trim email))

/-! ## The seed -/

/-- The configured people by key. -/
abbrev Users := AList fun _ : String => UserConfig

structure Seed where
  users : Users
  emails : String → List String

/-- Keys with the reserved prefix are dropped. -/
def retained (users : Users) : Users where
  entries := users.entries.filter fun user => ¬ Reserved user.1
  nodupKeys := users.nodupKeys.sublist List.filter_sublist

/-- The keys of the people with this email, in order. -/
def emailIndex (U : CaseProps) (users : Users) (email : String) : List String :=
  ((users.entries.filter fun user => user.2.email.bind (emailKey U) = some email).map
    Sigma.fst).mergeSort fun a b => decide (a ≤ b)

def Seed.new (U : CaseProps) (users : Users) : Seed where
  users := retained users
  emails := emailIndex U (retained users)

def Seed.keysForEmail (U : CaseProps) (seed : Seed) (email : String) : List String :=
  match emailKey U email with
  | some email => seed.emails email
  | none => []

/-! ## The keys -/

/-- A pass over the entries: whoever has no key yet chooses one that is not claimed. -/
def pass (choose : ConsoleIdentity → List String → Option String) :
    List (Option String × ConsoleIdentity) → List String → List (Option String) × List String
  | [], claimed => ([], claimed)
  | (some key, _) :: rest, claimed =>
    let r := pass choose rest claimed
    (some key :: r.1, r.2)
  | (none, entry) :: rest, claimed =>
    match choose entry claimed with
    | some key =>
      let r := pass choose rest (key :: claimed)
      (some key :: r.1, r.2)
    | none =>
      let r := pass choose rest claimed
      (none :: r.1, r.2)

/-- The first pass: the explicit slug, unless somebody has it. -/
def chooseSlug (entry : ConsoleIdentity) (claimed : List String) : Option String :=
  (explicitSlug entry).filter fun slug => slug ∉ claimed

/-- The second pass: the first configured person with the login email whom nobody has. -/
def chooseMatch (U : CaseProps) (seed : Seed) (entry : ConsoleIdentity) (claimed : List String) :
    Option String :=
  (seed.keysForEmail U entry.loginEmail).find? fun candidate => candidate ∉ claimed

def assignKeys (U : CaseProps) (seed : Seed) (entries : List ConsoleIdentity) : List String :=
  let slugs := pass chooseSlug (entries.map fun entry => (none, entry)) []
  let keys := pass (chooseMatch U seed) (slugs.1.zip entries) slugs.2
  (keys.1.zip entries).map fun (key, entry) => key.getD (consoleKey entry.userId)

/-! ## The directory -/

structure Person where
  key : String
  origin : IdentityOrigin
  user : UserConfig
  deriving DecidableEq, Repr

abbrev Handle := IdentityField × String

def exclusiveHandles (U : CaseProps) (user : UserConfig) : List Handle :=
  IdentityField.EXCLUSIVE.flatMap fun field =>
    (user.values field).map fun value => (field, field.comparisonKey U value)

structure Directory where
  entries : List ConsoleIdentity
  consoles : Index Int
  persons : List Person
  keys : Index String
  handles : Index Handle

namespace Directory

def consolePersons (entries : List ConsoleIdentity) (keys : List String) : List Person :=
  (entries.zip keys).map fun (entry, key) =>
    { key, origin := .console, user := entry.identities }

/-- The configured people whose key nobody has claimed, in key order. -/
def configPersons (seed : Seed) (claimed : List String) : List Person :=
  ((seed.users.keys.filter fun key => key ∉ claimed).mergeSort fun a b => decide (a ≤ b)).filterMap
    fun key => (seed.users.lookup key).map fun user => { key, origin := .config, user }

def build (U : CaseProps) (seed : Seed) (entries : List ConsoleIdentity) : Directory :=
  let entries := firstByKey ConsoleIdentity.userId entries
  let consoleKeys := assignKeys U seed entries
  let persons := consolePersons entries consoleKeys ++ configPersons seed consoleKeys
  let keys := (positions Person.key persons).foldl Index.orInsert fun _ => none
  { entries
    consoles := (positions ConsoleIdentity.userId entries).foldl Index.insert fun _ => none
    persons
    keys := (positions (fun entry => consoleKey entry.userId) entries).foldl Index.insert keys
    handles := (persons.zipIdx.flatMap fun (person, index) =>
      (exclusiveHandles U person.user).map fun handle => (handle, index)).foldl
      Index.orInsert fun _ => none }

def person (d : Directory) (key : String) : Option Person := do d.persons[← d.keys key]?

/-- The person of the console user. -/
def consolePerson (d : Directory) (userId : Int) : Option Person := do
  d.persons[← d.consoles userId]?

/-- The key of the stored entry, when the given one has the same slug and login email. -/
def storedKey (U : CaseProps) (d : Directory) (entry : ConsoleIdentity) : Option String := do
  let index ← d.consoles entry.userId
  let stored ← d.entries[index]?
  if explicitSlug stored = explicitSlug entry ∧
      emailKey U stored.loginEmail = emailKey U entry.loginEmail then
    d.persons[index]?.map Person.key
  else none

end Directory

structure UserRegistry where
  seed : Seed
  directory : Directory

namespace UserRegistry

def new (U : CaseProps) (users : Users) : UserRegistry where
  seed := Seed.new U users
  directory := Directory.build U (Seed.new U users) []

def replaceConsole (U : CaseProps) (r : UserRegistry) (entries : List ConsoleIdentity) :
    UserRegistry :=
  { r with directory := Directory.build U r.seed entries }

/-- The key that `entries`, in order, give to the user. -/
def keyAmong (U : CaseProps) (seed : Seed) (entries : List ConsoleIdentity) (userId : Int) : String :=
  match (entries.zip (assignKeys U seed entries)).find? fun (entry, _) => entry.userId = userId with
  | some (_, key) => key
  | none => consoleKey userId

def personKey (U : CaseProps) (r : UserRegistry) (entry : ConsoleIdentity) : String :=
  match explicitSlug entry with
  | some slug => slug
  | none =>
    match r.directory.storedKey U entry with
    | some key => key
    | none =>
      let others := r.directory.entries.filter fun existing => existing.userId ≠ entry.userId
      keyAmong U r.seed ((others ++ [entry]).mergeSort (byKey ConsoleIdentity.userId)) entry.userId

end UserRegistry

end Claudear.Config
