import Claudear.Text.Lowercase
import Mathlib.Data.List.Dedup

/-!
# Identities of people

The handles a person is known by, the form two handles are compared in, and the
form a login email is stored in. `EXCLUSIVE` lists the handles that identify one
person; notification targets may be shared.
-/

namespace Claudear.Core

open Claudear.Text

inductive IdentityField where
  | slug
  | linearNames
  | githubUsernames
  | sentryUsernames
  | jiraUsernames
  | gitlabUsernames
  | discordId
  | slackId
  | email
  | pushUserKey
  | smsNumber
  | whatsappNumber
  | telegramChatId
  deriving DecidableEq, Repr

namespace IdentityField

def EXCLUSIVE : List IdentityField :=
  [.linearNames, .githubUsernames, .sentryUsernames, .jiraUsernames, .gitlabUsernames,
   .discordId, .slackId]

def isCaseInsensitive : IdentityField → Bool
  | .githubUsernames | .gitlabUsernames => true
  | _ => false

def comparisonKey (U : CaseProps) (field : IdentityField) (value : String) : String :=
  if field.isCaseInsensitive then toLowercase U value else value

end IdentityField

structure Identities where
  linearNames : List String
  githubUsernames : List String
  sentryUsernames : List String
  jiraUsernames : List String
  gitlabUsernames : List String
  discordId : Option String
  slackId : Option String
  email : Option String
  pushUserKey : Option String
  smsNumber : Option String
  whatsappNumber : Option String
  telegramChatId : Option String
  deriving DecidableEq, Repr

inductive Slot where
  | list (values : List String)
  | scalar (value : Option String)

def Slot.values : Slot → List String
  | .list values => values
  | .scalar value => value.toList

namespace Identities

def slot (ids : Identities) : IdentityField → Option Slot
  | .slug => none
  | .linearNames => some (.list ids.linearNames)
  | .githubUsernames => some (.list ids.githubUsernames)
  | .sentryUsernames => some (.list ids.sentryUsernames)
  | .jiraUsernames => some (.list ids.jiraUsernames)
  | .gitlabUsernames => some (.list ids.gitlabUsernames)
  | .discordId => some (.scalar ids.discordId)
  | .slackId => some (.scalar ids.slackId)
  | .email => some (.scalar ids.email)
  | .pushUserKey => some (.scalar ids.pushUserKey)
  | .smsNumber => some (.scalar ids.smsNumber)
  | .whatsappNumber => some (.scalar ids.whatsappNumber)
  | .telegramChatId => some (.scalar ids.telegramChatId)

/-- Every value of `field`, in stored order. -/
def values (ids : Identities) (field : IdentityField) : List String :=
  match ids.slot field with
  | some slot => slot.values
  | none => []

/-- The exclusive handles in the form they are claimed in. A handle listed twice, or in two
spellings of one key, is claimed once. -/
def handles (U : CaseProps) (ids : Identities) : List (IdentityField × String) :=
  (IdentityField.EXCLUSIVE.flatMap fun field =>
    (ids.values field).map fun value => (field, field.comparisonKey U value)).dedup

theorem mem_handles {U : CaseProps} {ids : Identities} {field : IdentityField} {key : String} :
    (field, key) ∈ ids.handles U ↔
      field ∈ IdentityField.EXCLUSIVE ∧
        ∃ value ∈ ids.values field, field.comparisonKey U value = key := by
  simp only [handles, List.mem_dedup, List.mem_flatMap, List.mem_map, Prod.mk.injEq]
  constructor
  · rintro ⟨f, hf, v, hv, rfl, rfl⟩
    exact ⟨hf, v, hv, rfl⟩
  · rintro ⟨hf, v, hv, rfl⟩
    exact ⟨field, hf, v, hv, rfl, rfl⟩

end Identities

inductive Role where
  | admin | viewer
  deriving DecidableEq, Repr

inductive UserStatus where
  | active | invited
  deriving DecidableEq, Repr

/-! ## Login emails -/

/-- The stored and compared form of a login email. -/
def normalizeLoginEmail (U : CaseProps) (email : String) : String := toLowercase U (trim email)

variable {U : CaseProps}

theorem normalizeLoginEmail_idem (email : String) :
    normalizeLoginEmail U (normalizeLoginEmail U email) = normalizeLoginEmail U email := by
  have ht : Trimmed (normalizeLoginEmail U email).toList := trimmed_toLowercase (trimmed_trim email)
  have hs : ∀ c ∈ (normalizeLoginEmail U email).toList, Settled c := settled_toLowercase _
  calc normalizeLoginEmail U (normalizeLoginEmail U email)
      = toLowercase U (normalizeLoginEmail U email) := by
        rw [normalizeLoginEmail, trim_of_trimmed ht]
    _ = normalizeLoginEmail U email := toLowercase_of_settled hs

example : normalizeLoginEmail ⟨fun _ => true, fun _ => false⟩ " ÉLODIE@Example.com " =
    "élodie@example.com" := by decide +kernel

end Claudear.Core
