/-!
# Errors and timestamps of the storage layer
-/

namespace Claudear.Storage

/-- Seconds; `datetime('now')` is the `now` of a call. -/
abbrev Timestamp := Int

/-- The errors of `claudear_core::error::Error` the storage and the security inbox return. -/
inductive Error where
  | database (message : String)
  | storage (message : String)
  | other (message : String)
  deriving DecidableEq, Repr

end Claudear.Storage
