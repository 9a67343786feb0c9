import Claudear.Text.Lowercase
import Mathlib.Algebra.Group.Int.Defs
import Mathlib.Algebra.Group.Nat.Defs
import Mathlib.Data.List.Infix

/-!
# Issues and the values they carry

`Issue` has the fields the analysis reads; its metadata are JSON values that a
reader deserialises at the type it wants. A 64-bit float is Lean's `Float`,
and `totalCmp` is the total order on its bits.
-/

namespace Claudear.Analysis

inductive Number where
  | int (i : Int)
  | float (x : Float)

inductive Json where
  | null
  | bool (b : Bool)
  | number (n : Number)
  | string (s : String)
  | array (items : List Json)
  | object (entries : List (String × Json))

namespace Json

def asString : Json → Option String
  | string s => some s
  | _ => none

def asBool : Json → Option Bool
  | bool b => some b
  | _ => none

def asF64 : Json → Option Float
  | number (.int i) => some (Float.ofInt i)
  | number (.float x) => some x
  | _ => none

def asI64 : Json → Option Int
  | number (.int i) => if -2 ^ 63 ≤ i ∧ i < 2 ^ 63 then some i else none
  | _ => none

def asStrings : Json → Option (List String)
  | array items => items.mapM asString
  | _ => none

end Json

inductive IssuePriority where
  | none
  | low
  | medium
  | high
  | critical
  deriving DecidableEq

inductive MatchPriority where
  | low
  | normal
  | high
  | urgent
  deriving DecidableEq

structure Issue where
  id : String
  title : String
  description : Option String
  source : String
  priority : IssuePriority
  metadata : String → Option Json

structure MatchResult where
  isMatch : Bool
  reason : String
  priority : MatchPriority
  deriving DecidableEq

namespace Issue

/-- `get_metadata` at the type that `read` deserialises. -/
def getMetadata {α : Type} (issue : Issue) (read : Json → Option α) (key : String) : Option α :=
  (issue.metadata key).bind read

end Issue

/-! ## Floats -/

/-- The bits of a float as a signed integer whose order is `f64::total_cmp`. -/
def totalKey (x : Float) : Int :=
  let bits := x.toBits.toNat
  if bits < 2 ^ 63 then bits else 2 ^ 63 - 1 - bits

def totalCmp (x y : Float) : Ordering := compare (totalKey x) (totalKey y)

theorem totalCmp_isLE {x y : Float} : (totalCmp x y).isLE = true ↔ totalKey x ≤ totalKey y := by
  rw [totalCmp, Std.isLE_compare]

/-- `f64::max`: a NaN gives way to the other. -/
def fmax (x y : Float) : Float :=
  if x.isNaN then y else if y.isNaN then x else if x < y then y else x

def fmin (x y : Float) : Float :=
  if x.isNaN then y else if y.isNaN then x else if y < x then y else x

/-- `f64::clamp`: a NaN stays. -/
def clamp (x lo hi : Float) : Float := if x < lo then lo else if hi < x then hi else x

/-! ## Text -/

def eqIgnoreAsciiCase (s t : String) : Bool := s.toLower == t.toLower

/-- `str::contains` -/
def contains (s pattern : String) : Bool := decide (pattern.toList <:+: s.toList)

def splitWhitespace (s : String) : List String :=
  ((s.toList.splitOnP Text.isWhitespace).filter (· ≠ [])).map String.ofList

end Claudear.Analysis
