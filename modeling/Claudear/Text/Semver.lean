import Mathlib.Tactic.TypeStar

/-!
# Precedence of semantic versions

Major, minor and patch are compared as numbers. A version with pre-release
identifiers comes before the one without. Identifiers are compared from the left,
numbers below words, and build metadata does not count.
-/

namespace Claudear.Text

open Std

theorem transCmp_on {α β : Type*} {cmp : β → β → Ordering} (f : α → β) (h : TransCmp cmp) :
    TransCmp fun a b => cmp (f a) (f b) where
  eq_swap := h.eq_swap
  isLE_trans := h.isLE_trans

inductive Identifier where
  | numeric (n : Nat)
  | alphanumeric (s : List Char)
  deriving DecidableEq, Repr

namespace Identifier

def cmp : Identifier → Identifier → Ordering
  | numeric m, numeric n => compare m n
  | numeric _, alphanumeric _ => .lt
  | alphanumeric _, numeric _ => .gt
  | alphanumeric s, alphanumeric t => compare s t

instance : TransCmp cmp where
  eq_swap {a b} := by
    cases a <;> cases b
    · exact OrientedOrd.eq_swap
    · rfl
    · rfl
    · exact OrientedOrd.eq_swap
  isLE_trans {a b c} hab hbc := by
    cases a <;> cases b <;> cases c
    · exact TransOrd.isLE_trans hab hbc
    · rfl
    · cases hbc
    · rfl
    · cases hab
    · cases hab
    · cases hbc
    · exact TransOrd.isLE_trans hab hbc

end Identifier

/-- A release comes after its pre-releases. -/
def preCmp : List Identifier → List Identifier → Ordering
  | [], [] => .eq
  | [], _ :: _ => .gt
  | _ :: _, [] => .lt
  | s :: ss, t :: ts => List.compareLex Identifier.cmp (s :: ss) (t :: ts)

theorem transCmp_identifiers : TransCmp (List.compareLex Identifier.cmp) := inferInstance

instance : TransCmp preCmp where
  eq_swap {a b} := by
    cases a <;> cases b
    · rfl
    · rfl
    · rfl
    · exact transCmp_identifiers.eq_swap
  isLE_trans {a b c} hab hbc := by
    cases a <;> cases b <;> cases c
    · rfl
    · cases hbc
    · cases hab
    · cases hab
    · rfl
    · cases hbc
    · rfl
    · exact transCmp_identifiers.isLE_trans hab hbc

structure Semver where
  major : Nat
  minor : Nat
  patch : Nat
  pre : List Identifier
  build : List (List Char)
  deriving DecidableEq, Repr

namespace Semver

def precedence : Semver → Semver → Ordering :=
  compareLex (compareOn major) (compareLex (compareOn minor) (compareLex (compareOn patch) fun a b => preCmp a.pre b.pre))

instance : TransCmp fun a b : Semver => preCmp a.pre b.pre := transCmp_on pre inferInstance

instance : TransCmp precedence := inferInstanceAs (TransCmp (compareLex _ _))

end Semver

end Claudear.Text
