import Mathlib.Order.WellFounded

/-!
# Commit histories

A commit has parents, and following them never leads back. `compare base head`
is how `head` lies to `base`: `ahead` when `base` is among its ancestors, `behind`
when it is among those of `base`.
-/

namespace Claudear.Data

structure History (γ : Type*) where
  parents : γ → List γ
  wellFounded : WellFounded fun p c => p ∈ parents c

inductive Comparison where
  | identical
  | ahead
  | behind
  | diverged
  deriving DecidableEq

namespace History

variable {γ : Type*} (h : History γ)

/-- A proper ancestor. -/
def Ancestor : γ → γ → Prop := Relation.TransGen fun p c => p ∈ h.parents c

/-- What a commit brings with it: itself and its ancestors. -/
def Brings (c a : γ) : Prop := a = c ∨ h.Ancestor a c

open Classical in
noncomputable def compare (base head : γ) : Comparison :=
  if base = head then .identical
  else if h.Ancestor base head then .ahead
  else if h.Ancestor head base then .behind
  else .diverged

variable {h} {a b : γ}

theorem Ancestor.asymm (hab : h.Ancestor a b) : ¬ h.Ancestor b a :=
  h.wellFounded.transGen.asymmetric _ _ hab

theorem Ancestor.ne (hab : h.Ancestor a b) : a ≠ b := by
  rintro rfl
  exact hab.asymm hab

theorem compare_eq_identical : h.compare a b = .identical ↔ a = b := by
  unfold compare
  split
  · exact iff_of_true rfl ‹_›
  · split
    · exact iff_of_false Comparison.noConfusion ‹_›
    · split <;> exact iff_of_false Comparison.noConfusion ‹_›

theorem compare_eq_ahead : h.compare a b = .ahead ↔ h.Ancestor a b := by
  unfold compare
  split
  · rename_i he
    exact iff_of_false Comparison.noConfusion fun hab => hab.ne he
  · split
    · exact iff_of_true rfl ‹_›
    · split <;> exact iff_of_false Comparison.noConfusion ‹_›

theorem compare_eq_behind : h.compare a b = .behind ↔ h.Ancestor b a := by
  unfold compare
  split
  · rename_i he
    exact iff_of_false Comparison.noConfusion fun hba => hba.ne he.symm
  · split
    · rename_i hab
      exact iff_of_false Comparison.noConfusion hab.asymm
    · split
      · exact iff_of_true rfl ‹_›
      · exact iff_of_false Comparison.noConfusion ‹_›

theorem brings_iff_compare : h.Brings b a ↔ h.compare a b = .identical ∨ h.compare a b = .ahead := by
  rw [compare_eq_identical, compare_eq_ahead, Brings]

end History

end Claudear.Data
