import Mathlib.Algebra.BigOperators.Group.List.Basic
import Mathlib.Tactic.Ring

/-!
# Running means

`mean l` is the arithmetic mean of what was recorded, none before the first
record. `rolled m w x` takes `x` into the mean `m` with the weight `w` for the
new number of records, and has no value when `w` is 0. `rolled_eq_mean_iff` says
for which weights that is right.
-/

namespace Claudear.Data

variable {K : Type*} [Field K] {l : List K} {m w x : K}

def mean (l : List K) : Option K :=
  if l = [] then none else some (l.sum / l.length)

def rolled [DecidableEq K] (m w x : K) : Option K :=
  if w = 0 then none else some ((m * (w - 1) + x) / w)

theorem mean_concat : mean (l ++ [x]) = some ((l.sum + x) / (l.length + 1)) := by
  rw [mean, if_neg (List.append_ne_nil_of_right_ne_nil l (List.cons_ne_nil x []))]
  simp

theorem mean_eq_none : mean l = none ↔ l = [] := by
  unfold mean
  split <;> simp [*]

/-- A mean times the number of records is what they add up to. -/
theorem sum_of_mean [CharZero K] (h : mean l = some m) : l.sum = m * l.length := by
  unfold mean at h
  split at h
  · cases h
  · rename_i hl
    have hn : (l.length : K) ≠ 0 := Nat.cast_ne_zero.mpr fun h => hl (List.length_eq_zero_iff.mp h)
    rw [← Option.some.inj h, div_mul_cancel₀ _ hn]

/-- The weight has to be the number of records, unless the new one is the mean itself. -/
theorem rolled_eq_mean_iff [CharZero K] [DecidableEq K] (h : mean l = some m) :
    rolled m w x = mean (l ++ [x]) ↔ w ≠ 0 ∧ (w = l.length + 1 ∨ x = m) := by
  have hn : (l.length + 1 : K) ≠ 0 := Nat.cast_add_one_ne_zero _
  rw [mean_concat, sum_of_mean h, rolled]
  split
  · exact iff_of_false (fun e => by cases e) fun hw => hw.1 ‹_›
  · rename_i hw
    rw [Option.some.injEq, div_eq_div_iff hw hn, and_iff_right hw]
    -- the two sides differ by the product of what each alternative makes zero
    have key : (m * (w - 1) + x) * (l.length + 1) - (m * l.length + x) * w =
        (l.length + 1 - w) * (x - m) := by ring
    rw [← sub_eq_zero, key, mul_eq_zero, sub_eq_zero, sub_eq_zero, eq_comm (a := w)]

end Claudear.Data
