import Mathlib.Data.List.Lex
import Mathlib.Data.Nat.Digits.Defs
import Mathlib.Data.Char

/-!
# The order of texts with fixed-width numbers

Texts are compared character by character. A number written with a fixed number
of decimal digits is ordered as the number is (`decimal_lt`), and texts put
together from parts of one length are ordered part by part (`append_lt`).
-/

namespace Claudear.Text

/-- The last `w` decimal digits of `n`, with leading zeros. -/
def decimal : Nat → Nat → List Char
  | 0, _ => []
  | w + 1, n => decimal w (n / 10) ++ [Nat.digitChar (n % 10)]

@[simp] theorem length_decimal (w n : Nat) : (decimal w n).length = w := by
  induction w generalizing n with
  | zero => rfl
  | succ w ih => simp [decimal, ih]

/-! ## Parts of one length -/

section Append

variable {α : Type*} [LinearOrder α]

theorem append_lt_of_lt {x y u v : List α} (hl : x.length = y.length) (h : x < y) :
    x ++ u < y ++ v := by
  induction x generalizing y with
  | nil =>
    cases y with
    | nil => exact absurd h (lt_irrefl _)
    | cons b y => cases hl
  | cons a x ih =>
    cases y with
    | nil => cases hl
    | cons b y =>
      rw [List.cons_append, List.cons_append, List.cons_lt_cons_iff]
      rcases List.cons_lt_cons_iff.mp h with hab | ⟨rfl, hxy⟩
      · exact .inl hab
      · exact .inr ⟨rfl, ih (Nat.succ.inj hl) hxy⟩

theorem append_lt_append_left {x u v : List α} (h : u < v) : x ++ u < x ++ v := by
  induction x with
  | nil => exact h
  | cons a x ih =>
    rw [List.cons_append, List.cons_append, List.cons_lt_cons_iff]
    exact .inr ⟨rfl, ih⟩

/-- The first part that differs decides. -/
theorem append_lt {x y u v : List α} (hl : x.length = y.length) (h : x < y ∨ x = y ∧ u < v) :
    x ++ u < y ++ v := by
  rcases h with h | ⟨rfl, h⟩
  · exact append_lt_of_lt hl h
  · exact append_lt_append_left h

end Append

/-! ## Numbers -/

theorem digitChar_lt {a b : Nat} (hb : b < 10) (h : a < b) : Nat.digitChar a < Nat.digitChar b := by
  revert a
  revert b
  decide

theorem decimal_lt {w a b : Nat} (hb : b < 10 ^ w) (h : a < b) : decimal w a < decimal w b := by
  induction w generalizing a b with
  | zero => omega
  | succ w ih =>
    have hb' : b / 10 < 10 ^ w := by
      rw [pow_succ] at hb
      omega
    refine append_lt (by simp) ?_
    by_cases hd : a / 10 < b / 10
    · exact .inl (ih hb' hd)
    · have he : a / 10 = b / 10 := by omega
      refine .inr ⟨by rw [he], ?_⟩
      rw [List.cons_lt_cons_iff]
      exact .inl (digitChar_lt (Nat.mod_lt _ (by omega)) (by omega))

end Claudear.Text
