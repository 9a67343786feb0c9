import Mathlib.Algebra.GroupWithZero.Nat
import Mathlib.Data.List.Basic

/-!
# Texts cut at bytes

Texts are lists of characters; a byte offset is a boundary where the characters before it
fill the bytes before it. A slice that does not end at a boundary is `none`.
-/

namespace Claudear.Text

variable {a b l : List Char} {c : Char} {n : Nat}

/-- `str::len` -/
def byteLength (l : List Char) : Nat := (l.map Char.utf8Size).sum

@[simp] theorem byteLength_nil : byteLength [] = 0 := rfl

@[simp] theorem byteLength_cons : byteLength (c :: l) = c.utf8Size + byteLength l := List.sum_cons

theorem byteLength_append : byteLength (a ++ b) = byteLength a + byteLength b := by
  rw [byteLength, List.map_append, List.sum_append, byteLength, byteLength]

theorem byteLength_eq_zero : byteLength l = 0 ↔ l = [] := by
  cases l with
  | nil => exact iff_of_true rfl rfl
  | cons c l =>
    have hpos := Char.utf8Size_pos c
    rw [byteLength_cons]
    exact iff_of_false (by omega) (List.cons_ne_nil c l)

/-- `&l[..n]` -/
def sliceTo : Nat → List Char → Option (List Char)
  | 0, _ => some []
  | _ + 1, [] => none
  | n + 1, c :: rest => if c.utf8Size ≤ n + 1 then (sliceTo (n + 1 - c.utf8Size) rest).map (c :: ·) else none

/-- `str::is_char_boundary` -/
def isCharBoundary (n : Nat) (l : List Char) : Bool := (sliceTo n l).isSome

theorem sliceTo_eq_some : sliceTo n l = some a ↔ a <+: l ∧ byteLength a = n := by
  have hzero {l a : List Char} : sliceTo 0 l = some a ↔ a <+: l ∧ byteLength a = 0 := by
    rw [sliceTo, Option.some_inj, byteLength_eq_zero]
    constructor
    · rintro rfl
      exact ⟨List.nil_prefix, rfl⟩
    · rintro ⟨-, rfl⟩
      rfl
  induction l generalizing n a with
  | nil =>
    cases n with
    | zero => exact hzero
    | succ n =>
      refine iff_of_false (Option.some_ne_none a).symm ?_
      rintro ⟨ha, hn⟩
      rw [List.prefix_nil.mp ha] at hn
      exact absurd hn (Nat.succ_ne_zero n).symm
  | cons c l ih =>
    cases n with
    | zero => exact hzero
    | succ n =>
      cases a with
      | nil =>
        rw [sliceTo]
        refine iff_of_false ?_ fun h => (Nat.succ_ne_zero n).symm h.2
        split
        · simp
        · exact (Option.some_ne_none _).symm
      | cons d a =>
        rw [sliceTo, List.cons_prefix_cons, byteLength_cons]
        split
        · rename_i hle
          rw [Option.map_eq_some_iff]
          constructor
          · rintro ⟨b, hb, heq⟩
            obtain ⟨rfl, rfl⟩ := List.cons.inj heq
            obtain ⟨hpre, hlen⟩ := ih.mp hb
            exact ⟨⟨rfl, hpre⟩, by omega⟩
          · rintro ⟨⟨rfl, hpre⟩, hlen⟩
            exact ⟨a, ih.mpr ⟨hpre, by omega⟩, rfl⟩
        · rename_i hlt
          refine iff_of_false (Option.some_ne_none _).symm ?_
          rintro ⟨⟨rfl, -⟩, hlen⟩
          omega

theorem isCharBoundary_iff : isCharBoundary n l = true ↔ ∃ a, a <+: l ∧ byteLength a = n := by
  rw [isCharBoundary, Option.isSome_iff_exists]
  exact exists_congr fun a => sliceTo_eq_some

/-- Down from `n` to a boundary. -/
def floorBoundary (l : List Char) : Nat → Nat
  | 0 => 0
  | n + 1 => if isCharBoundary (n + 1) l then n + 1 else floorBoundary l n

theorem isCharBoundary_floorBoundary : isCharBoundary (floorBoundary l n) l = true := by
  induction n with
  | zero => exact isCharBoundary_iff.mpr ⟨[], List.nil_prefix, rfl⟩
  | succ n ih =>
    rw [floorBoundary]
    split
    · assumption
    · exact ih

end Claudear.Text
