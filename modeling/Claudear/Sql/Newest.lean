import Claudear.Sql.Table
import Mathlib.Data.List.Sort

/-!
# `ORDER BY key DESC, id DESC`

The first row with a property, in this order, is the one with the property that is `Later`
than all others with it.
-/

namespace Claudear.Sql

variable {ρ κ : Type*} [LinearOrder κ] (key : Nat × ρ → κ)

/-- `a` comes no later in the order than `b`. -/
def Later (a b : Nat × ρ) : Prop := key b < key a ∨ key a = key b ∧ b.1 ≤ a.1

instance : DecidableRel (Later key) := fun _ _ => inferInstanceAs (Decidable (_ ∨ _))

def newestFirst (l : List (Nat × ρ)) : List (Nat × ρ) := l.insertionSort (Later key)

variable {key} {a b w : Nat × ρ} {l : List (Nat × ρ)} {p : Nat × ρ → Bool}

theorem later_refl (a : Nat × ρ) : Later key a a := .inr ⟨rfl, Nat.le_refl _⟩

theorem later_total (a b : Nat × ρ) : Later key a b ∨ Later key b a := by
  rcases lt_trichotomy (key a) (key b) with h | h | h
  · exact .inr (.inl h)
  · rcases Nat.le_total a.1 b.1 with hid | hid
    · exact .inr (.inr ⟨h.symm, hid⟩)
    · exact .inl (.inr ⟨h, hid⟩)
  · exact .inl (.inl h)

theorem later_trans {c : Nat × ρ} (h : Later key a b) (h' : Later key b c) : Later key a c := by
  rcases h with h | ⟨h, hid⟩
  · rcases h' with h' | ⟨h', -⟩
    · exact .inl (h'.trans h)
    · exact .inl (h' ▸ h)
  · rcases h' with h' | ⟨h', hid'⟩
    · exact .inl (h ▸ h')
    · exact .inr ⟨h.trans h', hid'.trans hid⟩

theorem id_eq_of_later (h : Later key a b) (h' : Later key b a) : a.1 = b.1 := by
  rcases h with h | ⟨h, hid⟩
  · rcases h' with h' | ⟨h', -⟩
    · exact absurd h (lt_asymm h')
    · exact absurd h (h' ▸ lt_irrefl _)
  · rcases h' with h' | ⟨-, hid'⟩
    · exact absurd h' (h ▸ lt_irrefl _)
    · exact Nat.le_antisymm hid' hid

theorem pairwise_newestFirst : (newestFirst key l).Pairwise (Later key) := by
  have : Std.Total (Later key) := ⟨later_total⟩
  have : IsTrans (Nat × ρ) (Later key) := ⟨fun _ _ _ => later_trans⟩
  exact List.pairwise_insertionSort _ l

theorem mem_newestFirst : a ∈ newestFirst key l ↔ a ∈ l := List.mem_insertionSort _

/-- The first row with a property. -/
theorem find?_newestFirst (hids : ∀ a ∈ l, ∀ b ∈ l, a.1 = b.1 → a = b) :
    (newestFirst key l).find? p = some w ↔ w ∈ l ∧ p w = true ∧ ∀ r ∈ l, p r = true → Later key w r := by
  have hfound {w : Nat × ρ} (h : (newestFirst key l).find? p = some w) :
      w ∈ l ∧ p w = true ∧ ∀ r ∈ l, p r = true → Later key w r := by
    obtain ⟨hp, before, after, hl, hbefore⟩ := List.find?_eq_some_iff_append.mp h
    have hsorted : (newestFirst key l).Pairwise (Later key) := pairwise_newestFirst
    have hw : w ∈ newestFirst key l := by
      rw [hl]
      exact List.mem_append_right before List.mem_cons_self
    refine ⟨mem_newestFirst.mp hw, hp, fun r hr hpr => ?_⟩
    have hr : r ∈ newestFirst key l := mem_newestFirst.mpr hr
    rw [hl] at hr
    rw [hl] at hsorted
    rcases List.mem_append.mp hr with hr | hr
    · exact absurd hpr (by simpa using hbefore r hr)
    · rcases List.mem_cons.mp hr with rfl | hr
      · exact later_refl r
      · exact (List.pairwise_cons.mp (List.pairwise_append.mp hsorted).2.1).1 r hr
  refine ⟨hfound, fun ⟨hw, hp, hlater⟩ => ?_⟩
  obtain ⟨first, hfirst⟩ : ∃ first, (newestFirst key l).find? p = some first :=
    Option.isSome_iff_exists.mp (List.find?_isSome.mpr ⟨w, mem_newestFirst.mpr hw, hp⟩)
  obtain ⟨hmem, hp', hlater'⟩ := hfound hfirst
  rw [hfirst, hids first hmem w hw (id_eq_of_later (hlater' w hw hp) (hlater first hmem hp'))]

theorem head?_newestFirst (hids : ∀ a ∈ l, ∀ b ∈ l, a.1 = b.1 → a = b) :
    (newestFirst key l).head? = some w ↔ w ∈ l ∧ ∀ r ∈ l, Later key w r := by
  have hhead : (newestFirst key l).head? = (newestFirst key l).find? fun _ => true := by
    cases newestFirst key l <;> rfl
  rw [hhead, find?_newestFirst hids]
  simp

end Claudear.Sql
