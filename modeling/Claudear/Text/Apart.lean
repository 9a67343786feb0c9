import Mathlib.Data.List.Infix
import Mathlib.Data.Nat.Find

/-!
# Words that do not overlap

`Off u v`: in no text does a `v` begin within a `u`. Where this holds of `M` and
`p` both ways round, a text with an `M` in it has a `p` only before the `M` or
behind it (`isInfix_around`), so writing an `M` completes none.
-/

namespace Claudear.Text

variable {α : Type*} {M p q u v a b x y l : List α}

/-- No part of `u` up to its end is the beginning of `v`, nor the other way round. -/
def Off (u v : List α) : Prop := ∀ s ∈ u.tails, s = [] ∨ ¬ s <+: v ∧ ¬ v <+: s

/-- Neither begins within the other. -/
structure Apart (M p : List α) : Prop where
  behind : Off M p
  before : Off p M
  ne_nil : p ≠ []

section
variable [DecidableEq α]

instance : Decidable (Off u v) := inferInstanceAs (Decidable (∀ s ∈ u.tails, s = [] ∨ ¬ s <+: v ∧ ¬ v <+: s))

instance : Decidable (Apart M p) :=
  decidable_of_iff (Off M p ∧ Off p M ∧ p ≠ []) ⟨fun h => ⟨h.1, h.2.1, h.2.2⟩, fun h => ⟨h.1, h.2, h.3⟩⟩

end

theorem off_of_disjoint (h : ∀ c ∈ u, c ∉ v) (hv : v ≠ []) : Off u v := by
  intro s hs
  rw [List.mem_tails] at hs
  cases s with
  | nil => exact .inl rfl
  | cons c s =>
    refine .inr ⟨fun hp => h c (hs.subset List.mem_cons_self) (hp.subset List.mem_cons_self), fun hp => ?_⟩
    obtain ⟨d, v, rfl⟩ := List.exists_cons_of_ne_nil hv
    exact h d (hs.subset (hp.subset List.mem_cons_self)) List.mem_cons_self

theorem Off.tail {c : α} (h : Off (c :: u) v) : Off u v := fun s hs => h s (by simp [hs])

/-- What begins with `u` does not begin with `v`. -/
theorem Off.front (h : Off u v) (hu : u ≠ []) : u ++ x ≠ v ++ y := by
  intro e
  obtain ⟨h1, h2⟩ := (h u (by simp)).resolve_left hu
  rcases List.prefix_or_prefix_of_prefix (e ▸ List.prefix_append u x) (List.prefix_append v y) with h | h
  · exact h1 h
  · exact h2 h

/-- A `v` in a text that begins with `u` comes behind the `u`. -/
theorem Off.skip (h : Off u v) (e : a ++ (v ++ b) = u ++ y) : ∃ m, a = u ++ m ∧ y = m ++ (v ++ b) := by
  rcases List.append_eq_append_iff.mp e with ⟨s, rfl, hs⟩ | ⟨m, ha, hy⟩
  · rcases h s ((List.mem_tails s _).mpr (List.suffix_append a s)) with rfl | ⟨h1, h2⟩
    · exact ⟨[], by simp, by simpa using hs.symm⟩
    · have hv : v <+: s ++ y := hs ▸ List.prefix_append v b
      rcases List.prefix_or_prefix_of_prefix hv (List.prefix_append s y) with h | h
      · exact absurd h h2
      · exact absurd h h1
  · exact ⟨m, ha, hy⟩

/-- Where a `p` and an `M` stand in one text, one of them comes first. -/
theorem Apart.around (h : Apart M p) (e : a ++ (p ++ b) = x ++ (M ++ y)) :
    (∃ m, x = a ++ (p ++ m) ∧ b = m ++ (M ++ y)) ∨ ∃ m, a = x ++ (M ++ m) ∧ y = m ++ (p ++ b) := by
  rcases List.append_eq_append_iff.mp e with ⟨m, rfl, hm⟩ | ⟨m, rfl, hm⟩
  · obtain ⟨n, rfl, hb⟩ := h.before.skip hm.symm
    exact .inl ⟨n, rfl, hb⟩
  · obtain ⟨n, rfl, hy⟩ := h.behind.skip hm.symm
    exact .inr ⟨n, rfl, hy⟩

theorem Apart.isInfix_around (h : Apart M p) (hp : p <:+: x ++ (M ++ y)) : p <:+: x ∨ p <:+: y := by
  obtain ⟨a, b, e⟩ := hp
  rw [List.append_assoc] at e
  rcases h.around e with ⟨m, rfl, -⟩ | ⟨m, -, rfl⟩
  · exact .inl ⟨a, m, by simp⟩
  · exact .inr ⟨m, b, by simp⟩

/-! ## The first one -/

variable [DecidableEq α]

theorem dropInfix?_some (h : l.dropInfix? p = some (a, b)) : l = a ++ (p ++ b) := by
  obtain ⟨⟨i, rfl, hi⟩, -⟩ := List.dropInfix?_eq_some_iff.mp h
  rw [eq_of_beq hi, List.append_assoc]

/-- No `p` ends before the first one begins. -/
theorem dropInfix?_first (hp : p ≠ []) (h : l.dropInfix? p = some (a, b)) : ¬ p <:+: a := by
  rintro ⟨x, y, rfl⟩
  have hl := dropInfix?_some h
  obtain ⟨-, hfirst⟩ := List.dropInfix?_eq_some_iff.mp h
  have := hfirst x p (y ++ (p ++ b)) (by rw [hl]; simp) (beq_self_eq_true p)
  have hpos := List.length_pos_of_ne_nil hp
  simp only [List.length_append] at this
  omega

theorem dropInfix?_none : l.dropInfix? p = none ↔ ¬ p <:+: l := by
  constructor
  · rintro h ⟨x, y, rfl⟩
    classical
    -- some occurrence has the shortest text before it
    have hex : ∃ n a b, x ++ p ++ y = a ++ p ++ b ∧ a.length = n := ⟨_, x, y, rfl, rfl⟩
    obtain ⟨a, b, hab, ha⟩ := Nat.find_spec hex
    have hfirst : (x ++ p ++ y).dropInfix? p = some (a, b) := by
      refine List.dropInfix?_eq_some_iff.mpr ⟨⟨p, hab, beq_self_eq_true p⟩, ?_⟩
      intro a' i b' h' hi
      rw [ha]
      exact Nat.find_min' hex ⟨a', b', eq_of_beq hi ▸ h', rfl⟩
    rw [h] at hfirst
    cases hfirst
  · intro h
    by_contra hne
    obtain ⟨⟨a, b⟩, hab⟩ := Option.ne_none_iff_exists'.mp hne
    exact h ⟨a, b, by rw [dropInfix?_some hab, List.append_assoc]⟩

end Claudear.Text
