import Claudear.Machine.Prog

/-!
# Twin runs

A program is run on two states that a relation ties together. `eqv` says what
the answers of a call then have in common; where that is equality the two runs
cannot be told apart by the program, and elsewhere `Twins` asks that the program
goes on in the same way with either answer.
-/

namespace Claudear.Machine

universe u

variable {C : Type → Type u} {α β ε σ : Type} {eqv : (β : Type) → C β → β → β → Prop}

/-- Two programs that make the same calls, whatever the answers are that `eqv` ties together. -/
inductive Twins (eqv : (β : Type) → C β → β → β → Prop) : Prog C α → Prog C α → Prop where
  | ret (a : α) : Twins eqv (.ret a) (.ret a)
  | call {β : Type} (c : C β) {k l : β → Prog C α} (h : ∀ b b', eqv β c b b' → Twins eqv (k b) (l b')) :
    Twins eqv (.call c k) (.call c l)

/-- The call has the same answer in both runs. -/
def Shared (eqv : (β : Type) → C β → β → β → Prop) {β : Type} (_ : Unit) (c : C β) : Prop :=
  ∀ b b', eqv β c b b' → b = b'

theorem Twins.refl {p : Prog C α} (h : Quiet (Shared eqv) p) : Twins eqv p p := by
  induction p with
  | ret a => exact .ret a
  | call c k ih =>
    refine .call c fun b b' hb => ?_
    obtain rfl := h.1 () b b' hb
    exact ih b (h.2 b)

theorem Twins.bind {p q : Prog C α} {f g : α → Prog C β} (h : Twins eqv p q)
    (hf : ∀ a, Twins eqv (f a) (g a)) : Twins eqv (p >>= f) (q >>= g) := by
  induction h with
  | ret a => exact hf a
  | call c _ ih => exact .call c fun b b' hb => ih b b' hb

theorem Twins.tryBind {p q : ExceptT ε (Prog C) α} {f g : α → ExceptT ε (Prog C) β}
    (h : Twins eqv p.run q.run) (hf : ∀ a, Twins eqv (f a).run (g a).run) :
    Twins eqv (p >>= f).run (q >>= g).run := by
  refine Twins.bind h fun r => ?_
  cases r with
  | ok a => exact hf a
  | error e => exact .ret _

/-- The rule of twin runs. -/
theorem Twins.eval {answer : {β : Type} → C β → σ → β × σ} {R : σ → σ → Prop} {p q : Prog C α}
    {s s' : σ} (h : Twins eqv p q)
    (hR : ∀ {β : Type} (c : C β) (s s' : σ), R s s' →
      eqv β c (answer c s).1 (answer c s').1 ∧ R (answer c s).2 (answer c s').2) (hs : R s s') :
    (Prog.eval answer p s).1 = (Prog.eval answer q s').1 ∧
      R (Prog.eval answer p s).2 (Prog.eval answer q s').2 := by
  induction h generalizing s s' with
  | ret a => exact ⟨rfl, hs⟩
  | call c _ ih =>
    obtain ⟨heqv, hs⟩ := hR c s s' hs
    exact ih _ _ heqv hs

end Claudear.Machine
