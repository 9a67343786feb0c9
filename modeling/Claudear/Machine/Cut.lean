import Claudear.Machine.Prog

/-!
# Programs that are cut off

A program whose calls may be left without an answer stops at the first such call,
with what its calls did before. `Still` says that what is made of a program up to
there leaves the state as it is.
-/

namespace Claudear.Machine.Prog

universe u

variable {C : Type → Type u} {σ α β : Type}

/-- The result, unless a call had no answer, and the state. -/
def cut (answer : {β : Type} → C β → σ → Option (β × σ)) : Prog C α → σ → Option α × σ
  | ret a, s => (some a, s)
  | call c k, s =>
    match answer c s with
    | some r => cut answer (k r.1) r.2
    | none => (none, s)

variable {answer : {β : Type} → C β → σ → Option (β × σ)} {s : σ}

theorem cut_perform_bind {c : C β} {f : β → Prog C α} :
    cut answer (.perform c >>= f) s =
      match answer c s with
      | some r => cut answer (f r.1) r.2
      | none => (none, s) := by
  show cut answer (call c f) s = _
  rw [cut]

theorem cut_bind (p : Prog C α) (f : α → Prog C β) :
    cut answer (p >>= f) s =
      match (cut answer p s).1 with
      | some a => cut answer (f a) (cut answer p s).2
      | none => (none, (cut answer p s).2) := by
  induction p generalizing s with
  | ret a => rfl
  | call c k ih =>
    show cut answer (call c fun b => k b >>= f) s = _
    simp only [cut]
    cases answer c s with
    | none => rfl
    | some r => exact ih r.1

/-! ## Rules -/

/-- `Q` holds of the result, if there is one, and the state. -/
def Leaves (answer : {β : Type} → C β → σ → Option (β × σ)) (p : Prog C α) (Q : Option α → σ → Prop)
    (s : σ) : Prop :=
  Q (cut answer p s).1 (cut answer p s).2

variable {Q Q' : Option α → σ → Prop} {R : Option β → σ → Prop}

theorem leaves_pure {a : α} (h : Q (some a) s) : Leaves answer (pure a) Q s := h

theorem Leaves.mono {p : Prog C α} (h : Leaves answer p Q s) (hQ : ∀ a s, Q a s → Q' a s) :
    Leaves answer p Q' s := hQ _ _ h

theorem leaves_call {c : C α} {f : α → Prog C β} (hnone : answer c s = none → R none s)
    (hsome : ∀ a s', answer c s = some (a, s') → Leaves answer (f a) R s') :
    Leaves answer (.perform c >>= f) R s := by
  unfold Leaves
  rw [cut_perform_bind]
  cases h : answer c s with
  | none => exact hnone h
  | some r => exact hsome r.1 r.2 h

theorem Leaves.bind {p : Prog C α} {f : α → Prog C β} (h : Leaves answer p Q s)
    (hnone : ∀ s, Q none s → R none s) (hsome : ∀ a s, Q (some a) s → Leaves answer (f a) R s) :
    Leaves answer (p >>= f) R s := by
  unfold Leaves at h ⊢
  rw [cut_bind]
  cases hr : (cut answer p s).1 with
  | none =>
    rw [hr] at h
    exact hnone _ h
  | some a =>
    rw [hr] at h
    exact hsome a _ h

/-- What every answer leaves true holds wherever a program is cut off. -/
theorem leaves_always {L : σ → Prop}
    (hL : ∀ {β : Type} (c : C β) (s : σ) (r : β × σ), answer c s = some r → L s → L r.2)
    (p : Prog C α) (hs : L s) : Leaves answer p (fun _ => L) s := by
  induction p generalizing s with
  | ret a => exact hs
  | call c k ih =>
    unfold Leaves
    simp only [cut]
    cases h : answer c s with
    | none => exact hs
    | some r => exact ih r.1 (hL c s r h hs)

/-! ## Programs that change nothing -/

/-- The state stays as it is, and `P` holds of the result if there is one. -/
abbrev Still (answer : {β : Type} → C β → σ → Option (β × σ)) (p : Prog C α) (P : α → Prop) (s : σ) :
    Prop :=
  Leaves answer p (fun r s' => s' = s ∧ ∀ a, r = some a → P a) s

variable {P : α → Prop} {P' : β → Prop}

theorem still_pure {a : α} (h : P a) : Still answer (pure a) P s :=
  ⟨rfl, fun _ hb => Option.some.inj hb ▸ h⟩

theorem still_call {c : C α} {f : α → Prog C β}
    (h : ∀ a s', answer c s = some (a, s') → s' = s ∧ Still answer (f a) P' s) :
    Still answer (.perform c >>= f) P' s := by
  refine leaves_call (fun _ => ⟨rfl, fun a ha => by cases ha⟩) fun a s' ha => ?_
  obtain ⟨rfl, hf⟩ := h a s' ha
  exact hf

theorem still_perform {c : C α} (h : ∀ a s', answer c s = some (a, s') → s' = s ∧ P a) :
    Still answer (.perform c) P s :=
  still_call (f := pure) fun a s' ha => ⟨(h a s' ha).1, still_pure (h a s' ha).2⟩

theorem Still.bind {p : Prog C α} {f : α → Prog C β} (h : Still answer p P s)
    (hf : ∀ a, P a → Still answer (f a) P' s) : Still answer (p >>= f) P' s := by
  refine Leaves.bind h (fun s' hs => ⟨hs.1, fun a ha => by cases ha⟩) fun a s' hs => ?_
  obtain ⟨rfl, ha⟩ := hs
  exact hf a (ha a rfl)

end Claudear.Machine.Prog
