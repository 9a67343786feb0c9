import Mathlib.Tactic.TypeStar

/-!
# Trails

A trail is what an audit log says about one object of a state machine: the
states it was in, as the list of its steps. The first entry is its creation,
with no state before it, and every other entry leaves the state the one before
it entered. `Trail I E l a`: the object was created in a state of `I`, every
step of `l` is an edge of `E`, and the last one ends in `a`.

`Told I E state log` says this of every object of a system at once, those that
exist and those that do not yet. It is kept by a step that creates an object or
moves one along an edge and appends that to its log, and by a step that touches
neither.
-/

namespace Claudear.Machine

variable {α κ : Type*}

inductive Trail (I : α → Prop) (E : α → α → Prop) : List (Option α × α) → α → Prop
  | start {a : α} (h : I a) : Trail I E [(none, a)] a
  | step {l : List (Option α × α)} {a b : α} (h : Trail I E l a) (he : E a b) :
      Trail I E (l ++ [(some a, b)]) b

/-- The log of every object is the trail to its state. -/
def Told (I : α → Prop) (E : α → α → Prop) (state : κ → Option α)
    (log : κ → List (Option α × α)) : Prop := ∀ k,
  (∀ a, state k = some a → Trail I E (log k) a) ∧ (state k = none → log k = [])

namespace Told

variable {I : α → Prop} {E : α → α → Prop} {state state' : κ → Option α}
  {log log' : κ → List (Option α × α)}

theorem initial (hs : ∀ k, state k = none) (hl : ∀ k, log k = []) : Told I E state log := by
  intro k
  refine ⟨fun a ha => ?_, fun _ => hl k⟩
  rw [hs] at ha
  cases ha

theorem congr (h : Told I E state log) (hs : ∀ k, state' k = state k) (hl : ∀ k, log' k = log k) :
    Told I E state' log' := by
  intro k
  rw [hs, hl]
  exact h k

variable [DecidableEq κ] {k : κ} {a b : α}

theorem create (h : Told I E state log) (hk : state k = none) (ha : I a)
    (hs : ∀ j, state' j = if j = k then some a else state j)
    (hl : ∀ j, log' j = log j ++ if j = k then [(none, a)] else []) : Told I E state' log' := by
  intro j
  rw [hs, hl]
  by_cases hj : j = k
  · subst hj
    rw [if_pos rfl, if_pos rfl, (h j).2 hk]
    refine ⟨fun c hc => ?_, nofun⟩
    cases hc
    exact .start ha
  · rw [if_neg hj, if_neg hj, List.append_nil]
    exact h j

theorem move (h : Told I E state log) (hk : state k = some a) (he : E a b)
    (hs : ∀ j, state' j = if j = k then some b else state j)
    (hl : ∀ j, log' j = log j ++ if j = k then [(some a, b)] else []) : Told I E state' log' := by
  intro j
  rw [hs, hl]
  by_cases hj : j = k
  · subst hj
    rw [if_pos rfl, if_pos rfl]
    refine ⟨fun c hc => ?_, nofun⟩
    cases hc
    exact .step ((h j).1 a hk) he
  · rw [if_neg hj, if_neg hj, List.append_nil]
    exact h j

end Told

end Claudear.Machine
