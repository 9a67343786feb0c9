import Mathlib.Algebra.Group.Defs
import Mathlib.Data.List.Induction

/-!
# Runs of a step function

A system is a step function `step : σ → α → σ` over its calls. A call that is
refused leaves the state as it is, so `run` folds over any list of calls. When
every call is atomic, a list of calls is one interleaving of its callers, and a
theorem about every list is a theorem about every interleaving of any number of
them.

`Along C s l` says that every call of `l` meets `C` in the state it is made in;
`Always P s l` says that `P` holds in every state the run passes through. `total`
and `seen` collect what the calls of a run add up to and show.
-/

namespace Claudear.Machine

variable {σ α β : Type*} {step : σ → α → σ}

/-- The state after the calls `l`, made in order from `s`. -/
def run (step : σ → α → σ) (s : σ) (l : List α) : σ := l.foldl step s

@[simp] theorem run_nil (s : σ) : run step s [] = s := rfl

@[simp] theorem run_cons (s : σ) (a : α) (l : List α) :
    run step s (a :: l) = run step (step s a) l := rfl

theorem run_append (s : σ) (l m : List α) :
    run step s (l ++ m) = run step (run step s l) m := List.foldl_append

theorem run_concat (s : σ) (l : List α) (a : α) :
    run step s (l ++ [a]) = step (run step s l) a := by
  rw [run_append]; rfl

/-- Every call of the list meets `C` in the state it is made in. -/
def Along (step : σ → α → σ) (C : σ → α → Prop) : σ → List α → Prop
  | _, [] => True
  | s, a :: l => C s a ∧ Along step C (step s a) l

/-- `P` holds in every state the calls pass through, the first and the last included. -/
def Always (step : σ → α → σ) (P : σ → Prop) : σ → List α → Prop
  | s, [] => P s
  | s, a :: l => P s ∧ Always step P (step s a) l

instance Along.decidable (C : σ → α → Prop) [∀ s a, Decidable (C s a)] :
    ∀ (s : σ) (l : List α), Decidable (Along step C s l)
  | _, [] => .isTrue trivial
  | s, a :: l =>
    have := Along.decidable C (step s a) l
    inferInstanceAs (Decidable (C s a ∧ _))

/-! ## Conditions along a run -/

variable {C D : σ → α → Prop} {P Q : σ → Prop} {s : σ} {l m : List α}

theorem along_append : Along step C s (l ++ m) ↔ Along step C s l ∧ Along step C (run step s l) m := by
  induction l generalizing s with
  | nil => simp [Along]
  | cons a l ih => simp only [List.cons_append, Along, ih, run_cons, and_assoc]

/-- A condition that does not look at the state is met along a run when every call meets it. -/
theorem along_const {c : α → Prop} : Along step (fun _ => c) s l ↔ ∀ a ∈ l, c a := by
  induction l generalizing s with
  | nil => simp [Along]
  | cons a l ih => simp only [Along, ih, List.forall_mem_cons]

theorem along_of_forall (h : ∀ a ∈ l, ∀ s, C s a) : Along step C s l := by
  induction l generalizing s with
  | nil => exact trivial
  | cons a l ih =>
    obtain ⟨ha, hl⟩ := List.forall_mem_cons.mp h
    exact ⟨ha s, ih hl⟩

theorem along_and :
    Along step (fun s a => C s a ∧ D s a) s l ↔ Along step C s l ∧ Along step D s l := by
  induction l generalizing s with
  | nil => simp [Along]
  | cons a l ih => simp only [Along, ih, and_and_and_comm]

/-! ## Invariants -/

/-- The invariant rule: what every call that meets `C` preserves holds after every run whose
calls all meet `C`. -/
theorem Along.inv (h : Along step C s l) (hstep : ∀ s a, P s → C s a → P (step s a)) (h0 : P s) :
    P (run step s l) := by
  induction l generalizing s with
  | nil => exact h0
  | cons a l ih => exact ih h.2 (hstep s a h0 h.1)

/-- What follows of a call from an invariant and `C` holds along a run whose calls all meet `C`. -/
theorem Along.along (h : Along step C s l) (hstep : ∀ s a, P s → C s a → P (step s a))
    (hD : ∀ s a, P s → C s a → D s a) (h0 : P s) : Along step D s l := by
  induction l generalizing s with
  | nil => exact trivial
  | cons a l ih => exact ⟨hD s a h0 h.1, ih h.2 (hstep s a h0 h.1)⟩

/-- What every call that meets `C` preserves holds along a run whose calls all meet `C`. -/
theorem Along.always (h : Along step C s l) (hstep : ∀ s a, P s → C s a → P (step s a)) (h0 : P s) :
    Always step P s l := by
  induction l generalizing s with
  | nil => exact h0
  | cons a l ih => exact ⟨h0, ih h.2 (hstep s a h0 h.1)⟩

theorem Always.imp (h : Always step P s l) (hPQ : ∀ s, P s → Q s) : Always step Q s l := by
  induction l generalizing s with
  | nil => exact hPQ s h
  | cons a l ih => exact ⟨hPQ s h.1, ih h.2⟩

/-- The invariant rule for a property that every call preserves. -/
theorem run_inv (hstep : ∀ s a, P s → P (step s a)) (h0 : P s) (l : List α) :
    P (run step s l) := by
  induction l generalizing s with
  | nil => exact h0
  | cons a l ih => exact ih (hstep s a h0)

theorem always_iff_run : Always step P s l ↔ ∀ pre, pre <+: l → P (run step s pre) := by
  induction l generalizing s with
  | nil => simp [Always, List.prefix_nil]
  | cons a l ih =>
    simp only [Always, ih]
    constructor
    · rintro ⟨h0, h⟩ pre hpre
      rcases List.prefix_cons_iff.mp hpre with rfl | ⟨t, rfl, ht⟩
      · exact h0
      · exact h t ht
    · intro h
      exact ⟨h [] List.nil_prefix, fun t ht => h (a :: t) (List.cons_prefix_cons.mpr ⟨rfl, ht⟩)⟩

/-- The rule for a property of the calls made so far: when one more call keeps it exactly if `C`
says so, every part of a run has it exactly if `C` says so of each call. -/
theorem forall_prefix_iff {P : List α → Prop} {C : List α → α → Prop}
    (hstep : ∀ pre a, P pre → (P (pre ++ [a]) ↔ C pre a)) (h0 : P []) :
    (∀ pre, pre <+: l → P pre) ↔ ∀ pre a, pre ++ [a] <+: l → C pre a := by
  constructor
  · intro h pre a hpre
    exact (hstep pre a (h pre ((List.prefix_append pre [a]).trans hpre))).mp (h _ hpre)
  · intro h pre
    induction pre using List.reverseRecOn with
    | nil => exact fun _ => h0
    | append_singleton pre a ih =>
      intro hpre
      exact (hstep pre a (ih ((List.prefix_append pre [a]).trans hpre))).mpr (h pre a hpre)

/-- Under an invariant `I`, when a call keeps `P` exactly if it meets `C`, a run stays in `P`
exactly if all its calls meet `C`: the first call that does not leaves `P`. -/
theorem always_iff_along_inv {I : σ → Prop} (hI : ∀ s a, I s → I (step s a))
    (hstep : ∀ s a, I s → P s → (P (step s a) ↔ C s a)) (hi : I s) (h0 : P s) :
    Always step P s l ↔ Along step C s l := by
  induction l generalizing s with
  | nil => exact iff_of_true h0 trivial
  | cons a l ih =>
    have hi' := hI s a hi
    simp only [Always, Along, h0, true_and]
    constructor
    · intro h
      have h1 : P (step s a) := by
        cases l with
        | nil => exact h
        | cons b l => exact h.1
      exact ⟨(hstep s a hi h0).mp h1, (ih hi' h1).mp h⟩
    · rintro ⟨hc, h⟩
      exact (ih hi' ((hstep s a hi h0).mpr hc)).mpr h

theorem always_iff_along (hstep : ∀ s a, P s → (P (step s a) ↔ C s a)) (h0 : P s) :
    Always step P s l ↔ Along step C s l :=
  always_iff_along_inv (I := fun _ => True) (fun _ _ h => h) (fun s a _ h => hstep s a h) trivial h0

/-! ## Accounting -/

/-- What the calls of a run add up to. -/
def total [AddMonoid β] (step : σ → α → σ) (f : σ → α → β) : σ → List α → β
  | _, [] => 0
  | s, a :: l => f s a + total step f (step s a) l

/-- A quantity every call changes by `f` is changed by the total of `f` over a run. -/
theorem run_total [AddMonoid β] {f : σ → α → β} {g : σ → β} {I : σ → Prop}
    (hI : ∀ s a, I s → I (step s a)) (hstep : ∀ s a, I s → g (step s a) = g s + f s a) (hi : I s)
    (l : List α) : g (run step s l) = g s + total step f s l := by
  induction l generalizing s with
  | nil => simp [total]
  | cons a l ih => rw [run_cons, ih (hI s a hi), hstep s a hi, total, add_assoc]

/-! ## Histories -/

/-- What `f` sees of the calls of a run, in order. -/
def seen (step : σ → α → σ) (f : σ → α → Option β) : σ → List α → List β
  | _, [] => []
  | s, a :: l => (f s a).toList ++ seen step f (step s a) l

/-- The invariant rule for a property of the state and of what has been seen so far. -/
theorem Along.seen {f : σ → α → Option β} {P : σ → List β → Prop} (h : Along step C s l)
    (hstep : ∀ s h a, P s h → C s a → P (step s a) (h ++ (f s a).toList)) {hist : List β}
    (h0 : P s hist) : P (run step s l) (hist ++ seen step f s l) := by
  induction l generalizing s hist with
  | nil =>
    rw [Machine.seen, List.append_nil]
    exact h0
  | cons a l ih =>
    rw [Machine.seen, ← List.append_assoc]
    exact ih h.2 (hstep s hist a h0 h.1)

end Claudear.Machine
