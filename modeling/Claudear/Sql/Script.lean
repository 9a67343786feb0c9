import Mathlib.Data.List.Basic

/-!
# Scripts of statements outside of a transaction

A `Script` runs statements on a connection one by one. Each of them may fail, and
nothing is rolled back: what was done before stays, also when the script ends
with an error. What becomes of the statements is on a list of `Outcome`s, so a
theorem about every list is one about failures anywhere.

`Runs m Q E c` is a weakest precondition: on the connection `c`, the script `m`
ends in `Q` with a result, or in `E` with an error. `Ends m Q E d` says it of the
data `d` and every list of outcomes.
-/

namespace Claudear.Sql

/-- A statement that is done has taken effect; one that fails may have. -/
inductive Outcome where
  | done
  | failed (effect : Bool)
  deriving DecidableEq, Repr

structure Connection (δ : Type) where
  data : δ
  /-- Of the next statements; those after them are done. -/
  outcomes : List Outcome

def Script (δ ε α : Type) := Connection δ → Except ε α × Connection δ

namespace Script

variable {δ ε α β γ : Type}

instance : Monad (Script δ ε) where
  pure a c := (.ok a, c)
  bind m f c :=
    match m c with
    | (.ok a, c) => f a c
    | (.error e, c) => (.error e, c)

def fail (e : ε) : Script δ ε α := fun c => (.error e, c)

/-- What is no statement: it reads the data in memory and cannot fail. -/
def look : Script δ ε δ := fun c => (.ok c.data, c)

def change (f : δ → δ) : Script δ ε Unit := fun c => (.ok (), { c with data := f c.data })

/-- A statement: `onOk` is done by it, `onError` when it fails. -/
def statement (e : ε) (result : δ → α) (onOk : δ → δ) (onError : Bool → δ → δ) : Script δ ε α :=
  fun c =>
    match c.outcomes with
    | [] => (.ok (result c.data), { c with data := onOk c.data })
    | .done :: rest => (.ok (result c.data), ⟨onOk c.data, rest⟩)
    | .failed effect :: rest => (.error e, ⟨onError effect c.data, rest⟩)

/-- A query. -/
def read (e : ε) (f : δ → α) : Script δ ε α := statement e f id fun _ => id

/-- A statement that may have taken effect when it fails. -/
def execute (e : ε) (f : δ → δ) : Script δ ε Unit :=
  statement e (fun _ => ()) f fun effect d => if effect then f d else d

/-- A statement that takes effect or fails. -/
def commit (e : ε) (f : δ → δ) : Script δ ε Unit := statement e (fun _ => ()) f fun _ => id

/-- The result, or the error, of a script. -/
def attempt (m : Script δ ε α) : Script δ ε (Except ε α) := fun c =>
  let r := m c
  (.ok r.1, r.2)

def ofExcept : Except ε α → Script δ ε α
  | .ok a => pure a
  | .error e => fail e

/-- The data after the script, however it ends. -/
def after (m : Script δ ε α) (outcomes : List Outcome) (d : δ) : δ := (m ⟨d, outcomes⟩).2.data

/-! ## One connection -/

def Runs (m : Script δ ε α) (Q : α → Connection δ → Prop) (E : ε → Connection δ → Prop)
    (c : Connection δ) : Prop :=
  match m c with
  | (.ok a, c) => Q a c
  | (.error e, c) => E e c

section Runs

variable {m : Script δ ε α} {f : α → Script δ ε β} {Q Q' : α → Connection δ → Prop}
  {R : β → Connection δ → Prop} {E E' : ε → Connection δ → Prop} {c : Connection δ} {e : ε}

theorem Runs.mono (h : Runs m Q E c) (hQ : ∀ a c, Q a c → Q' a c) (hE : ∀ e c, E e c → E' e c) :
    Runs m Q' E' c := by
  revert h
  unfold Runs
  split
  · exact hQ _ _
  · exact hE _ _

/-- How a script is known to end decides how else it ends. -/
theorem Runs.iff {P : Prop} (h : Runs m Q E c) (hQ : ∀ a c, Q a c → (Q' a c ↔ P))
    (hE : ∀ e c, E e c → (E' e c ↔ P)) : Runs m Q' E' c ↔ P := by
  revert h
  unfold Runs
  split
  · exact hQ _ _
  · exact hE _ _

theorem Runs.bind (h : Runs m (fun a c => Runs (f a) R E c) E c) : Runs (m >>= f) R E c := by
  revert h
  show _ → match (match m c with
    | (.ok a, c) => f a c
    | (.error e, c) => (.error e, c)) with
    | (.ok a, c) => R a c
    | (.error e, c) => E e c
  unfold Runs
  split <;> exact fun h => h

theorem runs_pure {a : α} (h : Q a c) : Runs (pure a) Q E c := h

theorem runs_look {Q : δ → Connection δ → Prop} (h : Q c.data c) : Runs look Q E c := h

/-- Of a statement: whether it fails is what comes next on the list. -/
theorem runs_statement {result : δ → α} {onOk : δ → δ} {onError : Bool → δ → δ}
    (h : (∀ b rest, c.outcomes ≠ .failed b :: rest) →
      Q (result c.data) ⟨onOk c.data, c.outcomes.tail⟩)
    (he : ∀ b rest, c.outcomes = .failed b :: rest → E e ⟨onError b c.data, rest⟩) :
    Runs (statement e result onOk onError) Q E c := by
  unfold Runs statement
  obtain ⟨d, outcomes⟩ := c
  cases outcomes with
  | nil => exact h nofun
  | cons o rest =>
    cases o with
    | done => exact h nofun
    | failed b => exact he b rest rfl

theorem runs_read {g : δ → α}
    (h : (∀ b rest, c.outcomes ≠ .failed b :: rest) → Q (g c.data) ⟨c.data, c.outcomes.tail⟩)
    (he : ∀ b rest, c.outcomes = .failed b :: rest → E e ⟨c.data, rest⟩) : Runs (read e g) Q E c :=
  runs_statement h he

theorem runs_commit {g : δ → δ} {Q : Unit → Connection δ → Prop}
    (h : (∀ b rest, c.outcomes ≠ .failed b :: rest) → Q () ⟨g c.data, c.outcomes.tail⟩)
    (he : ∀ b rest, c.outcomes = .failed b :: rest → E e ⟨c.data, rest⟩) : Runs (commit e g) Q E c :=
  runs_statement h he

theorem runs_attempt {Q : Except ε α → Connection δ → Prop}
    (h : Runs m (fun a => Q (.ok a)) (fun e => Q (.error e)) c) : Runs (attempt m) Q E c := by
  revert h
  show _ → Q (m c).1 (m c).2
  unfold Runs
  split
  · next heq => rw [heq]; exact fun h => h
  · next heq => rw [heq]; exact fun h => h

theorem Runs.after {P : δ → Prop} {d : δ} {outcomes : List Outcome}
    (h : Runs m (fun _ c => P c.data) (fun _ c => P c.data) ⟨d, outcomes⟩) : P (m.after outcomes d) := by
  revert h
  unfold Script.after Runs
  split
  · next heq => rw [heq]; exact fun h => h
  · next heq => rw [heq]; exact fun h => h

end Runs

/-! ## Failures anywhere -/

def Ends (m : Script δ ε α) (Q : α → δ → Prop) (E : ε → δ → Prop) (d : δ) : Prop :=
  ∀ outcomes, Runs m (fun a c => Q a c.data) (fun e c => E e c.data) ⟨d, outcomes⟩

variable {m : Script δ ε α} {f : α → Script δ ε β} {Q Q' : α → δ → Prop} {R : β → δ → Prop}
  {E E' : ε → δ → Prop} {d : δ} {e : ε}

theorem Ends.runs {c : Connection δ} (h : Ends m Q E c.data) :
    Runs m (fun a c => Q a c.data) (fun e c => E e c.data) c :=
  h c.outcomes

theorem Ends.mono (h : Ends m Q E d) (hQ : ∀ a d, Q a d → Q' a d) (hE : ∀ e d, E e d → E' e d) :
    Ends m Q' E' d :=
  fun o => (h o).mono (fun _ _ => hQ _ _) fun _ _ => hE _ _

theorem Ends.bind (h : Ends m (fun a d => Ends (f a) R E d) E d) : Ends (m >>= f) R E d :=
  fun o => Runs.bind ((h o).mono (fun _ _ ha => ha.runs) fun _ _ he => he)

/-- The rule for a script that is known to end in `Q'`. -/
theorem Ends.seq (h : Ends m Q' E' d) (hQ : ∀ a d, Q' a d → Ends (f a) R E d)
    (hE : ∀ e d, E' e d → E e d) : Ends (m >>= f) R E d :=
  Ends.bind (h.mono hQ hE)

theorem ends_pure {a : α} (h : Q a d) : Ends (pure a) Q E d := fun _ => h

theorem ends_fail (h : E e d) : Ends (fail e) Q E d := fun _ => h

theorem ends_look {Q : δ → δ → Prop} (h : Q d d) : Ends look Q E d := fun _ => h

theorem ends_change {g : δ → δ} {Q : Unit → δ → Prop} (h : Q () (g d)) : Ends (change g) Q E d :=
  fun _ => h

theorem ends_statement {result : δ → α} {onOk : δ → δ} {onError : Bool → δ → δ}
    (h : Q (result d) (onOk d)) (he : ∀ b, E e (onError b d)) :
    Ends (statement e result onOk onError) Q E d :=
  fun _ => runs_statement (fun _ => h) fun b _ _ => he b

theorem ends_read {g : δ → α} (h : Q (g d) d) (he : E e d) : Ends (read e g) Q E d :=
  ends_statement h fun _ => he

theorem ends_execute {g : δ → δ} {Q : Unit → δ → Prop} (h : Q () (g d)) (he : E e (g d))
    (hd : E e d) : Ends (execute e g) Q E d := by
  refine ends_statement h fun b => ?_
  cases b
  · exact hd
  · exact he

theorem ends_commit {g : δ → δ} {Q : Unit → δ → Prop} (h : Q () (g d)) (he : E e d) :
    Ends (commit e g) Q E d :=
  ends_statement h fun _ => he

theorem ends_attempt {Q : Except ε α → δ → Prop}
    (h : Ends m (fun a => Q (.ok a)) (fun e => Q (.error e)) d) : Ends (attempt m) Q E d :=
  fun o => runs_attempt (h o)

theorem ends_ofExcept {r : Except ε α} (h : ∀ a, r = .ok a → Q a d) (he : ∀ e, r = .error e → E e d) :
    Ends (ofExcept r) Q E d := by
  cases r with
  | ok a => exact ends_pure (h a rfl)
  | error e => exact ends_fail (he e rfl)

/-- The rule for a loop: `L` is about what is still to be done. -/
theorem ends_forM {L : List γ → δ → Prop} {g : γ → Script δ ε PUnit} {l : List γ}
    (hg : ∀ c l d, L (c :: l) d → Ends (g c) (fun _ => L l) E d) (hl : L l d) :
    Ends (l.forM g) (fun _ => L []) E d := by
  induction l generalizing d with
  | nil => exact ends_pure hl
  | cons c l ih => exact Ends.bind ((hg c l d hl).mono (fun _ _ h => ih h) fun _ _ he => he)

/-- What holds however the script ends. -/
theorem Ends.after {P : δ → Prop} (h : Ends m (fun _ => P) (fun _ => P) d) (outcomes : List Outcome) :
    P (m.after outcomes d) :=
  Runs.after (h outcomes)

end Script

end Claudear.Sql
