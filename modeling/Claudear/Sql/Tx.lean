import Mathlib.Logic.Relation

/-!
# Transactions

A statement reads and writes the database `σ` or fails, and a transaction is a
program of statements: `Tx σ ε α`. One that fails is rolled back, so `commit`
leaves the database as it was.

`Triple P m Q`: from a state in `P`, `m` ends in `Q` if it does not fail.
`Within R m`: every state `m` ends in is related by the preorder `R` to the
state it starts in. With `Preserved P` for `R` this is an invariant, and with
`Same f` it is a frame (`Keeps f m`).
-/

namespace Claudear.Sql

abbrev Tx (σ ε α : Type) := StateT σ (Except ε) α

variable {σ ε α β γ : Type}

/-- A constraint of a statement. -/
def require (p : Prop) [Decidable p] (e : ε) : Except ε Unit := if p then .ok () else .error e

theorem require_bind {p : Prop} [Decidable p] {e : ε} {f : Unit → Except ε α} {a : α}
    (h : (require p e >>= f) = .ok a) : p ∧ f () = .ok a := by
  unfold require at h
  split at h
  · exact ⟨‹p›, h⟩
  · cases h

namespace Tx

/-- The database after the transaction: what it wrote, or a rollback. -/
def commit (m : Tx σ ε α) (s : σ) : σ :=
  match m.run s with
  | .ok (_, s') => s'
  | .error _ => s

theorem commit_ok {m : Tx σ ε α} {s s' : σ} {a : α} (h : m.run s = .ok (a, s')) :
    m.commit s = s' := by
  rw [commit, h]

theorem commit_error {m : Tx σ ε α} {s : σ} {e : ε} (h : m.run s = .error e) :
    m.commit s = s := by
  rw [commit, h]

theorem run_bind {m : Tx σ ε α} {f : α → Tx σ ε β} {s s'' : σ} {b : β}
    (h : (m >>= f).run s = .ok (b, s'')) :
    ∃ a s', m.run s = .ok (a, s') ∧ (f a).run s' = .ok (b, s'') := by
  rw [StateT.run_bind] at h
  cases hm : m.run s with
  | error e => rw [hm] at h; cases h
  | ok r => rw [hm] at h; exact ⟨r.1, r.2, rfl, h⟩

theorem run_bind_ok {m : Tx σ ε α} {f : α → Tx σ ε β} {s s' : σ} {a : α}
    (h : m.run s = .ok (a, s')) : (m >>= f).run s = (f a).run s' := by
  rw [StateT.run_bind, h]
  rfl

/-- A query: it reads the database and changes nothing. -/
def read (f : σ → α) : Tx σ ε α := fun s => .ok (f s, s)

theorem read_bind (f : σ → α) (g : α → Tx σ ε β) (s : σ) :
    (read f >>= g).run s = (g (f s)).run s := rfl

theorem run_pure {a b : α} {s s' : σ} (h : (pure a : Tx σ ε α).run s = .ok (b, s')) :
    b = a ∧ s' = s := by
  cases h
  exact ⟨rfl, rfl⟩

theorem run_map {m : Tx σ ε α} {f : α → β} {s s' : σ} {b : β}
    (h : (f <$> m).run s = .ok (b, s')) : ∃ a, m.run s = .ok (a, s') ∧ b = f a := by
  rw [map_eq_pure_bind] at h
  obtain ⟨a, s₁, hm, hp⟩ := run_bind h
  obtain ⟨rfl, rfl⟩ := run_pure hp
  exact ⟨a, hm, rfl⟩

/-- What is done with the result changes nothing. -/
theorem commit_map (m : Tx σ ε α) (f : α → β) (s : σ) : (f <$> m).commit s = m.commit s := by
  unfold commit
  rw [StateT.run_map]
  cases m.run s <;> rfl

/-- The transaction is committed and answers `true`. -/
def answersTrue (m : Tx σ ε Bool) (s : σ) : Bool :=
  match m.run s with
  | .ok (b, _) => b
  | .error _ => false

theorem answersTrue_ok {m : Tx σ ε Bool} {s s' : σ} {b : Bool} (h : m.run s = .ok (b, s')) :
    m.answersTrue s = b := by
  rw [answersTrue, h]

theorem answersTrue_error {m : Tx σ ε Bool} {s : σ} {e : ε} (h : m.run s = .error e) :
    m.answersTrue s = false := by
  rw [answersTrue, h]

theorem answersTrue_iff {m : Tx σ ε Bool} {s : σ} :
    m.answersTrue s = true ↔ ∃ s', m.run s = .ok (true, s') := by
  unfold answersTrue
  cases m.run s with
  | error e => simp
  | ok r =>
    obtain ⟨b, s'⟩ := r
    simp

/-! ## Pre- and postconditions -/

def Triple (P : σ → Prop) (m : Tx σ ε α) (Q : α → σ → Prop) : Prop :=
  ∀ ⦃s a s'⦄, P s → m.run s = .ok (a, s') → Q a s'

section Triple

variable {P : σ → Prop} {Q : β → σ → Prop} {R : α → σ → Prop} {m : Tx σ ε α}

theorem Triple.pure {Q : α → σ → Prop} {a : α} (h : ∀ s, P s → Q a s) :
    Triple P (pure a : Tx σ ε α) Q := by
  intro s b s' hs hr
  obtain ⟨rfl, rfl⟩ := run_pure hr
  exact h _ hs

theorem Triple.bind {f : α → Tx σ ε β} (hm : Triple P m R) (hf : ∀ a, Triple (R a) (f a) Q) :
    Triple P (m >>= f) Q := by
  intro s b s'' hs hr
  obtain ⟨a, s', h1, h2⟩ := run_bind hr
  exact hf a (hm hs h1) h2

end Triple

/-! ## What a transaction may change -/

def Within (R : σ → σ → Prop) (m : Tx σ ε α) : Prop :=
  ∀ ⦃s a s'⦄, m.run s = .ok (a, s') → R s s'

section Within

variable {R : σ → σ → Prop} {m : Tx σ ε α}

theorem Within.pure [Std.Refl R] (a : α) : Within R (pure a : Tx σ ε α) := by
  intro s b s' h
  obtain ⟨-, rfl⟩ := run_pure h
  exact refl_of R _

theorem Within.mono {R' : σ → σ → Prop} (h : Within R m) (hR : ∀ s s', R s s' → R' s s') :
    Within R' m :=
  fun s _ s' hr => hR s s' (h hr)

theorem Within.throw (e : ε) : Within R (throw e : Tx σ ε α) := by
  intro s a s' h
  cases h

theorem Within.bind [IsTrans σ R] {f : α → Tx σ ε β} (hm : Within R m)
    (hf : ∀ a, Within R (f a)) : Within R (m >>= f) := by
  intro s b s'' h
  obtain ⟨a, s', h1, h2⟩ := run_bind h
  exact trans_of R (hm h1) (hf a h2)

theorem Within.map (hm : Within R m) (f : α → β) : Within R (f <$> m) := by
  intro s b s' h
  obtain ⟨a, ha, -⟩ := run_map h
  exact hm ha

theorem Within.forM [Std.Refl R] [IsTrans σ R] {f : γ → Tx σ ε PUnit} (hf : ∀ c, Within R (f c))
    (l : List γ) : Within R (l.forM f) := by
  induction l with
  | nil => exact Within.pure _
  | cons c l ih => exact (hf c).bind fun _ => ih

end Within

/-! ## Invariants and frames -/

/-- `P` is not lost. -/
def Preserved (P : σ → Prop) (s s' : σ) : Prop := P s → P s'

instance (P : σ → Prop) : Std.Refl (Preserved P) := ⟨fun _ => id⟩

instance (P : σ → Prop) : IsTrans σ (Preserved P) := ⟨fun _ _ _ h h' => h' ∘ h⟩

theorem Within.triple {P : σ → Prop} {m : Tx σ ε α} (h : Within (Preserved P) m) :
    Triple P m fun _ => P :=
  fun _ _ _ hs hr => h hr hs

/-- An invariant of the transaction holds after it, also when it is rolled back. -/
theorem Within.commit {P : σ → Prop} {m : Tx σ ε α} (h : Within (Preserved P) m) {s : σ}
    (hs : P s) : P (m.commit s) := by
  cases hm : m.run s with
  | error e => rwa [commit_error hm]
  | ok r =>
    rw [commit_ok hm]
    exact h hm hs

/-- `f` is the same in both states. -/
def Same (f : σ → β) (s s' : σ) : Prop := f s' = f s

instance (f : σ → β) : Std.Refl (Same f) := ⟨fun _ => rfl⟩

instance (f : σ → β) : IsTrans σ (Same f) := ⟨fun _ _ _ h h' => Eq.trans h' h⟩

/-- The transaction leaves `f` as it is. -/
abbrev Keeps (f : σ → β) (m : Tx σ ε α) : Prop := Within (Same f) m

end Tx

end Claudear.Sql
