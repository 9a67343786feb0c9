import Claudear.Storage.VectorIndex
import Mathlib.Order.Basic

/-!
# The table of the vector index

An index that is marked built or being built under the generation of the
connection agrees with its source; one with an outdated mark holds nothing.
`Indexed w pending` says so, but for the pending rows, whose source has changed
and which the index has yet to follow in. Here it is kept by what checks the mark
and makes the table.
-/

namespace Claudear.Storage.VectorIndex

open Claudear.Sql Claudear.Sql.Script

/-! ## Agreement -/

namespace World

variable (w : World)

def stored (id : Nat) : Option Blob := (w.source.get id).bind (·.embedding)

/-- The embedding of the row, if it has the dimension. -/
def wanted (dimension id : Nat) : Option Blob :=
  (w.stored id).filter fun b => b.length = byteLength dimension

/-- Nobody has changed the schema since the generation. -/
def Current (g : Nat) : Prop := w.session.generation = g ∧ w.session.schemaVersion = w.schemaVersion

instance (g : Nat) : Decidable (w.Current g) := inferInstanceAs (Decidable (_ ∧ _))

end World

/-- An index that is built or being built holds only what its source has. -/
def HoldsOnly (w : World) : Prop :=
  ∀ d ∈ w.state.dimension, ∀ id b, w.vectors id = some b → w.wanted d id = some b

/-- The index holds all that its source has up to a bound, but for the rows that were skipped. -/
def HoldsAll (w : World) (dimension : Nat) (upTo : Nat → Prop) : Prop :=
  ∀ id b, upTo id → w.wanted dimension id = some b → w.vectors id = some b ∨ id ∈ w.skipped

/-! ## The invariant -/

/-- The index agrees with its source, but in the pending rows. -/
structure Follows (w : World) (pending : List Nat) (dimension : Nat) (upTo : Nat → Prop) : Prop where
  sound : ∀ id b, id ∉ pending → w.vectors id = some b → w.wanted dimension id = some b
  complete : ∀ id b, id ∉ pending → upTo id → w.wanted dimension id = some b →
    w.vectors id = some b ∨ id ∈ w.skipped

structure Marked (w : World) (pending : List Nat) (dimension g : Nat) (upTo : Nat → Prop) : Prop where
  valid : validateDimension dimension = .ok ()
  counted : g ≤ w.session.generation
  current : w.Current g → (∃ c, w.lookup = .declared ⟨dimension, c⟩) ∧ Follows w pending dimension upTo
  outdated : ¬ w.Current g → ∀ id, w.vectors id = none

def Holds (w : World) (pending : List Nat) : State → Prop
  | .unbuilt => ∀ id, w.vectors id = none
  | .building dimension _ cursor g => Marked w pending dimension g (· ≤ cursor)
  | .built dimension _ g => Marked w pending dimension g fun _ => True
  | .stale _ | .unavailable => True

def Issue.key (r : Issue) : Option (String × String) := some (r.source, r.issueId)

structure Sourced (w : World) : Prop where
  keys : Table.Unique Issue.key w.source
  positive : w.source.get 0 = none ∧ 0 < w.source.next
  versions : w.session.schemaVersion ≤ w.schemaVersion

structure Indexed (w : World) (pending : List Nat) : Prop extends Sourced w where
  state : Holds w pending w.state

variable {w w' : World} {pending : List Nat} {dimension g : Nat} {upTo : Nat → Prop}

theorem not_current_of_lt (h : g < w.session.generation) : ¬ w.Current g :=
  fun hc => absurd hc.1 (Nat.ne_of_gt h)

/-- What becomes of the state when the world changes. -/
theorem Holds.imp {s : State} {rest : List Nat} (h : Holds w pending s)
    (hu : s.dimension = none → (∀ id, w.vectors id = none) → ∀ id, w'.vectors id = none)
    (hm : ∀ d g upTo, s.dimension = some d → s.generation = some g →
      Marked w pending d g upTo → Marked w' rest d g upTo) : Holds w' rest s := by
  cases s with
  | building | built => exact hm _ _ _ rfl rfl h
  | unbuilt => exact hu rfl h
  | stale | unavailable => exact trivial

/-- An index that is neither built nor being built has nothing to follow. -/
theorem holds_unmarked (hs : w.state.dimension = none)
    (hu : w.state = .unbuilt → ∀ id, w.vectors id = none) : Holds w pending w.state := by
  revert hs hu
  cases w.state with
  | building | built => exact fun hs => by cases hs
  | unbuilt => exact fun _ hu => hu rfl
  | stale | unavailable => exact fun _ _ => trivial

theorem Indexed.vectors_unbuilt (h : Indexed w pending) (hs : w.state = .unbuilt) :
    ∀ id, w.vectors id = none := by
  have hstate := h.state
  rwa [hs] at hstate

theorem Indexed.unmarked {rest : List Nat} (h : Indexed w pending) (hs : w.state.dimension = none) :
    Indexed w rest :=
  ⟨h.toSourced, holds_unmarked hs h.vectors_unbuilt⟩

/-- The generation has changed. -/
theorem Marked.outdated_by (h : Marked w pending dimension g upTo) (hs : ¬ w.Current g)
    (hv : w'.vectors = w.vectors) (hg : w.session.generation ≤ w'.session.generation)
    (hs' : ¬ w'.Current g) : Marked w' pending dimension g upTo where
  valid := h.valid
  counted := Nat.le_trans h.counted hg
  current hc := absurd hc hs'
  outdated _ := hv ▸ h.outdated hs

/-! ## The session -/

theorem Indexed.observed (h : Indexed w pending) (hv : w.session.schemaVersion ≠ w.schemaVersion) :
    Indexed (w.observed w.schemaVersion) pending := by
  refine ⟨⟨h.keys, h.positive, Int.le_refl _⟩, h.state.imp (fun _ h => h) fun d g upTo _ _ hm => ?_⟩
  exact hm.outdated_by (fun hc => hv hc.2) rfl (Nat.le_succ _)
    (not_current_of_lt (Nat.lt_succ_of_le hm.counted))

/-- It fails only when its read does. -/
theorem runs_generation {o : List Outcome} (h : Indexed w pending) :
    Runs generation
      (fun g c => (Indexed c.data pending ∧ c.data.Current g ∧ ∃ s, c.data = { w with session := s }) ∧
        (∀ b rest, o ≠ .failed b :: rest) ∧ c.outcomes = o.tail)
      (fun _ c => c.data = w ∧ ∃ b rest, o = .failed b :: rest) ⟨w, o⟩ := by
  refine Runs.bind (runs_read (fun ho => Runs.bind ?_) fun b rest hb => ⟨rfl, b, rest, hb⟩)
  show Runs (if w.session.schemaVersion = w.schemaVersion then _ else _) _ _ _
  split
  · next hv => exact ⟨⟨h, ⟨rfl, hv⟩, w.session, rfl⟩, ho, rfl⟩
  · next hv => exact ⟨⟨h.observed hv, ⟨rfl, rfl⟩, _, rfl⟩, ho, rfl⟩

theorem ends_generation (h : Indexed w pending) :
    Ends generation (fun g w' => Indexed w' pending ∧ w'.Current g ∧ ∃ s, w' = { w with session := s })
      (fun _ w' => w' = w) w :=
  fun _ => (runs_generation h).mono (fun _ _ hc => hc.1) fun _ _ he => he.1

/-- The mark of the index is up to date. -/
def Fresh (w : World) : Prop := ∀ g ∈ w.state.generation, w.Current g

theorem Fresh.follows (h : Indexed w pending) (hf : Fresh w) {d : Nat} (hd : w.state.dimension = some d) :
    validateDimension d = .ok () ∧ (∃ c, w.lookup = .declared ⟨d, c⟩) ∧
      Follows w pending d fun id => ∀ c k g, w.state = .building d c k g → id ≤ k := by
  have hstate := h.state
  have hcurrent := hf
  revert hstate hd hcurrent
  unfold Fresh
  cases hs : w.state with
  | building d' c k g =>
    intro hd hm hc
    cases hd
    obtain ⟨hl, hfollows⟩ := hm.current (hc g rfl)
    refine ⟨hm.valid, hl, hfollows.sound, fun id b hp hid => hfollows.complete id b hp (hid _ _ _ rfl)⟩
  | built d' c g =>
    intro hd hm hc
    cases hd
    obtain ⟨hl, hfollows⟩ := hm.current (hc g rfl)
    exact ⟨hm.valid, hl, hfollows.sound, fun id b hp _ => hfollows.complete id b hp trivial⟩
  | unbuilt | stale | unavailable => exact fun hd => by cases hd

/-- An index with an outdated mark holds nothing. -/
theorem Indexed.outdated (h : Indexed w pending) (hg : w.state.generation = some g)
    (hc : ¬ w.Current g) (id : Nat) : w.vectors id = none := by
  have hstate := h.state
  revert hstate hg
  cases w.state with
  | building | built =>
    intro hg hm
    cases hg
    exact hm.outdated hc id
  | unbuilt | stale | unavailable => exact fun hg => by cases hg

/-- What it does not read, it does not fail in. -/
theorem runs_refresh {o : List Outcome} (h : Indexed w pending) :
    Runs refresh
      (fun _ c => (Indexed c.data pending ∧ Fresh c.data ∧ c.data.source = w.source) ∧
        (c.data.state.dimension = none ∨ (∀ b rest, o ≠ .failed b :: rest) ∧ c.outcomes = o.tail))
      (fun _ c => c.data = w) ⟨w, o⟩ := by
  have hmarked {g : Nat} (hg : w.state.generation = some g) :
      Runs (do
        let current ← generation
        if current = g then return () else setState .unbuilt)
      (fun _ c => (Indexed c.data pending ∧ Fresh c.data ∧ c.data.source = w.source) ∧
        (c.data.state.dimension = none ∨ (∀ b rest, o ≠ .failed b :: rest) ∧ c.outcomes = o.tail))
      (fun _ c => c.data = w) ⟨w, o⟩ := by
    refine Runs.bind ((runs_generation h).mono (fun current c hc => ?_) fun _ _ he => he.1)
    obtain ⟨w', rest⟩ := c
    obtain ⟨⟨hi, hcurrent, s, rfl⟩, ho⟩ := hc
    split
    · next he =>
      subst he
      refine ⟨⟨hi, fun g' hg' => ?_, rfl⟩, .inr ho⟩
      cases hg.symm.trans hg'
      exact hcurrent
    · next hne =>
      refine ⟨⟨⟨⟨hi.keys, hi.positive, hi.versions⟩, ?_⟩, fun g hg => ?_, rfl⟩, .inl rfl⟩
      · exact hi.outdated hg fun hc' => hne (hcurrent.1.symm.trans hc'.1)
      · cases hg
  unfold refresh
  refine Runs.bind ?_
  simp only [Script.look, Runs]
  cases hs : w.state with
  | building d c k g => exact hmarked (by rw [hs]; rfl)
  | built d c g => exact hmarked (by rw [hs]; rfl)
  | unbuilt | stale | unavailable =>
    refine ⟨⟨h, fun g hg => ?_, rfl⟩, .inl (by rw [hs]; rfl)⟩
    rw [hs] at hg
    cases hg

theorem ends_refresh (h : Indexed w pending) :
    Ends refresh (fun _ w' => Indexed w' pending ∧ Fresh w' ∧ w'.source = w.source)
      (fun _ w' => w' = w) w :=
  fun _ => (runs_refresh h).mono (fun _ _ hc => hc.1) fun _ _ he => he

/-! ## The table -/

/-- The source is as it was, and there is no index that is built or being built. -/
structure Unmarked (w w' : World) : Prop where
  source : w'.source = w.source
  indexed : Indexed w' []
  unmarked : w'.state.dimension = none

theorem Unmarked.refl (h : Indexed w pending) (hs : w.state.dimension = none) : Unmarked w w :=
  ⟨rfl, h.unmarked hs, hs⟩

theorem Unmarked.trans {w'' : World} (h : Unmarked w w') (h' : Unmarked w' w'') : Unmarked w w'' :=
  ⟨h'.source.trans h.source, h'.indexed, h'.unmarked⟩

theorem Unmarked.fresh (h : Unmarked w w') : Fresh w' := by
  intro g hg
  have hs := h.unmarked
  revert hs hg
  cases w'.state with
  | building | built => exact fun _ hs => by cases hs
  | unbuilt | stale | unavailable => exact fun hg => by cases hg

theorem ends_invalidate {E : Error → World → Prop} (h : Sourced w)
    (hu : w.state = .unbuilt → ∀ id, w.vectors id = none) :
    Ends invalidate (fun _ w' => Unmarked w w') E w := by
  refine Ends.bind (ends_look ?_)
  cases hs : w.state with
  | building | built => exact ends_change ⟨rfl, ⟨⟨h.keys, h.positive, h.versions⟩, trivial⟩, rfl⟩
  | unbuilt =>
    refine ends_pure ⟨rfl, ⟨h, ?_⟩, by rw [hs]; rfl⟩
    rw [hs]
    exact hu hs
  | stale | unavailable =>
    refine ends_pure ⟨rfl, ⟨h, ?_⟩, by rw [hs]; rfl⟩
    rw [hs]
    exact trivial

theorem Sourced.changed (h : Sourced w) (lookup : Lookup) (vectors : Nat → Option Blob) (s : State) :
    Sourced { w with
      lookup := lookup, vectors := vectors, schemaVersion := w.schemaVersion + 1, state := s } :=
  ⟨h.keys, h.positive, Int.le_trans h.versions (Int.le_add_one (Int.le_refl _))⟩

theorem ends_invalidated {w₁ : World} {Q : World → Prop} (he : w₁.source = w.source) (h₁ : Sourced w₁)
    (hu : w₁.state = .unbuilt → ∀ id, w₁.vectors id = none) :
    Ends (do
      invalidate
      return false : Action Bool)
      (fun b w' => Unmarked w w' ∧ (b = true → Q w')) (fun _ w' => Unmarked w w') w₁ := by
  refine (ends_invalidate (E := fun _ _ => False) h₁ hu).seq (fun _ w' hw' => ?_) fun _ _ he => he.elim
  exact ends_pure ⟨⟨hw'.source.trans he, hw'.indexed, hw'.unmarked⟩, nofun⟩

theorem ends_executeDrop (h : Indexed w pending) :
    Ends executeDrop (fun b w' => Unmarked w w' ∧ (b = true → w'.lookup = .absent))
      (fun _ w' => Unmarked w w') w := by
  have hdropped := h.toSourced.changed .absent (fun _ => none) w.state
  refine Ends.bind (ends_attempt (ends_execute ?_ ?_ ?_))
  · refine Ends.bind (ends_change (Ends.bind ?_))
    have hunbuilt : Unmarked w { w.dropped with state := .unbuilt } :=
      ⟨rfl, ⟨h.toSourced.changed _ _ _, fun _ => rfl⟩, rfl⟩
    refine Ends.bind (ends_read (ends_change (ends_pure ⟨?_, fun _ => rfl⟩)) hunbuilt)
    exact ⟨rfl, ⟨⟨h.keys, h.positive, Int.le_refl _⟩, fun _ => rfl⟩, rfl⟩
  · exact ends_invalidated rfl hdropped fun _ _ => rfl
  · exact ends_invalidated rfl h.toSourced h.vectors_unbuilt

theorem ends_dropTable (h : Indexed w pending) :
    Ends dropTable (fun b w' => Unmarked w w' ∧ (b = true → w'.lookup = .absent))
      (fun _ w' => w'.source = w.source ∧ Indexed w' pending) w := by
  refine (ends_generation h).seq (fun _ w' hw' => ?_) fun _ _ he => by rw [he]; exact ⟨rfl, h⟩
  obtain ⟨hi, -, s, rfl⟩ := hw'
  refine (ends_executeDrop hi).mono (fun b w' hw' => ?_) fun _ w' hw' => ?_
  · exact ⟨⟨hw'.1.source, hw'.1.indexed, hw'.1.unmarked⟩, hw'.2⟩
  · exact ⟨hw'.source, hw'.indexed.unmarked hw'.unmarked⟩

theorem ends_createTable {declaration : Declaration} (h : Indexed w pending)
    (hs : w.state.dimension = none) :
    Ends (createTable declaration)
      (fun b w' => Unmarked w w' ∧
        (b = true → w'.lookup = .declared declaration ∧ ∀ id, w'.vectors id = none))
      (fun _ w' => Unmarked w w') w := by
  refine (ends_generation h).seq (fun _ w' hw' => ?_) fun _ _ he => by rw [he]; exact .refl h hs
  obtain ⟨hi, -, s, rfl⟩ := hw'
  have hcreated : Unmarked w ({ w with session := s }.created declaration) :=
    ⟨rfl, ⟨hi.toSourced.changed _ _ _, holds_unmarked hs fun _ _ => rfl⟩, hs⟩
  refine Ends.bind (ends_attempt (ends_execute ?_ ?_ ?_))
  · refine Ends.bind (Ends.bind (ends_read (ends_change (ends_pure ⟨?_, fun _ => ⟨rfl, fun _ => rfl⟩⟩)) ?_))
    · exact ⟨rfl, ⟨⟨h.keys, h.positive, Int.le_refl _⟩, holds_unmarked hs fun _ _ => rfl⟩, hs⟩
    · exact hcreated
  · exact ends_invalidated hcreated.source hcreated.indexed.toSourced hcreated.indexed.vectors_unbuilt
  · exact ends_invalidated rfl hi.toSourced hi.vectors_unbuilt

/-- There is an empty table for vectors of the dimension, and the index is not marked. -/
structure Prepared (w w' : World) (dimension capacity : Nat) : Prop extends Unmarked w w' where
  lookup : w'.lookup = .declared ⟨dimension, capacity⟩
  empty : ∀ id, w'.vectors id = none

theorem ends_prepareTable {required : Nat} (h : Indexed w pending) (hf : Fresh w)
    (hd : w.state.dimension ≠ some dimension) (hu : w.state ≠ .unavailable) :
    Ends (prepareTable w.state.isStale w.lookup dimension required)
      (fun r w' => Unmarked w w' ∧ ∀ capacity ∈ r, Prepared w w' dimension capacity)
      (fun _ w' => w'.source = w.source ∧ Indexed w' pending) w := by
  have hcreate {w₁ : World} (h₁ : Unmarked w w₁) :
      Ends (do
        let created ← createTable ⟨dimension, required⟩
        return if created then some required else none : Action (Option Nat))
      (fun r w' => Unmarked w w' ∧ ∀ capacity ∈ r, Prepared w w' dimension capacity)
      (fun _ w' => w'.source = w.source ∧ Indexed w' pending) w₁ := by
    refine (ends_createTable h₁.indexed h₁.unmarked).seq (fun created w' hw' => ends_pure ?_)
      fun _ w' hw' => ?_
    · obtain ⟨hunmarked, hcreated⟩ := hw'
      refine ⟨h₁.trans hunmarked, fun capacity hc => ?_⟩
      cases created with
      | true =>
        cases hc
        exact ⟨h₁.trans hunmarked, (hcreated rfl).1, (hcreated rfl).2⟩
      | false => cases hc
    · exact ⟨(h₁.trans hw').source, hw'.indexed.unmarked hw'.unmarked⟩
  have hrecreate :
      Ends (do
        let dropped ← dropTable
        if dropped then do
          let created ← createTable ⟨dimension, required⟩
          return if created then some required else none
        else return none : Action (Option Nat))
      (fun r w' => Unmarked w w' ∧ ∀ capacity ∈ r, Prepared w w' dimension capacity)
      (fun _ w' => w'.source = w.source ∧ Indexed w' pending) w := by
    refine (ends_dropTable h).seq (fun dropped w' hw' => ?_) fun _ _ he => he
    split
    · exact hcreate hw'.1
    · exact ends_pure ⟨hw'.1, nofun⟩
  unfold prepareTable
  split
  · next existing hl =>
    split
    · next hreuse =>
      obtain ⟨hstale, rfl, -⟩ := hreuse
      -- an index of another dimension would be of another table
      have hunmarked : w.state.dimension = none := by
        cases hs : w.state.dimension with
        | none => rfl
        | some d =>
          obtain ⟨-, ⟨c, hc⟩, -⟩ := hf.follows h hs
          cases hl.symm.trans hc
          exact absurd hs hd
      have hunbuilt : w.state = .unbuilt := by
        revert hstale hunmarked hu
        cases w.state with
        | building | built => exact fun _ _ hs => by cases hs
        | unbuilt => exact fun _ _ _ => rfl
        | stale => exact fun _ hs => by cases hs
        | unavailable => exact fun hu => absurd rfl hu
      refine ends_pure ⟨.refl h hunmarked, fun capacity hc => ?_⟩
      cases hc
      exact ⟨.refl h hunmarked, hl, h.vectors_unbuilt hunbuilt⟩
    · exact hrecreate
  · next hl =>
    refine hcreate (.refl h ?_)
    cases hs : w.state.dimension with
    | none => rfl
    | some d =>
      obtain ⟨-, ⟨c, hc⟩, -⟩ := hf.follows h hs
      cases hl.symm.trans hc
  · exact hrecreate
  · exact hrecreate

/-- An empty index that is being built from the first row. -/
theorem Prepared.begun {w' : World} {capacity : Nat} (h : Prepared w w' dimension capacity)
    (hd : validateDimension dimension = .ok ()) (hc : w'.Current g) :
    Indexed (w'.begun dimension capacity g) pending ∧ Fresh (w'.begun dimension capacity g) := by
  refine ⟨⟨⟨h.indexed.keys, h.indexed.positive, h.indexed.versions⟩, ?_⟩, fun g' hg' => ?_⟩
  · refine ⟨hd, Nat.le_of_eq hc.1.symm, fun _ => ⟨⟨capacity, h.lookup⟩, ?_, ?_⟩, fun _ => h.empty⟩
    · intro id b _ hb
      rw [show (w'.begun dimension capacity g).vectors id = none from h.empty id] at hb
      cases hb
    · intro id b _ hid hb
      cases Nat.le_zero.mp hid
      rw [World.wanted, World.stored,
        show (w'.begun dimension capacity g).source.get 0 = none from h.indexed.positive.1] at hb
      cases hb
  · cases hg'
    exact hc

theorem ends_authoritativeDimension {Q : Option Nat → World → Prop} {E : Error → World → Prop}
    {state : State} {lookup : Lookup} (h : ∀ d, Q d w) (he : ∀ e, E e w) :
    Ends (authoritativeDimension state lookup) Q E w := by
  have hnewest : Ends (do
      let length ← query (·.newestLength)
      return length.bind dimensionOf : Action (Option Nat)) Q E w :=
    Ends.bind (ends_read (ends_pure (h _)) (he _))
  unfold authoritativeDimension
  split <;> first | exact hnewest | exact ends_pure (h _)

theorem ends_mayUse {Q : Bool → World → Prop} {E : Error → World → Prop} {access : Access}
    {state : State} {lookup : Lookup} (h : Q true w) (hf : access = .read → Q false w)
    (he : ∀ e, E e w) : Ends (mayUse access state lookup dimension) Q E w := by
  cases access with
  | read =>
    refine Ends.bind (ends_authoritativeDimension (fun d => ends_pure ?_) he)
    cases decide (d = some dimension) with
    | true => exact h
    | false => exact hf rfl
  | write => exact ends_pure h

/-- The source is as it was, and the mark of the index is up to date. -/
structure Ensured (w w' : World) (pending : List Nat) : Prop where
  source : w'.source = w.source
  indexed : Indexed w' pending
  fresh : Fresh w'

theorem Unmarked.ensured (h : Unmarked w w') : Ensured w w' pending :=
  ⟨h.source, h.indexed.unmarked h.unmarked, h.fresh⟩

theorem ends_beginBuilding (h : Indexed w pending) (hf : Fresh w)
    (hd : validateDimension dimension = .ok ()) (hs : w.state.dimension ≠ some dimension)
    (hu : w.state ≠ .unavailable) :
    Ends (beginBuilding w w.lookup dimension)
      (fun b w' => Ensured w w' pending ∧
        if b = true then w'.state.dimension = some dimension else w'.state.dimension = none)
      (fun _ w' => w'.source = w.source ∧ Indexed w' pending) w := by
  refine Ends.bind (ends_read ?_ ⟨rfl, h⟩)
  refine (ends_prepareTable h hf hs hu).seq (fun prepared w₁ hw₁ => ?_) fun _ _ he => he
  obtain ⟨hunmarked, hprepared⟩ := hw₁
  cases prepared with
  | none => exact ends_pure ⟨hunmarked.ensured, hunmarked.unmarked⟩
  | some capacity =>
    refine (ends_generation hunmarked.indexed).seq (fun current w₂ hw₂ => ?_) fun _ _ he => ?_
    · obtain ⟨hi, hc, s, rfl⟩ := hw₂
      have hp := hprepared capacity rfl
      have hp₂ : Prepared w { w₁ with session := s } dimension capacity :=
        ⟨⟨hp.source, hi, hp.unmarked⟩, hp.lookup, hp.empty⟩
      obtain ⟨hindexed, hfresh⟩ : Indexed _ pending ∧ Fresh _ := hp₂.begun hd hc
      exact Ends.bind (ends_change (ends_pure ⟨⟨hp.source, hindexed, hfresh⟩, rfl⟩))
    · rw [he]
      exact ⟨hunmarked.source, hunmarked.indexed.unmarked hunmarked.unmarked⟩

theorem ends_ensure {access : Access} (h : Indexed w pending) (hf : Fresh w)
    (hd : validateDimension dimension = .ok ()) :
    Ends (ensure dimension access)
      (fun b w' => Ensured w w' pending ∧
        if b = true then w'.state.dimension = some dimension
        else access = .write → w'.state.dimension = none)
      (fun _ w' => w'.source = w.source ∧ Indexed w' pending) w := by
  have hunavailable : Unmarked w { w with state := .unavailable } :=
    ⟨rfl, ⟨⟨h.keys, h.positive, h.versions⟩, trivial⟩, rfl⟩
  refine Ends.bind (ends_look ?_)
  split
  · exact Ends.bind (ends_change (ends_pure ⟨hunavailable.ensured, fun _ => rfl⟩))
  · split
    · next hu => exact ends_pure ⟨⟨rfl, h, hf⟩, fun _ => by rw [hu]; rfl⟩
    · next hu =>
      split
      · next hs => exact ends_pure ⟨⟨rfl, h, hf⟩, hs⟩
      · next hs =>
        refine Ends.bind (ends_read ?_ ⟨rfl, h⟩)
        split
        · exact Ends.bind (ends_change (ends_pure ⟨hunavailable.ensured, fun _ => rfl⟩))
        · refine Ends.bind (ends_mayUse ?_ (fun hr => ?_) fun _ => ⟨rfl, h⟩)
          · refine (ends_beginBuilding h hf hd hs hu).mono (fun b w' hw' => ?_) fun _ _ he => he
            cases b with
            | true => exact hw'
            | false => exact ⟨hw'.1, fun _ => hw'.2⟩
          · refine ends_pure ⟨⟨rfl, h, hf⟩, fun hw => ?_⟩
            cases hr.symm.trans hw

end Claudear.Storage.VectorIndex
