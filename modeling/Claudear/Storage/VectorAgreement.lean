import Claudear.Machine.Run
import Claudear.Storage.VectorOperations

/-!
# The index agrees with its source

A row goes through the source table first, and the index follows under the same
lock. `index_agrees` is about every run of stores, removals, resets, rebuild steps
and searches, with schema changes by others between them and statements that
fail. A row that is stored while the index is being built is written at once, also
above the cursor.
-/

namespace Claudear.Storage.VectorIndex

open Claudear.Machine Claudear.Sql Claudear.Sql.Script

variable {w w' : World} {pending : List Nat}

/-! ## The source -/

/-- Rows of the source have changed, and the index has yet to follow in the pending ones. -/
theorem Indexed.sourceChanged {source : Table Issue} (h : Indexed w [])
    (hs : Sourced { w with source := source })
    (hsame : ∀ id, id ∉ pending → ({ w with source := source } : World).stored id = w.stored id) :
    Indexed { w with source := source } pending := by
  refine ⟨hs, h.state.imp (fun _ h => h) fun d g upTo _ _ hm => ⟨hm.valid, hm.counted, fun hc => ?_, hm.outdated⟩⟩
  obtain ⟨hl, hfollows⟩ := hm.current hc
  have hwanted {id : Nat} (hid : id ∉ pending) :
      ({ w with source := source } : World).wanted d id = w.wanted d id := by
    rw [World.wanted, World.wanted, hsame id hid]
  refine ⟨hl, fun id b hid hb => ?_, fun id b hid hup hb => ?_⟩
  · rw [hwanted hid]
    exact hfollows.sound id b List.not_mem_nil hb
  · rw [hwanted hid] at hb
    exact hfollows.complete id b List.not_mem_nil hup hb

theorem isIssue_iff {source issueId : String} {id : Nat} {r : Issue} :
    isIssue source issueId (id, r) = true ↔ r.source = source ∧ r.issueId = issueId := by
  rw [isIssue, Bool.and_eq_true, decide_eq_true_eq, decide_eq_true_eq]

theorem issue_eq {source issueId : String} (hk : Table.Unique Issue.key w.source) {i j : Nat}
    {a b : Issue} (ha : w.source.get i = some a) (hb : w.source.get j = some b)
    (hp : isIssue source issueId (i, a) = true) (hq : isIssue source issueId (j, b) = true) : i = j := by
  obtain ⟨rfl, rfl⟩ := isIssue_iff.mp hp
  obtain ⟨hs, hi⟩ := isIssue_iff.mp hq
  exact hk ha hb rfl (by rw [Issue.key, hs, hi])

theorem sourced_issueStored {source issueId : String} {embedding : Option Blob} (h : Sourced w) :
    Sourced (w.issueStored source issueId embedding) := by
  refine ⟨?_, ?_, h.versions⟩
  · show Table.Unique Issue.key (if _ then _ else _)
    split
    · exact h.keys.update fun _ _ hc => hc
    · next hany =>
      refine h.keys.insert fun k hk i r hr hrk => hany (Table.any_eq_true.mpr ⟨i, r, hr, ?_⟩)
      cases hk
      obtain ⟨hs, hi⟩ := Prod.mk.inj (Option.some.inj hrk)
      exact isIssue_iff.mpr ⟨hs, hi⟩
  · show Table.get (if _ then _ else _) 0 = none ∧ 0 < Table.next (if _ then _ else _)
    split
    · exact ⟨by rw [Table.get_skip, Table.get_update, h.positive.1]; rfl, Nat.succ_pos _⟩
    · exact ⟨by rw [Table.get_insert, if_neg (Nat.ne_of_lt h.positive.2), h.positive.1],
        Nat.succ_pos _⟩

/-- One row is stored, a new one or the one there was. -/
theorem issueStored_row {source issueId : String} {embedding : Option Blob} (h : Sourced w) :
    ∃ id, (w.issueStored source issueId embedding).issueId source issueId = some id ∧
      (∀ x, x ≠ id → (w.issueStored source issueId embedding).stored x = w.stored x) ∧
      (w.issueStored source issueId embedding).stored id = embedding.or (w.stored id) ∧
      (w.issueId source issueId = some id ∨ w.source.get id = none) := by
  simp only [World.issueStored, World.stored, World.issueId]
  split
  · next hany =>
    obtain ⟨i, r, hr, hp⟩ := Table.any_eq_true.mp hany
    obtain ⟨⟨j, q⟩, hfirst⟩ := Table.exists_first hr hp
    obtain ⟨hq, hpq⟩ := Table.first_get hfirst
    refine ⟨j, ?_, fun x hx => ?_, ?_, .inl (by rw [hfirst]; rfl)⟩
    · rw [Table.first_skip, Table.first_update fun r => ?_, hfirst, Option.map_some, Option.map_some, Table.setWhere_fst]
      unfold Table.setWhere
      split <;> rfl
    · congr 1
      rw [Table.get_skip]
      cases hc : w.source.get x with
      | none => rw [Table.get_update, hc]; rfl
      | some c =>
        refine Table.get_update_of_not hc (eq_false_of_ne_true fun hpc => ?_)
        exact hx (issue_eq h.keys hc hq hpc hpq)
    · rw [Table.get_skip, Table.get_update_of hq hpq, hq]
      rfl
  · next hany =>
    have hnone : w.source.first (isIssue source issueId) = none := by
      refine Table.first_eq_none.mpr fun i c hc => eq_false_of_ne_true fun hp => ?_
      exact hany (Table.any_eq_true.mpr ⟨i, c, hc, hp⟩)
    have hnew : isIssue source issueId (w.source.next, ⟨source, issueId, embedding⟩) = true :=
      isIssue_iff.mpr ⟨rfl, rfl⟩
    refine ⟨w.source.next, ?_, fun x hx => ?_, ?_, .inr (Table.get_next _)⟩
    · rw [Table.first_insert, hnone, if_pos hnew]
      rfl
    · rw [Table.get_insert, if_neg hx]
    · rw [Table.get_insert, if_pos rfl, Table.get_next]
      simp

/-- A row the index has to follow in, unless its embedding is none the index could hold. -/
def Replaceable (w : World) (source issueId : String) (values : Embedding) : Prop :=
  validateDimension values.length = .ok () ∨
    ∀ id ∈ w.issueId source issueId, w.vectors id = none

/-- A marked index holds what its source has. -/
theorem Indexed.held (h : Indexed w []) {d id : Nat} {b : Blob} (hs : w.state.dimension = some d)
    (hb : w.vectors id = some b) : w.wanted d id = some b := by
  have hmarked {g : Nat} {upTo : Nat → Prop} (hm : Marked w [] d g upTo) : w.wanted d id = some b := by
    by_cases hc : w.Current g
    · exact (hm.current hc).2.sound id b List.not_mem_nil hb
    · cases (hm.outdated hc id).symm.trans hb
  have hstate := h.state
  revert hstate hs
  cases w.state with
  | building | built =>
    intro hs hm
    cases hs
    exact hmarked hm
  | unbuilt | stale | unavailable => exact fun hs => by cases hs

theorem Indexed.unstored (h : Indexed w []) {id : Nat} (hs : w.state.dimension ≠ none)
    (hn : w.stored id = none) : w.vectors id = none := by
  obtain ⟨d, hd⟩ := Option.ne_none_iff_exists'.mp hs
  cases hb : w.vectors id with
  | none => rfl
  | some b => cases hn.symm.trans (wanted_eq_some.mp (h.held hd hb)).1

theorem Indexed.stored {source issueId : String} {embedding : Option Blob} {id : Nat}
    (h : Indexed w []) (hother : ∀ x, x ≠ id →
      (w.issueStored source issueId embedding).stored x = w.stored x) :
    Indexed (w.issueStored source issueId embedding) [id] :=
  h.sourceChanged (sourced_issueStored h.toSourced) fun x hx =>
    hother x fun he => hx (List.mem_singleton.mpr he)

theorem runs_storeEmbedding {source issueId : String} {embedding : Option Embedding}
    {o : List Outcome} (h : Indexed w [])
    (hc : ∀ values ∈ embedding, Replaceable w source issueId values ∧ losesSecond o = false) :
    Runs (storeEmbedding source issueId embedding) (fun _ c => Indexed c.data [])
      (fun _ c => Indexed c.data []) ⟨w, o⟩ := by
  obtain ⟨id, hfound, hother, hstored, hold⟩ := @issueStored_row _ source issueId
    (embedding.map embeddingBlob) h.toSourced
  have hindexed := h.stored hother
  have hkept (he : embedding = none) :
      Indexed (w.issueStored source issueId (embedding.map embeddingBlob)) [] := by
    refine h.sourceChanged (sourced_issueStored h.toSourced) fun x _ => ?_
    by_cases hx : x = id
    · subst hx
      rw [he] at hstored ⊢
      exact hstored.trans Option.none_or
    · exact hother x hx
  refine Runs.bind (runs_statement (fun ho => Runs.bind (runs_read (fun _ => ?_) fun b rest hb => ?_))
    fun _ _ _ => h)
  · rw [show (w.issueStored source issueId (embedding.map embeddingBlob)).issueId source issueId = some id
      from hfound]
    cases embedding with
    | none => exact hkept rfl
    | some values =>
      obtain ⟨hreplaceable, -⟩ := hc values rfl
      refine Runs.bind ((ends_upsert hindexed (hstored.trans Option.some_or) (hreplaceable.imp
        (fun h => h) fun hnone hs => ?_)).runs.mono (fun _ _ h => h) fun _ _ h => h)
      rcases hold with hold | hold
      · exact hnone id hold
      · refine h.unstored hs ?_
        rw [World.stored, hold]
        rfl
  · cases embedding with
    | none => exact hkept rfl
    | some values => exact absurd hb (losesSecond_tail (hc values rfl).2 ho b rest)

theorem Sourced.deleteKeys (h : Sourced w) (p : Nat → Bool) :
    Sourced { w with source := w.source.deleteKeys p } := by
  refine ⟨fun i j a b k ha hb => ?_, ⟨?_, h.positive.2⟩, h.versions⟩
  · exact h.keys (Table.get_deleteKeys_eq_some.mp ha).1 (Table.get_deleteKeys_eq_some.mp hb).1
  · cases hc : (w.source.deleteKeys p).get 0 with
    | none => rfl
    | some c => cases h.positive.1.symm.trans (Table.get_deleteKeys_eq_some.mp hc).1

theorem stored_deleteKeys {p : Nat → Bool} {id : Nat} :
    ({ w with source := w.source.deleteKeys p } : World).stored id =
      if p id then none else w.stored id := by
  unfold World.stored
  cases hp : p id with
  | true =>
    cases hc : (w.source.deleteKeys p).get id with
    | none => rfl
    | some c =>
      cases hp.symm.trans (Table.get_deleteKeys_eq_some.mp hc).2
  | false =>
    congr 1
    exact Option.ext fun c => Table.get_deleteKeys_eq_some.trans (and_iff_left hp)

theorem ends_deleteRows {rowids : List Nat} (h : Indexed w []) :
    Ends (deleteRows rowids) (fun _ w' => Indexed w' []) (fun _ w' => Indexed w' []) w := by
  refine Ends.bind (ends_commit ?_ h)
  have hdeleted : Indexed (w.sourceDeleted rowids) rowids := by
    refine h.sourceChanged (h.toSourced.deleteKeys _) fun id hid => ?_
    rw [stored_deleteKeys, if_neg]
    simpa using hid
  refine ends_remove hdeleted fun id hid => ?_
  cases hc : (w.sourceDeleted rowids).source.get id with
  | none => rfl
  | some c => exact absurd hid (of_decide_eq_false (Table.get_deleteKeys_eq_some.mp hc).2)

theorem runs_clearRows {o : List Outcome} (h : Indexed w []) (ho : losesSecond o.tail = false) :
    Runs clearRows (fun _ c => Indexed c.data []) (fun _ c => Indexed c.data []) ⟨w, o⟩ := by
  refine Runs.bind (runs_statement (fun _ => ?_) fun _ _ _ => h)
  have hcleared : Indexed w.sourceCleared (w.embedded.map Prod.fst) := by
    refine h.sourceChanged (h.toSourced.deleteKeys _) fun id hid => ?_
    rw [stored_deleteKeys, if_pos rfl]
    cases hs : w.stored id with
    | none => rfl
    | some b => exact absurd (List.mem_map.mpr ⟨_, mem_embedded.mpr hs, rfl⟩) hid
  exact runs_reset hcleared ho

/-! ## Runs -/

namespace World

variable (w : World)

/-- Another connection changes the schema, which empties the virtual table. -/
def disturbed (changes : Nat) (lookup : Lookup) : World :=
  { w with
    lookup := lookup
    vectors := fun _ => none
    schemaVersion := w.schemaVersion + (changes + 1) }

/-- Another index of the session makes or drops its table. -/
def siblingChanged : World :=
  { w.acknowledged (w.schemaVersion + 1) with schemaVersion := w.schemaVersion + 1 }

end World

def siblingChecks (changes : Bool) : Action Unit := do
  let _ ← generation
  if changes then Script.change World.siblingChanged else return ()

inductive Call where
  | store (source issueId : String) (embedding : Option Embedding)
  | delete (rowids : List Nat)
  | clear
  | rebuild (batchSize : Nat)
  | search (dimension : Nat)
  /-- The session checks its generation for another index. -/
  | sibling (changes : Bool)
  | disturb (changes : Nat) (lookup : Lookup)

/-- The state after the call; `outcomes` are those of its statements. -/
def Call.run (w : World) (outcomes : List Outcome) : Call → World
  | .store source issueId embedding => (storeEmbedding source issueId embedding).after outcomes w
  | .delete rowids => (deleteRows rowids).after outcomes w
  | .clear => clearRows.after outcomes w
  | .rebuild batchSize => (rebuildStep batchSize).after outcomes w
  | .search dimension => (prepareSearch dimension).after outcomes w
  | .sibling changes => (siblingChecks changes).after outcomes w
  | .disturb changes lookup => w.disturbed changes lookup

structure Op where
  call : Call
  outcomes : List Outcome

def step (w : World) (op : Op) : World := op.call.run w op.outcomes

/-- Left open is what becomes of an embedding the index cannot hold when it holds the old one, of an
embedding whose row cannot be found after it was stored, and of a reset that can read the schema version
only once. -/
def Tended (w : World) (op : Op) : Prop :=
  match op.call with
  | .store source issueId embedding =>
    ∀ values ∈ embedding, Replaceable w source issueId values ∧ losesSecond op.outcomes = false
  | .clear => losesSecond op.outcomes.tail = false
  | _ => True

theorem Indexed.disturbed (h : Indexed w []) (changes : Nat) (lookup : Lookup) :
    Indexed (w.disturbed changes lookup) [] := by
  have hversions : w.session.schemaVersion < w.schemaVersion + (changes + 1) := by
    have := h.versions
    omega
  refine ⟨⟨h.keys, h.positive, Int.le_of_lt hversions⟩, h.state.imp (fun _ _ _ => rfl) fun d g upTo _ _ hm => ?_⟩
  have hc : ¬ (w.disturbed changes lookup).Current g := fun hc => absurd hc.2 (Int.ne_of_lt hversions)
  exact ⟨hm.valid, hm.counted, fun h => absurd h hc, fun _ _ => rfl⟩

theorem ends_sibling {changes : Bool} (h : Indexed w []) :
    Ends (siblingChecks changes) (fun _ w' => Indexed w' []) (fun _ w' => Indexed w' []) w := by
  refine (ends_generation h).seq (fun _ w' hw' => ?_) fun _ _ he => by rw [he]; exact h
  obtain ⟨hi, hc, -⟩ := hw'
  split
  · refine ends_change ⟨⟨hi.keys, hi.positive, Int.le_refl _⟩, hi.state.imp (fun _ h => h) fun d g upTo _ _ hm => ?_⟩
    have hcurrent : w'.siblingChanged.Current g → w'.Current g := fun hg => ⟨hg.1, hc.2⟩
    refine ⟨hm.valid, hm.counted, fun hg => ?_, fun hg => hm.outdated fun hc => hg ⟨hc.1, rfl⟩⟩
    obtain ⟨hl, hfollows⟩ := hm.current (hcurrent hg)
    exact ⟨hl, hfollows.sound, hfollows.complete⟩
  · exact ends_pure hi

theorem indexed_step {op : Op} (h : Indexed w []) (ht : Tended w op) : Indexed (step w op) [] := by
  obtain ⟨call, outcomes⟩ := op
  cases call with
  | store source issueId embedding =>
    exact Runs.after (P := fun w => Indexed w []) (runs_storeEmbedding h ht)
  | delete rowids => exact (ends_deleteRows h).after outcomes
  | clear => exact Runs.after (P := fun w => Indexed w []) (runs_clearRows h ht)
  | rebuild batchSize => exact (ends_rebuildStep h).after outcomes
  | search dimension =>
    exact ((ends_prepareSearch h).mono (fun _ _ hw => hw.1) fun _ _ hw => hw).after outcomes
  | sibling changes => exact (ends_sibling h).after outcomes
  | disturb changes lookup => exact h.disturbed changes lookup

/-- A database has been opened: its source may have rows, and the virtual table of the new connection is
empty. -/
structure Opened (w : World) : Prop extends Sourced w where
  state : w.state = .unbuilt
  empty : ∀ id, w.vectors id = none

theorem Opened.indexed (h : Opened w) : Indexed w [] := by
  refine ⟨h.toSourced, ?_⟩
  rw [h.state]
  exact h.empty

theorem Indexed.holdsAll (h : Indexed w []) :
    (∀ d c g, w.state = .built d c g → w.Current g → HoldsAll w d fun _ => True) ∧
    ∀ d c cursor g, w.state = .building d c cursor g → w.Current g → HoldsAll w d (· ≤ cursor) := by
  have hstate := h.state
  refine ⟨fun d c g hs hc id b hid hb => ?_, fun d c cursor g hs hc id b hid hb => ?_⟩ <;>
    · rw [hs] at hstate
      exact (hstate.current hc).2.complete id b List.not_mem_nil hid hb

/-- In every run, whatever statements fail, an index that is marked built or being built holds only rows
of the source that have its dimension, with their current vectors. Under the generation of the
connection it holds all of those, or all up to the cursor, except the rows a rebuild skipped. -/
theorem index_agrees (w₀ : World) (h₀ : Opened w₀) (l : List Op) (h : Along step Tended w₀ l) :
    let w := run step w₀ l
    HoldsOnly w ∧ (∀ d c g, w.state = .built d c g → w.Current g → HoldsAll w d fun _ => True) ∧
      ∀ d c cursor g, w.state = .building d c cursor g → w.Current g → HoldsAll w d (· ≤ cursor) := by
  have hindexed := h.inv (P := fun w => Indexed w []) (fun w op hw ht => indexed_step hw ht) h₀.indexed
  exact ⟨fun d hd id b hb => hindexed.held hd hb, hindexed.holdsAll⟩

/-! An index of one issue, whose embedding then gets a second component. -/

def noIssues : World where
  source := .empty
  lookup := .absent
  vectors _ := none
  schemaVersion := 0
  session := .new true
  state := .unbuilt
  minimumCapacity := 4
  skipped := []

def stores (values : Embedding) : Op := ⟨.store "linear" "1" (some values), []⟩

theorem tended_stores {values : Embedding} (h : validateDimension values.length = .ok ()) :
    Tended w (stores values) := by
  intro v hv
  cases hv
  exact ⟨.inl h, rfl⟩

theorem opened_noIssues : Opened noIssues :=
  ⟨⟨Table.unique_empty, ⟨rfl, Nat.one_pos⟩, by decide⟩, rfl, fun _ => rfl⟩

theorem index_agrees_one :
    let w := run step noIssues [stores [0], ⟨.rebuild 2, []⟩, stores [0, 0]]
    HoldsOnly w ∧ (∀ d c g, w.state = .built d c g → w.Current g → HoldsAll w d fun _ => True) ∧
      ∀ d c cursor g, w.state = .building d c cursor g → w.Current g → HoldsAll w d (· ≤ cursor) :=
  index_agrees noIssues opened_noIssues [stores [0], ⟨.rebuild 2, []⟩, stores [0, 0]]
    ⟨tended_stores rfl, trivial, tended_stores rfl, trivial⟩

/-- The rebuild fails to write the row. -/
def unwritten : List Op := [stores [0], ⟨.rebuild 2, [.done, .done, .failed true]⟩]

/-- While the index is being built it holds a row above the cursor, and once it is built a row that could
not be written is missing. -/
theorem index_differs :
    ((run step noIssues [stores [0]]).state = .building 1 4 0 1 ∧
      (run step noIssues [stores [0]]).Current 1 ∧
      ((run step noIssues [stores [0]]).vectors 1).isSome = true) ∧
    (run step noIssues unwritten).state = .built 1 4 1 ∧ (run step noIssues unwritten).Current 1 ∧
      ((run step noIssues unwritten).wanted 1 1).isSome = true ∧
      (run step noIssues unwritten).vectors 1 = none := by
  decide +kernel

end Claudear.Storage.VectorIndex
