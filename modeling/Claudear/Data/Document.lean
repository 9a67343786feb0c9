import Mathlib.Data.List.Basic

/-!
# Documents

A document is a tree of tables, arrays, strings and other scalars, as a TOML or
a JSON file is. A table keeps its entries in order, and `lookup` finds the first
of a key; `UniqueKeys` says that no table has two. `same` compares tables
whatever the order of their entries.

A `Path` names a place in a document, and `get` is what stands there.
-/

namespace Claudear.Data

/-- `α` is the scalars that are not strings. -/
inductive Value (α : Type*) where
  | string (text : String)
  | scalar (a : α)
  | array (items : List (Value α))
  | table (entries : List (String × Value α))

abbrev Entries (α : Type*) := List (String × Value α)

namespace Value

variable {α : Type*}

/-- Induction over a document: an array's items and a table's entries have the property already. -/
@[elab_as_elim, induction_eliminator]
theorem induct {motive : Value α → Prop} (string : ∀ text, motive (.string text))
    (scalar : ∀ a, motive (.scalar a))
    (array : ∀ items, (∀ v ∈ items, motive v) → motive (.array items))
    (table : ∀ entries, (∀ e ∈ entries, motive e.2) → motive (.table entries)) :
    ∀ v, motive v
  | .string text => string text
  | .scalar a => scalar a
  | .array items => array items fun v _ => induct string scalar array table v
  | .table entries => table entries fun e he => by
    have hlt : sizeOf e.2 < 1 + sizeOf entries := by
      have h := List.sizeOf_lt_of_mem he
      obtain ⟨k, v⟩ := e
      simp only [Prod.mk.sizeOf_spec] at h
      simp only
      omega
    exact induct string scalar array table e.2

def isTable : Value α → Bool
  | .table _ => true
  | _ => false

end Value

/-! ## Equality -/

section
variable {α : Type*} [DecidableEq α]

mutual

/-- Equality of documents. -/
def Value.same : Value α → Value α → Bool
  | .string s, .string t => s = t
  | .scalar a, .scalar b => a = b
  | .array xs, .array ys => sameItems xs ys
  | .table es, .table fs => es.length = fs.length && sameEntries es fs
  | _, _ => false

def sameItems : List (Value α) → List (Value α) → Bool
  | [], [] => true
  | x :: xs, y :: ys => x.same y && sameItems xs ys
  | _, _ => false

/-- Every entry of the first table is one of the second. -/
def sameEntries : Entries α → Entries α → Bool
  | [], _ => true
  | (k, v) :: es, fs => (fs.lookup k).any v.same && sameEntries es fs

end

end

/-! ## Places -/

/-- The entry of a table, or the item of an array. -/
inductive Segment where
  | key (k : String)
  | index (i : Nat)
  deriving DecidableEq, Repr

abbrev Path := List Segment

variable {α : Type*}

namespace Value

/-- What stands at a place. -/
def get : Value α → Path → Option (Value α)
  | v, [] => some v
  | .table es, .key k :: p => (es.lookup k).bind fun v => v.get p
  | .array xs, .index i :: p => xs[i]?.bind fun v => v.get p
  | _, _ => none

/-- No table has two entries of a key. -/
def UniqueKeys (v : Value α) : Prop :=
  ∀ p es, v.get p = some (.table es) → (es.map Prod.fst).Nodup

variable {v w : Value α} {p q : Path} {k : String} {i : Nat} {es fs : Entries α}
  {xs ys : List (Value α)}

@[simp] theorem get_nil (v : Value α) : v.get [] = some v := by
  rw [get]

theorem get_key (h : es.lookup k = some v) (p : Path) : (table es).get (.key k :: p) = v.get p := by
  rw [get, h, Option.bind_some]

theorem get_index (h : xs[i]? = some v) (p : Path) : (array xs).get (.index i :: p) = v.get p := by
  rw [get, h, Option.bind_some]

/-- A place inside a document is inside a table or an array. -/
theorem get_cons {s : Segment} (h : v.get (s :: p) = some w) :
    (∃ es k u, v = .table es ∧ s = .key k ∧ es.lookup k = some u ∧ u.get p = some w) ∨
      ∃ xs i u, v = .array xs ∧ s = .index i ∧ xs[i]? = some u ∧ u.get p = some w := by
  cases v with
  | table es =>
    cases s with
    | key k =>
      obtain ⟨u, hu, hw⟩ := Option.bind_eq_some_iff.mp h
      exact .inl ⟨es, k, u, rfl, rfl, hu, hw⟩
    | index i => cases h
  | array xs =>
    cases s with
    | key k => cases h
    | index i =>
      obtain ⟨u, hu, hw⟩ := Option.bind_eq_some_iff.mp h
      exact .inr ⟨xs, i, u, rfl, rfl, hu, hw⟩
  | string text => cases s <;> cases h
  | scalar a => cases s <;> cases h

theorem get_append (v : Value α) (q p : Path) : v.get (q ++ p) = (v.get q).bind fun w => w.get p := by
  induction q generalizing v with
  | nil => simp
  | cons s q ih =>
    cases v with
    | table es =>
      cases s with
      | key k =>
        simp only [List.cons_append, get, Option.bind_assoc, ih]
      | index i => rfl
    | array xs =>
      cases s with
      | key k => rfl
      | index i =>
        simp only [List.cons_append, get, Option.bind_assoc, ih]
    | string text => cases s <;> rfl
    | scalar a => cases s <;> rfl

theorem lookup_of_mem (h : (es.map Prod.fst).Nodup) {e : String × Value α} (he : e ∈ es) :
    es.lookup e.1 = some e.2 := by
  induction es with
  | nil => cases he
  | cons f es ih =>
    obtain ⟨hf, hes⟩ := List.nodup_cons.mp h
    rcases List.mem_cons.mp he with rfl | he
    · exact List.lookup_cons_self
    · have hne : (e.1 == f.1) = false := by
        rw [beq_eq_false_iff_ne]
        exact fun heq => hf (heq ▸ List.mem_map_of_mem he)
      rw [show f = (f.1, f.2) from rfl, List.lookup_cons, hne]
      exact ih hes he

theorem mem_of_lookup (h : es.lookup k = some v) : (k, v) ∈ es := by
  induction es with
  | nil => cases h
  | cons f es ih =>
    rw [show f = (f.1, f.2) from rfl, List.lookup_cons] at h
    cases hk : k == f.1 with
    | true =>
      rw [hk] at h
      obtain rfl := Option.some.inj h
      rw [eq_of_beq hk]
      exact List.mem_cons_self
    | false =>
      rw [hk] at h
      exact List.mem_cons_of_mem f (ih h)

theorem UniqueKeys.nodup (h : (table es).UniqueKeys) : (es.map Prod.fst).Nodup := h [] es rfl

theorem UniqueKeys.entry (h : (table es).UniqueKeys) {e : String × Value α} (he : e ∈ es) :
    e.2.UniqueKeys := fun p fs hp =>
  h (.key e.1 :: p) fs ((get_key (lookup_of_mem h.nodup he) p).trans hp)

theorem UniqueKeys.item (h : (array xs).UniqueKeys) (hi : xs[i]? = some v) : v.UniqueKeys :=
  fun p fs hp => h (.index i :: p) fs ((get_index hi p).trans hp)

theorem UniqueKeys.sub (h : v.UniqueKeys) (hq : v.get q = some w) : w.UniqueKeys := fun p fs hp =>
  h (q ++ p) fs (by rw [get_append, hq, Option.bind_some, hp])

end Value

/-- A document whose tables are maps. -/
structure Document (α : Type*) where
  value : Value α
  unique : value.UniqueKeys

mutual

/-- Whether no table has two entries of a key. -/
def Value.distinct : Value α → Bool
  | .table es => decide (es.map Prod.fst).Nodup && distinctEntries es
  | .array xs => distinctItems xs
  | _ => true

def distinctEntries : Entries α → Bool
  | [] => true
  | (_, v) :: es => v.distinct && distinctEntries es

def distinctItems : List (Value α) → Bool
  | [] => true
  | x :: xs => x.distinct && distinctItems xs

end

theorem distinct_of_mem_entries {es : Entries α} (h : distinctEntries es = true) {e : String × Value α}
    (he : e ∈ es) : e.2.distinct = true := by
  induction es with
  | nil => cases he
  | cons f es ih =>
    rw [show f = (f.1, f.2) from rfl, distinctEntries, Bool.and_eq_true] at h
    rcases List.mem_cons.mp he with rfl | he
    · exact h.1
    · exact ih h.2 he

theorem distinct_of_mem_items {xs : List (Value α)} (h : distinctItems xs = true) {x : Value α}
    (hx : x ∈ xs) : x.distinct = true := by
  induction xs with
  | nil => cases hx
  | cons y xs ih =>
    rw [distinctItems, Bool.and_eq_true] at h
    rcases List.mem_cons.mp hx with rfl | hx
    · exact h.1
    · exact ih h.2 hx

theorem uniqueKeys_of_distinct {v : Value α} (h : v.distinct = true) : v.UniqueKeys := by
  intro p es hp
  induction p generalizing v with
  | nil =>
    rw [Value.get_nil] at hp
    obtain rfl := Option.some.inj hp
    rw [Value.distinct, Bool.and_eq_true] at h
    exact of_decide_eq_true h.1
  | cons s p ih =>
    rcases Value.get_cons hp with ⟨fs, k, u, rfl, rfl, hu, hp⟩ | ⟨xs, i, u, rfl, rfl, hu, hp⟩
    · rw [Value.distinct, Bool.and_eq_true] at h
      exact ih (distinct_of_mem_entries h.2 (Value.mem_of_lookup hu)) hp
    · rw [Value.distinct] at h
      exact ih (distinct_of_mem_items h (List.mem_of_getElem? hu)) hp

section
variable [DecidableEq α] {v w : Value α} {p : Path} {es fs : Entries α} {xs ys : List (Value α)}

theorem sameEntries_lookup (h : sameEntries es fs = true) {k : String} (hv : es.lookup k = some v) :
    ∃ w, fs.lookup k = some w ∧ v.same w = true := by
  induction es with
  | nil => cases hv
  | cons e es ih =>
    obtain ⟨k', u⟩ := e
    rw [sameEntries, Bool.and_eq_true] at h
    rw [List.lookup_cons] at hv
    cases hk : k == k' with
    | true =>
      rw [hk] at hv
      obtain rfl := Option.some.inj hv
      obtain rfl := eq_of_beq hk
      exact (Option.any_eq_true _ _).mp h.1
    | false =>
      rw [hk] at hv
      exact ih h.2 hv

theorem sameItems_get (h : sameItems xs ys = true) {i : Nat} (hv : xs[i]? = some v) :
    ∃ w, ys[i]? = some w ∧ v.same w = true := by
  induction xs generalizing ys i with
  | nil => cases hv
  | cons x xs ih =>
    cases ys with
    | nil => cases h
    | cons y ys =>
      rw [sameItems, Bool.and_eq_true] at h
      cases i with
      | zero =>
        obtain rfl := Option.some.inj hv
        exact ⟨y, rfl, h.1⟩
      | succ i => exact ih h.2 hv

/-- Equal documents have the same strings in the same places. -/
theorem get_of_same (h : v.same w = true) {s : String} (hs : v.get p = some (.string s)) :
    w.get p = some (.string s) := by
  induction p generalizing v w with
  | nil =>
    rw [Value.get_nil] at hs ⊢
    obtain rfl := Option.some.inj hs
    cases w with
    | string t => rw [of_decide_eq_true h]
    | _ => cases h
  | cons seg p ih =>
    rcases Value.get_cons hs with ⟨es, k, u, rfl, rfl, hu, hs⟩ | ⟨xs, i, u, rfl, rfl, hu, hs⟩
    · cases w with
      | table fs =>
        rw [Value.same, Bool.and_eq_true] at h
        obtain ⟨u', hu', hsame⟩ := sameEntries_lookup h.2 hu
        rw [Value.get_key hu']
        exact ih hsame hs
      | _ => cases h
    · cases w with
      | array ys =>
        rw [Value.same] at h
        obtain ⟨u', hu', hsame⟩ := sameItems_get h hu
        rw [Value.get_index hu']
        exact ih hsame hs
      | _ => cases h

theorem same_refl (h : v.UniqueKeys) : v.same v = true := by
  induction v with
  | string text => exact decide_eq_true rfl
  | scalar a => exact decide_eq_true rfl
  | array xs ih =>
    have hitems (ys : List (Value α)) (hys : ∀ y ∈ ys, y.same y = true) : sameItems ys ys = true := by
      induction ys with
      | nil => rfl
      | cons y ys ihy =>
        obtain ⟨hy, hys⟩ := List.forall_mem_cons.mp hys
        rw [sameItems, hy, ihy hys, Bool.and_self]
    rw [Value.same]
    refine hitems xs fun x hx => ?_
    obtain ⟨i, hi⟩ := List.mem_iff_getElem?.mp hx
    exact ih x hx (h.item hi)
  | table es ih =>
    have hentries (fs : Entries α) (hfs : ∀ f ∈ fs, f ∈ es) : sameEntries fs es = true := by
      induction fs with
      | nil => rfl
      | cons f fs ihf =>
        obtain ⟨hf, hfs⟩ := List.forall_mem_cons.mp hfs
        rw [show f = (f.1, f.2) from rfl, sameEntries, Value.lookup_of_mem h.nodup hf, Option.any_some,
          ih f hf (h.entry hf), ihf hfs, Bool.and_self]
    rw [Value.same, hentries es fun _ he => he, decide_eq_true rfl, Bool.and_self]

end

end Claudear.Data
