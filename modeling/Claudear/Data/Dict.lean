import Mathlib.Data.List.Nodup
import Mathlib.Data.List.Perm.Subperm

/-!
# Hash maps as lists of entries

A map is its entries in some order, one for each key. `get` looks a key up, and
every operation says what it does to `get` and to the size. `HashOrder` is the
order in which an iteration meets the entries, which may be any.
-/

namespace Claudear.Data

structure Dict (κ ν : Type*) where
  items : List (κ × ν)
  nodup : (items.map Prod.fst).Nodup

/-- The order in which a map is iterated over. -/
structure HashOrder (κ ν : Type*) where
  order : List (κ × ν) → List (κ × ν)
  perm : ∀ l, (order l).Perm l

/-- A list of entries that agree has the value that any of them has. -/
theorem lookup_eq_of_mem {κ ν : Type*} [BEq κ] [LawfulBEq κ] {l : List (κ × ν)} {k : κ} {o : Option ν}
    (hsome : ∀ v, (k, v) ∈ l → o = some v) (hmem : o.isSome = true → ∃ v, (k, v) ∈ l) : l.lookup k = o := by
  cases h : l.lookup k with
  | some v =>
    obtain ⟨l₁, l₂, rfl, -⟩ := List.lookup_eq_some_iff.mp h
    exact (hsome v (List.mem_append_right l₁ List.mem_cons_self)).symm
  | none =>
    cases o with
    | none => rfl
    | some w =>
      obtain ⟨v, hv⟩ := hmem rfl
      exact absurd rfl (bne_iff_ne.mp (List.lookup_eq_none_iff.mp h _ hv))

namespace Dict

variable {κ ν : Type*} [DecidableEq κ] (m : Dict κ ν) {k j : κ} {v : ν} {p : κ × ν → Bool}

def empty : Dict κ ν := ⟨[], List.nodup_nil⟩

def get (k : κ) : Option ν := m.items.lookup k

def size : Nat := m.items.length

/-- Keep the entries that satisfy `p`. -/
def retain (p : κ × ν → Bool) : Dict κ ν :=
  ⟨m.items.filter p, m.nodup.sublist (List.filter_sublist.map _)⟩

def erase (k : κ) : Dict κ ν := m.retain fun e => e.1 ≠ k

def set (k : κ) (v : ν) : Dict κ ν where
  items := (k, v) :: (m.erase k).items
  nodup := by
    rw [List.map_cons, List.nodup_cons]
    refine ⟨fun h => ?_, (m.erase k).nodup⟩
    obtain ⟨e, he, rfl⟩ := List.mem_map.mp h
    exact of_decide_eq_true (List.mem_filter.mp he).2 rfl

variable {m}

@[simp] theorem get_empty : (empty : Dict κ ν).get k = none := rfl

theorem get_eq_some : m.get k = some v ↔ (k, v) ∈ m.items := by
  obtain ⟨items, hn⟩ := m
  change items.lookup k = some v ↔ (k, v) ∈ items
  induction items with
  | nil => simp
  | cons e items ih =>
    obtain ⟨j, w⟩ := e
    rw [List.map_cons, List.nodup_cons] at hn
    rw [List.lookup_cons, List.mem_cons]
    by_cases h : k = j
    · subst h
      have hnot : (k, v) ∉ items := fun hmem => hn.1 (List.mem_map.mpr ⟨_, hmem, rfl⟩)
      simp [hnot, eq_comm]
    · rw [beq_eq_false_iff_ne.mpr h, ih hn.2]
      simp [h]

theorem lookup_items [BEq κ] [LawfulBEq κ] : m.items.lookup k = m.get k :=
  lookup_eq_of_mem (fun _ hv => get_eq_some.mpr hv) fun hsome =>
    (Option.isSome_iff_exists.mp hsome).imp fun _ hv => get_eq_some.mp hv

/-- The order of the entries does not matter. -/
theorem get_eq_of_perm {m' : Dict κ ν} (h : m.items.Perm m'.items) : m.get = m'.get := by
  funext k
  apply Option.ext
  intro v
  rw [get_eq_some, get_eq_some, h.mem_iff]

theorem get_retain : (m.retain p).get k = (m.get k).filter fun v => p (k, v) := by
  apply Option.ext
  intro v
  rw [get_eq_some, retain, List.mem_filter, ← get_eq_some, Option.filter_eq_some_iff]

theorem get_erase : (m.erase k).get j = if j = k then none else m.get j := by
  rw [erase, get_retain]
  split
  · rename_i h
    subst h
    cases m.get j <;> simp
  · rename_i h
    cases m.get j <;> simp [h]

theorem get_set : (m.set k v).get j = if j = k then some v else m.get j := by
  change List.lookup j ((k, v) :: (m.erase k).items) = _
  rw [List.lookup_cons]
  split
  · rename_i h
    rw [if_pos (beq_iff_eq.mp h)]
  · rename_i h
    rw [if_neg (beq_eq_false_iff_ne.mp h)]
    change (m.erase k).get j = _
    rw [get_erase, if_neg (beq_eq_false_iff_ne.mp h)]

/-- Taking one key out takes one entry out. -/
theorem size_erase (h : (m.get k).isSome = true) : (m.erase k).size + 1 = m.size := by
  obtain ⟨v, hv⟩ := Option.isSome_iff_exists.mp h
  obtain ⟨pre, post, hsplit⟩ := List.append_of_mem (get_eq_some.mp hv)
  have hn := m.nodup
  rw [hsplit, List.map_append, List.map_cons, List.nodup_middle, List.nodup_cons] at hn
  have hother : ∀ e ∈ pre ++ post, decide (e.1 ≠ k) = true := fun e he =>
    decide_eq_true fun hk => hn.1 (by rw [← List.map_append]; exact List.mem_map.mpr ⟨e, he, hk⟩)
  rw [List.forall_mem_append] at hother
  show (m.items.filter fun e => e.1 ≠ k).length + 1 = m.items.length
  rw [hsplit, List.filter_append, List.filter_cons_of_neg (by simp), List.filter_eq_self.mpr hother.1,
    List.filter_eq_self.mpr hother.2]
  simp only [List.length_append, List.length_cons]
  omega

theorem size_set (h : (m.get k).isSome = true) : (m.set k v).size = m.size := size_erase h

/-- Taking several keys out takes as many entries out. -/
theorem size_eraseAll {ks : List κ} (hn : ks.Nodup) (hk : ∀ k ∈ ks, (m.get k).isSome = true) :
    (ks.foldl (fun m k => m.erase k) m).size + ks.length = m.size := by
  induction ks generalizing m with
  | nil => rfl
  | cons k ks ih =>
    obtain ⟨hnot, hn⟩ := List.nodup_cons.mp hn
    obtain ⟨hhead, hk⟩ := List.forall_mem_cons.mp hk
    have hrest : ∀ j ∈ ks, ((m.erase k).get j).isSome = true := by
      intro j hj
      rw [get_erase, if_neg fun h : j = k => hnot (h ▸ hj)]
      exact hk j hj
    have hsize := size_erase hhead
    have herased := ih hn hrest
    rw [List.foldl_cons, List.length_cons]
    omega

omit [DecidableEq κ] in
/-- A map has no more entries than there are keys for them. -/
theorem size_le_of_keys {ks : List κ} (h : ∀ e ∈ m.items, e.1 ∈ ks) : m.size ≤ ks.length := by
  have hsub : m.items.map Prod.fst ⊆ ks := by
    intro k hk
    obtain ⟨e, he, rfl⟩ := List.mem_map.mp hk
    exact h e he
  have hle := (List.subperm_of_subset m.nodup hsub).length_le
  rwa [List.length_map] at hle

end Dict

end Claudear.Data
