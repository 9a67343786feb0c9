import Mathlib.Algebra.BigOperators.Group.List.Basic
import Mathlib.Data.List.Nodup

/-!
# Tallies

A tally keeps, for every key it has met, one running sum for each column. The
entries stand in the order in which their keys were first credited; a result
about a hash map holds of every permutation of them.
-/

namespace Claudear.Data

variable {κ ι M : Type*} [DecidableEq κ] [AddCommMonoid M]

abbrev Tally (κ ι M : Type*) := List (κ × (ι → M))

namespace Tally

def keys (t : Tally κ ι M) : List κ := t.map Prod.fst

def total (t : Tally κ ι M) (k : κ) (i : ι) : M := (t.lookup k).getD 0 i

variable {t : Tally κ ι M} {p : κ × ι × M} {ps : List (κ × ι × M)} {k j : κ} {i : ι} {s : ι → M}

@[simp] theorem total_nil : total ([] : Tally κ ι M) k i = 0 := rfl

theorem total_cons : total ((j, s) :: t) k i = if k = j then s i else total t k i := by
  unfold total
  rw [List.lookup_cons]
  by_cases h : k = j
  · simp [h]
  · rw [beq_eq_false_iff_ne.mpr h, if_neg h]

theorem total_of_mem (h : t.keys.Nodup) (hm : (k, s) ∈ t) : t.total k = s := by
  induction t with
  | nil => cases hm
  | cons e t ih =>
    obtain ⟨j, r⟩ := e
    rw [keys, List.map_cons, List.nodup_cons] at h
    funext i
    rw [total_cons]
    rcases List.mem_cons.mp hm with he | hm
    · cases he
      rw [if_pos rfl]
    · have hk : k ≠ j := fun he => h.1 (List.mem_map.mpr ⟨_, hm, he⟩)
      rw [if_neg hk, ih h.2 hm]

/-- A key that is no key of the tally has nothing. -/
theorem total_of_notMem (h : k ∉ t.keys) : t.total k = 0 := by
  funext i
  induction t with
  | nil => rfl
  | cons e t ih =>
    rw [keys, List.map_cons, List.mem_cons, not_or] at h
    rw [total_cons, if_neg h.1, ih h.2]

/-! ## Crediting -/

variable [DecidableEq ι]

/-- Adds to one column of a key, which starts from zero. -/
def credit : Tally κ ι M → κ × ι × M → Tally κ ι M
  | [], p => [(p.1, Function.update 0 p.2.1 (0 + p.2.2))]
  | (k, s) :: t, p =>
    if k = p.1 then (k, Function.update s p.2.1 (s p.2.1 + p.2.2)) :: t
    else (k, s) :: credit t p

theorem total_credit :
    (t.credit p).total k i = t.total k i + if k = p.1 ∧ i = p.2.1 then p.2.2 else 0 := by
  induction t with
  | nil =>
    rw [credit, total_cons, total_nil, zero_add, zero_add, Function.update_apply]
    by_cases hk : k = p.1 <;> simp [hk]
  | cons e t ih =>
    obtain ⟨j, s⟩ := e
    rw [credit]
    split
    · rename_i hj
      rw [total_cons, total_cons, ← hj, Function.update_apply]
      by_cases hk : k = j
      · by_cases hi : i = p.2.1 <;> simp [hk, hi]
      · simp [hk]
    · rename_i hj
      rw [total_cons, total_cons, ih]
      by_cases hk : k = j
      · have hne : k ≠ p.1 := fun h => hj (hk.symm.trans h)
        rw [if_pos hk, if_pos hk, if_neg (fun h => hne h.1), add_zero]
      · rw [if_neg hk, if_neg hk]

theorem keys_credit :
    (t.credit p).keys = if p.1 ∈ t.keys then t.keys else t.keys ++ [p.1] := by
  induction t with
  | nil => rfl
  | cons e t ih =>
    obtain ⟨j, s⟩ := e
    rw [credit]
    split
    · rename_i hj
      simp [keys, hj]
    · rename_i hj
      have hc : keys ((j, s) :: credit t p) = j :: (credit t p).keys := rfl
      have hc' : keys ((j, s) :: t) = j :: keys t := rfl
      rw [hc, hc', ih]
      by_cases hm : p.1 ∈ keys t
      · rw [if_pos hm, if_pos (List.mem_cons_of_mem _ hm)]
      · rw [if_neg hm, if_neg (by simp [hm, Ne.symm hj])]
        rfl

/-- A key's column is the sum of what it was credited. -/
theorem total_foldl : (ps.foldl credit t).total k i =
    t.total k i + ((ps.filter fun p => k = p.1 ∧ i = p.2.1).map fun p => p.2.2).sum := by
  induction ps generalizing t with
  | nil => simp
  | cons p ps ih =>
    rw [List.foldl_cons, ih, total_credit, List.filter_cons, add_assoc]
    by_cases h : k = p.1 ∧ i = p.2.1
    · rw [if_pos h, if_pos (decide_eq_true h), List.map_cons, List.sum_cons]
    · rw [if_neg h, zero_add, if_neg (by simpa using h)]

theorem mem_keys_foldl : k ∈ (ps.foldl credit t).keys ↔ k ∈ t.keys ∨ ∃ p ∈ ps, p.1 = k := by
  induction ps generalizing t with
  | nil => simp
  | cons p ps ih =>
    rw [List.foldl_cons, ih, keys_credit, List.exists_mem_cons_iff, ← or_assoc]
    refine or_congr_left ?_
    split
    · rename_i h
      exact ⟨.inl, fun hk => hk.elim id fun he => he ▸ h⟩
    · rw [List.mem_append, List.mem_singleton, eq_comm]

theorem nodup_keys_foldl (h : t.keys.Nodup) : (ps.foldl credit t).keys.Nodup := by
  induction ps generalizing t with
  | nil => exact h
  | cons p ps ih =>
    refine ih ?_
    rw [keys_credit]
    split
    · exact h
    · rename_i hp
      refine List.nodup_append.mpr ⟨h, List.nodup_singleton _, fun k hk j hj he => hp ?_⟩
      rwa [← List.mem_singleton.mp hj, ← he]

end Tally

end Claudear.Data
