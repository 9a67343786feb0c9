import Mathlib.Data.List.Destutter
import Mathlib.Data.List.Sort

/-!
# Lists of keyed values

`firstByKey key l` keeps the first element of every key, in key order: a stable
sort and the removal of repeated neighbours. It depends only on which element
of `l` is the first of its key (`mem_firstByKey`).

`Index κ` maps keys to positions. `orInsert` keeps the position a key
already has, `insert` replaces it.
-/

namespace Claudear.Data

variable {α κ : Type*} [LinearOrder κ] {key : α → κ} {l l' : List α} {a : α} {k : κ}

/-- The comparison of the keys. -/
def byKey (key : α → κ) (a b : α) : Bool := decide (key a ≤ key b)

/-- A stable sort, and of neighbours with the same key the first. -/
def firstByKey (key : α → κ) (l : List α) : List α :=
  (l.mergeSort (byKey key)).destutter fun a b => key a ≠ key b

/-- One element a key, in key order. -/
abbrev KeySorted (key : α → κ) (l : List α) : Prop := l.Pairwise fun a b => key a < key b

/-! ## Sorting -/

theorem byKey_iff {a b : α} : byKey key a b = true ↔ key a ≤ key b := decide_eq_true_iff

theorem byKey_trans (a b c : α) (hab : byKey key a b = true) (hbc : byKey key b c = true) :
    byKey key a c = true :=
  byKey_iff.mpr (le_trans (byKey_iff.mp hab) (byKey_iff.mp hbc))

theorem byKey_total (a b : α) : (byKey key a b || byKey key b a) = true := by
  rw [Bool.or_eq_true, byKey_iff, byKey_iff]
  exact le_total _ _

theorem pairwise_mergeSort_key (l : List α) :
    (l.mergeSort (byKey key)).Pairwise fun a b => key a ≤ key b :=
  (List.pairwise_mergeSort byKey_trans byKey_total l).imp byKey_iff.mp

/-- The sort is stable. -/
theorem filter_mergeSort_key (l : List α) (k : κ) :
    (l.mergeSort (byKey key)).filter (fun a => key a = k) = l.filter fun a => key a = k := by
  have hp : (l.filter fun a => key a = k).Pairwise fun a b => byKey key a b = true := by
    refine List.pairwise_of_forall_mem_list fun a ha b hb => byKey_iff.mpr ?_
    rw [of_decide_eq_true (List.mem_filter.mp ha).2, of_decide_eq_true (List.mem_filter.mp hb).2]
  have hs := (List.sublist_mergeSort byKey_trans byKey_total hp List.filter_sublist).filter
    fun a => decide (key a = k)
  rw [List.filter_filter] at hs
  simp only [Bool.and_self] at hs
  exact (hs.eq_of_length ((List.mergeSort_perm l _).filter _).length_eq.symm).symm

theorem find?_mergeSort_key (l : List α) (k : κ) :
    (l.mergeSort (byKey key)).find? (fun a => key a = k) =
      l.find? fun a => key a = k := by
  rw [← List.head?_filter, ← List.head?_filter, filter_mergeSort_key]

/-! ## The first of every key -/

theorem find?_destutter' (b : α) (l : List α) (k : κ) :
    (l.destutter' (fun a b => key a ≠ key b) b).find? (fun a => key a = k) =
      (b :: l).find? fun a => key a = k := by
  induction l generalizing b with
  | nil => rfl
  | cons c l ih =>
    rw [List.destutter']
    split
    · simp only [List.find?_cons, ih]
    · rename_i h
      rw [ih, List.find?_cons, List.find?_cons, List.find?_cons, not_not.mp h]
      split <;> rfl

theorem find?_firstByKey (l : List α) (k : κ) :
    (firstByKey key l).find? (fun a => key a = k) = l.find? fun a => key a = k := by
  rw [← find?_mergeSort_key l k, firstByKey]
  cases l.mergeSort (byKey key) with
  | nil => rfl
  | cons b l => exact find?_destutter' b l k

/-- Where no two neighbours share a key, an ordered list has one element a key. -/
theorem keySorted_of_chain (hs : l.Pairwise fun a b => key a ≤ key b)
    (hc : l.IsChain fun a b => key a ≠ key b) : KeySorted key l := by
  induction hc with
  | nil => exact .nil
  | singleton a => exact List.pairwise_singleton _ a
  | @cons_cons a b l hab hc ih =>
    obtain ⟨ha, hs⟩ := List.pairwise_cons.mp hs
    have hlt : key a < key b := lt_of_le_of_ne (ha b List.mem_cons_self) hab
    refine List.pairwise_cons.mpr ⟨fun c hc => ?_, ih hs⟩
    rcases List.mem_cons.mp hc with rfl | hc
    · exact hlt
    · exact lt_of_lt_of_le hlt ((List.pairwise_cons.mp hs).1 c hc)

theorem keySorted_firstByKey (l : List α) : KeySorted key (firstByKey key l) :=
  keySorted_of_chain ((pairwise_mergeSort_key l).sublist (List.destutter_sublist _ _))
    (List.isChain_destutter _ _)

/-! ## Lists in key order -/

theorem KeySorted.find?_eq_some (h : KeySorted key l) :
    l.find? (fun a => key a = k) = some a ↔ a ∈ l ∧ key a = k := by
  constructor
  · intro hf
    have hk : decide (key a = k) = true := List.find?_some (p := fun a => decide (key a = k)) hf
    exact ⟨List.mem_of_find?_eq_some hf, of_decide_eq_true hk⟩
  · rintro ⟨ha, rfl⟩
    induction h with
    | nil => cases ha
    | @cons b l hb _ ih =>
      rw [List.find?_cons]
      rcases List.mem_cons.mp ha with rfl | ha
      · simp
      · rw [decide_eq_false (hb a ha).ne]
        exact ih ha

theorem KeySorted.nodup (h : KeySorted key l) : (l.map key).Nodup :=
  List.Pairwise.map key (fun _ _ => ne_of_lt) h

/-- Without one key the other keys stay. -/
theorem find?_filter_ne (l : List α) (k k' : κ) :
    (l.filter fun a => key a ≠ k').find? (fun a => key a = k) =
      if k = k' then none else l.find? fun a => key a = k := by
  induction l with
  | nil => simp
  | cons a l ih =>
    rw [List.filter_cons]
    by_cases ha : key a = k'
    · rw [if_neg (by simp [ha]), ih]
      split
      · rfl
      · rename_i h
        rw [List.find?_cons, decide_eq_false (ha.trans_ne (Ne.symm h))]
    · rw [if_pos (decide_eq_true ha), List.find?_cons, List.find?_cons, ih]
      by_cases hk : key a = k
      · have hne : k ≠ k' := fun h => ha (hk.trans h)
        rw [decide_eq_true hk, if_neg hne, if_neg hne]
      · rw [decide_eq_false hk]

/-- A list in key order is determined by what it holds of every key. -/
theorem KeySorted.eq_of_find? (h : KeySorted key l) (h' : KeySorted key l')
    (hf : ∀ k, l.find? (fun a => key a = k) = l'.find? fun a => key a = k) : l = l' := by
  have hm : ∀ a, a ∈ l ↔ a ∈ l' := by
    intro a
    have hk := hf (key a)
    constructor
    · intro ha
      exact (h'.find?_eq_some.mp (hk ▸ h.find?_eq_some.mpr ⟨ha, rfl⟩)).1
    · intro ha
      exact (h.find?_eq_some.mp (hk ▸ h'.find?_eq_some.mpr ⟨ha, rfl⟩)).1
  have hp : l.Perm l' :=
    (List.perm_ext_iff_of_nodup h.nodup.of_map h'.nodup.of_map).mpr hm
  exact hp.eq_of_pairwise (fun a b _ _ hab hba => absurd (lt_trans hab hba) (lt_irrefl _)) h h'

theorem mem_firstByKey : a ∈ firstByKey key l ↔ l.find? (fun b => key b = key a) = some a := by
  rw [← find?_firstByKey, (keySorted_firstByKey l).find?_eq_some, and_iff_left rfl]

theorem mem_of_mem_firstByKey (h : a ∈ firstByKey key l) : a ∈ l :=
  List.mem_of_find?_eq_some (mem_firstByKey.mp h)

/-- A list that is sorted and has no key twice is in key order. -/
theorem keySorted_mergeSort (h : (l.map key).Nodup) :
    KeySorted key (l.mergeSort (byKey key)) := by
  have hn : ((l.mergeSort (byKey key)).map key).Nodup :=
    ((List.mergeSort_perm l _).map key).nodup_iff.mpr h
  exact (pairwise_mergeSort_key l).imp₂ (fun _ _ => lt_of_le_of_ne) (List.pairwise_map.mp hn)

/-- Where no key comes twice the order before the sort makes no difference. -/
theorem mergeSort_key_congr (h : (l.map key).Nodup) (hp : l.Perm l') :
    l.mergeSort (byKey key) = l'.mergeSort (byKey key) := by
  have hp' : (l.mergeSort (byKey key)).Perm (l'.mergeSort (byKey key)) :=
    (List.mergeSort_perm l _).trans (hp.trans (List.mergeSort_perm l' _).symm)
  exact hp'.eq_of_pairwise (fun a b _ _ hab hba => absurd (lt_trans hab hba) (lt_irrefl _))
    (keySorted_mergeSort h) (keySorted_mergeSort ((hp.map key).nodup_iff.mp h))

/-! ## Positions by key -/

section Index

/-- Every element's key and position. -/
def positions {κ : Type*} (f : α → κ) (l : List α) : List (κ × Nat) :=
  l.zipIdx.map fun (a, i) => (f a, i)

theorem mem_positions {κ : Type*} {f : α → κ} {k : κ} {i : Nat} :
    (k, i) ∈ positions f l ↔ ∃ a, l[i]? = some a ∧ f a = k := by
  simp only [positions, List.mem_map, Prod.mk.injEq, Prod.exists, List.mem_zipIdx_iff_getElem?]
  constructor
  · rintro ⟨a, j, ha, hk, rfl⟩
    exact ⟨a, ha, hk⟩
  · rintro ⟨a, ha, hk⟩
    exact ⟨a, i, ha, hk, rfl⟩

theorem map_fst_positions {κ : Type*} (f : α → κ) (l : List α) :
    (positions f l).map Prod.fst = l.map f := by
  calc (positions f l).map Prod.fst = l.zipIdx.map (f ∘ Prod.fst) := by rw [positions, List.map_map]; rfl
    _ = (l.zipIdx.map Prod.fst).map f := (List.map_map ..).symm
    _ = l.map f := by rw [List.zipIdx_map_fst]

variable {κ : Type*} [DecidableEq κ] {m : κ → Option Nat} {ps : List (κ × Nat)} {k : κ} {i : Nat}

/-- The position of every key. -/
abbrev Index (κ : Type*) := κ → Option Nat

def Index.orInsert (m : Index κ) (p : κ × Nat) : Index κ :=
  if (m p.1).isSome then m else Function.update m p.1 (some p.2)

def Index.insert (m : Index κ) (p : κ × Nat) : Index κ := Function.update m p.1 (some p.2)

theorem orInsert_apply (m : Index κ) (p : κ × Nat) (k : κ) :
    m.orInsert p k = (m k).or (if k = p.1 then some p.2 else none) := by
  unfold Index.orInsert
  by_cases hk : k = p.1
  · subst hk
    cases hm : m p.1 <;> simp [hm]
  · rw [if_neg hk, Option.or_none]
    split
    · rfl
    · exact Function.update_of_ne hk _ _

/-- Of several positions of a key the first stands. -/
theorem foldl_orInsert (m : Index κ) (ps : List (κ × Nat)) (k : κ) :
    ps.foldl Index.orInsert m k = (m k).or (ps.lookup k) := by
  induction ps generalizing m with
  | nil => rw [List.foldl_nil, List.lookup_nil, Option.or_none]
  | cons p ps ih =>
    rw [List.foldl_cons, ih, orInsert_apply, Option.or_assoc, List.lookup_cons]
    by_cases hk : k = p.1
    · rw [if_pos hk, beq_iff_eq.mpr hk]
      rfl
    · rw [if_neg hk, beq_eq_false_iff_ne.mpr hk]
      rfl

theorem foldl_insert_of_notMem (h : ∀ p ∈ ps, p.1 ≠ k) : ps.foldl Index.insert m k = m k := by
  induction ps generalizing m with
  | nil => rfl
  | cons p ps ih =>
    rw [List.foldl_cons, ih fun q hq => h q (List.mem_cons_of_mem _ hq)]
    exact Function.update_of_ne (h p List.mem_cons_self).symm _ _

theorem mem_of_foldl_insert (h : ps.foldl Index.insert m k = some i) : (k, i) ∈ ps ∨ m k = some i := by
  induction ps generalizing m with
  | nil => exact .inr h
  | cons p ps ih =>
    rcases ih h with h | h
    · exact .inl (List.mem_cons_of_mem _ h)
    · unfold Index.insert at h
      rw [Function.update_apply] at h
      split at h
      · rename_i hk
        cases h
        exact .inl (hk ▸ List.mem_cons_self)
      · exact .inr h

theorem foldl_insert_of_mem (hn : (ps.map Prod.fst).Nodup) (h : (k, i) ∈ ps) :
    ps.foldl Index.insert m k = some i := by
  induction ps generalizing m with
  | nil => cases h
  | cons p ps ih =>
    rw [List.map_cons, List.nodup_cons] at hn
    rw [List.foldl_cons]
    rcases List.mem_cons.mp h with rfl | h
    · rw [foldl_insert_of_notMem fun q hq he => hn.1 (List.mem_map.mpr ⟨q, hq, he⟩)]
      exact Function.update_self _ _ _
    · exact ih hn.2 h

theorem lookup_of_mem (hn : (ps.map Prod.fst).Nodup) (h : (k, i) ∈ ps) :
    ps.lookup k = some i := by
  induction ps with
  | nil => cases h
  | cons p ps ih =>
    rw [List.map_cons, List.nodup_cons] at hn
    rw [List.lookup_cons]
    rcases List.mem_cons.mp h with rfl | h
    · rw [beq_self_eq_true]
    · have hk : k ≠ p.1 := fun he => hn.1 (List.mem_map.mpr ⟨_, h, he⟩)
      rw [beq_eq_false_iff_ne.mpr hk]
      exact ih hn.2 h

end Index

end Claudear.Data
