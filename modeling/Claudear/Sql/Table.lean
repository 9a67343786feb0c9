import Mathlib.Data.List.Basic

/-!
# Tables with an autoincrement key

A `Table ρ` holds rows of columns `ρ` under an `INTEGER PRIMARY KEY
AUTOINCREMENT`: keys only grow, so the rows stand in insertion order and a new
key was never used before. Both facts are fields of the table.

`first` is what a query without `ORDER BY` that looks one row up returns: an
index scan visits the matching rows in key order. `update` is `UPDATE … SET f
WHERE p`. The lemmas read a statement's effect off one key at a time (`get`), or
off the stored contents where the key says nothing (`Has`).
-/

namespace Claudear.Sql

structure Table (ρ : Type*) where
  rows : List (Nat × ρ)
  /-- The key the next row gets. -/
  next : Nat
  sorted : rows.Pairwise fun a b => a.1 < b.1
  below : ∀ r ∈ rows, r.1 < next

namespace Table

variable {ρ κ : Type*}

/-- The table `CREATE TABLE` makes. -/
def empty : Table ρ := ⟨[], 1, .nil, by simp⟩

/-- The columns of the row with key `i`. -/
def get (t : Table ρ) (i : Nat) : Option ρ := (t.rows.find? fun r => r.1 = i).map Prod.snd

def select (t : Table ρ) (p : Nat × ρ → Bool) : List (Nat × ρ) := t.rows.filter p

def first (t : Table ρ) (p : Nat × ρ → Bool) : Option (Nat × ρ) := t.rows.find? p

def any (t : Table ρ) (p : Nat × ρ → Bool) : Bool := t.rows.any p

/-- The number of rows an `UPDATE` with this `WHERE` reports. -/
def count (t : Table ρ) (p : Nat × ρ → Bool) : Nat := t.rows.countP p

/-- The new row of an `UPDATE … SET f WHERE p`. -/
def setWhere (p : Nat × ρ → Bool) (f : ρ → ρ) (r : Nat × ρ) : Nat × ρ :=
  if p r then (r.1, f r.2) else r

@[simp] theorem setWhere_fst (p : Nat × ρ → Bool) (f : ρ → ρ) (r : Nat × ρ) :
    (setWhere p f r).1 = r.1 := by
  unfold setWhere; split <;> rfl

def update (t : Table ρ) (p : Nat × ρ → Bool) (f : ρ → ρ) : Table ρ where
  rows := t.rows.map (setWhere p f)
  next := t.next
  sorted := by simpa [List.pairwise_map] using t.sorted
  below := by
    intro r hr
    obtain ⟨q, hq, rfl⟩ := List.mem_map.mp hr
    simpa using t.below q hq

/-- The row goes in under the key `t.next`. -/
def insert (t : Table ρ) (c : ρ) : Table ρ where
  rows := t.rows ++ [(t.next, c)]
  next := t.next + 1
  sorted := by
    rw [List.pairwise_append]
    refine ⟨t.sorted, List.pairwise_singleton .., ?_⟩
    intro a ha b hb
    rw [List.mem_singleton] at hb
    subst hb
    exact t.below a ha
  below := by
    intro r hr
    rcases List.mem_append.mp hr with h | h
    · exact Nat.lt_succ_of_lt (t.below r h)
    · rw [List.mem_singleton] at h
      subst h
      exact Nat.lt_succ_self _

/-- An `INSERT` that meets a conflict, is ignored or updates another row has used its key up. -/
def skip (t : Table ρ) : Table ρ where
  rows := t.rows
  next := t.next + 1
  sorted := t.sorted
  below := fun r hr => Nat.lt_succ_of_lt (t.below r hr)

def delete (t : Table ρ) (p : ρ → Bool) : Table ρ where
  rows := t.rows.filter fun r => !p r.2
  next := t.next
  sorted := t.sorted.sublist List.filter_sublist
  below := fun r hr => t.below r (List.mem_of_mem_filter hr)

def deleteKeys (t : Table ρ) (p : Nat → Bool) : Table ρ where
  rows := t.rows.filter fun r => !p r.1
  next := t.next
  sorted := t.sorted.sublist List.filter_sublist
  below := fun r hr => t.below r (List.mem_of_mem_filter hr)

/-- What a query that selects with `f` sees of the table, under the keys of the table. -/
def filterMap {τ : Type*} (t : Table ρ) (f : ρ → Option τ) : Table τ where
  rows := t.rows.filterMap fun r => (f r.2).map fun c => (r.1, c)
  next := t.next
  sorted := by
    rw [List.pairwise_filterMap]
    refine t.sorted.imp fun {a b} hab c hc d hd => ?_
    obtain ⟨_, -, rfl⟩ := Option.map_eq_some_iff.mp hc
    obtain ⟨_, -, rfl⟩ := Option.map_eq_some_iff.mp hd
    exact hab
  below := by
    intro r hr
    obtain ⟨q, hq, hqr⟩ := List.mem_filterMap.mp hr
    obtain ⟨_, -, rfl⟩ := Option.map_eq_some_iff.mp hqr
    exact t.below q hq

/-- `INSERT … ON CONFLICT(key) DO UPDATE`, setting every column. -/
def upsert [DecidableEq κ] (t : Table ρ) (key : ρ → κ) (c : ρ) : Table ρ :=
  if t.any fun r => key r.2 = key c then t.update (fun r => key r.2 = key c) fun _ => c
  else t.insert c

/-! ## Rows by key -/

theorem find?_key {l : List (Nat × ρ)} (h : l.Pairwise fun a b => a.1 < b.1) {i : Nat} {c : ρ} :
    (l.find? fun r => r.1 = i) = some (i, c) ↔ (i, c) ∈ l := by
  induction l with
  | nil => simp
  | cons r l ih =>
    obtain ⟨hr, hl⟩ := List.pairwise_cons.mp h
    by_cases e : r.1 = i
    · have hn : (i, c) ∉ l := fun hm => absurd (hr _ hm) (by simp [e])
      simp only [List.find?_cons, e, decide_true, Option.some.injEq, List.mem_cons, hn, or_false]
      exact eq_comm
    · have hne : (i, c) ≠ r := fun h => e (by rw [← h])
      simp only [List.find?_cons, e, decide_false, ih hl, List.mem_cons, hne, false_or]

theorem get_eq_some {t : Table ρ} {i : Nat} {c : ρ} : t.get i = some c ↔ (i, c) ∈ t.rows := by
  rw [← find?_key t.sorted, get, Option.map_eq_some_iff]
  constructor
  · rintro ⟨⟨j, d⟩, h, rfl⟩
    have hj : j = i := by simpa using List.find?_some h
    rw [h, hj]
  · intro h
    exact ⟨(i, c), h, rfl⟩

/-- A fact about every stored row, read off the list. -/
theorem forall_get {t : Table ρ} {P : Nat × ρ → Prop} (h : ∀ r ∈ t.rows, P r) (i : Nat) (c : ρ)
    (hi : t.get i = some c) : P (i, c) :=
  h _ (get_eq_some.mp hi)

theorem get_next (t : Table ρ) : t.get t.next = none := by
  cases h : t.get t.next with
  | none => rfl
  | some c => exact absurd (t.below _ (get_eq_some.mp h)) (Nat.lt_irrefl _)

theorem lt_next {t : Table ρ} {i : Nat} {c : ρ} (h : t.get i = some c) : i < t.next :=
  t.below _ (get_eq_some.mp h)

@[simp] theorem get_empty (i : Nat) : (empty : Table ρ).get i = none := rfl

@[simp] theorem next_insert (t : Table ρ) (c : ρ) : (t.insert c).next = t.next + 1 := rfl

@[simp] theorem get_skip (t : Table ρ) (i : Nat) : t.skip.get i = t.get i := rfl

@[simp] theorem first_skip (t : Table ρ) (p : Nat × ρ → Bool) : t.skip.first p = t.first p := rfl

theorem get_update (t : Table ρ) (p : Nat × ρ → Bool) (f : ρ → ρ) (i : Nat) :
    (t.update p f).get i = (t.get i).map fun c => if p (i, c) then f c else c := by
  have hf : ((fun r : Nat × ρ => decide (r.1 = i)) ∘ setWhere p f) = fun r => decide (r.1 = i) := by
    funext r; simp
  unfold get update
  simp only [List.find?_map, hf, Option.map_map]
  cases h : t.rows.find? fun r => r.1 = i with
  | none => rfl
  | some r =>
    have hi : r.1 = i := by simpa using List.find?_some h
    subst hi
    simp only [Option.map_some, Function.comp, setWhere]
    split <;> rfl

theorem get_insert (t : Table ρ) (c : ρ) (i : Nat) :
    (t.insert c).get i = if i = t.next then some c else t.get i := by
  split
  · rename_i h
    subst h
    exact get_eq_some.mpr (List.mem_append_right _ List.mem_cons_self)
  · rename_i h
    simp only [get, insert, List.find?_append, List.find?_cons, List.find?_nil, Ne.symm h, decide_false]
    cases t.rows.find? fun r => r.1 = i <;> rfl

/-- A statement leaves a row its `WHERE` does not match. -/
theorem get_update_of_not {t : Table ρ} {p : Nat × ρ → Bool} {f : ρ → ρ} {i : Nat} {c : ρ}
    (h : t.get i = some c) (hp : p (i, c) = false) : (t.update p f).get i = some c := by
  simp [get_update, h, hp]

/-- A statement on other rows. -/
theorem get_update_of_ne {t : Table ρ} {p : Nat × ρ → Bool} {f : ρ → ρ} {i : Nat}
    (h : ∀ c, p (i, c) = false) : (t.update p f).get i = t.get i := by
  simp [get_update, h]

theorem get_update_of {t : Table ρ} {p : Nat × ρ → Bool} {f : ρ → ρ} {i : Nat} {c : ρ}
    (h : t.get i = some c) (hp : p (i, c) = true) : (t.update p f).get i = some (f c) := by
  simp [get_update, h, hp]

theorem get_insert_of {t : Table ρ} {d : ρ} {i : Nat} {c : ρ} (h : t.get i = some c) :
    (t.insert d).get i = some c := by
  rw [get_insert, if_neg (Nat.ne_of_lt (lt_next h)), h]

/-- A statement that matches no row changes nothing. -/
theorem update_of_none {t : Table ρ} {p : Nat × ρ → Bool} {f : ρ → ρ} (h : ∀ r, p r = false) :
    t.update p f = t := by
  have hid : setWhere p f = id := by
    funext r
    simp [setWhere, h]
  cases t
  simp [update, hid]

/-- A row after an `UPDATE` is a row from before it, rewritten where the `WHERE` matched. -/
theorem get_update_cases {t : Table ρ} {p : Nat × ρ → Bool} {f : ρ → ρ} {i : Nat} {c : ρ}
    (h : (t.update p f).get i = some c) :
    ∃ d, t.get i = some d ∧ (p (i, d) = true ∧ c = f d ∨ p (i, d) = false ∧ c = d) := by
  rw [get_update, Option.map_eq_some_iff] at h
  obtain ⟨d, hd, rfl⟩ := h
  refine ⟨d, hd, ?_⟩
  cases hp : p (i, d) <;> simp

/-- A row after an `INSERT` is the new row or one from before it. -/
theorem get_insert_cases {t : Table ρ} {d : ρ} {i : Nat} {c : ρ}
    (h : (t.insert d).get i = some c) : i = t.next ∧ c = d ∨ t.get i = some c := by
  rw [get_insert] at h
  split at h
  · exact .inl ⟨‹_›, (Option.some.inj h).symm⟩
  · exact .inr h

theorem get_delete_eq_some {t : Table ρ} {p : ρ → Bool} {i : Nat} {c : ρ} :
    (t.delete p).get i = some c ↔ t.get i = some c ∧ p c = false := by
  rw [get_eq_some, get_eq_some, delete, List.mem_filter, Bool.not_eq_true']

theorem get_deleteKeys_eq_some {t : Table ρ} {p : Nat → Bool} {i : Nat} {c : ρ} :
    (t.deleteKeys p).get i = some c ↔ t.get i = some c ∧ p i = false := by
  rw [get_eq_some, get_eq_some, deleteKeys, List.mem_filter, Bool.not_eq_true']

theorem get_delete (t : Table ρ) (p : ρ → Bool) (i : Nat) :
    (t.delete p).get i = (t.get i).filter fun c => !p c := by
  apply Option.ext
  intro c
  simp [get_delete_eq_some, Option.filter_eq_some_iff]

theorem get_deleteKeys (t : Table ρ) (p : Nat → Bool) (i : Nat) :
    (t.deleteKeys p).get i = if p i then none else t.get i := by
  apply Option.ext
  intro c
  rw [get_deleteKeys_eq_some]
  split <;> simp [*]

theorem get_filterMap {τ : Type*} (t : Table ρ) (f : ρ → Option τ) (i : Nat) :
    (t.filterMap f).get i = (t.get i).bind f := by
  apply Option.ext
  intro c
  rw [get_eq_some, filterMap, List.mem_filterMap, Option.bind_eq_some_iff]
  constructor
  · rintro ⟨⟨j, d⟩, hm, hd⟩
    obtain ⟨e, he, hje⟩ := Option.map_eq_some_iff.mp hd
    cases hje
    exact ⟨d, get_eq_some.mpr hm, he⟩
  · rintro ⟨d, hd, hc⟩
    exact ⟨(i, d), get_eq_some.mp hd, by rw [hc]; rfl⟩

/-- A query sees a deletion as one of the rows it selects. -/
theorem filterMap_delete {τ : Type*} (t : Table ρ) {p : ρ → Bool} {f : ρ → Option τ} {q : τ → Bool}
    (h : ∀ c d, f c = some d → p c = q d) : (t.delete p).filterMap f = (t.filterMap f).delete q := by
  have hrows : ((t.rows.filter fun r => !p r.2).filterMap fun r => (f r.2).map fun c => (r.1, c)) =
      (t.rows.filterMap fun r => (f r.2).map fun c => (r.1, c)).filter fun r => !q r.2 := by
    induction t.rows with
    | nil => rfl
    | cons r rows ih =>
      cases hf : f r.2 with
      | none => cases hp : p r.2 <;> simp [hf, hp, ih]
      | some d =>
        have hpq := h r.2 d hf
        cases hp : p r.2 <;> simp [hf, hp, ih, ← hpq]
  simp only [filterMap, delete, hrows]

/-! ## Rows by content -/

/-- A row with columns in `P` is stored. -/
def Has (t : Table ρ) (P : ρ → Prop) : Prop := ∃ i c, t.get i = some c ∧ P c

theorem not_has_empty (P : ρ → Prop) : ¬ (empty : Table ρ).Has P := by
  rintro ⟨i, c, h, -⟩
  cases h

theorem has_insert {t : Table ρ} {d : ρ} {P : ρ → Prop} : (t.insert d).Has P ↔ t.Has P ∨ P d := by
  constructor
  · rintro ⟨i, c, h, hP⟩
    rcases get_insert_cases h with ⟨-, rfl⟩ | h
    · exact .inr hP
    · exact .inl ⟨i, c, h, hP⟩
  · rintro (⟨i, c, h, hP⟩ | hP)
    · exact ⟨i, c, get_insert_of h, hP⟩
    · exact ⟨t.next, d, by rw [get_insert, if_pos rfl], hP⟩

theorem has_delete {t : Table ρ} {p : ρ → Bool} {P : ρ → Prop} :
    (t.delete p).Has P ↔ t.Has fun c => P c ∧ p c = false := by
  refine exists_congr fun i => exists_congr fun c => ?_
  rw [get_delete_eq_some, and_assoc, and_comm (a := p c = false)]

/-- The rows of an `UPDATE` whose `WHERE` reads the columns only. -/
theorem has_update {t : Table ρ} {p : ρ → Bool} {f : ρ → ρ} {P : ρ → Prop} :
    (t.update (fun r => p r.2) f).Has P ↔ t.Has fun c => P (if p c then f c else c) := by
  simp only [Has, get_update, Option.map_eq_some_iff]
  constructor
  · rintro ⟨i, -, ⟨c, h, rfl⟩, hP⟩
    exact ⟨i, c, h, hP⟩
  · rintro ⟨i, c, h, hP⟩
    exact ⟨i, _, ⟨c, h, rfl⟩, hP⟩

/-! ## Queries -/

theorem mem_select {t : Table ρ} {p : Nat × ρ → Bool} {i : Nat} {c : ρ} :
    (i, c) ∈ t.select p ↔ t.get i = some c ∧ p (i, c) = true := by
  rw [select, List.mem_filter, get_eq_some]

/-- A query answers every row once. -/
theorem nodup_select (t : Table ρ) (p : Nat × ρ → Bool) : ((t.select p).map Prod.fst).Nodup := by
  rw [List.nodup_iff_pairwise_ne, List.pairwise_map]
  exact (t.sorted.sublist List.filter_sublist).imp fun h => Nat.ne_of_lt h

theorem first_eq_none {t : Table ρ} {p : Nat × ρ → Bool} :
    t.first p = none ↔ ∀ i c, t.get i = some c → p (i, c) = false := by
  simp only [first, List.find?_eq_none, Bool.not_eq_true, Prod.forall, get_eq_some]

theorem first_get {t : Table ρ} {p : Nat × ρ → Bool} {i : Nat} {c : ρ} (h : t.first p = some (i, c)) :
    t.get i = some c ∧ p (i, c) = true :=
  ⟨get_eq_some.mpr (List.mem_of_find?_eq_some h), List.find?_some h⟩

theorem first_key {t : Table ρ} {i : Nat} {c : ρ} (h : t.get i = some c) :
    t.first (·.1 = i) = some (i, c) := (find?_key t.sorted).mpr (get_eq_some.mp h)

/-- The looked-up row has the smallest key of those that match. -/
theorem first_le {t : Table ρ} {p : Nat × ρ → Bool} {i j : Nat} {c d : ρ}
    (h : t.first p = some (i, c)) (hj : t.get j = some d) (hp : p (j, d) = true) : i ≤ j := by
  rw [first, List.find?_eq_some_iff_append] at h
  obtain ⟨-, as, bs, hl, has⟩ := h
  have hm := get_eq_some.mp hj
  have hs := t.sorted
  rw [hl] at hm hs
  rcases List.mem_append.mp hm with hm | hm
  · simpa [hp] using has _ hm
  · rcases List.mem_cons.mp hm with e | hm
    · exact Nat.le_of_eq (congrArg Prod.fst e).symm
    · exact Nat.le_of_lt ((List.pairwise_cons.mp (List.pairwise_append.mp hs).2.1).1 _ hm)

theorem exists_first {t : Table ρ} {p : Nat × ρ → Bool} {i : Nat} {c : ρ} (h : t.get i = some c)
    (hp : p (i, c) = true) : ∃ r, t.first p = some r := by
  cases hf : t.first p with
  | some r => exact ⟨r, rfl⟩
  | none => simp [first_eq_none.mp hf i c h] at hp

/-- A statement whose `WHERE` matches no stored row changes nothing. -/
theorem update_of_first_none {t : Table ρ} {p : Nat × ρ → Bool} {f : ρ → ρ}
    (h : t.first p = none) : t.update p f = t := by
  have hr : t.rows.map (setWhere p f) = t.rows.map id := by
    refine List.map_congr_left fun r hr => ?_
    have hp : p r = false := first_eq_none.mp h r.1 r.2 (get_eq_some.mpr hr)
    simp [setWhere, hp]
  rw [List.map_id] at hr
  cases t
  simp only [update] at hr ⊢
  simp only [hr]

/-- An `UPDATE` that does not change what a query matches rewrites the row it looks up. -/
theorem first_update {t : Table ρ} {p q : Nat × ρ → Bool} {f : ρ → ρ}
    (hq : ∀ r, q (setWhere p f r) = q r) : (t.update p f).first q = (t.first q).map (setWhere p f) := by
  have hcomp : q ∘ setWhere p f = q := funext hq
  rw [first, update, List.find?_map, hcomp]
  rfl

theorem first_insert {t : Table ρ} {q : Nat × ρ → Bool} {c : ρ} :
    (t.insert c).first q = (t.first q).or (if q (t.next, c) then some (t.next, c) else none) := by
  simp only [first, insert, List.find?_append, List.find?_singleton]

theorem any_eq_true {t : Table ρ} {p : Nat × ρ → Bool} :
    t.any p = true ↔ ∃ i c, t.get i = some c ∧ p (i, c) = true := by
  simp only [any, List.any_eq_true, Prod.exists, get_eq_some]

theorem update_of_any_false {t : Table ρ} {p : Nat × ρ → Bool} {f : ρ → ρ} (h : t.any p = false) :
    t.update p f = t := by
  refine update_of_first_none (first_eq_none.mpr fun i c hc => ?_)
  by_contra hp
  rw [any_eq_true.mpr ⟨i, c, hc, by simpa using hp⟩] at h
  cases h

theorem count_eq_zero {t : Table ρ} {p : Nat × ρ → Bool} :
    t.count p = 0 ↔ ∀ i c, t.get i = some c → p (i, c) = false := by
  simp only [count, List.countP_eq_zero, Bool.not_eq_true, Prod.forall, get_eq_some]

theorem any_iff_has {t : Table ρ} {p : ρ → Bool} :
    (t.any fun r => p r.2) = true ↔ t.Has fun c => p c = true := any_eq_true

/-! ## Writes by a key column -/

section Key

variable [DecidableEq κ] {key : ρ → κ} {t : Table ρ} {P : ρ → Prop} {c : ρ} {u v : κ}

theorem has_delete_key :
    (t.delete fun c => key c = u).Has (fun c => key c = v ∧ P c) ↔
      t.Has (fun c => key c = v ∧ P c) ∧ v ≠ u := by
  rw [has_delete]
  constructor
  · rintro ⟨i, c, hc, ⟨rfl, hP⟩, hu⟩
    exact ⟨⟨i, c, hc, rfl, hP⟩, of_decide_eq_false hu⟩
  · rintro ⟨⟨i, c, hc, rfl, hP⟩, hu⟩
    exact ⟨i, c, hc, ⟨rfl, hP⟩, decide_eq_false hu⟩

theorem has_update_key (hc : t.Has fun r => key r = key c) :
    (t.update (fun r => key r.2 = key c) fun _ => c).Has (fun r => key r = u ∧ P r) ↔
      if u = key c then P c else t.Has fun r => key r = u ∧ P r := by
  rw [has_update (p := fun r => decide (key r = key c))]
  simp only [decide_eq_true_eq]
  split
  · rename_i hu
    constructor
    · rintro ⟨i, d, -, hk, hP⟩
      by_cases hd : key d = key c
      · rwa [if_pos hd] at hP
      · rw [if_neg hd] at hk
        exact absurd (hk.trans hu) hd
    · intro hP
      obtain ⟨j, r, hr, e⟩ := hc
      refine ⟨j, r, hr, ?_⟩
      simp only [if_pos e]
      exact ⟨hu.symm, hP⟩
  · rename_i hu
    refine exists_congr fun i => exists_congr fun d => and_congr_right fun _ => ?_
    by_cases hd : key d = key c
    · simp only [if_pos hd]
      exact iff_of_false (fun h => hu h.1.symm) fun h => hu (h.1.symm.trans hd)
    · simp only [if_neg hd]

theorem has_insert_key (hc : ¬ t.Has fun r => key r = key c) :
    (t.insert c).Has (fun r => key r = u ∧ P r) ↔
      if u = key c then P c else t.Has fun r => key r = u ∧ P r := by
  rw [has_insert]
  split
  · rename_i hu
    have hn : ¬ t.Has fun r => key r = u ∧ P r := by
      rintro ⟨i, d, hd, hk, -⟩
      exact hc ⟨i, d, hd, hk.trans hu⟩
    rw [or_iff_right hn, and_iff_right hu.symm]
  · rename_i hu
    exact or_iff_left fun h => hu h.1.symm

/-- The row of the key is the new one, and the rows of other keys are as before. -/
theorem has_upsert :
    (t.upsert key c).Has (fun r => key r = u ∧ P r) ↔
      if u = key c then P c else t.Has fun r => key r = u ∧ P r := by
  have hc : (t.any fun r => key r.2 = key c) = true ↔ t.Has fun r => key r = key c := by
    rw [any_iff_has (p := fun r => decide (key r = key c))]
    simp only [decide_eq_true_eq]
  unfold upsert
  split
  · exact has_update_key (hc.mp ‹_›)
  · exact has_insert_key fun h => ‹¬ _› (hc.mpr h)

end Key

/-! ## Counting rows -/

theorem count_pos {t : Table ρ} {p : Nat × ρ → Bool} :
    0 < t.count p ↔ ∃ i c, t.get i = some c ∧ p (i, c) = true := by
  simp only [count, List.countP_pos_iff, Prod.exists, get_eq_some]

theorem countP_lt {α : Type*} {p q : α → Bool} {l : List α} (h : ∀ x ∈ l, p x = true → q x = true)
    {a : α} (ha : a ∈ l) (hq : q a = true) (hp : p a = false) : l.countP p < l.countP q := by
  induction l with
  | nil => cases ha
  | cons b l ih =>
    obtain ⟨hb, hl⟩ := List.forall_mem_cons.mp h
    have hle := List.countP_mono_left hl
    rw [List.countP_cons, List.countP_cons]
    rcases List.mem_cons.mp ha with rfl | ha
    · simp only [hp, hq, if_true]
      simp only [Bool.false_eq_true, if_false]
      omega
    · have hlt := ih hl ha
      split_ifs with h1 h2 h2
      · omega
      · exact absurd (hb h1) h2
      · omega
      · omega

/-- A statement that makes no row match cannot raise the count. -/
theorem count_update_le {t : Table ρ} {p q : Nat × ρ → Bool} {f : ρ → ρ}
    (h : ∀ r, p (setWhere q f r) = true → p r = true) : (t.update q f).count p ≤ t.count p := by
  rw [count, update, List.countP_map]
  exact List.countP_mono_left fun r _ => h r

/-- One that makes a row stop matching lowers it. -/
theorem count_update_lt {t : Table ρ} {p q : Nat × ρ → Bool} {f : ρ → ρ}
    (h : ∀ r, p (setWhere q f r) = true → p r = true) {i : Nat} {c : ρ} (hi : t.get i = some c)
    (hp : p (i, c) = true) (hn : p (setWhere q f (i, c)) = false) :
    (t.update q f).count p < t.count p := by
  rw [count, update, List.countP_map]
  exact countP_lt (fun r _ => h r) (get_eq_some.mp hi) hp hn

theorem count_insert_of_not {t : Table ρ} {p : Nat × ρ → Bool} {c : ρ} (h : p (t.next, c) = false) :
    (t.insert c).count p = t.count p := by
  rw [count, insert, List.countP_append, List.countP_singleton, h]
  rfl

/-! ## Unique indexes

`key c = none` is a row outside a partial index. -/

/-- No two rows share an indexed key. -/
def Unique (key : ρ → Option κ) (t : Table ρ) : Prop :=
  ∀ ⦃i j c d k⦄, t.get i = some c → t.get j = some d → key c = some k → key d = some k → i = j

variable {key : ρ → Option κ} {t : Table ρ}

theorem unique_empty : Unique key (empty : Table ρ) := by
  intro i j c d k h
  simp at h

/-- An `UPDATE` that does not move rows between keys keeps the index unique; it may drop rows
from a partial index. -/
theorem Unique.update (h : Unique key t) {p : Nat × ρ → Bool} {f : ρ → ρ}
    (hf : ∀ c k, key (f c) = some k → key c = some k) : Unique key (t.update p f) := by
  intro i j c d k hi hj hc hd
  obtain ⟨c', hi', hc'⟩ := get_update_cases hi
  obtain ⟨d', hj', hd'⟩ := get_update_cases hj
  have ec : key c' = some k := by
    rcases hc' with ⟨-, rfl⟩ | ⟨-, rfl⟩
    · exact hf c' k hc
    · exact hc
  have ed : key d' = some k := by
    rcases hd' with ⟨-, rfl⟩ | ⟨-, rfl⟩
    · exact hf d' k hd
    · exact hd
  exact h hi' hj' ec ed

/-- An `INSERT` under a key no row has keeps the index unique. -/
theorem Unique.insert (h : Unique key t) {c : ρ}
    (hc : ∀ k, key c = some k → ∀ i d, t.get i = some d → key d ≠ some k) :
    Unique key (t.insert c) := by
  intro i j a b k hi hj ha hb
  rcases get_insert_cases hi with ⟨ei, ea⟩ | hi' <;>
    rcases get_insert_cases hj with ⟨ej, eb⟩ | hj'
  · rw [ei, ej]
  · exact absurd hb (hc k (ea ▸ ha) j b hj')
  · exact absurd ha (hc k (eb ▸ hb) i a hi')
  · exact h hi' hj' ha hb

theorem Unique.delete (h : Unique key t) (p : ρ → Bool) : Unique key (t.delete p) := by
  intro i j c d k hi hj
  exact h (get_delete_eq_some.mp hi).1 (get_delete_eq_some.mp hj).1

end Table

end Claudear.Sql
