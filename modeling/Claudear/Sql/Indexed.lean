import Claudear.Sql.Table

/-!
# Tables with a unique key

An `Indexed key` is a table on which `key` is `UNIQUE`: no two rows have the
same one, and every statement here keeps it so. `put` is
`INSERT … ON CONFLICT(key) DO UPDATE SET f`, and `ON CONFLICT DO NOTHING` with
`f` the identity. An insert that meets a conflict uses the key of a new row up.

`find` is the row of a key, and the table as a whole is what it finds: every
statement is described by what it does to `find`.
-/

namespace Claudear.Sql

variable {ρ κ : Type*} [DecidableEq κ]

structure Indexed (key : ρ → κ) where
  rows : Table ρ
  unique : rows.Unique fun c => some (key c)

namespace Indexed

variable {key : ρ → κ}

def empty : Indexed key := ⟨.empty, Table.unique_empty⟩

def find (t : Indexed key) (k : κ) : Option (Nat × ρ) := t.rows.first fun r => key r.2 = k

variable {t : Indexed key} {k : κ} {i j : Nat} {c d : ρ}

theorem find_eq_some : t.find k = some (i, c) ↔ t.rows.get i = some c ∧ key c = k := by
  constructor
  · intro h
    obtain ⟨hi, hk⟩ := Table.first_get h
    exact ⟨hi, of_decide_eq_true hk⟩
  · rintro ⟨hi, rfl⟩
    obtain ⟨⟨j, d⟩, hf⟩ := Table.exists_first (p := fun r => key r.2 = key c) hi (decide_eq_true rfl)
    obtain ⟨hj, hd⟩ := Table.first_get hf
    have hk : key d = key c := of_decide_eq_true hd
    have hij := t.unique hi hj rfl (congrArg some hk)
    subst hij
    rw [find, hf, Option.some.inj (hi.symm.trans hj)]

theorem find_of_get (h : t.rows.get i = some c) : t.find (key c) = some (i, c) :=
  find_eq_some.mpr ⟨h, rfl⟩

theorem find_eq_none : t.find k = none ↔ ∀ i c, t.rows.get i = some c → key c ≠ k := by
  rw [find, Table.first_eq_none]
  simp only [decide_eq_false_iff_not, ne_eq]

/-! ## Statements -/

/-- `UPDATE … SET f WHERE p`, of columns that are not in the key. -/
def update (t : Indexed key) (p : Nat × ρ → Bool) (f : ρ → ρ) (hf : ∀ c, key (f c) = key c) :
    Indexed key :=
  ⟨t.rows.update p f, t.unique.update fun c _ h => by rwa [hf] at h⟩

def delete (t : Indexed key) (p : ρ → Bool) : Indexed key :=
  ⟨t.rows.delete p, t.unique.delete p⟩

/-- What is left of an `INSERT` that meets a conflict. -/
def skip (t : Indexed key) : Indexed key := ⟨t.rows.skip, t.unique⟩

/-- `INSERT` under a key no row has. -/
def insert (t : Indexed key) (c : ρ) (h : t.find (key c) = none) : Indexed key :=
  ⟨t.rows.insert c, t.unique.insert fun _ hk i d hd e =>
    find_eq_none.mp h i d hd ((Option.some.inj e).trans (Option.some.inj hk).symm)⟩

/-- `INSERT … ON CONFLICT(key) DO UPDATE SET f` -/
def put (t : Indexed key) (c : ρ) (f : ρ → ρ) (hf : ∀ c, key (f c) = key c) : Indexed key :=
  if h : t.find (key c) = none then t.insert c h
  else (t.update (fun r => key r.2 = key c) f hf).skip

@[simp] theorem find_skip : t.skip.find k = t.find k := rfl

variable {f : ρ → ρ} {hf : ∀ c, key (f c) = key c} {p : ρ → Bool}

theorem find_update (p : Nat × ρ → Bool) :
    (t.update p f hf).find k = (t.find k).map (Table.setWhere p f) := by
  refine Table.first_update fun r => ?_
  unfold Table.setWhere
  split
  · rw [hf]
  · rfl

theorem find_delete : (t.delete p).find k = (t.find k).filter fun r => !p r.2 := by
  apply Option.ext
  rintro ⟨i, c⟩
  rw [find_eq_some, Option.filter_eq_some_iff, find_eq_some, Bool.not_eq_true']
  exact (and_congr_left' Table.get_delete_eq_some).trans and_right_comm

theorem find_insert {h : t.find (key c) = none} :
    (t.insert c h).find k = if k = key c then some (t.rows.next, c) else t.find k := by
  refine (Table.first_insert (q := fun r => decide (key r.2 = k))).trans ?_
  by_cases hk : k = key c
  · subst hk
    rw [show t.rows.first (fun r => decide (key r.2 = key c)) = none from h]
    simp
  · rw [if_neg hk]
    have hne : decide (key c = k) = false := decide_eq_false (Ne.symm hk)
    simp only [hne, Bool.false_eq_true, if_false, Option.or_none]
    rfl

/-- What `put` makes of the row of its key. -/
def putRow (t : Indexed key) (c : ρ) (f : ρ → ρ) : Nat × ρ :=
  ((t.find (key c)).map fun r => (r.1, f r.2)).getD (t.rows.next, c)

/-- The row of the key is the new one or the one from before, rewritten; the other keys have the
rows they had. -/
theorem find_put (t : Indexed key) (c : ρ) (f : ρ → ρ) (hf : ∀ c, key (f c) = key c) (k : κ) :
    (t.put c f hf).find k = if k = key c then some (t.putRow c f) else t.find k := by
  unfold put
  split
  · rename_i h
    rw [find_insert, putRow, h]
    rfl
  · rename_i h
    rw [find_skip, find_update]
    split
    · rename_i hk
      subst hk
      obtain ⟨⟨i, d⟩, hd⟩ := Option.ne_none_iff_exists'.mp h
      have hkd : key d = key c := (find_eq_some.mp hd).2
      rw [putRow, hd]
      simp [Table.setWhere, hkd]
    · rename_i hk
      cases hr : t.find k with
      | none => rfl
      | some r =>
        have hkr : key r.2 ≠ key c := by
          rw [(find_eq_some (i := r.1) (c := r.2)).mp hr |>.2]
          exact hk
        simp [Table.setWhere, hkr]

theorem putRow_of_some (h : t.find (key c) = some (i, d)) : t.putRow c f = (i, f d) := by
  rw [putRow, h]
  rfl

theorem putRow_of_none (h : t.find (key c) = none) : t.putRow c f = (t.rows.next, c) := by
  rw [putRow, h]
  rfl

/-- A row stays under its key, and only the row of the key is written. -/
theorem get_put_of_some (h : t.find (key c) = some (i, d)) :
    (t.put c f hf).rows.get j = if j = i then some (f d) else t.rows.get j := by
  have hn : t.find (key c) ≠ none := by
    rw [h]
    exact Option.some_ne_none _
  obtain ⟨hi, hk⟩ := find_eq_some.mp h
  rw [put, dif_neg hn, skip, Table.get_skip]
  split
  · rename_i hj
    subst hj
    exact Table.get_update_of hi (decide_eq_true hk)
  · rename_i hj
    cases hg : t.rows.get j with
    | none => exact (Table.get_update t.rows _ f j).trans (by rw [hg]; rfl)
    | some e =>
      refine Table.get_update_of_not hg (decide_eq_false fun he => hj ?_)
      exact t.unique hg hi rfl (congrArg some (hk.trans he.symm))

theorem get_put_of_none (h : t.find (key c) = none) :
    (t.put c f hf).rows.get j = if j = t.rows.next then some c else t.rows.get j := by
  rw [put, dif_pos h]
  exact Table.get_insert ..

/-- A row after `put` has the new key or was there before. -/
theorem get_put_cases {e : ρ} (h : (t.put c f hf).rows.get j = some e) :
    key e = key c ∨ t.rows.get j = some e := by
  have hfind := find_of_get h
  rw [find_put] at hfind
  split at hfind
  · exact .inl ‹_›
  · exact .inr (find_eq_some.mp hfind).1

/-- No row goes away. -/
theorem isSome_get_put (h : (t.rows.get i).isSome) : ((t.put c f hf).rows.get i).isSome := by
  cases hk : t.find (key c) with
  | none =>
    rw [get_put_of_none hk]
    split
    · rfl
    · exact h
  | some r =>
    rw [get_put_of_some hk]
    split
    · rfl
    · exact h

/-- A row of another key is not touched. -/
theorem get_put_of_ne (h : t.rows.get i = some d) (hk : key d ≠ key c) :
    (t.put c f hf).rows.get i = some d := by
  have hfind : (t.put c f hf).find (key d) = some (i, d) := by
    rw [find_put, if_neg hk, find_of_get h]
  exact (find_eq_some.mp hfind).1

/-! ## `INSERT OR IGNORE` -/

/-- The table and the connection's `last_insert_rowid()`. An ignored row leaves that, and uses a key of
the table up. -/
def insertOrIgnore (t : Indexed key) (c : ρ) (last : Nat) : Indexed key × Nat :=
  if h : t.find (key c) = none then (t.insert c h, t.rows.next) else (t.skip, last)

variable {last : Nat}

theorem insertOrIgnore_of_none (h : t.find (key c) = none) (last : Nat) :
    t.insertOrIgnore c last = (t.insert c h, t.rows.next) := dif_pos h

theorem insertOrIgnore_of_some {r : Nat × ρ} (h : t.find (key c) = some r) (last : Nat) :
    t.insertOrIgnore c last = (t.skip, last) := by
  refine dif_neg ?_
  rw [h]
  exact Option.some_ne_none r

/-- The row of the key is the one that was there, or the new one. -/
theorem find_insertOrIgnore (t : Indexed key) (c : ρ) (last : Nat) (k : κ) :
    (t.insertOrIgnore c last).1.find k =
      if k = key c then some ((t.find (key c)).getD (t.rows.next, c)) else t.find k := by
  cases h : t.find (key c) with
  | none =>
    rw [insertOrIgnore_of_none h, find_insert]
    rfl
  | some r =>
    rw [insertOrIgnore_of_some h, find_skip]
    split
    · rename_i hk
      rw [hk, h]
      rfl
    · rfl

theorem get_insertOrIgnore_of (h : t.rows.get i = some d) :
    (t.insertOrIgnore c last).1.rows.get i = some d := by
  unfold insertOrIgnore
  split
  · exact Table.get_insert_of h
  · exact h

theorem get_insertOrIgnore_cases (h : (t.insertOrIgnore c last).1.rows.get i = some d) :
    d = c ∨ t.rows.get i = some d := by
  unfold insertOrIgnore at h
  split at h
  · rcases Table.get_insert_cases h with ⟨-, rfl⟩ | h
    · exact .inl rfl
    · exact .inr h
  · exact .inr h

end Indexed

end Claudear.Sql
