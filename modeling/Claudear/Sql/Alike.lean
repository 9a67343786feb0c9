import Claudear.Sql.Table
import Mathlib.Data.List.Forall2
import Mathlib.Data.List.Sort

/-!
# Tables alike

Two tables are alike when they have the same keys, and a relation ties the
columns together key by key. A statement run on both keeps them alike when its
`WHERE` cannot tell the tied rows apart; a statement run on one of them keeps
them alike when it does no more than the relation allows.
-/

namespace Claudear.Sql.Table

variable {ρ : Type*}

structure Alike (R : Nat → ρ → ρ → Prop) (t u : Table ρ) : Prop where
  next : t.next = u.next
  rows : List.Forall₂ (fun a b => a.1 = b.1 ∧ R a.1 a.2 b.2) t.rows u.rows

variable {R S : Nat → ρ → ρ → Prop} {t u : Table ρ} {i : Nat} {c d : ρ} {p : Nat × ρ → Bool} {f : ρ → ρ}

theorem Alike.refl (h : ∀ i c, R i c c) (t : Table ρ) : Alike R t t :=
  ⟨rfl, List.forall₂_same.mpr fun _ _ => ⟨rfl, h _ _⟩⟩

theorem Alike.mono (h : Alike R t u) (hR : ∀ i c d, t.get i = some c → u.get i = some d → R i c d → S i c d) :
    Alike S t u := by
  refine ⟨h.next, ?_⟩
  have hmem : ∀ {l m : List (Nat × ρ)}, List.Forall₂ (fun a b => a.1 = b.1 ∧ R a.1 a.2 b.2) l m →
      (∀ a ∈ l, a ∈ t.rows) → (∀ b ∈ m, b ∈ u.rows) →
      List.Forall₂ (fun a b => a.1 = b.1 ∧ S a.1 a.2 b.2) l m := by
    intro l m hlm
    induction hlm with
    | nil => exact fun _ _ => .nil
    | @cons a b l m hab _ ih =>
      intro hl hm
      obtain ⟨ha, hl⟩ := List.forall_mem_cons.mp hl
      obtain ⟨hb, hm⟩ := List.forall_mem_cons.mp hm
      refine .cons ⟨hab.1, hR a.1 a.2 b.2 (get_eq_some.mpr ha) (get_eq_some.mpr ?_) hab.2⟩ (ih hl hm)
      rw [hab.1]
      exact hb
  exact hmem h.rows (fun _ ha => ha) fun _ hb => hb

/-! ## Rows -/

/-- What a search for tied rows finds is tied. -/
theorem forall₂_find? {l m : List (Nat × ρ)}
    (h : List.Forall₂ (fun a b => a.1 = b.1 ∧ R a.1 a.2 b.2) l m)
    (hp : ∀ i c d, R i c d → p (i, c) = p (i, d)) :
    Option.Rel (fun a b => a.1 = b.1 ∧ R a.1 a.2 b.2) (l.find? p) (m.find? p) := by
  induction h with
  | nil => exact .none
  | @cons a b l m hab _ ih =>
    obtain ⟨i, c⟩ := a
    obtain ⟨j, d⟩ := b
    obtain ⟨rfl, hR⟩ := hab
    rw [List.find?_cons, List.find?_cons, hp i c d hR]
    cases p (i, d) with
    | true => exact .some ⟨rfl, hR⟩
    | false => exact ih

theorem Alike.first (h : Alike R t u) (hp : ∀ i c d, R i c d → p (i, c) = p (i, d)) :
    Option.Rel (fun a b => a.1 = b.1 ∧ R a.1 a.2 b.2) (t.first p) (u.first p) :=
  forall₂_find? h.rows hp

theorem Alike.get (h : Alike R t u) (i : Nat) : Option.Rel (R i) (t.get i) (u.get i) := by
  have hf := forall₂_find? (p := fun r => decide (r.1 = i)) h.rows fun _ _ _ _ => rfl
  unfold Table.get
  cases ht : t.rows.find? fun r => decide (r.1 = i) with
  | none =>
    rw [ht] at hf
    cases hu : u.rows.find? fun r => decide (r.1 = i) with
    | none => exact .none
    | some b =>
      rw [hu] at hf
      cases hf
  | some a =>
    rw [ht] at hf
    cases hu : u.rows.find? fun r => decide (r.1 = i) with
    | none =>
      rw [hu] at hf
      cases hf
    | some b =>
      rw [hu] at hf
      cases hf with
      | some hab =>
        have ha : a.1 = i := by simpa using List.find?_some ht
        exact .some (ha ▸ hab.2)

theorem Alike.get_left (h : Alike R t u) (ht : t.get i = some c) : ∃ d, u.get i = some d ∧ R i c d := by
  have hget := h.get i
  rw [ht] at hget
  cases hu : u.get i with
  | none =>
    rw [hu] at hget
    cases hget
  | some d =>
    rw [hu] at hget
    cases hget with
    | some hR => exact ⟨d, rfl, hR⟩

theorem Alike.get_right (h : Alike R t u) (hu : u.get i = some d) : ∃ c, t.get i = some c ∧ R i c d := by
  have hget := h.get i
  rw [hu] at hget
  cases ht : t.get i with
  | none =>
    rw [ht] at hget
    cases hget
  | some c =>
    rw [ht] at hget
    cases hget with
    | some hR => exact ⟨c, rfl, hR⟩

theorem Alike.isNone_get (h : Alike R t u) (i : Nat) : (t.get i).isNone = (u.get i).isNone := by
  cases ht : t.get i with
  | some c =>
    obtain ⟨d, hd, -⟩ := h.get_left ht
    rw [hd]
    rfl
  | none =>
    cases hu : u.get i with
    | none => rfl
    | some d =>
      obtain ⟨c, hc, -⟩ := h.get_right hu
      rw [ht] at hc
      cases hc

/-! ## Statements -/

theorem Alike.update (h : Alike R t u) (hp : ∀ i c d, R i c d → p (i, c) = p (i, d))
    (hf : ∀ i c d, R i c d → R i (f c) (f d)) : Alike R (t.update p f) (u.update p f) := by
  refine ⟨h.next, List.forall₂_map_left_iff.mpr (List.forall₂_map_right_iff.mpr (h.rows.imp ?_))⟩
  rintro ⟨i, c⟩ ⟨j, d⟩ ⟨rfl, hR⟩
  simp only [setWhere, hp i c d hR]
  split
  · exact ⟨rfl, hf i c d hR⟩
  · exact ⟨rfl, hR⟩

/-- A statement on the first table only. -/
theorem Alike.update_left (h : Alike R t u)
    (hf : ∀ i c d, t.get i = some c → R i c d → if p (i, c) then S i (f c) d else S i c d) :
    Alike S (t.update p f) u := by
  have h := h.mono (S := fun i c d => if p (i, c) then S i (f c) d else S i c d)
    fun i c d hc _ hR => hf i c d hc hR
  refine ⟨h.next, List.forall₂_map_left_iff.mpr (h.rows.imp ?_)⟩
  rintro ⟨i, c⟩ ⟨j, d⟩ ⟨rfl, hS⟩
  simp only [setWhere]
  simp only at hS
  split
  · rename_i hc
    rw [if_pos hc] at hS
    exact ⟨rfl, hS⟩
  · rename_i hc
    rw [if_neg hc] at hS
    exact ⟨rfl, hS⟩

/-- A statement on the second table only. -/
theorem Alike.update_right (h : Alike R t u)
    (hf : ∀ i c d, u.get i = some d → R i c d → if p (i, d) then S i c (f d) else S i c d) :
    Alike S t (u.update p f) := by
  have h := h.mono (S := fun i c d => if p (i, d) then S i c (f d) else S i c d)
    fun i c d _ hd hR => hf i c d hd hR
  refine ⟨h.next, List.forall₂_map_right_iff.mpr (h.rows.imp ?_)⟩
  rintro ⟨i, c⟩ ⟨j, d⟩ ⟨rfl, hS⟩
  simp only [setWhere]
  simp only at hS
  split
  · rename_i hd
    rw [if_pos hd] at hS
    exact ⟨rfl, hS⟩
  · rename_i hd
    rw [if_neg hd] at hS
    exact ⟨rfl, hS⟩

theorem Alike.insert (h : Alike R t u) (hc : R t.next c c) : Alike R (t.insert c) (u.insert c) := by
  refine ⟨congrArg (· + 1) h.next, List.rel_append h.rows (.cons ⟨h.next, hc⟩ .nil)⟩

/-! ## Queries -/

/-- Rows that one query answers and another does not, where `keep` tells which. -/
theorem Alike.select_map (h : Alike R t u) {τ : Type*} {p : Nat × ρ → Bool} {keep : Nat → Bool}
    {f : Nat × ρ → τ} (hp : ∀ i c d, t.get i = some c → R i c d → p (i, c) = (p (i, d) && keep i))
    (hf : ∀ i c d, R i c d → f (i, c) = f (i, d)) :
    (t.select p).map f = ((u.select p).filter fun r => keep r.1).map f := by
  have hl : ∀ {l m : List (Nat × ρ)}, List.Forall₂ (fun a b => a.1 = b.1 ∧ R a.1 a.2 b.2) l m →
      (∀ a ∈ l, a ∈ t.rows) → (l.filter p).map f = ((m.filter p).filter fun r => keep r.1).map f := by
    intro l m hlm
    induction hlm with
    | nil => exact fun _ => rfl
    | @cons a b l m hab _ ih =>
      obtain ⟨i, c⟩ := a
      obtain ⟨j, d⟩ := b
      obtain ⟨rfl, hR⟩ := hab
      intro hl
      obtain ⟨ha, hl⟩ := List.forall_mem_cons.mp hl
      have hc := hp i c d (get_eq_some.mpr ha) hR
      cases hpd : p (i, d) with
      | false =>
        rw [hpd, Bool.false_and] at hc
        simpa [hc, hpd] using ih hl
      | true =>
        rw [hpd, Bool.true_and] at hc
        cases hk : keep i with
        | false =>
          rw [hk] at hc
          simpa [hc, hpd, hk] using ih hl
        | true =>
          rw [hk] at hc
          simpa [hc, hpd, hk, hf i c d hR] using ih hl
  exact hl h.rows fun _ ha => ha

section Sorted

variable {α : Type*} {r : α → α → Prop} [DecidableRel r] {p : α → Bool} {a : α} {l : List α}

theorem filter_orderedInsert_of_neg (ha : p a = false) :
    (l.orderedInsert r a).filter p = l.filter p := by
  induction l with
  | nil => simp [ha]
  | cons b l ih =>
    rw [List.orderedInsert_cons]
    split
    · rw [List.filter_cons_of_neg (by simp [ha])]
    · rw [List.filter_cons, List.filter_cons, ih]

theorem filter_orderedInsert [IsTrans α r] (hl : l.Pairwise r) (ha : p a = true) :
    (l.orderedInsert r a).filter p = (l.filter p).orderedInsert r a := by
  induction l with
  | nil => simp [ha]
  | cons b l ih =>
    obtain ⟨hb, hl⟩ := List.pairwise_cons.mp hl
    rw [List.orderedInsert_cons]
    by_cases hab : r a b
    · -- everything behind `b` is behind `a`
      have hall : ∀ c ∈ (b :: l).filter p, r a c := by
        intro c hc
        rcases List.mem_cons.mp (List.mem_of_mem_filter hc) with rfl | hc
        · exact hab
        · exact IsTrans.trans a b c hab (hb c hc)
      rw [if_pos hab, List.filter_cons_of_pos ha]
      cases hf : (b :: l).filter p with
      | nil => rfl
      | cons c m => rw [List.orderedInsert_cons_of_le r m (hall c (hf ▸ List.mem_cons_self))]
    · rw [if_neg hab, List.filter_cons, ih hl]
      cases hpb : p b with
      | true => rw [if_pos rfl, List.filter_cons_of_pos hpb, List.orderedInsert_of_not_le r _ hab]
      | false => rw [if_neg Bool.false_ne_true, List.filter_cons_of_neg (by simp [hpb])]

/-- A stable sort leaves the rows that stay in their order. -/
theorem filter_insertionSort [IsTrans α r] [Std.Total r] (l : List α) :
    (l.insertionSort r).filter p = (l.filter p).insertionSort r := by
  induction l with
  | nil => rfl
  | cons a l ih =>
    rw [List.insertionSort_cons]
    cases ha : p a with
    | true =>
      rw [filter_orderedInsert (List.pairwise_insertionSort r l) ha, ih, List.filter_cons_of_pos ha,
        List.insertionSort_cons]
    | false => rw [filter_orderedInsert_of_neg ha, ih, List.filter_cons_of_neg (by simp [ha])]

end Sorted

end Claudear.Sql.Table
