import Mathlib.Data.Set.Finite.Basic

/-!
# Recursive queries

`WITH RECURSIVE t AS (base UNION step)`: the rows of `base` go into a queue; a
row is taken out, and the rows that `step` makes of it go in, unless they have
been in the queue before. `recurse` is that loop, with fuel for the rows taken
out. When only finitely many rows can come up, some amount of fuel is enough, and
the result is every row that can come up, once (`recursiveQuery_spec`).
-/

namespace Claudear.Sql

variable {α : Type*}

/-- The rows that can come up. -/
inductive ComesUp (base : List α) (next : α → List α) : α → Prop
  | base {r : α} : r ∈ base → ComesUp base next r
  | step {r r' : α} : ComesUp base next r → r' ∈ next r → ComesUp base next r'

/-- `R` holds along a chain of `n` steps, at least one. -/
inductive Chain (R : α → α → Prop) : Nat → α → α → Prop
  | one {a b : α} : R a b → Chain R 1 a b
  | more {n : Nat} {a b c : α} : Chain R n a b → R b c → Chain R (n + 1) a c

/-- The length of the shortest chain. -/
def Shortest (R : α → α → Prop) (a b : α) (n : Nat) : Prop :=
  Chain R n a b ∧ ∀ m, Chain R m a b → n ≤ m

variable [DecidableEq α]

/-- The rows that have not come up, each the first time. -/
def fresh : List α → List α → List α
  | _, [] => []
  | seen, r :: rows => if r ∈ seen then fresh seen rows else r :: fresh (r :: seen) rows

def recurse (next : α → List α) : Nat → List α → List α → Option (List α)
  | _, [], seen => some seen
  | 0, _ :: _, _ => none
  | fuel + 1, r :: queue, seen =>
    let rows := fresh seen (next r)
    recurse next fuel (queue ++ rows) (seen ++ rows)

def recursiveQuery (fuel : Nat) (base : List α) (next : α → List α) : Option (List α) :=
  recurse next fuel (fresh [] base) (fresh [] base)

variable {base seen queue done rows l : List α} {next : α → List α} {r : α} {fuel : Nat}

theorem mem_fresh : r ∈ fresh seen rows ↔ r ∈ rows ∧ r ∉ seen := by
  induction rows generalizing seen with
  | nil => simp [fresh]
  | cons a rows ih =>
    unfold fresh
    split
    · rename_i ha
      rw [ih, List.mem_cons]
      constructor
      · rintro ⟨hr, hs⟩
        exact ⟨.inr hr, hs⟩
      · rintro ⟨rfl | hr, hs⟩
        · exact absurd ha hs
        · exact ⟨hr, hs⟩
    · rename_i ha
      rw [List.mem_cons, ih, List.mem_cons, List.mem_cons, not_or]
      by_cases hra : r = a
      · subst hra
        simp [ha]
      · simp [hra]

theorem nodup_fresh : (fresh seen rows).Nodup := by
  induction rows generalizing seen with
  | nil => exact List.nodup_nil
  | cons a rows ih =>
    unfold fresh
    split
    · exact ih
    · refine List.nodup_cons.mpr ⟨fun h => ?_, ih⟩
      exact (mem_fresh.mp h).2 List.mem_cons_self

/-- Of the rows seen, `done` have been taken out of the queue, and what they make has come up. -/
structure Explored (base : List α) (next : α → List α) (done queue : List α) : Prop where
  nodup : (done ++ queue).Nodup
  sound : ∀ r ∈ done ++ queue, ComesUp base next r
  started : ∀ r ∈ base, r ∈ done ++ queue
  closed : ∀ r ∈ done, ∀ r' ∈ next r, r' ∈ done ++ queue

theorem explored_start : Explored base next [] (fresh [] base) where
  nodup := nodup_fresh
  sound _ h := .base (mem_fresh.mp h).1
  started _ h := mem_fresh.mpr ⟨h, List.not_mem_nil⟩
  closed _ h := absurd h List.not_mem_nil

/-- Taking a row out of the queue. -/
theorem Explored.take (h : Explored base next done (r :: queue)) :
    Explored base next (done ++ [r]) (queue ++ fresh (done ++ r :: queue) (next r)) := by
  have happ : done ++ [r] ++ (queue ++ fresh (done ++ r :: queue) (next r)) =
      (done ++ r :: queue) ++ fresh (done ++ r :: queue) (next r) := by simp
  have hr : r ∈ done ++ r :: queue := by simp
  constructor
  · rw [happ, List.nodup_append]
    refine ⟨h.nodup, nodup_fresh, fun a ha b hb hab => ?_⟩
    subst hab
    exact (mem_fresh.mp hb).2 ha
  · intro a ha
    rw [happ] at ha
    rcases List.mem_append.mp ha with ha | ha
    · exact h.sound a ha
    · exact .step (h.sound r hr) (mem_fresh.mp ha).1
  · intro a ha
    rw [happ]
    exact List.mem_append_left _ (h.started a ha)
  · intro a ha b hb
    rw [happ]
    rcases List.mem_append.mp ha with ha | ha
    · exact List.mem_append_left _ (h.closed a ha b hb)
    · rw [List.mem_singleton] at ha
      subst ha
      by_cases hs : b ∈ done ++ a :: queue
      · exact List.mem_append_left _ hs
      · exact List.mem_append_right _ (mem_fresh.mpr ⟨hb, hs⟩)

omit [DecidableEq α] in
/-- With an empty queue nothing is missing. -/
theorem Explored.mem_iff (h : Explored base next done []) : r ∈ done ↔ ComesUp base next r := by
  have happ : done ++ [] = done := List.append_nil done
  constructor
  · intro hr
    exact h.sound r (by rwa [happ])
  · intro hr
    induction hr with
    | base hb => simpa using h.started _ hb
    | step _ hn ih => simpa using h.closed _ ih _ hn

/-- Every row taken out is another one, so the loop ends before the fuel when that is as much as
there are rows. -/
theorem recurse_spec (bound : Finset α) (hb : ∀ r, ComesUp base next r → r ∈ bound)
    (h : Explored base next done queue) (hfuel : bound.card ≤ done.length + fuel) :
    ∃ l, recurse next fuel queue (done ++ queue) = some l ∧ l.Nodup ∧
      ∀ r, r ∈ l ↔ ComesUp base next r := by
  induction fuel generalizing done queue with
  | zero =>
    cases queue with
    | nil =>
      refine ⟨done ++ [], rfl, h.nodup, fun r => ?_⟩
      rw [List.append_nil]
      exact h.mem_iff
    | cons r queue =>
      exfalso
      have hsub : (done ++ r :: queue).toFinset ⊆ bound := fun a ha =>
        hb a (h.sound a (List.mem_toFinset.mp ha))
      have hle := Finset.card_le_card hsub
      rw [List.toFinset_card_of_nodup h.nodup, List.length_append, List.length_cons] at hle
      omega
  | succ fuel ih =>
    cases queue with
    | nil =>
      refine ⟨done ++ [], rfl, h.nodup, fun r => ?_⟩
      rw [List.append_nil]
      exact h.mem_iff
    | cons r queue =>
      have hlen : bound.card ≤ (done ++ [r]).length + fuel := by
        rw [List.length_append, List.length_singleton]
        omega
      have hrec := ih h.take hlen
      rw [show done ++ [r] ++ (queue ++ fresh (done ++ r :: queue) (next r)) =
        (done ++ r :: queue) ++ fresh (done ++ r :: queue) (next r) by simp] at hrec
      exact hrec

/-- The query ends, with every row that can come up, once. -/
theorem recursiveQuery_spec (base : List α) (next : α → List α)
    (hfin : {r | ComesUp base next r}.Finite) :
    ∃ n, ∀ fuel, n ≤ fuel → ∃ l, recursiveQuery fuel base next = some l ∧ l.Nodup ∧
      ∀ r, r ∈ l ↔ ComesUp base next r := by
  refine ⟨hfin.toFinset.card, fun fuel hfuel => ?_⟩
  refine recurse_spec hfin.toFinset (fun r hr => hfin.mem_toFinset.mpr hr) explored_start ?_
  rwa [List.length_nil, Nat.zero_add]

end Claudear.Sql
