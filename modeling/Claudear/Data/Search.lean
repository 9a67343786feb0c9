import Mathlib.Data.List.Nodup
import Mathlib.Logic.Relation

/-!
# Searching a graph with a worklist

`worklist` takes an item off its list, skips it if its vertex was visited, and else
expands it, which puts items on either end of the list or returns early.
`worklist_ends` is its rule. A `Frontier` is what every such search keeps, and
`Visits` is the order in which a depth-first search visits the vertices.
-/

namespace Claudear.Data

open Relation

variable {α β ε ρ σ : Type*} {R : α → α → Prop} {a b u v : α} {visited todo todo' xs ys done m r : List α}

/-- What was visited and what is on the worklist of a search from `a`. -/
structure Frontier (R : α → α → Prop) (a : α) (visited todo : List α) : Prop where
  start : a ∈ visited ∨ a ∈ todo
  reached : ∀ u, u ∈ visited ∨ u ∈ todo → ReflTransGen R a u
  closed : ∀ u ∈ visited, ∀ v, R u v → v ∈ visited ∨ v ∈ todo

namespace Frontier

theorem init : Frontier R a [] [a] where
  start := .inr List.mem_cons_self
  reached u hu := by
    rcases hu with hu | hu
    · cases hu
    · rw [List.mem_singleton.mp hu]
  closed u hu := by cases hu

theorem skip (h : Frontier R a visited (u :: todo)) (hu : u ∈ visited) : Frontier R a visited todo where
  start := by
    rcases h.start with h | h
    · exact .inl h
    · rcases List.mem_cons.mp h with rfl | h
      · exact .inl hu
      · exact .inr h
  reached v hv := h.reached v (hv.imp_right (List.mem_cons_of_mem u))
  closed w hw v hv := by
    rcases h.closed w hw v hv with h | h
    · exact .inl h
    · rcases List.mem_cons.mp h with rfl | h
      · exact .inl hu
      · exact .inr h

/-- The vertex taken off is visited, and where it leads is put on the list. -/
theorem visit (h : Frontier R a visited (u :: todo)) (hsound : ∀ v ∈ todo', v ∈ todo ∨ R u v)
    (hkeep : ∀ v ∈ todo, v ∈ todo') (hnext : ∀ v, R u v → v ∈ visited ++ [u] ∨ v ∈ todo') :
    Frontier R a (visited ++ [u]) todo' where
  start := by
    rcases h.start with h | h
    · exact .inl (List.mem_append_left _ h)
    · rcases List.mem_cons.mp h with rfl | h
      · exact .inl (List.mem_append_right _ List.mem_cons_self)
      · exact .inr (hkeep a h)
  reached v hv := by
    have hu : ReflTransGen R a u := h.reached u (.inr List.mem_cons_self)
    rcases hv with hv | hv
    · rcases List.mem_append.mp hv with hv | hv
      · exact h.reached v (.inl hv)
      · rwa [List.mem_singleton.mp hv]
    · rcases hsound v hv with hv | hv
      · exact h.reached v (.inr (List.mem_cons_of_mem u hv))
      · exact hu.tail hv
  closed w hw v hv := by
    rcases List.mem_append.mp hw with hw | hw
    · rcases h.closed w hw v hv with h | h
      · exact .inl (List.mem_append_left _ h)
      · rcases List.mem_cons.mp h with rfl | h
        · exact .inl (List.mem_append_right _ List.mem_cons_self)
        · exact .inr (hkeep v h)
    · obtain rfl := List.mem_singleton.mp hw
      exact hnext v hv

theorem mem_iff (h : Frontier R a visited []) : v ∈ visited ↔ ReflTransGen R a v := by
  constructor
  · exact fun hv => h.reached v (.inl hv)
  · intro hv
    induction hv with
    | refl => exact h.start.resolve_right (List.not_mem_nil)
    | tail _ hstep ih => exact (h.closed _ ih _ hstep).resolve_right (List.not_mem_nil)

/-- A search that met no step to `b` until its worklist was empty: there is none. -/
theorem not_reached (h : Frontier R a visited []) (hb : ∀ u ∈ visited, ¬ R u b) : ¬ TransGen R a b := by
  intro hab
  obtain ⟨u, hu, hstep⟩ := TransGen.tail'_iff.mp hab
  exact hb u (h.mem_iff.mpr hu) hstep

end Frontier

/-! ## The loop -/

section
variable [DecidableEq α] (key : β → α) (expand : List α → β → σ → List β → Except ρ (σ × List β)) (finish : σ → ρ)

/-- For at most so many steps. An error of `expand` is an early return. -/
def worklist : Nat → List α → σ → List β → Option ρ
  | 0, _, _, _ => none
  | _ + 1, _, s, [] => some (finish s)
  | fuel + 1, visited, s, x :: todo =>
    if key x ∈ visited then worklist fuel visited s todo
    else match expand (visited ++ [key x]) x s todo with
      | .error r => some r
      | .ok (s, todo) => worklist fuel (visited ++ [key x]) s todo

variable {items : List β} {edges : List ε} {source : ε → α} {s₀ : σ}

/-- The edges that are not followed yet. -/
def unfollowed (edges : List ε) (source : ε → α) (visited : List α) : Nat :=
  (edges.filter fun e => source e ∉ visited).length

@[simp] theorem unfollowed_nil : unfollowed edges source [] = edges.length := by simp [unfollowed]

theorem unfollowed_split (hu : u ∉ visited) : unfollowed edges source visited =
    unfollowed edges source (visited ++ [u]) + (edges.filter fun e => source e = u).length := by
  unfold unfollowed
  induction edges with
  | nil => rfl
  | cons e edges ih =>
    simp only [List.filter_cons, List.mem_append, List.mem_singleton]
    by_cases he : source e = u
    · subst he
      simp [hu]
      simp at ih
      omega
    · by_cases hv : source e ∈ visited
      · simp [he, hv]
        simpa using ih
      · simp [he, hv]
        simp at ih
        omega

variable (items) {I : List α → σ → List β → Prop} {P : ρ → Prop} (edges source)
  (skip : ∀ visited s x todo, I visited s (x :: todo) → key x ∈ visited → I visited s todo)
  (early : ∀ visited s x todo r, I visited s (x :: todo) → expand (visited ++ [key x]) x s todo = .error r → P r)
  (visit : ∀ visited s x todo s' todo', I visited s (x :: todo) → key x ∉ visited →
    expand (visited ++ [key x]) x s todo = .ok (s', todo') →
    I (visited ++ [key x]) s' todo' ∧ todo'.length ≤ todo.length + (edges.filter fun e => source e = key x).length)
  (empty : ∀ visited s, I visited s [] → P (finish s))
include skip early visit empty

/-- What a loop does that puts no more items on the list than the edges of the vertex:
with enough steps it returns, and what it returns satisfies `P` if `I` is kept. -/
theorem worklist_within (hI : I visited s₀ items) :
    ∃ r, (∀ fuel, items.length + unfollowed edges source visited < fuel →
      worklist key expand finish fuel visited s₀ items = some r) ∧ P r := by
  obtain ⟨n, hn⟩ : ∃ n, items.length + unfollowed edges source visited < n := ⟨_, Nat.lt_succ_self _⟩
  induction n generalizing visited s₀ items with
  | zero => exact absurd hn (Nat.not_lt_zero _)
  | succ n ih =>
    cases items with
    | nil =>
      refine ⟨finish s₀, fun fuel hfuel => ?_, empty visited s₀ hI⟩
      obtain ⟨k, rfl⟩ := Nat.exists_eq_add_of_lt hfuel
      rfl
    | cons x todo =>
      rw [List.length_cons] at hn ⊢
      by_cases hx : key x ∈ visited
      · obtain ⟨r, hr, hP⟩ := ih _ (skip _ _ _ _ hI hx) (by omega)
        refine ⟨r, fun fuel hfuel => ?_, hP⟩
        obtain ⟨k, rfl⟩ := Nat.exists_eq_add_of_lt hfuel
        rw [worklist, if_pos hx]
        exact hr _ (by omega)
      · have hsplit : unfollowed edges source visited = unfollowed edges source (visited ++ [key x]) +
            (edges.filter fun e => source e = key x).length := unfollowed_split hx
        cases hexp : expand (visited ++ [key x]) x s₀ todo with
        | error r =>
          refine ⟨r, fun fuel hfuel => ?_, early _ _ _ _ _ hI hexp⟩
          obtain ⟨k, rfl⟩ := Nat.exists_eq_add_of_lt hfuel
          rw [worklist, if_neg hx, hexp]
        | ok st =>
          obtain ⟨s', todo'⟩ := st
          obtain ⟨hI', hlen⟩ := visit _ _ _ _ _ _ hI hx hexp
          obtain ⟨r, hr, hP⟩ := ih _ hI' (by omega)
          refine ⟨r, fun fuel hfuel => ?_, hP⟩
          obtain ⟨k, rfl⟩ := Nat.exists_eq_add_of_lt hfuel
          rw [worklist, if_neg hx, hexp]
          exact hr _ (by omega)

theorem worklist_ends (hI : I [] s₀ items) :
    ∃ r, (∀ fuel, items.length + edges.length < fuel →
      worklist key expand finish fuel [] s₀ items = some r) ∧ P r := by
  have h := worklist_within key expand finish items edges source skip early visit empty hI
  rwa [unfollowed_nil] at h

end

/-! ## The order of a depth-first search -/

/-- `Visits next done todo done'`: after `done`, a depth-first search visits each vertex
of `todo` with what it leads to, from the last to the first, and has then visited
`done'`. -/
inductive Visits (next : α → List α) : List α → List α → List α → Prop
  | nil {done : List α} : Visits next done [] done
  | skip {done todo done' : List α} {u : α} : u ∈ done → Visits next done todo done' → Visits next done (u :: todo) done'
  | visit {done todo m done' : List α} {u : α} : u ∉ done → Visits next (done ++ [u]) (next u).reverse m →
    Visits next m todo done' → Visits next done (u :: todo) done'

namespace Visits

variable {next : α → List α}

theorem unique {r' : List α} (h : Visits next done todo r) (h' : Visits next done todo r') : r = r' := by
  induction h generalizing r' with
  | nil =>
    cases h'
    rfl
  | skip hu _ ih =>
    cases h' with
    | skip _ h' => exact ih h'
    | visit hu' => exact absurd hu hu'
  | visit hu _ _ ih₁ ih₂ =>
    cases h' with
    | skip hu' => exact absurd hu' hu
    | visit _ h₁ h₂ =>
      obtain rfl := ih₁ h₁
      exact ih₂ h₂

theorem isPrefix (h : Visits next done todo r) : done <+: r := by
  induction h with
  | nil => exact List.prefix_refl _
  | skip _ _ ih => exact ih
  | visit _ _ _ ih₁ ih₂ => exact ((List.prefix_append _ _).trans ih₁).trans ih₂

theorem append (h : Visits next done (xs ++ ys) r) : ∃ m, Visits next done xs m ∧ Visits next m ys r := by
  induction xs generalizing done with
  | nil => exact ⟨done, .nil, h⟩
  | cons x xs ih =>
    cases h with
    | skip hx h =>
      obtain ⟨m, h₁, h₂⟩ := ih h
      exact ⟨m, .skip hx h₁, h₂⟩
    | visit hx h₀ h =>
      obtain ⟨m, h₁, h₂⟩ := ih h
      exact ⟨m, .visit hx h₀ h₁, h₂⟩

/-- Leaving out what was visited changes nothing. -/
theorem of_filter [DecidableEq α] {seen : List α} (hs : seen ⊆ done)
    (h : Visits next done (xs.filter (· ∉ seen)) r) : Visits next done xs r := by
  induction xs generalizing done with
  | nil => exact h
  | cons x xs ih =>
    by_cases hx : x ∈ seen
    · rw [List.filter_cons_of_neg (by simpa using hx)] at h
      exact .skip (hs hx) (ih hs h)
    · rw [List.filter_cons_of_pos (by simpa using hx)] at h
      cases h with
      | skip hd h => exact .skip hd (ih hs h)
      | visit hd h₀ h => exact .visit hd h₀ (ih (fun v hv => h₀.isPrefix.subset (List.mem_append_left _ (hs hv))) h)

end Visits

end Claudear.Data
