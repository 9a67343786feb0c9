import Claudear.Sql.Recursive
import Claudear.Storage.Repositories
import Mathlib.Data.Set.Finite.List

/-!
# Transitive dependants

`get_all_dependants` is a recursive query over the dependencies. Its rows are a
repository and a depth, so one repository comes up once for every length of a
chain to it, and the depth of at most ten keeps a cycle from going on. The rows
are grouped by name, with the least depth.

Nothing takes the repository that was asked for out of the result: it is there
when a cycle of at most ten dependencies leads back to it.
-/

namespace Claudear.Storage

open Claudear.Sql Claudear.Machine

/-- A row of the recursive query: the id, the name and the depth. -/
structure DependantRow where
  id : Nat
  name : String
  depth : Nat
  deriving DecidableEq, Repr

namespace RepoStore

def nameOf (s : RepoStore) (id : Nat) : Option String :=
  (s.repositories.rows.get id).map StoredIndexedRepo.name

def deps (s : RepoStore) : List StoredDependency := s.dependencies.rows.rows.map Prod.snd

/-- The join with the repository of an id. -/
def dependantRow (s : RepoStore) (id depth : Nat) : Option DependantRow :=
  (s.nameOf id).map fun name => ⟨id, name, depth⟩

/-- The direct dependants. -/
def baseRows (s : RepoStore) (repo : String) : List DependantRow :=
  s.deps.filterMap fun rd =>
    if s.nameOf rd.upstreamId = some repo then s.dependantRow rd.downstreamId 1 else none

/-- The dependants of a dependant. -/
def nextRows (s : RepoStore) (dep : DependantRow) : List DependantRow :=
  if dep.depth < 10 then
    s.deps.filterMap fun rd =>
      if rd.upstreamId = dep.id then s.dependantRow rd.downstreamId (dep.depth + 1) else none
  else []

/-- `MIN(depth)` of the rows of a name. -/
def leastDepth (rows : List DependantRow) (name : String) : Option Nat :=
  ((rows.filter fun r => r.name = name).map DependantRow.depth).min?

/-- `GROUP BY name` -/
def leastDepths (rows : List DependantRow) : List (String × Nat) :=
  (rows.map DependantRow.name).dedup.filterMap fun name =>
    (leastDepth rows name).map fun depth => (name, depth)

/-- `ORDER BY depth, name` -/
def byDepth (a b : String × Nat) : Prop := a.2 < b.2 ∨ a.2 = b.2 ∧ a.1 ≤ b.1

instance : DecidableRel byDepth := fun a b => inferInstanceAs (Decidable (a.2 < b.2 ∨ a.2 = b.2 ∧ a.1 ≤ b.1))

/-- None when the fuel runs out. -/
def getAllDependants (fuel : Nat) (s : RepoStore) (repo : String) : Option (List (String × Nat)) :=
  (recursiveQuery fuel (s.baseRows repo) s.nextRows).map fun rows =>
    (leastDepths rows).insertionSort byDepth

/-! ## Chains of dependencies -/

/-- A dependency with these ends is stored. -/
def Edge (s : RepoStore) (upstream downstream : String) : Prop :=
  ∃ rd ∈ s.deps, s.nameOf rd.upstreamId = some upstream ∧ s.nameOf rd.downstreamId = some downstream

/-- The repositories other than the one asked for, each once, with the length of the shortest of the
chains of at most ten dependencies that lead to it. -/
structure AllDependants (s : RepoStore) (repo : String) (l : List (String × Nat)) : Prop where
  once : (l.map Prod.fst).Nodup
  mem_iff : ∀ name depth,
    (name, depth) ∈ l ↔ name ≠ repo ∧ depth ≤ 10 ∧ Shortest s.Edge repo name depth

variable {s : RepoStore} {repo name : String} {r : DependantRow} {rows : List DependantRow}
  {depth i : Nat}

theorem dependantRow_eq_some :
    s.dependantRow i depth = some r ↔ r.id = i ∧ s.nameOf i = some r.name ∧ r.depth = depth := by
  rw [dependantRow, Option.map_eq_some_iff]
  constructor
  · rintro ⟨n, hn, rfl⟩
    exact ⟨rfl, hn, rfl⟩
  · rintro ⟨rfl, hn, rfl⟩
    exact ⟨r.name, hn, rfl⟩

theorem mem_baseRows :
    r ∈ s.baseRows repo ↔ ∃ rd ∈ s.deps, s.nameOf rd.upstreamId = some repo ∧
      r.id = rd.downstreamId ∧ s.nameOf rd.downstreamId = some r.name ∧ r.depth = 1 := by
  rw [baseRows, List.mem_filterMap]
  refine exists_congr fun rd => and_congr_right fun _ => ?_
  rw [Option.ite_none_right_eq_some, dependantRow_eq_some]

theorem mem_nextRows {dep : DependantRow} :
    r ∈ s.nextRows dep ↔ dep.depth < 10 ∧ ∃ rd ∈ s.deps, rd.upstreamId = dep.id ∧
      r.id = rd.downstreamId ∧ s.nameOf rd.downstreamId = some r.name ∧ r.depth = dep.depth + 1 := by
  unfold nextRows
  split
  · rename_i hd
    rw [and_iff_right hd, List.mem_filterMap]
    refine exists_congr fun rd => and_congr_right fun _ => ?_
    rw [Option.ite_none_right_eq_some, dependantRow_eq_some]
  · simp [*]

/-- A name belongs to one id. -/
theorem nameOf_inj {j : Nat} (hi : s.nameOf i = some name) (hj : s.nameOf j = some name) : i = j := by
  obtain ⟨r, hr, rfl⟩ := Option.map_eq_some_iff.mp hi
  obtain ⟨r', hr', hn⟩ := Option.map_eq_some_iff.mp hj
  exact s.repositories.unique hr hr' rfl (congrArg some hn)

/-- The rows that come up are the repositories at the end of a chain of at most ten dependencies,
once for every length. -/
theorem comesUp_iff :
    ComesUp (s.baseRows repo) s.nextRows r ↔
      s.nameOf r.id = some r.name ∧ r.depth ≤ 10 ∧ Chain s.Edge r.depth repo r.name := by
  constructor
  · intro h
    induction h with
    | base hr =>
      obtain ⟨rd, hrd, hu, hid, hn, hd⟩ := mem_baseRows.mp hr
      rw [hd, hid]
      exact ⟨hn, by omega, .one ⟨rd, hrd, hu, hn⟩⟩
    | step _ hr ih =>
      obtain ⟨hlt, rd, hrd, hu, hid, hn, hd⟩ := mem_nextRows.mp hr
      obtain ⟨hname, -, hchain⟩ := ih
      rw [hd, hid]
      exact ⟨hn, by omega, .more hchain ⟨rd, hrd, hu ▸ hname, hn⟩⟩
  · rintro ⟨hname, hle, hchain⟩
    obtain ⟨id, n, depth⟩ := r
    simp only at hname hle hchain
    induction hchain generalizing id with
    | one he =>
      obtain ⟨rd, hrd, hu, hd⟩ := he
      exact .base (mem_baseRows.mpr ⟨rd, hrd, hu, nameOf_inj hname hd, hd, rfl⟩)
    | more hchain he ih =>
      obtain ⟨rd, hrd, hu, hd⟩ := he
      refine .step (ih rd.upstreamId hu (by omega)) (mem_nextRows.mpr ?_)
      exact ⟨by simp only; omega, rd, hrd, rfl, nameOf_inj hname hd, hd, rfl⟩

theorem finite_comesUp (s : RepoStore) (repo : String) :
    {r | ComesUp (s.baseRows repo) s.nextRows r}.Finite := by
  let all : List DependantRow := s.repositories.rows.rows.flatMap fun p =>
    (List.range 11).map fun depth => ⟨p.1, p.2.name, depth⟩
  apply (List.finite_toSet all).subset
  intro r hr
  obtain ⟨hname, hle, -⟩ := comesUp_iff.mp hr
  obtain ⟨p, hp, hn⟩ := Option.map_eq_some_iff.mp hname
  refine List.mem_flatMap.mpr ⟨(r.id, p), Table.get_eq_some.mp hp, List.mem_map.mpr ⟨r.depth, ?_, ?_⟩⟩
  · rw [List.mem_range]
    omega
  · rw [hn]

/-! ## Grouping -/

theorem leastDepth_eq_some :
    leastDepth rows name = some depth ↔
      (∃ r ∈ rows, r.name = name ∧ r.depth = depth) ∧ ∀ r ∈ rows, r.name = name → depth ≤ r.depth := by
  rw [leastDepth, List.min?_eq_some_iff]
  have hmem : ∀ d, d ∈ (rows.filter fun r => r.name = name).map DependantRow.depth ↔
      ∃ r ∈ rows, r.name = name ∧ r.depth = d := by
    intro d
    simp [and_assoc]
  rw [hmem]
  refine and_congr_right fun _ => ⟨fun h r hr hn => ?_, fun h d hd => ?_⟩
  · exact h r.depth ((hmem _).mpr ⟨r, hr, hn, rfl⟩)
  · obtain ⟨r, hr, hn, rfl⟩ := (hmem d).mp hd
    exact h r hr hn

theorem mem_leastDepths :
    (name, depth) ∈ leastDepths rows ↔
      (∃ r ∈ rows, r.name = name ∧ r.depth = depth) ∧ ∀ r ∈ rows, r.name = name → depth ≤ r.depth := by
  rw [← leastDepth_eq_some, leastDepths, List.mem_filterMap]
  constructor
  · rintro ⟨n, -, hn⟩
    obtain ⟨d, hd, he⟩ := Option.map_eq_some_iff.mp hn
    cases he
    exact hd
  · intro h
    obtain ⟨⟨r, hr, rfl, -⟩, -⟩ := leastDepth_eq_some.mp h
    refine ⟨r.name, List.mem_dedup.mpr (List.mem_map_of_mem hr), ?_⟩
    rw [h]
    rfl

/-- Each name is in one group. -/
theorem nodup_leastDepths (rows : List DependantRow) : ((leastDepths rows).map Prod.fst).Nodup := by
  have hsub : ∀ names : List String, ((names.filterMap fun name =>
      (leastDepth rows name).map fun depth => (name, depth)).map Prod.fst).Sublist names := by
    intro names
    induction names with
    | nil => exact .slnil
    | cons n names ih =>
      cases hd : leastDepth rows n with
      | none => simpa [hd] using ih.cons n
      | some d => simpa [hd] using ih
  exact (List.nodup_dedup _).sublist (hsub _)

/-! ## The result -/

/-- A row is in the result when its depth is the length of the shortest chain. -/
theorem mem_leastDepths_of_comesUp (h : ∀ r, r ∈ rows ↔ ComesUp (s.baseRows repo) s.nextRows r) :
    (name, depth) ∈ leastDepths rows ↔ depth ≤ 10 ∧ Shortest s.Edge repo name depth := by
  have hrow : ∀ d, d ≤ 10 → Chain s.Edge d repo name → ∃ r ∈ rows, r.name = name ∧ r.depth = d := by
    intro d hd hc
    have hn : ∃ id, s.nameOf id = some name := by
      cases hc with
      | one he | more _ he =>
        obtain ⟨rd, -, -, hn⟩ := he
        exact ⟨_, hn⟩
    obtain ⟨id, hid⟩ := hn
    exact ⟨⟨id, name, d⟩, (h _).mpr (comesUp_iff.mpr ⟨hid, hd, hc⟩), rfl, rfl⟩
  rw [mem_leastDepths]
  constructor
  · rintro ⟨⟨r, hr, rfl, rfl⟩, hle⟩
    obtain ⟨-, hd, hc⟩ := comesUp_iff.mp ((h r).mp hr)
    refine ⟨hd, hc, fun m hm => ?_⟩
    rcases Nat.lt_or_ge 10 m with hlt | hge
    · omega
    · obtain ⟨r', hr', hn', rfl⟩ := hrow m hge hm
      exact hle r' hr' hn'
  · rintro ⟨hd, hc, hle⟩
    refine ⟨hrow depth hd hc, fun r hr hn => ?_⟩
    obtain ⟨-, -, hc'⟩ := comesUp_iff.mp ((h r).mp hr)
    exact hle r.depth (hn ▸ hc')

/-- Enough fuel gives a result: every repository at the end of a chain of at most ten dependencies,
the one asked for included. -/
theorem getAllDependants_spec (s : RepoStore) (repo : String) :
    ∃ n, ∀ fuel, n ≤ fuel → ∃ l, getAllDependants fuel s repo = some l ∧
      (l.map Prod.fst).Nodup ∧
      ∀ name depth, (name, depth) ∈ l ↔ depth ≤ 10 ∧ Shortest s.Edge repo name depth := by
  obtain ⟨n, hn⟩ := recursiveQuery_spec (s.baseRows repo) s.nextRows (finite_comesUp s repo)
  refine ⟨n, fun fuel hfuel => ?_⟩
  obtain ⟨rows, hrows, -, hmem⟩ := hn fuel hfuel
  refine ⟨(leastDepths rows).insertionSort byDepth, ?_, ?_, fun name depth => ?_⟩
  · rw [getAllDependants, hrows]
    rfl
  · exact ((List.perm_insertionSort _ _).map _).nodup_iff.mpr (nodup_leastDepths rows)
  · rw [(List.perm_insertionSort _ _).mem_iff, mem_leastDepths_of_comesUp hmem]

/-- A chain has a shortest one that is no longer. -/
theorem exists_shortest {n : Nat} (h : Chain s.Edge n repo name) :
    ∃ m, m ≤ n ∧ Shortest s.Edge repo name m := by
  classical
  have hex : ∃ m, Chain s.Edge m repo name := ⟨n, h⟩
  exact ⟨Nat.find hex, Nat.find_min' hex h, Nat.find_spec hex, fun m hm => Nat.find_min' hex hm⟩

/-- The query ends on every graph, and its result leaves the repository asked for out exactly if no
cycle of at most ten dependencies leads back to it. -/
theorem allDependants_iff (s : RepoStore) (repo : String) :
    ∃ n, ∀ fuel, n ≤ fuel → ∃ l, getAllDependants fuel s repo = some l ∧
      (AllDependants s repo l ↔ ∀ m, m ≤ 10 → ¬ Chain s.Edge m repo repo) := by
  obtain ⟨n, hn⟩ := getAllDependants_spec s repo
  refine ⟨n, fun fuel hfuel => ?_⟩
  obtain ⟨l, hl, hnodup, hmem⟩ := hn fuel hfuel
  refine ⟨l, hl, fun h m hm hc => ?_, fun hcycle => ⟨hnodup, fun name depth => ?_⟩⟩
  · obtain ⟨k, hk, hshort⟩ := exists_shortest hc
    exact ((h.mem_iff repo k).mp ((hmem repo k).mpr ⟨by omega, hshort⟩)).1 rfl
  · rw [hmem]
    refine ⟨fun h => ⟨?_, h⟩, fun h => h.2⟩
    rintro rfl
    exact hcycle depth h.1 h.2.1

/-- A graph of two repositories that depend on each other. -/
def interdependent : RepoStore :=
  run step empty [⟨0, .addDependency "appwrite/cloud" "appwrite/console" "npm"⟩,
    ⟨1, .addDependency "appwrite/console" "appwrite/cloud" "composer"⟩]

/-- The repository asked for is its own dependant. -/
theorem start_among_dependants :
    getAllDependants 100 interdependent "appwrite/cloud" =
      some [("appwrite/console", 1), ("appwrite/cloud", 2)] := by
  decide

end RepoStore

end Claudear.Storage
