import Claudear.Data.Dict
import Claudear.Data.Search

/-!
# Repository relationships

A `DependencyGraph` keeps each dependency twice, under its upstream and under its
downstream. `RepoRelationships` adds the ends of a dependency that are not there
yet. The queries search it with a worklist: a `Vec` popped at its end is a list
whose head is that end. A query is `none` when it was given too few steps.
-/

namespace Claudear.Analysis

open Claudear.Data Relation

inductive DependencyType where
  | Npm
  | Composer
  | GitSubmodule
  | Manual
  deriving DecidableEq, Repr

structure Repository where
  name : String
  path : Option String
  scm_url : Option String
  deriving DecidableEq, Repr

structure Dependency where
  upstream : String
  downstream : String
  dep_type : DependencyType
  version_pattern : Option String
  deriving DecidableEq, Repr

structure DependencyGraph where
  repositories : Dict String Repository
  downstream_deps : Dict String (List Dependency)
  upstream_deps : Dict String (List Dependency)

namespace DependencyGraph

def empty : DependencyGraph := ⟨.empty, .empty, .empty⟩

def addRepository (g : DependencyGraph) (repo : Repository) : DependencyGraph :=
  { g with repositories := g.repositories.set repo.name repo }

/-- `entry(key).or_default().push(dep)` -/
def pushAt (m : Dict String (List Dependency)) (key : String) (dep : Dependency) : Dict String (List Dependency) :=
  m.set key ((m.get key).getD [] ++ [dep])

def addDependency (g : DependencyGraph) (dep : Dependency) : DependencyGraph :=
  { g with
    downstream_deps := pushAt g.downstream_deps dep.upstream dep
    upstream_deps := pushAt g.upstream_deps dep.downstream dep }

/-- The dependencies on `repo`. -/
def dependenciesOn (g : DependencyGraph) (repo : String) : List Dependency := (g.downstream_deps.get repo).getD []

/-- The dependencies of `repo`. -/
def dependenciesOf (g : DependencyGraph) (repo : String) : List Dependency := (g.upstream_deps.get repo).getD []

/-- Every dependency in a map, with its key. -/
def allOf (m : Dict String (List Dependency)) : List (String × Dependency) :=
  m.items.flatMap fun p => p.2.map fun e => (p.1, e)

/-- As many steps as a search can need. -/
def steps (g : DependencyGraph) : Nat := (allOf g.downstream_deps).length + (allOf g.upstream_deps).length + 2

/-! ## Queries -/

/-- One dependency of the repository that was popped: the result and the queue after it. -/
def pushDependant (g : DependencyGraph) (visited : List String) (s : List Repository × List String) (dep : Dependency) :
    List Repository × List String :=
  if dep.downstream ∈ visited then s
  else match g.repositories.get dep.downstream with
    | some r => (s.1 ++ [r], dep.downstream :: s.2)
    | none => s

def getAllDependants (g : DependencyGraph) (fuel : Nat) (repo : String) : Option (List Repository) :=
  worklist id
    (fun visited current result queue =>
      .ok ((g.dependenciesOn current).foldl (g.pushDependant visited) (result, queue)))
    id fuel [] [] [repo]

/-- The queue after the upstreams of one repository, or a return where `repo_b` is one of them. -/
def pushUpstreams (repo_b : String) (visited : List String) :
    List Dependency → List String → Except Bool (Unit × List String)
  | [], queue => .ok ((), queue)
  | dep :: deps, queue =>
    if dep.upstream = repo_b then .error true
    else pushUpstreams repo_b visited deps (if dep.upstream ∈ visited then queue else dep.upstream :: queue)

def dependsOn (g : DependencyGraph) (fuel : Nat) (repo_a repo_b : String) : Option Bool :=
  worklist id (fun visited current _ queue => pushUpstreams repo_b visited (g.dependenciesOf current) queue)
    (fun _ => false) fuel [] () [repo_a]

/-- The queue after the downstreams of one repository, or the type with which the search returns. -/
def pushHops (target : String) (first_hop : Option DependencyType) :
    List Dependency → List (String × Option DependencyType) →
    Except (Option DependencyType) (Unit × List (String × Option DependencyType))
  | [], queue => .ok ((), queue)
  | dep :: deps, queue =>
    let next_first_hop := first_hop.or (some dep.dep_type)
    if dep.downstream = target then .error next_first_hop
    else pushHops target first_hop deps (queue ++ [(dep.downstream, next_first_hop)])

def getFirstHopDependencyTypeToTarget (g : DependencyGraph) (fuel : Nat) (repo target : String) :
    Option (Option DependencyType) :=
  if repo = target then some none
  else
    worklist Prod.fst (fun _ item _ queue => pushHops target item.2 (g.dependenciesOn item.1) queue)
      (fun _ => none) fuel [] () [(repo, none)]

end DependencyGraph

/-! ## Building a graph -/

structure RepoRelationships where
  graph : DependencyGraph

namespace RepoRelationships

def new : RepoRelationships := ⟨.empty⟩

def addRepository (m : RepoRelationships) (repo : Repository) : RepoRelationships := ⟨m.graph.addRepository repo⟩

/-- A repository that is not there is added, with its name as its URL. -/
def ensure (g : DependencyGraph) (name : String) : DependencyGraph :=
  if (g.repositories.get name).isNone then g.addRepository { name, path := none, scm_url := some name } else g

def addDependency (m : RepoRelationships) (upstream downstream : String) (dep_type : DependencyType)
    (version_pattern : Option String) : RepoRelationships :=
  ⟨(ensure (ensure m.graph upstream) downstream).addDependency { upstream, downstream, dep_type, version_pattern }⟩

end RepoRelationships

inductive GraphCall where
  | addRepository (repo : Repository)
  | addDependency (upstream downstream : String) (dep_type : DependencyType) (version_pattern : Option String)
  deriving Repr

def GraphCall.exec (m : RepoRelationships) : GraphCall → RepoRelationships
  | addRepository repo => m.addRepository repo
  | addDependency upstream downstream dep_type version_pattern =>
    m.addDependency upstream downstream dep_type version_pattern

/-- The graph that the calls build. -/
def built (calls : List GraphCall) : DependencyGraph := (calls.foldl GraphCall.exec .new).graph

/-! ## What a built graph has -/

namespace DependencyGraph

/-- Both maps hold the same dependencies, and the ends of each are repositories. -/
structure Mirrored (g : DependencyGraph) : Prop where
  named : ∀ n r, g.repositories.get n = some r → r.name = n
  on : ∀ u, ∀ e ∈ g.dependenciesOn u, e.upstream = u ∧ e ∈ g.dependenciesOf e.downstream
  of : ∀ d, ∀ e ∈ g.dependenciesOf d, e.downstream = d ∧ e ∈ g.dependenciesOn e.upstream
  ends : ∀ u, ∀ e ∈ g.dependenciesOn u, (g.repositories.get e.downstream).isSome = true

variable {g : DependencyGraph} {repo : Repository} {dep e : Dependency} {n k key : String}
  {m : Dict String (List Dependency)}

theorem mem_pushAt : e ∈ ((pushAt m key dep).get k).getD [] ↔ e ∈ (m.get k).getD [] ∨ k = key ∧ e = dep := by
  rw [pushAt, Dict.get_set]
  split
  · rename_i h
    subst h
    simp
  · rename_i h
    simp [h]

theorem mirrored_empty : empty.Mirrored where
  named n r h := by simp [empty] at h
  on u e he := by simp [dependenciesOn, empty] at he
  of d e he := by simp [dependenciesOf, empty] at he
  ends u e he := by simp [dependenciesOn, empty] at he

theorem isSome_addRepository (h : (g.repositories.get n).isSome = true) :
    ((g.addRepository repo).repositories.get n).isSome = true := by
  rw [addRepository, Dict.get_set]
  split
  · rfl
  · exact h

theorem Mirrored.addRepository (h : g.Mirrored) : (g.addRepository repo).Mirrored where
  named n r hr := by
    rw [DependencyGraph.addRepository, Dict.get_set] at hr
    split at hr
    · rename_i hn
      cases hr
      exact hn.symm
    · exact h.named n r hr
  on := h.on
  of := h.of
  ends u e he := isSome_addRepository (h.ends u e he)

theorem Mirrored.addDependency (h : g.Mirrored) (hd : (g.repositories.get dep.downstream).isSome = true) :
    (g.addDependency dep).Mirrored where
  named := h.named
  on u e he := by
    rcases mem_pushAt.mp he with he | ⟨rfl, rfl⟩
    · exact ⟨(h.on u e he).1, mem_pushAt.mpr (.inl (h.on u e he).2)⟩
    · exact ⟨rfl, mem_pushAt.mpr (.inr ⟨rfl, rfl⟩)⟩
  of d e he := by
    rcases mem_pushAt.mp he with he | ⟨rfl, rfl⟩
    · exact ⟨(h.of d e he).1, mem_pushAt.mpr (.inl (h.of d e he).2)⟩
    · exact ⟨rfl, mem_pushAt.mpr (.inr ⟨rfl, rfl⟩)⟩
  ends u e he := by
    rcases mem_pushAt.mp he with he | ⟨-, rfl⟩
    · exact h.ends u e he
    · exact hd

theorem Mirrored.ensure (h : g.Mirrored) : (RepoRelationships.ensure g n).Mirrored := by
  rw [RepoRelationships.ensure]
  split
  · exact h.addRepository
  · exact h

theorem isSome_ensure : ((RepoRelationships.ensure g n).repositories.get n).isSome = true := by
  rw [RepoRelationships.ensure]
  split
  · rw [DependencyGraph.addRepository, Dict.get_set, if_pos rfl]
    rfl
  · rename_i h
    simpa [Option.isSome_iff_ne_none] using h

end DependencyGraph

theorem mirrored_built (calls : List GraphCall) : (built calls).Mirrored := by
  suffices h : ∀ m : RepoRelationships, m.graph.Mirrored → (calls.foldl GraphCall.exec m).graph.Mirrored from
    h .new DependencyGraph.mirrored_empty
  induction calls with
  | nil => exact fun m h => h
  | cons call calls ih =>
    intro m h
    refine ih _ ?_
    cases call with
    | addRepository => exact h.addRepository
    | addDependency => exact h.ensure.ensure.addDependency DependencyGraph.isSome_ensure

end Claudear.Analysis
