import Claudear.Machine.Run
import Claudear.Sql.Indexed
import Claudear.Storage.Error

/-!
# Repositories and their dependencies

A repository has a unique name, a dependency a unique pair of ends. Who only
knows a repository's name (`add_dependency`, `get_or_create_repo_id`) goes
through `upsert_repository` without a path and without a URL. That keeps the
path of a stored row, but writes the name over its URL. `get_run` says what any
number of such mentions makes of a row.
-/

namespace Claudear.Storage

open Claudear.Sql Claudear.Machine

structure StoredIndexedRepo where
  name : String
  path : String
  scmUrl : Option String
  defaultBranch : Option String
  fileCount : Int
  lastIndexedAt : Option Timestamp
  createdAt : Timestamp
  deriving DecidableEq, Repr

structure StoredDependency where
  upstreamId : Nat
  downstreamId : Nat
  dependencyType : String
  createdAt : Timestamp
  deriving DecidableEq, Repr

def StoredDependency.ends (d : StoredDependency) : Nat × Nat := (d.upstreamId, d.downstreamId)

structure StoredRepoFile where
  repoId : Nat
  filePath : String
  fileType : Option String
  deriving DecidableEq, Repr

def StoredRepoFile.key (f : StoredRepoFile) : Nat × String := (f.repoId, f.filePath)

structure RepoStore where
  repositories : Indexed StoredIndexedRepo.name
  dependencies : Indexed StoredDependency.ends
  files : Indexed StoredRepoFile.key
  /-- `repo_id INTEGER NOT NULL REFERENCES repositories(id)` -/
  owned : ∀ i f, files.rows.get i = some f → (repositories.rows.get f.repoId).isSome

namespace RepoStore

def empty : RepoStore := ⟨.empty, .empty, .empty, fun _ _ h => by cases h⟩

/-- `SELECT id FROM repositories WHERE name = ?` -/
def idOf (s : RepoStore) (name : String) : Option Nat := (s.repositories.find name).map Prod.fst

/-- The row of the `INSERT`, with the defaults of the columns it does not name. -/
def placed (now : Timestamp) (name path scmUrl : String) : StoredIndexedRepo :=
  ⟨name, path, some scmUrl, some "main", 0, none, now⟩

/-- `ON CONFLICT(name) DO UPDATE`: an empty path stands for none. -/
def upserted (path scmUrl : String) (r : StoredIndexedRepo) : StoredIndexedRepo :=
  { r with path := if path ≠ "" then path else r.path, scmUrl := some scmUrl }

theorem upserted_name (path scmUrl : String) (r : StoredIndexedRepo) :
    (upserted path scmUrl r).name = r.name := rfl

def retyped (depType : String) (d : StoredDependency) : StoredDependency :=
  { d with dependencyType := depType }

theorem retyped_ends (depType : String) (d : StoredDependency) : (retyped depType d).ends = d.ends := rfl

/-- An `INSERT … ON CONFLICT(name) DO UPDATE SET f` and the query for the id. The answer is none for
an error: that the row just written is not there. -/
def putRepository (r : StoredIndexedRepo) (f : StoredIndexedRepo → StoredIndexedRepo)
    (hf : ∀ r, (f r).name = r.name) (s : RepoStore) : Option Nat × RepoStore :=
  let s := { s with
    repositories := s.repositories.put r f hf
    owned := fun i f hi => Indexed.isSome_get_put (s.owned i f hi) }
  (s.idOf r.name, s)

def upsertRepository (now : Timestamp) (name : String) (path scmUrl : Option String)
    (s : RepoStore) : Option Nat × RepoStore :=
  let scmUrl := scmUrl.getD name
  let path := path.getD ""
  s.putRepository (placed now name path scmUrl) (upserted path scmUrl) (upserted_name path scmUrl)

def getOrCreateRepoId (now : Timestamp) (name : String) (s : RepoStore) : Option Nat × RepoStore :=
  s.upsertRepository now name none none

def addDependency (now : Timestamp) (upstream downstream depType : String) (s : RepoStore) :
    Option Unit × RepoStore :=
  match s.upsertRepository now upstream none none with
  | (none, s) => (none, s)
  | (some upstreamId, s) =>
    match s.upsertRepository now downstream none none with
    | (none, s) => (none, s)
    | (some downstreamId, s) =>
      let dependencies := s.dependencies.put ⟨upstreamId, downstreamId, depType, now⟩
        (retyped depType) (retyped_ends depType)
      (some (), { s with dependencies })

/-! ## Calls -/

inductive Op where
  | upsertRepository (name : String) (path scmUrl : Option String)
  | addDependency (upstream downstream depType : String)
  | getOrCreateRepoId (name : String)

structure Call where
  now : Timestamp
  op : Op

def step (s : RepoStore) (c : Call) : RepoStore :=
  match c.op with
  | .upsertRepository name path scmUrl => (s.upsertRepository c.now name path scmUrl).2
  | .addDependency upstream downstream depType => (s.addDependency c.now upstream downstream depType).2
  | .getOrCreateRepoId name => (s.getOrCreateRepoId c.now name).2

/-- The id a call returns. -/
def answer (s : RepoStore) (c : Call) : Option Nat :=
  match c.op with
  | .upsertRepository name path scmUrl => (s.upsertRepository c.now name path scmUrl).1
  | .addDependency .. => none
  | .getOrCreateRepoId name => (s.getOrCreateRepoId c.now name).1

/-- The repositories a call knows nothing of but the name. -/
def Call.mentions (c : Call) : List String :=
  match c.op with
  | .upsertRepository .. => []
  | .addDependency upstream downstream _ => [upstream, downstream]
  | .getOrCreateRepoId name => [name]

/-- The repository a call is about to describe. -/
def Call.describes (c : Call) : Option String :=
  match c.op with
  | .upsertRepository name _ _ => some name
  | _ => none

def Call.names (c : Call) : List String := c.describes.toList ++ c.mentions

/-! ## What a call does to the rows -/

variable {s : RepoStore} {now : Timestamp} {name name' : String} {path scmUrl : Option String}
  {upstream downstream depType : String} {i : Nat} {r : StoredIndexedRepo} {c : Call} {l : List Call}

theorem idOf_eq_some : s.idOf name = some i ↔ ∃ r, s.repositories.rows.get i = some r ∧ r.name = name := by
  rw [idOf, Option.map_eq_some_iff]
  constructor
  · rintro ⟨⟨j, r⟩, hf, rfl⟩
    exact ⟨r, Indexed.find_eq_some.mp hf⟩
  · rintro ⟨r, hr⟩
    exact ⟨(i, r), Indexed.find_eq_some.mpr hr, rfl⟩

theorem idOf_of_get (h : s.repositories.rows.get i = some r) : s.idOf r.name = some i :=
  idOf_eq_some.mpr ⟨r, h, rfl⟩

section Put

variable {f : StoredIndexedRepo → StoredIndexedRepo} {hf : ∀ r, (f r).name = r.name}

theorem idOf_putRepository_self :
    (s.putRepository r f hf).2.idOf r.name = some (s.repositories.putRow r f).1 := by
  have h := Indexed.find_put s.repositories r f hf r.name
  rw [if_pos rfl] at h
  exact congrArg (Option.map Prod.fst) h

theorem idOf_putRepository_of_ne (h : name ≠ r.name) :
    (s.putRepository r f hf).2.idOf name = s.idOf name := by
  have hp := Indexed.find_put s.repositories r f hf name
  rw [if_neg h] at hp
  exact congrArg (Option.map Prod.fst) hp

/-- The name has an id after the statement, and that is the answer. -/
theorem idOf_putRepository (s : RepoStore) (r : StoredIndexedRepo) (f : StoredIndexedRepo → StoredIndexedRepo)
    (hf : ∀ r, (f r).name = r.name) :
    ∃ i, (s.putRepository r f hf).1 = some i ∧ (s.putRepository r f hf).2.idOf r.name = some i :=
  ⟨_, idOf_putRepository_self, idOf_putRepository_self⟩

theorem idOf_putRepository_of (h : s.idOf name = some i) :
    (s.putRepository r f hf).2.idOf name = some i := by
  by_cases hn : name = r.name
  · obtain ⟨⟨j, d⟩, hd, rfl⟩ := Option.map_eq_some_iff.mp h
    rw [hn] at hd
    rw [hn, idOf_putRepository_self, Indexed.putRow_of_some hd]
  · rw [idOf_putRepository_of_ne hn, h]

end Put

/-- The name has an id after the call, and that is the answer. -/
theorem idOf_upsertRepository (s : RepoStore) (now : Timestamp) (name : String)
    (path scmUrl : Option String) :
    ∃ i, (s.upsertRepository now name path scmUrl).1 = some i ∧
      (s.upsertRepository now name path scmUrl).2.idOf name = some i :=
  idOf_putRepository _ _ _ _

/-- A call that names another repository leaves a row. -/
theorem get_upsertRepository_of_ne (h : s.repositories.rows.get i = some r) (hn : r.name ≠ name) :
    (s.upsertRepository now name path scmUrl).2.repositories.rows.get i = some r :=
  Indexed.get_put_of_ne h hn

/-- What a mention makes of a row: the name is its URL. -/
def mentioned (r : StoredIndexedRepo) : StoredIndexedRepo := { r with scmUrl := some r.name }

@[simp] theorem mentioned_mentioned (r : StoredIndexedRepo) : mentioned (mentioned r) = mentioned r := rfl

theorem mentioned_eq_self : mentioned r = r ↔ r.scmUrl = some r.name := by
  constructor
  · intro h
    rw [← h]
    rfl
  · intro h
    rw [mentioned, ← h]

theorem get_upsertRepository_self (h : s.repositories.rows.get i = some r) :
    (s.upsertRepository now r.name none none).2.repositories.rows.get i = some (mentioned r) := by
  have hf : s.repositories.find (placed now r.name "" r.name).name = some (i, r) :=
    Indexed.find_of_get h
  exact (Indexed.get_put_of_some hf).trans (if_pos rfl)

/-- Without a path and a URL the row keeps all but its URL. -/
theorem get_upsertRepository_none (h : s.repositories.rows.get i = some r) :
    (s.upsertRepository now name none none).2.repositories.rows.get i =
      some (if r.name = name then mentioned r else r) := by
  split
  · rename_i hn
    subst hn
    exact get_upsertRepository_self h
  · exact get_upsertRepository_of_ne h ‹_›

/-- A dependency goes in after both of its ends. -/
theorem addDependency_repositories :
    (s.addDependency now upstream downstream depType).2.repositories =
      ((s.upsertRepository now upstream none none).2.upsertRepository now downstream none
        none).2.repositories := by
  obtain ⟨u, hu, -⟩ := idOf_upsertRepository s now upstream none none
  obtain ⟨d, hd, -⟩ := idOf_upsertRepository (s.upsertRepository now upstream none none).2 now downstream
    none none
  simp only [addDependency]
  split
  · rename_i he
    rw [he] at hu
    cases hu
  · rename_i he
    simp only [he] at hd ⊢
    split
    · rename_i he'
      rw [he'] at hd
      cases hd
    · rename_i he'
      rw [he']

/-! ## Names and their ids -/

theorem idOf_step_of (h : s.idOf name = some i) : (step s c).idOf name = some i := by
  obtain ⟨now, op⟩ := c
  cases op with
  | upsertRepository n p u => exact idOf_putRepository_of h
  | getOrCreateRepoId n => exact idOf_putRepository_of h
  | addDependency u d k =>
    rw [step, idOf, addDependency_repositories]
    exact idOf_putRepository_of (idOf_putRepository_of h)

theorem idOf_run_of (h : s.idOf name = some i) (l : List Call) : (run step s l).idOf name = some i :=
  run_inv (P := fun s : RepoStore => s.idOf name = some i) (fun _ _ h => idOf_step_of h) h l

/-- What a call names is stored after it, under the id it answers with. -/
theorem idOf_step (h : name ∈ c.names) :
    ∃ i, (step s c).idOf name = some i ∧ ∀ j, answer s c = some j → j = i := by
  obtain ⟨now, op⟩ := c
  cases op with
  | upsertRepository n p u =>
    simp only [Call.names, Call.describes, Call.mentions, Option.toList_some, List.append_nil,
      List.mem_singleton] at h
    subst h
    obtain ⟨i, ha, hi⟩ := idOf_upsertRepository s now name p u
    exact ⟨i, hi, fun j hj => Option.some.inj (hj.symm.trans ha)⟩
  | getOrCreateRepoId n =>
    simp only [Call.names, Call.describes, Call.mentions, Option.toList_none, List.nil_append,
      List.mem_singleton] at h
    subst h
    obtain ⟨i, ha, hi⟩ := idOf_upsertRepository s now name none none
    exact ⟨i, hi, fun j hj => Option.some.inj (hj.symm.trans ha)⟩
  | addDependency u d k =>
    simp only [Call.names, Call.describes, Call.mentions, Option.toList_none, List.nil_append,
      List.mem_cons, List.not_mem_nil, or_false] at h
    have hid : ∃ i, (step s ⟨now, .addDependency u d k⟩).idOf name = some i := by
      simp only [step, idOf, addDependency_repositories]
      rcases h with rfl | rfl
      · obtain ⟨i, -, hi⟩ := idOf_upsertRepository s now name none none
        exact ⟨i, idOf_putRepository_of hi⟩
      · obtain ⟨i, -, hi⟩ := idOf_upsertRepository (s.upsertRepository now u none none).2 now name none none
        exact ⟨i, hi⟩
    obtain ⟨i, hi⟩ := hid
    refine ⟨i, hi, fun j hj => ?_⟩
    cases hj

/-! ## Mentions of a stored repository -/

/-- A call that does not describe a row's repository leaves the row, or writes the name over its
URL when it mentions it. -/
theorem get_step (h : s.repositories.rows.get i = some r) (hd : c.describes ≠ some r.name) :
    (step s c).repositories.rows.get i =
      some (if r.name ∈ c.mentions then mentioned r else r) := by
  obtain ⟨now, op⟩ := c
  cases op with
  | upsertRepository n p u =>
    rw [if_neg (show r.name ∉ Call.mentions ⟨now, .upsertRepository n p u⟩ from List.not_mem_nil)]
    exact get_upsertRepository_of_ne h fun hn => hd (congrArg some hn.symm)
  | getOrCreateRepoId n =>
    simp only [Call.mentions, List.mem_singleton]
    exact get_upsertRepository_none h
  | addDependency u d k =>
    simp only [step, addDependency_repositories, Call.mentions, List.mem_cons, List.not_mem_nil, or_false]
    rw [get_upsertRepository_none (get_upsertRepository_none h)]
    -- both ends of a dependency may be the row's repository
    split_ifs <;> simp_all

/-- Any number of mentions is the same as one. -/
theorem get_run (h : s.repositories.rows.get i = some r) (hd : ∀ c ∈ l, c.describes ≠ some r.name) :
    (run step s l).repositories.rows.get i =
      some (if ∃ c ∈ l, r.name ∈ c.mentions then mentioned r else r) := by
  induction l generalizing s r with
  | nil => simpa using h
  | cons c l ih =>
    obtain ⟨hc, hl⟩ := List.forall_mem_cons.mp hd
    have h1 := get_step h hc
    rw [run_cons]
    by_cases hm : r.name ∈ c.mentions
    · rw [if_pos hm] at h1
      have hex : ∃ c' ∈ c :: l, r.name ∈ c'.mentions := ⟨c, List.mem_cons_self, hm⟩
      rw [if_pos hex, ih h1 hl, mentioned_mentioned, ite_self]
    · rw [if_neg hm] at h1
      rw [ih h1 hl]
      simp [hm]

/-- Every name of a run has exactly one id, which it keeps. -/
structure OneId (s : RepoStore) (l : List Call) : Prop where
  unique : ∀ i r, (run step s l).repositories.rows.get i = some r →
    (run step s l).idOf r.name = some i
  kept : ∀ name i, s.idOf name = some i → (run step s l).idOf name = some i
  named : ∀ pre c post, l = pre ++ c :: post → ∀ name ∈ c.names,
    ∃ i, (run step s l).idOf name = some i ∧ ∀ j, answer (run step s pre) c = some j → j = i

theorem oneId (s : RepoStore) (l : List Call) : OneId s l where
  unique _ _ h := idOf_of_get h
  kept _ _ h := idOf_run_of h l
  named := by
    rintro pre c post rfl name hn
    obtain ⟨i, hi, hj⟩ := idOf_step (s := run step s pre) hn
    refine ⟨i, ?_, hj⟩
    rw [run_append, run_cons]
    exact idOf_run_of hi post

/-- A repository that the calls only mention keeps all its columns exactly if its URL is its name
anyway or none of them mentions it; names keep their ids in any case. -/
theorem mentioned_intact_iff (s : RepoStore) (i : Nat) (r : StoredIndexedRepo) (l : List Call)
    (hr : s.repositories.rows.get i = some r) (hd : ∀ c ∈ l, c.describes ≠ some r.name) :
    (run step s l).repositories.rows.get i = some r ∧ OneId s l ↔
      r.scmUrl = some r.name ∨ ∀ c ∈ l, r.name ∉ c.mentions := by
  rw [and_iff_left (oneId s l), get_run hr hd, Option.some.injEq]
  split
  · rename_i hm
    obtain ⟨c, hc, hm⟩ := hm
    rw [mentioned_eq_self, or_iff_left fun h => h c hc hm]
  · rename_i hm
    refine iff_of_true rfl (.inr fun c hc h => hm ⟨c, hc, h⟩)

/-- A repository indexed with its URL, and another one. -/
def described : RepoStore :=
  run step empty [⟨0, .upsertRepository "appwrite/cloud" (some "/srv/cloud")
      (some "https://github.com/appwrite/cloud")⟩, ⟨1, .getOrCreateRepoId "appwrite/console"⟩]

/-- A dependency of the other repository, which has no URL, leaves both. -/
theorem mentioned_intact_other :
    (run step described [⟨2, .addDependency "utopia-php/http" "appwrite/console" "composer"⟩]).repositories.rows.get
        2 = some ⟨"appwrite/console", "", some "appwrite/console", some "main", 0, none, 1⟩ ∧
      OneId described [⟨2, .addDependency "utopia-php/http" "appwrite/console" "composer"⟩] :=
  (mentioned_intact_iff described 2 _ _ (by decide) (by decide)).mpr (.inl (by decide))

/-- As the upstream of a dependency a repository loses its URL. -/
theorem url_lost_by_dependency :
    (described.repositories.rows.get 1).map StoredIndexedRepo.scmUrl =
        some (some "https://github.com/appwrite/cloud") ∧
      ((step described ⟨2, .addDependency "appwrite/cloud" "appwrite/console" "sdk"⟩).repositories.rows.get
        1).map StoredIndexedRepo.scmUrl = some (some "appwrite/cloud") := by
  decide

end RepoStore

end Claudear.Storage
