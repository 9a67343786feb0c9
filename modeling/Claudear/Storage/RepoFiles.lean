import Claudear.Storage.Repositories
import Mathlib.Data.List.DropRight

/-!
# The index of a repository's files

`sync_repo_files` saves one repository, clears its files and saves those of its
list. `sync_from_index` saves every repository of the index with the files of
its list, and clears nothing: a file that has gone since the last time stays.
`filesOf` is what is stored for a repository: for every path that is, the type.
-/

namespace Claudear.Storage

open Claudear.Sql

/-- The last component of a path that is neither empty nor a dot, unless it is two dots. -/
def fileName (path : List Char) : Option (List Char) :=
  (((path.splitOn '/').filter fun c => c ≠ [] ∧ c ≠ ['.']).getLast?).filter (· ≠ ['.', '.'])

/-- What is after the last dot of a file's name, if there is something before it. -/
def extension (path : String) : Option String :=
  (fileName path.toList).bind fun name =>
    let stem := (name.rdropWhile (· ≠ '.')).dropLast
    if '.' ∈ name ∧ stem ≠ [] then some (String.ofList (name.rtakeWhile (· ≠ '.'))) else none

structure IndexedRepo where
  name : String
  path : String
  scmUrl : String
  files : List String
  defaultBranch : String
  deriving DecidableEq, Repr

/-- The repositories of the map, in any order. -/
structure RepoIndex where
  repos : List IndexedRepo
  distinct : (repos.map IndexedRepo.name).Nodup

namespace RepoStore

/-- The row of the `INSERT`. -/
def indexed (now : Timestamp) (name path : String) (scmUrl : Option String) (defaultBranch : String)
    (fileCount : Nat) : StoredIndexedRepo :=
  ⟨name, path, scmUrl, some defaultBranch, fileCount, some now, now⟩

/-- `ON CONFLICT(name) DO UPDATE`: without a URL the row keeps its own. -/
def reindexed (now : Timestamp) (path : String) (scmUrl : Option String) (defaultBranch : String)
    (fileCount : Nat) (r : StoredIndexedRepo) : StoredIndexedRepo :=
  { r with
    path
    scmUrl := scmUrl.or r.scmUrl
    defaultBranch := some defaultBranch
    fileCount
    lastIndexedAt := some now }

theorem reindexed_name (now : Timestamp) (path : String) (scmUrl : Option String)
    (defaultBranch : String) (fileCount : Nat) (r : StoredIndexedRepo) :
    (reindexed now path scmUrl defaultBranch fileCount r).name = r.name := rfl

def saveIndexedRepo (now : Timestamp) (name path : String) (scmUrl : Option String)
    (defaultBranch : String) (fileCount : Nat) (s : RepoStore) : Option Nat × RepoStore :=
  s.putRepository (indexed now name path scmUrl defaultBranch fileCount)
    (reindexed now path scmUrl defaultBranch fileCount)
    (reindexed_name now path scmUrl defaultBranch fileCount)

def typed (fileType : Option String) (f : StoredRepoFile) : StoredRepoFile := { f with fileType }

theorem typed_key (fileType : Option String) (f : StoredRepoFile) : (typed fileType f).key = f.key := rfl

/-- None is the error of a `repo_id` that no repository has. -/
def saveRepoFile (repoId : Nat) (filePath : String) (fileType : Option String) (s : RepoStore) :
    Option RepoStore :=
  if h : (s.repositories.rows.get repoId).isSome then
    some { s with
      files := s.files.put ⟨repoId, filePath, fileType⟩ (typed fileType) (typed_key fileType)
      owned := fun i f hi => by
        rcases Indexed.get_put_cases hi with hk | hi
        · rwa [show f.repoId = repoId from congrArg Prod.fst hk]
        · exact s.owned i f hi }
  else none

/-- The first file that fails is the first one: the repositories stay as they are. -/
def saveRepoFiles (repoId : Nat) : List (String × Option String) → RepoStore → Option RepoStore
  | [], s => some s
  | f :: files, s => (s.saveRepoFile repoId f.1 f.2).bind (saveRepoFiles repoId files)

def clearRepoFiles (repoId : Nat) (s : RepoStore) : RepoStore :=
  { s with
    files := s.files.delete fun f => f.repoId = repoId
    owned := fun i f hi => s.owned i f (Table.get_delete_eq_some.mp hi).1 }

def filesWithTypes (files : List String) : List (String × Option String) :=
  files.map fun f => (f, extension f)

def syncRepoFiles (now : Timestamp) (repo : IndexedRepo) (s : RepoStore) : Option Unit × RepoStore :=
  match s.saveIndexedRepo now repo.name repo.path (some repo.scmUrl) repo.defaultBranch
    repo.files.length with
  | (none, s) => (none, s)
  | (some repoId, s) =>
    let s := s.clearRepoFiles repoId
    match s.saveRepoFiles repoId (filesWithTypes repo.files) with
    | none => (none, s)
    | some s => (some (), s)

/-- One turn of the loop of `sync_from_index`. -/
def syncIndexed (now : Timestamp) (syncFiles : Bool) (repo : IndexedRepo) (s : RepoStore) :
    Option Unit × RepoStore :=
  if syncFiles then
    match s.saveIndexedRepo now repo.name repo.path (some repo.scmUrl) repo.defaultBranch
      repo.files.length with
    | (none, s) => (none, s)
    | (some repoId, s) =>
      match s.saveRepoFiles repoId (filesWithTypes repo.files) with
      | none => (none, s)
      | some s => (some (), s)
  else
    match s.upsertRepository now repo.name (some repo.path) none with
    | (none, s) => (none, s)
    | (some _, s) => (some (), s)

/-- `now` is the time at which each repository's statement runs. -/
def syncRepos (now : String → Timestamp) (syncFiles : Bool) :
    List IndexedRepo → Nat → RepoStore → Option Nat × RepoStore
  | [], synced, s => (some synced, s)
  | repo :: repos, synced, s =>
    match s.syncIndexed (now repo.name) syncFiles repo with
    | (none, s) => (none, s)
    | (some (), s) => syncRepos now syncFiles repos (synced + 1) s

def syncFromIndex (now : String → Timestamp) (index : RepoIndex) (syncFiles : Bool) (s : RepoStore) :
    Option Nat × RepoStore :=
  syncRepos now syncFiles index.repos 0 s

/-! ## What is stored for a repository -/

/-- The type stored for a path of the repository with this id. -/
def typeOf (files : Indexed StoredRepoFile.key) (repoId : Nat) (path : String) :
    Option (Option String) :=
  (files.find (repoId, path)).map fun f => f.2.fileType

def filesOf (s : RepoStore) (name : String) (path : String) : Option (Option String) :=
  (s.idOf name).bind fun repoId => typeOf s.files repoId path

/-- The files of a list, with their types. -/
def listed (files : List String) (path : String) : Option (Option String) :=
  if path ∈ files then some (extension path) else none

variable {s s' : RepoStore} {now : Timestamp} {name n path p : String} {paths : List String}
  {repo : IndexedRepo} {i j : Nat} {r : StoredIndexedRepo} {ftype : Option String}

/-- An id that no repository has owns no file. -/
theorem typeOf_of_unknown (h : s.repositories.rows.get i = none) : typeOf s.files i path = none := by
  cases hf : s.files.find (i, path) with
  | none => rw [typeOf, hf]; rfl
  | some f =>
    obtain ⟨hget, hkey⟩ := Indexed.find_eq_some (i := f.1) (c := f.2) |>.mp hf
    have hown := s.owned f.1 f.2 hget
    rw [show f.2.repoId = i from congrArg Prod.fst hkey, h] at hown
    cases hown

theorem filesOf_of_id (h : s.idOf name = some i) : s.filesOf name = typeOf s.files i := by
  funext path
  rw [filesOf, h]
  rfl

/-- Saving a repository leaves the files of every one; a new row gets an id that owns none. -/
theorem filesOf_putRepository {f : StoredIndexedRepo → StoredIndexedRepo}
    {hf : ∀ r, (f r).name = r.name} (n : String) :
    (s.putRepository r f hf).2.filesOf n = s.filesOf n := by
  funext path
  cases hid : s.idOf n with
  | some i =>
    rw [filesOf_of_id hid, filesOf_of_id (idOf_putRepository_of hid)]
    rfl
  | none =>
    have hnone : s.filesOf n path = none := by rw [filesOf, hid]; rfl
    rw [hnone]
    by_cases hn : n = r.name
    · subst hn
      have hfind : s.repositories.find r.name = none := Option.map_eq_none_iff.mp hid
      rw [filesOf_of_id idOf_putRepository_self, Indexed.putRow_of_none hfind]
      show typeOf s.files s.repositories.rows.next path = none
      exact typeOf_of_unknown (Table.get_next s.repositories.rows)
    · rw [filesOf, idOf_putRepository_of_ne hn, hid]
      rfl

/-! ## Saving and clearing files -/

theorem typeOf_put (t : Indexed StoredRepoFile.key) :
    typeOf (t.put ⟨i, path, ftype⟩ (typed ftype) (typed_key ftype)) j p =
      if j = i ∧ p = path then some ftype else typeOf t j p := by
  rw [typeOf, Indexed.find_put]
  by_cases h : (j, p) = (i, path)
  · rw [if_pos (show (j, p) = StoredRepoFile.key ⟨i, path, ftype⟩ from h), if_pos (Prod.mk.inj h)]
    unfold Indexed.putRow
    cases t.find (StoredRepoFile.key ⟨i, path, ftype⟩) <;> rfl
  · rw [if_neg (show (j, p) ≠ StoredRepoFile.key ⟨i, path, ftype⟩ from h),
      if_neg fun e => h (Prod.ext e.1 e.2)]
    rfl

theorem typeOf_delete (t : Indexed StoredRepoFile.key) :
    typeOf (t.delete fun f => f.repoId = i) j p = if j = i then none else typeOf t j p := by
  rw [typeOf, Indexed.find_delete]
  cases hf : t.find (j, p) with
  | none => simp [typeOf, hf]
  | some f =>
    have hj : f.2.repoId = j := congrArg Prod.fst (Indexed.find_eq_some (i := f.1) (c := f.2) |>.mp hf).2
    by_cases h : j = i <;> simp [typeOf, hf, Option.filter, hj, h]

/-- Saving a list of files of a stored repository stores them, with their types, and changes
nothing else. -/
theorem saveRepoFiles_of_known (h : (s.repositories.rows.get i).isSome) (paths : List String) :
    ∃ s', s.saveRepoFiles i (filesWithTypes paths) = some s' ∧ s'.repositories = s.repositories ∧
      ∀ j p, typeOf s'.files j p =
        if j = i ∧ p ∈ paths then some (extension p) else typeOf s.files j p := by
  induction paths generalizing s with
  | nil => exact ⟨s, rfl, rfl, fun j p => by simp⟩
  | cons path paths ih =>
    have h1 : ∃ s₁, s.saveRepoFile i path (extension path) = some s₁ ∧
        s₁.repositories = s.repositories ∧
        s₁.files = s.files.put ⟨i, path, extension path⟩ (typed (extension path))
          (typed_key (extension path)) := ⟨_, dif_pos h, rfl, rfl⟩
    obtain ⟨s₁, hs₁, hr₁, hf₁⟩ := h1
    obtain ⟨s₂, hs₂, hr₂, hf₂⟩ := ih (s := s₁) (by rwa [hr₁])
    refine ⟨s₂, ?_, hr₂.trans hr₁, fun j p => ?_⟩
    · rw [filesWithTypes, List.map_cons, saveRepoFiles, hs₁]
      exact hs₂
    · rw [hf₂, hf₁, typeOf_put]
      by_cases hj : j = i <;> by_cases hp : p = path <;> by_cases hm : p ∈ paths <;>
        simp [hj, hp, hm]

/-! ## One repository -/

theorem idOf_eq (h : s'.repositories = s.repositories) : s'.idOf n = s.idOf n := by
  rw [idOf, h, idOf]

theorem isSome_of_idOf (h : s.idOf name = some i) : (s.repositories.rows.get i).isSome := by
  obtain ⟨r, hr, -⟩ := idOf_eq_some.mp h
  rw [hr]
  rfl

/-- No two names share an id. -/
theorem idOf_inj (h : s.idOf name = some i) (h' : s.idOf n = some i) : n = name := by
  obtain ⟨r, hr, rfl⟩ := idOf_eq_some.mp h
  obtain ⟨r', hr', rfl⟩ := idOf_eq_some.mp h'
  rw [hr] at hr'
  rw [Option.some.inj hr']

/-- The list of one repository over what `base` has of it. -/
def listedOver (paths : List String) (base : String → Option (Option String)) (path : String) :
    Option (Option String) :=
  if path ∈ paths then some (extension path) else base path

/-- What changes the files of one id changes those of the repository that has it. -/
theorem filesOf_of_typeOf {g : String → Option (Option String)} (h : s.idOf name = some i)
    (hr : s'.repositories = s.repositories)
    (hf : ∀ j p, typeOf s'.files j p = if j = i then g p else typeOf s.files j p) (n : String) :
    s'.filesOf n = if n = name then g else s.filesOf n := by
  funext p
  cases hn : s.idOf n with
  | none =>
    have hne : n ≠ name := by
      rintro rfl
      rw [h] at hn
      cases hn
    rw [if_neg hne, filesOf, filesOf, idOf_eq hr, hn]
    rfl
  | some j =>
    rw [filesOf_of_id ((idOf_eq hr).trans hn), hf]
    split
    · rename_i hj
      rw [if_pos (idOf_inj h (hj ▸ hn))]
    · rename_i hj
      rw [if_neg, filesOf_of_id hn]
      rintro rfl
      exact hj (Option.some.inj (hn.symm.trans h))

theorem filesOf_saveRepoFiles (h : s.idOf name = some i) (paths : List String) :
    ∃ s', s.saveRepoFiles i (filesWithTypes paths) = some s' ∧ s'.repositories = s.repositories ∧
      ∀ n, s'.filesOf n = if n = name then listedOver paths (s.filesOf name) else s.filesOf n := by
  obtain ⟨s', hs', hr, hf⟩ := saveRepoFiles_of_known (isSome_of_idOf h) paths
  refine ⟨s', hs', hr, filesOf_of_typeOf h hr fun j p => ?_⟩
  rw [hf, filesOf_of_id h]
  by_cases hj : j = i
  · rw [if_pos hj, listedOver, hj]
    by_cases hp : p ∈ paths <;> simp [hp]
  · simp [hj]

theorem filesOf_clearRepoFiles (h : s.idOf name = some i) (n : String) :
    (s.clearRepoFiles i).filesOf n = if n = name then fun _ => none else s.filesOf n := by
  have hr : (s.clearRepoFiles i).repositories = s.repositories := rfl
  exact filesOf_of_typeOf h hr (fun _ _ => typeOf_delete s.files) n

/-! ## The two writers -/

/-- A repository whose name is saved has an id, and nobody's files change. -/
theorem saveIndexedRepo_spec (now : Timestamp) (name path : String) (scmUrl : Option String)
    (branch : String) (count : Nat) :
    ∃ i s₁, s.saveIndexedRepo now name path scmUrl branch count = (some i, s₁) ∧
      s₁.idOf name = some i ∧ s₁.filesOf = s.filesOf := by
  obtain ⟨i, ha, hi⟩ := idOf_putRepository s (indexed now name path scmUrl branch count) _
    (reindexed_name now path scmUrl branch count)
  exact ⟨i, _, Prod.ext ha rfl, hi, funext fun n => filesOf_putRepository n⟩

/-- After `sync_repo_files` the files of the repository are those of its list. -/
theorem filesOf_syncRepoFiles (s : RepoStore) (now : Timestamp) (repo : IndexedRepo) :
    (s.syncRepoFiles now repo).1 = some () ∧
      ∀ n, (s.syncRepoFiles now repo).2.filesOf n =
        if n = repo.name then listed repo.files else s.filesOf n := by
  obtain ⟨i, s₁, hs₁, hi, hf₁⟩ := saveIndexedRepo_spec (s := s) now repo.name repo.path
    (some repo.scmUrl) repo.defaultBranch repo.files.length
  have hi₂ : (s₁.clearRepoFiles i).idOf repo.name = some i := hi
  obtain ⟨s₂, hs₂, -, hf₂⟩ := filesOf_saveRepoFiles hi₂ repo.files
  have heq : s.syncRepoFiles now repo = (some (), s₂) := by
    rw [syncRepoFiles, hs₁]
    simp only [hs₂]
  refine ⟨by rw [heq], fun n => ?_⟩
  rw [heq, hf₂]
  split
  · rw [filesOf_clearRepoFiles hi, if_pos rfl]
    rfl
  · rename_i hn
    rw [filesOf_clearRepoFiles hi, if_neg hn, hf₁]

/-- What one turn of `sync_from_index` makes of the files of its repository. -/
def synced (syncFiles : Bool) (paths : List String) (base : String → Option (Option String)) :
    String → Option (Option String) :=
  if syncFiles then listedOver paths base else base

theorem filesOf_syncIndexed (s : RepoStore) (now : Timestamp) (syncFiles : Bool) (repo : IndexedRepo) :
    ∃ s₁, s.syncIndexed now syncFiles repo = (some (), s₁) ∧
      ∀ n, s₁.filesOf n =
        if n = repo.name then synced syncFiles repo.files (s.filesOf n) else s.filesOf n := by
  cases syncFiles with
  | true =>
    obtain ⟨i, s₁, hs₁, hi, hf₁⟩ := saveIndexedRepo_spec (s := s) now repo.name repo.path
      (some repo.scmUrl) repo.defaultBranch repo.files.length
    obtain ⟨s₂, hs₂, -, hf₂⟩ := filesOf_saveRepoFiles hi repo.files
    refine ⟨s₂, ?_, fun n => ?_⟩
    · rw [syncIndexed, if_pos rfl, hs₁]
      simp only [hs₂]
    · rw [hf₂, hf₁]
      split
      · rename_i hn
        rw [hn]
        rfl
      · rfl
  | false =>
    obtain ⟨i, ha, -⟩ := idOf_upsertRepository s now repo.name (some repo.path) none
    have hs₁ : s.upsertRepository now repo.name (some repo.path) none =
        (some i, (s.upsertRepository now repo.name (some repo.path) none).2) := Prod.ext ha rfl
    refine ⟨(s.upsertRepository now repo.name (some repo.path) none).2, ?_, fun n => ?_⟩
    · rw [syncIndexed, if_neg Bool.false_ne_true, hs₁]
    · rw [show (s.upsertRepository now repo.name (some repo.path) none).2.filesOf n = s.filesOf n from
        filesOf_putRepository n]
      split <;> rfl

/-- Over an index, each turn changes the files of its own repository. -/
theorem filesOf_syncRepos (now : String → Timestamp) (syncFiles : Bool) (repos : List IndexedRepo)
    (hd : (repos.map IndexedRepo.name).Nodup) (count : Nat) (s : RepoStore) :
    (syncRepos now syncFiles repos count s).1 = some (count + repos.length) ∧
      (∀ repo ∈ repos, (syncRepos now syncFiles repos count s).2.filesOf repo.name =
        synced syncFiles repo.files (s.filesOf repo.name)) ∧
      ∀ n, n ∉ repos.map IndexedRepo.name →
        (syncRepos now syncFiles repos count s).2.filesOf n = s.filesOf n := by
  induction repos generalizing count s with
  | nil => exact ⟨rfl, fun _ h => absurd h List.not_mem_nil, fun _ _ => rfl⟩
  | cons repo repos ih =>
    rw [List.map_cons, List.nodup_cons] at hd
    obtain ⟨s₁, hs₁, hf₁⟩ := filesOf_syncIndexed s (now repo.name) syncFiles repo
    obtain ⟨hcount, hmem, hnot⟩ := ih hd.2 (count + 1) s₁
    have heq : syncRepos now syncFiles (repo :: repos) count s =
        syncRepos now syncFiles repos (count + 1) s₁ := by
      rw [syncRepos, hs₁]
    rw [heq]
    refine ⟨?_, fun r hr => ?_, fun n hn => ?_⟩
    · rw [hcount, List.length_cons, Nat.add_right_comm, Nat.add_assoc]
    · rcases List.mem_cons.mp hr with rfl | hr
      · rw [hnot r.name hd.1, hf₁, if_pos rfl]
      · have hne : r.name ≠ repo.name := fun e => hd.1 (e ▸ List.mem_map_of_mem hr)
        rw [hmem r hr, hf₁, if_neg hne]
    · rw [List.map_cons, List.mem_cons, not_or] at hn
      rw [hnot n hn.2, hf₁, if_neg hn.1]

/-! ## When the two writers agree -/

theorem listedOver_eq_listed {base : String → Option (Option String)} :
    listedOver paths base = listed paths ↔ ∀ p, base p ≠ none → p ∈ paths := by
  constructor
  · intro h p hp
    by_contra hn
    have hbase := congrFun h p
    rw [listedOver, listed, if_neg hn, if_neg hn] at hbase
    exact hp hbase
  · intro h
    funext p
    unfold listedOver listed
    split
    · rfl
    · by_contra hp
      exact ‹p ∉ paths› (h p hp)

/-- Nothing is stored of the repository that its list lacks; without the file sync, what is stored
is the list already. -/
def InSync (s : RepoStore) (syncFiles : Bool) (repo : IndexedRepo) : Prop :=
  if syncFiles then ∀ path, s.filesOf repo.name path ≠ none → path ∈ repo.files
  else s.filesOf repo.name = listed repo.files

/-- After `sync_from_index` the files of each repository of the index are those of its list, as
`sync_repo_files` would leave them, exactly if no file of them has gone. -/
theorem sync_agrees_iff (s : RepoStore) (now : String → Timestamp) (index : RepoIndex)
    (syncFiles : Bool) :
    (∀ repo ∈ index.repos,
      (s.syncFromIndex now index syncFiles).2.filesOf repo.name = listed repo.files ∧
        (s.syncFromIndex now index syncFiles).2.filesOf repo.name =
          (s.syncRepoFiles (now repo.name) repo).2.filesOf repo.name) ↔
      ∀ repo ∈ index.repos, InSync s syncFiles repo := by
  have hrun := (filesOf_syncRepos now syncFiles index.repos index.distinct 0 s).2.1
  refine forall_congr' fun repo => forall_congr' fun hrepo => ?_
  have hsync := (filesOf_syncRepoFiles s (now repo.name) repo).2 repo.name
  rw [if_pos rfl] at hsync
  rw [hsync, and_self_iff, syncFromIndex, hrun repo hrepo, InSync, synced]
  split
  · exact listedOver_eq_listed
  · exact Iff.rfl

/-- A repository at two times; between them a file has gone. -/
def cloud (files : List String) : IndexedRepo :=
  ⟨"appwrite/cloud", "/srv/cloud", "https://github.com/appwrite/cloud", files, "main"⟩

def cloudIndex (files : List String) : RepoIndex := ⟨[cloud files], by simp⟩

theorem gone_file_stays :
    let before := (empty.syncFromIndex (fun _ => 0) (cloudIndex ["src/a.rs", "src/b.rs"]) true).2
    let now := cloudIndex ["src/a.rs"]
    (before.syncFromIndex (fun _ => 1) now true).2.filesOf "appwrite/cloud" "src/b.rs" = some (some "rs") ∧
      listed (cloud ["src/a.rs"]).files "src/b.rs" = none ∧
      (before.syncRepoFiles 1 (cloud ["src/a.rs"])).2.filesOf "appwrite/cloud" "src/b.rs" = none := by
  decide

end RepoStore

end Claudear.Storage
