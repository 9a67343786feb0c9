import Claudear.Storage.CodeIndex

/-!
# The code tables of all repositories

A symbol and a chunk have a `repo_id`, an embedding has its chunk. `ofRepo` is
what the statements with `repo_id = ?` see, the code index of one repository,
and the clean-up acts on it as on a table of that repository alone
(`ofRepo_cleanupStaleCodeData`).

The paths to clean up are looked up among the chunks. A path that has symbols
and no chunk is not found there.
-/

namespace Claudear.Storage

open Claudear.Sql

structure RepoSymbol (S : Type) where
  repoId : Nat
  symbol : CodeSymbol S
  deriving DecidableEq, Repr

structure RepoChunk (K : Type) where
  repoId : Nat
  chunk : CodeChunk K
  deriving DecidableEq, Repr

structure CodeTables (S K : Type) where
  codeSymbols : List (RepoSymbol S)
  codeChunks : Table (RepoChunk K)
  codeChunkEmbeddings : List ChunkEmbedding

namespace CodeTables

variable {S K : Type}

/-- The deletions from the symbols and from the chunks, with the embeddings of the chunks. -/
def deletePaths (s : CodeTables S K) (p : Nat → String → Bool) : CodeTables S K :=
  let codeChunks := s.codeChunks.delete fun c => p c.repoId c.chunk.filePath
  { codeSymbols := s.codeSymbols.filter fun x => !p x.repoId x.symbol.filePath
    codeChunks
    codeChunkEmbeddings := s.codeChunkEmbeddings.filter fun e => (codeChunks.get e.chunkId).isSome }

def deleteAllCodeDataForRepo (s : CodeTables S K) (repoId : Nat) : CodeTables S K :=
  s.deletePaths fun r _ => r = repoId

def staleCodeFilePaths (s : CodeTables S K) (repoId : Nat) (currentPaths : List String) : List String :=
  (((s.codeChunks.rows.filter fun r => r.2.repoId = repoId).map fun r => r.2.chunk.filePath).filter
    fun path => path ∉ currentPaths).dedup

def cleanupStaleCodeData (s : CodeTables S K) (repoId : Nat) (currentPaths : List String) :
    CodeTables S K :=
  if currentPaths = [] then s.deleteAllCodeDataForRepo repoId
  else s.deletePaths fun r path => r = repoId && path ∈ s.staleCodeFilePaths repoId currentPaths

/-! ## One repository -/

def symbolOf (repoId : Nat) (x : RepoSymbol S) : Option (CodeSymbol S) :=
  if x.repoId = repoId then some x.symbol else none

def chunkOf (repoId : Nat) (c : RepoChunk K) : Option (CodeChunk K) :=
  if c.repoId = repoId then some c.chunk else none

/-- The rows of one repository. The version of the indexer is in no row. -/
def ofRepo (s : CodeTables S K) (repoId : Nat) : CodeData S K where
  symbols := s.codeSymbols.filterMap (symbolOf repoId)
  chunks := s.codeChunks.filterMap (chunkOf repoId)
  embeddings := s.codeChunkEmbeddings.filter fun e =>
    ((s.codeChunks.filterMap (chunkOf repoId)).get e.chunkId).isSome
  indexVersion := none
  savedBy := fun _ => ""

variable {s : CodeTables S K} {repoId r : Nat} {currentPaths : List String} {path : String}

theorem symbolOf_eq_some {x : RepoSymbol S} {y : CodeSymbol S} :
    symbolOf r x = some y ↔ x.repoId = r ∧ x.symbol = y := by
  rw [symbolOf, Option.ite_none_right_eq_some, Option.some.injEq]

theorem chunkOf_eq_some {c : RepoChunk K} {d : CodeChunk K} :
    chunkOf r c = some d ↔ c.repoId = r ∧ c.chunk = d := by
  rw [chunkOf, Option.ite_none_right_eq_some, Option.some.injEq]

/-- A deletion in the tables is one in what each repository sees of them. -/
theorem ofRepo_deletePaths (p : Nat → String → Bool) :
    (s.deletePaths p).ofRepo r = (s.ofRepo r).deletePaths (p r) := by
  have hsymbols : (s.codeSymbols.filter fun x => !p x.repoId x.symbol.filePath).filterMap (symbolOf r) =
      (s.codeSymbols.filterMap (symbolOf r)).filter fun x => !p r x.filePath := by
    induction s.codeSymbols with
    | nil => rfl
    | cons x xs ih =>
      by_cases hx : x.repoId = r
      · cases hp : p r x.symbol.filePath <;> simp [symbolOf, hx, hp, ih]
      · cases hp : p x.repoId x.symbol.filePath <;> simp [symbolOf, hx, hp, ih]
  have hchunks : (s.codeChunks.delete fun c => p c.repoId c.chunk.filePath).filterMap (chunkOf r) =
      (s.codeChunks.filterMap (chunkOf r)).delete fun c => p r c.filePath := by
    refine Table.filterMap_delete _ fun c d hd => ?_
    obtain ⟨rfl, rfl⟩ := chunkOf_eq_some.mp hd
    rfl
  -- an embedding that stays in the repository's view has its chunk in the table
  have htable : ∀ t : Table (RepoChunk K), (s.codeChunkEmbeddings.filter fun e =>
      (t.get e.chunkId).isSome).filter (fun e => ((t.filterMap (chunkOf r)).get e.chunkId).isSome) =
        s.codeChunkEmbeddings.filter fun e => ((t.filterMap (chunkOf r)).get e.chunkId).isSome := by
    intro t
    rw [List.filter_filter]
    refine List.filter_congr fun e _ => ?_
    rw [Table.get_filterMap]
    cases t.get e.chunkId <;> simp
  have hview : ∀ (t : Table (CodeChunk K)) (q : CodeChunk K → Bool),
      (s.codeChunkEmbeddings.filter fun e => (t.get e.chunkId).isSome).filter
        (fun e => ((t.delete q).get e.chunkId).isSome) =
        s.codeChunkEmbeddings.filter fun e => ((t.delete q).get e.chunkId).isSome := by
    intro t q
    rw [List.filter_filter]
    refine List.filter_congr fun e _ => ?_
    rw [Table.get_delete]
    cases t.get e.chunkId <;> simp
  have hembeddings := htable (s.codeChunks.delete fun c => p c.repoId c.chunk.filePath)
  rw [hchunks] at hembeddings
  simp only [ofRepo, deletePaths, CodeData.deletePaths, CodeData.withChunks, hsymbols, hembeddings, hchunks,
    hview]

/-- A clause that matches nothing of the repository leaves it as it is. -/
theorem deletePaths_none : (s.ofRepo r).deletePaths (fun _ => false) = s.ofRepo r := by
  have hchunks : (s.ofRepo r).chunks.delete (fun _ => false) = (s.ofRepo r).chunks := by
    simp [Table.delete]
  have hembeddings : ((s.ofRepo r).embeddings.filter fun e =>
      ((s.ofRepo r).chunks.get e.chunkId).isSome) = (s.ofRepo r).embeddings :=
    List.filter_eq_self.mpr fun e he => (List.mem_filter.mp he).2
  have hsymbols : ((s.ofRepo r).symbols.filter fun _ => !false) = (s.ofRepo r).symbols :=
    List.filter_eq_self.mpr fun _ _ => rfl
  simp only [CodeData.deletePaths, CodeData.withChunks, hchunks, hembeddings, hsymbols]

theorem staleCodeFilePaths_ofRepo :
    (s.ofRepo repoId).staleCodeFilePaths currentPaths = s.staleCodeFilePaths repoId currentPaths := by
  have hpaths : (s.codeChunks.filterMap (chunkOf repoId)).rows.map (fun c => c.2.filePath) =
      (s.codeChunks.rows.filter fun c => c.2.repoId = repoId).map fun c => c.2.chunk.filePath := by
    rw [Table.filterMap]
    simp only
    induction s.codeChunks.rows with
    | nil => rfl
    | cons c cs ih =>
      by_cases hc : c.2.repoId = repoId
      · have hsome : chunkOf repoId c.2 = some c.2.chunk := if_pos hc
        simp [hsome, hc, ih]
      · have hnone : chunkOf repoId c.2 = none := if_neg hc
        simp [hnone, hc, ih]
  rw [CodeData.staleCodeFilePaths, staleCodeFilePaths, ← hpaths]
  rfl

/-- The clean-up of a repository is that of its own rows, and leaves the other repositories. -/
theorem ofRepo_cleanupStaleCodeData :
    (s.cleanupStaleCodeData repoId currentPaths).ofRepo r =
      if r = repoId then (s.ofRepo r).cleanupStaleCodeData currentPaths else s.ofRepo r := by
  unfold cleanupStaleCodeData CodeData.cleanupStaleCodeData deleteAllCodeDataForRepo
  by_cases hr : r = repoId
  · subst hr
    rw [if_pos rfl]
    split
    · rw [ofRepo_deletePaths]
      simp only [decide_true]
      rfl
    · rw [ofRepo_deletePaths]
      simp only [decide_true, Bool.true_and, staleCodeFilePaths_ofRepo]
  · rw [if_neg hr]
    split
    · rw [ofRepo_deletePaths]
      simp only [hr, decide_false]
      exact deletePaths_none
    · rw [ofRepo_deletePaths]
      simp only [hr, decide_false, Bool.false_and]
      exact deletePaths_none

/-! ## What the clean-up leaves -/

/-- Nothing is left of the repository's paths that are not current, and everything else is as it
was. -/
def CleanedUp (s s' : CodeTables S K) (repoId : Nat) (currentPaths : List String) : Prop :=
  ∀ r path, (s'.ofRepo r).fileData path =
    if r = repoId ∧ path ∉ currentPaths then .empty else (s.ofRepo r).fileData path

/-- A path with symbols of the repository is current or has a chunk. -/
def SymbolsChunked (s : CodeTables S K) (repoId : Nat) (currentPaths : List String) : Prop :=
  ∀ x ∈ s.codeSymbols, x.repoId = repoId → x.symbol.filePath ∉ currentPaths →
    ∃ i c, s.codeChunks.get i = some c ∧ c.repoId = repoId ∧ c.chunk.filePath = x.symbol.filePath

/-- A path without chunks has no embeddings either. -/
theorem fileData_of_no_rows (h : (s.ofRepo r).rowsOf path = []) :
    (s.ofRepo r).fileData path =
      ⟨(s.ofRepo r).symbols.filter fun x => x.filePath = path, [], [], []⟩ := by
  have hembeddings : (s.ofRepo r).embeddings.filter ((s.ofRepo r).isOf path) = [] := by
    refine List.filter_eq_nil_iff.mpr fun e _ he => ?_
    obtain ⟨c, hc, -⟩ := CodeData.isOf_iff.mp he
    rw [h] at hc
    cases hc
  rw [CodeData.fileData, h, hembeddings]
  rfl

theorem rowsOf_eq_nil : (s.ofRepo r).rowsOf path = [] ↔
    ∀ i c, s.codeChunks.get i = some c → c.repoId = r → c.chunk.filePath ≠ path := by
  rw [List.eq_nil_iff_forall_not_mem]
  constructor
  · intro h i c hc hr hp
    refine h (i, c.chunk) (CodeData.mem_rowsOf.mpr ⟨?_, hp⟩)
    show (s.codeChunks.filterMap (chunkOf r)).get i = some c.chunk
    rw [Table.get_filterMap, hc]
    exact chunkOf_eq_some.mpr ⟨hr, rfl⟩
  · rintro h ⟨i, d⟩ hd
    obtain ⟨hget, hp⟩ := CodeData.mem_rowsOf.mp hd
    have hview : (s.codeChunks.filterMap (chunkOf r)).get i = some d := hget
    rw [Table.get_filterMap] at hview
    obtain ⟨c, hc, hcd⟩ := Option.bind_eq_some_iff.mp hview
    obtain ⟨hr, rfl⟩ := chunkOf_eq_some.mp hcd
    exact h i c hc hr hp

theorem symbols_eq_nil : (s.ofRepo r).symbols.filter (fun x => x.filePath = path) = [] ↔
    ∀ x ∈ s.codeSymbols, x.repoId = r → x.symbol.filePath ≠ path := by
  rw [List.filter_eq_nil_iff]
  constructor
  · intro h x hx hr hp
    exact h x.symbol (List.mem_filterMap.mpr ⟨x, hx, if_pos hr⟩) (decide_eq_true hp)
  · intro h y hy hp
    obtain ⟨x, hx, hxy⟩ := List.mem_filterMap.mp hy
    obtain ⟨hr, rfl⟩ := symbolOf_eq_some.mp hxy
    exact h x hx hr (of_decide_eq_true hp)

/-- Symbols without chunks are what the clean-up does not see. -/
theorem symbolsChunked_iff :
    SymbolsChunked s repoId currentPaths ↔ ∀ path, path ∉ currentPaths →
      (s.ofRepo repoId).rowsOf path = [] → (s.ofRepo repoId).fileData path = .empty := by
  constructor
  · intro h path hp hrows
    have hsymbols : (s.ofRepo repoId).symbols.filter (fun x => x.filePath = path) = [] := by
      refine symbols_eq_nil.mpr fun x hx hr hpath => ?_
      obtain ⟨i, c, hc, hcr, hcp⟩ := h x hx hr (by rwa [hpath])
      exact rowsOf_eq_nil.mp hrows i c hc hcr (hcp.trans hpath)
    rw [fileData_of_no_rows hrows, hsymbols]
    rfl
  · intro h x hx hr hp
    by_contra hn
    have hrows : (s.ofRepo repoId).rowsOf x.symbol.filePath = [] := by
      refine rowsOf_eq_nil.mpr fun i c hc hcr hcp => hn ⟨i, c, hc, hcr, hcp⟩
    have hempty := h x.symbol.filePath hp hrows
    rw [fileData_of_no_rows hrows] at hempty
    exact symbols_eq_nil.mp (congrArg FileData.symbols hempty) x hx hr rfl

/-- The clean-up is complete exactly if it deletes everything, or no path has symbols only. -/
theorem cleanedUp_iff (s : CodeTables S K) (repoId : Nat) (currentPaths : List String) :
    CleanedUp s (s.cleanupStaleCodeData repoId currentPaths) repoId currentPaths ↔
      currentPaths = [] ∨ SymbolsChunked s repoId currentPaths := by
  have hfile : ∀ r path, ((s.cleanupStaleCodeData repoId currentPaths).ofRepo r).fileData path =
      if r = repoId ∧ (currentPaths = [] ∨ path ∉ currentPaths ∧ (s.ofRepo r).rowsOf path ≠ [])
      then .empty else (s.ofRepo r).fileData path := by
    intro r path
    rw [ofRepo_cleanupStaleCodeData]
    by_cases hr : r = repoId
    · simp only [hr, if_true, true_and, CodeData.fileData_cleanupStaleCodeData]
    · simp only [hr, if_false, false_and]
  rw [symbolsChunked_iff]
  by_cases hnil : currentPaths = []
  · refine iff_of_true (fun r path => ?_) (.inl hnil)
    rw [hfile, hnil]
    simp
  · rw [or_iff_right hnil]
    constructor
    · intro h path hp hrows
      have hpath := h repoId path
      rw [hfile, if_neg (by simp [hnil, hrows]), if_pos ⟨rfl, hp⟩] at hpath
      exact hpath
    · intro h r path
      rw [hfile]
      by_cases hr : r = repoId
      · subst hr
        by_cases hp : path ∈ currentPaths
        · simp [hnil, hp]
        · by_cases hrows : (s.ofRepo r).rowsOf path = []
          · simp [hnil, hp, hrows, h path hp hrows]
          · simp [hp, hrows]
      · simp [hr]

/-- A file that is gone, of which there are symbols and no chunk. -/
def symbolsOnly : CodeTables Unit Unit where
  codeSymbols := [⟨1, ⟨"src/gone.rs", ()⟩⟩]
  codeChunks := .empty
  codeChunkEmbeddings := []

theorem symbols_left_behind :
    (symbolsOnly.cleanupStaleCodeData 1 ["src/main.rs"]).codeSymbols = [⟨1, ⟨"src/gone.rs", ()⟩⟩] := by
  decide

end CodeTables

end Claudear.Storage
