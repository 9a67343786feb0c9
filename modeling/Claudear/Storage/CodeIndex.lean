import Claudear.Sql.Table
import Mathlib.Data.List.Dedup
import Claudear.Storage.Error

/-!
# The code index

The symbols, the chunks and the chunks' embeddings of one repository; every
statement here has `repo_id = ?` in its `WHERE`. An embedding belongs to one
chunk and goes with it. A file counts as indexed when it has chunks with its
hash and each of them an embedding.

The columns that no statement looks at are `data`. `savedBy` is the version of
the indexer that saved a chunk, which no column says.

`FileData` is what is stored of one path. Every statement acts on each path by
itself, and the lemmas here say how.
-/

namespace Claudear.Storage

open Claudear.Sql

structure CodeSymbol (S : Type) where
  filePath : String
  data : S
  deriving DecidableEq, Repr

structure CodeChunk (K : Type) where
  filePath : String
  chunkText : String
  contextText : String
  fileHash : String
  contentHash : Option String
  data : K
  deriving DecidableEq, Repr

structure ChunkEmbedding where
  chunkId : Nat
  embeddingModel : String
  deriving DecidableEq, Repr

structure CodeData (S K : Type) where
  symbols : List (CodeSymbol S)
  chunks : Table (CodeChunk K)
  embeddings : List ChunkEmbedding
  /-- The metadata `index_version`. -/
  indexVersion : Option String
  savedBy : Nat → String

namespace CodeData

variable {S K : Type}

def empty : CodeData S K := ⟨[], .empty, [], none, fun _ => ""⟩

/-! ## Queries -/

/-- Of any embedding that has a chunk. -/
def getCodeEmbeddingModel (s : CodeData S K) : Option String :=
  (s.embeddings.find? fun e => (s.chunks.get e.chunkId).isSome).map ChunkEmbedding.embeddingModel

/-- `file_path = ? AND file_hash = ?` -/
def ofFile (path hash : String) (r : Nat × CodeChunk K) : Bool :=
  r.2.filePath = path && r.2.fileHash = hash

/-- The length of the join of the rows with their embeddings. -/
def embeddedCount (s : CodeData S K) (rows : List (Nat × CodeChunk K)) : Nat :=
  (rows.flatMap fun r => s.embeddings.filter fun e => e.chunkId = r.1).length

def codeChunkHashMatches (s : CodeData S K) (path hash : String) : Bool :=
  let rows := s.chunks.select (ofFile path hash)
  0 < rows.length && rows.length = s.embeddedCount rows

/-! ## Writers -/

/-- `ON DELETE CASCADE` -/
def withChunks (s : CodeData S K) (chunks : Table (CodeChunk K)) : CodeData S K :=
  { s with chunks, embeddings := s.embeddings.filter fun e => (chunks.get e.chunkId).isSome }

def deletePaths (s : CodeData S K) (p : String → Bool) : CodeData S K :=
  { s.withChunks (s.chunks.delete fun c => p c.filePath) with
    symbols := s.symbols.filter fun x => !p x.filePath }

def deleteCodeDataForFile (s : CodeData S K) (path : String) : CodeData S K :=
  s.deletePaths fun p => p = path

def deleteAllCodeDataForRepo (s : CodeData S K) : CodeData S K := s.deletePaths fun _ => true

def deleteCodeChunksByIds (s : CodeData S K) (ids : List Nat) : CodeData S K :=
  s.withChunks (s.chunks.deleteKeys fun i => i ∈ ids)

/-- The paths of the stored chunks that are not current. A path with symbols only is not among them. -/
def staleCodeFilePaths (s : CodeData S K) (currentPaths : List String) : List String :=
  ((s.chunks.rows.map fun r => r.2.filePath).filter fun path => path ∉ currentPaths).dedup

def cleanupStaleCodeData (s : CodeData S K) (currentPaths : List String) : CodeData S K :=
  if currentPaths = [] then s.deleteAllCodeDataForRepo
  else s.deletePaths fun path => path ∈ s.staleCodeFilePaths currentPaths

def saveCodeSymbols (s : CodeData S K) (symbols : List (CodeSymbol S)) : CodeData S K :=
  { s with symbols := s.symbols ++ symbols }

/-- The rows go in one after another; the keys they get. -/
def insertAll (t : Table (CodeChunk K)) : List (CodeChunk K) → List Nat × Table (CodeChunk K)
  | [] => ([], t)
  | c :: cs =>
    let r := insertAll (t.insert c) cs
    (t.next :: r.1, r.2)

def saveCodeChunks (s : CodeData S K) (version : String) (chunks : List (CodeChunk K)) :
    List Nat × CodeData S K :=
  let r := insertAll s.chunks chunks
  (r.1, { s with chunks := r.2, savedBy := fun i => if i ∈ r.1 then version else s.savedBy i })

/-- `chunk_id` is unique, and the key of a chunk. -/
def saveCodeChunkEmbeddings (s : CodeData S K) (ids : List Nat) (model : String) :
    Except Error (CodeData S K) :=
  if ids.Nodup ∧ (∀ i ∈ ids, (s.chunks.get i).isSome ∧ ∀ e ∈ s.embeddings, e.chunkId ≠ i) then
    .ok { s with embeddings := s.embeddings ++ ids.map fun i => ⟨i, model⟩ }
  else .error (.storage "UNIQUE constraint failed: code_chunk_embeddings.chunk_id")

def setIndexVersion (s : CodeData S K) (version : String) : CodeData S K :=
  { s with indexVersion := some version }

end CodeData

/-! ## What is stored of a path -/

structure FileData (S K : Type) where
  symbols : List (CodeSymbol S)
  rows : List (Nat × CodeChunk K)
  /-- The versions that saved the rows. -/
  versions : List String
  embeddings : List ChunkEmbedding

namespace FileData

variable {S K : Type}

def empty : FileData S K := ⟨[], [], [], []⟩

def hashMatches (d : FileData S K) (hash : String) : Bool :=
  let rows := d.rows.filter fun r => r.2.fileHash = hash
  0 < rows.length &&
    rows.length = (rows.flatMap fun r => d.embeddings.filter fun e => e.chunkId = r.1).length

end FileData

namespace CodeData

variable {S K : Type} {s s' : CodeData S K} {path hash model version : String} {ids : List Nat}

def rowsOf (s : CodeData S K) (path : String) : List (Nat × CodeChunk K) :=
  s.chunks.select fun r => r.2.filePath = path

def isOf (s : CodeData S K) (path : String) (e : ChunkEmbedding) : Bool :=
  (s.chunks.get e.chunkId).any fun c => c.filePath = path

def fileData (s : CodeData S K) (path : String) : FileData S K where
  symbols := s.symbols.filter fun x => x.filePath = path
  rows := s.rowsOf path
  versions := (s.rowsOf path).map fun r => s.savedBy r.1
  embeddings := s.embeddings.filter (s.isOf path)

theorem mem_rowsOf {r : Nat × CodeChunk K} :
    r ∈ s.rowsOf path ↔ s.chunks.get r.1 = some r.2 ∧ r.2.filePath = path := by
  rw [rowsOf, Table.mem_select, decide_eq_true_eq]

theorem isOf_iff {e : ChunkEmbedding} : s.isOf path e = true ↔ ∃ r ∈ s.rowsOf path, r.1 = e.chunkId := by
  rw [isOf, Option.any_eq_true]
  constructor
  · rintro ⟨c, hc, hp⟩
    exact ⟨(e.chunkId, c), mem_rowsOf.mpr ⟨hc, of_decide_eq_true hp⟩, rfl⟩
  · rintro ⟨r, hr, he⟩
    obtain ⟨hget, hp⟩ := mem_rowsOf.mp hr
    exact ⟨r.2, by rw [← he]; exact hget, decide_eq_true hp⟩

/-- Whether a file is indexed shows in what is stored of its path. -/
theorem codeChunkHashMatches_eq :
    s.codeChunkHashMatches path hash = (s.fileData path).hashMatches hash := by
  have hrows : s.chunks.select (ofFile path hash) = (s.rowsOf path).filter fun r => r.2.fileHash = hash := by
    rw [rowsOf, Table.select, Table.select, List.filter_filter]
    refine List.filter_congr fun r _ => ?_
    exact Bool.and_comm ..
  unfold codeChunkHashMatches FileData.hashMatches embeddedCount
  simp only [fileData, hrows]
  congr 3
  refine congrArg List.length (List.flatMap_congr fun r hr => ?_)
  rw [List.filter_filter]
  refine List.filter_congr fun e _ => ?_
  by_cases he : e.chunkId = r.1
  · rw [isOf_iff.mpr ⟨r, List.mem_of_mem_filter hr, he.symm⟩, Bool.and_true]
  · rw [decide_eq_false he, Bool.false_and]

/-! ## What the writers do to a path -/

/-- Every embedding has its chunk, and no chunk has two. -/
structure Linked (s : CodeData S K) : Prop where
  stored : ∀ e ∈ s.embeddings, (s.chunks.get e.chunkId).isSome
  unique : (s.embeddings.map ChunkEmbedding.chunkId).Nodup

theorem linked_empty : (empty : CodeData S K).Linked where
  stored e he := by cases he
  unique := .nil

theorem Linked.withChunks (h : s.Linked) (chunks : Table (CodeChunk K)) :
    (s.withChunks chunks).Linked where
  stored _ he := (List.mem_filter.mp he).2
  unique := h.unique.sublist (List.filter_sublist.map _)

theorem Linked.deletePaths (h : s.Linked) (p : String → Bool) : (s.deletePaths p).Linked :=
  ⟨(h.withChunks _).stored, (h.withChunks _).unique⟩

/-- The embeddings of the chunks that stay. -/
theorem embeddings_withChunks (chunks : Table (CodeChunk K)) {q : ChunkEmbedding → Bool}
    (h : ∀ e, (chunks.get e.chunkId).any (fun c => c.filePath = path) = (s.isOf path e && q e)) :
    ((s.withChunks chunks).embeddings.filter ((s.withChunks chunks).isOf path)) =
      (s.embeddings.filter (s.isOf path)).filter q := by
  rw [withChunks, List.filter_filter, List.filter_filter]
  refine List.filter_congr fun e _ => ?_
  have hany := h e
  rw [Bool.and_comm (q e), ← hany]
  show ((chunks.get e.chunkId).any (fun c => c.filePath = path) && _) = _
  cases chunks.get e.chunkId with
  | none => rfl
  | some c => exact Bool.and_true _

/-- What is left of a path when some paths go. -/
theorem filter_delete {α : Type} (f : α → String) (p : String → Bool) (l : List α) :
    (l.filter fun x => !p (f x)).filter (fun x => f x = path) =
      if p path then [] else l.filter fun x => f x = path := by
  rw [List.filter_filter]
  split
  · rename_i hp
    refine List.filter_eq_nil_iff.mpr fun x _ hx => ?_
    obtain ⟨hf, hn⟩ := Bool.and_eq_true_iff.mp hx
    rw [of_decide_eq_true hf, hp] at hn
    cases hn
  · rename_i hp
    refine List.filter_congr fun x _ => ?_
    by_cases hx : f x = path
    · simp [hx, hp]
    · simp [hx]

theorem fileData_deletePaths (p : String → Bool) :
    (s.deletePaths p).fileData path = if p path then .empty else s.fileData path := by
  have hrows : (s.deletePaths p).rowsOf path = if p path then [] else s.rowsOf path :=
    filter_delete (fun r : Nat × CodeChunk K => r.2.filePath) p s.chunks.rows
  have hsymbols : (s.deletePaths p).symbols.filter (fun x => x.filePath = path) =
      if p path then [] else s.symbols.filter fun x => x.filePath = path :=
    filter_delete CodeSymbol.filePath p s.symbols
  have hembeddings : (s.deletePaths p).embeddings.filter ((s.deletePaths p).isOf path) =
      (s.embeddings.filter (s.isOf path)).filter fun _ => !p path := by
    refine embeddings_withChunks (s.chunks.delete fun c => p c.filePath) fun e => ?_
    rw [Table.get_delete, isOf]
    cases s.chunks.get e.chunkId with
    | none => rfl
    | some c =>
      by_cases hc : c.filePath = path
      · cases hp : p path <;> simp [Option.filter, hc, hp]
      · cases hp : p c.filePath <;> simp [Option.filter, hc, hp]
  unfold fileData
  rw [hrows, hsymbols, hembeddings]
  split
  · rename_i hp
    simp [FileData.empty, hp]
  · rename_i hp
    simp [hp, deletePaths, withChunks]

theorem mem_staleCodeFilePaths {currentPaths : List String} :
    path ∈ s.staleCodeFilePaths currentPaths ↔ path ∉ currentPaths ∧ s.rowsOf path ≠ [] := by
  rw [staleCodeFilePaths, List.mem_dedup, List.mem_filter, decide_eq_true_eq, and_comm]
  refine and_congr_right fun _ => ?_
  rw [List.mem_map, Ne, List.eq_nil_iff_forall_not_mem, not_forall]
  refine exists_congr fun r => ?_
  rw [not_not, rowsOf, Table.select, List.mem_filter, decide_eq_true_eq]

theorem fileData_cleanupStaleCodeData (currentPaths : List String) :
    (s.cleanupStaleCodeData currentPaths).fileData path =
      if currentPaths = [] ∨ path ∉ currentPaths ∧ s.rowsOf path ≠ [] then .empty else s.fileData path := by
  unfold cleanupStaleCodeData
  by_cases hnil : currentPaths = []
  · rw [if_pos hnil, if_pos (.inl hnil), deleteAllCodeDataForRepo, fileData_deletePaths, if_pos rfl]
  · rw [if_neg hnil, fileData_deletePaths]
    simp only [decide_eq_true_eq, mem_staleCodeFilePaths, hnil, false_or]

theorem Linked.cleanupStaleCodeData (h : s.Linked) (currentPaths : List String) :
    (s.cleanupStaleCodeData currentPaths).Linked := by
  unfold CodeData.cleanupStaleCodeData
  split
  · exact h.deletePaths _
  · exact h.deletePaths _

theorem fileData_deleteCodeChunksByIds :
    (s.deleteCodeChunksByIds ids).fileData path =
      { symbols := (s.fileData path).symbols
        rows := (s.rowsOf path).filter fun r => r.1 ∉ ids
        versions := ((s.rowsOf path).filter fun r => r.1 ∉ ids).map fun r => s.savedBy r.1
        embeddings := (s.fileData path).embeddings.filter fun e => e.chunkId ∉ ids } := by
  have hrows : (s.deleteCodeChunksByIds ids).rowsOf path = (s.rowsOf path).filter fun r => r.1 ∉ ids := by
    show (s.chunks.rows.filter _).filter _ = (s.chunks.rows.filter _).filter _
    rw [List.filter_filter, List.filter_filter]
    refine List.filter_congr fun r _ => ?_
    rw [Bool.and_comm, decide_not]
  have hembeddings : (s.deleteCodeChunksByIds ids).embeddings.filter
      ((s.deleteCodeChunksByIds ids).isOf path) =
        (s.embeddings.filter (s.isOf path)).filter fun e => e.chunkId ∉ ids := by
    refine embeddings_withChunks (s.chunks.deleteKeys fun i => i ∈ ids) fun e => ?_
    rw [Table.get_deleteKeys, isOf]
    by_cases he : e.chunkId ∈ ids <;> simp [he]
  unfold fileData
  rw [hrows, hembeddings]
  rfl

/-- Chunks of other paths. -/
theorem fileData_deleteCodeChunksByIds_of_notMem (h : ∀ r ∈ s.rowsOf path, r.1 ∉ ids) :
    (s.deleteCodeChunksByIds ids).fileData path = s.fileData path := by
  have hrows : ((s.rowsOf path).filter fun r => r.1 ∉ ids) = s.rowsOf path :=
    List.filter_eq_self.mpr fun r hr => decide_eq_true (h r hr)
  have hembeddings : ((s.fileData path).embeddings.filter fun e => e.chunkId ∉ ids) =
      (s.fileData path).embeddings := by
    refine List.filter_eq_self.mpr fun e he => decide_eq_true ?_
    obtain ⟨r, hr, hid⟩ := isOf_iff.mp (List.mem_filter.mp he).2
    rw [← hid]
    exact h r hr
  rw [fileData_deleteCodeChunksByIds, hrows, hembeddings]
  rfl

theorem rows_deleteCodeChunksByIds_of_mem (h : ∀ r ∈ s.rowsOf path, r.1 ∈ ids) :
    ((s.deleteCodeChunksByIds ids).fileData path).rows = [] := by
  rw [fileData_deleteCodeChunksByIds]
  exact List.filter_eq_nil_iff.mpr fun r hr hn => of_decide_eq_true hn (h r hr)

theorem fileData_saveCodeSymbols (symbols : List (CodeSymbol S)) :
    (s.saveCodeSymbols symbols).fileData path =
      { s.fileData path with
        symbols := (s.fileData path).symbols ++ symbols.filter fun x => x.filePath = path } := by
  show FileData.mk ((s.symbols ++ symbols).filter _) _ _ _ = _
  rw [List.filter_append]
  rfl

/-! ### Chunks -/

theorem insertAll_fst (t : Table (CodeChunk K)) (cs : List (CodeChunk K)) :
    (insertAll t cs).1 = List.range' t.next cs.length := by
  induction cs generalizing t with
  | nil => rfl
  | cons c cs ih =>
    show t.next :: (insertAll (t.insert c) cs).1 = _
    rw [ih]
    rfl

theorem insertAll_rows (t : Table (CodeChunk K)) (cs : List (CodeChunk K)) :
    (insertAll t cs).2.rows = t.rows ++ (insertAll t cs).1.zip cs := by
  induction cs generalizing t with
  | nil => exact (List.append_nil _).symm
  | cons c cs ih =>
    show (insertAll (t.insert c) cs).2.rows = _
    rw [ih]
    exact List.append_assoc t.rows [(t.next, c)] _

variable {chunks : List (CodeChunk K)}

theorem ids_saveCodeChunks :
    (s.saveCodeChunks version chunks).1 = List.range' s.chunks.next chunks.length :=
  insertAll_fst s.chunks chunks

theorem nodup_ids_saveCodeChunks : (s.saveCodeChunks version chunks).1.Nodup := by
  rw [ids_saveCodeChunks]
  exact List.nodup_range'

/-- The keys are new ones. -/
theorem get_of_mem_ids {i : Nat} (hi : i ∈ (s.saveCodeChunks version chunks).1) : s.chunks.get i = none := by
  rw [ids_saveCodeChunks, List.mem_range'_1] at hi
  cases hg : s.chunks.get i with
  | none => rfl
  | some c =>
    have := Table.lt_next hg
    omega

theorem get_saveCodeChunks {i : Nat} (hi : i ∉ (s.saveCodeChunks version chunks).1) :
    (s.saveCodeChunks version chunks).2.chunks.get i = s.chunks.get i := by
  have hrows : (s.saveCodeChunks version chunks).2.chunks.rows =
      s.chunks.rows ++ (s.saveCodeChunks version chunks).1.zip chunks := insertAll_rows s.chunks chunks
  unfold Table.get
  rw [hrows, List.find?_append]
  have hnone : ((s.saveCodeChunks version chunks).1.zip chunks).find? (fun r => r.1 = i) = none := by
    refine List.find?_eq_none.mpr fun r hr he => hi ?_
    rw [← of_decide_eq_true he]
    exact (List.of_mem_zip hr).1
  rw [hnone, Option.or_none]

theorem stored_of_mem_ids {i : Nat} (hi : i ∈ (s.saveCodeChunks version chunks).1) :
    ((s.saveCodeChunks version chunks).2.chunks.get i).isSome := by
  have hlen : (s.saveCodeChunks version chunks).1.length = chunks.length := by
    rw [ids_saveCodeChunks, List.length_range']
  obtain ⟨n, hn, rfl⟩ := List.getElem_of_mem hi
  have hget : (s.saveCodeChunks version chunks).2.chunks.get (s.saveCodeChunks version chunks).1[n] =
      some chunks[n] := by
    refine Table.get_eq_some.mpr ?_
    show _ ∈ (insertAll s.chunks chunks).2.rows
    rw [insertAll_rows]
    refine List.mem_append_right _ (List.mem_iff_getElem.mpr ⟨n, ?_, List.getElem_zip⟩)
    rw [List.length_zip]
    exact Nat.lt_min.mpr ⟨hn, hlen ▸ hn⟩
  rw [hget]
  rfl

theorem Linked.saveCodeChunks (h : s.Linked) : (s.saveCodeChunks version chunks).2.Linked where
  stored e he := by
    have hs := h.stored e he
    rw [get_saveCodeChunks fun hi => by rw [get_of_mem_ids hi] at hs; cases hs]
    exact hs
  unique := h.unique

/-- The new rows of a path. -/
def newRows (s : CodeData S K) (version : String) (chunks : List (CodeChunk K)) (path : String) :
    List (Nat × CodeChunk K) :=
  ((s.saveCodeChunks version chunks).1.zip chunks).filter fun r => r.2.filePath = path

theorem map_snd_newRows :
    (s.newRows version chunks path).map Prod.snd = chunks.filter fun c => c.filePath = path := by
  have hzip : ((s.saveCodeChunks version chunks).1.zip chunks).map Prod.snd = chunks :=
    List.map_snd_zip (Nat.le_of_eq (by rw [ids_saveCodeChunks, List.length_range']))
  conv_rhs => rw [← hzip, List.filter_map]
  rfl

theorem mem_ids_of_mem_newRows {r : Nat × CodeChunk K} (hr : r ∈ s.newRows version chunks path) :
    r.1 ∈ (s.saveCodeChunks version chunks).1 :=
  (List.of_mem_zip (a := r.1) (b := r.2) (List.mem_of_mem_filter hr)).1

theorem rowsOf_saveCodeChunks :
    (s.saveCodeChunks version chunks).2.rowsOf path = s.rowsOf path ++ s.newRows version chunks path := by
  show (insertAll s.chunks chunks).2.rows.filter _ = _
  rw [insertAll_rows, List.filter_append]
  rfl

theorem fileData_saveCodeChunks (h : s.Linked) :
    (s.saveCodeChunks version chunks).2.fileData path =
      { s.fileData path with
        rows := s.rowsOf path ++ s.newRows version chunks path
        versions := (s.fileData path).versions ++ (s.newRows version chunks path).map fun _ => version } := by
  have hversions : ((s.saveCodeChunks version chunks).2.rowsOf path).map
      (fun r => (s.saveCodeChunks version chunks).2.savedBy r.1) =
        (s.fileData path).versions ++ (s.newRows version chunks path).map fun _ => version := by
    rw [rowsOf_saveCodeChunks, List.map_append]
    congr 1
    · refine List.map_congr_left fun r hr => if_neg fun hi => ?_
      have hget := (mem_rowsOf.mp hr).1
      have hi : r.1 ∈ (s.saveCodeChunks version chunks).1 := hi
      rw [get_of_mem_ids hi] at hget
      cases hget
    · exact List.map_congr_left fun r hr => if_pos (mem_ids_of_mem_newRows hr)
  have hembeddings : s.embeddings.filter ((s.saveCodeChunks version chunks).2.isOf path) =
      s.embeddings.filter (s.isOf path) := by
    refine List.filter_congr fun e he => ?_
    have hs := h.stored e he
    rw [isOf, get_saveCodeChunks fun hi => by rw [get_of_mem_ids hi] at hs; cases hs]
    rfl
  unfold fileData at hversions ⊢
  rw [hversions, rowsOf_saveCodeChunks]
  exact congrArg (FileData.mk _ _ _) hembeddings

/-! ### Embeddings -/

theorem saveCodeChunkEmbeddings_eq_ok (h : s.saveCodeChunkEmbeddings ids model = .ok s') :
    ids.Nodup ∧ (∀ i ∈ ids, (s.chunks.get i).isSome ∧ ∀ e ∈ s.embeddings, e.chunkId ≠ i) ∧
      s' = { s with embeddings := s.embeddings ++ ids.map fun i => ⟨i, model⟩ } := by
  unfold saveCodeChunkEmbeddings at h
  split at h
  · rename_i hids
    exact ⟨hids.1, hids.2, (Except.ok.inj h).symm⟩
  · cases h

theorem Linked.saveCodeChunkEmbeddings (h : s.Linked) (hs : s.saveCodeChunkEmbeddings ids model = .ok s') :
    s'.Linked := by
  obtain ⟨hids, hnew, rfl⟩ := saveCodeChunkEmbeddings_eq_ok hs
  constructor
  · intro e he
    rcases List.mem_append.mp he with he | he
    · exact h.stored e he
    · obtain ⟨i, hi, rfl⟩ := List.mem_map.mp he
      exact (hnew i hi).1
  · rw [List.map_append, List.map_map]
    refine List.Nodup.append h.unique ?_ ?_
    · simpa [Function.comp_def] using hids
    · intro i he hi
      obtain ⟨e, hmem, rfl⟩ := List.mem_map.mp he
      have hi : e.chunkId ∈ ids := by simpa [Function.comp_def] using hi
      exact (hnew _ hi).2 e hmem rfl

theorem fileData_saveCodeChunkEmbeddings (hs : s.saveCodeChunkEmbeddings ids model = .ok s') :
    s'.fileData path =
      { s.fileData path with
        embeddings := (s.fileData path).embeddings ++
          (ids.map fun i => ⟨i, model⟩).filter (s.isOf path) } := by
  obtain ⟨-, -, rfl⟩ := saveCodeChunkEmbeddings_eq_ok hs
  show FileData.mk _ _ _ ((s.embeddings ++ _).filter (s.isOf path)) = _
  rw [List.filter_append]
  rfl

end CodeData

end Claudear.Storage
