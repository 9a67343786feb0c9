import Claudear.Machine.Cut
import Claudear.Storage.CodeIndex

/-!
# The code indexer

`index_repo` walks the source files of a repository. A file whose hash is indexed
is skipped, any other has its rows deleted, is parsed and waits; when enough
chunks wait they are flushed: saved, embedded and given their embeddings, or
deleted again when they cannot be embedded. In the end the rows of paths that
are gone are deleted and the version of the indexer is put down.

Another version or another embedding model than the one found makes the run a
full one, that deletes everything first.

`chunk_file` is a parameter, one for each version of the indexer, and so are the
language of a path and the hash. The files of a group are read in parallel; each only touches rows of its
own path, so one after another does the same, and a run that is cut off while
some are deleted already is one in which the others fail.
-/

namespace Claudear.Analysis.Indexing

open Claudear.Storage Claudear.Machine

variable {L S K : Type}

/-- A file that the walk collects. -/
structure SourceFile where
  path : String
  content : String
  deriving DecidableEq, Repr

abbrev Chunked (S K : Type) := Except Error (List (CodeSymbol S) × List (CodeChunk K))

/-- `sha256_hex`, and what each version of the indexer makes of a file. -/
structure Pipeline (L S K : Type) where
  sha256 : String → String
  /-- `Language::from_extension`, `Language::from_filename` -/
  language : String → String → L
  chunkFile : String → String → L → String → String → Chunked S K
  buildEmbeddingText : String → String → String

/-- What a version makes of a file. -/
def Pipeline.chunked (P : Pipeline L S K) (version : String) (f : SourceFile) : Chunked S K :=
  P.chunkFile version f.content (P.language version f.path) f.path (P.sha256 f.content)

/-- Distinct contents have distinct hashes, and symbols and chunks bear the path and the hash of their
file. -/
structure Pipeline.Lawful (P : Pipeline L S K) : Prop where
  injective : Function.Injective P.sha256
  symbols : ∀ {version source language path hash symbols chunks},
    P.chunkFile version source language path hash = .ok (symbols, chunks) →
      ∀ x ∈ symbols, x.filePath = path
  chunks : ∀ {version source language path hash symbols chunks},
    P.chunkFile version source language path hash = .ok (symbols, chunks) →
      ∀ c ∈ chunks, c.filePath = path ∧ c.fileHash = hash ∧ c.contentHash = none

structure CodeIndexer where
  /-- `CODE_INDEX_VERSION` -/
  version : String
  model : String
  batchSize : Nat
  forceReindex : Bool

inductive Req (S K : Type) : Type → Type 1 where
  | getIndexVersion : Req S K (Except Error (Option String))
  | getCodeEmbeddingModel : Req S K (Except Error (Option String))
  | deleteAllCodeDataForRepo : Req S K (Except Error Unit)
  | readToString (f : SourceFile) : Req S K (Except Error String)
  | codeChunkHashMatches (path hash : String) : Req S K (Except Error Bool)
  | deleteCodeDataForFile (path : String) : Req S K (Except Error Unit)
  | saveCodeSymbols (symbols : List (CodeSymbol S)) : Req S K (Except Error Unit)
  | saveCodeChunks (version : String) (chunks : List (CodeChunk K)) : Req S K (Except Error (List Nat))
  /-- The number of vectors that come back. -/
  | embedBatch (texts : List String) : Req S K (Except Error Nat)
  | saveCodeChunkEmbeddings (ids : List Nat) (model : String) : Req S K (Except Error Unit)
  | deleteCodeChunksByIds (ids : List Nat) : Req S K (Except Error Unit)
  | cleanupStaleCodeData (currentPaths : List String) : Req S K (Except Error Unit)
  | setIndexVersion (version : String) : Req S K (Except Error Unit)

abbrev Run (S K α : Type) := ExceptT Error (Prog (Req S K)) α

def ask {β : Type} (c : Req S K β) : Prog (Req S K) β := .perform c

def try_ {β : Type} (c : Req S K (Except Error β)) : Run S K β := ExceptT.mk (ask c)

inductive FileProcessResult (S K : Type) where
  | parsed (path : String) (symbols : List (CodeSymbol S)) (chunks : List (CodeChunk K))
  | skipped (path : String)
  | failed

variable (P : Pipeline L S K) (b : CodeIndexer)

/-! ## Full runs -/

def modelChanged : Prog (Req S K) Bool := do
  match ← ask .getCodeEmbeddingModel with
  | .ok (some stored) => return stored ≠ b.model
  | .ok none | .error _ => return false

def needsFullReindex : Prog (Req S K) Bool :=
  if b.forceReindex then pure true
  else do
    match ← ask .getIndexVersion with
    | .ok (some stored) => if stored ≠ b.version then return true else modelChanged b
    | .ok none | .error _ => modelChanged b

/-! ## Files -/

def processFile (f : SourceFile) : Prog (Req S K) (FileProcessResult S K) := do
  match ← ask (.readToString f) with
  | .error _ => return .failed
  | .ok content =>
    match ← ask (.codeChunkHashMatches f.path (P.sha256 content)) with
    | .ok true => return .skipped f.path
    | .error _ => return .failed
    | .ok false =>
      match ← ask (.deleteCodeDataForFile f.path) with
      | .error _ => return .failed
      | .ok () =>
        match P.chunkFile b.version content (P.language b.version f.path) f.path (P.sha256 content) with
        | .ok (symbols, chunks) => return .parsed f.path symbols chunks
        | .error _ => return .failed

def processFiles : List (SourceFile) → Prog (Req S K) (List (FileProcessResult S K))
  | [] => pure []
  | f :: fs => do
    let result ← processFile P b f
    let results ← processFiles fs
    return result :: results

/-! ## Flushes -/

def hashed (c : CodeChunk K) : CodeChunk K := { c with contentHash := some (P.sha256 c.chunkText) }

/-- The content hashes, each once, in the order in which they first occur. -/
def uniqueHashes (chunks : List (CodeChunk K)) : List (Option String) :=
  (chunks.map CodeChunk.contentHash).eraseDups

/-- The text of the first chunk with the hash. -/
def embeddingText (chunks : List (CodeChunk K)) (hash : Option String) : String :=
  match chunks.find? fun c => c.contentHash = hash with
  | some c => P.buildEmbeddingText c.contextText c.chunkText
  | none => ""

/-- The chunks whose text has a vector. -/
def embedded (ids : List Nat) (chunks : List (CodeChunk K)) (vectors : Nat) : List Nat :=
  ((ids.zip chunks).filter fun r => (uniqueHashes chunks).idxOf r.2.contentHash < vectors).map Prod.fst

/-- A deletion that fails leaves chunks without embeddings. -/
def discardChunks (ids : List Nat) : Prog (Req S K) Unit := do
  let _ ← ask (.deleteCodeChunksByIds ids)

/-- From the request for embeddings on. -/
def embedChunks (ids : List Nat) (chunks : List (CodeChunk K)) : Run S K Unit := do
  match ← ExceptT.lift (ask (.embedBatch ((uniqueHashes chunks).map (embeddingText P chunks)))) with
  | .ok vectors =>
    match ← ExceptT.lift (ask (.saveCodeChunkEmbeddings (embedded ids chunks vectors) b.model)) with
    | .ok () => return ()
    | .error e =>
      ExceptT.lift (discardChunks ids)
      throw e
  | .error _ => ExceptT.lift (discardChunks ids)

def saveChunks (chunks : List (CodeChunk K)) : Run S K Unit :=
  if chunks = [] then pure ()
  else do
    let ids ← try_ (.saveCodeChunks b.version (chunks.map (hashed P)))
    embedChunks P b ids (chunks.map (hashed P))

def flushBatch (symbols : List (CodeSymbol S)) (chunks : List (CodeChunk K)) : Run S K Unit := do
  if symbols ≠ [] then try_ (.saveCodeSymbols symbols)
  saveChunks P b chunks

/-! ## Runs -/

/-- What a run has seen so far, and what waits for a flush. -/
structure Pending (S K : Type) where
  seen : List String := []
  symbols : List (CodeSymbol S) := []
  chunks : List (CodeChunk K) := []

def Pending.take (p : Pending S K) : FileProcessResult S K → Pending S K
  | .parsed path symbols chunks =>
    { seen := p.seen ++ [path], symbols := p.symbols ++ symbols, chunks := p.chunks ++ chunks }
  | .skipped path => { p with seen := p.seen ++ [path] }
  | .failed => p

def takeResult (p : Pending S K) (result : FileProcessResult S K) : Run S K (Pending S K) :=
  if b.batchSize ≤ (p.take result).chunks.length then do
    flushBatch P b (p.take result).symbols (p.take result).chunks
    return { seen := (p.take result).seen }
  else pure (p.take result)

def takeResults : Pending S K → List (FileProcessResult S K) → Run S K (Pending S K)
  | p, [] => pure p
  | p, result :: results => do takeResults (← takeResult P b p result) results

def indexGroups : Pending S K → List (List (SourceFile)) → Run S K (Pending S K)
  | p, [] => pure p
  | p, group :: groups => do
    let results ← ExceptT.lift (processFiles P b group)
    indexGroups (← takeResults P b p results) groups

def finishRun (p : Pending S K) : Run S K Unit := do
  if ¬ (p.chunks = [] ∧ p.symbols = []) then flushBatch P b p.symbols p.chunks
  try_ (.cleanupStaleCodeData p.seen)
  let _ ← ExceptT.lift (ask (.setIndexVersion b.version))

/-- The groups are the files the walk collects, as many at a time as are read in parallel. -/
def indexRepo (groups : List (List (SourceFile))) : Run S K Unit := do
  if ← ExceptT.lift (needsFullReindex b) then try_ .deleteAllCodeDataForRepo
  let p ← indexGroups P b {} groups
  finishRun P b p

/-! ## What the calls do -/

/-- How a call goes: it may fail, and fewer vectors may come back than texts were sent. A run goes on when
what it reads or writes of the index itself, its version and its model, fails; that is `metaError`. -/
structure Luck where
  error : Option Error := none
  metaError : Option Error := none
  vectors : Nat → Nat := id

/-- A call that fails leaves the state as it is. -/
def orFail {σ β : Type} (error : Option Error) (s : σ) (r : Except Error β × σ) : Except Error β × σ :=
  match error with
  | some error => (.error error, s)
  | none => r

def saveEmbeddings (s : CodeData S K) (ids : List Nat) (model : String) : Except Error Unit × CodeData S K :=
  match s.saveCodeChunkEmbeddings ids model with
  | .ok s' => (.ok (), s')
  | .error e => (.error e, s)

def answer {β : Type} (luck : Luck) : Req S K β → CodeData S K → β × CodeData S K
  | .getIndexVersion, s => orFail luck.metaError s (.ok s.indexVersion, s)
  | .getCodeEmbeddingModel, s => orFail luck.metaError s (.ok s.getCodeEmbeddingModel, s)
  | .deleteAllCodeDataForRepo, s => orFail luck.error s (.ok (), s.deleteAllCodeDataForRepo)
  | .readToString f, s => orFail luck.error s (.ok f.content, s)
  | .codeChunkHashMatches path hash, s => orFail luck.error s (.ok (s.codeChunkHashMatches path hash), s)
  | .deleteCodeDataForFile path, s => orFail luck.error s (.ok (), s.deleteCodeDataForFile path)
  | .saveCodeSymbols symbols, s => orFail luck.error s (.ok (), s.saveCodeSymbols symbols)
  | .saveCodeChunks version chunks, s =>
    orFail luck.error s (.ok (s.saveCodeChunks version chunks).1, (s.saveCodeChunks version chunks).2)
  | .embedBatch texts, s => orFail luck.error s (.ok (luck.vectors texts.length), s)
  | .saveCodeChunkEmbeddings ids model, s => orFail luck.error s (saveEmbeddings s ids model)
  | .deleteCodeChunksByIds ids, s => orFail luck.error s (.ok (), s.deleteCodeChunksByIds ids)
  | .cleanupStaleCodeData currentPaths, s => orFail luck.error s (.ok (), s.cleanupStaleCodeData currentPaths)
  | .setIndexVersion version, s => orFail luck.metaError s (.ok (), s.setIndexVersion version)

/-- The calls of a run, by their number; the run is cut off at the first that has no luck at all. -/
abbrev Course := Nat → Option Luck

def serve (course : Course) {β : Type} (c : Req S K β) (s : CodeData S K × Nat) :
    Option (β × (CodeData S K × Nat)) :=
  (course s.2).map fun luck => ((answer luck c s.1).1, ((answer luck c s.1).2, s.2 + 1))

/-- A run of the indexer: on which files, and how its calls go. -/
structure IndexRun where
  indexer : CodeIndexer
  groups : List (List (SourceFile))
  /-- A walk finds a path once. -/
  distinct : (groups.flatten.map SourceFile.path).Nodup
  course : Course

def IndexRun.files (r : IndexRun) : List (SourceFile) := r.groups.flatten

def IndexRun.step (P : Pipeline L S K) (s : CodeData S K) (r : IndexRun) : CodeData S K :=
  (Prog.cut (serve r.course) (indexRepo P r.indexer r.groups).run (s, 0)).2.1

end Claudear.Analysis.Indexing
