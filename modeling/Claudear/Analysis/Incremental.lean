import Claudear.Analysis.CodeIndexer
import Mathlib.Data.List.Forall2

/-!
# Incremental indexing

What is stored of a path is, at every call of any run, nothing or all that some
version of the indexer made of some content of the file (`Sound`): a run deletes
what it finds of a path before it parses the file, and saves and discards the
chunks of a file together.

So a run that goes well leaves what its version makes of the files (`Exact`), but
for two things that it takes over. A file whose hash is indexed stays as the
version left it that saved it, which need not be the version that the index is
marked with, since that mark comes at the end of a run. And the symbols of a path
without chunks are not found by the clean-up.
-/

namespace Claudear.Analysis.Indexing

open Claudear.Storage Claudear.Machine Claudear.Machine.Prog

variable {L S K : Type}

/-! ## What is expected -/

/-- The symbols and the chunks of the repository are what the version makes of the files, and every chunk
has one embedding. -/
structure Exact (P : Pipeline L S K) (b : CodeIndexer) (files : List SourceFile) (s : CodeData S K) : Prop where
  complete : ∀ f ∈ files, ∃ symbols chunks, P.chunked b.version f = .ok (symbols, chunks) ∧
    (s.fileData f.path).symbols = symbols ∧
    (s.fileData f.path).rows.map Prod.snd = chunks.map (hashed P)
  only : ∀ p, p ∉ files.map SourceFile.path → (s.fileData p).symbols = [] ∧ (s.fileData p).rows = []
  embedded : ∀ r ∈ s.chunks.rows, s.embeddings.filter (fun e => e.chunkId = r.1) = [⟨r.1, b.model⟩]

/-- The call does what it should, but for what it reads or writes of the index itself. -/
def Luck.Good (luck : Luck) : Prop := luck.error = none ∧ ∀ n, n ≤ luck.vectors n

/-- What a read of the index itself finds. -/
def found (luck : Option Luck) (stored : Option String) : Option String :=
  luck.bind fun luck => if luck.metaError.isNone then stored else none

/-- The run is a full one. -/
def IndexRun.reindexes (r : IndexRun) (s : CodeData S K) : Bool :=
  r.indexer.forceReindex || (found (r.course 0) s.indexVersion).any (· ≠ r.indexer.version) ||
    (found (r.course 1) s.getCodeEmbeddingModel).any (· ≠ r.indexer.model)

/-- What a run that is not a full one takes over is right: the files it skips were saved by a version that
makes the same of them, and embedded by its model, and whatever is stored of other paths has chunks, by
which it is found. -/
structure Fresh (P : Pipeline L S K) (r : IndexRun) (s : CodeData S K) : Prop where
  skipped : ∀ f ∈ r.files, s.codeChunkHashMatches f.path (P.sha256 f.content) = true →
    (∀ v ∈ (s.fileData f.path).versions, P.chunked v f = P.chunked r.indexer.version f) ∧
      ∀ e ∈ (s.fileData f.path).embeddings, e.embeddingModel = r.indexer.model
  gone : r.files = [] ∨
    ∀ x ∈ s.symbols, x.filePath ∉ r.files.map SourceFile.path → s.rowsOf x.filePath ≠ []

/-- A run that completes, with every file read and every batch embedded. -/
structure IndexRun.Flawless (P : Pipeline L S K) (r : IndexRun) : Prop where
  calls : ∀ n, ∃ luck, r.course n = some luck ∧ luck.Good
  parsed : ∀ f ∈ r.files, ∃ symbols chunks, P.chunked r.indexer.version f = .ok (symbols, chunks)

/-! ## What holds at every call -/

/-- All that some version makes of some content of the file. -/
def Whole (P : Pipeline L S K) (path : String) (d : FileData S K) : Prop :=
  ∃ version content symbols chunks, P.chunked version ⟨path, content⟩ = .ok (symbols, chunks) ∧
    d.symbols = symbols ∧ d.rows.map Prod.snd = chunks.map (hashed P) ∧ ∀ v ∈ d.versions, v = version

structure Sound (P : Pipeline L S K) (s : CodeData S K) : Prop where
  linked : s.Linked
  whole : ∀ path, (s.fileData path).rows = [] ∨ Whole P path (s.fileData path)

variable {P : Pipeline L S K} {b : CodeIndexer} {course : Course} {w : Prop} {α β : Type}
  {s : CodeData S K × Nat}

theorem sound_empty : Sound P (.empty : CodeData S K) := ⟨CodeData.linked_empty, fun _ => .inl rfl⟩

/-- What is stored of each path is as before, or nothing. -/
theorem Sound.of_fileData {s s' : CodeData S K} (h : Sound P s) (hl : s'.Linked)
    (hd : ∀ path, s'.fileData path = s.fileData path ∨ (s'.fileData path).rows = []) : Sound P s' where
  linked := hl
  whole path := by
    rcases hd path with e | e
    · rw [e]
      exact h.whole path
    · exact .inl e

theorem Sound.deletePaths {s : CodeData S K} (h : Sound P s) (p : String → Bool) : Sound P (s.deletePaths p) := by
  refine h.of_fileData (h.linked.deletePaths p) fun path => ?_
  rw [CodeData.fileData_deletePaths]
  split
  · exact .inr rfl
  · exact .inl rfl

theorem Sound.setIndexVersion {s : CodeData S K} (h : Sound P s) (version : String) :
    Sound P (s.setIndexVersion version) :=
  h.of_fileData ⟨h.linked.stored, h.linked.unique⟩ fun _ => .inl rfl

/-! ## Rules

`w` says that the run goes well; a program that ends early or with an error does
so in a run that does not. -/

def Ends (P : Pipeline L S K) (w : Prop) (J : α → CodeData S K → Prop) : Option α → CodeData S K × Nat → Prop
  | some a, s => J a s.1
  | none, s => Sound P s.1 ∧ ¬ w

def TryEnds (P : Pipeline L S K) (w : Prop) (J : α → CodeData S K → Prop) : Except Error α → CodeData S K → Prop
  | .ok a, s => J a s
  | .error _, s => Sound P s ∧ ¬ w

abbrev Runs (P : Pipeline L S K) (w : Prop) (course : Course) (p : Prog (Req S K) α)
    (J : α → CodeData S K → Prop) (s : CodeData S K × Nat) : Prop :=
  Leaves (serve course) p (Ends P w J) s

abbrev Tries (P : Pipeline L S K) (w : Prop) (course : Course) (p : Run S K α)
    (J : α → CodeData S K → Prop) (s : CodeData S K × Nat) : Prop :=
  Runs P w course p.run (TryEnds P w J) s

variable {J J' : α → CodeData S K → Prop} {H : β → CodeData S K → Prop}

theorem runs_pure {a : α} (h : J a s.1) : Runs P w course (pure a) J s := leaves_pure h

theorem tries_pure {a : α} (h : J a s.1) : Tries P w course (pure a) J s := leaves_pure h

/-- The rule for a call, told its number. -/
theorem runs_numbered (hw : w → ∀ n, ∃ luck, course n = some luck ∧ luck.Good) (hs : Sound P s.1)
    {c : Req S K α} {f : α → Prog (Req S K) β}
    (h : ∀ luck, course s.2 = some luck → (w → luck.Good) →
      Runs P w course (f (answer luck c s.1).1) H ((answer luck c s.1).2, s.2 + 1)) :
    Runs P w course (ask c >>= f) H s := by
  refine leaves_call (fun hnone => ⟨hs, fun hgood => ?_⟩) fun a s' hsome => ?_
  · obtain ⟨luck, hluck, -⟩ := hw hgood s.2
    rw [serve, hluck] at hnone
    cases hnone
  · obtain ⟨luck, hluck, e⟩ := Option.map_eq_some_iff.mp hsome
    cases e
    refine h luck hluck fun hgood => ?_
    obtain ⟨luck', hluck', hgood'⟩ := hw hgood s.2
    rw [hluck] at hluck'
    cases hluck'
    exact hgood'

theorem runs_call (hw : w → ∀ n, ∃ luck, course n = some luck ∧ luck.Good) (hs : Sound P s.1)
    {c : Req S K α} {f : α → Prog (Req S K) β}
    (h : ∀ luck n, (w → luck.Good) →
      Runs P w course (f (answer luck c s.1).1) H ((answer luck c s.1).2, n)) :
    Runs P w course (ask c >>= f) H s :=
  runs_numbered hw hs fun luck _ hgood => h luck (s.2 + 1) hgood

theorem Runs.bind {p : Prog (Req S K) α} {f : α → Prog (Req S K) β} (h : Runs P w course p J s)
    (hf : ∀ a s, J a s.1 → Runs P w course (f a) H s) : Runs P w course (p >>= f) H s :=
  Leaves.bind h (fun _ hn => hn) fun a s' ha => hf a s' ha

theorem Tries.bind {p : Run S K α} {f : α → Run S K β} (h : Tries P w course p J s)
    (hf : ∀ a s, J a s.1 → Tries P w course (f a) H s) : Tries P w course (p >>= f) H s := by
  refine Leaves.bind h (fun _ hn => hn) fun r s' hr => ?_
  cases r with
  | ok a => exact hf a s' hr
  | error e => exact leaves_pure hr

theorem Tries.mono {p : Run S K α} (h : Tries P w course p J s) (hJ : ∀ a s, J a s → J' a s) :
    Tries P w course p J' s := by
  refine Leaves.mono h fun r s' hr => ?_
  match r, hr with
  | some (.ok a), hr => exact hJ a s'.1 hr
  | some (.error e), hr => exact hr
  | none, hr => exact hr

theorem tries_lift {p : Prog (Req S K) α} {f : α → Run S K β} (h : Runs P w course p J s)
    (hf : ∀ a s, J a s.1 → Tries P w course (f a) H s) : Tries P w course (ExceptT.lift p >>= f) H s := by
  have hl : Tries P w course (ExceptT.lift p) J s := Runs.bind h fun a s ha => tries_pure ha
  exact hl.bind hf

/-- A call that does not fail in a run that goes well. -/
theorem tries_call (hw : w → ∀ n, ∃ luck, course n = some luck ∧ luck.Good) (hs : Sound P s.1)
    {c : Req S K (Except Error α)} {f : α → Run S K β} {a : α} {s' : CodeData S K}
    (hc : ∀ luck : Luck, answer luck c s.1 = orFail luck.error s.1 (.ok a, s'))
    (hok : ∀ n, Tries P w course (f a) H (s', n)) : Tries P w course (try_ c >>= f) H s := by
  refine runs_call (P := P) hw hs fun luck n hgood => ?_
  rw [hc]
  cases he : luck.error with
  | some error => exact leaves_pure ⟨hs, fun h => by rw [(hgood h).1] at he; cases he⟩
  | none => exact hok n

/-! ## A batch -/

def symbolsIn (P : Pipeline L S K) (version : String) (f : SourceFile) : List (CodeSymbol S) :=
  match P.chunked version f with
  | .ok r => r.1
  | .error _ => []

def chunksIn (P : Pipeline L S K) (version : String) (f : SourceFile) : List (CodeChunk K) :=
  match P.chunked version f with
  | .ok r => r.2
  | .error _ => []

def Parsed (P : Pipeline L S K) (version : String) (f : SourceFile) : Prop :=
  P.chunked version f = .ok (symbolsIn P version f, chunksIn P version f)

theorem parsed_of_eq_ok {version : String} {f : SourceFile} {symbols : List (CodeSymbol S)}
    {chunks : List (CodeChunk K)} (h : P.chunked version f = .ok (symbols, chunks)) :
    symbolsIn P version f = symbols ∧ chunksIn P version f = chunks := by
  unfold symbolsIn chunksIn
  rw [h]
  exact ⟨rfl, rfl⟩

variable {version : String} {f : SourceFile} {fs : List SourceFile}

theorem path_of_mem_symbolsIn (hP : P.Lawful) {x : CodeSymbol S} (hx : x ∈ symbolsIn P version f) :
    x.filePath = f.path := by
  unfold symbolsIn at hx
  split at hx
  · exact hP.symbols ‹_› x hx
  · cases hx

theorem of_mem_chunksIn (hP : P.Lawful) {c : CodeChunk K} (hc : c ∈ chunksIn P version f) :
    c.filePath = f.path ∧ c.fileHash = P.sha256 f.content ∧ c.contentHash = none := by
  unfold chunksIn at hc
  split at hc
  · exact hP.chunks ‹_› c hc
  · cases hc

/-- What the files of distinct paths have of one path. -/
theorem filter_flatMap_of_mem {key : α → String} {l : SourceFile → List α}
    (hkey : ∀ f, ∀ a ∈ l f, key a = f.path) (hn : (fs.map SourceFile.path).Nodup) (hf : f ∈ fs) :
    (fs.flatMap l).filter (fun a => key a = f.path) = l f := by
  induction fs with
  | nil => cases hf
  | cons g fs ih =>
    obtain ⟨hg, hn⟩ := List.nodup_cons.mp hn
    rw [List.flatMap_cons, List.filter_append]
    have hown : (l f).filter (fun a => key a = f.path) = l f :=
      List.filter_eq_self.mpr fun a ha => decide_eq_true (hkey f a ha)
    have hother : ∀ g h : SourceFile, h.path ≠ g.path → (l g).filter (fun a => key a = h.path) = [] := by
      intro g h hne
      refine List.filter_eq_nil_iff.mpr fun a ha he => hne ?_
      rw [← hkey g a ha]
      exact (of_decide_eq_true he).symm
    rcases List.mem_cons.mp hf with rfl | hf
    · have hrest : (fs.flatMap l).filter (fun a => key a = f.path) = [] := by
        refine List.filter_eq_nil_iff.mpr fun a ha he => hg ?_
        obtain ⟨h, hh, ha⟩ := List.mem_flatMap.mp ha
        rw [← of_decide_eq_true he, hkey h a ha]
        exact List.mem_map_of_mem hh
      rw [hown, hrest, List.append_nil]
    · have hne : f.path ≠ g.path := fun e => hg (e ▸ List.mem_map_of_mem hf)
      rw [hother g f hne, ih hn hf, List.nil_append]

theorem filter_flatMap_of_notMem {key : α → String} {l : SourceFile → List α} {path : String}
    (hkey : ∀ f, ∀ a ∈ l f, key a = f.path) (hp : path ∉ fs.map SourceFile.path) :
    (fs.flatMap l).filter (fun a => key a = path) = [] := by
  refine List.filter_eq_nil_iff.mpr fun a ha he => hp ?_
  obtain ⟨f, hf, ha⟩ := List.mem_flatMap.mp ha
  rw [← of_decide_eq_true he, hkey f a ha]
  exact List.mem_map_of_mem hf

/-- The files that wait for a flush have nothing stored. -/
structure Waiting (P : Pipeline L S K) (b : CodeIndexer) (symbols : List (CodeSymbol S))
    (chunks : List (CodeChunk K)) (fs : List SourceFile) (s : CodeData S K) : Prop where
  distinct : (fs.map SourceFile.path).Nodup
  parsed : ∀ f ∈ fs, Parsed P b.version f
  symbols : symbols = fs.flatMap (symbolsIn P b.version)
  chunks : chunks = fs.flatMap (chunksIn P b.version)
  bare : ∀ f ∈ fs, s.fileData f.path = .empty

theorem waiting_nil (s : CodeData S K) : Waiting P b [] [] [] s where
  distinct := .nil
  parsed f hf := by cases hf
  symbols := rfl
  chunks := rfl
  bare f hf := by cases hf

/-- Every other path has what it had. -/
def SameOutside (fs : List SourceFile) (s s' : CodeData S K) : Prop :=
  ∀ path, path ∉ fs.map SourceFile.path → s'.fileData path = s.fileData path

theorem SameOutside.trans {s s' s'' : CodeData S K} (h : SameOutside fs s s') (h' : SameOutside fs s' s'') :
    SameOutside fs s s'' := fun path hp => (h' path hp).trans (h path hp)

theorem SameOutside.mono {gs : List SourceFile} {s s' : CodeData S K} (h : SameOutside fs s s')
    (hsub : ∀ f ∈ fs, f ∈ gs) : SameOutside gs s s' := by
  refine fun path hp => h path fun hm => hp ?_
  obtain ⟨f, hf, rfl⟩ := List.mem_map.mp hm
  exact List.mem_map_of_mem (hsub f hf)

/-! ### Symbols -/

/-- The symbols are in. -/
structure Listed (P : Pipeline L S K) (b : CodeIndexer) (fs : List SourceFile) (s s' : CodeData S K) : Prop where
  sound : Sound P s'
  others : SameOutside fs s s'
  listed : ∀ f ∈ fs, s'.fileData f.path = ⟨symbolsIn P b.version f, [], [], []⟩

theorem Waiting.listed (hP : P.Lawful) {symbols : List (CodeSymbol S)} {chunks : List (CodeChunk K)}
    {s : CodeData S K} (h : Waiting P b symbols chunks fs s) (hs : Sound P s) :
    Listed P b fs s (s.saveCodeSymbols symbols) := by
  have hothers : SameOutside fs s (s.saveCodeSymbols symbols) := fun path hp => by
    rw [CodeData.fileData_saveCodeSymbols, h.symbols,
      filter_flatMap_of_notMem (fun _ _ => path_of_mem_symbolsIn hP) hp, List.append_nil]
  have hlisted : ∀ f ∈ fs, (s.saveCodeSymbols symbols).fileData f.path =
      ⟨symbolsIn P b.version f, [], [], []⟩ := fun f hf => by
    rw [CodeData.fileData_saveCodeSymbols, h.symbols,
      filter_flatMap_of_mem (fun _ _ => path_of_mem_symbolsIn hP) h.distinct hf, h.bare f hf]
    rfl
  refine ⟨hs.of_fileData ⟨hs.linked.stored, hs.linked.unique⟩ fun path => ?_, hothers, hlisted⟩
  by_cases hp : path ∈ fs.map SourceFile.path
  · obtain ⟨f, hf, rfl⟩ := List.mem_map.mp hp
    rw [hlisted f hf]
    exact .inr rfl
  · exact .inl (hothers path hp)

/-! ### Chunks -/

/-- The chunks are in, under the keys, without embeddings. -/
structure Saved (P : Pipeline L S K) (b : CodeIndexer) (fs : List SourceFile) (ids : List Nat)
    (s s' : CodeData S K) : Prop where
  sound : Sound P s'
  others : SameOutside fs s s'
  nodup : ids.Nodup
  keys : ∀ path, ∀ r ∈ s'.rowsOf path, r.1 ∈ ids ↔ path ∈ fs.map SourceFile.path
  stored : ∀ i ∈ ids, (s'.chunks.get i).isSome ∧ ∀ e ∈ s'.embeddings, e.chunkId ≠ i
  symbols : ∀ f ∈ fs, (s'.fileData f.path).symbols = symbolsIn P b.version f
  rows : ∀ f ∈ fs, (s'.fileData f.path).rows.map Prod.snd = (chunksIn P b.version f).map (hashed P)
  embeddings : ∀ f ∈ fs, (s'.fileData f.path).embeddings = []

theorem map_hashed_flatMap (P : Pipeline L S K) (l : SourceFile → List (CodeChunk K)) :
    (fs.flatMap l).map (hashed P) = fs.flatMap fun f => (l f).map (hashed P) := List.map_flatMap ..

theorem path_of_mem_hashed (hP : P.Lawful) {c : CodeChunk K}
    (hc : c ∈ (chunksIn P version f).map (hashed P)) : c.filePath = f.path := by
  obtain ⟨c, hmem, rfl⟩ := List.mem_map.mp hc
  exact (of_mem_chunksIn hP hmem).1

theorem Listed.saved (hP : P.Lawful) {s s' : CodeData S K} (h : Listed P b fs s s')
    (hn : (fs.map SourceFile.path).Nodup) (hparsed : ∀ f ∈ fs, Parsed P b.version f)
    {chunks : List (CodeChunk K)} (hchunks : chunks = (fs.flatMap (chunksIn P b.version)).map (hashed P)) :
    Saved P b fs (s'.saveCodeChunks b.version chunks).1 s (s'.saveCodeChunks b.version chunks).2 := by
  rw [map_hashed_flatMap] at hchunks
  have hdata : ∀ path, (s'.saveCodeChunks b.version chunks).2.fileData path =
      { s'.fileData path with
        rows := s'.rowsOf path ++ s'.newRows b.version chunks path
        versions := (s'.fileData path).versions ++ (s'.newRows b.version chunks path).map fun _ => b.version } :=
    fun _ => CodeData.fileData_saveCodeChunks h.sound.linked
  have hnew : ∀ f ∈ fs, (s'.newRows b.version chunks f.path).map Prod.snd =
      (chunksIn P b.version f).map (hashed P) := fun f hf => by
    rw [CodeData.map_snd_newRows, hchunks,
      filter_flatMap_of_mem (fun _ _ => path_of_mem_hashed hP) hn hf]
  have hnone : ∀ path, path ∉ fs.map SourceFile.path → s'.newRows b.version chunks path = [] :=
    fun path hp => List.map_eq_nil_iff.mp (by
      rw [CodeData.map_snd_newRows, hchunks, filter_flatMap_of_notMem (fun _ _ => path_of_mem_hashed hP) hp])
  have hrows : ∀ f ∈ fs, s'.rowsOf f.path = [] := fun f hf => congrArg FileData.rows (h.listed f hf)
  have hfile : ∀ f ∈ fs, (s'.saveCodeChunks b.version chunks).2.fileData f.path =
      ⟨symbolsIn P b.version f, s'.newRows b.version chunks f.path,
        (s'.newRows b.version chunks f.path).map fun _ => b.version, []⟩ := fun f hf => by
    rw [hdata, h.listed f hf, hrows f hf]
    rfl
  have hothers : SameOutside fs s' (s'.saveCodeChunks b.version chunks).2 := fun path hp => by
    rw [hdata, hnone path hp, List.append_nil, List.map_nil, List.append_nil]
    rfl
  constructor
  · refine ⟨h.sound.linked.saveCodeChunks, fun path => ?_⟩
    by_cases hp : path ∈ fs.map SourceFile.path
    · obtain ⟨f, hf, rfl⟩ := List.mem_map.mp hp
      rw [hfile f hf]
      refine .inr ⟨b.version, f.content, _, _, hparsed f hf, rfl, hnew f hf, fun v hv => ?_⟩
      obtain ⟨r, -, rfl⟩ := List.mem_map.mp hv
      rfl
    · rw [hothers path hp]
      exact h.sound.whole path
  · exact h.others.trans hothers
  · exact CodeData.nodup_ids_saveCodeChunks
  · intro path r hr
    by_cases hp : path ∈ fs.map SourceFile.path
    · obtain ⟨f, hf, rfl⟩ := List.mem_map.mp hp
      rw [CodeData.rowsOf_saveCodeChunks, hrows f hf] at hr
      exact iff_of_true (CodeData.mem_ids_of_mem_newRows hr) hp
    · rw [CodeData.rowsOf_saveCodeChunks, hnone path hp, List.append_nil] at hr
      refine iff_of_false (fun hi => ?_) hp
      have hget := (CodeData.mem_rowsOf.mp hr).1
      rw [CodeData.get_of_mem_ids hi] at hget
      cases hget
  · refine fun i hi => ⟨CodeData.stored_of_mem_ids hi, fun e he hid => ?_⟩
    have hs := h.sound.linked.stored e he
    rw [hid, CodeData.get_of_mem_ids hi] at hs
    cases hs
  · exact fun f hf => congrArg FileData.symbols (hfile f hf)
  · exact fun f hf => (congrArg (fun d => d.rows.map Prod.snd) (hfile f hf)).trans (hnew f hf)
  · exact fun f hf => congrArg FileData.embeddings (hfile f hf)

/-! ### Embeddings -/

/-- What is stored of the path is what the version makes of the file, embedded by the model. -/
structure Done (P : Pipeline L S K) (b : CodeIndexer) (f : SourceFile) (d : FileData S K) : Prop where
  symbols : d.symbols = symbolsIn P b.version f
  rows : d.rows.map Prod.snd = (chunksIn P b.version f).map (hashed P)
  embedded : ∀ r ∈ d.rows, d.embeddings.filter (fun e => e.chunkId = r.1) = [⟨r.1, b.model⟩]

structure Flushed (P : Pipeline L S K) (b : CodeIndexer) (w : Prop) (fs : List SourceFile)
    (s s' : CodeData S K) : Prop where
  sound : Sound P s'
  others : SameOutside fs s s'
  done : w → ∀ f ∈ fs, Done P b f (s'.fileData f.path)

section Saved

variable {ids ids' : List Nat} {s s' s'' : CodeData S K} {model : String}

theorem Saved.discarded (h : Saved P b fs ids s s') :
    Sound P (s'.deleteCodeChunksByIds ids) ∧ SameOutside fs s (s'.deleteCodeChunksByIds ids) := by
  have hothers : SameOutside fs s' (s'.deleteCodeChunksByIds ids) := fun path hp =>
    CodeData.fileData_deleteCodeChunksByIds_of_notMem fun r hr hi => hp ((h.keys path r hr).mp hi)
  refine ⟨h.sound.of_fileData (h.sound.linked.withChunks _) fun path => ?_, h.others.trans hothers⟩
  by_cases hp : path ∈ fs.map SourceFile.path
  · exact .inr (CodeData.rows_deleteCodeChunksByIds_of_mem fun r hr => (h.keys path r hr).mpr hp)
  · exact .inl (hothers path hp)

theorem Saved.embedded (h : Saved P b fs ids s s') (hsub : ∀ i ∈ ids', i ∈ ids)
    (hs : s'.saveCodeChunkEmbeddings ids' model = .ok s'') : Sound P s'' ∧ SameOutside fs s s'' := by
  have hdata : ∀ path, s''.fileData path =
      { s'.fileData path with
        embeddings := (s'.fileData path).embeddings ++
          (ids'.map fun i => ⟨i, model⟩).filter (s'.isOf path) } :=
    fun _ => CodeData.fileData_saveCodeChunkEmbeddings hs
  refine ⟨⟨h.sound.linked.saveCodeChunkEmbeddings hs, fun path => ?_⟩, h.others.trans fun path hp => ?_⟩
  · rw [hdata]
    exact h.sound.whole path
  · have hnone : (ids'.map fun i => ChunkEmbedding.mk i model).filter (s'.isOf path) = [] := by
      refine List.filter_eq_nil_iff.mpr fun e he hof => hp ?_
      obtain ⟨i, hi, rfl⟩ := List.mem_map.mp he
      obtain ⟨r, hr, hid⟩ := CodeData.isOf_iff.mp hof
      exact (h.keys path r hr).mp (hid ▸ hsub i hi)
    rw [hdata, hnone, List.append_nil]

theorem Saved.saveable (h : Saved P b fs ids s s') (model : String) (hn : ids'.Nodup) (hsub : ∀ i ∈ ids', i ∈ ids) :
    ∃ s'', s'.saveCodeChunkEmbeddings ids' model = .ok s'' :=
  ⟨_, if_pos ⟨hn, fun i hi => h.stored i (hsub i hi)⟩⟩

theorem Saved.done (h : Saved P b fs ids s s') (hs : s'.saveCodeChunkEmbeddings ids b.model = .ok s'')
    (hf : f ∈ fs) : Done P b f (s''.fileData f.path) := by
  rw [CodeData.fileData_saveCodeChunkEmbeddings hs, h.embeddings f hf, List.nil_append]
  refine ⟨h.symbols f hf, h.rows f hf, fun r hr => ?_⟩
  have hr : r ∈ s'.rowsOf f.path := hr
  have hi : r.1 ∈ ids := (h.keys f.path r hr).mpr (List.mem_map_of_mem hf)
  calc ((ids.map fun i => ChunkEmbedding.mk i b.model).filter (s'.isOf f.path)).filter (fun e => e.chunkId = r.1)
      = (ids.map fun i => ChunkEmbedding.mk i b.model).filter (fun e => e.chunkId = r.1) := by
        rw [List.filter_filter]
        refine List.filter_congr fun e _ => ?_
        by_cases he : e.chunkId = r.1
        · rw [CodeData.isOf_iff.mpr ⟨r, hr, he.symm⟩, Bool.and_true]
        · rw [decide_eq_false he, Bool.false_and]
    _ = (ids.filter fun i => i = r.1).map fun i => ChunkEmbedding.mk i b.model := by
        rw [List.filter_map]
        rfl
    _ = [⟨r.1, b.model⟩] := by
        rw [List.filter_eq, List.count_eq_one_of_mem h.nodup hi]
        rfl

theorem runs_discardChunks (hw : w → ∀ n, ∃ luck, course n = some luck ∧ luck.Good)
    (h : Saved P b fs ids s s') (n : Nat) :
    Runs P w course (discardChunks ids) (fun _ s'' => Sound P s'' ∧ SameOutside fs s s'') (s', n) := by
  refine runs_call (P := P) hw h.sound fun luck n _ => runs_pure ?_
  show Sound P (orFail luck.error s' (.ok (), s'.deleteCodeChunksByIds ids)).2 ∧
    SameOutside fs s (orFail luck.error s' (.ok (), s'.deleteCodeChunksByIds ids)).2
  cases luck.error with
  | none => exact h.discarded
  | some e => exact ⟨h.sound, h.others⟩

variable {chunks : List (CodeChunk K)} {symbols : List (CodeSymbol S)} {vectors : Nat}

theorem embedded_sublist (hlen : ids.length = chunks.length) : (embedded ids chunks vectors).Sublist ids := by
  have hfst : (ids.zip chunks).map Prod.fst = ids := List.map_fst_zip (Nat.le_of_eq hlen)
  conv_rhs => rw [← hfst]
  exact List.filter_sublist.map Prod.fst

/-- With a vector for every text. -/
theorem embedded_eq_self (hlen : ids.length = chunks.length) (h : (uniqueHashes chunks).length ≤ vectors) :
    embedded ids chunks vectors = ids := by
  have hall : ∀ r ∈ ids.zip chunks, decide ((uniqueHashes chunks).idxOf r.2.contentHash < vectors) = true := by
    intro r hr
    have hmem : r.2.contentHash ∈ uniqueHashes chunks :=
      List.mem_eraseDups.mpr (List.mem_map_of_mem (List.of_mem_zip (a := r.1) (b := r.2) hr).2)
    have := List.idxOf_lt_length_of_mem hmem
    exact decide_eq_true (by omega)
  rw [embedded, List.filter_eq_self.mpr hall]
  exact List.map_fst_zip (Nat.le_of_eq hlen)

theorem tries_embedChunks (hw : w → ∀ n, ∃ luck, course n = some luck ∧ luck.Good)
    (h : Saved P b fs ids s s') (hlen : ids.length = chunks.length) (n : Nat) :
    Tries P w course (embedChunks P b ids chunks) (fun _ => Flushed P b w fs s) (s', n) := by
  refine runs_call (P := P) hw h.sound fun luck n hgood => ?_
  cases he : luck.error with
  | some e =>
    simp only [answer, orFail, he]
    refine (runs_discardChunks hw h n).bind fun _ s'' hs => tries_pure ⟨hs.1, hs.2, fun hg => ?_⟩
    rw [(hgood hg).1] at he
    cases he
  | none =>
    simp only [answer, orFail, he]
    refine runs_call (P := P) hw h.sound fun luck' n hgood' => ?_
    have hsub : (embedded ids chunks
        (luck.vectors ((uniqueHashes chunks).map (embeddingText P chunks)).length)).Sublist ids :=
      embedded_sublist hlen
    obtain ⟨s'', hs''⟩ := h.saveable b.model (h.nodup.sublist hsub) fun i hi => hsub.subset hi
    cases he' : luck'.error with
    | some e =>
      simp only [answer, orFail, he']
      show Tries P w course (ExceptT.lift (discardChunks ids) >>= fun _ => throw e) _ (s', n)
      refine tries_lift (runs_discardChunks hw h n) fun _ s'' hs => leaves_pure ⟨hs.1, fun hg => ?_⟩
      rw [(hgood' hg).1] at he'
      cases he'
    | none =>
      simp only [answer, orFail, he', saveEmbeddings, hs'']
      obtain ⟨hsound, hothers⟩ := h.embedded (fun i hi => hsub.subset hi) hs''
      refine tries_pure ⟨hsound, hothers, fun hg f hf => ?_⟩
      have hall := (hgood hg).2 ((uniqueHashes chunks).map (embeddingText P chunks)).length
      rw [embedded_eq_self hlen (by rwa [List.length_map] at hall ⊢)] at hs''
      exact h.done hs'' hf

theorem tries_saveChunks (hP : P.Lawful) (hw : w → ∀ n, ∃ luck, course n = some luck ∧ luck.Good)
    (h : Listed P b fs s s') (hn : (fs.map SourceFile.path).Nodup) (hparsed : ∀ f ∈ fs, Parsed P b.version f)
    (hchunks : chunks = fs.flatMap (chunksIn P b.version)) (n : Nat) :
    Tries P w course (saveChunks P b chunks) (fun _ => Flushed P b w fs s) (s', n) := by
  unfold saveChunks
  split
  · rename_i hnil
    refine tries_pure ⟨h.sound, h.others, fun _ f hf => ?_⟩
    have hnone : chunksIn P b.version f = [] := by
      rw [hchunks, List.flatMap_eq_nil_iff] at hnil
      exact hnil f hf
    rw [h.listed f hf]
    exact ⟨rfl, by rw [hnone]; rfl, fun r hr => by cases hr⟩
  · refine tries_call hw h.sound (fun _ => rfl) fun n => ?_
    refine tries_embedChunks hw (h.saved hP hn hparsed (congrArg _ hchunks)) ?_ n
    rw [CodeData.ids_saveCodeChunks, List.length_range']

/-- The rule of a flush. -/
theorem tries_flushBatch (hP : P.Lawful) (hw : w → ∀ n, ∃ luck, course n = some luck ∧ luck.Good)
    (h : Waiting P b symbols chunks fs s) (hs : Sound P s) (n : Nat) :
    Tries P w course (flushBatch P b symbols chunks) (fun _ => Flushed P b w fs s) (s, n) := by
  unfold flushBatch
  split
  · exact tries_call hw hs (fun _ => rfl) fun n =>
      tries_saveChunks hP hw (h.listed hP hs) h.distinct h.parsed h.chunks n
  · rename_i hnil
    have hlisted := h.listed hP hs
    rw [show s.saveCodeSymbols symbols = s by
      rw [Decidable.not_not.mp hnil]
      exact congrArg (fun l => { s with symbols := l }) (List.append_nil _)] at hlisted
    exact tries_saveChunks hP hw hlisted h.distinct h.parsed h.chunks n

end Saved

/-! ## Files -/

/-- What becomes of a file of which `d₀` was stored, and what is stored of it then. -/
def Outcome (P : Pipeline L S K) (b : CodeIndexer) (w : Prop) (d₀ : FileData S K) (f : SourceFile)
    (d : FileData S K) : FileProcessResult S K → Prop
  | .parsed path symbols chunks => path = f.path ∧ P.chunked b.version f = .ok (symbols, chunks) ∧
      d₀.hashMatches (P.sha256 f.content) = false ∧ d = .empty
  | .skipped path => path = f.path ∧ d₀.hashMatches (P.sha256 f.content) = true ∧ d = d₀
  | .failed => ¬ w

section Files

variable {s s₀ : CodeData S K}

theorem runs_processFile (hw : w → ∀ n, ∃ luck, course n = some luck ∧ luck.Good)
    (hparsed : w → ∃ symbols chunks, P.chunked b.version f = .ok (symbols, chunks)) (hs : Sound P s) (n : Nat) :
    Runs P w course (processFile P b f) (fun result s' => Sound P s' ∧ SameOutside [f] s s' ∧
      Outcome P b w (s.fileData f.path) f (s'.fileData f.path) result) (s, n) := by
  have hfailed : ∀ luck : Luck, (w → luck.Good) → ∀ e, luck.error = some e → ¬ w := fun luck hgood e he hg => by
    rw [(hgood hg).1] at he
    cases he
  have hsame : SameOutside [f] s s := fun _ _ => rfl
  refine runs_call (P := P) hw hs fun luck n hgood => ?_
  cases he : luck.error with
  | some e =>
    simp only [answer, orFail, he]
    exact runs_pure ⟨hs, hsame, hfailed luck hgood e he⟩
  | none =>
    simp only [answer, orFail, he]
    refine runs_call (P := P) hw hs fun luck n hgood => ?_
    cases he : luck.error with
    | some e =>
      simp only [answer, orFail, he]
      exact runs_pure ⟨hs, hsame, hfailed luck hgood e he⟩
    | none =>
      simp only [answer, orFail, he]
      cases hm : s.codeChunkHashMatches f.path (P.sha256 f.content) with
      | true =>
        rw [CodeData.codeChunkHashMatches_eq] at hm
        exact runs_pure ⟨hs, hsame, rfl, hm, rfl⟩
      | false =>
        rw [CodeData.codeChunkHashMatches_eq] at hm
        refine runs_call (P := P) hw hs fun luck n hgood => ?_
        cases he : luck.error with
        | some e =>
          simp only [answer, orFail, he]
          exact runs_pure ⟨hs, hsame, hfailed luck hgood e he⟩
        | none =>
          simp only [answer, orFail, he]
          have hs' : Sound P (s.deleteCodeDataForFile f.path) := hs.deletePaths _
          have hothers : SameOutside [f] s (s.deleteCodeDataForFile f.path) := fun path hp => by
            have hne : path ≠ f.path := fun e => hp (e ▸ List.mem_singleton.mpr rfl)
            rw [CodeData.deleteCodeDataForFile, CodeData.fileData_deletePaths, if_neg (by simpa using hne)]
          have hempty : (s.deleteCodeDataForFile f.path).fileData f.path = .empty := by
            rw [CodeData.deleteCodeDataForFile, CodeData.fileData_deletePaths, if_pos (by simp)]
          cases hc : P.chunkFile b.version f.content (P.language b.version f.path) f.path (P.sha256 f.content) with
          | ok r => exact runs_pure ⟨hs', hothers, rfl, hc, hm, hempty⟩
          | error e =>
            refine runs_pure ⟨hs', hothers, fun hg => ?_⟩
            obtain ⟨symbols, chunks, hok⟩ := hparsed hg
            rw [Pipeline.chunked, hc] at hok
            cases hok

/-- The rule of a group of files that have not been touched. -/
theorem runs_processFiles (hw : w → ∀ n, ∃ luck, course n = some luck ∧ luck.Good)
    (hparsed : w → ∀ f ∈ fs, ∃ symbols chunks, P.chunked b.version f = .ok (symbols, chunks))
    (hn : (fs.map SourceFile.path).Nodup) (hs : Sound P s)
    (hsame : ∀ f ∈ fs, s.fileData f.path = s₀.fileData f.path) (n : Nat) :
    Runs P w course (processFiles P b fs) (fun results s' => Sound P s' ∧ SameOutside fs s s' ∧
      List.Forall₂ (fun f => Outcome P b w (s₀.fileData f.path) f (s'.fileData f.path)) fs results) (s, n) := by
  induction fs generalizing s n with
  | nil => exact runs_pure ⟨hs, fun _ _ => rfl, .nil⟩
  | cons f fs ih =>
    obtain ⟨hf, hn⟩ := List.nodup_cons.mp hn
    obtain ⟨hsf, hsfs⟩ := List.forall_mem_cons.mp hsame
    refine (runs_processFile hw (fun hg => hparsed hg f List.mem_cons_self) hs n).bind fun result s₁ h₁ => ?_
    obtain ⟨hs₁, hothers₁, hresult⟩ := h₁
    have hsame₁ : ∀ g ∈ fs, s₁.1.fileData g.path = s₀.fileData g.path := fun g hg => by
      rw [hothers₁ g.path fun e => hf ?_, hsfs g hg]
      rw [← List.mem_singleton.mp e]
      exact List.mem_map_of_mem hg
    refine (ih (fun hg g hg' => hparsed hg g (List.mem_cons_of_mem f hg')) hn hs₁ hsame₁ s₁.2).bind
      fun results s₂ h₂ => ?_
    obtain ⟨hs₂, hothers₂, hresults⟩ := h₂
    refine runs_pure ⟨hs₂, ?_, List.Forall₂.cons ?_ hresults⟩
    · refine (hothers₁.mono fun g hg => ?_).trans (hothers₂.mono fun g hg => List.mem_cons_of_mem f hg)
      rw [List.mem_singleton.mp hg]
      exact List.mem_cons_self
    · rw [hothers₂ f.path hf, ← hsf]
      exact hresult

/-! ## The loop over the files -/

/-- A file of a run that found `s₀`: what was indexed is as before, the rest is done. -/
def Settled (P : Pipeline L S K) (b : CodeIndexer) (s₀ : CodeData S K) (f : SourceFile) (d : FileData S K) :
    Prop :=
  if (s₀.fileData f.path).hashMatches (P.sha256 f.content) = true then d = s₀.fileData f.path
  else Done P b f d

/-- The results of the files `handled` have been taken, and `waiting` are those that are still to be
flushed. -/
structure Loop (P : Pipeline L S K) (b : CodeIndexer) (w : Prop) (s₀ : CodeData S K)
    (handled waiting : List SourceFile) (p : Pending S K) (s : CodeData S K) : Prop where
  sound : Sound P s
  distinct : (handled.map SourceFile.path).Nodup
  batch : Waiting P b p.symbols p.chunks waiting s
  among : ∀ f ∈ waiting, f ∈ handled
  unmatched : ∀ f ∈ waiting, (s₀.fileData f.path).hashMatches (P.sha256 f.content) = false
  seen : w → p.seen = handled.map SourceFile.path
  settled : w → ∀ f ∈ handled, f ∉ waiting → Settled P b s₀ f (s.fileData f.path)

variable {handled waiting gs : List SourceFile} {p : Pending S K} {s' : CodeData S K}

/-- What a run does to other paths. -/
theorem Loop.congr (h : Loop P b w s₀ handled waiting p s) (hs' : Sound P s')
    (hsame : ∀ f ∈ handled, s'.fileData f.path = s.fileData f.path) :
    Loop P b w s₀ handled waiting p s' where
  sound := hs'
  distinct := h.distinct
  batch := { h.batch with bare := fun f hf => (hsame f (h.among f hf)).trans (h.batch.bare f hf) }
  among := h.among
  unmatched := h.unmatched
  seen := h.seen
  settled hg f hf hn := by
    rw [hsame f hf]
    exact h.settled hg f hf hn

theorem Loop.take (h : Loop P b w s₀ handled waiting p s) {result : FileProcessResult S K}
    (hr : Outcome P b w (s₀.fileData f.path) f (s.fileData f.path) result)
    (hf : f.path ∉ handled.map SourceFile.path) :
    ∃ waiting', Loop P b w s₀ (handled ++ [f]) waiting' (p.take result) s := by
  have hdistinct : ((handled ++ [f]).map SourceFile.path).Nodup := by
    rw [List.map_append]
    exact h.distinct.append (List.nodup_singleton _) (List.disjoint_singleton.mpr hf)
  have hamong : ∀ g ∈ waiting, g ∈ handled ++ [f] := fun g hg => List.mem_append_left _ (h.among g hg)
  have hseen : w → p.seen ++ [f.path] = (handled ++ [f]).map SourceFile.path := fun hg => by
    rw [h.seen hg, List.map_append]
    rfl
  cases result with
  | parsed path symbols chunks =>
    obtain ⟨rfl, hok, hm, hempty⟩ := hr
    obtain ⟨rfl, rfl⟩ := parsed_of_eq_ok hok
    have hnew : f.path ∉ waiting.map SourceFile.path := fun hw => hf (by
      obtain ⟨g, hg, e⟩ := List.mem_map.mp hw
      exact e ▸ List.mem_map_of_mem (h.among g hg))
    refine ⟨waiting ++ [f], h.sound, hdistinct, ⟨?_, ?_, ?_, ?_, ?_⟩, ?_, ?_, hseen, ?_⟩
    · rw [List.map_append]
      exact h.batch.distinct.append (List.nodup_singleton _) (List.disjoint_singleton.mpr hnew)
    · exact List.forall_mem_append.mpr ⟨h.batch.parsed, List.forall_mem_singleton.mpr hok⟩
    · rw [List.flatMap_append, ← h.batch.symbols, List.flatMap_singleton]
      rfl
    · rw [List.flatMap_append, ← h.batch.chunks, List.flatMap_singleton]
      rfl
    · exact List.forall_mem_append.mpr ⟨h.batch.bare, List.forall_mem_singleton.mpr hempty⟩
    · exact List.forall_mem_append.mpr ⟨hamong, fun g hg => List.mem_append_right _ hg⟩
    · exact List.forall_mem_append.mpr ⟨h.unmatched, List.forall_mem_singleton.mpr hm⟩
    · intro hg g hh hn
      rcases List.mem_append.mp hh with hh | hh
      · exact h.settled hg g hh fun hw => hn (List.mem_append_left _ hw)
      · exact absurd (List.mem_append_right _ hh) hn
  | skipped path =>
    obtain ⟨rfl, hm, hd⟩ := hr
    refine ⟨waiting, h.sound, hdistinct, h.batch, hamong, h.unmatched, hseen, fun hg g hh hn => ?_⟩
    rcases List.mem_append.mp hh with hh | hh
    · exact h.settled hg g hh hn
    · rw [List.mem_singleton.mp hh, Settled, if_pos hm]
      exact hd
  | failed =>
    exact ⟨waiting, h.sound, hdistinct, h.batch, hamong, h.unmatched, fun hg => absurd hg hr,
      fun hg => absurd hg hr⟩

/-- After a flush nothing waits. -/
theorem Loop.flushed (h : Loop P b w s₀ handled waiting p s) (hs' : Flushed P b w waiting s s') :
    Loop P b w s₀ handled [] { seen := p.seen } s' where
  sound := hs'.sound
  distinct := h.distinct
  batch := waiting_nil s'
  among f hf := by cases hf
  unmatched f hf := by cases hf
  seen := h.seen
  settled hg f hf _ := by
    by_cases hmem : f ∈ waiting
    · rw [Settled, h.unmatched f hmem, if_neg Bool.false_ne_true]
      exact hs'.done hg f hmem
    · have hpath : f.path ∉ waiting.map SourceFile.path := fun hm => hmem (by
        obtain ⟨g, hg', e⟩ := List.mem_map.mp hm
        rwa [← List.inj_on_of_nodup_map h.distinct (h.among g hg') hf e])
      rw [hs'.others f.path hpath]
      exact h.settled hg f hf hmem

theorem Loop.frame (h : Loop P b w s₀ handled waiting p s) (hs' : Flushed P b w waiting s s') :
    SameOutside handled s s' := hs'.others.mono h.among

theorem tries_takeResult (hP : P.Lawful) (hw : w → ∀ n, ∃ luck, course n = some luck ∧ luck.Good)
    (h : Loop P b w s₀ handled waiting p s) {result : FileProcessResult S K}
    (hr : Outcome P b w (s₀.fileData f.path) f (s.fileData f.path) result)
    (hf : f.path ∉ handled.map SourceFile.path) (n : Nat) :
    Tries P w course (takeResult P b p result) (fun p' s' =>
      (∃ waiting', Loop P b w s₀ (handled ++ [f]) waiting' p' s') ∧ SameOutside (handled ++ [f]) s s') (s, n) := by
  obtain ⟨waiting', h'⟩ := h.take hr hf
  unfold takeResult
  split
  · refine (tries_flushBatch hP hw h'.batch h'.sound n).bind fun _ s' hs' => ?_
    exact tries_pure ⟨⟨[], h'.flushed hs'⟩, h'.frame hs'⟩
  · exact tries_pure ⟨⟨waiting', h'⟩, fun _ _ => rfl⟩

/-- The rule of the results of a group. -/
theorem tries_takeResults (hP : P.Lawful) (hw : w → ∀ n, ∃ luck, course n = some luck ∧ luck.Good)
    {results : List (FileProcessResult S K)} (h : Loop P b w s₀ handled waiting p s)
    (hr : List.Forall₂ (fun f => Outcome P b w (s₀.fileData f.path) f (s.fileData f.path)) gs results)
    (hn : ((handled ++ gs).map SourceFile.path).Nodup) (n : Nat) :
    Tries P w course (takeResults P b p results) (fun p' s' =>
      (∃ waiting', Loop P b w s₀ (handled ++ gs) waiting' p' s') ∧ SameOutside (handled ++ gs) s s') (s, n) := by
  induction results generalizing handled waiting p s n gs with
  | nil =>
    cases hr
    rw [List.append_nil]
    exact tries_pure ⟨⟨waiting, h⟩, fun _ _ => rfl⟩
  | cons result results ih =>
    cases hr with
    | cons hf hgs =>
      rename_i f gs
      have happend : handled ++ f :: gs = handled ++ [f] ++ gs := List.append_cons handled f gs
      rw [happend] at hn ⊢
      rw [List.map_append] at hn
      obtain ⟨hn₁, hngs, hdisjoint⟩ := List.nodup_append'.mp hn
      have hnew : f.path ∉ handled.map SourceFile.path := by
        rw [List.map_append] at hn₁
        exact fun hm => (List.nodup_append'.mp hn₁).2.2 hm (List.mem_singleton.mpr rfl)
      refine (tries_takeResult hP hw h hf hnew n).bind fun p' s' hs' => ?_
      obtain ⟨⟨waiting', h'⟩, hsame⟩ := hs'
      have hrest : ∀ g ∈ gs, s'.1.fileData g.path = s.fileData g.path := fun g hg =>
        hsame g.path fun hm => hdisjoint hm (List.mem_map_of_mem hg)
      have hgs' : List.Forall₂ (fun f => Outcome P b w (s₀.fileData f.path) f (s'.1.fileData f.path)) gs results :=
        ((List.forall₂_and_left _ _).mpr ⟨hrest, hgs⟩).imp fun g result hg => by
          rw [hg.1]
          exact hg.2
      rw [← List.map_append] at hn
      refine (ih h' hgs' hn s'.2).mono fun p'' s'' hr => ⟨hr.1, ?_⟩
      exact (hsame.mono fun g hg => List.mem_append_left gs hg).trans hr.2

/-- The rule of the groups: no file is touched before its group. -/
theorem tries_indexGroups (hP : P.Lawful) (hw : w → ∀ n, ∃ luck, course n = some luck ∧ luck.Good)
    {groups : List (List SourceFile)}
    (hparsed : w → ∀ f ∈ groups.flatten, ∃ symbols chunks, P.chunked b.version f = .ok (symbols, chunks))
    (h : Loop P b w s₀ handled waiting p s) (hs : SameOutside handled s₀ s)
    (hn : ((handled ++ groups.flatten).map SourceFile.path).Nodup) (n : Nat) :
    Tries P w course (indexGroups P b p groups) (fun p' s' =>
      (∃ waiting', Loop P b w s₀ (handled ++ groups.flatten) waiting' p' s') ∧
        SameOutside (handled ++ groups.flatten) s₀ s') (s, n) := by
  induction groups generalizing handled waiting p s n with
  | nil =>
    rw [List.flatten_nil, List.append_nil]
    exact tries_pure ⟨⟨waiting, h⟩, hs⟩
  | cons group groups ih =>
    rw [List.flatten_cons, ← List.append_assoc] at hn ⊢
    rw [List.map_append] at hn
    obtain ⟨hn₁, -, hdisjoint⟩ := List.nodup_append'.mp hn
    rw [← List.map_append] at hn
    have hn₂ := hn₁
    rw [List.map_append] at hn₂
    obtain ⟨-, hngroup, hapart⟩ := List.nodup_append'.mp hn₂
    have hsame : ∀ f ∈ group, s.fileData f.path = s₀.fileData f.path := fun f hf =>
      hs f.path fun hm => hapart hm (List.mem_map_of_mem hf)
    have hparsed₁ : w → ∀ f ∈ group, ∃ symbols chunks, P.chunked b.version f = .ok (symbols, chunks) :=
      fun hg f hf => hparsed hg f (List.mem_append_left _ hf)
    refine tries_lift (runs_processFiles hw hparsed₁ hngroup h.sound hsame n) fun results s₁ h₁ => ?_
    obtain ⟨hs₁, hothers₁, hresults⟩ := h₁
    have hloop := h.congr hs₁ fun f hf => hothers₁ f.path fun hm => hapart (List.mem_map_of_mem hf) hm
    refine (tries_takeResults hP hw hloop hresults hn₁ s₁.2).bind fun p' s₂ h₂ => ?_
    obtain ⟨⟨waiting', h'⟩, hsame₂⟩ := h₂
    have hall : SameOutside (handled ++ group) s₀ s₂.1 :=
      ((hs.mono fun f hf => List.mem_append_left _ hf).trans
        (hothers₁.mono fun f hf => List.mem_append_right _ hf)).trans hsame₂
    exact ih (fun hg f hf => hparsed hg f (List.mem_append_right _ hf)) h' hall hn s₂.2

/-! ## Whole runs -/

/-- What a run that found `s₀` leaves when it goes well. -/
structure Finished (P : Pipeline L S K) (b : CodeIndexer) (s₀ : CodeData S K) (files : List SourceFile)
    (s : CodeData S K) : Prop where
  linked : s.Linked
  settled : ∀ f ∈ files, Settled P b s₀ f (s.fileData f.path)
  others : ∀ path, path ∉ files.map SourceFile.path →
    s.fileData path = if files = [] ∨ s₀.rowsOf path ≠ [] then .empty else s₀.fileData path

theorem Loop.finished (h : Loop P b w s₀ handled [] p s) (hs : SameOutside handled s₀ s) (hg : w) :
    Finished P b s₀ handled (s.cleanupStaleCodeData p.seen) := by
  have hseen := h.seen hg
  have hnil : p.seen = [] ↔ handled = [] := by rw [hseen, List.map_eq_nil_iff]
  refine ⟨h.sound.linked.cleanupStaleCodeData _, fun f hf => ?_, fun path hp => ?_⟩
  · have hin : f.path ∈ p.seen := hseen ▸ List.mem_map_of_mem hf
    have hkept : ¬ (p.seen = [] ∨ f.path ∉ p.seen ∧ s.rowsOf f.path ≠ []) := by
      rintro (hnone | hnot)
      · rw [hnone] at hin
        cases hin
      · exact hnot.1 hin
    rw [CodeData.fileData_cleanupStaleCodeData, if_neg hkept]
    exact h.settled hg f hf List.not_mem_nil
  · have hrows : s.rowsOf path = s₀.rowsOf path := congrArg FileData.rows (hs path hp)
    rw [CodeData.fileData_cleanupStaleCodeData, hs path hp]
    refine if_congr ?_ rfl rfl
    rw [hnil, hrows, hseen]
    exact or_congr_right (and_iff_right hp)

theorem Finished.setIndexVersion (h : Finished P b s₀ handled s) (version : String) :
    Finished P b s₀ handled (s.setIndexVersion version) :=
  ⟨⟨h.linked.stored, h.linked.unique⟩, h.settled, h.others⟩

/-- From the clean-up on. -/
theorem tries_cleanUp (hw : w → ∀ n, ∃ luck, course n = some luck ∧ luck.Good)
    (h : Loop P b w s₀ handled [] p s) (hs : SameOutside handled s₀ s) (n : Nat) :
    Tries P w course (do
      try_ (.cleanupStaleCodeData p.seen)
      let _ ← ExceptT.lift (ask (.setIndexVersion b.version)))
      (fun _ s' => Sound P s' ∧ (w → Finished P b s₀ handled s')) (s, n) := by
  refine tries_call hw h.sound (fun _ => rfl) fun n => ?_
  have hclean : Sound P (s.cleanupStaleCodeData p.seen) := by
    refine h.sound.of_fileData (h.sound.linked.cleanupStaleCodeData _) fun path => ?_
    rw [CodeData.fileData_cleanupStaleCodeData]
    split
    · exact .inr rfl
    · exact .inl rfl
  refine runs_call (P := P) hw hclean fun luck n _ => tries_pure ?_
  show Sound P (orFail luck.metaError _ (.ok (), _)).2 ∧ (w → Finished P b s₀ handled (orFail luck.metaError _ (.ok (), _)).2)
  cases luck.metaError with
  | none => exact ⟨hclean.setIndexVersion _, fun hg => (h.finished hs hg).setIndexVersion _⟩
  | some e => exact ⟨hclean, h.finished hs⟩

theorem tries_finishRun (hP : P.Lawful) (hw : w → ∀ n, ∃ luck, course n = some luck ∧ luck.Good)
    (h : Loop P b w s₀ handled waiting p s) (hs : SameOutside handled s₀ s) (n : Nat) :
    Tries P w course (finishRun P b p) (fun _ s' => Sound P s' ∧ (w → Finished P b s₀ handled s')) (s, n) := by
  unfold finishRun
  split
  · refine (tries_flushBatch hP hw h.batch h.sound n).bind fun _ s₁ h₁ => ?_
    exact tries_cleanUp hw (h.flushed h₁) (hs.trans (h.frame h₁)) s₁.2
  · rename_i hnil
    obtain ⟨hchunks, hsymbols⟩ := Decidable.not_not.mp hnil
    have hnone : Flushed P b w waiting s s := by
      refine ⟨h.sound, fun _ _ => rfl, fun _ f hf => ?_⟩
      have hs : symbolsIn P b.version f = [] := List.flatMap_eq_nil_iff.mp (h.batch.symbols ▸ hsymbols) f hf
      have hc : chunksIn P b.version f = [] := List.flatMap_eq_nil_iff.mp (h.batch.chunks ▸ hchunks) f hf
      rw [h.batch.bare f hf]
      exact ⟨hs.symm, by rw [hc]; rfl, fun r hr => by cases hr⟩
    exact tries_cleanUp hw (h.flushed hnone) hs n

/-! ### The beginning of a run -/

variable {r : IndexRun}

/-- What a run finds, after the deletion if it is a full one. -/
def IndexRun.start (r : IndexRun) (s : CodeData S K) : CodeData S K :=
  if r.reindexes s then s.deleteAllCodeDataForRepo else s

theorem runs_modelChanged (hw : w → ∀ n, ∃ luck, course n = some luck ∧ luck.Good) (hs : Sound P s) :
    Runs P w course (modelChanged b) (fun changed s' => s' = s ∧
      changed = (found (course 1) s.getCodeEmbeddingModel).any (· ≠ b.model)) (s, 1) := by
  refine runs_numbered (P := P) hw hs fun luck hluck _ => ?_
  have hluck : course 1 = some luck := hluck
  rw [hluck]
  cases he : luck.metaError with
  | some e =>
    simp only [answer, orFail, he]
    exact runs_pure ⟨rfl, by simp [found, he]⟩
  | none =>
    simp only [answer, orFail, he]
    cases hm : s.getCodeEmbeddingModel with
    | none => exact runs_pure ⟨rfl, by simp [found]⟩
    | some stored => exact runs_pure ⟨rfl, by simp [found, he]⟩

theorem runs_needsFullReindex (hw : w → ∀ n, ∃ luck, r.course n = some luck ∧ luck.Good) (hs : Sound P s) :
    Runs P w r.course (needsFullReindex r.indexer) (fun full s' => s' = s ∧ full = r.reindexes s) (s, 0) := by
  unfold needsFullReindex
  split
  · rename_i hforce
    exact runs_pure ⟨rfl, by simp [IndexRun.reindexes, hforce]⟩
  · rename_i hforce
    refine runs_numbered (P := P) hw hs fun luck hluck _ => ?_
    have hluck : r.course 0 = some luck := hluck
    have hmodel : (found (r.course 0) s.indexVersion).any (· ≠ r.indexer.version) = false →
        Runs P w r.course (modelChanged r.indexer) (fun full s' => s' = s ∧ full = r.reindexes s) (s, 1) :=
      fun hv => (runs_modelChanged hw hs).mono fun full s' h => by
        cases full with
        | none => exact h
        | some full =>
          refine ⟨h.1, ?_⟩
          rw [IndexRun.reindexes, Bool.eq_false_iff.mpr hforce, hv, Bool.false_or, Bool.false_or]
          exact h.2
    cases he : luck.metaError with
    | some e =>
      simp only [answer, orFail, he]
      exact hmodel (by simp [hluck, found, he])
    | none =>
      simp only [answer, orFail, he]
      cases hv : s.indexVersion with
      | none => exact hmodel (by simp [hv, found])
      | some stored =>
        show Runs P w r.course
          (if stored ≠ r.indexer.version then pure true else modelChanged r.indexer) _ (s, 1)
        by_cases hne : stored ≠ r.indexer.version
        · rw [if_pos hne]
          exact runs_pure ⟨rfl, by simp [IndexRun.reindexes, hluck, found, he, hv, hne]⟩
        · rw [if_neg hne]
          exact hmodel (by simp [hluck, hv, found, he, Decidable.not_not.mp hne])

theorem Sound.start (hs : Sound P s) (r : IndexRun) : Sound P (r.start s) := by
  unfold IndexRun.start
  split
  · exact hs.deletePaths _
  · exact hs

theorem loop_nil (hs : Sound P s) : Loop P b w s [] [] {} s where
  sound := hs
  distinct := .nil
  batch := waiting_nil s
  among f hf := by cases hf
  unmatched f hf := by cases hf
  seen _ := rfl
  settled _ f hf := by cases hf

theorem tries_indexRepo (hP : P.Lawful) (hs : Sound P s) :
    Tries P (r.Flawless P) r.course (indexRepo P r.indexer r.groups)
      (fun _ s' => Sound P s' ∧ (r.Flawless P → Finished P r.indexer (r.start s) r.files s')) (s, 0) := by
  have hw : r.Flawless P → ∀ n, ∃ luck, r.course n = some luck ∧ luck.Good := IndexRun.Flawless.calls
  have hrest : ∀ s₁ n, s₁ = r.start s → Tries P (r.Flawless P) r.course (do
      let p ← indexGroups P r.indexer {} r.groups
      finishRun P r.indexer p)
      (fun _ s' => Sound P s' ∧ (r.Flawless P → Finished P r.indexer (r.start s) r.files s')) (s₁, n) := by
    rintro _ n rfl
    refine (tries_indexGroups hP hw IndexRun.Flawless.parsed (loop_nil (hs.start r)) (fun _ _ => rfl)
      r.distinct n).bind fun p s' h => ?_
    obtain ⟨⟨waiting, h⟩, hsame⟩ := h
    exact tries_finishRun hP hw h hsame s'.2
  refine tries_lift (runs_needsFullReindex hw hs) fun full s' h => ?_
  obtain ⟨s', n⟩ := s'
  obtain ⟨hsame, hfull⟩ := h
  cases hsame
  cases full with
  | true =>
    have hstart : r.start s' = s'.deleteAllCodeDataForRepo := if_pos hfull.symm
    refine tries_call hw hs (fun _ => rfl) fun n => ?_
    exact hrest _ n hstart.symm
  | false =>
    have hstart : r.start s' = s' := if_neg (by rw [← hfull]; exact Bool.false_ne_true)
    exact hrest s' n hstart.symm

theorem ends_step (hP : P.Lawful) (hs : Sound P s) :
    Ends P (r.Flawless P) (TryEnds P (r.Flawless P) fun _ s' => Sound P s' ∧
      (r.Flawless P → Finished P r.indexer (r.start s) r.files s'))
      (Prog.cut (serve r.course) (indexRepo P r.indexer r.groups).run (s, 0)).1
      (Prog.cut (serve r.course) (indexRepo P r.indexer r.groups).run (s, 0)).2 := tries_indexRepo hP hs

/-- Wherever a run stops. -/
theorem sound_step (hP : P.Lawful) (hs : Sound P s) (r : IndexRun) : Sound P (r.step P s) := by
  have h := ends_step (r := r) hP hs
  unfold IndexRun.step
  cases hr : (Prog.cut (serve r.course) (indexRepo P r.indexer r.groups).run (s, 0)).1 with
  | none =>
    rw [hr] at h
    exact h.1
  | some result =>
    rw [hr] at h
    cases result with
    | ok a => exact h.1
    | error e => exact h.1

theorem finished_step (hP : P.Lawful) (hs : Sound P s) (hr : r.Flawless P) :
    Finished P r.indexer (r.start s) r.files (r.step P s) := by
  have h := ends_step (r := r) hP hs
  unfold IndexRun.step
  cases hres : (Prog.cut (serve r.course) (indexRepo P r.indexer r.groups).run (s, 0)).1 with
  | none =>
    rw [hres] at h
    exact absurd hr h.2
  | some result =>
    rw [hres] at h
    cases result with
    | ok a => exact h.2 hr
    | error e => exact absurd hr h.2

end Files

/-! ## What is taken over -/

section Exactness

variable {r : IndexRun} {s s₀ s' : CodeData S K}

theorem eq_of_map_hashed_eq {cs ds : List (CodeChunk K)} (hcs : ∀ c ∈ cs, c.contentHash = none)
    (hds : ∀ c ∈ ds, c.contentHash = none) (h : cs.map (hashed P) = ds.map (hashed P)) : cs = ds := by
  have hinv : ∀ l : List (CodeChunk K), (∀ c ∈ l, c.contentHash = none) →
      (l.map (hashed P)).map (fun c => { c with contentHash := none }) = l := by
    intro l hl
    rw [List.map_map]
    refine (List.map_congr_left fun c hc => ?_).trans (List.map_id l)
    have := hl c hc
    cases c
    cases this
    rfl
  rw [← hinv cs hcs, h, hinv ds hds]

/-- What an indexed file is stored as: all that one version makes of just this content. -/
theorem Sound.of_hashMatches (hP : P.Lawful) (hs : Sound P s)
    (hm : (s.fileData f.path).hashMatches (P.sha256 f.content) = true) :
    ∃ version symbols chunks, P.chunked version f = .ok (symbols, chunks) ∧
      (s.fileData f.path).symbols = symbols ∧ (s.fileData f.path).rows.map Prod.snd = chunks.map (hashed P) ∧
      (∀ v ∈ (s.fileData f.path).versions, v = version) ∧ version ∈ (s.fileData f.path).versions := by
  unfold FileData.hashMatches at hm
  obtain ⟨hpos, -⟩ := Bool.and_eq_true_iff.mp hm
  obtain ⟨r, hr⟩ := List.exists_mem_of_length_pos (of_decide_eq_true hpos)
  obtain ⟨hr, hhash⟩ := List.mem_filter.mp hr
  rcases hs.whole f.path with hnil | ⟨version, content, symbols, chunks, hok, hsymbols, hrows, hversions⟩
  · rw [hnil] at hr
    cases hr
  · have hc : r.2 ∈ chunks.map (hashed P) := hrows ▸ List.mem_map_of_mem hr
    obtain ⟨c, hc, he⟩ := List.mem_map.mp hc
    have hown : c.fileHash = P.sha256 content := (hP.chunks hok c hc).2.1
    have hcontent : content = f.content := hP.injective (by
      rw [← hown, ← of_decide_eq_true hhash, ← he]
      rfl)
    subst hcontent
    have hv : s.savedBy r.1 ∈ (s.fileData f.path).versions := List.mem_map_of_mem hr
    exact ⟨version, symbols, chunks, hok, hsymbols, hrows, hversions, hversions _ hv ▸ hv⟩

/-- Everything stored of an indexed file has its hash. -/
theorem Sound.hash_of_hashMatches (hP : P.Lawful) (hs : Sound P s)
    (hm : (s.fileData f.path).hashMatches (P.sha256 f.content) = true) :
    ∀ r ∈ (s.fileData f.path).rows, r.2.fileHash = P.sha256 f.content := by
  obtain ⟨version, symbols, chunks, hok, -, hrows, -⟩ := hs.of_hashMatches hP hm
  intro r hr
  have hc : r.2 ∈ chunks.map (hashed P) := hrows ▸ List.mem_map_of_mem hr
  obtain ⟨c, hc, he⟩ := List.mem_map.mp hc
  rw [← he]
  exact (hP.chunks hok c hc).2.1

/-- Lists of at most one that make as many together as there are. -/
theorem length_eq_one_of_flatMap {β : Type} {g : α → List β} {l : List α} (hg : ∀ x ∈ l, (g x).length ≤ 1)
    (h : l.length = (l.flatMap g).length) : ∀ x ∈ l, (g x).length = 1 := by
  have hle : ∀ l : List α, (∀ x ∈ l, (g x).length ≤ 1) → (l.flatMap g).length ≤ l.length := by
    intro l hl
    induction l with
    | nil => exact Nat.le_refl 0
    | cons x l ih =>
      obtain ⟨hx, hl⟩ := List.forall_mem_cons.mp hl
      have := ih hl
      rw [List.flatMap_cons, List.length_append, List.length_cons]
      omega
  induction l with
  | nil =>
    intro x hx
    cases hx
  | cons x l ih =>
    obtain ⟨hx, hl⟩ := List.forall_mem_cons.mp hg
    have hrest := hle l hl
    rw [List.flatMap_cons, List.length_append, List.length_cons] at h
    exact List.forall_mem_cons.mpr ⟨by omega, ih hl (by omega)⟩

/-- Each chunk of an indexed file has one embedding. -/
theorem Sound.one_of_hashMatches (hP : P.Lawful) (hs : Sound P s)
    (hm : (s.fileData f.path).hashMatches (P.sha256 f.content) = true) :
    ∀ r ∈ (s.fileData f.path).rows,
      ((s.fileData f.path).embeddings.filter fun e => e.chunkId = r.1).length = 1 := by
  have hall : (s.fileData f.path).rows.filter (fun r => r.2.fileHash = P.sha256 f.content) =
      (s.fileData f.path).rows :=
    List.filter_eq_self.mpr fun r hr => decide_eq_true (hs.hash_of_hashMatches hP hm r hr)
  unfold FileData.hashMatches at hm
  rw [hall] at hm
  refine length_eq_one_of_flatMap (fun r _ => ?_) (of_decide_eq_true (Bool.and_eq_true_iff.mp hm).2)
  have hunique : ((s.fileData f.path).embeddings.map ChunkEmbedding.chunkId).Nodup :=
    hs.linked.unique.sublist (List.filter_sublist.map _)
  have hcount := List.nodup_iff_count_le_one.mp hunique r.1
  rw [List.count, List.countP_map] at hcount
  rw [← List.countP_eq_length_filter]
  refine Nat.le_trans (Nat.le_of_eq (List.countP_congr fun e _ => ?_)) hcount
  simp

/-! ## Exactness -/

theorem hashMatches_empty (hash : String) : (FileData.empty : FileData S K).hashMatches hash = false := rfl

/-- The embeddings of a chunk show in what is stored of its path. -/
theorem filter_embeddings {x : Nat × CodeChunk K} (hx : x ∈ s.rowsOf f.path) :
    s.embeddings.filter (fun e => e.chunkId = x.1) =
      (s.fileData f.path).embeddings.filter fun e => e.chunkId = x.1 := by
  show _ = (s.embeddings.filter (s.isOf f.path)).filter _
  rw [List.filter_filter]
  refine List.filter_congr fun e _ => ?_
  by_cases he : e.chunkId = x.1
  · rw [CodeData.isOf_iff.mpr ⟨x, hx, he.symm⟩, Bool.and_true]
  · rw [decide_eq_false he, Bool.false_and]

theorem Finished.exact (hP : P.Lawful) (hs : Sound P s₀) (h : Finished P r.indexer s₀ r.files s')
    (hr : r.Flawless P) (hfresh : Fresh P r s₀) : Exact P r.indexer r.files s' := by
  have honly : ∀ p, p ∉ r.files.map SourceFile.path → (s'.fileData p).symbols = [] ∧ (s'.fileData p).rows = [] := by
    intro p hp
    rw [h.others p hp]
    split
    · exact ⟨rfl, rfl⟩
    · rename_i hkept
      obtain ⟨hfiles, hrows⟩ := not_or.mp hkept
      refine ⟨List.eq_nil_iff_forall_not_mem.mpr fun x hx => hrows ?_, Decidable.not_not.mp hrows⟩
      obtain ⟨hx, hpath⟩ := List.mem_filter.mp hx
      have hpath : x.filePath = p := of_decide_eq_true hpath
      rw [← hpath] at hp ⊢
      exact hfresh.gone.resolve_left hfiles x hx hp
  refine ⟨fun f hf => ?_, honly, fun x hx => ?_⟩
  · have hsettled := h.settled f hf
    unfold Settled at hsettled
    split at hsettled
    · rename_i hm
      obtain ⟨version, symbols, chunks, hok, hsymbols, hrows, -, hv⟩ := hs.of_hashMatches hP hm
      rw [← CodeData.codeChunkHashMatches_eq] at hm
      rw [hsettled, ← (hfresh.skipped f hf hm).1 version hv]
      exact ⟨symbols, chunks, hok, hsymbols, hrows⟩
    · obtain ⟨symbols, chunks, hok⟩ := hr.parsed f hf
      obtain ⟨rfl, rfl⟩ := parsed_of_eq_ok hok
      exact ⟨_, _, hok, hsettled.symbols, hsettled.rows⟩
  · have hrow : x ∈ s'.rowsOf x.2.filePath := CodeData.mem_rowsOf.mpr ⟨Sql.Table.get_eq_some.mpr hx, rfl⟩
    by_cases hp : x.2.filePath ∈ r.files.map SourceFile.path
    · obtain ⟨f, hf, hpath⟩ := List.mem_map.mp hp
      rw [← hpath] at hrow
      rw [filter_embeddings hrow]
      have hsettled := h.settled f hf
      unfold Settled at hsettled
      split at hsettled
      · rename_i hm
        have hrow : x ∈ (s₀.fileData f.path).rows := hsettled ▸ hrow
        have hone := hs.one_of_hashMatches hP hm x hrow
        rw [List.length_eq_one_iff] at hone
        obtain ⟨e, he⟩ := hone
        have hmem := List.mem_filter.mp (he ▸ List.mem_singleton.mpr rfl)
        rw [← CodeData.codeChunkHashMatches_eq] at hm
        have hmodel := (hfresh.skipped f hf hm).2 e hmem.1
        have hid : e.chunkId = x.1 := of_decide_eq_true hmem.2
        rw [hsettled, he, ← hid, ← hmodel]
      · exact hsettled.embedded x hrow
    · have hnil := (honly _ hp).2
      rw [show s'.rowsOf x.2.filePath = [] from hnil] at hrow
      cases hrow

theorem Finished.fresh (hP : P.Lawful) (hs : Sound P s₀) (h : Finished P r.indexer s₀ r.files s')
    (hexact : Exact P r.indexer r.files s') : Fresh P r s₀ where
  skipped f hf hm := by
    rw [CodeData.codeChunkHashMatches_eq] at hm
    have hsettled := h.settled f hf
    rw [Settled, if_pos hm] at hsettled
    obtain ⟨version, symbols, chunks, hok, hsymbols, hrows, hversions, -⟩ := hs.of_hashMatches hP hm
    obtain ⟨symbols', chunks', hok', hsymbols', hrows'⟩ := hexact.complete f hf
    rw [hsettled, hsymbols] at hsymbols'
    rw [hsettled, hrows] at hrows'
    have hchunks : chunks = chunks' := eq_of_map_hashed_eq (fun c hc => (hP.chunks hok c hc).2.2)
      (fun c hc => (hP.chunks hok' c hc).2.2) hrows'
    refine ⟨fun v hv => ?_, fun e he => ?_⟩
    · rw [hversions v hv, hok, hok', hsymbols', hchunks]
    · rw [← hsettled] at he
      obtain ⟨hmem, hof⟩ := List.mem_filter.mp he
      obtain ⟨x, hx, hid⟩ := CodeData.isOf_iff.mp hof
      have hone := hexact.embedded x (Sql.Table.get_eq_some.mp (CodeData.mem_rowsOf.mp hx).1)
      have he : e ∈ s'.embeddings.filter fun e => e.chunkId = x.1 :=
        List.mem_filter.mpr ⟨hmem, decide_eq_true hid.symm⟩
      rw [hone] at he
      rw [List.mem_singleton.mp he]
  gone := by
    by_cases hfiles : r.files = []
    · exact .inl hfiles
    · refine .inr fun x hx hp hrows => ?_
      have hsame := h.others x.filePath hp
      rw [if_neg (by simp [hfiles, hrows])] at hsame
      have hnil := (hexact.only x.filePath hp).1
      rw [hsame] at hnil
      have hmem : x ∈ (s₀.fileData x.filePath).symbols := List.mem_filter.mpr ⟨hx, decide_eq_true rfl⟩
      rw [hnil] at hmem
      cases hmem

/-- Nothing is taken over by a full run. -/
theorem fresh_deleteAll (r : IndexRun) (s : CodeData S K) : Fresh P r s.deleteAllCodeDataForRepo where
  skipped f hf hm := by
    rw [CodeData.codeChunkHashMatches_eq, CodeData.deleteAllCodeDataForRepo, CodeData.fileData_deletePaths,
      if_pos rfl, hashMatches_empty] at hm
    cases hm
  gone := by
    refine .inr fun x hx => ?_
    have hx : x ∈ s.symbols.filter fun _ => false := hx
    rw [List.filter_false] at hx
    cases hx

theorem exact_step_iff (hP : P.Lawful) (hs : Sound P s) (hr : r.Flawless P) :
    Exact P r.indexer r.files (r.step P s) ↔ r.reindexes s = true ∨ Fresh P r s := by
  have hfinished := finished_step hP hs hr
  by_cases hfull : r.reindexes s = true
  · refine iff_of_true ?_ (.inl hfull)
    refine hfinished.exact hP (hs.start r) hr ?_
    rw [IndexRun.start, if_pos hfull]
    exact fresh_deleteAll r s
  · rw [or_iff_right hfull]
    rw [IndexRun.start, if_neg hfull] at hfinished
    exact ⟨hfinished.fresh hP hs, hfinished.exact hP hs hr⟩

/-- After any runs of any versions, each cut off wherever it may be, a run that goes well leaves the index
exact just when it is a full one or what it takes over is right. -/
theorem incremental_exact_iff (hP : P.Lawful) (history : List IndexRun) (hr : r.Flawless P) :
    Exact P r.indexer r.files (r.step P (run (IndexRun.step P) .empty history)) ↔
      r.reindexes (run (IndexRun.step P) .empty history) = true ∨
        Fresh P r (run (IndexRun.step P) .empty history) :=
  exact_step_iff hP (run_inv (P := Sound P) (fun _ r h => sound_step hP h r) sound_empty history) hr

/-! ### Runs of a small indexer -/

/-- Every file is one symbol and one chunk, named after the version. -/
def outline : Pipeline Unit String String where
  sha256 := id
  language _ _ := ()
  chunkFile version source _ path hash :=
    .ok ([⟨path, version⟩], [⟨path, source, "", hash, none, version⟩])
  buildEmbeddingText _ text := text

theorem lawful_outline : outline.Lawful where
  injective := Function.injective_id
  symbols h x hx := by
    cases h
    rw [List.mem_singleton.mp hx]
  chunks h c hc := by
    cases h
    rw [List.mem_singleton.mp hc]
    exact ⟨rfl, rfl, rfl⟩

def indexer (version : String) : CodeIndexer := ⟨version, "m", 64, false⟩

def brief (version : String) (f : SourceFile) (course : Course) : IndexRun where
  indexer := indexer version
  groups := [[f]]
  distinct := List.nodup_singleton f.path
  course := course

def goodRun (version : String) (f : SourceFile) : IndexRun := brief version f fun _ => some {}

theorem flawless_goodRun (version : String) (f : SourceFile) : (goodRun version f).Flawless outline where
  calls _ := ⟨{}, rfl, rfl, fun _ => Nat.le_refl _⟩
  parsed _ _ := ⟨_, _, rfl⟩

def fileA : SourceFile := ⟨"a.rs", "x"⟩

def fileB : SourceFile := ⟨"b.rs", "y"⟩

/-- The embedding of the chunk fails. -/
def unembedded : IndexRun :=
  brief "1" fileA fun n => some { error := if n = 7 then some (.storage "embedding failed") else none }

theorem indexed_again : Exact outline (indexer "1") [fileA]
    ((goodRun "1" fileA).step outline (run (IndexRun.step outline) .empty [unembedded])) := by
  refine (incremental_exact_iff lawful_outline [unembedded] (flawless_goodRun "1" fileA)).mpr
    (.inr ⟨?_, .inr ?_⟩)
  · intro f hf hm
    rw [List.mem_singleton.mp hf] at hm
    exact absurd hm (by decide +kernel)
  · decide +kernel

/-- The file is gone, and its symbol is not. -/
theorem symbol_of_gone_file : outline.Lawful ∧ (goodRun "1" fileB).Flawless outline ∧
    ¬ Exact outline (indexer "1") [fileB]
      ((goodRun "1" fileB).step outline (run (IndexRun.step outline) .empty [unembedded])) := by
  refine ⟨lawful_outline, flawless_goodRun _ _, fun h => ?_⟩
  have hnone := (h.only "a.rs" (by decide)).1
  revert hnone
  decide +kernel

end Exactness

end Claudear.Analysis.Indexing
