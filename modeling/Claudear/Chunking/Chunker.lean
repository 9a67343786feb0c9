import Claudear.Chunking.Splitting
import Claudear.Chunking.Symbols
import Mathlib.Data.List.Infix

/-!
# Chunking a file

Containers come first, then the functions outside them, then the constants; each marks its
lines as covered. What is left is cut into blocks. A chunk stands with the number of the
symbol it is for.
-/

namespace Claudear.Chunking

open Claudear.Text

def LARGE_CLASS_LINES : Nat := 100

def MAX_IMPORT_CONTEXT_CHARS : Nat := 500

def trimLine (l : List Char) : List Char := trimMatches isWhitespace l

def starts (text : String) (l : List Char) : Bool := text.toList.isPrefixOf l

def ends (text : String) (l : List Char) : Bool := text.toList.isSuffixOf l

def holds (text : String) (l : List Char) : Bool := decide (text.toList <:+: l)

/-! ## Context of a chunk -/

def isImport : Language → List Char → Bool
  | .Rust, l => starts "use " l || starts "pub use " l
  | .Python, l => starts "import " l || starts "from " l
  | .JavaScript, l | .TypeScript, l | .Tsx, l => starts "import " l || holds "require(" l
  | .Go, l => starts "import " l
  | .Java, l | .Kotlin, l => starts "import " l || starts "package " l
  | .C, l | .Cpp, l => starts "#include" l
  | .CSharp, l => starts "using " l
  | .Ruby, l => starts "require " l || starts "require_relative " l
  | .Php, l => starts "use " l || starts "namespace " l
  | .Swift, l => starts "import " l
  | .Dart, l => starts "import " l || starts "part " l
  | _, _ => false

def importLines (language : Language) : Bool → List (List Char) → List (List Char)
  | _, [] => []
  | in_go_import_block, line :: rest =>
    let trimmed := trimLine line
    if language = .Go ∧ trimmed = "import (".toList then importLines language true rest
    else if language = .Go ∧ in_go_import_block then
      if trimmed = [')'] then importLines language false rest
      else if trimmed ≠ [] then trimmed :: importLines language true rest
      else importLines language true rest
    else if isImport language trimmed then trimmed :: importLines language in_go_import_block rest
    else importLines language in_go_import_block rest

def capImports : List Char → List (List Char) → List Char
  | result, [] => result
  | result, line :: rest =>
    if MAX_IMPORT_CONTEXT_CHARS < byteLength result + byteLength line + 1 then result ++ "// ...\n".toList
    else capImports (result ++ line ++ ['\n']) rest

def extractImports (source : List Char) (language : Language) : Option String :=
  let import_lines := importLines language false (Text.lines source)
  if import_lines = [] then none else some (String.ofList (capImports [] import_lines))

/-- What the chunks of a file have in common. -/
structure FileContext where
  language : Language
  repo_id : Int
  file_path : String
  file_hash : String
  imports : Option String
  deriving DecidableEq, Repr

def buildContextPrefix (file : FileContext) (chunk_type : String) (symbol_name parent signature : Option String) : String :=
  s!"File: {file.file_path}\nLanguage: {file.language.asStr}\n" ++
  (match symbol_name with
    | some name => s!"Symbol: {name} ({chunk_type})\n"
    | none => s!"Type: {chunk_type}\n") ++
  (match parent with
    | some p => s!"Parent: {p}\n"
    | none => "") ++
  (match signature with
    | some sig => s!"Signature: {sig}\n"
    | none => "") ++
  (match file.imports with
    | some imp => if imp = "" then "" else "Imports:\n" ++ imp
    | none => "")

/-! ## Chunks of symbols -/

/-- `lines[start..end.min(lines.len())].join("\n")` -/
def collectLines (lines : List (List Char)) (first past : Nat) : List Char :=
  joinLines (between lines first (min past lines.length))

/-- `str::matches` counts occurrences that do not overlap; the first argument is how many characters
of the last one are left. -/
def countMatches (pattern : List Char) : Nat → List Char → Nat
  | _, [] => 0
  | left + 1, _ :: rest => countMatches pattern left rest
  | 0, c :: rest =>
    if pattern.isPrefixOf (c :: rest) then 1 + countMatches pattern (pattern.length - 1) rest
    else countMatches pattern 0 rest

def isLeading (l : List Char) : Bool :=
  ["//", "#[", "#![", "# ", "/**", "* ", "*/", "@"].any (starts · l)

/-- The triple quote a docstring ends or starts with. -/
def tripleQuote (l : List Char) : Option String :=
  ["\"\"\"", "'''"].find? fun delim => ends delim l || starts delim l

def gatherFrom (lines : List (List Char)) : Nat → Option String → Nat
  | 0, _ => 0
  | ctx_start + 1, inside_triple_quote =>
    let prev := trimLine (lines.getD ctx_start [])
    match inside_triple_quote with
    | some delim => gatherFrom lines ctx_start (if holds delim prev then none else some delim)
    | none =>
      if prev = [] then ctx_start + 1
      else match tripleQuote prev with
        | some delim => gatherFrom lines ctx_start (if countMatches delim.toList 0 prev < 2 then some delim else none)
        | none => if isLeading prev then gatherFrom lines ctx_start none else ctx_start + 1

def gatherLeadingContext (lines : List (List Char)) (start_0idx : Nat) : Nat :=
  if lines.length ≤ start_0idx then start_0idx else gatherFrom lines start_0idx none

def chunkType : SymbolKind → String
  | .Function => "function"
  | .Method => "function"
  | .Class => "class"
  | .Struct => "class"
  | .Impl => "impl_block"
  | .Trait => "class"
  | .Interface => "class"
  | .Enum => "class"
  | .Module => "module_header"
  | .Constant => "top_level"

def newChunk (file : FileContext) (chunk_type : String) (symbol_name : Option String) (first past : Nat) (text : List Char)
    (context_text : String) : CodeChunk where
  id := none
  repo_id := file.repo_id
  file_path := file.file_path
  chunk_type
  symbol_name
  language := file.language
  start_line := first + 1
  end_line := past
  chunk_text := text
  context_text
  file_hash := file.file_hash
  content_hash := none

variable (file : FileContext) (lines : List (List Char)) (symbols : List CodeSymbol)

def buildSymbolChunk (sym : CodeSymbol) : CodeChunk :=
  let first := gatherLeadingContext lines sym.first
  let past := sym.past lines
  let text := if first < past then collectLines lines first past else []
  newChunk file (chunkType sym.symbol_kind) (some sym.symbol_name) first past text
    (buildContextPrefix file (chunkType sym.symbol_kind) (some sym.symbol_name) sym.parent_symbol sym.signature)

/-- The functions and methods with the name of the container as their parent. -/
def methodsOf (sym : CodeSymbol) : List (CodeSymbol × Nat) :=
  symbols.zipIdx.filter fun s => decide (s.1.parent_symbol = some sym.symbol_name) && s.1.callable

/-- What a skeleton shows after the first lines of the container. -/
def methodListing (sym : CodeSymbol) : List Char :=
  "\n\n    // ... methods ...\n\n".toList ++ (methodsOf symbols sym).flatMap fun s =>
    match s.1.signature with
    | some sig => "    ".toList ++ sig.toList ++ " { ... }\n".toList
    | none => []

def buildSkeletonChunk (sym : CodeSymbol) : CodeChunk :=
  let first := gatherLeadingContext lines sym.first
  let past := sym.past lines
  let leading := if first < sym.first then collectLines lines first sym.first ++ ['\n'] else []
  let header := collectLines lines sym.first (min (sym.first + 5) past)
  newChunk file "class" (some sym.symbol_name) first past (leading ++ header ++ methodListing symbols sym)
    (buildContextPrefix file "class" (some sym.symbol_name) none sym.signature)

def isLarge (sym : CodeSymbol) : Bool := decide (LARGE_CLASS_LINES < sym.past lines - sym.first)

/-- The chunks of a container outside the others. -/
def containerChunks (sym : CodeSymbol × Nat) : List (Nat × CodeChunk) :=
  if isLarge lines sym.1 then
    (sym.2, buildSkeletonChunk file lines symbols sym.1) ::
      (methodsOf symbols sym.1).map fun method => (method.2, buildSymbolChunk file lines method.1)
  else [(sym.2, buildSymbolChunk file lines sym.1)]

/-! ## Covered lines -/

def markCovered (covered : List Bool) (sym : CodeSymbol) : List Bool :=
  covered.mapIdx fun i line => line || decide (sym.Has lines i)

def markContainer (covered : List Bool) (sym : CodeSymbol) : List Bool :=
  let inside := if isLarge lines sym then (methodsOf symbols sym).foldl (fun covered s => markCovered lines covered s.1) covered
    else covered
  markCovered lines inside sym

/-- The symbols whose first line is not covered yet; each covers its lines. -/
def takeUncovered : List Bool → List (CodeSymbol × Nat) → List (CodeSymbol × Nat) × List Bool
  | covered, [] => ([], covered)
  | covered, sym :: rest =>
    if covered.getD sym.1.first true then takeUncovered covered rest
    else
      let (taken, after) := takeUncovered (markCovered lines covered sym.1) rest
      (sym :: taken, after)

def topLevelContainers : List (CodeSymbol × Nat) := symbols.zipIdx.filter (isTopLevelContainer ·.1)

def standaloneFunctions : List (CodeSymbol × Nat) :=
  symbols.zipIdx.filter fun s => decide (s.1.parent_symbol = none) && decide (s.1.symbol_kind = .Function)

def standaloneConstants : List (CodeSymbol × Nat) :=
  symbols.zipIdx.filter fun s => decide (s.1.parent_symbol = none) &&
    decide (s.1.symbol_kind ∈ [SymbolKind.Constant, .Enum, .Struct]) && !isTopLevelContainer s.1

def coveredByContainers : List Bool :=
  (topLevelContainers symbols).foldl (fun covered sym => markContainer lines symbols covered sym.1) (List.replicate lines.length false)

def takenFunctions : List (CodeSymbol × Nat) × List Bool :=
  takeUncovered lines (coveredByContainers lines symbols) (standaloneFunctions symbols)

def takenConstants : List (CodeSymbol × Nat) × List Bool :=
  takeUncovered lines (takenFunctions lines symbols).2 (standaloneConstants symbols)

/-! ## Blocks -/

/-- The blocks of uncovered lines from line `i` on, the first of which may be open. -/
def blocksFrom : Nat → Option Nat → Nat → List Bool → List (Nat × Nat)
  | _, none, _, [] => []
  | _, some bs, _, [] => [(bs, lines.length)]
  | i, block_start, consecutive_blanks, covered :: rest =>
    let is_blank := decide (trimLine (lines.getD i []) = [])
    if !covered && !is_blank then blocksFrom (i + 1) (some (block_start.getD i)) 0 rest
    else match block_start with
      | none => blocksFrom (i + 1) none consecutive_blanks rest
      | some bs =>
        if is_blank && !covered then
          if 2 ≤ consecutive_blanks + 1 then
            let past := i - (consecutive_blanks + 1 - 1)
            (if bs < past then [(bs, past)] else []) ++ blocksFrom (i + 1) none 0 rest
          else blocksFrom (i + 1) (some bs) (consecutive_blanks + 1) rest
        else (bs, i) :: blocksFrom (i + 1) none 0 rest

/-- The lines of a block that are not covered. -/
def blockLines (covered : List Bool) (block : Nat × Nat) : List Nat :=
  (List.range' block.1 (block.2 - block.1)).filter fun i => !covered.getD i true

def blockText (covered : List Bool) (block : Nat × Nat) : List Char :=
  joinLines ((blockLines covered block).map (lines.getD · []))

def buildTopLevelChunks (covered : List Bool) : List CodeChunk :=
  ((blocksFrom lines 0 none 0 covered).filter fun block => decide (MIN_CHUNK_CHARS ≤ byteLength (blockText lines covered block))).map
    fun block => newChunk file "top_level" none block.1 block.2 (blockText lines covered block)
      (buildContextPrefix file "top_level" none none none)

/-! ## The file -/

/-- The chunks of the symbols, each with the number of its symbol. -/
def symbolChunks : List (Nat × CodeChunk) :=
  (topLevelContainers symbols).flatMap (containerChunks file lines symbols) ++
    (takenFunctions lines symbols).1.map (fun sym => (sym.2, buildSymbolChunk file lines sym.1)) ++
    (takenConstants lines symbols).1.map fun sym => (sym.2, buildSymbolChunk file lines sym.1)

/-- The chunks before oversized ones are split. -/
def wholeChunks : List CodeChunk :=
  (symbolChunks file lines symbols).map Prod.snd ++ buildTopLevelChunks file lines (takenConstants lines symbols).2

/-- `generated` stands for `abnegate_index::generated` and `parse` for the parser; `none` is its error. -/
def chunkFile (generated : String → List Char → Bool) (parse : List Char → Language → Option SyntaxNode) (source : List Char)
    (language : Language) (repo_id : Int) (file_path file_hash : String) : Option (List CodeSymbol × List CodeChunk) :=
  if generated file_path source then some ([], [])
  else (parse source language).map fun root =>
    let symbols := extractSymbols none root
    let file : FileContext := ⟨language, repo_id, file_path, file_hash, extractImports source language⟩
    (symbols, splitOversized (wholeChunks file (Text.lines source) symbols))

end Claudear.Chunking
