import Claudear.Text.Bytes

/-!
# Code symbols and chunks
-/

namespace Claudear.Chunking

inductive Language where
  | Rust | TypeScript | Tsx | JavaScript | Python | Go | Java | C | Cpp | Ruby | Php | Swift | Kotlin | CSharp | Dart
  | Yaml | Json | Dockerfile | Lua
  deriving DecidableEq, Repr

def Language.asStr : Language → String
  | .Rust => "Rust"
  | .TypeScript => "TypeScript"
  | .Tsx => "TSX"
  | .JavaScript => "JavaScript"
  | .Python => "Python"
  | .Go => "Go"
  | .Java => "Java"
  | .C => "C"
  | .Cpp => "C++"
  | .Ruby => "Ruby"
  | .Php => "PHP"
  | .Swift => "Swift"
  | .Kotlin => "Kotlin"
  | .CSharp => "C#"
  | .Dart => "Dart"
  | .Yaml => "YAML"
  | .Json => "JSON"
  | .Dockerfile => "Dockerfile"
  | .Lua => "Lua"

structure CodeChunk where
  id : Option Int
  repo_id : Int
  file_path : String
  chunk_type : String
  symbol_name : Option String
  language : Language
  start_line : Nat
  end_line : Nat
  chunk_text : List Char
  context_text : String
  file_hash : String
  content_hash : Option String
  deriving DecidableEq

end Claudear.Chunking
