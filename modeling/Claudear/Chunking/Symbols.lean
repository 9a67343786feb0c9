import Claudear.Chunking.Code

/-!
# Symbols of a source file

What the grammar of a language says about a node of the syntax tree (its kind, its name and
signature, whether it is a container) is given with the node.
-/

namespace Claudear.Chunking

inductive SymbolKind where
  | Function | Class | Method | Struct | Impl | Interface | Trait | Enum | Module | Constant
  deriving DecidableEq, Repr

structure CodeSymbol where
  symbol_name : String
  symbol_kind : SymbolKind
  parent_symbol : Option String
  start_line : Nat
  end_line : Nat
  signature : Option String
  deriving DecidableEq, Repr

/-- A node that `classify_node` knows and that has a name. -/
structure NamedNode where
  kind : SymbolKind
  name : String
  signature : Option String
  container : Bool
  deriving DecidableEq, Repr

inductive SyntaxNode where
  | node (named : Option NamedNode) (start_row end_row : Nat) (children : List SyntaxNode)

def symbolOf (named : NamedNode) (parent_name : Option String) (start_row end_row : Nat) : CodeSymbol where
  symbol_name := named.name
  symbol_kind := if named.kind = .Function ∧ parent_name ≠ none then .Method else named.kind
  parent_symbol := parent_name
  start_line := start_row + 1
  end_line := end_row + 1
  signature := named.signature

mutual

def extractSymbols (parent_name : Option String) : SyntaxNode → List CodeSymbol
  | .node none _ _ children => extractFrom parent_name children
  | .node (some named) start_row end_row children =>
    symbolOf named parent_name start_row end_row ::
      extractFrom (if named.container then some named.name else parent_name) children

def extractFrom (parent_name : Option String) : List SyntaxNode → List CodeSymbol
  | [] => []
  | child :: rest => extractSymbols parent_name child ++ extractFrom parent_name rest

end

def isTopLevelContainer (sym : CodeSymbol) : Bool :=
  decide (sym.parent_symbol = none) &&
    decide (sym.symbol_kind ∈ [SymbolKind.Class, .Struct, .Trait, .Impl, .Interface, .Enum, .Module])

/-- A function or a method. -/
def CodeSymbol.callable (sym : CodeSymbol) : Bool := decide (sym.symbol_kind = .Method ∨ sym.symbol_kind = .Function)

/-- The first line, counted from 0. -/
def CodeSymbol.first (sym : CodeSymbol) : Nat := sym.start_line - 1

def CodeSymbol.past (sym : CodeSymbol) (lines : List (List Char)) : Nat := min sym.end_line lines.length

/-- The line, counted from 0, belongs to the symbol. -/
def CodeSymbol.Has (sym : CodeSymbol) (lines : List (List Char)) (i : Nat) : Prop := sym.first ≤ i ∧ i < sym.past lines

instance (sym : CodeSymbol) (lines : List (List Char)) (i : Nat) : Decidable (sym.Has lines i) :=
  inferInstanceAs (Decidable (_ ∧ _))

end Claudear.Chunking
