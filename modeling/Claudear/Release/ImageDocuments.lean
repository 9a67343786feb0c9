import Claudear.Release.ImageScanner
import Claudear.Text.BlockYaml

/-!
# The images of a values file

Which image entries a tree has, and which trees the line scan can read. What a block
scalar says depends on its folding and chomping and is a parameter.
-/

namespace Claudear.Release

open Claudear.Text Claudear.Text.BlockYaml

def keyPath (path key : List Char) : List Char := if path = [] then key else path ++ '.' :: key

def itemPath (path : List Char) : List Char := path ++ LIST_ITEM_SEGMENT

section
variable (loaded : BlockScalar → List Char)

def valueText : Node → Option (List Char)
  | .scalar _ s _ => some s.text
  | .block b => some (loaded b)
  | .null _ | .mapping .. | .sequence .. => none

def lookup (key : List Char) : Entries → Option (List Char)
  | .last k v => if k.text = key then valueText loaded v else none
  | .cons k v es => (lookup key es).or (if k.text = key then valueText loaded v else none)

def imageString (path value : List Char) : ImageReference :=
  ⟨path, .Scalar, some (splitImage value).1, (splitImage value).2⟩

/-- What the value of an `image` key says of the image. -/
def imageAt (path : List Char) : Node → List ImageReference
  | .scalar _ s _ => [imageString path s.text]
  | .block b => [imageString path (loaded b)]
  | .null _ => [⟨path, .Mapping, none, none⟩]
  | .mapping _ _ es => [⟨path, .Mapping, lookup loaded REPOSITORY_KEY es, lookup loaded TAG_KEY es⟩]
  | .sequence .. => []

mutual

def nodeImages (path : List Char) : Node → List ImageReference
  | .null _ | .scalar .. | .block _ => []
  | .mapping _ _ es => entriesImages path es
  | .sequence _ _ is => itemsImages path is

def entriesImages (path : List Char) : Entries → List ImageReference
  | .last k v => (if k.text = IMAGE_KEY then imageAt loaded (keyPath path k.text) v else []) ++
      nodeImages (keyPath path k.text) v
  | .cons k v es => (if k.text = IMAGE_KEY then imageAt loaded (keyPath path k.text) v else []) ++
      nodeImages (keyPath path k.text) v ++ entriesImages path es

def itemImages (path : List Char) : Item → List ImageReference
  | .node v => nodeImages (itemPath path) v
  | .mapping _ es => entriesImages (itemPath path) es
  | .sequence _ is => itemsImages (itemPath path) is

def itemsImages (path : List Char) : Items → List ImageReference
  | .last i => itemImages path i
  | .cons i is => itemImages path i ++ itemsImages path is

end

def rootImages : Root → List ImageReference
  | .null | .scalar .. | .block .. => []
  | .mapping _ es => entriesImages loaded [] es
  | .sequence _ is => itemsImages loaded [] is

/-- The image entries that name a repository or a tag, in the order of the file. -/
def images (d : Document) : List ImageReference :=
  (rootImages loaded d.root).filter fun r => r.repository.isSome || r.tag.isSome

end

/-! ## What can be read a line at a time -/

/-- Quotation marks are closed where the scalar ends, and white space is blanks. -/
def quotesClose {next : List Char} : Scalar next → Bool
  | .plain t _ => t.chars.all (fun c => !isWhitespace c || isBlank c) && colons.through none none t.chars = none
  | .double t => '"' ∉ t.chars
  | .single t => '\'' ∉ t.chars

/-- What is between the quotation marks is the text. -/
def literal {next : List Char} (s : Scalar next) : Bool :=
  quotesClose s && match s with
    | .double t => '\\' ∉ t.chars
    | .plain .. | .single _ => true

def keyLegible (k : Key) : Bool := literal k.scalar && k.text ≠ [] && k.text ≠ LIST_ITEM_SEGMENT

def isImageKey (key : List Char) : Bool := key = IMAGE_KEY ∨ key = REPOSITORY_KEY ∨ key = TAG_KEY

/-- The key as the scan has it: without its quotation marks. -/
def keyRead (k : Key) : List Char := unquote k.scalar.written

/-- What opens no scope may be under any other key, a block scalar under any but an empty one. -/
def leafLegible (k : Key) (v : Node) : Bool :=
  quotesClose k.scalar && !isImageKey k.text && !isImageKey (keyRead k) && match v with
    | .scalar .. => true
    | .block _ => keyRead k ≠ []
    | .null _ | .mapping .. | .sequence .. => false

/-- Of a value that names no image only the first character matters. -/
def valueLegible : Node → Bool
  | .scalar _ (.plain t _) _ => !t.chars.head?.any isWhitespace
  | .null _ | .scalar .. | .block _ | .mapping .. | .sequence .. => true

def trackedLegible : Entries → Bool
  | .last k v => (k.text ≠ REPOSITORY_KEY ∧ k.text ≠ TAG_KEY) || scalarLiteral v
  | .cons k v es => ((k.text ≠ REPOSITORY_KEY ∧ k.text ≠ TAG_KEY) || scalarLiteral v) && trackedLegible es
where
  scalarLiteral : Node → Bool
    | .scalar _ s _ => literal s
    | .null _ | .block _ | .mapping .. | .sequence .. => true

def imageLegible : Node → Bool
  | .scalar _ s _ => literal s
  | .mapping _ _ es => trackedLegible es
  | .null _ | .block _ | .sequence .. => true

/-- No block scalar, and a space after the dash of a scalar. -/
def itemStarts : Node → Bool
  | .scalar gap s _ => gap.chars.head? = some ' ' && quotesClose s
  | .block _ => false
  | .null _ | .mapping .. | .sequence .. => true

/-- A second dash on a line is read as text: a scalar or nothing follows it. -/
def textOnly : Item → Bool
  | .node (.null _) => true
  | .node (.scalar gap s e) => itemStarts (.scalar gap s e)
  | .node (.block _) | .node (.mapping ..) | .node (.sequence ..) | .mapping .. | .sequence .. => false

mutual

def nodeLegible : Node → Bool
  | .null _ | .scalar .. | .block _ => true
  | .mapping _ _ es => entriesLegible es
  | .sequence _ _ is => itemsLegible is

def entriesLegible : Entries → Bool
  | .last k v => (keyLegible k || leafLegible k v) && valueLegible v && (k.text ≠ IMAGE_KEY || imageLegible v) &&
      nodeLegible v
  | .cons k v es => (keyLegible k || leafLegible k v) && valueLegible v && (k.text ≠ IMAGE_KEY || imageLegible v) &&
      nodeLegible v && entriesLegible es

def itemLegible : Item → Bool
  | .node v => itemStarts v && nodeLegible v
  | .mapping _ es => entriesLegible es
  | .sequence _ (.last i) => textOnly i
  | .sequence _ (.cons i is) => textOnly i && itemsLegible is

def itemsLegible : Items → Bool
  | .last i => itemLegible i
  | .cons i is => itemLegible i && itemsLegible is

end

def legible (d : Document) : Bool :=
  match d.root with
  | .null => true
  | .scalar _ s _ => quotesClose s
  | .block .. => false
  | .mapping _ es => entriesLegible es
  | .sequence _ is => itemsLegible is

end Claudear.Release
