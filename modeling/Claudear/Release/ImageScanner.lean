import Claudear.Text.Bytes
import Claudear.Text.Quotes

/-!
# The image scanner

`image_references` goes through a values file line by line, with the keys the line
stands under in `scopes`. How `{:?}` writes a text is a parameter.
-/

namespace Claudear.Release

open Claudear.Text

/-! ## Names -/

def IMAGE_KEY : List Char := "image".toList
def REPOSITORY_KEY : List Char := "repository".toList
def TAG_KEY : List Char := "tag".toList
def LIST_ITEM_SEGMENT : List Char := "[]".toList
def MERGE_KEY : List Char := "<<".toList

inductive ImageForm where
  | Mapping
  | Scalar
  deriving DecidableEq, Repr

structure ImageReference where
  path : List Char
  form : ImageForm
  repository : Option (List Char)
  tag : Option (List Char)
  deriving DecidableEq, Repr

def trimStart (l : List Char) : List Char := l.dropWhile isWhitespace

def trimEnd (l : List Char) : List Char := l.rdropWhile isWhitespace

def startsWith (chars : List Char) (l : List Char) : Bool := l.head?.any (· ∈ chars)

/-! ## Keys, comments and scalars -/

def unquote (value : List Char) : List Char :=
  match enclosed '"' with
  | some inner => inner
  | none => (enclosed '\'').getD value
where
  enclosed (quote : Char) : Option (List Char) :=
    match value with
    | [] => none
    | c :: rest => if c = quote ∧ rest.getLast? = some quote then some rest.dropLast else none

def opensQuote (previous : Option Char) : Bool :=
  previous.all fun c => isWhitespace c ∨ c ∈ [':', '[', '{', ',']

/-- A `#` that starts the line or follows whitespace. -/
def comments : Quoting where
  opens := opensQuote
  stop previous c _ := c = '#' ∧ previous.all isWhitespace

/-- A colon that ends the line or is followed by whitespace. -/
def colons : Quoting where
  opens := opensQuote
  stop _ c rest := c = ':' ∧ rest.head?.all isWhitespace

def stripComment (line : List Char) : List Char := ((comments.splitUnquoted none none line).map Prod.fst).getD line

def splitKey (entry : List Char) : Option (List Char × List Char) :=
  (colons.splitUnquoted none none entry).bind fun (before, rest) =>
    let key := unquote (trimMatches isWhitespace before)
    if key = [] then none else some (key, trimMatches isWhitespace rest)

def stripAnchor : List Char → List Char
  | '&' :: anchored => trimStart (anchored.dropWhile fun c => !isWhitespace c)
  | value => value

def isBlockScalar : List Char → Bool
  | [] => false
  | c :: rest => (c = '|' ∨ c = '>') && rest.all fun d => d = '-' ∨ d = '+' ∨ d.isDigit

def isListItem (entry : List Char) : Bool := entry = ['-'] ∨ ['-', ' '] <+: entry

def quoteInFlow (quote : Option Char) (c : Char) : Option Char :=
  match quote with
  | none => if c = '"' ∨ c = '\'' then some c else none
  | some open' => if c = open' then none else some open'

def flowBalanceFrom (quote : Option Char) : List Char → Int
  | [] => 0
  | c :: rest =>
    (if quote = none ∧ (c = '{' ∨ c = '[') then 1 else if quote = none ∧ (c = '}' ∨ c = ']') then -1 else 0) +
      flowBalanceFrom (quoteInFlow quote c) rest

def flowBalance (text : List Char) : Int := flowBalanceFrom none text

def isQuote (c : Char) : Bool := c = '"' ∨ c = '\''

/-- Asks of each place in the text whether it stands for an `image` key. -/
def mentionsImageKey (text : List Char) : Bool :=
  (List.range text.length).any fun index =>
    let before := (text.take index).rdropWhile isQuote
    let after := (text.drop (index + IMAGE_KEY.length)).dropWhile isQuote
    IMAGE_KEY <+: text.drop index ∧ before.getLast?.all (fun c => isWhitespace c ∨ c = '{' ∨ c = ',') ∧
      startsWith [':'] (trimStart after)

/-- `value.parse::<f64>().is_ok()`, with `value` in lower case. -/
def parsesAsF64 (lower : List Char) : Bool :=
  let unsigned := if startsWith ['+', '-'] lower then lower.drop 1 else lower
  unsigned = "inf".toList ∨ unsigned = "infinity".toList ∨ unsigned = "nan".toList ∨ number unsigned
where
  number (l : List Char) : Bool :=
    let whole := l.takeWhile Char.isDigit
    match l.dropWhile Char.isDigit with
    | '.' :: rest =>
      let fraction := rest.takeWhile Char.isDigit
      (whole ≠ [] ∨ fraction ≠ []) ∧ exponent (rest.dropWhile Char.isDigit)
    | rest => whole ≠ [] ∧ exponent rest
  exponent : List Char → Bool
    | [] => true
    | 'e' :: rest =>
      let digits := if startsWith ['+', '-'] rest then rest.drop 1 else rest
      digits ≠ [] ∧ digits.all Char.isDigit
    | _ => false

def isHexDigit (c : Char) : Bool := c.isDigit ∨ c ∈ "abcdefABCDEF".toList

def loadsAsNonString (value : List Char) : Bool :=
  let lower := value.map Char.toLower
  KEYWORDS.contains (lower.dropWhile (· = '.')) ∨ lower.dropWhile (· ∈ ['+', '-', '.']) = "inf".toList ∨
    parsesAsF64 lower ∨ radix "0x".toList lower ∨ radix "0o".toList lower
where
  KEYWORDS : List (List Char) :=
    ["~", "null", "true", "false", "yes", "no", "on", "off", "y", "n", "nan"].map String.toList
  radix (start' lower : List Char) : Bool :=
    start' <+: lower ∧ lower.drop start'.length ≠ [] ∧ (lower.drop start'.length).all isHexDigit

/-- The repository and tag of a `repository[:tag][@digest]` image string. -/
def splitImage (value : List Char) : List Char × Option (List Char) :=
  let undigested := value.takeWhile (· ≠ '@')
  let name := undigested.rtakeWhile (· ≠ '/')
  if ':' ∈ name then
    let tag := undigested.rtakeWhile (· ≠ ':')
    (undigested.take (undigested.length - tag.length - 1), some tag)
  else (undigested, none)

/-- The string a scalar value loads as, or an error when YAML would load it as
something other than a string. -/
def scalar (debug : List Char → String) (value : List Char) : Except String (List Char) :=
  let unquoted := unquote value
  if byteLength unquoted ≠ byteLength value then .ok unquoted
  else if startsWith ['"', '\''] value then .error "has an unterminated quote"
  else if loadsAsNonString value then .error s!"{debug value} loads as a number, boolean or null; quote it"
  else .ok value

/-! ## The scanner -/

structure ScopeEntry where
  indent : Nat
  segment : List Char
  image : Option Nat
  within_image : Bool
  deriving DecidableEq

structure PendingFlow where
  text : List Char
  depth : Int

structure ImageScanner where
  scopes : List ScopeEntry := []
  references : List ImageReference := []
  block_scalar_indent : Option Nat := none
  flow : Option PendingFlow := none
  line_number : Nat := 0

/-- The path of a key, below `path`. -/
def joinSegment (path segment : List Char) : List Char :=
  if segment = LIST_ITEM_SEGMENT then path ++ LIST_ITEM_SEGMENT
  else if path = [] then segment
  else path ++ '.' :: segment

def ImageScanner.joined (segments : List (List Char)) : List Char := segments.foldl joinSegment []

def withinImage (scopes : List ScopeEntry) : Bool := scopes.getLast?.any (·.within_image)

def ScopeEntry.above (indent : Nat) (scope : ScopeEntry) : Bool := scope.indent < indent

/-- A sequence may stand at the column of the key that it belongs to. -/
def ScopeEntry.holdsItem (indent : Nat) (scope : ScopeEntry) : Bool :=
  scope.indent < indent ∨ scope.indent = indent ∧ scope.segment ≠ LIST_ITEM_SEGMENT

namespace ImageScanner

def path (s : ImageScanner) : List Char := joined (s.scopes.map (·.segment))

def pathWith (s : ImageScanner) (key : List Char) : List Char := joined (s.scopes.map (·.segment) ++ [key])

def open' (s : ImageScanner) (indent : Nat) (key : List Char) (image : Option Nat) : ImageScanner :=
  { s with scopes := s.scopes ++ [⟨indent, key, image, image.isSome || withinImage s.scopes⟩] }

def record (s : ImageScanner) (path : List Char) (form : ImageForm) (repository tag : Option (List Char)) :
    ImageScanner :=
  { s with references := s.references ++ [⟨path, form, repository, tag⟩] }

def fail {α : Type} (path : List Char) (text : String) : Except String α := .error (String.ofList path ++ text)

section
variable (debug : List Char → String) (s : ImageScanner)

def assign (index : Nat) (path key value : List Char) : Except String ImageScanner :=
  if key = MERGE_KEY ∨ startsWith ['&', '*'] value then
    fail path " uses an alias, anchor or merge key in an image block"
  else if key ≠ REPOSITORY_KEY ∧ key ≠ TAG_KEY then .ok s
  else
    let path := path ++ '.' :: key
    if value = [] ∨ isBlockScalar value ∨ startsWith ['{', '['] value then fail path " is not a single value"
    else match scalar debug value with
      | .error error => fail path (" " ++ error)
      | .ok value =>
        if value = [] then fail path " is empty"
        else .ok { s with references := s.references.modify index fun r =>
          if key = REPOSITORY_KEY then { r with repository := some value } else { r with tag := some value } }

def entry (indent : Nat) (key value : List Char) : Except String ImageScanner :=
  let value := stripAnchor value
  if isBlockScalar value then .ok { s with block_scalar_indent := some indent }
  else if value = [] then .ok (s.open' indent key none)
  else if startsWith ['{', '['] value then
    let depth := flowBalance value
    if 0 < depth then .ok { s with flow := some ⟨value, depth⟩ }
    else if mentionsImageKey value then fail (s.pathWith key) " has an image inside a flow collection"
    else .ok s
  else .ok s

/-- The pieces between the braces of a flow mapping. -/
def assignPieces (index : Nat) (path : List Char) : ImageScanner → List (List Char) → Except String ImageScanner
  | s, [] => .ok s
  | s, piece :: rest =>
    match splitKey piece with
    | none => fail path " has an entry that cannot be read"
    | some (child, child_value) =>
      match s.assign debug index path child child_value with
      | .error e => .error e
      | .ok s => assignPieces index path s rest

def image (indent : Nat) (value : List Char) : Except String ImageScanner :=
  let path := s.pathWith IMAGE_KEY
  if startsWith ['&', '*'] value then fail path " is anchored or aliased"
  else if isBlockScalar value ∨ startsWith ['['] value then fail path " is not a mapping or an image string"
  else if value = [] then
    .ok ((s.record path .Mapping none none).open' indent IMAGE_KEY (some s.references.length))
  else if startsWith ['{'] value then
    let inner := (value.drop 1).dropLast
    if (value.drop 1).getLast? = some '}' ∧ ¬ inner.any (· ∈ ['{', '[', '}', ']']) then
      let pieces := ((inner.splitOn ',').map (trimMatches isWhitespace)).filter (· ≠ [])
      (s.record path .Mapping none none).assignPieces debug s.references.length path pieces
    else fail path " is a flow mapping that cannot be read"
  else match scalar debug value with
    | .error error => fail path (" " ++ error)
    | .ok name =>
      if name = [] then fail path " is empty"
      else .ok (s.record path .Scalar (some (splitImage name).1) (splitImage name).2)

def imageEntry (indent : Nat) (key value : List Char) : Except String ImageScanner :=
  let path := s.pathWith key
  if key = MERGE_KEY ∨ startsWith ['&', '*'] value then
    fail path " uses an alias, anchor or merge key in an image block"
  else match s.scopes.getLast?.bind (·.image) with
    | some index =>
      if key = REPOSITORY_KEY ∨ key = TAG_KEY then s.assign debug index s.path key value
      else untracked path
    | none =>
      if key = REPOSITORY_KEY ∨ key = TAG_KEY then fail path " is nested too deeply in an image block"
      else untracked path
where
  untracked (path : List Char) : Except String ImageScanner :=
    if key = IMAGE_KEY then fail path " is nested too deeply in an image block"
    else if isBlockScalar value then .ok { s with block_scalar_indent := some indent }
    else if value = [] then .ok (s.open' indent key none)
    else .ok s

/-- An entry with a key. -/
def keyed (indent : Nat) (key value : List Char) : Except String ImageScanner :=
  if withinImage s.scopes then s.imageEntry debug indent key value
  else if key = IMAGE_KEY then s.image debug indent value
  else s.entry indent key value

def entryText (indent : Nat) (entry : List Char) : Except String ImageScanner :=
  match splitKey entry with
  | none => if withinImage s.scopes then fail s.path " has an entry that is not a key" else .ok s
  | some (key, value) => s.keyed debug indent key value

def listItem (indent : Nat) (entry : List Char) : Except String ImageScanner :=
  let scopes := s.scopes.filter (·.holdsItem indent)
  if scopes.getLast?.any (·.image.isSome) then fail (joined (scopes.map (·.segment))) " is a sequence"
  else
    let s := ImageScanner.open' { s with scopes } indent LIST_ITEM_SEGMENT none
    let item := trimStart (entry.drop 1)
    if item = [] then .ok s
    else s.entryText debug (indent + (byteLength entry - byteLength item)) item

/-- A line that continues a flow collection. -/
def flowLine (flow : PendingFlow) (trimmed : List Char) : Except String ImageScanner :=
  let text := flow.text ++ ' ' :: trimmed
  let depth := flow.depth + flowBalance trimmed
  if depth ≤ 0 then
    if mentionsImageKey text then .error "an image inside a multi-line flow collection"
    else .ok { s with flow := none }
  else .ok { s with flow := some ⟨text, depth⟩ }

/-- A line outside block scalars and flow collections. -/
def structural (indent : Nat) (trimmed : List Char) : Except String ImageScanner :=
  if trimmed = "---".toList ∨ trimmed = "...".toList then .ok { s with scopes := [] }
  else if isListItem trimmed then s.listItem debug indent trimmed
  else ({ s with scopes := s.scopes.filter (·.above indent) } : ImageScanner).entryText debug indent trimmed

def line (raw : List Char) : Except String ImageScanner :=
  let content := trimEnd (stripComment raw)
  let trimmed := trimStart content
  match s.flow with
  | some flow => s.flowLine flow trimmed
  | none =>
    if trimmed = [] then .ok s
    else
      let indent := byteLength content - byteLength trimmed
      if s.block_scalar_indent.any (· < indent) then .ok s
      else ({ s with block_scalar_indent := none } : ImageScanner).structural debug indent trimmed

def scanLines : ImageScanner → List (List Char) → Except String ImageScanner
  | s, [] => .ok s
  | s, raw :: rest =>
    let s := { s with line_number := s.line_number + 1 }
    match s.line debug raw with
    | .error error => .error s!"line {s.line_number}: {error}"
    | .ok s => scanLines s rest

def scan (yaml : List Char) : Except String (List ImageReference) :=
  match s.scanLines debug (lines yaml) with
  | .error e => .error e
  | .ok s =>
    if s.flow.isSome then .error "unterminated flow collection"
    else .ok (s.references.filter fun r => r.repository.isSome || r.tag.isSome)

end

end ImageScanner

def imageReferences (debug : List Char → String) (yaml : List Char) : Except String (List ImageReference) :=
  ImageScanner.scan debug {} yaml

end Claudear.Release
