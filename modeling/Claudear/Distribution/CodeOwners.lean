import Claudear.Text.Glob
import Claudear.Text.Lowercase
import Claudear.Text.Regex

/-!
# CODEOWNERS

Every line gives the owners of the paths its pattern matches, and the last
line that matches a path counts. `compile` writes the pattern as a regular
expression, one character after another, and a library that is a parameter
reads it. `Documented` is what its documentation says of expressions like
these. An expression that the library refuses leaves the line out.

`ownersOf` is the same with the patterns read as path patterns.
-/

namespace Claudear.Distribution

open Claudear.Text

/-- `regex_lite::escape` and `Regex::new(..).ok()` with `is_match`. -/
structure RegexLite where
  escape : Char → List Char
  new : List Char → Option (List Char → Bool)

/-- A slash has no meaning of its own, and an expression between `^` and `$` matches a text when
the whole text is a word of it. -/
structure RegexLite.Documented (R : RegexLite) : Prop where
  slash : R.escape '/' = ['/']
  matches_iff : ∀ (r : Regex) (m : List Char → Bool),
    R.new ('^' :: (r.text R.escape ++ ['$'])) = some m → ∀ l, m l = true ↔ r.Matches l

/-! ## The translation -/

/-- What a turn of the loop of `compile` reads. -/
inductive Token where
  | upTo | deep | star | question
  | char (c : Char)
  deriving DecidableEq, Repr

def tokens : List Char → List Token
  | '*' :: '*' :: '/' :: rest => .upTo :: tokens rest
  | '*' :: '*' :: rest => .deep :: tokens rest
  | '*' :: rest => .star :: tokens rest
  | '?' :: rest => .question :: tokens rest
  | c :: rest => .char c :: tokens rest
  | [] => []

/-- What the turn appends to the expression. -/
def Token.text (escape : Char → List Char) : Token → List Char
  | upTo => ['(', '?', ':', '.', '*', '/', ')', '?']
  | deep => ['.', '*']
  | star => ['[', '^', '/', ']', '*']
  | question => ['[', '^', '/', ']']
  | char c => escape c

/-- `^` or `^(?:.*/)?`, the tokens, and `/.*$` or `(?:/.*)?$`. -/
def expression (escape : Char → List Char) (anchored directory : Bool) (body : List Char) :
    List Char :=
  (if anchored then ['^'] else ['^', '(', '?', ':', '.', '*', '/', ')', '?']) ++
    (tokens body).flatMap (Token.text escape) ++
    if directory then ['/', '.', '*', '$'] else ['(', '?', ':', '/', '.', '*', ')', '?', '$']

def compile (R : RegexLite) (pattern : List Char) : Option (List Char → Bool) :=
  let directory := pattern.getLast? = some '/'
  let trimmed := pattern.rdropWhile (· = '/')
  let anchored := '/' ∈ trimmed
  let body := trimmed.dropWhile (· = '/')
  if body = [] then none
  else R.new (expression R.escape anchored directory body)

structure Rule where
  pattern : List Char → Bool
  owners : List String

structure CodeOwners where
  rules : List Rule

/-- `owner.strip_prefix('@')`, without teams. -/
def ownerLogin (owner : List Char) : Option String :=
  match owner with
  | '@' :: login => if '/' ∈ login then none else some (String.ofList login)
  | _ => none

/-- The pattern and the owners of a line, up to a comment. -/
def ruleLine (line : List Char) : Option (List Char × List String) :=
  match ((line.takeWhile (· ≠ '#')).splitOnP isWhitespace).filter (· ≠ []) with
  | [] => none
  | pattern :: fields => some (pattern, fields.filterMap ownerLogin)

/-- The lines that have a pattern. The carriage return that `lines` takes from a line's end is
white space to `trim`. -/
def ruleLines (text : String) : List (List Char × List String) :=
  (text.toList.splitOn '\n').filterMap ruleLine

namespace CodeOwners

def parse (R : RegexLite) (text : String) : CodeOwners where
  rules := (ruleLines text).filterMap fun rule =>
    (compile R rule.1).map fun pattern => { pattern, owners := rule.2 }

def owners (codeowners : CodeOwners) (path : String) : List String :=
  let path := path.toList.dropWhile (· = '/')
  match codeowners.rules.reverse.find? fun rule => rule.pattern path with
  | some rule => rule.owners
  | none => []

end CodeOwners

/-- The owners of the last line whose pattern covers the path. -/
def ownersOf (text : String) (path : String) : List String :=
  let path := path.toList.dropWhile (· = '/')
  match (ruleLines text).reverse.find? fun rule => (PathPattern.of rule.1).covers path with
  | some rule => rule.2
  | none => []

/-! ## The expression as a sequence of items -/

/-- `(?:.*/)?` -/
def upTo : Item := .optional [.many .any, .one (.char '/')]

def Token.item : Token → Item
  | upTo => Distribution.upTo
  | deep => .piece (.many .any)
  | star => .piece (.many (.except '/'))
  | question => .piece (.one (.except '/'))
  | char c => .piece (.one (.char c))

/-- `/.*` or `(?:/.*)?` -/
def belowItems (directory : Bool) : Regex :=
  if directory then [.piece (.one (.char '/')), .piece (.many .any)]
  else [.optional [.one (.char '/'), .many .any]]

def regexOf (anchored directory : Bool) (body : List Char) : Regex :=
  (if anchored then [] else [upTo]) ++ ((tokens body).map Token.item ++ belowItems directory)

variable {R : RegexLite}

theorem text_item (hs : R.escape '/' = ['/']) (t : Token) :
    t.item.text R.escape = t.text R.escape := by
  cases t <;> simp [Token.item, Token.text, upTo, Item.text, Piece.text, Atom.text, hs]

/-- The expression is what the items are written as. -/
theorem expression_eq (hs : R.escape '/' = ['/']) (anchored directory : Bool) (body : List Char) :
    expression R.escape anchored directory body =
      '^' :: ((regexOf anchored directory body).text R.escape ++ ['$']) := by
  have ht : ((tokens body).map Token.item).flatMap (Item.text R.escape) =
      (tokens body).flatMap (Token.text R.escape) := by
    rw [List.flatMap_map]
    simp only [text_item hs]
  unfold expression regexOf Regex.text
  rw [List.flatMap_append, List.flatMap_append, ht]
  cases anchored <;> cases directory <;>
    simp [belowItems, upTo, Item.text, Piece.text, Atom.text, hs]

/-- What the compiled pattern matches. -/
theorem compile_spec (hd : R.Documented) {pattern : List Char} {m : List Char → Bool}
    (h : compile R pattern = some m) (l : List Char) :
    m l = true ↔ (regexOf (decide ('/' ∈ pattern.rdropWhile (· = '/')))
      (decide (pattern.getLast? = some '/'))
      ((pattern.rdropWhile (· = '/')).dropWhile (· = '/'))).Matches l := by
  unfold compile at h
  dsimp only at h
  split at h
  · cases h
  · rw [expression_eq hd.slash] at h
    exact hd.matches_iff _ m h l

end Claudear.Distribution
