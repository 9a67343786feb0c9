import Mathlib.Data.List.DropRight
import Mathlib.Data.List.Infix

/-!
# Path patterns

Patterns in the manner of `.gitignore`. A path is a list of segments. In a
segment of the pattern `*` is any number of characters and `?` one; several
asterisks mean the same as one. A segment that is `**` is any number of
segments of the path, and at the end of the pattern at least one.

A pattern with a slash at its beginning or in its middle starts at the root,
any other at any depth. A pattern covers everything below what it names, and
one that ends with a slash only that.
-/

namespace Claudear.Text

inductive Segment where
  | deep
  | glob (p : List Char)
  deriving DecidableEq, Repr

def Segment.of (s : List Char) : Segment := if s = ['*', '*'] then .deep else .glob s

/-- Whether the pattern describes the whole segment. -/
def segmentMatch : List Char → List Char → Bool
  | [], s => s.isEmpty
  | '*' :: p, s => s.tails.any fun t => segmentMatch p t
  | '?' :: p, _ :: s => segmentMatch p s
  | '?' :: _, [] => false
  | c :: p, d :: s => c = d && segmentMatch p s
  | _ :: _, [] => false

/-- Whether the pattern describes the path or something the path is below; for a directory, whether
the path is below. -/
def pathMatch (directory : Bool) : List Segment → List (List Char) → Bool
  | [], below => !directory || !below.isEmpty
  | .deep :: ps, segments =>
    -- at the end the pattern is everything inside, but not the directory itself
    if ps = [] then (if directory then 1 else 0) < segments.length
    else segments.tails.any fun t => pathMatch directory ps t
  | .glob p :: ps, segments =>
    match segments with
    | s :: segments => segmentMatch p s && pathMatch directory ps segments
    | [] => false

structure PathPattern where
  directory : Bool
  anchored : Bool
  segments : List Segment
  deriving DecidableEq, Repr

/-- A slash at the end marks a directory, one at the beginning or in the middle the root. -/
def PathPattern.of (pattern : List Char) : PathPattern :=
  let trimmed := pattern.rdropWhile (· = '/')
  let body := trimmed.dropWhile (· = '/')
  { directory := pattern.getLast? = some '/'
    anchored := '/' ∈ trimmed
    segments := if body = [] then [] else (body.splitOn '/').map Segment.of }

/-- Whether the pattern covers the path. A pattern of slashes covers nothing. -/
def PathPattern.covers (p : PathPattern) (path : List Char) : Bool :=
  let segments := path.splitOn '/'
  p.segments ≠ [] &&
    if p.anchored then pathMatch p.directory p.segments segments
    else segments.tails.any fun t => pathMatch p.directory p.segments t

example : (PathPattern.of "a/**/b".toList).covers "a/x/y/b/c".toList = true ∧
    (PathPattern.of "docs/".toList).covers "site/docs/x".toList = true ∧
    (PathPattern.of "/docs/".toList).covers "site/docs/x".toList = false := by decide

end Claudear.Text
