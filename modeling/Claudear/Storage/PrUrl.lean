import Mathlib.Algebra.Group.Nat.Defs
import Mathlib.Data.List.Infix

/-!
# Pull request URLs

`parse_pr_url` searches a URL with two regular expressions. A match of each is
written out as a parser anchored at one position; the search tries the
positions from the left.
-/

namespace Claudear.Storage

def maxPrUrlLength : Nat := 2048

/-- `[^/]+/`: a non-empty run up to the next slash, and what follows the slash. -/
def segment (s : List Char) : Option (List Char × List Char) :=
  match s.span (· ≠ '/') with
  | ([], _) => none
  | (_, []) => none
  | (run, _ :: rest) => some (run, rest)

/-- `\d+` -/
def digits (s : List Char) : Option (List Char) :=
  match s.takeWhile Char.isDigit with
  | [] => none
  | ds => some ds

/-- `github\.com/([^/]+/[^/]+)/pull/(\d+)` at the start of `s`. -/
def prUrlAt (s : List Char) : Option (List Char × List Char) := do
  let s ← "github.com/".toList.isPrefixOf? s
  let (owner, s) ← segment s
  let (name, s) ← segment s
  let s ← "pull/".toList.isPrefixOf? s
  let number ← digits s
  return (owner ++ '/' :: name, number)

/-- The marker GitLab puts between a project path and a merge request number. -/
def mrMarker : List Char := '/' :: '-' :: "/merge_requests/".toList

/-- `(.+?)`, the marker and `(\d+)` at the start of `s`: the shortest project path that works. -/
def mrProject : List Char → Option (List Char × List Char)
  | [] => none
  | c :: s =>
    if c = '\n' then none
    else
      match mrMarker.isPrefixOf? s >>= digits with
      | some number => some ([c], number)
      | none => (mrProject s).map fun m => (c :: m.1, m.2)

/-- `https?://[^/]+/`, then a project path and a merge request number, at the start of `s`. -/
def mrUrlAt (s : List Char) : Option (List Char × List Char) := do
  let s ← "https://".toList.isPrefixOf? s <|> "http://".toList.isPrefixOf? s
  let (_, s) ← segment s
  mrProject s

/-- `str::parse::<i64>` on a run of digits. -/
def parseI64 (ds : List Char) : Option Int :=
  let n := ds.foldl (fun n c => 10 * n + (c.toNat - '0'.toNat)) 0
  if n < 2 ^ 63 then some n else none

def parsePrUrl (url : String) : Option (String × Int) :=
  if url.utf8ByteSize > maxPrUrlLength then none
  else
    match url.toList.tails.findSome? prUrlAt with
    | some (repo, number) => (parseI64 number).map fun n => (String.ofList repo, n)
    | none =>
      match url.toList.tails.findSome? mrUrlAt with
      | some (project, iid) => (parseI64 iid).map fun n => (String.ofList project, n)
      | none => none

example : parsePrUrl "https://github.com/org/repo/pull/42" = some ("org/repo", 42) := by decide

/-! ## Links that only offer to open a pull request -/

/-- `str::split_once` -/
def splitOnce (pattern : List Char) (s : List Char) : Option (List Char × List Char) :=
  match pattern.isPrefixOf? s with
  | some rest => some ([], rest)
  | none =>
    match s with
    | [] => none
    | c :: s => (splitOnce pattern s).map fun m => (c :: m.1, m.2)

/-- `trim_end_matches('/')` -/
def trimSlashes (s : List Char) : List Char := (s.reverse.dropWhile (· = '/')).reverse

/-- A branch was pushed, and this is the page that would open a pull request from it. -/
structure PrIntentUrl where
  repo : String
  head : String
  base : Option String
  deriving DecidableEq, Repr

/-- `repo.matches('/').count() == 1 && !repo.is_empty()` -/
def isRepoPath (s : List Char) : Bool := s.count '/' = 1

/-- What follows the host, up to the host's next occurrence, without query and fragment. -/
def afterHost (url : String) : Option (List Char) :=
  (splitOnce "github.com/".toList url.toList).map fun m =>
    (((splitOnce "github.com/".toList m.2).map Prod.fst).getD m.2).takeWhile fun c => c ≠ '?' ∧ c ≠ '#'

def parsePrIntentUrl (url : String) : Option PrIntentUrl :=
  if url.utf8ByteSize > maxPrUrlLength then none
  else do
    let path ← afterHost url
    match splitOnce "/pull/new/".toList path with
    | some (repo, head) =>
      let head := trimSlashes head
      if isRepoPath repo ∧ head ≠ [] then
        some ⟨String.ofList repo, String.ofList head, none⟩
      else none
    | none =>
      let (repo, spec) ← splitOnce "/compare/".toList path
      if isRepoPath repo then do
        let spec := trimSlashes spec
        let (base, head) ← splitOnce "...".toList spec <|> splitOnce "..".toList spec
        if base = [] ∨ head = [] then none
        else some ⟨String.ofList repo, String.ofList head, some (String.ofList base)⟩
      else none

example : parsePrIntentUrl "https://github.com/org/repo/compare/main...fix/a?expand=1" =
    some ⟨"org/repo", "fix/a", some "main"⟩ := by decide

end Claudear.Storage
