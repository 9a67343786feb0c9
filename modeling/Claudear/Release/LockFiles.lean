import Claudear.Data.Dict
import Claudear.Release.Versions
import Claudear.Text.Lines

/-!
# Lock files

`check_lock_file_version` asks of a lock file whether it has a package at or above
a version. The readers of `Cargo.lock`, `poetry.lock` and `yarn.lock` go through
the lines; the others read JSON, whose parser is a parameter.
-/

namespace Claudear.Release

open Claudear.Text Claudear.Data

/-! ## Parsed JSON lock files -/

structure ComposerPackage where
  name : List Char
  version : List Char

structure ComposerLock where
  packages : List ComposerPackage
  packages_dev : List ComposerPackage

structure NpmPackage where
  version : Option (List Char)

structure NpmDep where
  version : List Char

structure NpmLock where
  packages : Option (Dict (List Char) NpmPackage)
  dependencies : Option (Dict (List Char) NpmDep)

structure PipPackage where
  version : Option (List Char)

structure PipfileLock where
  default : Option (Dict (List Char) PipPackage)
  develop : Option (Dict (List Char) PipPackage)

/-- What `serde_json` reads from a text, with the text of its error, and in which order
a hash map is gone through. -/
structure Json where
  composer : List Char → Except String ComposerLock
  npm : List Char → Except String NpmLock
  pipfile : List Char → Except String PipfileLock
  order : HashOrder (List Char) NpmPackage

section
variable (J : Json) (C : SemverCrate) (lock_content package_name min_version : List Char)

def checkComposerLock : Except String Bool :=
  match J.composer lock_content with
  | .error e => .error s!"Failed to parse composer.lock: {e}"
  | .ok lock =>
    let package := (lock.packages ++ lock.packages_dev).find? fun p => p.name = package_name
    .ok (C.compareVersions (package.map (·.version)) min_version)

def npmPackagePathMatches (path package_name : List Char) : Bool :=
  let target := "node_modules/".toList ++ package_name
  path = target ∨ '/' :: target <:+ path

def checkNpmLock : Except String Bool :=
  match J.npm lock_content with
  | .error e => .error s!"Failed to parse package-lock.json: {e}"
  | .ok lock =>
    let packages := (lock.packages.map fun m => J.order.order m.items).getD []
    if packages.any fun (path, pkg) =>
        npmPackagePathMatches path package_name && C.compareVersions pkg.version min_version then .ok true
    else match lock.dependencies.bind fun deps => deps.get package_name with
      | some dep => .ok (C.compareVersions (some dep.version) min_version)
      | none => .ok false

def checkPipfileLock : Except String Bool :=
  match J.pipfile lock_content with
  | .error e => .error s!"Failed to parse Pipfile.lock: {e}"
  | .ok lock =>
    let version (part : Option (Dict (List Char) PipPackage)) :=
      ((part.bind fun m => m.get package_name).bind (·.version)).map fun v => trimStartMatches "==".toList v.length v
    .ok (match version lock.default, version lock.develop with
      | some ver, _ => C.compareVersions (some ver) min_version
      | none, some ver => C.compareVersions (some ver) min_version
      | none, none => false)
where
  /-- `trim_start_matches` of a text. -/
  trimStartMatches (pattern : List Char) : Nat → List Char → List Char
    | 0, l => l
    | n + 1, l => if pattern <+: l then trimStartMatches pattern n (l.drop pattern.length) else l

/-! ## Cargo and Poetry -/

/-- Returns from the reader where the package that ends here is the one asked for. -/
def checkedHere (current_name current_version : Option (List Char)) : Option Bool :=
  match current_name, current_version with
  | some name, some version =>
    if name = package_name then some (C.compareVersions (some version) min_version) else none
  | _, _ => none

def stripPrefix (pattern line : List Char) : Option (List Char) :=
  if pattern <+: line then some (line.drop pattern.length) else none

/-- The loop over the lines of a file of `[[package]]` tables. -/
def checkTables : List (List Char) → Option (List Char) → Option (List Char) → Bool
  | [], current_name, current_version =>
    (checkedHere C package_name min_version current_name current_version).getD false
  | line :: rest, current_name, current_version =>
    let line := trimMatches isWhitespace line
    if line = "[[package]]".toList then
      match checkedHere C package_name min_version current_name current_version with
      | some b => b
      | none => checkTables rest none none
    else match stripPrefix "name = ".toList line with
      | some tail => checkTables rest (some (trimMatches (· = '"') tail)) current_version
      | none => match stripPrefix "version = ".toList line with
        | some tail => checkTables rest current_name (some (trimMatches (· = '"') tail))
        | none => checkTables rest current_name current_version

def checkPoetryLock : Except String Bool :=
  .ok (checkTables C package_name min_version (lines lock_content) none none)

def checkCargoLock : Except String Bool :=
  .ok (checkTables C package_name min_version (lines lock_content) none none)

/-! ## Yarn -/

def yarnHeaderMatchesPackage (line package_name : List Char) : Bool :=
  let trimmed := trimMatches isWhitespace line
  if trimmed.getLast? ≠ some ':' then false
  else
    let header := trimMatches isWhitespace (trimmed.rdropWhile (· = ':'))
    (header.splitOn ',').any fun descriptor =>
      let descriptor := trimMatches (· = '\'') (trimMatches (· = '"') (trimMatches isWhitespace descriptor))
      descriptor = package_name ∨ package_name ++ ['@'] <+: descriptor

/-- `\s` -/
def isSpace (c : Char) : Bool := c ∈ " \t\n\x0b\x0c\r".toList

/-- The first group of `^\s+version\s+"([^"]+)"`. -/
def versionCapture (line : List Char) : Option (List Char) :=
  if (line.takeWhile isSpace).isEmpty then none
  else (stripPrefix "version".toList (line.dropWhile isSpace)).bind fun tail =>
    if (tail.takeWhile isSpace).isEmpty then none
    else (stripPrefix ['"'] (tail.dropWhile isSpace)).bind fun quoted =>
      let version := quoted.takeWhile (· ≠ '"')
      if version.isEmpty then none else if '"' ∈ quoted then some version else none

def checkStanzas : List (List Char) → Bool → Bool
  | [], _ => false
  | line :: rest, in_package =>
    if yarnHeaderMatchesPackage line package_name then checkStanzas rest true
    else
      -- a line that is not indented ends the stanza
      let inside := in_package && (line.isEmpty || line.head? = some ' ' || line.head? = some '\t')
      if in_package then
        match versionCapture line with
        | some version => C.compareVersions (some version) min_version
        | none => checkStanzas rest inside
      else checkStanzas rest inside

def checkYarnLock : Except String Bool := .ok (checkStanzas C package_name min_version (lines lock_content) false)

/-! ## All formats -/

/-- `lock_file_path.rsplit('/').next()` -/
def fileName (path : List Char) : List Char := (path.reverse.takeWhile (· ≠ '/')).reverse

def checkLockFileVersion (lock_file_path : List Char) : Except String Bool :=
  let file_name := fileName lock_file_path
  if file_name = "composer.lock".toList then checkComposerLock J C lock_content package_name min_version
  else if file_name = "package-lock.json".toList then checkNpmLock J C lock_content package_name min_version
  else if file_name = "yarn.lock".toList then checkYarnLock C lock_content package_name min_version
  else if file_name = "poetry.lock".toList then checkPoetryLock C lock_content package_name min_version
  else if file_name = "Pipfile.lock".toList then checkPipfileLock J C lock_content package_name min_version
  else if file_name = "Cargo.lock".toList then checkCargoLock C lock_content package_name min_version
  else .error s!"Unsupported lock file format: {String.ofList file_name}"

end

end Claudear.Release
