import Claudear.Release.LockedStanzas

/-!
# What a lock file check says

`package-lock.json` has a place for each installed package. Its `packages` are all
looked at, its `dependencies` only at the top level. The other readers stop at the
first entry of the package, so a later one with a newer version is missed.
-/

namespace Claudear.Release

open Claudear.Text Claudear.Data

/-! ## Places in `package-lock.json` -/

/-- A package within the `node_modules` of others. -/
structure Place where
  parents : List (List Char)
  name : List Char
  version : List Char
  npmName : NpmName name

namespace Place

def locked (p : Place) : Locked := (p.name, p.version)

def path (p : Place) : List Char :=
  (p.parents.flatMap fun n => "node_modules/".toList ++ n ++ ['/']) ++ ("node_modules/".toList ++ p.name)

end Place

inductive LockfileVersion where
  | v1
  | v2
  | v3
  deriving DecidableEq

/-- The installed packages, and the version of the root package where it has one. -/
structure NpmTree where
  root : Option (List Char)
  places : List Place
  nodup : (places.map Place.path).Nodup

theorem Place.path_ne_nil (p : Place) : p.path ≠ [] := by
  intro h
  exact absurd (List.append_eq_nil_iff.mp (List.append_eq_nil_iff.mp h).2).1 (by decide)

namespace NpmTree

def locked (t : NpmTree) : List Locked := t.places.map Place.locked

def topPlaces (t : NpmTree) : List Place := t.places.filter fun p => p.parents.isEmpty

def topLevel (t : NpmTree) : List Locked := t.topPlaces.map Place.locked

def packages (t : NpmTree) : Dict (List Char) NpmPackage where
  items := ([], ⟨t.root⟩) :: t.places.map fun p => (p.path, ⟨some p.version⟩)
  nodup := by
    rw [List.map_cons, List.map_map, List.nodup_cons]
    refine ⟨fun h => ?_, t.nodup⟩
    obtain ⟨p, -, hp⟩ := List.mem_map.mp h
    exact p.path_ne_nil hp

theorem top_nodup (t : NpmTree) : (t.topPlaces.map Place.name).Nodup := by
  have hpaths : (t.topPlaces.map Place.path).Nodup := t.nodup.sublist (List.filter_sublist.map _)
  have htop : t.topPlaces.map Place.path = (t.topPlaces.map Place.name).map ("node_modules/".toList ++ ·) := by
    rw [List.map_map]
    refine List.map_congr_left fun p hp => ?_
    have hparents : p.parents = [] := List.isEmpty_iff.mp (List.mem_filter.mp hp).2
    rw [Place.path, hparents]
    rfl
  rw [htop] at hpaths
  exact hpaths.of_map _

def dependencies (t : NpmTree) : Dict (List Char) NpmDep where
  items := t.topPlaces.map fun p => (p.name, ⟨p.version⟩)
  nodup := by
    rw [List.map_map]
    exact t.top_nodup

def lock (t : NpmTree) : LockfileVersion → NpmLock
  | .v1 => ⟨none, some t.dependencies⟩
  | .v2 => ⟨some t.packages, some t.dependencies⟩
  | .v3 => ⟨some t.packages, none⟩

end NpmTree

variable {J : Json} {C : SemverCrate} {q m n x y z text path : List Char} {t : NpmTree} {p : Place} {b : Bool}

/-! ## Paths and names -/

/-- A name has no `/node_modules/` in it, nor does one reach into it. -/
theorem NpmName.before (hq : NpmName q)
    (h : x ++ ("/node_modules/".toList ++ n) = "/node_modules/".toList ++ q) : n = q := by
  cases x with
  | nil => exact List.append_cancel_left h
  | cons c x =>
    have htail : x ++ ("/node_modules/".toList ++ n) = "node_modules".toList ++ '/' :: q := (List.cons.inj h).2
    rcases List.append_eq_append_iff.mp htail with ⟨s, hs, hq'⟩ | ⟨s, -, hq'⟩
    · cases s with
      | nil => exact absurd ⟨[], n, by simpa using hq'⟩ hq.free
      | cons d s =>
        obtain rfl : '/' = d := (List.cons.inj hq').1
        have hmem : '/' ∈ "node_modules".toList := hs ▸ List.mem_append_right x List.mem_cons_self
        exact absurd hmem (by decide)
    · exact absurd ⟨s, n, by rw [hq', List.append_assoc]⟩ hq.free

/-- The name after the last `/node_modules/` is the only one a path ends with. -/
theorem name_unique (hn : NpmName n) (hq : NpmName q)
    (h : x ++ ("/node_modules/".toList ++ n) = y ++ ("/node_modules/".toList ++ q)) : n = q := by
  rcases List.append_eq_append_iff.mp h with ⟨s, -, hs⟩ | ⟨s, -, hs⟩
  · exact (hn.before hs.symm).symm
  · exact hq.before hs.symm

theorem path_cases (p : Place) : p.path = "node_modules/".toList ++ p.name ∨
    ∃ z, p.path = z ++ ("/node_modules/".toList ++ p.name) := by
  rw [Place.path]
  cases p.parents with
  | nil => exact .inl rfl
  | cons n ns =>
    obtain ⟨z, hz⟩ : ∃ z, ((n :: ns).flatMap fun n => "node_modules/".toList ++ n ++ ['/']) = z ++ ['/'] := by
      refine ⟨((n :: ns).dropLast.flatMap fun n => "node_modules/".toList ++ n ++ ['/']) ++
        ("node_modules/".toList ++ (n :: ns).getLast (List.cons_ne_nil _ _)), ?_⟩
      conv_lhs => rw [← List.dropLast_concat_getLast (List.cons_ne_nil n ns)]
      simp
    rw [hz]
    exact .inr ⟨z, by simp⟩

/-- A path leads to the package with the name at its end. -/
theorem pathMatches_iff (hq : NpmName q) : npmPackagePathMatches p.path q = true ↔ p.name = q := by
  rw [npmPackagePathMatches, decide_eq_true_iff]
  constructor
  · intro h
    obtain ⟨y, hy⟩ : ∃ y, '/' :: p.path = y ++ ("/node_modules/".toList ++ q) := by
      rcases h with h | ⟨y, hy⟩
      · exact ⟨[], congrArg _ h⟩
      · exact ⟨'/' :: y, congrArg _ hy.symm⟩
    rcases path_cases p with hp | ⟨z, hp⟩
    · exact name_unique (x := []) p.npmName hq (by rw [← hy, hp]; rfl)
    · exact name_unique (x := '/' :: z) p.npmName hq (by rw [← hy, hp]; rfl)
  · rintro rfl
    rcases path_cases p with hp | ⟨z, hp⟩
    · exact .inl hp
    · exact .inr ⟨z, hp.symm⟩

theorem root_not_matches : npmPackagePathMatches [] q = false := by
  rw [npmPackagePathMatches, decide_eq_false_iff_not]
  rintro (h | h)
  · exact absurd (congrArg List.length h) (by simp)
  · exact absurd (List.suffix_nil.mp h) (List.cons_ne_nil _ _)

/-! ## What each reader looks at -/

/-- One of these entries is of the package and at or above the version. -/
def HasAtLeast (C : SemverCrate) (q m : List Char) (locked : List Locked) : Prop :=
  ∃ p ∈ locked, p.1 = q ∧ C.compareVersions (some p.2) m = true

theorem HasAtLeast.mono {l l' : List Locked} (h : HasAtLeast C q m l) (hs : l ⊆ l') : HasAtLeast C q m l' :=
  let ⟨p, hp, h⟩ := h
  ⟨p, hs hp, h⟩

theorem firstAtLeast_iff {locked : List Locked} :
    firstAtLeast C q m locked = true ↔ HasAtLeast C q m (locked.find? fun p => p.1 = q).toList := by
  rw [firstAtLeast, HasAtLeast]
  cases hfind : locked.find? fun p => p.1 = q with
  | none => simp
  | some p =>
    have hp := List.find?_some hfind
    simp [of_decide_eq_true hp]

theorem anyPackage_iff (hq : NpmName q) : (J.order.order t.packages.items).any (fun x =>
    npmPackagePathMatches x.1 q && C.compareVersions x.2.version m) = true ↔ HasAtLeast C q m t.locked := by
  rw [(J.order.perm t.packages.items).any_eq, HasAtLeast, NpmTree.packages, List.any_cons]
  simp only [root_not_matches, Bool.false_and, Bool.false_or, List.any_map, List.any_eq_true, Function.comp_apply,
    Bool.and_eq_true, pathMatches_iff hq, NpmTree.locked, List.mem_map, Place.locked, exists_exists_and_eq_and]

theorem topLevel_iff : ((t.dependencies.get q).map fun dep => C.compareVersions (some dep.version) m).getD false = true ↔
    HasAtLeast C q m t.topLevel := by
  have hget : ∀ v, t.dependencies.get q = some ⟨v⟩ ↔ ∃ p ∈ t.topPlaces, p.name = q ∧ p.version = v := by
    intro v
    rw [Dict.get_eq_some, NpmTree.dependencies, List.mem_map]
    simp [Prod.ext_iff]
  rw [HasAtLeast, NpmTree.topLevel]
  cases hdep : t.dependencies.get q with
  | none =>
    refine iff_of_false Bool.false_ne_true ?_
    rintro ⟨l, hl, hname, -⟩
    obtain ⟨p, hp, rfl⟩ := List.mem_map.mp hl
    have := (hget p.version).mpr ⟨p, hp, hname, rfl⟩
    rw [hdep] at this
    cases this
  | some dep =>
    obtain ⟨p, hp, hname, hversion⟩ := (hget dep.version).mp hdep
    constructor
    · intro h
      exact ⟨p.locked, List.mem_map_of_mem hp, hname, by rw [Place.locked, hversion]; exact h⟩
    · rintro ⟨l, hl, hname', h⟩
      obtain ⟨p', hp', rfl⟩ := List.mem_map.mp hl
      have := (hget p'.version).mpr ⟨p', hp', hname', rfl⟩
      rw [hdep] at this
      cases this
      exact h

/-! ## All formats -/

inductive LockFile where
  | cargo (f : TableFile)
  | poetry (f : TableFile)
  | yarn (f : YarnFile)
  | npm (version : LockfileVersion) (t : NpmTree)

namespace LockFile

def name : LockFile → String
  | cargo _ => "Cargo.lock"
  | poetry _ => "poetry.lock"
  | yarn _ => "yarn.lock"
  | npm _ _ => "package-lock.json"

/-- The text is the file in its format; of a `package-lock.json`, that it is read as it. -/
def HasText (J : Json) (text : List Char) : LockFile → Prop
  | cargo f => text = f.text
  | poetry f => text = f.text
  | yarn f => text = f.text
  | npm version t => J.npm text = .ok (t.lock version)

/-- The names of packages of the format. -/
def IsName (q : List Char) : LockFile → Prop
  | cargo _ => True
  | poetry _ => True
  | yarn _ => NpmName q
  | npm _ _ => NpmName q

def locked : LockFile → List Locked
  | cargo f => f.locked
  | poetry f => f.locked
  | yarn f => f.locked
  | npm _ t => t.locked

/-- The entries whose version is looked at: the first of the package in a file of lines,
the one at the top level of a `package-lock.json` without `packages`, else all. -/
def lookedAt (q : List Char) : LockFile → List Locked
  | cargo f => (f.locked.find? fun p => p.1 = q).toList
  | poetry f => (f.locked.find? fun p => p.1 = q).toList
  | yarn f => (f.locked.find? fun p => p.1 = q).toList
  | npm .v1 t => t.topLevel
  | npm .v2 t => t.locked
  | npm .v3 t => t.locked

variable {file : LockFile}

theorem lookedAt_subset : file.lookedAt q ⊆ file.locked := by
  have hfirst {l : List Locked} : (l.find? fun p => p.1 = q).toList ⊆ l := by
    intro p hp
    exact List.mem_of_find?_eq_some (Option.mem_toList.mp hp)
  cases file with
  | cargo f => exact hfirst
  | poetry f => exact hfirst
  | yarn f => exact hfirst
  | npm version t =>
    cases version with
    | v1 => exact List.map_subset _ List.filter_sublist.subset
    | v2 => exact List.Subset.refl _
    | v3 => exact List.Subset.refl _

theorem checkNpmLock_iff (version : LockfileVersion) (htext : J.npm text = .ok (t.lock version)) (hq : NpmName q) :
    ∃ b, checkNpmLock J C text q m = .ok b ∧ (b = true ↔ HasAtLeast C q m ((npm version t).lookedAt q)) := by
  have hall := anyPackage_iff (J := J) (C := C) (m := m) (t := t) hq
  unfold checkNpmLock
  rw [htext]
  cases version with
  | v1 =>
    refine ⟨((t.dependencies.get q).map fun dep => C.compareVersions (some dep.version) m).getD false, ?_, topLevel_iff⟩
    simp only [NpmTree.lock, Option.bind_some]
    cases t.dependencies.get q <;> rfl
  | v2 =>
    by_cases hany : HasAtLeast C q m t.locked
    · refine ⟨true, ?_, iff_of_true rfl hany⟩
      simp only [NpmTree.lock, Option.map_some, Option.getD_some]
      exact if_pos (hall.mpr hany)
    · refine ⟨((t.dependencies.get q).map fun dep => C.compareVersions (some dep.version) m).getD false, ?_,
        iff_of_false (fun h => hany (((topLevel_iff (t := t)).mp h).mono ?_)) hany⟩
      · simp only [NpmTree.lock, Option.map_some, Option.getD_some, Option.bind_some]
        refine (if_neg (mt hall.mp hany)).trans ?_
        cases t.dependencies.get q <;> rfl
      · exact List.map_subset _ List.filter_sublist.subset
  | v3 =>
    by_cases hany : HasAtLeast C q m t.locked
    · refine ⟨true, ?_, iff_of_true rfl hany⟩
      simp only [NpmTree.lock, Option.map_some, Option.getD_some]
      exact if_pos (hall.mpr hany)
    · refine ⟨false, ?_, iff_of_false Bool.false_ne_true hany⟩
      simp only [NpmTree.lock, Option.map_some, Option.getD_some, Option.bind_none]
      exact if_neg (mt hall.mp hany)

/-- The reader of the format. -/
def check (J : Json) (C : SemverCrate) (text q m : List Char) : LockFile → Except String Bool
  | cargo _ => checkCargoLock C text q m
  | poetry _ => checkPoetryLock C text q m
  | yarn _ => checkYarnLock C text q m
  | npm _ _ => checkNpmLock J C text q m

theorem dispatch (h : fileName path = file.name.toList) :
    checkLockFileVersion J C text q m path = file.check J C text q m := by
  unfold checkLockFileVersion
  rw [h]
  cases file with
  | cargo _ =>
    dsimp only [name, check]
    rw [if_neg (by decide), if_neg (by decide), if_neg (by decide), if_neg (by decide), if_neg (by decide), if_pos rfl]
  | poetry _ =>
    dsimp only [name, check]
    rw [if_neg (by decide), if_neg (by decide), if_neg (by decide), if_pos rfl]
  | yarn _ =>
    dsimp only [name, check]
    rw [if_neg (by decide), if_neg (by decide), if_pos rfl]
  | npm _ _ =>
    dsimp only [name, check]
    rw [if_neg (by decide), if_pos rfl]

theorem check_iff (htext : file.HasText J text) (hpath : fileName path = file.name.toList) (hq : file.IsName q) :
    ∃ b, checkLockFileVersion J C text q m path = .ok b ∧ (b = true ↔ HasAtLeast C q m (file.lookedAt q)) := by
  rw [dispatch hpath]
  cases file with
  | cargo f | poetry f =>
    obtain rfl : text = f.text := htext
    exact ⟨_, congrArg Except.ok (checkTables_file f), firstAtLeast_iff⟩
  | yarn f =>
    obtain rfl : text = f.text := htext
    exact ⟨_, congrArg Except.ok (checkStanzas_file f hq), firstAtLeast_iff⟩
  | npm version t => exact checkNpmLock_iff version htext hq

end LockFile

/-- A check says that the file has an entry of the package at or above the version,
exactly when one of the entries it looks at is if any is. -/
theorem lock_check_right_iff {file : LockFile} (htext : file.HasText J text) (hpath : fileName path = file.name.toList)
    (hq : file.IsName q) :
    ∃ b, checkLockFileVersion J C text q m path = .ok b ∧
      ((b = true ↔ HasAtLeast C q m file.locked) ↔
        (HasAtLeast C q m file.locked → HasAtLeast C q m (file.lookedAt q))) := by
  obtain ⟨b, hb, hiff⟩ := LockFile.check_iff (C := C) (m := m) htext hpath hq
  refine ⟨b, hb, ?_⟩
  rw [hiff]
  exact ⟨fun h => h.mpr, fun h => ⟨fun hl => hl.mono LockFile.lookedAt_subset, h⟩⟩

/-- A JSON reader that reads nothing. -/
def noJson : Json where
  composer _ := .error "EOF while parsing a value"
  npm _ := .error "EOF while parsing a value"
  pipfile _ := .error "EOF while parsing a value"
  order := ⟨id, fun _ => .refl _⟩

/-- `syn` is locked as `1.0.0-alpha` and as `1.0.0`. -/
def twoVersions : TableFile where
  preamble := ["version = 4".toList, []]
  tables :=
    [{ name := "syn".toList, version := "1.0.0-alpha".toList, further := [[]],
       quotable := ⟨forall_of_all (by decide), forall_of_all (by decide)⟩,
       further_lines := by
        intro l hl
        obtain rfl := List.mem_singleton.mp hl
        exact ⟨⟨⟨by decide, by decide⟩, by decide, by decide⟩, by decide⟩ },
     { name := "syn".toList, version := "1.0.0".toList, further := [],
       quotable := ⟨forall_of_all (by decide), forall_of_all (by decide)⟩,
       further_lines := by simp }]
  preamble_lines := by
    intro l hl
    rcases List.mem_cons.mp hl with rfl | hl
    · exact ⟨⟨by decide, by decide⟩, by decide, by decide⟩
    · obtain rfl := List.mem_singleton.mp hl
      exact ⟨⟨by decide, by decide⟩, by decide, by decide⟩

theorem lock_check_right_two :
    ∃ b, checkLockFileVersion noJson sampleCrate twoVersions.text "syn".toList "1.0.0".toList "Cargo.lock".toList = .ok b ∧
      ((b = true ↔ HasAtLeast sampleCrate "syn".toList "1.0.0".toList (LockFile.cargo twoVersions).locked) ↔
        (HasAtLeast sampleCrate "syn".toList "1.0.0".toList (LockFile.cargo twoVersions).locked →
          HasAtLeast sampleCrate "syn".toList "1.0.0".toList ((LockFile.cargo twoVersions).lookedAt "syn".toList))) :=
  @lock_check_right_iff _ _ _ _ _ _ (.cargo twoVersions) rfl (by decide) trivial

/-- The second entry of `syn` is at the version asked for, and the check says no. -/
theorem later_version_missed :
    checkLockFileVersion noJson sampleCrate twoVersions.text "syn".toList "1.0.0".toList "Cargo.lock".toList = .ok false ∧
      HasAtLeast sampleCrate "syn".toList "1.0.0".toList twoVersions.locked := by
  constructor
  · have hpath : fileName "Cargo.lock".toList = (LockFile.cargo twoVersions).name.toList := by decide
    have hfirst : firstAtLeast sampleCrate "syn".toList "1.0.0".toList twoVersions.locked = false := by decide
    rw [LockFile.dispatch hpath, LockFile.check, checkCargoLock, checkTables_file, hfirst]
  · exact ⟨("syn".toList, "1.0.0".toList), by decide, by decide, by decide⟩

end Claudear.Release
