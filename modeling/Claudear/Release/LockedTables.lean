import Claudear.Release.LockFiles

/-!
# Cargo and Poetry lock files

A file is a preamble and a table for each package, with its name, its version and
further lines. The reader stops at the first table of the package it looks for.
-/

namespace Claudear.Release

open Claudear.Text

/-- A package name and a version of it. -/
abbrev Locked := List Char × List Char

/-- What the first entry of a package says of the version asked for. -/
def firstAtLeast (C : SemverCrate) (q m : List Char) (locked : List Locked) : Bool :=
  ((locked.find? fun p => p.1 = q).map fun p => C.compareVersions (some p.2) m).getD false

/-- Without a quotation mark or a newline in it. -/
def Quotable (l : List Char) : Prop := ∀ c ∈ l, c ≠ '"' ∧ c ≠ '\n'

/-- A line that gives no name and begins no table. -/
structure NoName (l : List Char) : Prop where
  isLine : IsLine l
  noTable : trimMatches isWhitespace l ≠ "[[package]]".toList
  noName : ¬ "name = ".toList <+: trimMatches isWhitespace l

/-- Such a line that gives no version either. -/
structure FurtherLine (l : List Char) : Prop extends NoName l where
  noVersion : ¬ "version = ".toList <+: trimMatches isWhitespace l

structure LockTable where
  name : List Char
  version : List Char
  further : List (List Char)
  quotable : Quotable name ∧ Quotable version
  further_lines : ∀ l ∈ further, FurtherLine l

structure TableFile where
  preamble : List (List Char)
  tables : List LockTable
  preamble_lines : ∀ l ∈ preamble, NoName l

/-- `key = "value"` -/
def assignment (key : String) (value : List Char) : List Char := key.toList ++ " = ".toList ++ '"' :: (value ++ ['"'])

namespace LockTable

def locked (t : LockTable) : Locked := (t.name, t.version)

def lines (t : LockTable) : List (List Char) :=
  "[[package]]".toList :: assignment "name" t.name :: assignment "version" t.version :: t.further

end LockTable

namespace TableFile

def locked (f : TableFile) : List Locked := f.tables.map LockTable.locked

def text (f : TableFile) : List Char := unlines (f.preamble ++ f.tables.flatMap LockTable.lines)

end TableFile

variable {C : SemverCrate} {q m value l : List Char} {name version : Option (List Char)} {rest ls : List (List Char)}
  {ts : List LockTable} {key : String}

/-! ## The lines of a file -/

theorem trim_assignment {c : Char} (hc : key.toList.head? = some c) (hw : isWhitespace c = false) :
    trimMatches isWhitespace (assignment key value) = assignment key value := by
  refine trimMatches_eq_self ⟨fun d hd => ?_, fun d hd => ?_⟩
  · rw [assignment, List.append_assoc, List.head?_append, hc, Option.mem_def, Option.some_or] at hd
    cases hd
    exact hw
  · rw [assignment, List.getLast?_append_of_ne_nil _ (List.cons_ne_nil _ _), ← List.cons_append,
      List.getLast?_concat] at hd
    cases hd
    decide

theorem stripPrefix_append (p l : List Char) : stripPrefix p (p ++ l) = some l := by
  rw [stripPrefix, if_pos (List.prefix_append p l), List.drop_left]

theorem trim_quotes (h : Quotable value) : trimMatches (· = '"') ('"' :: (value ++ ['"'])) = value :=
  trimMatches_enclosed rfl (edged_of_forall fun c hc => decide_eq_false (h c hc).1)

theorem checkTables_name (h : Quotable value) :
    checkTables C q m (assignment "name" value :: rest) name version = checkTables C q m rest (some value) version := by
  rw [checkTables, trim_assignment (c := 'n') rfl (by decide)]
  have hne : assignment "name" value ≠ "[[package]]".toList := fun he => absurd (congrArg List.head? he) (by simp [assignment])
  have hstrip : stripPrefix "name = ".toList (assignment "name" value) = some ('"' :: (value ++ ['"'])) :=
    stripPrefix_append "name = ".toList _
  simp only [if_neg hne, hstrip, trim_quotes h]

theorem checkTables_version (h : Quotable value) :
    checkTables C q m (assignment "version" value :: rest) name version = checkTables C q m rest name (some value) := by
  rw [checkTables, trim_assignment (c := 'v') rfl (by decide)]
  have hne : assignment "version" value ≠ "[[package]]".toList :=
    fun he => absurd (congrArg List.head? he) (by simp [assignment])
  have hname : stripPrefix "name = ".toList (assignment "version" value) = none := by
    rw [stripPrefix, if_neg]
    rintro ⟨t, ht⟩
    exact absurd (congrArg List.head? ht) (by simp [assignment])
  have hstrip : stripPrefix "version = ".toList (assignment "version" value) = some ('"' :: (value ++ ['"'])) :=
    stripPrefix_append "version = ".toList _
  simp only [if_neg hne, hname, hstrip, trim_quotes h]

theorem stripPrefix_none {p : List Char} (h : ¬ p <+: l) : stripPrefix p l = none := if_neg h

theorem checkTables_further (h : ∀ l ∈ ls, FurtherLine l) :
    checkTables C q m (ls ++ rest) name version = checkTables C q m rest name version := by
  induction ls with
  | nil => rfl
  | cons l ls ih =>
    obtain ⟨hl, hls⟩ := List.forall_mem_cons.mp h
    rw [List.cons_append, checkTables]
    simp only [if_neg hl.noTable, stripPrefix_none hl.noName, stripPrefix_none hl.noVersion]
    exact ih hls

/-- Before the first table nothing is decided. -/
theorem checkTables_preamble (h : ∀ l ∈ ls, NoName l) :
    ∃ version', checkTables C q m (ls ++ rest) none version = checkTables C q m rest none version' := by
  induction ls generalizing version with
  | nil => exact ⟨version, rfl⟩
  | cons l ls ih =>
    obtain ⟨hl, hls⟩ := List.forall_mem_cons.mp h
    rw [List.cons_append, checkTables]
    simp only [if_neg hl.noTable, stripPrefix_none hl.noName]
    split
    · exact ih hls
    · exact ih hls

/-! ## The tables -/

/-- The reader returns where a table ends that has the name. -/
theorem checkTables_tables : checkTables C q m (ts.flatMap LockTable.lines) name version =
    (checkedHere C q m name version).getD (firstAtLeast C q m (ts.map LockTable.locked)) := by
  induction ts generalizing name version with
  | nil => rfl
  | cons t ts ih =>
    have htrim : trimMatches isWhitespace "[[package]]".toList = "[[package]]".toList := by decide
    rw [List.flatMap_cons, LockTable.lines, List.cons_append, checkTables]
    simp only [htrim, if_true]
    cases checkedHere C q m name version with
    | some b => rfl
    | none =>
      simp only [Option.getD_none, List.cons_append]
      rw [checkTables_name t.quotable.1, checkTables_version t.quotable.2, checkTables_further t.further_lines, ih,
        checkedHere, firstAtLeast, firstAtLeast, List.map_cons, List.find?_cons]
      by_cases hq : t.name = q
      · simp [LockTable.locked, hq]
      · simp [LockTable.locked, hq]

theorem isLine_assignment (h : Quotable value) (hkey : '\n' ∉ key.toList) : IsLine (assignment key value) := by
  constructor
  · intro hmem
    rw [assignment, List.append_assoc, List.mem_append, List.mem_append, List.mem_cons, List.mem_append] at hmem
    rcases hmem with h' | h' | h' | h' | h'
    · exact hkey h'
    · exact absurd h' (by decide)
    · cases h'
    · exact (h _ h').2 rfl
    · exact absurd h' (by decide)
  · rw [assignment, List.getLast?_append_of_ne_nil _ (List.cons_ne_nil _ _), ← List.cons_append, List.getLast?_concat]
    decide

theorem TableFile.lines_text (f : TableFile) : Text.lines f.text = f.preamble ++ f.tables.flatMap LockTable.lines := by
  refine lines_unlines fun l hl => ?_
  rcases List.mem_append.mp hl with hl | hl
  · exact (f.preamble_lines l hl).isLine
  · obtain ⟨t, -, ht⟩ := List.mem_flatMap.mp hl
    rw [LockTable.lines, List.mem_cons, List.mem_cons, List.mem_cons] at ht
    rcases ht with rfl | rfl | rfl | ht
    · exact ⟨by decide, by decide⟩
    · exact isLine_assignment t.quotable.1 (by decide)
    · exact isLine_assignment t.quotable.2 (by decide)
    · exact (t.further_lines l ht).isLine

theorem checkTables_file (f : TableFile) :
    checkTables C q m (Text.lines f.text) none none = firstAtLeast C q m f.locked := by
  rw [f.lines_text]
  obtain ⟨version', h⟩ : ∃ version', checkTables C q m (f.preamble ++ f.tables.flatMap LockTable.lines) none none =
      checkTables C q m (f.tables.flatMap LockTable.lines) none version' := checkTables_preamble f.preamble_lines
  rw [h, checkTables_tables]
  rfl

end Claudear.Release
