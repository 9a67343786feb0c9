import Mathlib.Data.List.Basic
import Mathlib.Tactic.Common

/-!
# Regular expressions without alternation

A sequence of items: a character class, once or any number of times, or an
optional group of these. `text` is how the sequence is written, for a way to
escape literal characters, and `Matches` the words it describes.

`rests` computes what is left after every way to match a beginning, so
`isMatch` decides `Matches`. `parse` reads the text back when the escape puts a
backslash before the characters of `metas`.
-/

namespace Claudear.Text

inductive Atom where
  | char (c : Char)
  | any
  | except (c : Char)
  deriving DecidableEq, Repr

inductive Piece where
  | one (a : Atom)
  | many (a : Atom)
  deriving DecidableEq, Repr

inductive Item where
  | piece (p : Piece)
  | optional (ps : List Piece)
  deriving DecidableEq, Repr

abbrev Regex := List Item

/-- The dot is any character but the newline. -/
def Atom.accepts : Atom → Char → Bool
  | char d, c => c = d
  | any, c => c ≠ '\n'
  | except d, c => c ≠ d

/-! ## Words -/

/-- A word that is cut into one part for each element. -/
def Concat {α : Type} (M : α → List Char → Prop) : List α → List Char → Prop
  | [], l => l = []
  | a :: as, l => ∃ u v, l = u ++ v ∧ M a u ∧ Concat M as v

def Piece.Matches : Piece → List Char → Prop
  | one a, l => ∃ c, l = [c] ∧ a.accepts c
  | many a, l => ∀ c ∈ l, a.accepts c

def Item.Matches : Item → List Char → Prop
  | piece p, l => p.Matches l
  | optional ps, l => l = [] ∨ Concat Piece.Matches ps l

def Regex.Matches (r : Regex) (l : List Char) : Prop := Concat Item.Matches r l

section Concat

variable {α : Type} {M : α → List Char → Prop} {as bs : List α} {a : α} {l : List Char}

@[simp] theorem concat_nil : Concat M [] l ↔ l = [] := Iff.rfl

theorem concat_cons : Concat M (a :: as) l ↔ ∃ u v, l = u ++ v ∧ M a u ∧ Concat M as v := Iff.rfl

theorem concat_append :
    Concat M (as ++ bs) l ↔ ∃ u v, l = u ++ v ∧ Concat M as u ∧ Concat M bs v := by
  induction as generalizing l with
  | nil =>
    constructor
    · exact fun h => ⟨[], l, rfl, rfl, h⟩
    · rintro ⟨u, v, rfl, rfl, h⟩
      exact h
  | cons a as ih =>
    rw [List.cons_append, concat_cons]
    constructor
    · rintro ⟨u, w, rfl, ha, h⟩
      obtain ⟨v, w, rfl, hv, hw⟩ := ih.mp h
      exact ⟨u ++ v, w, (List.append_assoc ..).symm, ⟨u, v, rfl, ha, hv⟩, hw⟩
    · rintro ⟨-, w, rfl, ⟨u, v, rfl, ha, hv⟩, hw⟩
      exact ⟨u, v ++ w, List.append_assoc .., ha, ih.mpr ⟨v, w, rfl, hv, hw⟩⟩

theorem concat_singleton : Concat M [a] l ↔ M a l := by
  rw [concat_cons]
  constructor
  · rintro ⟨u, v, rfl, h, rfl⟩
    rwa [List.append_nil]
  · exact fun h => ⟨l, [], (List.append_nil l).symm, h, rfl⟩

/-- An element that matches one character. -/
theorem concat_cons_char {p : Char → Prop} (h : ∀ u, M a u ↔ ∃ c, u = [c] ∧ p c) :
    Concat M (a :: as) l ↔ ∃ c v, l = c :: v ∧ p c ∧ Concat M as v := by
  rw [concat_cons]
  constructor
  · rintro ⟨u, v, rfl, hu, hv⟩
    obtain ⟨c, rfl, hc⟩ := (h u).mp hu
    exact ⟨c, v, rfl, hc, hv⟩
  · rintro ⟨c, v, rfl, hc, hv⟩
    exact ⟨[c], v, rfl, (h [c]).mpr ⟨c, rfl, hc⟩, hv⟩

end Concat

/-! ## Deciding -/

section Rests

variable {α : Type}

/-- What is left of a word after its beginning is cut into one part for each element. -/
def concatRests (rests : α → List Char → List (List Char)) :
    List α → List Char → List (List Char)
  | [], l => [l]
  | a :: as, l => (rests a l).flatMap (concatRests rests as)

theorem mem_concatRests {M : α → List Char → Prop} {rests : α → List Char → List (List Char)}
    (h : ∀ a l v, v ∈ rests a l ↔ ∃ u, l = u ++ v ∧ M a u) (as : List α) (l v : List Char) :
    v ∈ concatRests rests as l ↔ ∃ u, l = u ++ v ∧ Concat M as u := by
  induction as generalizing l with
  | nil => simp [concatRests, eq_comm]
  | cons a as ih =>
    rw [concatRests, List.mem_flatMap]
    constructor
    · rintro ⟨w, hw, hv⟩
      obtain ⟨u, rfl, hu⟩ := (h a l w).mp hw
      obtain ⟨u', rfl, hu'⟩ := (ih w).mp hv
      exact ⟨u ++ u', (List.append_assoc ..).symm, u, u', rfl, hu, hu'⟩
    · rintro ⟨-, rfl, u, u', rfl, hu, hu'⟩
      exact ⟨u' ++ v, (h a _ _).mpr ⟨u, List.append_assoc .., hu⟩, (ih _).mpr ⟨u', rfl, hu'⟩⟩

end Rests

/-- After any number of characters of the class. -/
def Atom.manyRests (a : Atom) : List Char → List (List Char)
  | [] => [[]]
  | c :: l => (c :: l) :: if a.accepts c then a.manyRests l else []

def Piece.rests : Piece → List Char → List (List Char)
  | one _, [] => []
  | one a, c :: l => if a.accepts c then [l] else []
  | many a, l => a.manyRests l

def Item.rests : Item → List Char → List (List Char)
  | piece p, l => p.rests l
  | optional ps, l => l :: concatRests Piece.rests ps l

/-- Whether the whole word matches. -/
def Regex.isMatch (r : Regex) (l : List Char) : Bool := decide ([] ∈ concatRests Item.rests r l)

theorem mem_manyRests {a : Atom} {l v : List Char} :
    v ∈ a.manyRests l ↔ ∃ u, l = u ++ v ∧ ∀ c ∈ u, a.accepts c := by
  induction l with
  | nil =>
    rw [Atom.manyRests, List.mem_singleton]
    constructor
    · rintro rfl
      exact ⟨[], rfl, by simp⟩
    · rintro ⟨u, h, -⟩
      exact (List.append_eq_nil_iff.mp h.symm).2
  | cons c l ih =>
    rw [Atom.manyRests, List.mem_cons]
    constructor
    · rintro (rfl | h)
      · exact ⟨[], rfl, by simp⟩
      · split at h
        · rename_i hc
          obtain ⟨u, rfl, hu⟩ := ih.mp h
          exact ⟨c :: u, rfl, List.forall_mem_cons.mpr ⟨hc, hu⟩⟩
        · cases h
    · rintro ⟨u, h, hu⟩
      cases u with
      | nil => exact .inl h.symm
      | cons d u =>
        obtain ⟨rfl, rfl⟩ := List.cons.inj h
        obtain ⟨hc, hu⟩ := List.forall_mem_cons.mp hu
        rw [if_pos hc]
        exact .inr (ih.mpr ⟨u, rfl, hu⟩)

theorem Piece.mem_rests (p : Piece) (l v : List Char) :
    v ∈ p.rests l ↔ ∃ u, l = u ++ v ∧ p.Matches u := by
  cases p with
  | many a => exact mem_manyRests
  | one a =>
    cases l with
    | nil =>
      simp only [Piece.rests, List.not_mem_nil, false_iff]
      rintro ⟨u, h, c, rfl, -⟩
      cases h
    | cons c l =>
      simp only [Piece.rests]
      constructor
      · intro h
        split at h
        · rename_i hc
          rw [List.mem_singleton.mp h]
          exact ⟨[c], rfl, c, rfl, hc⟩
        · cases h
      · rintro ⟨u, h, d, rfl, hd⟩
        obtain ⟨rfl, rfl⟩ := List.cons.inj h
        rw [if_pos hd]
        exact List.mem_singleton_self _

theorem Item.mem_rests (i : Item) (l v : List Char) :
    v ∈ i.rests l ↔ ∃ u, l = u ++ v ∧ i.Matches u := by
  cases i with
  | piece p => exact p.mem_rests l v
  | optional ps =>
    rw [Item.rests, List.mem_cons, mem_concatRests Piece.mem_rests]
    constructor
    · rintro (rfl | ⟨u, rfl, hu⟩)
      · exact ⟨[], rfl, .inl rfl⟩
      · exact ⟨u, rfl, .inr hu⟩
    · rintro ⟨u, rfl, rfl | hu⟩
      · exact .inl rfl
      · exact .inr ⟨u, rfl, hu⟩

theorem Regex.isMatch_iff (r : Regex) (l : List Char) : r.isMatch l = true ↔ r.Matches l := by
  rw [Regex.isMatch, decide_eq_true_eq, mem_concatRests Item.mem_rests]
  simp [Regex.Matches]

/-! ## Text -/

section Write

variable (escape : Char → List Char)

def Atom.text : Atom → List Char
  | char c => escape c
  | any => ['.']
  | except c => '[' :: '^' :: (escape c ++ [']'])

def Piece.text : Piece → List Char
  | one a => a.text escape
  | many a => a.text escape ++ ['*']

def Item.text : Item → List Char
  | piece p => p.text escape
  | optional ps => '(' :: '?' :: ':' :: (ps.flatMap (Piece.text escape) ++ [')', '?'])

def Regex.text (r : Regex) : List Char := r.flatMap (Item.text escape)

end Write

/-- The characters with a meaning of their own. -/
def metas : List Char := "\\.+*?()|[]\x7b\x7d^$#&-~".toList

/-- A backslash before the characters of `metas`. -/
def backslash (c : Char) : List Char := if c ∈ metas then ['\\', c] else [c]

/-- A literal character. -/
def parseChar : List Char → Option (Char × List Char)
  | '\\' :: c :: l => some (c, l)
  | c :: l => if c ∈ metas then none else some (c, l)
  | [] => none

def parseAtom : List Char → Option (Atom × List Char)
  | '.' :: l => some (.any, l)
  | '[' :: '^' :: l =>
    match parseChar l with
    | some (c, ']' :: l) => some (.except c, l)
    | _ => none
  | l => (parseChar l).map fun m => (.char m.1, m.2)

def parsePiece (l : List Char) : Option (Piece × List Char) :=
  match parseAtom l with
  | some (a, '*' :: l) => some (.many a, l)
  | some (a, l) => some (.one a, l)
  | none => none

/-- The pieces before a closing parenthesis, at most as many as `fuel`. -/
def parsePieces : Nat → List Char → Option (List Piece × List Char)
  | _, ')' :: l => some ([], ')' :: l)
  | 0, _ => none
  | fuel + 1, l =>
    match parsePiece l with
    | some (p, l) => (parsePieces fuel l).map fun m => (p :: m.1, m.2)
    | none => none

def parseItems : Nat → List Char → Option Regex
  | _, [] => some []
  | 0, _ => none
  | fuel + 1, '(' :: '?' :: ':' :: l =>
    match parsePieces l.length l with
    | some (ps, ')' :: '?' :: l) => (parseItems fuel l).map (Item.optional ps :: ·)
    | _ => none
  | fuel + 1, l =>
    match parsePiece l with
    | some (p, l) => (parseItems fuel l).map (Item.piece p :: ·)
    | none => none

def parseRegex (l : List Char) : Option Regex := parseItems l.length l

theorem parseChar_backslash (c : Char) (l : List Char) :
    parseChar (backslash c ++ l) = some (c, l) := by
  unfold backslash
  split
  · rfl
  · rename_i h
    have hb : c ≠ '\\' := fun he => h (he ▸ by decide)
    rw [List.singleton_append, parseChar.eq_def]
    split
    · rename_i heq
      exact absurd (List.cons.inj heq).1 hb
    · rename_i heq
      obtain ⟨rfl, rfl⟩ := List.cons.inj heq
      rw [if_neg h]
    · rename_i heq
      cases heq

/-- How an atom begins: with a backslash, a dot, a bracket or a character of no meaning. -/
theorem Atom.text_eq_cons (a : Atom) : ∃ c l, a.text backslash = c :: l ∧
    c ≠ '*' ∧ c ≠ '(' ∧ c ≠ ')' := by
  cases a with
  | any => exact ⟨'.', [], rfl, by decide⟩
  | except c => exact ⟨'[', _, rfl, by decide⟩
  | char c =>
    rw [Atom.text, backslash]
    split
    · exact ⟨'\\', [c], rfl, by decide⟩
    · rename_i h
      refine ⟨c, [], rfl, ?_, ?_, ?_⟩ <;> exact fun he => h (he ▸ by decide)

theorem parseAtom_text (a : Atom) (l : List Char) :
    parseAtom (a.text backslash ++ l) = some (a, l) := by
  cases a with
  | any => rfl
  | except c =>
    rw [Atom.text, List.cons_append, List.cons_append, List.append_assoc, parseAtom,
      parseChar_backslash]
    rfl
  | char c =>
    have hc := parseChar_backslash c l
    rw [Atom.text]
    by_cases h : c ∈ metas
    · rw [backslash, if_pos h] at hc ⊢
      exact congrArg (Option.map fun m => (Atom.char m.1, m.2)) hc
    · have hdot : c ≠ '.' := fun he => h (he ▸ by decide)
      have hopen : c ≠ '[' := fun he => h (he ▸ by decide)
      rw [backslash, if_neg h] at hc ⊢
      rw [List.singleton_append] at hc ⊢
      rw [parseAtom.eq_def]
      split
      · rename_i heq
        exact absurd (List.cons.inj heq).1 hdot
      · rename_i heq
        exact absurd (List.cons.inj heq).1 hopen
      · rw [hc]
        rfl

/-- The text after a class is not taken for a repetition of it. -/
def NoStar (l : List Char) : Prop := l.head? ≠ some '*'

theorem parsePiece_text (p : Piece) {l : List Char} (h : NoStar l) :
    parsePiece (p.text backslash ++ l) = some (p, l) := by
  cases p with
  | many a =>
    rw [Piece.text, List.append_assoc, parsePiece, parseAtom_text]
    rfl
  | one a =>
    rw [Piece.text, parsePiece, parseAtom_text]
    cases l with
    | nil => rfl
    | cons c l =>
      have hc : c ≠ '*' := fun he => h (congrArg some he)
      split
      · rename_i heq
        exact absurd (List.cons.inj (Prod.mk.inj (Option.some.inj heq)).2).1 hc
      · rename_i heq
        rw [← (Prod.mk.inj (Option.some.inj heq)).1, ← (Prod.mk.inj (Option.some.inj heq)).2]
      · rename_i heq
        cases heq

theorem Piece.text_eq_cons (p : Piece) : ∃ c l, p.text backslash = c :: l ∧
    c ≠ '*' ∧ c ≠ '(' ∧ c ≠ ')' := by
  cases p with
  | one a => exact a.text_eq_cons
  | many a =>
    obtain ⟨c, l, h, hc⟩ := a.text_eq_cons
    exact ⟨c, l ++ ['*'], by rw [Piece.text, h, List.cons_append], hc⟩

theorem noStar_pieces (ps : List Piece) {l : List Char} (h : NoStar l) :
    NoStar (ps.flatMap (Piece.text backslash) ++ l) := by
  cases ps with
  | nil => exact h
  | cons p ps =>
    obtain ⟨c, t, ht, hc, -⟩ := p.text_eq_cons
    rw [List.flatMap_cons, ht]
    exact fun he => hc (Option.some.inj he)

theorem parsePieces_text (ps : List Piece) (l : List Char) {fuel : Nat} (h : ps.length ≤ fuel) :
    parsePieces fuel (ps.flatMap (Piece.text backslash) ++ ')' :: l) = some (ps, ')' :: l) := by
  induction ps generalizing fuel with
  | nil => cases fuel <;> rfl
  | cons p ps ih =>
    cases fuel with
    | zero => simp at h
    | succ fuel =>
      obtain ⟨c, t, ht, -, -, hc⟩ := p.text_eq_cons
      have hs : NoStar (ps.flatMap (Piece.text backslash) ++ ')' :: l) :=
        noStar_pieces ps fun he => by cases he
      have hp := parsePiece_text p hs
      rw [List.flatMap_cons, List.append_assoc]
      rw [ht, List.cons_append] at hp ⊢
      rw [parsePieces, hp]
      · simp only [ih (Nat.le_of_succ_le_succ h), Option.map_some]
      · rintro l' he
        exact hc (List.cons.inj he).1

theorem Item.noStar_text (i : Item) (l : List Char) : NoStar (i.text backslash ++ l) := by
  cases i with
  | optional ps => exact fun he => by cases he
  | piece p =>
    obtain ⟨c, t, ht, hc, -⟩ := p.text_eq_cons
    rw [Item.text, ht]
    exact fun he => hc (Option.some.inj he)

theorem length_le_flatMap_text (ps : List Piece) (l : List Char) :
    ps.length ≤ (ps.flatMap (Piece.text backslash) ++ l).length := by
  induction ps with
  | nil => exact Nat.zero_le _
  | cons p ps ih =>
    obtain ⟨c, t, ht, -⟩ := p.text_eq_cons
    rw [List.flatMap_cons, ht]
    simp only [List.length_cons, List.length_append] at ih ⊢
    omega

theorem parseItems_text (r : Regex) {fuel : Nat} (h : r.length ≤ fuel) :
    parseItems fuel (r.text backslash) = some r := by
  induction r generalizing fuel with
  | nil => cases fuel <;> rfl
  | cons i r ih =>
    cases fuel with
    | zero => simp at h
    | succ fuel =>
      have ih' : parseItems fuel (Regex.text backslash r) = some r := ih (Nat.le_of_succ_le_succ h)
      have hs : NoStar (Regex.text backslash r) := by
        cases r with
        | nil => exact fun he => by cases he
        | cons j r => exact j.noStar_text _
      rw [Regex.text, List.flatMap_cons]
      rw [Regex.text] at ih' hs
      cases i with
      | optional ps =>
        rw [Item.text, List.cons_append, List.cons_append, List.cons_append, List.append_assoc,
          parseItems, List.cons_append, List.cons_append, List.nil_append,
          parsePieces_text ps _ (length_le_flatMap_text ps _)]
        simp only [ih', Option.map_some]
      | piece p =>
        obtain ⟨c, t, ht, -, hc, -⟩ := p.text_eq_cons
        have hp := parsePiece_text p hs
        rw [Item.text]
        rw [ht, List.cons_append] at hp ⊢
        rw [parseItems, hp]
        · simp only [ih', Option.map_some]
        · intro he
          cases he
        · intro l' he
          exact hc (List.cons.inj he).1

/-- What is written is read back. -/
theorem parseRegex_text (r : Regex) : parseRegex (r.text backslash) = some r := by
  refine parseItems_text r ?_
  induction r with
  | nil => exact Nat.zero_le _
  | cons i r ih =>
    have hi : 0 < (i.text backslash).length := by
      cases i with
      | optional ps => simp [Item.text]
      | piece p =>
        obtain ⟨c, t, ht, -⟩ := p.text_eq_cons
        rw [Item.text, ht]
        simp
    rw [Regex.text, List.flatMap_cons, List.length_append, List.length_cons]
    rw [Regex.text] at ih
    omega

end Claudear.Text
