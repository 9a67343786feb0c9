import Claudear.Release.LockedTables
import Claudear.Text.Replaced

/-!
# Yarn lock files

A stanza begins with a line of descriptors, a name and a range each, and goes on
with the version and further indented lines. The reader stops at the first stanza
with a descriptor of the package it looks for.
-/

namespace Claudear.Release

open Claudear.Text

/-- The name of an npm package. -/
structure NpmName (n : List Char) : Prop where
  ne_nil : n ≠ []
  scope : '@' ∉ n.tail
  plain : ∀ c ∈ n, isWhitespace c = false ∧ c ≠ '"' ∧ c ≠ '\'' ∧ c ≠ ','
  free : ¬ "/node_modules/".toList <:+: '/' :: n

/-- The range of a descriptor, and whether the descriptor is quoted. -/
structure Range where
  quoted : Bool
  range : List Char
  plain : ∀ c ∈ range, c ≠ '"' ∧ c ≠ '\'' ∧ c ≠ ',' ∧ c ≠ '\n'
  edge : ∀ c ∈ range.getLast?, isWhitespace c = false ∧ c ≠ ':'

/-- A line that stays within its stanza and gives no version. -/
structure StanzaLine (l : List Char) : Prop where
  isLine : IsLine l
  noVersion : versionCapture l = none

structure Stanza where
  name : List Char
  version : List Char
  first : Range
  others : List Range
  further : List (List Char)
  npmName : NpmName name
  quotable : Quotable version
  version_ne_nil : version ≠ []
  further_lines : ∀ l ∈ further, StanzaLine l

structure YarnFile where
  preamble : List (List Char)
  stanzas : List Stanza
  preamble_lines : ∀ l ∈ preamble, StanzaLine l

/-- `name@range`, quoted or not. -/
def descriptor (name : List Char) (r : Range) : List Char :=
  let plain := name ++ '@' :: r.range
  if r.quoted then '"' :: (plain ++ ['"']) else plain

/-- With `, ` between them. -/
def joined : List Char → List (List Char) → List Char
  | d, [] => d
  | d, e :: ds => d ++ ',' :: ' ' :: joined e ds

namespace Stanza

def locked (s : Stanza) : Locked := (s.name, s.version)

def header (s : Stanza) : List Char := joined (descriptor s.name s.first) (s.others.map (descriptor s.name)) ++ [':']

def versionLine (version : List Char) : List Char := "  version \"".toList ++ (version ++ ['"'])

def lines (s : Stanza) : List (List Char) := s.header :: versionLine s.version :: s.further

end Stanza

namespace YarnFile

def locked (f : YarnFile) : List Locked := f.stanzas.map Stanza.locked

def text (f : YarnFile) : List Char := unlines (f.preamble ++ f.stanzas.flatMap Stanza.lines)

end YarnFile

variable {C : SemverCrate} {n q m l d p : List Char} {ds rest ls : List (List Char)} {ss : List Stanza} {r : Range}
  {inside : Bool}

/-! ## Descriptors -/

theorem takeWhile_until {c : Char} {u x : List Char} (hu : c ∉ u) : (u ++ c :: x).takeWhile (· ≠ c) = u := by
  rw [List.takeWhile_append_of_pos, List.takeWhile_cons_of_neg (by simp), List.append_nil]
  exact fun d hd => decide_eq_true fun he => hu (he ▸ hd)

theorem NpmName.head (h : NpmName n) : ∃ c t, n = c :: t ∧ isWhitespace c = false ∧ c ≠ '"' ∧ c ≠ '\'' ∧ c ≠ ',' ∧ '@' ∉ t := by
  obtain ⟨c, t, rfl⟩ := List.exists_cons_of_ne_nil h.ne_nil
  obtain ⟨hw, hq, hs, hc⟩ := h.plain c List.mem_cons_self
  exact ⟨c, t, rfl, hw, hq, hs, hc, h.scope⟩

/-- What ends with a range ends with its last character or with the `@`. -/
theorem getLast?_plain (c : Char) (hc : c ∈ (n ++ '@' :: r.range).getLast?) :
    isWhitespace c = false ∧ c ≠ ':' ∧ c ≠ '"' ∧ c ≠ '\'' := by
  rw [List.getLast?_append_of_ne_nil _ (List.cons_ne_nil _ _)] at hc
  cases hr : r.range.getLast? with
  | none =>
    rw [List.getLast?_eq_none_iff.mp hr] at hc
    cases hc
    decide
  | some e =>
    rw [List.getLast?_cons, hr] at hc
    cases hc
    obtain ⟨hq, hs, -⟩ := r.plain e (List.mem_of_mem_getLast? hr)
    obtain ⟨hw, hcolon⟩ := r.edge e hr
    exact ⟨hw, hcolon, hq, hs⟩

theorem mem_descriptor {c : Char} (hc : c ∈ descriptor n r) : c ∈ n ∨ c = '@' ∨ c ∈ r.range ∨ c = '"' := by
  rw [descriptor] at hc
  split at hc
  · simp only [List.mem_cons, List.mem_append, List.not_mem_nil, or_false] at hc
    tauto
  · simp only [List.mem_cons, List.mem_append] at hc
    tauto

theorem comma_not_mem_descriptor (h : NpmName n) : ',' ∉ descriptor n r := by
  intro hc
  rcases mem_descriptor hc with h' | h' | h' | h'
  · exact (h.plain _ h').2.2.2 rfl
  · exact absurd h' (by decide)
  · exact (r.plain _ h').2.2.1 rfl
  · exact absurd h' (by decide)

/-- A descriptor begins and ends with no white space, and does not end with a colon. -/
theorem descriptor_edges (h : NpmName n) : descriptor n r ≠ [] ∧
    (∀ c ∈ (descriptor n r).head?, isWhitespace c = false) ∧
    ∀ c ∈ (descriptor n r).getLast?, isWhitespace c = false ∧ c ≠ ':' := by
  obtain ⟨a, t, rfl, hw, -⟩ := h.head
  rw [descriptor]
  split
  · refine ⟨List.cons_ne_nil _ _, fun c hc => ?_, fun c hc => ?_⟩
    · cases hc
      decide
    · rw [← List.cons_append, List.getLast?_concat] at hc
      cases hc
      decide
  · refine ⟨List.cons_ne_nil _ _, fun c hc => ?_, fun c hc => ?_⟩
    · cases hc
      exact hw
    · exact ⟨(getLast?_plain c hc).1, (getLast?_plain c hc).2.1⟩

theorem trim_descriptor (h : NpmName n) :
    trimMatches (· = '\'') (trimMatches (· = '"') (descriptor n r)) = n ++ '@' :: r.range := by
  obtain ⟨a, t, rfl, -, hq, hs, -⟩ := h.head
  have hedged (c : Char) (ha : a ≠ c) (hlast : ∀ e ∈ (a :: t ++ '@' :: r.range).getLast?, e ≠ c) :
      Edged (· = c) (a :: t ++ '@' :: r.range) := by
    refine ⟨fun e he => ?_, fun e he => decide_eq_false (hlast e he)⟩
    cases he
    exact decide_eq_false ha
  have hquote := hedged '"' hq fun e he => (getLast?_plain e he).2.2.1
  have hsingle := hedged '\'' hs fun e he => (getLast?_plain e he).2.2.2
  rw [descriptor]
  split
  · rw [trimMatches_enclosed rfl hquote, trimMatches_eq_self hsingle]
  · rw [trimMatches_eq_self hquote, trimMatches_eq_self hsingle]

/-- Only the name itself is read from a descriptor. -/
theorem descriptor_names (h : NpmName n) (hq : NpmName q) :
    (n ++ '@' :: r.range = q ∨ q ++ ['@'] <+: n ++ '@' :: r.range) ↔ n = q := by
  obtain ⟨a, t, rfl, -, -, -, -, ht⟩ := h.head
  obtain ⟨b, u, rfl, -, -, -, -, hu⟩ := hq.head
  constructor
  · rintro (he | ⟨x, hx⟩)
    · obtain ⟨rfl, rfl⟩ := List.cons.inj he
      exact absurd (List.mem_append_right t List.mem_cons_self) hu
    · rw [List.append_assoc, List.singleton_append] at hx
      obtain ⟨rfl, htail⟩ := List.cons.inj hx
      have htake := congrArg (List.takeWhile (· ≠ '@')) htail
      rw [List.append_eq, takeWhile_until hu, List.append_eq, takeWhile_until ht] at htake
      rw [htake]
  · rintro he
    rw [he]
    exact .inr ⟨r.range, by simp⟩

/-! ## Headers -/

theorem splitOn_joined (hp : ',' ∉ p) (hd : ',' ∉ d) (hds : ∀ e ∈ ds, ',' ∉ e) :
    (p ++ joined d ds).splitOn ',' = (p ++ d) :: ds.map (' ' :: ·) := by
  have hplain {l : List Char} (hl : ',' ∉ l) : ∀ c ∈ l, (c == ',') = false := fun c hc =>
    beq_eq_false_iff_ne.mpr fun he => hl (he ▸ hc)
  have hfirst : ',' ∉ p ++ d := by
    rw [List.mem_append, not_or]
    exact ⟨hp, hd⟩
  induction ds generalizing p d with
  | nil => exact List.splitOn_eq_singleton hfirst
  | cons e ds ih =>
    obtain ⟨he, hds⟩ := List.forall_mem_cons.mp hds
    have hrest := ih (p := [' ']) (d := e) (by decide) he hds (by simpa using he)
    rw [joined, ← List.append_assoc, List.splitOn_eq_splitOnP,
      List.splitOnP_append_cons_of_forall_mem (hplain hfirst) _ rfl, ← List.splitOn_eq_splitOnP]
    exact congrArg (List.cons (p ++ d)) hrest

theorem joined_edges (hd : d ≠ []) (hds : ∀ e ∈ ds, e ≠ []) :
    (joined d ds).head? = d.head? ∧ ∃ e ∈ d :: ds, (joined d ds).getLast? = e.getLast? := by
  induction ds generalizing d with
  | nil => exact ⟨rfl, d, List.mem_cons_self, rfl⟩
  | cons e ds ih =>
    obtain ⟨he, hds⟩ := List.forall_mem_cons.mp hds
    obtain ⟨hhead, f, hf, hlast⟩ := ih he hds
    obtain ⟨c, t, rfl⟩ := List.exists_cons_of_ne_nil hd
    refine ⟨rfl, f, List.mem_cons_of_mem _ hf, ?_⟩
    have hne : joined e ds ≠ [] := by
      intro hnil
      rw [hnil] at hhead
      exact he (List.head?_eq_none_iff.mp hhead.symm)
    rw [joined, List.getLast?_append_of_ne_nil _ (List.cons_ne_nil _ _), List.getLast?_cons_cons,
      List.getLast?_cons_of_ne_nil hne, hlast]

/-- What is looked at of a line that ends with one colon. -/
theorem yarnHeader_of_edges (hl : l ≠ []) (hhead : ∀ c ∈ l.head?, isWhitespace c = false)
    (hlast : ∀ c ∈ l.getLast?, isWhitespace c = false ∧ c ≠ ':') : yarnHeaderMatchesPackage (l ++ [':']) q =
    (l.splitOn ',').any fun e =>
      let d := trimMatches (· = '\'') (trimMatches (· = '"') (trimMatches isWhitespace e))
      d = q ∨ q ++ ['@'] <+: d := by
  have hline : trimMatches isWhitespace (l ++ [':']) = l ++ [':'] := by
    refine trimMatches_eq_self ⟨?_, ?_⟩
    · rw [List.head?_append_of_ne_nil _ hl]
      exact hhead
    · rw [List.getLast?_concat]
      rintro c ⟨⟩
      decide
  have hheader : (l ++ [':']).rdropWhile (· = ':') = l := by
    rw [rdropWhile_concat_pos rfl]
    exact rdropWhile_eq_self fun c hc => decide_eq_false (hlast c hc).2
  have htrim : trimMatches isWhitespace l = l := trimMatches_eq_self ⟨hhead, fun c hc => (hlast c hc).1⟩
  rw [yarnHeaderMatchesPackage, hline]
  simp only [List.getLast?_concat, ne_eq, not_true, if_false, hheader, htrim]

theorem trim_spaced (h : Edged isWhitespace d) : trimMatches isWhitespace (' ' :: d) = d := by
  rw [trimMatches, List.dropWhile_cons_of_pos (by decide)]
  exact trimMatches_eq_self h

/-- A header is the header of its own package only. -/
theorem header_matches (s : Stanza) (hq : NpmName q) :
    yarnHeaderMatchesPackage s.header q = true ↔ s.name = q := by
  have hn := s.npmName
  have hothers {P : List Char → Prop} (h : ∀ r, P (descriptor s.name r)) : ∀ e ∈ s.others.map (descriptor s.name), P e := by
    intro e he
    obtain ⟨r, -, rfl⟩ := List.mem_map.mp he
    exact h r
  obtain ⟨hhead, e, he, hlast⟩ := joined_edges (descriptor_edges (r := s.first) hn).1
    (hothers fun r => (descriptor_edges hn).1)
  have hedge : ∀ c ∈ e.getLast?, isWhitespace c = false ∧ c ≠ ':' := by
    rcases List.mem_cons.mp he with rfl | he
    · exact (descriptor_edges hn).2.2
    · obtain ⟨r, -, rfl⟩ := List.mem_map.mp he
      exact (descriptor_edges hn).2.2
  have hne : joined (descriptor s.name s.first) (s.others.map (descriptor s.name)) ≠ [] := by
    intro hnil
    rw [hnil] at hhead
    exact (descriptor_edges hn).1 (List.head?_eq_none_iff.mp hhead.symm)
  have hnames (r : Range) : (let d := trimMatches (· = '\'') (trimMatches (· = '"') (descriptor s.name r));
      decide (d = q ∨ q ++ ['@'] <+: d)) = decide (s.name = q) := by
    dsimp only
    rw [trim_descriptor hn, decide_eq_decide]
    exact descriptor_names hn hq
  have hedged (r : Range) : Edged isWhitespace (descriptor s.name r) :=
    ⟨(descriptor_edges hn).2.1, fun c hc => ((descriptor_edges hn).2.2 c hc).1⟩
  rw [Stanza.header, yarnHeader_of_edges hne (by rw [hhead]; exact (descriptor_edges hn).2.1) (by rw [hlast]; exact hedge),
    ← List.nil_append (joined _ _), splitOn_joined (by simp) (comma_not_mem_descriptor hn)
      (hothers fun r => comma_not_mem_descriptor hn), List.any_cons, List.any_map, List.any_map]
  have hrest : s.others.any (((fun e => let d := trimMatches (· = '\'') (trimMatches (· = '"') (trimMatches isWhitespace e));
      decide (d = q ∨ q ++ ['@'] <+: d)) ∘ (' ' :: ·)) ∘ descriptor s.name) = s.others.any fun _ => decide (s.name = q) := by
    congr 1
    funext r
    simp only [Function.comp_apply, trim_spaced (hedged r)]
    exact hnames r
  rw [hrest]
  simp only [List.nil_append, trimMatches_eq_self (hedged s.first)]
  rw [hnames s.first]
  simp

/-! ## Stanzas -/

theorem isWhitespace_of_isSpace {c : Char} (h : isSpace c = true) : isWhitespace c = true :=
  (forall_of_all (l := " \t\n\x0b\x0c\r".toList) (P := fun c => isWhitespace c = true) (by decide)) c
    (of_decide_eq_true h)

theorem versionLine_not_header : yarnHeaderMatchesPackage (Stanza.versionLine l) q = false := by
  have hline : trimMatches isWhitespace (Stanza.versionLine l) = 'v' :: ("ersion \"".toList ++ (l ++ ['"'])) := by
    show ((' ' :: ' ' :: 'v' :: ("ersion \"".toList ++ (l ++ ['"']))).dropWhile isWhitespace).rdropWhile isWhitespace = _
    rw [List.dropWhile_cons_of_pos (by decide), List.dropWhile_cons_of_pos (by decide),
      List.dropWhile_cons_of_neg (by decide)]
    refine rdropWhile_eq_self fun c hc => ?_
    rw [← List.append_assoc, ← List.cons_append, List.getLast?_concat] at hc
    cases hc
    decide
  rw [yarnHeaderMatchesPackage, hline, ← List.append_assoc, ← List.cons_append, List.getLast?_concat]
  rfl

theorem versionCapture_versionLine (h : Quotable l) (hne : l ≠ []) : versionCapture (Stanza.versionLine l) = some l := by
  have htake : (l ++ ['"']).takeWhile (· ≠ '"') = l := takeWhile_until fun hl => (h _ hl).1 rfl
  have hspace : (' ' :: '"' :: (l ++ ['"'])).takeWhile isSpace = [' '] := rfl
  have hdrop : (' ' :: '"' :: (l ++ ['"'])).dropWhile isSpace = '"' :: (l ++ ['"']) := rfl
  have hversion : stripPrefix "version".toList ((Stanza.versionLine l).dropWhile isSpace) = some (' ' :: '"' :: (l ++ ['"'])) :=
    stripPrefix_append "version".toList _
  have hquote : stripPrefix ['"'] ('"' :: (l ++ ['"'])) = some (l ++ ['"']) := stripPrefix_append ['"'] _
  rw [versionCapture, hversion]
  have hindent : ((Stanza.versionLine l).takeWhile isSpace).isEmpty = false := rfl
  simp only [hindent, Bool.false_eq_true, if_false, Option.bind_some, hspace, hdrop, hquote, htake, List.isEmpty_cons,
    List.isEmpty_eq_false_iff.mpr hne]
  simp

theorem checkStanzas_further (h : ∀ l ∈ ls, StanzaLine l) :
    ∃ inside', checkStanzas C q m (ls ++ rest) inside = checkStanzas C q m rest inside' := by
  induction ls generalizing inside with
  | nil => exact ⟨inside, rfl⟩
  | cons l ls ih =>
    obtain ⟨hl, hls⟩ := List.forall_mem_cons.mp h
    rw [List.cons_append, checkStanzas]
    split
    · exact ih hls
    · dsimp only
      rw [hl.noVersion]
      split
      · exact ih hls
      · exact ih hls

/-- A header is not indented. -/
theorem header_head (s : Stanza) : ∃ c t, s.header = c :: t ∧ isWhitespace c = false := by
  have hn := s.npmName
  have hne : ∀ e ∈ s.others.map (descriptor s.name), e ≠ [] := by
    intro e he
    obtain ⟨r, -, rfl⟩ := List.mem_map.mp he
    exact (descriptor_edges hn).1
  obtain ⟨hhead, -⟩ := joined_edges (descriptor_edges (r := s.first) hn).1 hne
  obtain ⟨c, t, hd⟩ := List.exists_cons_of_ne_nil (descriptor_edges (r := s.first) hn).1
  rw [hd] at hhead
  cases hj : joined (c :: t) (s.others.map (descriptor s.name)) with
  | nil =>
    rw [hj] at hhead
    cases hhead
  | cons e u =>
    rw [hj] at hhead
    cases hhead
    refine ⟨c, u ++ [':'], by rw [Stanza.header, hd, hj]; rfl, (descriptor_edges (r := s.first) hn).2.1 c ?_⟩
    rw [hd]
    rfl

/-- The reader returns at the first stanza of the package. -/
theorem checkStanzas_stanzas (hq : NpmName q) :
    checkStanzas C q m (ss.flatMap Stanza.lines) inside = firstAtLeast C q m (ss.map Stanza.locked) := by
  induction ss generalizing inside with
  | nil => rfl
  | cons s ss ih =>
    rw [List.flatMap_cons, Stanza.lines, List.cons_append, checkStanzas, firstAtLeast, List.map_cons, List.find?_cons]
    by_cases hs : s.name = q
    · rw [if_pos ((header_matches s hq).mpr hs), List.cons_append, checkStanzas,
        versionLine_not_header, versionCapture_versionLine s.quotable s.version_ne_nil]
      simp [Stanza.locked, hs]
    · obtain ⟨c, t, hc, hw⟩ := header_head s
      have hno : yarnHeaderMatchesPackage s.header q = false :=
        Bool.eq_false_iff.mpr fun h => hs ((header_matches s hq).mp h)
      have hspace : isSpace c = false := Bool.eq_false_iff.mpr fun h => by
        rw [isWhitespace_of_isSpace h] at hw
        cases hw
      have hcapture : versionCapture s.header = none := by
        rw [versionCapture, hc, List.takeWhile_cons_of_neg (by simp [hspace])]
        rfl
      have hblank : c ≠ ' ' ∧ c ≠ '\t' := by
        constructor <;> rintro rfl <;> cases hspace
      have hinside : (s.header.isEmpty || s.header.head? = some ' ' || s.header.head? = some '\t') = false := by
        rw [hc]
        simp [hblank]
      rw [hno, hcapture]
      simp only [Bool.false_eq_true, if_false, hinside, Bool.and_false, ite_self, List.cons_append]
      rw [checkStanzas, versionLine_not_header]
      simp only [Bool.false_eq_true, if_false, Bool.false_and]
      obtain ⟨inside', hrest⟩ : ∃ inside', checkStanzas C q m (s.further ++ ss.flatMap Stanza.lines) false =
          checkStanzas C q m (ss.flatMap Stanza.lines) inside' := checkStanzas_further s.further_lines
      rw [hrest, ih]
      simp [firstAtLeast, Stanza.locked, hs]

theorem mem_joined {c : Char} (hc : c ∈ joined d ds) : c = ',' ∨ c = ' ' ∨ ∃ e ∈ d :: ds, c ∈ e := by
  induction ds generalizing d with
  | nil => exact .inr (.inr ⟨d, List.mem_cons_self, hc⟩)
  | cons e ds ih =>
    rw [joined, List.mem_append, List.mem_cons, List.mem_cons] at hc
    rcases hc with hc | rfl | rfl | hc
    · exact .inr (.inr ⟨d, List.mem_cons_self, hc⟩)
    · exact .inl rfl
    · exact .inr (.inl rfl)
    · rcases ih hc with h | h | ⟨f, hf, h⟩
      · exact .inl h
      · exact .inr (.inl h)
      · exact .inr (.inr ⟨f, List.mem_cons_of_mem d hf, h⟩)

theorem isLine_header (s : Stanza) : IsLine s.header := by
  have hplain (r : Range) : '\n' ∉ descriptor s.name r := by
    intro hc
    rcases mem_descriptor hc with h | h | h | h
    · exact absurd (s.npmName.plain _ h).1 (by decide)
    · exact absurd h (by decide)
    · exact (r.plain _ h).2.2.2 rfl
    · exact absurd h (by decide)
  constructor
  · rw [Stanza.header, List.mem_append, not_or]
    refine ⟨fun hc => ?_, by decide⟩
    rcases mem_joined hc with h | h | ⟨e, he, h⟩
    · exact absurd h (by decide)
    · exact absurd h (by decide)
    · rw [← List.map_cons] at he
      obtain ⟨r, -, rfl⟩ := List.mem_map.mp he
      exact hplain r h
  · rw [Stanza.header, List.getLast?_concat]
    decide

theorem isLine_versionLine (h : Quotable l) : IsLine (Stanza.versionLine l) := by
  have hplain : '\n' ∉ Stanza.versionLine l := by
    intro hc
    rcases List.mem_append.mp hc with hc | hc
    · exact absurd hc (by decide)
    · rcases List.mem_append.mp hc with hc | hc
      · exact (h _ hc).2 rfl
      · exact absurd hc (by decide)
  have hlast (p : List Char) : (p ++ (l ++ ['"'])).getLast? = some '"' := by
    rw [← List.append_assoc, List.getLast?_concat]
  refine ⟨hplain, fun hr => ?_⟩
  cases (hlast _).symm.trans hr

theorem YarnFile.lines_text (f : YarnFile) : Text.lines f.text = f.preamble ++ f.stanzas.flatMap Stanza.lines := by
  refine lines_unlines fun l hl => ?_
  rcases List.mem_append.mp hl with hl | hl
  · exact (f.preamble_lines l hl).isLine
  · obtain ⟨s, -, hs⟩ := List.mem_flatMap.mp hl
    rw [Stanza.lines, List.mem_cons, List.mem_cons] at hs
    rcases hs with rfl | rfl | hs
    · exact isLine_header s
    · exact isLine_versionLine s.quotable
    · exact (s.further_lines l hs).isLine

theorem checkStanzas_file (f : YarnFile) (hq : NpmName q) :
    checkStanzas C q m (Text.lines f.text) false = firstAtLeast C q m f.locked := by
  rw [f.lines_text]
  obtain ⟨inside', h⟩ : ∃ inside', checkStanzas C q m (f.preamble ++ f.stanzas.flatMap Stanza.lines) false =
      checkStanzas C q m (f.stanzas.flatMap Stanza.lines) inside' := checkStanzas_further f.preamble_lines
  rw [h, checkStanzas_stanzas hq]
  rfl

end Claudear.Release
