import Claudear.Text.Lines

/-!
# Block YAML as it is written

Trees of block mappings, block sequences, block scalars and one-line scalars, with
everything a writer chooses: the columns, the blanks, the comments and blank lines, and
whether the block of an item starts on the line of its dash. Indentation is held as what is
added to the parent's, so a tree is laid out consistently by construction.
-/

namespace Claudear.Text.BlockYaml

def isBlank (c : Char) : Bool := c = ' ' ∨ c = '\t'

def spaces (n : Nat) : List Char := List.replicate n ' '

structure Blanks where
  chars : List Char
  blank : ∀ c ∈ chars, isBlank c

/-- At least one blank. -/
structure Gap extends Blanks where
  nonempty : chars ≠ []

/-- A text without line breaks. -/
structure OneLine where
  chars : List Char
  one : '\n' ∉ chars ∧ '\r' ∉ chars

/-! ## Ends of lines -/

/-- What ends a line. -/
inductive Ending where
  | blanks (b : Blanks)
  | comment (g : Gap) (text : OneLine)

/-- A line that says nothing. -/
inductive Noise where
  | blank (b : Blanks)
  | comment (b : Blanks) (text : OneLine)

structure LineEnd where
  ending : Ending
  noise : List Noise

def Ending.chars : Ending → List Char
  | .blanks b => b.chars
  | .comment g text => g.chars ++ '#' :: text.chars

def Noise.chars : Noise → List Char
  | .blank b => b.chars
  | .comment b text => b.chars ++ '#' :: text.chars

def LineEnd.below (e : LineEnd) : List (List Char) := e.noise.map Noise.chars

/-! ## Scalars -/

def indicators : List Char := "-?:,[]{}#&*!|>'\"%@`".toList

/-- A plain scalar, where `next` follows on the line. -/
structure Plain (next text : List Char) : Prop where
  nonempty : text ≠ []
  edged : Edged isBlank text
  /-- An indicator comes first only as `-`, `?` or `:` before a character that is not blank. -/
  first : ∀ c rest, text = c :: rest → c ∉ indicators ∨ (c = '-' ∨ c = '?' ∨ c = ':') ∧ ∃ d ∈ (rest ++ next).head?, isBlank d = false
  comment : ∀ u v, text = u ++ '#' :: v → ∃ d ∈ u.getLast?, isBlank d = false
  colon : ∀ u v, text = u ++ ':' :: v → ∃ d ∈ (v ++ next).head?, isBlank d = false

/-- A word of letters and digits. -/
theorem Plain.of_word {next text : List Char} (hne : text ≠ []) (h : ∀ c ∈ text, c.isAlphanum = true) : Plain next text := by
  have hblank (c : Char) (hc : c ∈ text) : isBlank c = false := by
    by_contra hb
    rw [Bool.not_eq_false] at hb
    rcases of_decide_eq_true hb with rfl | rfl
    · exact absurd (h _ hc) (by decide)
    · exact absurd (h _ hc) (by decide)
  have hmark (d : Char) (hd : d.isAlphanum = false) : d ∉ text := fun hmem => by
    rw [h d hmem] at hd
    exact Bool.false_ne_true hd.symm
  refine ⟨hne, edged_of_forall hblank, fun c rest ht => .inl fun hc => ?_, fun u v ht => ?_, fun u v ht => ?_⟩
  · exact hmark c (indicators_alphanum c hc) (ht ▸ List.mem_cons_self)
  · exact absurd (ht ▸ List.mem_append_right u List.mem_cons_self) (hmark '#' (by decide))
  · exact absurd (ht ▸ List.mem_append_right u List.mem_cons_self) (hmark ':' (by decide))
where
  indicators_alphanum (c : Char) (hc : c ∈ indicators) : c.isAlphanum = false :=
    Bool.not_eq_true' _ ▸ List.all_eq_true.mp (show indicators.all (fun c => !c.isAlphanum) = true by decide) c hc

inductive Scalar (next : List Char) where
  | plain (text : OneLine) (h : Plain next text.chars)
  | double (text : OneLine)
  | single (text : OneLine)

namespace Scalar

variable {next : List Char}

def text : Scalar next → List Char
  | .plain t _ | .double t | .single t => t.chars

def escapeDouble (c : Char) : List Char := if c = '"' ∨ c = '\\' then ['\\', c] else [c]

def escapeSingle (c : Char) : List Char := if c = '\'' then ['\'', '\''] else [c]

def written : Scalar next → List Char
  | .plain t _ => t.chars
  | .double t => '"' :: (t.chars.flatMap escapeDouble ++ ['"'])
  | .single t => '\'' :: (t.chars.flatMap escapeSingle ++ ['\''])

end Scalar

/-- A key, with the blanks before its colon. -/
structure Key where
  before : Blanks
  scalar : Scalar (before.chars ++ [':'])

def Key.text (k : Key) : List Char := k.scalar.text

/-- Up to the colon. -/
def Key.chars (k : Key) : List Char := k.scalar.written ++ k.before.chars

inductive BlockLine where
  | blank (b : Blanks)
  | text (t : OneLine)

structure BlockScalar where
  gap : Gap
  folded : Bool
  /-- Chomping and indentation indicators. -/
  header : List Char
  header_chars : ∀ c ∈ header, c = '-' ∨ c = '+' ∨ c.isDigit
  ending : Ending
  shift : Nat
  lines : List BlockLine
  noise : List Noise

namespace BlockScalar

def indicator (b : BlockScalar) : List Char := (if b.folded then '>' else '|') :: b.header

def rest (b : BlockScalar) : List Char := b.gap.chars ++ b.indicator ++ b.ending.chars

def lineAt (column : Nat) : BlockLine → List Char
  | .blank b => b.chars
  | .text t => spaces column ++ t.chars

/-- Below a parent at column `n`. -/
def below (b : BlockScalar) (n : Nat) : List (List Char) :=
  b.lines.map (lineAt (n + 1 + b.shift)) ++ b.noise.map Noise.chars

end BlockScalar

/-! ## Trees -/

mutual

/-- What follows the colon of a key or the dash of an item. -/
inductive Node where
  | null (e : LineEnd)
  | scalar (gap : Gap) (s : Scalar []) (e : LineEnd)
  | block (b : BlockScalar)
  | mapping (e : LineEnd) (shift : Nat) (es : Entries)
  | sequence (e : LineEnd) (shift : Nat) (is : Items)

inductive Entries where
  | last (k : Key) (v : Node)
  | cons (k : Key) (v : Node) (es : Entries)

/-- A mapping or a sequence may start on the line of the dash, after `gap + 1` spaces. -/
inductive Item where
  | node (v : Node)
  | mapping (gap : Nat) (es : Entries)
  | sequence (gap : Nat) (is : Items)

inductive Items where
  | last (i : Item)
  | cons (i : Item) (is : Items)

end

/-- The rest of the line of the colon or the dash. -/
def Node.rest : Node → List Char
  | .null e | .mapping e _ _ | .sequence e _ _ => e.ending.chars
  | .scalar gap s e => gap.chars ++ s.written ++ e.ending.chars
  | .block b => b.rest

mutual

/-- The lines below the colon or dash at column `n`. A sequence starts at column `least` at the earliest. -/
def Node.under (n least : Nat) : Node → List (List Char)
  | .null e | .scalar _ _ e => e.below
  | .block b => b.below n
  | .mapping e shift es => e.below ++ es.lines (spaces (n + 1 + shift)) (n + 1 + shift)
  | .sequence e shift is => e.below ++ is.lines (spaces (least + shift)) (least + shift)

/-- The lines of a mapping at column `n`, whose first key stands after `first`. -/
def Entries.lines (first : List Char) (n : Nat) : Entries → List (List Char)
  | .last k v => (first ++ k.chars ++ ':' :: v.rest) :: v.under n n
  | .cons k v es => (first ++ k.chars ++ ':' :: v.rest) :: (v.under n n ++ es.lines (spaces n) n)

def Item.lines (first : List Char) (n : Nat) : Item → List (List Char)
  | .node v => (first ++ '-' :: v.rest) :: v.under n (n + 1)
  | .mapping gap es => es.lines (first ++ '-' :: spaces (gap + 1)) (n + 1 + (gap + 1))
  | .sequence gap is => is.lines (first ++ '-' :: spaces (gap + 1)) (n + 1 + (gap + 1))

def Items.lines (first : List Char) (n : Nat) : Items → List (List Char)
  | .last i => i.lines first n
  | .cons i is => i.lines first n ++ is.lines (spaces n) n

end

inductive Root where
  | null
  | scalar (n : Nat) (s : Scalar []) (e : LineEnd)
  | block (n : Nat) (b : BlockScalar)
  | mapping (n : Nat) (es : Entries)
  | sequence (n : Nat) (is : Items)

/-- The lines of a root block scalar may start at the first column. -/
def Root.lines : Root → List (List Char)
  | .null => []
  | .scalar n s e => (spaces n ++ s.written ++ e.ending.chars) :: e.below
  | .block n b => (spaces n ++ b.indicator ++ b.ending.chars) ::
      (b.lines.map (BlockScalar.lineAt b.shift) ++ b.noise.map Noise.chars)
  | .mapping n es => es.lines (spaces n) n
  | .sequence n is => is.lines (spaces n) n

structure Document where
  before : List Noise
  root : Root

def Document.lines (d : Document) : List (List Char) := d.before.map Noise.chars ++ d.root.lines

def Document.written (d : Document) : List Char := unlines d.lines

/-! ## Reading the lines back -/

/-- Without line breaks. -/
def Unbroken (l : List Char) : Prop := ∀ c ∈ l, c ≠ '\n' ∧ c ≠ '\r'

section
variable {l r first : List Char} {c : Char} {n : Nat} {next : List Char}

theorem unbroken_nil : Unbroken [] := nofun

theorem unbroken_append : Unbroken (l ++ r) ↔ Unbroken l ∧ Unbroken r := List.forall_mem_append

theorem unbroken_cons : Unbroken (c :: l) ↔ (c ≠ '\n' ∧ c ≠ '\r') ∧ Unbroken l := List.forall_mem_cons

theorem Unbroken.isLine (h : Unbroken l) : IsLine l :=
  ⟨fun hc => (h _ hc).1 rfl, fun hc => (h _ (List.mem_of_mem_getLast? hc)).2 rfl⟩

theorem unbroken_spaces : Unbroken (spaces n) := fun c hc => by
  rw [List.eq_of_mem_replicate hc]
  decide

theorem Blanks.unbroken (b : Blanks) : Unbroken b.chars := fun c hc => by
  rcases of_decide_eq_true (b.blank c hc) with rfl | rfl <;> decide

theorem OneLine.unbroken (t : OneLine) : Unbroken t.chars := fun _ hc =>
  ⟨fun h => t.one.1 (h ▸ hc), fun h => t.one.2 (h ▸ hc)⟩

theorem Ending.unbroken (e : Ending) : Unbroken e.chars := by
  cases e with
  | blanks b => exact b.unbroken
  | comment g t => exact unbroken_append.mpr ⟨g.unbroken, unbroken_cons.mpr ⟨by decide, t.unbroken⟩⟩

theorem Noise.unbroken (e : Noise) : Unbroken e.chars := by
  cases e with
  | blank b => exact b.unbroken
  | comment b t => exact unbroken_append.mpr ⟨b.unbroken, unbroken_cons.mpr ⟨by decide, t.unbroken⟩⟩

theorem unbroken_noise {ns : List Noise} (h : l ∈ ns.map Noise.chars) : Unbroken l := by
  obtain ⟨e, -, rfl⟩ := List.mem_map.mp h
  exact e.unbroken

theorem unbroken_flatMap {f : Char → List Char} (hf : ∀ c, c ≠ '\n' ∧ c ≠ '\r' → Unbroken (f c)) (h : Unbroken l) :
    Unbroken (l.flatMap f) := fun d hd => by
  obtain ⟨c, hc, hd⟩ := List.mem_flatMap.mp hd
  exact hf c (h c hc) d hd

theorem unbroken_escapeDouble (h : c ≠ '\n' ∧ c ≠ '\r') : Unbroken (Scalar.escapeDouble c) := by
  unfold Scalar.escapeDouble
  split
  · exact unbroken_cons.mpr ⟨by decide, unbroken_cons.mpr ⟨h, unbroken_nil⟩⟩
  · exact unbroken_cons.mpr ⟨h, unbroken_nil⟩

theorem unbroken_escapeSingle (h : c ≠ '\n' ∧ c ≠ '\r') : Unbroken (Scalar.escapeSingle c) := by
  unfold Scalar.escapeSingle
  split
  · exact unbroken_cons.mpr ⟨by decide, unbroken_cons.mpr ⟨by decide, unbroken_nil⟩⟩
  · exact unbroken_cons.mpr ⟨h, unbroken_nil⟩

theorem unbroken_quoted {m : Char} (hm : m ≠ '\n' ∧ m ≠ '\r') (h : Unbroken l) : Unbroken (m :: (l ++ [m])) :=
  unbroken_cons.mpr ⟨hm, unbroken_append.mpr ⟨h, unbroken_cons.mpr ⟨hm, unbroken_nil⟩⟩⟩

theorem Scalar.unbroken (s : Scalar next) : Unbroken s.written := by
  cases s with
  | plain t h => exact t.unbroken
  | double t => exact unbroken_quoted (by decide) (unbroken_flatMap (fun _ => unbroken_escapeDouble) t.unbroken)
  | single t => exact unbroken_quoted (by decide) (unbroken_flatMap (fun _ => unbroken_escapeSingle) t.unbroken)

theorem BlockScalar.unbroken_indicator (b : BlockScalar) : Unbroken b.indicator := by
  refine unbroken_cons.mpr ⟨by split <;> decide, fun c hc => ⟨?_, ?_⟩⟩
  · rintro rfl
    exact absurd (b.header_chars _ hc) (by decide)
  · rintro rfl
    exact absurd (b.header_chars _ hc) (by decide)

theorem BlockScalar.unbroken_lines {b : BlockScalar} (h : l ∈ b.lines.map (lineAt n)) : Unbroken l := by
  obtain ⟨line, -, rfl⟩ := List.mem_map.mp h
  cases line with
  | blank b => exact b.unbroken
  | text t => exact unbroken_append.mpr ⟨unbroken_spaces, t.unbroken⟩

theorem Node.unbroken_rest (v : Node) : Unbroken v.rest := by
  cases v with
  | null e | mapping e shift es | sequence e shift is => exact e.ending.unbroken
  | scalar g s e => exact unbroken_append.mpr ⟨unbroken_append.mpr ⟨g.unbroken, s.unbroken⟩, e.ending.unbroken⟩
  | block b => exact unbroken_append.mpr ⟨unbroken_append.mpr ⟨b.gap.unbroken, b.unbroken_indicator⟩, b.ending.unbroken⟩

theorem unbroken_entry (hfirst : Unbroken first) (k : Key) (v : Node) : Unbroken (first ++ k.chars ++ ':' :: v.rest) :=
  unbroken_append.mpr ⟨unbroken_append.mpr ⟨hfirst, unbroken_append.mpr ⟨k.scalar.unbroken, k.before.unbroken⟩⟩,
    unbroken_cons.mpr ⟨by decide, v.unbroken_rest⟩⟩

theorem unbroken_dash (hfirst : Unbroken first) (h : Unbroken r) : Unbroken (first ++ '-' :: r) :=
  unbroken_append.mpr ⟨hfirst, unbroken_cons.mpr ⟨by decide, h⟩⟩

end

mutual

theorem Node.unbroken_under : (v : Node) → ∀ n least, ∀ l ∈ v.under n least, Unbroken l
  | .null _, _, _, _, hl | .scalar .., _, _, _, hl => unbroken_noise hl
  | .block _, _, _, _, hl => (List.mem_append.mp hl).elim BlockScalar.unbroken_lines unbroken_noise
  | .mapping _ _ es, _, _, l, hl => (List.mem_append.mp hl).elim unbroken_noise (es.unbroken _ _ unbroken_spaces l)
  | .sequence _ _ is, _, _, l, hl => (List.mem_append.mp hl).elim unbroken_noise (is.unbroken _ _ unbroken_spaces l)

theorem Entries.unbroken : (es : Entries) → ∀ first n, Unbroken first → ∀ l ∈ es.lines first n, Unbroken l
  | .last k v, _, n, hfirst, l, hl => (List.mem_cons.mp hl).elim (fun h => h ▸ unbroken_entry hfirst k v)
      (v.unbroken_under n n l)
  | .cons k v es, _, n, hfirst, l, hl => (List.mem_cons.mp hl).elim (fun h => h ▸ unbroken_entry hfirst k v) fun hl =>
      (List.mem_append.mp hl).elim (v.unbroken_under n n l) (es.unbroken _ n unbroken_spaces l)

theorem Item.unbroken : (i : Item) → ∀ first n, Unbroken first → ∀ l ∈ i.lines first n, Unbroken l
  | .node v, _, n, hfirst, l, hl => (List.mem_cons.mp hl).elim (fun h => h ▸ unbroken_dash hfirst v.unbroken_rest)
      (v.unbroken_under n (n + 1) l)
  | .mapping _ es, _, _, hfirst, l, hl => es.unbroken _ _ (unbroken_dash hfirst unbroken_spaces) l hl
  | .sequence _ is, _, _, hfirst, l, hl => is.unbroken _ _ (unbroken_dash hfirst unbroken_spaces) l hl

theorem Items.unbroken : (is : Items) → ∀ first n, Unbroken first → ∀ l ∈ is.lines first n, Unbroken l
  | .last i, first, n, hfirst, l, hl => i.unbroken first n hfirst l hl
  | .cons i is, first, n, hfirst, l, hl => (List.mem_append.mp hl).elim (i.unbroken first n hfirst l)
      (is.unbroken _ n unbroken_spaces l)

end

theorem Root.unbroken : (root : Root) → ∀ l ∈ root.lines, Unbroken l
  | .null, _, hl => nomatch hl
  | .scalar _ s e, _, hl => (List.mem_cons.mp hl).elim
      (fun h => h ▸ unbroken_append.mpr ⟨unbroken_append.mpr ⟨unbroken_spaces, s.unbroken⟩, e.ending.unbroken⟩) unbroken_noise
  | .block _ b, _, hl => (List.mem_cons.mp hl).elim
      (fun h => h ▸ unbroken_append.mpr ⟨unbroken_append.mpr ⟨unbroken_spaces, b.unbroken_indicator⟩, b.ending.unbroken⟩)
      fun hl => (List.mem_append.mp hl).elim BlockScalar.unbroken_lines unbroken_noise
  | .mapping _ es, l, hl => es.unbroken _ _ unbroken_spaces l hl
  | .sequence _ is, l, hl => is.unbroken _ _ unbroken_spaces l hl

theorem Document.lines_written (d : Document) : Text.lines d.written = d.lines :=
  lines_unlines fun l hl => (List.mem_append.mp hl).elim (fun h => (unbroken_noise h).isLine) fun h =>
    (d.root.unbroken l h).isLine

end Claudear.Text.BlockYaml
