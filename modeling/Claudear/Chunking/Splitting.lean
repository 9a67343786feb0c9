import Claudear.Chunking.SearchContext
import Claudear.Text.Lines
import Mathlib.Data.List.Forall2

/-!
# Oversized chunks

A chunk over the limit is split after the line that fills a part; the next part starts
`OVERLAP_LINES` lines before. `Cuts lines first i spans` says that the loop, at line `i` of a
part that starts at `first`, makes the parts `spans`, of which those with too few bytes are
left out.
-/

namespace Claudear.Chunking

open Claudear.Text

def MIN_CHUNK_CHARS : Nat := 15

def OVERLAP_LINES : Nat := 3

/-- `lines[first..past]` -/
def between (lines : List (List Char)) (first past : Nat) : List (List Char) := (lines.take past).drop first

/-- Each with its newline. -/
def lineBytes (lines : List (List Char)) : Nat := (lines.map (byteLength · + 1)).sum

def joinLines (lines : List (List Char)) : List Char := ['\n'].intercalate lines

def partOf (chunk : CodeChunk) (lines : List (List Char)) (part_start part_end : Nat) : CodeChunk :=
  { chunk with
    id := none
    start_line := chunk.start_line + part_start
    end_line := chunk.start_line + part_end - 1
    chunk_text := joinLines (between lines part_start part_end)
    content_hash := none }

def partsFrom (chunk : CodeChunk) (lines : List (List Char)) : Nat → Nat → Nat → List (List Char) → List CodeChunk
  | _, _, _, [] => []
  | i, part_start, size, line :: rest =>
    let current_size := size + (byteLength line + 1)
    if MAX_CHUNK_CHARS ≤ current_size ∨ i = lines.length - 1 then
      let part_end := i + 1
      let part := partOf chunk lines part_start part_end
      let next := part_end - OVERLAP_LINES
      (if MIN_CHUNK_CHARS ≤ byteLength part.chunk_text then [part] else []) ++
        partsFrom chunk lines (i + 1) next (lineBytes (between lines next part_end)) rest
    else partsFrom chunk lines (i + 1) part_start current_size rest

def splitOversized (chunks : List CodeChunk) : List CodeChunk :=
  chunks.flatMap fun chunk =>
    if byteLength chunk.chunk_text ≤ MAX_CHUNK_CHARS then [chunk]
    else
      let lines := Text.lines chunk.chunk_text
      partsFrom chunk lines 0 0 0 lines

variable {chunk : CodeChunk} {lines ls rest : List (List Char)} {text line l : List Char} {a b c d i k first prev size : Nat}
  {spans : List (Nat × Nat)}

/-! ## Bytes of lines -/

@[simp] theorem lineBytes_nil : lineBytes [] = 0 := rfl

theorem lineBytes_cons : lineBytes (l :: ls) = byteLength l + 1 + lineBytes ls := List.sum_cons

theorem lineBytes_append : lineBytes (ls ++ rest) = lineBytes ls + lineBytes rest := by
  rw [lineBytes, List.map_append, List.sum_append, lineBytes, lineBytes]

theorem byteLength_joinLines (h : ls ≠ []) : byteLength (joinLines ls) + 1 = lineBytes ls := by
  induction ls with
  | nil => exact absurd rfl h
  | cons l ls ih =>
    cases ls with
    | nil =>
      rw [joinLines, List.intercalate_singleton]
      rfl
    | cons l' ls =>
      have hrest := ih (List.cons_ne_nil l' ls)
      have hjoin : joinLines (l :: l' :: ls) = l ++ ['\n'] ++ joinLines (l' :: ls) := List.intercalate_cons_cons
      have hnewline : Char.utf8Size '\n' = 1 := rfl
      rw [hjoin, byteLength_append, byteLength_append, byteLength_cons, hnewline, byteLength_nil, lineBytes_cons]
      omega

theorem between_length : between lines a lines.length = lines.drop a := by
  rw [between, List.take_length]

theorem between_succ (ha : a ≤ i) (hi : lines.drop i = line :: rest) : between lines a (i + 1) = between lines a i ++ [line] := by
  have hlt : i < lines.length := by
    by_contra hge
    rw [List.drop_eq_nil_of_le (Nat.le_of_not_lt hge)] at hi
    exact List.cons_ne_nil line rest hi.symm
  have hline : lines[i] = line := by
    rw [List.drop_eq_getElem_cons hlt] at hi
    exact (List.cons.inj hi).1
  have hlength : a ≤ (lines.take i).length := by
    rw [List.length_take]
    omega
  rw [between, List.take_succ_eq_append_getElem hlt, List.drop_append_of_le_length hlength, hline]
  rfl

theorem lineBytes_between_succ (ha : a ≤ i) (hi : lines.drop i = line :: rest) :
    lineBytes (between lines a (i + 1)) = lineBytes (between lines a i) + (byteLength line + 1) := by
  rw [between_succ ha hi, lineBytes_append, lineBytes_cons, lineBytes_nil, Nat.add_zero]

theorem lineBytes_between_le : lineBytes (between lines a b) ≤ lineBytes (lines.drop a) := by
  have hsplit := congrArg lineBytes (List.take_append_drop (b - a) (lines.drop a))
  rw [lineBytes_append] at hsplit
  rw [between, List.drop_take]
  omega

theorem between_ne_nil (hab : a < b) (hb : b ≤ lines.length) : between lines a b ≠ [] := by
  rw [← List.length_pos_iff, between, List.length_drop, List.length_take]
  omega

/-- The text of a part has one byte less than its lines. -/
theorem byteLength_part (hab : a < b) (hb : b ≤ lines.length) :
    byteLength (joinLines (between lines a b)) + 1 = lineBytes (between lines a b) :=
  byteLength_joinLines (between_ne_nil hab hb)

theorem byteLength_le_stripReturn : byteLength l ≤ byteLength (stripReturn l) + 1 := by
  rw [stripReturn]
  split
  · rename_i h
    obtain ⟨ys, rfl⟩ := List.getLast?_eq_some_iff.mp h
    have hreturn : Char.utf8Size '\r' = 1 := rfl
    rw [List.dropLast_concat, byteLength_append, byteLength_cons, hreturn, byteLength_nil]
  · omega

/-- At most half of the bytes of a text are carriage returns before newlines. -/
theorem byteLength_lt_lines (text : List Char) : byteLength text < 2 * lineBytes (Text.lines text) + 1 := by
  have hne : text.splitOn '\n' ≠ [] := List.splitOn_ne_nil _ _
  have hjoined : byteLength text + 1 = lineBytes (text.splitOn '\n') := by
    rw [← byteLength_joinLines hne, joinLines, List.intercalate_splitOn]
  have hlast := List.dropLast_concat_getLast hne
  have hstripped (ls : List (List Char)) : lineBytes ls ≤ 2 * lineBytes (ls.map stripReturn) := by
    induction ls with
    | nil => exact Nat.zero_le _
    | cons l ls ih =>
      have hl := byteLength_le_stripReturn (l := l)
      rw [List.map_cons, lineBytes_cons, lineBytes_cons]
      omega
  have hinit := hstripped (text.splitOn '\n').dropLast
  rw [← hlast, lineBytes_append, lineBytes_cons, lineBytes_nil] at hjoined
  rw [Text.lines, lineBytes_append, List.getLast?_eq_some_getLast hne]
  rcases eq_or_ne ((text.splitOn '\n').getLast hne) [] with hnil | hnil
  · rw [hnil, byteLength_nil] at hjoined
    omega
  · rw [Option.filter_some_pos (by simpa using hnil), Option.toList_some, lineBytes_cons, lineBytes_nil]
    omega

/-! ## Parts -/

inductive Cuts (lines : List (List Char)) : Nat → Nat → List (Nat × Nat) → Prop where
  | last {first i : Nat} (hi : i + 1 = lines.length) : Cuts lines first i [(first, lines.length)]
  | full {first i : Nat} {spans : List (Nat × Nat)} (hi : i + 1 < lines.length)
      (hfull : MAX_CHUNK_CHARS ≤ lineBytes (between lines first (i + 1)))
      (hrest : Cuts lines (i + 1 - OVERLAP_LINES) (i + 1) spans) : Cuts lines first i ((first, i + 1) :: spans)
  | more {first i : Nat} {spans : List (Nat × Nat)} (hi : i + 1 < lines.length)
      (hless : lineBytes (between lines first (i + 1)) < MAX_CHUNK_CHARS)
      (hrest : Cuts lines first (i + 1) spans) : Cuts lines first i spans

def Kept (lines : List (List Char)) (span : Nat × Nat) : Prop :=
  MIN_CHUNK_CHARS ≤ byteLength (joinLines (between lines span.1 span.2))

instance : DecidablePred (Kept lines) := fun _ => Nat.decLe _ _

/-- The parts of these lines that are kept. -/
def partsOf (chunk : CodeChunk) (lines : List (List Char)) (spans : List (Nat × Nat)) : List CodeChunk :=
  (spans.filter (Kept lines ·)).map fun span => partOf chunk lines span.1 span.2

theorem partsOf_cons (span : Nat × Nat) : partsOf chunk lines (span :: spans) =
    (if MIN_CHUNK_CHARS ≤ byteLength (partOf chunk lines span.1 span.2).chunk_text
      then [partOf chunk lines span.1 span.2] else []) ++ partsOf chunk lines spans := by
  have hkept : (MIN_CHUNK_CHARS ≤ byteLength (partOf chunk lines span.1 span.2).chunk_text) = Kept lines span := rfl
  rw [partsOf, partsOf, List.filter_cons]
  simp only [hkept]
  split <;> simp_all

theorem partsFrom_cut (h : MAX_CHUNK_CHARS ≤ size + (byteLength line + 1) ∨ i = lines.length - 1) :
    partsFrom chunk lines i first size (line :: rest) =
      (if MIN_CHUNK_CHARS ≤ byteLength (partOf chunk lines first (i + 1)).chunk_text
        then [partOf chunk lines first (i + 1)] else []) ++
      partsFrom chunk lines (i + 1) (i + 1 - OVERLAP_LINES)
        (lineBytes (between lines (i + 1 - OVERLAP_LINES) (i + 1))) rest := by
  rw [partsFrom, if_pos h]

theorem partsFrom_more (h : ¬ (MAX_CHUNK_CHARS ≤ size + (byteLength line + 1) ∨ i = lines.length - 1)) :
    partsFrom chunk lines i first size (line :: rest) =
      partsFrom chunk lines (i + 1) first (size + (byteLength line + 1)) rest := by
  rw [partsFrom, if_neg h]

/-- The loop from line `i` makes the parts of some cuts. -/
theorem exists_cuts (hfirst : first ≤ i) (hi : i < lines.length) (hrest : lines.drop i = rest)
    (hsize : size = lineBytes (between lines first i)) :
    ∃ spans, Cuts lines first i spans ∧ partsFrom chunk lines i first size rest = partsOf chunk lines spans := by
  induction rest generalizing i first size with
  | nil =>
    have hlength := congrArg List.length hrest
    rw [List.length_drop, List.length_nil] at hlength
    omega
  | cons line rest ih =>
    have hsucc := lineBytes_between_succ hfirst hrest
    rw [← hsize] at hsucc
    have hnext : lines.drop (i + 1) = rest := by
      rw [← List.tail_drop, hrest]
      rfl
    by_cases hlast : i + 1 = lines.length
    · have hnil : rest = [] := by
        rw [← hnext, hlast, List.drop_length]
      refine ⟨_, .last hlast, ?_⟩
      rw [partsFrom_cut (.inr (by omega)), hnil, hlast, partsOf_cons]
      rfl
    · have hlt : i + 1 < lines.length := by omega
      by_cases hfull : MAX_CHUNK_CHARS ≤ lineBytes (between lines first (i + 1))
      · obtain ⟨spans, hcuts, hparts⟩ := ih (Nat.sub_le (i + 1) OVERLAP_LINES) hlt hnext rfl
        refine ⟨_, .full hlt hfull hcuts, ?_⟩
        rw [partsFrom_cut (.inl (hsucc ▸ hfull)), hparts, partsOf_cons]
      · obtain ⟨spans, hcuts, hparts⟩ := ih (Nat.le_succ_of_le hfirst) hlt hnext hsucc.symm
        refine ⟨_, .more hlt (Nat.lt_of_not_le hfull) hcuts, ?_⟩
        rw [partsFrom_more (not_or.mpr ⟨hsucc ▸ hfull, by omega⟩), hparts]

/-! ## What the cuts cover -/

/-- A part is over the limit by its last line, or starts with lines of an earlier part. -/
def Filled (lines : List (List Char)) (spans : List (Nat × Nat)) (prev : Nat) (span : Nat × Nat) : Prop :=
  lineBytes (between lines span.1 (span.2 - 1)) ≤ MAX_CHUNK_CHARS ∨ span.2 - 1 = prev ∨ ∃ other ∈ spans, other.2 = span.2 - 1

theorem Cuts.bounds (h : Cuts lines first i spans) (hfirst : first ≤ i) :
    ∀ span ∈ spans, i < span.2 ∧ span.1 < span.2 ∧ span.2 ≤ lines.length := by
  induction h with
  | last hi =>
    intro span hmem
    rw [List.mem_singleton.mp hmem]
    show _ < lines.length ∧ _ < lines.length ∧ lines.length ≤ lines.length
    omega
  | full hi _ _ ih =>
    intro span hmem
    rcases List.mem_cons.mp hmem with rfl | hmem
    · show _ < _ + 1 ∧ _ < _ + 1 ∧ _ + 1 ≤ _
      omega
    · have hrest := ih (Nat.sub_le _ OVERLAP_LINES) span hmem
      omega
  | more hi _ _ ih =>
    intro span hmem
    have hrest := ih (by omega) span hmem
    omega

theorem Cuts.starts (h : Cuts lines first i spans) (hfirst : first ≤ i - OVERLAP_LINES) : ∀ span ∈ spans, first ≤ span.1 := by
  induction h with
  | last hi =>
    intro span hmem
    rw [List.mem_singleton.mp hmem]
  | @full first i spans hi _ _ ih =>
    intro span hmem
    rcases List.mem_cons.mp hmem with rfl | hmem
    · exact Nat.le_refl _
    · have hrest := ih (Nat.le_refl _) span hmem
      omega
  | more hi _ _ ih => exact ih (by omega)

theorem Cuts.pairwise (h : Cuts lines first i spans) (hfirst : first ≤ i - OVERLAP_LINES) :
    spans.Pairwise fun span next => span.1 ≤ next.1 ∧ span.2 < next.2 := by
  induction h with
  | last hi => exact List.pairwise_singleton _ _
  | @full first i spans hi _ hrest ih =>
    refine .cons (fun span hmem => ⟨?_, ?_⟩) (ih (Nat.le_refl _))
    · have hstart := hrest.starts (Nat.le_refl _) span hmem
      show first ≤ span.1
      omega
    · exact (hrest.bounds (Nat.sub_le _ _) span hmem).1
  | more hi _ _ ih => exact ih (by omega)

theorem Cuts.filled (h : Cuts lines first i spans) (hsize : lineBytes (between lines first i) < MAX_CHUNK_CHARS ∨ i = prev) :
    ∀ span ∈ spans, Filled lines spans prev span := by
  induction h generalizing prev with
  | @last first i hi =>
    intro span hmem
    have hend : lines.length - 1 = i := by omega
    rw [List.mem_singleton.mp hmem, Filled, hend]
    exact hsize.imp Nat.le_of_lt .inl
  | @full first i spans hi hfull hrest ih =>
    intro span hmem
    rcases List.mem_cons.mp hmem with rfl | hmem
    · exact hsize.imp Nat.le_of_lt .inl
    · refine (ih (.inr rfl) span hmem).imp_right fun hprev => .inr ?_
      rcases hprev with hprev | ⟨other, hother, hend⟩
      · exact ⟨_, List.mem_cons_self, hprev.symm⟩
      · exact ⟨other, List.mem_cons_of_mem _ hother, hend⟩
  | more hi hless _ ih =>
    intro span hmem
    exact ih (.inl hless) span hmem

theorem Cuts.covers (h : Cuts lines first i spans) (hfirst : first ≤ i) (hk : first ≤ k) (hlt : k < lines.length) :
    ∃ span ∈ spans, span.1 ≤ k ∧ k < span.2 := by
  induction h with
  | last hi => exact ⟨_, List.mem_singleton_self _, hk, hlt⟩
  | @full first i spans hi _ hrest ih =>
    by_cases hin : k < i + 1
    · exact ⟨_, List.mem_cons_self, hk, hin⟩
    · obtain ⟨span, hmem, hspan⟩ := ih (Nat.sub_le _ OVERLAP_LINES) (by omega)
      exact ⟨span, List.mem_cons_of_mem _ hmem, hspan⟩
  | more hi _ _ ih => exact ih (by omega) hk

/-! ## The last part -/

/-- Where a part is full: after the first line that brings it to the limit. -/
inductive PartEnd (lines : List (List Char)) : Nat → Prop where
  | first {c : Nat} (hfull : MAX_CHUNK_CHARS ≤ lineBytes (between lines 0 c))
      (hless : ∀ d < c, lineBytes (between lines 0 d) < MAX_CHUNK_CHARS) : PartEnd lines c
  | next {c d : Nat} (hprev : PartEnd lines c) (hlt : c < d)
      (hfull : MAX_CHUNK_CHARS ≤ lineBytes (between lines (c - OVERLAP_LINES) d))
      (hless : ∀ e, c < e → e < d → lineBytes (between lines (c - OVERLAP_LINES) e) < MAX_CHUNK_CHARS) : PartEnd lines d

/-- A part that starts at `first` is not full at line `i`. -/
def Filling (lines : List (List Char)) (first i : Nat) : Prop :=
  (first = 0 ∧ ∀ d ≤ i, lineBytes (between lines 0 d) < MAX_CHUNK_CHARS) ∨
    ∃ c, PartEnd lines c ∧ c ≤ i ∧ first = c - OVERLAP_LINES ∧
      ∀ e, c < e → e ≤ i → lineBytes (between lines (c - OVERLAP_LINES) e) < MAX_CHUNK_CHARS

theorem Filling.more (h : Filling lines first i) (hless : lineBytes (between lines first (i + 1)) < MAX_CHUNK_CHARS) :
    Filling lines first (i + 1) := by
  rcases h with ⟨rfl, h⟩ | ⟨c, hc, hci, rfl, h⟩
  · refine .inl ⟨rfl, fun d hd => ?_⟩
    rcases Nat.le_succ_iff.mp hd with hd | rfl
    · exact h d hd
    · exact hless
  · refine .inr ⟨c, hc, Nat.le_succ_of_le hci, rfl, fun e hce hei => ?_⟩
    rcases Nat.le_succ_iff.mp hei with hei | rfl
    · exact h e hce hei
    · exact hless

theorem Filling.partEnd (h : Filling lines first i) (hfull : MAX_CHUNK_CHARS ≤ lineBytes (between lines first (i + 1))) :
    PartEnd lines (i + 1) := by
  rcases h with ⟨rfl, h⟩ | ⟨c, hc, hci, rfl, h⟩
  · exact .first hfull fun d hd => h d (Nat.le_of_lt_succ hd)
  · exact .next hc (Nat.lt_succ_of_le hci) hfull fun e hce hei => h e hce (Nat.le_of_lt_succ hei)

theorem PartEnd.filling (h : PartEnd lines c) : Filling lines (c - OVERLAP_LINES) c :=
  .inr ⟨c, h, Nat.le_refl c, rfl, fun _ hce hec => absurd hec (Nat.not_le_of_lt hce)⟩

/-- Where the last part can start. -/
def LastStart (lines : List (List Char)) (first : Nat) : Prop :=
  first = 0 ∨ ∃ c < lines.length, PartEnd lines c ∧ first = c - OVERLAP_LINES

/-- All parts but the last are full. -/
theorem Cuts.kinds (h : Cuts lines first i spans) (hfilling : Filling lines first i) :
    ∀ span ∈ spans, MAX_CHUNK_CHARS ≤ lineBytes (between lines span.1 span.2) ∨
      LastStart lines span.1 ∧ span.2 = lines.length := by
  induction h with
  | last hi =>
    intro span hmem
    rw [List.mem_singleton.mp hmem]
    refine .inr ⟨?_, rfl⟩
    rcases hfilling with ⟨rfl, -⟩ | ⟨c, hc, hci, rfl, -⟩
    · exact .inl rfl
    · exact .inr ⟨c, by omega, hc, rfl⟩
  | full hi hfull _ ih =>
    intro span hmem
    rcases List.mem_cons.mp hmem with rfl | hmem
    · exact .inl hfull
    · exact ih (hfilling.partEnd hfull).filling span hmem
  | more hi hless _ ih => exact ih (hfilling.more hless)

/-- Once a part is full, the parts after it are those of the loop from there. -/
theorem Cuts.from_full (h : Cuts lines first i spans) (hic : i < c) (hc : c < lines.length)
    (hfull : MAX_CHUNK_CHARS ≤ lineBytes (between lines first c))
    (hless : ∀ d, i < d → d < c → lineBytes (between lines first d) < MAX_CHUNK_CHARS) :
    ∃ before rest, spans = before ++ rest ∧ Cuts lines (c - OVERLAP_LINES) c rest := by
  induction h with
  | last hi => omega
  | @full first i spans hi hsize hrest ih =>
    rcases Nat.lt_or_eq_of_le (Nat.succ_le_of_lt hic) with hlt | rfl
    · exact absurd (hless (i + 1) (Nat.lt_succ_self i) hlt) (Nat.not_lt_of_le hsize)
    · exact ⟨[_], spans, rfl, hrest⟩
  | @more first i spans hi hsize hrest ih =>
    rcases Nat.lt_or_eq_of_le (Nat.succ_le_of_lt hic) with hlt | rfl
    · exact ih hlt hfull fun d hd => hless d (Nat.lt_of_succ_lt hd)
    · exact absurd hfull (Nat.not_le_of_lt hsize)

theorem PartEnd.cuts (h : PartEnd lines c) (hc : c < lines.length) (hcuts : Cuts lines 0 0 spans) :
    ∃ before rest, spans = before ++ rest ∧ Cuts lines (c - OVERLAP_LINES) c rest := by
  induction h with
  | @first c hfull hless =>
    have hpos : 0 < c := by
      rw [Nat.pos_iff_ne_zero]
      rintro rfl
      rw [between, List.take_zero, List.drop_nil, lineBytes_nil] at hfull
      exact absurd hfull (by decide)
    exact hcuts.from_full hpos hc hfull fun d _ => hless d
  | @next c d _ hlt hfull hless ih =>
    obtain ⟨before, rest, rfl, hrest⟩ := ih (Nat.lt_trans hlt hc)
    obtain ⟨before', rest', rfl, hrest'⟩ := hrest.from_full hlt hc hfull hless
    exact ⟨before ++ before', rest', (List.append_assoc _ _ _).symm, hrest'⟩

theorem Cuts.only (h : Cuts lines first i spans) (hless : lineBytes (lines.drop first) < MAX_CHUNK_CHARS) :
    spans = [(first, lines.length)] := by
  induction h with
  | last hi => rfl
  | full hi hfull _ _ =>
    exact absurd (Nat.le_trans hfull lineBytes_between_le) (Nat.not_le_of_lt hless)
  | more hi _ _ ih => exact ih hless

/-! ## All parts -/

/-- A part has the lines of its span, counted from the first line of the chunk. -/
structure Delimits (chunk : CodeChunk) (span : Nat × Nat) (part : CodeChunk) : Prop where
  first_line : part.start_line = chunk.start_line + span.1
  last_line : part.end_line + 1 = chunk.start_line + span.2
  text : part.chunk_text = joinLines (between (Text.lines chunk.chunk_text) span.1 span.2)

/-- The parts have all lines in order, each part a line that no earlier part has; without its
last line a part is within the limit or consists of lines of an earlier part. -/
structure KeepsLines (chunk : CodeChunk) (spans : List (Nat × Nat)) (parts : List CodeChunk) : Prop where
  delimits : List.Forall₂ (Delimits chunk) spans parts
  covers : ∀ k < (Text.lines chunk.chunk_text).length, ∃ span ∈ spans, span.1 ≤ k ∧ k < span.2
  ordered : spans.Pairwise fun span next => span.1 ≤ next.1 ∧ span.2 < next.2
  proper : ∀ span ∈ spans, span.1 < span.2 ∧ span.2 ≤ (Text.lines chunk.chunk_text).length
  filled : ∀ span ∈ spans, lineBytes (between (Text.lines chunk.chunk_text) span.1 (span.2 - 1)) ≤ MAX_CHUNK_CHARS ∨
    ∃ other ∈ spans, other.2 = span.2 - 1

def KeepsCode (chunk : CodeChunk) (parts : List CodeChunk) : Prop :=
  if byteLength chunk.chunk_text ≤ MAX_CHUNK_CHARS then parts = [chunk] else ∃ spans, KeepsLines chunk spans parts

/-- From `OVERLAP_LINES` before the last full part on, the lines do not fall below the minimum. -/
def LongEnd (lines : List (List Char)) : Prop :=
  ∀ c < lines.length, PartEnd lines c → MIN_CHUNK_CHARS ≤ byteLength (joinLines (lines.drop (c - OVERLAP_LINES)))

theorem kept_of_full (h : MAX_CHUNK_CHARS ≤ lineBytes (between lines a b)) (hab : a < b) (hb : b ≤ lines.length) :
    Kept lines (a, b) := by
  have hbytes := byteLength_part hab hb
  unfold MAX_CHUNK_CHARS at h
  show 15 ≤ byteLength (joinLines (between lines a b))
  omega

theorem delimits_partOf (h : a < b) : Delimits chunk (a, b) (partOf chunk (Text.lines chunk.chunk_text) a b) where
  first_line := rfl
  last_line := by
    show chunk.start_line + b - 1 + 1 = chunk.start_line + b
    omega
  text := rfl

theorem forall₂_partsOf (h : ∀ span ∈ spans, span.1 < span.2) : List.Forall₂ (Delimits chunk)
    (spans.filter (Kept (Text.lines chunk.chunk_text) ·)) (partsOf chunk (Text.lines chunk.chunk_text) spans) := by
  rw [partsOf, List.forall₂_map_right_iff, List.forall₂_same]
  intro span hmem
  exact delimits_partOf (h span (List.mem_of_mem_filter hmem))

theorem lines_ne_nil (h : MAX_CHUNK_CHARS < byteLength text) : 0 < (Text.lines text).length := by
  have hbytes := byteLength_lt_lines text
  rw [List.length_pos_iff]
  intro hnil
  rw [hnil, lineBytes_nil] at hbytes
  omega

/-- All parts of an oversized chunk are kept when its end is long enough. -/
theorem kept_of_longEnd (hover : MAX_CHUNK_CHARS < byteLength text) (hcuts : Cuts (Text.lines text) 0 0 spans)
    (h : LongEnd (Text.lines text)) : ∀ span ∈ spans, Kept (Text.lines text) span := by
  have hfilling : Filling (Text.lines text) 0 0 := by
    refine .inl ⟨rfl, fun d hd => ?_⟩
    rw [Nat.le_zero.mp hd]
    show 0 < 6000
    omega
  intro span hmem
  obtain ⟨-, hlt, hle⟩ := hcuts.bounds (Nat.le_refl 0) span hmem
  rcases hcuts.kinds hfilling span hmem with hfull | ⟨hstart, hend⟩
  · exact kept_of_full hfull hlt hle
  · rcases hstart with hzero | ⟨c, hc, hpart, hstart⟩
    · have hbytes := byteLength_lt_lines text
      have hpart := byteLength_part hlt hle
      rw [hzero, hend, between_length, List.drop_zero] at hpart
      unfold MAX_CHUNK_CHARS at hover
      show 15 ≤ byteLength (joinLines (between _ span.1 span.2))
      rw [hzero, hend, between_length, List.drop_zero]
      omega
    · show MIN_CHUNK_CHARS ≤ byteLength (joinLines (between _ span.1 span.2))
      rw [hend, hstart, between_length]
      exact h c hc hpart

theorem keepsLines_of_cuts (hover : MAX_CHUNK_CHARS < byteLength chunk.chunk_text)
    (hcuts : Cuts (Text.lines chunk.chunk_text) 0 0 spans) (h : LongEnd (Text.lines chunk.chunk_text)) :
    KeepsLines chunk spans (partsOf chunk (Text.lines chunk.chunk_text) spans) := by
  have hkept := kept_of_longEnd hover hcuts h
  have hbounds := hcuts.bounds (Nat.le_refl 0)
  refine ⟨?_, fun k hk => hcuts.covers (Nat.le_refl 0) (Nat.zero_le k) hk, hcuts.pairwise (Nat.zero_le _),
    fun span hmem => (hbounds span hmem).2, fun span hmem => ?_⟩
  · have hall : List.Forall₂ (Delimits chunk) _ _ := forall₂_partsOf fun span hmem => (hbounds span hmem).2.1
    rwa [List.filter_eq_self.mpr fun span hmem => decide_eq_true (hkept span hmem)] at hall
  · have hsize : lineBytes (between (Text.lines chunk.chunk_text) 0 0) < MAX_CHUNK_CHARS := by
      show 0 < 6000
      omega
    have hfilled : Filled (Text.lines chunk.chunk_text) spans (Text.lines chunk.chunk_text).length span :=
      hcuts.filled (.inl hsize) span hmem
    have hspan := hbounds span hmem
    exact hfilled.imp_right fun hprev => hprev.resolve_left (by omega)

/-- A part whose last line is the last line of the chunk. -/
theorem exists_last {others : List (Nat × Nat)} {parts : List CodeChunk} (h : KeepsLines chunk others parts)
    (hpos : 0 < (Text.lines chunk.chunk_text).length) :
    ∃ part ∈ parts, part.end_line + 1 = chunk.start_line + (Text.lines chunk.chunk_text).length := by
  obtain ⟨span, hmem, -, hlt⟩ := h.covers ((Text.lines chunk.chunk_text).length - 1) (by omega)
  have hend : span.2 = (Text.lines chunk.chunk_text).length := by
    have hle := (h.proper span hmem).2
    omega
  have hall := h.delimits
  clear h
  induction hall with
  | nil => exact absurd hmem List.not_mem_nil
  | @cons first part _ _ hone _ ih =>
    rcases List.mem_cons.mp hmem with rfl | hmem
    · exact ⟨part, List.mem_cons_self, hend ▸ hone.last_line⟩
    · obtain ⟨last, hlast, hline⟩ := ih hmem
      exact ⟨last, List.mem_cons_of_mem part hlast, hline⟩

/-- The last line is lost when the last part is below the minimum. -/
theorem not_keepsLines {others : List (Nat × Nat)} (hcuts : Cuts (Text.lines chunk.chunk_text) 0 0 spans)
    (hc : c < (Text.lines chunk.chunk_text).length) (hend : PartEnd (Text.lines chunk.chunk_text) c)
    (hshort : ¬ MIN_CHUNK_CHARS ≤ byteLength (joinLines ((Text.lines chunk.chunk_text).drop (c - OVERLAP_LINES)))) :
    ¬ KeepsLines chunk others (partsOf chunk (Text.lines chunk.chunk_text) spans) := by
  intro h
  obtain ⟨before, rest, rfl, hrest⟩ := hend.cuts hc hcuts
  have hne : (Text.lines chunk.chunk_text).drop (c - OVERLAP_LINES) ≠ [] := by
    rw [← List.length_pos_iff, List.length_drop]
    omega
  have hless : lineBytes ((Text.lines chunk.chunk_text).drop (c - OVERLAP_LINES)) < MAX_CHUNK_CHARS := by
    rw [← byteLength_joinLines hne]
    unfold MIN_CHUNK_CHARS at hshort
    show _ < 6000
    omega
  obtain rfl := hrest.only hless
  obtain ⟨part, hpart, hline⟩ := exists_last h (Nat.zero_lt_of_lt hc)
  obtain ⟨span, hspan, rfl⟩ := List.mem_map.mp hpart
  obtain ⟨hmem, hkept⟩ := List.mem_filter.mp hspan
  have hlt := hcuts.bounds (Nat.le_refl 0) span hmem
  have hpast : span.2 = (Text.lines chunk.chunk_text).length := by
    have hdelimits : chunk.start_line + span.2 - 1 + 1 = _ := hline
    omega
  rcases List.mem_append.mp hmem with hmem | hmem
  · have hordered := (List.pairwise_append.mp (hcuts.pairwise (Nat.zero_le _))).2.2 span hmem _ (List.mem_singleton_self _)
    exact absurd hordered.2 (hpast ▸ Nat.lt_irrefl _)
  · rw [List.mem_singleton.mp hmem] at hkept
    have hlong : MIN_CHUNK_CHARS ≤ byteLength (joinLines (between _ _ _)) := of_decide_eq_true hkept
    rw [between_length] at hlong
    exact hshort hlong

/-- The parts of an oversized chunk are those of some cuts. -/
theorem splitOversized_of_over (hover : MAX_CHUNK_CHARS < byteLength chunk.chunk_text) :
    ∃ spans, Cuts (Text.lines chunk.chunk_text) 0 0 spans ∧
      splitOversized [chunk] = partsOf chunk (Text.lines chunk.chunk_text) spans := by
  obtain ⟨spans, hcuts, hparts⟩ := exists_cuts (Nat.le_refl 0) (lines_ne_nil hover) List.drop_zero rfl
  refine ⟨spans, hcuts, ?_⟩
  rw [splitOversized, List.flatMap_singleton, if_neg (Nat.not_le_of_lt hover)]
  exact hparts

theorem not_keepsCode (hover : MAX_CHUNK_CHARS < byteLength chunk.chunk_text)
    (hc : c < (Text.lines chunk.chunk_text).length) (hend : PartEnd (Text.lines chunk.chunk_text) c)
    (hshort : ¬ MIN_CHUNK_CHARS ≤ byteLength (joinLines ((Text.lines chunk.chunk_text).drop (c - OVERLAP_LINES)))) :
    ¬ KeepsCode chunk (splitOversized [chunk]) := by
  obtain ⟨spans, hcuts, hparts⟩ := splitOversized_of_over hover
  rw [hparts, KeepsCode, if_neg (Nat.not_le_of_lt hover)]
  rintro ⟨others, h⟩
  exact not_keepsLines hcuts hc hend hshort h

/-- The lines of an oversized chunk are kept exactly when its end is long enough. -/
theorem splitOversized_exact (chunk : CodeChunk) : KeepsCode chunk (splitOversized [chunk]) ↔
    (MAX_CHUNK_CHARS < byteLength chunk.chunk_text → LongEnd (Text.lines chunk.chunk_text)) := by
  constructor
  · intro h hover c hc hend
    by_contra hshort
    exact not_keepsCode hover hc hend hshort h
  · intro h
    by_cases hsmall : byteLength chunk.chunk_text ≤ MAX_CHUNK_CHARS
    · rw [KeepsCode, if_pos hsmall, splitOversized, List.flatMap_singleton, if_pos hsmall]
    · have hover := Nat.lt_of_not_le hsmall
      obtain ⟨spans, hcuts, hparts⟩ := splitOversized_of_over hover
      rw [KeepsCode, if_neg hsmall, hparts]
      exact ⟨spans, keepsLines_of_cuts hover hcuts (h hover)⟩

/-! A line that fills a part, three empty lines and a brace. -/

def bracedLines : List (List Char) := [List.replicate 6000 'a', [], [], [], ['}']]

def bracedChunk : CodeChunk :=
  { id := none, repo_id := 1, file_path := "a.rs", chunk_type := "function", symbol_name := none, language := .Rust,
    start_line := 1, end_line := 5, chunk_text := unlines bracedLines, context_text := "", file_hash := "",
    content_hash := none }

theorem byteLength_replicate (n : Nat) : byteLength (List.replicate n 'a') = n := by
  rw [byteLength, List.map_replicate, List.sum_replicate_nat]
  exact Nat.mul_one n

theorem lines_bracedChunk : Text.lines bracedChunk.chunk_text = bracedLines := by
  refine lines_unlines fun l hl => ?_
  rcases List.mem_cons.mp hl with rfl | hl
  · constructor
    · rw [List.mem_replicate]
      exact fun h => absurd h.2 (by decide)
    · rw [List.getLast?_replicate]
      decide
  · simp only [List.mem_cons, List.not_mem_nil, or_false] at hl
    rcases hl with rfl | rfl | rfl | rfl <;> exact ⟨by decide, by decide⟩

theorem bracedLines_full : MAX_CHUNK_CHARS ≤ lineBytes (List.replicate 6000 'a' :: ls) := by
  rw [lineBytes_cons, byteLength_replicate]
  unfold MAX_CHUNK_CHARS
  omega

theorem partEnd_bracedLines : PartEnd bracedLines 4 := by
  have hone : PartEnd bracedLines 1 := by
    refine .first bracedLines_full fun d hd => ?_
    rw [Nat.lt_one_iff.mp hd]
    show 0 < 6000
    omega
  have htwo : PartEnd bracedLines 2 := .next hone (by omega) bracedLines_full fun e h1 h2 => by omega
  have hthree : PartEnd bracedLines 3 := .next htwo (by omega) bracedLines_full fun e h1 h2 => by omega
  exact .next hthree (by omega) bracedLines_full fun e h1 h2 => by omega

theorem lastBrace_lost : ¬ KeepsCode bracedChunk (splitOversized [bracedChunk]) := by
  have hover : MAX_CHUNK_CHARS < byteLength bracedChunk.chunk_text := by
    show 6000 < byteLength ((List.replicate 6000 'a' ++ ['\n']) ++ _)
    rw [byteLength_append, byteLength_append, byteLength_replicate]
    show 6000 < 6000 + 1 + _
    omega
  refine not_keepsCode hover (c := 4) ?_ ?_ ?_
  · rw [lines_bracedChunk]
    decide
  · rw [lines_bracedChunk]
    exact partEnd_bracedLines
  · rw [lines_bracedChunk]
    decide

end Claudear.Chunking
