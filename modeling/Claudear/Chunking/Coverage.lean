import Claudear.Chunking.Chunker
import Claudear.Text.Delimited

/-!
# The lines that chunks show

`InChunk lines symbols j` says from the ranges of the symbols that some chunk shows line `j`. The
inside of a large container is only shown where its own methods are.
-/

namespace Claudear.Chunking

open Claudear.Text

variable (lines : List (List Char)) (symbols : List CodeSymbol)

/-- The chunk of a symbol shows the line: it belongs to the symbol or is a comment before it. -/
def Shown (sym : CodeSymbol) (j : Nat) : Prop := gatherLeadingContext lines sym.first ≤ j ∧ j < sym.past lines

/-- The line lies in a container outside the others, or in a function or method listed for a large one. -/
def Contained (j : Nat) : Prop :=
  ∃ T ∈ topLevelContainers symbols, T.1.Has lines j ∨ isLarge lines T.1 = true ∧ ∃ m ∈ methodsOf symbols T.1, m.1.Has lines j

instance (j : Nat) : Decidable (Contained lines symbols j) := inferInstanceAs (Decidable (∃ T ∈ _, _ ∨ _ ∧ ∃ m ∈ _, _))

/-- Of these symbols, each whose first line is not held yet; it holds its lines from there on. -/
def owners (held : Nat → Bool) : List (CodeSymbol × Nat) → List (CodeSymbol × Nat)
  | [] => []
  | sym :: rest =>
    if held sym.1.first then owners held rest
    else sym :: owners (fun i => held i || decide (sym.1.Has lines i)) rest

def heldByContainers (i : Nat) : Bool := decide (lines.length ≤ i) || decide (Contained lines symbols i)

/-- The functions with a chunk of their own. -/
def ownFunctions : List (CodeSymbol × Nat) := owners lines (heldByContainers lines symbols) (standaloneFunctions symbols)

def heldByFunctions (i : Nat) : Bool :=
  heldByContainers lines symbols i || decide (∃ f ∈ ownFunctions lines symbols, f.1.Has lines i)

def ownConstants : List (CodeSymbol × Nat) := owners lines (heldByFunctions lines symbols) (standaloneConstants symbols)

def heldBySymbols (i : Nat) : Bool :=
  heldByFunctions lines symbols i || decide (∃ c ∈ ownConstants lines symbols, c.1.Has lines i)

/-- Which lines of the file are held. -/
def heldLines (held : Nat → Bool) : List Bool := (List.range lines.length).map held

inductive InChunk (j : Nat) : Prop where
  | small {T : CodeSymbol × Nat} (hT : T ∈ topLevelContainers symbols) (hsmall : isLarge lines T.1 = false) (hj : Shown lines T.1 j)
  | header {T : CodeSymbol × Nat} (hT : T ∈ topLevelContainers symbols) (hlarge : isLarge lines T.1 = true)
      (hj : gatherLeadingContext lines T.1.first ≤ j ∧ j < min (T.1.first + 5) (T.1.past lines))
  | method {T m : CodeSymbol × Nat} (hT : T ∈ topLevelContainers symbols) (hlarge : isLarge lines T.1 = true)
      (hm : m ∈ methodsOf symbols T.1) (hj : Shown lines m.1 j)
  | own {s : CodeSymbol × Nat} (hs : s ∈ ownFunctions lines symbols ∨ s ∈ ownConstants lines symbols) (hj : Shown lines s.1 j)
  | block {block : Nat × Nat} (hblock : block ∈ blocksFrom lines 0 none 0 (heldLines lines (heldBySymbols lines symbols)))
      (hlong : MIN_CHUNK_CHARS ≤ byteLength (blockText lines (heldLines lines (heldBySymbols lines symbols)) block))
      (hj : j ∈ blockLines (heldLines lines (heldBySymbols lines symbols)) block)

variable {lines symbols} {file : FileContext} {held held' : Nat → Bool} {sym : CodeSymbol} {l : List (CodeSymbol × Nat)}
  {s : CodeSymbol × Nat} {word : List Char} {a b i j k : Nat}

/-! ## Covered lines -/

theorem getD_heldLines (h : ∀ i, lines.length ≤ i → held i = true) : (heldLines lines held).getD i true = held i := by
  rw [heldLines, List.getD_eq_getElem?_getD, List.getElem?_map]
  rcases Nat.lt_or_ge i lines.length with hi | hi
  · rw [List.getElem?_range hi]
    rfl
  · rw [List.getElem?_eq_none (by simpa using hi), h i hi]
    rfl

theorem markCovered_heldLines : markCovered lines (heldLines lines held) sym =
    heldLines lines fun i => held i || decide (sym.Has lines i) := by
  refine List.ext_getElem (by simp [markCovered, heldLines]) fun i h h' => ?_
  simp [markCovered, heldLines]

theorem foldl_markCovered : (l.foldl (fun covered s => markCovered lines covered s.1) (heldLines lines held)) =
    heldLines lines fun i => held i || decide (∃ m ∈ l, m.1.Has lines i) := by
  induction l generalizing held with
  | nil => simp
  | cons s l ih =>
    rw [List.foldl_cons, markCovered_heldLines, ih]
    refine congrArg (heldLines lines) (funext fun i => ?_)
    simp only [List.exists_mem_cons_iff, Bool.decide_or, Bool.or_assoc]

theorem markContainer_heldLines : markContainer lines symbols (heldLines lines held) sym = heldLines lines fun i =>
    held i || decide (sym.Has lines i ∨ isLarge lines sym = true ∧ ∃ m ∈ methodsOf symbols sym, m.1.Has lines i) := by
  unfold markContainer
  dsimp only
  split
  · rename_i hlarge
    rw [foldl_markCovered, markCovered_heldLines]
    refine congrArg (heldLines lines) (funext fun i => ?_)
    simp only [hlarge, true_and, Bool.decide_or, Bool.or_assoc]
    rw [Bool.or_comm (decide (∃ m ∈ methodsOf symbols sym, m.1.Has lines i))]
  · rename_i hsmall
    rw [markCovered_heldLines]
    simp [hsmall]

theorem coveredByContainers_eq : coveredByContainers lines symbols = heldLines lines (heldByContainers lines symbols) := by
  have hfold (l : List (CodeSymbol × Nat)) (held : Nat → Bool) :
      l.foldl (fun covered sym => markContainer lines symbols covered sym.1) (heldLines lines held) = heldLines lines fun i =>
        held i || decide (∃ T ∈ l, T.1.Has lines i ∨ isLarge lines T.1 = true ∧ ∃ m ∈ methodsOf symbols T.1, m.1.Has lines i) := by
    induction l generalizing held with
    | nil => simp
    | cons s l ih =>
      rw [List.foldl_cons, markContainer_heldLines, ih]
      refine congrArg (heldLines lines) (funext fun i => ?_)
      simp only [List.exists_mem_cons_iff, Bool.decide_or, Bool.or_assoc]
  have hnone : List.replicate lines.length false = heldLines lines fun _ => false := by
    rw [heldLines, List.map_const', List.length_range]
  rw [coveredByContainers, hnone, hfold]
  refine List.map_congr_left fun i hi => ?_
  have hlt := List.mem_range.mp hi
  rw [heldByContainers, decide_eq_false (Nat.not_le.mpr hlt)]
  rfl

theorem takeUncovered_heldLines (h : ∀ i, lines.length ≤ i → held i = true) :
    takeUncovered lines (heldLines lines held) l =
      (owners lines held l, heldLines lines fun i => held i || decide (∃ s ∈ owners lines held l, s.1.Has lines i)) := by
  induction l generalizing held with
  | nil => simp [takeUncovered, owners]
  | cons s l ih =>
    rw [takeUncovered, getD_heldLines h]
    unfold owners
    split
    · rename_i hheld
      exact ih h
    · rename_i hfree
      rw [markCovered_heldLines, ih fun i hi => by rw [h i hi, Bool.true_or]]
      refine congrArg (Prod.mk _) (congrArg (heldLines lines) (funext fun i => ?_))
      simp only [List.exists_mem_cons_iff, Bool.decide_or, Bool.or_assoc]

theorem heldByContainers_of_le (i : Nat) (h : lines.length ≤ i) : heldByContainers lines symbols i = true := by
  rw [heldByContainers, decide_eq_true h, Bool.true_or]

theorem takenFunctions_eq : takenFunctions lines symbols =
    (ownFunctions lines symbols, heldLines lines (heldByFunctions lines symbols)) := by
  rw [takenFunctions, coveredByContainers_eq, takeUncovered_heldLines heldByContainers_of_le]
  rfl

theorem takenConstants_eq : takenConstants lines symbols =
    (ownConstants lines symbols, heldLines lines (heldBySymbols lines symbols)) := by
  rw [takenConstants, takenFunctions_eq, takeUncovered_heldLines fun i h => ?_]
  · rfl
  · rw [heldByFunctions, heldByContainers_of_le i h, Bool.true_or]

/-! ## Texts -/

theorem gatherFrom_le (i : Nat) (inside : Option String) : gatherFrom lines i inside ≤ i := by
  induction i generalizing inside with
  | zero => exact Nat.le_refl 0
  | succ i ih =>
    unfold gatherFrom
    cases inside with
    | some delim => exact Nat.le_succ_of_le (ih _)
    | none =>
      dsimp only
      split
      · exact Nat.le_refl _
      · split
        · exact Nat.le_succ_of_le (ih _)
        · split
          · exact Nat.le_succ_of_le (ih _)
          · exact Nat.le_refl _

theorem gather_le (i : Nat) : gatherLeadingContext lines i ≤ i := by
  unfold gatherLeadingContext
  split
  · exact Nat.le_refl i
  · exact gatherFrom_le i none

theorem mem_between {x : List Char} : x ∈ between lines a b ↔ ∃ j, (a ≤ j ∧ j < min b lines.length) ∧ lines.getD j [] = x := by
  rw [between, List.mem_iff_getElem?]
  constructor
  · rintro ⟨k, hk⟩
    rw [List.getElem?_drop, List.getElem?_take] at hk
    split at hk
    · rename_i hlt
      obtain ⟨hlength, hx⟩ := List.getElem?_eq_some_iff.mp hk
      exact ⟨a + k, by omega, by rw [List.getD_eq_getElem?_getD, hk, Option.getD_some]⟩
    · cases hk
  · rintro ⟨j, ⟨haj, hjb⟩, rfl⟩
    have hj : j < lines.length := by omega
    refine ⟨j - a, ?_⟩
    rw [List.getElem?_drop, List.getElem?_take, Nat.add_sub_cancel' haj, if_pos (by omega), List.getElem?_eq_getElem hj,
      List.getD_eq_getElem?_getD, List.getElem?_eq_getElem hj, Option.getD_some]

theorem infix_collectLines (hword : '\n' ∉ word) (hab : a < b) (hb : b ≤ lines.length) :
    word <:+: collectLines lines a b ↔ ∃ j, (a ≤ j ∧ j < b) ∧ word <:+: lines.getD j [] := by
  rw [collectLines, Nat.min_eq_left hb, joinLines, infix_intercalate_iff hword (between_ne_nil hab hb)]
  constructor
  · rintro ⟨x, hx, hin⟩
    obtain ⟨j, hj, rfl⟩ := mem_between.mp hx
    exact ⟨j, ⟨hj.1, by omega⟩, hin⟩
  · rintro ⟨j, hj, hin⟩
    exact ⟨lines.getD j [], mem_between.mpr ⟨j, ⟨hj.1, by omega⟩, rfl⟩, hin⟩

/-- The symbol lies in the file. -/
def Placed (lines : List (List Char)) (sym : CodeSymbol) : Prop :=
  1 ≤ sym.start_line ∧ sym.start_line ≤ sym.end_line ∧ sym.start_line ≤ lines.length

instance : Decidable (Placed lines sym) := inferInstanceAs (Decidable (_ ∧ _ ∧ _))

theorem Placed.first_lt (h : Placed lines sym) : sym.first < sym.past lines := by
  obtain ⟨hpos, hend, hlast⟩ := h
  unfold CodeSymbol.first CodeSymbol.past
  omega

theorem past_le : sym.past lines ≤ lines.length := Nat.min_le_right _ _

/-- The text of a symbol's chunk is made of the lines it shows. -/
theorem infix_symbolChunk (h : Placed lines sym) (hword : '\n' ∉ word) :
    word <:+: (buildSymbolChunk file lines sym).chunk_text ↔ ∃ j, Shown lines sym j ∧ word <:+: lines.getD j [] := by
  have hlt : gatherLeadingContext lines sym.first < sym.past lines := Nat.lt_of_le_of_lt (gather_le _) h.first_lt
  have htext : (buildSymbolChunk file lines sym).chunk_text =
      collectLines lines (gatherLeadingContext lines sym.first) (sym.past lines) := if_pos hlt
  rw [htext, infix_collectLines hword hlt past_le]
  rfl

theorem infix_methodListing (hword : '\n' ∉ word) {text : List Char} :
    word <:+: text ++ methodListing symbols sym ↔ word <:+: text ∨ word <:+: methodListing symbols sym := by
  obtain ⟨rest, hrest⟩ : ∃ rest, methodListing symbols sym = '\n' :: rest := ⟨_, rfl⟩
  have hskip : word <:+: '\n' :: rest ↔ word <:+: rest := by
    have hboth := infix_append_cons_iff (u := []) (v := rest) hword
    rw [List.nil_append, List.infix_nil] at hboth
    exact hboth.trans (or_iff_right_of_imp fun hnil => hnil ▸ List.nil_infix)
  rw [hrest, infix_append_cons_iff hword, hskip]

/-- The text of a skeleton: the first lines, and the listing. -/
theorem infix_skeletonChunk (h : Placed lines sym) (hword : '\n' ∉ word) :
    word <:+: (buildSkeletonChunk file lines symbols sym).chunk_text ↔
      (∃ j, (gatherLeadingContext lines sym.first ≤ j ∧ j < min (sym.first + 5) (sym.past lines)) ∧ word <:+: lines.getD j []) ∨
        word <:+: methodListing symbols sym := by
  have hfirst := h.first_lt
  have hgather : gatherLeadingContext lines sym.first ≤ sym.first := gather_le sym.first
  have hpast : sym.past lines ≤ lines.length := past_le
  have hheader : word <:+: collectLines lines sym.first (min (sym.first + 5) (sym.past lines)) ↔
      ∃ j, (sym.first ≤ j ∧ j < min (sym.first + 5) (sym.past lines)) ∧ word <:+: lines.getD j [] :=
    infix_collectLines hword (by omega) (by omega)
  show word <:+: ((if gatherLeadingContext lines sym.first < sym.first then
    collectLines lines (gatherLeadingContext lines sym.first) sym.first ++ ['\n'] else []) ++
      collectLines lines sym.first (min (sym.first + 5) (sym.past lines))) ++ methodListing symbols sym ↔ _
  rw [infix_methodListing hword]
  refine or_congr_left ?_
  split
  · rename_i hlt
    rw [List.append_assoc, List.singleton_append, infix_append_cons_iff hword, hheader, infix_collectLines hword hlt (by omega)]
    constructor
    · rintro (⟨j, hj, hin⟩ | ⟨j, hj, hin⟩)
      · exact ⟨j, by omega, hin⟩
      · exact ⟨j, by omega, hin⟩
    · rintro ⟨j, hj, hin⟩
      rcases Nat.lt_or_ge j sym.first with hlt | hge
      · exact .inl ⟨j, ⟨hj.1, hlt⟩, hin⟩
      · exact .inr ⟨j, ⟨hge, hj.2⟩, hin⟩
  · rename_i hge
    rw [List.nil_append, hheader]
    have heq : gatherLeadingContext lines sym.first = sym.first := by omega
    rw [heq]

theorem infix_blockText {covered : List Bool} {block : Nat × Nat} (hlong : MIN_CHUNK_CHARS ≤ byteLength (blockText lines covered block))
    (hword : '\n' ∉ word) : word <:+: blockText lines covered block ↔ ∃ j ∈ blockLines covered block, word <:+: lines.getD j [] := by
  have hne : (blockLines covered block).map (lines.getD · []) ≠ [] := by
    intro hnil
    rw [blockText, hnil] at hlong
    exact absurd hlong (by decide)
  rw [blockText, joinLines, infix_intercalate_iff hword hne]
  simp

end Claudear.Chunking
