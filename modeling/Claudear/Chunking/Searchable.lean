import Claudear.Chunking.Coverage
import Mathlib.Data.List.Nodup
import Mathlib.Data.List.Range

/-!
# Which functions are searchable

A line is found when its text is part of the text of a chunk. That is so for the lines that
chunks show, and for what repeats one of them or a listed signature.
-/

namespace Claudear.Chunking

open Claudear.Text

/-- What a search can find of the functions and methods. -/
structure Searchable (file : FileContext) (lines : List (List Char)) (symbols : List CodeSymbol) : Prop where
  found : ∀ s ∈ symbols, s.callable = true → ∀ i, s.Has lines i →
    ∃ c ∈ wholeChunks file lines symbols, lines.getD i [] <:+: c.chunk_text
  once : ∀ k, (((symbolChunks file lines symbols).filter fun c => c.1 = k).map
    fun c => (c.2.start_line, c.2.end_line, c.2.chunk_text)).Nodup

/-- Only one large container has the name of a parent. -/
def OneContainer (lines : List (List Char)) (symbols : List CodeSymbol) : Prop :=
  ∀ m ∈ symbols, m.callable = true → ∀ T ∈ topLevelContainers symbols, ∀ T' ∈ topLevelContainers symbols,
    isLarge lines T.1 = true → isLarge lines T'.1 = true → m.parent_symbol = some T.1.symbol_name →
      m.parent_symbol = some T'.1.symbol_name → T = T'

structure InChunks (lines : List (List Char)) (symbols : List CodeSymbol) : Prop where
  /-- A line that no chunk shows repeats one that a chunk shows, or a listed signature. -/
  shown : ∀ s ∈ symbols, s.callable = true → ∀ i, s.Has lines i →
    (∃ j, InChunk lines symbols j ∧ lines.getD i [] <:+: lines.getD j []) ∨
      ∃ T ∈ topLevelContainers symbols, isLarge lines T.1 = true ∧ lines.getD i [] <:+: methodListing symbols T.1
  single : OneContainer lines symbols

variable {file : FileContext} {lines : List (List Char)} {symbols : List CodeSymbol} {held : Nat → Bool} {sym : CodeSymbol}
  {l : List (CodeSymbol × Nat)} {s T m : CodeSymbol × Nat} {word : List Char} {i j k : Nat} {c : CodeChunk} {p : CodeSymbol × Nat → Bool}

theorem newline_not_mem_lines {source line : List Char} (h : line ∈ Text.lines source) : '\n' ∉ line := by
  rcases List.mem_append.mp h with h | h
  · obtain ⟨piece, hpiece, rfl⟩ := List.mem_map.mp h
    have hnone := not_mem_of_mem_splitOn (List.mem_of_mem_dropLast hpiece)
    rw [stripReturn]
    split
    · exact fun hmem => hnone (List.mem_of_mem_dropLast hmem)
    · exact hnone
  · obtain ⟨hlast, -⟩ := Option.filter_eq_some_iff.mp (Option.mem_toList.mp h)
    exact not_mem_of_mem_splitOn (List.mem_of_getLast? hlast)

theorem mem_symbols_of_filter (h : s ∈ symbols.zipIdx.filter p) : s.1 ∈ symbols :=
  List.fst_mem_of_mem_zipIdx (List.mem_of_mem_filter h)

theorem owners_sublist : (owners lines held l).Sublist l := by
  induction l generalizing held with
  | nil => exact .slnil
  | cons s l ih =>
    unfold owners
    split
    · exact ih.cons s
    · exact ih.cons_cons s

/-! ## Found lines -/

theorem exists_containerChunk (hT : Placed lines T.1) (hmethods : ∀ m ∈ methodsOf symbols T.1, Placed lines m.1) (hword : '\n' ∉ word) :
    (∃ c ∈ containerChunks file lines symbols T, word <:+: c.2.chunk_text) ↔
      (isLarge lines T.1 = false ∧ ∃ j, Shown lines T.1 j ∧ word <:+: lines.getD j []) ∨
      isLarge lines T.1 = true ∧ (((∃ j, (gatherLeadingContext lines T.1.first ≤ j ∧ j < min (T.1.first + 5) (T.1.past lines)) ∧
          word <:+: lines.getD j []) ∨ word <:+: methodListing symbols T.1) ∨
        ∃ m ∈ methodsOf symbols T.1, ∃ j, Shown lines m.1 j ∧ word <:+: lines.getD j []) := by
  rw [containerChunks]
  cases hlarge : isLarge lines T.1 with
  | false =>
    rw [if_neg (by simp), List.exists_mem_cons_iff]
    simp [infix_symbolChunk hT hword]
  | true =>
    rw [if_pos rfl, List.exists_mem_cons_iff, infix_skeletonChunk hT hword]
    have hlisted : (∃ c ∈ (methodsOf symbols T.1).map fun m => (m.2, buildSymbolChunk file lines m.1), word <:+: c.2.chunk_text) ↔
        ∃ m ∈ methodsOf symbols T.1, ∃ j, Shown lines m.1 j ∧ word <:+: lines.getD j [] := by
      constructor
      · rintro ⟨c, hc, hin⟩
        obtain ⟨m, hm, rfl⟩ := List.mem_map.mp hc
        exact ⟨m, hm, (infix_symbolChunk (hmethods m hm) hword).mp hin⟩
      · rintro ⟨m, hm, hin⟩
        exact ⟨_, List.mem_map_of_mem hm, (infix_symbolChunk (hmethods m hm) hword).mpr hin⟩
    rw [hlisted]
    simp

/-- The chunks are those of containers, of the symbols outside of them, and of the blocks left. -/
theorem exists_wholeChunk {P : List Char → Prop} : (∃ c ∈ wholeChunks file lines symbols, P c.chunk_text) ↔
    (∃ T ∈ topLevelContainers symbols, ∃ c ∈ containerChunks file lines symbols T, P c.2.chunk_text) ∨
      (∃ s, (s ∈ ownFunctions lines symbols ∨ s ∈ ownConstants lines symbols) ∧ P (buildSymbolChunk file lines s.1).chunk_text) ∨
        ∃ block ∈ blocksFrom lines 0 none 0 (heldLines lines (heldBySymbols lines symbols)),
          MIN_CHUNK_CHARS ≤ byteLength (blockText lines (heldLines lines (heldBySymbols lines symbols)) block) ∧
            P (blockText lines (heldLines lines (heldBySymbols lines symbols)) block) := by
  rw [wholeChunks, symbolChunks, takenConstants_eq, takenFunctions_eq]
  constructor
  · rintro ⟨c, hc, hP⟩
    rcases List.mem_append.mp hc with hc | hc
    · obtain ⟨tagged, htagged, rfl⟩ := List.mem_map.mp hc
      rcases List.mem_append.mp htagged with htagged | htagged
      · rcases List.mem_append.mp htagged with htagged | htagged
        · obtain ⟨T, hT, hc⟩ := List.mem_flatMap.mp htagged
          exact .inl ⟨T, hT, tagged, hc, hP⟩
        · obtain ⟨s, hs, rfl⟩ := List.mem_map.mp htagged
          exact .inr (.inl ⟨s, .inl hs, hP⟩)
      · obtain ⟨s, hs, rfl⟩ := List.mem_map.mp htagged
        exact .inr (.inl ⟨s, .inr hs, hP⟩)
    · obtain ⟨block, hblock, rfl⟩ := List.mem_map.mp hc
      obtain ⟨hblock, hlong⟩ := List.mem_filter.mp hblock
      exact .inr (.inr ⟨block, hblock, of_decide_eq_true hlong, hP⟩)
  · have htagged {tagged : Nat × CodeChunk} {before after : List (Nat × CodeChunk)} {blocks : List CodeChunk}
        (h : tagged ∈ before ++ after) (hP : P tagged.2.chunk_text) :
        ∃ c ∈ (before ++ after).map Prod.snd ++ blocks, P c.chunk_text :=
      ⟨tagged.2, List.mem_append_left _ (List.mem_map_of_mem h), hP⟩
    rintro (⟨T, hT, c, hc, hP⟩ | ⟨s, hs | hs, hP⟩ | ⟨block, hblock, hlong, hP⟩)
    · exact htagged (List.mem_append_left _ (List.mem_append_left _ (List.mem_flatMap.mpr ⟨T, hT, hc⟩))) hP
    · exact htagged (List.mem_append_left _ (List.mem_append_right _ (List.mem_map_of_mem hs))) hP
    · exact htagged (List.mem_append_right _ (List.mem_map_of_mem hs)) hP
    · exact ⟨_, List.mem_append_right _ (List.mem_map_of_mem (List.mem_filter.mpr ⟨hblock, decide_eq_true hlong⟩)), hP⟩

theorem exists_chunk_iff (hplaced : ∀ s ∈ symbols, Placed lines s) (hword : '\n' ∉ word) :
    (∃ c ∈ wholeChunks file lines symbols, word <:+: c.chunk_text) ↔
      (∃ j, InChunk lines symbols j ∧ word <:+: lines.getD j []) ∨
        ∃ T ∈ topLevelContainers symbols, isLarge lines T.1 = true ∧ word <:+: methodListing symbols T.1 := by
  have hcontainer {T : CodeSymbol × Nat} (hT : T ∈ topLevelContainers symbols) :=
    @exists_containerChunk file lines symbols T word (hplaced T.1 (mem_symbols_of_filter hT))
      (fun m hm => hplaced m.1 (mem_symbols_of_filter hm)) hword
  have hown {s : CodeSymbol × Nat} (hs : s ∈ ownFunctions lines symbols ∨ s ∈ ownConstants lines symbols) :
      word <:+: (buildSymbolChunk file lines s.1).chunk_text ↔ ∃ j, Shown lines s.1 j ∧ word <:+: lines.getD j [] := by
    refine infix_symbolChunk (hplaced s.1 ?_) hword
    exact hs.elim (fun h => mem_symbols_of_filter (owners_sublist.subset h)) fun h => mem_symbols_of_filter (owners_sublist.subset h)
  rw [exists_wholeChunk]
  constructor
  · rintro (⟨T, hT, hc⟩ | ⟨s, hs, hin⟩ | ⟨block, hblock, hlong, hin⟩)
    · rcases (hcontainer hT).mp hc with ⟨hsmall, j, hj, hin⟩ | ⟨hlarge, (⟨j, hj, hin⟩ | hin) | ⟨m, hm, j, hj, hin⟩⟩
      · exact .inl ⟨j, .small hT hsmall hj, hin⟩
      · exact .inl ⟨j, .header hT hlarge hj, hin⟩
      · exact .inr ⟨T, hT, hlarge, hin⟩
      · exact .inl ⟨j, .method hT hlarge hm hj, hin⟩
    · obtain ⟨j, hj, hin⟩ := (hown hs).mp hin
      exact .inl ⟨j, .own hs hj, hin⟩
    · obtain ⟨j, hj, hin⟩ := (infix_blockText hlong hword).mp hin
      exact .inl ⟨j, .block hblock hlong hj, hin⟩
  · rintro (⟨j, hj, hin⟩ | ⟨T, hT, hlarge, hin⟩)
    · cases hj with
      | small hT hsmall hj => exact .inl ⟨_, hT, (hcontainer hT).mpr (.inl ⟨hsmall, j, hj, hin⟩)⟩
      | header hT hlarge hj => exact .inl ⟨_, hT, (hcontainer hT).mpr (.inr ⟨hlarge, .inl (.inl ⟨j, hj, hin⟩)⟩)⟩
      | method hT hlarge hm hj => exact .inl ⟨_, hT, (hcontainer hT).mpr (.inr ⟨hlarge, .inr ⟨_, hm, j, hj, hin⟩⟩)⟩
      | own hs hj => exact .inr (.inl ⟨_, hs, (hown hs).mpr ⟨j, hj, hin⟩⟩)
      | block hblock hlong hj =>
        exact .inr (.inr ⟨_, hblock, hlong, (infix_blockText hlong hword).mpr ⟨j, hj, hin⟩⟩)
    · exact .inl ⟨T, hT, (hcontainer hT).mpr (.inr ⟨hlarge, .inl (.inr hin)⟩)⟩

/-! ## One chunk a symbol -/

theorem eq_of_tag (hs : s ∈ symbols.zipIdx) (hm : m ∈ symbols.zipIdx) (h : s.2 = m.2) : s = m := by
  have hs := List.mem_zipIdx_iff_getElem?.mp hs
  have hm := List.mem_zipIdx_iff_getElem?.mp hm
  rw [h, hm] at hs
  exact Prod.ext (Option.some.inj hs).symm h

theorem nodup_tags (h : l.Sublist symbols.zipIdx) : (l.map Prod.snd).Nodup := by
  have hall : (symbols.zipIdx.map Prod.snd).Nodup := by
    rw [List.zipIdx_map_snd]
    exact List.nodup_range'
  exact hall.sublist (h.map Prod.snd)

theorem not_callable_of_container (h : isTopLevelContainer sym = true) : sym.callable = false := by
  have hkind := of_decide_eq_true (Bool.and_eq_true_iff.mp h).2
  unfold CodeSymbol.callable
  rw [decide_eq_false_iff_not]
  rintro (hm | hf)
  · rw [hm] at hkind
    exact absurd hkind (by decide)
  · rw [hf] at hkind
    exact absurd hkind (by decide)

theorem mem_methodsOf : m ∈ methodsOf symbols sym ↔
    m ∈ symbols.zipIdx ∧ m.1.parent_symbol = some sym.symbol_name ∧ m.1.callable = true := by
  rw [methodsOf, List.mem_filter, Bool.and_eq_true, decide_eq_true_eq]

theorem mem_topLevelContainers : T ∈ topLevelContainers symbols ↔ T ∈ symbols.zipIdx ∧ isTopLevelContainer T.1 = true := List.mem_filter

/-- What tells the symbols apart whose chunks come from different loops. -/
theorem ownFunctions_spec (h : s ∈ ownFunctions lines symbols) :
    s ∈ symbols.zipIdx ∧ s.1.parent_symbol = none ∧ s.1.callable = true := by
  obtain ⟨hs, hkind⟩ := List.mem_filter.mp (owners_sublist.subset h)
  rw [Bool.and_eq_true, decide_eq_true_eq, decide_eq_true_eq] at hkind
  exact ⟨hs, hkind.1, decide_eq_true (.inr hkind.2)⟩

theorem ownConstants_spec (h : s ∈ ownConstants lines symbols) :
    s ∈ symbols.zipIdx ∧ isTopLevelContainer s.1 = false ∧ s.1.callable = false := by
  obtain ⟨hs, hkind⟩ := List.mem_filter.mp (owners_sublist.subset h)
  rw [Bool.and_eq_true, Bool.and_eq_true, decide_eq_true_eq, decide_eq_true_eq, Bool.not_eq_true'] at hkind
  refine ⟨hs, hkind.2, decide_eq_false ?_⟩
  rintro (hm | hf)
  · exact absurd (hm ▸ hkind.1.2) (by decide)
  · exact absurd (hf ▸ hkind.1.2) (by decide)

/-- The symbols a container makes chunks for. -/
def containerTags (lines : List (List Char)) (symbols : List CodeSymbol) (T : CodeSymbol × Nat) : List Nat :=
  T.2 :: if isLarge lines T.1 then (methodsOf symbols T.1).map Prod.snd else []

theorem map_fst_containerChunks : (containerChunks file lines symbols T).map Prod.fst = containerTags lines symbols T := by
  rw [containerChunks, containerTags]
  split
  · rw [List.map_cons, List.map_map]
    rfl
  · rfl

theorem mem_containerTags : k ∈ containerTags lines symbols T ↔
    k = T.2 ∨ isLarge lines T.1 = true ∧ ∃ m ∈ methodsOf symbols T.1, m.2 = k := by
  rw [containerTags, List.mem_cons]
  refine or_congr_right ?_
  split
  · rename_i hlarge
    rw [List.mem_map, hlarge, eq_self, true_and]
  · rename_i hsmall
    simp [hsmall]

theorem nodup_containerTags (hT : T ∈ topLevelContainers symbols) : (containerTags lines symbols T).Nodup := by
  obtain ⟨hT, htop⟩ := mem_topLevelContainers.mp hT
  rw [containerTags]
  split
  · refine List.nodup_cons.mpr ⟨fun hmem => ?_, nodup_tags List.filter_sublist⟩
    obtain ⟨m, hm, hk⟩ := List.mem_map.mp hmem
    obtain ⟨hm, -, hcallable⟩ := mem_methodsOf.mp hm
    rw [eq_of_tag hm hT hk, not_callable_of_container htop] at hcallable
    cases hcallable
  · exact List.nodup_singleton T.2

theorem disjoint_containerTags (hone : OneContainer lines symbols) {T' : CodeSymbol × Nat} (hT : T ∈ topLevelContainers symbols)
    (hT' : T' ∈ topLevelContainers symbols) (hne : T.2 ≠ T'.2) :
    List.Disjoint (containerTags lines symbols T) (containerTags lines symbols T') := by
  obtain ⟨hmem, htop⟩ := mem_topLevelContainers.mp hT
  obtain ⟨hmem', htop'⟩ := mem_topLevelContainers.mp hT'
  intro k hk hk'
  rcases mem_containerTags.mp hk with rfl | ⟨hlarge, m, hm, rfl⟩
  · rcases mem_containerTags.mp hk' with hk' | ⟨-, m, hm, hmk⟩
    · exact hne hk'
    · obtain ⟨hm, -, hcallable⟩ := mem_methodsOf.mp hm
      rw [eq_of_tag hm hmem hmk, not_callable_of_container htop] at hcallable
      cases hcallable
  · obtain ⟨hm, hparent, hcallable⟩ := mem_methodsOf.mp hm
    rcases mem_containerTags.mp hk' with hk' | ⟨hlarge', m', hm', hmk⟩
    · rw [eq_of_tag hm hmem' hk', not_callable_of_container htop'] at hcallable
      cases hcallable
    · obtain ⟨hm', hparent', -⟩ := mem_methodsOf.mp hm'
      rw [eq_of_tag hm' hm hmk] at hparent'
      exact hne (congrArg Prod.snd (hone m.1 (List.fst_mem_of_mem_zipIdx hm) hcallable T hT T' hT' hlarge hlarge' hparent hparent'))

/-- With one container for each parent, no symbol has two chunks. -/
theorem nodup_symbolTags (hone : OneContainer lines symbols) : ((symbolChunks file lines symbols).map Prod.fst).Nodup := by
  have hcontainers : ((topLevelContainers symbols).flatMap (containerTags lines symbols)).Nodup := by
    refine List.nodup_flatMap.mpr ⟨fun T hT => nodup_containerTags hT, ?_⟩
    have hdistinct := List.pairwise_map.mp (List.nodup_iff_pairwise_ne.mp (nodup_tags (l := topLevelContainers symbols) List.filter_sublist))
    exact hdistinct.imp_of_mem fun hT hT' hne => disjoint_containerTags hone hT hT' hne
  have htags : (symbolChunks file lines symbols).map Prod.fst =
      (topLevelContainers symbols).flatMap (containerTags lines symbols) ++ (ownFunctions lines symbols).map Prod.snd ++
        (ownConstants lines symbols).map Prod.snd := by
    rw [symbolChunks, takenConstants_eq, takenFunctions_eq, List.map_append, List.map_append, List.map_flatMap, List.map_map, List.map_map]
    simp only [map_fst_containerChunks]
    rfl
  rw [htags]
  refine List.nodup_append'.mpr ⟨List.nodup_append'.mpr ⟨hcontainers, ?_, ?_⟩, ?_, ?_⟩
  · exact nodup_tags (owners_sublist.trans List.filter_sublist)
  · intro k hk hk'
    obtain ⟨f, hf, rfl⟩ := List.mem_map.mp hk'
    obtain ⟨hf, hnone, hcallable⟩ := ownFunctions_spec hf
    obtain ⟨T, hT, hk⟩ := List.mem_flatMap.mp hk
    obtain ⟨hT, htop⟩ := mem_topLevelContainers.mp hT
    rcases mem_containerTags.mp hk with hk | ⟨-, m, hm, hk⟩
    · rw [eq_of_tag hf hT hk, not_callable_of_container htop] at hcallable
      cases hcallable
    · obtain ⟨hm, hparent, -⟩ := mem_methodsOf.mp hm
      rw [eq_of_tag hm hf hk, hnone] at hparent
      cases hparent
  · exact nodup_tags (owners_sublist.trans List.filter_sublist)
  · intro k hk hk'
    obtain ⟨c, hc, rfl⟩ := List.mem_map.mp hk'
    obtain ⟨hc, htop, hcallable⟩ := ownConstants_spec hc
    rcases List.mem_append.mp hk with hk | hk
    · obtain ⟨T, hT, hk⟩ := List.mem_flatMap.mp hk
      obtain ⟨hT, htop'⟩ := mem_topLevelContainers.mp hT
      rcases mem_containerTags.mp hk with hk | ⟨-, m, hm, hk⟩
      · rw [eq_of_tag hc hT hk, htop'] at htop
        cases htop
      · obtain ⟨hm, -, hcallable'⟩ := mem_methodsOf.mp hm
        rw [eq_of_tag hm hc hk, hcallable] at hcallable'
        cases hcallable'
    · obtain ⟨f, hf, hk⟩ := List.mem_map.mp hk
      obtain ⟨hf, -, hcallable'⟩ := ownFunctions_spec hf
      rw [eq_of_tag hf hc hk, hcallable] at hcallable'
      cases hcallable'

theorem nodup_of_tags {β : Type} {chunks : List (Nat × CodeChunk)} (h : (chunks.map Prod.fst).Nodup) (f : Nat × CodeChunk → β) (k : Nat) :
    ((chunks.filter fun c => c.1 = k).map f).Nodup := by
  have hk : ∀ j ∈ (chunks.filter fun c => c.1 = k).map Prod.fst, j = k := by
    intro j hj
    obtain ⟨c, hc, rfl⟩ := List.mem_map.mp hj
    exact of_decide_eq_true (List.mem_filter.mp hc).2
  have hnodup := h.sublist (List.filter_sublist (p := fun c : Nat × CodeChunk => decide (c.1 = k)) |>.map Prod.fst)
  rw [List.eq_replicate_of_mem hk, List.nodup_replicate, List.length_map] at hnodup
  clear hk h
  generalize (chunks.filter fun c => c.1 = k) = kept at hnodup ⊢
  rcases kept with _ | ⟨c, _ | ⟨c', rest⟩⟩
  · exact List.nodup_nil
  · exact List.nodup_singleton (f c)
  · rw [List.length_cons, List.length_cons] at hnodup
    omega

theorem once_iff : (∀ k, (((symbolChunks file lines symbols).filter fun c => c.1 = k).map
    fun c => (c.2.start_line, c.2.end_line, c.2.chunk_text)).Nodup) ↔ OneContainer lines symbols := by
  refine ⟨fun h m hm hcallable T hT T' hT' hlarge hlarge' hparent hparent' => ?_, fun hone k => nodup_of_tags (nodup_symbolTags hone) _ k⟩
  by_contra hne
  obtain ⟨k, hk⟩ := List.getElem?_of_mem hm
  have htagged : (m, k) ∈ symbols.zipIdx := List.mk_mem_zipIdx_iff_getElem?.mpr hk
  have hchunk {T : CodeSymbol × Nat} (hlarge : isLarge lines T.1 = true) (hparent : m.parent_symbol = some T.1.symbol_name) :
      ((buildSymbolChunk file lines m).start_line, (buildSymbolChunk file lines m).end_line, (buildSymbolChunk file lines m).chunk_text) ∈
        ((containerChunks file lines symbols T).filter fun c => c.1 = k).map fun c => (c.2.start_line, c.2.end_line, c.2.chunk_text) := by
    refine List.mem_map.mpr ⟨(k, buildSymbolChunk file lines m), List.mem_filter.mpr ⟨?_, decide_eq_true rfl⟩, rfl⟩
    rw [containerChunks, if_pos hlarge]
    exact List.mem_cons_of_mem _ (List.mem_map.mpr ⟨(m, k), mem_methodsOf.mpr ⟨htagged, hparent, hcallable⟩, rfl⟩)
  have hnodup := h k
  rw [symbolChunks, List.append_assoc, List.filter_append, List.map_append, List.filter_flatMap, List.map_flatMap] at hnodup
  have hpairwise := (List.nodup_flatMap.mp (List.nodup_append'.mp hnodup).1).2
  have : Std.Symm (Function.onFun List.Disjoint fun T => ((containerChunks file lines symbols T).filter fun c => c.1 = k).map
      fun c => (c.2.start_line, c.2.end_line, c.2.chunk_text)) := ⟨fun _ _ hd _ hx hx' => hd hx' hx⟩
  exact hpairwise.forall hT hT' hne (hchunk hlarge hparent) (hchunk hlarge' hparent')

/-- The functions and methods of a file are searchable, each with one chunk, exactly when their
lines are in chunks and no two large containers share the name of a parent. -/
theorem searchable_exact (file : FileContext) (source : List Char) (symbols : List CodeSymbol)
    (hplaced : ∀ s ∈ symbols, Placed (Text.lines source) s) :
    Searchable file (Text.lines source) symbols ↔ InChunks (Text.lines source) symbols := by
  have hfound (s : CodeSymbol) (i : Nat) (h : s.Has (Text.lines source) i) :
      (∃ c ∈ wholeChunks file (Text.lines source) symbols, (Text.lines source).getD i [] <:+: c.chunk_text) ↔
        (∃ j, InChunk (Text.lines source) symbols j ∧ (Text.lines source).getD i [] <:+: (Text.lines source).getD j []) ∨
          ∃ T ∈ topLevelContainers symbols, isLarge (Text.lines source) T.1 = true ∧
            (Text.lines source).getD i [] <:+: methodListing symbols T.1 := by
    have hi : i < (Text.lines source).length := Nat.lt_of_lt_of_le h.2 past_le
    refine exists_chunk_iff hplaced (@newline_not_mem_lines source _ ?_)
    rw [List.getD_eq_getElem?_getD, List.getElem?_eq_getElem hi]
    exact List.getElem_mem hi
  constructor
  · intro h
    exact ⟨fun s hs hcallable i hi => (hfound s i hi).mp (h.found s hs hcallable i hi), once_iff.mp h.once⟩
  · intro h
    exact ⟨fun s hs hcallable i hi => (hfound s i hi).mpr (h.shown s hs hcallable i hi), once_iff.mpr h.single⟩

def someFile : FileContext := ⟨.Java, 1, "src/A.java", "0", none⟩

/-- A class over the limit, with a class in it that has a method. -/
def nestedLines : List (List Char) :=
  "class A \x7b".toList :: (List.replicate 9 [] ++ "  class B \x7b".toList :: "    void m() \x7b\x7d".toList :: "  \x7d".toList ::
    (List.replicate 90 [] ++ [['}']]))

def nestedRoot : SyntaxNode :=
  .node (some ⟨.Class, "A", some "class A", true⟩) 0 103
    [.node none 0 103 [.node (some ⟨.Class, "B", some "class B", true⟩) 10 12
      [.node none 10 12 [.node (some ⟨.Method, "m", some "void m()", false⟩) 11 11 []]]]]

theorem lines_nestedLines : Text.lines (unlines nestedLines) = nestedLines := by
  refine lines_unlines fun l hl => ?_
  have hall : ∀ l ∈ nestedLines, '\n' ∉ l ∧ l.getLast? ≠ some '\r' := by decide +kernel
  exact hall l hl

theorem nestedMethod_lost : ¬ Searchable someFile (Text.lines (unlines nestedLines)) (extractSymbols none nestedRoot) := by
  rw [lines_nestedLines]
  intro h
  obtain ⟨c, hc, hin⟩ := h.found ⟨"m", .Method, some "B", 12, 12, some "void m()"⟩ (by decide) (by decide) 11 (by decide)
  have hall : ∀ c ∈ wholeChunks someFile nestedLines (extractSymbols none nestedRoot), ¬ nestedLines.getD 11 [] <:+: c.chunk_text := by
    decide +kernel
  exact hall c hc hin

/-- A class over the limit with a method, and a short one with another. -/
def twoClassLines : List (List Char) :=
  "class A \x7b".toList :: (List.replicate 9 [] ++ "  void m() \x7b\x7d".toList ::
    (List.replicate 92 [] ++ [['}'], "class B \x7b".toList, "  void n() \x7b\x7d".toList, ['}']]))

def twoClasses : List CodeSymbol :=
  extractSymbols none (.node none 0 106
    [.node (some ⟨.Class, "A", some "class A", true⟩) 0 103 [.node (some ⟨.Method, "m", some "void m()", false⟩) 10 10 []],
      .node (some ⟨.Class, "B", some "class B", true⟩) 104 106 [.node (some ⟨.Method, "n", some "void n()", false⟩) 105 105 []]])

theorem twoClasses_searchable : Searchable someFile (Text.lines (unlines twoClassLines)) twoClasses := by
  have hlines : Text.lines (unlines twoClassLines) = twoClassLines := by
    refine lines_unlines fun l hl => ?_
    have hall : ∀ l ∈ twoClassLines, '\n' ∉ l ∧ l.getLast? ≠ some '\r' := by decide +kernel
    exact hall l hl
  refine (searchable_exact someFile (unlines twoClassLines) twoClasses ?_).mpr ?_
  · rw [hlines]
    decide +kernel
  · rw [hlines]
    have hin : ∀ s ∈ twoClasses, s.callable = true → ∃ T ∈ topLevelContainers twoClasses,
        (isLarge twoClassLines T.1 = true ∧ ∃ m ∈ methodsOf twoClasses T.1, m.1 = s) ∨
          isLarge twoClassLines T.1 = false ∧ T.1.first ≤ s.first ∧ s.past twoClassLines ≤ T.1.past twoClassLines := by
      decide +kernel
    refine ⟨fun s hs hcallable i hi => .inl ⟨i, ?_, List.infix_refl _⟩, by unfold OneContainer; decide +kernel⟩
    obtain ⟨T, hT, ⟨hlarge, m, hm, rfl⟩ | ⟨hsmall, hfirst, hpast⟩⟩ := hin s hs hcallable
    · exact .method hT hlarge hm ⟨Nat.le_trans (gather_le _) hi.1, hi.2⟩
    · exact .small hT hsmall ⟨Nat.le_trans (gather_le _) (Nat.le_trans hfirst hi.1), Nat.lt_of_lt_of_le hi.2 hpast⟩

end Claudear.Chunking
