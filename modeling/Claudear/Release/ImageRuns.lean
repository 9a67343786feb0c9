import Claudear.Release.ImageEntries

/-!
# Scans of whole files

The induction over a document: one lemma for each way a part can be written, put together
by recursion over the tree. A scan that succeeds on a document that can be read a line at
a time returns its image entries.
-/

namespace Claudear.Release

open Claudear.Text Claudear.Text.BlockYaml

variable {s t u : ImageScanner} {debug : List Char → String} {loaded : BlockScalar → List Char} {n m least : Nat}
  {S : List ScopeEntry} {refs : List ImageReference}

/-! ## Entries and items -/

/-- A line that starts with `first` is read as an entry at column `n` in the scopes `S`. -/
def Starts (debug : List Char → String) (first : List Char) (n : Nat) (S : List ScopeEntry) (P : Prop) (s : ImageScanner) : Prop :=
  ∀ (k : Key) (r : List Char) (u : ImageScanner), quotesClose k.scalar = true → r.head?.all isWhitespace = true →
    s.next.line debug (first ++ k.chars ++ ':' :: r) = .ok u →
    P ∧ ∃ s', Reading n s' ∧ s'.scopes = S ∧ s'.references = s.references ∧ s'.Reads debug n k (valueAt r) u

theorem starts_at (hat : At (·.above n) n S s) (hs : Sound S s.references) : Starts debug (spaces n) n S True s := by
  intro k r u hk hr hline
  have hreads := of_line_key (s := s.next) hat.flow hat.block hk hr hline
  have hscopes : (s.next.at n).scopes = S := hat.scopes
  refine ⟨trivial, s.next.at n, ⟨hscopes ▸ hs, hat.flow, rfl, fun e he => ?_⟩, hscopes, rfl, hreads⟩
  exact (List.mem_filter.mp he).2

theorem directImage_of_noImage (hat : At (·.holdsItem n) n S s) (h : s.next.NoImage n) : directImage S = none := by
  have hS : (s.next.scopes.filter (·.holdsItem n)) = S := hat.scopes
  rw [ImageScanner.NoImage, hS] at h
  rw [directImage]
  cases hlast : S.getLast? with
  | none => rfl
  | some e =>
    rw [hlast] at h
    exact Option.not_isSome_iff_eq_none.mp (Bool.eq_false_iff.mp h)

def itemScope (n : Nat) (S : List ScopeEntry) : ScopeEntry := ⟨n, LIST_ITEM_SEGMENT, none, withinImage S⟩

theorem item_scopes (hat : At (·.holdsItem n) n S s) : (s.next.item n).scopes = S ++ [itemScope n S] := by
  have hS : (s.next.scopes.filter (·.holdsItem n)) = S := hat.scopes
  rw [ImageScanner.item, ImageScanner.open', hS]
  rfl

theorem above_of_mem_item (hat : At (·.holdsItem n) n S s) (hnm : n < m) :
    ∀ e ∈ S ++ [itemScope n S], e.above m = true := by
  intro e he
  rcases List.mem_append.mp he with he | he
  · rw [← hat.scopes] at he
    exact above_of_holdsItem hnm (List.mem_filter.mp he).2
  · rw [List.mem_singleton.mp he]
    exact decide_eq_true hnm

theorem filter_item (hat : At (·.holdsItem n) n S s) : (S ++ [itemScope n S]).filter (·.holdsItem n) = S := by
  have hS : S.filter (·.holdsItem n) = S := by
    rw [← hat.scopes]
    exact List.filter_eq_self.mpr fun e he => (List.mem_filter.mp he).2
  have hitem : ¬ (itemScope n S).holdsItem n = true := by
    rw [ScopeEntry.holdsItem, decide_eq_true_eq, not_or]
    exact ⟨Nat.lt_irrefl n, fun h => h.2 rfl⟩
  rw [List.filter_append, hS, List.filter_cons_of_neg hitem, List.filter_nil, List.append_nil]

theorem sound_item {refs : List ImageReference} : Sound (S ++ [itemScope n S]) refs where
  within := fun h => absurd directImage_append h
  bound := by
    rw [directImage_append]
    exact nofun

theorem starts_dash {gap : Nat} (hat : At (·.holdsItem n) n S s) :
    Starts debug (spaces n ++ '-' :: spaces (gap + 1)) (n + 1 + (gap + 1)) (S ++ [itemScope n S]) (directImage S = none) s := by
  intro k r u hk hr hline
  rw [List.append_assoc, List.append_assoc, List.cons_append, ← List.append_assoc] at hline
  obtain ⟨hnone, hkeyed⟩ := of_line_dash_key (s := s.next) hat.flow hat.block hk hr hline
  have hscopes := item_scopes hat
  refine ⟨directImage_of_noImage hat hnone, s.next.item n, ⟨hscopes ▸ sound_item, hat.flow, rfl, ?_⟩, hscopes, rfl, hkeyed⟩
  rw [hscopes]
  exact above_of_mem_item hat (by omega)

theorem entriesReferences_cons {k : Key} {v : Node} {es : Entries} (hs : Sound S refs) :
    entriesReferences loaded S (entriesReferences loaded S refs (.last k v)) es = entriesReferences loaded S refs (.cons k v es) := by
  have hassigned : assigned loaded (.cons k v es) = assigned loaded es ∘ assigned loaded (.last k v) := by
    funext r
    rw [assigned, lookup, lookup, Option.or_assoc, Option.or_assoc]
    rfl
  rw [entriesReferences, entriesReferences, entriesReferences, entriesImages, entriesImages]
  cases hdirect : directImage S with
  | none => simp only [List.append_assoc]
  | some index =>
    dsimp only
    rw [modify_append ((List.length_modify _ _ _).symm ▸ hs.bound index hdirect), List.modify_modify_eq, ← hassigned]
    simp only [List.append_assoc]

theorem sound_references {es : Entries} (hs : Sound S refs) : Sound S (entriesReferences loaded S refs es) where
  within := hs.within
  bound := fun index hindex => by
    rw [entriesReferences, hindex, List.length_append, List.length_modify]
    exact Nat.lt_add_right _ (hs.bound index hindex)

def EntriesRun (debug : List Char → String) (loaded : BlockScalar → List Char) (es : Entries) : Prop :=
  ∀ first n S P s t, Starts debug first n S P s → entriesLegible es = true →
    (directImage S ≠ none → trackedLegible es = true) → Sound S s.references →
    s.scanLines debug (es.lines first n) = .ok t →
    P ∧ At (·.above n) n S t ∧ t.references = entriesReferences loaded S s.references es

theorem first_entry {k : Key} {v : Node} {first : List Char} {P : Prop} (hv : NodeRun debug loaded v)
    (hstart : Starts debug first n S P s) (hlegible : entriesLegible (.last k v) = true)
    (htracked : directImage S ≠ none → trackedLegible (.last k v) = true)
    (h : s.scanLines debug ((first ++ k.chars ++ ':' :: v.rest) :: v.under n n) = .ok t) :
    P ∧ At (·.above n) n S t ∧ t.references = entriesReferences loaded S s.references (.last k v) := by
  obtain ⟨u, hline, hrest⟩ := scanLines_cons h
  simp only [entriesLegible, Bool.and_eq_true, Bool.or_eq_true, decide_eq_true_eq] at hlegible
  obtain ⟨⟨⟨hkey, hvalue⟩, himage⟩, hnode⟩ := hlegible
  have hclose : quotesClose k.scalar = true := by
    rcases hkey with hkey | hleaf
    · exact (Bool.and_eq_true_iff.mp (keyLegible_iff.mp hkey).1).1
    · simp only [leafLegible, Bool.and_eq_true] at hleaf
      exact hleaf.1.1.1
  obtain ⟨hP, s', hreading, rfl, hrefs, hreads⟩ := hstart k v.rest u hclose (head_rest v) hline
  rw [← hrefs]
  refine ⟨hP, ?_⟩
  rcases hkey with hkey | hleaf
  · obtain ⟨hliteral, hne, -⟩ := keyLegible_iff.mp hkey
    rw [ImageScanner.Reads, keyRead_of_literal hliteral] at hreads
    exact keyed_run hv hreading hkey hvalue himage hnode htracked (hreads.resolve_left fun h => hne h.1).2 hrest
  · exact leaf_run hv hreading hleaf hvalue hreads hrest

theorem any_lt_mono {block : Option Nat} (hnm : n ≤ m) (h : block.any (· < m) = false) : block.any (· < n) = false := by
  cases block with
  | none => rfl
  | some b => exact decide_eq_false fun hb => of_decide_eq_false h (Nat.lt_of_lt_of_le hb hnm)

/-- Nothing has happened to the scopes. -/
theorem Same.left (h : Same s t) (hflow : s.flow = none) (hblock : s.block_scalar_indent.any (· < n) = false) :
    Left n least s t where
  flow := h.flow.trans hflow
  block := by rw [h.block]; exact hblock
  scopes := fun keep _ _ => by rw [h.scopes]

theorem holdsItem_mono {e : ScopeEntry} (hnm : n ≤ m) (h : e.holdsItem n = true) : e.holdsItem m = true := by
  rcases Nat.eq_or_lt_of_le hnm with rfl | hlt
  · exact h
  · exact holdsItem_of_holdsItem hlt h

def ItemRun (debug : List Char → String) (loaded : BlockScalar → List Char) (i : Item) : Prop :=
  ∀ n S s t, At (·.holdsItem n) n S s → itemLegible i = true → s.scanLines debug (i.lines (spaces n) n) = .ok t →
    At (·.holdsItem n) n S t ∧ directImage S = none ∧ t.references = s.references ++ itemImages loaded (pathOf S) i

def ItemsRun (debug : List Char → String) (loaded : BlockScalar → List Char) (is : Items) : Prop :=
  ∀ n S s t, At (·.holdsItem n) n S s → itemsLegible is = true → s.scanLines debug (is.lines (spaces n) n) = .ok t →
    At (·.holdsItem n) n S t ∧ directImage S = none ∧ t.references = s.references ++ itemsImages loaded (pathOf S) is

theorem at_opened {keep : ScopeEntry → Bool} (h : Same s t) (hflow : s.flow = none) (hblock : s.block_scalar_indent = none)
    (hS : ∀ e ∈ s.scopes, keep e = true) : At keep n s.scopes t where
  flow := h.flow.trans hflow
  block := by rw [h.block, hblock]; rfl
  scopes := by rw [h.scopes, List.filter_eq_self.mpr hS]

theorem run_null {e : LineEnd} : NodeRun debug loaded (.null e) := by
  intro n least s t hle _ hbelow h
  have hsame : Same s t := same_noise hbelow.flow h
  exact ⟨hsame.left hbelow.flow hbelow.block, hsame.references⟩

theorem run_scalar {g : Gap} {w : Scalar []} {e : LineEnd} : NodeRun debug loaded (.scalar g w e) := by
  intro n least s t hle _ hbelow h
  have hsame : Same s t := same_noise hbelow.flow h
  exact ⟨hsame.left hbelow.flow hbelow.block, hsame.references⟩

theorem run_block {c : BlockScalar} : NodeRun debug loaded (.block c) := by
  intro n least s t hle _ hbelow h
  have hsame : Same s t := same_block hbelow.flow (hbelow.content c rfl) h
  exact ⟨hsame.left hbelow.flow hbelow.block, hsame.references⟩

theorem run_mapping {e : LineEnd} {shift : Nat} {es : Entries} (hes : EntriesRun debug loaded es) :
    NodeRun debug loaded (.mapping e shift es) := by
  intro n least s t hle hlegible hbelow h
  obtain ⟨u, hu, ht⟩ := scanLines_append h
  obtain ⟨hblock, habove, -⟩ := hbelow.opened nofun nofun
  have hsame : Same s u := same_noise hbelow.flow hu
  have hat : At (·.above (n + 1 + shift)) (n + 1 + shift) s.scopes u :=
    at_opened hsame hbelow.flow hblock fun e he => above_of_above (Nat.le_add_right _ _) (habove e he)
  have hsound : Sound s.scopes u.references := hsame.references ▸ hbelow.toSound
  obtain ⟨-, hend, hrefs⟩ := hes _ _ _ _ u t (starts_at hat hsound) hlegible (fun h => hbelow.tracked h e shift es rfl) hsound ht
  rw [hsame.references] at hrefs
  refine ⟨⟨hend.flow, any_lt_mono (by omega) hend.block, fun keep habove' _ => ?_⟩, hrefs⟩
  have hkeep (e : ScopeEntry) (he : keep e = true) : e.above (n + 1 + shift) = true :=
    above_of_above (Nat.le_add_right _ _) (habove' e he)
  rw [← filter_filter_of_imp hkeep, hend.scopes]

theorem run_sequence {e : LineEnd} {shift : Nat} {is : Items} (his : ItemsRun debug loaded is) :
    NodeRun debug loaded (.sequence e shift is) := by
  intro n least s t hle hlegible hbelow h
  obtain ⟨u, hu, ht⟩ := scanLines_append h
  obtain ⟨hblock, -, hholds⟩ := hbelow.opened nofun nofun
  have hsame : Same s u := same_noise hbelow.flow hu
  have hat : At (·.holdsItem (least + shift)) (least + shift) s.scopes u :=
    at_opened hsame hbelow.flow hblock fun e he => holdsItem_mono (Nat.le_add_right _ _) (hholds e he)
  obtain ⟨hend, hnone, hrefs⟩ := his _ _ u t hat hlegible ht
  rw [hsame.references] at hrefs
  refine ⟨⟨hend.flow, any_lt_mono (by omega) hend.block, fun keep _ hholds' => ?_⟩, hnone, hrefs⟩
  have hkeep (e : ScopeEntry) (he : keep e = true) : e.holdsItem (least + shift) = true :=
    holdsItem_mono (Nat.le_add_right _ _) (hholds' e he)
  rw [← filter_filter_of_imp hkeep, hend.scopes]

theorem run_last {k : Key} {v : Node} (hv : NodeRun debug loaded v) : EntriesRun debug loaded (.last k v) :=
  fun _ _ _ _ _ _ hstart hlegible htracked _ h => first_entry hv hstart hlegible htracked h

theorem run_cons {k : Key} {v : Node} {es : Entries} (hv : NodeRun debug loaded v) (hes : EntriesRun debug loaded es) :
    EntriesRun debug loaded (.cons k v es) := by
  intro first n S P s t hstart hlegible htracked hsound h
  rw [entriesLegible, Bool.and_eq_true] at hlegible
  have htracked' (hne : directImage S ≠ none) : trackedLegible (.last k v) = true ∧ trackedLegible es = true := by
    have hboth : trackedLegible (.cons k v es) = true := htracked hne
    rw [trackedLegible, Bool.and_eq_true] at hboth
    exact hboth
  have happend : (Entries.cons k v es).lines first n =
      ((first ++ k.chars ++ ':' :: v.rest) :: v.under n n) ++ es.lines (spaces n) n := rfl
  rw [happend] at h
  obtain ⟨u, hu, ht⟩ := scanLines_append h
  obtain ⟨hP, hat, hrefs⟩ := first_entry hv hstart hlegible.1 (fun hne => (htracked' hne).1) hu
  have hsound' : Sound S u.references := hrefs ▸ sound_references hsound
  obtain ⟨-, hend, hrefs'⟩ := hes _ n S True u t (starts_at hat hsound') hlegible.2 (fun hne => (htracked' hne).2) hsound' ht
  exact ⟨hP, hend, by rw [hrefs', hrefs, entriesReferences_cons hsound]⟩

/-- Back from below a dash. -/
theorem Left.at_item (h : Left n (n + 1) s t) (hat : At (·.holdsItem n) n S u) (hscopes : s.scopes = S ++ [itemScope n S]) :
    At (·.holdsItem n) n S t where
  flow := h.flow
  block := h.block
  scopes := by
    rw [h.scopes _ (fun e he => above_of_holdsItem (Nat.lt_succ_self n) he) fun e he =>
      holdsItem_of_holdsItem (Nat.lt_succ_self n) he, hscopes, filter_item hat]

theorem run_node {v : Node} (hv : NodeRun debug loaded v) : ItemRun debug loaded (.node v) := by
  intro n S s t hat hlegible h
  rw [itemLegible, Bool.and_eq_true] at hlegible
  obtain ⟨u, hline, hrest⟩ := scanLines_cons h
  obtain ⟨hnone, rfl⟩ : s.next.NoImage n ∧ u = s.next.item n := by
    have hstarts := hlegible.1
    cases v with
    | null e | mapping e shift es | sequence e shift is =>
      exact of_line_dash_end (s := s.next) hat.flow hat.block hline
    | block c => exact absurd hstarts Bool.false_ne_true
    | scalar g w e =>
      rw [itemStarts, Bool.and_eq_true, decide_eq_true_eq] at hstarts
      exact of_line_dash_scalar (s := s.next) hat.flow hat.block hstarts.1 hstarts.2 hline
  have hscopes := item_scopes hat
  have hbelow : Below n (n + 1) v (s.next.item n) := {
    toSound := hscopes ▸ sound_item
    flow := hat.flow
    block := rfl
    content := fun c hc => by
      rw [hc] at hlegible
      exact absurd hlegible.1 Bool.false_ne_true
    opened := fun _ _ => by
      rw [hscopes]
      exact ⟨rfl, above_of_mem_item hat (Nat.lt_succ_self n), fun e he =>
        holdsItem_of_above (Nat.le_refl _) (above_of_mem_item hat (Nat.lt_succ_self n) e he)⟩
    tracked := fun hne => by
      rw [hscopes, directImage_append] at hne
      exact absurd rfl hne }
  obtain ⟨hleft, hdone⟩ := hv n (n + 1) _ t (Nat.le_succ n) hlegible.2 hbelow hrest
  refine ⟨hleft.at_item hat hscopes, directImage_of_noImage hat hnone, ?_⟩
  have hpath : pathOf (s.next.item n).scopes = itemPath (pathOf S) := by rw [hscopes, pathOf_append_item rfl]
  have hdirect : directImage (s.next.item n).scopes = none := by rw [hscopes, directImage_append]; rfl
  cases v with
  | null e | scalar g w e | block c => exact hdone.trans (List.append_nil _).symm
  | mapping e shift es =>
    rw [NodeDone, entriesReferences, hdirect, hpath] at hdone
    exact hdone
  | sequence e shift is =>
    rw [NodeDone, hpath] at hdone
    exact hdone.2

theorem At.of_below {keep : ScopeEntry → Bool} (hend : At keep m (S ++ [itemScope n S]) t) (hat : At (·.holdsItem n) n S s)
    (hnm : n ≤ m) (hkeep : ∀ e : ScopeEntry, e.holdsItem n = true → keep e = true) : At (·.holdsItem n) n S t where
  flow := hend.flow
  block := any_lt_mono hnm hend.block
  scopes := by rw [← filter_filter_of_imp hkeep, hend.scopes, filter_item hat]

theorem run_compact {gap : Nat} {es : Entries} (hes : EntriesRun debug loaded es) : ItemRun debug loaded (.mapping gap es) := by
  intro n S s t hat hlegible h
  obtain ⟨hnone, hend, hrefs⟩ := hes _ _ _ _ s t (starts_dash hat) hlegible
    (fun hne => absurd directImage_append hne) sound_item h
  refine ⟨hend.of_below hat (by omega) fun e he => above_of_holdsItem (by omega) he, hnone, ?_⟩
  rw [hrefs, entriesReferences, directImage_append, pathOf_append_item rfl]
  rfl

theorem textOnly_lines {v : Node} (hv : textOnly (.node v) = true) (h : s.scanLines debug (v.under n m) = .ok t)
    (hflow : s.flow = none) : Same s t ∧ ∀ path, nodeImages loaded path v = [] := by
  cases v with
  | null e | scalar g w e => exact ⟨same_noise hflow h, fun _ => rfl⟩
  | block c | mapping e shift es | sequence e shift is => exact absurd hv Bool.false_ne_true

theorem textOnly_node {i : Item} (h : textOnly i = true) : ∃ v, i = .node v := by
  cases i with
  | node v => exact ⟨v, rfl⟩
  | mapping gap es => exact absurd h Bool.false_ne_true
  | sequence gap is => exact absurd h Bool.false_ne_true

/-- The first item of a sequence that starts on the line of a dash: its own dash opens no scope. -/
theorem run_dashes {gap : Nat} {i : Item} (hat : At (·.holdsItem n) n S s) (hi : textOnly i = true)
    (h : s.scanLines debug (i.lines (spaces n ++ '-' :: spaces (gap + 1)) (n + 1 + (gap + 1))) = .ok t) :
    At (·.holdsItem (n + 1 + (gap + 1))) (n + 1 + (gap + 1)) (S ++ [itemScope n S]) t ∧ directImage S = none ∧
      t.references = s.references ∧ ∀ path, itemImages loaded path i = [] := by
  obtain ⟨v, rfl⟩ := textOnly_node hi
  obtain ⟨u, hline, hrest⟩ := scanLines_cons h
  rw [List.append_assoc, List.cons_append] at hline
  obtain ⟨hnone, rfl⟩ := of_line_dashes (s := s.next) hat.flow hat.block hi hline
  obtain ⟨hsame, hnil⟩ := textOnly_lines hi hrest hat.flow
  have hscopes := item_scopes hat
  refine ⟨hscopes ▸ at_opened hsame hat.flow rfl fun e he => ?_, directImage_of_noImage hat hnone, hsame.references,
    fun path => hnil _⟩
  rw [hscopes] at he
  exact holdsItem_of_above (Nat.le_refl _) (above_of_mem_item hat (by omega) e he)

mutual

theorem node_run : (v : Node) → NodeRun debug loaded v
  | .null _ => run_null
  | .scalar .. => run_scalar
  | .block _ => run_block
  | .mapping _ _ es => run_mapping (entries_run es)
  | .sequence _ _ is => run_sequence (items_run is)

theorem entries_run : (es : Entries) → EntriesRun debug loaded es
  | .last _ v => run_last (node_run v)
  | .cons _ v es => run_cons (node_run v) (entries_run es)

theorem item_run : (i : Item) → ItemRun debug loaded i
  | .node v => run_node (node_run v)
  | .mapping _ es => run_compact (entries_run es)
  | .sequence gap (.last i) => fun n S s t hat hlegible h => by
    obtain ⟨hend, hnone, hrefs, hnil⟩ := run_dashes hat hlegible h
    refine ⟨hend.of_below hat (by omega) fun e he => holdsItem_of_holdsItem (by omega) he, hnone, ?_⟩
    rw [hrefs, itemImages, itemsImages, hnil, List.append_nil]
  | .sequence gap (.cons i is) => fun n S s t hat hlegible h => by
    rw [itemLegible, Bool.and_eq_true] at hlegible
    obtain ⟨u, hu, ht⟩ := scanLines_append h
    obtain ⟨hat', hnone, hrefs, hnil⟩ := run_dashes hat hlegible.1 hu
    obtain ⟨hend, -, hrefs'⟩ := items_run is _ _ u t hat' hlegible.2 ht
    refine ⟨hend.of_below hat (by omega) fun e he => holdsItem_of_holdsItem (by omega) he, hnone, ?_⟩
    rw [hrefs', hrefs, pathOf_append_item rfl, itemImages, itemsImages, hnil, List.nil_append]

theorem items_run : (is : Items) → ItemsRun debug loaded is
  | .last i => item_run i
  | .cons i is => fun n S s t hat hlegible h => by
    rw [itemsLegible, Bool.and_eq_true] at hlegible
    obtain ⟨u, hu, ht⟩ := scanLines_append h
    obtain ⟨hat', -, hrefs⟩ := item_run i n S s u hat hlegible.1 hu
    obtain ⟨hend, hnone, hrefs'⟩ := items_run is n S u t hat' hlegible.2 ht
    exact ⟨hend, hnone, by rw [hrefs', hrefs, itemsImages, List.append_assoc]⟩

end

/-! ## Documents -/

theorem sound_nil {refs : List ImageReference} : Sound [] refs := ⟨fun h => absurd rfl h, nofun⟩

/-- A document that is a single scalar. -/
theorem line_root {w : Scalar []} {e : Ending} (hw : quotesClose w = true) (hflow : s.flow = none)
    (hblock : s.block_scalar_indent = none)
    (h : s.line debug (spaces n ++ w.written ++ e.chars) = .ok t) : t.flow = none ∧ t.references = s.references := by
  have hread : Readable [] w.written := readable_written hw nofun
  have hlast : (Quoting.lastOf none (spaces n)).all isWhitespace = true :=
    lastOf_blanks ⟨spaces n, fun c hc => mem_spaces hc ▸ rfl⟩ rfl
  have hcontent : trimEnd (stripComment (spaces n ++ w.written ++ e.chars)) = spaces n ++ w.written := by
    rw [stripComment_eq, List.append_assoc, stripFrom_neutral neutral_spaces,
      stripFrom_append (hread.uncommented _ _ hlast) (hread.closed _ hlast), ← List.append_assoc, trimEnd,
      rdropWhile_append_of_forall (stripFrom_ending e)]
    refine rdropWhile_eq_self fun d hd => hread.edged.2 d ?_
    rwa [List.getLast?_append_of_ne_nil _ hread.nonempty] at hd
  obtain ⟨c, x, hx, hc⟩ := head_written hread
  have htrim : trimStart w.written = w.written := hx ▸ trimStart_of_head hc
  have hnokey : splitKey w.written = none := by
    rw [splitKey, Quoting.splitUnquoted_eq_none (hread.keyless none rfl)]
    rfl
  rw [line_structural hflow (by rw [hblock]; rfl) hcontent htrim hread.nonempty, ImageScanner.structural] at h
  split at h
  · rw [← Except.ok.inj h]
    exact ⟨hflow, rfl⟩
  · have hitem : isListItem w.written = false := List.append_nil w.written ▸ isListItem_written (w := w) (r := []) nofun
    rw [hitem, if_neg Bool.false_ne_true] at h
    rw [of_entryText_none hnokey h]
    exact ⟨hflow, rfl⟩

theorem root_run {root : Root} {before : List Noise} (hs : Same {} s) (hlegible : legible ⟨before, root⟩ = true)
    (h : s.scanLines debug root.lines = .ok t) : t.references = rootImages loaded root := by
  have hat (keep : ScopeEntry → Bool) (n : Nat) : At keep n [] s :=
    ⟨hs.flow, by rw [hs.block]; rfl, by rw [hs.scopes]; rfl⟩
  have hempty : s.references = [] := hs.references
  cases root with
  | null =>
    rw [← Except.ok.inj h]
    exact hempty
  | block n c => exact absurd hlegible Bool.false_ne_true
  | scalar n w e =>
    obtain ⟨u, hline, hrest⟩ := scanLines_cons h
    obtain ⟨hflow, hrefs⟩ := line_root (s := s.next) hlegible hs.flow hs.block hline
    exact (same_noise hflow hrest).references.trans (hrefs.trans hempty)
  | mapping n es =>
    have hrefs := (@entries_run debug loaded es _ n [] True s t (starts_at (hat _ n) sound_nil) hlegible
      (fun h => absurd rfl h) sound_nil h).2.2
    rw [hrefs, hempty]
    rfl
  | sequence n is =>
    have hrefs := (@items_run debug loaded is n [] s t (hat _ n) hlegible h).2.2
    rw [hrefs, hempty]
    rfl

/-- What the scan returns of a document that can be read a line at a time. -/
theorem imageReferences_exact (debug : List Char → String) (loaded : BlockScalar → List Char) (d : Document)
    (hlegible : legible d = true) : ∀ refs, imageReferences debug d.written = .ok refs → refs = images loaded d := by
  intro refs h
  rw [imageReferences, ImageScanner.scan, Document.lines_written] at h
  split at h
  · exact absurd h nofun
  · rename_i t ht
    obtain ⟨u, hu, hrest⟩ := scanLines_append ht
    have hsame : Same {} u := same_noise rfl hu
    split at h
    · exact absurd h nofun
    · rw [← Except.ok.inj h, root_run hsame hlegible hrest]
      rfl

/-! ## A dash that is not read -/

def endOfLine : LineEnd := ⟨.blanks ⟨[], nofun⟩, []⟩

def oneSpace : Gap := ⟨⟨[' '], fun _ hc => List.mem_singleton.mp hc ▸ rfl⟩, List.cons_ne_nil _ _⟩

def plainWord {next : List Char} (text : List Char) (h : text ≠ [] ∧ text.all Char.isAlphanum = true) : Scalar next :=
  have hword : ∀ c ∈ text, c.isAlphanum = true := List.all_eq_true.mp h.2
  .plain ⟨text, fun hc => absurd (hword _ hc) (by decide), fun hc => absurd (hword _ hc) (by decide)⟩ (Plain.of_word h.1 hword)

def plainKey (text : List Char) (h : text ≠ [] ∧ text.all Char.isAlphanum = true) : Key := ⟨⟨[], nofun⟩, plainWord text h⟩

def nginx : Node := .scalar oneSpace (plainWord "nginx".toList (by decide)) endOfLine

/-- A backslash as a key, and `image:` with a `repository` below. -/
def oneImage : Document :=
  ⟨[], .mapping 0 (.cons ⟨⟨[], nofun⟩, .double ⟨['\\'], by decide, by decide⟩⟩ nginx
    (.last (plainKey IMAGE_KEY (by decide)) (.mapping endOfLine 1 (.last (plainKey REPOSITORY_KEY (by decide)) nginx))))⟩

theorem oneImage_found :
    [⟨"image".toList, .Mapping, some "nginx".toList, none⟩] = images (fun _ => []) oneImage :=
  imageReferences_exact String.ofList (fun _ => []) oneImage (by decide) _ (by decide +kernel)

/-- `- - image: nginx` -/
def nestedDash : Document :=
  ⟨[], .sequence 0 (.last (.sequence 0 (.last (.mapping 0 (.last (plainKey IMAGE_KEY (by decide)) nginx)))))⟩

/-- The scan succeeds and the image is missing. -/
theorem nestedDash_missed : imageReferences String.ofList nestedDash.written = .ok [] ∧
    images (fun _ => []) nestedDash = [⟨"[][].image".toList, .Scalar, some "nginx".toList, none⟩] :=
  ⟨by decide +kernel, by decide +kernel⟩

end Claudear.Release
