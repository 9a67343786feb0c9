import Claudear.Release.ImageLines

/-!
# What a scan that succeeds has found

A run of the scanner over the lines of a tree, part by part: what every part leaves in
`references`, and that it leaves the scopes above it as they were.
-/

namespace Claudear.Release

open Claudear.Text Claudear.Text.BlockYaml

variable {s t u : ImageScanner} {debug : List Char → String} {loaded : BlockScalar → List Char} {n m least : Nat}
  {S : List ScopeEntry} {refs refs' : List ImageReference} {raw key value : List Char} {a b : List (List Char)}

/-! ## Runs over lines -/

def ImageScanner.next (s : ImageScanner) : ImageScanner := { s with line_number := s.line_number + 1 }

theorem scanLines_cons (h : s.scanLines debug (raw :: a) = .ok t) :
    ∃ u, s.next.line debug raw = .ok u ∧ u.scanLines debug a = .ok t := by
  rw [ImageScanner.scanLines] at h
  dsimp only at h
  split at h
  · exact absurd h nofun
  · rename_i u hu
    exact ⟨u, hu, h⟩

theorem scanLines_ok {v : ImageScanner} (h : s.next.line debug raw = .ok v) :
    s.scanLines debug (raw :: a) = v.scanLines debug a := by
  rw [ImageScanner.scanLines]
  split
  · rename_i error herror
    cases herror.symm.trans h
  · rename_i w hw
    cases hw.symm.trans h
    rfl

theorem scanLines_append (h : s.scanLines debug (a ++ b) = .ok t) :
    ∃ u, s.scanLines debug a = .ok u ∧ u.scanLines debug b = .ok t := by
  induction a generalizing s with
  | nil => exact ⟨s, rfl, h⟩
  | cons raw a ih =>
    obtain ⟨v, hline, hrest⟩ := scanLines_cons h
    obtain ⟨u, hu, ht⟩ := ih hrest
    refine ⟨u, ?_, ht⟩
    exact (scanLines_ok hline).trans hu

/-- All but the line number. -/
structure Same (s t : ImageScanner) : Prop where
  flow : t.flow = s.flow
  block : t.block_scalar_indent = s.block_scalar_indent
  scopes : t.scopes = s.scopes
  references : t.references = s.references

theorem Same.trans (h : Same s t) (h' : Same t u) : Same s u :=
  ⟨h'.flow.trans h.flow, h'.block.trans h.block, h'.scopes.trans h.scopes, h'.references.trans h.references⟩

theorem same_of_quiet (hquiet : ∀ v : ImageScanner, v.flow = s.flow → v.block_scalar_indent = s.block_scalar_indent →
      ∀ raw ∈ a, v.line debug raw = .ok v)
    (h : s.scanLines debug a = .ok t) : Same s t := by
  induction a generalizing s with
  | nil =>
    obtain rfl : s = t := Except.ok.inj h
    exact ⟨rfl, rfl, rfl, rfl⟩
  | cons raw a ih =>
    obtain ⟨v, hline, hrest⟩ := scanLines_cons h
    obtain rfl : s.next = v := Except.ok.inj ((hquiet s.next rfl rfl raw List.mem_cons_self).symm.trans hline)
    have hsame : Same s.next t := ih
      (fun v hflow hblock raw hraw => hquiet v hflow hblock raw (List.mem_cons_of_mem _ hraw)) hrest
    exact ⟨hsame.flow, hsame.block, hsame.scopes, hsame.references⟩

theorem same_noise {ns : List Noise} (hflow : s.flow = none) (h : s.scanLines debug (ns.map Noise.chars) = .ok t) :
    Same s t := by
  refine same_of_quiet (fun v hv _ raw hraw => ?_) h
  obtain ⟨e, -, rfl⟩ := List.mem_map.mp hraw
  exact line_noise (hv.trans hflow) e

theorem same_block {c : BlockScalar} (hflow : s.flow = none) (hblock : s.block_scalar_indent = some n)
    (h : s.scanLines debug (c.below n) = .ok t) : Same s t := by
  obtain ⟨v, hv, ht⟩ := scanLines_append h
  have hsame : Same s v := by
    refine same_of_quiet (fun w hw hwblock raw hraw => ?_) hv
    obtain ⟨line, -, rfl⟩ := List.mem_map.mp hraw
    cases line with
    | blank b => exact line_noise (hw.trans hflow) (.blank b)
    | text l => exact line_block (hw.trans hflow) (hwblock.trans hblock) (by omega)
  exact hsame.trans (same_noise (hsame.flow.trans hflow) ht)

/-! ## Scopes -/

def pathOf (S : List ScopeEntry) : List Char := ImageScanner.joined (S.map (·.segment))

def directImage (S : List ScopeEntry) : Option Nat := S.getLast?.bind (·.image)

/-- The scope of an image is within it, and its reference is there. -/
structure Sound (S : List ScopeEntry) (refs : List ImageReference) : Prop where
  within : directImage S ≠ none → withinImage S = true
  bound : ∀ index ∈ directImage S, index < refs.length

/-- The state before a line at the column that `keep` goes by. -/
structure At (keep : ScopeEntry → Bool) (n : Nat) (S : List ScopeEntry) (s : ImageScanner) : Prop where
  flow : s.flow = none
  block : s.block_scalar_indent.any (· < n) = false
  scopes : s.scopes.filter keep = S

theorem filter_filter_of_imp {keep keep' : ScopeEntry → Bool} {l : List ScopeEntry} (h : ∀ e, keep e = true → keep' e = true) :
    (l.filter keep').filter keep = l.filter keep := by
  rw [List.filter_filter]
  refine List.filter_congr fun e _ => ?_
  cases hkeep : keep e with
  | false => rfl
  | true => rw [h e hkeep]; rfl

theorem above_of_above {e : ScopeEntry} (hnm : n ≤ m) (h : e.above n = true) : e.above m = true :=
  decide_eq_true (Nat.lt_of_lt_of_le (of_decide_eq_true h) hnm)

theorem holdsItem_of_above {e : ScopeEntry} (hnm : n ≤ m) (h : e.above n = true) : e.holdsItem m = true :=
  decide_eq_true (.inl (Nat.lt_of_lt_of_le (of_decide_eq_true h) hnm))

theorem above_of_holdsItem {e : ScopeEntry} (hnm : n < m) (h : e.holdsItem n = true) : e.above m = true := by
  refine decide_eq_true ?_
  rcases of_decide_eq_true h with h | h
  · exact h.trans hnm
  · exact h.1 ▸ hnm

theorem holdsItem_of_holdsItem {e : ScopeEntry} (hnm : n < m) (h : e.holdsItem n = true) : e.holdsItem m = true :=
  holdsItem_of_above (Nat.le_refl m) (above_of_holdsItem hnm h)

/-! ## What the parts leave behind -/

theorem modify_length {α : Type} {f : α → α} {x : α} {l : List α} : (l ++ [x]).modify l.length f = l ++ [f x] := by
  induction l with
  | nil => rfl
  | cons y l ih => exact congrArg (List.cons y) ih

theorem modify_append {α : Type} {f : α → α} {l r : List α} {i : Nat} (h : i < l.length) :
    (l ++ r).modify i f = l.modify i f ++ r := by
  induction l generalizing i with
  | nil => exact absurd h (Nat.not_lt_zero i)
  | cons y l ih =>
    cases i with
    | zero => rfl
    | succ i => exact congrArg (List.cons y) (ih (Nat.lt_of_succ_lt_succ h))

section
variable (loaded : BlockScalar → List Char)

/-- The repository and tag among the entries of an image mapping. -/
def assigned (es : Entries) (r : ImageReference) : ImageReference :=
  { r with repository := (lookup loaded REPOSITORY_KEY es).or r.repository, tag := (lookup loaded TAG_KEY es).or r.tag }

def entriesReferences (S : List ScopeEntry) (refs : List ImageReference) (es : Entries) : List ImageReference :=
  (match directImage S with
    | none => refs
    | some index => refs.modify index (assigned loaded es)) ++ entriesImages loaded (pathOf S) es

/-- The references after the lines below a value, in the scopes `S`. -/
def NodeDone (S : List ScopeEntry) (refs refs' : List ImageReference) : Node → Prop
  | .null _ | .scalar .. | .block _ => refs' = refs
  | .mapping _ _ es => refs' = entriesReferences loaded S refs es
  | .sequence _ _ is => directImage S = none ∧ refs' = refs ++ itemsImages loaded (pathOf S) is

end

/-- What the lines below a value leave of the state. -/
structure Left (n least : Nat) (s t : ImageScanner) : Prop where
  flow : t.flow = none
  block : t.block_scalar_indent.any (· < n) = false
  scopes : ∀ keep : ScopeEntry → Bool, (∀ e, keep e = true → e.above (n + 1) = true) →
    (∀ e, keep e = true → e.holdsItem least = true) → t.scopes.filter keep = s.scopes.filter keep

/-- The state below the line of a value. -/
structure Below (n least : Nat) (v : Node) (s : ImageScanner) : Prop extends Sound s.scopes s.references where
  flow : s.flow = none
  block : s.block_scalar_indent.any (· < n) = false
  content : ∀ c, v = .block c → s.block_scalar_indent = some n
  opened : (∀ c, v ≠ .block c) → (∀ g c e, v ≠ .scalar g c e) → s.block_scalar_indent = none ∧
    (∀ e ∈ s.scopes, e.above (n + 1) = true) ∧ ∀ e ∈ s.scopes, e.holdsItem least = true
  tracked : directImage s.scopes ≠ none → ∀ e shift es, v = .mapping e shift es → trackedLegible es = true

def NodeRun (debug : List Char → String) (loaded : BlockScalar → List Char) (v : Node) : Prop :=
  ∀ n least s t, n ≤ least → nodeLegible v = true → Below n least v s → s.scanLines debug (v.under n least) = .ok t →
    Left n least s t ∧ NodeDone loaded s.scopes s.references t.references v

/-! ## Inversions -/

theorem scalar_ok {value x : List Char} (h : scalar debug value = .ok x) : x = unquote value := by
  rw [scalar] at h
  split at h
  · exact (Except.ok.inj h).symm
  · split at h
    · exact absurd h nofun
    · rename_i hquote
      split at h
      · exact absurd h nofun
      · rw [← Except.ok.inj h]
        have hnone {q : Char} (hq : q ∈ ['"', '\'']) : unquote.enclosed value q = none := by
          cases value with
          | nil => rfl
          | cons c rest =>
            refine if_neg ?_
            rintro ⟨rfl, -⟩
            exact hquote (decide_eq_true hq)
        rw [unquote, hnone (q := '"') (by decide), hnone (q := '\'') (by decide)]
        rfl

theorem pathWith_eq (h : key ≠ LIST_ITEM_SEGMENT) : s.pathWith key = keyPath (pathOf s.scopes) key := by
  rw [ImageScanner.pathWith, ImageScanner.joined, List.foldl_append]
  exact if_neg h

theorem pathOf_append_key {e : ScopeEntry} (h : e.segment ≠ LIST_ITEM_SEGMENT) :
    pathOf (S ++ [e]) = keyPath (pathOf S) e.segment := by
  rw [pathOf, List.map_append, ImageScanner.joined, List.foldl_append]
  exact if_neg h

theorem pathOf_append_item {e : ScopeEntry} (h : e.segment = LIST_ITEM_SEGMENT) :
    pathOf (S ++ [e]) = itemPath (pathOf S) := by
  rw [pathOf, List.map_append, ImageScanner.joined, List.foldl_append]
  exact if_pos h

theorem directImage_append {e : ScopeEntry} : directImage (S ++ [e]) = e.image := by
  rw [directImage, List.getLast?_concat]
  rfl

theorem withinImage_append {e : ScopeEntry} : withinImage (S ++ [e]) = e.within_image := by
  rw [withinImage, List.getLast?_concat]
  rfl

theorem startsWith_false {chars : List Char} {c : Char} {z : List Char} (h : c ∉ chars) : startsWith chars (c :: z) = false :=
  decide_eq_false h

theorem isBlockScalar_false {c : Char} {z : List Char} (h : c ∉ special) : isBlockScalar (c :: z) = false := by
  have hc : ¬ (c = '|' ∨ c = '>') := by
    rintro (rfl | rfl)
    · exact h (by decide)
    · exact h (by decide)
  rw [isBlockScalar, decide_eq_false hc, Bool.false_and]

/-- After a key that does not belong to an image. -/
def opened (s : ImageScanner) (n : Nat) (key : List Char) : Node → ImageScanner
  | .null _ | .mapping .. | .sequence .. => s.open' n key none
  | .scalar .. => s
  | .block _ => { s with block_scalar_indent := some n }

theorem entry_opened {v : Node} (hv : valueLegible v = true) : s.entry n key (valueAt v.rest) = .ok (opened s n key v) := by
  cases v with
  | null e | mapping e shift es | sequence e shift is => rw [Node.rest, valueAt_ending]; rfl
  | block c =>
    have hanchor : stripAnchor c.indicator = c.indicator := by
      cases hf : c.folded <;> simp [BlockScalar.indicator, hf, stripAnchor]
    rw [Node.rest, valueAt_block, ImageScanner.entry]
    simp only [hanchor, isBlockScalar_indicator, if_true]
    rfl
  | scalar g w e =>
    obtain ⟨c, z, hz, hc⟩ := valueAt_first hv
    have hanchor : stripAnchor (c :: z) = c :: z := by
      have hne : c ≠ '&' := fun h => hc (h ▸ by decide)
      simp [stripAnchor, hne]
    have hflow : startsWith ['{', '['] (c :: z) = false := startsWith_false fun h => by
      rcases List.mem_cons.mp h with rfl | h
      · exact hc (by decide)
      · exact hc (List.mem_singleton.mp h ▸ by decide)
    rw [Node.rest, hz, ImageScanner.entry]
    simp only [hanchor, isBlockScalar_false hc, hflow]
    rfl

theorem untracked_opened {v : Node} {path : List Char} (hv : valueLegible v = true) (hkey : key ≠ IMAGE_KEY) :
    ImageScanner.imageEntry.untracked s n key (valueAt v.rest) path = .ok (opened s n key v) := by
  rw [ImageScanner.imageEntry.untracked, if_neg hkey]
  cases v with
  | null e | mapping e shift es | sequence e shift is => rw [Node.rest, valueAt_ending]; rfl
  | block c => rw [Node.rest, valueAt_block, isBlockScalar_indicator]; rfl
  | scalar g w e =>
    obtain ⟨c, z, hz, hc⟩ := valueAt_first hv
    rw [Node.rest, hz, isBlockScalar_false hc]
    rfl

/-! ## Entries with a key -/

theorem Left.at (h : Left n n s t) (hscopes : s.scopes.filter (·.above n) = S) : At (·.above n) n S t where
  flow := h.flow
  block := h.block
  scopes := (h.scopes _ (fun _ he => above_of_above (Nat.le_succ n) he) fun _ he => holdsItem_of_above (Nat.le_refl n) he).trans hscopes

theorem filter_above_open {image : Option Nat} (hS : ∀ e ∈ s.scopes, e.above n = true) :
    (s.open' n key image).scopes.filter (·.above n) = s.scopes := by
  have hlast : ScopeEntry.above n ⟨n, key, image, image.isSome || withinImage s.scopes⟩ = false :=
    decide_eq_false (Nat.lt_irrefl n)
  rw [ImageScanner.open', List.filter_append, List.filter_eq_self.mpr hS, List.filter_cons_of_neg (by simp [hlast]),
    List.filter_nil, List.append_nil]

/-- A scope has been opened at the column of its key. -/
theorem below_open {v : Node} {image : Option Nat} (hS : ∀ e ∈ s.scopes, e.above n = true) (hflow : s.flow = none)
    (hblock : s.block_scalar_indent = none) (hkey : key ≠ LIST_ITEM_SEGMENT) (hv : ∀ c, v ≠ .block c)
    (himage : ∀ index ∈ image, index < s.references.length)
    (htracked : image ≠ none → ∀ e shift es, v = .mapping e shift es → trackedLegible es = true) :
    Below n n v (s.open' n key image) where
  within := fun h => by
    rw [ImageScanner.open', directImage_append] at h
    rw [ImageScanner.open', withinImage_append, Option.isSome_iff_ne_none.mpr h]
    rfl
  bound := by
    rw [ImageScanner.open', directImage_append]
    exact himage
  flow := hflow
  block := by
    show s.block_scalar_indent.any _ = false
    rw [hblock]
    rfl
  content := fun c hc => absurd hc (hv c)
  opened := fun _ _ => by
    rw [ImageScanner.open']
    refine ⟨hblock, fun e he => ?_, fun e he => ?_⟩
    · rcases List.mem_append.mp he with he | he
      · exact above_of_above (Nat.le_succ n) (hS e he)
      · rw [List.mem_singleton.mp he]
        exact decide_eq_true (Nat.lt_succ_self n)
    · rcases List.mem_append.mp he with he | he
      · exact holdsItem_of_above (Nat.le_refl n) (hS e he)
      · rw [List.mem_singleton.mp he]
        exact decide_eq_true (.inr ⟨rfl, hkey⟩)
  tracked := by
    rw [ImageScanner.open', directImage_append]
    exact htracked

/-- The scanner when it reads an entry. -/
structure Reading (n : Nat) (s : ImageScanner) : Prop extends Sound s.scopes s.references where
  flow : s.flow = none
  block : s.block_scalar_indent = none
  above : ∀ e ∈ s.scopes, e.above n = true

section
variable {v : Node} {k : Key}

/-- A scalar is read under what stands before it, whatever references were added. -/
theorem below_scalar {w : Scalar []} (hs : Reading n s) (hlength : s.references.length ≤ refs.length) :
    Below n n (.scalar g w e) { s with references := refs } where
  within := hs.within
  bound index hindex := Nat.lt_of_lt_of_le (hs.bound index hindex) hlength
  flow := hs.flow
  block := by
    show s.block_scalar_indent.any _ = false
    rw [hs.block]
    rfl
  content _ heq := by cases heq
  opened _ hne := absurd rfl (hne g w e)
  tracked _ _ _ _ heq := by cases heq

theorem opened_run (hv : NodeRun debug loaded v) (hs : Reading n s)
    (hkey : (∀ c, v ≠ .block c) → (∀ g w e, v ≠ .scalar g w e) → key ≠ LIST_ITEM_SEGMENT) (hlegible : nodeLegible v = true) (h : (opened s n key v).scanLines debug (v.under n n) = .ok t) :
    At (·.above n) n s.scopes t ∧ t.references = s.references ++ nodeImages loaded (keyPath (pathOf s.scopes) key) v := by
  have hopen (hblock : ∀ c, v ≠ .block c) (hscalar : ∀ g w e, v ≠ .scalar g w e) : Below n n v (s.open' n key none) ∧
      pathOf (s.open' n key none).scopes = keyPath (pathOf s.scopes) key :=
    ⟨below_open hs.above hs.flow hs.block (hkey hblock hscalar) hblock nofun fun h => absurd rfl h,
      pathOf_append_key (hkey hblock hscalar)⟩
  have hdirect : directImage (s.open' n key none).scopes = none := directImage_append
  cases v with
  | null e =>
    obtain ⟨hleft, hdone⟩ := hv n n _ t (Nat.le_refl n) hlegible (hopen nofun nofun).1 h
    exact ⟨hleft.at (filter_above_open hs.above), hdone.trans (List.append_nil _).symm⟩
  | mapping e shift es =>
    obtain ⟨hleft, hdone⟩ := hv n n _ t (Nat.le_refl n) hlegible (hopen nofun nofun).1 h
    refine ⟨hleft.at (filter_above_open hs.above), hdone.trans ?_⟩
    rw [entriesReferences, hdirect, (hopen nofun nofun).2]
    rfl
  | sequence e shift is =>
    obtain ⟨hleft, -, hdone⟩ := hv n n _ t (Nat.le_refl n) hlegible (hopen nofun nofun).1 h
    refine ⟨hleft.at (filter_above_open hs.above), hdone.trans ?_⟩
    rw [(hopen nofun nofun).2]
    rfl
  | block c =>
    have hbelow : Below n n (.block c) (opened s n key (.block c)) := {
      toSound := ⟨hs.within, hs.bound⟩
      flow := hs.flow
      block := decide_eq_false (Nat.lt_irrefl n)
      content := fun _ _ => rfl
      opened := fun hne => absurd rfl (hne c)
      tracked := fun _ _ _ _ heq => by cases heq }
    obtain ⟨hleft, hdone⟩ := hv n n _ t (Nat.le_refl n) hlegible hbelow h
    exact ⟨hleft.at (List.filter_eq_self.mpr hs.above), hdone.trans (List.append_nil _).symm⟩
  | scalar g w e =>
    obtain ⟨hleft, hdone⟩ := hv n n _ t (Nat.le_refl n) hlegible (below_scalar hs (Nat.le_refl _)) h
    exact ⟨hleft.at (List.filter_eq_self.mpr hs.above), hdone.trans (List.append_nil _).symm⟩

theorem directImage_outside (hs : Sound s.scopes s.references) (h : withinImage s.scopes = false) : directImage s.scopes = none := by
  by_contra hne
  rw [hs.within hne] at h
  exact Bool.false_ne_true h.symm

theorem written_first {g : Gap} {w : Scalar []} {e : LineEnd} (hv : valueLegible (.scalar g w e) = true) (hw : quotesClose w = true) :
    ∃ c z, w.written = c :: z ∧ c ∉ special := by
  obtain ⟨c, z, hz, hc⟩ := valueAt_first hv
  exact ⟨c, z, (valueAt_scalar hw).symm.trans hz, hc⟩

theorem image_empty : s.image debug n [] =
    .ok ((s.record (s.pathWith IMAGE_KEY) .Mapping none none).open' n IMAGE_KEY (some s.references.length)) := rfl

theorem image_block {c : BlockScalar} : s.image debug n c.indicator ≠ .ok u := by
  rw [ImageScanner.image]
  dsimp only
  split
  · exact nofun
  · rw [if_pos (.inl (isBlockScalar_indicator c))]
    exact nofun

theorem image_scalar {c : Char} {z name : List Char} (hc : c ∉ special) (h : s.image debug n (c :: z) = .ok u)
    (hname : unquote (c :: z) = name) :
    u = s.record (s.pathWith IMAGE_KEY) .Scalar (some (splitImage name).1) (splitImage name).2 := by
  have hstart {chars : List Char} (hsub : chars ⊆ special) : startsWith chars (c :: z) = false :=
    startsWith_false fun hmem => hc (hsub hmem)
  have hanchor : startsWith ['&', '*'] (c :: z) = false := hstart (by decide)
  have hlist : startsWith ['['] (c :: z) = false := hstart (by decide)
  have hmap : startsWith ['{'] (c :: z) = false := hstart (by decide)
  rw [ImageScanner.image, hanchor, hlist, hmap, isBlockScalar_false hc] at h
  simp only [Bool.false_eq_true, or_self, if_false, List.cons_ne_nil] at h
  split at h
  · exact absurd h nofun
  · rename_i x hx
    obtain rfl : x = name := (scalar_ok hx).trans hname
    split at h
    · exact absurd h nofun
    · exact (Except.ok.inj h).symm

theorem image_run (hv : NodeRun debug loaded v) (hs : Reading n s)
    (hvalue : valueLegible v = true) (himage : imageLegible v = true) (hlegible : nodeLegible v = true)
    (hline : s.image debug n (valueAt v.rest) = .ok u) (h : u.scanLines debug (v.under n n) = .ok t) :
    At (·.above n) n s.scopes t ∧ t.references = s.references ++
      (imageAt loaded (keyPath (pathOf s.scopes) IMAGE_KEY) v ++ nodeImages loaded (keyPath (pathOf s.scopes) IMAGE_KEY) v) := by
  have hsegment : IMAGE_KEY ≠ LIST_ITEM_SEGMENT := by decide
  have hpathWith : s.pathWith IMAGE_KEY = keyPath (pathOf s.scopes) IMAGE_KEY := pathWith_eq hsegment
  have hlast : s.references.length < (s.references ++ [(⟨s.pathWith IMAGE_KEY, .Mapping, none, none⟩ : ImageReference)]).length := by
    rw [List.length_append]
    exact Nat.lt_succ_self _
  have hopen (hblock : ∀ c, v ≠ .block c) (htracked : ∀ e shift es, v = .mapping e shift es → trackedLegible es = true) :=
    below_open (s := s.record (s.pathWith IMAGE_KEY) .Mapping none none) hs.above hs.flow hs.block hsegment hblock
      (fun _ hindex => Option.some.inj hindex ▸ hlast) fun _ => htracked
  have hpath : pathOf ((s.record (s.pathWith IMAGE_KEY) .Mapping none none).open' n IMAGE_KEY
      (some s.references.length)).scopes = keyPath (pathOf s.scopes) IMAGE_KEY := pathOf_append_key hsegment
  have hdirect : directImage ((s.record (s.pathWith IMAGE_KEY) .Mapping none none).open' n IMAGE_KEY
      (some s.references.length)).scopes = some s.references.length := directImage_append
  cases v with
  | null e =>
    rw [Node.rest, valueAt_ending, image_empty] at hline
    obtain rfl := Except.ok.inj hline
    obtain ⟨hleft, hdone⟩ := hv n n _ t (Nat.le_refl n) hlegible (hopen (fun _ heq => by cases heq) fun _ _ _ heq => by cases heq) h
    refine ⟨hleft.at (filter_above_open (s := s.record _ _ _ _) hs.above), hdone.trans ?_⟩
    rw [← hpathWith]
    rfl
  | mapping e shift es =>
    rw [Node.rest, valueAt_ending, image_empty] at hline
    obtain rfl := Except.ok.inj hline
    obtain ⟨hleft, hdone⟩ := hv n n _ t (Nat.le_refl n) hlegible (hopen (fun _ heq => by cases heq)
      fun _ _ _ heq => by cases heq; exact himage) h
    refine ⟨hleft.at (filter_above_open (s := s.record _ _ _ _) hs.above), hdone.trans ?_⟩
    show entriesReferences loaded _ (s.references ++ [⟨s.pathWith IMAGE_KEY, .Mapping, none, none⟩]) es = _
    rw [entriesReferences, hdirect, hpath, hpathWith]
    dsimp only
    rw [modify_length, assigned, Option.or_none, Option.or_none, List.append_assoc]
    rfl
  | sequence e shift is =>
    rw [Node.rest, valueAt_ending, image_empty] at hline
    obtain rfl := Except.ok.inj hline
    obtain ⟨-, hnone, -⟩ := hv n n _ t (Nat.le_refl n) hlegible (hopen (fun _ heq => by cases heq) fun _ _ _ heq => by cases heq) h
    exact absurd (hdirect.symm.trans hnone) (Option.some_ne_none _)
  | block c =>
    rw [Node.rest, valueAt_block] at hline
    exact absurd hline image_block
  | scalar g w e =>
    have hclose : quotesClose w = true := (Bool.and_eq_true_iff.mp himage).1
    obtain ⟨c, z, hz, hc⟩ := written_first hvalue hclose
    rw [Node.rest, valueAt_scalar hclose, hz] at hline
    obtain rfl := image_scalar hc hline (hz ▸ unquote_written himage)
    obtain ⟨hleft, hdone⟩ := hv n n _ t (Nat.le_refl n) hlegible (below_scalar hs (List.sublist_append_left _ _).length_le) h
    refine ⟨hleft.at (List.filter_eq_self.mpr hs.above), hdone.trans ?_⟩
    rw [← hpathWith]
    rfl

def isTracked (key : List Char) : Prop := key = REPOSITORY_KEY ∨ key = TAG_KEY

instance : Decidable (isTracked key) := inferInstanceAs (Decidable (_ ∨ _))

theorem assign_ok {index : Nat} {path : List Char} (hkey : isTracked key) (h : s.assign debug index path key value = .ok u) :
    value ≠ [] ∧ isBlockScalar value = false ∧ u = { s with references := s.references.modify index fun r =>
      if key = REPOSITORY_KEY then { r with repository := some (unquote value) } else { r with tag := some (unquote value) } } := by
  rw [ImageScanner.assign] at h
  split at h
  · exact absurd h nofun
  · rw [if_neg fun hne => hkey.elim hne.1 hne.2] at h
    dsimp only at h
    split at h
    · exact absurd h nofun
    · rename_i hvalue
      rw [not_or, not_or, Bool.not_eq_true] at hvalue
      refine ⟨hvalue.1, hvalue.2.1, ?_⟩
      split at h
      · exact absurd h nofun
      · rename_i x hx
        split at h
        · exact absurd h nofun
        · rw [← scalar_ok hx]
          exact (Except.ok.inj h).symm

theorem assigned_scalar {g : Gap} {w : Scalar []} {e : LineEnd} (hkey : isTracked k.text) :
    assigned loaded (.last k (.scalar g w e)) = fun r =>
      if k.text = REPOSITORY_KEY then { r with repository := some w.text } else { r with tag := some w.text } := by
  have hne : REPOSITORY_KEY ≠ TAG_KEY := by decide
  funext r
  rcases hkey with h | h
  · rw [assigned, lookup, lookup, h, if_pos rfl, if_neg hne, if_pos rfl, valueText, Option.some_or, Option.none_or]
  · rw [assigned, lookup, lookup, h, if_neg (Ne.symm hne), if_pos rfl, if_neg (Ne.symm hne), valueText, Option.some_or,
      Option.none_or]

theorem assigned_untracked (hkey : ¬ isTracked k.text) : assigned loaded (.last k v) = id := by
  rw [isTracked, not_or] at hkey
  funext r
  rw [assigned, lookup, lookup, if_neg hkey.1, if_neg hkey.2, Option.none_or, Option.none_or]
  rfl

theorem tracked_run {index : Nat} {path : List Char} (hv : NodeRun debug loaded v) (hs : Reading n s) (hkey : isTracked k.text)
    (hliteral : trackedLegible.scalarLiteral v = true)
    (hline : s.assign debug index path k.text (valueAt v.rest) = .ok u) (h : u.scanLines debug (v.under n n) = .ok t) :
    At (·.above n) n s.scopes t ∧ t.references = s.references.modify index (assigned loaded (.last k v)) ∧
      nodeImages loaded (keyPath (pathOf s.scopes) k.text) v = [] := by
  obtain ⟨hne, hblock, rfl⟩ := assign_ok hkey hline
  cases v with
  | null e | mapping e shift es | sequence e shift is => exact absurd (valueAt_ending _) hne
  | block c =>
    rw [Node.rest, valueAt_block, isBlockScalar_indicator] at hblock
    exact absurd hblock.symm Bool.false_ne_true
  | scalar g w e =>
    have hclose : quotesClose w = true := (Bool.and_eq_true_iff.mp hliteral).1
    obtain ⟨hleft, hdone⟩ := hv n n _ t (Nat.le_refl n) rfl (below_scalar hs (List.length_modify _ _ _).ge) h
    refine ⟨hleft.at (List.filter_eq_self.mpr hs.above), hdone.trans ?_, rfl⟩
    rw [assigned_scalar hkey, Node.rest, valueAt_scalar hclose, unquote_written hliteral]

theorem imageEntry_ok (h : s.imageEntry debug n key value = .ok u) :
    (∃ index, directImage s.scopes = some index ∧ isTracked key ∧ s.assign debug index s.path key value = .ok u) ∨
      ¬ isTracked key ∧ key ≠ IMAGE_KEY ∧ ImageScanner.imageEntry.untracked s n key value (s.pathWith key) = .ok u := by
  have huntracked (hu : ImageScanner.imageEntry.untracked s n key value (s.pathWith key) = .ok u) : key ≠ IMAGE_KEY := by
    rintro rfl
    rw [ImageScanner.imageEntry.untracked, if_pos rfl] at hu
    exact absurd hu nofun
  rw [ImageScanner.imageEntry] at h
  split at h
  · exact absurd h nofun
  · split at h
    · rename_i index hindex
      split at h
      · rename_i hkey
        exact .inl ⟨index, hindex, hkey, h⟩
      · rename_i hkey
        exact .inr ⟨hkey, huntracked h, h⟩
    · split at h
      · exact absurd h nofun
      · rename_i hkey
        exact .inr ⟨hkey, huntracked h, h⟩

theorem isImageKey_eq_false : isImageKey key = false ↔ key ≠ IMAGE_KEY ∧ ¬ isTracked key := by
  simp [isImageKey, isTracked]

theorem keyed_opened (hkey : isImageKey key = false) (hvalue : valueLegible v = true)
    (hline : s.keyed debug n key (valueAt v.rest) = .ok u) : u = opened s n key v := by
  obtain ⟨hne, htracked⟩ := isImageKey_eq_false.mp hkey
  rw [ImageScanner.keyed] at hline
  split at hline
  · rcases imageEntry_ok hline with ⟨-, -, h, -⟩ | ⟨-, -, h⟩
    · exact absurd h htracked
    · exact Except.ok.inj (h.symm.trans (untracked_opened hvalue hne))
  · exact Except.ok.inj (hline.symm.trans (entry_opened hvalue))

theorem entriesReferences_other (hkey : isImageKey k.text = false) : entriesReferences loaded S refs (.last k v) =
    refs ++ nodeImages loaded (keyPath (pathOf S) k.text) v := by
  obtain ⟨hne, htracked⟩ := isImageKey_eq_false.mp hkey
  rw [entriesReferences, entriesImages, if_neg hne, assigned_untracked htracked]
  cases directImage S with
  | none => rfl
  | some index => exact congrArg (· ++ nodeImages loaded (keyPath (pathOf S) k.text) v) (List.modify_id index refs)

/-- An entry under another key that opens no scope, however the key is spelled. -/
theorem leaf_run (hv : NodeRun debug loaded v) (hs : Reading n s) (hleaf : leafLegible k v = true) (hvalue : valueLegible v = true)
    (hline : s.Reads debug n k (valueAt v.rest) u) (h : u.scanLines debug (v.under n n) = .ok t) :
    At (·.above n) n s.scopes t ∧ t.references = entriesReferences loaded s.scopes s.references (.last k v) := by
  simp only [leafLegible, Bool.and_eq_true, Bool.not_eq_true'] at hleaf
  obtain ⟨⟨⟨-, htext⟩, hread⟩, hopens⟩ := hleaf
  rw [entriesReferences_other htext]
  have hopened : u = opened s n (keyRead k) v := by
    rcases hline with ⟨hempty, rfl⟩ | ⟨-, hkeyed⟩
    · cases v with
      | scalar g w e => rfl
      | block c => exact absurd hempty (of_decide_eq_true hopens)
      | null e | mapping e shift es | sequence e shift is => cases hopens
    · exact keyed_opened hread hvalue hkeyed
  rw [hopened] at h
  cases v with
  | scalar g w e => exact opened_run hv hs (fun _ hscalar => absurd rfl (hscalar g w e)) rfl h
  | block c => exact opened_run hv hs (fun hblock => absurd rfl (hblock c)) rfl h
  | null e | mapping e shift es | sequence e shift is => cases hopens

/-- An entry, from the scanner's reading of its key on. -/
theorem keyed_run (hv : NodeRun debug loaded v) (hs : Reading n s) (hkey : keyLegible k = true) (hvalue : valueLegible v = true)
    (himage : k.text ≠ IMAGE_KEY ∨ imageLegible v = true) (hnode : nodeLegible v = true)
    (htracked : directImage s.scopes ≠ none → trackedLegible (.last k v) = true)
    (hline : s.keyed debug n k.text (valueAt v.rest) = .ok u) (h : u.scanLines debug (v.under n n) = .ok t) :
    At (·.above n) n s.scopes t ∧ t.references = entriesReferences loaded s.scopes s.references (.last k v) := by
  obtain ⟨-, -, hsegment⟩ := keyLegible_iff.mp hkey
  rw [entriesReferences, entriesImages]
  rw [ImageScanner.keyed] at hline
  split at hline
  · rcases imageEntry_ok hline with ⟨index, hdirect, htrackedKey, hassign⟩ | ⟨hkeyTracked, hne, huntracked⟩
    · have hliteral : trackedLegible.scalarLiteral v = true := by
        have hor : trackedLegible (.last k v) = true := htracked (hdirect ▸ Option.some_ne_none index)
        rw [trackedLegible, Bool.or_eq_true, decide_eq_true_eq] at hor
        exact hor.resolve_left fun hboth => htrackedKey.elim hboth.1 hboth.2
      have hne : k.text ≠ IMAGE_KEY := by
        rcases htrackedKey with h | h <;> rw [h] <;> decide
      obtain ⟨hat, hrefs, hnil⟩ := tracked_run hv hs htrackedKey hliteral hassign h
      rw [hdirect, if_neg hne, hnil]
      exact ⟨hat, hrefs.trans (List.append_nil _).symm⟩
    · obtain rfl := Except.ok.inj ((untracked_opened hvalue hne).symm.trans huntracked)
      obtain ⟨hat, hrefs⟩ := opened_run hv hs (fun _ _ => hsegment) hnode h
      exact ⟨hat, hrefs.trans (entriesReferences_other (isImageKey_eq_false.mpr ⟨hne, hkeyTracked⟩)).symm⟩
  · rename_i hwithin
    rw [Bool.not_eq_true] at hwithin
    rw [directImage_outside hs.toSound hwithin]
    split at hline
    · rename_i himageKey
      rw [himageKey, if_pos rfl]
      exact image_run hv hs hvalue (himage.resolve_left fun hne => hne himageKey) hnode hline h
    · rename_i hne
      obtain rfl := Except.ok.inj ((entry_opened hvalue).symm.trans hline)
      rw [if_neg hne]
      exact opened_run hv hs (fun _ _ => hsegment) hnode h

end

end Claudear.Release
