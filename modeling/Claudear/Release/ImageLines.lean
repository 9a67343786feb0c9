import Claudear.Release.ImageDocuments

/-!
# Single lines of a values file

What the scanner makes of a comment, of a line inside a block scalar, of a line with a key
and of a line with a dash.
-/

namespace Claudear.Release

open Claudear.Text Claudear.Text.BlockYaml

variable {s t : ImageScanner} {debug : List Char → String} {l r w x y raw : List Char} {c : Char} {n i gap : Nat}
  {previous : Option Char} {next : List Char}

theorem isWhitespace_of_isBlank (h : isBlank c = true) : isWhitespace c = true := by
  rcases of_decide_eq_true h with rfl | rfl <;> decide

/-! ## Byte lengths -/

theorem byteLength_spaces : byteLength (spaces n) = n := by
  rw [byteLength, spaces, List.map_replicate, List.sum_replicate_nat]
  exact Nat.mul_one n

theorem mem_spaces (h : c ∈ spaces n) : c = ' ' := List.eq_of_mem_replicate h

theorem neutral_spaces : ∀ c ∈ spaces n, c ≠ '"' ∧ c ≠ '\'' ∧ c ≠ '#' := fun _ hc => mem_spaces hc ▸ by decide

theorem trimStart_spaces : trimStart (spaces n ++ l) = trimStart l :=
  dropWhile_append_of_forall fun c hc => by
    rw [mem_spaces hc]
    decide

/-! ## Comments -/

/-- What is left of `l` when its comment is stripped, in the middle of a line. -/
def stripFrom (previous : Option Char) (l : List Char) : List Char :=
  ((comments.splitUnquoted none previous l).map Prod.fst).getD l

theorem stripFrom_append (h : comments.NoStop r none previous l) (hclosed : comments.through none previous l = none) :
    stripFrom previous (l ++ r) = l ++ stripFrom (Quoting.lastOf previous l) r := by
  rw [stripFrom, Quoting.splitUnquoted_append h, hclosed, stripFrom]
  cases comments.splitUnquoted none (Quoting.lastOf previous l) r <;> rfl

theorem plain_of_neutral (h : c ≠ '"' ∧ c ≠ '\'' ∧ c ≠ '#') : comments.Plain c := by
  refine ⟨h.1, h.2.1, fun previous r => ?_⟩
  rw [comments, decide_eq_false_iff_not]
  exact fun hstop => h.2.2 hstop.1

theorem stripFrom_neutral (h : ∀ c ∈ l, c ≠ '"' ∧ c ≠ '\'' ∧ c ≠ '#') :
    stripFrom previous (l ++ r) = l ++ stripFrom (Quoting.lastOf previous l) r :=
  have hplain (c : Char) (hc : c ∈ l) : comments.Plain c := plain_of_neutral (h c hc)
  stripFrom_append (Quoting.noStop_of_plain hplain) (Quoting.through_of_plain hplain)

theorem stripFrom_char (h : c ≠ '"' ∧ c ≠ '\'' ∧ c ≠ '#') : stripFrom previous (c :: r) = c :: stripFrom (some c) r :=
  stripFrom_neutral (l := [c]) fun _ hd => List.mem_singleton.mp hd ▸ h

theorem neutral_of_isBlank (h : isBlank c = true) : c ≠ '"' ∧ c ≠ '\'' ∧ c ≠ '#' := by
  rcases of_decide_eq_true h with rfl | rfl <;> decide

theorem stripFrom_comment (h : previous.all isWhitespace = true) : stripFrom previous ('#' :: l) = [] := by
  rw [stripFrom, Quoting.splitUnquoted, if_pos ⟨rfl, decide_eq_true ⟨rfl, h⟩⟩]
  rfl

theorem lastOf_blanks (b : Blanks) (h : previous.all isWhitespace = true) :
    (Quoting.lastOf previous b.chars).all isWhitespace = true := by
  rcases eq_or_ne b.chars [] with hb | hb
  · rw [hb]
    exact h
  · rw [Quoting.lastOf_of_ne_nil hb]
    exact isWhitespace_of_isBlank (b.blank _ (List.getLast_mem hb))

theorem lastOf_gap (g : Gap) : (Quoting.lastOf previous g.chars).all isWhitespace = true := by
  rw [Quoting.lastOf_of_ne_nil g.nonempty]
  exact isWhitespace_of_isBlank (g.blank _ (List.getLast_mem g.nonempty))

theorem stripFrom_blanks (b : Blanks) : stripFrom previous (b.chars ++ r) = b.chars ++ stripFrom (Quoting.lastOf previous b.chars) r :=
  stripFrom_neutral fun c hc => neutral_of_isBlank (b.blank c hc)

theorem stripFrom_nil : stripFrom previous [] = [] := rfl

/-- Nothing but blanks is left of the end of a line. -/
theorem stripFrom_ending (e : Ending) : ∀ c ∈ stripFrom previous e.chars, isWhitespace c = true := by
  cases e with
  | blanks b =>
    have h : stripFrom previous (b.chars ++ []) = _ := stripFrom_blanks b
    rw [List.append_nil, stripFrom_nil, List.append_nil] at h
    rw [Ending.chars, h]
    exact fun c hc => isWhitespace_of_isBlank (b.blank c hc)
  | comment g text =>
    rw [Ending.chars, stripFrom_blanks, stripFrom_comment (lastOf_gap g), List.append_nil]
    exact fun c hc => isWhitespace_of_isBlank (g.blank c hc)

theorem stripFrom_noise (e : Noise) : ∀ c ∈ stripFrom none e.chars, isWhitespace c = true := by
  cases e with
  | blank b => exact stripFrom_ending (.blanks b)
  | comment b text =>
    rw [Noise.chars, stripFrom_blanks, stripFrom_comment (lastOf_blanks b rfl), List.append_nil]
    exact fun c hc => isWhitespace_of_isBlank (b.blank c hc)

theorem stripComment_eq : stripComment raw = stripFrom none raw := rfl

theorem line_noise (hflow : s.flow = none) (e : Noise) : s.line debug e.chars = .ok s := by
  have htrimmed : trimStart (trimEnd (stripComment e.chars)) = [] := by
    rw [trimEnd, stripComment_eq, List.rdropWhile_eq_nil_iff.mpr (stripFrom_noise e)]
    rfl
  simp only [ImageScanner.line, hflow, htrimmed, if_true]

/-! ## Indentation -/

theorem trimEnd_append_cons (hc : isWhitespace c = false) : trimEnd (x ++ c :: y) = x ++ c :: trimEnd y :=
  rdropWhile_append_cons hc

theorem byteLength_trimStart_le : byteLength (trimStart l) ≤ byteLength l := by
  conv_rhs => rw [← List.takeWhile_append_dropWhile (p := isWhitespace) (l := l), byteLength_append]
  exact Nat.le_add_left _ _

/-- A line inside a block scalar. -/
theorem line_block (hflow : s.flow = none) (hblock : s.block_scalar_indent = some i) (hi : i < n) :
    s.line debug (spaces n ++ l) = .ok s := by
  have hstrip : stripComment (spaces n ++ l) = spaces n ++ stripFrom (Quoting.lastOf none (spaces n)) l :=
    stripFrom_neutral fun c hc => by
      rw [mem_spaces hc]
      decide
  rw [ImageScanner.line, hstrip]
  generalize stripFrom (Quoting.lastOf none (spaces n)) l = z
  simp only [hflow, hblock, Option.any_some]
  rcases forall_or_first isWhitespace z with hz | ⟨a, c, b, rfl, ha, hc⟩
  · have hnil : trimEnd (spaces n ++ z) = trimEnd (spaces n) := rdropWhile_append_of_forall hz
    have hblank : trimStart (trimEnd (spaces n)) = [] := by
      rw [trimEnd, List.rdropWhile_eq_nil_iff.mpr fun c hc => mem_spaces hc ▸ by decide]
      rfl
    rw [hnil, hblank, if_pos rfl]
  · rw [← List.append_assoc, trimEnd_append_cons hc, List.append_assoc, trimStart_spaces]
    split
    · rfl
    · have hle := byteLength_trimStart_le (l := a ++ c :: trimEnd b)
      rw [if_pos]
      rw [decide_eq_true_eq, byteLength_append, byteLength_spaces]
      omega

theorem line_structural (hflow : s.flow = none) (hblock : s.block_scalar_indent.any (· < n) = false)
    (hcontent : trimEnd (stripComment raw) = spaces n ++ x) (hx : trimStart x = x) (hne : x ≠ []) : s.line debug raw =
      ({ s with block_scalar_indent := none } : ImageScanner).structural debug n x := by
  rw [ImageScanner.line, hcontent, trimStart_spaces, hx, byteLength_append, byteLength_spaces, Nat.add_sub_cancel]
  split
  · rename_i flow hsome
    exact absurd (hsome.symm.trans hflow) (Option.some_ne_none flow)
  · rw [if_neg hne, if_neg (Bool.eq_false_iff.mp hblock)]

/-! ## Scalars -/

/-- What the loops over a line need of a part of it. -/
structure Readable (r w : List Char) : Prop where
  nonempty : w ≠ []
  edged : Edged isWhitespace w
  uncommented : ∀ previous r', previous.all isWhitespace = true → comments.NoStop r' none previous w
  closed : ∀ previous, previous.all isWhitespace = true → comments.through none previous w = none
  keyless : ∀ previous, previous.all isWhitespace = true → colons.NoStop r none previous w

theorem through_comments {quote : Option Char} : comments.through quote previous l = colons.through quote previous l := by
  induction l generalizing quote previous with
  | nil => rfl
  | cons c l ih => exact ih

theorem opensQuote_of_whitespace (h : previous.all isWhitespace = true) : opensQuote previous = true := by
  cases previous with
  | none => rfl
  | some c => exact decide_eq_true (.inl h)

theorem through_previous (h : opensQuote previous = true) : comments.through none previous l = comments.through none none l := by
  cases l with
  | nil => rfl
  | cons c l =>
    have hopens : comments.opens previous = comments.opens none := h
    have hafter : comments.after none previous c = comments.after none none c := by
      rw [Quoting.after, Quoting.after, hopens]
    rw [Quoting.through, hafter, Quoting.through]

section
variable {text : List Char} {u v : List Char} {d : Char}

theorem not_whitespace (hspace : ∀ c ∈ text, isWhitespace c = true → isBlank c = true) (hd : d ∈ text)
    (hblank : isBlank d = false) : isWhitespace d = false := by
  by_contra hw
  rw [hspace d hd (by simpa using hw)] at hblank
  exact Bool.false_ne_true hblank.symm

theorem readable_plain (h : Plain next text)
    (hspace : ∀ c ∈ text, isWhitespace c = true → isBlank c = true) (hclosed : colons.through none none text = none)
    (hnext : ∀ d ∈ next.head?, isBlank d = false → r.head? = some d ∧ isWhitespace d = false) : Readable r text where
  nonempty := h.nonempty
  edged := ⟨fun c hc => not_whitespace hspace (List.mem_of_mem_head? hc) (h.edged.1 c hc),
    fun c hc => not_whitespace hspace (List.mem_of_mem_getLast? hc) (h.edged.2 c hc)⟩
  uncommented := fun previous r' hp => Quoting.noStop_of_stop_false fun u c v ht => by
    rw [comments, decide_eq_false_iff_not]
    rintro ⟨rfl, hw⟩
    obtain ⟨d, hd, hblank⟩ := h.comment u v ht
    have hlast : Quoting.lastOf previous u = some d := by rw [Quoting.lastOf, hd, Option.some_or]
    have hmem : d ∈ text := ht ▸ List.mem_append_left _ (List.mem_of_mem_getLast? hd)
    rw [hlast, Option.all_some, not_whitespace hspace hmem hblank] at hw
    exact Bool.false_ne_true hw
  closed := fun previous hp => by
    rw [through_previous (opensQuote_of_whitespace hp), through_comments, hclosed]
  keyless := fun _ _ => Quoting.noStop_of_stop_false fun u c v ht => by
    rw [colons, decide_eq_false_iff_not]
    rintro ⟨rfl, hw⟩
    obtain ⟨d, hd, hblank⟩ := h.colon u v ht
    cases v with
    | nil =>
      obtain ⟨hr, hspace'⟩ := hnext d hd hblank
      rw [List.nil_append, hr, Option.all_some, hspace'] at hw
      exact Bool.false_ne_true hw
    | cons e v =>
      obtain rfl : e = d := Option.some.inj hd
      have hmem : e ∈ text := ht ▸ List.mem_append_right u (List.mem_cons_of_mem _ List.mem_cons_self)
      rw [List.cons_append, List.head?_cons, Option.all_some, not_whitespace hspace hmem hblank] at hw
      exact Bool.false_ne_true hw

theorem readable_enclosed {m : Char} (hm : m = '"' ∨ m = '\'') (h : m ∉ w) : Readable r (m :: (w ++ [m])) := by
  have hspace : isWhitespace m = false := by rcases hm with rfl | rfl <;> decide
  have hcomment (p : Option Char) (r : List Char) : comments.stop p m r = false := by
    rcases hm with rfl | rfl <;> rfl
  have hcolon (p : Option Char) (r : List Char) : colons.stop p m r = false := by
    rcases hm with rfl | rfl <;> rfl
  refine ⟨List.cons_ne_nil _ _, ⟨fun c hc => ?_, fun c hc => ?_⟩, fun previous r' hp => ?_, fun previous hp => ?_,
    fun previous hp => ?_⟩
  · obtain rfl : m = c := Option.some.inj hc
    exact hspace
  · rw [← List.cons_append, List.getLast?_concat] at hc
    obtain rfl : m = c := Option.some.inj hc
    exact hspace
  · exact (Quoting.noStop_enclosed hm (opensQuote_of_whitespace hp) hcomment h).1
  · exact (Quoting.noStop_enclosed (r := []) hm (opensQuote_of_whitespace hp) hcomment h).2
  · exact (Quoting.noStop_enclosed hm (opensQuote_of_whitespace hp) hcolon h).1

end

theorem not_mem_escapeDouble {l : List Char} (h : '"' ∉ l) : '"' ∉ l.flatMap Scalar.escapeDouble := by
  rw [List.mem_flatMap]
  rintro ⟨c, hc, hmem⟩
  unfold Scalar.escapeDouble at hmem
  split at hmem
  · rename_i hor
    rcases hor with rfl | rfl
    · exact h hc
    · revert hmem
      decide
  · exact h (List.mem_singleton.mp hmem ▸ hc)

theorem flatMap_eq_self {f : Char → List Char} {l : List Char} (h : ∀ c ∈ l, f c = [c]) : l.flatMap f = l := by
  rw [List.flatMap_congr h, List.flatMap_singleton']

theorem escapeSingle_eq {l : List Char} (h : '\'' ∉ l) : l.flatMap Scalar.escapeSingle = l :=
  flatMap_eq_self fun _ hc => if_neg fun (heq : _ = '\'') => h (heq ▸ hc)

theorem escapeDouble_eq {l : List Char} (hm : '"' ∉ l) (hb : '\\' ∉ l) : l.flatMap Scalar.escapeDouble = l :=
  flatMap_eq_self fun _ hc => if_neg fun heq => heq.elim (fun h => hm (h ▸ hc)) fun h => hb (h ▸ hc)

theorem readable_written {s : Scalar next} (h : quotesClose s = true)
    (hnext : ∀ d ∈ next.head?, isBlank d = false → r.head? = some d ∧ isWhitespace d = false) : Readable r s.written := by
  cases s with
  | plain t hp =>
    simp only [quotesClose, Bool.and_eq_true, decide_eq_true_eq, List.all_eq_true, Bool.or_eq_true,
      Bool.not_eq_true'] at h
    refine readable_plain hp (fun c hc hw => (h.1 c hc).resolve_left ?_) h.2 hnext
    rw [hw]
    exact nofun
  | double t => exact readable_enclosed (.inl rfl) (not_mem_escapeDouble (of_decide_eq_true h))
  | single t =>
    rw [Scalar.written, escapeSingle_eq (of_decide_eq_true h)]
    exact readable_enclosed (.inr rfl) (of_decide_eq_true h)

theorem unquote_enclosed {m : Char} (hm : m = '"' ∨ m = '\'') : unquote (m :: (w ++ [m])) = w := by
  rcases hm with rfl | rfl <;> simp [unquote, unquote.enclosed]

theorem unquote_plain (h : Plain next w) : unquote w = w := by
  have hfirst {q : Char} (hq : q ∈ indicators) (hd : ¬ (q = '-' ∨ q = '?' ∨ q = ':')) : unquote.enclosed w q = none := by
    cases w with
    | nil => rfl
    | cons c rest =>
      refine if_neg ?_
      rintro ⟨rfl, -⟩
      rcases h.first c rest rfl with hc | ⟨hc, -⟩
      · exact hc hq
      · exact hd hc
  rw [unquote, hfirst (q := '"') (by decide) (by decide), hfirst (q := '\'') (by decide) (by decide)]
  rfl

theorem unquote_written {s : Scalar next} (h : literal s = true) : unquote s.written = s.text := by
  cases s with
  | plain t hp => exact unquote_plain hp
  | double t =>
    simp only [literal, quotesClose, Bool.and_eq_true, decide_eq_true_eq] at h
    rw [Scalar.written, escapeDouble_eq h.1 h.2, unquote_enclosed (.inl rfl)]
    rfl
  | single t =>
    simp only [literal, quotesClose, Bool.and_eq_true, decide_eq_true_eq] at h
    rw [Scalar.written, escapeSingle_eq h.1, unquote_enclosed (.inr rfl)]
    rfl

/-! ## Keys -/

theorem stripFrom_prefix : stripFrom previous l <+: l := by
  rw [stripFrom]
  cases hsplit : comments.splitUnquoted none previous l with
  | none => exact List.prefix_rfl
  | some p =>
    obtain ⟨c, hc⟩ := Quoting.splitUnquoted_eq_some hsplit
    exact ⟨_, hc.symm⟩

theorem head_whitespace (h : r.head?.all isWhitespace = true) :
    (trimEnd (stripFrom previous r)).head?.all isWhitespace = true := by
  obtain ⟨v, hv⟩ : trimEnd (stripFrom previous r) <+: r := (List.rdropWhile_prefix _ _).trans stripFrom_prefix
  cases hy : trimEnd (stripFrom previous r) with
  | nil => rfl
  | cons c y =>
    rw [← hv, hy] at h
    exact h

section
variable {k : Key}

theorem key_next : ∀ d ∈ (k.before.chars ++ [':']).head?, isBlank d = false →
    (k.before.chars ++ ':' :: y).head? = some d ∧ isWhitespace d = false := by
  intro d hd hblank
  cases hb : k.before.chars with
  | nil =>
    rw [hb] at hd
    obtain rfl : ':' = d := Option.some.inj hd
    exact ⟨rfl, by decide⟩
  | cons c b =>
    rw [hb] at hd
    obtain rfl : c = d := Option.some.inj hd
    rw [k.before.blank c (hb ▸ List.mem_cons_self)] at hblank
    exact absurd hblank.symm Bool.false_ne_true

theorem keyLegible_iff : keyLegible k = true ↔ literal k.scalar = true ∧ k.text ≠ [] ∧ k.text ≠ LIST_ITEM_SEGMENT := by
  rw [keyLegible, Bool.and_eq_true, Bool.and_eq_true, decide_eq_true_eq, decide_eq_true_eq, and_assoc]

theorem keyRead_of_literal (h : literal k.scalar = true) : keyRead k = k.text := unquote_written h

theorem readable_key (h : quotesClose k.scalar = true) : Readable (k.before.chars ++ ':' :: y) k.scalar.written :=
  readable_written h key_next

theorem colons_plain (h : isBlank c = true) : colons.Plain c := by
  rcases of_decide_eq_true h with rfl | rfl <;> exact ⟨by decide, by decide, fun _ _ => rfl⟩

theorem splitKey_key (h : quotesClose k.scalar = true) (hy : y.head?.all isWhitespace = true) :
    splitKey (k.chars ++ ':' :: y) = if keyRead k = [] then none else some (keyRead k, trimMatches isWhitespace y) := by
  have hread := readable_key (y := y) h
  have hclosed : colons.through none none k.scalar.written = none := through_comments ▸ hread.closed none rfl
  have hbefore (c : Char) (hc : c ∈ k.before.chars) : colons.Plain c := colons_plain (k.before.blank c hc)
  have hthrough : colons.through none none k.chars = none := by
    rw [Key.chars, Quoting.through_append, hclosed, Quoting.through_of_plain hbefore]
  have hstop : colons.NoStop (':' :: y) none none k.chars := by
    rw [Key.chars, Quoting.noStop_append, hclosed]
    exact ⟨hread.keyless none rfl, Quoting.noStop_of_plain hbefore⟩
  have htrim : trimMatches isWhitespace k.chars = k.scalar.written :=
    trimMatches_padded (x := []) nofun hread.edged fun c hc => isWhitespace_of_isBlank (k.before.blank c hc)
  rw [splitKey, Quoting.splitUnquoted_append hstop, hthrough, Quoting.splitUnquoted, if_pos ⟨rfl, decide_eq_true ⟨rfl, hy⟩⟩]
  simp only [Option.map_some, Prod.map, List.append_nil, Option.bind_some, htrim]
  rfl

theorem stripFrom_key (h : quotesClose k.scalar = true) (hp : previous.all isWhitespace = true) :
    stripFrom previous (k.chars ++ ':' :: r) = k.chars ++ ':' :: stripFrom (some ':') r := by
  have hread := readable_key (y := r) h
  rw [Key.chars, List.append_assoc, stripFrom_append (hread.uncommented _ _ hp) (hread.closed _ hp), stripFrom_blanks,
    List.append_assoc]
  exact congrArg (fun z => k.scalar.written ++ (k.before.chars ++ z)) (stripFrom_char (by decide))

/-- The key starts the entry: it is no dash and is not indented. -/
theorem head_written (h : Readable r w) : ∃ c v, w = c :: v ∧ isWhitespace c = false := by
  cases w with
  | nil => exact absurd rfl h.nonempty
  | cons c v => exact ⟨c, v, rfl, h.edged.1 c rfl⟩

theorem trimStart_of_head (h : isWhitespace c = false) : trimStart (c :: l) = c :: l :=
  List.dropWhile_cons_of_neg (by simp [h])

theorem trimStart_key (h : quotesClose k.scalar = true) : trimStart (k.chars ++ ':' :: y) = k.chars ++ ':' :: y := by
  obtain ⟨c, v, hw, hc⟩ := head_written (readable_key (y := y) h)
  rw [Key.chars, hw]
  exact trimStart_of_head hc

theorem isListItem_cons : isListItem (c :: l) = true ↔ c = '-' ∧ (l = [] ∨ l.head? = some ' ') := by
  have hhead : [' '] <+: l ↔ l.head? = some ' ' := by
    cases l with
    | nil => simp
    | cons d l => simp [List.cons_prefix_cons, eq_comm]
  rw [isListItem, decide_eq_true_eq, List.cons_prefix_cons, List.cons_eq_cons, hhead, eq_comm (a := '-'), and_or_left]

theorem isListItem_written {w : Scalar next}
    (hnext : ∀ d ∈ next.head?, isBlank d = false → r.head? = some d ∧ isWhitespace d = false) : isListItem (w.written ++ r) = false := by
  by_contra hitem
  rw [Bool.not_eq_false] at hitem
  cases w with
  | double t | single t => exact absurd (isListItem_cons.mp hitem).1 (by decide)
  | plain t hp =>
    obtain ⟨c, rest, ht⟩ : ∃ c rest, t.chars = c :: rest := List.exists_cons_of_ne_nil hp.nonempty
    simp only [Scalar.written, ht, List.cons_append] at hitem
    obtain ⟨rfl, hrest⟩ := isListItem_cons.mp hitem
    obtain ⟨d, hd, hblank⟩ := ((hp.first '-' rest ht).resolve_left (by decide)).2
    have hhead : (rest ++ r).head? = some d := by
      cases rest with
      | nil => exact (hnext d hd hblank).1
      | cons e rest => exact hd
    rcases hrest with hnil | hspace
    · rw [hnil] at hhead
      exact absurd hhead.symm (Option.some_ne_none d)
    · obtain rfl : ' ' = d := Option.some.inj (hspace.symm.trans hhead)
      exact absurd hblank (by decide)

theorem isListItem_key : isListItem (k.chars ++ ':' :: y) = false := by
  rw [Key.chars, List.append_assoc]
  exact isListItem_written key_next

theorem mem_colon_key : ':' ∈ k.chars ++ ':' :: y := List.mem_append_right _ List.mem_cons_self

/-- The state in which an entry at column `n` is read. -/
def ImageScanner.at (s : ImageScanner) (n : Nat) : ImageScanner :=
  { s with block_scalar_indent := none, scopes := s.scopes.filter (·.above n) }

theorem of_entryText_none {entry : List Char} (hentry : splitKey entry = none) (h : s.entryText debug n entry = .ok t) :
    t = s := by
  rw [ImageScanner.entryText, hentry] at h
  dsimp only at h
  split at h
  · exact absurd h nofun
  · exact (Except.ok.inj h).symm

/-- A key and its value are read: nothing happens when the key reads as empty. -/
def ImageScanner.Reads (s : ImageScanner) (debug : List Char → String) (n : Nat) (k : Key) (value : List Char) (t : ImageScanner) : Prop :=
  keyRead k = [] ∧ t = s ∨ keyRead k ≠ [] ∧ s.keyed debug n (keyRead k) value = .ok t

theorem reads_of_entryText (hk : quotesClose k.scalar = true) (hr : r.head?.all isWhitespace = true)
    (h : s.entryText debug n (k.chars ++ ':' :: trimEnd (stripFrom (some ':') r)) = .ok t) :
    s.Reads debug n k (trimMatches isWhitespace (stripFrom (some ':') r)) t := by
  have hy : (trimEnd (stripFrom (some ':') r)).head?.all isWhitespace = true := head_whitespace hr
  have hsplit := splitKey_key hk hy
  by_cases hempty : keyRead k = []
  · exact .inl ⟨hempty, of_entryText_none (hsplit.trans (if_pos hempty)) h⟩
  · rw [ImageScanner.entryText, hsplit, if_neg hempty, trimEnd, trimMatches_rdropWhile] at h
    exact .inr ⟨hempty, h⟩

theorem of_line_key (hflow : s.flow = none) (hblock : s.block_scalar_indent.any (· < n) = false) (hk : quotesClose k.scalar = true)
    (hr : r.head?.all isWhitespace = true) (h : s.line debug (spaces n ++ k.chars ++ ':' :: r) = .ok t) :
    (s.at n).Reads debug n k (trimMatches isWhitespace (stripFrom (some ':') r)) t := by
  have hlast : (Quoting.lastOf none (spaces n)).all isWhitespace = true :=
    lastOf_blanks ⟨spaces n, fun c hc => mem_spaces hc ▸ rfl⟩ rfl
  have hstrip : stripComment (spaces n ++ k.chars ++ ':' :: r) = spaces n ++ k.chars ++ ':' :: stripFrom (some ':') r := by
    rw [stripComment_eq, List.append_assoc, stripFrom_neutral neutral_spaces, stripFrom_key hk hlast, List.append_assoc]
  have hcontent : trimEnd (stripComment (spaces n ++ k.chars ++ ':' :: r)) =
      spaces n ++ (k.chars ++ ':' :: trimEnd (stripFrom (some ':') r)) := by
    rw [hstrip, trimEnd_append_cons (by decide), List.append_assoc]
  have hcolon := mem_colon_key (k := k) (y := trimEnd (stripFrom (some ':') r))
  have hmark : ¬ (k.chars ++ ':' :: trimEnd (stripFrom (some ':') r) = "---".toList ∨
      k.chars ++ ':' :: trimEnd (stripFrom (some ':') r) = "...".toList) := by
    rintro (h | h)
    · exact absurd (h ▸ hcolon) (by decide)
    · exact absurd (h ▸ hcolon) (by decide)
  rw [line_structural hflow hblock hcontent (trimStart_key hk) (List.ne_nil_of_mem hcolon), ImageScanner.structural,
    if_neg hmark, isListItem_key, if_neg Bool.false_ne_true] at h
  exact reads_of_entryText hk hr h

end

/-! ## Dashes -/

theorem trimEnd_scalar {g : Gap} {e : Ending} (h : Readable [] w) :
    trimEnd (stripFrom previous (g.chars ++ w ++ e.chars)) = g.chars ++ w := by
  rw [List.append_assoc, stripFrom_blanks, stripFrom_append (h.uncommented _ _ (lastOf_gap g)) (h.closed _ (lastOf_gap g)),
    ← List.append_assoc, trimEnd, rdropWhile_append_of_forall (stripFrom_ending e)]
  refine rdropWhile_eq_self fun d hd => h.edged.2 d ?_
  rwa [List.getLast?_append_of_ne_nil _ h.nonempty] at hd

/-- The state below a dash at column `i`. -/
def ImageScanner.item (s : ImageScanner) (i : Nat) : ImageScanner :=
  ImageScanner.open' { s with block_scalar_indent := none, scopes := s.scopes.filter (·.holdsItem i) } i LIST_ITEM_SEGMENT none

/-- The dash does not belong to an `image` key. -/
def ImageScanner.NoImage (s : ImageScanner) (i : Nat) : Prop :=
  (s.scopes.filter (·.holdsItem i)).getLast?.any (·.image.isSome) = false

section
variable (hflow : s.flow = none) (hblock : s.block_scalar_indent.any (· < i) = false)
include hflow hblock

theorem line_dash (hy : trimEnd (stripFrom (some '-') r) = y) (hstart : y = [] ∨ y.head? = some ' ') :
    s.line debug (spaces i ++ '-' :: r) = ({ s with block_scalar_indent := none } : ImageScanner).listItem debug i ('-' :: y) := by
  have hstrip : stripFrom (Quoting.lastOf none (spaces i)) ('-' :: r) = '-' :: stripFrom (some '-') r :=
    stripFrom_char (by decide)
  have hcontent : trimEnd (stripComment (spaces i ++ '-' :: r)) = spaces i ++ '-' :: y := by
    rw [stripComment_eq, stripFrom_neutral neutral_spaces, hstrip, trimEnd_append_cons (by decide), hy]
  have hmark : ¬ ('-' :: y = "---".toList ∨ '-' :: y = "...".toList) := by
    rintro (h | h)
    · obtain rfl : y = "--".toList := (List.cons.inj h).2
      exact absurd hstart (by decide)
    · exact absurd (List.cons.inj h).1 (by decide)
  rw [line_structural hflow hblock hcontent (trimStart_of_head (by decide)) (List.cons_ne_nil _ _),
    ImageScanner.structural, if_neg hmark, isListItem_cons.mpr ⟨rfl, hstart⟩, if_pos rfl]

theorem of_line_dash (hy : trimEnd (stripFrom (some '-') r) = y) (hstart : y = [] ∨ y.head? = some ' ')
    (h : s.line debug (spaces i ++ '-' :: r) = .ok t) : s.NoImage i ∧
      (if trimStart y = [] then .ok (s.item i)
      else (s.item i).entryText debug (i + (byteLength ('-' :: y) - byteLength (trimStart y))) (trimStart y)) = .ok t := by
  rw [line_dash hflow hblock hy hstart, ImageScanner.listItem] at h
  split at h
  · exact absurd h nofun
  · rename_i hnone
    exact ⟨Bool.eq_false_iff.mpr hnone, h⟩

/-- A dash with nothing after it. -/
theorem of_line_dash_end {e : Ending} (h : s.line debug (spaces i ++ '-' :: e.chars) = .ok t) :
    s.NoImage i ∧ t = s.item i := by
  have hy : trimEnd (stripFrom (some '-') e.chars) = [] := List.rdropWhile_eq_nil_iff.mpr (stripFrom_ending e)
  obtain ⟨hnone, ht⟩ := of_line_dash hflow hblock hy (.inl rfl) h
  exact ⟨hnone, (Except.ok.inj ht).symm⟩

/-- A dash before a text in which no key is read. -/
theorem of_line_dash_text (hy : trimEnd (stripFrom (some '-') r) = y) (hstart : y.head? = some ' ') (hw : trimStart y = w)
    (hne : w ≠ []) (hnokey : splitKey w = none) (h : s.line debug (spaces i ++ '-' :: r) = .ok t) : s.NoImage i ∧ t = s.item i := by
  obtain ⟨hnone, ht⟩ := of_line_dash hflow hblock hy (.inr hstart) h
  rw [hw, if_neg hne] at ht
  exact ⟨hnone, of_entryText_none hnokey ht⟩

theorem of_line_dash_scalar {g : Gap} {v : Scalar []} {e : Ending} (hg : g.chars.head? = some ' ') (hv : quotesClose v = true)
    (h : s.line debug (spaces i ++ '-' :: (g.chars ++ v.written ++ e.chars)) = .ok t) : s.NoImage i ∧ t = s.item i := by
  have hread : Readable [] v.written := readable_written hv nofun
  obtain ⟨c, w, hw, hc⟩ := head_written hread
  have hstart : (g.chars ++ v.written).head? = some ' ' := by rw [List.head?_append, hg]; rfl
  have hitem : trimStart (g.chars ++ v.written) = v.written := by
    rw [trimStart, dropWhile_append_of_forall fun d hd => isWhitespace_of_isBlank (g.blank d hd), hw]
    exact trimStart_of_head hc
  have hnokey : splitKey v.written = none := by
    rw [splitKey, Quoting.splitUnquoted_eq_none (hread.keyless none rfl)]
    rfl
  exact of_line_dash_text hflow hblock (trimEnd_scalar hread) hstart hitem hread.nonempty hnokey h

/-- A second dash on the line. -/
theorem of_line_dashes {v : Node} (hv : textOnly (.node v) = true)
    (h : s.line debug (spaces i ++ '-' :: (spaces (gap + 1) ++ '-' :: v.rest)) = .ok t) : s.NoImage i ∧ t = s.item i := by
  have hdash (z : List Char) : stripFrom (Quoting.lastOf (some '-') (spaces (gap + 1))) ('-' :: z) = '-' :: stripFrom (some '-') z :=
    stripFrom_char (by decide)
  have hy : trimEnd (stripFrom (some '-') (spaces (gap + 1) ++ '-' :: v.rest)) =
      spaces (gap + 1) ++ '-' :: trimEnd (stripFrom (some '-') v.rest) := by
    rw [stripFrom_neutral neutral_spaces, hdash, trimEnd_append_cons (by decide)]
  have hitem : trimStart (spaces (gap + 1) ++ '-' :: trimEnd (stripFrom (some '-') v.rest)) =
      '-' :: trimEnd (stripFrom (some '-') v.rest) := by
    rw [trimStart_spaces]
    exact trimStart_of_head (by decide)
  refine of_line_dash_text hflow hblock hy rfl hitem (List.cons_ne_nil _ _) ?_ h
  cases v with
  | null e =>
    have hnil : trimEnd (stripFrom (some '-') e.ending.chars) = [] := List.rdropWhile_eq_nil_iff.mpr (stripFrom_ending e.ending)
    rw [Node.rest, hnil]
    rfl
  | scalar g w e =>
    rw [textOnly, itemStarts, Bool.and_eq_true] at hv
    have hread : Readable [] w.written := readable_written hv.2 nofun
    have hplain : ∀ c ∈ '-' :: g.chars, colons.Plain c :=
      List.forall_mem_cons.mpr ⟨⟨by decide, by decide, fun _ _ => rfl⟩, fun c hc => colons_plain (g.blank c hc)⟩
    have hstop : colons.NoStop [] none none ('-' :: (g.chars ++ w.written)) := by
      rw [← List.cons_append, Quoting.noStop_append, Quoting.through_of_plain hplain, Quoting.lastOf_cons]
      exact ⟨Quoting.noStop_of_plain hplain, hread.keyless _ (lastOf_gap g)⟩
    rw [Node.rest, trimEnd_scalar hread, splitKey, Quoting.splitUnquoted_eq_none hstop]
    rfl
  | block c | mapping e shift es | sequence e shift is => exact absurd hv Bool.false_ne_true

/-- The first key of a mapping that starts on the line of the dash. -/
theorem of_line_dash_key {k : Key} (hk : quotesClose k.scalar = true) (hr : r.head?.all isWhitespace = true)
    (h : s.line debug (spaces i ++ '-' :: (spaces (gap + 1) ++ k.chars ++ ':' :: r)) = .ok t) : s.NoImage i ∧
      (s.item i).Reads debug (i + 1 + (gap + 1)) k (trimMatches isWhitespace (stripFrom (some ':') r)) t := by
  have hlast : (Quoting.lastOf (some '-') (spaces (gap + 1))).all isWhitespace = true :=
    lastOf_gap ⟨⟨spaces (gap + 1), fun c hc => mem_spaces hc ▸ rfl⟩, List.cons_ne_nil _ _⟩
  have hy : trimEnd (stripFrom (some '-') (spaces (gap + 1) ++ k.chars ++ ':' :: r)) =
      spaces (gap + 1) ++ (k.chars ++ ':' :: trimEnd (stripFrom (some ':') r)) := by
    rw [List.append_assoc, stripFrom_neutral neutral_spaces, stripFrom_key hk hlast, ← List.append_assoc,
      trimEnd_append_cons (by decide), List.append_assoc]
  obtain ⟨hnone, ht⟩ := of_line_dash hflow hblock hy (.inr rfl) h
  have hcolon := mem_colon_key (k := k) (y := trimEnd (stripFrom (some ':') r))
  have hlength (z : List Char) : byteLength ('-' :: (spaces (gap + 1) ++ z)) - byteLength z = 1 + (gap + 1) := by
    rw [← List.singleton_append, byteLength_append, byteLength_append, byteLength_spaces, ← Nat.add_assoc,
      Nat.add_sub_cancel]
    rfl
  rw [trimStart_spaces, trimStart_key hk, if_neg (List.ne_nil_of_mem hcolon), hlength, ← Nat.add_assoc] at ht
  exact ⟨hnone, reads_of_entryText hk hr ht⟩

end

/-! ## Values -/

/-- What is read after the colon. -/
def valueAt (rest : List Char) : List Char := trimMatches isWhitespace (stripFrom (some ':') rest)

theorem head_gap (g : Gap) : (g.chars ++ l).head?.all isWhitespace = true := by
  obtain ⟨c, b, hb⟩ := List.exists_cons_of_ne_nil g.nonempty
  rw [hb]
  exact isWhitespace_of_isBlank (g.blank c (hb ▸ List.mem_cons_self))

theorem head_ending (e : Ending) : e.chars.head?.all isWhitespace = true := by
  cases e with
  | comment g text => exact head_gap g
  | blanks b =>
    cases hb : b.chars with
    | nil => rw [Ending.chars, hb]; rfl
    | cons c l =>
      rw [Ending.chars, hb]
      exact isWhitespace_of_isBlank (b.blank c (hb ▸ List.mem_cons_self))

theorem head_rest (v : Node) : v.rest.head?.all isWhitespace = true := by
  cases v with
  | null e | mapping e shift es | sequence e shift is => exact head_ending _
  | scalar g s e =>
    rw [Node.rest, List.append_assoc]
    exact head_gap g
  | block b =>
    rw [Node.rest, BlockScalar.rest, List.append_assoc]
    exact head_gap b.gap

theorem valueAt_ending (e : Ending) : valueAt e.chars = [] := by
  rw [valueAt, trimMatches, List.dropWhile_eq_nil_iff.mpr (stripFrom_ending e)]
  rfl

theorem valueAt_padded {g : Gap} {e : Ending} (hw : Edged isWhitespace w)
    (hstop : ∀ previous r, previous.all isWhitespace = true → comments.NoStop r none previous w ∧ comments.through none previous w = none) :
    valueAt (g.chars ++ w ++ e.chars) = w := by
  obtain ⟨hnostop, hclosed⟩ := hstop _ e.chars (lastOf_gap g)
  rw [valueAt, List.append_assoc, stripFrom_blanks, stripFrom_append hnostop hclosed, ← List.append_assoc]
  exact trimMatches_padded (fun c hc => isWhitespace_of_isBlank (g.blank c hc)) hw (stripFrom_ending e)

theorem valueAt_scalar {g : Gap} {v : Scalar []} {e : Ending} (hv : quotesClose v = true) :
    valueAt (g.chars ++ v.written ++ e.chars) = v.written :=
  have hread : Readable [] v.written := readable_written hv nofun
  valueAt_padded hread.edged fun previous r hp => ⟨hread.uncommented previous r hp, hread.closed previous hp⟩

theorem indicator_chars (b : BlockScalar) : ∀ c ∈ b.indicator, c = '|' ∨ c = '>' ∨ c = '-' ∨ c = '+' ∨ c.isDigit := by
  intro c hc
  rcases List.mem_cons.mp hc with rfl | hc
  · split <;> decide
  · exact .inr (.inr (b.header_chars c hc))

theorem neutral_of_isDigit (h : c.isDigit = true) : c ≠ '"' ∧ c ≠ '\'' ∧ c ≠ '#' ∧ isWhitespace c = false := by
  have hrange : 48 ≤ c.toNat ∧ c.toNat ≤ 57 := by simpa [Char.isDigit, UInt32.le_iff_toNat_le] using h
  refine ⟨?_, ?_, ?_, ?_⟩
  · rintro rfl
    exact absurd h (by decide)
  · rintro rfl
    exact absurd h (by decide)
  · rintro rfl
    exact absurd h (by decide)
  · rw [isWhitespace, List.any_eq_false]
    intro w hw
    rw [decide_eq_true_eq]
    simp only [whiteSpaceRanges, List.mem_cons, List.not_mem_nil, or_false] at hw
    rcases hw with rfl | rfl | rfl | rfl | rfl | rfl | rfl | rfl | rfl | rfl <;> simp only [] <;> omega

theorem neutral_indicator (b : BlockScalar) : ∀ c ∈ b.indicator, c ≠ '"' ∧ c ≠ '\'' ∧ c ≠ '#' ∧ isWhitespace c = false := by
  intro c hc
  rcases indicator_chars b c hc with rfl | rfl | rfl | rfl | hc
  · decide
  · decide
  · decide
  · decide
  · exact neutral_of_isDigit hc

theorem valueAt_block (b : BlockScalar) : valueAt b.rest = b.indicator := by
  have hplain (c : Char) (hc : c ∈ b.indicator) : comments.Plain c :=
    let ⟨h1, h2, h3, _⟩ := neutral_indicator b c hc
    plain_of_neutral ⟨h1, h2, h3⟩
  exact valueAt_padded (edged_of_forall fun c hc => (neutral_indicator b c hc).2.2.2) fun previous r _ =>
    ⟨Quoting.noStop_of_plain hplain, Quoting.through_of_plain hplain⟩

theorem isBlockScalar_indicator (b : BlockScalar) : isBlockScalar b.indicator = true := by
  have hall : (b.header.all fun d => d = '-' ∨ d = '+' ∨ d.isDigit) = true :=
    List.all_eq_true.mpr fun c hc => decide_eq_true (b.header_chars c hc)
  rw [BlockScalar.indicator, isBlockScalar, hall, Bool.and_true]
  split <;> rfl

theorem stripFrom_cons (hc : c ≠ '#') : ∃ z, stripFrom previous (c :: l) = c :: z := by
  rw [stripFrom, Quoting.splitUnquoted, if_neg fun h => hc (of_decide_eq_true h.2).1]
  cases comments.splitUnquoted (comments.after none previous c) (some c) l with
  | none => exact ⟨l, rfl⟩
  | some p => exact ⟨p.1, rfl⟩

/-- First characters of values that are neither plain nor quoted. -/
def special : List Char := ['&', '*', '|', '>', '{', '[']

theorem special_subset : special ⊆ indicators := by decide

theorem valueAt_first {g : Gap} {v : Scalar []} {e : LineEnd} (hv : valueLegible (.scalar g v e) = true) :
    ∃ c z, valueAt (g.chars ++ v.written ++ e.ending.chars) = c :: z ∧ c ∉ special := by
  obtain ⟨c, w, hw, hspace, hspecial, hhash⟩ : ∃ c w, v.written = c :: w ∧ isWhitespace c = false ∧ c ∉ special ∧ c ≠ '#' := by
    cases v with
    | double t => exact ⟨'"', _, rfl, by decide, by decide, by decide⟩
    | single t => exact ⟨'\'', _, rfl, by decide, by decide, by decide⟩
    | plain t hp =>
      obtain ⟨c, w, hw⟩ := List.exists_cons_of_ne_nil hp.nonempty
      refine ⟨c, w, hw, ?_, ?_⟩
      · rw [valueLegible, hw] at hv
        simpa using hv
      · rcases hp.first c w hw with hc | ⟨hc, -⟩
        · exact ⟨fun h => hc (special_subset h), fun h => hc (h ▸ by decide)⟩
        · rcases hc with rfl | rfl | rfl <;> decide
  obtain ⟨z, hz⟩ := stripFrom_cons (l := w ++ e.ending.chars) hhash
  refine ⟨c, trimEnd z, ?_, hspecial⟩
  rw [valueAt, List.append_assoc, hw, List.cons_append, stripFrom_blanks, hz, trimMatches,
    dropWhile_append_of_forall fun d hd => isWhitespace_of_isBlank (g.blank d hd),
    List.dropWhile_cons_of_neg (by simp [hspace])]
  exact rdropWhile_append_cons (x := []) hspace

end Claudear.Release
