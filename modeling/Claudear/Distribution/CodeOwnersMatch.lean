import Claudear.Distribution.CodeOwners

/-!
# CODEOWNERS patterns as path patterns

A `**` that is a whole segment is translated to what it means for a path
pattern. Any other is translated to `.*` or `(?:.*/)?` all the same, which
reaches over slashes where the path pattern stays in its segment. The dot leaves
out the newline, so what a `**` stands for and what is below has to hold none
(`lineMatch`). Where both are met, the expression and the path pattern agree
(`compile_plain`), and so do the owners (`owners_of_plain`).
-/

namespace Claudear.Distribution

open Claudear.Text

/-- `**` stands for a whole segment or not at all. -/
def PlainSegment (s : List Char) : Prop := s = ['*', '*'] ∨ ¬ ['*', '*'] <:+: s

instance (s : List Char) : Decidable (PlainSegment s) := inferInstanceAs (Decidable (_ ∨ _))

/-- The pattern without slashes at either end. -/
def patternBody (pattern : List Char) : List Char :=
  (pattern.rdropWhile (· = '/')).dropWhile (· = '/')

def PlainPattern (pattern : List Char) : Prop :=
  ∀ s ∈ (patternBody pattern).splitOn '/', PlainSegment s

instance (pattern : List Char) : Decidable (PlainPattern pattern) :=
  inferInstanceAs (Decidable (∀ s ∈ _, PlainSegment s))

def onLine (s : List Char) : Bool := '\n' ∉ s

/-- After any number of segments without a newline. -/
def reach (Q : List (List Char) → Bool) : List (List Char) → Bool
  | [] => Q []
  | s :: segments => Q (s :: segments) || (onLine s && reach Q segments)

/-- `pathMatch`, where what a `**` stands for and what is below holds no newline. -/
def lineMatch (directory : Bool) : List Segment → List (List Char) → Bool
  | [], below => (!directory || !below.isEmpty) && below.all onLine
  | .deep :: ps, segments =>
    if ps = [] then (if directory then 1 else 0) < segments.length && segments.all onLine
    else reach (lineMatch directory ps) segments
  | .glob p :: ps, segments =>
    match segments with
    | s :: segments => segmentMatch p s && lineMatch directory ps segments
    | [] => false

/-- `covers`, where what is above the pattern holds no newline either. -/
def lineCovers (p : PathPattern) (path : List Char) : Bool :=
  let segments := path.splitOn '/'
  p.segments ≠ [] &&
    if p.anchored then lineMatch p.directory p.segments segments
    else reach (lineMatch p.directory p.segments) segments

variable {R : RegexLite} {p u v l rest : List Char} {directory : Bool}

/-! ## Tokens of plain segments -/

/-- The token of a character that is no part of a `**`. -/
def globToken (c : Char) : Token :=
  if c = '*' then .star else if c = '?' then .question else .char c

theorem tokens_star (h : l.head? ≠ some '*') : tokens ('*' :: l) = .star :: tokens l := by
  cases l with
  | nil => rfl
  | cons c l =>
    have hc : c ≠ '*' := fun he => h (congrArg some he)
    rw [tokens.eq_def]
    split
    · rename_i he
      exact absurd (List.cons.inj (List.cons.inj he).2).1 hc
    · rename_i he
      exact absurd (List.cons.inj (List.cons.inj he).2).1 hc
    · rename_i he
      rw [(List.cons.inj he).2]
    · rename_i he
      exact absurd (List.cons.inj he).1 (by decide)
    · rename_i hstar _ he
      exact absurd (List.cons.inj he).1.symm hstar
    · rename_i he
      cases he

theorem tokens_char {c : Char} (hs : c ≠ '*') (hq : c ≠ '?') :
    tokens (c :: l) = .char c :: tokens l := by
  rw [tokens.eq_def]
  split
  · rename_i he
    exact absurd (List.cons.inj he).1 hs
  · rename_i he
    exact absurd (List.cons.inj he).1 hs
  · rename_i he
    exact absurd (List.cons.inj he).1 hs
  · rename_i he
    exact absurd (List.cons.inj he).1 hq
  · rename_i he
    rw [(List.cons.inj he).1, (List.cons.inj he).2]
  · rename_i he
    cases he

theorem tokens_plain (hp : ¬ ['*', '*'] <:+: p) (hr : rest.head? ≠ some '*') :
    tokens (p ++ rest) = p.map globToken ++ tokens rest := by
  induction p with
  | nil => rfl
  | cons c p ih =>
    have ih := ih fun h => hp (h.trans (List.suffix_cons c p).isInfix)
    rw [List.cons_append, List.map_cons, List.cons_append, ← ih]
    by_cases hs : c = '*'
    · subst hs
      refine tokens_star ?_
      cases p with
      | nil => exact hr
      | cons d p =>
        intro he
        cases he
        exact hp ⟨[], p, rfl⟩
    · by_cases hq : c = '?'
      · subst hq
        rfl
      · rw [tokens_char hs hq, globToken, if_neg hs, if_neg hq]

/-! ## Words of plain segments -/

theorem segmentMatch_char {c : Char} (hs : c ≠ '*') (hq : c ≠ '?') :
    segmentMatch (c :: p) l = true ↔ ∃ v, l = c :: v ∧ segmentMatch p v = true := by
  rw [segmentMatch.eq_def]
  split
  · rename_i he
    cases he
  · rename_i he
    exact absurd (List.cons.inj he).1 hs
  · rename_i he
    exact absurd (List.cons.inj he).1 hq
  · rename_i he
    exact absurd (List.cons.inj he).1 hq
  · rename_i he
    obtain ⟨rfl, rfl⟩ := List.cons.inj he
    rw [Bool.and_eq_true, decide_eq_true_eq]
    constructor
    · rintro ⟨rfl, hm⟩
      exact ⟨_, rfl, hm⟩
    · rintro ⟨v, hv, hm⟩
      obtain ⟨rfl, rfl⟩ := List.cons.inj hv
      exact ⟨rfl, hm⟩
  · simp

theorem segmentMatch_question :
    segmentMatch ('?' :: p) l = true ↔ ∃ c v, l = c :: v ∧ segmentMatch p v = true := by
  cases l <;> simp [segmentMatch]

theorem segmentMatch_star :
    segmentMatch ('*' :: p) l = true ↔ ∃ u v, l = u ++ v ∧ segmentMatch p v = true := by
  rw [segmentMatch, List.any_eq_true]
  constructor
  · rintro ⟨v, hv, hm⟩
    obtain ⟨u, rfl⟩ := (List.mem_tails _ _).mp hv
    exact ⟨u, v, rfl, hm⟩
  · rintro ⟨u, v, rfl, hm⟩
    exact ⟨v, (List.mem_tails _ _).mpr (List.suffix_append _ _), hm⟩

/-- The items of a segment match the words without a slash that the segment describes. -/
theorem concat_glob (hp : '/' ∉ p) : Concat Item.Matches ((p.map globToken).map Token.item) u ↔
    '/' ∉ u ∧ segmentMatch p u = true := by
  induction p generalizing u with
  | nil =>
    simp only [List.map_nil, concat_nil, segmentMatch, List.isEmpty_iff]
    exact ⟨fun h => ⟨by simp [h], h⟩, fun h => h.2⟩
  | cons c p ih =>
    rw [List.mem_cons, not_or] at hp
    have ih {u : List Char} := @ih u hp.2
    rw [List.map_cons, List.map_cons]
    by_cases hs : c = '*'
    · subst hs
      have hi : ∀ u, (Token.item (globToken '*')).Matches u ↔ '/' ∉ u := by
        intro u
        show (∀ c ∈ u, (Atom.except '/').accepts c = true) ↔ _
        simp [Atom.accepts]
        exact ⟨fun h hm => h _ hm rfl, fun h c hm he => h (he ▸ hm)⟩
      rw [concat_cons, segmentMatch_star]
      constructor
      · rintro ⟨a, b, rfl, ha, hb⟩
        obtain ⟨hb, hm⟩ := ih.mp hb
        exact ⟨by simpa using ⟨(hi a).mp ha, hb⟩, a, b, rfl, hm⟩
      · rintro ⟨hu, a, b, rfl, hm⟩
        rw [List.mem_append, not_or] at hu
        exact ⟨a, b, rfl, (hi a).mpr hu.1, ih.mpr ⟨hu.2, hm⟩⟩
    · by_cases hq : c = '?'
      · subst hq
        have hi : ∀ u, (Token.item (globToken '?')).Matches u ↔ ∃ c, u = [c] ∧ c ≠ '/' := by
          intro u
          show (∃ c, u = [c] ∧ (Atom.except '/').accepts c = true) ↔ _
          simp [Atom.accepts]
        rw [concat_cons_char hi, segmentMatch_question]
        constructor
        · rintro ⟨c, v, rfl, hc, hv⟩
          obtain ⟨hv, hm⟩ := ih.mp hv
          exact ⟨by simpa using ⟨Ne.symm hc, hv⟩, c, v, rfl, hm⟩
        · rintro ⟨hu, c, v, rfl, hm⟩
          rw [List.mem_cons, not_or] at hu
          exact ⟨c, v, rfl, Ne.symm hu.1, ih.mpr ⟨hu.2, hm⟩⟩
      · have hg : globToken c = .char c := by rw [globToken, if_neg hs, if_neg hq]
        have hi : ∀ u, (Token.item (globToken c)).Matches u ↔ ∃ d, u = [d] ∧ d = c := by
          intro u
          rw [hg]
          show (∃ d, u = [d] ∧ (Atom.char c).accepts d = true) ↔ _
          simp [Atom.accepts]
        rw [concat_cons_char hi, segmentMatch_char hs hq]
        constructor
        · rintro ⟨d, v, rfl, rfl, hv⟩
          obtain ⟨hv, hm⟩ := ih.mp hv
          exact ⟨by simpa using ⟨hp.1, hv⟩, v, rfl, hm⟩
        · rintro ⟨hu, v, rfl, hm⟩
          rw [List.mem_cons, not_or] at hu
          exact ⟨c, v, rfl, rfl, ih.mpr ⟨hu.2, hm⟩⟩

/-! ## Slashes -/

theorem slash_cases (l : List Char) : '/' ∉ l ∨ ∃ u v, '/' ∉ u ∧ l = u ++ '/' :: v := by
  by_cases h : '/' ∈ l
  · obtain ⟨u, v, rfl, hu⟩ := List.eq_append_cons_of_mem h
    exact .inr ⟨u, v, hu, rfl⟩
  · exact .inl h

/-- Induction over the segments of a path. -/
theorem slash_induct {P : List Char → Prop} (single : ∀ l, '/' ∉ l → P l)
    (cons : ∀ u v, '/' ∉ u → P v → P (u ++ '/' :: v)) (l : List Char) : P l := by
  induction hn : l.length using Nat.strong_induction_on generalizing l with
  | _ n ih =>
    rcases slash_cases l with hs | ⟨u, v, hu, rfl⟩
    · exact single l hs
    · refine cons u v hu (ih v.length ?_ v rfl)
      rw [← hn, List.length_append, List.length_cons]
      omega

/-- A word cut at its first slash. -/
theorem splitOn_slash (h : '/' ∉ u) : (u ++ '/' :: v).splitOn '/' = u :: v.splitOn '/' :=
  List.splitOn_append_cons_self_of_not_mem h v

theorem slash_inj {u' v' : List Char} (h : '/' ∉ u) (h' : '/' ∉ u')
    (he : u ++ '/' :: v = u' ++ '/' :: v') : u = u' ∧ v = v' := by
  have hs := congrArg (List.splitOn '/') he
  rw [splitOn_slash h, splitOn_slash h'] at hs
  obtain ⟨rfl, hv⟩ := List.cons.inj hs
  refine ⟨rfl, ?_⟩
  have hjoin := congrArg ['/'].intercalate hv
  rwa [List.intercalate_splitOn, List.intercalate_splitOn] at hjoin

theorem all_onLine (l : List Char) : (l.splitOn '/').all onLine = true ↔ '\n' ∉ l := by
  induction l using slash_induct with
  | single l hs => simp [List.splitOn_eq_singleton hs, onLine]
  | cons u v hu ih => simp [splitOn_slash hu, ih, onLine]

theorem matches_slash : (Item.piece (.one (.char '/'))).Matches u ↔ u = ['/'] := by
  show (∃ c, u = [c] ∧ (Atom.char '/').accepts c = true) ↔ _
  simp [Atom.accepts]

theorem matches_any : (Item.piece (.many .any)).Matches u ↔ '\n' ∉ u := by
  show (∀ c ∈ u, Atom.any.accepts c = true) ↔ _
  simp only [Atom.accepts, decide_eq_true_eq]
  exact ⟨fun h hm => h _ hm rfl, fun h c hm he => h (he ▸ hm)⟩

theorem matches_upTo : upTo.Matches u ↔ u = [] ∨ ∃ x, u = x ++ ['/'] ∧ '\n' ∉ x := by
  show (u = [] ∨ Concat Piece.Matches [.many .any, .one (.char '/')] u) ↔ _
  refine or_congr_right ?_
  rw [concat_cons]
  constructor
  · rintro ⟨x, y, rfl, hx, hy⟩
    refine ⟨x, ?_, matches_any.mp hx⟩
    rw [matches_slash.mp (concat_singleton.mp hy)]
  · rintro ⟨x, rfl, hx⟩
    exact ⟨x, ['/'], rfl, matches_any.mpr hx, concat_singleton.mpr (matches_slash.mpr rfl)⟩

/-- What may follow: for a directory something below it, else also nothing. -/
theorem matches_below : Concat Item.Matches (belowItems directory) v ↔
    (∃ w, v = '/' :: w ∧ '\n' ∉ w) ∨ directory = false ∧ v = [] := by
  have two {M : List Char → Prop} (hM : ∀ x, M x ↔ x = ['/']) :
      (∃ x y, v = x ++ y ∧ M x ∧ '\n' ∉ y) ↔ ∃ w, v = '/' :: w ∧ '\n' ∉ w := by
    constructor
    · rintro ⟨x, y, rfl, hx, hy⟩
      exact ⟨y, by rw [(hM x).mp hx]; rfl, hy⟩
    · rintro ⟨w, rfl, hw⟩
      exact ⟨['/'], w, rfl, (hM _).mpr rfl, hw⟩
  cases directory with
  | true =>
    rw [belowItems, if_pos rfl, concat_cons]
    simp only [concat_singleton, matches_any, Bool.true_eq_false, false_and, or_false]
    exact two fun x => matches_slash
  | false =>
    rw [belowItems, if_neg (by decide), concat_singleton]
    show (v = [] ∨ Concat Piece.Matches [.one (.char '/'), .many .any] v) ↔ _
    rw [concat_cons]
    simp only [concat_singleton, true_and]
    rw [or_comm]
    refine or_congr_left ?_
    exact (exists₂_congr fun x y => and_congr_right fun _ =>
      and_congr_right fun _ => matches_any).trans (two fun x => matches_slash)

/-- A segment, a slash and what follows. -/
theorem concat_segment {X : Regex} (hp : '/' ∉ p) :
    Concat Item.Matches ((p.map globToken).map Token.item ++ .piece (.one (.char '/')) :: X) l ↔
      ∃ u v, '/' ∉ u ∧ l = u ++ '/' :: v ∧ segmentMatch p u = true ∧ Concat Item.Matches X v := by
  rw [concat_append]
  constructor
  · rintro ⟨u, w, rfl, hu, hw⟩
    obtain ⟨hu, hm⟩ := (concat_glob hp).mp hu
    obtain ⟨x, v, rfl, hx, hv⟩ := concat_cons.mp hw
    rw [matches_slash.mp hx]
    exact ⟨u, v, hu, rfl, hm, hv⟩
  · rintro ⟨u, v, hu, rfl, hm, hv⟩
    exact ⟨u, '/' :: v, rfl, (concat_glob hp).mpr ⟨hu, hm⟩,
      concat_cons.mpr ⟨['/'], v, rfl, matches_slash.mpr rfl, hv⟩⟩

/-- After `(?:.*/)?` the rest starts at any segment that is reached. -/
theorem concat_upTo {X : Regex} {Q : List (List Char) → Bool} (hQ : Q [] = false)
    (hX : ∀ l, Concat Item.Matches X l ↔ Q (l.splitOn '/') = true) (l : List Char) :
    Concat Item.Matches (upTo :: X) l ↔ reach Q (l.splitOn '/') = true := by
  have start (l : List Char) : Concat Item.Matches (upTo :: X) l ↔
      Concat Item.Matches X l ∨
        ∃ x v, l = x ++ '/' :: v ∧ '\n' ∉ x ∧ Concat Item.Matches X v := by
    rw [concat_cons]
    constructor
    · rintro ⟨u, v, rfl, hu, hv⟩
      rcases matches_upTo.mp hu with rfl | ⟨x, rfl, hx⟩
      · exact .inl hv
      · exact .inr ⟨x, v, by simp, hx, hv⟩
    · rintro (h | ⟨x, v, rfl, hx, hv⟩)
      · exact ⟨[], l, rfl, matches_upTo.mpr (.inl rfl), h⟩
      · exact ⟨x ++ ['/'], v, by simp, matches_upTo.mpr (.inr ⟨x, rfl, hx⟩), hv⟩
  induction l using slash_induct with
  | single l hs =>
    have hno : ¬ ∃ x v, l = x ++ '/' :: v ∧ '\n' ∉ x ∧ Concat Item.Matches X v := by
      rintro ⟨x, v, rfl, -⟩
      exact hs (by simp)
    rw [start, hX l, List.splitOn_eq_singleton hs]
    simp [hno, hQ, reach]
  | cons s w hs ih =>
    have ih : Concat Item.Matches (upTo :: X) w ↔ reach Q (w.splitOn '/') = true := ih
    rw [splitOn_slash hs, reach, Bool.or_eq_true, Bool.and_eq_true, start, hX, splitOn_slash hs]
    refine or_congr_right ?_
    rw [← ih, start, onLine, decide_eq_true_eq]
    constructor
    · rintro ⟨x, v, he, hx, hv⟩
      rcases slash_cases x with hxs | ⟨x', y, hxs, rfl⟩
      · obtain ⟨rfl, rfl⟩ := slash_inj hs hxs he
        exact ⟨hx, .inl hv⟩
      · rw [List.append_assoc, List.cons_append] at he
        obtain ⟨rfl, rfl⟩ := slash_inj hs hxs he
        exact ⟨fun h => hx (by simp [h]), .inr ⟨y, v, rfl, fun h => hx (by simp [h]), hv⟩⟩
    · rintro ⟨hsn, h | ⟨x, v, rfl, hx, hv⟩⟩
      · exact ⟨s, w, rfl, hsn, h⟩
      · exact ⟨s ++ '/' :: x, v, by simp, by simp [hsn, hx], hv⟩

/-! ## Whole patterns -/

theorem one_lt_length_splitOn (l : List Char) : 1 < (l.splitOn '/').length ↔ '/' ∈ l := by
  rcases slash_cases l with hs | ⟨u, v, hu, rfl⟩
  · rw [List.splitOn_eq_singleton hs]
    simp [hs]
  · have := List.length_pos_iff.mpr (List.splitOn_ne_nil '/' v)
    rw [splitOn_slash hu]
    simp only [List.length_cons, List.mem_append, List.mem_cons, true_or, or_true, iff_true]
    omega

theorem lineMatch_nil {ps : List Segment} (h : ps ≠ []) : lineMatch directory ps [] = false := by
  induction ps with
  | nil => exact absurd rfl h
  | cons p ps ih =>
    cases p with
    | glob p => rfl
    | deep =>
      rw [lineMatch]
      split
      · simp
      · rename_i hps
        exact ih hps

/-- The last segment is `**`. -/
theorem concat_deep :
    Concat Item.Matches (.piece (.many .any) :: belowItems directory) l ↔
      lineMatch directory [.deep] (l.splitOn '/') = true := by
  have hpos := List.length_pos_iff.mpr (List.splitOn_ne_nil '/' l)
  rw [concat_cons, lineMatch, if_pos rfl, Bool.and_eq_true, decide_eq_true_eq, all_onLine]
  constructor
  · rintro ⟨u, v, rfl, hu, hv⟩
    rw [matches_any] at hu
    rcases matches_below.mp hv with ⟨w, rfl, hw⟩ | ⟨rfl, rfl⟩
    · have hlong := (one_lt_length_splitOn (u ++ '/' :: w)).mpr (by simp)
      refine ⟨?_, by simp [hu, hw]⟩
      split <;> omega
    · exact ⟨hpos, by simpa using hu⟩
  · rintro ⟨h, hl⟩
    cases directory with
    | false =>
      exact ⟨l, [], (List.append_nil l).symm, matches_any.mpr hl, matches_below.mpr (.inr ⟨rfl, rfl⟩)⟩
    | true =>
      obtain ⟨u, v, rfl⟩ := List.append_of_mem ((one_lt_length_splitOn l).mp h)
      rw [List.mem_append, List.mem_cons, not_or, not_or] at hl
      exact ⟨u, '/' :: v, rfl, matches_any.mpr hl.1, matches_below.mpr (.inl ⟨v, rfl, hl.2.2⟩)⟩

/-- The last segment is a glob. -/
theorem concat_last (hp : '/' ∉ p) :
    Concat Item.Matches ((p.map globToken).map Token.item ++ belowItems directory) l ↔
      lineMatch directory [.glob p] (l.splitOn '/') = true := by
  rw [concat_append]
  rcases slash_cases l with hs | ⟨s, w, hs, rfl⟩
  · rw [List.splitOn_eq_singleton hs, lineMatch, lineMatch, Bool.and_eq_true]
    constructor
    · rintro ⟨u, v, rfl, hu, hv⟩
      rcases matches_below.mp hv with ⟨w, rfl, -⟩ | ⟨rfl, rfl⟩
      · exact absurd (by simp) hs
      · rw [List.append_nil]
        exact ⟨((concat_glob hp).mp hu).2, rfl⟩
    · rintro ⟨hm, hd⟩
      have hd' : directory = false := by simpa using hd
      exact ⟨l, [], (List.append_nil l).symm, (concat_glob hp).mpr ⟨hs, hm⟩, matches_below.mpr (.inr ⟨hd', rfl⟩)⟩
  · have hne := List.splitOn_ne_nil '/' w
    rw [splitOn_slash hs, lineMatch, lineMatch, Bool.and_eq_true, Bool.and_eq_true, all_onLine]
    simp only [Bool.or_eq_true, Bool.not_eq_true', List.isEmpty_eq_false_iff, hne, ne_eq,
      not_false_eq_true, or_true, true_and]
    constructor
    · rintro ⟨u, v, he, hu, hv⟩
      obtain ⟨hus, hm⟩ := (concat_glob hp).mp hu
      rcases matches_below.mp hv with ⟨w', rfl, hw'⟩ | ⟨-, rfl⟩
      · obtain ⟨rfl, rfl⟩ := slash_inj hs hus he
        exact ⟨hm, hw'⟩
      · rw [List.append_nil] at he
        exact absurd (he ▸ by simp) hus
    · rintro ⟨hm, hw⟩
      exact ⟨s, '/' :: w, rfl, (concat_glob hp).mpr ⟨hs, hm⟩, matches_below.mpr (.inl ⟨w, rfl, hw⟩)⟩

theorem concat_segments (ps : List (List Char)) (hne : ps ≠ [])
    (hp : ∀ p ∈ ps, '/' ∉ p ∧ PlainSegment p) (l : List Char) :
    Concat Item.Matches ((tokens (['/'].intercalate ps)).map Token.item ++ belowItems directory) l ↔
      lineMatch directory (ps.map Segment.of) (l.splitOn '/') = true := by
  induction ps generalizing l with
  | nil => exact absurd rfl hne
  | cons p ps ih =>
    obtain ⟨⟨hps, hplain⟩, hp⟩ := List.forall_mem_cons.mp hp
    cases ps with
    | nil =>
      rw [List.intercalate_singleton, List.map_singleton]
      rcases hplain with rfl | hplain
      · rw [Segment.of, if_pos rfl]
        exact concat_deep
      · have hof : Segment.of p = .glob p :=
          if_neg (by rintro rfl; exact hplain (List.infix_refl _))
        have ht : tokens p = p.map globToken := by
          have := @tokens_plain p [] hplain (by simp)
          simpa [tokens] using this
        rw [hof, ht]
        exact concat_last hps
    | cons q ps =>
      have ih := ih (List.cons_ne_nil _ _) hp
      rw [List.intercalate_cons_cons, List.append_assoc, List.singleton_append, List.map_cons]
      rcases hplain with rfl | hplain
      · rw [Segment.of, if_pos rfl, lineMatch, if_neg (by simp)]
        exact concat_upTo (lineMatch_nil (by simp)) ih l
      · have hof : Segment.of p = .glob p :=
          if_neg (by rintro rfl; exact hplain (List.infix_refl _))
        rw [hof, tokens_plain hplain (by simp), tokens_char (by decide) (by decide), List.map_append,
          List.map_cons, List.append_assoc, List.cons_append]
        refine (concat_segment hps).trans ?_
        rcases slash_cases l with hs | ⟨s, w, hs, rfl⟩
        · rw [List.splitOn_eq_singleton hs, lineMatch, lineMatch_nil (by simp), Bool.and_false]
          refine iff_of_false ?_ (by decide)
          rintro ⟨u, v, -, rfl, -⟩
          exact hs (by simp)
        · rw [splitOn_slash hs, lineMatch, Bool.and_eq_true, ← ih w]
          constructor
          · rintro ⟨u, v, hu, he, hm, hv⟩
            obtain ⟨rfl, rfl⟩ := slash_inj hs hu he
            exact ⟨hm, hv⟩
          · rintro ⟨hm, hv⟩
            exact ⟨s, w, hs, rfl, hm, hv⟩

theorem notMem_of_mem_splitOn {s : List Char} (h : s ∈ l.splitOn '/') : '/' ∉ s := by
  induction l using slash_induct with
  | single l hs =>
    rw [List.splitOn_eq_singleton hs, List.mem_singleton] at h
    exact h ▸ hs
  | cons u v hu ih =>
    rw [splitOn_slash hu, List.mem_cons] at h
    rcases h with rfl | h
    · exact hu
    · exact ih h

/-- A compiled pattern matches what the path pattern covers without a newline in between. -/
theorem compile_plain (hd : R.Documented) {pattern : List Char} (hp : PlainPattern pattern)
    {m : List Char → Bool} (hm : compile R pattern = some m) :
    m l = lineCovers (PathPattern.of pattern) l := by
  have hbody : patternBody pattern ≠ [] := by
    intro h
    rw [show compile R pattern = none from if_pos h] at hm
    cases hm
  have hsegs : (patternBody pattern).splitOn '/' ≠ [] := List.splitOn_ne_nil _ _
  have hbase (directory : Bool) (l : List Char) :
      Concat Item.Matches ((tokens (patternBody pattern)).map Token.item ++ belowItems directory) l ↔
        lineMatch directory (((patternBody pattern).splitOn '/').map Segment.of)
          (l.splitOn '/') = true := by
    have h := @concat_segments directory _ hsegs
      (fun p hmem => ⟨notMem_of_mem_splitOn hmem, hp p hmem⟩) l
    rwa [List.intercalate_splitOn] at h
  have hof : (PathPattern.of pattern).segments =
      ((patternBody pattern).splitOn '/').map Segment.of := if_neg hbody
  have hne : ((patternBody pattern).splitOn '/').map Segment.of ≠ [] := by
    simp
  rw [Bool.eq_iff_iff, compile_spec hd hm, lineCovers, hof]
  simp only [hne, ne_eq, not_false_eq_true, decide_true, Bool.true_and]
  rw [regexOf, Regex.Matches]
  by_cases ha : '/' ∈ pattern.rdropWhile (· = '/')
  · have ha' : (PathPattern.of pattern).anchored = true := decide_eq_true ha
    rw [if_pos (decide_eq_true ha), if_pos ha', List.nil_append]
    exact hbase _ l
  · have ha' : ¬ (PathPattern.of pattern).anchored = true := by
      simpa [PathPattern.of] using ha
    rw [if_neg (by simpa using ha), if_neg ha', List.singleton_append]
    exact concat_upTo (lineMatch_nil hne) (hbase _) l

theorem reach_eq {Q Q' : List (List Char) → Bool} (hQ : ∀ segments, segments.all onLine = true → Q segments = Q' segments)
    {segments : List (List Char)} (h : segments.all onLine = true) : reach Q segments = segments.tails.any Q' := by
  induction segments with
  | nil => simpa [reach] using hQ [] rfl
  | cons s segments ih =>
    have hs := Bool.and_eq_true_iff.mp h
    rw [reach, List.tails_cons, List.any_cons, hQ _ h, hs.1, ih hs.2, Bool.true_and]

theorem lineMatch_eq (ps : List Segment) (segments : List (List Char)) (h : segments.all onLine = true) :
    lineMatch directory ps segments = pathMatch directory ps segments := by
  induction ps generalizing segments with
  | nil => rw [lineMatch, h, Bool.and_true, pathMatch]
  | cons p ps ih =>
    cases p with
    | deep => rw [lineMatch, pathMatch, h, Bool.and_true, reach_eq ih h]
    | glob p =>
      cases segments with
      | nil => rfl
      | cons s segments => rw [lineMatch, pathMatch, ih segments (Bool.and_eq_true_iff.mp h).2]

/-- On a path without a newline nothing is left out. -/
theorem lineCovers_eq (q : PathPattern) (hl : '\n' ∉ l) : lineCovers q l = q.covers l := by
  have h := (all_onLine l).mpr hl
  rw [lineCovers, PathPattern.covers, lineMatch_eq _ _ h, reach_eq (lineMatch_eq q.segments) h]

/-! ## Owners -/

/-- The library accepts the pattern's expression, unless it has no body and is left out anyway. -/
def RegexLite.Accepts (R : RegexLite) (pattern : List Char) : Prop :=
  patternBody pattern ≠ [] → compile R pattern ≠ none

theorem covers_of_body_nil {pattern : List Char} (h : patternBody pattern = []) (l : List Char) :
    (PathPattern.of pattern).covers l = false := by
  have hs : (PathPattern.of pattern).segments = [] := if_pos h
  rw [PathPattern.covers, hs]
  rfl

theorem find_rules (hd : R.Documented) (rules : List (List Char × List String))
    (hr : ∀ rule ∈ rules, PlainPattern rule.1 ∧ R.Accepts rule.1 ∧
      lineCovers (PathPattern.of rule.1) l = (PathPattern.of rule.1).covers l) :
    (((rules.filterMap fun rule => (compile R rule.1).map fun pattern =>
      (⟨pattern, rule.2⟩ : Rule)).find? fun rule => rule.pattern l).map Rule.owners) =
      (rules.find? fun rule => (PathPattern.of rule.1).covers l).map Prod.snd := by
  induction rules with
  | nil => rfl
  | cons rule rules ih =>
    obtain ⟨⟨hp, ha, hl⟩, hr⟩ := List.forall_mem_cons.mp hr
    have ih := ih hr
    rw [List.filterMap_cons, List.find?_cons]
    cases hc : compile R rule.1 with
    | none =>
      have hb : patternBody rule.1 = [] := by
        by_contra hb
        exact ha hb hc
      rw [covers_of_body_nil hb]
      exact ih
    | some m =>
      rw [← hl, ← compile_plain hd hp hc]
      simp only [Option.map_some, List.find?_cons]
      cases m l with
      | true => rfl
      | false => exact ih

/-- Reads the expressions that a `Regex` is written as. -/
def RegexLite.reference : RegexLite where
  escape := backslash
  new
    | '^' :: l => if l.getLast? = some '$' then (parseRegex l.dropLast).map Regex.isMatch else none
    | _ => none

theorem RegexLite.reference_new (r : Regex) :
    reference.new ('^' :: (r.text reference.escape ++ ['$'])) = some r.isMatch := by
  show (if (r.text backslash ++ ['$']).getLast? = some '$' then
    (parseRegex (r.text backslash ++ ['$']).dropLast).map Regex.isMatch else none) = _
  rw [if_pos List.getLast?_concat, List.dropLast_concat, parseRegex_text, Option.map_some]

theorem RegexLite.reference_documented : reference.Documented where
  slash := by decide
  matches_iff r m h l := by
    rw [reference_new] at h
    rw [← Option.some.inj h]
    exact r.isMatch_iff l

end Claudear.Distribution
