import Claudear.Storage.PrUrl
import Claudear.Text.Places
import Mathlib.Data.List.DropRight

/-!
# What the readers of pull request URLs accept

Each piece of the two readers in `PrUrl`, as a statement about the text: what a
segment, a run of digits and the two patterns are, where the project of a merge
request ends, and where `split_once` splits.
-/

namespace Claudear.Storage

open Claudear.Text

variable {s t a b run rest ds repo number p : List Char} {c : Char}

/-! ## Pieces -/

theorem span_ne_append (h : ∀ c ∈ run, c ≠ '/') : (run ++ '/' :: rest).span (· ≠ '/') = (run, '/' :: rest) := by
  have hrun : ∀ c ∈ run, decide (c ≠ '/') = true := fun c hc => decide_eq_true (h c hc)
  rw [List.span_eq_takeWhile_dropWhile, List.takeWhile_append_of_pos hrun, List.dropWhile_append_of_pos hrun]
  simp

theorem segment_eq_some : segment s = some (run, rest) ↔ s = run ++ '/' :: rest ∧ run ≠ [] ∧ '/' ∉ run := by
  constructor
  · intro h
    have hs : s = s.takeWhile (· ≠ '/') ++ s.dropWhile (· ≠ '/') := List.takeWhile_append_dropWhile.symm
    rw [segment, List.span_eq_takeWhile_dropWhile] at h
    have hrun : '/' ∉ s.takeWhile (· ≠ '/') := fun hc => by simpa using List.mem_takeWhile_imp hc
    have hhead : ∀ c ∈ (s.dropWhile (· ≠ '/')).head?, c = '/' := by
      intro c hc
      have := List.head?_dropWhile_not (· ≠ '/') s
      rw [Option.mem_def.mp hc] at this
      simpa using this
    generalize s.takeWhile (· ≠ '/') = u at *
    generalize s.dropWhile (· ≠ '/') = v at *
    cases u with
    | nil => cases h
    | cons d u =>
      cases v with
      | nil => cases h
      | cons c v =>
        cases h
        obtain rfl := hhead c rfl
        exact ⟨hs, List.cons_ne_nil _ _, hrun⟩
  · rintro ⟨rfl, hne, hrun⟩
    rw [segment, span_ne_append fun c hc he => hrun (he ▸ hc)]
    cases run with
    | nil => exact absurd rfl hne
    | cons d run => rfl

theorem digits_eq_some : digits s = some ds ↔ s.takeWhile Char.isDigit = ds ∧ ds ≠ [] := by
  unfold digits
  cases h : s.takeWhile Char.isDigit with
  | nil =>
    constructor
    · intro hnone
      cases hnone
    · rintro ⟨rfl, hne⟩
      exact absurd rfl hne
  | cons d ds' =>
    constructor
    · intro hsome
      cases hsome
      exact ⟨rfl, List.cons_ne_nil _ _⟩
    · rintro ⟨rfl, -⟩
      rfl

/-! ## The two patterns -/

/-- `github.com/`, an owner and a name, `/pull/` and a number. -/
def PullText (t repo number : List Char) : Prop :=
  ∃ owner name rest, t = "github.com/".toList ++ (owner ++ '/' :: (name ++ '/' :: ("pull/".toList ++ rest))) ∧
    (owner ≠ [] ∧ '/' ∉ owner) ∧ (name ≠ [] ∧ '/' ∉ name) ∧ repo = owner ++ '/' :: name ∧
    rest.takeWhile Char.isDigit = number ∧ number ≠ []

theorem prUrlAt_eq_some : prUrlAt t = some (repo, number) ↔ PullText t repo number := by
  unfold prUrlAt PullText
  simp only [Option.bind_eq_bind, Option.bind_eq_some_iff, List.isPrefixOf?_eq_some_iff_append_eq, Prod.exists,
    segment_eq_some, digits_eq_some, Option.pure_def, Option.some.injEq, Prod.mk.injEq]
  constructor
  · rintro ⟨s, rfl, owner, s, ⟨rfl, howner⟩, name, s, ⟨rfl, hname⟩, rest, rfl, ds, hds, rfl, rfl⟩
    exact ⟨owner, name, rest, rfl, howner, hname, rfl, hds⟩
  · rintro ⟨owner, name, rest, rfl, howner, hname, rfl, hnumber⟩
    exact ⟨_, rfl, owner, _, ⟨rfl, howner⟩, name, _, ⟨rfl, hname⟩, rest, rfl, number, hnumber, rfl, rfl⟩

/-- The marker of a merge request and its number. -/
def MergeText (t number : List Char) : Prop :=
  ∃ rest, t = mrMarker ++ rest ∧ rest.takeWhile Char.isDigit = number ∧ number ≠ []

theorem mergeAt_eq_some : (mrMarker.isPrefixOf? t >>= digits) = some number ↔ MergeText t number := by
  unfold MergeText
  simp only [Option.bind_eq_bind, Option.bind_eq_some_iff, List.isPrefixOf?_eq_some_iff_append_eq, digits_eq_some]
  constructor
  · rintro ⟨rest, rfl, hnumber⟩
    exact ⟨rest, rfl, hnumber⟩
  · rintro ⟨rest, rfl, hnumber⟩
    exact ⟨rest, rfl, hnumber⟩

/-- On one line, the project ends at the first marker with a number. -/
theorem mrProject_number (hline : '\n' ∉ c :: s) :
    (mrProject (c :: s)).map Prod.snd = s.tails.findSome? fun t => mrMarker.isPrefixOf? t >>= digits := by
  induction s generalizing c with
  | nil =>
    rw [mrProject, if_neg (List.ne_of_not_mem_cons hline).symm]
    rfl
  | cons d s ih =>
    rw [mrProject, if_neg (List.ne_of_not_mem_cons hline).symm, findSome?_tails_cons]
    cases mrMarker.isPrefixOf? (d :: s) >>= digits with
    | some number => rfl
    | none =>
      rw [Option.none_or, ← ih fun h => hline (List.mem_cons_of_mem c h)]
      cases mrProject (d :: s) <;> rfl

/-! ## Splitting and trimming -/

theorem splitOnce_append : splitOnce p (p ++ b) = some ([], b) := by
  rw [splitOnce.eq_def, List.isPrefixOf?_eq_some_iff_append_eq.mpr rfl]

theorem splitOnce_cons (h : ¬ p <+: c :: s) :
    splitOnce p (c :: s) = (splitOnce p s).map fun m => (c :: m.1, m.2) := by
  rw [splitOnce]
  cases hb : p.isPrefixOf? (c :: s) with
  | none => rfl
  | some b => exact absurd ⟨b, List.append_eq_of_isPrefixOf?_eq_some hb⟩ h

theorem splitOnce_eq_none (hp : p ≠ []) : splitOnce p s = none ↔ ¬ p <:+: s := by
  induction s with
  | nil =>
    rw [List.infix_nil]
    refine iff_of_true ?_ hp
    cases p with
    | nil => exact absurd rfl hp
    | cons d p => rfl
  | cons c s ih =>
    rw [List.infix_cons_iff, not_or]
    by_cases h : p <+: c :: s
    · obtain ⟨b, hb⟩ := h
      rw [← hb, splitOnce_append]
      refine iff_of_false (Option.some_ne_none _) ?_
      exact fun hno => hno.1 (List.prefix_append p b)
    · rw [splitOnce_cons h, Option.map_eq_none_iff, ih, and_iff_right h]

/-- No earlier occurrence begins before the one at which the text is split. -/
theorem splitOnce_first (h : ¬ p <:+: a ++ p.dropLast) : splitOnce p (a ++ (p ++ b)) = some (a, b) := by
  induction a with
  | nil => exact splitOnce_append
  | cons c a ih =>
    rw [List.cons_append, List.infix_cons_iff, not_or] at h
    rw [List.cons_append, splitOnce_cons, ih h.2]
    · rfl
    · intro hp
      refine h.1 (List.prefix_of_prefix_length_le hp ?_ ?_)
      · exact (List.prefix_cons_inj c).mpr ((List.prefix_append_right_inj a).mpr
          ((List.dropLast_prefix p).trans (List.prefix_append p b)))
      · rw [List.length_cons, List.length_append, List.length_dropLast]
        omega

theorem splitOnce_some (hp : p ≠ []) (h : splitOnce p s = some (a, b)) :
    s = a ++ (p ++ b) ∧ ¬ p <:+: a ++ p.dropLast := by
  induction s generalizing a with
  | nil =>
    rw [(splitOnce_eq_none hp).mpr fun h => hp (List.infix_nil.mp h)] at h
    cases h
  | cons c s ih =>
    by_cases hc : p <+: c :: s
    · obtain ⟨b', hb'⟩ := hc
      rw [← hb', splitOnce_append] at h
      cases h
      refine ⟨hb'.symm, fun hinf => ?_⟩
      have hlen := hinf.length_le
      have hpos := List.length_pos_of_ne_nil hp
      rw [List.nil_append, List.length_dropLast] at hlen
      omega
    · rw [splitOnce_cons hc] at h
      obtain ⟨⟨a', b'⟩, hsplit, heq⟩ := Option.map_eq_some_iff.mp h
      obtain ⟨rfl, rfl⟩ := Prod.mk.inj heq
      obtain ⟨rfl, hfirst⟩ := ih hsplit
      refine ⟨rfl, fun hinf => ?_⟩
      rcases List.infix_cons_iff.mp hinf with hpre | hinf
      · refine hc (hpre.trans ?_)
        exact (List.prefix_cons_inj c).mpr ((List.prefix_append_right_inj a').mpr
          ((List.dropLast_prefix p).trans (List.prefix_append p b')))
      · exact hfirst hinf

theorem exists_trimSlashes (s : List Char) : ∃ t, s = trimSlashes s ++ t ∧ ∀ c ∈ t, c = '/' := by
  refine ⟨s.rtakeWhile (· = '/'), (List.rdropWhile_append_rtakeWhile ..).symm, fun c hc => ?_⟩
  simpa using List.mem_rtakeWhile_imp hc

theorem trimSlashes_eq_self (h : s.getLast? ≠ some '/') : trimSlashes s = s := by
  refine List.rdropWhile_eq_self_iff.mpr fun hne hlast => h ?_
  rw [List.getLast?_eq_some_getLast hne, of_decide_eq_true hlast]

end Claudear.Storage
