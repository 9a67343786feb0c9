import Claudear.Text.Apart
import Claudear.Text.Lowercase
import Claudear.Text.Replaced

/-!
# Known secret prefixes

`redact_secrets` masks every known prefix with the characters up to the next
delimiter. After each replacement it searches the text it has just written from
its start again, until the prefix is found no more, and then goes on with the
next prefix. A text is the list of its characters.
-/

namespace Claudear.Core

open Claudear.Text

def REDACTED : List Char := "[REDACTED]".toList

def SECRET_PATTERNS : List (List Char) :=
  ["ghp_", "gho_", "ghr_", "ghs_", "ghu_", "github_pat_", "glpat-", "lin_api_", "xoxb-", "xoxp-", "xoxa-", "xoxr-",
    "sntryu_", "sntrys_", "sk-ant-", "-----BEGIN", "ENC[v1:"].map String.toList

/-- Where a secret ends. -/
def isDelimiter (c : Char) : Bool :=
  isWhitespace c || c = '"' || c = '\'' || c = ',' || c = '\x7d' || c = ')' || c = ']'

/-- The inner loop, for at most so many searches. -/
def redactPattern (pattern : List Char) : Nat → List Char → Option (List Char)
  | 0, _ => none
  | fuel + 1, output =>
    match output.dropInfix? pattern with
    | none => some output
    | some (before, after) =>
      redactPattern pattern fuel (before ++ (REDACTED ++ after.dropWhile fun c => !isDelimiter c))

def redactSecrets (fuel : Nat) (input : List Char) : Option (List Char) :=
  SECRET_PATTERNS.foldlM (fun output pattern => redactPattern pattern fuel output) input

variable {p q l r x y a b t : List Char} {fuel n : Nat} {c : Char}

/-! ## The patterns and the marker -/

/-- A prefix that neither overlaps a marker nor has a delimiter in it. -/
structure Plain (p : List Char) : Prop where
  apart : Apart REDACTED p
  noDelimiter : p.all (fun c => !isDelimiter c) = true

instance : Decidable (Plain p) :=
  decidable_of_iff (Apart REDACTED p ∧ p.all (fun c => !isDelimiter c) = true) ⟨fun h => ⟨h.1, h.2⟩, fun h => ⟨h.1, h.2⟩⟩

theorem plain_of_mem (hp : p ∈ SECRET_PATTERNS) : Plain p :=
  forall_of_all (l := SECRET_PATTERNS) (by decide) p hp

/-! ## Rounds of the loop -/

/-- Characters up to a delimiter or the end of the text. -/
structure UpToDelimiter (t b : List Char) : Prop where
  inside : ∀ c ∈ t, isDelimiter c = false
  next : ∀ c ∈ b.head?, isDelimiter c = true

theorem upToDelimiter_dropWhile (l : List Char) :
    ∃ t, l = t ++ l.dropWhile (fun c => !isDelimiter c) ∧ UpToDelimiter t (l.dropWhile fun c => !isDelimiter c) := by
  refine ⟨l.takeWhile fun c => !isDelimiter c, List.takeWhile_append_dropWhile.symm, ?_, ?_⟩
  · intro c hc
    simpa using List.mem_takeWhile_imp hc
  · intro c hc
    have := List.head?_dropWhile_not (fun c => !isDelimiter c) l
    rw [Option.mem_def.mp hc] at this
    simpa using this

theorem UpToDelimiter.unique {t' b' : List Char} (h : UpToDelimiter t b) (h' : UpToDelimiter t' b')
    (e : t ++ b = t' ++ b') : t = t' ∧ b = b' := by
  induction t generalizing t' with
  | nil =>
    cases t' with
    | nil => exact ⟨rfl, e⟩
    | cons d t' =>
      obtain rfl : b = d :: (t' ++ b') := e
      exact absurd (h.next d rfl) (by simp [h'.inside d List.mem_cons_self])
  | cons c t ih =>
    cases t' with
    | nil =>
      obtain rfl : c :: (t ++ b) = b' := e
      exact absurd (h'.next c rfl) (by simp [h.inside c List.mem_cons_self])
    | cons d t' =>
      obtain ⟨rfl, hrest⟩ := List.cons.inj e
      obtain ⟨rfl, rfl⟩ := ih ⟨fun d hd => h.inside d (List.mem_cons_of_mem c hd), h.next⟩
        ⟨fun d hd => h'.inside d (List.mem_cons_of_mem c hd), h'.next⟩ hrest
      exact ⟨rfl, rfl⟩

/-- The loop for `p`, begun with one text, ends with another. -/
inductive Rounds (p : List Char) : List Char → List Char → Prop
  | done {l : List Char} : ¬ p <:+: l → Rounds p l l
  | round {a t b r : List Char} : UpToDelimiter t b → Rounds p (a ++ (REDACTED ++ b)) r → Rounds p (a ++ (p ++ (t ++ b))) r

theorem rounds_of_redactPattern (h : redactPattern p fuel l = some r) : Rounds p l r := by
  induction fuel generalizing l with
  | zero => cases h
  | succ fuel ih =>
    rw [redactPattern] at h
    split at h
    · rename_i hnone
      cases h
      exact .done (dropInfix?_none.mp hnone)
    · rename_i before after hsome
      obtain ⟨t, ht, hup⟩ := upToDelimiter_dropWhile after
      rw [dropInfix?_some hsome]
      generalize after.dropWhile (fun c => !isDelimiter c) = b at h ht hup
      subst ht
      exact .round hup (ih h)

theorem Rounds.not_isInfix (h : Rounds p l r) : ¬ p <:+: r := by
  induction h with
  | done h => exact h
  | round _ _ ih => exact ih

/-- A prefix that was masked before does not come back. -/
theorem Rounds.stays (h : Rounds p l r) (hq : Apart REDACTED q) (hl : ¬ q <:+: l) : ¬ q <:+: r := by
  induction h with
  | done => exact hl
  | @round a t b r _ _ ih =>
    refine ih fun hinf => ?_
    rcases hq.isInfix_around hinf with ha | hb
    · exact hl (ha.trans ⟨[], p ++ (t ++ b), by simp⟩)
    · exact hl (hb.trans ⟨a ++ (p ++ t), [], by simp⟩)

/-- Behind a marker the text left to search gets shorter, and nothing before it is found again. -/
theorem redactPattern_behind (hp : Apart REDACTED p) (hx : ¬ p <:+: x) (hy : y.length ≤ n) :
    ∃ r, ∀ fuel, n < fuel → redactPattern p fuel (x ++ (REDACTED ++ y)) = some r := by
  induction n generalizing x y with
  | zero =>
    obtain rfl := List.eq_nil_of_length_eq_zero (Nat.le_zero.mp hy)
    have hnone : (x ++ (REDACTED ++ [])).dropInfix? p = none := by
      refine dropInfix?_none.mpr fun h => ?_
      rcases hp.isInfix_around h with h | h
      · exact hx h
      · exact hp.ne_nil (List.infix_nil.mp h)
    refine ⟨x ++ (REDACTED ++ []), fun fuel hfuel => ?_⟩
    obtain ⟨k, rfl⟩ := Nat.exists_eq_add_of_lt hfuel
    rw [redactPattern, hnone]
  | succ n ih =>
    cases hfirst : (x ++ (REDACTED ++ y)).dropInfix? p with
    | none =>
      refine ⟨x ++ (REDACTED ++ y), fun fuel hfuel => ?_⟩
      obtain ⟨k, rfl⟩ := Nat.exists_eq_add_of_lt hfuel
      rw [redactPattern, hfirst]
    | some ab =>
      obtain ⟨a, b⟩ := ab
      rcases hp.around (dropInfix?_some hfirst).symm with ⟨m, rfl, -⟩ | ⟨m, rfl, rfl⟩
      · exact absurd ⟨a, m, by simp⟩ hx
      · have hb : (b.dropWhile fun c => !isDelimiter c).length ≤ n := by
          have hle := (List.dropWhile_suffix (l := b) fun c => !isDelimiter c).length_le
          have hpos := List.length_pos_of_ne_nil hp.ne_nil
          simp only [List.length_append] at hy
          omega
        obtain ⟨r, hr⟩ := ih (dropInfix?_first hp.ne_nil hfirst) hb
        refine ⟨r, fun fuel hfuel => ?_⟩
        obtain ⟨k, rfl⟩ := Nat.exists_eq_add_of_lt hfuel
        rw [redactPattern, hfirst]
        exact hr _ (by omega)

theorem redactPattern_ends (hp : Apart REDACTED p) (l : List Char) :
    ∃ r n, ∀ fuel, n < fuel → redactPattern p fuel l = some r := by
  cases hfirst : l.dropInfix? p with
  | none =>
    refine ⟨l, 0, fun fuel hfuel => ?_⟩
    obtain ⟨k, rfl⟩ := Nat.exists_eq_add_of_lt hfuel
    rw [redactPattern, hfirst]
  | some ab =>
    obtain ⟨a, b⟩ := ab
    obtain ⟨r, hr⟩ := redactPattern_behind hp (dropInfix?_first hp.ne_nil hfirst)
      (Nat.le_refl (b.dropWhile fun c => !isDelimiter c).length)
    refine ⟨r, (b.dropWhile fun c => !isDelimiter c).length + 1, fun fuel hfuel => ?_⟩
    obtain ⟨k, rfl⟩ := Nat.exists_eq_add_of_lt hfuel
    rw [redactPattern, hfirst]
    exact hr _ (by omega)

/-! ## What is kept -/

/-- `r` is `l` with every replaced span, a known prefix with what comes before the
next delimiter, swapped for a marker. A marker that a later span reaches into
leaves its `]`. -/
inductive Masked : List Char → List Char → Prop
  | nil : Masked [] []
  | keep {c : Char} {l r : List Char} : Masked l r → Masked (c :: l) (c :: r)
  | mask {p t l r : List Char} (cut : Nat) : p ∈ SECRET_PATTERNS → UpToDelimiter t l → Masked l r →
    Masked (p ++ (t ++ l)) (REDACTED ++ (List.replicate cut ']' ++ r))

namespace Masked

theorem refl : Masked l l := by
  induction l with
  | nil => exact .nil
  | cons c l ih => exact ih.keep

/-- What does not run into a marker was there before. -/
theorem front (h : Masked x (p ++ y)) (hp : Off p REDACTED) : ∃ x', x = p ++ x' ∧ Masked x' y := by
  induction p generalizing x with
  | nil => exact ⟨x, rfl, h⟩
  | cons c p ih =>
    generalize hz : c :: p ++ y = z at h
    cases h with
    | nil => cases hz
    | keep h =>
      obtain ⟨rfl, rfl⟩ := List.cons.inj hz
      obtain ⟨x', rfl, hx'⟩ := ih h hp.tail
      exact ⟨x', rfl, hx'⟩
    | mask => exact absurd hz (hp.front (List.cons_ne_nil c p))

/-- The rest of a span, as far as a delimiter of the text or the `]` of a marker. -/
theorem span (h : Masked x (t ++ b)) (ht : UpToDelimiter t b) :
    ∃ s x' n b', x = s ++ x' ∧ UpToDelimiter s x' ∧ b = List.replicate n ']' ++ b' ∧ Masked x' b' := by
  induction t generalizing x with
  | nil =>
    refine ⟨[], x, 0, b, rfl, ⟨by simp, ?_⟩, rfl, h⟩
    cases h with
    | nil => simp
    | keep => exact ht.next
    | mask => exact absurd (ht.next '[' rfl) (by decide)
  | cons c t ih =>
    generalize hz : c :: t ++ b = z at h
    cases h with
    | nil => cases hz
    | keep h =>
      obtain ⟨rfl, rfl⟩ := List.cons.inj hz
      have ht' : UpToDelimiter t b := ⟨fun d hd => ht.inside d (List.mem_cons_of_mem c hd), ht.next⟩
      obtain ⟨s, x', n, b', rfl, hs, hb, hx'⟩ := ih h ht'
      refine ⟨c :: s, x', n, b', rfl, ⟨?_, hs.next⟩, hb, hx'⟩
      exact List.forall_mem_cons.mpr ⟨ht.inside c List.mem_cons_self, hs.inside⟩
    | @mask q s l r cut hq hs hl =>
      -- the span ends at the `]` of the marker
      have hmark : UpToDelimiter "[REDACTED".toList (']' :: (List.replicate cut ']' ++ r)) :=
        ⟨forall_of_all (by decide), by simp; decide⟩
      obtain ⟨-, rfl⟩ := ht.unique hmark hz
      refine ⟨q ++ s, l, cut + 1, r, by simp, ⟨?_, hs.next⟩, rfl, hl⟩
      intro d hd
      rcases List.mem_append.mp hd with hd | hd
      · simpa using List.all_eq_true.mp (plain_of_mem hq).noDelimiter d hd
      · exact hs.inside d hd

/-- One more replacement. -/
theorem step (h : Masked x y) (hy : y = a ++ (p ++ (t ++ b))) (hp : p ∈ SECRET_PATTERNS) (ht : UpToDelimiter t b) :
    Masked x (a ++ (REDACTED ++ b)) := by
  have hplain := plain_of_mem hp
  induction h generalizing a with
  | nil => exact absurd (List.append_eq_nil_iff.mp (List.append_eq_nil_iff.mp hy.symm).2).1 hplain.apart.ne_nil
  | @keep c l r h ih =>
    cases a with
    | nil =>
      have hfront : Masked (c :: l) (p ++ (t ++ b)) := by
        rw [List.nil_append] at hy
        exact hy ▸ h.keep
      obtain ⟨x', hx, hx'⟩ := hfront.front hplain.apart.before
      obtain ⟨s, v, n, b', rfl, hs, rfl, hv⟩ := hx'.span ht
      rw [hx]
      exact .mask n hp hs hv
    | cons d a =>
      obtain ⟨rfl, hr⟩ := List.cons.inj hy
      exact (ih hr).keep
  | @mask q s l r cut hq hs hl ih =>
    obtain ⟨m, rfl, hm⟩ := hplain.apart.behind.skip hy.symm
    have hoff : Off (List.replicate cut ']') p := by
      refine off_of_disjoint (fun c hc hcp => ?_) hplain.apart.ne_nil
      rw [List.eq_of_mem_replicate hc] at hcp
      exact absurd (List.all_eq_true.mp hplain.noDelimiter _ hcp) (by decide)
    obtain ⟨m', rfl, hm'⟩ := hoff.skip hm.symm
    have := Masked.mask cut hq hs (ih hm')
    simpa using this

end Masked

theorem Rounds.masked (h : Rounds p l r) (hp : p ∈ SECRET_PATTERNS) (hx : Masked x l) : Masked x r := by
  induction h with
  | done => exact hx
  | round ht _ ih => exact ih (hx.step rfl hp ht)

/-! ## All patterns -/

variable {ps : List (List Char)}

theorem redactPattern_unchanged (h : ¬ p <:+: l) (hfuel : 0 < fuel) : redactPattern p fuel l = some l := by
  obtain ⟨k, rfl⟩ := Nat.exists_eq_add_of_lt hfuel
  rw [redactPattern, dropInfix?_none.mpr h]

theorem patterns_end (h : ∀ p ∈ ps, p ∈ SECRET_PATTERNS) (l : List Char) :
    ∃ r n, ∀ fuel, n < fuel → ps.foldlM (fun output p => redactPattern p fuel output) l = some r := by
  induction ps generalizing l with
  | nil => exact ⟨l, 0, fun _ _ => rfl⟩
  | cons p ps ih =>
    obtain ⟨hp, hps⟩ := List.forall_mem_cons.mp h
    obtain ⟨m, n₁, hm⟩ := redactPattern_ends (plain_of_mem hp).apart l
    obtain ⟨r, n₂, hr⟩ := ih hps m
    refine ⟨r, max n₁ n₂, fun fuel hfuel => ?_⟩
    rw [List.foldlM_cons, hm fuel (by omega)]
    exact hr fuel (by omega)

theorem patterns_unchanged (h : ∀ p ∈ ps, ¬ p <:+: l) (hfuel : 0 < fuel) :
    ps.foldlM (fun output p => redactPattern p fuel output) l = some l := by
  induction ps with
  | nil => rfl
  | cons p ps ih =>
    obtain ⟨hp, hps⟩ := List.forall_mem_cons.mp h
    rw [List.foldlM_cons, redactPattern_unchanged hp hfuel]
    exact ih hps

/-- What is masked stays away while the later patterns are masked. -/
theorem patterns_gone (h : ∀ p ∈ ps, p ∈ SECRET_PATTERNS)
    (hr : ps.foldlM (fun output p => redactPattern p fuel output) l = some r) :
    (∀ q, Apart REDACTED q → ¬ q <:+: l → ¬ q <:+: r) ∧ ∀ p ∈ ps, ¬ p <:+: r := by
  induction ps generalizing l with
  | nil =>
    cases hr
    exact ⟨fun _ _ h => h, by simp⟩
  | cons p ps ih =>
    obtain ⟨hp, hps⟩ := List.forall_mem_cons.mp h
    rw [List.foldlM_cons] at hr
    obtain ⟨m, hm, hr⟩ := Option.bind_eq_some_iff.mp hr
    have hrounds := rounds_of_redactPattern hm
    obtain ⟨hstay, hgone⟩ := ih hps hr
    refine ⟨fun q hq hl => hstay q hq (hrounds.stays hq hl), List.forall_mem_cons.mpr ⟨?_, hgone⟩⟩
    exact hstay p (plain_of_mem hp).apart hrounds.not_isInfix

theorem patterns_masked (h : ∀ p ∈ ps, p ∈ SECRET_PATTERNS)
    (hr : ps.foldlM (fun output p => redactPattern p fuel output) l = some r) (hx : Masked x l) : Masked x r := by
  induction ps generalizing l with
  | nil =>
    cases hr
    exact hx
  | cons p ps ih =>
    obtain ⟨hp, hps⟩ := List.forall_mem_cons.mp h
    rw [List.foldlM_cons] at hr
    obtain ⟨m, hm, hr⟩ := Option.bind_eq_some_iff.mp hr
    exact ih hps hr ((rounds_of_redactPattern hm).masked hp hx)

/-- With enough searches the loops end, always with the same text. It has no known
prefix in it, keeps what is outside the replaced spans, and is left as it is by
another application. -/
theorem redactSecrets_complete (input : List Char) :
    ∃ output, (∃ n, ∀ fuel, n < fuel → redactSecrets fuel input = some output) ∧
      (∀ p ∈ SECRET_PATTERNS, ¬ p <:+: output) ∧ Masked input output ∧
      ∀ fuel, 0 < fuel → redactSecrets fuel output = some output := by
  obtain ⟨output, n, hn⟩ := patterns_end (fun _ hp => hp) input
  have hout := hn (n + 1) (Nat.lt_succ_self n)
  have hgone := (patterns_gone (fun _ hp => hp) hout).2
  refine ⟨output, ⟨n, hn⟩, hgone, patterns_masked (fun _ hp => hp) hout .refl, fun fuel hfuel => ?_⟩
  exact patterns_unchanged hgone hfuel

/-- The second span reaches into the marker of the first one. -/
example : redactSecrets 3 "a lin_api_xghp_y b".toList = some "a [REDACTED]] b".toList := by decide

end Claudear.Core
