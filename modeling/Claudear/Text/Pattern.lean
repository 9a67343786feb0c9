import Mathlib.Data.List.Basic
import Mathlib.Tactic.Common

/-!
# Patterns with priorities

A pattern is what a backtracking search runs: alternatives and repetitions are
tried in order, and the first way to match wins. `Matches r b u a` says that `r`
describes `u` between the characters `b` and `a` next to it, which is all that
`\b` and `^` look at. `run` lists what is left after every way to match a
beginning, the preferred way first; it finds exactly what `Matches` describes
(`mem_run`).

Word characters are the ASCII letters and digits and `_`.
-/

namespace Claudear.Text

inductive Pat where
  | empty
  | one (p : Char → Bool)
  /-- `\b` -/
  | boundary
  /-- `^` -/
  | start
  | seq (r s : Pat)
  | alt (r s : Pat)
  /-- Any number of times, first as often (or as seldom) as it can be. -/
  | star (greedy : Bool) (r : Pat)

def isWordChar (c : Char) : Bool := c.isAlphanum || c = '_'

/-- No character is no word character. -/
def isWord (c : Option Char) : Bool := c.any isWordChar

/-- The character before what follows `u`. -/
def lastOf {α : Type*} (b : Option α) (u : List α) : Option α := u.foldl (fun _ c => some c) b

section
variable {α : Type*} {b b' : Option α} {u v : List α} {c : α}

@[simp] theorem lastOf_nil : lastOf b [] = b := rfl

@[simp] theorem lastOf_cons : lastOf b (c :: u) = lastOf (some c) u := rfl

@[simp] theorem lastOf_append : lastOf b (u ++ v) = lastOf (lastOf b u) v := List.foldl_append

theorem lastOf_congr (hu : u ≠ []) : lastOf b u = lastOf b' u := by
  cases u with
  | nil => exact absurd rfl hu
  | cons c u => rfl

end

namespace Pat

/-! ## Abbreviations -/

def seqs (l : List Pat) : Pat := l.foldr seq empty

def alts (l : List Pat) : Pat := l.foldr alt (one fun _ => false)

def lit (s : String) : Pat := seqs (s.toList.map fun c => one (· = c))

/-- In either case. -/
def ilit (s : String) : Pat := seqs (s.toList.map fun c => one fun d => d.toLower = c.toLower)

def opt (r : Pat) : Pat := alt r empty

def many (p : Char → Bool) : Pat := star true (one p)

/-- `{n,}` -/
def atLeast (n : Nat) (p : Char → Bool) : Pat := (List.replicate n (one p)).foldr seq (many p)

/-- `{0,n}` -/
def upTo (p : Char → Bool) : Nat → Pat
  | 0 => empty
  | n + 1 => opt (seq (one p) (upTo p n))

/-- `{n}` -/
def times (n : Nat) (p : Char → Bool) : Pat := seqs (List.replicate n (one p))

inductive Matches : Pat → Option Char → List Char → Option Char → Prop
  | empty {b a} : Matches empty b [] a
  | one {p c b a} : p c = true → Matches (one p) b [c] a
  | boundary {b a} : isWord b ≠ isWord a → Matches boundary b [] a
  | start {a} : Matches start none [] a
  | seq {r s b u v w a} : w = u ++ v → Matches r b u (v.head?.or a) → Matches s (lastOf b u) v a →
      Matches (seq r s) b w a
  | left {r s b u a} : Matches r b u a → Matches (alt r s) b u a
  | right {r s b u a} : Matches s b u a → Matches (alt r s) b u a
  | done {g r b a} : Matches (star g r) b [] a
  | again {g r b u v w a} : w = u ++ v → u ≠ [] → Matches r b u (v.head?.or a) →
      Matches (star g r) (lastOf b u) v a → Matches (star g r) b w a

/-! ## Search -/

/-- Repetitions of what is left after `body`, each of which takes something. -/
def repeats (body : Option Char → List Char → List (Option Char × List Char)) (greedy : Bool) :
    Nat → Option Char → List Char → List (Option Char × List Char)
  | 0, b, l => [(b, l)]
  | n + 1, b, l =>
    let more := ((body b l).filter fun x => x.2.length < l.length).flatMap fun x =>
      repeats body greedy n x.1 x.2
    if greedy then more ++ [(b, l)] else (b, l) :: more

/-- What is left after each way to match a beginning of the text, with the character before it. -/
def run : Pat → Option Char → List Char → List (Option Char × List Char)
  | empty, b, l => [(b, l)]
  | one _, _, [] => []
  | one p, _, c :: l => if p c then [(some c, l)] else []
  | boundary, b, l => if isWord b = isWord l.head? then [] else [(b, l)]
  | start, b, l => if b = none then [(b, l)] else []
  | seq r s, b, l => (run r b l).flatMap fun x => run s x.1 x.2
  | alt r s, b, l => run r b l ++ run s b l
  | star g r, b, l => repeats (run r) g l.length b l

section Search

variable {r s : Pat} {g : Bool} {b b' a : Option Char} {u v w l : List Char} {p : Char → Bool}
  {x : Option Char × List Char} {A B : Option Char → List Char → Option Char → Prop}

theorem matches_seq : Matches (seq r s) b w a ↔
    ∃ u v, w = u ++ v ∧ Matches r b u (v.head?.or a) ∧ Matches s (lastOf b u) v a := by
  constructor
  · intro h
    cases h with
    | seq hw hr hs => exact ⟨_, _, hw, hr, hs⟩
  · rintro ⟨u, v, hw, hr, hs⟩
    exact .seq hw hr hs

theorem matches_alt : Matches (alt r s) b u a ↔ Matches r b u a ∨ Matches s b u a := by
  constructor
  · intro h
    cases h with
    | left h => exact .inl h
    | right h => exact .inr h
  · rintro (h | h)
    · exact .left h
    · exact .right h

theorem matches_star : Matches (star g r) b w a ↔ w = [] ∨
    ∃ u v, w = u ++ v ∧ (u ≠ [] ∧ Matches r b u (v.head?.or a)) ∧ Matches (star g r) (lastOf b u) v a := by
  constructor
  · intro h
    cases h with
    | done => exact .inl rfl
    | again hw hu hr hs => exact .inr ⟨_, _, hw, ⟨hu, hr⟩, hs⟩
  · rintro (rfl | ⟨u, v, hw, ⟨hu, hr⟩, hs⟩)
    · exact .done
    · exact .again hw hu hr hs

/-- `x` is what is left of `l` behind a text that `A` describes, with the character before it. -/
def Leaves (A : Option Char → List Char → Option Char → Prop) (b : Option Char) (l : List Char)
    (x : Option Char × List Char) : Prop :=
  ∃ u, l = u ++ x.2 ∧ x.1 = lastOf b u ∧ A b u x.2.head?

/-- Where only the empty text is described, everything is left. -/
theorem leaves_of_nil {c : Option Char → Prop} (hA : ∀ u a, A b u a ↔ u = [] ∧ c a) :
    Leaves A b l x ↔ x = (b, l) ∧ c l.head? := by
  constructor
  · rintro ⟨u, rfl, hb, hu⟩
    obtain ⟨rfl, hc⟩ := (hA u _).mp hu
    exact ⟨Prod.ext hb rfl, hc⟩
  · rintro ⟨rfl, hc⟩
    exact ⟨[], rfl, rfl, (hA _ _).mpr ⟨rfl, hc⟩⟩

/-- What is left behind two texts is left behind the second of what the first leaves. -/
theorem leaves_append :
    Leaves (fun b w a => ∃ u v, w = u ++ v ∧ A b u (v.head?.or a) ∧ B (lastOf b u) v a) b l x ↔
      ∃ y, Leaves A b l y ∧ Leaves B y.1 y.2 x := by
  constructor
  · rintro ⟨w, rfl, hb, u, v, rfl, hu, hv⟩
    refine ⟨(lastOf b u, v ++ x.2), ⟨u, List.append_assoc .., rfl, ?_⟩, v, rfl, by rw [hb, lastOf_append], hv⟩
    rw [List.head?_append]
    exact hu
  · rintro ⟨⟨b', l'⟩, ⟨u, rfl, rfl, hu⟩, v, rfl, hb, hv⟩
    refine ⟨u ++ v, (List.append_assoc ..).symm, by rw [hb, lastOf_append], u, v, rfl, ?_, hv⟩
    rw [← List.head?_append]
    exact hu

theorem leaves_or : Leaves (fun b u a => A b u a ∨ B b u a) b l x ↔ Leaves A b l x ∨ Leaves B b l x := by
  simp only [Leaves, and_or_left, exists_or]

theorem leaves_congr (h : ∀ b u a, A b u a ↔ B b u a) : Leaves A b l x ↔ Leaves B b l x := by
  simp only [Leaves, h]

theorem leaves_ne_nil {y : Option Char × List Char} :
    Leaves (fun b u a => u ≠ [] ∧ A b u a) b l y ↔ Leaves A b l y ∧ y.2.length < l.length := by
  constructor
  · rintro ⟨u, rfl, hb, hu, h⟩
    have hpos := List.length_pos_of_ne_nil hu
    refine ⟨⟨u, rfl, hb, h⟩, ?_⟩
    rw [List.length_append]
    omega
  · rintro ⟨⟨u, rfl, hb, h⟩, hlt⟩
    refine ⟨u, rfl, hb, ?_, h⟩
    rintro rfl
    exact Nat.lt_irrefl _ hlt

theorem leaves_star : Leaves (Matches (star g r)) b l x ↔ x = (b, l) ∨
    ∃ y, (Leaves (Matches r) b l y ∧ y.2.length < l.length) ∧ Leaves (Matches (star g r)) y.1 y.2 x := by
  rw [leaves_congr fun _ _ _ => matches_star, leaves_or,
    leaves_of_nil (c := fun _ => True) fun _ _ => (and_iff_left trivial).symm, and_iff_left trivial,
    leaves_append (A := fun b u a => u ≠ [] ∧ Matches r b u a) (B := Matches (star g r))]
  simp only [leaves_ne_nil]

theorem mem_repeats {body : Option Char → List Char → List (Option Char × List Char)}
    (hbody : ∀ b l x, x ∈ body b l ↔ Leaves (Matches r) b l x) {n : Nat} (hn : l.length ≤ n) :
    x ∈ repeats body g n b l ↔ Leaves (Matches (star g r)) b l x := by
  induction n generalizing b l with
  | zero =>
    rw [leaves_star, repeats, List.mem_singleton, or_iff_left]
    rintro ⟨y, ⟨-, hlt⟩, -⟩
    omega
  | succ n ih =>
    have hmem : x ∈ repeats body g (n + 1) b l ↔ x = (b, l) ∨ ∃ y, (y ∈ body b l ∧ y.2.length < l.length) ∧
        x ∈ repeats body g n y.1 y.2 := by
      rw [repeats]
      cases g <;> simp [and_assoc, or_comm]
    rw [hmem, leaves_star]
    refine or_congr Iff.rfl (exists_congr fun y => ?_)
    rw [hbody]
    refine and_congr_right fun ⟨_, hlt⟩ => ih ?_
    omega

/-- The search finds every way to match a beginning, and no other. -/
theorem mem_run : x ∈ run r b l ↔ Leaves (Matches r) b l x := by
  induction r generalizing b l x with
  | empty =>
    rw [run, List.mem_singleton, leaves_of_nil (c := fun _ => True), and_iff_left trivial]
    exact fun u a => ⟨fun h => by cases h; exact ⟨rfl, trivial⟩, fun ⟨h, _⟩ => h ▸ .empty⟩
  | one p =>
    cases l with
    | nil =>
      refine iff_of_false List.not_mem_nil ?_
      rintro ⟨u, h, -, hm⟩
      cases hm
      cases h
    | cons c l =>
      rw [run]
      constructor
      · intro h
        split at h
        · rename_i hc
          rw [List.mem_singleton.mp h]
          exact ⟨[c], rfl, rfl, .one hc⟩
        · cases h
      · rintro ⟨u, h, hb, hm⟩
        cases hm with
        | one hp =>
          obtain ⟨rfl, hx⟩ := List.cons.inj h
          rw [if_pos hp, List.mem_singleton]
          exact Prod.ext hb hx.symm
  | boundary =>
    rw [leaves_of_nil (c := fun a => isWord b ≠ isWord a), run]
    · split <;> simp [*]
    · intro u a
      constructor
      · intro h
        cases h with
        | boundary hne => exact ⟨rfl, hne⟩
      · rintro ⟨rfl, hne⟩
        exact .boundary hne
  | start =>
    rw [leaves_of_nil (c := fun _ => b = none), run]
    · split <;> simp [*]
    · intro u a
      constructor
      · intro h
        cases h
        exact ⟨rfl, rfl⟩
      · rintro ⟨rfl, rfl⟩
        exact .start
  | seq r s ihr ihs =>
    rw [run, List.mem_flatMap, leaves_congr fun _ _ _ => matches_seq, leaves_append]
    simp only [ihr, ihs]
  | alt r s ihr ihs => rw [run, List.mem_append, leaves_congr fun _ _ _ => matches_alt, leaves_or, ihr, ihs]
  | star g r ih => exact mem_repeats (fun b l x => ih) (Nat.le_refl _)

end Search

/-! ## What can be told from a pattern -/

/-- May describe no character at all. -/
def nullable : Pat → Bool
  | one _ => false
  | seq r s => r.nullable && s.nullable
  | alt r s => r.nullable || s.nullable
  | _ => true

/-- Has no use for the character. -/
def avoids (c : Char) : Pat → Bool
  | one p => !p c
  | seq r s => r.avoids c && s.avoids c
  | alt r s => r.avoids c && s.avoids c
  | star _ r => r.avoids c
  | _ => true

/-- May describe a text that begins with the character. -/
def canStart (c : Char) : Pat → Bool
  | one p => p c
  | seq r s => r.canStart c || r.nullable && s.canStart c
  | alt r s => r.canStart c || s.canStart c
  | star _ r => r.canStart c
  | _ => false

/-- Describes no text that is made of characters of `s`. -/
def outside (s : List Char) : Pat → Bool
  | one p => s.all fun c => !p c
  | seq r t => r.outside s || t.outside s
  | alt r t => r.outside s && t.outside s
  | _ => false

/-- The characters a described text has at least. -/
def minLength : Pat → Nat
  | one _ => 1
  | seq r s => r.minLength + s.minLength
  | alt r s => min r.minLength s.minLength
  | _ => 0

/-- Does not look at the character before the text. -/
def blind : Pat → Bool
  | boundary => false
  | start => false
  | seq r s => r.blind && (!r.nullable || s.blind)
  | alt r s => r.blind && s.blind
  | star _ r => r.blind
  | _ => true

/-- Has no `^`. -/
def startFree : Pat → Bool
  | start => false
  | seq r s => r.startFree && s.startFree
  | alt r s => r.startFree && s.startFree
  | star _ r => r.startFree
  | _ => true

section Matches

variable {r s : Pat} {b b' a a' : Option Char} {c : Char} {u v : List Char}

theorem Matches.ne_nil (h : Matches r b u a) (hr : r.nullable = false) : u ≠ [] := by
  induction h with
  | empty | boundary | start | done | again => cases hr
  | one => exact List.cons_ne_nil _ _
  | seq hw _ _ ihr ihs =>
    subst hw
    rcases Bool.and_eq_false_iff.mp hr with hr | hr
    · exact List.append_ne_nil_of_left_ne_nil (ihr hr) _
    · exact List.append_ne_nil_of_right_ne_nil _ (ihs hr)
  | left _ ih => exact ih (Bool.or_eq_false_iff.mp hr).1
  | right _ ih => exact ih (Bool.or_eq_false_iff.mp hr).2

theorem Matches.not_mem (h : Matches r b u a) (hr : r.avoids c = true) : c ∉ u := by
  induction h with
  | empty | boundary | start | done => exact List.not_mem_nil
  | one hp =>
    rintro hc
    rw [List.mem_singleton.mp hc] at hr
    simp [avoids, hp] at hr
  | seq hw _ _ ihr ihs =>
    obtain ⟨hr, hs⟩ := Bool.and_eq_true_iff.mp hr
    rw [hw, List.mem_append, not_or]
    exact ⟨ihr hr, ihs hs⟩
  | left _ ih => exact ih (Bool.and_eq_true_iff.mp hr).1
  | right _ ih => exact ih (Bool.and_eq_true_iff.mp hr).2
  | again hw _ _ _ ihr ihs =>
    rw [hw, List.mem_append, not_or]
    exact ⟨ihr hr, ihs hr⟩

theorem Matches.exists_outside {l : List Char} (h : Matches r b u a) (hr : r.outside l = true) :
    ∃ c ∈ u, c ∉ l := by
  induction h with
  | empty | boundary | start | done | again => cases hr
  | @one p c _ _ hp =>
    refine ⟨c, List.mem_singleton_self c, fun hc => ?_⟩
    have := List.all_eq_true.mp hr c hc
    simp [hp] at this
  | seq hw _ _ ihr ihs =>
    subst hw
    rcases Bool.or_eq_true _ _ ▸ hr with hr | hr
    · obtain ⟨c, hc, hn⟩ := ihr hr
      exact ⟨c, List.mem_append_left _ hc, hn⟩
    · obtain ⟨c, hc, hn⟩ := ihs hr
      exact ⟨c, List.mem_append_right _ hc, hn⟩
  | left _ ih => exact ih (Bool.and_eq_true_iff.mp hr).1
  | right _ ih => exact ih (Bool.and_eq_true_iff.mp hr).2

theorem Matches.minLength_le (h : Matches r b u a) : r.minLength ≤ u.length := by
  induction h with
  | empty | boundary | start | done | again => exact Nat.zero_le _
  | one => exact Nat.le_refl 1
  | seq hw _ _ ihr ihs =>
    rw [hw, List.length_append]
    exact Nat.add_le_add ihr ihs
  | left _ ih => exact Nat.le_trans (Nat.min_le_left ..) ih
  | right _ ih => exact Nat.le_trans (Nat.min_le_right ..) ih

theorem Matches.canStart (h : Matches r b u a) (hu : u.head? = some c) : r.canStart c = true := by
  induction h with
  | empty | boundary | start | done => cases hu
  | one hp =>
    cases hu
    exact hp
  | @seq r s _ u v _ _ hw hr _ ihr ihs =>
    subst hw
    rw [Pat.canStart, Bool.or_eq_true, Bool.and_eq_true]
    cases u with
    | nil =>
      refine .inr ⟨?_, ihs hu⟩
      by_contra hn
      exact hr.ne_nil (Bool.not_eq_true _ ▸ hn) rfl
    | cons d u => exact .inl (ihr hu)
  | left _ ih =>
    rw [Pat.canStart, ih hu]
    rfl
  | right _ ih =>
    rw [Pat.canStart, ih hu]
    exact Bool.or_true _
  | @again _ r _ u v _ _ hw hne _ _ ihr _ =>
    subst hw
    cases u with
    | nil => exact absurd rfl hne
    | cons d u => exact ihr hu

theorem Matches.of_blind (h : Matches r b u a) (hr : r.blind = true) : Matches r b' u a := by
  induction h generalizing b' with
  | empty => exact .empty
  | one hp => exact .one hp
  | boundary | start => cases hr
  | @seq r s b u v _ _ hw hm hs ihr ihs =>
    obtain ⟨hr, hs'⟩ := Bool.and_eq_true_iff.mp hr
    refine .seq hw (ihr hr) ?_
    by_cases hu : u = []
    · subst hu
      rcases Bool.or_eq_true _ _ ▸ hs' with hn | hs'
      · exact absurd rfl (hm.ne_nil (by simpa using hn))
      · exact ihs hs'
    · rw [lastOf_congr hu]
      exact hs
  | left _ ih => exact .left (ih (Bool.and_eq_true_iff.mp hr).1)
  | right _ ih => exact .right (ih (Bool.and_eq_true_iff.mp hr).2)
  | done => exact .done
  | @again _ r b u v _ _ hw hu hm hs ihr ihs =>
    refine .again hw hu (ihr hr) ?_
    rw [lastOf_congr hu]
    exact hs

/-- Before the text, it is only looked at whether a word goes on. -/
theorem Matches.of_isWord_eq (h : Matches r b u a) (hr : r.startFree = true) (hb : isWord b = isWord b') :
    Matches r b' u a := by
  induction h generalizing b' with
  | empty => exact .empty
  | one hp => exact .one hp
  | boundary hne => exact .boundary (hb ▸ hne)
  | start => cases hr
  | @seq r s b u v _ _ hw hm hs ihr ihs =>
    obtain ⟨hr, hs'⟩ := Bool.and_eq_true_iff.mp hr
    refine .seq hw (ihr hr hb) ?_
    by_cases hu : u = []
    · subst hu
      exact ihs hs' hb
    · rw [lastOf_congr hu]
      exact hs
  | left _ ih => exact .left (ih (Bool.and_eq_true_iff.mp hr).1 hb)
  | right _ ih => exact .right (ih (Bool.and_eq_true_iff.mp hr).2 hb)
  | done => exact .done
  | @again _ r b u v _ _ hw hu hm hs ihr ihs =>
    refine .again hw hu (ihr hr hb) ?_
    rw [lastOf_congr hu]
    exact hs

/-- The next character may be another one if words end as they did: it is as much a part of a word
as the first, or the text ends outside of a word and so does what follows. -/
def EndsAlike (l a a' : Option Char) : Prop :=
  isWord a = isWord a' ∨ isWord l = false ∧ isWord a = false

theorem Matches.of_endsAlike (h : Matches r b u a) (ha : EndsAlike (lastOf b u) a a') :
    Matches r b u a' := by
  induction h generalizing a' with
  | empty => exact .empty
  | one hp => exact .one hp
  | boundary hne =>
    refine .boundary ?_
    rcases ha with ha | ⟨hb, ha⟩
    · exact ha ▸ hne
    · exact absurd (hb.trans ha.symm) hne
  | start => exact .start
  | @seq r s b u v _ a hw hm hs ihr ihs =>
    subst hw
    refine .seq rfl (ihr ?_) (ihs (by rwa [lastOf_append] at ha))
    cases v with
    | nil => simpa using ha
    | cons c v => exact .inl rfl
  | left _ ih => exact .left (ih ha)
  | right _ ih => exact .right (ih ha)
  | done => exact .done
  | @again _ r b u v _ a hw hu hm hs ihr ihs =>
    subst hw
    refine .again rfl hu (ihr ?_) (ihs (by rwa [lastOf_append] at ha))
    cases v with
    | nil => simpa using ha
    | cons c v => exact .inl rfl

/-- After `\b`, a text that begins with a word character does not go on with a word. -/
theorem Matches.boundary_seq (h : Matches (Pat.seq Pat.boundary r) b u a) :
    Matches r b u a ∧ isWord b ≠ isWord (u.head?.or a) := by
  cases h with
  | seq hw hm hs =>
    cases hm with
    | boundary hne =>
      rw [hw]
      exact ⟨hs, hne⟩

theorem Matches.lit_eq {t : String} (h : Matches (lit t) b u a) : u = t.toList := by
  rw [lit] at h
  generalize t.toList = l at h ⊢
  induction l generalizing b u with
  | nil =>
    cases h
    rfl
  | cons c l ih =>
    cases h with
    | seq hw hr hs =>
      cases hr with
      | one hc =>
        rw [hw, ih hs, of_decide_eq_true hc]
        rfl

theorem Matches.seq_suffix {l : List Char} (h : Matches (Pat.seq r s) b u a)
    (hs : ∀ b u, Matches s b u a → l <:+ u) : l <:+ u := by
  cases h with
  | @seq _ _ _ x y _ _ hw _ hm =>
    rw [hw]
    exact (hs _ _ hm).trans (List.suffix_append x y)

theorem matches_many {p : Char → Bool} : Matches (many p) b u a ↔ ∀ c ∈ u, p c = true := by
  constructor
  · intro h
    rw [many] at h
    generalize hr : Pat.star true (Pat.one p) = r at h
    induction h with
    | empty | boundary | start | one | seq | left | right => cases hr
    | done => exact fun c hc => absurd hc List.not_mem_nil
    | again hw _ hm _ _ ih =>
      obtain ⟨rfl, rfl⟩ := Pat.star.inj hr
      cases hm with
      | one hc =>
        rw [hw]
        exact List.forall_mem_cons.mpr ⟨hc, ih rfl⟩
  · intro h
    induction u generalizing b with
    | nil => exact .done
    | cons c u ih =>
      obtain ⟨hc, hu⟩ := List.forall_mem_cons.mp h
      exact .again (u := [c]) rfl (List.cons_ne_nil _ _) (.one hc) (ih hu)

theorem matches_atLeast {p : Char → Bool} {n : Nat} :
    Matches (atLeast n p) b u a ↔ n ≤ u.length ∧ ∀ c ∈ u, p c = true := by
  induction n generalizing b u with
  | zero => exact matches_many.trans ⟨fun h => ⟨Nat.zero_le _, h⟩, fun h => h.2⟩
  | succ n ih =>
    constructor
    · intro h
      cases h with
      | seq hw hc hs =>
        cases hc with
        | one hc =>
          obtain ⟨hlen, hall⟩ := ih.mp hs
          rw [hw]
          exact ⟨Nat.succ_le_succ hlen, List.forall_mem_cons.mpr ⟨hc, hall⟩⟩
    · rintro ⟨hlen, hall⟩
      cases u with
      | nil => cases hlen
      | cons c u =>
        obtain ⟨hc, hu⟩ := List.forall_mem_cons.mp hall
        exact .seq (u := [c]) rfl (.one hc) (ih.mpr ⟨Nat.le_of_succ_le_succ hlen, hu⟩)

theorem Matches.of_upTo {p : Char → Bool} {n : Nat} (h : Matches (upTo p n) b u a) : ∀ c ∈ u, p c = true := by
  induction n generalizing b u with
  | zero =>
    cases h
    exact fun c hc => absurd hc List.not_mem_nil
  | succ n ih =>
    cases h with
    | left h =>
      cases h with
      | seq hw hc hs =>
        cases hc with
        | one hc =>
          rw [hw]
          exact List.forall_mem_cons.mpr ⟨hc, ih hs⟩
    | right h =>
      cases h
      exact fun c hc => absurd hc List.not_mem_nil

end Matches

/-! ## Where a pattern matches -/

/-- The pattern matches a beginning of the text. -/
def StartsAt (r : Pat) (b : Option Char) (l : List Char) : Prop :=
  ∃ u v, l = u ++ v ∧ r.Matches b u v.head?

section StartsAt

variable {r s : Pat} {b b' : Option Char} {l : List Char} {p : Char → Bool}

theorem StartsAt.of_blind (h : r.StartsAt b l) (hr : r.blind = true) : r.StartsAt b' l := by
  obtain ⟨u, v, rfl, hm⟩ := h
  exact ⟨u, v, rfl, hm.of_blind hr⟩

theorem StartsAt.of_seq (h : (seq r s).StartsAt b l) : r.StartsAt b l := by
  obtain ⟨w, x, rfl, hm⟩ := h
  cases hm with
  | @seq _ _ _ u v _ _ hw hr hs =>
    subst hw
    refine ⟨u, v ++ x, List.append_assoc .., ?_⟩
    rw [List.head?_append]
    exact hr

/-- A repetition at the end may take nothing. -/
theorem startsAt_seq_many : (seq r (many p)).StartsAt b l ↔ r.StartsAt b l := by
  refine ⟨StartsAt.of_seq, ?_⟩
  rintro ⟨u, v, rfl, hm⟩
  exact ⟨u, v, rfl, .seq (List.append_nil u).symm hm .done⟩

end StartsAt

/-! ## Greed -/

/-- The preferred match takes every character of the class that comes next. -/
def Greedy (p : Char → Bool) (r : Pat) : Prop :=
  ∀ b l x, (run r b l).head? = some x → ∀ c ∈ x.2.head?, p c = false

section Greedy

variable {r s : Pat} {p : Char → Bool} {b : Option Char} {l : List Char} {x : Option Char × List Char}

theorem head?_flatMap {α β : Type*} {f : α → List β} {l : List α} {y : β} (h : (l.flatMap f).head? = some y) :
    ∃ z ∈ l, (f z).head? = some y := by
  induction l with
  | nil => cases h
  | cons z l ih =>
    rw [List.flatMap_cons, List.head?_append] at h
    cases hz : (f z).head? with
    | some w =>
      rw [hz, Option.some_or] at h
      exact ⟨z, List.mem_cons_self, hz.trans h⟩
    | none =>
      rw [hz, Option.none_or] at h
      obtain ⟨w, hw, hy⟩ := ih h
      exact ⟨w, List.mem_cons_of_mem z hw, hy⟩

theorem Greedy.seq (h : Greedy p s) : Greedy p (seq r s) := by
  intro b l x hx
  obtain ⟨y, -, hy⟩ := head?_flatMap hx
  exact h _ _ x hy

theorem repeats_ne_nil {body : Option Char → List Char → List (Option Char × List Char)} {g : Bool} {n : Nat} :
    repeats body g n b l ≠ [] := by
  cases n with
  | zero => exact List.cons_ne_nil _ _
  | succ n =>
    rw [repeats]
    cases g <;> simp

theorem greedy_many : Greedy p (many p) := by
  have key : ∀ n b l x, l.length ≤ n → (repeats (run (one p)) true n b l).head? = some x →
      ∀ c ∈ x.2.head?, p c = false := by
    intro n
    induction n with
    | zero =>
      rintro b l x hn ⟨⟩
      rw [List.eq_nil_of_length_eq_zero (Nat.le_zero.mp hn)]
      exact fun _ h => by cases h
    | succ n ih =>
      intro b l x hn hx
      rw [repeats] at hx
      cases l with
      | nil =>
        cases hx
        exact fun _ h => by cases h
      | cons c l =>
        rw [run] at hx
        cases hc : p c with
        | false =>
          simp only [hc, Bool.false_eq_true, if_false, List.filter_nil, List.flatMap_nil, List.nil_append,
            if_true, List.head?_cons, Option.some.injEq] at hx
          subst hx
          rintro d ⟨⟩
          exact hc
        | true =>
          have hne : repeats (run (one p)) true n (some c) l ≠ [] := repeats_ne_nil
          obtain ⟨y, ys, hy⟩ := List.exists_cons_of_ne_nil hne
          have hfilter : [(some c, l)].filter (fun x => x.2.length < (c :: l).length) = [(some c, l)] := by
            simp
          simp only [hc, if_true, hfilter, List.flatMap_cons, List.flatMap_nil, List.append_nil, hy,
            List.cons_append, List.head?_cons, Option.some.injEq] at hx
          exact ih (some c) l x (Nat.le_of_succ_le_succ hn) (by rw [hy, List.head?_cons, hx])
  exact fun b l x hx => key _ b l x (Nat.le_refl _) hx

theorem greedy_atLeast (n : Nat) : Greedy p (atLeast n p) := by
  induction n with
  | zero => exact greedy_many
  | succ n ih => exact ih.seq

/-- A pattern behind another one that always matches is entered from the preferred match. -/
theorem head?_run_seq (hs : ∀ b l, run s b l ≠ []) (h : (run (seq r s) b l).head? = some x) :
    ∃ y, (run r b l).head? = some y ∧ (run s y.1 y.2).head? = some x := by
  rw [run] at h
  cases hr : run r b l with
  | nil =>
    rw [hr] at h
    cases h
  | cons y ys =>
    obtain ⟨z, zs, hz⟩ := List.exists_cons_of_ne_nil (hs y.1 y.2)
    rw [hr, List.flatMap_cons, hz] at h
    exact ⟨y, rfl, by rw [hz]; exact h⟩

end Greedy

end Pat

end Claudear.Text
