import Claudear.Text.Lines

/-!
# Reading outside quotes

`splitUnquoted` goes through a text with the quotation mark that is open and splits it at
the first character that stands outside quotes and meets a condition. The condition sees
what is before the character and what follows it; whether a mark opens a quote is asked of
the character before it.
-/

namespace Claudear.Text

/-- When a quotation mark opens a quote, and at which character a text is split. -/
structure Quoting where
  opens : Option Char → Bool
  stop : Option Char → Char → List Char → Bool

namespace Quoting

variable {Q : Quoting} {quote previous : Option Char} {c m : Char} {t u r : List Char}

def after (Q : Quoting) (quote previous : Option Char) (c : Char) : Option Char :=
  match quote with
  | none => if (c = '"' ∨ c = '\'') ∧ Q.opens previous then some c else none
  | some open' => if c = open' then none else some open'

def splitUnquoted (Q : Quoting) (quote previous : Option Char) : List Char → Option (List Char × List Char)
  | [] => none
  | c :: rest =>
    if quote = none ∧ Q.stop previous c rest then some ([], rest)
    else (Q.splitUnquoted (Q.after quote previous c) (some c) rest).map (Prod.map (c :: ·) id)

theorem splitUnquoted_eq_some (h : Q.splitUnquoted quote previous t = some (u, r)) : ∃ c, t = u ++ c :: r := by
  induction t generalizing quote previous u with
  | nil => exact absurd h (Option.some_ne_none _).symm
  | cons c t ih =>
    rw [splitUnquoted] at h
    split at h
    · obtain ⟨rfl, rfl⟩ := Prod.mk.inj (Option.some.inj h)
      exact ⟨c, rfl⟩
    · obtain ⟨⟨v, r'⟩, hv, heq⟩ := Option.map_eq_some_iff.mp h
      obtain ⟨rfl, rfl⟩ := Prod.mk.inj heq
      exact (ih hv).imp fun d hd => congrArg (List.cons c) hd

/-! ## Through a part of the text -/

/-- The quotation mark that is open after a text. -/
def through (Q : Quoting) (quote previous : Option Char) : List Char → Option Char
  | [] => quote
  | c :: rest => Q.through (Q.after quote previous c) (some c) rest

/-- The text is not split in `t`, where `r` follows. -/
def NoStop (Q : Quoting) (r : List Char) (quote previous : Option Char) : List Char → Prop
  | [] => True
  | c :: rest => ¬ (quote = none ∧ Q.stop previous c (rest ++ r)) ∧ Q.NoStop r (Q.after quote previous c) (some c) rest

/-- The last character of `t`, with what is before it. -/
def lastOf (previous : Option Char) (t : List Char) : Option Char := t.getLast?.or previous

@[simp] theorem lastOf_nil : lastOf previous [] = previous := rfl

@[simp] theorem lastOf_cons : lastOf previous (c :: t) = lastOf (some c) t := by
  cases t with
  | nil => rfl
  | cons d t => rw [lastOf, lastOf, List.getLast?_cons_cons, List.getLast?_eq_some_getLast (List.cons_ne_nil d t)]; rfl

theorem lastOf_of_ne_nil (h : t ≠ []) : lastOf previous t = some (t.getLast h) := by
  rw [lastOf, List.getLast?_eq_some_getLast h]
  rfl

theorem splitUnquoted_append (h : Q.NoStop r quote previous t) : Q.splitUnquoted quote previous (t ++ r) =
    (Q.splitUnquoted (Q.through quote previous t) (lastOf previous t) r).map (Prod.map (t ++ ·) id) := by
  induction t generalizing quote previous with
  | nil => exact (congrFun Option.map_id _).symm
  | cons c t ih =>
    obtain ⟨hc, ht⟩ := h
    rw [List.cons_append, splitUnquoted, if_neg hc, ih ht, through, lastOf_cons, Option.map_map]
    rfl

theorem splitUnquoted_eq_none (h : Q.NoStop [] quote previous t) : Q.splitUnquoted quote previous t = none := by
  have happend := splitUnquoted_append h
  rw [List.append_nil] at happend
  rw [happend]
  rfl

theorem through_append : Q.through quote previous (t ++ u) = Q.through (Q.through quote previous t) (lastOf previous t) u := by
  induction t generalizing quote previous with
  | nil => rfl
  | cons c t ih => rw [List.cons_append, through, ih, through, lastOf_cons]

theorem noStop_append : Q.NoStop r quote previous (t ++ u) ↔
    Q.NoStop (u ++ r) quote previous t ∧ Q.NoStop r (Q.through quote previous t) (lastOf previous t) u := by
  induction t generalizing quote previous with
  | nil => simp [NoStop, through]
  | cons c t ih => rw [List.cons_append, NoStop, NoStop, ih, through, lastOf_cons, List.append_assoc, and_assoc]

/-! ## Texts without marks, and quoted texts -/

/-- Neither a quotation mark nor a character the text is ever split at. -/
def Plain (Q : Quoting) (c : Char) : Prop := c ≠ '"' ∧ c ≠ '\'' ∧ ∀ previous r, Q.stop previous c r = false

theorem after_of_not_mark (h : c ≠ '"' ∧ c ≠ '\'') : Q.after none previous c = none :=
  if_neg fun ⟨hc, _⟩ => hc.elim h.1 h.2

theorem through_of_plain (h : ∀ c ∈ t, Q.Plain c) : Q.through none previous t = none := by
  induction t generalizing previous with
  | nil => rfl
  | cons c t ih =>
    obtain ⟨hc, ht⟩ := List.forall_mem_cons.mp h
    rw [through, after_of_not_mark ⟨hc.1, hc.2.1⟩]
    exact ih ht

theorem noStop_of_stop_false (h : ∀ u c v, t = u ++ c :: v → Q.stop (lastOf previous u) c (v ++ r) = false) :
    Q.NoStop r quote previous t := by
  induction t generalizing quote previous with
  | nil => trivial
  | cons c t ih =>
    refine ⟨fun hstop => ?_, ih fun u d v ht => ?_⟩
    · have hc : Q.stop previous c (t ++ r) = false := h [] c t rfl
      rw [hc] at hstop
      exact Bool.false_ne_true hstop.2
    · subst ht
      simpa using h (c :: u) d v rfl

theorem noStop_of_plain (h : ∀ c ∈ t, Q.Plain c) : Q.NoStop r quote previous t := by
  refine noStop_of_stop_false fun u c v ht => (h c ?_).2.2 _ _
  rw [ht]
  exact List.mem_append_right u List.mem_cons_self

/-- Between quotation marks nothing is read. -/
theorem noStop_quoted (h : m ∉ t) : Q.NoStop r (some m) previous t ∧ Q.through (some m) previous t = some m := by
  induction t generalizing previous with
  | nil => exact ⟨trivial, rfl⟩
  | cons c t ih =>
    rw [List.mem_cons, not_or] at h
    have hc : Q.after (some m) previous c = some m := if_neg (Ne.symm h.1)
    rw [NoStop, through, hc]
    exact ⟨⟨fun hstop => Option.some_ne_none m hstop.1, (ih h.2).1⟩, (ih h.2).2⟩

theorem noStop_enclosed (hm : m = '"' ∨ m = '\'') (ho : Q.opens previous = true) (hs : ∀ p r, Q.stop p m r = false)
    (h : m ∉ t) : Q.NoStop r none previous (m :: (t ++ [m])) ∧ Q.through none previous (m :: (t ++ [m])) = none := by
  have hopen : Q.after none previous m = some m := if_pos ⟨hm, ho⟩
  obtain ⟨hstop, hthrough⟩ := noStop_quoted (Q := Q) (r := [m] ++ r) h
  rw [NoStop, through, hopen, noStop_append, through_append, hthrough]
  refine ⟨⟨fun hcontra => ?_, hstop, fun hcontra => Option.some_ne_none m hcontra.1, trivial⟩, if_pos rfl⟩
  rw [hs] at hcontra
  exact Bool.false_ne_true hcontra.2

end Quoting

end Claudear.Text
