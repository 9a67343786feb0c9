import Claudear.Engine.PublicReason
import Claudear.Engine.ScrubComplete

/-!
# Sentences put together again

What a pattern finds in kept sentences that are joined by spaces lies in one of
them or reaches over a joint. In a sentence it would have been found in the
scrubbed text, behind a marker, unless it is a Windows path that a dropped dash
completes. Only a PEM header and Help Scout's name have a space in them and may
reach over a joint (`clean_rejoined`).
-/

namespace Claudear.Engine

open Claudear.Text Claudear.Text.Pat

/-- A character before which a path may begin, or none. No word goes on behind it. -/
def allowedAround (a b : Option Char) : Prop := a = b ∨ allowedBefore a = true ∧ allowedBefore b = true

section
variable {a a' b b' : Option Char} {c : Char} {u v : List Char} {q : Pat}

theorem not_isWordChar_of_beforePath (h : beforePath c = true) : isWordChar c = false := by
  simp only [beforePath, alnumOr, Bool.not_eq_true', Bool.or_eq_false_iff] at h
  rw [isWordChar, h.1, Bool.false_or, decide_eq_false_iff_not]
  rintro rfl
  exact absurd h.2 (by decide)

theorem not_isWord_of_allowedBefore (h : allowedBefore b = true) : isWord b = false := by
  cases b with
  | none => rfl
  | some c => exact not_isWordChar_of_beforePath h

theorem isWord_eq_of_allowedAround (h : allowedAround a b) : isWord a = isWord b := by
  rcases h with rfl | ⟨ha, hb⟩
  · rfl
  · rw [not_isWord_of_allowedBefore ha, not_isWord_of_allowedBefore hb]

theorem allowedBefore_of_allowedAround (h : allowedAround a b) (ha : allowedBefore a = true) :
    allowedBefore b = true := by
  rcases h with rfl | ⟨-, hb⟩
  · exact ha
  · exact hb

theorem toNat_of_isAlphanum (h : c.isAlphanum = true) :
    48 ≤ c.toNat ∧ c.toNat ≤ 57 ∨ 65 ≤ c.toNat ∧ c.toNat ≤ 90 ∨ 97 ≤ c.toNat ∧ c.toNat ≤ 122 := by
  have h : ((c.isUpper || c.isLower) || c.isDigit) = true := h
  rcases Bool.or_eq_true_iff.mp h with h | h
  · rcases Bool.or_eq_true_iff.mp h with h | h
    · have h : c.val ≥ 65 ∧ c.val ≤ 90 := of_decide_eq_true h
      exact .inr (.inl h)
    · obtain ⟨h1, h2⟩ := Bool.and_eq_true_iff.mp h
      exact .inr (.inr ⟨of_decide_eq_true h1, of_decide_eq_true h2⟩)
  · obtain ⟨h1, h2⟩ := Bool.and_eq_true_iff.mp h
    exact .inl ⟨of_decide_eq_true h1, of_decide_eq_true h2⟩

theorem beforePath_of_isWhitespace (h : isWhitespace c = true) : beforePath c = true := by
  cases hc : beforePath c with
  | true => rfl
  | false =>
    rw [beforePath, Bool.not_eq_false', alnumOr, Bool.or_eq_true] at hc
    rcases hc with hc | hc
    · have hnat := toNat_of_isAlphanum hc
      simp only [isWhitespace, whiteSpaceRanges, List.any_cons, List.any_nil, Bool.or_false, Bool.or_eq_true,
        decide_eq_true_eq] at h
      omega
    · have key : ∀ d ∈ "._/-".toList, isWhitespace d = false := forall_of_all (by decide)
      rw [key c (of_decide_eq_true hc)] at h
      cases h

/-- A pattern is not sensitive to which of these characters stand around. -/
theorem matches_of_allowedAround (hq : q.startFree = true) (hm : q.Matches b u a) (hb : allowedAround b b')
    (ha : allowedAround a a') : q.Matches b' u a' :=
  (hm.of_endsAlike (.inl (isWord_eq_of_allowedAround ha))).of_isWord_eq hq (isWord_eq_of_allowedAround hb)

end

/-! ## The patterns of the rules -/

/-- `S` is that `q` describes a beginning of the text for which `P` holds, behind what `before` allows. -/
structure Shape (S : Option Char → List Char → Prop) (q : Pat) (before : Option Char → Bool)
    (P : List Char → Bool) : Prop where
  iff : ∀ b l, S b l ↔ ∃ u v, l = u ++ v ∧ q.Matches b u v.head? ∧ before b = true ∧ P u = true
  around : ∀ a b, allowedAround a b → before a = true → before b = true

/-- Begins with something, but not with what is put between sentences or for a dash. -/
def tame (q : Pat) : Bool := q.startFree && !q.nullable && !q.canStart ' ' && !q.canStart ','

theorem shape_startsAt (q : Pat) : Shape q.StartsAt q (fun _ => true) fun _ => true where
  iff b l := by simp [StartsAt]
  around _ _ _ _ := rfl

theorem shape_path : Shape PathStarts absolutePath allowedBefore fun _ => true where
  iff b l := by
    constructor
    · rintro ⟨hb, u, v, hl, hm⟩
      exact ⟨u, v, hl, hm, hb, rfl⟩
    · rintro ⟨u, v, hl, hm, hb, -⟩
      exact ⟨hb, u, v, hl, hm⟩
  around _ _ h := allowedBefore_of_allowedAround h

theorem shape_encodedRun : Shape EncodedStarts encodedRun (fun _ => true) looksEncoded where
  iff b l := by simp [EncodedStarts]
  around _ _ _ _ := rfl

theorem exists_shape {R : Ruled} (hR : R ∈ ruled) :
    ∃ q before P, Shape R.starts q before P ∧ tame q = true ∧
      (q.avoids ' ' = true ∨ q = pemHeader ∨ q = helpscout) ∧ (q.avoids ',' = true ∨ q = windowsPath) := by
  have hstarts (q : Pat) (h : tame q = true) (hspace : q.avoids ' ' = true ∨ q = pemHeader ∨ q = helpscout)
      (hcomma : q.avoids ',' = true ∨ q = windowsPath) : ∃ q' before P, Shape q.StartsAt q' before P ∧
        tame q' = true ∧ (q'.avoids ' ' = true ∨ q' = pemHeader ∨ q' = helpscout) ∧
        (q'.avoids ',' = true ∨ q' = windowsPath) :=
    ⟨q, _, _, shape_startsAt q, h, hspace, hcomma⟩
  simp only [ruled, List.mem_cons, List.not_mem_nil, or_false] at hR
  rcases hR with rfl | rfl | rfl | rfl | rfl | rfl | rfl | rfl | rfl | rfl | rfl | rfl | rfl | rfl | rfl | rfl | rfl |
    rfl | rfl | rfl
  all_goals try exact hstarts _ (by decide) (.inl (by decide)) (.inl (by decide))
  · exact hstarts pemHeader (by decide) (.inr (.inl rfl)) (.inl (by decide))
  · exact hstarts helpscout (by decide) (.inr (.inr rfl)) (.inl (by decide))
  · exact hstarts windowsPath (by decide) (.inl (by decide)) (.inr rfl)
  · exact ⟨_, _, _, shape_path, by decide, .inl (by decide), .inl (by decide)⟩
  · exact ⟨_, _, _, shape_encodedRun, by decide, .inl (by decide), .inl (by decide)⟩

/-! ## Moving a match -/

/-- The pattern describes `u` between `pre` and `v`. -/
def Occurs (q : Pat) (before : Option Char → Bool) (P : List Char → Bool) (pre u v : List Char) : Prop :=
  q.Matches (lastOf none pre) u v.head? ∧ before (lastOf none pre) = true ∧ P u = true

section
variable {S : Option Char → List Char → Prop} {q : Pat} {before : Option Char → Bool} {P : List Char → Bool}
  {pre pre' u v v' x y l : List Char} {D : List Char → Prop} {c : Char}

theorem Shape.starts_of_occurs (hS : Shape S q before P) (h : Occurs q before P pre u v) :
    S (lastOf none pre) (u ++ v) :=
  (hS.iff _ _).mpr ⟨u, v, rfl, h⟩

theorem Occurs.move (hS : Shape S q before P) (hq : tame q = true) (h : Occurs q before P pre u v)
    (hpre : allowedAround (lastOf none pre) (lastOf none pre')) (hv : allowedAround v.head? v'.head?) :
    Occurs q before P pre' u v' := by
  simp only [tame, Bool.and_eq_true] at hq
  exact ⟨matches_of_allowedAround hq.1.1.1 h.1 hpre hv, hS.around _ _ hpre h.2.1, h.2.2⟩

theorem Occurs.ne_nil (hq : tame q = true) (h : Occurs q before P pre u v) : u ≠ [] := by
  simp only [tame, Bool.and_eq_true, Bool.not_eq_true'] at hq
  exact h.1.ne_nil hq.1.1.2

theorem Occurs.first (hq : tame q = true) (h : Occurs q before P pre u v) : ∀ c ∈ u.head?, c ≠ ' ' ∧ c ≠ ',' := by
  simp only [tame, Bool.and_eq_true, Bool.not_eq_true'] at hq
  intro c hc
  have hstart := h.1.canStart hc
  constructor
  · rintro rfl
    exact absurd (hstart.symm.trans hq.1.2) Bool.noConfusion
  · rintro rfl
    exact absurd (hstart.symm.trans hq.2) Bool.noConfusion

/-- What a dash and what stands for it are made of. -/
def Soft (c : Char) : Prop := beforePath c = true ∧ c ∉ REDACTED

instance : DecidablePred Soft := fun _ => inferInstanceAs (Decidable (_ ∧ _))

theorem allowedAround_of_alike {a b : Option Char} (h : Replaced.Alike Soft a b) : allowedAround a b := by
  rcases h with rfl | ⟨⟨c, rfl, hc⟩, d, rfl, hd⟩
  · exact .inl rfl
  · exact .inr ⟨hc.1, hd.1⟩

/-- A match without a comma was there before a dash was replaced. -/
theorem Occurs.unreplaced (hS : Shape S q before P) (hq : tame q = true) (hcomma : ',' ∉ u)
    (hr : Replaced D ", ".toList x (pre ++ (u ++ v))) (hk : Replaced.OfKind D ", ".toList Soft)
    (h : Occurs q before P pre u v) :
    ∃ pre' v', x = pre' ++ (u ++ v') ∧ Occurs q before P pre' u v' ∧ (REDACTED <:+ pre' → REDACTED <:+ pre) := by
  obtain ⟨pre', v', hx, hpre, hv⟩ := hr.split (h.ne_nil hq) hcomma fun c hc hmem => by
    obtain ⟨hspace, hne⟩ := h.first hq c hc
    rcases List.mem_cons.mp hmem with rfl | hmem
    · exact hne rfl
    · exact hspace (List.mem_singleton.mp hmem)
  refine ⟨pre', v', hx, h.move hS hq ?_ ?_, hpre.suffix hk fun c hc hsoft => hsoft.2 hc⟩
  · rcases hpre.lastOf_alike hk (.inl rfl) with he | ⟨h1, h2⟩
    · exact .inl he.symm
    · exact allowedAround_of_alike (.inr ⟨h2, h1⟩)
  · rcases hv.head?_alike hk with he | ⟨h1, h2⟩
    · exact .inl he.symm
    · exact allowedAround_of_alike (.inr ⟨h2, h1⟩)

theorem ofKind_text {d : String} (hne : d.toList ≠ []) (h : ∀ c ∈ d.toList, Soft c) :
    Replaced.OfKind (· = d.toList) ", ".toList Soft where
  old_ne_nil := by
    rintro _ rfl
    exact hne
  new_ne_nil := by decide
  old := by
    rintro _ rfl
    exact h
  new := forall_of_all (by decide)

theorem ofKind_chars : Replaced.OfKind (fun d => ∃ c, d = [c] ∧ isDash c = true) ", ".toList Soft where
  old_ne_nil := by
    rintro _ ⟨c, rfl, -⟩
    exact List.cons_ne_nil _ _
  new_ne_nil := by decide
  old := by
    rintro _ ⟨c, rfl, hc⟩ d hd
    rw [List.mem_singleton.mp hd]
    simp only [isDash, Bool.or_eq_true, decide_eq_true_eq] at hc
    rcases hc with rfl | rfl <;> exact ⟨by decide, by decide⟩
  new := forall_of_all (by decide)

/-- A match without a comma was there before the dashes were replaced. -/
theorem Occurs.withDashes (hS : Shape S q before P) (hq : tame q = true) (hcomma : ',' ∉ u)
    (hx : withoutDashes x = pre ++ (u ++ v)) (h : Occurs q before P pre u v) :
    ∃ pre' v', x = pre' ++ (u ++ v') ∧ Occurs q before P pre' u v' ∧ (REDACTED <:+ pre' → REDACTED <:+ pre) := by
  have hdash : Replaced _ ", ".toList _ (withoutDashes x) := replaced_replaceChars
  rw [hx] at hdash
  obtain ⟨pre₁, v₁, h₁, hocc₁, hsuf₁⟩ := h.unreplaced hS hq hcomma hdash ofKind_chars
  have hen : Replaced _ ", ".toList _ (replaceText " – ".toList ", ".toList
    (replaceText " — ".toList ", ".toList x)) := replaced_replaceText (by decide)
  rw [h₁] at hen
  obtain ⟨pre₂, v₂, h₂, hocc₂, hsuf₂⟩ := hocc₁.unreplaced hS hq hcomma hen
    (ofKind_text (by decide) (forall_of_all (by decide)))
  have hem : Replaced _ ", ".toList _ (replaceText " — ".toList ", ".toList x) := replaced_replaceText (by decide)
  rw [h₂] at hem
  obtain ⟨pre₃, v₃, h₃, hocc₃, hsuf₃⟩ := hocc₂.unreplaced hS hq hcomma hem
    (ofKind_text (by decide) (forall_of_all (by decide)))
  exact ⟨pre₃, v₃, h₃, hocc₃, fun h => hsuf₁ (hsuf₂ (hsuf₃ h))⟩

/-! ## In a kept sentence -/

theorem lastOf_none (u : List Char) : lastOf none u = u.getLast? := by
  induction u using List.reverseRecOn with
  | nil => rfl
  | append_singleton u c _ =>
    rw [lastOf_append, List.getLast?_concat]
    rfl

theorem allowedBefore_of_blank {o : Option Char} (h : ∀ c ∈ o, isWhitespace c = true) : allowedBefore o = true := by
  cases o with
  | none => rfl
  | some c => exact beforePath_of_isWhitespace (h c rfl)

theorem around_last (h : ∀ c ∈ x.getLast?, isWhitespace c = true) :
    allowedAround (lastOf none u) (lastOf none (x ++ u)) := by
  rw [lastOf_append]
  by_cases hu : u = []
  · rw [hu, lastOf_nil, lastOf_nil, lastOf_none]
    exact .inr ⟨rfl, allowedBefore_of_blank h⟩
  · exact .inl (lastOf_congr hu)

theorem around_head (h : ∀ c ∈ y.head?, isWhitespace c = true) : allowedAround v.head? (v ++ y).head? := by
  cases v with
  | nil => exact .inr ⟨rfl, allowedBefore_of_blank h⟩
  | cons c v => exact .inl rfl

theorem allowedAround_symm {a b : Option Char} (h : allowedAround a b) : allowedAround b a := by
  rcases h with rfl | ⟨ha, hb⟩
  · exact .inl rfl
  · exact .inr ⟨hb, ha⟩

/-- A marker does not begin before the white space in front of a sentence. -/
theorem suffix_of_blank (h : ∀ c ∈ x.getLast?, isWhitespace c = true) (hm : REDACTED <:+ x ++ u) : REDACTED <:+ u := by
  obtain ⟨z, hz⟩ := hm
  rcases List.append_eq_append_iff.mp hz with ⟨k, rfl, hk⟩ | ⟨k, -, hk⟩
  · rcases List.eq_nil_or_concat k with rfl | ⟨k, c, rfl⟩
    · exact hk ▸ List.suffix_refl _
    · have hc : isWhitespace c = true := h c (by simp)
      have hmem : c ∈ REDACTED := by
        rw [hk]
        simp
      have key : ∀ c ∈ REDACTED, isWhitespace c = false := forall_of_all (by decide)
      rw [key c hmem] at hc
      cases hc
  · exact ⟨k, hk.symm⟩

variable {raw : String} {R : Ruled} {s : List Char} {ss : List (List Char)}

/-- Scrubbing left nothing without a comma in a sentence that is kept. -/
theorem not_occurs_kept (hR : R ∈ ruled) (hS : Shape R.starts q before P) (hq : tame q = true)
    (hcomma : q.avoids ',' = true) (hs : s ∈ keptSentences raw) (he : s = x ++ (u ++ y)) :
    ¬ Occurs q before P x u y := by
  intro h
  obtain ⟨a, b, hout, ha, hb⟩ := Breaks.exists_place_of_mem (taken_sublist.subset hs)
  have hplace : withoutDashes (scrub raw.toList) = (a ++ x) ++ (u ++ (y ++ b)) := by
    rw [hout, he]
    simp only [List.append_assoc]
  have hocc : Occurs q before P (a ++ x) u (y ++ b) := h.move hS hq (around_last ha) (around_head hb)
  obtain ⟨pre, v, hscrub, hocc, hsuf⟩ := hocc.withDashes hS hq (h.1.not_mem hcomma) hplace
  have hmarker := scrub_leftover hR hscrub (List.append_ne_nil_of_left_ne_nil (h.ne_nil hq) v) (hS.starts_of_occurs hocc)
  obtain ⟨z, hz⟩ := suffix_of_blank ha (hsuf hmarker)
  have hunsafe := isUnsafe_of_mem_taken hs
  rw [isUnsafe, Bool.or_eq_false_iff, decide_eq_false_iff_not] at hunsafe
  exact hunsafe.1 ⟨z, u ++ y, by rw [hz, ← he]⟩

/-! ## In joined sentences -/

/-- `q` matches over a place where two of the texts are joined by a space. -/
def Straddles (q : Pat) (ss : List (List Char)) : Prop :=
  ∃ as bs x u v y, ss = as ++ bs ∧ as ≠ [] ∧ bs ≠ [] ∧ joined ' ' as = x ++ u ∧ joined ' ' bs = v ++ y ∧
    q.Matches (lastOf none x) (u ++ ' ' :: v) y.head?

/-- The sentences can be put together without anything to redact coming up: no dropped dash completed
a Windows path, and no PEM header and no name of Help Scout reaches over a joint. -/
structure Rejoinable (ss : List (List Char)) : Prop where
  paths : ∀ s ∈ ss, ¬ Pass.Finds { body := windowsPath } none s
  headers : ¬ Straddles pemHeader ss
  names : ¬ Straddles helpscout ss

theorem blank_before (h : Joints ' ' x y) : ∀ c ∈ x.getLast?, isWhitespace c = true := by
  intro c hc
  rw [h.before c hc]
  decide

theorem blank_after (h : Joints ' ' x y) : ∀ c ∈ y.head?, isWhitespace c = true := by
  intro c hc
  rw [h.after c hc]
  decide

theorem clean_rejoined (h : Rejoinable (keptSentences raw)) : Clean (joined ' ' (keptSentences raw)) := by
  intro p hp hf
  obtain ⟨R, hR, pre, l, hl, hne, hs⟩ := exists_starts hp hf
  obtain ⟨q, before, P, hS, hq, hspace, hcomma⟩ := exists_shape hR
  obtain ⟨u, v, rfl, hocc⟩ := (hS.iff _ _).mp hs
  have hocc : Occurs q before P pre u v := hocc
  rcases joined_cases (hocc.ne_nil hq) hl with
    ⟨s, hmem, x, y, a, b, he, rfl, rfl, hj⟩ | ⟨as, bs, x, y, hsplit, has, hbs, hx, rfl, hy⟩
  · have hin : Occurs q before P x u y :=
      hocc.move hS hq (allowedAround_symm (around_last (blank_before hj))) (allowedAround_symm (around_head (blank_after hj)))
    rcases hcomma with hcomma | rfl
    · exact not_occurs_kept hR hS hq hcomma hmem he hin
    · exact h.paths s hmem ⟨x, [], u, y, he, .empty, hin.1, rfl⟩
  · rcases hspace with hspace | rfl | rfl
    · exact hocc.1.not_mem hspace (by simp)
    · exact h.headers ⟨as, bs, pre, x, y, v, hsplit, has, hbs, hx, hy, hocc.1⟩
    · exact h.names ⟨as, bs, pre, x, y, v, hsplit, has, hbs, hx, hy, hocc.1⟩

theorem finds_of_straddles (h : Straddles q ss) :
    ∃ pre l, joined ' ' ss = pre ++ l ∧ q.StartsAt (lastOf none pre) l := by
  obtain ⟨as, bs, x, u, v, y, rfl, has, hbs, hx, hy, hm⟩ := h
  refine ⟨x, u ++ ' ' :: v ++ y, ?_, u ++ ' ' :: v, y, rfl, hm⟩
  rw [joined_append has hbs, hx, hy]
  simp

/-- What comes up is found. -/
theorem not_clean_joined (h : ¬ Rejoinable ss) : ¬ Clean (joined ' ' ss) := by
  intro hclean
  refine h ⟨fun s hs hf => ?_, fun hstr => ?_, fun hstr => ?_⟩
  · obtain ⟨x, w, u, y, rfl, hw, hm, -⟩ := hf
    cases hw
    rw [List.nil_append] at hs
    obtain ⟨a, b, hab, hj⟩ := exists_of_mem_joined ' ' hs
    have hocc : Occurs windowsPath (fun _ => true) (fun _ => true) x u y := ⟨hm, rfl, rfl⟩
    have hmove : Occurs windowsPath (fun _ => true) (fun _ => true) (a ++ x) u (y ++ b) :=
      hocc.move (shape_startsAt windowsPath) (by decide) (around_last (blank_before hj)) (around_head (blank_after hj))
    refine hclean { body := windowsPath } (by simp [passes, SECRET_PATTERNS]) ⟨a ++ x, [], u, y ++ b, ?_, .empty, hmove.1, rfl⟩
    rw [hab]
    simp
  · obtain ⟨pre, l, hl, hm⟩ := finds_of_straddles hstr
    obtain ⟨u, v, rfl, hm⟩ := startsAt_seq_many.mpr hm
    exact hclean { body := pemOpen } (by simp [passes, SECRET_PATTERNS]) ⟨pre, [], u, v, hl, .empty, hm, rfl⟩
  · obtain ⟨pre, l, hl, u, v, rfl, hm⟩ := finds_of_straddles hstr
    exact hclean { body := helpscout } (by simp [passes, SECRET_PATTERNS]) ⟨pre, [], u, v, hl, .empty, hm, rfl⟩

end

end Claudear.Engine
