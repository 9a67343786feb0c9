import Claudear.Text.Redaction

/-!
# Texts with markers in them

After some passes a text is made of characters of its own and of markers that
were put in: a list of tokens, of which `none` is a marker. A pass never takes a
piece of a marker (`Whole`), so it is a step on tokens (`Cut.lift`).

`Everywhere` says something of each place that begins with a character of the
text. `Stable S` says that what begins at such a place is not made by a marker
further on, and so a step makes something new only directly behind a marker
(`Everywhere.step`).
-/

namespace Claudear.Text

/-- A character of the text, or a marker. -/
abbrev Token := Option Char

variable (M : List Char)

def plain (ts : List Token) : List Char := ts.flatMap fun t => t.elim M fun c => [c]

/-- The character before what follows a token. -/
def ctx (p : Option Token) : Option Char := lastOf none (plain M p.toList)

@[simp] theorem plain_nil : plain M [] = [] := rfl

@[simp] theorem plain_char (c : Char) (ts : List Token) : plain M (some c :: ts) = c :: plain M ts := rfl

@[simp] theorem plain_marker (ts : List Token) : plain M (none :: ts) = M ++ plain M ts := rfl

@[simp] theorem plain_append (ts us : List Token) : plain M (ts ++ us) = plain M ts ++ plain M us :=
  List.flatMap_append

theorem plain_map_some (l : List Char) : plain M (l.map some) = l := by
  induction l with
  | nil => rfl
  | cons c l ih => rw [List.map_cons, plain_char, ih]

/-- `u`, which is followed by `v`, neither begins nor ends inside of a marker. -/
structure Whole (u v : List Char) : Prop where
  begins : ∀ m s x, M = m ++ s → s ≠ [] → u ++ v ≠ s ++ x
  ends : ∀ m s x y, M = m ++ s → m ≠ [] → s ≠ [] → u = x ++ m → v ≠ s ++ y

/-- The token before the rest, after a redaction or not. -/
def behind (after : Bool) (p : Option Token) : Option Token := if after then some none else p

section
variable (E : Option Char → Option Char → Prop) (N : Bool → Option Char → List Char → Prop)

/-- What a pass does. `E` is about the two characters where what is redacted begins and `N` about
what is kept; its `Bool` tells whether it directly follows a redaction. -/
inductive Cut : Bool → Option Char → List Char → List Char → Prop
  | nil {after b} : Cut after b [] []
  | keep {after b c t t'} : N after b (c :: t) → Cut false (some c) t t' → Cut after b (c :: t) (c :: t')
  | redact {after b u v v'} : u ≠ [] → E b u.head? → Whole M u v →
      Cut true (lastOf b u) v v' → Cut after b (u ++ v) (M ++ v')

/-- The same on tokens, behind a token. -/
inductive Step : Bool → Option Token → List Token → List Token → Prop
  | nil {after p} : Step after p [] []
  | marker {after p ts ts'} : Step false (some none) ts ts' → Step after p (none :: ts) (none :: ts')
  | keep {after p c ts ts'} : N after (ctx M p) (plain M (some c :: ts)) →
      Step false (some (some c)) ts ts' → Step after p (some c :: ts) (some c :: ts')
  | redact {after p us vs vs'} : us ≠ [] → E (ctx M p) (plain M us).head? →
      Step true (lastOf p us) vs vs' → Step after p (us ++ vs) (none :: vs')

end

variable {M} {E : Option Char → Option Char → Prop} {N : Bool → Option Char → List Char → Prop}
  {after : Bool} {b : Option Char} {s t t' u v : List Char} {p : Option Token}
  {ts ts' us vs : List Token} {c : Char}

theorem plain_eq_nil (hM : M ≠ []) : plain M ts = [] ↔ ts = [] := by
  constructor
  · intro h
    cases ts with
    | nil => rfl
    | cons t ts =>
      cases t with
      | none => exact absurd (List.append_eq_nil_iff.mp h).1 hM
      | some c => cases h
  · rintro rfl
    rfl

theorem ctx_lastOf (hM : M ≠ []) : ctx M (lastOf p ts) = lastOf (ctx M p) (plain M ts) := by
  induction ts generalizing p with
  | nil => rfl
  | cons t ts ih =>
    have ht : ctx M (some t) = lastOf (ctx M p) (plain M [t]) := by
      have hne : plain M [t] ≠ [] := fun h => List.cons_ne_nil _ _ ((plain_eq_nil hM).mp h)
      exact lastOf_congr hne
    rw [lastOf_cons, ih, ht, ← lastOf_append, ← plain_append, List.singleton_append]

theorem Cut.mono {N' : Bool → Option Char → List Char → Prop} (h : Cut M E N after b t t')
    (hN : ∀ after b l, N after b l → N' after b l) : Cut M E N' after b t t' := by
  induction h with
  | nil => exact .nil
  | keep hk _ ih => exact .keep (hN _ _ _ hk) ih
  | redact hu hE hw _ ih => exact .redact hu hE hw ih

/-- Characters that are found and left as they are. -/
theorem Cut.keeps (h : Cut M E N false (lastOf b u) v t') (hu : u ≠ [])
    (hN : ∀ x c y, u = x ++ c :: y → N (after && x.isEmpty) (lastOf b x) (c :: (y ++ v))) :
    Cut M E N after b (u ++ v) (u ++ t') := by
  induction u generalizing after b with
  | nil => exact absurd rfl hu
  | cons c u ih =>
    have hc : N after b (c :: (u ++ v)) := by simpa using hN [] c u rfl
    refine .keep hc ?_
    cases u with
    | nil => exact h
    | cons d u =>
      refine ih h (List.cons_ne_nil _ _) fun x e y he => ?_
      have hx := hN (c :: x) e y (by rw [he]; rfl)
      rw [Bool.false_and]
      simpa using hx

/-- A marker is kept whole. -/
theorem Cut.marker {m : List Char} (h : Cut M E N after b (s ++ t) t') (hm : M = m ++ s) :
    ∃ t₁ a₁, t' = s ++ t₁ ∧ Cut M E N a₁ (lastOf b s) t t₁ ∧ (s ≠ [] → a₁ = false) := by
  induction s generalizing after b m t' with
  | nil => exact ⟨t', after, rfl, h, fun hne => absurd rfl hne⟩
  | cons c s ih =>
    rw [List.cons_append] at h
    generalize hl : c :: (s ++ t) = l at h
    cases h with
    | nil => cases hl
    | keep _ h =>
      obtain ⟨rfl, rfl⟩ := List.cons.inj hl
      obtain ⟨t₁, a₁, rfl, h₁, hs⟩ := ih h (m := m ++ [c]) (by rw [hm, List.append_assoc]; rfl)
      cases s with
      | nil => exact ⟨_, false, rfl, h, fun _ => rfl⟩
      | cons d s => exact ⟨t₁, a₁, rfl, h₁, fun _ => hs (List.cons_ne_nil _ _)⟩
    | redact _ _ hw _ => exact absurd hl.symm (hw.begins m (c :: s) t hm (List.cons_ne_nil _ _))

/-- A part of the text that does not end inside of a marker is made of tokens. -/
theorem exists_tokens (h : plain M ts = u ++ v)
    (hends : ∀ m s x y, M = m ++ s → m ≠ [] → s ≠ [] → u = x ++ m → v ≠ s ++ y) :
    ∃ us vs, ts = us ++ vs ∧ plain M us = u ∧ plain M vs = v := by
  induction ts generalizing u with
  | nil =>
    obtain ⟨rfl, rfl⟩ := List.append_eq_nil_iff.mp h.symm
    exact ⟨[], [], rfl, rfl, rfl⟩
  | cons t ts ih =>
    cases u with
    | nil => exact ⟨[], t :: ts, rfl, rfl, h⟩
    | cons d u =>
      cases t with
      | some c =>
        obtain ⟨rfl, h'⟩ := List.cons.inj h
        obtain ⟨us, vs, rfl, hu, hv⟩ := ih h' fun m s x y hM hm hs hx =>
          hends m s (c :: x) y hM hm hs (by rw [hx]; rfl)
        exact ⟨some c :: us, vs, rfl, by rw [plain_char, hu], hv⟩
      | none =>
        rw [plain_marker] at h
        rcases List.append_eq_append_iff.mp h with ⟨x, hx, hv⟩ | ⟨x, hx, hv⟩
        · obtain ⟨us, vs, rfl, hu, hv⟩ := ih hv fun m s y z hM hm hs hy =>
            hends m s (M ++ y) z hM hm hs (by rw [hx, hy, List.append_assoc])
          exact ⟨none :: us, vs, rfl, by rw [plain_marker, hu, hx], hv⟩
        · by_cases hne : x = []
          · subst hne
            rw [List.append_nil] at hx
            exact ⟨[none], ts, rfl, by rw [plain_marker, hx]; simp, by rw [hv]; rfl⟩
          · exact absurd hv (hends (d :: u) x [] _ hx (List.cons_ne_nil _ _) hne rfl)

/-- A pass is a step on tokens. -/
theorem Cut.lift (hM : M ≠ []) {n : Nat} (hn : ts.length ≤ n) (h : Cut M E N after (ctx M p) (plain M ts) t') :
    ∃ ts', t' = plain M ts' ∧ Step M E N after p ts ts' := by
  induction n generalizing ts after p t' with
  | zero =>
    have hts : ts = [] := List.eq_nil_of_length_eq_zero (Nat.le_zero.mp hn)
    subst hts
    generalize hl : plain M [] = l at h
    cases h with
    | nil => exact ⟨[], rfl, .nil⟩
    | keep => cases hl
    | redact hu => exact absurd (List.append_eq_nil_iff.mp hl.symm).1 hu
  | succ n ih =>
    cases ts with
    | nil =>
      generalize hl : plain M [] = l at h
      cases h with
      | nil => exact ⟨[], rfl, .nil⟩
      | keep => cases hl
      | redact hu => exact absurd (List.append_eq_nil_iff.mp hl.symm).1 hu
    | cons t ts =>
      have hlen : ts.length ≤ n := Nat.le_of_succ_le_succ hn
      cases t with
      | none =>
        rw [plain_marker] at h
        obtain ⟨t₁, a₁, rfl, h₁, ha⟩ := Cut.marker h (m := []) rfl
        have hctx : lastOf (ctx M p) M = ctx M (some none) := by
          have hplain : plain M [none] = M := List.append_nil M
          show _ = lastOf none (plain M [none])
          rw [hplain]
          exact lastOf_congr hM
        rw [hctx, ha hM] at h₁
        obtain ⟨ts', rfl, hs⟩ := ih hlen h₁
        exact ⟨none :: ts', rfl, .marker hs⟩
      | some c =>
        generalize hl : plain M (some c :: ts) = l at h
        cases h with
        | nil => cases hl
        | keep hN h =>
          obtain ⟨rfl, rfl⟩ := List.cons.inj hl
          have hc : Cut M E N false (ctx M (some (some c))) (plain M ts) _ := h
          obtain ⟨ts', rfl, hs⟩ := ih hlen hc
          exact ⟨some c :: ts', rfl, .keep hN hs⟩
        | @redact _ _ u v v' hu hE hw h =>
          obtain ⟨us, vs, hts, rfl, rfl⟩ := exists_tokens hl hw.ends
          have hne : us ≠ [] := fun e => hu (by rw [e]; rfl)
          have hvs : vs.length ≤ n := by
            have := congrArg List.length hts
            have := List.length_pos_of_ne_nil hne
            rw [List.length_cons, List.length_append] at *
            omega
          rw [← ctx_lastOf hM] at h
          obtain ⟨ts', rfl, hs⟩ := ih hvs h
          rw [hts]
          exact ⟨none :: ts', rfl, .redact hne hE hs⟩

/-! ## What begins at a character -/

variable (M) in
/-- Each place before a character of the text, with what comes before and after it. -/
def Everywhere (P : Option Token → List Char → Prop) : Option Token → List Token → Prop
  | _, [] => True
  | _, none :: ts => Everywhere P (some none) ts
  | p, some c :: ts => P p (plain M (some c :: ts)) ∧ Everywhere P (some (some c)) ts

variable (M E) in
/-- What begins somewhere, and goes on to a marker, also begins there when something else is in
place of the marker. -/
def Stable (S : Option Char → List Char → Prop) : Prop :=
  ∀ b s x y, s ≠ [] → E (lastOf b s) y.head? → S b (s ++ (M ++ x)) → S b (s ++ y)

variable {P P' : Option Token → List Char → Prop} {S : Option Char → List Char → Prop}

/-- Up to the first redaction a step keeps everything. -/
theorem Step.split (h : Step M E N after p ts ts') :
    ts' = ts ∨ ∃ s us vs vs', ts = s ++ (us ++ vs) ∧ ts' = s ++ none :: vs' ∧ us ≠ [] ∧
      E (ctx M (lastOf p s)) (plain M us).head? := by
  induction h with
  | nil => exact .inl rfl
  | marker _ ih =>
    rcases ih with rfl | ⟨s, us, vs, vs', rfl, rfl, hne, hE⟩
    · exact .inl rfl
    · exact .inr ⟨none :: s, us, vs, vs', rfl, rfl, hne, hE⟩
  | keep _ _ ih =>
    rcases ih with rfl | ⟨s, us, vs, vs', rfl, rfl, hne, hE⟩
    · exact .inl rfl
    · exact .inr ⟨some _ :: s, us, vs, vs', rfl, rfl, hne, hE⟩
  | redact hne hE _ => exact .inr ⟨[], _, _, _, rfl, rfl, hne, hE⟩

/-- What begins at a character that is kept began there before. -/
theorem Stable.of_step (hM : M ≠ []) (hS : Stable M E S) (h : Step M E N false (some (some c)) ts ts')
    (hs : S b (plain M (some c :: ts'))) : S b (plain M (some c :: ts)) := by
  rcases h.split with rfl | ⟨s, us, vs, vs', rfl, rfl, hne, hE⟩
  · exact hs
  · have hlast : ctx M (lastOf (some (some c)) s) = lastOf b (c :: plain M s) := by
      rw [ctx_lastOf hM]
      rfl
    have hhead : (plain M us ++ plain M vs).head? = (plain M us).head? := by
      obtain ⟨d, l, hd⟩ := List.exists_cons_of_ne_nil fun h => hne ((plain_eq_nil hM).mp h)
      rw [hd]
      rfl
    have := hS b (c :: plain M s) (plain M vs') (plain M us ++ plain M vs) (List.cons_ne_nil _ _)
      (by rw [hhead, ← hlast]; exact hE) (by simpa using hs)
    simpa using this

theorem Everywhere.of_append (h : Everywhere M P p (us ++ vs)) : Everywhere M P (lastOf p us) vs := by
  induction us generalizing p with
  | nil => exact h
  | cons t us ih =>
    cases t with
    | none => exact ih h
    | some c => exact ih h.2

theorem Everywhere.trivial (p : Option Token) (ts : List Token) : Everywhere M (fun _ _ => True) p ts := by
  induction ts generalizing p with
  | nil => exact True.intro
  | cons t ts ih =>
    cases t with
    | none => exact ih _
    | some c => exact ⟨True.intro, ih _⟩

/-- The rule for a step. -/
theorem Everywhere.step (hstep : ∀ after p c ts ts', N after (ctx M p) (plain M (some c :: ts)) →
      Step M E N false (some (some c)) ts ts' → P p (plain M (some c :: ts)) →
      P' (behind after p) (plain M (some c :: ts')))
    (h : Step M E N after p ts ts') (hP : Everywhere M P p ts) : Everywhere M P' (behind after p) ts' := by
  induction h with
  | nil => exact True.intro
  | marker _ ih => exact ih hP
  | keep hN h ih => exact ⟨hstep _ _ _ _ _ hN h hP.1, ih hP.2⟩
  | redact _ _ _ ih => exact ih hP.of_append

variable (M) in
/-- It begins only directly behind a marker. -/
def Leftover (S : Option Char → List Char → Prop) : Option Token → List Token → Prop :=
  Everywhere M fun p l => S (ctx M p) l → p = some none

variable (M) in
def Gone (S : Option Char → List Char → Prop) : Option Token → List Token → Prop :=
  Everywhere M fun p l => ¬ S (ctx M p) l

/-- In a text without markers nothing is behind one. -/
theorem Leftover.gone {l : List Char} (h : Leftover M S p (l.map some)) (hp : p ≠ some none) :
    Gone M S p (l.map some) := by
  induction l generalizing p with
  | nil => exact True.intro
  | cons c l ih => exact ⟨fun hs => hp (h.1 hs), ih h.2 nofun⟩

section
variable (hM : M ≠ []) (hS : Stable M E S)
include hM hS

theorem Leftover.step (h : Step M E N after p ts ts') (hl : Leftover M S p ts) :
    Leftover M S (behind after p) ts' := by
  refine Everywhere.step (fun after p c ts ts' _ h hP hs => ?_) h hl
  cases after with
  | false => exact hP (hS.of_step hM h hs)
  | true => rfl

/-- A pass that keeps a character only where `S` does not begin. -/
theorem Leftover.of_step (hN : ∀ b l, N false b l → ¬ S b l) (h : Step M E N after p ts ts') :
    Leftover M S (behind after p) ts' := by
  refine Everywhere.step (fun after p c ts ts' hk h _ hs => ?_) h (Everywhere.trivial p ts)
  cases after with
  | false => exact absurd (hS.of_step hM h hs) (hN _ _ hk)
  | true => rfl

/-- When nothing that is kept behind a redaction begins there because of the marker. -/
theorem Gone.step (hN : ∀ b l, N true b l → S (ctx M (some none)) l → S b l) (h : Step M E N after p ts ts')
    (hl : Gone M S p ts) : Gone M S (behind after p) ts' := by
  refine Everywhere.step (fun after p c ts ts' hk h hP hs => hP ?_) h hl
  cases after with
  | false => exact hS.of_step hM h hs
  | true => exact hN _ _ hk (hS.of_step hM h hs)

theorem Gone.of_step (hN : ∀ after b l, N after b l → ¬ S (if after then ctx M (some none) else b) l)
    (h : Step M E N after p ts ts') : Gone M S (behind after p) ts' := by
  refine Everywhere.step (fun after p c ts ts' hk h _ hs => ?_) h (Everywhere.trivial p ts)
  cases after with
  | false | true => exact hN _ _ _ hk (hS.of_step hM h hs)

end

/-- What holds everywhere holds at each place of the text that is not inside of a marker. -/
theorem Everywhere.at {l pre : List Char} (hM : M ≠ []) (h : Everywhere M P p ts) (hl : plain M ts = pre ++ l)
    (hne : l ≠ []) (hout : ∀ m s x, M = m ++ s → s ≠ [] → l ≠ s ++ x) :
    ∃ q as bs, ts = as ++ bs ∧ plain M as = pre ∧ plain M bs = l ∧ q = lastOf p as ∧ P q l := by
  obtain ⟨as, bs, rfl, rfl, rfl⟩ := exists_tokens hl fun m s _ y hm _ hs _ => hout m s y hm hs
  refine ⟨lastOf p as, as, bs, rfl, rfl, rfl, rfl, ?_⟩
  have hb := h.of_append
  cases bs with
  | nil => exact absurd rfl hne
  | cons t bs =>
    cases t with
    | none => exact absurd rfl (hout [] M (plain M bs) rfl hM)
    | some c => exact hb.1

end Claudear.Text
