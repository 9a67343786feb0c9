import Claudear.Text.Pattern

/-!
# Replacing what a pattern finds

A `Pass` goes through a text from left to right and puts a marker in place of
what its pattern finds. The pattern may have a `lead` that stays, and a pass may
leave some of what it finds as it is. `Passed` is what a pass does as a relation:
a character is kept only where nothing is found (`passed_replaceAll`).
-/

namespace Claudear.Text

structure Pass where
  lead : Pat := .empty
  body : Pat
  redacts : List Char → Bool := fun _ => true
  nonempty : body.nullable = false := by rfl

namespace Pass

variable (p : Pass) (M : List Char)

/-- What is left after each way to match a beginning: with and without the body. -/
def ends (b : Option Char) (l : List Char) : List (List Char × List Char) :=
  (p.lead.run b l).flatMap fun x => (p.body.run x.1 x.2).map fun y => (x.2, y.2)

/-- The lead and the body found at the beginning of a text. -/
def find (b : Option Char) (l : List Char) : Option (List Char × List Char) :=
  (p.ends b l).head?.map fun x => (l.take (l.length - x.1.length), x.1.take (x.1.length - x.2.length))

/-- After `skip` more characters, which belong to what was found. -/
def replaceFrom : Option Char → Nat → List Char → List Char
  | _, _, [] => []
  | _, skip + 1, c :: l => replaceFrom (some c) skip l
  | b, 0, c :: l =>
    match p.find b (c :: l) with
    | none => c :: replaceFrom (some c) 0 l
    | some (w, u) =>
      w ++ ((if p.redacts u then M else u) ++ replaceFrom (some c) (w.length + u.length - 1) l)

/-- Each text of which the first character is kept directly behind a redaction. -/
def resumedFrom : Bool → Option Char → Nat → List Char → List (List Char)
  | _, _, _, [] => []
  | after, _, skip + 1, c :: l => resumedFrom after (some c) skip l
  | after, b, 0, c :: l =>
    match p.find b (c :: l) with
    | none => (if after then [c :: l] else []) ++ resumedFrom false (some c) 0 l
    | some (w, u) =>
      (if after ∧ (p.redacts u → w ≠ []) then [c :: l] else []) ++
        resumedFrom (p.redacts u) (some c) (w.length + u.length - 1) l

def resumed (l : List Char) : List (List Char) := p.resumedFrom false none 0 l

def replaceAll (l : List Char) : List Char := p.replaceFrom M none 0 l

/-- The pattern matches a beginning of the text. -/
def StartsAt (b : Option Char) (l : List Char) : Prop :=
  ∃ w u v, l = w ++ (u ++ v) ∧ p.lead.Matches b w (u ++ v).head? ∧ p.body.Matches (lastOf b w) u v.head?

/-- `K` is about what is kept directly behind a redaction, which the `Bool` tells. -/
inductive Passed (K : List Char → Prop) : Bool → Option Char → List Char → List Char → Prop
  | nil {after b} : Passed K after b [] []
  | keep {after b c t t'} : ¬ p.StartsAt b (c :: t) → (after = true → K (c :: t)) →
      Passed K false (some c) t t' → Passed K after b (c :: t) (c :: t')
  | redact {after b w u v v'} : p.find b (w ++ (u ++ v)) = some (w, u) → p.redacts u = true →
      (w ≠ [] → after = true → K (w ++ (u ++ v))) → Passed K true (lastOf b (w ++ u)) v v' →
      Passed K after b (w ++ (u ++ v)) (w ++ (M ++ v'))
  | leave {after b w u v v'} : p.find b (w ++ (u ++ v)) = some (w, u) → p.redacts u = false →
      (after = true → K (w ++ (u ++ v))) → Passed K false (lastOf b (w ++ u)) v v' →
      Passed K after b (w ++ (u ++ v)) (w ++ (u ++ v'))

variable {p M} {K : List Char → Prop} {after : Bool} {b : Option Char} {l t t' u v w : List Char}

theorem mem_ends {x : List Char × List Char} :
    x ∈ p.ends b l ↔ ∃ w u, l = w ++ (u ++ x.2) ∧ x.1 = u ++ x.2 ∧ p.lead.Matches b w (u ++ x.2).head? ∧
      p.body.Matches (lastOf b w) u x.2.head? := by
  rw [ends, List.mem_flatMap]
  constructor
  · rintro ⟨y, hy, hx⟩
    obtain ⟨z, hz, rfl⟩ := List.mem_map.mp hx
    obtain ⟨w, rfl, hb, hw⟩ := Pat.mem_run.mp hy
    obtain ⟨u, hu, -, hm⟩ := Pat.mem_run.mp hz
    rw [hb] at hm
    rw [hu] at hw
    exact ⟨w, u, by rw [hu], hu, hw, hm⟩
  · rintro ⟨w, u, rfl, hx, hw, hm⟩
    refine ⟨(lastOf b w, u ++ x.2), Pat.mem_run.mpr ⟨w, rfl, rfl, hw⟩, List.mem_map.mpr ?_⟩
    exact ⟨(lastOf (lastOf b w) u, x.2), Pat.mem_run.mpr ⟨u, rfl, rfl, hm⟩, Prod.ext hx.symm rfl⟩

theorem find_eq_none : p.find b l = none ↔ ¬ p.StartsAt b l := by
  rw [find, Option.map_eq_none_iff, List.head?_eq_none_iff, List.eq_nil_iff_forall_not_mem]
  constructor
  · rintro h ⟨w, u, v, hl, hw, hu⟩
    exact h (u ++ v, v) (mem_ends.mpr ⟨w, u, hl, rfl, hw, hu⟩)
  · intro h x hx
    obtain ⟨w, u, hl, -, hw, hu⟩ := mem_ends.mp hx
    exact h ⟨w, u, x.2, hl, hw, hu⟩

/-- What is found is matched, and is what `ends` has first. -/
theorem find_eq_some (h : p.find b l = some (w, u)) :
    ∃ v, l = w ++ (u ++ v) ∧ p.lead.Matches b w (u ++ v).head? ∧ p.body.Matches (lastOf b w) u v.head? ∧
      (p.ends b l).head? = some (u ++ v, v) := by
  obtain ⟨x, hx, hwu⟩ := Option.map_eq_some_iff.mp h
  obtain ⟨w', u', hl, hx1, hw, hu⟩ := mem_ends.mp (List.mem_of_head? hx)
  have hw' : l.take (l.length - x.1.length) = w' := by
    rw [hl, hx1]
    simp
  have hu' : x.1.take (x.1.length - x.2.length) = u' := by
    rw [hx1]
    simp
  rw [hw', hu'] at hwu
  obtain ⟨rfl, rfl⟩ := Prod.ext_iff.mp hwu
  refine ⟨x.2, hl, hw, hu, ?_⟩
  rw [hx, ← hx1]

theorem find_nonempty (h : p.find b l = some (w, u)) : u ≠ [] := by
  obtain ⟨v, -, -, hu, -⟩ := find_eq_some h
  exact hu.ne_nil p.nonempty

theorem replaceFrom_skip : p.replaceFrom M b u.length (u ++ v) = p.replaceFrom M (lastOf b u) 0 v := by
  induction u generalizing b with
  | nil => rfl
  | cons c u ih => exact ih

theorem resumedFrom_skip :
    p.resumedFrom after b u.length (u ++ v) = p.resumedFrom after (lastOf b u) 0 v := by
  induction u generalizing b with
  | nil => rfl
  | cons c u ih => exact ih

theorem passed_replaceFrom {n : Nat} (hn : l.length ≤ n) (hK : ∀ r ∈ p.resumedFrom after b 0 l, K r) :
    p.Passed M K after b l (p.replaceFrom M b 0 l) := by
  induction n generalizing after b l with
  | zero =>
    rw [List.eq_nil_of_length_eq_zero (Nat.le_zero.mp hn)]
    exact .nil
  | succ n ih =>
    cases l with
    | nil => exact .nil
    | cons c l =>
      rw [replaceFrom]
      rw [resumedFrom] at hK
      cases h : p.find b (c :: l) with
      | none =>
        simp only [h, List.forall_mem_append] at hK
        refine .keep (find_eq_none.mp h) (fun ha => ?_) (ih (Nat.le_of_succ_le_succ hn) hK.2)
        exact hK.1 _ (by rw [if_pos ha]; exact List.mem_singleton_self _)
      | some x =>
        obtain ⟨w, u⟩ := x
        obtain ⟨v, hl, -⟩ := find_eq_some h
        have hne := List.append_ne_nil_of_right_ne_nil w (find_nonempty h)
        -- the search goes on behind what was found
        obtain ⟨d, x, hx⟩ := List.exists_cons_of_ne_nil hne
        have hlx : c :: l = d :: (x ++ v) := by rw [hl, ← List.append_assoc, hx, List.cons_append]
        obtain ⟨rfl, rfl⟩ := List.cons.inj hlx
        have hlen : w.length + u.length - 1 = x.length := by
          rw [← List.length_append, hx, List.length_cons, Nat.add_sub_cancel]
        have hlast : lastOf b (w ++ u) = lastOf (some c) x := by rw [hx, lastOf_cons]
        have hv : v.length ≤ n := by
          rw [List.length_cons, List.length_append] at hn
          omega
        simp only [h, hlen, resumedFrom_skip, ← hlast, List.forall_mem_append] at hK
        obtain ⟨hkept, hK⟩ := hK
        simp only [hlen, replaceFrom_skip, ← hlast]
        have hkept : after = true → (p.redacts u = true → w ≠ []) → K (w ++ (u ++ v)) := fun ha hw =>
          hl ▸ hkept _ (by rw [if_pos ⟨ha, hw⟩]; exact List.mem_singleton_self _)
        rw [hl] at h ⊢
        split
        · rename_i hr
          rw [hr] at hK
          exact .redact h hr (fun hw ha => hkept ha fun _ => hw) (ih hv hK)
        · rename_i hr
          have hr : p.redacts u = false := by simpa using hr
          rw [hr] at hK
          exact .leave h hr (fun ha => hkept ha fun h => absurd (hr.symm.trans h) Bool.false_ne_true) (ih hv hK)

theorem passed_replaceAll (hK : ∀ r ∈ p.resumed l, K r) : p.Passed M K false none l (p.replaceAll M l) :=
  passed_replaceFrom (Nat.le_refl _) hK

/-! ## Behind a marker -/

variable (p M) in
/-- What the pass would redact begins directly behind a marker. -/
def FindsBehind (l : List Char) : Prop :=
  ∃ m w u v, M = m ++ w ∧ l = u ++ v ∧ p.lead.Matches (lastOf none m) w l.head? ∧
    p.body.Matches (lastOf none M) u v.head? ∧ p.redacts u = true

variable (p M) in
def findsBehind (l : List Char) : Bool :=
  (List.range (M.length + 1)).any fun n =>
    (p.lead.run (lastOf none (M.take n)) (M.drop n ++ l)).any fun x => x.2 = l ∧
      (p.body.run (lastOf none M) l).any fun y => p.redacts (l.take (l.length - y.2.length))

theorem findsBehind_eq_true : p.findsBehind M l = true ↔ p.FindsBehind M l := by
  simp only [findsBehind, List.any_eq_true, List.mem_range, decide_eq_true_eq]
  constructor
  · rintro ⟨n, -, x, hx, hxl, y, hy, hr⟩
    obtain ⟨w, hw, -, hlead⟩ := Pat.mem_run.mp hx
    obtain ⟨u, hu, -, hm⟩ := Pat.mem_run.mp hy
    rw [hxl] at hw hlead
    have hw : M.drop n = w := List.append_cancel_right hw
    have htake : l.take (l.length - y.2.length) = u := by
      rw [hu]
      simp
    rw [htake] at hr
    exact ⟨M.take n, w, u, y.2, by rw [← hw, List.take_append_drop], hu, hlead, hm, hr⟩
  · rintro ⟨m, w, u, v, rfl, rfl, hlead, hm, hr⟩
    refine ⟨m.length, by rw [List.length_append]; omega, (lastOf (lastOf none m) w, u ++ v), ?_, rfl,
      (lastOf (lastOf none (m ++ w)) u, v), Pat.mem_run.mpr ⟨u, rfl, rfl, hm⟩, ?_⟩
    · rw [List.take_left, List.drop_left]
      exact Pat.mem_run.mpr ⟨w, rfl, rfl, hlead⟩
    · simpa using hr

instance : DecidablePred (p.FindsBehind M) := fun _ => decidable_of_iff _ findsBehind_eq_true

/-! ## Texts with nothing to redact -/

/-- The pattern finds something to redact between `b` and the end. -/
def Finds (p : Pass) (b : Option Char) (l : List Char) : Prop :=
  ∃ pre w u v, l = pre ++ (w ++ (u ++ v)) ∧ p.lead.Matches (lastOf b pre) w (u ++ v).head? ∧
    p.body.Matches (lastOf (lastOf b pre) w) u v.head? ∧ p.redacts u = true

theorem Finds.append (h : p.Finds (lastOf b u) v) : p.Finds b (u ++ v) := by
  obtain ⟨pre, w, x, y, rfl, hw, hx, hr⟩ := h
  refine ⟨u ++ pre, w, x, y, (List.append_assoc ..).symm, ?_, ?_, hr⟩
  · rw [lastOf_append]
    exact hw
  · rw [lastOf_append]
    exact hx

theorem Passed.eq_of_not_finds (h : p.Passed M K after b t t') (hf : ¬ p.Finds b t) : t' = t := by
  induction h with
  | nil => rfl
  | @keep _ b c t t' _ _ _ ih =>
    rw [ih fun h => hf (Finds.append (u := [c]) h)]
  | @redact _ b w u v v' h hr _ _ ih =>
    obtain ⟨v₁, hl, hw, hu, -⟩ := find_eq_some h
    exact absurd ⟨[], w, u, v₁, hl, hw, hu, hr⟩ hf
  | @leave _ b w u v v' h hr _ _ ih =>
    rw [ih fun h => hf ?_]
    rw [← List.append_assoc]
    exact h.append

theorem replaceAll_eq_self (h : ¬ p.Finds none l) : p.replaceAll M l = l :=
  (passed_replaceAll (fun _ _ => trivial)).eq_of_not_finds h

end Pass

end Claudear.Text
