import Claudear.Text.Replaced

/-!
# Patterns with groups

A `Grouped` pattern is a list of alternatives, tried in order, of parts that match one
after the other; a part may be a group. Its match is the text of each part.
`replaceAll` puts in place of each match, from left to right, what is made of it.
Where that only swaps parts of a match for a marker, so does the whole (`replaced_replaceAll`).
-/

namespace Claudear.Text

variable {γ : Type*}

/-- The text of each part of a match. -/
abbrev Captures (γ : Type*) := List (Option γ × List Char)

namespace Captures

def whole (m : Captures γ) : List Char := m.flatMap Prod.snd

/-- The text of a group, unless it is a group of another alternative. -/
def name [DecidableEq γ] (m : Captures γ) (g : γ) : Option (List Char) := (m.find? fun x => x.1 = some g).map Prod.snd

/-- The match with a new text for a group. -/
def swapping [DecidableEq γ] (m : Captures γ) (g : γ) (new : List Char) : List Char :=
  m.flatMap fun x => if x.1 = some g then new else x.2

end Captures

structure Grouped (γ : Type*) where
  alternatives : List (List (Option γ × Pat))
  /-- No match is empty. -/
  nonempty : alternatives.all (fun parts => parts.any fun x => !x.2.nullable) = true := by rfl

namespace Grouped

/-- The parts of each way to match a beginning of the text. -/
def ways : List (Option γ × Pat) → Option Char → List Char → List (Captures γ)
  | [], _, _ => [[]]
  | (g, r) :: parts, b, l =>
    (r.run b l).flatMap fun x => (ways parts x.1 x.2).map fun m => (g, l.take (l.length - x.2.length)) :: m

variable (r : Grouped γ)

/-- The preferred match at the beginning of the text. -/
def find (b : Option Char) (l : List Char) : Option (Captures γ) :=
  (r.alternatives.flatMap fun parts => ways parts b l).head?

/-- After `skip` more characters, which belong to a match. -/
def replaceFrom (f : Captures γ → List Char) : Option Char → Nat → List Char → List Char
  | _, _, [] => []
  | _, skip + 1, c :: l => replaceFrom f (some c) skip l
  | b, 0, c :: l =>
    match r.find b (c :: l) with
    | none => c :: replaceFrom f (some c) 0 l
    | some m => f m ++ replaceFrom f (some c) (m.whole.length - 1) l

def replaceAll (f : Captures γ → List Char) (l : List Char) : List Char := r.replaceFrom f none 0 l

/-- The matches of the text behind `pos` characters, with where they start. -/
def capturesFrom : Nat → Option Char → Nat → List Char → List (Nat × Captures γ)
  | _, _, _, [] => []
  | pos, _, skip + 1, c :: l => capturesFrom (pos + 1) (some c) skip l
  | pos, b, 0, c :: l =>
    match r.find b (c :: l) with
    | none => capturesFrom (pos + 1) (some c) 0 l
    | some m => (pos, m) :: capturesFrom (pos + 1) (some c) (m.whole.length - 1) l

def capturesIter (l : List Char) : List (Nat × Captures γ) := r.capturesFrom 0 none 0 l

variable {r} {parts : List (Option γ × Pat)} {f : Captures γ → List Char} {b : Option Char} {l u v M : List Char}
  {m : Captures γ}

theorem ways_prefix (h : m ∈ ways parts b l) : ∃ v, l = m.whole ++ v := by
  induction parts generalizing b l m with
  | nil =>
    rw [List.mem_singleton.mp h]
    exact ⟨l, rfl⟩
  | cons p parts ih =>
    obtain ⟨g, r⟩ := p
    obtain ⟨x, hx, hm⟩ := List.mem_flatMap.mp h
    obtain ⟨m', hm', rfl⟩ := List.mem_map.mp hm
    obtain ⟨u, hu, -⟩ := Pat.mem_run.mp hx
    obtain ⟨v, hv⟩ := ih hm'
    refine ⟨v, ?_⟩
    have htake : l.take (l.length - x.2.length) = u := by
      rw [hu]
      simp
    rw [Captures.whole, List.flatMap_cons, htake, List.append_assoc, ← Captures.whole, ← hv, hu]

theorem ways_ne_nil (h : m ∈ ways parts b l) (hp : parts.any (fun x => !x.2.nullable) = true) : m.whole ≠ [] := by
  induction parts generalizing b l m with
  | nil => cases hp
  | cons p parts ih =>
    obtain ⟨g, r⟩ := p
    obtain ⟨x, hx, hm⟩ := List.mem_flatMap.mp h
    obtain ⟨m', hm', rfl⟩ := List.mem_map.mp hm
    rw [Captures.whole, List.flatMap_cons]
    rcases Bool.or_eq_true _ _ ▸ hp with hr | hp
    · obtain ⟨u, hu, -, hmatch⟩ := Pat.mem_run.mp hx
      refine List.append_ne_nil_of_left_ne_nil ?_ _
      have htake : l.take (l.length - x.2.length) = u := by
        rw [hu]
        simp
      rw [htake]
      exact hmatch.ne_nil (by simpa using hr)
    · exact List.append_ne_nil_of_right_ne_nil _ (ih hm' hp)

theorem find_prefix (h : r.find b l = some m) : m.whole ≠ [] ∧ ∃ v, l = m.whole ++ v := by
  obtain ⟨parts, hparts, hm⟩ := List.mem_flatMap.mp (List.mem_of_head? h)
  exact ⟨ways_ne_nil hm (List.all_eq_true.mp r.nonempty parts hparts), ways_prefix hm⟩

theorem replaceFrom_skip : r.replaceFrom f b u.length (u ++ v) = r.replaceFrom f (lastOf b u) 0 v := by
  induction u generalizing b with
  | nil => rfl
  | cons c u ih => exact ih

end Grouped

namespace Replaced

variable {α : Type*} {P : List α → Prop} {new x y u v : List α}

theorem refl : Replaced P new x x := by
  induction x with
  | nil => exact .nil
  | cons c x ih => exact ih.keep

theorem append (h : Replaced P new x y) (h' : Replaced P new u v) : Replaced P new (x ++ u) (y ++ v) := by
  induction h with
  | nil => exact h'
  | keep _ ih => exact ih.keep
  | @swap d _ _ hd _ ih =>
    rw [List.append_assoc, List.append_assoc]
    exact .swap hd ih

end Replaced

namespace Grouped

variable {r : Grouped γ} {f : Captures γ → List Char} {b : Option Char} {l M : List Char} {m : Captures γ}
  {P : List Char → Prop}

theorem replaced_swapping [DecidableEq γ] {g : γ} (h : ∀ x ∈ m, x.1 = some g → P x.2) :
    Replaced P M m.whole (m.swapping g M) := by
  induction m with
  | nil => exact .nil
  | cons x m ih =>
    obtain ⟨hx, hm⟩ := List.forall_mem_cons.mp h
    rw [Captures.whole, List.flatMap_cons, Captures.swapping, List.flatMap_cons]
    refine Replaced.append ?_ (ih hm)
    split
    · rename_i hg
      have hswap : Replaced P M (x.2 ++ []) (M ++ []) := .swap (hx hg) .nil
      rwa [List.append_nil, List.append_nil] at hswap
    · exact .refl

/-- What is put in place of each match swaps parts of it, and so does all of it. -/
theorem replaced_replaceAll (h : ∀ m, m.whole ≠ [] → Replaced P M m.whole (f m)) (l : List Char) :
    Replaced P M l (r.replaceAll f l) := by
  obtain ⟨n, hn⟩ : ∃ n, l.length ≤ n := ⟨_, Nat.le_refl _⟩
  rw [replaceAll]
  generalize (none : Option Char) = b
  induction n generalizing b l with
  | zero =>
    rw [List.eq_nil_of_length_eq_zero (Nat.le_zero.mp hn)]
    exact .nil
  | succ n ih =>
    cases l with
    | nil => exact .nil
    | cons c l =>
      rw [replaceFrom]
      cases hfind : r.find b (c :: l) with
      | none => exact (ih l (Nat.le_of_succ_le_succ hn) (some c)).keep
      | some m =>
        obtain ⟨hne, v, hv⟩ := find_prefix hfind
        obtain ⟨d, w, hw⟩ := List.exists_cons_of_ne_nil hne
        -- the search goes on behind the match
        rw [hw, List.cons_append] at hv
        obtain ⟨rfl, rfl⟩ := List.cons.inj hv
        dsimp only
        rw [hw, List.length_cons, Nat.add_sub_cancel, replaceFrom_skip, ← List.cons_append, ← hw]
        refine Replaced.append (h m hne) (ih v ?_ _)
        rw [List.length_cons, List.length_append] at hn
        omega

end Grouped

end Claudear.Text
