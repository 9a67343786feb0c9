import Mathlib.Data.List.Infix

/-!
# The leftmost place

A search tries the suffixes of a text, the longest first. `Leftmost P l t` says
that `t` is the suffix of `l` that begins at the first place where `P` holds;
`findSome?` over the suffixes finds what stands there (`findSome?_tails_eq_some`).
-/

namespace Claudear.Text

variable {α β γ : Type*} {P Q : List α → Prop} {f : List α → Option β} {g : β → Option γ} {l s t u : List α} {b : β} {c : α}

/-- `t` begins at the first place of `l` where `P` holds. -/
def Leftmost (P : List α → Prop) (l t : List α) : Prop := t <:+ l ∧ P t ∧ ∀ s, s <:+ l → P s → s <:+ t

theorem Leftmost.unique (hs : Leftmost P l s) (ht : Leftmost P l t) : s = t :=
  (ht.2.2 s hs.1 hs.2.1).eq_of_length_le (hs.2.2 t ht.1 ht.2.1).length_le

theorem leftmost_self (h : P l) : Leftmost P l l := ⟨List.suffix_refl l, h, fun _ hs _ => hs⟩

theorem leftmost_cons (h : ¬ P (c :: l)) : Leftmost P (c :: l) t ↔ Leftmost P l t := by
  have hskip : ∀ s, P s → (s <:+ c :: l ↔ s <:+ l) := by
    intro s hs
    rw [List.suffix_cons_iff, or_iff_right]
    rintro rfl
    exact h hs
  constructor
  · rintro ⟨ht, hp, hfirst⟩
    exact ⟨(hskip t hp).mp ht, hp, fun s hs hps => hfirst s ((hskip s hps).mpr hs) hps⟩
  · rintro ⟨ht, hp, hfirst⟩
    exact ⟨(hskip t hp).mpr ht, hp, fun s hs hps => hfirst s ((hskip s hps).mp hs) hps⟩

/-! ## Searching -/

theorem findSome?_tails_cons : (c :: l).tails.findSome? f = (f (c :: l)).or (l.tails.findSome? f) := by
  rw [List.tails_cons, List.findSome?_cons]
  cases f (c :: l) <;> rfl

theorem findSome?_tails_eq_none : l.tails.findSome? f = none ↔ ∀ t, t <:+ l → f t = none := by
  simp only [List.findSome?_eq_none_iff, List.mem_tails]

theorem findSome?_tails_eq_some :
    l.tails.findSome? f = some b ↔ ∃ t, Leftmost (fun s => (f s).isSome = true) l t ∧ f t = some b := by
  induction l with
  | nil =>
    constructor
    · intro h
      have hf : f [] = some b := by simpa using h
      exact ⟨[], leftmost_self (by rw [hf]; rfl), hf⟩
    · rintro ⟨t, ⟨ht, -, -⟩, hf⟩
      rw [List.suffix_nil.mp ht] at hf
      simpa using hf
  | cons c l ih =>
    rw [findSome?_tails_cons]
    cases hc : f (c :: l) with
    | none =>
      rw [Option.none_or, ih]
      simp only [leftmost_cons (P := fun s => (f s).isSome = true) (by rw [hc]; exact Bool.false_ne_true)]
    | some d =>
      have hself : Leftmost (fun s => (f s).isSome = true) (c :: l) (c :: l) := leftmost_self (by rw [hc]; rfl)
      constructor
      · intro h
        exact ⟨c :: l, hself, hc.trans h⟩
      · rintro ⟨t, ht, hf⟩
        rw [ht.unique hself, hc] at hf
        exact hf

/-- Nothing is made of what is found first. -/
theorem bind_findSome?_tails_eq_none : (l.tails.findSome? f).bind g = none ↔
    ∀ t b, Leftmost (fun s => (f s).isSome = true) l t → f t = some b → g b = none := by
  constructor
  · intro h t b ht hf
    rwa [findSome?_tails_eq_some.mpr ⟨t, ht, hf⟩] at h
  · intro h
    cases hb : l.tails.findSome? f with
    | none => rfl
    | some b =>
      obtain ⟨t, ht, hf⟩ := findSome?_tails_eq_some.mp hb
      exact h t b ht hf

/-- A search passes over characters with which nothing begins. -/
theorem findSome?_tails_skip (h : ∀ c ∈ s, ∀ l, f (c :: l) = none) :
    (s ++ l).tails.findSome? f = l.tails.findSome? f := by
  induction s with
  | nil => rfl
  | cons c s ih =>
    obtain ⟨hc, h⟩ := List.forall_mem_cons.mp h
    rw [List.cons_append, findSome?_tails_cons, hc, Option.none_or, ih h]

end Claudear.Text
