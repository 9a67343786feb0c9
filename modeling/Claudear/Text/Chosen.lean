import Claudear.Text.Apart
import Claudear.Text.Groups

/-!
# Where the characters of a text are left

A text with `tags` has its positions beside its characters, and a text that is put in
has none. `replaceTagged` replaces what reads as `d`, whatever the tags. It takes from the
left every `d` of which all characters are left (`Swept.step`).

`Chosen ds l` is a set of places at which words of `ds` stand in `l` without
overlapping: earlier words come first and each is taken from the left. There is one
such set, and replacing the words one after the other takes it (`each_chosen`).
-/

namespace Claudear.Text

variable {α β : Type*}

/-! ## Tags -/

/-- The characters with their positions, the first of which is `n`. -/
def tagFrom (n : Nat) : List α → List (Option Nat × α)
  | [] => []
  | c :: l => (some n, c) :: tagFrom (n + 1) l

/-- Characters that were put in. -/
def untagged (l : List α) : List (Option Nat × α) := l.map fun c => (none, c)

/-- The character at the position is left. -/
def Left (y : List (Option Nat × α)) (i : Nat) : Prop := ∃ c, (some i, c) ∈ y

variable {n i j k : Nat} {l u v d M : List α} {y z : List (Option Nat × α)} {c : α}

@[simp] theorem tagFrom_snd : (tagFrom n l).map Prod.snd = l := by
  induction l generalizing n with
  | nil => rfl
  | cons c l ih => rw [tagFrom, List.map_cons, ih]

@[simp] theorem untagged_snd : (untagged l).map Prod.snd = l := by
  rw [untagged, List.map_map]
  exact List.map_id l

theorem tagFrom_append : tagFrom n (u ++ v) = tagFrom n u ++ tagFrom (n + u.length) v := by
  induction u generalizing n with
  | nil => rfl
  | cons c u ih =>
    rw [List.cons_append, tagFrom, tagFrom, ih, List.cons_append, List.length_cons, Nat.add_comm u.length 1,
      Nat.add_assoc]

theorem left_tagFrom : Left (tagFrom n l) i ↔ n ≤ i ∧ i < n + l.length := by
  induction l generalizing n with
  | nil =>
    refine iff_of_false (fun ⟨c, hc⟩ => List.not_mem_nil hc) ?_
    rw [List.length_nil]
    omega
  | cons c l ih =>
    have hcons : Left (tagFrom n (c :: l)) i ↔ i = n ∨ Left (tagFrom (n + 1) l) i := by
      simp [Left, tagFrom, exists_or]
    rw [hcons, ih, List.length_cons]
    omega

theorem left_append : Left (y ++ z) i ↔ Left y i ∨ Left z i := by
  simp only [Left, List.mem_append, exists_or]

theorem not_left_untagged : ¬ Left (untagged l) i := by
  rintro ⟨c, hc⟩
  obtain ⟨d, -, hd⟩ := List.mem_map.mp hc
  cases hd

/-- Some spans of the text, whose first position is `n`, were swapped for `M`. -/
inductive Swept (M : List α) : Nat → List α → List (Option Nat × α) → Prop
  | nil {n : Nat} : Swept M n [] []
  | keep {n : Nat} {c : α} {l : List α} {y : List (Option Nat × α)} :
    Swept M (n + 1) l y → Swept M n (c :: l) ((some n, c) :: y)
  | swap {n : Nat} {d l : List α} {y : List (Option Nat × α)} :
    d ≠ [] → Swept M (n + d.length) l y → Swept M n (d ++ l) (untagged M ++ y)

namespace Swept

theorem refl : Swept M n l (tagFrom n l) := by
  induction l generalizing n with
  | nil => exact .nil
  | cons c l ih => exact ih.keep

theorem replaced (h : Swept M n l y) : Replaced (fun _ => True) (untagged M) (tagFrom n l) y := by
  induction h with
  | nil => exact .nil
  | keep _ ih => exact ih.keep
  | swap _ _ ih =>
    rw [tagFrom_append]
    exact .swap trivial ih

theorem le_of_left (h : Swept M n l y) (hi : Left y i) : n ≤ i := by
  induction h with
  | nil => exact absurd hi fun ⟨c, hc⟩ => List.not_mem_nil hc
  | keep _ ih =>
    obtain ⟨c, hc⟩ := hi
    rcases List.mem_cons.mp hc with he | hc
    · cases he
      exact Nat.le_refl _
    · exact Nat.le_of_succ_le (ih ⟨c, hc⟩)
  | swap _ _ ih =>
    have := ih ((left_append.mp hi).resolve_left not_left_untagged)
    omega

/-- A word of which all characters are left is read as it was. -/
theorem of_all_left (h : Swept M n (d ++ l) y) (hleft : ∀ i, n ≤ i → i < n + d.length → Left y i) :
    ∃ z, y = tagFrom n d ++ z ∧ Swept M (n + d.length) l z := by
  induction d generalizing n y with
  | nil => exact ⟨y, rfl, h⟩
  | cons c d ih =>
    generalize hl : c :: d ++ l = x at h
    cases h with
    | nil => cases hl
    | keep h =>
      obtain ⟨rfl, rfl⟩ := List.cons.inj hl
      obtain ⟨z, rfl, hz⟩ := ih h fun i hn hi => by
        obtain ⟨e, he⟩ := hleft i (Nat.le_of_succ_le hn) (by rw [List.length_cons]; omega)
        rcases List.mem_cons.mp he with he | he
        · cases he
          omega
        · exact ⟨e, he⟩
      refine ⟨z, rfl, ?_⟩
      rwa [List.length_cons, Nat.add_comm d.length 1, ← Nat.add_assoc]
    | swap hne h =>
      have hn := hleft n (Nat.le_refl n) (by rw [List.length_cons]; omega)
      have hle := h.le_of_left ((left_append.mp hn).resolve_left not_left_untagged)
      have hpos := List.length_pos_of_ne_nil hne
      omega

/-- A word that is read, and does not run into a marker, is left. -/
theorem of_read (h : Swept M n l y) (hd : Off d M) (hread : d <+: y.map Prod.snd) :
    ∃ l' z, l = d ++ l' ∧ y = tagFrom n d ++ z ∧ Swept M (n + d.length) l' z := by
  induction d generalizing n l y with
  | nil => exact ⟨l, y, rfl, rfl, h⟩
  | cons c d ih =>
    obtain ⟨t, ht⟩ := hread
    cases h with
    | nil => cases ht
    | keep h =>
      obtain ⟨rfl, hrest⟩ := List.cons.inj ht
      obtain ⟨l', z, rfl, rfl, hz⟩ := ih h hd.tail ⟨t, hrest⟩
      refine ⟨l', z, rfl, rfl, ?_⟩
      rwa [List.length_cons, Nat.add_comm d.length 1, ← Nat.add_assoc]
    | swap hne h =>
      rw [List.map_append, untagged_snd] at ht
      exact absurd ht (hd.front (List.cons_ne_nil c d))

end Swept

/-! ## Words that are not there -/

/-- What does not run into a marker was there before. -/
theorem Replaced.front {Q : List α → Prop} {x y : List α} (h : Replaced Q M x (d ++ y)) (hd : Off d M) :
    ∃ x', x = d ++ x' ∧ Replaced Q M x' y := by
  induction d generalizing x with
  | nil => exact ⟨x, rfl, h⟩
  | cons c d ih =>
    generalize hz : c :: d ++ y = z at h
    cases h with
    | nil => cases hz
    | keep h =>
      obtain ⟨rfl, rfl⟩ := List.cons.inj hz
      obtain ⟨x', rfl, hx'⟩ := ih h hd.tail
      exact ⟨x', rfl, hx'⟩
    | swap => exact absurd hz (hd.front (List.cons_ne_nil c d))

/-- A word that is not in a text does not come into it with markers. -/
theorem Replaced.stays {Q : List α → Prop} {x y : List α} (h : Replaced Q M x y) (hd : Apart M d) (hx : ¬ d <:+: x) :
    ¬ d <:+: y := by
  induction h with
  | nil => exact hx
  | @keep c x y h ih =>
    intro hy
    rcases List.infix_cons_iff.mp hy with ⟨t, ht⟩ | hy
    · obtain ⟨x', hx', -⟩ := (ht ▸ h.keep : Replaced Q M (c :: x) (d ++ t)).front hd.before
      exact hx (hx' ▸ (List.prefix_append d x').isInfix)
    · exact ih (fun hi => hx (hi.trans (List.suffix_cons c x).isInfix)) hy
  | @swap e x y _ _ ih =>
    intro hy
    rcases hd.isInfix_around (x := []) hy with hy | hy
    · exact hd.ne_nil (List.infix_nil.mp hy)
    · exact ih (fun hi => hx (hi.trans (List.suffix_append e x).isInfix)) hy

/-! ## One word -/

section
variable [DecidableEq α]

/-- After `skip` more characters, which belong to a `d` that was replaced. -/
def replaceTaggedFrom (d M : List α) : Nat → List (Option Nat × α) → List (Option Nat × α)
  | _, [] => []
  | skip + 1, _ :: y => replaceTaggedFrom d M skip y
  | 0, x :: y =>
    if d <+: (x :: y).map Prod.snd then untagged M ++ replaceTaggedFrom d M (d.length - 1) y
    else x :: replaceTaggedFrom d M 0 y

/-- `replaceText`, with the tags. -/
def replaceTagged (d M : List α) (y : List (Option Nat × α)) : List (Option Nat × α) := replaceTaggedFrom d M 0 y

theorem replaceTagged_snd : (replaceTagged d M y).map Prod.snd = replaceText d M (y.map Prod.snd) := by
  rw [replaceTagged, replaceText]
  generalize 0 = skip
  induction y generalizing skip with
  | nil => cases skip <;> rfl
  | cons x y ih =>
    cases skip with
    | succ skip => exact ih skip
    | zero =>
      rw [replaceTaggedFrom, List.map_cons, replaceFrom]
      split
      · rw [List.map_append, untagged_snd, ih]
      · rw [List.map_cons, ih]

theorem replaceTaggedFrom_skip {y z : List (Option Nat × α)} :
    replaceTaggedFrom d M y.length (y ++ z) = replaceTaggedFrom d M 0 z := by
  induction y with
  | nil => rfl
  | cons x y ih => exact ih

/-- Nothing is replaced that begins in a marker. -/
theorem replaceTagged_marker (hd : Off M d) : replaceTagged d M (untagged M ++ y) = untagged M ++ replaceTagged d M y := by
  have key : ∀ s, s <:+ M → replaceTagged d M (untagged s ++ y) = untagged s ++ replaceTagged d M y := by
    intro s
    induction s with
    | nil => exact fun _ => rfl
    | cons c s ih =>
      intro hs
      rw [replaceTagged, untagged, List.map_cons, List.cons_append, replaceTaggedFrom, if_neg]
      · exact congrArg _ (ih ((List.suffix_cons c s).trans hs))
      · obtain ⟨h₁, h₂⟩ := (hd _ ((List.mem_tails _ _).mpr hs)).resolve_left (List.cons_ne_nil c s)
        intro hp
        rw [← List.cons_append, List.map_append, ← List.map_cons, ← untagged, untagged_snd] at hp
        rcases List.prefix_or_prefix_of_prefix hp (List.prefix_append _ _) with h | h
        · exact h₂ h
        · exact h₁ h
  exact key M (List.suffix_refl M)

theorem replaceTagged_keep {x : Option Nat × α} (h : ¬ d <+: (x :: y).map Prod.snd) :
    replaceTagged d M (x :: y) = x :: replaceTagged d M y := by
  rw [replaceTagged, replaceTaggedFrom, if_neg h]
  rfl

theorem replaceTagged_word (hd : d ≠ []) : replaceTagged d M (tagFrom n d ++ y) = untagged M ++ replaceTagged d M y := by
  obtain ⟨c, u, rfl⟩ := List.exists_cons_of_ne_nil hd
  have hp : c :: u <+: ((some n, c) :: (tagFrom (n + 1) u ++ y)).map Prod.snd := by
    rw [List.map_cons, List.map_append, tagFrom_snd]
    exact List.prefix_append (c :: u) _
  rw [replaceTagged, tagFrom, List.cons_append, replaceTaggedFrom, if_pos hp, List.length_cons, Nat.add_sub_cancel]
  have hlen : u.length = (tagFrom (n + 1) u).length := by rw [← List.length_map (f := Prod.snd), tagFrom_snd]
  rw [hlen, replaceTaggedFrom_skip]
  rfl

end

/-- `d` stands at `q` in the text whose first position is `n`. -/
def StandsAt (d : List α) (n : Nat) (l : List α) (q : Nat) : Prop := n ≤ q ∧ d <+: l.drop (q - n)

/-- The position is one of the word at `q`. -/
def Within (d : List α) (q i : Nat) : Prop := q ≤ i ∧ i < q + d.length

theorem Within.lt_length {q : Nat} (h : Within d q i) (hs : d <+: l.drop q) : i < l.length := by
  have hle := hs.length_le
  have := h.1
  have := h.2
  rw [List.length_drop] at hle
  omega

theorem left_of_within (hd : Within d j i) (hs : d <+: l.drop j) : Left (tagFrom 0 l) i :=
  left_tagFrom.mpr ⟨Nat.zero_le i, by rw [Nat.zero_add]; exact hd.lt_length hs⟩

theorem standsAt_append {q : Nat} (hq : n + u.length ≤ q) : StandsAt d n (u ++ l) q ↔ StandsAt d (n + u.length) l q := by
  have hdrop : (u ++ l).drop (q - n) = l.drop (q - (n + u.length)) := by
    rw [List.drop_append, List.drop_eq_nil_of_le (by omega), List.nil_append, Nat.sub_sub]
  rw [StandsAt, StandsAt, hdrop]
  exact and_congr_left fun _ => by omega

/-- The places at which `d` is taken from the left where all of it is left of the text. -/
structure Takes (d : List α) (n : Nat) (l : List α) (y : List (Option Nat × α)) (Q : Nat → Prop) : Prop where
  stands : ∀ q, Q q → StandsAt d n l q ∧ ∀ i, Within d q i → Left y i
  disjoint : ∀ p q, Q p → Q q → p < q → p + d.length ≤ q
  first : ∀ q, StandsAt d n l q → ¬ Q q → (∃ i, Within d q i ∧ ¬ Left y i) ∨ ∃ p, Q p ∧ p < q ∧ q < p + d.length

/-- A beginning `u` of the text, of which `x` is left, and what is taken behind it. -/
theorem Takes.front (taken : Prop) {x : List (Option Nat × α)} {Q : Nat → Prop} (h : Takes d (n + u.length) l z Q)
    (hx : ∀ i, Left x i → i < n + u.length) (htaken : taken → u = d ∧ x = tagFrom n d)
    (hfirst : ∀ q, q < n + u.length → StandsAt d n (u ++ l) q → ¬ (taken ∧ q = n) →
      (∃ i, Within d q i ∧ ¬ Left (x ++ z) i) ∨ taken ∧ n < q) :
    Takes d n (u ++ l) (x ++ z) fun q => taken ∧ q = n ∨ Q q where
  stands := by
    rintro q (⟨ht, rfl⟩ | hq)
    · obtain ⟨rfl, rfl⟩ := htaken ht
      refine ⟨⟨Nat.le_refl q, ?_⟩, fun i hi => left_append.mpr (.inl (left_tagFrom.mpr hi))⟩
      rw [Nat.sub_self]
      exact List.prefix_append u l
    · obtain ⟨hs, hleft⟩ := h.stands q hq
      exact ⟨(standsAt_append hs.1).mpr hs, fun i hi => left_append.mpr (.inr (hleft i hi))⟩
  disjoint := by
    rintro p q (⟨ht, rfl⟩ | hp) (⟨ht', rfl⟩ | hq) hpq
    · omega
    · obtain ⟨rfl, -⟩ := htaken ht
      exact (h.stands q hq).1.1
    · have := (h.stands p hp).1.1
      omega
    · exact h.disjoint p q hp hq hpq
  first := by
    intro q hs hq
    rw [not_or] at hq
    by_cases hlt : q < n + u.length
    · refine (hfirst q hlt hs hq.1).imp_right fun ⟨ht, hn⟩ => ⟨n, .inl ⟨ht, rfl⟩, hn, ?_⟩
      rwa [(htaken ht).1] at hlt
    · rw [Nat.not_lt] at hlt
      rcases h.first q ((standsAt_append hlt).mp hs) hq.2 with ⟨i, hi, hleft⟩ | ⟨p, hp, hpq⟩
      · refine .inl ⟨i, hi, fun hl => ?_⟩
        rcases left_append.mp hl with hl | hl
        · have := hx i hl
          have := hi.1
          omega
        · exact hleft hl
      · exact .inr ⟨p, .inr hp, hpq⟩

theorem Takes.left_front (taken : Prop) {x x' z' : List (Option Nat × α)} {Q : Nat → Prop}
    (h : Takes d (n + u.length) l z Q) (hx : ∀ i, Left x i → i < n + u.length) (hz : ∀ i, Left z i → n + u.length ≤ i)
    (htaken : taken → u = d) (hx' : ∀ i, Left x' i ↔ Left x i ∧ (taken → ¬ Within d n i))
    (hz' : ∀ i, Left z' i ↔ Left z i ∧ ∀ q, Q q → ¬ Within d q i) (i : Nat) :
    Left (x' ++ z') i ↔ Left (x ++ z) i ∧ ∀ q, taken ∧ q = n ∨ Q q → ¬ Within d q i := by
  rw [left_append, left_append, hx', hz']
  constructor
  · rintro (⟨hl, hn⟩ | ⟨hl, hn⟩)
    · refine ⟨.inl hl, ?_⟩
      rintro q (⟨ht, rfl⟩ | hq)
      · exact hn ht
      · have hle := (h.stands q hq).1.1
        have hlt := hx i hl
        exact fun hw => by have := hw.1; omega
    · refine ⟨.inr hl, ?_⟩
      rintro q (⟨ht, rfl⟩ | hq)
      · have hle := hz i hl
        rw [htaken ht] at hle
        exact fun hw => by have := hw.2; omega
      · exact hn q hq
  · rintro ⟨hl | hl, hn⟩
    · exact .inl ⟨hl, fun ht => hn n (.inl ⟨ht, rfl⟩)⟩
    · exact .inr ⟨hl, fun q hq => hn q (.inr hq)⟩

section
variable [DecidableEq α]

/-- Replacing `d` takes it from the left where all of it is left. -/
theorem Swept.step (h : Swept M n l y) (hd : Apart M d) :
    Swept M n l (replaceTagged d M y) ∧ ∃ Q, Takes d n l y Q ∧
      ∀ i, Left (replaceTagged d M y) i ↔ Left y i ∧ ∀ q, Q q → ¬ Within d q i := by
  obtain ⟨m, hm⟩ : ∃ m, l.length ≤ m := ⟨_, Nat.le_refl _⟩
  have hpos := List.length_pos_of_ne_nil hd.ne_nil
  induction m generalizing n l y with
  | zero =>
    cases h with
    | nil =>
      refine ⟨.nil, fun _ => False, ⟨fun q hq => hq.elim, fun p q hp => hp.elim, fun q hq => ?_⟩, fun i => ?_⟩
      · have hle := hq.2.length_le
        rw [List.drop_nil, List.length_nil] at hle
        omega
      · exact (and_iff_left fun q hq => hq.elim).symm
    | keep => cases hm
    | swap hne =>
      have := List.length_pos_of_ne_nil hne
      rw [List.length_append] at hm
      omega
  | succ m ih =>
    cases h with
    | nil => exact ih .nil (Nat.zero_le m)
    | @keep _ c l y h =>
      have hkept : Swept M n (c :: l) ((some n, c) :: y) := h.keep
      by_cases hp : d <+: ((some n, c) :: y).map Prod.snd
      · obtain ⟨l', z, hl, hy, hz⟩ := hkept.of_read hd.before hp
        rw [hl] at hm ⊢
        rw [hy, replaceTagged_word hd.ne_nil]
        rw [List.length_append] at hm
        obtain ⟨hswept, Q, hQ, hleft⟩ := ih hz (by omega)
        refine ⟨.swap hd.ne_nil hswept, _, hQ.front True (fun i hi => (left_tagFrom.mp hi).2) (fun _ => ⟨rfl, rfl⟩) ?_,
          hQ.left_front True (fun i hi => (left_tagFrom.mp hi).2) (fun i => hz.le_of_left) (fun _ => rfl) ?_ hleft⟩
        · intro q hlt hs hq
          have hne : q ≠ n := fun he => hq ⟨trivial, he⟩
          exact .inr ⟨trivial, by have := hs.1; omega⟩
        · intro i
          refine iff_of_false not_left_untagged fun hi => hi.2 trivial ?_
          exact left_tagFrom.mp hi.1
      · rw [replaceTagged_keep hp]
        obtain ⟨hswept, Q, hQ, hleft⟩ := ih h (Nat.le_of_succ_le_succ hm)
        have hx : ∀ i, Left [(some n, c)] i → i < n + [c].length := fun i hi => (left_tagFrom (l := [c]).mp hi).2
        refine ⟨hswept.keep, _, hQ.front (u := [c]) (x := [(some n, c)]) False hx False.elim ?_,
          hQ.left_front (u := [c]) (x := [(some n, c)]) False hx (fun i => h.le_of_left) False.elim
            (fun i => (and_iff_left False.elim).symm) hleft⟩
        intro q hlt hs _
        obtain rfl : q = n := by
          have := hs.1
          rw [List.length_singleton] at hlt
          omega
        -- all of it left would have been read
        by_contra hall
        rw [not_or, not_exists] at hall
        obtain ⟨l', hl⟩ := hs.2
        rw [Nat.sub_self, List.drop_zero] at hl
        have hword : Swept M q (d ++ l') ((some q, c) :: y) := hl ▸ hkept
        obtain ⟨z, hz, -⟩ := hword.of_all_left fun i hi hi' => not_not.mp fun hn => hall.1 i ⟨⟨hi, hi'⟩, hn⟩
        rw [hz, List.map_append, tagFrom_snd] at hp
        exact hp (List.prefix_append d _)
    | @swap _ e l y hne h =>
      rw [replaceTagged_marker hd.behind]
      have hepos := List.length_pos_of_ne_nil hne
      rw [List.length_append] at hm
      obtain ⟨hswept, Q, hQ, hleft⟩ := ih h (by omega)
      have hx : ∀ i, Left (untagged M) i → i < n + e.length := fun i hi => absurd hi not_left_untagged
      refine ⟨.swap hne hswept, _, hQ.front False hx False.elim ?_,
        hQ.left_front False hx (fun i => h.le_of_left) False.elim (fun i => (and_iff_left False.elim).symm) hleft⟩
      intro q hlt hs _
      refine .inl ⟨q, ⟨Nat.le_refl q, by omega⟩, fun hl => ?_⟩
      have := h.le_of_left ((left_append.mp hl).resolve_left not_left_untagged)
      omega

/-! ## Words one after the other -/

def replaceEachTagged (ds : List (List α)) (M : List α) (y : List (Option Nat × α)) : List (Option Nat × α) :=
  ds.foldl (fun y d => replaceTagged d M y) y

/-- The word and its place come before the other, earlier in the list or further left. -/
def Earlier (ds : List (List α)) (e : List α) (p : Nat) (d : List α) (q : Nat) : Prop :=
  ds.idxOf e < ds.idxOf d ∨ e = d ∧ p < q

/-- A choice of places: words that do not overlap, so that every other place of a word
overlaps one that comes before it. -/
structure Chosen (ds : List (List α)) (l : List α) (P : Nat → List α → Prop) : Prop where
  stands : ∀ q d, P q d → d ∈ ds ∧ d <+: l.drop q
  disjoint : ∀ p e q d i, P p e → P q d → Within e p i → Within d q i → p = q ∧ e = d
  first : ∀ q d, d ∈ ds → d <+: l.drop q → ¬ P q d → ∃ p e i, P p e ∧ Earlier ds e p d q ∧ Within e p i ∧ Within d q i

variable {ds : List (List α)} {P P' : Nat → List α → Prop}

theorem Chosen.unique (h : Chosen ds l P) (h' : Chosen ds l P') (q : Nat) (d : List α) : P q d ↔ P' q d := by
  -- by the order of the words, and then of the places
  induction hk : ds.idxOf d using Nat.strong_induction_on generalizing q d with
  | _ k ihk =>
    subst hk
    induction q using Nat.strong_induction_on with
    | _ q ihq =>
      have key {P P' : Nat → List α → Prop} (h : Chosen ds l P) (h' : Chosen ds l P')
          (hsame : ∀ p e, Earlier ds e p d q → (P' p e → P p e)) (hP : P q d) : P' q d := by
        by_contra hn
        obtain ⟨hd, hstands⟩ := h.stands q d hP
        obtain ⟨p, e, i, hp, hearlier, hi, hi'⟩ := h'.first q d hd hstands hn
        obtain ⟨rfl, rfl⟩ := h.disjoint p e q d i (hsame p e hearlier hp) hP hi hi'
        rcases hearlier with hlt | ⟨-, hlt⟩
        · exact Nat.lt_irrefl _ hlt
        · exact Nat.lt_irrefl _ hlt
      have hsame (p : Nat) (e : List α) (hearlier : Earlier ds e p d q) : P p e ↔ P' p e := by
        rcases hearlier with hlt | ⟨rfl, hlt⟩
        · exact ihk _ hlt p e rfl
        · exact ihq p hlt
      exact ⟨key h h' fun p e he => (hsame p e he).mpr, key h' h fun p e he => (hsame p e he).mp⟩

/-- What is chosen where some of the text is gone already. -/
structure ChosenOf (ds : List (List α)) (l : List α) (y : List (Option Nat × α)) (P : Nat → List α → Prop) : Prop where
  stands : ∀ q d, P q d → (d ∈ ds ∧ d <+: l.drop q) ∧ ∀ i, Within d q i → Left y i
  disjoint : ∀ p e q d i, P p e → P q d → Within e p i → Within d q i → p = q ∧ e = d
  first : ∀ q d, d ∈ ds → d <+: l.drop q → ¬ P q d →
    (∃ i, Within d q i ∧ ¬ Left y i) ∨ ∃ p e i, P p e ∧ Earlier ds e p d q ∧ Within e p i ∧ Within d q i

theorem Earlier.cons {d₀ e : List α} {p q : Nat} (h : Earlier ds e p d q) (hd : d ≠ d₀) : Earlier (d₀ :: ds) e p d q := by
  refine h.imp_left fun hlt => ?_
  rw [List.idxOf_cons_ne _ (Ne.symm hd)]
  by_cases he : e = d₀
  · rw [he, List.idxOf_cons_self]
    exact Nat.succ_pos _
  · rw [List.idxOf_cons_ne _ (Ne.symm he)]
    exact Nat.succ_lt_succ hlt

theorem Swept.each (h : Swept M 0 l y) (hds : ∀ d ∈ ds, Apart M d) :
    ∃ P, Swept M 0 l (replaceEachTagged ds M y) ∧ ChosenOf ds l y P ∧
      ∀ i, Left (replaceEachTagged ds M y) i ↔ Left y i ∧ ∀ q d, P q d → ¬ Within d q i := by
  induction ds generalizing y with
  | nil =>
    refine ⟨fun _ _ => False, h, ⟨fun q d hP => hP.elim, fun p e q d i hP => hP.elim, fun q d hd => ?_⟩, fun i => ?_⟩
    · cases hd
    · exact (and_iff_left fun q d hP => hP.elim).symm
  | cons d₀ ds ih =>
    obtain ⟨hd₀, hds⟩ := List.forall_mem_cons.mp hds
    obtain ⟨hstep, Q, hQ, hleft⟩ := h.step hd₀
    obtain ⟨P, hswept, hP, hlefts⟩ := ih hstep hds
    -- what is chosen later does not touch what was taken
    have hapart (q : Nat) (d : List α) (hPq : P q d) (p : Nat) (hp : Q p) (i : Nat) (hi : Within d q i) : ¬ Within d₀ p i :=
      ((hleft i).mp ((hP.stands q d hPq).2 i hi)).2 p hp
    have hstands (q : Nat) (hq : Q q) : d₀ <+: l.drop q := (hQ.stands q hq).1.2
    refine ⟨fun q d => d = d₀ ∧ Q q ∨ P q d, hswept, ⟨?_, ?_, ?_⟩, fun i => ?_⟩
    · rintro q d (⟨rfl, hq⟩ | hPq)
      · exact ⟨⟨List.mem_cons_self, hstands q hq⟩, (hQ.stands q hq).2⟩
      · obtain ⟨⟨hd, hs⟩, hall⟩ := hP.stands q d hPq
        exact ⟨⟨List.mem_cons_of_mem d₀ hd, hs⟩, fun i hi => ((hleft i).mp (hall i hi)).1⟩
    · rintro p e q d i (⟨rfl, hp⟩ | hPp) (⟨rfl, hq⟩ | hPq) hi hi'
      · refine ⟨?_, rfl⟩
        rcases Nat.lt_trichotomy p q with hlt | rfl | hlt
        · have hle := hQ.disjoint p q hp hq hlt
          have := hi.2
          have := hi'.1
          omega
        · rfl
        · have hle := hQ.disjoint q p hq hp hlt
          have := hi'.2
          have := hi.1
          omega
      · exact absurd hi (hapart q d hPq p hp i hi')
      · exact absurd hi' (hapart p e hPp q hq i hi)
      · exact hP.disjoint p e q d i hPp hPq hi hi'
    · intro q d hd hs hn
      rw [not_or] at hn
      by_cases he : d = d₀
      · subst he
        rcases hQ.first q ⟨Nat.zero_le q, hs⟩ fun hq => hn.1 ⟨rfl, hq⟩ with hgone | ⟨p, hp, hpq, hq⟩
        · exact .inl hgone
        · exact .inr ⟨p, d, q, .inl ⟨rfl, hp⟩, .inr ⟨rfl, hpq⟩, ⟨Nat.le_of_lt hpq, hq⟩, Nat.le_refl q, by omega⟩
      · rcases hP.first q d ((List.mem_cons.mp hd).resolve_left he) hs hn.2 with ⟨i, hi, hgone⟩ | ⟨p, e, i, hp, hearlier, hi⟩
        · by_cases hl : Left y i
          · rw [hleft, not_and] at hgone
            obtain ⟨p, hp⟩ := not_forall.mp (hgone hl)
            obtain ⟨hp, hi'⟩ := Classical.not_imp.mp hp
            refine .inr ⟨p, d₀, i, .inl ⟨rfl, hp⟩, .inl ?_, not_not.mp hi', hi⟩
            rw [List.idxOf_cons_self, List.idxOf_cons_ne _ (Ne.symm he)]
            exact Nat.succ_pos _
          · exact .inl ⟨i, hi, hl⟩
        · exact .inr ⟨p, e, i, .inr hp, hearlier.cons he, hi⟩
    · have hcons : replaceEachTagged (d₀ :: ds) M y = replaceEachTagged ds M (replaceTagged d₀ M y) := rfl
      rw [hcons, hlefts, hleft, and_assoc]
      refine and_congr_right fun _ => ?_
      constructor
      · rintro ⟨hq, hp⟩ q d (⟨rfl, hQq⟩ | hPq)
        · exact hq q hQq
        · exact hp q d hPq
      · exact fun hall => ⟨fun q hq => hall q d₀ (.inl ⟨rfl, hq⟩), fun q d hPq => hall q d (.inr hPq)⟩

/-- The position is inside of some word of the text. -/
def Covered (ds : List (List α)) (l : List α) (i : Nat) : Prop := ∃ d ∈ ds, ∃ q, d <+: l.drop q ∧ Within d q i

/-- The words replaced one after the other are the chosen ones. -/
theorem each_chosen (hds : ∀ d ∈ ds, Apart M d) (l : List α) :
    ∃ P, Chosen ds l P ∧ Swept M 0 l (replaceEachTagged ds M (tagFrom 0 l)) ∧
      ∀ i, Left (replaceEachTagged ds M (tagFrom 0 l)) i ↔ i < l.length ∧ ∀ q d, P q d → ¬ Within d q i := by
  obtain ⟨P, hswept, hP, hleft⟩ := (Swept.refl (M := M) (n := 0) (l := l)).each hds
  refine ⟨P, ⟨fun q d h => (hP.stands q d h).1, hP.disjoint, fun q d hd hs hn => ?_⟩, hswept, fun i => ?_⟩
  · exact (hP.first q d hd hs hn).resolve_left fun ⟨i, hi, hgone⟩ => hgone (left_of_within hi hs)
  · rw [hleft, left_tagFrom, Nat.zero_add, and_iff_right (Nat.zero_le i)]

/-- What is inside of a word is gone exactly where it is inside of a chosen one. -/
theorem gone_iff (hds : ∀ d ∈ ds, Apart M d) (hP : Chosen ds l P) (hi : Covered ds l i) :
    ¬ Left (replaceEachTagged ds M (tagFrom 0 l)) i ↔ ∃ q d, P q d ∧ Within d q i := by
  obtain ⟨P', hP', -, hleft⟩ := each_chosen hds l
  obtain ⟨d, -, q, hs, hw⟩ := hi
  rw [hleft, and_iff_right (hw.lt_length hs)]
  simp only [hP'.unique hP, not_forall, not_not, exists_prop]

theorem replaceText_of_not_isInfix (h : ¬ d <:+: l) : replaceText d M l = l := by
  rw [replaceText]
  induction l with
  | nil => rfl
  | cons c l ih =>
    rw [replaceFrom, if_neg fun hp => h hp.isInfix, ih fun hi => h (hi.trans (List.suffix_cons c l).isInfix)]

theorem not_isInfix_replaceText (hd : Apart M d) : ¬ d <:+: replaceText d M l := by
  obtain ⟨m, hm⟩ : ∃ m, l.length ≤ m := ⟨_, Nat.le_refl _⟩
  induction m generalizing l with
  | zero =>
    rw [List.eq_nil_of_length_eq_zero (Nat.le_zero.mp hm)]
    exact fun h => hd.ne_nil (List.infix_nil.mp h)
  | succ m ih =>
    cases l with
    | nil => exact fun h => hd.ne_nil (List.infix_nil.mp h)
    | cons c l =>
      have hreplaced : Replaced (· = d) M (c :: l) (replaceText d M (c :: l)) := replaced_replaceText hd.ne_nil
      rw [replaceText, replaceFrom] at hreplaced ⊢
      split
      · rename_i hp
        obtain ⟨v, hv⟩ := hp
        obtain ⟨e, u, rfl⟩ := List.exists_cons_of_ne_nil hd.ne_nil
        rw [List.cons_append] at hv
        obtain ⟨rfl, rfl⟩ := List.cons.inj hv
        rw [List.length_cons, Nat.add_sub_cancel, replaceFrom_skip]
        intro hy
        rcases hd.isInfix_around (x := []) hy with hy | hy
        · exact hd.ne_nil (List.infix_nil.mp hy)
        · refine ih ?_ hy
          rw [List.length_cons, List.length_append] at hm
          omega
      · rename_i hp
        rw [if_neg hp] at hreplaced
        intro hy
        rcases List.infix_cons_iff.mp hy with ⟨t, ht⟩ | hy
        · obtain ⟨x', hx', -⟩ := (ht ▸ hreplaced : Replaced (· = d) M (c :: l) (d ++ t)).front hd.before
          exact hp (hx' ▸ List.prefix_append d x')
        · exact ih (Nat.le_of_succ_le_succ hm) hy

end

end Claudear.Text
