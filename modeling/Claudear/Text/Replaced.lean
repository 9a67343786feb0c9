import Claudear.Text.Pattern

/-!
# Replacing parts of a text

`replaceText d new` puts `new` in place of each `d`, from left to right. What it
does is a `Replaced`: some parts that satisfy `P` are swapped for `new`. A text
that begins with no character of `new` and does not have its first one was there
before (`Replaced.split`).
-/

namespace Claudear.Text

variable {α : Type*}

section
variable [DecidableEq α] (d new : List α)

/-- After `skip` more characters, which belong to a part that was replaced. -/
def replaceFrom : Nat → List α → List α
  | _, [] => []
  | skip + 1, _ :: l => replaceFrom skip l
  | 0, c :: l => if d <+: c :: l then new ++ replaceFrom (d.length - 1) l else c :: replaceFrom 0 l

def replaceText (l : List α) : List α := replaceFrom d new 0 l

end

/-- The characters for which `p` holds. -/
def replaceChars (p : α → Bool) (new l : List α) : List α := l.flatMap fun c => if p c then new else [c]

inductive Replaced (P : List α → Prop) (new : List α) : List α → List α → Prop
  | nil : Replaced P new [] []
  | keep {c l l'} : Replaced P new l l' → Replaced P new (c :: l) (c :: l')
  | swap {d l l'} : P d → Replaced P new l l' → Replaced P new (d ++ l) (new ++ l')

variable {P : List α → Prop} {p : α → Bool} {n c : α} {d new ns l x y u v pre m : List α} {b : Option α}

section
variable [DecidableEq α]

theorem replaceFrom_skip : replaceFrom d new u.length (u ++ v) = replaceFrom d new 0 v := by
  induction u with
  | nil => rfl
  | cons c u ih => exact ih

theorem replaced_replaceText (hd : d ≠ []) : Replaced (· = d) new l (replaceText d new l) := by
  obtain ⟨n, hn⟩ : ∃ n, l.length ≤ n := ⟨_, Nat.le_refl _⟩
  rw [replaceText]
  induction n generalizing l with
  | zero =>
    rw [List.eq_nil_of_length_eq_zero (Nat.le_zero.mp hn)]
    exact .nil
  | succ n ih =>
    cases l with
    | nil => exact .nil
    | cons c l =>
      rw [replaceFrom]
      split
      · rename_i hp
        obtain ⟨v, hv⟩ := hp
        obtain ⟨e, t, rfl⟩ := List.exists_cons_of_ne_nil hd
        rw [List.cons_append] at hv
        obtain ⟨rfl, rfl⟩ := List.cons.inj hv
        rw [List.length_cons, Nat.add_sub_cancel, replaceFrom_skip]
        refine .swap (d := e :: t) rfl (ih ?_)
        simp only [List.length_cons, List.length_append] at hn
        omega
      · exact .keep (ih (Nat.le_of_succ_le_succ hn))

/-- Where a character of what is replaced is missing, nothing is. -/
theorem replaceText_eq_self (hc : c ∈ d) (hl : c ∉ l) : replaceText d new l = l := by
  rw [replaceText]
  induction l with
  | nil => rfl
  | cons e l ih =>
    rw [replaceFrom, if_neg, ih fun h => hl (List.mem_cons_of_mem e h)]
    exact fun hp => hl (hp.subset hc)

end

theorem replaced_replaceChars : Replaced (fun d => ∃ c, d = [c] ∧ p c = true) new l (replaceChars p new l) := by
  induction l with
  | nil => exact .nil
  | cons c l ih =>
    rw [replaceChars, List.flatMap_cons]
    split
    · rename_i hc
      exact .swap (d := [c]) ⟨c, rfl, hc⟩ ih
    · exact .keep ih

theorem replaceChars_eq_self (h : ∀ c ∈ l, p c = false) : replaceChars p new l = l := by
  induction l with
  | nil => rfl
  | cons c l ih =>
    obtain ⟨hc, hl⟩ := List.forall_mem_cons.mp h
    rw [replaceChars, List.flatMap_cons, hc]
    exact congrArg (List.cons c) (ih hl)

/-- What holds of each element of a list is found by looking at the list, not at all of the type. -/
theorem forall_of_all {α : Type*} {l : List α} {P : α → Prop} [DecidablePred P]
    (h : l.all (fun c => decide (P c)) = true) : ∀ c ∈ l, P c :=
  fun c hc => of_decide_eq_true (List.all_eq_true.mp h c hc)

/-- None of the characters is left, unless the new text has them. -/
theorem not_of_mem_replaceChars (hnew : ∀ c ∈ new, p c = false) (hc : c ∈ replaceChars p new l) : p c = false := by
  obtain ⟨e, -, he⟩ := List.mem_flatMap.mp hc
  split at he
  · exact hnew c he
  · rename_i hp
    rw [List.mem_singleton.mp he]
    exact Bool.eq_false_iff.mpr hp

namespace Replaced

/-! ## Parts that are not touched -/

theorem split_front (h : Replaced P (n :: ns) x (u ++ v)) (hn : n ∉ u) :
    ∃ v', x = u ++ v' ∧ Replaced P (n :: ns) v' v := by
  induction u generalizing x with
  | nil => exact ⟨x, rfl, h⟩
  | cons c u ih =>
    generalize hy : c :: u ++ v = y at h
    cases h with
    | nil => cases hy
    | keep h =>
      obtain ⟨rfl, rfl⟩ := List.cons.inj hy
      obtain ⟨v', rfl, hv⟩ := ih h fun hm => hn (List.mem_cons_of_mem c hm)
      exact ⟨v', rfl, hv⟩
    | swap =>
      obtain ⟨rfl, -⟩ := List.cons.inj hy
      exact absurd List.mem_cons_self hn

/-- A part that does not begin within a new text and reaches into none was there before. -/
theorem split (h : Replaced P (n :: ns) x (pre ++ (u ++ v))) (hu : u ≠ []) (hn : n ∉ u)
    (hfirst : ∀ c ∈ u.head?, c ∉ n :: ns) :
    ∃ pre' v', x = pre' ++ (u ++ v') ∧ Replaced P (n :: ns) pre' pre ∧ Replaced P (n :: ns) v' v := by
  generalize hy : pre ++ (u ++ v) = y at h
  induction h generalizing pre with
  | nil => exact absurd (List.append_eq_nil_iff.mp (List.append_eq_nil_iff.mp hy).2).1 hu
  | @keep c l l' h ih =>
    cases pre with
    | nil =>
      obtain ⟨v', hx, hv⟩ := split_front (x := c :: l) (hy ▸ h.keep) hn
      exact ⟨[], v', hx, .nil, hv⟩
    | cons e pre =>
      rw [List.cons_append] at hy
      obtain ⟨rfl, hrest⟩ := List.cons.inj hy
      obtain ⟨pre', v', rfl, hpre, hv⟩ := ih hrest
      exact ⟨e :: pre', v', rfl, hpre.keep, hv⟩
  | @swap d l l' hd h ih =>
    rcases List.append_eq_append_iff.mp hy.symm with ⟨k, rfl, hk⟩ | ⟨k, hk, hrest⟩
    · obtain ⟨pre', v', rfl, hpre, hv⟩ := ih hk.symm
      exact ⟨d ++ pre', v', (List.append_assoc ..).symm, .swap hd hpre, hv⟩
    · cases k with
      | nil =>
        obtain ⟨pre', v', hx, hpre, hv⟩ := @ih [] hrest
        have hswap := Replaced.swap hd hpre
        rw [List.append_nil] at hk hswap
        obtain rfl : pre = n :: ns := hk.symm
        exact ⟨d ++ pre', v', by rw [hx, List.append_assoc], hswap, hv⟩
      | cons e k =>
        refine absurd ?_ (hfirst e (by
          obtain ⟨f, t, rfl⟩ := List.exists_cons_of_ne_nil hu
          rw [List.cons_append, List.cons_append] at hrest
          rw [(List.cons.inj hrest).1]
          rfl))
        rw [hk]
        exact List.mem_append_right pre List.mem_cons_self

/-! ## What is next to them -/

/-- The same, or both of a kind. -/
def Alike (q : α → Prop) (a b : Option α) : Prop := a = b ∨ (∃ c ∈ a, q c) ∧ ∃ c ∈ b, q c

/-- What is swapped, and what for, is made of characters of a kind. -/
structure OfKind (P : List α → Prop) (new : List α) (q : α → Prop) : Prop where
  old_ne_nil : ∀ d, P d → d ≠ []
  new_ne_nil : new ≠ []
  old : ∀ d, P d → ∀ c ∈ d, q c
  new : ∀ c ∈ new, q c

variable {q : α → Prop}

theorem head?_alike (h : Replaced P new x y) (hq : OfKind P new q) : Alike q x.head? y.head? := by
  cases h with
  | nil => exact .inl rfl
  | keep => exact .inl rfl
  | @swap d _ _ hd _ =>
    obtain ⟨c, t, rfl⟩ := List.exists_cons_of_ne_nil (hq.old_ne_nil d hd)
    obtain ⟨e, s, rfl⟩ := List.exists_cons_of_ne_nil hq.new_ne_nil
    exact .inr ⟨⟨c, rfl, hq.old _ hd c List.mem_cons_self⟩, e, rfl, hq.new e List.mem_cons_self⟩

theorem lastOf_mem (hu : u ≠ []) : ∃ c ∈ u, lastOf b u = some c := by
  induction u generalizing b with
  | nil => exact absurd rfl hu
  | cons c u ih =>
    cases u with
    | nil => exact ⟨c, List.mem_cons_self, rfl⟩
    | cons d u =>
      obtain ⟨e, he, hlast⟩ := ih (b := some c) (List.cons_ne_nil _ _)
      exact ⟨e, List.mem_cons_of_mem c he, hlast⟩

theorem lastOf_alike (h : Replaced P new x y) (hq : OfKind P new q) {a : Option α} (ha : Alike q a b) :
    Alike q (lastOf a x) (lastOf b y) := by
  induction h generalizing a b with
  | nil => exact ha
  | keep _ ih => exact ih (.inl rfl)
  | @swap d _ _ hd _ ih =>
    obtain ⟨c, hc, hcd⟩ := lastOf_mem (b := a) (hq.old_ne_nil d hd)
    obtain ⟨e, he, hen⟩ := lastOf_mem (b := b) hq.new_ne_nil
    rw [lastOf_append, lastOf_append]
    exact ih (.inr ⟨⟨c, hcd, hq.old d hd c hc⟩, e, hen, hq.new e he⟩)

/-- What has no character of the kind at the end of the one text is at the end of the other. -/
theorem suffix (h : Replaced P new x y) (hq : OfKind P new q) (hm : ∀ c ∈ m, ¬ q c) (hx : m <:+ x) : m <:+ y := by
  have key : ∀ {x y}, Replaced P new x y → (∀ c ∈ x, ¬ q c) → y = x := by
    intro x y h
    induction h with
    | nil => exact fun _ => rfl
    | keep _ ih => exact fun hx => congrArg _ (ih fun c hc => hx c (List.mem_cons_of_mem _ hc))
    | @swap d _ _ hd _ _ =>
      intro hx
      obtain ⟨c, t, rfl⟩ := List.exists_cons_of_ne_nil (hq.old_ne_nil d hd)
      exact absurd (hq.old _ hd c List.mem_cons_self) (hx c List.mem_cons_self)
  induction h with
  | nil => exact hx
  | @keep c l l' h ih =>
    rcases List.suffix_cons_iff.mp hx with rfl | hx
    · exact key h.keep hm ▸ List.suffix_refl _
    · exact (ih hx).trans (List.suffix_cons c l')
  | @swap d l l' hd h ih =>
    obtain ⟨z, hz⟩ := hx
    rcases List.append_eq_append_iff.mp hz with ⟨k, rfl, rfl⟩ | ⟨k, rfl, hl⟩
    · cases k with
      | nil => exact (ih (List.suffix_refl _)).trans (List.suffix_append new l')
      | cons c k => exact absurd (hq.old _ hd c (by simp)) (hm c List.mem_cons_self)
    · exact (ih ⟨k, hl.symm⟩).trans (List.suffix_append new l')

end Replaced

end Claudear.Text
