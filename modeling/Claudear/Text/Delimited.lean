import Mathlib.Data.List.Infix
import Mathlib.Data.String.Basic

/-!
# Words in one text, each between two separators

`delimited sep ws` is `,a,b,c,`: the words of `ws` with a separator on either
side. Where no word has the separator, `separator, m, separator` stands in the
text exactly when the words of `m` stand next to each other in `ws`
(`infix_delimited_iff`).

`splitOn_comma` is what `String.splitOn` does with a comma, on the characters.
-/

namespace Claudear.Text

section
variable {α β : Type*} (sep : α)

def delimited (ws : List (List α)) : List α := sep :: ws.flatMap (· ++ [sep])

variable {sep} {ws vs : List (List α)} {m u v w : List α}

theorem intercalate_append_sep (h : ws ≠ []) :
    [sep].intercalate ws ++ [sep] = ws.flatMap (· ++ [sep]) := by
  induction ws with
  | nil => exact absurd rfl h
  | cons w ws ih =>
    cases ws with
    | nil => simp
    | cons w' ws =>
      rw [List.intercalate_cons_cons, List.append_assoc, ih (List.cons_ne_nil _ _)]
      rfl

theorem delimited_eq_intercalate (h : ws ≠ []) :
    delimited sep ws = sep :: ([sep].intercalate ws ++ [sep]) := by
  rw [intercalate_append_sep h, delimited]

theorem map_delimited (f : α → β) :
    (delimited sep ws).map f = delimited (f sep) (ws.map (List.map f)) := by
  simp only [delimited, List.map_cons, List.map_flatMap, List.flatMap_map, List.map_append, List.map_nil]

/-- The first separator ends the first word. -/
theorem append_sep_inj (hw : sep ∉ w) (hm : sep ∉ m) (h : w ++ sep :: u = m ++ sep :: v) :
    w = m ∧ u = v := by
  rcases List.append_eq_append_iff.mp h with ⟨c, rfl, hc⟩ | ⟨c, rfl, hc⟩
  · cases c with
    | nil => exact ⟨(List.append_nil w).symm, (List.cons.inj hc).2⟩
    | cons s c => exact absurd (List.mem_append_right w ((List.cons.inj hc).1 ▸ List.mem_cons_self)) hm
  · cases c with
    | nil => exact ⟨List.append_nil m, (List.cons.inj hc).2.symm⟩
    | cons s c => exact absurd (List.mem_append_right m ((List.cons.inj hc).1 ▸ List.mem_cons_self)) hw

theorem prefix_of_flatMap (hv : ∀ w ∈ vs, sep ∉ w) (hw : ∀ w ∈ ws, sep ∉ w)
    (h : vs.flatMap (· ++ [sep]) ++ u = ws.flatMap (· ++ [sep])) : vs <+: ws := by
  induction vs generalizing ws with
  | nil => exact List.nil_prefix
  | cons w vs ih =>
    cases ws with
    | nil => simp at h
    | cons w' ws =>
      rw [List.forall_mem_cons] at hv hw
      simp only [List.flatMap_cons, List.append_assoc, List.cons_append, List.nil_append] at h
      obtain ⟨rfl, h'⟩ := append_sep_inj hv.1 hw.1 h
      exact (List.prefix_cons_inj w).mpr (ih hv.2 hw.2 h')

theorem infix_of_delimited (hv : ∀ w ∈ vs, sep ∉ w) (hw : ∀ w ∈ ws, sep ∉ w)
    (h : v ++ (delimited sep vs ++ u) = delimited sep ws) : vs <:+: ws := by
  induction ws generalizing v with
  | nil =>
    cases v with
    | nil => exact (prefix_of_flatMap hv hw (List.cons.inj h).2).isInfix
    | cons s v => simp [delimited] at h
  | cons w ws ih =>
    cases v with
    | nil => exact (prefix_of_flatMap hv hw (List.cons.inj h).2).isInfix
    | cons s v =>
      -- the text goes on after the first separator: with the first word, or past it
      have h := (List.cons.inj h).2
      rw [List.flatMap_cons, List.append_assoc] at h
      have hws := (List.forall_mem_cons.mp hw).2
      refine List.IsInfix.trans ?_ (List.suffix_cons w ws).isInfix
      rcases List.append_eq_append_iff.mp h with ⟨c, rfl, hc⟩ | ⟨c, rfl, hc⟩
      · cases c with
        | nil => exact ih (v := []) hws hc
        | cons s c =>
          have hs : sep = s := (List.cons.inj hc).1
          exact absurd (List.mem_append_right v (hs ▸ List.mem_cons_self)) (hw _ List.mem_cons_self)
      · exact ih hws hc.symm

theorem prefix_of_append_cons (hw : sep ∉ w) (h : w <+: u ++ sep :: v) : w <+: u := by
  obtain ⟨r, hr⟩ := h
  rcases List.append_eq_append_iff.mp hr with ⟨c, rfl, -⟩ | ⟨c, rfl, hc⟩
  · exact List.prefix_append w c
  · cases c with
    | nil => rw [List.append_nil]
    | cons s c => exact absurd (List.mem_append_right u ((List.cons.inj hc).1 ▸ List.mem_cons_self)) hw

/-- A word without the separator stands on one side of it. -/
theorem infix_append_cons_iff (hw : sep ∉ w) : w <:+: u ++ sep :: v ↔ w <:+: u ∨ w <:+: v := by
  constructor
  · intro h
    induction u with
    | nil =>
      rcases List.infix_cons_iff.mp h with h | h
      · exact .inl (prefix_of_append_cons (u := []) hw h).isInfix
      · exact .inr h
    | cons a u ih =>
      rcases List.infix_cons_iff.mp h with h | h
      · exact .inl (prefix_of_append_cons (u := a :: u) hw h).isInfix
      · exact (ih h).imp_left fun h => h.trans (List.suffix_cons a u).isInfix
  · rintro (h | h)
    · exact h.trans (List.prefix_append u _).isInfix
    · exact h.trans ((List.suffix_cons sep v).trans (List.suffix_append u _)).isInfix

/-- Each word stands in the text. -/
theorem infix_intercalate {α : Type} {sep x : List α} {l : List (List α)} (h : x ∈ l) : x <:+: sep.intercalate l := by
  induction l with
  | nil => exact absurd h List.not_mem_nil
  | cons y l ih =>
    cases l with
    | nil => simp [List.mem_singleton.mp h, List.intercalate_singleton]
    | cons z l =>
      rw [List.intercalate_cons_cons]
      rcases List.mem_cons.mp h with rfl | h
      · rw [List.append_assoc]
        exact (List.prefix_append x _).isInfix
      · exact (ih h).trans (List.suffix_append _ _).isInfix

/-- A word without the separator stands in one of the words. -/
theorem infix_intercalate_iff (hw : sep ∉ w) (hne : ws ≠ []) : w <:+: [sep].intercalate ws ↔ ∃ x ∈ ws, w <:+: x := by
  induction ws with
  | nil => exact absurd rfl hne
  | cons y ws ih =>
    cases ws with
    | nil =>
      rw [List.intercalate_singleton]
      simp
    | cons z ws =>
      rw [List.intercalate_cons_cons, List.append_assoc, List.singleton_append, infix_append_cons_iff hw,
        ih (List.cons_ne_nil z ws)]
      simp

variable [DecidableEq α]

theorem not_mem_of_mem_splitOn (h : w ∈ m.splitOn sep) : sep ∉ w := by
  induction m generalizing w with
  | nil =>
    rw [List.splitOn_nil, List.mem_singleton] at h
    rw [h]
    exact List.not_mem_nil
  | cons c m ih =>
    rw [List.splitOn_cons_eq_if_modifyHead] at h
    split at h
    · rcases List.mem_cons.mp h with rfl | h
      · exact List.not_mem_nil
      · exact ih h
    · rename_i hc
      cases hs : m.splitOn sep with
      | nil => exact absurd hs (List.splitOn_ne_nil sep m)
      | cons x xs =>
        rw [hs, List.modifyHead_cons] at h
        rw [hs] at ih
        rcases List.mem_cons.mp h with rfl | h
        · rw [List.mem_cons, not_or]
          exact ⟨fun e => hc (beq_iff_eq.mpr e.symm), ih List.mem_cons_self⟩
        · exact ih (List.mem_cons_of_mem _ h)

theorem delimited_splitOn : delimited sep (m.splitOn sep) = sep :: (m ++ [sep]) := by
  rw [delimited_eq_intercalate (List.splitOn_ne_nil sep m), List.intercalate_splitOn]

theorem infix_delimited_iff (hw : ∀ w ∈ ws, sep ∉ w) :
    sep :: (m ++ [sep]) <:+: delimited sep ws ↔ m.splitOn sep <:+: ws := by
  rw [← delimited_splitOn]
  constructor
  · rintro ⟨v, u, h⟩
    exact infix_of_delimited (fun _ => not_mem_of_mem_splitOn) hw (by rwa [List.append_assoc] at h)
  · rintro ⟨as, bs, rfl⟩
    cases as using List.reverseRecOn with
    | nil => exact ⟨[], bs.flatMap (· ++ [sep]), by simp [delimited]⟩
    | append_singleton as a =>
      exact ⟨sep :: (as.flatMap (· ++ [sep]) ++ a), bs.flatMap (· ++ [sep]), by simp [delimited]⟩

/-- The words come back from the text, between what stands around them. -/
theorem splitOn_append_delimited (hw : ∀ w ∈ ws, sep ∉ w) :
    (u ++ (delimited sep ws ++ v)).splitOn sep = u.splitOn sep ++ (ws ++ v.splitOn sep) := by
  rw [delimited, List.cons_append, List.splitOn_append_cons_self]
  congr 1
  induction ws with
  | nil => rfl
  | cons w ws ih =>
    obtain ⟨hw, hws⟩ := List.forall_mem_cons.mp hw
    rw [List.flatMap_cons, List.append_assoc, List.append_assoc, List.singleton_append,
      List.splitOn_append_cons_self, List.splitOn_eq_singleton hw, ih hws]
    rfl

theorem splitOn_delimited (hw : ∀ w ∈ ws, sep ∉ w) : (delimited sep ws).splitOn sep = [] :: (ws ++ [[]]) := by
  have h := splitOn_append_delimited (u := []) (v := []) hw
  rwa [List.nil_append, List.append_nil, List.splitOn_nil] at h

end

/-! ## Strings -/

open String

theorem splitOnAux_comma (l m r : List Char) (acc : List String) :
    splitOnAux (ofList (l ++ m ++ r)) "," ⟨utf8Len l⟩ ⟨utf8Len l + utf8Len m⟩ 0 acc =
      acc.reverse ++ (List.splitOnPPrepend (· == ',') r m.reverse).map ofList := by
  have hget0 : Pos.Raw.get "," 0 = ',' := by decide
  have hnext0 : Pos.Raw.next "," 0 = ⟨1⟩ := by decide
  have hend0 : Pos.Raw.atEnd "," ⟨1⟩ = true := by decide
  have hx := extract_of_valid l m r
  induction r generalizing l m acc with
  | nil =>
    have hend := atEnd_of_valid (l ++ m) []
    rw [utf8Len_append] at hend
    rw [splitOnAux, if_pos (hend.mpr rfl), hx]
    simp
  | cons c r ih =>
    have hend := atEnd_of_valid (l ++ m) (c :: r)
    have hget := get_of_valid (l ++ m) (c :: r)
    have hnext := next_of_valid (l ++ m) c r
    rw [utf8Len_append] at hend hget hnext
    rw [splitOnAux, if_neg (fun h => by cases hend.mp h), hget, hnext, hget0, hnext0]
    simp only [hend0, if_true, List.headD_cons]
    by_cases hc : c = ','
    · subst hc
      have ih := ih (l ++ m ++ [',']) [] (ofList m :: acc) (extract_of_valid _ _ _)
      have hback : Pos.Raw.unoffsetBy ⟨utf8Len l + utf8Len m + (',').utf8Size⟩ ⟨1⟩ =
          ⟨utf8Len l + utf8Len m⟩ := rfl
      have htext : l ++ m ++ [','] ++ [] ++ r = l ++ m ++ ',' :: r := by simp
      have hpos : utf8Len (l ++ m ++ [',']) = utf8Len l + utf8Len m + (',').utf8Size := by
        simp [Nat.add_assoc]
      have hzero : utf8Len (l ++ m ++ [',']) + utf8Len [] = utf8Len l + utf8Len m + (',').utf8Size := by
        simp [Nat.add_assoc]
      rw [if_pos (beq_self_eq_true _), hback, hx]
      rw [htext, hzero, hpos] at ih
      rw [ih, List.splitOnPPrepend_cons_pos (p := fun x => x == ',') (beq_self_eq_true ',')]
      simp
    · have ih := ih l (m ++ [c]) acc (extract_of_valid _ _ _)
      have hb : (c == ',') = false := by simpa using hc
      have htext : l ++ (m ++ [c]) ++ r = l ++ m ++ c :: r := by simp
      have hpos : utf8Len l + utf8Len (m ++ [c]) = utf8Len l + utf8Len m + c.utf8Size := by
        simp [Nat.add_assoc]
      have hstay : Pos.Raw.unoffsetBy ⟨utf8Len l + utf8Len m⟩ 0 = ⟨utf8Len l + utf8Len m⟩ := rfl
      rw [htext, hpos] at ih
      rw [hb, if_neg Bool.false_ne_true, hstay, hnext, ih,
        List.splitOnPPrepend_cons_neg (p := fun x => x == ',') hb]
      simp

theorem splitOn_comma (s : String) : s.splitOn "," = (s.toList.splitOn ',').map ofList := by
  have h := splitOnAux_comma [] [] s.toList []
  simp at h
  rw [String.splitOn, if_neg (by decide)]
  exact h

end Claudear.Text
