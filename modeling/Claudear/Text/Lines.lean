import Claudear.Text.Lowercase

/-!
# Lines and trimming

`lines` is what a text of lines ended by newlines reads back as, and `trimMatches`
takes characters off both ends.
-/

namespace Claudear.Text

variable {l x y : List Char} {ls : List (List Char)} {p : Char → Bool} {c q : Char}

def stripReturn (l : List Char) : List Char := if l.getLast? = some '\r' then l.dropLast else l

/-- `str::lines`. What follows the last newline is a line unless it is empty. -/
def lines (text : List Char) : List (List Char) :=
  let pieces := text.splitOn '\n'
  pieces.dropLast.map stripReturn ++ (pieces.getLast?.filter (· ≠ [])).toList

/-- Every line ended by a newline. -/
def unlines (ls : List (List Char)) : List Char := ls.flatMap (· ++ ['\n'])

/-- Without a newline in it, and not ending in a carriage return. -/
def IsLine (l : List Char) : Prop := '\n' ∉ l ∧ l.getLast? ≠ some '\r'

theorem splitOn_unlines (h : ∀ l ∈ ls, '\n' ∉ l) : (unlines ls).splitOn '\n' = ls ++ [[]] := by
  induction ls with
  | nil => rfl
  | cons l ls ih =>
    obtain ⟨hl, hls⟩ := List.forall_mem_cons.mp h
    have hplain : ∀ c ∈ l, (c == '\n') = false := by
      intro c hc
      rw [beq_eq_false_iff_ne]
      rintro rfl
      exact hl hc
    rw [unlines, List.flatMap_cons, List.append_assoc, List.singleton_append, List.splitOn_eq_splitOnP,
      List.splitOnP_append_cons_of_forall_mem hplain _ rfl, ← List.splitOn_eq_splitOnP]
    exact congrArg (List.cons l) (ih hls)

theorem lines_unlines (h : ∀ l ∈ ls, IsLine l) : lines (unlines ls) = ls := by
  rw [lines, splitOn_unlines fun l hl => (h l hl).1, List.dropLast_concat, List.getLast?_concat]
  refine (List.append_nil _).trans ?_
  conv_rhs => rw [← List.map_id ls]
  refine List.map_congr_left fun l hl => ?_
  rw [stripReturn, if_neg (h l hl).2]
  rfl

/-! ## Trimming -/

/-- `str::trim_matches`. -/
def trimMatches (p : Char → Bool) (l : List Char) : List Char := (l.dropWhile p).rdropWhile p

/-- Neither the first nor the last character satisfies `p`. -/
def Edged (p : Char → Bool) (l : List Char) : Prop := (∀ c ∈ l.head?, p c = false) ∧ ∀ c ∈ l.getLast?, p c = false

theorem rdropWhile_eq_self (h : ∀ c ∈ l.getLast?, p c = false) : l.rdropWhile p = l := by
  rw [List.rdropWhile_eq_self_iff]
  intro hl
  simp [h _ (List.getLast?_eq_some_getLast hl)]

theorem dropWhile_eq_self (h : ∀ c ∈ l.head?, p c = false) : l.dropWhile p = l := by
  cases l with
  | nil => rfl
  | cons c l => rw [List.dropWhile_cons_of_neg (by simp [h c rfl])]

theorem trimMatches_eq_self (h : Edged p l) : trimMatches p l = l := by
  rw [trimMatches, dropWhile_eq_self h.1, rdropWhile_eq_self h.2]

theorem rdropWhile_append_cons (h : p c = false) : (x ++ c :: y).rdropWhile p = x ++ c :: y.rdropWhile p := by
  induction y using List.reverseRecOn with
  | nil => rw [List.rdropWhile_concat, if_neg (by simp [h])]; rfl
  | append_singleton y d ih =>
    rw [← List.cons_append, ← List.append_assoc, List.rdropWhile_concat, List.rdropWhile_concat]
    split
    · exact ih
    · simp

theorem rdropWhile_append_of_forall (h : ∀ c ∈ y, p c = true) : (x ++ y).rdropWhile p = x.rdropWhile p := by
  induction y using List.reverseRecOn with
  | nil => rw [List.append_nil]
  | append_singleton y d ih =>
    rw [← List.append_assoc, List.rdropWhile_concat, if_pos (h d (by simp))]
    exact ih fun c hc => h c (List.mem_append_left _ hc)

theorem dropWhile_append_of_forall (h : ∀ c ∈ x, p c = true) : (x ++ y).dropWhile p = y.dropWhile p := by
  rw [List.dropWhile_append, if_pos (by simpa using h)]

/-- All of it satisfies `p`, or it has a first character that does not. -/
theorem forall_or_first (p : Char → Bool) (l : List Char) :
    (∀ c ∈ l, p c = true) ∨ ∃ x c y, l = x ++ c :: y ∧ (∀ d ∈ x, p d = true) ∧ p c = false := by
  induction l with
  | nil => exact .inl fun _ => nofun
  | cons d l ih =>
    cases hd : p d with
    | false => exact .inr ⟨[], d, l, rfl, fun _ => nofun, hd⟩
    | true =>
      refine ih.imp (fun h => List.forall_mem_cons.mpr ⟨hd, h⟩) ?_
      rintro ⟨x, c, y, rfl, hx, hc⟩
      exact ⟨d :: x, c, y, rfl, List.forall_mem_cons.mpr ⟨hd, hx⟩, hc⟩

/-- Trimming the end first changes nothing. -/
theorem trimMatches_rdropWhile : trimMatches p (l.rdropWhile p) = trimMatches p l := by
  rcases forall_or_first p l with h | ⟨x, c, y, rfl, hx, hc⟩
  · rw [List.rdropWhile_eq_nil_iff.mpr h, trimMatches, trimMatches, List.dropWhile_eq_nil_iff.mpr h]
    rfl
  · have hdrop (z : List Char) : (x ++ c :: z).dropWhile p = c :: z := by
      rw [dropWhile_append_of_forall hx, List.dropWhile_cons_of_neg (by simp [hc])]
    have hend (z : List Char) : (c :: z).rdropWhile p = c :: z.rdropWhile p := rdropWhile_append_cons (x := []) hc
    rw [rdropWhile_append_cons hc, trimMatches, trimMatches, hdrop, hdrop, hend, hend, List.rdropWhile_idempotent]

theorem trimMatches_padded (hx : ∀ c ∈ x, p c = true) (hl : Edged p l) (hy : ∀ c ∈ y, p c = true) :
    trimMatches p (x ++ l ++ y) = l := by
  rw [← trimMatches_rdropWhile, rdropWhile_append_of_forall hy, trimMatches_rdropWhile, trimMatches,
    dropWhile_append_of_forall hx]
  exact trimMatches_eq_self hl

theorem rdropWhile_concat_pos (hq : p q = true) : (l ++ [q]).rdropWhile p = l.rdropWhile p := by
  rw [List.rdropWhile_concat, if_pos hq]

theorem trimMatches_enclosed (hq : p q = true) (hx : Edged p x) : trimMatches p (q :: (x ++ [q])) = x := by
  rw [trimMatches, List.dropWhile_cons_of_pos hq]
  cases x with
  | nil => simp [hq]
  | cons c x =>
    have hhead : (c :: x ++ [q]).dropWhile p = c :: x ++ [q] :=
      dropWhile_eq_self (by simpa using hx.1)
    rw [hhead, rdropWhile_concat_pos hq, rdropWhile_eq_self hx.2]

theorem edged_of_forall (h : ∀ c ∈ l, p c = false) : Edged p l :=
  ⟨fun c hc => h c (List.mem_of_mem_head? hc), fun c hc => h c (List.mem_of_mem_getLast? hc)⟩

end Claudear.Text
