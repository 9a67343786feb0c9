import Mathlib.Data.List.Infix

/-!
# `LIKE` patterns

`like p t` is `t LIKE p ESCAPE '\'`: `%` is any text, `_` one character, the
character after a backslash is itself, and letters of ASCII match in either
case. `like_escapeLike_iff` is what a pattern is for whose middle is escaped:
the text has the middle somewhere, up to the case of its letters.
-/

namespace Claudear.Text

inductive LikeToken where
  | many | one | literal (c : Char)
  /-- A backslash at the end. -/
  | never
  deriving DecidableEq, Repr

def likeTokens : List Char → List LikeToken
  | [] => []
  | '%' :: p => .many :: likeTokens p
  | '_' :: p => .one :: likeTokens p
  | '\\' :: c :: p => .literal c :: likeTokens p
  | ['\\'] => [.never]
  | c :: p => .literal c :: likeTokens p

def tokensMatch : List LikeToken → List Char → Bool
  | [], t => t.isEmpty
  | .many :: p, t => t.tails.any fun t => tokensMatch p t
  | .one :: p, _ :: t => tokensMatch p t
  | .literal c :: p, d :: t => c.toLower = d.toLower && tokensMatch p t
  | _ :: _, _ => false

def like (p t : List Char) : Bool := tokensMatch (likeTokens p) t

/-- The replacements of a backslash, then of `%`, then of `_`. -/
def escapeLike (m : List Char) : List Char :=
  ((m.flatMap fun c => if c = '\\' then ['\\', '\\'] else [c]).flatMap fun c =>
    if c = '%' then ['\\', '%'] else [c]).flatMap fun c => if c = '_' then ['\\', '_'] else [c]

def foldCase (m : List Char) : List Char := m.map Char.toLower

variable {m p t : List Char} {c d : Char}

/-- Each character is escaped by itself. -/
theorem escapeLike_cons :
    escapeLike (c :: m) = (if c = '\\' ∨ c = '%' ∨ c = '_' then ['\\', c] else [c]) ++ escapeLike m := by
  simp only [escapeLike, List.flatMap_cons, List.flatMap_append]
  congr 1
  by_cases h1 : c = '\\'
  · subst h1
    rfl
  · by_cases h2 : c = '%'
    · subst h2
      rfl
    · by_cases h3 : c = '_'
      · subst h3
        rfl
      · simp [h1, h2, h3]

theorem escapeLike_append {n : List Char} : escapeLike (m ++ n) = escapeLike m ++ escapeLike n := by
  simp only [escapeLike, List.flatMap_append]

theorem mem_escapeLike (h : c ∈ escapeLike m) : c = '\\' ∨ c ∈ m := by
  induction m with
  | nil => exact .inr h
  | cons d m ih =>
    rw [escapeLike_cons, List.mem_append] at h
    rcases h with h | h
    · split at h
      · simp only [List.mem_cons, List.not_mem_nil, or_false] at h
        rcases h with rfl | rfl
        · exact .inl rfl
        · exact .inr List.mem_cons_self
      · exact .inr (List.mem_singleton.mp h ▸ List.mem_cons_self)
    · exact (ih h).imp_right (List.mem_cons_of_mem d)

/-- Only a comma has the lower case of a comma. -/
theorem toLower_eq_comma : c.toLower = ',' ↔ c = ',' := by
  constructor
  · intro h
    unfold Char.toLower at h
    split at h
    · rename_i hc
      have hv := congrArg Char.val h
      simp only [UInt32.le_iff_toNat_le, UInt32.ext_iff, UInt32.toNat_add] at hc hv
      simp at hc hv
      omega
    · exact h
  · rintro rfl
    rfl

theorem comma_mem_foldCase : ',' ∈ foldCase m ↔ ',' ∈ m := by
  simp only [foldCase, List.mem_map, toLower_eq_comma, exists_eq_right]

theorem likeTokens_literal (h1 : c ≠ '\\') (h2 : c ≠ '%') (h3 : c ≠ '_') :
    likeTokens (c :: p) = .literal c :: likeTokens p := by
  rw [likeTokens]
  · exact h2
  · exact h3
  · exact fun _ _ h _ => h1 h
  · exact fun h _ => h1 h

/-- Every character of an escaped text stands for itself. -/
theorem likeTokens_escapeLike : likeTokens (escapeLike m ++ p) = m.map .literal ++ likeTokens p := by
  induction m with
  | nil => rfl
  | cons c m ih =>
    rw [escapeLike_cons, List.append_assoc, List.map_cons, List.cons_append, ← ih]
    split
    · rw [List.cons_append, List.cons_append, List.nil_append, likeTokens]
    · rename_i h
      rw [not_or, not_or] at h
      exact likeTokens_literal h.1 h.2.1 h.2.2

theorem tokensMatch_literals {ps : List LikeToken} :
    tokensMatch (m.map .literal ++ ps) t = true ↔
      ∃ u v, t = u ++ v ∧ foldCase u = foldCase m ∧ tokensMatch ps v = true := by
  induction m generalizing t with
  | nil =>
    constructor
    · exact fun h => ⟨[], t, rfl, rfl, h⟩
    · rintro ⟨u, v, rfl, hu, h⟩
      rw [List.map_eq_nil_iff.mp hu]
      exact h
  | cons c m ih =>
    cases t with
    | nil =>
      refine iff_of_false (by simp [tokensMatch]) ?_
      rintro ⟨u, v, ht, hu, -⟩
      rw [(List.append_eq_nil_iff.mp ht.symm).1] at hu
      cases hu
    | cons d t =>
      rw [List.map_cons, List.cons_append, tokensMatch, Bool.and_eq_true, ih, decide_eq_true_eq]
      constructor
      · rintro ⟨hc, u, v, rfl, hu, h⟩
        refine ⟨d :: u, v, rfl, ?_, h⟩
        rw [foldCase, List.map_cons, hc.symm]
        exact congrArg _ hu
      · rintro ⟨u, v, ht, hu, h⟩
        cases u with
        | nil => cases hu
        | cons e u =>
          obtain ⟨rfl, rfl⟩ := List.cons.inj ht
          obtain ⟨hc, hu⟩ := List.cons.inj hu
          exact ⟨hc.symm, u, v, rfl, hu, h⟩

theorem tokensMatch_many {ps : List LikeToken} :
    tokensMatch (.many :: ps) t = true ↔ ∃ u v, t = u ++ v ∧ tokensMatch ps v = true := by
  rw [tokensMatch, List.any_eq_true]
  constructor
  · rintro ⟨v, hv, h⟩
    obtain ⟨u, rfl⟩ := (List.mem_tails ..).mp hv
    exact ⟨u, v, rfl, h⟩
  · rintro ⟨u, v, rfl, h⟩
    exact ⟨v, (List.mem_tails ..).mpr (List.suffix_append u v), h⟩

/-- A part of the text, up to the case of the letters. -/
theorem infix_foldCase_iff :
    foldCase m <:+: foldCase t ↔ ∃ a u b, t = a ++ (u ++ b) ∧ foldCase u = foldCase m := by
  constructor
  · rintro ⟨a, b, h⟩
    obtain ⟨l, b', rfl, hl, -⟩ := List.map_eq_append_iff.mp h.symm
    obtain ⟨a', u, rfl, -, hu⟩ := List.map_eq_append_iff.mp hl
    exact ⟨a', u, b', List.append_assoc .., hu⟩
  · rintro ⟨a, u, b, rfl, hu⟩
    refine ⟨foldCase a, foldCase b, ?_⟩
    rw [← hu, foldCase, foldCase, foldCase, foldCase, List.map_append, List.map_append, List.append_assoc]

/-- The pattern of a text in between two `%`. -/
theorem like_escapeLike_iff :
    like ('%' :: (escapeLike m ++ ['%'])) t = true ↔ foldCase m <:+: foldCase t := by
  rw [like, likeTokens, likeTokens_escapeLike, tokensMatch_many, infix_foldCase_iff]
  refine exists_congr fun a => ?_
  constructor
  · rintro ⟨v, rfl, h⟩
    obtain ⟨u, b, rfl, hu, -⟩ := tokensMatch_literals.mp h
    exact ⟨u, b, rfl, hu⟩
  · rintro ⟨u, b, rfl, hu⟩
    refine ⟨u ++ b, rfl, tokensMatch_literals.mpr ⟨u, b, rfl, hu, ?_⟩⟩
    exact tokensMatch_many.mpr ⟨b, [], (List.append_nil b).symm, rfl⟩

end Claudear.Text
