import Mathlib.Data.List.DropRight

/-!
# Sentences

A text is cut behind every newline and behind every stop that white space or the
end follows; the parts, without the white space around them, are its sentences.
Sentences that are joined by one character of white space are cut again at some
of the joints only: what comes out are `joined` groups of them
(`sentences_joined`).
-/

namespace Claudear.Text

/-- What is white space, and what ends a sentence: a newline anywhere, a stop before white space. -/
structure Breaks (α : Type*) where
  blank : α → Bool
  newline : α → Bool
  stop : α → Bool
  blank_of_newline : ∀ c, newline c = true → blank c = true

namespace Breaks

variable {α : Type*} (B : Breaks α)

def ends (c : α) (rest : List α) : Bool := B.newline c || B.stop c && rest.head?.all B.blank

/-- The parts, of which all but the last end a sentence. -/
def segments : List α → List (List α)
  | [] => [[]]
  | c :: rest =>
    if B.ends c rest then [c] :: segments rest else (segments rest).modifyHead fun s => c :: s

def strip (l : List α) : List α := (l.dropWhile B.blank).rdropWhile B.blank

def sentences (l : List α) : List (List α) := ((B.segments l).map B.strip).filter fun s => !s.isEmpty

/-- What a sentence is by itself. -/
structure Sentence (s : List α) : Prop where
  nonempty : s ≠ []
  first : ∀ c ∈ s.head?, B.blank c = false
  last : ∀ c ∈ s.getLast?, B.blank c = false
  unbroken : ∀ x c y, s = x ++ c :: y → y ≠ [] → B.ends c y = false

variable {B} {l s x y : List α} {pre post : List (List α)} {c : α}

/-! ## Parts -/

theorem ends_append (hy : y ≠ []) : B.ends c (y ++ x) = B.ends c y := by
  obtain ⟨d, t, rfl⟩ := List.exists_cons_of_ne_nil hy
  rfl

theorem blank_of_ends (h : B.ends c y = true) : B.blank c = true ∨ ∀ d ∈ y.head?, B.blank d = true := by
  rw [ends, Bool.or_eq_true, Bool.and_eq_true] at h
  rcases h with h | ⟨-, h⟩
  · exact .inl (B.blank_of_newline c h)
  · exact .inr fun d hd => by simpa [Option.mem_def.mp hd] using h

variable (B) in
theorem exists_segments (l : List α) : ∃ s ss, B.segments l = s :: ss := by
  induction l with
  | nil => exact ⟨[], [], rfl⟩
  | cons c rest ih =>
    obtain ⟨s, ss, hs⟩ := ih
    rw [segments, hs]
    split
    · exact ⟨[c], s :: ss, rfl⟩
    · exact ⟨c :: s, ss, rfl⟩

@[simp] theorem flatten_segments : (B.segments l).flatten = l := by
  induction l with
  | nil => rfl
  | cons c rest ih =>
    rw [segments]
    split
    · rw [List.flatten_cons, ih]
      rfl
    · obtain ⟨s, ss, hs⟩ := B.exists_segments rest
      rw [hs] at ih ⊢
      rw [List.modifyHead_cons, List.flatten_cons, List.cons_append, ← List.flatten_cons, ih]

/-- Every part but the last ends a sentence. -/
theorem segments_end (h : B.segments l = pre ++ s :: post) (hpost : post ≠ []) :
    ∃ x c, s = x ++ [c] ∧ B.ends c post.flatten = true := by
  induction l generalizing pre s with
  | nil =>
    rw [segments] at h
    cases pre with
    | nil => exact absurd (List.cons.inj h).2.symm hpost
    | cons p pre => exact absurd (List.cons.inj h).2.symm (List.append_ne_nil_of_right_ne_nil _ (List.cons_ne_nil _ _))
  | cons c rest ih =>
    rw [segments] at h
    split at h
    · cases pre with
      | nil =>
        obtain ⟨rfl, rfl⟩ := List.cons.inj h
        exact ⟨[], c, rfl, by rwa [flatten_segments]⟩
      | cons p pre => exact ih (List.cons.inj h).2
    · obtain ⟨t, ts, ht⟩ := B.exists_segments rest
      rw [ht] at h
      cases pre with
      | nil =>
        obtain ⟨rfl, rfl⟩ := List.cons.inj h
        obtain ⟨x, d, rfl, hd⟩ := ih (show B.segments rest = [] ++ t :: ts from ht)
        exact ⟨c :: x, d, rfl, hd⟩
      | cons p pre =>
        have hrest : B.segments rest = (t :: pre) ++ s :: post := by
          rw [ht, (List.cons.inj h).2]
          rfl
        exact ih hrest

/-- No part goes on behind the end of a sentence. -/
theorem segments_unbroken (hs : s ∈ B.segments l) : ∀ x c y, s = x ++ c :: y → y ≠ [] → B.ends c y = false := by
  induction l generalizing s with
  | nil =>
    rintro x c y rfl
    exact absurd (List.mem_singleton.mp hs) (List.append_ne_nil_of_right_ne_nil x (List.cons_ne_nil c y))
  | cons d rest ih =>
    rw [segments] at hs
    split at hs
    · rcases List.mem_cons.mp hs with rfl | hs
      · intro x c y he hy
        cases x with
        | nil => exact absurd (List.cons.inj he).2.symm hy
        | cons e x => exact absurd (List.cons.inj he).2.symm (List.append_ne_nil_of_right_ne_nil x (List.cons_ne_nil c y))
      · exact ih hs
    · rename_i hd
      obtain ⟨t, ts, ht⟩ := B.exists_segments rest
      rw [ht, List.modifyHead_cons, List.mem_cons] at hs
      rcases hs with rfl | hs
      · intro x c y he hy
        cases x with
        | nil =>
          obtain ⟨rfl, rfl⟩ := List.cons.inj he
          have hrest : t ++ ts.flatten = rest := by
            rw [← List.flatten_cons, ← ht, flatten_segments]
          rw [← hrest, ends_append hy] at hd
          exact Bool.eq_false_iff.mpr hd
        | cons e x => exact ih (ht ▸ List.mem_cons_self) x c y (List.cons.inj he).2 hy
      · exact ih (ht ▸ List.mem_cons_of_mem t hs)

/-- A part goes on behind a sentence that does not end. -/
theorem segments_append (hs : s ≠ []) (hunbroken : ∀ x c y, s = x ++ c :: y → y ≠ [] → B.ends c y = false)
    (y : List α) : B.segments (s ++ y) =
      if B.ends (s.getLast hs) y then s :: B.segments y else (B.segments y).modifyHead fun t => s ++ t := by
  induction s with
  | nil => exact absurd rfl hs
  | cons c s ih =>
    cases s with
    | nil => rfl
    | cons d s =>
      have hc : B.ends c (d :: s) = false := hunbroken [] c (d :: s) rfl (List.cons_ne_nil _ _)
      have hc' : B.ends c (d :: s ++ y) = false := hc
      have ih := ih (List.cons_ne_nil _ _) fun x e z he => hunbroken (c :: x) e z (by rw [he]; rfl)
      rw [List.cons_append, segments, hc', if_neg Bool.false_ne_true, ih, List.getLast_cons (List.cons_ne_nil _ _)]
      split
      · rfl
      · obtain ⟨t, ts, ht⟩ := B.exists_segments y
        rw [ht]
        rfl

/-! ## White space around -/

variable (B) in
theorem exists_strip (l : List α) :
    ∃ x y, l = x ++ (B.strip l ++ y) ∧ (∀ c ∈ x, B.blank c = true) ∧ ∀ c ∈ y, B.blank c = true := by
  refine ⟨l.takeWhile B.blank, (l.dropWhile B.blank).rtakeWhile B.blank, ?_, ?_, ?_⟩
  · rw [strip, List.rdropWhile_append_rtakeWhile, List.takeWhile_append_dropWhile]
  · exact fun c hc => List.mem_takeWhile_imp hc
  · exact fun c hc => List.mem_rtakeWhile_imp hc

theorem strip_first : ∀ c ∈ (B.strip l).head?, B.blank c = false := by
  intro c hc
  obtain ⟨t, ht⟩ := List.rdropWhile_prefix B.blank (l := l.dropWhile B.blank)
  have hd : c ∈ (l.dropWhile B.blank).head? := by
    rw [← ht, List.head?_append, ← strip, Option.mem_def.mp hc]
    rfl
  have hn := List.head?_dropWhile_not B.blank l
  rw [Option.mem_def.mp hd] at hn
  exact hn

theorem strip_last : ∀ c ∈ (B.strip l).getLast?, B.blank c = false := by
  intro c hc
  obtain ⟨hne, rfl⟩ := List.mem_getLast?_eq_getLast hc
  exact Bool.eq_false_iff.mpr (List.rdropWhile_last_not _ _ hne)

theorem strip_cons (hc : B.blank c = true) : B.strip (c :: l) = B.strip l := by
  rw [strip, List.dropWhile_cons_of_pos hc, strip]

theorem strip_eq_self (hfirst : ∀ c ∈ l.head?, B.blank c = false) (hlast : ∀ c ∈ l.getLast?, B.blank c = false) :
    B.strip l = l := by
  have hd : l.dropWhile B.blank = l := by
    cases l with
    | nil => rfl
    | cons c t => exact List.dropWhile_cons_of_neg (by simp [hfirst c rfl])
  rw [strip, hd, List.rdropWhile_eq_self_iff]
  intro hl
  simp [hlast _ (List.getLast?_eq_some_getLast hl)]

theorem mem_sentences : s ∈ B.sentences l ↔ s ≠ [] ∧ ∃ t ∈ B.segments l, B.strip t = s := by
  rw [sentences, List.mem_filter, List.mem_map, and_comm]
  simp

/-! ## Sentences of a text -/

theorem sentence_of_mem (hs : s ∈ B.sentences l) : B.Sentence s := by
  obtain ⟨hne, t, ht, rfl⟩ := mem_sentences.mp hs
  refine ⟨hne, strip_first, strip_last, fun x c y he hy => ?_⟩
  obtain ⟨v, w, hvw, -, -⟩ := B.exists_strip t
  have hunbroken := segments_unbroken ht (v ++ x) c (y ++ w) (by rw [hvw, he]; simp)
    (List.append_ne_nil_of_left_ne_nil hy w)
  rwa [ends_append hy] at hunbroken

/-- A part that does not begin with white space comes behind white space: a stop before it would
not have ended a sentence. -/
theorem blank_before_part {pre post : List (List α)} {t : List α} {e c : α}
    (hsplit : B.segments l = pre ++ t :: post) (he : t.head? = some e) (hblank : B.blank e = false)
    (hc : c ∈ pre.flatten.getLast?) : B.blank c = true := by
  rcases List.eq_nil_or_concat pre with rfl | ⟨pre, p, rfl⟩
  · cases hc
  · rw [List.concat_eq_append, List.append_assoc] at hsplit
    obtain ⟨x, d, rfl, hd⟩ := segments_end hsplit (List.cons_ne_nil _ _)
    obtain rfl : d = c := by simpa using hc
    refine (blank_of_ends hd).resolve_right fun hhead => ?_
    have hfirst : e ∈ (t ++ post.flatten).head? := by
      rw [List.head?_append, he]
      rfl
    rw [hhead e hfirst] at hblank
    cases hblank

/-- Behind a part that does not end with white space comes white space. -/
theorem blank_behind_part {pre post : List (List α)} {t : List α} {c : α}
    (hsplit : B.segments l = pre ++ t :: post) (hlast : ∀ d ∈ t.getLast?, B.blank d = false)
    (hc : c ∈ post.flatten.head?) : B.blank c = true := by
  cases post with
  | nil => cases hc
  | cons q post =>
    obtain ⟨x, d, rfl, hd⟩ := segments_end hsplit (List.cons_ne_nil _ _)
    refine (blank_of_ends hd).resolve_left (fun hblank => ?_) c hc
    rw [hlast d List.getLast?_concat] at hblank
    cases hblank

/-- Where a sentence stands, there is white space before and behind it, or nothing. -/
theorem exists_place_of_mem (hs : s ∈ B.sentences l) :
    ∃ x y, l = x ++ (s ++ y) ∧ (∀ c ∈ x.getLast?, B.blank c = true) ∧ ∀ c ∈ y.head?, B.blank c = true := by
  have hsentence := sentence_of_mem hs
  obtain ⟨hne, t, ht, rfl⟩ := mem_sentences.mp hs
  obtain ⟨v, w, hvw, hv, hw⟩ := B.exists_strip t
  obtain ⟨pre, post, hsplit⟩ := List.append_of_mem ht
  have hl : l = pre.flatten ++ (t ++ post.flatten) := by
    have hflat := flatten_segments (B := B) (l := l)
    rw [hsplit, List.flatten_append, List.flatten_cons] at hflat
    exact hflat.symm
  refine ⟨pre.flatten ++ v, w ++ post.flatten, ?_, ?_, ?_⟩
  · rw [hl]
    nth_rewrite 1 [hvw]
    simp only [List.append_assoc]
  · intro c hc
    rcases List.eq_nil_or_concat v with rfl | ⟨v, d, rfl⟩
    · obtain ⟨e, z, he⟩ := List.exists_cons_of_ne_nil hne
      have hhead : t.head? = some e := by
        rw [hvw, he]
        rfl
      rw [List.append_nil] at hc
      exact blank_before_part hsplit hhead (hsentence.first e (by rw [he]; rfl)) hc
    · obtain rfl : d = c := by simpa using hc
      exact hv d (by simp)
  · intro c hc
    cases w with
    | nil =>
      refine blank_behind_part hsplit (fun d hd => hsentence.last d ?_) hc
      rwa [hvw, List.append_nil, List.getLast?_append_of_ne_nil _ hne] at hd
    | cons d w =>
      obtain rfl : d = c := by simpa using hc
      exact hw d List.mem_cons_self

/-! ## Joining -/

end Breaks

variable {α : Type*}

/-- The texts with `sep` between them. -/
def joined (sep : α) (ss : List (List α)) : List α := [sep].intercalate ss

section
variable {sep : α} {l s u v pre : List α} {ss : List (List α)}

@[simp] theorem joined_singleton : joined sep [s] = s := List.intercalate_singleton

theorem joined_cons (h : ss ≠ []) : joined sep (s :: ss) = s ++ sep :: joined sep ss := by
  rw [joined, List.intercalate_cons_of_ne_nil h, List.append_assoc]
  rfl

theorem joined_ne_nil (sep : α) (hss : ss ≠ []) (h : ∀ s ∈ ss, s ≠ []) : joined sep ss ≠ [] := by
  obtain ⟨s, ss, rfl⟩ := List.exists_cons_of_ne_nil hss
  have hs := h s List.mem_cons_self
  cases ss with
  | nil => rwa [joined_singleton]
  | cons t ss =>
    rw [joined_cons (List.cons_ne_nil _ _)]
    exact List.append_ne_nil_of_left_ne_nil hs _

theorem head?_joined (hs : s ≠ []) : (joined sep (s :: ss)).head? = s.head? := by
  cases ss with
  | nil => rw [joined_singleton]
  | cons t ss => rw [joined_cons (List.cons_ne_nil _ _), List.head?_append_of_ne_nil _ hs]

theorem getLast?_joined (sep : α) (hss : ss ≠ []) (h : ∀ s ∈ ss, s ≠ []) :
    ∃ s ∈ ss, (joined sep ss).getLast? = s.getLast? := by
  induction ss with
  | nil => exact absurd rfl hss
  | cons s ss ih =>
    obtain ⟨hs, h⟩ := List.forall_mem_cons.mp h
    cases ss with
    | nil => exact ⟨s, List.mem_cons_self, by rw [joined_singleton]⟩
    | cons t ss =>
      obtain ⟨t', ht', hlast⟩ := ih (List.cons_ne_nil _ _) h
      refine ⟨t', List.mem_cons_of_mem s ht', ?_⟩
      have hne : joined sep (t :: ss) ≠ [] := joined_ne_nil sep (List.cons_ne_nil _ _) h
      rw [joined_cons (List.cons_ne_nil _ _), List.getLast?_append_of_ne_nil _ (List.cons_ne_nil _ _),
        List.getLast?_cons_of_ne_nil hne, hlast]

theorem joined_append {ts : List (List α)} (hss : ss ≠ []) (hts : ts ≠ []) :
    joined sep (ss ++ ts) = joined sep ss ++ sep :: joined sep ts := by
  induction ss with
  | nil => exact absurd rfl hss
  | cons s ss ih =>
    cases ss with
    | nil => rw [List.singleton_append, joined_cons hts, joined_singleton]
    | cons t ss =>
      rw [List.cons_append, joined_cons (List.append_ne_nil_of_right_ne_nil _ hts), ih (List.cons_ne_nil _ _),
        joined_cons (List.cons_ne_nil _ _), List.append_assoc, List.cons_append]

/-- Between joined texts there is `sep`, or nothing. -/
structure Joints (sep : α) (a b : List α) : Prop where
  before : ∀ c ∈ a.getLast?, c = sep
  after : ∀ c ∈ b.head?, c = sep

theorem Joints.cons {a b : List α} (h : Joints sep a b) (s : List α) : Joints sep (s ++ sep :: a) b := by
  refine ⟨fun c hc => ?_, h.after⟩
  rcases List.eq_nil_or_concat a with rfl | ⟨a, d, rfl⟩
  · rw [List.getLast?_concat] at hc
    exact (Option.some.inj hc).symm
  · refine h.before c ?_
    rw [List.concat_eq_append, List.getLast?_concat]
    rw [List.concat_eq_append, ← List.cons_append, ← List.append_assoc, List.getLast?_concat] at hc
    exact hc

theorem joints_nil (sep : α) (b : List α) : Joints sep [] (sep :: b) := ⟨nofun, fun _ hc => (Option.some.inj hc).symm⟩

theorem exists_of_mem_joined (sep : α) (hs : s ∈ ss) : ∃ a b, joined sep ss = a ++ (s ++ b) ∧ Joints sep a b := by
  induction ss with
  | nil => cases hs
  | cons t ss ih =>
    cases ss with
    | nil =>
      obtain rfl := List.mem_singleton.mp hs
      exact ⟨[], [], by simp, nofun, nofun⟩
    | cons r ss =>
      rw [joined_cons (List.cons_ne_nil _ _)]
      rcases List.mem_cons.mp hs with rfl | hs
      · exact ⟨[], _, rfl, joints_nil sep _⟩
      · obtain ⟨a, b, hab, hj⟩ := ih hs
        exact ⟨t ++ sep :: a, b, by rw [hab]; simp, hj.cons t⟩

/-- A part of the joined texts lies in one of them, or it reaches over a place where two are joined. -/
theorem joined_cases (hu : u ≠ []) (h : joined sep ss = pre ++ (u ++ v)) :
    (∃ s ∈ ss, ∃ x y a b, s = x ++ (u ++ y) ∧ pre = a ++ x ∧ v = y ++ b ∧ Joints sep a b) ∨
      ∃ as bs x y, ss = as ++ bs ∧ as ≠ [] ∧ bs ≠ [] ∧ joined sep as = pre ++ x ∧ u = x ++ sep :: y ∧
        joined sep bs = y ++ v := by
  induction ss generalizing pre with
  | nil => exact absurd (List.append_eq_nil_iff.mp (List.append_eq_nil_iff.mp h.symm).2).1 hu
  | cons s ss ih =>
    cases ss with
    | nil =>
      rw [joined_singleton] at h
      exact .inl ⟨s, List.mem_cons_self, pre, v, [], [], h, rfl, (List.append_nil v).symm, nofun, nofun⟩
    | cons t ss =>
      have hne : t :: ss ≠ [] := List.cons_ne_nil _ _
      rw [joined_cons hne] at h
      rcases List.append_eq_append_iff.mp h with ⟨k, rfl, hk⟩ | ⟨k, rfl, hk⟩
      · cases k with
        | nil =>
          obtain ⟨c, u, rfl⟩ := List.exists_cons_of_ne_nil hu
          obtain ⟨rfl, hrest⟩ := List.cons.inj hk
          exact .inr ⟨[s], t :: ss, [], u, rfl, List.cons_ne_nil _ _, hne, by simp, rfl, hrest⟩
        | cons c k =>
          obtain ⟨rfl, hrest⟩ := List.cons.inj hk
          rcases ih hrest with ⟨s', hs', x, y, a, b, hx, rfl, hv, hj⟩ | ⟨as, bs, x, y, hsplit, has, hbs, hx, hu', hy⟩
          · exact .inl ⟨s', List.mem_cons_of_mem s hs', x, y, s ++ sep :: a, b, hx, by simp, hv, hj.cons s⟩
          · refine .inr ⟨s :: as, bs, x, y, by rw [hsplit]; rfl, List.cons_ne_nil _ _, hbs, ?_, hu', hy⟩
            rw [joined_cons has, hx]
            simp
      · rcases List.append_eq_append_iff.mp hk with ⟨y, rfl, rfl⟩ | ⟨y, rfl, hy⟩
        · exact .inl ⟨pre ++ (u ++ y), List.mem_cons_self, pre, y, [], _, rfl, rfl, rfl, joints_nil sep _⟩
        · cases y with
          | nil =>
            rw [List.nil_append] at hy
            rw [← hy, List.append_nil]
            exact .inl ⟨pre ++ k, List.mem_cons_self, pre, [], [], _, by simp, rfl, rfl, joints_nil sep _⟩
          | cons c y =>
            obtain ⟨rfl, hrest⟩ := List.cons.inj hy
            exact .inr ⟨[pre ++ k], t :: ss, k, y, rfl, List.cons_ne_nil _ _, hne, joined_singleton, rfl, hrest⟩

theorem mem_joined {c : α} (h : c ∈ joined sep ss) : c = sep ∨ ∃ s ∈ ss, c ∈ s := by
  induction ss with
  | nil => cases h
  | cons s ss ih =>
    cases ss with
    | nil => exact .inr ⟨s, List.mem_cons_self, by rwa [joined_singleton] at h⟩
    | cons t ss =>
      rw [joined_cons (List.cons_ne_nil _ _), List.mem_append, List.mem_cons] at h
      rcases h with h | rfl | h
      · exact .inr ⟨s, List.mem_cons_self, h⟩
      · exact .inl rfl
      · rcases ih h with rfl | ⟨r, hr, hc⟩
        · exact .inl rfl
        · exact .inr ⟨r, List.mem_cons_of_mem s hr, hc⟩

/-- Joining groups first makes no difference. -/
theorem joined_flatten {gs : List (List (List α))} (h : ∀ g ∈ gs, g ≠ []) :
    joined sep (gs.map (joined sep)) = joined sep gs.flatten := by
  induction gs with
  | nil => rfl
  | cons g gs ih =>
    obtain ⟨hg, h⟩ := List.forall_mem_cons.mp h
    cases gs with
    | nil => simp
    | cons g' gs =>
      have hrest : (g' :: gs).flatten ≠ [] := by
        rw [List.flatten_cons]
        exact List.append_ne_nil_of_left_ne_nil (h g' List.mem_cons_self) _
      have hmap : (g' :: gs).map (joined sep) ≠ [] := List.cons_ne_nil _ _
      rw [List.map_cons, joined_cons hmap, ih h]
      show _ = joined sep (g ++ (g' :: gs).flatten)
      rw [joined_append hg hrest]

end

namespace Breaks

variable {B : Breaks α} {sep : α} {ss : List (List α)} {g : List (List α)}

/-- The character between the sentences is white space that ends nothing. -/
structure Joint (B : Breaks α) (sep : α) : Prop where
  blank : B.blank sep = true
  newline : B.newline sep = false
  stop : B.stop sep = false

theorem joined_first (hg : g ≠ []) (h : ∀ s ∈ g, B.Sentence s) : ∀ c ∈ (joined sep g).head?, B.blank c = false := by
  obtain ⟨s, g, rfl⟩ := List.exists_cons_of_ne_nil hg
  have hs := h s List.mem_cons_self
  rw [head?_joined hs.nonempty]
  exact hs.first

theorem joined_last (hg : g ≠ []) (h : ∀ s ∈ g, B.Sentence s) :
    ∀ c ∈ (joined sep g).getLast?, B.blank c = false := by
  obtain ⟨s, hs, hlast⟩ := getLast?_joined sep hg fun s hs => (h s hs).nonempty
  rw [hlast]
  exact (h s hs).last

/-- Joined sentences are cut at some of the joints, and nowhere else. -/
theorem segments_joined (hsep : B.Joint sep) (hss : ss ≠ []) (h : ∀ s ∈ ss, B.Sentence s) :
    ∃ (g : List (List α)) (gs : List (List (List α))) (rest : List (List α)),
      g ++ gs.flatten = ss ∧ g ≠ [] ∧ (∀ g' ∈ gs, g' ≠ []) ∧
      B.segments (joined sep ss) = joined sep g :: rest ∧
      (rest.map B.strip).filter (fun s => !s.isEmpty) = gs.map (joined sep) := by
  induction ss with
  | nil => exact absurd rfl hss
  | cons s ss ih =>
    obtain ⟨hs, h⟩ := List.forall_mem_cons.mp h
    have happend := segments_append hs.nonempty hs.unbroken
    cases ss with
    | nil =>
      have hcut := happend []
      rw [List.append_nil] at hcut
      rw [joined_singleton, hcut]
      split
      · exact ⟨[s], [], [[]], rfl, List.cons_ne_nil _ _, nofun, by rw [joined_singleton]; rfl, rfl⟩
      · refine ⟨[s], [], [], rfl, List.cons_ne_nil _ _, nofun, ?_, rfl⟩
        rw [joined_singleton, segments, List.modifyHead_cons, List.append_nil]
    | cons t ss =>
      obtain ⟨g, gs, rest, hflat, hg, hgs, hcut, hrest⟩ := ih (List.cons_ne_nil _ _) h
      have hmem : ∀ s ∈ g, B.Sentence s := fun s hs => h s (hflat ▸ List.mem_append_left _ hs)
      have hends : B.ends sep (joined sep (t :: ss)) = false := by
        rw [ends, hsep.newline, hsep.stop]
        rfl
      have hsegs : B.segments (sep :: joined sep (t :: ss)) = (sep :: joined sep g) :: rest := by
        rw [segments, hends, if_neg Bool.false_ne_true, hcut]
        rfl
      rw [joined_cons (List.cons_ne_nil _ _), happend, hsegs]
      split
      · refine ⟨[s], g :: gs, _, by rw [List.flatten_cons, hflat]; rfl, List.cons_ne_nil _ _,
          List.forall_mem_cons.mpr ⟨hg, hgs⟩, by rw [joined_singleton], ?_⟩
        have hne := joined_ne_nil sep hg fun s hs => (hmem s hs).nonempty
        rw [List.map_cons, strip_cons hsep.blank, strip_eq_self (joined_first hg hmem) (joined_last hg hmem),
          List.filter_cons_of_pos (by simpa using hne), hrest]
        rfl
      · refine ⟨s :: g, gs, rest, by rw [← hflat]; rfl, List.cons_ne_nil _ _, hgs, ?_, hrest⟩
        rw [List.modifyHead_cons, joined_cons hg]

/-- The sentences of joined sentences are joined groups of them. -/
theorem sentences_joined (hsep : B.Joint sep) (h : ∀ s ∈ ss, B.Sentence s) :
    ∃ gs : List (List (List α)), gs.flatten = ss ∧ (∀ g ∈ gs, g ≠ []) ∧
      B.sentences (joined sep ss) = gs.map (joined sep) := by
  by_cases hss : ss = []
  · subst hss
    exact ⟨[], rfl, nofun, rfl⟩
  · obtain ⟨g, gs, rest, hflat, hg, hgs, hcut, hrest⟩ := segments_joined hsep hss h
    have hmem : ∀ s ∈ g, B.Sentence s := fun s hs => h s (hflat ▸ List.mem_append_left _ hs)
    have hne := joined_ne_nil sep hg fun s hs => (hmem s hs).nonempty
    refine ⟨g :: gs, hflat, List.forall_mem_cons.mpr ⟨hg, hgs⟩, ?_⟩
    rw [sentences, hcut, List.map_cons, strip_eq_self (joined_first hg hmem) (joined_last hg hmem),
      List.filter_cons_of_pos (by simpa using hne), hrest]
    rfl

end Breaks

end Claudear.Text
