import Mathlib.Data.List.TakeWhile

/-!
# Greedy windows

Over a list sorted by time, `windows` takes what lies within `span` of the first element as a
group when it has at least `size` elements and goes on behind it, or else leaves the first
element out. No two groups overlap, and every large set within one span meets a group.
-/

namespace Claudear.Data

variable {α : Type} (time : α → Int) (span : Int) (size : Nat)

def notAfter (t : Int) (a : α) : Bool := decide (time a ≤ t)

def windows : List α → List (List α)
  | [] => []
  | first :: rest =>
    let group := (first :: rest).takeWhile (notAfter time (time first + span))
    if size ≤ group.length then group :: windows (rest.dropWhile (notAfter time (time first + span))) else windows rest
termination_by l => l.length
decreasing_by
  · exact Nat.lt_succ_of_le (List.dropWhile_suffix _).length_le
  · exact Nat.lt_succ_self _

variable {time span size} {l s g : List α} {a first : α} {rest : List α} {t : Int}

theorem notAfter_iff : notAfter time t a = true ↔ time a ≤ t := decide_eq_true_iff

theorem windows_take (h : size ≤ ((first :: rest).takeWhile (notAfter time (time first + span))).length) :
    windows time span size (first :: rest) = (first :: rest).takeWhile (notAfter time (time first + span)) ::
      windows time span size (rest.dropWhile (notAfter time (time first + span))) := by
  rw [windows, if_pos h]

theorem windows_skip (h : ¬ size ≤ ((first :: rest).takeWhile (notAfter time (time first + span))).length) :
    windows time span size (first :: rest) = windows time span size rest := by
  rw [windows, if_neg h]

/-- Sorted by `time`. -/
def Timely (time : α → Int) (l : List α) : Prop := l.Pairwise fun a b => time a ≤ time b

theorem takeWhile_eq_filter (h : Timely time l) : l.takeWhile (notAfter time t) = l.filter (notAfter time t) := by
  induction l with
  | nil => rfl
  | cons a l ih =>
    obtain ⟨ha, hl⟩ := List.pairwise_cons.mp h
    by_cases hat : time a ≤ t
    · rw [List.takeWhile_cons_of_pos (notAfter_iff.mpr hat), List.filter_cons_of_pos (notAfter_iff.mpr hat), ih hl]
    · rw [List.takeWhile_cons_of_neg (mt notAfter_iff.mp hat), List.filter_cons_of_neg (mt notAfter_iff.mp hat), eq_comm,
        List.filter_eq_nil_iff]
      intro b hb
      have hab := ha b hb
      rw [notAfter_iff]
      omega

theorem lt_of_mem_dropWhile (h : Timely time l) (ha : a ∈ l.dropWhile (notAfter time t)) : t < time a := by
  induction l with
  | nil => exact absurd ha List.not_mem_nil
  | cons b l ih =>
    obtain ⟨hb, hl⟩ := List.pairwise_cons.mp h
    by_cases hbt : time b ≤ t
    · rw [List.dropWhile_cons_of_pos (notAfter_iff.mpr hbt)] at ha
      exact ih hl ha
    · rw [List.dropWhile_cons_of_neg (mt notAfter_iff.mp hbt)] at ha
      rcases List.mem_cons.mp ha with rfl | ha
      · omega
      · have hba := hb a ha
        omega

theorem Timely.dropWhile (h : Timely time (first :: rest)) (p : α → Bool) : Timely time (rest.dropWhile p) :=
  (List.pairwise_cons.mp h).2.sublist (List.dropWhile_suffix p).sublist

/-- A group is large, and lies within one span of its first element. -/
theorem window_spec (hl : Timely time l) (hsize : 0 < size) (hg : g ∈ windows time span size l) :
    size ≤ g.length ∧ g.Sublist l ∧ ∃ first rest, g = first :: rest ∧ ∀ a ∈ g, time first ≤ time a ∧ time a ≤ time first + span := by
  induction l using windows.induct time span size with
  | case1 =>
    rw [windows] at hg
    exact absurd hg List.not_mem_nil
  | case2 first rest group htaken ih =>
    rw [windows_take htaken] at hg
    rcases List.mem_cons.mp hg with rfl | hg
    · refine ⟨htaken, List.takeWhile_sublist _, ?_⟩
      have hfirst : time first ≤ time first + span := by
        by_contra hlt
        rw [show group = [] from List.takeWhile_cons_of_neg (mt notAfter_iff.mp hlt)] at htaken
        exact absurd (Nat.lt_of_lt_of_le hsize htaken) (Nat.lt_irrefl 0)
      refine ⟨first, rest.takeWhile (notAfter time (time first + span)), List.takeWhile_cons_of_pos (notAfter_iff.mpr hfirst), ?_⟩
      intro a ha
      have hle := List.mem_takeWhile_imp ha
      refine ⟨?_, notAfter_iff.mp hle⟩
      rcases List.mem_cons.mp ((List.takeWhile_sublist _).subset ha) with rfl | hmem
      · exact Int.le_refl _
      · exact (List.pairwise_cons.mp hl).1 a hmem
    · obtain ⟨hlarge, hsub, hwithin⟩ := ih (hl.dropWhile _) hg
      exact ⟨hlarge, .cons first (hsub.trans (List.dropWhile_suffix _).sublist), hwithin⟩
  | case3 first rest group hskip ih =>
    rw [windows_skip hskip] at hg
    obtain ⟨hlarge, hsub, hwithin⟩ := ih (List.pairwise_cons.mp hl).2 hg
    exact ⟨hlarge, .cons first hsub, hwithin⟩

/-- Each group ends before the next one starts. -/
theorem windows_pairwise (hl : Timely time l) (hsize : 0 < size) :
    (windows time span size l).Pairwise fun g g' => ∀ a ∈ g, ∀ b ∈ g', time a < time b := by
  induction l using windows.induct time span size with
  | case1 =>
    rw [windows]
    exact .nil
  | case2 first rest group htaken ih =>
    rw [windows_take htaken]
    refine .cons (fun g' hg' a ha b hb => ?_) (ih (hl.dropWhile _))
    have hle : time a ≤ time first + span := notAfter_iff.mp (List.mem_takeWhile_imp ha)
    have hmem := (window_spec (hl.dropWhile _) hsize hg').2.1.subset hb
    exact Int.lt_of_le_of_lt hle (lt_of_mem_dropWhile (List.pairwise_cons.mp hl).2 hmem)
  | case3 first rest group hskip ih =>
    rw [windows_skip hskip]
    exact ih (List.pairwise_cons.mp hl).2

/-- A large set within one span meets a group. -/
theorem exists_mem_window (hl : Timely time l) (hsize : 0 < size) (hs : s.Sublist l)
    (hwithin : ∀ a ∈ s, ∀ b ∈ s, time b ≤ time a + span) (hlarge : size ≤ s.length) :
    ∃ a ∈ s, ∃ g ∈ windows time span size l, a ∈ g := by
  induction l using windows.induct time span size with
  | case1 =>
    rw [List.sublist_nil.mp hs] at hlarge
    exact absurd (Nat.lt_of_lt_of_le hsize hlarge) (Nat.lt_irrefl 0)
  | case2 first rest group htaken ih =>
    rw [windows_take htaken]
    rw [← List.takeWhile_append_dropWhile (p := notAfter time (time first + span)) (l := first :: rest)] at hs
    obtain ⟨s₁, s₂, rfl, hs₁, hs₂⟩ := List.sublist_append_iff.mp hs
    cases s₁ with
    | cons a s₁ => exact ⟨a, List.mem_cons_self, _, List.mem_cons_self, hs₁.subset List.mem_cons_self⟩
    | nil =>
      have hfirst : time first ≤ time first + span := by
        by_contra hlt
        rw [show group = [] from List.takeWhile_cons_of_neg (mt notAfter_iff.mp hlt)] at htaken
        exact absurd (Nat.lt_of_lt_of_le hsize htaken) (Nat.lt_irrefl 0)
      rw [List.dropWhile_cons_of_pos (notAfter_iff.mpr hfirst)] at hs₂
      obtain ⟨a, ha, g, hg, hag⟩ := ih (hl.dropWhile _) hs₂
      exact ⟨a, ha, g, List.mem_cons_of_mem _ hg, hag⟩
  | case3 first rest group hskip ih =>
    rw [windows_skip hskip]
    cases hs with
    | cons _ hs => exact ih (List.pairwise_cons.mp hl).2 hs
    | @cons_cons s _ _ hs =>
      -- a set that starts here is part of the group that was too small
      have hall : ∀ a ∈ first :: s, notAfter time (time first + span) a = true := fun a ha =>
        notAfter_iff.mpr (hwithin first List.mem_cons_self a ha)
      have hsub := (hs.cons_cons first).filter (notAfter time (time first + span))
      rw [List.filter_eq_self.mpr hall, ← takeWhile_eq_filter hl] at hsub
      exact absurd (Nat.le_trans hlarge hsub.length_le) hskip

/-- One group when all lie within one span. -/
theorem windows_of_within (hall : ∀ a ∈ first :: rest, time a ≤ time first + span) (hsize : size ≤ (first :: rest).length) :
    windows time span size (first :: rest) = [first :: rest] := by
  have htake : (first :: rest).takeWhile (notAfter time (time first + span)) = first :: rest :=
    List.takeWhile_eq_self_iff.mpr fun a ha => notAfter_iff.mpr (hall a ha)
  have hdrop : rest.dropWhile (notAfter time (time first + span)) = [] :=
    List.dropWhile_eq_nil_iff.mpr fun a ha => notAfter_iff.mpr (hall a (List.mem_cons_of_mem first ha))
  rw [windows_take (htake.symm ▸ hsize), htake, hdrop, windows]

end Claudear.Data
