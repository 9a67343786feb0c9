import Mathlib.Data.List.Nodup

/-!
# Sweeps

A `sweep` goes through items, does something about each and collects what is to be
reported. An error ends it: what was done stays, and nothing is reported. Where the
items are `Independent`, each is treated as if it were the only one.
-/

namespace Claudear.Machine

variable {ι σ ε ρ ν κ : Type*}

/-- The loop `for item in items { if let Some(result) = check(item)? { results.push(result) } }`. -/
def sweep (check : ι → σ → Except ε (Option ρ) × σ) : List ι → σ → Except ε (List ρ) × σ
  | [], s => (.ok [], s)
  | i :: rest, s =>
    match check i s with
    | (.error e, s) => (.error e, s)
    | (.ok result, s) =>
      match sweep check rest s with
      | (.error e, s) => (.error e, s)
      | (.ok results, s) => (.ok (result.toList ++ results), s)

variable {check : ι → σ → Except ε (Option ρ) × σ} {key : ι → κ} {view : ι → σ → Option ν} {i j : ι} {l : List ι}
  {s s' : σ} {p : ν}

/-- A check depends on what the state has for its item, and changes nothing else. -/
structure Independent (check : ι → σ → Except ε (Option ρ) × σ) (key : ι → κ) (view : ι → σ → Option ν) : Prop where
  other : ∀ {i j s}, key i ≠ key j → view i (check j s).2 = view i s
  same : ∀ {i s s' p}, view i s = some p → view i s' = some p →
    (check i s).1 = (check i s').1 ∧ view i (check i s).2 = view i (check i s').2

/-- What the check of the item alone reports. -/
def own (check : ι → σ → Except ε (Option ρ) × σ) (s : σ) (i : ι) : Option ρ :=
  match (check i s).1 with
  | .ok result => result
  | .error _ => none

namespace Independent

variable (h : Independent check key view)

include h

theorem sweep_other (hi : ∀ j ∈ l, key i ≠ key j) : view i (sweep check l s).2 = view i s := by
  induction l generalizing s with
  | nil => rfl
  | cons j l ih =>
    obtain ⟨hj, hl⟩ := List.forall_mem_cons.mp hi
    have hstep := h.other (s := s) hj
    rw [sweep]
    rcases hc : check j s with ⟨_ | result, s₁⟩
    · rw [hc] at hstep
      exact hstep
    · rw [hc] at hstep
      have hrest := ih (s := s₁) hl
      dsimp only
      rcases hs : sweep check l s₁ with ⟨_ | results, s₂⟩
      · rw [hs] at hrest
        exact hrest.trans hstep
      · rw [hs] at hrest
        exact hrest.trans hstep

/-- The checks of the items that come later are the same after this one. -/
theorem after_check {j} (hn : key j ∉ l.map key) (hviews : ∀ i ∈ l, ∃ p, view i s = some p) :
    ∀ i ∈ l, ∃ p, view i (check j s).2 = some p ∧ (check i (check j s).2).1 = (check i s).1 ∧
      view i (check i (check j s).2).2 = view i (check i s).2 := by
  intro i hi
  obtain ⟨p, hp⟩ := hviews i hi
  have hafter : view i (check j s).2 = some p := (h.other fun he => hn (he ▸ List.mem_map_of_mem hi)).trans hp
  exact ⟨p, hafter, (h.same hafter hp).1, (h.same hafter hp).2⟩

/-- If every check succeeds, each item is treated as if alone and all are reported. -/
theorem sweep_ok (hn : (l.map key).Nodup) (hview : ∀ i ∈ l, ∃ p, view i s = some p)
    (hok : ∀ i ∈ l, (check i s).1.isOk = true) : (sweep check l s).1 = .ok (l.filterMap (own check s)) ∧
      ∀ i ∈ l, view i (sweep check l s).2 = view i (check i s).2 := by
  induction l generalizing s with
  | nil => exact ⟨rfl, by simp⟩
  | cons j l ih =>
    rw [List.map_cons, List.nodup_cons] at hn
    obtain ⟨-, hviews⟩ := List.forall_mem_cons.mp hview
    obtain ⟨hj, hoks⟩ := List.forall_mem_cons.mp hok
    have hafter := h.after_check hn.1 hviews
    obtain ⟨hrest, hends⟩ := ih hn.2 (fun i hi => (hafter i hi).imp fun p hp => hp.1) fun i hi => by
      obtain ⟨p, -, he, -⟩ := hafter i hi
      rw [he]
      exact hoks i hi
    have howns : l.filterMap (own check (check j s).2) = l.filterMap (own check s) := by
      refine List.filterMap_congr fun i hi => ?_
      obtain ⟨p, -, he, -⟩ := hafter i hi
      rw [own, own, he]
    have hlast : view j (sweep check l (check j s).2).2 = view j (check j s).2 :=
      h.sweep_other fun i hi he => hn.1 (he ▸ List.mem_map_of_mem hi)
    rw [howns] at hrest
    rw [sweep, List.filterMap_cons]
    rcases hc : check j s with ⟨e | result, s₁⟩
    · rw [hc] at hj
      cases hj
    · rw [hc] at hrest hlast hends hafter
      dsimp only at hrest hlast hends hafter ⊢
      rcases hs : sweep check l s₁ with ⟨e | results, s₂⟩
      · rw [hs] at hrest
        cases hrest
      · rw [hs] at hrest hlast hends
        have hown : own check s j = result := by rw [own, hc]
        refine ⟨?_, List.forall_mem_cons.mpr ⟨by rw [hc]; exact hlast, fun i hi => ?_⟩⟩
        · cases hrest
          rw [hown]
          cases result <;> rfl
        · obtain ⟨p, -, -, he⟩ := hafter i hi
          exact (hends i hi).trans he

/-- One check that fails is enough for nothing to be reported. -/
theorem sweep_error (hn : (l.map key).Nodup) (hview : ∀ i ∈ l, ∃ p, view i s = some p) (hi : i ∈ l)
    (herr : (check i s).1.isOk = false) : (sweep check l s).1.isOk = false := by
  induction l generalizing s with
  | nil => cases hi
  | cons j l ih =>
    rw [List.map_cons, List.nodup_cons] at hn
    obtain ⟨-, hviews⟩ := List.forall_mem_cons.mp hview
    rw [sweep]
    rcases hc : check j s with ⟨e | result, s₁⟩
    · rfl
    · dsimp only
      rcases List.mem_cons.mp hi with rfl | hmem
      · rw [hc] at herr
        cases herr
      · have hafter := h.after_check hn.1 hviews
        rw [hc] at hafter
        obtain ⟨p, -, he, -⟩ := hafter i hmem
        have hrest := ih hn.2 (fun i hi => (hafter i hi).imp fun p hp => hp.1) hmem (by rw [he]; exact herr)
        rcases hs : sweep check l s₁ with ⟨e | results, s₂⟩
        · rfl
        · rw [hs] at hrest
          cases hrest

/-- Whatever a check finds to be done is done and reported, exactly if no check fails
or none finds anything. -/
theorem fair_iff (moves : ρ → Prop) (done : ι → ρ → σ → Prop) (hn : (l.map key).Nodup)
    (hview : ∀ i ∈ l, ∃ p, view i s = some p)
    (hdone : ∀ i ∈ l, ∀ r, own check s i = some r → moves r → ∀ s', view i s' = view i (check i s).2 → done i r s') :
    (∀ i ∈ l, ∀ r, own check s i = some r → moves r →
        done i r (sweep check l s).2 ∧ ∃ rs, (sweep check l s).1 = .ok rs ∧ r ∈ rs) ↔
      (∀ i ∈ l, (check i s).1.isOk = true) ∨ ∀ i ∈ l, ∀ r, own check s i = some r → ¬ moves r := by
  constructor
  · intro hfair
    by_cases hok : ∀ i ∈ l, (check i s).1.isOk = true
    · exact .inl hok
    · refine .inr fun i hi r hr hmoves => ?_
      rw [not_forall₂] at hok
      obtain ⟨j, hj, herr⟩ := hok
      have hnone := h.sweep_error hn hview hj (Bool.eq_false_iff.mpr herr)
      obtain ⟨-, rs, hrs, -⟩ := hfair i hi r hr hmoves
      rw [hrs] at hnone
      cases hnone
  · rintro (hok | hnone) i hi r hr hmoves
    · obtain ⟨hrs, hends⟩ := h.sweep_ok hn hview hok
      exact ⟨hdone i hi r hr hmoves _ (hends i hi), _, hrs, List.mem_filterMap.mpr ⟨i, hi, hr⟩⟩
    · exact absurd hmoves (hnone i hi r hr)

end Independent

end Claudear.Machine
