import Mathlib.Data.List.Dedup
import Mathlib.Data.List.TakeWhile

/-!
# Batches of new elements

A scan over a list leaves out what is stored and collects the rest; a full batch is stored
as a whole, and the last one at the end. What waits in a batch is not stored yet, so an
element that comes again while it waits goes in twice (`nodup_batches`). A scan that starts
over after the first batches goes on with the next one (`batches_drop`).
-/

namespace Claudear.Data

variable {α : Type*} [DecidableEq α] (size : Nat)

/-- The batches of a scan, the first of which begins with what waits. -/
def batches (stored waiting : List α) : List α → List (List α)
  | [] => if waiting = [] then [] else [waiting]
  | x :: rest =>
    if x ∈ stored then batches stored waiting rest
    else if size ≤ (waiting ++ [x]).length then
      (waiting ++ [x]) :: batches (stored ++ (waiting ++ [x])) [] rest
    else batches stored (waiting ++ [x]) rest

variable {size} {stored waiting l rest before after : List α} {x y : α} {b : List α} {bs : List (List α)}

theorem batches_stored (h : x ∈ stored) : batches size stored waiting (x :: rest) = batches size stored waiting rest := by
  rw [batches, if_pos h]

theorem batches_full (h : x ∉ stored) (hfull : size ≤ (waiting ++ [x]).length) :
    batches size stored waiting (x :: rest) = (waiting ++ [x]) :: batches size (stored ++ (waiting ++ [x])) [] rest := by
  rw [batches, if_neg h, if_pos hfull]

theorem batches_wait (h : x ∉ stored) (hfull : ¬ size ≤ (waiting ++ [x]).length) :
    batches size stored waiting (x :: rest) = batches size stored (waiting ++ [x]) rest := by
  rw [batches, if_neg h, if_neg hfull]

theorem waiting_subset (h : batches size stored waiting l = b :: bs) : waiting ⊆ b := by
  induction l generalizing waiting with
  | nil =>
    rw [batches] at h
    split at h
    · cases h
    · cases h
      exact List.Subset.refl _
  | cons x rest ih =>
    by_cases hx : x ∈ stored
    · exact ih (by rwa [batches_stored hx] at h)
    · by_cases hfull : size ≤ (waiting ++ [x]).length
      · rw [batches_full hx hfull] at h
        cases h
        exact List.subset_append_left _ _
      · rw [batches_wait hx hfull] at h
        exact List.Subset.trans (List.subset_append_left _ _) (ih h)

/-- Once the first batch is stored, a new scan leaves out what came before its end. -/
theorem batches_rerun (h : batches size stored waiting l = b :: bs) : batches size (stored ++ b) [] l = bs := by
  induction l generalizing waiting with
  | nil =>
    rw [batches] at h
    split at h
    · cases h
    · cases h
      rfl
  | cons x rest ih =>
    by_cases hx : x ∈ stored
    · rw [batches_stored hx] at h
      rw [batches_stored (List.mem_append_left b hx)]
      exact ih h
    · by_cases hfull : size ≤ (waiting ++ [x]).length
      · rw [batches_full hx hfull] at h
        obtain ⟨rfl, rfl⟩ := List.cons.inj h
        rw [batches_stored]
        simp
      · rw [batches_wait hx hfull] at h
        have hb := waiting_subset h (List.mem_append_right waiting List.mem_cons_self)
        rw [batches_stored (List.mem_append_right stored hb)]
        exact ih h

/-- A scan that starts over after the first batches goes on with the next. -/
theorem batches_drop (k : Nat) :
    batches size (stored ++ ((batches size stored [] l).take k).flatten) [] l = (batches size stored [] l).drop k := by
  induction k generalizing stored with
  | zero => simp
  | succ k ih =>
    cases h : batches size stored [] l with
    | nil => simpa using h
    | cons b bs =>
      have hrerun := batches_rerun h
      have hnext := @ih (stored ++ b)
      rw [hrerun, List.append_assoc] at hnext
      simpa using hnext

theorem mem_batches : x ∈ (batches size stored waiting l).flatten ∨ x ∈ stored ↔ x ∈ waiting ∨ x ∈ stored ∨ x ∈ l := by
  induction l generalizing stored waiting with
  | nil =>
    rw [batches]
    split
    · rename_i hwaiting
      simp [hwaiting]
    · simp
  | cons y rest ih =>
    by_cases hy : y ∈ stored
    · rw [batches_stored hy, ih, List.mem_cons]
      constructor
      · rintro (h | h | h)
        · exact .inl h
        · exact .inr (.inl h)
        · exact .inr (.inr (.inr h))
      · rintro (h | h | rfl | h)
        · exact .inl h
        · exact .inr (.inl h)
        · exact .inr (.inl hy)
        · exact .inr (.inr h)
    · by_cases hfull : size ≤ (waiting ++ [y]).length
      · have hrest := @ih (stored ++ (waiting ++ [y])) []
        rw [batches_full hy hfull, List.flatten_cons]
        simp only [List.mem_append, List.mem_cons, List.not_mem_nil, or_false, false_or] at hrest ⊢
        tauto
      · rw [batches_wait hy hfull, ih]
        simp only [List.mem_append, List.mem_cons, List.not_mem_nil, or_false]
        tauto

/-! ## Repeated elements -/

/-- How many different elements come before the first `x`. -/
def rank (l : List α) (x : α) : Nat := (l.takeWhile (· ≠ x)).dedup.length

/-- No element comes again before the batch of its first occurrence is full. -/
def Spread (size : Nat) (l : List α) : Prop :=
  ∀ before x after, l = before ++ x :: after → x ∈ before → rank before x / size < before.dedup.length / size

/-- The elements that were seen, in the order of their first occurrences. -/
structure Firsts (before order : List α) : Prop where
  nodup : order.Nodup
  mem : ∀ x, x ∈ order ↔ x ∈ before
  rank : ∀ x ∈ before, rank before x = order.idxOf x

/-- What is stored and what waits. -/
structure Seen (size : Nat) (before stored waiting : List α) : Prop extends Firsts before (stored ++ waiting) where
  full : size ∣ stored.length
  few : waiting.length < size

theorem rank_append_of_mem (h : x ∈ before) : rank (before ++ after) x = rank before x := by
  rw [rank, rank]
  congr 2
  induction before with
  | nil => exact absurd h List.not_mem_nil
  | cons y before ih =>
    by_cases hy : y = x
    · rw [List.cons_append, List.takeWhile_cons_of_neg (by simpa using hy), List.takeWhile_cons_of_neg (by simpa using hy)]
    · rw [List.cons_append, List.takeWhile_cons_of_pos (by simpa using hy), List.takeWhile_cons_of_pos (by simpa using hy),
        ih (by simpa [Ne.symm hy] using h)]

theorem rank_append_of_not_mem (h : x ∉ before) : rank (before ++ x :: after) x = before.dedup.length := by
  have hall : ∀ y ∈ before, decide (y ≠ x) = true := fun y hy => decide_eq_true fun e => h (e ▸ hy)
  rw [rank, List.takeWhile_append_of_pos hall, List.takeWhile_cons_of_neg (by simp), List.append_nil]

namespace Firsts

variable {order : List α}

theorem count (h : Firsts before order) : before.dedup.length = order.length := by
  have hperm : before.dedup.Perm order :=
    (List.perm_ext_iff_of_nodup (List.nodup_dedup before) h.nodup).mpr fun x => by rw [List.mem_dedup, h.mem]
  exact hperm.length_eq

theorem add (h : Firsts before order) (hx : x ∉ before) : Firsts (before ++ [x]) (order ++ [x]) := by
  have hnew : x ∉ order := mt (h.mem x).mp hx
  refine ⟨?_, ?_, ?_⟩
  · exact List.nodup_append.mpr ⟨h.nodup, List.nodup_singleton x, fun a ha b hb e => hnew (List.mem_singleton.mp hb ▸ e ▸ ha)⟩
  · intro y
    rw [List.mem_append, List.mem_append, h.mem]
  · intro y hy
    rcases List.mem_append.mp hy with hy | hy
    · rw [rank_append_of_mem hy, h.rank y hy, List.idxOf_append_of_mem ((h.mem y).mpr hy)]
    · obtain rfl := List.mem_singleton.mp hy
      rw [rank_append_of_not_mem hx, List.idxOf_append_of_notMem hnew, h.count, List.idxOf_cons_self, Nat.add_zero]

/-- An element that comes again changes nothing. -/
theorem skip (h : Firsts before order) (hx : x ∈ before) : Firsts (before ++ [x]) order := by
  refine ⟨h.nodup, ?_, ?_⟩
  · intro y
    rw [h.mem, List.mem_append, List.mem_singleton]
    exact ⟨.inl, fun hy => hy.elim id fun e => e ▸ hx⟩
  · intro y hy
    have hy' : y ∈ before := (List.mem_append.mp hy).elim id fun hm => List.mem_singleton.mp hm ▸ hx
    rw [rank_append_of_mem hy', h.rank y hy']

end Firsts

namespace Seen

/-- An element that was seen is stored exactly when its batch is full. -/
theorem stored_iff (h : Seen size before stored waiting) (hx : x ∈ before) :
    x ∈ stored ↔ Data.rank before x / size < before.dedup.length / size := by
  obtain ⟨k, hk⟩ := h.full
  have hsize : 0 < size := Nat.lt_of_le_of_lt (Nat.zero_le _) h.few
  have hcount : before.dedup.length / size = k := by
    rw [h.count, List.length_append, hk, Nat.mul_add_div hsize, Nat.div_eq_of_lt h.few, Nat.add_zero]
  rw [hcount, Nat.div_lt_iff_lt_mul hsize, Nat.mul_comm, ← hk, h.rank x hx]
  constructor
  · intro hs
    rw [List.idxOf_append_of_mem hs]
    exact List.idxOf_lt_length_of_mem hs
  · intro hlt
    by_contra hs
    rw [List.idxOf_append_of_notMem hs] at hlt
    omega

/-- An element seen for the first time waits behind the others. -/
theorem wait (h : Seen size before stored waiting) (hx : x ∉ before) (hfew : (waiting ++ [x]).length < size) :
    Seen size (before ++ [x]) stored (waiting ++ [x]) := by
  refine ⟨?_, h.full, hfew⟩
  rw [← List.append_assoc]
  exact h.add hx

theorem store (h : Seen size before stored waiting) (hx : x ∉ before) (hfull : size ≤ (waiting ++ [x]).length) :
    Seen size (before ++ [x]) (stored ++ (waiting ++ [x])) [] := by
  have hlength : (waiting ++ [x]).length = size := by
    have hfew := h.few
    rw [List.length_append, List.length_singleton] at hfull ⊢
    omega
  refine ⟨?_, ?_, Nat.lt_of_le_of_lt (Nat.zero_le _) h.few⟩
  · rw [List.append_nil, ← List.append_assoc]
    exact h.add hx
  · rw [List.length_append, hlength]
    exact Nat.dvd_add h.full (Nat.dvd_refl size)

end Seen

/-- What waits, and an element that comes again while it waits, stay in the batches. -/
theorem sublist_batches : (stored ++ waiting).Sublist (stored ++ (batches size stored waiting l).flatten) := by
  induction l generalizing stored waiting with
  | nil =>
    rw [batches]
    split
    · rename_i hwaiting
      rw [hwaiting, List.flatten_nil]
    · rw [List.flatten_singleton]
  | cons x rest ih =>
    by_cases hx : x ∈ stored
    · rw [batches_stored hx]
      exact ih
    · have hmore : (stored ++ waiting).Sublist (stored ++ (waiting ++ [x])) :=
        (List.Sublist.refl stored).append (List.sublist_append_left _ _)
      by_cases hfull : size ≤ (waiting ++ [x]).length
      · rw [batches_full hx hfull, List.flatten_cons]
        exact hmore.trans ((List.Sublist.refl stored).append (List.sublist_append_left (waiting ++ [x]) _))
      · rw [batches_wait hx hfull]
        exact hmore.trans ih

theorem not_nodup_batches (hx : x ∉ stored) (hwaiting : x ∈ waiting) :
    ¬ (stored ++ (batches size stored waiting (x :: rest)).flatten).Nodup := by
  intro h
  have hsub : (stored ++ (waiting ++ [x])).Sublist (stored ++ (batches size stored waiting (x :: rest)).flatten) := by
    by_cases hfull : size ≤ (waiting ++ [x]).length
    · rw [batches_full hx hfull, List.flatten_cons]
      exact (List.Sublist.refl stored).append (List.sublist_append_left (waiting ++ [x]) _)
    · rw [batches_wait hx hfull]
      exact sublist_batches
  have hnodup := (List.nodup_append.mp (h.sublist hsub)).2.1
  exact (List.nodup_append.mp hnodup).2.2 x hwaiting x List.mem_cons_self rfl

omit [DecidableEq α] in
/-- What holds at each place of a list holds of the first element and at each place behind it. -/
theorem forall_split_cons {P : List α → α → Prop} :
    (∀ between y after, x :: l = between ++ y :: after → P between y) ↔
      P [] x ∧ ∀ between y after, l = between ++ y :: after → P (x :: between) y := by
  constructor
  · intro h
    refine ⟨h [] x l rfl, fun between y after hl => h (x :: between) y after ?_⟩
    rw [hl, List.cons_append]
  · rintro ⟨hx, h⟩ between y after hl
    cases between with
    | nil =>
      obtain ⟨rfl, rfl⟩ := List.cons.inj hl
      exact hx
    | cons z between =>
      obtain ⟨rfl, hrest⟩ := List.cons.inj hl
      exact h between y after hrest

theorem nodup_batches_from (h : Seen size before stored waiting) :
    (stored ++ (batches size stored waiting l).flatten).Nodup ↔
      ∀ between x after, l = between ++ x :: after → x ∈ before ++ between →
        rank (before ++ between) x / size < (before ++ between).dedup.length / size := by
  induction l generalizing before stored waiting with
  | nil =>
    refine iff_of_true ?_ fun between x after hl => absurd hl.symm (by simp)
    have hnodup := h.nodup
    rw [batches]
    split
    · rename_i hwaiting
      rwa [hwaiting] at hnodup
    · rwa [List.flatten_singleton]
  | cons x rest ih =>
    -- The element at hand, and the ones behind it.
    have hcons : (∀ between y after, x :: rest = between ++ y :: after → y ∈ before ++ between →
          rank (before ++ between) y / size < (before ++ between).dedup.length / size) ↔
        (x ∈ before → rank before x / size < before.dedup.length / size) ∧
          ∀ between y after, rest = between ++ y :: after → y ∈ before ++ [x] ++ between →
            rank (before ++ [x] ++ between) y / size < (before ++ [x] ++ between).dedup.length / size := by
      refine forall_split_cons.trans (and_congr (by rw [List.append_nil]) (forall_congr' fun between => ?_))
      rw [List.append_cons before x between]
    rw [hcons]
    by_cases hbefore : x ∈ before
    · rw [forall_prop_of_true hbefore, ← h.stored_iff hbefore]
      by_cases hx : x ∈ stored
      · rw [batches_stored hx, and_iff_right hx]
        exact ih ⟨h.toFirsts.skip hbefore, h.full, h.few⟩
      · have hwaiting : x ∈ waiting := (List.mem_append.mp ((h.mem x).mpr hbefore)).resolve_left hx
        exact iff_of_false (not_nodup_batches hx hwaiting) fun hs => hx hs.1
    · have hx : x ∉ stored := fun hs => hbefore ((h.mem x).mp (List.mem_append_left _ hs))
      rw [and_iff_right fun hb => absurd hb hbefore]
      by_cases hfull : size ≤ (waiting ++ [x]).length
      · rw [batches_full hx hfull, List.flatten_cons, ← List.append_assoc]
        exact ih (h.store hbefore hfull)
      · rw [batches_wait hx hfull]
        exact ih (h.wait hbefore (Nat.lt_of_not_le hfull))

/-- Nothing goes in twice exactly when repeated elements are spread over the batches. -/
theorem nodup_batches (hsize : 0 < size) : (batches size [] [] l).flatten.Nodup ↔ Spread size l := by
  have hseen : Seen size ([] : List α) [] [] := ⟨⟨List.nodup_nil, fun x => Iff.rfl, by simp⟩, Nat.dvd_zero size, hsize⟩
  rw [← List.nil_append (batches size [] [] l).flatten, nodup_batches_from hseen]
  rfl

end Claudear.Data
