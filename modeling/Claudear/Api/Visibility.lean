import Claudear.Core.Identity
import Mathlib.Algebra.Group.Nat.Defs

/-!
# Listings without hidden rows

The first visible rows of a listing that only takes a limit: the fetch is widened until
enough of them remain. The loop is run with fuel; that some fuel is enough is part of what
is proved.
-/

namespace Claudear.Api

open Claudear.Core

inductive AttemptScope where
  | All
  | WithoutSecurity
  deriving DecidableEq

/-- `usize::MAX` -/
def usizeMax : Nat := 2 ^ 64 - 1

structure Visibility where
  scope : AttemptScope

namespace Visibility

def forUser (role : Role) : Visibility := ⟨if role = .admin then .All else .WithoutSecurity⟩

variable {T E : Type} (fetch : Nat → Except E (List T)) (visible : T → Bool) (limit : Nat)

/-- `none` when the fuel runs out. -/
def widen : Nat → Nat → Option (Except E (List T))
  | 0, _ => none
  | fuel + 1, requested =>
    match fetch requested with
    | .error e => some (.error e)
    | .ok rows =>
      let exhausted := rows.length < requested
      let shown := rows.filter visible
      if exhausted ∨ limit ≤ shown.length then some (.ok (shown.take limit))
      else widen fuel (min (requested * 2) usizeMax)

def visiblePrefix (v : Visibility) (fuel : Nat) : Option (Except E (List T)) :=
  if v.scope = .All then some (fetch limit) else widen fetch visible limit fuel (max limit 1)

variable {listing : List T} {visible limit} {requested fuel : Nat}

/-- What the first `n` rows of a listing show is the start of what the whole listing shows. -/
theorem take_shown (n : Nat) (h : limit ≤ ((listing.take n).filter visible).length) :
    ((listing.take n).filter visible).take limit = (listing.filter visible).take limit := by
  conv_rhs => rw [← List.take_append_drop n listing, List.filter_append]
  rw [List.take_append_of_le_length h]

/-- One round: it returns the right rows or is followed by a wider one. -/
theorem widen_step (hlen : listing.length < usizeMax) (hr : 0 < requested) :
    widen (E := E) (fun n => .ok (listing.take n)) visible limit (fuel + 1) requested =
        some (.ok ((listing.filter visible).take limit)) ∨
      requested ≤ listing.length ∧ requested < min (requested * 2) usizeMax ∧
        widen (E := E) (fun n => .ok (listing.take n)) visible limit (fuel + 1) requested =
          widen (E := E) (fun n => .ok (listing.take n)) visible limit fuel (min (requested * 2) usizeMax) := by
  rw [widen]
  dsimp only
  split
  · rename_i hdone
    left
    rcases hdone with hexhausted | henough
    · have hall : listing.take requested = listing := by
        rw [List.length_take] at hexhausted
        exact List.take_of_length_le (by omega)
      rw [hall]
    · rw [take_shown requested henough]
  · rename_i hnot
    right
    rw [not_or, List.length_take] at hnot
    exact ⟨by omega, by omega, rfl⟩

/-- Enough fuel: each round asks for more rows, until the listing ends. -/
theorem widen_eq (hlen : listing.length < usizeMax) (hr : 0 < requested) (hfuel : listing.length < requested + fuel) :
    widen (E := E) (fun n => .ok (listing.take n)) visible limit (fuel + 1) requested =
      some (.ok ((listing.filter visible).take limit)) := by
  induction fuel generalizing requested with
  | zero =>
    rcases widen_step (E := E) hlen hr with h | ⟨hle, -⟩
    · exact h
    · omega
  | succ fuel ih =>
    rcases widen_step (E := E) hlen hr with h | ⟨hle, hlt, h⟩
    · exact h
    · rw [h]
      exact ih (by omega) (by omega)

/-- For everyone but admins the first `limit` visible rows are returned, after finitely many rounds. -/
theorem visiblePrefix_exact (E : Type) {role : Role} (hrole : role ≠ .admin) (listing : List T) (visible : T → Bool)
    (limit : Nat) (hlen : listing.length < usizeMax) :
    ∃ enough, ∀ fuel ≥ enough, visiblePrefix (E := E) (fun n => .ok (listing.take n)) visible limit (forUser role) fuel =
      some (.ok ((listing.filter visible).take limit)) := by
  refine ⟨listing.length + 1, fun fuel hfuel => ?_⟩
  obtain ⟨rounds, rfl⟩ : ∃ rounds, fuel = rounds + 1 := ⟨fuel - 1, by omega⟩
  have hscope : (forUser role).scope ≠ .All := by
    rw [forUser, if_neg hrole]
    decide
  rw [visiblePrefix, if_neg hscope]
  exact widen_eq hlen (by omega) (by omega)

theorem visiblePrefix_exact_evens : ∃ enough, ∀ fuel ≥ enough,
    visiblePrefix (E := Unit) (fun n => .ok ([1, 2, 3, 4].take n)) (fun n => n % 2 = 0) 1 (forUser .viewer) fuel =
      some (.ok (([1, 2, 3, 4].filter fun n => n % 2 = 0).take 1)) :=
  visiblePrefix_exact Unit (by decide) [1, 2, 3, 4] (fun n => n % 2 = 0) 1 (by decide)

end Visibility

end Claudear.Api
