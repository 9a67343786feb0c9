import Claudear.Distribution.Ownership

/-!
# Spreading pull requests across the roster

Pending pull requests are placed strongest ownership first, each with its
highest candidate under the share, or else with the least-loaded developer.
The scores are any linear order: `total_cmp` makes floating-point numbers one.
`none` is the panic of a lookup past the end of the roster.
-/

namespace Claudear.Distribution

open Claudear.Data Claudear.Text

variable {σ : Type} [LinearOrder σ] [Zero σ]

structure Pending (σ : Type) where
  key : String
  candidates : List (Candidate σ)
  deriving DecidableEq, Repr

structure Decision (σ : Type) where
  key : String
  assignee : String
  reason : AssignmentReason
  score : σ
  deriving DecidableEq, Repr

variable (U : CaseProps)

/-- The position of the developer with this login. -/
def Roster.index (r : Roster) (login : String) : Option (Option Nat) :=
  match r.find U login with
  | none => none
  | some none => some none
  | some (some developer) =>
    some (r.developers.findIdx? fun candidate => candidate.login = developer.login)

namespace Balancer

/-- One more for the holder, if they are on the roster. -/
def hold (r : Roster) (loads : List Nat) (login : String) : Option (List Nat) :=
  match r.index U login with
  | none => none
  | some none => some loads
  | some (some index) => some (loads.modify index (· + 1))

/-- The highest candidate under the share. -/
def firstUnder (r : Roster) (loads : List Nat) (share : Nat) :
    List (Candidate σ) → Option (Option (Nat × Candidate σ))
  | [] => some none
  | candidate :: rest =>
    match r.index U candidate.login with
    | none => none
    | some none => firstUnder r loads share rest
    | some (some index) =>
      if loads.getD index 0 < share then some (some (index, candidate))
      else firstUnder r loads share rest

/-- The score of the first candidate at this position, or zero. -/
def scoreAt (r : Roster) (index : Nat) : List (Candidate σ) → Option σ
  | [] => some 0
  | candidate :: rest =>
    match r.index U candidate.login with
    | none => none
    | some found => if found = some index then some candidate.score else scoreAt r index rest

/-- The comparison of `least_loaded`: the position that `min_by` keeps. Scores are only looked up
where the loads are equal. -/
def lessLoaded (r : Roster) (loads : List Nat) (candidates : List (Candidate σ))
    (left right : Nat) : Option Nat :=
  if loads.getD left 0 < loads.getD right 0 then some left
  else if loads.getD right 0 < loads.getD left 0 then some right
  else do
    let scoreRight ← scoreAt U r right candidates
    let scoreLeft ← scoreAt U r left candidates
    return if scoreRight ≤ scoreLeft then left else right

def leastLoaded (r : Roster) (loads : List Nat) (candidates : List (Candidate σ)) : Option Nat :=
  match List.range loads.length with
  | [] => some 0
  | first :: rest => rest.foldlM (lessLoaded U r loads candidates) first

/-- Where a pending pull request goes, why, and with what score. -/
def choose (r : Roster) (loads : List Nat) (share : Nat) (item : Pending σ) :
    Option (Nat × AssignmentReason × σ) := do
  match ← firstUnder U r loads share item.candidates with
  | some (index, candidate) => return (index, candidate.reason, candidate.score)
  | none =>
    let index ← leastLoaded U r loads item.candidates
    let score ← scoreAt U r index item.candidates
    return (index, .load, score)

def place (r : Roster) (share : Nat) : List Nat → List (Pending σ) → Option (List (Decision σ))
  | _, [] => some []
  | loads, item :: rest => do
    let (index, reason, score) ← choose U r loads share item
    let developer ← r.developers[index]?
    let decisions ← place r share (loads.modify index (· + 1)) rest
    return { key := item.key, assignee := developer.login, reason, score } :: decisions

def bestScore (item : Pending σ) : σ := item.candidates.head?.elim 0 Candidate.score

/-- The higher best score first, then the key. -/
def sortKey (item : Pending σ) : Lex (σᵒᵈ × String) :=
  toLex (OrderDual.toDual (bestScore item), item.key)

/-- The share of `total` pull requests among `developers` people, and the tolerance. -/
def fairShare (total developers tolerance : Nat) : Nat :=
  (total + developers - 1) / developers + tolerance

def assign (r : Roster) (tolerance : Nat) (pending : List (Pending σ)) (held : List String) :
    Option (List (Decision σ)) :=
  if r.developers = [] then some []
  else do
    let loads ← held.foldlM (hold U r) (List.replicate r.developers.length 0)
    place U r (fairShare (loads.sum + pending.length) r.developers.length tolerance) loads
      (pending.mergeSort (byKey sortKey))

/-! ## The order of the inputs -/

variable {U} {r : Roster} {loads : List Nat} {share tolerance : Nat}

theorem hold_comm (loads : List Nat) (a b : String) :
    (hold U r loads a >>= fun l => hold U r l b) = hold U r loads b >>= fun l => hold U r l a := by
  simp only [hold]
  rcases r.index U a with _ | _ | i <;> rcases r.index U b with _ | _ | j <;> try rfl
  refine congrArg some ?_
  refine List.ext_getElem? fun n => ?_
  simp only [List.getElem?_modify]
  split <;> split <;> simp

theorem foldlM_hold_perm {held held' : List String} (h : held.Perm held') (loads : List Nat) :
    held.foldlM (hold U r) loads = held'.foldlM (hold U r) loads := by
  induction h generalizing loads with
  | nil => rfl
  | cons a _ ih =>
    simp only [List.foldlM_cons]
    exact congrArg _ (funext ih)
  | swap a b l =>
    simp only [List.foldlM_cons, ← bind_assoc]
    rw [hold_comm]
  | trans _ _ ih ih' => exact (ih loads).trans (ih' loads)

omit [LinearOrder σ] in
theorem nodup_sortKey {pending : List (Pending σ)} (h : (pending.map Pending.key).Nodup) :
    (pending.map sortKey).Nodup := by
  refine List.Nodup.of_map (fun key => (ofLex key).2) ?_
  rw [List.map_map]
  exact h

/-- The decisions do not depend on the order of the pending list nor on that of the held one. -/
theorem assign_perm (U : CaseProps) (r : Roster) (tolerance : Nat)
    {pending pending' : List (Pending σ)} {held held' : List String}
    (hk : (pending.map Pending.key).Nodup) (hp : pending.Perm pending')
    (hh : held.Perm held') :
    assign U r tolerance pending held = assign U r tolerance pending' held' := by
  unfold assign
  rw [foldlM_hold_perm hh, mergeSort_key_congr (nodup_sortKey hk) hp, hp.length_eq]

/-- Two pull requests and two held ones, each list in both orders. -/
theorem assign_perm_pair :
    assign caseless (Roster.fromDevelopers caseless [Developer.new "amy", Developer.new "bob"]) 0
        [⟨"pr-1", [⟨"amy", 10, .author⟩]⟩, (⟨"pr-2", []⟩ : Pending Nat)] ["amy", "bob"] =
      assign caseless (Roster.fromDevelopers caseless [Developer.new "amy", Developer.new "bob"]) 0
        [⟨"pr-2", []⟩, ⟨"pr-1", [⟨"amy", 10, .author⟩]⟩] ["bob", "amy"] :=
  assign_perm _ _ _ (by decide) (List.Perm.swap _ _ _) (List.Perm.swap _ _ _)

end Balancer

end Claudear.Distribution
