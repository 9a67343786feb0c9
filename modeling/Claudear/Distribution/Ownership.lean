import Claudear.Data.Tally
import Claudear.Distribution.RosterLookups
import Mathlib.Algebra.BigOperators.Ring.List
import Mathlib.Data.Prod.Lex
import Mathlib.Tactic.FieldSimp
import Mathlib.Tactic.Linarith
import Mathlib.Tactic.NormNum
import Mathlib.Tactic.Positivity
import Mathlib.Tactic.Ring

/-!
# Who owns a pull request

Every signal credits developers with a share of its weight, and the candidates
are sorted by their total. The scores are exact. The order in which the hash
map of points gives its entries is that of any permutation of them.

Requesters are told apart by their login in lower case, so a developer who is
listed under two logins is credited for both positions. Code owners are
resolved on the roster first.
-/

namespace Claudear.Distribution

open Claudear.Data Claudear.Text

inductive AssignmentReason where
  | requester | codeOwner | author | activity | load
  deriving DecidableEq, Repr

def REQUESTER_WEIGHT : ℚ := 100
def CODE_OWNER_WEIGHT : ℚ := 40
def AUTHOR_WEIGHT : ℚ := 20
def ACTIVITY_WEIGHT : ℚ := 5

/-- In order of strength, so ties go to the stronger one. -/
def SIGNALS : List AssignmentReason := [.requester, .codeOwner, .author, .activity]

/-- The weight of a signal. -/
def AssignmentReason.weight : AssignmentReason → ℚ
  | .requester => REQUESTER_WEIGHT
  | .codeOwner => CODE_OWNER_WEIGHT
  | .author => AUTHOR_WEIGHT
  | .activity => ACTIVITY_WEIGHT
  | .load => 0

/-- `codeowners` gives the owners of a path. -/
structure Evidence where
  requesters : List String
  files : List String
  codeowners : Option (String → List String)
  fileAuthors : List String
  repositoryAuthors : List String

structure Candidate (σ : Type*) where
  login : String
  score : σ
  reason : AssignmentReason
  deriving DecidableEq, Repr

/-- The points of every developer credited, for each of `SIGNALS`. -/
abbrev Points := Tally String AssignmentReason ℚ

abbrev Award := String × AssignmentReason × ℚ

/-- Every key once, where it comes first. -/
def distinct (keys : List String) : List String :=
  keys.foldl (fun seen key => if key ∈ seen then seen else seen ++ [key]) []

variable (U : CaseProps)

/-- The closure `award`: credits the developer with this login, if there is one. -/
def Roster.award (r : Roster) (points : Points) (a : Award) : Option Points :=
  match r.find U a.1 with
  | none => none
  | some none => some points
  | some (some developer) => some (Tally.credit points (developer.login, a.2))

/-- A code owner's login on the roster, or else as it is written, in lower case. -/
def Roster.ownerKey (r : Roster) (owner : String) : Option String :=
  match r.find U owner with
  | none => none
  | some none => some (toLowercase U owner)
  | some (some developer) => some developer.login

def Roster.ownerKeys (r : Roster) (owners : List String) : Option (List String) :=
  (owners.mapM (r.ownerKey U)).map distinct

namespace Evidence

def requesterKeys (E : Evidence) : List String := distinct (E.requesters.map (toLowercase U))

def requesterAwards (E : Evidence) : List Award :=
  (E.requesterKeys U).zipIdx.map fun p => (p.1, .requester, REQUESTER_WEIGHT / (p.2 + 1))

/-- The keys of every file's owners, file by file. -/
def fileOwners (E : Evidence) (r : Roster) : Option (List (List String)) :=
  match E.codeowners with
  | none => some []
  | some owners => E.files.mapM fun file => r.ownerKeys U (owners file)

def authorAwards (authors : List String) (signal : AssignmentReason) (weight : ℚ) : List Award :=
  authors.map fun author => (author, signal, weight / max authors.length 1)

def awards (E : Evidence) (owned : List (List String)) : List Award :=
  E.requesterAwards U ++
    owned.flatten.map (fun key => (key, .codeOwner, CODE_OWNER_WEIGHT / max E.files.length 1)) ++
    authorAwards E.fileAuthors .author AUTHOR_WEIGHT ++
    authorAwards E.repositoryAuthors .activity ACTIVITY_WEIGHT

def points (E : Evidence) (r : Roster) : Option Points := do
  let owned ← E.fileOwners U r
  (E.awards U owned).foldlM (r.award U) []

end Evidence

/-- The signal that contributes most. -/
def strongest (signals : AssignmentReason → ℚ) : AssignmentReason :=
  SIGNALS.foldl (fun strongest signal =>
    if signals signal > signals strongest then signal else strongest) .requester

def score (signals : AssignmentReason → ℚ) : ℚ := (SIGNALS.map signals).sum

def candidate (entry : String × (AssignmentReason → ℚ)) : Candidate ℚ where
  login := entry.1
  score := score entry.2
  reason := strongest entry.2

/-- The higher score first, then the login in lower case. -/
def rankKey (c : Candidate ℚ) : Lex (ℚᵒᵈ × String) :=
  toLex (OrderDual.toDual c.score, toLowercase U c.login)

/-- The candidates, from the points in the order in which the hash map gives them. -/
def ranking (points : Points) : List (Candidate ℚ) :=
  ((points.map candidate).filter fun c => 0 < c.score).mergeSort (byKey (rankKey U))

def Evidence.rank (E : Evidence) (r : Roster) : Option (List (Candidate ℚ)) :=
  (E.points U r).map (ranking U)

/-! ## The columns of the points -/

variable {U} {r : Roster} {E : Evidence} {pts : Points} {login k : String}
  {signal s : AssignmentReason}

variable (U) in
/-- The login of the developer found under `login`. -/
def Roster.given (r : Roster) (login : String) : Option String :=
  (r.find U login).join.map Developer.login

variable (U) in
/-- What an award credits. -/
def Roster.credited (r : Roster) (a : Award) : Option (String × AssignmentReason × ℚ) :=
  (r.given U a.1).map fun login => (login, a.2)

theorem award_of_found {a : Award} (h : r.find U a.1 ≠ none) :
    r.award U pts a = some ((r.credited U a).toList.foldl Tally.credit pts) := by
  unfold Roster.award Roster.credited Roster.given
  rcases hf : r.find U a.1 with _ | _ | d
  · exact absurd hf h
  · rfl
  · rfl

theorem foldlM_award (awards : List Award) :
    awards.foldlM (r.award U) pts =
      if ∀ a ∈ awards, r.find U a.1 ≠ none then
        some ((awards.filterMap (r.credited U)).foldl Tally.credit pts)
      else none := by
  induction awards generalizing pts with
  | nil => simp
  | cons a awards ih =>
    rw [List.foldlM_cons]
    by_cases h : r.find U a.1 = none
    · rw [if_neg fun hall => hall a List.mem_cons_self h, Roster.award, h]
      rfl
    · rw [award_of_found h]
      refine (ih ..).trans ?_
      simp only [List.forall_mem_cons, h, ne_eq, not_false_eq_true, true_and, List.filterMap_cons]
      cases r.credited U a with
      | none => rfl
      | some p => rfl

variable (U) in
/-- What the awards give the login in one column. -/
def column (r : Roster) (awards : List Award) (login : String) (signal : AssignmentReason) : ℚ :=
  (((awards.filterMap (r.credited U)).filter fun p => login = p.1 ∧ signal = p.2.1).map
    fun p => p.2.2).sum

theorem column_append (a b : List Award) :
    column U r (a ++ b) login signal = column U r a login signal + column U r b login signal := by
  simp [column]

/-- Awards of one signal. -/
theorem column_map {α : Type*} (l : List α) (f : α → String) (v : α → ℚ) :
    column U r (l.map fun x => (f x, s, v x)) login signal =
      if signal = s then ((l.filter fun x => r.given U (f x) = some login).map v).sum else 0 := by
  unfold column
  induction l with
  | nil => simp
  | cons x l ih =>
    rw [List.map_cons, List.filterMap_cons, Roster.credited]
    cases hg : r.given U (f x) with
    | none => simpa [hg] using ih
    | some d =>
      by_cases hs : signal = s
      · by_cases hd : login = d
        · simpa [hg, hs, hd] using ih
        · simpa [hg, hs, hd, Ne.symm hd] using ih
      · simpa [hg, hs] using ih

theorem column_map_const {α : Type*} (l : List α) (f : α → String) (v : ℚ) :
    column U r (l.map fun x => (f x, s, v)) login signal =
      if signal = s then (l.countP fun x => r.given U (f x) = some login) * v else 0 := by
  rw [column_map, List.map_const', List.sum_replicate, nsmul_eq_mul, List.countP_eq_length_filter]

variable (U) in
/-- The positions at which the requesters name the login, each with its share. -/
def requested (r : Roster) (E : Evidence) (login : String) : ℚ :=
  (((E.requesterKeys U).zipIdx.filter fun p => r.given U p.1 = some login).map
    fun p => 1 / ((p.2 : ℚ) + 1)).sum

variable (U) in
/-- How often the owners of the files are found to be the login's developer. -/
def owns (r : Roster) (owned : List (List String)) (login : String) : ℕ :=
  owned.flatten.countP fun key => r.given U key = some login

/-- The shares of `authors` that are the login's developer. -/
def authored (U : CaseProps) (r : Roster) (authors : List String) (login : String) : ℚ :=
  (authors.countP fun author => r.given U author = some login) / max authors.length 1

theorem column_awards (owned : List (List String)) :
    column U r (E.awards U owned) login signal =
      match signal with
      | .requester => REQUESTER_WEIGHT * requested U r E login
      | .codeOwner => CODE_OWNER_WEIGHT * (owns U r owned login / max E.files.length 1)
      | .author => AUTHOR_WEIGHT * authored U r E.fileAuthors login
      | .activity => ACTIVITY_WEIGHT * authored U r E.repositoryAuthors login
      | .load => 0 := by
  have hreq : (((E.requesterKeys U).zipIdx.filter fun p => r.given U p.1 = some login).map
      fun p => REQUESTER_WEIGHT / ((p.2 : ℚ) + 1)).sum = REQUESTER_WEIGHT * requested U r E login := by
    rw [requested, ← List.sum_map_mul_left]
    simp only [mul_one_div]
  rw [Evidence.awards, column_append, column_append, column_append, Evidence.requesterAwards,
    Evidence.authorAwards, Evidence.authorAwards, column_map, column_map_const, column_map_const,
    column_map_const, hreq]
  cases signal with
  | requester => simp
  | load => simp
  | _ =>
    simp only [owns, authored, reduceCtorEq, if_true, if_false, zero_add, add_zero, Nat.cast_max]
    ring

end Claudear.Distribution
