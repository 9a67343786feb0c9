import Claudear.Data.Keyed
import Claudear.Text.Lowercase
import Mathlib.Data.String.Basic

/-!
# The roster

The developers open pull requests can be assigned to, with a position for
every login, alias and slug. `find` answers `none` where the source indexes
past the end of the developers.

`from_entries` inserts an entry's login before it knows whether the entry
stays: a dropped entry leaves its login at the position of the next one kept.
`turns` says of every entry whether it is kept, and `lastWrite` which turn a
key of the finished map comes from.
-/

namespace Claudear.Distribution

open Claudear.Data Claudear.Text

structure Developer where
  login : String
  discordId : Option String
  slackId : Option String
  deriving DecidableEq, Repr

def Developer.new (login : String) : Developer where
  login := login
  discordId := none
  slackId := none

structure Entry where
  developer : Developer
  aliases : List String
  slugs : List String
  deriving DecidableEq, Repr

structure Roster where
  developers : List Developer
  logins : Index String
  slugs : Index String

/-- Every key at the position `index`, in place of what it had. -/
def insertAll (m : Index String) (keys : List String) (index : Nat) : Index String :=
  (keys.map fun key => (key, index)).foldl Index.insert m

theorem insertAll_apply (m : Index String) (keys : List String) (index : Nat) (k : String) :
    insertAll m keys index k = if k ∈ keys then some index else m k := by
  induction keys generalizing m with
  | nil => rfl
  | cons key keys ih =>
    rw [insertAll, List.map_cons, List.foldl_cons]
    refine (ih _).trans ?_
    rw [Index.insert, Function.update_apply]
    by_cases hk : k = key
    · simp [hk]
    · simp [hk]

variable (U : CaseProps)

def Entry.loginKey (e : Entry) : String := toLowercase U e.developer.login

/-- The login and the aliases in lower case: what the entry adds to the lookup map. -/
def Entry.keys (e : Entry) : List String := e.loginKey U :: e.aliases.map (toLowercase U)

namespace Roster

def default : Roster where
  developers := []
  logins := fun _ => none
  slugs := fun _ => none

/-- One turn of the loop of `from_entries`. -/
def add (r : Roster) (e : Entry) : Roster :=
  let index := r.developers.length
  let logins := insertAll r.logins [toLowercase U e.developer.login] index
  if (r.logins (toLowercase U e.developer.login)).isSome then { r with logins }
  else
    { developers := r.developers ++ [e.developer]
      logins := insertAll logins (e.aliases.map (toLowercase U)) index
      slugs := insertAll r.slugs e.slugs index }

/-- `entries.sort_by_key(|entry| entry.developer.login.to_lowercase())` -/
def sorted (entries : List Entry) : List Entry := entries.mergeSort (byKey (Entry.loginKey U))

def fromEntries (entries : List Entry) : Roster := (sorted U entries).foldl (add U) default

/-- The entry that `from_developers` makes of a developer. -/
def developerEntry (developer : Developer) : Entry where
  developer := developer
  aliases := [developer.login]
  slugs := []

def fromDevelopers (developers : List Developer) : Roster :=
  fromEntries U (developers.map developerEntry)

/-- `self.logins.get(..).map(|&index| &self.developers[index])`: `none` is the panic. -/
def find (r : Roster) (login : String) : Option (Option Developer) :=
  match r.logins (toLowercase U (trim login)) with
  | none => some none
  | some index => r.developers[index]?.map some

def bySlug (r : Roster) (slug : String) : Option (Option Developer) :=
  match r.slugs slug with
  | none => some none
  | some index => r.developers[index]?.map some

end Roster

/-! ## The turns of the loop -/

structure Turn where
  entry : Entry
  kept : Bool

/-- The turns over the entries, when `known` are the keys recorded so far. -/
def turns (known : List String) : List Entry → List Turn
  | [] => []
  | e :: rest =>
    if e.loginKey U ∈ known then ⟨e, false⟩ :: turns known rest
    else ⟨e, true⟩ :: turns (known ++ e.keys U) rest

/-- The keys whose position the turn sets. A dropped entry still sets its login's. -/
def Turn.written (t : Turn) : List String :=
  if t.kept then t.entry.keys U else [t.entry.loginKey U]

/-- The entries that are kept. -/
def keptOf (ts : List Turn) : List Entry := (ts.filter Turn.kept).map Turn.entry

/-- The position the last turn that writes the key gives it, when `n` developers are kept before. -/
def lastWrite (n : Nat) : List Turn → String → Option Nat
  | [], _ => none
  | t :: rest, k =>
    (lastWrite (if t.kept then n + 1 else n) rest k).or (if k ∈ t.written U then some n else none)

/-- The slugs of a kept entry replace those before; a dropped entry has none. -/
def lastSlug (n : Nat) : List Turn → String → Option Nat
  | [], _ => none
  | t :: rest, k =>
    if t.kept then (lastSlug (n + 1) rest k).or (if k ∈ t.entry.slugs then some n else none)
    else lastSlug n rest k

variable {U} {ts : List Turn} {t : Turn} {e : Entry} {known : List String} {k : String} {n i : Nat}

@[simp] theorem keptOf_nil : keptOf [] = [] := rfl

@[simp] theorem keptOf_kept : keptOf (⟨e, true⟩ :: ts) = e :: keptOf ts := rfl

@[simp] theorem keptOf_dropped : keptOf (⟨e, false⟩ :: ts) = keptOf ts := rfl

@[simp] theorem written_kept : Turn.written U ⟨e, true⟩ = e.keys U := rfl

@[simp] theorem written_dropped : Turn.written U ⟨e, false⟩ = [e.loginKey U] := rfl

@[simp] theorem lastWrite_kept : lastWrite U n (⟨e, true⟩ :: ts) k =
    (lastWrite U (n + 1) ts k).or (if k ∈ e.keys U then some n else none) := rfl

@[simp] theorem lastWrite_dropped : lastWrite U n (⟨e, false⟩ :: ts) k =
    (lastWrite U n ts k).or (if k = e.loginKey U then some n else none) := by
  simp [lastWrite]

theorem mem_keptOf : e ∈ keptOf ts ↔ ⟨e, true⟩ ∈ ts := by
  induction ts with
  | nil => simp
  | cons t ts ih =>
    obtain ⟨e', _ | _⟩ := t
    · simp [ih]
    · simp [ih]

theorem le_lastWrite (h : lastWrite U n ts k = some i) : n ≤ i := by
  induction ts generalizing n with
  | nil => cases h
  | cons t ts ih =>
    rw [lastWrite, Option.or_eq_some_iff] at h
    rcases h with h | ⟨-, h⟩
    · have := ih h
      split at this <;> omega
    · simp only [Option.ite_none_right_eq_some, Option.some.injEq] at h
      omega

theorem lastWrite_eq_none : lastWrite U n ts k = none ↔ ∀ t ∈ ts, k ∉ t.written U := by
  induction ts generalizing n with
  | nil => simp [lastWrite]
  | cons t ts ih => simp [lastWrite, Option.or_eq_none_iff, ih, and_comm]

/-! ## What the loop builds -/

/-- The lookup map knows the keys of `known`. -/
def Knows (r : Roster) (known : List String) : Prop := ∀ k, (r.logins k).isSome ↔ k ∈ known

theorem add_dropped {r : Roster} (hk : Knows r known) (h : e.loginKey U ∈ known) :
    r.add U e = { r with logins := insertAll r.logins [e.loginKey U] r.developers.length } := by
  rw [Roster.add]
  exact if_pos ((hk _).mpr h)

theorem add_kept {r : Roster} (hk : Knows r known) (h : e.loginKey U ∉ known) :
    r.add U e =
      { developers := r.developers ++ [e.developer]
        logins := insertAll r.logins (e.keys U) r.developers.length
        slugs := insertAll r.slugs e.slugs r.developers.length } := by
  rw [Roster.add]
  exact if_neg fun hs => h ((hk _).mp hs)

theorem Knows.dropped {r : Roster} (hk : Knows r known) (h : e.loginKey U ∈ known) :
    Knows (r.add U e) known := by
  intro k
  rw [add_dropped hk h]
  show (insertAll _ _ _ k).isSome ↔ _
  rw [insertAll_apply]
  split
  · rename_i he
    simp [List.mem_singleton.mp he, h]
  · exact hk k

theorem Knows.kept {r : Roster} (hk : Knows r known) (h : e.loginKey U ∉ known) :
    Knows (r.add U e) (known ++ e.keys U) := by
  intro k
  rw [add_kept hk h]
  show (insertAll _ _ _ k).isSome ↔ _
  rw [insertAll_apply, List.mem_append]
  split
  · rename_i hm
    simp [hm]
  · rename_i hm
    simp [hm, hk k]

theorem foldl_add {r : Roster} (hk : Knows r known) (entries : List Entry) :
    (entries.foldl (Roster.add U) r).developers =
        r.developers ++ (keptOf (turns U known entries)).map Entry.developer ∧
      (∀ k, (entries.foldl (Roster.add U) r).logins k =
        (lastWrite U r.developers.length (turns U known entries) k).or (r.logins k)) ∧
      ∀ k, (entries.foldl (Roster.add U) r).slugs k =
        (lastSlug r.developers.length (turns U known entries) k).or (r.slugs k) := by
  induction entries generalizing r known with
  | nil => simp [turns, lastWrite, lastSlug]
  | cons e entries ih =>
    rw [List.foldl_cons, turns]
    split
    · rename_i h
      obtain ⟨hd, hl, hs⟩ := ih (hk.dropped h)
      rw [add_dropped hk h] at hd hl hs ⊢
      dsimp only at hd hl hs
      refine ⟨hd, fun k => ?_, hs⟩
      rw [hl, lastWrite_dropped, Option.or_assoc, insertAll_apply]
      congr 1
      simp only [List.mem_singleton]
      split <;> rfl
    · rename_i h
      obtain ⟨hd, hl, hs⟩ := ih (hk.kept h)
      rw [add_kept hk h] at hd hl hs ⊢
      dsimp only at hd hl hs
      simp only [List.length_append, List.length_singleton] at hl hs
      refine ⟨?_, fun k => ?_, fun k => ?_⟩
      · rw [hd, keptOf_kept, List.map_cons, List.append_assoc, List.singleton_append]
      · rw [hl, lastWrite_kept, Option.or_assoc, insertAll_apply]
        congr 1
        split <;> rfl
      · rw [hs, lastSlug, if_pos rfl, Option.or_assoc, insertAll_apply]
        congr 1
        split <;> rfl

variable (U) in
/-- The turns of `from_entries`. -/
def turnsOf (entries : List Entry) : List Turn := turns U [] (Roster.sorted U entries)

variable (U) in
/-- The entries whose developers are on the roster, in its order. -/
def owners (entries : List Entry) : List Entry := keptOf (turnsOf U entries)

theorem fromEntries_spec (entries : List Entry) :
    (Roster.fromEntries U entries).developers = (owners U entries).map Entry.developer ∧
      (∀ k, (Roster.fromEntries U entries).logins k = lastWrite U 0 (turnsOf U entries) k) ∧
      ∀ k, (Roster.fromEntries U entries).slugs k = lastSlug 0 (turnsOf U entries) k := by
  have hk : Knows Roster.default [] := by simp [Knows, Roster.default]
  obtain ⟨hd, hl, hs⟩ := foldl_add (U := U) hk (Roster.sorted U entries)
  exact ⟨hd, fun k => (hl k).trans (Option.or_none), fun k => (hs k).trans (Option.or_none)⟩

end Claudear.Distribution
