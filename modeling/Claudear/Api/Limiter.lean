import Claudear.Data.Dict
import Claudear.Machine.Run
import Mathlib.Data.List.Dedup

/-!
# Rate limits of the API

A `Limiter` keeps, for each key, the times of its accepted attempts. `allow`
drops the ones that left the window, accepts when there is room, and then drops
what no other key needs any more; when too many keys are left, those that were
used least recently go. `Book` is the map beside a log of everything that was
accepted, which the map is measured against: while the keys that matter fit,
`allow` counts exactly what the log has in the window (`limits_kept`).
-/

namespace Claudear.Api

open Claudear.Data Claudear.Machine

/-- Nanoseconds of a clock that never goes back. -/
abbrev Instant := Nat

def second : Nat := 1000000000

def CAPACITY : Nat := 10000

structure Limiter where
  name : String
  attempts : Nat
  window : Nat
  /-- No limiter is built with a limit of 0. -/
  positive : 0 < attempts := by decide

namespace Limiter

variable {Key : Type} [DecidableEq Key] (l : Limiter) (order : HashOrder Key (List Instant))

/-- `now.duration_since(attempt) < self.window` -/
def live (now attempt : Instant) : Bool := now - attempt < l.window

/-- Take out the keys whose last attempt is the oldest, down to the capacity. -/
def evict (entries : Dict Key (List Instant)) : Dict Key (List Instant) :=
  let recent := (order.order entries.items).filterMap fun e => e.2.getLast?.map fun last => (e.1, last)
  let recent := recent.mergeSort fun a b => a.2 ≤ b.2
  let excess := entries.size - CAPACITY
  (recent.take excess).foldl (fun entries stale => entries.erase stale.1) entries

def allow (now : Instant) (key : Key) (entries : Dict Key (List Instant)) :
    Bool × Dict Key (List Instant) :=
  let attempts := ((entries.get key).getD []).filter (l.live now)
  if l.attempts ≤ attempts.length then (false, entries.set key attempts)
  else
    let entries := (entries.set key (attempts ++ [now])).retain fun e => e.2.any (l.live now)
    if CAPACITY < entries.size then (true, evict order entries) else (true, entries)

def exhausted (now : Instant) (key : Key) (entries : Dict Key (List Instant)) : Bool :=
  (entries.get key).any fun attempts => l.attempts ≤ (attempts.filter (l.live now)).length

variable {l order} {now now' : Instant} {key k : Key} {entries : Dict Key (List Instant)}

/-- What the window still holds of the attempts of `key`. -/
def kept (l : Limiter) (now : Instant) (key : Key) (entries : Dict Key (List Instant)) : List Instant :=
  ((entries.get key).getD []).filter (l.live now)

theorem allow_eq_true : (l.allow order now key entries).1 = true ↔ (l.kept now key entries).length < l.attempts := by
  rw [allow, ← kept]
  split
  · rename_i h
    exact iff_of_false Bool.false_ne_true (Nat.not_lt.mpr h)
  · rename_i h
    refine iff_of_true ?_ (Nat.not_le.mp h)
    dsimp only
    split <;> rfl

/-- `exhausted` foretells what `allow` answers at that instant. -/
theorem exhausted_eq : l.exhausted now key entries = !(l.allow order now key entries).1 := by
  have h : l.exhausted now key entries = decide (l.attempts ≤ (l.kept now key entries).length) := by
    rw [exhausted, kept]
    cases entries.get key with
    | none => simpa using Nat.ne_of_gt l.positive
    | some attempts => rfl
  rw [h, Bool.eq_iff_iff, decide_eq_true_iff, Bool.not_eq_true', ← Bool.not_eq_true, allow_eq_true, Nat.not_lt]

/-- The entries before any is evicted. -/
def trimmed (l : Limiter) (now : Instant) (key : Key) (entries : Dict Key (List Instant)) :
    Dict Key (List Instant) :=
  (entries.set key (l.kept now key entries ++ [now])).retain fun e => e.2.any (l.live now)

theorem kept_set {v : List Instant} :
    l.kept now k (entries.set key v) = if k = key then v.filter (l.live now) else l.kept now k entries := by
  rw [kept, Dict.get_set]
  split <;> rfl

/-- Entries without a live attempt do not count. -/
theorem kept_retain : l.kept now k (entries.retain fun e => e.2.any (l.live now)) = l.kept now k entries := by
  rw [kept, Dict.get_retain, kept]
  cases entries.get k with
  | none => rfl
  | some v =>
    cases h : v.any (l.live now) with
    | true => simp only [Option.filter_some, h, if_true]
    | false =>
      simp only [Option.filter_some, h, Bool.false_eq_true, if_false]
      exact (List.filter_eq_nil_iff.mpr fun a ha => List.any_eq_false.mp h a ha).symm

theorem kept_trimmed : l.kept now k (l.trimmed now key entries) =
    if k = key then (l.kept now key entries ++ [now]).filter (l.live now) else l.kept now k entries := by
  rw [trimmed, kept_retain, kept_set]

theorem kept_ne_nil_of_trimmed {e : Key × List Instant} (he : e ∈ (l.trimmed now key entries).items) :
    l.kept now e.1 (l.trimmed now key entries) ≠ [] := by
  obtain ⟨a, ha, hlive⟩ := List.any_eq_true.mp (List.mem_filter.mp he).2
  rw [kept, Dict.get_eq_some.mpr he]
  exact List.ne_nil_of_mem (List.mem_filter.mpr ⟨ha, hlive⟩)

theorem allow_of_full (h : l.attempts ≤ (l.kept now key entries).length) :
    l.allow order now key entries = (false, entries.set key (l.kept now key entries)) := if_pos h

theorem allow_of_room (h : (l.kept now key entries).length < l.attempts)
    (hfits : (l.trimmed now key entries).size ≤ CAPACITY) :
    l.allow order now key entries = (true, l.trimmed now key entries) :=
  (if_neg (Nat.not_le.mpr h)).trans (if_neg (Nat.not_lt.mpr hfits))

/-! ### The number of keys -/

theorem size_evict (h : ∀ e ∈ entries.items, e.2 ≠ []) (hc : CAPACITY ≤ entries.size) :
    (evict order entries).size = CAPACITY := by
  unfold evict
  dsimp only
  generalize hr : (order.order entries.items).filterMap
    (fun e => e.2.getLast?.map fun last => (e.1, last)) = recent
  have hkeys : (recent.map Prod.fst).Perm (entries.items.map Prod.fst) := by
    have hmap : recent.map Prod.fst = (order.order entries.items).map Prod.fst := by
      have hall : ∀ e ∈ order.order entries.items, e.2 ≠ [] := fun e he => h e ((order.perm _).mem_iff.mp he)
      rw [← hr]
      generalize order.order entries.items = items at hall
      induction items with
      | nil => rfl
      | cons e items ih =>
        obtain ⟨hne, hall⟩ := List.forall_mem_cons.mp hall
        rw [List.filterMap_cons, List.getLast?_eq_some_getLast hne]
        exact congrArg (e.1 :: ·) (ih hall)
    rw [hmap]
    exact (order.perm _).map _
  have hsorted : ((recent.mergeSort fun a b => a.2 ≤ b.2).map Prod.fst).Perm (entries.items.map Prod.fst) :=
    ((List.mergeSort_perm _ _).map _).trans hkeys
  generalize (recent.mergeSort fun a b => a.2 ≤ b.2) = sorted at hsorted
  have hlength : sorted.length = entries.size := by simpa [Dict.size] using hsorted.length_eq
  have hsub : ((sorted.take (entries.size - CAPACITY)).map Prod.fst).Sublist (sorted.map Prod.fst) :=
    (List.take_sublist _ _).map _
  have hsize := Dict.size_eraseAll ((hsorted.nodup_iff.mpr entries.nodup).sublist hsub) fun k hk => by
    obtain ⟨e, he, rfl⟩ := List.mem_map.mp (hsorted.mem_iff.mp (hsub.subset hk))
    exact Option.isSome_iff_exists.mpr ⟨e.2, Dict.get_eq_some.mpr he⟩
  rw [List.foldl_map, List.length_map, List.length_take, hlength] at hsize
  omega

theorem size_trimmed (h : ∀ e ∈ entries.items, e.2 ≠ []) :
    (if CAPACITY < entries.size then (true, evict order entries) else (true, entries)).2.size ≤ CAPACITY := by
  by_cases hover : CAPACITY < entries.size
  · rw [if_pos hover]
    have hsize := @size_evict _ _ order _ h (by omega)
    dsimp only
    exact Nat.le_of_eq hsize
  · rw [if_neg hover]
    exact Nat.not_lt.mp hover

theorem size_allow (h : entries.size ≤ CAPACITY) : (l.allow order now key entries).2.size ≤ CAPACITY := by
  rw [allow, ← kept]
  split
  · rename_i hfull
    have hsome : (entries.get key).isSome = true := by
      cases hg : entries.get key with
      | none =>
        rw [kept, hg] at hfull
        exact absurd l.positive (Nat.not_lt.mpr hfull)
      | some attempts => rfl
    exact Nat.le_trans (Nat.le_of_eq (Dict.size_set hsome)) h
  · refine size_trimmed fun e he hnil => ?_
    have hlive := (List.mem_filter.mp he).2
    rw [hnil] at hlive
    cases hlive

end Limiter

/-! ## The limiters of a router -/

def LOGIN_WINDOW : Nat := 300 * second

def ADDRESS_WINDOW : Nat := 300 * second

def API_WINDOW : Nat := 60 * second

def login : Limiter := { name := "login", attempts := 10, window := LOGIN_WINDOW }

def address : Limiter := { name := "address", attempts := 100, window := ADDRESS_WINDOW }

def invite : Limiter := { name := "invite", attempts := 100, window := ADDRESS_WINDOW }

def bearer : Limiter := { name := "bearer", attempts := 100, window := ADDRESS_WINDOW }

def api : Limiter := { name := "api", attempts := 30, window := API_WINDOW }

/-! ## Runs -/

inductive Call (Key : Type) where
  | allow (now : Instant) (key : Key)
  | exhausted (now : Instant) (key : Key)

def Call.now {Key : Type} : Call Key → Instant
  | .allow now _ => now
  | .exhausted now _ => now

/-- The map, the accepted attempts, and the time of the last call. -/
structure Book (Key : Type) where
  entries : Dict Key (List Instant)
  accepted : List (Key × Instant)
  now : Instant

namespace Book

variable {Key : Type} [DecidableEq Key] (l : Limiter) (order : HashOrder Key (List Instant))

def initial (now : Instant) : Book Key := ⟨.empty, [], now⟩

def step (s : Book Key) : Call Key → Book Key
  | .allow now key =>
    let (answer, entries) := l.allow order now key s.entries
    { entries, accepted := if answer then s.accepted ++ [(key, now)] else s.accepted, now }
  | .exhausted now _ => { s with now }

/-- The accepted attempts of `key`. -/
def attemptsOf (s : Book Key) (key : Key) : List Instant :=
  (s.accepted.filter fun a => a.1 = key).map Prod.snd

/-- How many attempts of `key` were accepted in the window before `now`. -/
def count (s : Book Key) (now : Instant) (key : Key) : Nat :=
  s.accepted.countP fun a => a.1 = key ∧ now - a.2 < l.window

/-- The keys with an accepted attempt in the window before `now`. -/
def busy (s : Book Key) (now : Instant) : List Key :=
  ((s.accepted.filter fun a => now - a.2 < l.window).map Prod.fst).dedup

/-- A call does not come before the last one. -/
def Timely (s : Book Key) (c : Call Key) : Prop := s.now ≤ c.now

/-- After the call, the busy keys fit into the map. -/
def Fits (s : Book Key) (c : Call Key) : Prop := ((s.step l order c).busy l c.now).length ≤ CAPACITY

variable {l order} {s : Book Key} {c : Call Key} {key k : Key} {now now' : Instant} {as bs : List Instant}

/-! ### What is in the window -/

omit [DecidableEq Key] in
/-- What has left the window stays out of it. -/
theorem filter_live_of_le (h : as.filter (l.live now) = bs.filter (l.live now)) (hle : now ≤ now') :
    as.filter (l.live now') = bs.filter (l.live now') := by
  have hmono : ∀ as : List Instant, as.filter (l.live now') = (as.filter (l.live now)).filter (l.live now') := by
    intro as
    rw [List.filter_filter]
    refine List.filter_congr fun a _ => ?_
    rw [Bool.eq_iff_iff, Bool.and_eq_true]
    refine (and_iff_left_of_imp fun h => ?_).symm
    exact decide_eq_true (Nat.lt_of_le_of_lt (Nat.sub_le_sub_right hle a) (of_decide_eq_true h))
  rw [hmono as, hmono bs, h]

theorem count_eq : s.count l now key = ((s.attemptsOf key).filter (l.live now)).length := by
  rw [count, attemptsOf, List.filter_map, List.length_map, List.filter_filter, List.countP_eq_length_filter]
  congr 2
  funext a
  simp [Limiter.live, Bool.and_comm]

theorem mem_busy : k ∈ s.busy l now ↔ (s.attemptsOf k).filter (l.live now) ≠ [] := by
  rw [busy, List.mem_dedup, List.mem_map, Ne, List.filter_eq_nil_iff, not_forall]
  constructor
  · rintro ⟨a, ha, rfl⟩
    obtain ⟨ha, hlive⟩ := List.mem_filter.mp ha
    exact ⟨a.2, fun h => h (List.mem_map.mpr ⟨a, List.mem_filter.mpr ⟨ha, decide_eq_true rfl⟩, rfl⟩) hlive⟩
  · rintro ⟨t, ht⟩
    rw [Classical.not_imp, not_not] at ht
    obtain ⟨a, ha, rfl⟩ := List.mem_map.mp ht.1
    obtain ⟨ha, hk⟩ := List.mem_filter.mp ha
    exact ⟨a, List.mem_filter.mpr ⟨ha, ht.2⟩, of_decide_eq_true hk⟩

/-! ### The map and the log -/

/-- The map has of every key what the log has in the window. -/
def Agrees (l : Limiter) (s : Book Key) : Prop :=
  ∀ key, l.kept s.now key s.entries = (s.attemptsOf key).filter (l.live s.now)

theorem Agrees.at_later (h : s.Agrees l) (hle : s.now ≤ now) :
    l.kept now key s.entries = (s.attemptsOf key).filter (l.live now) :=
  filter_live_of_le (h key) hle

omit [DecidableEq Key] in
theorem filter_kept_append (h : as = bs.filter (l.live now)) (xs : List Instant) :
    (as ++ xs).filter (l.live now) = (bs ++ xs).filter (l.live now) := by
  rw [List.filter_append, List.filter_append, h, List.filter_filter]
  simp only [Bool.and_self]

theorem attemptsOf_accept {entries : Dict Key (List Instant)} :
    (⟨entries, s.accepted ++ [(key, now)], now⟩ : Book Key).attemptsOf k =
      s.attemptsOf k ++ if k = key then [now] else [] := by
  rw [attemptsOf, attemptsOf, List.filter_append, List.map_append]
  by_cases h : k = key
  · rw [if_pos h, List.filter_cons_of_pos (by simpa using h.symm)]
    rfl
  · rw [if_neg h, List.filter_cons_of_neg (by simpa using Ne.symm h)]
    rfl

theorem Agrees.step (h : s.Agrees l) (ht : s.Timely c) (hf : s.Fits l order c) : (s.step l order c).Agrees l := by
  cases c with
  | exhausted now key => exact fun k => h.at_later ht
  | allow now key =>
    have hkept : ∀ k, l.kept now k s.entries = (s.attemptsOf k).filter (l.live now) := fun k => h.at_later ht
    rcases Nat.lt_or_ge (l.kept now key s.entries).length l.attempts with hroom | hfull
    · have hlog : ∀ entries : Dict Key (List Instant), ∀ k, l.kept now k (l.trimmed now key s.entries) =
          ((⟨entries, s.accepted ++ [(key, now)], now⟩ : Book Key).attemptsOf k).filter (l.live now) := by
        intro entries k
        rw [Limiter.kept_trimmed, attemptsOf_accept]
        split
        · rename_i hk
          rw [hk]
          exact filter_kept_append (hkept key) _
        · rw [List.append_nil]
          exact hkept k
      have hanswer : (l.allow order now key s.entries).1 = true := Limiter.allow_eq_true.mpr hroom
      have hfits : (l.trimmed now key s.entries).size ≤ CAPACITY := by
        refine Nat.le_trans (Dict.size_le_of_keys fun e he => ?_) hf
        rw [mem_busy, Book.step]
        dsimp only
        rw [if_pos hanswer]
        exact hlog _ e.1 ▸ Limiter.kept_ne_nil_of_trimmed he
      intro k
      rw [Book.step, Limiter.allow_of_room hroom hfits]
      exact hlog _ k
    · intro k
      rw [Book.step, Limiter.allow_of_full hfull]
      show l.kept now k (s.entries.set key _) = (s.attemptsOf k).filter (l.live now)
      rw [Limiter.kept_set]
      split
      · rename_i hk
        have hnil := filter_kept_append (hkept key) []
        rw [List.append_nil, List.append_nil] at hnil
        rw [hk, hnil]
      · exact hkept k

/-- The map never tracks too many keys, whatever the calls. -/
theorem size_run (now : Instant) (calls : List (Call Key)) :
    (run (step l order) (initial now) calls).entries.size ≤ CAPACITY := by
  refine run_inv (P := fun s : Book Key => s.entries.size ≤ CAPACITY) (fun s c h => ?_) (Nat.zero_le _) calls
  cases c with
  | allow now key => exact Limiter.size_allow h
  | exhausted now key => exact h

/-- Where the keys fit, an attempt is accepted exactly when fewer than the limit were accepted in the
window before it. -/
theorem allow_iff {start : Instant} {calls : List (Call Key)}
    (hc : Along (step l order) (fun s c => s.Timely c ∧ s.Fits l order c) (initial start) calls)
    (hle : (run (step l order) (initial start) calls).now ≤ now) :
    (l.allow order now key (run (step l order) (initial start) calls).entries).1 = true ↔
      (run (step l order) (initial start) calls).count l now key < l.attempts := by
  have hagrees : (run (step l order) (initial start) calls).Agrees l :=
    hc.inv (P := fun s => s.Agrees l) (fun s c h hs => h.step hs.1 hs.2) fun _ => rfl
  rw [Limiter.allow_eq_true, hagrees.at_later hle, count_eq]

/-- Both kinds of calls are answered right. -/
structure AnswersRight (l : Limiter) (order : HashOrder Key (List Instant)) (s : Book Key) : Prop where
  exhausted : ∀ now key, l.exhausted now key s.entries = true ↔ (l.allow order now key s.entries).1 = false
  allow : ∀ now key, s.now ≤ now →
    ((l.allow order now key s.entries).1 = true ↔ s.count l now key < l.attempts)

theorem limits_kept (l : Limiter) (order : HashOrder Key (List Instant)) (start : Instant)
    (calls : List (Call Key)) :
    (run (step l order) (initial start) calls).entries.size ≤ CAPACITY ∧
      (Along (step l order) (fun s c => s.Timely c ∧ s.Fits l order c) (initial start) calls →
        AnswersRight l order (run (step l order) (initial start) calls)) :=
  ⟨size_run start calls, fun hc => {
    exhausted := fun now key => by rw [Limiter.exhausted_eq, Bool.not_eq_true']
    allow := fun _ _ hle => allow_iff hc hle }⟩

/-- A user's first two writes. -/
theorem limits_kept_user :
    AnswersRight api ⟨id, fun _ => .refl _⟩ (run (step api ⟨id, fun _ => .refl _⟩) (initial 0)
      [.allow second (7 : Int), .allow (2 * second) 7]) := by
  refine (limits_kept api _ 0 _).2 ⟨⟨Nat.zero_le _, ?_⟩, ⟨?_, ?_⟩, trivial⟩
  · unfold Fits
    decide
  · unfold Timely
    decide
  · unfold Fits
    decide

end Book

end Claudear.Api
