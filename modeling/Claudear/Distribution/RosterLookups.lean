import Claudear.Distribution.Roster

/-!
# Finding a developer by a handle

A roster represents its entries when every recorded key is at the position of
an entry that lists it. `from_entries` records the login of an entry that it
then drops at the position of the next one, which does not list it, or past the
end of the list. So the roster represents its entries exactly when every
dropped login is taken again by a later entry that is kept, and no later turn
takes the login of a kept one (`from_entries_represents_iff`).
-/

namespace Claudear.Distribution

open Claudear.Text

variable (U : CaseProps)

/-- What `find` looks up for the entry's own login. -/
def Entry.lookupKey (e : Entry) : String := toLowercase U (trim e.developer.login)

/-- Every recorded handle is that of the developer it leads to. -/
structure Represents (owners : List Entry) (r : Roster) : Prop where
  developers : r.developers = owners.map Entry.developer
  logins : ∀ k i, r.logins k = some i → ∃ e, owners[i]? = some e ∧ k ∈ e.keys U
  slugs : ∀ k i, r.slugs k = some i → ∃ e, owners[i]? = some e ∧ k ∈ e.slugs
  find_total : ∀ login, r.find U login ≠ none
  find_own : ∀ d ∈ r.developers, r.find U d.login = some (some d)

/-- A dropped login is taken again by an entry that is kept; the lookup key of a kept entry is one
of its keys and no later turn writes it. -/
def Consistent : List Turn → Prop
  | [] => True
  | t :: later =>
    (if t.kept then t.entry.lookupKey U ∈ t.entry.keys U ∧
        ∀ f ∈ later, t.entry.lookupKey U ∉ f.written U
      else ∃ e ∈ keptOf later, t.entry.loginKey U ∈ e.keys U) ∧ Consistent later

variable {U} {ts : List Turn} {t : Turn} {e : Entry} {known : List String} {k : String} {n i : Nat}

/-! ## Keys at their owners -/

variable (U) in
/-- The keys that the turns write lead to the entries kept, of which the first is at `n`. -/
def Owned (n : Nat) (ts : List Turn) : Prop :=
  ∀ k i, lastWrite U n ts k = some i → ∃ e, (keptOf ts)[i - n]? = some e ∧ k ∈ e.keys U

theorem owned_kept : Owned U n (⟨e, true⟩ :: ts) ↔ Owned U (n + 1) ts := by
  constructor
  · intro h k i hi
    have hle := le_lastWrite hi
    obtain ⟨f, hf, hk⟩ := h k i (by rw [lastWrite_kept, hi, Option.some_or])
    rw [keptOf_kept, show i - n = i - (n + 1) + 1 by omega, List.getElem?_cons_succ] at hf
    exact ⟨f, hf, hk⟩
  · intro h k i hi
    rw [lastWrite_kept, Option.or_eq_some_iff] at hi
    rcases hi with hi | ⟨-, hi⟩
    · have hle := le_lastWrite hi
      obtain ⟨f, hf, hk⟩ := h k i hi
      refine ⟨f, ?_, hk⟩
      rw [keptOf_kept, show i - n = i - (n + 1) + 1 by omega, List.getElem?_cons_succ]
      exact hf
    · split at hi
      · rename_i hk
        cases hi
        exact ⟨e, by simp, hk⟩
      · cases hi

/-- The entry after a dropped one does not list its login, or else the login is written again. -/
theorem owned_dropped : Owned U n (⟨e, false⟩ :: ts) ↔
    (∃ f ∈ keptOf ts, e.loginKey U ∈ f.keys U) ∧ Owned U n ts := by
  have written {f : Entry} {k : String} (hf : f ∈ keptOf ts) (hk : k ∈ f.keys U) :
      lastWrite U n ts k ≠ none := fun hn =>
    lastWrite_eq_none.mp hn _ (mem_keptOf.mp hf) hk
  constructor
  · intro h
    have hrest : Owned U n ts := fun k i hi => h k i (by rw [lastWrite_dropped, hi, Option.some_or])
    refine ⟨?_, hrest⟩
    cases hl : lastWrite U n ts (e.loginKey U) with
    | some i =>
      obtain ⟨f, hf, hk⟩ := hrest _ i hl
      exact ⟨f, List.mem_of_getElem? hf, hk⟩
    | none =>
      obtain ⟨f, hf, hk⟩ := h (e.loginKey U) n (by simp [hl])
      exact ⟨f, List.mem_of_getElem? hf, hk⟩
  · rintro ⟨⟨f, hf, hfk⟩, h⟩ k i hi
    rw [lastWrite_dropped, Option.or_eq_some_iff] at hi
    rcases hi with hi | ⟨hn, hi⟩
    · exact h k i hi
    · split at hi
      · rename_i hk
        exact absurd hn (written hf (hk ▸ hfk))
      · cases hi

/-! ## Developers at their own logins -/

variable (U) in
/-- The lookup key of every entry kept leads to that entry. -/
def FoundOwn (n : Nat) (ts : List Turn) : Prop :=
  ∀ i e, (keptOf ts)[i]? = some e → lastWrite U n ts (e.lookupKey U) = some (n + i)

theorem foundOwn_kept : FoundOwn U n (⟨e, true⟩ :: ts) ↔
    (e.lookupKey U ∈ e.keys U ∧ ∀ f ∈ ts, e.lookupKey U ∉ f.written U) ∧
      FoundOwn U (n + 1) ts := by
  constructor
  · intro h
    refine ⟨?_, fun i f hf => ?_⟩
    · have h0 := h 0 e rfl
      rw [lastWrite_kept, Option.or_eq_some_iff] at h0
      rcases h0 with h0 | ⟨hn, h0⟩
      · have := le_lastWrite h0
        omega
      · split at h0
        · exact ⟨‹_›, lastWrite_eq_none.mp hn⟩
        · cases h0
    · have hs := h (i + 1) f (by simpa using hf)
      rw [lastWrite_kept, Option.or_eq_some_iff] at hs
      rcases hs with hs | ⟨-, hs⟩
      · rw [hs]
        congr 1
        omega
      · split at hs
        · simp only [Option.some.injEq] at hs
          omega
        · cases hs
  · rintro ⟨⟨hk, hw⟩, h⟩ i f hf
    cases i with
    | zero =>
      cases hf
      rw [lastWrite_kept, lastWrite_eq_none.mpr hw, if_pos hk]
      rfl
    | succ i =>
      rw [lastWrite_kept, h i f (by simpa using hf), Option.some_or]
      congr 1
      omega

/-- Where the dropped login is written again, the turn makes no difference. -/
theorem foundOwn_dropped (h : ∃ f ∈ keptOf ts, e.loginKey U ∈ f.keys U) :
    FoundOwn U n (⟨e, false⟩ :: ts) ↔ FoundOwn U n ts := by
  obtain ⟨f, hf, hfk⟩ := h
  have same (k : String) : lastWrite U n (⟨e, false⟩ :: ts) k = lastWrite U n ts k := by
    rw [lastWrite_dropped]
    split
    · rename_i hk
      cases hl : lastWrite U n ts k with
      | some i => rfl
      | none => exact absurd (hk ▸ hfk) (lastWrite_eq_none.mp hl _ (mem_keptOf.mp hf))
    · exact Option.or_none
  constructor <;> intro h i e' he'
  · rw [← same]
    exact h i e' he'
  · rw [same]
    exact h i e' he'

theorem consistent_iff : Owned U n ts ∧ FoundOwn U n ts ↔ Consistent U ts := by
  induction ts generalizing n with
  | nil =>
    refine iff_of_true ⟨?_, ?_⟩ trivial
    · intro k i hi
      cases hi
    · intro i e he
      simp at he
  | cons t ts ih =>
    obtain ⟨e, _ | _⟩ := t
    · rw [owned_dropped, Consistent, ← ih (n := n), if_neg (by simp)]
      constructor
      · rintro ⟨⟨hd, ho⟩, hf⟩
        exact ⟨hd, ho, (foundOwn_dropped hd).mp hf⟩
      · rintro ⟨hd, ho, hf⟩
        exact ⟨⟨hd, ho⟩, (foundOwn_dropped hd).mpr hf⟩
    · rw [owned_kept, foundOwn_kept, Consistent, ← ih (n := n + 1), if_pos rfl]
      constructor
      · rintro ⟨ho, hk, hf⟩
        exact ⟨hk, ho, hf⟩
      · rintro ⟨hk, ho, hf⟩
        exact ⟨ho, hk, hf⟩

/-! ## The roster -/

theorem lastSlug_owned (h : lastSlug n ts k = some i) :
    n ≤ i ∧ ∃ e, (keptOf ts)[i - n]? = some e ∧ k ∈ e.slugs := by
  induction ts generalizing n with
  | nil => cases h
  | cons t ts ih =>
    obtain ⟨e, _ | _⟩ := t
    · exact ih h
    · simp only [lastSlug, if_pos, Option.or_eq_some_iff] at h
      rcases h with h | ⟨-, h⟩
      · obtain ⟨hle, f, hf, hk⟩ := ih h
        refine ⟨by omega, f, ?_, hk⟩
        rw [keptOf_kept, show i - n = i - (n + 1) + 1 by omega, List.getElem?_cons_succ]
        exact hf
      · split at h
        · cases h
          exact ⟨Nat.le_refl _, e, by simp, ‹_›⟩
        · cases h

/-- Every kept entry's login is new. -/
theorem nodup_keptOf_turns (known : List String) (entries : List Entry) :
    ((keptOf (turns U known entries)).map (Entry.loginKey U)).Nodup ∧
      ∀ e ∈ keptOf (turns U known entries), e.loginKey U ∉ known := by
  induction entries generalizing known with
  | nil => simp [turns]
  | cons e entries ih =>
    rw [turns]
    split
    · exact ih known
    · rename_i hk
      obtain ⟨hn, hf⟩ := ih (known ++ e.keys U)
      simp only [keptOf_kept, List.map_cons, List.nodup_cons, List.mem_cons, forall_eq_or_imp]
      refine ⟨⟨?_, hn⟩, hk, fun f hm => ?_⟩
      · intro hm
        obtain ⟨f, hf', he⟩ := List.mem_map.mp hm
        exact hf f hf' (List.mem_append_right _ (he ▸ List.mem_cons_self))
      · exact fun h => hf f hm (List.mem_append_left _ h)

theorem nodup_owners (entries : List Entry) :
    ((owners U entries).map (Entry.loginKey U)).Nodup :=
  (nodup_keptOf_turns [] _).1

theorem find_fromEntries (entries : List Entry) (login : String) :
    (Roster.fromEntries U entries).find U login =
      match lastWrite U 0 (turnsOf U entries) (toLowercase U (trim login)) with
      | none => some none
      | some i => ((owners U entries)[i]?.map Entry.developer).map some := by
  obtain ⟨hd, hl, -⟩ := fromEntries_spec (U := U) entries
  rw [Roster.find, hl, hd]
  cases lastWrite U 0 (turnsOf U entries) (toLowercase U (trim login)) with
  | none => rfl
  | some i => exact congrArg (Option.map some) List.getElem?_map

/-- Keys that lead to entries lead to no position past the end. -/
theorem find_ne_none {entries : List Entry} (h : Owned U 0 (turnsOf U entries)) (login : String) :
    (Roster.fromEntries U entries).find U login ≠ none := by
  rw [find_fromEntries]
  split
  · exact Option.some_ne_none _
  · rename_i i hi
    obtain ⟨e, he, -⟩ := h _ i hi
    have he' : (owners U entries)[i]? = some e := he
    rw [he', Option.map_some, Option.map_some]
    exact Option.some_ne_none _

/-- The position at which an entry's developer is found is the entry's. -/
theorem find_own_iff (entries : List Entry) :
    (Owned U 0 (turnsOf U entries) ∧ ∀ d ∈ (Roster.fromEntries U entries).developers,
      (Roster.fromEntries U entries).find U d.login = some (some d)) ↔
    Owned U 0 (turnsOf U entries) ∧ FoundOwn U 0 (turnsOf U entries) := by
  obtain ⟨hd, -, -⟩ := fromEntries_spec (U := U) entries
  refine and_congr_right fun _ => ⟨fun h i e he => ?_, fun h d hm => ?_⟩
  · have he' : (owners U entries)[i]? = some e := he
    have hf := h e.developer (hd ▸ List.mem_map_of_mem (List.mem_of_getElem? he))
    rw [find_fromEntries] at hf
    split at hf
    · cases hf
    · rename_i j hj
      simp only [Option.map_map, Option.map_eq_some_iff, Function.comp] at hf
      obtain ⟨f, hf, hfe⟩ := hf
      have hdev : f.developer = e.developer := Option.some.inj hfe
      have hkey : ((owners U entries).map (Entry.loginKey U))[j]? =
          ((owners U entries).map (Entry.loginKey U))[i]? := by
        rw [List.getElem?_map, List.getElem?_map, hf, he', Option.map_some, Option.map_some,
          Entry.loginKey, Entry.loginKey, hdev]
      have hj' : j < ((owners U entries).map (Entry.loginKey U)).length := by
        rw [List.length_map]
        exact (List.getElem?_eq_some_iff.mp hf).1
      rw [Nat.zero_add, ← (List.getElem?_inj hj' (nodup_owners entries)).mp hkey]
      exact hj
  · rw [hd] at hm
    obtain ⟨e, he, rfl⟩ := List.mem_map.mp hm
    obtain ⟨i, hi⟩ := List.mem_iff_getElem?.mp he
    have hl : lastWrite U 0 (turnsOf U entries) (toLowercase U (trim e.developer.login)) = some i := by
      have := h i e hi
      rwa [Nat.zero_add] at this
    rw [find_fromEntries, hl]
    simp only [hi, Option.map_some]

/-- The roster finds every handle at its owner exactly when the logins of dropped entries are taken
again by later ones and the logins of kept entries are not. -/
theorem from_entries_represents_iff (U : CaseProps) (entries : List Entry) :
    Represents U (owners U entries) (Roster.fromEntries U entries) ↔
      Consistent U (turnsOf U entries) := by
  obtain ⟨hd, hl, hs⟩ := fromEntries_spec (U := U) entries
  rw [← consistent_iff (n := 0), ← find_own_iff]
  constructor
  · intro h
    refine ⟨fun k i hi => ?_, h.find_own⟩
    exact h.logins k i (by rw [hl, hi])
  · rintro ⟨ho, hf⟩
    refine ⟨hd, fun k i hi => ?_, fun k i hi => ?_, find_ne_none ho, hf⟩
    · rw [hl] at hi
      exact ho k i hi
    · rw [hs] at hi
      exact (lastSlug_owned hi).2

/-- A property of no character: enough for handles without `Σ`. -/
def caseless : CaseProps := ⟨fun _ => false, fun _ => false⟩

/-- Two spellings of one login. -/
def respelled : List Entry :=
  [Developer.new "amy", Developer.new "AMY"].map Roster.developerEntry

theorem sorted_respelled : Roster.sorted caseless respelled = respelled := by
  refine List.mergeSort_of_pairwise ?_
  decide +kernel

/-- The second spelling is dropped and its login left past the end. -/
theorem find_respelled : (Roster.fromEntries caseless respelled).find caseless "amy" = none := by
  rw [Roster.fromEntries, sorted_respelled]
  decide +kernel

/-- So looking up the developer who is on the roster panics. -/
theorem respelled_login_panics :
    ¬ Represents caseless (owners caseless respelled) (Roster.fromEntries caseless respelled) :=
  fun h => h.find_total "amy" find_respelled

end Claudear.Distribution
