import Claudear.Config.Users

/-!
# Who holds which key

A pass gives out only keys nobody has, so the assigned keys are pairwise
distinct (`nodup_assignKeys`). What an entry contributes to the assignment is
its slug, its login email and its user id (`assignKeys_congr`), which justifies
the shortcut of `person_key` through the stored key.
-/

namespace Claudear.Config

open Claudear.Core Claudear.Text Claudear.Data

variable {U : CaseProps} {seed : Seed} {choose : ConsoleIdentity → List String → Option String}
  {l l' : List (Option String × ConsoleIdentity)} {c : List String} {i : Nat} {k : String}
  {entries entries' : List ConsoleIdentity} {e e' : ConsoleIdentity}

/-! ## Aliases -/

theorem reserved_consoleKey (id : Int) : Reserved (consoleKey id) := by
  rw [Reserved, consoleKey, String.toList_append]
  exact List.prefix_append _ _

theorem repr_injective : Function.Injective Nat.repr := by
  intro m n h
  rw [← Nat.ofDigitChars_ten_toDigits (n := m), ← Nat.toList_repr, h, Nat.toList_repr,
    Nat.ofDigitChars_ten_toDigits]

theorem minus_append_ne_repr (s : String) (n : Nat) : "-" ++ s ≠ n.repr := by
  intro h
  have hm : '-' ∈ Nat.toDigits 10 n := by
    rw [← Nat.toList_repr, ← h, String.toList_append]
    exact List.mem_append_left _ List.mem_cons_self
  exact absurd (Nat.isDigit_of_mem_toDigits (by decide) (by decide) hm) (by decide)

/-- The decimal form of a number determines it. -/
theorem toString_int_injective : Function.Injective fun n : Int => toString n := by
  intro a b h
  simp only [Int.toString_eq_repr, Int.repr_eq_if] at h
  split at h <;> split at h
  · have := repr_injective h
    omega
  · exact absurd h.symm (minus_append_ne_repr _ _)
  · exact absurd h (minus_append_ne_repr _ _)
  · have := repr_injective (String.append_right_inj _ |>.mp h)
    omega

theorem consoleKey_injective : Function.Injective consoleKey := fun _ _ h =>
  toString_int_injective ((String.append_right_inj _).mp h)

/-! ## The passes -/

theorem length_pass : (pass choose l c).1.length = l.length := by
  induction l generalizing c with
  | nil => rfl
  | cons x l ih =>
    obtain ⟨_ | k, e⟩ := x
    · unfold pass
      split <;> simp [ih]
    · simp [pass, ih]

/-- A key that is given stays. -/
theorem pass_keeps (h : l[i]? = some (some k, e)) : (pass choose l c).1[i]? = some (some k) := by
  induction l generalizing c i with
  | nil => cases h
  | cons x l ih =>
    cases i with
    | zero =>
      cases Option.some.inj h
      rfl
    | succ i =>
      obtain ⟨_ | k', e'⟩ := x
      · unfold pass
        split <;> exact ih h
      · exact ih h

theorem pass_congr (h : List.Forall₂ (fun x y => x.1 = y.1 ∧ ∀ c, choose x.2 c = choose y.2 c) l l') :
    pass choose l c = pass choose l' c := by
  induction h generalizing c with
  | nil => rfl
  | @cons x y l l' hxy _ ih =>
    obtain ⟨kx, ex⟩ := x
    obtain ⟨ky, ey⟩ := y
    obtain ⟨rfl, hc⟩ := hxy
    cases kx with
    | none => simp only [pass, hc, ih]
    | some k => simp only [pass, ih]

/-- Where a key that a pass leaves comes from. -/
def Origin (choose : ConsoleIdentity → List String → Option String)
    (l : List (Option String × ConsoleIdentity)) (c : List String) (k : String) : Prop :=
  (∃ e, (some k, e) ∈ l) ∨ k ∉ c ∧ ∃ e c', (none, e) ∈ l ∧ choose e c' = some k

theorem Origin.cons {c' : List String} (h : Origin choose l c' k)
    (x : Option String × ConsoleIdentity) (hc : c ⊆ c') : Origin choose (x :: l) c k := by
  rcases h with ⟨e, he⟩ | ⟨hk, e, c'', he, hch⟩
  · exact .inl ⟨e, List.mem_cons_of_mem _ he⟩
  · exact .inr ⟨fun hk' => hk (hc hk'), e, c'', List.mem_cons_of_mem _ he, hch⟩

/-- What a pass makes of keys that are claimed and pairwise distinct. -/
structure Passed (choose : ConsoleIdentity → List String → Option String)
    (l : List (Option String × ConsoleIdentity)) (c : List String)
    (r : List (Option String) × List String) : Prop where
  nodup : (r.1.filterMap id).Nodup
  claimed : ∀ k, some k ∈ r.1 → k ∈ r.2
  keeps : c ⊆ r.2
  origin : ∀ k, some k ∈ r.1 → Origin choose l c k

theorem passed (hc : ∀ e c k, choose e c = some k → k ∉ c)
    (hn : (l.filterMap Prod.fst).Nodup) (hl : ∀ k e, (some k, e) ∈ l → k ∈ c) :
    Passed choose l c (pass choose l c) := by
  induction l generalizing c with
  | nil =>
    constructor
    · exact List.nodup_nil
    · intro k h
      cases h
    · exact fun _ h => h
    · intro k h
      cases h
  | cons x l ih =>
    obtain ⟨kx, ex⟩ := x
    have hl' : ∀ k e, (some k, e) ∈ l → k ∈ c := fun k e h => hl k e (List.mem_cons_of_mem _ h)
    cases kx with
    | some k₀ =>
      have hn : (k₀ :: l.filterMap Prod.fst).Nodup := hn
      obtain ⟨hk, hn⟩ := List.nodup_cons.mp hn
      have hk₀ : k₀ ∈ c := hl k₀ ex List.mem_cons_self
      have r := ih hn hl'
      constructor
      · refine List.nodup_cons.mpr ⟨fun h => ?_, r.nodup⟩
        rcases r.origin k₀ (by simpa using h) with ⟨e, he⟩ | ⟨h, -⟩
        · exact hk (List.mem_filterMap.mpr ⟨_, he, rfl⟩)
        · exact h hk₀
      · intro k h
        rcases List.mem_cons.mp h with h | h
        · cases h
          exact r.keeps hk₀
        · exact r.claimed k h
      · exact r.keeps
      · intro k h
        rcases List.mem_cons.mp h with h | h
        · cases h
          exact .inl ⟨ex, List.mem_cons_self⟩
        · exact (r.origin k h).cons _ (List.Subset.refl c)
    | none =>
      have hn : (l.filterMap Prod.fst).Nodup := hn
      unfold pass
      split
      · rename_i k₀ hch
        have r := ih (c := k₀ :: c) hn fun k e h => List.mem_cons_of_mem _ (hl' k e h)
        constructor
        · refine List.nodup_cons.mpr ⟨fun h => ?_, r.nodup⟩
          rcases r.origin k₀ (by simpa using h) with ⟨e, he⟩ | ⟨h, -⟩
          · exact hc _ _ _ hch (hl' k₀ e he)
          · exact h List.mem_cons_self
        · intro k h
          rcases List.mem_cons.mp h with h | h
          · cases h
            exact r.keeps List.mem_cons_self
          · exact r.claimed k h
        · exact fun k h => r.keeps (List.mem_cons_of_mem _ h)
        · intro k h
          rcases List.mem_cons.mp h with h | h
          · cases h
            exact .inr ⟨hc _ _ _ hch, ex, c, List.mem_cons_self, hch⟩
          · exact (r.origin k h).cons _ (List.subset_cons_self _ _)
      · have r := ih hn hl'
        have hm : ∀ k, some k ∈ none :: (pass choose l c).1 → some k ∈ (pass choose l c).1 :=
          fun k h => (List.mem_cons.mp h).resolve_left fun h => by cases h
        exact ⟨r.nodup, fun k h => r.claimed k (hm k h), r.keeps,
          fun k h => (r.origin k (hm k h)).cons _ (List.Subset.refl c)⟩

theorem chooseSlug_eq_some {s : String} (h : chooseSlug e c = some s) :
    explicitSlug e = some s ∧ s ∉ c := by
  obtain ⟨hs, hc⟩ := Option.filter_eq_some_iff.mp h
  exact ⟨hs, of_decide_eq_true hc⟩

theorem chooseMatch_eq_some (h : chooseMatch U seed e c = some k) :
    k ∈ seed.keysForEmail U e.loginEmail ∧ k ∉ c := by
  have hp := List.find?_some (p := fun candidate => decide (candidate ∉ c)) h
  exact ⟨List.mem_of_find?_eq_some h, of_decide_eq_true hp⟩

/-- The first entry with a slug gets it. -/
theorem pass_chooseSlug {s : String} (hi : entries[i]? = some e) (hs : explicitSlug e = some s)
    (hc : s ∉ c)
    (hf : ∀ j < i, ∀ e', entries[j]? = some e' → explicitSlug e' ≠ some s) :
    (pass chooseSlug (entries.map fun entry => (none, entry)) c).1[i]? = some (some s) := by
  induction entries generalizing i c with
  | nil => cases hi
  | cons e₀ entries ih =>
    cases i with
    | zero =>
      cases Option.some.inj hi
      have hch : chooseSlug e c = some s := by
        rw [chooseSlug, hs, Option.filter_some, if_pos (decide_eq_true hc)]
      simp [pass, hch]
    | succ i =>
      have hf' : ∀ j < i, ∀ e', entries[j]? = some e' → explicitSlug e' ≠ some s :=
        fun j hj e' he' => hf (j + 1) (Nat.succ_lt_succ hj) e' he'
      rw [List.map_cons, pass]
      split
      · rename_i k hch
        refine ih hi ?_ hf'
        intro hm
        rcases List.mem_cons.mp hm with rfl | hm
        · exact hf 0 (Nat.succ_pos i) e₀ rfl (chooseSlug_eq_some hch).1
        · exact hc hm
      · exact ih hi hc hf'

/-! ## The assignment -/

abbrev slugPass (entries : List ConsoleIdentity) : List (Option String) × List String :=
  pass chooseSlug (entries.map fun entry => (none, entry)) []

abbrev keyPass (U : CaseProps) (seed : Seed) (entries : List ConsoleIdentity) :
    List (Option String) × List String :=
  pass (chooseMatch U seed) ((slugPass entries).1.zip entries) (slugPass entries).2

theorem length_slugPass : (slugPass entries).1.length = entries.length := by
  rw [length_pass, List.length_map]

theorem length_keyPass : (keyPass U seed entries).1.length = entries.length := by
  rw [length_pass, List.length_zip, length_slugPass, Nat.min_self]

theorem length_assignKeys : (assignKeys U seed entries).length = entries.length := by
  rw [assignKeys, List.length_map, List.length_zip, length_keyPass, Nat.min_self]

variable (U seed) in
theorem getElem?_assignKeys (he : entries[i]? = some e) :
    ∃ key, (keyPass U seed entries).1[i]? = some key ∧
      (assignKeys U seed entries)[i]? = some (key.getD (consoleKey e.userId)) := by
  have hi : i < (keyPass U seed entries).1.length := by
    rw [length_keyPass]
    exact (List.getElem?_eq_some_iff.mp he).1
  refine ⟨_, List.getElem?_eq_getElem hi, ?_⟩
  rw [assignKeys, List.getElem?_map, (List.getElem?_zip_eq_some (z := (_, e))).mpr
    ⟨List.getElem?_eq_getElem hi, he⟩]
  rfl

theorem passed_slugs : Passed chooseSlug (entries.map fun entry => (none, entry)) []
    (slugPass entries) := by
  have hn : ((entries.map fun entry => ((none : Option String), entry)).filterMap Prod.fst) = [] := by
    rw [List.filterMap_map]
    exact List.filterMap_eq_nil_iff.mpr fun _ _ => rfl
  refine passed (fun e c k h => (chooseSlug_eq_some h).2) (hn ▸ List.nodup_nil) fun k e h => ?_
  obtain ⟨_, -, h⟩ := List.mem_map.mp h
  cases h

theorem passed_keys : Passed (chooseMatch U seed) ((slugPass entries).1.zip entries)
    (slugPass entries).2 (keyPass U seed entries) := by
  have hf : ((slugPass entries).1.zip entries).filterMap Prod.fst =
      (slugPass entries).1.filterMap id := by
    calc ((slugPass entries).1.zip entries).filterMap Prod.fst
        = (((slugPass entries).1.zip entries).map Prod.fst).filterMap id := by
          rw [List.filterMap_map]; rfl
      _ = (slugPass entries).1.filterMap id := by
          rw [List.map_fst_zip length_slugPass.le]
  refine passed (fun e c k h => (chooseMatch_eq_some h).2) (hf ▸ passed_slugs.nodup) fun k e h => ?_
  exact passed_slugs.claimed k (List.of_mem_zip h).1

/-- A key is an explicit slug, or a configured person has the login email. -/
theorem key_origin (h : some k ∈ (keyPass U seed entries).1) :
    ∃ e ∈ entries, explicitSlug e = some k ∨ k ∈ seed.keysForEmail U e.loginEmail := by
  rcases passed_keys.origin k h with ⟨e, he⟩ | ⟨-, e, c, he, hch⟩
  · rcases passed_slugs.origin k (List.of_mem_zip he).1 with ⟨e, he⟩ | ⟨-, e, c, he, hch⟩
    · obtain ⟨_, -, he⟩ := List.mem_map.mp he
      cases he
    · obtain ⟨e', he', heq⟩ := List.mem_map.mp he
      cases heq
      exact ⟨e, he', .inl (chooseSlug_eq_some hch).1⟩
  · exact ⟨e, (List.of_mem_zip he).2, .inr (chooseMatch_eq_some hch).1⟩

theorem assignKeys_slug {s : String} (hi : entries[i]? = some e) (hs : explicitSlug e = some s)
    (hf : ∀ j < i, ∀ e', entries[j]? = some e' → explicitSlug e' ≠ some s) :
    (assignKeys U seed entries)[i]? = some s := by
  obtain ⟨key, hk, ha⟩ := getElem?_assignKeys U seed hi
  have hs := pass_chooseSlug hi hs (List.not_mem_nil (a := s)) hf
  rw [keyPass, pass_keeps (List.getElem?_zip_eq_some.mpr ⟨hs, hi⟩)] at hk
  rw [ha, ← Option.some.inj hk]
  rfl

/-! ## What an entry contributes -/

structure Alike (U : CaseProps) (e e' : ConsoleIdentity) : Prop where
  userId : e.userId = e'.userId
  slug : explicitSlug e = explicitSlug e'
  email : emailKey U e.loginEmail = emailKey U e'.loginEmail

theorem Alike.refl (e : ConsoleIdentity) : Alike U e e := ⟨rfl, rfl, rfl⟩

theorem Alike.chooseSlug (h : Alike U e e') (c : List String) :
    chooseSlug e c = chooseSlug e' c := by
  rw [Config.chooseSlug, Config.chooseSlug, h.slug]

theorem Alike.chooseMatch (h : Alike U e e') (c : List String) :
    chooseMatch U seed e c = chooseMatch U seed e' c := by
  rw [Config.chooseMatch, Config.chooseMatch, Seed.keysForEmail, Seed.keysForEmail, h.email]

theorem forall₂_zip {α : Type*} {R : ConsoleIdentity → ConsoleIdentity → Prop} (keys : List α)
    (h : List.Forall₂ R entries entries') :
    List.Forall₂ (fun x y => x.1 = y.1 ∧ R x.2 y.2) (keys.zip entries) (keys.zip entries') := by
  induction h generalizing keys with
  | nil => simp
  | cons hxy _ ih =>
    cases keys with
    | nil => exact .nil
    | cons k keys => exact .cons ⟨rfl, hxy⟩ (ih keys)

/-- Nothing but slug, login email and user id affects the keys. -/
theorem assignKeys_congr (h : List.Forall₂ (Alike U) entries entries') :
    assignKeys U seed entries = assignKeys U seed entries' := by
  have hs : slugPass entries = slugPass entries' := by
    refine pass_congr (List.forall₂_map_left_iff.mpr (List.forall₂_map_right_iff.mpr ?_))
    exact h.imp fun _ _ h => ⟨rfl, h.chooseSlug⟩
  have hk : keyPass U seed entries = keyPass U seed entries' := by
    rw [keyPass, keyPass, hs]
    exact pass_congr ((forall₂_zip _ h).imp fun _ _ h => ⟨h.1, h.2.chooseMatch⟩)
  have hz := forall₂_zip (keyPass U seed entries').1 h
  calc assignKeys U seed entries
      = ((keyPass U seed entries').1.zip entries).map
          fun p => p.1.getD (consoleKey p.2.userId) := by
        rw [← hk]; rfl
    _ = assignKeys U seed entries' := by
        refine List.forall₂_eq_eq_eq ▸ List.forall₂_map_left_iff.mpr
          (List.forall₂_map_right_iff.mpr (hz.imp ?_))
        intro p q h
        show p.1.getD (consoleKey p.2.userId) = q.1.getD (consoleKey q.2.userId)
        rw [h.1, h.2.userId]

/-! ## Distinct keys -/

/-- No person is named like the alias of another. -/
def Unreserved (entries : List ConsoleIdentity) : Prop :=
  ∀ e ∈ entries, ∀ s, explicitSlug e = some s → ¬ Reserved s

/-- No configured key is named like an alias. -/
def Seed.Retained (U : CaseProps) (seed : Seed) : Prop :=
  (∀ k ∈ seed.users.keys, ¬ Reserved k) ∧ ∀ email, ∀ k ∈ seed.keysForEmail U email, k ∈ seed.users.keys

theorem retained_new (users : Users) : (Seed.new U users).Retained U := by
  constructor
  · intro k hk
    obtain ⟨user, hu, rfl⟩ := List.mem_map.mp hk
    exact of_decide_eq_true (List.mem_filter.mp hu).2
  · intro email k hk
    unfold Seed.keysForEmail at hk
    split at hk
    · obtain ⟨user, hu, rfl⟩ := List.mem_map.mp (List.mem_mergeSort.mp hk)
      exact List.mem_map_of_mem (List.mem_filter.mp hu).1
    · cases hk

theorem key_unreserved (hr : seed.Retained U) (hu : Unreserved entries)
    (h : some k ∈ (keyPass U seed entries).1) : ¬ Reserved k := by
  obtain ⟨e, he, hs | hm⟩ := key_origin h
  · exact hu e he k hs
  · exact hr.1 k (hr.2 _ k hm)

theorem nodup_getD {keys : List (Option String)} (hn : (keys.filterMap id).Nodup)
    (hk : ∀ k, some k ∈ keys → ¬ Reserved k) (he : (entries.map ConsoleIdentity.userId).Nodup) :
    ((keys.zip entries).map fun (key, entry) => key.getD (consoleKey entry.userId)).Nodup := by
  induction entries generalizing keys with
  | nil => simp
  | cons e entries ih =>
    cases keys with
    | nil => exact List.nodup_nil
    | cons key keys =>
      obtain ⟨he₁, he₂⟩ := List.nodup_cons.mp he
      have hk' : ∀ k, some k ∈ keys → ¬ Reserved k := fun k h => hk k (List.mem_cons_of_mem _ h)
      have hn' : (keys.filterMap id).Nodup :=
        ((List.sublist_cons_self key keys).filterMap id).nodup hn
      refine List.nodup_cons.mpr ⟨fun h => ?_, ih hn' hk' he₂⟩
      obtain ⟨⟨key', e'⟩, hm, heq⟩ := List.mem_map.mp h
      obtain ⟨hm₁, hm₂⟩ := List.of_mem_zip hm
      -- two keys given out, a key and an alias, two aliases
      cases key with
      | some k =>
        cases key' with
        | some k' =>
          have hk' : k' = k := heq
          have hn : (k :: keys.filterMap id).Nodup := hn
          exact (List.nodup_cons.mp hn).1 (by simpa using hk' ▸ hm₁)
        | none =>
          have hk' : consoleKey e'.userId = k := heq
          exact hk k List.mem_cons_self (hk' ▸ reserved_consoleKey _)
      | none =>
        cases key' with
        | some k' =>
          have hk' : k' = consoleKey e.userId := heq
          exact hk k' (List.mem_cons_of_mem _ hm₁) (hk' ▸ reserved_consoleKey _)
        | none =>
          have hid : e'.userId = e.userId := consoleKey_injective heq
          exact he₁ (hid ▸ List.mem_map_of_mem hm₂)

theorem nodup_assignKeys (hr : seed.Retained U) (hu : Unreserved entries)
    (he : (entries.map ConsoleIdentity.userId).Nodup) : (assignKeys U seed entries).Nodup :=
  nodup_getD passed_keys.nodup (fun _ h => key_unreserved hr hu h) he

/-- A reserved key is the alias of the person it is assigned to. -/
theorem assignKeys_reserved (hr : seed.Retained U) (hu : Unreserved entries)
    (he : entries[i]? = some e) (hk : (assignKeys U seed entries)[i]? = some k)
    (hres : Reserved k) : k = consoleKey e.userId := by
  obtain ⟨key, hkey, ha⟩ := getElem?_assignKeys U seed he
  cases Option.some.inj (hk.symm.trans ha)
  cases key with
  | some k' => exact absurd hres (key_unreserved hr hu (List.mem_of_getElem? hkey))
  | none => rfl

/-! ## The directory -/

namespace Directory

variable {stored : List ConsoleIdentity} {p : Person} {claimed : List String}

theorem getElem?_consolePersons {keys : List String} {e : ConsoleIdentity} {k : String}
    (he : entries[i]? = some e) (hk : keys[i]? = some k) :
    (consolePersons entries keys)[i]? = some ⟨k, .console, e.identities⟩ := by
  rw [consolePersons, List.getElem?_map, (List.getElem?_zip_eq_some (z := (e, k))).mpr ⟨he, hk⟩]
  rfl

theorem mem_consolePersons {keys : List String} (h : p ∈ consolePersons entries keys) :
    p.origin = .console ∧ p.key ∈ keys := by
  obtain ⟨⟨e, k⟩, hm, rfl⟩ := List.mem_map.mp h
  exact ⟨rfl, (List.of_mem_zip hm).2⟩

theorem map_key_consolePersons {keys : List String} (h : keys.length ≤ entries.length) :
    (consolePersons entries keys).map Person.key = keys := by
  rw [consolePersons, List.map_map]
  exact List.map_snd_zip h

theorem mem_configPersons : p ∈ configPersons seed claimed ↔
    p.origin = .config ∧ seed.users.lookup p.key = some p.user ∧ p.key ∉ claimed := by
  obtain ⟨key, origin, user⟩ := p
  simp only [configPersons, List.mem_filterMap, List.mem_mergeSort, List.mem_filter,
    decide_eq_true_eq, Option.map_eq_some_iff, Person.mk.injEq]
  constructor
  · rintro ⟨k, ⟨-, hc⟩, u, hu, rfl, rfl, rfl⟩
    exact ⟨rfl, hu, hc⟩
  · rintro ⟨rfl, hu, hc⟩
    exact ⟨key, ⟨AList.mem_keys.mp (AList.lookup_isSome.mp (hu ▸ rfl)), hc⟩, user, hu, rfl, rfl, rfl⟩

theorem nodup_configPersons : ((configPersons seed claimed).map Person.key).Nodup := by
  have hs : ((seed.users.keys.filter fun key => key ∉ claimed).mergeSort
      fun a b => decide (a ≤ b)).Nodup :=
    (List.mergeSort_perm _ _).nodup_iff.mpr (seed.users.keys_nodup.filter _)
  rw [List.Nodup, List.pairwise_map, configPersons, List.pairwise_filterMap]
  refine hs.imp fun hne b hb b' hb' => ?_
  obtain ⟨_, -, rfl⟩ := Option.map_eq_some_iff.mp hb
  obtain ⟨_, -, rfl⟩ := Option.map_eq_some_iff.mp hb'
  exact hne

/-! Facts about a built directory. -/

variable {d : Directory}

variable (U seed) in
theorem keySorted_entries (stored : List ConsoleIdentity) :
    KeySorted ConsoleIdentity.userId (build U seed stored).entries := keySorted_firstByKey stored

theorem unreserved_entries (hu : Unreserved stored) :
    Unreserved (build U seed stored).entries := fun e he => hu e (mem_of_mem_firstByKey he)

theorem persons_eq (U : CaseProps) (seed : Seed) (stored : List ConsoleIdentity) :
    (build U seed stored).persons =
      consolePersons (build U seed stored).entries
          (assignKeys U seed (build U seed stored).entries) ++
        configPersons seed (assignKeys U seed (build U seed stored).entries) := rfl

theorem consoles_eq (he : (build U seed stored).entries[i]? = some e) :
    (build U seed stored).consoles e.userId = some i := by
  refine foldl_insert_of_mem ?_ (mem_positions.mpr ⟨e, he, rfl⟩)
  rw [map_fst_positions]
  exact (keySorted_firstByKey stored).nodup

variable (U seed) in
/-- The person of a stored entry, with the key assigned to the entry. -/
theorem consolePerson_eq (he : (build U seed stored).entries[i]? = some e) :
    ∃ k, (assignKeys U seed (build U seed stored).entries)[i]? = some k ∧
      (build U seed stored).persons[i]? = some ⟨k, .console, e.identities⟩ ∧
      (build U seed stored).consolePerson e.userId = some ⟨k, .console, e.identities⟩ := by
  obtain ⟨key, -, ha⟩ := getElem?_assignKeys U seed he
  have hp := getElem?_consolePersons he ha
  have hp' : (build U seed stored).persons[i]? =
      some ⟨key.getD (consoleKey e.userId), .console, e.identities⟩ := by
    rw [persons_eq, List.getElem?_append_left (List.getElem?_eq_some_iff.mp hp).1, hp]
  refine ⟨_, ha, hp', ?_⟩
  rw [consolePerson, consoles_eq he]
  exact hp'

theorem map_key_persons : (build U seed stored).persons.map Person.key =
    assignKeys U seed (build U seed stored).entries ++
      (configPersons seed (assignKeys U seed (build U seed stored).entries)).map Person.key := by
  rw [persons_eq, List.map_append, map_key_consolePersons length_assignKeys.le]

theorem nodup_keys (hr : seed.Retained U) (hu : Unreserved stored) :
    ((build U seed stored).persons.map Person.key).Nodup := by
  rw [map_key_persons, List.nodup_append]
  refine ⟨nodup_assignKeys hr (unreserved_entries hu) (keySorted_entries _ _ stored).nodup,
    nodup_configPersons, fun k hk k' hk' heq => ?_⟩
  obtain ⟨p, hp, rfl⟩ := List.mem_map.mp hk'
  exact (mem_configPersons.mp hp).2.2 (heq ▸ hk)

/-- A configured person is visible when no console person has the key. -/
theorem config_visible (key : String) (user : UserConfig) :
    ⟨key, .config, user⟩ ∈ (build U seed stored).persons ↔
      seed.users.lookup key = some user ∧
        ∀ p ∈ (build U seed stored).persons, p.origin = .console → p.key ≠ key := by
  rw [persons_eq, List.mem_append, mem_configPersons]
  constructor
  · rintro (h | ⟨-, hu, hc⟩)
    · cases (mem_consolePersons h).1
    · refine ⟨hu, fun p hp ho hk => ?_⟩
      rcases List.mem_append.mp hp with hp | hp
      · exact hc (hk ▸ (mem_consolePersons hp).2)
      · rw [(mem_configPersons.mp hp).1] at ho
        cases ho
  · rintro ⟨hu, hno⟩
    refine .inr ⟨rfl, hu, fun hk => ?_⟩
    have hl : (assignKeys U seed (build U seed stored).entries).length ≤
        (build U seed stored).entries.length := length_assignKeys.le
    have hm := map_key_consolePersons hl
    obtain ⟨p, hp, hpk⟩ := List.mem_map.mp (hm ▸ hk)
    exact hno p (List.mem_append_left _ hp) (mem_consolePersons hp).1 hpk

theorem keys_alias (he : (build U seed stored).entries[i]? = some e) :
    (build U seed stored).keys (consoleKey e.userId) = some i := by
  refine foldl_insert_of_mem ?_ (mem_positions.mpr ⟨e, he, rfl⟩)
  rw [map_fst_positions]
  have hm : (firstByKey ConsoleIdentity.userId stored).map (fun entry => consoleKey entry.userId) =
      ((firstByKey ConsoleIdentity.userId stored).map ConsoleIdentity.userId).map consoleKey := by
    rw [List.map_map]
    rfl
  rw [hm]
  exact (keySorted_firstByKey stored).nodup.map consoleKey_injective

/-- Every key leads to the person who has it. -/
theorem keys_eq (hr : seed.Retained U) (hu : Unreserved stored)
    (hp : (build U seed stored).persons[i]? = some p) :
    (build U seed stored).keys p.key = some i := by
  by_cases hres : Reserved p.key
  · -- a reserved key is the alias of its own person
    rw [persons_eq, List.getElem?_append] at hp
    split at hp
    · rename_i hi
      have hi : i < (build U seed stored).entries.length := by
        simpa [consolePersons, length_assignKeys] using hi
      have he := List.getElem?_eq_getElem hi
      obtain ⟨k, hk, -, -⟩ := consolePerson_eq U seed he
      rw [getElem?_consolePersons he hk] at hp
      cases Option.some.inj hp
      have hk : k = consoleKey _ := assignKeys_reserved hr (unreserved_entries hu) he hk hres
      rw [hk]
      exact keys_alias he
    · have hl := (mem_configPersons.mp (List.mem_of_getElem? hp)).2.1
      exact absurd hres (hr.1 _ (AList.mem_keys.mp (AList.lookup_isSome.mp (hl ▸ rfl))))
  · have hl : (build U seed stored).keys p.key =
        (positions Person.key (build U seed stored).persons).lookup p.key := by
      refine (foldl_insert_of_notMem fun q hq hqk => ?_).trans ?_
      · obtain ⟨e, -, heq⟩ := mem_positions.mp hq
        exact hres (hqk ▸ heq ▸ reserved_consoleKey e.userId)
      · rw [foldl_orInsert]
        rfl
    rw [hl]
    refine lookup_of_mem ?_ (mem_positions.mpr ⟨p, hp, rfl⟩)
    rw [map_fst_positions]
    exact nodup_keys hr hu

theorem consoles_eq_some {id : Int} (h : (build U seed stored).consoles id = some i) :
    ∃ e, (build U seed stored).entries[i]? = some e ∧ e.userId = id := by
  rcases mem_of_foldl_insert h with h | h
  · exact mem_positions.mp h
  · cases h

/-- The key of a stored entry with the same slug and login email. -/
theorem storedKey_eq_some {entry : ConsoleIdentity}
    (h : (build U seed stored).storedKey U entry = some k) :
    ∃ (i : Nat) (old : ConsoleIdentity), (build U seed stored).entries[i]? = some old ∧ Alike U old entry ∧
      (assignKeys U seed (build U seed stored).entries)[i]? = some k := by
  obtain ⟨i, hi, h⟩ := Option.bind_eq_some_iff.mp h
  obtain ⟨old, ho, h⟩ := Option.bind_eq_some_iff.mp h
  split at h
  · rename_i ha
    obtain ⟨e, he, hid⟩ := consoles_eq_some hi
    cases Option.some.inj (he.symm.trans ho)
    obtain ⟨k', hk', hp, -⟩ := consolePerson_eq U seed ho
    rw [hp] at h
    cases Option.some.inj h
    exact ⟨i, old, ho, ⟨hid, ha.1, ha.2⟩, hk'⟩
  · cases h

variable (U seed) in
theorem find?_entries (id : Int) : (build U seed stored).entries.find? (fun e => e.userId = id) =
    stored.find? fun e => e.userId = id := find?_firstByKey stored id

end Directory

/-! ## The prediction -/

section Predict

open Directory

variable {stored included : List ConsoleIdentity} {entry : ConsoleIdentity}

/-- `included` holds the entry, and of everybody else what `stored` holds. -/
def Includes (included stored : List ConsoleIdentity) (entry : ConsoleIdentity) : Prop :=
  ∀ id, included.find? (fun e => e.userId = id) =
    if id = entry.userId then some entry else stored.find? fun e => e.userId = id

/-- The entry in the place of the one with its user id. -/
def replaced (entry e : ConsoleIdentity) : ConsoleIdentity :=
  if e.userId = entry.userId then entry else e

theorem userId_replaced (entry e : ConsoleIdentity) : (replaced entry e).userId = e.userId := by
  unfold replaced
  split
  · rename_i h
    exact h.symm
  · rfl

theorem entries_replaced {old : ConsoleIdentity} (hinc : Includes included stored entry)
    (ho : old ∈ (build U seed stored).entries) (hid : old.userId = entry.userId) :
    (build U seed included).entries = (build U seed stored).entries.map (replaced entry) := by
  have hs := keySorted_entries U seed stored
  refine (keySorted_entries _ _ included).eq_of_find? (List.pairwise_map.mpr (hs.imp ?_)) fun id => ?_
  · intro a b hab
    rw [userId_replaced, userId_replaced]
    exact hab
  · rw [find?_entries U seed, hinc id, List.find?_map]
    have hf : ((fun e : ConsoleIdentity => decide (e.userId = id)) ∘ replaced entry) =
        fun e => decide (e.userId = id) := by
      funext e
      rw [Function.comp_apply, userId_replaced]
    rw [hf]
    split
    · rename_i h
      rw [hs.find?_eq_some.mpr ⟨ho, hid.trans h.symm⟩, Option.map_some, replaced, if_pos hid]
    · rename_i h
      rw [← find?_entries U seed]
      cases he : (build U seed stored).entries.find? fun e => e.userId = id with
      | none => rfl
      | some e =>
        rw [Option.map_some, replaced, if_neg ((hs.find?_eq_some.mp he).2.trans_ne h)]

/-- With slug and login email unchanged the entry takes its stored place, and every key stays. -/
theorem assignKeys_replaced {old : ConsoleIdentity} (hinc : Includes included stored entry)
    (ho : (build U seed stored).entries[i]? = some old) (ha : Alike U old entry) :
    (build U seed included).entries[i]? = some entry ∧
      assignKeys U seed (build U seed included).entries =
        assignKeys U seed (build U seed stored).entries := by
  have hs := keySorted_entries U seed stored
  have hold := List.mem_of_getElem? ho
  rw [entries_replaced hinc hold ha.userId]
  constructor
  · rw [List.getElem?_map, ho, Option.map_some, replaced, if_pos ha.userId]
  · refine (assignKeys_congr (List.forall₂_map_right_iff.mpr (List.forall₂_same.mpr ?_))).symm
    intro e he
    unfold replaced
    split
    · rename_i hid
      have h₁ := hs.find?_eq_some.mpr ⟨he, hid⟩
      have h₂ := hs.find?_eq_some.mpr ⟨hold, ha.userId⟩
      cases Option.some.inj (h₁.symm.trans h₂)
      exact ha
    · exact Alike.refl e

/-- The entries with the given one among the others, as `person_key` puts them together. -/
theorem entries_among (hinc : Includes included stored entry) :
    (((build U seed stored).entries.filter fun e => e.userId ≠ entry.userId) ++ [entry]).mergeSort
      (byKey ConsoleIdentity.userId) = (build U seed included).entries := by
  have hs := keySorted_entries U seed stored
  refine (keySorted_mergeSort ?_).eq_of_find? (keySorted_entries _ _ included) fun id => ?_
  · rw [List.map_append, List.nodup_append]
    refine ⟨hs.nodup.sublist (List.filter_sublist.map _), List.nodup_singleton _, ?_⟩
    intro a ha b hb heq
    obtain ⟨e, he, rfl⟩ := List.mem_map.mp ha
    cases List.mem_singleton.mp hb
    exact of_decide_eq_true (List.mem_filter.mp he).2 heq
  · rw [find?_mergeSort_key, find?_entries U seed, hinc id, List.find?_append, find?_filter_ne]
    split
    · rename_i h
      rw [Option.none_or, List.find?_cons, decide_eq_true h.symm]
    · rename_i h
      rw [find?_entries U seed, List.find?_cons, decide_eq_false (Ne.symm h), List.find?_nil, Option.or_none]

theorem keyAmong_eq (hs : KeySorted ConsoleIdentity.userId entries) (hi : entries[i]? = some entry)
    (hk : (assignKeys U seed entries)[i]? = some k) :
    UserRegistry.keyAmong U seed entries entry.userId = k := by
  have hz : KeySorted (fun x : ConsoleIdentity × String => x.1.userId)
      (entries.zip (assignKeys U seed entries)) := by
    rw [KeySorted, ← List.pairwise_map (f := Prod.fst) (R := fun a b : ConsoleIdentity =>
      a.userId < b.userId), List.map_fst_zip length_assignKeys.ge]
    exact hs
  have hm : (entry, k) ∈ entries.zip (assignKeys U seed entries) :=
    List.mem_of_getElem? (List.getElem?_zip_eq_some.mpr ⟨hi, hk⟩)
  rw [UserRegistry.keyAmong, hz.find?_eq_some.mpr ⟨hm, rfl⟩]

/-- The predicted key is the one the entry's person has in the directory with the entry. -/
theorem personKey_eq (users : Users) (hinc : Includes included stored entry)
    (hfresh : ∀ e ∈ stored, e.userId ≠ entry.userId → ∀ s, explicitSlug entry = some s →
      explicitSlug e ≠ some s) :
    ((((UserRegistry.new U users).replaceConsole U stored).replaceConsole U
        included).directory.consolePerson entry.userId) =
      some ⟨((UserRegistry.new U users).replaceConsole U stored).personKey U entry, .console,
        entry.identities⟩ := by
  have hmem : entry ∈ (build U (Seed.new U users) included).entries := by
    refine mem_firstByKey.mpr ?_
    rw [hinc, if_pos rfl]
  obtain ⟨i, hi⟩ := List.mem_iff_getElem?.mp hmem
  obtain ⟨k, hk, -, hp⟩ := consolePerson_eq _ _ hi
  refine hp.trans ?_
  suffices hkey : ((UserRegistry.new U users).replaceConsole U stored).personKey U entry = k by
    rw [hkey]
  unfold UserRegistry.personKey
  split
  · rename_i s hs
    have hf : ∀ j < i, ∀ e, (build U (Seed.new U users) included).entries[j]? = some e →
        explicitSlug e ≠ some s := by
      intro j hj e he
      have hid : e.userId ≠ entry.userId := fun h => hj.ne
        (Option.some.inj ((consoles_eq he).symm.trans (h ▸ consoles_eq hi)))
      have hm : stored.find? (fun e' => e'.userId = e.userId) = some e := by
        rw [← mem_firstByKey.mp (List.mem_of_getElem? he), hinc, if_neg hid]
      exact hfresh e (List.mem_of_find?_eq_some hm) hid s hs
    exact Option.some.inj ((assignKeys_slug hi hs hf).symm.trans hk)
  · rename_i hslug
    split
    · rename_i key hkey
      obtain ⟨j, old, ho, ha, hkey⟩ := storedKey_eq_some hkey
      obtain ⟨hr, heq⟩ := assignKeys_replaced hinc ho ha
      cases Option.some.inj ((consoles_eq hr).symm.trans (consoles_eq hi))
      exact Option.some.inj (hkey.symm.trans (heq ▸ hk))
    · exact (congrArg (fun es => UserRegistry.keyAmong U (Seed.new U users) es entry.userId)
        (entries_among hinc)).trans (keyAmong_eq (keySorted_entries _ _ included) hi hk)

/-- What a directory promises: nobody shares a key, a configured person is there as long as no
console person has the key, and keys and aliases lead to their own person. -/
structure Resolves (seed : Seed) (stored : List ConsoleIdentity) (d : Directory) : Prop where
  distinct : (d.persons.map Person.key).Nodup
  visible : ∀ key user, ⟨key, .config, user⟩ ∈ d.persons ↔ seed.users.lookup key = some user ∧
    ∀ p ∈ d.persons, p.origin = .console → p.key ≠ key
  byKey : ∀ p ∈ d.persons, d.person p.key = some p
  byAlias : ∀ e, stored.find? (fun e' => e'.userId = e.userId) = some e →
    ∃ key, d.consolePerson e.userId = some ⟨key, .console, e.identities⟩ ∧
      d.person (consoleKey e.userId) = some ⟨key, .console, e.identities⟩

theorem build_resolves (hr : seed.Retained U) (hu : Unreserved stored) :
    Resolves seed stored (build U seed stored) where
  distinct := nodup_keys hr hu
  visible := config_visible
  byKey p hp := by
    obtain ⟨i, hi⟩ := List.mem_iff_getElem?.mp hp
    rw [person, keys_eq hr hu hi]
    exact hi
  byAlias e he := by
    obtain ⟨i, hi⟩ := List.mem_iff_getElem?.mp (mem_firstByKey.mpr he)
    obtain ⟨k, -, hp, hc⟩ := consolePerson_eq U seed hi
    refine ⟨k, hc, ?_⟩
    rw [person, keys_alias hi]
    exact hp

/-- For every seed and every stored set of console people: the key of a further entry is
predicted, and the directory promises what `Resolves` says. -/
theorem person_keys_predicted (U : CaseProps) (users : Users) (stored : List ConsoleIdentity) :
    (∀ included entry, Includes included stored entry →
      (∀ e ∈ stored, e.userId ≠ entry.userId → ∀ s, explicitSlug entry = some s →
        explicitSlug e ≠ some s) →
      (((UserRegistry.new U users).replaceConsole U stored).replaceConsole U
          included).directory.consolePerson entry.userId =
        some ⟨((UserRegistry.new U users).replaceConsole U stored).personKey U entry, .console,
          entry.identities⟩) ∧
    (Unreserved stored → Resolves (Seed.new U users) stored
      ((UserRegistry.new U users).replaceConsole U stored).directory) :=
  ⟨fun _ _ hinc hf => personKey_eq users hinc hf, build_resolves (retained_new users)⟩

/-! An admin has given the configured key of a person to somebody else. -/

/-- No letter of these emails depends on where a word ends. -/
def uncased : CaseProps := ⟨fun _ => false, fun _ => false⟩

def nobody : Identities := ⟨[], [], [], [], [], none, none, none, none, none, none, none⟩

def jake : Users := AList.singleton "jake" { nobody with email := some "jake@example.com" }

def boss : ConsoleIdentity := ⟨2, "boss@appwrite.io", some "jake", nobody⟩

def unsaved : ConsoleIdentity := ⟨6, "Jake@Example.com", none, nobody⟩

theorem person_keys_predicted_boss :
    (((UserRegistry.new uncased jake).replaceConsole uncased [boss]).replaceConsole uncased
        [unsaved, boss]).directory.consolePerson 6 =
      some ⟨((UserRegistry.new uncased jake).replaceConsole uncased [boss]).personKey uncased unsaved, .console,
        nobody⟩ ∧
    Resolves (Seed.new uncased jake) [boss]
      ((UserRegistry.new uncased jake).replaceConsole uncased [boss]).directory := by
  obtain ⟨h, hr⟩ := person_keys_predicted uncased jake [boss]
  refine ⟨h [unsaved, boss] unsaved ?_ ?_, hr ?_⟩
  · intro id
    by_cases hid : id = unsaved.userId
    · subst hid
      rfl
    · rw [if_neg hid, List.find?_cons, decide_eq_false (Ne.symm hid)]
  · intro e _ _ s hs
    cases hs
  · intro e he s hs
    cases List.mem_singleton.mp he
    have hb : explicitSlug boss = some "jake" := by decide +kernel
    cases hs.symm.trans hb
    decide

end Predict

end Claudear.Config
