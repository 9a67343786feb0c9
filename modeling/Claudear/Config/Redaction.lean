import Claudear.Data.Document

/-!
# Saving a redacted config

The dashboard shows the config with its secrets replaced by a sentinel, and what
it saves is compared with the config on disk: a sentinel stands for the value at
its place there. It is refused when an endpoint in its scope changed, so that a
stored secret is not sent to a new host.

`restoreValue` carries the changed endpoint in force, if there is one, down the
document. A table that is no `env`, `headers` or `extra` table starts without
one, and so does every table of an array.
-/

universe u

namespace Claudear.Config

open Claudear.Data

def REDACTED : String := "[REDACTED]"

def SECRET_TABLE_NAMES : List String := ["env", "headers", "extra"]

def ENDPOINT_SUFFIXES : List String := ["url", "host"]

inductive ConfigErrorCode where
  | invalid | readOnly | revisionMismatch | unreadable
  deriving DecidableEq, Repr

structure ConfigFileError where
  code : ConfigErrorCode
  message : String
  deriving DecidableEq, Repr

def ConfigFileError.invalid (message : String) : ConfigFileError := ⟨.invalid, message⟩

def isSecretTable (key : String) : Bool := SECRET_TABLE_NAMES.contains key

/-- The key ends in a suffix of endpoints, in any case of ASCII letters. -/
def isEndpoint (key : String) : Bool :=
  ENDPOINT_SUFFIXES.any fun suffix => suffix.toList.isSuffixOf (key.toList.map Char.toLower)

def childPath (parent key : String) : String := if parent = "" then key else s!"{parent}.{key}"

def itemPath (path : String) (index : Nat) : String := s!"{path}[{index}]"

variable {α : Type*} [DecidableEq α]

def isSentinel : Value α → Bool
  | .string text => text = REDACTED
  | _ => false

/-- Equality of values that may be missing. -/
def sameOption : Option (Value α) → Option (Value α) → Bool
  | none, none => true
  | some v, some w => v.same w
  | _, _ => false

/-- The key's value is no sentinel, and not what it was. -/
def edited (incoming current : Entries α) (key : String) : Bool :=
  !(incoming.lookup key).any isSentinel && !sameOption (incoming.lookup key) (current.lookup key)

def changedEndpoint (incoming current : Entries α) (path : String) : Option String :=
  let keys := incoming.map Prod.fst ++
    (current.map Prod.fst).filter fun key => (incoming.lookup key).isNone
  ((keys.filter isEndpoint).find? (edited incoming current)).map (childPath path)

/-- The endpoint that a table hands to an entry. -/
def entryScope (key : String) (value : Value α) (inherited endpoint : Option String) : Option String :=
  if value.isTable && !isSecretTable key && inherited.isNone then none else endpoint

/-- The endpoint that an array hands to an item. -/
def itemScope (value : Value α) (changed : Option String) : Option String :=
  if value.isTable then none else changed

mutual

def restoreValue : Value α → Value α → String → Option String → Except ConfigFileError (Value α)
  | .table incoming, .table current, path, inherited => do
    let endpoint := (changedEndpoint incoming current path).or inherited
    return .table (← restoreEntries incoming current path inherited endpoint)
  | .array incoming, .array current, path, changed =>
    if incoming.length = current.length then do
      return .array (← restoreItems incoming current path 0 changed)
    else return .array incoming
  | .string text, current, path, changed =>
    if text = REDACTED then
      match changed with
      | some endpoint => throw (.invalid s!"Re-enter {path} when changing {endpoint}")
      | none => return current
    else return .string text
  | value, _, _, _ => return value

/-- `restore_table`, past the endpoints. -/
def restoreEntries : Entries α → Entries α → String → Option String → Option String →
    Except ConfigFileError (Entries α)
  | [], _, _, _, _ => return []
  | (key, value) :: rest, current, path, inherited, endpoint => do
    let value ← match current.lookup key with
      | some current => restoreValue value current (childPath path key) (entryScope key value inherited endpoint)
      | none => pure value
    return (key, value) :: (← restoreEntries rest current path inherited endpoint)

def restoreItems : List (Value α) → List (Value α) → String → Nat → Option String →
    Except ConfigFileError (List (Value α))
  | value :: rest, current :: currents, path, index, changed => do
    let value ← restoreValue value current (itemPath path index) (itemScope value changed)
    return value :: (← restoreItems rest currents path (index + 1) changed)
  | rest, _, _, _, _ => return rest

end

mutual

def collectSentinels : Value α → String → List String
  | .table entries, path => collectEntries entries path
  | .array items, path => collectItems items path 0
  | .string text, path => if text = REDACTED then [path] else []
  | .scalar _, _ => []

def collectEntries : Entries α → String → List String
  | [], _ => []
  | (key, child) :: rest, path => collectSentinels child (childPath path key) ++ collectEntries rest path

def collectItems : List (Value α) → String → Nat → List String
  | [], _, _ => []
  | child :: rest, path, index =>
    collectSentinels child (itemPath path index) ++ collectItems rest path (index + 1)

end

/-- Where a document still holds the sentinel. -/
def unrestored (document : Value α) : List String := collectSentinels document ""

def restore (incoming current : Value α) : Except ConfigFileError (Value α) :=
  restoreValue incoming current "" none

variable (normalizeDocument : Value α → Option (Value α))

/-- What an incoming document is compared with. -/
def comparable (current : Value α) : Value α := (normalizeDocument current).getD current

def restoreAll (incoming current : Value α) : Except ConfigFileError (Value α) := do
  let restored ← restore incoming (comparable normalizeDocument current)
  let placeholders := unrestored restored
  if placeholders.isEmpty then return restored
  else throw (.invalid ("Config still contains redacted placeholders for: " ++
    ", ".intercalate placeholders ++ ". Provide the actual value(s) for these fields."))

/-! ## The endpoints of a table -/

variable {es cs : Entries α} {v c r x c' : Value α} {p q rest : Path} {k e path : String} {b b' : Bool}
  {inherited endpoint changed : Option String}

omit [DecidableEq α] in
theorem isSentinel_iff : isSentinel v = true ↔ v = .string REDACTED := by
  cases v <;> simp [isSentinel]

/-- The endpoints of a table are as they were, or masked. -/
def EndpointsKept (incoming current : Entries α) : Prop :=
  ∀ e, isEndpoint e = true → incoming.lookup e = some (.string REDACTED) ∨
    sameOption (incoming.lookup e) (current.lookup e) = true

theorem edited_eq_false : edited es cs e = false ↔
    es.lookup e = some (.string REDACTED) ∨ sameOption (es.lookup e) (cs.lookup e) = true := by
  have hany : (es.lookup e).any isSentinel = true ↔ es.lookup e = some (.string REDACTED) := by
    rw [Option.any_eq_true]
    simp [isSentinel_iff]
  rw [edited, Bool.and_eq_false_iff, Bool.not_eq_false', Bool.not_eq_false', hany]

omit [DecidableEq α] in
theorem lookup_eq_none (h : e ∉ es.map Prod.fst) : es.lookup e = none := by
  cases hl : es.lookup e with
  | none => rfl
  | some v => exact absurd (List.mem_map_of_mem (Value.mem_of_lookup hl)) h

theorem changedEndpoint_eq_none : changedEndpoint es cs path = none ↔ EndpointsKept es cs := by
  rw [changedEndpoint, Option.map_eq_none_iff, List.find?_eq_none]
  constructor
  · intro h e he
    rw [← edited_eq_false]
    by_cases hes : e ∈ es.map Prod.fst
    · exact Bool.eq_false_iff.mpr (h e (List.mem_filter.mpr ⟨List.mem_append_left _ hes, he⟩))
    · have hnone := lookup_eq_none hes
      by_cases hcs : e ∈ cs.map Prod.fst
      · have hmem : e ∈ (cs.map Prod.fst).filter fun key => (es.lookup key).isNone := by
          rw [List.mem_filter, hnone]
          exact ⟨hcs, rfl⟩
        exact Bool.eq_false_iff.mpr (h e (List.mem_filter.mpr ⟨List.mem_append_right _ hmem, he⟩))
      · rw [edited_eq_false, hnone, lookup_eq_none hcs]
        exact .inr rfl
  · intro h e he
    exact Bool.eq_false_iff.mp (edited_eq_false.mpr (h e (List.mem_filter.mp he).2))

/-! ## What restoring reaches -/

/-- Whether a table hands an entry a changed endpoint: `inherited`, or its own. -/
def entryFlag (key : String) (value : Value α) (inherited changed : Bool) : Bool :=
  if value.isTable && !isSecretTable key && !inherited then false else changed || inherited

omit [DecidableEq α] in
theorem isSome_entryScope :
    (entryScope k v inherited (changed.or inherited)).isSome =
      entryFlag k v inherited.isSome changed.isSome := by
  unfold entryScope entryFlag
  cases v.isTable <;> cases isSecretTable k <;> cases inherited <;> cases changed <;> rfl

omit [DecidableEq α] in
theorem isSome_itemScope : (itemScope v changed).isSome = (!v.isTable && changed.isSome) := by
  unfold itemScope
  cases v.isTable <;> rfl

/-- Restoring the first document from the second gets to a place, with what stands there in both and
whether a changed endpoint is in force. -/
inductive Reaches : Value α → Value α → Bool → Path → Value α → Value α → Bool → Prop
  | here (v c : Value α) (b : Bool) : Reaches v c b [] v c b
  | key {es cs : Entries α} {k : String} {v c x c' : Value α} {b b' : Bool} {p : Path}
    (hv : es.lookup k = some v) (hc : cs.lookup k = some c)
    (h : Reaches v c (entryFlag k v b (changedEndpoint es cs "").isSome) p x c' b') :
    Reaches (.table es) (.table cs) b (.key k :: p) x c' b'
  | index {xs ys : List (Value α)} {i : Nat} {v c x c' : Value α} {b b' : Bool} {p : Path}
    (hl : xs.length = ys.length) (hv : xs[i]? = some v) (hc : ys[i]? = some c)
    (h : Reaches v c (!v.isTable && b) p x c' b') :
    Reaches (.array xs) (.array ys) b (.index i :: p) x c' b'

theorem isSome_changedEndpoint (path : String) :
    (changedEndpoint es cs path).isSome = (changedEndpoint es cs "").isSome := by
  simp [changedEndpoint]

theorem Reaches.get (h : Reaches v c b p x c' b') : v.get p = some x ∧ c.get p = some c' := by
  induction h with
  | here v c b => simp
  | key hv hc _ ih => exact ⟨(Value.get_key hv _).trans ih.1, (Value.get_key hc _).trans ih.2⟩
  | index _ hv hc _ ih => exact ⟨(Value.get_index hv _).trans ih.1, (Value.get_index hc _).trans ih.2⟩

theorem bind_eq_ok {ε : Type*} {β γ : Type u} {m : Except ε β} {f : β → Except ε γ} {r : γ} :
    m >>= f = .ok r ↔ ∃ a, m = .ok a ∧ f a = .ok r := by
  cases m with
  | error e => simp [bind, Except.bind]
  | ok a => simp [bind, Except.bind]

theorem restoreEntries_cons_some {es' : Entries α} (hc : cs.lookup k = some c) :
    restoreEntries ((k, v) :: es) cs path inherited endpoint = .ok es' ↔
      ∃ r, restoreValue v c (childPath path k) (entryScope k v inherited endpoint) = .ok r ∧
        ∃ rs, restoreEntries es cs path inherited endpoint = .ok rs ∧ (k, r) :: rs = es' := by
  rw [restoreEntries]
  simp only [hc, bind_eq_ok, pure, Except.pure, Except.ok.injEq]

theorem restoreEntries_cons_none {es' : Entries α} (hc : cs.lookup k = none) :
    restoreEntries ((k, v) :: es) cs path inherited endpoint = .ok es' ↔
      ∃ rs, restoreEntries es cs path inherited endpoint = .ok rs ∧ (k, v) :: rs = es' := by
  rw [restoreEntries]
  simp only [hc, bind_eq_ok, pure, Except.pure, Except.ok.injEq, exists_eq_left']

theorem restoreItems_cons {xs ys xs' : List (Value α)} {index : Nat} :
    restoreItems (v :: xs) (c :: ys) path index changed = .ok xs' ↔
      ∃ r, restoreValue v c (itemPath path index) (itemScope v changed) = .ok r ∧
        ∃ rs, restoreItems xs ys path (index + 1) changed = .ok rs ∧ r :: rs = xs' := by
  rw [restoreItems]
  simp only [bind_eq_ok, pure, Except.pure, Except.ok.injEq]

/-- The entry that restoring leaves under a key. -/
theorem restoreEntries_lookup {es' : Entries α}
    (h : restoreEntries es cs path inherited endpoint = .ok es') (hv : es.lookup k = some v) :
    (∃ c r, cs.lookup k = some c ∧
        restoreValue v c (childPath path k) (entryScope k v inherited endpoint) = .ok r ∧
        es'.lookup k = some r) ∨
      es'.lookup k = some v := by
  induction es generalizing es' with
  | nil => cases hv
  | cons e es ih =>
    obtain ⟨k', u⟩ := e
    rw [List.lookup_cons] at hv
    have hskip {r : Value α} {rs : Entries α} (hk : (k == k') = false) :
        List.lookup k ((k', r) :: rs) = rs.lookup k := by rw [List.lookup_cons, hk]
    cases hk : k == k' with
    | true =>
      rw [hk] at hv
      obtain rfl := Option.some.inj hv
      obtain rfl := eq_of_beq hk
      cases hc : cs.lookup k with
      | some c =>
        obtain ⟨r, hr, rs, -, rfl⟩ := (restoreEntries_cons_some hc).mp h
        exact .inl ⟨c, r, rfl, hr, List.lookup_cons_self⟩
      | none =>
        obtain ⟨rs, -, rfl⟩ := (restoreEntries_cons_none hc).mp h
        exact .inr List.lookup_cons_self
    | false =>
      rw [hk] at hv
      cases hc : cs.lookup k' with
      | some c =>
        obtain ⟨r, -, rs, hrs, rfl⟩ := (restoreEntries_cons_some hc).mp h
        rw [hskip hk]
        exact ih hrs hv
      | none =>
        obtain ⟨rs, hrs, rfl⟩ := (restoreEntries_cons_none hc).mp h
        rw [hskip hk]
        exact ih hrs hv

/-- The item that restoring leaves at an index. -/
theorem restoreItems_get {xs ys xs' : List (Value α)} {index i : Nat}
    (h : restoreItems xs ys path index changed = .ok xs') (hl : xs.length = ys.length)
    (hv : xs[i]? = some v) :
    ∃ c r, ys[i]? = some c ∧
      restoreValue v c (itemPath path (index + i)) (itemScope v changed) = .ok r ∧ xs'[i]? = some r := by
  induction xs generalizing ys xs' index i with
  | nil => cases hv
  | cons x xs ih =>
    cases ys with
    | nil => cases hl
    | cons y ys =>
      obtain ⟨r, hr, rs, hrs, rfl⟩ := restoreItems_cons.mp h
      cases i with
      | zero =>
        obtain rfl := Option.some.inj hv
        exact ⟨y, r, rfl, hr, rfl⟩
      | succ i =>
        obtain ⟨c, r', hc, hr', hx⟩ := ih hrs (Nat.succ.inj hl) hv
        refine ⟨c, r', hc, ?_, hx⟩
        rwa [Nat.add_right_comm] at hr'

theorem restoreValue_table :
    restoreValue (.table es) (.table cs) path inherited = .ok r ↔
      ∃ rs, restoreEntries es cs path inherited ((changedEndpoint es cs path).or inherited) = .ok rs ∧
        .table rs = r := by
  rw [restoreValue]
  simp only [bind_eq_ok, pure, Except.pure, Except.ok.injEq]

/-- A document is only restored from one of its kind. -/
theorem restoreValue_table_of (h : restoreValue (.table es) c path inherited = .ok r) :
    (∃ cs, c = .table cs) ∨ r = .table es := by
  cases c with
  | table cs => exact .inl ⟨cs, rfl⟩
  | _ =>
    rw [restoreValue] at h
    · exact .inr (Except.ok.inj h).symm
    · simp
    · simp
    · simp

theorem restoreValue_array {xs : List (Value α)} (h : restoreValue (.array xs) c path changed = .ok r) :
    (∃ ys rs, c = .array ys ∧ xs.length = ys.length ∧ restoreItems xs ys path 0 changed = .ok rs ∧
        .array rs = r) ∨
      r = .array xs := by
  cases c with
  | array ys =>
    rw [restoreValue] at h
    split at h
    · rename_i hl
      obtain ⟨rs, hrs, hr⟩ := bind_eq_ok.mp h
      exact .inl ⟨ys, rs, rfl, hl, hrs, Except.ok.inj hr⟩
    · exact .inr (Except.ok.inj h).symm
  | _ =>
    rw [restoreValue] at h
    · exact .inr (Except.ok.inj h).symm
    · simp
    · simp
    · simp

theorem restoreValue_sentinel (h : restoreValue (.string REDACTED) c path changed = .ok r) :
    changed = none ∧ c = r := by
  cases changed with
  | none =>
    have hr : restoreValue (.string REDACTED) c path none = .ok c := by cases c <;> rfl
    exact ⟨rfl, Except.ok.inj (hr.symm.trans h)⟩
  | some endpoint => cases c <;> cases h

/-- A sentinel is replaced by what stands at its place in the current document, with no changed
endpoint in force, or is still there. -/
theorem restoreValue_get (h : restoreValue v c path changed = .ok r)
    (hs : v.get p = some (.string REDACTED)) :
    (∃ c', Reaches v c changed.isSome p (.string REDACTED) c' false ∧ r.get p = some c') ∨
      r.get p = some (.string REDACTED) := by
  induction p generalizing v c path changed r with
  | nil =>
    rw [Value.get_nil] at hs
    obtain rfl := Option.some.inj hs
    obtain ⟨rfl, rfl⟩ := restoreValue_sentinel h
    exact .inl ⟨c, .here _ _ _, Value.get_nil c⟩
  | cons seg p ih =>
    rcases Value.get_cons hs with ⟨es, k, u, rfl, rfl, hu, hs'⟩ | ⟨xs, i, u, rfl, rfl, hu, hs'⟩
    · rcases restoreValue_table_of h with ⟨cs, rfl⟩ | rfl
      · obtain ⟨rs, hrs, rfl⟩ := restoreValue_table.mp h
        rcases restoreEntries_lookup hrs hu with ⟨cu, ru, hc, hr, hl⟩ | hl
        · rw [Value.get_key hl]
          refine (ih hr hs').imp_left fun hreach => ?_
          obtain ⟨c', hreach, hget⟩ := hreach
          rw [isSome_entryScope, isSome_changedEndpoint] at hreach
          exact ⟨c', .key hu hc hreach, hget⟩
        · exact .inr ((Value.get_key hl p).trans hs')
      · exact .inr hs
    · rcases restoreValue_array h with ⟨ys, rs, rfl, hl, hrs, rfl⟩ | rfl
      · obtain ⟨cu, ru, hc, hr, hx⟩ := restoreItems_get hrs hl hu
        rw [Value.get_index hx]
        refine (ih hr hs').imp_left fun hreach => ?_
        obtain ⟨c', hreach, hget⟩ := hreach
        rw [isSome_itemScope] at hreach
        exact ⟨c', .index hl hu hc hreach, hget⟩
      · exact .inr hs

/-! ## The scope of an endpoint -/

/-- The path goes through no entry. -/
def noKeys (p : Path) : Bool := p.all fun s => match s with
  | .key _ => false
  | .index _ => true

/-- The path goes through no entry of an array's item: a changed endpoint is carried along it. -/
def carried : Path → Bool
  | .index _ :: .key _ :: _ => false
  | _ :: p => carried p
  | [] => true

/-- An entry's endpoint guards what is at this path inside it. -/
def guards (k : String) (rest : Path) : Bool := (noKeys rest || isSecretTable k) && carried rest

theorem noKeys_index (i : Nat) (p : Path) : noKeys (.index i :: p) = noKeys p := by
  simp [noKeys]

theorem carried_of_noKeys (h : noKeys p = true) : carried p = true := by
  induction p with
  | nil => rfl
  | cons s p ih =>
    cases s with
    | key k => cases h
    | index i =>
      rw [noKeys_index] at h
      cases p with
      | nil => rfl
      | cons t p =>
        cases t with
        | key k => cases h
        | index j => exact ih h

theorem noKeys_of_carried_index {i : Nat} (h : carried (.index i :: p) = true) : noKeys p = true := by
  induction p generalizing i with
  | nil => rfl
  | cons t p ih =>
    cases t with
    | key k => cases h
    | index j =>
      rw [noKeys_index]
      exact ih h

/-- What restoring reaches at a key is a table. -/
theorem Reaches.table (h : Reaches v c b (.key k :: p) x c' b') : v.isTable = true := by
  cases h
  rfl

theorem Reaches.not_table (h : Reaches v c b p x c' b') (hp : noKeys p = true) (hx : x.isTable = false) :
    v.isTable = false := by
  cases h with
  | here => exact hx
  | key => cases hp
  | index => rfl

/-- A changed endpoint stays in force where it is carried. -/
theorem Reaches.carries (h : Reaches v c b p x c' b') (hx : x.isTable = false) (hp : carried p = true)
    (hb : b = true) : b' = true := by
  induction h with
  | here => exact hb
  | key _ _ _ ih =>
    subst hb
    exact ih hx hp (by simp [entryFlag])
  | index _ _ _ h ih =>
    subst hb
    have hkeys := noKeys_of_carried_index hp
    refine ih hx (carried_of_noKeys hkeys) ?_
    rw [h.not_table hkeys hx, Bool.not_false, Bool.and_self]

omit [DecidableEq α] in
theorem entryFlag_false {changed : Bool} : entryFlag k v false changed = true ↔
    (v.isTable = false ∨ isSecretTable k = true) ∧ changed = true := by
  unfold entryFlag
  cases v.isTable <;> cases isSecretTable k <;> cases changed <;> simp

/-- A table's changed endpoint is handed to the entries it guards. -/
theorem entryFlag_of_guards (h : Reaches v c b rest x c' b') (hg : guards k rest = true)
    (hx : x.isTable = false) (inherited : Bool) : entryFlag k v inherited true = true := by
  rw [entryFlag, Bool.true_or]
  rcases Bool.or_eq_true_iff.mp (Bool.and_eq_true_iff.mp hg).1 with hk | hk
  · rw [h.not_table hk hx]
    rfl
  · simp [hk]

/-- Where no changed endpoint is in force, the endpoints of the tables that guard the place are as
they were. -/
theorem Reaches.kept (h : Reaches v c b (q ++ .key k :: rest) x c' false)
    (hg : guards k rest = true) (hx : x.isTable = false) :
    ∃ es cs, v.get q = some (.table es) ∧ c.get q = some (.table cs) ∧ EndpointsKept es cs := by
  induction q generalizing v c b with
  | nil =>
    rw [List.nil_append] at h
    cases h with
    | key hv hc h =>
      rename_i es cs u cu
      refine ⟨es, cs, Value.get_nil _, Value.get_nil _, ?_⟩
      cases hchanged : changedEndpoint es cs "" with
      | none => exact changedEndpoint_eq_none.mp hchanged
      | some endpoint =>
        rw [hchanged, Option.isSome_some] at h
        have hflag := entryFlag_of_guards h hg hx b
        cases h.carries hx (Bool.and_eq_true_iff.mp hg).2 hflag
  | cons s q ih =>
    rw [List.cons_append] at h
    cases h with
    | key hv hc h =>
      obtain ⟨es, cs, hes, hcs, hkept⟩ := ih h
      exact ⟨es, cs, (Value.get_key hv q).trans hes, (Value.get_key hc q).trans hcs, hkept⟩
    | index hl hv hc h =>
      obtain ⟨es, cs, hes, hcs, hkept⟩ := ih h
      exact ⟨es, cs, (Value.get_index hv q).trans hes, (Value.get_index hc q).trans hcs, hkept⟩

/-- Where one is in force, it was handed in, or a table that guards the place has a changed one. -/
theorem Reaches.cause (h : Reaches v c b p x c' b') (hb : b' = true) : (b = true ∧ carried p = true) ∨
    ∃ q k rest es cs, p = q ++ .key k :: rest ∧ guards k rest = true ∧ v.get q = some (.table es) ∧
      c.get q = some (.table cs) ∧ ¬ EndpointsKept es cs := by
  induction h with
  | here => exact .inl ⟨hb, rfl⟩
  | key hv hc h ih =>
    rename_i es cs k u cu x c' b b' p
    rcases ih hb with ⟨hflag, hp⟩ | ⟨q, k', rest, es', cs', rfl, hg, hes, hcs, hn⟩
    · cases hinherited : b with
      | true => exact .inl ⟨rfl, hp⟩
      | false =>
        subst hinherited
        obtain ⟨hu, hchanged⟩ := entryFlag_false.mp hflag
        refine .inr ⟨[], k, p, es, cs, rfl, ?_, Value.get_nil _, Value.get_nil _, fun hk => ?_⟩
        · rw [guards, hp, Bool.and_true, Bool.or_eq_true]
          refine hu.imp_left fun hu => ?_
          -- what is no table is reached by no key
          cases p with
          | nil => rfl
          | cons s p =>
            cases s with
            | key k' =>
              rw [h.table] at hu
              cases hu
            | index i =>
              rw [noKeys_index]
              exact noKeys_of_carried_index hp
        · rw [changedEndpoint_eq_none.mpr hk] at hchanged
          cases hchanged
    · exact .inr ⟨.key k :: q, k', rest, es', cs', rfl, hg, (Value.get_key hv q).trans hes,
        (Value.get_key hc q).trans hcs, hn⟩
  | index hl hv hc h ih =>
    rename_i i u cu x c' b b' p
    rcases ih hb with ⟨hflag, hp⟩ | ⟨q, k', rest, es', cs', rfl, hg, hes, hcs, hn⟩
    · obtain ⟨hu, hb⟩ := Bool.and_eq_true_iff.mp hflag
      refine .inl ⟨hb, ?_⟩
      cases p with
      | nil => rfl
      | cons s p =>
        cases s with
        | key k =>
          rw [h.table] at hu
          cases hu
        | index j => exact hp
    · exact .inr ⟨.index i :: q, k', rest, es', cs', rfl, hg, (Value.get_index hv q).trans hes,
        (Value.get_index hc q).trans hcs, hn⟩

/-! ## Placeholders -/

omit [DecidableEq α] in
theorem collectEntries_lookup (h : collectEntries es path = []) (hv : es.lookup k = some v) :
    collectSentinels v (childPath path k) = [] := by
  induction es with
  | nil => cases hv
  | cons e es ih =>
    obtain ⟨k', u⟩ := e
    rw [collectEntries, List.append_eq_nil_iff] at h
    rw [List.lookup_cons] at hv
    cases hk : k == k' with
    | true =>
      rw [hk] at hv
      obtain rfl := Option.some.inj hv
      rw [eq_of_beq hk]
      exact h.1
    | false =>
      rw [hk] at hv
      exact ih h.2 hv

omit [DecidableEq α] in
theorem collectItems_get {xs : List (Value α)} {index i : Nat} (h : collectItems xs path index = [])
    (hv : xs[i]? = some v) : collectSentinels v (itemPath path (index + i)) = [] := by
  induction xs generalizing index i with
  | nil => cases hv
  | cons x xs ih =>
    rw [collectItems, List.append_eq_nil_iff] at h
    cases i with
    | zero =>
      obtain rfl := Option.some.inj hv
      exact h.1
    | succ i =>
      have hrest := ih h.2 hv
      rwa [Nat.add_right_comm] at hrest

omit [DecidableEq α] in
/-- A document without placeholders holds no sentinel. -/
theorem no_sentinel (h : collectSentinels v path = []) (p : Path) :
    v.get p ≠ some (.string REDACTED) := by
  intro hs
  induction p generalizing v path with
  | nil =>
    rw [Value.get_nil] at hs
    obtain rfl := Option.some.inj hs
    cases h
  | cons seg p ih =>
    rcases Value.get_cons hs with ⟨es, k, u, rfl, rfl, hu, hs⟩ | ⟨xs, i, u, rfl, rfl, hu, hs⟩
    · exact ih (collectEntries_lookup (by rwa [collectSentinels] at h) hu) hs
    · exact ih (collectItems_get (by rwa [collectSentinels] at h) hu) hs

omit [DecidableEq α] in
theorem collectSentinels_of_none (hu : v.UniqueKeys) (h : ∀ p, v.get p ≠ some (.string REDACTED)) :
    collectSentinels v path = [] := by
  induction v generalizing path with
  | string text =>
    rw [collectSentinels, if_neg]
    rintro rfl
    exact h [] (Value.get_nil _)
  | scalar a => rfl
  | array xs ih =>
    have hitems (ys : List (Value α)) (index : Nat)
        (hys : ∀ y ∈ ys, ∀ path, collectSentinels y path = []) : collectItems ys path index = [] := by
      induction ys generalizing index with
      | nil => rfl
      | cons y ys ihy =>
        obtain ⟨hy, hys⟩ := List.forall_mem_cons.mp hys
        rw [collectItems, hy, ihy _ hys, List.append_nil]
    rw [collectSentinels]
    refine hitems xs 0 fun x hx path => ?_
    obtain ⟨i, hi⟩ := List.mem_iff_getElem?.mp hx
    exact ih x hx (hu.item hi) fun p hp => h (.index i :: p) ((Value.get_index hi p).trans hp)
  | table es ih =>
    have hentries (fs : Entries α) (hfs : ∀ f ∈ fs, ∀ path, collectSentinels f.2 path = []) :
        collectEntries fs path = [] := by
      induction fs with
      | nil => rfl
      | cons f fs ihf =>
        obtain ⟨hf, hfs⟩ := List.forall_mem_cons.mp hfs
        rw [show f = (f.1, f.2) from rfl, collectEntries, hf, ihf hfs, List.append_nil]
    rw [collectSentinels]
    refine hentries es fun e he path => ih e he (hu.entry he) fun p hp => ?_
    exact h (.key e.1 :: p) ((Value.get_key (Value.lookup_of_mem hu.nodup he) p).trans hp)

theorem restoreAll_eq_ok {normalizeDocument : Value α → Option (Value α)} {incoming current restored : Value α} :
    restoreAll normalizeDocument incoming current = .ok restored ↔
      restore incoming (comparable normalizeDocument current) = .ok restored ∧ unrestored restored = [] := by
  rw [restoreAll, bind_eq_ok]
  constructor
  · rintro ⟨r, hr, h⟩
    dsimp only at h
    split at h
    · rename_i hempty
      obtain rfl := Except.ok.inj h
      exact ⟨hr, List.isEmpty_iff.mp hempty⟩
    · cases h
  · rintro ⟨hr, hempty⟩
    refine ⟨restored, hr, ?_⟩
    rw [if_pos (List.isEmpty_iff.mpr hempty)]
    rfl

/-! ## Where the secrets go -/

/-- The endpoints of the table at a place are as they were, or masked. -/
def KeptAt (incoming current : Value α) (q : Path) : Prop :=
  ∃ es cs, incoming.get q = some (.table es) ∧ current.get q = some (.table cs) ∧ EndpointsKept es cs

/-- What a restored document owes to the secrets of the one it was restored from. -/
structure SecretsStay (incoming current restored : Value α) : Prop where
  noSentinel : ∀ p, restored.get p ≠ some (.string REDACTED)
  samePlace : ∀ p, incoming.get p = some (.string REDACTED) →
    ∃ v, current.get p = some v ∧ restored.get p = some v
  sameLength : ∀ q i rest, incoming.get (q ++ .index i :: rest) = some (.string REDACTED) →
    ∃ xs ys, incoming.get q = some (.array xs) ∧ current.get q = some (.array ys) ∧ xs.length = ys.length
  /-- The endpoints of the secret's own table. -/
  own : ∀ q k rest, incoming.get (q ++ .key k :: rest) = some (.string REDACTED) → noKeys rest = true →
    KeptAt incoming current q
  /-- And of the table around an `env`, `headers` or `extra` table it is in. -/
  enclosing : ∀ q k rest, incoming.get (q ++ .key k :: rest) = some (.string REDACTED) →
    isSecretTable k = true → KeptAt incoming current q

/-- What of it restoring does not see to: the secrets of the tables in arrays of `env`, `headers` and
`extra` tables. -/
def ItemsKept (incoming current : Value α) : Prop :=
  ∀ q k rest, incoming.get (q ++ .key k :: rest) = some (.string REDACTED) → isSecretTable k = true →
    carried rest = false → KeptAt incoming current q

theorem Reaches.lengths {i : Nat} (h : Reaches v c b (q ++ .index i :: rest) x c' b') :
    ∃ xs ys, v.get q = some (.array xs) ∧ c.get q = some (.array ys) ∧ xs.length = ys.length := by
  induction q generalizing v c b with
  | nil =>
    cases h with
    | index hl => exact ⟨_, _, Value.get_nil _, Value.get_nil _, hl⟩
  | cons s q ih =>
    rw [List.cons_append] at h
    cases h with
    | key hv hc h =>
      obtain ⟨xs, ys, hxs, hys, hl⟩ := ih h
      exact ⟨xs, ys, (Value.get_key hv q).trans hxs, (Value.get_key hc q).trans hys, hl⟩
    | index _ hv hc h =>
      obtain ⟨xs, ys, hxs, hys, hl⟩ := ih h
      exact ⟨xs, ys, (Value.get_index hv q).trans hxs, (Value.get_index hc q).trans hys, hl⟩

theorem secretsStay_iff {incoming current restored : Value α}
    (h : restore incoming current = .ok restored) (hempty : unrestored restored = []) :
    SecretsStay incoming current restored ↔ ItemsKept incoming current := by
  have hreach (p : Path) (hs : incoming.get p = some (.string REDACTED)) :
      ∃ c', Reaches incoming current false p (.string REDACTED) c' false ∧ restored.get p = some c' :=
    (restoreValue_get h hs).resolve_right (no_sentinel hempty p)
  refine ⟨fun hstay q k rest hs hk _ => hstay.enclosing q k rest hs hk, fun hitems => ?_⟩
  refine ⟨no_sentinel hempty, fun p hs => ?_, fun q i rest hs => ?_, fun q k rest hs hk => ?_,
    fun q k rest hs hk => ?_⟩
  · obtain ⟨c', hr, hget⟩ := hreach p hs
    exact ⟨c', hr.get.2, hget⟩
  · obtain ⟨c', hr, -⟩ := hreach _ hs
    exact hr.lengths
  · obtain ⟨c', hr, -⟩ := hreach _ hs
    refine hr.kept ?_ rfl
    rw [guards, hk, carried_of_noKeys hk, Bool.true_or, Bool.and_self]
  · cases hcarried : carried rest with
    | true =>
      obtain ⟨c', hr, -⟩ := hreach _ hs
      exact hr.kept (by rw [guards, hk, hcarried, Bool.or_true, Bool.and_self]) rfl
    | false => exact hitems q k rest hs hk hcarried

/-! ## Masked documents -/

mutual

/-- The document with the non-empty strings at some places replaced by the sentinel. -/
def mask (places : Path → Bool) : Value α → Value α
  | .string text => if text ≠ "" ∧ places [] then .string REDACTED else .string text
  | .scalar a => .scalar a
  | .array items => .array (maskItems places 0 items)
  | .table entries => .table (maskEntries places entries)

def maskEntries (places : Path → Bool) : Entries α → Entries α
  | [] => []
  | (key, child) :: rest =>
    (key, mask (fun p => places (.key key :: p)) child) :: maskEntries places rest

def maskItems (places : Path → Bool) (index : Nat) : List (Value α) → List (Value α)
  | [] => []
  | child :: rest => mask (fun p => places (.index index :: p)) child :: maskItems places (index + 1) rest

end

variable {M : Path → Bool} {xs : List (Value α)} {i : Nat}

/-- A non-empty string of the document stands at the place, and is masked. -/
def Masked (places : Path → Bool) (v : Value α) (p : Path) : Prop :=
  places p = true ∧ ∃ text, text ≠ "" ∧ v.get p = some (.string text)

omit [DecidableEq α] in
theorem maskEntries_lookup : (maskEntries M es).lookup k =
    (es.lookup k).map fun v => mask (fun p => M (.key k :: p)) v := by
  induction es with
  | nil => rfl
  | cons e es ih =>
    obtain ⟨k', u⟩ := e
    rw [maskEntries, List.lookup_cons, List.lookup_cons]
    cases hk : k == k' with
    | true =>
      obtain rfl := eq_of_beq hk
      rfl
    | false => exact ih

omit [DecidableEq α] in
theorem maskItems_get {index : Nat} : (maskItems M index xs)[i]? =
    xs[i]?.map fun v => mask (fun p => M (.index (index + i) :: p)) v := by
  induction xs generalizing index i with
  | nil => rfl
  | cons x xs ih =>
    cases i with
    | zero => rfl
    | succ i =>
      rw [maskItems, List.getElem?_cons_succ, List.getElem?_cons_succ, ih, Nat.add_right_comm]
      rfl

omit [DecidableEq α] in
theorem length_maskItems {index : Nat} : (maskItems M index xs).length = xs.length := by
  induction xs generalizing index with
  | nil => rfl
  | cons x xs ih => rw [maskItems, List.length_cons, List.length_cons, ih]

omit [DecidableEq α] in
/-- What stands at a masked place. -/
theorem get_mask_of_masked (h : Masked M v p) : (mask M v).get p = some (.string REDACTED) := by
  obtain ⟨hM, text, htext, hv⟩ := h
  induction p generalizing v M with
  | nil =>
    rw [Value.get_nil] at hv ⊢
    obtain rfl := Option.some.inj hv
    rw [mask, if_pos ⟨htext, hM⟩]
  | cons seg p ih =>
    rcases Value.get_cons hv with ⟨es, k, u, rfl, rfl, hu, hv⟩ | ⟨xs, i, u, rfl, rfl, hu, hv⟩
    · have hl : (maskEntries M es).lookup k = some (mask (fun p => M (.key k :: p)) u) := by
        rw [maskEntries_lookup, hu, Option.map_some]
      rw [mask, Value.get_key hl]
      exact ih hM hv
    · have hl : (maskItems M 0 xs)[i]? = some (mask (fun p => M (.index i :: p)) u) := by
        rw [maskItems_get, hu, Option.map_some, Nat.zero_add]
      rw [mask, Value.get_index hl]
      exact ih hM hv

omit [DecidableEq α] in
theorem masked_key (h : es.lookup k = some v) :
    Masked M (.table es) (.key k :: p) ↔ Masked (fun p => M (.key k :: p)) v p := by
  rw [Masked, Masked, Value.get_key h]

omit [DecidableEq α] in
theorem masked_index (h : xs[i]? = some v) :
    Masked M (.array xs) (.index i :: p) ↔ Masked (fun p => M (.index i :: p)) v p := by
  rw [Masked, Masked, Value.get_index h]

omit [DecidableEq α] in
/-- A document with nothing masked is itself. -/
theorem mask_eq_self (hu : v.UniqueKeys) (h : ∀ p, ¬ Masked M v p) : mask M v = v := by
  induction v generalizing M with
  | string text =>
    rw [mask, if_neg]
    rintro ⟨htext, hM⟩
    exact h [] ⟨hM, text, htext, Value.get_nil _⟩
  | scalar a => rfl
  | array xs ih =>
    rw [mask]
    congr 1
    refine List.ext_getElem? fun i => ?_
    rw [maskItems_get, Nat.zero_add]
    cases hi : xs[i]? with
    | none => rfl
    | some x =>
      refine congrArg some (ih x (List.mem_of_getElem? hi) (hu.item hi) fun p hp => ?_)
      exact h (.index i :: p) ((masked_index hi).mpr hp)
  | table es ih =>
    have hentries (fs : Entries α) (hfs : ∀ f ∈ fs, f ∈ es) : maskEntries M fs = fs := by
      induction fs with
      | nil => rfl
      | cons f fs ihf =>
        obtain ⟨hf, hfs⟩ := List.forall_mem_cons.mp hfs
        have hl := Value.lookup_of_mem hu.nodup hf
        have hself : mask (fun p => M (.key f.1 :: p)) f.2 = f.2 :=
          ih f hf (hu.entry hf) fun p hp => h (.key f.1 :: p) ((masked_key hl).mpr hp)
        rw [show f = (f.1, f.2) from rfl, maskEntries, hself, ihf hfs]
    rw [mask, hentries es fun _ he => he]

/-- Masking changes what it masks something of, and nothing else. -/
theorem same_mask (hu : v.UniqueKeys) (hnone : ∀ p, v.get p ≠ some (.string REDACTED)) :
    (mask M v).same v = true ↔ ∀ p, ¬ Masked M v p := by
  constructor
  · intro hsame p hp
    exact hnone p (get_of_same hsame (get_mask_of_masked hp))
  · intro h
    rw [mask_eq_self hu h, same_refl hu]

omit [DecidableEq α] in
theorem not_masked_string {text : String} (hp : p ≠ []) : ¬ Masked M (.string text : Value α) p := by
  rintro ⟨-, t, -, ht⟩
  cases p with
  | nil => exact hp rfl
  | cons s p => cases s <;> cases ht

/-- Whether the masked endpoints of a table still count as they were. -/
theorem endpointsKept_mask (hu : (Value.table es).UniqueKeys)
    (hnone : ∀ p, (Value.table es).get p ≠ some (.string REDACTED)) :
    EndpointsKept (maskEntries M es) es ↔
      ∀ e p, isEndpoint e = true → p ≠ [] → ¬ Masked M (.table es) (.key e :: p) := by
  refine forall_congr' fun e => ?_
  rw [forall_comm]
  refine forall_congr' fun _ => ?_
  rw [maskEntries_lookup]
  cases hl : es.lookup e with
  | none =>
    refine iff_of_true (.inr rfl) ?_
    rintro p - ⟨-, text, -, ht⟩
    rw [Value.get, hl] at ht
    cases ht
  | some v =>
    simp only [Option.map_some, Option.some.injEq, masked_key hl]
    have hv : v.UniqueKeys := hu.entry (Value.mem_of_lookup hl)
    have hnone' (p : Path) : v.get p ≠ some (.string REDACTED) := fun hp =>
      hnone (.key e :: p) ((Value.get_key hl p).trans hp)
    constructor
    · rintro (hs | hs) p hp
      · cases v with
        | string text => exact not_masked_string hp
        | _ => cases hs
      · exact (same_mask hv hnone').mp hs p
    · intro h
      by_cases hself : Masked (fun p => M (.key e :: p)) v []
      · have hs := get_mask_of_masked hself
        rw [Value.get_nil] at hs
        exact .inl (Option.some.inj hs)
      · refine .inr ((same_mask hv hnone').mpr fun p => ?_)
        by_cases hp : p = []
        · exact hp ▸ hself
        · exact h p hp

/-- Restoring a masked document gives it back when no masked place has a changed endpoint in force. -/
theorem restoreValue_mask (hu : v.UniqueKeys) (hnone : ∀ p, v.get p ≠ some (.string REDACTED))
    (h : ∀ p c' b', Masked M v p → Reaches (mask M v) v changed.isSome p (.string REDACTED) c' b' →
      b' = false) : restoreValue (mask M v) v path changed = .ok v := by
  induction v generalizing M path changed with
  | string text =>
    by_cases hm : text ≠ "" ∧ M []
    · have hmask : mask M (.string text : Value α) = .string REDACTED := by rw [mask, if_pos hm]
      have hnone : changed = none := by
        have hb := h [] (.string text) changed.isSome ⟨hm.2, text, hm.1, Value.get_nil _⟩
          (hmask ▸ .here _ _ _)
        exact Option.isNone_iff_eq_none.mp (Option.isSome_eq_false_iff.mp hb)
      subst hnone
      rw [hmask]
      rfl
    · have hmask : mask M (.string text : Value α) = .string text := by rw [mask, if_neg hm]
      rw [hmask]
      have htext : text ≠ REDACTED := fun ht => hnone [] (ht ▸ Value.get_nil _)
      simp [restoreValue, htext, pure, Except.pure]
  | scalar a => rfl
  | array xs ih =>
    have hitems (ys : List (Value α)) (index : Nat)
        (hys : ∀ j y, ys[j]? = some y → restoreValue (mask (fun p => M (.index (index + j) :: p)) y) y
          (itemPath path (index + j)) (itemScope (mask (fun p => M (.index (index + j) :: p)) y) changed) =
            .ok y) :
        restoreItems (maskItems M index ys) ys path index changed = .ok ys := by
      induction ys generalizing index with
      | nil => rfl
      | cons y ys ihy =>
        rw [maskItems, restoreItems_cons]
        refine ⟨y, hys 0 y rfl, ys, ihy (index + 1) fun j z hz => ?_, rfl⟩
        rw [Nat.add_right_comm]
        exact hys (j + 1) z hz
    have hok := hitems xs 0 fun j y hy => by
      rw [Nat.zero_add]
      refine ih y (List.mem_of_getElem? hy) (hu.item hy)
        (fun p hp => hnone (.index j :: p) ((Value.get_index hy p).trans hp)) fun p c' b' hp hr => ?_
      have hl : (maskItems M 0 xs)[j]? = some (mask (fun p => M (.index j :: p)) y) := by
        rw [maskItems_get, hy, Option.map_some, Nat.zero_add]
      rw [isSome_itemScope] at hr
      refine h (.index j :: p) c' b' ((masked_index hy).mpr hp) ?_
      rw [mask]
      exact .index length_maskItems hl hy hr
    rw [mask, restoreValue, if_pos length_maskItems, bind_eq_ok]
    exact ⟨xs, hok, rfl⟩
  | table es ih =>
    have hentries (fs : Entries α) (hfs : ∀ f ∈ fs, f ∈ es) : restoreEntries (maskEntries M fs) es path
        changed ((changedEndpoint (maskEntries M es) es path).or changed) = .ok fs := by
      induction fs with
      | nil => rfl
      | cons f fs ihf =>
        obtain ⟨hf, hrest⟩ := List.forall_mem_cons.mp hfs
        have hl := Value.lookup_of_mem hu.nodup hf
        obtain ⟨k, u⟩ := f
        rw [maskEntries, restoreEntries_cons_some hl]
        refine ⟨u, ?_, fs, ihf hrest, rfl⟩
        refine ih (k, u) hf (hu.entry hf)
          (fun p hp => hnone (.key k :: p) ((Value.get_key hl p).trans hp)) fun p c' b' hp hr => ?_
        rw [isSome_entryScope, isSome_changedEndpoint] at hr
        refine h (.key k :: p) c' b' ((masked_key hl).mpr hp) ?_
        rw [mask]
        exact .key (by rw [maskEntries_lookup, hl, Option.map_some]) hl hr
    rw [mask, restoreValue_table]
    exact ⟨es, hentries es fun _ he => he, rfl⟩

/-- A masked place, and the endpoint of a table that guards it with something masked inside it. -/
def MaskedEndpoint (places : Path → Bool) (v : Value α) : Prop :=
  ∃ q k rest e p, Masked places v (q ++ .key k :: rest) ∧ guards k rest = true ∧ isEndpoint e = true ∧
    p ≠ [] ∧ Masked places v (q ++ .key e :: p)

omit [DecidableEq α] in
theorem get_mask : (mask M v).get p = (v.get p).map (mask fun r => M (p ++ r)) := by
  induction p generalizing v M with
  | nil => rw [Value.get_nil, Value.get_nil, Option.map_some]; rfl
  | cons s p ih =>
    cases v with
    | table es =>
      cases s with
      | key k =>
        rw [mask, Value.get, Value.get, maskEntries_lookup]
        cases es.lookup k with
        | none => rfl
        | some u => exact ih
      | index i => rfl
    | array xs =>
      cases s with
      | key k => rfl
      | index i =>
        rw [mask, Value.get, Value.get, maskItems_get, Nat.zero_add]
        cases xs[i]? with
        | none => rfl
        | some u => exact ih
    | string text =>
      rw [mask]
      split <;> cases s <;> rfl
    | scalar a => cases s <;> rfl

omit [DecidableEq α] in
theorem masked_append (h : v.get q = some c) :
    Masked M v (q ++ p) ↔ Masked (fun r => M (q ++ r)) c p := by
  rw [Masked, Masked, Value.get_append, h, Option.bind_some]

omit [DecidableEq α] in
/-- A table of a masked document is a masked table. -/
theorem table_of_mask (hes : (mask M v).get q = some (.table es)) (hcs : v.get q = some (.table cs)) :
    es = maskEntries (fun r => M (q ++ r)) cs := by
  rw [get_mask, hcs, Option.map_some, mask] at hes
  exact (Value.table.inj (Option.some.inj hes)).symm

/-- A document is restored from what it was masked from exactly when no masked place is in the scope of
an endpoint that has something masked inside it. -/
theorem restore_mask_iff (d : Document α) (hnone : ∀ p, d.value.get p ≠ some (.string REDACTED)) :
    restore (mask M d.value) d.value = .ok d.value ↔ ¬ MaskedEndpoint M d.value := by
  have hkept {q : Path} {es cs : Entries α} (hes : (mask M d.value).get q = some (.table es))
      (hcs : d.value.get q = some (.table cs)) : EndpointsKept es cs ↔
        ∀ e p, isEndpoint e = true → p ≠ [] → ¬ Masked M d.value (q ++ .key e :: p) := by
    obtain rfl := table_of_mask hes hcs
    rw [endpointsKept_mask (d.unique.sub hcs) fun p hp => hnone (q ++ p) (by rw [Value.get_append, hcs]; exact hp)]
    simp only [masked_append hcs]
  constructor
  · rintro h ⟨q, k, rest, e, p, hm, hg, he, hp, hmasked⟩
    obtain ⟨c', hr, -⟩ := (restoreValue_get h (get_mask_of_masked hm)).resolve_right (hnone _)
    obtain ⟨es, cs, hes, hcs, hk⟩ := hr.kept hg rfl
    exact (hkept hes hcs).mp hk e p he hp hmasked
  · intro h
    refine restoreValue_mask d.unique hnone fun p c' b' hm hr => Bool.eq_false_iff.mpr fun hb => ?_
    rcases hr.cause hb with ⟨hb, -⟩ | ⟨q, k, rest, es, cs, rfl, hg, hes, hcs, hk⟩
    · cases hb
    · rw [hkept hes hcs] at hk
      push Not at hk
      obtain ⟨e, p, he, hp, hmasked⟩ := hk
      exact h ⟨q, k, rest, e, p, hm, hg, he, hp, hmasked⟩

variable (normalizeDocument : Value α → Option (Value α))

/-- Saving a redacted config gives its secrets back exactly when no masked secret is in the scope of an
endpoint that has a masked secret inside it, and whatever is saved, the secrets stay where they were
exactly when those of tables in arrays of `env`, `headers` and `extra` tables do. -/
theorem redaction_iff :
    (∀ (d : Document α) (places : Path → Bool), comparable normalizeDocument d.value = d.value →
      (∀ p, d.value.get p ≠ some (.string REDACTED)) →
      (restoreAll normalizeDocument (mask places d.value) d.value = .ok d.value ↔
        ¬ MaskedEndpoint places d.value)) ∧
    ∀ incoming current restored : Value α,
      restoreAll normalizeDocument incoming current = .ok restored →
      (SecretsStay incoming (comparable normalizeDocument current) restored ↔
        ItemsKept incoming (comparable normalizeDocument current)) := by
  constructor
  · intro d places hnormal hnone
    rw [restoreAll_eq_ok, hnormal, restore_mask_iff d hnone]
    exact and_iff_left (collectSentinels_of_none d.unique hnone)
  · intro incoming current restored h
    obtain ⟨hr, hempty⟩ := restoreAll_eq_ok.mp h
    exact secretsStay_iff hr hempty

/-- A config with one agent provider. -/
def provider (url key : String) (extra : Entries Bool) : Value Bool :=
  .table [("agent", .table [("providers", .table [("x",
    .table [("api_url", .string url), ("api_key", .string key), ("extra", .table extra)])])])]

def apiKeyPath : Path := [.key "agent", .key "providers", .key "x", .key "api_key"]

def providerDocument : Document Bool where
  value := provider "https://api.example" "k" []
  unique := uniqueKeys_of_distinct (by decide)

/-- The provider's key is masked, and saved again. -/
theorem redaction_provider :
    restoreAll some (provider "https://api.example" REDACTED []) providerDocument.value =
        .ok providerDocument.value ∧
      (SecretsStay (provider "https://api.example" REDACTED []) providerDocument.value
          providerDocument.value ↔
        ItemsKept (provider "https://api.example" REDACTED []) providerDocument.value) := by
  have hnone : ¬ MaskedEndpoint (fun p => p = apiKeyPath) providerDocument.value := by
    rintro ⟨q, k, rest, e, p, -, -, he, -, hm, -⟩
    have hmem : Segment.key e ∈ apiKeyPath := by
      rw [← of_decide_eq_true hm]
      simp
    simp only [apiKeyPath, List.mem_cons, Segment.key.injEq, List.not_mem_nil, or_false] at hmem
    rcases hmem with rfl | rfl | rfl | rfl <;> revert he <;> decide
  have hfresh : ∀ p, providerDocument.value.get p ≠ some (.string REDACTED) :=
    no_sentinel (show collectSentinels providerDocument.value "" = [] from rfl)
  have hsave := ((redaction_iff some).1 providerDocument (fun p => p = apiKeyPath) rfl hfresh).mpr hnone
  exact ⟨hsave, (redaction_iff some).2 _ _ _ hsave⟩

/-- A provider whose `extra` table has a list of hook addresses is not saved as it was shown. A
provider sent to another address keeps the tokens of the servers listed there. -/
theorem redaction_lost :
    restoreAll some
        (mask (fun p => .key "extra" ∈ p)
          (provider "https://api.example" "k" [("hook_url", .array [.string "https://a"])]))
        (provider "https://api.example" "k" [("hook_url", .array [.string "https://a"])]) =
      .error (.invalid ("Re-enter agent.providers.x.extra.hook_url[0] when changing " ++
        "agent.providers.x.extra.hook_url")) ∧
      ∃ restored, restoreAll some
          (provider "https://evil.invalid" "k" [("servers", .array [.table [("token", .string REDACTED)]])])
          (provider "https://api.example" "k" [("servers", .array [.table [("token", .string "s")]])]) =
        .ok restored ∧
        ¬ SecretsStay
          (provider "https://evil.invalid" "k" [("servers", .array [.table [("token", .string REDACTED)]])])
          (provider "https://api.example" "k" [("servers", .array [.table [("token", .string "s")]])])
          restored := by
  refine ⟨rfl, _, rfl, fun h => ?_⟩
  obtain ⟨es, cs, hes, hcs, hk⟩ := h.enclosing [.key "agent", .key "providers", .key "x"] "extra"
    [.key "servers", .index 0, .key "token"] rfl (by decide)
  obtain rfl := Value.table.inj (Option.some.inj hes)
  obtain rfl := Value.table.inj (Option.some.inj hcs)
  rcases hk "api_url" (by decide) with hs | hs
  · have hurl : "https://evil.invalid" = REDACTED := Value.string.inj (Option.some.inj hs)
    revert hurl
    decide
  · revert hs
    decide

end Claudear.Config
