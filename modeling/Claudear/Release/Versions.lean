import Claudear.Text.Semver

/-!
# Comparing versions

`compare_versions` compares two versions as semantic versions where the semver
crate parses both, and else by their runs of digits and letters. What the crate
parses, and how it orders build metadata, are parameters.
-/

namespace Claudear.Release

open Std Claudear.Text

/-- The semver crate: its order is precedence with the build metadata as tie-break. -/
structure SemverCrate where
  parse : List Char → Option Semver
  buildCmp : List (List Char) → List (List Char) → Ordering
  buildCmp_trans : TransCmp buildCmp

inductive VersionPart where
  | Number (token : List Char)
  | Text (token : List Char)
  deriving DecidableEq, Repr

/-- The runs of ASCII digits and of ASCII letters, for at most so many of them. -/
def splitFrom : Nat → List Char → List VersionPart
  | 0, _ => []
  | _ + 1, [] => []
  | fuel + 1, ch :: chars =>
    if ch.isDigit then
      .Number ((ch :: chars).takeWhile Char.isDigit) :: splitFrom fuel ((ch :: chars).dropWhile Char.isDigit)
    else if ch.isAlpha then
      .Text (((ch :: chars).takeWhile Char.isAlpha).map Char.toLower) ::
        splitFrom fuel ((ch :: chars).dropWhile Char.isAlpha)
    else splitFrom fuel chars

def splitVersionParts (version : List Char) : List VersionPart := splitFrom version.length version

/-- Without leading zeros. -/
def normalized (a : List Char) : List Char :=
  let trimmed := a.dropWhile (· = '0')
  if trimmed.isEmpty then ['0'] else trimmed

def compareNumericStrings (a b : List Char) : Ordering :=
  match compare (normalized a).length (normalized b).length with
  | .eq => compare (normalized a) (normalized b)
  | ord => ord

def compareParts : VersionPart → VersionPart → Ordering
  | .Number a, .Number b => compareNumericStrings a b
  | .Text a, .Text b => compare a b
  | .Number _, .Text _ => .gt
  | .Text _, .Number _ => .lt

/-- The loop over the pairs of parts, and the lengths where it meets no difference. -/
def compareZipped (lock_parts min_parts : List VersionPart) : List (VersionPart × VersionPart) → Ordering
  | [] => compare lock_parts.length min_parts.length
  | (lock_part, min_part) :: pairs =>
    let ord := compareParts lock_part min_part
    if ord ≠ .eq then ord else compareZipped lock_parts min_parts pairs

def compareRelaxedVersions (lock_ver min_ver : List Char) : Ordering :=
  let lock_parts := splitVersionParts lock_ver
  let min_parts := splitVersionParts min_ver
  compareZipped lock_parts min_parts (lock_parts.zip min_parts)

namespace SemverCrate

variable (C : SemverCrate)

def cmp (a b : Semver) : Ordering := (a.precedence b).then (C.buildCmp a.build b.build)

def stripV (version : List Char) : List Char := version.dropWhile (· = 'v')

/-- What the crate makes of a version without its leading `v`s. -/
def parsed (version : List Char) : Option Semver := C.parse (stripV version)

def compareVersions (lock_version : Option (List Char)) (min_version : List Char) : Bool :=
  match lock_version with
  | some lock_ver =>
    match C.parsed lock_ver, C.parsed min_version with
    | some lock_semver, some min_semver => C.cmp lock_semver min_semver ≠ .lt
    | _, _ => compareRelaxedVersions (stripV lock_ver) (stripV min_version) ≠ .lt
  | none => false

end SemverCrate

/-! ## The relaxed order -/

variable {C : SemverCrate} {a b c l : List Char} {m n : Nat} {xs ys : List VersionPart}

theorem compareNumericStrings_eq :
    compareNumericStrings = compareLex (compareOn fun a => (normalized a).length) (compareOn normalized) := by
  funext a b
  rw [compareNumericStrings, compareLex, compareOn, compareOn]
  cases compare (normalized a).length (normalized b).length <;> rfl

theorem transCmp_numeric : TransCmp compareNumericStrings := by
  rw [compareNumericStrings_eq]
  infer_instance

instance : TransCmp compareParts where
  eq_swap {a b} := by
    cases a <;> cases b
    · exact transCmp_numeric.eq_swap
    · rfl
    · rfl
    · exact OrientedOrd.eq_swap
  isLE_trans {a b c} hab hbc := by
    cases a <;> cases b <;> cases c
    · exact transCmp_numeric.isLE_trans hab hbc
    · cases hbc
    · cases hab
    · cases hab
    · rfl
    · cases hbc
    · rfl
    · exact TransOrd.isLE_trans hab hbc

theorem compareZipped_eq : compareZipped xs ys (xs.zip ys) = xs.compareLex compareParts ys := by
  suffices h : ∀ L M : List VersionPart, compare L.length M.length = compare xs.length ys.length →
      compareZipped L M (xs.zip ys) = xs.compareLex compareParts ys from h xs ys rfl
  intro L M hlen
  induction xs generalizing ys with
  | nil =>
    rw [List.zip_nil_left, compareZipped, hlen]
    cases ys with
    | nil => rfl
    | cons y ys => exact Nat.compare_eq_lt.mpr (Nat.succ_pos _)
  | cons x xs ih =>
    cases ys with
    | nil =>
      rw [List.zip_nil_right, compareZipped, hlen]
      exact Nat.compare_eq_gt.mpr (Nat.succ_pos _)
    | cons y ys =>
      rw [List.zip_cons_cons, compareZipped, List.compareLex_cons_cons]
      cases hxy : compareParts x y with
      | lt => rfl
      | gt => rfl
      | eq =>
        refine ih ?_
        rw [hlen]
        simp [Nat.compare_eq_ite_lt]

instance : TransCmp compareRelaxedVersions := by
  have h : compareRelaxedVersions = fun a b => (splitVersionParts a).compareLex compareParts (splitVersionParts b) := by
    funext a b
    exact compareZipped_eq
  rw [h]
  exact transCmp_on splitVersionParts inferInstance

/-! ## The relation -/

namespace SemverCrate

theorem transCmp_cmp (C : SemverCrate) : TransCmp C.cmp := by
  have hbuild : TransCmp fun a b : Semver => C.buildCmp a.build b.build := transCmp_on Semver.build C.buildCmp_trans
  exact inferInstanceAs (TransCmp (compareLex Semver.precedence fun a b => C.buildCmp a.build b.build))

/-- The two orders agree on whether the first version is at or above the second, if
both apply. -/
def Consistent (C : SemverCrate) (a b : List Char) : Prop :=
  ∀ va ∈ C.parsed a, ∀ vb ∈ C.parsed b,
    (C.cmp va vb ≠ .lt ↔ compareRelaxedVersions (stripV a) (stripV b) ≠ .lt)

/-- `c` is a semantic version, or the two orders agree on `a` and `b`. -/
def Fits (C : SemverCrate) (a b c : List Char) : Prop := (C.parsed c).isSome = true ∨ C.Consistent a b

theorem compareVersions_both {va vb : Semver} (ha : C.parsed a = some va) (hb : C.parsed b = some vb) :
    C.compareVersions (some a) b = true ↔ C.cmp va vb ≠ .lt := by
  simp [compareVersions, ha, hb]

theorem compareVersions_relaxed (h : C.parsed a = none ∨ C.parsed b = none) :
    C.compareVersions (some a) b = true ↔ compareRelaxedVersions (stripV a) (stripV b) ≠ .lt := by
  rcases h with h | h
  · simp [compareVersions, h]
  · simp [compareVersions, h]

/-- Where the orders agree it is the relaxed one. -/
theorem Consistent.compareVersions_iff (h : C.Consistent a b) :
    C.compareVersions (some a) b = true ↔ compareRelaxedVersions (stripV a) (stripV b) ≠ .lt := by
  cases ha : C.parsed a with
  | none => exact compareVersions_relaxed (.inl ha)
  | some va =>
    cases hb : C.parsed b with
    | none => exact compareVersions_relaxed (.inr hb)
    | some vb => exact (compareVersions_both ha hb).trans (h va ha vb hb)

theorem ne_lt_trans {α : Type*} {cmp : α → α → Ordering} (h : TransCmp cmp) {x y z : α} (hxy : cmp x y ≠ .lt)
    (hyz : cmp y z ≠ .lt) : cmp x z ≠ .lt := by
  have hswap (u v : α) : cmp u v ≠ .lt ↔ (cmp v u).isLE = true := by
    rw [h.eq_swap (a := u)]
    cases cmp v u <;> simp
  rw [hswap] at hxy hyz ⊢
  exact h.isLE_trans hyz hxy

theorem compareVersions_refl (C : SemverCrate) (a : List Char) : C.compareVersions (some a) a = true := by
  cases ha : C.parsed a with
  | none =>
    have hcmp : compareRelaxedVersions (stripV a) (stripV a) = .eq := ReflCmp.compare_self
    rw [compareVersions_relaxed (.inl ha), hcmp]
    exact Ordering.noConfusion
  | some va =>
    have htrans := C.transCmp_cmp
    have hcmp : C.cmp va va = .eq := ReflCmp.compare_self
    rw [compareVersions_both ha ha, hcmp]
    exact Ordering.noConfusion

theorem compareVersions_total (C : SemverCrate) (a b : List Char) :
    C.compareVersions (some a) b = true ∨ C.compareVersions (some b) a = true := by
  have hne {o : Ordering} : o ≠ .lt ∨ o.swap ≠ .lt := by cases o <;> simp
  by_cases h : C.parsed a = none ∨ C.parsed b = none
  · have hswap : compareRelaxedVersions (stripV b) (stripV a) = (compareRelaxedVersions (stripV a) (stripV b)).swap :=
      OrientedCmp.eq_swap
    rw [compareVersions_relaxed h, compareVersions_relaxed h.symm, hswap]
    exact hne
  · rw [not_or] at h
    obtain ⟨va, ha⟩ := Option.ne_none_iff_exists'.mp h.1
    obtain ⟨vb, hb⟩ := Option.ne_none_iff_exists'.mp h.2
    rw [compareVersions_both ha hb, compareVersions_both hb ha, C.transCmp_cmp.eq_swap (a := vb)]
    exact hne

/-- Both orders are transitive, and so is their mixture where they agree on the two
semantic versions of a triple that has exactly two. -/
theorem compareVersions_trans (hab : C.Fits a b c) (hbc : C.Fits b c a) (hac : C.Fits a c b)
    (h₁ : C.compareVersions (some a) b = true) (h₂ : C.compareVersions (some b) c = true) :
    C.compareVersions (some a) c = true := by
  have hrelaxed : C.Consistent a b → C.Consistent b c → C.Consistent a c → C.compareVersions (some a) c = true := by
    intro hab hbc hac
    rw [hab.compareVersions_iff] at h₁
    rw [hbc.compareVersions_iff] at h₂
    rw [hac.compareVersions_iff]
    exact ne_lt_trans inferInstance h₁ h₂
  have hleft {x y : List Char} (hx : C.parsed x = none) : C.Consistent x y := by
    intro v hv
    rw [hx] at hv
    cases hv
  have hright {x y : List Char} (hy : C.parsed y = none) : C.Consistent x y := by
    intro v _ w hw
    rw [hy] at hw
    cases hw
  cases ha : C.parsed a with
  | none => exact hrelaxed (hleft ha) (hbc.resolve_left (by simp [ha])) (hleft ha)
  | some va =>
    cases hb : C.parsed b with
    | none => exact hrelaxed (hright hb) (hleft hb) (hac.resolve_left (by simp [hb]))
    | some vb =>
      cases hc : C.parsed c with
      | none => exact hrelaxed (hab.resolve_left (by simp [hc])) (hright hc) (hright hc)
      | some vc =>
        rw [compareVersions_both ha hb] at h₁
        rw [compareVersions_both hb hc] at h₂
        rw [compareVersions_both ha hc]
        exact ne_lt_trans C.transCmp_cmp h₁ h₂

/-- `compare_versions` is reflexive and total, transitive where the two orders do not
disagree about the two semantic versions of a triple, and on semantic versions it
is precedence with the build metadata as tie-break. -/
theorem compareVersions_order (C : SemverCrate) :
    (∀ a, C.compareVersions (some a) a = true) ∧
    (∀ a b, C.compareVersions (some a) b = true ∨ C.compareVersions (some b) a = true) ∧
    (∀ a b c, C.Fits a b c → C.Fits b c a → C.Fits a c b → C.compareVersions (some a) b = true →
      C.compareVersions (some b) c = true → C.compareVersions (some a) c = true) ∧
    ∀ a b va vb, C.parsed a = some va → C.parsed b = some vb →
      (C.compareVersions (some a) b = true ↔
        va.precedence vb = .gt ∨ va.precedence vb = .eq ∧ C.buildCmp va.build vb.build ≠ .lt) := by
  refine ⟨C.compareVersions_refl, C.compareVersions_total, fun a b c => compareVersions_trans, ?_⟩
  intro a b va vb ha hb
  rw [compareVersions_both ha hb, cmp]
  cases va.precedence vb <;> simp

end SemverCrate

/-- A crate that reads the versions below. -/
def sampleCrate : SemverCrate where
  parse version :=
    if version = "1.0.0-alpha".toList then some ⟨1, 0, 0, [.alphanumeric "alpha".toList], []⟩
    else if version = "1.0.0".toList then some ⟨1, 0, 0, [], []⟩
    else if version = "1.0.0+1".toList then some ⟨1, 0, 0, [], [['1']]⟩
    else if version = "1.0.0+2".toList then some ⟨1, 0, 0, [], [['2']]⟩
    else none
  buildCmp := List.compareLex compare
  buildCmp_trans := inferInstance

/-- `1.0.0.a` is at or above `1.0.0` and at or below `1.0.0-alpha`, which is below `1.0.0`;
and build metadata, which have no part in precedence, decide. -/
theorem versions_not_ordered :
    let atLeast (a b : String) := sampleCrate.compareVersions (some a.toList) b.toList
    (atLeast "1.0.0-alpha" "1.0.0.a" = true ∧ atLeast "1.0.0.a" "1.0.0" = true ∧ atLeast "1.0.0-alpha" "1.0.0" = false) ∧
      (∃ va vb, sampleCrate.parsed "1.0.0+1".toList = some va ∧ sampleCrate.parsed "1.0.0+2".toList = some vb ∧
        va.precedence vb = .eq) ∧ atLeast "1.0.0+1" "1.0.0+2" = false := by
  refine ⟨by decide, ⟨⟨1, 0, 0, [], [['1']]⟩, ⟨1, 0, 0, [], [['2']]⟩, by decide⟩, by decide⟩

end Claudear.Release
