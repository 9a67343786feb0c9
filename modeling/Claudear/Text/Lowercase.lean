import Mathlib.Data.List.DropRight

/-!
# Lowercase and trim over Unicode

`str::to_lowercase` maps each character by Unicode's simple lowercase mapping,
except `İ`, which becomes two characters, and `Σ`, which becomes `ς` at the end
of a word and `σ` elsewhere. The mapping is a table of ranges, so a fact about
every character is a check of the table. Where a word ends depends on the
properties `Cased` and `Case_Ignorable`, which are a parameter: no fact here
depends on them.

A character is `Settled` when lowercasing leaves it. Every character of a
lowercased string is settled, and a string of settled characters is its own
lowercase.
-/

namespace Claudear.Text

/-- The letters `first, first + step, …, last`; `first + k` is mapped to `target + k`. -/
structure CaseRange where
  first : Nat
  last : Nat
  step : Nat
  target : Nat

namespace CaseRange

def map (r : CaseRange) (n : Nat) : Option Nat :=
  if r.first ≤ n ∧ n ≤ r.last ∧ (n - r.first) % r.step = 0 then some (r.target + (n - r.first))
  else none

/-- No letter of the range is mapped into `lo, …, hi`. -/
def avoids (r : CaseRange) (lo hi : Nat) : Bool :=
  r.target + (r.last - r.first) < lo || hi < r.target

/-- No letter of `r` is mapped to a letter of `q`. Alternating ranges may interleave. -/
def apart (r q : CaseRange) : Bool :=
  r.avoids q.first q.last ||
    ((r.step = 2 || r.first = r.last) && q.step = 2 && (r.target + q.first) % 2 = 1)

/-- `apart` by the comparisons the kernel has built in. -/
theorem apart_eq (r q : CaseRange) :
    r.apart q = ((r.target + (r.last - r.first)).blt q.first || q.last.blt r.target ||
      ((r.step.beq 2 || r.first.beq r.last) && q.step.beq 2 && ((r.target + q.first) % 2).beq 1)) := by
  rw [Bool.eq_iff_iff]
  simp [apart, avoids]

/-- The letters are mapped to Unicode scalar values. -/
def valid (r : CaseRange) : Bool :=
  r.target + (r.last - r.first) < 0xD800 ||
    (0xDFFF < r.target && r.target + (r.last - r.first) < 0x110000)

variable {r q : CaseRange} {n m : Nat}

theorem map_eq_some (h : r.map n = some m) :
    r.first ≤ n ∧ n ≤ r.last ∧ (n - r.first) % r.step = 0 ∧ m = r.target + (n - r.first) := by
  unfold map at h
  split at h
  · rename_i hn
    exact ⟨hn.1, hn.2.1, hn.2.2, (Option.some.inj h).symm⟩
  · cases h

theorem avoids_map (h : r.map n = some m) {lo hi : Nat} (ha : r.avoids lo hi = true) :
    ¬ (lo ≤ m ∧ m ≤ hi) := by
  obtain ⟨h1, h2, -, rfl⟩ := map_eq_some h
  simp only [avoids, Bool.or_eq_true, decide_eq_true_eq] at ha
  omega

theorem apart_map (h : r.map n = some m) (ha : r.apart q = true) : q.map m = none := by
  unfold map
  rw [if_neg]
  rintro ⟨h1, h2, h3⟩
  rcases Bool.or_eq_true .. ▸ ha with ha | ha
  · exact avoids_map h ha ⟨h1, h2⟩
  · obtain ⟨h5, h6, h4, rfl⟩ := map_eq_some h
    simp only [Bool.and_eq_true, Bool.or_eq_true, decide_eq_true_eq] at ha
    obtain ⟨⟨hr | hr, hq⟩, hp⟩ := ha
    · rw [hr] at h4
      rw [hq] at h3
      omega
    · rw [hq] at h3
      omega

theorem valid_map (h : r.map n = some m) (hv : r.valid = true) : m.isValidChar := by
  obtain ⟨h1, h2, -, rfl⟩ := map_eq_some h
  simp only [valid, Bool.or_eq_true, Bool.and_eq_true, decide_eq_true_eq] at hv
  rcases hv with hv | hv
  · exact .inl (by omega)
  · exact .inr (by omega)

end CaseRange

/-- The simple lowercase mapping of Unicode 17, without `İ` and `Σ`. -/
def lowercaseRanges : List CaseRange :=
  [⟨0x41, 0x5A, 1, 0x61⟩, ⟨0xC0, 0xD6, 1, 0xE0⟩, ⟨0xD8, 0xDE, 1, 0xF8⟩, ⟨0x100, 0x12E, 2, 0x101⟩,
   ⟨0x132, 0x136, 2, 0x133⟩, ⟨0x139, 0x147, 2, 0x13A⟩, ⟨0x14A, 0x176, 2, 0x14B⟩,
   ⟨0x178, 0x178, 1, 0xFF⟩, ⟨0x179, 0x17D, 2, 0x17A⟩, ⟨0x181, 0x181, 1, 0x253⟩,
   ⟨0x182, 0x184, 2, 0x183⟩, ⟨0x186, 0x186, 1, 0x254⟩, ⟨0x187, 0x187, 1, 0x188⟩,
   ⟨0x189, 0x18A, 1, 0x256⟩, ⟨0x18B, 0x18B, 1, 0x18C⟩, ⟨0x18E, 0x18E, 1, 0x1DD⟩,
   ⟨0x18F, 0x18F, 1, 0x259⟩, ⟨0x190, 0x190, 1, 0x25B⟩, ⟨0x191, 0x191, 1, 0x192⟩,
   ⟨0x193, 0x193, 1, 0x260⟩, ⟨0x194, 0x194, 1, 0x263⟩, ⟨0x196, 0x196, 1, 0x269⟩,
   ⟨0x197, 0x197, 1, 0x268⟩, ⟨0x198, 0x198, 1, 0x199⟩, ⟨0x19C, 0x19C, 1, 0x26F⟩,
   ⟨0x19D, 0x19D, 1, 0x272⟩, ⟨0x19F, 0x19F, 1, 0x275⟩, ⟨0x1A0, 0x1A4, 2, 0x1A1⟩,
   ⟨0x1A6, 0x1A6, 1, 0x280⟩, ⟨0x1A7, 0x1A7, 1, 0x1A8⟩, ⟨0x1A9, 0x1A9, 1, 0x283⟩,
   ⟨0x1AC, 0x1AC, 1, 0x1AD⟩, ⟨0x1AE, 0x1AE, 1, 0x288⟩, ⟨0x1AF, 0x1AF, 1, 0x1B0⟩,
   ⟨0x1B1, 0x1B2, 1, 0x28A⟩, ⟨0x1B3, 0x1B5, 2, 0x1B4⟩, ⟨0x1B7, 0x1B7, 1, 0x292⟩,
   ⟨0x1B8, 0x1B8, 1, 0x1B9⟩, ⟨0x1BC, 0x1BC, 1, 0x1BD⟩, ⟨0x1C4, 0x1C4, 1, 0x1C6⟩,
   ⟨0x1C5, 0x1C5, 1, 0x1C6⟩, ⟨0x1C7, 0x1C7, 1, 0x1C9⟩, ⟨0x1C8, 0x1C8, 1, 0x1C9⟩,
   ⟨0x1CA, 0x1CA, 1, 0x1CC⟩, ⟨0x1CB, 0x1DB, 2, 0x1CC⟩, ⟨0x1DE, 0x1EE, 2, 0x1DF⟩,
   ⟨0x1F1, 0x1F1, 1, 0x1F3⟩, ⟨0x1F2, 0x1F4, 2, 0x1F3⟩, ⟨0x1F6, 0x1F6, 1, 0x195⟩,
   ⟨0x1F7, 0x1F7, 1, 0x1BF⟩, ⟨0x1F8, 0x21E, 2, 0x1F9⟩, ⟨0x220, 0x220, 1, 0x19E⟩,
   ⟨0x222, 0x232, 2, 0x223⟩, ⟨0x23A, 0x23A, 1, 0x2C65⟩, ⟨0x23B, 0x23B, 1, 0x23C⟩,
   ⟨0x23D, 0x23D, 1, 0x19A⟩, ⟨0x23E, 0x23E, 1, 0x2C66⟩, ⟨0x241, 0x241, 1, 0x242⟩,
   ⟨0x243, 0x243, 1, 0x180⟩, ⟨0x244, 0x244, 1, 0x289⟩, ⟨0x245, 0x245, 1, 0x28C⟩,
   ⟨0x246, 0x24E, 2, 0x247⟩, ⟨0x370, 0x372, 2, 0x371⟩, ⟨0x376, 0x376, 1, 0x377⟩,
   ⟨0x37F, 0x37F, 1, 0x3F3⟩, ⟨0x386, 0x386, 1, 0x3AC⟩, ⟨0x388, 0x38A, 1, 0x3AD⟩,
   ⟨0x38C, 0x38C, 1, 0x3CC⟩, ⟨0x38E, 0x38F, 1, 0x3CD⟩, ⟨0x391, 0x3A1, 1, 0x3B1⟩,
   ⟨0x3A4, 0x3AB, 1, 0x3C4⟩, ⟨0x3CF, 0x3CF, 1, 0x3D7⟩, ⟨0x3D8, 0x3EE, 2, 0x3D9⟩,
   ⟨0x3F4, 0x3F4, 1, 0x3B8⟩, ⟨0x3F7, 0x3F7, 1, 0x3F8⟩, ⟨0x3F9, 0x3F9, 1, 0x3F2⟩,
   ⟨0x3FA, 0x3FA, 1, 0x3FB⟩, ⟨0x3FD, 0x3FF, 1, 0x37B⟩, ⟨0x400, 0x40F, 1, 0x450⟩,
   ⟨0x410, 0x42F, 1, 0x430⟩, ⟨0x460, 0x480, 2, 0x461⟩, ⟨0x48A, 0x4BE, 2, 0x48B⟩,
   ⟨0x4C0, 0x4C0, 1, 0x4CF⟩, ⟨0x4C1, 0x4CD, 2, 0x4C2⟩, ⟨0x4D0, 0x52E, 2, 0x4D1⟩,
   ⟨0x531, 0x556, 1, 0x561⟩, ⟨0x10A0, 0x10C5, 1, 0x2D00⟩, ⟨0x10C7, 0x10C7, 1, 0x2D27⟩,
   ⟨0x10CD, 0x10CD, 1, 0x2D2D⟩, ⟨0x13A0, 0x13EF, 1, 0xAB70⟩, ⟨0x13F0, 0x13F5, 1, 0x13F8⟩,
   ⟨0x1C89, 0x1C89, 1, 0x1C8A⟩, ⟨0x1C90, 0x1CBA, 1, 0x10D0⟩, ⟨0x1CBD, 0x1CBF, 1, 0x10FD⟩,
   ⟨0x1E00, 0x1E94, 2, 0x1E01⟩, ⟨0x1E9E, 0x1E9E, 1, 0xDF⟩, ⟨0x1EA0, 0x1EFE, 2, 0x1EA1⟩,
   ⟨0x1F08, 0x1F0F, 1, 0x1F00⟩, ⟨0x1F18, 0x1F1D, 1, 0x1F10⟩, ⟨0x1F28, 0x1F2F, 1, 0x1F20⟩,
   ⟨0x1F38, 0x1F3F, 1, 0x1F30⟩, ⟨0x1F48, 0x1F4D, 1, 0x1F40⟩, ⟨0x1F59, 0x1F5F, 2, 0x1F51⟩,
   ⟨0x1F68, 0x1F6F, 1, 0x1F60⟩, ⟨0x1F88, 0x1F8F, 1, 0x1F80⟩, ⟨0x1F98, 0x1F9F, 1, 0x1F90⟩,
   ⟨0x1FA8, 0x1FAF, 1, 0x1FA0⟩, ⟨0x1FB8, 0x1FB9, 1, 0x1FB0⟩, ⟨0x1FBA, 0x1FBB, 1, 0x1F70⟩,
   ⟨0x1FBC, 0x1FBC, 1, 0x1FB3⟩, ⟨0x1FC8, 0x1FCB, 1, 0x1F72⟩, ⟨0x1FCC, 0x1FCC, 1, 0x1FC3⟩,
   ⟨0x1FD8, 0x1FD9, 1, 0x1FD0⟩, ⟨0x1FDA, 0x1FDB, 1, 0x1F76⟩, ⟨0x1FE8, 0x1FE9, 1, 0x1FE0⟩,
   ⟨0x1FEA, 0x1FEB, 1, 0x1F7A⟩, ⟨0x1FEC, 0x1FEC, 1, 0x1FE5⟩, ⟨0x1FF8, 0x1FF9, 1, 0x1F78⟩,
   ⟨0x1FFA, 0x1FFB, 1, 0x1F7C⟩, ⟨0x1FFC, 0x1FFC, 1, 0x1FF3⟩, ⟨0x2126, 0x2126, 1, 0x3C9⟩,
   ⟨0x212A, 0x212A, 1, 0x6B⟩, ⟨0x212B, 0x212B, 1, 0xE5⟩, ⟨0x2132, 0x2132, 1, 0x214E⟩,
   ⟨0x2160, 0x216F, 1, 0x2170⟩, ⟨0x2183, 0x2183, 1, 0x2184⟩, ⟨0x24B6, 0x24CF, 1, 0x24D0⟩,
   ⟨0x2C00, 0x2C2F, 1, 0x2C30⟩, ⟨0x2C60, 0x2C60, 1, 0x2C61⟩, ⟨0x2C62, 0x2C62, 1, 0x26B⟩,
   ⟨0x2C63, 0x2C63, 1, 0x1D7D⟩, ⟨0x2C64, 0x2C64, 1, 0x27D⟩, ⟨0x2C67, 0x2C6B, 2, 0x2C68⟩,
   ⟨0x2C6D, 0x2C6D, 1, 0x251⟩, ⟨0x2C6E, 0x2C6E, 1, 0x271⟩, ⟨0x2C6F, 0x2C6F, 1, 0x250⟩,
   ⟨0x2C70, 0x2C70, 1, 0x252⟩, ⟨0x2C72, 0x2C72, 1, 0x2C73⟩, ⟨0x2C75, 0x2C75, 1, 0x2C76⟩,
   ⟨0x2C7E, 0x2C7F, 1, 0x23F⟩, ⟨0x2C80, 0x2CE2, 2, 0x2C81⟩, ⟨0x2CEB, 0x2CED, 2, 0x2CEC⟩,
   ⟨0x2CF2, 0x2CF2, 1, 0x2CF3⟩, ⟨0xA640, 0xA66C, 2, 0xA641⟩, ⟨0xA680, 0xA69A, 2, 0xA681⟩,
   ⟨0xA722, 0xA72E, 2, 0xA723⟩, ⟨0xA732, 0xA76E, 2, 0xA733⟩, ⟨0xA779, 0xA77B, 2, 0xA77A⟩,
   ⟨0xA77D, 0xA77D, 1, 0x1D79⟩, ⟨0xA77E, 0xA786, 2, 0xA77F⟩, ⟨0xA78B, 0xA78B, 1, 0xA78C⟩,
   ⟨0xA78D, 0xA78D, 1, 0x265⟩, ⟨0xA790, 0xA792, 2, 0xA791⟩, ⟨0xA796, 0xA7A8, 2, 0xA797⟩,
   ⟨0xA7AA, 0xA7AA, 1, 0x266⟩, ⟨0xA7AB, 0xA7AB, 1, 0x25C⟩, ⟨0xA7AC, 0xA7AC, 1, 0x261⟩,
   ⟨0xA7AD, 0xA7AD, 1, 0x26C⟩, ⟨0xA7AE, 0xA7AE, 1, 0x26A⟩, ⟨0xA7B0, 0xA7B0, 1, 0x29E⟩,
   ⟨0xA7B1, 0xA7B1, 1, 0x287⟩, ⟨0xA7B2, 0xA7B2, 1, 0x29D⟩, ⟨0xA7B3, 0xA7B3, 1, 0xAB53⟩,
   ⟨0xA7B4, 0xA7C2, 2, 0xA7B5⟩, ⟨0xA7C4, 0xA7C4, 1, 0xA794⟩, ⟨0xA7C5, 0xA7C5, 1, 0x282⟩,
   ⟨0xA7C6, 0xA7C6, 1, 0x1D8E⟩, ⟨0xA7C7, 0xA7C9, 2, 0xA7C8⟩, ⟨0xA7CB, 0xA7CB, 1, 0x264⟩,
   ⟨0xA7CC, 0xA7DA, 2, 0xA7CD⟩, ⟨0xA7DC, 0xA7DC, 1, 0x19B⟩, ⟨0xA7F5, 0xA7F5, 1, 0xA7F6⟩,
   ⟨0xFF21, 0xFF3A, 1, 0xFF41⟩, ⟨0x10400, 0x10427, 1, 0x10428⟩, ⟨0x104B0, 0x104D3, 1, 0x104D8⟩,
   ⟨0x10570, 0x1057A, 1, 0x10597⟩, ⟨0x1057C, 0x1058A, 1, 0x105A3⟩, ⟨0x1058C, 0x10592, 1, 0x105B3⟩,
   ⟨0x10594, 0x10595, 1, 0x105BB⟩, ⟨0x10C80, 0x10CB2, 1, 0x10CC0⟩, ⟨0x10D50, 0x10D65, 1, 0x10D70⟩,
   ⟨0x118A0, 0x118BF, 1, 0x118C0⟩, ⟨0x16E40, 0x16E5F, 1, 0x16E60⟩, ⟨0x16EA0, 0x16EB8, 1, 0x16EBB⟩,
   ⟨0x1E900, 0x1E921, 1, 0x1E922⟩]

def lowerCode (n : Nat) : Option Nat := lowercaseRanges.findSome? (·.map n)

/-- Unicode's `White_Space`. -/
def whiteSpaceRanges : List (Nat × Nat) :=
  [(0x9, 0xD), (0x20, 0x20), (0x85, 0x85), (0xA0, 0xA0), (0x1680, 0x1680), (0x2000, 0x200A),
   (0x2028, 0x2029), (0x202F, 0x202F), (0x205F, 0x205F), (0x3000, 0x3000)]

def isWhitespace (c : Char) : Bool :=
  whiteSpaceRanges.any fun w => w.1 ≤ c.toNat ∧ c.toNat ≤ w.2

/-! ## The table -/

theorem lowerCode_eq_some {n m : Nat} (h : lowerCode n = some m) :
    ∃ r ∈ lowercaseRanges, r.map n = some m := List.exists_of_findSome?_eq_some h

theorem lowercaseRanges_apart :
    lowercaseRanges.all (fun r => lowercaseRanges.all fun q => r.apart q) = true := by
  simp only [CaseRange.apart_eq]
  decide +kernel

theorem lowercaseRanges_valid : lowercaseRanges.all CaseRange.valid = true := by decide +kernel

/-- No letter is mapped to `İ`, to `Σ` or to white space. -/
theorem lowercaseRanges_avoid :
    lowercaseRanges.all (fun r => ((0x130, 0x130) :: (0x3A3, 0x3A3) :: whiteSpaceRanges).all
      fun w => r.avoids w.1 w.2) = true := by
  decide +kernel

theorem lowerCode_image {n m : Nat} (h : lowerCode n = some m) : lowerCode m = none := by
  obtain ⟨r, hr, hm⟩ := lowerCode_eq_some h
  refine List.findSome?_eq_none_iff.mpr fun q hq => ?_
  have ha := List.all_eq_true.mp (List.all_eq_true.mp lowercaseRanges_apart r hr) q hq
  exact CaseRange.apart_map hm ha

theorem lowerCode_avoids {n m lo hi : Nat} (h : lowerCode n = some m)
    (hw : (lo, hi) ∈ (0x130, 0x130) :: (0x3A3, 0x3A3) :: whiteSpaceRanges) :
    ¬ (lo ≤ m ∧ m ≤ hi) := by
  obtain ⟨r, hr, hm⟩ := lowerCode_eq_some h
  exact CaseRange.avoids_map hm
    (List.all_eq_true.mp (List.all_eq_true.mp lowercaseRanges_avoid r hr) (lo, hi) hw)

theorem toNat_lowerCode {n m : Nat} (h : lowerCode n = some m) : (Char.ofNat m).toNat = m := by
  obtain ⟨r, hr, hm⟩ := lowerCode_eq_some h
  have hv := CaseRange.valid_map hm (List.all_eq_true.mp lowercaseRanges_valid r hr)
  rw [Char.ofNat, dif_pos hv]
  rfl

/-! ## Characters -/

/-- `char::to_lowercase`, for the characters other than `Σ`. -/
def charLowercase (c : Char) : List Char :=
  if c = 'İ' then ['i', '\u0307']
  else match lowerCode c.toNat with
    | some n => [Char.ofNat n]
    | none => [c]

/-- Lowercasing leaves the character. -/
def Settled (c : Char) : Prop := c ≠ 'İ' ∧ c ≠ 'Σ' ∧ lowerCode c.toNat = none

instance (c : Char) : Decidable (Settled c) := inferInstanceAs (Decidable (_ ∧ _ ∧ _))

theorem Settled.charLowercase {c : Char} (h : Settled c) : charLowercase c = [c] := by
  unfold Text.charLowercase
  rw [if_neg h.1, h.2.2]

theorem charLowercase_ne_nil (c : Char) : charLowercase c ≠ [] := by
  unfold charLowercase
  split
  · exact List.cons_ne_nil _ _
  · split <;> exact List.cons_ne_nil _ _

theorem settled_lowerCode {n m : Nat} (h : lowerCode n = some m) : Settled (Char.ofNat m) := by
  have hm := toNat_lowerCode h
  refine ⟨?_, ?_, hm.symm ▸ lowerCode_image h⟩
  · intro e
    rw [e] at hm
    exact lowerCode_avoids h List.mem_cons_self ⟨hm.le, hm.ge⟩
  · intro e
    rw [e] at hm
    exact lowerCode_avoids h (List.mem_cons_of_mem _ List.mem_cons_self) ⟨hm.le, hm.ge⟩

theorem settled_charLowercase {c d : Char} (hc : c ≠ 'Σ') (hd : d ∈ charLowercase c) :
    Settled d := by
  unfold charLowercase at hd
  split at hd
  · rcases List.mem_pair.mp hd with rfl | rfl <;> decide +kernel
  · rename_i h
    split at hd
    · rename_i m hm
      rw [List.mem_singleton.mp hd]
      exact settled_lowerCode hm
    · rename_i hn
      rw [List.mem_singleton.mp hd]
      exact ⟨h, hc, hn⟩

theorem isWhitespace_lowerCode {n m : Nat} (h : lowerCode n = some m) :
    isWhitespace (Char.ofNat m) = false := by
  rw [isWhitespace, List.any_eq_false]
  intro w hw hm
  rw [toNat_lowerCode h, decide_eq_true_eq] at hm
  exact lowerCode_avoids h (List.mem_cons_of_mem _ (List.mem_cons_of_mem _ hw)) hm

theorem isWhitespace_charLowercase {c d : Char} (hc : isWhitespace c = false)
    (hd : d ∈ charLowercase c) : isWhitespace d = false := by
  unfold charLowercase at hd
  split at hd
  · rcases List.mem_pair.mp hd with rfl | rfl <;> decide
  · split at hd
    · rename_i m hm
      rw [List.mem_singleton.mp hd]
      exact isWhitespace_lowerCode hm
    · rw [List.mem_singleton.mp hd]
      exact hc

/-! ## Strings -/

/-- The Unicode properties that decide where a word ends. -/
structure CaseProps where
  cased : Char → Bool
  caseIgnorable : Char → Bool

variable (U : CaseProps)

def caseIgnorableThenCased (l : List Char) : Bool :=
  match l.dropWhile U.caseIgnorable with
  | c :: _ => U.cased c
  | [] => false

/-- The lowercase of `Σ` after `before`, which is reversed, and before `after`. -/
def mapUppercaseSigma (before after : List Char) : Char :=
  if caseIgnorableThenCased U before && !caseIgnorableThenCased U after then 'ς' else 'σ'

/-- What the character `c` of a string becomes. -/
def lowercaseAt (before : List Char) (c : Char) (after : List Char) : List Char :=
  if c = 'Σ' then [mapUppercaseSigma U before after] else charLowercase c

def lowercaseAfter (before : List Char) : List Char → List Char
  | [] => []
  | c :: rest => lowercaseAt U before c rest ++ lowercaseAfter (c :: before) rest

/-- `str::to_lowercase`. -/
def toLowercase (s : String) : String := String.ofList (lowercaseAfter U [] s.toList)

/-- `str::trim`. -/
def trim (s : String) : String :=
  String.ofList ((s.toList.dropWhile isWhitespace).rdropWhile isWhitespace)

variable {U}

theorem sigma_settled (before after : List Char) : Settled (mapUppercaseSigma U before after) := by
  unfold mapUppercaseSigma
  split <;> decide +kernel

theorem settled_lowercaseAt {before after : List Char} {c d : Char}
    (hd : d ∈ lowercaseAt U before c after) : Settled d := by
  unfold lowercaseAt at hd
  split at hd
  · rw [List.mem_singleton.mp hd]
    exact sigma_settled before after
  · exact settled_charLowercase ‹_› hd

theorem isWhitespace_lowercaseAt {before after : List Char} {c d : Char}
    (hc : isWhitespace c = false) (hd : d ∈ lowercaseAt U before c after) :
    isWhitespace d = false := by
  unfold lowercaseAt at hd
  split at hd
  · rw [List.mem_singleton.mp hd, mapUppercaseSigma]
    split <;> decide
  · exact isWhitespace_charLowercase hc hd

theorem lowercaseAt_ne_nil (before : List Char) (c : Char) (after : List Char) :
    lowercaseAt U before c after ≠ [] := by
  unfold lowercaseAt
  split
  · exact List.cons_ne_nil _ _
  · exact charLowercase_ne_nil c

theorem settled_lowercaseAfter (l before : List Char) :
    ∀ c ∈ lowercaseAfter U before l, Settled c := by
  induction l generalizing before with
  | nil => simp [lowercaseAfter]
  | cons c rest ih =>
    intro d hd
    rcases List.mem_append.mp hd with hd | hd
    · exact settled_lowercaseAt hd
    · exact ih (c :: before) d hd

theorem lowercaseAfter_settled {l : List Char} (h : ∀ c ∈ l, Settled c) (before : List Char) :
    lowercaseAfter U before l = l := by
  induction l generalizing before with
  | nil => rfl
  | cons c rest ih =>
    obtain ⟨hc, hr⟩ := List.forall_mem_cons.mp h
    rw [lowercaseAfter, lowercaseAt, if_neg hc.2.1, hc.charLowercase, ih hr]
    rfl

theorem settled_toLowercase (s : String) : ∀ c ∈ (toLowercase U s).toList, Settled c := by
  rw [toLowercase, String.toList_ofList]
  exact settled_lowercaseAfter _ _

theorem toLowercase_of_settled {s : String} (h : ∀ c ∈ s.toList, Settled c) :
    toLowercase U s = s := by
  rw [toLowercase, lowercaseAfter_settled h, String.ofList_toList]

/-! ## Trimmed strings -/

/-- White space stands neither first nor last. -/
def Trimmed (l : List Char) : Prop :=
  (∀ c ∈ l.head?, isWhitespace c = false) ∧ ∀ c ∈ l.getLast?, isWhitespace c = false

theorem trimmed_trim (s : String) : Trimmed (trim s).toList := by
  rw [trim, String.toList_ofList]
  constructor
  · intro c hc
    have hp := List.rdropWhile_prefix isWhitespace (l := s.toList.dropWhile isWhitespace)
    obtain ⟨t, ht⟩ := hp
    have hd : c ∈ (s.toList.dropWhile isWhitespace).head? := by
      rw [← ht, List.head?_append, Option.mem_def.mp hc]
      rfl
    have hn := List.head?_dropWhile_not isWhitespace s.toList
    rw [Option.mem_def.mp hd] at hn
    exact hn
  · intro c hc
    obtain ⟨hne, rfl⟩ := List.mem_getLast?_eq_getLast hc
    exact Bool.eq_false_iff.mpr (List.rdropWhile_last_not _ _ hne)

theorem trim_of_trimmed {s : String} (h : Trimmed s.toList) : trim s = s := by
  have hd : s.toList.dropWhile isWhitespace = s.toList := by
    cases hs : s.toList with
    | nil => rfl
    | cons c rest =>
      have hc := h.1 c (by rw [hs]; rfl)
      rw [List.dropWhile_cons_of_neg (by simp [hc])]
  have hr : s.toList.rdropWhile isWhitespace = s.toList := by
    rw [List.rdropWhile_eq_self_iff]
    intro hl
    simp [h.2 _ (List.getLast?_eq_some_getLast hl)]
  rw [trim, hd, hr, String.ofList_toList]

theorem head_lowercaseAfter {l : List Char} (h : ∀ c ∈ l.head?, isWhitespace c = false)
    (before : List Char) : ∀ c ∈ (lowercaseAfter U before l).head?, isWhitespace c = false := by
  cases l with
  | nil => simp [lowercaseAfter]
  | cons c rest =>
    intro d hd
    rw [lowercaseAfter, List.head?_append_of_ne_nil _ (lowercaseAt_ne_nil before c rest)] at hd
    exact isWhitespace_lowercaseAt (h c rfl) (List.mem_of_mem_head? hd)

theorem getLast_lowercaseAfter {l : List Char} (h : ∀ c ∈ l.getLast?, isWhitespace c = false)
    (before : List Char) : ∀ c ∈ (lowercaseAfter U before l).getLast?, isWhitespace c = false := by
  induction l generalizing before with
  | nil => simp [lowercaseAfter]
  | cons c rest ih =>
    intro d hd
    rw [lowercaseAfter, List.getLast?_append] at hd
    cases rest with
    | nil => exact isWhitespace_lowercaseAt (h c rfl) (List.mem_of_mem_getLast? hd)
    | cons c' rest' =>
      have hne : lowercaseAfter U (c :: before) (c' :: rest') ≠ [] :=
        List.append_ne_nil_of_left_ne_nil (lowercaseAt_ne_nil _ _ _) _
      rw [List.getLast?_eq_some_getLast hne, Option.some_or] at hd
      refine ih (fun e he => h e ?_) (c :: before) d ?_
      · rw [List.getLast?_cons_cons]
        exact he
      · rw [List.getLast?_eq_some_getLast hne]
        exact hd

theorem trimmed_toLowercase {s : String} (h : Trimmed s.toList) :
    Trimmed (toLowercase U s).toList := by
  rw [toLowercase, String.toList_ofList]
  exact ⟨head_lowercaseAfter h.1 [], getLast_lowercaseAfter h.2 []⟩

end Claudear.Text
