import Claudear.Text.FixedWidth
import Mathlib.Data.Prod.Lex
import Mathlib.Data.String.Basic

/-!
# Times and their stored text

`DateTime` is `chrono::DateTime<Utc>`: seconds since the epoch and the
nanoseconds within the second, which go on to two seconds in a leap second.
The security tables hold times as RFC 3339 text in whole seconds and compare
them as text. `timestamp` is the whole second a time is stored as, `rfc3339`
its text. For the years 0 to 9999, which the text writes with four digits, the
order of the texts is the order of the whole seconds (`rfc3339_lt_iff`).
-/

namespace Claudear.Core

open Claudear.Text

structure DateTime where
  secs : Int
  nanos : Nat
  valid : nanos < 1000000000 ∨ nanos < 2000000000 ∧ secs % 60 = 59
  deriving DecidableEq, Repr

namespace DateTime

def key (t : DateTime) : Int ×ₗ Nat := toLex (t.secs, t.nanos)

theorem key_injective : Function.Injective key := by
  rintro ⟨s, n, _⟩ ⟨s', n', _⟩ h
  cases h
  rfl

instance : LinearOrder DateTime := LinearOrder.lift' key key_injective

theorem lt_iff {a b : DateTime} : a < b ↔ a.secs < b.secs ∨ a.secs = b.secs ∧ a.nanos < b.nanos :=
  Prod.Lex.toLex_lt_toLex

/-! ## The calendar -/

/-- Days from the first day of year 0 to the first day of year `y`. -/
def daysBefore (y : Int) : Int := 365 * y + (y + 3) / 4 - (y + 99) / 100 + (y + 399) / 400

/-- The year of the day `d`, counted from the first day of year 0. -/
def yearOf (d : Int) : Int :=
  let y := d * 400 / 146097
  if d < daysBefore y then y - 1 else if daysBefore (y + 1) ≤ d then y + 1 else y

/-- Days of February after the 28th. -/
def leapDay (y : Int) : Int := if y % 4 = 0 ∧ (y % 100 ≠ 0 ∨ y % 400 = 0) then 1 else 0

def monthLengths (leap : Int) : List Int := [31, 28 + leap, 31, 30, 31, 30, 31, 31, 30, 31, 30, 31]

/-- The month and the day of the month of the `o`th day, counted from 0, after the first day of
month `m`, when the months from `m` on have the given lengths. -/
def monthDay (m : Int) : List Int → Int → Int × Int
  | [], o => (m, o + 1)
  | n :: ns, o => if o < n then (m, o + 1) else monthDay (m + 1) ns (o - n)

/-- The day of the time, counted from the first day of year 0. -/
def day (t : DateTime) : Int := t.secs / 86400 + 719528

def year (t : DateTime) : Int := yearOf t.day

def date (t : DateTime) : Int × Int :=
  monthDay 1 (monthLengths (leapDay t.year)) (t.day - daysBefore t.year)

/-- The second of the day. -/
def clock (t : DateTime) : Int := t.secs % 86400

/-! ## Stored times -/

/-- The time as it is stored: `to_rfc3339_opts(SecondsFormat::Secs, true)`. -/
def timestamp (t : DateTime) : DateTime where
  secs := t.secs
  nanos := if t.nanos < 1000000000 then 0 else 1000000000
  valid := by
    have := t.valid
    split <;> omega

/-- A year outside 0 to 9999 is written with its sign. -/
def yearText (y : Int) : List Char :=
  if 0 ≤ y ∧ y ≤ 9999 then decimal 4 y.toNat
  else (if y < 0 then '-' else '+') :: (Nat.toDigits 10 y.natAbs).leftpad 4 '0'

/-- The second of the minute; 60 in a leap second. -/
def second (t : DateTime) : Int := t.clock % 60 + (if t.nanos < 1000000000 then 0 else 1)

def rfc3339 (t : DateTime) : String :=
  String.ofList (yearText t.year ++ '-' :: (decimal 2 t.date.1.toNat ++ '-' ::
    (decimal 2 t.date.2.toNat ++ 'T' :: (decimal 2 (t.clock / 3600).toNat ++ ':' ::
      (decimal 2 (t.clock / 60 % 60).toNat ++ ':' :: (decimal 2 t.second.toNat ++ ['Z']))))))

/-! ## Arithmetic -/

def NANOS_PER_SEC : Nat := 1000000000

def toNanos (t : DateTime) : Int := t.secs * NANOS_PER_SEC + t.nanos

def ofNanos (n : Int) : DateTime where
  secs := n / NANOS_PER_SEC
  nanos := (n % NANOS_PER_SEC).toNat
  valid := by
    unfold NANOS_PER_SEC
    omega

/-- The first second `chrono` can hold, and the first it cannot. -/
def MIN_SECS : Int := (daysBefore (-262143) - 719528) * 86400
def MAX_SECS : Int := (daysBefore 262143 - 719528) * 86400

/-- `checked_add_signed` of a number of nanoseconds; the clock reads no leap second. -/
def checkedAdd (t : DateTime) (n : Int) : Option DateTime :=
  let s := ofNanos (t.toNanos + n)
  if MIN_SECS ≤ s.secs ∧ s.secs < MAX_SECS then some s else none

/-- A time `chrono` can hold. -/
def Representable (t : DateTime) : Prop := MIN_SECS ≤ t.secs ∧ t.secs < MAX_SECS

instance {t : DateTime} : Decidable t.Representable := inferInstanceAs (Decidable (_ ∧ _))

theorem toNanos_ofNanos (n : Int) : (ofNanos n).toNanos = n := by
  unfold toNanos ofNanos NANOS_PER_SEC
  dsimp only
  omega

/-- Outside a leap second the order is the order of the nanoseconds. -/
theorem toNanos_le {a b : DateTime} (ha : a.nanos < NANOS_PER_SEC) (h : a ≤ b) :
    a.toNanos ≤ b.toNanos := by
  unfold NANOS_PER_SEC at ha
  rcases h.lt_or_eq with hlt | rfl
  · unfold toNanos NANOS_PER_SEC
    rcases lt_iff.mp hlt with hs | ⟨hs, hn⟩ <;> omega
  · exact le_refl _

/-- A sum of a time and a duration that is not after a time. -/
theorem checkedAdd_le {t due now : DateTime} {n : Int} (h : t.checkedAdd n = some due)
    (hle : due ≤ now) :
    t.toNanos + n ≤ now.toNanos ∧ t.toNanos + n < MAX_SECS * NANOS_PER_SEC := by
  unfold checkedAdd at h
  dsimp only at h
  split at h
  · next hrange =>
    cases h
    have hnanos : (ofNanos (t.toNanos + n)).nanos < NANOS_PER_SEC := by
      unfold ofNanos NANOS_PER_SEC
      dsimp only
      omega
    have hnow := toNanos_le hnanos hle
    rw [toNanos_ofNanos] at hnow
    have hmax : (t.toNanos + n) / NANOS_PER_SEC < MAX_SECS := hrange.2
    exact ⟨hnow, Int.lt_mul_of_ediv_lt (by decide) hmax⟩
  · cases h

example : rfc3339 ⟨1793782800, 0, by decide⟩ = "2026-11-04T09:00:00Z" := by decide

/-! ## Facts of the calendar -/

theorem daysBefore_mono {y z : Int} (h : y ≤ z) : daysBefore y ≤ daysBefore z := by
  unfold daysBefore
  omega

theorem yearOf_spec (d : Int) : daysBefore (yearOf d) ≤ d ∧ d < daysBefore (yearOf d + 1) := by
  have hy : ∀ y : Int, y = d * 400 / 146097 → daysBefore (y - 1) ≤ d ∧ d < daysBefore (y + 2) := by
    intro y hy
    unfold daysBefore
    omega
  obtain ⟨hlow, hhigh⟩ := hy _ rfl
  unfold yearOf
  dsimp only
  split
  · rename_i h
    rw [sub_add_cancel]
    exact ⟨hlow, h⟩
  split
  · rename_i h
    rw [add_assoc]
    exact ⟨h, hhigh⟩
  · rename_i h h'
    omega

theorem yearOf_mono {d e : Int} (h : d ≤ e) : yearOf d ≤ yearOf e := by
  by_contra hlt
  have hm := daysBefore_mono (y := yearOf e + 1) (z := yearOf d) (by omega)
  have hd := (yearOf_spec d).1
  have he := (yearOf_spec e).2
  omega

theorem leapDay_eq (y : Int) : leapDay y = 0 ∨ leapDay y = 1 := by
  unfold leapDay
  split <;> simp

theorem daysBefore_succ (y : Int) : daysBefore (y + 1) = daysBefore y + 365 + leapDay y := by
  unfold leapDay daysBefore
  split <;> omega

theorem month_ge (m : Int) (ns : List Int) (o : Int) : m ≤ (monthDay m ns o).1 := by
  induction ns generalizing m o with
  | nil => exact le_refl m
  | cons n ns ih =>
    unfold monthDay
    split
    · exact le_refl m
    · have := ih (m + 1) (o - n)
      omega

theorem monthDay_lt {m o p : Int} {ns : List Int} (h : o < p) :
    (monthDay m ns o).1 < (monthDay m ns p).1 ∨
      (monthDay m ns o).1 = (monthDay m ns p).1 ∧ (monthDay m ns o).2 < (monthDay m ns p).2 := by
  induction ns generalizing m o p with
  | nil => exact .inr ⟨rfl, Int.add_lt_add_right h 1⟩
  | cons n ns ih =>
    unfold monthDay
    by_cases hp : p < n
    · rw [if_pos hp, if_pos (by omega)]
      exact .inr ⟨rfl, Int.add_lt_add_right h 1⟩
    rw [if_neg hp]
    split
    · have := month_ge (m + 1) ns (p - n)
      exact .inl (by dsimp only; omega)
    · exact ih (by omega)

/-- A day within the months lies in one of them. -/
theorem monthDay_bounds {m o : Int} {ns : List Int} (hn : ∀ n ∈ ns, n ≤ 31) (h0 : 0 ≤ o)
    (h1 : o < ns.sum) : (monthDay m ns o).1 < m + ns.length ∧ 1 ≤ (monthDay m ns o).2 ∧
      (monthDay m ns o).2 ≤ 31 := by
  induction ns generalizing m o with
  | nil =>
    rw [List.sum_nil] at h1
    omega
  | cons n ns ih =>
    rw [List.sum_cons] at h1
    have hn' := hn n List.mem_cons_self
    rw [List.length_cons]
    unfold monthDay
    split
    · dsimp only
      omega
    · have := ih (m := m + 1) (fun k hk => hn k (List.mem_cons_of_mem n hk)) (by omega)
        (show o - n < ns.sum by omega)
      push_cast
      omega

/-! ## The order of stored times -/

section Stored

variable {a b : DateTime}

@[simp] theorem timestamp_timestamp (t : DateTime) : timestamp (timestamp t) = timestamp t := by
  have hn : (timestamp (timestamp t)).nanos = (timestamp t).nanos := by
    unfold timestamp
    by_cases h : t.nanos < 1000000000 <;> simp [h]
  exact key_injective (congrArg (fun n => toLex ((timestamp t).secs, n)) hn)

theorem day_of_year (t : DateTime) :
    0 ≤ t.day - daysBefore t.year ∧ t.day - daysBefore t.year < 365 + leapDay t.year := by
  obtain ⟨hl, hh⟩ := yearOf_spec t.day
  rw [daysBefore_succ] at hh
  unfold year
  omega

theorem date_bounds (t : DateTime) :
    1 ≤ t.date.1 ∧ t.date.1 ≤ 12 ∧ 1 ≤ t.date.2 ∧ t.date.2 ≤ 31 := by
  have hl := leapDay_eq t.year
  obtain ⟨h0, h1⟩ := day_of_year t
  have hb := @monthDay_bounds 1 _ (monthLengths (leapDay t.year))
    (by simp only [monthLengths, List.forall_mem_cons]; simp; omega) h0
    (by simp only [monthLengths, List.sum_cons, List.sum_nil]; omega)
  have hm := month_ge 1 (monthLengths (leapDay t.year)) (t.day - daysBefore t.year)
  simp only [monthLengths, List.length_cons, List.length_nil] at hb
  unfold date monthLengths
  unfold monthLengths at hm
  omega

theorem nanos_of_stored (h : timestamp a = a) :
    a.nanos = 0 ∨ a.nanos = 1000000000 ∧ a.clock % 60 = 59 := by
  have hn : a.nanos = if a.nanos < 1000000000 then 0 else 1000000000 := by
    conv_lhs => rw [← h]
    rfl
  have hv := a.valid
  unfold clock
  split at hn <;> omega

/-- On one day, the clock decides, and the leap second after it. -/
theorem clock_lt (hs : a.clock < b.clock ∨ a.clock = b.clock ∧ a.nanos < b.nanos)
    (ha : timestamp a = a) (hb : timestamp b = b) :
    a.clock / 3600 < b.clock / 3600 ∨
      a.clock / 3600 = b.clock / 3600 ∧ (a.clock / 60 % 60 < b.clock / 60 % 60 ∨
        a.clock / 60 % 60 = b.clock / 60 % 60 ∧ a.second < b.second) := by
  have ha := nanos_of_stored ha
  have hb := nanos_of_stored hb
  unfold second
  split <;> split <;> omega

/-- The fields of the text, most significant first. -/
theorem fields_lt (h : a < b) (ha : timestamp a = a) (hb : timestamp b = b) :
    a.year < b.year ∨ a.year = b.year ∧ (a.date.1 < b.date.1 ∨ a.date.1 = b.date.1 ∧
      (a.date.2 < b.date.2 ∨ a.date.2 = b.date.2 ∧ (a.clock / 3600 < b.clock / 3600 ∨
        a.clock / 3600 = b.clock / 3600 ∧ (a.clock / 60 % 60 < b.clock / 60 % 60 ∨
          a.clock / 60 % 60 = b.clock / 60 % 60 ∧ a.second < b.second)))) := by
  rw [lt_iff] at h
  have hd : a.day ≤ b.day := by
    unfold day
    omega
  rcases (show a.year ≤ b.year from yearOf_mono hd).lt_or_eq with hy | hy
  · exact .inl hy
  refine .inr ⟨hy, ?_⟩
  rcases hd.lt_or_eq with hd | hd
  · have hlt : a.day - daysBefore a.year < b.day - daysBefore b.year := by
      rw [hy]
      omega
    have hm := @monthDay_lt 1 _ _ (monthLengths (leapDay b.year)) hlt
    rw [← hy] at hm
    unfold date
    rw [← hy]
    rcases hm with hm | ⟨hm, hdd⟩
    · exact .inl hm
    · exact .inr ⟨hm, .inl hdd⟩
  · have hdate : a.date = b.date := by
      unfold date
      rw [hy, hd]
    refine .inr ⟨by rw [hdate], .inr ⟨by rw [hdate], clock_lt ?_ ha hb⟩⟩
    unfold day at hd
    unfold clock
    omega

theorem field_lt {w : Nat} {x y : Int} {u v : List Char} (h0 : 0 ≤ x) (h1 : y < 10 ^ w)
    (h : x < y ∨ x = y ∧ u < v) : decimal w x.toNat ++ u < decimal w y.toNat ++ v := by
  refine append_lt (by simp) (h.imp (fun h => decimal_lt ?_ ?_) fun h => ⟨by rw [h.1], h.2⟩)
  · have : ((10 ^ w : Nat) : Int) = 10 ^ w := by push_cast; rfl
    omega
  · omega

theorem cons_lt {c : Char} {u v : List Char} (h : u < v) : c :: u < c :: v :=
  append_lt_append_left (x := [c]) h

theorem rfc3339_lt (h : a < b) (ha : timestamp a = a) (hb : timestamp b = b) (h0 : 0 ≤ a.year)
    (h1 : b.year ≤ 9999) : rfc3339 a < rfc3339 b := by
  have hf := fields_lt h ha hb
  have hda := date_bounds a
  have hdb := date_bounds b
  have hle : a.year ≤ b.year := by omega
  have hca : 0 ≤ a.clock ∧ a.clock < 86400 := by
    unfold clock
    omega
  have hcb : 0 ≤ b.clock ∧ b.clock < 86400 := by
    unfold clock
    omega
  have hsa : 0 ≤ a.second ∧ a.second ≤ 60 := by
    unfold second
    split <;> omega
  have hsb : 0 ≤ b.second ∧ b.second ≤ 60 := by
    unfold second
    split <;> omega
  unfold rfc3339 yearText
  rw [if_pos ⟨h0, by omega⟩, if_pos ⟨by omega, h1⟩, String.lt_iff_toList_lt, String.toList_ofList,
    String.toList_ofList]
  refine field_lt h0 (by omega) (hf.imp_right fun h => ⟨h.1, cons_lt ?_⟩)
  refine field_lt (by omega) (by omega) (h.2.imp_right fun h => ⟨h.1, cons_lt ?_⟩)
  refine field_lt (by omega) (by omega) (h.2.imp_right fun h => ⟨h.1, cons_lt ?_⟩)
  refine field_lt (by omega) (by omega) (h.2.imp_right fun h => ⟨h.1, cons_lt ?_⟩)
  refine field_lt (by omega) (by omega) (h.2.imp_right fun h => ⟨h.1, cons_lt ?_⟩)
  exact field_lt (by omega) (by omega) (.inl h.2)

/-- The text has room for the year, and can be parsed. -/
def Writable (t : DateTime) : Prop := 0 ≤ t.year ∧ t.year ≤ 9999

instance (t : DateTime) : Decidable t.Writable := inferInstanceAs (Decidable (_ ∧ _))

theorem rfc3339_lt_iff (ha : timestamp a = a) (hb : timestamp b = b) (wa : a.Writable)
    (wb : b.Writable) : rfc3339 a < rfc3339 b ↔ a < b := by
  refine ⟨fun h => ?_, fun h => rfc3339_lt h ha hb wa.1 wb.2⟩
  rcases lt_trichotomy a b with hlt | rfl | hgt
  · exact hlt
  · exact absurd h (lt_irrefl _)
  · exact absurd h (lt_asymm (rfc3339_lt hgt hb ha wb.1 wa.2))

theorem rfc3339_inj (ha : timestamp a = a) (hb : timestamp b = b) (wa : a.Writable)
    (wb : b.Writable) : rfc3339 a = rfc3339 b ↔ a = b := by
  refine ⟨fun h => ?_, fun h => by rw [h]⟩
  rcases lt_trichotomy a b with hlt | heq | hgt
  · exact absurd h (rfc3339_lt hlt ha hb wa.1 wb.2).ne
  · exact heq
  · exact absurd h (rfc3339_lt hgt hb ha wb.1 wa.2).ne'

end Stored

end DateTime

end Claudear.Core
