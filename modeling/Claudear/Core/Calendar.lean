import Claudear.Core.Time

/-!
# Sums, differences, months and weekdays

A sum that `chrono` cannot hold panics, which is `none`. Months are counted through the years: month `k` is the month `k % 12`, from 0, of the year
`k / 12`. Every day lies in one of them (`day_in_month`), and in no other
(`monthIndex_unique`).
-/

namespace Claudear.Core

/-- `now - last` in nanoseconds. A leap second that lies between the times of day counts. -/
def signedDurationSince (now last : DateTime) : Int :=
  let adjust := if last.clock < now.clock ∧ 1000000000 ≤ last.nanos then 1
    else if now.clock < last.clock ∧ 1000000000 ≤ now.nanos then -1 else 0
  (now.secs - last.secs + adjust) * 1000000000 + (now.nanos - last.nanos)

/-- A whole second. -/
theorem valid_zero {secs : Int} : 0 < 1000000000 ∨ 0 < 2000000000 ∧ secs % 60 = 59 := .inl (by decide)

namespace DateTime

/-! ## Sums -/

/-- A whole number of seconds later, which is not in a leap second. -/
def later (t : DateTime) (seconds : Nat) : DateTime where
  secs := t.secs + seconds
  nanos := t.nanos % 1000000000
  valid := .inl (Nat.mod_lt t.nanos (by decide))

/-- `t + Duration::seconds(seconds)` -/
def addSeconds (t : DateTime) (seconds : Nat) : Option DateTime :=
  if (t.later seconds).Representable then some (t.later seconds) else none

/-! ## Months -/

/-- The first day of month `k`, counted from the first day of year 0. -/
def monthStart (k : Int) : Int := daysBefore (k / 12) + ((monthLengths (leapDay (k / 12))).take (k % 12).toNat).sum

def monthIndex (t : DateTime) : Int := 12 * t.year + (t.date.1 - 1)

variable {t u : DateTime} {k m o : Int} {ns : List Int}

/-- A day within the months: its month, and how far it is in it. -/
theorem monthDay_spec (h0 : 0 ≤ o) (h1 : o < ns.sum) :
    ∃ j : Nat, j < ns.length ∧ (monthDay m ns o).1 = m + j ∧ (monthDay m ns o).2 = o - (ns.take j).sum + 1 ∧
      (ns.take j).sum ≤ o ∧ o < (ns.take (j + 1)).sum := by
  induction ns generalizing m o with
  | nil =>
    rw [List.sum_nil] at h1
    omega
  | cons n ns ih =>
    rw [List.sum_cons] at h1
    unfold monthDay
    split
    · refine ⟨0, Nat.zero_lt_succ _, (Int.add_zero m).symm, ?_, ?_, ?_⟩
      · rw [List.take_zero, List.sum_nil]
        show o + 1 = o - 0 + 1
        omega
      · exact h0
      · rw [List.take_succ_cons, List.take_zero, List.sum_cons, List.sum_nil]
        omega
    · obtain ⟨j, hj, hmonth, hday, hfrom, hto⟩ := ih (m := m + 1) (o := o - n) (by omega) (by omega)
      refine ⟨j + 1, Nat.succ_lt_succ hj, ?_, ?_, ?_, ?_⟩
      · rw [hmonth]
        push_cast
        omega
      · rw [hday, List.take_succ_cons, List.sum_cons]
        omega
      · rw [List.take_succ_cons, List.sum_cons]
        omega
      · rw [List.take_succ_cons, List.sum_cons]
        omega

theorem sum_monthLengths (leap : Int) : (monthLengths leap).sum = 365 + leap := by
  simp only [monthLengths, List.sum_cons, List.sum_nil]
  omega

/-- The month after the `j`th of a year starts where that one ends. -/
theorem monthStart_succ {y : Int} {j : Nat} (hj : j < 12) :
    monthStart (12 * y + j + 1) = daysBefore y + ((monthLengths (leapDay y)).take (j + 1)).sum := by
  rcases Nat.lt_or_eq_of_le (Nat.le_of_lt_succ hj) with hlt | rfl
  · have hyear : (12 * y + j + 1) / 12 = y := by omega
    have hmonth : ((12 * y + j + 1) % 12).toNat = j + 1 := by omega
    rw [monthStart, hyear, hmonth]
  · have hyear : (12 * y + (11 : Nat) + 1) / 12 = y + 1 := by omega
    have hmonth : ((12 * y + (11 : Nat) + 1) % 12).toNat = 0 := by omega
    have hall : (monthLengths (leapDay y)).take (11 + 1) = monthLengths (leapDay y) := rfl
    rw [monthStart, hyear, hmonth, hall, sum_monthLengths, List.take_zero, List.sum_nil, daysBefore_succ]
    omega

theorem monthStart_eq {y : Int} {j : Nat} (hj : j < 12) :
    monthStart (12 * y + j) = daysBefore y + ((monthLengths (leapDay y)).take j).sum := by
  have hyear : (12 * y + j) / 12 = y := by omega
  have hmonth : ((12 * y + j) % 12).toNat = j := by omega
  rw [monthStart, hyear, hmonth]

/-- A day lies in its month. -/
theorem day_in_month (t : DateTime) :
    monthStart t.monthIndex ≤ t.day ∧ t.day < monthStart (t.monthIndex + 1) ∧
      t.date.2 = t.day - monthStart t.monthIndex + 1 := by
  obtain ⟨h0, h1⟩ := day_of_year t
  obtain ⟨j, hj, hmonth, hday, hfrom, hto⟩ := monthDay_spec (m := 1) h0 (sum_monthLengths _ ▸ h1)
  have hindex : t.monthIndex = 12 * t.year + j := by
    unfold monthIndex date
    rw [hmonth]
    omega
  have hj : j < 12 := hj
  rw [hindex, monthStart_succ hj, monthStart_eq hj]
  unfold date
  rw [hday]
  omega

theorem monthStart_lt_succ (k : Int) : monthStart k < monthStart (k + 1) := by
  obtain ⟨j, hj, hk⟩ : ∃ j : Nat, j < 12 ∧ k = 12 * (k / 12) + j := ⟨(k % 12).toNat, by omega, by omega⟩
  have hleap := leapDay_eq (k / 12)
  rw [hk, monthStart_succ hj, monthStart_eq hj]
  have hlength : j < (monthLengths (leapDay (k / 12))).length := hj
  rw [List.take_succ_eq_append_getElem hlength, List.sum_append, List.sum_singleton]
  have hpos : ∀ n ∈ monthLengths (leapDay (k / 12)), 0 < n := by
    simp only [monthLengths, List.forall_mem_cons]
    simp
    omega
  have hmem := hpos _ (List.getElem_mem hlength)
  omega

theorem monthStart_mono {j k : Int} (h : j ≤ k) : monthStart j ≤ monthStart k := by
  obtain ⟨n, rfl⟩ := Int.le.dest h
  induction n with
  | zero => rw [Int.natCast_zero, Int.add_zero]
  | succ n ih =>
    have hstep := monthStart_lt_succ (j + n)
    rw [Int.natCast_succ, ← Int.add_assoc]
    exact (ih (Int.le_add_of_nonneg_right (Int.natCast_nonneg n))).trans (le_of_lt hstep)

/-- No other month has the day. -/
theorem monthIndex_unique (hfrom : monthStart k ≤ t.day) (hto : t.day < monthStart (k + 1)) : t.monthIndex = k := by
  obtain ⟨hin, hin', -⟩ := day_in_month t
  rcases lt_trichotomy t.monthIndex k with h | h | h
  · have hmono := monthStart_mono (j := t.monthIndex + 1) (k := k) (by omega)
    omega
  · exact h
  · have hmono := monthStart_mono (j := k + 1) (k := t.monthIndex) (by omega)
    omega

theorem monthIndex_mono (h : t.day ≤ u.day) : t.monthIndex ≤ u.monthIndex := by
  by_contra hlt
  have hmono := monthStart_mono (j := u.monthIndex + 1) (k := t.monthIndex) (by omega)
  have ht := (day_in_month t).1
  have hu := (day_in_month u).2.1
  omega

/-- The first of a month. -/
theorem date_eq_first_iff : t.date.2 = 1 ↔ t.day = monthStart t.monthIndex := by
  have hday := (day_in_month t).2.2
  omega

theorem monthIndex_eq_iff : t.monthIndex = u.monthIndex ↔ t.year = u.year ∧ t.date.1 = u.date.1 := by
  have ht := date_bounds t
  have hu := date_bounds u
  unfold monthIndex
  omega

end DateTime

/-! ## Weekdays -/

inductive Weekday where
  | Mon | Tue | Wed | Thu | Fri | Sat | Sun
  deriving DecidableEq, Repr

namespace Weekday

def numDaysFromMonday : Weekday → Int
  | .Mon => 0
  | .Tue => 1
  | .Wed => 2
  | .Thu => 3
  | .Fri => 4
  | .Sat => 5
  | .Sun => 6

def ofDays (n : Int) : Weekday :=
  match (n % 7).toNat with
  | 0 => .Mon
  | 1 => .Tue
  | 2 => .Wed
  | 3 => .Thu
  | 4 => .Fri
  | 5 => .Sat
  | _ => .Sun

theorem ofDays_eq_iff {n : Int} {w : Weekday} : ofDays n = w ↔ n % 7 = w.numDaysFromMonday := by
  have hcases : n % 7 = 0 ∨ n % 7 = 1 ∨ n % 7 = 2 ∨ n % 7 = 3 ∨ n % 7 = 4 ∨ n % 7 = 5 ∨ n % 7 = 6 := by omega
  rw [ofDays]
  rcases hcases with h | h | h | h | h | h | h <;> rw [h] <;> cases w <;> decide

theorem numDaysFromMonday_lt (w : Weekday) : 0 ≤ w.numDaysFromMonday ∧ w.numDaysFromMonday < 7 := by
  cases w <;> decide

end Weekday

/-- The first day of 1970 was a Thursday. -/
def DateTime.weekday (t : DateTime) : Weekday := .ofDays (t.day - 719528 + 3)

end Claudear.Core
