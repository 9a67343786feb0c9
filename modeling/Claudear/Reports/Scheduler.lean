import Claudear.Core.Calendar

/-!
# Report schedules

A slot is the scheduled hour of a scheduled day. `is_due` and `next_run` compute the days
in different ways; both are compared with `ScheduledDay`.
-/

namespace Claudear.Reports

open Claudear.Core

inductive ReportFrequency where
  | Daily
  | Weekly (day : Weekday)
  | Monthly
  deriving DecidableEq, Repr

structure ReportSchedule where
  name : String
  frequency : ReportFrequency
  hour : Nat
  enabled : Bool
  last_sent_at : Option DateTime
  deriving DecidableEq, Repr

/-! ## Calendar calls -/

def hourOf (t : DateTime) : Int := t.clock / 3600

def numDays (duration : Int) : Int := duration.tdiv 86400000000000

/-- That hour of a day, which is counted from the first day of year 0. -/
def atHour (day : Int) (hour : Nat) : DateTime := ⟨(day - 719528) * 86400 + hour * 3600, 0, .inl (by decide)⟩

/-- `Utc.with_ymd_and_hms(year, month, day, hour, 0, 0).single()` -/
def withYmdAndHms (year month day : Int) (hour : Nat) : Option DateTime :=
  let lengths := DateTime.monthLengths (DateTime.leapDay year)
  let t := atHour (DateTime.daysBefore year + (lengths.take (month - 1).toNat).sum + (day - 1)) hour
  if 1 ≤ month ∧ month ≤ 12 ∧ 1 ≤ day ∧ day ≤ lengths.getD (month - 1).toNat 0 ∧ hour < 24 ∧ t.Representable then some t
  else none

/-! ## Schedules -/

namespace ReportSchedule

variable (s : ReportSchedule) (now : DateTime)

def isDue : Bool :=
  s.enabled && decide (hourOf now = s.hour) &&
  match s.frequency with
  | .Daily =>
    match s.last_sent_at with
    | none => true
    | some last => decide (last.day < now.day)
  | .Weekly day =>
    decide (now.weekday = day) &&
    match s.last_sent_at with
    | none => true
    | some last => decide (6 ≤ numDays (signedDurationSince now last))
  | .Monthly =>
    decide (now.date.2 = 1) &&
    match s.last_sent_at with
    | none => true
    | some last => decide (last.date.1 ≠ now.date.1) || decide (last.year ≠ now.year)

def nextRun : Option DateTime :=
  match s.frequency with
  | .Daily =>
    let today_target := (withYmdAndHms now.year now.date.1 now.date.2 s.hour).getD now
    if now < today_target then some today_target else today_target.addSeconds 86400
  | .Weekly target_day =>
    let days_until := (target_day.numDaysFromMonday - now.weekday.numDaysFromMonday + 7) % 7
    (now.addSeconds (days_until.toNat * 86400)).bind fun target_date =>
      let target := (withYmdAndHms target_date.year target_date.date.1 target_date.date.2 s.hour).getD now
      if now < target ∧ days_until = 0 then some target
      else if days_until = 0 then target.addSeconds (7 * 86400)
      else some target
  | .Monthly =>
    let (year, month) :=
      if now.date.2 = 1 ∧ hourOf now < s.hour then (now.year, now.date.1)
      else if now.date.1 = 12 then (now.year + 1, 1)
      else (now.year, now.date.1 + 1)
    some ((withYmdAndHms year month 1 s.hour).getD now)

/-- The result of the job when the schedule is due, and the schedule after it. -/
def runWhenDue (job : Except String Unit) : Option (Except String Unit) × ReportSchedule :=
  if !s.isDue now then (none, s)
  else (some job, match job with
    | .ok _ => { s with last_sent_at := some now }
    | .error _ => s)

end ReportSchedule

/-- The ticks at which a job that succeeds runs. -/
def runs : ReportSchedule → List DateTime → List DateTime
  | _, [] => []
  | s, now :: rest =>
    match s.runWhenDue now (.ok ()) with
    | (none, s') => runs s' rest
    | (some _, s') => now :: runs s' rest

/-! ## Slots -/

def ScheduledDay : ReportFrequency → Int → Prop
  | .Daily, _ => True
  | .Weekly day, d => (d - 719528 + 3) % 7 = day.numDaysFromMonday
  | .Monthly, d => ∃ month, d = DateTime.monthStart month

def InSlot (s : ReportSchedule) (t : DateTime) : Prop := hourOf t = s.hour ∧ ScheduledDay s.frequency t.day

/-- The hour of a time, counted from the epoch. -/
def slotOf (t : DateTime) : Int := t.secs / 3600

variable {s : ReportSchedule} {now t last : DateTime} {ticks : List DateTime} {f : ReportFrequency} {day d : Int} {hour : Nat} {w : Weekday}

theorem scheduledDay_daily : ScheduledDay .Daily d := trivial

theorem scheduledDay_weekly : ScheduledDay (.Weekly w) t.day ↔ t.weekday = w := Weekday.ofDays_eq_iff.symm

theorem scheduledDay_monthly : ScheduledDay .Monthly t.day ↔ t.date.2 = 1 := by
  rw [DateTime.date_eq_first_iff]
  constructor
  · rintro ⟨month, hmonth⟩
    rw [DateTime.monthIndex_unique (k := month) (by omega) (by have := DateTime.monthStart_lt_succ month; omega)]
    exact hmonth
  · exact fun h => ⟨t.monthIndex, h⟩

/-! ## When a schedule is due -/

theorem slotOf_eq : slotOf t = (t.day - 719528) * 24 + hourOf t := by
  unfold slotOf DateTime.day hourOf DateTime.clock
  omega

theorem slotOf_eq_iff (h : InSlot s t) (h' : InSlot s last) : slotOf last = slotOf t ↔ last.day = t.day := by
  have hhour := h.1.trans h'.1.symm
  rw [slotOf_eq, slotOf_eq]
  omega

theorem day_le (h : last ≤ t) : last.day ≤ t.day := by
  rw [← not_lt, DateTime.lt_iff] at h
  unfold DateTime.day
  omega

/-- What the last run is compared by. -/
def Renewed (f : ReportFrequency) (last t : DateTime) : Prop :=
  match f with
  | .Daily => last.day < t.day
  | .Weekly _ => 6 ≤ numDays (signedDurationSince t last)
  | .Monthly => last.date.1 ≠ t.date.1 ∨ last.year ≠ t.year

theorem isDue_iff (he : s.enabled = true) :
    s.isDue t = true ↔ InSlot s t ∧ ∀ last, s.last_sent_at = some last → Renewed s.frequency last t := by
  unfold ReportSchedule.isDue InSlot
  rw [he]
  cases hf : s.frequency <;> cases hl : s.last_sent_at <;>
    simp [scheduledDay_daily, scheduledDay_weekly, scheduledDay_monthly, Renewed, and_assoc]

theorem isDue_never (he : s.enabled = true) : { s with last_sent_at := none }.isDue t = true ↔ InSlot s t :=
  (isDue_iff (s := { s with last_sent_at := none }) he).trans (and_iff_left nofun)

theorem numDays_nonneg (h : 0 ≤ d) : numDays d = d / 86400000000000 := Int.tdiv_eq_ediv_of_nonneg h

theorem numDays_lt (h : d < 518400000000000) : numDays d < 6 := by
  have hsign : Int.sign 86400000000000 = 1 := rfl
  rw [numDays, Int.tdiv_eq_ediv, hsign]
  split <;> omega

/-- Slots of one weekday are a whole week apart, less an hour. -/
theorem six_days_iff (h : InSlot s t) (h' : InSlot s last) (hf : s.frequency = .Weekly w) (hle : last ≤ t) :
    6 ≤ numDays (signedDurationSince t last) ↔ last.day < t.day := by
  have hday := day_le hle
  obtain ⟨hhour, hweekday⟩ := h
  obtain ⟨hhour', hweekday'⟩ := h'
  rw [hf] at hweekday hweekday'
  have hvalid := t.valid
  have hvalid' := last.valid
  have hduration : (t.secs - last.secs) * 1000000000 - 3000000000 ≤ signedDurationSince t last ∧
      signedDurationSince t last ≤ (t.secs - last.secs) * 1000000000 + 3000000000 := by
    unfold signedDurationSince
    dsimp only
    split
    · omega
    · split <;> omega
  have hsecs : t.secs = (t.day - 719528) * 86400 + t.clock := by
    unfold DateTime.day DateTime.clock
    omega
  have hsecs' : last.secs = (last.day - 719528) * 86400 + last.clock := by
    unfold DateTime.day DateTime.clock
    omega
  have hclock : t.clock - last.clock < 3600 ∧ last.clock - t.clock < 3600 := by
    unfold hourOf at hhour hhour'
    omega
  constructor
  · intro hsix
    by_contra hlt
    have hsame : last.day = t.day := by omega
    have hfew := numDays_lt (d := signedDurationSince t last) (by omega)
    omega
  · intro hlt
    have hweek : last.day + 7 ≤ t.day := by
      unfold ScheduledDay at hweekday hweekday'
      dsimp only at hweekday hweekday'
      omega
    rw [numDays_nonneg (by omega)]
    omega

theorem renewed_iff (h : InSlot s t) (h' : InSlot s last) (hle : last ≤ t) :
    Renewed s.frequency last t ↔ last.day < t.day := by
  cases hf : s.frequency with
  | Daily => rfl
  | Weekly w => exact six_days_iff h h' hf hle
  | Monthly =>
    have hfirst := h.2
    have hfirst' := h'.2
    rw [hf, scheduledDay_monthly, DateTime.date_eq_first_iff] at hfirst hfirst'
    have hday := day_le hle
    have hmonths : (last.date.1 ≠ t.date.1 ∨ last.year ≠ t.year) ↔ last.monthIndex ≠ t.monthIndex := by
      have heq := DateTime.monthIndex_eq_iff (t := last) (u := t)
      tauto
    show (last.date.1 ≠ t.date.1 ∨ last.year ≠ t.year) ↔ _
    rw [hmonths]
    constructor
    · intro hne
      refine lt_of_le_of_ne hday fun heq => hne ?_
      exact le_antisymm (DateTime.monthIndex_mono hday) (DateTime.monthIndex_mono (ge_of_eq heq))
    · rintro hlt heq
      rw [hfirst, hfirst', heq] at hlt
      exact lt_irrefl _ hlt

/-- After a run, a schedule is due in the later slots. -/
theorem isDue_after (he : s.enabled = true) (hlast : s.last_sent_at = some last) (h' : InSlot s last) (hle : last ≤ t) :
    s.isDue t = true ↔ InSlot s t ∧ slotOf last ≠ slotOf t := by
  rw [isDue_iff he]
  refine and_congr_right fun h => ?_
  rw [Ne, slotOf_eq_iff h h']
  have hday := day_le hle
  constructor
  · intro hrenewed
    have hlt := (renewed_iff h h' hle).mp (hrenewed last hlast)
    omega
  · intro hne other hother
    rw [← Option.some.inj (hlast.symm.trans hother)]
    exact (renewed_iff h h' hle).mpr (by omega)

/-! ## Ticks -/

theorem runs_cons (now : DateTime) (rest : List DateTime) : runs s (now :: rest) =
    if s.isDue now then now :: runs { s with last_sent_at := some now } rest else runs s rest := by
  rw [runs, ReportSchedule.runWhenDue]
  cases s.isDue now <;> rfl

theorem inSlot_of_mem_runs (he : s.enabled = true) (h : t ∈ runs s ticks) : InSlot s t := by
  induction ticks generalizing s with
  | nil => exact absurd h List.not_mem_nil
  | cons now rest ih =>
    rw [runs_cons] at h
    split at h
    · rename_i hdue
      rcases List.mem_cons.mp h with rfl | h
      · exact ((isDue_iff he).mp hdue).1
      · exact ih (s := { s with last_sent_at := some now }) he h
    · exact ih he h

/-- The runs of one slot, the last one before the ticks included. -/
def runsIn (s : ReportSchedule) (ticks : List DateTime) (slot : Int) : List DateTime :=
  (s.last_sent_at.toList ++ runs s ticks).filter (slotOf · = slot)

/-- The last run, if any, was in a slot and not after the ticks. -/
def Ready (s : ReportSchedule) (ticks : List DateTime) : Prop :=
  ∀ last, s.last_sent_at = some last → InSlot s last ∧ ∀ t ∈ ticks, last ≤ t

theorem mem_of_mem_runs (h : t ∈ runs s ticks) : t ∈ ticks := by
  induction ticks generalizing s with
  | nil => exact h
  | cons now rest ih =>
    rw [runs_cons] at h
    split at h
    · rcases List.mem_cons.mp h with rfl | h
      · exact List.mem_cons_self
      · exact List.mem_cons_of_mem now (ih h)
    · exact List.mem_cons_of_mem now (ih h)

theorem slotOf_mono (h : last ≤ t) : slotOf last ≤ slotOf t := by
  rw [← not_lt, DateTime.lt_iff] at h
  unfold slotOf
  omega

theorem Ready.tail (h : Ready s (now :: ticks)) : Ready s ticks := fun last hlast =>
  ⟨(h last hlast).1, fun t ht => (h last hlast).2 t (List.mem_cons_of_mem now ht)⟩

theorem ready_run (hin : InSlot s now) (hnow : ∀ t ∈ ticks, now ≤ t) : Ready { s with last_sent_at := some now } ticks := by
  intro last hlast
  rw [← Option.some.inj hlast]
  exact ⟨hin, hnow⟩

/-- From a run on, the runs are in later slots than the run before. -/
theorem slotOf_lt_of_due (he : s.enabled = true) (hready : Ready s (now :: ticks)) (hnow : ∀ t ∈ ticks, now ≤ t)
    (hdue : s.isDue now = true) (hlast : s.last_sent_at = some last)
    (ht : t ∈ now :: runs { s with last_sent_at := some now } ticks) : slotOf last < slotOf t := by
  obtain ⟨hin, hle⟩ := hready last hlast
  have hle := hle now List.mem_cons_self
  have hlt : slotOf last < slotOf now := lt_of_le_of_ne (slotOf_mono hle) ((isDue_after he hlast hin hle).mp hdue).2
  rcases List.mem_cons.mp ht with rfl | ht
  · exact hlt
  · exact lt_of_lt_of_le hlt (slotOf_mono (hnow t (mem_of_mem_runs ht)))

theorem runsIn_length (he : s.enabled = true) (hready : Ready s ticks) (hticks : ticks.Pairwise (· ≤ ·)) {slot : Int}
    (hslot : (∃ t ∈ ticks, InSlot s t ∧ slotOf t = slot) ∨ ∃ last, s.last_sent_at = some last ∧ slotOf last = slot) :
    (runsIn s ticks slot).length = 1 := by
  induction ticks generalizing s with
  | nil =>
    rcases hslot with ⟨t, ht, -⟩ | ⟨last, hlast, rfl⟩
    · exact absurd ht List.not_mem_nil
    · simp [runsIn, runs, hlast]
  | cons now rest ih =>
    obtain ⟨hnow, hrest⟩ := List.pairwise_cons.mp hticks
    rw [runsIn, runs_cons]
    split
    · rename_i hdue
      have hin := ((isDue_iff he).mp hdue).1
      rw [List.filter_append, List.length_append]
      by_cases hused : ∃ last, s.last_sent_at = some last ∧ slotOf last = slot
      · -- the runs from here on are in later slots
        obtain ⟨last, hlast, rfl⟩ := hused
        have hnone : (now :: runs { s with last_sent_at := some now } rest).filter (slotOf · = slotOf last) = [] := by
          rw [List.filter_eq_nil_iff]
          intro t ht heq
          have hlt := slotOf_lt_of_due he hready hnow hdue hlast ht
          have heq := of_decide_eq_true heq
          omega
        rw [hnone, hlast]
        simp
      · have hnone : s.last_sent_at.toList.filter (slotOf · = slot) = [] := by
          rw [List.filter_eq_nil_iff]
          intro last hmem heq
          exact hused ⟨last, Option.mem_toList.mp hmem, of_decide_eq_true heq⟩
        rw [hnone, List.length_nil, Nat.zero_add]
        refine ih (s := { s with last_sent_at := some now }) he (ready_run hin hnow) hrest ?_
        rcases hslot with ⟨t, ht, hint, heq⟩ | hlast
        · rcases List.mem_cons.mp ht with rfl | ht
          · exact .inr ⟨t, rfl, heq⟩
          · exact .inl ⟨t, ht, hint, heq⟩
        · exact absurd hlast hused
    · rename_i hdue
      refine ih he hready.tail hrest ?_
      rcases hslot with ⟨t, ht, hint, heq⟩ | hlast
      · rcases List.mem_cons.mp ht with rfl | ht
        · -- not due in a slot: the last run was in it
          by_contra hnone
          refine hdue ((isDue_iff he).mpr ⟨hint, fun last hlast => ?_⟩)
          obtain ⟨hin', hle⟩ := hready last hlast
          have hle := hle t List.mem_cons_self
          have hne : slotOf last ≠ slotOf t := fun hsame => hnone (.inr ⟨last, hlast, hsame.trans heq⟩)
          have hagain := (isDue_after he hlast hin' hle).mpr ⟨hint, hne⟩
          exact ((isDue_iff he).mp hagain).2 last hlast
        · exact .inl ⟨t, ht, hint, heq⟩
      · exact .inr hlast

/-! ## The next run -/

theorem day_atHour (h : hour ≤ 23) : (atHour day hour).day = day := by
  unfold atHour DateTime.day
  dsimp only
  omega

theorem hourOf_atHour (h : hour ≤ 23) : hourOf (atHour day hour) = hour := by
  unfold atHour hourOf DateTime.clock
  dsimp only
  omega

theorem lt_atHour (h : hour ≤ 23) : now < atHour day hour ↔ now.day < day ∨ now.day = day ∧ hourOf now < hour := by
  rw [DateTime.lt_iff]
  unfold atHour DateTime.day hourOf DateTime.clock
  dsimp only
  omega

theorem atHour_mono (h : day ≤ d) : atHour day hour ≤ atHour d hour := by
  rw [← not_lt, DateTime.lt_iff]
  unfold atHour
  dsimp only
  omega

theorem later_atHour {n : Nat} : (atHour day hour).later (n * 86400) = atHour (day + n) hour := by
  refine DateTime.key_injective (congrArg toLex (Prod.ext ?_ rfl))
  show (day - 719528) * 86400 + hour * 3600 + (n * 86400 : Nat) = (day + n - 719528) * 86400 + hour * 3600
  push_cast
  omega

/-- The range of `chrono` starts and ends with a day. -/
theorem representable_of_day (h : t.Representable) (hday : now.day = t.day) : now.Representable := by
  unfold DateTime.Representable DateTime.MIN_SECS DateTime.MAX_SECS DateTime.daysBefore DateTime.day at *
  omega

theorem representable_between (h : now.Representable) (ht : t.Representable) (hfrom : now.day ≤ last.day) (hto : last.day ≤ t.day) :
    last.Representable := by
  unfold DateTime.Representable DateTime.MIN_SECS DateTime.MAX_SECS DateTime.daysBefore DateTime.day at *
  omega

/-- The parts of a date are read back. -/
theorem withYmdAndHms_date (ht : t.Representable) (h : hour ≤ 23) :
    withYmdAndHms t.year t.date.1 t.date.2 hour = some (atHour t.day hour) := by
  obtain ⟨hmonth, hmonth', hday, -⟩ := DateTime.date_bounds t
  obtain ⟨-, hto, hdate⟩ := DateTime.day_in_month t
  obtain ⟨j, hj, hjeq⟩ : ∃ j : Nat, j < 12 ∧ t.date.1 = j + 1 := ⟨(t.date.1 - 1).toNat, by omega, by omega⟩
  have hindex : t.monthIndex = 12 * t.year + j := by
    unfold DateTime.monthIndex
    omega
  have hlength : j < (DateTime.monthLengths (DateTime.leapDay t.year)).length := hj
  rw [hindex, DateTime.monthStart_succ hj, List.take_succ_eq_append_getElem hlength, List.sum_append, List.sum_singleton] at hto
  rw [hindex, DateTime.monthStart_eq hj] at hdate
  have hnat : (t.date.1 - 1).toNat = j := by omega
  have hnumber : DateTime.daysBefore t.year + ((DateTime.monthLengths (DateTime.leapDay t.year)).take j).sum + (t.date.2 - 1) =
      t.day := by omega
  rw [withYmdAndHms]
  simp only [hnat, hnumber]
  refine if_pos ⟨hmonth, hmonth', hday, ?_, Nat.lt_succ_of_le h, representable_of_day ht (day_atHour h)⟩
  rw [List.getD_eq_getElem?_getD, List.getElem?_eq_getElem hlength, Option.getD_some]
  omega

/-- The first of a month. -/
theorem withYmdAndHms_first {k : Int} (hfirst : (atHour (DateTime.monthStart k) hour).Representable) (h : hour ≤ 23) :
    withYmdAndHms (k / 12) (k % 12 + 1) 1 hour = some (atHour (DateTime.monthStart k) hour) := by
  obtain ⟨j, hj, hk⟩ : ∃ j : Nat, j < 12 ∧ k = 12 * (k / 12) + j := ⟨(k % 12).toNat, by omega, by omega⟩
  have hnat : (k % 12 + 1 - 1).toNat = j := by omega
  have hlength : j < (DateTime.monthLengths (DateTime.leapDay (k / 12))).length := hj
  have hpos : ∀ n ∈ DateTime.monthLengths (DateTime.leapDay (k / 12)), 1 ≤ n := by
    have hleap := DateTime.leapDay_eq (k / 12)
    simp only [DateTime.monthLengths, List.forall_mem_cons]
    simp
    omega
  have hnumber : DateTime.daysBefore (k / 12) + ((DateTime.monthLengths (DateTime.leapDay (k / 12))).take j).sum + (1 - 1) =
      DateTime.monthStart k := by
    conv_rhs => rw [hk, DateTime.monthStart_eq hj]
    omega
  rw [withYmdAndHms]
  simp only [hnat, hnumber]
  refine if_pos ⟨by omega, by omega, le_refl 1, ?_, Nat.lt_succ_of_le h, hfirst⟩
  rw [List.getD_eq_getElem?_getD, List.getElem?_eq_getElem hlength, Option.getD_some]
  exact hpos _ (List.getElem_mem hlength)

/-- A whole hour after `now` at which the schedule is due when it was never sent. -/
def Candidate (s : ReportSchedule) (now t : DateTime) : Prop :=
  t.secs % 3600 = 0 ∧ t.nanos = 0 ∧ t.Representable ∧ now < t ∧ { s with last_sent_at := none }.isDue t = true

theorem candidate_iff (he : s.enabled = true) (h : s.hour ≤ 23) : Candidate s now t ↔
    t = atHour t.day s.hour ∧ ScheduledDay s.frequency t.day ∧ t.Representable ∧ now < t := by
  unfold Candidate
  rw [isDue_never he]
  unfold InSlot
  constructor
  · rintro ⟨hsecs, hnanos, hrep, hlt, hhour, hday⟩
    refine ⟨DateTime.key_injective (congrArg toLex (Prod.ext ?_ hnanos)), hday, hrep, hlt⟩
    show t.secs = (t.day - 719528) * 86400 + s.hour * 3600
    unfold hourOf DateTime.clock at hhour
    unfold DateTime.day
    omega
  · rintro ⟨heq, hday, hrep, hlt⟩
    have hwhole : (atHour t.day s.hour).secs % 3600 = 0 := by
      unfold atHour
      dsimp only
      omega
    rw [← heq] at hwhole
    refine ⟨hwhole, by rw [heq]; rfl, hrep, hlt, ?_, hday⟩
    rw [heq]
    exact hourOf_atHour h

/-- The first scheduled day whose hour is after `now`. -/
def NextDay (s : ReportSchedule) (now : DateTime) (d : Int) : Prop :=
  ScheduledDay s.frequency d ∧ now < atHour d s.hour ∧
    ∀ e, ScheduledDay s.frequency e → now < atHour e s.hour → d ≤ e

theorem representable_nextDay (h : s.hour ≤ 23) (he : s.enabled = true) (hnow : now.Representable) (hd : NextDay s now d)
    (ht : Candidate s now t) : (atHour d s.hour).Representable ∧ d ≤ t.day := by
  obtain ⟨heq, hday, hrep, hlt⟩ := (candidate_iff he h).mp ht
  have hle := hd.2.2 t.day hday (heq ▸ hlt)
  have hfrom : now.day ≤ d := by
    have hafter := (lt_atHour h).mp hd.2.1
    omega
  exact ⟨representable_between hnow hrep ((day_atHour h).symm ▸ hfrom) ((day_atHour h).symm ▸ hle), hle⟩

theorem isLeast_nextDay (h : s.hour ≤ 23) (he : s.enabled = true) (hnow : now.Representable) (hd : NextDay s now d)
    (ht : Candidate s now t) : IsLeast {t | Candidate s now t} (atHour d s.hour) := by
  constructor
  · refine (candidate_iff he h).mpr ⟨?_, ?_, (representable_nextDay h he hnow hd ht).1, hd.2.1⟩
    · rw [day_atHour h]
    · rw [day_atHour h]
      exact hd.1
  · intro u hu
    obtain ⟨heq, hday, -, hlt⟩ := (candidate_iff he h).mp hu
    rw [heq]
    exact atHour_mono (hd.2.2 u.day hday (heq ▸ hlt))

theorem nextRun_daily (hf : s.frequency = .Daily) (h : s.hour ≤ 23) (hnow : now.Representable)
    (hrep : ∀ d, NextDay s now d → (atHour d s.hour).Representable) :
    ∃ d, NextDay s now d ∧ s.nextRun now = some (atHour d s.hour) := by
  unfold ReportSchedule.nextRun
  simp only [hf, withYmdAndHms_date hnow h, Option.getD_some]
  by_cases hlt : now < atHour now.day s.hour
  · refine ⟨now.day, ⟨hf ▸ trivial, hlt, fun e _ he => ?_⟩, if_pos hlt⟩
    have hafter := (lt_atHour h).mp he
    omega
  · have hnext : NextDay s now (now.day + 1) := by
      refine ⟨hf ▸ trivial, (lt_atHour h).mpr (.inl (Int.lt_succ now.day)), fun e _ he => ?_⟩
      have hafter := (lt_atHour h).mp he
      have hbefore := mt (lt_atHour h).mpr hlt
      by_contra hle
      have hsame : e = now.day := by omega
      rw [hsame] at hafter
      exact hbefore hafter
    have hlater : (atHour now.day s.hour).later 86400 = atHour (now.day + 1) s.hour := later_atHour (n := 1)
    refine ⟨now.day + 1, hnext, ?_⟩
    rw [if_neg hlt, DateTime.addSeconds, hlater, if_pos (hrep _ hnext)]

theorem day_later {n : Nat} : (now.later (n * 86400)).day = now.day + n := by
  unfold DateTime.later DateTime.day
  dsimp only
  push_cast
  omega

theorem nextRun_weekly (hf : s.frequency = .Weekly w) (h : s.hour ≤ 23) (hnow : now.Representable)
    (hrep : ∀ d, NextDay s now d → (atHour d s.hour).Representable) :
    ∃ d, NextDay s now d ∧ s.nextRun now = some (atHour d s.hour) := by
  have hweekday : (now.day - 719528 + 3) % 7 = now.weekday.numDaysFromMonday := Weekday.ofDays_eq_iff.mp rfl
  have hbounds := Weekday.numDaysFromMonday_lt w
  have hscheduled (e : Int) : ScheduledDay s.frequency e ↔ (e - 719528 + 3) % 7 = w.numDaysFromMonday := by
    rw [hf]
    rfl
  obtain ⟨u, hu, hlt⟩ : ∃ u : Nat, (w.numDaysFromMonday - now.weekday.numDaysFromMonday + 7) % 7 = u ∧ u < 7 :=
    ⟨((w.numDaysFromMonday - now.weekday.numDaysFromMonday + 7) % 7).toNat, by omega, by omega⟩
  unfold ReportSchedule.nextRun
  simp only [hf, hu, Int.toNat_natCast]
  -- the date that many days ahead is no later than the slot that follows
  have htarget {d : Int} (hd : NextDay s now d) (hle : now.day + u ≤ d) :
      now.addSeconds (u * 86400) = some (now.later (u * 86400)) ∧
      withYmdAndHms (now.later (u * 86400)).year (now.later (u * 86400)).date.1 (now.later (u * 86400)).date.2 s.hour =
        some (atHour (now.day + u) s.hour) := by
    have hdate : (now.later (u * 86400)).Representable := by
      refine representable_between hnow (hrep d hd) ?_ ?_
      · rw [day_later]
        omega
      · rw [day_later, day_atHour h]
        exact hle
    refine ⟨if_pos hdate, ?_⟩
    rw [withYmdAndHms_date hdate h, day_later]
  by_cases htoday : u = 0
  · by_cases hbefore : now < atHour now.day s.hour
    · have hnext : NextDay s now now.day := by
        refine ⟨(hscheduled now.day).mpr (by omega), hbefore, fun e _ he => ?_⟩
        have hafter := (lt_atHour h).mp he
        omega
      obtain ⟨hadd, hymd⟩ := htarget hnext (by omega)
      refine ⟨now.day, hnext, ?_⟩
      rw [hadd, Option.bind_some, hymd, Option.getD_some, htoday, Int.natCast_zero, Int.add_zero, if_pos ⟨hbefore, rfl⟩]
    · have hnext : NextDay s now (now.day + 7) := by
        refine ⟨(hscheduled _).mpr (by omega), (lt_atHour h).mpr (.inl (by omega)), fun e hday he => ?_⟩
        have hday := (hscheduled e).mp hday
        have hafter := (lt_atHour h).mp he
        by_contra hlt
        have hsame : e = now.day := by omega
        rw [hsame] at he
        exact hbefore he
      obtain ⟨hadd, hymd⟩ := htarget hnext (by omega)
      have hlater : (atHour now.day s.hour).later (7 * 86400) = atHour (now.day + 7) s.hour := later_atHour (n := 7)
      refine ⟨now.day + 7, hnext, ?_⟩
      rw [hadd, Option.bind_some, hymd, Option.getD_some, htoday, Int.natCast_zero, Int.add_zero,
        if_neg fun hboth => hbefore hboth.1, if_pos rfl, DateTime.addSeconds, hlater, if_pos (hrep _ hnext)]
  · have hnext : NextDay s now (now.day + u) := by
      refine ⟨(hscheduled _).mpr (by omega), (lt_atHour h).mpr (.inl (by omega)), fun e hday he => ?_⟩
      have hday := (hscheduled e).mp hday
      have hafter := (lt_atHour h).mp he
      omega
    obtain ⟨hadd, hymd⟩ := htarget hnext (le_refl _)
    have hzero : ¬ (u : Int) = 0 := by omega
    refine ⟨now.day + u, hnext, ?_⟩
    rw [hadd, Option.bind_some, hymd, Option.getD_some, if_neg fun hboth => hzero hboth.2, if_neg hzero]

theorem nextRun_monthly (hf : s.frequency = .Monthly) (h : s.hour ≤ 23)
    (hrep : ∀ d, NextDay s now d → (atHour d s.hour).Representable) :
    ∃ d, NextDay s now d ∧ s.nextRun now = some (atHour d s.hour) := by
  obtain ⟨hin, hto, hdate⟩ := DateTime.day_in_month now
  obtain ⟨hmonth, hmonth', -⟩ := DateTime.date_bounds now
  have hindex : now.monthIndex = 12 * now.year + (now.date.1 - 1) := rfl
  have hscheduled (e : Int) : ScheduledDay s.frequency e ↔ ∃ month, e = DateTime.monthStart month := by
    rw [hf]
    rfl
  have hymd {k year month : Int} (hnext : NextDay s now (DateTime.monthStart k)) (hyear : year = k / 12) (hm : month = k % 12 + 1) :
      withYmdAndHms year month 1 s.hour = some (atHour (DateTime.monthStart k) s.hour) := by
    rw [hyear, hm]
    exact withYmdAndHms_first (hrep _ hnext) h
  unfold ReportSchedule.nextRun
  simp only [hf]
  by_cases hfirst : now.date.2 = 1 ∧ hourOf now < s.hour
  · have hnext : NextDay s now (DateTime.monthStart now.monthIndex) := by
      refine ⟨(hscheduled _).mpr ⟨_, rfl⟩, (lt_atHour h).mpr (.inr ⟨by omega, hfirst.2⟩), fun e _ he => ?_⟩
      have hafter := (lt_atHour h).mp he
      omega
    refine ⟨_, hnext, ?_⟩
    rw [if_pos hfirst]
    dsimp only
    rw [hymd hnext (by omega) (by omega), Option.getD_some]
  · have hnext : NextDay s now (DateTime.monthStart (now.monthIndex + 1)) := by
      refine ⟨(hscheduled _).mpr ⟨_, rfl⟩, (lt_atHour h).mpr (.inl (by omega)), fun e hday he => ?_⟩
      obtain ⟨month, rfl⟩ := (hscheduled e).mp hday
      have hafter := (lt_atHour h).mp he
      refine DateTime.monthStart_mono (Int.add_one_le_of_lt ?_)
      by_contra hle
      have hmono := DateTime.monthStart_mono (Int.not_lt.mp hle)
      omega
    refine ⟨_, hnext, ?_⟩
    rw [if_neg hfirst]
    by_cases hdecember : now.date.1 = 12
    · rw [if_pos hdecember]
      dsimp only
      rw [hymd hnext (by omega) (by omega), Option.getD_some]
    · rw [if_neg hdecember]
      dsimp only
      rw [hymd hnext (by omega) (by omega), Option.getD_some]

theorem nextRun_isLeast (he : s.enabled = true) (h : s.hour ≤ 23) (hnow : now.Representable) (ht : Candidate s now t) :
    ∃ r, s.nextRun now = some r ∧ IsLeast {t | Candidate s now t} r := by
  have hrep : ∀ d, NextDay s now d → (atHour d s.hour).Representable := fun d hd => (representable_nextDay h he hnow hd ht).1
  have hnext : ∃ d, NextDay s now d ∧ s.nextRun now = some (atHour d s.hour) := by
    cases hf : s.frequency with
    | Daily => exact nextRun_daily hf h hnow hrep
    | Weekly w => exact nextRun_weekly hf h hnow hrep
    | Monthly => exact nextRun_monthly hf h hrep
  obtain ⟨d, hd, hrun⟩ := hnext
  exact ⟨atHour d s.hour, hrun, isLeast_nextDay h he hnow hd ht⟩

/-- An enabled schedule that was never sent, or last in a slot, runs once in every slot with a
tick and in no other hour; its next run is the first hour it can be due at, as long as `chrono`
can hold one. -/
theorem reportSchedule_slots (s : ReportSchedule) (he : s.enabled = true) (h : s.hour ≤ 23) :
    (∀ ticks, ticks.Pairwise (· ≤ ·) → Ready s ticks →
      (∀ t ∈ runs s ticks, t ∈ ticks ∧ InSlot s t) ∧ ∀ t ∈ ticks, InSlot s t → (runsIn s ticks (slotOf t)).length = 1) ∧
    ∀ now t, now.Representable → Candidate s now t → ∃ r, s.nextRun now = some r ∧ IsLeast {t | Candidate s now t} r := by
  refine ⟨fun ticks hticks hready => ⟨fun t ht => ⟨mem_of_mem_runs ht, inSlot_of_mem_runs he ht⟩, fun t ht hin => ?_⟩, ?_⟩
  · exact runsIn_length he hready hticks (.inl ⟨t, ht, hin, rfl⟩)
  · exact fun now t hnow ht => nextRun_isLeast he h hnow ht

def dailyAtNine : ReportSchedule :=
  { name := "pr-distribution", frequency := .Daily, hour := 9, enabled := true, last_sent_at := none }

/-- A number of minutes into the first day of 1970. -/
def minutesIn (n : Nat) : DateTime := ⟨n * 60, 0, .inl (by decide)⟩

theorem dailyAtNine_slots :
    (runsIn dailyAtNine [minutesIn 550, minutesIn 580] (slotOf (minutesIn 550))).length = 1 ∧
      ∃ r, dailyAtNine.nextRun (minutesIn 0) = some r ∧ IsLeast {t | Candidate dailyAtNine (minutesIn 0) t} r := by
  obtain ⟨hticks, hnext⟩ := reportSchedule_slots dailyAtNine rfl (by decide)
  have hordered : [minutesIn 550, minutesIn 580].Pairwise (· ≤ ·) :=
    List.pairwise_pair.mpr (le_of_lt (DateTime.lt_iff.mpr (.inl (by decide))))
  have hnine : Candidate dailyAtNine (minutesIn 0) (minutesIn 540) :=
    (candidate_iff rfl (by decide)).mpr ⟨rfl, trivial, by decide, DateTime.lt_iff.mpr (.inl (by decide))⟩
  constructor
  · exact (hticks _ hordered nofun).2 _ List.mem_cons_self ⟨by decide, trivial⟩
  · exact hnext _ _ (by decide) hnine

end Claudear.Reports
