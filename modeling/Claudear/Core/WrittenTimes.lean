import Claudear.Core.Time

/-!
# Dates and times of day as text

RFC 3339 puts a `T` between the date and the time of day, and the database a space. In one
form the order of the texts is the order of the times; between the forms the date decides,
and on one day the `T` comes after the space.
-/

namespace Claudear.Core.DateTime

open Claudear.Text

def dateText (t : DateTime) : List Char := yearText t.year ++ '-' :: (decimal 2 t.date.1.toNat ++ '-' :: decimal 2 t.date.2.toNat)

def timeText (t : DateTime) : List Char :=
  decimal 2 (t.clock / 3600).toNat ++ ':' :: (decimal 2 (t.clock / 60 % 60).toNat ++ ':' :: decimal 2 t.second.toNat)

/-- `YYYY-MM-DD HH:MM:SS`, the form of the database. -/
def datetime (t : DateTime) : String := String.ofList (t.dateText ++ ' ' :: t.timeText)

variable {a b t : DateTime} {x y u v : List Char} {c d : Char}

theorem rfc3339_eq : t.rfc3339 = String.ofList (t.dateText ++ 'T' :: (t.timeText ++ ['Z'])) := by
  rw [rfc3339, dateText, timeText]
  simp only [List.append_assoc, List.cons_append]

theorem length_dateText (h : t.Writable) : t.dateText.length = 10 := by
  rw [dateText, yearText, if_pos (show 0 ≤ t.year ∧ t.year ≤ 9999 from h)]
  simp

theorem length_timeText : t.timeText.length = 8 := by
  rw [timeText]
  simp

theorem dateText_congr (h : a.day = b.day) : a.dateText = b.dateText := by
  have hyear : a.year = b.year := congrArg yearOf h
  have hdate : a.date = b.date := by
    unfold date
    rw [hyear, h]
  rw [dateText, dateText, hyear, hdate]

theorem lt_of_append_lt (hl : x.length = y.length) (h : x ++ u < y ++ u) : x < y := by
  rcases lt_trichotomy x y with hlt | rfl | hgt
  · exact hlt
  · exact absurd h (lt_irrefl _)
  · exact absurd h (lt_asymm (append_lt_of_lt hl.symm hgt))

/-- The first second of its day. -/
def midnight (t : DateTime) : DateTime := ⟨t.secs / 86400 * 86400, 0, .inl (by decide)⟩

theorem day_midnight : t.midnight.day = t.day := by
  unfold midnight day
  dsimp only
  omega

theorem clock_midnight : t.midnight.clock = 0 := by
  unfold midnight clock
  dsimp only
  omega

theorem writable_midnight (h : t.Writable) : t.midnight.Writable := by
  have hyear : t.midnight.year = t.year := congrArg yearOf day_midnight
  unfold Writable
  rw [hyear]
  exact h

theorem dateText_lt (ha : a.Writable) (hb : b.Writable) (h : a.day < b.day) : a.dateText < b.dateText := by
  have hlt : a.midnight < b.midnight := by
    refine lt_iff.mpr (.inl ?_)
    unfold day at h
    show a.secs / 86400 * 86400 < b.secs / 86400 * 86400
    omega
  have htime : a.midnight.timeText = b.midnight.timeText := by
    have hsecond : a.midnight.second = b.midnight.second := by
      unfold second
      rw [clock_midnight, clock_midnight]
      rfl
    rw [timeText, timeText, clock_midnight, clock_midnight, hsecond]
  have htexts := (rfc3339_lt_iff rfl rfl (writable_midnight ha) (writable_midnight hb)).mpr hlt
  rw [rfc3339_eq, rfc3339_eq, String.lt_iff_toList_lt, String.toList_ofList, String.toList_ofList, htime] at htexts
  have hdates := lt_of_append_lt (by rw [length_dateText (writable_midnight ha), length_dateText (writable_midnight hb)]) htexts
  rwa [dateText_congr day_midnight, dateText_congr day_midnight] at hdates

/-- In the form of the database, the order is that of the times. -/
theorem datetime_lt (ha : timestamp a = a) (hb : timestamp b = b) (wa : a.Writable) (wb : b.Writable) (h : a < b) :
    a.datetime < b.datetime := by
  have hlength : a.dateText.length = b.dateText.length := by rw [length_dateText wa, length_dateText wb]
  rw [datetime, datetime, String.lt_iff_toList_lt, String.toList_ofList, String.toList_ofList]
  have hday : a.day ≤ b.day := by
    have hle := le_of_lt h
    rw [← not_lt, lt_iff] at hle
    unfold day
    omega
  rcases lt_or_eq_of_le hday with hday | hday
  · exact append_lt_of_lt hlength (dateText_lt wa wb hday)
  · have htexts := (rfc3339_lt_iff ha hb wa wb).mpr h
    rw [rfc3339_eq, rfc3339_eq, String.lt_iff_toList_lt, String.toList_ofList, String.toList_ofList,
      dateText_congr hday] at htexts
    rw [dateText_congr hday]
    refine append_lt_append_left (cons_lt (lt_of_append_lt (u := ['Z']) ?_ ?_))
    · rw [length_timeText, length_timeText]
    · by_contra hge
      rcases lt_or_eq_of_le (not_lt.mp hge) with hgt | heq
      · exact absurd htexts (lt_asymm (append_lt_append_left (cons_lt hgt)))
      · exact absurd htexts (heq ▸ lt_irrefl _)

/-- A published time comes after a creation time of its day and of every day before. -/
theorem datetime_lt_rfc3339 (wa : a.Writable) (wb : b.Writable) (h : a.day ≤ b.day) : a.datetime < b.rfc3339 := by
  have hlength : a.dateText.length = b.dateText.length := by rw [length_dateText wa, length_dateText wb]
  rw [datetime, rfc3339_eq, String.lt_iff_toList_lt, String.toList_ofList, String.toList_ofList]
  rcases lt_or_eq_of_le h with hday | hday
  · exact append_lt_of_lt hlength (dateText_lt wa wb hday)
  · rw [dateText_congr hday]
    exact append_lt_append_left (List.cons_lt_cons_iff.mpr (.inl (by decide)))

theorem rfc3339_lt_datetime (wa : a.Writable) (wb : b.Writable) (h : a.day < b.day) : a.rfc3339 < b.datetime := by
  have hlength : a.dateText.length = b.dateText.length := by rw [length_dateText wa, length_dateText wb]
  rw [datetime, rfc3339_eq, String.lt_iff_toList_lt, String.toList_ofList, String.toList_ofList]
  exact append_lt_of_lt hlength (dateText_lt wa wb h)

end Claudear.Core.DateTime
