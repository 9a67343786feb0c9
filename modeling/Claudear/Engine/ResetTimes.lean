import Claudear.Core.Calendar
import Claudear.Storage.PrGrammar
import Claudear.Text.Lowercase

/-!
# Reset times of a rate limit

Four readers look for a reset time in what an agent printed. Only the epoch seconds are
checked against the current time. A sum `chrono` cannot hold panics, which is `none`; how
`chrono` reads RFC 3339 is a parameter.
-/

namespace Claudear.Engine.ResetTimes

open Claudear.Core Claudear.Core.DateTime Claudear.Storage Claudear.Text

def MAX_RATE_LIMIT_RESET_DAYS_AHEAD : Nat := 8

def daySeconds : Nat := 86400

/-! ## Times -/

/-- `DateTime::from_timestamp(seconds, 0)` -/
def fromTimestamp (seconds : Int) : Option DateTime :=
  let t : DateTime := ⟨seconds, 0, valid_zero⟩
  if t.Representable then some t else none

def horizon (now : DateTime) : DateTime := later now (MAX_RATE_LIMIT_RESET_DAYS_AHEAD * daySeconds)

/-! ## Texts -/

/-- What stands behind the first occurrence of a marker. -/
def behind (marker : String) (text : List Char) : Option (List Char) := (splitOnce marker.toList text).map Prod.snd

theorem splitOnce_length {pattern s before rest : List Char} (hp : pattern ≠ [])
    (h : splitOnce pattern s = some (before, rest)) : rest.length + pattern.length ≤ s.length := by
  rw [(splitOnce_some hp h).1, List.length_append, List.length_append]
  omega

/-- What stands behind each occurrence of the key, from left to right. -/
def behindEach (text : List Char) : List (List Char) :=
  match _h : behind "\"resetsAt\"" text with
  | none => []
  | some after_key => after_key :: behindEach after_key
termination_by text.length
decreasing_by
  obtain ⟨⟨before, rest⟩, hsplit, rfl⟩ := Option.map_eq_some_iff.mp ‹_›
  have hlength := splitOnce_length (by decide) hsplit
  have hkey : "\"resetsAt\"".toList.length = 10 := by decide
  show rest.length < text.length
  omega

def toAsciiLowercase (text : List Char) : List Char := text.map Char.toLower

def trimStart (text : List Char) : List Char := text.dropWhile isWhitespace

def parseLeadingDigits (text : List Char) : Option Int :=
  (digits text).bind parseI64

/-- `str::parse::<u32>` of the digits before the first other character. -/
def parseU32 (text : List Char) : Option Nat :=
  (parseLeadingDigits text).bind fun n => if n < 2 ^ 32 then some n.toNat else none

/-! ## The readers -/

/-- What a `resetsAt` says. -/
inductive ResetsAt where
  | quoted (t : DateTime)
  | epoch (seconds : Int)

section
variable (parseFromRfc3339 : List Char → Option DateTime) (now : DateTime)

def plausibleRateLimitReset (epoch_seconds : Int) : Option (Option DateTime) :=
  match fromTimestamp epoch_seconds with
  | none => some none
  | some reset =>
    (addSeconds now (MAX_RATE_LIMIT_RESET_DAYS_AHEAD * daySeconds)).map fun horizon =>
      if now < reset ∧ reset ≤ horizon then some reset else none

def resetsAtValue (after_key : List Char) : Option ResetsAt :=
  (behind ":" after_key).bind fun after_colon =>
    match trimStart after_colon with
    | '"' :: after_quote =>
      (splitOnce ['"'] after_quote).bind fun quoted => (parseFromRfc3339 quoted.1).map ResetsAt.quoted
    | text => (parseLeadingDigits text).map ResetsAt.epoch

/-- The loop over the occurrences of the key. -/
def firstReset : List (List Char) → Option (Option DateTime)
  | [] => some none
  | after_key :: rest =>
    match resetsAtValue parseFromRfc3339 after_key with
    | none => firstReset rest
    | some (.quoted t) => some (some t)
    | some (.epoch seconds) =>
      (plausibleRateLimitReset now seconds).bind fun
        | some reset => some (some reset)
        | none => firstReset rest

def extractRateLimitResetFromResetsAt (error : List Char) : Option (Option DateTime) :=
  firstReset parseFromRfc3339 now (behindEach error)

def usageLimitSeconds (error : List Char) : Option Int :=
  (behind "usage limit reached|" (toAsciiLowercase error)).bind parseLeadingDigits

def extractRateLimitResetFromUsageLimit (error : List Char) : Option (Option DateTime) :=
  match usageLimitSeconds error with
  | none => some none
  | some seconds => plausibleRateLimitReset now seconds

/-- A number up to a character that is not a digit, and the text from there on. -/
def numberThen (text : List Char) : Option (Nat × List Char) :=
  match text.dropWhile Char.isDigit with
  | [] => none
  | rest => (parseU32 text).map fun n => (n, rest)

/-- `:mm`, or nothing. -/
def minuteThen : List Char → Option (Nat × List Char)
  | ':' :: rest => numberThen rest
  | text => some (0, text)

/-- Hours to add for `am` and `pm`, and the text behind it. -/
def meridiemThen : List Char → Option (Nat × List Char)
  | 'a' :: 'm' :: rest => some (0, rest)
  | 'p' :: 'm' :: rest => some (12, rest)
  | _ => none

/-- The second of the day that a banner `resets 6:30pm (UTC)` names. -/
def bannerSecond (error : List Char) : Option Nat :=
  (behind "resets" (toAsciiLowercase error)).bind fun tail =>
  (numberThen (trimStart tail)).bind fun hour =>
  if hour.1 = 0 ∨ 12 < hour.1 then none
  else (minuteThen hour.2).bind fun minute =>
    if 59 < minute.1 then none
    else (meridiemThen (trimStart minute.2)).bind fun meridiem =>
      if "(utc)".toList.isPrefixOf (trimStart meridiem.2)
      then some ((hour.1 % 12 + meridiem.1) * 3600 + minute.1 * 60) else none

/-- That second of the day of `now`. -/
def todayAt (second : Nat) : DateTime := ⟨now.secs / 86400 * 86400 + second, 0, .inl (by decide)⟩

def extractRateLimitResetFromBannerUtc (error : List Char) : Option (Option DateTime) :=
  match bannerSecond error with
  | none => some none
  | some second =>
    if todayAt now second ≤ now then (addSeconds (todayAt now second) daySeconds).map some else some (some (todayAt now second))

def retryAfterSeconds (error : List Char) : Option Int :=
  (behind "retry-after" (toAsciiLowercase error)).bind fun tail => parseLeadingDigits (tail.dropWhile (!·.isDigit))

/-- `Duration::seconds` panics above `i64::MAX / 1000`. -/
def extractRateLimitResetFromRetryAfter (error : List Char) : Option (Option DateTime) :=
  match retryAfterSeconds error with
  | none => some none
  | some seconds =>
    if seconds ≤ 0 then some none
    else if 9223372036854775 < seconds then none
    else (addSeconds now seconds.toNat).map some

/-- `or_else` -/
def orElse (first : Option (Option DateTime)) (second : Option (Option DateTime)) : Option (Option DateTime) :=
  first.bind fun
    | some reset => some (some reset)
    | none => second

def extractRateLimitResetTime (error : List Char) : Option (Option DateTime) :=
  orElse (extractRateLimitResetFromResetsAt parseFromRfc3339 now error) <|
  orElse (extractRateLimitResetFromUsageLimit now error) <|
  orElse (extractRateLimitResetFromBannerUtc now error) <|
  extractRateLimitResetFromRetryAfter now error

/-! ## The pause -/

/-- `rate_limit_pause_until` -/
abbrev PauseUntil := String → Option DateTime

/-- The time until which the provider is paused, and the pauses after the call. -/
def pauseUntilRateLimitReset (pauses : PauseUntil) (provider : String) (error : List Char) :
    Option (DateTime × PauseUntil) :=
  (extractRateLimitResetTime parseFromRfc3339 now error).bind fun parsed_reset =>
  (addSeconds now (15 * 60)).bind fun fallback_reset =>
  (addSeconds (parsed_reset.getD fallback_reset) 60).map fun pause_target =>
    match pauses provider with
    | some current =>
      if pause_target ≤ current then (current, pauses)
      else (pause_target, fun other => if other = provider then some pause_target else pauses other)
    | none => (pause_target, fun other => if other = provider then some pause_target else pauses other)

end

/-! ## Sane times -/

/-- After `now`, and within the horizon. -/
def Soon (now t : DateTime) : Prop := now < t ∧ t ≤ horizon now

/-- A time that is returned at all lies ahead, and not too far; `none` is a panic. -/
def Good (now : DateTime) (r : Option (Option DateTime)) : Prop := ∃ reset, r = some reset ∧ ∀ t, reset = some t → Soon now t

/-- The search ends at this value. -/
def Stops (now : DateTime) : ResetsAt → Prop
  | .quoted _ => True
  | .epoch seconds => ∃ t, fromTimestamp seconds = some t ∧ Soon now t

/-- A quoted time lies ahead, and for epoch seconds the horizon is not past the last time. -/
def Fits (now : DateTime) : ResetsAt → Prop
  | .quoted t => Soon now t
  | .epoch seconds => (fromTimestamp seconds).isSome → (horizon now).Representable

variable {parseFromRfc3339 : List Char → Option DateTime} {now t u : DateTime} {seconds : Int} {n second : Nat}
  {r b : Option (Option DateTime)} {error : List Char} {texts : List (List Char)}

theorem later_lt (h : 0 < n) : t < later t n := by
  refine DateTime.lt_iff.mpr (.inl ?_)
  show t.secs < t.secs + n
  omega

theorem later_le_iff {m : Nat} : later t n ≤ later t m ↔ n ≤ m := by
  rw [← not_lt, DateTime.lt_iff, ← not_lt]
  show ¬ (t.secs + m < t.secs + n ∨ t.secs + m = t.secs + n ∧ t.nanos % 1000000000 < t.nanos % 1000000000) ↔ _
  omega

theorem later_mono (h : t ≤ u) (hu : u.nanos < 1000000000) : later t n ≤ later u n := by
  rw [← not_lt, DateTime.lt_iff] at h ⊢
  show ¬ (u.secs + n < t.secs + n ∨ u.secs + n = t.secs + n ∧ u.nanos % 1000000000 < t.nanos % 1000000000)
  omega

theorem good_some : Good now (some (some t)) ↔ Soon now t := by
  constructor
  · rintro ⟨reset, hreset, h⟩
    exact h t (Option.some.inj hreset).symm
  · intro h
    exact ⟨some t, rfl, fun u hu => Option.some.inj hu ▸ h⟩

theorem good_none : Good now (some none) := ⟨none, rfl, fun _ h => absurd h (Option.some_ne_none _).symm⟩

theorem not_good_panic : ¬ Good now none := fun ⟨_, h, _⟩ => absurd h.symm (Option.some_ne_none _)

/-! ## Each reader -/

theorem plausible_of_stops (hfits : Fits now (.epoch seconds)) (hstops : Stops now (.epoch seconds)) :
    ∃ t, plausibleRateLimitReset now seconds = some (some t) ∧ Soon now t := by
  obtain ⟨t, ht, hsoon⟩ := hstops
  have hhorizon : addSeconds now (MAX_RATE_LIMIT_RESET_DAYS_AHEAD * daySeconds) = some (horizon now) :=
    if_pos (hfits (Option.isSome_iff_exists.mpr ⟨t, ht⟩))
  refine ⟨t, ?_, hsoon⟩
  simp only [plausibleRateLimitReset, ht, hhorizon, Option.map_some]
  exact congrArg some (if_pos hsoon)

theorem plausible_of_not_stops (hfits : Fits now (.epoch seconds)) (hstops : ¬ Stops now (.epoch seconds)) :
    plausibleRateLimitReset now seconds = some none := by
  cases ht : fromTimestamp seconds with
  | none => simp only [plausibleRateLimitReset, ht]
  | some t =>
    have hhorizon : addSeconds now (MAX_RATE_LIMIT_RESET_DAYS_AHEAD * daySeconds) = some (horizon now) :=
      if_pos (hfits (Option.isSome_iff_exists.mpr ⟨t, ht⟩))
    simp only [plausibleRateLimitReset, ht, hhorizon, Option.map_some]
    exact congrArg some (if_neg fun hsoon => hstops ⟨t, ht, hsoon⟩)

theorem plausible_of_not_fits (hfits : ¬ Fits now (.epoch seconds)) : plausibleRateLimitReset now seconds = none := by
  obtain ⟨hsome, hhorizon⟩ := Classical.not_imp.mp hfits
  obtain ⟨t, ht⟩ := Option.isSome_iff_exists.mp hsome
  have hpanic : addSeconds now (MAX_RATE_LIMIT_RESET_DAYS_AHEAD * daySeconds) = none := if_neg hhorizon
  simp only [plausibleRateLimitReset, ht, hpanic, Option.map_none]

theorem plausible_good {k : Option DateTime → Option (Option DateTime)} (hk : ∀ t, k (some t) = some (some t)) :
    Good now ((plausibleRateLimitReset now seconds).bind k) ↔
      Fits now (.epoch seconds) ∧ (¬ Stops now (.epoch seconds) → Good now (k none)) := by
  by_cases hfits : Fits now (.epoch seconds)
  · by_cases hstops : Stops now (.epoch seconds)
    · obtain ⟨t, ht, hsoon⟩ := plausible_of_stops hfits hstops
      rw [ht, Option.bind_some, hk, good_some]
      exact iff_of_true hsoon ⟨hfits, fun hnot => absurd hstops hnot⟩
    · rw [plausible_of_not_stops hfits hstops, Option.bind_some]
      exact ⟨fun h => ⟨hfits, fun _ => h⟩, fun h => h.2 hstops⟩
  · rw [plausible_of_not_fits hfits, Option.bind_none]
    exact iff_of_false not_good_panic fun h => hfits h.1

/-- Each value up to the first that stops the search fits. -/
def SaneValues (now : DateTime) : List ResetsAt → Prop
  | [] => True
  | v :: rest => Fits now v ∧ (¬ Stops now v → SaneValues now rest)

theorem good_resetsAt : Good now (orElse (firstReset parseFromRfc3339 now texts) b) ↔
    SaneValues now (texts.filterMap (resetsAtValue parseFromRfc3339)) ∧
      ((∀ v ∈ texts.filterMap (resetsAtValue parseFromRfc3339), ¬ Stops now v) → Good now b) := by
  induction texts with
  | nil =>
    show Good now b ↔ True ∧ ((∀ v ∈ [], ¬ Stops now v) → Good now b)
    exact ⟨fun h => ⟨trivial, fun _ => h⟩, fun h => h.2 fun _ hv => absurd hv List.not_mem_nil⟩
  | cons after_key rest ih =>
    cases hv : resetsAtValue parseFromRfc3339 after_key with
    | none =>
      rw [List.filterMap_cons_none hv, ← ih]
      simp only [firstReset, hv]
    | some v =>
      rw [List.filterMap_cons_some hv, SaneValues, List.forall_mem_cons]
      cases v with
      | quoted t =>
        simp only [firstReset, hv]
        show Good now (some (some t)) ↔ _
        rw [good_some]
        exact ⟨fun h => ⟨⟨h, fun hnot => absurd trivial hnot⟩, fun hnone => absurd trivial hnone.1⟩, fun h => h.1.1⟩
      | epoch seconds =>
        simp only [firstReset, hv, orElse, Option.bind_assoc]
        refine Iff.trans (plausible_good ?_) ?_
        · intro t
          rfl
        · show _ ∧ (_ → Good now (orElse (firstReset parseFromRfc3339 now rest) b)) ↔ _
          rw [ih]
          tauto

theorem good_usageLimit : Good now (orElse (extractRateLimitResetFromUsageLimit now error) b) ↔
    (∀ seconds, usageLimitSeconds error = some seconds → Fits now (.epoch seconds)) ∧
      ((∀ seconds, usageLimitSeconds error = some seconds → ¬ Stops now (.epoch seconds)) → Good now b) := by
  cases hs : usageLimitSeconds error with
  | none =>
    simp only [extractRateLimitResetFromUsageLimit, hs]
    show Good now b ↔ _
    exact ⟨fun h => ⟨nofun, fun _ => h⟩, fun h => h.2 nofun⟩
  | some seconds =>
    simp only [extractRateLimitResetFromUsageLimit, hs, orElse, Option.some_inj, forall_eq']
    exact plausible_good fun t => rfl

theorem bannerSecond_lt (h : bannerSecond error = some second) : second < daySeconds := by
  obtain ⟨tail, -, h⟩ := Option.bind_eq_some_iff.mp h
  obtain ⟨hour, -, h⟩ := Option.bind_eq_some_iff.mp h
  split at h
  · exact absurd h.symm (Option.some_ne_none _)
  · obtain ⟨minute, -, h⟩ := Option.bind_eq_some_iff.mp h
    split at h
    · exact absurd h.symm (Option.some_ne_none _)
    · rename_i hminute
      obtain ⟨meridiem, hmeridiem, h⟩ := Option.bind_eq_some_iff.mp h
      have hhours : meridiem.1 ≤ 12 := by
        unfold meridiemThen at hmeridiem
        split at hmeridiem
        · rw [← Option.some.inj hmeridiem]
          exact Nat.zero_le 12
        · rw [← Option.some.inj hmeridiem]
        · exact absurd hmeridiem.symm (Option.some_ne_none _)
      split at h
      · have hsecond := Option.some.inj h
        unfold daySeconds
        omega
      · exact absurd h.symm (Option.some_ne_none _)

/-- Today or tomorrow. -/
theorem soon_today (hsecond : second < daySeconds) (h : now < todayAt now second) : Soon now (todayAt now second) := by
  refine ⟨h, le_of_lt (DateTime.lt_iff.mpr (.inl ?_))⟩
  show now.secs / 86400 * 86400 + second < now.secs + (8 * 86400 : Nat)
  unfold daySeconds at hsecond
  omega

theorem soon_tomorrow (hsecond : second < daySeconds) : Soon now (later (todayAt now second) daySeconds) := by
  unfold daySeconds at hsecond
  constructor
  · refine DateTime.lt_iff.mpr (.inl ?_)
    show now.secs < now.secs / 86400 * 86400 + second + (86400 : Nat)
    omega
  · refine le_of_lt (DateTime.lt_iff.mpr (.inl ?_))
    show now.secs / 86400 * 86400 + second + (86400 : Nat) < now.secs + (8 * 86400 : Nat)
    omega

theorem good_banner : Good now (orElse (extractRateLimitResetFromBannerUtc now error) b) ↔
    (∀ second, bannerSecond error = some second → todayAt now second ≤ now →
      (later (todayAt now second) daySeconds).Representable) ∧
      (bannerSecond error = none → Good now b) := by
  cases hs : bannerSecond error with
  | none =>
    simp only [extractRateLimitResetFromBannerUtc, hs]
    show Good now b ↔ _
    exact ⟨fun h => ⟨nofun, fun _ => h⟩, fun h => h.2 trivial⟩
  | some second =>
    have hlt := bannerSecond_lt hs
    simp only [extractRateLimitResetFromBannerUtc, hs, Option.some_inj, forall_eq', reduceCtorEq, false_imp_iff, and_true]
    by_cases hpast : todayAt now second ≤ now
    · rw [if_pos hpast]
      by_cases hfits : (later (todayAt now second) daySeconds).Representable
      · have hadd : addSeconds (todayAt now second) daySeconds = some (later (todayAt now second) daySeconds) := if_pos hfits
        rw [hadd]
        exact iff_of_true (good_some.mpr (soon_tomorrow hlt)) fun _ => hfits
      · have hadd : addSeconds (todayAt now second) daySeconds = none := if_neg hfits
        rw [hadd]
        exact iff_of_false not_good_panic fun h => hfits (h hpast)
    · rw [if_neg hpast]
      exact iff_of_true (good_some.mpr (soon_today hlt (lt_of_not_ge hpast))) fun h => absurd h hpast

theorem good_retryAfter : Good now (extractRateLimitResetFromRetryAfter now error) ↔
    ∀ seconds, retryAfterSeconds error = some seconds → 0 < seconds →
      seconds ≤ (MAX_RATE_LIMIT_RESET_DAYS_AHEAD * daySeconds : Nat) ∧ (later now seconds.toNat).Representable := by
  cases hs : retryAfterSeconds error with
  | none =>
    simp only [extractRateLimitResetFromRetryAfter, hs]
    exact iff_of_true good_none nofun
  | some seconds =>
    simp only [extractRateLimitResetFromRetryAfter, hs, Option.some_inj, forall_eq']
    split
    · exact iff_of_true good_none fun h => by omega
    · rename_i hpos
      have hhorizon : MAX_RATE_LIMIT_RESET_DAYS_AHEAD * daySeconds = 691200 := rfl
      split
      · refine iff_of_false not_good_panic fun h => ?_
        have hle := (h (by omega)).1
        omega
      · by_cases hfits : (later now seconds.toNat).Representable
        · have hadd : addSeconds now seconds.toNat = some (later now seconds.toNat) := if_pos hfits
          rw [hadd]
          refine good_some.trans ⟨fun h _ => ⟨?_, hfits⟩, fun h => ⟨later_lt (by omega), later_le_iff.mpr ?_⟩⟩
          · have hle := later_le_iff.mp h.2
            omega
          · have hle := (h (by omega)).1
            omega
        · have hadd : addSeconds now seconds.toNat = none := if_neg hfits
          rw [hadd]
          exact iff_of_false not_good_panic fun h => hfits (h (by omega)).2

/-! ## All readers -/

/-- What the error says where the readers come to it, in their order. -/
structure SaneInput (parseFromRfc3339 : List Char → Option DateTime) (error : List Char) (now : DateTime) : Prop where
  resetsAt : SaneValues now ((behindEach error).filterMap (resetsAtValue parseFromRfc3339))
  usageLimit : (∀ v ∈ (behindEach error).filterMap (resetsAtValue parseFromRfc3339), ¬ Stops now v) →
    ∀ seconds, usageLimitSeconds error = some seconds → Fits now (.epoch seconds)
  banner : (∀ v ∈ (behindEach error).filterMap (resetsAtValue parseFromRfc3339), ¬ Stops now v) →
    (∀ seconds, usageLimitSeconds error = some seconds → ¬ Stops now (.epoch seconds)) →
    ∀ second, bannerSecond error = some second → todayAt now second ≤ now →
      (later (todayAt now second) daySeconds).Representable
  retryAfter : (∀ v ∈ (behindEach error).filterMap (resetsAtValue parseFromRfc3339), ¬ Stops now v) →
    (∀ seconds, usageLimitSeconds error = some seconds → ¬ Stops now (.epoch seconds)) → bannerSecond error = none →
    ∀ seconds, retryAfterSeconds error = some seconds → 0 < seconds →
      seconds ≤ (MAX_RATE_LIMIT_RESET_DAYS_AHEAD * daySeconds : Nat) ∧ (later now seconds.toNat).Representable

theorem good_extract : Good now (extractRateLimitResetTime parseFromRfc3339 now error) ↔ SaneInput parseFromRfc3339 error now := by
  rw [extractRateLimitResetTime, extractRateLimitResetFromResetsAt, good_resetsAt, good_usageLimit, good_banner, good_retryAfter]
  constructor
  · rintro ⟨hresets, h⟩
    exact ⟨hresets, fun hv => (h hv).1, fun hv hu => ((h hv).2 hu).1, fun hv hu hb => ((h hv).2 hu).2 hb⟩
  · rintro ⟨hresets, husage, hbanner, hretry⟩
    exact ⟨hresets, fun hv => ⟨husage hv, fun hu => ⟨hbanner hv hu, hretry hv hu⟩⟩⟩

/-- Every pause that is in force stays so, and a new one ends at most a minute after the horizon. -/
def PausesBriefly (parseFromRfc3339 : List Char → Option DateTime) (error : List Char) (now : DateTime) : Prop :=
  ∀ pauses provider until' pauses',
    pauseUntilRateLimitReset parseFromRfc3339 now pauses provider error = some (until', pauses') →
      pauses' provider = some until' ∧ (∀ current, pauses provider = some current → current ≤ until') ∧
        (until' ≤ later (horizon now) 60 ∨ pauses provider = some until') ∧
        ∀ other ≠ provider, pauses' other = pauses other

theorem eq_later_of_addSeconds (h : addSeconds t n = some u) : u = later t n := by
  rw [addSeconds] at h
  split at h
  · exact (Option.some.inj h).symm
  · exact absurd h.symm (Option.some_ne_none u)

theorem horizon_nanos : (horizon now).nanos < 1000000000 := Nat.mod_lt now.nanos (by decide)

theorem pausesBriefly (h : Good now (extractRateLimitResetTime parseFromRfc3339 now error)) :
    PausesBriefly parseFromRfc3339 error now := by
  obtain ⟨reset, hreset, hsoon⟩ := h
  intro pauses provider until' pauses' hpause
  rw [pauseUntilRateLimitReset, hreset, Option.bind_some] at hpause
  obtain ⟨fallback, hfallback, hpause⟩ := Option.bind_eq_some_iff.mp hpause
  obtain ⟨target, htarget, hpause⟩ := Option.map_eq_some_iff.mp hpause
  obtain rfl := eq_later_of_addSeconds hfallback
  obtain rfl := eq_later_of_addSeconds htarget
  have hle : later (reset.getD (later now (15 * 60))) 60 ≤ later (horizon now) 60 := by
    refine later_mono ?_ horizon_nanos
    cases reset with
    | none => exact later_le_iff.mpr (by decide)
    | some t => exact (hsoon t rfl).2
  cases hcurrent : pauses provider with
  | none =>
    simp only [hcurrent] at hpause
    obtain ⟨rfl, rfl⟩ := Prod.mk.inj hpause
    exact ⟨if_pos rfl, nofun, .inl hle, fun other hne => if_neg hne⟩
  | some current =>
    simp only [hcurrent] at hpause
    split at hpause
    · obtain ⟨rfl, rfl⟩ := Prod.mk.inj hpause
      exact ⟨hcurrent, fun _ heq => le_of_eq (Option.some.inj heq).symm, .inr rfl, fun _ _ => rfl⟩
    · rename_i hlt
      obtain ⟨rfl, rfl⟩ := Prod.mk.inj hpause
      refine ⟨if_pos rfl, fun c heq => ?_, .inl hle, fun other hne => if_neg hne⟩
      rw [← Option.some.inj heq]
      exact le_of_lt (lt_of_not_ge hlt)

/-- The reset time is sane exactly when what the error says is. -/
theorem resetTimes_exact (parseFromRfc3339 : List Char → Option DateTime) (error : List Char) (now : DateTime) :
    (Good now (extractRateLimitResetTime parseFromRfc3339 now error) ∧ PausesBriefly parseFromRfc3339 error now) ↔
      SaneInput parseFromRfc3339 error now :=
  ⟨fun h => good_extract.mp h.1, fun h => ⟨good_extract.mpr h, pausesBriefly (good_extract.mpr h)⟩⟩

theorem behindEach_eq_nil {text : List Char} (h : behind "\"resetsAt\"" text = none) : behindEach text = [] := by
  rw [behindEach]
  split
  · rfl
  · rename_i hsome
    exact absurd (hsome.symm.trans h) (Option.some_ne_none _)

/-- The first second of 2026. -/
def newYear : DateTime := ⟨1767225600, 0, .inl (by decide)⟩

theorem retryAfter_panics :
    extractRateLimitResetTime (fun _ => none) newYear "Retry-After: 9000000000000".toList = none := by
  have hkey : behindEach "Retry-After: 9000000000000".toList = [] := behindEach_eq_nil (by decide)
  rw [extractRateLimitResetTime, extractRateLimitResetFromResetsAt, hkey]
  decide

end Claudear.Engine.ResetTimes
