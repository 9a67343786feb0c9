import Claudear.Core.WrittenTimes
import Claudear.DeployQa.Tips
import Claudear.Sql.Newest

/-!
# The newest tip of a track

One query orders the tips by the text of the publication time, or else the creation time;
the other by their epoch seconds. What `strftime('%s', …)` makes of a publication time is a
parameter.
-/

namespace Claudear.DeployQa

open Claudear.Core Claudear.Sql Claudear.Storage Claudear.Text

/-! ## Publication times -/

/-- A time as RFC 3339 writes it; without an offset it is in UTC, written `Z`. -/
structure Rfc3339 where
  wall : DateTime
  fraction : List Char := []
  /-- Whether it is negative, the hours and the minutes. -/
  offset : Option (Bool × Nat × Nat) := none
  whole : wall.timestamp = wall
  writable : wall.Writable

namespace Rfc3339

variable (p : Rfc3339)

def fractionText : List Char := if p.fraction = [] then [] else '.' :: p.fraction

def offsetText : List Char :=
  match p.offset with
  | none => ['Z']
  | some (negative, hours, minutes) => (if negative then '-' else '+') :: (decimal 2 hours ++ ':' :: decimal 2 minutes)

def text : String :=
  String.ofList (p.wall.dateText ++ 'T' :: (p.wall.timeText ++ (p.fractionText ++ p.offsetText)))

def offsetSeconds : Int :=
  match p.offset with
  | none => 0
  | some (negative, hours, minutes) => (if negative then -1 else 1) * (hours * 3600 + minutes * 60)

/-- The second, and what follows it: the leap second after it counts as one. -/
def instant : Int ×ₗ ℚ :=
  toLex (p.wall.secs - p.offsetSeconds,
    (if p.wall.nanos = 0 then 0 else 1) +
      (p.fraction.foldl (fun n c => 10 * n + (c.toNat - '0'.toNat)) 0 : Nat) / (10 ^ p.fraction.length : Nat))

/-- Whole seconds in UTC. -/
def Plain : Prop := p.fraction = [] ∧ p.offset = none ∧ p.wall.nanos = 0

end Rfc3339

/-! ## The queries -/

/-- The creation time, in whole seconds. -/
def createdTime (r : Nat × DeployQaTip) : DateTime := ⟨r.2.createdAt, 0, .inl (by decide)⟩

/-- `COALESCE(published_at, created_at)` -/
def writtenTime (r : Nat × DeployQaTip) : String := r.2.publishedAt.getD (createdTime r).datetime

/-- `CAST(COALESCE(strftime('%s', published_at), strftime('%s', created_at)) AS INTEGER)` -/
def epochTime (strftime : String → Option Int) (r : Nat × DeployQaTip) : Int :=
  (r.2.publishedAt.bind strftime).getD r.2.createdAt

def getLastSeenDeployQaTip (t : Tips) (track : String) : Option (Nat × DeployQaTip) :=
  (newestFirst writtenTime (t.select (·.2.track = track))).head?

def listDeployQaTips (strftime : String → Option Int) (t : Tips) (track : Option String) (limit : Nat) : List (Nat × DeployQaTip) :=
  (newestFirst (epochTime strftime) (t.select fun r => track.all (r.2.track = ·))).take limit

/-! ## One newest tip -/

/-- The instant of a tip, where `published` tells the publication times. -/
def instantOf (published : Nat → Option Rfc3339) (r : Nat × DeployQaTip) : Int ×ₗ ℚ :=
  ((published r.1).map Rfc3339.instant).getD (toLex (r.2.createdAt, 0))

structure SameNewest (strftime : String → Option Int) (t : Tips) (published : Nat → Option Rfc3339) (track : String) : Prop where
  listed : ∀ limit ≥ 1, (listDeployQaTips strftime t (some track) limit).head? = getLastSeenDeployQaTip t track
  among_all : ∀ limit ≥ t.rows.length,
    (listDeployQaTips strftime t none limit).find? (·.2.track = track) = getLastSeenDeployQaTip t track
  latest : ∀ w, getLastSeenDeployQaTip t track = some w →
    ∀ r ∈ t.rows, r.2.track = track → instantOf published r ≤ instantOf published w

variable {strftime : String → Option Int} {t : Tips} {published : Nat → Option Rfc3339} {track : String} {w r : Nat × DeployQaTip}

theorem row_eq_of_id (ha : w ∈ t.rows) (hb : r ∈ t.rows) (h : w.1 = r.1) : w = r := by
  have hw := (Table.find?_key t.sorted).mpr ha
  have hr := (Table.find?_key t.sorted).mpr hb
  rw [h, hr] at hw
  exact Prod.ext h (Prod.mk.inj (Option.some.inj hw)).2.symm

theorem mem_select_track : r ∈ t.select (·.2.track = track) ↔ r ∈ t.rows ∧ r.2.track = track := by
  rw [Table.select, List.mem_filter, decide_eq_true_eq]

theorem lastSeen_iff : getLastSeenDeployQaTip t track = some w ↔
    (w ∈ t.rows ∧ w.2.track = track) ∧ ∀ r ∈ t.rows, r.2.track = track → Later writtenTime w r := by
  rw [getLastSeenDeployQaTip, head?_newestFirst fun a ha b hb => row_eq_of_id (mem_select_track.mp ha).1 (mem_select_track.mp hb).1]
  simp only [mem_select_track, and_imp]

theorem listed_iff {limit : Nat} (h : 1 ≤ limit) : (listDeployQaTips strftime t (some track) limit).head? = some w ↔
    (w ∈ t.rows ∧ w.2.track = track) ∧ ∀ r ∈ t.rows, r.2.track = track → Later (epochTime strftime) w r := by
  rw [listDeployQaTips, List.head?_take, if_neg (by omega)]
  show (newestFirst (epochTime strftime) (t.select (·.2.track = track))).head? = some w ↔ _
  rw [head?_newestFirst fun a ha b hb => row_eq_of_id (mem_select_track.mp ha).1 (mem_select_track.mp hb).1]
  simp only [mem_select_track, and_imp]

theorem among_all_iff {limit : Nat} (h : t.rows.length ≤ limit) :
    (listDeployQaTips strftime t none limit).find? (·.2.track = track) = some w ↔
      (w ∈ t.rows ∧ w.2.track = track) ∧ ∀ r ∈ t.rows, r.2.track = track → Later (epochTime strftime) w r := by
  have hall : t.select (fun r => (none : Option String).all (r.2.track = ·)) = t.rows := List.filter_true t.rows
  have hlength : (newestFirst (epochTime strftime) t.rows).length ≤ limit := (List.length_insertionSort _ _).trans_le h
  rw [listDeployQaTips, hall, List.take_of_length_le hlength, find?_newestFirst fun a ha b hb => row_eq_of_id ha hb]
  simp only [decide_eq_true_eq, and_assoc]

/-- The tip that is last by whole second and id is last by its text and id, and no instant is later. -/
def OneNewest (strftime : String → Option Int) (t : Tips) (published : Nat → Option Rfc3339) (track : String) : Prop :=
  ∀ w ∈ t.rows, w.2.track = track → (∀ r ∈ t.rows, r.2.track = track → Later (epochTime strftime) w r) →
    ∀ r ∈ t.rows, r.2.track = track → Later writtenTime w r ∧ instantOf published r ≤ instantOf published w

theorem exists_newest (hr : r ∈ t.rows) (htrack : r.2.track = track) :
    ∃ w, (w ∈ t.rows ∧ w.2.track = track) ∧ ∀ r ∈ t.rows, r.2.track = track → Later (epochTime strftime) w r := by
  cases hhead : (listDeployQaTips strftime t (some track) 1).head? with
  | some w => exact ⟨w, (listed_iff (Nat.le_refl 1)).mp hhead⟩
  | none =>
    rw [listDeployQaTips, List.head?_take, if_neg Nat.one_ne_zero, List.head?_eq_none_iff] at hhead
    have hmem : r ∈ newestFirst (epochTime strftime) (t.select (·.2.track = track)) :=
      mem_newestFirst.mpr (mem_select_track.mpr ⟨hr, htrack⟩)
    rw [show newestFirst (epochTime strftime) (t.select (·.2.track = track)) = [] from hhead] at hmem
    exact absurd hmem List.not_mem_nil

theorem sameNewest_iff : SameNewest strftime t published track ↔ OneNewest strftime t published track := by
  constructor
  · intro h w hw htrack hnewest r hr htrack'
    have hseen := (h.listed 1 (Nat.le_refl 1)).symm.trans ((listed_iff (Nat.le_refl 1)).mpr ⟨⟨hw, htrack⟩, hnewest⟩)
    exact ⟨(lastSeen_iff.mp hseen).2 r hr htrack', h.latest w hseen r hr htrack'⟩
  · intro h
    have hsame (w : Nat × DeployQaTip) :
        ((w ∈ t.rows ∧ w.2.track = track) ∧ ∀ r ∈ t.rows, r.2.track = track → Later (epochTime strftime) w r) ↔
          (w ∈ t.rows ∧ w.2.track = track) ∧ ∀ r ∈ t.rows, r.2.track = track → Later writtenTime w r := by
      refine and_congr_right fun hw => ⟨fun hnewest r hr ht => (h w hw.1 hw.2 hnewest r hr ht).1, fun hwritten => ?_⟩
      obtain ⟨w', hw', hnewest⟩ := exists_newest hw.1 hw.2
      have hlater := (h w' hw'.1 hw'.2 hnewest w hw.1 hw.2).1
      rwa [row_eq_of_id hw.1 hw'.1 (id_eq_of_later (hwritten w' hw'.1 hw'.2) hlater)]
    refine ⟨fun limit hlimit => Option.ext fun w => ?_, fun limit hlimit => Option.ext fun w => ?_, fun w hseen r hr ht => ?_⟩
    · exact (listed_iff hlimit).trans ((hsame w).trans lastSeen_iff.symm)
    · exact (among_all_iff hlimit).trans ((hsame w).trans lastSeen_iff.symm)
    · obtain ⟨hw, hnewest⟩ := (hsame w).mpr (lastSeen_iff.mp hseen)
      exact (h w hw.1 hw.2 hnewest r hr ht).2

/-! ## Whole seconds in UTC -/

/-- The time of a tip, as far as it is written in whole seconds and UTC. -/
def timeOf (published : Nat → Option Rfc3339) (r : Nat × DeployQaTip) : DateTime :=
  ((published r.1).map Rfc3339.wall).getD (createdTime r)

/-- The column holds the publication times, and the creation times have four digits for the year. -/
structure Written (t : Tips) (published : Nat → Option Rfc3339) : Prop where
  publishedAt : ∀ r ∈ t.rows, r.2.publishedAt = (published r.1).map Rfc3339.text
  createdAt : ∀ r ∈ t.rows, (createdTime r).Writable

theorem Rfc3339.Plain.text_eq {p : Rfc3339} (h : p.Plain) : p.text = p.wall.rfc3339 := by
  obtain ⟨hfraction, hoffset, -⟩ := h
  rw [Rfc3339.text, Rfc3339.fractionText, if_pos hfraction, Rfc3339.offsetText, hoffset, DateTime.rfc3339_eq]
  rfl

theorem Rfc3339.Plain.instant_eq {p : Rfc3339} (h : p.Plain) : p.instant = toLex (p.wall.secs, 0) := by
  obtain ⟨hfraction, hoffset, hnanos⟩ := h
  rw [Rfc3339.instant, Rfc3339.offsetSeconds, hoffset, hfraction, if_pos hnanos]
  simp

theorem epochTime_eq (hwritten : Written t published) (hplain : ∀ r ∈ t.rows, ∀ p, published r.1 = some p → p.Plain)
    (hstrftime : ∀ time : DateTime, time.nanos = 0 → time.Writable → strftime time.rfc3339 = some time.secs)
    (hr : r ∈ t.rows) : epochTime strftime r = (timeOf published r).secs := by
  rw [epochTime, timeOf, hwritten.publishedAt r hr]
  cases hp : published r.1 with
  | none => rfl
  | some p =>
    have hplain := hplain r hr p hp
    simp only [Option.map_some, Option.bind_some, hplain.text_eq, hstrftime p.wall hplain.2.2 p.writable, Option.getD_some]

theorem instantOf_eq (hplain : ∀ r ∈ t.rows, ∀ p, published r.1 = some p → p.Plain) (hr : r ∈ t.rows) : instantOf published r = toLex ((timeOf published r).secs, 0) := by
  rw [instantOf, timeOf]
  cases hp : published r.1 with
  | none => rfl
  | some p => exact (hplain r hr p hp).instant_eq

theorem writtenTime_of_none (hwritten : Written t published) (hr : r ∈ t.rows) (hp : published r.1 = none) :
    writtenTime r = (timeOf published r).datetime := by
  rw [writtenTime, hwritten.publishedAt r hr, timeOf, hp]
  rfl

theorem writtenTime_of_some (hwritten : Written t published) (hplain : ∀ r ∈ t.rows, ∀ p, published r.1 = some p → p.Plain)
    (hr : r ∈ t.rows) {p : Rfc3339} (hp : published r.1 = some p) : writtenTime r = (timeOf published r).rfc3339 := by
  rw [writtenTime, hwritten.publishedAt r hr, timeOf, hp]
  exact (hplain r hr p hp).text_eq

/-- A time in whole seconds with a four-digit year. -/
theorem timeOf_spec (hwritten : Written t published) (hplain : ∀ r ∈ t.rows, ∀ p, published r.1 = some p → p.Plain)
    (hr : r ∈ t.rows) : (timeOf published r).timestamp = timeOf published r ∧ (timeOf published r).Writable ∧
      (timeOf published r).nanos = 0 := by
  rw [timeOf]
  cases hp : published r.1 with
  | none => exact ⟨rfl, hwritten.createdAt r hr, rfl⟩
  | some p => exact ⟨p.whole, p.writable, (hplain r hr p hp).2.2⟩

/-- Among the times in whole seconds, the text is only wrong about a publication on the day of a creation. -/
theorem later_written_iff (hwritten : Written t published) (hplain : ∀ r ∈ t.rows, ∀ p, published r.1 = some p → p.Plain)
    (hw : w ∈ t.rows) (hr : r ∈ t.rows) (hlater : Later (fun r => (timeOf published r).secs) w r) :
    Later writtenTime w r ↔
      (published w.1 = none → published r.1 ≠ none → (timeOf published r).day ≠ (timeOf published w).day) := by
  obtain ⟨hwhole, hwritable, hnanos⟩ := timeOf_spec hwritten hplain hw
  obtain ⟨hwhole', hwritable', hnanos'⟩ := timeOf_spec hwritten hplain hr
  have horder : timeOf published r < timeOf published w ∨ timeOf published w = timeOf published r ∧ r.1 ≤ w.1 := by
    rcases hlater with hlt | ⟨heq, hid⟩
    · exact .inl (DateTime.lt_iff.mpr (.inl hlt))
    · exact .inr ⟨DateTime.key_injective (congrArg toLex (Prod.ext heq (hnanos.trans hnanos'.symm))), hid⟩
  have hday : (timeOf published r).day ≤ (timeOf published w).day := by
    have hsecs : (timeOf published r).secs ≤ (timeOf published w).secs := by
      rcases hlater with hlt | ⟨heq, -⟩
      · exact le_of_lt hlt
      · exact le_of_eq heq.symm
    unfold DateTime.day
    omega
  cases hp : published w.1 with
  | none =>
    have htext := writtenTime_of_none hwritten hw hp
    cases hq : published r.1 with
    | none =>
      have htext' := writtenTime_of_none hwritten hr hq
      refine iff_of_true ?_ fun _ hne => absurd rfl hne
      rw [Later, htext, htext']
      exact horder.imp (DateTime.datetime_lt hwhole' hwhole hwritable' hwritable) fun h => ⟨congrArg DateTime.datetime h.1, h.2⟩
    | some q =>
      have htext' := writtenTime_of_some hwritten hplain hr hq
      rw [Later, htext, htext']
      constructor
      · intro h _ _ hsame
        have hlt := DateTime.datetime_lt_rfc3339 hwritable hwritable' (ge_of_eq hsame)
        rcases h with h | ⟨h, -⟩
        · exact lt_asymm hlt h
        · exact absurd hlt (h ▸ lt_irrefl _)
      · intro hne
        exact .inl (DateTime.rfc3339_lt_datetime hwritable' hwritable (lt_of_le_of_ne hday (hne rfl (Option.some_ne_none q))))
  | some p =>
    have htext := writtenTime_of_some hwritten hplain hw hp
    refine iff_of_true ?_ fun hnone => absurd hnone (Option.some_ne_none p)
    cases hq : published r.1 with
    | none =>
      have htext' := writtenTime_of_none hwritten hr hq
      rw [Later, htext, htext']
      exact .inl (DateTime.datetime_lt_rfc3339 hwritable' hwritable hday)
    | some q =>
      have htext' := writtenTime_of_some hwritten hplain hr hq
      rw [Later, htext, htext']
      exact horder.imp (fun h => (DateTime.rfc3339_lt_iff hwhole' hwhole hwritable' hwritable).mpr h)
        fun h => ⟨congrArg DateTime.rfc3339 h.1, h.2⟩

/-- A tip without a publication time that is the latest, and a publication on the day of its creation. -/
def Overtaken (t : Tips) (published : Nat → Option Rfc3339) (track : String) : Prop :=
  ∃ w ∈ t.rows, w.2.track = track ∧ published w.1 = none ∧
    (∀ r ∈ t.rows, r.2.track = track → Later (fun r => (timeOf published r).secs) w r) ∧
    ∃ r ∈ t.rows, r.2.track = track ∧ published r.1 ≠ none ∧ (timeOf published r).day = (timeOf published w).day

theorem oneNewest_iff (hwritten : Written t published) (hplain : ∀ r ∈ t.rows, ∀ p, published r.1 = some p → p.Plain)
    (hstrftime : ∀ time : DateTime, time.nanos = 0 → time.Writable → strftime time.rfc3339 = some time.secs) :
    OneNewest strftime t published track ↔ ¬ Overtaken t published track := by
  have hepoch {w r : Nat × DeployQaTip} (hw : w ∈ t.rows) (hr : r ∈ t.rows) :
      Later (epochTime strftime) w r ↔ Later (fun r => (timeOf published r).secs) w r := by
    rw [Later, Later, epochTime_eq hwritten hplain hstrftime hw, epochTime_eq hwritten hplain hstrftime hr]
  constructor
  · rintro h ⟨w, hw, htrack, hnone, hnewest, r, hr, htrack', hsome, hsame⟩
    have hlater := (h w hw htrack (fun r hr ht => (hepoch hw hr).mpr (hnewest r hr ht)) r hr htrack').1
    exact (later_written_iff hwritten hplain hw hr (hnewest r hr htrack')).mp hlater hnone hsome hsame
  · intro h w hw htrack hnewest r hr htrack'
    have hsecs := (hepoch hw hr).mp (hnewest r hr htrack')
    constructor
    · refine (later_written_iff hwritten hplain hw hr hsecs).mpr fun hnone hsome hsame => h ?_
      exact ⟨w, hw, htrack, hnone, fun x hx ht => (hepoch hw hx).mp (hnewest x hx ht), r, hr, htrack', hsome, hsame⟩
    · rw [instantOf_eq hplain hr, instantOf_eq hplain hw, Prod.Lex.toLex_le_toLex]
      exact hsecs.imp_right fun heq => ⟨heq.1.symm, le_refl 0⟩

/-- With publication times in whole seconds and UTC, the newest tip is the same everywhere exactly when
none overtakes a later one; in general, when one tip is last by second, by text and by instant. -/
theorem newestTip_exact (strftime : String → Option Int) (t : Tips) (published : Nat → Option Rfc3339) (track : String)
    (hwritten : Written t published) :
    ((∀ r ∈ t.rows, ∀ p, published r.1 = some p → p.Plain) →
        (∀ time : DateTime, time.nanos = 0 → time.Writable → strftime time.rfc3339 = some time.secs) →
        (SameNewest strftime t published track ↔ ¬ Overtaken t published track)) ∧
      (SameNewest strftime t published track ↔ OneNewest strftime t published track) :=
  ⟨fun hplain hstrftime => sameNewest_iff.trans (oneNewest_iff hwritten hplain hstrftime), sameNewest_iff⟩

/-- Reads the whole seconds in UTC. -/
noncomputable def secondsOf (text : String) : Option Int :=
  open Classical in
  if h : ∃ time : DateTime, time.nanos = 0 ∧ time.Writable ∧ time.rfc3339 = text then some h.choose.secs else none

theorem timestamp_of_nanos {time : DateTime} (h : time.nanos = 0) : time.timestamp = time := by
  refine DateTime.key_injective (congrArg (fun n => toLex (time.secs, n)) ?_)
  show (if time.nanos < 1000000000 then 0 else 1000000000) = time.nanos
  rw [h, if_pos (by decide)]

theorem secondsOf_rfc3339 (time : DateTime) (hnanos : time.nanos = 0) (hwritable : time.Writable) :
    secondsOf time.rfc3339 = some time.secs := by
  have h : ∃ other : DateTime, other.nanos = 0 ∧ other.Writable ∧ other.rfc3339 = time.rfc3339 := ⟨time, hnanos, hwritable, rfl⟩
  obtain ⟨hnanos', hwritable', htext⟩ := h.choose_spec
  have heq := (DateTime.rfc3339_inj (timestamp_of_nanos hnanos') (timestamp_of_nanos hnanos) hwritable' hwritable).mp htext
  rw [secondsOf, dif_pos h, heq]

/-- Ten o'clock on 2 January 2026. -/
def tenOClock : Rfc3339 where
  wall := ⟨1767348000, 0, .inl (by decide)⟩
  whole := rfl
  writable := ⟨by decide, by decide⟩

def publishedTip : DeployQaTip where
  track := "main"
  repo := "acme/app"
  tag := "v1.0.0"
  issueId := "main:acme/app:v1.0.0"
  publishedAt := some "2026-01-02T10:00:00Z"
  htmlUrl := none
  authorLogin := none
  status := .pending
  attemptId := none
  discordMessageId := none
  discordThreadId := none
  releaseBody := none
  createdAt := 1767348060
  updatedAt := 1767348060

/-- Without a publication time, created at three in the afternoon. -/
def laterTip : DeployQaTip where
  __ := publishedTip
  tag := "v1.0.1"
  issueId := "main:acme/app:v1.0.1"
  publishedAt := none
  createdAt := 1767366000
  updatedAt := 1767366000

/-- Created at the same time of the next day. -/
def nextDayTip : DeployQaTip where
  __ := laterTip
  tag := "v1.0.2"
  issueId := "main:acme/app:v1.0.2"
  createdAt := 1767452400
  updatedAt := 1767452400

def twoTips : Tips := ⟨[(1, publishedTip), (2, laterTip)], 3, by decide, by decide⟩

def dayApart : Tips := ⟨[(1, publishedTip), (2, nextDayTip)], 3, by decide, by decide⟩

def publishedFirst : Nat → Option Rfc3339
  | 1 => some tenOClock
  | _ => none

theorem newestTip_exact_dayApart : SameNewest secondsOf dayApart publishedFirst "main" := by
  have hwritten : Written dayApart publishedFirst := by
    constructor
    · intro r hr
      rcases List.mem_pair.mp hr with rfl | rfl <;> decide
    · intro r hr
      rcases List.mem_pair.mp hr with rfl | rfl <;> exact ⟨by decide, by decide⟩
  refine ((newestTip_exact secondsOf dayApart publishedFirst "main" hwritten).1 (fun r hr p hp => ?_)
    secondsOf_rfc3339).mpr ?_
  · rcases List.mem_pair.mp hr with rfl | rfl
    · obtain rfl := Option.some.inj hp
      exact ⟨rfl, rfl, rfl⟩
    · cases hp
  · rintro ⟨w, hw, -, hnone, -, r, hr, -, hsome, hday⟩
    rcases List.mem_pair.mp hw with rfl | rfl
    · cases hnone
    · rcases List.mem_pair.mp hr with rfl | rfl
      · exact absurd hday (by decide)
      · exact hsome rfl

theorem laterTip_overtaken : ¬ SameNewest (fun _ => some 1767348000) twoTips publishedFirst "main" :=
  fun h => absurd (h.listed 1 (Nat.le_refl 1)) (by decide)

end Claudear.DeployQa
