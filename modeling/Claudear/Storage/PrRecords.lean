import Claudear.Machine.Run
import Claudear.Sql.Table
import Claudear.Storage.Error
import Mathlib.Algebra.Order.Ring.Int

/-!
# PR records and their review cycles

`prs` has one row per PR. `charge_pr_review_cycle` counts a review-driven rerun
below a cap, `refund_pr_review_cycle` gives one back, and `upsert_pr` rewrites
everything else about a PR: an existing row keeps its count, a row that an
upsert inserts starts with the count its record carries.
-/

namespace Claudear.Storage

open Claudear.Sql Claudear.Machine

/-- The columns of `prs` a record carries, but for the count. -/
structure PrInfo where
  prUrl : String
  scmRepo : String
  prNumber : Int
  attemptId : Option Nat := none
  issueId : Option String := none
  issueSource : Option String := none
  title : Option String := none
  description : Option String := none
  author : Option String := none
  headBranch : Option String := none
  baseBranch : Option String := none
  status : String := "open"
  createdAt : Timestamp
  updatedAt : Option Timestamp := none
  mergedAt : Option Timestamp := none
  closedAt : Option Timestamp := none
  approvalsCount : Int := 0
  changesRequestedCount : Int := 0
  commentsCount : Int := 0
  lastReviewAt : Option Timestamp := none
  timeToFirstReviewMins : Option Int := none
  timeToMergeMins : Option Int := none
  filesChanged : Option Int := none
  linesAdded : Option Int := none
  linesRemoved : Option Int := none
  deriving DecidableEq, Repr

structure PrRecord extends PrInfo where
  reviewCycles : Int
  deriving DecidableEq, Repr

structure PrRow extends PrInfo where
  reviewCycles : Option Int := some 0
  deriving DecidableEq, Repr

/-- `ON CONFLICT(pr_url) DO UPDATE SET …` -/
def PrInfo.merge (now : Timestamp) (excluded prs : PrInfo) : PrInfo where
  prUrl := prs.prUrl
  scmRepo := excluded.scmRepo
  prNumber := excluded.prNumber
  attemptId := excluded.attemptId.or prs.attemptId
  issueId := excluded.issueId.or prs.issueId
  issueSource := excluded.issueSource.or prs.issueSource
  title := excluded.title.or prs.title
  description := excluded.description.or prs.description
  author := excluded.author.or prs.author
  headBranch := excluded.headBranch.or prs.headBranch
  baseBranch := excluded.baseBranch.or prs.baseBranch
  status := excluded.status
  createdAt := prs.createdAt
  updatedAt := some now
  mergedAt := excluded.mergedAt.or prs.mergedAt
  closedAt := excluded.closedAt.or prs.closedAt
  approvalsCount := excluded.approvalsCount
  changesRequestedCount := excluded.changesRequestedCount
  commentsCount := excluded.commentsCount
  lastReviewAt := excluded.lastReviewAt.or prs.lastReviewAt
  timeToFirstReviewMins := excluded.timeToFirstReviewMins.or prs.timeToFirstReviewMins
  timeToMergeMins := excluded.timeToMergeMins.or prs.timeToMergeMins
  filesChanged := excluded.filesChanged.or prs.filesChanged
  linesAdded := excluded.linesAdded.or prs.linesAdded
  linesRemoved := excluded.linesRemoved.or prs.linesRemoved

namespace PrRow

def ofRecord (pr : PrRecord) : PrRow := { pr.toPrInfo with reviewCycles := some pr.reviewCycles }

/-- The row a charge inserts: the record's URL, repository, number, links, status and creation
time. -/
def uncharged (pr : PrRecord) : PrRow where
  prUrl := pr.prUrl
  scmRepo := pr.scmRepo
  prNumber := pr.prNumber
  attemptId := pr.attemptId
  issueId := pr.issueId
  issueSource := pr.issueSource
  status := pr.status
  createdAt := pr.createdAt

def rewrite (now : Timestamp) (pr : PrRecord) (r : PrRow) : PrRow :=
  { pr.toPrInfo.merge now r.toPrInfo with reviewCycles := r.reviewCycles }

/-- `COALESCE(review_cycles, 0)` -/
def cycles (r : PrRow) : Int := r.reviewCycles.getD 0

def charge (now : Timestamp) (r : PrRow) : PrRow :=
  { r with reviewCycles := some (r.cycles + 1), lastReviewAt := some now, updatedAt := some now }

@[simp] theorem charge_cycles (now : Timestamp) (r : PrRow) : (r.charge now).cycles = r.cycles + 1 := rfl

def refund (now : Timestamp) (r : PrRow) : PrRow :=
  { r with reviewCycles := r.reviewCycles.map (· - 1), updatedAt := some now }

end PrRow

abbrev Prs := Table PrRow

namespace Prs

/-- `pr_url = ?` -/
def ofUrl (prUrl : String) (r : Nat × PrRow) : Bool := r.2.prUrl = prUrl

/-- The `INSERT`; `attempts` are the keys of `fix_attempts`. -/
def insertRow (t : Prs) (attempts : List Nat) (row : PrRow) : Except Error Prs :=
  if row.attemptId.all (· ∈ attempts) then .ok (t.insert row)
  else .error (.database "FOREIGN KEY constraint failed")

def upsertPr (t : Prs) (attempts : List Nat) (now : Timestamp) (pr : PrRecord) : Except Error Prs :=
  match t.first (ofUrl pr.prUrl) with
  | none => t.insertRow attempts (.ofRecord pr)
  | some _ =>
    if pr.attemptId.all (· ∈ attempts) then .ok (t.update (ofUrl pr.prUrl) (·.rewrite now pr)).skip
    else .error (.database "FOREIGN KEY constraint failed")

/-- `pr_url = ? AND COALESCE(review_cycles, 0) < ?` -/
def chargeable (prUrl : String) (cap : Int) (r : Nat × PrRow) : Bool :=
  ofUrl prUrl r && decide (r.2.cycles < cap)

/-- `ON CONFLICT(pr_url) DO NOTHING` -/
def insertIfAbsent (t : Prs) (attempts : List Nat) (pr : PrRecord) : Except Error Prs :=
  match t.first (ofUrl pr.prUrl) with
  | none => t.insertRow attempts (.uncharged pr)
  | some _ => .ok t.skip

/-- Both statements run in one transaction. -/
def chargePrReviewCycle (t : Prs) (attempts : List Nat) (now : Timestamp) (pr : PrRecord) (cap : Int) :
    Except Error (Bool × Prs) := do
  let t ← t.insertIfAbsent attempts pr
  return (decide (0 < t.count (chargeable pr.prUrl cap)),
    t.update (chargeable pr.prUrl cap) (·.charge now))

/-- `pr_url = ? AND review_cycles > 0` -/
def refundable (prUrl : String) (r : Nat × PrRow) : Bool :=
  ofUrl prUrl r && r.2.reviewCycles.any (0 < ·)

def refundPrReviewCycle (t : Prs) (now : Timestamp) (prUrl : String) : Prs :=
  t.update (refundable prUrl) (·.refund now)

/-- The count `get_pr` reports, 0 for a PR without a record. -/
def cycles (t : Prs) (prUrl : String) : Int := (t.first (ofUrl prUrl)).elim 0 (·.2.cycles)

/-! ## Calls -/

inductive PrOp where
  | upsert (attempts : List Nat) (now : Timestamp) (pr : PrRecord)
  | charge (attempts : List Nat) (now : Timestamp) (pr : PrRecord) (cap : Int)
  | refund (now : Timestamp) (prUrl : String)
  deriving DecidableEq, Repr

/-- The table after a call; a call that fails leaves it as it is. -/
def exec (t : Prs) : PrOp → Prs
  | .upsert attempts now pr =>
    match t.upsertPr attempts now pr with
    | .ok t' => t'
    | .error _ => t
  | .charge attempts now pr cap =>
    match t.chargePrReviewCycle attempts now pr cap with
    | .ok (_, t') => t'
    | .error _ => t
  | .refund now prUrl => t.refundPrReviewCycle now prUrl

section Accounts

variable (url : String) (t : Prs)

/-- The count a call starts the PR's record with. -/
def opened : PrOp → Int
  | .upsert attempts now pr =>
    if pr.prUrl = url ∧ (t.first (ofUrl url)).isNone ∧ (t.upsertPr attempts now pr).isOk then
      pr.reviewCycles
    else 0
  | _ => 0

/-- 1 for a charge of the PR that reports success. -/
def charged : PrOp → Int
  | .charge attempts now pr cap =>
    if pr.prUrl = url ∧ (t.chargePrReviewCycle attempts now pr cap).toOption.any (·.1) then 1 else 0
  | _ => 0

/-- 1 for a refund of the PR that takes effect. -/
def refunded : PrOp → Int
  | .refund _ prUrl => if prUrl = url ∧ t.any (refundable url) then 1 else 0
  | _ => 0

end Accounts

/-! ## One call -/

/-- `pr_url TEXT NOT NULL UNIQUE` -/
abbrev UniqueUrl (t : Prs) : Prop := Table.Unique (fun r : PrRow => some r.prUrl) t

variable {t : Prs} {url : String}

theorem ofUrl_iff {r : Nat × PrRow} : ofUrl url r = true ↔ r.2.prUrl = url := by
  simp [ofUrl]

/-- A PR's rows are its one row. -/
theorem any_iff_first (hu : UniqueUrl t) {p : Nat × PrRow → Bool} :
    (∃ i r, t.get i = some r ∧ (ofUrl url (i, r) && p (i, r)) = true) ↔
      ∃ r, t.first (ofUrl url) = some r ∧ p r = true := by
  constructor
  · rintro ⟨i, r, hi, hr⟩
    obtain ⟨ho, hp⟩ := Bool.and_eq_true_iff.mp hr
    obtain ⟨⟨j, q⟩, hf⟩ := Table.exists_first hi ho
    obtain ⟨hj, hq⟩ := Table.first_get hf
    obtain rfl : i = j := hu hi hj rfl (congrArg some ((ofUrl_iff.mp hq).trans (ofUrl_iff.mp ho).symm))
    obtain rfl : r = q := Option.some.inj (hi.symm.trans hj)
    exact ⟨_, hf, hp⟩
  · rintro ⟨⟨i, r⟩, hf, hp⟩
    obtain ⟨hi, ho⟩ := Table.first_get hf
    exact ⟨i, r, hi, Bool.and_eq_true_iff.mpr ⟨ho, hp⟩⟩

/-- The record of a PR after an `UPDATE`. -/
theorem first_ofUrl_update {p : Nat × PrRow → Bool} {f : PrRow → PrRow} (hf : ∀ r, (f r).prUrl = r.prUrl) :
    (t.update p f).first (ofUrl url) = (t.first (ofUrl url)).map (Table.setWhere p f) := by
  refine Table.first_update fun r => ?_
  simp only [ofUrl, Table.setWhere]
  split <;> simp [hf]

theorem cycles_update {p : Nat × PrRow → Bool} {f : PrRow → PrRow} (hf : ∀ r, (f r).prUrl = r.prUrl) :
    cycles (t.update p f) url =
      (t.first (ofUrl url)).elim 0 fun r => if p r then (f r.2).cycles else r.2.cycles := by
  rw [cycles, first_ofUrl_update hf]
  cases t.first (ofUrl url) with
  | none => rfl
  | some r =>
    simp only [Option.map_some, Option.elim_some, Table.setWhere]
    split <;> rfl

/-- A statement that does not count. -/
theorem cycles_update_eq {p : Nat × PrRow → Bool} {f : PrRow → PrRow} (hf : ∀ r, (f r).prUrl = r.prUrl)
    (hc : ∀ r, ofUrl url r = true → p r = true → (f r.2).cycles = r.2.cycles) :
    cycles (t.update p f) url = t.cycles url := by
  rw [cycles_update hf, cycles]
  cases h : t.first (ofUrl url) with
  | none => rfl
  | some r =>
    simp only [Option.elim_some]
    split
    · rename_i hp
      exact hc r (Table.first_get (i := r.1) (c := r.2) h).2 hp
    · rfl

/-- The record of a PR after an `INSERT`. -/
theorem cycles_insert (row : PrRow) (h : t.first (ofUrl row.prUrl) = none) :
    cycles (t.insert row) url = if row.prUrl = url then row.cycles else t.cycles url := by
  rw [cycles, Table.first_insert]
  by_cases hurl : row.prUrl = url
  · subst hurl
    simp [h, ofUrl]
  · simp [ofUrl, hurl, cycles]

theorem insert_unique (hu : UniqueUrl t) {row : PrRow} (h : t.first (ofUrl row.prUrl) = none) :
    UniqueUrl (t.insert row) := by
  refine hu.insert fun k hk i r hi hr => ?_
  have hno := Table.first_eq_none.mp h i r hi
  rw [ofUrl_iff.mpr (Option.some.inj (hr.trans hk.symm))] at hno
  cases hno

/-- A record that a charge inserts starts from 0. -/
theorem insertIfAbsent_ok (hu : UniqueUrl t) {attempts : List Nat} {pr : PrRecord} {t' : Prs}
    (h : t.insertIfAbsent attempts pr = .ok t') :
    UniqueUrl t' ∧ ∀ url, cycles t' url = cycles t url := by
  unfold insertIfAbsent at h
  split at h
  · rename_i hn
    unfold insertRow at h
    split at h
    · obtain rfl := Except.ok.inj h
      refine ⟨insert_unique hu hn, fun url => ?_⟩
      rw [cycles_insert _ hn]
      split
      · rename_i hurl
        subst hurl
        rw [cycles, show (PrRow.uncharged pr).prUrl = pr.prUrl from rfl, hn]
        rfl
      · rfl
    · cases h
  · obtain rfl := Except.ok.inj h
    exact ⟨hu, fun _ => rfl⟩

theorem not_ofUrl {prUrl : String} (h : prUrl ≠ url) {r : Nat × PrRow} (hr : ofUrl url r = true) :
    ofUrl prUrl r = false := by
  rw [ofUrl_iff] at hr
  simp [ofUrl, hr, Ne.symm h]

/-- The charge of a row below the cap. -/
theorem cycles_charge (hu : UniqueUrl t) (now : Timestamp) (prUrl : String) (cap : Int) :
    cycles (t.update (chargeable prUrl cap) (·.charge now)) url =
      cycles t url + if prUrl = url ∧ 0 < t.count (chargeable prUrl cap) then 1 else 0 := by
  by_cases hurl : prUrl = url
  · subst hurl
    have hcount : 0 < t.count (chargeable prUrl cap) ↔
        ∃ r, t.first (ofUrl prUrl) = some r ∧ decide (r.2.cycles < cap) = true :=
      Table.count_pos.trans (any_iff_first (p := fun r => decide (r.2.cycles < cap)) hu)
    rw [cycles_update (f := (·.charge now)) fun _ => rfl, cycles]
    simp only [hcount, true_and]
    cases hf : t.first (ofUrl prUrl) with
    | none => simp
    | some r =>
      have ho : ofUrl prUrl r = true := (Table.first_get (i := r.1) (c := r.2) hf).2
      by_cases hlt : r.2.cycles < cap
      · simp [chargeable, ho, hlt]
      · simp [chargeable, hlt]
  · rw [cycles_update_eq (f := (·.charge now)) fun _ => rfl, if_neg fun h => hurl h.1, Int.add_zero]
    intro r hr hp
    rw [chargeable, not_ofUrl hurl hr] at hp
    cases hp

/-- The refund of a row above 0. -/
theorem cycles_refund (hu : UniqueUrl t) (now : Timestamp) (prUrl : String) :
    cycles (t.refundPrReviewCycle now prUrl) url =
      cycles t url - if prUrl = url ∧ t.any (refundable prUrl) then 1 else 0 := by
  rw [refundPrReviewCycle]
  by_cases hurl : prUrl = url
  · subst hurl
    have hany : t.any (refundable prUrl) = true ↔
        ∃ r, t.first (ofUrl prUrl) = some r ∧ r.2.reviewCycles.any (fun n => decide (0 < n)) = true :=
      Table.any_eq_true.trans (any_iff_first (p := fun r => r.2.reviewCycles.any fun n => decide (0 < n)) hu)
    rw [cycles_update (f := (·.refund now)) fun _ => rfl, cycles]
    simp only [hany, true_and]
    cases hf : t.first (ofUrl prUrl) with
    | none => simp
    | some r =>
      have ho : ofUrl prUrl r = true := (Table.first_get (i := r.1) (c := r.2) hf).2
      cases hc : r.2.reviewCycles with
      | none => simp [refundable, hc]
      | some n =>
        by_cases hpos : 0 < n
        · simp [refundable, ho, hc, hpos, PrRow.refund, PrRow.cycles]
        · simp [refundable, hc, hpos]
  · rw [cycles_update_eq (f := (·.refund now)) fun _ => rfl, if_neg fun h => hurl h.1, Int.sub_zero]
    intro r hr hp
    rw [refundable, not_ofUrl hurl hr] at hp
    cases hp

theorem cycles_upsert (url : String) (hu : UniqueUrl t) (attempts : List Nat) (now : Timestamp) (pr : PrRecord) :
    UniqueUrl (exec t (.upsert attempts now pr)) ∧
      cycles (exec t (.upsert attempts now pr)) url =
        cycles t url + opened url t (.upsert attempts now pr) := by
  simp only [exec, opened]
  generalize hres : t.upsertPr attempts now pr = res
  unfold upsertPr at hres
  split at hres
  · rename_i hn
    unfold insertRow at hres
    split at hres <;> subst hres
    · refine ⟨insert_unique hu hn, ?_⟩
      have hrow : (PrRow.ofRecord pr).prUrl = pr.prUrl := rfl
      simp only [cycles_insert (.ofRecord pr) hn, hrow, Except.isOk, Except.toBool, and_true]
      by_cases hurl : pr.prUrl = url
      · subst hurl
        rw [if_pos rfl, cycles, hn]
        simp [PrRow.ofRecord, PrRow.cycles]
      · rw [if_neg hurl, if_neg fun h => hurl h.1, Int.add_zero]
    · exact ⟨hu, by simp [Except.isOk, Except.toBool]⟩
  · rename_i r hr
    have hno : ¬ (pr.prUrl = url ∧ (t.first (ofUrl url)).isNone = true ∧ res.isOk = true) := by
      rintro ⟨rfl, hn, -⟩
      rw [hr] at hn
      cases hn
    rw [if_neg hno, Int.add_zero]
    split at hres <;> subst hres
    · exact ⟨hu.update fun _ _ h => h, cycles_update_eq (fun _ => rfl) fun _ _ _ => rfl⟩
    · exact ⟨hu, rfl⟩

/-- The transaction of a charge: a record without a count is there, and the charge is on it. -/
theorem charge_ok (hu : UniqueUrl t) {attempts : List Nat} {now : Timestamp} {pr : PrRecord} {cap : Int}
    {b : Bool} {t' : Prs} (h : t.chargePrReviewCycle attempts now pr cap = .ok (b, t')) :
    UniqueUrl t' ∧
      ∀ url, cycles t' url = cycles t url + if pr.prUrl = url ∧ b = true then 1 else 0 := by
  unfold chargePrReviewCycle at h
  cases hins : t.insertIfAbsent attempts pr with
  | error e =>
    rw [hins] at h
    cases h
  | ok t₁ =>
    rw [hins] at h
    obtain ⟨hu₁, hc₁⟩ := insertIfAbsent_ok hu hins
    obtain ⟨rfl, rfl⟩ := Prod.mk.inj (Except.ok.inj h)
    refine ⟨hu₁.update fun _ _ h => h, fun url => ?_⟩
    rw [cycles_charge hu₁, hc₁]
    simp

/-- What one call does to the count of a PR. -/
theorem cycles_exec (url : String) (hu : UniqueUrl t) (op : PrOp) :
    UniqueUrl (exec t op) ∧
      cycles (exec t op) url =
        cycles t url + (opened url t op + charged url t op - refunded url t op) := by
  cases op with
  | upsert attempts now pr =>
    obtain ⟨hu', hc⟩ := cycles_upsert url hu attempts now pr
    refine ⟨hu', ?_⟩
    rw [hc]
    simp only [charged, refunded]
    omega
  | charge attempts now pr cap =>
    simp only [exec, opened, charged, refunded]
    cases hres : t.chargePrReviewCycle attempts now pr cap with
    | error e => simp [Except.toOption, hu]
    | ok res =>
      obtain ⟨b, t'⟩ := res
      obtain ⟨hu', hc⟩ := charge_ok hu hres
      refine ⟨hu', ?_⟩
      rw [hc url]
      by_cases hb : pr.prUrl = url ∧ b = true <;> simp [hb, Except.toOption]
  | refund now prUrl =>
    refine ⟨hu.update fun _ _ h => h, ?_⟩
    simp only [exec, opened, charged, refunded]
    rw [cycles_refund hu]
    by_cases hurl : prUrl = url
    · subst hurl
      omega
    · simp [hurl]

/-- A refund that takes effect finds a count above 0. -/
theorem refunded_le (hu : UniqueUrl t) (h0 : 0 ≤ cycles t url) (op : PrOp) :
    0 ≤ refunded url t op ∧ refunded url t op ≤ cycles t url := by
  cases op with
  | refund now prUrl =>
    simp only [refunded]
    split
    · rename_i h
      obtain ⟨rfl, hany⟩ := h
      obtain ⟨r, hf, hp⟩ := (any_iff_first (p := fun r => r.2.reviewCycles.any fun n => decide (0 < n))
        hu).mp (Table.any_eq_true.mp hany)
      refine ⟨by omega, ?_⟩
      rw [cycles, hf, Option.elim_some, PrRow.cycles]
      cases hc : r.2.reviewCycles with
      | none => simp [hc] at hp
      | some n =>
        have hpos : 0 < n := by simpa [hc] using hp
        rw [Option.getD_some]
        omega
    · exact ⟨by omega, h0⟩
  | _ => exact ⟨Int.le_refl _, h0⟩

/-! ## The budget -/

/-- Charges of the PR go to `cap`, and an upsert that starts its record starts it within. -/
def Budgeted (url : String) (cap : Int) (t : Prs) : PrOp → Prop
  | .upsert _ _ pr => pr.prUrl = url → t.first (ofUrl url) = none →
    0 ≤ pr.reviewCycles ∧ pr.reviewCycles ≤ cap
  | .charge _ _ pr cap' => pr.prUrl = url → cap' = cap
  | .refund _ _ => True

def Within (url : String) (cap : Int) (t : Prs) : Prop := 0 ≤ cycles t url ∧ cycles t url ≤ cap

theorem opened_within {cap : Int} {op : PrOp} (hb : Budgeted url cap t op) :
    opened url t op = 0 ∨ cycles t url = 0 ∧ 0 ≤ opened url t op ∧ opened url t op ≤ cap := by
  cases op with
  | upsert attempts now pr =>
    simp only [opened]
    split
    · rename_i h
      obtain ⟨rfl, hn, -⟩ := h
      rw [Option.isNone_iff_eq_none] at hn
      exact .inr ⟨by rw [cycles, hn]; rfl, hb rfl hn⟩
    · exact .inl rfl
  | _ => exact .inl rfl

/-- A charge that reports success finds a count below the cap. -/
theorem charged_within (hu : UniqueUrl t) {cap : Int} {op : PrOp} (hb : Budgeted url cap t op) :
    charged url t op = 0 ∨ charged url t op = 1 ∧ cycles t url < cap := by
  cases op with
  | charge attempts now pr cap' =>
    simp only [charged]
    split
    · rename_i h
      obtain ⟨rfl, hany⟩ := h
      refine .inr ⟨rfl, ?_⟩
      obtain rfl := hb rfl
      unfold chargePrReviewCycle at hany
      cases hins : t.insertIfAbsent attempts pr with
      | error e =>
        rw [hins] at hany
        cases hany
      | ok t₁ =>
        rw [hins] at hany
        obtain ⟨hu₁, hc₁⟩ := insertIfAbsent_ok hu hins
        have hcount : 0 < t₁.count (chargeable pr.prUrl cap') := of_decide_eq_true hany
        obtain ⟨r, hf, hp⟩ := (any_iff_first (p := fun r => decide (r.2.cycles < cap')) hu₁).mp
          (Table.count_pos.mp hcount)
        rw [← hc₁, cycles, hf]
        exact of_decide_eq_true hp
    · exact .inl rfl
  | _ => exact .inl rfl

theorem Within.exec {cap : Int} (hu : UniqueUrl t) (h : Within url cap t) {op : PrOp}
    (hb : Budgeted url cap t op) : Within url cap (exec t op) := by
  obtain ⟨h0, hle⟩ := h
  have hstep := (cycles_exec url hu op).2
  have ho := opened_within hb
  have hc := charged_within hu hb
  have hr := refunded_le hu h0 op
  -- a call opens, charges or refunds, and never two of these
  have hone : opened url t op = 0 ∧ charged url t op = 0 ∨ refunded url t op = 0 ∧
      (opened url t op = 0 ∨ charged url t op = 0) := by
    cases op with
    | upsert => exact .inr ⟨rfl, .inr rfl⟩
    | charge => exact .inr ⟨rfl, .inl rfl⟩
    | refund => exact .inl ⟨rfl, rfl⟩
  unfold Within
  omega

theorem total_delta (t : Prs) (l : List PrOp) :
    total exec (fun t op => opened url t op + charged url t op - refunded url t op) t l =
      total exec (opened url) t l + total exec (charged url) t l - total exec (refunded url) t l := by
  induction l generalizing t with
  | nil => rfl
  | cons op l ih =>
    simp only [total, ih]
    omega

/-- From any table and in any order of calls, the count of a PR is the count its record started
with, plus the charges that reported success, minus the refunds that took effect; and it stays
within the cap of the charges if the start is. -/
theorem review_cycles_accounted (url : String) (t : Prs) (hu : UniqueUrl t) (l : List PrOp) :
    cycles (run exec t l) url = cycles t url + total exec (opened url) t l +
        total exec (charged url) t l - total exec (refunded url) t l ∧
      ∀ cap, Within url cap t → Along exec (Budgeted url cap) t l → Always exec (Within url cap) t l := by
  constructor
  · have hrun := run_total (g := fun t => cycles t url) (I := UniqueUrl)
      (fun _ op h => (cycles_exec url h op).1) (fun _ op h => (cycles_exec url h op).2) hu l
    rw [total_delta] at hrun
    omega
  · intro cap h0 hb
    rw [always_iff_run]
    rintro pre ⟨rest, rfl⟩
    refine ((along_append.mp hb).1.inv (P := fun t => UniqueUrl t ∧ Within url cap t) ?_ ⟨hu, h0⟩).2
    intro t op h hop
    exact ⟨(cycles_exec url h.1 op).1, Within.exec h.1 h.2 hop⟩

/-- A review record read before the PR had one. -/
def reviewed (reviewCycles : Int) : PrRecord where
  prUrl := "https://github.com/org/app/pull/1"
  scmRepo := "org/app"
  prNumber := 1
  createdAt := 0
  reviewCycles := reviewCycles

theorem review_cycles_accounted_two :
    cycles (run exec Table.empty
        [.charge [] 1 (reviewed 0) 1, .charge [] 2 (reviewed 0) 1, .upsert [] 3 (reviewed 9),
          .refund 4 "https://github.com/org/app/pull/1"]) "https://github.com/org/app/pull/1" =
        0 + 0 + 1 - 1 ∧
      Always exec (Within "https://github.com/org/app/pull/1" 1) Table.empty
        [.charge [] 1 (reviewed 0) 1, .charge [] 2 (reviewed 0) 1, .upsert [] 3 (reviewed 9),
          .refund 4 "https://github.com/org/app/pull/1"] :=
  (review_cycles_accounted _ Table.empty Table.unique_empty _).imp id fun h =>
    h 1 ⟨by decide, by decide⟩
      ⟨fun _ => rfl, fun _ => rfl, fun _ hn => absurd hn (by decide), trivial, trivial⟩

/-- The count a record is inserted with is no charge, and may be above the cap. -/
theorem inserted_count_uncharged :
    cycles (run exec Table.empty [.upsert [] 0 (reviewed 5)]) "https://github.com/org/app/pull/1" = 5 ∧
      total exec (charged "https://github.com/org/app/pull/1") Table.empty
        [.upsert [] 0 (reviewed 5)] = 0 ∧
      ¬ Within "https://github.com/org/app/pull/1" 3 (run exec Table.empty [.upsert [] 0 (reviewed 5)]) := by
  refine ⟨by decide, by decide, ?_⟩
  unfold Within
  decide

end Prs

end Claudear.Storage
