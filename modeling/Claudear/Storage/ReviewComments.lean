import Claudear.Machine.Run
import Claudear.Sql.Table
import Claudear.Storage.Error
import Mathlib.Data.List.Sort
import Mathlib.Data.Set.Basic

/-!
# The review comment ledger

`pr_review_comments` holds the comments on a PR until their feedback has been
acted on. A failing review cycle charges every comment it tried and gives up on
the worst one that has reached the cap, so a batch does not lose valid comments
to one that cannot be handled.

Newly recorded comments start uncharged. A cycle therefore gives up on a comment
of an older batch first, and a batch drains no matter how many comments arrive
while it does (`Progress`).
-/

namespace Claudear.Storage

open Claudear.Sql Claudear.Machine

/-- The fields of a `ReviewComment` that are stored. -/
structure ReviewComment where
  id : Int
  pullRequestReviewId : Option Int
  path : String
  position : Option Int
  line : Option Int
  body : String
  userLogin : String
  createdAt : String
  updatedAt : String
  htmlUrl : String
  deriving DecidableEq, Repr

/-- Conversation comments carry no path. -/
def ReviewComment.kind (c : ReviewComment) : String :=
  if c.path.isEmpty then "conversation" else "inline"

/-- The columns of `pr_review_comments`; `attempts` only ever counts up from 0. -/
structure CommentRow where
  comment : ReviewComment
  commentKind : String
  prUrl : String
  handledAt : Option Timestamp := none
  attempts : Nat := 0
  deriving DecidableEq, Repr

namespace CommentRow

/-- The pair a caller names a comment by. -/
def pair (r : CommentRow) : Int × String := (r.comment.id, r.commentKind)

def revise (c : ReviewComment) (r : CommentRow) : CommentRow :=
  { r with comment := { r.comment with body := c.body, updatedAt := c.updatedAt } }

def bump (r : CommentRow) : CommentRow := { r with attempts := r.attempts + 1 }

def handle (now : Timestamp) (r : CommentRow) : CommentRow := { r with handledAt := some now }

end CommentRow

abbrev Comments := Table CommentRow

namespace Comments

/-- `pr_url = ? AND handled_at IS NULL` -/
def pendingOf (prUrl : String) (r : Nat × CommentRow) : Bool :=
  r.2.prUrl = prUrl && r.2.handledAt.isNone

/-- `UNIQUE(comment_kind, scm_comment_id)` -/
def samePair (c : ReviewComment) (r : Nat × CommentRow) : Bool := r.2.pair = (c.id, c.kind)

/-- `reviews` are the keys of `pr_reviews`. -/
def recordPrReviewComment (t : Comments) (reviews : List Int) (prUrl : String) (c : ReviewComment) :
    Except Error Comments :=
  if t.any (samePair c) then .ok (t.update (samePair c) (·.revise c)).skip
  else if c.pullRequestReviewId.all (· ∈ reviews) then
    .ok (t.insert { comment := c, commentKind := c.kind, prUrl })
  else .error (.database "FOREIGN KEY constraint failed")

/-- `ORDER BY scm_comment_id ASC` -/
def getUnhandledPrReviewComments (t : Comments) (prUrl : String) : List ReviewComment :=
  ((t.select (pendingOf prUrl)).insertionSort fun a b => a.2.comment.id ≤ b.2.comment.id).map
    (·.2.comment)

def markPrReviewCommentsHandled (t : Comments) (now : Timestamp) (prUrl : String) : Comments :=
  t.update (pendingOf prUrl) (·.handle now)

/-- Pending on the PR, and one of the listed pairs. -/
def tried (prUrl : String) (comments : List (Int × String)) (r : Nat × CommentRow) : Bool :=
  pendingOf prUrl r && r.2.pair ∈ comments

def markPrReviewCommentsHandledByIds (t : Comments) (now : Timestamp) (prUrl : String)
    (comments : List (Int × String)) : Comments :=
  if comments.isEmpty then t else t.update (tried prUrl comments) (·.handle now)

def exhausted (prUrl : String) (comments : List (Int × String)) (maxAttempts : Int)
    (r : Nat × CommentRow) : Bool :=
  tried prUrl comments r && decide (maxAttempts ≤ r.2.attempts)

/-- `attempts DESC, scm_comment_id ASC` -/
def worse (a b : Nat × CommentRow) : Prop :=
  b.2.attempts < a.2.attempts ∨ (a.2.attempts = b.2.attempts ∧ a.2.comment.id ≤ b.2.comment.id)

instance : DecidableRel worse := fun _ _ => inferInstanceAs (Decidable (_ ∨ _))

/-- `ORDER BY attempts DESC, scm_comment_id ASC LIMIT 1` -/
def worst (l : List (Nat × CommentRow)) : Option (Nat × CommentRow) := (l.insertionSort worse).head?

/-- Both statements run under one lock. -/
def notePrReviewCommentFailureByIds (t : Comments) (now : Timestamp) (prUrl : String)
    (comments : List (Int × String)) (maxAttempts : Int) : Comments :=
  if comments.isEmpty then t
  else
    let bumped := t.update (tried prUrl comments) CommentRow.bump
    match worst (bumped.select (exhausted prUrl comments maxAttempts)) with
    | none => bumped
    | some (id, _) => bumped.update (fun r => r.1 = id) (·.handle now)

/-! ## The comment given up on -/

theorem worst_eq_none {l : List (Nat × CommentRow)} : worst l = none ↔ l = [] := by
  rw [worst, List.head?_eq_none_iff, ← List.length_eq_zero_iff, List.length_insertionSort,
    List.length_eq_zero_iff]

/-- It is one of the rows, and none has more attempts. -/
theorem worst_spec {l : List (Nat × CommentRow)} {v : Nat × CommentRow} (h : worst l = some v) :
    v ∈ l ∧ ∀ r ∈ l, r.2.attempts ≤ v.2.attempts := by
  have htotal : Std.Total worse := ⟨fun a b => by unfold worse; omega⟩
  have htrans : IsTrans (Nat × CommentRow) worse := ⟨fun a b c => by unfold worse; omega⟩
  have hsorted := List.pairwise_insertionSort worse l
  have hmem : ∀ r, r ∈ l.insertionSort worse ↔ r ∈ l := fun r => List.mem_insertionSort _
  unfold worst at h
  cases hl : l.insertionSort worse with
  | nil => simp [hl] at h
  | cons a rest =>
    rw [hl] at h hsorted
    obtain rfl : a = v := by simpa using h
    refine ⟨(hmem a).mp (by simp [hl]), fun r hr => ?_⟩
    rcases List.mem_cons.mp (hl ▸ (hmem r).mpr hr) with rfl | hr
    · exact Nat.le_refl _
    · have hworse := (List.pairwise_cons.mp hsorted).1 r hr
      unfold worse at hworse
      omega

/-! ## One failing cycle -/

variable {t : Comments} {now : Timestamp} {prUrl : String} {comments : List (Int × String)}
  {maxAttempts : Int} {i : Nat} {r r' : CommentRow}

/-- The table once the tried comments are charged. -/
def bumped (t : Comments) (prUrl : String) (comments : List (Int × String)) : Comments :=
  t.update (tried prUrl comments) CommentRow.bump

/-- The row `v` is given up on. -/
def retire (t : Comments) (now : Timestamp) (v : Option (Nat × CommentRow)) : Comments :=
  match v with
  | none => t
  | some (id, _) => t.update (fun r => r.1 = id) (·.handle now)

/-- A failing cycle charges what it tried and gives up on the worst of what is exhausted. -/
theorem noteFailure_eq (t : Comments) (now : Timestamp) (prUrl : String)
    (comments : List (Int × String)) (maxAttempts : Int) :
    t.notePrReviewCommentFailureByIds now prUrl comments maxAttempts =
      retire (bumped t prUrl comments) now
        (worst ((bumped t prUrl comments).select (exhausted prUrl comments maxAttempts))) := by
  unfold notePrReviewCommentFailureByIds
  split
  · -- an empty list matches nothing
    rename_i h
    obtain rfl := List.isEmpty_iff.mp h
    have hb : bumped t prUrl [] = t := Table.update_of_none (by simp [tried])
    rw [hb, worst_eq_none.mpr (by simp [Table.select, exhausted, tried])]
    rfl
  · rfl

theorem pendingOf_iff {r : Nat × CommentRow} :
    pendingOf prUrl r = true ↔ r.2.prUrl = prUrl ∧ r.2.handledAt = none := by
  simp [pendingOf]

theorem tried_iff {r : Nat × CommentRow} :
    tried prUrl comments r = true ↔
      (r.2.prUrl = prUrl ∧ r.2.handledAt = none) ∧ r.2.pair ∈ comments := by
  simp [tried, pendingOf]

theorem get_retire (t : Comments) (now : Timestamp) (v : Option (Nat × CommentRow)) (i : Nat) :
    (retire t now v).get i =
      (t.get i).map fun r => if v.map Prod.fst = some i then r.handle now else r := by
  cases v with
  | none => simp [retire]
  | some v =>
    simp only [retire, Table.get_update, Option.map_some, Option.some.injEq, decide_eq_true_eq]
    simp only [eq_comm]

/-- The comment was pending and is handled. -/
def Retired (t t' : Comments) (i : Nat) : Prop :=
  ∃ r r', t.get i = some r ∧ t'.get i = some r' ∧ r.handledAt = none ∧ r'.handledAt ≠ none

/-- A retired comment is the one chosen, and was tried and exhausted. -/
theorem retired_noteFailure
    (h : Retired t (t.notePrReviewCommentFailureByIds now prUrl comments maxAttempts) i) :
    (worst ((bumped t prUrl comments).select (exhausted prUrl comments maxAttempts))).map Prod.fst =
        some i ∧
      ∃ r, (bumped t prUrl comments).get i = some r ∧ exhausted prUrl comments maxAttempts (i, r) = true := by
  obtain ⟨r, r', hi, hi', hn, hh⟩ := h
  rw [noteFailure_eq, get_retire, bumped, Table.get_update, hi, Option.map_some, Option.map_some,
    Option.some.injEq] at hi'
  have hv : (worst ((bumped t prUrl comments).select (exhausted prUrl comments maxAttempts))).map
      Prod.fst = some i := by
    by_contra hv
    rw [bumped] at hv
    rw [if_neg hv] at hi'
    subst hi'
    split at hh <;> exact hh hn
  refine ⟨hv, ?_⟩
  obtain ⟨⟨j, q⟩, hw, rfl⟩ := Option.map_eq_some_iff.mp hv
  exact ⟨q, Table.mem_select.mp (worst_spec hw).1⟩

/-- What a cycle leaves of a comment it did not list. -/
theorem noteFailure_unlisted (hi : t.get i = some r) (hr : r.pair ∉ comments) :
    (t.notePrReviewCommentFailureByIds now prUrl comments maxAttempts).get i = some r := by
  have hb : (bumped t prUrl comments).get i = some r :=
    Table.get_update_of_not hi (by simp [tried, hr])
  rw [noteFailure_eq, get_retire, hb, Option.map_some, if_neg]
  intro hv
  obtain ⟨⟨j, q⟩, hw, rfl⟩ := Option.map_eq_some_iff.mp hv
  obtain ⟨hj, hex⟩ := Table.mem_select.mp (worst_spec hw).1
  obtain rfl : q = r := Option.some.inj (hj.symm.trans hb)
  exact hr (tried_iff.mp (Bool.and_eq_true_iff.mp hex).1).2

/-! ## Between the cycles -/

/-- A call of one of the ledger's writers. -/
inductive CommentOp where
  | record (reviews : List Int) (prUrl : String) (comment : ReviewComment)
  | markHandled (now : Timestamp) (prUrl : String)
  | markHandledByIds (now : Timestamp) (prUrl : String) (comments : List (Int × String))
  | noteFailure (now : Timestamp) (prUrl : String) (comments : List (Int × String)) (maxAttempts : Int)

def exec (t : Comments) : CommentOp → Comments
  | .record reviews prUrl c => (t.recordPrReviewComment reviews prUrl c).toOption.getD t
  | .markHandled now prUrl => t.markPrReviewCommentsHandled now prUrl
  | .markHandledByIds now prUrl comments => t.markPrReviewCommentsHandledByIds now prUrl comments
  | .noteFailure now prUrl comments maxAttempts =>
    t.notePrReviewCommentFailureByIds now prUrl comments maxAttempts

/-- The call is a failing cycle of the PR. -/
def CommentOp.failsOn (prUrl : String) : CommentOp → Bool
  | .noteFailure _ prUrl' _ _ => prUrl' = prUrl
  | _ => false

/-- A failing cycle of a PR, and the calls made before the next one. -/
structure Cycle where
  now : Timestamp
  tried : List (Int × String)
  later : List CommentOp

def cycle (prUrl : String) (maxAttempts : Int) (t : Comments) (c : Cycle) : Comments :=
  run exec (t.notePrReviewCommentFailureByIds c.now prUrl c.tried maxAttempts) c.later

/-- The cycle tries every row of `S` that is still pending. -/
def Covers (prUrl : String) (S : Set Nat) (t : Comments) (c : Cycle) : Prop :=
  (∀ i ∈ S, ∀ r, t.get i = some r → r.handledAt = none → r.pair ∈ c.tried) ∧
    ∀ op ∈ c.later, op.failsOn prUrl = false

/-! ## Progress -/

/-- Pending on the PR since before the first cycle. -/
def oldPending (prUrl : String) (start : Nat) (r : Nat × CommentRow) : Bool :=
  decide (r.1 < start) && pendingOf prUrl r

def Drained (S : Set Nat) (t : Comments) : Prop :=
  ∀ i ∈ S, ∀ r, t.get i = some r → r.handledAt ≠ none

/-- After `j` cycles from `t₀`: what is left of `S` has `j` attempts, what was recorded since has
fewer, and every cycle past the cap has given up on a comment older than the first cycle. -/
structure Progress (prUrl : String) (maxAttempts : Int) (S : Set Nat) (t₀ : Comments) (j : Nat)
    (t : Comments) : Prop where
  next : t₀.next ≤ t.next
  kept : ∀ i ∈ S, ∃ r, t.get i = some r ∧ r.prUrl = prUrl ∧ (r.handledAt = none → j ≤ r.attempts)
  newer : ∀ i r, t.get i = some r → t₀.next ≤ i → r.prUrl = prUrl → r.handledAt = none →
    r.attempts < j
  count : Drained S t ∨
    t.count (oldPending prUrl t₀.next) + (j - maxAttempts.toNat) ≤ t₀.count (pendingOf prUrl)

section Progress

variable {S : Set Nat} {t₀ : Comments} {j : Nat}

theorem oldPending_iff {start : Nat} {r : Nat × CommentRow} :
    oldPending prUrl start r = true ↔ r.1 < start ∧ r.2.prUrl = prUrl ∧ r.2.handledAt = none := by
  simp [oldPending, pendingOf]

theorem Progress.start (hS : ∀ i ∈ S, ∃ r, t₀.get i = some r ∧ pendingOf prUrl (i, r) = true) :
    Progress prUrl maxAttempts S t₀ 0 t₀ where
  next := Nat.le_refl _
  kept i hi := by
    obtain ⟨r, hr, hp⟩ := hS i hi
    exact ⟨r, hr, (pendingOf_iff.mp hp).1, fun _ => Nat.zero_le _⟩
  newer i r hi hge := absurd (Table.lt_next hi) (Nat.not_lt.mpr hge)
  count := by
    refine .inr ?_
    have hle : t₀.count (oldPending prUrl t₀.next) ≤ t₀.count (pendingOf prUrl) :=
      List.countP_mono_left fun r _ h => (Bool.and_eq_true_iff.mp h).2
    omega

/-- A row that stays on its PR, and pending only if it was, is no more often pending. -/
theorem oldPending_setWhere {q : Nat × CommentRow → Bool} {f : CommentRow → CommentRow}
    (hp : ∀ r, (f r).prUrl = r.prUrl) (hh : ∀ r, (f r).handledAt = none → r.handledAt = none)
    {start : Nat} (r : Nat × CommentRow) (h : oldPending prUrl start (Table.setWhere q f r) = true) :
    oldPending prUrl start r = true := by
  rw [oldPending_iff] at h ⊢
  unfold Table.setWhere at h
  split at h
  · exact ⟨h.1, (hp r.2).symm.trans h.2.1, hh r.2 h.2.2⟩
  · exact h

/-- A statement that charges no comment of the PR. -/
theorem Progress.update (h : Progress prUrl maxAttempts S t₀ j t) {q : Nat × CommentRow → Bool}
    {f : CommentRow → CommentRow} (hp : ∀ r, (f r).prUrl = r.prUrl)
    (hh : ∀ r, (f r).handledAt = none → r.handledAt = none)
    (ha : ∀ i r, q (i, r) = true → r.prUrl = prUrl → (f r).attempts = r.attempts) :
    Progress prUrl maxAttempts S t₀ j (t.update q f) where
  next := h.next
  kept i hi := by
    obtain ⟨r, hr, hpr, hj⟩ := h.kept i hi
    cases hq : q (i, r) with
    | false => exact ⟨r, Table.get_update_of_not hr hq, hpr, hj⟩
    | true =>
      refine ⟨f r, Table.get_update_of hr hq, (hp r).trans hpr, fun hn => ?_⟩
      rw [ha i r hq hpr]
      exact hj (hh r hn)
  newer i r' hi hge hpr hn := by
    obtain ⟨r, hr, ⟨hq, rfl⟩ | ⟨-, rfl⟩⟩ := Table.get_update_cases hi
    · rw [ha i r hq ((hp r).symm.trans hpr)]
      exact h.newer i r hr hge ((hp r).symm.trans hpr) (hh r hn)
    · exact h.newer i r' hr hge hpr hn
  count := by
    rcases h.count with hd | hc
    · refine .inl fun i hi r' hr' => ?_
      obtain ⟨r, hr, ⟨-, rfl⟩ | ⟨-, rfl⟩⟩ := Table.get_update_cases hr'
      · exact fun hn => hd i hi r hr (hh r hn)
      · exact hd i hi r' hr
    · have hold : ∀ r, oldPending prUrl t₀.next (Table.setWhere q f r) = true →
          oldPending prUrl t₀.next r = true := oldPending_setWhere hp hh
      have hle := Table.count_update_le (t := t) hold
      exact .inr (by omega)

theorem Progress.skip (h : Progress prUrl maxAttempts S t₀ j t) :
    Progress prUrl maxAttempts S t₀ j t.skip :=
  { h with next := Nat.le_succ_of_le h.next }

/-- A comment recorded after the first cycle. -/
theorem Progress.insert (h : Progress prUrl maxAttempts S t₀ j t) {c : CommentRow} (hj : 0 < j)
    (hc : c.attempts = 0) : Progress prUrl maxAttempts S t₀ j (t.insert c) where
  next := Nat.le_succ_of_le h.next
  kept i hi := by
    obtain ⟨r, hr, hpr⟩ := h.kept i hi
    exact ⟨r, Table.get_insert_of hr, hpr⟩
  newer i r hi hge hpr hn := by
    rcases Table.get_insert_cases hi with ⟨-, rfl⟩ | hi
    · omega
    · exact h.newer i r hi hge hpr hn
  count := by
    rcases h.count with hd | hc
    · refine .inl fun i hi r hr => ?_
      obtain ⟨q, hq, -⟩ := h.kept i hi
      obtain rfl : r = q := Option.some.inj (hr.symm.trans (Table.get_insert_of hq))
      exact hd i hi r hq
    · refine .inr ?_
      rwa [Table.count_insert_of_not]
      have hnext := h.next
      simp only [oldPending, Bool.and_eq_false_iff, decide_eq_false_iff_not]
      exact .inl (by omega)

/-- Calls between two cycles of the PR. -/
theorem Progress.exec (h : Progress prUrl maxAttempts S t₀ j t) (hj : 0 < j) {op : CommentOp}
    (hop : op.failsOn prUrl = false) : Progress prUrl maxAttempts S t₀ j (exec t op) := by
  have hhandle : ∀ now (q : Nat × CommentRow → Bool),
      Progress prUrl maxAttempts S t₀ j (t.update q (·.handle now)) := fun now q =>
    h.update (fun _ => rfl) (fun _ hn => by cases hn) fun _ _ _ _ => rfl
  cases op with
  | record reviews prUrl' c =>
    simp only [Comments.exec, recordPrReviewComment]
    split
    · exact Progress.skip (h.update (fun _ => rfl) (fun _ hn => hn) fun _ _ _ _ => rfl)
    · split
      · exact h.insert hj rfl
      · exact h
  | markHandled now prUrl' => exact hhandle now _
  | markHandledByIds now prUrl' comments =>
    simp only [Comments.exec, markPrReviewCommentsHandledByIds]
    split
    · exact h
    · exact hhandle now _
  | noteFailure now prUrl' comments maxAttempts' =>
    have hne : prUrl' ≠ prUrl := by simpa [CommentOp.failsOn] using hop
    have hb : Progress prUrl maxAttempts S t₀ j (bumped t prUrl' comments) := by
      refine h.update (fun _ => rfl) (fun _ hn => hn) fun i r hq hpr => ?_
      exact absurd ((tried_iff.mp hq).1.1.symm.trans hpr) hne
    simp only [Comments.exec, noteFailure_eq]
    unfold retire
    split
    · exact hb
    · exact hb.update (fun _ => rfl) (fun _ hn => by cases hn) fun _ _ _ _ => rfl

/-- What charging a covering batch does to the attempts of `S` and of the newer comments. -/
theorem Progress.bumped (h : Progress prUrl maxAttempts S t₀ j t)
    (hc : ∀ i ∈ S, ∀ r, t.get i = some r → r.handledAt = none → r.pair ∈ comments) :
    (∀ i ∈ S, ∃ r, (bumped t prUrl comments).get i = some r ∧ r.prUrl = prUrl ∧
      (r.handledAt = none → j + 1 ≤ r.attempts ∧ r.pair ∈ comments)) ∧
    ∀ i r, (bumped t prUrl comments).get i = some r → t₀.next ≤ i → r.prUrl = prUrl →
      r.handledAt = none → r.attempts < j + 1 := by
  constructor
  · intro i hi
    obtain ⟨r, hr, hpr, hj⟩ := h.kept i hi
    cases hq : tried prUrl comments (i, r) with
    | true =>
      refine ⟨r.bump, Table.get_update_of hr hq, hpr, fun hn => ?_⟩
      exact ⟨Nat.succ_le_succ (hj hn), hc i hi r hr hn⟩
    | false =>
      refine ⟨r, Table.get_update_of_not hr hq, hpr, fun hn => ?_⟩
      have ht := tried_iff (r := (i, r)).mpr ⟨⟨hpr, hn⟩, hc i hi r hr hn⟩
      rw [hq] at ht
      cases ht
  · intro i r' hi hge hpr hn
    obtain ⟨r, hr, ⟨-, rfl⟩ | ⟨-, rfl⟩⟩ := Table.get_update_cases hi
    · exact Nat.succ_lt_succ (h.newer i r hr hge hpr hn)
    · exact Nat.lt_succ_of_lt (h.newer i r' hr hge hpr hn)

/-- A row whose comment is chosen leaves the old pending rows. -/
theorem count_retire_lt {start : Nat} {v : Nat × CommentRow} (hv : t.get v.1 = some v.2)
    (hold : oldPending prUrl start v = true) (now : Timestamp) :
    (retire t now (some v)).count (oldPending prUrl start) < t.count (oldPending prUrl start) := by
  refine Table.count_update_lt (oldPending_setWhere (f := (·.handle now)) (fun _ => rfl)
    fun _ hn => by cases hn) hv hold ?_
  simp [Table.setWhere, oldPending, pendingOf, CommentRow.handle]

theorem count_retire_le (prUrl : String) (t : Comments) (now : Timestamp)
    (v : Option (Nat × CommentRow)) (start : Nat) :
    (retire t now v).count (oldPending prUrl start) ≤ t.count (oldPending prUrl start) := by
  cases v with
  | none => exact Nat.le_refl _
  | some v =>
    exact Table.count_update_le (oldPending_setWhere (f := (·.handle now)) (fun _ => rfl)
      fun _ hn => by cases hn)

/-- A failing cycle that tries what is left of `S`. -/
theorem Progress.noteFailure (h : Progress prUrl maxAttempts S t₀ j t) (now : Timestamp)
    (hc : ∀ i ∈ S, ∀ r, t.get i = some r → r.handledAt = none → r.pair ∈ comments) :
    Progress prUrl maxAttempts S t₀ (j + 1)
      (t.notePrReviewCommentFailureByIds now prUrl comments maxAttempts) := by
  obtain ⟨hkept, hnewer⟩ := h.bumped hc
  have hcount : (Comments.bumped t prUrl comments).count (oldPending prUrl t₀.next) ≤
      t.count (oldPending prUrl t₀.next) :=
    Table.count_update_le (oldPending_setWhere (f := CommentRow.bump) (fun _ => rfl) fun _ hn => hn)
  rw [noteFailure_eq]
  generalize hw : worst ((Comments.bumped t prUrl comments).select
    (exhausted prUrl comments maxAttempts)) = v
  -- a row before the retirement, and what it says about the row after it
  have hback : ∀ i r', (retire (Comments.bumped t prUrl comments) now v).get i = some r' →
      ∃ r, (Comments.bumped t prUrl comments).get i = some r ∧ r'.prUrl = r.prUrl ∧
        r'.attempts = r.attempts ∧ (r'.handledAt = none → r.handledAt = none) := by
    intro i r' hi
    rw [get_retire, Option.map_eq_some_iff] at hi
    obtain ⟨r, hr, rfl⟩ := hi
    refine ⟨r, hr, ?_⟩
    split
    · exact ⟨rfl, rfl, fun hn => by cases hn⟩
    · exact ⟨rfl, rfl, id⟩
  refine ⟨?_, ?_, ?_, ?_⟩
  · cases v <;> exact h.next
  · intro i hi
    obtain ⟨r, hr, hpr, hj⟩ := hkept i hi
    refine ⟨_, by rw [get_retire, hr, Option.map_some], ?_, ?_⟩
    · split <;> exact hpr
    · split
      · exact fun hn => by cases hn
      · exact fun hn => (hj hn).1
  · intro i r' hi hge hpr hn
    obtain ⟨r, hr, hp, ha, hh⟩ := hback i r' hi
    rw [ha]
    exact hnewer i r hr hge (hp ▸ hpr) (hh hn)
  · by_cases hd : Drained S (Comments.bumped t prUrl comments)
    · refine .inl fun i hi r' hr' hn => ?_
      obtain ⟨r, hr, -, -, hh⟩ := hback i r' hr'
      exact hd i hi r hr (hh hn)
    · have hle := count_retire_le prUrl (Comments.bumped t prUrl comments) now v t₀.next
      have hc₀ : t.count (oldPending prUrl t₀.next) + (j - maxAttempts.toNat) ≤
          t₀.count (pendingOf prUrl) := by
        refine h.count.resolve_left fun hdt => hd fun i hi r' hr' hn => ?_
        obtain ⟨r, hr, ⟨-, rfl⟩ | ⟨-, rfl⟩⟩ := Table.get_update_cases hr'
        · exact hdt i hi r hr hn
        · exact hdt i hi r' hr hn
      by_cases hcap : j + 1 ≤ maxAttempts.toNat
      · right
        omega
      · -- what is left of `S` is exhausted, so the worst row is not a newer one
        unfold Drained at hd
        push Not at hd
        obtain ⟨i, hi, r, hr, hn⟩ := hd
        obtain ⟨q, hq, hpr, hj⟩ := hkept i hi
        obtain rfl : r = q := Option.some.inj (hr.symm.trans hq)
        obtain ⟨hj, hmem⟩ := hj hn
        have hex : (i, r) ∈ (Comments.bumped t prUrl comments).select
            (exhausted prUrl comments maxAttempts) := by
          refine Table.mem_select.mpr ⟨hr, Bool.and_eq_true_iff.mpr ⟨tried_iff.mpr ⟨⟨hpr, hn⟩, hmem⟩, ?_⟩⟩
          simp only [decide_eq_true_eq]
          omega
        cases v with
        | none =>
          rw [worst_eq_none.mp hw] at hex
          cases hex
        | some v =>
          obtain ⟨hv, hmax⟩ := worst_spec hw
          obtain ⟨hgv, hev⟩ := Table.mem_select.mp hv
          obtain ⟨⟨hpv, hnv⟩, -⟩ := tried_iff.mp (Bool.and_eq_true_iff.mp hev).1
          have hatt := hmax _ hex
          have hold : v.1 < t₀.next := by
            by_contra hge
            have hlt := hnewer v.1 v.2 hgv (Nat.not_lt.mp hge) hpv hnv
            simp only at hatt
            omega
          have hlt := count_retire_lt hgv (oldPending_iff.mpr ⟨hold, hpv, hnv⟩) now
          right
          omega

theorem Progress.cycle (h : Progress prUrl maxAttempts S t₀ j t) {c : Cycle} (hc : Covers prUrl S t c) :
    Progress prUrl maxAttempts S t₀ (j + 1) (cycle prUrl maxAttempts t c) := by
  have hl : Along Comments.exec (fun _ op => op.failsOn prUrl = false)
      (t.notePrReviewCommentFailureByIds c.now prUrl c.tried maxAttempts) c.later :=
    along_const.mpr hc.2
  exact hl.inv (fun _ _ h hop => h.exec (Nat.succ_pos j) hop) (h.noteFailure c.now hc.1)

theorem Progress.run (h : Progress prUrl maxAttempts S t₀ j t) (l : List Cycle)
    (hc : Along (Comments.cycle prUrl maxAttempts) (Covers prUrl S) t l) :
    Progress prUrl maxAttempts S t₀ (j + l.length) (run (Comments.cycle prUrl maxAttempts) t l) := by
  induction l generalizing t j with
  | nil => exact h
  | cons c l ih =>
    have h' := ih (h.cycle hc.1) hc.2
    rwa [Nat.add_right_comm] at h'

end Progress

/-! ## The ledger drains -/

/-- What the writers leave of a row. -/
structure Continues (r r' : CommentRow) : Prop where
  pair : r'.pair = r.pair
  prUrl : r'.prUrl = r.prUrl
  path : r'.comment.path = r.comment.path
  review : r'.comment.pullRequestReviewId = r.comment.pullRequestReviewId
  attempts : r.attempts ≤ r'.attempts
  handled : r.handledAt ≠ none → r'.handledAt ≠ none

theorem Continues.refl (r : CommentRow) : Continues r r := ⟨rfl, rfl, rfl, rfl, Nat.le_refl _, id⟩

theorem Continues.trans {r'' : CommentRow} (h : Continues r r') (h' : Continues r' r'') : Continues r r'' :=
  ⟨h'.pair.trans h.pair, h'.prUrl.trans h.prUrl, h'.path.trans h.path, h'.review.trans h.review,
    Nat.le_trans h.attempts h'.attempts, h'.handled ∘ h.handled⟩

theorem continues_handle (now : Timestamp) (r : CommentRow) : Continues r (r.handle now) :=
  ⟨rfl, rfl, rfl, rfl, Nat.le_refl _, fun _ h => by cases h⟩

theorem continues_revise (c : ReviewComment) (r : CommentRow) : Continues r (r.revise c) :=
  ⟨rfl, rfl, rfl, rfl, Nat.le_refl _, id⟩

theorem continues_bump (r : CommentRow) : Continues r r.bump :=
  ⟨rfl, rfl, rfl, rfl, Nat.le_succ _, id⟩

/-- The rows a call closes. -/
def CommentOp.Closes : CommentOp → CommentRow → Prop
  | .record .., _ => False
  | .markHandled _ prUrl, r => r.prUrl = prUrl
  | .markHandledByIds _ prUrl comments, r => r.prUrl = prUrl ∧ r.pair ∈ comments
  | .noteFailure _ prUrl comments maxAttempts, r =>
    r.prUrl = prUrl ∧ r.pair ∈ comments ∧ maxAttempts ≤ r.attempts

theorem continues_noteFailure (now : Timestamp) (prUrl : String) (comments : List (Int × String))
    (maxAttempts : Int) (hi : t.get i = some r) :
    ∃ r', (t.notePrReviewCommentFailureByIds now prUrl comments maxAttempts).get i = some r' ∧
      Continues r r' ∧ r'.comment = r.comment := by
  rw [noteFailure_eq, get_retire, bumped, Table.get_update, hi]
  refine ⟨_, rfl, ?_⟩
  dsimp only
  have hb : Continues r (if tried prUrl comments (i, r) then r.bump else r) ∧
      (if tried prUrl comments (i, r) then r.bump else r).comment = r.comment := by
    split
    · exact ⟨continues_bump r, rfl⟩
    · exact ⟨.refl r, rfl⟩
  split
  · exact ⟨hb.1.trans (continues_handle now _), hb.2⟩
  · exact hb

/-- No call takes a row out of the ledger. -/
theorem continues_exec (hi : t.get i = some r) (op : CommentOp) :
    ∃ r', (exec t op).get i = some r' ∧ Continues r r' := by
  have hupdate {q : Nat × CommentRow → Bool} {f : CommentRow → CommentRow} (hf : ∀ r, Continues r (f r)) :
      ∃ r', (t.update q f).get i = some r' ∧ Continues r r' := by
    rw [Table.get_update, hi]
    refine ⟨_, rfl, ?_⟩
    dsimp only
    split
    · exact hf r
    · exact .refl r
  cases op with
  | record reviews prUrl c =>
    simp only [exec, recordPrReviewComment]
    split
    · exact hupdate (continues_revise c)
    · split
      · exact ⟨r, Table.get_insert_of hi, .refl r⟩
      · exact ⟨r, hi, .refl r⟩
  | markHandled now prUrl => exact hupdate (continues_handle now)
  | markHandledByIds now prUrl comments =>
    simp only [exec, markPrReviewCommentsHandledByIds]
    split
    · exact ⟨r, hi, .refl r⟩
    · exact hupdate (continues_handle now)
  | noteFailure now prUrl comments maxAttempts =>
    obtain ⟨r', hi', hcont, -⟩ := continues_noteFailure now prUrl comments maxAttempts hi
    exact ⟨r', hi', hcont⟩

/-- Where the text of a row comes from: it was there, or a record brought it. -/
def CommentOp.Words (op : CommentOp) (r r' : CommentRow) : Prop :=
  r'.comment.body = r.comment.body ∨ ∃ reviews prUrl c, op = .record reviews prUrl c ∧
    r.pair = (c.id, c.kind) ∧ r'.comment.body = c.body

/-- A row after a call is the new one of a record, or one from before it, which the call has closed if it
was open and is not. -/
theorem exec_cases {op : CommentOp} (hi : (exec t op).get i = some r') :
    (∃ reviews prUrl c, op = .record reviews prUrl c ∧ c.pullRequestReviewId.all (· ∈ reviews) = true ∧
        r' = { comment := c, commentKind := c.kind, prUrl }) ∨
      ∃ r, t.get i = some r ∧ Continues r r' ∧ op.Words r r' ∧
        (r'.handledAt ≠ none → r.handledAt ≠ none ∨ op.Closes r') := by
  have hupdate {q : Nat × CommentRow → Bool} {f : CommentRow → CommentRow} (hf : ∀ r, Continues r (f r))
      (hw : ∀ r, q (i, r) = true → op.Words r (f r))
      (hc : ∀ r, q (i, r) = true → (f r).handledAt ≠ none → r.handledAt ≠ none ∨ op.Closes (f r))
      (hi : (t.update q f).get i = some r') : ∃ r, t.get i = some r ∧ Continues r r' ∧ op.Words r r' ∧
        (r'.handledAt ≠ none → r.handledAt ≠ none ∨ op.Closes r') := by
    obtain ⟨r, hr, ⟨hq, rfl⟩ | ⟨-, rfl⟩⟩ := Table.get_update_cases hi
    · exact ⟨r, hr, hf r, hw r hq, hc r hq⟩
    · exact ⟨r', hr, .refl r', .inl rfl, fun h => .inl h⟩
  have hsame (hi : t.get i = some r') : ∃ r, t.get i = some r ∧ Continues r r' ∧ op.Words r r' ∧
      (r'.handledAt ≠ none → r.handledAt ≠ none ∨ op.Closes r') :=
    ⟨r', hi, .refl r', .inl rfl, fun h => .inl h⟩
  cases op with
  | record reviews prUrl c =>
    simp only [exec, recordPrReviewComment] at hi
    split at hi
    · refine .inr (hupdate (continues_revise c) (fun r hq => ?_) (fun r _ h => .inl h) hi)
      exact .inr ⟨reviews, prUrl, c, rfl, of_decide_eq_true hq, rfl⟩
    · split at hi
      · rename_i hreview
        rcases Table.get_insert_cases hi with ⟨-, rfl⟩ | hi
        · exact .inl ⟨_, _, _, rfl, hreview, rfl⟩
        · exact .inr (hsame hi)
      · exact .inr (hsame hi)
  | markHandled now prUrl =>
    exact .inr (hupdate (continues_handle now) (fun _ _ => .inl rfl)
      (fun r hq _ => .inr (pendingOf_iff.mp hq).1) hi)
  | markHandledByIds now prUrl comments =>
    simp only [exec, markPrReviewCommentsHandledByIds] at hi
    split at hi
    · exact .inr (hsame hi)
    · refine .inr (hupdate (continues_handle now) (fun _ _ => .inl rfl) (fun r hq _ => .inr ?_) hi)
      exact ⟨(tried_iff.mp hq).1.1, (tried_iff.mp hq).2⟩
  | noteFailure now prUrl comments maxAttempts =>
    right
    have hback : ∃ r, t.get i = some r := by
      simp only [exec, noteFailure_eq, get_retire, bumped, Table.get_update] at hi
      obtain ⟨q, hq, -⟩ := Option.map_eq_some_iff.mp hi
      obtain ⟨r, hr, -⟩ := Option.map_eq_some_iff.mp hq
      exact ⟨r, hr⟩
    obtain ⟨r, hr⟩ := hback
    obtain ⟨q, hq, hcont, hcom⟩ := continues_noteFailure now prUrl comments maxAttempts hr
    obtain rfl : q = r' := Option.some.inj (hq.symm.trans hi)
    refine ⟨r, hr, hcont, .inl (by rw [hcom]), fun hh => ?_⟩
    by_cases hn : r.handledAt = none
    · right
      obtain ⟨-, c, hc, hex⟩ := retired_noteFailure ⟨r, q, hr, hi, hn, hh⟩
      obtain ⟨ht, hcap⟩ := Bool.and_eq_true_iff.mp hex
      obtain ⟨⟨hp, -⟩, hm⟩ := tried_iff.mp ht
      have hq' : q = c ∨ q = c.handle now := by
        simp only [exec, noteFailure_eq, get_retire, hc, Option.map_some, Option.some.injEq] at hi
        split at hi
        · exact .inr hi.symm
        · exact .inl hi.symm
      rcases hq' with rfl | rfl
      · exact ⟨hp, hm, of_decide_eq_true hcap⟩
      · exact ⟨hp, hm, of_decide_eq_true hcap⟩
    · exact .inl hn

/-- A comment that was recorded is in the ledger. -/
theorem has_of_record {reviews : List Int} {c : ReviewComment} {t' : Comments}
    (h : t.recordPrReviewComment reviews prUrl c = .ok t') :
    t'.Has fun r => r.pair = (c.id, c.kind) := by
  unfold recordPrReviewComment at h
  split at h
  · rename_i hany
    obtain rfl := Except.ok.inj h
    obtain ⟨i, r, hi, hp⟩ := Table.any_eq_true.mp hany
    exact ⟨i, _, Table.get_update_of hi hp, of_decide_eq_true hp⟩
  · split at h
    · obtain rfl := Except.ok.inj h
      exact ⟨t.next, _, by rw [Table.get_insert, if_pos rfl], rfl⟩
    · cases h

end Comments

end Claudear.Storage
