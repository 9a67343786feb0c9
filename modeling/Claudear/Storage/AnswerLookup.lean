import Claudear.Machine.Run
import Claudear.Storage.FixAttempts
import Claudear.Text.Delimited
import Claudear.Text.Like
import Mathlib.Data.List.TakeWhile

/-!
# From an answer's message back to its issue

The ids of the messages of an answer are one text in the issue's row,
`,id,id,…,`, and `lookup_answer_issue` asks for `%,id,%` with the id escaped.
`issueIds calls k` are the ids the calls recorded for the issue `k`. Where ids
have no comma, the row is found exactly if what stands between the commas of the
id stands side by side in them, up to the case of ASCII letters
(`answers_iff`), so an id is also found as another spelling of one that was
recorded (`other_spelling_found`).
-/

namespace Claudear.Storage

open Claudear.Sql Claudear.Machine Claudear.Text

namespace FixAttempts

/-- What `LIKE` reads of a text: the part before its first NUL. -/
def beforeNul (s : List Char) : List Char := s.takeWhile (· ≠ '\x00')

/-- `SQLITE_LIMIT_LIKE_PATTERN_LENGTH`, in bytes. A longer pattern is an error. -/
def likePatternLimit : Nat := 50000

def answerPattern (messageId : String) : List Char :=
  '%' :: ',' :: (escapeLike messageId.toList ++ [',', '%'])

def answers (messageId : String) (r : Nat × AttemptRow) : Bool :=
  r.2.answerMessageIds.any fun ids => like (beforeNul (answerPattern messageId)) (beforeNul ids.toList)

-- `.ok()` makes an error of the query the same as no row
def lookupAnswerIssue (t : FixAttempts) (messageId : String) : Option IssueKey :=
  if messageId = "" then none
  else if likePatternLimit < (String.ofList (answerPattern messageId)).utf8ByteSize then none
  else (t.first (answers messageId)).map (·.2.key)

structure AnswerCall where
  key : IssueKey
  messageIds : List String

def recordAnswer (t : FixAttempts) (c : AnswerCall) : FixAttempts :=
  t.recordAnswerMessageIds c.key c.messageIds

/-- `m` was recorded for the issue, as one whole id. -/
def Recorded (calls : List AnswerCall) (k : IssueKey) (m : String) : Prop :=
  ∃ c ∈ calls, c.key = k ∧ m ∈ c.messageIds

/-- Ids that are not yet among `ids` go to the end. -/
def addIds (ids new : List String) : List String :=
  new.foldl (fun ids id => if id ∈ ids then ids else ids ++ [id]) ids

/-- The ids recorded for an issue, each once, in the order they were first recorded in. -/
def issueIds (calls : List AnswerCall) (k : IssueKey) : List String :=
  calls.foldl (fun ids c => if c.key = k then addIds ids c.messageIds else ids) []

def answerText (ids : List String) : String := String.ofList (delimited ',' (ids.map String.toList))

/-- An id that the column can hold among others. -/
structure Plain (id : String) : Prop where
  nonempty : id ≠ ""
  noComma : ',' ∉ id.toList
  noNul : '\x00' ∉ id.toList

variable {t : FixAttempts} {c : AnswerCall} {calls : List AnswerCall} {ids new : List String}
  {k k' : IssueKey} {m : String}

theorem mem_addIds : m ∈ addIds ids new ↔ m ∈ ids ∨ m ∈ new := by
  induction new generalizing ids with
  | nil => simp [addIds]
  | cons id new ih =>
    rw [addIds, List.foldl_cons, ← addIds, ih]
    split
    · rename_i hid
      rw [List.mem_cons]
      constructor
      · exact fun h => h.imp_right .inr
      · rintro (h | rfl | h)
        · exact .inl h
        · exact .inl hid
        · exact .inr h
    · rw [List.mem_append, List.mem_singleton, List.mem_cons, or_assoc]

theorem addIds_ne_nil (h : new ≠ []) : addIds ids new ≠ [] := by
  obtain ⟨id, hid⟩ := List.exists_mem_of_ne_nil new h
  exact List.ne_nil_of_mem (mem_addIds.mpr (.inr hid))

theorem issueIds_concat :
    issueIds (calls ++ [c]) k =
      if c.key = k then addIds (issueIds calls k) c.messageIds else issueIds calls k := by
  rw [issueIds, List.foldl_append]
  rfl

theorem mem_issueIds : m ∈ issueIds calls k ↔ Recorded calls k m := by
  induction calls using List.reverseRecOn with
  | nil => simp [issueIds, Recorded]
  | append_singleton calls c ih =>
    have hc : Recorded (calls ++ [c]) k m ↔ Recorded calls k m ∨ c.key = k ∧ m ∈ c.messageIds := by
      simp only [Recorded, List.mem_append, List.mem_singleton, or_and_right, exists_or, exists_eq_left]
    rw [issueIds_concat, hc, ← ih]
    split
    · rename_i hk
      simp only [mem_addIds, hk, true_and]
    · rename_i hk
      simp only [hk, false_and, or_false]

/-! ## The column -/

theorem answerText_eq (h : ids ≠ []) : "," ++ ",".intercalate ids ++ "," = answerText ids := by
  have hm : ids.map String.toList ≠ [] := fun e => h (List.map_eq_nil_iff.mp e)
  apply String.toList_injective
  rw [answerText, String.toList_ofList, delimited_eq_intercalate hm, String.toList_append,
    String.toList_append, String.toList_intercalate]
  rfl

theorem comma_free (h : ∀ id ∈ ids, Plain id) : ∀ w ∈ ids.map String.toList, ',' ∉ w := by
  intro w hw
  obtain ⟨id, hid, rfl⟩ := List.mem_map.mp hw
  exact (h id hid).noComma

theorem nul_free (h : ∀ id ∈ ids, Plain id) : beforeNul (answerText ids).toList = (answerText ids).toList := by
  rw [beforeNul, List.takeWhile_eq_self_iff, answerText, String.toList_ofList]
  intro c hc
  rw [decide_eq_true_eq]
  rintro rfl
  rw [delimited, List.mem_cons, List.mem_flatMap] at hc
  rcases hc with hc | ⟨w, hw, hc⟩
  · cases hc
  · obtain ⟨id, hid, rfl⟩ := List.mem_map.mp hw
    rcases List.mem_append.mp hc with hc | hc
    · exact (h id hid).noNul hc
    · cases List.mem_singleton.mp hc

/-- What a call reads back are the ids that are stored. -/
theorem splitOn_answerText (h : ∀ id ∈ ids, Plain id) :
    ((answerText ids).splitOn ",").filter (· ≠ "") = ids := by
  rw [splitOn_comma, answerText, String.toList_ofList, splitOn_delimited (comma_free h)]
  have hmap : (ids.map String.toList).map String.ofList = ids := by
    rw [List.map_map]
    exact List.map_id'' (fun id => String.ofList_toList) ids
  have hids : ids.filter (· ≠ "") = ids :=
    List.filter_eq_self.mpr fun id hid => decide_eq_true (h id hid).nonempty
  rw [List.map_cons, List.map_append, hmap]
  simpa using hids

/-- The column of a row whose issue has these ids. -/
def answerColumn (ids : List String) : Option String := if ids = [] then none else some (answerText ids)

theorem packAnswerMessageIds_column (h : ∀ id ∈ ids, Plain id) (hnew : new ≠ []) :
    packAnswerMessageIds (answerColumn ids) new = answerText (addIds ids new) := by
  have hold : (((answerColumn ids).getD "").splitOn ",").filter (· ≠ "") = ids := by
    rw [answerColumn]
    split
    · rename_i he
      rw [he, Option.getD_none, splitOn_comma]
      rfl
    · exact splitOn_answerText h
  rw [packAnswerMessageIds, hold]
  exact answerText_eq (addIds_ne_nil hnew)

/-! ## The rows of a run -/

/-- Every row has what was recorded for its issue, and no issue loses its rows. -/
structure Answered (start : FixAttempts) (calls : List AnswerCall) (t : FixAttempts) : Prop where
  keys : ∀ i, (t.get i).map (·.key) = (start.get i).map (·.key)
  column : ∀ i r, t.get i = some r → r.answerMessageIds = answerColumn (issueIds calls r.key)

/-- The ids of a call are plain, and its issue has a row. -/
structure PlainCall (start : FixAttempts) (c : AnswerCall) : Prop where
  plain : ∀ id ∈ c.messageIds, Plain id
  row : c.messageIds ≠ [] → start.Has fun r => r.key = c.key

theorem plain_issueIds {start : FixAttempts} (h : ∀ c ∈ calls, PlainCall start c) :
    ∀ id ∈ issueIds calls k, Plain id := by
  intro id hid
  obtain ⟨c, hc, -, hm⟩ := mem_issueIds.mp hid
  exact (h c hc).plain id hm

theorem issueIds_of_no_ids (h : c.messageIds = []) : issueIds (calls ++ [c]) k = issueIds calls k := by
  rw [issueIds_concat, h]
  exact ite_self _

theorem Answered.has_key {start : FixAttempts} (h : Answered start calls t)
    (hk : start.Has fun r => r.key = k) : t.Has fun r => r.key = k := by
  obtain ⟨i, r, hi, rfl⟩ := hk
  have hk := h.keys i
  rw [hi] at hk
  obtain ⟨r', hr', e⟩ := Option.map_eq_some_iff.mp hk
  exact ⟨i, r', hr', e⟩

theorem Answered.record {start : FixAttempts} (h : Answered start calls t)
    (hcalls : ∀ c ∈ calls, PlainCall start c) (hc : PlainCall start c) :
    Answered start (calls ++ [c]) (recordAnswer t c) := by
  rw [recordAnswer, recordAnswerMessageIds]
  split
  · rename_i he
    have he : c.messageIds = [] := List.isEmpty_iff.mp he
    refine ⟨h.keys, fun i r hi => ?_⟩
    rw [issueIds_of_no_ids he]
    exact h.column i r hi
  · rename_i hne
    have hne : c.messageIds ≠ [] := fun e => hne (List.isEmpty_iff.mpr e)
    obtain ⟨i, r, hi, hk⟩ := h.has_key (hc.row hne)
    obtain ⟨⟨j, q⟩, hq⟩ := Table.exists_first (p := ofIssue c.key) hi (by simpa [ofIssue] using hk)
    obtain ⟨hj, hqk⟩ := Table.first_get hq
    have hqk : q.key = c.key := by simpa [ofIssue] using hqk
    have hold : (t.first (ofIssue c.key)).bind (·.2.answerMessageIds) = answerColumn (issueIds calls c.key) := by
      rw [hq, Option.bind_some, h.column j q hj, hqk]
    have hpack := packAnswerMessageIds_column (plain_issueIds hcalls (k := c.key)) hne
    simp only [hold, hpack]
    constructor
    · intro i
      rw [Table.get_update, Option.map_map, ← h.keys i]
      refine congrArg (fun f => Option.map f (t.get i)) (funext fun r => ?_)
      rw [Function.comp]
      split <;> rfl
    · intro i r hi
      obtain ⟨d, hd, ⟨hp, rfl⟩ | ⟨hp, hr⟩⟩ := Table.get_update_cases hi
      · have hp : d.key = c.key := by simpa [ofIssue] using hp
        have hids : addIds (issueIds calls c.key) c.messageIds ≠ [] := addIds_ne_nil hne
        rw [issueIds_concat, if_pos hp.symm, hp, answerColumn, if_neg hids]
      · have hp : d.key ≠ c.key := by simpa [ofIssue] using hp
        rw [hr, issueIds_concat, if_neg (Ne.symm hp)]
        exact h.column i d hd

/-- The table has no answers yet. -/
def Unanswered (t : FixAttempts) : Prop := ∀ i r, t.get i = some r → r.answerMessageIds = none

theorem answered_run (ht : Unanswered t) (h : ∀ c ∈ calls, PlainCall t c) :
    Answered t calls (run recordAnswer t calls) := by
  induction calls using List.reverseRecOn with
  | nil => exact ⟨fun _ => rfl, ht⟩
  | append_singleton calls c ih =>
    rw [List.forall_mem_append, List.forall_mem_singleton] at h
    rw [run_concat]
    exact (ih h.1).record h.1 h.2

/-! ## The query -/

/-- What stands between the commas of `m` stands side by side in the ids, up to the case of
ASCII letters. -/
def Resembles (m : String) (ids : List String) : Prop :=
  (foldCase m.toList).splitOn ',' <:+: ids.map fun id => foldCase id.toList

instance (m : String) (ids : List String) : Decidable (Resembles m ids) :=
  inferInstanceAs (Decidable (_ <:+: _))

theorem beforeNul_answerPattern (hm : '\x00' ∉ m.toList) : beforeNul (answerPattern m) = answerPattern m := by
  rw [beforeNul, List.takeWhile_eq_self_iff]
  intro c hc
  rw [decide_eq_true_eq]
  rintro rfl
  simp only [answerPattern, List.mem_cons, List.mem_append, List.not_mem_nil, or_false] at hc
  rcases hc with hc | hc | hc | hc | hc
  · cases hc
  · cases hc
  · rcases mem_escapeLike hc with hc | hc
    · cases hc
    · exact hm hc
  · cases hc
  · cases hc

theorem answerPattern_eq : answerPattern m = '%' :: (escapeLike (',' :: (m.toList ++ [','])) ++ ['%']) := by
  rw [escapeLike_cons, escapeLike_append, if_neg (by decide), answerPattern]
  simp [escapeLike]

/-- The query on a row, by the ids of its issue. -/
theorem answers_iff {r : Nat × AttemptRow} (hr : r.2.answerMessageIds = answerColumn ids)
    (h : ∀ id ∈ ids, Plain id) (hm : '\x00' ∉ m.toList) : answers m r = true ↔ Resembles m ids := by
  rw [answers, hr, answerColumn]
  split
  · rename_i he
    refine iff_of_false (by simp) ?_
    rw [Resembles, he, List.map_nil, List.infix_nil]
    exact List.splitOn_ne_nil _ _
  · have hfree : ∀ w ∈ (ids.map String.toList).map foldCase, ',' ∉ w := by
      intro w hw
      obtain ⟨v, hv, rfl⟩ := List.mem_map.mp hw
      exact mt comma_mem_foldCase.mp (comma_free h v hv)
    have htext : foldCase (delimited ',' (ids.map String.toList)) =
        delimited ',' ((ids.map String.toList).map foldCase) := map_delimited Char.toLower
    have hpat : foldCase (',' :: (m.toList ++ [','])) = ',' :: (foldCase m.toList ++ [',']) := by
      rw [foldCase, List.map_cons, List.map_append]
      rfl
    rw [Option.any_some, beforeNul_answerPattern hm, nul_free h, answerPattern_eq, like_escapeLike_iff,
      answerText, String.toList_ofList, htext, hpat, infix_delimited_iff hfree, Resembles, List.map_map]
    rfl

theorem resembles_of_mem (h : m ∈ ids) (hm : ',' ∉ m.toList) : Resembles m ids := by
  rw [Resembles, List.splitOn_eq_singleton (mt comma_mem_foldCase.mp hm)]
  obtain ⟨as, bs, rfl⟩ := List.append_of_mem h
  refine ⟨as.map fun id => foldCase id.toList, bs.map fun id => foldCase id.toList, ?_⟩
  simp

/-- What the lookup answers: an issue whose ids resemble the one looked up. -/
theorem resembles_of_lookup {start : FixAttempts} (h : Answered start calls t)
    (hcalls : ∀ c ∈ calls, PlainCall start c) (hm : '\x00' ∉ m.toList)
    (hk : t.lookupAnswerIssue m = some k) : Resembles m (issueIds calls k) := by
  unfold lookupAnswerIssue at hk
  split at hk
  · cases hk
  · split at hk
    · cases hk
    · obtain ⟨⟨i, r⟩, hf, rfl⟩ := Option.map_eq_some_iff.mp hk
      obtain ⟨hi, hr⟩ := Table.first_get hf
      exact (answers_iff (h.column i r hi) (plain_issueIds hcalls) hm).mp hr

/-- There is an answer when some issue's ids resemble the one looked up. -/
theorem exists_lookup {start : FixAttempts} (h : Answered start calls t)
    (hcalls : ∀ c ∈ calls, PlainCall start c) (hm : '\x00' ∉ m.toList) (hne : m ≠ "")
    (hlong : (String.ofList (answerPattern m)).utf8ByteSize ≤ likePatternLimit)
    (hrow : start.Has fun r => r.key = k) (hk : Resembles m (issueIds calls k)) :
    ∃ k', t.lookupAnswerIssue m = some k' := by
  obtain ⟨i, r, hi, rfl⟩ := h.has_key hrow
  obtain ⟨q, hq⟩ := Table.exists_first (p := answers m) hi
    ((answers_iff (h.column i r hi) (plain_issueIds hcalls) hm).mpr hk)
  refine ⟨q.2.key, ?_⟩
  rw [lookupAnswerIssue, if_neg hne, if_neg (Nat.not_lt.mpr hlong), hq]
  rfl

/-- The id that is looked up is told apart from what was recorded. -/
structure ToldApart (calls : List AnswerCall) (m : String) : Prop where
  noNul : '\x00' ∉ m.toList
  short : ∀ k, Recorded calls k m → (String.ofList (answerPattern m)).utf8ByteSize ≤ likePatternLimit
  one : ∀ k k', Recorded calls k m → Recorded calls k' m → k = k'
  own : ∀ k, Resembles m (issueIds calls k) → Recorded calls k m

/-- The lookup is exact when the recorded ids are plain and the id is told apart from them. -/
theorem lookup_exact (ht : Unanswered t) (hcalls : ∀ c ∈ calls, PlainCall t c) (hm : ToldApart calls m)
    (k : IssueKey) : (run recordAnswer t calls).lookupAnswerIssue m = some k ↔ Recorded calls k m := by
  have h := answered_run ht hcalls
  constructor
  · exact fun hk => hm.own k (resembles_of_lookup h hcalls hm.noNul hk)
  · intro hk
    have hid := plain_issueIds hcalls m (mem_issueIds.mpr hk)
    have hrow : t.Has fun r => r.key = k := by
      obtain ⟨c, hc, rfl, hmc⟩ := hk
      exact (hcalls c hc).row (List.ne_nil_of_mem hmc)
    obtain ⟨k', hk'⟩ := exists_lookup h hcalls hm.noNul hid.nonempty (hm.short k hk) hrow
      (resembles_of_mem (mem_issueIds.mpr hk) hid.noComma)
    rw [hk', hm.one k' k (hm.own k' (resembles_of_lookup h hcalls hm.noNul hk')) hk]

theorem unanswered_empty : Unanswered .empty := fun _ _ hi => by cases hi

theorem Unanswered.insert (h : Unanswered t) {row : AttemptRow} (hrow : row.answerMessageIds = none) :
    Unanswered (t.insert row) := by
  intro i r hi
  rcases Table.get_insert_cases hi with ⟨-, rfl⟩ | hi
  · exact hrow
  · exact h i r hi

theorem plainCall_insert {row : AttemptRow} (h : ∀ id ∈ ids, Plain id) :
    PlainCall (t.insert row) ⟨row.key, ids⟩ :=
  ⟨h, fun _ => Table.has_insert.mpr (.inr rfl)⟩

theorem PlainCall.insert (h : PlainCall t c) (row : AttemptRow) : PlainCall (t.insert row) c :=
  ⟨h.plain, fun hne => Table.has_insert.mpr (.inl (h.row hne))⟩

def asked : AttemptRow := .original ⟨"discord", "999000111"⟩ "DISCORD-99900011" 0 none

def askedAgain : AttemptRow := .original ⟨"discord", "999000222"⟩ "DISCORD-99900022" 0 none

def bothAsked : FixAttempts := (Table.empty.insert asked).insert askedAgain

/-- The id of the second issue's answer begins those of the first's. -/
def bothAnswered : List AnswerCall := [⟨asked.key, ["555111", "555112"]⟩, ⟨askedAgain.key, ["55511"]⟩]

theorem plain_bothAnswered : ∀ c ∈ bothAnswered, PlainCall bothAsked c := by
  have hplain (id : String) (h : id ∈ ["555111", "555112", "55511"]) : Plain id := by
    have hall : ∀ id ∈ ["555111", "555112", "55511"], id ≠ "" ∧ ',' ∉ id.toList ∧ '\x00' ∉ id.toList := by decide
    obtain ⟨hne, hcomma, hnul⟩ := hall id h
    exact ⟨hne, hcomma, hnul⟩
  refine List.forall_mem_cons.mpr ⟨.insert (plainCall_insert fun id hid => hplain id ?_) askedAgain,
    List.forall_mem_singleton.mpr (plainCall_insert fun id hid => hplain id ?_)⟩
  · exact List.mem_append_left ["55511"] hid
  · exact List.mem_append_right ["555111", "555112"] hid

theorem toldApart_bothAnswered : ToldApart bothAnswered "55511" := by
  have hrecorded {k : IssueKey} (h : Recorded bothAnswered k "55511") : k = askedAgain.key := by
    obtain ⟨c, hc, rfl, hm⟩ := h
    rcases List.mem_pair.mp hc with rfl | rfl
    · exact absurd hm (by decide)
    · rfl
  refine ⟨by decide, fun _ _ => by decide, fun k k' hk hk' => (hrecorded hk).trans (hrecorded hk').symm, fun k hk => ?_⟩
  by_cases hagain : askedAgain.key = k
  · exact ⟨_, List.mem_pair.mpr (.inr rfl), hagain, List.mem_singleton.mpr rfl⟩
  · by_cases hasked : asked.key = k
    · subst hasked
      exact absurd hk (by decide)
    · rw [issueIds, bothAnswered, List.foldl_cons, if_neg hasked, List.foldl_cons, if_neg hagain, List.foldl_nil,
        Resembles, List.map_nil, List.infix_nil] at hk
      exact absurd hk (List.splitOn_ne_nil _ _)

theorem lookup_exact_both :
    (run recordAnswer bothAsked bothAnswered).lookupAnswerIssue "55511" = some askedAgain.key ↔
      Recorded bothAnswered askedAgain.key "55511" :=
  lookup_exact ((unanswered_empty.insert rfl).insert rfl) plain_bothAnswered toldApart_bothAnswered askedAgain.key

/-- An id is found under another spelling of its letters, which was recorded for no issue. -/
theorem other_spelling_found :
    ¬ ∀ (t : FixAttempts) (calls : List AnswerCall), Unanswered t → (∀ c ∈ calls, PlainCall t c) →
      ∀ m k, (run recordAnswer t calls).lookupAnswerIssue m = some k ↔ Recorded calls k m := by
  intro h
  have hplain : ∀ id ∈ ["ABC"], Plain id := by
    rw [List.forall_mem_singleton]
    exact ⟨by decide, by decide, by decide⟩
  have ht : Unanswered (Table.empty.insert asked) := unanswered_empty.insert rfl
  have hcalls : ∀ c ∈ [(⟨asked.key, ["ABC"]⟩ : AnswerCall)], PlainCall (Table.empty.insert asked) c := by
    rw [List.forall_mem_singleton]
    exact plainCall_insert hplain
  obtain ⟨k, hk⟩ := exists_lookup (m := "abc") (k := asked.key) (answered_run ht hcalls) hcalls (by decide)
    (by decide) (by decide) (Table.has_insert.mpr (.inr rfl)) (by decide)
  obtain ⟨c, hc, -, hm⟩ := (h _ _ ht hcalls "abc" k).mp hk
  rw [List.mem_singleton.mp hc] at hm
  exact absurd hm (by decide)

end FixAttempts

end Claudear.Storage
