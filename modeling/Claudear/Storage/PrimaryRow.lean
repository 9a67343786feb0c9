import Claudear.Storage.CascadeRows

/-!
# The primary row behind every lookup

`idx_fix_attempts_unique_original` keeps at most one original per issue.
`get_attempt`, `get_attempts_batch` and `has_attempted` look an issue up by
`(source, issue_id)` alone, so they see its cascade rows too. They agree on the
original exactly while every cascade row comes after an original and is not
open under a reset one (`CascadesUnder`), and a run stays there exactly while
cascades are recorded for issues whose original is there and not reset.
-/

namespace Claudear.Storage

open Claudear.Sql Claudear.Machine

/-- The key of `idx_fix_attempts_unique_original`. -/
def AttemptRow.originalKey (r : AttemptRow) : Option IssueKey :=
  if r.cascadeRepo.isNone then some r.key else none

theorem originalKey_eq {r : AttemptRow} {k : IssueKey} {i : Nat} :
    r.originalKey = some k ↔ ofOriginal k (i, r) = true := by
  simp only [AttemptRow.originalKey, ofOriginal, ofIssue]
  cases r.cascadeRepo <;> simp

abbrev UniqueOriginal (t : FixAttempts) : Prop := Table.Unique AttemptRow.originalKey t

theorem UniqueOriginal.eq {t : FixAttempts} (h : UniqueOriginal t) {k : IssueKey} {i j : Nat}
    {r q : AttemptRow} (hi : t.get i = some r) (hj : t.get j = some q)
    (hr : ofOriginal k (i, r) = true) (hq : ofOriginal k (j, q) = true) : i = j ∧ r = q := by
  have hij : i = j := h hi hj (originalKey_eq.mpr hr) (originalKey_eq.mpr hq)
  subst hij
  exact ⟨rfl, Option.some.inj (hi.symm.trans hj)⟩

theorem Call.originalKey_rewrite (t : FixAttempts) (c : Call) (r : Nat × AttemptRow) :
    (c.rewrite t r).originalKey = r.2.originalKey := by
  simp only [AttemptRow.originalKey, c.rewrite_key t r, c.rewrite_cascadeRepo t r]

/-- A row is inserted without `cascade_repo` only when its issue has no original. -/
theorem Call.inserted_fresh {t : FixAttempts} {c : Call} {r : AttemptRow} {k : IssueKey}
    (h : c.inserted t = some r) (hk : r.originalKey = some k) : t.first (ofOriginal k) = none := by
  rcases Call.inserted_cases h with ⟨k', shortId, labels, -, hf, rfl⟩ | ⟨k', shortId, p, repo, -, -, -, rfl⟩
  · have : k' = k := by simpa [AttemptRow.originalKey, AttemptRow.original] using hk
    rwa [← this]
  · simp [AttemptRow.originalKey, AttemptRow.cascade] at hk

theorem UniqueOriginal.exec {t : FixAttempts} (h : UniqueOriginal t) (c : Call) :
    UniqueOriginal (t.exec c) := by
  intro i j r q k hi hj hr hq
  rcases FixAttempts.get_exec_cases hi with ⟨r0, hi0, rfl⟩ | ⟨ei, hri⟩ <;>
    rcases FixAttempts.get_exec_cases hj with ⟨q0, hj0, rfl⟩ | ⟨ej, hqj⟩
  · rw [Call.originalKey_rewrite] at hr hq
    exact h hi0 hj0 hr hq
  · rw [Call.originalKey_rewrite] at hr
    have hn := Table.first_eq_none.mp (Call.inserted_fresh hqj hq) i r0 hi0
    rw [originalKey_eq.mp hr] at hn
    cases hn
  · rw [Call.originalKey_rewrite] at hq
    have hn := Table.first_eq_none.mp (Call.inserted_fresh hri hr) j q0 hj0
    rw [originalKey_eq.mp hq] at hn
    cases hn
  · rw [ei, ej]

theorem uniqueOriginal_tracked (l : List Call) : UniqueOriginal (tracked l) :=
  run_inv (P := UniqueOriginal) (fun _ c h => UniqueOriginal.exec h c) Table.unique_empty l

/-! ## What the lookups see -/

/-- Every lookup of `k` sees the issue's original, and nothing else. -/
structure PrimarySeen (t : FixAttempts) (k : IssueKey) : Prop where
  attempt : ∀ i r, t.get i = some r → ofOriginal k (i, r) = true →
    t.getAttempt k = some (rowToFixAttempt (i, r))
  neverCascade : ∀ a, t.getAttempt k = some a → a.cascadeRepo = none
  batch : ∀ (ks : List IssueKey) (n : Nat), ks[n]? = some k →
    (t.getAttemptsBatch ks)[n]? = some (t.getAttempt k)
  attempted : t.hasAttempted k = true ↔
    ∃ i r, t.get i = some r ∧ ofOriginal k (i, r) = true ∧ r.resetAt.isNone

/-- The cascade rows of `k` come after an original, and an open one is not under a reset one. -/
structure CascadesUnder (t : FixAttempts) (k : IssueKey) : Prop where
  led : ∀ i r, t.get i = some r → r.key = k → r.cascadeRepo.isSome →
    ∃ j q, j < i ∧ t.get j = some q ∧ ofOriginal k (j, q) = true
  under : ∀ i r j q, t.get i = some r → r.key = k → r.cascadeRepo.isSome → r.resetAt.isNone →
    t.get j = some q → ofOriginal k (j, q) = true → q.resetAt.isNone

theorem ofOriginal_iff {k : IssueKey} {r : Nat × AttemptRow} :
    ofOriginal k r = true ↔ r.2.key = k ∧ r.2.cascadeRepo = none := by
  simp [ofOriginal, ofIssue]

theorem getAttemptsBatch_getElem? {t : FixAttempts} {k : IssueKey} {ks : List IssueKey} {n : Nat}
    (h : ks[n]? = some k) : (t.getAttemptsBatch ks)[n]? = some (t.getAttempt k) := by
  have hne : ks.isEmpty = false := by
    cases ks with
    | nil => simp at h
    | cons => rfl
  simp [FixAttempts.getAttemptsBatch, FixAttempts.getAttempt, hne, h]

variable {t : FixAttempts} {k : IssueKey}

/-- The first row of an issue whose cascades come after an original is the original. -/
theorem CascadesUnder.first_original (h : CascadesUnder t k) {j : Nat} {q : AttemptRow}
    (hf : t.first (ofIssue k) = some (j, q)) : ofOriginal k (j, q) = true := by
  obtain ⟨hq, hk⟩ := Table.first_get hf
  have hk' : q.key = k := by simpa [ofIssue] using hk
  rw [ofOriginal_iff]
  refine ⟨hk', ?_⟩
  by_contra hc
  obtain ⟨j', q', hlt, hq', ho⟩ := h.led j q hq hk' (Option.isSome_iff_ne_none.mpr hc)
  have hle := Table.first_le hf hq' (by simpa [ofIssue] using (ofOriginal_iff.mp ho).1)
  omega

theorem CascadesUnder.primarySeen (hu : UniqueOriginal t) (h : CascadesUnder t k) : PrimarySeen t k where
  attempt i r hi ho := by
    have hk : ofIssue k (i, r) = true := by simpa [ofIssue] using (ofOriginal_iff.mp ho).1
    obtain ⟨⟨j, q⟩, hf⟩ := Table.exists_first hi hk
    obtain ⟨rfl, rfl⟩ := hu.eq (Table.first_get hf).1 hi (h.first_original hf) ho
    rw [FixAttempts.getAttempt, hf, Option.map_some]
  neverCascade a ha := by
    rw [FixAttempts.getAttempt, Option.map_eq_some_iff] at ha
    obtain ⟨⟨j, q⟩, hf, rfl⟩ := ha
    exact (ofOriginal_iff.mp (h.first_original hf)).2
  batch _ _ hn := getAttemptsBatch_getElem? hn
  attempted := by
    rw [FixAttempts.hasAttempted, Table.any_eq_true]
    constructor
    · rintro ⟨i, r, hi, hr⟩
      obtain ⟨hk, hopen⟩ := Bool.and_eq_true_iff.mp hr
      have hk' : r.key = k := by simpa [ofIssue] using hk
      cases hc : r.cascadeRepo with
      | none => exact ⟨i, r, hi, ofOriginal_iff.mpr ⟨hk', hc⟩, hopen⟩
      | some repo =>
        have hsome : r.cascadeRepo.isSome := by rw [hc]; rfl
        obtain ⟨j, q, -, hj, ho⟩ := h.led i r hi hk' hsome
        exact ⟨j, q, hj, ho, h.under i r j q hi hk' hsome hopen hj ho⟩
    · rintro ⟨i, r, hi, ho, hopen⟩
      have hk : ofIssue k (i, r) = true := by simpa [ofIssue] using (ofOriginal_iff.mp ho).1
      exact ⟨i, r, hi, Bool.and_eq_true_iff.mpr ⟨hk, hopen⟩⟩

theorem PrimarySeen.cascadesUnder (hu : UniqueOriginal t) (h : PrimarySeen t k) : CascadesUnder t k where
  led i r hi hk hc := by
    have hm : ofIssue k (i, r) = true := by simpa [ofIssue] using hk
    obtain ⟨⟨j, q⟩, hf⟩ := Table.exists_first hi hm
    obtain ⟨hj, hjk⟩ := Table.first_get hf
    have hq : q.cascadeRepo = none :=
      h.neverCascade (rowToFixAttempt (j, q)) (by rw [FixAttempts.getAttempt, hf, Option.map_some])
    have hne : j ≠ i := by
      rintro rfl
      rw [hi, Option.some.injEq] at hj
      subst hj
      simp [hq] at hc
    have hle := Table.first_le hf hi hm
    exact ⟨j, q, by omega, hj, ofOriginal_iff.mpr ⟨by simpa [ofIssue] using hjk, hq⟩⟩
  under i r j q hi hk hc hopen hj ho := by
    have hm : ofIssue k (i, r) = true := by simpa [ofIssue] using hk
    have ha : t.hasAttempted k = true :=
      Table.any_eq_true.mpr ⟨i, r, hi, Bool.and_eq_true_iff.mpr ⟨hm, hopen⟩⟩
    obtain ⟨j', q', hj', ho', hopen'⟩ := h.attempted.mp ha
    obtain ⟨-, rfl⟩ := hu.eq hj' hj ho' ho
    exact hopen'

theorem primarySeen_iff (hu : UniqueOriginal t) : PrimarySeen t k ↔ CascadesUnder t k :=
  ⟨fun h => h.cascadesUnder hu, fun h => h.primarySeen hu⟩

/-! ## Runs that keep the lookups on the original -/

/-- A cascade row is only added for an issue whose original is there and not reset. -/
def cascadesOpenIssue (t : FixAttempts) (c : Call) : Bool :=
  match c.op with
  | .recordCascadeAttempt k _ parentAttemptId cascadeRepo =>
    (t.first (FixAttempts.openCascade k cascadeRepo)).isSome || (t.get parentAttemptId).isNone ||
      t.any fun r => ofOriginal k r && r.2.resetAt.isNone
  | _ => true

/-- Only a reset closes a row to the lookups. -/
theorem Call.rewrite_open (t : FixAttempts) {c : Call} {r : Nat × AttemptRow} (h : r.2.resetAt.isNone)
    (hc : c.op ≠ .resetAttempt r.2.key) : (c.rewrite t r).resetAt.isNone := by
  obtain ⟨now, op⟩ := c
  cases op with
  | resetAttempt k =>
    have hk : ofIssue k r = false := by simpa [ofIssue, eq_comm] using hc
    simpa [Call.rewrite, hk] using h
  | recordCascadeAttempt => exact h
  | _ =>
    simp only [Call.rewrite]
    split_ifs <;> first | exact h | rfl

/-- A cascade row stays closed once it is: no call takes it up again. -/
theorem Call.open_of_rewrite {t : FixAttempts} {c : Call} {r : Nat × AttemptRow}
    (hr : r.2.cascadeRepo.isSome) (h : (c.rewrite t r).resetAt.isNone) :
    r.2.resetAt.isNone ∧ c.op ≠ .resetAttempt r.2.key := by
  have ho := ofOriginal_cascade hr
  obtain ⟨now, op⟩ := c
  cases op with
  | resetAttempt k =>
    simp only [Call.rewrite] at h
    split at h
    · cases h
    · rename_i hk
      exact ⟨h, by simpa [ofIssue, eq_comm] using hk⟩
  | recordAttemptWithLabels => exact ⟨by simpa [Call.rewrite, ho] using h, by simp⟩
  | recordCascadeAttempt => exact ⟨h, by simp⟩
  | _ => exact ⟨by simp only [Call.rewrite] at h; split_ifs at h <;> exact h, by simp⟩

theorem Call.ofOriginal_rewrite {t : FixAttempts} (c : Call) {i : Nat} {r : AttemptRow}
    (h : ofOriginal k (i, r) = true) : ofOriginal k (i, c.rewrite t (i, r)) = true := by
  rw [ofOriginal_iff] at h ⊢
  exact ⟨(c.rewrite_key t (i, r)).trans h.1, (c.rewrite_cascadeRepo t (i, r)).trans h.2⟩

/-- An inserted cascade row is led by an original that is not reset. -/
theorem inserted_cascade {c : Call} {r : AttemptRow} (hc : cascadesOpenIssue t c = true)
    (hins : c.inserted t = some r) (hk : r.key = k) (hr : r.cascadeRepo.isSome) :
    c.op ≠ .resetAttempt k ∧
      ∃ j q, t.get j = some q ∧ ofOriginal k (j, q) = true ∧ q.resetAt.isNone := by
  rcases Call.inserted_cases hins with
    ⟨k', shortId, labels, -, hf, rfl⟩ | ⟨k', shortId, p, repo, hop, hf, hp, rfl⟩
  · simp [AttemptRow.original] at hr
  · have hk' : k' = k := hk
    subst hk'
    have hp' : (t.get p).isNone = false := by simpa using hp
    simp only [cascadesOpenIssue, hop, hf, hp', Option.isSome_none, Bool.or_self, Bool.false_or] at hc
    obtain ⟨j, q, hj, hq⟩ := Table.any_eq_true.mp hc
    obtain ⟨ho, hopen⟩ := Bool.and_eq_true_iff.mp hq
    exact ⟨by rw [hop]; simp, j, q, hj, ho, hopen⟩

theorem CascadesUnder.exec (hu : UniqueOriginal t) (h : CascadesUnder t k) {c : Call}
    (hc : cascadesOpenIssue t c = true) : CascadesUnder (t.exec c) k where
  led i r' hi hk hr := by
    rcases FixAttempts.get_exec_cases hi with ⟨r, hi0, rfl⟩ | ⟨rfl, hins⟩
    · rw [c.rewrite_key] at hk
      rw [c.rewrite_cascadeRepo] at hr
      obtain ⟨j, q, hlt, hj, ho⟩ := h.led i r hi0 hk hr
      exact ⟨j, _, hlt, FixAttempts.get_exec_of hj c, c.ofOriginal_rewrite ho⟩
    · obtain ⟨-, j, q, hj, ho, -⟩ := inserted_cascade hc hins hk hr
      exact ⟨j, _, Table.lt_next hj, FixAttempts.get_exec_of hj c, c.ofOriginal_rewrite ho⟩
  under i r' j q' hi hk hr hopen hj ho := by
    rcases FixAttempts.get_exec_cases hi with ⟨r, hi0, rfl⟩ | ⟨rfl, hri⟩ <;>
      rcases FixAttempts.get_exec_cases hj with ⟨q, hj0, rfl⟩ | ⟨rfl, hqj⟩
    · rw [c.rewrite_key] at hk
      rw [c.rewrite_cascadeRepo] at hr
      obtain ⟨hopen0, hop⟩ := Call.open_of_rewrite hr hopen
      rw [ofOriginal_iff, c.rewrite_key, c.rewrite_cascadeRepo] at ho
      have hq := h.under i r j q hi0 hk hr hopen0 hj0 (ofOriginal_iff.mpr ho)
      exact Call.rewrite_open t hq (by rw [show q.key = r.key from ho.1.trans hk.symm]; exact hop)
    · -- the new original would be a second one
      rw [c.rewrite_key] at hk
      rw [c.rewrite_cascadeRepo] at hr
      obtain ⟨j0, q0, -, hj0, ho0⟩ := h.led i r hi0 hk hr
      have hn := Table.first_eq_none.mp (Call.inserted_fresh hqj (originalKey_eq.mpr ho)) j0 q0 hj0
      rw [ho0] at hn
      cases hn
    · obtain ⟨hop, j0, q0, hj0', ho0, hopen0⟩ := inserted_cascade hc hri hk hr
      rw [ofOriginal_iff, c.rewrite_key, c.rewrite_cascadeRepo] at ho
      obtain ⟨rfl, rfl⟩ := hu.eq hj0' hj0 ho0 (ofOriginal_iff.mpr ho)
      exact Call.rewrite_open t hopen0 (by rw [show q0.key = k from ho.1]; exact hop)
    · obtain rfl : r' = q' := Option.some.inj (hri.symm.trans hqj)
      have hn : r'.cascadeRepo = none := (ofOriginal_iff.mp ho).2
      rw [hn] at hr
      cases hr

/-- A cascade recorded under no open original is seen in the original's place. -/
theorem cascadesOpenIssue_of_exec {c : Call} (h : ∀ k, CascadesUnder (t.exec c) k) :
    cascadesOpenIssue t c = true := by
  obtain ⟨now, op⟩ := c
  cases op with
  | recordCascadeAttempt k shortId p repo =>
    by_contra hc
    simp only [cascadesOpenIssue, Bool.not_eq_true, Bool.or_eq_false_iff] at hc
    obtain ⟨⟨hf, hp⟩, hany⟩ := hc
    have hins : Call.inserted t ⟨now, .recordCascadeAttempt k shortId p repo⟩ =
        some (.cascade k shortId now p repo) := by
      simp [Call.inserted, Option.isSome_eq_false_iff.mp hf, Option.isNone_eq_false_iff.mp hp]
    have hnew := FixAttempts.get_exec_inserted hins
    obtain ⟨j, q, hlt, hj, ho⟩ := (h k).led _ _ hnew rfl rfl
    have hopen := (h k).under _ _ j q hnew rfl rfl rfl hj ho
    rcases FixAttempts.get_exec_cases hj with ⟨q0, hj0, hq⟩ | ⟨rfl, -⟩
    · have hq : q = q0 := hq
      subst hq
      have hopens : (t.any fun r => ofOriginal k r && r.2.resetAt.isNone) = true :=
        Table.any_eq_true.mpr ⟨j, q, hj0, Bool.and_eq_true_iff.mpr ⟨ho, hopen⟩⟩
      rw [hany] at hopens
      cases hopens
    · exact absurd hlt (Nat.lt_irrefl _)
  | _ => rfl

/-- There is one original per issue at most, and every lookup sees it. -/
def LookupsAgree (t : FixAttempts) : Prop := UniqueOriginal t ∧ ∀ k, PrimarySeen t k

theorem lookupsAgree_exec (h : LookupsAgree t) (c : Call) :
    LookupsAgree (t.exec c) ↔ cascadesOpenIssue t c = true := by
  have hu' := UniqueOriginal.exec h.1 c
  constructor
  · intro h'
    exact cascadesOpenIssue_of_exec fun k => (h'.2 k).cascadesUnder hu'
  · intro hc
    exact ⟨hu', fun k => (((h.2 k).cascadesUnder h.1).exec h.1 hc).primarySeen hu'⟩

theorem lookupsAgree_empty : LookupsAgree Table.empty := by
  refine ⟨Table.unique_empty, fun k => ?_⟩
  rw [primarySeen_iff Table.unique_empty]
  exact ⟨fun i r hi => by simp at hi, fun i r j q hi => by simp at hi⟩

/-- From an empty table, the lookups see the originals in every state of a run exactly if every
cascade row is recorded under an original that is not reset. -/
theorem lookupsAgree_always_iff (l : List Call) :
    Always FixAttempts.exec LookupsAgree Table.empty l ↔
      Along FixAttempts.exec (fun t c => cascadesOpenIssue t c = true) Table.empty l :=
  always_iff_along (fun _ c h => lookupsAgree_exec h c) lookupsAgree_empty

/-- An issue that is reset while its fix is still cascading. -/
def resetWhileCascading : List Call :=
  [⟨0, .recordAttemptWithLabels ⟨"linear", "ENG-1"⟩ "ENG-1" []⟩, ⟨1, .resetAttempt ⟨"linear", "ENG-1"⟩⟩,
    ⟨2, .recordCascadeAttempt ⟨"linear", "ENG-1"⟩ "ENG-1" 1 "org/client"⟩]

/-- The issue counts as attempted, though its original is reset. -/
theorem reset_hidden_by_cascade : ¬ LookupsAgree (tracked resetWhileCascading) := by
  rintro ⟨hu, h⟩
  obtain ⟨i, r, hi, ho, hopen⟩ := (h ⟨"linear", "ENG-1"⟩).attempted.mp (by decide)
  have hone : (tracked resetWhileCascading).get 1 = some
      { key := ⟨"linear", "ENG-1"⟩, shortId := "ENG-1", attemptedAt := 1, resetAt := some 1 } := by
    decide
  obtain ⟨-, rfl⟩ := hu.eq hi hone ho (by decide)
  cases hopen

end Claudear.Storage
