import Claudear.Distribution.Ownership

/-!
# What the ranking keeps

A signal's column is its weight times a share. The shares of the authors are
at most one, and so are those of the code owners as long as no developer is
found by two keys of one file. A requester's share is the sum of `1 / (p + 1)`
over the positions `p` at which they are named: more than one for whoever is
named first and again under another login (`rank_sound_iff`).
-/

namespace Claudear.Distribution

open Claudear.Data Claudear.Text

variable {U : CaseProps} {r : Roster} {E : Evidence} {login k : String} {signal : AssignmentReason}
  {pts : Points} {d d' : Developer}

/-! ## The points of evidence whose lookups are all in range -/

/-- A map that fails exactly where `p` does not hold. -/
theorem mapM_ite {α β : Type*} {f : α → Option β} {g : α → β} (p : α → Prop) [DecidablePred p]
    (h : ∀ a, f a = if p a then some (g a) else none) (l : List α) :
    l.mapM f = if ∀ a ∈ l, p a then some (l.map g) else none := by
  induction l with
  | nil => rfl
  | cons a l ih =>
    rw [List.mapM_cons, h, ih]
    by_cases ha : p a
    · by_cases hl : ∀ b ∈ l, p b
      · rw [if_pos ha, if_pos hl, if_pos (List.forall_mem_cons.mpr ⟨ha, hl⟩)]
        rfl
      · rw [if_pos ha, if_neg hl, if_neg fun h => hl (List.forall_mem_cons.mp h).2]
        rfl
    · rw [if_neg ha, if_neg fun h => ha (List.forall_mem_cons.mp h).1]
      rfl

variable (U) in
/-- The owner's login on the roster, or else what they are called in lower case. -/
def Roster.keyOf (r : Roster) (owner : String) : String :=
  (r.given U owner).getD (toLowercase U owner)

theorem ownerKey_eq (owner : String) :
    r.ownerKey U owner = if r.find U owner ≠ none then some (r.keyOf U owner) else none := by
  unfold Roster.ownerKey Roster.keyOf Roster.given
  rcases r.find U owner with _ | _ | d <;> rfl

/-- The owners of the files, as CODEOWNERS has them. -/
def Evidence.owners (E : Evidence) : List String :=
  match E.codeowners with
  | none => []
  | some owners => E.files.flatMap owners

variable (U) in
/-- The distinct keys of every file's owners. -/
def Evidence.ownedBy (E : Evidence) (r : Roster) : List (List String) :=
  match E.codeowners with
  | none => []
  | some owners => E.files.map fun file => distinct ((owners file).map (r.keyOf U))

theorem fileOwners_eq : E.fileOwners U r =
    if ∀ owner ∈ E.owners, r.find U owner ≠ none then some (E.ownedBy U r) else none := by
  unfold Evidence.fileOwners Evidence.owners Evidence.ownedBy
  cases E.codeowners with
  | none => simp
  | some owners =>
    have hk (file : String) : r.ownerKeys U (owners file) =
        if ∀ owner ∈ owners file, r.find U owner ≠ none then
          some (distinct ((owners file).map (r.keyOf U))) else none := by
      rw [Roster.ownerKeys, mapM_ite _ ownerKey_eq]
      split <;> rfl
    refine (mapM_ite _ hk E.files).trans (if_congr ?_ rfl rfl)
    simp only [List.mem_flatMap, forall_exists_index, and_imp]
    exact ⟨fun h owner file hf ho => h file hf owner ho, fun h file hf owner ho => h owner file hf ho⟩

variable (U) in
/-- No login that the evidence looks up is found past the end of the roster. -/
def Evidence.InRange (E : Evidence) (r : Roster) : Prop :=
  ∀ login ∈ E.requesterKeys U ++ E.owners ++ (E.ownedBy U r).flatten ++ E.fileAuthors ++
    E.repositoryAuthors, r.find U login ≠ none

theorem map_fst_awards (owned : List (List String)) : (E.awards U owned).map Prod.fst =
    E.requesterKeys U ++ owned.flatten ++ E.fileAuthors ++ E.repositoryAuthors := by
  have hz : (E.requesterKeys U).zipIdx.map (fun p => p.1) = E.requesterKeys U :=
    List.zipIdx_map_fst ..
  simp [Evidence.awards, Evidence.requesterAwards, Evidence.authorAwards, Function.comp_def, hz]

variable (U) in
/-- The points of evidence that is in range. -/
def Evidence.tally (E : Evidence) (r : Roster) : Points :=
  ((E.awards U (E.ownedBy U r)).filterMap (r.credited U)).foldl Tally.credit []

theorem points_of_inRange (h : E.InRange U r) : E.points U r = some (E.tally U r) := by
  have ho : ∀ owner ∈ E.owners, r.find U owner ≠ none := fun owner ho => h owner (by simp [ho])
  have ha : ∀ a ∈ E.awards U (E.ownedBy U r), r.find U a.1 ≠ none := by
    intro a ha
    have hm := List.mem_map_of_mem (f := Prod.fst) ha
    rw [map_fst_awards] at hm
    refine h a.1 ?_
    simp only [List.mem_append] at hm ⊢
    tauto
  rw [Evidence.points, fileOwners_eq, if_pos ho]
  refine (foldlM_award _).trans ?_
  rw [if_pos ha]
  rfl

theorem inRange_of_points (h : E.points U r = some pts) : E.InRange U r := by
  rw [Evidence.points, fileOwners_eq] at h
  split at h
  · rename_i ho
    have h' : (E.awards U (E.ownedBy U r)).foldlM (r.award U) [] = some pts := h
    rw [foldlM_award] at h'
    split at h'
    · rename_i ha
      have ha' : ∀ login ∈ (E.awards U (E.ownedBy U r)).map Prod.fst, r.find U login ≠ none :=
        List.forall_mem_map.mpr ha
      rw [map_fst_awards] at ha'
      intro login hl
      simp only [List.mem_append] at hl ha'
      rcases hl with (((hl | hl) | hl) | hl) | hl
      · exact ha' login (.inl (.inl (.inl hl)))
      · exact ho login hl
      · exact ha' login (.inl (.inl (.inr hl)))
      · exact ha' login (.inl (.inr hl))
      · exact ha' login (.inr hl)
    · cases h'
  · cases h

theorem nodup_tally : (E.tally U r).keys.Nodup := Tally.nodup_keys_foldl List.nodup_nil

theorem total_tally : (E.tally U r).total login signal =
    column U r (E.awards U (E.ownedBy U r)) login signal := by
  rw [Evidence.tally, Tally.total_foldl, Tally.total_nil, zero_add]
  rfl

theorem given_eq_some : r.given U k = some login ↔ ∃ d, r.find U k = some (some d) ∧ d.login = login := by
  unfold Roster.given
  rcases r.find U k with _ | _ | d <;> simp

theorem find_mem (h : r.find U k = some (some d)) : d ∈ r.developers := by
  unfold Roster.find at h
  split at h
  · cases h
  · rename_i i _
    obtain ⟨e, he, hd⟩ := Option.map_eq_some_iff.mp h
    cases hd
    exact List.mem_of_getElem? he

/-- Only developers of the roster have points. -/
theorem mem_keys_tally (h : login ∈ (E.tally U r).keys) : ∃ d ∈ r.developers, d.login = login := by
  rcases Tally.mem_keys_foldl.mp h with h | ⟨p, hp, rfl⟩
  · simp [Tally.keys] at h
  · obtain ⟨a, -, ha⟩ := List.mem_filterMap.mp hp
    obtain ⟨l, hl, rfl⟩ := Option.map_eq_some_iff.mp ha
    obtain ⟨d, hd, rfl⟩ := given_eq_some.mp hl
    exact ⟨d, find_mem hd, rfl⟩

/-! ## Shares -/

theorem authored_le_one (authors : List String) : authored U r authors login ≤ 1 := by
  rw [authored, div_le_one (by positivity), Nat.cast_le]
  exact le_max_of_le_left List.countP_le_length

theorem authored_nonneg (authors : List String) : 0 ≤ authored U r authors login := by
  unfold authored
  positivity

theorem requested_nonneg : 0 ≤ requested U r E login := by
  refine List.sum_nonneg fun x hx => ?_
  obtain ⟨p, -, rfl⟩ := List.mem_map.mp hx
  positivity

/-- Whoever is named first has the whole weight. -/
theorem one_le_requested (h0 : (E.requesterKeys U)[0]? = some k) (h : r.given U k = some login) :
    1 ≤ requested U r E login := by
  unfold requested
  have hm : (k, 0) ∈ (E.requesterKeys U).zipIdx.filter fun p => r.given U p.1 = some login := by
    rw [List.mem_filter, List.mk_mem_zipIdx_iff_getElem?]
    exact ⟨h0, decide_eq_true h⟩
  have hle := List.single_le_sum (l := ((E.requesterKeys U).zipIdx.filter fun p =>
      r.given U p.1 = some login).map fun p => 1 / ((p.2 : ℚ) + 1)) (fun x hx => by
    obtain ⟨p, -, rfl⟩ := List.mem_map.mp hx
    positivity) (1 / (((0 : ℕ) : ℚ) + 1)) (List.mem_map.mpr ⟨(k, 0), hm, rfl⟩)
  simpa using hle

theorem requested_eq_zero (h : ∀ key ∈ E.requesterKeys U, r.given U key ≠ some login) :
    requested U r E login = 0 := by
  unfold requested
  rw [List.filter_eq_nil_iff.mpr]
  · rfl
  · intro p hp
    have hm := List.fst_mem_of_mem_zipIdx hp
    simpa using h p.1 hm

theorem ownedBy_eq_nil (h : E.files.length = 0) : E.ownedBy U r = [] := by
  unfold Evidence.ownedBy
  rw [List.length_eq_zero_iff] at h
  rw [h]
  cases E.codeowners <;> rfl

/-- The owner column is within its weight when there are no more keys than files. -/
theorem owns_le_iff : (owns U r (E.ownedBy U r) login : ℚ) / max E.files.length 1 ≤ 1 ↔
    owns U r (E.ownedBy U r) login ≤ E.files.length := by
  rw [div_le_one (by positivity), Nat.cast_le]
  rcases Nat.eq_zero_or_pos E.files.length with h | h
  · simp [ownedBy_eq_nil h, owns]
  · rw [max_eq_left h]

theorem total_le_weight (h : requested U r E login ≤ 1)
    (ho : owns U r (E.ownedBy U r) login ≤ E.files.length) (signal : AssignmentReason) :
    (E.tally U r).total login signal ≤ signal.weight := by
  have hw := owns_le_iff.mpr ho
  have hf : authored U r E.fileAuthors login ≤ 1 := authored_le_one _
  have hr : authored U r E.repositoryAuthors login ≤ 1 := authored_le_one _
  rw [total_tally, column_awards]
  cases signal <;> simp only [AssignmentReason.weight, REQUESTER_WEIGHT, CODE_OWNER_WEIGHT,
    AUTHOR_WEIGHT, ACTIVITY_WEIGHT] <;> linarith

theorem total_nonneg (signal : AssignmentReason) : 0 ≤ (E.tally U r).total login signal := by
  have hq : 0 ≤ requested U r E login := requested_nonneg
  have hf : 0 ≤ authored U r E.fileAuthors login := authored_nonneg _
  have hr : 0 ≤ authored U r E.repositoryAuthors login := authored_nonneg _
  rw [total_tally, column_awards]
  cases signal <;> simp only [REQUESTER_WEIGHT, CODE_OWNER_WEIGHT, AUTHOR_WEIGHT,
    ACTIVITY_WEIGHT] <;> positivity

theorem score_eq (signals : AssignmentReason → ℚ) : score signals =
    signals .requester + signals .codeOwner + signals .author + signals .activity := by
  simp only [score, SIGNALS, List.map_cons, List.map_nil, List.sum_cons, List.sum_nil]
  ring

/-! ## The ranking -/

theorem mem_ranking {c : Candidate ℚ} :
    c ∈ ranking U pts ↔ (∃ entry ∈ pts, candidate entry = c) ∧ 0 < c.score := by
  rw [ranking, List.mem_mergeSort, List.mem_filter, List.mem_map, decide_eq_true_eq]

/-- In the ranking a candidate with a lower score stands below. -/
theorem above_le_score {above below : List (Candidate ℚ)} {c c' : Candidate ℚ}
    (h : ranking U pts = above ++ c :: below) (hc : c' ∈ above) : c.score ≤ c'.score := by
  have hs : (ranking U pts).Pairwise fun a b => rankKey U a ≤ rankKey U b :=
    pairwise_mergeSort_key _
  rw [h, List.pairwise_append] at hs
  have hle := hs.2.2 c' hc c List.mem_cons_self
  rcases Prod.Lex.toLex_le_toLex.mp hle with hlt | ⟨he, -⟩
  · exact le_of_lt hlt
  · exact le_of_eq he.symm

/-- Where no login is spelled twice, the iteration order makes no difference. -/
theorem ranking_perm {order : Points} (hn : (pts.keys.map (toLowercase U)).Nodup)
    (hp : order.Perm pts) : ranking U order = ranking U pts := by
  have hk : ((pts.map candidate).map fun c => toLowercase U c.login).Nodup := by
    rw [List.map_map]
    rw [Tally.keys, List.map_map] at hn
    exact hn
  have hf : (((pts.map candidate).filter fun c => 0 < c.score).map (rankKey U)).Nodup := by
    refine List.Nodup.of_map (fun key => (ofLex key).2) ?_
    rw [List.map_map]
    exact hk.sublist (List.filter_sublist.map _)
  exact (mergeSort_key_congr hf ((hp.map candidate).symm.filter _)).symm

/-- No signal is above its weight, whoever is the closest requester stands above everybody who is
no requester, and the order of the hash map makes no difference. -/
structure RanksWell (U : CaseProps) (r : Roster) (E : Evidence) (points : Points) : Prop where
  weights : ∀ entry ∈ points, ∀ signal ∈ SIGNALS, entry.2 signal ≤ signal.weight
  closest : ∀ d d', (∃ key, (E.requesterKeys U)[0]? = some key ∧ r.find U key = some (some d)) →
    d' ∈ r.developers → (∀ key ∈ E.requesterKeys U, r.find U key ≠ some (some d')) →
    ∃ above c below, ranking U points = above ++ c :: below ∧ c.login = d.login ∧
      (∀ c' ∈ above, c'.login ≠ d'.login) ∧
      ∀ c' ∈ below, c'.login = d'.login → c'.score < c.score
  order : ∀ order : Points, order.Perm points → ranking U order = ranking U points

section Entries

variable {entries : List Entry}

/-- No two developers of a roster have the same login in lower case. -/
theorem nodup_logins (entries : List Entry) :
    ((Roster.fromEntries U entries).developers.map fun d => toLowercase U d.login).Nodup := by
  rw [(fromEntries_spec entries).1, List.map_map]
  exact nodup_owners entries

theorem eq_of_login (h : d ∈ (Roster.fromEntries U entries).developers)
    (h' : d' ∈ (Roster.fromEntries U entries).developers) (he : d.login = d'.login) : d = d' :=
  List.inj_on_of_nodup_map (nodup_logins entries) h h' (congrArg _ he)

theorem nodup_keys_tally :
    ((E.tally U (Roster.fromEntries U entries)).keys.map (toLowercase U)).Nodup := by
  refine List.Nodup.map_on (fun k hk k' hk' he => ?_) nodup_tally
  obtain ⟨d, hd, rfl⟩ := mem_keys_tally hk
  obtain ⟨d', hd', rfl⟩ := mem_keys_tally hk'
  rw [List.inj_on_of_nodup_map (nodup_logins entries) hd hd' he]

/-- The closest requester has the whole weight of the signal, nobody else more than the rest. -/
theorem closest_ranks_above
    (hs : ∀ d ∈ (Roster.fromEntries U entries).developers,
      requested U (Roster.fromEntries U entries) E d.login ≤ 1 ∧
        owns U (Roster.fromEntries U entries) (E.ownedBy U (Roster.fromEntries U entries)) d.login ≤
          E.files.length)
    (h0 : (E.requesterKeys U)[0]? = some k)
    (hf : (Roster.fromEntries U entries).find U k = some (some d))
    (hd' : d' ∈ (Roster.fromEntries U entries).developers)
    (hn : ∀ key ∈ E.requesterKeys U, (Roster.fromEntries U entries).find U key ≠ some (some d')) :
    ∃ above c below, ranking U (E.tally U (Roster.fromEntries U entries)) = above ++ c :: below ∧
      c.login = d.login ∧ (∀ c' ∈ above, c'.login ≠ d'.login) ∧
      ∀ c' ∈ below, c'.login = d'.login → c'.score < c.score := by
  set r := Roster.fromEntries U entries with hr'
  set t := E.tally U r with ht
  have hfull : REQUESTER_WEIGHT ≤ t.total d.login .requester := by
    rw [ht, total_tally, column_awards]
    have := one_le_requested h0 (given_eq_some.mpr ⟨d, hf, rfl⟩)
    simp only [REQUESTER_WEIGHT]
    linarith
  have hnone : t.total d'.login .requester = 0 := by
    rw [ht, total_tally, column_awards, requested_eq_zero, mul_zero]
    intro key hk hg
    obtain ⟨d'', hd'', he⟩ := given_eq_some.mp hg
    rw [eq_of_login (find_mem hd'') hd' he] at hd''
    exact hn key hk hd''
  have hmem : d.login ∈ t.keys := by
    by_contra hc
    rw [Tally.total_of_notMem hc, REQUESTER_WEIGHT] at hfull
    norm_num at hfull
  obtain ⟨⟨l, signals⟩, hm, hl⟩ := List.mem_map.mp hmem
  cases hl
  have hsig : t.total d.login = signals := Tally.total_of_mem nodup_tally hm
  have hscore : REQUESTER_WEIGHT ≤ (candidate (d.login, signals)).score := by
    have hc (signal : AssignmentReason) : 0 ≤ t.total d.login signal := total_nonneg signal
    rw [candidate, score_eq, ← hsig]
    linarith [hc .codeOwner, hc .author, hc .activity]
  have hlow : ∀ c' ∈ ranking U t, c'.login = d'.login → c'.score < REQUESTER_WEIGHT := by
    intro c' hc' he
    obtain ⟨⟨⟨l', signals'⟩, hm', rfl⟩, -⟩ := mem_ranking.mp hc'
    have he' : l' = d'.login := he
    subst he'
    have hw := total_le_weight (hs d' hd').1 (hs d' hd').2
    have hsig' : t.total d'.login = signals' := Tally.total_of_mem nodup_tally hm'
    have hc : (candidate (d'.login, signals')).score = score signals' := rfl
    rw [hc, score_eq, ← hsig', hnone]
    have h1 := hw .codeOwner
    have h2 := hw .author
    have h3 := hw .activity
    simp only [AssignmentReason.weight, CODE_OWNER_WEIGHT, AUTHOR_WEIGHT, ACTIVITY_WEIGHT] at h1 h2 h3
    rw [REQUESTER_WEIGHT]
    linarith
  have hin : candidate (d.login, signals) ∈ ranking U t :=
    mem_ranking.mpr ⟨⟨_, hm, rfl⟩, lt_of_lt_of_le (by norm_num [REQUESTER_WEIGHT]) hscore⟩
  obtain ⟨above, below, hsplit⟩ := List.append_of_mem hin
  refine ⟨above, _, below, hsplit, rfl, fun c' hc' he => ?_, fun c' hc' he => ?_⟩
  · have h1 := hlow c' (hsplit ▸ List.mem_append_left _ hc') he
    have h2 := above_le_score hsplit hc'
    linarith
  · have h1 := hlow c' (hsplit ▸ List.mem_append_right _ (List.mem_cons_of_mem _ hc')) he
    linarith

theorem ranks_well_of_shares (hr : E.InRange U (Roster.fromEntries U entries))
    (hs : ∀ d ∈ (Roster.fromEntries U entries).developers,
      requested U (Roster.fromEntries U entries) E d.login ≤ 1 ∧
        owns U (Roster.fromEntries U entries) (E.ownedBy U (Roster.fromEntries U entries)) d.login ≤
          E.files.length) :
    ∃ points, E.points U (Roster.fromEntries U entries) = some points ∧
      RanksWell U (Roster.fromEntries U entries) E points := by
  refine ⟨_, points_of_inRange hr, ?_, ?_, ?_⟩
  · rintro ⟨l, signals⟩ hm signal -
    obtain ⟨d, hd, rfl⟩ := mem_keys_tally (List.mem_map.mpr ⟨_, hm, rfl⟩)
    have ht : _ = signals := Tally.total_of_mem nodup_tally hm
    rw [← ht]
    exact total_le_weight (hs d hd).1 (hs d hd).2 signal
  · rintro d d' ⟨k, h0, hf⟩ hd' hn
    exact closest_ranks_above hs h0 hf hd' hn
  · exact fun order hp => ranking_perm nodup_keys_tally hp

end Entries

/-- The ranking is as it should be exactly when no lookup is past the end of the roster and no
developer is named by so many keys that their shares add up to more than the whole. -/
theorem rank_sound_iff (U : CaseProps) (entries : List Entry) (E : Evidence) :
    (∃ points, E.points U (Roster.fromEntries U entries) = some points ∧
      RanksWell U (Roster.fromEntries U entries) E points) ↔
    E.InRange U (Roster.fromEntries U entries) ∧
      ∀ d ∈ (Roster.fromEntries U entries).developers,
        requested U (Roster.fromEntries U entries) E d.login ≤ 1 ∧
          owns U (Roster.fromEntries U entries) (E.ownedBy U (Roster.fromEntries U entries))
            d.login ≤ E.files.length := by
  constructor
  · rintro ⟨points, hp, hw⟩
    have hr := inRange_of_points hp
    rw [points_of_inRange hr] at hp
    cases hp
    have hall : ∀ login signal, signal ∈ SIGNALS →
        (E.tally U (Roster.fromEntries U entries)).total login signal ≤ signal.weight := by
      intro login signal hs
      by_cases hk : login ∈ (E.tally U (Roster.fromEntries U entries)).keys
      · obtain ⟨⟨l, signals⟩, hm, rfl⟩ := List.mem_map.mp hk
        have ht : (E.tally U (Roster.fromEntries U entries)).total l = signals :=
          Tally.total_of_mem nodup_tally hm
        rw [ht]
        exact hw.weights _ hm signal hs
      · rw [Tally.total_of_notMem hk]
        cases signal <;> norm_num [AssignmentReason.weight, REQUESTER_WEIGHT, CODE_OWNER_WEIGHT,
          AUTHOR_WEIGHT, ACTIVITY_WEIGHT]
    refine ⟨hr, fun d _ => ⟨?_, owns_le_iff.mp ?_⟩⟩
    · have h := hall d.login .requester (by decide)
      rw [total_tally, column_awards] at h
      simp only [AssignmentReason.weight, REQUESTER_WEIGHT] at h
      linarith
    · have h := hall d.login .codeOwner (by decide)
      rw [total_tally, column_awards] at h
      simp only [AssignmentReason.weight, CODE_OWNER_WEIGHT] at h
      linarith
  · rintro ⟨hr, hs⟩
    exact ranks_well_of_shares hr hs

/-! ## Rosters that represent their entries -/

/-- One developer with two logins. -/
def twoLogins : Entry where
  developer := Developer.new "amy"
  aliases := ["amy", "amy-alt"]
  slugs := []

/-- The work was asked for under both of her logins. -/
def askedTwice : Evidence where
  requesters := ["amy", "amy-alt"]
  files := []
  codeowners := none
  fileAuthors := []
  repositoryAuthors := []

/-- The developer is credited for both positions: 150 of 100 points. -/
theorem alias_requester_over_weight :
    ¬ ∃ points, askedTwice.points caseless (Roster.fromEntries caseless [twoLogins]) = some points ∧
      RanksWell caseless (Roster.fromEntries caseless [twoLogins]) askedTwice points := by
  rintro ⟨points, hp, hw⟩
  have hs : Roster.sorted caseless [twoLogins] = [twoLogins] := List.mergeSort_singleton _
  have ht : (askedTwice.points caseless (Roster.fromEntries caseless [twoLogins])).map
      (fun points => points.map fun entry => entry.2 .requester) = some [150] := by
    rw [Roster.fromEntries, hs]
    decide +kernel
  rw [hp, Option.map_some, Option.some.injEq] at ht
  cases points with
  | nil => cases ht
  | cons entry points =>
    have h := hw.weights entry List.mem_cons_self .requester (by decide)
    rw [List.map_cons] at ht
    rw [(List.cons.inj ht).1] at h
    norm_num [AssignmentReason.weight, REQUESTER_WEIGHT] at h

end Claudear.Distribution
