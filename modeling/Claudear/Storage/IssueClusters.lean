import Claudear.Machine.Run
import Claudear.Sql.Indexed
import Claudear.Storage.Error

/-!
# Issue clusters

`store_issue_cluster` inserts the cluster unless its key is stored, and takes
`last_insert_rowid()` for its id. An ignored row leaves that as it was: the id
of whatever the connection inserted last, in any table. The members go in under
this id, or the call fails when no cluster has it. An ignored row, of a cluster
or of a member, has used an id up all the same, so the ids have gaps.

`records k x` says that the issue `x` is a member of the cluster with the key
`k`. In a run of calls, and of other inserts on the connection, the members are
what the calls gave exactly if every repeated key finds its own id there
(`clusters_right_iff`).
-/

namespace Claudear.Storage

open Claudear.Sql Claudear.Machine

structure IssueCluster where
  clusterKey : String
  source : String
  issueIds : List String
  windowStart : Timestamp
  windowEnd : Timestamp
  status : String
  createdAt : Timestamp
  deriving DecidableEq, Repr

structure IssueClusterMember where
  clusterId : Nat
  issueId : String
  arrivedAt : Timestamp
  deriving DecidableEq, Repr

def IssueClusterMember.key (m : IssueClusterMember) : Nat × String := (m.clusterId, m.issueId)

structure ClusterStore where
  clusters : Indexed IssueCluster.clusterKey
  members : Indexed IssueClusterMember.key
  /-- `last_insert_rowid()` of the connection. -/
  lastInsertRowid : Nat
  /-- `cluster_id INTEGER NOT NULL REFERENCES issue_clusters(id)` -/
  owned : ∀ i m, members.rows.get i = some m → (clusters.rows.get m.clusterId).isSome

namespace ClusterStore

def empty : ClusterStore := ⟨.empty, .empty, 0, fun _ _ h => by cases h⟩

/-- `INSERT OR IGNORE INTO issue_clusters` -/
def insertCluster (now : Timestamp) (cluster : IssueCluster) (s : ClusterStore) : ClusterStore :=
  let r := s.clusters.insertOrIgnore { cluster with createdAt := now } s.lastInsertRowid
  { s with
    clusters := r.1
    lastInsertRowid := r.2
    owned := fun i m hm => by
      obtain ⟨c, hc⟩ := Option.isSome_iff_exists.mp (s.owned i m hm)
      rw [Indexed.get_insertOrIgnore_of hc]
      rfl }

/-- `INSERT OR IGNORE INTO issue_cluster_members`. It does not ignore that no cluster has the id:
that is an error. -/
def insertMember (now : Timestamp) (clusterId : Nat) (issueId : String) (s : ClusterStore) :
    Option ClusterStore :=
  if h : (s.clusters.rows.get clusterId).isSome then
    let r := s.members.insertOrIgnore ⟨clusterId, issueId, now⟩ s.lastInsertRowid
    some { s with
      members := r.1
      lastInsertRowid := r.2
      owned := fun i m hm => by
        rcases Indexed.get_insertOrIgnore_cases hm with rfl | hm
        · exact h
        · exact s.owned i m hm }
  else none

def insertMembers (now : Timestamp) (clusterId : Nat) : List String → ClusterStore → Bool × ClusterStore
  | [], s => (true, s)
  | issueId :: issueIds, s =>
    match s.insertMember now clusterId issueId with
    | none => (false, s)
    | some s => insertMembers now clusterId issueIds s

/-- None is the error of a member. -/
def storeIssueCluster (now : Timestamp) (cluster : IssueCluster) (s : ClusterStore) :
    Option Nat × ClusterStore :=
  let s := s.insertCluster now cluster
  let clusterId := s.lastInsertRowid
  let r := s.insertMembers now clusterId cluster.issueIds
  (if r.1 then some clusterId else none, r.2)

/-! ## Calls -/

inductive Call where
  | storeIssueCluster (now : Timestamp) (cluster : IssueCluster)
  /-- The connection inserts a row of another table. -/
  | insertElsewhere (rowid : Nat)

def step (s : ClusterStore) : Call → ClusterStore
  | .storeIssueCluster now cluster => (s.storeIssueCluster now cluster).2
  | .insertElsewhere rowid => { s with lastInsertRowid := rowid }

/-- The id of the row with a cluster key. -/
def idOf (s : ClusterStore) (key : String) : Option Nat := (s.clusters.find key).map Prod.fst

/-- The issue is recorded under the row of the key. -/
def records (s : ClusterStore) (key issueId : String) : Prop :=
  ∃ i, s.idOf key = some i ∧ (s.members.find (i, issueId)).isSome

variable {s s₀ : ClusterStore} {now : Timestamp} {cluster : IssueCluster} {key issueId x : String}
  {issueIds : List String} {i j rowid : Nat} {c : Call} {pre calls : List Call}

/-! ## The statements -/

/-- An ignored cluster leaves the connection's last id, and every key its own. -/
theorem idOf_insertCluster_of_some (h : s.idOf cluster.clusterKey = some i) :
    (s.insertCluster now cluster).clusters = s.clusters.skip ∧
      (s.insertCluster now cluster).lastInsertRowid = s.lastInsertRowid := by
  obtain ⟨r, hr, -⟩ := Option.map_eq_some_iff.mp h
  have hf : s.clusters.find ({ cluster with createdAt := now } : IssueCluster).clusterKey = some r := hr
  have he := Indexed.insertOrIgnore_of_some hf s.lastInsertRowid
  exact ⟨congrArg Prod.fst he, congrArg Prod.snd he⟩

/-- A new cluster's id is the connection's last one. -/
theorem idOf_insertCluster_of_none (h : s.idOf cluster.clusterKey = none) (now : Timestamp) :
    (s.insertCluster now cluster).idOf cluster.clusterKey =
        some (s.insertCluster now cluster).lastInsertRowid ∧
      (s.insertCluster now cluster).lastInsertRowid = s.clusters.rows.next := by
  have hf : s.clusters.find ({ cluster with createdAt := now } : IssueCluster).clusterKey = none :=
    Option.map_eq_none_iff.mp h
  have he := Indexed.insertOrIgnore_of_none hf s.lastInsertRowid
  have hlast : (s.insertCluster now cluster).lastInsertRowid = s.clusters.rows.next := congrArg Prod.snd he
  have hfind := Indexed.find_insertOrIgnore s.clusters { cluster with createdAt := now } s.lastInsertRowid
    cluster.clusterKey
  rw [if_pos rfl, hf] at hfind
  exact ⟨(congrArg (Option.map Prod.fst) hfind).trans (congrArg some hlast.symm), hlast⟩

/-- The ids of the other keys, and of a key that has one, stay. -/
theorem idOf_insertCluster_of (h : key ≠ cluster.clusterKey ∨ s.idOf key = some i) :
    (s.insertCluster now cluster).idOf key = s.idOf key := by
  have hfind := Indexed.find_insertOrIgnore s.clusters { cluster with createdAt := now } s.lastInsertRowid key
  by_cases hk : key = cluster.clusterKey
  · subst hk
    rcases h with h | h
    · exact absurd rfl h
    · rw [idOf, (idOf_insertCluster_of_some h).1, Indexed.find_skip, idOf]
  · rw [if_neg hk] at hfind
    exact congrArg (Option.map Prod.fst) hfind

theorem insertMember_of_known (h : (s.clusters.rows.get i).isSome) (now : Timestamp) (issueId : String) :
    ∃ s', s.insertMember now i issueId = some s' ∧ s'.clusters = s.clusters ∧
      ∀ j x, (s'.members.find (j, x)).isSome ↔
        (s.members.find (j, x)).isSome ∨ j = i ∧ x = issueId := by
  refine ⟨_, dif_pos h, rfl, fun j x => ?_⟩
  have hfind := Indexed.find_insertOrIgnore s.members ⟨i, issueId, now⟩ s.lastInsertRowid (j, x)
  simp only
  rw [hfind]
  split
  · rename_i hk
    have hk : j = i ∧ x = issueId := Prod.mk.inj hk
    simp [hk]
  · rename_i hk
    rw [or_iff_left]
    rintro ⟨rfl, rfl⟩
    exact hk rfl

/-- Under the id of a stored cluster every member goes in. -/
theorem insertMembers_of_known (h : (s.clusters.rows.get i).isSome) (now : Timestamp) (issueIds : List String) :
    (s.insertMembers now i issueIds).1 = true ∧ (s.insertMembers now i issueIds).2.clusters = s.clusters ∧
      ∀ j x, ((s.insertMembers now i issueIds).2.members.find (j, x)).isSome ↔
        (s.members.find (j, x)).isSome ∨ j = i ∧ x ∈ issueIds := by
  induction issueIds generalizing s with
  | nil => exact ⟨rfl, rfl, fun j x => by simp [insertMembers]⟩
  | cons issueId issueIds ih =>
    obtain ⟨s₁, hs₁, hc₁, hm₁⟩ := insertMember_of_known h now issueId
    obtain ⟨ha, hc, hm⟩ := ih (s := s₁) (by rwa [hc₁])
    rw [insertMembers, hs₁]
    refine ⟨ha, hc.trans hc₁, fun j x => ?_⟩
    rw [hm, hm₁, List.mem_cons]
    tauto

/-- The members do not touch the clusters. -/
theorem insertMembers_clusters : (s.insertMembers now i issueIds).2.clusters = s.clusters := by
  induction issueIds generalizing s with
  | nil => rfl
  | cons issueId issueIds ih =>
    unfold insertMembers insertMember
    by_cases h : (s.clusters.rows.get i).isSome
    · rw [dif_pos h]
      exact ih
    · rw [dif_neg h]

theorem idOf_congr {s s' : ClusterStore} (h : s'.clusters = s.clusters) : s'.idOf key = s.idOf key := by
  rw [idOf, h, idOf]

/-! ## One call -/

/-- A key that is stored is the one of the row that the connection inserted last. -/
def Identified (s : ClusterStore) : Call → Prop
  | .storeIssueCluster _ cluster => ∀ i, s.idOf cluster.clusterKey = some i → s.lastInsertRowid = i
  | .insertElsewhere _ => True

instance (s : ClusterStore) : ∀ c, Decidable (Identified s c)
  | .storeIssueCluster _ cluster =>
    match h : s.idOf cluster.clusterKey with
    | none => .isTrue fun i hi => by rw [h] at hi; cases hi
    | some i =>
      if hi : s.lastInsertRowid = i then .isTrue fun j hj => hi.trans (Option.some.inj (h.symm.trans hj))
      else .isFalse fun hall => hi (hall i h)
  | .insertElsewhere _ => .isTrue trivial

/-- What a call gives for a key. -/
def Call.gives (key x : String) : Call → Prop
  | .storeIssueCluster _ cluster => cluster.clusterKey = key ∧ x ∈ cluster.issueIds
  | .insertElsewhere _ => False

theorem idOf_step_of (h : s.idOf key = some i) : (step s c).idOf key = some i := by
  cases c with
  | insertElsewhere rowid => exact h
  | storeIssueCluster now cluster =>
    have hins : (s.insertCluster now cluster).idOf key = s.idOf key := idOf_insertCluster_of (.inr h)
    exact (idOf_congr insertMembers_clusters).trans (hins.trans h)

theorem answer_eq (h : (s.storeIssueCluster now cluster).1 = some i) :
    (s.insertCluster now cluster).lastInsertRowid = i := by
  unfold storeIssueCluster at h
  simp only at h
  split at h
  · exact Option.some.inj h
  · cases h

theorem idOf_inj (h : s.idOf key = some i) (h' : s.idOf x = some i) : x = key := by
  obtain ⟨⟨_, c⟩, hc, rfl⟩ := Option.map_eq_some_iff.mp h
  obtain ⟨⟨j, d⟩, hd, hj⟩ := Option.map_eq_some_iff.mp h'
  obtain ⟨hget, rfl⟩ := Indexed.find_eq_some.mp hc
  obtain ⟨hget', rfl⟩ := Indexed.find_eq_some.mp hd
  simp only at hj
  rw [hj, hget] at hget'
  rw [Option.some.inj hget']

/-- An id that no cluster has yet has no members. -/
theorem not_isSome_members_next : ¬ (s.members.find (s.clusters.rows.next, x)).isSome := by
  intro h
  obtain ⟨⟨j, m⟩, hm⟩ := Option.isSome_iff_exists.mp h
  obtain ⟨hget, hkey⟩ := Indexed.find_eq_some.mp hm
  have hown := s.owned j m hget
  rw [show m.clusterId = s.clusters.rows.next from congrArg Prod.fst hkey, Table.get_next] at hown
  cases hown

/-- The row a call means, when it means the right one: what was recorded under it is what was recorded
under the key. -/
theorem insertCluster_of_identified (h : Identified s (.storeIssueCluster now cluster)) :
    (s.insertCluster now cluster).idOf cluster.clusterKey =
        some (s.insertCluster now cluster).lastInsertRowid ∧
      ∀ x, (s.members.find ((s.insertCluster now cluster).lastInsertRowid, x)).isSome ↔
        s.records cluster.clusterKey x := by
  cases hk : s.idOf cluster.clusterKey with
  | none =>
    obtain ⟨hid, hnext⟩ := idOf_insertCluster_of_none hk now
    refine ⟨hid, fun x => iff_of_false ?_ ?_⟩
    · rw [hnext]
      exact not_isSome_members_next
    · rintro ⟨i, hi, -⟩
      rw [hk] at hi
      cases hi
  | some i =>
    have hlast : (s.insertCluster now cluster).lastInsertRowid = i :=
      (idOf_insertCluster_of_some hk).2.trans (h i hk)
    rw [hlast]
    refine ⟨(idOf_insertCluster_of (.inr hk)).trans hk, fun x => ⟨fun hx => ⟨i, hk, hx⟩, ?_⟩⟩
    rintro ⟨j, hj, hx⟩
    rwa [Option.some.inj (hk.symm.trans hj)]

/-- With the right id the answer is the id of the key's row, and the row has the new members. -/
theorem store_of_identified (h : Identified s (.storeIssueCluster now cluster)) :
    ∃ i, (s.storeIssueCluster now cluster).1 = some i ∧
      (s.storeIssueCluster now cluster).2.idOf cluster.clusterKey = some i ∧
      ∀ key x, (s.storeIssueCluster now cluster).2.records key x ↔
        s.records key x ∨ cluster.clusterKey = key ∧ x ∈ cluster.issueIds := by
  obtain ⟨hid, hold⟩ := insertCluster_of_identified h
  have hknown : ((s.insertCluster now cluster).clusters.rows.get
      (s.insertCluster now cluster).lastInsertRowid).isSome := by
    obtain ⟨⟨i, c⟩, hc, hi⟩ := Option.map_eq_some_iff.mp hid
    rw [← hi, (Indexed.find_eq_some.mp hc).1]
    rfl
  obtain ⟨ha, hc, hm⟩ := insertMembers_of_known hknown now cluster.issueIds
  have hids : ∀ key, (s.storeIssueCluster now cluster).2.idOf key = (s.insertCluster now cluster).idOf key :=
    fun _ => idOf_congr hc
  refine ⟨_, if_pos ha, (hids _).trans hid, fun key x => ?_⟩
  by_cases hk : cluster.clusterKey = key
  · subst hk
    rw [and_iff_right rfl, ← hold x]
    constructor
    · rintro ⟨j, hj, hx⟩
      rw [hids, hid] at hj
      rw [← Option.some.inj hj] at hx
      rcases (hm _ x).mp hx with hx | ⟨-, hx⟩
      · exact .inl hx
      · exact .inr hx
    · intro hx
      refine ⟨_, (hids _).trans hid, (hm _ x).mpr ?_⟩
      rcases hx with hx | hx
      · exact .inl hx
      · exact .inr ⟨rfl, hx⟩
  · rw [or_iff_left fun h => hk h.1]
    refine exists_congr fun j => ?_
    have hkey : (s.storeIssueCluster now cluster).2.idOf key = s.idOf key :=
      (hids key).trans (idOf_insertCluster_of (i := j) (.inl (Ne.symm hk)))
    rw [hkey]
    refine and_congr_right fun hj => ?_
    have hne : j ≠ (s.insertCluster now cluster).lastInsertRowid := by
      rintro rfl
      exact hk (idOf_inj ((idOf_insertCluster_of (i := 0) (.inl (Ne.symm hk))).trans hj) hid)
    exact (hm j x).trans (or_iff_left fun h => hne h.1)

/-- With another id the answer is not the id of the key's row. -/
theorem store_of_not_identified (h : ¬ Identified s (.storeIssueCluster now cluster)) :
    ∀ i, (s.storeIssueCluster now cluster).1 = some i →
      (s.storeIssueCluster now cluster).2.idOf cluster.clusterKey ≠ some i := by
  intro i hi hid
  refine h fun j hj => ?_
  have hlast := answer_eq hi
  rw [(idOf_insertCluster_of_some hj).2] at hlast
  have hstay : (s.storeIssueCluster now cluster).2.idOf cluster.clusterKey = some j :=
    idOf_step_of (c := .storeIssueCluster now cluster) hj
  rw [hlast]
  exact Option.some.inj (hid.symm.trans hstay)

/-! ## Runs -/

/-- Every call has answered with the id its key has, and the members recorded under a key are those
the calls gave for it. -/
structure Right (s₀ : ClusterStore) (calls : List Call) : Prop where
  answered : ∀ pre now cluster, pre ++ [.storeIssueCluster now cluster] <+: calls →
    ∃ i, ((run step s₀ pre).storeIssueCluster now cluster).1 = some i ∧
      (run step s₀ calls).idOf cluster.clusterKey = some i
  recorded : ∀ key x, (run step s₀ calls).records key x ↔
    s₀.records key x ∨ ∃ c ∈ calls, Call.gives key x c

theorem right_nil (s₀ : ClusterStore) : Right s₀ [] where
  answered pre now cluster h := by simp at h
  recorded key x := by simp

/-- One more call keeps a run right exactly if it finds the id of its key. -/
theorem right_concat_iff (h : Right s₀ pre) : Right s₀ (pre ++ [c]) ↔ Identified (run step s₀ pre) c := by
  cases c with
  | insertElsewhere rowid =>
    refine iff_of_true ⟨fun p now cluster hp => ?_, fun key x => ?_⟩ trivial
    · rcases List.prefix_concat_iff.mp hp with he | hp
      · simp at he
      · obtain ⟨i, ha, hi⟩ := h.answered p now cluster hp
        exact ⟨i, ha, by rw [run_concat]; exact hi⟩
    · rw [run_concat]
      refine (h.recorded key x).trans (or_congr_right ?_)
      simp [Call.gives]
  | storeIssueCluster now cluster =>
    constructor
    · intro hr
      by_contra hn
      obtain ⟨i, ha, hi⟩ := hr.answered pre now cluster (List.prefix_refl _)
      rw [run_concat] at hi
      exact store_of_not_identified hn i ha hi
    · intro hid
      obtain ⟨i, ha, hi, hrec⟩ := store_of_identified hid
      refine ⟨fun p now' cluster' hp => ?_, fun key x => ?_⟩
      · rw [run_concat]
        rcases List.prefix_concat_iff.mp hp with he | hp
        · obtain ⟨rfl, hcall⟩ := List.append_inj' he rfl
          cases hcall
          exact ⟨i, ha, hi⟩
        · obtain ⟨j, hj, hk⟩ := h.answered p now' cluster' hp
          exact ⟨j, hj, idOf_step_of hk⟩
      · rw [run_concat]
        refine (hrec key x).trans ?_
        rw [h.recorded, or_assoc]
        refine or_congr_right ?_
        simp only [List.mem_append, List.mem_singleton, or_and_right, exists_or, exists_eq_left]
        rfl

/-- From any store, and whatever else the connection inserts, every part of a run is right exactly
if every call with a stored key comes when the connection's last row is that of the key. -/
theorem clusters_right_iff (s₀ : ClusterStore) (calls : List Call) :
    (∀ pre, pre <+: calls → Right s₀ pre) ↔
      ∀ pre c, pre ++ [c] <+: calls → Identified (run step s₀ pre) c :=
  forall_prefix_iff (fun _ _ h => right_concat_iff h) (right_nil s₀)

def storeSentry (key : String) (issueIds : List String) : Call :=
  .storeIssueCluster 0 ⟨key, "sentry", issueIds, 0, 600, "active", 0⟩

/-- The third issue goes to the second cluster. -/
theorem member_of_other_cluster :
    let s := run step empty [storeSentry "a" ["ISS-1"], storeSentry "b" ["ISS-2"]]
    (s.storeIssueCluster 0 ⟨"a", "sentry", ["ISS-3"], 0, 600, "active", 0⟩).1 = some 2 ∧
      s.idOf "a" = some 1 ∧ s.idOf "b" = some 2 ∧
      ((step s (storeSentry "a" ["ISS-3"])).members.rows.rows.map fun m => (m.2.clusterId, m.2.issueId)) =
        [(1, "ISS-1"), (2, "ISS-2"), (2, "ISS-3")] := by
  decide

-- An ignored member uses an id up: the one `b` has then is no cluster's, and its next member is refused.
example :
    let s := run step empty [storeSentry "a" ["ISS-1", "ISS-1"], storeSentry "b" ["ISS-2"]]
    ¬ Identified s (storeSentry "b" ["ISS-3"]) ∧
      (s.storeIssueCluster 0 ⟨"b", "sentry", ["ISS-3"], 0, 600, "active", 0⟩).1 = none := by
  decide

end ClusterStore

end Claudear.Storage
