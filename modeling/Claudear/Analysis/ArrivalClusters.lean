import Claudear.Data.Windows
import Claudear.Storage.FixAttempts
import Claudear.Storage.IssueClusters
import Mathlib.Data.List.Dedup
import Mathlib.Data.List.Perm.Lattice

/-!
# Clusters of arrivals

The scan takes the arrivals within one window as a group when there are enough of them. A
group counts its rows, and an issue has several of them once it has cascaded. How a key is
made of the ids is a parameter.
-/

namespace Claudear.Analysis

open Claudear.Data Claudear.Storage

abbrev Arrival := String × Timestamp

/-- `datetime('now', '-N minutes')`, which is NULL for a negative number and before the first Julian day. -/
def cutoff (now : Timestamp) (window_minutes : Int) : Option Timestamp :=
  if window_minutes < 0 ∨ now - 60 * window_minutes < -210866760000 then none else some (now - 60 * window_minutes)

def getRecentIssueArrivals (t : FixAttempts) (now : Timestamp) (source : String) (window_minutes : Int) : List Arrival :=
  match cutoff now window_minutes with
  | none => []
  | some since =>
    (FixAttempts.byAttemptedAt (t.select fun r => r.2.key.source = source && decide (since ≤ r.2.attemptedAt))).map fun r =>
      (r.2.key.issueId, r.2.attemptedAt)

def sortedIds (group : List Arrival) : List String := (group.map Prod.fst).insertionSort (· ≤ ·)

def clusterOf (key : List String → String) (source : String) (now : Timestamp) (group : List Arrival) : IssueCluster :=
  let window_start := (group.head?.map Prod.snd).getD 0
  { clusterKey := key (sortedIds group)
    source
    issueIds := sortedIds group
    windowStart := window_start
    windowEnd := (group.getLast?.map Prod.snd).getD window_start
    status := "active"
    createdAt := now }

/-- `clusters.retain(|c| seen.insert(c.cluster_key.clone()))` -/
def retainNew : List String → List IssueCluster → List IssueCluster
  | _, [] => []
  | seen, cluster :: rest =>
    if cluster.clusterKey ∈ seen then retainNew seen rest else cluster :: retainNew (cluster.clusterKey :: seen) rest

/-- The groups the scan takes among the arrivals. -/
def groupsOf (window_minutes : Int) (min_cluster_size : Nat) (arrivals : List Arrival) : List (List Arrival) :=
  windows Prod.snd (60 * window_minutes) min_cluster_size arrivals

def detectClusters (key : List String → String) (t : FixAttempts) (now : Timestamp) (source : String)
    (window_minutes : Int) (min_cluster_size : Nat) : List IssueCluster :=
  let arrivals := getRecentIssueArrivals t now source window_minutes
  if arrivals.length < min_cluster_size then []
  else retainNew [] ((groupsOf window_minutes min_cluster_size arrivals).map (clusterOf key source now))

/-! ## What a cluster is for -/

/-- The arrival belongs to the cluster. -/
def Names (cluster : IssueCluster) (a : Arrival) : Prop :=
  a.1 ∈ cluster.issueIds ∧ cluster.windowStart ≤ a.2 ∧ a.2 ≤ cluster.windowEnd

def distinctIssues (group : List Arrival) : Nat := (group.map Prod.fst).dedup.length

structure RealAndComplete (arrivals : List Arrival) (window_minutes : Int) (min_cluster_size : Nat)
    (clusters : List IssueCluster) : Prop where
  enough : ∀ c ∈ clusters, min_cluster_size ≤ c.issueIds.dedup.length
  arrived : ∀ c ∈ clusters, ∀ id ∈ c.issueIds,
    ∃ a ∈ arrivals, a.1 = id ∧ c.windowStart ≤ a.2 ∧ a.2 ≤ c.windowStart + 60 * window_minutes
  apart : clusters.Pairwise fun c c' => ∀ a, ¬ (Names c a ∧ Names c' a)
  complete : ∀ close, close.Sublist arrivals → (∀ a ∈ close, ∀ b ∈ close, b.2 ≤ a.2 + 60 * window_minutes) →
    min_cluster_size ≤ distinctIssues close → ∃ a ∈ close, ∃ c ∈ clusters, Names c a

variable {key : List String → String} {t : FixAttempts} {now : Timestamp} {source : String} {window_minutes : Int}
  {min_cluster_size : Nat} {arrivals group group' : List Arrival} {groups : List (List Arrival)}
  {clusters : List IssueCluster} {cluster : IssueCluster} {seen : List String} {a : Arrival} {id : String}

theorem mem_sortedIds : id ∈ sortedIds group ↔ ∃ a ∈ group, a.1 = id := by
  rw [sortedIds, List.mem_insertionSort, List.mem_map]

theorem dedup_sortedIds : (sortedIds group).dedup.length = distinctIssues group :=
  ((List.perm_insertionSort _ _).dedup).length_eq

theorem distinctIssues_congr (h : sortedIds group = sortedIds group') : distinctIssues group = distinctIssues group' := by
  rw [← dedup_sortedIds, h, dedup_sortedIds]

theorem distinctIssues_le : distinctIssues group ≤ group.length :=
  (List.dedup_sublist _).length_le.trans_eq (List.length_map _)

theorem timely_arrivals : Timely Prod.snd (getRecentIssueArrivals t now source window_minutes) := by
  rw [getRecentIssueArrivals]
  split
  · exact .nil
  · exact List.pairwise_map.mpr (List.pairwise_insertionSort _ _)

/-! ## Repeated keys -/

theorem mem_retainNew (h : cluster ∈ retainNew seen clusters) : cluster ∈ clusters ∧ cluster.clusterKey ∉ seen := by
  induction clusters generalizing seen with
  | nil => exact absurd h List.not_mem_nil
  | cons first rest ih =>
    rw [retainNew] at h
    split at h
    · exact (ih h).imp_left (List.mem_cons_of_mem first)
    · rename_i hnew
      rcases List.mem_cons.mp h with rfl | h
      · exact ⟨List.mem_cons_self, hnew⟩
      · obtain ⟨hmem, hkey⟩ := ih h
        exact ⟨List.mem_cons_of_mem first hmem, fun hseen => hkey (List.mem_cons_of_mem _ hseen)⟩

theorem retainNew_sublist : (retainNew seen clusters).Sublist clusters := by
  induction clusters generalizing seen with
  | nil => exact .slnil
  | cons first rest ih =>
    rw [retainNew]
    split
    · exact ih.cons first
    · exact ih.cons_cons first

/-- A key is found again unless it was seen before. -/
theorem exists_retained (h : cluster ∈ clusters) (hnew : cluster.clusterKey ∉ seen) :
    ∃ kept ∈ retainNew seen clusters, kept.clusterKey = cluster.clusterKey := by
  induction clusters generalizing seen with
  | nil => exact absurd h List.not_mem_nil
  | cons first rest ih =>
    rw [retainNew]
    split
    · rename_i hseen
      rcases List.mem_cons.mp h with rfl | h
      · exact absurd hseen hnew
      · exact ih h hnew
    · by_cases hkey : first.clusterKey = cluster.clusterKey
      · exact ⟨first, List.mem_cons_self, hkey⟩
      · have hrest : cluster ∈ rest := by
          rcases List.mem_cons.mp h with rfl | h
          · exact absurd rfl hkey
          · exact h
        obtain ⟨kept, hmem, heq⟩ := ih hrest (List.mem_cons.not.mpr (not_or.mpr ⟨Ne.symm hkey, hnew⟩))
        exact ⟨kept, List.mem_cons_of_mem first hmem, heq⟩

theorem retainNew_eq_self (hnew : ∀ c ∈ clusters, c.clusterKey ∉ seen)
    (h : clusters.Pairwise fun c c' => c.clusterKey ≠ c'.clusterKey) : retainNew seen clusters = clusters := by
  induction clusters generalizing seen with
  | nil => rfl
  | cons first rest ih =>
    obtain ⟨hfirst, hrest⟩ := List.pairwise_cons.mp h
    rw [retainNew, if_neg (hnew first List.mem_cons_self), ih (fun c hc => ?_) hrest]
    exact List.mem_cons.not.mpr (not_or.mpr ⟨(hfirst c hc).symm, hnew c (List.mem_cons_of_mem first hc)⟩)

theorem nodup_retainNew : ((retainNew seen clusters).map IssueCluster.clusterKey).Nodup := by
  induction clusters generalizing seen with
  | nil => exact .nil
  | cons first rest ih =>
    rw [retainNew]
    split
    · exact ih
    · refine List.nodup_cons.mpr ⟨fun hmem => ?_, ih⟩
      obtain ⟨c, hc, heq⟩ := List.mem_map.mp hmem
      exact (mem_retainNew hc).2 (heq ▸ List.mem_cons_self)

theorem retainNew_append {others : List IssueCluster} : retainNew seen clusters <+: retainNew seen (clusters ++ others) := by
  induction clusters generalizing seen with
  | nil => exact List.nil_prefix
  | cons first rest ih =>
    rw [List.cons_append, retainNew, retainNew]
    split
    · exact ih
    · exact (List.prefix_cons_inj first).mpr ih

theorem pairwise_of_split {α : Type} {R : α → α → Prop} {l : List α}
    (h : ∀ before x after, l = before ++ x :: after → ∀ y ∈ before, R y x) : l.Pairwise R := by
  induction l using List.reverseRecOn with
  | nil => exact .nil
  | append_singleton l x ih =>
    refine List.pairwise_append.mpr ⟨ih fun before y after hl => ?_, List.pairwise_singleton R x, fun y hy z hz => ?_⟩
    · exact h before y (after ++ [x]) (by rw [hl, List.append_assoc]; rfl)
    · rw [List.mem_singleton.mp hz]
      exact h l x [] rfl y hy

/-! ## Groups and clusters -/

theorem names_of_mem (ht : Timely Prod.snd group) (ha : a ∈ group) : Names (clusterOf key source now group) a := by
  refine ⟨mem_sortedIds.mpr ⟨a, ha, rfl⟩, ?_, ?_⟩
  · cases group with
    | nil => exact absurd ha List.not_mem_nil
    | cons first rest =>
      show first.2 ≤ a.2
      rcases List.mem_cons.mp ha with rfl | hmem
      · exact Int.le_refl _
      · exact (List.pairwise_cons.mp ht).1 a hmem
  · induction group using List.reverseRecOn with
    | nil => exact absurd ha List.not_mem_nil
    | append_singleton before last _ =>
      have hlast : (clusterOf key source now (before ++ [last])).windowEnd = last.2 := by
        simp only [clusterOf, List.getLast?_concat, Option.map_some, Option.getD_some]
      rw [hlast]
      rcases List.mem_append.mp ha with hmem | hmem
      · exact (List.pairwise_append.mp ht).2.2 a hmem last (List.mem_singleton_self last)
      · rw [List.mem_singleton.mp hmem]

/-- What a cluster names lies between two arrivals of its group. -/
theorem between_of_names (hne : group ≠ []) (h : Names (clusterOf key source now group) a) :
    (∃ first ∈ group, first.2 ≤ a.2) ∧ ∃ last ∈ group, a.2 ≤ last.2 := by
  obtain ⟨-, hfrom, hto⟩ := h
  constructor
  · obtain ⟨first, hfirst⟩ := Option.ne_none_iff_exists'.mp (mt List.head?_eq_none_iff.mp hne)
    refine ⟨first, List.mem_of_mem_head? hfirst, ?_⟩
    simpa only [clusterOf, hfirst, Option.map_some, Option.getD_some] using hfrom
  · obtain ⟨last, hlast⟩ := Option.ne_none_iff_exists'.mp (mt List.getLast?_eq_none_iff.mp hne)
    refine ⟨last, List.mem_of_mem_getLast? hlast, ?_⟩
    simpa only [clusterOf, hlast, Option.map_some, Option.getD_some] using hto

theorem not_names_both (hne : group ≠ []) (hne' : group' ≠ []) (h : ∀ a ∈ group, ∀ b ∈ group', a.2 < b.2) :
    ¬ (Names (clusterOf key source now group) a ∧ Names (clusterOf key source now group') a) := by
  rintro ⟨hnames, hnames'⟩
  obtain ⟨last, hlast, hto⟩ := (between_of_names hne hnames).2
  obtain ⟨first, hfirst, hfrom⟩ := (between_of_names hne' hnames').1
  exact Int.lt_irrefl last.2 ((h last hlast first hfirst).trans_le (hfrom.trans hto))

section
variable (ht : Timely Prod.snd arrivals) (hmin : 0 < min_cluster_size)

include ht hmin

theorem group_ne_nil (hg : group ∈ groupsOf window_minutes min_cluster_size arrivals) : group ≠ [] := by
  obtain ⟨first, rest, hgroup, -⟩ := (window_spec ht hmin hg).2.2
  rw [hgroup]
  exact List.cons_ne_nil first rest

theorem timely_group (hg : group ∈ groupsOf window_minutes min_cluster_size arrivals) : Timely Prod.snd group :=
  ht.sublist (window_spec ht hmin hg).2.1

theorem group_arrived (hg : group ∈ groupsOf window_minutes min_cluster_size arrivals)
    (hid : id ∈ (clusterOf key source now group).issueIds) :
    ∃ a ∈ arrivals, a.1 = id ∧ (clusterOf key source now group).windowStart ≤ a.2 ∧
      a.2 ≤ (clusterOf key source now group).windowStart + 60 * window_minutes := by
  obtain ⟨-, hsub, first, rest, rfl, hwithin⟩ := window_spec ht hmin hg
  obtain ⟨a, ha, rfl⟩ := mem_sortedIds.mp hid
  exact ⟨a, hsub.subset ha, rfl, hwithin a ha⟩

/-- Groups with enough issues each, none of them dropped. -/
theorem realAndComplete_of (henough : ∀ g ∈ groupsOf window_minutes min_cluster_size arrivals, min_cluster_size ≤ distinctIssues g)
    (hkeys : (groupsOf window_minutes min_cluster_size arrivals).Pairwise fun g g' => key (sortedIds g) ≠ key (sortedIds g')) :
    RealAndComplete arrivals window_minutes min_cluster_size
      (retainNew [] ((groupsOf window_minutes min_cluster_size arrivals).map (clusterOf key source now))) := by
  rw [retainNew_eq_self (fun _ _ => List.not_mem_nil) (List.pairwise_map.mpr hkeys)]
  refine ⟨fun c hc => ?_, fun c hc id hid => ?_, ?_, fun close hsub hclose hlarge => ?_⟩
  · obtain ⟨g, hg, rfl⟩ := List.mem_map.mp hc
    exact (henough g hg).trans_eq dedup_sortedIds.symm
  · obtain ⟨g, hg, rfl⟩ := List.mem_map.mp hc
    exact group_arrived ht hmin hg hid
  · refine List.pairwise_map.mpr ((windows_pairwise ht hmin).imp_of_mem fun hg hg' h a => ?_)
    exact not_names_both (group_ne_nil ht hmin hg) (group_ne_nil ht hmin hg') h
  · obtain ⟨a, ha, g, hg, hag⟩ := exists_mem_window ht hmin hsub hclose (hlarge.trans distinctIssues_le)
    exact ⟨a, ha, _, List.mem_map_of_mem hg, names_of_mem (timely_group ht hmin hg) hag⟩

/-- A group whose key is an earlier one's is dropped, and none of its arrivals is named. -/
theorem not_named_of_repeated (hgroups : groupsOf window_minutes min_cluster_size arrivals = groups ++ group :: rest)
    (hrepeated : ∃ g ∈ groups, key (sortedIds g) = key (sortedIds group)) (ha : a ∈ group) :
    ¬ ∃ c ∈ retainNew [] ((groupsOf window_minutes min_cluster_size arrivals).map (clusterOf key source now)), Names c a := by
  rintro ⟨c, hc, hnames⟩
  have hne {g : List Arrival} (hg : g ∈ groups ++ group :: rest) : g ≠ [] := group_ne_nil ht hmin (hgroups ▸ hg)
  have hgroup : group ∈ groups ++ group :: rest := List.mem_append_right _ List.mem_cons_self
  have hpairwise : (windows Prod.snd (60 * window_minutes) min_cluster_size arrivals).Pairwise fun g g' =>
      ∀ a ∈ g, ∀ b ∈ g', a.2 < b.2 := windows_pairwise ht hmin
  rw [show windows _ _ _ _ = _ from hgroups] at hpairwise
  obtain ⟨-, hlast, hbefore⟩ := List.pairwise_append.mp hpairwise
  have hnamed : Names (clusterOf key source now group) a :=
    names_of_mem (timely_group ht hmin (hgroups ▸ hgroup)) ha
  rw [hgroups] at hc
  obtain ⟨g', hg', rfl⟩ := List.mem_map.mp (retainNew_sublist.subset hc)
  rcases List.mem_append.mp hg' with hmem | hmem
  · exact not_names_both (hne hg') (hne hgroup) (hbefore g' hmem group List.mem_cons_self) ⟨hnames, hnamed⟩
  · rcases List.mem_cons.mp hmem with rfl | hmem
    · -- an earlier cluster has the key, and keys are kept once
      obtain ⟨g, hg, hkeys⟩ := hrepeated
      obtain ⟨kept, hkept, hsame⟩ := exists_retained (List.mem_map_of_mem (f := clusterOf key source now) hg)
        (List.not_mem_nil (a := (clusterOf key source now g).clusterKey))
      obtain ⟨first, hfirst, rfl⟩ := List.mem_map.mp (retainNew_sublist.subset hkept)
      rw [List.map_append] at hc
      have heq := List.inj_on_of_nodup_map nodup_retainNew (retainNew_append.subset hkept) hc (hsame.trans hkeys)
      exact not_names_both (hne (List.mem_append_left _ hfirst)) (hne hgroup)
        (hbefore first hfirst g' List.mem_cons_self) ⟨heq ▸ hnamed, hnamed⟩
    · exact not_names_both (hne hgroup) (hne hg') ((List.pairwise_cons.mp hlast).1 g' hmem) ⟨hnamed, hnames⟩

end

/-- Different ids have different keys. -/
theorem of_realAndComplete (hkey : Function.Injective key) (ht : Timely Prod.snd arrivals) (hmin : 0 < min_cluster_size)
    (h : RealAndComplete arrivals window_minutes min_cluster_size
      (retainNew [] ((groupsOf window_minutes min_cluster_size arrivals).map (clusterOf key source now)))) :
    (∀ g ∈ groupsOf window_minutes min_cluster_size arrivals, min_cluster_size ≤ distinctIssues g) ∧
      (groupsOf window_minutes min_cluster_size arrivals).Pairwise fun g g' => sortedIds g ≠ sortedIds g' := by
  have henough : ∀ g ∈ groupsOf window_minutes min_cluster_size arrivals, min_cluster_size ≤ distinctIssues g := by
    intro g hg
    obtain ⟨kept, hkept, hsame⟩ := exists_retained (List.mem_map_of_mem (f := clusterOf key source now) hg)
      (List.not_mem_nil (a := (clusterOf key source now g).clusterKey))
    obtain ⟨first, -, rfl⟩ := List.mem_map.mp (retainNew_sublist.subset hkept)
    have hids : sortedIds first = sortedIds g := hkey hsame
    rw [← distinctIssues_congr hids, ← dedup_sortedIds]
    exact h.enough _ hkept
  refine ⟨henough, pairwise_of_split fun before g' after hgroups g hg hids => ?_⟩
  have hg' : g' ∈ groupsOf window_minutes min_cluster_size arrivals := by
    rw [hgroups]
    exact List.mem_append_right before List.mem_cons_self
  obtain ⟨-, hsub, first, rest, hfirst, hwithin⟩ := window_spec ht hmin hg'
  have hclose : ∀ a ∈ g', ∀ b ∈ g', b.2 ≤ a.2 + 60 * window_minutes := by
    intro a ha b hb
    have hfrom := (hwithin a ha).1
    have hto := (hwithin b hb).2
    exact hto.trans (Int.add_le_add_right hfrom _)
  obtain ⟨a, ha, hnamed⟩ := h.complete g' hsub hclose (henough g' hg')
  exact not_named_of_repeated ht hmin hgroups ⟨g, hg, congrArg key hids⟩ ha hnamed

/-! ## Detected clusters -/

theorem detectClusters_eq (hmin : 0 < min_cluster_size) :
    detectClusters key t now source window_minutes min_cluster_size =
      retainNew [] ((groupsOf window_minutes min_cluster_size (getRecentIssueArrivals t now source window_minutes)).map
        (clusterOf key source now)) := by
  rw [detectClusters]
  split
  · rename_i hfew
    cases hgroups : groupsOf window_minutes min_cluster_size (getRecentIssueArrivals t now source window_minutes) with
    | nil => rfl
    | cons group rest =>
      have hg : group ∈ groupsOf window_minutes min_cluster_size (getRecentIssueArrivals t now source window_minutes) := by
        rw [hgroups]
        exact List.mem_cons_self
      obtain ⟨hlarge, hsub, -⟩ := window_spec timely_arrivals hmin hg
      exact absurd (hlarge.trans hsub.length_le) (Nat.not_le_of_lt hfew)
  · rfl

theorem recent_of_mem (ha : a ∈ getRecentIssueArrivals t now source window_minutes) : now - 60 * window_minutes ≤ a.2 := by
  rw [getRecentIssueArrivals, cutoff] at ha
  split at ha
  · exact absurd ha List.not_mem_nil
  · rename_i since hsince
    split at hsince
    · exact absurd hsince.symm (Option.some_ne_none since)
    · obtain ⟨r, hr, rfl⟩ := List.mem_map.mp ha
      rw [FixAttempts.byAttemptedAt, List.mem_insertionSort, Sql.Table.mem_select] at hr
      have hle := of_decide_eq_true (Bool.and_eq_true_iff.mp hr.2).2
      rw [← Option.some.inj hsince] at hle
      exact hle

/-- Arrivals that are not in the future make one group or none. -/
theorem groupsOf_past (hpast : ∀ a ∈ getRecentIssueArrivals t now source window_minutes, a.2 ≤ now)
    (hmin : 0 < min_cluster_size) :
    groupsOf window_minutes min_cluster_size (getRecentIssueArrivals t now source window_minutes) =
      if min_cluster_size ≤ (getRecentIssueArrivals t now source window_minutes).length
      then [getRecentIssueArrivals t now source window_minutes] else [] := by
  split
  · rename_i hlarge
    have hrecent : ∀ a ∈ getRecentIssueArrivals t now source window_minutes, now - 60 * window_minutes ≤ a.2 :=
      fun a ha => recent_of_mem ha
    cases harrivals : getRecentIssueArrivals t now source window_minutes with
    | nil =>
      rw [harrivals] at hlarge
      exact absurd (Nat.lt_of_lt_of_le hmin hlarge) (Nat.lt_irrefl 0)
    | cons first rest =>
      rw [harrivals] at hlarge hpast hrecent
      refine windows_of_within (fun a ha => ?_) hlarge
      have hto := hpast a ha
      have hfrom := hrecent first List.mem_cons_self
      unfold Timestamp at *
      omega
  · rename_i hfew
    rw [List.eq_nil_iff_forall_not_mem]
    intro group hg
    obtain ⟨hlarge, hsub, -⟩ := window_spec timely_arrivals hmin hg
    exact hfew (hlarge.trans hsub.length_le)

theorem enough_of_past (hpast : ∀ a ∈ getRecentIssueArrivals t now source window_minutes, a.2 ≤ now) (hmin : 0 < min_cluster_size)
    (h : RealAndComplete (getRecentIssueArrivals t now source window_minutes) window_minutes min_cluster_size
      (detectClusters key t now source window_minutes min_cluster_size))
    (hlarge : min_cluster_size ≤ (getRecentIssueArrivals t now source window_minutes).length) :
    min_cluster_size ≤ distinctIssues (getRecentIssueArrivals t now source window_minutes) := by
  rw [detectClusters_eq hmin, groupsOf_past hpast hmin, if_pos hlarge] at h
  rw [← dedup_sortedIds]
  exact h.enough (clusterOf key source now (getRecentIssueArrivals t now source window_minutes)) (by simp [retainNew])

/-- When no arrival is in the future, fewer rows than the minimum or at least as many issues; in general,
groups with enough issues and without repeated ids. -/
theorem detectClusters_exact (key : List String → String) (t : FixAttempts) (now : Timestamp) (source : String)
    (window_minutes : Int) (min_cluster_size : Nat) (hmin : 1 ≤ min_cluster_size) :
    let arrivals := getRecentIssueArrivals t now source window_minutes
    let clusters := detectClusters key t now source window_minutes min_cluster_size
    let groups := groupsOf window_minutes min_cluster_size arrivals
    ((∀ a ∈ arrivals, a.2 ≤ now) →
      (RealAndComplete arrivals window_minutes min_cluster_size clusters ↔
        (min_cluster_size ≤ arrivals.length → min_cluster_size ≤ distinctIssues arrivals))) ∧
    (Function.Injective key →
      (RealAndComplete arrivals window_minutes min_cluster_size clusters ↔
        (∀ g ∈ groups, min_cluster_size ≤ distinctIssues g) ∧ groups.Pairwise fun g g' => sortedIds g ≠ sortedIds g')) := by
  intro arrivals clusters groups
  have hclusters : clusters = retainNew [] (groups.map (clusterOf key source now)) := detectClusters_eq hmin
  rw [hclusters]
  constructor
  · intro hpast
    have hgroups : groups = if min_cluster_size ≤ arrivals.length then [arrivals] else [] := groupsOf_past hpast hmin
    constructor
    · rw [← hclusters]
      exact enough_of_past hpast hmin
    · intro h
      refine realAndComplete_of timely_arrivals hmin (fun g hg => ?_) ?_
      · rw [show groupsOf _ _ _ = _ from hgroups] at hg
        split at hg
        · rename_i hlarge
          rw [List.mem_singleton.mp hg]
          exact h hlarge
        · exact absurd hg List.not_mem_nil
      · rw [show groupsOf _ _ _ = _ from hgroups]
        split
        · exact List.pairwise_singleton _ _
        · exact .nil
  · intro hkey
    constructor
    · exact of_realAndComplete hkey timely_arrivals hmin
    · rintro ⟨henough, hids⟩
      exact realAndComplete_of timely_arrivals hmin henough (hids.imp fun hne heq => hne (hkey heq))

def oneArrival : FixAttempts := FixAttempts.recordAttempt Sql.Table.empty 100 ⟨"github", "7"⟩ "#7"

/-- Three issues, of which one has a cascade. -/
def threeArrivals : FixAttempts :=
  FixAttempts.recordAttempt (FixAttempts.recordAttempt (oneArrival.insert (.cascade ⟨"github", "7"⟩ "#7" 110 1 "org/web"))
    120 ⟨"github", "8"⟩ "#8") 150 ⟨"github", "9"⟩ "#9"

/-- Each character after a mark, and a full stop at the end. -/
def spelledId : List Char → List Char
  | [] => ['.']
  | c :: rest => 'c' :: c :: spelledId rest

def spelled (ids : List String) : String := String.ofList (ids.flatMap fun id => spelledId id.toList)

theorem spelledId_append_ne_nil {x p : List Char} : spelledId x ++ p ≠ [] := by
  cases x <;> exact List.cons_ne_nil _ _

theorem spelledId_append_inj {x y p q : List Char} (h : spelledId x ++ p = spelledId y ++ q) : x = y ∧ p = q := by
  induction x generalizing y with
  | nil =>
    cases y with
    | nil => exact ⟨rfl, (List.cons.inj h).2⟩
    | cons d y => exact absurd (List.cons.inj h).1 (by decide)
  | cons c x ih =>
    cases y with
    | nil => exact absurd (List.cons.inj h).1 (by decide)
    | cons d y =>
      obtain ⟨rfl, hrest⟩ := List.cons.inj (List.cons.inj h).2
      obtain ⟨rfl, hpq⟩ := ih hrest
      exact ⟨rfl, hpq⟩

theorem spelled_injective : Function.Injective spelled := by
  intro ids ids' h
  have hchars := String.ofList_inj.mp h
  clear h
  induction ids generalizing ids' with
  | nil =>
    cases ids' with
    | nil => rfl
    | cons id' ids' => exact absurd hchars.symm spelledId_append_ne_nil
  | cons id ids ih =>
    cases ids' with
    | nil => exact absurd hchars spelledId_append_ne_nil
    | cons id' ids' =>
      obtain ⟨hid, hrest⟩ := spelledId_append_inj hchars
      rw [String.toList_inj.mp hid, ih hrest]

theorem threeArrivals_clustered :
    RealAndComplete (getRecentIssueArrivals threeArrivals 160 "github" 30) 30 3
        (detectClusters spelled threeArrivals 160 "github" 30 3) ∧
      ∀ g ∈ groupsOf 30 3 (getRecentIssueArrivals threeArrivals 160 "github" 30), 3 ≤ distinctIssues g := by
  obtain ⟨hpast, hgroups⟩ := detectClusters_exact spelled threeArrivals 160 "github" 30 3 (by decide)
  have hreal := (hpast (by decide)).mpr (by decide)
  exact ⟨hreal, ((hgroups spelled_injective).mp hreal).1⟩

/-- An issue with two cascades. -/
def cascadedTwice : FixAttempts :=
  (oneArrival.insert (.cascade ⟨"github", "7"⟩ "#7" 110 1 "org/web")).insert
    (.cascade ⟨"github", "7"⟩ "#7" 120 1 "org/docs")

theorem cascadedTwice_clustered :
    ¬ RealAndComplete (getRecentIssueArrivals cascadedTwice 160 "github" 30) 30 3
      (detectClusters spelled cascadedTwice 160 "github" 30 3) := by
  intro h
  exact absurd (enough_of_past (by decide) (by decide) h (by decide)) (by decide)

end Claudear.Analysis
