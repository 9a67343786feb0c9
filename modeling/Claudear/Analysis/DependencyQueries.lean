import Claudear.Analysis.Relationships

/-!
# What the dependency queries answer

Each of the three searches is a `Frontier`, so it finds what can be reached.
`get_all_dependants` pushes a repository before it marks it as visited: one is
there once for each dependency on a repository visited before it.
-/

namespace Claudear.Analysis

open Claudear.Data Relation

namespace DependencyGraph

variable {g : DependencyGraph} {a b c u v : String} {n : Nat} {visited queue order rest todo : List String}
  {result : List Repository} {deps : List Dependency} {hop : Option DependencyType}

/-- `v` depends on `u` directly. -/
def Leads (g : DependencyGraph) (u v : String) : Prop := ∃ e ∈ g.dependenciesOn u, e.downstream = v

def dependants (g : DependencyGraph) (u : String) : List String := (g.dependenciesOn u).map (·.downstream)

/-- The dependencies of `b` on what a depth-first search from `a` visits before it,
which goes from the dependant added last to the first. There is exactly one. -/
def ReachedOnce (g : DependencyGraph) (a b : String) : Prop :=
  ∃ order, Visits g.dependants [] [a] order ∧
    ((order.takeWhile (· ≠ b)).flatMap g.dependenciesOn).countP (·.downstream = b) = 1

/-- What the claim says of the answers to the three queries. -/
structure Agree (g : DependencyGraph) (a b : String) (all : List Repository) (dependsOn : Bool)
    (hop : Option DependencyType) : Prop where
  once : all.countP (·.name = b) = if dependsOn then 1 else 0
  notStart : all.countP (·.name = a) = 0
  found : hop.isSome = dependsOn
  firstHop : ∀ t ∈ hop, ∃ e ∈ g.dependenciesOn a, e.dep_type = t ∧ ReflTransGen g.Leads e.downstream b

/-! ## Every dependency, for the bound on the steps -/

theorem length_getD_le (m : Dict String (List Dependency)) (u : String) :
    ((m.get u).getD []).length ≤ ((allOf m).filter fun e => e.1 = u).length := by
  cases hu : m.get u with
  | none => exact Nat.zero_le _
  | some ds =>
    obtain ⟨pre, post, hsplit⟩ := List.append_of_mem (Dict.get_eq_some.mp hu)
    have hself : (ds.map fun e => (u, e)).filter (fun e => e.1 = u) = ds.map fun e => (u, e) := by
      rw [List.filter_eq_self]
      intro e he
      obtain ⟨d, -, rfl⟩ := List.mem_map.mp he
      exact decide_eq_true rfl
    rw [allOf, hsplit, List.flatMap_append, List.flatMap_cons, List.filter_append, List.filter_append, hself]
    simp only [List.length_append, List.length_map, Option.getD_some]
    omega

/-! ## `depends_on` -/

/-- `u` is a dependency of `d`. -/
def Needs (g : DependencyGraph) (d u : String) : Prop := ∃ e ∈ g.dependenciesOf d, e.upstream = u

theorem Mirrored.needs_iff (h : g.Mirrored) : g.Needs u v ↔ g.Leads v u := by
  constructor
  · rintro ⟨e, he, rfl⟩
    exact ⟨e, (h.of u e he).2, (h.of u e he).1⟩
  · rintro ⟨e, he, rfl⟩
    exact ⟨e, (h.on v e he).2, (h.on v e he).1⟩

theorem pushUpstreams_error {r : Bool} :
    pushUpstreams b visited deps queue = .error r ↔ r = true ∧ ∃ e ∈ deps, e.upstream = b := by
  induction deps generalizing queue with
  | nil => simp [pushUpstreams]
  | cons e deps ih =>
    rw [pushUpstreams]
    split
    · rename_i h
      simp [h]
    · rename_i h
      rw [ih]
      simp [h]

theorem pushUpstreams_some (h : pushUpstreams b visited deps queue = .ok ((), todo)) :
    (∀ v, v ∈ todo ↔ v ∈ queue ∨ v ∉ visited ∧ ∃ e ∈ deps, e.upstream = v) ∧
      todo.length ≤ queue.length + deps.length := by
  induction deps generalizing queue with
  | nil =>
    cases h
    simp
  | cons e deps ih =>
    rw [pushUpstreams] at h
    split at h
    · cases h
    · obtain ⟨hmem, hlen⟩ := ih h
      split at hmem
      · rename_i hv
        rw [if_pos hv] at hlen
        refine ⟨fun v => ?_, by simp only [List.length_cons]; omega⟩
        rw [hmem]
        simp only [List.mem_cons, exists_eq_or_imp]
        constructor
        · tauto
        · rintro (h | ⟨h, rfl | h'⟩)
          · exact .inl h
          · exact absurd hv h
          · exact .inr ⟨h, h'⟩
      · rename_i hv
        rw [if_neg hv] at hlen
        refine ⟨fun v => ?_, by simp only [List.length_cons] at hlen ⊢; omega⟩
        rw [hmem]
        simp only [List.mem_cons, exists_eq_or_imp]
        constructor
        · rintro ((rfl | h) | h)
          · exact .inr ⟨hv, .inl rfl⟩
          · exact .inl h
          · exact .inr ⟨h.1, .inr h.2⟩
        · rintro (h | ⟨h, rfl | h'⟩)
          · exact .inl (.inr h)
          · exact .inl (.inl rfl)
          · exact .inr ⟨h, h'⟩

theorem dependsOn_ends (g : DependencyGraph) (a b : String) :
    ∃ d, (∀ fuel, 1 + (allOf g.upstream_deps).length < fuel → g.dependsOn fuel a b = some d) ∧ (d = true ↔ TransGen g.Needs a b) := by
  refine worklist_ends id _ _ [a] (I := fun visited _ queue => Frontier g.Needs a visited queue ∧ ∀ u ∈ visited, ¬ g.Needs u b)
    (allOf g.upstream_deps) Prod.fst ?_ ?_ ?_ ?_ ⟨.init, by simp⟩
  · rintro visited s u todo ⟨hf, hb⟩ hu
    exact ⟨hf.skip hu, hb⟩
  · rintro visited s u todo r ⟨hf, hb⟩ hr
    obtain ⟨rfl, hub⟩ := pushUpstreams_error.mp hr
    exact iff_of_true rfl (TransGen.tail'_iff.mpr ⟨u, hf.reached u (.inr List.mem_cons_self), hub⟩)
  · rintro visited s u todo ⟨⟩ todo' ⟨hf, hb⟩ hu hok
    obtain ⟨hmem, hlen⟩ := pushUpstreams_some hok
    have hnot : ¬ g.Needs u b := fun h => by
      rw [pushUpstreams_error.mpr ⟨rfl, h⟩] at hok
      cases hok
    refine ⟨⟨hf.visit (fun v hv => ?_) (fun v hv => (hmem v).mpr (.inl hv)) fun v hv => ?_, fun w hw => ?_⟩,
      Nat.le_trans hlen (Nat.add_le_add_left (length_getD_le _ u) _)⟩
    · exact ((hmem v).mp hv).imp_right And.right
    · by_cases hseen : v ∈ visited ++ [u]
      · exact .inl hseen
      · exact .inr ((hmem v).mpr (.inr ⟨hseen, hv⟩))
    · rcases List.mem_append.mp hw with hw | hw
      · exact hb w hw
      · rwa [List.mem_singleton.mp hw]
  · rintro visited s ⟨hf, hb⟩
    simpa using hf.not_reached hb

/-! ## `get_first_hop_dependency_type_to_target` -/

/-- `v` is on the queue with the type of an edge out of `a` on a path to it; the start has none. -/
def HopFrom (g : DependencyGraph) (a : String) (x : String × Option DependencyType) : Prop :=
  x = (a, none) ∨ ∃ e ∈ g.dependenciesOn a, x.2 = some e.dep_type ∧ ReflTransGen g.Leads e.downstream x.1

theorem HopFrom.next {x : String × Option DependencyType} {e : Dependency} (h : g.HopFrom a x)
    (he : e ∈ g.dependenciesOn x.1) : ∃ f ∈ g.dependenciesOn a,
      x.2.or (some e.dep_type) = some f.dep_type ∧ ReflTransGen g.Leads f.downstream e.downstream := by
  rcases h with rfl | ⟨f, hf, hx, hpath⟩
  · exact ⟨e, he, rfl, .refl⟩
  · rw [hx]
    exact ⟨f, hf, rfl, hpath.tail ⟨e, he, rfl⟩⟩

variable {hops hops' : List (String × Option DependencyType)}

theorem pushHops_error {found : Option DependencyType} (h : pushHops b hop deps hops = .error found) :
    ∃ e ∈ deps, e.downstream = b ∧ found = hop.or (some e.dep_type) := by
  induction deps generalizing hops with
  | nil => cases h
  | cons e deps ih =>
    rw [pushHops] at h
    split at h
    · rename_i hb
      cases h
      exact ⟨e, List.mem_cons_self, hb, rfl⟩
    · obtain ⟨f, hf, hfb⟩ := ih h
      exact ⟨f, List.mem_cons_of_mem e hf, hfb⟩

theorem pushHops_ok (h : pushHops b hop deps hops = .ok ((), hops')) :
    (∀ e ∈ deps, e.downstream ≠ b) ∧ hops' = hops ++ deps.map fun e => (e.downstream, hop.or (some e.dep_type)) := by
  induction deps generalizing hops with
  | nil =>
    cases h
    simp
  | cons e deps ih =>
    rw [pushHops] at h
    split at h
    · cases h
    · rename_i hb
      obtain ⟨hne, rfl⟩ := ih h
      exact ⟨List.forall_mem_cons.mpr ⟨hb, hne⟩, by simp⟩

theorem firstHop_ends (g : DependencyGraph) (hab : a ≠ b) :
    ∃ hop, (∀ fuel, 1 + (allOf g.downstream_deps).length < fuel →
      g.getFirstHopDependencyTypeToTarget fuel a b = some hop) ∧
      (hop.isSome = true ↔ TransGen g.Leads a b) ∧
      ∀ t ∈ hop, ∃ e ∈ g.dependenciesOn a, e.dep_type = t ∧ ReflTransGen g.Leads e.downstream b := by
  unfold getFirstHopDependencyTypeToTarget
  simp only [if_neg hab]
  refine worklist_ends Prod.fst _ _ [(a, none)] (I := fun visited _ hops => Frontier g.Leads a visited (hops.map Prod.fst) ∧
    (∀ u ∈ visited, ¬ g.Leads u b) ∧ ∀ x ∈ hops, g.HopFrom a x)
    (allOf g.downstream_deps) Prod.fst ?_ ?_ ?_ ?_ ?_
  · rintro visited s x todo ⟨hf, hb, hfrom⟩ hx
    exact ⟨hf.skip hx, hb, fun y hy => hfrom y (List.mem_cons_of_mem x hy)⟩
  · rintro visited s ⟨u, hop⟩ todo r ⟨hf, hb, hfrom⟩ hr
    obtain ⟨e, he, rfl, rfl⟩ := pushHops_error hr
    obtain ⟨f, hfa, hor, hpath⟩ := (hfrom _ List.mem_cons_self).next he
    rw [hor]
    refine ⟨iff_of_true rfl (TransGen.tail'_iff.mpr ⟨u, hf.reached u (.inr List.mem_cons_self), e, he, rfl⟩), ?_⟩
    rintro t ⟨⟩
    exact ⟨f, hfa, rfl, hpath⟩
  · rintro visited s ⟨u, hop⟩ todo ⟨⟩ todo' ⟨hf, hb, hfrom⟩ hu hok
    obtain ⟨hne, rfl⟩ := pushHops_ok hok
    refine ⟨⟨hf.visit (fun v hv => ?_) (fun v hv => ?_) fun v hv => ?_, fun w hw => ?_, fun x hx => ?_⟩, ?_⟩
    · rw [List.map_append, List.map_map] at hv
      refine (List.mem_append.mp hv).imp_right fun hv => ?_
      obtain ⟨e, he, rfl⟩ := List.mem_map.mp hv
      exact ⟨e, he, rfl⟩
    · rw [List.map_append]
      exact List.mem_append_left _ hv
    · obtain ⟨e, he, rfl⟩ := hv
      refine .inr (List.mem_map.mpr ⟨_, List.mem_append_right _ (List.mem_map.mpr ⟨e, he, rfl⟩), rfl⟩)
    · rcases List.mem_append.mp hw with hw | hw
      · exact hb w hw
      · rw [List.mem_singleton.mp hw]
        rintro ⟨e, he, heb⟩
        exact hne e he heb
    · rcases List.mem_append.mp hx with hx | hx
      · exact hfrom x (List.mem_cons_of_mem _ hx)
      · obtain ⟨e, he, rfl⟩ := List.mem_map.mp hx
        exact .inr ((hfrom _ List.mem_cons_self).next he)
    · rw [List.length_append, List.length_map]
      exact Nat.add_le_add_left (length_getD_le _ u) _
  · rintro visited s ⟨hf, hb, -⟩
    exact ⟨iff_of_false (by simp) (hf.not_reached hb), by simp⟩
  · exact ⟨.init, by simp, by simp [HopFrom]⟩

/-! ## `get_all_dependants` -/

/-- What is pushed when the repositories are visited in this order, after `visited`. -/
def emitted (g : DependencyGraph) : List String → List String → List Repository
  | _, [] => []
  | visited, u :: rest =>
    ((g.dependenciesOn u).filter fun e => e.downstream ∉ visited ++ [u]).filterMap
      (fun e => g.repositories.get e.downstream) ++ emitted g (visited ++ [u]) rest

theorem emitted_append : emitted g visited (order ++ rest) = emitted g visited order ++ emitted g (visited ++ order) rest := by
  induction order generalizing visited with
  | nil => simp [emitted]
  | cons u order ih =>
    simp only [List.cons_append, emitted, ih, List.append_assoc, List.nil_append]

theorem foldl_pushDependant (h : ∀ e ∈ deps, (g.repositories.get e.downstream).isSome = true) :
    deps.foldl (g.pushDependant visited) (result, queue) =
      (result ++ (deps.filter fun e => e.downstream ∉ visited).filterMap (fun e => g.repositories.get e.downstream),
        ((deps.map (·.downstream)).reverse.filter (· ∉ visited)) ++ queue) := by
  induction deps generalizing result queue with
  | nil => simp
  | cons e deps ih =>
    obtain ⟨he, hdeps⟩ := List.forall_mem_cons.mp h
    obtain ⟨r, hr⟩ := Option.isSome_iff_exists.mp he
    rw [List.foldl_cons, pushDependant]
    by_cases hv : e.downstream ∈ visited
    · rw [if_pos hv, ih hdeps]
      simp [hv]
    · rw [if_neg hv, hr]
      simp only [ih hdeps]
      simp [hv, hr]

theorem countP_pushed {seen : List String}
    (h : ∀ e ∈ deps, ∃ r, g.repositories.get e.downstream = some r ∧ r.name = e.downstream) :
    ((deps.filter fun e => e.downstream ∉ seen).filterMap fun e => g.repositories.get e.downstream).countP (·.name = b) =
      if b ∈ seen then 0 else deps.countP (·.downstream = b) := by
  induction deps with
  | nil => simp
  | cons e deps ih =>
    obtain ⟨⟨r, hr, hname⟩, hdeps⟩ := List.forall_mem_cons.mp h
    rw [List.filter_cons, List.countP_cons]
    by_cases hs : e.downstream ∈ seen
    · have hne : b ∉ seen → e.downstream ≠ b := fun hb he => hb (he ▸ hs)
      simp only [hs, not_true, decide_false, Bool.false_eq_true, if_false, ih hdeps]
      split
      · rfl
      · rename_i hb
        simp [hne hb]
    · simp only [hs, not_false_eq_true, decide_true, if_true, List.filterMap_cons, hr, List.countP_cons, ih hdeps, hname]
      by_cases he : e.downstream = b
      · subst he
        simp [hs]
      · simp [he]

/-- A repository is pushed once for each dependency on one visited before it. -/
theorem countP_emitted (h : g.Mirrored) : (emitted g visited order).countP (·.name = b) =
    if b ∈ visited then 0 else ((order.takeWhile (· ≠ b)).flatMap g.dependenciesOn).countP (·.downstream = b) := by
  induction order generalizing visited with
  | nil => simp [emitted]
  | cons u order ih =>
    have hends : ∀ e ∈ g.dependenciesOn u, ∃ r, g.repositories.get e.downstream = some r ∧ r.name = e.downstream := by
      intro e he
      obtain ⟨r, hr⟩ := Option.isSome_iff_exists.mp (h.ends u e he)
      exact ⟨r, hr, h.named _ r hr⟩
    rw [emitted, List.countP_append, countP_pushed hends, ih]
    by_cases hb : b ∈ visited
    · simp [hb]
    · by_cases hu : u = b
      · subst hu
        simp [hb]
      · simp [hb, hu, Ne.symm hu, List.countP_append]

theorem allDependants_ends (h : g.Mirrored) (a : String) :
    ∃ all, (∀ fuel, 1 + (allOf g.downstream_deps).length < fuel → g.getAllDependants fuel a = some all) ∧
      ∃ order, Visits g.dependants [] [a] order ∧ all = emitted g [] order ∧ ∀ v, v ∈ order ↔ ReflTransGen g.Leads a v := by
  refine worklist_ends id _ _ [a] (I := fun visited result queue => Frontier g.Leads a visited queue ∧
    result = emitted g [] visited ∧ ∀ order, Visits g.dependants visited queue order → Visits g.dependants [] [a] order)
    (allOf g.downstream_deps) Prod.fst ?_ ?_ ?_ ?_ ⟨.init, rfl, fun _ h => h⟩
  · rintro visited result u queue ⟨hf, hres, hord⟩ hu
    exact ⟨hf.skip hu, hres, fun order ho => hord order (.skip hu ho)⟩
  · rintro visited result u queue r - hr
    cases hr
  · rintro visited result u queue result' queue' ⟨hf, rfl, hord⟩ hu hok
    rw [foldl_pushDependant (h.ends u)] at hok
    obtain ⟨rfl, rfl⟩ := Prod.mk.inj (Except.ok.inj hok)
    refine ⟨⟨hf.visit (fun v hv => ?_) (fun v hv => List.mem_append_right _ hv) fun v hv => ?_, ?_, fun order ho => ?_⟩, ?_⟩
    · rcases List.mem_append.mp hv with hv | hv
      · obtain ⟨e, he, rfl⟩ := List.mem_map.mp (List.mem_reverse.mp (List.mem_filter.mp hv).1)
        exact .inr ⟨e, he, rfl⟩
      · exact .inl hv
    · by_cases hseen : v ∈ visited ++ [u]
      · exact .inl hseen
      · obtain ⟨e, he, rfl⟩ := hv
        refine .inr (List.mem_append_left _ (List.mem_filter.mpr ⟨?_, decide_eq_true hseen⟩))
        exact List.mem_reverse.mpr (List.mem_map.mpr ⟨e, he, rfl⟩)
    · rw [emitted_append]
      simp [emitted]
    · obtain ⟨m, hm, hrest⟩ := ho.append
      exact hord order (.visit hu (hm.of_filter (List.Subset.refl _)) hrest)
    · have hle := length_getD_le g.downstream_deps u
      have hfilter := List.length_filter_le (fun v => decide (v ∉ visited ++ [u])) ((g.dependenciesOn u).map (·.downstream)).reverse
      rw [List.length_reverse, List.length_map] at hfilter
      rw [List.length_append, Nat.add_comm]
      exact Nat.add_le_add_left (Nat.le_trans hfilter hle) _
  · rintro visited result ⟨hf, hres, hord⟩
    exact ⟨visited, hord visited .nil, hres, fun v => hf.mem_iff⟩

theorem start_not_emitted (h : g.Mirrored) (ho : Visits g.dependants [] [a] order) :
    (emitted g [] order).countP (·.name = a) = 0 := by
  cases ho with
  | skip ha => cases ha
  | visit _ hm hn =>
    obtain ⟨rest, rfl⟩ := hm.isPrefix.trans hn.isPrefix
    rw [countP_emitted h]
    simp

/-- What cannot be reached is pushed by nothing that was visited. -/
theorem not_reached_not_emitted (h : g.Mirrored) (hmem : ∀ v, v ∈ order ↔ ReflTransGen g.Leads a v)
    (hb : ¬ TransGen g.Leads a b) : (emitted g [] order).countP (·.name = b) = 0 := by
  rw [countP_emitted h, if_neg List.not_mem_nil, List.countP_eq_zero]
  intro e he hd
  obtain ⟨u, hu, heu⟩ := List.mem_flatMap.mp he
  have hreach := (hmem u).mp ((List.takeWhile_prefix _).subset hu)
  exact hb (TransGen.tail'_iff.mpr ⟨u, hreach, e, heu, of_decide_eq_true hd⟩)

theorem Mirrored.transGen_needs (h : g.Mirrored) : TransGen g.Needs b a ↔ TransGen g.Leads a b := by
  have hswap : g.Needs = Function.swap g.Leads := by
    funext u v
    exact propext h.needs_iff
  rw [hswap, transGen_swap]

end DependencyGraph

open DependencyGraph

/-- The searches end. `depends_on` and the first hop are right, the start is not among
its dependants, and a repository that depends on it is there exactly once if and only
if it was reached once. -/
theorem queries_agree_iff (calls : List GraphCall) {a b : String} (hab : a ≠ b) :
    ∃ all dependsOn hop, (∀ fuel, (built calls).steps ≤ fuel → (built calls).getAllDependants fuel a = some all ∧
        (built calls).dependsOn fuel b a = some dependsOn ∧
        (built calls).getFirstHopDependencyTypeToTarget fuel a b = some hop) ∧
      (dependsOn = true ↔ TransGen (built calls).Leads a b) ∧
      ((built calls).Agree a b all dependsOn hop ↔
        (TransGen (built calls).Leads a b → (built calls).ReachedOnce a b)) := by
  have hg := mirrored_built calls
  obtain ⟨all, hall, order, hvisits, rfl, hmem⟩ := allDependants_ends hg a
  obtain ⟨d, hd, hdiff⟩ := dependsOn_ends (built calls) b a
  obtain ⟨hop, hhop, hsome, hfirst⟩ := firstHop_ends (built calls) hab
  rw [hg.transGen_needs] at hdiff
  have hsteps : 1 + (allOf (built calls).downstream_deps).length < (built calls).steps ∧
      1 + (allOf (built calls).upstream_deps).length < (built calls).steps := by
    unfold steps
    omega
  refine ⟨_, d, hop, fun fuel hfuel => ⟨hall fuel (by omega), hd fuel (by omega), hhop fuel (by omega)⟩, hdiff, ?_⟩
  constructor
  · intro h hb
    have honce := h.once
    rw [hdiff.mpr hb, if_pos rfl, countP_emitted hg, if_neg List.not_mem_nil] at honce
    exact ⟨order, hvisits, honce⟩
  · intro h
    refine ⟨?_, start_not_emitted hg hvisits, Bool.eq_iff_iff.mpr (hsome.trans hdiff.symm), hfirst⟩
    by_cases hb : TransGen (built calls).Leads a b
    · obtain ⟨order', hvisits', honce⟩ := h hb
      obtain rfl := hvisits.unique hvisits'
      rw [hdiff.mpr hb, if_pos rfl, countP_emitted hg, if_neg List.not_mem_nil]
      exact honce
    · rw [Bool.eq_false_iff.mpr fun hd => hb (hdiff.mp hd), not_reached_not_emitted hg hmem hb]
      rfl

/-- `appwrite` is reached by two ways from `utopia`, which depends on it. -/
def diamond : List GraphCall :=
  [.addDependency "utopia" "http" .Composer none, .addDependency "utopia" "cli" .Composer none,
    .addDependency "http" "appwrite" .Composer none, .addDependency "cli" "appwrite" .Npm none,
    .addDependency "appwrite" "utopia" .Composer none]

theorem queries_agree_diamond : ∃ all hop,
    (∀ fuel, (built diamond).steps ≤ fuel → (built diamond).getAllDependants fuel "utopia" = some all ∧
        (built diamond).dependsOn fuel "appwrite" "utopia" = some true ∧
        (built diamond).getFirstHopDependencyTypeToTarget fuel "utopia" "appwrite" = some hop) ∧
      (built diamond).Agree "utopia" "appwrite" all true hop := by
  obtain ⟨all, dependsOn, hop, hruns, hreach, hagree⟩ :=
    queries_agree_iff diamond (a := "utopia") (b := "appwrite") (by decide)
  have hcli : (built diamond).Leads "utopia" "cli" := by unfold Leads; decide
  have happwrite : (built diamond).Leads "cli" "appwrite" := by unfold Leads; decide
  obtain rfl := hreach.mpr (.tail (.single hcli) happwrite)
  -- `http` is visited last, when `appwrite` has been
  have hvisits : Visits (built diamond).dependants [] ["utopia"] ["utopia", "cli", "appwrite", "http"] :=
    .visit (by decide) (.visit (by decide) (.visit (by decide) (.skip (by decide) .nil) .nil)
      (.visit (by decide) (.skip (by decide) .nil) .nil)) .nil
  exact ⟨all, hop, hruns, hagree.mpr fun _ => ⟨_, hvisits, by decide⟩⟩

/-- `appwrite` depends on `http` and both on `utopia`: it is there twice. -/
theorem dependant_twice :
    let g := built [.addDependency "utopia" "appwrite" .Composer none, .addDependency "utopia" "http" .Composer none,
      .addDependency "http" "appwrite" .Composer none]
    g.dependsOn 9 "appwrite" "utopia" = some true ∧
      (g.getAllDependants 9 "utopia").map (·.map (·.name)) = some ["appwrite", "http", "appwrite"] := by
  decide

end Claudear.Analysis
