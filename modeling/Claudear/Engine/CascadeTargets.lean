import Claudear.Engine.Cascade

/-!
# Who a cascade reaches

`trigger_cascade` looks at the dependants in the graph, and then at the
repositories that only rules name. The rule passed on with a dependant is looked
up by the upstream's full name and then by its short one; the rule passed on with
a repository that only a rule names is looked up by the full name, and so is the
rule of another trigger that keeps a dependant out.

What the rules ask for is one call for each repository with a rule for the
upstream and the trigger, and on a merge one for each dependant without any rule
for the upstream.
-/

namespace Claudear.Engine.PullRequests

/-! ## The graph -/

structure Dependency where
  upstream : String
  downstream : String

/-- The dependencies in the order they were added in; one may be added again for another manifest. -/
structure DependencyGraph where
  repositories : List String
  dependencies : List Dependency

def DependencyGraph.getDependants (graph : DependencyGraph) (repo : String) : List String :=
  ((graph.dependencies.filter fun d => d.upstream = repo).map Dependency.downstream).filter
    fun name => name ∈ graph.repositories

/-! ## The calls -/

/-- A call of `cascade_to_repo`: the repository and the rule. -/
structure CascadeCall where
  name : String
  rule : Option CascadeRule
  deriving DecidableEq

namespace Watcher

variable (w : Watcher)

/-- The rule that is passed on with a dependant. -/
def dependantRule (scmRepo : String) (trigger : CascadeTrigger) (name : String) : Option CascadeRule :=
  (w.cascade.findRuleForTrigger scmRepo name trigger).or
    (w.cascade.findRuleForTrigger (shortName scmRepo) name trigger)

/-- The calls of `trigger_cascade`, in order. -/
def cascadeCalls (relationships : String → List String) (scmRepo : String) (trigger : CascadeTrigger) :
    List CascadeCall :=
  let names := dependants relationships scmRepo
  ((names.filter (w.cascades scmRepo trigger)).map fun name =>
      ⟨name, w.dependantRule scmRepo trigger name⟩) ++
    (w.ruleOnly scmRepo trigger names).map fun name =>
      ⟨name, w.cascade.findRuleForTrigger scmRepo name trigger⟩

/-! ## What the rules ask for -/

/-- A rule for the upstream, by either name, and the downstream. -/
def Governs (scmRepo name : String) (r : CascadeRule) : Prop :=
  (r.upstream = scmRepo ∨ r.upstream = shortName scmRepo) ∧ r.downstream = name

instance (scmRepo name : String) (r : CascadeRule) : Decidable (Governs scmRepo name r) :=
  inferInstanceAs (Decidable (_ ∧ _))

/-- Some rule asks for the downstream on this trigger. -/
def Asked (scmRepo : String) (trigger : CascadeTrigger) (name : String) : Prop :=
  ∃ r ∈ w.cascade.rules, Governs scmRepo name r ∧ r.trigger = trigger

/-- On a merge, a dependant without any rule. -/
def Default (names : List String) (scmRepo : String) (trigger : CascadeTrigger) (name : String) : Prop :=
  name ∈ names ∧ trigger = .merge ∧ ∀ r ∈ w.cascade.rules, ¬ Governs scmRepo name r

/-- One call for each downstream that is asked for, with a rule that asks for it, one for each that
takes part by default, and no other. -/
def FollowsRules (names : List String) (scmRepo : String) (trigger : CascadeTrigger)
    (calls : List CascadeCall) : Prop := ∀ name,
  (w.Asked scmRepo trigger name → ∃ r ∈ w.cascade.rules, Governs scmRepo name r ∧ r.trigger = trigger ∧
    calls.filter (fun c => c.name = name) = [⟨name, some r⟩]) ∧
  (w.Default names scmRepo trigger name → ∃ r, calls.filter (fun c => c.name = name) = [⟨name, r⟩]) ∧
  (¬ w.Asked scmRepo trigger name → ¬ w.Default names scmRepo trigger name →
    calls.filter (fun c => c.name = name) = [])

/-- The rules and the graph leave nothing to their order or to the form of a name. -/
structure Unambiguous (names : List String) (scmRepo : String) (trigger : CascadeTrigger) : Prop where
  /-- No dependant that takes part is listed twice. -/
  once : ∀ name ∈ names, w.Asked scmRepo trigger name ∨ w.Default names scmRepo trigger name →
    names.count name = 1
  /-- On a merge, a dependant that only releases are to reach has a rule that gives the full name. -/
  leftOut : trigger = .merge → ∀ name ∈ names, ¬ w.Asked scmRepo trigger name →
    (∃ r ∈ w.cascade.rules, Governs scmRepo name r) →
      ∃ r ∈ w.cascade.rules, r.upstream = scmRepo ∧ r.downstream = name
  /-- A repository that is no dependant has one rule for the trigger, which gives the full name. -/
  named : ∀ name ∉ names, w.Asked scmRepo trigger name →
    ∃ r, (w.cascade.rules.filter fun r => Governs scmRepo name r ∧ r.trigger = trigger) = [r] ∧
      r.upstream = scmRepo

/-! ## How often a repository is called -/

variable {w} {names : List String} {relationships : String → List String} {scmRepo name : String}
  {trigger : CascadeTrigger} {r : CascadeRule}

theorem filter_named (l : List String) (rule : String → Option CascadeRule) (name : String) :
    (l.map fun n => (⟨n, rule n⟩ : CascadeCall)).filter (fun c => c.name = name) =
      List.replicate (l.count name) ⟨name, rule name⟩ := by
  induction l with
  | nil => rfl
  | cons n l ih =>
    rw [List.map_cons, List.filter_cons, ih, List.count_cons]
    by_cases hn : n = name
    · subst hn
      simp [List.replicate_succ]
    · simp [hn]

theorem findRuleForTrigger_eq_some {cascade : CascadeConfig} {upstream : String}
    (h : cascade.findRuleForTrigger upstream name trigger = some r) :
    r ∈ cascade.rules ∧ r.upstream = upstream ∧ r.downstream = name ∧ r.trigger = trigger := by
  have hr := List.find?_some h
  simp only [Bool.and_eq_true, decide_eq_true_eq] at hr
  exact ⟨List.mem_of_find?_eq_some h, hr.1.1, hr.1.2, hr.2⟩

theorem findRuleForTrigger_eq_none {cascade : CascadeConfig} {upstream : String} :
    cascade.findRuleForTrigger upstream name trigger = none ↔
      ∀ r ∈ cascade.rules, ¬ (r.upstream = upstream ∧ r.downstream = name ∧ r.trigger = trigger) := by
  simp [CascadeConfig.findRuleForTrigger, List.find?_eq_none]

theorem dependantRule_eq_some (h : w.dependantRule scmRepo trigger name = some r) :
    r ∈ w.cascade.rules ∧ Governs scmRepo name r ∧ r.trigger = trigger := by
  rcases Option.or_eq_some_iff.mp h with h | ⟨-, h⟩
  · obtain ⟨hr, hu, hd, ht⟩ := findRuleForTrigger_eq_some h
    exact ⟨hr, ⟨.inl hu, hd⟩, ht⟩
  · obtain ⟨hr, hu, hd, ht⟩ := findRuleForTrigger_eq_some h
    exact ⟨hr, ⟨.inr hu, hd⟩, ht⟩

theorem dependantRule_eq_none : w.dependantRule scmRepo trigger name = none ↔
    ¬ w.Asked scmRepo trigger name := by
  rw [dependantRule, Option.or_eq_none_iff, findRuleForTrigger_eq_none, findRuleForTrigger_eq_none]
  constructor
  · rintro ⟨hfull, hshort⟩ ⟨r, hr, ⟨hu, hd⟩, ht⟩
    exact hu.elim (fun hu => hfull r hr ⟨hu, hd, ht⟩) fun hu => hshort r hr ⟨hu, hd, ht⟩
  · intro h
    exact ⟨fun r hr ⟨hu, hd, ht⟩ => h ⟨r, hr, ⟨.inl hu, hd⟩, ht⟩,
      fun r hr ⟨hu, hd, ht⟩ => h ⟨r, hr, ⟨.inr hu, hd⟩, ht⟩⟩

/-- Only a rule that gives the full name keeps a dependant out. -/
theorem cascades_iff : w.cascades scmRepo trigger name = true ↔ w.Asked scmRepo trigger name ∨
    (trigger = .merge ∧ ∀ r ∈ w.cascade.rules, ¬ (r.upstream = scmRepo ∧ r.downstream = name)) := by
  have hrule : (w.cascade.findRuleForTrigger scmRepo name trigger).or
      (w.cascade.findRuleForTrigger (shortName scmRepo) name trigger) =
        w.dependantRule scmRepo trigger name := rfl
  unfold cascades
  rw [hrule]
  cases hd : w.dependantRule scmRepo trigger name with
  | some r =>
    obtain ⟨hr, hg, ht⟩ := dependantRule_eq_some hd
    exact iff_of_true rfl (.inl ⟨r, hr, hg, ht⟩)
  | none =>
    have hnot := dependantRule_eq_none.mp hd
    cases hf : w.cascade.findRule scmRepo name with
    | some r =>
      have hr := List.find?_some hf
      simp only [Bool.and_eq_true, decide_eq_true_eq] at hr
      have hmem : r ∈ w.cascade.rules := List.mem_of_find?_eq_some hf
      refine iff_of_false (fun ht => ?_) ?_
      · exact hnot ⟨r, hmem, ⟨.inl hr.1, hr.2⟩, of_decide_eq_true ht⟩
      · exact fun h => h.elim hnot fun h => h.2 r hmem hr
    | none =>
      have hnone : ∀ r ∈ w.cascade.rules, ¬ (r.upstream = scmRepo ∧ r.downstream = name) := by
        simpa [CascadeConfig.findRule, List.find?_eq_none] using hf
      simp only [decide_eq_true_eq, hnot, false_or]
      exact ⟨fun h => ⟨h, hnone⟩, fun h => h.1⟩

theorem filter_cascadeCalls_of_mem (h : name ∈ dependants relationships scmRepo) :
    (w.cascadeCalls relationships scmRepo trigger).filter (fun c => c.name = name) =
      List.replicate (if w.cascades scmRepo trigger name then (dependants relationships scmRepo).count name
        else 0) ⟨name, w.dependantRule scmRepo trigger name⟩ := by
  have hothers : (w.ruleOnly scmRepo trigger (dependants relationships scmRepo)).count name = 0 := by
    rw [List.count_eq_zero, ruleOnly, List.mem_map]
    rintro ⟨r, hr, rfl⟩
    simp only [List.mem_filter, Bool.and_eq_true, decide_eq_true_eq] at hr
    exact hr.2.2 h
  rw [cascadeCalls, List.filter_append, filter_named, filter_named, hothers, List.replicate_zero,
    List.append_nil]
  split
  · rename_i hc
    rw [List.count_filter hc]
  · rename_i hc
    rw [List.count_eq_zero.mpr fun hm => hc (List.mem_filter.mp hm).2]

theorem filter_cascadeCalls_of_notMem (h : name ∉ dependants relationships scmRepo) :
    (w.cascadeCalls relationships scmRepo trigger).filter (fun c => c.name = name) =
      List.replicate (w.cascade.rules.filter fun r => Governs scmRepo name r ∧ r.trigger = trigger).length
        ⟨name, w.cascade.findRuleForTrigger scmRepo name trigger⟩ := by
  have hnames : ((dependants relationships scmRepo).filter (w.cascades scmRepo trigger)).count name = 0 :=
    List.count_eq_zero.mpr fun hm => h (List.mem_filter.mp hm).1
  have hothers : (w.ruleOnly scmRepo trigger (dependants relationships scmRepo)).count name =
      (w.cascade.rules.filter fun r => Governs scmRepo name r ∧ r.trigger = trigger).length := by
    rw [ruleOnly, List.count_eq_countP, List.countP_map, List.countP_filter, List.countP_eq_length_filter]
    congr 1
    refine List.filter_congr fun r _ => ?_
    by_cases hd : r.downstream = name
    · subst hd
      simp [Governs, h]
    · simp [Governs, hd]
  rw [cascadeCalls, List.filter_append, filter_named, filter_named, hnames, hothers, List.replicate_zero,
    List.nil_append]

/-- One call is as many calls as a repository is to have. -/
theorem replicate_eq_singleton {α : Type} {n : Nat} {a b : α} :
    List.replicate n a = [b] ↔ n = 1 ∧ a = b := by
  constructor
  · intro h
    obtain rfl : n = 1 := by simpa using congrArg List.length h
    exact ⟨rfl, List.head_eq_of_cons_eq h⟩
  · rintro ⟨rfl, rfl⟩
    rfl

theorem unambiguous_of_follows
    (h : w.FollowsRules (dependants relationships scmRepo) scmRepo trigger
      (w.cascadeCalls relationships scmRepo trigger)) :
    w.Unambiguous (dependants relationships scmRepo) scmRepo trigger where
  once name hn hwanted := by
    obtain ⟨r, hf⟩ : ∃ r, (w.cascadeCalls relationships scmRepo trigger).filter
        (fun c => c.name = name) = [⟨name, r⟩] := by
      rcases hwanted with hasked | hdefault
      · obtain ⟨r, -, -, -, hf⟩ := (h name).1 hasked
        exact ⟨some r, hf⟩
      · exact (h name).2.1 hdefault
    rw [filter_cascadeCalls_of_mem hn] at hf
    have hone := (replicate_eq_singleton.mp hf).1
    split at hone
    · exact hone
    · cases hone
  leftOut ht name hn hnot hex := by
    by_contra hno
    have hcascades : w.cascades scmRepo trigger name = true :=
      cascades_iff.mpr (.inr ⟨ht, fun r hr hfull => hno ⟨r, hr, hfull⟩⟩)
    have hf := (h name).2.2 hnot fun hdefault => hex.elim fun r hr => hdefault.2.2 r hr.1 hr.2
    rw [filter_cascadeCalls_of_mem hn, if_pos hcascades, List.replicate_eq_nil_iff] at hf
    exact List.count_eq_zero.mp hf hn
  named name hn hasked := by
    obtain ⟨r, hr, hg, ht, hf⟩ := (h name).1 hasked
    rw [filter_cascadeCalls_of_notMem hn, replicate_eq_singleton] at hf
    obtain ⟨hone, hcall⟩ := hf
    obtain ⟨r', hr'⟩ := List.length_eq_one_iff.mp hone
    have hfind : w.cascade.findRuleForTrigger scmRepo name trigger = some r := congrArg CascadeCall.rule hcall
    obtain rfl : r = r' := by
      have hmem : r ∈ w.cascade.rules.filter fun r => Governs scmRepo name r ∧ r.trigger = trigger :=
        List.mem_filter.mpr ⟨hr, decide_eq_true ⟨hg, ht⟩⟩
      rw [hr'] at hmem
      exact List.mem_singleton.mp hmem
    exact ⟨r, hr', (findRuleForTrigger_eq_some hfind).2.1⟩

theorem follows_of_unambiguous (h : w.Unambiguous (dependants relationships scmRepo) scmRepo trigger) :
    w.FollowsRules (dependants relationships scmRepo) scmRepo trigger
      (w.cascadeCalls relationships scmRepo trigger) := by
  intro name
  by_cases hn : name ∈ dependants relationships scmRepo
  · rw [filter_cascadeCalls_of_mem hn]
    refine ⟨fun hasked => ?_, fun hdefault => ?_, fun hasked hdefault => ?_⟩
    · cases hd : w.dependantRule scmRepo trigger name with
      | none => exact absurd hasked (dependantRule_eq_none.mp hd)
      | some r =>
        obtain ⟨hr, hg, ht⟩ := dependantRule_eq_some hd
        refine ⟨r, hr, hg, ht, replicate_eq_singleton.mpr ⟨?_, rfl⟩⟩
        rw [if_pos (cascades_iff.mpr (.inl hasked)), h.once name hn (.inl hasked)]
    · refine ⟨w.dependantRule scmRepo trigger name, replicate_eq_singleton.mpr ⟨?_, rfl⟩⟩
      have hnofull : ∀ r ∈ w.cascade.rules, ¬ (r.upstream = scmRepo ∧ r.downstream = name) :=
        fun r hr hfull => hdefault.2.2 r hr ⟨.inl hfull.1, hfull.2⟩
      rw [if_pos (cascades_iff.mpr (.inr ⟨hdefault.2.1, hnofull⟩)), h.once name hn (.inr hdefault)]
    · rw [if_neg, List.replicate_zero]
      intro hcascades
      rcases cascades_iff.mp hcascades with ha | ⟨ht, hnofull⟩
      · exact hasked ha
      · by_cases hex : ∃ r ∈ w.cascade.rules, Governs scmRepo name r
        · obtain ⟨r, hr, hfull⟩ := h.leftOut ht name hn hasked hex
          exact hnofull r hr hfull
        · exact hdefault ⟨hn, ht, fun r hr hg => hex ⟨r, hr, hg⟩⟩
  · rw [filter_cascadeCalls_of_notMem hn]
    refine ⟨fun hasked => ?_, fun hdefault => absurd hdefault.1 hn, fun hasked _ => ?_⟩
    · obtain ⟨r, hr, hu⟩ := h.named name hn hasked
      have hmem : r ∈ w.cascade.rules ∧ Governs scmRepo name r ∧ r.trigger = trigger := by
        have hr' := List.mem_filter.mp (hr ▸ List.mem_singleton_self r)
        exact hr'.imp_right of_decide_eq_true
      cases hfind : w.cascade.findRuleForTrigger scmRepo name trigger with
      | none =>
        exact absurd ⟨hu, hmem.2.1.2, hmem.2.2⟩ (findRuleForTrigger_eq_none.mp hfind r hmem.1)
      | some r' =>
        obtain ⟨hr', hu', hd', ht'⟩ := findRuleForTrigger_eq_some hfind
        obtain rfl : r' = r := by
          have hin : r' ∈ w.cascade.rules.filter fun r => Governs scmRepo name r ∧ r.trigger = trigger :=
            List.mem_filter.mpr ⟨hr', decide_eq_true ⟨⟨.inl hu', hd'⟩, ht'⟩⟩
          rw [hr] at hin
          exact List.mem_singleton.mp hin
        refine ⟨r', hmem.1, hmem.2.1, hmem.2.2, replicate_eq_singleton.mpr ⟨?_, rfl⟩⟩
        rw [hr, List.length_singleton]
    · rw [List.replicate_eq_nil_iff, List.length_eq_zero_iff, List.filter_eq_nil_iff]
      exact fun r hr hg => hasked ⟨r, hr, of_decide_eq_true hg⟩

/-- The calls are those that the rules ask for exactly when nothing depends on the order of the rules
and the graph, or on the form of a name. -/
theorem cascade_follows_rules_iff (w : Watcher) (graph : DependencyGraph) (scmRepo : String)
    (trigger : CascadeTrigger) :
    w.FollowsRules (dependants graph.getDependants scmRepo) scmRepo trigger
        (w.cascadeCalls graph.getDependants scmRepo trigger) ↔
      w.Unambiguous (dependants graph.getDependants scmRepo) scmRepo trigger :=
  ⟨unambiguous_of_follows, follows_of_unambiguous⟩

/-! ## Where the rules are not followed -/

/-- A watcher with these rules. -/
def ruled (rules : List CascadeRule) : Watcher where
  cascade := { enabled := true, maxDepth := 0, rules }
  relationships := none

/-- `o/web` depends on `o/l`. -/
def oneDependency : DependencyGraph := ⟨["o/l", "o/web"], [⟨"o/l", "o/web"⟩]⟩

/-- The same dependency, found in two manifests. -/
def twoManifests : DependencyGraph := ⟨["o/l", "o/web"], [⟨"o/l", "o/web"⟩, ⟨"o/l", "o/web"⟩]⟩

theorem shortName_ol : shortName "o/l" = "l" := by
  have hsplit : "o/l".splitOn "/" = ["o", "l"] := by
    rw [String.splitOn, if_neg (by decide)]
    rw [String.splitOnAux, if_neg (by decide), if_neg (by decide)]
    rw [String.splitOnAux, if_neg (by decide), if_pos (by decide)]
    dsimp only
    rw [if_pos (by decide)]
    rw [String.splitOnAux, if_neg (by decide), if_neg (by decide)]
    rw [String.splitOnAux, if_pos (by decide)]
    decide
  rw [shortName, hsplit]
  rfl

def twoRules : Watcher := ruled [⟨"o/l", "o/app", .merge⟩, ⟨"o/l", "o/app", .merge⟩]

def shortRule : Watcher := ruled [⟨"l", "o/app", .release⟩]

/-- The dependant is left to releases, by a rule that gives the short name. -/
def shortRelease : Watcher := ruled [⟨"l", "o/web", .release⟩]

theorem ruled_calls :
    twoRules.cascadeCalls oneDependency.getDependants "o/l" .merge =
      [⟨"o/web", none⟩, ⟨"o/app", some ⟨"o/l", "o/app", .merge⟩⟩,
        ⟨"o/app", some ⟨"o/l", "o/app", .merge⟩⟩] ∧
    shortRule.cascadeCalls oneDependency.getDependants "o/l" .release = [⟨"o/app", none⟩] ∧
    shortRelease.cascadeCalls oneDependency.getDependants "o/l" .merge = [⟨"o/web", none⟩] ∧
    (ruled []).cascadeCalls twoManifests.getDependants "o/l" .merge =
      [⟨"o/web", none⟩, ⟨"o/web", none⟩] := by
  unfold cascadeCalls cascades ruleOnly dependantRule dependants
  rw [shortName_ol]
  decide +kernel

/-- Two rules for one pair make two calls; a rule that gives the short name is not passed on; on a
merge, a dependant is called that a rule by the short name leaves to the release; and a dependency
found in two manifests makes two calls. -/
theorem rules_not_followed :
    (¬ twoRules.FollowsRules (dependants oneDependency.getDependants "o/l") "o/l" .merge
      (twoRules.cascadeCalls oneDependency.getDependants "o/l" .merge)) ∧
    (¬ shortRule.FollowsRules (dependants oneDependency.getDependants "o/l") "o/l" .release
      (shortRule.cascadeCalls oneDependency.getDependants "o/l" .release)) ∧
    (¬ shortRelease.FollowsRules (dependants oneDependency.getDependants "o/l") "o/l" .merge
      (shortRelease.cascadeCalls oneDependency.getDependants "o/l" .merge)) ∧
    ¬ (ruled []).FollowsRules (dependants twoManifests.getDependants "o/l") "o/l" .merge
      ((ruled []).cascadeCalls twoManifests.getDependants "o/l" .merge) := by
  obtain ⟨htwo, hshort, hrelease, hmanifests⟩ := ruled_calls
  rw [htwo, hshort, hrelease, hmanifests]
  refine ⟨fun h => ?_, fun h => ?_, fun h => ?_, fun h => ?_⟩
  · obtain ⟨r, -, -, -, hf⟩ := (h "o/app").1 ⟨_, List.mem_cons_self, ⟨.inl rfl, rfl⟩, rfl⟩
    cases hf
  · obtain ⟨r, -, -, -, hf⟩ := (h "o/app").1
      ⟨_, List.mem_cons_self, ⟨.inr shortName_ol.symm, rfl⟩, rfl⟩
    cases hf
  · have hf := (h "o/web").2.2
      (fun ⟨r, hr, _, ht⟩ => by
        rw [List.mem_singleton.mp hr] at ht
        cases ht)
      fun hd => hd.2.2 _ List.mem_cons_self ⟨.inr shortName_ol.symm, rfl⟩
    cases hf
  · have hmem : "o/web" ∈ dependants twoManifests.getDependants "o/l" := by decide +kernel
    obtain ⟨r, hf⟩ := (h "o/web").2.1 ⟨hmem, rfl, nofun⟩
    cases hf

end Watcher

end Claudear.Engine.PullRequests
