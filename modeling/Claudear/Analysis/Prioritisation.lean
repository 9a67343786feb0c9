import Claudear.Analysis.Issue

/-!
# The prioritisation pipeline

`prioritise` splits the candidates from their match results, drops what a
suppression rule matches, clusters and scores the rest, blends in the
assessments of the LLM and sorts. The libraries it calls are the parameter
`L`. A `HashMap` is a function of its key; the order in which the buckets of
similar issues are visited is a parameter as well.
-/

namespace Claudear.Analysis

/-! ## Configuration and results -/

inductive SuppressionField where
  | title
  | description
  | source
  | culprit
  | filename
  | errorType
  | project
  | labels
  | metadata (key : String)

inductive SuppressionMatchMode where
  | contains
  | exact
  | regex
  deriving DecidableEq

structure SuppressionRule where
  name : String
  field : SuppressionField
  pattern : String
  matchMode : SuppressionMatchMode := .contains
  sources : List String := []
  reason : String := ""

structure SuppressionResult where
  suppressed : Bool
  matchedRule : Option String
  reason : Option String
  deriving DecidableEq

structure PrioritisationConfig where
  severityWeight : Float := 0.30
  frequencyWeight : Float := 0.25
  regressionWeight : Float := 0.20
  blastRadiusWeight : Float := 0.15
  clusterWeight : Float := 0.10
  criticalPaths : List String
  corePaths : List String
  infraPaths : List String
  testPaths : List String
  cosmeticPaths : List String
  contentClustering : Bool
  clusterSimilarityThreshold : Float
  minContentClusterSize : Nat
  suppressionRules : List SuppressionRule := []

inductive BlastRadius where
  | critical
  | infrastructure
  | core
  | peripheral
  | test
  | cosmetic
  deriving DecidableEq

structure SeverityScore where
  score : Float
  severityComponent : Float
  frequencyComponent : Float
  regressionComponent : Float
  blastRadiusComponent : Float
  clusterBoost : Float

structure ContentCluster where
  clusterKey : String
  source : String
  representativeIssueId : String
  issueIds : List String
  errorType : Option String
  culprit : Option String
  avgSimilarity : Float
  status : String

structure PrioritisedIssue where
  issue : Issue
  matchResult : MatchResult
  severityScore : SeverityScore
  blastRadius : BlastRadius
  clusterKey : Option String

structure LlmIssueAssessment where
  issueId : String
  severity : Float
  blastRadius : BlastRadius
  fingerprint : String

abbrev Bucket := (String × String) × List Issue

/-- The libraries the pipeline calls, and the order a `HashMap` of buckets is visited in. -/
structure Libraries where
  caseProps : Text.CaseProps
  /-- `Regex::new` and `Regex::is_match` -/
  regex : String → Option (String → Bool)
  /-- `serde_json::Value::to_string` -/
  jsonText : Json → String
  cosineSimilarity : List Float32 → List Float32 → Float
  visit : List Bucket → List Bucket

variable (L : Libraries)

/-! ## Suppression -/

def maxRegexPatternLength : Nat := 1024

/-- The compiled patterns by pattern; `none` inside is a pattern that is too long or invalid. -/
abbrev RegexCache := String → Option (Option (String → Bool))

def RegexCache.new (rules : List SuppressionRule) : RegexCache :=
  rules.foldl (fun compiled rule =>
    if rule.matchMode = .regex ∧ (compiled rule.pattern).isNone then
      Function.update compiled rule.pattern
        (some (if rule.pattern.utf8ByteSize > maxRegexPatternLength then none
          else L.regex rule.pattern))
    else compiled) fun _ => none

def RegexCache.isMatch (cache : RegexCache) (pattern value : String) : Bool :=
  match (cache pattern).join with
  | some re => re value
  | none => false

def extractField (issue : Issue) : SuppressionField → Option String
  | .title => some issue.title
  | .description => issue.description
  | .source => some issue.source
  | .culprit => issue.getMetadata Json.asString "culprit"
  | .filename => issue.getMetadata Json.asString "filename"
  | .errorType => issue.getMetadata Json.asString "error_type"
  | .project => issue.getMetadata Json.asString "project"
  | .labels => (issue.getMetadata Json.asStrings "labels").map (String.intercalate ",")
  | .metadata key => (issue.metadata key).map fun v => v.asString.getD (L.jsonText v)

def matchesPatternCached (value pattern : String) (mode : SuppressionMatchMode)
    (cache : RegexCache) : Bool :=
  match mode with
  | .contains => contains (Text.toLowercase L.caseProps value) (Text.toLowercase L.caseProps pattern)
  | .exact => Text.toLowercase L.caseProps value == Text.toLowercase L.caseProps pattern
  | .regex => cache.isMatch pattern value

/-- The body of the loop over the rules: whether it returns at this rule. -/
def ruleMatches (issue : Issue) (cache : RegexCache) (rule : SuppressionRule) : Bool :=
  if !rule.sources.isEmpty && !rule.sources.any (eqIgnoreAsciiCase · issue.source) then false
  else
    match extractField L issue rule.field with
    | some v => if v.isEmpty then false else matchesPatternCached L v rule.pattern rule.matchMode cache
    | none => false

def checkIssueWithCache (rules : List SuppressionRule) (issue : Issue) (cache : RegexCache) :
    SuppressionResult :=
  match rules.find? (ruleMatches L issue cache) with
  | some rule =>
    { suppressed := true
      matchedRule := some rule.name
      reason := some (if rule.reason.isEmpty then s!"Matched rule '{rule.name}'" else rule.reason) }
  | none => { suppressed := false, matchedRule := none, reason := none }

def evaluate (rules : List SuppressionRule) (candidates : List Issue) :
    List Issue × List (Issue × SuppressionResult) :=
  let cache := RegexCache.new L rules
  let results := candidates.map fun issue => (issue, checkIssueWithCache L rules issue cache)
  ((results.filter fun r => !r.2.suppressed).map Prod.fst, results.filter fun r => r.2.suppressed)

/-! ## Blast radius -/

def isSeparator (c : Char) : Bool := ['/', '\\', '.', '_', '-'].contains c

def anyMatch (haystack patterns : List String) : Bool :=
  haystack.any fun h =>
    let segments := (h.toList.splitOnP isSeparator).map String.ofList
    (patterns.map (Text.toLowercase L.caseProps)).any fun p => segments.any (· == p)

def classify (issue : Issue) (config : PrioritisationConfig) : BlastRadius :=
  let signals := ["filename", "function", "culprit"].filterMap (issue.getMetadata Json.asString)
  if signals.isEmpty then .core
  else
    let haystack := signals.map (Text.toLowercase L.caseProps)
    if anyMatch L haystack config.criticalPaths then .critical
    else if anyMatch L haystack config.infraPaths then .infrastructure
    else if anyMatch L haystack config.cosmeticPaths then .cosmetic
    else if anyMatch L haystack config.testPaths then .test
    else if anyMatch L haystack config.corePaths then .core
    else .peripheral

def blastRadiusScore : BlastRadius → Float
  | .critical => 1.0
  | .infrastructure => 0.8
  | .core => 0.6
  | .peripheral => 0.4
  | .test => 0.2
  | .cosmetic => 0.1

/-! ## Content clusters -/

def maxBucketSample : Nat := 50

/-- The pairs of two positions, the earlier one first. -/
def pairs {α : Type} : List α → List (α × α)
  | [] => []
  | a :: l => l.map (fun b => (a, b)) ++ pairs l

def titleSimilarity (a b : String) : Float :=
  let setA := ((splitWhitespace a).map (Text.toLowercase L.caseProps)).eraseDups
  let setB := ((splitWhitespace b).map (Text.toLowercase L.caseProps)).eraseDups
  if setA.isEmpty && setB.isEmpty then 0.0
  else
    let intersection := (setA.filter setB.contains).length
    let union := setA.length + setB.length - intersection
    Float.ofNat intersection / Float.ofNat union

def averagePairwiseSimilarity (titles : List String) : Float :=
  if titles.length < 2 then 1.0
  else
    let total := (pairs titles).foldl (fun t p => t + titleSimilarity L p.1 p.2) 0.0
    total / Float.ofNat (pairs titles).length

abbrev Embeddings := String → Option (List Float32)

def embeddingSimilarity (idA idB : String) (embeddings : Embeddings) : Option Float := do
  let a ← embeddings idA
  let b ← embeddings idB
  return (L.cosineSimilarity a b).toFloat32.toFloat

def averagePairwiseEmbeddingSimilarity (issueIds : List String) (embeddings : Embeddings) :
    Option Float :=
  if issueIds.length < 2 then some 1.0
  else do
    let total ← (pairs issueIds).foldlM
      (fun t p => (embeddingSimilarity L p.1 p.2 embeddings).map (t + ·)) 0.0
    return total / Float.ofNat (pairs issueIds).length

/-- `buckets.entry(key).or_default().push(issue)` -/
def pushBucket (key : String × String) (issue : Issue) : List Bucket → List Bucket
  | [] => [(key, [issue])]
  | (k, issues) :: rest =>
    if k = key then (k, issues ++ [issue]) :: rest else (k, issues) :: pushBucket key issue rest

def bucketKey (issue : Issue) : String × String :=
  ((issue.getMetadata Json.asString "error_type").getD "",
    (issue.getMetadata Json.asString "culprit").getD "")

def buckets (candidates : List (Issue × MatchResult)) : List Bucket :=
  candidates.foldl (fun buckets c =>
    let key := bucketKey c.1
    if key.1.isEmpty && key.2.isEmpty then buckets else pushBucket key c.1 buckets) []

def detectBucket (config : PrioritisationConfig) (embeddings : Embeddings) (bucket : Bucket) :
    Option ContentCluster :=
  let ((errorType, culprit), issues) := bucket
  if issues.length < config.minContentClusterSize then none
  else
    let sampled := issues.take maxBucketSample
    let ids := sampled.map (·.id)
    let avgSim := (averagePairwiseEmbeddingSimilarity L ids embeddings).getD
      (averagePairwiseSimilarity L (sampled.map (·.title)))
    if avgSim < config.clusterSimilarityThreshold then none
    else
      let orUnderscore (s : String) := if s.isEmpty then "_" else s
      let nonEmpty (s : String) := if s.isEmpty then none else some s
      some
        { clusterKey := s!"{orUnderscore errorType}::{orUnderscore culprit}"
          source := (issues.head?.map (·.source)).getD ""
          representativeIssueId := ids.head?.getD ""
          issueIds := ids
          errorType := nonEmpty errorType
          culprit := nonEmpty culprit
          avgSimilarity := avgSim
          status := "active" }

def detect (candidates : List (Issue × MatchResult)) (config : PrioritisationConfig)
    (embeddings : Embeddings) : List ContentCluster :=
  (L.visit (buckets candidates)).filterMap (detectBucket L config embeddings)

def clusteredIssueIds (clusters : List ContentCluster) : List String :=
  clusters.flatMap (·.issueIds)

/-! ## Scores -/

def severityComponent (issuePrio : IssuePriority) (matchPrio : MatchPriority) : Float :=
  let ip := match issuePrio with
    | .none => 0.0
    | .low => 0.25
    | .medium => 0.5
    | .high => 0.75
    | .critical => 1.0
  let mp := match matchPrio with
    | .low => 0.25
    | .normal => 0.5
    | .high => 0.75
    | .urgent => 1.0
  0.6 * ip + 0.4 * mp

def metadataCount (issue : Issue) (key : String) : Option Float :=
  issue.getMetadata Json.asF64 key <|> (issue.getMetadata Json.asI64 key).map Float.ofInt

def frequencyComponent (issue : Issue) : Float :=
  let eventCount := fmax ((metadataCount issue "event_count").getD 1.0) 0.0
  let userCount := fmax ((metadataCount issue "user_count").getD 0.0) 0.0
  let escalationRate := (issue.getMetadata Json.asF64 "escalation_rate").getD 0.0
  let eventScore := if eventCount <= 1.0 then 0.0 else fmin (eventCount.log10 / 6.0) 1.0
  let userScore := if userCount <= 1.0 then 0.0 else fmin (userCount.log10 / 4.0) 1.0
  let escalationScore := clamp (escalationRate / 100.0) 0.0 1.0
  0.4 * eventScore + 0.3 * userScore + 0.3 * escalationScore

def regressionComponent (issue : Issue) : Float :=
  let isUnhandled := (issue.getMetadata Json.asBool "is_unhandled").getD false
  let level := Text.toLowercase L.caseProps ((issue.getMetadata Json.asString "level").getD "")
  let unhandledScore : Float := if isUnhandled then 0.5 else 0.0
  let levelScore : Float :=
    if level = "fatal" then 1.0
    else if level = "error" then 0.7
    else if level = "warning" then 0.4
    else 0.0
  fmin (0.5 * unhandledScore + 0.5 * levelScore) 1.0

def compute (issue : Issue) (matchResult : MatchResult) (blastRadius : BlastRadius)
    (inCluster : Bool) (config : PrioritisationConfig) : SeverityScore :=
  let severity := severityComponent issue.priority matchResult.priority
  let frequency := frequencyComponent issue
  let regression := regressionComponent L issue
  let br := blastRadiusScore blastRadius
  let clusterBoost := if inCluster then 1.0 else 0.0
  { score := config.severityWeight * severity + config.frequencyWeight * frequency +
      config.regressionWeight * regression + config.blastRadiusWeight * br +
      config.clusterWeight * clusterBoost
    severityComponent := severity
    frequencyComponent := frequency
    regressionComponent := regression
    blastRadiusComponent := br
    clusterBoost := clusterBoost }

/-! ## The pipeline -/

/-- The match results by issue id: the last candidate with an id leaves its own. -/
def matchMap (candidates : List (Issue × MatchResult)) : String → Option MatchResult :=
  candidates.foldl (fun map c => Function.update map c.1.id (some c.2)) fun _ => none

/-- `filter_map` with `match_map.remove`: a second issue with the same id finds nothing. -/
def rebuild (map : String → Option MatchResult) : List Issue → List (Issue × MatchResult)
  | [] => []
  | issue :: rest =>
    match map issue.id with
    | some mr => (issue, mr) :: rebuild (Function.update map issue.id none) rest
    | none => rebuild map rest

structure Scored where
  issue : Issue
  matchResult : MatchResult
  blastRadius : BlastRadius
  score : SeverityScore

/-- `sort_by(|a, b| b.total_cmp(&a))`, which is stable. -/
def sortDescending {α : Type} (score : α → Float) (l : List α) : List α :=
  l.mergeSort fun a b => (totalCmp (score b) (score a)).isLE

def clusterKeys (clusters : List ContentCluster) (assessments : String → Option LlmIssueAssessment)
    (id : String) : Option String :=
  match (clusters.filter (·.issueIds.contains id)).getLast? with
  | some cluster => some cluster.clusterKey
  | none =>
    match assessments id with
    | some a => if a.fingerprint.isEmpty then none else some s!"llm:{a.fingerprint}"
    | none => none

/-- The LLM only refines severity. -/
def blend (config : PrioritisationConfig) (assessment : Option LlmIssueAssessment)
    (s : SeverityScore) : SeverityScore :=
  match assessment with
  | none => s
  | some a =>
    let blended := (s.severityComponent + clamp a.severity 0.0 1.0) / 2.0
    { s with
      score := s.score + config.severityWeight * (blended - s.severityComponent)
      severityComponent := blended }

abbrev LlmAnalyzer := List (Issue × MatchResult) → Option (List LlmIssueAssessment)

/-- `prioritise`; the clusters it stores come last. -/
def prioritise (config : PrioritisationConfig) (candidates : List (Issue × MatchResult))
    (embeddings : Embeddings) (llm : Option LlmAnalyzer) :
    List PrioritisedIssue × List (Issue × SuppressionResult) × List ContentCluster :=
  let (keptIssues, suppressed) := evaluate L config.suppressionRules (candidates.map Prod.fst)
  let kept := rebuild (matchMap candidates) keptIssues
  let clusters := if config.contentClustering then detect L kept config embeddings else []
  let clusteredIds := clusteredIssueIds clusters
  let scored := sortDescending (·.score.score) (kept.map fun c =>
    let br := classify L c.1 config
    let inCluster := clusteredIds.contains c.1.id
    { issue := c.1, matchResult := c.2, blastRadius := br
      score := compute L c.1 c.2 br inCluster config : Scored })
  let llmBatch := scored.map fun s => (s.issue, s.matchResult)
  let answers := (llm.bind fun assess => assess llmBatch).getD []
  let assessments (id : String) := answers.reverse.find? (·.issueId == id)
  let prioritised := scored.map fun s =>
    { issue := s.issue
      matchResult := s.matchResult
      severityScore := blend config (assessments s.issue.id) s.score
      blastRadius := s.blastRadius
      clusterKey := clusterKeys clusters assessments s.issue.id : PrioritisedIssue }
  (sortDescending (·.severityScore.score) prioritised, suppressed, clusters)

/-! ## What is accounted for -/

/-- Some rule of the configuration matches the issue. -/
def suppresses (config : PrioritisationConfig) (issue : Issue) : Bool :=
  config.suppressionRules.any (ruleMatches L issue (RegexCache.new L config.suppressionRules))

/-- The candidates that no rule matches. -/
def kept (config : PrioritisationConfig) (candidates : List (Issue × MatchResult)) :
    List (Issue × MatchResult) :=
  candidates.filter fun c => !suppresses L config c.1

/-- Every candidate comes out once: prioritised with its own match result if no rule matches it,
else suppressed; and the prioritised ones do not rise in score. -/
structure Accounted (config : PrioritisationConfig) (candidates : List (Issue × MatchResult))
    (prioritised : List PrioritisedIssue) (suppressed : List (Issue × SuppressionResult)) :
    Prop where
  keeps : (prioritised.map fun p => (p.issue, p.matchResult)).Perm (kept L config candidates)
  drops : suppressed.map Prod.fst =
    (candidates.filter fun c => suppresses L config c.1).map Prod.fst
  ordered : prioritised.Pairwise fun p q =>
    totalKey q.severityScore.score ≤ totalKey p.severityScore.score

/-- The kept candidates have ids of their own, and the last candidate with the id of one of them
has its match result. -/
structure OwnResults (config : PrioritisationConfig) (candidates : List (Issue × MatchResult)) :
    Prop where
  distinct : ((kept L config candidates).map (·.1.id)).Nodup
  last : ∀ c ∈ kept L config candidates, ∀ d,
    (candidates.filter (·.1.id == c.1.id)).getLast? = some d → d.2 = c.2

variable {L} {config : PrioritisationConfig} {candidates : List (Issue × MatchResult)}

theorem checkIssue_suppressed {rules : List SuppressionRule} {issue : Issue} {cache : RegexCache} :
    (checkIssueWithCache L rules issue cache).suppressed = rules.any (ruleMatches L issue cache) := by
  unfold checkIssueWithCache
  cases h : rules.find? (ruleMatches L issue cache) with
  | some rule =>
    exact (List.any_eq_true.mpr ⟨rule, List.mem_of_find?_eq_some h, List.find?_some h⟩).symm
  | none =>
    rw [List.find?_eq_none] at h
    exact (List.any_eq_false.mpr h).symm

theorem evaluate_kept :
    (evaluate L config.suppressionRules (candidates.map Prod.fst)).1 =
      (kept L config candidates).map Prod.fst := by
  simp only [evaluate, kept, List.filter_map, List.map_map, Function.comp_def, checkIssue_suppressed]
  rfl

theorem evaluate_suppressed :
    (evaluate L config.suppressionRules (candidates.map Prod.fst)).2.map Prod.fst =
      (candidates.filter fun c => suppresses L config c.1).map Prod.fst := by
  simp only [evaluate, List.filter_map, List.map_map, Function.comp_def, checkIssue_suppressed]
  rfl

/-! ## The map of match results -/

theorem matchMap_eq (id : String) :
    matchMap candidates id = ((candidates.filter (·.1.id == id)).getLast?).map Prod.snd := by
  induction candidates using List.reverseRecOn with
  | nil => rfl
  | append_singleton l c ih =>
    rw [matchMap, List.foldl_append, List.filter_append]
    show Function.update (matchMap l) c.1.id (some c.2) id = _
    by_cases h : c.1.id = id
    · subst h
      simp
    · have hne : (c.1.id == id) = false := beq_eq_false_iff_ne.mpr h
      rw [Function.update_of_ne (Ne.symm h), ih, List.filter_cons, hne]
      rw [if_neg Bool.false_ne_true, List.filter_nil, List.append_nil]

theorem rebuild_result {map : String → Option MatchResult} {l : List Issue}
    {c : Issue × MatchResult} (h : c ∈ rebuild map l) : map c.1.id = some c.2 := by
  induction l generalizing map with
  | nil => cases h
  | cons issue rest ih =>
    rw [rebuild] at h
    split at h
    · next mr hmr =>
      rcases List.mem_cons.mp h with rfl | h
      · exact hmr
      · have hc := ih h
        by_cases he : c.1.id = issue.id
        · rw [he, Function.update_self] at hc
          cases hc
        · rwa [Function.update_of_ne he] at hc
    · exact ih h

/-- A match result is handed out once. -/
theorem rebuild_nodup {map : String → Option MatchResult} {l : List Issue} :
    ((rebuild map l).map (·.1.id)).Nodup := by
  induction l generalizing map with
  | nil => exact List.nodup_nil
  | cons issue rest ih =>
    rw [rebuild]
    split
    · refine List.nodup_cons.mpr ⟨fun hmem => ?_, ih⟩
      obtain ⟨c, hc, he⟩ := List.mem_map.mp hmem
      have hr := rebuild_result hc
      rw [he, Function.update_self] at hr
      cases hr
    · exact ih

theorem rebuild_own {map : String → Option MatchResult} {l : List (Issue × MatchResult)}
    (hd : (l.map (·.1.id)).Nodup) (h : ∀ c ∈ l, map c.1.id = some c.2) :
    rebuild map (l.map Prod.fst) = l := by
  induction l generalizing map with
  | nil => rfl
  | cons c rest ih =>
    obtain ⟨hc, hrest⟩ := List.forall_mem_cons.mp h
    rw [List.map_cons, List.nodup_cons] at hd
    rw [List.map_cons, rebuild, hc]
    refine congrArg (c :: ·) (ih hd.2 fun d hm => ?_)
    rw [Function.update_of_ne, hrest d hm]
    intro he
    exact hd.1 (List.mem_map.mpr ⟨d, hm, he⟩)

/-! ## The two sorts -/

theorem sortDescending_perm {α : Type} (score : α → Float) (l : List α) :
    (sortDescending score l).Perm l := List.mergeSort_perm l _

theorem sortDescending_pairwise {α : Type} (score : α → Float) (l : List α) :
    (sortDescending score l).Pairwise fun a b => totalKey (score b) ≤ totalKey (score a) := by
  refine (List.pairwise_mergeSort (fun a b c hab hbc => ?_) (fun a b => ?_) l).imp fun h =>
    totalCmp_isLE.mp h
  · rw [totalCmp_isLE] at hab hbc ⊢
    omega
  · rw [Bool.or_eq_true, totalCmp_isLE, totalCmp_isLE]
    omega

variable {embeddings : Embeddings} {llm : Option LlmAnalyzer}

/-- The pipeline returns what is left after the split, whatever the scores. -/
theorem prioritise_perm :
    ((prioritise L config candidates embeddings llm).1.map fun p => (p.issue, p.matchResult)).Perm
      (rebuild (matchMap candidates) ((kept L config candidates).map Prod.fst)) := by
  simp only [prioritise, evaluate_kept]
  refine ((sortDescending_perm _ _).map _).trans ?_
  rw [List.map_map]
  refine ((sortDescending_perm _ _).map _).trans ?_
  rw [List.map_map]
  exact (List.map_id _).symm ▸ List.Perm.refl _

/-- The pipeline accounts for the candidates exactly when each one that is kept has an id and a
match result of its own. -/
theorem prioritise_accounts (config : PrioritisationConfig) (candidates : List (Issue × MatchResult))
    (embeddings : Embeddings) (llm : Option LlmAnalyzer) :
    Accounted L config candidates (prioritise L config candidates embeddings llm).1
      (prioritise L config candidates embeddings llm).2.1 ↔ OwnResults L config candidates := by
  constructor
  · intro h
    have hperm := prioritise_perm.symm.trans h.keeps
    refine ⟨(hperm.map _).nodup_iff.mp rebuild_nodup, fun c hc d hd => ?_⟩
    have hown := rebuild_result (hperm.mem_iff.mpr hc)
    rw [matchMap_eq, hd] at hown
    exact Option.some.inj hown
  · intro h
    refine ⟨?_, evaluate_suppressed, sortDescending_pairwise _ _⟩
    refine prioritise_perm.trans (List.Perm.of_eq (rebuild_own h.distinct fun c hc => ?_))
    have hmem : c ∈ candidates.filter (·.1.id == c.1.id) :=
      List.mem_filter.mpr ⟨List.mem_of_mem_filter hc, beq_self_eq_true _⟩
    have hlast := List.getLast?_eq_some_getLast (List.ne_nil_of_mem hmem)
    rw [matchMap_eq, hlast, ← h.last c hc _ hlast]
    rfl

/-! The same id from two sources. -/

def candidateFrom (source : String) : Issue × MatchResult :=
  ({ id := "1", title := "", description := none, source := source, priority := .none
     metadata := fun _ => none }, ⟨true, source, .normal⟩)

def plainLibraries : Libraries where
  caseProps := ⟨fun _ => false, fun _ => false⟩
  regex _ := none
  jsonText _ := ""
  cosineSimilarity _ _ := 0
  visit l := l

def plainConfig : PrioritisationConfig where
  criticalPaths := []
  corePaths := []
  infraPaths := []
  testPaths := []
  cosmeticPaths := []
  contentClustering := false
  clusterSimilarityThreshold := 0
  minContentClusterSize := 3

theorem candidate_dropped :
    ¬ Accounted plainLibraries plainConfig [candidateFrom "linear", candidateFrom "github"]
      (prioritise plainLibraries plainConfig [candidateFrom "linear", candidateFrom "github"]
        (fun _ => none) none).1
      (prioritise plainLibraries plainConfig [candidateFrom "linear", candidateFrom "github"]
        (fun _ => none) none).2.1 := by
  intro h
  have hlen := (prioritise_perm.symm.trans h.keeps).length_eq
  cases hlen

end Claudear.Analysis
