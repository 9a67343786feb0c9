import Claudear.Analysis.Regression
import Claudear.Analysis.Relationships
import Claudear.Machine.Sweep
import Claudear.Release.LockFiles

/-!
# Tracking a fix into a release

`check_pending_watches` looks at every watch that awaits a release, one after the
other. A watch whose fix is in a release of a target repository is moved to
monitoring. What GitHub and the store answer about a watch are parameters; each of
the answers may be an error.
-/

namespace Claudear.Release

open Claudear.Sql Claudear.Machine Claudear.Analysis
open Claudear.Analysis.Regression (Time RegressionWatch)

structure FixAttempt where
  scmRepo : Option String
  scmPrNumber : Option Int

structure PrDetails where
  merged : Bool
  mergeCommitSha : Option String
  mergedAt : Option String

structure GitHubRelease where
  tagName : String
  publishedAt : Option String

structure ReleaseTracking where
  regressionWatchId : Nat
  releaseVersion : String
  releaseCommit : String

structure TrackedWatch extends RegressionWatch where
  fixAttemptId : Nat

structure ReleaseTrackerConfig where
  targetRepos : List String
  packageNames : List (String × List String)

/-- The answers while one watch is checked. -/
structure Lookups where
  getAttemptById : Nat → Except String (Option FixAttempt)
  getPrDetails : String → Int → Except String (Option PrDetails)
  getLatestRelease : String → Except String (Option GitHubRelease)
  isCommitInRelease : (repo commit tag : String) → Except String Bool
  getFirstReleaseAfter : (repo after : String) → Except String (Option GitHubRelease)
  getFileAtRef : (repo path ref : String) → Except String (Option String)

/-- The tracker, with the libraries it uses. `parseFromRfc3339` gives nanoseconds. -/
structure ReleaseTracker where
  config : ReleaseTrackerConfig
  relationships : RepoRelationships
  json : Json
  semver : SemverCrate
  parseFromRfc3339 : String → Except String Int

namespace ReleaseTracker

variable (T : ReleaseTracker) (L : Lookups)

/-- `trim_start_matches("https://github.com/")` -/
def trimGithub (repo : String) : String :=
  String.ofList (checkPipfileLock.trimStartMatches "https://github.com/".toList repo.toList.length repo.toList)

def dependsOn (a b : String) : Bool :=
  (T.relationships.graph.dependsOn T.relationships.graph.steps a b).getD false

def findDependencyType (fix_repo target_repo : String) : DependencyType :=
  ((T.relationships.graph.getFirstHopDependencyTypeToTarget T.relationships.graph.steps fix_repo target_repo).getD
    none).getD .Manual

/-! ## The checks -/

/-- A check says with which release and repository it calls `transition_to_monitoring`.
That is the last thing it does, and it returns true. -/
abbrev Verdict := Except String (Option (String × String))

def checkDirectRelease (repo : String) (pr : PrDetails) : Verdict := do
  match pr.mergeCommitSha with
  | none => return none
  | some merge_commit =>
    match ← L.getLatestRelease repo with
    | none => return none
    | some release =>
      if ← L.isCommitInRelease repo merge_commit release.tagName then return some (release.tagName, repo)
      else return none

/-- The loop over the target repositories of the fallback. -/
def directTargets (merge_commit : String) : List String → Verdict
  | [] => return none
  | target_repo :: rest => do
    match ← L.getLatestRelease target_repo with
    | none => directTargets merge_commit rest
    | some release =>
      if ← L.isCommitInRelease target_repo merge_commit release.tagName then return some (release.tagName, target_repo)
      else directTargets merge_commit rest

def checkDirectReleaseAnyTarget (pr : PrDetails) : Verdict :=
  match pr.mergeCommitSha with
  | none => return none
  | some merge_commit => directTargets L merge_commit T.config.targetRepos

def verifyLockFile (fix_repo merged_at target_repo target_tag package_name lock_file_path : String) :
    Except String Bool := do
  match ← L.getFirstReleaseAfter fix_repo merged_at with
  | none => return false
  | some source_release =>
    match ← L.getFileAtRef target_repo lock_file_path target_tag with
    | none => return false
    | some lock_content =>
      checkLockFileVersion T.json T.semver lock_content.toList package_name.toList source_release.tagName.toList
        lock_file_path.toList

/-- Whether one of the packages is verified, up to the first that is. -/
def verifyPackages (fix_repo merged_at target_repo target_tag lock_file_path : String) : List String → Except String Bool
  | [] => return false
  | package_name :: rest => do
    if ← T.verifyLockFile L fix_repo merged_at target_repo target_tag package_name lock_file_path then return true
    else verifyPackages fix_repo merged_at target_repo target_tag lock_file_path rest

def verifyCommitAncestry (pr : PrDetails) (target_repo target_tag : String) : Except String Bool :=
  match pr.mergeCommitSha with
  | none => return false
  | some merge_commit => L.isCommitInRelease target_repo merge_commit target_tag

def verifyReleaseAfter (fix_repo merged_at : String) (target_release : GitHubRelease) : Except String Bool := do
  let after_time ← match ← L.getFirstReleaseAfter fix_repo merged_at with
    | some r => match r.publishedAt with
      | some t => pure t
      | none => throw "Release has no published_at"
    | none => pure merged_at
  match target_release.publishedAt with
  | none => throw "Target release has no published_at"
  | some target_published =>
    let after_dt ← (T.parseFromRfc3339 after_time).mapError fun e => s!"Invalid timestamp: {e}"
    let target_dt ← (T.parseFromRfc3339 target_published).mapError fun e => s!"Invalid timestamp: {e}"
    return target_dt > after_dt

def packageNames (fix_repo : String) (default : String) : List String :=
  (T.config.packageNames.lookup fix_repo).getD [default]

def checkGraphRelease (fix_repo merged_at : String) (pr : PrDetails) (target_repo : String) (dep_type : DependencyType) :
    Verdict := do
  match ← L.getLatestRelease target_repo with
  | none => return none
  | some target_release =>
    let tag := target_release.tagName
    let verified ← match dep_type with
      | .Composer => T.verifyPackages L fix_repo merged_at target_repo tag "composer.lock" (T.packageNames fix_repo fix_repo)
      | .Npm =>
        let last := String.ofList (fix_repo.toList.splitOn '/').getLast!
        T.verifyPackages L fix_repo merged_at target_repo tag "package-lock.json" (T.packageNames fix_repo last)
      | .GitSubmodule => verifyCommitAncestry L pr target_repo tag
      | .Manual => T.verifyReleaseAfter L fix_repo merged_at target_release
    if verified then return some (tag, target_repo) else return none

/-- The loop over the target repositories that depend on the one that was fixed. -/
def graphTargets (fix_repo merged_at : String) (pr : PrDetails) : List String → Verdict
  | [] => return none
  | target_repo :: rest => do
    let fix_repo_name := trimGithub fix_repo
    let target_name := trimGithub target_repo
    if T.dependsOn target_name fix_repo_name then
      match ← T.checkGraphRelease L fix_repo merged_at pr target_repo (T.findDependencyType fix_repo_name target_name) with
      | some found => return some found
      | none => graphTargets fix_repo merged_at pr rest
    else graphTargets fix_repo merged_at pr rest

def checkWatchRelease (watch : TrackedWatch) : Verdict := do
  match ← L.getAttemptById watch.fixAttemptId with
  | none => return none
  | some attempt =>
    match attempt.scmRepo, attempt.scmPrNumber with
    | some fix_repo, some pr_number =>
      match ← L.getPrDetails fix_repo pr_number with
      | none => return none
      | some pr =>
        if !pr.merged then return none
        else match pr.mergedAt with
          | none => return none
          | some merged_at =>
            if fix_repo ∈ T.config.targetRepos then checkDirectRelease L fix_repo pr
            else
              match ← T.graphTargets L fix_repo merged_at pr T.config.targetRepos with
              | some found => return some found
              | none => T.checkDirectReleaseAnyTarget L pr
    | _, _ => return none

/-! ## The sweep -/

structure Store where
  watches : Table TrackedWatch
  releases : Table ReleaseTracking

def TrackedWatch.monitored (w : TrackedWatch) (now : Time) : TrackedWatch :=
  { w with toRegressionWatch := w.toRegressionWatch.withStatus .monitoring now }

def transitionToMonitoring (id : Nat) (release_tag repo : String) (now : Time) (s : Store) : Store where
  releases := s.releases.insert { regressionWatchId := id, releaseVersion := release_tag, releaseCommit := repo }
  watches := s.watches.update (fun r => r.1 = id) fun w => TrackedWatch.monitored w now

/-- What a watch meets in a sweep: the answers, and the time at which it is moved. -/
structure Meeting where
  lookups : Lookups
  now : Time

/-- The body of the loop: the id is reported where the watch is moved. -/
def checkPending (meet : Nat → Meeting) (watch : Nat × TrackedWatch) (s : Store) : Except String (Option Nat) × Store :=
  match T.checkWatchRelease (meet watch.1).lookups watch.2 with
  | .error e => (.error e, s)
  | .ok none => (.ok none, s)
  | .ok (some (release_tag, repo)) =>
    (.ok (some watch.1), transitionToMonitoring watch.1 release_tag repo (meet watch.1).now s)

/-- The watches that await a release, newest first. -/
def pending (s : Store) : List (Nat × TrackedWatch) :=
  (s.watches.select fun r => r.2.status = .awaitingRelease).mergeSort fun a b => b.2.createdAt ≤ a.2.createdAt

def checkPendingWatches (meet : Nat → Meeting) (s : Store) : Except String (List Nat) × Store :=
  sweep (T.checkPending meet) (pending s) s

end ReleaseTracker

end Claudear.Release
