import Claudear.Data.History

/-!
# Whether a release contains a commit

`is_commit_in_release` and `commit_contained` ask GitHub to compare the commit
with the tag and read the status of the answer. `Answers` is what GitHub says. A
tag that is ahead of the commit contains it; `is_commit_in_release` looks for
`behind` instead, so the two agree with each other and with the history only when
neither is a proper ancestor of the other (`containment_agrees_iff`).
-/

namespace Claudear.Release

open Claudear.Data

inductive Error where
  | http (message : String)
  | other (message : String)
  deriving DecidableEq

structure HttpResponse where
  status : Nat
  body : String

/-- The crate for HTTP and the one for JSON. -/
structure Transport where
  get : String → Except Error HttpResponse
  isNotFound : HttpResponse → Bool
  isSuccess : HttpResponse → Bool
  /-- The text field `status` of the body. -/
  statusField : HttpResponse → Except Error String

variable (t : Transport)

def apiError (r : HttpResponse) : Error := .other s!"GitHub API error ({r.status}): {r.body}"

def compareUrl (repo base head : String) : String :=
  s!"https://api.github.com/repos/{repo}/compare/{base}...{head}"

def isCommitInRelease (repo commitSha releaseTag : String) : Except Error Bool := do
  let response ← t.get (compareUrl repo commitSha releaseTag)
  if t.isNotFound response then pure false
  else if !t.isSuccess response then throw (apiError response)
  else
    let status ← t.statusField response
    pure (status = "behind" || status = "identical")

def requireSuccess (response : HttpResponse) (subject : String) : Except Error Unit :=
  if t.isSuccess response then pure ()
  else throw (.other s!"GitHub API error ({response.status}) for {subject}: {response.body}")

def commitContained (repo commit gitRef : String) : Except Error Bool := do
  let response ← t.get (compareUrl repo commit gitRef ++ "?per_page=1")
  requireSuccess t response s!"{repo} compare {commit}...{gitRef}"
  let status ← t.statusField response
  if status = "ahead" ∨ status = "identical" then pure true
  else if status = "behind" ∨ status = "diverged" then pure false
  else throw (.other s!"{repo} compare {commit}...{gitRef} returned unknown status {status.quote}")

/-! ## GitHub -/

def statusText : Comparison → String
  | .identical => "identical"
  | .ahead => "ahead"
  | .behind => "behind"
  | .diverged => "diverged"

variable {γ : Type*}

/-- The URL is answered with this comparison. -/
def Reports (url : String) (c : Comparison) : Prop :=
  ∃ r, t.get url = .ok r ∧ t.isNotFound r = false ∧ t.isSuccess r = true ∧ t.statusField r = .ok (statusText c)

/-- GitHub compares the commits that the two names stand for, however many are listed on a page. -/
structure Answers (h : History γ) (resolve : String → γ) (repo base head : String) : Prop where
  plain : Reports t (compareUrl repo base head) (h.compare (resolve base) (resolve head))
  paged : Reports t (compareUrl repo base head ++ "?per_page=1") (h.compare (resolve base) (resolve head))

variable {t} {h : History γ} {resolve : String → γ} {repo commit tag : String}

theorem isCommitInRelease_eq (ha : Answers t h resolve repo commit tag) :
    isCommitInRelease t repo commit tag =
      .ok (h.compare (resolve commit) (resolve tag) = .behind ∨
        h.compare (resolve commit) (resolve tag) = .identical : Bool) := by
  obtain ⟨r, hget, hfound, hsuccess, hstatus⟩ := ha.plain
  have hread : isCommitInRelease t repo commit tag =
      .ok (statusText (h.compare (resolve commit) (resolve tag)) = "behind" ||
        statusText (h.compare (resolve commit) (resolve tag)) = "identical") := by
    simp [isCommitInRelease, hget, hfound, hsuccess, hstatus, bind, Except.bind, pure, Except.pure]
  rw [hread]
  cases h.compare (resolve commit) (resolve tag) <;> rfl

theorem commitContained_eq (ha : Answers t h resolve repo commit tag) :
    commitContained t repo commit tag =
      .ok (h.compare (resolve commit) (resolve tag) = .ahead ∨
        h.compare (resolve commit) (resolve tag) = .identical : Bool) := by
  obtain ⟨r, hget, -, hsuccess, hstatus⟩ := ha.paged
  unfold commitContained requireSuccess
  simp only [hget, hsuccess, hstatus, bind, Except.bind, if_true, pure, Except.pure]
  cases h.compare (resolve commit) (resolve tag) <;> rfl

/-- Both say whether the tag brings the commit. -/
def ContainmentAgrees (t : Transport) (h : History γ) (resolve : String → γ) (repo commit tag : String) : Prop :=
  (isCommitInRelease t repo commit tag = .ok true ↔ h.Brings (resolve tag) (resolve commit)) ∧
    (commitContained t repo commit tag = .ok true ↔ h.Brings (resolve tag) (resolve commit))

theorem commitContained_correct (ha : Answers t h resolve repo commit tag) :
    commitContained t repo commit tag = .ok true ↔ h.Brings (resolve tag) (resolve commit) := by
  rw [commitContained_eq ha, Except.ok.injEq, decide_eq_true_iff, History.brings_iff_compare]
  exact or_comm

theorem containment_agrees_iff (ha : Answers t h resolve repo commit tag) :
    ContainmentAgrees t h resolve repo commit tag ↔
      ¬ h.Ancestor (resolve commit) (resolve tag) ∧ ¬ h.Ancestor (resolve tag) (resolve commit) := by
  rw [ContainmentAgrees, and_iff_left (commitContained_correct ha), isCommitInRelease_eq ha, Except.ok.injEq,
    decide_eq_true_iff, History.brings_iff_compare]
  rw [← History.compare_eq_ahead, ← History.compare_eq_behind]
  cases h.compare (resolve commit) (resolve tag) <;> simp

/-- A fix and the release made right after it. -/
def fixAndRelease : History Bool where
  parents released := if released then [false] else []
  wellFounded := by
    have hfix : Acc (fun p c : Bool => p ∈ if c then [false] else []) false := .intro _ fun _ h => absurd h List.not_mem_nil
    refine ⟨fun released => ?_⟩
    cases released with
    | false => exact hfix
    | true => exact .intro _ fun p h => List.mem_singleton.mp h ▸ hfix

/-- Every comparison comes out the same. -/
def reporting (c : Comparison) : Transport where
  get _ := .ok ⟨200, statusText c⟩
  isNotFound r := r.status = 404
  isSuccess r := 200 ≤ r.status && r.status < 300
  statusField r := .ok r.body

inductive Commit where
  | main
  | fix
  | release
  deriving DecidableEq

/-- The fix and the release are both made from the main branch. -/
def parentsOf : Commit → List Commit
  | .main => []
  | .fix | .release => [.main]

theorem mem_parentsOf {p c : Commit} (h : p ∈ parentsOf c) : p = .main ∧ c ≠ .main := by
  cases c with
  | main => cases h
  | fix | release => exact ⟨List.mem_singleton.mp h, Commit.noConfusion⟩

def forked : History Commit where
  parents := parentsOf
  wellFounded := ⟨fun c => .intro c fun _ hp => .intro _ fun _ hq =>
    absurd (mem_parentsOf hp).1 (mem_parentsOf hq).2⟩

theorem ancestor_forked {a c : Commit} (h : forked.Ancestor a c) : a = .main := by
  obtain ⟨b, hb, -⟩ := Relation.TransGen.head'_iff.mp h
  exact (mem_parentsOf hb).1

def namedFix (name : String) : Commit := if name = "v1.1" then .release else .fix

theorem containment_agrees_forked :
    ContainmentAgrees (reporting .diverged) forked namedFix "appwrite/appwrite" "a7e4093" "v1.1" := by
  have hfix : ¬ forked.Ancestor .fix .release := fun h => Commit.noConfusion (ancestor_forked h)
  have hrelease : ¬ forked.Ancestor .release .fix := fun h => Commit.noConfusion (ancestor_forked h)
  have hcompare : forked.compare .fix .release = .diverged := by
    rw [History.compare, if_neg Commit.noConfusion, if_neg hfix, if_neg hrelease]
  have hreports (url : String) : Reports (reporting .diverged) url (forked.compare .fix .release) :=
    hcompare ▸ ⟨_, rfl, rfl, rfl, rfl⟩
  have ha : Answers (reporting .diverged) forked namedFix "appwrite/appwrite" "a7e4093" "v1.1" :=
    ⟨hreports _, hreports _⟩
  exact (containment_agrees_iff ha).mpr ⟨hfix, hrelease⟩

/-- The release brings the fix and is said not to. -/
theorem released_fix_missed :
    Answers (reporting .ahead) fixAndRelease (· = "v1.1") "appwrite/appwrite" "a7e4093" "v1.1" ∧
      fixAndRelease.Brings true false ∧
      isCommitInRelease (reporting .ahead) "appwrite/appwrite" "a7e4093" "v1.1" = .ok false ∧
      commitContained (reporting .ahead) "appwrite/appwrite" "a7e4093" "v1.1" = .ok true := by
  have hancestor : fixAndRelease.Ancestor false true := .single (List.mem_singleton.mpr rfl)
  have hreports : ∀ url, Reports (reporting .ahead) url (fixAndRelease.compare false true) := fun _ =>
    History.compare_eq_ahead.mpr hancestor ▸ ⟨_, rfl, rfl, rfl, rfl⟩
  exact ⟨⟨hreports _, hreports _⟩, .inr hancestor, by decide, by decide⟩

end Claudear.Release
