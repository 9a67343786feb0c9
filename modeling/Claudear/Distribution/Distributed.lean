import Claudear.Distribution.CodeOwnersMatch
import Claudear.Distribution.Distributor

/-!
# Distributors side by side

Any number of distributors work on one store at a time, call by call, while the
rest of Claudear changes the attempts as it likes. `View` is what a program has
seen of the store and done there, and `InOrder` what it only does for a reason:
it records an assignment to somebody on its roster, ends one whose holder it
does not find there, and marks one as notified after a channel that reaches
people took the ping or the digest.

The programs are allowed (`allowed_program`), so what is in order one call at a
time holds of the store in every interleaving.
-/

namespace Claudear.Distribution

open Claudear.Core Claudear.Data Claudear.Machine Claudear.Sql Claudear.Storage Claudear.Text

inductive Job where
  | assignOpened (D : Distributor) (prUrl : String) (issue : Analysis.Issue)
  | distribute (D : Distributor) (now : DateTime)

namespace Job

def distributor : Job → Distributor
  | assignOpened D _ _ => D
  | distribute D _ => D

/-- A scheduled run. -/
def scheduled : Job → Bool
  | assignOpened .. => false
  | distribute .. => true

/-- The pull request just opened, unless it fixes a security issue. -/
def announced : Job → List String
  | assignOpened _ prUrl issue =>
    if issue.source = Engine.PullRequests.SECURITY_FIX_SOURCE then [] else [prUrl]
  | distribute .. => []

def program (U : CaseProps) (R : RegexLite) : Job → Asks Unit
  | assignOpened D prUrl issue => do
    let _ ← (D.assignOpened U R prUrl issue).run
  | distribute D now => do
    let _ ← (D.distribute U R now).run

end Job

/-! ## What a program has seen -/

/-- `lost` when an insertion was answered with another row, or a digest with other pull requests. -/
structure View where
  job : Option Job := none
  /-- The assignments the store answered with. -/
  seen : List PrAssignment := []
  /-- The rows it ended, or found ended. -/
  ended : List Nat := []
  /-- The pull requests that are tracked as open or were just opened. -/
  known : List String := []
  /-- The pings that a channel that reaches people took. -/
  told : List AssignmentNotice := []
  listed : List (Digest × DigestDelivery) := []
  /-- The pull request whose assignment it has just recorded. -/
  due : Option String := none
  lost : Bool := false

namespace View

def next {β : Type} (g : View) : Call β → β → Office → View
  | .getPendingPrs, .ok attempts, _ => { g with known := g.known ++ (tracked attempts).map Prod.fst }
  | .activePrAssignments, .ok active, _ => { g with seen := g.seen ++ active }
  | .activePrAssignment _, .ok active, _ => { g with seen := g.seen ++ active.toList }
  | .recordPrAssignment a, .ok (some stored), _ =>
    { g with
      seen := g.seen ++ [stored]
      due := some stored.prUrl
      lost := g.lost || !(stored.prUrl = a.prUrl && stored.assignee = a.assignee) }
  | .endPrAssignment id _, .ok _, _ => { g with ended := g.ended ++ [id] }
  | .notifyPrAssignment notice, r, _ =>
    match r with
    | .ok .delivered => { g with due := none, told := g.told ++ [notice] }
    | _ => { g with due := none }
  | .notifyPrDigest digest, .ok delivery, _ =>
    { g with
      listed := g.listed ++ [(digest, delivery)]
      lost := g.lost || !(delivery.all fun url => digest.groups.any fun group => url ∈ group.urls) }
  | _, _, _ => g

/-- The distributor of the run. -/
def By (g : View) (D : Distributor) : Prop := ∃ job, g.job = some job ∧ job.distributor = D

def Scheduled (g : View) : Prop := ∃ job, g.job = some job ∧ job.scheduled = true

/-- The pull request is Claudear's, or was assigned already. -/
def Assignable (g : View) (url : String) : Prop := url ∈ g.known ∨ ∃ a ∈ g.seen, a.prUrl = url

/-- Somebody who held the pull request, and whose row the run has ended. -/
def Released (g : View) (url previous : String) : Prop :=
  ∃ a ∈ g.seen, a.id ∈ g.ended ∧ a.prUrl = url ∧ a.assignee = previous

end View

/-- The developer found for the assignee. -/
def Distributor.Finds (U : CaseProps) (D : Distributor) (assignee : String) (d : Developer) : Prop :=
  D.roster.find U assignee = some (some d)

namespace View

variable (U : CaseProps)

/-- A ping or a digest of the run reached the developer about the pull request. -/
def Reached (g : View) (url : String) (d : Developer) : Prop :=
  (∃ notice ∈ g.told, notice.pullRequest.url = url ∧ notice.developer = d) ∨
    ∃ p ∈ g.listed, url ∈ p.2 ∧
      ∀ group ∈ p.1.groups, url ∈ group.urls → group.developer.login = d.login

def InOrder {β : Type} (g : View) : Call β → Prop
  | .recordPrAssignment a =>
    (∃ D, g.By D ∧ ∃ d ∈ D.roster.developers, d.login = a.assignee) ∧ g.Assignable a.prUrl ∧
      ∀ p, a.previous = some p → g.Released a.prUrl p
  | .endPrAssignment id status => status ≠ .active ∧ g.Scheduled ∧ ∃ D, g.By D ∧ ∃ a ∈ g.seen,
      a.id = id ∧ (status = .released → D.roster.find U a.assignee = some none)
  | .notifyPrAssignment notice =>
    (g.Scheduled ∨ g.due = some notice.pullRequest.url) ∧
      ∃ D, g.By D ∧ ∃ a ∈ g.seen, a.prUrl = notice.pullRequest.url ∧ a.previous = notice.previous ∧
        D.Finds U a.assignee notice.developer
  | .notifyPrDigest digest => ∀ group ∈ digest.groups, ∀ url ∈ group.urls, ∃ D, g.By D ∧
      ∃ a ∈ g.seen, a.prUrl = url ∧ ∃ d, D.Finds U a.assignee d ∧ d.login = group.developer.login
  | .markPrAssignmentNotified id => ∃ D, g.By D ∧ ∃ a ∈ g.seen, a.id = id ∧
      ∃ d, D.Finds U a.assignee d ∧ g.Reached a.prUrl d
  | _ => True

def Ok {β : Type} (g : View) (c : Call β) : Prop := g.lost = false → g.InOrder U c

/-- What was seen stays seen. -/
structure Grows (g g' : View) : Prop where
  kept : g'.lost = false → g.lost = false
  job : g'.job = g.job
  seen : g.seen ⊆ g'.seen
  ended : g.ended ⊆ g'.ended
  known : g.known ⊆ g'.known
  told : g.told ⊆ g'.told
  listed : g.listed ⊆ g'.listed

variable {U} {g g' g'' : View} {url previous : String} {D : Distributor}

theorem Grows.refl (g : View) : Grows g g :=
  ⟨id, rfl, .refl _, .refl _, .refl _, .refl _, .refl _⟩

theorem Grows.trans (h : Grows g g') (h' : Grows g' g'') : Grows g g'' where
  kept hl := h.kept (h'.kept hl)
  job := h'.job.trans h.job
  seen _ hx := h'.seen (h.seen hx)
  ended _ hx := h'.ended (h.ended hx)
  known _ hx := h'.known (h.known hx)
  told _ hx := h'.told (h.told hx)
  listed _ hx := h'.listed (h.listed hx)

theorem grows_due (g : View) (due : Option String) : Grows g { g with due } :=
  ⟨id, rfl, .refl _, .refl _, .refl _, .refl _, .refl _⟩

theorem grows_next {β : Type} (g : View) (c : Call β) (b : β) (s : Office) :
    Grows g (g.next c b s) := by
  have hsub {α : Type} (l m : List α) : l ⊆ l ++ m := List.subset_append_left l m
  cases c with
  | getPendingPrs =>
    cases b with
    | error e => exact .refl g
    | ok attempts => exact { Grows.refl g with known := hsub _ _ }
  | activePrAssignments | activePrAssignment url =>
    cases b with
    | error e => exact .refl g
    | ok active => exact { Grows.refl g with seen := hsub _ _ }
  | recordPrAssignment a =>
    rcases b with e | _ | stored
    · exact .refl g
    · exact .refl g
    · exact { Grows.refl g with seen := hsub _ _, kept := fun hl => (Bool.or_eq_false_iff.mp hl).1 }
  | endPrAssignment id status =>
    cases b with
    | error e => exact .refl g
    | ok ended => exact { Grows.refl g with ended := hsub _ _ }
  | notifyPrAssignment notice =>
    rcases b with e | _ | _
    · exact grows_due g none
    · exact { grows_due g none with told := hsub _ _ }
    · exact grows_due g none
  | notifyPrDigest digest =>
    cases b with
    | error e => exact .refl g
    | ok delivery =>
      exact { Grows.refl g with listed := hsub _ _, kept := fun hl => (Bool.or_eq_false_iff.mp hl).1 }
  | _ => exact .refl g

theorem By.grows (h : g.By D) (hg : Grows g g') : g'.By D := by
  obtain ⟨job, hj, hd⟩ := h
  exact ⟨job, hg.job.trans hj, hd⟩

theorem Scheduled.grows (h : g.Scheduled) (hg : Grows g g') : g'.Scheduled := by
  obtain ⟨job, hj, hs⟩ := h
  exact ⟨job, hg.job.trans hj, hs⟩

theorem Assignable.grows (h : g.Assignable url) (hg : Grows g g') : g'.Assignable url := by
  rcases h with h | ⟨a, ha, hu⟩
  · exact .inl (hg.known h)
  · exact .inr ⟨a, hg.seen ha, hu⟩

theorem Released.grows (h : g.Released url previous) (hg : Grows g g') : g'.Released url previous := by
  obtain ⟨a, ha, he, hu⟩ := h
  exact ⟨a, hg.seen ha, hg.ended he, hu⟩

end View

/-- The monitor of the distributors. -/
def watch : Monitor Call Office Job View where
  idle := {}
  start job := { job := some job, known := job.announced }
  next := View.next

theorem grows_watch {β : Type} (g : View) (c : Call β) (b : β) (s : Office) :
    g.Grows (watch.next g c b s) := View.grows_next g c b s

theorem stable_grows (g : View) : Stable watch g.Grows := fun _ g' c b s h =>
  h.trans (grows_watch g' c b s)

/-! ## What the programs do -/

section Programs

variable {U : CaseProps} {R : RegexLite} {D : Distributor} {g : View}

abbrev Keeps (U : CaseProps) {α : Type} (p : Asks α) (Q : α → View → Prop) (g : View) : Prop :=
  Allowed watch (View.Ok U) p Q g

theorem keeps_lookup {α β : Type} {x : Option α} {f : α → Run β} {P : β → View → Prop}
    (h : ∀ a, x = some a → Keeps U (f a).run (OnOk P) g) : Keeps U (lookup x >>= f).run (OnOk P) g := by
  cases x with
  | none => exact trivial
  | some a => exact h a rfl

theorem keeps_try {α : Type} {c : Call (Except Failure α)} (hc : View.Ok U g c) :
    Keeps U (try_ c).run (OnOk fun _ _ => True) g := by
  refine ⟨hc, fun r _ => ?_⟩
  cases r <;> exact trivial

theorem quiet_fileAuthors (repo : String) (paths : List String) :
    Quiet (View.Ok U) (fileAuthors repo paths) := by
  induction paths with
  | nil => exact trivial
  | cons path paths ih => exact ⟨fun _ _ => trivial, fun _ => ih.bind fun _ => trivial⟩

theorem quiet_evidence (repo : String) (number : Int) (requesters : List String) (m : Repositories) :
    Quiet (View.Ok U) (evidence R repo number requesters m) := by
  refine ⟨fun _ _ => trivial, fun _ => (quiet_fileAuthors repo _).bind fun _ => Quiet.bind ?_ fun _ => ?_⟩
  · unfold Repositories.readCodeowners
    split
    · exact trivial
    · exact ⟨fun _ _ => trivial, fun _ => trivial⟩
  · refine Quiet.bind ?_ fun _ => trivial
    unfold Repositories.readAuthors
    split
    · exact trivial
    · exact ⟨fun _ _ => trivial, fun _ => trivial⟩

/-- Reading the evidence only adds to what was seen. -/
theorem keeps_evidence {α : Type} {repo : String} {number : Int} {requesters : List String}
    {m : Repositories} {f : Evidence × Repositories → Run α} {P : α → View → Prop}
    (h : ∀ e g', g.Grows g' → Keeps U (f e).run (OnOk P) g') :
    Keeps U (ExceptT.lift (evidence R repo number requesters m) >>= f).run (OnOk P) g :=
  Allowed.lift ((quiet_evidence repo number requesters m).allowed (stable_grows g) (.refl g)) h

/-- Who may be pinged about an assignment, and when. -/
def MayPing (U : CaseProps) (g : View) (a : PrAssignment) (developer : Developer) : Prop :=
  (g.Scheduled ∨ g.due = some a.prUrl) ∧ a ∈ g.seen ∧ ∃ D, g.By D ∧ D.Finds U a.assignee developer

theorem keeps_ping {developer : Developer} {pullRequest : PullRequest} {a : PrAssignment}
    (h : g.lost = false → MayPing U g a developer) :
    Keeps U (ping developer pullRequest a).run (fun _ => g.Grows) g := by
  refine allowed_tryPerform (fun hl => ?_) (fun delivery s => ?_) fun e s => grows_watch g _ _ s
  · obtain ⟨hd, ha, D, hD, hf⟩ := h hl
    exact ⟨hd, D, hD, a, ha, rfl, rfl, hf⟩
  · have hg := grows_watch g (.notifyPrAssignment (noticeOf developer pullRequest a)) (.ok delivery) s
    cases delivery with
    | localOnly => exact hg
    | delivered =>
      refine allowed_tryPerform (fun hl => ?_) (fun _ s => ?_) fun e s => ?_
      · obtain ⟨-, ha, D, hD, hf⟩ := h (hg.kept hl)
        refine ⟨D, hD.grows hg, a, hg.seen ha, rfl, developer, hf, .inl ?_⟩
        exact ⟨noticeOf developer pullRequest a, List.mem_append_right _ List.mem_cons_self, rfl, rfl⟩
      · exact hg.trans (grows_watch _ _ _ s)
      · exact hg.trans (grows_watch _ _ _ s)

/-! ### On opening -/

theorem keeps_pingNew {pullRequest : PullRequest} {stored : PrAssignment}
    (h : g.lost = false → g.due = some stored.prUrl ∧ stored ∈ g.seen ∧ g.By D) :
    Keeps U (D.pingNew U pullRequest stored).run (OnOk fun _ => g.Grows) g := by
  refine keeps_lookup fun developer hf => ?_
  cases developer with
  | none => exact .refl g
  | some developer =>
    refine Allowed.lift (keeps_ping fun hl => ?_) fun _ _ hg => hg
    obtain ⟨hd, hs, hD⟩ := h hl
    exact ⟨.inr hd, hs, D, hD, hf⟩

/-- The decisions are for developers on the roster, one a pending pull request. -/
theorem Balancer.assign_some {r : Roster} {tolerance : Nat} {pending : List (Pending ℚ)}
    {held : List String} {decisions : List (Decision ℚ)}
    (h : Balancer.assign U r tolerance pending held = some decisions) :
    (∀ decision ∈ decisions, ∃ d ∈ r.developers, d.login = decision.assignee) ∧
      ((pending.map Pending.key).Nodup → (decisions.map Decision.key).Nodup) := by
  have hplace : ∀ (items : List (Pending ℚ)) (loads : List Nat) (share : Nat)
      (decisions : List (Decision ℚ)), Balancer.place U r share loads items = some decisions →
        (∀ decision ∈ decisions, ∃ d ∈ r.developers, d.login = decision.assignee) ∧
          decisions.map Decision.key = items.map Pending.key := by
    intro items
    induction items with
    | nil =>
      intro loads share decisions h
      cases h
      exact ⟨by simp, rfl⟩
    | cons item items ih =>
      intro loads share decisions h
      simp only [Balancer.place, Option.bind_eq_bind, Option.bind_eq_some_iff, Option.pure_def,
        Option.some.injEq, Prod.exists] at h
      obtain ⟨index, reason, score, -, developer, hd, rest, hrest, rfl⟩ := h
      obtain ⟨ha, hk⟩ := ih _ _ _ hrest
      refine ⟨List.forall_mem_cons.mpr ⟨⟨developer, List.mem_of_getElem? hd, rfl⟩, ha⟩, ?_⟩
      rw [List.map_cons, List.map_cons, hk]
  unfold Balancer.assign at h
  split at h
  · cases h
    exact ⟨by simp, fun _ => List.nodup_nil⟩
  · simp only [Option.bind_eq_bind, Option.bind_eq_some_iff] at h
    obtain ⟨loads, -, h⟩ := h
    obtain ⟨ha, hk⟩ := hplace _ _ _ _ h
    refine ⟨ha, fun hn => ?_⟩
    rw [hk]
    exact ((List.mergeSort_perm _ _).map _).nodup_iff.mpr hn

theorem keeps_assignNeeded {prUrl repo : String} {issue : Analysis.Issue} {number : Int}
    {pullRequest : PullRequest} (h : g.By D ∧ prUrl ∈ g.known) :
    Keeps U (D.assignNeeded U R prUrl issue repo number pullRequest).run (OnOk fun _ _ => True) g := by
  refine allowed_tryPerform (fun _ => trivial) (fun active s => ?_) fun _ _ => trivial
  have hg := grows_watch g .activePrAssignments (.ok active) s
  refine keeps_lookup fun requesters _ => keeps_evidence fun e g' hg' => ?_
  refine keeps_lookup fun candidates _ => keeps_lookup fun decisions hd => ?_
  cases decisions with
  | nil => exact trivial
  | cons decision decisions =>
    refine allowed_lift (fun _ => trivial) fun assignedAt s => ?_
    have hgrow := hg.trans hg'
    refine allowed_tryPerform (fun _ => ?_) (fun stored s => ?_) fun _ _ => trivial
    · refine ⟨⟨D, h.1.grows hgrow, (Balancer.assign_some hd).1 decision List.mem_cons_self⟩,
        .inl (hgrow.known h.2), ?_⟩
      rintro p hp
      cases hp
    · cases stored with
      | none => exact keeps_try fun _ => trivial
      | some stored =>
        refine (keeps_pingNew fun _ => ⟨rfl, ?_, ?_⟩).tryBind (fun _ _ _ => ?_) fun _ _ _ => trivial
        · exact List.mem_append_right _ List.mem_cons_self
        · exact h.1.grows (hgrow.trans (grows_watch _ _ _ s))
        · exact keeps_try fun _ => trivial

theorem keeps_assignOpened (D : Distributor) (prUrl : String) (issue : Analysis.Issue) :
    Keeps U (D.assignOpened U R prUrl issue).run (OnOk fun _ _ => True)
      (watch.start (.assignOpened D prUrl issue)) := by
  unfold Distributor.assignOpened
  split
  · exact trivial
  · rename_i hs
    have hsec : issue.source ≠ Engine.PullRequests.SECURITY_FIX_SOURCE := by
      intro hc
      simp [hc] at hs
    cases githubPullRequest prUrl with
    | none => exact trivial
    | some p =>
      obtain ⟨repo, number⟩ := p
      refine allowed_tryPerform (fun _ => trivial) (fun active s => ?_) fun _ _ => trivial
      cases active with
      | some existing => exact trivial
      | none =>
        refine allowed_tryPerform (fun _ => trivial) (fun pullRequest s => ?_) fun _ _ => trivial
        by_cases ha : (pullRequest.attention U none).isNeeded = true
        · rw [if_pos ha]
          refine keeps_assignNeeded ⟨⟨_, rfl, rfl⟩, ?_⟩
          have hk : prUrl ∈ (Job.assignOpened D prUrl issue).announced := by
            rw [Job.announced, if_neg hsec]
            exact List.mem_cons_self
          exact hk
        · rw [if_neg ha]
          exact trivial

/-! ### On schedule -/

variable {active : List PrAssignment} {done : List Opened} {s : Triage}

/-- A scheduled run of `D` that has read the active assignments and knows its pull requests. -/
structure Reconciles (D : Distributor) (active : List PrAssignment) (opened : List Opened) (g : View) :
    Prop where
  run_by : g.By D
  scheduled : g.Scheduled
  active : ∀ a ∈ active, a ∈ g.seen
  opened : ∀ e ∈ opened, g.Assignable e.1

theorem Reconciles.grows {opened : List Opened} {g' : View} (h : Reconciles D active opened g)
    (hg : g.Grows g') : Reconciles D active opened g' where
  run_by := h.run_by.grows hg
  scheduled := h.scheduled.grows hg
  active a ha := hg.seen (h.active a ha)
  opened e he := (h.opened e he).grows hg

/-- The pull requests kept or waiting after the first turns. -/
def Triage.urls (s : Triage) : List String :=
  s.kept.map (fun p => p.2.prUrl) ++ s.unassigned.map Unassigned.url

structure Sorted (done : List Opened) (s : Triage) (g : View) : Prop where
  kept : ∀ p ∈ s.kept, p.2 ∈ g.seen
  waiting : ∀ item ∈ s.unassigned, g.Assignable item.url ∧
    ∀ p, item.previous = some p → g.Released item.url p
  nodup : s.urls.Nodup
  done : ∀ url ∈ s.urls, url ∈ done.map Prod.fst

namespace Sorted

theorem empty : Sorted [] .empty g where
  kept := by simp [Triage.empty]
  waiting := by simp [Triage.empty]
  nodup := List.nodup_nil
  done := by simp [Triage.empty, Triage.urls]

theorem grows {g' : View} (h : Sorted done s g) (hg : g.Grows g') : Sorted done s g' where
  kept p hp := hg.seen (h.kept p hp)
  waiting item hi := ⟨(h.waiting item hi).1.grows hg, fun p hp => ((h.waiting item hi).2 p hp).grows hg⟩
  nodup := h.nodup
  done := h.done

theorem skip (h : Sorted done s g) (e : Opened) {s' : Triage} (hk : s'.kept = s.kept)
    (hu : s'.unassigned = s.unassigned) : Sorted (done ++ [e]) s' g where
  kept := by rw [hk]; exact h.kept
  waiting := by rw [hu]; exact h.waiting
  nodup := by rw [Triage.urls, hk, hu]; exact h.nodup
  done url hurl := by
    rw [Triage.urls, hk, hu] at hurl
    rw [List.map_append]
    exact List.mem_append_left _ (h.done url hurl)

theorem keep (h : Sorted done s g) {e : Opened} (he : e.1 ∉ done.map Prod.fst)
    {pullRequest : PullRequest} {a : PrAssignment} (ha : a ∈ g.seen) (hu : a.prUrl = e.1)
    (held : List String) :
    Sorted (done ++ [e]) { s with held, kept := s.kept ++ [(pullRequest, a)] } g := by
  have hp : (Triage.urls { s with held, kept := s.kept ++ [(pullRequest, a)] }).Perm
      (e.1 :: s.urls) := by
    simp only [Triage.urls, List.map_append, List.map_cons, List.map_nil, hu, List.append_assoc,
      List.singleton_append]
    exact List.perm_middle
  refine ⟨fun p hm => ?_, h.waiting, ?_, fun url hurl => ?_⟩
  · rcases List.mem_append.mp hm with hm | hm
    · exact h.kept p hm
    · rw [List.mem_singleton.mp hm]
      exact ha
  · rw [hp.nodup_iff, List.nodup_cons]
    exact ⟨fun hm => he (h.done _ hm), h.nodup⟩
  · rw [List.map_append, List.mem_append]
    rcases List.mem_cons.mp (hp.mem_iff.mp hurl) with rfl | hm
    · exact .inr (List.mem_singleton_self _)
    · exact .inl (h.done url hm)

theorem await (h : Sorted done s g) {e : Opened} (he : e.1 ∉ done.map Prod.fst)
    (hA : g.Assignable e.1) {previous : Option String}
    (hp : ∀ p, previous = some p → g.Released e.1 p) (pullRequest : PullRequest) {s' : Triage}
    (hk : s'.kept = s.kept) (hu : s'.unassigned = s.unassigned) :
    Sorted (done ++ [e]) (Triage.await U s' e.1 pullRequest previous) g := by
  unfold Triage.await
  split
  · have hurls : Triage.urls { s' with unassigned := s'.unassigned ++ [⟨e.1, pullRequest, previous⟩] } =
        s.urls ++ [e.1] := by
      simp [Triage.urls, hk, hu]
    refine ⟨by rw [hk]; exact h.kept, fun item hi => ?_, ?_, fun url hurl => ?_⟩
    · rw [hu] at hi
      rcases List.mem_append.mp hi with hi | hi
      · exact h.waiting item hi
      · rw [List.mem_singleton.mp hi]
        exact ⟨hA, hp⟩
    · rw [hurls, ← List.concat_eq_append, List.nodup_concat]
      exact ⟨fun hm => he (h.done _ hm), h.nodup⟩
    · rw [hurls] at hurl
      rw [List.map_append, List.mem_append]
      rcases List.mem_append.mp hurl with hm | hm
      · exact .inl (h.done url hm)
      · exact .inr hm
  · exact h.skip e hk hu

end Sorted

theorem keeps_triage {opened : List Opened} (hn : (opened.map Prod.fst).Nodup) {post : List Opened}
    {e : Opened} (hl : opened = done ++ e :: post)
    (h : g.lost = false → Reconciles D active opened g ∧ Sorted done s g) :
    Keeps U (D.triage U active s e).run (OnOk fun s' g' =>
      g'.lost = false → Reconciles D active opened g' ∧ Sorted (done ++ [e]) s' g') g := by
  have he : e.1 ∉ done.map Prod.fst := by
    rw [hl, List.map_append, List.map_cons, List.nodup_middle, List.nodup_cons, List.mem_append,
      not_or] at hn
    exact hn.1.1
  have hopen : e ∈ opened := by rw [hl]; exact List.mem_append_right _ List.mem_cons_self
  have hfound : ∀ a, (active.reverse.find? fun a => a.prUrl = e.1) = some a →
      a ∈ active ∧ a.prUrl = e.1 := fun a ha =>
    ⟨List.mem_reverse.mp (List.mem_of_find?_eq_some ha),
      of_decide_eq_true (List.find?_some (p := fun a : PrAssignment => decide (a.prUrl = e.1)) ha)⟩
  unfold Distributor.triage
  generalize (active.reverse.find? fun a => a.prUrl = e.1) = assignment at hfound
  refine allowed_lift (fun _ => trivial) fun r st => ?_
  have hg := grows_watch g (.pullRequest e.2.1 e.2.2) r st
  generalize watch.next g (.pullRequest e.2.1 e.2.2) r st = g₁ at hg
  have h₁ : g₁.lost = false → Reconciles D active opened g₁ ∧ Sorted done s g₁ := fun hl =>
    (h (hg.kept hl)).imp (·.grows hg) (·.grows hg)
  cases r with
  | error _ => exact fun hl => (h₁ hl).imp id fun hs => hs.skip e rfl rfl
  | ok pullRequest =>
    show Keeps U (D.sort U s e.1 pullRequest assignment).run _ g₁
    unfold Distributor.sort
    by_cases hfin : (pullRequest.attention U none).isFinished = true
    · rw [if_pos hfin]
      cases assignment with
      | none => exact fun hl => (h₁ hl).imp id fun hs => hs.skip e rfl rfl
      | some a =>
        refine allowed_tryPerform (fun hl => ?_) (fun ended st => ?_) fun _ _ => trivial
        · have hr := (h₁ hl).1
          refine ⟨by decide, hr.scheduled, D, hr.run_by, a, hr.active a (hfound a rfl).1, rfl, fun hs => ?_⟩
          cases hs
        have hg' := grows_watch g₁ (.endPrAssignment a.id .closed) (.ok ended) st
        intro hl
        obtain ⟨hr, hs⟩ := h₁ (hg'.kept hl)
        refine ⟨hr.grows hg', (hs.grows hg').skip e ?_ ?_⟩ <;> cases ended <;> rfl
    · rw [if_neg hfin]
      cases assignment with
      | none =>
        intro hl
        obtain ⟨hr, hs⟩ := h₁ hl
        exact ⟨hr, hs.await he (hr.opened e hopen) (by simp) pullRequest rfl rfl⟩
      | some a =>
        obtain ⟨ha, hu⟩ := hfound a rfl
        refine keeps_lookup fun found hf => ?_
        cases found with
        | some d =>
          intro hl
          obtain ⟨hr, hs⟩ := h₁ hl
          exact ⟨hr, hs.keep he (hr.active a ha) hu _⟩
        | none =>
          refine allowed_tryPerform (fun hl => ?_) (fun ended st => ?_) fun _ _ => trivial
          · obtain ⟨hr, -⟩ := h₁ hl
            exact ⟨by decide, hr.scheduled, D, hr.run_by, a, hr.active a ha, rfl, fun _ => hf⟩
          · have hg' := grows_watch g₁ (.endPrAssignment a.id .released) (.ok ended) st
            intro hl
            obtain ⟨hr, hs⟩ := h₁ (hg'.kept hl)
            refine ⟨hr.grows hg', (hs.grows hg').await he ((hr.opened e hopen).grows hg') ?_ pullRequest
              ?_ ?_⟩
            · rintro p hp
              cases hp
              exact ⟨a, hg'.seen (hr.active a ha), List.mem_append_right _ List.mem_cons_self, hu, rfl⟩
            · cases ended <;> rfl
            · cases ended <;> rfl

theorem keeps_weigh (items : List Unassigned) :
    Keeps U (items.foldlM (D.weigh U R) (.default, [])).run (OnOk fun p g' =>
      g.Grows g' ∧ p.2.map Pending.key = items.map Unassigned.url) g := by
  refine allowed_tryFoldlM (P := fun done (p : Repositories × List (Pending ℚ)) g' => g.Grows g' ∧
    p.2.map Pending.key = done.map Unassigned.url) ?_ ⟨.refl g, rfl⟩
  rintro done item post - p g₁ ⟨hg, hk⟩
  refine keeps_evidence fun e g₂ hg' => keeps_lookup fun candidates _ => ⟨hg.trans hg', ?_⟩
  rw [List.map_append, List.map_append, hk]
  rfl

/-- The assignments the last loops are about: seen, and one a pull request. -/
structure Current (current : List (PullRequest × PrAssignment)) (g : View) : Prop where
  seen : ∀ p ∈ current, p.2 ∈ g.seen
  nodup : (current.map fun p => p.2.prUrl).Nodup

/-- What the third loop has recorded for the decisions `done`. -/
structure Recorded (unassigned : List Unassigned) (done : List (Decision ℚ))
    (s : List (Unassigned × PrAssignment)) (g : View) : Prop where
  seen : ∀ p ∈ s, p.2 ∈ g.seen
  waiting : ∀ url ∈ s.map (fun p => p.2.prUrl), url ∈ unassigned.map Unassigned.url
  done : (s.map fun p => p.2.prUrl).Sublist (done.map Decision.key)

theorem keeps_record {opened : List Opened} {decisions : List (Decision ℚ)}
    (ha : ∀ decision ∈ decisions, ∃ d ∈ D.roster.developers, d.login = decision.assignee)
    (h : g.lost = false → Reconciles D active opened g ∧ Sorted opened s g) :
    Keeps U (decisions.foldlM (Distributor.record s.unassigned) []).run (OnOk fun p g' =>
      g.Grows g' ∧ (g'.lost = false → Recorded s.unassigned decisions p g')) g := by
  refine allowed_tryFoldlM (P := fun done p g' =>
    g.Grows g' ∧ (g'.lost = false → Recorded s.unassigned done p g')) ?_ ⟨.refl g, fun _ => ?_⟩
  · rintro done decision post hl p g₁ ⟨hg, hr⟩
    have hskip : Recorded s.unassigned done p g₁ → Recorded s.unassigned (done ++ [decision]) p g₁ := by
      intro hr
      refine ⟨hr.seen, hr.waiting, hr.done.trans ?_⟩
      rw [List.map_append]
      exact List.sublist_append_left _ _
    unfold Distributor.record
    cases hf : s.unassigned.find? fun item => item.url = decision.key with
    | none => exact ⟨hg, fun hl => hskip (hr hl)⟩
    | some item =>
      have hi := List.mem_of_find?_eq_some hf
      have hu : item.url = decision.key :=
        of_decide_eq_true (List.find?_some (p := fun item : Unassigned => decide (item.url = decision.key)) hf)
      have hmem : decision ∈ decisions := by rw [hl]; exact List.mem_append_right _ List.mem_cons_self
      refine allowed_lift (fun _ => trivial) fun assignedAt st => ?_
      refine allowed_tryPerform (fun hl => ?_) (fun stored st => ?_) fun _ _ => trivial
      · obtain ⟨hrec, hs⟩ := h (hg.kept hl)
        obtain ⟨hA, hp⟩ := hs.waiting item hi
        exact ⟨⟨D, hrec.run_by.grows hg, ha decision hmem⟩, hA.grows hg, fun p he => (hp p he).grows hg⟩
      · cases stored with
        | none => exact ⟨hg, fun hl => hskip (hr hl)⟩
        | some stored =>
          refine ⟨hg.trans (grows_watch g₁ (.recordPrAssignment _) (.ok (some stored)) st), fun hl => ?_⟩
          obtain ⟨hl, hmatch⟩ := Bool.or_eq_false_iff.mp hl
          rw [Bool.not_eq_false', Bool.and_eq_true, decide_eq_true_eq] at hmatch
          have hurl : stored.prUrl = item.url := hmatch.1
          obtain ⟨hseen, hwait, hdone⟩ := hr hl
          refine ⟨fun q hq => ?_, ?_, ?_⟩
          · rcases List.mem_append.mp hq with hq | hq
            · exact List.mem_append_left _ (hseen q hq)
            · rw [List.mem_singleton.mp hq]
              exact List.mem_append_right _ List.mem_cons_self
          · rw [List.map_append, List.forall_mem_append]
            refine ⟨hwait, fun url hm => ?_⟩
            rw [List.mem_singleton.mp hm]
            exact List.mem_map.mpr ⟨item, hi, hurl.symm⟩
          · rw [List.map_append, List.map_append]
            refine hdone.append ?_
            rw [List.map_singleton, List.map_singleton, hurl, hu]
  · exact ⟨by simp, by simp, List.Sublist.refl _⟩

/-! ### The digest -/

theorem mem_waiting {current : List (PullRequest × PrAssignment)}
    {w : List (String × PullRequestSummary)} (h : D.waiting U current = some w)
    {login : String} {summary : PullRequestSummary} (hm : (login, summary) ∈ w) :
    ∃ p ∈ current, ∃ d, D.Finds U p.2.assignee d ∧ d.login = login ∧ p.2.prUrl = summary.url := by
  induction current generalizing w with
  | nil =>
    cases h
    cases hm
  | cons p current ih =>
    obtain ⟨pullRequest, a⟩ := p
    simp only [Distributor.waiting, Option.bind_eq_bind, Option.bind_eq_some_iff] at h
    obtain ⟨found, hf, others, ho, h⟩ := h
    have hrest : (login, summary) ∈ others → ∃ p ∈ (pullRequest, a) :: current, ∃ d,
        D.Finds U p.2.assignee d ∧ d.login = login ∧ p.2.prUrl = summary.url := by
      intro hm
      obtain ⟨p, hp, hd⟩ := ih ho hm
      exact ⟨p, List.mem_cons_of_mem _ hp, hd⟩
    cases found with
    | none =>
      cases h
      exact hrest hm
    | some d =>
      simp only [Option.pure_def, Option.some.injEq] at h
      subst h
      split at hm
      · rcases List.mem_cons.mp hm with he | hm
        · obtain ⟨rfl, rfl⟩ := Prod.ext_iff.mp he
          exact ⟨_, List.mem_cons_self, d, hf, rfl, rfl⟩
        · exact hrest hm
      · exact hrest hm

theorem mem_groups {developers : List Developer} {w : List (String × PullRequestSummary)}
    {group : DigestGroup} (h : group ∈ Distributor.groups developers w) :
    group.developer ∈ developers ∧
      ∀ summary ∈ group.pullRequests, (group.developer.login, summary) ∈ w := by
  induction developers generalizing w with
  | nil => cases h
  | cons developer developers ih =>
    unfold Distributor.groups at h
    split at h
    · exact (ih h).imp (List.mem_cons_of_mem _) id
    · rename_i first others hw
      rcases List.mem_cons.mp h with rfl | h
      · refine ⟨List.mem_cons_self, fun summary hs => ?_⟩
        rw [(List.mergeSort_perm _ _).mem_iff, ← hw] at hs
        obtain ⟨⟨login, _⟩, hm, rfl⟩ := List.mem_map.mp hs
        obtain ⟨hm, hl⟩ := List.mem_filter.mp hm
        rwa [← of_decide_eq_true hl]
      · obtain ⟨hd, hs⟩ := ih h
        exact ⟨List.mem_cons_of_mem _ hd, fun summary hm => (List.mem_filter.mp (hs summary hm)).1⟩

/-- Every line of a digest is for a current assignment, under the developer found for it. -/
theorem digest_line {current : List (PullRequest × PrAssignment)} {now : DateTime} {digest : Digest}
    (h : D.digestOf U current now = some digest) {group : DigestGroup} (hg : group ∈ digest.groups)
    {url : String} (hu : url ∈ group.urls) :
    ∃ p ∈ current, p.2.prUrl = url ∧ ∃ d, D.Finds U p.2.assignee d ∧ d.login = group.developer.login := by
  simp only [Distributor.digestOf, Option.bind_eq_bind, Option.bind_eq_some_iff, Option.pure_def,
    Option.some.injEq] at h
  obtain ⟨w, hw, rfl⟩ := h
  obtain ⟨summary, hs, rfl⟩ := List.mem_map.mp hu
  obtain ⟨p, hp, d, hf, hl, hurl⟩ := mem_waiting hw ((mem_groups hg).2 summary hs)
  exact ⟨p, hp, hurl, d, hf, hl⟩

theorem keeps_sendDigest {outcome : Outcome} {current : List (PullRequest × PrAssignment)}
    {now : DateTime} (h : g.lost = false → g.By D ∧ Current current g) :
    Keeps U (D.sendDigest U outcome current now).run (OnOk fun _ _ => True) g := by
  refine keeps_lookup fun digest hd => ?_
  split
  · exact trivial
  refine allowed_tryPerform (fun hl group hg url hu => ?_) (fun delivery st => ?_) fun _ _ => trivial
  · obtain ⟨hD, hc⟩ := h hl
    obtain ⟨p, hp, he, hf⟩ := digest_line hd hg hu
    exact ⟨D, hD, p.2, hc.seen p hp, he, hf⟩
  split
  · exact trivial
  have hg := grows_watch g (.notifyPrDigest digest) (.ok delivery) st
  have hg₁ : (watch.next g (.notifyPrDigest digest) (.ok delivery) st).lost = false →
      (digest, delivery) ∈ (watch.next g (.notifyPrDigest digest) (.ok delivery) st).listed ∧
        ∀ url ∈ delivery, ∃ group ∈ digest.groups, url ∈ group.urls := by
    intro hl
    obtain ⟨-, hsub⟩ := Bool.or_eq_false_iff.mp hl
    rw [Bool.not_eq_false', List.all_eq_true] at hsub
    refine ⟨List.mem_append_right _ List.mem_cons_self, fun url hu => ?_⟩
    simpa using hsub url hu
  generalize watch.next g (.notifyPrDigest digest) (.ok delivery) st = g₁ at hg hg₁
  refine Allowed.tryBind (Q := OnOk fun _ g' => g₁.Grows g') ?_ (fun _ _ _ => trivial)
    fun _ _ _ => trivial
  refine allowed_tryForM (fun p hp g₂ hg₂ => ?_) (.refl g₁)
  unfold Distributor.markListed
  split
  · rename_i hdue
    refine allowed_tryPerform (fun hl => ?_) (fun _ st => ?_) fun _ _ => trivial
    · have hl₁ := hg₂.kept hl
      obtain ⟨hD, hc⟩ := h (hg.kept hl₁)
      obtain ⟨hlisted, hsub⟩ := hg₁ hl₁
      -- The line for this pull request is for this assignment.
      have hsame : ∀ group ∈ digest.groups, p.2.prUrl ∈ group.urls →
          ∃ d, D.Finds U p.2.assignee d ∧ d.login = group.developer.login := by
        intro group hgroup hu
        obtain ⟨q, hq, he, hf⟩ := digest_line hd hgroup hu
        rwa [List.inj_on_of_nodup_map hc.nodup hq hp he] at hf
      obtain ⟨group, hgroup, hu⟩ := hsub _ hdue.2
      obtain ⟨d, hf, -⟩ := hsame group hgroup hu
      refine ⟨D, (hD.grows hg).grows hg₂, p.2, hg₂.seen (hg.seen (hc.seen p hp)), rfl, d, hf,
        .inr ⟨_, hg₂.listed hlisted, hdue.2, fun group hgroup hu => ?_⟩⟩
      obtain ⟨d', hf', hlogin⟩ := hsame group hgroup hu
      obtain rfl : d = d' := Option.some.inj (Option.some.inj (hf.symm.trans hf'))
      exact hlogin.symm
    · exact hg₂.trans (grows_watch _ _ _ st)
  · exact hg₂

theorem keeps_pingAll {outcome : Outcome} {current : List (PullRequest × PrAssignment)}
    (h : g.lost = false → g.By D ∧ g.Scheduled ∧ Current current g) :
    Keeps U (D.pingAll U outcome current).run (OnOk fun _ _ => True) g := by
  refine Allowed.tryBind (Q := OnOk fun _ g' => g.Grows g') ?_ (fun undelivered _ _ => ?_)
    fun _ _ _ => trivial
  · refine allowed_tryFoldlM (P := fun _ _ g' => g.Grows g') (fun pre p post hl n g₁ hg => ?_) (.refl g)
    unfold Distributor.pingDue
    split
    · exact hg
    refine keeps_lookup fun found hf => ?_
    cases found with
    | none => exact hg
    | some developer =>
      refine Allowed.lift (keeps_ping fun hl₁ => ?_) fun r g₂ hg₂ => ?_
      · obtain ⟨hD, hs, hc⟩ := h (hg.kept hl₁)
        have hp : p ∈ current := by rw [hl]; exact List.mem_append_right _ List.mem_cons_self
        exact ⟨.inl (hs.grows hg), hg.seen (hc.seen p hp), D, hD.grows hg, hf⟩
      · cases r <;> exact hg.trans hg₂
  · split
    · exact trivial
    · exact trivial

theorem openPullRequests_nodup (attempts : List FixAttempt) (active : List PrAssignment) :
    ((openPullRequests attempts active).map Prod.fst).Nodup := (keySorted_firstByKey _).nodup

theorem mem_openPullRequests {attempts : List FixAttempt} {active : List PrAssignment} {e : Opened}
    (h : e ∈ openPullRequests attempts active) :
    e ∈ tracked attempts ∨ ∃ a ∈ active, e = (a.prUrl, a.repo, a.prNumber) := by
  have hm := (List.mergeSort_perm _ _).mem_iff.mp ((List.destutter_sublist _ _).mem h)
  rcases List.mem_append.mp hm with hm | hm
  · exact .inl hm
  · obtain ⟨a, ha, rfl⟩ := List.mem_map.mp hm
    exact .inr ⟨a, ha, rfl⟩

theorem keeps_distribute (D : Distributor) (now : DateTime) :
    Keeps U (D.distribute U R now).run (OnOk fun _ _ => True) (watch.start (.distribute D now)) := by
  refine allowed_tryPerform (fun _ => trivial) (fun attempts st => ?_) fun _ _ => trivial
  refine allowed_tryPerform (fun _ => trivial) (fun active st => ?_) fun _ _ => trivial
  have h₀ : ∀ e ∈ openPullRequests attempts active, (View.next (View.next
      (watch.start (.distribute D now)) .getPendingPrs (.ok attempts) st) .activePrAssignments
      (.ok active) st).Assignable e.1 := by
    intro e he
    rcases mem_openPullRequests he with he | ⟨a, ha, rfl⟩
    · exact .inl (List.mem_append_right _ (List.mem_map_of_mem he))
    · exact .inr ⟨a, List.mem_append_right _ ha, rfl⟩
  have hrec : Reconciles D active (openPullRequests attempts active) (View.next (View.next
      (watch.start (.distribute D now)) .getPendingPrs (.ok attempts) st) .activePrAssignments
      (.ok active) st) :=
    ⟨⟨_, rfl, rfl⟩, ⟨_, rfl, rfl⟩, fun a ha => List.mem_append_right _ ha, h₀⟩
  refine Allowed.tryBind (allowed_tryFoldlM (P := fun done s g' => g'.lost = false →
    Reconciles D active (openPullRequests attempts active) g' ∧ Sorted done s g')
    (fun done e post hl s g' h => keeps_triage (openPullRequests_nodup attempts active) hl h)
    fun _ => ⟨hrec, .empty⟩) (fun s g₁ h₁ => ?_) fun _ _ _ => trivial
  refine (keeps_weigh s.unassigned).tryBind ?_ fun _ _ _ => trivial
  rintro ⟨_, pending⟩ g₂ ⟨hg₂, hkeys⟩
  refine keeps_lookup fun decisions hd => ?_
  obtain ⟨ha, hn⟩ := Balancer.assign_some hd
  have h₂ : g₂.lost = false → Reconciles D active (openPullRequests attempts active) g₂ ∧
      Sorted (openPullRequests attempts active) s g₂ := fun hl =>
    (h₁ (hg₂.kept hl)).imp (·.grows hg₂) (·.grows hg₂)
  refine (keeps_record ha h₂).tryBind ?_ fun _ _ _ => trivial
  rintro assigned g₃ ⟨hg₃, h₃⟩
  have hcur : g₃.lost = false → Reconciles D active (openPullRequests attempts active) g₃ ∧
      Current (s.kept ++ assigned.map fun p => (p.1.pullRequest, p.2)) g₃ := by
    intro hl
    obtain ⟨hr, hs⟩ := h₂ (hg₃.kept hl)
    obtain ⟨hseen, hwait, hdone⟩ := h₃ hl
    have hnodup := hs.nodup
    rw [Triage.urls, List.nodup_append] at hnodup
    refine ⟨hr.grows hg₃, fun p hp => ?_, ?_⟩
    · rcases List.mem_append.mp hp with hp | hp
      · exact hg₃.seen (hs.kept p hp)
      · obtain ⟨q, hq, rfl⟩ := List.mem_map.mp hp
        exact hseen q hq
    · rw [List.map_append, List.map_map, List.nodup_append]
      refine ⟨hnodup.1, hdone.nodup (hn (by rw [hkeys]; exact hnodup.2.1)), fun x hx y hy => ?_⟩
      exact hnodup.2.2 x hx y (hwait y hy)
  cases hdig : D.digest with
  | true => exact keeps_sendDigest fun hl => ⟨(hcur hl).1.run_by, (hcur hl).2⟩
  | false => exact keeps_pingAll fun hl => ⟨(hcur hl).1.run_by, (hcur hl).1.scheduled, (hcur hl).2⟩

theorem keeps_program (job : Job) : Keeps U (job.program U R) (fun _ _ => True) (watch.start job) := by
  cases job with
  | assignOpened D prUrl issue => exact (keeps_assignOpened D prUrl issue).bind fun _ _ _ => trivial
  | distribute D now => exact (keeps_distribute D now).bind fun _ _ _ => trivial

end Programs

/-! ## The store in every interleaving -/

/-- Distributors on one store; `outside` is the rest of Claudear, which changes the attempts. -/
def distributors (U : CaseProps) (R : RegexLite) : Pool Call Office Env Job FixAttempts where
  answer env c s := c.answer env s
  program := Job.program U R
  outside s attempts := { s with attempts }

abbrev step (U : CaseProps) (R : RegexLite) := Pool.step (distributors U R) watch

/-- Nothing was assigned and nobody was notified. -/
def opening (attempts : FixAttempts) : Office where
  attempts := attempts
  assignments := Table.empty
  pings := []
  digests := []

namespace Office

/-- What the store and the channels have taken stays. -/
structure Grows (s s' : Office) : Prop where
  assignments : s.assignments.Follows s'.assignments
  pings : s.pings ⊆ s'.pings
  digests : s.digests ⊆ s'.digests

theorem Grows.refl (s : Office) : s.Grows s := ⟨.refl _, .refl _, .refl _⟩

/-- The developer was told of the pull request by a channel that reaches people. -/
def Told (s : Office) (url : String) (d : Developer) : Prop :=
  (∃ sent ∈ s.pings, sent.message.pullRequest.url = url ∧ sent.message.developer = d ∧
      Reached sent.channels sent.message) ∨
    ∃ sent ∈ s.digests, Listed sent.channels sent.message url ∧
      ∀ group ∈ sent.message.groups, url ∈ group.urls → group.developer.login = d.login

theorem Told.grows {s s' : Office} {url : String} {d : Developer} (h : s.Told url d) (hg : s.Grows s') :
    s'.Told url d := by
  rcases h with ⟨sent, hs, h⟩ | ⟨sent, hs, h⟩
  · exact .inl ⟨sent, hg.pings hs, h⟩
  · exact .inr ⟨sent, hg.digests hs, h⟩

end Office

theorem stored_cases (env : Env) {α : Type} (f : Office → α × Office) (s : Office) :
    (∃ e, env.stored f s = (.error e, s)) ∨ env.stored f s = (.ok (f s).1, (f s).2) := by
  unfold Env.stored
  split
  · exact .inl ⟨_, rfl⟩
  · exact .inr rfl

section Interleavings

variable {U : CaseProps} {R : RegexLite} {P : Distributor → Prop} {s s' : Office} {g g' : View}
  {n : Nat → View} {t i : Nat} {r r' : AssignmentRow}

/-- What a call in order can do to the store and to what the program has seen. -/
inductive Effect (U : CaseProps) (s : Office) (g : View) : Office → View → Prop
  | read (l : List PrAssignment) (known : List String)
      (hl : ∀ a ∈ l, s.assignments.get a.id = some a.toAssignmentRow)
      (hk : known ⊆ (tracked s.attempts.getPendingPrs).map Prod.fst) :
      Effect U s g s { g with seen := g.seen ++ l, known := g.known ++ known }
  | recorded (a : AssignmentRow) (hok : g.InOrder U (.recordPrAssignment a))
      (hany : s.assignments.any (isActive a.prUrl) = false) :
      Effect U s g { s with assignments := s.assignments.insert (Assignments.fresh a) }
        { g with
          seen := g.seen ++ [rowToPrAssignment (s.assignments.next, Assignments.fresh a)]
          due := some a.prUrl }
  | ignored : Effect U s g { s with assignments := s.assignments.skip } g
  | ended (now : Timestamp) (id : Nat) (status : AssignmentStatus)
      (hok : g.InOrder U (.endPrAssignment id status)) :
      Effect U s g { s with assignments := (s.assignments.endPrAssignment now id status).2 }
        { g with ended := g.ended ++ [id] }
  | marked (now : Timestamp) (id : Nat) (hok : g.InOrder U (.markPrAssignmentNotified id)) :
      Effect U s g { s with assignments := (s.assignments.markPrAssignmentNotified now id).2 } g
  | pinged (notice : AssignmentNotice) (channels : List Channel) (told : List AssignmentNotice)
      (hok : g.InOrder U (.notifyPrAssignment notice))
      (ht : ∀ x ∈ told, x = notice ∧ Reached channels notice) :
      Effect U s g { s with pings := s.pings ++ [⟨notice, channels⟩] }
        { g with due := none, told := g.told ++ told }
  | listed (digest : Digest) (channels : List Channel) (listed : List (Digest × DigestDelivery))
      (hok : g.InOrder U (.notifyPrDigest digest))
      (hl : ∀ p ∈ listed, p.1 = digest ∧ ∀ url ∈ p.2, Listed channels digest url) :
      Effect U s g { s with digests := s.digests ++ [⟨digest, channels⟩] }
        { g with listed := g.listed ++ listed }

theorem Effect.none : Effect U s g s g := by
  have h := Effect.read (U := U) (s := s) (g := g) [] [] (by simp) (by simp)
  simpa using h

theorem Effect.see {l : List PrAssignment}
    (hl : ∀ a ∈ l, s.assignments.get a.id = some a.toAssignmentRow) :
    Effect U s g s { g with seen := g.seen ++ l } := by
  have h := Effect.read (U := U) (g := g) l [] hl (by simp)
  simpa using h

theorem effect_of_call {β : Type} (env : Env) (c : Call β) (hok : g.InOrder U c) :
    Effect U s g (c.answer env s).2 (g.next c (c.answer env s).1 (c.answer env s).2) := by
  cases c with
  | getPendingPrs =>
    rcases stored_cases env (fun s => (s.attempts.getPendingPrs, s)) s with ⟨e, he⟩ | he
    · simp only [Call.answer, he]
      exact .none
    · simp only [Call.answer, he]
      have h := Effect.read (U := U) (s := s) (g := g) [] _ (by simp) (List.Subset.refl _)
      simp only [List.append_nil] at h
      exact h
  | activePrAssignments =>
    rcases stored_cases env (fun s => (s.assignments.activePrAssignments, s)) s with ⟨e, he⟩ | he
    · simp only [Call.answer, he]
      exact .none
    · simp only [Call.answer, he]
      exact .see fun a ha => (Assignments.mem_activePrAssignments.mp ha).1
  | activePrAssignment url =>
    rcases stored_cases env (fun s => (s.assignments.activePrAssignment url, s)) s with ⟨e, he⟩ | he
    · simp only [Call.answer, he]
      exact .none
    · simp only [Call.answer, he]
      exact .see fun a ha => (Assignments.activePrAssignment_eq_some (Option.mem_toList.mp ha)).1
  | recordPrAssignment a =>
    rcases stored_cases env (Office.write fun t => t.recordPrAssignment a) s with ⟨e, he⟩ | he
    · simp only [Call.answer, he]
      exact .none
    · simp only [Call.answer, he]
      simp only [Office.write, Assignments.recordPrAssignment]
      by_cases hany : s.assignments.any (isActive a.prUrl) = true
      · simp only [if_pos hany]
        exact .ignored
      · simp only [if_neg hany]
        have h := Effect.recorded (s := s) a hok (by simpa using hany)
        simpa [View.next, rowToPrAssignment, Assignments.fresh] using h
  | endPrAssignment id status =>
    rcases stored_cases env (Office.write fun t => t.endPrAssignment env.now id status) s with ⟨e, he⟩ | he
    · simp only [Call.answer, he]
      exact .none
    · simp only [Call.answer, he]
      exact .ended env.now id status hok
  | markPrAssignmentNotified id =>
    rcases stored_cases env (Office.write fun t => t.markPrAssignmentNotified env.now id) s with
      ⟨e, he⟩ | he
    · simp only [Call.answer, he]
      exact .none
    · simp only [Call.answer, he]
      exact .marked env.now id hok
  | notifyPrAssignment notice =>
    have hlocal := Effect.pinged (s := s) notice env.channels [] hok (by simp)
    simp only [List.append_nil] at hlocal
    simp only [Call.answer]
    cases hd : notifyPrAssignment env.channels notice with
    | error e => exact hlocal
    | ok delivery =>
      cases delivery with
      | localOnly => exact hlocal
      | delivered =>
        refine .pinged notice env.channels [notice] hok fun x hx => ⟨List.mem_singleton.mp hx, ?_⟩
        exact notifyPrAssignment_delivered.mp hd
  | notifyPrDigest digest =>
    simp only [Call.answer]
    cases hd : notifyPrDigest env.channels digest with
    | error e =>
      have h := Effect.listed (s := s) digest env.channels [] hok (by simp)
      simp only [List.append_nil] at h
      exact h
    | ok delivery =>
      have hmem := mem_notifyPrDigest hd
      have hall : (delivery.all fun url => digest.groups.any fun group => url ∈ group.urls) = true := by
        rw [List.all_eq_true]
        intro url hu
        obtain ⟨ch, -, -, urls, hch, hurl⟩ := (hmem url).mp hu
        obtain ⟨group, hgroup, hin⟩ := ch.listed digest urls hch url hurl
        exact List.any_eq_true.mpr ⟨group, hgroup, decide_eq_true hin⟩
      have h := Effect.listed (s := s) digest env.channels [(digest, delivery)] hok fun p hp => by
        rw [List.mem_singleton.mp hp]
        exact ⟨rfl, fun url hu => (hmem url).mp hu⟩
      simpa [View.next, Except.mapError, hall] using h
  | _ => exact .none

theorem Effect.grows (h : Effect U s g s' g') : s.Grows s' := by
  cases h with
  | read => exact .refl s
  | recorded a => exact ⟨fun i r hi => ⟨r, Table.get_insert_of hi, .refl r⟩, .refl _, .refl _⟩
  | ignored => exact ⟨fun i r hi => ⟨r, hi, .refl r⟩, .refl _, .refl _⟩
  | ended now id status => exact ⟨Assignments.endPrAssignment_follows _ now id status, .refl _, .refl _⟩
  | marked now id => exact ⟨Assignments.markPrAssignmentNotified_follows _ now id, .refl _, .refl _⟩
  | pinged => exact ⟨.refl _, List.subset_append_left _ _, .refl _⟩
  | listed => exact ⟨.refl _, .refl _, List.subset_append_left _ _⟩

theorem Effect.attempts (h : Effect U s g s' g') : s'.attempts = s.attempts := by cases h <;> rfl

theorem Effect.job (h : Effect U s g s' g') : g'.job = g.job := by cases h <;> rfl

/-- Where a row comes from, and what was done about it. -/
structure RowOk (U : CaseProps) (P : Distributor → Prop) (s : Office) (i : Nat) (r : AssignmentRow) :
    Prop where
  handover : ∀ p, r.previous = some p → ∃ j < i, ∃ q, s.assignments.get j = some q ∧
    q.status ≠ .active ∧ q.prUrl = r.prUrl ∧ q.assignee = p
  assignee : ∃ D, P D ∧ ∃ d ∈ D.roster.developers, d.login = r.assignee
  released : r.status = .released → ∃ D, P D ∧ D.roster.find U r.assignee = some none
  notified : r.notifiedAt.isSome = true → ∃ D, P D ∧ ∃ d, D.Finds U r.assignee d ∧ s.Told r.prUrl d

theorem RowOk.follow (h : RowOk U P s i r) (hg : s.Grows s') (hf : r.Follows r')
    (hr : r'.status = .released → r.status = .released ∨
      ∃ D, P D ∧ D.roster.find U r.assignee = some none)
    (hn : r'.notifiedAt.isSome = true → r.notifiedAt.isSome = true ∨
      ∃ D, P D ∧ ∃ d, D.Finds U r.assignee d ∧ s.Told r.prUrl d) : RowOk U P s' i r' where
  handover p hp := by
    obtain ⟨j, hj, q, hq, hs, hu, ha⟩ := h.handover p (hf.previous ▸ hp)
    obtain ⟨q', hq', hfq⟩ := hg.assignments j q hq
    obtain rfl := hfq.ended hs
    exact ⟨j, hj, q', hq', hs, hu.trans hf.prUrl.symm, ha⟩
  assignee := by rw [hf.assignee]; exact h.assignee
  released hs := by rw [hf.assignee]; exact (hr hs).elim h.released id
  notified hs := by
    rw [hf.assignee, hf.prUrl]
    obtain ⟨D, hD, d, hd, ht⟩ := (hn hs).elim h.notified id
    exact ⟨D, hD, d, hd, ht.grows hg⟩

/-- What a program has seen is so. -/
structure ViewOk (P : Distributor → Prop) (s : Office) (g : View) : Prop where
  run_by : ∀ D, g.By D → P D
  seen : ∀ a ∈ g.seen, ∃ r, s.assignments.get a.id = some r ∧ a.toAssignmentRow.Follows r
  ended : ∀ id ∈ g.ended, ∃ r, s.assignments.get id = some r ∧ r.status ≠ .active
  told : ∀ notice ∈ g.told, ∃ sent ∈ s.pings, sent.message = notice ∧ Reached sent.channels notice
  listed : ∀ p ∈ g.listed, ∃ sent ∈ s.digests, sent.message = p.1 ∧ ∀ url ∈ p.2, Listed sent.channels p.1 url
  lost : g.lost = false

theorem ViewOk.grows (h : ViewOk P s g) (hg : s.Grows s') : ViewOk P s' g where
  run_by := h.run_by
  seen a ha := by
    obtain ⟨r, hr, hf⟩ := h.seen a ha
    obtain ⟨r', hr', hf'⟩ := hg.assignments _ r hr
    exact ⟨r', hr', hf.trans hf'⟩
  ended id hid := by
    obtain ⟨r, hr, hs⟩ := h.ended id hid
    obtain ⟨r', hr', hf⟩ := hg.assignments _ r hr
    obtain rfl := hf.ended hs
    exact ⟨r', hr', hs⟩
  told notice hn := by
    obtain ⟨sent, hs, h⟩ := h.told notice hn
    exact ⟨sent, hg.pings hs, h⟩
  listed p hp := by
    obtain ⟨sent, hs, h⟩ := h.listed p hp
    exact ⟨sent, hg.digests hs, h⟩
  lost := h.lost

/-- What the program is told by an answer is so as well. -/
theorem ViewOk.effect (h : ViewOk P s g) (he : Effect U s g s' g') : ViewOk P s' g' := by
  have hg := h.grows he.grows
  cases he with
  | read l known hl hk =>
    refine { hg with seen := fun a ha => (List.mem_append.mp ha).elim (hg.seen a) fun ha => ?_ }
    exact ⟨a.toAssignmentRow, hl a ha, .refl _⟩
  | recorded a hok hany =>
    refine { hg with seen := fun x hx => (List.mem_append.mp hx).elim (hg.seen x) fun hx => ?_ }
    rw [List.mem_singleton.mp hx]
    exact ⟨_, (Table.get_insert ..).trans (if_pos rfl), .refl _⟩
  | ignored => exact hg
  | ended now id status hok =>
    refine { hg with ended := fun j hj => (List.mem_append.mp hj).elim (hg.ended j) fun hj => ?_ }
    rw [List.mem_singleton.mp hj]
    obtain ⟨hs, -, D, -, x, hx, rfl, -⟩ := hok
    obtain ⟨r, hr, -⟩ := hg.seen x hx
    exact ⟨r, hr, Assignments.endPrAssignment_ended hs hr⟩
  | marked now id hok => exact hg
  | pinged notice channels told hok ht =>
    refine { hg with told := fun x hx => (List.mem_append.mp hx).elim (hg.told x) fun hx => ?_ }
    obtain ⟨rfl, hr⟩ := ht x hx
    exact ⟨⟨x, channels⟩, List.mem_append_right _ List.mem_cons_self, rfl, hr⟩
  | listed digest channels listed hok hl =>
    refine { hg with listed := fun p hp => (List.mem_append.mp hp).elim (hg.listed p) fun hp => ?_ }
    obtain ⟨rfl, hu⟩ := hl p hp
    exact ⟨⟨p.1, channels⟩, List.mem_append_right _ List.mem_cons_self, rfl, hu⟩

/-- A ping is about a row, for the developer that a distributor found for its assignee; a line of a
digest as well. -/
structure Sourced (U : CaseProps) (P : Distributor → Prop) (s : Office) : Prop where
  pings : ∀ sent ∈ s.pings, ∃ D, P D ∧ ∃ i r, s.assignments.get i = some r ∧
    r.prUrl = sent.message.pullRequest.url ∧ r.previous = sent.message.previous ∧
    D.Finds U r.assignee sent.message.developer
  digests : ∀ sent ∈ s.digests, ∀ group ∈ sent.message.groups, ∀ url ∈ group.urls, ∃ D, P D ∧
    ∃ i r, s.assignments.get i = some r ∧ r.prUrl = url ∧
      ∃ d, D.Finds U r.assignee d ∧ d.login = group.developer.login

structure Inv (U : CaseProps) (P : Distributor → Prop) (s : Office) (n : Nat → View) : Prop where
  oneActive : s.assignments.OneActive
  rows : ∀ i r, s.assignments.get i = some r → RowOk U P s i r
  sourced : Sourced U P s
  views : ∀ t, ViewOk P s (n t)

theorem Sourced.grows (h : Sourced U P s) (hg : s.assignments.Follows s'.assignments)
    (hp : ∀ sent ∈ s'.pings, sent ∈ s.pings ∨ ∃ D, P D ∧ ∃ i r, s.assignments.get i = some r ∧
      r.prUrl = sent.message.pullRequest.url ∧ r.previous = sent.message.previous ∧
      D.Finds U r.assignee sent.message.developer)
    (hd : ∀ sent ∈ s'.digests, sent ∈ s.digests ∨ ∀ group ∈ sent.message.groups, ∀ url ∈ group.urls,
      ∃ D, P D ∧ ∃ i r, s.assignments.get i = some r ∧ r.prUrl = url ∧
        ∃ d, D.Finds U r.assignee d ∧ d.login = group.developer.login) : Sourced U P s' where
  pings sent hs := by
    obtain ⟨D, hD, i, r, hr, hu, hv, hf⟩ := (hp sent hs).elim (h.pings sent) id
    obtain ⟨r', hr', hrr⟩ := hg i r hr
    exact ⟨D, hD, i, r', hr', hrr.prUrl.trans hu, hrr.previous.trans hv, hrr.assignee ▸ hf⟩
  digests sent hs group hgr url hu := by
    obtain ⟨D, hD, i, r, hr, hu, d, hf, hl⟩ :=
      (hd sent hs).elim (fun hs => h.digests sent hs group hgr url hu) fun hs => hs group hgr url hu
    obtain ⟨r', hr', hrr⟩ := hg i r hr
    exact ⟨D, hD, i, r', hr', hrr.prUrl.trans hu, d, hrr.assignee ▸ hf, hl⟩

theorem Inv.update (h : Inv U P s n) (hg : ViewOk P s g) : Inv U P s (Function.update n t g) where
  oneActive := h.oneActive
  rows := h.rows
  sourced := h.sourced
  views u := by
    by_cases hu : u = t
    · rw [hu, Function.update_self]
      exact hg
    · rw [Function.update_of_ne hu]
      exact h.views u

theorem Inv.effect (h : Inv U P s n) (he : Effect U s (n t) s' g') :
    Inv U P s' (Function.update n t g') := by
  have hg := he.grows
  have hv := h.views t
  refine Inv.update ⟨?_, fun i r hr => ?_, ?_, fun u => (h.views u).grows hg⟩ (hv.effect he)
  · cases he with
    | recorded a hok hany =>
      have hrec := h.oneActive.record a
      rwa [Assignments.recordPrAssignment, if_neg (by simp [hany])] at hrec
    | ended now id status hok => exact h.oneActive.finish hok.1
    | marked => exact h.oneActive.mark
    | _ => exact h.oneActive
  · cases he with
    | recorded a hok hany =>
      rcases Table.get_insert_cases hr with ⟨rfl, rfl⟩ | hr
      · obtain ⟨⟨D, hD, ha⟩, -, hp⟩ := hok
        refine ⟨fun p hprev => ?_, ⟨D, hv.run_by D hD, ha⟩, fun hs => (by cases hs), fun hs => (by cases hs)⟩
        obtain ⟨x, hx, hxe, hu, hxa⟩ := hp p hprev
        obtain ⟨q, hq, hf⟩ := hv.seen x hx
        obtain ⟨q₀, hq₀, hs⟩ := hv.ended _ hxe
        obtain rfl : q₀ = q := Option.some.inj (hq₀.symm.trans hq)
        exact ⟨x.id, Table.lt_next hq, q₀, Table.get_insert_of hq, hs, hf.prUrl.trans hu,
          hf.assignee.trans hxa⟩
      · exact (h.rows i r hr).follow hg (.refl r) .inl .inl
    | ended now id status hok =>
      obtain ⟨q, hq, ⟨hp, rfl⟩ | ⟨-, rfl⟩⟩ := Table.get_update_cases hr
      · rw [Assignments.holds, Bool.and_eq_true, decide_eq_true_eq, decide_eq_true_eq] at hp
        obtain ⟨rfl, hactive⟩ := hp
        obtain ⟨-, -, D, hD, x, hx, rfl, hrel⟩ := hok
        obtain ⟨q', hq', hf⟩ := hv.seen x hx
        obtain rfl : q' = q := Option.some.inj (hq'.symm.trans hq)
        refine (h.rows _ q' hq).follow hg ⟨rfl, fun hs => absurd hactive hs, fun _ => rfl⟩ (fun hs => ?_) .inl
        exact .inr ⟨D, hv.run_by D hD, by rw [hf.assignee]; exact hrel hs⟩
      · exact (h.rows i r hq).follow hg (.refl r) .inl .inl
    | marked now id hok =>
      obtain ⟨q, hq, ⟨hp, rfl⟩ | ⟨-, rfl⟩⟩ := Table.get_update_cases hr
      · rw [Assignments.awaits, Bool.and_eq_true, Bool.and_eq_true, decide_eq_true_eq,
          decide_eq_true_eq, Option.isNone_iff_eq_none] at hp
        obtain ⟨⟨rfl, hactive⟩, hnone⟩ := hp
        obtain ⟨D, hD, x, hx, hid, d, hd, hreach⟩ := hok
        obtain ⟨q', hq', hf⟩ := hv.seen x hx
        rw [hid] at hq'
        obtain rfl : q' = q := Option.some.inj (hq'.symm.trans hq)
        refine (h.rows i q' hq).follow hg ⟨rfl, fun hs => absurd hactive hs, fun hn => ?_⟩ .inl fun _ => ?_
        · rw [hnone] at hn
          cases hn
        · refine .inr ⟨D, hv.run_by D hD, d, by rw [hf.assignee]; exact hd, ?_⟩
          rw [hf.prUrl]
          rcases hreach with ⟨notice, hn, hu, hdev⟩ | ⟨p, hp, hu, hlines⟩
          · obtain ⟨sent, hs, rfl, hr⟩ := hv.told notice hn
            exact .inl ⟨sent, hs, hu, hdev, hr⟩
          · obtain ⟨sent, hs, he, hl⟩ := hv.listed p hp
            exact .inr ⟨sent, hs, he ▸ hl _ hu, he ▸ hlines⟩
      · exact (h.rows i r hq).follow hg (.refl r) .inl .inl
    | _ => exact (h.rows i r hr).follow hg (.refl r) .inl .inl
  · refine h.sourced.grows hg.assignments (fun sent hs => ?_) fun sent hs => ?_
    · cases he with
      | pinged notice channels told hok ht =>
        refine (List.mem_append.mp hs).imp id fun hs => ?_
        rw [List.mem_singleton.mp hs]
        obtain ⟨-, D, hD, x, hx, hu, hp, hf⟩ := hok
        obtain ⟨q, hq, hfq⟩ := hv.seen x hx
        exact ⟨D, hv.run_by D hD, x.id, q, hq, hfq.prUrl.trans hu, hfq.previous.trans hp, hfq.assignee ▸ hf⟩
      | _ => exact .inl hs
    · cases he with
      | listed digest channels listed hok hl =>
        refine (List.mem_append.mp hs).imp id fun hs => ?_
        rw [List.mem_singleton.mp hs]
        intro group hgr url hu
        obtain ⟨D, hD, x, hx, hurl, d, hd, hlogin⟩ := hok group hgr url hu
        obtain ⟨q, hq, hfq⟩ := hv.seen x hx
        exact ⟨D, hv.run_by D hD, x.id, q, hq, hfq.prUrl.trans hurl, d, hfq.assignee ▸ hd, hlogin⟩
      | _ => exact .inl hs

/-- The distributors that are started are among these. -/
def Starts (P : Distributor → Prop) : Move Env Job FixAttempts → Prop
  | .start _ job => P job.distributor
  | _ => True

theorem viewOk_idle : ViewOk P s watch.idle where
  run_by := by
    rintro D ⟨job, hj, -⟩
    cases hj
  seen := by simp [watch]
  ended := by simp [watch]
  told := by simp [watch]
  listed := by simp [watch]
  lost := rfl

theorem viewOk_start {job : Job} (h : P job.distributor) : ViewOk P s (watch.start job) where
  run_by := by
    rintro D ⟨job, hj, rfl⟩
    cases hj
    exact h
  seen := by simp [watch]
  ended := by simp [watch]
  told := by simp [watch]
  listed := by simp [watch]
  lost := rfl

theorem Inv.of_attempts (h : Inv U P s n) (attempts : FixAttempts) : Inv U P { s with attempts } n where
  oneActive := h.oneActive
  rows i r hr := (h.rows i r hr).follow ⟨.refl _, .refl _, .refl _⟩ (.refl r) .inl .inl
  sourced := h.sourced.grows (.refl _) (fun _ => .inl) fun _ => .inl
  views t := (h.views t).grows ⟨.refl _, .refl _, .refl _⟩

/-- What `J` adds to the invariant. -/
abbrev Running (U : CaseProps) (P : Distributor → Prop) (J : Office → (Nat → View) → Prop)
    (w : World Call Office View) : Prop :=
  Pool.Sound watch (View.Ok U) (fun s n => Inv U P s n ∧ J s n) w

variable {J : Office → (Nat → View) → Prop} {K : Move Env Job FixAttempts → Prop}

theorem running_opening {attempts : FixAttempts} (h : J (opening attempts) fun _ => watch.idle) :
    Running U P J (Pool.initial watch (opening attempts)) where
  inv := by
    refine ⟨?_, h⟩
    exact
      { oneActive := Table.unique_empty
        rows := fun i r hr => by cases hr
        sourced := ⟨fun sent hs => (by cases hs), fun sent hs => (by cases hs)⟩
        views := fun _ => viewOk_idle }
  allowed _ := trivial

/-- The rule of the distributors: what an idle program, one that starts, a call in order and a change of
the attempts keep beside the invariant holds after any moves that meet `K`. -/
theorem running_run {w : World Call Office View} {moves : List (Move Env Job FixAttempts)}
    (h : Running U P J w) (hm : ∀ move ∈ moves, Starts P move ∧ K move)
    (hidle : ∀ s n t, J s n → J s (Function.update n t watch.idle))
    (hstart : ∀ s n t job, K (.start t job) → J s n → J s (Function.update n t (watch.start job)))
    (hcall : ∀ s n t s' g', Inv U P s n → J s n → Effect U s (n t) s' g' →
      J s' (Function.update n t g'))
    (houtside : ∀ s n attempts, K (.outside attempts) → J s n → J { s with attempts } n) :
    Running U P J (run (step U R) w moves) := by
  refine (along_of_forall (C := fun _ move => Starts P move ∧ K move)
    fun move hmove _ => hm move hmove).inv (fun w move hw hmove => ?_) h
  obtain ⟨hinv, hJ⟩ := hw.inv
  refine hw.step move (fun job => keeps_program job) ?_ ?_ ?_ ?_
  · exact fun s n t hi => ⟨hi.1.update viewOk_idle, hidle s n t hi.2⟩
  · rintro t job rfl
    exact ⟨hinv.update (viewOk_start hmove.1), hstart _ _ t job hmove.2 hJ⟩
  · intro t env β c k _ hp hok
    have he := effect_of_call (s := w.shared) env c (hok (hinv.views t).lost)
    exact ⟨hinv.effect he, hcall _ _ t _ _ hinv hJ he⟩
  · rintro attempts rfl
    exact ⟨hinv.of_attempts attempts, houtside _ _ attempts hmove.2 hJ⟩

end Interleavings

/-! ## What holds of every run -/

section Runs

variable (U : CaseProps) (R : RegexLite)

abbrev worldAfter (attempts : FixAttempts) (moves : List (Move Env Job FixAttempts)) :
    World Call Office View :=
  run (step U R) (Pool.initial watch (opening attempts)) moves

/-- The store after the moves of any number of distributors and of the rest of Claudear. -/
def officeAfter (attempts : FixAttempts) (moves : List (Move Env Job FixAttempts)) : Office :=
  (worldAfter U R attempts moves).shared

/-- The distributor runs among the moves. -/
def Started (moves : List (Move Env Job FixAttempts)) (D : Distributor) : Prop :=
  ∃ t job, Move.start t job ∈ moves ∧ job.distributor = D

theorem starts_started {moves : List (Move Env Job FixAttempts)} {move : Move Env Job FixAttempts}
    (h : move ∈ moves) : Starts (Started moves) move := by
  cases move with
  | start t job => exact ⟨t, job, h, rfl⟩
  | _ => exact trivial

theorem inv_after (attempts : FixAttempts) (moves : List (Move Env Job FixAttempts)) :
    Inv U (Started moves) (officeAfter U R attempts moves) (worldAfter U R attempts moves).note :=
  (running_run (J := fun _ _ => True) (K := fun _ => True) (running_opening trivial)
    (fun _ hm => ⟨starts_started hm, trivial⟩) (fun _ _ _ _ => trivial) (fun _ _ _ _ _ _ => trivial)
    (fun _ _ _ _ _ _ _ _ => trivial) fun _ _ _ _ _ => trivial).inv.1

/-! ### One developer, one pull request -/

def amyAlone : Distributor where
  roster := Roster.fromDevelopers caseless [Developer.new "amy"]
  tolerance := 0
  notifyOnOpen := true
  digest := false
  notifierName := "composite"

def amysPull : String := "https://github.com/o/r/pull/1"

def pullOpen : Env where
  now := 5
  pullRequest _ _ := .ok
    { url := amysPull, repo := "o/r", number := 1, title := "Fix", state := .opened, draft := false,
      autoMerge := false, head := none, requestedReviewers := [], reviews := [], createdAt := none }
  changedFiles _ _ := .error ()
  commitAuthors _ _ := .error ()
  codeowners _ := .error ()
  channels := [discordUp.channel]

/-- The pull request of an attempt at an issue of this source. -/
def pullOf (source : String) : FixAttempts :=
  Table.empty.insert
    { key := ⟨source, "1"⟩, shortId := "1", attemptedAt := 0, status := .success, prUrl := some amysPull,
      scmRepo := some "o/r" }

def goes (t n : Nat) : List (Move Env Job FixAttempts) := List.replicate n (.go t pullOpen)

def epoch : DateTime := .ofNanos 0

def scheduledOnce : List (Move Env Job FixAttempts) := .start 0 (.distribute amyAlone epoch) :: goes 0 10

/-- Both callers find the pull request unheld, and the one that started later inserts first. -/
def openedTwice : List (Move Env Job FixAttempts) :=
  let issue : Analysis.Issue := ⟨"1", "Fix", none, "linear", .none, fun _ => none⟩
  [.start 0 (.assignOpened amyAlone amysPull issue), .start 1 (.assignOpened amyAlone amysPull issue)] ++
    goes 0 6 ++ goes 1 9 ++ goes 0 4

/-! ### The theorems -/

/-- However the distributors interleave: a pull request has one active assignment at most; who is
named as its holder before had an earlier assignment of it, which has ended; and an assignment keeps
its columns for good once it has ended, its holder always. -/
theorem assignments_handed_over (attempts : FixAttempts) (moves more : List (Move Env Job FixAttempts)) :
    (∀ i r j q, (officeAfter U R attempts moves).assignments.get i = some r →
      (officeAfter U R attempts moves).assignments.get j = some q →
      r.status = .active → q.status = .active → r.prUrl = q.prUrl → i = j) ∧
    (∀ i r p, (officeAfter U R attempts moves).assignments.get i = some r → r.previous = some p →
      ∃ j < i, ∃ q, (officeAfter U R attempts moves).assignments.get j = some q ∧
        q.status ≠ .active ∧ q.prUrl = r.prUrl ∧ q.assignee = p) ∧
    ∀ i r, (officeAfter U R attempts moves).assignments.get i = some r →
      ∃ r', (officeAfter U R attempts (moves ++ more)).assignments.get i = some r' ∧ r.Follows r' := by
  have h := inv_after U R attempts moves
  have hmore : Running U (fun _ => True)
      (fun s _ => (officeAfter U R attempts moves).assignments.Follows s.assignments)
      (run (step U R) (worldAfter U R attempts moves) more) := by
    have hstart : ∀ move : Move Env Job FixAttempts, Starts (fun _ => True) move ∧ True := by
      intro move
      cases move <;> exact ⟨trivial, trivial⟩
    have hw : Running U (fun _ => True) (fun _ _ => True) (worldAfter U R attempts moves) :=
      running_run (K := fun _ => True) (running_opening trivial) (fun move _ => hstart move)
        (fun _ _ _ _ => trivial) (fun _ _ _ _ _ _ => trivial) (fun _ _ _ _ _ _ _ _ => trivial)
        fun _ _ _ _ _ => trivial
    refine running_run (K := fun _ => True) ⟨⟨hw.inv.1, .refl _⟩, hw.allowed⟩ (fun move _ => hstart move)
      (fun _ _ _ hs => hs) (fun _ _ _ _ _ hs => hs) (fun _ _ _ _ _ _ hs he => ?_) fun _ _ _ _ hs => hs
    exact hs.trans he.grows.assignments
  refine ⟨fun i r j q hi hj hr hq hu => h.oneActive.eq hi hj hr hq hu,
    fun i r p hi hp => (h.rows i r hi).handover p hp, fun i r hi => ?_⟩
  rw [officeAfter, worldAfter, run_append]
  exact hmore.inv.2 i r hi

/-- Somebody was told: by a ping, or by a digest that lists the pull request under their login, that a
channel which reaches people has taken. -/
def ToldOf (s : Office) (url : String) (d : Developer) : Prop :=
  (∃ sent ∈ s.pings, sent.message.pullRequest.url = url ∧ sent.message.developer = d ∧
    ∃ c ∈ sent.channels, c.isLocal = false ∧ c.assignment sent.message = .ok .delivered) ∨
  ∃ sent ∈ s.digests, ∃ group ∈ sent.message.groups, url ∈ group.urls ∧
    group.developer.login = d.login ∧ ∃ c ∈ sent.channels, c.isLocal = false ∧
      ∃ delivery, c.digest sent.message = .ok delivery ∧ url ∈ delivery

/-- However the distributors interleave, and whatever of store, host and channels fails: an assignment
is marked as notified only after the developer a distributor found for its holder was told. -/
theorem notified_toldOf (attempts : FixAttempts) (moves : List (Move Env Job FixAttempts)) (i : Nat)
    (r : AssignmentRow) (hi : (officeAfter U R attempts moves).assignments.get i = some r)
    (hn : r.notifiedAt.isSome = true) :
    ∃ D, Started moves D ∧ ∃ d, D.roster.find U r.assignee = some (some d) ∧
      ToldOf (officeAfter U R attempts moves) r.prUrl d := by
  obtain ⟨D, hD, d, hd, ht⟩ := ((inv_after U R attempts moves).rows i r hi).notified hn
  refine ⟨D, hD, d, hd, ht.imp id ?_⟩
  rintro ⟨sent, hs, hl, hlines⟩
  obtain ⟨c, hc, hloc, delivery, hdel, hu⟩ := hl
  obtain ⟨group, hg, hin⟩ := c.listed sent.message delivery hdel _ hu
  exact ⟨sent, hs, group, hg, hin, hlines group hg hin, c, hc, hloc, delivery, hdel, hu⟩

theorem notified_toldOf_amy : ∃ i r,
    (officeAfter caseless .reference (pullOf "linear") scheduledOnce).assignments.get i = some r ∧
    r.notifiedAt.isSome = true ∧ ∃ D, Started scheduledOnce D ∧ ∃ d,
      D.roster.find caseless r.assignee = some (some d) ∧
      ToldOf (officeAfter caseless .reference (pullOf "linear") scheduledOnce) r.prUrl d := by
  have h : ((officeAfter caseless .reference (pullOf "linear") scheduledOnce).assignments.get 1).any
      (fun r => r.notifiedAt.isSome) = true := by decide +kernel
  obtain ⟨r, hr, hn⟩ := (Option.any_eq_true _ _).mp h
  exact ⟨1, r, hr, hn, notified_toldOf caseless .reference (pullOf "linear") scheduledOnce 1 r hr hn⟩

/-- However the distributors interleave: an assignment is given to somebody on the roster of a
distributor, and released only when one does not find its holder; and whoever is pinged about a pull
request, or is listed for it, holds or has held it. -/
theorem assignments_justified (attempts : FixAttempts) (moves : List (Move Env Job FixAttempts)) :
    (∀ i r, (officeAfter U R attempts moves).assignments.get i = some r →
      (∃ D, Started moves D ∧ ∃ d ∈ D.roster.developers, d.login = r.assignee) ∧
      (r.status = .released → ∃ D, Started moves D ∧ D.roster.find U r.assignee = some none)) ∧
    (∀ sent ∈ (officeAfter U R attempts moves).pings, ∃ D, Started moves D ∧ ∃ i r,
      (officeAfter U R attempts moves).assignments.get i = some r ∧
      r.prUrl = sent.message.pullRequest.url ∧ r.previous = sent.message.previous ∧
      D.roster.find U r.assignee = some (some sent.message.developer)) ∧
    ∀ sent ∈ (officeAfter U R attempts moves).digests, ∀ group ∈ sent.message.groups,
      ∀ url ∈ group.urls, ∃ D, Started moves D ∧ ∃ i r,
        (officeAfter U R attempts moves).assignments.get i = some r ∧ r.prUrl = url ∧
        ∃ d, D.roster.find U r.assignee = some (some d) ∧ d.login = group.developer.login := by
  have h := inv_after U R attempts moves
  exact ⟨fun i r hi => ⟨(h.rows i r hi).assignee, (h.rows i r hi).released⟩, h.sourced.pings,
    h.sourced.digests⟩

end Runs

/-! ## Fixes of security issues -/

/-- The pull request is only known as the fix of a security issue. -/
def OnlySecurity (url : String) (attempts : FixAttempts) : Prop :=
  ∀ i r, attempts.get i = some r → r.prUrl = some url →
    r.key.source = Engine.PullRequests.SECURITY_FIX_SOURCE

def KeepsSecret (url : String) : Move Env Job FixAttempts → Prop
  | .start _ job => url ∉ job.announced
  | .outside attempts => OnlySecurity url attempts
  | _ => True

/-- Nobody has been assigned or told of the pull request. -/
structure Unheard (url : String) (s : Office) : Prop where
  rows : ∀ i r, s.assignments.get i = some r → r.prUrl ≠ url
  pings : ∀ sent ∈ s.pings, sent.message.pullRequest.url ≠ url
  digests : ∀ sent ∈ s.digests, ∀ group ∈ sent.message.groups, url ∉ group.urls

structure Secret (url : String) (s : Office) (n : Nat → View) : Prop where
  attempts : OnlySecurity url s.attempts
  unheard : Unheard url s
  views : ∀ t, ¬ (n t).Assignable url

section Kept

variable {U : CaseProps} {R : RegexLite} {url : String} {s s' : Office} {n : Nat → View} {g g' : View}
  {t : Nat}

theorem not_tracked (h : OnlySecurity url s.attempts) :
    url ∉ (tracked s.attempts.getPendingPrs).map Prod.fst := by
  intro hm
  obtain ⟨e, he, rfl⟩ := List.mem_map.mp hm
  obtain ⟨a, ha, hs⟩ := List.mem_filterMap.mp he
  obtain ⟨i, r, hr, -, rfl⟩ := FixAttempts.mem_getPendingPrs.mp ha
  split at hs
  · cases hs
  · rename_i hsec
    obtain ⟨u, hu, hp⟩ := Option.bind_eq_some_iff.mp hs
    obtain ⟨p, -, rfl⟩ := Option.map_eq_some_iff.mp hp
    exact hsec (h i r hr hu)

/-- A call in order is not about what the pull request is not part of. -/
theorem Unheard.effect (ha : OnlySecurity url s.attempts) (h : Unheard url s) (hv : ¬ g.Assignable url)
    (he : Effect U s g s' g') : Unheard url s' ∧ ¬ g'.Assignable url := by
  have hseen : ∀ a ∈ g.seen, a.prUrl ≠ url := fun a ha hu => hv (.inr ⟨a, ha, hu⟩)
  have hupdate {p : Nat × AssignmentRow → Bool} {f : AssignmentRow → AssignmentRow}
      (hf : ∀ r, (f r).prUrl = r.prUrl) :
      Unheard url { s with assignments := s.assignments.update p f } := by
    refine { h with rows := fun i r hr hu => ?_ }
    obtain ⟨q, hq, ⟨-, rfl⟩ | ⟨-, rfl⟩⟩ := Table.get_update_cases hr
    · exact h.rows i q hq ((hf q).symm.trans hu)
    · exact h.rows i r hq hu
  cases he with
  | read l known hl hk =>
    refine ⟨h, ?_⟩
    rintro (hu | ⟨a, hm, hu⟩)
    · exact (List.mem_append.mp hu).elim (fun hu => hv (.inl hu)) fun hu => not_tracked ha (hk hu)
    · exact (List.mem_append.mp hm).elim (fun hm => hseen a hm hu) fun hm => h.rows _ _ (hl a hm) hu
  | recorded a hok hany =>
    have hne : a.prUrl ≠ url := fun hu => hv (hu ▸ hok.2.1)
    refine ⟨{ h with rows := fun i r hr => ?_ }, ?_⟩
    · rcases Table.get_insert_cases hr with ⟨-, rfl⟩ | hr
      · exact hne
      · exact h.rows i r hr
    · rintro (hu | ⟨x, hx, hu⟩)
      · exact hv (.inl hu)
      · rcases List.mem_append.mp hx with hx | hx
        · exact hseen x hx hu
        · rw [List.mem_singleton.mp hx] at hu
          exact hne hu
  | ignored => exact ⟨{ h with rows := h.rows }, hv⟩
  | ended => exact ⟨hupdate fun _ => rfl, hv⟩
  | marked => exact ⟨hupdate fun _ => rfl, hv⟩
  | pinged notice channels told hok ht =>
    refine ⟨{ h with pings := fun sent hs => ?_ }, hv⟩
    rcases List.mem_append.mp hs with hs | hs
    · exact h.pings sent hs
    · obtain ⟨-, D, -, a, hm, hu, -⟩ := hok
      rw [List.mem_singleton.mp hs]
      exact hu ▸ hseen a hm
  | listed digest channels listed hok hl =>
    refine ⟨{ h with digests := fun sent hs => ?_ }, hv⟩
    rcases List.mem_append.mp hs with hs | hs
    · exact h.digests sent hs
    · rw [List.mem_singleton.mp hs]
      intro group hgroup hu
      obtain ⟨D, -, a, hm, hurl, -⟩ := hok group hgroup url hu
      exact hseen a hm hurl

theorem Secret.update (h : Secret url s n) (hg : ¬ g.Assignable url) :
    Secret url s (Function.update n t g) := by
  refine { h with views := fun u => ?_ }
  by_cases hu : u = t
  · rw [hu, Function.update_self]
    exact hg
  · rw [Function.update_of_ne hu]
    exact h.views u

theorem not_assignable_new {job : Option Job} {known : List String} (h : url ∉ known) :
    ¬ View.Assignable { job, known } url := by
  rintro (hk | ⟨a, ha, -⟩)
  · exact h hk
  · cases ha

/-- A pull request that only fixes a security issue is never assigned, and nobody is pinged about it
or listed for it, as long as it is only known as such: however many distributors run side by side. -/
theorem security_fix_unheard (U : CaseProps) (R : RegexLite) (url : String) (attempts : FixAttempts)
    (moves : List (Move Env Job FixAttempts)) (h : OnlySecurity url attempts)
    (hm : ∀ move ∈ moves, KeepsSecret url move) : Unheard url (officeAfter U R attempts moves) := by
  have hrun : Running U (Started moves) (Secret url) (worldAfter U R attempts moves) := by
    refine running_run (K := KeepsSecret url) (running_opening ?_)
      (fun move hmove => ⟨starts_started hmove, hm move hmove⟩) ?_ ?_ ?_ ?_
    · exact ⟨h, ⟨fun i r hr => (by cases hr), fun sent hs => (by cases hs), fun sent hs => (by cases hs)⟩,
        fun _ => not_assignable_new (by simp)⟩
    · exact fun s n t hs => hs.update (not_assignable_new (by simp))
    · exact fun s n t job hjob hs => hs.update (not_assignable_new hjob)
    · intro s n t s' g' _ hs he
      obtain ⟨hu, hv⟩ := hs.unheard.effect hs.attempts (hs.views t) he
      exact Secret.update ⟨he.attempts ▸ hs.attempts, hu, hs.views⟩ hv
    · exact fun s n attempts ha hs =>
        ⟨ha, ⟨hs.unheard.rows, hs.unheard.pings, hs.unheard.digests⟩, hs.views⟩
  exact hrun.inv.2.unheard

theorem security_fix_unheard_amy : Unheard amysPull
    (officeAfter caseless .reference (pullOf Engine.PullRequests.SECURITY_FIX_SOURCE) scheduledOnce) := by
  refine security_fix_unheard caseless .reference amysPull _ scheduledOnce (fun i r hr _ => ?_)
    fun move hm => ?_
  · rcases Table.get_insert_cases hr with ⟨-, rfl⟩ | hr
    · rfl
    · cases hr
  · rcases List.mem_cons.mp hm with rfl | hm
    · exact List.not_mem_nil
    · rw [List.eq_of_mem_replicate hm]
      exact trivial

/-! ## One ping -/

/-- Only callers of `assign_opened` run. -/
def Opens : Move Env Job FixAttempts → Prop
  | .start _ job => job.scheduled = false
  | _ => True

/-- Nothing has ended, no pull request was pinged about twice, and a ping that is due is about a row
that nobody else has recorded and nobody was pinged about. -/
structure Once (s : Office) (n : Nat → View) : Prop where
  active : ∀ i r, s.assignments.get i = some r → r.status = .active
  pinged : (s.pings.map fun sent => sent.message.pullRequest.url).Nodup
  recorded : ∀ t url, (n t).due = some url → ∃ i r, s.assignments.get i = some r ∧ r.prUrl = url
  due : ∀ t url, (n t).due = some url → ∀ sent ∈ s.pings, sent.message.pullRequest.url ≠ url
  apart : ∀ t u url, (n t).due = some url → (n u).due = some url → t = u
  opens : ∀ t, ¬ (n t).Scheduled

theorem update_due {url : String} {u : Nat} (h : (Function.update n t g u).due = some url) :
    u = t ∧ g.due = some url ∨ u ≠ t ∧ (n u).due = some url := by
  by_cases hu : u = t
  · rw [hu, Function.update_self] at h
    exact .inl ⟨hu, h⟩
  · rw [Function.update_of_ne hu] at h
    exact .inr ⟨hu, h⟩

theorem not_scheduled_update (h : ∀ t, ¬ (n t).Scheduled) (hg : ¬ g.Scheduled) (u : Nat) :
    ¬ (Function.update n t g u).Scheduled := by
  by_cases hu : u = t
  · rw [hu, Function.update_self]
    exact hg
  · rw [Function.update_of_ne hu]
    exact h u

/-- A program whose due ping, if it has one, is the one it had. -/
theorem Once.update (h : Once s n) (hd : g.due = none ∨ g.due = (n t).due) (hs : ¬ g.Scheduled) :
    Once s (Function.update n t g) := by
  have hdue : ∀ u url, (Function.update n t g u).due = some url → (n u).due = some url := by
    intro u url hu
    rcases update_due hu with ⟨rfl, hg⟩ | ⟨-, hg⟩
    · rcases hd with hd | hd
      · rw [hd] at hg
        cases hg
      · exact hd ▸ hg
    · exact hg
  exact ⟨h.active, h.pinged, fun u url hu => h.recorded u url (hdue u url hu),
    fun u url hu => h.due u url (hdue u url hu),
    fun u v url hu hv => h.apart u v url (hdue u url hu) (hdue v url hv), not_scheduled_update h.opens hs⟩

theorem Once.effect {P : Distributor → Prop} (hinv : Inv U P s n) (h : Once s n)
    (he : Effect U s (n t) s' g') : Once s' (Function.update n t g') := by
  have hs : ¬ g'.Scheduled := by
    rintro ⟨job, hj, hs⟩
    exact h.opens t ⟨job, he.job ▸ hj, hs⟩
  have hopens := fun u => not_scheduled_update (t := t) h.opens hs u
  cases he with
  | read => exact h.update (.inr rfl) hs
  | recorded a hok hany =>
    -- The pull request had no row, so nobody was or is to be pinged about it.
    have hnew : ∀ i r, s.assignments.get i = some r → r.prUrl ≠ a.prUrl := fun i r hi hu =>
      Assignments.not_active_of_any hany hi hu (h.active i r hi)
    have hother : ∀ u, (n u).due ≠ some a.prUrl := by
      intro u hu
      obtain ⟨i, r, hi, hr⟩ := h.recorded u _ hu
      exact hnew i r hi hr
    refine ⟨fun i r hi => ?_, h.pinged, fun u url hu => ?_, fun u url hu sent hsent => ?_,
      fun u v url hu hv => ?_, hopens⟩
    · rcases Table.get_insert_cases hi with ⟨-, rfl⟩ | hi
      · rfl
      · exact h.active i r hi
    · rcases update_due hu with ⟨-, hu⟩ | ⟨-, hu⟩
      · cases hu
        exact ⟨_, _, (Table.get_insert ..).trans (if_pos rfl), rfl⟩
      · obtain ⟨i, r, hi, hr⟩ := h.recorded u url hu
        exact ⟨i, r, Table.get_insert_of hi, hr⟩
    · rcases update_due hu with ⟨-, hu⟩ | ⟨-, hu⟩
      · cases hu
        obtain ⟨D, -, i, r, hi, hr, -⟩ := hinv.sourced.pings sent hsent
        exact hr ▸ hnew i r hi
      · exact h.due u url hu sent hsent
    · rcases update_due hu with ⟨rfl, hu⟩ | ⟨-, hu⟩
      · cases hu
        rcases update_due hv with ⟨rfl, -⟩ | ⟨-, hv⟩
        · rfl
        · exact absurd hv (hother v)
      · rcases update_due hv with ⟨-, hv⟩ | ⟨-, hv⟩
        · cases hv
          exact absurd hu (hother u)
        · exact h.apart u v url hu hv
  | ignored => exact Once.update ⟨h.active, h.pinged, h.recorded, h.due, h.apart, h.opens⟩ (.inr rfl) hs
  | ended now id status hok => exact absurd hok.2.1 (h.opens t)
  | marked now id hok =>
    refine Once.update ⟨fun i r hi => ?_, h.pinged, fun u url hu => ?_, h.due, h.apart, h.opens⟩ (.inr rfl) hs
    · obtain ⟨q, hq, ⟨-, rfl⟩ | ⟨-, rfl⟩⟩ := Table.get_update_cases hi
      · exact h.active i q hq
      · exact h.active i r hq
    · obtain ⟨i, r, hi, hr⟩ := h.recorded u url hu
      obtain ⟨r', hi', hf⟩ := Assignments.markPrAssignmentNotified_follows _ now id i r hi
      exact ⟨i, r', hi', hf.prUrl.trans hr⟩
  | pinged notice channels told hok ht =>
    have hd : (n t).due = some notice.pullRequest.url := hok.1.resolve_left (h.opens t)
    have hleft : ∀ u url, (Function.update n t { n t with due := none, told := (n t).told ++ told } u).due =
        some url → u ≠ t ∧ (n u).due = some url := by
      intro u url hu
      rcases update_due hu with ⟨-, hu⟩ | hu
      · cases hu
      · exact hu
    refine ⟨h.active, ?_, fun u url hu => h.recorded u url (hleft u url hu).2, fun u url hu sent hsent => ?_,
      fun u v url hu hv => h.apart u v url (hleft u url hu).2 (hleft v url hv).2, hopens⟩
    · rw [List.map_append, List.map_singleton, ← List.concat_eq_append, List.nodup_concat]
      refine ⟨fun hm => ?_, h.pinged⟩
      obtain ⟨sent, hsent, hu⟩ := List.mem_map.mp hm
      exact h.due t _ hd sent hsent hu
    · obtain ⟨hut, hu⟩ := hleft u url hu
      rcases List.mem_append.mp hsent with hsent | hsent
      · exact h.due u url hu sent hsent
      · rw [List.mem_singleton.mp hsent]
        rintro rfl
        exact hut (h.apart u t _ hu hd)
  | listed digest channels listed hok hl =>
    have h' : Once { s with digests := s.digests ++ [⟨digest, channels⟩] } n :=
      ⟨h.active, h.pinged, h.recorded, h.due, h.apart, h.opens⟩
    exact h'.update (.inr rfl) hs

/-- When pull requests are only assigned as they are opened, by any number of callers at a time, nobody
else than the recorded holder is pinged, and nobody twice: one ping a pull request, to the developer that
is found for the holder of its one row. -/
theorem opened_pinged_once (U : CaseProps) (R : RegexLite) (attempts : FixAttempts)
    (moves : List (Move Env Job FixAttempts)) (hm : ∀ move ∈ moves, Opens move) :
    ((officeAfter U R attempts moves).pings.map fun sent => sent.message.pullRequest.url).Nodup ∧
    ∀ sent ∈ (officeAfter U R attempts moves).pings, ∃ D, Started moves D ∧ ∃ i r,
      (officeAfter U R attempts moves).assignments.get i = some r ∧
      r.prUrl = sent.message.pullRequest.url ∧
      D.roster.find U r.assignee = some (some sent.message.developer) ∧
      ∀ j q, (officeAfter U R attempts moves).assignments.get j = some q → q.prUrl = r.prUrl → j = i := by
  have hidle : ¬ watch.idle.Scheduled := by
    rintro ⟨job, hj, -⟩
    cases hj
  have hrun : Running U (Started moves) Once (worldAfter U R attempts moves) := by
    refine running_run (K := Opens) (running_opening ?_)
      (fun move hmove => ⟨starts_started hmove, hm move hmove⟩) ?_ ?_ ?_ ?_
    · exact ⟨fun i r hi => (by cases hi), List.nodup_nil, fun t url hd => (by cases hd),
        fun t url hd => (by cases hd), fun t u url hd => (by cases hd), fun t => hidle⟩
    · exact fun s n t h => h.update (.inl rfl) hidle
    · refine fun s n t job hjob h => h.update (.inl rfl) ?_
      rintro ⟨job', hj, hs⟩
      cases hj
      rw [show job.scheduled = false from hjob] at hs
      cases hs
    · exact fun s n t s' g' hinv h he => h.effect hinv he
    · exact fun s n attempts _ h => ⟨h.active, h.pinged, h.recorded, h.due, h.apart, h.opens⟩
  have hinv := inv_after U R attempts moves
  refine ⟨hrun.inv.2.pinged, fun sent hs => ?_⟩
  obtain ⟨D, hD, i, r, hi, hu, -, hf⟩ := hinv.sourced.pings sent hs
  refine ⟨D, hD, i, r, hi, hu, hf, fun j q hj hq => ?_⟩
  exact hinv.oneActive.eq hj hi (hrun.inv.2.active j q hj) (hrun.inv.2.active i r hi) hq

theorem opened_pinged_once_amy :
    (officeAfter caseless .reference Table.empty openedTwice).pings.length = 1 ∧
    ((officeAfter caseless .reference Table.empty openedTwice).pings.map
      fun sent => sent.message.pullRequest.url).Nodup := by
  refine ⟨by decide +kernel,
    (opened_pinged_once caseless .reference Table.empty openedTwice fun move hm => ?_).1⟩
  simp only [openedTwice, goes, List.mem_append, List.mem_cons, List.not_mem_nil, or_false,
    List.mem_replicate] at hm
  rcases hm with (((rfl | rfl) | ⟨-, rfl⟩) | ⟨-, rfl⟩) | ⟨-, rfl⟩ <;> first | rfl | trivial

end Kept

end Claudear.Distribution
