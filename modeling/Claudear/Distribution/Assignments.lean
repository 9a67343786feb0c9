import Claudear.Analysis.Issue
import Claudear.Distribution.Notice
import Claudear.Distribution.Ownership
import Claudear.Sql.Table
import Claudear.Storage.Error

/-!
# Assignments of pull requests

A pull request on the host, and whether it is waiting on somebody; the table of
assignments, whose partial unique index keeps one active row a pull request;
and the channels a notification goes out on. Only channels that reach people
count for a delivery.

`Row.Follows` is what every statement leaves of a row: the columns that say who
was given what, and an ended row as a whole.
-/

namespace Claudear.Distribution

open Claudear.Core Claudear.Data Claudear.Sql Claudear.Storage Claudear.Text

/-! ## Pull requests -/

inductive PullRequestState where
  | opened | closed | merged
  deriving DecidableEq, Repr

inductive Verdict where
  | approved | changesRequested | commented | dismissed | pending
  deriving DecidableEq, Repr

/-- `is_submitted` -/
def Verdict.isSubmitted : Verdict → Bool
  | .approved | .changesRequested | .commented => true
  | .dismissed | .pending => false

/-- The verdicts that change a reviewer's decision. -/
def Verdict.isDecisive : Verdict → Bool
  | .approved | .changesRequested | .dismissed => true
  | .commented | .pending => false

structure Review where
  reviewer : String
  verdict : Verdict
  commit : Option String
  deriving DecidableEq, Repr

inductive Attention where
  | needed | draft | mergePending | reviewed | merged | closed
  deriving DecidableEq, Repr

def Attention.isNeeded (a : Attention) : Bool := a = .needed

def Attention.isFinished (a : Attention) : Bool := a = .merged || a = .closed

structure PullRequest where
  url : String
  repo : String
  number : Int
  title : String
  state : PullRequestState
  draft : Bool
  autoMerge : Bool
  head : Option String
  requestedReviewers : List String
  reviews : List Review
  createdAt : Option DateTime
  deriving DecidableEq, Repr

/-- The verdict in place of the reviewer's, or after the others. -/
def setDecision (reviewer : String) (verdict : Verdict) :
    List (String × Verdict) → List (String × Verdict)
  | [] => [(reviewer, verdict)]
  | d :: rest =>
    if d.1 = reviewer then (d.1, verdict) :: rest else d :: setDecision reviewer verdict rest

namespace PullRequest

variable (U : CaseProps)

def decisions (reviews : List Review) : List (String × Verdict) :=
  reviews.foldl (fun decisions review =>
    if review.verdict.isDecisive then
      setDecision (toLowercase U review.reviewer) review.verdict decisions
    else decisions) []

def isApproved (p : PullRequest) : Bool :=
  (decisions U p.reviews).any (fun d => d.2 = .approved) &&
    !(decisions U p.reviews).any fun d => d.2 = .changesRequested

def hasReviewedHead (p : PullRequest) (login : String) : Bool :=
  match p.head with
  | none => false
  | some head =>
    !(p.requestedReviewers.any fun reviewer => Analysis.eqIgnoreAsciiCase reviewer login) &&
      p.reviews.any fun review => Analysis.eqIgnoreAsciiCase review.reviewer login &&
        review.verdict.isSubmitted && review.commit = some head

def attention (p : PullRequest) (assignee : Option String) : Attention :=
  match p.state with
  | .merged => .merged
  | .closed => .closed
  | .opened =>
    if p.draft then .draft
    else if p.autoMerge && p.isApproved U then .mergePending
    else
      match assignee with
      | some login => if p.hasReviewedHead login then .reviewed else .needed
      | none => .needed

/-- `PullRequestSummary::from`, under the URL of the assignment. -/
def summary (p : PullRequest) (url : String) : PullRequestSummary where
  url := url
  repo := p.repo
  number := p.number
  title := p.title
  openedAt := p.createdAt

end PullRequest

/-! ## The table -/

inductive AssignmentStatus where
  | active | released | closed
  deriving DecidableEq, Repr

/-- The columns of `pr_assignments` other than its key. -/
structure AssignmentRow where
  prUrl : String
  repo : String
  prNumber : Int
  assignee : String
  previous : Option String
  reason : AssignmentReason
  score : ℚ
  status : AssignmentStatus
  assignedAt : Timestamp
  endedAt : Option Timestamp
  notifiedAt : Option Timestamp
  deriving DecidableEq

/-- What `row_to_pr_assignment` reads off a row. -/
structure PrAssignment extends AssignmentRow where
  id : Nat
  deriving DecidableEq

abbrev Assignments := Table AssignmentRow

def rowToPrAssignment (r : Nat × AssignmentRow) : PrAssignment := { r.2 with id := r.1 }

/-- `WHERE pr_url = ?1 AND status = 'active'` -/
def isActive (prUrl : String) (r : Nat × AssignmentRow) : Bool :=
  r.2.prUrl = prUrl && r.2.status = .active

namespace Assignments

/-- `ORDER BY assigned_at, id` -/
def activePrAssignments (t : Assignments) : List PrAssignment :=
  ((t.select fun r => r.2.status = .active).mergeSort
    (byKey fun r => toLex (r.2.assignedAt, r.1))).map rowToPrAssignment

def activePrAssignment (t : Assignments) (prUrl : String) : Option PrAssignment :=
  (t.first (isActive prUrl)).map rowToPrAssignment

/-- The columns an assignment is inserted with. -/
def fresh (a : AssignmentRow) : AssignmentRow :=
  { a with status := .active, endedAt := none, notifiedAt := none }

/-- `INSERT OR IGNORE`: the index refuses a second active row of the pull request. -/
def recordPrAssignment (t : Assignments) (a : AssignmentRow) : Option PrAssignment × Assignments :=
  if t.any (isActive a.prUrl) then (none, t.skip)
  else (some (rowToPrAssignment (t.next, fresh a)), t.insert (fresh a))

/-- `WHERE id = ?3 AND status = 'active'` -/
def holds (id : Nat) (r : Nat × AssignmentRow) : Bool := r.1 = id && r.2.status = .active

/-- `WHERE id = ?2 AND status = 'active' AND notified_at IS NULL` -/
def awaits (id : Nat) (r : Nat × AssignmentRow) : Bool :=
  r.1 = id && r.2.status = .active && r.2.notifiedAt.isNone

def endPrAssignment (t : Assignments) (now : Timestamp) (id : Nat) (status : AssignmentStatus) :
    Bool × Assignments :=
  (t.any (holds id), t.update (holds id) fun r => { r with status, endedAt := some now })

def markPrAssignmentNotified (t : Assignments) (now : Timestamp) (id : Nat) : Bool × Assignments :=
  (t.any (awaits id), t.update (awaits id) fun r => { r with notifiedAt := some now })

end Assignments

/-! ## What the statements keep -/

/-- What later statements leave of a row. -/
structure AssignmentRow.Follows (r r' : AssignmentRow) : Prop where
  given : (r'.prUrl, r'.repo, r'.prNumber, r'.assignee, r'.previous, r'.reason, r'.score, r'.assignedAt) =
    (r.prUrl, r.repo, r.prNumber, r.assignee, r.previous, r.reason, r.score, r.assignedAt)
  ended : r.status ≠ .active → r' = r
  notified : r.notifiedAt.isSome = true → r'.notifiedAt = r.notifiedAt

namespace AssignmentRow.Follows

variable {r r' r'' : AssignmentRow}

theorem refl (r : AssignmentRow) : r.Follows r := ⟨rfl, fun _ => rfl, fun _ => rfl⟩

theorem trans (h : r.Follows r') (h' : r'.Follows r'') : r.Follows r'' where
  given := h'.given.trans h.given
  ended hs := by
    obtain rfl := h.ended hs
    exact h'.ended hs
  notified hn := (h'.notified (by rw [h.notified hn]; exact hn)).trans (h.notified hn)

theorem prUrl (h : r.Follows r') : r'.prUrl = r.prUrl := congrArg Prod.fst h.given

theorem assignee (h : r.Follows r') : r'.assignee = r.assignee :=
  congrArg (fun x => x.2.2.2.1) h.given

theorem previous (h : r.Follows r') : r'.previous = r.previous :=
  congrArg (fun x => x.2.2.2.2.1) h.given

end AssignmentRow.Follows

namespace Assignments

/-- Every row is there still, and follows what it was. -/
def Follows (t t' : Assignments) : Prop :=
  ∀ i r, t.get i = some r → ∃ r', t'.get i = some r' ∧ r.Follows r'

/-- No pull request has two active rows. -/
def OneActive (t : Assignments) : Prop :=
  t.Unique fun r => if r.status = .active then some r.prUrl else none

variable {t t' t'' : Assignments} {a : AssignmentRow} {now : Timestamp} {id i : Nat}
  {status : AssignmentStatus} {r : AssignmentRow} {url : String}

theorem Follows.refl (t : Assignments) : t.Follows t := fun _ r h => ⟨r, h, .refl r⟩

theorem Follows.trans (h : t.Follows t') (h' : t'.Follows t'') : t.Follows t'' := by
  intro i r hi
  obtain ⟨r', hi', hf⟩ := h i r hi
  obtain ⟨r'', hi'', hf'⟩ := h' i r' hi'
  exact ⟨r'', hi'', hf.trans hf'⟩

theorem follows_update {p : Nat × AssignmentRow → Bool} {f : AssignmentRow → AssignmentRow}
    (h : ∀ r, p r = true → r.2.Follows (f r.2)) : t.Follows (t.update p f) := by
  intro i r hi
  cases hp : p (i, r) with
  | true => exact ⟨f r, Table.get_update_of hi hp, h (i, r) hp⟩
  | false => exact ⟨r, Table.get_update_of_not hi hp, .refl r⟩

theorem endPrAssignment_follows (t : Assignments) (now : Timestamp) (id : Nat)
    (status : AssignmentStatus) : t.Follows (t.endPrAssignment now id status).2 := by
  refine follows_update fun r hp => ⟨rfl, fun hs => absurd ?_ hs, fun _ => rfl⟩
  rw [holds, Bool.and_eq_true] at hp
  exact of_decide_eq_true hp.2

theorem markPrAssignmentNotified_follows (t : Assignments) (now : Timestamp) (id : Nat) :
    t.Follows (t.markPrAssignmentNotified now id).2 := by
  refine follows_update fun r hp => ?_
  rw [awaits, Bool.and_eq_true, Bool.and_eq_true] at hp
  refine ⟨rfl, fun hs => absurd (of_decide_eq_true hp.1.2) hs, fun hn => ?_⟩
  rw [Option.isNone_iff_eq_none] at hp
  rw [hp.2] at hn
  cases hn

/-- The statement ends the row, whether or not it was the one to do so. -/
theorem endPrAssignment_ended (hs : status ≠ .active) {r : AssignmentRow}
    (h : (t.endPrAssignment now id status).2.get id = some r) : r.status ≠ .active := by
  obtain ⟨d, -, ⟨-, rfl⟩ | ⟨hp, rfl⟩⟩ := Table.get_update_cases h
  · exact hs
  · intro ha
    rw [holds, ha] at hp
    simp at hp

theorem mem_activePrAssignments {x : PrAssignment} :
    x ∈ t.activePrAssignments ↔ t.get x.id = some x.toAssignmentRow ∧ x.status = .active := by
  simp only [activePrAssignments, List.mem_map, (List.mergeSort_perm _ _).mem_iff, Prod.exists,
    Table.mem_select, decide_eq_true_eq]
  constructor
  · rintro ⟨i, r, h, rfl⟩
    exact h
  · intro h
    exact ⟨x.id, x.toAssignmentRow, h, rfl⟩

theorem activePrAssignment_eq_some {x : PrAssignment} (h : t.activePrAssignment url = some x) :
    t.get x.id = some x.toAssignmentRow ∧ x.prUrl = url ∧ x.status = .active := by
  obtain ⟨⟨i, r⟩, hr, rfl⟩ := Option.map_eq_some_iff.mp h
  obtain ⟨hi, hp⟩ := Table.first_get hr
  rw [isActive, Bool.and_eq_true] at hp
  exact ⟨hi, of_decide_eq_true hp.1, of_decide_eq_true hp.2⟩

theorem not_active_of_any (h : t.any (isActive url) = false) (hi : t.get i = some r)
    (hu : r.prUrl = url) : r.status ≠ .active := by
  intro ha
  rw [Bool.eq_false_iff, ne_eq, Table.any_eq_true] at h
  exact h ⟨i, r, hi, by simp [isActive, hu, ha]⟩

theorem OneActive.record (h : t.OneActive) (a : AssignmentRow) :
    (t.recordPrAssignment a).2.OneActive := by
  unfold recordPrAssignment
  split
  · exact h
  · rename_i hany
    refine Table.Unique.insert h fun k hk i r hi hr => ?_
    have hne := not_active_of_any (by simpa using hany) hi
    simp only [fresh, if_pos] at hk
    cases hk
    split at hr
    · exact hne (Option.some.inj hr) ‹_›
    · cases hr

theorem OneActive.eq (h : t.OneActive) {j : Nat} {q : AssignmentRow} (hi : t.get i = some r)
    (hj : t.get j = some q) (ha : r.status = .active) (hb : q.status = .active)
    (hu : r.prUrl = q.prUrl) : i = j :=
  h hi hj (if_pos ha) ((if_pos hb).trans (congrArg some hu.symm))

theorem OneActive.finish (h : t.OneActive) (hs : status ≠ .active) :
    (t.endPrAssignment now id status).2.OneActive :=
  Table.Unique.update h fun c k hk => by rw [if_neg hs] at hk; cases hk

theorem OneActive.mark (h : t.OneActive) : (t.markPrAssignmentNotified now id).2.OneActive :=
  Table.Unique.update h fun _ _ hk => hk

end Assignments

/-! ## Channels -/

structure AssignmentNotice where
  developer : Developer
  pullRequest : PullRequestSummary
  reason : AssignmentReason
  previous : Option String
  deriving DecidableEq

structure Digest where
  groups : List DigestGroup
  generatedAt : DateTime
  deriving DecidableEq

def Digest.count (d : Digest) : Nat := (d.groups.map fun group => group.pullRequests.length).sum

def DigestGroup.urls (group : DigestGroup) : List String :=
  group.pullRequests.map PullRequestSummary.url

inductive Delivery where
  | delivered | localOnly
  deriving DecidableEq, Repr

/-- `Delivery::accepted` -/
def Delivery.accepted (isLocal : Bool) : Delivery := if isLocal then .localOnly else .delivered

/-- The URLs of the pull requests whose assignee was sent them. -/
abbrev DigestDelivery := List String

/-- `DigestDelivery::accepted` -/
def DigestDelivery.accepted (d : Digest) (isLocal : Bool) : DigestDelivery :=
  if isLocal then [] else d.groups.flatMap DigestGroup.urls

/-- The first message of a group that fails ends its turn. -/
def firstError {ε : Type} (messages : List (Except ε Unit)) : Option ε :=
  messages.findSome? fun
    | .error e => some e
    | .ok _ => none

structure SendState (ε : Type) where
  delivery : DigestDelivery
  failed : Nat
  last : Option ε

def sendGroup {ε : Type} (s : SendState ε) (g : DigestGroup × List (Except ε Unit)) : SendState ε :=
  match firstError g.2 with
  | none => { s with delivery := s.delivery ++ g.1.urls }
  | some e => { s with failed := s.failed + 1, last := some e }

/-- Every group with what its messages would meet with. -/
def sendEach {ε : Type} (groups : List (DigestGroup × List (Except ε Unit))) :
    Except ε DigestDelivery :=
  let s := groups.foldl sendGroup { delivery := [], failed := 0, last := none }
  match s.last with
  | none => .ok s.delivery
  | some e => if s.failed = groups.length then .error e else .ok s.delivery

section SendEach

variable {ε : Type}

def allSent (g : DigestGroup × List (Except ε Unit)) : Bool := (firstError g.2).isNone

theorem foldl_sendGroup (groups : List (DigestGroup × List (Except ε Unit))) (s : SendState ε) :
    (groups.foldl sendGroup s).delivery =
        s.delivery ++ (groups.filter allSent).flatMap (fun g => g.1.urls) ∧
      (groups.foldl sendGroup s).failed = s.failed + groups.countP (fun g => !allSent g) ∧
      ((groups.foldl sendGroup s).last = none ↔ s.last = none ∧ ∀ g ∈ groups, allSent g = true) := by
  induction groups generalizing s with
  | nil => simp
  | cons g groups ih =>
    obtain ⟨hd, hf, hl⟩ := ih (sendGroup s g)
    rw [List.foldl_cons, hd, hf, hl]
    cases hg : firstError g.2 with
    | none => simp [sendGroup, allSent, hg]
    | some e => simp [sendGroup, allSent, hg, Nat.add_assoc, Nat.add_comm]

/-- A channel that sends group by group delivers the groups all of whose messages were sent, and
fails when there are groups and none was. -/
theorem sendEach_spec (groups : List (DigestGroup × List (Except ε Unit))) :
    (∀ delivery, sendEach groups = .ok delivery →
      delivery = (groups.filter allSent).flatMap fun g => g.1.urls) ∧
    ((∃ e, sendEach groups = .error e) ↔ groups ≠ [] ∧ ∀ g ∈ groups, allSent g = false) := by
  obtain ⟨hd, hf, hl⟩ := foldl_sendGroup groups
    { delivery := [], failed := 0, last := (none : Option ε) }
  unfold sendEach
  generalize groups.foldl sendGroup { delivery := [], failed := 0, last := none } = s at hd hf hl ⊢
  simp only [List.nil_append, Nat.zero_add, true_and] at hd hf hl
  have hall : s.failed = groups.length ↔ ∀ g ∈ groups, allSent g = false := by
    rw [hf, List.countP_eq_length]
    simp
  dsimp only
  cases hlast : s.last with
  | none =>
    refine ⟨fun delivery h => ?_, ?_⟩
    · cases h
      exact hd
    · constructor
      · rintro ⟨e, h⟩
        cases h
      · rintro ⟨hne, hall⟩
        obtain ⟨g, hg⟩ := List.exists_mem_of_ne_nil groups hne
        have h1 := hl.mp hlast g hg
        rw [hall g hg] at h1
        cases h1
  | some e =>
    have hne : groups ≠ [] := by
      rintro rfl
      rw [hl.mpr (by simp)] at hlast
      cases hlast
    dsimp only
    split
    · rename_i h
      refine ⟨fun _ he => ?_, iff_of_true ⟨e, rfl⟩ ⟨hne, hall.mp h⟩⟩
      cases he
    · rename_i h
      refine ⟨fun delivery he => ?_, iff_of_false ?_ fun hn => h (hall.mpr hn.2)⟩
      · cases he
        exact hd
      · rintro ⟨e, he⟩
        cases he

end SendEach

/-- A channel answers a digest with pull requests the digest lists. -/
structure Channel where
  name : String
  isLocal : Bool
  assignment : AssignmentNotice → Except Unit Delivery
  digest : Digest → Except Unit DigestDelivery
  listed : ∀ d delivery, digest d = .ok delivery →
    ∀ url ∈ delivery, ∃ group ∈ d.groups, url ∈ group.urls

namespace Channel

/-- The defaults of `Notifier`, over `notify_status`. -/
def status (name : String) (isLocal : Bool) (sent : String → Except Unit Unit)
    (notice : AssignmentNotice → String) (text : Digest → String) : Channel where
  name := name
  isLocal := isLocal
  assignment n := (sent (notice n)).map fun _ => .accepted isLocal
  digest d := (sent (text d)).map fun _ => .accepted d isLocal
  listed d delivery h url hurl := by
    cases hs : sent (text d) with
    | error e =>
      rw [hs] at h
      cases h
    | ok u =>
      rw [hs] at h
      cases h
      unfold DigestDelivery.accepted at hurl
      split at hurl
      · cases hurl
      · exact List.mem_flatMap.mp hurl

end Channel

/-- Slack and Discord: what becomes of a ping, of what Discord sends before a digest, and of every
message of a group. -/
structure Courier where
  name : String
  ping : AssignmentNotice → Except Unit Unit
  title : Digest → Except Unit Unit
  messages : Digest → DigestGroup → List (Except Unit Unit)

namespace Courier

def digest (k : Courier) (d : Digest) : Except Unit DigestDelivery :=
  (k.title d).bind fun _ => sendEach (d.groups.map fun group => (group, k.messages d group))

/-- Every message of the group was sent. -/
def Sends (k : Courier) (d : Digest) (group : DigestGroup) : Prop :=
  k.title d = .ok () ∧ firstError (k.messages d group) = none

theorem mem_digest {k : Courier} {d : Digest} {delivery : DigestDelivery}
    (h : k.digest d = .ok delivery) (url : String) :
    url ∈ delivery ↔ ∃ group ∈ d.groups, k.Sends d group ∧ url ∈ group.urls := by
  unfold digest at h
  cases ht : k.title d with
  | error e =>
    rw [ht] at h
    cases h
  | ok u =>
    rw [ht] at h
    rw [(sendEach_spec _).1 delivery h, List.mem_flatMap]
    simp only [Sends, ht, true_and, List.mem_filter, List.mem_map, allSent, Option.isNone_iff_eq_none]
    constructor
    · rintro ⟨g, ⟨⟨group, hg, rfl⟩, hs⟩, hu⟩
      exact ⟨group, hg, hs, hu⟩
    · rintro ⟨group, hg, hs, hu⟩
      exact ⟨_, ⟨⟨group, hg, rfl⟩, hs⟩, hu⟩

theorem digest_error {k : Courier} {d : Digest} (hd : d.groups ≠ []) :
    (∃ e, k.digest d = .error e) ↔ ∀ group ∈ d.groups, ¬ k.Sends d group := by
  unfold digest
  cases ht : k.title d with
  | error e =>
    refine iff_of_true ⟨e, rfl⟩ fun group _ hs => ?_
    rw [Sends, ht] at hs
    cases hs.1
  | ok u =>
    refine (sendEach_spec _).2.trans ?_
    simp [hd, Sends, ht, allSent, Option.isSome_iff_ne_none]

def channel (k : Courier) : Channel where
  name := k.name
  isLocal := false
  assignment n := (k.ping n).map fun _ => .delivered
  digest := k.digest
  listed d delivery h url hurl := by
    obtain ⟨group, hg, -, hu⟩ := (mem_digest h url).mp hurl
    exact ⟨group, hg, hu⟩

end Courier

/-! ## The composite notifier -/

/-- `Error::Notifier` -/
structure NotifierError where
  notifier : String
  message : String
  deriving DecidableEq

/-- What the channels that reach people accepted, or an error when all of them failed. -/
def deliver {τ : Type} (channels : List Channel) (f : Channel → Except Unit τ) :
    Except NotifierError (List τ) :=
  let accepted := channels.filterMap fun c => if c.isLocal then none else (f c).toOption
  let failed := channels.filter fun c => !c.isLocal && !(f c).isOk
  if accepted.isEmpty && !failed.isEmpty then
    .error ⟨"composite",
      "no channel delivered the message: " ++ ", ".intercalate (failed.map Channel.name)⟩
  else .ok accepted

def notifyPrAssignment (channels : List Channel) (notice : AssignmentNotice) :
    Except NotifierError Delivery :=
  (deliver channels fun c => c.assignment notice).map fun accepted =>
    if Delivery.delivered ∈ accepted then .delivered else .localOnly

def notifyPrDigest (channels : List Channel) (digest : Digest) : Except NotifierError DigestDelivery :=
  (deliver channels fun c => c.digest digest).map List.flatten

/-- A channel that reaches people accepted the ping. -/
def Reached (channels : List Channel) (notice : AssignmentNotice) : Prop :=
  ∃ c ∈ channels, c.isLocal = false ∧ c.assignment notice = .ok .delivered

/-- A channel that reaches people sent the pull request's assignee the digest. -/
def Listed (channels : List Channel) (digest : Digest) (url : String) : Prop :=
  ∃ c ∈ channels, c.isLocal = false ∧ ∃ delivery, c.digest digest = .ok delivery ∧ url ∈ delivery

section Deliver

variable {τ : Type} {channels : List Channel} {f : Channel → Except Unit τ}

theorem deliver_ok {accepted : List τ} (h : deliver channels f = .ok accepted) (x : τ) :
    x ∈ accepted ↔ ∃ c ∈ channels, c.isLocal = false ∧ f c = .ok x := by
  unfold deliver at h
  dsimp only at h
  split at h
  · cases h
  · cases h
    rw [List.mem_filterMap]
    refine exists_congr fun c => and_congr_right fun _ => ?_
    cases hl : c.isLocal with
    | true => simp
    | false => cases hf : f c <;> simp [Except.toOption]

/-- Local channels take no part in it: the delivery fails when there are others and all failed. -/
theorem deliver_error : (∃ e, deliver channels f = .error e) ↔
    (∃ c ∈ channels, c.isLocal = false) ∧ ∀ c ∈ channels, c.isLocal = false → ∃ e, f c = .error e := by
  have hok : ∀ c, (f c).isOk = false ↔ ∃ e, f c = .error e := by
    intro c
    cases hf : f c <;> simp [Except.isOk, Except.toBool]
  unfold deliver
  dsimp only
  constructor
  · rintro ⟨e, h⟩
    split at h
    · rename_i hc
      rw [Bool.and_eq_true, List.isEmpty_iff, Bool.not_eq_true', List.isEmpty_eq_false_iff_exists_mem]
        at hc
      obtain ⟨ha, c, hc⟩ := hc
      obtain ⟨hm, hl⟩ := List.mem_filter.mp hc
      rw [Bool.and_eq_true, Bool.not_eq_true'] at hl
      refine ⟨⟨c, hm, hl.1⟩, fun d hd hdl => (hok d).mp ?_⟩
      have hn := (List.filterMap_eq_nil_iff.mp ha) d hd
      rw [hdl] at hn
      cases hf : f d <;> simp_all [Except.isOk, Except.toBool, Except.toOption]
    · cases h
  · rintro ⟨⟨c, hm, hl⟩, hall⟩
    rw [if_pos]
    · exact ⟨_, rfl⟩
    · rw [Bool.and_eq_true, List.isEmpty_iff, Bool.not_eq_true', List.isEmpty_eq_false_iff_exists_mem]
      refine ⟨List.filterMap_eq_nil_iff.mpr fun d hd => ?_, c, List.mem_filter.mpr ⟨hm, ?_⟩⟩
      · cases hdl : d.isLocal with
        | true => rfl
        | false =>
          obtain ⟨e, he⟩ := hall d hd hdl
          simp [he, Except.toOption]
      · rw [hl, (hok c).mpr (hall c hm hl)]
        rfl

end Deliver

theorem notifyPrAssignment_delivered {channels : List Channel} {notice : AssignmentNotice} :
    notifyPrAssignment channels notice = .ok .delivered ↔ Reached channels notice := by
  unfold notifyPrAssignment Reached
  cases hd : deliver channels fun c => c.assignment notice with
  | error e =>
    obtain ⟨-, hall⟩ := deliver_error.mp ⟨e, hd⟩
    refine iff_of_false (fun h => by cases h) ?_
    rintro ⟨c, hm, hl, hc⟩
    obtain ⟨e, he⟩ := hall c hm hl
    rw [hc] at he
    cases he
  | ok accepted =>
    rw [← deliver_ok hd]
    simp only [Except.map]
    split
    · rename_i h
      exact iff_of_true rfl h
    · rename_i h
      exact iff_of_false (fun h => by cases h) h

theorem mem_notifyPrDigest {channels : List Channel} {digest : Digest} {delivery : DigestDelivery}
    (h : notifyPrDigest channels digest = .ok delivery) (url : String) :
    url ∈ delivery ↔ Listed channels digest url := by
  unfold notifyPrDigest at h
  cases hd : deliver channels fun c => c.digest digest with
  | error e =>
    rw [hd] at h
    cases h
  | ok accepted =>
    rw [hd] at h
    cases h
    rw [List.mem_flatten, Listed]
    simp only [deliver_ok hd]
    constructor
    · rintro ⟨urls, ⟨c, hm, hl, hc⟩, hu⟩
      exact ⟨c, hm, hl, urls, hc, hu⟩
    · rintro ⟨c, hm, hl, urls, hc, hu⟩
      exact ⟨urls, ⟨c, hm, hl, hc⟩, hu⟩

/-- A digest sent through any channels: it fails when there is a channel that reaches people and none
of them sent a whole group; a pull request is delivered when one of them sent every message of a group
that lists it. Local channels count neither way, wherever they stand. -/
theorem notifyPrDigest_couriers (couriers : List Courier) (locals channels : List Channel)
    (digest : Digest) (hl : ∀ c ∈ locals, c.isLocal = true)
    (hp : channels.Perm (couriers.map Courier.channel ++ locals)) (hd : digest.groups ≠ []) :
    ((∃ e, notifyPrDigest channels digest = .error e) ↔
      couriers ≠ [] ∧ ∀ k ∈ couriers, ∀ group ∈ digest.groups, ¬ k.Sends digest group) ∧
    ∀ delivery, notifyPrDigest channels digest = .ok delivery → ∀ url,
      url ∈ delivery ↔ ∃ k ∈ couriers, ∃ group ∈ digest.groups, k.Sends digest group ∧ url ∈ group.urls := by
  -- The channels that reach people are the couriers'.
  have hmem : ∀ c, (c ∈ channels ∧ c.isLocal = false) ↔ ∃ k ∈ couriers, k.channel = c := by
    intro c
    rw [hp.mem_iff, List.mem_append, List.mem_map]
    constructor
    · rintro ⟨h | h, hc⟩
      · exact h
      · rw [hl c h] at hc
        cases hc
    · rintro ⟨k, hk, rfl⟩
      exact ⟨.inl ⟨k, hk, rfl⟩, rfl⟩
  constructor
  · have hmap : (∃ e, notifyPrDigest channels digest = .error e) ↔
        ∃ e, deliver channels (fun c => c.digest digest) = .error e := by
      unfold notifyPrDigest
      cases deliver channels fun c => c.digest digest <;> simp [Except.map]
    rw [hmap, deliver_error]
    constructor
    · rintro ⟨⟨c, hc⟩, hall⟩
      obtain ⟨k, hk, -⟩ := (hmem c).mp hc
      refine ⟨List.ne_nil_of_mem hk, fun k hk => (Courier.digest_error hd).mp ?_⟩
      obtain ⟨hm, hloc⟩ := (hmem k.channel).mpr ⟨k, hk, rfl⟩
      exact hall _ hm hloc
    · rintro ⟨hne, hall⟩
      obtain ⟨k, hk⟩ := List.exists_mem_of_ne_nil couriers hne
      refine ⟨⟨k.channel, (hmem _).mpr ⟨k, hk, rfl⟩⟩, fun c hc hloc => ?_⟩
      obtain ⟨k, hk, rfl⟩ := (hmem c).mp ⟨hc, hloc⟩
      exact (Courier.digest_error hd).mpr (hall k hk)
  · intro delivery h url
    rw [mem_notifyPrDigest h, Listed]
    constructor
    · rintro ⟨c, hc, hloc, urls, hu, hurl⟩
      obtain ⟨k, hk, rfl⟩ := (hmem c).mp ⟨hc, hloc⟩
      obtain ⟨group, hg, hs⟩ := (Courier.mem_digest hu url).mp hurl
      exact ⟨k, hk, group, hg, hs⟩
    · rintro ⟨k, hk, group, hg, hs, hurl⟩
      obtain ⟨hm, hloc⟩ := (hmem k.channel).mpr ⟨k, hk, rfl⟩
      cases hu : k.digest digest with
      | error e => exact absurd hs ((Courier.digest_error hd).mp ⟨e, hu⟩ group hg)
      | ok urls => exact ⟨k.channel, hm, hloc, urls, hu, (Courier.mem_digest hu url).mpr ⟨group, hg, hs, hurl⟩⟩

def slackDown : Courier where
  name := "slack"
  ping _ := .error ()
  title _ := .ok ()
  messages _ _ := [.error ()]

def discordUp : Courier where
  name := "discord"
  ping _ := .ok ()
  title _ := .ok ()
  messages _ group := group.pullRequests.map fun _ => .ok ()

def consoleUp : Channel := .status "console" true (fun _ => .ok ()) (fun _ => "") fun _ => ""

def amysDigest : Digest where
  groups := [⟨Developer.new "amy", [⟨"https://github.com/o/r/pull/1", "o/r", 1, "Fix", none⟩]⟩]
  generatedAt := ⟨0, 0, .inl (by decide)⟩

/-- The digest goes out on Discord although Slack is down. -/
theorem notifyPrDigest_couriers_amy :
    ((∃ e, notifyPrDigest [consoleUp, slackDown.channel, discordUp.channel] amysDigest = .error e) ↔
      [slackDown, discordUp] ≠ [] ∧
        ∀ k ∈ [slackDown, discordUp], ∀ group ∈ amysDigest.groups, ¬ k.Sends amysDigest group) ∧
    ∀ delivery, notifyPrDigest [consoleUp, slackDown.channel, discordUp.channel] amysDigest =
      .ok delivery → ∀ url, url ∈ delivery ↔ ∃ k ∈ [slackDown, discordUp],
        ∃ group ∈ amysDigest.groups, k.Sends amysDigest group ∧ url ∈ group.urls :=
  notifyPrDigest_couriers [slackDown, discordUp] [consoleUp] _ amysDigest
    (by simp [consoleUp, Channel.status]) (List.perm_append_singleton consoleUp _).symm (by decide)

end Claudear.Distribution
