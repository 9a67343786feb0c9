import Claudear.Engine.Delivery
import Claudear.Storage.FirstReporter
import Claudear.Storage.ReportColumns

/-!
# Registrations

The calls of `register` run one after another under the lock, each on a report
that was read before it, while everybody else uses the store. Creating or taking
over a vulnerability and linking the report are separate transactions, so a report
can be first reporter without being linked, lose that place to another report, and
be registered again. `registration_once` is about the runs in which a first
reporter is replaced only when it is linked, and no report is judged that has been
linked since it was read; in `replacedUnlinked` one is replaced between the two.
-/

namespace Claudear.Engine.Security

open Claudear.Core Claudear.Sql Claudear.Sql.Tx Claudear.Machine
  Claudear.Storage Claudear.Storage.Security

/-! ## The lock -/

/-- The store, and the reports that somebody has read. -/
structure Registry where
  inbox : Inbox
  read : List (Nat × SecurityReport)

/-- Only `register` creates a vulnerability, replaces a first reporter or links a report. -/
def registersNothing {α : Type} (call : Call α) : Bool := call.links.isNone && !call.namesFirst

/-- What is done beside the registrations. -/
inductive Aside where
  | call (op : Op) (h : registersNothing op.call = true)
  | read (reportId : Nat)

def Registry.aside (s : Registry) : Aside → Registry
  | .call op _ => { s with inbox := Security.step s.inbox op }
  | .read id => { s with read := (s.inbox.reports.get id).toList.map (id, ·) ++ s.read }

def registry : Pool Req Registry Env ValidReport Aside where
  answer env c s :=
    let r := Req.answer env c s.inbox
    (r.1, { s with inbox := r.2 })
  program valid := do
    let _ ← record valid.register
  outside := Registry.aside

inductive Turn where
  | register (valid : ValidReport)
  | go (env : Env)
  | crash
  | aside (a : Aside)

/-- Thread 0 is whoever holds the lock; a registration starts when the one before it has ended. -/
def Turn.move : Turn → Move Env ValidReport Aside
  | .register valid => .start 0 valid
  | .go env => .go 0 env
  | .crash => .stop 0
  | .aside a => .outside a

/-! ## What a registration has seen -/

structure Registering where
  /-- The report, and the link it was read with. -/
  report : Option (Nat × Option Nat) := none
  /-- The vulnerability it is first reporter of, once that has been asked. -/
  first : Option (Option Nat) := none
  judging : Bool := false
  /-- The vulnerability it has become first reporter of. -/
  took : Option Nat := none

namespace Registering

def start (valid : ValidReport) : Registering where
  report := some (valid.report.1, valid.report.2.vulnerabilityId)

def next {β : Type} (g : Registering) : Req β → β → Registry → Registering
  | .query (.vulnerabilityByFirstReport _), .ok v, _ => { g with first := some (v.map Prod.fst) }
  | .query (.vulnerabilityCandidates _), _, _ => { g with judging := true }
  | .store (.createVulnerability _), .ok v, _ => { g with took := some v.1 }
  | .store (.replaceFirstReporter vi _ _ _), .ok true, _ => { g with took := some vi }
  | .store (.transitionReport ..), _, _ => {}
  | _, _, _ => g

def About (g : Registering) (ri : Nat) : Prop := ∃ l, g.report = some (ri, l)

/-- The report is first reporter of nothing, and no vulnerability is known for it. -/
def Unknown (g : Registering) : Prop := g.first = some none ∧ g.judging = true ∧ g.took = none

/-- The vulnerability the report is linked to: the one it is first reporter of, the one it was read
with, or what the judge said. -/
def MayLink (g : Registering) (vi : Nat) : Prop :=
  g.first = some (some vi) ∨ g.first = some none ∧
    ((∃ ri, g.report = some (ri, some vi)) ∨ g.judging = true ∧ ∀ v ∈ g.took, vi = v)

def Ok {β : Type} (g : Registering) : Req β → Prop
  | .store (.transitionReport ri _ _ changes _) =>
    g.About ri ∧ ∃ vi, changes.vulnerabilityId = some vi ∧ g.MayLink vi
  | .store (.createVulnerability v) => g.About v.firstReportId ∧ g.Unknown
  | .store (.replaceFirstReporter _ _ ri _) => g.About ri ∧ g.Unknown
  | .store _ => False
  | .query (.vulnerabilityByFirstReport ri) => g.About ri ∧ g.first = none
  | _ => True

end Registering

def noting : Monitor Req Registry ValidReport Registering where
  idle := {}
  start := .start
  next := Registering.next

abbrev Registers {α : Type} (p : Prog Req α) (Q : α → Registering → Prop) (g : Registering) : Prop :=
  Allowed noting Registering.Ok p Q g

/-! ## The programs -/

section Programs

variable {valid : ValidReport} {g : Registering}

theorem registers_linkTracking {v : Nat × SecurityVulnerability} {kind : RegistrationKind}
    (hg : g.About valid.report.1) (hv : g.MayLink v.1) :
    Registers (valid.linkTracking v kind).run (fun _ _ => True) g :=
  allowed_tryPerform ⟨hg, v.1, rfl, hv⟩ (fun _ _ => trivial) fun _ _ => trivial

theorem registers_linkDuplicate {matched : Nat × SecurityVulnerability} (hg : g.About valid.report.1)
    (hu : g.Unknown) : Registers (valid.linkDuplicate matched).run (fun _ _ => True) g := by
  have hlink : Registers (ExceptT.run do
      let moved ← store (.transitionReport valid.report.1 valid.origin.registeringState .replying
        (valid.changes .duplicate matched.1)
        (valid.event .duplicateLinked matched.1 .duplicate))
      return if moved then some (⟨.duplicate, matched⟩ : Registration) else none)
      (fun _ _ => True) g := by
    refine allowed_tryPerform ⟨hg, matched.1, rfl, .inr ⟨hu.1, .inr ⟨hu.2.1, ?_⟩⟩⟩ (fun _ _ => trivial)
      fun _ _ => trivial
    rw [hu.2.2]
    exact nofun
  refine allowed_tryPerform trivial (fun award s => ?_) fun _ _ => trivial
  dsimp only
  split
  · refine allowed_tryPerform ⟨hg, hu⟩ (fun replaced s => ?_) fun _ _ => trivial
    cases replaced with
    | true =>
      refine allowed_tryPerform trivial (fun v s => ?_) fun _ _ => trivial
      refine registers_linkTracking hg (.inr ⟨hu.1, .inr ⟨hu.2.1, fun w hw => ?_⟩⟩)
      cases hw
      rfl
    | false => exact hlink
  · exact hlink

theorem registers_judge (candidates : List Nat) :
    Registers (ValidReport.judge candidates).run (fun _ g' => g' = g) g := by
  unfold ValidReport.judge
  split
  · exact rfl
  · refine allowed_tryPerform trivial (fun verdict s => ?_) fun _ _ => rfl
    split
    · exact rfl
    · split <;> exact rfl

theorem registers_judged (hg : g.About valid.report.1) (hf : g.first = some none)
    (ht : g.took = none) : Registers valid.judged.run (fun _ _ => True) g := by
  refine allowed_tryPerform trivial (fun compared s => ⟨trivial, fun similar s => ?_⟩) fun _ _ => trivial
  have hu : Registering.Unknown { g with judging := true } := ⟨hf, rfl, ht⟩
  refine (registers_judge _).tryBind (fun matched g' hg' => ?_) fun _ _ _ => trivial
  subst hg'
  cases matched with
  | some id =>
    refine allowed_tryPerform trivial (fun v s => ?_) fun _ _ => trivial
    cases v with
    | some v => exact registers_linkDuplicate hg hu
    | none => exact trivial
  | none =>
    refine allowed_tryPerform ⟨hg, hu⟩ (fun v s => ?_) fun _ _ => trivial
    refine registers_linkTracking hg (.inr ⟨hf, .inr ⟨rfl, fun w hw => ?_⟩⟩)
    cases hw
    rfl

theorem registers_linkedVulnerability : Registers valid.linkedVulnerability.run (fun r g' => g' = g ∧
    ∀ v, r = .ok (some v) → valid.report.2.vulnerabilityId = some v.1) g := by
  unfold ValidReport.linkedVulnerability
  split
  · next id hid =>
    refine allowed_tryPerform trivial (fun v s => ⟨rfl, fun w hw => ?_⟩) fun e s => ⟨rfl, fun v hv => by cases hv⟩
    obtain ⟨u, -, rfl⟩ := Option.map_eq_some_iff.mp (Except.ok.inj hw)
    exact hid
  · exact ⟨rfl, fun v hv => by cases hv⟩

theorem registers_register : Registers (registry.program valid) (fun _ _ => True) (.start valid) := by
  refine Allowed.bind (Q := fun _ _ => True) ?_ fun _ _ _ => trivial
  refine Allowed.bind (Q := fun _ _ => True) ?_ fun _ _ _ => trivial
  have hg : (Registering.start valid).About valid.report.1 := ⟨_, rfl⟩
  refine allowed_tryPerform ⟨hg, rfl⟩ (fun existing s => ?_) fun _ _ => trivial
  cases existing with
  | some v => exact registers_linkTracking ⟨_, rfl⟩ (.inl rfl)
  | none =>
    have hjudged : Registers valid.judged.run (fun _ _ => True)
        { Registering.start valid with first := some none } := registers_judged ⟨_, rfl⟩ rfl rfl
    refine registers_linkedVulnerability.tryBind (fun linked g hg => ?_) fun _ _ _ => trivial
    obtain ⟨rfl, hlinked⟩ := hg
    cases linked with
    | some v =>
      refine registers_linkTracking ⟨_, rfl⟩ (.inr ⟨rfl, .inl ⟨valid.report.1, ?_⟩⟩)
      exact congrArg (fun l => some (valid.report.1, l)) (hlinked v rfl)
    | none => exact hjudged

end Programs

/-! ## The invariant -/

variable {s : Registry} {g : Registering} {d d' : Inbox} {ri vi : Nat}

/-- What holds of the store whenever a registration may start. -/
structure Linked (d : Inbox) : Prop where
  one : ∀ v w r, d.firstOf v = some r → d.firstOf w = some r → v = w
  known : ∀ v r, d.firstOf v = some r → (d.reports.get r).isSome = true
  linked : ∀ v w r, d.link r = some v → d.firstOf w = some r → w = v

/-- What the running registration has seen is still true. -/
structure Seen (d : Inbox) (g : Registering) (ri : Nat) (link : Option Nat) : Prop where
  known : (d.reports.get ri).isSome = true
  link : ∀ v ∈ link, d.link ri = some v
  adopted : ∀ v, g.first = some (some v) → d.firstOf v = some ri
  unfirst : g.first = some none → g.took = none → ∀ v, d.firstOf v ≠ some ri
  took : ∀ v ∈ g.took, d.firstOf v = some ri
  unlinked : g.judging = true → d.link ri = none

structure Registered (s : Registry) (g : Registering) : Prop where
  store : Linked s.inbox
  read : ∀ p ∈ s.read, (s.inbox.reports.get p.1).isSome = true ∧
    ∀ v ∈ p.2.vulnerabilityId, s.inbox.link p.1 = some v
  seen : ∀ ri link, g.report = some (ri, link) → Seen s.inbox g ri link

/-- The report of the running registration, with what has been seen of it. -/
theorem Registered.about (h : Registered s g) (hg : g.About ri) : ∃ l, g.report = some (ri, l) ∧
    Seen s.inbox g ri l :=
  hg.imp fun _ hl => ⟨hl, h.seen _ _ hl⟩

/-- A linked report is linked to the same vulnerability again. -/
theorem Seen.mayLink {l : Option Nat} (h : Seen d g ri l) (hd : Linked d)
    (hr : g.report = some (ri, l)) (hm : g.MayLink vi) :
    (∀ v, d.link ri = some v → v = vi) ∧ ∀ w, d.firstOf w = some ri → w = vi := by
  rcases hm with hfirst | ⟨hfirst, ⟨rj, hread⟩ | ⟨hjudging, htook⟩⟩
  · have hvi := h.adopted vi hfirst
    exact ⟨fun v hv => (hd.linked v vi ri hv hvi).symm, fun w hw => hd.one w vi ri hw hvi⟩
  · cases hr.symm.trans hread
    have hl := h.link vi rfl
    exact ⟨fun v hv => Option.some.inj (hv.symm.trans hl), fun w hw => hd.linked vi w ri hl hw⟩
  · refine ⟨fun v hv => ?_, fun w hw => ?_⟩
    · rw [h.unlinked hjudging] at hv
      cases hv
    · cases ht : g.took with
      | none => exact absurd hw (h.unfirst hfirst ht w)
      | some u =>
        rw [htook u ht]
        exact hd.one w u ri hw (h.took u ht)

/-- A call that makes no report a first reporter, and links none to another vulnerability than it is
first reporter of. -/
theorem Linked.exec (h : Linked d) {now : DateTime} {α : Type} {call : Call α} {a : α}
    (hrun : (exec now call).run d = .ok (a, d')) (hf : call.namesFirst = false)
    (hl : ∀ r v, call.links = some (r, v) → ∀ w, d.firstOf w = some r → w = v) : Linked d' where
  one v w r := by
    rw [firstOf_exec hrun hf, firstOf_exec hrun hf]
    exact h.one v w r
  known v r := by
    rw [firstOf_exec hrun hf]
    exact fun hv => known_exec hrun (h.known v r hv)
  linked v w r hv := by
    rw [firstOf_exec hrun hf]
    intro hw
    obtain ⟨x, hx⟩ := Option.isSome_iff_exists.mp (h.known w r hw)
    obtain ⟨x', hx', hchange⟩ := report_exec hrun hx
    have hv' : x'.vulnerabilityId = some v := by
      obtain ⟨y, hy, hyv⟩ := link_eq_some.mp hv
      cases hy.symm.trans hx'
      exact hyv
    rcases hchange.link with he | ⟨u, hu, he⟩
    · exact h.linked v w r (link_eq_some.mpr ⟨x, hx, he.symm.trans hv'⟩) hw
    · cases he.symm.trans hv'
      exact hl r v hu w hw

section Calls

variable {α : Type} {call : Call α} {a : α} {now : DateTime}

/-- A linking call ends what has been seen. -/
theorem Registered.linked (h : Registered s g) (hrun : (exec now call).run s.inbox = .ok (a, d'))
    (hf : call.namesFirst = false)
    (hl : ∀ r v, call.links = some (r, v) →
      (∀ u, s.inbox.link r = some u → u = v) ∧ ∀ w, s.inbox.firstOf w = some r → w = v) :
    Registered ⟨d', s.read⟩ {} where
  store := h.store.exec hrun hf fun r v hv => (hl r v hv).2
  read p hp :=
    have hread := h.read p hp
    ⟨known_exec hrun hread.1, fun v hv =>
      link_exec hrun (hread.2 v hv) fun u hu => ((hl p.1 u hu).1 v (hread.2 v hv)).symm⟩
  seen := nofun

theorem Registered.unlinked (h : Registered s g) (hrun : (exec now call).run s.inbox = .ok (a, d'))
    (hf : call.namesFirst = false) (hl : call.links = none) : Registered ⟨d', s.read⟩ g := by
  have hnone (r v) : call.links ≠ some (r, v) := by rw [hl]; exact nofun
  obtain ⟨hstore, hread, -⟩ := h.linked hrun hf fun r v hv => absurd hv (hnone r v)
  refine ⟨hstore, hread, fun ri link hr => ?_⟩
  have hseen := h.seen ri link hr
  have hlink := link_same hrun hseen.known (hnone ri)
  refine ⟨known_exec hrun hseen.known, ?_, ?_, ?_, ?_, ?_⟩
  · exact fun v hv => hlink.trans (hseen.link v hv)
  · exact fun v hv => (firstOf_exec hrun hf).trans (hseen.adopted v hv)
  · intro hfirst ht v
    rw [firstOf_exec hrun hf]
    exact hseen.unfirst hfirst ht v
  · exact fun v hv => (firstOf_exec hrun hf).trans (hseen.took v hv)
  · exact fun hj => hlink.trans (hseen.unlinked hj)

/-- The report, unknown so far, becomes first reporter of `vi`. -/
theorem Registered.named (h : Registered s g) (hrun : (exec now call).run s.inbox = .ok (a, d'))
    (hl : call.links = none) (hg : g.About ri) (hu : g.Unknown)
    (hfirst : ∀ v, d'.firstOf v = if v = vi then some ri else s.inbox.firstOf v) :
    Registered ⟨d', s.read⟩ { g with took := some vi } := by
  obtain ⟨link, hr, hseen⟩ := h.about hg
  obtain ⟨hnone, hjudging, htook⟩ := hu
  have hlink {r : Nat} (hr : (s.inbox.reports.get r).isSome = true) : d'.link r = s.inbox.link r :=
    link_same hrun hr (by rw [hl]; exact nofun)
  have hunfirst := hseen.unfirst hnone htook
  have hunlinked := hseen.unlinked hjudging
  have hcases {v r : Nat} (hv : d'.firstOf v = some r) :
      v = vi ∧ r = ri ∨ s.inbox.firstOf v = some r ∧ r ≠ ri := by
    rw [hfirst] at hv
    split at hv
    · next he => exact .inl ⟨he, (Option.some.inj hv).symm⟩
    · refine .inr ⟨hv, ?_⟩
      rintro rfl
      exact hunfirst v hv
  refine ⟨⟨fun v w r hv hw => ?_, fun v r hv => ?_, fun v w r hv hw => ?_⟩, fun p hp => ?_,
    fun rj link' hr' => ?_⟩
  · rcases hcases hv with ⟨hv, he⟩ | ⟨hv, hne⟩ <;> rcases hcases hw with ⟨hw, he'⟩ | ⟨hw, hne'⟩
    · exact hv.trans hw.symm
    · exact absurd he hne'
    · exact absurd he' hne
    · exact h.store.one v w r hv hw
  · rcases hcases hv with ⟨-, rfl⟩ | ⟨hv, -⟩
    · exact known_exec hrun hseen.known
    · exact known_exec hrun (h.store.known v r hv)
  · rcases hcases hw with ⟨-, rfl⟩ | ⟨hw, -⟩
    · rw [hlink hseen.known, hunlinked] at hv
      cases hv
    · rw [hlink (h.store.known w r hw)] at hv
      exact h.store.linked v w r hv hw
  · have hread := h.read p hp
    exact ⟨known_exec hrun hread.1, fun v hv => (hlink hread.1).trans (hread.2 v hv)⟩
  · cases hr.symm.trans hr'
    refine ⟨known_exec hrun hseen.known, fun v hv => (hlink hseen.known).trans (hseen.link v hv),
      fun v hv => ?_, fun _ ht => ?_, fun v hv => ?_, fun hj => (hlink hseen.known).trans hunlinked⟩
    · rw [show g.first = some (some v) from hv] at hnone
      cases hnone
    · cases ht
    · cases hv
      rw [hfirst, if_pos rfl]

end Calls

/-! ## Fair runs -/

/-- Nothing is judged that is linked, and only a linked first reporter is replaced. -/
def fairCall (d : Inbox) (g : Registering) {β : Type} : Req β → Bool
  | .query (.vulnerabilityCandidates _) => g.report.all fun p => d.link p.1 = none
  | .store (.replaceFirstReporter vi expected _ _) =>
    d.firstOf vi ≠ some expected ∨ d.link expected = some vi
  | _ => true

def fairNext (d : Inbox) (g : Registering) : Prog Req Unit → Bool
  | .ret _ => true
  | .call c _ => fairCall d g c

/-- A report is registered as somebody has read it. -/
def AsRead (w : World Req Registry Registering) : Turn → Prop
  | .register valid => valid.report ∈ w.shared.read
  | .go _ | .crash | .aside _ => True

instance AsRead.decidable (w : World Req Registry Registering) : ∀ turn, Decidable (AsRead w turn)
  | .register _ => inferInstanceAs (Decidable (_ ∈ _))
  | .go _ | .crash | .aside _ => .isTrue trivial

/-- A report is registered as it was read, and the calls for it are fair. -/
def Fair (w : World Req Registry Registering) : Turn → Prop
  | .register valid => valid.report ∈ w.shared.read
  | .go _ => fairNext w.shared.inbox (w.note 0) (w.prog 0) = true
  | .crash | .aside _ => True

instance Fair.decidable (w : World Req Registry Registering) : ∀ turn, Decidable (Fair w turn)
  | .register _ => inferInstanceAs (Decidable (_ ∈ _))
  | .go _ => inferInstanceAs (Decidable (_ = true))
  | .crash | .aside _ => .isTrue trivial

theorem firstOf_found {v : Nat × SecurityVulnerability}
    (h : d.findSecurityVulnerabilityByFirstReport ri = some v) : d.firstOf v.1 = some ri := by
  obtain ⟨hv, hri⟩ := Table.first_get h
  rw [Inbox.firstOf, hv, Option.map_some, of_decide_eq_true hri]

theorem firstOf_not_found (h : d.findSecurityVulnerabilityByFirstReport ri = none) (v : Nat) :
    d.firstOf v ≠ some ri := by
  intro hv
  obtain ⟨x, hx, hri⟩ := Option.map_eq_some_iff.mp hv
  have hnot := Table.first_eq_none.mp h v x hx
  exact absurd (decide_eq_true hri) (by rw [hnot]; decide)

theorem Registered.judging (h : Registered s g)
    (hfair : g.report.all (fun p => s.inbox.link p.1 = none) = true) :
    Registered s { g with judging := true } := by
  refine ⟨h.store, h.read, fun rj link hr => ?_⟩
  have hseen := h.seen rj link hr
  refine ⟨hseen.known, hseen.link, hseen.adopted, hseen.unfirst, hseen.took, fun _ => ?_⟩
  rw [show g.report = some (rj, link) from hr] at hfair
  exact of_decide_eq_true hfair

theorem Registered.query_ok (h : Registered s g) {α : Type} {q : Query α} (hok : g.Ok (.query q))
    (hfair : fairCall s.inbox g (.query q) = true) :
    Registered s (g.next (.query q) (.ok (q.answer s.inbox)) s) := by
  cases q with
  | vulnerabilityByFirstReport ri =>
    refine ⟨h.store, h.read, fun rj link hr => ?_⟩
    have hseen := h.seen rj link hr
    obtain ⟨⟨link', hr'⟩, hfirst⟩ := hok
    cases hr.symm.trans hr'
    refine ⟨hseen.known, hseen.link, fun v hv => ?_, fun hnone ht v => ?_, hseen.took, hseen.unlinked⟩
    · obtain ⟨x, hx, rfl⟩ := Option.map_eq_some_iff.mp (Option.some.inj hv)
      exact firstOf_found hx
    · exact firstOf_not_found (Option.map_eq_none_iff.mp (Option.some.inj hnone)) v
  | vulnerabilityCandidates limit => exact h.judging hfair
  | _ => exact h

theorem Registered.query_error (h : Registered s g) {α : Type} {q : Query α} {e : Error}
    (hfair : fairCall s.inbox g (.query q) = true) : Registered s (g.next (.query q) (.error e) s) := by
  cases q with
  | vulnerabilityCandidates limit => exact h.judging hfair
  | _ => exact h

theorem Registered.store_error (h : Registered s g) {α : Type} {call : Call α} {e : Error} :
    Registered s (g.next (.store call) (.error e) s) := by
  cases call with
  | transitionReport => exact ⟨h.store, h.read, nofun⟩
  | _ => exact h

theorem Registered.store_ok (h : Registered s g) {α : Type} {call : Call α} {a : α} {now : DateTime}
    (hrun : (exec now call).run s.inbox = .ok (a, d')) (hok : g.Ok (.store call)) :
    Registered ⟨d', s.read⟩ (g.next (.store call) (.ok a) ⟨d', s.read⟩) := by
  cases call with
  | transitionReport ri s' n changes event =>
    refine h.linked hrun rfl fun r v hv => ?_
    obtain ⟨hg, vi, hvi, hlink⟩ := hok
    rw [Call.links, hvi] at hv
    cases hv
    obtain ⟨link, hr, hseen⟩ := h.about hg
    exact hseen.mayLink h.store hr hlink
  | createVulnerability v => exact h.named hrun rfl hok.1 hok.2 (firstOf_created hrun)
  | replaceFirstReporter vi expected ri reportedAt =>
    cases a with
    | true => exact h.named hrun rfl hok.1 hok.2 (firstOf_replaced hrun).2
    | false =>
      rcases replaceFirstReporter_ok hrun with ⟨-, rfl, -⟩ | ⟨hb, -⟩
      · exact h
      · cases hb
  | _ => exact hok.elim

theorem Registered.call (h : Registered s g) {β : Type} {c : Req β} {env : Env} (hok : g.Ok c)
    (hfair : fairCall s.inbox g c = true) :
    let r := registry.answer env c s
    Registered r.2 (g.next c r.1 r.2) := by
  cases c with
  | store call =>
    rcases answer_store env call s.inbox with ⟨e, he⟩ | ⟨a, d', hrun, he⟩
    · simp only [registry, he]
      exact h.store_error
    · simp only [registry, he]
      exact h.store_ok hrun hok
  | query q =>
    simp only [registry, Req.answer]
    cases env.error with
    | some e => exact h.query_error hfair
    | none => exact h.query_ok hok hfair
  | _ => exact h

theorem Registered.aside (h : Registered s g) (a : Aside) : Registered (s.aside a) g := by
  cases a with
  | call op ho =>
    obtain ⟨now, call⟩ := op
    obtain ⟨hl, hf⟩ := Bool.and_eq_true_iff.mp ho
    show Registered { s with inbox := Security.step s.inbox ⟨now, call⟩ } g
    unfold Security.step
    cases hrun : (exec now call).run s.inbox with
    | error e =>
      rw [commit_error hrun]
      exact h
    | ok r =>
      obtain ⟨a, after⟩ := r
      rw [commit_ok hrun]
      exact h.unlinked hrun (by simpa using hf) (by simpa using hl)
  | read id =>
    refine ⟨h.store, fun p hp => ?_, h.seen⟩
    rcases List.mem_append.mp hp with hp | hp
    · obtain ⟨r, hr, rfl⟩ := List.mem_map.mp hp
      have hget := Option.mem_toList.mp hr
      exact ⟨Option.isSome_of_eq_some hget, fun v hv => link_eq_some.mpr ⟨r, hget, hv⟩⟩
    · exact h.read p hp

/-! ## Creations -/

/-- The report that a call creates a vulnerability for. -/
def created {β : Type} : Req β → β → Option Nat
  | .store (.createVulnerability v), .ok _ => some v.firstReportId
  | _, _ => none

/-- The report is a first reporter or linked. -/
def Placed (d : Inbox) (ri : Nat) : Prop :=
  (∃ v, d.firstOf v = some ri) ∨ ∃ v, d.link ri = some v

theorem Placed.write {now : DateTime} {α : Type} {call : Call α} {a : α} (h : Placed d ri)
    (hrun : (exec now call).run d = .ok (a, d')) (hfair : fairCall d g (.store call) = true) :
    Placed d' ri := by
  have hlinked {v : Nat} (hv : d.link ri = some v) : Placed d' ri := by
    obtain ⟨r, hr, hrv⟩ := link_eq_some.mp hv
    obtain ⟨r', hr', hchange⟩ := report_exec hrun hr
    rcases hchange.link with he | ⟨u, -, he⟩
    · exact .inr ⟨v, link_eq_some.mpr ⟨r', hr', he.trans hrv⟩⟩
    · exact .inr ⟨u, link_eq_some.mpr ⟨r', hr', he⟩⟩
  rcases h with ⟨v, hv⟩ | ⟨v, hv⟩
  · have hsame (hf : call.namesFirst = false) : Placed d' ri :=
      .inl ⟨v, (firstOf_exec hrun hf).trans hv⟩
    cases call with
    | createVulnerability new =>
      refine .inl ⟨v, ?_⟩
      rw [firstOf_created hrun, if_neg]
      · exact hv
      · rintro rfl
        rw [Inbox.firstOf, (createSecurityVulnerability_ok hrun).1, Table.get_next] at hv
        cases hv
    | replaceFirstReporter vi expected rj reportedAt =>
      cases a with
      | true =>
        obtain ⟨he, hfirst⟩ := firstOf_replaced hrun
        by_cases hvi : v = vi
        · subst hvi
          cases he.symm.trans hv
          exact hlinked ((of_decide_eq_true hfair).neg_resolve_left he)
        · refine .inl ⟨v, ?_⟩
          rw [hfirst, if_neg hvi, hv]
      | false =>
        rcases replaceFirstReporter_ok hrun with ⟨-, rfl, -⟩ | ⟨hb, -⟩
        · exact .inl ⟨v, hv⟩
        · cases hb
    | _ => exact hsame rfl
  · exact hlinked hv

/-- No report has created two vulnerabilities, and each that has created one is not unknown. -/
structure Created (d : Inbox) (made : List Nat) : Prop where
  once : made.Nodup
  placed : ∀ r ∈ made, Placed d r

variable {made : List Nat}

theorem Created.same (h : Created d made) : Created d (made ++ (none : Option Nat).toList) := by
  rwa [Option.toList_none, List.append_nil]

theorem Created.write (h : Created d made) {now : DateTime} {α : Type} {call : Call α} {a : α}
    (hrun : (exec now call).run d = .ok (a, d')) (hfair : fairCall d g (.store call) = true) :
    Created d' (made ++ (none : Option Nat).toList) :=
  Created.same ⟨h.once, fun r hr => (h.placed r hr).write hrun hfair⟩

theorem Created.call (h : Created s.inbox made) (hreg : Registered s g) {β : Type} {c : Req β}
    {env : Env} (hok : g.Ok c) (hfair : fairCall s.inbox g c = true) :
    let r := registry.answer env c s
    Created r.2.inbox (made ++ (created c r.1).toList) := by
  cases c with
  | store call =>
    rcases answer_store env call s.inbox with ⟨e, he⟩ | ⟨a, d', hrun, he⟩
    · simp only [registry, he]
      cases call <;> exact h.same
    · simp only [registry, he]
      have hexec := h.write hrun hfair
      cases call with
      | createVulnerability v =>
        obtain ⟨hg, hnone, hjudging, htook⟩ := hok
        obtain ⟨link, -, hseen⟩ := hreg.about hg
        -- an unknown report is no first reporter and is not linked
        have hnew : v.firstReportId ∉ made := by
          intro hr
          rcases h.placed _ hr with ⟨u, hu⟩ | ⟨u, hu⟩
          · exact hseen.unfirst hnone htook u hu
          · rw [hseen.unlinked hjudging] at hu
            cases hu
        rw [Option.toList_none, List.append_nil] at hexec
        refine ⟨List.nodup_append_comm.mp ?_, fun r hr => ?_⟩
        · exact List.nodup_cons.mpr ⟨hnew, h.once⟩
        · rcases List.mem_append.mp hr with hr | hr
          · exact hexec.placed r hr
          · cases List.mem_singleton.mp hr
            exact .inl ⟨a.1, by rw [firstOf_created hrun, if_pos rfl]⟩
      | _ => exact hexec
  | query q =>
    simp only [registry, Req.answer]
    cases env.error <;> exact h.same
  | _ => exact h.same

theorem Created.aside (h : Created s.inbox made) (a : Aside) : Created (s.aside a).inbox made := by
  cases a with
  | call op ho =>
    obtain ⟨now, call⟩ := op
    obtain ⟨-, hf⟩ := Bool.and_eq_true_iff.mp ho
    show Created (Security.step s.inbox ⟨now, call⟩) made
    unfold Security.step
    cases hrun : (exec now call).run s.inbox with
    | error e =>
      rw [commit_error hrun]
      exact h
    | ok r =>
      obtain ⟨a, after⟩ := r
      rw [commit_ok hrun]
      have hfair : fairCall s.inbox {} (.store call) = true := by
        cases call with
        | replaceFirstReporter => cases hf
        | _ => rfl
      have hexec := h.write hrun hfair
      rwa [Option.toList_none, List.append_nil] at hexec
  | read id => exact h

/-! ## Runs -/

def turnStep (w : World Req Registry Registering) (turn : Turn) : World Req Registry Registering :=
  registry.step noting w turn.move

def noReports : World Req Registry Registering := Pool.initial noting ⟨.empty, []⟩

/-- The report that a turn creates a vulnerability for. -/
def creation (w : World Req Registry Registering) (turn : Turn) : Option Nat :=
  (registry.observe created w turn.move).map Prod.snd

/-- The reports that the run creates vulnerabilities for. -/
def creations (l : List Turn) : List Nat := seen turnStep creation noReports l

/-- What holds after every fair run. -/
def Serialised (w : World Req Registry Registering) : Prop :=
  Pool.Sound noting Registering.Ok (fun s n => Registered s (n 0)) w

variable {w : World Req Registry Registering} {turn : Turn}

theorem Fair.call {env : Env} {β : Type} {c : Req β} {k : β → Prog Req Unit}
    (h : Fair w (.go env)) (hp : w.prog 0 = .call c k) :
    fairCall w.shared.inbox (w.note 0) c = true := by
  simp only [Fair, hp] at h
  exact h

/-- Only thread 0 makes calls. -/
theorem Turn.move_go {t : Nat} {env : Env} (h : turn.move = .go t env) : t = 0 ∧ turn = .go env := by
  cases turn <;> cases h
  exact ⟨rfl, rfl⟩

theorem registered_idle (h : Registered s g) : Registered s noting.idle := ⟨h.store, h.read, nofun⟩

theorem Registered.start (h : Registered s g) {valid : ValidReport} (hread : valid.report ∈ s.read) :
    Registered s (.start valid) := by
  refine ⟨h.store, h.read, fun ri link hr => ?_⟩
  cases hr
  obtain ⟨hknown, hlink⟩ := h.read valid.report hread
  exact ⟨hknown, hlink, nofun, nofun, nofun, nofun⟩

theorem serialised_step (h : Serialised w) (hfair : Fair w turn) : Serialised (turnStep w turn) := by
  refine h.step turn.move (fun _ => registers_register) (fun s n t hn => ?_) (fun t valid ht => ?_)
    (fun t env β c k ht hp hok => ?_) fun a ht => ?_
  · by_cases ht : t = 0
    · subst ht
      rw [Function.update_self]
      exact registered_idle hn
    · rwa [Function.update_of_ne (Ne.symm ht)]
  · cases turn <;> cases ht
    rw [Function.update_self]
    exact h.inv.start hfair
  · obtain ⟨rfl, rfl⟩ := Turn.move_go ht
    dsimp only
    rw [Function.update_self]
    exact h.inv.call hok (hfair.call hp)
  · cases turn <;> cases ht
    exact h.inv.aside a

theorem serialised_initial : Serialised noReports := by
  refine ⟨⟨⟨fun v w r hv => ?_, fun v r hv => ?_, fun v w r hv => ?_⟩, fun p hp => ?_,
    fun ri link hr => ?_⟩, fun _ => trivial⟩
  · cases hv
  · cases hv
  · cases hv
  · cases hp
  · cases hr

theorem created_step {made : List Nat} (h : Serialised w) (hmade : Created w.shared.inbox made)
    (hfair : Fair w turn) :
    Created (turnStep w turn).shared.inbox (made ++ (creation w turn).toList) := by
  refine Pool.step_observe (P := registry) (M := noting) (f := created)
    (R := fun s o => Created s.inbox (made ++ (o.map Prod.snd).toList)) hmade.same
    (fun t env β c k ht hp => ?_) fun a ht => (hmade.aside a).same
  obtain ⟨rfl, rfl⟩ := Turn.move_go ht
  dsimp only
  rw [Option.map_map]
  have hcall : Created (registry.answer env c w.shared).2.inbox
      (made ++ (created c (registry.answer env c w.shared).1).toList) :=
    hmade.call h.inv (h.call_ok hp) (hfair.call hp)
  rwa [show (Prod.snd ∘ (0, ·) : Nat → Nat) = id from rfl, Option.map_id]

/-- A fair turn keeps the links. -/
theorem link_step (h : Serialised w) (hl : w.shared.inbox.link ri = some vi) :
    (turnStep w turn).shared.inbox.link ri = some vi := by
  refine Pool.step_observe (P := registry) (M := noting) (f := created)
    (R := fun s _ => s.inbox.link ri = some vi) hl (fun t env β c k ht hp => ?_) fun a ht => ?_
  · obtain ⟨rfl, rfl⟩ := Turn.move_go ht
    have hok := h.call_ok hp
    cases c with
    | store call =>
      rcases answer_store env call w.shared.inbox with ⟨e, he⟩ | ⟨a, d', hrun, he⟩
      · simp only [registry, he]
        exact hl
      · simp only [registry, he]
        refine link_exec hrun hl fun vj hv => ?_
        cases call with
        | transitionReport rj s' n changes event =>
          obtain ⟨hg, vk, hvk, hlink⟩ := hok
          rw [Call.links, hvk] at hv
          cases hv
          obtain ⟨link, hr, hseen⟩ := h.inv.about hg
          exact ((hseen.mayLink h.inv.store hr hlink).1 vi hl).symm
        | _ => cases hv
    | query q =>
      simp only [registry, Req.answer]
      cases env.error <;> exact hl
    | _ => exact hl
  · cases a with
    | call op ho =>
      obtain ⟨now, call⟩ := op
      obtain ⟨hnone, -⟩ := Bool.and_eq_true_iff.mp ho
      show (Security.step w.shared.inbox ⟨now, call⟩).link ri = some vi
      unfold Security.step
      cases hrun : (exec now call).run w.shared.inbox with
      | error e => rwa [commit_error hrun]
      | ok r =>
        obtain ⟨a, after⟩ := r
        rw [commit_ok hrun]
        refine link_exec hrun hl fun vj hv => ?_
        rw [Option.isNone_iff_eq_none.mp hnone] at hv
        cases hv
    | read id => exact hl

/-- After every fair run, a report is first reporter of at most one vulnerability, no two
vulnerabilities were created for one report, and a link that was ever made is still there. -/
theorem registration_once (l : List Turn) (h : Along turnStep Fair noReports l) :
    (∀ v w r, (run turnStep noReports l).shared.inbox.firstOf v = some r →
      (run turnStep noReports l).shared.inbox.firstOf w = some r → v = w) ∧
    (creations l).Nodup ∧
    ∀ pre, pre <+: l → ∀ ri vi, (run turnStep noReports pre).shared.inbox.link ri = some vi →
      (run turnStep noReports l).shared.inbox.link ri = some vi := by
  have hserialised {l : List Turn} (h : Along turnStep Fair noReports l) :
      Serialised (run turnStep noReports l) :=
    h.inv (fun w turn hw hf => serialised_step hw hf) serialised_initial
  refine ⟨(hserialised h).inv.store.one, ?_, fun pre hpre ri vi hl => ?_⟩
  · have hmade := h.seen (f := creation)
      (P := fun w made => Serialised w ∧ Created w.shared.inbox made)
      (fun w made turn hw hf => ⟨serialised_step hw.1 hf, created_step hw.1 hw.2 hf⟩)
      ⟨serialised_initial, .nil, nofun⟩
    exact hmade.2.once
  · obtain ⟨m, rfl⟩ := hpre
    obtain ⟨hbefore, hm⟩ := along_append.mp h
    have hrun := hm.inv (P := fun w => Serialised w ∧ w.shared.inbox.link ri = some vi)
      (fun w turn hw hf => ⟨serialised_step hw.1 hf, link_step hw.1 hw.2⟩) ⟨hserialised hbefore, hl⟩
    rw [run_append]
    exact hrun.2

/-! Two reports of one vulnerability; report 1 came an hour earlier. -/

def otherwise {α : Type} (call : Call α) (h : registersNothing call = true) : Turn :=
  .aside (.call ⟨nine, call⟩ h)

def foundValid (report : Nat × SecurityReport) : ValidReport where
  report := report
  assessment := ⟨"", "", "", "", "", none⟩
  repository := none
  merged := none
  origin := .agent

/-- The run goes on with an assessment of the report and the first `n` calls of its registration. -/
def assessed (l : List Turn) (id n : Nat) (env : Env) : List Turn :=
  let assessing := l ++
    [otherwise (.transitionReport id .received .assessing {} { kind := .assessmentStarted }) rfl]
  let report := (run turnStep noReports assessing).shared.inbox.reports.get id
  assessing ++ .aside (.read id) :: report.toList.map (fun r => .register (foundValid (id, r))) ++
    List.replicate n (.go env)

def bothReceived : List Turn :=
  [otherwise (.upsertReport (emailed "1" (hourApart 1))) rfl,
    otherwise (.upsertReport (emailed "2" (hourApart 2))) rfl]

/-- Report 2 gets its vulnerability and is linked, and report 1 takes its place. -/
def linkedFirst : List Turn :=
  assessed (assessed bothReceived 2 5 { now := nine }) 1 9
    { now := nine, verdict := .ok "1", similar := [1] }

theorem registration_once_two :
    (∀ v w r, (run turnStep noReports linkedFirst).shared.inbox.firstOf v = some r →
      (run turnStep noReports linkedFirst).shared.inbox.firstOf w = some r → v = w) ∧
    (creations linkedFirst).Nodup ∧
    ∀ pre, pre <+: linkedFirst → ∀ ri vi,
      (run turnStep noReports pre).shared.inbox.link ri = some vi →
      (run turnStep noReports linkedFirst).shared.inbox.link ri = some vi :=
  registration_once linkedFirst (by decide +kernel)

/-- Report 2 gets its vulnerability, and is released before it is linked. Report 1 takes its place,
and report 2 is assessed again. -/
def replacedUnlinked : List Turn :=
  let created := assessed bothReceived 2 4 { now := nine } ++
    [otherwise (.transitionReport 2 .assessing .received {} { kind := .assessmentReleased }) rfl, .go { now := nine }]
  let replaced := assessed created 1 9 { now := nine, verdict := .ok "1", similar := [1] }
  assessed replaced 2 5 { now := nine }

theorem registration_twice : Along turnStep AsRead noReports replacedUnlinked ∧
    ¬ (creations replacedUnlinked).Nodup := by
  decide +kernel

end Claudear.Engine.Security
