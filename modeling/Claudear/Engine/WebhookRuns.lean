import Claudear.Engine.Seeding
import Claudear.Engine.Webhook

/-!
# One run for an issue

Any number of webhooks are handled at once, and between any two calls of one the
others go on. The key of an issue in process keeps them apart, from the claim to
the end of the run: as long as the set forgets no key that somebody holds, no two
hold one (`Exclusive`).

It does not see a webhook that asked whether the issue was attempted, and claims
the key when a run that has begun and ended since has given it back. Where every
claim finds its issue still without an attempt, an issue that nobody resets is
run once (`one_run`).
-/

namespace Claudear.Engine.Webhook

open Claudear.Storage Claudear.Machine
open Claudear.Engine.Processing (Issue)

/-! ## The pool -/

/-- What a thread has of an issue in process. -/
inductive Hold where
  | nothing
  | claimed (k : IssueKey)
  | recorded (k : IssueKey)
  | running (k : IssueKey)
  deriving DecidableEq, Repr

namespace Hold

def issue : Hold → Option IssueKey
  | nothing => none
  | claimed k | recorded k | running k => some k

def next {β : Type} (g : Hold) : Req β → β → Hold
  | .claimProcessing k, true => .claimed k
  | .recordAttemptWithLabels k _ _, .ok () => .recorded k
  | .spawnRun k, _ => .running k
  | .dropProcessing _, _ => .nothing
  | _, _ => g

/-- A run is spawned with its attempt recorded, and an attempt recorded with the key claimed. -/
def InOrder {β : Type} (g : Hold) : Req β → Prop
  | .claimProcessing _ => g = .nothing
  | .recordAttemptWithLabels k _ _ => g = .claimed k
  | .spawnRun k => g = .recorded k
  | .dropProcessing k => g.issue = some k
  | _ => True

end Hold

inductive Outside where
  /-- A call of the tracker by somebody else. -/
  | tracker (c : Call)
  | shutdown

def outside (s : State) : Outside → State
  | .tracker c => { s with table := s.table.exec c }
  | .shutdown => { s with closed := true }

/-- A webhook is handled, and its run goes on after the answer. -/
def serveWebhook (A : AppState) (d : Delivery) : Run Unit := do
  let (reply, spawned) ← webhookHandler A d
  ask (.respond reply)
  match spawned with
  | some k => processIssue k
  | none => pure ()

def pool (A : AppState) : Pool Req State Answers Delivery Outside where
  answer := answer
  program := serveWebhook A
  outside := outside

def watch : Monitor Req State Delivery Hold where
  idle := .nothing
  start _ := .nothing
  next g c b _ := g.next c b

abbrev Webhooks := World Req State Hold

abbrev Webhooks.initial (s : State) : Webhooks := Pool.initial watch s

/-! ## The handler's calls are in order -/

section Order

variable {A : AppState} {d : Delivery} {h : Handler} {k : IssueKey} {issue : Issue}

/-- Whoever spawned a run holds its key. -/
def Spawned (r : Handled) (g : Hold) : Prop := g = (r.2.elim .nothing .running)

abbrev InOrderOf {α : Type} (p : Run α) (Q : α → Hold → Prop) (g : Hold) : Prop :=
  Allowed watch Hold.InOrder p Q g

theorem inOrder_answered (r : Reply) : InOrderOf (answered r) Spawned .nothing := rfl

theorem inOrder_startRun : InOrderOf (startRun k issue) Spawned .nothing := by
  refine allowed_call rfl fun taken _ => ?_
  cases taken with
  | false => exact inOrder_answered _
  | true =>
    refine allowed_call rfl fun recorded _ => ?_
    cases recorded with
    | error e => exact allowed_call rfl fun _ _ => inOrder_answered _
    | ok u => exact allowed_call rfl fun _ _ => rfl

theorem inOrder_similarIssue : InOrderOf (similarIssue A issue) (fun _ g => g = .nothing) .nothing := by
  unfold similarIssue
  split
  · exact allowed_perform trivial fun _ _ => rfl
  · exact allowed_pure rfl

theorem inOrder_handleNewIssue : InOrderOf (handleNewIssue A k issue) Spawned .nothing := by
  refine inOrder_similarIssue.bind fun duplicate g hg => ?_
  subst hg
  cases duplicate with
  | some duplicate => exact inOrder_answered _
  | none => exact inOrder_startRun

theorem inOrder_handleMatchingIssue : InOrderOf (handleMatchingIssue A k issue) Spawned .nothing := by
  refine allowed_call trivial fun attempted _ => ?_
  rcases attempted with e | _ | _
  · exact inOrder_answered _
  · exact inOrder_handleNewIssue
  · exact inOrder_answered _

theorem inOrder_handleIssue : InOrderOf (handleIssue A h d issue) Spawned .nothing := by
  unfold handleIssue
  split
  · exact inOrder_answered _
  · split
    · exact inOrder_answered _
    · split
      · exact inOrder_handleMatchingIssue
      · exact inOrder_answered _

theorem inOrder_handlePayload : InOrderOf (handlePayload A h d) Spawned .nothing := by
  unfold handlePayload
  split
  · exact inOrder_answered _
  · refine allowed_call trivial fun parsed _ => ?_
    rcases parsed with e | _ | issue
    · exact inOrder_answered _
    · exact inOrder_answered _
    · exact inOrder_handleIssue

theorem inOrder_isDuplicateDelivery :
    InOrderOf (isDuplicateDelivery A d) (fun _ g => g = .nothing) .nothing := by
  have hclean : InOrderOf (do
      if (← ask (.random 50)) = 0 then ask .cleanupOldDeliveries
      return false) (fun _ g => g = .nothing) .nothing := by
    refine allowed_call trivial fun n _ => ?_
    split
    · exact allowed_call trivial fun _ _ => rfl
    · exact allowed_pure rfl
  unfold isDuplicateDelivery
  split
  · exact allowed_pure rfl
  · refine allowed_call trivial fun known _ => ?_
    rcases known with e | _ | _
    · exact hclean
    · exact allowed_pure rfl
    · exact hclean

theorem inOrder_handleVerified : InOrderOf (handleVerified A h d) Spawned .nothing := by
  unfold handleVerified
  split
  · exact inOrder_answered _
  · refine allowed_call trivial fun closed _ => ?_
    cases closed with
    | true => exact inOrder_answered _
    | false =>
      refine inOrder_isDuplicateDelivery.bind fun known g hg => ?_
      subst hg
      cases known with
      | true => exact inOrder_answered _
      | false => exact inOrder_handlePayload

theorem inOrder_webhookHandler : InOrderOf (webhookHandler A d) Spawned .nothing := by
  unfold webhookHandler
  split
  · unfold handleGithubWebhook
    split
    · split
      · exact inOrder_answered _
      · exact allowed_call trivial fun _ _ => inOrder_answered _
    · exact inOrder_answered _
  · split
    · exact inOrder_answered _
    · split
      · exact inOrder_handleVerified
      · exact inOrder_answered _

theorem inOrder_serveWebhook : InOrderOf (serveWebhook A d) (fun _ _ => True) .nothing := by
  refine inOrder_webhookHandler.bind fun r g hg => ?_
  obtain ⟨reply, spawned⟩ := r
  refine allowed_call trivial fun _ _ => ?_
  cases spawned with
  | none => exact trivial
  | some k =>
    subst hg
    exact allowed_call trivial fun _ _ => allowed_perform rfl fun _ _ => trivial

end Order

/-! ## Keys in process -/

variable {s s' : State} {n : Nat → Hold} {t : Nat} {e : Answers} {i k : IssueKey}

def keysOf (processing : ProcessingSet) : List String := processing.map Prod.fst

/-- Every key that is held is in the set, and no two threads hold one. -/
structure Exclusive (s : State) (n : Nat → Hold) : Prop where
  present : ∀ t k, (n t).issue = some k → processingKey k ∈ keysOf s.processing
  alone : ∀ t u k l, (n t).issue = some k → (n u).issue = some l → processingKey k = processingKey l →
    t = u

/-- The clean-up leaves the keys that are held, and the issue of a free key has no attempt. -/
structure ClaimsWell (s : State) (n : Nat → Hold) (e : Answers) (k : IssueKey) : Prop where
  kept : ∀ t l, (n t).issue = some l → processingKey l ∈ keysOf (cleanedUp e.iterate e.instant s.processing)
  unattempted : processingKey k ∉ keysOf (cleanedUp e.iterate e.instant s.processing) →
    s.table.hasAttempted k = false

/-- What is claimed by a call, if it is a claim. -/
def claimOf {β : Type} : Req β → Option IssueKey
  | .claimProcessing k => some k
  | _ => none

/-- A call that leaves the set, the attempts, the runs and the holds as they are. -/
def Aside {β : Type} : Req β → Bool
  | .claimProcessing _ | .dropProcessing _ | .recordAttemptWithLabels .. | .spawnRun _ => false
  | _ => true

theorem orFail_snd {β : Type} {r : β × State} {P : State → Prop} (hs : P s) (hr : P r.2) :
    P (orFail e s r).2 := by
  unfold orFail
  split
  · exact hs
  · exact hr

theorem answer_aside {β : Type} {c : Req β} (h : Aside c = true) (e : Answers) (s : State) :
    (answer e c s).2.processing = s.processing ∧ (answer e c s).2.table = s.table ∧
      (answer e c s).2.spawned = s.spawned := by
  cases c with
  | claimProcessing | dropProcessing | recordAttemptWithLabels | spawnRun => cases h
  | checkAndRecordDelivery k | hasAttempted k =>
    exact @orFail_snd s e _ _ (fun s' => s'.processing = s.processing ∧ s'.table = s.table ∧
      s'.spawned = s.spawned) ⟨rfl, rfl, rfl⟩ ⟨rfl, rfl, rfl⟩
  | cleanupOldDeliveries =>
    simp only [answer]
    split <;> exact ⟨rfl, rfl, rfl⟩
  | _ => exact ⟨rfl, rfl, rfl⟩

theorem next_aside {β : Type} {c : Req β} (h : Aside c = true) (g : Hold) (b : β) : g.next c b = g := by
  cases c with
  | claimProcessing | dropProcessing | recordAttemptWithLabels | spawnRun => cases h
  | _ => rfl

/-- A claim takes the key, or leaves the thread with nothing as before. -/
theorem answer_claim (e : Answers) (s : State) (k : IssueKey) :
    (processingKey k ∈ keysOf (cleanedUp e.iterate e.instant s.processing) ∧
      answer e (.claimProcessing k) s =
        (false, { s with processing := cleanedUp e.iterate e.instant s.processing })) ∨
    (processingKey k ∉ keysOf (cleanedUp e.iterate e.instant s.processing) ∧
      answer e (.claimProcessing k) s =
        (true, { s with
          processing := (processingKey k, e.instant) :: cleanedUp e.iterate e.instant s.processing })) := by
  by_cases h : processingKey k ∈ keysOf (cleanedUp e.iterate e.instant s.processing)
  · exact .inl ⟨h, if_pos h⟩
  · exact .inr ⟨h, if_neg h⟩

/-- The note of the thread that makes the call changes, and the others' do not. -/
theorem update_issue {g : Hold} {u : Nat} {l : IssueKey} (h : (Function.update n t g u).issue = some l) :
    u = t ∧ g.issue = some l ∨ u ≠ t ∧ (n u).issue = some l := by
  by_cases hu : u = t
  · subst hu
    rw [Function.update_self] at h
    exact .inl ⟨rfl, h⟩
  · rw [Function.update_of_ne hu] at h
    exact .inr ⟨hu, h⟩

namespace Exclusive

theorem of_processing (h : Exclusive s n) (hs : s'.processing = s.processing) : Exclusive s' n where
  present t k hk := hs ▸ h.present t k hk
  alone := h.alone

/-- A thread goes on with what it holds. -/
theorem keep (h : Exclusive s n) {g : Hold} (hg : g.issue = (n t).issue) :
    Exclusive s (Function.update n t g) := by
  have hn (u : Nat) : (Function.update n t g u).issue = (n u).issue := by
    by_cases hu : u = t
    · rw [hu, Function.update_self, hg]
    · rw [Function.update_of_ne hu]
  exact ⟨fun u l hl => h.present u l (hn u ▸ hl), fun u v l m hl hm => h.alone u v l m (hn u ▸ hl) (hn v ▸ hm)⟩

/-- A thread gives up what it holds. -/
theorem forget (h : Exclusive s n) (t : Nat) : Exclusive s (Function.update n t .nothing) where
  present u l hl := by
    rcases update_issue hl with ⟨-, hl⟩ | ⟨-, hl⟩
    · cases hl
    · exact h.present u l hl
  alone u v l m hl hm hlm := by
    rcases update_issue hl with ⟨-, hl⟩ | ⟨-, hl⟩
    · cases hl
    · rcases update_issue hm with ⟨-, hm⟩ | ⟨-, hm⟩
      · cases hm
      · exact h.alone u v l m hl hm hlm

theorem claim (h : Exclusive s n) (hc : ClaimsWell s n e k) :
    let r := answer e (.claimProcessing k) s
    Exclusive r.2 (Function.update n t ((n t).next (.claimProcessing k) r.1)) := by
  rcases answer_claim e s k with ⟨-, ha⟩ | ⟨hfree, ha⟩ <;> rw [ha]
  · exact keep ⟨hc.kept, h.alone⟩ rfl
  · -- whoever holds a key has it in the set, where this one was not
    have hother (u : Nat) (l : IssueKey) (hl : (n u).issue = some l) : processingKey l ≠ processingKey k :=
      fun he => hfree (he ▸ hc.kept u l hl)
    refine ⟨fun u l hl => ?_, fun u v l m hl hm hlm => ?_⟩
    · rcases update_issue hl with ⟨-, hl⟩ | ⟨-, hl⟩
      · obtain rfl : k = l := Option.some.inj hl
        exact List.mem_cons_self
      · exact List.mem_cons_of_mem _ (hc.kept u l hl)
    · rcases update_issue hl with ⟨hu, hl'⟩ | ⟨-, hl'⟩ <;>
        rcases update_issue hm with ⟨hv, hm'⟩ | ⟨-, hm'⟩
      · exact hu.trans hv.symm
      · obtain rfl : k = l := Option.some.inj hl'
        exact absurd hlm.symm (hother v m hm')
      · obtain rfl : k = m := Option.some.inj hm'
        exact absurd hlm (hother u l hl')
      · exact h.alone u v l m hl' hm' hlm

theorem drop (h : Exclusive s n) (hk : (n t).issue = some k) :
    Exclusive (answer e (.dropProcessing k) s).2 (Function.update n t .nothing) where
  present u l hl := by
    rcases update_issue hl with ⟨-, hl⟩ | ⟨hu, hl⟩
    · cases hl
    · have hne : processingKey l ≠ processingKey k := fun he => hu (h.alone u t l k hl hk he)
      obtain ⟨entry, hm, hkey⟩ := List.mem_map.mp (h.present u l hl)
      refine List.mem_map.mpr ⟨entry, List.mem_filter.mpr ⟨hm, ?_⟩, hkey⟩
      rw [hkey]
      exact decide_eq_true hne
  alone := (h.forget t).alone

/-- What one call keeps. -/
theorem call (h : Exclusive s n) {β : Type} (c : Req β) (hok : (n t).InOrder c)
    (hc : ∀ k, claimOf c = some k → ClaimsWell s n e k) :
    let r := answer e c s
    Exclusive r.2 (Function.update n t ((n t).next c r.1)) := by
  cases ha : Aside c with
  | true =>
    dsimp only
    rw [next_aside ha, Function.update_eq_self]
    exact h.of_processing (answer_aside ha e s).1
  | false =>
    cases c with
    | claimProcessing k => exact h.claim (hc k rfl)
    | dropProcessing k => exact h.drop hok
    | recordAttemptWithLabels k shortId labels =>
      have hg : n t = .claimed k := hok
      simp only [answer, orFail]
      cases e.error with
      | some error => exact (h.keep rfl).of_processing rfl
      | none => exact (h.keep (by rw [hg]; rfl)).of_processing rfl
    | spawnRun k =>
      have hg : n t = .recorded k := hok
      exact (h.keep (by rw [hg]; rfl)).of_processing rfl
    | _ => cases ha

end Exclusive

/-! ## The first run of an issue -/

/-- The issue has been run once at most, and has an attempt since. -/
structure RunOnce (i : IssueKey) (s : State) (n : Nat → Hold) : Prop where
  once : s.spawned.count i ≤ 1
  attempted : i ∈ s.spawned → s.table.hasAttempted i = true
  claimed : ∀ t, n t = .claimed i → i ∉ s.spawned
  recorded : ∀ t, n t = .recorded i → i ∉ s.spawned ∧ s.table.hasAttempted i = true

namespace RunOnce

theorem of_eq (h : RunOnce i s n) (ht : s'.table = s.table) (hs : s'.spawned = s.spawned) :
    RunOnce i s' n where
  once := hs ▸ h.once
  attempted hi := ht ▸ h.attempted (hs ▸ hi)
  claimed t ht := hs ▸ h.claimed t ht
  recorded t hr := by
    rw [hs, ht]
    exact h.recorded t hr

/-- An attempt is not lost, unless somebody resets it. -/
theorem exec (h : RunOnce i s n) {c : Call} (hc : c.op ≠ .resetAttempt i) :
    RunOnce i { s with table := s.table.exec c } n where
  once := h.once
  attempted hi := Seeding.Seen.exec (h.attempted hi) hc
  claimed := h.claimed
  recorded t ht := ⟨(h.recorded t ht).1, Seeding.Seen.exec (h.recorded t ht).2 hc⟩

/-- A thread changes its note to one that says nothing of the first run. -/
theorem note (h : RunOnce i s n) {g : Hold} (hc : g = .claimed i → i ∉ s.spawned)
    (hr : g = .recorded i → i ∉ s.spawned ∧ s.table.hasAttempted i = true) :
    RunOnce i s (Function.update n t g) where
  once := h.once
  attempted := h.attempted
  claimed u hu := by
    by_cases ht : u = t
    · subst ht
      rw [Function.update_self] at hu
      exact hc hu
    · rw [Function.update_of_ne ht] at hu
      exact h.claimed u hu
  recorded u hu := by
    by_cases ht : u = t
    · subst ht
      rw [Function.update_self] at hu
      exact hr hu
    · rw [Function.update_of_ne ht] at hu
      exact h.recorded u hu

theorem claim (h : RunOnce i s n) (hc : ClaimsWell s n e k) :
    let r := answer e (.claimProcessing k) s
    RunOnce i r.2 (Function.update n t ((n t).next (.claimProcessing k) r.1)) := by
  rcases answer_claim e s k with ⟨-, ha⟩ | ⟨hfree, ha⟩ <;> rw [ha]
  · exact (h.note (fun hg => h.claimed t hg) fun hg => h.recorded t hg).of_eq rfl rfl
  · refine (h.note (g := .claimed k) (fun hg hi => ?_) (by simp)).of_eq rfl rfl
    obtain rfl : k = i := Hold.claimed.inj hg
    have hno := hc.unattempted hfree
    rw [h.attempted hi] at hno
    cases hno

theorem record (h : RunOnce i s n) (hg : n t = .claimed k) (shortId : String) (labels : List String) :
    let r := answer e (.recordAttemptWithLabels k shortId labels) s
    RunOnce i r.2 (Function.update n t ((n t).next (.recordAttemptWithLabels k shortId labels) r.1)) := by
  simp only [answer, orFail]
  cases e.error with
  | some error => exact h.note (fun hi => h.claimed t hi) fun hi => h.recorded t hi
  | none =>
    have hexec := h.exec (c := ⟨e.now, .recordAttemptWithLabels k shortId labels⟩) (by simp)
    refine hexec.note (g := .recorded k) (by simp) fun hi => ?_
    obtain rfl : k = i := Hold.recorded.inj hi
    exact ⟨h.claimed t hg, Seeding.seen_record e.now shortId labels⟩

/-- Nobody else is about to run the issue. -/
theorem spawn (h : RunOnce i s n) (hx : Exclusive s n) (hg : n t = .recorded k) :
    RunOnce i { s with spawned := s.spawned ++ [k] } (Function.update n t (.running k)) := by
  have hk : (n t).issue = some k := by rw [hg]; rfl
  have hother {u : Nat} (hu : (n u).issue = some i) (hne : u ≠ t) : k ≠ i :=
    fun he => hne (hx.alone u t i k hu hk (he ▸ rfl))
  have hmem (hne : k ≠ i) (hi : i ∉ s.spawned) : i ∉ s.spawned ++ [k] := fun hm =>
    (List.mem_append.mp hm).elim hi fun hm => hne (List.mem_singleton.mp hm).symm
  have hold {u : Nat} {g : Hold} (hu : Function.update n t (.running k) u = g)
      (hg' : g ≠ .running k) : u ≠ t ∧ n u = g := by
    by_cases ht : u = t
    · subst ht
      rw [Function.update_self] at hu
      exact absurd hu.symm hg'
    · rw [Function.update_of_ne ht] at hu
      exact ⟨ht, hu⟩
  refine ⟨?_, fun hi => ?_, fun u hu => ?_, fun u hu => ?_⟩
  · rw [List.count_append]
    by_cases he : k = i
    · subst he
      rw [List.count_eq_zero_of_not_mem (h.recorded t hg).1]
      simp
    · have hone := h.once
      rw [List.count_singleton, beq_false_of_ne he]
      simpa using hone
  · by_cases he : k = i
    · subst he
      exact (h.recorded t hg).2
    · exact h.attempted ((List.mem_append.mp hi).resolve_right
        fun hm => he (List.mem_singleton.mp hm).symm)
  · obtain ⟨hne, hu⟩ := hold hu (by simp)
    exact hmem (hother (by rw [hu]; rfl) hne) (h.claimed u hu)
  · obtain ⟨hne, hu⟩ := hold hu (by simp)
    exact ⟨hmem (hother (by rw [hu]; rfl) hne) (h.recorded u hu).1, (h.recorded u hu).2⟩

/-- What one call keeps. -/
theorem call (h : RunOnce i s n) (hx : Exclusive s n) {β : Type} (c : Req β) (hok : (n t).InOrder c)
    (hc : ∀ k, claimOf c = some k → ClaimsWell s n e k) :
    let r := answer e c s
    RunOnce i r.2 (Function.update n t ((n t).next c r.1)) := by
  cases ha : Aside c with
  | true =>
    obtain ⟨-, ht, hs⟩ := answer_aside ha e s
    dsimp only
    rw [next_aside ha, Function.update_eq_self]
    exact h.of_eq ht hs
  | false =>
    cases c with
    | claimProcessing k => exact h.claim (hc k rfl)
    | dropProcessing k => exact (h.note (g := .nothing) (by simp) (by simp)).of_eq rfl rfl
    | recordAttemptWithLabels k shortId labels => exact h.record hok shortId labels
    | spawnRun k => exact h.spawn hx hok
    | _ => cases ha

end RunOnce

/-! ## Runs of the pool -/

abbrev WebhookMove := Move Answers Delivery Outside

abbrev Webhooks.step (A : AppState) : Webhooks → WebhookMove → Webhooks := Pool.step (pool A) watch

/-- The claim a move makes. -/
def nextClaim (w : Webhooks) : WebhookMove → Option (IssueKey × Answers)
  | .go t e =>
    match w.prog t with
    | .call c _ => (claimOf c).map (·, e)
    | .ret _ => none
  | _ => none

def ClaimedWell (w : Webhooks) (move : WebhookMove) : Prop :=
  ∀ k e, nextClaim w move = some (k, e) → ClaimsWell w.shared w.note e k

/-- No issue has two runs in flight. -/
def Alone (w : Webhooks) : Prop := ∀ k t u, w.note t = .running k → w.note u = .running k → t = u

abbrev SoundRuns (I : State → (Nat → Hold) → Prop) (w : Webhooks) : Prop :=
  Pool.Sound watch Hold.InOrder I w

section Steps

variable {A : AppState} {w : Webhooks} {move : WebhookMove}

theorem claimsWell_of_call {β : Type} {c : Req β} {r : β → Run Unit} (hc : ClaimedWell w (.go t e))
    (hp : w.prog t = .call c r) {k : IssueKey} (hk : claimOf c = some k) :
    ClaimsWell w.shared w.note e k := by
  refine hc k e ?_
  simp only [nextClaim, hp, hk, Option.map_some]

theorem exclusive_step (h : SoundRuns Exclusive w) (hc : ClaimedWell w move) :
    SoundRuns Exclusive (w.step A move) := by
  refine h.step move (fun _ => inOrder_serveWebhook) (fun s n t h => h.forget t)
    (fun t _ _ => h.inv.forget t) (fun t e β c r hm hp hok => ?_) fun op _ => ?_
  · subst hm
    exact h.inv.call c hok fun k hk => claimsWell_of_call hc hp hk
  · cases op <;> exact h.inv.of_processing rfl

/-- The first run of `i`, beside the keys in process. -/
def FirstRun (i : IssueKey) (s : State) (n : Nat → Hold) : Prop := Exclusive s n ∧ RunOnce i s n

def Resets (i : IssueKey) : WebhookMove → Prop
  | .outside (.tracker c) => c.op = .resetAttempt i
  | _ => False

theorem FirstRun.forget {n : Nat → Hold} (h : FirstRun i s n) (t : Nat) :
    FirstRun i s (Function.update n t .nothing) :=
  ⟨h.1.forget t, h.2.note (by simp) (by simp)⟩

theorem firstRun_step (h : SoundRuns (FirstRun i) w) (hc : ClaimedWell w move) (hr : ¬ Resets i move) :
    SoundRuns (FirstRun i) (w.step A move) := by
  refine h.step move (fun _ => inOrder_serveWebhook) (fun s n t h => h.forget t)
    (fun t _ _ => h.inv.forget t) (fun t e β c r hm hp hok => ?_) fun op hm => ?_
  · subst hm
    exact ⟨h.inv.1.call c hok fun k hk => claimsWell_of_call hc hp hk,
      h.inv.2.call h.inv.1 c hok fun k hk => claimsWell_of_call hc hp hk⟩
  · subst hm
    cases op with
    | tracker c => exact ⟨h.inv.1.of_processing rfl, h.inv.2.exec hr⟩
    | shutdown => exact ⟨h.inv.1.of_processing rfl, h.inv.2.of_eq rfl rfl⟩

theorem exclusive_initial (s : State) : Exclusive s fun _ => .nothing where
  present t k hk := by cases hk
  alone t u k l hk := by cases hk

theorem firstRun_initial (hs : s.spawned = []) : FirstRun i s fun _ => .nothing where
  left := exclusive_initial s
  right :=
    { once := by simp [hs]
      attempted := by simp [hs]
      claimed := by simp
      recorded := by simp }

end Steps

/-- Where every claim finds the keys that are held in the set, and its issue without an attempt when
its own key is free, no issue has two runs in flight, and one that nobody resets is run once. -/
theorem one_run (A : AppState) (s : State) (hs : s.spawned = []) (l : List WebhookMove)
    (h : Along (Webhooks.step A) ClaimedWell (.initial s) l) :
    Always (Webhooks.step A) Alone (.initial s) l ∧
      ∀ i, (∀ move ∈ l, ¬ Resets i move) →
        Always (Webhooks.step A) (fun w => w.shared.spawned.count i ≤ 1) (.initial s) l := by
  constructor
  · have hsound : SoundRuns Exclusive (Webhooks.initial s) :=
      ⟨exclusive_initial s, fun _ => trivial⟩
    refine (h.always (fun w move hw hm => exclusive_step hw hm) hsound).imp fun w hw k t u ht hu => ?_
    exact hw.inv.alone t u k k (by rw [ht]; rfl) (by rw [hu]; rfl) rfl
  · intro i hi
    have hsound : SoundRuns (FirstRun i) (Webhooks.initial s) :=
      ⟨firstRun_initial hs, fun _ => trivial⟩
    have hboth := along_and.mpr ⟨h, along_const.mpr hi⟩
    exact (hboth.always (fun w move hw hm => firstRun_step hw hm.1 hm.2) hsound).imp
      fun w hw => hw.inv.2.once

/-! ## A run after a run -/

def sentryOnly : AppState where
  handlers source := if source = "sentry" then some ⟨fun _ _ => true, fun _ => ⟨true, "all"⟩⟩ else none
  hasGithubHandler := false
  hasSqliteTracker := false
  suppressed _ := none
  hasEmbeddingService := true
  fromSlice _ := some (.table [])

def crash : Issue where
  id := "1"
  shortId := "APP-1"
  title := "Crash"
  source := "sentry"

def crashed : Delivery where
  source := "sentry"
  headers _ := none
  body := []

def nothingYet : State where
  deliveries := .empty
  table := .empty
  processing := []
  closed := false
  spawned := []

def calm : Answers where
  now := 0
  instant := 0
  parsed := .ok (some crash)

/-- Both webhooks ask for an attempt. The first is handled and its run ends before the other claims. -/
def interleaved : List WebhookMove :=
  [.start 0 crashed, .start 1 crashed] ++ .replicate 3 (.go 1 calm) ++ .replicate 10 (.go 0 calm) ++
    .replicate 4 (.go 1 calm)

theorem run_after_run :
    (run (Webhooks.step sentryOnly) (.initial nothingYet) interleaved).shared.spawned =
      [⟨"sentry", "1"⟩, ⟨"sentry", "1"⟩] := by decide +kernel

/-- Only the threads below `n` move, and what they hold shows that a claim is well made. -/
def ClaimedBelow (n : Nat) (w : Webhooks) (move : WebhookMove) : Prop :=
  (∀ t ∈ move.thread.toList, t < n) ∧ ∀ claim ∈ (nextClaim w move).toList,
    let left := keysOf (cleanedUp claim.2.iterate claim.2.instant w.shared.processing)
    (∀ t < n, ∀ l ∈ (w.note t).issue.toList, processingKey l ∈ left) ∧
      (processingKey claim.1 ∉ left → w.shared.table.hasAttempted claim.1 = false)

instance (n : Nat) (w : Webhooks) (move : WebhookMove) : Decidable (ClaimedBelow n w move) :=
  inferInstanceAs (Decidable ((∀ t ∈ _, _) ∧ ∀ claim ∈ _, (∀ t < n, ∀ l ∈ _, _ ∈ keysOf _) ∧ (_ → _ = false)))

theorem claimedWell_of_below {A : AppState} {s : State} {n : Nat} {l : List WebhookMove}
    (h : Along (Webhooks.step A) (ClaimedBelow n) (.initial s) l) :
    Along (Webhooks.step A) ClaimedWell (.initial s) l := by
  refine h.along (P := fun w => ∀ t, n ≤ t → w.note t = .nothing) (fun w move hw hm t ht => ?_)
    (fun w move hw hm k e hk => ?_) fun t _ => rfl
  · have hne : move.thread ≠ some t := fun he =>
      absurd (hm.1 t (Option.mem_toList.mpr he)) (Nat.not_lt.mpr ht)
    exact (Pool.note_step_of_ne hne).trans (hw t ht)
  · obtain ⟨hkept, hfree⟩ := hm.2 (k, e) (Option.mem_toList.mpr hk)
    refine ⟨fun t l hl => ?_, hfree⟩
    by_cases ht : t < n
    · exact hkept t ht l (Option.mem_toList.mpr hl)
    · rw [hw t (Nat.le_of_not_lt ht)] at hl
      cases hl

/-- The second webhook asks for an attempt before the first claims the issue, and finds it in process. -/
def overlapping : List WebhookMove :=
  [.start 0 crashed, .start 1 crashed] ++ .replicate 3 (.go 1 calm) ++ .replicate 6 (.go 0 calm) ++
    .replicate 4 (.go 1 calm) ++ .replicate 4 (.go 0 calm)

theorem one_run_overlapping :
    Always (Webhooks.step sentryOnly) Alone (.initial nothingYet) overlapping ∧
      ∀ i, (∀ move ∈ overlapping, ¬ Resets i move) →
        Always (Webhooks.step sentryOnly) (fun w => w.shared.spawned.count i ≤ 1) (.initial nothingYet)
          overlapping :=
  one_run sentryOnly nothingYet rfl overlapping (claimedWell_of_below (n := 2) (by decide +kernel))

end Claudear.Engine.Webhook
