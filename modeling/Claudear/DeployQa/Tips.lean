import Claudear.Sql.Table
import Claudear.Storage.Error

/-!
# The `deploy_qa_tips` table

One row per release tip and track. `(track, tag)` is unique, and so is the
synthetic issue id `track:repo:tag`. Tips are never deleted, and only their
status, attempt, Discord ids and `updated_at` are ever written again.
-/

namespace Claudear.DeployQa

open Claudear.Sql Claudear.Storage

inductive DeployQaTipStatus where
  | pending | running | verified | unverified | failed | errored
  deriving DecidableEq, Repr

namespace DeployQaTipStatus

/-- No run holds the tip, and it has no verdict. -/
def isRunnable : DeployQaTipStatus → Bool
  | .pending | .errored => true
  | _ => false

/-- `status IN ('pending', 'running')` -/
def inFlight : DeployQaTipStatus → Bool
  | .pending | .running => true
  | _ => false

def isVerdict : DeployQaTipStatus → Bool
  | .verified | .unverified | .failed => true
  | _ => false

theorem isRunnable_of_isVerdict {status : DeployQaTipStatus} (h : status.isVerdict = true) :
    status.isRunnable = false := by
  cases status <;> first | rfl | cases h

end DeployQaTipStatus

structure DeployQaTip where
  track : String
  repo : String
  tag : String
  issueId : String
  publishedAt : Option String
  htmlUrl : Option String
  authorLogin : Option String
  status : DeployQaTipStatus
  attemptId : Option Nat
  discordMessageId : Option String
  discordThreadId : Option String
  releaseBody : Option String
  createdAt : Timestamp
  updatedAt : Timestamp
  deriving DecidableEq, Repr

def issueIdFor (track repo tag : String) : String := ":".intercalate [track, repo, tag]

/-- `UNIQUE (track, tag)` -/
def DeployQaTip.trackTag (r : DeployQaTip) : Option (String × String) := some (r.track, r.tag)

/-- `idx_deploy_qa_tips_issue_id` -/
def DeployQaTip.issueKey (r : DeployQaTip) : Option String := some r.issueId

abbrev Tips := Table DeployQaTip

/-- `track = ? AND tag = ?` -/
def ofTag (track tag : String) (r : Nat × DeployQaTip) : Bool := r.2.track = track && r.2.tag = tag

/-- `track = ? AND status IN ('pending', 'running')` -/
def ofTrackInFlight (track : String) (r : Nat × DeployQaTip) : Bool :=
  r.2.track = track && r.2.status.inFlight

/-- `id = ?` -/
def ofId (id : Nat) (r : Nat × DeployQaTip) : Bool := r.1 = id

/-- `id = ? AND status = ?` -/
def ofIdStatus (id : Nat) (expected : DeployQaTipStatus) (r : Nat × DeployQaTip) : Bool :=
  ofId id r && r.2.status = expected

/-- `status = 'running' AND updated_at < datetime('now', '-N seconds')` -/
def stale (now : Timestamp) (staleAfter : Nat) (r : Nat × DeployQaTip) : Bool :=
  r.2.status = .running && decide (r.2.updatedAt < now - staleAfter)

namespace DeployQaTip

def setStatus (now : Timestamp) (status : DeployQaTipStatus) (attemptId : Option Nat)
    (r : DeployQaTip) : DeployQaTip :=
  { r with status, attemptId := attemptId.or r.attemptId, updatedAt := now }

def setDiscordIds (now : Timestamp) (messageId threadId : Option String) (r : DeployQaTip) :
    DeployQaTip :=
  { r with
    discordMessageId := messageId.or r.discordMessageId
    discordThreadId := threadId.or r.discordThreadId
    updatedAt := now }

section
variable (r : DeployQaTip) (now : Timestamp) (status : DeployQaTipStatus) (attemptId : Option Nat)
  (messageId threadId : Option String)

@[simp] theorem setStatus_status : (r.setStatus now status attemptId).status = status := rfl
@[simp] theorem setStatus_track : (r.setStatus now status attemptId).track = r.track := rfl
@[simp] theorem setStatus_tag : (r.setStatus now status attemptId).tag = r.tag := rfl
@[simp] theorem setDiscordIds_status : (r.setDiscordIds now messageId threadId).status = r.status := rfl
@[simp] theorem setDiscordIds_track : (r.setDiscordIds now messageId threadId).track = r.track := rfl
@[simp] theorem setDiscordIds_tag : (r.setDiscordIds now messageId threadId).tag = r.tag := rfl

end

end DeployQaTip

namespace Tips

variable (t : Tips)

def getDeployQaTip (track tag : String) : Option (Nat × DeployQaTip) := t.first (ofTag track tag)

def getDeployQaTipByIssueId (issueId : String) : Option (Nat × DeployQaTip) :=
  t.first fun r => r.2.issueId = issueId

def trackHasInFlightDeployQa (track : String) : Bool := t.any (ofTrackInFlight track)

/-- `ON CONFLICT(track, tag) DO NOTHING`, then the stored row. Another tip's issue id is an error. -/
def upsertDeployQaTip (tip : DeployQaTip) : Except Error ((Nat × DeployQaTip) × Tips) :=
  match t.getDeployQaTip tip.track tip.tag with
  | some stored => .ok (stored, t.skip)
  | none =>
    if (t.getDeployQaTipByIssueId tip.issueId).isSome then
      .error (.database "UNIQUE constraint failed: deploy_qa_tips.issue_id")
    else .ok ((t.next, tip), t.insert tip)

def updateDeployQaTipStatus (now : Timestamp) (id : Nat) (status : DeployQaTipStatus)
    (attemptId : Option Nat) : Tips :=
  t.update (ofId id) (·.setStatus now status attemptId)

/-- Whether a row changed, and the table. -/
def updateDeployQaTipStatusIf (now : Timestamp) (id : Nat) (expected status : DeployQaTipStatus)
    (attemptId : Option Nat) : Bool × Tips :=
  (t.any (ofIdStatus id expected), t.update (ofIdStatus id expected) (·.setStatus now status attemptId))

def releaseStaleRunningDeployQaTips (now : Timestamp) (staleAfter : Nat) : Tips :=
  t.update (stale now staleAfter) (·.setStatus now .errored none)

def updateDeployQaDiscordIds (now : Timestamp) (id : Nat) (messageId threadId : Option String) : Tips :=
  t.update (ofId id) (·.setDiscordIds now messageId threadId)

/-! ## The unique indexes -/

variable {t}

/-- Both indexes of the table. -/
structure Indexed (t : Tips) : Prop where
  trackTag : Table.Unique DeployQaTip.trackTag t
  issueId : Table.Unique DeployQaTip.issueKey t

theorem indexed_empty : Indexed Table.empty := ⟨Table.unique_empty, Table.unique_empty⟩

/-- An `UPDATE` of other columns. -/
theorem Indexed.update (h : Indexed t) {p : Nat × DeployQaTip → Bool} {f : DeployQaTip → DeployQaTip}
    (hf : ∀ r, (f r).trackTag = r.trackTag ∧ (f r).issueKey = r.issueKey) : Indexed (t.update p f) where
  trackTag := h.trackTag.update fun r _ hk => (hf r).1 ▸ hk
  issueId := h.issueId.update fun r _ hk => (hf r).2 ▸ hk

theorem Indexed.congr {t' : Tips} (h : Indexed t) (ht : ∀ i, t'.get i = t.get i) : Indexed t' where
  trackTag i j _ _ _ hi hj := h.trackTag ((ht i).symm.trans hi) ((ht j).symm.trans hj)
  issueId i j _ _ _ hi hj := h.issueId ((ht i).symm.trans hi) ((ht j).symm.trans hj)

theorem Indexed.eq (h : Indexed t) {i j : Nat} {r q : DeployQaTip} (hi : t.get i = some r)
    (hj : t.get j = some q) (ht : r.track = q.track) (hg : r.tag = q.tag) : i = j :=
  h.trackTag hi hj rfl (congrArg some (Prod.ext ht.symm hg.symm))

theorem ofTag_iff {track tag : String} {r : Nat × DeployQaTip} :
    ofTag track tag r = true ↔ r.2.track = track ∧ r.2.tag = tag := by
  simp [ofTag]

/-- What an upsert leaves: the row that was there, or the tip under a new id. -/
theorem upsert_cases {tip : DeployQaTip} {stored : Nat × DeployQaTip} {t' : Tips}
    (h : t.upsertDeployQaTip tip = .ok (stored, t')) :
    (t' = t.skip ∧ t.get stored.1 = some stored.2 ∧ stored.2.track = tip.track ∧ stored.2.tag = tip.tag) ∨
      (t' = t.insert tip ∧ stored = (t.next, tip) ∧
        (∀ i r, t.get i = some r → ¬(r.track = tip.track ∧ r.tag = tip.tag)) ∧
        ∀ i r, t.get i = some r → r.issueId ≠ tip.issueId) := by
  unfold upsertDeployQaTip at h
  split at h
  · rename_i row hrow
    obtain ⟨rfl, rfl⟩ := Prod.mk.inj (Except.ok.inj h)
    obtain ⟨hg, ho⟩ := Table.first_get hrow
    exact .inl ⟨rfl, hg, ofTag_iff.mp ho⟩
  · rename_i hnone
    split at h
    · cases h
    · rename_i hissue
      obtain ⟨rfl, rfl⟩ := Prod.mk.inj (Except.ok.inj h)
      refine .inr ⟨rfl, rfl, fun i r hi ho => ?_, fun i r hi he => hissue ?_⟩
      · have hn := Table.first_eq_none.mp hnone i r hi
        rw [ofTag_iff.mpr ho] at hn
        cases hn
      · obtain ⟨row, hrow⟩ := Table.exists_first (p := fun r : Nat × DeployQaTip =>
          decide (r.2.issueId = tip.issueId)) hi (decide_eq_true he)
        exact Option.isSome_iff_exists.mpr ⟨row, hrow⟩

/-- An `INSERT` under a new track and tag, and a new issue id. -/
theorem Indexed.insert (h : Indexed t) {tip : DeployQaTip}
    (hnew : ∀ i r, t.get i = some r → ¬(r.track = tip.track ∧ r.tag = tip.tag))
    (hissue : ∀ i r, t.get i = some r → r.issueId ≠ tip.issueId) : Indexed (t.insert tip) where
  trackTag := h.trackTag.insert fun _ hk i r hi hr =>
    hnew i r hi (Prod.mk.inj (Option.some.inj (hr.trans hk.symm)))
  issueId := h.issueId.insert fun _ hk i r hi hr =>
    hissue i r hi (Option.some.inj (hr.trans hk.symm))

end Tips

end Claudear.DeployQa
