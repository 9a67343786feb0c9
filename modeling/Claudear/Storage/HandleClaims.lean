import Claudear.Storage.Accounts

/-!
# Handle claims

`user_handles` is an index of the exclusive handles in `user_identities`, in
the form they are compared in. `Agree` says so of one user. `save_directory`
breaks the agreement of every user whose identities it writes, and makes it good
after the last of them has released: between its loops a user is either in
agreement or `Pending`, with the new identities stored and no handle held.
-/

namespace Claudear.Storage.Users

open Claudear.Core Claudear.Sql Claudear.Sql.Tx Claudear.Machine Directory

variable {L : Libraries}

/-- The identities row of the user lists an exclusive handle with this key. -/
def Lists (L : Libraries) (t : Table IdentityRow) (u : Nat) (h : IdentityField × String) : Prop :=
  t.Has fun c => c.userId = u ∧ h ∈ c.identities.handles L.caseProps

/-- The user holds the key. -/
def Holds (t : Table HandleRow) (u : Nat) (h : IdentityField × String) : Prop :=
  t.Has fun c => c.userId = u ∧ (c.field, c.value) = h

def Agree (L : Libraries) (d : Directory) (u : Nat) : Prop :=
  ∀ h, Holds d.handles u h ↔ Lists L d.identities u h

/-- The user's identities are stored and none of their handles is claimed yet. -/
def Pending (L : Libraries) (d : Directory) (u : Nat) (ids : Identities) : Prop :=
  (∀ h, Lists L d.identities u h ↔ h ∈ ids.handles L.caseProps) ∧ ∀ h, ¬ Holds d.handles u h

/-! ## Statements -/

theorem lists_put {d d' : Directory} {c : IdentityRow} {a : Unit}
    (h : (putIdentities c).run d = .ok (a, d')) :
    d'.handles = d.handles ∧ ∀ u k, Lists L d'.identities u k ↔
      if u = c.userId then k ∈ c.identities.handles L.caseProps else Lists L d.identities u k := by
  obtain ⟨-, h⟩ := require_bind h
  obtain ⟨-, h⟩ := require_bind h
  cases h
  exact ⟨rfl, fun u k => Table.has_upsert⟩

theorem lists_drop {d d' : Directory} {u n : Nat}
    (h : (dropIdentities u).run d = .ok (n, d')) :
    d'.handles = d.handles ∧ ∀ v k, Lists L d'.identities v k ↔ Lists L d.identities v k ∧ v ≠ u := by
  cases h
  exact ⟨rfl, fun v k => Table.has_delete_key⟩

theorem holds_release {d d' : Directory} {u : Nat} {a : Unit}
    (h : (releaseHandles u).run d = .ok (a, d')) :
    d'.identities = d.identities ∧ ∀ v k, Holds d'.handles v k ↔ Holds d.handles v k ∧ v ≠ u := by
  cases h
  exact ⟨rfl, fun v k => Table.has_delete_key⟩

theorem holds_claim {d d' : Directory} {c : HandleRow} {a : Unit}
    (h : (claimHandle c).run d = .ok (a, d')) :
    d'.identities = d.identities ∧ ∀ v k, Holds d'.handles v k ↔
      Holds d.handles v k ∨ v = c.userId ∧ k = (c.field, c.value) := by
  obtain ⟨-, h⟩ := require_bind h
  obtain ⟨-, h⟩ := require_bind h
  cases h
  refine ⟨rfl, fun v k => Table.has_insert.trans (or_congr Iff.rfl ?_)⟩
  rw [eq_comm, @eq_comm _ k]

theorem holds_claimAll {u : Nat} {l : List (IdentityField × String)} {d d' : Directory} {a : Unit}
    (h : StateT.run (l.forM (fun h => claimHandle ⟨u, h.1, h.2⟩) : DirTx Unit) d = .ok (a, d')) :
    d'.identities = d.identities ∧ ∀ v k, Holds d'.handles v k ↔
      Holds d.handles v k ∨ v = u ∧ k ∈ l := by
  induction l generalizing d with
  | nil =>
    obtain ⟨-, rfl⟩ := run_pure h
    simp
  | cons c l ih =>
    obtain ⟨_, d₁, h₁, h₂⟩ := run_bind h
    obtain ⟨hi₁, hh₁⟩ := holds_claim h₁
    obtain ⟨hi₂, hh₂⟩ := ih h₂
    refine ⟨hi₂.trans hi₁, fun v k => ?_⟩
    rw [hh₂, hh₁, or_assoc, ← and_or_left, List.mem_cons]

/-! ## Keys are held once -/

/-- The primary key of `user_handles`. -/
def KeysUnique (d : Directory) : Prop :=
  Table.Unique (fun c : HandleRow => some (c.field, c.value)) d.handles

theorem KeysUnique.of_handles {d d' : Directory} (h : KeysUnique d) (hh : d'.handles = d.handles) :
    KeysUnique d' := by
  unfold KeysUnique
  rw [hh]
  exact h

theorem releaseHandles_unique (u : Nat) : Within (Preserved KeysUnique) (releaseHandles u) := by
  intro d _ d' h hd
  cases h
  exact Table.Unique.delete hd _

theorem claimHandle_unique (c : HandleRow) : Within (Preserved KeysUnique) (claimHandle c) := by
  intro d _ d' h hd
  obtain ⟨hc, h⟩ := require_bind h
  obtain ⟨-, h⟩ := require_bind h
  cases h
  refine Table.Unique.insert hd fun k hk i r hr e => ?_
  rw [Bool.eq_false_iff, ne_eq, Table.any_eq_true] at hc
  have he : (r.field, r.value) = (c.field, c.value) := Option.some.inj (e.trans hk.symm)
  exact hc ⟨i, r, hr, by simpa using he⟩

theorem claimHandles_unique (u : Nat) (ids : Identities) :
    Within (Preserved KeysUnique) (claimHandles L u ids) := by
  unfold claimHandles
  exact Within.forM (fun h => claimHandle_unique _) _

/-! ## Between the loops -/

/-- What the two tables say of the user is the same. -/
def SameFor (L : Libraries) (u : Nat) (d d' : Directory) : Prop :=
  (∀ h, Lists L d'.identities u h ↔ Lists L d.identities u h) ∧
    ∀ h, Holds d'.handles u h ↔ Holds d.handles u h

theorem SameFor.of_owned {d d' : Directory} (h : d'.owned = d.owned) (u : Nat) :
    SameFor L u d d' := by
  have hi : d'.identities = d.identities := congrArg Prod.fst h
  have hh : d'.handles = d.handles := congrArg Prod.snd h
  exact ⟨fun _ => by rw [hi], fun _ => by rw [hh]⟩

theorem Agree.congr {d d' : Directory} {u : Nat} (h : Agree L d u) (hs : SameFor L u d d') :
    Agree L d' u := by
  intro k
  rw [hs.1, hs.2]
  exact h k

theorem Pending.congr {d d' : Directory} {u : Nat} {ids : Identities} (h : Pending L d u ids)
    (hs : SameFor L u d d') : Pending L d' u ids := by
  constructor
  · intro k
    rw [hs.1]
    exact h.1 k
  · intro k
    rw [hs.2]
    exact h.2 k

/-- The users of `l` are pending, with what they are to claim, and the others are in agreement. -/
structure Midway (L : Libraries) (l : List (Nat × Identities)) (d : Directory) : Prop where
  unique : KeysUnique d
  agree : ∀ u, (∀ ids, (u, ids) ∉ l) → Agree L d u
  pending : ∀ u ids, (u, ids) ∈ l → Pending L d u ids

/-- Statements on users and invites leave identities and handles. -/
theorem midway_of_step {α : Type} {m : DirTx α} (h : Within (AccountStep L) m)
    (l : List (Nat × Identities)) : Within (Preserved (Midway L l)) m := by
  refine h.mono fun d d' hs hd => ?_
  have ho := hs.2
  exact
    { unique := hd.unique.of_handles (congrArg Prod.snd ho)
      agree := fun u hn => (hd.agree u hn).congr (.of_owned ho u)
      pending := fun u ids hm => (hd.pending u ids hm).congr (.of_owned ho u) }

theorem mem_insert_toList {claims : Claims} {u v : Nat} {ids ids' : Identities} :
    (v, ids') ∈ (claims.insert u ids).toList ↔
      if v = u then ids' = ids else (v, ids') ∈ claims.toList := by
  rw [Std.TreeMap.mem_toList_iff_getElem?_eq_some, Std.TreeMap.getElem?_insert]
  by_cases h : v = u
  · subst h
    simp [eq_comm]
  · rw [if_neg (by simpa using Ne.symm h), if_neg h, Std.TreeMap.mem_toList_iff_getElem?_eq_some]

/-- The user whose identities are written joins the pending ones. -/
theorem writeOptIdentities_midway (now : Timestamp) (claims : Claims) (u : Nat)
    (write : Option IdentityWrite) :
    Triple (Midway L claims.toList) (writeOptIdentities now claims u write)
      fun claims' => Midway L claims'.toList := by
  cases write with
  | none => exact Triple.pure fun _ h => h
  | some write =>
    intro d claims' d' hd h
    obtain ⟨_, d₁, h₁, h⟩ := run_bind h
    obtain ⟨_, d₂, h₂, h⟩ := run_bind h
    obtain ⟨rfl, rfl⟩ := run_pure h
    obtain ⟨hh₁, hl₁⟩ := lists_put (L := L) h₁
    obtain ⟨hi₂, hh₂⟩ := holds_release h₂
    have hu : KeysUnique d' := releaseHandles_unique u h₂ (hd.unique.of_handles hh₁)
    rw [← hi₂] at hl₁
    rw [hh₁] at hh₂
    have hs : ∀ v, v ≠ u → SameFor L v d d' := fun v hv =>
      ⟨fun k => (hl₁ v k).trans (by rw [if_neg hv]), fun k => (hh₂ v k).trans (and_iff_left hv)⟩
    refine { unique := hu, agree := fun v hn => ?_, pending := fun v ids hm => ?_ }
    · simp only [mem_insert_toList] at hn
      by_cases hv : v = u
      · exact absurd (if_pos hv ▸ rfl) (hn write.identities)
      · simp only [if_neg hv] at hn
        exact (hd.agree v hn).congr (hs v hv)
    · rw [mem_insert_toList] at hm
      by_cases hv : v = u
      · rw [if_pos hv] at hm
        subst hv hm
        exact ⟨fun k => (hl₁ v k).trans (by rw [if_pos rfl]), fun k hk => ((hh₂ v k).mp hk).2 rfl⟩
      · rw [if_neg hv] at hm
        exact (hd.pending v ids hm).congr (hs v hv)

theorem writeEntries_midway (now : Timestamp) (claims : Claims) (writes : List DirectoryWrite) :
    Triple (Midway L claims.toList) (writeEntries L now claims writes)
      fun r => Midway L r.2.toList := by
  induction writes generalizing claims with
  | nil => exact Triple.pure fun _ h => h
  | cons write writes ih =>
    refine (midway_of_step (writeDirectoryUser_within now write.user) _).triple.bind fun u => ?_
    refine (writeOptIdentities_midway now claims u write.identities).bind fun claims => ?_
    refine (midway_of_step (writeOptInvite_within now u write.invite) _).triple.bind fun _ => ?_
    exact (ih claims).bind fun r => Triple.pure fun _ h => h

/-- A pending user who claims is in agreement. -/
theorem claimHandles_midway {u : Nat} {ids : Identities} {l : List (Nat × Identities)}
    (hu : ∀ ids', (u, ids') ∉ l) :
    Triple (Midway L ((u, ids) :: l)) (claimHandles L u ids) fun _ => Midway L l := by
  intro d _ d' hd h
  have hq : KeysUnique d' := claimHandles_unique u ids h hd.unique
  obtain ⟨hi, hh⟩ := holds_claimAll h
  have hs : ∀ v, v ≠ u → SameFor L v d d' := fun v hv =>
    ⟨fun k => by rw [hi], fun k => (hh v k).trans (or_iff_left fun h => hv h.1)⟩
  refine { unique := hq, agree := fun v hn => ?_, pending := fun v ids' hm => ?_ }
  · by_cases hv : v = u
    · subst hv
      obtain ⟨hl, hn⟩ := hd.pending v ids List.mem_cons_self
      intro k
      rw [hh, hi, or_iff_right (hn k), and_iff_right rfl]
      exact (hl k).symm
    · refine (hd.agree v fun ids' hm => ?_).congr (hs v hv)
      rcases List.mem_cons.mp hm with e | hm
      · exact hv (congrArg Prod.fst e)
      · exact hn ids' hm
  · have hv : v ≠ u := fun e => hu ids' (e ▸ hm)
    exact (hd.pending v ids' (List.mem_cons_of_mem _ hm)).congr (hs v hv)

theorem claimAll_midway {l : List (Nat × Identities)} (hl : l.Pairwise fun a b => a.1 ≠ b.1) :
    Triple (Midway L l) (l.forM fun c => claimHandles L c.1 c.2) fun _ => Midway L [] := by
  induction l with
  | nil => exact Triple.pure fun d h => h
  | cons c l ih =>
    obtain ⟨hc, hl⟩ := List.pairwise_cons.mp hl
    exact (claimHandles_midway fun ids' hm => hc _ hm rfl).bind fun _ => ih hl

/-! ## Calls -/

theorem saveDirectory_midway (now : Timestamp) (writes : List DirectoryWrite) :
    Within (Preserved (Midway L [])) (saveDirectory L now writes) := by
  unfold saveDirectory
  split
  · exact Within.throw _
  · intro d ids d' h hd
    obtain ⟨r, d₁, h₁, h₂⟩ := run_bind h
    obtain ⟨_, d₂, h₂, h₃⟩ := run_bind h₂
    obtain ⟨-, rfl⟩ := run_pure h₃
    have hm : Midway L r.2.toList d₁ := writeEntries_midway now ∅ writes hd h₁
    have hk : r.2.toList.Pairwise fun a b => a.1 ≠ b.1 :=
      Std.TreeMap.distinct_keys_toList.imp fun h e => h (by simp [e])
    exact claimAll_midway hk hm h₂

theorem deleteUserIdentities_midway (u : Nat) :
    Within (Preserved (Midway L [])) (deleteUserIdentities u) := by
  intro d b d' h hd
  obtain ⟨_, d₁, h₁, h₂⟩ := run_bind h
  obtain ⟨n, d₂, h₂, h₃⟩ := run_bind h₂
  obtain ⟨-, rfl⟩ := run_pure h₃
  obtain ⟨hi₁, hh₁⟩ := holds_release h₁
  obtain ⟨hh₂, hl₂⟩ := lists_drop (L := L) h₂
  refine { unique := ?_, agree := fun v hn k => ?_, pending := nofun }
  · exact (releaseHandles_unique u h₁ hd.unique).of_handles hh₂
  · rw [hh₂, hh₁, hl₂, hi₁, hd.agree v hn k]

theorem exec_midway (c : Call) : Within (Preserved (Midway L [])) (exec L c) := by
  obtain ⟨now, op⟩ := c
  cases op with
  | createUser => exact (midway_of_step (createUser_within ..) _).map _
  | updateUser => exact (midway_of_step (updateUser_within ..) _).map _
  | deleteUserIdentities u => exact (deleteUserIdentities_midway u).map _
  | saveDirectory writes => exact (saveDirectory_midway now writes).map _
  | issueInvite => exact (midway_of_step (issueInvite_within ..) _).map _
  | revokeInvite => exact (midway_of_step (revokeInvite_within ..) _).map _
  | acceptInvite => exact (midway_of_step (acceptInvite_within ..) _).map _
  | activateUser => exact (midway_of_step (activate_within ..) _).map _

theorem midway_empty : Midway L [] Directory.empty where
  unique := Table.unique_empty
  agree := fun _ _ _ => iff_of_false (Table.not_has_empty _) (Table.not_has_empty _)
  pending := nofun

theorem midway_run (l : List Call) : Midway L [] (run (step L) Directory.empty l) :=
  run_inv (P := Midway L []) (fun _ c h => (exec_midway c).commit h) midway_empty l

/-- In every state the calls reach, the handle rows are the comparison keys of the exclusive
handles each user lists, and no key belongs to two users. A batch that fails is undone. -/
theorem handle_claims_agree (L : Libraries) (l : List Call) :
    let d := run (step L) Directory.empty l
    (∀ u field key, Holds d.handles u (field, key) ↔
      d.identities.Has fun c => c.userId = u ∧ field ∈ IdentityField.EXCLUSIVE ∧
        ∃ value ∈ c.identities.values field, field.comparisonKey L.caseProps value = key) ∧
    (∀ i j c c', d.handles.get i = some c → d.handles.get j = some c' →
      c.field = c'.field → c.value = c'.value → i = j ∧ c.userId = c'.userId) ∧
    ∀ now writes e, (saveDirectory L now writes).run d = .error e →
      step L d ⟨now, .saveDirectory writes⟩ = d := by
  have h := midway_run (L := L) l
  refine ⟨fun u field key => ?_, fun i j c c' hi hj hf hv => ?_, fun now writes e he => ?_⟩
  · rw [h.agree u nofun (field, key)]
    simp only [Lists, Identities.mem_handles]
  · have hk : (c.field, c.value) = (c'.field, c'.value) := by rw [hf, hv]
    have hij : i = j := h.unique hi hj (congrArg some hk) rfl
    subst hij
    exact ⟨rfl, by rw [Option.some.inj (hi.symm.trans hj)]⟩
  · exact (commit_map (saveDirectory L now writes) Reply.userIds _).trans (commit_error he)

end Claudear.Storage.Users
