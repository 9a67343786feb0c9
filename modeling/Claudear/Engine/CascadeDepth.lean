import Claudear.Engine.PrCalls

/-!
# The depth of cascades

`trigger_cascade` lets an attempt cascade only when its depth is below the
configured limit, so an attempt it records is at most as deep as the limit. The
walk that measures the depth stops at `MAX_CASCADE_DEPTH` parents: a limit above
that is never reached.

`View` is what a run of the watcher has read of the tracker. Parents are rows
that exist, with a smaller id, and they never change, so what was read stays
true.
-/

namespace Claudear.Engine.PullRequests

open Claudear.Sql Claudear.Storage Claudear.Machine Claudear.Text

/-! ## The walk terminates -/

section Walk

variable {parentOf : Nat → Option FixAttempt} {rounds depth : Nat} {visited : List Nat}
  {cur : Option Nat}

/-- Every round adds a parent to the depth, and the depth has a cap. -/
theorem walk_eq_some (h : MAX_CASCADE_DEPTH < rounds + depth) (hd : depth ≤ MAX_CASCADE_DEPTH) :
    ∃ d ≤ MAX_CASCADE_DEPTH, walk (m := Id) parentOf rounds depth visited cur = some d := by
  induction rounds generalizing depth visited cur with
  | zero => omega
  | succ rounds ih =>
    cases cur with
    | none => exact ⟨depth, hd, by simp [walk]; rfl⟩
    | some parentId =>
      by_cases hv : parentId ∈ visited ∨ MAX_CASCADE_DEPTH ≤ depth
      · exact ⟨depth, hd, by simp only [walk, if_pos hv]; rfl⟩
      · have hlt : depth + 1 ≤ MAX_CASCADE_DEPTH := by omega
        simp only [walk, if_neg hv]
        cases parentOf parentId with
        | none => exact ⟨depth + 1, hlt, rfl⟩
        | some parent => exact ih (by omega) hlt

/-- Rounds that are not needed change nothing. -/
theorem walk_mono {rounds' d : Nat} (hr : rounds ≤ rounds')
    (h : walk (m := Id) parentOf rounds depth visited cur = some d) :
    walk (m := Id) parentOf rounds' depth visited cur = some d := by
  induction rounds generalizing rounds' depth visited cur with
  | zero =>
    cases cur with
    | none =>
      cases rounds' <;> exact h
    | some parentId => cases h
  | succ rounds ih =>
    cases rounds' with
    | zero => omega
    | succ rounds' =>
      cases cur with
      | none => exact h
      | some parentId =>
        by_cases hv : parentId ∈ visited ∨ MAX_CASCADE_DEPTH ≤ depth
        · simp only [walk, if_pos hv] at h ⊢
          exact h
        · simp only [walk, if_neg hv] at h ⊢
          cases hp : parentOf parentId with
          | none =>
            rw [hp] at h
            exact h
          | some parent =>
            rw [hp] at h
            exact ih (by omega) h

/-- The walk terminates on every table of parent references, cyclic or dangling. -/
theorem walk_terminates (parentOf : Nat → Option FixAttempt) (parent : Option Nat) :
    ∃ d ≤ MAX_CASCADE_DEPTH, ∀ rounds, MAX_CASCADE_DEPTH < rounds →
      walk (m := Id) parentOf rounds 0 [] parent = some d := by
  have h : ∃ d ≤ MAX_CASCADE_DEPTH,
      walk (m := Id) parentOf (MAX_CASCADE_DEPTH + 1) 0 [] parent = some d :=
    walk_eq_some (Nat.lt_succ_self _) (Nat.zero_le _)
  obtain ⟨d, hd, h⟩ := h
  exact ⟨d, hd, fun rounds hr => walk_mono hr h⟩

end Walk

/-! ## Chains of parents -/

/-- The chain of parents of row `id` has `n` parents. A reference that leads nowhere counts. -/
inductive Ancestors (t : FixAttempts) : Nat → Nat → Prop
  | root {id : Nat} {r : AttemptRow} (h : t.get id = some r) (hp : r.parentAttemptId = none) :
      Ancestors t id 0
  | missing {id : Nat} (h : t.get id = none) : Ancestors t id 0
  | child {id p n : Nat} {r : AttemptRow} (h : t.get id = some r) (hp : r.parentAttemptId = some p)
      (ha : Ancestors t p n) : Ancestors t id (n + 1)

/-- No attempt has a longer chain of parents than `max`. -/
def DepthBounded (max : Nat) (t : FixAttempts) : Prop :=
  ∀ id r, t.get id = some r → ∃ n ≤ max, Ancestors t id n

/-- Parents are rows, recorded before. -/
def Rooted (t : FixAttempts) : Prop :=
  ∀ id r p, t.get id = some r → r.parentAttemptId = some p → p < id ∧ (t.get p).isSome

/-- Rows stay, with their parents. -/
def Extends (t t' : FixAttempts) : Prop :=
  ∀ id r, t.get id = some r → ∃ r', t'.get id = some r' ∧ r'.parentAttemptId = r.parentAttemptId

variable {t t' : FixAttempts} {id n max : Nat} {r : AttemptRow}

theorem Extends.refl (t : FixAttempts) : Extends t t := fun _ r h => ⟨r, h, rfl⟩

theorem Extends.isSome (h : Extends t t') (hi : (t.get id).isSome) : (t'.get id).isSome := by
  obtain ⟨r, hr⟩ := Option.isSome_iff_exists.mp hi
  obtain ⟨r', hr', -⟩ := h id r hr
  rw [hr']
  rfl

theorem Ancestors.extends (ha : Ancestors t id n) (hroot : Rooted t) (he : Extends t t')
    (hi : (t.get id).isSome) : Ancestors t' id n := by
  induction ha with
  | root h hp =>
    obtain ⟨r', hr', hp'⟩ := he _ _ h
    exact .root hr' (hp'.trans hp)
  | missing h =>
    rw [h] at hi
    cases hi
  | child h hp _ ih =>
    obtain ⟨r', hr', hp'⟩ := he _ _ h
    exact .child hr' (hp'.trans hp) (ih (hroot _ _ _ h hp).2)

/-- Chains of parents have one length. -/
theorem Ancestors.unique {m : Nat} (hm : Ancestors t id m) (hn : Ancestors t id n) : m = n := by
  induction hm generalizing n with
  | root h hp =>
    cases hn with
    | root => rfl
    | missing h' => cases h.symm.trans h'
    | child h' hp' =>
      cases Option.some.inj (h.symm.trans h')
      rw [hp] at hp'
      cases hp'
  | missing h =>
    cases hn with
    | root h' => cases h.symm.trans h'
    | missing => rfl
    | child h' => cases h.symm.trans h'
  | child h hp _ ih =>
    cases hn with
    | root h' hp' =>
      cases Option.some.inj (h.symm.trans h')
      rw [hp] at hp'
      cases hp'
    | missing h' => cases h.symm.trans h'
    | child h' hp' ha' =>
      cases Option.some.inj (h.symm.trans h')
      cases Option.some.inj (hp.symm.trans hp')
      rw [ih ha']

/-- What a call of the tracker adds: an attempt without a parent, or with one below the limit. -/
def Adds (max : Nat) (t t' : FixAttempts) : Prop :=
  Extends t t' ∧ ∀ id r', t'.get id = some r' → (t.get id).isSome ∨ r'.parentAttemptId = none ∨
    ∃ p, r'.parentAttemptId = some p ∧ p < id ∧ (t.get p).isSome ∧ ∃ n < max, Ancestors t p n

theorem Adds.refl (t : FixAttempts) : Adds max t t := by
  refine ⟨.refl t, fun id r' h => .inl ?_⟩
  rw [h]
  rfl

theorem Adds.rooted (h : Adds max t t') (hroot : Rooted t) : Rooted t' := by
  intro id r' p hr' hp
  rcases h.2 id r' hr' with hi | hn | ⟨q, hq, hlt, hs, -⟩
  · obtain ⟨r, hr⟩ := Option.isSome_iff_exists.mp hi
    obtain ⟨r'', hr'', hp''⟩ := h.1 id r hr
    cases Option.some.inj (hr'.symm.trans hr'')
    obtain ⟨hlt, hs⟩ := hroot id r p hr (hp''.symm.trans hp)
    exact ⟨hlt, h.1.isSome hs⟩
  · rw [hn] at hp
    cases hp
  · cases Option.some.inj (hq.symm.trans hp)
    exact ⟨hlt, h.1.isSome hs⟩

theorem Adds.depthBounded (h : Adds max t t') (hroot : Rooted t) (hb : DepthBounded max t) :
    DepthBounded max t' := by
  intro id r' hr'
  rcases h.2 id r' hr' with hi | hn | ⟨p, hp, -, hs, n, hn, ha⟩
  · obtain ⟨r, hr⟩ := Option.isSome_iff_exists.mp hi
    obtain ⟨n, hn, ha⟩ := hb id r hr
    exact ⟨n, hn, ha.extends hroot h.1 hi⟩
  · exact ⟨0, Nat.zero_le _, .root hr' hn⟩
  · exact ⟨n + 1, hn, .child hr' hp (ha.extends hroot h.1 hs)⟩

/-- No tracker call removes a row or changes a parent. -/
theorem extends_exec (t : FixAttempts) (c : Call) : Extends t (t.exec c) := fun id r h =>
  ⟨_, FixAttempts.get_exec_of h c, Call.rewrite_parentAttemptId t c (id, r)⟩

theorem adds_exec (t : FixAttempts) (c : Call)
    (hc : ∀ k shortId p repo, c.op = .recordCascadeAttempt k shortId p repo →
      ∃ n < max, Ancestors t p n) : Adds max t (t.exec c) := by
  refine ⟨extends_exec t c, fun id r' hr' => ?_⟩
  rcases FixAttempts.get_exec_cases hr' with ⟨r, hr, -⟩ | ⟨rfl, hi⟩
  · exact .inl (hr ▸ rfl)
  · rcases Call.inserted_cases hi with ⟨k, shortId, labels, -, -, rfl⟩ | ⟨k, shortId, p, repo, ho, -, hp, rfl⟩
    · exact .inr (.inl rfl)
    · obtain ⟨q, hq⟩ := Option.isSome_iff_exists.mp hp
      exact .inr (.inr ⟨p, rfl, Table.lt_next hq, hp, hc k shortId p repo ho⟩)

/-! ## What a run of the watcher has read -/

/-- The rows a run has read, with their parents. `lost` when a read failed. -/
structure View where
  known : List (Nat × Option Nat) := []
  lost : Bool := false

namespace View

/-- A row read with its parent, which is an earlier one. -/
def saw (g : View) (a : FixAttempt) : View :=
  if ∀ p ∈ a.parentAttemptId, p < a.id then { g with known := (a.id, a.parentAttemptId) :: g.known }
  else { g with lost := true }

def next {β : Type} (g : View) : Req β → β → FixAttempts → View
  | .getAttemptById id, .ok (some a), _ => if a.id = id then g.saw a else { g with lost := true }
  | .getAttemptById _, _, _ => { g with lost := true }
  | .getPendingPrs, .ok attempts, _ => attempts.foldl saw g
  | .getMostRecentMergedAttemptForRepo _, .ok (some a), _ => g.saw a
  | .getAttemptsByStatus _, .ok attempts, _ => attempts.foldl saw g
  | _, _, _ => g

end View

/-- The chain of parents of `id`, as far as it was read. -/
inductive KnownDepth (known : List (Nat × Option Nat)) : Nat → Nat → Prop
  | root {id : Nat} (h : (id, none) ∈ known) : KnownDepth known id 0
  | child {id p n : Nat} (h : (id, some p) ∈ known) (hd : KnownDepth known p n) :
      KnownDepth known id (n + 1)

theorem KnownDepth.mono {known known' : List (Nat × Option Nat)} (h : KnownDepth known id n)
    (hk : known ⊆ known') : KnownDepth known' id n := by
  induction h with
  | root h => exact .root (hk h)
  | child h _ ih => exact .child (hk h) ih

/-- What a call follows from: an attempt that is cascaded from is known to be below the limit, and
an attempt that is looked up is a known parent. -/
def View.Ok (max : Nat) {β : Type} (g : View) : Req β → Prop
  | .recordCascadeAttempt _ _ p _ => g.lost = false → ∃ n < max, KnownDepth g.known p n
  | .getAttemptById id => g.lost = false → ∃ c, (c, some id) ∈ g.known
  | _ => True

/-- A run of the watcher. -/
inductive Job where
  | merges
  | releases

def Job.program (U : CaseProps) (w : Watcher) : Job → Run Unit
  | .merges => do
    let _ ← (w.checkPrMergesAndCascade U).run
  | .releases => w.checkReleasesAndCascade

def watch : Monitor Req FixAttempts Job View where
  idle := {}
  start _ := {}
  next := View.next

/-! ## Growing views -/

variable {g g' : View} {a b : FixAttempt} {attempts : List FixAttempt}

/-- What was read stays read. -/
structure Grows (g g' : View) : Prop where
  kept : g'.lost = false → g.lost = false
  known : g.known ⊆ g'.known

theorem Grows.refl (g : View) : Grows g g := ⟨id, List.Subset.refl _⟩

theorem Grows.trans {g'' : View} (h : Grows g g') (h' : Grows g' g'') : Grows g g'' :=
  ⟨fun hl => h.kept (h'.kept hl), fun _ hx => h'.known (h.known hx)⟩

theorem grows_lost (g : View) : Grows g { g with lost := true } where
  kept h := by cases h
  known := List.Subset.refl _

theorem grows_saw (g : View) (a : FixAttempt) : Grows g (g.saw a) := by
  unfold View.saw
  split
  · exact ⟨fun h => h, List.subset_cons_self _ _⟩
  · exact grows_lost g

theorem grows_saws (g : View) (attempts : List FixAttempt) : Grows g (attempts.foldl View.saw g) := by
  induction attempts generalizing g with
  | nil => exact .refl g
  | cons a attempts ih => exact (grows_saw g a).trans (ih (g.saw a))

theorem grows_next {β : Type} (g : View) (c : Req β) (b : β) (t : FixAttempts) :
    Grows g (g.next c b t) := by
  cases c with
  | getAttemptById id =>
    cases b with
    | error e => exact grows_lost g
    | ok attempt =>
      cases attempt with
      | none => exact grows_lost g
      | some a =>
        simp only [View.next]
        split
        · exact grows_saw g a
        · exact grows_lost g
  | getPendingPrs | getAttemptsByStatus status =>
    cases b with
    | error e => exact .refl g
    | ok attempts => exact grows_saws g attempts
  | getMostRecentMergedAttemptForRepo scmRepo =>
    cases b with
    | error e => exact .refl g
    | ok attempt =>
      cases attempt with
      | none => exact .refl g
      | some a => exact grows_saw g a
  | _ => exact .refl g

/-- The attempt was read. -/
def Seen (a : FixAttempt) (g : View) : Prop :=
  g.lost = false → (a.id, a.parentAttemptId) ∈ g.known

/-- The attempt is known to be below the limit. -/
def Shallow (max : Nat) (a : FixAttempt) (g : View) : Prop :=
  g.lost = false → ∃ n < max, KnownDepth g.known a.id n

theorem Seen.grows (h : Seen a g) (hg : Grows g g') : Seen a g' := fun hl =>
  hg.known (h (hg.kept hl))

theorem stable_seen (a : FixAttempt) : Stable watch (Seen a) := fun _ g c b t h =>
  h.grows (grows_next g c b t)

theorem stable_shallow (max : Nat) (a : FixAttempt) : Stable watch (Shallow max a) := by
  intro β g c b t h hl
  have hg := grows_next g c b t
  obtain ⟨n, hn, hk⟩ := h (hg.kept hl)
  exact ⟨n, hn, hk.mono hg.known⟩

theorem seen_saw (g : View) (a : FixAttempt) : Seen a (g.saw a) := by
  unfold View.saw
  split
  · exact fun _ => List.mem_cons_self
  · intro hl
    cases hl

theorem seen_saws (ha : a ∈ attempts) (g : View) : Seen a (attempts.foldl View.saw g) := by
  induction attempts generalizing g with
  | nil => cases ha
  | cons b attempts ih =>
    rcases List.mem_cons.mp ha with rfl | ha
    · exact (seen_saw g a).grows (grows_saws (g.saw a) attempts)
    · exact ih ha (g.saw b)

/-- Known parents are earlier attempts. -/
def Falling (g : View) : Prop := ∀ c p, (c, some p) ∈ g.known → p < c

theorem falling_saw (h : Falling g) (a : FixAttempt) : Falling (g.saw a) := by
  unfold View.saw
  split
  · rename_i ha
    intro c p hm
    rcases List.mem_cons.mp hm with heq | hm
    · obtain ⟨rfl, hp⟩ := Prod.ext_iff.mp heq
      exact ha p hp.symm
    · exact h c p hm
  · exact h

theorem falling_saws (h : Falling g) (attempts : List FixAttempt) :
    Falling (attempts.foldl View.saw g) := by
  induction attempts generalizing g with
  | nil => exact h
  | cons a attempts ih => exact ih (falling_saw h a)

theorem stable_falling : Stable watch Falling := by
  intro β g c b t h
  show Falling (g.next c b t)
  cases c with
  | getAttemptById id =>
    cases b with
    | error e => exact h
    | ok attempt =>
      cases attempt with
      | none => exact h
      | some a =>
        simp only [View.next]
        split
        · exact falling_saw h a
        · exact h
  | getPendingPrs | getAttemptsByStatus status =>
    cases b with
    | error e => exact h
    | ok attempts => exact falling_saws h attempts
  | getMostRecentMergedAttemptForRepo scmRepo =>
    cases b with
    | error e => exact h
    | ok attempt =>
      cases attempt with
      | none => exact h
      | some a => exact falling_saw h a
  | _ => exact h

theorem stable_and {L L' : View → Prop} (h : Stable watch L) (h' : Stable watch L') :
    Stable watch fun g => L g ∧ L' g := fun _ g c b t hg => ⟨h g c b t hg.1, h' g c b t hg.2⟩

/-! ## What the programs do -/

section Programs

variable {max : Nat} {U : CaseProps} {w : Watcher} {trigger : CascadeTrigger}

abbrev Follows (max : Nat) {α : Type} (p : Run α) (Q : α → View → Prop) (g : View) : Prop :=
  Allowed watch (View.Ok max) p Q g

/-- A known parent is looked up: its own parent is known now, or the read failed. -/
theorem follows_readAttempt (hf : Falling g) (hid : g.lost = false → ∃ c, (c, some id) ∈ g.known) :
    Follows max (readAttempt id) (fun r g' => Grows g g' ∧ Falling g' ∧
      (g'.lost = false → ∃ p, r = some p ∧ (id, p.parentAttemptId) ∈ g'.known)) g := by
  refine ⟨hid, fun b t => ?_⟩
  have hg := grows_next g (.getAttemptById id) b t
  have hf' := stable_falling g (.getAttemptById id) b t hf
  cases b with
  | error e => exact ⟨hg, hf', fun hl => by cases hl⟩
  | ok attempt =>
    cases attempt with
    | none => exact ⟨hg, hf', fun hl => by cases hl⟩
    | some a =>
      refine ⟨hg, hf', fun hl => ?_⟩
      have hl : (if a.id = id then g.saw a else { g with lost := true }).lost = false := hl
      refine ⟨a, rfl, ?_⟩
      show (id, a.parentAttemptId) ∈ (if a.id = id then g.saw a else { g with lost := true }).known
      split at hl
      · rename_i hid
        rw [if_pos hid, ← hid]
        exact seen_saw g a hl
      · cases hl

/-- Where the walk is: `c` is reached from `a` by `depth` known parents, and everything visited
is at least `c`. -/
def Reached (a : FixAttempt) (depth : Nat) (visited : List Nat) (cur : Option Nat) (g : View) : Prop :=
  g.lost = false → ∃ c, (c, cur) ∈ g.known ∧ (∀ v ∈ visited, c ≤ v) ∧
    ∀ known n, g.known ⊆ known → KnownDepth known c n → KnownDepth known a.id (depth + n)

/-- What the walk returns below its cap is the length of the chain of parents. -/
theorem follows_walk (a : FixAttempt) {rounds depth : Nat} {visited : List Nat} {cur : Option Nat}
    (hr : rounds + depth = MAX_CASCADE_DEPTH + 1) (hd : depth ≤ MAX_CASCADE_DEPTH)
    (hf : Falling g) (h : Reached a depth visited cur g) :
    Follows max (walk readAttempt rounds depth visited cur) (fun r g' => ∃ d, r = some d ∧
      (g'.lost = false → d < MAX_CASCADE_DEPTH → KnownDepth g'.known a.id d)) g := by
  induction rounds generalizing depth visited cur g with
  | zero => omega
  | succ rounds ih =>
    cases cur with
    | none =>
      refine ⟨depth, rfl, fun hl _ => ?_⟩
      obtain ⟨c, hc, -, hk⟩ := h hl
      exact hk _ 0 (List.Subset.refl _) (.root hc)
    | some parentId =>
      by_cases hv : parentId ∈ visited ∨ MAX_CASCADE_DEPTH ≤ depth
      · rw [walk, if_pos hv]
        refine ⟨depth, rfl, fun hl hlt => ?_⟩
        obtain ⟨c, hc, hvis, -⟩ := h hl
        rcases hv with hv | hv
        · exact absurd (hf c parentId hc) (Nat.not_lt.mpr (hvis parentId hv))
        · exact absurd hlt (Nat.not_lt.mpr hv)
      · rw [walk, if_neg hv]
        have hlt : depth + 1 ≤ MAX_CASCADE_DEPTH := by omega
        refine (follows_readAttempt hf fun hl => ?_).bind fun r g' hr' => ?_
        · obtain ⟨c, hc, -, -⟩ := h hl
          exact ⟨c, hc⟩
        obtain ⟨hg, hf', hp⟩ := hr'
        cases r with
        | none =>
          refine ⟨depth + 1, rfl, fun hl _ => ?_⟩
          obtain ⟨p, hp, -⟩ := hp hl
          cases hp
        | some p =>
          refine ih (by omega) hlt hf' fun hl => ?_
          obtain ⟨c, hc, hvis, hk⟩ := h (hg.kept hl)
          obtain ⟨q, hq, hpk⟩ := hp hl
          cases hq
          have hpc : parentId < c := hf c parentId hc
          refine ⟨parentId, hpk, fun v hv => ?_, fun known n hsub hn => ?_⟩
          · rcases List.mem_cons.mp hv with rfl | hv
            · exact Nat.le_refl _
            · exact Nat.le_of_lt (Nat.lt_of_lt_of_le hpc (hvis v hv))
          · have hc' : (c, some parentId) ∈ known := hsub (hg.known hc)
            have := hk known (n + 1) (fun x hx => hsub (hg.known hx)) (.child hc' hn)
            rwa [Nat.add_assoc, Nat.add_comm 1 n]

abbrev quiet (max : Nat) {α : Type} (p : Run α) : Prop := Quiet (View.Ok max) p

theorem Ordinary.quiet {α : Type} {p : Run α} (h : Ordinary p) : quiet max p :=
  h.imp fun c hc _ => by
    cases c with
    | recordCascadeAttempt => cases hc ()
    | getAttemptById => cases hc ()
    | _ => trivial

theorem follows_getCascadeDepth (hf : Falling g) (hs : Seen a g) :
    Follows max (getCascadeDepth readAttempt a) (fun d g' => g'.lost = false →
      d < MAX_CASCADE_DEPTH → KnownDepth g'.known a.id d) g := by
  have hr : Reached a 0 [] a.parentAttemptId g := by
    intro hl
    refine ⟨a.id, hs hl, fun v hv => ?_, fun known n _ hn => ?_⟩
    · cases hv
    · rwa [Nat.zero_add]
  have hrounds : MAX_CASCADE_DEPTH + 1 + 0 = MAX_CASCADE_DEPTH + 1 := rfl
  refine (follows_walk a hrounds (Nat.zero_le _) hf hr).bind fun r g' ⟨d, hd, h⟩ => ?_
  rw [hd]
  exact h

/-- The cascade to one repository records an attempt of a parent below the limit. -/
theorem follows_cascadeToRepo {L : View → Prop} (hL : Stable watch L) (hg : L g)
    (hs : Shallow max a g) (name : String) :
    Follows max (cascadeToRepo a name).run (fun _ => L) g := by
  refine allowed_lift trivial fun url s => ?_
  cases url with
  | none => exact hL _ _ _ _ hg
  | some scmUrl =>
    refine allowed_tryPerform (stable_shallow max a _ (.resolveRepoForCascade name) _ s hs)
      (fun id t => ?_) fun e t => hL _ _ _ _ (hL _ _ _ _ hg)
    refine Quiet.allowed ?_ hL (hL _ _ _ _ (hL _ _ _ _ hg))
    refine Ordinary.quiet (Quiet.tryBind (ordinary_try rfl) fun _ => ?_)
    exact Quiet.tryBind (ordinary_try rfl) fun result => ordinary_settleCascade a id result

theorem follows_cascadeAll {L : View → Prop} (hL : Stable watch L) (hg : L g) (hs : Shallow max a g)
    (names : List String) :
    Follows max (Watcher.cascadeAll a names) (fun _ g => L g ∧ Shallow max a g) g := by
  refine allowed_forM (fun name _ g hg => ?_) ⟨hg, hs⟩
  exact (follows_cascadeToRepo (stable_and hL (stable_shallow max a)) hg hg.2 name).bind
    fun _ _ h => h

theorem follows_triggerCascade {L : View → Prop} (hL : Stable watch L) (hg : L g) (hf : Falling g)
    (hs : Seen a g) (hmax : w.cascade.maxDepth = max) (h0 : 0 < max) (hcap : max ≤ MAX_CASCADE_DEPTH) :
    Follows max (w.triggerCascade a trigger) (fun _ => L) g := by
  unfold Watcher.triggerCascade
  split
  · exact hg
  split
  · split
    · have hdepth : Follows max (w.depthAllows a) (fun ok g' => (ok = true → Shallow max a g') ∧ L g') g := by
        unfold Watcher.depthAllows
        rw [if_pos (hmax ▸ h0)]
        refine ((follows_getCascadeDepth hf hs).stable hL hg).bind fun d g' hd => ?_
        refine ⟨fun hlt hl => ?_, hd.2⟩
        have hlt : d < max := hmax ▸ of_decide_eq_true hlt
        exact ⟨d, hlt, hd.1 hl (Nat.lt_of_lt_of_le hlt hcap)⟩
      refine hdepth.bind fun ok g' hok => ?_
      split
      · rename_i ht
        unfold Watcher.cascadeFrom
        dsimp only
        split
        · exact hok.2
        · refine ⟨trivial, fun _ s => ?_⟩
          have hL' := stable_and hL (stable_shallow max a)
          have hg' := hL' g' (.effort (.triggering a.id)) () s ⟨hok.2, hok.1 ht⟩
          refine (follows_cascadeAll hL hg'.1 hg'.2 _).bind fun _ g'' h => ?_
          exact (follows_cascadeAll hL h.1 h.2 _).mono fun _ _ h => h.1
      · exact hok.2
    · exact hg
  · exact hg

/-- What the programs need of a view, and give back. -/
def Knows (attempts : List FixAttempt) (g : View) : Prop := Falling g ∧ ∀ a ∈ attempts, Seen a g

theorem stable_knows (attempts : List FixAttempt) : Stable watch (Knows attempts) :=
  fun _ g c b t h => ⟨stable_falling g c b t h.1, fun a ha => stable_seen a g c b t (h.2 a ha)⟩

/-- The attempt a release cascades from was read. -/
theorem follows_releaseCascadeAttempt (hg : Falling g) (repository : String) :
    Follows max (Watcher.releaseCascadeAttempt repository)
      (fun r g' => Falling g' ∧ ∀ a ∈ r, Seen a g') g := by
  refine ⟨trivial, fun b s => ?_⟩
  have hf := stable_falling g (.getMostRecentMergedAttemptForRepo repository) b s hg
  have hnone : ∀ g', Falling g' → Falling g' ∧ ∀ a ∈ (none : Option FixAttempt), Seen a g' :=
    fun g' hf => ⟨hf, fun a ha => by cases ha⟩
  cases b with
  | error e => exact hnone _ hf
  | ok r =>
    cases r with
    | none => exact hnone _ hf
    | some latest =>
      have hs : Seen latest (g.saw latest) := seen_saw g latest
      show Follows max (if latest.key.source ≠ SECURITY_FIX_SOURCE then _ else _) _ (g.saw latest)
      split
      · refine ⟨hf, fun a ha => ?_⟩
        cases ha
        exact hs
      · refine ⟨trivial, fun b s => ?_⟩
        have hf := stable_falling (g.saw latest) (.getAttemptsByStatus .merged) b s hf
        cases b with
        | error e => exact hnone _ hf
        | ok attempts =>
          refine ⟨hf, fun a ha => ?_⟩
          exact seen_saws (List.mem_of_mem_filter (Watcher.lastMerged_mem ha)) _

section Limit

variable (hmax : w.cascade.maxDepth = max) (h0 : 0 < max) (hcap : max ≤ MAX_CASCADE_DEPTH)

include hmax h0 hcap

theorem follows_prMerged {attempts : List FixAttempt} (hg : Knows attempts g) (ha : a ∈ attempts) :
    Follows max (w.prMerged U a).run (fun _ => Knows attempts) g := by
  have hk := stable_knows attempts
  refine Allowed.tryBind ((ordinary_settleRow true).quiet.allowed hk hg) (fun _ g hg => ?_) fun _ _ h => h
  refine Allowed.tryBind (ordinary_afterMerge.quiet.allowed hk hg) (fun _ g hg => ?_) fun _ _ h => h
  unfold whenever
  split
  · exact (follows_triggerCascade hk hg hg.1 (hg.2 a ha) hmax h0 hcap).bind fun _ _ h => h
  · exact hg

theorem follows_checkPr {attempts : List FixAttempt} (hg : Knows attempts g) (ha : a ∈ attempts) :
    Follows max (w.checkPr U a).run (fun _ => Knows attempts) g := by
  have hk := stable_knows attempts
  have hrunning : ∀ {p : ExceptT Error Run Unit} {g},
      Knows attempts g → (∀ g, Knows attempts g → Follows max p.run (fun _ => Knows attempts) g) →
      Follows max (Watcher.whileRunning p).run (fun _ => Knows attempts) g := by
    intro p g hg hp
    refine allowed_lift trivial fun running s => ?_
    split
    · exact (hp _ (hk _ _ _ _ hg)).tryBind (fun _ g hg => hg) fun _ _ h => h
    · exact hk _ _ _ _ hg
  refine allowed_lift trivial fun running s => ?_
  split
  · have hg : Knows attempts (watch.next g .isRunning running s) := hk _ _ _ s hg
    split
    · rename_i scmRepo prNumber _ _
      refine allowed_lift trivial fun status s => ?_
      replace hg := hk _ (.getPrStatus scmRepo prNumber) status s hg
      unfold Watcher.onStatus
      split
      · exact hrunning hg fun g hg => follows_prMerged hmax h0 hcap hg ha
      · exact hrunning hg fun g hg => ordinary_prClosed.quiet.allowed hk hg
      · exact hg
      · exact hg
    · exact hg
  · exact hk _ _ _ s hg

theorem follows_checkPrs {attempts : List FixAttempt} (hg : Knows attempts g) :
    Follows max (w.checkPrs U attempts).run (fun _ _ => True) g := by
  refine Allowed.tryBind (allowed_tryForWhile
    (fun a ha g hg => follows_checkPr hmax h0 hcap hg ha) hg) (fun _ g hg => ?_) fun _ _ _ => trivial
  exact (Quiet.allowed (Quiet.tryForM fun _ _ => (ordinary_effort _).quiet) (stable_knows attempts) hg).mono
    fun _ _ _ => trivial

theorem follows_merges (hg : Falling g) :
    Follows max (w.checkPrMergesAndCascade U).run (fun _ _ => True) g := by
  unfold Watcher.checkPrMergesAndCascade
  split
  · refine allowed_tryPerform trivial (fun attempts s => ?_) fun _ _ => trivial
    exact follows_checkPrs hmax h0 hcap ⟨falling_saws hg attempts, fun a ha => seen_saws ha g⟩
  · refine follows_checkPrs hmax h0 hcap ⟨hg, fun a ha => ?_⟩
    cases ha

theorem follows_newRelease (hg : Falling g) (upstream tag : String) :
    Follows max (w.newRelease upstream tag) (fun _ => Falling) g := by
  refine allowed_call trivial fun running s => ?_
  have hg := stable_falling g .isRunning running s hg
  split
  · refine allowed_call trivial fun _ s => ?_
    have hg := stable_falling _ (.effort (.releaseSeen upstream tag)) () s hg
    refine (follows_releaseCascadeAttempt hg upstream).bind fun r g' hr => ?_
    cases r with
    | none => exact hr.1
    | some a =>
      exact (follows_triggerCascade stable_falling hr.1 hr.1 (hr.2 a rfl) hmax h0 hcap).bind
        fun _ _ h => h
  · exact hg

theorem follows_releases (hg : Falling g) :
    Follows max w.checkReleasesAndCascade (fun _ => Falling) g := by
  unfold Watcher.checkReleasesAndCascade
  split
  · refine allowed_forWhile (fun upstream _ g hg => allowed_call trivial fun running s => ?_) hg
    have hg := stable_falling g .isRunning running s hg
    split
    · refine allowed_call trivial fun release s => ?_
      have hg := stable_falling _ (.getLatestRelease upstream) release s hg
      split
      · refine allowed_call trivial fun seen s => ?_
        have hg := stable_falling _ (.lastSeenRelease upstream) seen s hg
        split
        · exact hg
        · exact follows_newRelease hmax h0 hcap hg upstream _
      · exact hg
    · exact hg
  · exact hg

theorem follows_program (job : Job) :
    Follows max (job.program U w) (fun _ _ => True) (watch.start job) := by
  have h0 : Falling (watch.start job) := fun c p h => by cases h
  cases job with
  | merges => exact Allowed.bind (follows_merges hmax ‹_› hcap h0) fun _ _ _ => trivial
  | releases => exact (follows_releases hmax ‹_› hcap h0).mono fun _ _ _ => trivial

end Limit

end Programs

/-! ## Runs -/

def recordsCascade : TrackerOp → Bool
  | .recordCascadeAttempt .. => true
  | _ => false

/-- A call of the tracker by anybody else. Only cascades record cascade attempts. -/
structure Outside where
  call : Call
  other : recordsCascade call.op = false

/-- Any number of runs of the watcher at once, one call at a time. -/
def watchers (U : CaseProps) (w : Watcher) : Pool Req FixAttempts Env Job Outside where
  answer := Req.answer
  program := Job.program U w
  outside t o := t.exec o.call

def Req.looksUp {β : Type} : Req β → Bool
  | .getAttemptById _ => true
  | _ => false

/-- The rows of a chain of parents are read without a failure of the store. -/
def ReadsParents (w : World Req FixAttempts View) : Move Env Job Outside → Prop
  | .go t env =>
    match w.prog t with
    | .call c _ => c.looksUp = true → env.error = none
    | .ret () => True
  | _ => True

theorem readsParents_go {w : World Req FixAttempts View} {u : Nat} {env : Env} (he : env.error = none) :
    ReadsParents w (.go u env) := by
  unfold ReadsParents
  cases hp : w.prog u with
  | ret a => simp only [hp]
  | call c k =>
    simp only [hp]
    exact fun _ => he

/-- What a run has read is so. -/
structure Honest (t : FixAttempts) (g : View) : Prop where
  kept : g.lost = false
  row : ∀ c p, (c, p) ∈ g.known → ∃ r, t.get c = some r ∧ r.parentAttemptId = p

structure Bounded (max : Nat) (t : FixAttempts) (n : Nat → View) : Prop where
  rooted : Rooted t
  depth : DepthBounded max t
  honest : ∀ u, Honest t (n u)

theorem Honest.extends (h : Honest t g) (he : Extends t t') : Honest t' g := by
  refine ⟨h.kept, fun c p hc => ?_⟩
  obtain ⟨r, hr, hp⟩ := h.row c p hc
  obtain ⟨r', hr', hp'⟩ := he c r hr
  exact ⟨r', hr', hp'.trans hp⟩

theorem honest_idle (t : FixAttempts) : Honest t {} := ⟨rfl, fun c p h => by cases h⟩

theorem Honest.saw (h : Honest t g) (hroot : Rooted t) (hr : t.get id = some r) :
    Honest t (g.saw (rowToFixAttempt (id, r))) := by
  have hlt : ∀ p ∈ (rowToFixAttempt (id, r)).parentAttemptId, p < (rowToFixAttempt (id, r)).id :=
    fun p hp => (hroot id r p hr hp).1
  unfold View.saw
  rw [if_pos hlt]
  refine ⟨h.kept, fun c p hm => ?_⟩
  rcases List.mem_cons.mp hm with heq | hm
  · cases heq
    exact ⟨r, hr, rfl⟩
  · exact h.row c p hm

theorem Honest.saws (h : Honest t g) (hroot : Rooted t)
    (ha : ∀ a ∈ attempts, ∃ id r, t.get id = some r ∧ rowToFixAttempt (id, r) = a) :
    Honest t (attempts.foldl View.saw g) := by
  induction attempts generalizing g with
  | nil => exact h
  | cons a attempts ih =>
    obtain ⟨⟨id, r, hr, rfl⟩, ha'⟩ := List.forall_mem_cons.mp ha
    exact ih (h.saw hroot hr) ha'

/-- What is known of a chain of parents is the chain. -/
theorem Honest.ancestors (h : Honest t g) (hd : KnownDepth g.known id n) : Ancestors t id n := by
  induction hd with
  | root hk =>
    obtain ⟨r, hr, hp⟩ := h.row _ _ hk
    exact .root hr hp
  | child hk _ ih =>
    obtain ⟨r, hr, hp⟩ := h.row _ _ hk
    exact .child hr hp ih

/-- The call of a run adds only what the limit allows. -/
theorem adds_answer {β : Type} (h : Honest t g) (env : Env) (c : Req β) (hc : g.Ok max c) :
    Adds max t (c.answer env t).2 := by
  rcases answer_snd env c t with he | ⟨op, hop, he⟩
  · rw [he]
    exact .refl t
  · rw [he]
    refine adds_exec t _ fun k shortId p repo ho => ?_
    have ho : op = .recordCascadeAttempt k shortId p repo := ho
    subst ho
    cases c <;> cases hop
    obtain ⟨n, hn, hk⟩ := hc h.kept
    exact ⟨n, hn, h.ancestors hk⟩

/-- A call leaves the run with what it has read. -/
theorem Honest.next {β : Type} (h : Honest t g) (hroot : Rooted t) (env : Env) (c : Req β)
    (hc : g.Ok max c) (hread : c.looksUp = true → env.error = none) :
    Honest (c.answer env t).2 (g.next c (c.answer env t).1 (c.answer env t).2) := by
  cases c with
  | getAttemptById id =>
    simp only [Req.answer, Env.stored, hread rfl]
    obtain ⟨c, hcid⟩ := hc h.kept
    obtain ⟨q, hq, hp⟩ := h.row c (some id) hcid
    obtain ⟨r, hr⟩ := Option.isSome_iff_exists.mp (hroot c q id hq hp).2
    have ha : t.getAttemptById id = some (rowToFixAttempt (id, r)) := by
      rw [FixAttempts.getAttemptById, hr, Option.map_some]
    rw [ha]
    show Honest t (if id = id then g.saw _ else _)
    rw [if_pos rfl]
    exact h.saw hroot hr
  | getPendingPrs =>
    simp only [Req.answer, Env.stored]
    split
    · exact h
    · refine h.saws hroot fun a ha => ?_
      obtain ⟨i, r, hr, -, rfl⟩ := FixAttempts.mem_getPendingPrs.mp ha
      exact ⟨i, r, hr, rfl⟩
  | getMostRecentMergedAttemptForRepo repo =>
    simp only [Req.answer, Env.stored]
    split
    · exact h
    · cases ha : t.getMostRecentMergedAttemptForRepo repo with
      | none => exact h
      | some a =>
        obtain ⟨i, r, hr, -, rfl⟩ := FixAttempts.getMostRecentMergedAttemptForRepo_eq_some ha
        exact h.saw hroot hr
  | getAttemptsByStatus status =>
    simp only [Req.answer, Env.stored]
    split
    · exact h
    · refine h.saws hroot fun a ha => ?_
      obtain ⟨i, r, hr, -, rfl⟩ := FixAttempts.mem_getAttemptsByStatus.mp ha
      exact ⟨i, r, hr, rfl⟩
  | _ => exact h.extends (adds_answer h env _ hc).1

variable {U : CaseProps} {w : Watcher} {notes : Nat → View} {u : Nat}

theorem Bounded.note (h : Bounded max t notes) (hg : Honest t g) :
    Bounded max t (Function.update notes u g) := by
  refine ⟨h.rooted, h.depth, fun v => ?_⟩
  rw [Function.update_apply]
  split
  · exact hg
  · exact h.honest v

theorem Bounded.adds (h : Bounded max t notes) (ha : Adds max t t') : Bounded max t' notes :=
  ⟨ha.rooted h.rooted, ha.depthBounded h.rooted h.depth, fun v => (h.honest v).extends ha.1⟩

theorem bounded_initial : Bounded max Table.empty fun _ => watch.idle where
  rooted id r p h := by cases h
  depth id r h := by cases h
  honest _ := honest_idle _

theorem sound_step (hmax : w.cascade.maxDepth = max) (h0 : 0 < max) (hcap : max ≤ MAX_CASCADE_DEPTH)
    {world : World Req FixAttempts View} {move : Move Env Job Outside}
    (h : Pool.Sound watch (View.Ok max) (Bounded max) world) (hm : ReadsParents world move) :
    Pool.Sound watch (View.Ok max) (Bounded max) ((watchers U w).step watch world move) := by
  refine h.step move (follows_program hmax h0 hcap) (fun s n u hn => hn.note (honest_idle s))
    (fun _ _ _ => h.inv.note (honest_idle _)) (fun u env β c k hmove hp hok => ?_) fun o _ => ?_
  · subst hmove
    have hread : c.looksUp = true → env.error = none := by
      simp only [ReadsParents, hp] at hm
      exact hm
    have ha := adds_answer (h.inv.honest u) env c hok
    exact (h.inv.adds ha).note ((h.inv.honest u).next h.inv.rooted env c hok hread)
  · refine h.inv.adds (adds_exec _ _ fun k shortId p repo ho => ?_)
    have := o.other
    rw [ho] at this
    cases this

/-- With a limit the walk can reach, no attempt is ever deeper than the limit. -/
theorem depth_bounded (U : CaseProps) (w : Watcher) (h0 : 0 < w.cascade.maxDepth)
    (hcap : w.cascade.maxDepth ≤ MAX_CASCADE_DEPTH) (moves : List (Move Env Job Outside))
    (hread : Along ((watchers U w).step watch) ReadsParents (Pool.initial watch Table.empty) moves) :
    DepthBounded w.cascade.maxDepth
      (run ((watchers U w).step watch) (Pool.initial watch Table.empty) moves).shared := by
  have h : Pool.Sound watch (View.Ok w.cascade.maxDepth) (Bounded w.cascade.maxDepth)
      (run ((watchers U w).step watch) (Pool.initial watch Table.empty) moves) :=
    hread.inv (fun world move hs hm => sound_step rfl h0 hcap hs hm)
      ⟨bounded_initial, fun _ => trivial⟩
  exact h.inv.depth

end Claudear.Engine.PullRequests
