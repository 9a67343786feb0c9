import Claudear.Engine.SweepSpares
import Claudear.Engine.SweepTwins

/-!
# The webhook and the sweep agree

Two sites are followed side by side, one with the webhook and one without. The
status of a row may be ahead on the first, where the webhook has settled it and
the next sweep of the other will. One pull request that both sweeps look up is a
twin run; one that only the second looks up brings its row up to the first.
-/

namespace Claudear.Engine.PullRequests

open Claudear.Sql Claudear.Storage Claudear.Machine Claudear.Text

variable {U : CaseProps} {w : Watcher} {sweep : Sweep} {host : Host} {merged : Bool} {t t' : FixAttempts}
  {a b : FixAttempt} {s s' : Site} {keep : Nat → Bool} {l : List FixAttempt} {i : Nat} {q r : AttemptRow}

/-! ## Rows that are ahead -/

/-- The first site has settled the row as the next sweep of the second will. -/
def Ahead (U : CaseProps) (w : Watcher) (host : Host) (i : Nat) (q r : AttemptRow) : Prop :=
  ∃ merged, q.status = movedTo merged ∧ SettlesQuietly U w host merged (rowToFixAttempt (i, r))

structure Gap (U : CaseProps) (w : Watcher) (host : Host) (i : Nat) (q r : AttemptRow) : Prop where
  same : core q = core r
  status : q.status = r.status ∨ Ahead U w host i q r

theorem Gap.refl (i : Nat) (r : AttemptRow) : Gap U w host i r r := ⟨rfl, .inl rfl⟩

theorem movedTo_ne (merged : Bool) : movedTo merged ≠ .success := by cases merged <;> decide

theorem SettlesQuietly.pending (h : SettlesQuietly U w host merged (rowToFixAttempt (i, r))) :
    FixAttempts.pendingPr (i, r) = true := by
  obtain ⟨hs, hp⟩ := h.opened
  have hrepo : r.scmRepo.isSome = true := by
    have he := h.ended
    unfold PullRequests.ended at he
    split at he
    · rename_i scmRepo prNumber hr _
      have hr : r.scmRepo = some scmRepo := hr
      rw [hr]
      rfl
    · cases he
  have hs : r.status = .success := hs
  have hp : r.prUrl.isSome = true := hp
  simp only [FixAttempts.pendingPr, hs, hp, hrepo, decide_true, Bool.and_self]

/-! ## The attempts a sweep looks up -/

/-- What a check reads of an attempt. -/
def coreAttempt (a : FixAttempt) : FixAttempt :=
  { a with status := .pending, mergedAt := none, resolvedAt := none }

theorem checkPr_coreAttempt (a : FixAttempt) : w.checkPr U a = w.checkPr U (coreAttempt a) := rfl

theorem forWhile_coreAttempt {m : List FixAttempt} (h : l.map coreAttempt = m.map coreAttempt) :
    forWhile (w.checkPr U) l = forWhile (w.checkPr U) m := by
  induction l generalizing m with
  | nil =>
    cases m with
    | nil => rfl
    | cons b m => cases h
  | cons a l ih =>
    cases m with
    | nil => cases h
    | cons b m =>
      obtain ⟨hab, hlm⟩ := List.cons.inj h
      rw [forWhile, forWhile, ih hlm, checkPr_coreAttempt a, hab, ← checkPr_coreAttempt b]

/-- On the first site a row of a pending pull request may be settled already. -/
def stillOpen (t : FixAttempts) (i : Nat) : Bool := (t.get i).any fun q => q.status = .success

theorem Gap.pending (h : Gap U w host i q r) (hq : t.get i = some q) :
    FixAttempts.pendingPr (i, q) = (FixAttempts.pendingPr (i, r) && stillOpen t i) := by
  have hrest : ∀ q : AttemptRow, FixAttempts.pendingPr (i, q) =
      (decide (q.status = .success) && ((core q).prUrl.isSome && (core q).scmRepo.isSome)) := fun q =>
    Bool.and_assoc _ _ _
  have hopen : stillOpen t i = decide (q.status = .success) := by
    rw [stillOpen, hq]
    rfl
  rw [hrest q, hrest r, hopen, h.same]
  rcases h.status with hs | ⟨merged, hs, -⟩
  · rw [hs]
    cases decide (r.status = .success) <;> simp
  · rw [hs, decide_eq_false (movedTo_ne merged)]
    simp

theorem filter_newestFirst (p : Nat × AttemptRow → Bool) (l : List (Nat × AttemptRow)) :
    (FixAttempts.newestFirst l).filter p = FixAttempts.newestFirst (l.filter p) := by
  have htrans : IsTrans (Nat × AttemptRow) fun a b => b.2.attemptedAt ≤ a.2.attemptedAt :=
    ⟨fun _ _ _ hab hbc => le_trans hbc hab⟩
  have htotal : Std.Total (α := Nat × AttemptRow) fun a b => b.2.attemptedAt ≤ a.2.attemptedAt :=
    ⟨fun a b => le_total b.2.attemptedAt a.2.attemptedAt⟩
  exact Table.filter_insertionSort l

/-- The first site looks up the pull requests of the second that it has not settled. -/
theorem getPendingPrs_gap (h : Table.Alike (Gap U w host) t t') :
    t.getPendingPrs.map coreAttempt =
      (t'.getPendingPrs.filter fun a => stillOpen t a.id).map coreAttempt := by
  let n : Nat × AttemptRow → Nat × AttemptRow := fun r => (r.1, core r.2)
  have hn : ∀ l : List (Nat × AttemptRow), (FixAttempts.newestFirst l).map n = FixAttempts.newestFirst (l.map n) :=
    fun l => List.map_insertionSort _ _ n l fun _ _ _ _ => Iff.rfl
  have hselect : (t.select FixAttempts.pendingPr).map n =
      ((t'.select FixAttempts.pendingPr).filter fun r => stillOpen t r.1).map n :=
    h.select_map (fun i q r hq hgap => hgap.pending hq) fun i q r hgap => congrArg (Prod.mk i) hgap.same
  have hsorted : (FixAttempts.newestFirst (t.select FixAttempts.pendingPr)).map n =
      ((FixAttempts.newestFirst (t'.select FixAttempts.pendingPr)).filter fun r => stillOpen t r.1).map n := by
    rw [filter_newestFirst, hn, hn, hselect]
  have hcore : coreAttempt ∘ rowToFixAttempt = rowToFixAttempt ∘ n := rfl
  simp only [FixAttempts.getPendingPrs, List.filter_map, List.map_map, hcore]
  rw [← List.map_map, hsorted, List.map_map]
  rfl

/-! ## The check of a row that is ahead -/

theorem serve_still {β : Type} {c : Req β} (hw : c.writes = none) (hb : c.begins = none) :
    (s.serve sweep c).2 = s := by
  have htable : (s.serve sweep c).2.table = s.table := table_serve hw
  have hnote : s.note c = s.begun := by simp only [Site.note, hb]
  obtain ⟨host, table, begun⟩ := s
  simp only [Site.serve] at htable ⊢
  rw [htable, hnote]

/-- A program that tells others only, and cannot fail. -/
def Still (sweep : Sweep) (p : ExceptT Error Run Unit) : Prop :=
  ∀ s, Prog.Ends (Site.serve sweep) p.run (fun r s' => r = .ok () ∧ s' = s) s

theorem still_effort {e : Effort} (he : (Req.effort e).begins = none) : Still sweep (ask (.effort e)) := by
  intro s
  have hs : (s.serve sweep (.effort e)).2 = s := serve_still rfl he
  exact ⟨rfl, hs⟩

theorem Still.whenever {c : Prop} [Decidable c] {p : ExceptT Error Run Unit} (h : Still sweep p) :
    Still sweep (whenever c p) := by
  unfold PullRequests.whenever
  split
  · exact h
  · exact fun _ => ⟨rfl, rfl⟩

theorem Still.forPr {f : String → ExceptT Error Run Unit} (h : ∀ prUrl, Still sweep (f prUrl)) :
    Still sweep (Watcher.forPr a f) := by
  unfold Watcher.forPr
  split
  · exact h _
  · exact fun _ => ⟨rfl, rfl⟩

theorem Still.bind {p : ExceptT Error Run Unit} {f : Unit → ExceptT Error Run Unit}
    {Q : Except Error Unit → Site → Prop} (hp : Still sweep p)
    (hf : Prog.Ends (Site.serve sweep) (f ()).run Q s) : Prog.Ends (Site.serve sweep) (p >>= f).run Q s := by
  refine Prog.Ends.tryBind (hp s) (fun _ s' h => ?_) fun _ _ h => by cases h.1
  rw [h.2]
  exact hf

/-- The row is settled; the issue of a merged fix may be marked resolved as well. -/
def settledTable (sweep : Sweep) (merged : Bool) (k : IssueKey) (t : FixAttempts) : FixAttempts :=
  if merged then t.markMerged sweep.now k else t.markClosed k

structure Settled (sweep : Sweep) (merged : Bool) (a : FixAttempt) (s s' : Site) : Prop where
  host : s'.host = s.host
  begun : s'.begun = s.begun
  table : s'.table = settledTable sweep merged a.key s.table ∨
    s'.table = (settledTable sweep merged a.key s.table).markResolved sweep.now a.key

theorem settleRow_settled (hc : a.cascadeRepo = none) (sweep : Sweep) (s : Site) (merged : Bool) :
    (s.serve sweep (Watcher.settleRow a merged)).1 = .ok () ∧
      (s.serve sweep (Watcher.settleRow a merged)).2 = { s with table := settledTable sweep merged a.key s.table } := by
  have hn : ¬ a.cascadeRepo.isSome = true := by simp [hc]
  unfold Watcher.settleRow
  rw [if_neg hn]
  cases merged with
  | true => exact ⟨rfl, rfl⟩
  | false => exact ⟨rfl, rfl⟩

theorem ends_autoResolve_settled (h : s' = { s with table := settledTable sweep merged a.key s.table })
    (watched : Bool) : Prog.Ends (Site.serve sweep) (w.autoResolve a watched).run
      (fun r s'' => r = .ok () ∧ Settled sweep merged a s s'') s' := by
  have hs : Settled sweep merged a s s' := by
    rw [h]
    exact ⟨rfl, rfl, .inl rfl⟩
  unfold Watcher.autoResolve whenever
  split
  · refine Prog.ends_lift ?_
    rw [serve_still rfl rfl]
    split
    · have hr : Settled sweep merged a s (s'.serve sweep (.markResolved a.key)).2 := by
        rw [h]
        exact ⟨rfl, rfl, .inr rfl⟩
      refine Prog.ends_tryCall (fun _ _ => ?_) fun _ he => by cases he
      have htell : Still sweep (Watcher.forPr a fun _ => ask (.effort (.notify a.key))) :=
        .forPr fun _ => still_effort rfl
      exact (htell _).mono fun r s'' ⟨hr', he⟩ => ⟨hr', he ▸ hr⟩
    · exact ⟨rfl, hs⟩
  · exact ⟨rfl, hs⟩

theorem ends_afterMerge_settled (h : s' = { s with table := settledTable sweep merged a.key s.table })
    (hw : ¬ watches U a) : Prog.Ends (Site.serve sweep) (w.afterMerge U a).run
      (fun r s'' => r = .ok () ∧ Settled sweep merged a s s'') s' := by
  refine (still_effort rfl).bind ((still_effort rfl).bind ?_)
  refine (Still.forPr fun _ => still_effort rfl).bind ?_
  have hwatch : Watcher.watchForRegression U a = pure false := if_neg hw
  rw [hwatch]
  refine Prog.Ends.tryBind (Q := fun r s'' => r = .ok false ∧ s'' = s') ⟨rfl, rfl⟩ ?_ fun _ _ hr => by cases hr.1
  rintro _ _ ⟨hr, rfl⟩
  cases hr
  refine Prog.Ends.tryBind (ends_autoResolve_settled h false) (fun _ s'' hs => ?_) fun _ _ hs => by cases hs.1
  refine (Still.whenever (still_effort rfl)).bind ((still_effort rfl).bind ?_)
  refine (Still.whenever (still_effort rfl)).bind ?_
  have htell : Still sweep (Watcher.forPr a fun prUrl => ask (.effort (.unwatchPr prUrl))) :=
    .forPr fun _ => still_effort rfl
  exact (htell s'').mono fun _ _ ⟨hr, he⟩ => ⟨hr, he ▸ hs.2⟩

theorem Req.plain_begins {β : Type} {c : Req β} (hc : c.plain = true) : c.begins = none := by
  cases c with
  | getPrStatus => cases hc
  | _ =>
    simp only [Req.plain, Bool.and_eq_true, Option.isNone_iff_eq_none] at hc
    exact hc.2

theorem still_triggerCascade (h : startsCascade w a = false) :
    Still sweep (ExceptT.lift (w.triggerCascade a .merge)) := by
  intro s
  have hend : Prog.Ends (Site.serve sweep) (w.triggerCascade a .merge) (fun _ s' => s' = s) s := by
    unfold Watcher.triggerCascade
    split
    · rfl
    · rename_i hsource
      split
      · rename_i relationships scmRepo hrel hrepo
        split
        · rename_i hc
          have hdepth : Prog.Ends (Site.serve sweep) (w.depthAllows a) (fun _ s' => s' = s) s :=
            Quiet.ends plain_depthAllows () (fun c _ hc he => (serve_still (Req.plain_writes hc)
              (Req.plain_begins hc)).trans he) rfl
          refine hdepth.bind fun allowed s' he => ?_
          split
          · unfold Watcher.cascadeFrom
            dsimp only
            split
            · exact he
            · rename_i hnames
              simp [startsCascade, hrel, hrepo, hc, hsource] at h
              exact absurd h hnames
          · exact he
        · rfl
      · rfl
  exact hend.lift.mono fun _ _ ⟨_, hr, he⟩ => ⟨hr, he⟩

theorem ends_prMerged_settled (hc : a.cascadeRepo = none) (hw : ¬ watches U a) (hs : startsCascade w a = false) :
    Prog.Ends (Site.serve sweep) (w.prMerged U a).run (fun r s' => r = .ok () ∧ Settled sweep true a s s') s := by
  obtain ⟨hok, hset⟩ := settleRow_settled hc sweep s true
  refine Prog.ends_tryCall (fun _ _ => ?_) fun _ he => by rw [hok] at he; cases he
  refine Prog.Ends.tryBind (ends_afterMerge_settled hset hw) (fun _ s' h => ?_) fun _ _ h => by cases h.1
  have htell : Still sweep (whenever (w.cascade.enabled ∧ a.key.source ≠ SECURITY_FIX_SOURCE)
      (ExceptT.lift (w.triggerCascade a .merge))) := .whenever (still_triggerCascade hs)
  exact (htell s').mono fun _ _ ⟨hr, he⟩ => ⟨hr, he ▸ h.2⟩

theorem ends_prClosed_settled (hc : a.cascadeRepo = none) :
    Prog.Ends (Site.serve sweep) (Watcher.prClosed a).run
      (fun r s' => r = .ok () ∧ Settled sweep false a s s') s := by
  obtain ⟨hok, hset⟩ := settleRow_settled hc sweep s false
  refine Prog.ends_tryCall (fun _ _ => ?_) fun _ he => by rw [hok] at he; cases he
  rw [hset]
  refine (still_effort rfl).bind ((still_effort rfl).bind ((still_effort rfl).bind ?_))
  refine (Still.forPr fun _ => still_effort rfl).bind ?_
  have htell : Still sweep (Watcher.forPr a fun _ => ask (.effort (.notify a.key))) :=
    .forPr fun _ => still_effort rfl
  exact (htell _).mono fun _ _ ⟨hr, he⟩ => ⟨hr, he ▸ ⟨rfl, rfl, .inl rfl⟩⟩

/-- The next sweep settles the row, and nothing else happens. -/
theorem SettlesQuietly.ends_checkPr (h : SettlesQuietly U w s.host merged a) (sweep : Sweep) :
    Prog.Ends (Site.serve sweep) (w.checkPr U a).run
      (fun r s' => r = .ok true ∧ Settled sweep merged a s s') s := by
  have hend := h.ended
  unfold PullRequests.ended at hend
  split at hend
  · rename_i scmRepo prNumber hrepo hnumber
    have hhost : s.host scmRepo prNumber = endedAs merged := of_decide_eq_true hend
    have hrun : ∀ {p : ExceptT Error Run Unit},
        Prog.Ends (Site.serve sweep) p.run (fun r s' => r = .ok () ∧ Settled sweep merged a s s') s →
        Prog.Ends (Site.serve sweep) (Watcher.whileRunning p).run
          (fun r s' => r = .ok true ∧ Settled sweep merged a s s') s := by
      intro p hp
      refine Prog.ends_lift ?_
      rw [serve_still rfl rfl]
      exact Prog.Ends.tryBind hp (fun _ _ h => ⟨rfl, h.2⟩) fun _ _ h => by cases h.1
    unfold Watcher.checkPr
    rw [hrepo, hnumber]
    refine Prog.ends_lift ?_
    rw [serve_still rfl rfl]
    refine Prog.ends_lift ?_
    rw [serve_still rfl rfl]
    have hstatus : (s.serve sweep (.getPrStatus scmRepo prNumber)).1 = .ok (endedAs merged) :=
      congrArg Except.ok hhost
    rw [hstatus]
    cases merged with
    | true => exact hrun (ends_prMerged_settled h.original (h.quiet rfl).1 (h.quiet rfl).2)
    | false => exact hrun (ends_prClosed_settled h.original)
  · cases hend

/-! ## The loop -/

/-- The row an attempt was read from is about the same issue still. -/
def ReadFrom (t : FixAttempts) (a : FixAttempt) : Prop :=
  ∃ r, t.get a.id = some r ∧ r.key = a.key ∧ r.cascadeRepo = a.cascadeRepo

theorem ReadFrom.serve (h : ReadFrom s.table a) {β : Type} (c : Req β) : ReadFrom (s.serve sweep c).2.table a := by
  obtain ⟨r, hr, hk, hc⟩ := h
  rcases answer_snd (sweep.env s.host c) c s.table with ht | ⟨op, -, ht⟩
  · exact ⟨r, (congrArg (fun t => Table.get t a.id) ht).trans hr, hk, hc⟩
  · refine ⟨_, (congrArg (fun t => Table.get t a.id) ht).trans (FixAttempts.get_exec_of hr _), ?_, ?_⟩
    · rw [Call.rewrite_key]
      exact hk
    · rw [Call.rewrite_cascadeRepo]
      exact hc

theorem unique_serve (h : UniqueOriginal s.table) {β : Type} (c : Req β) :
    UniqueOriginal (s.serve sweep c).2.table := by
  have htable : (s.serve sweep c).2.table = (c.answer (sweep.env s.host c) s.table).2 := rfl
  rw [htable]
  rcases answer_snd (sweep.env s.host c) c s.table with ht | ⟨op, -, ht⟩
  · rw [ht]
    exact h
  · rw [ht]
    exact UniqueOriginal.exec h _

theorem readFrom_eval {α : Type} (p : Run α) (h : ReadFrom s.table a) :
    ReadFrom (Prog.eval (Site.serve sweep) p s).2.table a := by
  have hend : Prog.Ends (Site.serve sweep) p (fun _ s => ReadFrom s.table a) s :=
    Prog.ends_always (fun c _ h => h.serve c) p h
  exact hend

theorem unique_eval {α : Type} (p : Run α) (h : UniqueOriginal s.table) :
    UniqueOriginal (Prog.eval (Site.serve sweep) p s).2.table := by
  have hend : Prog.Ends (Site.serve sweep) p (fun _ s => UniqueOriginal s.table) s :=
    Prog.ends_always (fun c _ h => unique_serve h c) p h
  exact hend

/-- The row of a pull request that only the second site looks up. -/
structure Behind (U : CaseProps) (w : Watcher) (s s' : Site) (a : FixAttempt) (merged : Bool) : Prop where
  quietly : SettlesQuietly U w s'.host merged a
  first : ∃ q, s.table.get a.id = some q ∧ q.status = movedTo merged

/-- What is left to do for the second site. -/
structure Abreast (U : CaseProps) (w : Watcher) (keep : Nat → Bool) (l : List FixAttempt) (s s' : Site) :
    Prop where
  sites : TiedSites (fun i => keep i = false ∧ ∃ a ∈ l, a.id = i) s s'
  unique : UniqueOriginal s.table ∧ UniqueOriginal s'.table
  read : ∀ a ∈ l, ReadFrom s'.table a
  behind : ∀ a ∈ l, keep a.id = false → ∃ merged, Behind U w s s' a merged

/-- The row of another attempt that is behind is foreign to an attempt that is checked. -/
theorem Abreast.foreign (h : Abreast U w keep (b :: l) s s') (hn : b.id ∉ l.map FixAttempt.id) (ha : a ∈ l)
    (hc : a.cascadeRepo = none) (hr : s'.table.get a.id = some r) : Foreign b r := by
  obtain ⟨ra, hra, hk, hca⟩ := h.read a (List.mem_cons_of_mem _ ha)
  cases Option.some.inj (hr.symm.trans hra)
  refine ⟨hca.trans hc, fun hb hkey => hn ?_⟩
  obtain ⟨rb, hrb, hkb, hcb⟩ := h.read b List.mem_cons_self
  have hi := (h.unique.2.eq hra hrb (ofOriginal_iff.mpr ⟨rfl, hca.trans hc⟩)
    (ofOriginal_iff.mpr ⟨hkb.trans hkey.symm, hcb.trans hb⟩)).1
  rw [← hi]
  exact List.mem_map_of_mem ha

theorem Foreign.of_core (h : Foreign b r) (hc : core q = core r) : Foreign b q := by
  have hkey : (core q).key = (core r).key := congrArg AttemptRow.key hc
  have hrepo : (core q).cascadeRepo = (core r).cascadeRepo := congrArg AttemptRow.cascadeRepo hc
  exact ⟨hrepo.trans h.1, fun hb => hkey ▸ h.2 hb⟩

/-- What is behind stays behind while other pull requests are checked. -/
theorem Abreast.still_behind (h : Abreast U w keep (b :: l) s s') (hn : b.id ∉ l.map FixAttempt.id) (ha : a ∈ l)
    (hb : Behind U w s s' a merged) {s₁ s₁' : Site} (hs : Spares b s s₁) (hhost : s₁'.host = s'.host) :
    Behind U w s₁ s₁' a merged := by
  obtain ⟨q, hq, hst⟩ := hb.first
  obtain ⟨r, hr, htied⟩ := h.sites.table.get_left hq
  have hf := (h.foreign hn ha hb.quietly.original hr).of_core htied.same
  exact ⟨hhost.symm ▸ hb.quietly, q, hs.kept a.id q hq hf, hst⟩

theorem TiedSites.mono {Q Q' : Nat → Prop} (h : TiedSites Q s s') (hQ : ∀ i, Q i → Q' i) : TiedSites Q' s s' :=
  ⟨h.host, h.table.mono fun i _ _ _ _ ht => ⟨ht.same, ht.status.imp_right (hQ i)⟩, h.begun⟩

/-- A pull request that both sites look up. -/
theorem Abreast.both (h : Abreast U w keep (b :: l) s s') (hn : b.id ∉ l.map FixAttempt.id)
    (hk : keep b.id = true) (sweep : Sweep) :
    (Prog.eval (Site.serve sweep) (w.checkPr U b).run s).1 = .ok true ∧
      (Prog.eval (Site.serve sweep) (w.checkPr U b).run s').1 = .ok true ∧
      Abreast U w keep l (Prog.eval (Site.serve sweep) (w.checkPr U b).run s).2
        (Prog.eval (Site.serve sweep) (w.checkPr U b).run s').2 := by
  obtain ⟨hok, hs⟩ := ends_checkPr_spares U w sweep b s
  obtain ⟨hok', hs'⟩ := ends_checkPr_spares U w sweep b s'
  obtain ⟨-, hsites⟩ := h.sites.checkPr (U := U) (w := w) sweep b
  refine ⟨hok, hok', ?_⟩
  constructor
  · refine hsites.mono fun i ⟨hki, a, ha, hai⟩ => ⟨hki, a, ?_, hai⟩
    refine (List.mem_cons.mp ha).resolve_left fun he => ?_
    subst he
    subst hai
    rw [hk] at hki
    cases hki
  · exact ⟨unique_eval _ h.unique.1, unique_eval _ h.unique.2⟩
  · exact fun a ha => readFrom_eval _ (h.read a (List.mem_cons_of_mem _ ha))
  · intro a ha hka
    obtain ⟨merged, hb⟩ := h.behind a (List.mem_cons_of_mem _ ha) hka
    exact ⟨merged, h.still_behind hn ha hb hs hs'.host⟩

/-- The row comes up to the first site. -/
theorem TiedSites.settled (h : TiedSites (fun i => keep i = false ∧ ∃ a ∈ b :: l, a.id = i) s s')
    (hu : UniqueOriginal s'.table) (hb : Behind U w s s' b merged) (hread : ReadFrom s'.table b)
    {s₁ : Site} (hs : Settled sweep merged b s' s₁) :
    TiedSites (fun i => keep i = false ∧ ∃ a ∈ l, a.id = i) s s₁ := by
  obtain ⟨rb, hrb, hkb, hcb⟩ := hread
  have hob : ofOriginal b.key (b.id, rb) = true := ofOriginal_iff.mpr ⟨hkb, hcb.trans hb.quietly.original⟩
  obtain ⟨qb, hqb, hst⟩ := hb.first
  -- a row under another key is tied as it was; under this one the statuses are the same now
  have hother : ∀ i q r, i ≠ b.id → Tied (fun i => keep i = false ∧ ∃ a ∈ b :: l, a.id = i) i q r →
      Tied (fun i => keep i = false ∧ ∃ a ∈ l, a.id = i) i q r := by
    refine fun i q r hi ht => ⟨ht.same, ht.status.imp_right fun ⟨hk, a, ha, hai⟩ => ⟨hk, a, ?_, hai⟩⟩
    exact (List.mem_cons.mp ha).resolve_left fun he => hi (he ▸ hai.symm)
  have hset : Table.Alike (Tied fun i => keep i = false ∧ ∃ a ∈ l, a.id = i) s.table
      (settledTable sweep merged b.key s'.table) := by
    have hget : Table.Alike (fun i q r => s.table.get i = some q ∧
        Tied (fun i => keep i = false ∧ ∃ a ∈ b :: l, a.id = i) i q r) s.table s'.table :=
      h.table.mono fun i q r hq _ ht => ⟨hq, ht⟩
    have hrow : ∀ {f : AttemptRow → AttemptRow}, (∀ r, core (f r) = core r) →
        (∀ r, (f r).status = movedTo merged) →
        Table.Alike (Tied fun i => keep i = false ∧ ∃ a ∈ l, a.id = i) s.table
          (s'.table.update (ofOriginal b.key) f) := by
      intro f hcore hstatus
      refine hget.update_right fun i q r hr ⟨hq, ht⟩ => ?_
      split
      · rename_i ho
        obtain ⟨rfl, -⟩ := hu.eq hr hrb ho hob
        cases Option.some.inj (hq.symm.trans hqb)
        exact ⟨ht.same.trans (hcore r).symm, .inl (hst.trans (hstatus r).symm)⟩
      · rename_i ho
        refine hother i q r (fun hi => ho ?_) ht
        subst hi
        cases Option.some.inj (hr.symm.trans hrb)
        exact hob
    unfold settledTable
    cases merged with
    | true | false => exact hrow (fun _ => rfl) fun _ => rfl
  refine ⟨h.host.trans hs.host.symm, ?_, h.begun.trans hs.begun.symm⟩
  rcases hs.table with ht | ht
  · rw [ht]
    exact hset
  · rw [ht]
    refine hset.update_right fun i q r _ ht => ?_
    split
    · exact ⟨ht.same, ht.status⟩
    · exact ht

/-- A pull request that only the second site looks up. -/
theorem Abreast.late (h : Abreast U w keep (b :: l) s s') (hk : keep b.id = false) (sweep : Sweep) :
    (Prog.eval (Site.serve sweep) (w.checkPr U b).run s').1 = .ok true ∧
      Abreast U w keep l s (Prog.eval (Site.serve sweep) (w.checkPr U b).run s').2 := by
  obtain ⟨merged, hb⟩ := h.behind b List.mem_cons_self hk
  obtain ⟨hok, hs⟩ := hb.quietly.ends_checkPr sweep
  refine ⟨hok, h.sites.settled h.unique.2 hb (h.read b List.mem_cons_self) hs, ?_, fun a ha => ?_, fun a ha hka => ?_⟩
  · exact ⟨h.unique.1, unique_eval _ h.unique.2⟩
  · exact readFrom_eval _ (h.read a (List.mem_cons_of_mem _ ha))
  · obtain ⟨merged, ha⟩ := h.behind a (List.mem_cons_of_mem _ ha) hka
    exact ⟨merged, hs.host.symm ▸ ha.quietly, ha.first⟩

theorem eval_forWhile_cons {f : FixAttempt → ExceptT Error Run Bool}
    (h : (Prog.eval (Site.serve sweep) (f b).run s).1 = .ok true) :
    Prog.eval (Site.serve sweep) (forWhile f (b :: l)).run s =
      Prog.eval (Site.serve sweep) (forWhile f l).run (Prog.eval (Site.serve sweep) (f b).run s).2 :=
  Prog.eval_tryBind_ok (Prod.ext h rfl)

/-- The loops of the two sweeps. -/
theorem Abreast.loop (h : Abreast U w keep l s s') (hn : (l.map FixAttempt.id).Nodup) (sweep : Sweep) :
    ∃ s₁ s₁', Prog.eval (Site.serve sweep) (forWhile (w.checkPr U) (l.filter fun a => keep a.id)).run s = (.ok (), s₁) ∧
      Prog.eval (Site.serve sweep) (forWhile (w.checkPr U) l).run s' = (.ok (), s₁') ∧
      Abreast U w keep [] s₁ s₁' := by
  induction l generalizing s s' with
  | nil => exact ⟨s, s', rfl, rfl, h⟩
  | cons b l ih =>
    obtain ⟨hb, hn⟩ := List.nodup_cons.mp hn
    cases hk : keep b.id with
    | true =>
      obtain ⟨hok, hok', h⟩ := h.both hb hk sweep
      have hf : (b :: l).filter (fun a => keep a.id) = b :: l.filter fun a => keep a.id :=
        List.filter_cons_of_pos hk
      rw [hf, eval_forWhile_cons hok, eval_forWhile_cons hok']
      exact ih h hn
    | false =>
      obtain ⟨hok', h⟩ := h.late hk sweep
      have hf : (b :: l).filter (fun a => keep a.id) = l.filter fun a => keep a.id :=
        List.filter_cons_of_neg (by simp [hk])
      rw [hf, eval_forWhile_cons hok']
      exact ih h hn

/-! ## Sweeps and runs -/

/-- What the run with the webhook and the run without have in common. -/
structure Together (U : CaseProps) (w : Watcher) (s s' : Site) : Prop where
  host : s.host = s'.host
  table : Table.Alike (Gap U w s.host) s.table s'.table
  begun : s.begun = s'.begun
  unique : UniqueOriginal s.table ∧ UniqueOriginal s'.table

/-- After a sweep no row is ahead. -/
structure Level (s s' : Site) : Prop where
  host : s.host = s'.host
  table : Table.Alike (Tied fun _ => False) s.table s'.table
  begun : s.begun = s'.begun
  unique : UniqueOriginal s.table ∧ UniqueOriginal s'.table

theorem Level.together (h : Level s s') : Together U w s s' :=
  ⟨h.host, h.table.mono fun _ _ _ _ _ ht => ⟨ht.same, ht.status.imp_right False.elim⟩, h.begun, h.unique⟩

theorem Level.sameOutcome (h : Level s s') : SameOutcome s s' := by
  refine ⟨fun i => ?_, h.begun⟩
  cases hq : s.table.get i with
  | none =>
    have hnone := h.table.isNone_get i
    rw [hq] at hnone
    rw [Option.isNone_iff_eq_none.mp hnone.symm]
  | some q =>
    obtain ⟨r, hr, ht⟩ := h.table.get_left hq
    rw [hr]
    exact congrArg some (ht.status.resolve_right id)

theorem Abreast.level (h : Abreast U w keep [] s s') : Level s s' := by
  refine ⟨h.sites.host, h.sites.table.mono fun i q r _ _ ht => ⟨ht.same, ?_⟩, h.sites.begun, h.unique⟩
  exact ht.status.imp_right fun ⟨_, _, ha, _⟩ => List.not_mem_nil ha

/-- The pull requests that the second site looks up when a sweep starts. -/
theorem Together.abreast (h : Together U w s s') :
    Abreast U w (stillOpen s.table) s'.table.getPendingPrs s s' := by
  have hread : ∀ a ∈ s'.table.getPendingPrs, ∃ r, s'.table.get a.id = some r ∧ rowToFixAttempt (a.id, r) = a ∧
      FixAttempts.pendingPr (a.id, r) = true := by
    intro a ha
    obtain ⟨i, r, hr, hp, rfl⟩ := FixAttempts.mem_getPendingPrs.mp ha
    exact ⟨r, hr, rfl, hp⟩
  have hopen : ∀ {i q}, s.table.get i = some q → stillOpen s.table i = decide (q.status = .success) := by
    intro i q hq
    rw [stillOpen, hq]
    rfl
  constructor
  · refine ⟨h.host, h.table.mono fun i q r hq hr hg => ⟨hg.same, hg.status.imp_right ?_⟩, h.begun⟩
    rintro ⟨merged, hst, hset⟩
    refine ⟨?_, rowToFixAttempt (i, r), FixAttempts.mem_getPendingPrs.mpr ⟨i, r, hr, hset.pending, rfl⟩, rfl⟩
    rw [hopen hq, hst, decide_eq_false (movedTo_ne merged)]
  · exact h.unique
  · intro a ha
    obtain ⟨r, hr, hra, -⟩ := hread a ha
    exact ⟨r, hr, congrArg FixAttempt.key hra, congrArg FixAttempt.cascadeRepo hra⟩
  · intro a ha hk
    obtain ⟨r, hr, hra, hp⟩ := hread a ha
    obtain ⟨q, hq, hg⟩ := h.table.get_right hr
    rw [hopen hq] at hk
    rcases hg.status with hs | ⟨merged, hst, hset⟩
    · simp only [FixAttempts.pendingPr, Bool.and_eq_true, decide_eq_true_eq] at hp
      rw [hs, hp.1.1] at hk
      cases hk
    · rw [hra] at hset
      exact ⟨merged, h.host ▸ hset, q, hq, hst⟩

theorem still_metrics (names : List String) :
    Still sweep (names.forM fun name => ask (.effort (.recordMetric name))) := by
  induction names with
  | nil => exact fun _ => ⟨rfl, rfl⟩
  | cons name names ih => exact fun s => (still_effort rfl).bind (ih s)

theorem eval_checkPrs {s₁ : Site} (h : Prog.eval (Site.serve sweep) (forWhile (w.checkPr U) l).run s = (.ok (), s₁)) :
    (Prog.eval (Site.serve sweep) (w.checkPrs U l).run s).2 = s₁ := by
  have hloop : Prog.eval (Site.serve sweep) (w.checkPrs U l).run s = Prog.eval (Site.serve sweep)
      (Watcher.CYCLE_METRICS.forM fun name => ask (.effort (.recordMetric name))).run s₁ := Prog.eval_tryBind_ok h
  rw [hloop]
  exact (still_metrics Watcher.CYCLE_METRICS s₁).2

/-- A sweep leaves no row ahead. -/
theorem Together.level (h : Together U w s s') (sweep : Sweep) :
    Level (s.step U w (.sweep sweep)) (s'.step U w (.sweep sweep)) := by
  show Level (Prog.eval (Site.serve sweep) (w.checkPrMergesAndCascade U).run s).2
    (Prog.eval (Site.serve sweep) (w.checkPrMergesAndCascade U).run s').2
  unfold Watcher.checkPrMergesAndCascade
  split
  · obtain ⟨s₁, s₁', he, he', hl⟩ := h.abreast.loop (FixAttempts.nodup_getPendingPrs s'.table) sweep
    rw [← forWhile_coreAttempt (getPendingPrs_gap h.table)] at he
    have hs : ∀ s : Site, Prog.eval (Site.serve sweep) (do w.checkPrs U (← try_ .getPendingPrs)).run s =
        Prog.eval (Site.serve sweep) (w.checkPrs U s.table.getPendingPrs).run s := fun s => rfl
    rw [hs, hs, eval_checkPrs he, eval_checkPrs he']
    exact hl.level
  · rename_i hscm
    rw [eval_checkPrs (s := s) rfl, eval_checkPrs (s := s') rfl]
    refine ⟨h.host, h.table.mono fun i q r _ _ hg => ⟨hg.same, .inl (hg.status.resolve_right ?_)⟩, h.begun, h.unique⟩
    exact fun ⟨_, _, hq⟩ => hscm hq.scm

/-! ## The webhook -/

theorem SettlesQuietly.of_core (h : SettlesQuietly U w host merged (rowToFixAttempt (i, q)))
    (hc : core q = core r) (hs : r.status = .success) : SettlesQuietly U w host merged (rowToFixAttempt (i, r)) := by
  have ha : coreAttempt (rowToFixAttempt (i, q)) = coreAttempt (rowToFixAttempt (i, r)) :=
    congrArg (fun r => rowToFixAttempt (i, r)) hc
  have hstart : ∀ a, startsCascade w a = startsCascade w (coreAttempt a) := fun _ => rfl
  have hwatch : ∀ a, watches U a = watches U (coreAttempt a) := fun _ => rfl
  have hended : ∀ a, PullRequests.ended host merged a = PullRequests.ended host merged (coreAttempt a) := fun _ => rfl
  constructor
  · exact h.scm
  · exact (congrArg FixAttempt.cascadeRepo ha).symm.trans h.original
  · exact ⟨hs, (congrArg (fun a => a.prUrl.isSome) ha).symm.trans h.opened.2⟩
  · rw [hended, ← ha, ← hended]
    exact h.ended
  · rw [hwatch, hstart, ← ha, ← hwatch, ← hstart]
    exact h.quiet

/-- The mark of the webhook, where it is harmless: the issue's original is as it was, or as the next
sweep would leave it. -/
theorem Harmless.original {now : Timestamp} {prUrl : String} (h : Harmless U w s (.webhook now prUrl merged))
    (hu : UniqueOriginal s.table) (ha : s.table.getAttemptByPrUrl prUrl = some a) (hq : s.table.get i = some q)
    (ho : ofOriginal a.key (i, q) = true) :
    (i = a.id ∧ (q.status = movedTo merged ∨ SettlesQuietly U w s.host merged (rowToFixAttempt (i, q)))) ∨
      merged = false ∧ q.status = .closed := by
  have ha' := h a ha
  split at ha'
  · rename_i hc
    obtain ⟨qa, hqa, -, hra⟩ := FixAttempts.getAttemptByPrUrl_eq_some ha
    have hoa : ofOriginal a.key (a.id, qa) = true :=
      ofOriginal_iff.mpr ⟨congrArg FixAttempt.key hra, (congrArg FixAttempt.cascadeRepo hra).trans
        (Option.isNone_iff_eq_none.mp hc)⟩
    obtain ⟨rfl, rfl⟩ := hu.eq hq hqa ho hoa
    rw [hra]
    exact .inl ⟨rfl, ha'.imp_left fun hs => (congrArg FixAttempt.status hra).trans hs⟩
  · obtain ⟨x, hx⟩ := Table.exists_first hq ho
    obtain ⟨j, p⟩ := x
    obtain ⟨hp, hop⟩ := Table.first_get hx
    obtain ⟨-, rfl⟩ := hu.eq hq hp ho hop
    exact .inr (ha' _ hx)

/-- What the webhook makes of an original. -/
def mark (merged : Bool) (now : Timestamp) (q : AttemptRow) : AttemptRow :=
  if merged then q.merge now else q.close

theorem mark_status (merged : Bool) (now : Timestamp) (q : AttemptRow) : (mark merged now q).status = movedTo merged := by
  cases merged <;> rfl

theorem core_mark (merged : Bool) (now : Timestamp) (q : AttemptRow) : core (mark merged now q) = core q := by
  cases merged <;> rfl

theorem handlePrClosedWebhook_eq (t : FixAttempts) (now : Timestamp) (prUrl : String) (merged : Bool)
    (ha : t.getAttemptByPrUrl prUrl = some a) :
    handlePrClosedWebhook t now prUrl merged = t.update (ofOriginal a.key) (mark merged now) := by
  simp only [handlePrClosedWebhook, ha]
  cases merged <;> rfl

theorem unique_webhook (h : UniqueOriginal t) (now : Timestamp) (prUrl : String) (merged : Bool) :
    UniqueOriginal (handlePrClosedWebhook t now prUrl merged) := by
  unfold handlePrClosedWebhook
  split
  · exact h
  · rename_i attempt _
    split
    · exact UniqueOriginal.exec h ⟨now, .markMerged attempt.key⟩
    · exact UniqueOriginal.exec h ⟨now, .markClosed attempt.key⟩

theorem Together.webhook (h : Together U w s s') {now : Timestamp} {prUrl : String}
    (hh : Harmless U w s (.webhook now prUrl merged)) :
    Together U w (s.step U w (.webhook now prUrl merged)) s' := by
  refine ⟨h.host, ?_, h.begun, unique_webhook h.unique.1 now prUrl merged, h.unique.2⟩
  show Table.Alike (Gap U w s.host) (handlePrClosedWebhook s.table now prUrl merged) s'.table
  cases ha : s.table.getAttemptByPrUrl prUrl with
  | none =>
    have hnone : handlePrClosedWebhook s.table now prUrl merged = s.table := by
      simp only [handlePrClosedWebhook, ha]
    rw [hnone]
    exact h.table
  | some a =>
    rw [handlePrClosedWebhook_eq s.table now prUrl merged ha]
    refine h.table.update_left fun i q r hq hg => ?_
    split
    · rename_i ho
      have hcore := (core_mark merged now q).trans hg.same
      have hstatus := mark_status merged now q
      -- a row that is as it was marked keeps its place
      have hkeep : q.status = movedTo merged → Gap U w s.host i (mark merged now q) r := by
        intro hs
        refine ⟨hcore, hg.status.imp (fun he => hstatus.trans (hs.symm.trans he)) ?_⟩
        exact fun ⟨m, hm, hset⟩ => ⟨m, hstatus.trans (hs.symm.trans hm), hset⟩
      rcases hh.original h.unique.1 ha hq ho with ⟨-, hs | hset⟩ | ⟨hm, hs⟩
      · exact hkeep hs
      · have hopen : q.status = .success := hset.opened.1
        refine ⟨hcore, .inr ⟨merged, hstatus, hset.of_core hg.same ?_⟩⟩
        rcases hg.status with he | ⟨m, hm, -⟩
        · exact he.symm.trans hopen
        · exact absurd (hm.symm.trans hopen) (movedTo_ne m)
      · exact hkeep (by rw [hs, hm]; rfl)
    · exact hg

theorem Harmless.ownRowOnly {event : Event} (h : Harmless U w s event) (hu : UniqueOriginal s.table) :
    OwnRowOnly U w s event := by
  cases event with
  | webhook now prUrl merged =>
    intro i hi
    show (handlePrClosedWebhook s.table now prUrl merged).get i = s.table.get i
    cases ha : s.table.getAttemptByPrUrl prUrl with
    | none => simp only [handlePrClosedWebhook, ha]
    | some a =>
      rw [handlePrClosedWebhook_eq s.table now prUrl merged ha]
      cases hq : s.table.get i with
      | none => simp [Table.get_update, hq]
      | some q =>
        cases ho : ofOriginal a.key (i, q) with
        | false => exact Table.get_update_of_not hq ho
        | true =>
          rcases h.original hu ha hq ho with ⟨he, -⟩ | ⟨rfl, hs⟩
          · exact absurd he (hi a ha)
          · refine (Table.get_update_of hq ho).trans (congrArg some ?_)
            show ({ q with status := .closed } : AttemptRow) = q
            rw [← hs]
  | prEnds => trivial
  | sweep => trivial

theorem Together.prEnds (h : Together U w s s') (scmRepo : String) (prNumber : Int) (merged : Bool) :
    Together U w (s.step U w (.prEnds scmRepo prNumber merged)) (s'.step U w (.prEnds scmRepo prNumber merged)) := by
  obtain ⟨host, table, begun⟩ := s
  obtain ⟨host', table', begun'⟩ := s'
  obtain rfl : host = host' := h.host
  refine ⟨rfl, h.table.mono fun i q r _ _ hg => ⟨hg.same, hg.status.imp_right ?_⟩, h.begun, h.unique⟩
  rintro ⟨m, hm, hset⟩
  refine ⟨m, hm, hset.scm, hset.original, hset.opened, ?_, hset.quiet⟩
  -- a pull request that has ended stays as it ended
  have he := hset.ended
  unfold PullRequests.ended at he ⊢
  split at he
  · rename_i repo number _ _
    have he : host repo number = endedAs m := of_decide_eq_true he
    have hne : host repo number ≠ .opened := by
      rw [he]
      cases m <;> decide
    refine decide_eq_true ?_
    exact (if_neg fun hc => hne hc.2.2).trans he
  · cases he

theorem Together.step (h : Together U w s s') (event : Event) (hh : Harmless U w s event) :
    Together U w (s.step U w event) (if event.isWebhook then s' else s'.step U w event) := by
  cases event with
  | prEnds scmRepo prNumber merged => exact h.prEnds scmRepo prNumber merged
  | sweep sweep => exact (h.level sweep).together
  | webhook now prUrl merged => exact h.webhook hh

theorem Together.run {es : List Event} (h : Together U w s s') (hh : Along (Site.step U w) (Harmless U w) s es) :
    Together U w (run (Site.step U w) s es)
      (run (Site.step U w) s' (es.filter fun event => !event.isWebhook)) := by
  induction es generalizing s s' with
  | nil => exact h
  | cons event es ih =>
    have hnext := h.step event hh.1
    cases hw : event.isWebhook with
    | true =>
      rw [List.filter_cons_of_neg (by simp [hw])]
      rw [hw, if_pos rfl] at hnext
      exact ih hnext hh.2
    | false =>
      rw [List.filter_cons_of_pos (by simp [hw])]
      rw [hw, if_neg Bool.false_ne_true] at hnext
      exact ih hnext hh.2

/-- While the webhook does what the next sweep would do, it changes no other row than the one of its
pull request, and sweeps with the webhook end as the sweeps alone do. -/
theorem webhook_agrees (U : CaseProps) (w : Watcher) (l : List Call) (host : Host) (es : List Event)
    (sweep : Sweep) (h : Along (Site.step U w) (Harmless U w) ⟨host, tracked l, []⟩ es) :
    Along (Site.step U w) (OwnRowOnly U w) ⟨host, tracked l, []⟩ es ∧
      SameOutcome (run (Site.step U w) ⟨host, tracked l, []⟩ (es ++ [.sweep sweep]))
        (run (Site.step U w) ⟨host, tracked l, []⟩
          ((es.filter fun event => !event.isWebhook) ++ [.sweep sweep])) := by
  have hu : UniqueOriginal (tracked l) := uniqueOriginal_tracked l
  have hstart : Together U w ⟨host, tracked l, []⟩ ⟨host, tracked l, []⟩ :=
    ⟨rfl, .refl (fun _ _ => .refl _ _) _, rfl, hu, hu⟩
  refine ⟨h.along (P := fun s => UniqueOriginal s.table) (fun s event hs _ => ?_) (fun _ _ hs hh => hh.ownRowOnly hs) hu, ?_⟩
  · cases event with
    | prEnds => exact hs
    | sweep sweep => exact unique_eval _ hs
    | webhook now prUrl merged => exact unique_webhook hs now prUrl merged
  · rw [run_concat, run_concat]
    exact ((hstart.run h).level sweep).sameOutcome

/-! A fix of a Sentry issue, whose pull request is open; and a cascade of a fix, whose pull request is
open as well. -/

def sentryFix : List Call :=
  [⟨0, .recordAttemptWithLabels ⟨"sentry", "1"⟩ "1" []⟩,
    ⟨0, .markSuccess ⟨"sentry", "1"⟩ "https://github.com/o/app/pull/1"⟩]

def cascadeFix : List Call :=
  sentryFix ++ [⟨1, .recordCascadeAttempt ⟨"sentry", "1"⟩ "1" 1 "o/client"⟩,
    ⟨1, .updateAttemptPr 2 "https://github.com/o/client/pull/2" "o/client" 2⟩]

def allOpen : Host := fun _ _ => .opened

def plainSweep : Sweep where
  now := 3
  resolved _ := .ok ()
  cascadeUrl _ := none
  worktree _ := none
  agent _ := .ok { success := false }

/-- What is read of the fix. -/
def sentryAttempt : FixAttempt where
  id := 1
  key := ⟨"sentry", "1"⟩
  shortId := "1"
  attemptedAt := 0
  prUrl := some "https://github.com/o/app/pull/1"
  scmRepo := some "o/app"
  scmPrNumber := some 1
  status := .success
  errorMessage := none
  mergedAt := none
  resolvedAt := none
  retryCount := 0
  lastRetryAt := none
  issueLabels := []
  parentAttemptId := none
  cascadeRepo := none

/-- The pull request ends, and the webhook tells before the next sweep. -/
def endsAndTold (number : Int) (prUrl repo : String) (merged : Bool) : List Event :=
  [.prEnds repo number merged, .webhook 2 prUrl merged]

theorem webhook_agrees_closed :
    Along (Site.step ⟨fun _ => false, fun _ => false⟩ withoutCascade)
        (OwnRowOnly ⟨fun _ => false, fun _ => false⟩ withoutCascade) ⟨allOpen, tracked sentryFix, []⟩
        (endsAndTold 1 "https://github.com/o/app/pull/1" "o/app" false) ∧
      SameOutcome
        (run (Site.step ⟨fun _ => false, fun _ => false⟩ withoutCascade) ⟨allOpen, tracked sentryFix, []⟩
          (endsAndTold 1 "https://github.com/o/app/pull/1" "o/app" false ++ [.sweep plainSweep]))
        (run (Site.step ⟨fun _ => false, fun _ => false⟩ withoutCascade) ⟨allOpen, tracked sentryFix, []⟩
          ((endsAndTold 1 "https://github.com/o/app/pull/1" "o/app" false).filter
            (fun event => !event.isWebhook) ++ [.sweep plainSweep])) := by
  refine webhook_agrees _ _ _ _ _ _ ⟨trivial, fun a ha => ?_, trivial⟩
  have hget : (tracked sentryFix).getAttemptByPrUrl "https://github.com/o/app/pull/1" = some sentryAttempt := by
    decide +kernel
  obtain rfl : sentryAttempt = a := Option.some.inj (hget.symm.trans ha)
  have hc : sentryAttempt.cascadeRepo.isNone = true := rfl
  rw [if_pos hc]
  exact .inr ⟨rfl, rfl, ⟨rfl, rfl⟩, by decide +kernel, fun h => by cases h⟩

/-- A merge that the webhook tells of first is not watched; and of a cascade's pull request the webhook
closes the original. -/
theorem webhook_disagrees :
    ¬ SameOutcome
        (run (Site.step ⟨fun _ => false, fun _ => false⟩ withoutCascade) ⟨allOpen, tracked sentryFix, []⟩
          (endsAndTold 1 "https://github.com/o/app/pull/1" "o/app" true ++ [.sweep plainSweep]))
        (run (Site.step ⟨fun _ => false, fun _ => false⟩ withoutCascade) ⟨allOpen, tracked sentryFix, []⟩
          ((endsAndTold 1 "https://github.com/o/app/pull/1" "o/app" true).filter
            (fun event => !event.isWebhook) ++ [.sweep plainSweep])) ∧
      ¬ Along (Site.step ⟨fun _ => false, fun _ => false⟩ withoutCascade)
        (OwnRowOnly ⟨fun _ => false, fun _ => false⟩ withoutCascade) ⟨allOpen, tracked cascadeFix, []⟩
        (endsAndTold 2 "https://github.com/o/client/pull/2" "o/client" false) := by
  constructor
  · intro h
    have hbegun := h.begun
    revert hbegun
    decide +kernel
  · rintro ⟨-, h, -⟩
    have hget : ((tracked cascadeFix).getAttemptByPrUrl "https://github.com/o/client/pull/2").map FixAttempt.id =
        some 2 := by decide +kernel
    have hrow := h 1 fun a ha => by
      have ha : (tracked cascadeFix).getAttemptByPrUrl "https://github.com/o/client/pull/2" = some a := ha
      rw [ha, Option.map_some] at hget
      rw [Option.some.inj hget]
      decide
    have hstatus : ((((⟨allOpen, tracked cascadeFix, []⟩ : Site).step ⟨fun _ => false, fun _ => false⟩ withoutCascade
        (.prEnds "o/client" 2 false)).step ⟨fun _ => false, fun _ => false⟩ withoutCascade
        (.webhook 2 "https://github.com/o/client/pull/2" false)).table.get 1).map AttemptRow.status = some .closed := by
      decide +kernel
    rw [hrow] at hstatus
    revert hstatus
    decide +kernel

end Claudear.Engine.PullRequests
