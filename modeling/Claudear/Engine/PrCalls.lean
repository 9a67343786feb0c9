import Claudear.Engine.PrMerges

/-!
# The calls of a check

An ordinary call neither reads attempts nor records a cascade. Most programs of
the watcher make no other, whatever the answers are.
-/

namespace Claudear.Engine.PullRequests

open Claudear.Storage Claudear.Machine Claudear.Text

def Req.ordinary {β : Type} : Req β → Bool
  | .getPendingPrs | .getAttemptById _ | .getMostRecentMergedAttemptForRepo _ | .getAttemptsByStatus _
  | .recordCascadeAttempt .. => false
  | _ => true

abbrev Ordinary {α : Type} (p : Run α) : Prop := Quiet (fun (_ : Unit) c => c.ordinary = true) p

variable {U : CaseProps} {w : Watcher} {a : FixAttempt}

theorem ordinary_try {α : Type} {c : Req (Except Error α)} (h : c.ordinary = true) : Ordinary (try_ c).run :=
  ⟨fun _ => h, fun _ => trivial⟩

theorem ordinary_ask {α : Type} {c : Req α} (h : c.ordinary = true) : Ordinary (ask c).run :=
  ⟨fun _ => h, fun _ => trivial⟩

theorem ordinary_effort (e : Effort) : Ordinary (ask (.effort e)).run := ordinary_ask rfl

theorem ordinary_forPr {f : String → ExceptT Error Run Unit} (h : ∀ prUrl, Ordinary (f prUrl).run) :
    Ordinary (Watcher.forPr a f).run := by
  unfold Watcher.forPr
  split
  · exact h _
  · exact trivial

theorem ordinary_whenever {c : Prop} [Decidable c] {p : ExceptT Error Run Unit} (h : Ordinary p.run) :
    Ordinary (whenever c p).run := by
  unfold whenever
  split
  · exact h
  · exact trivial

theorem ordinary_settleRow (merged : Bool) : Ordinary (try_ (Watcher.settleRow a merged)).run := by
  refine ordinary_try ?_
  unfold Watcher.settleRow
  split
  · rfl
  · split <;> rfl

theorem ordinary_watchForRegression : Ordinary (Watcher.watchForRegression U a) := by
  unfold Watcher.watchForRegression
  split
  · refine ⟨fun _ => rfl, fun r => ?_⟩
    cases r <;> exact trivial
  · exact trivial

theorem ordinary_autoResolve (watched : Bool) : Ordinary (w.autoResolve a watched).run := by
  refine ordinary_whenever (Quiet.tryBind (ordinary_ask rfl) fun r => ?_)
  cases r with
  | error e => exact trivial
  | ok r => exact Quiet.tryBind (ordinary_try rfl) fun _ => ordinary_forPr fun _ => ordinary_effort _

theorem ordinary_afterMerge : Ordinary (w.afterMerge U a).run := by
  refine Quiet.tryBind (ordinary_effort _) fun _ => ?_
  refine Quiet.tryBind (ordinary_effort _) fun _ => ?_
  refine Quiet.tryBind (ordinary_forPr fun _ => ordinary_effort _) fun _ => ?_
  refine Quiet.tryBind (Quiet.bind ordinary_watchForRegression fun _ => trivial) fun watched => ?_
  refine Quiet.tryBind (ordinary_autoResolve watched) fun _ => ?_
  refine Quiet.tryBind (ordinary_whenever (ordinary_effort _)) fun _ => ?_
  refine Quiet.tryBind (ordinary_effort _) fun _ => ?_
  exact Quiet.tryBind (ordinary_whenever (ordinary_effort _)) fun _ => ordinary_forPr fun _ => ordinary_effort _

theorem ordinary_prClosed : Ordinary (Watcher.prClosed a).run := by
  refine Quiet.tryBind (ordinary_settleRow false) fun _ => ?_
  refine Quiet.tryBind (ordinary_effort _) fun _ => ?_
  refine Quiet.tryBind (ordinary_effort _) fun _ => ?_
  refine Quiet.tryBind (ordinary_effort _) fun _ => ?_
  exact Quiet.tryBind (ordinary_forPr fun _ => ordinary_effort _) fun _ => ordinary_forPr fun _ => ordinary_effort _

theorem ordinary_settleCascade (parent : FixAttempt) (id : Nat) (result : AgentResult) :
    Ordinary (settleCascade parent id result).run := by
  have hfail : ∀ error, Ordinary (failCascade parent id error).run := fun error =>
    Quiet.tryBind (ordinary_try rfl) fun _ => ordinary_effort _
  unfold settleCascade
  split
  · split
    · refine Quiet.tryBind ?_ fun _ => ?_
      · unfold storePr
        split
        · exact ordinary_try rfl
        · exact trivial
      · refine Quiet.tryBind (ordinary_effort _) fun _ => ?_
        exact Quiet.tryBind (ordinary_effort _) fun _ => ordinary_effort _
    · exact hfail _
  · exact hfail _

end Claudear.Engine.PullRequests
