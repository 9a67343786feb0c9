import Claudear.Machine.Prog
import Mathlib.Algebra.Order.BigOperators.Group.List
import Mathlib.Algebra.Order.Ring.Nat

/-!
# Crews

A crew is a growing list of threads on a shared state. A thread runs one program
of atomic calls to its end, and is never lost on the way; some programs may only
be started in some states. With the notes of a monitor, `Crew.Sound` is the rule
for an invariant that counts over the threads: every thread ends with a note that
satisfies `Q`, as a thread that holds nothing, and one call is looked at at a
time.
-/

namespace Claudear.Machine

universe u

structure Thread (C : Type → Type u) (G : Type) where
  prog : Prog C Unit
  note : G

structure Crew (C : Type → Type u) (σ G : Type) where
  shared : σ
  threads : List (Thread C G)

/-- What the calls do, the programs, and what starting one does to the shared state: `none` where it
cannot be started. -/
structure Charter (C : Type → Type u) (σ : Type) (E J : Type*) where
  answer : {β : Type} → E → C β → σ → β × σ
  program : J → Prog C Unit
  enter : J → σ → Option σ

inductive Turn (E J : Type*) where
  | spawn (job : J)
  | go (t : Nat) (env : E)

namespace Crew

variable {C : Type → Type u} {σ G : Type} {E J : Type*} (S : Charter C σ E J) (M : Monitor C σ J G)

def initial (s : σ) : Crew C σ G := ⟨s, []⟩

def notes (w : Crew C σ G) : List G := w.threads.map Thread.note

def step (w : Crew C σ G) : Turn E J → Crew C σ G
  | .spawn job =>
    match S.enter job w.shared with
    | some s => ⟨s, w.threads ++ [⟨S.program job, M.start job⟩]⟩
    | none => w
  | .go t env =>
    match w.threads[t]? with
    | some ⟨.call c k, g⟩ =>
      let r := S.answer env c w.shared
      ⟨r.2, w.threads.set t ⟨k r.1, M.next g c r.1 r.2⟩⟩
    | _ => w

/-- What `f` makes of the call of a turn and its answer. -/
def observe {γ : Type*} (f : {β : Type} → C β → β → Option γ) (w : Crew C σ G) :
    Turn E J → Option (Nat × γ)
  | .go t env =>
    match w.threads[t]? with
    | some ⟨.call c _, _⟩ => (f c (S.answer env c w.shared).1).map (t, ·)
    | _ => none
  | .spawn _ => none

/-- The invariant holds, and what every thread still has to do is allowed and leaves `Q`. -/
structure Sound (ok : {β : Type} → G → C β → Prop) (Q : G → Prop) (I : σ → List G → Prop)
    (w : Crew C σ G) : Prop where
  inv : I w.shared w.notes
  allowed : ∀ x ∈ w.threads, Allowed M ok x.prog (fun _ => Q) x.note

variable {S M} {ok : {β : Type} → G → C β → Prop} {Q : G → Prop} {I : σ → List G → Prop}
  {w : Crew C σ G}

theorem observe_eq_some {γ : Type*} {f : {β : Type} → C β → β → Option γ} {turn : Turn E J} {t : Nat}
    {x : γ} (h : observe S f w turn = some (t, x)) :
    ∃ (env : E) (β : Type) (c : C β) (k : β → Prog C Unit) (g : G), turn = .go t env ∧
      w.threads[t]? = some ⟨.call c k, g⟩ ∧ f c (S.answer env c w.shared).1 = some x := by
  cases turn with
  | spawn job => cases h
  | go u env =>
    simp only [observe] at h
    rcases hp : w.threads[u]? with - | ⟨a | ⟨c, k⟩, g⟩
    · rw [hp] at h
      cases h
    · rw [hp] at h
      cases h
    · rw [hp] at h
      obtain ⟨y, hy, he⟩ := Option.map_eq_some_iff.mp h
      cases he
      exact ⟨env, _, c, k, g, rfl, hp, hy⟩

theorem mem_notes {t : Nat} {p : Prog C Unit} {g : G} (h : w.threads[t]? = some ⟨p, g⟩) : g ∈ w.notes :=
  List.mem_map.mpr ⟨_, List.mem_of_getElem? h, rfl⟩

theorem Sound.call_ok (h : Sound M ok Q I w) {t : Nat} {β : Type} {c : C β} {k : β → Prog C Unit}
    {g : G} (hp : w.threads[t]? = some ⟨.call c k, g⟩) : ok g c :=
  (h.allowed _ (List.mem_of_getElem? hp)).1

/-- The rule of the crew, where a call is looked at in the thread that makes it. -/
theorem Sound.turn (h : Sound M ok Q I w) (turn : Turn E J)
    (hprog : ∀ job, Allowed M ok (S.program job) (fun _ => Q) (M.start job))
    (hspawn : ∀ job s, turn = .spawn job → S.enter job w.shared = some s →
      I s (w.notes ++ [M.start job]))
    (hcall : ∀ (t : Nat) (env : E) {β : Type} (c : C β) (k : β → Prog C Unit) (g : G), turn = .go t env →
      w.threads[t]? = some ⟨.call c k, g⟩ → ok g c →
      let r := S.answer env c w.shared
      I r.2 (w.notes.set t (M.next g c r.1 r.2))) :
    Sound M ok Q I (step S M w turn) := by
  cases turn with
  | spawn job =>
    cases hs : S.enter job w.shared with
    | none =>
      simp only [Crew.step, hs]
      exact h
    | some s =>
      simp only [Crew.step, hs]
      refine ⟨?_, fun x hx => ?_⟩
      · simp only [notes, List.map_append, List.map_cons, List.map_nil]
        exact hspawn job s rfl hs
      · rcases List.mem_append.mp hx with hx | hx
        · exact h.allowed x hx
        · rw [List.mem_singleton.mp hx]
          exact hprog job
  | go t env =>
    rcases hp : w.threads[t]? with - | ⟨a | ⟨c, k⟩, g⟩
    · simp only [Crew.step, hp]
      exact h
    · simp only [Crew.step, hp]
      exact h
    · simp only [Crew.step, hp]
      have hc := h.allowed _ (List.mem_of_getElem? hp)
      refine ⟨?_, fun x hx => ?_⟩
      · simp only [notes, List.map_set]
        exact hcall t env c k g rfl hp hc.1
      · rcases List.mem_or_eq_of_mem_set hx with hx | rfl
        · exact h.allowed x hx
        · exact hc.2 _ _

/-- The rule of the crew. -/
theorem Sound.step (h : Sound M ok Q I w) (turn : Turn E J)
    (hprog : ∀ job, Allowed M ok (S.program job) (fun _ => Q) (M.start job))
    (hspawn : ∀ job s, turn = .spawn job → S.enter job w.shared = some s →
      I s (w.notes ++ [M.start job]))
    (hcall : ∀ (t : Nat) (env : E) {β : Type} (c : C β) (g : G), turn = .go t env →
      w.notes[t]? = some g → ok g c →
      let r := S.answer env c w.shared
      I r.2 (w.notes.set t (M.next g c r.1 r.2))) :
    Sound M ok Q I (step S M w turn) := by
  refine h.turn turn hprog hspawn fun t env β c k g hturn hp hc => hcall t env c g hturn ?_ hc
  rw [notes, List.getElem?_map, hp]
  rfl

theorem sound_initial {s : σ} (h : I s []) : Sound M ok Q I (initial s) where
  inv := h
  allowed x hx := by cases hx

/-- A thread that makes all its calls undisturbed has evaluated its program. -/
theorem run_go_eval (env : E) {t : Nat} {g : G} (p : Prog C Unit) (w : Crew C σ G)
    (hp : w.threads[t]? = some ⟨p, g⟩) :
    ∃ n, (run (step S M) w (List.replicate n (.go t env))).shared =
      (Prog.eval (S.answer env) p w.shared).2 := by
  induction p generalizing w g with
  | ret a => exact ⟨0, rfl⟩
  | call c k ih =>
    obtain ⟨ht, -⟩ := List.getElem?_eq_some_iff.mp hp
    have hstep : step S M w (.go t env) = ⟨(S.answer env c w.shared).2, w.threads.set t
        ⟨k (S.answer env c w.shared).1,
          M.next g c (S.answer env c w.shared).1 (S.answer env c w.shared).2⟩⟩ := by
      simp only [step, hp]
    obtain ⟨n, hn⟩ := ih (S.answer env c w.shared).1 (step S M w (.go t env)) (by
      rw [hstep]
      exact List.getElem?_set_self ht)
    refine ⟨n + 1, ?_⟩
    rw [List.replicate_succ, run_cons, hn, hstep]
    rfl

end Crew

/-! ## Sums -/

variable {α : Type*} {f : α → Nat} {l : List α} {i : Nat} {a b : α}

/-- A sum over a list changes by what changes in the one entry. -/
theorem sum_map_set (h : l[i]? = some a) :
    ((l.set i b).map f).sum + f a = (l.map f).sum + f b := by
  induction l generalizing i with
  | nil => cases h
  | cons x l ih =>
    cases i with
    | zero =>
      obtain rfl := Option.some.inj h
      simp only [List.set_cons_zero, List.map_cons, List.sum_cons]
      omega
    | succ i =>
      have hi := ih h
      simp only [List.set_cons_succ, List.map_cons, List.sum_cons]
      omega

theorem le_sum_map (f : α → Nat) (h : l[i]? = some a) : f a ≤ (l.map f).sum :=
  List.single_le_sum (by simp) _ (List.mem_map_of_mem (List.mem_of_getElem? h))

end Claudear.Machine
