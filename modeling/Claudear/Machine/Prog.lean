import Claudear.Machine.Run
import Mathlib.Logic.Function.Basic

/-!
# Programs over atomic calls

A `Prog C α` is a program that makes calls of `C` one at a time and may do
anything with an answer. A monitor watches one run of a program and keeps a note
of what was called and answered; `Allowed` says that every call the program may
make is in order by the note at that time, whatever the answers are. It is a
weakest precondition: `Q` is about the result and the note at the end.

A `Pool` runs any number of such programs on a shared state, one call at a time
in any order. `Pool.Sound` is the rule for an invariant that ties the notes of
all threads to the shared state: it is enough to look at one call, made in
order, at a time.
-/

namespace Claudear.Machine

universe u

inductive Prog (C : Type → Type u) (α : Type) : Type (max 1 u) where
  | ret (a : α)
  | call {β : Type} (c : C β) (k : β → Prog C α)

namespace Prog

variable {C : Type → Type u} {α β γ ε σ G : Type}

def bind : Prog C α → (α → Prog C β) → Prog C β
  | ret a, f => f a
  | call c k, f => call c fun b => (k b).bind f

instance : Monad (Prog C) where
  pure := ret
  bind := bind

def perform (c : C α) : Prog C α := call c ret

end Prog

/-- What a thread that runs a job has seen: `next` is told the call, its answer and the state after
it. -/
structure Monitor (C : Type → Type u) (σ : Type) (J : Type*) (G : Type) where
  idle : G
  start : J → G
  next : {β : Type} → G → C β → β → σ → G

/-! ## Allowed programs -/

section Allowed

variable {C : Type → Type u} {α β γ ε σ G : Type} {J : Type*} (M : Monitor C σ J G)
  (ok : {β : Type} → G → C β → Prop)

def Allowed : Prog C α → (α → G → Prop) → G → Prop
  | .ret a, Q, g => Q a g
  | .call c k, Q, g => ok g c ∧ ∀ b s, Allowed (k b) Q (M.next g c b s)

variable {M} {ok} {Q Q' : α → G → Prop} {R : β → G → Prop} {g : G}

theorem allowed_pure {a : α} (h : Q a g) : Allowed M ok (pure a) Q g := h

theorem allowed_perform {c : C α} (hc : ok g c) (h : ∀ a s, Q a (M.next g c a s)) :
    Allowed M ok (.perform c) Q g := ⟨hc, h⟩

theorem Allowed.mono {p : Prog C α} (h : Allowed M ok p Q g) (hQ : ∀ a g, Q a g → Q' a g) :
    Allowed M ok p Q' g := by
  induction p generalizing g with
  | ret a => exact hQ a g h
  | call c k ih => exact ⟨h.1, fun b s => ih b (h.2 b s)⟩

theorem Allowed.bind {p : Prog C α} {f : α → Prog C β} (h : Allowed M ok p Q g)
    (hf : ∀ a g, Q a g → Allowed M ok (f a) R g) : Allowed M ok (p >>= f) R g := by
  induction p generalizing g with
  | ret a => exact hf a g h
  | call c k ih => exact ⟨h.1, fun b s => ih b (h.2 b s)⟩

/-- The rule for a program that ends early with an error. -/
theorem Allowed.tryBind {p : ExceptT ε (Prog C) α} {f : α → ExceptT ε (Prog C) β}
    {Q : Except ε α → G → Prop} {R : Except ε β → G → Prop} (h : Allowed M ok p.run Q g)
    (hok : ∀ a g, Q (.ok a) g → Allowed M ok (f a).run R g)
    (herr : ∀ e g, Q (.error e) g → R (.error e) g) : Allowed M ok (p >>= f).run R g := by
  refine Allowed.bind h fun r g hr => ?_
  cases r with
  | ok a => exact hok a g hr
  | error e => exact herr e g hr

/-- The rule for a program that cannot fail. -/
theorem Allowed.lift {p : Prog C α} {f : α → ExceptT ε (Prog C) β} {R : Except ε β → G → Prop}
    (h : Allowed M ok p Q g) (hf : ∀ a g, Q a g → Allowed M ok (f a).run R g) :
    Allowed M ok (ExceptT.lift p >>= f).run R g := by
  refine Allowed.bind (h.bind (R := fun r g => ∃ a, r = .ok a ∧ Q a g) fun a _ hg => ⟨a, rfl, hg⟩) ?_
  rintro _ g ⟨a, rfl, hg⟩
  exact hf a g hg

/-- The rule for a call that may fail. -/
theorem allowed_tryPerform {c : C (Except ε α)} {f : α → ExceptT ε (Prog C) β}
    {Q : Except ε β → G → Prop} (hc : ok g c)
    (hok : ∀ a s, Allowed M ok (f a).run Q (M.next g c (.ok a) s))
    (herr : ∀ e s, Q (.error e) (M.next g c (.error e) s)) :
    Allowed M ok (ExceptT.mk (.perform c) >>= f).run Q g := by
  refine ⟨hc, fun r s => ?_⟩
  cases r with
  | ok a => exact hok a s
  | error e => exact herr e s

theorem allowed_call {c : C α} {f : α → Prog C β} {Q : β → G → Prop} (hc : ok g c)
    (h : ∀ a s, Allowed M ok (f a) Q (M.next g c a s)) : Allowed M ok (.perform c >>= f) Q g := ⟨hc, h⟩

/-- The rule for a call that does not fail. -/
theorem allowed_lift {c : C α} {f : α → ExceptT ε (Prog C) β} {Q : Except ε β → G → Prop}
    (hc : ok g c) (h : ∀ a s, Allowed M ok (f a).run Q (M.next g c a s)) :
    Allowed M ok (ExceptT.lift (.perform c) >>= f).run Q g := ⟨hc, h⟩

/-- The rule for a loop. -/
theorem allowed_forM {L : G → Prop} {f : β → Prog C PUnit} {l : List β}
    (hf : ∀ b ∈ l, ∀ g, L g → Allowed M ok (f b) (fun _ => L) g) (hg : L g) :
    Allowed M ok (l.forM f) (fun _ => L) g := by
  induction l generalizing g with
  | nil => exact hg
  | cons b l ih =>
    obtain ⟨hb, hl⟩ := List.forall_mem_cons.mp hf
    exact (hb g hg).bind fun _ g hg => ih hl hg

/-- The rule for a loop with an accumulator. -/
theorem allowed_foldlM {L : α → G → Prop} {f : α → β → Prog C α} {l : List β} {a : α}
    (hf : ∀ b ∈ l, ∀ a g, L a g → Allowed M ok (f a b) L g) (h : L a g) :
    Allowed M ok (l.foldlM f a) L g := by
  induction l generalizing a g with
  | nil => exact h
  | cons b l ih =>
    obtain ⟨hb, hl⟩ := List.forall_mem_cons.mp hf
    rw [List.foldlM_cons]
    exact (hb a g h).bind fun a g hg => ih hl hg

/-- The rule for a loop that the first error ends. -/
theorem allowed_tryForM {Q : Except ε PUnit → G → Prop} {f : β → ExceptT ε (Prog C) PUnit}
    {l : List β} (hf : ∀ b ∈ l, ∀ g, Q (.ok ()) g → Allowed M ok (f b).run Q g)
    (hg : Q (.ok ()) g) : Allowed M ok (l.forM f).run Q g := by
  induction l generalizing g with
  | nil => exact hg
  | cons b l ih =>
    obtain ⟨hb, hl⟩ := List.forall_mem_cons.mp hf
    exact (hb g hg).tryBind (fun _ g hg => ih hl hg) fun e g he => he

/-- `P` of a result, nothing of an error. -/
def OnOk (P : α → G → Prop) : Except ε α → G → Prop
  | .ok a, g => P a g
  | .error _, _ => True

/-- The rule for a fold that the first error ends: `P` is about the elements done. -/
theorem allowed_tryFoldlM {P : List β → α → G → Prop} {f : α → β → ExceptT ε (Prog C) α} {l : List β}
    {a : α}
    (hf : ∀ pre b post, l = pre ++ b :: post → ∀ a g, P pre a g →
      Allowed M ok (f a b).run (OnOk (P (pre ++ [b]))) g)
    (h : P [] a g) : Allowed M ok (l.foldlM f a).run (OnOk (P l)) g := by
  suffices hrec : ∀ post pre, l = pre ++ post → ∀ a g, P pre a g →
      Allowed M ok (post.foldlM f a).run (OnOk (P l)) g from hrec l [] rfl a g h
  intro post
  induction post with
  | nil =>
    intro pre hl a g hg
    rw [List.append_nil] at hl
    subst hl
    exact hg
  | cons b post ih =>
    intro pre hl a g hg
    rw [List.foldlM_cons]
    refine (hf pre b post hl a g hg).tryBind (fun a g hg => ?_) fun e g _ => trivial
    exact ih (pre ++ [b]) (by rw [hl, List.append_assoc, List.singleton_append]) a g hg

/-- A program whose calls are in order whatever was seen before. -/
def Quiet (ok : {β : Type} → G → C β → Prop) : Prog C α → Prop
  | .ret _ => True
  | .call c k => (∀ g, ok g c) ∧ ∀ b, Quiet ok (k b)

/-- What every call and answer leaves true. -/
def Stable (M : Monitor C σ J G) (L : G → Prop) : Prop :=
  ∀ ⦃β : Type⦄ (g : G) (c : C β) (b : β) (s : σ), L g → L (M.next g c b s)

theorem Quiet.imp {G' : Type} {ok' : {β : Type} → G' → C β → Prop} {p : Prog C α} (h : Quiet ok p)
    (hok : ∀ {β : Type} (c : C β), (∀ g, ok g c) → ∀ g, ok' g c) : Quiet ok' p := by
  induction p with
  | ret a => exact trivial
  | call c k ih => exact ⟨hok c h.1, fun b => ih b (h.2 b)⟩

theorem Quiet.bind {p : Prog C α} {f : α → Prog C β} (h : Quiet ok p) (hf : ∀ a, Quiet ok (f a)) :
    Quiet ok (p >>= f) := by
  induction p with
  | ret a => exact hf a
  | call c k ih => exact ⟨h.1, fun b => ih b (h.2 b)⟩

theorem Quiet.tryBind {p : ExceptT ε (Prog C) α} {f : α → ExceptT ε (Prog C) β} (h : Quiet ok p.run)
    (hf : ∀ a, Quiet ok (f a).run) : Quiet ok (p >>= f).run := by
  refine Quiet.bind h fun r => ?_
  cases r with
  | ok a => exact hf a
  | error e => exact trivial

theorem Quiet.tryForM {f : β → ExceptT ε (Prog C) PUnit} {l : List β}
    (h : ∀ b ∈ l, Quiet ok (f b).run) : Quiet ok (l.forM f).run := by
  induction l with
  | nil => exact trivial
  | cons b l ih =>
    obtain ⟨hb, hl⟩ := List.forall_mem_cons.mp h
    exact Quiet.tryBind hb fun _ => ih hl

/-- What every answer leaves true holds at the end of an allowed program as well. -/
theorem Allowed.stable {L : G → Prop} {p : Prog C α} (h : Allowed M ok p Q g) (hL : Stable M L)
    (hg : L g) : Allowed M ok p (fun a g => Q a g ∧ L g) g := by
  induction p generalizing g with
  | ret a => exact ⟨h, hg⟩
  | call c k ih => exact ⟨h.1, fun b s => ih b (h.2 b s) (hL g c b s hg)⟩

theorem Quiet.allowed {L : G → Prop} {p : Prog C α} (h : Quiet ok p) (hL : Stable M L) (hg : L g) :
    Allowed M ok p (fun _ => L) g := by
  induction p generalizing g with
  | ret a => exact hg
  | call c k ih => exact ⟨h.1 g, fun b s => ih b (h.2 b) (hL g c b s hg)⟩

end Allowed

/-! ## Loops that may break -/

/-- The loop `for a in l` whose body says whether to go on. -/
def forWhile {m : Type → Type u} [Monad m] {α : Type} (f : α → m Bool) : List α → m Unit
  | [] => pure ()
  | a :: l => do
    if ← f a then forWhile f l

section ForWhile

variable {C : Type → Type u} {α ε σ G : Type} {J : Type*} {M : Monitor C σ J G}
  {ok : {β : Type} → G → C β → Prop} {l : List α} {g : G}

/-- The rule for a loop that an error or a `break` ends. -/
theorem allowed_forWhile {L : G → Prop} {f : α → Prog C Bool}
    (hf : ∀ a ∈ l, ∀ g, L g → Allowed M ok (f a) (fun _ => L) g) (hg : L g) :
    Allowed M ok (forWhile f l) (fun _ => L) g := by
  induction l generalizing g with
  | nil => exact hg
  | cons a l ih =>
    obtain ⟨ha, hl⟩ := List.forall_mem_cons.mp hf
    refine (ha g hg).bind fun b g hg => ?_
    cases b with
    | true => exact ih hl hg
    | false => exact hg

theorem allowed_tryForWhile {L : G → Prop} {f : α → ExceptT ε (Prog C) Bool}
    (hf : ∀ a ∈ l, ∀ g, L g → Allowed M ok (f a).run (fun _ => L) g) (hg : L g) :
    Allowed M ok (forWhile f l).run (fun _ => L) g := by
  induction l generalizing g with
  | nil => exact hg
  | cons a l ih =>
    obtain ⟨ha, hl⟩ := List.forall_mem_cons.mp hf
    refine (ha g hg).tryBind (fun b g hg => ?_) fun e g hg => hg
    cases b with
    | true => exact ih hl hg
    | false => exact hg

end ForWhile

/-! ## Pools -/

/-- What the calls do, given what the environment `E` decides; the programs `J` a thread may run;
and the calls `O` of others on the shared state. -/
structure Pool (C : Type → Type u) (σ : Type) (E J O : Type*) where
  answer : {β : Type} → E → C β → σ → β × σ
  program : J → Prog C Unit
  outside : σ → O → σ

inductive Move (E J O : Type*) where
  | start (t : Nat) (job : J)
  | go (t : Nat) (env : E)
  | stop (t : Nat)
  | outside (op : O)

/-- The thread that a move is of. -/
def Move.thread {E J O : Type*} : Move E J O → Option Nat
  | .start t _ | .go t _ | .stop t => some t
  | .outside _ => none

structure World (C : Type → Type u) (σ G : Type) where
  shared : σ
  prog : Nat → Prog C Unit
  note : Nat → G

namespace Pool

variable {C : Type → Type u} {σ G : Type} {E J O : Type*} (P : Pool C σ E J O) (M : Monitor C σ J G)

def initial (s : σ) : World C σ G := ⟨s, fun _ => .ret (), fun _ => M.idle⟩

/-- The note of a thread that has finished is dropped. -/
def settle : Prog C Unit → G → G
  | .ret _, _ => M.idle
  | .call .., g => g

def advance (w : World C σ G) (t : Nat) (p : Prog C Unit) (g : G) (s : σ) : World C σ G where
  shared := s
  prog := Function.update w.prog t p
  note := Function.update w.note t (settle M p g)

/-- One move: an idle thread starts a program, a thread makes its next call, a thread stops in the
middle, or somebody else changes the shared state. -/
def step (w : World C σ G) : Move E J O → World C σ G
  | .start t job =>
    match w.prog t with
    | .ret _ => advance M w t (P.program job) (M.start job) w.shared
    | .call .. => w
  | .go t env =>
    match w.prog t with
    | .ret _ => w
    | .call c k =>
      let r := P.answer env c w.shared
      advance M w t (k r.1) (M.next (w.note t) c r.1 r.2) r.2
  | .stop t => advance M w t (.ret ()) M.idle w.shared
  | .outside op => { w with shared := P.outside w.shared op }

/-- What `f` makes of the call of a move and its answer, with the thread that made it. -/
def observe {γ : Type*} (f : {β : Type} → C β → β → Option γ) (w : World C σ G) :
    Move E J O → Option (Nat × γ)
  | .go t env =>
    match w.prog t with
    | .ret _ => none
    | .call c _ => (f c (P.answer env c w.shared).1).map (t, ·)
  | _ => none

theorem observe_eq_some {γ : Type*} {f : {β : Type} → C β → β → Option γ} {P : Pool C σ E J O}
    {w : World C σ G} {move : Move E J O} {t : Nat} {x : γ} (h : observe P f w move = some (t, x)) :
    ∃ (env : E) (β : Type) (c : C β) (k : β → Prog C Unit), move = .go t env ∧
      w.prog t = .call c k ∧ f c (P.answer env c w.shared).1 = some x := by
  cases move with
  | go u env =>
    simp only [observe] at h
    cases hp : w.prog u with
    | ret a =>
      rw [hp] at h
      cases h
    | call c k =>
      rw [hp] at h
      obtain ⟨y, hy, he⟩ := Option.map_eq_some_iff.mp h
      cases he
      exact ⟨env, _, c, k, rfl, hp, hy⟩
  | start t job => cases h
  | stop t => cases h
  | outside op => cases h

/-- The invariant holds, and what every thread still has to do is allowed. -/
structure Sound (ok : {β : Type} → G → C β → Prop) (I : σ → (Nat → G) → Prop) (w : World C σ G) :
    Prop where
  inv : I w.shared w.note
  allowed : ∀ t, Allowed M ok (w.prog t) (fun _ _ => True) (w.note t)

variable {P M} {ok : {β : Type} → G → C β → Prop} {I : σ → (Nat → G) → Prop} {w : World C σ G}

theorem Sound.call_ok (h : Sound M ok I w) {t : Nat} {β : Type} {c : C β} {k : β → Prog C Unit}
    (hp : w.prog t = .call c k) : ok (w.note t) c := by
  have hc := h.allowed t
  rw [hp] at hc
  exact hc.1

theorem Sound.advance (h : Sound M ok I w) {t : Nat} {p : Prog C Unit} {g : G} {s : σ}
    (hidle : ∀ n, I s n → I s (Function.update n t M.idle))
    (hI : I s (Function.update w.note t g)) (hp : Allowed M ok p (fun _ _ => True) g) :
    Sound M ok I (advance M w t p g s) where
  inv := by
    cases p with
    | ret a =>
      have := hidle _ hI
      rwa [Function.update_idem] at this
    | call c k => exact hI
  allowed u := by
    show Allowed M ok (Function.update w.prog t p u) _ (Function.update w.note t (settle M p g) u)
    by_cases hu : u = t
    · subst hu
      rw [Function.update_self, Function.update_self]
      cases p with
      | ret a => exact trivial
      | call c k => exact hp
    · rw [Function.update_of_ne hu, Function.update_of_ne hu]
      exact h.allowed u

/-- The rule of the pool. -/
theorem Sound.step (h : Sound M ok I w) (move : Move E J O)
    (hprog : ∀ job, Allowed M ok (P.program job) (fun _ _ => True) (M.start job))
    (hidle : ∀ s n t, I s n → I s (Function.update n t M.idle))
    (hstart : ∀ t job, move = .start t job → I w.shared (Function.update w.note t (M.start job)))
    (hcall : ∀ (t : Nat) (env : E) {β : Type} (c : C β) (k : β → Prog C Unit),
      move = .go t env → w.prog t = .call c k → ok (w.note t) c →
      let r := P.answer env c w.shared
      I r.2 (Function.update w.note t (M.next (w.note t) c r.1 r.2)))
    (houtside : ∀ op, move = .outside op → I (P.outside w.shared op) w.note) :
    Sound M ok I (step P M w move) := by
  cases move with
  | start t job =>
    cases hp : w.prog t with
    | ret a =>
      simp only [Pool.step, hp]
      exact h.advance (fun n => hidle _ n t) (hstart t job rfl) (hprog job)
    | call c k =>
      simp only [Pool.step, hp]
      exact h
  | go t env =>
    cases hp : w.prog t with
    | ret a =>
      simp only [Pool.step, hp]
      exact h
    | call c k =>
      simp only [Pool.step, hp]
      have hc := h.allowed t
      rw [hp] at hc
      exact h.advance (fun n => hidle _ n t) (hcall t env c k rfl hp hc.1) (hc.2 _ _)
  | stop t => exact h.advance (fun n => hidle _ n t) (hidle _ _ t h.inv) trivial
  | outside op => exact ⟨houtside op rfl, h.allowed⟩

/-- A move leaves the notes of the other threads. -/
theorem note_step_of_ne {move : Move E J O} {t : Nat} (h : move.thread ≠ some t) :
    (step P M w move).note t = w.note t := by
  have hadvance {u : Nat} {p : Prog C Unit} {g : G} {s : σ} (hu : u ≠ t) :
      (advance M w u p g s).note t = w.note t := Function.update_of_ne hu.symm _ _
  cases move with
  | start u job =>
    have hu : u ≠ t := fun he => h (congrArg some he)
    simp only [Pool.step]
    split
    · exact hadvance hu
    · rfl
  | go u env =>
    have hu : u ≠ t := fun he => h (congrArg some he)
    simp only [Pool.step]
    split
    · rfl
    · exact hadvance hu
  | stop u => exact hadvance fun he => h (congrArg some he)
  | outside op => rfl

theorem note_run_of_ne {l : List (Move E J O)} {t : Nat} (h : ∀ move ∈ l, move.thread ≠ some t) :
    (run (step P M) w l).note t = w.note t := by
  induction l generalizing w with
  | nil => rfl
  | cons move l ih =>
    obtain ⟨hmove, hl⟩ := List.forall_mem_cons.mp h
    exact (ih hl).trans (note_step_of_ne hmove)

/-- The rule for what one move does to the shared state and what `f` makes of it. -/
theorem step_observe {γ : Type*} {f : {β : Type} → C β → β → Option γ} {R : σ → Option (Nat × γ) → Prop}
    {move : Move E J O} (h : R w.shared none)
    (hcall : ∀ (t : Nat) (env : E) {β : Type} (c : C β) (k : β → Prog C Unit),
      move = .go t env → w.prog t = .call c k →
      let r := P.answer env c w.shared
      R r.2 ((f c r.1).map (t, ·)))
    (houtside : ∀ op, move = .outside op → R (P.outside w.shared op) none) :
    R (step P M w move).shared (observe P f w move) := by
  cases move with
  | start t job =>
    simp only [Pool.step, observe]
    cases w.prog t <;> exact h
  | go t env =>
    cases hp : w.prog t with
    | ret a =>
      simp only [Pool.step, observe, hp]
      exact h
    | call c k =>
      simp only [Pool.step, observe, hp]
      exact hcall t env c k rfl hp
  | stop t => exact h
  | outside op => exact houtside op rfl

end Pool

/-! ## Undisturbed runs -/

namespace Prog

variable {C : Type → Type u} {σ α β ε : Type}

/-- What a program makes of the state when nobody else changes it. -/
def eval (answer : {β : Type} → C β → σ → β × σ) : Prog C α → σ → α × σ
  | ret a, s => (a, s)
  | call c k, s => eval answer (k (answer c s).1) (answer c s).2

variable {answer : {β : Type} → C β → σ → β × σ} {s : σ}

theorem eval_bind (p : Prog C α) (f : α → Prog C β) :
    eval answer (p >>= f) s = eval answer (f (eval answer p s).1) (eval answer p s).2 := by
  induction p generalizing s with
  | ret a => rfl
  | call c k ih => exact ih (answer c s).1

theorem eval_perform (c : C α) : eval answer (.perform c) s = answer c s := rfl

theorem eval_tryBind_ok {p : ExceptT ε (Prog C) α} {f : α → ExceptT ε (Prog C) β} {a : α} {s' : σ}
    (h : eval answer p.run s = (.ok a, s')) :
    eval answer (p >>= f).run s = eval answer (f a).run s' := by
  refine (eval_bind p.run _).trans ?_
  rw [h]
  rfl

/-- `Q` holds of the result and the state an undisturbed run ends with. -/
def Ends (answer : {β : Type} → C β → σ → β × σ) (p : Prog C α) (Q : α → σ → Prop) (s : σ) : Prop :=
  Q (eval answer p s).1 (eval answer p s).2

variable {Q Q' : α → σ → Prop} {R : β → σ → Prop}

theorem Ends.mono {p : Prog C α} (h : Ends answer p Q s) (hQ : ∀ a s, Q a s → Q' a s) :
    Ends answer p Q' s := hQ _ _ h

/-- What every call leaves true holds at the end of any program. -/
theorem ends_always {L : σ → Prop} (hL : ∀ {β : Type} (c : C β) (s : σ), L s → L (answer c s).2)
    (p : Prog C α) (hs : L s) : Ends answer p (fun _ => L) s := by
  induction p generalizing s with
  | ret a => exact hs
  | call c k ih => exact ih _ (hL c s hs)

theorem Ends.bind {p : Prog C α} {f : α → Prog C β} (h : Ends answer p Q s)
    (hf : ∀ a s, Q a s → Ends answer (f a) R s) : Ends answer (p >>= f) R s := by
  have hr := hf _ _ h
  unfold Ends at hr ⊢
  rwa [eval_bind]

theorem Ends.tryBind {p : ExceptT ε (Prog C) α} {f : α → ExceptT ε (Prog C) β}
    {Q : Except ε α → σ → Prop} {R : Except ε β → σ → Prop} (h : Ends answer p.run Q s)
    (hok : ∀ a s, Q (.ok a) s → Ends answer (f a).run R s)
    (herr : ∀ e s, Q (.error e) s → R (.error e) s) : Ends answer (p >>= f).run R s := by
  refine Ends.bind h fun r s hr => ?_
  cases r with
  | ok a => exact hok a s hr
  | error e => exact herr e s hr

theorem Ends.lift {p : Prog C α} (h : Ends answer p Q s) :
    Ends answer (ExceptT.lift p : ExceptT ε (Prog C) α).run (fun r s => ∃ a, r = .ok a ∧ Q a s) s :=
  Ends.bind h fun a _ ha => ⟨a, rfl, ha⟩

theorem ends_call {c : C α} {f : α → Prog C β}
    (h : Ends answer (f (answer c s).1) R (answer c s).2) : Ends answer (.perform c >>= f) R s := h

/-- The rule for a call that does not fail. -/
theorem ends_lift {c : C α} {f : α → ExceptT ε (Prog C) β} {R : Except ε β → σ → Prop}
    (h : Ends answer (f (answer c s).1).run R (answer c s).2) :
    Ends answer (ExceptT.lift (.perform c) >>= f).run R s := h

/-- The rule for a call that may fail. -/
theorem ends_tryCall {c : C (Except ε α)} {f : α → ExceptT ε (Prog C) β} {R : Except ε β → σ → Prop}
    (hok : ∀ a, (answer c s).1 = .ok a → Ends answer (f a).run R (answer c s).2)
    (herr : ∀ e, (answer c s).1 = .error e → R (.error e) (answer c s).2) :
    Ends answer (ExceptT.mk (.perform c) >>= f).run R s := by
  refine Ends.bind (Q := fun r s' => r = (answer c s).1 ∧ s' = (answer c s).2) ⟨rfl, rfl⟩ ?_
  rintro r s' ⟨hr, rfl⟩
  cases r with
  | ok a => exact hok a hr.symm
  | error e => exact herr e hr.symm

theorem ends_forM {L : σ → Prop} {f : β → Prog C PUnit} {l : List β}
    (hf : ∀ b ∈ l, ∀ s, L s → Ends answer (f b) (fun _ => L) s) (hs : L s) :
    Ends answer (l.forM f) (fun _ => L) s := by
  induction l generalizing s with
  | nil => exact hs
  | cons b l ih =>
    obtain ⟨hb, hl⟩ := List.forall_mem_cons.mp hf
    exact (hb s hs).bind fun _ s hs => ih hl hs

/-- The rule for a fold: `P` is about the elements done. -/
theorem ends_foldlM {P : List β → α → σ → Prop} {f : α → β → Prog C α} {l : List β} {a : α}
    (hf : ∀ pre, ∀ b ∈ l, ∀ a s, P pre a s → Ends answer (f a b) (P (pre ++ [b])) s) (h : P [] a s) :
    Ends answer (l.foldlM f a) (P l) s := by
  suffices hrec : ∀ post pre, l = pre ++ post → ∀ a s, P pre a s →
      Ends answer (post.foldlM f a) (P l) s from hrec l [] rfl a s h
  intro post
  induction post with
  | nil =>
    intro pre hl a s hs
    rw [List.append_nil] at hl
    subst hl
    exact hs
  | cons b post ih =>
    intro pre hl a s hs
    rw [List.foldlM_cons]
    have hb : b ∈ l := hl ▸ List.mem_append_right _ List.mem_cons_self
    refine (hf pre b hb a s hs).bind fun a s hs => ?_
    exact ih (pre ++ [b]) (by rw [hl, List.append_assoc, List.singleton_append]) a s hs

/-- The rule for a loop that goes on to its end. -/
theorem ends_tryForWhile {P : List α → σ → Prop} {f : α → ExceptT ε (Prog C) Bool} {l : List α}
    (hf : ∀ pre, ∀ a ∈ l, ∀ s, P pre s →
      Ends answer (f a).run (fun r s => r = .ok true ∧ P (pre ++ [a]) s) s)
    (h : P [] s) : Ends answer (forWhile f l).run (fun r s => r = .ok () ∧ P l s) s := by
  suffices hrec : ∀ post pre, l = pre ++ post → ∀ s, P pre s →
      Ends answer (forWhile f post).run (fun r s => r = .ok () ∧ P l s) s from hrec l [] rfl s h
  intro post
  induction post with
  | nil =>
    intro pre hl s hs
    rw [List.append_nil] at hl
    subst hl
    exact ⟨rfl, hs⟩
  | cons a post ih =>
    intro pre hl s hs
    have ha : a ∈ l := hl ▸ List.mem_append_right _ List.mem_cons_self
    refine (hf pre a ha s hs).tryBind ?_ ?_
    · rintro b s ⟨hb, hs⟩
      cases hb
      exact ih (pre ++ [a]) (by rw [hl, List.append_assoc, List.singleton_append]) s hs
    · rintro e s ⟨hb, -⟩
      cases hb

end Prog

/-- What every call of a program leaves true holds at its end. -/
theorem Quiet.ends {C : Type → Type u} {σ α G : Type} {answer : {β : Type} → C β → σ → β × σ} {s : σ}
    {ok : {β : Type} → G → C β → Prop} {L : σ → Prop} {p : Prog C α} (h : Quiet ok p)
    (g : G) (hL : ∀ {β : Type} (c : C β) (s : σ), ok g c → L s → L (answer c s).2) (hs : L s) :
    Prog.Ends answer p (fun _ => L) s := by
  induction p generalizing s with
  | ret a => exact hs
  | call c k ih => exact ih _ (h.2 _) (hL c s (h.1 g) hs)

namespace Pool

variable {C : Type → Type u} {σ G : Type} {E J O : Type*} {P : Pool C σ E J O} {M : Monitor C σ J G}

/-- A thread that makes all its calls undisturbed has evaluated its program. -/
theorem run_go_eval (env : E) (t : Nat) (p : Prog C Unit) (w : World C σ G) (hp : w.prog t = p) :
    ∃ n, (run (step P M) w (List.replicate n (.go t env))).shared =
        (Prog.eval (P.answer env) p w.shared).2 ∧
      (run (step P M) w (List.replicate n (.go t env))).prog t = .ret () := by
  induction p generalizing w with
  | ret a => exact ⟨0, rfl, hp⟩
  | call c k ih =>
    have hstep : step P M w (.go t env) = advance M w t (k (P.answer env c w.shared).1)
        (M.next (w.note t) c (P.answer env c w.shared).1 (P.answer env c w.shared).2)
        (P.answer env c w.shared).2 := by
      simp only [step, hp]
    obtain ⟨n, hs, hr⟩ := ih (P.answer env c w.shared).1 (step P M w (.go t env))
      (by rw [hstep]; exact Function.update_self _ _ _)
    refine ⟨n + 1, ?_, ?_⟩
    · rw [List.replicate_succ, run_cons, hs, hstep]
      rfl
    · rw [List.replicate_succ, run_cons, hr]

end Pool

end Claudear.Machine
