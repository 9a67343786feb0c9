import Claudear.Machine.Run
import Mathlib.Data.List.Sort

/-!
# The migration runner

`run_migrations` reads the recorded versions outside any transaction, sorts what
is not recorded, and applies each migration in an immediate transaction that
checks the record again. Any number of processes may do this on one database at
once; immediate transactions are serialised, so `apply` is one step.

A `Fault` makes a statement fail with an error of SQLite's. A failing statement
drops the transaction, and the database keeps the state it had.
-/

namespace Claudear.Storage.Migrator

open Claudear.Machine

structure Migration where
  version : Nat
  name : String
  sql : String
  deriving DecidableEq, Repr

/-- The `schema_migrations` table, empty before it is created, and the migrations whose SQL this
history of the database has committed, in order. -/
structure Database where
  recorded : List (Nat × String)
  executed : List Migration
  deriving DecidableEq, Repr

inductive Stage where
  | create | query | read | start | check | exec | record | commit
  deriving DecidableEq, Repr

structure Fault where
  stage : Stage
  error : String
  deriving DecidableEq, Repr

namespace Database

def versions (db : Database) : List Nat := db.recorded.map Prod.fst

/-- The migration's SQL and its record, committed together. -/
def commit (db : Database) (m : Migration) : Database :=
  ⟨db.recorded ++ [(m.version, m.name)], db.executed ++ [m]⟩

theorem mem_versions_commit {db : Database} {m : Migration} {v : Nat} :
    v ∈ (db.commit m).versions ↔ v ∈ db.versions ∨ v = m.version := by
  simp [versions, commit]

end Database

/-- A statement of the stage, with the message its failure is reported under. -/
def attempt (fault : Option Fault) (stage : Stage) (message : String) : Except String Unit :=
  match fault with
  | some f => if f.stage = stage then .error (message ++ ": " ++ f.error) else .ok ()
  | none => .ok ()

def appliedVersions (fault : Option Fault) (db : Database) : Except String (List Nat) := do
  attempt fault .query "Failed to query applied migrations"
  attempt fault .read "Failed to read applied migrations"
  return db.versions

def apply (fault : Option Fault) (m : Migration) (db : Database) : Except String Database := do
  attempt fault .start ("Failed to begin migration V" ++ toString m.version ++ "_" ++ m.name)
  attempt fault .check ("Failed to check whether V" ++ toString m.version ++ " is recorded")
  if m.version ∈ db.versions then return db
  else
    attempt fault .exec ("Migration V" ++ toString m.version ++ "_" ++ m.name ++ " failed")
    attempt fault .record ("Failed to record migration V" ++ toString m.version)
    attempt fault .commit ("Failed to commit migration V" ++ toString m.version)
    return db.commit m

/-- `applied.contains` and the sort by version. -/
def pending (migrations : List Migration) (applied : List Nat) : List Migration :=
  (migrations.filter fun m => m.version ∉ applied).insertionSort fun a b => a.version ≤ b.version

/-! ## Processes -/

/-- What a process has yet to do. -/
inductive Process where
  | create
  | query
  | applying (rest : List Migration)
  | done (result : Except String Unit)
  | crashed

structure State (ω : Type*) where
  db : Database
  process : ω → Process

inductive Step (ω : Type*) where
  /-- The next statement or transaction of a process, with the fault it meets. -/
  | advance (p : ω) (fault : Option Fault)
  | crash (p : ω)

variable {ω : Type*} [DecidableEq ω]

def State.move (s : State ω) (p : ω) (db : Database) (x : Process) : State ω :=
  ⟨db, Function.update s.process p x⟩

/-- The process `p` of `run_migrations` makes its next step. -/
def State.advance (migrations : List Migration) (s : State ω) (p : ω) (fault : Option Fault) :
    State ω :=
  match s.process p with
  | .create =>
    match attempt fault .create "Failed to create schema_migrations table" with
    | .ok () => s.move p s.db .query
    | .error e => s.move p s.db (.done (.error e))
  | .query =>
    match appliedVersions fault s.db with
    | .ok applied => s.move p s.db (.applying (pending migrations applied))
    | .error e => s.move p s.db (.done (.error e))
  | .applying [] => s.move p s.db (.done (.ok ()))
  | .applying (m :: rest) =>
    match apply fault m s.db with
    | .ok db => s.move p db (.applying rest)
    | .error e => s.move p s.db (.done (.error e))
  | .done _ | .crashed => s

def step (migrations : List Migration) (s : State ω) : Step ω → State ω
  | .advance p fault => s.advance migrations p fault
  | .crash p => s.move p s.db .crashed

/-- No process has started, on a database with these records. -/
def start (recorded : List (Nat × String)) : State ω := ⟨⟨recorded, []⟩, fun _ => .create⟩

/-! ## One transaction -/

theorem attempt_bind {α : Type} {fault : Option Fault} {stage : Stage} {message : String}
    {f : Unit → Except String α} {a : α} (h : (attempt fault stage message >>= f) = .ok a) :
    f () = .ok a := by
  cases ha : attempt fault stage message with
  | ok u => rwa [ha] at h
  | error e =>
    rw [ha] at h
    cases h

/-- A transaction that succeeds skips a recorded version and commits any other. -/
theorem apply_ok {fault : Option Fault} {m : Migration} {db db' : Database}
    (h : apply fault m db = .ok db') :
    m.version ∈ db.versions ∧ db' = db ∨ m.version ∉ db.versions ∧ db' = db.commit m := by
  unfold apply at h
  have h := attempt_bind (attempt_bind h)
  split at h
  · exact .inl ⟨‹_›, (Except.ok.inj h).symm⟩
  · have h : Except.ok (db.commit m) = Except.ok db' := attempt_bind (attempt_bind (attempt_bind h))
    exact .inr ⟨‹_›, (Except.ok.inj h).symm⟩

theorem mem_pending {migrations : List Migration} {applied : List Nat} {m : Migration} :
    m ∈ pending migrations applied ↔ m ∈ migrations ∧ m.version ∉ applied := by
  simp [pending]

theorem pending_sorted (migrations : List Migration) (applied : List Nat) :
    (pending migrations applied).Pairwise fun a b => a.version ≤ b.version := by
  have : Std.Total fun a b : Migration => a.version ≤ b.version := ⟨fun a b => Nat.le_total ..⟩
  have : IsTrans Migration fun a b => a.version ≤ b.version := ⟨fun _ _ _ => Nat.le_trans⟩
  exact List.pairwise_insertionSort ..

theorem appliedVersions_ok {fault : Option Fault} {db : Database} {applied : List Nat}
    (h : appliedVersions fault db = .ok applied) : applied = db.versions := by
  unfold appliedVersions at h
  have h : Except.ok db.versions = Except.ok applied := attempt_bind (attempt_bind h)
  exact (Except.ok.inj h).symm

/-! ## The invariant -/

/-- The records are those the database started with and those of the executed migrations, each
executed once, and never one before a lower version. -/
structure Recorded (migrations : List Migration) (recorded : List (Nat × String)) (db : Database) :
    Prop where
  records : db.recorded = recorded ++ db.executed.map fun m => (m.version, m.name)
  once : (db.executed.map (·.version)).Nodup
  fresh : ∀ m ∈ db.executed, m ∈ migrations ∧ m.version ∉ recorded.map Prod.fst
  inOrder : ∀ m ∈ migrations, ∀ m' ∈ migrations, m'.version ≤ m.version →
    m.version ∉ recorded.map Prod.fst → m.version ∈ db.versions → m'.version ∈ db.versions

/-- A process with `rest` still to apply goes through it in order, and has nothing else to do. -/
structure Ahead (migrations : List Migration) (db : Database) (rest : List Migration) : Prop where
  sorted : rest.Pairwise fun a b => a.version ≤ b.version
  mem : ∀ m ∈ rest, m ∈ migrations
  covers : ∀ m ∈ migrations, m.version ∈ db.versions ∨ m ∈ rest

structure Inv (migrations : List Migration) (recorded : List (Nat × String)) (s : State ω) : Prop where
  db : Recorded migrations recorded s.db
  ahead : ∀ p rest, s.process p = .applying rest → Ahead migrations s.db rest
  finished : ∀ p, s.process p = .done (.ok ()) → ∀ m ∈ migrations, m.version ∈ s.db.versions

variable {migrations : List Migration} {recorded : List (Nat × String)} {s : State ω} {db : Database}
  {m : Migration} {rest : List Migration}

/-- Everything below the next migration is recorded. -/
theorem Ahead.below (h : Ahead migrations db (m :: rest)) {m' : Migration} (hm' : m' ∈ migrations)
    (hlt : m'.version < m.version) : m'.version ∈ db.versions := by
  rcases h.covers m' hm' with hv | hmem
  · exact hv
  · rcases List.mem_cons.mp hmem with rfl | hmem
    · omega
    · have := (List.pairwise_cons.mp h.sorted).1 m' hmem
      omega

/-- The rest of the list, once its head is recorded. -/
theorem Ahead.tail (h : Ahead migrations db (m :: rest)) {db' : Database}
    (hsub : ∀ v ∈ db.versions, v ∈ db'.versions) (hm : m.version ∈ db'.versions) :
    Ahead migrations db' rest where
  sorted := (List.pairwise_cons.mp h.sorted).2
  mem m' hm' := h.mem m' (List.mem_cons_of_mem _ hm')
  covers m' hm' := by
    rcases h.covers m' hm' with hv | hmem
    · exact .inl (hsub _ hv)
    · rcases List.mem_cons.mp hmem with rfl | hmem
      · exact .inl hm
      · exact .inr hmem

theorem Recorded.versions (h : Recorded migrations recorded db) {v : Nat} :
    v ∈ db.versions ↔ v ∈ recorded.map Prod.fst ∨ ∃ m ∈ db.executed, m.version = v := by
  simp [Database.versions, h.records]

/-- The commit of the next migration of a process, when no one has recorded it. -/
theorem Recorded.commit (h : Recorded migrations recorded db) (ha : Ahead migrations db (m :: rest))
    (hm : m.version ∉ db.versions) : Recorded migrations recorded (db.commit m) where
  records := by simp [Database.commit, h.records]
  once := by
    simp only [Database.commit, List.map_append, List.map_cons, List.map_nil]
    refine List.nodup_append.mpr ⟨h.once, List.nodup_singleton _, ?_⟩
    rintro v hv w hw rfl
    obtain ⟨m', hm', rfl⟩ := List.mem_map.mp hv
    rw [List.mem_singleton] at hw
    exact hm (h.versions.mpr (.inr ⟨m', hm', hw⟩))
  fresh m' hm' := by
    rcases List.mem_append.mp hm' with hm' | hm'
    · exact h.fresh m' hm'
    · obtain rfl := List.mem_singleton.mp hm'
      exact ⟨ha.mem m' List.mem_cons_self, fun hv => hm (h.versions.mpr (.inl hv))⟩
  inOrder m₁ h₁ m₂ h₂ hle hn hv := by
    rw [Database.mem_versions_commit] at hv ⊢
    rcases hv with hv | hv
    · exact .inl (h.inOrder m₁ h₁ m₂ h₂ hle hn hv)
    · rcases Nat.lt_or_ge m₂.version m.version with hlt | hge
      · exact .inl (ha.below h₂ hlt)
      · exact .inr (by omega)

/-- A step of the process `p` that leaves the database `db`. -/
theorem Inv.move (h : Inv migrations recorded s) {p : ω} {x : Process} (hdb : Recorded migrations recorded db)
    (hsub : ∀ v ∈ s.db.versions, v ∈ db.versions) (hx : ∀ rest, x = .applying rest → Ahead migrations db rest)
    (hd : x = .done (.ok ()) → ∀ m ∈ migrations, m.version ∈ db.versions) :
    Inv migrations recorded (s.move p db x) := by
  have hproc : ∀ q, (s.move p db x).process q = if q = p then x else s.process q := fun q =>
    Function.update_apply ..
  refine ⟨hdb, fun q rest hq => ?_, fun q hq => ?_⟩
  · rw [hproc] at hq
    split at hq
    · exact hx rest hq
    · have ha := h.ahead q rest hq
      exact ⟨ha.sorted, ha.mem, fun m hm => (ha.covers m hm).imp_left (hsub _)⟩
  · rw [hproc] at hq
    split at hq
    · exact hd hq
    · exact fun m hm => hsub _ (h.finished q hq m hm)

/-- A step that only moves the process. -/
theorem Inv.proceed (h : Inv migrations recorded s) {p : ω} {x : Process}
    (hx : ∀ rest, x = .applying rest → Ahead migrations s.db rest)
    (hd : x = .done (.ok ()) → ∀ m ∈ migrations, m.version ∈ s.db.versions) :
    Inv migrations recorded (s.move p s.db x) :=
  h.move h.db (fun _ hv => hv) hx hd

theorem Inv.advance (h : Inv migrations recorded s) (p : ω) (fault : Option Fault) :
    Inv migrations recorded (s.advance migrations p fault) := by
  unfold State.advance
  split
  · split <;> exact h.proceed (by simp) (by simp)
  · split
    · rename_i applied ha
      obtain rfl := appliedVersions_ok ha
      refine h.proceed ?_ (by simp)
      rintro rest hrest
      obtain rfl := Process.applying.inj hrest
      refine ⟨pending_sorted .., fun m hm => (mem_pending.mp hm).1, fun m hm => ?_⟩
      by_cases hv : m.version ∈ s.db.versions
      · exact .inl hv
      · exact .inr (mem_pending.mpr ⟨hm, hv⟩)
    · exact h.proceed (by simp) (by simp)
  · rename_i hp
    exact h.proceed (by simp) fun _ m hm => ((h.ahead p [] hp).covers m hm).resolve_right (by simp)
  · rename_i m rest hp
    have ha := h.ahead p _ hp
    split
    · rename_i db happly
      rcases apply_ok happly with ⟨hv, rfl⟩ | ⟨hv, rfl⟩
      · refine h.proceed ?_ (by simp)
        rintro rest' hrest
        obtain rfl := Process.applying.inj hrest
        exact ha.tail (fun _ hv => hv) hv
      · have hsub : ∀ v ∈ s.db.versions, v ∈ (s.db.commit m).versions := fun v hv =>
          Database.mem_versions_commit.mpr (.inl hv)
        refine h.move (h.db.commit ha hv) hsub ?_ (by simp)
        rintro rest' hrest
        obtain rfl := Process.applying.inj hrest
        exact ha.tail hsub (Database.mem_versions_commit.mpr (.inr rfl))
    · exact h.proceed (by simp) (by simp)
  · exact h
  · exact h

theorem Inv.step (h : Inv migrations recorded s) (a : Step ω) :
    Inv migrations recorded (step migrations s a) := by
  cases a with
  | advance p fault => exact h.advance p fault
  | crash p => exact h.proceed (by simp) (by simp)

theorem inv_run (migrations : List Migration) (recorded : List (Nat × String)) (l : List (Step ω)) :
    Inv migrations recorded (run (step migrations) (start recorded) l) := by
  refine run_inv (fun _ a h => h.step a) ⟨⟨?_, ?_, ?_, ?_⟩, ?_, ?_⟩ l
  · simp [start]
  · simp [start]
  · simp [start]
  · intro m _ m' _ _ hn hv
    exact absurd hv hn
  · intro p rest hp
    cases hp
  · intro p hp
    cases hp

/-! ## Runs -/

/-- The rows of a sorted list that meet a property lower rows inherit come first. -/
theorem exists_split {P : Migration → Prop} {l : List Migration}
    (hs : l.Pairwise fun a b => a.version ≤ b.version)
    (hP : ∀ a ∈ l, ∀ b ∈ l, a.version ≤ b.version → P b → P a) :
    ∃ a b, l = a ++ b ∧ (∀ m ∈ a, P m) ∧ ∀ m ∈ b, ¬ P m := by
  induction l with
  | nil => exact ⟨[], [], rfl, by simp, by simp⟩
  | cons m l ih =>
    obtain ⟨hm, hl⟩ := List.pairwise_cons.mp hs
    by_cases hPm : P m
    · obtain ⟨a, b, rfl, ha, hb⟩ := ih hl fun x hx y hy =>
        hP x (List.mem_cons_of_mem _ hx) y (List.mem_cons_of_mem _ hy)
      exact ⟨m :: a, b, rfl, by simpa [hPm] using ha, hb⟩
    · refine ⟨[], m :: l, rfl, by simp, ?_⟩
      intro m' hm' hPm'
      rcases List.mem_cons.mp hm' with rfl | hl'
      · exact hPm hPm'
      · exact hPm (hP m List.mem_cons_self m' hm' (hm m' hl') hPm')

/-- What is recorded beyond the start is an initial part of the ordered list. -/
theorem Recorded.initial (h : Recorded migrations recorded db) :
    ∃ a b, pending migrations (recorded.map Prod.fst) = a ++ b ∧
      ∀ v, v ∈ db.versions ↔ v ∈ recorded.map Prod.fst ∨ v ∈ a.map (·.version) := by
  have hclosed : ∀ a ∈ pending migrations (recorded.map Prod.fst),
      ∀ b ∈ pending migrations (recorded.map Prod.fst), a.version ≤ b.version →
      b.version ∈ db.versions → a.version ∈ db.versions := by
    intro a ha b hb hle hv
    obtain ⟨ha, -⟩ := mem_pending.mp ha
    obtain ⟨hb, hn⟩ := mem_pending.mp hb
    exact h.inOrder b hb a ha hle hn hv
  obtain ⟨a, b, hab, ha, hb⟩ := exists_split (pending_sorted ..) hclosed
  refine ⟨a, b, hab, fun v => ?_⟩
  rw [h.versions]
  constructor
  · rintro (hv | ⟨m, hm, rfl⟩)
    · exact .inl hv
    · refine .inr (List.mem_map_of_mem ?_)
      have hmem := hab ▸ mem_pending.mpr (h.fresh m hm)
      rcases List.mem_append.mp hmem with hma | hmb
      · exact hma
      · exact absurd (h.versions.mpr (.inr ⟨m, hm, rfl⟩)) (hb m hmb)
  · rintro (hv | hv)
    · exact .inl hv
    · obtain ⟨m, hm, rfl⟩ := List.mem_map.mp hv
      exact h.versions.mp (ha m hm)

/-- Any number of processes, in any order and with any faults: every version's SQL is committed
once at most and with its record, in order, a process that finishes leaves every one recorded, and a
migration that fails changes nothing and finds every lower one recorded. -/
theorem migrations_run_once (migrations : List Migration) (recorded : List (Nat × String))
    (l : List (Step ω)) :
    let s := run (step migrations) (start recorded) l
    (s.db.recorded = recorded ++ s.db.executed.map fun m => (m.version, m.name)) ∧
      (s.db.executed.map (·.version)).Nodup ∧
      (∀ m ∈ s.db.executed, m.version ∉ recorded.map Prod.fst) ∧
      (∃ a b, pending migrations (recorded.map Prod.fst) = a ++ b ∧
        ∀ v, v ∈ s.db.versions ↔ v ∈ recorded.map Prod.fst ∨ v ∈ a.map (·.version)) ∧
      (∀ p, s.process p = .done (.ok ()) → ∀ m ∈ migrations, m.version ∈ s.db.versions) ∧
      ∀ p fault m rest e, s.process p = .applying (m :: rest) → apply fault m s.db = .error e →
        (s.advance migrations p fault).db = s.db ∧
          ∀ m' ∈ migrations, m'.version < m.version → m'.version ∈ s.db.versions := by
  intro s
  have h : Inv migrations recorded s := inv_run migrations recorded l
  refine ⟨h.db.records, h.db.once, fun m hm => (h.db.fresh m hm).2, h.db.initial, h.finished, ?_⟩
  intro p fault m rest e hp he
  refine ⟨?_, fun m' hm' => (h.ahead p _ hp).below hm'⟩
  simp only [State.advance, hp, he]
  rfl

end Claudear.Storage.Migrator
