import Claudear.Sql.Script
import Claudear.Sql.Table
import Claudear.Storage.Error
import Mathlib.Algebra.Group.Int.Defs
import Mathlib.Algebra.Group.Nat.Defs

/-!
# The vector index

`vector_index.rs`: an index of the embeddings of a source table, kept in a virtual
table of the connection. Another connection that changes the schema empties the
virtual table; the session counts these changes (`generation`). The index is
rebuilt in batches behind a cursor while rows are stored and removed on both
sides of it. Every statement may fail, and the state keeps what was done before.
-/

namespace Claudear.Storage.VectorIndex

open Claudear.Sql

/-! ## Embeddings -/

abbrev Blob := List UInt8

/-- A component is the bits of its `f32`. -/
abbrev Embedding := List UInt32

def REBUILD_BATCH_SIZE : Nat := 256

def MAX_EMBEDDING_DIMENSION : Nat := 16384

def BYTES_PER_COMPONENT : Nat := 4

def toLeBytes (component : UInt32) : List UInt8 :=
  [component.toUInt8, (component >>> 8).toUInt8, (component >>> 16).toUInt8,
    (component >>> 24).toUInt8]

def embeddingBlob (embedding : Embedding) : Blob := embedding.flatMap toLeBytes

def byteLength (dimension : Nat) : Nat := dimension * BYTES_PER_COMPONENT

def dimensionOf (length : Nat) : Option Nat :=
  if 0 < length ∧ length % BYTES_PER_COMPONENT = 0 then some (length / BYTES_PER_COMPONENT) else none

def validateDimension (dimension : Nat) : Except Error Unit :=
  if dimension = 0 ∨ MAX_EMBEDDING_DIMENSION < dimension then
    .error (.storage ("Embedding dimension " ++ toString dimension ++ " is out of valid range (1..=" ++
      toString MAX_EMBEDDING_DIMENSION ++ ")"))
  else .ok ()

theorem length_embeddingBlob (embedding : Embedding) :
    (embeddingBlob embedding).length = byteLength embedding.length := by
  induction embedding with
  | nil => rfl
  | cons c l ih =>
    rw [embeddingBlob, List.flatMap_cons, List.length_append, ← embeddingBlob, ih, byteLength,
      byteLength, List.length_cons, Nat.succ_mul, Nat.add_comm]
    rfl

/-! ## The connection -/

structure Declaration where
  dimension : Nat
  capacity : Nat
  deriving DecidableEq, Repr

/-- What the schema says about the name of the virtual table. -/
inductive Lookup where
  | absent
  | declared (declaration : Declaration)
  | unreadable
  | foreign
  deriving DecidableEq, Repr

inductive Access where
  | read
  | write
  deriving DecidableEq, Repr

inductive Progress where
  | pending (rows : Nat)
  | complete (rows : Nat)
  | current
  | skipped
  | deferred
  | unavailable
  deriving DecidableEq, Repr

inductive State where
  | unbuilt
  | building (dimension capacity cursor generation : Nat)
  | built (dimension capacity generation : Nat)
  | stale (dimension : Nat)
  | unavailable
  deriving DecidableEq, Repr

namespace State

def needsRebuild : State → Bool
  | .unbuilt | .building .. | .stale _ => true
  | .built .. | .unavailable => false

def isStale : State → Bool
  | .stale _ => true
  | _ => false

/-- The dimension of an index that is built or being built. -/
def dimension : State → Option Nat
  | .building dimension _ _ _ | .built dimension _ _ => some dimension
  | _ => none

/-- The generation it was marked under. -/
def generation : State → Option Nat
  | .building _ _ _ g | .built _ _ g => some g
  | _ => none

end State

/-- The columns of `issues` that are read here. -/
structure Issue where
  source : String
  issueId : String
  embedding : Option Blob
  deriving DecidableEq, Repr

structure Session where
  /-- The extension could be loaded. -/
  extension : Bool
  schemaVersion : Int
  generation : Nat
  /-- The signal that wakes the rebuilder. -/
  raised : Bool

/-- `i64::MIN`, which is no schema version. -/
def Session.new (extension : Bool) : Session := ⟨extension, -2 ^ 63, 0, false⟩

structure World where
  source : Table Issue
  lookup : Lookup
  /-- The rows of the virtual table. -/
  vectors : Nat → Option Blob
  schemaVersion : Int
  session : Session
  state : State
  minimumCapacity : Nat
  /-- The rows a rebuild failed to write, as its warning says, and that were not written since. -/
  skipped : List Nat

abbrev Action (α : Type) := Script World Error α

/-- A statement failed. -/
def failure : Error := .database ""

def query {α : Type} (f : World → α) : Action α := .read failure f

def setState (state : State) : Action Unit := .change ({ · with state := state })

namespace World

variable (w : World)

/-- The rows with an embedding, by id. -/
def embedded : List (Nat × Blob) := w.source.rows.filterMap fun r => r.2.embedding.map (r.1, ·)

def batch (cursor dimension limit : Nat) : List (Nat × Blob) :=
  (w.embedded.filter fun r => cursor < r.1 ∧ r.2.length = byteLength dimension).take limit

def count (dimension : Nat) : Nat := w.embedded.countP fun r => r.2.length = byteLength dimension

def newestLength : Option Nat := w.embedded.getLast?.map (·.2.length)

def created (declaration : Declaration) : World :=
  { w with
    lookup := .declared declaration
    vectors := fun _ => none
    schemaVersion := w.schemaVersion + 1 }

/-- `DROP TABLE IF EXISTS`. -/
def dropped : World :=
  { w with
    lookup := .absent
    vectors := fun _ => none
    schemaVersion := w.schemaVersion + 1 }

def vectorSet (rowid : Nat) (vector : Option Blob) : World :=
  { w with vectors := fun id => if id = rowid then vector else w.vectors id }

def written (rowid : Nat) (vector : Blob) : World :=
  { w.vectorSet rowid (some vector) with skipped := w.skipped.filter (· ≠ rowid) }

def skip (rowid : Nat) : World := { w with skipped := rowid :: w.skipped }

def begun (dimension capacity generation : Nat) : World :=
  { w with state := .building dimension capacity 0 generation, skipped := [] }

/-- The session has seen another schema version. -/
def observed (version : Int) : World :=
  let generation := w.session.generation + 1
  { w with session := { w.session with schemaVersion := version, generation := generation } }

def acknowledged (version : Int) : World :=
  { w with session := { w.session with schemaVersion := version } }

def woken (before : State) : World :=
  let raised := w.session.raised || (w.state ≠ before && w.state.needsRebuild)
  { w with session := { w.session with raised := raised } }

end World

/-! ## The session -/

def generation : Action Nat := do
  let version ← query (·.schemaVersion)
  let w ← Script.look
  if w.session.schemaVersion = version then return w.session.generation
  else
    Script.change (·.observed version)
    return w.session.generation + 1

def acknowledge : Action Unit := do
  let version ← query (·.schemaVersion)
  Script.change (·.acknowledged version)

/-! ## The index -/

def refresh : Action Unit := do
  let w ← Script.look
  match w.state with
  | .building _ _ _ g | .built _ _ g =>
    let current ← generation
    if current = g then return () else setState .unbuilt
  | _ => return ()

def invalidate : Action Unit := do
  let w ← Script.look
  match w.state with
  | .building dimension _ _ _ | .built dimension _ _ => setState (.stale dimension)
  | _ => return ()

/-- It wakes the rebuilder when it leaves the index needing a rebuild. -/
def transition {α : Type} (operation : Action α) : Action α := do
  let before ← Script.look
  let outcome ← operation.attempt
  Script.change (·.woken before.state)
  .ofExcept outcome

def authoritativeDimension (state : State) (lookup : Lookup) : Action (Option Nat) :=
  match state, lookup with
  | .building dimension _ _ _, _ | .built dimension _ _, _ | .stale dimension, _ =>
    return some dimension
  | .unbuilt, .declared declaration | .unavailable, .declared declaration =>
    return some declaration.dimension
  | .unbuilt, _ | .unavailable, _ => do
    let length ← query (·.newestLength)
    return length.bind dimensionOf

def executeDrop : Action Bool := do
  let result ← (Script.execute failure World.dropped).attempt
  match result with
  | .error _ => do
    invalidate
    return false
  | .ok () => do
    setState .unbuilt
    acknowledge
    return true

def dropTable : Action Bool := do
  let _ ← generation
  executeDrop

def createTable (declaration : Declaration) : Action Bool := do
  let _ ← generation
  let result ← (Script.execute failure (·.created declaration)).attempt
  match result with
  | .error _ => do
    invalidate
    return false
  | .ok () => do
    acknowledge
    return true

/-- `saturating_mul(2)` of a `usize`. -/
def twice (n : Nat) : Nat := min (n * 2) (2 ^ 64 - 1)

/-- The capacity of a table for vectors of the dimension: the declared one or a new one. -/
def prepareTable (stale : Bool) (lookup : Lookup) (dimension required : Nat) :
    Action (Option Nat) := do
  let create : Action (Option Nat) := do
    let created ← createTable ⟨dimension, required⟩
    return if created then some required else none
  let recreate : Action (Option Nat) := do
    let dropped ← dropTable
    if dropped then create else return none
  match lookup with
  | .declared existing =>
    if stale = false ∧ existing.dimension = dimension ∧ required ≤ existing.capacity then
      return some existing.capacity
    else recreate
  | .absent => create
  | .unreadable | .foreign => recreate

/-- A search may only use the dimension the index has; a write may change it. -/
def mayUse (access : Access) (state : State) (lookup : Lookup) (dimension : Nat) : Action Bool :=
  match access with
  | .read => do
    let authoritative ← authoritativeDimension state lookup
    return authoritative = some dimension
  | .write => return true

def beginBuilding (w : World) (lookup : Lookup) (dimension : Nat) : Action Bool := do
  let count ← query (·.count dimension)
  let required := max w.minimumCapacity (twice count)
  let prepared ← prepareTable w.state.isStale lookup dimension required
  match prepared with
  | some capacity => do
    let current ← generation
    Script.change (·.begun dimension capacity current)
    return true
  | none => return false

/-- Makes the table ready to hold vectors of the dimension, and indexes no rows. -/
def ensure (dimension : Nat) (access : Access) : Action Bool := do
  let w ← Script.look
  if w.session.extension = false then do
    setState .unavailable
    return false
  else if w.state = .unavailable then return false
  else if w.state.dimension = some dimension then return true
  else do
    let lookup ← query (·.lookup)
    if lookup = .foreign then do
      setState .unavailable
      return false
    else do
      let usable ← mayUse access w.state lookup dimension
      if usable then beginBuilding w lookup dimension else return false

def write (rowid : Nat) (blob : Blob) : Action Unit := do
  Script.execute failure (·.vectorSet rowid none)
  Script.execute failure (·.written rowid blob)

def delete (rowids : List Nat) : Action Unit :=
  rowids.forM fun rowid => Script.execute failure (·.vectorSet rowid none)

/-- A row that cannot be written is skipped. -/
def writeOrSkip (row : Nat × Blob) : Action Unit := do
  let result ← (write row.1 row.2).attempt
  match result with
  | .ok () => return ()
  | .error _ => Script.change (·.skip row.1)

def advance (batchSize : Nat) : Action Nat := do
  let w ← Script.look
  match w.state with
  | .building dimension capacity cursor g => do
    let limit := max batchSize 1
    let rows ← query (·.batch cursor dimension limit)
    rows.forM writeOrSkip
    let cursor := (rows.getLast?.map Prod.fst).getD cursor
    setState (if rows.length < limit then .built dimension capacity g
      else .building dimension capacity cursor g)
    return rows.length
  | _ => return 0

def prepareSearch (dimension : Nat) : Action Bool := do
  if dimension = 0 then return false
  else do
    Script.ofExcept (validateDimension dimension)
    transition do
      refresh
      let ready ← ensure dimension .read
      if ready then do
        let _ ← advance REBUILD_BATCH_SIZE
        return true
      else return false

def upsert (rowid : Nat) (embedding : Embedding) : Action Unit :=
  if embedding.isEmpty then return ()
  else
    match validateDimension embedding.length with
    | .error _ => return ()
    | .ok () => transition do
      let refreshed ← refresh.attempt
      match refreshed with
      | .error _ => invalidate
      | .ok () => do
        let ready ← (ensure embedding.length .write).attempt
        match ready with
        | .ok true => do
          let result ← (write rowid (embeddingBlob embedding)).attempt
          match result with
          | .ok () => return ()
          | .error _ => setState (.stale embedding.length)
        | .ok false => return ()
        | .error _ => invalidate

def remove (rowids : List Nat) : Action Unit :=
  if rowids.isEmpty then return ()
  else transition do
    let refreshed ← refresh.attempt
    match refreshed with
    | .error _ => invalidate
    | .ok () => do
      let w ← Script.look
      match w.state with
      | .unbuilt | .unavailable => return ()
      | .building dimension _ _ _ | .built dimension _ _ | .stale dimension => do
        let result ← (delete rowids).attempt
        match result with
        | .ok () => return ()
        | .error _ => setState (.stale dimension)

def idle : State → Progress
  | .unavailable => .unavailable
  | _ => .deferred

def progress (state : State) (rows : Nat) : Progress :=
  match state with
  | .building .. => .pending rows
  | _ => .complete rows

def advanceStep (batchSize : Nat) : Action Progress := do
  let rows ← advance batchSize
  let w ← Script.look
  return progress w.state rows

def rebuildStep (batchSize : Nat) : Action Progress := do
  refresh
  let w ← Script.look
  match w.state with
  | .unavailable => return .unavailable
  | .built .. => return .current
  | .building .. => advanceStep batchSize
  | .unbuilt | .stale _ => do
    let newest ← query (·.newestLength)
    match newest with
    | none => return .skipped
    | some length =>
      match dimensionOf length with
      | none => return .skipped
      | some dimension => do
        Script.ofExcept (validateDimension dimension)
        let ready ← ensure dimension .write
        if ready then advanceStep batchSize
        else do
          let w ← Script.look
          return idle w.state

def invalidateOnError : Except Error Unit → Action Unit
  | .error _ => invalidate
  | .ok () => return ()

def resetTable : Action Unit := do
  let w ← Script.look
  if w.state = .unbuilt ∨ w.state = .unavailable then return ()
  else do
    let _ ← dropTable.attempt
    return ()

def reset : Action Unit := transition do
  let refreshed ← refresh.attempt
  invalidateOnError refreshed
  resetTable

/-! ## The source table -/

def isIssue (source issueId : String) (r : Nat × Issue) : Bool :=
  r.2.source = source && r.2.issueId = issueId

/-- `COALESCE(excluded.embedding, embedding)` -/
def Issue.assign (embedding : Option Blob) (r : Issue) : Issue :=
  { r with embedding := embedding.or r.embedding }

namespace World

variable (w : World)

/-- `INSERT INTO issues … ON CONFLICT(source, issue_id) DO UPDATE` -/
def issueStored (source issueId : String) (embedding : Option Blob) : World :=
  let issues := if w.source.any (isIssue source issueId) then
      (w.source.update (isIssue source issueId) (.assign embedding)).skip
    else w.source.insert ⟨source, issueId, embedding⟩
  { w with source := issues }

def issueId (source issueId : String) : Option Nat :=
  (w.source.first (isIssue source issueId)).map Prod.fst

def sourceDeleted (rowids : List Nat) : World :=
  { w with source := w.source.deleteKeys (· ∈ rowids) }

def sourceCleared : World := { w with source := w.source.deleteKeys fun _ => true }

end World

def upsertStored (rowid : Nat) : Option Embedding → Action Unit
  | some values => upsert rowid values
  | none => return ()

def storeEmbedding (source issueId : String) (embedding : Option Embedding) : Action Nat := do
  Script.commit failure (·.issueStored source issueId (embedding.map embeddingBlob))
  let found ← query (·.issueId source issueId)
  match found with
  | none => Script.fail failure
  | some rowid => do
    upsertStored rowid embedding
    return rowid

/-- The rows go in a transaction, and the index is told. -/
def deleteRows (rowids : List Nat) : Action Unit := do
  Script.commit failure (·.sourceDeleted rowids)
  remove rowids

def clearRows : Action Unit := do
  Script.commit failure World.sourceCleared
  reset

end Claudear.Storage.VectorIndex
