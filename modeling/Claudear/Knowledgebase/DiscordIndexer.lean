import Claudear.Core.Calendar
import Claudear.Data.Batches
import Claudear.Knowledgebase.DiscordChunks
import Mathlib.Data.List.Sort

/-!
# Indexing Discord messages

A call groups the messages into windows, skips the windows whose text is stored and embedded,
and saves the rest in batches. A batch whose embeddings fail is deleted again, and the call
ends there.
-/

namespace Claudear.Knowledgebase

open Claudear.Core

structure DiscordMessageInput where
  messageId : String
  guildId : String
  channelName : String
  author : String
  content : String
  timestamp : String
  deriving DecidableEq, Repr

/-- The indexer, with what the crates compute. -/
structure DiscordIndexer where
  sha256Hex : String → String
  parseFromRfc3339 : String → Option DateTime
  model : String
  batchSize : Nat
  positive : 0 < batchSize

def DEFAULT_BATCH_SIZE : Nat := 32

def DISCORD_INDEX_VERSION : String := "1"

def DiscordIndexer.withConfig (sha256Hex : String → String) (parseFromRfc3339 : String → Option DateTime) (model : String)
    (batch_size : Nat) : DiscordIndexer where
  sha256Hex
  parseFromRfc3339
  model
  batchSize := if batch_size = 0 then DEFAULT_BATCH_SIZE else batch_size
  positive := by
    split
    · exact Nat.zero_lt_succ _
    · exact Nat.pos_of_ne_zero (by assumption)

structure DiscordIndexStats where
  messagesProcessed : Nat := 0
  messagesSkipped : Nat := 0
  deriving DecidableEq, Repr

/-- What becomes of a batch: the embeddings of its texts, if the client returns them, and
whether the database takes them. -/
structure Attempt (ε : Type) where
  embedBatch : List String → Option (List ε)
  complete : ∀ texts embeddings, embedBatch texts = some embeddings → embeddings.length = texts.length
  saves : Bool

def Attempt.Works {ε : Type} (attempt : Attempt ε) : Prop := (∀ texts, attempt.embedBatch texts ≠ none) ∧ attempt.saves = true

/-! ## Windows -/

def numMinutes (duration : Int) : Int := duration.tdiv 60000000000

structure Grouping where
  closed : List (List DiscordMessageInput) := []
  current : List DiscordMessageInput := []
  last_message : Option DiscordMessageInput := none

def render (m : DiscordMessageInput) : String := m.author ++ ": " ++ m.content

def chunkText (messages : List DiscordMessageInput) : String := "\n".intercalate (messages.map render)

def participantsOf (messages : List DiscordMessageInput) : List String := (messages.map (·.author)).dedup.insertionSort (· ≤ ·)

namespace DiscordIndexer

variable (ix : DiscordIndexer)

/-- `none` is a panic. -/
def moreThan10MinutesApart (ts1 ts2 : String) : Option Bool := do
  let t1 ← ix.parseFromRfc3339 ts1
  let t2 ← ix.parseFromRfc3339 ts2
  some (decide (10 < (numMinutes (signedDurationSince t2 t1)).natAbs))

def startsWindow (g : Grouping) (message : DiscordMessageInput) : Option Bool :=
  match g.last_message with
  | none => some false
  | some prev => ix.moreThan10MinutesApart message.timestamp prev.timestamp

def group (g : Grouping) (message : DiscordMessageInput) : Option Grouping :=
  (ix.startsWindow g message).map fun apart =>
    if apart then ⟨g.closed ++ [g.current], [message], some message⟩
    else ⟨g.closed, g.current ++ [message], some message⟩

def buckets (inputs : List DiscordMessageInput) : Option (List (List DiscordMessageInput)) :=
  (inputs.foldlM ix.group {}).map fun g => g.closed ++ [g.current]

def chunkOf (channel_id : String) (channel_kind : DiscordChannelKind) (first : DiscordMessageInput)
    (rest : List DiscordMessageInput) : DiscordMessageChunk :=
  let last := (first :: rest).getLast (List.cons_ne_nil first rest)
  { guildId := some first.guildId
    channelId := channel_id
    channelKind := channel_kind
    startMessageId := first.messageId
    endMessageId := last.messageId
    participantIds := some (participantsOf (first :: rest))
    startMessageTime := first.timestamp
    endMessageTime := last.timestamp
    chunkText := chunkText (first :: rest)
    contextText := "Discord #" ++ first.channelName ++ " — participants: " ++ ", ".intercalate (participantsOf (first :: rest))
    contentHash := some (ix.sha256Hex (chunkText (first :: rest))) }

end DiscordIndexer

/-! ## Batches -/

/-- Each text once, and for each chunk which of them is its own. -/
structure UniqueTexts where
  unique_texts : List String := []
  hash_to_embed_idx : String → Option Nat := fun _ => none
  chunk_to_embed_idx : List Nat := []

def UniqueTexts.add (u : UniqueTexts) (chunk : DiscordMessageChunk) : UniqueTexts :=
  match u.hash_to_embed_idx (chunk.contentHash.getD "") with
  | some idx => ⟨u.unique_texts, u.hash_to_embed_idx, u.chunk_to_embed_idx ++ [idx]⟩
  | none =>
    ⟨u.unique_texts ++ [chunk.contextText ++ "\n\n" ++ chunk.chunkText],
      Function.update u.hash_to_embed_idx (chunk.contentHash.getD "") (some u.unique_texts.length),
      u.chunk_to_embed_idx ++ [u.unique_texts.length]⟩

/-- The chunks with their embeddings. -/
def pairsOf {ε : Type} (ids idxs : List Nat) (embeddings : List ε) : List (Nat × ε) :=
  (ids.zip idxs).filterMap fun (id, idx) => embeddings[idx]?.map fun e => (id, e)

structure Progress (ε : Type) where
  tables : DiscordTables ε
  pending : List DiscordMessageChunk := []
  stats : DiscordIndexStats := {}
  /-- How many batches were tried. -/
  flushes : Nat := 0

inductive IndexResult where
  | ok (stats : DiscordIndexStats)
  | err
  | panic
  deriving DecidableEq, Repr

namespace DiscordIndexer

variable {ε : Type} (ix : DiscordIndexer)

/-- The chunks that were just saved get their embeddings. -/
def embedChunks (attempt : Attempt ε) (saved : DiscordTables ε) (chunk_ids : List Nat) (chunks : List DiscordMessageChunk) :
    Option (DiscordTables ε) :=
  let unique := chunks.foldl UniqueTexts.add {}
  (attempt.embedBatch unique.unique_texts).bind fun embeddings =>
    if attempt.saves then
      DiscordTables.saveDiscordChunkEmbeddings ix.model saved (pairsOf chunk_ids unique.chunk_to_embed_idx embeddings)
    else none

/-- The tables, and whether it returns `Ok`. -/
def flush (attempt : Attempt ε) (tables : DiscordTables ε) (chunks : List DiscordMessageChunk) : DiscordTables ε × Bool :=
  if chunks = [] then (tables, true)
  else
    let (saved, chunk_ids) := tables.saveDiscordChunks chunks
    match ix.embedChunks attempt saved chunk_ids chunks with
    | some embedded => (embedded, true)
    | none => (saved.deleteDiscordMessageChunksByIds chunk_ids, false)

variable (attempts : Nat → Attempt ε) (channel_id : String) (channel_kind : DiscordChannelKind)

/-- One window; an error ends the call. -/
def indexWindow (p : Progress ε) : List DiscordMessageInput → Except (DiscordTables ε) (Progress ε)
  | [] => .ok p
  | first :: rest =>
    let chunk := ix.chunkOf channel_id channel_kind first rest
    if p.tables.discordChunkHashMatches channel_id (ix.sha256Hex (chunkText (first :: rest))) then
      .ok { p with stats := { p.stats with messagesSkipped := p.stats.messagesSkipped + (first :: rest).length } }
    else
      let pending := p.pending ++ [chunk]
      let stats := { p.stats with messagesProcessed := p.stats.messagesProcessed + (first :: rest).length }
      if ix.batchSize ≤ pending.length then
        let flushed := ix.flush (attempts p.flushes) p.tables pending
        if flushed.2 then .ok { tables := flushed.1, stats, flushes := p.flushes + 1 } else .error flushed.1
      else .ok { p with pending, stats }

def indexWindows : Progress ε → List (List DiscordMessageInput) → DiscordTables ε × Option DiscordIndexStats
  | p, [] =>
    let flushed := ix.flush (attempts p.flushes) p.tables p.pending
    (flushed.1, if flushed.2 then some p.stats else none)
  | p, messages :: rest =>
    match ix.indexWindow attempts channel_id channel_kind p messages with
    | .ok p => indexWindows p rest
    | .error tables => (tables, none)

def index (is_thread : Bool) (inputs : List DiscordMessageInput) (tables : DiscordTables ε) : DiscordTables ε × IndexResult :=
  match ix.buckets inputs with
  | none => (tables, .panic)
  | some buckets =>
    let indexed := ix.indexWindows attempts channel_id (if is_thread then .Thread else .Channel) { tables } buckets
    match indexed.2 with
    | some stats => (indexed.1.setDiscordMessageIndexMeta "index_version" DISCORD_INDEX_VERSION, .ok stats)
    | none => (indexed.1, .err)

end DiscordIndexer

end Claudear.Knowledgebase
