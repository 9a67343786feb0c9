import Claudear.Sql.Table
import Mathlib.Data.List.Nodup

/-!
# The tables of the Discord knowledge base

A chunk has at most one embedding, which goes when the chunk goes. Vectors are of any type.
The index of the vectors is not modelled: nothing here reads it.
-/

namespace Claudear.Knowledgebase

open Claudear.Sql

inductive DiscordChannelKind where
  | Channel
  | Thread
  | Category
  deriving DecidableEq, Repr

def DiscordChannelKind.asI64 : DiscordChannelKind → Int
  | .Channel => 0
  | .Category => 4
  | .Thread => 11

structure DiscordMessageChunk where
  guildId : Option String
  channelId : String
  channelKind : DiscordChannelKind
  startMessageId : String
  endMessageId : String
  participantIds : Option (List String)
  startMessageTime : String
  endMessageTime : String
  chunkText : String
  contextText : String
  contentHash : Option String
  deriving DecidableEq, Repr

/-- `discord_message_chunks` -/
structure ChunkRow where
  guildId : Option String
  channelId : String
  channelKind : Int
  startMessageId : String
  endMessageId : String
  participantIds : Option String
  startMessageTime : String
  endMessageTime : String
  chunkText : String
  contextText : String
  contentHash : Option String
  deriving DecidableEq, Repr

def DiscordMessageChunk.row (chunk : DiscordMessageChunk) : ChunkRow where
  guildId := chunk.guildId
  channelId := chunk.channelId
  channelKind := chunk.channelKind.asI64
  startMessageId := chunk.startMessageId
  endMessageId := chunk.endMessageId
  participantIds := chunk.participantIds.map (",".intercalate ·)
  startMessageTime := chunk.startMessageTime
  endMessageTime := chunk.endMessageTime
  chunkText := chunk.chunkText
  contextText := chunk.contextText
  contentHash := chunk.contentHash

/-- `discord_message_chunk_embeddings` -/
structure EmbeddingRow (ε : Type) where
  chunkId : Nat
  embedding : ε
  embeddingModel : String
  deriving DecidableEq, Repr

structure DiscordTables (ε : Type) where
  chunks : Table ChunkRow
  embeddings : Table (EmbeddingRow ε)
  /-- `discord_message_chunk_metadata`, by its primary key. -/
  metadata : String → Option String
  references : ∀ i e, embeddings.get i = some e → ∃ chunk, chunks.get e.chunkId = some chunk
  unique : Table.Unique (fun e => some e.chunkId) embeddings

namespace DiscordTables

variable {ε : Type}

/-! ## Writes -/

def insertChunk (t : DiscordTables ε) (row : ChunkRow) : DiscordTables ε where
  chunks := t.chunks.insert row
  embeddings := t.embeddings
  metadata := t.metadata
  references := fun i e he => (t.references i e he).imp fun _ hc => Table.get_insert_of hc
  unique := t.unique

def saveDiscordChunks (t : DiscordTables ε) : List DiscordMessageChunk → DiscordTables ε × List Nat
  | [] => (t, [])
  | chunk :: rest =>
    let (saved, ids) := (t.insertChunk chunk.row).saveDiscordChunks rest
    (saved, t.chunks.next :: ids)

/-- The chunk must exist and have no embedding yet. -/
def insertEmbedding (t : DiscordTables ε) (e : EmbeddingRow ε) : Option (DiscordTables ε) :=
  if h : (t.chunks.get e.chunkId).isSome = true ∧ (t.embeddings.any fun r => r.2.chunkId = e.chunkId) = false then
    some {
      chunks := t.chunks
      embeddings := t.embeddings.insert e
      metadata := t.metadata
      references := fun i d hd => by
        rcases Table.get_insert_cases hd with ⟨-, rfl⟩ | hd
        · exact Option.isSome_iff_exists.mp h.1
        · exact t.references i d hd
      unique := by
        refine t.unique.insert fun k hk i d hd hsame => ?_
        have hany : (t.embeddings.any fun r => r.2.chunkId = e.chunkId) = true :=
          Table.any_eq_true.mpr ⟨i, d, hd, decide_eq_true (Option.some.inj (hsame.trans hk.symm))⟩
        rw [h.2] at hany
        cases hany }
  else none

/-- One transaction: nothing is written when a row cannot be. -/
def saveDiscordChunkEmbeddings (model : String) : DiscordTables ε → List (Nat × ε) → Option (DiscordTables ε)
  | t, [] => some t
  | t, (id, embedding) :: rest => (t.insertEmbedding ⟨id, embedding, model⟩).bind (saveDiscordChunkEmbeddings model · rest)

def deleteDiscordMessageChunksByIds (t : DiscordTables ε) (ids : List Nat) : DiscordTables ε where
  chunks := t.chunks.deleteKeys (· ∈ ids)
  embeddings := t.embeddings.delete (·.chunkId ∈ ids)
  metadata := t.metadata
  references := fun i e he => by
    obtain ⟨he, hid⟩ := Table.get_delete_eq_some.mp he
    obtain ⟨chunk, hc⟩ := t.references i e he
    exact ⟨chunk, Table.get_deleteKeys_eq_some.mpr ⟨hc, hid⟩⟩
  unique := t.unique.delete _

def setDiscordMessageIndexMeta (t : DiscordTables ε) (key value : String) : DiscordTables ε :=
  { t with metadata := Function.update t.metadata key (some value) }

/-! ## Queries -/

def discordChunkHashMatches (t : DiscordTables ε) (channel_id content_hash : String) : Bool :=
  let matching := t.chunks.select fun r => r.2.channelId = channel_id && decide (r.2.contentHash = some content_hash)
  let embedded := matching.flatMap fun c => t.embeddings.select fun e => e.2.chunkId = c.1
  decide (0 < matching.length) && decide (matching.length = embedded.length)

/-- The chunk has an embedding. -/
def Embedded (t : DiscordTables ε) (id : Nat) : Prop := t.embeddings.Has (·.chunkId = id)

/-- The chunks of a channel. -/
def channelRows (t : DiscordTables ε) (channel_id : String) : List (Nat × ChunkRow) :=
  t.chunks.rows.filter (·.2.channelId = channel_id)

def channelTexts (t : DiscordTables ε) (channel_id : String) : List String :=
  (t.channelRows channel_id).map (·.2.chunkText)

variable {t saved : DiscordTables ε} {chunks : List DiscordMessageChunk} {ids : List Nat} {id : Nat} {model channel_id hash : String}
  {pairs : List (Nat × ε)}

/-- The chunks go in behind the others, under the next keys. -/
theorem saveDiscordChunks_spec (t : DiscordTables ε) (chunks : List DiscordMessageChunk) :
    (t.saveDiscordChunks chunks).2 = List.range' t.chunks.next chunks.length ∧
      (t.saveDiscordChunks chunks).1.chunks.rows =
        t.chunks.rows ++ (List.range' t.chunks.next chunks.length).zip (chunks.map DiscordMessageChunk.row) ∧
      (t.saveDiscordChunks chunks).1.embeddings = t.embeddings ∧ (t.saveDiscordChunks chunks).1.metadata = t.metadata := by
  induction chunks generalizing t with
  | nil => exact ⟨rfl, (List.append_nil _).symm, rfl, rfl⟩
  | cons chunk rest ih =>
    obtain ⟨hids, hrows, hembeddings, hmetadata⟩ := ih (t.insertChunk chunk.row)
    refine ⟨?_, ?_, hembeddings, hmetadata⟩
    · exact congrArg (t.chunks.next :: ·) hids
    · show ((t.insertChunk chunk.row).saveDiscordChunks rest).1.chunks.rows = _
      rw [hrows]
      exact List.append_assoc t.chunks.rows [(t.chunks.next, chunk.row)] _

/-- Deleting what was just saved gives the old rows. -/
theorem rows_delete_save (t : DiscordTables ε) (chunks : List DiscordMessageChunk) :
    ((t.saveDiscordChunks chunks).1.deleteDiscordMessageChunksByIds (t.saveDiscordChunks chunks).2).chunks.rows = t.chunks.rows ∧
      ((t.saveDiscordChunks chunks).1.deleteDiscordMessageChunksByIds (t.saveDiscordChunks chunks).2).embeddings.rows =
        t.embeddings.rows := by
  obtain ⟨hids, hrows, hembeddings, -⟩ := saveDiscordChunks_spec t chunks
  have hold : ∀ i < t.chunks.next, i ∉ List.range' t.chunks.next chunks.length := by
    intro i hi hmem
    have := (List.mem_range'_1.mp hmem).1
    omega
  constructor
  · show (t.saveDiscordChunks chunks).1.chunks.rows.filter (fun r => !decide (r.1 ∈ (t.saveDiscordChunks chunks).2)) = _
    rw [hids, hrows, List.filter_append, List.filter_eq_self.mpr, List.filter_eq_nil_iff.mpr, List.append_nil]
    · intro r hr
      simp [(List.of_mem_zip (a := r.1) (b := r.2) hr).1]
    · intro r hr
      simp [hold r.1 (t.chunks.below r hr)]
  · show (t.saveDiscordChunks chunks).1.embeddings.rows.filter (fun r => !decide (r.2.chunkId ∈ (t.saveDiscordChunks chunks).2)) = _
    rw [hids, hembeddings, List.filter_eq_self]
    intro r hr
    obtain ⟨chunk, hchunk⟩ := t.references r.1 r.2 (Table.get_eq_some.mpr hr)
    simp [hold r.2.chunkId (Table.lt_next hchunk)]

/-- Embeddings of chunks that exist and have none can be saved. -/
theorem saveDiscordChunkEmbeddings_spec (hids : (pairs.map Prod.fst).Nodup)
    (hchunks : ∀ id ∈ pairs.map Prod.fst, (t.chunks.get id).isSome = true ∧ ¬ t.Embedded id) :
    ∃ saved, saveDiscordChunkEmbeddings model t pairs = some saved ∧ saved.chunks = t.chunks ∧ saved.metadata = t.metadata ∧
      ∀ id, saved.Embedded id ↔ t.Embedded id ∨ id ∈ pairs.map Prod.fst := by
  induction pairs generalizing t with
  | nil => exact ⟨t, rfl, rfl, rfl, fun id => by simp⟩
  | cons pair rest ih =>
    obtain ⟨id, embedding⟩ := pair
    rw [List.map_cons, List.nodup_cons] at hids
    obtain ⟨hid, hnodup⟩ := hids
    obtain ⟨hhere, hrest⟩ := List.forall_mem_cons.mp hchunks
    have hnone : (t.embeddings.any fun r => r.2.chunkId = id) = false := by
      rw [← Bool.not_eq_true, Table.any_eq_true]
      rintro ⟨i, e, he, hsame⟩
      exact hhere.2 ⟨i, e, he, of_decide_eq_true hsame⟩
    obtain ⟨t', ht', hchunks', hmetadata', hembedded'⟩ : ∃ t', t.insertEmbedding ⟨id, embedding, model⟩ = some t' ∧
        t'.chunks = t.chunks ∧ t'.metadata = t.metadata ∧ ∀ j, t'.Embedded j ↔ t.Embedded j ∨ j = id := by
      refine ⟨_, dif_pos ⟨hhere.1, hnone⟩, rfl, rfl, fun j => ?_⟩
      exact Table.has_insert.trans (or_congr_right eq_comm)
    obtain ⟨saved, hsaved, hchunks'', hmetadata'', hembedded''⟩ := ih (t := t') hnodup fun j hj => by
      obtain ⟨hchunk, hnew⟩ := hrest j hj
      rw [hchunks', hembedded']
      refine ⟨hchunk, ?_⟩
      rintro (h | rfl)
      · exact hnew h
      · exact hid hj
    refine ⟨saved, ?_, hchunks''.trans hchunks', hmetadata''.trans hmetadata', fun j => ?_⟩
    · rw [saveDiscordChunkEmbeddings, ht']
      exact hsaved
    · rw [hembedded'', hembedded', or_assoc, List.map_cons, List.mem_cons]

/-- A chunk has at most one embedding. -/
theorem length_select_embeddings (h : t.Embedded id) : (t.embeddings.select fun e => e.2.chunkId = id).length = 1 := by
  obtain ⟨i, e, he, hid⟩ := h
  have hall : ∀ r ∈ t.embeddings.select (fun e => e.2.chunkId = id), r = (i, e) := by
    rintro ⟨j, d⟩ hr
    obtain ⟨hd, hsame⟩ := Table.mem_select.mp hr
    have hij : i = j := t.unique he hd (congrArg some hid) (congrArg some (of_decide_eq_true hsame))
    subst hij
    rw [he] at hd
    rw [Option.some.inj hd]
  have hmem : (i, e) ∈ t.embeddings.select (fun e => e.2.chunkId = id) := Table.mem_select.mpr ⟨he, decide_eq_true hid⟩
  have hnodup := List.Nodup.of_map Prod.fst (t.embeddings.nodup_select fun e => e.2.chunkId = id)
  rw [List.eq_replicate_of_mem hall, List.nodup_replicate] at hnodup
  have hpos := List.length_pos_of_mem hmem
  omega

/-- Where every chunk of the channel is embedded, a hash matches when a chunk has it. -/
theorem discordChunkHashMatches_iff (h : ∀ r ∈ t.channelRows channel_id, t.Embedded r.1) :
    t.discordChunkHashMatches channel_id hash = true ↔ ∃ r ∈ t.channelRows channel_id, r.2.contentHash = some hash := by
  have hmatching (r : Nat × ChunkRow) :
      r ∈ t.chunks.select (fun r => r.2.channelId = channel_id && decide (r.2.contentHash = some hash)) ↔
        r ∈ t.channelRows channel_id ∧ r.2.contentHash = some hash := by
    rw [Table.select, channelRows, List.mem_filter, List.mem_filter, Bool.and_eq_true, decide_eq_true_eq, decide_eq_true_eq, and_assoc]
  have hlength : ((t.chunks.select fun r => r.2.channelId = channel_id && decide (r.2.contentHash = some hash)).flatMap
      fun c => t.embeddings.select fun e => e.2.chunkId = c.1).length =
        (t.chunks.select fun r => r.2.channelId = channel_id && decide (r.2.contentHash = some hash)).length := by
    rw [List.length_flatMap, List.map_congr_left fun r hr => length_select_embeddings (h r ((hmatching r).mp hr).1)]
    simp
  rw [discordChunkHashMatches, hlength, decide_eq_true rfl, Bool.and_true, decide_eq_true_eq, List.length_pos_iff_exists_mem]
  exact exists_congr fun r => hmatching r

end DiscordTables

end Claudear.Knowledgebase
