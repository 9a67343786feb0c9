import Claudear.Knowledgebase.DiscordIndexer

/-!
# Runs of the Discord indexer

Whatever batches fail, the calls store the windows batch by batch in the order of `batches`:
a failed call leaves the batches before the failure, and the next call goes on from there.
-/

namespace Claudear.Knowledgebase

open Claudear.Core Claudear.Data Claudear.Sql

variable {ε : Type} {ix : DiscordIndexer} {t saved : DiscordTables ε} {chunks : List DiscordMessageChunk}
  {channel_id : String} {channel_kind : DiscordChannelKind} {texts : List String} {attempt : Attempt ε} {attempts : Nat → Attempt ε}
  {inputs : List DiscordMessageInput} {windows : List (List DiscordMessageInput)} {g : Grouping} {m : DiscordMessageInput}

/-! ## Windows -/

theorem group_flatten {g' : Grouping} (h : ix.group g m = some g') :
    (g'.closed ++ [g'.current]).flatten = (g.closed ++ [g.current]).flatten ++ [m] := by
  obtain ⟨apart, -, rfl⟩ := Option.map_eq_some_iff.mp h
  cases apart <;> simp

theorem foldlM_group_flatten {g' : Grouping} (h : inputs.foldlM ix.group g = some g') :
    (g'.closed ++ [g'.current]).flatten = (g.closed ++ [g.current]).flatten ++ inputs := by
  induction inputs generalizing g with
  | nil =>
    cases h
    rw [List.append_nil]
  | cons m rest ih =>
    obtain ⟨next, hnext, hrest⟩ := Option.bind_eq_some_iff.mp h
    rw [ih hrest, group_flatten hnext, List.append_assoc]
    rfl

/-- The windows hold the messages in their order. -/
theorem buckets_flatten (h : ix.buckets inputs = some windows) : windows.flatten = inputs := by
  obtain ⟨g, hg, rfl⟩ := Option.map_eq_some_iff.mp h
  exact foldlM_group_flatten hg

theorem foldlM_group_isSome (hvalid : ∀ m ∈ inputs, (ix.parseFromRfc3339 m.timestamp).isSome = true)
    (hlast : ∀ prev, g.last_message = some prev → (ix.parseFromRfc3339 prev.timestamp).isSome = true) :
    (inputs.foldlM ix.group g).isSome = true := by
  induction inputs generalizing g with
  | nil => rfl
  | cons m rest ih =>
    obtain ⟨hm, hrest⟩ := List.forall_mem_cons.mp hvalid
    obtain ⟨t1, ht1⟩ := Option.isSome_iff_exists.mp hm
    obtain ⟨apart, hapart⟩ : ∃ apart, ix.startsWindow g m = some apart := by
      unfold DiscordIndexer.startsWindow
      cases hg : g.last_message with
      | none => exact ⟨false, rfl⟩
      | some prev =>
        obtain ⟨t2, ht2⟩ := Option.isSome_iff_exists.mp (hlast prev hg)
        refine ⟨decide (10 < (numMinutes (signedDurationSince t2 t1)).natAbs), ?_⟩
        simp only [DiscordIndexer.moreThan10MinutesApart, ht1, ht2]
        rfl
    obtain ⟨next, hnext, hlast'⟩ : ∃ next, ix.group g m = some next ∧ next.last_message = some m := by
      rw [DiscordIndexer.group, hapart]
      cases apart with
      | false => exact ⟨_, rfl, rfl⟩
      | true => exact ⟨_, rfl, rfl⟩
    rw [List.foldlM_cons, hnext]
    refine ih hrest fun prev hprev => ?_
    rw [hlast'] at hprev
    rw [← Option.some.inj hprev]
    exact hm

/-- With valid timestamps, the grouping does not panic. -/
theorem buckets_isSome (hvalid : ∀ m ∈ inputs, (ix.parseFromRfc3339 m.timestamp).isSome = true) :
    (ix.buckets inputs).isSome = true := by
  rw [DiscordIndexer.buckets, Option.isSome_map]
  exact foldlM_group_isSome hvalid fun prev hprev => by cases hprev

/-- The texts of the windows. -/
def textsOf (windows : List (List DiscordMessageInput)) : List String := (windows.filter (· ≠ [])).map chunkText

theorem textsOf_nil_cons : textsOf ([] :: windows) = textsOf windows := by
  rw [textsOf, List.filter_cons_of_neg (by simp)]
  rfl

theorem textsOf_cons {first : DiscordMessageInput} {rest : List DiscordMessageInput} :
    textsOf ((first :: rest) :: windows) = chunkText (first :: rest) :: textsOf windows := by
  rw [textsOf, List.filter_cons_of_pos (by simp)]
  rfl

/-! ## Batches -/

theorem UniqueTexts.foldl_add (chunks : List DiscordMessageChunk) (u : UniqueTexts)
    (hindex : ∀ key idx, u.hash_to_embed_idx key = some idx → idx < u.unique_texts.length)
    (hidx : ∀ idx ∈ u.chunk_to_embed_idx, idx < u.unique_texts.length) :
    (chunks.foldl UniqueTexts.add u).chunk_to_embed_idx.length = u.chunk_to_embed_idx.length + chunks.length ∧
      ∀ idx ∈ (chunks.foldl UniqueTexts.add u).chunk_to_embed_idx, idx < (chunks.foldl UniqueTexts.add u).unique_texts.length := by
  induction chunks generalizing u with
  | nil => exact ⟨rfl, hidx⟩
  | cons chunk rest ih =>
    have hadd : (u.add chunk).chunk_to_embed_idx.length = u.chunk_to_embed_idx.length + 1 ∧
        (∀ key idx, (u.add chunk).hash_to_embed_idx key = some idx → idx < (u.add chunk).unique_texts.length) ∧
        ∀ idx ∈ (u.add chunk).chunk_to_embed_idx, idx < (u.add chunk).unique_texts.length := by
      cases hkey : u.hash_to_embed_idx (chunk.contentHash.getD "") with
      | some idx =>
        rw [UniqueTexts.add, hkey]
        refine ⟨List.length_append, hindex, fun j hj => ?_⟩
        rcases List.mem_append.mp hj with hj | hj
        · exact hidx j hj
        · exact List.mem_singleton.mp hj ▸ hindex _ idx hkey
      | none =>
        have hlength : u.unique_texts.length < (u.unique_texts ++ [chunk.contextText ++ "\n\n" ++ chunk.chunkText]).length := by
          rw [List.length_append]
          exact Nat.lt_succ_self _
        rw [UniqueTexts.add, hkey]
        refine ⟨List.length_append, fun key j hj => ?_, fun j hj => ?_⟩
        · dsimp only at hj
          rw [Function.update_apply] at hj
          split at hj
          · exact Option.some.inj hj ▸ hlength
          · exact (hindex key j hj).trans hlength
        · rcases List.mem_append.mp hj with hj | hj
          · exact (hidx j hj).trans hlength
          · exact List.mem_singleton.mp hj ▸ hlength
    obtain ⟨hlength, hindex', hidx'⟩ := hadd
    obtain ⟨hlength', hfinal⟩ := ih (u.add chunk) hindex' hidx'
    refine ⟨?_, hfinal⟩
    rw [List.foldl_cons, hlength', hlength, List.length_cons, Nat.add_assoc, Nat.add_comm 1]

/-- Every chunk gets an embedding. -/
theorem map_fst_pairsOf {ids idxs : List Nat} {embeddings : List ε} (hlength : ids.length = idxs.length)
    (hidx : ∀ idx ∈ idxs, idx < embeddings.length) : (pairsOf ids idxs embeddings).map Prod.fst = ids := by
  induction ids generalizing idxs with
  | nil => rfl
  | cons id ids ih =>
    cases idxs with
    | nil => cases hlength
    | cons idx idxs =>
      obtain ⟨h, hrest⟩ := List.forall_mem_cons.mp hidx
      have := ih (Nat.succ.inj hlength) hrest
      rw [pairsOf] at this ⊢
      rw [List.zip_cons_cons, List.filterMap_cons_some (b := (id, embeddings[idx]))]
      · exact congrArg (id :: ·) this
      · simp only [List.getElem?_eq_getElem h, Option.map_some]

/-- Every stored chunk of the channel is embedded, has the hash of its text, and a text out of `texts`. -/
structure Clean (ix : DiscordIndexer) (channel_id : String) (texts : List String) (t : DiscordTables ε) : Prop where
  embedded : ∀ r ∈ t.channelRows channel_id, t.Embedded r.1
  hashed : ∀ r ∈ t.channelRows channel_id, r.2.contentHash = some (ix.sha256Hex r.2.chunkText)
  known : ∀ r ∈ t.channelRows channel_id, r.2.chunkText ∈ texts

/-- A chunk of the channel that may wait. -/
def Pends (ix : DiscordIndexer) (channel_id : String) (texts : List String) (chunk : DiscordMessageChunk) : Prop :=
  chunk.channelId = channel_id ∧ chunk.contentHash = some (ix.sha256Hex chunk.chunkText) ∧ chunk.chunkText ∈ texts

theorem pends_concat {channel_kind : DiscordChannelKind} {first : DiscordMessageInput} {rest : List DiscordMessageInput}
    (hpends : ∀ chunk ∈ chunks, Pends ix channel_id texts chunk) (htext : chunkText (first :: rest) ∈ texts) :
    ∀ chunk ∈ chunks ++ [ix.chunkOf channel_id channel_kind first rest], Pends ix channel_id texts chunk := by
  intro chunk hchunk
  rcases List.mem_append.mp hchunk with hchunk | hchunk
  · exact hpends chunk hchunk
  · obtain rfl := List.mem_singleton.mp hchunk
    exact ⟨rfl, rfl, htext⟩

theorem Clean.congr (h : Clean ix channel_id texts t) (hchunks : saved.chunks.rows = t.chunks.rows)
    (hembeddings : saved.embeddings.rows = t.embeddings.rows) :
    Clean ix channel_id texts saved ∧ saved.channelTexts channel_id = t.channelTexts channel_id := by
  have hrows : saved.channelRows channel_id = t.channelRows channel_id := by
    rw [DiscordTables.channelRows, hchunks]
    rfl
  have hembedded (id : Nat) : saved.Embedded id ↔ t.Embedded id := by
    have hget (i : Nat) (e : EmbeddingRow ε) : saved.embeddings.get i = some e ↔ t.embeddings.get i = some e := by
      rw [Table.get_eq_some, Table.get_eq_some, hembeddings]
    exact exists_congr fun i => exists_congr fun e => and_congr_left' (hget i e)
  refine ⟨⟨fun r hr => ?_, fun r hr => ?_, fun r hr => ?_⟩, ?_⟩
  · exact (hembedded r.1).mpr (h.embedded r (hrows ▸ hr))
  · exact h.hashed r (hrows ▸ hr)
  · exact h.known r (hrows ▸ hr)
  · rw [DiscordTables.channelTexts, hrows]
    rfl

theorem channelRows_saved (hchannel : ∀ chunk ∈ chunks, chunk.channelId = channel_id) :
    (t.saveDiscordChunks chunks).1.channelRows channel_id = t.channelRows channel_id ++
      (List.range' t.chunks.next chunks.length).zip (chunks.map DiscordMessageChunk.row) := by
  rw [DiscordTables.channelRows, (t.saveDiscordChunks_spec chunks).2.1, List.filter_append]
  refine congrArg (t.channelRows channel_id ++ ·) (List.filter_eq_self.mpr ?_)
  rintro ⟨i, row⟩ hr
  obtain ⟨chunk, hchunk, rfl⟩ := List.mem_map.mp (List.of_mem_zip hr).2
  exact decide_eq_true (hchannel chunk hchunk)

/-- The saved chunks, all embedded. -/
theorem Clean.save (h : Clean ix channel_id texts t) (hpends : ∀ chunk ∈ chunks, Pends ix channel_id texts chunk)
    (hchunks : saved.chunks = (t.saveDiscordChunks chunks).1.chunks)
    (hembedded : ∀ id, saved.Embedded id ↔ t.Embedded id ∨ id ∈ List.range' t.chunks.next chunks.length) :
    Clean ix channel_id texts saved ∧
      saved.channelTexts channel_id = t.channelTexts channel_id ++ chunks.map DiscordMessageChunk.chunkText := by
  have hrows : saved.channelRows channel_id = t.channelRows channel_id ++
      (List.range' t.chunks.next chunks.length).zip (chunks.map DiscordMessageChunk.row) := by
    rw [DiscordTables.channelRows, hchunks]
    exact channelRows_saved fun chunk hchunk => (hpends chunk hchunk).1
  have hnew : ∀ r ∈ (List.range' t.chunks.next chunks.length).zip (chunks.map DiscordMessageChunk.row),
      r.1 ∈ List.range' t.chunks.next chunks.length ∧ ∃ chunk ∈ chunks, chunk.row = r.2 := by
    rintro ⟨i, row⟩ hr
    exact (List.of_mem_zip hr).imp_right List.mem_map.mp
  refine ⟨⟨fun r hr => ?_, fun r hr => ?_, fun r hr => ?_⟩, ?_⟩
  all_goals try rw [hrows, List.mem_append] at hr
  · exact (hembedded r.1).mpr (hr.imp (h.embedded r) fun hr => (hnew r hr).1)
  · rcases hr with hr | hr
    · exact h.hashed r hr
    · obtain ⟨-, chunk, hchunk, hrow⟩ := hnew r hr
      rw [← hrow]
      exact (hpends chunk hchunk).2.1
  · rcases hr with hr | hr
    · exact h.known r hr
    · obtain ⟨-, chunk, hchunk, hrow⟩ := hnew r hr
      rw [← hrow]
      exact (hpends chunk hchunk).2.2
  · have hlength : (chunks.map DiscordMessageChunk.row).length ≤ (List.range' t.chunks.next chunks.length).length := by simp
    have htexts : (((List.range' t.chunks.next chunks.length).zip (chunks.map DiscordMessageChunk.row)).map Prod.snd).map
        ChunkRow.chunkText = chunks.map DiscordMessageChunk.chunkText := by
      rw [List.map_snd_zip hlength, List.map_map]
      rfl
    rw [DiscordTables.channelTexts, hrows, List.map_append, ← htexts, List.map_map]
    rfl

/-- The embeddings of the saved chunks go in, unless the client or the database fails. -/
theorem embedChunks_spec : (∃ saved, ix.embedChunks attempt (t.saveDiscordChunks chunks).1 (t.saveDiscordChunks chunks).2 chunks = some saved ∧
      saved.chunks = (t.saveDiscordChunks chunks).1.chunks ∧
      ∀ id, saved.Embedded id ↔ t.Embedded id ∨ id ∈ List.range' t.chunks.next chunks.length) ∨
    ix.embedChunks attempt (t.saveDiscordChunks chunks).1 (t.saveDiscordChunks chunks).2 chunks = none ∧ ¬ attempt.Works := by
  obtain ⟨hids, hrows, hembeddings, -⟩ := t.saveDiscordChunks_spec chunks
  obtain ⟨hlength, hidx⟩ := UniqueTexts.foldl_add chunks {} (fun key idx h => nomatch h) fun idx h => nomatch h
  unfold DiscordIndexer.embedChunks
  dsimp only
  cases hembed : attempt.embedBatch (chunks.foldl UniqueTexts.add {}).unique_texts with
  | none => exact .inr ⟨rfl, fun h => h.1 _ hembed⟩
  | some embeddings =>
    have hpairs : (pairsOf (t.saveDiscordChunks chunks).2 (chunks.foldl UniqueTexts.add {}).chunk_to_embed_idx embeddings).map Prod.fst =
        List.range' t.chunks.next chunks.length := by
      rw [map_fst_pairsOf _ fun idx h => attempt.complete _ _ hembed ▸ hidx idx h, hids]
      rw [hids, List.length_range', hlength]
      exact (Nat.zero_add _).symm
    have hnew : ∀ id ∈ List.range' t.chunks.next chunks.length,
        ((t.saveDiscordChunks chunks).1.chunks.get id).isSome = true ∧ ¬ (t.saveDiscordChunks chunks).1.Embedded id := by
      intro id hid
      have hge := (List.mem_range'_1.mp hid).1
      constructor
      · have hkeys : (List.range' t.chunks.next chunks.length).length ≤ (chunks.map DiscordMessageChunk.row).length := by simp
        rw [← List.map_fst_zip hkeys] at hid
        obtain ⟨⟨i, row⟩, hr, rfl⟩ := List.mem_map.mp hid
        rw [Table.get_eq_some.mpr (hrows ▸ List.mem_append_right _ hr)]
        rfl
      · rintro ⟨i, e, he, rfl⟩
        rw [hembeddings] at he
        obtain ⟨chunk, hchunk⟩ := t.references i e he
        exact absurd (Table.lt_next hchunk) (Nat.not_lt.mpr hge)
    cases hsaves : attempt.saves with
    | false => exact .inr ⟨rfl, fun h => by rw [h.2] at hsaves; cases hsaves⟩
    | true =>
      obtain ⟨saved, hsaved, hchunks, -, hembedded⟩ := DiscordTables.saveDiscordChunkEmbeddings_spec
        (hpairs ▸ List.nodup_range') (hpairs ▸ hnew)
      refine .inl ⟨saved, hsaved, hchunks, fun id => ?_⟩
      rw [hembedded, hpairs, DiscordTables.Embedded, hembeddings]
      rfl

/-- A batch is stored as a whole with its embeddings, or not at all. -/
theorem flush_spec (hclean : Clean ix channel_id texts t) (hpends : ∀ chunk ∈ chunks, Pends ix channel_id texts chunk) :
    Clean ix channel_id texts (ix.flush attempt t chunks).1 ∧
      (ix.flush attempt t chunks).1.channelTexts channel_id = t.channelTexts channel_id ++
        (if (ix.flush attempt t chunks).2 then chunks.map DiscordMessageChunk.chunkText else []) ∧
      (attempt.Works → (ix.flush attempt t chunks).2 = true) := by
  unfold DiscordIndexer.flush
  split
  · rename_i hnil
    subst hnil
    exact ⟨hclean, by simp, fun _ => rfl⟩
  · rcases @embedChunks_spec _ ix t chunks attempt with
      ⟨saved, hsaved, hchunks, hembedded⟩ | ⟨hnone, hworks⟩
    · have hsave := hclean.save hpends hchunks hembedded
      simp only [hsaved]
      exact ⟨hsave.1, hsave.2, fun _ => trivial⟩
    · have hdiscard := hclean.congr (t.rows_delete_save chunks).1 (t.rows_delete_save chunks).2
      simp only [hnone]
      exact ⟨hdiscard.1, by simp [hdiscard.2], fun h => absurd h hworks⟩

/-! ## Calls -/

/-- The hashes tell the texts apart. -/
def Apart (ix : DiscordIndexer) (texts : List String) : Prop := ∀ a ∈ texts, ∀ b ∈ texts, ix.sha256Hex a = ix.sha256Hex b → a = b

variable {p : Progress ε} {first : DiscordMessageInput} {rest : List DiscordMessageInput}

theorem hashMatches_iff (hclean : Clean ix channel_id texts t) (hapart : Apart ix texts) {text : String} (htext : text ∈ texts) :
    t.discordChunkHashMatches channel_id (ix.sha256Hex text) = true ↔ text ∈ t.channelTexts channel_id := by
  rw [DiscordTables.discordChunkHashMatches_iff hclean.embedded, DiscordTables.channelTexts, List.mem_map]
  refine exists_congr fun r => and_congr_right fun hr => ?_
  rw [hclean.hashed r hr, Option.some_inj]
  exact ⟨hapart _ (hclean.known r hr) _ htext, fun h => congrArg ix.sha256Hex h⟩

theorem indexWindow_skip (h : p.tables.discordChunkHashMatches channel_id (ix.sha256Hex (chunkText (first :: rest))) = true) :
    ∃ stats, ix.indexWindow attempts channel_id channel_kind p (first :: rest) = .ok { p with stats } :=
  ⟨_, if_pos h⟩

theorem indexWindow_wait (h : ¬ p.tables.discordChunkHashMatches channel_id (ix.sha256Hex (chunkText (first :: rest))) = true)
    (hfull : ¬ ix.batchSize ≤ (p.pending ++ [ix.chunkOf channel_id channel_kind first rest]).length) :
    ∃ stats, ix.indexWindow attempts channel_id channel_kind p (first :: rest) =
      .ok { p with pending := p.pending ++ [ix.chunkOf channel_id channel_kind first rest], stats } :=
  ⟨_, (if_neg h).trans (if_neg hfull)⟩

theorem indexWindow_full (h : ¬ p.tables.discordChunkHashMatches channel_id (ix.sha256Hex (chunkText (first :: rest))) = true)
    (hfull : ix.batchSize ≤ (p.pending ++ [ix.chunkOf channel_id channel_kind first rest]).length) :
    ∃ stats, ix.indexWindow attempts channel_id channel_kind p (first :: rest) =
      let flushed := ix.flush (attempts p.flushes) p.tables (p.pending ++ [ix.chunkOf channel_id channel_kind first rest])
      if flushed.2 then .ok { tables := flushed.1, stats, flushes := p.flushes + 1 } else .error flushed.1 :=
  ⟨_, (if_neg h).trans (if_pos hfull)⟩

/-- The call stores the first `k` batches, and all of them when it returns `Ok`. -/
structure Stores (ix : DiscordIndexer) (channel_id : String) (texts stored : List String) (bs : List (List String))
    (result : DiscordTables ε × Option DiscordIndexStats) (k : Nat) : Prop where
  contents : result.1.channelTexts channel_id = stored ++ (bs.take k).flatten
  clean : Clean ix channel_id texts result.1
  all : result.2 ≠ none → bs.length ≤ k

theorem indexWindows_spec (hclean : Clean ix channel_id texts p.tables) (hpends : ∀ chunk ∈ p.pending, Pends ix channel_id texts chunk)
    (hapart : Apart ix texts) (hwindows : ∀ text ∈ textsOf windows, text ∈ texts) :
    (∃ k, Stores ix channel_id texts (p.tables.channelTexts channel_id)
      (batches ix.batchSize (p.tables.channelTexts channel_id) (p.pending.map (·.chunkText)) (textsOf windows))
      (ix.indexWindows attempts channel_id channel_kind p windows) k) ∧
    ((∀ n, (attempts n).Works) → (ix.indexWindows attempts channel_id channel_kind p windows).2 ≠ none) := by
  induction windows generalizing p with
  | nil =>
    obtain ⟨hclean', htexts, hworks⟩ := flush_spec hclean hpends
    have hbatches : batches ix.batchSize (p.tables.channelTexts channel_id) (p.pending.map (·.chunkText)) (textsOf []) =
        if p.pending.map (·.chunkText) = [] then [] else [p.pending.map (·.chunkText)] := rfl
    unfold DiscordIndexer.indexWindows
    rw [hbatches]
    cases hok : (ix.flush (attempts p.flushes) p.tables p.pending).2 with
    | false =>
      rw [hok] at htexts
      exact ⟨⟨0, htexts, hclean', fun h => absurd (if_neg (by simp [hok])) h⟩, fun h => by rw [hworks (h p.flushes)] at hok; cases hok⟩
    | true =>
      rw [hok, if_pos rfl] at htexts
      refine ⟨⟨1, ?_, hclean', fun _ => ?_⟩, fun _ => by simp [hok]⟩
      · refine htexts.trans (congrArg (p.tables.channelTexts channel_id ++ ·) ?_)
        split
        · rename_i hnil
          exact hnil
        · exact (List.append_nil _).symm
      · split
        · exact Nat.zero_le 1
        · exact Nat.le_refl 1
  | cons window windows ih =>
    cases window with
    | nil =>
      rw [textsOf_nil_cons] at hwindows ⊢
      exact ih hclean hpends hwindows
    | cons first rest =>
      rw [textsOf_cons] at hwindows ⊢
      obtain ⟨htext, hwindows⟩ := List.forall_mem_cons.mp hwindows
      have hmatches := hashMatches_iff hclean hapart htext
      unfold DiscordIndexer.indexWindows
      by_cases hstored : chunkText (first :: rest) ∈ p.tables.channelTexts channel_id
      · obtain ⟨stats, hskip⟩ := indexWindow_skip (hmatches.mpr hstored)
        rw [hskip, batches_stored hstored]
        exact ih (p := { p with stats }) hclean hpends hwindows
      · have hnew := mt hmatches.mp hstored
        have hpends' : ∀ chunk ∈ p.pending ++ [ix.chunkOf channel_id channel_kind first rest], Pends ix channel_id texts chunk :=
          pends_concat hpends htext
        have htexts' : (p.pending ++ [ix.chunkOf channel_id channel_kind first rest]).map (·.chunkText) =
            p.pending.map (·.chunkText) ++ [chunkText (first :: rest)] := List.map_append
        have hlength : (p.pending ++ [ix.chunkOf channel_id channel_kind first rest]).length =
            (p.pending.map (·.chunkText) ++ [chunkText (first :: rest)]).length := by rw [← htexts', List.length_map]
        by_cases hfull : ix.batchSize ≤ (p.pending ++ [ix.chunkOf channel_id channel_kind first rest]).length
        · obtain ⟨stats, hstep⟩ := indexWindow_full hnew hfull
          obtain ⟨hclean', hflushed, hworks⟩ := flush_spec hclean hpends'
          rw [hstep, batches_full hstored (hlength ▸ hfull)]
          dsimp only
          cases hok : (ix.flush (attempts p.flushes) p.tables (p.pending ++ [ix.chunkOf channel_id channel_kind first rest])).2 with
          | false =>
            rw [hok] at hflushed
            exact ⟨⟨0, hflushed, hclean', fun h => absurd rfl h⟩, fun h => by rw [hworks (h p.flushes)] at hok; cases hok⟩
          | true =>
            rw [hok, if_pos rfl, htexts'] at hflushed
            obtain ⟨⟨k, hk⟩, hall⟩ := ih (p := ⟨(ix.flush (attempts p.flushes) p.tables
              (p.pending ++ [ix.chunkOf channel_id channel_kind first rest])).1, [], stats, p.flushes + 1⟩) hclean'
              (fun chunk h => absurd h List.not_mem_nil) hwindows
            refine ⟨⟨k + 1, ?_, hk.clean, fun h => ?_⟩, hall⟩
            · refine hk.contents.trans ?_
              rw [hflushed, List.take_succ_cons, List.flatten_cons, List.append_assoc]
              rfl
            · have hle := hk.all h
              rw [hflushed] at hle
              exact Nat.succ_le_succ hle
        · obtain ⟨stats, hwait⟩ := indexWindow_wait hnew hfull
          rw [hwait, batches_wait hstored (hlength ▸ hfull), ← htexts']
          exact ih (p := { p with pending := p.pending ++ [ix.chunkOf channel_id channel_kind first rest], stats }) hclean hpends' hwindows

/-- When every window is stored, a call stores nothing. -/
theorem indexWindows_stored (hclean : Clean ix channel_id texts p.tables) (hpending : p.pending = []) (hapart : Apart ix texts)
    (hwindows : ∀ text ∈ textsOf windows, text ∈ texts ∧ text ∈ p.tables.channelTexts channel_id) :
    ∃ stats, ix.indexWindows attempts channel_id channel_kind p windows = (p.tables, some stats) := by
  induction windows generalizing p with
  | nil =>
    unfold DiscordIndexer.indexWindows DiscordIndexer.flush
    rw [if_pos hpending]
    exact ⟨p.stats, rfl⟩
  | cons window windows ih =>
    unfold DiscordIndexer.indexWindows
    cases window with
    | nil =>
      rw [textsOf_nil_cons] at hwindows
      exact ih hclean hpending hwindows
    | cons first rest =>
      rw [textsOf_cons] at hwindows
      obtain ⟨⟨htext, hstored⟩, hwindows⟩ := List.forall_mem_cons.mp hwindows
      obtain ⟨stats, hskip⟩ := indexWindow_skip
        ((hashMatches_iff hclean hapart htext).mpr hstored)
      rw [hskip]
      exact ih (p := { p with stats }) hclean hpending hwindows

end Claudear.Knowledgebase
