import Claudear.Chunking.Code

/-!
# Search results as context

Three functions cut the text of a chunk at a number of bytes. A slice that does not end at
a character boundary panics, which is `none` here. How a score is written is a parameter.
-/

namespace Claudear.Chunking

open Claudear.Text

variable {Score : Type}

structure CodeSearchResult (Score : Type) where
  chunk : CodeChunk
  score : Score

structure DiscordMessageChunk where
  guild_id : Option String
  channel_id : String
  start_message_id : String
  end_message_id : String
  participant_ids : Option (List String)
  start_message_time : String
  end_message_time : String
  chunk_text : List Char

structure DiscordSearchResult (Score : Type) where
  chunk : DiscordMessageChunk
  score : Score

def truncated : List Char := "...\n(truncated)".toList

/-! ## Code -/

def shownCode (chunk_text : List Char) : Option (List Char) :=
  if 2000 < byteLength chunk_text then (sliceTo 2000 chunk_text).map (· ++ truncated) else some chunk_text

def codeEntry (percent : Score → String) (i : Nat) (result : CodeSearchResult Score) (code : List Char) : String :=
  let chunk := result.chunk
  s!"### {i + 1}. `{chunk.file_path}` (Similarity: {percent result.score}%)\n" ++
  (match chunk.symbol_name with
    | some symbol => s!"**Symbol:** {symbol} ({chunk.chunk_type})\n"
    | none => "") ++
  s!"**Lines:** {chunk.start_line}-{chunk.end_line} | **Language:** {chunk.language.asStr}\n" ++
  s!"```{chunk.language.asStr.toLower}\n{String.ofList code}\n```\n\n"

def codeIntro : String :=
  "\n\n## Relevant Code from Repository\n\n" ++
  "The following code snippets were found to be semantically relevant to this issue. " ++
  "Use them to understand the codebase and inform your approach:\n\n"

section
variable {R : Type} (shown : R → Option (List Char)) (entry : Nat → R → List Char → String)

/-- The loop over the results, each with the text shown for it. -/
def entriesFrom : Nat → List R → Option String
  | _, [] => some ""
  | i, result :: rest => (shown result).bind fun text => (entriesFrom (i + 1) rest).map (entry i result text ++ ·)

/-- The entries with these texts. -/
def rendered : Nat → List R → List (List Char) → String
  | i, result :: rest, text :: texts => entry i result text ++ rendered (i + 1) rest texts
  | _, _, _ => ""

end

def formatCodeSearchContext (percent : Score → String) (results : List (CodeSearchResult Score)) : Option String :=
  if results.isEmpty then some ""
  else (entriesFrom (fun result => shownCode result.chunk.chunk_text) (codeEntry percent) 0 results).map (codeIntro ++ ·)

/-! ## Discord -/

def shownDiscord (chunk_text : List Char) : Option (List Char) :=
  if 2000 < byteLength chunk_text then (sliceTo (floorBoundary chunk_text 2000) chunk_text).map (· ++ truncated)
  else some chunk_text

def discordJumpUrl (guild_id : Option String) (channel_id message_id : String) : String :=
  match guild_id.filter (· ≠ "") with
  | some guild_id => s!"https://discord.com/channels/{guild_id}/{channel_id}/{message_id}"
  | none => s!"https://discord.com/channels/@me/{channel_id}/{message_id}"

def discordSpanLinks (chunk : DiscordMessageChunk) : String :=
  let start' := discordJumpUrl chunk.guild_id chunk.channel_id chunk.start_message_id
  if chunk.end_message_id = chunk.start_message_id then s!"[Channel `{chunk.channel_id}`](" ++ start' ++ ")"
  else
    let stop := discordJumpUrl chunk.guild_id chunk.channel_id chunk.end_message_id
    s!"Channel `{chunk.channel_id}` — [from](" ++ start' ++ ") → [to](" ++ stop ++ ")"

def discordEntry (percent : Score → String) (i : Nat) (result : DiscordSearchResult Score) (text : List Char) : String :=
  let chunk := result.chunk
  s!"### {i + 1}. {discordSpanLinks chunk} (Similarity: {percent result.score}%)\n" ++
  (match chunk.participant_ids.filter (· ≠ []) with
    | some participants => "**Participants:** " ++ ", ".intercalate participants ++ "\n"
    | none => "") ++
  s!"**When:** {chunk.start_message_time} – {chunk.end_message_time}\n" ++
  s!"```\n{String.ofList text}\n```\n\n"

def discordIntro : String :=
  "\n\n## Relevant Discussions from Discord\n\n" ++
  "The following Discord conversations were found to be semantically relevant to this issue. " ++
  "Use them to understand prior discussion and inform your approach:\n\n"

def formatDiscordSearchContext (percent : Score → String) (results : List (DiscordSearchResult Score)) : Option String :=
  if results.isEmpty then some ""
  else (entriesFrom (fun result => shownDiscord result.chunk.chunk_text) (discordEntry percent) 0 results).map (discordIntro ++ ·)

/-! ## Embeddings -/

def MAX_CHUNK_CHARS : Nat := 6000

def embeddingMarker : List Char := "\n// ... truncated ...".toList

def shownEmbedding (chunk_text : List Char) : Option (List Char) :=
  if MAX_CHUNK_CHARS < byteLength chunk_text then
    (sliceTo (floorBoundary chunk_text MAX_CHUNK_CHARS) chunk_text).map (· ++ embeddingMarker)
  else some chunk_text

def buildEmbeddingText (context_text : String) (chunk_text : List Char) : Option String :=
  (shownEmbedding chunk_text).map fun text => context_text ++ "\n" ++ String.ofList text

/-! ## What is shown -/

/-- `shown` is `text` where it is within the limit, and otherwise starts with a part of it. -/
def Shows (limit : Nat) (marker text shown : List Char) : Prop :=
  ∃ part, part <+: text ∧ (byteLength text ≤ limit → part = text) ∧
    shown = part ++ if byteLength text ≤ limit then [] else marker

variable {limit n : Nat} {marker text shown : List Char} {R : Type} {show' : R → Option (List Char)}
  {entry : Nat → R → List Char → String} {results : List R} {out : String} {i : Nat}

theorem shows_whole (h : byteLength text ≤ limit) : Shows limit marker text text :=
  ⟨text, List.prefix_rfl, fun _ => rfl, by rw [if_pos h, List.append_nil]⟩

/-- A text over the limit that is cut at a boundary. -/
theorem shows_cut (h : limit < byteLength text) (hb : isCharBoundary n text = true) :
    ∃ shown, (sliceTo n text).map (· ++ marker) = some shown ∧ Shows limit marker text shown := by
  obtain ⟨part, hpart⟩ := Option.isSome_iff_exists.mp hb
  refine ⟨part ++ marker, by rw [hpart]; rfl, part, (sliceTo_eq_some.mp hpart).1, fun hle => ?_, ?_⟩
  · exact absurd h (Nat.not_lt_of_le hle)
  · rw [if_neg (Nat.not_le_of_lt h)]

theorem shownDiscord_shows (text : List Char) : ∃ shown, shownDiscord text = some shown ∧ Shows 2000 truncated text shown := by
  rw [shownDiscord]
  split
  · rename_i h
    exact shows_cut h isCharBoundary_floorBoundary
  · rename_i h
    exact ⟨text, rfl, shows_whole (Nat.le_of_not_lt h)⟩

theorem shownEmbedding_shows (text : List Char) :
    ∃ shown, shownEmbedding text = some shown ∧ Shows MAX_CHUNK_CHARS embeddingMarker text shown := by
  rw [shownEmbedding]
  split
  · rename_i h
    exact shows_cut h isCharBoundary_floorBoundary
  · rename_i h
    exact ⟨text, rfl, shows_whole (Nat.le_of_not_lt h)⟩

/-- The cut at 2000 bytes, which may fall inside a character. -/
def Sliceable (text : List Char) : Prop := byteLength text ≤ 2000 ∨ isCharBoundary 2000 text = true

theorem shownCode_shows (h : Sliceable text) : ∃ shown, shownCode text = some shown ∧ Shows 2000 truncated text shown := by
  rw [shownCode]
  split
  · rename_i hlt
    exact shows_cut hlt (h.resolve_left (Nat.not_le_of_lt hlt))
  · rename_i hle
    exact ⟨text, rfl, shows_whole (Nat.le_of_not_lt hle)⟩

theorem sliceable_of_shownCode (h : shownCode text = some shown) : Sliceable text := by
  rw [shownCode] at h
  split at h
  · obtain ⟨part, hpart, -⟩ := Option.map_eq_some_iff.mp h
    exact .inr (Option.isSome_iff_exists.mpr ⟨part, hpart⟩)
  · rename_i hle
    exact .inl (Nat.le_of_not_lt hle)

/-! ## All results -/

theorem entriesFrom_eq_some : entriesFrom show' entry i results = some out ↔
    ∃ texts, List.Forall₂ (fun result text => show' result = some text) results texts ∧ out = rendered entry i results texts := by
  induction results generalizing i out with
  | nil =>
    rw [entriesFrom]
    constructor
    · intro h
      exact ⟨[], .nil, (Option.some.inj h).symm⟩
    · rintro ⟨texts, -, rfl⟩
      rfl
  | cons result results ih =>
    rw [entriesFrom, Option.bind_eq_some_iff]
    constructor
    · rintro ⟨text, htext, h⟩
      obtain ⟨rest, hrest, rfl⟩ := Option.map_eq_some_iff.mp h
      obtain ⟨texts, htexts, rfl⟩ := ih.mp hrest
      exact ⟨text :: texts, .cons htext htexts, rfl⟩
    · rintro ⟨_, _ | ⟨htext, htexts⟩, rfl⟩
      exact ⟨_, htext, Option.map_eq_some_iff.mpr ⟨_, ih.mpr ⟨_, htexts, rfl⟩, rfl⟩⟩

/-- The context built from `results`: one entry for each, which shows the text of its chunk. -/
def Survives (limit : Nat) (marker : List Char) (textOf : R → List Char) (intro' : String)
    (entry : Nat → R → List Char → String) (results : List R) (out : Option String) : Prop :=
  ∃ texts, List.Forall₂ (fun result shown => Shows limit marker (textOf result) shown) results texts ∧
    out = some (if results.isEmpty then "" else intro' ++ rendered entry 0 results texts)

variable {textOf : R → List Char} {show₀ : List Char → Option (List Char)} {intro' : String}

theorem exists_texts (h : ∀ result ∈ results, ∃ shown, show₀ (textOf result) = some shown ∧ Shows limit marker (textOf result) shown) :
    ∃ texts, List.Forall₂ (fun result shown => show₀ (textOf result) = some shown) results texts ∧
      List.Forall₂ (fun result shown => Shows limit marker (textOf result) shown) results texts := by
  induction results with
  | nil => exact ⟨[], .nil, .nil⟩
  | cons result results ih =>
    obtain ⟨shown, hshown, hshows⟩ := h result List.mem_cons_self
    obtain ⟨texts, htexts, hall⟩ := ih fun other hother => h other (List.mem_cons_of_mem result hother)
    exact ⟨shown :: texts, .cons hshown htexts, .cons hshows hall⟩

/-- A loop in which no cut falls inside a character gives all its entries. -/
theorem survives_of_shows
    (h : ∀ result ∈ results, ∃ shown, show₀ (textOf result) = some shown ∧ Shows limit marker (textOf result) shown) :
    Survives limit marker textOf intro' entry results
      (if results.isEmpty then some ""
        else (entriesFrom (fun result => show₀ (textOf result)) entry 0 results).map (intro' ++ ·)) := by
  obtain ⟨texts, htexts, hall⟩ := exists_texts h
  refine ⟨texts, hall, ?_⟩
  split
  · rfl
  · rw [entriesFrom_eq_some.mpr ⟨texts, htexts, rfl⟩]
    rfl

theorem forall_some_of_entriesFrom (h : entriesFrom show' entry i results = some out) :
    ∀ result ∈ results, ∃ shown, show' result = some shown := by
  obtain ⟨texts, htexts, -⟩ := entriesFrom_eq_some.mp h
  clear h
  induction htexts with
  | nil =>
    intro result hmem
    exact absurd hmem List.not_mem_nil
  | cons htext _ ih =>
    intro result hmem
    rcases List.mem_cons.mp hmem with rfl | hmem
    · exact ⟨_, htext⟩
    · exact ih result hmem

theorem sliceable_of_format {percent : Score → String} {results : List (CodeSearchResult Score)}
    (h : formatCodeSearchContext percent results = some out) : ∀ result ∈ results, Sliceable result.chunk.chunk_text := by
  intro result hmem
  have hne : results.isEmpty = false := by
    cases results with
    | nil => exact absurd hmem List.not_mem_nil
    | cons first rest => rfl
  rw [formatCodeSearchContext, hne, if_neg Bool.false_ne_true] at h
  obtain ⟨entries, hentries, -⟩ := Option.map_eq_some_iff.mp h
  obtain ⟨shown, hshown⟩ := forall_some_of_entriesFrom hentries result hmem
  exact sliceable_of_shownCode hshown

/-- The contexts from Discord and for an embedding are built from any texts, the one from code
exactly when no cut of a text falls inside a character. -/
theorem contexts_survive_iff (percent : Score → String) (results : List (CodeSearchResult Score))
    (discord : List (DiscordSearchResult Score)) (context_text : String) (chunk_text : List Char) :
    (Survives 2000 truncated (·.chunk.chunk_text) codeIntro (codeEntry percent) results
        (formatCodeSearchContext percent results) ∧
      Survives 2000 truncated (·.chunk.chunk_text) discordIntro (discordEntry percent) discord
        (formatDiscordSearchContext percent discord) ∧
      ∃ shown, Shows MAX_CHUNK_CHARS embeddingMarker chunk_text shown ∧
        buildEmbeddingText context_text chunk_text = some (context_text ++ "\n" ++ String.ofList shown)) ↔
    ∀ result ∈ results, Sliceable result.chunk.chunk_text := by
  constructor
  · rintro ⟨⟨texts, -, hout⟩, -, -⟩
    exact sliceable_of_format hout
  · intro h
    obtain ⟨shown, hshown, hshows⟩ := shownEmbedding_shows chunk_text
    refine ⟨?_, ?_, shown, hshows, by rw [buildEmbeddingText, hshown]; rfl⟩
    · exact survives_of_shows fun result hmem => shownCode_shows (h result hmem)
    · exact survives_of_shows fun result _ => shownDiscord_shows result.chunk.chunk_text

def accentedChunk : CodeChunk :=
  { id := none, repo_id := 1, file_path := "a.rs", chunk_type := "function", symbol_name := none, language := .Rust,
    start_line := 1, end_line := 1, chunk_text := List.replicate 1999 'a' ++ ['é'], context_text := "", file_hash := "",
    content_hash := none }

theorem accentedChunk_panics :
    ¬ ∃ out, formatCodeSearchContext (fun _ : Unit => "50") [{ chunk := accentedChunk, score := () }] = some out := by
  rintro ⟨out, h⟩
  rcases sliceable_of_format h _ List.mem_cons_self with hle | hb
  · exact absurd hle (by decide +kernel)
  · exact absurd hb (by decide +kernel)

end Claudear.Chunking
