import Claudear.Knowledgebase.IndexRuns
import Claudear.Text.Delimited

/-!
# Indexing the same list again

Calls over one list fail until one returns `Ok`. What is stored then does not depend on the
failures; a text is stored twice exactly when two of its windows wait in one batch.
-/

namespace Claudear.Knowledgebase

open Claudear.Core Claudear.Data Claudear.Sql

variable {ε : Type}

/-- The texts of the windows of a list. -/
def DiscordIndexer.windowTexts (ix : DiscordIndexer) (inputs : List DiscordMessageInput) : List String :=
  textsOf ((ix.buckets inputs).getD [])

/-- Calls over the list that all return an error. -/
inductive Failing (ix : DiscordIndexer) (channel_id : String) (is_thread : Bool) (inputs : List DiscordMessageInput) :
    DiscordTables ε → DiscordTables ε → Prop where
  | none (t : DiscordTables ε) : Failing ix channel_id is_thread inputs t t
  | call {t t' : DiscordTables ε} (attempts : Nat → Attempt ε) :
    Failing ix channel_id is_thread inputs t t' → (ix.index attempts channel_id is_thread inputs t').2 = .err →
      Failing ix channel_id is_thread inputs t (ix.index attempts channel_id is_thread inputs t').1

structure Indexed (ix : DiscordIndexer) (channel_id : String) (is_thread : Bool) (inputs : List DiscordMessageInput)
    (t : DiscordTables ε) : Prop where
  distinct : (t.channelTexts channel_id).Nodup
  covered : ∀ m ∈ inputs, ∃ text ∈ t.channelTexts channel_id, (render m).toList <:+: text.toList
  embedded : ∀ r ∈ t.channelRows channel_id, t.Embedded r.1
  settled : ∀ attempts, ∃ stats, ix.index attempts channel_id is_thread inputs t = (t, .ok stats)

variable {ix : DiscordIndexer} {channel_id : String} {is_thread : Bool} {inputs : List DiscordMessageInput} {t t' : DiscordTables ε}
  {windows : List (List DiscordMessageInput)} {texts : List String} {attempts : Nat → Attempt ε} {m : DiscordMessageInput}

theorem windowTexts_eq (h : ix.buckets inputs = some windows) : ix.windowTexts inputs = textsOf windows := by
  rw [DiscordIndexer.windowTexts, h, Option.getD_some]

/-- The tables when the first `k` batches are stored. -/
structure StoredUpTo (ix : DiscordIndexer) (channel_id : String) (texts : List String) (k : Nat) (t : DiscordTables ε) : Prop where
  contents : t.channelTexts channel_id = ((batches ix.batchSize [] [] texts).take k).flatten
  clean : Clean ix channel_id texts t

theorem storedUpTo_zero (h : t.channelRows channel_id = []) : StoredUpTo ix channel_id texts 0 t := by
  have hnone : ∀ r ∈ t.channelRows channel_id, False := fun r hr => by simp [h] at hr
  refine ⟨?_, fun r hr => (hnone r hr).elim, fun r hr => (hnone r hr).elim, fun r hr => (hnone r hr).elim⟩
  rw [DiscordTables.channelTexts, h]
  rfl

theorem index_ok {tables : DiscordTables ε} {stats : DiscordIndexStats} (hbuckets : ix.buckets inputs = some windows)
    (h : ix.indexWindows attempts channel_id (if is_thread then .Thread else .Channel) { tables := t } windows = (tables, some stats)) :
    ix.index attempts channel_id is_thread inputs t =
      (tables.setDiscordMessageIndexMeta "index_version" DISCORD_INDEX_VERSION, .ok stats) := by
  rw [DiscordIndexer.index, hbuckets]
  simp only [h]

theorem index_err {tables : DiscordTables ε} (hbuckets : ix.buckets inputs = some windows)
    (h : ix.indexWindows attempts channel_id (if is_thread then .Thread else .Channel) { tables := t } windows = (tables, none)) :
    ix.index attempts channel_id is_thread inputs t = (tables, .err) := by
  rw [DiscordIndexer.index, hbuckets]
  simp only [h]

theorem StoredUpTo.setMeta {k : Nat} {key value : String} (h : StoredUpTo ix channel_id texts k t) :
    StoredUpTo ix channel_id texts k (t.setDiscordMessageIndexMeta key value) :=
  ⟨h.contents, h.clean.embedded, h.clean.hashed, h.clean.known⟩

theorem metadata_setMeta {key value : String} : (t.setDiscordMessageIndexMeta key value).metadata key = some value := by
  simp [DiscordTables.setDiscordMessageIndexMeta]

/-- A call goes on with the batches, and is through with them when it returns `Ok`. -/
theorem index_spec {k : Nat} (hbuckets : ix.buckets inputs = some windows) (hapart : Apart ix (textsOf windows))
    (h : StoredUpTo ix channel_id (textsOf windows) k t) :
    (∃ j, StoredUpTo ix channel_id (textsOf windows) (k + j) (ix.index attempts channel_id is_thread inputs t).1 ∧
      ∀ stats, (ix.index attempts channel_id is_thread inputs t).2 = .ok stats →
        (batches ix.batchSize [] [] (textsOf windows)).length ≤ k + j ∧
          (ix.index attempts channel_id is_thread inputs t).1.metadata "index_version" = some DISCORD_INDEX_VERSION) ∧
    (ix.index attempts channel_id is_thread inputs t).2 ≠ .panic ∧
    ((∀ n, (attempts n).Works) → ∃ stats, (ix.index attempts channel_id is_thread inputs t).2 = .ok stats) := by
  obtain ⟨⟨j, hj⟩, hworks⟩ := indexWindows_spec
    (p := { tables := t }) h.clean (fun chunk hchunk => absurd hchunk List.not_mem_nil) hapart fun text => id
  have hrest := @batches_drop _ _ ix.batchSize [] (textsOf windows) k
  rw [List.nil_append, ← h.contents] at hrest
  have hstored : StoredUpTo ix channel_id (textsOf windows) (k + j)
      (ix.indexWindows attempts channel_id (if is_thread then .Thread else .Channel) { tables := t } windows).1 := by
    refine ⟨hj.contents.trans ?_, hj.clean⟩
    rw [List.map_nil, hrest, h.contents, ← List.flatten_append, List.take_add]
  have hall := hj.all
  rw [List.map_nil, hrest, List.length_drop] at hall
  cases hcall : ix.indexWindows attempts channel_id (if is_thread then .Thread else .Channel) { tables := t } windows with
  | mk tables result =>
    rw [hcall] at hstored hall hworks
    cases result with
    | none =>
      rw [index_err hbuckets hcall]
      exact ⟨⟨j, hstored, fun stats hok => nomatch hok⟩, (fun hpanic => nomatch hpanic), fun hw => absurd rfl (hworks hw)⟩
    | some stats =>
      rw [index_ok hbuckets hcall]
      refine ⟨⟨j, hstored.setMeta, fun _ _ => ⟨?_, metadata_setMeta⟩⟩, (fun hpanic => nomatch hpanic), fun _ => ⟨stats, rfl⟩⟩
      have := hall (Option.some_ne_none stats)
      omega

theorem failing_storedUpTo (hbuckets : ix.buckets inputs = some windows) (hapart : Apart ix (textsOf windows))
    (hempty : t.channelRows channel_id = []) (hrun : Failing ix channel_id is_thread inputs t t') :
    ∃ k, StoredUpTo ix channel_id (textsOf windows) k t' := by
  induction hrun with
  | none => exact ⟨0, storedUpTo_zero hempty⟩
  | call attempts _ _ ih =>
    obtain ⟨k, hk⟩ := ih
    obtain ⟨⟨j, hj, -⟩, -⟩ := index_spec hbuckets hapart hk
    exact ⟨k + j, hj⟩

theorem render_infix {messages : List DiscordMessageInput} (h : m ∈ messages) :
    (render m).toList <:+: (chunkText messages).toList := by
  rw [chunkText, String.toList_intercalate]
  exact Text.infix_intercalate (List.mem_map_of_mem (List.mem_map_of_mem h))

/-- Once all batches are stored, the list is indexed but for repeated texts. -/
theorem StoredUpTo.indexed {k : Nat} (hbuckets : ix.buckets inputs = some windows) (hapart : Apart ix (textsOf windows))
    (h : StoredUpTo ix channel_id (textsOf windows) k t) (hall : (batches ix.batchSize [] [] (textsOf windows)).length ≤ k)
    (hversion : t.metadata "index_version" = some DISCORD_INDEX_VERSION) :
    Indexed ix channel_id is_thread inputs t ↔ Spread ix.batchSize (textsOf windows) := by
  have hcontents := h.contents
  rw [List.take_of_length_le hall] at hcontents
  have hmem : ∀ text ∈ textsOf windows, text ∈ t.channelTexts channel_id := by
    intro text htext
    rw [hcontents]
    exact (mem_batches.mpr (.inr (.inr htext))).resolve_right List.not_mem_nil
  rw [← nodup_batches ix.positive, ← hcontents]
  refine ⟨Indexed.distinct, fun hnodup => ⟨hnodup, fun m hm => ?_, h.clean.embedded, fun attempts => ?_⟩⟩
  · rw [← buckets_flatten hbuckets] at hm
    obtain ⟨window, hwindow, hm⟩ := List.mem_flatten.mp hm
    refine ⟨chunkText window, hmem _ (List.mem_map_of_mem (List.mem_filter.mpr ⟨hwindow, ?_⟩)), render_infix hm⟩
    exact decide_eq_true (List.ne_nil_of_mem hm)
  · obtain ⟨stats, hstats⟩ := indexWindows_stored
      (p := { tables := t }) h.clean rfl hapart fun text htext => ⟨htext, hmem text htext⟩
    refine ⟨stats, ?_⟩
    rw [index_ok hbuckets hstats, DiscordTables.setDiscordMessageIndexMeta, ← hversion, Function.update_eq_self]

/-- Whatever calls failed before, the first call that returns `Ok` indexes the list exactly when
repeated texts are spread over the batches; no call panics, and one whose batches work returns `Ok`. -/
theorem indexing_exact (ix : DiscordIndexer) (channel_id : String) (is_thread : Bool) (inputs : List DiscordMessageInput)
    (t t' : DiscordTables ε) (hvalid : ∀ m ∈ inputs, (ix.parseFromRfc3339 m.timestamp).isSome = true)
    (hapart : Apart ix (ix.windowTexts inputs)) (hempty : t.channelRows channel_id = [])
    (hrun : Failing ix channel_id is_thread inputs t t') (attempts : Nat → Attempt ε) :
    (ix.index attempts channel_id is_thread inputs t').2 ≠ .panic ∧
      ((∀ n, (attempts n).Works) → ∃ stats, (ix.index attempts channel_id is_thread inputs t').2 = .ok stats) ∧
      ∀ stats, (ix.index attempts channel_id is_thread inputs t').2 = .ok stats →
        (Indexed ix channel_id is_thread inputs (ix.index attempts channel_id is_thread inputs t').1 ↔
          Spread ix.batchSize (ix.windowTexts inputs)) := by
  obtain ⟨windows, hbuckets⟩ := Option.isSome_iff_exists.mp (buckets_isSome hvalid)
  rw [windowTexts_eq hbuckets] at hapart ⊢
  obtain ⟨k, hk⟩ := failing_storedUpTo hbuckets hapart hempty hrun
  obtain ⟨⟨j, hj, hok⟩, hpanic, hworks⟩ := index_spec hbuckets hapart hk
  exact ⟨hpanic, hworks, fun stats h => hj.indexed hbuckets hapart (hok stats h).1 (hok stats h).2⟩

/-! ## Greetings -/

def greeting (timestamp : String) : DiscordMessageInput := ⟨"7", "1", "help", "ada", "hello", timestamp⟩

theorem valid_ten : 0 < 1000000000 ∨ 0 < 2000000000 ∧ (1767348000 : Int) % 60 = 59 := valid_zero

theorem valid_half_past : 0 < 1000000000 ∨ 0 < 2000000000 ∧ (1767349800 : Int) % 60 = 59 := valid_zero

theorem valid_eleven : 0 < 1000000000 ∨ 0 < 2000000000 ∧ (1767351600 : Int) % 60 = 59 := valid_zero

def greetingIndexer : DiscordIndexer :=
  .withConfig
    (fun text => if text = "ada: hello" then "17bdde468736f7ec2707bbae398dc4d253d0bbb9b03bf4615de19d0b81dafffc"
      else if text = "ada: bye" then "248528a66d592ebe976adaf58e866fe8a843dc6d7c0c25f8e234307b0552db5f" else "")
    (fun text => if text = "2026-01-02T10:00:00Z" then some ⟨1767348000, 0, valid_ten⟩
      else if text = "2026-01-02T10:30:00Z" then some ⟨1767349800, 0, valid_half_past⟩
      else if text = "2026-01-02T11:00:00Z" then some ⟨1767351600, 0, valid_eleven⟩ else none)
    "model" 0

def noChunks : DiscordTables Nat where
  chunks := .empty
  embeddings := .empty
  metadata := fun _ => none
  references := fun _ _ h => nomatch h
  unique := Table.unique_empty

/-- The client embeds every text, here as its length. -/
def working : Nat → Attempt Nat := fun _ => ⟨fun texts => some (texts.map String.length), fun texts embeddings h => by
  rw [← Option.some.inj h, List.length_map], true⟩

/-- The database takes one batch. -/
def savesOne (n : Nat) : Attempt Nat := { working n with saves := n = 0 }

/-- Two greetings of one text, and a farewell. -/
def threeMessages : List DiscordMessageInput :=
  [greeting "2026-01-02T10:00:00Z", greeting "2026-01-02T10:30:00Z",
    { greeting "2026-01-02T11:00:00Z" with content := "bye" }]

def oneByOne : DiscordIndexer := { greetingIndexer with batchSize := 1, positive := by decide }

/-- The first call fails at the farewell, and the second goes on. -/
theorem threeMessages_indexed : Indexed oneByOne "c" false threeMessages
    (oneByOne.index working "c" false threeMessages
      (oneByOne.index savesOne "c" false threeMessages noChunks).1).1 := by
  have htexts : oneByOne.windowTexts threeMessages = ["ada: hello", "ada: hello", "ada: bye"] := rfl
  refine ((indexing_exact oneByOne "c" false threeMessages noChunks _ (by decide) ?_ rfl
    (.call savesOne (.none noChunks) rfl) working).2.2 ⟨1, 2⟩ rfl).mpr ?_
  · rw [htexts]
    intro a ha b hb
    have hall : ∀ a ∈ ["ada: hello", "ada: hello", "ada: bye"], ∀ b ∈ ["ada: hello", "ada: hello", "ada: bye"],
        oneByOne.sha256Hex a = oneByOne.sha256Hex b → a = b := by decide
    exact hall a ha b hb
  · rw [htexts]
    intro before x after hl hx
    rcases before with - | ⟨first, - | ⟨second, - | ⟨third, before⟩⟩⟩
    · cases hx
    · cases hl
      decide
    · cases hl
      exact absurd hx (by decide)
    · exact absurd (congrArg List.length hl) (by simp)

theorem greetingTwice_stored :
    (greetingIndexer.index working "c" false [greeting "2026-01-02T10:00:00Z", greeting "2026-01-02T10:30:00Z"] noChunks).2 = .ok ⟨2, 0⟩ ∧
      ¬ Indexed greetingIndexer "c" false [greeting "2026-01-02T10:00:00Z", greeting "2026-01-02T10:30:00Z"]
        (greetingIndexer.index working "c" false [greeting "2026-01-02T10:00:00Z", greeting "2026-01-02T10:30:00Z"] noChunks).1 := by
  refine ⟨rfl, fun h => absurd h.distinct ?_⟩
  rw [show (greetingIndexer.index working "c" false [greeting "2026-01-02T10:00:00Z", greeting "2026-01-02T10:30:00Z"]
    noChunks).1.channelTexts "c" = ["ada: hello", "ada: hello"] from rfl]
  decide

end Claudear.Knowledgebase
