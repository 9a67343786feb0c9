import Claudear.Storage.VectorTable

/-!
# The operations of the vector index

A write makes the index follow in one row, a batch in all rows up to the new
cursor, and a removal in the rows that are gone. An operation that cannot be
completed leaves no mark.
-/

namespace Claudear.Storage.VectorIndex

open Claudear.Sql Claudear.Sql.Script

variable {w w' : World} {pending : List Nat} {dimension g : Nat} {upTo : Nat → Prop}

/-! ## Writing a row -/

/-- Only what the index holds of the row is not as it was. -/
structure Touched (w w' : World) (rowid : Nat) : Prop where
  same : ∃ v s, w' = { w with vectors := v, skipped := s }
  others : ∀ id, id ≠ rowid → w'.vectors id = w.vectors id
  skipped : ∀ id ∈ w.skipped, id ≠ rowid → id ∈ w'.skipped

theorem Touched.wanted {rowid : Nat} (h : Touched w w' rowid) (d id : Nat) :
    w'.wanted d id = w.wanted d id := by
  obtain ⟨v, s, rfl⟩ := h.same
  rfl

variable {rowid : Nat} {blob : Blob}

theorem touched_set (v : Option Blob) : Touched w (w.vectorSet rowid v) rowid :=
  ⟨⟨_, _, rfl⟩, fun _ h => if_neg h, fun _ h _ => h⟩

theorem touched_written {v : Option Blob} : Touched w ((w.vectorSet rowid v).written rowid blob) rowid := by
  refine ⟨⟨_, _, rfl⟩, fun id h => ?_, fun id hid h => ?_⟩
  · exact (if_neg h).trans (if_neg h)
  · exact List.mem_filter.mpr ⟨hid, decide_eq_true h⟩

/-- A write that fails leaves the old vector, none or the new one. -/
theorem ends_write :
    Ends (write rowid blob)
      (fun _ w' => Touched w w' rowid ∧ w'.vectors rowid = some blob)
      (fun _ w' => Touched w w' rowid ∧ ∀ b, w'.vectors rowid = some b → w.vectors rowid = some b ∨ b = blob)
      w := by
  have hnone : (w.vectorSet rowid none).vectors rowid = none := if_pos rfl
  have hnew : ((w.vectorSet rowid none).written rowid blob).vectors rowid = some blob := if_pos rfl
  have hdeleted : Touched w (w.vectorSet rowid none) rowid ∧
      ∀ b, (w.vectorSet rowid none).vectors rowid = some b → w.vectors rowid = some b ∨ b = blob := by
    refine ⟨touched_set none, fun b hb => ?_⟩
    rw [hnone] at hb
    cases hb
  have hsame : Touched w w rowid := ⟨⟨_, _, rfl⟩, fun _ _ => rfl, fun _ h _ => h⟩
  refine Ends.bind (ends_execute (ends_execute ?_ ?_ hdeleted) hdeleted ⟨hsame, fun b hb => .inl hb⟩)
  · exact ⟨touched_written, hnew⟩
  · refine ⟨touched_written, fun b hb => .inr ?_⟩
    exact Option.some.inj (hb.symm.trans hnew)

/-- After a write the index follows in the row too. -/
theorem Follows.written {rest : List Nat} (h : Follows w pending dimension upTo)
    (ht : Touched w w' rowid) (hv : w'.vectors rowid = some blob)
    (hw : w.wanted dimension rowid = some blob) (hrest : ∀ id ∈ pending, id = rowid ∨ id ∈ rest) :
    Follows w' rest dimension fun id => upTo id ∨ id = rowid := by
  have hother {id : Nat} (hid : id ∉ rest) (hne : id ≠ rowid) : id ∉ pending :=
    fun hp => (hrest id hp).elim hne hid
  refine ⟨fun id b hid hb => ?_, fun id b hid hup hb => ?_⟩
  · rw [ht.wanted]
    by_cases he : id = rowid
    · subst he
      exact hw.trans (hv.symm.trans hb)
    · rw [ht.others id he] at hb
      exact h.sound id b (hother hid he) hb
  · rw [ht.wanted] at hb
    by_cases he : id = rowid
    · subst he
      exact .inl (hv.trans (hw.symm.trans hb))
    · rw [ht.others id he]
      refine (h.complete id b (hother hid he) (hup.resolve_right he) hb).imp (fun h => h) fun hs => ?_
      exact ht.skipped id hs he

/-- A row that could not be written is skipped. -/
theorem Follows.skip (h : Follows w [] dimension upTo) (ht : Touched w w' rowid)
    (hv : ∀ b, w'.vectors rowid = some b → w.vectors rowid = some b ∨ b = blob)
    (hw : w.wanted dimension rowid = some blob) :
    Follows (w'.skip rowid) [] dimension fun id => upTo id ∨ id = rowid := by
  have hwanted (id : Nat) : (w'.skip rowid).wanted dimension id = w.wanted dimension id :=
    ht.wanted dimension id
  refine ⟨fun id b _ hb => ?_, fun id b _ hup hb => ?_⟩
  · rw [hwanted]
    by_cases he : id = rowid
    · subst he
      rcases hv b hb with hb | rfl
      · exact h.sound id b (List.not_mem_nil) hb
      · exact hw
    · exact h.sound id b (List.not_mem_nil) ((ht.others id he).symm.trans hb)
  · rw [hwanted] at hb
    by_cases he : id = rowid
    · subst he
      exact .inr List.mem_cons_self
    · refine (h.complete id b (List.not_mem_nil) (hup.resolve_right he) hb).imp
        (fun hb => (ht.others id he).trans hb) fun hs => ?_
      exact List.mem_cons_of_mem _ (ht.skipped id hs he)

/-! ## A batch -/

theorem ends_writeOrSkip {E : Error → World → Prop} {row : Nat × Blob}
    (h : Follows w [] dimension upTo) (hw : w.wanted dimension row.1 = some row.2) :
    Ends (writeOrSkip row)
      (fun _ w' => (∃ v s, w' = { w with vectors := v, skipped := s }) ∧
        Follows w' [] dimension fun id => upTo id ∨ id = row.1) E w := by
  refine Ends.bind (ends_attempt (ends_write.mono (fun _ w' hw' => ?_) fun _ w' hw' => ?_))
  · exact ends_pure ⟨hw'.1.same, h.written hw'.1 hw'.2 hw nofun⟩
  · refine ends_change ⟨?_, h.skip hw'.1 hw'.2 hw⟩
    obtain ⟨v, s, rfl⟩ := hw'.1.same
    exact ⟨v, _, rfl⟩

theorem Follows.upTo_mono {upTo' : Nat → Prop} (h : Follows w pending dimension upTo)
    (hup : ∀ id b, upTo' id → w.wanted dimension id = some b → upTo id) :
    Follows w pending dimension upTo' :=
  ⟨h.sound, fun id b hid hu hb => h.complete id b hid (hup id b hu hb) hb⟩

theorem ends_writeAll {E : Error → World → Prop} {rows : List (Nat × Blob)}
    (h : Follows w [] dimension upTo) (hw : ∀ r ∈ rows, w.wanted dimension r.1 = some r.2) :
    Ends (rows.forM writeOrSkip)
      (fun _ w' => (∃ v s, w' = { w with vectors := v, skipped := s }) ∧
        Follows w' [] dimension fun id => upTo id ∨ id ∈ rows.map Prod.fst) E w := by
  refine (ends_forM (L := fun l w' => (∃ v s, w' = { w with vectors := v, skipped := s }) ∧
    (∀ r ∈ l, w.wanted dimension r.1 = some r.2) ∧
    Follows w' [] dimension fun id => upTo id ∨ id ∈ rows.map Prod.fst ∧ id ∉ l.map Prod.fst)
    (fun r l w' hl => ?_) ⟨⟨_, _, rfl⟩, hw, ?_⟩).mono (fun _ w' hl => ⟨hl.1, ?_⟩) fun _ _ he => he
  · obtain ⟨⟨v, s, rfl⟩, hrows, hfollows⟩ := hl
    obtain ⟨hr, hrest⟩ := List.forall_mem_cons.mp hrows
    refine (ends_writeOrSkip hfollows hr).mono (fun _ w'' hw'' => ?_) fun _ _ he => he
    obtain ⟨⟨v', s', rfl⟩, hfollows'⟩ := hw''
    refine ⟨⟨v', s', rfl⟩, hrest, hfollows'.upTo_mono fun id b hid _ => ?_⟩
    rcases hid with hid | ⟨hid, hnot⟩
    · exact .inl (.inl hid)
    · by_cases he : id = r.1
      · exact .inr he
      · exact .inl (.inr ⟨hid, by rw [List.map_cons, List.mem_cons, not_or]; exact ⟨he, hnot⟩⟩)
  · exact h.upTo_mono fun id b hid _ => hid.resolve_right fun hc => hc.2 hc.1
  · exact hl.2.2.upTo_mono fun id b hid _ => hid.imp (fun h => h) fun h => ⟨h, nofun⟩

theorem mem_embedded {id : Nat} {b : Blob} : (id, b) ∈ w.embedded ↔ w.stored id = some b := by
  simp only [World.embedded, World.stored, List.mem_filterMap, Option.map_eq_some_iff,
    Option.bind_eq_some_iff, Table.get_eq_some]
  constructor
  · rintro ⟨⟨i, r⟩, hr, b', hb', he⟩
    cases he
    exact ⟨r, hr, hb'⟩
  · rintro ⟨r, hr, hb⟩
    exact ⟨(id, r), hr, b, hb, rfl⟩

theorem sorted_embedded : w.embedded.Pairwise fun a b => a.1 < b.1 := by
  refine List.Pairwise.filterMap _ (fun a b hab x hx y hy => ?_) w.source.sorted
  obtain ⟨_, -, rfl⟩ := Option.map_eq_some_iff.mp hx
  obtain ⟨_, -, rfl⟩ := Option.map_eq_some_iff.mp hy
  exact hab

theorem wanted_eq_some {id : Nat} {b : Blob} :
    w.wanted dimension id = some b ↔ w.stored id = some b ∧ b.length = byteLength dimension := by
  rw [World.wanted, Option.filter_eq_some_iff, decide_eq_true_eq]

/-- What a sorted list is cut off at. -/
theorem mem_take_of_le {l : List (Nat × Blob)} (hl : l.Pairwise fun a b => a.1 < b.1) {n : Nat}
    {y : Nat × Blob} (hy : y ∈ l)
    (h : (l.take n).length < n ∨ ∃ x ∈ (l.take n).getLast?, y.1 ≤ x.1) : y ∈ l.take n := by
  rcases h with h | ⟨x, hx, hle⟩
  · rw [List.length_take] at h
    rwa [List.take_of_length_le (by omega)]
  · rw [← List.take_append_drop n l] at hy hl
    rcases List.mem_append.mp hy with hy | hy
    · exact hy
    · have hlt := (List.pairwise_append.mp hl).2.2 x (List.mem_of_getLast? hx) y hy
      omega

theorem wanted_of_batch {cursor limit : Nat} {r : Nat × Blob}
    (h : r ∈ w.batch cursor dimension limit) : w.wanted dimension r.1 = some r.2 := by
  obtain ⟨hr, hlen⟩ := List.mem_filter.mp (List.mem_of_mem_take h)
  exact wanted_eq_some.mpr ⟨mem_embedded.mp hr, (of_decide_eq_true hlen).2⟩

/-- A batch holds all rows behind the cursor up to its last one, and all of them when it is short. -/
theorem mem_batch {cursor limit id : Nat} {b : Blob} (hw : w.wanted dimension id = some b)
    (hc : cursor < id)
    (h : (w.batch cursor dimension limit).length < limit ∨
      ∃ x ∈ (w.batch cursor dimension limit).getLast?, id ≤ x.1) :
    id ∈ (w.batch cursor dimension limit).map Prod.fst := by
  obtain ⟨hs, hlen⟩ := wanted_eq_some.mp hw
  refine List.mem_map.mpr ⟨(id, b), mem_take_of_le ?_ ?_ h, rfl⟩
  · exact sorted_embedded.sublist List.filter_sublist
  · exact List.mem_filter.mpr ⟨mem_embedded.mpr hs, decide_eq_true ⟨hc, hlen⟩⟩

/-- What `advance` leaves. -/
theorem ends_advance {batchSize : Nat} (h : Indexed w []) (hf : Fresh w) :
    Ends (advance batchSize)
      (fun _ w' => Ensured w w' [] ∧ w'.state.dimension = w.state.dimension)
      (fun _ w' => w'.source = w.source ∧ Indexed w' []) w := by
  refine Ends.bind (ends_look ?_)
  cases hs : w.state with
  | building d c cursor g =>
    have hstate := h.state
    have hcurrent := hf g (by rw [hs]; rfl)
    rw [hs] at hstate
    obtain ⟨hlookup, hfollows⟩ := hstate.current hcurrent
    refine Ends.bind (ends_read (Ends.bind ?_) ⟨rfl, h⟩)
    generalize hrows : w.batch cursor d (max batchSize 1) = rows
    have hwanted : ∀ r ∈ rows, w.wanted d r.1 = some r.2 := by
      intro r hr
      rw [← hrows] at hr
      exact wanted_of_batch hr
    refine (ends_writeAll hfollows hwanted).mono (fun _ w' hw' => ?_) fun _ _ he => he
    obtain ⟨⟨v, s, rfl⟩, hall⟩ := hw'
    -- the rows up to the new bound were below the cursor or are in the batch
    have hmarked {upTo : Nat → Prop} (hup : ∀ id b, upTo id → w.wanted d id = some b →
        cursor < id → id ∈ rows.map Prod.fst) (s' : State) :
        Marked { w with vectors := v, skipped := s, state := s' } [] d g upTo := by
      refine ⟨hstate.valid, hstate.counted, fun _ => ⟨hlookup, hall.sound, ?_⟩, fun hc => absurd hcurrent hc⟩
      intro id b hid hu hb
      refine hall.complete id b hid ?_ hb
      rcases Nat.lt_or_ge cursor id with hlt | hle
      · exact .inr (hup id b hu hb hlt)
      · exact .inl hle
    refine Ends.bind (ends_change (ends_pure ?_))
    split
    · next hshort =>
      refine ⟨⟨rfl, ⟨⟨h.keys, h.positive, h.versions⟩, hmarked (fun id b _ hb hlt => ?_) _⟩, ?_⟩, rfl⟩
      · rw [← hrows] at hshort ⊢
        exact mem_batch hb hlt (.inl hshort)
      · intro g' hg'
        cases hg'
        exact hcurrent
    · next hfull =>
      refine ⟨⟨rfl, ⟨⟨h.keys, h.positive, h.versions⟩, hmarked (fun id b hid hb hlt => ?_) _⟩, ?_⟩, rfl⟩
      · cases hlast : rows.getLast? with
        | none =>
          rw [List.getLast?_eq_none_iff.mp hlast] at hfull
          exact absurd (Nat.lt_of_lt_of_le Nat.zero_lt_one (Nat.le_max_right _ _)) hfull
        | some x =>
          rw [hlast] at hid
          rw [← hrows] at hlast ⊢
          exact mem_batch hb hlt (.inr ⟨x, hlast, hid⟩)
      · intro g' hg'
        cases hg'
        exact hcurrent
  | unbuilt | built | stale | unavailable => exact ends_pure ⟨⟨rfl, h, hf⟩, by rw [hs]⟩

/-! ## The operations of the index -/

theorem Indexed.woken (h : Indexed w pending) (before : State) : Indexed (w.woken before) pending := by
  refine ⟨⟨h.keys, h.positive, h.versions⟩, h.state.imp (fun _ h => h) fun d g upTo _ _ hm => ?_⟩
  refine ⟨hm.valid, hm.counted, fun hc => ?_, hm.outdated⟩
  obtain ⟨hl, hfollows⟩ := hm.current hc
  exact ⟨hl, hfollows.sound, hfollows.complete⟩

theorem runs_transition {α : Type} {operation : Action α} {Q : α → Connection World → Prop}
    {E : Error → Connection World → Prop} {c : Connection World}
    (h : Runs operation (fun a c => ∀ before, Q a ⟨c.data.woken before, c.outcomes⟩)
      (fun e c => ∀ before, E e ⟨c.data.woken before, c.outcomes⟩) c) :
    Runs (transition operation) Q E c :=
  Runs.bind (Runs.bind (runs_attempt (h.mono (fun _ _ h => h _) fun _ _ h => h _)))

theorem ends_transition {α : Type} {operation : Action α} {Q : α → World → Prop}
    {E : Error → World → Prop}
    (h : Ends operation (fun a w' => ∀ before, Q a (w'.woken before))
      (fun e w' => ∀ before, E e (w'.woken before)) w) : Ends (transition operation) Q E w :=
  fun o => runs_transition (h o)

/-- A search is only made on an index of its dimension with a mark that is up to date. -/
theorem ends_prepareSearch (h : Indexed w []) :
    Ends (prepareSearch dimension)
      (fun b w' => Indexed w' [] ∧ (b = true → Fresh w' ∧ w'.state.dimension = some dimension))
      (fun _ w' => Indexed w' []) w := by
  unfold prepareSearch
  split
  · exact ends_pure ⟨h, nofun⟩
  · refine Ends.bind (ends_ofExcept (fun _ hd => ?_) fun _ _ => h)
    refine ends_transition ((ends_refresh h).seq (fun _ w₁ hw₁ => ?_) fun _ _ he before => ?_)
    · obtain ⟨h₁, hf₁, -⟩ := hw₁
      refine (ends_ensure h₁ hf₁ hd).seq (fun b w₂ hw₂ => ?_) fun _ _ he before => he.2.woken before
      obtain ⟨hensured, hdim⟩ := hw₂
      cases b with
      | true =>
        refine (ends_advance hensured.indexed hensured.fresh).seq (fun _ w₃ hw₃ => ?_)
          fun _ _ he before => he.2.woken before
        exact ends_pure fun before => ⟨hw₃.1.indexed.woken before, fun _ =>
          ⟨hw₃.1.fresh, hw₃.2.trans hdim⟩⟩
      | false => exact ends_pure fun before => ⟨hensured.indexed.woken before, nofun⟩
    · rw [he]
      exact h.woken before

theorem Unmarked.woken (h : Unmarked w w') (before : State) : Indexed (w'.woken before) pending :=
  (h.indexed.unmarked h.unmarked).woken before

/-- After a write the index follows in the row too. -/
theorem Indexed.written (h : Indexed w [rowid]) (hf : Fresh w) (hs : w.state.dimension = some dimension)
    (ht : Touched w w' rowid) (hv : w'.vectors rowid = some blob)
    (hw : w.wanted dimension rowid = some blob) : Indexed w' [] := by
  obtain ⟨v, s, rfl⟩ := ht.same
  refine ⟨⟨h.keys, h.positive, h.versions⟩, h.state.imp (fun hd => ?_) fun d g upTo hd hg hm => ?_⟩
  · cases hs.symm.trans hd
  · cases hs.symm.trans hd
    have hcurrent := hf g hg
    obtain ⟨hl, hfollows⟩ := hm.current hcurrent
    refine ⟨hm.valid, hm.counted, fun _ => ⟨hl, ?_⟩, fun hc => absurd hcurrent hc⟩
    have hwritten : Follows _ [] _ _ :=
      hfollows.written ht hv hw fun id hid => .inl (List.mem_singleton.mp hid)
    exact hwritten.upTo_mono fun id b hid _ => .inl hid

/-- A row that the index neither holds nor should hold is no longer pending. -/
theorem Indexed.unheld (h : Indexed w [rowid])
    (hv : w.state.dimension ≠ none → w.vectors rowid = none)
    (hw : ∀ d, validateDimension d = .ok () → w.wanted d rowid = none) : Indexed w [] := by
  refine ⟨h.toSourced, h.state.imp (fun _ h => h) fun d g upTo hd _ hm => ?_⟩
  refine ⟨hm.valid, hm.counted, fun hc => ?_, hm.outdated⟩
  obtain ⟨hl, hfollows⟩ := hm.current hc
  have hnone := hv (by rw [hd]; exact nofun)
  refine ⟨hl, fun id b _ hb => ?_, fun id b _ hup hb => ?_⟩
  · refine hfollows.sound id b (fun hid => ?_) hb
    cases List.mem_singleton.mp hid
    cases hnone.symm.trans hb
  · refine hfollows.complete id b (fun hid => ?_) hup hb
    cases List.mem_singleton.mp hid
    cases (hw d hm.valid).symm.trans hb

variable {embedding : Embedding}

theorem ends_upsert (h : Indexed w [rowid]) (hw : w.stored rowid = some (embeddingBlob embedding))
    (hv : validateDimension embedding.length = .ok () ∨
      (w.state.dimension ≠ none → w.vectors rowid = none)) :
    Ends (upsert rowid embedding) (fun _ w' => Indexed w' []) (fun _ w' => Indexed w' []) w := by
  have hunsupported (hd : validateDimension embedding.length ≠ .ok ()) : Indexed w [] := by
    refine h.unheld (hv.resolve_left hd) fun d hvalid => ?_
    cases hwanted : w.wanted d rowid with
    | none => rfl
    | some b =>
      obtain ⟨hb, hlen⟩ := wanted_eq_some.mp hwanted
      cases hw.symm.trans hb
      rw [length_embeddingBlob, byteLength, byteLength, BYTES_PER_COMPONENT] at hlen
      rw [Nat.eq_of_mul_eq_mul_right (by omega) hlen] at hd
      exact absurd hvalid hd
  unfold upsert
  split
  · next hempty =>
    refine ends_pure (hunsupported ?_)
    rw [List.isEmpty_iff.mp hempty]
    intro hok
    cases hok
  · split
    · next hd => exact ends_pure (hunsupported (by rw [hd]; intro hok; cases hok))
    · next hd =>
      refine ends_transition (Ends.bind (ends_attempt ((ends_refresh h).mono (fun _ w₁ hw₁ => ?_)
        fun _ w₁ he => ?_)))
      · obtain ⟨h₁, hf₁, hsource₁⟩ := hw₁
        refine Ends.bind (ends_attempt ((ends_ensure h₁ hf₁ hd).mono (fun b w₂ hw₂ => ?_)
          fun _ w₂ hw₂ => ?_))
        · obtain ⟨hensured, hdim⟩ := hw₂
          cases b with
          | true =>
            have hwanted : w₂.wanted embedding.length rowid = some (embeddingBlob embedding) := by
              refine wanted_eq_some.mpr ⟨?_, length_embeddingBlob embedding⟩
              rw [World.stored, hensured.source, hsource₁]
              exact hw
            refine Ends.bind (ends_attempt (ends_write.mono (fun _ w₃ hw₃ => ?_) fun _ w₃ hw₃ => ?_))
            · exact ends_pure ((hensured.indexed.written hensured.fresh hdim hw₃.1 hw₃.2 hwanted).woken)
            · obtain ⟨v, s, rfl⟩ := hw₃.1.same
              have hi := hensured.indexed
              exact ends_change (Indexed.woken ⟨⟨hi.keys, hi.positive, hi.versions⟩, trivial⟩)
          | false => exact ends_pure ((hensured.indexed.unmarked (hdim rfl)).woken)
        · exact (ends_invalidate hw₂.2.toSourced hw₂.2.vectors_unbuilt).mono
            (fun _ _ h => h.woken) fun _ _ he => he
      · subst he
        exact (ends_invalidate h.toSourced h.vectors_unbuilt).mono (fun _ _ h => h.woken) fun _ _ he => he

/-- Rows that are gone are no longer pending once the index does not hold them. -/
theorem Indexed.deleted {v : Nat → Option Blob} {rowids : List Nat} (h : Indexed w rowids)
    (hgone : ∀ id ∈ rowids, w.source.get id = none) (hin : ∀ id ∈ rowids, v id = none)
    (hout : ∀ id, id ∉ rowids → v id = w.vectors id) : Indexed { w with vectors := v } [] := by
  have hempty (hv : ∀ id, w.vectors id = none) (id : Nat) : v id = none := by
    by_cases hid : id ∈ rowids
    · exact hin id hid
    · exact (hout id hid).trans (hv id)
  refine ⟨⟨h.keys, h.positive, h.versions⟩, h.state.imp (fun _ => hempty) fun d g upTo _ _ hm => ?_⟩
  refine ⟨hm.valid, hm.counted, fun hc => ?_, fun hc => hempty (hm.outdated hc)⟩
  obtain ⟨hl, hfollows⟩ := hm.current hc
  refine ⟨hl, fun id b _ hb => ?_, fun id b _ hup hb => ?_⟩
  · by_cases hid : id ∈ rowids
    · cases (hin id hid).symm.trans hb
    · exact hfollows.sound id b hid ((hout id hid).symm.trans hb)
  · by_cases hid : id ∈ rowids
    · have hs := (wanted_eq_some.mp hb).1
      rw [World.stored, hgone id hid] at hs
      cases hs
    · exact (hfollows.complete id b hid hup hb).imp (fun hb => (hout id hid).trans hb) fun hs => hs

theorem ends_delete {rowids : List Nat} :
    Ends (delete rowids)
      (fun _ w' => ∃ v, w' = { w with vectors := v } ∧ (∀ id ∈ rowids, v id = none) ∧
        ∀ id, id ∉ rowids → v id = w.vectors id)
      (fun _ w' => ∃ v, w' = { w with vectors := v }) w := by
  -- each row is gone or still to be deleted
  refine (ends_forM (L := fun l w' => ∃ v, w' = { w with vectors := v } ∧
    (∀ id ∈ rowids, v id = none ∨ id ∈ l) ∧ (∀ id ∈ l, id ∈ rowids) ∧
    ∀ id, id ∉ rowids → v id = w.vectors id) (fun id l w' hl => ?_)
    ⟨_, rfl, fun _ h => .inr h, fun _ h => h, fun _ _ => rfl⟩).mono (fun _ w' hw' => ?_) fun _ _ he => he
  · obtain ⟨v, rfl, hdone, hsub, hout⟩ := hl
    refine ends_execute ⟨_, rfl, fun x hx => ?_, fun x hx => hsub x (List.mem_cons_of_mem _ hx), fun x hx => ?_⟩
      ⟨_, rfl⟩ ⟨_, rfl⟩
    · by_cases he : x = id
      · exact .inl (if_pos he)
      · rcases hdone x hx with h | h
        · exact .inl ((if_neg he).trans h)
        · exact .inr ((List.mem_cons.mp h).resolve_left he)
    · refine (if_neg ?_).trans (hout x hx)
      rintro rfl
      exact hx (hsub _ List.mem_cons_self)
  · obtain ⟨v, rfl, hdone, -, hout⟩ := hw'
    exact ⟨v, rfl, fun id hid => (hdone id hid).resolve_right List.not_mem_nil, hout⟩

theorem ends_remove {rowids : List Nat} (h : Indexed w rowids)
    (hgone : ∀ id ∈ rowids, w.source.get id = none) :
    Ends (remove rowids) (fun _ w' => Indexed w' []) (fun _ w' => Indexed w' []) w := by
  unfold remove
  split
  · next hempty =>
    rw [List.isEmpty_iff.mp hempty] at h
    exact ends_pure h
  · refine ends_transition (Ends.bind (ends_attempt ((ends_refresh h).mono (fun _ w₁ hw₁ => ?_)
      fun _ w₁ he => ?_)))
    · obtain ⟨h₁, -, hsource⟩ := hw₁
      refine Ends.bind (ends_look ?_)
      split
      · next hs => exact ends_pure (h₁.unmarked (by rw [hs]; rfl)).woken
      · next hs => exact ends_pure (h₁.unmarked (by rw [hs]; rfl)).woken
      all_goals
        refine Ends.bind (ends_attempt (ends_delete.mono (fun _ w₂ hw₂ => ?_) fun _ w₂ hw₂ => ?_))
        · obtain ⟨v, rfl, hin, hout⟩ := hw₂
          refine ends_pure (h₁.deleted (fun id hid => ?_) hin hout).woken
          rw [hsource]
          exact hgone id hid
        · obtain ⟨v, rfl⟩ := hw₂
          exact ends_change (Indexed.woken ⟨⟨h₁.keys, h₁.positive, h₁.versions⟩, trivial⟩)
    · subst he
      exact (ends_invalidate h.toSourced h.vectors_unbuilt).mono (fun _ _ h => h.woken) fun _ _ he => he

theorem ends_advanceStep {batchSize : Nat} (h : Indexed w []) (hf : Fresh w) :
    Ends (advanceStep batchSize) (fun _ w' => Indexed w' []) (fun _ w' => Indexed w' []) w := by
  refine (ends_advance h hf).seq (fun _ w' hw' => ?_) fun _ _ he => he.2
  exact Ends.bind (ends_look (ends_pure hw'.1.indexed))

theorem ends_rebuildStep {batchSize : Nat} (h : Indexed w []) :
    Ends (rebuildStep batchSize) (fun _ w' => Indexed w' []) (fun _ w' => Indexed w' []) w := by
  refine (ends_refresh h).seq (fun _ w₁ hw₁ => ?_) fun _ _ he => by rw [he]; exact h
  obtain ⟨h₁, hf₁, -⟩ := hw₁
  refine Ends.bind (ends_look ?_)
  split
  · exact ends_pure h₁
  · exact ends_pure h₁
  · exact ends_advanceStep h₁ hf₁
  all_goals
    refine Ends.bind (ends_read ?_ h₁)
    split
    · exact ends_pure h₁
    · split
      · exact ends_pure h₁
      · refine Ends.bind (ends_ofExcept (fun _ hd => ?_) fun _ _ => h₁)
        refine (ends_ensure h₁ hf₁ hd).seq (fun ready w₂ hw₂ => ?_) fun _ _ he => he.2
        cases ready with
        | true => exact ends_advanceStep hw₂.1.indexed hw₂.1.fresh
        | false => exact Ends.bind (ends_look (ends_pure hw₂.1.indexed))

/-! ### A reset

It reads the schema version twice, and does not mark the index stale when only the
second read fails. -/

/-- The first statement is done, and the second fails. -/
def losesSecond : List Outcome → Bool
  | .done :: .failed _ :: _ => true
  | _ => false

theorem losesSecond_tail {o : List Outcome} (h : losesSecond o = false)
    (ho : ∀ b rest, o ≠ .failed b :: rest) (b : Bool) (rest : List Outcome) :
    o.tail ≠ .failed b :: rest := by
  match o, h, ho with
  | [], _, _ => exact nofun
  | .failed b :: rest, _, ho => exact absurd rfl (ho b rest)
  | [.done], _, _ => exact nofun
  | .done :: .done :: _, _, _ => exact nofun

theorem ends_resetTable (h : Indexed w []) :
    Ends resetTable (fun _ w' => Indexed w' []) (fun _ w' => Indexed w' []) w := by
  refine Ends.bind (ends_look ?_)
  split
  · exact ends_pure h
  · refine Ends.bind (ends_attempt ((ends_dropTable h).mono (fun _ _ hw => ?_) fun _ _ hw => ?_))
    · exact ends_pure hw.1.indexed
    · exact ends_pure hw.2

/-- When the schema version can be read, the index is dropped or marked stale. -/
theorem runs_resetTable {o : List Outcome} (h : Indexed w pending)
    (ho : ∀ b rest, o ≠ .failed b :: rest) :
    Runs resetTable (fun _ c => Indexed c.data []) (fun _ c => Indexed c.data []) ⟨w, o⟩ := by
  refine Runs.bind ?_
  show Runs (if w.state = .unbuilt ∨ w.state = .unavailable then _ else _) _ _ _
  split
  · next hs => exact h.unmarked (by rcases hs with hs | hs <;> (rw [hs]; rfl))
  · refine Runs.bind (runs_attempt (Runs.bind ?_))
    refine (runs_generation h).mono (fun _ c hc => ?_) fun _ _ he => ?_
    · refine ((ends_executeDrop hc.1.1).runs).mono (fun _ _ hw => ?_) fun _ _ hw => ?_
      · exact hw.1.indexed
      · exact hw.indexed
    · obtain ⟨-, b, rest, hb⟩ := he
      exact absurd hb (ho b rest)

theorem runs_reset {o : List Outcome} (h : Indexed w pending) (ho : losesSecond o = false) :
    Runs reset (fun _ c => Indexed c.data []) (fun _ c => Indexed c.data []) ⟨w, o⟩ := by
  unfold reset
  refine runs_transition (Runs.bind (runs_attempt ((runs_refresh h).mono (fun _ c hc => ?_)
    fun _ c he => Runs.bind ?_)))
  · obtain ⟨⟨hi, -, -⟩, hnext⟩ := hc
    refine Runs.bind ?_
    have hreset : Runs resetTable (fun _ c => Indexed c.data []) (fun _ c => Indexed c.data []) c := by
      rcases hnext with hs | ⟨hread, he⟩
      · exact (ends_resetTable (hi.unmarked hs)).runs
      · refine runs_resetTable hi fun b rest hb => ?_
        exact losesSecond_tail ho hread b rest (he ▸ hb)
    exact hreset.mono (fun _ _ h => h.woken) fun _ _ h => h.woken
  · subst he
    refine (ends_invalidate (E := fun _ _ => False) h.toSourced h.vectors_unbuilt).runs.mono
      (fun _ c hc => ?_) fun _ _ he => he.elim
    exact (ends_resetTable hc.indexed).runs.mono (fun _ _ h => h.woken) fun _ _ h => h.woken

end Claudear.Storage.VectorIndex
