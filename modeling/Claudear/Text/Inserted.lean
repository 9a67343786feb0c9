import Claudear.Text.Scan

/-!
# Placeholders and what is inserted for them

A text that was filled in is a list of cells: characters of the template's own,
and texts that were inserted. `fill` puts a value in the place of each
placeholder that is written in own characters, all in one pass; filling in twice
is filling in once (`fill_fill`).

Replacing `tag name` in the flat text does the same as long as it is found in
own characters only, which is what `OwnReads` says (`replaceEach_flatten`).
-/

namespace Claudear.Text

inductive Cell where
  | own (c : Char)
  | put (text : List Char)
  deriving DecidableEq

namespace Cell

def text : Cell → List Char
  | own c => [c]
  | put text => text

def own? : Cell → Option Char
  | own c => some c
  | put _ => none

end Cell

def flatten (l : List Cell) : List Char := l.flatMap Cell.text

/-- A text all of whose characters are the template's own. -/
def written (l : List Char) : List Cell := l.map Cell.own

def isBrace (c : Char) : Bool := c = '\x7b' ∨ c = '\x7d'

/-- The placeholder of a name. -/
def tag (name : List Char) : List Char := '\x7b' :: '\x7b' :: (name ++ ['\x7d', '\x7d'])

def readPlaceholder (l : List Cell) : Option (List Char × List Cell) :=
  (strip Cell.own? ['\x7b', '\x7b'] l).bind fun l =>
    let taken := takeClass Cell.own? (fun c => !isBrace c) l
    (strip Cell.own? ['\x7d', '\x7d'] taken.2).map fun rest => (taken.1, rest)

variable {l rest s : List Cell} {u n k v name token : List Char} {c : Char}

@[simp] theorem flatten_nil : flatten [] = [] := rfl

@[simp] theorem flatten_own : flatten (.own c :: l) = c :: flatten l := rfl

@[simp] theorem flatten_put : flatten (.put v :: l) = v ++ flatten l := rfl

@[simp] theorem flatten_append : flatten (l ++ s) = flatten l ++ flatten s := List.flatMap_append ..

theorem flatten_flatten {ls : List (List Cell)} : flatten ls.flatten = (ls.map flatten).flatten := by
  induction ls with
  | nil => rfl
  | cons l ls ih => rw [List.flatten_cons, flatten_append, ih, List.map_cons, List.flatten_cons]

@[simp] theorem flatten_written : flatten (written u) = u := by
  induction u with
  | nil => rfl
  | cons c u ih => exact congrArg (List.cons c) ih

theorem infix_of_written (h : written u <:+: written n) : u <:+: n := by
  obtain ⟨s, t, hst⟩ := h
  refine ⟨flatten s, flatten t, ?_⟩
  have hflat := congrArg flatten hst
  rwa [flatten_append, flatten_append, flatten_written, flatten_written] at hflat

theorem map_own?_eq : s.map Cell.own? = u.map some ↔ s = written u := by
  induction s generalizing u with
  | nil =>
    cases u with
    | nil => exact ⟨fun _ => rfl, fun _ => rfl⟩
    | cons c u => exact ⟨(fun h => nomatch h), (fun h => nomatch h)⟩
  | cons e s ih =>
    cases u with
    | nil => exact ⟨(fun h => nomatch h), (fun h => nomatch h)⟩
    | cons c u =>
      have he : e.own? = some c ↔ e = .own c := by
        cases e <;> simp [Cell.own?]
      rw [List.map_cons, List.map_cons, List.cons.injEq, he, ih]
      exact (List.cons.injEq e s (.own c) (written u)).symm.to_iff

theorem strip_own : strip Cell.own? token l = some rest ↔ l = written token ++ rest := by
  rw [strip_eq_some]
  constructor
  · rintro ⟨u, rfl, hu⟩
    rw [map_own?_eq.mp hu]
  · rintro rfl
    exact ⟨written token, rfl, map_own?_eq.mpr rfl⟩

theorem written_tag : written (tag n) ++ rest =
    .own '\x7b' :: .own '\x7b' :: (written n ++ (written ['\x7d', '\x7d'] ++ rest)) := by
  simp [written, tag]

theorem written_close : written (n ++ ['\x7d', '\x7d']) ++ rest = written n ++ (written ['\x7d', '\x7d'] ++ rest) := by
  simp [written]

theorem readPlaceholder_eq_some :
    readPlaceholder l = some (n, rest) ↔ (∀ c ∈ n, isBrace c = false) ∧ l = written (tag n) ++ rest := by
  rw [readPlaceholder, Option.bind_eq_some_iff]
  constructor
  · rintro ⟨inner, hopen, hread⟩
    obtain ⟨r, hclose, heq⟩ := Option.map_eq_some_iff.mp hread
    generalize htaken : takeClass Cell.own? (fun c => !isBrace c) inner = taken at hclose heq
    obtain ⟨m, after⟩ := taken
    obtain ⟨rfl, rfl⟩ := Prod.mk.inj heq
    obtain ⟨t, hinner, ht, hall, -⟩ := takeClass_eq htaken
    obtain rfl : after = written ['\x7d', '\x7d'] ++ r := strip_own.mp hclose
    refine ⟨fun c hc => by simpa using hall c hc, ?_⟩
    rw [strip_own.mp hopen, hinner, map_own?_eq.mp ht, written_tag]
    rfl
  · rintro ⟨hn, rfl⟩
    rw [written_tag]
    refine ⟨_, strip_own.mpr rfl, ?_⟩
    have htaken : takeClass Cell.own? (fun c => !isBrace c) (written n ++ (written ['\x7d', '\x7d'] ++ rest)) =
        (n, written ['\x7d', '\x7d'] ++ rest) := by
      refine takeClass_append (map_own?_eq.mpr rfl) (fun c hc => by simp [hn c hc]) ?_
      intro a ha c hc
      obtain rfl : Cell.own '\x7d' = a := Option.some.inj ha
      obtain rfl : '\x7d' = c := Option.some.inj hc
      decide
    have hclose : strip Cell.own? ['\x7d', '\x7d'] (written ['\x7d', '\x7d'] ++ rest) = some rest :=
      strip_own.mpr rfl
    show (strip Cell.own? ['\x7d', '\x7d'] (takeClass Cell.own? (fun c => !isBrace c)
      (written n ++ (written ['\x7d', '\x7d'] ++ rest))).2).map (fun r => ((takeClass Cell.own?
        (fun c => !isBrace c) (written n ++ (written ['\x7d', '\x7d'] ++ rest))).1, r)) = _
    rw [htaken, hclose]
    rfl

theorem tag_ne_nil : tag n ≠ [] := List.cons_ne_nil _ _

/-! ## Filling in -/

/-- Reads the placeholders that have a value. -/
def filling (value : List Char → Option (List Char)) : Reader Cell (List Char) where
  read l := (readPlaceholder l).bind fun found => (value found.1).map fun v => (v, found.2)
  takes h := by
    obtain ⟨found, hfound, hv⟩ := Option.bind_eq_some_iff.mp h
    obtain ⟨v, -, heq⟩ := Option.map_eq_some_iff.mp hv
    obtain ⟨-, rfl⟩ := Prod.mk.inj heq
    obtain ⟨-, hl⟩ := readPlaceholder_eq_some.mp hfound
    exact ⟨_, List.cons_ne_nil _ _, hl⟩

def fill (value : List Char → Option (List Char)) (l : List Cell) : List Cell :=
  (filling value).rewrite (fun e => [e]) (fun v => [.put v]) l

/-- One name with its value. -/
def single (k v : List Char) (n : List Char) : Option (List Char) := if n = k then some v else none

variable {f g value : List Char → Option (List Char)} {e : Cell}

theorem filling_eq_some : (filling value).read l = some (v, rest) ↔
    ∃ n, (∀ c ∈ n, isBrace c = false) ∧ l = written (tag n) ++ rest ∧ value n = some v := by
  constructor
  · intro h
    obtain ⟨found, hfound, hv⟩ := Option.bind_eq_some_iff.mp h
    obtain ⟨w, hw, heq⟩ := Option.map_eq_some_iff.mp hv
    obtain ⟨rfl, rfl⟩ := Prod.mk.inj heq
    obtain ⟨hn, hl⟩ := readPlaceholder_eq_some.mp hfound
    exact ⟨found.1, hn, hl, hw⟩
  · rintro ⟨n, hn, hl, hv⟩
    show (readPlaceholder l).bind _ = _
    rw [readPlaceholder_eq_some.mpr ⟨hn, hl⟩, Option.bind_some, hv]
    rfl

theorem filling_eq_none : (filling value).read l = none ↔
    ∀ n rest, (∀ c ∈ n, isBrace c = false) → l = written (tag n) ++ rest → value n = none := by
  constructor
  · intro h n rest hn hl
    cases hv : value n with
    | none => rfl
    | some v => exact nomatch h.symm.trans (filling_eq_some.mpr ⟨n, hn, hl, hv⟩)
  · intro h
    rw [Option.eq_none_iff_forall_ne_some]
    rintro ⟨v, rest⟩ hread
    obtain ⟨n, hn, hl, hv⟩ := filling_eq_some.mp hread
    exact nomatch (h n rest hn hl).symm.trans hv

@[simp] theorem fill_nil : fill value [] = [] := rfl

theorem fill_none (h : (filling value).read (e :: l) = none) : fill value (e :: l) = e :: fill value l :=
  Reader.rewrite_none h

theorem fill_tag (hn : ∀ c ∈ n, isBrace c = false) (hv : value n = some v) :
    fill value (written (tag n) ++ rest) = .put v :: fill value rest :=
  Reader.rewrite_some (filling_eq_some.mpr ⟨n, hn, rfl, hv⟩)

/-- A placeholder begins with two braces. -/
theorem filling_none_of_head (h : ∀ r, e :: l ≠ .own '\x7b' :: .own '\x7b' :: r) :
    (filling value).read (e :: l) = none := by
  rw [filling_eq_none]
  intro n rest hn hl
  rw [written_tag] at hl
  exact absurd hl (h _)

theorem fill_put : fill value (.put v :: l) = .put v :: fill value l :=
  fill_none (filling_none_of_head fun _ h => nomatch (List.cons.inj h).1)

theorem fill_append (hu : '\x7b' ∉ u) : fill value (written u ++ l) = written u ++ fill value l := by
  induction u with
  | nil => rfl
  | cons c u ih =>
    have hc : (filling value).read (.own c :: (written u ++ l)) = none := by
      apply filling_none_of_head
      intro r h
      obtain rfl : c = '\x7b' := Cell.own.inj (List.cons.inj h).1
      exact hu List.mem_cons_self
    show fill value (.own c :: (written u ++ l)) = .own c :: (written u ++ fill value l)
    rw [fill_none hc, ih fun h => hu (List.mem_cons_of_mem c h)]

/-- A placeholder without a value stays. -/
theorem fill_tag_none (hn : ∀ c ∈ n, isBrace c = false) (hv : value n = none) :
    fill value (written (tag n) ++ rest) = written (tag n) ++ fill value rest := by
  have hbody : '\x7b' ∉ n ++ ['\x7d', '\x7d'] := by
    intro h
    rcases List.mem_append.mp h with h | h
    · exact nomatch hn _ h
    · revert h
      decide
  have hfirst : (filling value).read (written (tag n) ++ rest) = none := by
    rw [filling_eq_none]
    intro m r hm hl
    have hthis : readPlaceholder (written (tag n) ++ rest) = some (n, rest) :=
      readPlaceholder_eq_some.mpr ⟨hn, rfl⟩
    have hthat : readPlaceholder (written (tag n) ++ rest) = some (m, r) :=
      readPlaceholder_eq_some.mpr ⟨hm, hl⟩
    rw [hthis] at hthat
    rw [← (Prod.mk.inj (Option.some.inj hthat)).1, hv]
  have hsecond : (filling value).read (.own '\x7b' :: (written (n ++ ['\x7d', '\x7d']) ++ rest)) = none := by
    apply filling_none_of_head
    intro r h
    cases n with
    | nil => exact nomatch Cell.own.inj (List.cons.inj (List.cons.inj h).2).1
    | cons c n =>
      obtain rfl : c = '\x7b' := Cell.own.inj (List.cons.inj (List.cons.inj h).2).1
      exact hbody List.mem_cons_self
  rw [written_tag, ← written_close] at hfirst
  rw [written_tag, written_tag, ← written_close, ← written_close, fill_none hfirst, fill_none hsecond, fill_append hbody]

/-- The own characters at the front were there before, and filling in went on behind them. -/
theorem own_front (h : fill f l = written u ++ s) : ∃ r, l = written u ++ r ∧ fill f r = s := by
  induction u generalizing l with
  | nil => exact ⟨l, rfl, h⟩
  | cons c u ih =>
    cases l with
    | nil => exact nomatch h
    | cons e l =>
      cases hread : (filling f).read (e :: l) with
      | none =>
        rw [fill_none hread] at h
        obtain ⟨rfl, htail⟩ := List.cons.inj h
        obtain ⟨r, rfl, hr⟩ := ih htail
        exact ⟨r, rfl, hr⟩
      | some found =>
        obtain ⟨v, rest⟩ := found
        obtain ⟨n, hn, hl, hv⟩ := filling_eq_some.mp hread
        rw [hl, fill_tag hn hv] at h
        exact nomatch (List.cons.inj h).1

/-- The placeholders are those of the text before, where they have no value yet. -/
theorem filling_fill_none (hl : (filling f).read (e :: l) = none)
    (h : (filling fun n => f n <|> g n).read (e :: l) = none) : (filling g).read (e :: fill f l) = none := by
  rw [filling_eq_none] at hl h ⊢
  intro n rest hn hrest
  rw [written_tag] at hrest
  obtain ⟨rfl, htail⟩ := List.cons.inj hrest
  rw [← written_close] at htail
  obtain ⟨r, rfl, -⟩ := @own_front _ _ ('\x7b' :: (n ++ ['\x7d', '\x7d'])) _ htail
  have hboth := h n r hn rfl
  rw [hl n r hn rfl] at hboth
  exact hboth

/-- Filling in the rest of the placeholders later is filling in all of them at once. -/
theorem fill_fill : fill g (fill f l) = fill (fun n => f n <|> g n) l := by
  induction l using (filling fun n => f n <|> g n).induct with
  | nil => rfl
  | none e l hboth ih =>
    have hf : (filling f).read (e :: l) = none := by
      rw [filling_eq_none] at hboth ⊢
      intro n rest hn hrest
      have hnone := hboth n rest hn hrest
      cases hfn : f n with
      | none => rfl
      | some w =>
        rw [hfn] at hnone
        exact nomatch hnone
    rw [fill_none hboth, fill_none hf, fill_none (filling_fill_none hf hboth), ih]
  | some l v rest hboth ih =>
    obtain ⟨n, hn, rfl, hv⟩ := filling_eq_some.mp hboth
    rw [@fill_tag _ _ _ (fun n => f n <|> g n) hn hv, ← ih]
    -- the first of the two fillings that has a value for `n` is the one that puts it
    cases hf : f n with
    | some w =>
      rw [hf] at hv
      rw [fill_tag hn hf, fill_put, Option.some.inj hv]
    | none =>
      rw [hf] at hv
      rw [fill_tag_none hn hf, fill_tag hn hv]

/-- Only the placeholders that occur are asked for. -/
theorem fill_congr (h : ∀ n, written (tag n) <:+: l → f n = g n) : fill f l = fill g l := by
  induction l using (filling f).induct with
  | nil => rfl
  | none e l hf ih =>
    have hg : (filling g).read (e :: l) = none := by
      rw [filling_eq_none] at hf ⊢
      intro n rest hn hrest
      rw [← h n ⟨[], rest, hrest.symm⟩]
      exact hf n rest hn hrest
    rw [fill_none hf, fill_none hg, ih fun n hn => h n (hn.trans (List.suffix_cons e l).isInfix)]
  | some l v rest hf ih =>
    obtain ⟨n, hn, rfl, hv⟩ := filling_eq_some.mp hf
    have hg : g n = some v := (h n ⟨[], rest, rfl⟩).symm.trans hv
    rw [fill_tag hn hv, fill_tag hn hg, ih fun m hm => h m (hm.trans (List.suffix_append _ _).isInfix)]

theorem fill_eq_self (h : ∀ n, value n = none) : fill value l = l := by
  induction l with
  | nil => rfl
  | cons e l ih =>
    rw [fill_none (filling_eq_none.mpr fun n _ _ _ => h n), ih]

/-! ## Reading the flat text -/

/-- What `T` reads in the flat text, `P` reads in the template's own characters. -/
inductive OwnReads {β γ : Type} (T : Reader Char β) (P : Reader Cell γ) (flat : γ → β) : List Cell → Prop
  | nil : OwnReads T P flat []
  | inserted {v : List Char} {l : List Cell} : (∀ t, t ≠ [] → t <:+ v → T.read (t ++ flatten l) = none) →
      OwnReads T P flat l → OwnReads T P flat (.put v :: l)
  | kept {c : Char} {l : List Cell} : T.read (c :: flatten l) = none → OwnReads T P flat l →
      OwnReads T P flat (.own c :: l)
  | read {l rest : List Cell} {a : γ} : P.read l = some (a, rest) → T.read (flatten l) = some (flat a, flatten rest) →
      OwnReads T P flat rest → OwnReads T P flat l

section
variable {β γ : Type} {T : Reader Char β} {P : Reader Cell γ} {flat : γ → β} {put : β → List Char}
  {putCells : γ → List Cell}

theorem OwnReads.rewrite_flatten (h : OwnReads T P flat l) (hput : ∀ v l, P.read (.put v :: l) = none)
    (hreads : ∀ l, (P.read l).isSome = true → (T.read (flatten l)).isSome = true)
    (hout : ∀ a, flatten (putCells a) = put (flat a)) :
    T.rewrite (fun c => [c]) put (flatten l) = flatten (P.rewrite (fun e => [e]) putCells l) := by
  induction h with
  | nil => rfl
  | inserted hnone _ ih =>
    rw [Reader.rewrite_none (hput _ _), flatten_put, Reader.rewrite_append hnone, flatten_append, ih,
      List.flatMap_singleton']
    simp only [flatten_put, flatten_nil, List.append_nil]
  | @kept c l hnone _ ih =>
    have hP : P.read (.own c :: l) = none := by
      rw [← Option.not_isSome_iff_eq_none]
      intro hsome
      have hT := hreads _ hsome
      rw [flatten_own, hnone] at hT
      exact nomatch hT
    rw [Reader.rewrite_none hP, flatten_own, Reader.rewrite_none hnone, flatten_append, ih]
    rfl
  | read hP hT _ ih =>
    rw [Reader.rewrite_some hP, Reader.rewrite_some hT, flatten_append, ih, hout]

/-- Nothing is read where there is nothing to read. -/
theorem ownReads_of_none (h : ∀ t, t ≠ [] → t <:+ flatten l → T.read t = none) : OwnReads T P flat l := by
  induction l with
  | nil => exact .nil
  | cons e l ih =>
    cases e with
    | own c =>
      refine .kept (h (c :: flatten l) (List.cons_ne_nil _ _) (List.suffix_refl _)) (ih fun t ht hs => ?_)
      exact h t ht (hs.trans (List.suffix_cons c _))
    | put v =>
      refine .inserted (fun t ht hs => h _ ?_ ?_) (ih fun t ht hs => h t ht (hs.trans (List.suffix_append v _)))
      · exact fun hnil => ht (List.append_eq_nil_iff.mp hnil).1
      · obtain ⟨w, rfl⟩ := hs
        exact ⟨w, (List.append_assoc ..).symm⟩

end

/-- The placeholder of `k` is found in the flat text where the template has it, and nowhere else. -/
def OwnTag (k v : List Char) (l : List Cell) : Prop :=
  OwnReads (Reader.replacing (tag k) tag_ne_nil v) (filling (single k v)) id l

theorem single_eq_some : single k v n = some token ↔ n = k ∧ v = token := by
  rw [single]
  split
  · rename_i h
    exact ⟨fun hv => ⟨h, Option.some.inj hv⟩, fun hv => congrArg some hv.2⟩
  · rename_i h
    exact ⟨(fun hv => nomatch hv), (fun hv => absurd hv.1 h)⟩

theorem OwnTag.replaceText_flatten (h : OwnTag k v l) :
    replaceText (tag k) v (flatten l) = flatten (fill (single k v) l) := by
  rw [replaceText_eq_rewrite]
  refine h.rewrite_flatten ?_ ?_ fun v => List.append_nil v
  · exact fun v l => filling_none_of_head fun _ h => nomatch (List.cons.inj h).1
  · intro l hsome
    obtain ⟨⟨w, rest⟩, hread⟩ := Option.isSome_iff_exists.mp hsome
    obtain ⟨n, -, rfl, hv⟩ := filling_eq_some.mp hread
    obtain ⟨rfl, -⟩ := single_eq_some.mp hv
    rw [flatten_append, flatten_written, Reader.replacing_eq_some.mpr ⟨rfl, rfl⟩]
    rfl

/-- A placeholder that the flat text does not show is not read. -/
theorem ownTag_of_not_infix (h : ¬ tag k <:+: flatten l) : OwnTag k v l := by
  refine ownReads_of_none fun t _ ht => ?_
  rw [Option.eq_none_iff_forall_ne_some]
  rintro ⟨b, rest⟩ hread
  obtain ⟨w, hw⟩ := ht
  exact h ⟨w, rest, by rw [← hw, (Reader.replacing_eq_some.mp hread).2, List.append_assoc]⟩

theorem ownTag_tag (hk : ∀ c ∈ k, isBrace c = false) (h : OwnTag k v l) : OwnTag k v (written (tag k) ++ l) := by
  refine .read (filling_eq_some.mpr ⟨k, hk, rfl, single_eq_some.mpr ⟨rfl, rfl⟩⟩) (Reader.replacing_eq_some.mpr ⟨rfl, ?_⟩) h
  rw [flatten_append, flatten_written]

/-- Replace one placeholder after the other. -/
def replaceEach (values : List (List Char × List Char)) (text : List Char) : List Char :=
  values.foldl (fun text entry => replaceText (tag entry.1) entry.2 text) text

/-- Each placeholder, at its turn, is found only where the template has it. -/
def OwnTags : List (List Char × List Char) → List Cell → Prop
  | [], _ => True
  | (k, v) :: values, l => OwnTag k v l ∧ OwnTags values (fill (single k v) l)

theorem replaceEach_flatten {values : List (List Char × List Char)} (h : OwnTags values l) :
    replaceEach values (flatten l) = flatten (fill (values.lookup ·) l) := by
  induction values generalizing l with
  | nil => exact congrArg flatten (fill_eq_self fun _ => rfl).symm
  | cons entry values ih =>
    obtain ⟨k, v⟩ := entry
    have hnext := ih h.2
    rw [fill_fill] at hnext
    show replaceEach values (replaceText (tag k) v (flatten l)) = _
    rw [h.1.replaceText_flatten, hnext]
    congr 2
    funext n
    rw [List.lookup_cons, single]
    by_cases hn : n = k
    · rw [if_pos hn, beq_iff_eq.mpr hn]
      rfl
    · rw [if_neg hn, beq_eq_false_iff_ne.mpr hn]
      rfl

end Claudear.Text
