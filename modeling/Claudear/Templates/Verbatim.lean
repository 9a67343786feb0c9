import Claudear.Templates.Renderer

/-!
# What a template stands for

`simultaneous` reads loops, placeholders and conditionals in the template's own
characters and inserts every value as it is, in one pass. `render` replaces one
placeholder after the other in a flat text: a value with a placeholder of a
later step in it is read again. `OwnOnly` says that no step does that, and then
`render` gives what the template stands for, in whatever order the maps are
iterated.
-/

namespace Claudear.Templates

open Text (Reader Cell OwnReads OwnTags fill flatten isBrace replaceEach strip tag written)
open Data (Dict)

variable {template body name : Str} {context other : TemplateContext} {item : Dict Str Str} {count index : Nat}

/-! ## The meaning of a template -/

def fields (context : TemplateContext) : List (Str × Str) :=
  [("id".toList, context.issue.id), ("short_id".toList, context.issue.short_id), ("title".toList, context.issue.title),
    ("url".toList, context.issue.url), ("source".toList, context.issue.source),
    ("priority".toList, (priorityToString context.issue.priority).toList),
    ("status".toList, (statusToString context.issue.status).toList),
    ("description".toList, context.issue.description.getD []), ("context".toList, context.source_context),
    ("has_agent_md".toList, boolToString context.agent_md.isSome), ("agent_md".toList, context.agent_md.getD []),
    ("event_count".toList, ((context.issue.getMetadata asU64 "event_count").map fun n => (toString n).toList).getD
      "N/A".toList)]

def value (context : TemplateContext) (name : Str) : Option Str :=
  ((fields context).lookup name).or (context.custom_variables.get name)

/-- Where the item stands in the array. -/
def position (count index : Nat) : List (Str × Str) :=
  [("@index".toList, (toString index).toList), ("@first".toList, boolToString (index = 0)),
    ("@last".toList, boolToString (index = count - 1))]

def itself (item : Dict Str Str) : List (Str × Str) := ((item.get "item".toList).map fun v => ("this".toList, v)).toList

def itemValue (count index : Nat) (item : Dict Str Str) (name : Str) : Option Str :=
  ((position count index ++ itself item).lookup name).or
    ((item.get name).or ((strip some "this.".toList name).bind item.get))

def expand (context : TemplateContext) (caps : Str × Str) : List Cell :=
  match context.arrays.get caps.1 with
  | some items => (items.mapIdx fun index item => fill (itemValue items.length index item) (written caps.2)).flatten
  | none => []

def loops (template : Str) (context : TemplateContext) : List Cell :=
  eachRegex.rewrite (fun c => [.own c]) (expand context) template

def filled (template : Str) (context : TemplateContext) : List Cell := fill (value context) (loops template context)

def simultaneous (template : Str) (context : TemplateContext) : Str :=
  flatten ((ifRegex Cell.own?).rewrite (fun e => [e])
    (fun caps => if shouldInclude context caps.1 then caps.2 else []) (filled template context))

/-- The same context, whose maps may be iterated in another order. -/
structure SameContext (a b : TemplateContext) : Prop where
  issue : a.issue = b.issue
  source_context : a.source_context = b.source_context
  agent_md : a.agent_md = b.agent_md
  custom_variables : a.custom_variables.items.Perm b.custom_variables.items
  arrays : ∀ name, Option.Rel (List.Forall₂ fun x y : Dict Str Str => x.items.Perm y.items)
    (a.arrays.get name) (b.arrays.get name)

def InsertedVerbatim (template : Str) (context : TemplateContext) : Prop :=
  ∀ other, SameContext context other → render template other = simultaneous template context

/-! ## No value is read -/

def entries (item : Dict Str Str) : List (Str × Str) :=
  item.items.flatMap fun entry => [(entry.1, entry.2), ("this.".toList ++ entry.1, entry.2)]

/-- No placeholder of the body has two values, one of a key `k` and one of a key `this.k`. -/
def Unambiguous (item : Dict Str Str) (body : Str) : Prop :=
  ∀ k v w, item.get ("this.".toList ++ k) = some v → item.get k = some w → v ≠ w →
    ¬ tag ("this.".toList ++ k) <:+: body

/-- Whatever is read at a step is the template's own. -/
structure OwnOnly (template : Str) (context : TemplateContext) : Prop where
  items : ∀ caps items, .inr caps ∈ eachRegex.scan template → context.arrays.get caps.1 = some items →
    ∀ index item, items[index]? = some item → Unambiguous item caps.2 ∧
      OwnTags (position items.length index ++ itself item ++ entries item) (written caps.2)
  values : OwnTags (fields context ++ context.custom_variables.items) (loops template context)
  conditionals : OwnReads (ifRegex some) (ifRegex Cell.own?) (fun caps => (caps.1, flatten caps.2))
    (filled template context)

/-! ## The steps of the code -/

theorem iterate_eq_replaceEach :
    iterate body count index item = replaceEach (position count index ++ itself item ++ entries item) body := by
  have hentries : ∀ (l : List (Str × Str)) (text : Str), l.foldl (fun iteration entry =>
      Text.replaceText (tag ("this.".toList ++ entry.1)) entry.2 (Text.replaceText (tag entry.1) entry.2 iteration)) text =
        replaceEach (l.flatMap fun entry => [(entry.1, entry.2), ("this.".toList ++ entry.1, entry.2)]) text := by
    intro l
    induction l with
    | nil => exact fun _ => rfl
    | cons entry l ih => exact fun text => ih _
  rw [iterate]
  cases hitem : item.get "item".toList with
  | none =>
    have hitself : itself item = [] := by
      rw [itself, hitem]
      rfl
    rw [hitself]
    exact hentries item.items _
  | some v =>
    have hitself : itself item = [("this".toList, v)] := by
      rw [itself, hitem]
      rfl
    rw [hitself]
    exact hentries item.items _

theorem render_eq_replaceEach : render template context = processConditionals
    (replaceEach (fields context ++ context.custom_variables.items) (processLoops template context)) context := by
  cases hcount : context.issue.getMetadata asU64 "event_count" with
  | none =>
    simp only [render, replaceEach, replace, fields, hcount, List.foldl_append, List.foldl_cons, List.foldl_nil,
      Option.map_none, Option.getD_none]
  | some n =>
    simp only [render, replaceEach, replace, fields, hcount, List.foldl_append, List.foldl_cons, List.foldl_nil,
      Option.map_some, Option.getD_some]

theorem mem_entries {v : Str} : (name, v) ∈ entries item ↔
    item.get name = some v ∨ ∃ k, name = "this.".toList ++ k ∧ item.get k = some v := by
  rw [entries, List.mem_flatMap]
  constructor
  · rintro ⟨entry, hentry, h⟩
    have hget := Dict.get_eq_some.mpr hentry
    rcases List.mem_cons.mp h with h | h
    · obtain ⟨rfl, rfl⟩ := Prod.mk.inj h
      exact .inl hget
    · obtain ⟨rfl, rfl⟩ := Prod.mk.inj (List.mem_singleton.mp h)
      exact .inr ⟨_, rfl, hget⟩
  · rintro (h | ⟨k, rfl, h⟩)
    · exact ⟨_, Dict.get_eq_some.mp h, List.mem_cons_self⟩
    · exact ⟨_, Dict.get_eq_some.mp h, List.mem_cons_of_mem _ List.mem_cons_self⟩

theorem lookup_entries (h : Unambiguous item body) (hname : tag name <:+: body) :
    (entries item).lookup name = (item.get name).or ((strip some "this.".toList name).bind item.get) := by
  apply Data.lookup_eq_of_mem
  · intro v hv
    rcases mem_entries.mp hv with hget | ⟨k, rfl, hget⟩
    · rw [hget]
      rfl
    · cases hwhole : item.get ("this.".toList ++ k) with
      | none =>
        rw [Option.none_or, Text.strip_some.mpr rfl]
        exact hget
      | some w =>
        rw [Option.some_or]
        by_contra hne
        exact h k w v hwhole hget (fun heq => hne (congrArg some heq)) hname
  · intro hsome
    obtain ⟨v, hv⟩ := Option.isSome_iff_exists.mp hsome
    refine ⟨v, mem_entries.mpr ?_⟩
    rcases Option.or_eq_some_iff.mp hv with hget | ⟨-, hget⟩
    · exact .inl hget
    · obtain ⟨k, hk, hget⟩ := Option.bind_eq_some_iff.mp hget
      exact .inr ⟨k, Text.strip_some.mp hk, hget⟩

theorem iterate_eq_flatten (hitem : Unambiguous item body)
    (h : OwnTags (position count index ++ itself item ++ entries item) (written body)) :
    iterate body count index item = flatten (fill (itemValue count index item) (written body)) := by
  have hbody : flatten (written body) = body := Text.flatten_written
  rw [iterate_eq_replaceEach]
  conv_lhs => rw [← hbody]
  rw [Text.replaceEach_flatten h]
  refine congrArg flatten (Text.fill_congr fun n hn => ?_)
  have hn : tag n <:+: body := Text.infix_of_written hn
  rw [List.lookup_append, lookup_entries hitem hn]
  rfl

theorem processLoops_eq_flatten (h : OwnOnly template context) :
    processLoops template context = flatten (loops template context) := by
  rw [processLoops, loops, flatten, Reader.flatMap_rewrite]
  apply Reader.rewrite_congr
  intro caps hcaps
  show _ = flatten (expand context caps)
  cases harray : context.arrays.get caps.1 with
  | none =>
    rw [expand, harray]
    rfl
  | some items =>
    simp only [expand, harray, Text.flatten_flatten]
    congr 1
    apply List.ext_getElem?
    intro index
    rw [List.getElem?_map, List.getElem?_mapIdx, List.getElem?_mapIdx]
    cases hitem : items[index]? with
    | none => rfl
    | some item =>
      obtain ⟨hone, htags⟩ := h.items caps items hcaps harray index item hitem
      exact congrArg some (iterate_eq_flatten hone htags)

theorem ifRegex_read {α : Type} {ch : α → Option Char} {l : List α} :
    (ifRegex ch).read l = readBlock ch "if".toList l := rfl

theorem processConditionals_flatten {l : List Cell}
    (h : OwnReads (ifRegex some) (ifRegex Cell.own?) (fun caps => (caps.1, flatten caps.2)) l) :
    processConditionals (flatten l) context = flatten ((ifRegex Cell.own?).rewrite (fun e => [e])
      (fun caps => if shouldInclude context caps.1 then caps.2 else []) l) := by
  refine h.rewrite_flatten ?_ ?_ ?_
  · intro v l
    rw [Option.eq_none_iff_forall_ne_some]
    rintro ⟨caps, rest⟩ hread
    obtain ⟨blanks, u, w, hl, hu, -⟩ := readBlock_eq_some (ifRegex_read.symm.trans hread)
    rw [Text.map_own?_eq.mp hu] at hl
    exact nomatch (List.cons.inj hl).1
  · intro l hsome
    obtain ⟨⟨caps, rest⟩, hread⟩ := Option.isSome_iff_exists.mp hsome
    obtain ⟨blanks, u, w, rfl, hu, hw, hblanks, hname, hs, hword⟩ := readBlock_eq_some (ifRegex_read.symm.trans hread)
    rw [ifRegex_read, Text.map_own?_eq.mp hu, Text.map_own?_eq.mp hw, Text.flatten_append, Text.flatten_append, Text.flatten_append,
      Text.flatten_written, Text.flatten_written]
    exact readBlock_isSome rfl rfl hblanks hname hs hword
  · intro caps
    show flatten (if _ then _ else _) = if _ then _ else _
    split
    · rfl
    · rfl

theorem value_eq_lookup : (fun n => (fields context ++ context.custom_variables.items).lookup n) = value context := by
  funext n
  rw [List.lookup_append, Dict.lookup_items]
  rfl

theorem render_eq_simultaneous (h : OwnOnly template context) : render template context = simultaneous template context := by
  rw [render_eq_replaceEach, processLoops_eq_flatten h, Text.replaceEach_flatten h.values, value_eq_lookup]
  exact processConditionals_flatten h.conditionals

/-! ## The order of the maps -/

theorem mapIdx_eq_of_forall₂ {α β γ : Type} {R : α → β → Prop} {xs : List α} {ys : List β} {f : Nat → α → γ}
    {g : Nat → β → γ} (h : List.Forall₂ R xs ys) (hfg : ∀ i x y, R x y → f i x = g i y) : xs.mapIdx f = ys.mapIdx g := by
  induction h generalizing f g with
  | nil => rfl
  | cons hxy _ ih => rw [List.mapIdx_cons, List.mapIdx_cons, hfg 0 _ _ hxy, ih fun i x y => hfg (i + 1) x y]

namespace SameContext

theorem refl : SameContext context context where
  issue := rfl
  source_context := rfl
  agent_md := rfl
  custom_variables := .refl _
  arrays name := by
    cases context.arrays.get name with
    | none => exact .none
    | some items => exact .some (List.forall₂_same.mpr fun _ _ => .refl _)

theorem fields_eq (h : SameContext context other) : fields context = fields other := by
  simp only [fields, h.issue, h.source_context, h.agent_md]

theorem value_eq (h : SameContext context other) : value context = value other := by
  funext n
  rw [value, value, h.fields_eq, Dict.get_eq_of_perm h.custom_variables]

theorem itemValue_eq {x y : Dict Str Str} (h : x.items.Perm y.items) :
    itemValue count index x = itemValue count index y := by
  funext n
  simp only [itemValue, itself, Dict.get_eq_of_perm h]

theorem expand_eq (h : SameContext context other) : expand context = expand other := by
  funext caps
  have harray := h.arrays caps.1
  rw [expand, expand]
  generalize context.arrays.get caps.1 = x at harray
  generalize other.arrays.get caps.1 = y at harray
  cases harray with
  | none => rfl
  | some hitems =>
    refine congrArg List.flatten (mapIdx_eq_of_forall₂ hitems fun index x y hxy => ?_)
    rw [hitems.length_eq, itemValue_eq hxy]

theorem shouldInclude_eq (h : SameContext context other) : shouldInclude context = shouldInclude other := by
  funext field
  have harray := h.arrays field
  rw [shouldInclude, shouldInclude, h.issue, h.agent_md, Dict.get_eq_of_perm h.custom_variables]
  generalize context.arrays.get field = x at harray
  generalize other.arrays.get field = y at harray
  cases harray with
  | none => rfl
  | some hitems =>
    cases hitems with
    | nil => rfl
    | cons => rfl

theorem simultaneous_eq (h : SameContext context other) : simultaneous template context = simultaneous template other := by
  rw [simultaneous, simultaneous, filled, filled, loops, loops, h.expand_eq, h.value_eq, h.shouldInclude_eq]

end SameContext

/-- Every value is inserted as it is where no step reads a value. -/
theorem insertedVerbatim_of_ownOnly (h : ∀ other, SameContext context other → OwnOnly template other) :
    InsertedVerbatim template context := by
  intro other hother
  rw [render_eq_simultaneous (h other hother), hother.simultaneous_eq]

/-- An issue with a title, in a context without maps. -/
def titled (title : String) : TemplateContext where
  issue := { id := "7".toList, short_id := "APP-7".toList, title := title.toList, description := none, url := [],
             source := "linear".toList, priority := .high, status := .open, metadata := fun _ => none }
  source_context := "trace".toList
  agent_md := none
  custom_variables := Dict.empty
  arrays := Dict.empty

theorem titleCrash_ownOnly (h : SameContext (titled "Crash") other) : OwnOnly (tag "title".toList) other := by
  have hloops : loops (tag "title".toList) other = written (tag "title".toList) := by
    rw [loops, ← h.expand_eq]
    decide
  have hfilled : filled (tag "title".toList) other = [.put "Crash".toList] := by
    rw [filled, hloops, ← h.value_eq]
    decide
  constructor
  · intro caps items hcaps
    have hscan : eachRegex.scan (tag "title".toList) = (tag "title".toList).map .inl := by decide
    rw [hscan] at hcaps
    obtain ⟨c, -, hc⟩ := List.mem_map.mp hcaps
    exact nomatch hc
  · have hvariables : other.custom_variables.items = [] := List.nil_perm.mp h.custom_variables
    rw [hvariables, hloops, ← h.fields_eq, List.append_nil]
    have habsent : ∀ {k v : Str} {l : List Cell}, ¬ tag k <:+: flatten l → Text.OwnTag k v l := Text.ownTag_of_not_infix
    have htitle : Text.OwnTag "title".toList "Crash".toList (written (tag "title".toList)) :=
      Text.ownTag_tag (l := []) (Text.forall_of_all (by decide)) .nil
    exact ⟨habsent (by decide), habsent (by decide), htitle, habsent (by decide), habsent (by decide),
      habsent (by decide), habsent (by decide), habsent (by decide), habsent (by decide), habsent (by decide),
      habsent (by decide), habsent (by decide), trivial⟩
  · rw [hfilled]
    refine Text.ownReads_of_none fun t _ ht => ?_
    have hall : ∀ t ∈ "Crash".toList.tails, (ifRegex some).read t = none := by decide
    exact hall t ((List.mem_tails _ _).mpr ht)

theorem titleCrash_insertedVerbatim : InsertedVerbatim (tag "title".toList) (titled "Crash") :=
  insertedVerbatim_of_ownOnly fun _ => titleCrash_ownOnly

/-- A title that names a placeholder of a later step is read again. -/
theorem titleContext_reread : ¬ InsertedVerbatim (tag "title".toList) (titled "\x7b\x7bcontext\x7d\x7d") := by
  intro h
  have hrender := h _ .refl
  revert hrender
  decide

end Claudear.Templates
