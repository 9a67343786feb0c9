import Claudear.Analysis.Issue
import Claudear.Data.Dict
import Claudear.Text.Inserted

/-!
# Rendering a template

`render` expands the loops, replaces the placeholders of the issue, of the
context and of the variables one after the other, and then decides the
conditionals in the text that this gives.

A hash map is its entries in the order in which an iteration meets them. The
regular expressions are readers of a text in which `ch` says what can be read:
of all of it in `render`.
-/

namespace Claudear.Templates

open Text (Reader strip takeClass upTo tag replaceText written flatten)
open Analysis (IssuePriority Json)
open Data (Dict)

abbrev Str := List Char

inductive IssueStatus where
  | open
  | inProgress
  | resolved
  | ignored
  deriving DecidableEq

structure Issue where
  id : Str
  short_id : Str
  title : Str
  description : Option Str
  url : Str
  source : Str
  priority : IssuePriority
  status : IssueStatus
  metadata : Str → Option Json

structure TemplateContext where
  issue : Issue
  source_context : Str
  agent_md : Option Str
  custom_variables : Dict Str Str
  arrays : Dict Str (List (Dict Str Str))

def priorityToString : IssuePriority → String
  | .none => "none"
  | .low => "low"
  | .medium => "medium"
  | .high => "high"
  | .critical => "critical"

def statusToString : IssueStatus → String
  | .open => "open"
  | .inProgress => "in_progress"
  | .resolved => "resolved"
  | .ignored => "ignored"

/-- `serde_json::from_value::<u64>` -/
def asU64 : Json → Option Nat
  | .number (.int i) => if 0 ≤ i ∧ i < 2 ^ 64 then some i.toNat else none
  | _ => none

namespace Issue

def getMetadata {α : Type} (issue : Issue) (read : Json → Option α) (key : String) : Option α :=
  (issue.metadata key.toList).bind read

end Issue

/-! ## The regular expressions -/

/-- `\s` is ASCII whitespace. -/
def isSpace (c : Char) : Bool := c ∈ [' ', '\t', '\n', '\x0b', '\x0c', '\r']

/-- `\w` is an ASCII letter, a digit or an underscore. -/
def isWord (c : Char) : Bool := c.isAlphanum || c = '_'

theorem isSpace_of_isWord {c : Char} (h : isWord c = true) : isSpace c = false := by
  rw [Bool.eq_false_iff]
  intro hs
  have hc : c ∈ [' ', '\t', '\n', '\x0b', '\x0c', '\r'] := of_decide_eq_true hs
  simp only [List.mem_cons, List.not_mem_nil, or_false] at hc
  rcases hc with rfl | rfl | rfl | rfl | rfl | rfl <;> exact absurd h (by decide)

def opening (word blanks name : Str) : Str :=
  '\x7b' :: '\x7b' :: '#' :: (word ++ (blanks ++ (name ++ ['\x7d', '\x7d'])))

def closing (word : Str) : Str := '\x7b' :: '\x7b' :: '/' :: (word ++ ['\x7d', '\x7d'])

section
variable {α : Type} (ch : α → Option Char) (word : Str)

/-- A block from its opening tag to the first closing one: the name and the body. -/
def readBlock (l : List α) : Option ((Str × List α) × List α) :=
  (strip ch ('\x7b' :: '\x7b' :: '#' :: word) l).bind fun l =>
    match takeClass ch isSpace l with
    | (blanks, l) =>
      match takeClass ch isWord l with
      | (name, l) =>
        if blanks = [] ∨ name = [] then none
        else (strip ch ['\x7d', '\x7d'] l).bind fun l =>
          (upTo ch (closing word) l).map fun found => ((name, found.1), found.2)

variable {ch word} {l body rest : List α} {name : Str}

theorem readBlock_eq_some (h : readBlock ch word l = some ((name, body), rest)) :
    ∃ blanks u v, l = u ++ (body ++ (v ++ rest)) ∧ u.map ch = (opening word blanks name).map some ∧
      v.map ch = (closing word).map some ∧ blanks ≠ [] ∧ name ≠ [] ∧ (∀ c ∈ blanks, isSpace c = true) ∧
        ∀ c ∈ name, isWord c = true := by
  obtain ⟨l₁, hopen, h⟩ := Option.bind_eq_some_iff.mp h
  generalize hspace : takeClass ch isSpace l₁ = taken at h
  obtain ⟨blanks, l₂⟩ := taken
  generalize hword : takeClass ch isWord l₂ = taken at h
  obtain ⟨m, l₃⟩ := taken
  simp only at hword h
  rw [hword] at h
  simp only at h
  split at h
  · exact nomatch h
  · rename_i hne
    obtain ⟨hblanks, hname⟩ := not_or.mp hne
    obtain ⟨l₄, hclose, h⟩ := Option.bind_eq_some_iff.mp h
    obtain ⟨⟨b, r⟩, hfound, heq⟩ := Option.map_eq_some_iff.mp h
    obtain ⟨hcaps, rfl⟩ := Prod.mk.inj heq
    obtain ⟨rfl, rfl⟩ := Prod.mk.inj hcaps
    obtain ⟨u₁, rfl, hu₁⟩ := Text.strip_eq_some.mp hopen
    obtain ⟨u₂, rfl, hu₂, hs, -⟩ := Text.takeClass_eq hspace
    obtain ⟨u₃, rfl, hu₃, hw, -⟩ := Text.takeClass_eq hword
    obtain ⟨u₄, rfl, hu₄⟩ := Text.strip_eq_some.mp hclose
    obtain ⟨v, rfl, hv⟩ := Text.upTo_eq_some hfound
    refine ⟨blanks, u₁ ++ (u₂ ++ (u₃ ++ u₄)), v, by simp only [List.append_assoc], ?_, hv, hblanks, hname, hs, hw⟩
    simp only [List.map_append, hu₁, hu₂, hu₃, hu₄, opening, List.map_cons, List.cons_append]

/-- Where there is a block, one is read. -/
theorem readBlock_isSome {blanks : Str} {u v : List α} (hu : u.map ch = (opening word blanks name).map some)
    (hv : v.map ch = (closing word).map some) (hblanks : blanks ≠ []) (hname : name ≠ [])
    (hs : ∀ c ∈ blanks, isSpace c = true) (hw : ∀ c ∈ name, isWord c = true) :
    (readBlock ch word (u ++ (body ++ (v ++ rest)))).isSome = true := by
  have hsplit : (opening word blanks name).map some = ('\x7b' :: '\x7b' :: '#' :: word).map some ++
      (blanks.map some ++ (name.map some ++ ['\x7d', '\x7d'].map some)) := by
    simp [opening]
  rw [hsplit] at hu
  obtain ⟨u₁, r₁, rfl, hu₁, hr₁⟩ := List.map_eq_append_iff.mp hu
  obtain ⟨u₂, r₂, rfl, hu₂, hr₂⟩ := List.map_eq_append_iff.mp hr₁
  obtain ⟨u₃, u₄, rfl, hu₃, hu₄⟩ := List.map_eq_append_iff.mp hr₂
  have hclose : takeClass ch isWord (u₃ ++ (u₄ ++ (body ++ (v ++ rest)))) = (name, u₄ ++ (body ++ (v ++ rest))) := by
    refine Text.takeClass_append hu₃ hw ?_
    intro a ha c hc
    cases u₄ with
    | nil => exact nomatch hu₄
    | cons d u₄ =>
      obtain rfl : d = a := Option.some.inj ha
      have hd := (List.cons.inj hu₄).1
      rw [hc] at hd
      obtain rfl := Option.some.inj hd
      decide
  have hnext : takeClass ch isSpace (u₂ ++ (u₃ ++ (u₄ ++ (body ++ (v ++ rest))))) =
      (blanks, u₃ ++ (u₄ ++ (body ++ (v ++ rest)))) := by
    refine Text.takeClass_append hu₂ hs ?_
    intro a ha c hc
    cases u₃ with
    | nil => exact absurd (List.map_eq_nil_iff.mp hu₃.symm) hname
    | cons d u₃ =>
      obtain rfl : d = a := Option.some.inj ha
      cases name with
      | nil => exact absurd rfl hname
      | cons e name =>
        have hd := (List.cons.inj hu₃).1
        rw [hc] at hd
        obtain rfl := Option.some.inj hd
        exact isSpace_of_isWord (hw c List.mem_cons_self)
  have hend : strip ch ['\x7d', '\x7d'] (u₄ ++ (body ++ (v ++ rest))) = some (body ++ (v ++ rest)) :=
    Text.strip_eq_some.mpr ⟨u₄, rfl, hu₄⟩
  rw [readBlock]
  simp only [List.append_assoc]
  rw [Text.strip_eq_some.mpr ⟨u₁, rfl, hu₁⟩, Option.bind_some]
  simp only [hnext, hclose]
  rw [if_neg (not_or.mpr ⟨hblanks, hname⟩), hend, Option.bind_some, Option.isSome_map]
  exact Text.upTo_isSome hv

variable (ch word)

def blocks : Reader α (Str × List α) where
  read := readBlock ch word
  takes h := by
    obtain ⟨blanks, u, v, hl, hu, -⟩ := readBlock_eq_some h
    refine ⟨u ++ (_ ++ v), ?_, by simpa only [List.append_assoc] using hl⟩
    rintro hnil
    rw [(List.append_eq_nil_iff.mp hnil).1] at hu
    exact nomatch hu

end

/-- `EACH_REGEX` -/
def eachRegex : Reader Char (Str × Str) := blocks some "each".toList

/-- `IF_REGEX` -/
def ifRegex {α : Type} (ch : α → Option Char) : Reader α (Str × List α) := blocks ch "if".toList

/-! ## Rendering -/

def replace (result : Str) (name : String) (value : Str) : Str := replaceText (tag name.toList) value result

def boolToString (b : Bool) : Str := if b then "true".toList else "false".toList

/-- The body of a loop for one of `count` items. -/
def iterate (loop_body : Str) (count index : Nat) (item : Dict Str Str) : Str :=
  let iteration := replace loop_body "@index" (toString index).toList
  let iteration := replace iteration "@first" (boolToString (index = 0))
  let iteration := replace iteration "@last" (boolToString (index = count - 1))
  let iteration :=
    match item.get "item".toList with
    | some value => replace iteration "this" value
    | none => iteration
  item.items.foldl (fun iteration entry =>
    replaceText (tag ("this.".toList ++ entry.1)) entry.2 (replaceText (tag entry.1) entry.2 iteration)) iteration

def processLoops (template : Str) (context : TemplateContext) : Str :=
  eachRegex.rewrite (fun c => [c]) (fun caps =>
    match context.arrays.get caps.1 with
    | some items => (items.mapIdx fun index item => iterate caps.2 items.length index item).flatten
    | none => []) template

def shouldInclude (context : TemplateContext) (field : Str) : Bool :=
  if field = "has_agent_md".toList then context.agent_md.isSome
  else if field = "description".toList then context.issue.description.isSome
  else
    match context.arrays.get field with
    | some a => !a.isEmpty
    | none => ((context.custom_variables.get field).map fun v => !v.isEmpty).getD false

def processConditionals (template : Str) (context : TemplateContext) : Str :=
  (ifRegex some).rewrite (fun c => [c]) (fun caps => if shouldInclude context caps.1 then caps.2 else []) template

def render (template : Str) (context : TemplateContext) : Str :=
  let result := processLoops template context
  let result := replace result "id" context.issue.id
  let result := replace result "short_id" context.issue.short_id
  let result := replace result "title" context.issue.title
  let result := replace result "url" context.issue.url
  let result := replace result "source" context.issue.source
  let result := replace result "priority" (priorityToString context.issue.priority).toList
  let result := replace result "status" (statusToString context.issue.status).toList
  let description := context.issue.description.getD []
  let result := replace result "description" description
  let result := replace result "context" context.source_context
  let has_agent_md := context.agent_md.isSome
  let result := replace result "has_agent_md" (boolToString has_agent_md)
  let result := replace result "agent_md" (context.agent_md.getD [])
  let result :=
    match context.issue.getMetadata asU64 "event_count" with
    | some event_count => replace result "event_count" (toString event_count).toList
    | none => replace result "event_count" "N/A".toList
  let result := context.custom_variables.items.foldl (fun result entry => replaceText (tag entry.1) entry.2 result) result
  processConditionals result context

end Claudear.Templates
