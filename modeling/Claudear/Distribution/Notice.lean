import Claudear.Core.Time
import Claudear.Distribution.Roster

/-!
# Digest messages

A group of a digest is a heading and a line for every pull request. `pages`
splits it into messages of at most `limit` characters: it adds one line after
another to the open page, each cut to the limit, and closes the page when the
next line no longer fits. The pages are the groups of a division of the cut
lines, none of them empty (`pages_divide`).

How a channel writes mentions and links is any `Markup`, and the difference of
two times in whole days is a parameter.
-/

namespace Claudear.Distribution

open Claudear.Core

structure Markup where
  mention : Developer → String
  link : String → String → String
  text : String → String

structure PullRequestSummary where
  url : String
  repo : String
  number : Int
  title : String
  openedAt : Option DateTime
  deriving DecidableEq, Repr

structure DigestGroup where
  developer : Developer
  pullRequests : List PullRequestSummary
  deriving DecidableEq, Repr

/-- `(now - opened_at).num_days()` -/
abbrev NumDays := DateTime → DateTime → Int

namespace PullRequestSummary

def label (p : PullRequestSummary) : String := p.repo ++ "#" ++ toString p.number

def line (numDays : NumDays) (markup : Markup) (now : DateTime) (p : PullRequestSummary) : String :=
  match p.openedAt with
  | some openedAt =>
    "• " ++ markup.link p.label p.url ++ " " ++ markup.text p.title ++ " (open " ++
      toString (max (numDays now openedAt) 0) ++ "d)"
  | none => "• " ++ markup.link p.label p.url ++ " " ++ markup.text p.title

end PullRequestSummary

/-- The pages closed so far, the open page and its length. -/
structure PageState where
  pages : List (List Char)
  page : List Char
  length : Nat

namespace PageState

def empty : PageState where
  pages := []
  page := []
  length := 0

/-- `pages.push(std::mem::take(&mut page))` when the line does not fit. -/
def flush (limit : Nat) (s : PageState) (line : List Char) : PageState :=
  if 0 < s.length ∧ limit < s.length + 1 + line.length then
    { pages := s.pages ++ [s.page], page := [], length := 0 }
  else s

/-- The line on the open page, after a newline if the page has something. -/
def append (s : PageState) (line : List Char) : PageState :=
  if 0 < s.length then
    { s with page := s.page ++ ['\n'] ++ line, length := s.length + 1 + line.length }
  else { s with page := s.page ++ line, length := s.length + line.length }

def addLine (limit : Nat) (s : PageState) (line : List Char) : PageState :=
  (s.flush limit (line.take limit)).append (line.take limit)

def finish (s : PageState) : List (List Char) :=
  if 0 < s.length then s.pages ++ [s.page] else s.pages

end PageState

namespace DigestGroup

def heading (markup : Markup) (g : DigestGroup) : String :=
  markup.mention g.developer ++ " " ++ toString g.pullRequests.length ++ " Claudear PR" ++
    (if g.pullRequests.length = 1 then "" else "s") ++ " waiting on you:"

def lines (numDays : NumDays) (markup : Markup) (now : DateTime) (g : DigestGroup) : List String :=
  g.pullRequests.map (PullRequestSummary.line numDays markup now)

/-- The heading and the lines. -/
def allLines (numDays : NumDays) (markup : Markup) (now : DateTime) (g : DigestGroup) :
    List String :=
  g.heading markup :: g.lines numDays markup now

def render (numDays : NumDays) (markup : Markup) (now : DateTime) (g : DigestGroup) : String :=
  "\n".intercalate (g.allLines numDays markup now)

def pages (numDays : NumDays) (markup : Markup) (now : DateTime) (limit : Nat) (g : DigestGroup) :
    List String :=
  (((g.allLines numDays markup now).map String.toList).foldl (PageState.addLine limit)
    PageState.empty).finish.map String.ofList

end DigestGroup

/-! ## Pages as groups of lines -/

/-- The lines of a page. -/
def joined (lines : List (List Char)) : List Char := ['\n'].intercalate lines

@[simp] theorem joined_nil : joined [] = [] := rfl

@[simp] theorem joined_singleton (line : List Char) : joined [line] = line := by simp [joined]

theorem joined_concat {lines : List (List Char)} (h : lines ≠ []) (line : List Char) :
    joined (lines ++ [line]) = joined lines ++ ['\n'] ++ line := by
  induction lines with
  | nil => exact absurd rfl h
  | cons first rest ih =>
    cases rest with
    | nil => simp [joined]
    | cons second rest =>
      have ih := ih (List.cons_ne_nil _ _)
      unfold joined at ih ⊢
      rw [List.cons_append, List.cons_append, List.intercalate_cons_cons, ← List.cons_append, ih,
        List.intercalate_cons_cons]
      simp only [List.append_assoc]

theorem prefix_joined (line : List Char) (rest : List (List Char)) :
    line <+: joined (line :: rest) := by
  cases rest with
  | nil => simp
  | cons second rest =>
    rw [joined, List.intercalate_cons_cons, List.append_assoc]
    exact List.prefix_append _ _

/-- The state after the lines `done`: the groups of the closed pages and the lines of the open one. -/
structure Divides (limit : Nat) (s : PageState) (done : List (List Char))
    (closed : List (List (List Char))) (opened : List (List Char)) : Prop where
  pages : s.pages = closed.map joined
  page : s.page = joined opened
  length : s.length = s.page.length
  fits : ∀ page ∈ s.page :: s.pages, page.length ≤ limit
  started : s.length = 0 → opened = []
  nonempty : ∀ group ∈ closed, group ≠ []
  lines : closed.flatten ++ opened = done

variable {limit : Nat} {s : PageState} {done : List (List Char)} {closed : List (List (List Char))}
  {opened : List (List Char)} {line : List Char}

/-- Before a line that is not empty: the page is closed when the line does not fit. -/
theorem Divides.flush (h : Divides limit s done closed opened) (line : List Char) :
    ∃ closed opened, Divides limit (s.flush limit line) done closed opened ∧
      (0 < (s.flush limit line).length → (s.flush limit line).length + 1 + line.length ≤ limit) := by
  unfold PageState.flush
  split
  · rename_i hf
    refine ⟨closed ++ [opened], [], ⟨?_, rfl, rfl, ?_, fun _ => rfl, ?_, ?_⟩, fun h0 => absurd h0 (by simp)⟩
    · rw [h.pages, h.page, List.map_append, List.map_singleton]
    · intro page hp
      rcases List.mem_cons.mp hp with rfl | hp
      · exact Nat.zero_le _
      · rcases List.mem_append.mp hp with hp | hp
        · exact h.fits page (List.mem_cons_of_mem _ hp)
        · exact h.fits page (List.mem_singleton.mp hp ▸ List.mem_cons_self)
    · intro group hg
      rcases List.mem_append.mp hg with hg | hg
      · exact h.nonempty group hg
      · rw [List.mem_singleton.mp hg]
        rintro rfl
        have hl := h.length
        rw [h.page] at hl
        simp only [joined_nil, List.length_nil] at hl
        omega
    · rw [List.flatten_append, List.flatten_singleton, List.append_nil, h.lines]
  · rename_i hf
    exact ⟨closed, opened, h, fun h0 => by omega⟩

theorem Divides.append (h : Divides limit s done closed opened) (hne : line ≠ [])
    (hl : line.length ≤ limit) (hf : 0 < s.length → s.length + 1 + line.length ≤ limit) :
    Divides limit (s.append line) (done ++ [line]) closed (opened ++ [line]) := by
  have hpos : 0 < line.length := List.length_pos_iff.mpr hne
  have hlen := h.length
  unfold PageState.append
  split
  · rename_i h0
    have hopen : opened ≠ [] := by
      rintro rfl
      rw [h.page] at hlen
      simp only [joined_nil, List.length_nil] at hlen
      omega
    refine ⟨h.pages, ?_, ?_, ?_, fun hz => ?_, h.nonempty, ?_⟩
    · rw [joined_concat hopen, h.page]
    · simp only [List.length_append, List.length_singleton]
      omega
    · intro page hp
      rcases List.mem_cons.mp hp with rfl | hp
      · simp only [List.length_append, List.length_singleton]
        have := hf h0
        omega
      · exact h.fits page (List.mem_cons_of_mem _ hp)
    · dsimp only at hz
      omega
    · rw [← List.append_assoc, h.lines]
  · rename_i h0
    have hopen : opened = [] := h.started (by omega)
    refine ⟨h.pages, ?_, ?_, ?_, fun hz => ?_, h.nonempty, ?_⟩
    · rw [h.page, hopen, joined_nil, List.nil_append, List.nil_append, joined_singleton]
    · simp only [List.length_append]
      omega
    · intro page hp
      rcases List.mem_cons.mp hp with rfl | hp
      · simp only [List.length_append]
        omega
      · exact h.fits page (List.mem_cons_of_mem _ hp)
    · dsimp only at hz
      omega
    · rw [← List.append_assoc, h.lines]

theorem Divides.addLine (h : Divides limit s done closed opened) (hlim : 0 < limit)
    (hne : line ≠ []) :
    ∃ closed opened, Divides limit (s.addLine limit line) (done ++ [line.take limit]) closed opened := by
  obtain ⟨c, o, hd, hf⟩ := h.flush (line.take limit)
  have htake : line.take limit ≠ [] := by
    rw [ne_eq, List.take_eq_nil_iff, not_or]
    exact ⟨by omega, hne⟩
  exact ⟨c, o ++ [line.take limit], hd.append htake (List.length_take_le _ _) hf⟩

theorem divides_foldl (hlim : 0 < limit) (lines : List (List Char)) (hne : ∀ line ∈ lines, line ≠ [])
    (h : Divides limit s done closed opened) :
    ∃ closed opened, Divides limit (lines.foldl (PageState.addLine limit) s)
      (done ++ lines.map (List.take limit)) closed opened := by
  induction lines generalizing s done closed opened with
  | nil => exact ⟨closed, opened, by simpa using h⟩
  | cons line lines ih =>
    obtain ⟨hl, hr⟩ := List.forall_mem_cons.mp hne
    obtain ⟨c, o, hd⟩ := h.addLine hlim hl
    obtain ⟨c', o', hd'⟩ := ih hr hd
    refine ⟨c', o', ?_⟩
    rw [List.map_cons, List.append_cons]
    exact hd'

/-- The pages at the end: groups of lines, none of them empty, that fit the limit. -/
theorem Divides.finish (h : Divides limit s done closed opened) :
    ∃ groups : List (List (List Char)), s.finish = groups.map joined ∧
      (∀ group ∈ groups, group ≠ []) ∧ groups.flatten = done ∧
      ∀ page ∈ s.finish, page.length ≤ limit := by
  unfold PageState.finish
  split
  · rename_i h0
    have hopen : opened ≠ [] := by
      rintro rfl
      have hlen := h.length
      rw [h.page] at hlen
      simp only [joined_nil, List.length_nil] at hlen
      omega
    refine ⟨closed ++ [opened], ?_, ?_, ?_, ?_⟩
    · rw [h.pages, h.page, List.map_append, List.map_singleton]
    · intro group hg
      rcases List.mem_append.mp hg with hg | hg
      · exact h.nonempty group hg
      · rwa [List.mem_singleton.mp hg]
    · rw [List.flatten_append, List.flatten_singleton, h.lines]
    · intro page hp
      rcases List.mem_append.mp hp with hp | hp
      · exact h.fits page (List.mem_cons_of_mem _ hp)
      · exact h.fits page (List.mem_singleton.mp hp ▸ List.mem_cons_self)
  · rename_i h0
    refine ⟨closed, h.pages, h.nonempty, ?_, fun page hp => h.fits page (List.mem_cons_of_mem _ hp)⟩
    rw [← h.lines, h.started (by omega), List.append_nil]

theorem allLines_ne_empty (numDays : NumDays) (markup : Markup) (now : DateTime) (g : DigestGroup) :
    ∀ line ∈ g.allLines numDays markup now, line.toList ≠ [] := by
  intro line hl
  rcases List.mem_cons.mp hl with rfl | hl
  · simp [DigestGroup.heading]
  · obtain ⟨p, -, rfl⟩ := List.mem_map.mp hl
    unfold PullRequestSummary.line
    split <;> simp

/-- The pages divide the lines, each cut to the limit, into groups that are not empty; every page
fits the limit and none is empty; the first opens with the heading, as far as it fits. -/
theorem pages_divide (numDays : NumDays) (markup : Markup) (now : DateTime) (g : DigestGroup)
    {limit : Nat} (h : 0 < limit) :
    (∃ groups : List (List (List Char)),
      (g.pages numDays markup now limit).map String.toList = groups.map joined ∧
      (∀ group ∈ groups, group ≠ []) ∧
      groups.flatten = (g.allLines numDays markup now).map fun line => line.toList.take limit) ∧
    (∀ page ∈ g.pages numDays markup now limit, page.length ≤ limit ∧ page ≠ "") ∧
    ∃ first rest, g.pages numDays markup now limit = first :: rest ∧
      (g.heading markup).toList.take limit <+: first.toList := by
  have hstart : Divides limit PageState.empty [] [] [] :=
    ⟨rfl, rfl, rfl, by simp [PageState.empty], fun _ => rfl, by simp, rfl⟩
  have hne : ∀ line ∈ (g.allLines numDays markup now).map String.toList, line ≠ [] :=
    List.forall_mem_map.mpr (allLines_ne_empty numDays markup now g)
  obtain ⟨c, o, hd⟩ := divides_foldl h _ hne hstart
  obtain ⟨groups, hg, hgne, hflat, hfit⟩ := hd.finish
  rw [List.nil_append, List.map_map] at hflat
  have hpages : (g.pages numDays markup now limit).map String.toList = groups.map joined := by
    rw [DigestGroup.pages, List.map_map, ← hg]
    exact (List.map_congr_left fun page _ => String.toList_ofList).trans (List.map_id _)
  -- Every group starts with a line that is not empty.
  have hfirst : ∀ group ∈ groups, joined group ≠ [] := by
    intro group hm
    cases hc : group with
    | nil => exact absurd hc (hgne group hm)
    | cons line rest =>
      intro hj
      have hp := prefix_joined line rest
      rw [hj, List.prefix_nil] at hp
      have hl : line ∈ groups.flatten := List.mem_flatten.mpr ⟨group, hm, hc ▸ List.mem_cons_self⟩
      rw [hflat] at hl
      obtain ⟨l, hl, he⟩ := List.mem_map.mp hl
      have he' : l.toList.take limit = [] := he.trans hp
      rw [List.take_eq_nil_iff] at he'
      rcases he' with he' | he'
      · omega
      · exact allLines_ne_empty numDays markup now g l hl he'
  refine ⟨⟨groups, hpages, hgne, hflat⟩, fun page hp => ⟨?_, ?_⟩, ?_⟩
  · rw [DigestGroup.pages] at hp
    obtain ⟨chars, hc, rfl⟩ := List.mem_map.mp hp
    rw [String.length_ofList]
    exact hfit chars hc
  · rintro rfl
    have hm := List.mem_map_of_mem (f := String.toList) hp
    rw [hpages] at hm
    obtain ⟨group, hgm, hj⟩ := List.mem_map.mp hm
    exact hfirst group hgm hj
  · cases hgr : groups with
    | nil =>
      rw [hgr] at hflat
      cases hflat
    | cons group groups' =>
      cases hgroup : group with
      | nil => exact absurd hgroup (hgne group (hgr ▸ List.mem_cons_self))
      | cons line lines =>
        rw [hgr, hgroup, List.flatten_cons, List.cons_append, DigestGroup.allLines,
          List.map_cons] at hflat
        cases hps : g.pages numDays markup now limit with
        | nil =>
          rw [hps, hgr] at hpages
          cases hpages
        | cons first rest =>
          rw [hps, hgr, hgroup, List.map_cons, List.map_cons] at hpages
          refine ⟨first, rest, rfl, ?_⟩
          rw [(List.cons.inj hpages).1]
          have hline : line = (g.heading markup).toList.take limit := (List.cons.inj hflat).1
          rw [← hline]
          exact prefix_joined line lines

/-- Text for channels with no mentions or links of their own; a break follows every `@`. -/
def plainText : Markup where
  mention developer := "@" ++ developer.login
  link text url := text ++ " (" ++ url ++ ")"
  text value := String.ofList (value.toList.flatMap fun c => if c = '@' then ['@', '\u200B'] else [c])

/-- A developer with one pull request. -/
def lone : DigestGroup where
  developer := Developer.new "amy"
  pullRequests := [⟨"https://github.com/org/repo/pull/1", "org/repo", 1, "Fix 1", none⟩]

/-- With a limit of ten the first page is ` @amy 1 Cla`, which the heading does not start. -/
theorem heading_cut :
    (lone.pages (fun _ _ => 0) plainText ⟨0, 0, by decide⟩ 10).head? = some "@amy 1 Cla" ∧
      ¬ (lone.heading plainText).toList <+: "@amy 1 Cla".toList := by
  constructor <;> decide +kernel

theorem pages_divide_lone :
    (∃ groups : List (List (List Char)),
      (lone.pages (fun _ _ => 0) plainText ⟨0, 0, by decide⟩ 10).map String.toList =
        groups.map joined ∧
      (∀ group ∈ groups, group ≠ []) ∧
      groups.flatten = (lone.allLines (fun _ _ => 0) plainText ⟨0, 0, by decide⟩).map
        fun line => line.toList.take 10) ∧
    (∀ page ∈ lone.pages (fun _ _ => 0) plainText ⟨0, 0, by decide⟩ 10,
      page.length ≤ 10 ∧ page ≠ "") ∧
    ∃ first rest, lone.pages (fun _ _ => 0) plainText ⟨0, 0, by decide⟩ 10 = first :: rest ∧
      (lone.heading plainText).toList.take 10 <+: first.toList :=
  pages_divide _ _ _ _ (by decide)

end Claudear.Distribution
