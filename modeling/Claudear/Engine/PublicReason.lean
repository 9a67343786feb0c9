import Claudear.Core.Security
import Claudear.Engine.Scrub
import Claudear.Text.Lowercase
import Claudear.Text.Replaced
import Claudear.Text.Sentences
import Mathlib.Data.List.Infix

/-!
# Public reasons

`public_reason` scrubs a text, keeps the sentences that lost nothing and link
nowhere but to appwrite.io, up to 600 characters, and has a fixed text when none
is left. What it returns is always such a text (`publicReason_safe`).
-/

namespace Claudear.Engine

open Claudear.Core Claudear.Text

def MAX_PUBLIC_REASON_CHARS : Nat := 600

def PUBLIC_URL_PREFIX : List Char := "https://appwrite.io/".toList

def URL_MARKERS : List (List Char) := ["http://".toList, "https://".toList, "www.".toList]

def NOT_VULNERABILITY_FALLBACK : String :=
  "Based on our review, the behaviour you described works as intended and does not give access beyond what is already permitted."

def OUT_OF_SCOPE_FALLBACK : String := "It matches one of the categories our program lists as out of scope."

def fallbackReason : SecurityOutcome → String
  | .notVulnerability => NOT_VULNERABILITY_FALLBACK
  | .outOfScope => OUT_OF_SCOPE_FALLBACK
  | _ => ""

/-- An em or an en dash. -/
def isDash (c : Char) : Bool := c = '—' || c = '–'

def withoutDashes (text : List Char) : List Char :=
  replaceChars isDash ", ".toList
    (replaceText " – ".toList ", ".toList (replaceText " — ".toList ", ".toList text))

def breaks : Breaks Char where
  blank := isWhitespace
  newline c := c = '\n'
  stop c := c = '.' || c = '!' || c = '?'
  blank_of_newline c h := by
    rw [of_decide_eq_true h]
    decide

def sentences (text : List Char) : List (List Char) := breaks.sentences text

/-- `str::split_whitespace` -/
def words (s : List Char) : List (List Char) := (s.splitOnP isWhitespace).filter fun w => !w.isEmpty

def linksOutsideAppwrite (sentence : List Char) : Bool :=
  (words sentence).any fun word =>
    let word := word.dropWhile (inSet "(<\"'")
    URL_MARKERS.any (fun marker => marker <:+: word) && !decide (PUBLIC_URL_PREFIX <+: word)

/-- A sentence that is passed over. -/
def isUnsafe (sentence : List Char) : Bool := REDACTED <:+: sentence || linksOutsideAppwrite sentence

/-- The sentence behind what is kept, after a space. -/
def push (kept sentence : List Char) : List Char := (if kept = [] then kept else kept ++ [' ']) ++ sentence

def keepSentences : List Char → List (List Char) → List Char
  | kept, [] => kept
  | kept, sentence :: rest =>
    if isUnsafe sentence then keepSentences kept rest
    else if MAX_PUBLIC_REASON_CHARS < kept.length + (if kept = [] then 0 else 1) + sentence.length then kept
    else keepSentences (push kept sentence) rest

def publicReason (raw : String) (outcome : SecurityOutcome) : String :=
  let scrubbed := withoutDashes (scrub raw.toList)
  let kept := keepSentences [] (sentences scrubbed)
  if kept = [] then fallbackReason outcome else String.ofList kept

/-! ## What is kept -/

/-- The sentences that `keepSentences` takes when it has `kept`. -/
def taken : List Char → List (List Char) → List (List Char)
  | _, [] => []
  | kept, sentence :: rest =>
    if isUnsafe sentence then taken kept rest
    else if MAX_PUBLIC_REASON_CHARS < (push kept sentence).length then []
    else sentence :: taken (push kept sentence) rest

/-- The sentences that make up the reason. -/
def keptSentences (raw : String) : List (List Char) := taken [] (sentences (withoutDashes (scrub raw.toList)))

section
variable {kept s : List Char} {ss : List (List Char)} {raw : String} {outcome : SecurityOutcome}

theorem length_push : (push kept s).length = kept.length + (if kept = [] then 0 else 1) + s.length := by
  rw [push, List.length_append]
  split
  · rfl
  · rw [List.length_append]
    rfl

theorem push_ne_nil (hs : s ≠ []) : push kept s ≠ [] := List.append_ne_nil_of_right_ne_nil _ hs

theorem keepSentences_eq : keepSentences kept ss = (taken kept ss).foldl push kept := by
  induction ss generalizing kept with
  | nil => rfl
  | cons s ss ih =>
    rw [keepSentences, taken, ← length_push]
    by_cases hs : isUnsafe s = true
    · rw [if_pos hs, if_pos hs, ih]
    · rw [if_neg hs, if_neg hs]
      split
      · rfl
      · exact ih

theorem foldl_push (hkept : kept ≠ []) (h : ∀ s ∈ ss, s ≠ []) : ss.foldl push kept = joined ' ' (kept :: ss) := by
  induction ss generalizing kept with
  | nil => rw [joined_singleton, List.foldl_nil]
  | cons s ss ih =>
    obtain ⟨hs, h⟩ := List.forall_mem_cons.mp h
    rw [List.foldl_cons, ih (push_ne_nil hs) h, joined_cons (List.cons_ne_nil s ss), push, if_neg hkept]
    cases ss with
    | nil => simp
    | cons t ss =>
      rw [joined_cons (List.cons_ne_nil t ss), joined_cons (List.cons_ne_nil t ss)]
      simp

theorem foldl_push_nil (h : ∀ s ∈ ss, s ≠ []) : ss.foldl push [] = joined ' ' ss := by
  cases ss with
  | nil => rfl
  | cons s ss =>
    obtain ⟨hs, h⟩ := List.forall_mem_cons.mp h
    exact foldl_push hs h

theorem taken_sublist : (taken kept ss).Sublist ss := by
  induction ss generalizing kept with
  | nil => exact List.Sublist.refl _
  | cons s ss ih =>
    rw [taken]
    split
    · exact ih.cons s
    · split
      · exact List.nil_sublist _
      · exact ih.cons_cons s

theorem isUnsafe_of_mem_taken (hs : s ∈ taken kept ss) : isUnsafe s = false := by
  induction ss generalizing kept with
  | nil => cases hs
  | cons t ss ih =>
    rw [taken] at hs
    split at hs
    · exact ih hs
    · rename_i ht
      split at hs
      · cases hs
      · rcases List.mem_cons.mp hs with rfl | hs
        · exact Bool.eq_false_iff.mpr ht
        · exact ih hs

theorem length_foldl_taken (h : kept.length ≤ MAX_PUBLIC_REASON_CHARS) :
    ((taken kept ss).foldl push kept).length ≤ MAX_PUBLIC_REASON_CHARS := by
  induction ss generalizing kept with
  | nil => exact h
  | cons s ss ih =>
    rw [taken]
    split
    · exact ih h
    · split
      · exact h
      · exact ih (by omega)

theorem sentence_of_mem_kept (hs : s ∈ keptSentences raw) : breaks.Sentence s :=
  Breaks.sentence_of_mem (taken_sublist.subset hs)

theorem keepSentences_kept :
    keepSentences [] (sentences (withoutDashes (scrub raw.toList))) = joined ' ' (keptSentences raw) := by
  rw [keepSentences_eq]
  exact foldl_push_nil fun s hs => (sentence_of_mem_kept hs).nonempty

theorem publicReason_eq : publicReason raw outcome =
    if keptSentences raw = [] then fallbackReason outcome else String.ofList (joined ' ' (keptSentences raw)) := by
  rw [publicReason]
  simp only [keepSentences_kept]
  by_cases h : keptSentences raw = []
  · rw [h]
    rfl
  · rw [if_neg h, if_neg (joined_ne_nil ' ' h fun s hs => (sentence_of_mem_kept hs).nonempty)]

/-- Whole sentences of the scrubbed text in their order, of which none lost anything or links
elsewhere, or the fallback. -/
def SafeReason (raw : String) (outcome : SecurityOutcome) (reason : String) : Prop :=
  reason.length ≤ MAX_PUBLIC_REASON_CHARS ∧
    ((∃ ss : List (List Char), ss.Sublist (sentences (withoutDashes (scrub raw.toList))) ∧
        (∀ s ∈ ss, ¬ REDACTED <:+: s ∧ linksOutsideAppwrite s = false) ∧
        ss ≠ [] ∧ reason = String.ofList (joined ' ' ss)) ∨
      reason = fallbackReason outcome)

/-- The characters of a literal, not computed from its bytes. -/
theorem toList_of_eq {s : String} {l : List Char} (h : s = String.ofList l) : s.toList = l := by
  rw [h, String.toList_ofList]

set_option maxRecDepth 4000 in
theorem length_fallbackReason (outcome : SecurityOutcome) :
    (fallbackReason outcome).length ≤ MAX_PUBLIC_REASON_CHARS := by
  rw [← String.length_toList]
  cases outcome with
  | notVulnerability =>
    rw [@toList_of_eq (fallbackReason .notVulnerability) _ rfl]
    decide +kernel
  | outOfScope =>
    rw [@toList_of_eq (fallbackReason .outOfScope) _ rfl]
    decide +kernel
  | _ => decide

theorem publicReason_safe (raw : String) (outcome : SecurityOutcome) :
    SafeReason raw outcome (publicReason raw outcome) := by
  rw [publicReason_eq]
  split
  · exact ⟨length_fallbackReason outcome, .inr rfl⟩
  · rename_i hne
    refine ⟨?_, .inl ⟨keptSentences raw, taken_sublist, fun s hs => ?_, hne, rfl⟩⟩
    · rw [String.length_ofList, ← foldl_push_nil fun s hs => (sentence_of_mem_kept hs).nonempty]
      exact length_foldl_taken (Nat.zero_le _)
    · have hs := isUnsafe_of_mem_taken hs
      rw [isUnsafe, Bool.or_eq_false_iff, decide_eq_false_iff_not] at hs
      exact hs

end

end Claudear.Engine
