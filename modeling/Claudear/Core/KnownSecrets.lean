import Claudear.Core.Redactor
import Claudear.Text.Chosen
import Mathlib.Logic.Relation

/-!
# Known secrets

No secret of a redactor is in its output. Of an occurrence of a secret in the text
something may be left where two occurrences overlap and neither is inside the other:
the first one is masked, and of the second only what is left of it stands there.
`secrets_absent_iff` says where every character inside of an occurrence is gone.
-/

namespace Claudear.Core

open Claudear.Text

variable {M d l r text output : List Char} {s : String} {given : List String} {i n fuel : Nat}
  {decode : List Char → Option (List Char)} {x y z : List (Option Nat × Char)}

/-! ## Rewriting with markers -/

/-- Some spans were swapped for the marker, and then some of the result, and so on. -/
abbrev Rewritten {α : Type} (M : List α) : List α → List α → Prop := Relation.ReflTransGen (Replaced (fun _ => True) M)

theorem Rewritten.stays (h : Rewritten M l r) (hd : Apart M d) (hl : ¬ d <:+: l) : ¬ d <:+: r := by
  induction h with
  | refl => exact hl
  | tail _ hstep ih => exact hstep.stays hd ih

/-- The tags follow the characters. -/
theorem lift_replaced {P : List Char → Prop} (h : Replaced P M (y.map Prod.snd) r) :
    ∃ z, z.map Prod.snd = r ∧ Replaced (fun _ => True) (untagged M) y z := by
  generalize hl : y.map Prod.snd = l at h
  induction h generalizing y with
  | nil =>
    rw [List.map_eq_nil_iff] at hl
    subst hl
    exact ⟨[], rfl, .nil⟩
  | keep _ ih =>
    obtain ⟨x, y, rfl, rfl, rfl⟩ := List.map_eq_cons_iff.mp hl
    obtain ⟨z, rfl, hz⟩ := ih rfl
    exact ⟨x :: z, rfl, hz.keep⟩
  | swap _ _ ih =>
    obtain ⟨u, v, rfl, rfl, rfl⟩ := List.map_eq_append_iff.mp hl
    obtain ⟨z, rfl, hz⟩ := ih rfl
    exact ⟨untagged M ++ z, by rw [List.map_append, untagged_snd], .swap trivial hz⟩

theorem lift_rewritten (h : Rewritten M (y.map Prod.snd) r) : ∃ z, z.map Prod.snd = r ∧ Rewritten (untagged M) y z := by
  induction h with
  | refl => exact ⟨y, rfl, .refl⟩
  | tail _ hstep ih =>
    obtain ⟨z, rfl, hz⟩ := ih
    obtain ⟨w, rfl, hw⟩ := lift_replaced hstep
    exact ⟨w, rfl, hz.tail hw⟩

/-- A character is left or is one of a marker. -/
theorem mem_of_replaced {P : List (Option Nat × Char) → Prop} (h : Replaced P (untagged M) y z)
    {t : Option Nat × Char} (ht : t ∈ z) : t ∈ y ∨ t ∈ untagged M := by
  induction h with
  | nil => cases ht
  | keep _ ih =>
    rcases List.mem_cons.mp ht with rfl | ht
    · exact .inl List.mem_cons_self
    · exact (ih ht).imp_left (List.mem_cons_of_mem _)
  | swap _ _ ih =>
    rcases List.mem_append.mp ht with ht | ht
    · exact .inr ht
    · exact (ih ht).imp_left (List.mem_append_right _)

theorem mem_of_rewritten (h : Rewritten (untagged M) y z) {t : Option Nat × Char} (ht : t ∈ z) :
    t ∈ y ∨ t ∈ untagged M := by
  induction h with
  | refl => exact .inl ht
  | tail _ hstep ih => exact (mem_of_replaced hstep ht).elim ih .inr

theorem left_of_rewritten (h : Rewritten (untagged M) y z) (hi : Left z i) : Left y i := by
  obtain ⟨c, hc⟩ := hi
  refine ⟨c, (mem_of_rewritten h hc).resolve_right fun hm => ?_⟩
  exact not_left_untagged ⟨c, hm⟩

/-- The text was rewritten to the output so that no character at these places is left. -/
def AbsentFrom (text output : List Char) (gone : Nat → Prop) : Prop :=
  ∃ z, z.map Prod.snd = output ∧ Rewritten (untagged REDACTED) (tagFrom 0 text) z ∧ ∀ i, gone i → ¬ Left z i

/-! ## The passes -/

theorem redactMatches_replaced (text : List Char) (pattern : Grouped Group) (f : Captures Group → List Char → Bool) :
    Replaced (fun _ => True) REDACTED text (redactMatches text pattern f) := by
  refine Grouped.replaced_replaceAll (fun m _ => ?_) text
  split
  · exact Grouped.replaced_swapping fun _ _ _ => trivial
  · exact .refl

theorem redactCredentialHeaders_replaced (text : List Char) :
    Replaced (fun _ => True) REDACTED text (redactCredentialHeaders text) := by
  have key (cursor : Nat) (headers : List (Nat × Captures Group)) :
      Replaced (fun _ => True) REDACTED (text.drop cursor) (headersFrom text cursor headers) := by
    induction headers generalizing cursor with
    | nil => exact .refl
    | cons header rest ih =>
      rw [headersFrom]
      split
      · exact ih cursor
      · rename_i hpos
        dsimp only
        split
        · exact ih cursor
        · -- the text up to the value, the value, and what is behind it
          generalize hstop : header.1 + header.2.whole.length = stop
          generalize List.length _ = length
          have hle : cursor ≤ stop := by omega
          have hsplit : text.drop cursor =
              (text.drop cursor).take (stop - cursor) ++ ((text.drop stop).take length ++ text.drop (stop + length)) := by
            rw [← List.drop_drop, List.take_append_drop, ← Nat.add_sub_cancel' hle, ← List.drop_drop,
              Nat.add_sub_cancel_left, List.take_append_drop]
          conv => lhs; rw [hsplit]
          exact Replaced.append .refl (.swap trivial (ih _))
  exact key 0 _

theorem redactShapes_rewritten (decode : List Char → Option (List Char)) (text : List Char) :
    Rewritten REDACTED text (Redactor.redactShapes decode text) := by
  have hpem (l : List Char) : Replaced (fun _ => True) REDACTED l (PEM_BLOCK.replaceAll (fun _ => REDACTED) l) := by
    refine Grouped.replaced_replaceAll (fun m _ => ?_) l
    have hswap : Replaced (fun _ => True) REDACTED (m.whole ++ []) (REDACTED ++ []) := .swap trivial .nil
    rwa [List.append_nil, List.append_nil] at hswap
  unfold Redactor.redactShapes
  iterate 10 refine .tail ?_ (redactMatches_replaced ..)
  exact .tail (.single (hpem text)) (redactCredentialHeaders_replaced _)

theorem Rounds.rewritten {p : List Char} (h : Rounds p l r) : Rewritten REDACTED l r := by
  induction h with
  | done => exact .refl
  | @round a t b r _ _ ih =>
    refine .head ?_ ih
    refine Replaced.append .refl ?_
    rw [← List.append_assoc]
    exact .swap trivial .refl

theorem redactSecrets_rewritten (h : redactSecrets fuel l = some r) : Rewritten REDACTED l r := by
  unfold redactSecrets at h
  generalize SECRET_PATTERNS = ps at h
  induction ps generalizing l with
  | nil =>
    cases h
    exact .refl
  | cons p ps ih =>
    rw [List.foldlM_cons] at h
    obtain ⟨m, hm, h⟩ := Option.bind_eq_some_iff.mp h
    exact (rounds_of_redactPattern hm).rewritten.trans (ih h)

/-! ## The secrets of a redactor -/

/-- Without brackets, and no part of the marker. -/
structure Maskable (s : String) : Prop where
  noOpen : '[' ∉ s.toList
  noClose : ']' ∉ s.toList
  noPart : ¬ s.toList <:+: REDACTED

theorem Maskable.apart (h : Maskable s) (hne : s.toList ≠ []) : Apart REDACTED s.toList where
  behind t ht := by
    rw [List.mem_tails] at ht
    rcases List.eq_nil_or_concat t with rfl | ⟨u, c, rfl⟩
    · exact .inl rfl
    · refine .inr ⟨fun hp => ?_, fun hp => h.noPart (hp.isInfix.trans ht.isInfix)⟩
      obtain ⟨v, hv⟩ := ht
      have hlast : c = ']' := by
        rw [List.concat_eq_append, ← List.append_assoc] at hv
        have hmark : REDACTED = "[REDACTED".toList ++ [']'] := by decide
        exact (List.append_singleton_inj.mp (hv.trans hmark)).2
      exact h.noClose (hp.subset (by simp [hlast]))
  before t ht := by
    rw [List.mem_tails] at ht
    cases t with
    | nil => exact .inl rfl
    | cons c t =>
      refine .inr ⟨fun hp => ?_, fun hp => h.noOpen (ht.subset (hp.subset (by decide)))⟩
      have hfirst : c = '[' := (List.cons_prefix_cons.mp hp).1
      exact h.noOpen (hfirst ▸ ht.subset List.mem_cons_self)
  ne_nil := hne

theorem mem_dedup {l : List String} : s ∈ Redactor.dedup l ↔ s ∈ l := by
  fun_induction Redactor.dedup l with
  | case1 b l ih =>
    rw [ih, List.mem_cons, List.mem_cons, List.mem_cons]
    tauto
  | case2 a b l hne ih => rw [List.mem_cons, ih, ← List.mem_cons]
  | case3 => rfl

/-- The secrets that are masked, trimmed. -/
theorem mem_secrets_new : s ∈ (Redactor.new given).secrets ↔ s ∈ given.map trim ∧ MINIMUM_SECRET_LENGTH ≤ s.length := by
  unfold Redactor.new Redactor.withSecrets
  rw [mem_dedup, List.mem_mergeSort, List.nil_append, List.mem_filter, decide_eq_true_eq]

/-- The secrets as they are searched for. -/
def Redactor.words (r : Redactor) : List (List Char) := r.secrets.map String.toList

theorem apart_words (h : ∀ g ∈ given, Maskable (trim g)) : ∀ d ∈ (Redactor.new given).words, Apart REDACTED d := by
  intro d hd
  obtain ⟨s, hs, rfl⟩ := List.mem_map.mp hd
  obtain ⟨hgiven, hlen⟩ := mem_secrets_new.mp hs
  obtain ⟨g, hg, rfl⟩ := List.mem_map.mp hgiven
  refine (h g hg).apart fun hnil => ?_
  rw [← String.length_toList, hnil] at hlen
  exact absurd hlen (by decide)

/-! ## What is left of the secrets -/

/-- The text after the known secrets are masked, with the places its characters come from. -/
def Redactor.knownTagged (r : Redactor) (text : List Char) : List (Option Nat × Char) :=
  replaceEachTagged r.words REDACTED (tagFrom 0 text)

theorem redactKnown_eq (r : Redactor) (text : List Char) :
    r.redactKnown text = r.words.foldl (fun text d => replaceText d REDACTED text) text := by
  unfold Redactor.redactKnown Redactor.words
  rw [List.foldl_map]
  congr
  funext text s
  split
  · rfl
  · rename_i hn
    exact (replaceText_of_not_isInfix hn).symm

theorem knownTagged_snd (r : Redactor) (text : List Char) : (r.knownTagged text).map Prod.snd = r.redactKnown text := by
  rw [redactKnown_eq, Redactor.knownTagged, replaceEachTagged]
  have key (ds : List (List Char)) (y : List (Option Nat × Char)) :
      (ds.foldl (fun y d => replaceTagged d REDACTED y) y).map Prod.snd =
        ds.foldl (fun text d => replaceText d REDACTED text) (y.map Prod.snd) := by
    induction ds generalizing y with
    | nil => rfl
    | cons d ds ih => rw [List.foldl_cons, List.foldl_cons, ih, replaceTagged_snd]
  rw [key, tagFrom_snd]

/-- No secret is left in the text. -/
theorem not_isInfix_redactKnown {r : Redactor} (h : ∀ d ∈ r.words, Apart REDACTED d) (text : List Char) :
    ∀ d ∈ r.words, ¬ d <:+: r.redactKnown text := by
  rw [redactKnown_eq]
  generalize r.words = ds at h
  induction ds generalizing text with
  | nil => simp
  | cons e ds ih =>
    obtain ⟨he, hds⟩ := List.forall_mem_cons.mp h
    rw [List.foldl_cons]
    refine List.forall_mem_cons.mpr ⟨?_, ih _ hds⟩
    -- masking the later secrets brings none of the earlier ones back
    have hstays : ∀ (ds : List (List Char)) (l : List Char), (∀ d ∈ ds, Apart REDACTED d) → ¬ e <:+: l →
        ¬ e <:+: ds.foldl (fun text d => replaceText d REDACTED text) l := by
      intro ds
      induction ds with
      | nil => exact fun _ _ hl => hl
      | cons d ds ih =>
        intro l hds hl
        obtain ⟨hd, hds⟩ := List.forall_mem_cons.mp hds
        exact ih _ hds ((replaced_replaceText hd.ne_nil).stays he hl)
    exact hstays ds _ hds (not_isInfix_replaceText he)

theorem redact_ends (r : Redactor) (decode : List Char → Option (List Char)) (text : List Char) :
    ∃ output, (∃ n, ∀ fuel, n < fuel → r.redact decode fuel text = some output) ∧
      Rewritten REDACTED (r.redactKnown text) output := by
  obtain ⟨output, n, hn⟩ := patterns_end (fun _ hp => hp) (Redactor.redactShapes decode (r.redactKnown text))
  refine ⟨output, ⟨n, hn⟩, (redactShapes_rewritten decode _).trans ?_⟩
  exact redactSecrets_rewritten (hn (n + 1) (Nat.lt_succ_self n))

/-- The output has none of the secrets in it. After the known secrets are masked, every character
inside of an occurrence is gone exactly if the chosen occurrences cover it, and then it is absent
from the output. -/
theorem secrets_absent_iff (decode : List Char → Option (List Char)) (h : ∀ g ∈ given, Maskable (trim g))
    (text : List Char) :
    ∃ P, Chosen (Redactor.new given).words text P ∧
      ((∀ i, Covered (Redactor.new given).words text i → ¬ Left ((Redactor.new given).knownTagged text) i) ↔
        ∀ i, Covered (Redactor.new given).words text i → ∃ q d, P q d ∧ Within d q i) ∧
      ∃ output, (∃ n, ∀ fuel, n < fuel → (Redactor.new given).redact decode fuel text = some output) ∧
        (∀ g ∈ given, MINIMUM_SECRET_LENGTH ≤ (trim g).length → ¬ (trim g).toList <:+: output) ∧
        ((∀ i, Covered (Redactor.new given).words text i → ∃ q d, P q d ∧ Within d q i) →
          AbsentFrom text output (Covered (Redactor.new given).words text)) := by
  have hds := apart_words h
  obtain ⟨P, hP, hswept, -⟩ := each_chosen hds text
  obtain ⟨output, hends, hrewritten⟩ := redact_ends (Redactor.new given) decode text
  refine ⟨P, hP, forall₂_congr fun i hi => gone_iff hds hP hi, output, hends, ?_, ?_⟩
  · intro g hg hlen
    have hmem : (trim g).toList ∈ (Redactor.new given).words :=
      List.mem_map_of_mem (mem_secrets_new.mpr ⟨List.mem_map_of_mem hg, hlen⟩)
    exact hrewritten.stays (hds _ hmem) (not_isInfix_redactKnown hds text _ hmem)
  · intro hcovers
    rw [← knownTagged_snd] at hrewritten
    obtain ⟨z, hz, hrest⟩ := lift_rewritten hrewritten
    refine ⟨z, hz, .head hswept.replaced hrest, fun i hi hleft => ?_⟩
    exact (gone_iff hds hP hi).mpr (hcovers i hi) (left_of_rewritten hrest hleft)

/-! ## Two secrets that overlap -/

def twoSecrets : List String := ["abcdefgh", "efghijkl"]

theorem trim_of_plain (h : s.toList.all (fun c => !isWhitespace c) = true) : trim s = s := by
  have hnot : ∀ c ∈ s.toList, isWhitespace c = false := fun c hc => by simpa using List.all_eq_true.mp h c hc
  refine trim_of_trimmed ⟨fun c hc => ?_, fun c hc => ?_⟩
  · exact hnot c (List.mem_of_head? hc)
  · exact hnot c (List.mem_of_getLast? hc)

theorem trim_twoSecrets : twoSecrets.map trim = twoSecrets := by
  unfold twoSecrets
  rw [List.map_cons, List.map_cons, trim_of_plain (by decide), trim_of_plain (by decide)]
  rfl

theorem maskable_twoSecrets : ∀ g ∈ twoSecrets, Maskable (trim g) := by
  intro g hg
  have hmem : trim g ∈ twoSecrets := trim_twoSecrets ▸ List.mem_map_of_mem hg
  have hall : ∀ s ∈ twoSecrets, '[' ∉ s.toList ∧ ']' ∉ s.toList ∧ ¬ s.toList <:+: REDACTED := by decide
  obtain ⟨hopen, hclose, hpart⟩ := hall _ hmem
  exact ⟨hopen, hclose, hpart⟩

theorem new_twoSecrets : Redactor.new twoSecrets = ⟨twoSecrets⟩ := by
  unfold Redactor.new Redactor.withSecrets
  rw [trim_twoSecrets, List.nil_append, List.mergeSort_of_pairwise]
  · exact congrArg Redactor.mk (by decide)
  · decide

theorem secrets_absent_two :
    ∃ P, Chosen (Redactor.new twoSecrets).words "abcdefgh".toList P ∧
      ((∀ i, Covered (Redactor.new twoSecrets).words "abcdefgh".toList i →
        ¬ Left ((Redactor.new twoSecrets).knownTagged "abcdefgh".toList) i) ↔
        ∀ i, Covered (Redactor.new twoSecrets).words "abcdefgh".toList i → ∃ q d, P q d ∧ Within d q i) ∧
      ∃ output, (∃ n, ∀ fuel, n < fuel →
          (Redactor.new twoSecrets).redact (fun _ => none) fuel "abcdefgh".toList = some output) ∧
        (∀ g ∈ twoSecrets, MINIMUM_SECRET_LENGTH ≤ (trim g).length → ¬ (trim g).toList <:+: output) ∧
        ((∀ i, Covered (Redactor.new twoSecrets).words "abcdefgh".toList i → ∃ q d, P q d ∧ Within d q i) →
          AbsentFrom "abcdefgh".toList output (Covered (Redactor.new twoSecrets).words "abcdefgh".toList)) :=
  secrets_absent_iff (fun _ => none) maskable_twoSecrets "abcdefgh".toList

/-- Of the second secret, `ijkl` is left. -/
theorem overlapping_secret_left :
    (Redactor.new twoSecrets).redact (fun _ => none) 1 "abcdefghijkl".toList = some "[REDACTED]ijkl".toList ∧
      ¬ AbsentFrom "abcdefghijkl".toList "[REDACTED]ijkl".toList
        (Covered (Redactor.new twoSecrets).words "abcdefghijkl".toList) := by
  rw [new_twoSecrets]
  refine ⟨by decide +kernel, ?_⟩
  rintro ⟨z, hz, hrewritten, habsent⟩
  -- the last character comes from the text
  have hlast : 'l' ∈ z.map Prod.snd := by
    rw [hz]
    decide
  obtain ⟨⟨tag, c⟩, hc, rfl⟩ := List.mem_map.mp hlast
  rcases mem_of_rewritten hrewritten hc with hmem | hmem
  · have htag : tag = some 11 := by
      revert hmem
      simp [tagFrom]
    subst htag
    refine habsent 11 ⟨"efghijkl".toList, by decide, 4, by decide, by decide, by decide⟩ ⟨_, hc⟩
  · obtain ⟨d, hd, he⟩ := List.mem_map.mp hmem
    cases he
    exact absurd hd (by decide)

end Claudear.Core
