import Claudear.Engine.Rejoined

/-!
# A public reason made public again

A stored reason goes through `public_reason` once more when the reply is
rendered. When scrubbing changes nothing in it, neither does the rest: the
sentences are cut again at some of the joints and all kept. When scrubbing
changes something, a sentence loses a character and is dropped, and the reason
is another one (`publicReason_right_iff`).
-/

namespace Claudear.Engine

open Claudear.Core Claudear.Text

section
variable {l s x y : List Char} {g ss : List (List Char)} {raw : String} {outcome : SecurityOutcome}

theorem isUnsafe_eq_false : isUnsafe s = false ↔ ¬ REDACTED <:+: s ∧ linksOutsideAppwrite s = false := by
  rw [isUnsafe, Bool.or_eq_false_iff, decide_eq_false_iff_not]

/-! ## Groups of safe sentences -/

theorem not_marker_joined (h : ∀ s ∈ g, ¬ REDACTED <:+: s) : ¬ REDACTED <:+: joined ' ' g := by
  rintro ⟨pre, v, hpre⟩
  rw [List.append_assoc] at hpre
  rcases joined_cases redacted_ne_nil hpre.symm with ⟨s, hs, x, y, -, -, rfl, -⟩ | ⟨-, -, x, y, -, -, -, -, hM, -⟩
  · exact h _ hs ⟨x, y, by rw [List.append_assoc]⟩
  · have hspace : ' ' ∈ REDACTED := hM ▸ List.mem_append_right x List.mem_cons_self
    exact absurd hspace (by decide)

theorem words_append : words (x ++ ' ' :: y) = words x ++ words y := by
  rw [words, List.splitOnP_append_cons _ _ (by decide), List.filter_append, words, words]

theorem linksOutsideAppwrite_joined (h : ∀ s ∈ g, linksOutsideAppwrite s = false) :
    linksOutsideAppwrite (joined ' ' g) = false := by
  induction g with
  | nil => rfl
  | cons s g ih =>
    obtain ⟨hs, h⟩ := List.forall_mem_cons.mp h
    cases g with
    | nil => rwa [joined_singleton]
    | cons t g =>
      rw [joined_cons (List.cons_ne_nil _ _), linksOutsideAppwrite, words_append, List.any_append, Bool.or_eq_false_iff]
      exact ⟨hs, ih h⟩

theorem isUnsafe_joined (h : ∀ s ∈ g, isUnsafe s = false) : isUnsafe (joined ' ' g) = false :=
  isUnsafe_eq_false.mpr ⟨not_marker_joined fun s hs => (isUnsafe_eq_false.mp (h s hs)).1,
    linksOutsideAppwrite_joined fun s hs => (isUnsafe_eq_false.mp (h s hs)).2⟩

/-- Safe sentences that fit are all kept. -/
theorem taken_eq_self {kept : List Char} (h : ∀ s ∈ ss, isUnsafe s = false)
    (hlen : (ss.foldl push kept).length ≤ MAX_PUBLIC_REASON_CHARS) : taken kept ss = ss := by
  have hgrow : ∀ (ss : List (List Char)) (kept : List Char), kept.length ≤ (ss.foldl push kept).length := by
    intro ss
    induction ss with
    | nil => exact fun _ => Nat.le_refl _
    | cons s ss ih =>
      intro kept
      refine Nat.le_trans ?_ (ih (push kept s))
      rw [length_push]
      omega
  induction ss generalizing kept with
  | nil => rfl
  | cons s ss ih =>
    obtain ⟨hs, h⟩ := List.forall_mem_cons.mp h
    have hfits := Nat.le_trans (hgrow ss (push kept s)) hlen
    rw [taken, if_neg (by rw [hs]; exact Bool.false_ne_true), if_neg (Nat.not_lt.mpr hfits), ih h hlen]

/-! ## Dashes -/

theorem withoutDashes_eq_self (h : ∀ c ∈ l, isDash c = false) : withoutDashes l = l := by
  have hem : '—' ∉ l := fun hc => absurd (h _ hc) (by decide)
  have hen : '–' ∉ l := fun hc => absurd (h _ hc) (by decide)
  rw [withoutDashes, replaceText_eq_self (by decide) hem, replaceText_eq_self (by decide) hen,
    replaceChars_eq_self h]

theorem not_isDash_withoutDashes {c : Char} (hc : c ∈ withoutDashes l) : isDash c = false :=
  not_of_mem_replaceChars (forall_of_all (by decide)) hc

theorem not_isDash_kept {c : Char} (hc : c ∈ joined ' ' (keptSentences raw)) : isDash c = false := by
  rcases mem_joined hc with rfl | ⟨s, hs, hc⟩
  · decide
  · obtain ⟨a, b, hout, -, -⟩ := Breaks.exists_place_of_mem (taken_sublist.subset hs)
    refine not_isDash_withoutDashes (l := scrub raw.toList) ?_
    rw [hout]
    simp [hc]

/-! ## Scrubbing that changes nothing -/

theorem joint_space : breaks.Joint ' ' := ⟨by decide, by decide, by decide⟩

theorem length_joined_kept : (joined ' ' (keptSentences raw)).length ≤ MAX_PUBLIC_REASON_CHARS := by
  rw [← foldl_push_nil fun s hs => (sentence_of_mem_kept hs).nonempty]
  exact length_foldl_taken (Nat.zero_le _)

/-- The sentences that are kept again are the same, in groups. -/
theorem joined_kept_again (h : scrub (joined ' ' (keptSentences raw)) = joined ' ' (keptSentences raw)) :
    joined ' ' (keptSentences (String.ofList (joined ' ' (keptSentences raw)))) = joined ' ' (keptSentences raw) := by
  obtain ⟨gs, hflat, hgs, hcut⟩ :=
    Breaks.sentences_joined joint_space fun s (hs : s ∈ keptSentences raw) => sentence_of_mem_kept hs
  have hmem : ∀ g ∈ gs, ∀ s ∈ g, s ∈ keptSentences raw := fun g hg s hs => by
    rw [← hflat]
    exact List.mem_flatten_of_mem hg hs
  have hjoin : joined ' ' (gs.map (joined ' ')) = joined ' ' (keptSentences raw) := by
    rw [joined_flatten hgs, hflat]
  have hne : ∀ s ∈ gs.map (joined ' '), s ≠ [] := by
    intro s hs
    obtain ⟨g, hg, rfl⟩ := List.mem_map.mp hs
    exact joined_ne_nil ' ' (hgs g hg) fun s hs => (sentence_of_mem_kept (hmem g hg s hs)).nonempty
  have hsafe : ∀ s ∈ gs.map (joined ' '), isUnsafe s = false := by
    intro s hs
    obtain ⟨g, hg, rfl⟩ := List.mem_map.mp hs
    exact isUnsafe_joined fun s hs => isUnsafe_of_mem_taken (hmem g hg s hs)
  have htaken : taken [] (gs.map (joined ' ')) = gs.map (joined ' ') := by
    refine taken_eq_self hsafe ?_
    rw [foldl_push_nil hne, hjoin]
    exact length_joined_kept
  rw [keptSentences, String.toList_ofList, h, withoutDashes_eq_self fun c hc => not_isDash_kept hc, sentences, hcut,
    htaken, hjoin]

/-! ## Scrubbing that changes something -/

/-- The characters of the parts that have no marker, but for spaces. -/
def shown (ss : List (List Char)) : Nat := (ss.filter fun s => ¬ REDACTED <:+: s).flatten.countP fun c => c ≠ ' '

theorem shown_cons : shown (s :: ss) = (if REDACTED <:+: s then 0 else s.countP fun c => c ≠ ' ') + shown ss := by
  unfold shown
  by_cases h : REDACTED <:+: s
  · rw [if_pos h, List.filter_cons_of_neg (by simpa using h), Nat.zero_add]
  · rw [if_neg h, List.filter_cons_of_pos (by simpa using h), List.flatten_cons, List.countP_append]

/-- No part ends inside of a marker. -/
theorem segments_marker : breaks.segments (REDACTED ++ l) = (breaks.segments l).modifyHead fun t => REDACTED ++ t := by
  have hends : ∀ c ∈ REDACTED, ∀ y, breaks.ends c y = false := by
    intro c hc y
    have key : ∀ c ∈ REDACTED, breaks.newline c = false ∧ breaks.stop c = false := forall_of_all (by decide)
    rw [Breaks.ends, (key c hc).1, (key c hc).2]
    rfl
  rw [Breaks.segments_append redacted_ne_nil fun x c y hx _ => hends c (by rw [hx]; simp) y, if_neg]
  rw [hends _ (List.getLast_mem _)]
  exact Bool.false_ne_true

theorem shown_segments (ts : List Token) : shown (breaks.segments (plain REDACTED ts)) ≤ weight ts := by
  induction ts with
  | nil => exact Nat.le_refl _
  | cons t ts ih =>
    obtain ⟨s, ss, hs⟩ := breaks.exists_segments (plain REDACTED ts)
    rw [hs, shown_cons] at ih
    cases t with
    | none =>
      rw [plain_marker, segments_marker, hs, List.modifyHead_cons, shown_cons, if_pos (List.prefix_append _ s).isInfix,
        weight_marker]
      omega
    | some c =>
      have hweight : weight (some c :: ts) = weight ts + if c ≠ ' ' then 1 else 0 := by
        rw [weight_cons]
        simp
      rw [plain_char, Breaks.segments, hweight, hs]
      split
      · rw [shown_cons, shown_cons, List.countP_cons, List.countP_nil]
        simp only [decide_eq_true_eq]
        split <;> omega
      · rw [List.modifyHead_cons, shown_cons, List.countP_cons]
        simp only [decide_eq_true_eq]
        by_cases hmarked : REDACTED <:+: s
        · rw [if_pos hmarked] at ih
          rw [if_pos (hmarked.trans (List.suffix_cons c s).isInfix)]
          omega
        · rw [if_neg hmarked] at ih
          split <;> omega

/-- A marker is not in the white space around a sentence. -/
theorem infix_strip (h : REDACTED <:+: s) : REDACTED <:+: breaks.strip s := by
  obtain ⟨x, y, hs, hx, hy⟩ := breaks.exists_strip s
  have key : ∀ c ∈ REDACTED, isWhitespace c = false := forall_of_all (by decide)
  have hfront : ∀ x : List Char, (∀ c ∈ x, isWhitespace c = true) → ∀ z, REDACTED <:+: x ++ z → REDACTED <:+: z := by
    intro x
    induction x with
    | nil => exact fun _ z hz => hz
    | cons c x ih =>
      intro hx z hz
      obtain ⟨hc, hx⟩ := List.forall_mem_cons.mp hx
      rcases List.infix_cons_iff.mp hz with ⟨t, ht⟩ | hz
      · obtain rfl : '[' = c := (List.cons.inj ht).1
        exact absurd hc (by decide)
      · exact ih hx z hz
  have hback : ∀ y : List Char, (∀ c ∈ y, isWhitespace c = true) → ∀ z, REDACTED <:+: z ++ y → REDACTED <:+: z := by
    intro y
    induction y using List.reverseRecOn with
    | nil =>
      intro _ z hz
      rwa [List.append_nil] at hz
    | append_singleton y c ih =>
      intro hy z hz
      obtain ⟨hy, hc⟩ := List.forall_mem_append.mp hy
      rw [← List.append_assoc] at hz
      rcases List.infix_concat_iff.mp hz with ⟨t, ht⟩ | hz
      · have hlast := congrArg List.getLast? ht
        rw [List.getLast?_append_of_ne_nil _ redacted_ne_nil, List.getLast?_concat] at hlast
        obtain rfl : ']' = c := Option.some.inj hlast
        exact absurd (hc ']' (List.mem_singleton_self _)) (by decide)
      · exact ih hy z hz
  rw [hs] at h
  exact hback y hy _ (hfront x hx _ h)

theorem strip_sublist : (breaks.strip s).Sublist s := by
  obtain ⟨x, y, hs, -, -⟩ := breaks.exists_strip s
  nth_rewrite 2 [hs]
  exact ((List.prefix_append _ y).sublist).trans (List.suffix_append x _).sublist

/-- Sentences without a marker come from parts without one. -/
theorem countP_le_shown {segs : List (List Char)}
    (hss : ss.Sublist ((segs.map breaks.strip).filter fun s => !s.isEmpty)) (h : ∀ s ∈ ss, ¬ REDACTED <:+: s) :
    (ss.flatten.countP fun c => c ≠ ' ') ≤ shown segs := by
  induction segs generalizing ss with
  | nil =>
    rw [List.sublist_nil.mp hss]
    exact Nat.zero_le _
  | cons t segs ih =>
    rw [shown_cons]
    have hskip : ss.Sublist ((segs.map breaks.strip).filter fun s => !s.isEmpty) →
        (ss.flatten.countP fun c => c ≠ ' ') ≤ shown segs := fun hss => ih hss h
    rw [List.map_cons, List.filter_cons] at hss
    split at hss
    · cases hss with
      | cons _ hss => exact Nat.le_trans (hskip hss) (Nat.le_add_left _ _)
      | @cons_cons ss _ _ hss =>
        obtain ⟨ht, h⟩ := List.forall_mem_cons.mp h
        have hrest := ih hss h
        have hcount : ((breaks.strip t).countP fun c => c ≠ ' ') ≤ t.countP fun c => c ≠ ' ' :=
          strip_sublist.countP_le
        rw [if_neg fun hmarked => ht (infix_strip hmarked), List.flatten_cons, List.countP_append]
        omega
    · exact Nat.le_trans (hskip hss) (Nat.le_add_left _ _)

theorem countP_joined : ((joined ' ' ss).countP fun c => c ≠ ' ') = ss.flatten.countP fun c => c ≠ ' ' := by
  induction ss with
  | nil => rfl
  | cons s ss ih =>
    cases ss with
    | nil => simp
    | cons t ss =>
      have hflat : (s :: t :: ss).flatten = s ++ (t :: ss).flatten := rfl
      rw [joined_cons (List.cons_ne_nil _ _), List.countP_append, List.countP_cons, ih, hflat, List.countP_append]
      simp

/-- When scrubbing takes something from a text without dashes, its sentences do not make up the text. -/
theorem joined_kept_ne (hdash : ∀ c ∈ raw.toList, isDash c = false) (h : ¬ Clean raw.toList) :
    joined ' ' (keptSentences raw) ≠ raw.toList := by
  obtain ⟨ts, hts, hmem, hlt⟩ := exists_taken h
  have hplain : ∀ c ∈ plain REDACTED ts, isDash c = false := by
    intro c hc
    obtain ⟨t, ht, hc⟩ := List.mem_flatMap.mp hc
    cases t with
    | none =>
      have key : ∀ c ∈ REDACTED, isDash c = false := forall_of_all (by decide)
      exact key c hc
    | some d =>
      rw [List.mem_singleton.mp hc]
      exact hdash d (hmem d ht)
  have hsub : (keptSentences raw).Sublist (sentences (plain REDACTED ts)) := by
    rw [keptSentences, hts, withoutDashes_eq_self hplain]
    exact taken_sublist
  have hle := (countP_le_shown hsub fun s hs => (isUnsafe_eq_false.mp (isUnsafe_of_mem_taken hs)).1).trans
    (shown_segments ts)
  intro he
  rw [← countP_joined, he] at hle
  omega

/-! ## Fallbacks -/

theorem infix_of_marker {ts : List Token} (h : none ∈ ts) : REDACTED <:+: plain REDACTED ts := by
  obtain ⟨as, bs, rfl⟩ := List.append_of_mem h
  rw [plain_append, plain_marker]
  exact ⟨plain REDACTED as, plain REDACTED bs, by rw [List.append_assoc]⟩

theorem countP_plain {ts : List Token} (h : none ∉ ts) :
    ((plain REDACTED ts).countP fun c => c ≠ ' ') = weight ts := by
  induction ts with
  | nil => rfl
  | cons t ts ih =>
    cases t with
    | none => exact absurd List.mem_cons_self h
    | some c =>
      rw [plain_char, List.countP_cons, ih fun hm => h (List.mem_cons_of_mem _ hm), weight_cons]
      simp

theorem clean_of_scrub_eq_self (h : scrub l = l) (hm : ¬ REDACTED <:+: l) : Clean l := by
  by_contra hclean
  obtain ⟨ts, hts, -, hlt⟩ := exists_taken hclean
  rw [h] at hts
  subst hts
  have hnone : none ∉ ts := fun hmem => hm (infix_of_marker hmem)
  rw [countP_plain hnone] at hlt
  exact Nat.lt_irrefl _ hlt

set_option maxRecDepth 4000 in
/-- Scrubbing and cutting leave a fallback as it is. -/
theorem fallback_unchanged (outcome : SecurityOutcome) :
    scrub (fallbackReason outcome).toList = (fallbackReason outcome).toList ∧
      ¬ REDACTED <:+: (fallbackReason outcome).toList ∧
      joined ' ' (taken [] (sentences (withoutDashes (fallbackReason outcome).toList))) =
        (fallbackReason outcome).toList := by
  cases outcome with
  | notVulnerability =>
    rw [@toList_of_eq (fallbackReason .notVulnerability) _ rfl]
    exact ⟨by decide +kernel, by decide +kernel, by decide +kernel⟩
  | outOfScope =>
    rw [@toList_of_eq (fallbackReason .outOfScope) _ rfl]
    exact ⟨by decide +kernel, by decide +kernel, by decide +kernel⟩
  | _ => decide +kernel

theorem clean_fallback (outcome : SecurityOutcome) : Clean (fallbackReason outcome).toList :=
  clean_of_scrub_eq_self (fallback_unchanged outcome).1 (fallback_unchanged outcome).2.1

/-- A fallback is kept as it is. -/
theorem joined_kept_fallback (outcome : SecurityOutcome) :
    joined ' ' (keptSentences (fallbackReason outcome)) = (fallbackReason outcome).toList := by
  rw [keptSentences, (fallback_unchanged outcome).1]
  exact (fallback_unchanged outcome).2.2

/-! ## The second time -/

theorem rejoinable_nil : Rejoinable [] where
  paths _ hs := absurd hs List.not_mem_nil
  headers := by
    rintro ⟨as, bs, -, -, -, -, h, has, -⟩
    exact has (List.append_eq_nil_iff.mp h.symm).1
  names := by
    rintro ⟨as, bs, -, -, -, -, h, has, -⟩
    exact has (List.append_eq_nil_iff.mp h.symm).1

theorem publicReason_of_kept (h : joined ' ' (keptSentences raw) = raw.toList) (hne : raw.toList ≠ []) :
    publicReason raw outcome = raw := by
  rw [publicReason_eq, if_neg, h, String.ofList_toList]
  intro hnil
  rw [hnil] at h
  exact hne h.symm

theorem publicReason_fallback : publicReason (fallbackReason outcome) outcome = fallbackReason outcome := by
  rw [publicReason_eq, joined_kept_fallback, String.ofList_toList, ite_self]

theorem publicReason_again :
    publicReason (publicReason raw outcome) outcome = publicReason raw outcome ↔ Rejoinable (keptSentences raw) := by
  by_cases hkept : keptSentences raw = []
  · have hreason : publicReason raw outcome = fallbackReason outcome := by
      rw [publicReason_eq, if_pos hkept]
    rw [hreason, hkept]
    exact iff_of_true publicReason_fallback rejoinable_nil
  · have hlist : (publicReason raw outcome).toList = joined ' ' (keptSentences raw) := by
      rw [publicReason_eq, if_neg hkept, String.toList_ofList]
    have hreason : publicReason raw outcome = String.ofList (joined ' ' (keptSentences raw)) := by
      rw [publicReason_eq, if_neg hkept]
    constructor
    · intro hagain
      by_contra hre
      have hclean : ¬ Clean (publicReason raw outcome).toList := hlist ▸ not_clean_joined hre
      -- the second reason is the first: a fallback, or what is left of it
      have hcases := hagain
      rw [publicReason_eq] at hcases
      split at hcases
      · exact hclean (hcases ▸ clean_fallback outcome)
      · have hsame := congrArg String.toList hcases
        rw [String.toList_ofList] at hsame
        exact joined_kept_ne (fun c hc => not_isDash_kept (hlist ▸ hc)) hclean hsame
    · intro hre
      have hscrub := scrub_eq_self (clean_rejoined hre)
      apply publicReason_of_kept
      · rw [hreason, joined_kept_again hscrub, String.toList_ofList]
      · rw [hlist]
        exact joined_ne_nil ' ' hkept fun s hs => (sentence_of_mem_kept hs).nonempty

/-- A reason is safe, and the same when it is made public again. -/
def ReasonRight (raw : String) (outcome : SecurityOutcome) : Prop :=
  SafeReason raw outcome (publicReason raw outcome) ∧
    publicReason (publicReason raw outcome) outcome = publicReason raw outcome

/-- The condition is about the text that the second call is given: the sentences kept, joined by spaces,
hold nothing to redact. -/
theorem publicReason_right_iff (raw : String) (outcome : SecurityOutcome) :
    ReasonRight raw outcome ↔ Rejoinable (keptSentences raw) :=
  (and_iff_right (publicReason_safe raw outcome)).trans publicReason_again

end

/-- The newline in the name becomes a space, and the name is redacted the second time. -/
theorem name_rejoined :
    let reason := publicReason "help\nscout" .notVulnerability
    reason = "help scout" ∧ publicReason reason .notVulnerability = NOT_VULNERABILITY_FALLBACK ∧
      reason ≠ NOT_VULNERABILITY_FALLBACK := by
  decide +kernel

end Claudear.Engine
