import Claudear.Engine.ScrubRules

/-!
# What scrubbing leaves

The rules of the passes hold together: after each pass, what the passes so far
look for begins only directly behind a marker (`scrub_leftover`). A match there
was bared by the marker, which ends a word or a path that went on. When no
redaction bares one, nothing is left (`scrub_complete`).
-/

namespace Claudear.Engine

open Claudear.Machine Claudear.Text Claudear.Text.Pat

/-- A pass with what is known of it. -/
structure Ruled where
  pass : Pass
  gone : Bool
  starts : Option Char → List Char → Prop
  rule : Rule pass gone starts

/-- A pass that looks for words. -/
def Ruled.word (body : Pat) {s : Pat} (hbody : body = seq boundary s) (h : wordPattern s = true) : Ruled :=
  ⟨{ body, nonempty := nullable_of_apart (hbody ▸ apart_boundary h) }, false, body.StartsAt,
    rule_word rfl (fun _ => rfl) hbody h⟩

theorem nonempty_pemOpen : pemOpen.nullable = false := rfl

theorem nonempty_helpscoutUrl : helpscoutUrl.nullable = false := rfl

theorem nonempty_loopback6 : loopback6.nullable = false := rfl

theorem nonempty_windowsPath : windowsPath.nullable = false := rfl

/-- The passes but the first, which finds what the second finds. -/
def ruled : List Ruled :=
  [⟨{ body := pemOpen, nonempty := nonempty_pemOpen }, _, _, rule_pemOpen⟩,
    .word githubToken rfl (by decide),
    .word skToken rfl (by decide),
    .word slackToken rfl (by decide),
    .word awsKey rfl (by decide),
    .word jwt rfl (by decide),
    .word email rfl (by decide),
    ⟨{ body := helpscoutUrl, nonempty := nonempty_helpscoutUrl }, _, _, rule_helpscoutUrl⟩,
    .word helpscout rfl (by decide),
    .word ticket rfl (by decide),
    .word privateRepo rfl (by decide),
    .word localhost rfl (by decide),
    .word internalHost rfl (by decide),
    .word internalAddress rfl (by decide),
    ⟨{ body := loopback6, nonempty := nonempty_loopback6 }, _, _, rule_loopback6⟩,
    .word linkLocal6 rfl (by decide),
    ⟨{ body := windowsPath, nonempty := nonempty_windowsPath }, _, _, rule_windowsPath⟩,
    .word longHex rfl (by decide),
    ⟨_, _, _, rule_path⟩,
    ⟨_, _, _, rule_encodedRun⟩]

theorem passes_eq : passes = { body := pemBlock } :: ruled.map Ruled.pass := rfl

/-- No pass finds anything to redact. -/
def Clean (text : List Char) : Prop := ∀ p ∈ passes, ¬ p.Finds none text

/-- When a pass redacts, what it keeps directly behind the marker does not begin with something that
the pass, or one `before` it, would redact there. -/
def BaresNothing : List Pass → List Char → List Pass → Prop
  | _, _, [] => True
  | before, text, p :: ps =>
    (∀ r ∈ p.resumed text, ∀ q ∈ p :: before, ¬ q.FindsBehind REDACTED r) ∧
      BaresNothing (p :: before) (scrubPass text p) ps

instance BaresNothing.decidable : ∀ before text ps, Decidable (BaresNothing before text ps)
  | _, _, [] => .isTrue trivial
  | before, text, p :: ps =>
    have := BaresNothing.decidable (p :: before) (scrubPass text p) ps
    inferInstanceAs (Decidable ((∀ r ∈ p.resumed text, ∀ q ∈ p :: before, ¬ q.FindsBehind REDACTED r) ∧ _))

/-! ## One pass -/

/-- What a pass keeps when `K` is about what follows its redactions. -/
def Ruled.Kept (R : Ruled) (K : List Char → Prop) (after : Bool) (b : Option Char) (l : List Char) : Prop :=
  ((R.gone = false → after = false) → ¬ R.starts b l) ∧ (after = true → K l)

section
variable {R Q : Ruled} {K : List Char → Prop} {ts ts' : List Token} {text pre l : List Char} {p : Pass}

theorem Ruled.exists_step (R : Ruled) (hK : ∀ r ∈ R.pass.resumed (plain REDACTED ts), K r) :
    ∃ ts', scrubPass (plain REDACTED ts) R.pass = plain REDACTED ts' ∧
      Text.Step REDACTED Edge (R.Kept K) false none ts ts' :=
  Cut.lift redacted_ne_nil (Nat.le_refl _) (R.rule.cut (Pass.passed_replaceAll hK))

theorem gone_step (h : Text.Step REDACTED Edge (R.Kept K) false none ts ts')
    (hQ : Q.gone = true ∨ ∀ l, K l → ¬ Q.pass.FindsBehind REDACTED l) (hgone : Gone REDACTED Q.starts none ts) :
    Gone REDACTED Q.starts none ts' := by
  refine hgone.step redacted_ne_nil Q.rule.stable (fun b l hk hs => ?_) h
  cases hg : Q.gone with
  | true => exact Q.rule.blind hg _ _ l hs
  | false =>
    have hK := hQ.resolve_left (by rw [hg]; exact Bool.false_ne_true) l (hk.2 rfl)
    exact absurd (Q.rule.bares hg l hs) hK

theorem gone_of_step (h : Text.Step REDACTED Edge (R.Kept K) false none ts ts')
    (hR : R.gone = true ∨ ∀ l, K l → ¬ R.pass.FindsBehind REDACTED l) : Gone REDACTED R.starts none ts' := by
  refine Gone.of_step redacted_ne_nil R.rule.stable (fun after b l hk => ?_) h
  cases hg : R.gone with
  | true =>
    have hn := hk.1 fun h => absurd (hg.symm.trans h) Bool.noConfusion
    exact fun hs => hn (R.rule.blind hg _ _ l hs)
  | false =>
    cases after with
    | false => exact hk.1 fun _ => rfl
    | true =>
      have hK := hR.resolve_left (by rw [hg]; exact Bool.false_ne_true) l (hk.2 rfl)
      exact fun hs => hK (R.rule.bares hg l hs)

/-- The first pass, which has no rule. -/
theorem exists_pemBlock (text : List Char) :
    ∃ ts, scrubPass text { body := pemBlock } = plain REDACTED ts ∧
      Text.Step REDACTED Edge (fun _ _ _ => True) false none (text.map some) ts := by
  have hcut := cut_pemBlock (Pass.passed_replaceAll (M := REDACTED) (l := text) fun _ _ => trivial)
  rw [← plain_map_some REDACTED text] at hcut
  obtain ⟨ts, hts, hstep⟩ := Cut.lift (p := none) redacted_ne_nil (Nat.le_refl _) hcut
  rw [plain_map_some] at hts
  exact ⟨ts, hts, hstep⟩

/-! ## All passes -/

/-- What is left of what a pass looks for: it begins only directly behind a marker, and nowhere when the
pass leaves none of it, or when no pass bares any. -/
def Left (bare : Prop) (R : Ruled) (ts : List Token) : Prop :=
  Leftover REDACTED R.starts none ts ∧ (R.gone = true ∨ bare → Gone REDACTED R.starts none ts)

theorem left_step {bare : Prop} (h : Text.Step REDACTED Edge (R.Kept K) false none ts ts')
    (hK : bare → ∀ l, K l → ¬ Q.pass.FindsBehind REDACTED l) (hleft : Left bare Q ts) : Left bare Q ts' :=
  ⟨hleft.1.step redacted_ne_nil Q.rule.stable h, fun hb => gone_step h (hb.imp_right hK) (hleft.2 hb)⟩

theorem left_of_step {bare : Prop} (h : Text.Step REDACTED Edge (R.Kept K) false none ts ts')
    (hK : bare → ∀ l, K l → ¬ R.pass.FindsBehind REDACTED l) : Left bare R ts' :=
  ⟨Leftover.of_step redacted_ne_nil R.rule.stable (fun _ _ hk => hk.1 fun _ => rfl) h,
    fun hb => gone_of_step h (hb.imp_right hK)⟩

section Run

variable {bare : Prop} {I : List Token → Prop}

/-- After the passes of `after` this is left of what they and those of `before` look for, and what the
steps keep holds. -/
theorem left_run {before after : List Ruled} {first : List Pass}
    (hI : ∀ N ts ts', Text.Step REDACTED Edge N false none ts ts' → I ts → I ts')
    (h : bare → BaresNothing (before.map Ruled.pass ++ first) (plain REDACTED ts) (after.map Ruled.pass))
    (hleft : ∀ R ∈ before, Left bare R ts) (h0 : I ts) :
    ∃ ts', run scrubPass (plain REDACTED ts) (after.map Ruled.pass) = plain REDACTED ts' ∧ I ts' ∧
      ∀ R ∈ before ++ after, Left bare R ts' := by
  induction after generalizing before ts with
  | nil =>
    rw [List.append_nil]
    exact ⟨ts, rfl, h0, hleft⟩
  | cons R after ih =>
    have hK : ∀ r ∈ R.pass.resumed (plain REDACTED ts),
        bare → ∀ q ∈ R.pass :: before.map Ruled.pass, ¬ q.FindsBehind REDACTED r := fun r hr hb q hq =>
      (h hb).1 r hr q (List.mem_append_left first hq)
    obtain ⟨ts₁, hts₁, hstep⟩ := R.exists_step hK
    have hleft₁ : ∀ Q ∈ R :: before, Left bare Q ts₁ := by
      rw [List.forall_mem_cons]
      refine ⟨left_of_step hstep fun hb l hl => hl hb _ List.mem_cons_self, fun Q hQ => ?_⟩
      refine left_step hstep (fun hb l hl => hl hb _ (List.mem_cons_of_mem _ ?_)) (hleft Q hQ)
      exact List.mem_map_of_mem hQ
    have hrest : bare → BaresNothing ((R :: before).map Ruled.pass ++ first) (plain REDACTED ts₁)
        (after.map Ruled.pass) := fun hb => hts₁ ▸ (h hb).2
    obtain ⟨ts', hts', hI', hleft'⟩ := ih hrest hleft₁ (hI _ _ _ hstep h0)
    rw [List.map_cons, run_cons, hts₁]
    refine ⟨ts', hts', hI', fun Q hQ => hleft' Q ?_⟩
    rw [List.mem_append, List.mem_cons] at hQ
    rw [List.cons_append, List.mem_cons, List.mem_append]
    tauto

theorem left_scrub_inv (hI : ∀ N ts ts', Text.Step REDACTED Edge N false none ts ts' → I ts → I ts')
    (h : bare → BaresNothing [] text passes) (h0 : I (text.map some)) :
    ∃ ts, scrub text = plain REDACTED ts ∧ I ts ∧ ∀ R ∈ ruled, Left bare R ts := by
  obtain ⟨ts, hts, hstep⟩ := exists_pemBlock text
  have hrest : bare → BaresNothing (List.map Ruled.pass [] ++ [{ body := pemBlock }]) (plain REDACTED ts)
      (ruled.map Ruled.pass) := fun hb => by
    have hb := h hb
    rw [passes_eq] at hb
    exact hts ▸ hb.2
  obtain ⟨ts', hts', hI', hleft⟩ :=
    left_run hI hrest (fun _ h => absurd h List.not_mem_nil) (hI _ _ _ hstep h0)
  refine ⟨ts', ?_, hI', hleft⟩
  rw [scrub, passes_eq, run_cons, hts]
  exact hts'

theorem left_scrub (h : bare → BaresNothing [] text passes) :
    ∃ ts, scrub text = plain REDACTED ts ∧ ∀ R ∈ ruled, Left bare R ts := by
  have hI : ∀ N ts ts', Text.Step REDACTED Edge N false none ts ts' → True → True := fun _ _ _ _ h => h
  obtain ⟨ts, hts, -, hleft⟩ := left_scrub_inv hI h trivial
  exact ⟨ts, hts, hleft⟩

end Run

/-! ## Matches that are left -/

/-- What a pass finds begins where its rule says, and the first pass finds what the second does. -/
theorem exists_starts (hp : p ∈ passes) (h : p.Finds none l) :
    ∃ R ∈ ruled, ∃ pre x, l = pre ++ x ∧ x ≠ [] ∧ R.starts (lastOf none pre) x := by
  obtain ⟨pre, w, u, v, rfl, hw, hm, hr⟩ := h
  have hne : u ++ v ≠ [] := List.append_ne_nil_of_left_ne_nil (hm.ne_nil p.nonempty) v
  rw [← lastOf_append] at hm
  rw [passes_eq, List.mem_cons, List.mem_map] at hp
  rcases hp with rfl | ⟨R, hR, rfl⟩
  · refine ⟨_, List.mem_cons_self, pre ++ w, u ++ v, (List.append_assoc ..).symm, hne, ?_⟩
    exact StartsAt.of_seq (s := seqs _) ⟨u, v, rfl, hm⟩
  · refine ⟨R, hR, pre ++ w, u ++ v, (List.append_assoc ..).symm, hne, ?_⟩
    rw [lastOf_append] at hm ⊢
    exact R.rule.finds _ _ _ _ hw hm hr

/-- Where a rule's pattern begins, the text is at a character. -/
theorem exists_place {P : Option Token → List Char → Prop} (h : Everywhere REDACTED P none ts)
    (hl : plain REDACTED ts = pre ++ l) (hne : l ≠ []) (hs : R.starts (lastOf none pre) l) :
    ∃ as, plain REDACTED as = pre ∧ R.starts (ctx REDACTED (lastOf none as)) l ∧ P (lastOf none as) l := by
  obtain ⟨q, as, bs, -, has, -, rfl, hP⟩ := h.at redacted_ne_nil hl hne fun m s x hM hs' he =>
    R.rule.out _ m s x hM hs' (he ▸ hs)
  refine ⟨as, has, ?_, hP⟩
  rw [ctx_lastOf redacted_ne_nil, has]
  exact hs

/-- What scrubbing leaves of a match begins directly behind a marker. -/
theorem scrub_leftover (hR : R ∈ ruled) (hl : scrub text = pre ++ l) (hne : l ≠ [])
    (hs : R.starts (lastOf none pre) l) : REDACTED <:+ pre := by
  have hbare : False → BaresNothing [] text passes := False.elim
  obtain ⟨ts, hts, hleft⟩ := left_scrub hbare
  obtain ⟨as, rfl, hs, hP⟩ := exists_place (hleft R hR).1 (hts ▸ hl) hne hs
  have hlast := hP hs
  rcases List.eq_nil_or_concat as with rfl | ⟨as, t, rfl⟩
  · cases hlast
  · rw [List.concat_eq_append, lastOf_append] at hlast
    obtain rfl : t = none := Option.some.inj hlast
    rw [List.concat_eq_append, plain_append]
    exact ⟨plain REDACTED as, by simp⟩

theorem clean_of_gone (h : ∀ R ∈ ruled, Gone REDACTED R.starts none ts) : Clean (plain REDACTED ts) := by
  intro p hp hf
  obtain ⟨R, hR, pre, x, hx, hne, hs⟩ := exists_starts hp hf
  obtain ⟨as, -, hs, hP⟩ := exists_place (h R hR) hx hne hs
  exact hP hs

theorem clean_scrub (h : BaresNothing [] text passes) : Clean (scrub text) := by
  obtain ⟨ts, hts, hleft⟩ := left_scrub (fun _ : True => h)
  rw [hts]
  exact clean_of_gone fun R hR => (hleft R hR).2 (.inr trivial)

theorem scrub_eq_self (h : Clean text) : scrub text = text := by
  have key : ∀ ps : List Pass, (∀ p ∈ ps, p ∈ passes) → run scrubPass text ps = text := by
    intro ps
    induction ps with
    | nil => exact fun _ => rfl
    | cons p ps ih =>
      intro hps
      obtain ⟨hp, hps⟩ := List.forall_mem_cons.mp hps
      rw [run_cons, scrubPass, Pass.replaceAll_eq_self (h p hp)]
      exact ih hps
  exact key passes fun _ hp => hp

/-! ## What scrubbing takes -/

/-- The characters of the text that are left, but for spaces. -/
def weight (ts : List Token) : Nat := ts.countP fun t => t.any fun c => c ≠ ' '

variable {N : Bool → Option Char → List Char → Prop} {after : Bool} {q : Option Token}

@[simp] theorem weight_marker : weight (none :: ts) = weight ts := List.countP_cons_of_neg (by simp)

theorem weight_cons (t : Token) : weight (t :: ts) = weight ts + if t.any fun c => c ≠ ' ' then 1 else 0 :=
  List.countP_cons

theorem weight_append : weight (ts ++ ts') = weight ts + weight ts' := List.countP_append

theorem weight_map_some : weight (l.map some) = l.countP fun c => c ≠ ' ' := by
  rw [weight, List.countP_map]
  rfl

theorem weight_step (h : Text.Step REDACTED Edge N after q ts ts') : weight ts' ≤ weight ts := by
  induction h with
  | nil => exact Nat.le_refl _
  | marker _ ih => rwa [weight_marker, weight_marker]
  | keep _ _ ih =>
    rw [weight_cons, weight_cons]
    omega
  | redact _ _ _ ih =>
    rw [weight_append, weight_marker]
    omega

theorem mem_of_step {c : Char} (h : Text.Step REDACTED Edge N after q ts ts') (hc : some c ∈ ts') : some c ∈ ts := by
  induction h with
  | nil => exact hc
  | marker _ ih =>
    rcases List.mem_cons.mp hc with hc | hc
    · cases hc
    · exact List.mem_cons_of_mem _ (ih hc)
  | keep _ _ ih =>
    rcases List.mem_cons.mp hc with hc | hc
    · rw [hc]
      exact List.mem_cons_self
    · exact List.mem_cons_of_mem _ (ih hc)
  | redact _ _ _ ih =>
    rcases List.mem_cons.mp hc with hc | hc
    · cases hc
    · exact List.mem_append_right _ (ih hc)

/-- A redaction takes its first character, which is no space. -/
theorem weight_lt_of_step (h : Text.Step REDACTED Edge N after q ts ts') (hts : none ∉ ts) :
    ts' = ts ∨ weight ts' < weight ts := by
  induction h with
  | nil => exact .inl rfl
  | marker => exact absurd List.mem_cons_self hts
  | keep _ _ ih =>
    rcases ih fun h => hts (List.mem_cons_of_mem _ h) with rfl | hlt
    · exact .inl rfl
    · refine .inr ?_
      rw [weight_cons, weight_cons]
      omega
  | @redact _ _ us vs vs' hne hE hstep _ =>
    obtain ⟨t, us, rfl⟩ := List.exists_cons_of_ne_nil hne
    obtain ⟨c, rfl⟩ : ∃ c, t = some c := by
      cases t with
      | none => exact absurd List.mem_cons_self hts
      | some c => exact ⟨c, rfl⟩
    obtain ⟨-, d, hd, hsp⟩ := hE
    obtain rfl : c = d := Option.some.inj hd
    have hc : c ≠ ' ' := by
      rintro rfl
      exact absurd hsp (by decide)
    have hle := weight_step hstep
    refine .inr ?_
    rw [weight_marker, List.cons_append, weight_cons, if_pos (by simpa using hc), weight_append]
    omega

/-- What is left of a text, of which something was taken or nothing. -/
structure Remains (l : List Char) (ts : List Token) : Prop where
  mem : ∀ c, some c ∈ ts → c ∈ l
  less : ts = l.map some ∨ weight ts < weight (l.map some)

theorem remains_step (h : Text.Step REDACTED Edge N after q ts ts') (hr : Remains l ts) : Remains l ts' := by
  refine ⟨fun c hc => hr.mem c (mem_of_step h hc), ?_⟩
  rcases hr.less with rfl | hlt
  · exact weight_lt_of_step h (by simp)
  · exact .inr (Nat.lt_of_le_of_lt (weight_step h) hlt)

/-- When there is something to redact, something is taken. -/
theorem exists_taken (h : ¬ Clean l) :
    ∃ ts, scrub l = plain REDACTED ts ∧ (∀ c, some c ∈ ts → c ∈ l) ∧ weight ts < l.countP fun c => c ≠ ' ' := by
  have h0 : Remains l (l.map some) := ⟨fun c hc => by simpa using hc, .inl rfl⟩
  have hbare : False → BaresNothing [] l passes := False.elim
  obtain ⟨ts, hts, hr, hleft⟩ := left_scrub_inv (fun _ _ _ h hr => remains_step h hr) hbare h0
  refine ⟨ts, hts, hr.mem, ?_⟩
  rcases hr.less with rfl | hlt
  · refine absurd ?_ h
    have hclean := clean_of_gone fun R hR => (hleft R hR).1.gone nofun
    rwa [plain_map_some] at hclean
  · rwa [weight_map_some] at hlt

end

theorem scrubInternal_toList (text : String) : (scrubInternal text).toList = scrub text.toList :=
  String.toList_ofList

/-- When no redaction bares a match, scrubbing is complete, and doing it again changes nothing. -/
theorem scrub_complete (text : String) (h : BaresNothing [] text.toList passes) :
    Clean (scrubInternal text).toList ∧ scrubInternal (scrubInternal text) = scrubInternal text := by
  have hclean : Clean (scrubInternal text).toList := by
    rw [scrubInternal_toList]
    exact clean_scrub h
  refine ⟨hclean, ?_⟩
  have hself := scrub_eq_self hclean
  rw [scrubInternal_toList] at hself
  rw [scrubInternal, scrubInternal_toList, hself]
  rfl

/-- A ticket and an email address. -/
theorem scrub_complete_ticket :
    let text := "HS-1, a@b.co"
    Clean (scrubInternal text).toList ∧ scrubInternal (scrubInternal text) = scrubInternal text :=
  scrub_complete _ (by decide +kernel)

/-- The address takes a letter of the word, and the ticket behind it becomes a word of its own. -/
theorem ticket_bared :
    scrubInternal "fe80::aHS-1" = "[redacted]HS-1" ∧ ¬ Clean (scrubInternal "fe80::aHS-1").toList ∧
      scrubInternal (scrubInternal "fe80::aHS-1") = "[redacted][redacted]" := by
  have h : scrubInternal "fe80::aHS-1" = "[redacted]HS-1" := by decide +kernel
  have h2 : scrubInternal "[redacted]HS-1" = "[redacted][redacted]" := by decide +kernel
  refine ⟨h, fun hclean => ?_, by rw [h, h2]⟩
  have hself := scrub_eq_self hclean
  rw [h, ← scrubInternal_toList, h2] at hself
  exact absurd hself (by decide)

end Claudear.Engine
