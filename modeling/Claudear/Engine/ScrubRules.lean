import Claudear.Engine.Scrub
import Claudear.Text.Marked

/-!
# What the passes of a scrub have in common

Every pattern begins at a word boundary or with punctuation, so a redaction does
not end a word (`Edge`). No pattern takes a piece of a marker: most describe no
`[` and no `]` and nothing made of the letters of `redacted` (`apart`); those
that take everything up to the next white space take a marker whole. `Rule` puts
this together for one pass.
-/

namespace Claudear.Engine

open Claudear.Text Claudear.Text.Pat

/-- The characters before and at the beginning of what is redacted. -/
def Edge (b c : Option Char) : Prop :=
  (isWord c = true → isWord b = false) ∧ ∃ d, c = some d ∧ isSpace d = false

theorem redacted_ne_nil : REDACTED ≠ [] := List.cons_ne_nil _ _

/-- The pattern describes nothing that begins inside of a marker. -/
def NotInMarker (S : Option Char → List Char → Prop) : Prop :=
  ∀ b m s x, REDACTED = m ++ s → s ≠ [] → ¬ S b (s ++ x)

/-- A marker can stop what the pattern describes only at the first character. -/
def OpenFirst (r : Pat) : Prop := ∀ b u a, r.Matches b u a → '[' ∉ u.tail

/-- Describes no bracket, and more than letters of the marker. -/
def apart (r : Pat) : Bool :=
  !r.nullable && r.avoids '[' && r.avoids ']' && (r.outside ['r', 'e', 'd', 'a', 'c', 't'] || 10 ≤ r.minLength)

section
variable {r s : Pat} {b : Option Char} {l m u v x : List Char}

theorem suffix_of_redacted (h : REDACTED = m ++ l) (hl : l ≠ []) :
    ∃ s, l = s ++ [']'] ∧ (∀ c ∈ s, c = '[' ∨ c ∈ ['r', 'e', 'd', 'a', 'c', 't']) ∧ s.length < 10 := by
  have hlast : l.getLast hl = ']' := by
    have := congrArg List.getLast? h
    rw [List.getLast?_append_of_ne_nil _ hl, List.getLast?_eq_getLast_of_ne_nil hl] at this
    exact (Option.some.inj this).symm
  refine ⟨l.dropLast, ?_, ?_, ?_⟩
  · rw [← hlast]
    exact (List.dropLast_append_getLast hl).symm
  · intro c hc
    have hR : REDACTED.dropLast = m ++ l.dropLast := by
      rw [h, List.dropLast_append_of_ne_nil hl]
    have hmem : c ∈ REDACTED.dropLast := hR ▸ List.mem_append_right m hc
    have hall : REDACTED.dropLast.all (fun c => c = '[' ∨ c ∈ ['r', 'e', 'd', 'a', 'c', 't']) = true := by decide
    exact of_decide_eq_true (List.all_eq_true.mp hall c hmem)
  · have := congrArg List.length h
    rw [List.length_append] at this
    have hR : REDACTED.length = 10 := rfl
    rw [List.length_dropLast]
    have := List.length_pos_of_ne_nil hl
    omega

theorem openFirst_of_apart (h : apart r = true) : OpenFirst r := by
  intro b u a hm hc
  simp only [apart, Bool.and_eq_true] at h
  exact hm.not_mem h.1.1.2 (List.mem_of_mem_tail hc)

theorem notInMarker_of_apart (h : apart r = true) : NotInMarker r.StartsAt := by
  rintro b m l x hl hne ⟨u, v, huv, hm⟩
  simp only [apart, Bool.and_eq_true, Bool.not_eq_true', Bool.or_eq_true, decide_eq_true_eq] at h
  obtain ⟨⟨⟨hn, hopen⟩, hclose⟩, hr⟩ := h
  obtain ⟨s, rfl, hs, hlen⟩ := suffix_of_redacted hl hne
  rw [List.append_assoc] at huv
  rcases List.append_eq_append_iff.mp huv with ⟨y, rfl, hy⟩ | ⟨y, rfl, hy⟩
  · cases y with
    | nil =>
      rw [List.append_nil] at hm
      rcases hr with hr | hr
      · obtain ⟨c, hc, hout⟩ := hm.exists_outside hr
        rcases hs c hc with rfl | hc'
        · exact hm.not_mem hopen hc
        · exact hout hc'
      · have := hm.minLength_le
        omega
    | cons c y =>
      obtain ⟨rfl, -⟩ := List.cons.inj hy
      exact hm.not_mem hclose (List.mem_append_right s List.mem_cons_self)
  · rcases hr with hr | hr
    · obtain ⟨c, hc, hout⟩ := hm.exists_outside hr
      rcases hs c (List.mem_append_left y hc) with rfl | hc'
      · exact hm.not_mem hopen hc
      · exact hout hc'
    · have := hm.minLength_le
      rw [List.length_append] at hlen
      omega

/-- What ends before a marker also ends before something else. -/
theorem matches_of_edge {y : List Char} (hm : r.Matches b u (some '['))
    (hword : isWord y.head? = true → isWord (lastOf b u) = false) : r.Matches b u y.head? := by
  refine hm.of_endsAlike ?_
  cases hy : isWord y.head? with
  | true => exact .inr ⟨hword hy, rfl⟩
  | false => exact .inl hy.symm

/-- What begins before a marker, where it describes what `P` is true of, begins there without it. -/
theorem stable_of_matches (h : OpenFirst r) (P : List Char → Prop) :
    Stable REDACTED Edge fun b l => ∃ u v, l = u ++ v ∧ r.Matches b u v.head? ∧ P u := by
  rintro b s x y hs ⟨hword, -⟩ ⟨u, v, huv, hm, hP⟩
  rcases List.append_eq_append_iff.mp huv with ⟨z, rfl, hz⟩ | ⟨z, rfl, hz⟩
  · cases z with
    | nil =>
      rw [List.nil_append] at hz
      rw [List.append_nil] at hm hP
      rw [← hz] at hm
      exact ⟨s, y, rfl, matches_of_edge hm hword, hP⟩
    | cons c z =>
      obtain ⟨d, t, rfl⟩ := List.exists_cons_of_ne_nil hs
      obtain ⟨rfl, -⟩ := List.cons.inj hz
      exact absurd (List.mem_append_right t List.mem_cons_self) (h b _ _ hm)
  · cases z with
    | nil =>
      rw [hz] at hm
      rw [List.append_nil] at hword ⊢
      exact ⟨u, y, rfl, matches_of_edge hm hword, hP⟩
    | cons c z =>
      rw [hz] at hm
      exact ⟨u, c :: z ++ y, List.append_assoc .., hm, hP⟩

theorem stable_of_openFirst (h : OpenFirst r) : Stable REDACTED Edge r.StartsAt := by
  intro b s x y hs hedge ⟨u, v, huv, hm⟩
  obtain ⟨u, v, huv, hm, -⟩ := stable_of_matches h (fun _ => True) b s x y hs hedge ⟨u, v, huv, hm, trivial⟩
  exact ⟨u, v, huv, hm⟩

theorem edge_of_boundary (hs : ∀ c, isSpace c = true → s.canStart c = false) (hn : s.nullable = false) {a : Option Char}
    (h : (seq boundary s).Matches b u a) : Edge b u.head? := by
  obtain ⟨hm, hne⟩ := h.boundary_seq
  obtain ⟨c, t, rfl⟩ := List.exists_cons_of_ne_nil (hm.ne_nil hn)
  refine ⟨fun hc => ?_, ?_⟩
  · cases hb : isWord b with
    | false => rfl
    | true => exact absurd (hb.trans hc.symm) hne
  · refine ⟨c, rfl, ?_⟩
    cases hc : isSpace c with
    | false => rfl
    | true => exact absurd (hm.canStart rfl) (by rw [hs c hc]; exact Bool.false_ne_true)

/-- A pattern that begins with punctuation. -/
theorem edge_of_punctuation (hr : ∀ c, r.canStart c = true → isWordChar c = false ∧ isSpace c = false)
    (hn : r.nullable = false) {a : Option Char} (h : r.Matches b u a) : Edge b u.head? := by
  obtain ⟨c, t, rfl⟩ := List.exists_cons_of_ne_nil (h.ne_nil hn)
  obtain ⟨hw, hsp⟩ := hr c (h.canStart rfl)
  exact ⟨fun hc => absurd hc (by simp [isWord, hw]), c, rfl, hsp⟩

theorem edge_of_seq (hr : ∀ b u a, r.Matches b u a → Edge b u.head?) (hn : r.nullable = false) {a : Option Char}
    (h : (seq r s).Matches b u a) : Edge b u.head? := by
  cases h with
  | @seq _ _ _ x y _ _ hw hm _ =>
    obtain ⟨c, t, hx⟩ := List.exists_cons_of_ne_nil (hm.ne_nil hn)
    have hedge := hr _ _ _ hm
    rw [hx] at hedge
    rw [hw, hx]
    exact hedge

/-! ## Markers are not cut -/

theorem whole_of_notInMarker (hN : NotInMarker r.StartsAt) (hm : r.Matches b u v.head?)
    (hends : ∀ m s x y, REDACTED = m ++ s → m ≠ [] → s ≠ [] → u = x ++ m → x ≠ [] → v ≠ s ++ y) :
    Whole REDACTED u v where
  begins m s x hM hs h := hN b m s x hM hs ⟨u, v, h.symm, hm⟩
  ends m s x y hM hm' hs hu hv := by
    cases x with
    | nil => exact hN b [] REDACTED y rfl redacted_ne_nil ⟨u, v, by rw [hu, hv, hM]; simp, hm⟩
    | cons c x => exact hends m s (c :: x) y hM hm' hs hu (List.cons_ne_nil _ _) hv

theorem whole_of_openFirst (hN : NotInMarker r.StartsAt) (ho : OpenFirst r) (hm : r.Matches b u v.head?) :
    Whole REDACTED u v := by
  refine whole_of_notInMarker hN hm fun m s x y hM hm' _ hu hx _ => ?_
  obtain ⟨c, x, rfl⟩ := List.exists_cons_of_ne_nil hx
  obtain ⟨d, m, rfl⟩ := List.exists_cons_of_ne_nil hm'
  obtain ⟨rfl, -⟩ := List.cons.inj hM
  refine ho b u _ hm ?_
  rw [hu]
  exact List.mem_append_right x List.mem_cons_self

/-- A pattern that goes on to the next white space. -/
theorem whole_of_nonSpace (hN : NotInMarker r.StartsAt) (hm : r.Matches b u v.head?)
    (hv : ∀ c ∈ v.head?, nonSpace c = false) : Whole REDACTED u v := by
  refine whole_of_notInMarker hN hm fun m s x y hM _ hs _ _ he => ?_
  obtain ⟨c, s, rfl⟩ := List.exists_cons_of_ne_nil hs
  have hc : c ∈ REDACTED := hM ▸ List.mem_append_right m List.mem_cons_self
  have := hv c (by rw [he]; rfl)
  rw [List.all_eq_true.mp (by decide : REDACTED.all nonSpace = true) c hc] at this
  cases this

end

/-! ## Passes -/

section
variable {p : Pass} {K : List Char → Prop} {b : Option Char} {l t t' u v w : List Char} {after : Bool}

theorem lead_eq_nil (hlead : p.lead = .empty) (h : p.find b t = some (w, u)) : w = [] := by
  obtain ⟨v, -, hw, -⟩ := Pass.find_eq_some h
  rw [hlead] at hw
  cases hw
  rfl

theorem startsAt_of_body (hlead : p.lead = .empty) (h : p.body.StartsAt b t) : p.StartsAt b t := by
  obtain ⟨u, v, rfl, hm⟩ := h
  refine ⟨[], u, v, rfl, ?_, hm⟩
  rw [hlead]
  exact .empty

theorem findsBehind_of_startsAt (hlead : p.lead = .empty) (hred : ∀ u, p.redacts u = true)
    (h : p.body.StartsAt (some ']') l) : p.FindsBehind REDACTED l := by
  obtain ⟨u, v, rfl, hm⟩ := h
  refine ⟨REDACTED, [], u, v, rfl, rfl, ?_, hm, hred u⟩
  rw [hlead]
  exact .empty

/-- A pass that redacts all it finds. -/
theorem cut_of_passed (hlead : p.lead = .empty) (hred : ∀ u, p.redacts u = true)
    (hedge : ∀ b u a, p.body.Matches b u a → Edge b u.head?)
    (hwhole : ∀ b u v, p.find b (u ++ v) = some ([], u) → p.body.Matches b u v.head? → Whole REDACTED u v)
    (h : p.Passed REDACTED K after b t t') :
    Cut REDACTED Edge (fun after b l => ¬ p.body.StartsAt b l ∧ (after = true → K l)) after b t t' := by
  induction h with
  | nil => exact .nil
  | keep hn hK _ ih => exact .keep ⟨fun h => hn (startsAt_of_body hlead h), hK⟩ ih
  | @redact _ b w u v v' hf _ _ _ ih =>
    have hw := lead_eq_nil hlead hf
    subst hw
    obtain ⟨v₁, hv, -, hm, -⟩ := Pass.find_eq_some hf
    rw [List.nil_append, List.nil_append, List.append_cancel_left_eq] at hv
    subst hv
    rw [List.nil_append, List.nil_append]
    exact .redact (Pass.find_nonempty hf) (hedge b u _ hm) (hwhole b u v hf hm) ih
  | leave _ hr => exact absurd ((hred _).symm.trans hr) Bool.noConfusion

/-- The head of what is left after a pattern without a lead. -/
theorem head?_run_of_find (hlead : p.lead = .empty) (h : p.find b (u ++ v) = some ([], u)) :
    ∃ b', (run p.body b (u ++ v)).head? = some (b', v) := by
  obtain ⟨v₁, hv, -, -, hends⟩ := Pass.find_eq_some h
  rw [List.nil_append, List.append_cancel_left_eq] at hv
  subst hv
  rw [Pass.ends, hlead, run, List.flatMap_singleton, List.head?_map, Option.map_eq_some_iff] at hends
  obtain ⟨x, hx, he⟩ := hends
  exact ⟨x.1, hx.trans (congrArg some (Prod.ext rfl (Prod.ext_iff.mp he).2))⟩

end

/-- What is known of a pass: `S` is what it takes for its pattern to begin somewhere. After the pass
`S` is `gone`, or it begins only directly behind a marker, where the pass would find it. -/
structure Rule (p : Pass) (gone : Bool) (S : Option Char → List Char → Prop) : Prop where
  cut : ∀ {K t t'}, p.Passed REDACTED K false none t t' →
    Cut REDACTED Edge (fun after b l => ((gone = false → after = false) → ¬ S b l) ∧ (after = true → K l))
      false none t t'
  stable : Stable REDACTED Edge S
  out : NotInMarker S
  blind : gone = true → ∀ b b' l, S b l → S b' l
  bares : gone = false → ∀ l, S (some ']') l → p.FindsBehind REDACTED l
  finds : ∀ b w u v, p.lead.Matches b w (u ++ v).head? → p.body.Matches (lastOf b w) u v.head? →
    p.redacts u = true → S (lastOf b w) (u ++ v)

/-- What comes behind the `\b` of a pattern. -/
def wordPattern (s : Pat) : Bool := apart s && " \t\n\x0b\x0c\r".toList.all fun c => !s.canStart c

section
variable {p : Pass} {s r : Pat} {b a : Option Char} {l u v w : List Char}

theorem canStart_of_wordPattern (h : wordPattern s = true) (c : Char) (hc : isSpace c = true) :
    s.canStart c = false := by
  rw [wordPattern, Bool.and_eq_true, List.all_eq_true] at h
  exact Bool.not_eq_true' _ ▸ h.2 c (of_decide_eq_true hc)

theorem apart_boundary (h : wordPattern s = true) : apart (seq boundary s) = true := by
  rw [wordPattern, Bool.and_eq_true] at h
  simpa [apart, nullable, avoids, outside, minLength] using h.1

theorem nullable_of_apart (h : apart r = true) : r.nullable = false := by
  simp only [apart, Bool.and_eq_true, Bool.not_eq_true'] at h
  exact h.1.1.1

theorem rule_word (hlead : p.lead = .empty) (hred : ∀ u, p.redacts u = true) (hbody : p.body = seq boundary s)
    (h : wordPattern s = true) : Rule p false p.body.StartsAt := by
  have hn : s.nullable = false := by
    rw [wordPattern, Bool.and_eq_true] at h
    exact nullable_of_apart h.1
  have hapart : apart p.body = true := hbody ▸ apart_boundary h
  have hout := notInMarker_of_apart hapart
  have hopen := openFirst_of_apart hapart
  have hedge : ∀ b u a, p.body.Matches b u a → Edge b u.head? := fun b u a hm => by
    rw [hbody] at hm
    exact edge_of_boundary (canStart_of_wordPattern h) hn hm
  exact {
    cut := fun hp =>
      (cut_of_passed hlead hred hedge (fun _ _ _ _ hm => whole_of_openFirst hout hopen hm) hp).mono
        fun _ _ _ hk => ⟨fun _ => hk.1, hk.2⟩
    stable := stable_of_openFirst hopen
    out := hout
    blind := fun h => Bool.noConfusion h
    bares := fun _ _ hs => findsBehind_of_startsAt hlead hred hs
    finds := fun b w u v _ hm _ => ⟨u, v, rfl, hm⟩ }

end

/-- A match of a pattern that begins with a word begins at an edge. -/
theorem edge_of_word {p : Pat} (hapart : apart p = true) (hp : ∃ s, p = seq boundary s ∧ wordPattern s = true)
    {b a : Option Char} {u : List Char} (hm : p.Matches b u a) : Edge b u.head? := by
  obtain ⟨s, rfl, hw⟩ := hp
  have hn : (seq boundary s).nullable = false := nullable_of_apart hapart
  exact edge_of_boundary (canStart_of_wordPattern hw) hn hm

/-- `\bhttps?://…helpscout\.net` begins where the whole address does. -/
theorem rule_helpscoutUrl : Rule { body := helpscoutUrl } false helpscoutHost.StartsAt := by
  have hapart : apart helpscoutHost = true := by decide
  have hout := notInMarker_of_apart hapart
  have hn := nullable_of_apart hapart
  have hedge : ∀ b u a, helpscoutHost.Matches b u a → Edge b u.head? := fun _ _ _ =>
    edge_of_word hapart ⟨_, rfl, by decide⟩
  exact {
    cut := fun hp => by
      refine (cut_of_passed rfl (fun _ => rfl) (fun _ _ _ hm => edge_of_seq hedge hn hm)
        (fun b u v hf hm => ?_) hp).mono fun _ b l hk => ⟨fun _ hs => hk.1 (startsAt_seq_many.mpr hs), hk.2⟩
      obtain ⟨b', hb'⟩ := head?_run_of_find rfl hf
      exact whole_of_nonSpace (fun b m s x hM hne hs => hout b m s x hM hne hs.of_seq) hm
        (greedy_many.seq b _ _ hb')
    stable := stable_of_openFirst (openFirst_of_apart hapart)
    out := hout
    blind := fun h => Bool.noConfusion h
    bares := fun _ _ h => findsBehind_of_startsAt rfl (fun _ => rfl) (startsAt_seq_many.mpr h)
    finds := fun b w u v _ hm _ => StartsAt.of_seq ⟨u, v, rfl, hm⟩ }

theorem startsAt_windowsPath {b : Option Char} {l : List Char} :
    windowsPath.StartsAt b l ↔
      ∃ u c v, l = u ++ c :: v ∧ drive.Matches b u (some c) ∧ nonSpace c = true := by
  constructor
  · rintro ⟨w, x, rfl, hm⟩
    cases hm with
    | @seq _ _ _ u y _ _ hw hd hp =>
      cases hp with
      | @seq _ _ _ y z _ _ hy hc _ =>
        cases hc with
        | @one _ c _ _ hc =>
          subst hy
          subst hw
          exact ⟨u, c, z ++ x, by simp, hd, hc⟩
  · rintro ⟨u, c, v, rfl, hd, hc⟩
    exact ⟨u ++ [c], v, by simp, .seq rfl hd (.seq rfl (.one hc) .done)⟩

theorem stable_windowsPath : Stable REDACTED Edge windowsPath.StartsAt := by
  rintro b s x y hs ⟨hword, d, hd, hsp⟩ h
  obtain ⟨u, c, v, huv, hm, hc⟩ := startsAt_windowsPath.mp h
  have hopen : '[' ∉ u := hm.not_mem (by decide)
  obtain ⟨y, rfl⟩ : ∃ t, y = d :: t := by
    cases y with
    | nil => cases hd
    | cons e t =>
      obtain rfl := Option.some.inj hd
      exact ⟨t, rfl⟩
  rcases List.append_eq_append_iff.mp huv with ⟨z, rfl, hz⟩ | ⟨z, rfl, hz⟩
  · cases z with
    | nil =>
      obtain ⟨rfl, -⟩ := List.cons.inj hz
      rw [List.append_nil] at hm
      exact startsAt_windowsPath.mpr ⟨s, d, y, rfl, matches_of_edge (y := d :: y) hm hword, by simp [nonSpace, hsp]⟩
    | cons e z =>
      obtain ⟨rfl, -⟩ := List.cons.inj hz
      exact absurd (List.mem_append_right s List.mem_cons_self) hopen
  · cases z with
    | nil =>
      obtain ⟨rfl, -⟩ := List.cons.inj hz
      rw [List.append_nil] at hword ⊢
      exact startsAt_windowsPath.mpr ⟨u, d, y, rfl, matches_of_edge (y := d :: y) hm hword, by simp [nonSpace, hsp]⟩
    | cons e z =>
      obtain ⟨rfl, -⟩ := List.cons.inj hz
      exact startsAt_windowsPath.mpr ⟨u, c, z ++ d :: y, by simp, hm, hc⟩

theorem rule_windowsPath : Rule { body := windowsPath } false windowsPath.StartsAt := by
  have hapart : apart drive = true := by decide
  have hout : NotInMarker windowsPath.StartsAt := fun b m s x hM hne hs =>
    notInMarker_of_apart hapart b m s x hM hne hs.of_seq
  have hn := nullable_of_apart hapart
  have hedge : ∀ b u a, drive.Matches b u a → Edge b u.head? := fun _ _ _ =>
    edge_of_word hapart ⟨_, rfl, by decide⟩
  exact {
    cut := fun hp => by
      refine (cut_of_passed rfl (fun _ => rfl) (fun _ _ _ hm => edge_of_seq hedge hn hm)
        (fun b u v hf hm => ?_) hp).mono fun _ b l hk => ⟨fun _ => hk.1, hk.2⟩
      obtain ⟨b', hb'⟩ := head?_run_of_find rfl hf
      exact whole_of_nonSpace hout hm ((greedy_atLeast 1).seq b _ _ hb')
    stable := stable_windowsPath
    out := hout
    blind := fun h => Bool.noConfusion h
    bares := fun _ _ h => findsBehind_of_startsAt rfl (fun _ => rfl) h
    finds := fun b w u v _ hm _ => ⟨u, v, rfl, hm⟩ }

/-! ## Keys in blocks -/

theorem canStart_pemHeader (c : Char) (h : pemHeader.canStart c = true) :
    isWordChar c = false ∧ isSpace c = false := by
  have hc : c = '-' := by
    simpa [pemHeader, seqs, lit, Pat.canStart, nullable] using h
  rw [hc]
  decide

theorem edge_pemHeader (b : Option Char) (u : List Char) (a : Option Char) (h : pemHeader.Matches b u a) :
    Edge b u.head? :=
  edge_of_punctuation canStart_pemHeader rfl h

theorem notInMarker_pem {r : Pat} : NotInMarker (seq pemHeader r).StartsAt := fun b m s x hM hne hs =>
  notInMarker_of_apart (r := pemHeader) (by decide) b m s x hM hne hs.of_seq

/-- The end line of a block has a hyphen last, which no marker has. -/
theorem cut_pemBlock {K : List Char → Prop} {t t' : List Char}
    (h : ({ body := pemBlock } : Pass).Passed REDACTED K false none t t') :
    Cut REDACTED Edge (fun _ _ _ => True) false none t t' := by
  refine (cut_of_passed rfl (fun _ => rfl) (fun _ _ _ hm => edge_of_seq edge_pemHeader rfl hm)
    (fun b u v _ hm => ?_) h).mono fun _ _ _ _ => trivial
  have hend : "-----".toList <:+ u := by
    refine hm.seq_suffix fun _ _ hm => hm.seq_suffix fun _ _ hm => hm.seq_suffix fun _ _ hm =>
      hm.seq_suffix fun _ _ hm => ?_
    cases hm with
    | seq hw hl he =>
      cases he
      exact ⟨[], by rw [hw, hl.lit_eq, List.nil_append, List.append_nil]⟩
  refine whole_of_notInMarker notInMarker_pem hm fun m s x y hM hm' _ hu _ _ => ?_
  have hlast : u.getLast? = some '-' := by
    obtain ⟨z, rfl⟩ := hend
    rw [List.getLast?_append_of_ne_nil _ (by decide)]
    rfl
  have hmem : '-' ∈ m := by
    rw [hu, List.getLast?_append_of_ne_nil _ hm'] at hlast
    exact List.mem_of_getLast? hlast
  exact absurd (hM ▸ List.mem_append_left s hmem : '-' ∈ REDACTED) (by decide)

theorem rule_pemOpen : Rule { body := pemOpen } true pemHeader.StartsAt where
  cut hp := by
    refine (cut_of_passed rfl (fun _ => rfl) (fun _ _ _ hm => edge_of_seq edge_pemHeader rfl hm)
      (fun b u v hf hm => ?_) hp).mono fun _ b l hk => ⟨fun _ hs => hk.1 (startsAt_seq_many.mpr hs), hk.2⟩
    obtain ⟨b', hb'⟩ := head?_run_of_find rfl hf
    refine whole_of_notInMarker notInMarker_pem hm fun m s x y hM _ hs _ _ hv => ?_
    obtain ⟨c, s, rfl⟩ := List.exists_cons_of_ne_nil hs
    exact absurd (greedy_many.seq b _ _ hb' c (by rw [hv]; rfl)) Bool.noConfusion
  stable := stable_of_openFirst (openFirst_of_apart (by decide))
  out := notInMarker_of_apart (by decide)
  blind := fun _ _ _ _ h => h.of_blind (by decide)
  bares := fun h => Bool.noConfusion h
  finds := fun b w u v _ hm _ => StartsAt.of_seq ⟨u, v, rfl, hm⟩

/-! ## `::1` -/

theorem canStart_loopback6 (c : Char) (h : loopback6.canStart c = true) : c = '[' ∨ c = ':' := by
  simpa [loopback6, seqs, lit, opt, Pat.canStart, nullable] using h

theorem loopback6_eq {b a : Option Char} {u : List Char} (h : loopback6.Matches b u a) :
    ∃ x y, u = x ++ ':' :: ':' :: '1' :: y ∧ (x = [] ∨ x = ['[']) ∧ '[' ∉ y := by
  cases h with
  | @seq _ _ _ x y _ _ hw hx hy =>
    have hopen : '[' ∉ y := hy.not_mem (by decide)
    cases hy with
    | @seq _ _ _ y z _ _ hy hl _ =>
      have hl : y = [':', ':', '1'] := hl.lit_eq
      subst hw hy hl
      refine ⟨x, z, rfl, ?_, fun hz => hopen (List.mem_append_right _ hz)⟩
      cases hx with
      | left hx => exact .inr hx.lit_eq
      | right hx =>
        cases hx
        exact .inl rfl

/-- The only bracket that opens is the first character. -/
theorem openFirst_loopback6 : OpenFirst loopback6 := by
  intro b u a h
  obtain ⟨x, y, rfl, rfl | rfl, hy⟩ := loopback6_eq h
  · simpa using hy
  · simpa using hy

theorem notInMarker_loopback6 : NotInMarker loopback6.StartsAt := by
  rintro b m s x hM hne ⟨u, v, huv, hm⟩
  obtain ⟨y, z, rfl, rfl | rfl, -⟩ := loopback6_eq hm
  · -- a marker has no colon
    obtain ⟨c, s, rfl⟩ := List.exists_cons_of_ne_nil hne
    obtain ⟨rfl, -⟩ := List.cons.inj huv
    exact absurd (hM ▸ List.mem_append_right m List.mem_cons_self : ':' ∈ REDACTED) (by decide)
  · obtain ⟨c, s, rfl⟩ := List.exists_cons_of_ne_nil hne
    obtain ⟨rfl, huv'⟩ := List.cons.inj huv
    cases s with
    | nil =>
      have hlast := congrArg List.getLast? hM
      rw [List.getLast?_append_of_ne_nil _ hne] at hlast
      exact absurd hlast (by decide)
    | cons d s =>
      obtain ⟨rfl, -⟩ := List.cons.inj huv'
      have hmem : ':' ∈ m ++ '[' :: ':' :: s := List.mem_append_right m (by simp)
      exact absurd (hM ▸ hmem : ':' ∈ REDACTED) (by decide)

theorem rule_loopback6 : Rule { body := loopback6 } true loopback6.StartsAt where
  cut hp := by
    refine (cut_of_passed rfl (fun _ => rfl) (fun _ _ _ hm => edge_of_punctuation (fun c h => ?_) rfl hm)
      (fun b u v _ hm => whole_of_openFirst notInMarker_loopback6 openFirst_loopback6 hm) hp).mono
      fun _ b l hk => ⟨fun _ => hk.1, hk.2⟩
    rcases canStart_loopback6 c h with rfl | rfl <;> decide
  stable := stable_of_openFirst openFirst_loopback6
  out := notInMarker_loopback6
  blind := fun _ _ _ _ h => h.of_blind (by decide)
  bares := fun h => Bool.noConfusion h
  finds := fun b w u v _ hm _ => ⟨u, v, rfl, hm⟩

/-! ## Absolute paths -/

/-- What comes before a path, read backwards. -/
def allowedBefore (b : Option Char) : Bool := b.all beforePath

def PathStarts (b : Option Char) (l : List Char) : Prop := allowedBefore b = true ∧ absolutePath.StartsAt b l

theorem canStart_absolutePath (c : Char) (h : absolutePath.canStart c = true) : c = '/' := by
  simpa [absolutePath, seqs, lit, Pat.canStart, nullable] using h

theorem apart_absolutePath : apart absolutePath = true := by decide

theorem head?_of_absolutePath {b : Option Char} {l : List Char} (h : absolutePath.StartsAt b l) :
    l.head? = some '/' := by
  obtain ⟨u, v, rfl, hm⟩ := h
  obtain ⟨c, t, rfl⟩ := List.exists_cons_of_ne_nil (hm.ne_nil rfl)
  rw [canStart_absolutePath c (hm.canStart rfl)]
  rfl

theorem matches_pathLead {b a : Option Char} {w : List Char} (h : ABSOLUTE_PATH.lead.Matches b w a) :
    w = [] ∧ b = none ∨ ∃ c, w = [c] ∧ beforePath c = true := by
  cases h with
  | left h =>
    cases h
    exact .inl ⟨rfl, rfl⟩
  | right h =>
    cases h with
    | one hc => exact .inr ⟨_, rfl, hc⟩

section
variable {K : List Char → Prop} {b : Option Char} {t t' u v : List Char} {after : Bool}

theorem redact_path {w : List Char} (hf : ABSOLUTE_PATH.find b (w ++ (u ++ v)) = some (w, u)) :
    u ≠ [] ∧ Edge (lastOf b w) u.head? ∧ Whole REDACTED u v := by
  obtain ⟨v₁, hv, -, hm, -⟩ := Pass.find_eq_some hf
  rw [List.append_cancel_left_eq, List.append_cancel_left_eq] at hv
  subst hv
  refine ⟨Pass.find_nonempty hf, edge_of_punctuation (fun c h => ?_) rfl hm, ?_⟩
  · rw [canStart_absolutePath c h]
    decide
  · exact whole_of_openFirst (notInMarker_of_apart apart_absolutePath) (openFirst_of_apart apart_absolutePath) hm

/-- Where no path was found one character earlier, none begins. -/
theorem cut_path (h : ABSOLUTE_PATH.Passed REDACTED K after b t t')
    (hb : after = false → b ≠ none → ¬ PathStarts b t) :
    Cut REDACTED Edge (fun after b l => (after = false → ¬ PathStarts b l) ∧ (after = true → K l))
      after b t t' := by
  induction h with
  | nil => exact .nil
  | @keep after b c t _ hn hK _ ih =>
    refine .keep ⟨fun ha hs => ?_, hK⟩ (ih fun _ _ hs => hn ?_)
    · cases b with
      | none =>
        obtain ⟨-, u, v, huv, hm⟩ := hs
        exact hn ⟨[], u, v, huv, .left .start, hm⟩
      | some d => exact hb ha (Option.some_ne_none d) hs
    · obtain ⟨hc, u, v, rfl, hm⟩ := hs
      exact ⟨[c], u, v, rfl, .right (.one hc), hm⟩
  | @redact after b w u v v' hf _ hK _ ih =>
    obtain ⟨hu, hedge, hwhole⟩ := redact_path hf
    have hrest := ih fun h => Bool.noConfusion h
    obtain ⟨_, -, hw, -⟩ := Pass.find_eq_some hf
    rcases matches_pathLead hw with ⟨rfl, rfl⟩ | ⟨c, rfl, hc⟩
    · show Cut _ _ _ after none (u ++ v) (REDACTED ++ v')
      exact .redact hu hedge hwhole hrest
    · show Cut _ _ _ after b (c :: (u ++ v)) (c :: (REDACTED ++ v'))
      refine .keep ⟨fun _ hs => ?_, hK (List.cons_ne_nil _ _)⟩ (.redact hu hedge hwhole hrest)
      have hslash := head?_of_absolutePath hs.2
      obtain rfl : c = '/' := Option.some.inj hslash
      exact absurd hc (by decide)
  | leave _ hr => cases hr

theorem rule_path : Rule ABSOLUTE_PATH false PathStarts where
  cut hp := (cut_path hp fun _ h => absurd rfl h).mono fun _ _ _ hk => ⟨fun ha => hk.1 (ha rfl), hk.2⟩
  stable b s x y hs hedge h :=
    ⟨h.1, stable_of_openFirst (openFirst_of_apart apart_absolutePath) b s x y hs hedge h.2⟩
  out b m s x hM hne h := notInMarker_of_apart apart_absolutePath b m s x hM hne h.2
  blind := fun h => Bool.noConfusion h
  bares := fun _ l h => by
    obtain ⟨-, u, v, rfl, hm⟩ := h
    exact ⟨REDACTED.dropLast, [']'], u, v, rfl, rfl, .right (.one rfl), hm, rfl⟩
  finds b w u v hw hm _ := by
    refine ⟨?_, u, v, rfl, hm⟩
    rcases matches_pathLead hw with ⟨rfl, rfl⟩ | ⟨c, rfl, hc⟩
    · rfl
    · exact hc

end

/-! ## Encoded runs -/

/-- Where a run begins that looks encoded. -/
def EncodedStarts (b : Option Char) (l : List Char) : Prop :=
  ∃ u v, l = u ++ v ∧ encodedRun.Matches b u v.head? ∧ looksEncoded u = true

theorem matches_encodedRun {b a : Option Char} {u : List Char} (h : encodedRun.Matches b u a) :
    ∃ x y, u = x ++ y ∧ 33 ≤ x.length ∧ (∀ c ∈ x, encodedChar c = true) ∧ ∀ c ∈ y, c = '=' := by
  cases h with
  | @seq _ _ _ x y _ _ hw hx hy =>
    obtain ⟨hlen, hall⟩ := matches_atLeast.mp hx
    exact ⟨x, y, hw, hlen, hall, fun c hc => of_decide_eq_true (hy.of_upTo c hc)⟩

theorem apart_encodedRun : apart encodedRun = true := by decide

theorem encodedChar_of_isWordChar {c : Char} (h : isWordChar c = true) : encodedChar c = true := by
  simp only [isWordChar, Bool.or_eq_true, decide_eq_true_eq] at h
  rcases h with h | rfl
  · simp [encodedChar, alnumOr, h]
  · decide

/-- A run goes on to the left. -/
theorem startsAt_encodedRun_cons {b : Option Char} {c : Char} {t : List Char} (hc : encodedChar c = true)
    (h : encodedRun.StartsAt (some c) t) : encodedRun.StartsAt b (c :: t) := by
  obtain ⟨u, v, rfl, hm⟩ := h
  cases hm with
  | @seq _ _ _ x y _ _ hw hx hy =>
    obtain ⟨hlen, hall⟩ := matches_atLeast.mp hx
    subst hw
    refine ⟨c :: (x ++ y), v, rfl, .seq (u := c :: x) rfl (matches_atLeast.mpr ?_) hy⟩
    exact ⟨Nat.le_succ_of_le hlen, List.forall_mem_cons.mpr ⟨hc, hall⟩⟩

theorem run_upTo_ne_nil {p : Char → Bool} {n : Nat} {b : Option Char} {l : List Char} :
    run (upTo p n) b l ≠ [] := by
  cases n with
  | zero => exact List.cons_ne_nil _ _
  | succ n => exact List.append_ne_nil_of_right_ne_nil _ (List.cons_ne_nil _ _)

section
variable {b : Option Char} {c : Char} {u v x y : List Char}

/-- What is found has every character of the run. -/
theorem found_encodedRun (h : ENCODED_RUN.find b (u ++ v) = some ([], u)) :
    ∃ x y, u = x ++ y ∧ x ≠ [] ∧ (∀ c ∈ x, encodedChar c = true) ∧ (∀ c ∈ y, c = '=') ∧
      ∀ c ∈ (y ++ v).head?, encodedChar c = false := by
  obtain ⟨b', hb'⟩ := head?_run_of_find rfl h
  obtain ⟨z, hz, hend⟩ := head?_run_seq (fun _ _ => run_upTo_ne_nil) hb'
  obtain ⟨x, hx, -, hm⟩ := mem_run.mp (List.mem_of_head? hz)
  obtain ⟨y, hy, -, hy'⟩ := mem_run.mp (List.mem_of_head? hend)
  obtain ⟨hlen, hall⟩ := matches_atLeast.mp hm
  have hu : u = x ++ y := by
    rw [hy, ← List.append_assoc] at hx
    exact List.append_cancel_right hx
  refine ⟨x, y, hu, ?_, hall, fun c hc => of_decide_eq_true (hy'.of_upTo c hc), ?_⟩
  · rintro rfl
    cases hlen
  · rw [← hy]
    exact greedy_atLeast 33 _ _ _ hz

/-- A part of a text that looks encoded lies within the characters of the run. -/
theorem looksEncoded_of_subset (h : looksEncoded u = true) (hlen : 33 ≤ v.length)
    (hsub : ∀ c ∈ u, c ∈ v ∨ c = '=') : looksEncoded v = true := by
  simp only [looksEncoded, Bool.and_eq_true, decide_eq_true_eq, List.any_eq_true] at h ⊢
  obtain ⟨⟨⟨-, d, hd, hd'⟩, e, he, he'⟩, f, hf, hf'⟩ := h
  have key : ∀ c ∈ u, c ≠ '=' → c ∈ v := fun c hc hne => (hsub c hc).resolve_right hne
  refine ⟨⟨⟨hlen, d, key d hd ?_, hd'⟩, e, key e he ?_, he'⟩, f, key f hf ?_, hf'⟩
  · rintro rfl
    exact absurd hd' (by decide)
  · rintro rfl
    exact absurd he' (by decide)
  · rintro rfl
    exact absurd hf' (by decide)

/-- What looks encoded inside of something found makes all of it look encoded. -/
theorem looksEncoded_of_found {w : List Char} (h : ENCODED_RUN.find b (u ++ v) = some ([], u)) (hu : u = w ++ c :: y)
    (hs : EncodedStarts (lastOf b w) (c :: (y ++ v))) : looksEncoded u = true := by
  obtain ⟨x, z, hxz, -, -, hz, hgreedy⟩ := found_encodedRun h
  obtain ⟨u', v', huv, hm, hlooks⟩ := hs
  obtain ⟨x', z', rfl, hlen, hx', hz'⟩ := matches_encodedRun hm
  have hc : encodedChar c = true := by
    obtain ⟨d, x', rfl⟩ := List.exists_cons_of_length_pos (Nat.lt_of_lt_of_le (by decide) hlen)
    obtain ⟨rfl, -⟩ := List.cons.inj huv
    exact hx' c List.mem_cons_self
  have hsub : ∃ s, x = w ++ (x' ++ s) := by
    rw [hxz] at hu
    rcases List.append_eq_append_iff.mp hu with ⟨k, rfl, hk⟩ | ⟨k, rfl, hk⟩
    · -- behind the run there are only equals signs
      have hmem : c ∈ z := hk ▸ List.mem_append_right k List.mem_cons_self
      rw [hz c hmem] at hc
      exact absurd hc (by decide)
    · rw [← List.cons_append, hk, List.append_assoc, List.append_assoc] at huv
      rcases List.append_eq_append_iff.mp huv with ⟨s, rfl, hs⟩ | ⟨s, rfl, hs⟩
      · cases s with
        | nil => exact ⟨[], by rw [List.append_nil, List.append_nil]⟩
        | cons d s =>
          have hd : encodedChar d = false := hgreedy d (by rw [hs]; rfl)
          exact absurd (hx' d (List.mem_append_right k List.mem_cons_self)) (by rw [hd]; exact Bool.false_ne_true)
      · exact ⟨s, rfl⟩
  obtain ⟨s, rfl⟩ := hsub
  refine looksEncoded_of_subset hlooks ?_ fun c hc => ?_
  · rw [hxz]
    simp only [List.length_append]
    omega
  · rcases List.mem_append.mp hc with hc | hc
    · rw [hxz]
      exact .inl (by simp [hc])
    · exact .inr (hz' c hc)

theorem head?_of_encodedRun {a : Option Char} (h : encodedRun.Matches b u a) :
    ∃ c t, u = c :: t ∧ encodedChar c = true := by
  obtain ⟨x, y, rfl, hlen, hx, -⟩ := matches_encodedRun h
  obtain ⟨c, x, rfl⟩ := List.exists_cons_of_length_pos (Nat.lt_of_lt_of_le (by decide) hlen)
  exact ⟨c, x ++ y, rfl, hx c List.mem_cons_self⟩

/-- No run goes on behind one that was found. -/
theorem not_startsAt_behind (h : ENCODED_RUN.find b (u ++ v) = some ([], u)) (hc : lastOf b u = some c)
    (henc : encodedChar c = true) : ¬ encodedRun.StartsAt (lastOf b u) v := by
  obtain ⟨x, y, rfl, hx, -, hy, hgreedy⟩ := found_encodedRun h
  rintro ⟨u', v', rfl, hm⟩
  obtain ⟨d, t, rfl, hd⟩ := head?_of_encodedRun hm
  rcases List.eq_nil_or_concat y with rfl | ⟨y, e, rfl⟩
  · have : encodedChar d = false := hgreedy d rfl
    exact absurd hd (by rw [this]; exact Bool.false_ne_true)
  · have he : e = c := by
      rw [List.concat_eq_append, lastOf_append, lastOf_append] at hc
      exact Option.some.inj hc
    rw [← he, hy e (by simp)] at henc
    exact absurd henc (by decide)

/-- Runs are only found where they begin. -/
theorem cut_encodedRun {K : List Char → Prop} {t t' : List Char} {after : Bool}
    (h : ENCODED_RUN.Passed REDACTED K after b t t')
    (hb : ∀ c, b = some c → encodedChar c = true → ¬ encodedRun.StartsAt b t) :
    Cut REDACTED Edge (fun after b l => ¬ EncodedStarts b l ∧ (after = true → K l)) after b t t' := by
  induction h with
  | nil => exact .nil
  | keep hn hK _ ih =>
    refine .keep ⟨fun ⟨u, v, hl, hm, _⟩ => hn (startsAt_of_body rfl ⟨u, v, hl, hm⟩), hK⟩
      (ih fun c hc henc hs => ?_)
    obtain rfl := Option.some.inj hc
    exact hn (startsAt_of_body rfl (startsAt_encodedRun_cons henc hs))
  | @redact _ b w u v v' hf _ _ _ ih =>
    obtain rfl := lead_eq_nil rfl hf
    have hm : encodedRun.Matches b u v.head? := by
      obtain ⟨v₁, hv, -, hm, -⟩ := Pass.find_eq_some hf
      rw [List.nil_append, List.nil_append, List.append_cancel_left_eq] at hv
      exact hv ▸ hm
    obtain ⟨c, t, hu, hc⟩ := head?_of_encodedRun hm
    rw [List.nil_append, List.nil_append]
    refine .redact (Pass.find_nonempty hf) ⟨fun _ => ?_, c, by rw [hu]; rfl, ?_⟩
      (whole_of_openFirst (notInMarker_of_apart apart_encodedRun) (openFirst_of_apart apart_encodedRun) hm)
      (ih fun c hc henc => not_startsAt_behind hf hc henc)
    · -- a run begins where no word does only behind something else
      cases b with
      | none => rfl
      | some d =>
        cases hd : isWordChar d with
        | false => exact hd
        | true => exact absurd ⟨u, v, rfl, hm⟩ (hb d rfl (encodedChar_of_isWordChar hd))
    · cases hsp : isSpace c with
      | false => rfl
      | true =>
        have key : " \t\n\x0b\x0c\r".toList.all (fun d => !encodedChar d) = true := by decide
        have hnot := List.all_eq_true.mp key c (of_decide_eq_true hsp)
        rw [hc] at hnot
        exact absurd hnot Bool.false_ne_true
  | @leave after b w u v v' hf hr hK _ ih =>
    obtain rfl := lead_eq_nil rfl hf
    rw [List.nil_append, List.nil_append]
    refine Cut.keeps (ih fun c hc henc => not_startsAt_behind hf hc henc) (Pass.find_nonempty hf)
      fun x c y hu => ⟨fun hs => ?_, fun ha => ?_⟩
    · have hlooks := looksEncoded_of_found hf hu hs
      exact absurd (hr.symm.trans hlooks) Bool.false_ne_true
    · cases x with
      | nil =>
        rw [hu, List.nil_append, List.nil_append] at hK
        rw [List.isEmpty_nil, Bool.and_true] at ha
        exact hK ha
      | cons d x =>
        rw [List.isEmpty_cons, Bool.and_false] at ha
        cases ha

theorem rule_encodedRun : Rule ENCODED_RUN true EncodedStarts where
  cut hp := (cut_encodedRun hp nofun).mono fun _ _ _ hk => ⟨fun _ => hk.1, hk.2⟩
  stable := stable_of_matches (openFirst_of_apart apart_encodedRun) fun u => looksEncoded u = true
  out b m s x hM hne := fun ⟨u, v, hl, hm, _⟩ => notInMarker_of_apart apart_encodedRun b m s x hM hne ⟨u, v, hl, hm⟩
  blind := fun _ _ _ _ ⟨u, v, hl, hm, hlooks⟩ => ⟨u, v, hl, hm.of_blind (by decide), hlooks⟩
  bares := fun h => Bool.noConfusion h
  finds b w u v _ hm hr := ⟨u, v, rfl, hm, hr⟩

end

end Claudear.Engine
