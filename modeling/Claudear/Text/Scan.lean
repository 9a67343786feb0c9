import Claudear.Text.Replaced

/-!
# Reading a text from left to right

A `Reader` takes something off the front of a text, or does not. `scan` tries it
at each position and goes on behind what was read; `rewrite` puts other text in
the place of what was read. `replaceText` is the rewriting that reads one text.

`strip`, `takeClass` and `upTo` are the pieces that readers are made of. The
characters that they see are those for which `ch` has one, so that one reader
can be tried on a text and on a text with parts that nothing may be read from.
-/

namespace Claudear.Text

universe u v w

variable {α : Type u} {β : Type v} {γ : Type w}

structure Reader (α : Type u) (β : Type v) where
  read : List α → Option (β × List α)
  takes : ∀ {l b rest}, read l = some (b, rest) → ∃ u, u ≠ [] ∧ l = u ++ rest

namespace Reader

variable (r : Reader α β)

/-- After `skip` more characters, which belong to what was read last. -/
def scanFrom : Nat → List α → List (α ⊕ β)
  | _, [] => []
  | skip + 1, _ :: l => scanFrom skip l
  | 0, c :: l =>
    match r.read (c :: l) with
    | some (b, rest) => .inr b :: scanFrom (l.length - rest.length) l
    | none => .inl c :: scanFrom 0 l

def scan (l : List α) : List (α ⊕ β) := r.scanFrom 0 l

def rewrite (keep : α → List γ) (put : β → List γ) (l : List α) : List γ :=
  (r.scan l).flatMap (Sum.elim keep put)

variable {r} {keep : α → List γ} {put : β → List γ} {c : α} {b : β} {l rest s : List α}

theorem scanFrom_skip : r.scanFrom s.length (s ++ l) = r.scan l := by
  induction s with
  | nil => rfl
  | cons c s ih => exact ih

theorem scan_none (h : r.read (c :: l) = none) : r.scan (c :: l) = .inl c :: r.scan l := by
  rw [scan, scanFrom, h]
  rfl

theorem scan_some (h : r.read l = some (b, rest)) : r.scan l = .inr b :: r.scan rest := by
  obtain ⟨u, hu, rfl⟩ := r.takes h
  obtain ⟨c, t, rfl⟩ := List.exists_cons_of_ne_nil hu
  have hlen : (t ++ rest).length - rest.length = t.length := by
    rw [List.length_append]
    omega
  rw [List.cons_append] at h ⊢
  rw [scan, scanFrom, h]
  show Sum.inr b :: r.scanFrom ((t ++ rest).length - rest.length) (t ++ rest) = _
  rw [hlen, scanFrom_skip]

theorem rewrite_none (h : r.read (c :: l) = none) :
    r.rewrite keep put (c :: l) = keep c ++ r.rewrite keep put l := by
  rw [rewrite, scan_none h]
  rfl

theorem rewrite_some (h : r.read l = some (b, rest)) :
    r.rewrite keep put l = put b ++ r.rewrite keep put rest := by
  rw [rewrite, scan_some h]
  rfl

/-- Induction along a scan: behind what is read, or behind a character where nothing is. -/
theorem induct {motive : List α → Prop} (r : Reader α β) (nil : motive [])
    (none : ∀ c l, r.read (c :: l) = none → motive l → motive (c :: l))
    (some : ∀ l b rest, r.read l = some (b, rest) → motive rest → motive l) (l : List α) : motive l := by
  obtain ⟨n, hn⟩ : ∃ n, l.length ≤ n := ⟨_, Nat.le_refl _⟩
  induction n generalizing l with
  | zero => exact List.eq_nil_of_length_eq_zero (Nat.le_zero.mp hn) ▸ nil
  | succ n ih =>
    cases l with
    | nil => exact nil
    | cons c l =>
      cases h : r.read (c :: l) with
      | none => exact none c l h (ih l (Nat.le_of_succ_le_succ hn))
      | some found =>
        refine some (c :: l) found.1 found.2 h (ih _ ?_)
        obtain ⟨u, hu, hl⟩ := r.takes h
        have hlen := congrArg List.length hl
        have hpos := List.length_pos_of_ne_nil hu
        rw [List.length_append] at hlen
        omega

/-- Where nothing is read at any position of `s`, it is kept. -/
theorem rewrite_append (h : ∀ t, t ≠ [] → t <:+ s → r.read (t ++ l) = none) :
    r.rewrite keep put (s ++ l) = s.flatMap keep ++ r.rewrite keep put l := by
  induction s with
  | nil => rfl
  | cons c s ih =>
    have hc : r.read (c :: (s ++ l)) = none := h (c :: s) (List.cons_ne_nil c s) (List.suffix_refl _)
    rw [List.cons_append, rewrite_none hc, ih fun t ht hs => h t ht (hs.trans (List.suffix_cons c s)), List.flatMap_cons, List.append_assoc]

theorem rewrite_congr {put' : β → List γ} (h : ∀ b, .inr b ∈ r.scan l → put b = put' b) :
    r.rewrite keep put l = r.rewrite keep put' l := by
  apply List.flatMap_congr
  rintro (c | b) hb
  · rfl
  · exact h b hb

theorem flatMap_rewrite {δ : Type*} {f : γ → List δ} : (r.rewrite keep put l).flatMap f =
    r.rewrite (fun c => (keep c).flatMap f) (fun b => (put b).flatMap f) l := by
  rw [rewrite, List.flatMap_assoc]
  apply List.flatMap_congr
  rintro (c | b) -
  · rfl
  · rfl

end Reader

/-! ## Pieces of readers -/

section
variable (ch : α → Option Char)

/-- What follows `token` at the front. -/
def strip : List Char → List α → Option (List α)
  | [], l => some l
  | _ :: _, [] => none
  | c :: token, a :: l => if ch a = some c then strip token l else none

/-- The longest part at the front whose characters satisfy `p`, and what follows. -/
def takeClass (p : Char → Bool) : List α → List Char × List α
  | [] => ([], [])
  | a :: l =>
    match ch a with
    | some c => if p c then let taken := takeClass p l; (c :: taken.1, taken.2) else ([], a :: l)
    | none => ([], a :: l)

/-- The shortest part before `token`, and what follows it. -/
def upTo (token : List Char) : List α → Option (List α × List α)
  | [] => (strip ch token []).map fun rest => ([], rest)
  | a :: l =>
    match strip ch token (a :: l) with
    | some rest => some ([], rest)
    | none => (upTo token l).map fun found => (a :: found.1, found.2)

end

variable {ch : α → Option Char} {p : Char → Bool} {token name : List Char} {l rest body : List α}

theorem strip_eq_some : strip ch token l = some rest ↔ ∃ u, l = u ++ rest ∧ u.map ch = token.map some := by
  induction token generalizing l with
  | nil =>
    rw [strip, Option.some_inj]
    constructor
    · rintro rfl
      exact ⟨[], rfl, rfl⟩
    · rintro ⟨u, rfl, hu⟩
      rw [List.map_eq_nil_iff.mp hu, List.nil_append]
  | cons c token ih =>
    cases l with
    | nil =>
      refine ⟨(fun h => nomatch h), ?_⟩
      rintro ⟨u, hl, hu⟩
      rw [(List.append_eq_nil_iff.mp hl.symm).1] at hu
      exact nomatch hu
    | cons a l =>
      rw [strip]
      split
      · rename_i ha
        rw [ih]
        constructor
        · rintro ⟨u, rfl, hu⟩
          exact ⟨a :: u, rfl, by rw [List.map_cons, List.map_cons, ha, hu]⟩
        · rintro ⟨u, hl, hu⟩
          cases u with
          | nil => exact nomatch hu
          | cons d u =>
            rw [List.cons_append] at hl
            obtain ⟨rfl, rfl⟩ := List.cons.inj hl
            exact ⟨u, rfl, (List.cons.inj hu).2⟩
      · rename_i ha
        refine ⟨(fun h => nomatch h), ?_⟩
        rintro ⟨u, hl, hu⟩
        cases u with
        | nil => exact nomatch hu
        | cons d u =>
          rw [List.cons_append] at hl
          obtain ⟨rfl, rfl⟩ := List.cons.inj hl
          exact absurd (List.cons.inj hu).1 ha

theorem takeClass_eq (h : takeClass ch p l = (name, rest)) :
    ∃ u, l = u ++ rest ∧ u.map ch = name.map some ∧ (∀ c ∈ name, p c = true) ∧
      ∀ a ∈ rest.head?, ∀ c ∈ ch a, p c = false := by
  induction l generalizing name with
  | nil =>
    obtain ⟨rfl, rfl⟩ := Prod.mk.inj h
    exact ⟨[], rfl, rfl, List.forall_mem_nil _, (fun _ ha => nomatch ha)⟩
  | cons a l ih =>
    rw [takeClass] at h
    split at h
    · rename_i c hc
      split at h
      · rename_i hp
        obtain ⟨rfl, hrest⟩ := Prod.mk.inj h
        obtain ⟨u, hl, hu, hall, hhead⟩ := ih (Prod.ext rfl hrest)
        refine ⟨a :: u, by rw [List.cons_append, ← hl], by rw [List.map_cons, List.map_cons, hc, hu], ?_, hhead⟩
        exact List.forall_mem_cons.mpr ⟨hp, hall⟩
      · rename_i hp
        obtain ⟨rfl, rfl⟩ := Prod.mk.inj h
        refine ⟨[], rfl, rfl, List.forall_mem_nil _, ?_⟩
        intro b hb d hd
        obtain rfl : a = b := Option.some.inj hb
        rw [hc] at hd
        obtain rfl := Option.some.inj hd
        exact Bool.eq_false_iff.mpr hp
    · rename_i hc
      obtain ⟨rfl, rfl⟩ := Prod.mk.inj h
      refine ⟨[], rfl, rfl, List.forall_mem_nil _, ?_⟩
      intro b hb d hd
      obtain rfl : a = b := Option.some.inj hb
      rw [hc] at hd
      exact nomatch hd

theorem takeClass_append {u : List α} (hu : u.map ch = name.map some) (hp : ∀ c ∈ name, p c = true)
    (hrest : ∀ a ∈ rest.head?, ∀ c ∈ ch a, p c = false) : takeClass ch p (u ++ rest) = (name, rest) := by
  induction u generalizing name with
  | nil =>
    obtain rfl := List.map_eq_nil_iff.mp hu.symm
    cases rest with
    | nil => rfl
    | cons a rest =>
      rw [List.nil_append, takeClass]
      split
      · rename_i c hc
        rw [if_neg (Bool.eq_false_iff.mp (hrest a rfl c hc))]
      · rfl
  | cons a u ih =>
    cases name with
    | nil => exact nomatch hu
    | cons c name =>
      obtain ⟨ha, hu⟩ := List.cons.inj hu
      obtain ⟨hc, hp⟩ := List.forall_mem_cons.mp hp
      rw [List.cons_append, takeClass, ha]
      show (if p c = true then _ else _) = _
      rw [if_pos hc, ih hu hp]

theorem upTo_eq_some (h : upTo ch token l = some (body, rest)) :
    ∃ u, l = body ++ (u ++ rest) ∧ u.map ch = token.map some := by
  induction l generalizing body with
  | nil =>
    obtain ⟨r, hr, hbody⟩ := Option.map_eq_some_iff.mp h
    obtain ⟨rfl, rfl⟩ := Prod.mk.inj hbody
    exact strip_eq_some.mp hr
  | cons a l ih =>
    rw [upTo] at h
    split at h
    · rename_i r hr
      obtain ⟨rfl, rfl⟩ := Prod.mk.inj (Option.some.inj h)
      exact strip_eq_some.mp hr
    · obtain ⟨⟨b, r⟩, hfound, hbody⟩ := Option.map_eq_some_iff.mp h
      obtain ⟨rfl, rfl⟩ := Prod.mk.inj hbody
      obtain ⟨u, hl, hu⟩ := ih hfound
      exact ⟨u, by rw [hl, List.cons_append], hu⟩

/-- Where the token is somewhere, a first one is found. -/
theorem upTo_isSome {u : List α} (hu : u.map ch = token.map some) : (upTo ch token (body ++ (u ++ rest))).isSome = true := by
  have hhere : strip ch token (u ++ rest) = some rest := strip_eq_some.mpr ⟨u, rfl, hu⟩
  induction body with
  | nil =>
    rw [List.nil_append]
    cases h : u ++ rest with
    | nil | cons a l =>
      rw [h] at hhere
      rw [upTo, hhere]
      rfl
  | cons a body ih =>
    rw [List.cons_append, upTo]
    split
    · rfl
    · rwa [Option.isSome_map]

/-! ## One text -/

/-- Reads `token` and gives `new` for it. -/
def Reader.replacing (token : List Char) (htoken : token ≠ []) (new : List Char) : Reader Char (List Char) where
  read l := (strip some token l).map fun rest => (new, rest)
  takes h := by
    obtain ⟨rest, hrest, heq⟩ := Option.map_eq_some_iff.mp h
    obtain ⟨-, rfl⟩ := Prod.mk.inj heq
    obtain ⟨u, hl, hu⟩ := strip_eq_some.mp hrest
    refine ⟨u, ?_, hl⟩
    rintro rfl
    exact htoken (List.map_eq_nil_iff.mp hu.symm)

theorem strip_some {l rest : List Char} : strip some token l = some rest ↔ l = token ++ rest := by
  rw [strip_eq_some]
  constructor
  · rintro ⟨u, rfl, hu⟩
    rw [List.map_injective_iff.mpr (fun _ _ => Option.some.inj) hu]
  · rintro rfl
    exact ⟨token, rfl, rfl⟩

theorem Reader.replacing_eq_some {htoken : token ≠ []} {new b l rest : List Char} :
    (Reader.replacing token htoken new).read l = some (b, rest) ↔ new = b ∧ l = token ++ rest := by
  show (strip some token l).map _ = _ ↔ _
  rw [Option.map_eq_some_iff]
  constructor
  · rintro ⟨r, hr, heq⟩
    obtain ⟨rfl, rfl⟩ := Prod.mk.inj heq
    exact ⟨rfl, strip_some.mp hr⟩
  · rintro ⟨rfl, hl⟩
    exact ⟨rest, strip_some.mpr hl, rfl⟩

theorem replaceText_eq_rewrite {htoken : token ≠ []} {new l : List Char} :
    replaceText token new l = (Reader.replacing token htoken new).rewrite (fun c => [c]) id l := by
  induction l using (Reader.replacing token htoken new).induct with
  | nil => rfl
  | none c l hread ih =>
    have hp : ¬ token <+: c :: l := by
      rintro ⟨rest, hrest⟩
      exact nomatch hread.symm.trans (Reader.replacing_eq_some.mpr ⟨rfl, hrest.symm⟩)
    rw [Reader.rewrite_none hread, ← ih, replaceText, replaceFrom, if_neg hp]
    rfl
  | some l b rest hread ih =>
    obtain ⟨rfl, rfl⟩ := Reader.replacing_eq_some.mp hread
    rw [Reader.rewrite_some hread, ← ih]
    obtain ⟨e, t, rfl⟩ := List.exists_cons_of_ne_nil htoken
    rw [replaceText, List.cons_append, replaceFrom, if_pos ⟨rest, rfl⟩, List.length_cons, Nat.add_sub_cancel,
      replaceFrom_skip]
    rfl

end Claudear.Text
