import Claudear.Distribution.Balancer
import Claudear.Distribution.Ranking

/-!
# Nobody is pushed over the fair share

As long as a pull request is pending, what is held and placed is less than the
total, and the total is at most the share times the number of developers. So
somebody is under the share, and the least-loaded developer is
(`exists_under`). Every decision therefore goes to somebody under the share,
and that bounds every final load (`load_le_max`).

A roster on which `find` never panics keeps this for all inputs, and no other
does: holding the login that panics is enough (`assign_fair_iff`).
-/

namespace Claudear.Distribution

open Claudear.Data Claudear.Text

namespace Balancer

variable {σ : Type} [LinearOrder σ] [Zero σ] {U : CaseProps} {r : Roster} {loads : List Nat}
  {share : Nat} {d : Developer}

/-! ## Sums and loads -/

theorem sum_modify {i : Nat} (h : i < loads.length) :
    (loads.modify i (· + 1)).sum = loads.sum + 1 := by
  induction loads generalizing i with
  | nil => simp at h
  | cons a loads ih =>
    cases i with
    | zero =>
      simp only [List.modify_zero_cons, List.sum_cons]
      omega
    | succ i =>
      have := ih (i := i) (by simpa using h)
      simp only [List.modify_succ_cons, List.sum_cons]
      omega

theorem getD_modify (i j : Nat) (h : j < loads.length) :
    (loads.modify i (· + 1)).getD j 0 = loads.getD j 0 + if i = j then 1 else 0 := by
  simp only [List.getD_eq_getElem?_getD, List.getElem?_modify, List.getElem?_eq_getElem h,
    Option.getD_some]
  split <;> simp

/-- A sum below the number of entries times the share has an entry below the share. -/
theorem exists_under (h : loads.sum < loads.length * share) :
    ∃ i < loads.length, loads.getD i 0 < share := by
  by_contra hc
  push Not at hc
  have hs : loads.length * share ≤ loads.sum := by
    refine List.card_nsmul_le_sum _ _ fun n hn => ?_
    obtain ⟨i, hi, rfl⟩ := List.getElem_of_mem hn
    have := hc i hi
    rwa [List.getD_eq_getElem?_getD, List.getElem?_eq_getElem hi, Option.getD_some] at this
  omega

theorem total_le_share {total n tolerance : Nat} (hn : 0 < n) :
    total ≤ n * fairShare total n tolerance := by
  unfold fairShare
  have h1 := Nat.div_add_mod (total + n - 1) n
  have h2 := Nat.mod_lt (total + n - 1) hn
  rw [Nat.mul_add]
  omega

/-! ## Rosters on which every lookup is in range -/

variable (hf : ∀ login, r.find U login ≠ none)

theorem index_of_find {login : String} (h : r.find U login = some (some d)) :
    ∃ i < r.developers.length, r.index U login = some (some i) := by
  have hs : (r.developers.findIdx? fun candidate => candidate.login = d.login).isSome := by
    rw [List.findIdx?_isSome, List.any_eq_true]
    exact ⟨d, find_mem h, decide_eq_true rfl⟩
  obtain ⟨i, hi⟩ := Option.isSome_iff_exists.mp hs
  refine ⟨i, ?_, by simp only [Roster.index, h, hi]⟩
  exact (List.findIdx?_eq_some_iff_getElem.mp hi).1

include hf

theorem index_total (login : String) : r.index U login = some none ∨
    ∃ i < r.developers.length, r.index U login = some (some i) := by
  rcases h : r.find U login with _ | _ | d
  · exact absurd h (hf login)
  · exact .inl (by simp only [Roster.index, h])
  · exact .inr (index_of_find h)

omit [LinearOrder σ] [Zero σ] in
theorem firstUnder_total (candidates : List (Candidate σ)) :
    firstUnder U r loads share candidates = some none ∨
      ∃ i < r.developers.length, ∃ c, loads.getD i 0 < share ∧
        firstUnder U r loads share candidates = some (some (i, c)) := by
  induction candidates with
  | nil => exact .inl rfl
  | cons c rest ih =>
    rw [firstUnder]
    rcases index_total hf c.login with h | ⟨i, hi, h⟩
    · rw [h]
      exact ih
    · rw [h]
      by_cases hl : loads.getD i 0 < share
      · exact .inr ⟨i, hi, c, hl, if_pos hl⟩
      · simp only [if_neg hl]
        exact ih

omit [LinearOrder σ] in
theorem scoreAt_total (i : Nat) (candidates : List (Candidate σ)) :
    ∃ s, scoreAt U r i candidates = some s := by
  induction candidates with
  | nil => exact ⟨0, rfl⟩
  | cons c rest ih =>
    have hi : ∃ found, r.index U c.login = some found := by
      rcases index_total hf c.login with h | ⟨j, -, h⟩
      · exact ⟨none, h⟩
      · exact ⟨some j, h⟩
    obtain ⟨found, hi⟩ := hi
    rw [scoreAt, hi]
    by_cases he : found = some i
    · exact ⟨c.score, if_pos he⟩
    · simp only [if_neg he]
      exact ih

theorem lessLoaded_total (loads : List Nat) (candidates : List (Candidate σ)) (left right : Nat) :
    ∃ i, (i = left ∨ i = right) ∧ lessLoaded U r loads candidates left right = some i ∧
      loads.getD i 0 ≤ loads.getD left 0 ∧ loads.getD i 0 ≤ loads.getD right 0 := by
  unfold lessLoaded
  by_cases h1 : loads.getD left 0 < loads.getD right 0
  · exact ⟨left, .inl rfl, if_pos h1, le_refl _, h1.le⟩
  · by_cases h2 : loads.getD right 0 < loads.getD left 0
    · exact ⟨right, .inr rfl, by rw [if_neg h1, if_pos h2], h2.le, le_refl _⟩
    · obtain ⟨sr, hr⟩ := scoreAt_total hf right candidates
      obtain ⟨sl, hl⟩ := scoreAt_total hf left candidates
      refine ⟨if sr ≤ sl then left else right, ?_, ?_, ?_⟩
      · split
        · exact .inl rfl
        · exact .inr rfl
      · rw [if_neg h1, if_neg h2, hr, hl]
        rfl
      · split <;> omega

/-- The fold of `min_by` keeps a position with the least load met so far. -/
theorem foldlM_lessLoaded (loads : List Nat) (candidates : List (Candidate σ)) (rest : List Nat) (first : Nat) :
    ∃ i ∈ first :: rest, rest.foldlM (lessLoaded U r loads candidates) first = some i ∧
      ∀ j ∈ first :: rest, loads.getD i 0 ≤ loads.getD j 0 := by
  induction rest generalizing first with
  | nil => exact ⟨first, List.mem_cons_self, rfl, by simp⟩
  | cons next rest ih =>
    obtain ⟨m, hm, hl, h1, h2⟩ := lessLoaded_total hf loads candidates first next
    obtain ⟨i, hi, hr, hmin⟩ := ih m
    have him := hmin m List.mem_cons_self
    refine ⟨i, ?_, ?_, fun j hj => ?_⟩
    · rcases List.mem_cons.mp hi with rfl | hi
      · rcases hm with rfl | rfl <;> simp
      · exact List.mem_cons_of_mem _ (List.mem_cons_of_mem _ hi)
    · rw [List.foldlM_cons, hl]
      exact hr
    · rcases List.mem_cons.mp hj with rfl | hj
      · omega
      · rcases List.mem_cons.mp hj with rfl | hj
        · omega
        · exact hmin j (List.mem_cons_of_mem _ hj)

theorem leastLoaded_total (candidates : List (Candidate σ)) (h : 0 < loads.length) :
    ∃ i < loads.length, leastLoaded U r loads candidates = some i ∧
      ∀ j < loads.length, loads.getD i 0 ≤ loads.getD j 0 := by
  unfold leastLoaded
  cases hr : List.range loads.length with
  | nil =>
    rw [List.range_eq_nil] at hr
    omega
  | cons first rest =>
    obtain ⟨i, hi, hl, hmin⟩ := foldlM_lessLoaded hf loads candidates rest first
    rw [← hr] at hi hmin
    exact ⟨i, List.mem_range.mp hi, hl, fun j hj => hmin j (List.mem_range.mpr hj)⟩

/-- Whoever is chosen is under the share, by the fallback too. -/
theorem choose_total (item : Pending σ) (hl : loads.length = r.developers.length)
    (hs : loads.sum < loads.length * share) :
    ∃ i < r.developers.length, ∃ reason score, loads.getD i 0 < share ∧
      choose U r loads share item = some (i, reason, score) := by
  unfold choose
  rcases firstUnder_total hf item.candidates with h | ⟨i, hi, c, hu, h⟩
  · obtain ⟨j, hj, hju⟩ := exists_under hs
    have hpos : 0 < loads.length := by omega
    obtain ⟨i, hi, hleast, hmin⟩ := leastLoaded_total hf item.candidates hpos
    obtain ⟨s, hs⟩ := scoreAt_total hf i item.candidates
    refine ⟨i, by omega, .load, s, lt_of_le_of_lt (hmin j hj) hju, ?_⟩
    rw [h]
    simp only [Option.bind_eq_bind, Option.bind_some, hleast, hs]
    rfl
  · refine ⟨i, hi, c.reason, c.score, hu, ?_⟩
    rw [h]
    rfl

/-! ## One placement after another -/

omit hf

variable (U) in
/-- The pull requests among `held` that the developer holds. -/
def startLoad (r : Roster) (held : List String) (d : Developer) : Nat :=
  held.countP fun login => r.find U login = some (some d)

/-- The decisions that name the developer. -/
def assigned (decisions : List (Decision σ)) (d : Developer) : Nat :=
  decisions.countP fun decision => decision.assignee = d.login

variable {held : List String} (hn : (r.developers.map Developer.login).Nodup)

include hn

theorem position_inj {i j : Nat} {d' : Developer} (hi : r.developers[i]? = some d)
    (hj : r.developers[j]? = some d') : i = j ↔ d.login = d'.login := by
  constructor
  · rintro rfl
    rw [Option.some.inj (hi.symm.trans hj)]
  · intro he
    have hl : i < (r.developers.map Developer.login).length := by
      rw [List.length_map]
      exact (List.getElem?_eq_some_iff.mp hi).1
    refine (List.getElem?_inj hl hn).mp ?_
    rw [List.getElem?_map, List.getElem?_map, hi, hj, Option.map_some, Option.map_some, he]

/-- A login is found at the position of its developer. -/
theorem index_eq {i : Nat} {login : String} (h : r.index U login = some (some i)) :
    ∃ d, r.developers[i]? = some d ∧ r.find U login = some (some d) := by
  unfold Roster.index at h
  rcases hd : r.find U login with _ | _ | d
  · rw [hd] at h
    cases h
  · rw [hd] at h
    cases h
  · simp only [hd, Option.some.injEq] at h
    obtain ⟨hlt, he, -⟩ := List.findIdx?_eq_some_iff_getElem.mp h
    have hi : r.developers[i]? = some r.developers[i] := List.getElem?_eq_getElem hlt
    have hm := List.inj_on_of_nodup_map hn (List.mem_of_getElem? hi) (find_mem hd)
      (of_decide_eq_true he)
    exact ⟨d, hm ▸ hi, rfl⟩

include hf in
theorem hold_spec (hl : loads.length = r.developers.length) (login : String) :
    ∃ loads', hold U r loads login = some loads' ∧ loads'.length = loads.length ∧
      ∀ i d, r.developers[i]? = some d → loads'.getD i 0 =
        loads.getD i 0 + if r.find U login = some (some d) then 1 else 0 := by
  rcases index_total hf login with h | ⟨i, hi, h⟩
  · refine ⟨loads, by rw [hold, h], rfl, fun i d _ => ?_⟩
    rw [if_neg, Nat.add_zero]
    intro hd
    obtain ⟨j, -, hj⟩ := index_of_find hd
    rw [h] at hj
    cases hj
  · obtain ⟨d, hd, hfd⟩ := index_eq hn h
    refine ⟨loads.modify i (· + 1), by rw [hold, h], List.length_modify .., fun j d' hd' => ?_⟩
    have hj := (List.getElem?_eq_some_iff.mp hd').1
    rw [getD_modify i j (by omega), hfd]
    by_cases he : i = j
    · cases he
      rw [Option.some.inj (hd.symm.trans hd'), if_pos rfl, if_pos rfl]
    · rw [if_neg he, if_neg]
      intro hs
      cases hs
      exact he ((position_inj hn hd hd').mpr rfl)

include hf in
theorem foldlM_hold_spec (held : List String) (hl : loads.length = r.developers.length) :
    ∃ loads', held.foldlM (hold U r) loads = some loads' ∧
      loads'.length = r.developers.length ∧
      ∀ i d, r.developers[i]? = some d →
        loads'.getD i 0 = loads.getD i 0 + startLoad U r held d := by
  induction held generalizing loads with
  | nil => exact ⟨loads, rfl, hl, fun _ _ _ => rfl⟩
  | cons login held ih =>
    obtain ⟨m, hm, hml, hmd⟩ := hold_spec hf hn hl login
    obtain ⟨l, hll, hlen, hld⟩ := ih (hml.trans hl)
    refine ⟨l, ?_, hlen, fun i d hd => ?_⟩
    · rw [List.foldlM_cons, hm]
      exact hll
    · rw [hld i d hd, hmd i d hd, startLoad, startLoad, List.countP_cons]
      simp only [decide_eq_true_eq]
      omega

include hf in
theorem place_spec (items : List (Pending σ)) (hl : loads.length = r.developers.length)
    (hs : loads.sum + items.length ≤ loads.length * share) :
    ∃ decisions, place U r share loads items = some decisions ∧
      decisions.map Decision.key = items.map Pending.key ∧
      (∀ decision ∈ decisions, ∃ d ∈ r.developers, d.login = decision.assignee) ∧
      ∀ before decision after, decisions = before ++ decision :: after →
        ∀ i d, r.developers[i]? = some d → d.login = decision.assignee →
          loads.getD i 0 + assigned before d < share := by
  induction items generalizing loads with
  | nil => exact ⟨[], rfl, rfl, by simp, by simp⟩
  | cons item rest ih =>
    rw [List.length_cons] at hs
    have hlt : loads.sum < loads.length * share := by omega
    obtain ⟨i, hi, reason, score, hu, hc⟩ := choose_total hf item hl hlt
    have hd : r.developers[i]? = some r.developers[i] := List.getElem?_eq_getElem hi
    have hs' : (loads.modify i (· + 1)).sum + rest.length ≤
        (loads.modify i (· + 1)).length * share := by
      rw [sum_modify (by omega), List.length_modify]
      omega
    obtain ⟨decisions, hp, hk, ha, hb⟩ := ih ((List.length_modify ..).trans hl) hs'
    refine ⟨⟨item.key, r.developers[i].login, reason, score⟩ :: decisions, ?_, ?_, ?_, ?_⟩
    · rw [place, hc]
      simp only [Option.bind_eq_bind, Option.bind_some, hd, hp]
      rfl
    · rw [List.map_cons, List.map_cons, hk]
    · exact List.forall_mem_cons.mpr ⟨⟨_, List.mem_of_getElem? hd, rfl⟩, ha⟩
    · intro before decision after he j d hj hlogin
      cases before with
      | nil =>
        obtain ⟨rfl, -⟩ := List.cons.inj he
        rw [← (position_inj hn hj hd).mpr hlogin] at hu
        exact hu
      | cons first before =>
        obtain ⟨rfl, hrest⟩ := List.cons.inj he
        have h := hb before decision after hrest j d hj hlogin
        rw [getD_modify i j (by have := (List.getElem?_eq_some_iff.mp hj).1; omega)] at h
        rw [assigned, List.countP_cons]
        simp only [decide_eq_true_eq, ← position_inj hn hd hj]
        rw [assigned] at h
        omega

omit hn

omit [LinearOrder σ] [Zero σ] in
/-- If every decision for the developer is made under the share, their final load is at most the
share or what it was. -/
theorem load_le_max {decisions : List (Decision σ)} {start : Nat}
    (h : ∀ before decision after, decisions = before ++ decision :: after →
      d.login = decision.assignee → start + assigned before d < share) :
    start + assigned decisions d ≤ max start share := by
  induction decisions using List.reverseRecOn with
  | nil => exact le_max_left _ _
  | append_singleton decisions decision ih =>
    rw [assigned, List.countP_append, List.countP_singleton]
    by_cases hd : decision.assignee = d.login
    · have hlt := h decisions decision [] rfl hd.symm
      rw [assigned] at hlt
      rw [if_pos (decide_eq_true hd)]
      exact le_max_of_le_right (by omega)
    · rw [if_neg (by simpa using hd)]
      refine ih fun before decision' after he hl => ?_
      refine h before decision' (after ++ [decision]) ?_ hl
      rw [he, List.append_assoc, List.cons_append]

/-- Every key once and nobody but developers on the roster; every decision for somebody who is
under the share by then, so no final load is above both the share and the load at the start. -/
structure Fair (U : CaseProps) (r : Roster) (tolerance : Nat) (pending : List (Pending σ))
    (held : List String) (decisions : List (Decision σ)) : Prop where
  keys : (decisions.map Decision.key).Perm (pending.map Pending.key)
  assignees : ∀ decision ∈ decisions, ∃ d ∈ r.developers, d.login = decision.assignee
  under : ∀ before decision after, decisions = before ++ decision :: after →
    ∀ d ∈ r.developers, d.login = decision.assignee →
      startLoad U r held d + assigned before d <
        fairShare ((r.developers.map (startLoad U r held)).sum + pending.length)
          r.developers.length tolerance
  loads : ∀ d ∈ r.developers, startLoad U r held d + assigned decisions d ≤
    max (startLoad U r held d)
      (fairShare ((r.developers.map (startLoad U r held)).sum + pending.length)
        r.developers.length tolerance)

include hf hn in
theorem assign_fair (hr : r.developers ≠ []) (tolerance : Nat) (pending : List (Pending σ))
    (held : List String) :
    ∃ decisions, assign U r tolerance pending held = some decisions ∧
      Fair U r tolerance pending held decisions := by
  obtain ⟨loads, hl, hlen, hld⟩ := foldlM_hold_spec hf hn held
    (List.length_replicate (n := r.developers.length) (a := 0))
  have hloads : loads = r.developers.map (startLoad U r held) := by
    refine List.ext_getElem (by simpa using hlen) fun i h1 h2 => ?_
    have hi : i < r.developers.length := by omega
    have h := hld i _ (List.getElem?_eq_getElem hi)
    simp only [List.getD_eq_getElem?_getD, List.getElem?_eq_getElem h1, Option.getD_some,
      List.getElem?_replicate, if_pos hi, Nat.zero_add] at h
    rw [List.getElem_map, h]
  have hpos : 0 < r.developers.length := List.length_pos_iff.mpr hr
  have hsorted : (pending.mergeSort (byKey sortKey)).length = pending.length :=
    List.length_mergeSort _
  have hs : loads.sum + (pending.mergeSort (byKey sortKey)).length ≤ loads.length *
      fairShare (loads.sum + pending.length) r.developers.length tolerance := by
    rw [hsorted, hlen]
    exact total_le_share hpos
  obtain ⟨decisions, hp, hk, ha, hb⟩ := place_spec hf hn (pending.mergeSort (byKey sortKey)) hlen hs
  have hu : ∀ before decision after, decisions = before ++ decision :: after →
      ∀ d ∈ r.developers, d.login = decision.assignee → startLoad U r held d + assigned before d <
        fairShare (loads.sum + pending.length) r.developers.length tolerance := by
    intro before decision after he d hd hlogin
    obtain ⟨i, hi⟩ := List.mem_iff_getElem?.mp hd
    have h := hb before decision after he i d hi hlogin
    rw [hld i d hi, List.getD_eq_getElem?_getD, List.getElem?_replicate,
      if_pos (List.getElem?_eq_some_iff.mp hi).1, Option.getD_some, Nat.zero_add] at h
    exact h
  refine ⟨decisions, ?_, ?_, ha, ?_, ?_⟩
  · rw [assign, if_neg hr, hl]
    exact hp
  · rw [hk]
    exact (List.mergeSort_perm pending _).map _
  · rw [← hloads]
    exact hu
  · rw [← hloads]
    exact fun d hd => load_le_max fun before decision after he hlogin =>
      hu before decision after he d hd hlogin

/-- A held login that panics leaves no decisions. -/
theorem assign_of_panic {login : String} (hr : r.developers ≠ []) (h : r.find U login = none)
    (tolerance : Nat) (pending : List (Pending σ)) :
    assign U r tolerance pending [login] = none := by
  have hi : r.index U login = none := by rw [Roster.index, h]
  rw [assign, if_neg hr, List.foldlM_cons, hold, hi]
  rfl

/-- The balancer keeps to the fair share for all inputs exactly on rosters on which no login is
looked up past the end of the developers. -/
theorem assign_fair_iff (U : CaseProps) (σ : Type) [LinearOrder σ] [Zero σ]
    (entries : List Entry) (hr : (Roster.fromEntries U entries).developers ≠ []) :
    (∀ (tolerance : Nat) (pending : List (Pending σ)) (held : List String),
      (pending.map Pending.key).Nodup →
        ∃ decisions, assign U (Roster.fromEntries U entries) tolerance pending held =
            some decisions ∧
          Fair U (Roster.fromEntries U entries) tolerance pending held decisions) ↔
      ∀ login, (Roster.fromEntries U entries).find U login ≠ none := by
  constructor
  · intro h login hn
    obtain ⟨decisions, hd, -⟩ := h 0 [] [login] List.nodup_nil
    rw [assign_of_panic hr hn] at hd
    cases hd
  · intro hf tolerance pending held _
    refine assign_fair hf ?_ hr tolerance pending held
    refine List.Nodup.of_map (toLowercase U) ?_
    rw [List.map_map]
    exact nodup_logins entries

def amyAndBob : List Entry := [twoLogins, Roster.developerEntry (Developer.new "bob")]

theorem sorted_amyAndBob : Roster.sorted caseless amyAndBob = amyAndBob := by
  refine List.mergeSort_of_pairwise ?_
  decide +kernel

theorem find_amyAndBob (login : String) :
    (Roster.fromEntries caseless amyAndBob).find caseless login ≠ none := by
  refine find_ne_none (consistent_iff.mpr ?_).1 login
  have hturns : turnsOf caseless amyAndBob =
      [⟨twoLogins, true⟩, ⟨Roster.developerEntry (Developer.new "bob"), true⟩] := by
    rw [turnsOf, sorted_amyAndBob, amyAndBob, turns, if_neg List.not_mem_nil, turns, if_neg (by decide +kernel), turns]
  rw [hturns]
  exact ⟨by decide +kernel, by decide +kernel, trivial⟩

/-- Amy wrote what both change. -/
def amysWork : List (Pending Nat) := [⟨"pr-1", [⟨"amy", 40, .codeOwner⟩]⟩, ⟨"pr-2", [⟨"amy", 20, .author⟩]⟩]

/-- A third pull request is held under another of her logins. -/
theorem assign_fair_iff_two :
    ∃ decisions, assign caseless (Roster.fromEntries caseless amyAndBob) 1 amysWork ["amy-alt"] =
        some decisions ∧
      Fair caseless (Roster.fromEntries caseless amyAndBob) 1 amysWork ["amy-alt"] decisions := by
  refine (assign_fair_iff caseless Nat amyAndBob ?_).mpr find_amyAndBob 1 _ _ (by decide)
  rw [Roster.fromEntries, sorted_amyAndBob]
  decide +kernel

/-- On the roster of one login spelled twice, a pull request held under it leaves the pending one
without a decision. -/
theorem respelled_login_unassigned :
    (Roster.fromEntries caseless respelled).developers ≠ [] ∧
      ¬ ∃ decisions, assign caseless (Roster.fromEntries caseless respelled) 0
            [(⟨"pr-1", []⟩ : Pending Nat)] ["amy"] = some decisions ∧
        Fair caseless (Roster.fromEntries caseless respelled) 0 [⟨"pr-1", []⟩] ["amy"]
          decisions := by
  have hr : (Roster.fromEntries caseless respelled).developers ≠ [] := by
    rw [Roster.fromEntries, sorted_respelled]
    decide +kernel
  refine ⟨hr, ?_⟩
  rintro ⟨decisions, hd, -⟩
  rw [assign_of_panic hr find_respelled] at hd
  cases hd

end Balancer

end Claudear.Distribution
