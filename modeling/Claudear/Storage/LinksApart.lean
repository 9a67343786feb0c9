import Claudear.Storage.PrLinks
import Claudear.Text.Delimited
import Claudear.Text.Replaced

/-!
# Telling the links apart

What the readers of `PrUrl` make of the links of `PrLinks`: a page names the
host once and has one colon, so each pattern can begin at one place; what is
taken for the path of a page ends where the host is named again.
-/

namespace Claudear.Storage

open Claudear.Text

/-! ## Pages -/

section
variable {path rest repo t : List Char}

/-- What is taken for the path: it ends where the host is named again. -/
def upToHost (path : List Char) : List Char := ((splitOnce "github.com/".toList path).map Prod.fst).getD path

theorem host_ne_nil : "github.com/".toList ≠ [] := by decide

theorem upToHost_eq_self (h : ¬ "github.com/".toList <:+: path) : upToHost path = path := by
  unfold upToHost
  rw [(splitOnce_eq_none host_ne_nil).mpr h]
  rfl

theorem exists_upToHost (path : List Char) :
    (¬ "github.com/".toList <:+: path) ∧ upToHost path = path ∨
      ∃ rest, path = upToHost path ++ ("github.com/".toList ++ rest) := by
  by_cases h : "github.com/".toList <:+: path
  · cases hsplit : splitOnce "github.com/".toList path with
    | none => exact absurd h ((splitOnce_eq_none host_ne_nil).mp hsplit)
    | some m =>
      obtain ⟨a, b⟩ := m
      refine .inr ⟨b, ?_⟩
      unfold upToHost
      rw [hsplit]
      exact (splitOnce_some host_ne_nil hsplit).1
  · exact .inl ⟨h, upToHost_eq_self h⟩

theorem upToHost_isPrefix (path : List Char) : upToHost path <+: path := by
  rcases exists_upToHost path with ⟨-, heq⟩ | ⟨rest, heq⟩
  · rw [heq]
  · exact ⟨_, heq.symm⟩

theorem afterHost_page (hquery : '?' ∉ path) (hfragment : '#' ∉ path) :
    afterHost (String.ofList (page path)) = some (upToHost path) := by
  have hsplit : splitOnce "github.com/".toList (page path) = some ("https://".toList, path) :=
    splitOnce_first (by decide)
  have htext : (String.ofList (page path)).toList = page path := String.toList_ofList
  unfold afterHost
  rw [htext, hsplit, Option.map_some]
  congr 1
  refine List.takeWhile_eq_self_iff.mpr fun c hc => ?_
  have hmem : c ∈ path := (upToHost_isPrefix path).subset hc
  simp only [decide_eq_true_eq]
  exact ⟨fun h => hquery (h ▸ hmem), fun h => hfragment (h ▸ hmem)⟩

/-! ### The first pattern -/

theorem prUrlAt_of_ne {c : Char} {l : List Char} (h : c ≠ 'g') : prUrlAt (c :: l) = none := by
  rw [Option.eq_none_iff_forall_ne_some]
  rintro ⟨repo, number⟩ hsome
  obtain ⟨owner, name, rest, heq, -⟩ := prUrlAt_eq_some.mp hsome
  exact h (List.cons.inj heq).1

theorem findSome?_prUrlAt_page : (page path).tails.findSome? prUrlAt =
    (prUrlAt ("github.com/".toList ++ path)).or (path.tails.findSome? prUrlAt) := by
  have hscheme : ∀ c ∈ "https://".toList, c ≠ 'g' := forall_of_all (by decide)
  have hhost : ∀ c ∈ "ithub.com/".toList, c ≠ 'g' := forall_of_all (by decide)
  have hcons : "github.com/".toList = 'g' :: "ithub.com/".toList := by decide
  have hfirst : (page path).tails.findSome? prUrlAt = ("github.com/".toList ++ path).tails.findSome? prUrlAt :=
    findSome?_tails_skip fun c hc l => prUrlAt_of_ne (hscheme c hc)
  have hsecond : ("ithub.com/".toList ++ path).tails.findSome? prUrlAt = path.tails.findSome? prUrlAt :=
    findSome?_tails_skip fun c hc l => prUrlAt_of_ne (hhost c hc)
  rw [hfirst, hcons, List.cons_append, findSome?_tails_cons, hsecond]

theorem prUrlAt_of_not_infix (h : ¬ "github.com/".toList <:+: path) (ht : t <:+ path) : prUrlAt t = none := by
  rw [Option.eq_none_iff_forall_ne_some]
  rintro ⟨repo, number⟩ hsome
  obtain ⟨owner, name, rest, rfl, -⟩ := prUrlAt_eq_some.mp hsome
  exact h ((List.prefix_append _ _).isInfix.trans ht.isInfix)

/-! ### The second pattern -/

theorem mrUrlAt_eq_none (h : ¬ "https://".toList <+: t ∧ ¬ "http://".toList <+: t) : mrUrlAt t = none := by
  have hmiss : ∀ p : List Char, ¬ p <+: t → p.isPrefixOf? t = none := by
    intro p hp
    rw [Option.eq_none_iff_forall_ne_some]
    exact fun s hs => hp ⟨s, List.append_eq_of_isPrefixOf?_eq_some hs⟩
  unfold mrUrlAt
  rw [hmiss _ h.1, hmiss _ h.2]
  rfl

theorem mrUrlAt_of_not_mem (h : ':' ∉ t) : mrUrlAt t = none :=
  mrUrlAt_eq_none ⟨fun hp => h (hp.subset (by decide)), fun hp => h (hp.subset (by decide))⟩

theorem mrUrlAt_of_ne {c : Char} {l : List Char} (h : c ≠ 'h') : mrUrlAt (c :: l) = none := by
  refine mrUrlAt_eq_none ⟨?_, ?_⟩
  · rintro ⟨s, hs⟩
    exact h (List.cons.inj hs).1.symm
  · rintro ⟨s, hs⟩
    exact h (List.cons.inj hs).1.symm

theorem mrUrlAt_page : mrUrlAt (page path) = mrProject path := by
  have hstrip : "https://".toList.isPrefixOf? (page path) = some ("github.com/".toList ++ path) :=
    List.isPrefixOf?_eq_some_iff_append_eq.mpr rfl
  have hhost : "github.com/".toList = "github.com".toList ++ ['/'] := by decide
  have hsegment : segment ("github.com/".toList ++ path) = some ("github.com".toList, path) := by
    refine segment_eq_some.mpr ⟨?_, by decide, by decide⟩
    rw [hhost, List.append_assoc]
    rfl
  unfold mrUrlAt
  rw [hstrip, Option.orElse_eq_orElse, Option.orElse_some, Option.bind_eq_bind, Option.bind_some, hsegment]
  rfl

/-- A page has one colon, so the pattern can only begin with the scheme. -/
theorem findSome?_mrUrlAt_page (h : ':' ∉ path) : (page path).tails.findSome? mrUrlAt = mrProject path := by
  have hpage : page path = 'h' :: (['t', 't', 'p', 's', ':'] ++
      (['/', '/', 'g', 'i', 't', 'h', 'u', 'b', '.', 'c', 'o', 'm', '/'] ++ path)) := by
    unfold page
    rw [String.toList_ofList, String.toList_ofList]
    rfl
  have hletters : ∀ c ∈ ['t', 't', 'p', 's', ':'], c ≠ 'h' := forall_of_all (by decide)
  have hrest : (['/', '/', 'g', 'i', 't', 'h', 'u', 'b', '.', 'c', 'o', 'm', '/'] ++ path).tails.findSome? mrUrlAt =
      none := by
    refine findSome?_tails_eq_none.mpr fun t ht => mrUrlAt_of_not_mem fun hc => ?_
    rcases List.mem_append.mp (ht.subset hc) with hc | hc
    · exact absurd hc (by decide)
    · exact h hc
  rw [← mrUrlAt_page, hpage, findSome?_tails_cons, findSome?_tails_skip fun c hc l => mrUrlAt_of_ne (hletters c hc), hrest,
    Option.or_none]

/-! ### What is read -/

theorem noNumber_iff {P : List Char → List Char → Prop} {f : List Char → Option (List Char)} {l : List Char}
    (hf : ∀ t number, f t = some number ↔ P t number) :
    NoNumber P l ↔ (l.tails.findSome? f).bind parseI64 = none := by
  rw [bind_findSome?_tails_eq_none]
  simp only [NoNumber, ← hf, Option.isSome_iff_exists]

/-- Where the first pattern finds nothing, the first number behind the marker decides. -/
theorem parsePrUrl_page_eq_none (hcolon : ':' ∉ path) (hline : '\n' ∉ path) (hne : path ≠ [])
    (hslash : path.head? ≠ some '/') (hsize : (String.ofList (page path)).utf8ByteSize ≤ maxPrUrlLength)
    (hpull : (page path).tails.findSome? prUrlAt = none) :
    parsePrUrl (String.ofList (page path)) = none ↔ NoNumber MergeText path := by
  have htext : (String.ofList (page path)).toList = page path := String.toList_ofList
  have hfirst : (mrMarker.isPrefixOf? path >>= digits) = none := by
    rw [Option.eq_none_iff_forall_ne_some]
    intro number hsome
    obtain ⟨rest, rfl, -⟩ := mergeAt_eq_some.mp hsome
    exact hslash rfl
  rw [noNumber_iff fun t number => mergeAt_eq_some]
  unfold parsePrUrl
  rw [if_neg (Nat.not_lt.mpr hsize), htext, hpull, findSome?_mrUrlAt_page hcolon]
  cases path with
  | nil => exact absurd rfl hne
  | cons c path =>
    rw [findSome?_tails_cons, hfirst, Option.none_or, ← mrProject_number hline]
    cases mrProject (c :: path) with
    | none => exact iff_of_true rfl rfl
    | some m => exact Option.map_eq_none_iff

/-- Both ways in which an intent is read. -/
theorem parsePrIntentUrl_some {url : String} {repo head : String} {base : Option String}
    (h : parsePrIntentUrl url = some ⟨repo, head, base⟩) (hpath : afterHost url = some path) :
    url.utf8ByteSize ≤ maxPrUrlLength ∧
      ((base = none ∧ ∃ r t, splitOnce "/pull/new/".toList path = some (r, t) ∧ String.ofList r = repo ∧
          String.ofList (trimSlashes t) = head) ∨
        splitOnce "/pull/new/".toList path = none ∧ ∃ r t b e, splitOnce "/compare/".toList path = some (r, t) ∧
          isRepoPath r = true ∧
          (splitOnce "...".toList (trimSlashes t) <|> splitOnce "..".toList (trimSlashes t)) = some (b, e) ∧
          String.ofList r = repo ∧ String.ofList e = head ∧ some (String.ofList b) = base) := by
  unfold parsePrIntentUrl at h
  split at h
  · cases h
  · rename_i hsize
    refine ⟨Nat.not_lt.mp hsize, ?_⟩
    rw [hpath, Option.bind_eq_bind, Option.bind_some] at h
    split at h
    · rename_i r t hsplit
      dsimp only at h
      split at h
      · cases h
        exact .inl ⟨rfl, r, t, hsplit, rfl, rfl⟩
      · cases h
    · rename_i hsplit
      obtain ⟨⟨r, t⟩, hcompare, h⟩ := Option.bind_eq_some_iff.mp h
      dsimp only at h
      split at h
      · rename_i hrepo
        obtain ⟨⟨b, e⟩, hspec, h⟩ := Option.bind_eq_some_iff.mp h
        dsimp only at h
        split at h
        · cases h
        · cases h
          exact .inr ⟨hsplit, r, t, b, e, hcompare, hrepo, hspec, rfl, rfl, rfl⟩
      · cases h

theorem parsePrIntentUrl_new {url : String} {head : List Char} (hsize : url.utf8ByteSize ≤ maxPrUrlLength)
    (hpath : afterHost url = some path) (hsplit : splitOnce "/pull/new/".toList path = some (repo, head))
    (hrepo : isRepoPath repo = true) (hne : head ≠ []) (hlast : head.getLast? ≠ some '/') :
    parsePrIntentUrl url = some ⟨String.ofList repo, String.ofList head, none⟩ := by
  unfold parsePrIntentUrl
  rw [if_neg (Nat.not_lt.mpr hsize), hpath, Option.bind_eq_bind, Option.bind_some, hsplit]
  dsimp only
  rw [trimSlashes_eq_self hlast, if_pos ⟨hrepo, hne⟩]

theorem parsePrIntentUrl_compare {url : String} {base head : List Char} (hsize : url.utf8ByteSize ≤ maxPrUrlLength)
    (hpath : afterHost url = some path) (hnew : ¬ "/pull/new/".toList <:+: path)
    (hsplit : splitOnce "/compare/".toList path = some (repo, base ++ ("...".toList ++ head)))
    (hrepo : isRepoPath repo = true) (hbase : base ≠ []) (hhead : head ≠ []) (hlast : head.getLast? ≠ some '/')
    (hdots : ¬ "...".toList <:+: base ++ "..".toList) :
    parsePrIntentUrl url = some ⟨String.ofList repo, String.ofList head, some (String.ofList base)⟩ := by
  have hnone : splitOnce "/pull/new/".toList path = none := (splitOnce_eq_none (by decide)).mpr hnew
  have htrim : trimSlashes (base ++ ("...".toList ++ head)) = base ++ ("...".toList ++ head) := by
    refine trimSlashes_eq_self ?_
    rwa [← List.append_assoc, List.getLast?_append_of_ne_nil _ hhead]
  have hspec : splitOnce "...".toList (base ++ ("...".toList ++ head)) = some (base, head) := splitOnce_first hdots
  unfold parsePrIntentUrl
  rw [if_neg (Nat.not_lt.mpr hsize), hpath, Option.bind_eq_bind, Option.bind_some, hnone]
  dsimp only
  rw [hsplit, Option.bind_eq_bind, Option.bind_some]
  dsimp only
  rw [if_pos hrepo, htrim, hspec, Option.orElse_eq_orElse, Option.orElse_some, Option.bind_some]
  rw [if_neg fun h => h.elim hbase hhead]

end

/-! ## The pages of a repository -/

section
variable {r : GithubRepo} {base head : Branch} {x y repo number : List Char} {c : Char}

theorem GithubRepo.path_append_ne_nil : r.path ++ x ≠ [] := by
  rw [GithubRepo.path]
  simp

theorem GithubRepo.head_ne_slash : (r.path ++ x).head? ≠ some '/' := by
  obtain ⟨c, owner, howner⟩ := List.exists_cons_of_ne_nil r.owner_ne_nil
  rw [GithubRepo.path, howner]
  intro h
  obtain rfl : c = '/' := Option.some.inj h
  exact r.not_mem_owner (by decide) (howner ▸ List.mem_cons_self)

theorem GithubRepo.isRepoPath : Storage.isRepoPath r.path = true := by
  rw [Storage.isRepoPath, decide_eq_true_eq, GithubRepo.path, List.count_append, List.count_cons,
    List.count_eq_zero.mpr (r.not_mem_owner (by decide)), List.count_eq_zero.mpr (r.not_mem_name (by decide))]
  rfl

/-- What no page has: what ends a path, and what the second pattern begins with. -/
theorem outside (hc : c ∈ "?#:\n".toList) : repoChar c = false ∧ c ≠ '/' ∧ c ∉ codeChars ∧
    (pathChar c = false ∨ c ∈ "~^:?*[\\".toList) ∧ c ∉ "/compare/".toList ∧ c ∉ "...".toList ∧ c ∉ "/pull/new/".toList := by
  have hall : ∀ c ∈ "?#:\n".toList, repoChar c = false ∧ c ≠ '/' ∧ c ∉ codeChars ∧
      (pathChar c = false ∨ c ∈ "~^:?*[\\".toList) ∧ c ∉ "/compare/".toList ∧ c ∉ "...".toList ∧
      c ∉ "/pull/new/".toList := forall_of_all (by decide)
  exact hall c hc

theorem not_mem_comparePath (hc : c ∈ "?#:\n".toList) : c ∉ comparePath r base head := by
  obtain ⟨hname, hslash, hcode, hbranch, hcompare, hdots, -⟩ := outside hc
  simp only [comparePath, List.mem_append, not_or]
  exact ⟨r.not_mem_path hname hslash, hcompare, base.2.not_mem_encoded hcode hbranch, hdots,
    head.2.not_mem_encoded hcode hbranch⟩

theorem not_mem_newPath (hc : c ∈ "?#:\n".toList) : c ∉ newPath r head := by
  obtain ⟨hname, hslash, hcode, hbranch, -, -, hnew⟩ := outside hc
  simp only [newPath, List.mem_append, not_or]
  exact ⟨r.not_mem_path hname hslash, hnew, head.2.not_mem_encoded hcode hbranch⟩

/-- Two segments stand behind the host, so the pattern takes them for the owner and the name. -/
theorem prUrlAt_page : prUrlAt ("github.com/".toList ++ (r.path ++ '/' :: x)) = some (repo, number) ↔
    repo = r.path ∧ ∃ rest, x = "pull/".toList ++ rest ∧ rest.takeWhile Char.isDigit = number ∧ number ≠ [] := by
  rw [prUrlAt_eq_some]
  constructor
  · rintro ⟨owner, name, rest, heq, howner, hname, rfl, hnumber⟩
    have hpath := List.append_cancel_left heq
    rw [GithubRepo.path, List.append_assoc, List.cons_append] at hpath
    obtain ⟨rfl, hbehind⟩ := append_sep_inj (r.not_mem_owner (by decide)) howner.2 hpath
    obtain ⟨rfl, hx⟩ := append_sep_inj (r.not_mem_name (by decide)) hname.2 hbehind
    exact ⟨rfl, rest, hx, hnumber⟩
  · rintro ⟨rfl, rest, rfl, hnumber⟩
    refine ⟨r.owner, r.name, rest, ?_, ⟨r.owner_ne_nil, r.not_mem_owner (by decide)⟩,
      ⟨r.name_ne_nil, r.not_mem_name (by decide)⟩, rfl, hnumber⟩
    rw [GithubRepo.path, List.append_assoc, List.cons_append]

theorem comparePath_eq : comparePath r base head =
    r.path ++ '/' :: ("compare/".toList ++ (percentEncode base ++ ("...".toList ++ percentEncode head))) := by
  have hlit : "/compare/".toList = '/' :: "compare/".toList := by decide
  rw [comparePath, hlit, List.cons_append]

theorem newPath_eq : newPath r head = r.path ++ '/' :: ("pull/".toList ++ ("new/".toList ++ percentEncode head)) := by
  have hlit : "/pull/new/".toList = '/' :: ("pull/".toList ++ "new/".toList) := by decide
  rw [newPath, hlit, List.cons_append, List.append_assoc]

/-- No pull request is found on a page that names the host once, and is none. -/
theorem search_page (hhost : ¬ "github.com/".toList <:+: r.path ++ '/' :: x)
    (hpull : ∀ rest, x = "pull/".toList ++ rest → rest.takeWhile Char.isDigit = []) :
    (page (r.path ++ '/' :: x)).tails.findSome? prUrlAt = none := by
  rw [findSome?_prUrlAt_page, findSome?_tails_eq_none.mpr fun t ht => prUrlAt_of_not_infix hhost ht, Option.or_none,
    Option.eq_none_iff_forall_ne_some]
  rintro ⟨repo, number⟩ hsome
  obtain ⟨-, rest, hx, hnumber, hne⟩ := prUrlAt_page.mp hsome
  exact hne (hnumber ▸ hpull rest hx)

theorem search_compare (hhost : ¬ "github.com/".toList <:+: comparePath r base head) :
    (page (comparePath r base head)).tails.findSome? prUrlAt = none := by
  rw [comparePath_eq] at hhost ⊢
  refine search_page hhost fun rest hx => absurd ((List.cons.inj hx).1 : 'c' = 'p') (by decide)

theorem search_new (hhost : ¬ "github.com/".toList <:+: newPath r head) :
    (page (newPath r head)).tails.findSome? prUrlAt = none := by
  rw [newPath_eq] at hhost ⊢
  refine search_page hhost fun rest hx => ?_
  rw [← List.append_cancel_left hx]
  rfl

theorem afterHost_compare : afterHost (Link.compare r base head).url = some (upToHost (comparePath r base head)) :=
  afterHost_page (not_mem_comparePath (by decide)) (not_mem_comparePath (by decide))

theorem afterHost_new : afterHost (Link.new r head).url = some (upToHost (newPath r head)) :=
  afterHost_page (not_mem_newPath (by decide)) (not_mem_newPath (by decide))

theorem parsePrUrl_compare (hsize : (Link.compare r base head).url.utf8ByteSize ≤ maxPrUrlLength)
    (hhost : ¬ "github.com/".toList <:+: comparePath r base head) :
    parsePrUrl (Link.compare r base head).url = none ↔ NoNumber MergeText (comparePath r base head) :=
  parsePrUrl_page_eq_none (not_mem_comparePath (by decide)) (not_mem_comparePath (by decide)) r.path_append_ne_nil
    r.head_ne_slash hsize (search_compare hhost)

theorem parsePrUrl_new (hsize : (Link.new r head).url.utf8ByteSize ≤ maxPrUrlLength)
    (hhost : ¬ "github.com/".toList <:+: newPath r head) :
    parsePrUrl (Link.new r head).url = none ↔ NoNumber MergeText (newPath r head) :=
  parsePrUrl_page_eq_none (not_mem_newPath (by decide)) (not_mem_newPath (by decide)) r.path_append_ne_nil
    r.head_ne_slash hsize (search_new hhost)

/-! ## Each kind of link -/

theorem compare_delimited : "/compare/".toList = delimited '/' ["compare".toList] := by decide

theorem new_delimited : "/pull/new/".toList = delimited '/' ["pull".toList, "new".toList] := by decide

/-- Words that stand inside of as many are those. -/
theorem words_between {us ws vs ms : List (List Char)} {o e : List Char} (h : us ++ (ws ++ vs) = o :: (ms ++ [e]))
    (hu : us ≠ []) (hv : vs ≠ []) (hlen : ws.length = ms.length) : ws = ms := by
  have hlength := congrArg List.length h
  have hupos := List.length_pos_of_ne_nil hu
  have hvpos := List.length_pos_of_ne_nil hv
  simp only [List.length_append, List.length_cons, List.length_nil] at hlength
  obtain ⟨u, rfl⟩ := List.length_eq_one_iff.mp (show us.length = 1 by omega)
  have hrest : ws ++ vs = ms ++ [e] := (List.cons.inj h).2
  exact (List.append_inj hrest hlen).1

theorem words_of_isInfix {ws ms : List (List Char)} {o e : List Char} (hws : ∀ w ∈ ws, '/' ∉ w)
    (h : delimited '/' ws <:+: x) (hx : x.splitOn '/' = o :: (ms ++ [e])) (hlen : ws.length = ms.length) : ws = ms := by
  obtain ⟨u, v, rfl⟩ := h
  rw [List.append_assoc, splitOn_append_delimited hws] at hx
  exact words_between hx (List.splitOn_ne_nil '/' u) (List.splitOn_ne_nil '/' v) hlen

theorem new_words : ∀ w ∈ ["pull".toList, "new".toList], '/' ∉ w := forall_of_all (by decide)

theorem compare_words : ∀ w ∈ ["compare".toList], '/' ∉ w := forall_of_all (by decide)

/-- The marker of a `pull/new` page is not met before its place. -/
theorem newPath_first : ¬ "/pull/new/".toList <:+: r.path ++ "/pull/new/".toList.dropLast := by
  have hlit : "/pull/new/".toList.dropLast = '/' :: "pull/new".toList := by decide
  have hparts : "pull/new".toList.splitOn '/' = ["pull".toList] ++ ["new".toList] := by decide
  rw [hlit, new_delimited]
  intro h
  have hsplit : (r.path ++ '/' :: "pull/new".toList).splitOn '/' =
      r.owner :: ([r.name, "pull".toList] ++ ["new".toList]) := by
    rw [r.splitOn_path, hparts]
    rfl
  have hwords := words_of_isInfix new_words h hsplit rfl
  exact absurd (List.cons.inj (List.cons.inj hwords).2).1 (by decide)

/-- The marker of a `compare` page is not met before its place, unless the repository has its name. -/
theorem comparePath_first : ¬ "/compare/".toList <:+: r.path ++ "/compare/".toList.dropLast ↔ r.name ≠ "compare".toList := by
  have hlit : "/compare/".toList.dropLast = '/' :: "compare".toList := by decide
  have hparts : "compare".toList.splitOn '/' = ["compare".toList] := by decide
  rw [hlit, not_iff_not]
  constructor
  · rw [compare_delimited]
    intro h
    have hsplit : (r.path ++ '/' :: "compare".toList).splitOn '/' = r.owner :: ([r.name] ++ ["compare".toList]) := by
      rw [r.splitOn_path, hparts]
      rfl
    exact (List.cons.inj (words_of_isInfix compare_words h hsplit rfl)).1.symm
  · intro hname
    refine ⟨r.owner, "compare".toList, ?_⟩
    have hslash : "/compare/".toList = '/' :: ("compare".toList ++ ['/']) := by decide
    rw [GithubRepo.path, hname, hslash]
    simp only [List.append_assoc, List.cons_append, List.nil_append]

/-- What the readers drop behind `y`: slashes at the end, and all from the host's next occurrence on. -/
theorem exists_dropped {t : List Char} (h : upToHost x = y ++ t) :
    ∃ z, x = y ++ (trimSlashes t ++ z) ∧ (z = [] ∨ '/' ∈ z) ∧ (z = [] → ¬ "github.com/".toList <:+: x) := by
  obtain ⟨s, hs, hslashes⟩ := exists_trimSlashes t
  rcases exists_upToHost x with ⟨hhost, heq⟩ | ⟨rest, hx⟩
  · refine ⟨s, ?_, ?_, fun _ => hhost⟩
    · rw [← hs, ← h, heq]
    · cases s with
      | nil => exact .inl rfl
      | cons c s => exact .inr (hslashes c List.mem_cons_self ▸ List.mem_cons_self)
  · have hslash : '/' ∈ s ++ ("github.com/".toList ++ rest) :=
      List.mem_append_right s (List.mem_append_left rest (by decide))
    refine ⟨s ++ ("github.com/".toList ++ rest), ?_, .inr hslash, fun hnil => ?_⟩
    · rw [← List.append_assoc (trimSlashes t), ← hs, ← List.append_assoc, ← h]
      exact hx
    · rw [hnil] at hslash
      exact absurd hslash List.not_mem_nil

theorem toldApart_new : ToldApart (.new r head) ↔ ReadsBack (.new r head) := by
  constructor
  · rintro ⟨hread, hnone⟩
    obtain ⟨hsize, ⟨-, repo, t, hsplit, hrepo, htrim⟩ | ⟨-, repo, t, b, e, -, -, -, -, -, hbase⟩⟩ :=
      parsePrIntentUrl_some hread afterHost_new
    · obtain rfl := String.ofList_injective hrepo
      have hpath := (splitOnce_some (by decide) hsplit).1
      rw [← List.append_assoc] at hpath
      obtain ⟨z, hz, hslash, hhost⟩ := exists_dropped hpath
      rw [String.ofList_injective htrim, newPath, List.append_assoc] at hz
      have henc : percentEncode [] ++ ([] ++ percentEncode head) = [] ++ ([] ++ (head.1 ++ z)) :=
        List.append_cancel_left (List.append_cancel_left hz)
      obtain ⟨hnil, -, hplain⟩ := plain_of_encoded henc ⟨List.not_mem_nil, List.not_mem_nil⟩ (Nat.le_refl _) hslash
      exact ⟨hsize, hplain, hhost hnil, (parsePrUrl_new hsize (hhost hnil)).mp hnone⟩
    · cases hbase
  · rintro ⟨hsize, hplain, hhost, hnumber⟩
    have hafter : afterHost (Link.new r head).url = some (newPath r head) := by
      rw [afterHost_new, upToHost_eq_self hhost]
    have hsplit : splitOnce "/pull/new/".toList (newPath r head) = some (r.path, head.1) := by
      rw [newPath, percentEncode_eq_self hplain]
      exact splitOnce_first newPath_first
    exact ⟨parsePrIntentUrl_new hsize hafter hsplit r.isRepoPath head.2.ne_nil head.2.last_ne_slash,
      (parsePrUrl_new hsize hhost).mpr hnumber⟩

/-- A branch has no two dots in a row and none at its end. -/
theorem dots_first {b : List Char} (h : BranchName b) : ¬ "...".toList <:+: b ++ "..".toList := by
  obtain ⟨u, c, rfl⟩ := (List.eq_nil_or_concat' b).resolve_left h.ne_nil
  have hc : c ∉ "...".toList := by
    intro hmem
    have hdot : ∀ c ∈ "...".toList, c = '.' := forall_of_all (by decide)
    refine h.no_last_dot ?_
    rw [List.getLast?_concat, hdot c hmem]
  rw [List.append_assoc, List.singleton_append, infix_append_cons_iff hc]
  rintro (hu | hdots)
  · have htwo : "..".toList <:+: "...".toList := by decide
    exact h.no_dots ((htwo.trans hu).trans (List.prefix_append u [c]).isInfix)
  · exact absurd hdots (by decide)

/-- The separator of the two branches, whichever it is, is no longer than the one in the link. -/
theorem separator_of_split {spec b e : List Char}
    (h : (splitOnce "...".toList spec <|> splitOnce "..".toList spec) = some (b, e)) :
    ∃ sep, spec = b ++ (sep ++ e) ∧ '/' ∉ sep ∧ sep.length ≤ "...".toList.length := by
  rw [Option.orElse_eq_orElse, Option.orElse_eq_or, Option.or_eq_some_iff] at h
  rcases h with h | ⟨-, h⟩
  · exact ⟨_, (splitOnce_some (by decide) h).1, by decide, Nat.le_refl _⟩
  · exact ⟨_, (splitOnce_some (by decide) h).1, by decide, by decide⟩

theorem toldApart_compare : ToldApart (.compare r base head) ↔ ReadsBack (.compare r base head) := by
  constructor
  · rintro ⟨hread, hnone⟩
    obtain ⟨hsize, ⟨hbase, -⟩ | ⟨hnew, repo, t, b, e, hsplit, -, hspec, hrepo, hhead, hbase⟩⟩ :=
      parsePrIntentUrl_some hread afterHost_compare
    · cases hbase
    · obtain rfl := String.ofList_injective hrepo
      obtain rfl := String.ofList_injective hhead
      obtain rfl := String.ofList_injective (Option.some.inj hbase)
      obtain ⟨hpath, hfirst⟩ := splitOnce_some (by decide) hsplit
      rw [← List.append_assoc] at hpath
      obtain ⟨z, hz, hslash, hhost⟩ := exists_dropped hpath
      obtain ⟨sep, hsep, hnoslash, hlen⟩ := separator_of_split hspec
      rw [hsep, comparePath] at hz
      simp only [List.append_assoc] at hz
      have henc := List.append_cancel_left (List.append_cancel_left hz)
      obtain ⟨hnil, hbase, hhead⟩ := plain_of_encoded henc ⟨by decide, hnoslash⟩ hlen hslash
      rw [upToHost_eq_self (hhost hnil), splitOnce_eq_none (by decide)] at hnew
      exact ⟨hsize, hbase, hhead, comparePath_first.mp hfirst, hnew, hhost hnil,
        (parsePrUrl_compare hsize (hhost hnil)).mp hnone⟩
  · rintro ⟨hsize, hbase, hhead, hname, hnew, hhost, hnumber⟩
    have hafter : afterHost (Link.compare r base head).url = some (comparePath r base head) := by
      rw [afterHost_compare, upToHost_eq_self hhost]
    have hsplit : splitOnce "/compare/".toList (comparePath r base head) =
        some (r.path, base.1 ++ ("...".toList ++ head.1)) := by
      rw [comparePath, percentEncode_eq_self hbase, percentEncode_eq_self hhead]
      exact splitOnce_first (comparePath_first.mpr hname)
    exact ⟨parsePrIntentUrl_compare hsize hafter hnew hsplit r.isRepoPath base.2.ne_nil head.2.ne_nil
      head.2.last_ne_slash (dots_first base.2), (parsePrUrl_compare hsize hhost).mpr hnumber⟩

/-! ### Pull requests -/

section
variable {n : Nat} {positive : 0 < n}

theorem parseI64_toDigits : parseI64 (Nat.toDigits 10 n) = if n < 2 ^ 63 then some (n : Int) else none := by
  have hvalue : (Nat.toDigits 10 n).foldl (fun n c => 10 * n + (c.toNat - '0'.toNat)) 0 = n :=
    Nat.ofDigitChars_ten_toDigits
  unfold parseI64
  rw [hvalue]

theorem isDigit_toDigits (hc : c ∈ Nat.toDigits 10 n) : c.isDigit = true :=
  Nat.isDigit_of_mem_toDigits (by decide) (by decide) hc

theorem pullPath_eq : r.path ++ ("/pull/".toList ++ Nat.toDigits 10 n) =
    r.path ++ '/' :: ("pull/".toList ++ Nat.toDigits 10 n) := by
  have hlit : "/pull/".toList = '/' :: "pull/".toList := by decide
  rw [hlit, List.cons_append]

/-- The first place where the pattern is tried with success is the host. -/
theorem parsePrUrl_pull : parsePrUrl (Link.pull r n positive).url = some (String.ofList r.path, (n : Int)) ↔
    (Link.pull r n positive).url.utf8ByteSize ≤ maxPrUrlLength ∧ n < 2 ^ 63 := by
  have htext : (Link.pull r n positive).url.toList = page (r.path ++ ("/pull/".toList ++ Nat.toDigits 10 n)) :=
    String.toList_ofList
  have hdigits : (Nat.toDigits 10 n).takeWhile Char.isDigit = Nat.toDigits 10 n :=
    List.takeWhile_eq_self_iff.mpr fun c hc => isDigit_toDigits hc
  have hfound : prUrlAt ("github.com/".toList ++ (r.path ++ '/' :: ("pull/".toList ++ Nat.toDigits 10 n))) =
      some (r.path, Nat.toDigits 10 n) :=
    prUrlAt_page.mpr ⟨rfl, _, rfl, hdigits, Nat.toDigits_ne_nil⟩
  unfold parsePrUrl
  by_cases hsize : (Link.pull r n positive).url.utf8ByteSize ≤ maxPrUrlLength
  · rw [if_neg (Nat.not_lt.mpr hsize), htext, findSome?_prUrlAt_page, pullPath_eq, hfound, Option.some_or,
      and_iff_right hsize]
    dsimp only
    rw [parseI64_toDigits]
    split
    · rename_i hn
      exact iff_of_true rfl hn
    · rename_i hn
      exact iff_of_false (fun h => by cases h) hn
  · rw [if_pos (Nat.not_le.mp hsize)]
    exact iff_of_false (fun h => by cases h) fun h => hsize h.1

theorem not_mem_pullPath (hc : c ∈ "?#:\n".toList) : c ∉ r.path ++ ("/pull/".toList ++ Nat.toDigits 10 n) := by
  obtain ⟨hname, hslash, -, -, -, -, hnew⟩ := outside hc
  have hlit : "/pull/new/".toList = "/pull/".toList ++ "new/".toList := by decide
  have hdigit : ∀ c ∈ "?#:\n".toList, c.isDigit = false := forall_of_all (by decide)
  simp only [List.mem_append, not_or]
  refine ⟨r.not_mem_path hname hslash, fun h => hnew (hlit ▸ List.mem_append_left _ h), fun h => ?_⟩
  exact absurd (isDigit_toDigits h) (Bool.eq_false_iff.mp (hdigit c hc))

/-- Neither marker stands where it would be read: of the words between slashes only the name is not `pull`. -/
theorem parsePrIntentUrl_pull : parsePrIntentUrl (Link.pull r n positive).url = none := by
  have hafter : afterHost (Link.pull r n positive).url = some (upToHost (r.path ++ ("/pull/".toList ++ Nat.toDigits 10 n))) :=
    afterHost_page (not_mem_pullPath (by decide)) (not_mem_pullPath (by decide))
  have hparts : (r.path ++ ("/pull/".toList ++ Nat.toDigits 10 n)).splitOn '/' =
      r.owner :: ([r.name, "pull".toList] ++ [Nat.toDigits 10 n]) := by
    have hlit : "pull/".toList = "pull".toList ++ ['/'] := by decide
    have hdigits : '/' ∉ Nat.toDigits 10 n := fun h => absurd (isDigit_toDigits h) (by decide)
    rw [pullPath_eq, r.splitOn_path, hlit, List.append_assoc, List.singleton_append, List.splitOn_append_cons_self,
      List.splitOn_eq_singleton hdigits, List.splitOn_eq_singleton (by decide)]
    rfl
  rw [Option.eq_none_iff_forall_ne_some]
  rintro ⟨repo, head, base⟩ h
  obtain ⟨rest, hrest⟩ := upToHost_isPrefix (r.path ++ ("/pull/".toList ++ Nat.toDigits 10 n))
  obtain ⟨-, ⟨-, repo, t, hsplit, -⟩ | ⟨-, repo, t, b, e, hsplit, hrepo, -⟩⟩ := parsePrIntentUrl_some h hafter
  · have hpath := (splitOnce_some (by decide) hsplit).1
    rw [hpath, new_delimited] at hrest
    have hinfix : delimited '/' ["pull".toList, "new".toList] <:+: r.path ++ ("/pull/".toList ++ Nat.toDigits 10 n) :=
      ⟨repo, t ++ rest, by rw [← hrest]; simp only [List.append_assoc]⟩
    have hwords := words_of_isInfix new_words hinfix hparts rfl
    exact absurd (List.cons.inj (List.cons.inj hwords).2).1 (by decide)
  · -- the repository would have a slash, so that the marker would stand in the place of `pull`
    have hpath := (splitOnce_some (by decide) hsplit).1
    have hcount : repo.count '/' = 1 := of_decide_eq_true hrepo
    obtain ⟨u, v, rfl⟩ := List.append_of_mem (List.count_pos_iff.mp (show 0 < repo.count '/' by omega))
    rw [List.count_append, List.count_cons_self] at hcount
    have hu : '/' ∉ u := List.count_eq_zero.mp (by omega)
    have hv : '/' ∉ v := List.count_eq_zero.mp (by omega)
    rw [hpath, compare_delimited, List.append_assoc (u ++ '/' :: v), List.append_assoc (delimited '/' _)] at hrest
    rw [← hrest, splitOn_append_delimited compare_words, List.splitOn_append_cons_self, List.splitOn_eq_singleton hu,
      List.splitOn_eq_singleton hv] at hparts
    exact absurd (List.cons.inj (List.cons.inj (List.cons.inj hparts).2).2).1 (by decide)

theorem toldApart_pull : ToldApart (.pull r n positive) ↔ ReadsBack (.pull r n positive) :=
  (and_iff_left parsePrIntentUrl_pull).trans parsePrUrl_pull

end

/-! ### Other hosts -/

/-- Whatever the text: the first place of the pattern decides. -/
theorem readAsPull_iff {url : String} : ReadAsPull url ↔
    url.utf8ByteSize ≤ maxPrUrlLength ∧ ¬ NoNumber (fun s number => ∃ repo, PullText s repo number) url.toList := by
  have hf : ∀ t number, (prUrlAt t).map Prod.snd = some number ↔ ∃ repo, PullText t repo number := by
    intro t number
    simp only [Option.map_eq_some_iff, Prod.exists, prUrlAt_eq_some, exists_eq_right]
  have hmap : url.toList.tails.findSome? (fun t => (prUrlAt t).map Prod.snd) =
      (url.toList.tails.findSome? prUrlAt).map Prod.snd := (List.map_findSome? ..).symm
  rw [noNumber_iff hf, hmap]
  unfold ReadAsPull parsePrUrl
  by_cases hsize : url.utf8ByteSize ≤ maxPrUrlLength
  · rw [if_neg (Nat.not_lt.mpr hsize), and_iff_right hsize]
    cases hfound : url.toList.tails.findSome? prUrlAt with
    | none =>
      refine iff_of_false ?_ (not_not_intro rfl)
      rintro ⟨repo, number, n, -, -, t, ht, hpull⟩
      have hsome := prUrlAt_eq_some.mpr hpull
      rw [findSome?_tails_eq_none.mp hfound t ht] at hsome
      cases hsome
    | some m =>
      obtain ⟨repo, number⟩ := m
      obtain ⟨t, ht, hpull⟩ := findSome?_tails_eq_some.mp hfound
      show (∃ repo' number' n', (parseI64 number).map (fun n => (String.ofList repo, n)) = some (String.ofList repo', n') ∧
        parseI64 number' = some n' ∧ ∃ t, t <:+ url.toList ∧ PullText t repo' number') ↔ ¬ parseI64 number = none
      constructor
      · rintro ⟨repo', number', n', hread, -, -⟩ hnone
        rw [hnone] at hread
        cases hread
      · intro hsome
        obtain ⟨n, hn⟩ := Option.ne_none_iff_exists'.mp hsome
        exact ⟨repo, number, n, by rw [hn]; rfl, hn, t, ht.1, prUrlAt_eq_some.mp hpull⟩
  · rw [if_pos (Nat.not_le.mp hsize)]
    exact iff_of_false (fun ⟨_, _, _, h, _⟩ => by cases h) fun h => hsize h.1

theorem toldApart_foreign {u : ForeignUrl} : ToldApart (.foreign u) ↔ ReadsBack (.foreign u) := by
  have htext : (Link.foreign u).url.toList = (Link.foreign u).text := String.toList_ofList
  show ¬ ReadAsPull (Link.foreign u).url ↔ _
  rw [readAsPull_iff, htext, not_and_or, Nat.not_le, not_not]
  rfl

theorem toldApart_iff (l : Link) : ToldApart l ↔ ReadsBack l := by
  cases l with
  | pull r n positive => exact toldApart_pull
  | compare r base head => exact toldApart_compare
  | new r head => exact toldApart_new
  | foreign u => exact toldApart_foreign

end

/-! ## A repository named after the host -/

theorem branchName_main : BranchName "main".toList where
  parts := forall_of_all (by decide)
  chars := forall_of_all (by decide)
  no_dots := by decide
  no_last_dot := by decide
  no_at_brace := by decide
  not_at := by decide
  not_dash := by decide
  not_head := by decide

theorem branchName_fix : BranchName "fix".toList where
  parts := forall_of_all (by decide)
  chars := forall_of_all (by decide)
  no_dots := by decide
  no_last_dot := by decide
  no_at_brace := by decide
  not_at := by decide
  not_dash := by decide
  not_head := by decide

def acmePages : GithubRepo where
  owner := "acme".toList
  name := "acme.github.com".toList
  owner_ne_nil := by decide
  name_ne_nil := by decide
  owner_chars := forall_of_all (by decide)
  name_chars := forall_of_all (by decide)

/-- The path is cut inside of the name, before `/compare/`. -/
theorem acmePages_unread :
    parsePrIntentUrl (Link.compare acmePages ⟨_, branchName_main⟩ ⟨_, branchName_fix⟩).url = none ∧
      ¬ ToldApart (.compare acmePages ⟨_, branchName_main⟩ ⟨_, branchName_fix⟩) := by
  have hnone : parsePrIntentUrl (Link.compare acmePages ⟨_, branchName_main⟩ ⟨_, branchName_fix⟩).url = none := by
    decide +kernel
  exact ⟨hnone, fun h => Option.some_ne_none _ (h.1.symm.trans hnone)⟩

end Claudear.Storage
