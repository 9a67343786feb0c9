import Claudear.Storage.PrGrammar

/-!
# Links that are told apart

The pages of a GitHub repository that `parse_pr_url` and `parse_pr_intent_url`
read: a pull request, and the two pages that only offer to open one. A branch
name stands in a link as it does in the path of a URL, with a percent code for
every character that a path may not have.

The readers do not take everything after the host: the rest of a link may name
`github.com/` again, or look like a merge request, and percent codes stay.
`toldApart_iff` says for which links this does no harm.
-/

namespace Claudear.Storage

open Claudear.Text

/-! ## Repositories and branches -/

/-- A character of a login. -/
def loginChar (c : Char) : Bool := c.isAlphanum || c = '-' || c = '_'

/-- A character of a repository name. -/
def repoChar (c : Char) : Bool := loginChar c || c = '.'

structure GithubRepo where
  owner : List Char
  name : List Char
  owner_ne_nil : owner ≠ []
  name_ne_nil : name ≠ []
  owner_chars : ∀ c ∈ owner, loginChar c = true
  name_chars : ∀ c ∈ name, repoChar c = true

/-- `owner/repo` -/
def GithubRepo.path (r : GithubRepo) : List Char := r.owner ++ '/' :: r.name

/-- What `git check-ref-format --branch` lets through. -/
structure BranchName (b : List Char) : Prop where
  parts : ∀ p ∈ b.splitOn '/', p ≠ [] ∧ p.head? ≠ some '.' ∧ ¬ ".lock".toList <:+ p
  chars : ∀ c ∈ b, 0x20 < c.toNat ∧ c.toNat ≠ 0x7F ∧ c ∉ "~^:?*[\\".toList
  no_dots : ¬ "..".toList <:+: b
  no_last_dot : b.getLast? ≠ some '.'
  no_at_brace : ¬ ['@', '\x7b'] <:+: b
  not_at : b ≠ ['@']
  not_dash : b.head? ≠ some '-'
  not_head : b ≠ "HEAD".toList

abbrev Branch := { b : List Char // BranchName b }

/-! ## Percent codes -/

/-- A character that stands for itself in the path of a URL. -/
def pathChar (c : Char) : Bool := c.isAlphanum || "-._~!$&'()*+,;=:@/".toList.contains c

def hexDigit (n : Nat) : Char := n.digitChar.toUpper

def percentByte (b : UInt8) : List Char := ['%', hexDigit (b.toNat / 16), hexDigit (b.toNat % 16)]

def percentChar (c : Char) : List Char :=
  if pathChar c then [c] else (String.utf8EncodeChar c).flatMap percentByte

def percentEncode (l : List Char) : List Char := l.flatMap percentChar

/-! ## Links -/

/-- The host that an authority names, without the user and the port. -/
def hostOf (authority : List Char) : List Char :=
  ((authority.reverse.takeWhile (· ≠ '@')).reverse.takeWhile (· ≠ ':')).map Char.toLower

/-- A URL whose path has `/pull/`, on another host than GitHub's. -/
structure ForeignUrl where
  scheme : List Char
  authority : List Char
  rest : List Char
  scheme_chars : ∀ c ∈ scheme, (c.isAlphanum || "+-.".toList.contains c) = true
  authority_chars : ∀ c ∈ authority, c ≠ '/' ∧ c ≠ '?' ∧ c ≠ '#'
  host_ne : hostOf authority ≠ "github.com".toList
  rest_head : rest.head? = some '/'
  pull : "/pull/".toList <:+: rest.takeWhile fun c => c ≠ '?' ∧ c ≠ '#'

inductive Link where
  | pull (r : GithubRepo) (number : Nat) (positive : 0 < number)
  | compare (r : GithubRepo) (base head : Branch)
  | new (r : GithubRepo) (head : Branch)
  | foreign (u : ForeignUrl)

/-- The URL of a page on GitHub. -/
def page (path : List Char) : List Char := "https://".toList ++ ("github.com/".toList ++ path)

def comparePath (r : GithubRepo) (base head : Branch) : List Char :=
  r.path ++ ("/compare/".toList ++ (percentEncode base ++ ("...".toList ++ percentEncode head)))

def newPath (r : GithubRepo) (head : Branch) : List Char := r.path ++ ("/pull/new/".toList ++ percentEncode head)

def Link.text : Link → List Char
  | .pull r number _ => page (r.path ++ ("/pull/".toList ++ Nat.toDigits 10 number))
  | .compare r base head => page (comparePath r base head)
  | .new r head => page (newPath r head)
  | .foreign u => u.scheme ++ ("://".toList ++ (u.authority ++ u.rest))

def Link.url (l : Link) : String := String.ofList l.text

/-! ## What is to be read -/

/-- The number is read behind a `/pull/` that follows `github.com/`. -/
def ReadAsPull (url : String) : Prop :=
  ∃ repo number n, parsePrUrl url = some (String.ofList repo, n) ∧ parseI64 number = some n ∧
    ∃ t, t <:+ url.toList ∧ PullText t repo number

/-- Each link gives back what it was made of, and only to its own reader. -/
def ToldApart (l : Link) : Prop :=
  match l with
  | .pull r number _ => parsePrUrl l.url = some (String.ofList r.path, (number : Int)) ∧ parsePrIntentUrl l.url = none
  | .compare r base head =>
    parsePrIntentUrl l.url = some ⟨String.ofList r.path, String.ofList head, some (String.ofList base)⟩ ∧
      parsePrUrl l.url = none
  | .new r head =>
    parsePrIntentUrl l.url = some ⟨String.ofList r.path, String.ofList head, none⟩ ∧ parsePrUrl l.url = none
  | .foreign _ => ¬ ReadAsPull l.url

/-! ## When it is read -/

/-- The number that stands first is none, or too large. -/
def NoNumber (P : List Char → List Char → Prop) (l : List Char) : Prop :=
  ∀ t number, Leftmost (fun s => ∃ number, P s number) l t → P t number → parseI64 number = none

/-- The path does not name the host again, and is not read as the path of a merge request. -/
def Ordinary (path : List Char) : Prop := ¬ "github.com/".toList <:+: path ∧ NoNumber MergeText path

/-- Nothing in the name needs a percent code. -/
def Plain (b : Branch) : Prop := ∀ c ∈ b.1, pathChar c = true

def ReadsBack (l : Link) : Prop :=
  match l with
  | .pull _ number _ => l.url.utf8ByteSize ≤ maxPrUrlLength ∧ number < 2 ^ 63
  | .compare r base head =>
    l.url.utf8ByteSize ≤ maxPrUrlLength ∧ Plain base ∧ Plain head ∧ r.name ≠ "compare".toList ∧
      ¬ "/pull/new/".toList <:+: comparePath r base head ∧ Ordinary (comparePath r base head)
  | .new r head => l.url.utf8ByteSize ≤ maxPrUrlLength ∧ Plain head ∧ Ordinary (newPath r head)
  | .foreign _ =>
    maxPrUrlLength < l.url.utf8ByteSize ∨ NoNumber (fun s number => ∃ repo, PullText s repo number) l.text

/-! ## Percent codes keep what a path keeps -/

section
variable {c : Char} {b l x y sep : List Char} {r : GithubRepo}

/-- The characters of a percent code. -/
def codeChars : List Char := "%0123456789ABCDEF".toList

theorem mem_percentByte {byte : UInt8} (h : c ∈ percentByte byte) : c ∈ codeChars := by
  have hdigit : ∀ n < 16, hexDigit n ∈ codeChars := by decide
  have hbyte : byte.toNat < 256 := byte.toNat_lt
  simp only [percentByte, List.mem_cons, List.not_mem_nil, or_false] at h
  rcases h with rfl | rfl | rfl
  · decide
  · exact hdigit _ (by omega)
  · exact hdigit _ (by omega)

theorem mem_percentEncode (h : c ∈ percentEncode l) : c ∈ l ∧ pathChar c = true ∨ c ∈ codeChars := by
  obtain ⟨d, hd, hc⟩ := List.mem_flatMap.mp h
  unfold percentChar at hc
  split at hc
  · rename_i hpath
    rw [List.mem_singleton.mp hc]
    exact .inl ⟨hd, hpath⟩
  · obtain ⟨byte, -, hc⟩ := List.mem_flatMap.mp hc
    exact .inr (mem_percentByte hc)

theorem percentEncode_cons : percentEncode (c :: l) = percentChar c ++ percentEncode l := List.flatMap_cons

theorem percentEncode_eq_self (h : ∀ c ∈ l, pathChar c = true) : percentEncode l = l := by
  induction l with
  | nil => rfl
  | cons c l ih =>
    obtain ⟨hc, h⟩ := List.forall_mem_cons.mp h
    rw [percentEncode_cons, percentChar, if_pos hc, ih h]
    rfl

theorem percentChar_length (h : pathChar c = false) : 1 < (percentChar c).length := by
  unfold percentChar
  rw [if_neg (Bool.eq_false_iff.mp h)]
  cases hbytes : String.utf8EncodeChar c with
  | nil => exact absurd hbytes String.utf8EncodeChar_ne_nil
  | cons byte bytes =>
    rw [List.flatMap_cons, List.length_append]
    show 1 < 3 + _
    omega

theorem length_percentEncode (l : List Char) : l.length ≤ (percentEncode l).length := by
  induction l with
  | nil => exact Nat.le_refl _
  | cons c l ih =>
    rw [percentEncode_cons, List.length_append, List.length_cons]
    cases hc : pathChar c with
    | true =>
      unfold percentChar
      rw [if_pos hc, List.length_singleton]
      omega
    | false =>
      have := percentChar_length hc
      omega

/-- A code is longer than what it stands for. -/
theorem plain_of_length (h : (percentEncode l).length ≤ l.length) : ∀ c ∈ l, pathChar c = true := by
  induction l with
  | nil => exact fun c hc => absurd hc List.not_mem_nil
  | cons c l ih =>
    have hlen := length_percentEncode l
    rw [percentEncode_cons, List.length_append, List.length_cons] at h
    cases hc : pathChar c with
    | true =>
      unfold percentChar at h
      rw [if_pos hc, List.length_singleton] at h
      exact List.forall_mem_cons.mpr ⟨hc, ih (by omega)⟩
    | false =>
      have := percentChar_length hc
      omega

theorem count_percentEncode (l : List Char) : (percentEncode l).count '/' = l.count '/' := by
  induction l with
  | nil => rfl
  | cons c l ih =>
    rw [percentEncode_cons, List.count_append, ih, List.count_cons, Nat.add_comm]
    congr 1
    unfold percentChar
    split
    · rw [List.count_singleton]
    · rename_i hpath
      have hc : c ≠ '/' := by
        rintro rfl
        exact hpath (by decide)
      rw [List.count_eq_zero.mpr, if_neg (by simpa using hc)]
      intro hmem
      obtain ⟨byte, -, hmem⟩ := List.mem_flatMap.mp hmem
      exact absurd (mem_percentByte hmem) (by decide)

/-- Where codes stand for themselves, but for a rest that would have a slash, there are none. -/
theorem plain_of_encoded {sep' t : List Char} (h : percentEncode x ++ (sep ++ percentEncode y) = x ++ (sep' ++ (y ++ t)))
    (hsep : '/' ∉ sep ∧ '/' ∉ sep') (hle : sep'.length ≤ sep.length) (ht : t = [] ∨ '/' ∈ t) :
    t = [] ∧ (∀ c ∈ x, pathChar c = true) ∧ ∀ c ∈ y, pathChar c = true := by
  have hcount := congrArg (List.count '/') h
  simp only [List.count_append, count_percentEncode, List.count_eq_zero.mpr hsep.1, List.count_eq_zero.mpr hsep.2] at hcount
  have hnil : t = [] := by
    refine ht.resolve_right fun hslash => ?_
    have hpos : 0 < t.count '/' := List.count_pos_iff.mpr hslash
    omega
  have hlength := congrArg List.length h
  have hx := length_percentEncode x
  have hy := length_percentEncode y
  rw [hnil] at hlength
  simp only [List.length_append, List.length_nil] at hlength
  exact ⟨hnil, plain_of_length (by omega), plain_of_length (by omega)⟩

/-! ## What names are made of -/

theorem repoChar_of_loginChar (h : loginChar c = true) : repoChar c = true := by
  rw [repoChar, h, Bool.true_or]

theorem GithubRepo.not_mem_owner (hc : repoChar c = false) : c ∉ r.owner := fun h => by
  rw [repoChar_of_loginChar (r.owner_chars c h)] at hc
  cases hc

theorem GithubRepo.not_mem_name (hc : repoChar c = false) : c ∉ r.name := fun h => by
  rw [r.name_chars c h] at hc
  cases hc

theorem GithubRepo.not_mem_path (hc : repoChar c = false) (hslash : c ≠ '/') : c ∉ r.path := by
  rw [GithubRepo.path, List.mem_append, List.mem_cons, not_or, not_or]
  exact ⟨r.not_mem_owner hc, hslash, r.not_mem_name hc⟩

theorem GithubRepo.splitOn_path : (r.path ++ '/' :: x).splitOn '/' = r.owner :: r.name :: x.splitOn '/' := by
  rw [GithubRepo.path, List.append_assoc, List.cons_append, List.splitOn_append_cons_self,
    List.splitOn_append_cons_self, List.splitOn_eq_singleton (r.not_mem_owner (by decide)),
    List.splitOn_eq_singleton (r.not_mem_name (by decide))]
  rfl

theorem BranchName.ne_nil (h : BranchName b) : b ≠ [] := by
  rintro rfl
  exact (h.parts [] (by simp)).1 rfl

theorem BranchName.last_ne_slash (h : BranchName b) : b.getLast? ≠ some '/' := by
  intro hlast
  obtain ⟨u, rfl⟩ := List.getLast?_eq_some_iff.mp hlast
  refine (h.parts [] ?_).1 rfl
  rw [List.splitOn_append_cons_self, List.splitOn_nil]
  exact List.mem_append_right _ (List.mem_singleton_self _)

/-- Not in a link: a character that neither a name nor a path may have. -/
theorem BranchName.not_mem_encoded (h : BranchName b) (hc : c ∉ codeChars)
    (hb : pathChar c = false ∨ c ∈ "~^:?*[\\".toList) : c ∉ percentEncode b := by
  intro hmem
  rcases mem_percentEncode hmem with ⟨hmem, hpath⟩ | hmem
  · rcases hb with hb | hb
    · rw [hb] at hpath
      cases hpath
    · exact (h.chars c hmem).2.2 hb
  · exact hc hmem

end

end Claudear.Storage
