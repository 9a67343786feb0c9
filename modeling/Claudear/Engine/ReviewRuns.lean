import Claudear.Engine.Reviews

/-!
# Reviews over any number of processes

Watchers, webhooks and restarts of any number of processes interleave, call by
call, while the host takes comments and the store may fail at any call. `View`
is what a program has seen and written, and `InOrder` what it only does for a
reason: it moves a cursor past the comments it has recorded, closes the rows of
comments it has answered, and gives a cycle back that it has taken.

A comment that asks for something is in the ledger or ahead of every cursor
(`comments_kept`), and a row is closed for a reason that the log has
(`handled_for_cause`). A cycle is charged before the rerun it is for, so no more
charged reruns end well than the cap allows (`charged_reruns_capped`).

What was lost on the way is made good: from any state these runs reach, a poll
that nothing disturbs announces every comment that is still to be answered
(`poll_announces`), and a round of the watcher closes every row of the pull
requests it watches (`round_closes`).
-/

namespace Claudear.Engine.Reviews

open Claudear.Data Claudear.Machine Claudear.Sql Claudear.Storage Claudear.Text
open Claudear.Engine.PullRequests (SECURITY_FIX_SOURCE)

/-! ## What asks for something -/

/-- The comment asks for something: its author counts, and it stands alone or has the trigger. -/
def ScmProvider.asks (S : ScmProvider) (feed : Feed) (c : HostComment) : Bool :=
  !S.isIgnoredAuthor c.user S.login &&
    match feed with
    | .inline => S.standsAlone c.comment
    | .conversation => S.triggers c.comment

/-! ## What a program has seen -/

/-- An answer of the host, with the versions there were. -/
structure Fetch where
  feed : Feed
  repo : String
  number : Int
  since : Option String
  comments : List HostComment
  known : List Posting

/-- It is the poll of this state. -/
structure Fetch.Of (f : Fetch) (feed : Feed) (state : PrReviewState) : Prop where
  since : f.since = (state.cursor feed).time
  repo : f.repo = state.repo
  number : f.number = state.prNumber
  feed : f.feed = feed

/-- No comment is in the answer twice. -/
def Fetch.Distinct (f : Fetch) : Prop := (f.comments.map fun c => c.comment.id).Nodup

structure View where
  states : List PrReviewState := []
  fetches : List Fetch := []
  /-- The comments the host, the ledger and other programs told it of. -/
  told : List ReviewComment := []
  /-- The comments the ledger took. -/
  recorded : List (Int × String) := []
  facts : List Fact := []
  /-- The pull request whose cycle it holds. -/
  charge : Option String := none

namespace View

def next {β : Type} (g : View) (c : Call β) (b : β) (s : Desk) : View :=
  let g := { g with facts := g.facts ++ (c.fact b).toList }
  match c, b with
  | .activeStates _, states => { g with states := g.states ++ states }
  | .activeState _ _, state => { g with states := g.states ++ state.toList }
  | .getActivePrReviewStates, .ok states => { g with states := g.states ++ states }
  | .remember _ _, state => { g with states := g.states ++ [state] }
  | .getNewComments feed repo number since, .ok comments =>
    { g with
      fetches := g.fetches ++ [⟨feed, repo, number, since, comments, s.past⟩]
      told := g.told ++ comments.map HostComment.comment }
  | .drainPending _, events => { g with told := g.told ++ events.flatMap ReviewEvent.comments }
  | .getUnhandledPrReviewComments _, .ok comments => { g with told := g.told ++ comments }
  | .recordPrReviewComment _ c, .ok () => { g with recorded := g.recorded ++ [(c.id, c.kind)] }
  | .chargePrReviewCycle pr _, .ok true => { g with charge := some pr.prUrl }
  | .rerun _ _ _, .ok () => { g with charge := none }
  | .refundPrReviewCycle _, _ => { g with charge := none }
  | _, _ => g

/-- Why feedback needs no further work: the agent was rerun with it, its source is gone, or the pull
request is left to humans. -/
def Answered (sources : List String) (facts : List Fact) (a : FixAttempt) (feedback : String) : Prop :=
  .rerun a feedback ∈ facts ∨ (a.key.source ≠ SECURITY_FIX_SOURCE ∧ a.key.source ∉ sources) ∨
    ∃ prUrl, a.prUrl = some prUrl ∧
      (.capReached prUrl ∈ facts ∨ ∃ n, MAX_REVIEW_CYCLES ≤ n ∧ .cycles prUrl n ∈ facts)

/-- The feedback has the body of a comment with this reference. -/
def Shows (told : List ReviewComment) (feedback : String) (ref : Int × String) : Prop :=
  ∃ c ∈ told, (c.id, c.kind) = ref ∧ c.body.toList <:+: feedback.toList

variable (S : ScmProvider) (sources : List String)

/-- The comments of the fetch that ask for something and were not read yet are in the ledger. -/
def Settled (g : View) (f : Fetch) (feed : Feed) (cursor : Cursor) : Prop :=
  f.Distinct → ∀ c ∈ f.comments, S.asks feed c = true →
    S.commentIsAfterCursor c.comment cursor = true → c.ref ∈ g.recorded

def InOrder {β : Type} (g : View) : Call β → Prop
  | .advance _ prUrl (.comment feed cursor) => ∃ state ∈ g.states, state.prUrl = prUrl ∧
      ∃ f ∈ g.fetches, f.Of feed state ∧ g.Settled S f feed (state.cursor feed) ∧
        cursor.time.isSome = true ∧ (cursor = state.cursor feed ∨ ∃ c ∈ f.comments, cursor = c.position)
  | .recordPrReviewComment prUrl c => ∃ state ∈ g.states, state.prUrl = prUrl ∧
      ∃ f ∈ g.fetches, f.repo = state.repo ∧ f.number = state.prNumber ∧ ∃ x ∈ f.comments, x.comment = c
  | .remember _ state => parsePrUrl state.prUrl = some (state.repo, state.prNumber) ∧
      state.lastComment = {} ∧ state.lastIssueComment = {}
  | .loadStates _ states => states ⊆ g.states
  | .savePrReviewState state => state ∈ g.states
  | .markPrReviewCommentsHandled prUrl => ∃ a, .found a ∈ g.facts ∧ a.prUrl = some prUrl ∧
      isTerminalAttemptStatus a.status = true
  | .markPrReviewCommentsHandledByIds prUrl refs => ∃ a feedback, .found a ∈ g.facts ∧
      a.prUrl = some prUrl ∧ Answered sources g.facts a feedback ∧ ∀ ref ∈ refs, Shows g.told feedback ref
  | .buffer _ events => events.flatMap ReviewEvent.comments ⊆ g.told
  | .notePrReviewCommentFailureByIds _ _ maxAttempts => maxAttempts = MAX_REVIEW_COMMENT_ATTEMPTS
  | .chargePrReviewCycle _ cap => cap = MAX_REVIEW_CYCLES ∧ g.charge = none
  | .refundPrReviewCycle prUrl => g.charge = some prUrl
  | _ => True

/-- What was seen stays seen. -/
structure Grows (g g' : View) : Prop where
  states : g.states ⊆ g'.states
  fetches : g.fetches ⊆ g'.fetches
  told : g.told ⊆ g'.told
  recorded : g.recorded ⊆ g'.recorded
  facts : g.facts ⊆ g'.facts
  charge : g'.charge = g.charge

variable {g g' g'' : View}

theorem Grows.refl (g : View) : Grows g g := ⟨.refl _, .refl _, .refl _, .refl _, .refl _, rfl⟩

theorem Grows.trans (h : Grows g g') (h' : Grows g' g'') : Grows g g'' where
  states _ hx := h'.states (h.states hx)
  fetches _ hx := h'.fetches (h.fetches hx)
  told _ hx := h'.told (h.told hx)
  recorded _ hx := h'.recorded (h.recorded hx)
  facts _ hx := h'.facts (h.facts hx)
  charge := h'.charge.trans h.charge

end View

def watch : Monitor Call Desk Job View where
  idle := {}
  start _ := {}
  next := View.next

section Programs

variable {S : ScmProvider} {sources : List String} {p : Nat} {g : View} {state : PrReviewState}
  {selfLogin : Option String} {f : Fetch}

abbrev Keeps (S : ScmProvider) (sources : List String) {α : Type} (p : Asks α) (Q : α → View → Prop)
    (g : View) : Prop :=
  Allowed watch (View.InOrder S sources) p Q g

/-- A call that neither holds nor gives back a cycle. -/
def Call.plain {β : Type} : Call β → Bool
  | .chargePrReviewCycle .. | .refundPrReviewCycle .. | .rerun .. => false
  | _ => true

theorem grows_watch {β : Type} (g : View) {c : Call β} (hc : c.plain = true) (b : β) (s : Desk) :
    g.Grows (watch.next g c b s) := by
  have hsub {α : Type} (l m : List α) : l ⊆ l ++ m := List.subset_append_left l m
  have hfacts : g.Grows { g with facts := g.facts ++ (c.fact b).toList } :=
    { View.Grows.refl g with facts := hsub _ _ }
  refine hfacts.trans ?_
  cases c with
  | activeStates p | activeState p prUrl | remember p state => exact { View.Grows.refl _ with states := hsub _ _ }
  | getActivePrReviewStates =>
    cases b with
    | error e => exact .refl _
    | ok states => exact { View.Grows.refl _ with states := hsub _ _ }
  | getNewComments feed repo number since =>
    cases b with
    | error e => exact .refl _
    | ok comments => exact { View.Grows.refl _ with fetches := hsub _ _, told := hsub _ _ }
  | drainPending p => exact { View.Grows.refl _ with told := hsub _ _ }
  | getUnhandledPrReviewComments prUrl =>
    cases b with
    | error e => exact .refl _
    | ok comments => exact { View.Grows.refl _ with told := hsub _ _ }
  | recordPrReviewComment prUrl c =>
    cases b with
    | error e => exact .refl _
    | ok u => exact { View.Grows.refl _ with recorded := hsub _ _ }
  | chargePrReviewCycle pr cap => cases hc
  | refundPrReviewCycle prUrl => cases hc
  | rerun attempt feedback branch => cases hc
  | _ => exact .refl _

/-! ### A poll -/

theorem keeps_takeReviews (reviews : List CodeReview) :
    Keeps S sources (S.takeReviews p state selfLogin reviews) (fun _ => g.Grows) g := by
  unfold ScmProvider.takeReviews
  refine (allowed_foldlM (L := fun _ => g.Grows) (fun review _ s g' hg => ?_) (.refl g)).bind
    fun found g' hg => ?_
  · unfold ScmProvider.takeReview
    split
    · exact hg
    · exact allowed_call trivial fun r d => hg.trans (grows_watch g' rfl r d)
  · split
    · exact allowed_call trivial fun r d => hg.trans (grows_watch g' rfl r d)
    · exact hg

theorem keeps_recordAll {prUrl : String} {l : List ReviewComment}
    (h : ∀ c ∈ l, ∀ g', g.Grows g' → g'.InOrder S sources (.recordPrReviewComment prUrl c)) :
    Keeps S sources (ScmProvider.recordAll prUrl l)
      (fun recorded g' => g.Grows g' ∧ (recorded = true → ∀ c ∈ l, (c.id, c.kind) ∈ g'.recorded)) g := by
  induction l generalizing g with
  | nil => exact ⟨.refl g, fun _ => List.forall_mem_nil _⟩
  | cons c l ih =>
    obtain ⟨hc, hl⟩ := List.forall_mem_cons.mp h
    refine allowed_call (hc g (.refl g)) fun r d => ?_
    have hg := grows_watch g (c := .recordPrReviewComment prUrl c) rfl r d
    refine (ih fun c hm g' hg' => hl c hm g' (hg.trans hg')).bind fun others g' hg' => ?_
    refine ⟨hg.trans hg'.1, fun hr => ?_⟩
    obtain ⟨hok, hothers⟩ := Bool.and_eq_true_iff.mp hr
    refine List.forall_mem_cons.mpr ⟨hg'.1.recorded ?_, hg'.2 hothers⟩
    cases r with
    | error e => cases hok
    | ok u => exact List.mem_append_right _ List.mem_cons_self

/-- The latest of some comments is where the cursor was, or one of them. -/
theorem latest_mem (cursor : Cursor) (l : List ReviewComment) :
    S.latest cursor l = cursor ∨ ∃ c ∈ l, S.latest cursor l = ⟨some c.id, some c.updatedAt⟩ := by
  induction l generalizing cursor with
  | nil => exact .inl rfl
  | cons c l ih =>
    change S.latest (S.advance cursor c) l = cursor ∨
      ∃ c' ∈ c :: l, S.latest (S.advance cursor c) l = ⟨some c'.id, some c'.updatedAt⟩
    rcases ih (S.advance cursor c) with h | ⟨c', hc', h⟩
    · rw [h]
      unfold ScmProvider.advance
      dsimp only
      split
      · exact .inr ⟨c, List.mem_cons_self, rfl⟩
      · exact .inl rfl
    · exact .inr ⟨c', List.mem_cons_of_mem _ hc', h⟩

theorem isSome_latest {cursor : Cursor} {l : List ReviewComment}
    (h : cursor.time.isSome = true ∨ l ≠ []) : (S.latest cursor l).time.isSome = true := by
  induction l generalizing cursor with
  | nil => exact h.resolve_right fun hn => hn rfl
  | cons c l ih =>
    refine ih (.inl ?_ : (S.advance cursor c).time.isSome = true ∨ l ≠ [])
    unfold ScmProvider.advance
    dsimp only
    split
    · rfl
    · rename_i hr
      cases ht : cursor.time with
      | none => exact absurd (by simp [ht]) hr
      | some time => rfl

theorem mem_unread {feed : Feed} {comments : List HostComment} {c : ReviewComment} :
    c ∈ S.unread feed state selfLogin comments ↔
      ∃ x ∈ comments, S.isIgnoredAuthor x.user selfLogin = false ∧ x.comment = c ∧
        S.commentIsAfterCursor c (state.cursor feed) = true := by
  simp only [ScmProvider.unread, List.mem_filter, List.mem_map, Bool.not_eq_true']
  constructor
  · rintro ⟨⟨x, ⟨hx, hi⟩, rfl⟩, ha⟩
    exact ⟨x, hx, hi, rfl, ha⟩
  · rintro ⟨x, hx, hi, rfl, ha⟩
    exact ⟨⟨x, ⟨hx, hi⟩, rfl⟩, ha⟩

theorem keeps_saveCursor {feed : Feed} {recorded : Bool} (hs : state ∈ g.states) (hf : f ∈ g.fetches)
    (hof : f.Of feed state)
    (hr : recorded = true → g.Settled S f feed (state.cursor feed)) :
    Keeps S sources (S.saveCursor p feed state recorded (S.unread feed state selfLogin f.comments))
      (fun _ => g.Grows) g := by
  unfold ScmProvider.saveCursor
  split
  · rename_i h
    obtain ⟨hrec, hne⟩ := Bool.and_eq_true_iff.mp h
    rw [Bool.not_eq_true', List.isEmpty_eq_false_iff] at hne
    refine allowed_perform ⟨state, hs, rfl, f, hf, hof, hr hrec, isSome_latest (.inr hne), ?_⟩
      fun r d => grows_watch g rfl r d
    refine (latest_mem _ _).imp id ?_
    rintro ⟨c, hc, hl⟩
    obtain ⟨x, hx, -, rfl, -⟩ := mem_unread.mp hc
    exact ⟨x, hx, hl⟩
  · exact .refl g

/-- The author of a comment that asks for something is not ignored. -/
theorem not_ignored_of_asks {feed : Feed} {c : HostComment} (h : S.asks feed c = true) (known : Bool) :
    S.isIgnoredAuthor c.user (if known = true then S.login else none) = false := by
  have hs := (Bool.and_eq_true_iff.mp h).1
  rw [Bool.not_eq_true'] at hs
  cases known with
  | true => exact hs
  | false => exact (Bool.or_eq_false_iff.mp hs).2

/-! ### The comments of a review -/

/-- The event is the comment's review. -/
def ReviewEvent.Owns (e : ReviewEvent) (c : ReviewComment) : Prop :=
  match e with
  | .reviewSubmitted _ _ _ review _ => c.pullRequestReviewId = some review.id
  | .commentsAdded .. => False

theorem attach_owns (events : List ReviewEvent) (c x : ReviewComment) :
    (∃ e ∈ ReviewEvent.attach events c, e.Owns x) ↔ ∃ e ∈ events, e.Owns x := by
  induction events with
  | nil => exact Iff.rfl
  | cons e events ih =>
    cases e with
    | reviewSubmitted prUrl repo prNumber review inlineComments =>
      rw [ReviewEvent.attach]
      split
      · simp only [List.mem_cons, exists_eq_or_imp, ReviewEvent.Owns]
      · simp only [List.mem_cons, exists_eq_or_imp, ih]
    | commentsAdded prUrl repo prNumber comments =>
      simp only [ReviewEvent.attach, List.mem_cons, exists_eq_or_imp, ih]

/-- A comment goes to the first event of its review. -/
theorem mem_attach {events : List ReviewEvent} {c x : ReviewComment} :
    x ∈ (ReviewEvent.attach events c).flatMap ReviewEvent.comments ↔
      x ∈ events.flatMap ReviewEvent.comments ∨ x = c ∧ ∃ e ∈ events, e.Owns c := by
  induction events with
  | nil => simp [ReviewEvent.attach]
  | cons e events ih =>
    cases e with
    | reviewSubmitted prUrl repo prNumber review inlineComments =>
      rw [ReviewEvent.attach]
      split
      · rename_i h
        simp only [List.flatMap_cons, List.mem_append, ReviewEvent.comments, List.mem_cons,
          exists_eq_or_imp, ReviewEvent.Owns, h, true_or, and_true]
        tauto
      · rename_i h
        simp only [List.flatMap_cons, List.mem_append, ih, List.mem_cons, exists_eq_or_imp,
          ReviewEvent.Owns, h, false_or]
        tauto
    | commentsAdded prUrl repo prNumber comments =>
      simp only [ReviewEvent.attach, List.flatMap_cons, List.mem_append, ih, List.mem_cons,
        exists_eq_or_imp, ReviewEvent.Owns, false_or]
      tauto

theorem mem_foldl_attach {events : List ReviewEvent} {l : List ReviewComment} {x : ReviewComment} :
    x ∈ (l.foldl ReviewEvent.attach events).flatMap ReviewEvent.comments ↔
      x ∈ events.flatMap ReviewEvent.comments ∨ x ∈ l ∧ ∃ e ∈ events, e.Owns x := by
  induction l generalizing events with
  | nil => simp
  | cons c l ih =>
    rw [List.foldl_cons, ih, mem_attach, attach_owns, List.mem_cons]
    constructor
    · rintro ((h | ⟨rfl, h⟩) | ⟨h, ho⟩)
      · exact .inl h
      · exact .inr ⟨.inl rfl, h⟩
      · exact .inr ⟨.inr h, ho⟩
    · rintro (h | ⟨rfl | h, ho⟩)
      · exact .inl (.inl h)
      · exact .inl (.inr ⟨rfl, ho⟩)
      · exact .inr ⟨h, ho⟩

/-- What goes to the ledger was unread. -/
theorem sorted_subset (taken : List CodeReview) (unread : List ReviewComment) :
    (ScmProvider.reviewEvents state taken unread).flatMap ReviewEvent.comments ++ S.standalone taken unread ⊆
      unread := by
  intro c hc
  rcases List.mem_append.mp hc with hc | hc
  · rcases mem_foldl_attach.mp hc with hc | hc
    · simp [ReviewEvent.comments] at hc
    · exact hc.1
  · exact (List.mem_filter.mp hc).1

/-- A comment that stands alone goes to the ledger. -/
theorem mem_sorted (taken : List CodeReview) {unread : List ReviewComment} {c : ReviewComment}
    (hd : ∀ c' ∈ unread, c'.id = c.id → c' = c) (hc : c ∈ unread) (ha : S.standsAlone c = true) :
    c ∈ (ScmProvider.reviewEvents state taken unread).flatMap ReviewEvent.comments ++
      S.standalone taken unread := by
  refine List.mem_append.mpr ?_
  by_cases ht : (c.pullRequestReviewId.any fun id => id ∈ taken.map CodeReview.id) = true
  · obtain ⟨id, hid, hin⟩ := (Option.any_eq_true _ _).mp ht
    obtain ⟨review, hreview, rfl⟩ := List.mem_map.mp (of_decide_eq_true hin)
    exact .inl (mem_foldl_attach.mpr (.inr ⟨hc, _, List.mem_map_of_mem hreview, hid⟩))
  · refine .inr (List.mem_filter.mpr ⟨hc, Bool.and_eq_true_iff.mpr ⟨decide_eq_true fun hin => ?_, ha⟩⟩)
    obtain ⟨c', hc', hid⟩ := List.mem_map.mp hin
    obtain ⟨hu, hr⟩ := List.mem_filter.mp hc'
    rw [hd c' hu hid] at hr
    exact ht hr

/-- No other unread comment of the answer has its number. -/
theorem unread_distinct {feed : Feed} {x : HostComment} (hd : f.Distinct) (hx : x ∈ f.comments) :
    ∀ c ∈ S.unread feed state selfLogin f.comments, c.id = x.comment.id → c = x.comment := by
  intro c hc hid
  obtain ⟨z, hz, -, rfl, -⟩ := mem_unread.mp hc
  rw [List.inj_on_of_nodup_map hd hz hx hid]

theorem keeps_checkComments {taken : List CodeReview} (known : Bool) (hs : state ∈ g.states)
    (hf : f ∈ g.fetches) (hof : f.Of .inline state) (ht : f.comments.map HostComment.comment ⊆ g.told) :
    Keeps S sources (S.checkComments p state (if known = true then S.login else none) taken f.comments)
      (fun r g' => g.Grows g' ∧ r.1.flatMap ReviewEvent.comments ++ r.2 ⊆ g'.told) g := by
  refine (keeps_recordAll fun c hc g' hg' => ?_).bind fun recorded g' hg' => ?_
  · obtain ⟨x, hx, -, hxc, -⟩ := mem_unread.mp (sorted_subset _ _ hc)
    exact ⟨state, hg'.states hs, rfl, f, hg'.fetches hf, hof.repo, hof.number, x, hx, hxc⟩
  · refine (keeps_saveCursor (hg'.1.states hs) (hg'.1.fetches hf) hof fun hr hd x hx ha hafter => ?_).bind
      fun _ g'' hg'' => ⟨hg'.1.trans hg'', fun c hc => ?_⟩
    · refine hg'.2 hr x.comment (mem_sorted _ (unread_distinct hd hx) ?_ (Bool.and_eq_true_iff.mp ha).2)
      exact mem_unread.mpr ⟨x, hx, not_ignored_of_asks ha known, rfl, hafter⟩
    · obtain ⟨x, hx, -, rfl, -⟩ := mem_unread.mp (sorted_subset _ _ hc)
      exact hg''.told (hg'.1.told (ht (List.mem_map_of_mem hx)))

theorem keeps_checkConversation (known : Bool) (hs : state ∈ g.states) :
    Keeps S sources (S.checkConversation p state (if known = true then S.login else none))
      (fun r g' => g.Grows g' ∧ r ⊆ g'.told) g := by
  refine allowed_call trivial fun r d => ?_
  have hg := grows_watch g (c := .getNewComments .conversation state.repo state.prNumber
    (state.cursor .conversation).time) rfl r d
  cases r with
  | error e => exact ⟨hg, List.nil_subset _⟩
  | ok comments =>
    generalize hg' : watch.next g (.getNewComments .conversation state.repo state.prNumber
      (state.cursor .conversation).time) (.ok comments) d = g₁ at hg ⊢
    obtain ⟨f, hf, hof, ht, rfl⟩ : ∃ f ∈ g₁.fetches, f.Of .conversation state ∧
        f.comments.map HostComment.comment ⊆ g₁.told ∧ f.comments = comments := by
      refine ⟨⟨.conversation, state.repo, state.prNumber, (state.cursor .conversation).time, comments, d.past⟩,
        ?_, ⟨rfl, rfl, rfl, rfl⟩, ?_, rfl⟩
      · rw [← hg']
        exact List.mem_append_right _ List.mem_cons_self
      · rw [← hg']
        exact List.subset_append_right _ _
    refine (keeps_recordAll fun c hc g' hg' => ?_).bind fun recorded g' hg' => ?_
    · obtain ⟨x, hx, -, hxc, -⟩ := mem_unread.mp (List.mem_filter.mp hc).1
      exact ⟨state, hg'.states (hg.states hs), rfl, f, hg'.fetches hf, hof.repo, hof.number, x, hx, hxc⟩
    · refine (keeps_saveCursor (hg'.1.states (hg.states hs)) (hg'.1.fetches hf) hof
        fun hr _ x hx ha hafter => ?_).bind fun _ g'' hg'' => ⟨hg.trans (hg'.1.trans hg''), fun c hc => ?_⟩
      · refine hg'.2 hr x.comment (List.mem_filter.mpr ⟨?_, (Bool.and_eq_true_iff.mp ha).2⟩)
        exact mem_unread.mpr ⟨x, hx, not_ignored_of_asks ha known, rfl, hafter⟩
      · obtain ⟨x, hx, -, rfl, -⟩ := mem_unread.mp (List.mem_filter.mp hc).1
        exact hg''.told (hg'.1.told (ht (List.mem_map_of_mem hx)))

theorem unseen_subset (seen : List (Int × String)) (l : List ReviewComment) :
    ScmProvider.unseen seen l ⊆ l := by
  induction l generalizing seen with
  | nil => exact .refl _
  | cons c l ih =>
    show (if (c.id, c.kind) ∈ seen then ScmProvider.unseen seen l
      else c :: ScmProvider.unseen ((c.id, c.kind) :: seen) l) ⊆ c :: l
    split
    · exact List.subset_cons_of_subset c (ih _)
    · exact List.cons_subset_cons c (ih _)

theorem keeps_resurface {prUrl : String} {events : List ReviewEvent} {added : List ReviewComment}
    (h : added ⊆ g.told) :
    Keeps S sources (ScmProvider.resurface prUrl events added) (fun r g' => g.Grows g' ∧ r ⊆ g'.told) g := by
  refine allowed_call trivial fun r d => ?_
  have hg := grows_watch g (c := .getUnhandledPrReviewComments prUrl) rfl r d
  cases r with
  | error e => exact ⟨hg, List.Subset.trans h hg.told⟩
  | ok pending =>
    refine ⟨hg, List.append_subset.mpr ⟨List.Subset.trans h hg.told, ?_⟩⟩
    exact List.Subset.trans (unseen_subset _ _) (List.subset_append_right _ _)

/-- What the events hold was told. -/
def View.Holds (g : View) (events : List ReviewEvent) : Prop := events.flatMap ReviewEvent.comments ⊆ g.told

theorem View.Grows.holds {g g' : View} {events : List ReviewEvent} (h : g.Grows g') (he : g.Holds events) :
    g'.Holds events := List.Subset.trans he h.told

theorem keeps_checkPrReviews (hs : state ∈ g.states) :
    Keeps S sources (S.checkPrReviews p state).run
      (fun r g' => g.Grows g' ∧ ∀ events, r = .ok events → g'.Holds events) g := by
  refine allowed_lift trivial fun known d => ?_
  have h₁ := grows_watch g (c := .knowsLogin) rfl known d
  refine allowed_tryPerform trivial (fun reviews d => ?_) fun e d =>
    ⟨h₁.trans (grows_watch _ rfl _ d), fun _ h => by cases h⟩
  have h₂ := h₁.trans (grows_watch _ (c := .getNewReviews state.repo state.prNumber state.lastReviewTime)
    rfl (.ok reviews) d)
  refine Allowed.lift (keeps_takeReviews reviews) fun taken g₃ h₃ => ?_
  refine allowed_lift trivial fun r d => ?_
  have h₄ := grows_watch g₃ (c := .getNewComments .inline state.repo state.prNumber
    (state.cursor .inline).time) rfl r d
  have h := h₂.trans (h₃.trans h₄)
  cases r with
  | error e =>
    refine ⟨h, ?_⟩
    rintro _ ⟨rfl⟩ c hc
    simp [ReviewEvent.comments] at hc
  | ok comments =>
    generalize hg : watch.next g₃ (.getNewComments .inline state.repo state.prNumber
      (state.cursor .inline).time) (.ok comments) d = g₄ at h ⊢
    obtain ⟨f, hf, hof, ht, rfl⟩ : ∃ f ∈ g₄.fetches, f.Of .inline state ∧
        f.comments.map HostComment.comment ⊆ g₄.told ∧ f.comments = comments := by
      refine ⟨⟨.inline, state.repo, state.prNumber, (state.cursor .inline).time, comments, d.past⟩,
        ?_, ⟨rfl, rfl, rfl, rfl⟩, ?_, rfl⟩
      · rw [← hg]
        exact List.mem_append_right _ List.mem_cons_self
      · rw [← hg]
        exact List.subset_append_right _ _
    refine Allowed.bind (Q := fun events g' => g.Grows g' ∧ g'.Holds events) ?_ fun events g' hg' =>
      ⟨hg'.1, ?_⟩
    · refine (keeps_checkComments known (h.states hs) hf hof ht).bind fun found g₅ h₅ => ?_
      obtain ⟨events, standalone⟩ := found
      obtain ⟨hevents, halone⟩ := List.append_subset.mp h₅.2
      refine (keeps_checkConversation known (h₅.1.states (h.states hs))).bind fun feedback g₆ h₆ => ?_
      have hadded : standalone ++ feedback ⊆ g₆.told :=
        List.append_subset.mpr ⟨List.Subset.trans halone h₆.1.told, h₆.2⟩
      refine (keeps_resurface hadded).bind fun added g₇ h₇ => ?_
      refine ⟨h.trans (h₅.1.trans (h₆.1.trans h₇.1)), ?_⟩
      have hold : g₇.Holds events := List.Subset.trans hevents (h₆.1.trans h₇.1).told
      split
      · exact hold
      · rw [View.Holds, List.flatMap_append]
        refine List.append_subset.mpr ⟨hold, ?_⟩
        rw [List.flatMap_singleton]
        exact h₇.2
    · rintro _ ⟨rfl⟩
      exact hg'.2

theorem keeps_checkForReviews (p : Nat) :
    Keeps S sources (S.checkForReviews p) (fun events g' => g.Grows g' ∧ g'.Holds events) g := by
  refine allowed_call trivial fun events d => ?_
  have h₁ := grows_watch g (c := .drainPending p) rfl events d
  have hold : (watch.next g (.drainPending p) events d).Holds events := List.subset_append_right _ _
  split
  · refine allowed_call trivial fun states d => ?_
    have h₂ := grows_watch (watch.next g (.drainPending p) events d) (c := .activeStates p) rfl states d
    refine (allowed_foldlM (L := fun events g' => View.Grows _ g' ∧ g'.Holds events)
      (fun state hs events g' hg' => ?_) ⟨.refl _, h₂.holds hold⟩).mono
      fun _ _ hg => ⟨(h₁.trans h₂).trans hg.1, hg.2⟩
    have hin : state ∈ g'.states := hg'.1.states (List.mem_append_right _ hs)
    refine (keeps_checkPrReviews hin).bind fun r g'' hg'' => ?_
    cases r with
    | error e => exact ⟨hg'.1.trans hg''.1, hg''.1.holds hg'.2⟩
    | ok found =>
      refine ⟨hg'.1.trans hg''.1, ?_⟩
      rw [View.Holds, List.flatMap_append]
      exact List.append_subset.mpr ⟨hg''.1.holds hg'.2, hg''.2 found rfl⟩
  · exact ⟨h₁, hold⟩

theorem keeps_checkForPr (p : Nat) (prUrl : String) :
    Keeps S sources (S.checkForPr p prUrl).run (fun _ => g.Grows) g := by
  unfold ScmProvider.checkForPr
  split
  · refine allowed_lift trivial fun found d => ?_
    have h₁ := grows_watch g (c := .activeState p prUrl) rfl found d
    cases found with
    | none => exact h₁
    | some state =>
      have hin : state ∈ (watch.next g (.activeState p prUrl) (some state) d).states :=
        List.mem_append_right _ List.mem_cons_self
      refine (keeps_checkPrReviews hin).tryBind (fun events g' hg' => ?_) fun _ _ hg' => h₁.trans hg'.1
      split
      · exact h₁.trans hg'.1
      · exact allowed_lift (hg'.2 events rfl) fun u d => (h₁.trans hg'.1).trans (grows_watch _ rfl u d)
  · exact .refl g

theorem keeps_watchPr (p : Nat) (h : g.InOrder S sources (.remember p state)) :
    Keeps S sources (watchPr p state) (fun _ _ => True) g :=
  allowed_call h fun _ _ => allowed_call (List.mem_append_right _ List.mem_cons_self) fun _ _ => trivial

theorem keeps_unwatchPr (p : Nat) (prUrl : String) :
    Keeps S sources (unwatchPr p prUrl) (fun _ => g.Grows) g := by
  refine allowed_call trivial fun r d => ?_
  have h := grows_watch g (c := .deactivatePrReviewState prUrl) rfl r d
  exact allowed_perform trivial fun u d => h.trans (grows_watch _ rfl u d)

theorem keeps_restore (p : Nat) : Keeps S sources (restore p) (fun _ _ => True) g := by
  refine allowed_call trivial fun r d => ?_
  cases r with
  | error e => exact trivial
  | ok states => exact allowed_perform (List.subset_append_right _ _) fun _ _ => trivial

/-! ### The feedback of a batch -/

theorem infix_join {l : List String} {s : String} (h : s ∈ l) : s.toList <:+: (String.join l).toList := by
  rw [String.toList_join]
  exact List.infix_of_mem_flatten (List.mem_map_of_mem h)

theorem mem_intersperse {α : Type*} {a sep : α} {l : List α} (h : a ∈ l) : a ∈ l.intersperse sep := by
  induction l with
  | nil => cases h
  | cons b l ih =>
    cases l with
    | nil => exact h
    | cons c l =>
      rw [List.intersperse_cons_cons]
      rcases List.mem_cons.mp h with rfl | h
      · exact List.mem_cons_self
      · exact List.mem_cons_of_mem _ (List.mem_cons_of_mem _ (ih h))

theorem infix_append_of_left {s a b : String} (h : s.toList <:+: a.toList) :
    s.toList <:+: (a ++ b).toList := by
  rw [String.toList_append]
  exact h.trans (List.prefix_append _ _).isInfix

theorem infix_append_of_right {s a b : String} (h : s.toList <:+: b.toList) :
    s.toList <:+: (a ++ b).toList := by
  rw [String.toList_append]
  exact h.trans (List.suffix_append _ _).isInfix

/-- The summary of an event has the bodies of its comments. -/
theorem infix_getFeedbackSummary {e : ReviewEvent} {c : ReviewComment} (h : c ∈ e.comments) :
    c.body.toList <:+: (e.getFeedbackSummary S).toList := by
  have hbody {a b : String} : c.body.toList <:+: (a ++ c.body ++ b).toList :=
    infix_append_of_left (infix_append_of_right (List.infix_refl _))
  cases e with
  | reviewSubmitted prUrl repo prNumber review inlineComments =>
    have hne : inlineComments.isEmpty = false := List.isEmpty_eq_false_iff.mpr (List.ne_nil_of_mem h)
    refine infix_append_of_right ?_
    rw [hne]
    exact infix_append_of_right (hbody.trans (infix_join (List.mem_map_of_mem h)))
  | commentsAdded prUrl repo prNumber comments => exact hbody.trans (infix_join (List.mem_map_of_mem h))

/-- Every reference of the batch is of a comment whose body is in its feedback. -/
def PrReviewFeedback.Shown (told : List ReviewComment) (b : PrReviewFeedback) : Prop :=
  ∀ ref ∈ b.refs, ∃ c ∈ told, (c.id, c.kind) = ref ∧
    ∃ feedback ∈ b.feedbacks, c.body.toList <:+: feedback.toList

variable {told : List ReviewComment}

theorem shown_addEvent {e : ReviewEvent} {groups : List PrReviewFeedback} (he : e.comments ⊆ told)
    (h : ∀ b ∈ groups, b.Shown told) : ∀ b ∈ PrReviewFeedback.addEvent S e groups, b.Shown told := by
  have hnew : ∀ ref ∈ e.commentRefs, ∃ c ∈ told, (c.id, c.kind) = ref ∧
      c.body.toList <:+: (e.getFeedbackSummary S).toList := by
    intro ref hr
    obtain ⟨c, hc, rfl⟩ := List.mem_map.mp hr
    exact ⟨c, he hc, rfl, infix_getFeedbackSummary hc⟩
  induction groups with
  | nil =>
    rintro b hb ref hr
    obtain rfl := List.mem_singleton.mp hb
    obtain ⟨c, hc, href, hi⟩ := hnew ref hr
    exact ⟨c, hc, href, _, List.mem_cons_self, hi⟩
  | cons b groups ih =>
    obtain ⟨hb, hgroups⟩ := List.forall_mem_cons.mp h
    unfold PrReviewFeedback.addEvent
    split
    · refine List.forall_mem_cons.mpr ⟨fun ref hr => ?_, hgroups⟩
      rcases List.mem_append.mp hr with hr | hr
      · obtain ⟨c, hc, href, feedback, hm, hi⟩ := hb ref hr
        exact ⟨c, hc, href, feedback, List.mem_append_left _ hm, hi⟩
      · obtain ⟨c, hc, href, hi⟩ := hnew ref hr
        exact ⟨c, hc, href, _, List.mem_append_right _ List.mem_cons_self, hi⟩
    · exact List.forall_mem_cons.mpr ⟨hb, ih hgroups⟩

theorem shown_group {events : List ReviewEvent} (h : events.flatMap ReviewEvent.comments ⊆ told) :
    ∀ b ∈ groupReviewFeedbackByPr S events, b.Shown told := by
  unfold groupReviewFeedbackByPr
  have hl : ∀ e ∈ events.filter (·.requiresAction S), e.comments ⊆ told := fun e he c hc =>
    h (List.mem_flatMap.mpr ⟨e, (List.mem_filter.mp he).1, hc⟩)
  generalize events.filter (·.requiresAction S) = l at hl
  suffices h : ∀ groups : List PrReviewFeedback, (∀ b ∈ groups, b.Shown told) →
      ∀ b ∈ l.foldl (fun groups e => PrReviewFeedback.addEvent S e groups) groups, b.Shown told from
    h [] (List.forall_mem_nil _)
  induction l with
  | nil => exact fun groups h => h
  | cons e l ih =>
    obtain ⟨he, hl⟩ := List.forall_mem_cons.mp hl
    exact fun groups h => ih hl _ (shown_addEvent he h)

theorem PrReviewFeedback.Shown.shows {b : PrReviewFeedback} (h : b.Shown told) :
    ∀ ref ∈ b.refs, View.Shows told b.summary ref := by
  intro ref hr
  obtain ⟨c, hc, href, feedback, hm, hi⟩ := h ref hr
  refine ⟨c, hc, href, hi.trans ?_⟩
  rw [PrReviewFeedback.summary, String.toList_intercalate]
  exact List.infix_of_mem_flatten (mem_intersperse (List.mem_map_of_mem hm))

theorem PrReviewFeedback.Shown.mono {told' : List ReviewComment} {b : PrReviewFeedback} (h : b.Shown told)
    (hsub : told ⊆ told') : b.Shown told' := fun ref hr =>
  (h ref hr).imp fun _ hc => ⟨hsub hc.1, hc.2⟩

/-! ### The answer to a batch -/

/-- What it knows, it goes on knowing. -/
structure Learns (g g' : View) : Prop where
  facts : g.facts ⊆ g'.facts
  told : g.told ⊆ g'.told

/-- And it holds no cycle. -/
structure Idle (g g' : View) : Prop extends Learns g g' where
  charge : g'.charge = none

theorem Learns.trans {g g' g'' : View} (h : Learns g g') (h' : Learns g' g'') : Learns g g'' :=
  ⟨List.Subset.trans h.facts h'.facts, List.Subset.trans h.told h'.told⟩

theorem View.Grows.learns {g g' : View} (h : g.Grows g') : Learns g g' := ⟨h.facts, h.told⟩

theorem Idle.grows {g g' g'' : View} (h : Idle g g') (h' : g'.Grows g'') : Idle g g'' :=
  ⟨h.toLearns.trans h'.learns, h'.charge.trans h.charge⟩

theorem learns_watch {g₀ : View} (h : Learns g₀ g) {β : Type} (c : Call β) (b : β) (s : Desk) :
    Learns g₀ (watch.next g c b s) := by
  by_cases hc : c.plain = true
  · exact h.trans (grows_watch g hc b s).learns
  · have hfacts (l : List Fact) : g₀.facts ⊆ g.facts ++ l :=
      List.Subset.trans h.facts (List.subset_append_left _ _)
    cases c with
    | chargePrReviewCycle pr cap => rcases b with e | _ | _ <;> exact ⟨hfacts _, h.told⟩
    | rerun attempt feedback branch => cases b <;> exact ⟨hfacts _, h.told⟩
    | refundPrReviewCycle prUrl => exact ⟨hfacts _, h.told⟩
    | _ => exact absurd rfl hc

theorem idle_watch {g₀ : View} (h : Idle g₀ g) {β : Type} {c : Call β} (hc : c.plain = true) (b : β)
    (s : Desk) : Idle g₀ (watch.next g c b s) := h.grows (grows_watch g hc b s)

theorem keeps_reviewCycleRecord {g₀ : View} {attempt : FixAttempt} {prUrl : String} (h : Idle g₀ g) :
    Keeps S sources (Watcher.reviewCycleRecord attempt prUrl)
      (fun r g' => Idle g₀ g' ∧ ∀ record ∈ r, .cycles prUrl record.val.reviewCycles ∈ g'.facts ∨
        record.val.reviewCycles = 0) g := by
  refine allowed_call trivial fun r d => ?_
  have h₁ := idle_watch h (c := .getPr prUrl) rfl r d
  rcases r with e | _ | record
  · exact ⟨h₁, by simp⟩
  · dsimp only
    split
    · refine allowed_call trivial fun now d => ⟨idle_watch h₁ rfl now d, ?_⟩
      rintro _ ⟨rfl⟩
      exact .inr rfl
    · exact ⟨h₁, by simp⟩
  · refine ⟨h₁, ?_⟩
    rintro _ ⟨rfl⟩
    exact .inl (List.mem_append_right _ List.mem_cons_self)

theorem keeps_usedUp {g₀ : View} {attempt : FixAttempt} (h : Idle g₀ g) :
    Keeps S sources (Watcher.usedUp attempt)
      (fun r g' => Idle g₀ g' ∧ ∀ prUrl ∈ r, attempt.prUrl = some prUrl ∧
        ∃ n, MAX_REVIEW_CYCLES ≤ n ∧ .cycles prUrl n ∈ g'.facts) g := by
  unfold Watcher.usedUp
  split
  · exact ⟨h, by simp⟩
  · rename_i prUrl hp
    refine (keeps_reviewCycleRecord h).bind fun r g' hg' => ?_
    cases r with
    | none => exact ⟨hg'.1, by simp⟩
    | some record =>
      dsimp only
      split
      · rename_i hmax
        refine ⟨hg'.1, ?_⟩
        rintro _ ⟨rfl⟩
        refine ⟨hp, _, hmax, (hg'.2 record rfl).resolve_right fun h0 => ?_⟩
        rw [h0] at hmax
        exact absurd hmax (by decide)
      · exact ⟨hg'.1, by simp⟩

theorem keeps_waitsForRepo {g₀ : View} {attempt : FixAttempt} (h : Idle g₀ g) :
    Keeps S sources (Watcher.waitsForRepo attempt) (fun _ => Idle g₀) g := by
  unfold Watcher.waitsForRepo
  split
  · exact allowed_perform trivial fun r d => idle_watch h rfl r d
  · exact h

/-- What the charge leaves the watcher with. -/
def Charged (g₀ : View) (prUrl : String) : ReviewCycleCharge → View → Prop
  | .charged, g => Learns g₀ g ∧ g.charge = some prUrl
  | .capReached, g => Idle g₀ g ∧ .capReached prUrl ∈ g.facts
  | .uncounted, g => Idle g₀ g

theorem keeps_chargeReviewCycle {g₀ : View} {attempt : FixAttempt} {prUrl : String} (h : Idle g₀ g) :
    Keeps S sources (Watcher.chargeReviewCycle attempt prUrl) (Charged g₀ prUrl) g := by
  refine (keeps_reviewCycleRecord h).bind fun r g' hg' => ?_
  cases r with
  | none => exact hg'.1
  | some record =>
    obtain ⟨record, rfl⟩ := record
    refine allowed_call ⟨rfl, hg'.1.charge⟩ fun r d => ?_
    have hl := learns_watch hg'.1.toLearns (.chargePrReviewCycle record MAX_REVIEW_CYCLES) r d
    rcases r with e | _ | _
    · exact ⟨hl, hg'.1.charge⟩
    · exact ⟨⟨hl, hg'.1.charge⟩, List.mem_append_right _ List.mem_cons_self⟩
    · exact ⟨hl, rfl⟩

/-- What the rerun leaves: no cycle held, and a reason if the feedback is handled. -/
def Rerun (sources : List String) (g₀ : View) (attempt : FixAttempt) (feedback : String)
    (r : Except Failure ReviewOutcome) (g : View) : Prop :=
  Idle g₀ g ∧ (r = .ok .handled → View.Answered sources g.facts attempt feedback)

theorem keeps_rerunCharged {g₀ : View} {attempt : FixAttempt} {prUrl feedback : String}
    {branch : Option String} {charge : ReviewCycleCharge} (hne : charge ≠ .capReached)
    (h : Charged g₀ prUrl charge g) :
    Keeps S sources (Watcher.rerunCharged attempt prUrl feedback branch charge).run
      (Rerun sources g₀ attempt feedback) g := by
  have hl : Learns g₀ g := by
    cases charge with
    | charged => exact h.1
    | capReached => exact absurd rfl hne
    | uncounted => exact h.toLearns
  refine allowed_lift trivial fun r d => ?_
  have hl' := learns_watch hl (.rerun attempt feedback branch) r d
  cases r with
  | ok u => exact ⟨⟨hl', rfl⟩, fun _ => .inl (List.mem_append_right _ List.mem_cons_self)⟩
  | error e =>
    dsimp only
    split
    · rename_i hc
      subst hc
      refine allowed_lift h.2 fun r d => ⟨⟨?_, rfl⟩, fun hr => by cases hr⟩
      exact learns_watch hl' (.refundPrReviewCycle prUrl) r d
    · rename_i hc
      have hu : charge = .uncounted := by cases charge <;> simp_all
      subst hu
      exact ⟨⟨hl', h.charge⟩, fun hr => by cases hr⟩

theorem keeps_rerunForFeedback {g₀ : View} {w : Watcher} {attempt : FixAttempt} {feedback : String}
    (h : Idle g₀ g) :
    Keeps S sources (w.rerunForFeedback attempt feedback).run (Rerun sources g₀ attempt feedback) g := by
  unfold Watcher.rerunForFeedback
  split
  · exact ⟨h, fun hr => by cases hr⟩
  · rename_i prUrl hp
    refine allowed_lift trivial fun r d => ?_
    have h₁ := idle_watch h (c := .getPr prUrl) rfl r d
    refine Allowed.lift (keeps_chargeReviewCycle h₁) fun charge g' hg' => ?_
    split
    · rename_i hc
      subst hc
      refine Allowed.lift (keeps_unwatchPr _ _) fun u g'' hg'' => ⟨hg'.1.grows hg'', fun _ => ?_⟩
      exact .inr (.inr ⟨prUrl, hp, .inl (hg''.facts hg'.2)⟩)
    · rename_i hc
      exact keeps_rerunCharged hc hg'

theorem keeps_processReviewAction {g₀ : View} {w : Watcher} {attempt : FixAttempt} {feedback : String}
    (hw : w.sources = sources) (h : Idle g₀ g) :
    Keeps S sources (w.processReviewAction attempt feedback).run (Rerun sources g₀ attempt feedback) g := by
  refine Allowed.lift (keeps_usedUp h) fun used g₁ hg₁ => ?_
  cases used with
  | some prUrl =>
    refine Allowed.lift (keeps_unwatchPr _ _) fun u g₂ hg₂ => ⟨hg₁.1.grows hg₂, fun _ => ?_⟩
    obtain ⟨hp, n, hn, hc⟩ := hg₁.2 prUrl rfl
    exact .inr (.inr ⟨prUrl, hp, .inr ⟨n, hn, hg₂.facts hc⟩⟩)
  | none =>
    refine Allowed.lift (keeps_waitsForRepo hg₁.1) fun waits g₂ hg₂ => ?_
    split
    · exact ⟨hg₂, fun hr => by cases hr⟩
    · split
      · exact keeps_rerunForFeedback hg₂
      · rename_i hsec
        split
        · refine allowed_tryPerform trivial (fun u d => ?_) fun e d => ?_
          · exact keeps_rerunForFeedback (idle_watch hg₂ (c := .getIssue attempt) rfl (.ok u) d)
          · exact ⟨idle_watch hg₂ (c := .getIssue attempt) rfl (.error e) d, fun hr => by cases hr⟩
        · rename_i hs
          exact ⟨hg₂, fun _ => .inr (.inl ⟨hsec, hw ▸ hs⟩)⟩

/-- Between the batches a watcher holds no cycle. -/
theorem keeps_handleFeedback {g₀ : View} {w : Watcher} {b : PrReviewFeedback} (hw : w.sources = sources)
    (hb : b.Shown g₀.told) (hg : Idle g₀ g) :
    Keeps S sources (w.handleFeedback b).run (fun _ => Idle g₀) g := by
  refine allowed_tryPerform trivial (fun found d => ?_) fun e d =>
    idle_watch hg (c := .getAttemptByPrUrl b.prUrl) rfl (.error e) d
  have h₀ := idle_watch hg (c := .getAttemptByPrUrl b.prUrl) rfl (.ok found) d
  cases found with
  | none => exact allowed_lift rfl fun r d => idle_watch h₀ rfl r d
  | some attempt =>
    obtain ⟨attempt, hp⟩ := attempt
    generalize hg' : watch.next g (.getAttemptByPrUrl b.prUrl) (.ok (some ⟨attempt, hp⟩)) d = g₁ at h₀ ⊢
    have hfound : .found attempt ∈ g₁.facts := by
      rw [← hg']
      exact List.mem_append_right _ List.mem_cons_self
    have h : Idle g₁ g₁ := ⟨⟨List.Subset.refl _, List.Subset.refl _⟩, h₀.charge⟩
    have hback {g₂ : View} (h : Idle g₁ g₂) : Idle g₀ g₂ := ⟨h₀.toLearns.trans h.toLearns, h.charge⟩
    dsimp only
    split
    · rename_i ht
      refine allowed_lift ⟨attempt, hfound, hp, ht⟩ fun r d => ?_
      have h₁ := idle_watch h (c := .markPrReviewCommentsHandled b.prUrl) rfl r d
      exact Allowed.lift (keeps_unwatchPr _ _) fun u g₂ hg₂ => hback (h₁.grows hg₂)
    · refine allowed_lift trivial fun running d => ?_
      have h₁ := idle_watch h (c := .isRunning) rfl running d
      split
      · refine Allowed.lift (keeps_processReviewAction hw h₁) fun outcome g₂ hg₂ => ?_
        refine Allowed.lift (Q := fun _ => Idle g₀) ?_ fun _ _ hg => hg
        have h₂ := hg₂.1
        rcases outcome with e | _ | _
        · refine allowed_call trivial fun running d => ?_
          have h₃ := idle_watch h₂ (c := .isRunning) rfl running d
          split
          · exact allowed_call rfl fun r d => hback (idle_watch h₃ rfl r d)
          · exact hback h₃
        · have hshown := (hb.mono (hback h₂).told).shows
          refine allowed_call ⟨attempt, b.summary, h₂.facts hfound, hp, hg₂.2 rfl, hshown⟩ fun r d => ?_
          exact hback (idle_watch h₂ rfl r d)
        · exact hback h₂
      · exact hback h₁

theorem keeps_checkReviews (p : Nat) (hg : g.charge = none) :
    Keeps S sources (Watcher.checkReviews ⟨S, sources, p⟩).run (fun _ g' => g'.charge = none) g := by
  refine allowed_lift trivial fun running d => ?_
  split
  · refine Allowed.lift (keeps_checkForReviews p) fun events g' hg' => ?_
    refine (allowed_tryForWhile (L := Idle g') (fun b hb g'' hg'' => ?_)
      ⟨⟨List.Subset.refl _, List.Subset.refl _⟩, hg'.1.charge.trans hg⟩).mono fun _ _ h => h.charge
    exact keeps_handleFeedback rfl (shown_group hg'.2 b hb) hg''
  · exact hg

theorem keeps_program (job : Job) :
    Keeps S sources (job.program S sources) (fun _ _ => True) (watch.start job) := by
  cases job with
  | checkReviews p => exact (keeps_checkReviews p rfl).bind (R := fun _ _ => True) fun _ _ _ => trivial
  | checkForPr p prUrl =>
    exact (keeps_checkForPr p prUrl).bind (R := fun _ _ => True) fun _ _ _ => trivial
  | watch p prUrl issueId source =>
    cases hp : parsePrUrl prUrl with
    | none =>
      simp only [Job.program, hp]
      exact trivial
    | some r =>
      simp only [Job.program, hp]
      exact keeps_watchPr p ⟨hp, rfl, rfl⟩
  | unwatch p prUrl => exact (keeps_unwatchPr p prUrl).mono fun _ _ _ => trivial
  | restart p => exact keeps_restore p
  | _ => exact trivial

end Programs

/-! ## The desk -/

namespace Desk

/-- The comment is in the ledger. -/
def InLedger (s : Desk) (ref : Int × String) : Prop := s.comments.Has fun r => r.pair = ref

/-- A process or the store has the state. -/
def Holds (s : Desk) (prUrl : String) (state : PrReviewState) : Prop :=
  (∃ p, (s.memory p).get prUrl = some state) ∨ s.states.get prUrl = some state

section

variable (S : ScmProvider)

/-- The comment comes after all of these in its feed. -/
def Newer (known : List Posting) (x : Posting) : Prop :=
  ∀ y ∈ known, y.isIn x.feed x.repo x.number = true → S.commentIsAfterCursor x.comment y.position = true

/-- Comments stay in the ledger, and a new one comes after all there was in its feed. -/
structure Grows (s s' : Desk) : Prop where
  past : s.past ⊆ s'.past
  posted : ∀ x ∈ s'.posted, x ∈ s.posted ∨ Newer S s.past x
  ledger : ∀ ref, s.InLedger ref → s'.InLedger ref
  log : s.log ⊆ s'.log

/-- The cursor is at a comment of the feed, and what asks for something is in the ledger or ahead. -/
structure Passed (s : Desk) (feed : Feed) (repo : String) (number : Int) (cursor : Cursor) : Prop where
  behind : cursor = {} ∨ ∃ y ∈ s.past, y.isIn feed repo number = true ∧ cursor = y.position
  ahead : ∀ x ∈ s.posted, x.isIn feed repo number = true → S.asks feed x.toHostComment = true →
    s.InLedger x.ref ∨ S.commentIsAfterCursor x.comment cursor = true

structure Kept (s : Desk) (state : PrReviewState) : Prop where
  placed : parsePrUrl state.prUrl = some (state.repo, state.prNumber)
  cursors : ∀ feed, s.Passed S feed state.repo state.prNumber (state.cursor feed)

/-- The host gave the comments that it knew of; a comment that is not in the answer was held back by the
time, or is newer. -/
structure Fetched (s : Desk) (f : Fetch) : Prop where
  distinct : f.Distinct
  known : f.known ⊆ s.past
  comments : ∀ c ∈ f.comments, ∃ y ∈ f.known, y.isIn f.feed f.repo f.number = true ∧ y.toHostComment = c
  posted : ∀ x ∈ s.posted, x.isIn f.feed f.repo f.number = true → x.toHostComment ∈ f.comments ∨
    (f.since.all fun t => S.timestampAtOrAfter x.comment.updatedAt t) = false ∨ Newer S f.known x

/-- The comment was posted with this text. -/
def Quoted (s : Desk) (c : ReviewComment) : Prop :=
  ∃ y ∈ s.past, y.ref = (c.id, c.kind) ∧ y.comment.body = c.body

/-- What a program has seen is so. -/
structure Seen (s : Desk) (g : View) : Prop where
  states : ∀ state ∈ g.states, s.Kept S state
  fetches : ∀ f ∈ g.fetches, s.Fetched S f
  told : ∀ c ∈ g.told, s.Quoted c
  recorded : ∀ ref ∈ g.recorded, s.InLedger ref
  facts : g.facts ⊆ s.log

end

variable {S : ScmProvider} {sources : List String} {s s' : Desk} {g : View} {f : Fetch} {feed : Feed}
  {repo : String} {number : Int} {cursor : Cursor} {state : PrReviewState} {prUrl : String}

theorem isIn_iff {x : Posting} :
    x.isIn feed repo number = true ↔ x.feed = feed ∧ x.repo = repo ∧ x.number = number := by
  simp [Posting.isIn, and_assoc]

theorem Grows.refl (s : Desk) : s.Grows S s := ⟨.refl _, fun _ hx => .inl hx, fun _ h => h, .refl _⟩

theorem Passed.grows (h : s.Passed S feed repo number cursor) (hg : s.Grows S s') :
    s'.Passed S feed repo number cursor where
  behind := h.behind.imp id fun ⟨y, hy, h⟩ => ⟨y, hg.past hy, h⟩
  ahead x hx hin ha := by
    rcases hg.posted x hx with hx | hnew
    · exact (h.ahead x hx hin ha).imp (hg.ledger _) id
    · right
      rcases h.behind with rfl | ⟨y, hy, hyin, rfl⟩
      · rfl
      · obtain ⟨rfl, rfl, rfl⟩ := isIn_iff.mp hin
        exact hnew y hy hyin

theorem Kept.grows (h : s.Kept S state) (hg : s.Grows S s') : s'.Kept S state :=
  ⟨h.placed, fun feed => (h.cursors feed).grows hg⟩

theorem Fetched.grows (h : s.Fetched S f) (hg : s.Grows S s') : s'.Fetched S f where
  distinct := h.distinct
  known := List.Subset.trans h.known hg.past
  comments := h.comments
  posted x hx hin := by
    rcases hg.posted x hx with hx | hnew
    · exact h.posted x hx hin
    · exact .inr (.inr fun y hy => hnew y (h.known hy))

theorem Quoted.grows {c : ReviewComment} (h : s.Quoted c) (hg : s.Grows S s') : s'.Quoted c :=
  h.imp fun _ hy => ⟨hg.past hy.1, hy.2⟩

theorem Seen.grows (h : s.Seen S g) (hg : s.Grows S s') : s'.Seen S g where
  states state hs := (h.states state hs).grows hg
  fetches f hf := (h.fetches f hf).grows hg
  told c hc := (h.told c hc).grows hg
  recorded ref hr := hg.ledger ref (h.recorded ref hr)
  facts := List.Subset.trans h.facts hg.log

theorem passed_empty : s.Passed S feed repo number {} := ⟨.inl rfl, fun _ _ _ _ => .inr rfl⟩

/-- What the filter by time holds back is not ahead of the cursor. -/
theorem not_after_of_since {c : ReviewComment}
    (h : (cursor.time.all fun t => S.timestampAtOrAfter c.updatedAt t) = false) :
    S.commentIsAfterCursor c cursor = false := by
  unfold ScmProvider.commentIsAfterCursor
  cases ht : cursor.time with
  | none =>
    rw [ht] at h
    cases h
  | some t =>
    rw [ht, Option.all_some, ScmProvider.timestampAtOrAfter, bne_eq_false_iff_eq] at h
    simp only [h]

/-- A cursor that moves to a comment of an answer passes only what is in the ledger. -/
theorem Passed.advance (h : s.Passed S feed state.repo state.prNumber (state.cursor feed))
    (hf : s.Fetched S f) (hof : f.Of feed state) (hset : g.Settled S f feed (state.cursor feed))
    (hrec : ∀ ref ∈ g.recorded, s.InLedger ref)
    (hc : cursor = state.cursor feed ∨ ∃ c ∈ f.comments, cursor = c.position) :
    s.Passed S feed state.repo state.prNumber cursor := by
  rcases hc with rfl | ⟨c, hc, rfl⟩
  · exact h
  · obtain ⟨hsince, hrepo, hnumber, hfeed⟩ := hof
    obtain ⟨y, hy, hyin, rfl⟩ := hf.comments c hc
    rw [hfeed, hrepo, hnumber] at hyin
    refine ⟨.inr ⟨y, hf.known hy, hyin, rfl⟩, fun x hx hin ha => ?_⟩
    have hprev := h.ahead x hx hin ha
    rcases hf.posted x hx (by rwa [hfeed, hrepo, hnumber]) with hm | hheld | hnew
    · left
      rcases hprev with hin | hafter
      · exact hin
      · exact hrec _ (hset hf.distinct _ hm ha hafter)
    · rw [hsince] at hheld
      refine .inl (hprev.resolve_right ?_)
      rw [not_after_of_since hheld]
      decide
    · obtain ⟨rfl, hr, hn⟩ := isIn_iff.mp hin
      exact .inr (hnew y hy (by rwa [hr, hn]))

/-! ### What a call changes -/

theorem stored_snd {env : Env} {α : Type} {f : Desk → Except Error α × Desk} {P : Desk → Prop} (h₀ : P s)
    (h : P (f s).2) : P (env.stored f s).2 := by
  unfold Env.stored
  split
  · exact h₀
  · exact h

/-- The writers of the states. -/
def moves {β : Type} : Call β → Bool
  | .advance .. | .remember .. | .forget .. | .loadStates .. | .savePrReviewState _ |
    .deactivatePrReviewState _ => true
  | _ => false

/-- The statement on the ledger that a call makes. -/
def commentOp {β : Type} (env : Env) (s : Desk) : Call β → Option Comments.CommentOp
  | .recordPrReviewComment prUrl c => some (.record (s.prReviews.rows.map fun r => (r.1 : Int)) prUrl c)
  | .markPrReviewCommentsHandled prUrl => some (.markHandled env.now prUrl)
  | .markPrReviewCommentsHandledByIds prUrl refs => some (.markHandledByIds env.now prUrl refs)
  | .notePrReviewCommentFailureByIds prUrl refs maxAttempts =>
    some (.noteFailure env.now prUrl refs maxAttempts)
  | _ => none

/-- The statement on the records that a call makes. -/
def prOp {β : Type} (env : Env) (s : Desk) : Call β → Option Prs.PrOp
  | .chargePrReviewCycle pr cap => some (.charge (s.attempts.rows.map Prod.fst) env.now pr cap)
  | .refundPrReviewCycle prUrl => some (.refund env.now prUrl)
  | _ => none

/-- The events that a call leaves to the watcher. -/
def buffered {β : Type} : Call β → List ReviewEvent
  | .buffer _ events => events
  | _ => []

/-- The keys of `pr_reviews`. -/
def reviewIds (s : Desk) : List Int := s.prReviews.rows.map fun r => (r.1 : Int)

theorem reviewIds_recordPrReview {record : PrReviewRecord} :
    s.reviewIds ⊆ reviewIds { s with prReviews := s.prReviews.insert record } :=
  List.map_subset _ (List.subset_append_left _ _)

/-- What a call does to the desk, but for the states. -/
structure Effect {β : Type} (env : Env) (c : Call β) (s s' : Desk) : Prop where
  posted : s'.posted = s.posted
  past : s'.past = s.past
  log : s.log ⊆ s'.log
  comments : s'.comments = s.comments ∨
    ∃ op, commentOp env s c = some op ∧ s'.comments = s.comments.exec op
  prs : s'.prs = s.prs ∨ ∃ op, prOp env s c = some op ∧ s'.prs = s.prs.exec op
  reviewIds : s.reviewIds ⊆ s'.reviewIds
  attempts : s'.attempts = s.attempts
  pending : ∀ p, ∀ e ∈ s'.pending p, e ∈ s.pending p ∨ e ∈ buffered c
  unmoved : moves c = false → s'.memory = s.memory ∧ s'.states = s.states

theorem Effect.refl {β : Type} (env : Env) (c : Call β) (s : Desk) : Effect env c s s :=
  ⟨rfl, rfl, .refl _, .inl rfl, .inl rfl, .refl _, rfl, fun _ _ h => .inl h, fun _ => ⟨rfl, rfl⟩⟩

theorem effect_does {β : Type} (env : Env) (c : Call β) (s : Desk) : Effect env c s (c.does S env s).2 := by
  have hrefl := Effect.refl env c s
  cases c with
  | advance p prUrl a =>
    change Effect env (.advance p prUrl a) s (s.advance env p prUrl a)
    unfold Desk.advance Desk.saveState
    split
    · exact hrefl
    · split <;> exact { hrefl with unmoved := fun h => by cases h }
  | remember p state | forget p prUrl | loadStates p states => exact { hrefl with unmoved := fun h => by cases h }
  | savePrReviewState state => exact stored_snd hrefl { hrefl with unmoved := fun h => by cases h }
  | deactivatePrReviewState prUrl =>
    refine stored_snd hrefl ?_
    dsimp only
    split <;> exact { hrefl with unmoved := fun h => by cases h }
  | recordPrReviewComment prUrl c =>
    refine stored_snd hrefl ?_
    dsimp only [Desk.recordPrReviewComment]
    split
    · rename_i comments h
      refine { hrefl with comments := .inr ⟨_, rfl, ?_⟩ }
      simp only [Comments.exec, h, Except.toOption, Option.getD_some]
    · exact hrefl
  | markPrReviewCommentsHandled prUrl | markPrReviewCommentsHandledByIds prUrl refs
  | notePrReviewCommentFailureByIds prUrl refs maxAttempts =>
    exact stored_snd hrefl { hrefl with comments := .inr ⟨_, rfl, rfl⟩ }
  | chargePrReviewCycle pr cap =>
    refine stored_snd hrefl ?_
    dsimp only [Desk.chargePrReviewCycle]
    split
    · rename_i charged prs h
      refine { hrefl with prs := .inr ⟨_, rfl, ?_⟩ }
      simp only [Prs.exec, h]
    · exact hrefl
  | refundPrReviewCycle prUrl => exact stored_snd hrefl { hrefl with prs := .inr ⟨_, rfl, rfl⟩ }
  | recordPrReview record => exact stored_snd hrefl { hrefl with reviewIds := reviewIds_recordPrReview }
  | getActivePrReviewStates | getUnhandledPrReviewComments prUrl | getAttemptByPrUrl prUrl | getPr prUrl =>
    exact stored_snd hrefl hrefl
  | drainPending p =>
    refine { hrefl with pending := fun q e he => ?_ }
    change e ∈ Function.update s.pending p [] q at he
    by_cases hq : q = p
    · subst hq
      rw [Function.update_self] at he
      cases he
    · rw [Function.update_of_ne hq] at he
      exact .inl he
  | buffer p events =>
    refine { hrefl with pending := fun q e he => ?_ }
    change e ∈ Function.update s.pending p (s.pending p ++ events) q at he
    by_cases hq : q = p
    · subst hq
      rw [Function.update_self] at he
      exact List.mem_append.mp he
    · rw [Function.update_of_ne hq] at he
      exact .inl he
  | _ => exact hrefl

theorem effect_answer {β : Type} (env : Env) (c : Call β) (s : Desk) :
    Effect env c s (c.answer S env s).2 :=
  have h := effect_does (S := S) env c s
  { h with log := List.Subset.trans h.log (List.subset_append_left _ _) }

/-- A call loses no comment of the ledger and adds none to the host's. -/
theorem grows_answer {β : Type} (env : Env) (c : Call β) (s : Desk) : s.Grows S (c.answer S env s).2 := by
  have h := effect_answer (S := S) env c s
  refine ⟨h.past ▸ .refl _, fun x hx => .inl (h.posted ▸ hx), ?_, h.log⟩
  rintro ref ⟨i, r, hi, hr⟩
  rcases h.comments with hc | ⟨op, -, hc⟩
  · exact ⟨i, r, by rwa [hc], hr⟩
  · obtain ⟨r', hi', hcont⟩ := Comments.continues_exec hi op
    exact ⟨i, r', by rwa [hc], hcont.pair.trans hr⟩

/-! ### The states -/

/-- Every state that is watched stands under its URL and is kept. -/
def AllKept (S : ScmProvider) (s : Desk) : Prop :=
  ∀ prUrl state, s.Holds prUrl state → state.prUrl = prUrl ∧ s.Kept S state

theorem Kept.congr {state' : PrReviewState} (h : s.Kept S state) (hu : state'.prUrl = state.prUrl)
    (hr : state'.repo = state.repo) (hn : state'.prNumber = state.prNumber)
    (hc : ∀ feed, s.Passed S feed state.repo state.prNumber (state'.cursor feed)) : s.Kept S state' := by
  refine ⟨by rw [hu, hr, hn]; exact h.placed, fun feed => ?_⟩
  rw [hr, hn]
  exact hc feed

theorem Kept.place {repo : String} {number : Int} (h : s.Kept S state)
    (hp : parsePrUrl state.prUrl = some (repo, number)) : repo = state.repo ∧ number = state.prNumber :=
  Prod.mk.inj (Option.some.inj (hp.symm.trans h.placed))

theorem apply_prUrl (a : Advance) (state : PrReviewState) : (a.apply state).prUrl = state.prUrl := by
  rcases a with _ | ⟨_ | _, _⟩ <;> rfl

theorem kept_apply {a : Advance} (h : s.Kept S state)
    (ha : ∀ feed cursor, a = .comment feed cursor →
      cursor.time.isSome = true ∧ s.Passed S feed state.repo state.prNumber cursor) :
    s.Kept S (a.apply state) := by
  cases a with
  | review id time => exact h.congr rfl rfl rfl fun feed => by cases feed <;> exact h.cursors _
  | comment feed cursor =>
    obtain ⟨ht, hp⟩ := ha feed cursor rfl
    have hor (time : Option String) : (⟨cursor.id, cursor.time.or time⟩ : Cursor) = cursor := by
      obtain ⟨t, ht⟩ := Option.isSome_iff_exists.mp ht
      rw [ht, Option.some_or, ← ht]
    cases feed with
    | inline =>
      refine h.congr rfl rfl rfl fun feed => ?_
      cases feed with
      | inline =>
        change s.Passed S .inline state.repo state.prNumber ⟨cursor.id, cursor.time.or _⟩
        rw [hor]
        exact hp
      | conversation => exact h.cursors .conversation
    | conversation =>
      refine h.congr rfl rfl rfl fun feed => ?_
      cases feed with
      | inline => exact h.cursors .inline
      | conversation =>
        change s.Passed S .conversation state.repo state.prNumber ⟨cursor.id, cursor.time.or _⟩
        rw [hor]
        exact hp

/-- A pull request that is watched anew keeps its cursor, or starts over. -/
theorem kept_merged {p : Nat} (hs : s.AllKept S)
    (hp : parsePrUrl state.prUrl = some (state.repo, state.prNumber)) (hc : state.lastComment = {})
    (hi : state.lastIssueComment = {}) : s.Kept S (s.merged p state) := by
  unfold Desk.merged
  cases hm : (s.memory p).get state.prUrl with
  | none =>
    refine ⟨hp, fun feed => ?_⟩
    cases feed with
    | inline =>
      change s.Passed S .inline state.repo state.prNumber state.lastComment
      rw [hc]
      exact passed_empty
    | conversation =>
      change s.Passed S .conversation state.repo state.prNumber state.lastIssueComment
      rw [hi]
      exact passed_empty
  | some existing =>
    obtain ⟨hu, hk⟩ := hs _ existing (.inl ⟨p, hm⟩)
    obtain ⟨hr, hn⟩ := hk.place (by rw [hu]; exact hp)
    refine ⟨hp, fun feed => ?_⟩
    cases feed with
    | inline =>
      change s.Passed S .inline state.repo state.prNumber
        ⟨state.lastComment.id.or existing.lastComment.id, state.lastComment.time.or existing.lastComment.time⟩
      rw [hc, hr, hn]
      exact hk.cursors .inline
    | conversation =>
      change s.Passed S .conversation state.repo state.prNumber state.lastIssueComment
      rw [hi]
      exact passed_empty

theorem holds_setMemory {p : Nat} {m : Dict String PrReviewState}
    (h : (s.setMemory p m).Holds prUrl state) : m.get prUrl = some state ∨ s.Holds prUrl state := by
  rcases h with ⟨q, hq⟩ | h
  · change (Function.update s.memory p m q).get prUrl = some state at hq
    by_cases hqp : q = p
    · subst hqp
      rw [Function.update_self] at hq
      exact .inl hq
    · rw [Function.update_of_ne hqp] at hq
      exact .inr (.inl ⟨q, hq⟩)
  · exact .inr (.inr h)

theorem holds_set {state' : PrReviewState} {prUrl' : String}
    (h : (s.states.set prUrl' state').get prUrl = some state) :
    prUrl = prUrl' ∧ state = state' ∨ s.Holds prUrl state := by
  rw [Dict.get_set] at h
  split at h
  · rename_i hu
    exact .inl ⟨hu, (Option.some.inj h).symm⟩
  · exact .inr (.inr h)

/-- A state that is loaded is one of those the store answered with. -/
theorem get_loaded {l : List PrReviewState} {m : Dict String PrReviewState}
    (h : (l.foldl (fun m state => m.set state.prUrl state) m).get prUrl = some state) :
    (state ∈ l ∧ state.prUrl = prUrl) ∨ m.get prUrl = some state := by
  induction l generalizing m with
  | nil => exact .inr h
  | cons x l ih =>
    rcases ih h with ⟨hm, hu⟩ | hm
    · exact .inl ⟨List.mem_cons_of_mem _ hm, hu⟩
    · rw [Dict.get_set] at hm
      split at hm
      · rename_i hu
        obtain rfl := Option.some.inj hm
        exact .inl ⟨List.mem_cons_self, hu.symm⟩
      · exact .inr hm

/-- A call in order leaves every state kept. -/
theorem allKept_does {β : Type} (env : Env) {c : Call β} (hs : s.AllKept S) (hg : s.Seen S g)
    (hc : g.InOrder S sources c) :
    ∀ prUrl state, ((c.does S env s).2).Holds prUrl state → state.prUrl = prUrl ∧ s.Kept S state := by
  intro url st h
  by_cases hm : moves c = true
  swap
  · -- The states are as they were.
    obtain ⟨hmem, hst⟩ := (effect_does (S := S) env c s).unmoved (Bool.eq_false_iff.mpr hm)
    refine hs url st ?_
    rwa [Holds, hmem, hst] at h
  cases c with
  | advance p prUrl a =>
    change (s.advance env p prUrl a).Holds url st at h
    cases hget : (s.memory p).get prUrl with
    | none =>
      simp only [Desk.advance, hget] at h
      exact hs url st h
    | some state =>
      simp only [Desk.advance, hget] at h
      obtain ⟨hu, hk⟩ := hs _ state (.inl ⟨p, hget⟩)
      have hnew : (a.apply state).prUrl = prUrl ∧ s.Kept S (a.apply state) := by
        refine ⟨(apply_prUrl a state).trans hu, kept_apply hk ?_⟩
        rintro feed cursor rfl
        obtain ⟨seen, hseen, hsu, f, hf, hof, hset, ht, hcur⟩ := hc
        obtain ⟨hr, hn⟩ := (hg.states seen hseen).place (by rw [hsu, ← hu]; exact hk.placed)
        rw [hr, hn]
        exact ⟨ht, ((hg.states seen hseen).cursors feed).advance (hg.fetches f hf) hof hset hg.recorded hcur⟩
      have hmem (h : (s.setMemory p ((s.memory p).set prUrl (a.apply state))).Holds url st) :
          st.prUrl = url ∧ s.Kept S st := by
        rcases holds_setMemory h with h | h
        · rw [Dict.get_set] at h
          split at h
          · rename_i hurl
            obtain rfl := Option.some.inj h
            exact ⟨hnew.1.trans hurl.symm, hnew.2⟩
          · exact hs url st (.inl ⟨p, h⟩)
        · exact hs url st h
      unfold Desk.saveState at h
      split at h
      · rcases h with h | h
        · exact hmem (.inl h)
        · rcases holds_set (s := s) h with ⟨rfl, rfl⟩ | h
          · exact ⟨rfl, hnew.2⟩
          · exact hs url st h
      · exact hmem h
  | remember p state =>
    rcases holds_setMemory h with h | h
    · rw [Dict.get_set] at h
      split at h
      · rename_i hurl
        obtain rfl := Option.some.inj h
        refine ⟨?_, kept_merged hs hc.1 hc.2.1 hc.2.2⟩
        rw [hurl, Desk.merged]
        split <;> rfl
      · exact hs url st (.inl ⟨p, h⟩)
    · exact hs url st h
  | forget p prUrl =>
    rcases holds_setMemory h with h | h
    · rw [Dict.get_erase] at h
      split at h
      · cases h
      · exact hs url st (.inl ⟨p, h⟩)
    · exact hs url st h
  | loadStates p states =>
    rcases holds_setMemory h with h | h
    · rcases get_loaded h with ⟨hm, hu⟩ | h
      · exact ⟨hu, hg.states st (hc (List.mem_filter.mp hm).1)⟩
      · exact hs url st (.inl ⟨p, h⟩)
    · exact hs url st h
  | savePrReviewState state =>
    refine stored_snd (P := fun s' => s'.Holds url st → st.prUrl = url ∧ s.Kept S st) (hs url st) ?_ h
    rintro (h | h)
    · exact hs url st (.inl h)
    · rcases holds_set (s := s) h with ⟨rfl, rfl⟩ | h
      · exact ⟨rfl, hg.states st hc⟩
      · exact hs url st h
  | deactivatePrReviewState prUrl =>
    refine stored_snd (P := fun s' => s'.Holds url st → st.prUrl = url ∧ s.Kept S st) (hs url st) ?_ h
    dsimp only
    split
    · rename_i state hget
      rintro (h | h)
      · exact hs url st (.inl h)
      · rcases holds_set (s := s) h with ⟨rfl, rfl⟩ | h
        · obtain ⟨hu, hk⟩ := hs _ state (.inr hget)
          exact ⟨hu, hk.congr rfl rfl rfl fun feed => by cases feed <;> exact hk.cursors _⟩
        · exact hs url st h
    · exact hs url st
  | _ => cases hm

/-! ### The invariant -/

/-- Why a row is closed: its attempt is over, or the agent was rerun with a text of the comment or need
not be, or it failed too often. -/
def Closed (sources : List String) (s : Desk) (r : CommentRow) : Prop :=
  (∃ a, .found a ∈ s.log ∧ a.prUrl = some r.prUrl ∧ (isTerminalAttemptStatus a.status = true ∨
    ∃ feedback, View.Answered sources s.log a feedback ∧
      ∃ y ∈ s.past, y.ref = r.pair ∧ y.comment.body.toList <:+: feedback.toList)) ∨
    MAX_REVIEW_COMMENT_ATTEMPTS ≤ r.attempts

/-- A row is of a comment of its pull request, of a review that is recorded, with a text that was posted. -/
structure Filed (sources : List String) (s : Desk) (r : CommentRow) : Prop where
  pair : r.pair = (r.comment.id, r.comment.kind)
  quoted : s.Quoted r.comment
  placed : ∃ x ∈ s.past, x.ref = r.pair ∧
    x.comment.pullRequestReviewId = r.comment.pullRequestReviewId ∧
    parsePrUrl r.prUrl = some (x.repo, x.number)
  /-- `review_id INTEGER REFERENCES pr_reviews(id)` -/
  reviewed : ∀ id ∈ r.comment.pullRequestReviewId, id ∈ s.reviewIds
  closed : r.handledAt ≠ none → Closed sources s r

/-- What holds between any two calls. -/
structure Tidy (S : ScmProvider) (sources : List String) (s : Desk) : Prop where
  kept : s.AllKept S
  posted : s.posted ⊆ s.past
  distinct : ∀ feed repo number, ((s.feed feed repo number).map fun c => c.comment.id).Nodup
  refs : ∀ x ∈ s.past, ∀ y ∈ s.past, x.ref = y.ref → x.repo = y.repo ∧ x.number = y.number
  pending : ∀ p, ∀ e ∈ s.pending p, ∀ c ∈ e.comments, s.Quoted c
  rows : ∀ i r, s.comments.get i = some r → s.Filed sources r

theorem answered_mono {facts facts' : List Fact} (hsub : facts ⊆ facts') {a : FixAttempt} {feedback : String}
    (h : View.Answered sources facts a feedback) : View.Answered sources facts' a feedback := by
  rcases h with h | h | ⟨prUrl, hp, h | ⟨n, hn, h⟩⟩
  · exact .inl (hsub h)
  · exact .inr (.inl h)
  · exact .inr (.inr ⟨prUrl, hp, .inl (hsub h)⟩)
  · exact .inr (.inr ⟨prUrl, hp, .inr ⟨n, hn, hsub h⟩⟩)

theorem Closed.grows {r r' : CommentRow} (h : Closed sources s r) (hg : s.Grows S s')
    (hr : Comments.Continues r r') : Closed sources s' r' := by
  rcases h with ⟨a, hf, hp, h⟩ | h
  · refine .inl ⟨a, hg.log hf, by rw [hp, hr.prUrl], h.imp id ?_⟩
    rintro ⟨feedback, ha, y, hy, href, hi⟩
    exact ⟨feedback, answered_mono hg.log ha, y, hg.past hy, href.trans hr.pair.symm, hi⟩
  · have hle := hr.attempts
    exact .inr (by omega)

theorem pair_continues {r r' : CommentRow} (h : r.pair = (r.comment.id, r.comment.kind))
    (hr : Comments.Continues r r') : r'.pair = (r'.comment.id, r'.comment.kind) := by
  have hp := hr.pair.trans h
  have hid : r'.comment.id = r.comment.id := congrArg Prod.fst hp
  have hkind : r'.comment.kind = r.comment.kind := by
    unfold ReviewComment.kind
    rw [hr.path]
  rw [hp, hid, hkind]

/-- A row goes on being filed when its text was posted and its closing has a reason. -/
theorem Filed.continues {r r' : CommentRow} (h : s.Filed sources r) (hg : s.Grows S s')
    (hids : s.reviewIds ⊆ s'.reviewIds) (hr : Comments.Continues r r') (hq : s.Quoted r'.comment)
    (hc : r'.handledAt ≠ none → Closed sources s r') : s'.Filed sources r' where
  pair := pair_continues h.pair hr
  quoted := hq.grows hg
  placed := by
    obtain ⟨x, hx, href, hreview, hp⟩ := h.placed
    exact ⟨x, hg.past hx, href.trans hr.pair.symm, hreview.trans hr.review.symm, by rwa [hr.prUrl]⟩
  reviewed id hid := hids (h.reviewed id (hr.review ▸ hid))
  closed hh := (hc hh).grows hg (.refl r')

/-- A row that a call in order closes has a reason. -/
theorem closed_of_closes {β : Type} {env : Env} {c : Call β} {op : Comments.CommentOp} {r : CommentRow}
    (hg : s.Seen S g) (hc : g.InOrder S sources c) (hop : commentOp env s c = some op) (h : op.Closes r) :
    Closed sources s r := by
  cases c with
  | recordPrReviewComment prUrl c =>
    obtain rfl := Option.some.inj hop
    cases h
  | markPrReviewCommentsHandled prUrl =>
    obtain rfl := Option.some.inj hop
    obtain ⟨a, hf, hp, ht⟩ := hc
    exact .inl ⟨a, hg.facts hf, by rw [hp, show r.prUrl = prUrl from h], .inl ht⟩
  | markPrReviewCommentsHandledByIds prUrl refs =>
    obtain rfl := Option.some.inj hop
    obtain ⟨a, feedback, hf, hp, ha, hs⟩ := hc
    refine .inl ⟨a, hg.facts hf, by rw [hp, h.1], .inr ⟨feedback, answered_mono hg.facts ha, ?_⟩⟩
    obtain ⟨c, hc, href, hi⟩ := hs _ h.2
    obtain ⟨y, hy, hyr, hbody⟩ := hg.told c hc
    exact ⟨y, hy, hyr.trans href, hbody ▸ hi⟩
  | notePrReviewCommentFailureByIds prUrl refs maxAttempts =>
    obtain rfl := Option.some.inj hop
    obtain rfl : maxAttempts = MAX_REVIEW_COMMENT_ATTEMPTS := hc
    exact .inr h.2.2
  | _ => cases hop

/-- What is recorded is a comment of the pull request as it was posted. -/
theorem posted_of_record {β : Type} {env : Env} {c : Call β} {reviews : List Int} {x : ReviewComment}
    (hg : s.Seen S g) (hc : g.InOrder S sources c)
    (hop : commentOp env s c = some (.record reviews prUrl x)) :
    ∃ y ∈ s.past, y.comment = x ∧ parsePrUrl prUrl = some (y.repo, y.number) := by
  cases c with
  | recordPrReviewComment url c =>
    cases hop
    obtain ⟨state, hs, rfl, f, hf, hrepo, hnumber, z, hz, rfl⟩ := hc
    have hfetched := hg.fetches f hf
    obtain ⟨y, hy, hin, rfl⟩ := hfetched.comments z hz
    obtain ⟨-, hr, hn⟩ := isIn_iff.mp hin
    refine ⟨y, hfetched.known hy, rfl, ?_⟩
    rw [hr, hn, hrepo, hnumber]
    exact (hg.states state hs).placed
  | _ => cases hop

/-- The reviews that a record may name are the keys there are. -/
theorem reviewed_of_record {β : Type} {env : Env} {c : Call β} {reviews : List Int} {x : ReviewComment}
    {id : Int} (hop : commentOp env s c = some (.record reviews prUrl x)) (h : id ∈ reviews) :
    id ∈ s.reviewIds := by
  cases c with
  | recordPrReviewComment url c =>
    cases hop
    exact h
  | _ => cases hop

/-- The rows after a call in order. -/
theorem filed_answer {β : Type} (env : Env) {c : Call β} (h : s.Tidy S sources) (hg : s.Seen S g)
    (hc : g.InOrder S sources c) {i : Nat} {r : CommentRow}
    (hi : (c.answer S env s).2.comments.get i = some r) : (c.answer S env s).2.Filed sources r := by
  have heff := effect_answer (S := S) env c s
  have hgrows := grows_answer (S := S) env c s
  generalize (c.answer S env s).2 = s' at heff hgrows hi
  rcases heff.comments with hsame | ⟨op, hop, hcom⟩
  · have hr := h.rows i r (hsame ▸ hi)
    exact hr.continues hgrows heff.reviewIds (.refl r) hr.quoted hr.closed
  · rw [hcom] at hi
    rcases Comments.exec_cases hi with ⟨reviews, url, x, rfl, hreviews, rfl⟩ | ⟨r₀, hi, hcont, hwords, hclose⟩
    · obtain ⟨y, hy, rfl, hp⟩ := posted_of_record hg hc hop
      have hnew : s.Filed sources { comment := y.comment, commentKind := y.comment.kind, prUrl := url } := by
        refine ⟨rfl, ⟨y, hy, rfl, rfl⟩, ⟨y, hy, rfl, rfl, hp⟩, fun id hid => ?_, fun hh => absurd rfl hh⟩
        obtain hid : y.comment.pullRequestReviewId = some id := hid
        rw [hid, Option.all_some, decide_eq_true_eq] at hreviews
        exact reviewed_of_record hop hreviews
      exact hnew.continues hgrows heff.reviewIds (.refl _) hnew.quoted hnew.closed
    · have hr := h.rows i r₀ hi
      refine hr.continues hgrows heff.reviewIds hcont ?_ fun hh => ?_
      · have hpair := pair_continues hr.pair hcont
        rcases hwords with hbody | ⟨reviews, url, x, rfl, href, hbody⟩
        · obtain ⟨y, hy, hyr, hyb⟩ := hr.quoted
          exact ⟨y, hy, hyr.trans (hr.pair.symm.trans (hcont.pair.symm.trans hpair)), hyb.trans hbody.symm⟩
        · obtain ⟨y, hy, rfl, -⟩ := posted_of_record hg hc hop
          exact ⟨y, hy, href.symm.trans (hcont.pair.symm.trans hpair), hbody.symm⟩
      · rcases hclose hh with hh | hcl
        · exact (hr.closed hh).grows (.refl (S := S) s) hcont
        · exact closed_of_closes hg hc hop hcl

theorem tidy_answer {β : Type} (env : Env) {c : Call β} (h : s.Tidy S sources) (hg : s.Seen S g)
    (hc : g.InOrder S sources c) : (c.answer S env s).2.Tidy S sources := by
  have heff := effect_answer (S := S) env c s
  have hgrows := grows_answer (S := S) env c s
  refine ⟨fun url st hold => ?_, ?_, fun feed repo number => ?_, ?_, fun p e he x hx => ?_,
    fun i r hi => filed_answer env h hg hc hi⟩
  · obtain ⟨hu, hk⟩ := allKept_does env h.kept hg hc url st hold
    exact ⟨hu, hk.grows hgrows⟩
  · rw [heff.posted, heff.past]
    exact h.posted
  · rw [Desk.feed, heff.posted]
    exact h.distinct feed repo number
  · rw [heff.past]
    exact h.refs
  · rcases heff.pending p e he with he | he
    · exact (h.pending p e he x hx).grows hgrows
    · cases c with
      | buffer q events => exact (hg.told x (hc (List.mem_flatMap.mpr ⟨e, he, hx⟩))).grows hgrows
      | _ => cases he

theorem stored_ok {env : Env} {α : Type} {f : Desk → Except Error α × Desk} {a : α}
    (h : (env.stored f s).1 = .ok a) : (f s).1 = .ok a ∧ (env.stored f s).2 = (f s).2 := by
  unfold Env.stored at h ⊢
  cases henv : env.error with
  | some e =>
    simp only [henv] at h
    cases h
  | none =>
    simp only [henv] at h
    cases hf : (f s).1 with
    | error e =>
      rw [hf] at h
      cases h
    | ok b =>
      rw [hf] at h
      cases h
      exact ⟨rfl, rfl⟩

theorem mem_activeStates {order : HashOrder String PrReviewState} {m : Dict String PrReviewState}
    (h : state ∈ Desk.activeStates order m) : ∃ prUrl, m.get prUrl = some state := by
  obtain ⟨e, he, rfl⟩ := List.mem_map.mp (List.mem_filter.mp h).1
  exact ⟨e.1, Dict.get_eq_some.mpr ((order.perm m.items).mem_iff.mp he)⟩

theorem mem_feed {c : HostComment} :
    c ∈ s.feed feed repo number ↔ ∃ x ∈ s.posted, x.isIn feed repo number = true ∧ x.toHostComment = c := by
  simp only [Desk.feed, List.mem_map, List.mem_filter, and_assoc]

theorem fetched_feed (h : s.Tidy S sources) (since : Option String) :
    s.Fetched S ⟨feed, repo, number, since, S.since since (s.feed feed repo number), s.past⟩ where
  distinct := (h.distinct feed repo number).sublist (List.filter_sublist.map _)
  known := .refl _
  comments c hc := by
    obtain ⟨x, hx, hin, rfl⟩ := mem_feed.mp (List.mem_filter.mp hc).1
    exact ⟨x, h.posted hx, hin, rfl⟩
  posted x hx hin := by
    cases hs : (since.all fun t => S.timestampAtOrAfter x.comment.updatedAt t) with
    | true => exact .inl (List.mem_filter.mpr ⟨mem_feed.mpr ⟨x, hx, hin, rfl⟩, hs⟩)
    | false => exact .inr (.inl rfl)

theorem fetched_answer (env : Env) {since : Option String} {comments : List HostComment} {s' : Desk}
    (h : s'.Tidy S sources)
    (hb : ((Call.getNewComments feed repo number since).answer S env s).1 = .ok comments)
    (hs' : ((Call.getNewComments feed repo number since).answer S env s).2 = s') :
    s'.Fetched S ⟨feed, repo, number, since, comments, s'.past⟩ := by
  change (if env.hostUp = true then _ else _) = _ at hb
  split at hb
  · cases hb
    subst hs'
    exact fetched_feed h since
  · cases hb

theorem inLedger_answer (env : Env) {prUrl : String} {x : ReviewComment} {u : Unit}
    (hb : ((Call.recordPrReviewComment prUrl x).answer S env s).1 = .ok u) :
    ((Call.recordPrReviewComment prUrl x).answer S env s).2.InLedger (x.id, x.kind) := by
  obtain ⟨hok, hs⟩ := stored_ok hb
  change (Env.stored env _ s).2.InLedger (x.id, x.kind)
  rw [hs]
  unfold Desk.recordPrReviewComment at hok ⊢
  split at hok
  · rename_i comments hrec
    exact Comments.has_of_record hrec
  · cases hok

theorem seen_answer {β : Type} (env : Env) {c : Call β} {b : β} (h : s.Tidy S sources) (hg : s.Seen S g)
    (hc : g.InOrder S sources c) (hb : (c.answer S env s).1 = b) :
    (c.answer S env s).2.Seen S (watch.next g c b (c.answer S env s).2) := by
  have htidy := tidy_answer env h hg hc
  have hgrows := grows_answer (S := S) env c s
  generalize hs' : (c.answer S env s).2 = s' at htidy hgrows ⊢
  have hg' := hg.grows hgrows
  have hg₀ : s'.Seen S { g with facts := g.facts ++ (c.fact b).toList } := by
    refine { hg' with facts := ?_ }
    rintro fact hf
    rcases List.mem_append.mp hf with hf | hf
    · exact hg'.facts hf
    · rw [← hb] at hf
      rw [← hs']
      exact List.mem_append_right _ hf
  have htold {l : List ReviewComment} (hl : ∀ c ∈ l, s'.Quoted c) : ∀ c ∈ g.told ++ l, s'.Quoted c := by
    intro c hc
    rcases List.mem_append.mp hc with hc | hc
    · exact hg'.told c hc
    · exact hl c hc
  have hstates {l : List PrReviewState} (hl : ∀ st ∈ l, ∃ url, s'.Holds url st) :
      ∀ st ∈ g.states ++ l, s'.Kept S st := by
    intro st hst
    rcases List.mem_append.mp hst with hst | hst
    · exact hg'.states st hst
    · obtain ⟨url, hold⟩ := hl st hst
      exact (htidy.kept url st hold).2
  cases c with
  | activeStates p =>
    subst hb hs'
    refine { hg₀ with states := hstates fun st hst => ?_ }
    obtain ⟨url, hget⟩ := mem_activeStates hst
    exact ⟨url, .inl ⟨p, hget⟩⟩
  | activeState p prUrl =>
    subst hb hs'
    refine { hg₀ with states := hstates fun st hst => ?_ }
    exact ⟨prUrl, .inl ⟨p, (Option.filter_eq_some_iff.mp (Option.mem_toList.mp hst)).1⟩⟩
  | remember p state =>
    subst hb hs'
    refine { hg₀ with states := hstates fun st hst => ⟨state.prUrl, .inl ⟨p, ?_⟩⟩ }
    obtain rfl := List.mem_singleton.mp hst
    change (Function.update s.memory p _ p).get state.prUrl = _
    rw [Function.update_self, Dict.get_set, if_pos rfl]
    rfl
  | getActivePrReviewStates =>
    cases b with
    | error e => exact hg₀
    | ok states =>
      obtain ⟨hst, hs⟩ := stored_ok hb
      cases hst
      refine { hg₀ with states := hstates fun st hst => ?_ }
      obtain ⟨url, hget⟩ := mem_activeStates hst
      refine ⟨url, .inr ?_⟩
      rw [← hs']
      exact (congrArg (fun d : Desk => d.states.get url) hs).trans hget
  | getNewComments feed repo number since =>
    cases b with
    | error e => exact hg₀
    | ok comments =>
      have hf := fetched_answer env htidy hb hs'
      refine { hg₀ with fetches := fun f hm => ?_, told := htold fun c hm => ?_ }
      · rcases List.mem_append.mp hm with hm | hm
        · exact hg'.fetches f hm
        · exact List.mem_singleton.mp hm ▸ hf
      · obtain ⟨x, hx, rfl⟩ := List.mem_map.mp hm
        obtain ⟨y, hy, -, rfl⟩ := hf.comments x hx
        exact ⟨y, hy, rfl, rfl⟩
  | drainPending p =>
    subst hb
    refine { hg₀ with told := htold fun c hm => ?_ }
    obtain ⟨e, he, hce⟩ := List.mem_flatMap.mp hm
    exact (h.pending p e he c hce).grows hgrows
  | getUnhandledPrReviewComments prUrl =>
    cases b with
    | error e => exact hg₀
    | ok comments =>
      obtain ⟨hok, -⟩ := stored_ok hb
      cases hok
      refine { hg₀ with told := htold fun c hm => ?_ }
      obtain ⟨r, hr, rfl⟩ := List.mem_map.mp hm
      obtain ⟨hi, -⟩ := Table.mem_select.mp ((List.mem_insertionSort _).mp hr)
      exact (h.rows r.1 r.2 hi).quoted.grows hgrows
  | recordPrReviewComment prUrl x =>
    cases b with
    | error e => exact hg₀
    | ok u =>
      refine { hg₀ with recorded := fun ref hr => ?_ }
      rcases List.mem_append.mp hr with hr | hr
      · exact hg'.recorded ref hr
      · obtain rfl := List.mem_singleton.mp hr
        exact hs' ▸ inLedger_answer env hb
  | chargePrReviewCycle pr cap =>
    rcases b with e | _ | _ <;> exact { hg₀ with }
  | rerun attempt feedback branch =>
    cases b <;> exact { hg₀ with }
  | _ => exact { hg₀ with }

/-! ### From outside -/

theorem tidy_empty : Desk.empty.Tidy S sources where
  kept prUrl state h := by
    rcases h with ⟨p, h⟩ | h <;> cases h
  posted := List.nil_subset _
  distinct _ _ _ := List.nodup_nil
  refs x hx := by cases hx
  pending p := List.forall_mem_nil _
  rows i r hi := by cases hi

/-- What happens around the programs: no state and no row is new. -/
theorem Tidy.outside (h : s.Tidy S sources) (hg : s.Grows S s')
    (hold : ∀ prUrl state, s'.Holds prUrl state → s.Holds prUrl state) (hposted : s'.posted ⊆ s'.past)
    (hdistinct : ∀ feed repo number, ((s'.feed feed repo number).map fun c => c.comment.id).Nodup)
    (hrefs : ∀ x ∈ s'.past, ∀ y ∈ s'.past, x.ref = y.ref → x.repo = y.repo ∧ x.number = y.number)
    (hpending : ∀ p, s'.pending p ⊆ s.pending p) (hcomments : s'.comments = s.comments)
    (hreviews : s'.prReviews = s.prReviews) : s'.Tidy S sources where
  kept prUrl state hs := by
    obtain ⟨hu, hk⟩ := h.kept prUrl state (hold prUrl state hs)
    exact ⟨hu, hk.grows hg⟩
  posted := hposted
  distinct := hdistinct
  refs := hrefs
  pending p e he c hc := (h.pending p e (hpending p he) c hc).grows hg
  rows i r hi := by
    have hr := h.rows i r (hcomments ▸ hi)
    have hids : s.reviewIds ⊆ s'.reviewIds := by
      unfold reviewIds
      rw [hreviews]
      exact .refl _
    exact hr.continues hg hids (.refl r) hr.quoted hr.closed

theorem grows_post {x : Posting} (h : s.Admits S x) : s.Grows S (s.post x) where
  past := List.subset_append_left _ _
  posted y hy := by
    rcases List.mem_append.mp hy with hy | hy
    · exact .inl (List.mem_filter.mp hy).1
    · obtain rfl := List.mem_singleton.mp hy
      exact .inr fun z hz => (h z hz).1
  ledger _ h := h
  log := .refl _

theorem tidy_post {x : Posting} (h : s.Tidy S sources) (ha : s.Admits S x) : (s.post x).Tidy S sources := by
  refine h.outside (grows_post ha) (fun _ _ h => h) ?_ (fun feed repo number => ?_) ?_
    (fun p => .refl _) rfl rfl
  · intro y hy
    rcases List.mem_append.mp hy with hy | hy
    · exact List.mem_append_left _ (h.posted (List.mem_filter.mp hy).1)
    · exact List.mem_append_right _ hy
  · -- The version before it is gone.
    have hsub : ((s.posted.filter fun y => !(y.isIn x.feed x.repo x.number && y.comment.id = x.comment.id)).filter
        fun y => y.isIn feed repo number).Sublist (s.posted.filter fun y => y.isIn feed repo number) :=
      List.filter_sublist.filter _
    simp only [Desk.feed, Desk.post, List.filter_append, List.map_append, List.map_map]
    refine List.nodup_append'.mpr ⟨?_, ?_, ?_⟩
    · have hd := h.distinct feed repo number
      rw [Desk.feed, List.map_map] at hd
      exact hd.sublist (hsub.map _)
    · rw [List.filter_singleton]
      cases x.isIn feed repo number <;> simp
    · intro i hi hi'
      obtain ⟨y, hy, rfl⟩ := List.mem_map.mp hi
      obtain ⟨z, hz, hid⟩ := List.mem_map.mp hi'
      obtain ⟨hzx, hzin⟩ := List.mem_filter.mp hz
      obtain ⟨hyf, hyin⟩ := List.mem_filter.mp hy
      obtain rfl := List.mem_singleton.mp hzx
      obtain ⟨rfl, rfl, rfl⟩ := isIn_iff.mp hzin
      have hno := (List.mem_filter.mp hyf).2
      rw [hyin, Bool.true_and, Bool.not_eq_true', decide_eq_false_iff_not] at hno
      exact hno hid.symm
  · intro y hy z hz hr
    rcases List.mem_append.mp hy with hys | hyx
    · rcases List.mem_append.mp hz with hzs | hzx
      · exact h.refs y hys z hzs hr
      · obtain rfl := List.mem_singleton.mp hzx
        exact (ha y hys).2 hr
    · obtain rfl := List.mem_singleton.mp hyx
      rcases List.mem_append.mp hz with hzs | hzx
      · exact ((ha z hzs).2 hr.symm).imp Eq.symm Eq.symm
      · obtain rfl := List.mem_singleton.mp hzx
        exact ⟨rfl, rfl⟩

theorem tidy_enter {job : Job} (h : s.Tidy S sources) (he : s.enter S job = some s') :
    s'.Tidy S sources ∧ s.Grows S s' := by
  have hrefl : s.Tidy S sources ∧ s.Grows S s := ⟨h, .refl s⟩
  have hframe {s' : Desk} (hg : s.Grows S s')
      (hold : ∀ prUrl state, s'.Holds prUrl state → s.Holds prUrl state) (hposted : s'.posted = s.posted)
      (hpast : s'.past = s.past) (hpending : ∀ p, s'.pending p ⊆ s.pending p)
      (hcomments : s'.comments = s.comments) (hreviews : s'.prReviews = s.prReviews) :
      s'.Tidy S sources ∧ s.Grows S s' := by
    refine ⟨h.outside hg hold ?_ (fun feed repo number => ?_) ?_ hpending hcomments hreviews, hg⟩
    · rw [hposted, hpast]
      exact h.posted
    · rw [Desk.feed, hposted]
      exact h.distinct feed repo number
    · rw [hpast]
      exact h.refs
  cases job with
  | post x =>
    change (if s.Admits S x then some (s.post x) else none) = some s' at he
    split at he
    · rename_i ha
      obtain rfl := Option.some.inj he
      exact ⟨tidy_post h ha, grows_post ha⟩
    · cases he
  | delete x =>
    obtain rfl := Option.some.inj he
    have hg : s.Grows S { s with posted := s.posted.filter (· ≠ x) } :=
      ⟨.refl _, fun y hy => .inl (List.mem_filter.mp hy).1, fun _ h => h, .refl _⟩
    refine ⟨h.outside hg (fun _ _ h => h) (fun y hy => h.posted (List.mem_filter.mp hy).1)
      (fun feed repo number => ?_) h.refs (fun p => .refl _) rfl rfl, hg⟩
    exact (h.distinct feed repo number).sublist (((List.filter_sublist.filter _).map _).map _)
  | restart p =>
    obtain rfl := Option.some.inj he
    refine hframe ⟨.refl _, fun _ hx => .inl hx, fun _ h => h, .refl _⟩ (fun url state hs => ?_) rfl rfl
      (fun q e he => ?_) rfl rfl
    · exact (holds_setMemory hs).resolve_left fun hn => by cases hn
    · change e ∈ Function.update s.pending p [] q at he
      by_cases hq : q = p
      · subst hq
        rw [Function.update_self] at he
        cases he
      · rwa [Function.update_of_ne hq] at he
  | upsertPr now pr | attempts attempts =>
    obtain rfl := Option.some.inj he
    exact hframe ⟨.refl _, fun _ hx => .inl hx, fun _ h => h, .refl _⟩ (fun _ _ h => h) rfl rfl
      (fun _ => .refl _) rfl rfl
  | checkReviews p | checkForPr p prUrl | watch p prUrl issueId source | unwatch p prUrl =>
    exact Option.some.inj he ▸ hrefl

end Desk

/-! ## Every run -/

section Runs

variable (S : ScmProvider) (sources : List String)

/-- The processes and their notes. -/
abbrev Office := Crew Call Desk View

abbrev office (l : List (Turn Env Job)) : Office :=
  run (Crew.step (processes S sources) watch) (Crew.initial .empty) l

abbrev Orderly (w : Office) : Prop :=
  Crew.Sound watch (View.InOrder S sources) (fun _ => True)
    (fun s notes => s.Tidy S sources ∧ ∀ g ∈ notes, s.Seen S g) w

variable {S} {sources} {w : Office}

theorem Orderly.step (h : Orderly S sources w) (turn : Turn Env Job) :
    Orderly S sources (Crew.step (processes S sources) watch w turn) := by
  refine Crew.Sound.step h turn keeps_program (fun job s _ he => ?_) fun t env β c g _ ht hc => ?_
  · obtain ⟨htidy, hgrows⟩ := Desk.tidy_enter h.inv.1 he
    refine ⟨htidy, fun g hg => ?_⟩
    rcases List.mem_append.mp hg with hg | hg
    · exact (h.inv.2 g hg).grows hgrows
    · obtain rfl := List.mem_singleton.mp hg
      exact ⟨List.forall_mem_nil _, List.forall_mem_nil _, List.forall_mem_nil _, List.forall_mem_nil _,
        List.nil_subset _⟩
  · have hseen := h.inv.2 g (List.mem_of_getElem? ht)
    refine ⟨Desk.tidy_answer env h.inv.1 hseen hc, fun g' hg' => ?_⟩
    rcases List.mem_or_eq_of_mem_set hg' with hg' | rfl
    · exact (h.inv.2 g' hg').grows (Desk.grows_answer env c w.shared)
    · exact Desk.seen_answer env h.inv.1 hseen hc rfl

variable (S) (sources) in
theorem orderly (l : List (Turn Env Job)) : Orderly S sources (office S sources l) := by
  refine run_inv (P := Orderly S sources) (fun _ turn h => h.step turn) ?_ l
  exact Crew.sound_initial ⟨Desk.tidy_empty, List.forall_mem_nil _⟩

end Runs

/-! ## No comment is lost -/

/-- A comment that asks for something is in the ledger, under a URL of its pull request, or comes after
the cursor of its feed in every state of the pull request. -/
def Desk.CommentsKept (S : ScmProvider) (s : Desk) : Prop :=
  ∀ x ∈ s.posted, S.asks x.feed x.toHostComment = true →
    (s.comments.Has fun r => r.pair = x.ref ∧ parsePrUrl r.prUrl = some (x.repo, x.number)) ∨
      ∀ prUrl state, s.Holds prUrl state → parsePrUrl prUrl = some (x.repo, x.number) →
        S.commentIsAfterCursor x.comment (state.cursor x.feed) = true

theorem Desk.Tidy.commentsKept {S : ScmProvider} {sources : List String} {s : Desk} (h : s.Tidy S sources) :
    s.CommentsKept S := by
  intro x hx ha
  by_cases hin : s.InLedger x.ref
  · obtain ⟨i, r, hi, hr⟩ := hin
    obtain ⟨y, hy, href, -, hp⟩ := (h.rows i r hi).placed
    obtain ⟨hrepo, hnumber⟩ := h.refs y hy x (h.posted hx) (href.trans hr)
    exact .inl ⟨i, r, hi, hr, by rw [hp, hrepo, hnumber]⟩
  · right
    intro prUrl state hs hp
    obtain ⟨rfl, hk⟩ := h.kept prUrl state hs
    obtain ⟨hr, hn⟩ := hk.place hp
    refine ((hk.cursors x.feed).ahead x hx ?_ ha).resolve_left hin
    exact Desk.isIn_iff.mpr ⟨rfl, hr, hn⟩

/-- However the processes interleave, and whatever fails on the way: the cursors, in memory and in the
store, pass no comment that asks for something before it is in the ledger. -/
theorem comments_kept (S : ScmProvider) (sources : List String) (l : List (Turn Env Job)) :
    (office S sources l).shared.CommentsKept S :=
  (orderly S sources l).inv.1.commentsKept

/-- A comment whose every version names a review that is no key of `pr_reviews` is in no ledger, and no
cursor of its pull request passes it. -/
theorem foreign_review_held (S : ScmProvider) (sources : List String) (l : List (Turn Env Job)) (x : Posting)
    (hx : x ∈ (office S sources l).shared.posted) (ha : S.asks x.feed x.toHostComment = true)
    (hreview : ∀ y ∈ (office S sources l).shared.past, y.ref = x.ref →
      ∃ id ∈ y.comment.pullRequestReviewId, id ∉ (office S sources l).shared.reviewIds) :
    ¬ (office S sources l).shared.InLedger x.ref ∧
      ∀ prUrl state, (office S sources l).shared.Holds prUrl state →
        parsePrUrl prUrl = some (x.repo, x.number) →
        S.commentIsAfterCursor x.comment (state.cursor x.feed) = true := by
  have h := (orderly S sources l).inv.1
  have hout : ¬ (office S sources l).shared.InLedger x.ref := by
    rintro ⟨i, r, hi, hr⟩
    obtain ⟨y, hy, href, hyr, -⟩ := (h.rows i r hi).placed
    obtain ⟨id, hid, hforeign⟩ := hreview y hy (href.trans hr)
    exact hforeign ((h.rows i r hi).reviewed id (hyr ▸ hid))
  refine ⟨hout, (h.commentsKept x hx ha).resolve_left ?_⟩
  rintro ⟨i, r, hi, hr, -⟩
  exact hout ⟨i, r, hi, hr⟩

def host : ScmProvider where
  enabled := true
  reviewTrigger := "@claudear"
  allowedBots := []
  login := some "claudear"
  caseProps := ⟨fun _ => false, fun _ => false⟩
  toUppercase := String.toUpper
  parseFromRfc3339 _ := none

def amysPull : String := "https://github.com/o/r/pull/1"

def amysComment (review : Option Int) : Posting where
  comment :=
    { id := 1, pullRequestReviewId := review, path := "src/main.rs", position := none, line := some 3,
      body := "@claudear rename it", userLogin := "amy", createdAt := "2026-01-01T00:00:00Z",
      updatedAt := "2026-01-01T00:00:00Z", htmlUrl := "" }
  userType := some "User"
  feed := .inline
  repo := "o/r"
  number := 1

def quiet : Env where
  now := 5
  reviews _ _ _ := []
  order := ⟨id, fun _ => .refl _⟩
  agent := .ok ()

def amysAttempt : FixAttempts :=
  Table.empty.insert
    { key := ⟨"linear", "1"⟩, shortId := "1", attemptedAt := 0, status := .success, prUrl := some amysPull,
      scmRepo := some "o/r", scmPrNumber := some 1 }

/-- The watcher looks for reviews once the comment is posted. -/
def polled (review : Option Int) : List (Turn Env Job) :=
  [.spawn (.attempts amysAttempt), .spawn (.watch 0 amysPull "1" "linear")] ++ List.replicate 2 (.go 1 quiet) ++
    [.spawn (.post (amysComment review)), .spawn (.checkReviews 0)] ++ List.replicate 25 (.go 3 quiet)

theorem foreign_review_held_amy :
    ¬ (office host ["linear"] (polled (some 1900000000))).shared.InLedger (1, "inline") := by
  have hpast : (office host ["linear"] (polled (some 1900000000))).shared.past =
      [amysComment (some 1900000000)] := by decide +kernel
  refine (foreign_review_held host ["linear"] (polled (some 1900000000)) (amysComment (some 1900000000))
    (by decide +kernel) (by decide +kernel) fun y hy _ => ?_).1
  rw [hpast] at hy
  obtain rfl := List.mem_singleton.mp hy
  exact ⟨1900000000, rfl, by decide +kernel⟩

/-! ## No comment is closed without a reason -/

/-- A turn takes no row out of the ledger, and opens none again. -/
theorem continues_step (S : ScmProvider) (sources : List String) {w : Office} {i : Nat} {r : CommentRow}
    (hi : w.shared.comments.get i = some r) (turn : Turn Env Job) :
    ∃ r', (Crew.step (processes S sources) watch w turn).shared.comments.get i = some r' ∧
      Comments.Continues r r' := by
  have hrefl : ∃ r', w.shared.comments.get i = some r' ∧ Comments.Continues r r' := ⟨r, hi, .refl r⟩
  cases turn with
  | spawn job =>
    cases hs : w.shared.enter S job with
    | none =>
      simp only [Crew.step, processes, hs]
      exact hrefl
    | some s =>
      simp only [Crew.step, processes, hs]
      suffices hcom : s.comments = w.shared.comments by rwa [hcom]
      cases job with
      | post x =>
        simp only [Desk.enter] at hs
        split at hs
        · cases hs
          rfl
        · cases hs
      | _ =>
        cases hs
        rfl
  | go t env =>
    rcases hp : w.threads[t]? with - | ⟨a | ⟨c, k⟩, g⟩
    · simp only [Crew.step, hp]
      exact hrefl
    · simp only [Crew.step, hp]
      exact hrefl
    · simp only [Crew.step, hp]
      rcases (Desk.effect_answer (S := S) env c w.shared).comments with hsame | ⟨op, -, hcom⟩
      · exact ⟨r, by rw [← hi, ← hsame]; rfl, .refl r⟩
      · obtain ⟨r', hi', hcont⟩ := Comments.continues_exec hi op
        exact ⟨r', by rw [← hi', ← hcom]; rfl, hcont⟩

/-- A row is closed after the agent was rerun with a text of the comment, or its pull request was left to
humans, or its attempt ended, or its source is gone, or after it failed too often; and a row that is closed
stays closed, whatever is posted. -/
theorem handled_for_cause (S : ScmProvider) (sources : List String) (l more : List (Turn Env Job)) :
    (∀ i r, (office S sources l).shared.comments.get i = some r → r.handledAt ≠ none →
      Desk.Closed sources (office S sources l).shared r) ∧
    ∀ i r, (office S sources l).shared.comments.get i = some r →
      ∃ r', (office S sources (l ++ more)).shared.comments.get i = some r' ∧ Comments.Continues r r' := by
  refine ⟨fun i r hi => ((orderly S sources l).inv.1.rows i r hi).closed, fun i r hi => ?_⟩
  rw [office, run_append]
  refine run_inv (P := fun w : Office => ∃ r', w.shared.comments.get i = some r' ∧ Comments.Continues r r')
    ?_ ⟨r, hi, .refl r⟩ more
  rintro w turn ⟨r', hi', hcont⟩
  obtain ⟨r'', hi'', hcont'⟩ := continues_step S sources hi' turn
  exact ⟨r'', hi'', hcont.trans hcont'⟩

example : (office host ["linear"] (polled none)).shared.comments.rows.map (fun r => r.2.handledAt) =
    [some 5] := by decide +kernel

/-! ## The cycles -/

/-- Whether it holds a cycle of the pull request. -/
def View.holds (prUrl : String) (g : View) : Nat := if g.charge = some prUrl then 1 else 0

/-- 1 for a rerun on a charged cycle of the pull request that ends well. -/
def View.spends {β : Type} (prUrl : String) (g : View) : Call β → β → Nat
  | .rerun _ _ _, .ok () => g.holds prUrl
  | _, _ => 0

/-- The reruns on a charged cycle of the pull request that this turn ends well. -/
def spent (S : ScmProvider) (prUrl : String) (w : Office) : Turn Env Job → Nat
  | .go t env =>
    match w.threads[t]? with
    | some ⟨.call c _, g⟩ => g.spends prUrl c (c.answer S env w.shared).1
    | _ => 0
  | .spawn _ => 0

section Cycles

variable {S : ScmProvider} {sources : List String} {w : Office} {s : Desk} {prUrl : String}

/-- The count of the record covers the cycles that are held, and is within the cap. -/
structure Budgeted (prUrl : String) (s : Desk) : Prop where
  unique : s.prs.UniqueUrl
  within : s.prs.Within prUrl MAX_REVIEW_CYCLES

theorem Budgeted.same {s' : Desk} (hs : Budgeted prUrl s) (h : s'.prs = s.prs) :
    Budgeted prUrl s' ∧ s'.prs.cycles prUrl = s.prs.cycles prUrl := by
  refine ⟨⟨?_, ?_⟩, by rw [h]⟩
  · rw [h]
    exact hs.unique
  · rw [h]
    exact hs.within

theorem Budgeted.exec {s' : Desk} {op : Prs.PrOp} (hs : Budgeted prUrl s) (h : s'.prs = s.prs.exec op)
    (hbud : Prs.Budgeted prUrl MAX_REVIEW_CYCLES s.prs op) :
    Budgeted prUrl s' ∧ s'.prs.cycles prUrl = s.prs.cycles prUrl + (Prs.opened prUrl s.prs op +
      Prs.charged prUrl s.prs op - Prs.refunded prUrl s.prs op) := by
  obtain ⟨hu, hcyc⟩ := Prs.cycles_exec prUrl hs.unique op
  refine ⟨⟨?_, ?_⟩, by rw [h, hcyc]⟩
  · rw [h]
    exact hu
  · rw [h]
    exact hs.within.exec hs.unique hbud

/-- Only a charge or a refund changes what a record counts. -/
theorem budgeted_other {β : Type} (env : Env) {c : Call β} (hs : Budgeted prUrl s)
    (hop : Desk.prOp env s c = none) :
    Budgeted prUrl (c.answer S env s).2 ∧ (c.answer S env s).2.prs.cycles prUrl = s.prs.cycles prUrl := by
  refine hs.same ?_
  rcases (Desk.effect_answer (S := S) env c s).prs with h | ⟨op, h, -⟩
  · exact h
  · rw [hop] at h
    cases h

/-- The record counts a cycle that is taken. -/
theorem budgeted_charge (env : Env) {pr : PrRecord} {b : Except Failure Bool} {s' : Desk}
    (hs : Budgeted prUrl s)
    (hb : ((Call.chargePrReviewCycle pr MAX_REVIEW_CYCLES).answer S env s).1 = b)
    (hs' : ((Call.chargePrReviewCycle pr MAX_REVIEW_CYCLES).answer S env s).2 = s') :
    Budgeted prUrl s' ∧ s.prs.cycles prUrl ≤ s'.prs.cycles prUrl ∧
      (b = .ok true → pr.prUrl = prUrl → s.prs.cycles prUrl + 1 ≤ s'.prs.cycles prUrl) := by
  have hnonneg : 0 ≤ Prs.charged prUrl s.prs
      (.charge (s.attempts.rows.map Prod.fst) env.now pr MAX_REVIEW_CYCLES) := by
    unfold Prs.charged
    split <;> omega
  have hle : Budgeted prUrl s' ∧ s.prs.cycles prUrl ≤ s'.prs.cycles prUrl := by
    have heff := (Desk.effect_answer (S := S) env (.chargePrReviewCycle pr MAX_REVIEW_CYCLES) s).prs
    rw [hs'] at heff
    rcases heff with h | ⟨op, hop, h⟩
    · exact (hs.same h).imp id fun h => h.ge
    · obtain rfl := Option.some.inj hop
      obtain ⟨hbud, hcyc⟩ := hs.exec h fun _ => rfl
      simp only [Prs.opened, Prs.refunded] at hcyc
      exact ⟨hbud, by omega⟩
  refine ⟨hle.1, hle.2, ?_⟩
  rintro rfl hurl
  obtain ⟨hok, hsnd⟩ := Desk.stored_ok hb
  have hprs : s'.prs = (s.chargePrReviewCycle env.now pr MAX_REVIEW_CYCLES).2.prs := by
    rw [← hs']
    have hprs := congrArg Desk.prs hsnd
    exact hprs
  unfold Desk.chargePrReviewCycle at hok hprs
  cases hcharge : s.prs.chargePrReviewCycle (s.attempts.rows.map Prod.fst) env.now pr
      MAX_REVIEW_CYCLES with
  | error e =>
    rw [hcharge] at hok
    cases hok
  | ok r =>
    obtain ⟨charged, prs⟩ := r
    rw [hcharge] at hok hprs
    obtain rfl : charged = true := Except.ok.inj hok
    have hop : s'.prs = s.prs.exec
        (.charge (s.attempts.rows.map Prod.fst) env.now pr MAX_REVIEW_CYCLES) := by
      rw [hprs, Prs.exec, hcharge]
    obtain ⟨-, hcyc⟩ := hs.exec hop fun _ => rfl
    simp only [Prs.opened, Prs.refunded, Prs.charged, hcharge, Except.toOption, Option.any_some,
      hurl, and_self, if_true] at hcyc
    omega

/-- A refund gives one cycle of its pull request back, and none of another. -/
theorem budgeted_refund (env : Env) (url : String) (hs : Budgeted prUrl s) :
    Budgeted prUrl ((Call.refundPrReviewCycle url).answer S env s).2 ∧ s.prs.cycles prUrl ≤
      ((Call.refundPrReviewCycle url).answer S env s).2.prs.cycles prUrl + if url = prUrl then 1 else 0 := by
  rcases (Desk.effect_answer (S := S) env (.refundPrReviewCycle url) s).prs with h | ⟨op, hop, h⟩
  · obtain ⟨hbud, hcyc⟩ := hs.same h
    refine ⟨hbud, ?_⟩
    split <;> omega
  · obtain rfl := Option.some.inj hop
    obtain ⟨hbud, hcyc⟩ := hs.exec h trivial
    refine ⟨hbud, ?_⟩
    simp only [Prs.opened, Prs.charged, Prs.refunded] at hcyc
    rw [hcyc]
    by_cases hurl : url = prUrl
    · simp only [hurl, true_and, if_true]
      split <;> omega
    · simp only [hurl, false_and, if_false]
      omega

/-- A call in order takes a cycle that the record counts, and gives back no other. -/
theorem spends_answer {β : Type} (env : Env) {c : Call β} {g : View} (hs : Budgeted prUrl s)
    (hc : g.InOrder S sources c) :
    Budgeted prUrl (c.answer S env s).2 ∧
      ((watch.next g c (c.answer S env s).1 (c.answer S env s).2).holds prUrl : Int) +
          g.spends prUrl c (c.answer S env s).1 + s.prs.cycles prUrl ≤
        (c.answer S env s).2.prs.cycles prUrl + g.holds prUrl := by
  by_cases hp : c.plain = true
  · -- It neither takes nor gives back a cycle.
    have hop : Desk.prOp env s c = none ∧ g.spends prUrl c (c.answer S env s).1 = 0 := by
      cases c with
      | chargePrReviewCycle pr cap => cases hp
      | refundPrReviewCycle prUrl => cases hp
      | rerun attempt feedback branch => cases hp
      | _ => exact ⟨rfl, rfl⟩
    obtain ⟨hbud, hcyc⟩ := budgeted_other (S := S) env hs hop.1
    have hcharge : (watch.next g c (c.answer S env s).1 (c.answer S env s).2).holds prUrl =
        g.holds prUrl := by
      unfold View.holds
      rw [(grows_watch g hp _ _).charge]
    refine ⟨hbud, ?_⟩
    rw [hop.2, hcharge, hcyc]
    omega
  cases c with
  | chargePrReviewCycle pr cap =>
    obtain ⟨rfl, hnone⟩ := hc
    generalize hb : ((Call.chargePrReviewCycle pr MAX_REVIEW_CYCLES).answer S env s).1 = b
    generalize hs' : ((Call.chargePrReviewCycle pr MAX_REVIEW_CYCLES).answer S env s).2 = s'
    obtain ⟨hbud, hle, htaken⟩ := budgeted_charge env hs hb hs'
    refine ⟨hbud, ?_⟩
    rcases b with e | _ | _
    · show (g.holds prUrl : Int) + (0 : Nat) + _ ≤ _
      omega
    · show (g.holds prUrl : Int) + (0 : Nat) + _ ≤ _
      omega
    · show ((if some pr.prUrl = some prUrl then 1 else 0 : Nat) : Int) + (0 : Nat) + _ ≤ _
      by_cases hurl : pr.prUrl = prUrl
      · have hcount := htaken rfl hurl
        simp only [hurl, if_true]
        omega
      · simp only [hurl, Option.some.injEq, if_false]
        omega
  | refundPrReviewCycle url =>
    obtain ⟨hbud, hle⟩ := budgeted_refund (S := S) env url hs
    have hc : g.charge = some url := hc
    have hholds : g.holds prUrl = if url = prUrl then 1 else 0 := by simp [View.holds, hc]
    refine ⟨hbud, ?_⟩
    show ((0 : Nat) : Int) + (0 : Nat) + _ ≤ _
    rw [hholds]
    by_cases hurl : url = prUrl
    · simp only [hurl, if_true] at hle ⊢
      omega
    · simp only [hurl, if_false] at hle ⊢
      omega
  | rerun attempt feedback branch =>
    obtain ⟨hbud, hcyc⟩ := budgeted_other (S := S) env (c := .rerun attempt feedback branch) hs rfl
    refine ⟨hbud, ?_⟩
    rw [hcyc]
    cases ((Call.rerun attempt feedback branch).answer S env s).1 with
    | error e =>
      show (g.holds prUrl : Int) + (0 : Nat) + _ ≤ _
      omega
    | ok u =>
      show (((0 : Nat) : Int)) + g.holds prUrl + _ ≤ _
      omega
  | _ => exact absurd rfl hp

theorem budgeted_enter {s' : Desk} {job : Job} (hs : Budgeted prUrl s) (he : s.enter S job = some s') :
    Budgeted prUrl s' ∧ s'.prs.cycles prUrl = s.prs.cycles prUrl := by
  cases job with
  | upsertPr now pr =>
    obtain rfl := Option.some.inj he
    obtain ⟨hu, hcyc⟩ := Prs.cycles_exec prUrl hs.unique
      (.upsert (s.attempts.rows.map Prod.fst) now ⟨pr, 0⟩)
    refine ⟨⟨hu, hs.within.exec hs.unique fun _ _ => ⟨Int.le_refl _, Int.zero_le_ofNat 3⟩⟩, hcyc.trans ?_⟩
    simp only [Prs.opened, Prs.charged, Prs.refunded, ite_self]
    omega
  | post x =>
    simp only [Desk.enter] at he
    split at he
    · cases he
      exact ⟨⟨hs.unique, hs.within⟩, rfl⟩
    · cases he
  | _ =>
    cases he
    exact ⟨⟨hs.unique, hs.within⟩, rfl⟩

/-- The threads that hold a cycle of the pull request. -/
def Office.held (prUrl : String) (w : Office) : Nat := (w.notes.map (View.holds prUrl)).sum

/-- No turn spends a cycle that the record does not count. -/
theorem spent_step (h : Orderly S sources w) (hs : Budgeted prUrl w.shared) (turn : Turn Env Job) :
    let w' := Crew.step (processes S sources) watch w turn
    Budgeted prUrl w'.shared ∧ (Office.held prUrl w' : Int) + spent S prUrl w turn +
      w.shared.prs.cycles prUrl ≤ w'.shared.prs.cycles prUrl + Office.held prUrl w := by
  have hrefl : Budgeted prUrl w.shared ∧ (Office.held prUrl w : Int) + (0 : Nat) +
      w.shared.prs.cycles prUrl ≤ w.shared.prs.cycles prUrl + Office.held prUrl w := ⟨hs, by omega⟩
  cases turn with
  | spawn job =>
    cases he : w.shared.enter S job with
    | none =>
      simp only [Crew.step, processes, he, spent]
      exact hrefl
    | some s =>
      obtain ⟨hbud, hcyc⟩ := budgeted_enter hs he
      simp only [Crew.step, processes, he, spent]
      refine ⟨hbud, ?_⟩
      rw [hcyc]
      simp only [Office.held, Crew.notes, List.map_append, List.map_cons, List.map_nil, List.sum_append,
        List.sum_cons, List.sum_nil]
      show ((_ + (0 + 0) : Nat) : Int) + _ + _ ≤ _
      omega
  | go t env =>
    rcases hp : w.threads[t]? with - | ⟨a | ⟨c, k⟩, g⟩
    · simp only [Crew.step, hp, spent]
      exact hrefl
    · simp only [Crew.step, hp, spent]
      exact hrefl
    · obtain ⟨hbud, hle⟩ := spends_answer (S := S) env hs (h.call_ok hp)
      have hnote : w.notes[t]? = some g := by
        rw [Crew.notes, List.getElem?_map, hp]
        rfl
      have hsum := sum_map_set (f := View.holds prUrl) (b := watch.next g c (c.answer S env w.shared).1
        (c.answer S env w.shared).2) hnote
      simp only [Crew.step, hp, spent, Office.held, Crew.notes, List.map_set, processes] at hsum hbud hle ⊢
      exact ⟨hbud, by omega⟩

end Cycles

/-- Over every run, whatever the watchers do side by side and whoever upserts the record, no more than
`MAX_REVIEW_CYCLES` reruns that a cycle was charged for end well. -/
theorem charged_reruns_capped (S : ScmProvider) (sources : List String) (prUrl : String)
    (l : List (Turn Env Job)) :
    ((total (Crew.step (processes S sources) watch) (spent S prUrl) (Crew.initial .empty) l : Nat) : Int) ≤
      MAX_REVIEW_CYCLES := by
  suffices h : ∀ w : Office, Orderly S sources w → Budgeted prUrl w.shared →
      ((total (Crew.step (processes S sources) watch) (spent S prUrl) w l : Nat) : Int) +
        w.shared.prs.cycles prUrl ≤ MAX_REVIEW_CYCLES + Office.held prUrl w by
    have h₀ := h (Crew.initial .empty) (orderly S sources []) ⟨Table.unique_empty, Int.le_refl _, Int.zero_le_ofNat 3⟩
    have hc : (Prs.cycles (Desk.empty).prs prUrl) = 0 := rfl
    simp only [Crew.initial, Office.held, Crew.notes, List.map_nil, List.sum_nil, hc] at h₀ ⊢
    omega
  induction l with
  | nil =>
    intro w _ hs
    have hw := hs.within.2
    simp only [total]
    omega
  | cons turn l ih =>
    intro w h hs
    obtain ⟨hbud, hle⟩ := spent_step h hs turn
    have hl := ih _ (h.step turn) hbud
    simp only [total]
    omega

/-! ## An undisturbed round -/

/-- Nothing fails: the store and the host answer, the repository is indexed, the issue is found and the
agent's runs end well. Every review that was submitted asks for something. -/
structure Env.Calm (S : ScmProvider) (env : Env) : Prop where
  stored : env.error = none
  running : env.running = true
  hostUp : env.hostUp = true
  indexed : env.skipsRepo = false
  issueFound : env.issueFound = true
  agent : env.agent = .ok ()
  reviews : ∀ repo number since, ∀ review ∈ env.reviews repo number since,
    S.toUppercase review.state ≠ "PENDING" → S.toUppercase review.state ∈ ["CHANGES_REQUESTED", "COMMENTED"]

/-- Whether the row of this comment, filed under this URL, is closed. -/
def Desk.Row (s : Desk) (i : Nat) (prUrl : String) (ref : Int × String) (closed : Bool) : Prop :=
  ∃ r, s.comments.get i = some r ∧ r.pair = ref ∧ (r.comment.id, r.comment.kind) = ref ∧ r.prUrl = prUrl ∧
    r.handledAt.isSome = closed

/-- The statements that close rows. -/
def Call.closes {β : Type} : Call β → Bool
  | .markPrReviewCommentsHandled _ | .markPrReviewCommentsHandledByIds .. |
    .notePrReviewCommentFailureByIds .. => true
  | _ => false

abbrev Undisturbed (S : ScmProvider) (env : Env) {α : Type} (p : Asks α) (Q : α → Desk → Prop) (s : Desk) :
    Prop :=
  Prog.Ends (fun c s => c.answer S env s) p Q s

/-- The host's comments are the same, and the open rows are still open. -/
structure Quietly (s s' : Desk) : Prop where
  posted : s'.posted = s.posted
  attempts : s'.attempts = s.attempts
  rows : ∀ i prUrl ref, s.Row i prUrl ref false → s'.Row i prUrl ref false

section Round

variable {S : ScmProvider} {sources : List String} {env : Env} {s s' s'' : Desk} {p : Nat}
  {state : PrReviewState} {selfLogin : Option String} {i : Nat} {prUrl : String} {ref : Int × String}
  {done : Bool}

theorem Quietly.refl (s : Desk) : Quietly s s := ⟨rfl, rfl, fun _ _ _ h => h⟩

theorem Quietly.trans (h : Quietly s s') (h' : Quietly s' s'') : Quietly s s'' :=
  ⟨h'.posted.trans h.posted, h'.attempts.trans h.attempts, fun i u r hr => h'.rows i u r (h.rows i u r hr)⟩

/-- A row stays under its URL, and closed once it is. -/
theorem row_answer {β : Type} (env : Env) (c : Call β) (h : s.Row i prUrl ref done) :
    ∃ done', (c.answer S env s).2.Row i prUrl ref done' ∧ (done = true → done' = true) := by
  obtain ⟨r, hi, hr, hc, hu, rfl⟩ := h
  rcases (Desk.effect_answer (S := S) env c s).comments with hsame | ⟨op, -, hcom⟩
  · exact ⟨_, ⟨r, by rwa [hsame], hr, hc, hu, rfl⟩, id⟩
  · obtain ⟨r', hi', hcont⟩ := Comments.continues_exec hi op
    have hpair := Desk.pair_continues (hr.trans hc.symm) hcont
    refine ⟨_, ⟨r', by rwa [hcom], hcont.pair.trans hr, ?_, hcont.prUrl.trans hu, rfl⟩, fun hh => ?_⟩
    · rw [← hpair, hcont.pair, hr]
    · rw [Option.isSome_iff_ne_none] at hh ⊢
      exact hcont.handled hh

theorem quietly_answer {β : Type} (env : Env) {c : Call β} (hc : c.closes = false) (s : Desk) :
    Quietly s (c.answer S env s).2 := by
  have heff := Desk.effect_answer (S := S) env c s
  refine ⟨heff.posted, heff.attempts, fun i url ref h => ?_⟩
  obtain ⟨done', hrow, -⟩ := row_answer (S := S) env c h
  obtain ⟨r', hi', hr', hcom', hu', rfl⟩ := hrow
  refine ⟨r', hi', hr', hcom', hu', ?_⟩
  obtain ⟨r, hi, -, -, -, hopen⟩ := h
  rw [Option.isSome_eq_false_iff, Option.isNone_iff_eq_none] at hopen ⊢
  by_contra hh
  rcases heff.comments with hsame | ⟨op, hop, hcom⟩
  · rw [hsame, hi] at hi'
    exact hh (Option.some.inj hi' ▸ hopen)
  · rw [hcom] at hi'
    rcases Comments.exec_cases hi' with ⟨reviews, url, x, rfl, -, rfl⟩ | ⟨r₀, hi₀, -, -, hclose⟩
    · exact hh rfl
    · obtain rfl : r₀ = r := Option.some.inj (hi₀.symm.trans hi)
      rcases hclose hh with hh | hcl
      · exact hh hopen
      · -- Only a record is left, and it closes nothing.
        cases c with
        | recordPrReviewComment url x =>
          cases hop
          exact hcl
        | markPrReviewCommentsHandled url => cases hc
        | markPrReviewCommentsHandledByIds url refs => cases hc
        | notePrReviewCommentFailureByIds url refs maxAttempts => cases hc
        | _ => cases hop

/-- A program that closes nothing. -/
abbrev Mild {α : Type} (p : Asks α) : Prop := Quiet (fun (_ : Unit) c => Call.closes c = false) p

theorem Mild.ends {α : Type} {p : Asks α} (h : Mild p) (hs : Quietly s s') :
    Undisturbed S env p (fun _ => Quietly s) s' :=
  Quiet.ends h () (fun _ s' hc hs' => hs'.trans (quietly_answer env hc s')) hs

theorem mild_recordAll (prUrl : String) (l : List ReviewComment) : Mild (ScmProvider.recordAll prUrl l) := by
  induction l with
  | nil => exact trivial
  | cons c l ih =>
    exact Quiet.bind ⟨fun _ => rfl, fun _ => trivial⟩ fun _ => Quiet.bind ih fun _ => trivial

theorem mild_saveCursor (feed : Feed) (recorded : Bool) (comments : List ReviewComment) :
    Mild (S.saveCursor p feed state recorded comments) := by
  unfold ScmProvider.saveCursor
  split
  · exact ⟨fun _ => rfl, fun _ => trivial⟩
  · exact trivial

/-! ### The poll -/

theorem mem_or_unseen (seen : List (Int × String)) {l : List ReviewComment} {c : ReviewComment} (h : c ∈ l) :
    (c.id, c.kind) ∈ seen ∨ (c.id, c.kind) ∈ (ScmProvider.unseen seen l).map fun c => (c.id, c.kind) := by
  induction l generalizing seen with
  | nil => cases h
  | cons b l ih =>
    show _ ∨ _ ∈ (if (b.id, b.kind) ∈ seen then ScmProvider.unseen seen l
      else b :: ScmProvider.unseen ((b.id, b.kind) :: seen) l).map fun c => (c.id, c.kind)
    split
    · rename_i hb
      rcases List.mem_cons.mp h with rfl | h
      · exact .inl hb
      · exact ih seen h
    · rcases List.mem_cons.mp h with rfl | h
      · exact .inr List.mem_cons_self
      · rcases ih ((b.id, b.kind) :: seen) h with hs | hs
        · rcases List.mem_cons.mp hs with hs | hs
          · exact .inr (List.mem_cons.mpr (.inl hs))
          · exact .inl hs
        · exact .inr (List.mem_cons_of_mem _ hs)

/-- What is taken was submitted. -/
theorem ends_takeReviews (reviews : List CodeReview) :
    Undisturbed S env (S.takeReviews p state selfLogin reviews) (fun taken s' => Quietly s s' ∧
      ∀ review ∈ taken, review ∈ reviews ∧ S.toUppercase review.state ≠ "PENDING") s := by
  unfold ScmProvider.takeReviews
  refine Prog.Ends.bind (Prog.ends_foldlM (P := fun _ found s' => Quietly s s' ∧
      ∀ review ∈ found.taken, review ∈ reviews ∧ S.toUppercase review.state ≠ "PENDING")
    (fun _ review hm found s' hs => ?_) ⟨.refl s, List.forall_mem_nil _⟩) fun found s' hs => ?_
  · unfold ScmProvider.takeReview
    split
    · exact hs
    · rename_i hskip
      refine ⟨hs.1.trans (quietly_answer env rfl s'), fun r hr => ?_⟩
      rcases List.mem_append.mp hr with hr | hr
      · exact hs.2 r hr
      · obtain rfl := List.mem_singleton.mp hr
        refine ⟨List.mem_mergeSort.mp hm, fun hpending => hskip ?_⟩
        rw [decide_eq_true hpending, Bool.or_true]
  · split
    · exact ⟨hs.1.trans (quietly_answer env rfl s'), hs.2⟩
    · exact hs

/-- What an event of the reviews says of itself, but for its comments, it goes on saying. -/
theorem forall_reviewEvents {P : ReviewEvent → Prop} {taken : List CodeReview} {unread : List ReviewComment}
    (hP : ∀ review ∈ taken, ∀ l, P (.reviewSubmitted state.prUrl state.repo state.prNumber review l)) :
    ∀ e ∈ ScmProvider.reviewEvents state taken unread, P e := by
  have hattach : ∀ (c : ReviewComment) (events : List ReviewEvent),
      (∀ e ∈ events, ∃ review ∈ taken, ∃ l, e = .reviewSubmitted state.prUrl state.repo state.prNumber review l) →
      ∀ e ∈ ReviewEvent.attach events c,
        ∃ review ∈ taken, ∃ l, e = .reviewSubmitted state.prUrl state.repo state.prNumber review l := by
    intro c events
    induction events with
    | nil => exact fun h => h
    | cons e events ih =>
      intro h
      obtain ⟨⟨review, hr, l, rfl⟩, hevents⟩ := List.forall_mem_cons.mp h
      unfold ReviewEvent.attach
      split
      · exact List.forall_mem_cons.mpr ⟨⟨review, hr, _, rfl⟩, hevents⟩
      · exact List.forall_mem_cons.mpr ⟨⟨review, hr, l, rfl⟩, ih hevents⟩
  have hall : ∀ (events : List ReviewEvent),
      (∀ e ∈ events, ∃ review ∈ taken, ∃ l, e = .reviewSubmitted state.prUrl state.repo state.prNumber review l) →
      ∀ e ∈ unread.foldl ReviewEvent.attach events,
        ∃ review ∈ taken, ∃ l, e = .reviewSubmitted state.prUrl state.repo state.prNumber review l := by
    induction unread with
    | nil => exact fun events h => h
    | cons c unread ih => exact fun events h => ih _ (hattach c events h)
  intro e he
  obtain ⟨review, hr, l, rfl⟩ := hall _ (fun e he => by
    obtain ⟨review, hr, rfl⟩ := List.mem_map.mp he
    exact ⟨review, hr, [], rfl⟩) e he
  exact hP review hr l

theorem ends_checkComments {taken : List CodeReview} {comments : List HostComment} (hs : Quietly s s') :
    Undisturbed S env (S.checkComments p state selfLogin taken comments) (fun r s'' => Quietly s s'' ∧
      r = (ScmProvider.reviewEvents state taken (S.unread .inline state selfLogin comments),
        S.standalone taken (S.unread .inline state selfLogin comments))) s' := by
  refine Prog.Ends.bind (Mild.ends (mild_recordAll _ _) hs) fun recorded s₁ h₁ => ?_
  exact Prog.Ends.bind (Mild.ends (mild_saveCursor _ _ _) h₁) fun _ s₂ h₂ => ⟨h₂, rfl⟩

theorem ends_checkConversation (he : env.Calm S) (hs : Quietly s s') :
    Undisturbed S env (S.checkConversation p state selfLogin) (fun feedback s'' => Quietly s s'' ∧
      feedback = (S.unread .conversation state selfLogin (S.since (state.cursor .conversation).time
        (s.feed .conversation state.repo state.prNumber))).filter S.triggers) s' := by
  refine Prog.ends_call ?_
  have hanswer : (Call.answer S env (.getNewComments .conversation state.repo state.prNumber
      (state.cursor .conversation).time) s').1 = .ok (S.since (state.cursor .conversation).time
        (s.feed .conversation state.repo state.prNumber)) := by
    show (if env.hostUp = true then _ else _) = _
    rw [if_pos he.hostUp, Desk.feed, hs.posted]
    rfl
  rw [hanswer]
  have h₁ := hs.trans (quietly_answer (S := S) env (c := .getNewComments .conversation state.repo
    state.prNumber (state.cursor .conversation).time) rfl s')
  refine Prog.Ends.bind (Mild.ends (mild_recordAll _ _) h₁) fun recorded s₂ h₂ => ?_
  exact Prog.Ends.bind (Mild.ends (mild_saveCursor _ _ _) h₂) fun _ s₃ h₃ => ⟨h₃, rfl⟩

theorem ends_resurface (he : env.Calm S) {events : List ReviewEvent} {added : List ReviewComment}
    (hs : Quietly s s') :
    Undisturbed S env (ScmProvider.resurface prUrl events added) (fun added' s'' => Quietly s s'' ∧
      added ⊆ added' ∧ ∀ i ref, s.Row i prUrl ref false →
        ref ∈ events.flatMap ReviewEvent.commentRefs ∨ ref ∈ added'.map fun c => (c.id, c.kind)) s' := by
  refine Prog.ends_call ?_
  have hanswer : (Call.answer S env (.getUnhandledPrReviewComments prUrl) s').1 =
      .ok (s'.comments.getUnhandledPrReviewComments prUrl) := by
    show (env.stored _ s').1 = _
    unfold Env.stored
    simp only [he.stored]
    rfl
  rw [hanswer]
  refine ⟨hs.trans (quietly_answer env rfl s'), List.subset_append_left _ _, fun i ref hrow => ?_⟩
  obtain ⟨r, hi, -, hc, hu, hopen⟩ := hs.rows i prUrl ref hrow
  rw [Option.isSome_eq_false_iff, Option.isNone_iff_eq_none] at hopen
  have hpending : r.comment ∈ s'.comments.getUnhandledPrReviewComments prUrl := by
    refine List.mem_map.mpr ⟨(i, r), (List.mem_insertionSort _).mpr (Table.mem_select.mpr ⟨hi, ?_⟩), rfl⟩
    exact Comments.pendingOf_iff.mpr ⟨hu, hopen⟩
  rw [← hc]
  rcases mem_or_unseen (added.map (fun c => (c.id, c.kind)) ++ events.flatMap ReviewEvent.commentRefs)
    hpending with hseen | hnew
  · rcases List.mem_append.mp hseen with h | h
    · obtain ⟨c, hc, href⟩ := List.mem_map.mp h
      exact .inr (List.mem_map.mpr ⟨c, List.mem_append_left _ hc, href⟩)
    · exact .inl h
  · obtain ⟨c, hc, href⟩ := List.mem_map.mp hnew
    exact .inr (List.mem_map.mpr ⟨c, List.mem_append_right _ hc, href⟩)

/-- The event is the pull request's, and is acted on. -/
def ReviewEvent.Of (S : ScmProvider) (prUrl : String) (e : ReviewEvent) : Prop :=
  e.prUrl = prUrl ∧ e.requiresAction S = true

/-- What a poll has to tell: the comments that ask for something and were not read yet, and the rows that
are open. -/
structure Announces (S : ScmProvider) (s : Desk) (state : PrReviewState) (events : List ReviewEvent) :
    Prop where
  unread : ∀ x ∈ s.posted, x.isIn x.feed state.repo state.prNumber = true →
    S.asks x.feed x.toHostComment = true → S.commentIsAfterCursor x.comment (state.cursor x.feed) = true →
    ∃ e ∈ events, e.Of S state.prUrl ∧ x.ref ∈ e.commentRefs
  rows : ∀ i ref, s.Row i state.prUrl ref false → ∃ e ∈ events, e.Of S state.prUrl ∧ ref ∈ e.commentRefs

theorem unread_of_posted {x : Posting} {feed : Feed} (known : Bool) (hx : x ∈ s.posted)
    (hin : x.isIn feed state.repo state.prNumber = true) (ha : S.asks feed x.toHostComment = true)
    (hafter : S.commentIsAfterCursor x.comment (state.cursor feed) = true) :
    x.toHostComment ∈ S.since (state.cursor feed).time (s.feed feed state.repo state.prNumber) ∧
      x.comment ∈ S.unread feed state (if known = true then S.login else none)
        (S.since (state.cursor feed).time (s.feed feed state.repo state.prNumber)) := by
  have hsince : x.toHostComment ∈
      S.since (state.cursor feed).time (s.feed feed state.repo state.prNumber) := by
    refine List.mem_filter.mpr ⟨Desk.mem_feed.mpr ⟨x, hx, hin, rfl⟩, ?_⟩
    by_contra hno
    rw [Bool.not_eq_true] at hno
    rw [Desk.not_after_of_since hno] at hafter
    cases hafter
  exact ⟨hsince, mem_unread.mpr ⟨_, hsince, not_ignored_of_asks ha known, rfl, hafter⟩⟩

/-- The events of a poll, from what it took and added. -/
theorem announces_of_added {taken : List CodeReview} {unread feedback added : List ReviewComment}
    (htaken : ∀ review ∈ taken, S.toUppercase review.state ∈ ["CHANGES_REQUESTED", "COMMENTED"])
    (hadded : S.standalone taken unread ++ feedback ⊆ added)
    (hrows : ∀ i ref, s.Row i state.prUrl ref false →
      ref ∈ (ScmProvider.reviewEvents state taken unread).flatMap ReviewEvent.commentRefs ∨
        ref ∈ added.map fun c => (c.id, c.kind))
    (hinline : ∀ x ∈ s.posted, x.isIn .inline state.repo state.prNumber = true →
      S.asks .inline x.toHostComment = true →
      S.commentIsAfterCursor x.comment (state.cursor .inline) = true →
      x.comment ∈ unread ∧ ∀ c ∈ unread, c.id = x.comment.id → c = x.comment)
    (hconversation : ∀ x ∈ s.posted, x.isIn .conversation state.repo state.prNumber = true →
      S.asks .conversation x.toHostComment = true →
      S.commentIsAfterCursor x.comment (state.cursor .conversation) = true → x.comment ∈ feedback) :
    Announces S s state
      (if added.isEmpty then ScmProvider.reviewEvents state taken unread
      else ScmProvider.reviewEvents state taken unread ++
        [.commentsAdded state.prUrl state.repo state.prNumber added]) := by
  obtain ⟨halone, hfeedback⟩ := List.append_subset.mp hadded
  have hof : ∀ e ∈ ScmProvider.reviewEvents state taken unread, e.Of S state.prUrl :=
    forall_reviewEvents fun review hr l => ⟨rfl, decide_eq_true (htaken review hr)⟩
  generalize hresult : (if added.isEmpty = true then ScmProvider.reviewEvents state taken unread
    else ScmProvider.reviewEvents state taken unread ++
      [.commentsAdded state.prUrl state.repo state.prNumber added]) = result
  have hreview : ∀ ref, ref ∈ (ScmProvider.reviewEvents state taken unread).flatMap ReviewEvent.commentRefs →
      ∃ e ∈ result, e.Of S state.prUrl ∧ ref ∈ e.commentRefs := by
    intro ref hr
    obtain ⟨e, he, href⟩ := List.mem_flatMap.mp hr
    refine ⟨e, ?_, hof e he, href⟩
    rw [← hresult]
    split
    · exact he
    · exact List.mem_append_left _ he
  have hadd : ∀ c ∈ added, ∃ e ∈ result, e.Of S state.prUrl ∧ (c.id, c.kind) ∈ e.commentRefs := by
    intro c hc
    have hne : added.isEmpty = false := List.isEmpty_eq_false_iff.mpr (List.ne_nil_of_mem hc)
    refine ⟨.commentsAdded state.prUrl state.repo state.prNumber added, ?_, ⟨rfl, ?_⟩, ?_⟩
    · rw [← hresult, hne]
      exact List.mem_append_right _ List.mem_cons_self
    · rw [ReviewEvent.requiresAction, hne]
      rfl
    · exact List.mem_map_of_mem hc
  refine ⟨fun x hx hin ha hafter => ?_, fun i ref hrow => ?_⟩
  · generalize x.feed = feed at hin ha hafter
    cases feed with
    | inline =>
      obtain ⟨hun, hdistinct⟩ := hinline x hx hin ha hafter
      have hstands : S.standsAlone x.comment = true := (Bool.and_eq_true_iff.mp ha).2
      rcases List.mem_append.mp (mem_sorted taken hdistinct hun hstands) with hc | hc
      · obtain ⟨e, he, hce⟩ := List.mem_flatMap.mp hc
        exact hreview _ (List.mem_flatMap.mpr ⟨e, he, List.mem_map_of_mem hce⟩)
      · exact hadd _ (halone hc)
    | conversation => exact hadd _ (hfeedback (hconversation x hx hin ha hafter))
  · rcases hrows i ref hrow with h | h
    · exact hreview ref h
    · obtain ⟨c, hc, rfl⟩ := List.mem_map.mp h
      exact hadd c hc

/-- A poll that nothing disturbs tells all there is to tell. -/
theorem ends_checkPrReviews (he : env.Calm S)
    (hd : ((s.feed .inline state.repo state.prNumber).map fun c => c.comment.id).Nodup) :
    Undisturbed S env (S.checkPrReviews p state).run
      (fun r s' => Quietly s s' ∧ ∃ events, r = .ok events ∧ Announces S s state events) s := by
  refine Prog.ends_lift ?_
  generalize hknown : (Call.answer S env .knowsLogin s).1 = known
  have h₁ := quietly_answer (S := S) env (c := .knowsLogin) rfl s
  generalize (Call.answer S env .knowsLogin s).2 = s₁ at h₁
  refine Prog.ends_tryCall (fun reviews hreviews => ?_) fun e hfail => ?_
  swap
  · change (if env.hostUp = true then _ else _) = _ at hfail
    rw [if_pos he.hostUp] at hfail
    cases hfail
  change (if env.hostUp = true then _ else _) = _ at hreviews
  rw [if_pos he.hostUp] at hreviews
  have h₂ := h₁.trans (quietly_answer (S := S) env (c := .getNewReviews state.repo state.prNumber
    state.lastReviewTime) rfl s₁)
  refine Prog.Ends.tryBind (ends_takeReviews reviews).lift ?_ ?_
  swap
  · rintro e s' ⟨_, hr, -⟩
    cases hr
  rintro taken s₃ ⟨_, ⟨⟩, h₃, htaken⟩
  have h₃ := h₂.trans h₃
  refine Prog.ends_lift ?_
  have hanswer : (Call.answer S env (.getNewComments .inline state.repo state.prNumber
      (state.cursor .inline).time) s₃).1 = .ok (S.since (state.cursor .inline).time
        (s.feed .inline state.repo state.prNumber)) := by
    show (if env.hostUp = true then _ else _) = _
    rw [if_pos he.hostUp, Desk.feed, h₃.posted]
    rfl
  rw [hanswer]
  have h₄ := h₃.trans (quietly_answer (S := S) env (c := .getNewComments .inline state.repo state.prNumber
    (state.cursor .inline).time) rfl s₃)
  refine Prog.Ends.bind (Q := fun events s' => Quietly s s' ∧ Announces S s state events) ?_
    fun events s' hs => ⟨hs.1, events, rfl, hs.2⟩
  refine Prog.Ends.bind (ends_checkComments h₄) ?_
  rintro _ s₅ ⟨h₅, rfl⟩
  refine Prog.Ends.bind (ends_checkConversation he h₅) ?_
  rintro _ s₆ ⟨h₆, rfl⟩
  refine Prog.Ends.bind (ends_resurface he h₆) ?_
  rintro added s₇ ⟨h₇, hadded, hrows⟩
  refine ⟨h₇, announces_of_added (fun review hr => ?_) hadded hrows (fun x hx hin ha hafter => ?_)
    fun x hx hin ha hafter => ?_⟩
  · cases hreviews
    exact he.reviews _ _ _ review (htaken review hr).1 (htaken review hr).2
  · obtain ⟨hfetched, hun⟩ := unread_of_posted known hx hin ha hafter
    refine ⟨hun, ?_⟩
    exact unread_distinct (f := ⟨.inline, state.repo, state.prNumber, (state.cursor .inline).time, _, []⟩)
      (hd.sublist (List.filter_sublist.map _)) hfetched
  · obtain ⟨-, hun⟩ := unread_of_posted known hx hin ha hafter
    exact List.mem_filter.mpr ⟨hun, (Bool.and_eq_true_iff.mp ha).2⟩

theorem Announces.mono {events events' : List ReviewEvent} (h : Announces S s state events)
    (hsub : events ⊆ events') : Announces S s state events' where
  unread x hx hin ha hafter := (h.unread x hx hin ha hafter).imp fun _ he => ⟨hsub he.1, he.2⟩
  rows i ref hr := (h.rows i ref hr).imp fun _ he => ⟨hsub he.1, he.2⟩

theorem Announces.quietly {events : List ReviewEvent} (h : Announces S s' state events)
    (hs : Quietly s s') : Announces S s state events where
  unread x hx := h.unread x (hs.posted ▸ hx)
  rows i ref hr := h.rows i ref (hs.rows i state.prUrl ref hr)

theorem ends_checkForReviews (he : env.Calm S) (hS : S.enabled = true)
    (hd : ∀ repo number, ((s.feed .inline repo number).map fun c => c.comment.id).Nodup) (p : Nat) :
    Undisturbed S env (S.checkForReviews p) (fun events s' => Quietly s s' ∧
      ∀ state ∈ Desk.activeStates env.order (s.memory p), Announces S s state events) s := by
  refine Prog.ends_call ?_
  rw [if_pos hS]
  refine Prog.ends_call ?_
  generalize hevents : (Call.answer S env (.drainPending p) s).1 = events
  have h₁ := quietly_answer (S := S) env (c := .drainPending p) rfl s
  have h₂ := h₁.trans (quietly_answer (S := S) env (c := .activeStates p) rfl _)
  refine (Prog.ends_foldlM (P := fun done events s' => Quietly s s' ∧
    ∀ state ∈ done, Announces S s state events) (fun done state _ events s' hs => ?_)
    ⟨h₂, List.forall_mem_nil _⟩).mono fun events s' hs => hs
  have hdistinct : ((s'.feed .inline state.repo state.prNumber).map fun c => c.comment.id).Nodup := by
    rw [Desk.feed, hs.1.posted]
    exact hd _ _
  refine Prog.Ends.bind (ends_checkPrReviews he hdistinct) ?_
  rintro _ s'' ⟨hq, found, rfl, hfound⟩
  refine ⟨hs.1.trans hq, fun st hst => ?_⟩
  rcases List.mem_append.mp hst with hst | hst
  · exact (hs.2 st hst).mono (List.subset_append_left _ _)
  · obtain rfl := List.mem_singleton.mp hst
    exact (hfound.quietly hs.1).mono (List.subset_append_right _ _)

/-! ### The batches -/

theorem addEvent_of {e : ReviewEvent} (groups : List PrReviewFeedback) :
    (∃ b ∈ PrReviewFeedback.addEvent S e groups, b.prUrl = e.prUrl ∧ e.commentRefs ⊆ b.refs) ∧
      ∀ b ∈ groups, ∃ b' ∈ PrReviewFeedback.addEvent S e groups, b'.prUrl = b.prUrl ∧ b.refs ⊆ b'.refs := by
  induction groups with
  | nil => exact ⟨⟨_, List.mem_cons_self, rfl, .refl _⟩, List.forall_mem_nil _⟩
  | cons b groups ih =>
    unfold PrReviewFeedback.addEvent
    split
    · rename_i hu
      refine ⟨⟨_, List.mem_cons_self, hu, List.subset_append_right _ _⟩,
        List.forall_mem_cons.mpr ⟨?_, fun b' hb' => ⟨b', List.mem_cons_of_mem _ hb', rfl, .refl _⟩⟩⟩
      exact ⟨_, List.mem_cons_self, rfl, List.subset_append_left _ _⟩
    · obtain ⟨⟨b', hb', h⟩, hall⟩ := ih
      refine ⟨⟨b', List.mem_cons_of_mem _ hb', h⟩, List.forall_mem_cons.mpr ⟨?_, fun c hc => ?_⟩⟩
      · exact ⟨b, List.mem_cons_self, rfl, .refl _⟩
      · obtain ⟨c', hc', h⟩ := hall c hc
        exact ⟨c', List.mem_cons_of_mem _ hc', h⟩

/-- What is acted on is in a batch of its pull request. -/
theorem mem_group {events : List ReviewEvent} {e : ReviewEvent} (he : e ∈ events) (hof : e.Of S prUrl)
    (hr : ref ∈ e.commentRefs) : ∃ b ∈ groupReviewFeedbackByPr S events, b.prUrl = prUrl ∧ ref ∈ b.refs := by
  have hm : e ∈ events.filter (·.requiresAction S) := List.mem_filter.mpr ⟨he, hof.2⟩
  unfold groupReviewFeedbackByPr
  generalize events.filter (·.requiresAction S) = l at hm
  have hkeep : ∀ (l : List ReviewEvent) (groups : List PrReviewFeedback),
      (∃ b ∈ groups, b.prUrl = prUrl ∧ ref ∈ b.refs) →
      ∃ b ∈ l.foldl (fun groups e => PrReviewFeedback.addEvent S e groups) groups,
        b.prUrl = prUrl ∧ ref ∈ b.refs := by
    intro l
    induction l with
    | nil => exact fun groups h => h
    | cons e l ih =>
      rintro groups ⟨b, hb, hu, href⟩
      obtain ⟨b', hb', hu', hrefs⟩ := (addEvent_of (S := S) (e := e) groups).2 b hb
      exact ih _ ⟨b', hb', hu'.trans hu, hrefs href⟩
  suffices h : ∀ groups : List PrReviewFeedback,
      ∃ b ∈ l.foldl (fun groups e => PrReviewFeedback.addEvent S e groups) groups,
        b.prUrl = prUrl ∧ ref ∈ b.refs from h []
  induction l with
  | nil => cases hm
  | cons e' l ih =>
    intro groups
    rcases List.mem_cons.mp hm with rfl | hm
    · obtain ⟨⟨b, hb, hu, hrefs⟩, -⟩ := addEvent_of (S := S) (e := e) groups
      exact hkeep l _ ⟨b, hb, hu.trans hof.1, hrefs hr⟩
    · exact ih hm _

/-- The attempts are the same, and a closed row is closed. -/
structure Onward (s s' : Desk) : Prop where
  attempts : s'.attempts = s.attempts
  rows : ∀ i prUrl ref closed, s.Row i prUrl ref closed →
    ∃ closed', s'.Row i prUrl ref closed' ∧ (closed = true → closed' = true)

theorem Onward.refl (s : Desk) : Onward s s := ⟨rfl, fun _ _ _ closed h => ⟨closed, h, id⟩⟩

theorem Onward.trans (h : Onward s s') (h' : Onward s' s'') : Onward s s'' where
  attempts := h'.attempts.trans h.attempts
  rows i url ref closed hr := by
    obtain ⟨c₁, h₁, hc₁⟩ := h.rows i url ref closed hr
    obtain ⟨c₂, h₂, hc₂⟩ := h'.rows i url ref c₁ h₁
    exact ⟨c₂, h₂, hc₂ ∘ hc₁⟩

theorem Onward.closed (h : Onward s s') (hr : s.Row i prUrl ref true) : s'.Row i prUrl ref true := by
  obtain ⟨closed, hrow, hc⟩ := h.rows i prUrl ref true hr
  exact hc rfl ▸ hrow

theorem onward_answer {β : Type} (env : Env) (c : Call β) (s : Desk) : Onward s (c.answer S env s).2 :=
  ⟨(Desk.effect_answer (S := S) env c s).attempts, fun _ _ _ _ h => row_answer env c h⟩

theorem ends_onward {α : Type} (env : Env) (p : Asks α) (hs : Onward s s') :
    Undisturbed S env p (fun _ => Onward s) s' :=
  Prog.ends_always (fun c s' hs' => hs'.trans (onward_answer env c s')) p hs

theorem row_handle {q : Nat × CommentRow → Bool} (now : Timestamp) {t : Comments}
    (ht : s'.comments = t.update q (·.handle now)) (hs : s.comments = t) (h : s.Row i prUrl ref done)
    (hq : ∀ r, t.get i = some r → r.pair = ref → r.prUrl = prUrl → r.handledAt = none → q (i, r) = true) :
    s'.Row i prUrl ref true := by
  obtain ⟨r, hi, hr, hc, hu, -⟩ := h
  rw [hs] at hi
  by_cases hm : q (i, r) = true
  · exact ⟨r.handle now, by rw [ht]; exact Table.get_update_of hi hm, hr, hc, hu, rfl⟩
  · rw [Bool.not_eq_true] at hm
    refine ⟨r, by rw [ht]; exact Table.get_update_of_not hi hm, hr, hc, hu, ?_⟩
    rw [Option.isSome_iff_ne_none]
    intro hopen
    rw [hq r hi hr hu hopen] at hm
    cases hm

theorem stored_calm {α : Type} (he : env.Calm S) (f : Desk → Except Error α × Desk) (s : Desk) :
    env.stored f s = ((f s).1.mapError .storage, (f s).2) := by
  unfold Env.stored
  simp only [he.stored]

theorem ends_rerunForFeedback (he : env.Calm S) {w : Watcher} {attempt : FixAttempt} {feedback : String}
    (hp : attempt.prUrl = some prUrl) (hs : Onward s s') :
    Undisturbed S env (w.rerunForFeedback attempt feedback).run
      (fun r s'' => r = .ok .handled ∧ Onward s s'') s' := by
  unfold Watcher.rerunForFeedback
  rw [hp]
  refine Prog.ends_lift ?_
  have h₁ := hs.trans (onward_answer (S := S) env (.getPr prUrl) s')
  refine Prog.Ends.tryBind (ends_onward env (Watcher.chargeReviewCycle attempt prUrl) h₁).lift ?_ ?_
  swap
  · rintro e s₂ ⟨_, hr, -⟩
    cases hr
  rintro charge s₂ ⟨_, -, h₂⟩
  split
  · refine Prog.Ends.tryBind (ends_onward env (unwatchPr w.process prUrl) h₂).lift ?_ ?_
    · rintro u s₃ ⟨_, -, h₃⟩
      exact ⟨rfl, h₃⟩
    · rintro e s₃ ⟨_, hr, -⟩
      cases hr
  · unfold Watcher.rerunCharged
    refine Prog.ends_lift ?_
    generalize hb : (Call.answer S env (.rerun attempt feedback _) s₂).1 = b
    have hok : b = .ok () := by
      rw [← hb]
      show env.agent.mapError _ = _
      rw [he.agent]
      rfl
    subst hok
    exact ⟨rfl, h₂.trans (onward_answer env _ s₂)⟩

theorem ends_processReviewAction (he : env.Calm S) {w : Watcher} {attempt : FixAttempt} {feedback : String}
    (hp : attempt.prUrl = some prUrl) (hs : Onward s s') :
    Undisturbed S env (w.processReviewAction attempt feedback).run
      (fun r s'' => r = .ok .handled ∧ Onward s s'') s' := by
  refine Prog.Ends.tryBind (ends_onward env (Watcher.usedUp attempt) hs).lift ?_ ?_
  swap
  · rintro e s₁ ⟨_, hr, -⟩
    cases hr
  rintro used s₁ ⟨_, -, h₁⟩
  cases used with
  | some url =>
    refine Prog.Ends.tryBind (ends_onward env (unwatchPr w.process url) h₁).lift ?_ ?_
    · rintro u s₂ ⟨_, -, h₂⟩
      exact ⟨rfl, h₂⟩
    · rintro e s₂ ⟨_, hr, -⟩
      cases hr
  | none =>
    have hwaits : Undisturbed S env (Watcher.waitsForRepo attempt) (fun r s₂ => r = false ∧ Onward s s₂) s₁ := by
      unfold Watcher.waitsForRepo
      split
      · exact ⟨he.indexed, h₁.trans (onward_answer env _ s₁)⟩
      · exact ⟨rfl, h₁⟩
    refine Prog.Ends.tryBind hwaits.lift ?_ ?_
    swap
    · rintro e s₂ ⟨_, hr, -⟩
      cases hr
    rintro waits s₂ ⟨_, ⟨⟩, rfl, h₂⟩
    rw [if_neg Bool.false_ne_true]
    split
    · exact ends_rerunForFeedback he hp h₂
    · split
      · refine Prog.ends_tryCall (fun u _ => ?_) fun e hfail => ?_
        · exact ends_rerunForFeedback he hp (h₂.trans (onward_answer env _ s₂))
        · change (if env.issueFound = true then _ else _) = _ at hfail
          rw [if_pos he.issueFound] at hfail
          cases hfail
      · exact ⟨rfl, h₂⟩

/-- A batch that nothing disturbs closes its rows, if the pull request has an attempt. -/
theorem ends_handleFeedback (he : env.Calm S) {w : Watcher} {b : PrReviewFeedback} (hs : Onward s s') :
    Undisturbed S env (w.handleFeedback b).run (fun r s'' => r = .ok true ∧ Onward s s'' ∧
      ((s.attempts.getAttemptByPrUrl b.prUrl).isSome = true → ∀ i ref done, s.Row i b.prUrl ref done →
        ref ∈ b.refs → s''.Row i b.prUrl ref true)) s' := by
  refine Prog.ends_tryCall (fun found hfound => ?_) fun e hfail => ?_
  swap
  · change (env.stored _ s').1 = _ at hfail
    rw [stored_calm he] at hfail
    cases hfail
  change (env.stored _ s').1 = _ at hfound
  rw [stored_calm he] at hfound
  have h₁ := hs.trans (onward_answer (S := S) env (.getAttemptByPrUrl b.prUrl) s')
  generalize (Call.answer S env (.getAttemptByPrUrl b.prUrl) s').2 = s₁ at h₁
  have hfound : s.attempts.attemptOf b.prUrl = found := by
    rw [← hs.attempts]
    exact Except.ok.inj hfound
  cases found with
  | none =>
    refine ⟨rfl, h₁.trans (onward_answer env _ s₁), fun hsome => ?_⟩
    unfold FixAttempts.attemptOf at hfound
    split at hfound
    · rename_i hnone
      rw [hnone] at hsome
      cases hsome
    · cases hfound
  | some attempt =>
    obtain ⟨attempt, hp⟩ := attempt
    dsimp only
    split
    · refine Prog.ends_lift ?_
      generalize hs₂ : (Call.answer S env (.markPrReviewCommentsHandled b.prUrl) s₁).2 = s₂
      have h₂ := h₁.trans (onward_answer (S := S) env (.markPrReviewCommentsHandled b.prUrl) s₁)
      rw [hs₂] at h₂
      have hclosed : ∀ i ref done, s.Row i b.prUrl ref done → s₂.Row i b.prUrl ref true := by
        intro i ref done hrow
        obtain ⟨done₁, hrow₁, -⟩ := h₁.rows i b.prUrl ref done hrow
        refine row_handle (q := Comments.pendingOf b.prUrl) env.now ?_ rfl hrow₁
          fun r _ _ hu hopen => Comments.pendingOf_iff.mpr ⟨hu, hopen⟩
        rw [← hs₂]
        show (env.stored _ s₁).2.comments = _
        rw [stored_calm he]
        rfl
      refine Prog.Ends.tryBind (ends_onward env (unwatchPr w.process b.prUrl) (.refl s₂)).lift ?_ ?_
      · rintro u s₃ ⟨_, -, h₃⟩
        exact ⟨rfl, h₂.trans h₃, fun _ i ref done hrow _ => h₃.closed (hclosed i ref done hrow)⟩
      · rintro e s₃ ⟨_, hr, -⟩
        cases hr
    · refine Prog.ends_lift ?_
      have hrunning : (Call.answer S env .isRunning s₁).1 = true := he.running
      have h₂ := h₁.trans (onward_answer (S := S) env .isRunning s₁)
      rw [hrunning, if_pos rfl]
      refine Prog.Ends.tryBind (ends_processReviewAction he hp h₂).lift ?_ ?_
      swap
      · rintro e s₃ ⟨_, hr, -⟩
        cases hr
      rintro outcome s₃ ⟨_, ⟨⟩, rfl, h₃⟩
      refine Prog.ends_lift ?_
      generalize hs₄ : (Call.answer S env (.markPrReviewCommentsHandledByIds b.prUrl b.refs) s₃).2 = s₄
      have h₄ := h₃.trans (onward_answer (S := S) env (.markPrReviewCommentsHandledByIds b.prUrl b.refs) s₃)
      rw [hs₄] at h₄
      refine ⟨rfl, h₄, fun _ i ref done hrow href => ?_⟩
      obtain ⟨done₃, hrow₃, -⟩ := h₃.rows i b.prUrl ref done hrow
      refine row_handle (q := Comments.tried b.prUrl b.refs) env.now ?_ rfl hrow₃
        fun r _ hr hu hopen => Comments.tried_iff.mpr ⟨⟨hu, hopen⟩, hr ▸ href⟩
      rw [← hs₄]
      show (env.stored _ s₃).2.comments = _
      rw [stored_calm he]
      show s₃.comments.markPrReviewCommentsHandledByIds env.now b.prUrl b.refs = _
      rw [Comments.markPrReviewCommentsHandledByIds, if_neg]
      rw [List.isEmpty_iff]
      exact List.ne_nil_of_mem href

/-- A round closes the rows of the pull requests that are watched and have an attempt. -/
theorem ends_checkReviews (he : env.Calm S) (hS : S.enabled = true)
    (hd : ∀ repo number, ((s.feed .inline repo number).map fun c => c.comment.id).Nodup)
    (hmem : ∀ prUrl state, (s.memory p).get prUrl = some state → state.prUrl = prUrl)
    (hw : (s.memory p).get prUrl = some state) (hactive : state.isActive = true)
    (ha : (s.attempts.getAttemptByPrUrl prUrl).isSome = true) :
    Undisturbed S env (Watcher.checkReviews ⟨S, sources, p⟩).run
      (fun _ s' => ∀ i ref done, s.Row i prUrl ref done → s'.Row i prUrl ref true) s := by
  refine Prog.ends_lift ?_
  have hrunning : (Call.answer S env .isRunning s).1 = true := he.running
  rw [hrunning, if_pos rfl]
  have h₁ := quietly_answer (S := S) env (c := .isRunning) rfl s
  have ho₁ := onward_answer (S := S) env .isRunning s
  have hdistinct : ∀ repo number, (((Call.answer S env .isRunning s).2.feed .inline repo number).map
      fun c => c.comment.id).Nodup := hd
  have hpoll := ends_checkForReviews he hS hdistinct p
  have hpoll' := ends_onward (S := S) env (S.checkForReviews p) ho₁
  have hboth : Undisturbed S env (S.checkForReviews p) (fun events s' => Onward s s' ∧
      ∀ state ∈ Desk.activeStates env.order (s.memory p),
        Announces S (Call.answer S env .isRunning s).2 state events) _ := ⟨hpoll', hpoll.2⟩
  refine Prog.Ends.tryBind hboth.lift ?_ ?_
  swap
  · rintro e s₂ ⟨_, hr, -⟩
    cases hr
  rintro events s₂ ⟨_, ⟨⟩, ho₂, hall⟩
  refine Prog.Ends.mono (Prog.ends_tryForWhile (P := fun batches s' => Onward s s' ∧ ∀ b ∈ batches,
    (s.attempts.getAttemptByPrUrl b.prUrl).isSome = true → ∀ i ref done, s.Row i b.prUrl ref done →
      ref ∈ b.refs → s'.Row i b.prUrl ref true) (fun batches b _ s' hs => ?_)
    ⟨ho₂, List.forall_mem_nil _⟩) ?_
  · have hbatch := ends_handleFeedback (w := ⟨S, sources, p⟩) (b := b) he hs.1
    have hon := ends_onward (S := S) env (Watcher.handleFeedback ⟨S, sources, p⟩ b).run (.refl s')
    refine ⟨hbatch.1, hbatch.2.1, fun b' hb' => ?_⟩
    rcases List.mem_append.mp hb' with hb' | hb'
    · exact fun hsome i ref done hrow href => hon.closed (hs.2 b' hb' hsome i ref done hrow href)
    · obtain rfl := List.mem_singleton.mp hb'
      exact hbatch.2.2
  · rintro r s₃ ⟨-, ho₃, hbatches⟩ i ref done hrow
    cases done with
    | true => exact ho₃.closed hrow
    | false =>
      have hin : state ∈ Desk.activeStates env.order (s.memory p) := by
        refine List.mem_filter.mpr ⟨List.mem_map.mpr ⟨(prUrl, state), ?_, rfl⟩, hactive⟩
        exact (env.order.perm _).mem_iff.mpr (Dict.get_eq_some.mp hw)
      have hurl := hmem prUrl state hw
      obtain ⟨e, hm, hof, href⟩ := ((hall state hin).quietly h₁).rows i ref (hurl ▸ hrow)
      obtain ⟨b, hb, hu, hrefs⟩ := mem_group hm hof href
      have hclosed := hbatches b hb
      rw [hu, hurl] at hclosed
      exact hclosed ha i ref false hrow hrefs

end Round

/-- From every state that the processes can reach: a poll that nothing disturbs tells of every comment that
asks for something, but for those whose row is closed, or stands under another URL of the pull request. -/
theorem poll_announces (S : ScmProvider) (sources : List String) (l : List (Turn Env Job)) (env : Env)
    (he : env.Calm S) (p : Nat) (prUrl : String) (state : PrReviewState)
    (hs : (office S sources l).shared.Holds prUrl state) :
    Undisturbed S env (S.checkPrReviews p state).run (fun r _ => ∃ events, r = .ok events ∧
      ∀ x ∈ (office S sources l).shared.posted, parsePrUrl prUrl = some (x.repo, x.number) →
        S.asks x.feed x.toHostComment = true →
        ((office S sources l).shared.comments.Has fun r =>
          r.pair = x.ref ∧ (r.handledAt ≠ none ∨ r.prUrl ≠ prUrl)) ∨
        ∃ e ∈ events, e.prUrl = prUrl ∧ x.ref ∈ e.commentRefs) (office S sources l).shared := by
  have h := (orderly S sources l).inv.1
  obtain ⟨rfl, hk⟩ := h.kept prUrl state hs
  refine (ends_checkPrReviews he (h.distinct .inline state.repo state.prNumber)).mono ?_
  rintro r s' ⟨-, events, rfl, hall⟩
  refine ⟨events, rfl, fun x hx hp ha => ?_⟩
  obtain ⟨hr, hn⟩ := hk.place hp
  rcases h.commentsKept x hx ha with ⟨i, row, hi, hpair, -⟩ | hafter
  · by_cases hopen : row.handledAt = none ∧ row.prUrl = state.prUrl
    · obtain ⟨e, hm, hof, href⟩ := hall.rows i x.ref
        ⟨row, hi, hpair, (h.rows i row hi).pair.symm.trans hpair, hopen.2, by rw [hopen.1]; rfl⟩
      exact .inr ⟨e, hm, hof.1, href⟩
    · refine .inl ⟨i, row, hi, hpair, ?_⟩
      by_contra hno
      rw [not_or, not_not, not_not] at hno
      exact hopen hno
  · obtain ⟨e, hm, hof, href⟩ := hall.unread x hx (Desk.isIn_iff.mpr ⟨rfl, hr, hn⟩) ha
      (hafter state.prUrl state hs hp)
    exact .inr ⟨e, hm, hof.1, href⟩

theorem calm_quiet : quiet.Calm host where
  stored := rfl
  running := rfl
  hostUp := rfl
  indexed := rfl
  issueFound := rfl
  agent := rfl
  reviews _ _ _ := List.forall_mem_nil _

def amysState : PrReviewState where
  prUrl := amysPull
  repo := "o/r"
  prNumber := 1
  issueId := "1"
  source := "linear"

/-- Watched, and commented on. -/
def commented : List (Turn Env Job) :=
  [.spawn (.attempts amysAttempt), .spawn (.watch 0 amysPull "1" "linear")] ++ List.replicate 2 (.go 1 quiet) ++
    [.spawn (.post (amysComment none))]

theorem poll_announces_amy : Undisturbed host quiet (host.checkPrReviews 0 amysState).run
    (fun r _ => ∃ events, r = .ok events ∧ ∃ e ∈ events, e.prUrl = amysPull ∧ (1, "inline") ∈ e.commentRefs)
    (office host ["linear"] commented).shared := by
  have hnone : (office host ["linear"] commented).shared.comments.rows = [] := by decide +kernel
  refine (poll_announces host ["linear"] commented quiet calm_quiet 0 amysPull amysState
    (.inl ⟨0, by decide +kernel⟩)).mono ?_
  rintro r s' ⟨events, rfl, hall⟩
  refine ⟨events, rfl, ?_⟩
  rcases hall (amysComment none) (by decide +kernel) (by decide +kernel) (by decide +kernel) with
    ⟨i, r, hi, -⟩ | h
  · rw [Table.get_eq_some, hnone] at hi
    cases hi
  · exact h

/-- A webhook's poll has put the comment into the ledger. -/
def webhooked : List (Turn Env Job) :=
  commented ++ .spawn (.checkForPr 0 amysPull) :: List.replicate 12 (.go 3 quiet)

end Claudear.Engine.Reviews
