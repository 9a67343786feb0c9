import Claudear.Storage.Accounts

/-!
# Login emails

The calls compare and store emails in the form of `normalize_login_email`, which
lowercases all of Unicode; SQLite compares them with `lower`, which lowercases
ASCII, and with a unique index, which compares bytes. On the stored form the
three agree: normalizing it again changes nothing, and `lower` leaves it.
-/

namespace Claudear.Storage.Users

open Claudear.Core Claudear.Sql Claudear.Machine

variable {L : Libraries}

/-- Stored emails are normalized, and the unique index holds. -/
structure EmailsStored (L : Libraries) (us : Table UserRow) : Prop where
  normalized : ∀ i c, us.get i = some c → Normalized L c.email
  unique : Table.Unique (fun c : UserRow => some c.email) us

theorem EmailsStored.insert {us : Table UserRow} (h : EmailsStored L us) {c : UserRow}
    (hn : Normalized L c.email) (hu : ∀ i r, us.get i = some r → r.email ≠ c.email) :
    EmailsStored L (us.insert c) where
  normalized := by
    intro i r hr
    rcases Table.get_insert_cases hr with ⟨-, rfl⟩ | hr
    · exact hn
    · exact h.normalized i r hr
  unique := by
    refine h.unique.insert fun k hk i r hr e => hu i r hr ?_
    exact Option.some.inj (e.trans hk.symm)

/-- An update that leaves the emails. -/
theorem EmailsStored.update {us : Table UserRow} (h : EmailsStored L us)
    {p : Nat × UserRow → Bool} {f : UserRow → UserRow} (hf : ∀ c, (f c).email = c.email) :
    EmailsStored L (us.update p f) where
  normalized := by
    intro i r hr
    obtain ⟨c, hc, ⟨-, rfl⟩ | ⟨-, rfl⟩⟩ := Table.get_update_cases hr
    · rw [hf]
      exact h.normalized i c hc
    · exact h.normalized i r hc
  unique := h.unique.update fun c k hk => by rwa [hf] at hk

/-- An update that gives one user an email no other user has. -/
theorem EmailsStored.setEmail {us : Table UserRow} (h : EmailsStored L us) {u : Nat}
    {f : UserRow → UserRow} {e : String} (hn : Normalized L e) (hf : ∀ c, (f c).email = e)
    (hu : ∀ i r, us.get i = some r → i ≠ u → r.email ≠ e) :
    EmailsStored L (us.update (·.1 = u) f) where
  normalized := by
    intro i r hr
    obtain ⟨c, hc, ⟨-, rfl⟩ | ⟨-, rfl⟩⟩ := Table.get_update_cases hr
    · rw [hf]
      exact hn
    · exact h.normalized i r hc
  unique := by
    intro i j c c' k hi hj hc hc'
    have he : c.email = c'.email := Option.some.inj (hc.trans hc'.symm)
    obtain ⟨b, hb, hbc⟩ := Table.get_update_cases hi
    obtain ⟨b', hb', hbc'⟩ := Table.get_update_cases hj
    rcases hbc with ⟨hp, rfl⟩ | ⟨hp, rfl⟩ <;> rcases hbc' with ⟨hq, rfl⟩ | ⟨hq, rfl⟩
    · exact (of_decide_eq_true hp).trans (of_decide_eq_true hq).symm
    · exact absurd (he.symm.trans (hf b)) (hu j _ hb' (of_decide_eq_false hq))
    · exact absurd (he.trans (hf b')) (hu i _ hb (of_decide_eq_false hp))
    · exact h.unique hb hb' hc hc'

theorem Account.emailsStored (a a' : Table UserRow × Table InviteRow) (h : Account L a a')
    (ha : EmailsStored L a.1) : EmailsStored L a'.1 := by
  cases h with
  | insertUser hn hu => exact ha.insert hn hu
  | setUser hs he =>
    rcases he with he | ⟨e, hn, hf, hu⟩
    · exact ha.update he
    · exact ha.setEmail hn hf hu
  | close => exact ha
  | invite => exact ha

theorem EmailsStored.empty : EmailsStored L Table.empty where
  normalized := by
    intro i c h
    cases h
  unique := Table.unique_empty

theorem emailsStored_run (l : List Call) :
    EmailsStored L (run (step L) Directory.empty l).users :=
  run_accounts (P := fun a => EmailsStored L a.1) Account.emailsStored .empty l

/-! ## Lookup -/

/-- Each spelling of a stored email finds the user who has it. -/
theorem EmailsStored.getUserByEmail {d : Directory} (h : EmailsStored L d.users) {i : Nat}
    {c : UserRow} (hc : d.users.get i = some c) {email : String}
    (he : normalizeLoginEmail L.caseProps email = c.email) :
    getUserByEmail L d email = some (i, c) := by
  have hp : decide (c.email.toLower = c.email.toLower ∧ c.email = c.email) = true := by simp
  obtain ⟨⟨j, c'⟩, hj⟩ := Table.exists_first
    (p := fun r => r.2.email.toLower = c.email.toLower ∧ r.2.email = c.email) hc hp
  obtain ⟨hj', hq⟩ := Table.first_get hj
  simp only [decide_eq_true_eq] at hq
  have hij : j = i := h.unique hj' hc (congrArg some hq.2) rfl
  subst hij
  have hcc : c' = c := Option.some.inj (hj'.symm.trans hc)
  rw [Users.getUserByEmail, he, hj, hcc]
  rfl

/-- In every state the calls reach, no two users have login emails that normalize alike, and any
spelling of a stored email finds exactly the user who has it. -/
theorem login_emails_unique (L : Libraries) (l : List Call) :
    let d := run (step L) Directory.empty l
    (∀ i j c c', d.users.get i = some c → d.users.get j = some c' →
      normalizeLoginEmail L.caseProps c.email = normalizeLoginEmail L.caseProps c'.email →
      i = j) ∧
    ∀ i c email, d.users.get i = some c → normalizeLoginEmail L.caseProps email = c.email →
      getUserByEmail L d email = some (i, c) := by
  have h := emailsStored_run (L := L) l
  refine ⟨fun i j c c' hi hj he => ?_, fun i c email hc he => h.getUserByEmail hc he⟩
  have hcc : c.email = c'.email := by
    rw [h.normalized i c hi, h.normalized j c' hj] at he
    exact he
  exact h.unique hi hj (congrArg some hcc) rfl

end Claudear.Storage.Users
