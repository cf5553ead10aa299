import Anubis.Auth.Helpers.Steps
import Mathlib.Logic.Function.Iterate

/-!
# Hashes and sessions over a run

Where no two accounts share an address, the hash that an address signs in with
is the one of its account. A hash is replaced only by one that has never been in
use, so a login that has verified a hash which is not in use any more never
finishes. Sessions come only from logins that do.
-/

namespace Anubis.Auth

open Checked Service List Option AList LocalAuthenticator

variable {a : LocalAuthenticator} {adminEmail adminPassword : String} {env : Env} {sess : Session}
variable {file : Option SessionFile} {token : String} {hash : String}
    {x y set email userID : String}
  {rec new : AccountRecord} {n i : ℕ} {acc : Acceptance}

/-- **No two accounts share an address.** -/
def LocalAuthenticator.UniqueEmails (a : LocalAuthenticator) : Prop :=
  ∀ id id' user user', a.users.lookup id = some user → a.users.lookup id' = some user' →
    sameEmail user.email user'.email = true → id = id'

/-- A hash that is stored. -/
def LocalAuthenticator.HasHash (a : LocalAuthenticator) (hash : String) : Prop :=
  hash = a.adminPasswordHash ∨ ∃ id rec, a.accounts.lookup id = some rec ∧ rec.passwordHash = hash

/-- A hash that an event brings: none, one that it draws, or the one of an
acceptance. -/
def NewHash (s : Service) (e : Event) (hash : String) : Prop :=
  hash = "" ∨ (e.hashes = true ∧ ∃ env ∈ e.env, hash = env.hash) ∨
    ∃ i env acc, e = .acceptCommit i env ∧ s.acceptances[i]? = some acc ∧ hash = acc.pw

/-- A record has the source and the hash it had or a new hash, or it is new
altogether. -/
def Rehashed (s : Service) (e : Event) (id : String) (rec' : AccountRecord) : Prop :=
  (∃ rec, s.auth.accounts.lookup id = some rec ∧ rec'.source = rec.source ∧
      (rec'.passwordHash = rec.passwordHash ∨ NewHash s e rec'.passwordHash)) ∨
    (∃ env ∈ e.env, id = env.id) ∧ NewHash s e rec'.passwordHash

theorem sameEmail_comm : sameEmail x y = sameEmail y x := by
  rw [Bool.eq_iff_iff, sameEmail_iff, sameEmail_iff]
  constructor
  · rintro ⟨hne, heq⟩
    exact ⟨heq ▸ hne, heq.symm⟩
  · rintro ⟨hne, heq⟩
    exact ⟨heq ▸ hne, heq.symm⟩

theorem sameEmail_trans {z : String} (hxy : sameEmail x y = true) (hyz : sameEmail y z = true) :
    sameEmail x z = true := by
  rw [sameEmail_iff] at *
  exact ⟨hxy.1, hxy.2.trans hyz.2⟩

section Records

variable {S : Setup} {s : Service} {e : Event} {a' : LocalAuthenticator} {id : String}
    {rec' : AccountRecord}

section

variable (h : a'.accounts.lookup id = some rec')

include h

theorem rehashed_of_set
    (hset : a'.accounts = s.auth.accounts.insert set new)
    (hold : s.auth.accounts.lookup set = some rec)
    (hsource : new.source = rec.source) (hhash : new.passwordHash = rec.passwordHash) :
    Rehashed s e id rec' := by
  rw [hset, lookup_insert_eq_some] at h
  obtain ⟨rfl, rfl⟩ | ⟨-, h⟩ := h
  · exact .inl ⟨rec, hold, hsource, .inl hhash⟩
  · exact .inl ⟨rec', h, rfl, .inl rfl⟩

theorem rehashed_of_new (hset : a'.accounts = s.auth.accounts.insert env.id new)
    (henv : e.env = some env) (hnew : NewHash s e new.passwordHash) : Rehashed s e id rec' := by
  rw [hset, lookup_insert_eq_some] at h
  obtain ⟨heq, rfl⟩ | ⟨-, h⟩ := h
  · exact .inr ⟨⟨env, henv, heq⟩, hnew⟩
  · exact .inl ⟨rec', h, rfl, .inl rfl⟩

theorem rehashed_of_erase {gone : String}
    (herase : a'.accounts = s.auth.accounts.erase gone) : Rehashed s e id rec' := by
  rw [herase, lookup_erase_eq_some] at h
  exact .inl ⟨rec', h.2, rfl, .inl rfl⟩

theorem rehashed_of_modify {f : AccountRecord → AccountRecord}
    (hset : a'.accounts = s.auth.accounts.modify set f)
    (hf : ∀ rec, (f rec).source = rec.source ∧
      ((f rec).passwordHash = rec.passwordHash ∨ NewHash s e (f rec).passwordHash)) :
      Rehashed s e id rec' := by
  rw [hset, lookup_modify] at h
  split at h
  · next heq =>
    subst heq
    obtain ⟨rec, hrec, rfl⟩ := map_eq_some_iff.mp h
    exact .inl ⟨rec, hrec, hf rec⟩
  · exact .inl ⟨rec', h, rfl, .inl rfl⟩

end

/-- **A plan keeps every hash or brings a new one.** -/
theorem Plan.rehashed (hc : s.auth.Complete) (hnew : ∀ env ∈ e.env,
    s.auth.users.lookup env.id = none)
    (h : Plan S s e a') (hrec' : a'.accounts.lookup id = some rec') : Rehashed s e id rec' := by
  cases h with
  | ends | adminPassword => exact .inl ⟨rec', hrec', rfl, .inl rfl⟩
  | create => exact rehashed_of_new hrec' rfl rfl (.inr (.inl ⟨rfl, _, rfl, rfl⟩))
  | update hactor htarget =>
    exact rehashed_of_set hrec' accounts_revokeIf (targetLocked_ok htarget).2.1 rfl rfl
  | @remove env _ userID ws _ _ user rec hactor htarget =>
    rcases @withoutMember_cases s.auth env userID ws user rec with ⟨-, heq⟩ | ⟨_, heq, -⟩
    · rw [heq] at hrec'
      exact rehashed_of_erase hrec' rfl
    · rw [heq] at hrec'
      exact rehashed_of_set hrec' rfl (targetLocked_ok htarget).2.1 rfl rfl
  | delete => exact rehashed_of_erase hrec' rfl
  | join hacc hinv hfind hrec | signIn hfind hrec => exact rehashed_of_set hrec' rfl hrec rfl rfl
  | acceptNew hacc => exact rehashed_of_new hrec' rfl rfl (.inr (.inr ⟨_, _, _, rfl, hacc, rfl⟩))
  | signUp => exact rehashed_of_new hrec' rfl rfl (.inl rfl)
  | login hlogin hhash hknown =>
    rcases loginIdentity_cases hknown with ⟨-, rfl⟩ | ⟨-, rfl, rfl, rfl⟩
    · exact rehashed_of_modify hrec' rfl fun rec => ⟨rfl, .inl rfl⟩
    · dsimp only at hrec'
      rw [lookup_modify] at hrec'
      split at hrec'
      · next heq =>
        obtain ⟨rec, hrec, rfl⟩ := map_eq_some_iff.mp hrec'
        rw [migrate_insert hc (hnew _ rfl), if_pos rfl] at hrec
        cases hrec
        refine .inr ⟨⟨_, rfl, heq⟩, .inl ?_⟩
        unfold migratedRecord
        split <;> rfl
      · next hne =>
        rw [migrate_insert hc (hnew _ rfl), if_neg hne] at hrec'
        exact .inl ⟨rec', hrec', rfl, .inl rfl⟩
  | password resetTokens henv hhash hu hchanged =>
    subst hchanged
    refine rehashed_of_modify hrec' rfl fun rec => ⟨rfl, ?_⟩
    unfold LocalAuthenticator.rehashed
    dsimp only
    split
    · exact .inl rfl
    · exact .inr (.inr (.inl ⟨hhash, _, henv, rfl⟩))

theorem Plan.adminHash (h : Plan S s e a') :
    a'.adminPasswordHash = s.auth.adminPasswordHash ∨ NewHash s e a'.adminPasswordHash := by
  cases h with
  | update => split <;> exact .inl rfl
  | remove =>
    unfold withoutMember
    dsimp only
    split <;> exact .inl rfl
  | login hlogin hhash hknown =>
    rcases loginIdentity_cases hknown with ⟨-, rfl⟩ | ⟨-, rfl, rfl, rfl⟩ <;> exact .inl rfl
  | password resetTokens henv hhash hu hchanged =>
    subst hchanged
    change (if _ then _ else _) = _ ∨ NewHash s e (if _ then _ else _)
    split
    · exact .inr (.inr (.inl ⟨hhash, _, henv, rfl⟩))
    · exact .inl rfl
  | adminPassword henv hhash => exact .inr (.inr (.inl ⟨hhash, _, henv, rfl⟩))
  | _ => exact .inl rfl

/-- **Addresses stay unique.** -/
theorem Plan.uniqueEmails (hlogins : ∀ l ∈ s.logins, l.expectedHash ≠ "")
    (hunique : s.auth.UniqueEmails) (h : Plan S s e a') : a'.UniqueEmails := by
  intro id id' user user' hu hu' hsame
  rcases h.addressed hlogins hu with ⟨old, hold, heq⟩ | ⟨⟨env, henv, rfl⟩, hnone⟩ <;>
    rcases h.addressed hlogins hu' with ⟨old', hold', heq'⟩ | ⟨⟨env', henv', rfl⟩, hnone'⟩
  · exact hunique _ _ _ _ hold hold' (by rwa [← heq, ← heq'])
  · rw [heq, hnone' _ _ hold] at hsame
    cases hsame
  · rw [sameEmail_comm, heq', hnone _ _ hold'] at hsame
    cases hsame
  · rw [some.inj (henv.symm.trans henv')]

/-- The hash of an address is the one of its account. -/
theorem passwordHashForLocked_eq (hunique : a.UniqueEmails) {begin : ℕ}
    {user : User} (hno : ¬ sameEmail email a.adminEmail = true)
    (hu : a.users.lookup id = some user) (hsame : sameEmail user.email email = true)
    (hrec : a.accounts.lookup id = some rec) :
    a.passwordHashForLocked begin email = if rec.source = .sourceLocal then rec.passwordHash
    else "" := by
  unfold passwordHashForLocked
  rw [if_neg hno]
  split
  · next hnone =>
    rw [findByEmailLocked_none hnone hu] at hsame
    cases hsame
  · next id' user' hfind =>
    obtain ⟨hu', hsame'⟩ := findByEmailLocked_some hfind
    obtain rfl := hunique _ _ _ _ hu' hu (sameEmail_trans hsame' (sameEmail_comm ▸ hsame))
    rw [hrec]

/-- **The hash of an address stays or is new.** -/
theorem Plan.passwordHash (hok : s.Ok) (hnew : ∀ env ∈ e.env, s.auth.users.lookup env.id = none)
    (hunique : s.auth.UniqueEmails) (h : Plan S s e a') (begin : ℕ) (email : String) :
    (∃ begin', s.auth.passwordHashForLocked begin' email = a'.passwordHashForLocked begin email) ∨
      NewHash s e (a'.passwordHashForLocked begin email) := by
  obtain ⟨_, htouch, -⟩ := h.touches hok.complete hnew
  by_cases hadmin : sameEmail email s.auth.adminEmail = true
  · have hself : ∀ b, s.auth.passwordHashForLocked b email = s.auth.adminPasswordHash := fun b =>
      if_pos hadmin
    have hself' : a'.passwordHashForLocked begin email = a'.adminPasswordHash :=
      if_pos (htouch.adminEmail ▸ hadmin)
    rw [hself']
    exact h.adminHash.imp_left fun heq => ⟨0, (hself 0).trans heq.symm⟩
  · obtain ⟨hash, hhash⟩ : ∃ hash, a'.passwordHashForLocked begin email = hash := ⟨_, rfl⟩
    rw [hhash]
    unfold passwordHashForLocked at hhash
    rw [if_neg (htouch.adminEmail ▸ hadmin)] at hhash
    split at hhash
    · exact .inr (.inl hhash.symm)
    next id user' hfind =>
    obtain ⟨hu', hsame⟩ := findByEmailLocked_some hfind
    split at hhash
    · exact .inr (.inl hhash.symm)
    next rec' hrec' =>
    split at hhash
    · next hsource =>
      subst hhash
      rcases h.rehashed hok.complete hnew hrec' with ⟨rec, hrec, hsrc, hkept | hfresh⟩ | ⟨-, hfresh⟩
      · obtain ⟨user, hu⟩ := hok.complete.user hrec
        have hmail : user'.email = user.email := by
          rcases h.addressed hok.logins hu' with ⟨old, hold, heq⟩ | ⟨⟨env, henv, rfl⟩, -⟩
          · rw [heq, some.inj (hold.symm.trans hu)]
          · rw [hnew env henv] at hu
            cases hu
        refine .inl ⟨0, ?_⟩
        rw [passwordHashForLocked_eq hunique hadmin hu (hmail ▸ hsame) hrec,
          if_pos (hsrc ▸ hsource), hkept]
      · exact .inr hfresh
      · exact .inr hfresh
    · exact .inr (.inl hhash.symm)

end Records

/-! ## Sessions -/

section Tokens

variable {V : Type} {expiresAt : V → ℤ} {among : V → Bool} {entries : Dict String V}
    {key : String} {v : V}

theorem lookup_evictOldest (h : (evictOldest expiresAt among entries).lookup key = some v) :
    entries.lookup key = some v := by
  unfold evictOldest at h
  split at h
  · exact (lookup_erase_eq_some.mp h).2
  · exact h

theorem lookup_evictOldest_iterate
    (h : ((evictOldest expiresAt among)^[n] entries).lookup key = some v) :
    entries.lookup key = some v := by
  induction n generalizing entries with
  | zero => exact h
  | succ n ih => exact lookup_evictOldest (ih h)

/-- Making room only ends sessions. -/
theorem lookup_capSessions {tokens : Dict String Session} {token : String} {now : ℤ}
    (h : (capSessionsLocked tokens userID now).lookup token = some sess) :
    tokens.lookup token = some sess := by
  have hlive := lookup_evictOldest_iterate (lookup_evictOldest_iterate h)
  rw [lookup_filter, filter_eq_some_iff] at hlive
  exact hlive.1

variable {S : Setup} {s : Service} {e : Event} {a' : LocalAuthenticator}

theorem lookup_revoked {token : String}
    (h : (a.revokeUserSessionsLocked userID).tokens.lookup token = some sess) :
    a.tokens.lookup token = some sess ∧ sess.userID ≠ userID := by
  change AList.lookup token (a.tokens.filter fun _ sess => sess.userID ≠ userID) = some sess at h
  rw [lookup_filter, filter_eq_some_iff] at h
  exact ⟨h.1, by simpa using h.2⟩

/-- A login has just opened a session: it has verified the hash that its address
signs in with, and the session is one of an account with the address. -/
def Opened (s : Service) (e : Event) (a' : LocalAuthenticator) (token : String) (sess : Session) :
    Prop :=
  ∃ i env l, e = .loginFinish i env ∧ s.logins[i]? = some l ∧ token = env.token ∧
    s.auth.passwordHashForLocked env.begins.2.1 l.email = l.expectedHash ∧
    ∃ user, a'.users.lookup sess.userID = some user ∧ sameEmail user.email l.email = true

/-- **A session was there, or a login has just opened it.** -/
theorem Plan.tokens (hlogins : ∀ l ∈ s.logins, l.expectedHash ≠ "") (h : Plan S s e a')
    (ht : a'.tokens.lookup token = some sess) :
    s.auth.tokens.lookup token = some sess ∨ Opened s e a' token sess := by
  cases h with
  | ends htokens => exact .inl (htokens _ _ ht)
  | update =>
    split at ht
    · exact .inl (lookup_revoked ht).1
    · exact .inl ht
  | remove =>
    have hbefore := (lookup_revoked ht).1
    unfold withoutMember at hbefore
    dsimp only at hbefore
    split at hbefore <;> exact .inl hbefore
  | delete => exact .inl (lookup_revoked ht).1
  | @login _ _ l _ _ _ _ hlogin hhash hknown =>
    obtain ⟨heq, rfl⟩ | ⟨-, ht⟩ := lookup_insert_eq_some.mp ht
    · refine .inr ⟨_, _, l, rfl, hlogin, heq, hhash, ?_⟩
      rcases loginIdentity_cases hknown with ⟨hfind, rfl⟩ | ⟨hfind, rfl, rfl, rfl⟩
      · exact ⟨_, findByEmailLocked_some hfind⟩
      · have hadmin := sameEmail_admin_of_login (hlogins l (mem_of_getElem? hlogin)) hfind hhash
        exact ⟨_, lookup_insert _, sameEmail_comm ▸ hadmin⟩
    · have hbefore := lookup_capSessions ht
      rcases loginIdentity_cases hknown with ⟨-, rfl⟩ | ⟨-, rfl, rfl, rfl⟩
      · exact .inl hbefore
      · exact .inl hbefore
  | password resetTokens henv hhash hu hchanged =>
    subst hchanged
    exact .inl (lookup_revoked ht).1
  | _ => exact .inl ht

end Tokens

/-! ## What is known of the random values -/

/-- A hash that can be in use: none, or one that was drawn and does not wait in an
acceptance. -/
def Service.Public (s : Service) (hash : String) : Prop :=
  hash = "" ∨ hash ∈ s.drawn ∧ ∀ acc ∈ s.acceptances, acc.pw ≠ hash

/-- Addresses are unique, and every random value in use has been drawn; the hashes
of acceptances are not in use before they are stored. -/
structure Service.Tracked (s : Service) : Prop where
  ok : s.Ok
  unique : s.auth.UniqueEmails
  sessions : ∀ token sess, s.auth.tokens.lookup token = some sess →
    token ∈ s.drawn ∧ sess.userID ∈ s.drawn ∧ ∃ mark, s.marks.lookup token = some mark
  hashes : ∀ hash, s.auth.HasHash hash → s.Public hash
  index : ∀ email hash, s.auth.credIndex.lookup email = some hash → s.Public hash
  logins : ∀ l ∈ s.logins, s.Public l.expectedHash ∧ l.lookedUp < s.clock
  pending : ∀ acc ∈ s.acceptances, acc.pw = "" ∨ acc.pw ∈ s.drawn
  distinct : s.acceptances.Pairwise fun x y => x.pw = y.pw → x.pw = ""

/-- What an account adds to the index is stored in its record. -/
theorem indexAccount_hasHash {index : Dict String String} {entry : String × AccountRecord}
    (hentry : a.accounts.lookup entry.1 = some entry.2)
    (hindex : ∀ email hash, index.lookup email = some hash → a.HasHash hash) (email hash : String)
    (h : (a.indexAccount index entry).lookup email = some hash) : a.HasHash hash := by
  unfold indexAccount at h
  split at h
  · split at h
    · obtain ⟨-, rfl⟩ | ⟨-, h⟩ := lookup_insert_eq_some.mp h
      · exact .inr ⟨entry.1, entry.2, hentry, rfl⟩
      · exact hindex email hash h
    · exact hindex email hash h
  · exact hindex email hash h

/-- The index holds hashes that are stored. -/
theorem refreshCredIndex_hasHash {hash : String}
    (h : (a.refreshCredIndexLocked n).credIndex.lookup email = some hash) : a.HasHash hash := by
  have hbase := foldlRecOn
    (motive := fun index : Dict String String => ∀ email hash, index.lookup email = some hash →
      a.HasHash hash)
    (a.accounts.range n) a.indexAccount (b := ∅) nofun
    fun _ hindex _ hentry => indexAccount_hasHash (AList.mem_range.mp hentry) hindex
  unfold refreshCredIndexLocked at h
  dsimp only at h
  split at h
  · obtain ⟨-, rfl⟩ | ⟨-, h⟩ := lookup_insert_eq_some.mp h
    · exact .inl rfl
    · exact hbase _ _ h
  · exact hbase _ _ h

section Tracking

variable {S : Setup} {s s' : Service} {e : Event}

/-- An acceptance has no hash, or the one drawn for it. -/
theorem acceptLookup_pw {token name password : String}
    (h : a.acceptLookup S env token name password = .ok acc) : acc.pw = "" ∨ acc.pw = env.hash := by
  dsimp only [acceptLookup] at h
  simp only [↓then_eq_ok, bind_eq_ok, Prod.exists, Except.ok.injEq] at h
  obtain ⟨htoken, invID, inv, hinv, hown, hname, hpassword, rfl⟩ := h
  dsimp only
  split
  · exact .inl rfl
  · exact .inr rfl

/-- An acceptance under way was under way before, or it has just been looked up. -/
theorem Service.mem_nextAcceptances (h : acc ∈ s.nextAcceptances S e) :
    acc ∈ s.acceptances ∨ e.hashes = false ∧ ∃ env ∈ e.env, acc.pw = "" ∨ acc.pw = env.hash := by
  cases e with
  | acceptLookup env =>
    unfold nextAcceptances at h
    dsimp only at h
    split at h
    · next acc' hlookup =>
      rw [mem_append, mem_singleton] at h
      refine h.imp_right fun h => ⟨rfl, env, rfl, ?_⟩
      subst h
      exact acceptLookup_pw hlookup
    · exact .inl h
  | acceptCommit => exact .inl (mem_of_mem_eraseIdx h)
  | _ => exact .inl h

/-- One of a list of pairwise different things is different from the others. -/
theorem pairwise_eraseIdx {α : Type} {R : α → α → Prop} (hsymm : ∀ x y, R x y → R y x) {l : List α}
    (h : l.Pairwise R) {x y : α} (hx : l[i]? = some x) (hy : y ∈ l.eraseIdx i) : R x y := by
  obtain ⟨hi, rfl⟩ := List.getElem?_eq_some_iff.mp hx
  rw [← take_append_drop i l, drop_eq_getElem_cons hi, pairwise_append, pairwise_cons] at h
  rw [eraseIdx_eq_take_drop_succ, mem_append] at hy
  rcases hy with hy | hy
  · exact hsymm _ _ (h.2.2 y hy _ (.head _))
  · exact h.2.1.1 y hy

/-- `rollbackStateLocked`: the fields that are put back. The snapshot copies the
identities and the records with their memberships, which alone are changed in
place. -/
def LocalAuthenticator.rolledBack (a changed : LocalAuthenticator) : LocalAuthenticator :=
  { changed with
    tokens := a.tokens
    resetTokens := a.resetTokens
    users := a.users
    adminPasswordHash := a.adminPasswordHash
    accounts := a.accounts
    invitations := a.invitations }

/-- The snapshot covers what an event changes. -/
theorem Plan.rolledBack {a' : LocalAuthenticator} (h : Plan S s e a') :
    s.auth.rolledBack a' = s.auth := by
  cases h with
  | update => split <;> rfl
  | remove =>
    unfold withoutMember
    dsimp only
    split <;> rfl
  | login hlogin hhash hknown =>
    rcases loginIdentity_cases hknown with ⟨-, rfl⟩ | ⟨-, rfl, rfl, rfl⟩ <;> rfl
  | password resetTokens henv hhash hu hchanged =>
    subst hchanged
    rfl
  | _ => rfl

theorem Plan.credIndex {a' : LocalAuthenticator} (h : Plan S s e a') :
    a'.credIndex = s.auth.credIndex := by
  have hindex := congrArg LocalAuthenticator.credIndex h.rolledBack
  exact hindex

/-- The mark of a session that a login has just opened. -/
theorem Service.marks_of_login {l : Login} (hs : s.step S (.loginFinish i env) = some s')
    (hlogin : s.logins[i]? = some l) :
    s'.marks.lookup env.token = some ⟨l.expectedHash, l.lookedUp, s.clock⟩ := by
  obtain ⟨-, -, -, -, -, hmarks, -⟩ := step_eq hs
  rw [hmarks]
  simp only [nextMarks, hlogin, lookup_insert]

variable (hs : s.step S e = some s')

include hs

theorem Service.draws_mem (henv : env ∈ e.env)
    (hx : x ∈ env.draws) : x ∈ s'.drawn := by
  obtain ⟨-, -, -, -, -, -, hdrawn⟩ := step_eq hs
  rw [hdrawn, mem_def.mp henv, mem_append]
  exact .inr hx

theorem Service.drawn_mono (hx : x ∈ s.drawn) : x ∈ s'.drawn := by
  obtain ⟨-, -, -, -, -, -, hdrawn⟩ := step_eq hs
  rw [hdrawn]
  exact mem_append_left _ hx

/-- A hash that can be in use still can be. -/
theorem Service.Public.step (h : s.Public hash) : s'.Public hash := by
  obtain ⟨hfresh, -, -, haccs, -⟩ := step_eq hs
  rcases h with h | ⟨hdrawn, hwaits⟩
  · exact .inl h
  by_cases hempty : hash = ""
  · exact .inl hempty
  refine .inr ⟨drawn_mono hs hdrawn, fun acc hacc => ?_⟩
  rw [haccs] at hacc
  rcases mem_nextAcceptances hacc with hold | ⟨-, env, henv, hpw | hpw⟩
  · exact hwaits acc hold
  · rw [hpw]
    exact Ne.symm hempty
  · rw [hpw]
    rintro rfl
    exact (hfresh env henv env.hash (by simp [Env.draws])).2 hdrawn

/-- A new hash can be in use. -/
theorem Service.Tracked.public_of_new (ht : s.Tracked)
    (h : NewHash s e hash) : s'.Public hash := by
  obtain ⟨hfresh, -, -, haccs, -⟩ := step_eq hs
  rcases h with h | ⟨hkind, env, henv, rfl⟩ | ⟨i, env, acc, rfl, hacc, rfl⟩
  · exact .inl h
  · obtain ⟨hne, hnew⟩ := hfresh env henv env.hash (by simp [Env.draws])
    refine .inr ⟨draws_mem hs henv (by simp [Env.draws]), fun acc hacc => ?_⟩
    rw [haccs] at hacc
    rcases mem_nextAcceptances hacc with hold | ⟨hno, -⟩
    · rcases ht.pending acc hold with hpw | hpw
      · rw [hpw]
        exact hne.symm
      · rintro heq
        exact hnew (heq ▸ hpw)
    · rw [hkind] at hno
      cases hno
  · rcases ht.pending acc (mem_of_getElem? hacc) with hpw | hpw
    · exact .inl hpw
    by_cases hempty : acc.pw = ""
    · exact .inl hempty
    refine .inr ⟨drawn_mono hs hpw, fun other hother heq => hempty ?_⟩
    rw [haccs] at hother
    refine pairwise_eraseIdx (fun x y h heq => ?_) ht.distinct hacc hother heq.symm
    rw [heq]
    exact h heq.symm

theorem Service.Tracked.hashes_step (ht : s.Tracked) :
    (∀ hash, s'.auth.HasHash hash → s'.Public hash) ∧
      ∀ email hash, s'.auth.credIndex.lookup email = some hash → s'.Public hash := by
  refine ht.ok.step_of_plan hs (P := fun a => (∀ hash, a.HasHash hash → s'.Public hash) ∧
    ∀ email hash, a.credIndex.lookup email = some hash → s'.Public hash) ?_ ?_
  · intro a n ⟨hhash, _⟩
    exact ⟨hhash, fun email hash h => hhash hash (refreshCredIndex_hasHash h)⟩
  · intro a' h hnew
    constructor
    · rintro hash (rfl | ⟨id, rec', hrec', rfl⟩)
      · rcases h.adminHash with heq | hfresh
        · rw [heq]
          exact (ht.hashes _ (.inl rfl)).step hs
        · exact ht.public_of_new hs hfresh
      · rcases h.rehashed ht.ok.complete hnew hrec' with ⟨rec, hrec, -, heq | hfresh⟩ | ⟨-, hfresh⟩
        · rw [heq]
          exact (ht.hashes _ (.inr ⟨id, rec, hrec, rfl⟩)).step hs
        · exact ht.public_of_new hs hfresh
        · exact ht.public_of_new hs hfresh
    · intro email hash hlook
      rw [h.credIndex] at hlook
      exact (ht.index email hash hlook).step hs

/-- A session was there, or a login has just opened it. -/
theorem Service.Ok.tokens_step (hok : s.Ok) :
    ∀ token sess, s'.auth.tokens.lookup token = some sess →
      s.auth.tokens.lookup token = some sess ∨ Opened s e s'.auth token sess :=
  hok.step_of_plan hs (P := fun a => ∀ token sess, a.tokens.lookup token = some sess →
    s.auth.tokens.lookup token = some sess ∨ Opened s e a token sess)
    (fun _ _ h => h) fun _ h _ _ _ => h.tokens hok.logins

theorem Service.Ok.addressed_step (hok : s.Ok) :
    ∀ id user', s'.auth.users.lookup id = some user' → Addressed s.auth e id user' :=
  hok.step_of_plan hs (P := fun a => ∀ id user', a.users.lookup id = some user' →
    Addressed s.auth e id user')
    (fun _ _ h => h) fun _ h _ _ _ => h.addressed hok.logins

/-- The mark of a session stays. -/
theorem Service.marks_step (htoken : token ∈ s.drawn) :
    s'.marks.lookup token = s.marks.lookup token := by
  obtain ⟨hfresh, -, -, -, -, hmarks, -⟩ := step_eq hs
  rw [hmarks]
  unfold nextMarks
  split
  · next i env =>
    split
    · rfl
    · refine lookup_insert_ne fun heq => ?_
      exact (hfresh env rfl env.token (by simp [Env.draws])).2 (heq ▸ htoken)
  · rfl

variable (ht : s.Tracked)

include ht

theorem Service.Tracked.sessions_step (token : String) (sess : Session)
    (hlook : s'.auth.tokens.lookup token = some sess) :
    token ∈ s'.drawn ∧ sess.userID ∈ s'.drawn ∧ ∃ mark, s'.marks.lookup token = some mark := by
  rcases ht.ok.tokens_step hs token sess hlook with hold | ⟨i, env, l, rfl, hlogin, rfl, -,
    user, hu, -⟩
  · obtain ⟨htoken, huser, mark, hmark⟩ := ht.sessions token sess hold
    exact ⟨drawn_mono hs htoken, drawn_mono hs huser, mark, (marks_step hs htoken).trans hmark⟩
  · exact ⟨draws_mem hs rfl (by simp [Env.draws]), (ht.ok.step hs).drawn _ _ hu, _,
      marks_of_login hs hlogin⟩

theorem Service.Tracked.distinct_step :
    s'.acceptances.Pairwise fun x y => x.pw = y.pw → x.pw = "" := by
  obtain ⟨hfresh, -, -, haccs, -⟩ := step_eq hs
  rw [haccs]
  cases e with
  | acceptLookup env =>
    unfold nextAcceptances
    dsimp only
    split
    · next acc hlookup =>
      rw [pairwise_append]
      refine ⟨ht.distinct, pairwise_singleton _ _, fun x hx y hy heq => ?_⟩
      rw [mem_singleton.mp hy] at heq
      rcases acceptLookup_pw hlookup with hpw | hpw
      · rw [heq, hpw]
      · refine (ht.pending x hx).resolve_right fun hdrawn => ?_
        rw [heq, hpw] at hdrawn
        exact (hfresh env rfl env.hash (by simp [Env.draws])).2 hdrawn
    · exact ht.distinct
  | acceptCommit => exact ht.distinct.sublist (eraseIdx_sublist _ _)
  | _ => exact ht.distinct

theorem Service.Tracked.step : s'.Tracked := by
  obtain ⟨-, -, hlogins, haccs, hclock, -, -⟩ := step_eq hs
  refine ⟨ht.ok.step hs, ?_, ht.sessions_step hs, (ht.hashes_step hs).1, (ht.hashes_step hs).2,
    fun l hl => ?_,
    fun acc hacc => ?_, ht.distinct_step hs⟩
  · exact ht.ok.step_of_plan hs (fun _ _ h => h) fun a' h _ => h.uniqueEmails ht.ok.logins ht.unique
  · rw [hlogins] at hl
    rw [hclock]
    rcases mem_nextLogins hl with hold | ⟨_, _, -, -, hindex, -, hnow⟩
    · exact ⟨(ht.logins l hold).1.step hs, Nat.lt_succ_of_lt (ht.logins l hold).2⟩
    · exact ⟨(ht.index _ _ hindex).step hs, by omega⟩
  · rw [haccs] at hacc
    rcases mem_nextAcceptances hacc with hold | ⟨-, env, henv, hpw | hpw⟩
    · exact (ht.pending acc hold).imp_right (drawn_mono hs)
    · exact .inl hpw
    · rw [hpw]
      exact .inr (draws_mem hs henv (by simp [Env.draws]))

omit hs ht

theorem Service.Tracked.later (ht : s.Tracked) (h : s.Later S s') : s'.Tracked :=
  Runs.Reachable.invariant ht (fun _ _ _ _ ht _ hs => ht.step hs) h

/-- What is stored when the server starts counts as drawn. -/
theorem drawn_of_hasHash (h : a.HasHash hash) : hash ∈ a.drawn := by
  unfold LocalAuthenticator.drawn
  rw [mem_append, mem_cons, List.mem_map]
  rcases h with h | ⟨id, rec, hrec, rfl⟩
  · exact .inr (.inl h)
  · exact .inr (.inr ⟨(id, rec), AList.mem_range.mpr hrec, rfl⟩)

theorem drawn_of_session
    (h : a.tokens.lookup token = some sess) : token ∈ a.drawn ∧ sess.userID ∈ a.drawn := by
  have htoken : token ∈ a.tokens.keys := AList.mem_keys.mp (lookup_isSome.mp (isSome_of_mem h))
  have huser : sess.userID ∈ (a.tokens.range 0).map fun e => e.2.userID :=
    List.mem_map.mpr ⟨(token, sess), AList.mem_range.mpr h, rfl⟩
  unfold LocalAuthenticator.drawn
  exact ⟨mem_append_left _ (mem_append_left _ (mem_append_right _ htoken)),
    mem_append_left _ (mem_append_right _ huser)⟩

/-- The constructor refreshes the index. -/
theorem newLocalAuthenticator_index
    (h : newLocalAuthenticator S env file adminEmail adminPassword = .ok a)
    {hash : String} (hlook : a.credIndex.lookup email = some hash) : a.HasHash hash := by
  unfold newLocalAuthenticator at h
  dsimp only at h
  split at h
  · cases h
  · simp only [bind_eq_ok, Except.ok.injEq] at h
    obtain ⟨-, -, rfl⟩ := h
    exact refreshCredIndex_hasHash hlook

theorem Service.Tracked.start
    (h : newLocalAuthenticator S env file adminEmail adminPassword = .ok a)
    (hunique : a.UniqueEmails) : (start a).Tracked where
  ok := .start (newLocalAuthenticator_complete h)
  unique := hunique
  sessions token sess hlook := by
    refine ⟨(drawn_of_session hlook).1, (drawn_of_session hlook).2, ⟨"", 0, 0⟩, ?_⟩
    change a.tokens.lookup token = some sess at hlook
    change (a.tokens.mapValues _).lookup token = _
    rw [lookup_mapValues, hlook]
    rfl
  hashes hash hhash := .inr ⟨drawn_of_hasHash hhash, fun _ hacc => by cases hacc⟩
  index email hash hlook :=
    .inr ⟨drawn_of_hasHash (newLocalAuthenticator_index h hlook), fun _ hacc => by cases hacc⟩
  logins l hl := by cases hl
  pending acc hacc := by cases hacc
  distinct := .nil

end Tracking

end Anubis.Auth
