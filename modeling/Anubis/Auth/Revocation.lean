import Anubis.Auth.Helpers.Credentials

/-!
# Revocation is final

A password change, a password reset, a lowered role, a disabled account, a
removal and a deletion take something from an account. Where no two accounts
share an address, none of it is left to a session from before: the sessions of
the account end, a session opened afterwards has the role the account has at
the time, and where the password or the account is gone it comes from a login
that read the credential index afterwards.

The constructor keeps apart what every later comparison takes for one address,
so a session file can bring two accounts that share one. The password change of
one of them leaves the sessions of the other.
-/

namespace Anubis.Auth

open Checked LocalAuthenticator Service Option AList Runs

variable {a : LocalAuthenticator} {id : String} {user : User} {hash : String}
    {right : Right} {env : Env}
  {token newPassword x : String} {sess : Session}

/-- What a revocation takes. -/
inductive Right
  | password
  | role (ws : String) (old : MemberRole)
  | active
  | member (ws : String)
  | account

/-- **A revoking call has returned nil**: whom it is about, the address and what it
takes. A reset of the configured administrator's password before the first login
is about no account. -/
inductive Revokes (S : Setup) (s : Service) : Event → Option String → String → Right → Prop
  | changePassword {env : Env} {token currentPassword newPassword : String} {sess : Session}
      {user : User} (hsess : s.auth.tokens.lookup token = some sess)
      (hu : s.auth.users.lookup sess.userID = some user)
      (hnil : (s.auth.changePassword S env token currentPassword newPassword).1 = .ok ()) :
      Revokes S s (.changePassword env token currentPassword newPassword)
      (some sess.userID) user.email .password
  | reset {env : Env} {token newPassword id : String} {rt : ResetToken} {user : User}
      (hrt : s.auth.resetTokens.lookup token = some rt)
      (hfind : s.auth.findByEmailLocked env.begins.1 rt.email = some (id, user))
      (hnil : (s.auth.confirmPasswordReset env token newPassword).1 = .ok ()) :
      Revokes S s (.confirmPasswordReset env token newPassword) (some id) user.email .password
  | resetAdmin {env : Env} {token newPassword : String} {rt : ResetToken}
      (hrt : s.auth.resetTokens.lookup token = some rt)
      (hfind : s.auth.findByEmailLocked env.begins.1 rt.email = none)
      (hnil : (s.auth.confirmPasswordReset env token newPassword).1 = .ok ()) :
      Revokes S s (.confirmPasswordReset env token newPassword) none rt.email .password
  | demote {env : Env} {actor : Actor} {userID ws : String} {upd : MemberUpdate}
      {actorRole old new : MemberRole} {user : User} {change : MemberChange}
      (hactor : s.auth.actorLocked actor = .ok (ws, actorRole))
      (hu : s.auth.users.lookup userID = some user)
      (hold : s.auth.membership userID ws = some old) (hnew : upd.role = some new) (hne : new ≠ old)
      (hlower : strictUpgrade old new = false)
      (hnil : (s.auth.persistOrRollbackLocked env (s.auth.updateMember env actor userID upd)).1 =
        .ok change) :
      Revokes S s (.updateMember env actor userID upd) (some userID) user.email (.role ws old)
  | disable {env : Env} {actor : Actor} {userID : String} {upd : MemberUpdate} {user : User}
      {rec : AccountRecord} {change : MemberChange}
      (hu : s.auth.users.lookup userID = some user)
      (hrec : s.auth.accounts.lookup userID = some rec)
      (hactive : rec.disabled = false) (hdisable : upd.disabled = some true)
      (hnil : (s.auth.persistOrRollbackLocked env (s.auth.updateMember env actor userID upd)).1 =
        .ok change) :
      Revokes S s (.updateMember env actor userID upd) (some userID) user.email .active
  | remove {env : Env} {actor : Actor} {userID ws : String} {actorRole : MemberRole} {user : User}
      {change : MemberChange}
      (hactor : s.auth.actorLocked actor = .ok (ws, actorRole))
      (hu : s.auth.users.lookup userID = some user)
      (hnil : (s.auth.persistOrRollbackLocked env (s.auth.removeMember env actor userID)).1 =
        .ok change) :
      Revokes S s (.removeMember env actor userID) (some userID) user.email (.member ws)
  | delete {env : Env} {actor : Actor} {userID : String} {user : User} {change : MemberChange}
      (hu : s.auth.users.lookup userID = some user)
      (hnil : (s.auth.persistOrRollbackLocked env (s.auth.deleteUser actor userID)).1 =
        .ok change) :
      Revokes S s (.deleteUser env actor userID) (some userID) user.email .account

/-- What is taken is gone. -/
def Right.Gone (right : Right) (a : LocalAuthenticator) (id : String) : Prop :=
  match right with
  | .password => True
  | .role ws old => ¬ a.Holds id ws old
  | .active => ∀ ws role, ¬ a.Holds id ws role
  | .member ws => a.membership id ws = none
  | .account => a.users.lookup id = none

/-- The password does not count any more: there is a new one, or the account is
gone. -/
def Right.Severs (right : Right) (a : LocalAuthenticator) (target : Option String) : Prop :=
  right = .password ∨ ∀ id ∈ target, a.users.lookup id = none

/-- The account is the one a revocation is about, or it has the address. -/
def LocalAuthenticator.Concerns (a : LocalAuthenticator) (target : Option String)
    (email id : String) : Prop :=
  target = some id ∨ ∃ user, a.users.lookup id = some user ∧ sameEmail user.email email = true

/-! ## What a revoking call leaves -/

/-- What every revocation has in common, of the states around it. -/
structure Revoked (s : Service) (e : Event) (s' : Service) (target : Option String) (email : String)
    (right : Right) : Prop where
  /-- It is about an account with the address, or nobody has the address. -/
  about : ∀ id ∈ target, ∃ user, s.auth.users.lookup id = some user ∧ user.email = email
  nobody : target = none → ∀ id user, s.auth.users.lookup id = some user →
    sameEmail user.email email = false
  sessions : ∀ id ∈ target, ∀ token sess, s'.auth.tokens.lookup token = some sess → sess.userID ≠ id
  others : ∀ token sess, s'.auth.tokens.lookup token = some sess →
    s.auth.tokens.lookup token = some sess
  logins : s'.logins = s.logins
  hash : right.Severs s'.auth target → ∀ begin x, sameEmail x email = true →
    NewHash s e (s'.auth.passwordHashForLocked begin x)
  gone : ∀ id ∈ target, right.Gone s'.auth id

section Calls

variable {S : Setup} {s s' : Service} {e : Event}

/-- A call that returns nil has been saved. -/
theorem persistOrRollback_ok {α : Type}
    {change : Except AuthError (α × LocalAuthenticator)} {r : α}
    (h : (a.persistOrRollbackLocked env change).1 = .ok r) :
    ∃ changed, change = .ok (r, changed) ∧
      (a.persistOrRollbackLocked env change).2 = changed.refreshCredIndexLocked env.begins.2.2 := by
  unfold persistOrRollbackLocked at h ⊢
  split at h
  · cases h
  · split at h
    · exact ⟨_, by rw [Except.ok.inj h], rfl⟩
    · cases h
    · cases h

theorem changePassword_nil {currentPassword : String} (hsess : a.tokens.lookup token = some sess)
    (hu : a.users.lookup sess.userID = some user)
    (hnil : (a.changePassword S env token currentPassword newPassword).1 = .ok ()) :
    (a.changePassword S env token currentPassword newPassword).2 =
      (a.replacePassword env sess.userID user).refreshCredIndexLocked env.begins.2.2 := by
  unfold changePassword at hnil ⊢
  simp only [hsess] at hnil ⊢
  split at hnil
  · cases hnil
  next hlive =>
  rw [if_neg hlive]
  obtain ⟨changed, hchanged, hafter⟩ := persistOrRollback_ok hnil
  simp only [changePasswordFor, hu] at hchanged
  simp only [↓then_eq_ok, Except.ok.injEq, Prod.mk.injEq] at hchanged
  obtain ⟨hlocal, hcurrent, hnew, -, rfl⟩ := hchanged
  exact hafter

theorem confirmPasswordReset_nil {rt : ResetToken}
    (hrt : a.resetTokens.lookup token = some rt)
    (hnil : (a.confirmPasswordReset env token newPassword).1 = .ok ()) :
    ∃ changed : LocalAuthenticator, (a.confirmPasswordReset env token newPassword).2 =
        { changed with resetTokens := changed.resetTokens.erase token }.refreshCredIndexLocked
        env.begins.2.2 ∧
      ((∃ id user, a.findByEmailLocked env.begins.1 rt.email = some (id, user) ∧
          changed = a.replacePassword env id user) ∨
        a.findByEmailLocked env.begins.1 rt.email = none ∧ sameEmail rt.email a.adminEmail = true ∧
          changed = { a with adminPasswordHash := env.hash }) := by
  unfold confirmPasswordReset at hnil ⊢
  simp only [hrt] at hnil ⊢
  split at hnil
  · cases hnil
  next hlive =>
  rw [if_neg hlive]
  split at hnil
  · cases hnil
  split at hnil
  · next id user hfind =>
    obtain ⟨changed, hchanged, hafter⟩ := persistOrRollback_ok hnil
    simp only [Except.ok.injEq, Prod.mk.injEq, true_and] at hchanged
    subst hchanged
    exact ⟨_, hafter, .inl ⟨id, user, hfind, rfl⟩⟩
  · next hfind =>
    split at hnil
    · next hadmin =>
      obtain ⟨changed, hchanged, hafter⟩ := persistOrRollback_ok hnil
      simp only [Except.ok.injEq, Prod.mk.injEq, true_and] at hchanged
      subst hchanged
      rw [if_pos hadmin]
      exact ⟨{ a with adminPasswordHash := env.hash }, hafter, .inr ⟨hfind, hadmin, rfl⟩⟩
    · cases hnil

/-- The hash of an address after the password of its account has been set. -/
theorem passwordHash_set (hunique : a.UniqueEmails)
    (hu : a.users.lookup id = some user) {now : ℤ} (begin : ℕ)
    (hx : sameEmail x user.email = true) :
    (a.setPasswordHashLocked now id user hash).passwordHashForLocked begin x = hash ∨
      (a.setPasswordHashLocked now id user hash).passwordHashForLocked begin x = "" := by
  by_cases hadmin : sameEmail x a.adminEmail = true
  · have hconf : a.isConfiguredAdminLocked (some user) = true :=
      sameEmail_trans (sameEmail_comm ▸ hx) hadmin
    refine .inl ?_
    unfold passwordHashForLocked setPasswordHashLocked
    rw [if_pos hadmin]
    exact if_pos hconf
  · have hconf : ¬ a.isConfiguredAdminLocked (some user) = true := fun h =>
      hadmin (sameEmail_trans hx h)
    unfold passwordHashForLocked
    rw [if_neg (show ¬ sameEmail x (a.setPasswordHashLocked now id user hash).adminEmail = true from
      hadmin)]
    split
    · exact .inr rfl
    next id' user' hfind =>
    obtain ⟨hu', hsame⟩ := findByEmailLocked_some hfind
    obtain rfl := hunique _ _ _ _ hu' hu (sameEmail_trans hsame hx)
    split
    · exact .inr rfl
    next rec hrec =>
    split
    · change (a.accounts.modify id' _).lookup id' = some rec at hrec
      rw [lookup_modify, if_pos rfl] at hrec
      obtain ⟨old, -, rfl⟩ := map_eq_some_iff.mp hrec
      exact .inl (if_neg hconf)
    · exact .inr rfl

/-- The address of a deleted account has no hash. -/
theorem passwordHash_deleted (hunique : a.UniqueEmails)
    (hu : a.users.lookup id = some user) (hconf : a.isConfiguredAdminLocked (some user) = false)
    (begin : ℕ) (hx : sameEmail x user.email = true) :
    (a.deleteAccountLocked id user).passwordHashForLocked begin x = "" := by
  have hadmin : ¬ sameEmail x a.adminEmail = true := by
    intro h
    rw [show a.isConfiguredAdminLocked (some user) = true from
      sameEmail_trans (sameEmail_comm ▸ hx) h] at hconf
    cases hconf
  unfold passwordHashForLocked
  rw [if_neg (show ¬ sameEmail x (a.deleteAccountLocked id user).adminEmail = true from hadmin)]
  split
  · rfl
  next id' user' hfind =>
  obtain ⟨hu', hsame⟩ := findByEmailLocked_some hfind
  change (a.users.erase id).lookup id' = some user' at hu'
  obtain ⟨hne, hu'⟩ := lookup_erase_eq_some.mp hu'
  exact absurd (hunique _ _ _ _ hu' hu (sameEmail_trans hsame hx)) hne

/-- Only the end of a login opens a session. -/
theorem Service.Ok.tokens_of_other (hok : s.Ok) (hs : s.step S e = some s')
    (hno : ∀ i env, e ≠ .loginFinish i env)
    (token : String) (sess : Session) (h : s'.auth.tokens.lookup token = some sess) :
    s.auth.tokens.lookup token = some sess := by
  rcases hok.tokens_step hs token sess h with h | ⟨i, env, _, heq, -⟩
  · exact h
  · exact absurd heq (hno i env)

section

variable (hu : s.auth.users.lookup id = some user) (hlogins : s'.logins = s.logins)
  (hothers : ∀ token sess, s'.auth.tokens.lookup token = some sess →
    s.auth.tokens.lookup token = some sess)

include hu hlogins hothers

/-- Ending the sessions of an account revokes, with what else the call does to it. -/
theorem Revoked.of_ended (changed : LocalAuthenticator)
    (htokens : s'.auth.tokens = (changed.revokeUserSessionsLocked id).tokens)
    (hhash : right.Severs s'.auth (some id) → ∀ begin x, sameEmail x user.email = true →
      NewHash s e (s'.auth.passwordHashForLocked begin x))
    (hgone : right.Gone s'.auth id) : Revoked s e s' (some id) user.email right where
  about := by
    rintro _ ⟨⟩
    exact ⟨user, hu, rfl⟩
  nobody h := by cases h
  sessions := by
    rintro _ ⟨⟩ token sess hsess
    rw [htokens] at hsess
    exact (lookup_revoked hsess).2
  others := hothers
  logins := hlogins
  hash := hhash
  gone := by
    rintro _ ⟨⟩
    exact hgone

/-- A new password revokes. -/
theorem Revoked.of_password (ht : s.Tracked) (henv : env ∈ e.env) (hkind : e.hashes = true)
    (htokens : s'.auth.tokens = (s.auth.replacePassword env id user).tokens)
    (hhash : ∀ begin x, s'.auth.passwordHashForLocked begin x =
      (s.auth.setPasswordHashLocked env.now id user env.hash).passwordHashForLocked begin x) :
    Revoked s e s' (some id) user.email .password := by
  refine .of_ended hu hlogins hothers _ htokens (fun _ begin x hx => ?_) trivial
  rcases passwordHash_set ht.unique hu begin hx with heq | heq
  · exact .inr (.inl ⟨hkind, env, henv, (hhash begin x).trans heq⟩)
  · exact .inl ((hhash begin x).trans heq)

/-- Another change revokes, and takes the hash only with the account. -/
theorem Revoked.of_member (ht : s.Tracked) {changed : LocalAuthenticator} {n : ℕ}
    (hauth : s'.auth = (changed.revokeUserSessionsLocked id).refreshCredIndexLocked n)
    (hright : right ≠ .password) (hdeleted : changed.users.lookup id = none →
      changed = s.auth.deleteAccountLocked id user ∧
      s.auth.isConfiguredAdminLocked (some user) = false)
    (hgone : right.Gone ((changed.revokeUserSessionsLocked id).refreshCredIndexLocked n) id) :
    Revoked s e s' (some id) user.email right := by
  refine .of_ended hu hlogins hothers changed (by rw [hauth]; rfl) (fun hsevers begin x hx => ?_)
    (hauth ▸ hgone)
  rw [hauth] at hsevers ⊢
  obtain ⟨rfl, hconf⟩ := hdeleted ((hsevers.resolve_left hright) id rfl)
  exact .inl (passwordHash_deleted ht.unique hu hconf begin hx)

end

theorem lookup_addAccount_ne_none (id : String) (user : User) (rec : AccountRecord) :
    (a.addAccount id user rec).users.lookup id ≠ none := by
  change (a.users.insert id user).lookup id ≠ none
  rw [lookup_insert]
  simp

/-- **Every revoking call revokes.** -/
theorem Revokes.revoked (ht : s.Tracked) (hs : s.step S e = some s') {target : Option String}
    {email : String}
    (h : Revokes S s e target email right) : Revoked s e s' target email right := by
  have hothers := ht.ok.tokens_of_other hs (by rintro _ _ rfl; cases h)
  obtain ⟨-, hauth, hlogins, -⟩ := step_eq hs
  cases h with
  | @changePassword env _ _ _ sess user hsess hu hnil =>
    have hafter : s'.auth = (s.auth.replacePassword env sess.userID user).refreshCredIndexLocked
      env.begins.2.2 :=
      hauth.trans (changePassword_nil hsess hu hnil)
    exact .of_password hu hlogins hothers ht rfl rfl (by rw [hafter]; rfl) fun begin x => by
      rw [hafter]; rfl
  | reset hrt hfind hnil =>
    obtain ⟨changed, hafter, ⟨id', user', hfind', rfl⟩ | ⟨hnone, -⟩⟩ :=
      confirmPasswordReset_nil hrt hnil
    · obtain ⟨rfl, rfl⟩ := Prod.mk.inj (some.inj (hfind.symm.trans hfind'))
      have hafter := hauth.trans hafter
      exact .of_password (findByEmailLocked_some hfind).1 hlogins hothers ht rfl rfl
        (by rw [hafter]; rfl)
        fun begin x => by rw [hafter]; rfl
    · rw [hfind] at hnone
      cases hnone
  | resetAdmin hrt hfind hnil =>
    obtain ⟨changed, hafter, ⟨id', user', hfind', -⟩ | ⟨-, hadmin, rfl⟩⟩ :=
      confirmPasswordReset_nil hrt hnil
    · rw [hfind] at hfind'
      cases hfind'
    · have hafter := hauth.trans hafter
      exact
        { about := by rintro _ ⟨⟩
          nobody := fun _ _ _ hu => findByEmailLocked_none hfind hu
          sessions := by rintro _ ⟨⟩
          others := hothers
          logins := hlogins
          hash := fun _ begin x hx => by
            rw [hafter]
            exact .inr (.inl ⟨rfl, _, rfl, if_pos (sameEmail_trans hx hadmin)⟩)
          gone := by rintro _ ⟨⟩ }
  | @demote env _ userID ws upd _ old new _ _ hactor hu hold hnew hne hlower hnil =>
    obtain ⟨changed, hchanged, hafter⟩ := persistOrRollback_ok hnil
    simp only [updateMember, hactor, bind_eq_ok, Prod.exists, Except.ok.injEq,
      Prod.mk.injEq] at hchanged
    obtain ⟨_, _, ⟨rfl, rfl⟩, user', rec, current, htarget, ⟨⟩, hcheck, -, rfl⟩ := hchanged
    obtain ⟨hu', hrec, hcurrent, -⟩ := targetLocked_ok htarget
    rw [membership_of_lookup hrec] at hold
    obtain rfl : current = old := some.inj (hcurrent.symm.trans hold)
    have hrole : upd.newRole current = new := by simp [MemberUpdate.newRole, hnew]
    have hrevokes : upd.revokes rec current = true := by
      simp [MemberUpdate.revokes, hrole, hne, hlower]
    rw [if_pos hrevokes] at hafter
    refine .of_member hu hlogins hothers ht (hauth.trans hafter) (by simp) ?_ ?_
    · exact fun hnone => absurd hnone (lookup_addAccount_ne_none _ _ _)
    · rintro ⟨user'', rec'', hu'', hrec'', -, hlisted⟩
      cases (lookup_insert _).symm.trans hrec''
      have hnow : (updatedRecord env rec ws current upd).memberships.lookup ws = some new := by
        simp [updatedRecord, hrole, hne]
      rw [hnow] at hlisted
      rcases hlisted with h | ⟨h, -⟩
      · exact hne (some.inj h)
      · cases h
  | @disable _ _ _ upd _ rec _ hu hrec hactive hdisable hnil =>
    obtain ⟨changed, hchanged, hafter⟩ := persistOrRollback_ok hnil
    simp only [updateMember, bind_eq_ok, Prod.exists, Except.ok.injEq,
      Prod.mk.injEq] at hchanged
    obtain ⟨ws, actorRole, hactor, user', rec', current, htarget, ⟨⟩, hcheck, -, rfl⟩ := hchanged
    obtain ⟨-, hrec', -⟩ := targetLocked_ok htarget
    cases hrec.symm.trans hrec'
    have hnew : upd.newDisabled rec = true := by simp [MemberUpdate.newDisabled, hdisable]
    have hrevokes : upd.revokes rec current = true := by simp [MemberUpdate.revokes, hnew, hactive]
    rw [if_pos hrevokes] at hafter
    refine .of_member hu hlogins hothers ht (hauth.trans hafter) (by simp) ?_ ?_
    · exact fun hnone => absurd hnone (lookup_addAccount_ne_none _ _ _)
    · rintro ws' role ⟨user'', rec'', hu'', hrec'', hdisabled, -⟩
      cases (lookup_insert _).symm.trans hrec''
      change upd.newDisabled rec = false at hdisabled
      rw [hnew] at hdisabled
      cases hdisabled
  | @remove env _ userID ws _ user _ hactor hu hnil =>
    obtain ⟨changed, hchanged, hafter⟩ := persistOrRollback_ok hnil
    simp only [removeMember, hactor, bind_eq_ok, refuseIf_eq_ok, Prod.exists, Except.ok.injEq,
      Prod.mk.injEq, not_and] at hchanged
    obtain ⟨_, _, ⟨rfl, rfl⟩, user', rec, role, htarget, -, -, -, hadmin, -, rfl⟩ := hchanged
    obtain ⟨hu', hrec, hrole, -⟩ := targetLocked_ok htarget
    cases hu.symm.trans hu'
    refine .of_member hu hlogins hothers ht (hauth.trans hafter) (by simp) ?_ ?_
    · intro hnone
      rcases @withoutMember_cases s.auth env userID ws user rec with ⟨honly, heq⟩ | ⟨_, heq, -⟩
      · refine ⟨heq, Bool.eq_false_iff.mpr fun hconf => ?_⟩
        exact hadmin hconf (length_keys_of_only hrole honly)
      · rw [heq] at hnone
        exact absurd hnone (lookup_addAccount_ne_none _ _ _)
    · rcases @withoutMember_cases s.auth env userID ws user rec with ⟨-, heq⟩ | ⟨_, heq, -⟩
      · rw [heq]
        exact congrArg (Option.bind · _) (lookup_erase _ _)
      · rw [heq]
        exact (membership_of_lookup (lookup_insert _)).trans (lookup_erase _ _)
  | delete hu hnil =>
    obtain ⟨changed, hchanged, hafter⟩ := persistOrRollback_ok hnil
    simp only [deleteUser, bind_eq_ok, Prod.exists, Except.ok.injEq, Prod.mk.injEq] at hchanged
    obtain ⟨ws, actorRole, hactor, user', rec, role, htarget, ⟨⟩, hwide, -, rfl⟩ := hchanged
    cases hu.symm.trans (targetLocked_ok htarget).1
    refine .of_member hu hlogins hothers ht (hauth.trans hafter) (by simp) ?_ ?_
    · exact fun _ => ⟨rfl, (accountWideLocked_ok hwide).2.1⟩
    · exact lookup_erase _ _

end Calls

/-! ## Hashes that do not come back -/

/-- The address does not sign in with the hash, and never will. -/
def Service.Spent (s : Service) (email hash : String) : Prop :=
  s.Public hash ∧ ∀ begin x, sameEmail x email = true →
    s.auth.passwordHashForLocked begin x = hash → hash = ""

section Runs

variable {S : Setup} {s s' : Service} {e : Event} {email : String}

/-- A new hash has not been in use. -/
theorem NewHash.eq_empty (hfresh : e.Fresh s.drawn) (h : NewHash s e hash)
    (hpublic : s.Public hash) : hash = "" := by
  rcases hpublic with hempty | ⟨hdrawn, hwaits⟩
  · exact hempty
  rcases h with hempty | ⟨-, env, henv, rfl⟩ | ⟨i, env, acc, -, hacc, rfl⟩
  · exact hempty
  · exact absurd hdrawn (hfresh env henv env.hash (by simp [Env.draws])).2
  · exact absurd rfl (hwaits acc (List.mem_of_getElem? hacc))

/-- A hash that an address signs in with is stored. -/
theorem Service.Tracked.public_of_password (ht : s.Tracked) (begin : ℕ) (x : String) :
    s.Public (s.auth.passwordHashForLocked begin x) := by
  unfold passwordHashForLocked
  split
  · exact ht.hashes _ (.inl rfl)
  split
  · exact .inl rfl
  next id user hfind =>
  split
  · exact .inl rfl
  next rec hrec =>
  split
  · exact ht.hashes _ (.inr ⟨id, rec, hrec, rfl⟩)
  · exact .inl rfl

variable (hs : s.step S e = some s')

include hs

theorem Service.Tracked.password_step (ht : s.Tracked) :
    ∀ begin x, (∃ begin', s.auth.passwordHashForLocked begin' x =
      s'.auth.passwordHashForLocked begin x) ∨
      NewHash s e (s'.auth.passwordHashForLocked begin x) :=
  ht.ok.step_of_plan hs (P := fun a => ∀ begin x,
    (∃ begin', s.auth.passwordHashForLocked begin' x = a.passwordHashForLocked begin x) ∨
      NewHash s e (a.passwordHashForLocked begin x))
    (fun _ _ h => h) fun _ h hnew => h.passwordHash ht.ok hnew ht.unique

/-- Where an address has got a new hash, every earlier hash is spent. -/
theorem Service.Public.spent (h : s.Public hash)
    (hnew : ∀ begin x, sameEmail x email = true →
      NewHash s e (s'.auth.passwordHashForLocked begin x)) :
    s'.Spent email hash := by
  refine ⟨h.step hs, fun begin x hx heq => ?_⟩
  have := hnew begin x hx
  rw [heq] at this
  exact this.eq_empty (step_eq hs).1 h

theorem Service.Spent.step (ht : s.Tracked) (h : s.Spent email hash) :
    s'.Spent email hash := by
  refine ⟨h.1.step hs, fun begin x hx heq => ?_⟩
  rcases ht.password_step hs begin x with ⟨begin', hold⟩ | hnew
  · exact h.2 begin' x hx (hold.trans heq)
  · rw [heq] at hnew
    exact hnew.eq_empty (step_eq hs).1 h.1

/-! ## Every later state -/

/-- A session is younger than a revocation; if the password does not count any
more, its login has read the index afterwards and has not verified a former
hash. -/
def Mark.Since (mark : Mark) (time : ℕ) (severed : Prop) (former : String → Prop) : Prop :=
  time ≤ mark.installed ∧ (severed → time ≤ mark.lookedUp ∧ ¬ former mark.verified)

/-- **What holds of a revocation from then on.** -/
structure Service.Final (target : Option String) (email : String) (time : ℕ) (severed : Prop)
    (former : String → Prop) (s : Service) : Prop where
  tracked : s.Tracked
  clock : time ≤ s.clock
  identity : ∀ id ∈ target, id ∈ s.drawn ∧ ∀ user, s.auth.users.lookup id = some user →
    user.email = email
  sessions : ∀ token sess, s.auth.tokens.lookup token = some sess →
    s.auth.Concerns target email sess.userID →
    ∃ mark, s.marks.lookup token = some mark ∧ mark.Since time severed former
  logins : severed → ∀ l ∈ s.logins, l.lookedUp < time → sameEmail l.email email = true →
    s.Spent email l.expectedHash
  former : severed → ∀ hash, former hash → s.Spent email hash

variable {target : Option String}

/-- An account that a revocation concerns has been there, if its ID is known. -/
theorem concerns_before (hok : s.Ok) (hid : id ∈ s.drawn)
    (h : s'.auth.Concerns target email id) : s.auth.Concerns target email id := by
  rcases h with h | ⟨user', hu', hsame⟩
  · exact .inl h
  rcases hok.addressed_step hs id user' hu' with ⟨user, hu, heq⟩ | ⟨⟨env, henv, rfl⟩, -⟩
  · exact .inr ⟨user, hu, heq ▸ hsame⟩
  · exact absurd hid ((step_eq hs).1 env henv env.id (by simp [Env.draws])).2

theorem email_step (hok : s.Ok) (hid : id ∈ s.drawn)
    (h : ∀ user, s.auth.users.lookup id = some user → user.email = email) {user' : User}
    (hu' : s'.auth.users.lookup id = some user') : user'.email = email := by
  rcases hok.addressed_step hs id user' hu' with ⟨user, hu, heq⟩ | ⟨⟨env, henv, rfl⟩, -⟩
  · exact heq.trans (h user hu)
  · exact absurd hid ((step_eq hs).1 env henv env.id (by simp [Env.draws])).2

section Final

variable {time : ℕ} {severed : Prop} {former : String → Prop}

/-- A session that has just been opened is younger. -/
theorem Service.Final.since_of_opened (hf : s.Final target email time severed former)
    (h : Opened s e s'.auth token sess)
    (hconcerns : s'.auth.Concerns target email sess.userID) :
    ∃ mark, s'.marks.lookup token = some mark ∧ mark.Since time severed former := by
  obtain ⟨i, env, l, rfl, hlogin, rfl, hhash, user', hu', hsame⟩ := h
  have hmem := List.mem_of_getElem? hlogin
  have hne := hf.tracked.ok.logins l hmem
  refine ⟨_, marks_of_login hs hlogin, hf.clock, fun hsevered => ?_⟩
  have hmail : sameEmail l.email email = true := by
    rcases hconcerns with htarget | ⟨user, hu, hmail⟩
    · obtain ⟨hdrawn, hemail⟩ := hf.identity _ htarget
      rw [email_step hs hf.tracked.ok hdrawn hemail hu'] at hsame
      exact sameEmail_comm ▸ hsame
    · cases hu.symm.trans hu'
      exact sameEmail_trans (sameEmail_comm ▸ hsame) hmail
  constructor
  · by_contra hearly
    exact hne ((hf.logins hsevered l hmem (by simpa using hearly) hmail).2 _ _ hmail hhash)
  · exact fun hformer => hne ((hf.former hsevered _ hformer).2 _ _ hmail hhash)

/-- **A step keeps it.** -/
theorem Service.Final.step (hf : s.Final target email time severed former) :
    s'.Final target email time severed former := by
  have ht := hf.tracked
  obtain ⟨-, -, hlogins, -, hclock, -, -⟩ := step_eq hs
  refine ⟨ht.step hs, hclock ▸ Nat.le_succ_of_le hf.clock, fun id hid => ?_,
    fun token sess hlook hconcerns => ?_,
    fun hsevered l hl hearly hmail => ?_, fun hsevered hash hformer =>
      (hf.former hsevered hash hformer).step hs ht⟩
  · obtain ⟨hdrawn, hemail⟩ := hf.identity id hid
    exact ⟨drawn_mono hs hdrawn, fun user hu => email_step hs ht.ok hdrawn hemail hu⟩
  · rcases ht.ok.tokens_step hs token sess hlook with hold | hopened
    · obtain ⟨htoken, huser, -⟩ := ht.sessions token sess hold
      obtain ⟨mark, hmark, hsince⟩ :=
        hf.sessions token sess hold (concerns_before hs ht.ok huser hconcerns)
      exact ⟨mark, (marks_step hs htoken).trans hmark, hsince⟩
    · exact hf.since_of_opened hs hopened hconcerns
  · rw [hlogins] at hl
    rcases mem_nextLogins hl with hold | ⟨_, _, -, -, -, -, hnow⟩
    · exact (hf.logins hsevered l hold hearly hmail).step hs ht
    · have := hf.clock
      omega

end Final

/-- **It holds when the call returns.** -/
theorem Revoked.final (ht : s.Tracked)
    (h : Revoked s e s' target email right) :
    s'.Final target email s'.clock (right.Severs s'.auth target)
      fun hash => ∃ begin x, sameEmail x email = true ∧
        s.auth.passwordHashForLocked begin x = hash where
  tracked := ht.step hs
  clock := le_rfl
  identity id hid := by
    obtain ⟨user, hu, hemail⟩ := h.about id hid
    have hdrawn := ht.ok.drawn id user hu
    refine ⟨drawn_mono hs hdrawn, fun user' hu' =>
      email_step hs ht.ok hdrawn (fun u hu'' => ?_) hu'⟩
    rw [← hemail, some.inj (hu''.symm.trans hu)]
  sessions token sess hlook hconcerns := by
    have hold := h.others token sess hlook
    rcases concerns_before hs ht.ok (ht.sessions token sess hold).2.1 hconcerns with
      htarget | ⟨user, hu, hsame⟩
    · exact absurd rfl (h.sessions _ htarget token sess hlook)
    · cases target with
      | none =>
        rw [h.nobody rfl _ _ hu] at hsame
        cases hsame
      | some id =>
        obtain ⟨user', hu', hemail⟩ := h.about id rfl
        exact absurd (ht.unique _ _ _ _ hu hu' (hemail ▸ hsame))
          (h.sessions id rfl token sess hlook)
  logins hsevered l hl _ hmail := by
    rw [h.logins] at hl
    exact (ht.logins l hl).1.spent hs (h.hash hsevered)
  former hsevered hash := by
    rintro ⟨begin, x, -, rfl⟩
    exact (ht.public_of_password begin x).spent hs (h.hash hsevered)

omit hs

theorem Service.Final.later {time : ℕ} {severed : Prop} {former : String → Prop}
    (hf : s.Final target email time severed former) (h : s.Later S s') :
    s'.Final target email time severed former :=
  Runs.Reachable.invariant hf (fun _ _ _ _ hf _ hs => hf.step hs) h

/-- **A deleted account stays deleted.** -/
theorem Service.Ok.deleted_later (hok : s.Ok) (hid : id ∈ s.drawn)
    (hgone : s.auth.users.lookup id = none) (h : s.Later S s') :
    s'.auth.users.lookup id = none := by
  have hboth : id ∈ s'.drawn ∧ s'.auth.users.lookup id = none := by
    refine hok.later_of_step (P := fun t => id ∈ t.drawn ∧ t.auth.users.lookup id = none)
      ⟨hid, hgone⟩ ?_ h
    rintro t e t' hok ⟨hid, hgone⟩ hs
    refine ⟨drawn_mono hs hid, eq_none_iff_forall_ne_some.mpr fun user' hu' => ?_⟩
    rcases hok.addressed_step hs id user' hu' with ⟨user, hu, -⟩ | ⟨⟨env, henv, rfl⟩, -⟩
    · rw [hgone] at hu
      cases hu
    · exact ((step_eq hs).1 env henv env.id (by simp [Env.draws])).2 hid
  exact hboth.2

/-- Who is accepted has a session and holds the role. -/
theorem authenticate_ok (hc : a.Complete) {now : ℤ} {id : String}
    (h : (a.authenticate now token).1 = .ok (id, user)) :
    (∃ sess, a.tokens.lookup token = some sess ∧ sess.userID = id) ∧
    a.Holds id user.workspace user.role := by
  unfold authenticate at h
  split at h
  · cases h
  next sess hsess =>
  split at h
  · cases h
  split at h
  · cases h
  next stored hstored =>
  split at h
  · cases h
  next resolved hresolved =>
  obtain ⟨rfl, rfl⟩ := Prod.mk.inj (Except.ok.inj h)
  obtain ⟨rec, hrec⟩ := hc.account hstored
  exact ⟨⟨sess, hsess, rfl⟩, resolveLocked_ok hresolved hrec hstored rfl⟩

end Runs

/-- **Revocation is final** on a server that starts with no two accounts of one
address. When a revoking call has returned nil, what it takes is gone, and a
deleted account stays deleted. In every later state, whoever is accepted has the
role that the account holds then; if it is the account, or one with the address,
its session was opened after the call, and if the password does not count any
more, by a login that read the index after the call and verified no former
hash. -/
theorem Service.revocation_final {S : Setup} {env : Env} {file : Option SessionFile}
    {adminEmail adminPassword : String} {a : LocalAuthenticator}
    (hstart : newLocalAuthenticator S env file adminEmail adminPassword = .ok a)
    (hunique : a.UniqueEmails)
    {s s' s'' : Service} (hrun : Runs.Reachable (Service.step S) (fun _ => True)
      (Service.start a) s) {e : Event}
    (hs : s.step S e = some s') {target : Option String} {email : String} {right : Right}
    (hrevokes : Revokes S s e target email right) (hlater : s'.Later S s'') :
    (∀ id ∈ target, right.Gone s'.auth id ∧
        (s'.auth.users.lookup id = none → s''.auth.users.lookup id = none)) ∧
      ∀ now token id user, (s''.auth.authenticate now token).1 = .ok (id, user) →
        s''.auth.Holds id user.workspace user.role ∧
          (s''.auth.Concerns target email id → ∃ mark, s''.marks.lookup token = some mark ∧
            mark.Since s'.clock (right.Severs s'.auth target)
              fun hash => ∃ begin x, sameEmail x email = true ∧
                s.auth.passwordHashForLocked begin x = hash) := by
  have ht : s.Tracked := (Tracked.start hstart hunique).later hrun
  have hrevoked := hrevokes.revoked ht hs
  have hfinal := hrevoked.final hs ht
  refine ⟨fun id hid => ⟨hrevoked.gone id hid, fun hgone => ?_⟩,
    fun now token id user haccept => ?_⟩
  · exact hfinal.tracked.ok.deleted_later (hfinal.identity id hid).1 hgone hlater
  · have hthen := hfinal.later hlater
    obtain ⟨⟨sess, hsess, rfl⟩, hholds⟩ := authenticate_ok hthen.tracked.ok.complete haccept
    exact ⟨hholds, hthen.sessions token sess hsess⟩

/-! ## One address, two accounts -/

/-- The password of the account that the session "t1" is for changes. -/
def passwordChange : Event :=
  .changePassword (plainEnv "i3" "t3" "#Sufficient-3") "t1" "Sufficient-1" "Sufficient-3"

/-- The change of a password, evaluated: the session, its account, and nil. -/
def changesPassword (s : Service) (id email : String) : Bool :=
  ((s.auth.tokens.lookup "t1").any fun sess => sess.userID = id) &&
    ((s.auth.users.lookup id).any fun user => user.email = email) &&
    (s.auth.changePassword plainSetup (plainEnv "i3" "t3" "#Sufficient-3") "t1" "Sufficient-1"
      "Sufficient-3").1.isOk

theorem revokes_of_changesPassword {s : Service} {id email : String}
    (h : changesPassword s id email = true) :
    Revokes plainSetup s passwordChange (some id) email .password := by
  simp only [changesPassword, Bool.and_eq_true, any_eq_true, decide_eq_true_eq] at h
  obtain ⟨⟨⟨sess, hsess, rfl⟩, user, hu, rfl⟩, hnil⟩ := h
  refine .changePassword hsess hu ?_
  cases hresult : (s.auth.changePassword plainSetup (plainEnv "i3" "t3" "#Sufficient-3") "t1"
    "Sufficient-1"
      "Sufficient-3").1 with
  | ok u => rfl
  | error e =>
    rw [hresult] at hnil
    cases hnil

/-- A session, and a login that has verified the password it is about to lose. -/
def beforeChange : List Event :=
  [.loginLookup "admin@x.io" "Sufficient-1", .loginFinish 0 (plainEnv "i1" "t1" "#h1"),
    .loginLookup "admin@x.io" "Sufficient-1"]

/-- The login goes on, and another one comes with the new password. -/
def afterChange : List Event :=
  [.loginFinish 0 (plainEnv "i4" "t4" "#h4"), .loginLookup "admin@x.io" "Sufficient-3",
    .loginFinish 0 (plainEnv "i5" "t5" "#h5")]

theorem firstServer_uniqueEmails : firstServer.UniqueEmails := by
  have hkeys : firstServer.users.keys = ["first"] := by decide +kernel
  have hfirst : ∀ id user, firstServer.users.lookup id = some user → id = "first" := by
    intro id user hu
    have hmem : id ∈ firstServer.users.keys := mem_keys.mp (lookup_isSome.mp (isSome_of_mem hu))
    rwa [hkeys, List.mem_singleton] at hmem
  intro id id' user user' hu hu' _
  rw [hfirst id user hu, hfirst id' user' hu']

/-- **The theorem at work**: after a password change, the session that is accepted
comes from a login that read the index after it. -/
theorem revocation_final_changed : ∃ s s' s'' : Service,
    (Service.start firstServer).Later plainSetup s ∧
    s.step plainSetup passwordChange = some s' ∧ s'.Later plainSetup s'' ∧
    ∃ user, (s''.auth.authenticate 0 "t5").1 = .ok ("first", user) ∧
      ∃ mark, s''.marks.lookup "t5" = some mark ∧ s'.clock ≤ mark.lookedUp := by
  have hrun : ((run (Service.step plainSetup) (Service.start firstServer) beforeChange).any fun s =>
      changesPassword s "first" "admin@x.io" && (s.step plainSetup passwordChange).any fun s' =>
        (run (Service.step plainSetup) s' afterChange).any fun s'' =>
          (s''.auth.authenticate 0 "t5").1.toOption.any fun result =>
            result.1 = "first") = true := by
    decide +kernel
  obtain ⟨s, hs, hp⟩ := exists_of_any hrun
  obtain ⟨hchanges, hstep⟩ := Bool.and_eq_true_iff.mp hp
  obtain ⟨s', hs', hp'⟩ := (any_eq_true _ _).mp hstep
  obtain ⟨s'', hs'', hp''⟩ := exists_of_any hp'
  have hbefore : (Service.start firstServer).Later plainSetup s :=
    Runs.Reachable.of_run .init (fun _ _ => trivial) hs
  have hafter : s'.Later plainSetup s'' := Runs.Reachable.of_run .init (fun _ _ => trivial) hs''
  obtain ⟨⟨id, user⟩, haccept, hid⟩ := (any_eq_true _ _).mp hp''
  obtain rfl : id = "first" := of_decide_eq_true hid
  have haccept := toOption_eq_some.mp haccept
  obtain ⟨-, hsessions⟩ := revocation_final firstServer_started firstServer_uniqueEmails hbefore hs'
    (revokes_of_changesPassword hchanges) hafter
  obtain ⟨mark, hmark, -, hsince⟩ := (hsessions 0 "t5" "first" user haccept).2 (.inl rfl)
  exact ⟨s, s', s'', hbefore, hs', hafter, user, haccept, mark, hmark, (hsince (.inl rfl)).1⟩

/-- The session file of a server whose administrator was configured with another
spelling of the address. -/
def formerAdmin : SessionFile where
  tokens := ∅
  users := singleton "former" (newAdmin 0 "Admin@x.io")
  resetTokens := ∅
  adminEmail := "Admin@x.io"
  adminPasswordHash := "#Sufficient-0"
  adminSeedHash := ""
  accounts := ∅
  invitations := ∅

/-- The server after the address in the configuration has been respelled. -/
def twoAdmins : LocalAuthenticator :=
  (newLocalAuthenticator plainSetup startEnv (some formerAdmin) "admin@x.io"
    "Sufficient-1").toOption.getD
    ⟨∅, ∅, "", "", ∅, ∅, ∅, ∅⟩

/-- Two logins with the one password; the loop over the accounts begins at either
of the two. -/
def twoLogins : List Event :=
  [.loginLookup "admin@x.io" "Sufficient-1", .loginFinish 0 (plainEnv "i1" "t1" "#h1"),
    .loginLookup "admin@x.io" "Sufficient-1",
    .loginFinish 0 { plainEnv "i2" "t2" "#h2" with begins := (1, 0, 0) }]

/-- **A session survives the password change**: the constructor adds a second
account with the configured address, the administrator signs in twice and
changes the password, and the session of the other account is still accepted,
as an owner's. -/
theorem session_survives_change : ∃ (a : LocalAuthenticator) (s s' : Service),
    newLocalAuthenticator plainSetup startEnv (some formerAdmin) "admin@x.io" "Sufficient-1" =
    .ok a ∧
    Runs.Reachable (Service.step plainSetup) (fun _ => True) (Service.start a) s ∧
    s.step plainSetup passwordChange = some s' ∧
    Revokes plainSetup s passwordChange (some "first") "admin@x.io" .password ∧
    ∃ user mark, (s'.auth.authenticate 0 "t2").1 = .ok ("former", user) ∧ user.role = .owner ∧
      sameEmail user.email "admin@x.io" = true ∧ s'.marks.lookup "t2" = some mark ∧
      mark.installed < s'.clock ∧ mark.verified = s.auth.passwordHashForLocked 0 "admin@x.io" := by
  have hrun : ((run (Service.step plainSetup) (Service.start twoAdmins) twoLogins).any fun s =>
      changesPassword s "first" "admin@x.io" && (s.step plainSetup passwordChange).any fun s' =>
        ((s'.auth.authenticate 0 "t2").1.toOption.any fun result =>
          result.1 = "former" && result.2.role = .owner && sameEmail result.2.email "admin@x.io") &&
        (s'.marks.lookup "t2").any fun mark =>
          mark.installed < s'.clock && mark.verified = s.auth.passwordHashForLocked 0
            "admin@x.io") = true := by
    decide +kernel
  obtain ⟨s, hs, hp⟩ := exists_of_any hrun
  obtain ⟨hchanges, hstep⟩ := Bool.and_eq_true_iff.mp hp
  obtain ⟨s', hs', hp'⟩ := (any_eq_true _ _).mp hstep
  obtain ⟨hauth, hmarks⟩ := Bool.and_eq_true_iff.mp hp'
  obtain ⟨⟨id, user⟩, haccept, huser⟩ := (any_eq_true _ _).mp hauth
  obtain ⟨mark, hmark, hold⟩ := (any_eq_true _ _).mp hmarks
  simp only [Bool.and_eq_true, decide_eq_true_eq] at huser hold
  obtain ⟨⟨rfl, howner⟩, hemail⟩ := huser
  exact ⟨twoAdmins, s, s', eq_ok_getD (by decide +kernel),
    Runs.Reachable.of_run .init (fun _ _ => trivial) hs, hs',
    revokes_of_changesPassword hchanges, user, mark, toOption_eq_some.mp haccept, howner, hemail,
    hmark, hold⟩

end Anubis.Auth
