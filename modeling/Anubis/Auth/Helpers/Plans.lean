import Anubis.Auth.Model.Sessions

/-!
# What the shared functions establish

One lemma for each function that the calls of the directory share, in terms of
lookups; then `Plan`, which says once for each event what a call that gets
through its checks has checked and what state it makes.
-/

namespace Anubis.Auth

open Checked LocalAuthenticator List Option AList

variable {rec : AccountRecord} {actor : Actor} {id : String} {ws : String}

/-- The account has a role in a workspace of its own. -/
def LocalAuthenticator.membership (a : LocalAuthenticator) (id ws : String) : Option MemberRole :=
  (a.accounts.lookup id).bind fun rec => rec.memberships.lookup ws

/-- **An account holds a role in a workspace**: it is enabled and a member with
that role, or it is the configured administrator, who is owner where it is not
listed. -/
def LocalAuthenticator.Holds (a : LocalAuthenticator) (id ws : String) (role : MemberRole) : Prop :=
  ∃ user rec, a.users.lookup id = some user ∧ a.accounts.lookup id = some rec ∧
    rec.disabled = false ∧
    (rec.memberships.lookup ws = some role ∨
      rec.memberships.lookup ws = none ∧ a.isConfiguredAdminLocked (some user) = true ∧
      role = .owner)

/-- A workspace has an enabled owner. -/
def LocalAuthenticator.HasOwner (a : LocalAuthenticator) (ws : String) : Prop :=
  ∃ id rec, a.accounts.lookup id = some rec ∧ rec.disabled = false ∧
    rec.memberships.lookup ws = some .owner

/-- The records and the identities have the same keys. -/
def LocalAuthenticator.Complete (a : LocalAuthenticator) : Prop :=
  ∀ id, (a.accounts.lookup id).isSome = (a.users.lookup id).isSome

section Shared

variable {a : LocalAuthenticator}

theorem LocalAuthenticator.Complete.account (h : a.Complete) {user : User}
    (hu : a.users.lookup id = some user) : ∃ rec, a.accounts.lookup id = some rec := by
  have := h id
  rw [hu] at this
  exact isSome_iff_exists.mp this

theorem LocalAuthenticator.Complete.user (h : a.Complete)
    (hr : a.accounts.lookup id = some rec) : ∃ user, a.users.lookup id = some user := by
  have := h id
  rw [hr] at this
  exact isSome_iff_exists.mp this.symm

theorem membership_of_lookup {id ws : String} (h : a.accounts.lookup id = some rec) :
    a.membership id ws = rec.memberships.lookup ws := by
  rw [membership, h]
  rfl

/-! ## Looking for addresses -/

theorem sameEmail_iff {x y : String} :
    sameEmail x y = true ↔ normalizeEmail x ≠ "" ∧ normalizeEmail x = normalizeEmail y := by
  simp [sameEmail]

theorem findByEmailLocked_some {begin : ℕ} {email id : String} {user : User}
    (h : a.findByEmailLocked begin email = some (id, user)) :
    a.users.lookup id = some user ∧ sameEmail user.email email = true := by
  unfold findByEmailLocked at h
  split at h
  · cases h
  · next hne =>
    have hmem := mem_of_find?_eq_some h
    have hsame := find?_some h
    simp only [decide_eq_true_eq] at hsame
    exact ⟨AList.mem_range.mp hmem, sameEmail_iff.mpr ⟨by rwa [hsame], hsame⟩⟩

theorem findByEmailLocked_none {begin : ℕ} {email id : String} {user : User}
    (h : a.findByEmailLocked begin email = none) (hu : a.users.lookup id = some user) :
    sameEmail user.email email = false := by
  by_contra hsame
  rw [Bool.not_eq_false, sameEmail_iff] at hsame
  unfold findByEmailLocked at h
  rw [if_neg (by rw [← hsame.2]; exact hsame.1), find?_eq_none] at h
  exact h _ (AList.mem_range.mpr hu) (decide_eq_true hsame.2)

/-! ## Counting owners -/

/-- **`ownersLocked` finds an enabled owner other than one account** if there is
one. -/
theorem ownersLocked_ne_zero {ws skipID : String} :
    a.ownersLocked ws skipID ≠ 0 ↔ ∃ id rec, id ≠ skipID ∧ a.accounts.lookup id = some rec ∧
      rec.disabled = false ∧ rec.memberships.lookup ws = some .owner := by
  unfold ownersLocked
  rw [← Nat.pos_iff_ne_zero, countP_pos_iff]
  constructor
  · rintro ⟨⟨id, rec⟩, hmem, hp⟩
    obtain ⟨⟨hid, hdis⟩, hown⟩ : (id ≠ skipID ∧ rec.disabled = false) ∧
      rec.memberships.lookup ws = some .owner := by
      simpa using hp
    exact ⟨id, rec, hid, AList.mem_range.mp hmem, hdis, hown⟩
  · rintro ⟨id, rec, hid, hlook, hdis, hown⟩
    exact ⟨(id, rec), AList.mem_range.mpr hlook, by simp [hid, hdis, hown]⟩

/-! ## Roles -/

theorem mem_sortedWorkspaces {memberships : Dict String MemberRole} :
    ws ∈ sortedWorkspaces memberships ↔ (memberships.lookup ws).isSome := by
  rw [sortedWorkspaces, mem_insertionSort, lookup_isSome, AList.mem_keys]

/-- **A resolved role is held** in the resolved workspace, and nothing else of the
identity has changed but the flag. -/
theorem resolveLocked_ok {u user resolved : User}
    (h : a.resolveLocked id u = .ok resolved) (hrec : a.accounts.lookup id = some rec)
    (hu : a.users.lookup id = some user) (hemail : u.email = user.email) :
    a.Holds id resolved.workspace resolved.role := by
  have hadmin : a.isConfiguredAdminLocked (some u) = a.isConfiguredAdminLocked (some user) := by
    simp [isConfiguredAdminLocked, hemail]
  unfold resolveLocked at h
  simp only [hrec] at h
  split at h
  · cases h
  · next hdis =>
    refine ⟨user, rec, hu, hrec, by simpa using hdis, ?_⟩
    split at h
    · next role hrole =>
      cases h
      exact .inl hrole
    · next hnone =>
      split at h
      · next hconf =>
        cases h
        exact .inr ⟨hnone, hadmin ▸ hconf, rfl⟩
      · split at h
        · next first rest hsorted =>
          cases h
          have hfirst : (rec.memberships.lookup first).isSome :=
            mem_sortedWorkspaces.mp (by rw [hsorted]; exact (.head _))
          obtain ⟨role, hrole⟩ := isSome_iff_exists.mp hfirst
          exact .inl (by simp [hrole])
        · cases h

/-- **Who may act** holds the role in the workspace it acts in. -/
theorem actorLocked_ok (hc : a.Complete) {role : MemberRole}
    (h : a.actorLocked actor = .ok (ws, role)) : a.Holds (actorID actor) ws role := by
  unfold actorLocked at h
  split at h
  · cases h
  · next id user =>
    split at h
    · cases h
    split at h
    · cases h
    split at h
    · cases h
    next stored hstored =>
    obtain ⟨rec, hrec⟩ := hc.account hstored
    dsimp only at h
    split at h
    · cases h
    next resolved hres =>
    split at h
    · cases h
    cases h
    refine resolveLocked_ok hres hrec hstored ?_
    split <;> rfl

/-- **The inviter** of an invitation that is good holds a role in the workspace
that the invited role is within. -/
theorem inviterValidLocked_holds {inv : InvitationRecord} (h : a.inviterValidLocked inv = true) :
    ∃ role, a.Holds inv.invitedByID inv.workspace role ∧ roleWithin inv.role role = true := by
  unfold inviterValidLocked at h
  split at h
  · next inviter rec hu hrec =>
    rw [Bool.and_eq_true] at h
    split at h
    · cases h.2
    next resolved hres =>
    obtain ⟨⟨hws, -⟩, hwithin⟩ :
      (resolved.workspace = inv.workspace ∧ resolved.role.can "members:*" = true) ∧
        roleWithin inv.role resolved.role = true := by simpa using h.2
    refine ⟨resolved.role, ?_, hwithin⟩
    rw [← hws]
    exact resolveLocked_ok hres hrec hu rfl
  · cases h

theorem validInvitation_ok {env : Env} {tokenHash id : String} {inv : InvitationRecord}
    (h : a.validInvitation env tokenHash = .ok (id, inv)) :
    a.invitations.lookup id = some inv ∧ a.inviterValidLocked inv = true := by
  unfold validInvitation at h
  split at h
  · cases h
  next id' inv' hfind =>
  split at h
  · next hgood =>
    cases h
    exact ⟨AList.mem_range.mp (mem_of_find?_eq_some hfind), hgood.2⟩
  · cases h

/-- **A target** is a member of the workspace with a role within the actor's. -/
theorem targetLocked_ok {ws userID : String} {actorRole role : MemberRole} {user : User}
    (h : a.targetLocked ws actorRole userID = .ok (user, rec, role)) :
    a.users.lookup userID = some user ∧ a.accounts.lookup userID = some rec ∧
      rec.memberships.lookup ws = some role ∧ roleWithin role actorRole = true := by
  unfold targetLocked at h
  split at h
  · next user' rec' hu hrec =>
    split at h
    · cases h
    next role' hrole =>
    split at h
    · cases h
    next hwithin =>
    cases h
    exact ⟨hu, hrec, hrole, by simpa using hwithin⟩
  · cases h

/-- An account that may be changed as a whole is in the actor's workspace only,
or the actor is the configured administrator. -/
theorem accountScopeLocked_ok
    (h : a.accountScopeLocked actor rec ws = .ok ()) :
    a.isConfiguredAdminLocked (a.users.lookup (actorID actor)) = true ∨
      ∀ other, (rec.memberships.lookup other).isSome → other = ws := by
  rw [accountScopeLocked, refuseIf_eq_ok, not_and_or] at h
  refine h.imp (fun h => by simpa using h) fun h other hmem => ?_
  push Not at h
  exact h other (AList.mem_keys.mp (lookup_isSome.mp hmem))

/-- **An account that may be disabled or deleted** is not the actor's and not the
configured administrator's, is in the actor's workspace only unless the actor is
the configured administrator, and is nowhere the last owner. -/
theorem accountWideLocked_ok {userID ws : String} {user : User}
    (h : a.accountWideLocked actor userID user rec ws = .ok ()) :
    userID ≠ actorID actor ∧ a.isConfiguredAdminLocked (some user) = false ∧
      (a.isConfiguredAdminLocked (a.users.lookup (actorID actor)) = true ∨
        ∀ other, (rec.memberships.lookup other).isSome → other = ws) ∧
      ∀ other, rec.memberships.lookup other = some .owner → a.ownersLocked other userID ≠ 0 := by
  simp only [accountWideLocked, ↓then_eq_ok, refuseIf_eq_ok] at h
  obtain ⟨hself, hconf, hscope, howner⟩ := h
  refine ⟨hself, by simpa using hconf, accountScopeLocked_ok (refuseIf_eq_ok.mpr hscope),
    fun other hother hzero => ?_⟩
  split at howner
  · cases howner
  next hnone =>
  rw [find?_eq_none] at hnone
  exact hnone _ (AList.mem_range.mpr hother) (by simp [hzero])

/-- **An update that is let through** keeps an owner, grants nothing above the
actor's role, and changes an account as a whole only with authority over it. -/
theorem checkUpdate_ok {userID ws : String} {user : User}
    {actorRole current : MemberRole} {upd : MemberUpdate}
    (h : a.checkUpdate actor userID user rec ws actorRole current upd = .ok ()) :
    (upd.name.isSome → userID ≠ actorID actor → a.accountScopeLocked actor rec ws = .ok ()) ∧
      (upd.newRole current ≠ current → roleWithin (upd.newRole current) actorRole = true ∧
        (current = .owner → a.ownersLocked ws userID ≠ 0)) ∧
      (upd.newDisabled rec ≠ rec.disabled → upd.newDisabled rec = true →
        a.accountWideLocked actor userID user rec ws = .ok ()) ∧
      (upd.newDisabled rec ≠ rec.disabled → upd.newDisabled rec = false →
        a.accountScopeLocked actor rec ws = .ok ()) := by
  simp only [checkUpdate, ↓then_eq_ok, whenever_eq_ok, refuseIf_eq_ok, not_and] at h
  obtain ⟨-, hname, -, hrole, howner, hwide, hscope⟩ := h
  refine ⟨fun hn hne => hname ⟨hn, hne⟩, fun hne => ⟨by simpa using hrole hne, howner hne⟩,
    fun hne hd => hwide ⟨hne, hd⟩, fun hne hd => hscope ⟨hne, by simp [hd]⟩⟩

end Shared

/-!
## What an event does

`Plan` says once what each event has checked and what state it makes, before it
is saved. Every property of all runs is a case analysis over `Plan`, so none of
them looks at the calls again.
-/

variable {a' : LocalAuthenticator} {env : Env} {m : MemberChange} {userID : String}
    {email token newPassword : String}

/-- **What an event changes**, with the checks it has passed. -/
inductive Plan (S : Setup) (s : Service) : Event → LocalAuthenticator → Prop
  /-- At most, sessions end and reset tokens or invitations change. -/
  | ends {e : Event} {tokens : Dict String Session} {resetTokens : Dict String ResetToken}
      {invitations : Dict String InvitationRecord}
      (htokens : ∀ token sess, tokens.lookup token = some sess →
        s.auth.tokens.lookup token = some sess) :
      Plan S s e
        { s.auth with tokens := tokens, resetTokens := resetTokens, invitations := invitations }
  | create {env : Env} {actor : Actor} {req : CreateUserRequest} {ws name : String}
      {actorRole : MemberRole} (hactor : s.auth.actorLocked actor = .ok (ws, actorRole))
      (hrole : roleWithin (roleOrViewer req.role) actorRole = true)
      (hnew : s.auth.findByEmailLocked env.begins.1 (trimSpace req.email) = none) :
      Plan S s (.createUser env actor req)
        (s.auth.addAccount env.id
          (newUser env.now (trimSpace req.email) name (roleOrViewer req.role) ws)
          { newRecord env.now env.hash .sourceLocal ws (roleOrViewer req.role) with
            mustChangePassword := true })
  | update {env : Env} {actor : Actor} {userID ws : String} {upd : MemberUpdate}
      {actorRole current : MemberRole} {user : User} {rec : AccountRecord}
      (hactor : s.auth.actorLocked actor = .ok (ws, actorRole))
      (htarget : s.auth.targetLocked ws actorRole userID = .ok (user, rec, current))
      (hcheck : s.auth.checkUpdate actor userID user rec ws actorRole current upd = .ok ()) :
      Plan S s (.updateMember env actor userID upd)
        (if upd.revokes rec current then
          (s.auth.addAccount userID (updatedUser user upd)
            (updatedRecord env rec ws current upd)).revokeUserSessionsLocked userID
        else
          s.auth.addAccount userID (updatedUser user upd)
            (updatedRecord env rec ws current upd))
  | remove {env : Env} {actor : Actor} {userID ws : String} {actorRole role : MemberRole}
      {user : User} {rec : AccountRecord}
      (hactor : s.auth.actorLocked actor = .ok (ws, actorRole))
      (htarget : s.auth.targetLocked ws actorRole userID = .ok (user, rec, role))
      (howner : role = .owner → s.auth.ownersLocked ws userID ≠ 0)
      (hadmin : s.auth.isConfiguredAdminLocked (some user) = true →
        rec.memberships.keys.length ≠ 1) :
      Plan S s (.removeMember env actor userID)
        ((s.auth.withoutMember env userID user rec ws).revokeUserSessionsLocked userID)
  | delete {env : Env} {actor : Actor} {userID ws : String} {actorRole role : MemberRole}
      {user : User} {rec : AccountRecord}
      (hactor : s.auth.actorLocked actor = .ok (ws, actorRole))
      (htarget : s.auth.targetLocked ws actorRole userID = .ok (user, rec, role))
      (hwide : s.auth.accountWideLocked actor userID user rec ws = .ok ()) :
      Plan S s (.deleteUser env actor userID)
        ((s.auth.deleteAccountLocked userID user).revokeUserSessionsLocked userID)
  | join {i : ℕ} {env : Env} {acc : Acceptance} {invID id : String} {inv : InvitationRecord}
      {user : User} {rec : AccountRecord}
      (hacc : s.acceptances[i]? = some acc)
      (hinv : s.auth.validInvitation env acc.tokenHash = .ok (invID, inv))
      (hfind : s.auth.findByEmailLocked env.begins.1 inv.email = some (id, user))
      (hrec : s.auth.accounts.lookup id = some rec) :
      Plan S s (.acceptCommit i env)
        { s.auth with
          accounts := s.auth.accounts.insert id (joinedRecord env rec inv)
          invitations := s.auth.invitations.erase invID }
  | acceptNew {i : ℕ} {env : Env} {acc : Acceptance} {invID : String} {inv : InvitationRecord}
      (hacc : s.acceptances[i]? = some acc)
      (hinv : s.auth.validInvitation env acc.tokenHash = .ok (invID, inv))
      (hfind : s.auth.findByEmailLocked env.begins.1 inv.email = none)
      (hnew : acc.existing = false) :
      Plan S s (.acceptCommit i env)
        { s.auth.addAccount env.id (newUser env.now inv.email acc.name inv.role inv.workspace)
            (newRecord env.now acc.pw .sourceLocal inv.workspace inv.role) with
          invitations := s.auth.invitations.erase invID }
  | signIn {env : Env} {email name id : String} {source : Source} {user : User}
      {rec : AccountRecord}
      (hfind : s.auth.findByEmailLocked env.begins.1 (trimSpace email) = some (id, user))
      (hrec : s.auth.accounts.lookup id = some rec) :
      Plan S s (.provisionExternalUser env email name source)
        (s.auth.addAccount id (signedInUser user name) { rec with lastLoginAt := some env.now })
  | signUp {env : Env} {email name userName : String} {source : Source}
      (hfind : s.auth.findByEmailLocked env.begins.1 (trimSpace email) = none) :
      Plan S s (.provisionExternalUser env email name source)
        (s.auth.addAccount env.id (newUser env.now (trimSpace email) userName .viewer "default")
          { newRecord env.now "" source "default" .viewer with lastLoginAt := some env.now })
  | login {i : ℕ} {env : Env} {l : Login} {id : String} {user resolved : User}
      {known : LocalAuthenticator} (hlogin : s.logins[i]? = some l)
      (hhash : s.auth.passwordHashForLocked env.begins.2.1 l.email = l.expectedHash)
      (hknown : s.auth.loginIdentity env l.email = (id, user, known))
      (hresolved : known.resolveLocked id user = .ok resolved) :
      Plan S s (.loginFinish i env)
        { known with
          accounts := known.accounts.modify id fun rec => { rec with lastLoginAt := some env.now }
          tokens := (capSessionsLocked known.tokens id env.now).insert env.token
            ⟨id, env.now + 24 * hour⟩ }
  | password {e : Event} {env : Env} {id : String} {user : User} {changed : LocalAuthenticator}
      (resetTokens : Dict String ResetToken) (henv : e.env = some env) (hhash : e.hashes = true)
      (hu : s.auth.users.lookup id = some user)
      (hchanged : changed = s.auth.replacePassword env id user) :
      Plan S s e { changed with resetTokens := resetTokens }
  | adminPassword {e : Event} {env : Env} {resetTokens : Dict String ResetToken}
      (henv : e.env = some env) (hhash : e.hashes = true) :
      Plan S s e { s.auth with adminPasswordHash := env.hash, resetTokens := resetTokens }

section Cases

variable {S : Setup} {s : Service}

theorem Plan.same {e : Event} : Plan S s e s.auth :=
  .ends fun _ _ h => h

theorem Plan.of_createUser {req : CreateUserRequest} {m : Member}
    (h : s.auth.createUser S env actor req = .ok (m, a')) :
    Plan S s (.createUser env actor req) a' := by
  dsimp only [createUser] at h
  simp only [↓then_eq_ok, bind_eq_ok, refuseIf_eq_ok, Prod.exists, Except.ok.injEq,
    Prod.mk.injEq] at h
  obtain ⟨hemail, hname, hvalid, hpassword, ws, actorRole, hactor, hrole, hnew, hrequired,
    hroom, hquota, -, rfl⟩ := h
  exact .create hactor (by simpa using hrole) (by simpa using hnew)

theorem Plan.of_updateMember {upd : MemberUpdate}
    (h : s.auth.updateMember env actor userID upd = .ok (m, a')) :
    Plan S s (.updateMember env actor userID upd) a' := by
  simp only [updateMember, bind_eq_ok, Prod.exists, Except.ok.injEq, Prod.mk.injEq] at h
  obtain ⟨ws, actorRole, hactor, user, rec, current, htarget, ⟨⟩, hcheck, -, rfl⟩ := h
  exact .update hactor htarget hcheck

theorem Plan.of_removeMember (h : s.auth.removeMember env actor userID = .ok (m, a')) :
    Plan S s (.removeMember env actor userID) a' := by
  simp only [removeMember, ↓then_eq_ok, bind_eq_ok, refuseIf_eq_ok, Prod.exists,
    Except.ok.injEq, Prod.mk.injEq, not_and] at h
  obtain ⟨ws, actorRole, hactor, user, rec, role, htarget, howner, hadmin, -, rfl⟩ := h
  exact .remove hactor htarget howner hadmin

theorem Plan.of_deleteUser (h : s.auth.deleteUser actor userID = .ok (m, a')) :
    Plan S s (.deleteUser env actor userID) a' := by
  simp only [deleteUser, bind_eq_ok, Prod.exists, Except.ok.injEq, Prod.mk.injEq] at h
  obtain ⟨ws, actorRole, hactor, user, rec, role, htarget, ⟨⟩, hwide, -, rfl⟩ := h
  exact .delete hactor htarget hwide

theorem Plan.of_createInvitation {role : MemberRole} {r : InvitationRecord × String}
    (h : s.auth.createInvitation S env actor email role = .ok (r, a')) :
    Plan S s (.createInvitation env actor email role) a' := by
  dsimp only [createInvitation] at h
  simp only [↓then_eq_ok, bind_eq_ok, Prod.exists, Except.ok.injEq, Prod.mk.injEq] at h
  obtain ⟨hemail, hvalid, ws, actorRole, hactor, hrole, hmember, hroom, hquota, -, rfl⟩ := h
  exact .ends fun _ _ h => h

theorem Plan.of_revokeInvitation {id : String} {r : Unit}
    (h : s.auth.revokeInvitation actor id = .ok (r, a')) :
    Plan S s (.revokeInvitation env actor id) a' := by
  simp only [revokeInvitation, bind_eq_ok, Prod.exists] at h
  obtain ⟨ws, actorRole, -, h⟩ := h
  split at h
  · cases h
  · simp only [↓then_eq_ok, Except.ok.injEq, Prod.mk.injEq] at h
    obtain ⟨-, -, -, rfl⟩ := h
    exact .ends fun _ _ h => h

theorem Plan.of_acceptCommit {i : ℕ} {acc : Acceptance} {m : Member}
    (hacc : s.acceptances[i]? = some acc) (h : s.auth.acceptCommit env acc = .ok (m, a')) :
    Plan S s (.acceptCommit i env) a' := by
  simp only [acceptCommit, bind_eq_ok, Prod.exists] at h
  obtain ⟨invID, inv, hinv, h⟩ := h
  split at h
  · next id user hfind =>
    split at h
    · cases h
    next rec hrec =>
    simp only [↓then_eq_ok, Except.ok.injEq, Prod.mk.injEq] at h
    obtain ⟨-, -, -, rfl⟩ := h
    exact .join hacc hinv hfind hrec
  · next hfind =>
    simp only [↓then_eq_ok, refuseIf_eq_ok, Except.ok.injEq, Prod.mk.injEq] at h
    obtain ⟨hnew, -, -, rfl⟩ := h
    exact .acceptNew hacc hinv hfind (by simpa using hnew)

theorem Plan.of_provisionExternalUser {name : String} {source : Source} {r : Except AuthError User}
    (h : s.auth.provisionExternalUser S env email name source = .ok (r, a')) :
    Plan S s (.provisionExternalUser env email name source) a' := by
  unfold provisionExternalUser at h
  dsimp only at h
  split at h
  · cases h
  split at h
  · next id user hfind =>
    split at h
    · cases h
    next rec hrec =>
    simp only [↓then_eq_ok, Except.ok.injEq, Prod.mk.injEq] at h
    obtain ⟨-, -, -, rfl⟩ := h
    exact .signIn hfind hrec
  · next hfind =>
    simp only [↓then_eq_ok, Except.ok.injEq, Prod.mk.injEq] at h
    obtain ⟨-, -, -, rfl⟩ := h
    exact .signUp hfind

theorem Plan.of_loginFinish {i : ℕ} {l : Login} {r : String × User × String}
    (hlogin : s.logins[i]? = some l) (h : s.auth.loginFinish env l.email l.expectedHash =
      .ok (r, a')) :
    Plan S s (.loginFinish i env) a' := by
  obtain ⟨⟨id, user, known⟩, hknown⟩ : ∃ found, s.auth.loginIdentity env l.email = found := ⟨_, rfl⟩
  simp only [loginFinish, bind_eq_ok, refuseIf_eq_ok, hknown] at h
  obtain ⟨-, hhash, h⟩ := h
  split at h
  · cases h
  next resolved hresolved =>
  simp only [Except.ok.injEq, Prod.mk.injEq] at h
  obtain ⟨-, rfl⟩ := h
  exact .login hlogin (not_not.mp hhash) hknown hresolved

/-! ## Saving -/

variable {P : LocalAuthenticator → Prop}

section

variable (hindex : ∀ a n, P a → P (a.refreshCredIndexLocked n))

include hindex

/-- What every plan makes true, whatever the index, holds when the change is saved
or rolled back. -/
theorem persistOrRollback_of {α : Type} {e : Event}
    {change : Except AuthError (α × LocalAuthenticator)}
    (hplan : ∀ a', Plan S s e a' → P a') (hchange : ∀ r a', change = .ok (r, a') → Plan S s e a') :
    P (s.auth.persistOrRollbackLocked env change).2 := by
  unfold persistOrRollbackLocked
  split
  · exact hplan _ .same
  next r changed =>
  have hchanged : P changed := hplan _ (hchange r changed rfl)
  split
  · exact hindex _ _ hchanged
  · exact hindex _ _ (hplan _ .same)
  · exact hindex _ _ hchanged

theorem nextAuth_changePassword {currentPassword : String}
    (hplan : ∀ a', Plan S s (.changePassword env token currentPassword newPassword) a' → P a') :
    P (s.auth.changePassword S env token currentPassword newPassword).2 := by
  unfold changePassword
  split
  · exact hplan _ .same
  next sess _ =>
  split
  · exact hplan _ (.ends fun _ _ h => (lookup_erase_eq_some.mp h).2)
  · refine persistOrRollback_of hindex hplan fun r a' h => ?_
    unfold changePasswordFor at h
    split at h
    · cases h
    next user hu =>
    simp only [↓then_eq_ok, Except.ok.injEq, Prod.mk.injEq] at h
    obtain ⟨hlocal, hcurrent, hnew, -, h⟩ := h
    exact .password a'.resetTokens rfl rfl hu h.symm

theorem nextAuth_confirmPasswordReset
    (hplan : ∀ a', Plan S s (.confirmPasswordReset env token newPassword) a' → P a') :
    P (s.auth.confirmPasswordReset env token newPassword).2 := by
  have hspent : P { s.auth with resetTokens := s.auth.resetTokens.erase token } :=
    hplan _ (.ends fun _ _ h => h)
  unfold confirmPasswordReset
  dsimp only
  split
  · exact hplan _ .same
  split
  · exact hspent
  split
  · exact hplan _ .same
  split
  · next id user hfind =>
    refine persistOrRollback_of hindex hplan fun r a' h => ?_
    simp only [Except.ok.injEq, Prod.mk.injEq] at h
    obtain ⟨-, rfl⟩ := h
    exact .password _ rfl rfl (findByEmailLocked_some hfind).1 rfl
  · split
    · refine persistOrRollback_of hindex hplan fun r a' h => ?_
      cases h
      exact .adminPassword rfl rfl
    · exact hspent

/-- **What every plan of an event makes true, whatever the index, holds after the
event.** -/
theorem nextAuth_of_plan {e : Event} (hplan : ∀ a', Plan S s e a' → P a') : P (s.nextAuth S e) := by
  have h0 : P s.auth := hplan _ .same
  cases e with
  | loginLookup | acceptLookup => exact h0
  | loginFinish i env =>
    change P (s.finishLogin i env)
    unfold Service.finishLogin
    split
    · exact h0
    next l hl => exact persistOrRollback_of hindex hplan fun r a' h => .of_loginFinish hl h
  | authenticate now token =>
    change P (s.auth.authenticate now token).2
    unfold authenticate
    split
    · exact h0
    split
    · exact hplan _ (.ends fun _ _ h => (lookup_erase_eq_some.mp h).2)
    split
    · exact h0
    split <;> exact h0
  | logout =>
    refine persistOrRollback_of hindex hplan fun r a' h => ?_
    cases h
    exact .ends fun _ _ h => (lookup_erase_eq_some.mp h).2
  | changePassword => exact nextAuth_changePassword hindex hplan
  | requestPasswordReset env email =>
    change P (s.auth.requestPasswordResetTo env email).2
    unfold requestPasswordResetTo
    dsimp only
    split
    · exact h0
    split
    · exact h0
    · refine persistOrRollback_of hindex hplan fun r a' h => ?_
      cases h
      exact .ends fun _ _ h => h
  | confirmPasswordReset => exact nextAuth_confirmPasswordReset hindex hplan
  | createUser => exact persistOrRollback_of hindex hplan fun r a' h => .of_createUser h
  | updateMember => exact persistOrRollback_of hindex hplan fun r a' h => .of_updateMember h
  | removeMember => exact persistOrRollback_of hindex hplan fun r a' h => .of_removeMember h
  | deleteUser => exact persistOrRollback_of hindex hplan fun r a' h => .of_deleteUser h
  | createInvitation => exact persistOrRollback_of hindex hplan fun r a' h => .of_createInvitation h
  | revokeInvitation => exact persistOrRollback_of hindex hplan fun r a' h => .of_revokeInvitation h
  | acceptCommit i env =>
    change P (s.finishAcceptance i env)
    unfold Service.finishAcceptance
    split
    · exact h0
    next acc hacc => exact persistOrRollback_of hindex hplan fun r a' h => .of_acceptCommit hacc h
  | provisionExternalUser =>
    exact persistOrRollback_of hindex hplan fun r a' h => .of_provisionExternalUser h
  | cleanup =>
    refine hplan _ (.ends fun t sess h => ?_)
    rw [lookup_filter, filter_eq_some_iff] at h
    exact h.1

end

end Cases

end Anubis.Auth
