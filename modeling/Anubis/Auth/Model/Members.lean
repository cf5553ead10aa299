import Anubis.Auth.Model.Directory

/-!
# The calls of the member directory

`internal/auth/users.go` from `CreateUser` on. A call is a sequence of checks
and the changed state with the answer; `persistOrRollbackLocked` then saves it.
`AcceptInvitation` looks the invitation up, lets the lock go to check or hash
the password, and commits with the lock again.
-/

namespace Anubis.Auth

open Checked

/-- `api.CreateUserRequest`. -/
structure CreateUserRequest where
  email : String
  name : String
  password : String
  role : MemberRole

/-- `api.MemberUpdate`. -/
structure MemberUpdate where
  role : Option MemberRole
  disabled : Option Bool
  name : Option String

/-- `api.MemberChange`. -/
structure MemberChange where
  member : Member
  revoked : Bool

/-- What `AcceptInvitation` takes from its first part into its second. -/
structure Acceptance where
  tokenHash : String
  name : String
  existing : Bool
  existingHash : String
  /-- `pw`, empty for an account that exists. -/
  pw : String
deriving DecidableEq

/-- No role means viewer. -/
def roleOrViewer (role : MemberRole) : MemberRole :=
  if role = .other "" then .viewer else role

/-- The refusal of another account. -/
def accountsError : AuthError :=
  .conflict ("this server holds at most " ++ toString maxAccounts ++ " accounts")

/-- A name that has to be given. -/
def checkName (name : String) : Except AuthError Unit :=
  refuseIf (name = "" ∨ maxNameLength < name.utf8ByteSize)
    (.validation "name" ("name must be 1-" ++ toString maxNameLength ++ " characters"))

namespace MemberUpdate

variable (update : MemberUpdate)

/-- The name that is asked for. -/
def newName : String := trimSpace (update.name.getD "")

/-- The role the member is to have. -/
def newRole (current : MemberRole) : MemberRole := update.role.getD current

/-- Whether the account is to be disabled. -/
def newDisabled (rec : AccountRecord) : Bool := update.disabled.getD rec.disabled

/-- `revoke` of `UpdateMember`: the sessions of the account end. -/
def revokes (rec : AccountRecord) (current : MemberRole) : Bool :=
  (update.newRole current ≠ current && !strictUpgrade current (update.newRole current)) ||
    (update.newDisabled rec ≠ rec.disabled && update.newDisabled rec)

end MemberUpdate

namespace LocalAuthenticator

variable (a : LocalAuthenticator)

/-- An account, new or changed. -/
def addAccount (id : String) (user : User) (rec : AccountRecord) : LocalAuthenticator :=
  { a with users := a.users.insert id user, accounts := a.accounts.insert id rec }

/-- `CreateUser`. -/
def createUser (S : Setup) (env : Env) (actor : Actor) (req : CreateUserRequest) :
    Except AuthError (Member × LocalAuthenticator) := do
  let email := trimSpace req.email
  validateEmail email
  let name := trimSpace req.name
  refuseIf (maxNameLength < name.utf8ByteSize)
    (.validation "name" ("name must be at most " ++ toString maxNameLength ++ " characters"))
  let role := roleOrViewer req.role
  refuseIf (!validMemberRole role) roleError
  whenever (req.password ≠ "") (checkPassword req.password)
  let (ws, actorRole) ← a.actorLocked actor
  refuseIf (!roleWithin role actorRole) (grantError role actorRole)
  refuseIf (a.findByEmailLocked env.begins.1 email).isSome errEmailUnavailable
  refuseIf (req.password = "")
    (.validation "password" "an initial password is required (or send an invitation)")
  refuseIf (maxAccounts ≤ a.users.entries.length) accountsError
  a.checkMemberQuotaLocked S ws env.now
  let localPart := ((splitLastAt email.toList).map Prod.fst).getD []
  let user := newUser env.now email (if name = "" then .ofList localPart else name) role ws
  let changed := a.addAccount env.id user
    { newRecord env.now env.hash .sourceLocal ws role with mustChangePassword := true }
  .ok (changed.memberViewLocked env.id user ws, changed)

/-- The checks of `UpdateMember` after it has found the member. -/
def checkUpdate (actor : Actor) (userID : String) (user : User) (rec : AccountRecord) (ws : String)
    (actorRole current : MemberRole) (update : MemberUpdate) : Except AuthError Unit := do
  whenever update.name.isSome (checkName update.newName)
  whenever (update.name.isSome ∧ userID ≠ actorID actor) (a.accountScopeLocked actor rec ws)
  let next := update.newRole current
  whenever (next ≠ current) (refuseIf (!validMemberRole next) roleError)
  whenever (next ≠ current) (refuseIf (!roleWithin next actorRole) (grantError next actorRole))
  whenever (next ≠ current) (refuseIf (current = .owner ∧ a.ownersLocked ws userID = 0)
    (lastOwnerError ws))
  let disabled := update.newDisabled rec
  whenever (disabled ≠ rec.disabled ∧ disabled) (a.accountWideLocked actor userID user rec ws)
  whenever (disabled ≠ rec.disabled ∧ !disabled) (a.accountScopeLocked actor rec ws)

/-- The identity after `UpdateMember`. -/
def updatedUser (user : User) (update : MemberUpdate) : User :=
  if update.name.isSome then { user with name := update.newName } else user

/-- The record after `UpdateMember`. -/
def updatedRecord (env : Env) (rec : AccountRecord) (ws : String) (current : MemberRole)
    (update : MemberUpdate) : AccountRecord :=
  { rec with
    memberships :=
      if update.newRole current ≠ current then rec.memberships.insert ws (update.newRole current)
      else rec.memberships
    disabled := update.newDisabled rec
    updatedAt := env.now }

/-- `UpdateMember`. -/
def updateMember (env : Env) (actor : Actor) (userID : String) (update : MemberUpdate) :
    Except AuthError (MemberChange × LocalAuthenticator) := do
  let (ws, actorRole) ← a.actorLocked actor
  let (user, rec, current) ← a.targetLocked ws actorRole userID
  a.checkUpdate actor userID user rec ws actorRole current update
  let changed := a.addAccount userID (updatedUser user update)
    (updatedRecord env rec ws current update)
  let revoke := update.revokes rec current
  let changed := if revoke then changed.revokeUserSessionsLocked userID else changed
  .ok (⟨changed.memberViewLocked userID (updatedUser user update) ws, revoke⟩, changed)

/-- The change of `RemoveMember`: an account without any workspace is deleted. -/
def withoutMember (env : Env) (userID : String) (user : User) (rec : AccountRecord) (ws : String) :
    LocalAuthenticator :=
  let left := rec.memberships.erase ws
  match sortedWorkspaces left with
  | [] => a.deleteAccountLocked userID user
  | first :: _ =>
    a.addAccount userID
      (if workspaceOrDefault user.workspace = ws then { user with workspace := first } else user)
      { rec with memberships := left, updatedAt := env.now }

/-- `RemoveMember`. -/
def removeMember (env : Env) (actor : Actor) (userID : String) :
    Except AuthError (MemberChange × LocalAuthenticator) := do
  let (ws, actorRole) ← a.actorLocked actor
  let (user, rec, role) ← a.targetLocked ws actorRole userID
  refuseIf (role = .owner ∧ a.ownersLocked ws userID = 0) (lastOwnerError ws)
  refuseIf (a.isConfiguredAdminLocked (some user) ∧ rec.memberships.keys.length = 1)
    (.forbidden
      ("the configured administrator (auth.local.admin_email) cannot be removed from its " ++
      "last workspace"))
  .ok (⟨a.memberViewLocked userID user ws, true⟩,
    (a.withoutMember env userID user rec ws).revokeUserSessionsLocked userID)

/-- `DeleteUser`. -/
def deleteUser (actor : Actor) (userID : String) :
    Except AuthError (MemberChange × LocalAuthenticator) := do
  let (ws, actorRole) ← a.actorLocked actor
  let (user, rec, _) ← a.targetLocked ws actorRole userID
  a.accountWideLocked actor userID user rec ws
  .ok (⟨a.memberViewLocked userID user ws, true⟩,
    (a.deleteAccountLocked userID user).revokeUserSessionsLocked userID)

/-- `CreateInvitation`. -/
def createInvitation (S : Setup) (env : Env) (actor : Actor) (email : String) (role : MemberRole) :
    Except AuthError ((InvitationRecord × String) × LocalAuthenticator) := do
  let email := trimSpace email
  validateEmail email
  let role := roleOrViewer role
  refuseIf (!validMemberRole role) roleError
  let (ws, actorRole) ← a.actorLocked actor
  refuseIf (!roleWithin role actorRole) (grantError role actorRole)
  let existing := (a.findByEmailLocked env.begins.1 email).bind fun (id, _) => a.accounts.lookup id
  refuseIf (existing.any fun rec => (rec.memberships.lookup ws).isSome)
    (.conflict "this account is already a member of the workspace")
  let pending := (a.invitations.filter fun _ inv => env.now < inv.expiresAt).filter
    fun _ inv => !(inv.workspace = ws && sameEmail inv.email email)
  refuseIf (maxPendingInvitations ≤ pending.entries.length)
    (.conflict ("at most " ++ toString maxPendingInvitations ++
      " invitations may be pending; revoke some first"))
  { a with invitations := pending }.checkMemberQuotaLocked S ws env.now
  let inv : InvitationRecord :=
    { email := email
      role := role
      workspace := ws
      tokenHash := S.hashInviteToken env.token
      invitedBy := (actor.map fun who => who.2.email).getD ""
      invitedByID := actorID actor
      createdAt := env.now
      expiresAt := env.now + invitationLifetime }
  .ok ((inv, env.token), { a with invitations := pending.insert env.id inv })

/-- `RevokeInvitation`. -/
def revokeInvitation (actor : Actor) (id : String) :
    Except AuthError (Unit × LocalAuthenticator) := do
  let (ws, actorRole) ← a.actorLocked actor
  match a.invitations.lookup id with
  | none => .error (.notFound "invitation" id)
  | some inv =>
    refuseIf (inv.workspace ≠ ws) (.notFound "invitation" id)
    refuseIf (!roleWithin inv.role actorRole)
      (.forbidden ("you cannot revoke an invitation for role " ++ inv.role.name.quote ++
        " above your own role " ++
        actorRole.name.quote))
    .ok ((), { a with invitations := a.invitations.erase id })

/-- `findInvitationLocked`. -/
def findInvitationLocked (begin : ℕ) (hash : String) : Option (String × InvitationRecord) :=
  (a.invitations.range begin).find? fun (_, inv) => inv.tokenHash = hash

/-- `inviterValidLocked`. -/
def inviterValidLocked (inv : InvitationRecord) : Bool :=
  match a.users.lookup inv.invitedByID, a.accounts.lookup inv.invitedByID with
  | some inviter, some _ =>
    inv.invitedByID ≠ "" &&
      match a.resolveLocked inv.invitedByID { inviter with workspace := inv.workspace } with
      | .error _ => false
      | .ok resolved =>
        resolved.workspace = inv.workspace && resolved.role.can "members:*" &&
          roleWithin inv.role resolved.role
  | _, _ => false

/-- The invitation with a token, if it is good. -/
def validInvitation (env : Env) (tokenHash : String) :
    Except AuthError (String × InvitationRecord) :=
  match a.findInvitationLocked env.begins.1 tokenHash with
  | none => .error errInvalidInvitation
  | some (id, inv) =>
    if env.now < inv.expiresAt ∧
      a.inviterValidLocked inv then .ok (id, inv) else .error errInvalidInvitation

/-- `AcceptInvitation` up to where it takes the lock again. -/
def acceptLookup (S : Setup) (env : Env) (token name password : String) :
    Except AuthError Acceptance := do
  let name := trimSpace name
  refuseIf (token = "") errInvalidInvitation
  let (_, inv) ← a.validInvitation env (S.hashInviteToken token)
  let existing := (a.findByEmailLocked env.begins.1 inv.email).isSome
  let existingHash := a.passwordHashForLocked env.begins.2.1 inv.email
  whenever existing (refuseIf (existingHash = "" ∨ !S.comparePassword existingHash password)
    (.validation "password"
      "this address already has an account; enter its current password to accept"))
  whenever (!existing) (checkName name)
  whenever (!existing) (checkPassword password)
  .ok
    { tokenHash := S.hashInviteToken token
      name := name
      existing := existing
      existingHash := existingHash
      pw := if existing then "" else env.hash }

/-- The record of an account that has joined a workspace. -/
def joinedRecord (env : Env) (rec : AccountRecord) (inv : InvitationRecord) : AccountRecord :=
  { rec with
    memberships :=
      if (rec.memberships.lookup inv.workspace).isSome then rec.memberships
      else rec.memberships.insert inv.workspace inv.role
    updatedAt := env.now }

/-- `AcceptInvitation` with the lock taken again. -/
def acceptCommit (env : Env) (acc : Acceptance) :
    Except AuthError (Member × LocalAuthenticator) := do
  let (invID, inv) ← a.validInvitation env acc.tokenHash
  let changedError := AuthError.conflict "the account changed while accepting; try again"
  let accept (id : String) (user : User) (changed : LocalAuthenticator) :
    Member × LocalAuthenticator :=
    (changed.memberViewLocked id user inv.workspace,
      { changed with invitations := a.invitations.erase invID })
  match a.findByEmailLocked env.begins.1 inv.email with
  | some (id, user) =>
    match a.accounts.lookup id with
    | none => .error changedError
    | some rec =>
      refuseIf (!acc.existing ∨ a.passwordHashForLocked env.begins.2.1 inv.email ≠ acc.existingHash)
        changedError
      refuseIf rec.disabled errInvalidInvitation
      .ok (accept id user { a with accounts := a.accounts.insert id (joinedRecord env rec inv) })
  | none =>
    refuseIf acc.existing changedError
    refuseIf (maxAccounts ≤ a.users.entries.length) accountsError
    let user := newUser env.now inv.email acc.name inv.role inv.workspace
    .ok (accept env.id user
      (a.addAccount env.id user (newRecord env.now acc.pw .sourceLocal inv.workspace inv.role)))

/-- The identity with the name the provider gives, if it can be used. -/
def signedInUser (user : User) (name : String) : User :=
  if name ≠ "" ∧ name ≠ user.name ∧
    name.utf8ByteSize ≤ maxNameLength then { user with name := name } else user

/-- `ProvisionExternalUser`. What it returns is resolved after saving. -/
def provisionExternalUser (S : Setup) (env : Env) (email name : String) (source : Source) :
    Except AuthError (Except AuthError User × LocalAuthenticator) := do
  let email := trimSpace email
  match validateEmail email with
  | .error e => .error (.plain ("identity email refused: " ++ e.message))
  | .ok () =>
    match a.findByEmailLocked env.begins.1 email with
    | some (id, user) =>
      match a.accounts.lookup id with
      | none => .error (.plain "an account with this email already signs in with another method")
      | some rec =>
        refuseIf (rec.source ≠ source)
          (.plain "an account with this email already signs in with another method")
        refuseIf rec.disabled errAccountDisabled
        let user := signedInUser user name
        let changed := a.addAccount id user { rec with lastLoginAt := some env.now }
        .ok (changed.resolveLocked id user, changed)
    | none =>
      refuseIf (maxAccounts ≤ a.users.entries.length)
        (.plain ("this server holds at most " ++ toString maxAccounts ++ " accounts"))
      a.checkMemberQuotaLocked S "default" env.now
      let user := newUser env.now email (if name = "" ∨
        maxNameLength < name.utf8ByteSize then email else name)
        .viewer "default"
      let changed := a.addAccount env.id user
        { newRecord env.now "" source "default" .viewer with lastLoginAt := some env.now }
      .ok (changed.resolveLocked env.id user, changed)

end LocalAuthenticator

end Anubis.Auth
