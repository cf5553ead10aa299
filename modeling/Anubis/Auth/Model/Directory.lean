import Anubis.Common.Checked
import Anubis.Common.Dict
import Anubis.Common.Text
import Mathlib.Algebra.Group.Int.Defs
import Mathlib.Data.Int.Notation
import Mathlib.Data.List.Sort
import Mathlib.Order.Lex

/-!
# The member directory

The state of `LocalAuthenticator` and the functions that its calls share
(`internal/auth/local.go`, `internal/auth/users.go`, `internal/core/apikey.go`,
`internal/core/workspace.go`).

Identities and invitations are stored under their ID, so the ID is the key and
not a field again. Times are in nanoseconds. Going through a Go map begins
anywhere: what looks for one entry takes the place to begin as an argument.
Left out is the protection against guessing passwords, which refuses logins and
changes nothing else.
-/

namespace Anubis.Auth

export Text (isSpace trimSpace)

open Checked

/-! ## Roles -/

/-- `core.MemberRole`: a text, of which the program knows five. -/
inductive MemberRole
  | owner
  | admin
  | editor
  | viewer
  | api
  | other (name : String)
deriving DecidableEq, Repr

/-- The text of a role. -/
def MemberRole.name : MemberRole → String
  | owner => "owner"
  | admin => "admin"
  | editor => "editor"
  | viewer => "viewer"
  | api => "api"
  | other name => name

/-- `apiKeyRoleRank`, zero for a role that is not in the table. -/
def apiKeyRoleRank : MemberRole → ℕ
  | .viewer => 1
  | .api => 2
  | .editor => 3
  | .admin => 4
  | .owner => 5
  | .other _ => 0

/-- `RoleWithin`. -/
def roleWithin (role limit : MemberRole) : Bool :=
  0 < apiKeyRoleRank role && 0 < apiKeyRoleRank limit && apiKeyRoleRank role ≤ apiKeyRoleRank limit

/-- `validMemberRole`, which is `ValidAPIKeyRole`. -/
def validMemberRole (role : MemberRole) : Bool :=
  0 < apiKeyRoleRank role

/-- `strictUpgrade`. -/
def strictUpgrade (old next : MemberRole) : Bool :=
  roleWithin old next && !roleWithin next old

/-- The permissions `Can` looks through; the owner has all. -/
def MemberRole.permissions : MemberRole → List String
  | admin =>
    ["souls:*", "judgments:read", "channels:*", "rules:*", "members:*", "settings:read",
      "settings:write", "apikeys:*"]
  | editor => ["souls:*", "judgments:read", "channels:read", "rules:read"]
  | viewer => ["souls:read", "judgments:read", "channels:read", "rules:read"]
  | api => ["souls:*", "judgments:read", "api:*"]
  | _ => []

/-- `MemberRole.Can`. -/
def MemberRole.can (role : MemberRole) (permission : String) : Bool :=
  role = owner || role.permissions.any fun p =>
    p = "*" || p = permission ||
      ":*".toList.isSuffixOf p.toList && p.toList.dropLast.isPrefixOf permission.toList

/-! ## Errors -/

/-- The error types of `internal/core`, and plain errors. -/
inductive AuthError
  | forbidden (message : String)
  | validation (field message : String)
  | notFound (entity id : String)
  | conflict (message : String)
  | plain (message : String)
deriving DecidableEq, Repr

/-- `Error()`. -/
def AuthError.message : AuthError → String
  | forbidden message => if message = "" then "forbidden" else message
  | validation field message => "validation error: " ++ field ++ " — " ++ message
  | notFound entity id => entity ++ " not found: " ++ id
  | conflict message => message
  | plain message => message

/-- `errAccountDisabled`. -/
def errAccountDisabled : AuthError := .plain "account disabled"

/-- `errNoWorkspaceAccess`. -/
def errNoWorkspaceAccess : AuthError := .plain "account has no workspace access"

/-- `errEmailUnavailable`. -/
def errEmailUnavailable : AuthError :=
  .conflict "this email cannot be used for a new account; send an invitation instead"

/-- `errInvalidInvitation`. -/
def errInvalidInvitation : AuthError := .validation "token" "invalid or expired invitation"

/-- `lastOwnerError`. -/
def lastOwnerError (ws : String) : AuthError :=
  .conflict ("workspace " ++ ws.quote ++ " must keep at least one enabled owner")

/-- The refusal to grant a role above the actor's. -/
def grantError (role actorRole : MemberRole) : AuthError :=
  .forbidden ("you cannot grant role " ++ role.name.quote ++ " above your own role " ++
    actorRole.name.quote)

/-- The refusal of an unknown role. -/
def roleError : AuthError :=
    .validation "role" "role must be one of owner, admin, editor, api, viewer"

/-! ## Addresses, names and passwords -/

/-- `maxAccounts`. -/
def maxAccounts : ℕ := 150

/-- `maxPendingInvitations`. -/
def maxPendingInvitations : ℕ := 25

/-- One hour. -/
def hour : ℤ := 3600 * 10 ^ 9

/-- `invitationLifetime`. -/
def invitationLifetime : ℤ := 7 * 24 * hour

/-- `maxNameLength`. -/
def maxNameLength : ℕ := 100

/-- `maxEmailLength`. -/
def maxEmailLength : ℕ := 254

/-- `minPasswordLength`. -/
def minPasswordLength : ℕ := 12

/-- `normalizeEmail`. -/
@[irreducible]
def normalizeEmail (email : String) : String :=
  .ofList ((trimSpace email).toList.map Char.toLower)

/-- `sameEmail`. -/
def sameEmail (a b : String) : Bool :=
  normalizeEmail a ≠ "" && normalizeEmail a = normalizeEmail b

/-- What stands before and after the last `@`. -/
def splitLastAt (email : List Char) : Option (List Char × List Char) :=
  let domain := (email.reverse.takeWhile (· ≠ '@')).reverse
  if domain.length = email.length then none
  else some (email.take (email.length - domain.length - 1), domain)

/-- `validateEmail`. -/
def validateEmail (email : String) : Except AuthError Unit := do
  refuseIf (email = "" ∨ maxEmailLength < email.utf8ByteSize ∨
      email.toList.any fun c => c ∈ [' ', '\t', '\r', '\n', '<', '>', '"'])
    (.validation "email" "a valid email address is required")
  refuseIf (email.toList.any fun c => c.toNat < 0x21 || 0x7e < c.toNat)
    (.validation "email" "email addresses must be ASCII")
  refuseIf ((splitLastAt email.toList).all fun (name, domain) =>
    name = [] || domain = [] || '.' ∉ domain)
    (.validation "email" "a valid email address is required")

/-- The kinds of characters `validatePassword` counts. -/
def characterClasses (password : List Char) : ℕ :=
  let upper (c : Char) : Bool := 'A' ≤ c && c ≤ 'Z'
  let lower (c : Char) : Bool := 'a' ≤ c && c ≤ 'z'
  let digit (c : Char) : Bool := '0' ≤ c && c ≤ '9'
  let special (c : Char) : Bool := !upper c && !lower c && !digit c
  [upper, lower, digit, special].countP fun kind => password.any kind

/-- `validatePassword`: what is wrong with a password. -/
def validatePassword (password : String) : Option String :=
  if password.utf8ByteSize < minPasswordLength then
    some ("password must be at least " ++ toString minPasswordLength ++ " characters")
  else if characterClasses password.toList < 3 then
    some "password must contain at least 3 of: uppercase, lowercase, digits, special characters"
  else none

/-- `validatePassword` and `bcrypt.GenerateFromPassword`, which refuses more than
72 bytes, with the errors of a call that sets a first password. -/
def checkPassword (password : String) : Except AuthError Unit :=
  match validatePassword password with
  | some message => .error (.validation "password" message)
  | none =>
    refuseIf (72 < password.utf8ByteSize)
      (.plain "hash password: bcrypt: password length exceeds 72 bytes")

/-- `workspaceOrDefault`. -/
def workspaceOrDefault (ws : String) : String :=
  if ws = "" then "default" else ws

/-! ## The state -/

/-- `api.User` without its ID. -/
structure User where
  email : String
  name : String
  role : MemberRole
  workspace : String
  createdAt : ℤ
  apiKeyID : String
  mustChangePassword : Bool
deriving DecidableEq, Repr

/-- Where an account signs in. -/
inductive Source
  | sourceLocal
  | sourceOIDC
  | sourceLDAP
  | other (name : String)
deriving DecidableEq, Repr

/-- `accountRecord`. -/
structure AccountRecord where
  passwordHash : String
  /-- `Source`, which may be empty. -/
  storedSource : Option Source
  disabled : Bool
  mustChangePassword : Bool
  memberships : Dict String MemberRole
  updatedAt : ℤ
  lastLoginAt : Option ℤ
deriving DecidableEq

/-- `accountRecord.source`. -/
def AccountRecord.source (rec : AccountRecord) : Source :=
  rec.storedSource.getD .sourceLocal

/-- `invitationRecord` without its ID. -/
structure InvitationRecord where
  email : String
  role : MemberRole
  workspace : String
  tokenHash : String
  invitedBy : String
  invitedByID : String
  createdAt : ℤ
  expiresAt : ℤ
deriving DecidableEq

/-- `session`. -/
structure Session where
  userID : String
  expiresAt : ℤ
deriving DecidableEq

/-- `resetToken`. -/
structure ResetToken where
  email : String
  expiresAt : ℤ
deriving DecidableEq

/-- `LocalAuthenticator`: what `a.mu` guards, and the credential index. -/
structure LocalAuthenticator where
  tokens : Dict String Session
  users : Dict String User
  adminEmail : String
  adminPasswordHash : String
  resetTokens : Dict String ResetToken
  accounts : Dict String AccountRecord
  invitations : Dict String InvitationRecord
  credIndex : Dict String String
deriving DecidableEq

/-- What is installed from outside the package. -/
structure Setup where
  /-- `bcrypt.CompareHashAndPassword` succeeds. -/
  comparePassword : String → String → Bool
  /-- `hashInviteToken`, a SHA-256. -/
  hashInviteToken : String → String
  /-- `memberQuota`: why there is no room for another member. -/
  memberQuota : String → ℕ → Option AuthError

/-- How `saveSessionsLocked` ends. -/
inductive Saving
  | saved
  | failed
  /-- The new file is in place, but its directory could not be synced. -/
  | renamed
deriving DecidableEq, Repr

/-- What a call meets while it holds the lock. -/
structure Env where
  now : ℤ
  /-- The next `generateID`. -/
  id : String
  /-- The next `generateToken`. -/
  token : String
  /-- The next hash of `bcrypt.GenerateFromPassword`. -/
  hash : String
  saving : Saving
  /-- Where it begins to look for an address, the second time, and where it
  begins to rebuild the index. -/
  begins : ℕ × ℕ × ℕ

/-- The identity of a new account. -/
def newUser (now : ℤ) (email name : String) (role : MemberRole) (ws : String) : User where
  email := email
  name := name
  role := role
  workspace := ws
  createdAt := now
  apiKeyID := ""
  mustChangePassword := false

/-- The identity of the configured administrator. -/
def newAdmin (now : ℤ) (adminEmail : String) : User :=
  newUser now adminEmail "Administrator" .admin "default"

/-- The record of a new account. -/
def newRecord (now : ℤ) (hash : String) (source : Source) (ws : String) (role : MemberRole) :
    AccountRecord where
  passwordHash := hash
  storedSource := some source
  disabled := false
  mustChangePassword := false
  memberships := .singleton ws role
  updatedAt := now
  lastLoginAt := none

/-- Who makes a call, with the ID. -/
abbrev Actor := Option (String × User)

/-- The ID of the actor. -/
def actorID (actor : Actor) : String :=
  (actor.map Prod.fst).getD ""

/-- `api.Member`. -/
structure Member where
  id : String
  email : String
  name : String
  role : MemberRole
  workspace : String
  source : Source
  disabled : Bool
  mustChangePassword : Bool
  configuredAdmin : Bool
  createdAt : ℤ
  updatedAt : ℤ
  lastLoginAt : Option ℤ
deriving DecidableEq

/-! ## Shared functions -/

/-- `sortedWorkspaces`. -/
def sortedWorkspaces (memberships : Dict String MemberRole) : List String :=
  memberships.keys.insertionSort (· ≤ ·)

namespace LocalAuthenticator

variable (a : LocalAuthenticator)

/-- `isConfiguredAdminLocked`. -/
def isConfiguredAdminLocked (user : Option User) : Bool :=
  user.any fun u => sameEmail u.email a.adminEmail

/-- `findByEmailLocked`. -/
def findByEmailLocked (begin : ℕ) (email : String) : Option (String × User) :=
  if normalizeEmail email = "" then none
  else (a.users.range begin).find? fun (_, u) => normalizeEmail u.email = normalizeEmail email

/-- `passwordHashForLocked`. -/
def passwordHashForLocked (begin : ℕ) (email : String) : String :=
  if sameEmail email a.adminEmail then a.adminPasswordHash
  else
    match a.findByEmailLocked begin email with
    | none => ""
    | some (id, _) =>
      match a.accounts.lookup id with
      | none => ""
      | some rec => if rec.source = .sourceLocal then rec.passwordHash else ""

/-- The record `migrateDirectoryLocked` gives an identity. -/
def migratedRecord (u : User) : AccountRecord :=
  if a.isConfiguredAdminLocked (some u) then newRecord u.createdAt "" .sourceLocal "default" .owner
  else
    newRecord u.createdAt "" .sourceLocal (workspaceOrDefault u.workspace)
      (if validMemberRole u.role then u.role else .viewer)

/-- `migrateDirectoryLocked`. -/
def migrateDirectoryLocked : LocalAuthenticator :=
  { a with
    accounts := (a.accounts.filter fun id _ => (a.users.lookup id).isSome).insertNew
      ((a.users.range 0).map fun (id, u) => (id, a.migratedRecord u)) }

/-- The credential of one account, if it has one here. -/
def indexAccount (index : Dict String String) (entry : String × AccountRecord) :
    Dict String String :=
  match a.users.lookup entry.1 with
  | some u =>
    if entry.2.source = .sourceLocal ∧ entry.2.passwordHash ≠ "" then
      index.insert (normalizeEmail u.email) entry.2.passwordHash
    else index
  | none => index

/-- `refreshCredIndexLocked`. -/
def refreshCredIndexLocked (begin : ℕ) : LocalAuthenticator :=
  let index := (a.accounts.range begin).foldl a.indexAccount ∅
  { a with
    credIndex :=
      if a.adminEmail ≠ "" ∧ a.adminPasswordHash ≠ "" then
        index.insert (normalizeEmail a.adminEmail) a.adminPasswordHash
      else index }

/-- `resolveLocked`. -/
def resolveLocked (id : String) (u : User) : Except AuthError User :=
  match a.accounts.lookup id with
  | none => .ok u
  | some rec =>
    if rec.disabled then .error errAccountDisabled
    else
      let ws := workspaceOrDefault u.workspace
      let resolved (ws : String) (role : MemberRole) : User :=
        { u with workspace := ws, role := role, mustChangePassword := rec.mustChangePassword }
      match rec.memberships.lookup ws with
      | some role => .ok (resolved ws role)
      | none =>
        if a.isConfiguredAdminLocked (some u) then .ok (resolved ws .owner)
        else
          match sortedWorkspaces rec.memberships with
          | first :: _ => .ok (resolved first ((rec.memberships.lookup first).getD (.other "")))
          | [] => .error errNoWorkspaceAccess

/-- `revokeUserSessionsLocked`. -/
def revokeUserSessionsLocked (userID : String) : LocalAuthenticator :=
  { a with tokens := a.tokens.filter fun _ sess => sess.userID ≠ userID }

/-- `ownersLocked`. -/
def ownersLocked (ws skipID : String) : ℕ :=
  (a.accounts.range 0).countP fun (id, rec) =>
    id ≠ skipID && !rec.disabled && rec.memberships.lookup ws = some .owner

/-- `membersLocked`. -/
def membersLocked (ws : String) (now : ℤ) : ℕ :=
  ((a.accounts.range 0).countP fun (_, rec) => (rec.memberships.lookup ws).isSome) +
    (a.invitations.range 0).countP fun (_, inv) => inv.workspace = ws && now < inv.expiresAt

/-- `checkMemberQuotaLocked`. -/
def checkMemberQuotaLocked (S : Setup) (ws : String) (now : ℤ) : Except AuthError Unit :=
  match S.memberQuota ws (a.membersLocked ws now) with
  | some e => .error e
  | none => .ok ()

/-- `actorLocked`: the workspace the actor acts in and the role there. -/
def actorLocked (actor : Actor) : Except AuthError (String × MemberRole) :=
  match actor with
  | none => .error (.forbidden "an authenticated user is required")
  | some (id, user) =>
    if id = "" then .error (.forbidden "an authenticated user is required")
    else if user.apiKeyID ≠ "" then .error (.forbidden "API keys cannot manage members")
    else
      match a.users.lookup id with
      | none => .error (.forbidden "only accounts in this directory can manage members")
      | some stored =>
        let view := if user.workspace ≠
          "" then { stored with workspace := user.workspace } else stored
        match a.resolveLocked id view with
        | .error e => .error (.forbidden e.message)
        | .ok resolved =>
          if !resolved.role.can "members:*" then
            .error (.forbidden ("role " ++ resolved.role.name.quote ++ " cannot manage members"))
          else .ok (resolved.workspace, resolved.role)

/-- `memberViewLocked`. -/
def memberViewLocked (id : String) (u : User) (ws : String) : Member :=
  let rec? := a.accounts.lookup id
  { id := id
    email := u.email
    name := u.name
    role := (rec?.bind fun rec => rec.memberships.lookup ws).getD (.other "")
    workspace := ws
    source := (rec?.map AccountRecord.source).getD .sourceLocal
    disabled := rec?.any AccountRecord.disabled
    mustChangePassword := rec?.any AccountRecord.mustChangePassword
    configuredAdmin := a.isConfiguredAdminLocked (some u)
    createdAt := u.createdAt
    updatedAt := (rec?.map AccountRecord.updatedAt).getD 0
    lastLoginAt := rec?.bind AccountRecord.lastLoginAt }

/-- `targetLocked`. -/
def targetLocked (ws : String) (actorRole : MemberRole) (userID : String) :
    Except AuthError (User × AccountRecord × MemberRole) :=
  match a.users.lookup userID, a.accounts.lookup userID with
  | some user, some rec =>
    match rec.memberships.lookup ws with
    | none => .error (.notFound "member" userID)
    | some role =>
      if !roleWithin role actorRole then
        .error (.forbidden ("you cannot manage a member whose role " ++ role.name.quote ++
          " is above your own role " ++
          actorRole.name.quote))
      else .ok (user, rec, role)
  | _, _ => .error (.notFound "member" userID)

/-- `accountScopeLocked`. -/
def accountScopeLocked (actor : Actor) (rec : AccountRecord) (ws : String) :
    Except AuthError Unit :=
  refuseIf (!a.isConfiguredAdminLocked (a.users.lookup (actorID actor)) ∧
    ∃ other ∈ rec.memberships.keys, other ≠ ws)
    (.forbidden ("this account also belongs to other workspaces; only the account itself or the " ++
      "configured administrator can change it"))

/-- `accountWideLocked`. -/
def accountWideLocked (actor : Actor) (userID : String) (user : User) (rec : AccountRecord)
    (ws : String) :
    Except AuthError Unit := do
  refuseIf (userID = actorID actor) (.forbidden "you cannot disable or delete your own account")
  refuseIf (a.isConfiguredAdminLocked (some user))
    (.forbidden
      "the configured administrator (auth.local.admin_email) cannot be disabled or deleted")
  refuseIf (!a.isConfiguredAdminLocked (a.users.lookup (actorID actor)) ∧
    ∃ other ∈ rec.memberships.keys, other ≠ ws)
    (.forbidden
      "this account also belongs to other workspaces; remove it from this workspace instead")
  match (rec.memberships.range 0).find? fun (other, role) =>
    role = .owner && a.ownersLocked other userID = 0 with
  | some (other, _) => .error (lastOwnerError other)
  | none => .ok ()

/-- `deleteAccountLocked`. -/
def deleteAccountLocked (userID : String) (user : User) : LocalAuthenticator :=
  { a with
    users := a.users.erase userID
    accounts := a.accounts.erase userID
    resetTokens := a.resetTokens.filter fun _ rt => !sameEmail rt.email user.email }

/-- `persistOrRollbackLocked`: the state a call leaves and what it returns. A call
that refuses has changed nothing. -/
def persistOrRollbackLocked {α : Type} (env : Env)
    (change : Except AuthError (α × LocalAuthenticator)) :
    Except AuthError α × LocalAuthenticator :=
  match change with
  | .error e => (.error e, a)
  | .ok (result, changed) =>
    match env.saving with
    | .saved => (.ok result, changed.refreshCredIndexLocked env.begins.2.2)
    | .failed =>
      (.error (.plain "persist authentication state"), a.refreshCredIndexLocked env.begins.2.2)
    | .renamed =>
      (.error (.plain "authentication state renamed but directory sync failed"),
        changed.refreshCredIndexLocked env.begins.2.2)

end LocalAuthenticator

/-! ## Starting -/

/-- `sessionData`, as it is read from the session file. -/
structure SessionFile where
  tokens : Dict String Session
  users : Dict String User
  resetTokens : Dict String ResetToken
  adminEmail : String
  adminPasswordHash : String
  adminSeedHash : String
  accounts : Dict String AccountRecord
  invitations : Dict String InvitationRecord

/-- The text is a bcrypt hash already. -/
def isBcryptHash (password : String) : Bool :=
  ["$2a$", "$2b$", "$2y$"].any fun version => version.toList.isPrefixOf password.toList

/-- `configPasswordMatchesSeed`. -/
def configPasswordMatchesSeed (S : Setup) (seed configured : String) : Bool :=
  if seed = "" then true
  else if configured = "" then false
  else if isBcryptHash configured then configured = seed
  else S.comparePassword seed configured

/-- `loadSessions`, with the hash of the configured password. No file means that
there is none or that it cannot be decoded. -/
def loadSessions (S : Setup) (now : ℤ) (file : Option SessionFile)
    (adminEmail adminPassword hash : String) : LocalAuthenticator :=
  match file with
  | none => ⟨∅, ∅, adminEmail, hash, ∅, ∅, ∅, ∅⟩
  | some data =>
    { tokens := data.tokens.filter fun _ sess => now < sess.expiresAt
      users := data.users
      adminEmail := adminEmail
      adminPasswordHash :=
        if data.adminPasswordHash ≠ "" ∧ data.adminEmail = adminEmail ∧
            configPasswordMatchesSeed S data.adminSeedHash adminPassword then data.adminPasswordHash
        else hash
      resetTokens := data.resetTokens.filter fun _ rt => now < rt.expiresAt
      accounts := data.accounts.filter fun id _ => (data.users.lookup id).isSome
      invitations := data.invitations.filter fun _ inv => now < inv.expiresAt
      credIndex := ∅ }

/-- `hasUserWithEmail`. -/
def LocalAuthenticator.hasUserWithEmail (a : LocalAuthenticator) (email : String) : Bool :=
  (a.users.range 0).any fun (_, u) => u.email = email

/-- `NewLocalAuthenticator`. -/
def newLocalAuthenticator (S : Setup) (env : Env) (file : Option SessionFile)
    (adminEmail adminPassword : String) :
    Except AuthError LocalAuthenticator := do
  let plain := adminPassword ≠ "" ∧ !isBcryptHash adminPassword
  match if plain then validatePassword adminPassword else none with
  | some message => .error (.plain ("admin password policy violation: " ++ message))
  | none =>
    refuseIf (plain ∧ 72 < adminPassword.utf8ByteSize)
      (.plain "failed to hash admin password: bcrypt: password length exceeds 72 bytes")
    let a := loadSessions S env.now file adminEmail adminPassword
      (if plain then env.hash else adminPassword)
    let a :=
      if adminEmail ≠ "" ∧ adminPassword ≠ "" ∧ !a.hasUserWithEmail adminEmail then
        { a with users := a.users.insert env.id (newAdmin env.now adminEmail) }
      else a
    .ok (a.migrateDirectoryLocked.refreshCredIndexLocked env.begins.2.2)

end Anubis.Auth
