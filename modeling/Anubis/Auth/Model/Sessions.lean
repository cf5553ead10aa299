import Anubis.Auth.Model.Members
import Anubis.Common.Runs

/-!
# Sessions, passwords and the running authenticator

`internal/auth/local.go` from `Authenticate` on, and the authenticator as a
system: one call after another holds the lock, while logins and acceptances
that have verified a password wait for it.

A login reads the credential index without the lock, compares the password, and
finishes with the lock. Random values (IDs, session tokens, bcrypt hashes with
their salt) do not come twice. Each session is marked with the hash that its
login verified and the moments at which the login read the index and installed
it; the program does not have these marks.
-/

namespace Anubis.Auth

open Checked

/-- `maxSessionsPerUser`. -/
def maxSessionsPerUser : ℕ := 10

/-- `maxSessions`. -/
def maxSessions : ℕ := 200

/-- `maxResetTokens`. -/
def maxResetTokens : ℕ := 20

/-- The refusal of a login. -/
def invalidCredentials : AuthError := .plain "invalid credentials"

/-- The first of the entries that expire first. -/
def oldest {V : Type} (expiresAt : V → ℤ) (entries : List (String × V)) : Option String :=
  (entries.foldl
    (fun found entry =>
      match found with
      | none => some entry
      | some best => if expiresAt entry.2 < expiresAt best.2 then some entry else some best)
    none).map Prod.fst

/-- Deletes the entry that expires first among those with a property. -/
def evictOldest {V : Type} (expiresAt : V → ℤ) (among : V → Bool) (entries : Dict String V) :
    Dict String V :=
  match oldest expiresAt ((entries.range 0).filter fun entry => among entry.2) with
  | some key => entries.erase key
  | none => entries

/-- `capSessionsLocked`: evicts as often as there is one too many. -/
def capSessionsLocked (tokens : Dict String Session) (userID : String) (now : ℤ) :
    Dict String Session :=
  let live := tokens.filter fun _ sess => now ≤ sess.expiresAt
  let mine := (live.range 0).countP fun (_, sess) => sess.userID = userID
  let tokens := (evictOldest Session.expiresAt fun sess =>
    sess.userID = userID)^[mine - (maxSessionsPerUser - 1)] live
  (evictOldest Session.expiresAt fun _ => true)^[tokens.entries.length - (maxSessions - 1)] tokens

namespace LocalAuthenticator

variable (a : LocalAuthenticator)

/-- `Authenticate`. -/
def authenticate (now : ℤ) (token : String) :
    Except AuthError (String × User) × LocalAuthenticator :=
  match a.tokens.lookup token with
  | none => (.error (.plain "invalid token"), a)
  | some sess =>
    if sess.expiresAt < now then (.error (.plain "token expired"),
      { a with tokens := a.tokens.erase token })
    else
      match a.users.lookup sess.userID with
      | none => (.error (.plain "user not found"), a)
      | some user =>
        match a.resolveLocked sess.userID user with
        | .error e => (.error e, a)
        | .ok resolved => (.ok (sess.userID, resolved), a)

/-- `LoginFrom` before it takes the lock: the address and the hash that the
password was compared with. -/
def loginLookup (S : Setup) (email password : String) : Except AuthError (String × String) := do
  let email := normalizeEmail email
  refuseIf (password = "") invalidCredentials
  let expectedHash := (a.credIndex.lookup (normalizeEmail email)).getD ""
  refuseIf (expectedHash = "") invalidCredentials
  refuseIf (!S.comparePassword expectedHash password) invalidCredentials
  .ok (email, expectedHash)

/-- The identity a login opens a session for. The configured administrator is
given one if there is none. -/
def loginIdentity (env : Env) (email : String) : String × User × LocalAuthenticator :=
  match a.findByEmailLocked env.begins.1 email with
  | some (id, user) => (id, user, a)
  | none =>
    let user := newAdmin env.now a.adminEmail
    (env.id, user, { a with users := a.users.insert env.id user }.migrateDirectoryLocked)

/-- `LoginFrom` with the lock. -/
def loginFinish (env : Env) (email expectedHash : String) :
    Except AuthError ((String × User × String) × LocalAuthenticator) := do
  refuseIf (a.passwordHashForLocked env.begins.2.1 email ≠ expectedHash) invalidCredentials
  let (id, user, known) := a.loginIdentity env email
  match known.resolveLocked id user with
  | .error _ => .error invalidCredentials
  | .ok resolved =>
    .ok ((id, resolved, env.token),
      { known with
        accounts := known.accounts.modify id fun rec => { rec with lastLoginAt := some env.now }
        tokens := (capSessionsLocked known.tokens id env.now).insert env.token
          ⟨id, env.now + 24 * hour⟩ })

/-- `Logout`. -/
def logout (token : String) : Except AuthError (Unit × LocalAuthenticator) :=
  .ok ((), { a with tokens := a.tokens.erase token })

/-- The record of an account with a new password. The hash of the configured
administrator is not in its record. -/
def rehashed (now : ℤ) (user : User) (hash : String) (rec : AccountRecord) : AccountRecord :=
  { rec with
    passwordHash := if a.isConfiguredAdminLocked (some user) then rec.passwordHash else hash
    mustChangePassword := false
    updatedAt := now }

/-- `setPasswordHashLocked`. -/
def setPasswordHashLocked (now : ℤ) (id : String) (user : User) (hash : String) :
    LocalAuthenticator :=
  { a with
    adminPasswordHash := if a.isConfiguredAdminLocked (some user) then hash else a.adminPasswordHash
    accounts := a.accounts.modify id (a.rehashed now user hash) }

/-- `revokeCredentialsLocked`. -/
def revokeCredentialsLocked (id : String) (user : User) : LocalAuthenticator :=
  { a.revokeUserSessionsLocked id with
    resetTokens := a.resetTokens.filter fun _ rt => !sameEmail rt.email user.email }

/-- A new password ends the sessions and reset tokens of its account. -/
def replacePassword (env : Env) (id : String) (user : User) : LocalAuthenticator :=
  (a.setPasswordHashLocked env.now id user env.hash).revokeCredentialsLocked id user

/-- The checks of a new password. -/
def checkNewPassword (password : String) : Except AuthError Unit :=
  match validatePassword password with
  | some message => .error (.plain ("new password does not meet policy: " ++ message))
  | none =>
    refuseIf (72 < password.utf8ByteSize)
      (.plain "failed to hash new password: bcrypt: password length exceeds 72 bytes")

/-- `ChangePassword` for a session that has not expired. -/
def changePasswordFor (S : Setup) (env : Env) (sess : Session)
    (currentPassword newPassword : String) : Except AuthError (Unit × LocalAuthenticator) :=
  match a.users.lookup sess.userID with
  | none => .error (.plain "user not found")
  | some user => do
    let currentHash := a.passwordHashForLocked env.begins.1 user.email
    refuseIf (currentHash = "") (.plain "this account has no local password to change")
    refuseIf (!S.comparePassword currentHash currentPassword)
      (.plain "current password is incorrect")
    checkNewPassword newPassword
    .ok ((), a.replacePassword env sess.userID user)

/-- `ChangePassword`. -/
def changePassword (S : Setup) (env : Env) (token currentPassword newPassword : String) :
    Except AuthError Unit × LocalAuthenticator :=
  match a.tokens.lookup token with
  | none => (.error (.plain "invalid token"), a)
  | some sess =>
    if sess.expiresAt < env.now then (.error (.plain "token expired"),
      { a with tokens := a.tokens.erase token })
    else a.persistOrRollbackLocked env (a.changePasswordFor S env sess currentPassword newPassword)

/-- `RequestPasswordResetTo`, for an address that the index had. The answer is
the token and where to send it; both are empty if nothing is sent. -/
def requestPasswordResetTo (env : Env) (email : String) :
    Except AuthError (String × String) × LocalAuthenticator :=
  let hash := a.passwordHashForLocked env.begins.2.1 email
  let account :=
    match a.findByEmailLocked env.begins.1 email with
    | some (id, user) => some (user.email, a.accounts.lookup id)
    -- the configured administrator before the first login
    | none => if hash ≠ "" then some (a.adminEmail, a.accounts.lookup "") else none
  match account with
  | none => (.ok ("", ""), a)
  | some (address, rec) =>
    if hash = "" ∨ rec.any AccountRecord.disabled then (.ok ("", ""), a)
    else
      let pending := a.resetTokens.filter fun _ rt =>
        env.now ≤ rt.expiresAt && !sameEmail rt.email address
      let pending :=
        (evictOldest ResetToken.expiresAt fun _ => true)^[pending.entries.length -
          (maxResetTokens - 1)] pending
      a.persistOrRollbackLocked env
        (.ok ((env.token, address),
          { a with resetTokens := pending.insert env.token ⟨address, env.now + hour⟩ }))

/-- `ConfirmPasswordReset`. -/
def confirmPasswordReset (env : Env) (token newPassword : String) :
    Except AuthError Unit × LocalAuthenticator :=
  let spent : LocalAuthenticator := { a with resetTokens := a.resetTokens.erase token }
  match a.resetTokens.lookup token with
  | none => (.error (.plain "invalid reset token"), a)
  | some rt =>
    if rt.expiresAt < env.now then (.error (.plain "reset token expired"), spent)
    else
      match checkNewPassword newPassword with
      | .error e => (.error e, a)
      | .ok () =>
        match a.findByEmailLocked env.begins.1 rt.email with
        | some (id, user) =>
          let changed := a.replacePassword env id user
          a.persistOrRollbackLocked env
            (.ok ((), { changed with resetTokens := changed.resetTokens.erase token }))
        | none =>
          if sameEmail rt.email a.adminEmail then
            a.persistOrRollbackLocked env (.ok ((), { spent with adminPasswordHash := env.hash }))
          else (.error (.plain "invalid reset token"), spent)

/-- One round of `cleanupExpiredSessions`. -/
def cleanup (now : ℤ) : LocalAuthenticator :=
  { a with
    tokens := a.tokens.filter fun _ sess => now ≤ sess.expiresAt
    resetTokens := a.resetTokens.filter fun _ rt => now ≤ rt.expiresAt }

end LocalAuthenticator

/-! ## The system -/

/-- A login that has verified its password. -/
structure Login where
  email : String
  expectedHash : String
  /-- When it read the index. -/
  lookedUp : ℕ
deriving DecidableEq

/-- Where a session comes from. -/
structure Mark where
  /-- The hash that the password was compared with. -/
  verified : String
  lookedUp : ℕ
  installed : ℕ
deriving DecidableEq

/-- The authenticator and the calls that are under way. -/
structure Service where
  auth : LocalAuthenticator
  logins : List Login
  acceptances : List Acceptance
  /-- The number of events so far. -/
  clock : ℕ
  marks : Dict String Mark
  /-- The random values so far. -/
  drawn : List String

/-- What can happen. -/
inductive Event
  | loginLookup (email password : String)
  | loginFinish (i : ℕ) (env : Env)
  | authenticate (now : ℤ) (token : String)
  | logout (env : Env) (token : String)
  | changePassword (env : Env) (token currentPassword newPassword : String)
  | requestPasswordReset (env : Env) (email : String)
  | confirmPasswordReset (env : Env) (token newPassword : String)
  | createUser (env : Env) (actor : Actor) (req : CreateUserRequest)
  | updateMember (env : Env) (actor : Actor) (userID : String) (update : MemberUpdate)
  | removeMember (env : Env) (actor : Actor) (userID : String)
  | deleteUser (env : Env) (actor : Actor) (userID : String)
  | createInvitation (env : Env) (actor : Actor) (email : String) (role : MemberRole)
  | revokeInvitation (env : Env) (actor : Actor) (id : String)
  | acceptLookup (env : Env) (token name password : String)
  | acceptCommit (i : ℕ) (env : Env)
  | provisionExternalUser (env : Env) (email name : String) (source : Source)
  | cleanup (now : ℤ)

/-- What an event draws its random values from. -/
def Event.env : Event → Option Env
  | loginFinish _ env => some env
  | logout env _ => some env
  | changePassword env .. => some env
  | requestPasswordReset env _ => some env
  | confirmPasswordReset env .. => some env
  | createUser env .. => some env
  | updateMember env .. => some env
  | removeMember env .. => some env
  | deleteUser env .. => some env
  | createInvitation env .. => some env
  | revokeInvitation env .. => some env
  | acceptLookup env .. => some env
  | acceptCommit _ env => some env
  | provisionExternalUser env .. => some env
  | _ => none

/-- The call hashes a password and stores it at once. -/
def Event.hashes : Event → Bool
  | createUser .. => true
  | changePassword .. => true
  | confirmPasswordReset .. => true
  | _ => false

/-- The random values of a call. -/
def Env.draws (env : Env) : List String := [env.id, env.token, env.hash]

/-- No random value of an event has come before, and none is empty. -/
def Event.Fresh (drawn : List String) (e : Event) : Prop :=
  ∀ env ∈ e.env, ∀ x ∈ env.draws, x ≠ "" ∧ x ∉ drawn

instance (drawn : List String) (e : Event) : Decidable (e.Fresh drawn) :=
  inferInstanceAs (Decidable (∀ env ∈ e.env, ∀ x ∈ env.draws, x ≠ "" ∧ x ∉ drawn))

namespace Service

variable (S : Setup) (s : Service)

/-- The end of a login. -/
def finishLogin (i : ℕ) (env : Env) : LocalAuthenticator :=
  match s.logins[i]? with
  | none => s.auth
  | some login =>
    (s.auth.persistOrRollbackLocked env (s.auth.loginFinish env login.email login.expectedHash)).2

/-- The end of an acceptance. -/
def finishAcceptance (i : ℕ) (env : Env) : LocalAuthenticator :=
  match s.acceptances[i]? with
  | none => s.auth
  | some acc => (s.auth.persistOrRollbackLocked env (s.auth.acceptCommit env acc)).2

/-- The authenticator after an event. -/
def nextAuth : Event → LocalAuthenticator
  | .loginLookup .. => s.auth
  | .loginFinish i env => s.finishLogin i env
  | .authenticate now token => (s.auth.authenticate now token).2
  | .logout env token => (s.auth.persistOrRollbackLocked env (s.auth.logout token)).2
  | .changePassword env token currentPassword newPassword =>
    (s.auth.changePassword S env token currentPassword newPassword).2
  | .requestPasswordReset env email => (s.auth.requestPasswordResetTo env email).2
  | .confirmPasswordReset env token newPassword =>
    (s.auth.confirmPasswordReset env token newPassword).2
  | .createUser env actor req =>
    (s.auth.persistOrRollbackLocked env (s.auth.createUser S env actor req)).2
  | .updateMember env actor userID update =>
    (s.auth.persistOrRollbackLocked env (s.auth.updateMember env actor userID update)).2
  | .removeMember env actor userID =>
    (s.auth.persistOrRollbackLocked env (s.auth.removeMember env actor userID)).2
  | .deleteUser env actor userID =>
    (s.auth.persistOrRollbackLocked env (s.auth.deleteUser actor userID)).2
  | .createInvitation env actor email role =>
    (s.auth.persistOrRollbackLocked env (s.auth.createInvitation S env actor email role)).2
  | .revokeInvitation env actor id =>
    (s.auth.persistOrRollbackLocked env (s.auth.revokeInvitation actor id)).2
  | .acceptLookup .. => s.auth
  | .acceptCommit i env => s.finishAcceptance i env
  | .provisionExternalUser env email name source =>
    (s.auth.persistOrRollbackLocked env (s.auth.provisionExternalUser S env email name source)).2
  | .cleanup now => s.auth.cleanup now

/-- The logins under way after an event. -/
def nextLogins : Event → List Login
  | .loginLookup email password =>
    match s.auth.loginLookup S email password with
    | .ok (email, expectedHash) => s.logins ++ [⟨email, expectedHash, s.clock⟩]
    | .error _ => s.logins
  | .loginFinish i _ => s.logins.eraseIdx i
  | _ => s.logins

/-- The acceptances under way after an event. -/
def nextAcceptances : Event → List Acceptance
  | .acceptLookup env token name password =>
    match s.auth.acceptLookup S env token name password with
    | .ok acc => s.acceptances ++ [acc]
    | .error _ => s.acceptances
  | .acceptCommit i _ => s.acceptances.eraseIdx i
  | _ => s.acceptances

/-- The marks after an event. -/
def nextMarks : Event → Dict String Mark
  | .loginFinish i env =>
    match s.logins[i]? with
    | none => s.marks
    | some login => s.marks.insert env.token ⟨login.expectedHash, login.lookedUp, s.clock⟩
  | _ => s.marks

/-- One event. -/
def step (e : Event) : Option Service :=
  if e.Fresh s.drawn then
    some
      { auth := s.nextAuth S e
        logins := s.nextLogins S e
        acceptances := s.nextAcceptances S e
        clock := s.clock + 1
        marks := s.nextMarks e
        drawn := s.drawn ++ (e.env.map Env.draws).getD [] }
  else none

end Service

/-- The random values in a state. -/
def LocalAuthenticator.drawn (a : LocalAuthenticator) : List String :=
  a.users.keys ++ a.tokens.keys ++ (a.tokens.range 0).map (fun e => e.2.userID) ++
    a.adminPasswordHash :: (a.accounts.range 0).map fun e => e.2.passwordHash

/-- The server has started. -/
def Service.start (a : LocalAuthenticator) : Service where
  auth := a
  logins := []
  acceptances := []
  clock := 0
  marks := a.tokens.mapValues fun _ => ⟨"", 0, 0⟩
  drawn := a.drawn

/-- **The states of a server** that was started with a session file. -/
def Service.Reachable (S : Setup) (env : Env) (file : Option SessionFile)
    (adminEmail adminPassword : String) (s : Service) : Prop :=
  ∃ a, newLocalAuthenticator S env file adminEmail adminPassword = .ok a ∧
    Runs.Reachable (Service.step S) (fun _ => True) (Service.start a) s

/-- The states that can follow. -/
def Service.Later (S : Setup) (s s' : Service) : Prop :=
  Runs.Reachable (Service.step S) (fun _ => True) s s'

end Anubis.Auth
