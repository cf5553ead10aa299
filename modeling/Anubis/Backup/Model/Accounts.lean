import Anubis.Auth.Helpers.Steps

/-!
# The accounts in a backup

`saveSessionsLocked` of `internal/auth/local.go` and the account section of an
archive (`authState`, `collectAuth` and `restoreAuth` of
`internal/backup/records.go`). The session file is a JSON object; what is decoded
into a structure that does not name a field loses the field.
-/

namespace Anubis

open Auth

/-- `saveSessionsLocked`: the session file of a state. -/
def Auth.LocalAuthenticator.saveSessionsLocked (a : LocalAuthenticator) (configSeedHash : String) :
    SessionFile where
  tokens := a.tokens
  users := a.users
  resetTokens := a.resetTokens
  adminEmail := a.adminEmail
  adminPasswordHash := a.adminPasswordHash
  adminSeedHash := configSeedHash
  accounts := a.accounts
  invitations := a.invitations

namespace Backup

/-- `authState`. -/
structure AuthState where
  users : Dict String User
  adminEmail : String
  adminPasswordHash : String
  adminSeedHash : String

/-- `collectAuth`. -/
def collectAuth (file : SessionFile) : AuthState where
  users := file.users
  adminEmail := file.adminEmail
  adminPasswordHash := file.adminPasswordHash
  adminSeedHash := file.adminSeedHash

/-- `restoreAuth`: the session file it puts in place. -/
def restoreAuth (state : AuthState) : SessionFile where
  tokens := ∅
  users := state.users
  resetTokens := ∅
  adminEmail := state.adminEmail
  adminPasswordHash := state.adminPasswordHash
  adminSeedHash := state.adminSeedHash
  accounts := ∅
  invitations := ∅

end Backup

end Anubis
