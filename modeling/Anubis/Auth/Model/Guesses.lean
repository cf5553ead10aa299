import Anubis.Auth.Model.Directory
import Anubis.Common.Runs

/-!
# The protection against guessing passwords

`checkBruteForceProtectionFrom`, `recordFailedAttemptFrom` and
`clearFailedAttemptsFrom` of `internal/auth/local.go`, and the calls of `LoginFrom`
as far as they use them. A call checks the protection, lets go of the lock, compares
the password, and takes the lock again to record a failure or to clear the failures of
its source; any number of calls are under way at a time.

Times are in nanoseconds since the zero time, which stands for no time; the clock does
not go back. `compared` lists the wrong passwords that were compared, with the source
and the time; the program does not have it.
-/

namespace Anubis.Auth

/-- `maxLoginAttempts`. -/
def maxLoginAttempts : ℕ := 5

/-- One minute. -/
def minute : ℤ := 60 * 10 ^ 9

/-- `lockoutDuration`. -/
def lockoutDuration : ℤ := 15 * minute

/-- `attemptResetWindow`. -/
def attemptResetWindow : ℤ := 30 * minute

/-- `accountBackoffThreshold`. -/
def accountBackoffThreshold : ℕ := 50

/-- `accountBackoffBase`. -/
def accountBackoffBase : ℤ := 10 ^ 9

/-- `accountBackoffMax`. -/
def accountBackoffMax : ℤ := lockoutDuration

/-- `knownLoginIPTTL`. -/
def knownLoginIPTTL : ℤ := 30 * 24 * hour

/-- `maxKnownLoginIPs`. -/
def maxKnownLoginIPs : ℕ := 64

/-- `maxTrackedLoginSources`. -/
def maxTrackedLoginSources : ℕ := 4096

/-- `loginAttempt`. -/
structure LoginAttempt where
  count : ℕ := 0
  lastTry : ℤ := 0
  lockedUntil : ℤ := 0
deriving DecidableEq

/-- `loginSourceKey`. -/
def loginSourceKey (email clientIP : String) : String :=
  if clientIP = "" then email else email ++ "|" ++ clientIP

/-- What `attemptsMu` guards. -/
structure Protection where
  loginAttempts : Dict String LoginAttempt
  accountFailures : Dict String LoginAttempt
  knownLoginIPs : Dict String ℤ

/-- One more failure of a source. -/
def LoginAttempt.fail (attempt : LoginAttempt) (now : ℤ) : LoginAttempt :=
  let count := (if attemptResetWindow < now - attempt.lastTry then 0 else attempt.count) + 1
  { count := count
    lastTry := now
    lockedUntil := if maxLoginAttempts ≤ count then now + lockoutDuration else attempt.lockedUntil }

/-- One more failure of an account. -/
def LoginAttempt.failAccount (acct : LoginAttempt) (now : ℤ) : LoginAttempt :=
  let stale := attemptResetWindow < now - acct.lastTry
  let count := (if stale then 0 else acct.count) + 1
  let excess := count - accountBackoffThreshold
  { count := count
    lastTry := now
    lockedUntil :=
      if accountBackoffThreshold ≤ count then
        now + if excess < 20 then min (accountBackoffBase * 2 ^ excess) accountBackoffMax else
        accountBackoffMax
      else if stale then 0
      else acct.lockedUntil }

namespace Protection

variable (g : Protection)

/-- `knownLoginIPLocked`. -/
def knownLoginIPLocked (email clientIP : String) (now : ℤ) : Bool :=
  clientIP ≠ "" && (g.knownLoginIPs.lookup (loginSourceKey email clientIP)).any fun at' =>
    now - at' ≤ knownLoginIPTTL

/-- The lock of a source that has run out is taken off. -/
def unlock (key : String) (now : ℤ) : Protection :=
  match g.loginAttempts.lookup key with
  | some attempt =>
    if attempt.lockedUntil ≠ 0 ∧ attempt.lockedUntil < now then
      { g with loginAttempts := g.loginAttempts.insert key { attempt with
        lockedUntil := 0, count := 0 } }
    else g
  | none => g

/-- The source is locked. -/
def locked (key : String) (now : ℤ) : Bool :=
  (g.loginAttempts.lookup key).any fun attempt =>
    attempt.lockedUntil ≠ 0 && now < attempt.lockedUntil

/-- `checkBruteForceProtectionFrom`: whether the attempt is let through. -/
def checkBruteForceProtectionFrom (email clientIP : String) (now : ℤ) : Protection × Bool :=
  let key := loginSourceKey email clientIP
  if g.locked key now then (g, false)
  else
    let held := (g.accountFailures.lookup email).any fun acct => now < acct.lockedUntil
    (g.unlock key now, !(held && !g.knownLoginIPLocked email clientIP now))

/-- `pruneLoginAttemptsLocked`. -/
def pruneLoginAttemptsLocked (now : ℤ) : Dict String LoginAttempt :=
  g.loginAttempts.filter fun _ att =>
    !(att.lockedUntil < now && attemptResetWindow < now - att.lastTry)

/-- The table in which a failure of a source is booked. -/
def tableFor (key : String) (now : ℤ) : Dict String LoginAttempt :=
  if (g.loginAttempts.lookup key).isNone ∧ maxTrackedLoginSources ≤ g.loginAttempts.keys.length then
    g.pruneLoginAttemptsLocked now
  else g.loginAttempts

/-- `recordFailedAttemptFrom`; `known` is what `knownEmailLocked` says. -/
def recordFailedAttemptFrom (known : Bool) (email clientIP : String) (now : ℤ) : Protection :=
  if !known then g
  else
    let key := loginSourceKey email clientIP
    let table := g.tableFor key now
    { g with
      loginAttempts :=
        match table.lookup key with
        | some attempt => table.insert key (attempt.fail now)
        | none =>
          if table.keys.length < maxTrackedLoginSources then
            table.insert key (LoginAttempt.fail {} now)
          else table
      accountFailures :=
        let failure := (g.accountFailures.lookup email).getD {}
        g.accountFailures.insert email (failure.failAccount now) }

/-- `evictKnownLoginIPLocked`. -/
def evictKnownLoginIPLocked (begin : ℕ) (now : ℤ) : Dict String ℤ :=
  let kept := g.knownLoginIPs.filter fun _ at' => now - at' ≤ knownLoginIPTTL
  let oldest := (kept.range begin).foldl (fun found e => if e.2 ≤ found.2 then e else found)
    ("", now)
  if maxKnownLoginIPs ≤ kept.keys.length ∧ oldest.1 ≠ "" then kept.erase oldest.1 else kept

/-- `clearFailedAttemptsFrom`. -/
def clearFailedAttemptsFrom (begin : ℕ) (email clientIP : String) (now : ℤ) : Protection :=
  let key := loginSourceKey email clientIP
  { g with
    loginAttempts := g.loginAttempts.erase key
    knownLoginIPs :=
      if clientIP = "" then g.knownLoginIPs
      else
        (if maxKnownLoginIPs ≤ g.knownLoginIPs.keys.length then g.evictKnownLoginIPLocked begin now
          else g.knownLoginIPs).insert key now }

end Protection

/-! ## Calls -/

/-- How far a call has come. -/
inductive Stage
  | checked
  | wrong
  | right
deriving DecidableEq, Repr

/-- A call of `LoginFrom` that was let through. The address is normalized. -/
structure Attempt where
  email : String
  clientIP : String
  password : String
  stage : Stage

/-- The source of a call. -/
def Attempt.key (x : Attempt) : String := loginSourceKey x.email x.clientIP

/-- The protection and the calls under way. -/
structure Logins where
  protection : Protection
  clock : ℤ
  attempts : Dict ℕ Attempt
  compared : List (String × ℤ)

namespace Logins

/-- What happens. -/
inductive Event
  | check (call : ℕ) (email clientIP password : String) (now : ℤ)
  /-- The password is compared with the hash the index has. -/
  | compare (call : ℕ) (expectedHash : String) (now : ℤ)
  | record (call : ℕ) (known : Bool) (now : ℤ)
  /-- The call returns and records nothing: there was no hash, or the account did not
  stand the second look. -/
  | leave (call : ℕ)
  | succeed (call : ℕ) (begin : ℕ) (now : ℤ)

/-- The time of an event. -/
def Event.time (s : Logins) : Event → ℤ
  | .check _ _ _ _ now | .compare _ _ now | .record _ _ now | .succeed _ _ now => now
  | .leave _ => s.clock

/-- What an event does. -/
def next (S : Setup) (s : Logins) : Event → Option Logins
  | .check call email clientIP password now =>
    let email := normalizeEmail email
    let result := s.protection.checkBruteForceProtectionFrom email clientIP now
    if (s.attempts.lookup call).isSome then none
    else if result.2 then
      some { s with
        protection := result.1
        attempts := s.attempts.insert call { email, clientIP, password, stage := .checked } }
    else some { s with protection := result.1 }
  | .compare call expectedHash now =>
    match s.attempts.lookup call with
    | some x =>
      if x.stage = .checked ∧ x.password ≠ "" ∧ expectedHash ≠ "" then
        if S.comparePassword expectedHash x.password then
          some { s with attempts := s.attempts.insert call { x with stage := .right } }
        else
          some { s with
            attempts := s.attempts.insert call { x with stage := .wrong }
            compared := s.compared ++ [(x.key, now)] }
      else none
    | none => none
  | .record call known now =>
    match s.attempts.lookup call with
    | some x =>
      if x.stage = .wrong ∨ x.stage = .checked ∧ x.password = "" then
        some { s with
          protection := s.protection.recordFailedAttemptFrom known x.email x.clientIP now
          attempts := s.attempts.erase call }
      else none
    | none => none
  | .leave call =>
    match s.attempts.lookup call with
    | some x => if x.stage = .wrong then none else some { s with attempts := s.attempts.erase call }
    | none => none
  | .succeed call begin now =>
    match s.attempts.lookup call with
    | some x =>
      if x.stage = .right then
        some { s with
          protection := s.protection.clearFailedAttemptsFrom begin x.email x.clientIP now
          attempts := s.attempts.erase call }
      else none
    | none => none

/-- One step. -/
def step (S : Setup) (s : Logins) (e : Event) : Option Logins :=
  if s.clock ≤ e.time s then { s with clock := e.time s }.next S e else none

end Logins

end Anubis.Auth
