import Anubis.Backup.Model.Accounts

/-!
# Accounts after a backup

`authState` names the identities and the administrator's password and not the
account records, so an archive has none: the authenticator that loads the restored
file makes up a record for each identity, as for a file from before there were
records. An account keeps its password, its source, its state and its roles exactly
if its record is the one that is made up.
-/

namespace Anubis.Backup

open Auth AList LocalAuthenticator

variable {S : Setup} {env : Env} {a a' : LocalAuthenticator}
    {seed adminEmail adminPassword : String}

/-- The node is configured as it was when it had the state. -/
structure ConfiguredBy (S : Setup) (a : LocalAuthenticator)
    (seed adminEmail adminPassword : String) : Prop where
  email : a.adminEmail = adminEmail
  seed : configPasswordMatchesSeed S seed adminPassword = true
  /-- Without a password there is none configured. -/
  password : a.adminPasswordHash = "" → adminPassword = ""

/-- An account that has its password hash, its source, whether it is disabled, and
its role in every workspace. -/
structure Kept (a : LocalAuthenticator) (id : String) (rec rec' : AccountRecord) : Prop where
  lookup : a.accounts.lookup id = some rec'
  passwordHash : rec'.passwordHash = rec.passwordHash
  source : rec'.source = rec.source
  disabled : rec'.disabled = rec.disabled
  roles : ∀ ws, rec'.memberships.lookup ws = rec.memberships.lookup ws

/-- The only membership of an identity from before there were records. -/
def formerMembership (a : LocalAuthenticator) (u : User) : String × MemberRole :=
  if a.isConfiguredAdminLocked (some u) then ("default", .owner)
  else (workspaceOrDefault u.workspace, if validMemberRole u.role then u.role else .viewer)

/-- A record that says no more than the identity does. -/
structure Former (a : LocalAuthenticator) (u : User) (rec : AccountRecord) : Prop where
  passwordHash : rec.passwordHash = ""
  source : rec.source = .sourceLocal
  enabled : rec.disabled = false
  roles : ∀ ws, rec.memberships.lookup ws = if ws = (formerMembership a u).1 then some
    (formerMembership a u).2 else none

/-- What the migration makes up is such a record. -/
theorem former_migratedRecord (u : User) : Former a u (a.migratedRecord u) := by
  have hrecord : a.migratedRecord u =
      newRecord u.createdAt "" .sourceLocal (formerMembership a u).1 (formerMembership a u).2 := by
    unfold migratedRecord formerMembership
    split <;> rfl
  rw [hrecord]
  refine ⟨rfl, rfl, rfl, fun ws => ?_⟩
  change lookup ws (.singleton _ _) = _
  split
  · next h => exact lookup_singleton_eq_some.mpr ⟨h, rfl⟩
  · next h =>
    rw [Option.eq_none_iff_forall_ne_some]
    exact fun role hrole => h (lookup_singleton_eq_some.mp hrole).1

/-- The migration looks at the address of the administrator only. -/
theorem migratedRecord_congr {b : LocalAuthenticator} (h : b.adminEmail = a.adminEmail) (u : User) :
    b.migratedRecord u = a.migratedRecord u := by
  have hadmin : b.isConfiguredAdminLocked (some u) = a.isConfiguredAdminLocked (some u) := by
    simp only [isConfiguredAdminLocked, h]
  simp only [migratedRecord, hadmin]

/-- What is loaded has the administrator's password, and for each identity of the
archive a record that was made up. -/
theorem load_restored (hconfig : ConfiguredBy S a seed adminEmail adminPassword)
    (hfresh : a.users.lookup env.id = none)
    (hload : newLocalAuthenticator S env
      (some (restoreAuth (collectAuth (a.saveSessionsLocked seed)))) adminEmail
      adminPassword = .ok a') :
    a'.adminPasswordHash = a.adminPasswordHash ∧
      ∀ id u, a.users.lookup id = some u → a'.accounts.lookup id = some (a.migratedRecord u) := by
  obtain ⟨rfl, hseed, hpassword⟩ := hconfig
  simp only [newLocalAuthenticator] at hload
  split at hload
  · cases hload
  · obtain ⟨-, -, hload⟩ := Checked.bind_eq_ok.mp hload
    have hhash : a.adminPasswordHash = "" →
        (if adminPassword ≠ "" ∧ (!isBcryptHash adminPassword) = true then env.hash else
          adminPassword) = "" := by
      intro h
      simp [hpassword h]
    generalize (if adminPassword ≠ "" ∧
      (!isBcryptHash adminPassword) = true then env.hash else adminPassword) = hash
      at hload hhash
    cases hload
    constructor
    · have hkept : (if a.adminPasswordHash ≠ "" ∧ a.adminEmail = a.adminEmail ∧
          configPasswordMatchesSeed S seed adminPassword = true then a.adminPasswordHash
          else hash) =
          a.adminPasswordHash := by
        by_cases h : a.adminPasswordHash = ""
        · simp [h, hhash h]
        · simp [h, hseed]
      refine Eq.trans ?_ hkept
      split <;> rfl
    · intro id u hu
      refine lookup_migrateDirectory.mpr ⟨u, ?_, .inr ⟨?_, ?_⟩⟩
      · split
        · refine (lookup_insert_ne ?_).trans hu
          rintro rfl
          rw [hfresh] at hu
          cases hu
        · exact hu
      · split <;> rfl
      · apply migratedRecord_congr
        split <;> rfl

/-- **Accounts after a backup**: of every state, once its session file was backed up
and restored and is loaded by a node that is configured as before, the administrator
has the same password, and every account has its password hash, its source, its state
and its roles if and only if every record says no more than the identity does. -/
theorem accounts_kept_iff (hconfig : ConfiguredBy S a seed adminEmail adminPassword)
    (hfresh : a.users.lookup env.id = none)
    (hload : newLocalAuthenticator S env
      (some (restoreAuth (collectAuth (a.saveSessionsLocked seed)))) adminEmail
      adminPassword = .ok a') :
    a'.adminPasswordHash = a.adminPasswordHash ∧
      ((∀ id u rec, a.users.lookup id = some u → a.accounts.lookup id = some rec →
        ∃ rec', Kept a' id rec rec') ↔
        ∀ id u rec, a.users.lookup id = some u → a.accounts.lookup id = some rec →
          Former a u rec) := by
  obtain ⟨hhash, hrecords⟩ := load_restored hconfig hfresh hload
  refine ⟨hhash, fun h id u rec hu hrec => ?_, fun h id u rec hu hrec => ?_⟩
  · obtain ⟨rec', hkept⟩ := h id u rec hu hrec
    have hmade := former_migratedRecord (a := a) u
    cases hkept.lookup.symm.trans (hrecords id u hu)
    exact ⟨hkept.passwordHash ▸ hmade.passwordHash, hkept.source ▸ hmade.source,
      hkept.disabled ▸ hmade.enabled,
      fun ws => hkept.roles ws ▸ hmade.roles ws⟩
  · have hmade := former_migratedRecord (a := a) u
    have hrec := h id u rec hu hrec
    exact ⟨_, hrecords id u hu, hmade.passwordHash.trans hrec.passwordHash.symm,
      hmade.source.trans hrec.source.symm,
      hmade.enabled.trans hrec.enabled.symm, fun ws => (hmade.roles ws).trans (hrec.roles ws).symm⟩

/-! ## An invited editor -/

/-- Passwords are their own hashes. -/
def ownHashes : Setup where
  comparePassword hash password := hash = password
  hashInviteToken token := token
  memberQuota _ _ := none

/-- The environment of a start. -/
def restartEnv : Env where
  now := 0
  id := "new"
  token := "t"
  hash := "Sufficient-1"
  saving := .saved
  begins := (0, 0, 0)

/-- The administrator and one more account, with the record it was given. -/
def staff (rec : AccountRecord) : LocalAuthenticator where
  tokens := ∅
  users := (insert "1" (newAdmin 0 "admin@x.io") ∅).insert "2"
    (newUser 0 "e@x.io" "E" .editor "team")
  adminEmail := "admin@x.io"
  adminPasswordHash := "Sufficient-1"
  resetTokens := ∅
  accounts := (insert "1" (newRecord 0 "" .sourceLocal "default" .owner) ∅).insert "2" rec
  invitations := ∅
  credIndex := ∅

/-- What is loaded after the state was backed up and restored. -/
def reloaded (a : LocalAuthenticator) : Except AuthError LocalAuthenticator :=
  newLocalAuthenticator ownHashes restartEnv
    (some (restoreAuth (collectAuth (a.saveSessionsLocked "Sufficient-1"))))
    "admin@x.io" "Sufficient-1"

/-- The account as it was before there were records. -/
def formerStaff : LocalAuthenticator := staff (newRecord 0 "" .sourceLocal "team" .editor)

theorem former_staff (id : String) (u : User) (rec : AccountRecord)
    (hu : formerStaff.users.lookup id = some u)
    (hrec : formerStaff.accounts.lookup id = some rec) : Former formerStaff u rec := by
  have hmade : ∀ u rec, formerStaff.migratedRecord u = rec → Former formerStaff u rec :=
    fun u _ h =>
    h ▸ former_migratedRecord u
  simp only [formerStaff, staff, lookup_insert_if] at hu hrec
  split at hu
  · next h =>
    rw [if_pos h] at hrec
    cases hu
    cases hrec
    exact hmade _ _ (if_neg (by decide +kernel))
  · next h =>
    rw [if_neg h] at hrec
    split at hu
    · next h' =>
      rw [if_pos h'] at hrec
      cases hu
      cases hrec
      exact hmade _ _ (if_pos (by decide +kernel))
    · cases hu

theorem accounts_kept_staff : ∃ a', reloaded formerStaff = .ok a' ∧
    ∀ id u rec, formerStaff.users.lookup id = some u → formerStaff.accounts.lookup id = some rec →
      ∃ rec', Kept a' id rec rec' := by
  have hload := Checked.eq_ok_getD (d := formerStaff)
    (show (reloaded formerStaff).toOption.isSome = true by
    decide +kernel)
  exact ⟨_, hload, (accounts_kept_iff ⟨rfl, by decide +kernel, by decide +kernel⟩
    (by decide +kernel) hload).2.mpr
    former_staff⟩

/-- **An account loses its password and its roles**: the backup is loaded, and the
account signs in with no password and is an editor of one workspace instead of a
viewer of another. -/
theorem accounts_lost :
    (reloaded (staff (newRecord 0 "Sufficient-2" .sourceLocal "other" .viewer))).toOption.any
    (fun a =>
      (a.accounts.lookup "2").any fun rec =>
        rec.passwordHash = "" && rec.memberships.lookup "team" = some .editor &&
        rec.memberships.lookup "other" = none) = true := by
  decide +kernel

end Anubis.Backup
