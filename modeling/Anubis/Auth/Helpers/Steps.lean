import Anubis.Auth.Helpers.Plans

/-!
# One event changes one account

Every plan changes the identity and the record of one account at most, and both
come and go together. From this, in every state of a running server each
identity has its record, and every ID in use has been drawn.
-/

namespace Anubis.Auth

open Checked List Option AList LocalAuthenticator Service

variable {adminEmail adminPassword : String} {file : Option SessionFile} {env : Env}

/-- **Only one account differs**, and its identity and record are there together. -/
structure Touches (a a' : LocalAuthenticator) (id : String) : Prop where
  users : ∀ other, other ≠ id → a'.users.lookup other = a.users.lookup other
  accounts : ∀ other, other ≠ id → a'.accounts.lookup other = a.accounts.lookup other
  together : (a'.accounts.lookup id).isSome = (a'.users.lookup id).isSome
  adminEmail : a'.adminEmail = a.adminEmail

section Lookups

variable {a : LocalAuthenticator} {id : String} {a' : LocalAuthenticator} {rec : AccountRecord}
    {user : User}

theorem LocalAuthenticator.Complete.touches (hc : a.Complete) (hu : a'.users = a.users)
    (ha : a'.accounts = a.accounts) (he : a'.adminEmail = a.adminEmail) : Touches a a' id where
  users _ _ := by rw [hu]
  accounts _ _ := by rw [ha]
  together := by rw [hu, ha]; exact hc id
  adminEmail := he

theorem Touches.of_insert (hu : a'.users = a.users.insert id user)
    (ha : a'.accounts = a.accounts.insert id rec)
    (he : a'.adminEmail = a.adminEmail) : Touches a a' id where
  users other h := by rw [hu, lookup_insert_ne h]
  accounts other h := by rw [ha, lookup_insert_ne h]
  together := by rw [hu, ha, lookup_insert, lookup_insert]; rfl
  adminEmail := he

theorem Touches.of_erase (hu : a'.users = a.users.erase id) (ha : a'.accounts = a.accounts.erase id)
    (he : a'.adminEmail = a.adminEmail) : Touches a a' id where
  users other h := by rw [hu, lookup_erase_ne h]
  accounts other h := by rw [ha, lookup_erase_ne h]
  together := by rw [hu, ha, lookup_erase, lookup_erase]; rfl
  adminEmail := he

/-- A state with one record changed. -/
theorem LocalAuthenticator.Complete.touches_modify (hc : a.Complete)
    {f : AccountRecord → AccountRecord} (hu : a'.users = a.users)
    (ha : a'.accounts = a.accounts.modify id f)
    (he : a'.adminEmail = a.adminEmail) : Touches a a' id where
  users _ _ := by rw [hu]
  accounts other h := by rw [ha, lookup_modify, if_neg h]
  together := by rw [hu, ha, lookup_modify, if_pos rfl, isSome_map]; exact hc id
  adminEmail := he

theorem Touches.complete (h : Touches a a' id) (hc : a.Complete) : a'.Complete := by
  intro other
  by_cases ho : other = id
  · rw [ho]
    exact h.together
  · rw [h.users other ho, h.accounts other ho]
    exact hc other

/-- The last workspace is one workspace. -/
theorem length_keys_of_only {memberships : Dict String MemberRole} {ws : String} {role : MemberRole}
    (hws : memberships.lookup ws = some role)
    (honly : ∀ other, (memberships.lookup other).isSome → other = ws) :
    memberships.keys.length = 1 := by
  have hmem : ws ∈ memberships.keys := AList.mem_keys.mp (lookup_isSome.mp (isSome_of_mem hws))
  have hall : ∀ other ∈ memberships.keys, other = ws := fun other h =>
    honly other (lookup_isSome.mpr (AList.mem_keys.mpr h))
  have hkeys : memberships.keys = [ws] := perm_singleton.mp
    ((perm_ext_iff_of_nodup memberships.keys_nodup (nodup_singleton ws)).mpr fun other =>
      ⟨fun h => mem_singleton.mpr (hall other h), fun h => mem_singleton.mp h ▸ hmem⟩)
  rw [hkeys]
  rfl

/-- A member is removed: the account loses one workspace, or is deleted with its
last one. -/
theorem withoutMember_cases {env : Env} {userID ws : String} {user : User} {rec : AccountRecord} :
    (∀ other, (rec.memberships.lookup other).isSome → other = ws) ∧
        a.withoutMember env userID user rec ws = a.deleteAccountLocked userID user ∨
      ∃ workspace, a.withoutMember env userID user rec ws =
          a.addAccount userID { user with workspace := workspace }
            { rec with memberships := rec.memberships.erase ws, updatedAt := env.now } ∧
        (workspaceOrDefault user.workspace = ws → workspace ≠ ws ∧
          (rec.memberships.lookup workspace).isSome) ∧
        (workspaceOrDefault user.workspace ≠ ws → workspace = user.workspace) := by
  unfold withoutMember
  dsimp only
  split
  · next hnil =>
    refine .inl ⟨fun other hother => ?_, rfl⟩
    by_contra hne
    have : other ∈ sortedWorkspaces (rec.memberships.erase ws) :=
      mem_sortedWorkspaces.mpr (by rwa [lookup_erase_ne hne])
    rw [hnil] at this
    cases this
  · next first rest hfirst =>
    have hmem : first ∈ sortedWorkspaces (rec.memberships.erase ws) := by
      rw [hfirst]; exact (.head _)
    obtain ⟨role, hmem⟩ := isSome_iff_exists.mp (mem_sortedWorkspaces.mp hmem)
    obtain ⟨hne, hmem⟩ := lookup_erase_eq_some.mp hmem
    refine .inr ⟨if workspaceOrDefault user.workspace =
      ws then first else user.workspace, ?_, ?_, ?_⟩
    · split <;> rfl
    · intro h
      rw [if_pos h]
      exact ⟨hne, isSome_of_mem hmem⟩
    · intro h
      rw [if_neg h]

/-- **A migration** keeps the records of identities and gives the others one. -/
theorem lookup_migrateDirectory :
    a.migrateDirectoryLocked.accounts.lookup id = some rec ↔ ∃ user, a.users.lookup id = some user ∧
      (a.accounts.lookup id = some rec ∨ a.accounts.lookup id = none ∧
        a.migratedRecord user = rec) := by
  have hnodup :
      (((a.users.range 0).map fun x => (x.1, a.migratedRecord x.2)).map Prod.fst).Nodup := by
    rw [List.map_map]
    exact nodup_range a.users 0
  unfold migrateDirectoryLocked
  rw [lookup_insertNew hnodup, lookup_filter, filter_eq_some_iff, filter_eq_none_iff]
  have hmem : ((id, rec) ∈ (a.users.range 0).map fun x => (x.1, a.migratedRecord x.2)) ↔
      ∃ user, a.users.lookup id = some user ∧ a.migratedRecord user = rec := by
    simp only [List.mem_map, Prod.exists, Prod.mk.injEq]
    constructor
    · rintro ⟨k, u, hu, rfl, rfl⟩
      exact ⟨u, AList.mem_range.mp hu, rfl⟩
    · rintro ⟨u, hu, rfl⟩
      exact ⟨id, u, AList.mem_range.mpr hu, rfl, rfl⟩
  rw [hmem]
  constructor
  · rintro (⟨h, hsome⟩ | ⟨hnone, user, hu, rfl⟩)
    · obtain ⟨user, hu⟩ := isSome_iff_exists.mp hsome
      exact ⟨user, hu, .inl h⟩
    · refine ⟨user, hu, .inr ⟨eq_none_iff_forall_not_mem.mpr fun r hr => hnone r hr ?_, rfl⟩⟩
      rw [hu]
      rfl
  · rintro ⟨user, hu, h | ⟨hnone, rfl⟩⟩
    · exact .inl ⟨h, by rw [hu]; rfl⟩
    · exact .inr ⟨fun r hr => (by rw [hnone] at hr; cases hr), user, hu, rfl⟩

/-- The record of an identity that is new in a complete directory is the only
one to come. -/
theorem migrate_insert (hc : a.Complete) (hnew : a.users.lookup id = none) {other : String} :
    ({ a with users := a.users.insert id user }.migrateDirectoryLocked).accounts.lookup other =
      if other = id then some (a.migratedRecord user) else a.accounts.lookup other := by
  have hnone : a.accounts.lookup id = none := by
    have := hc id
    rw [hnew] at this
    simpa using this
  ext rec
  rw [lookup_migrateDirectory]
  by_cases ho : other = id
  · subst ho
    rw [if_pos rfl]
    constructor
    · rintro ⟨u, hu, h | ⟨-, h⟩⟩
      · rw [hnone] at h
        cases h
      · rw [lookup_insert, some.injEq] at hu
        rw [hu, ← h]
        rfl
    · intro h
      exact ⟨user, lookup_insert _, .inr ⟨hnone, some.inj h⟩⟩
  · rw [if_neg ho]
    constructor
    · rintro ⟨u, hu, h | ⟨h, -⟩⟩
      · exact h
      · obtain ⟨rec', hrec'⟩ := hc.account (by rwa [lookup_insert_ne ho] at hu)
        rw [h] at hrec'
        cases hrec'
    · intro h
      obtain ⟨u, hu⟩ := hc.user h
      exact ⟨u, by rwa [lookup_insert_ne ho], .inl h⟩

/-- After a migration every identity has its record. -/
theorem complete_migrateDirectory : a.migrateDirectoryLocked.Complete := by
  intro id
  cases hu : a.users.lookup id with
  | none =>
    have : a.migrateDirectoryLocked.accounts.lookup id = none := by
      rw [eq_none_iff_forall_ne_some]
      intro rec hrec
      obtain ⟨user, hu', -⟩ := lookup_migrateDirectory.mp hrec
      rw [hu] at hu'
      cases hu'
    rw [this]
    exact congrArg isSome hu.symm
  | some user =>
    obtain ⟨rec, hrec⟩ : ∃ rec, a.migrateDirectoryLocked.accounts.lookup id = some rec := by
      cases ha : a.accounts.lookup id with
      | some rec => exact ⟨rec, lookup_migrateDirectory.mpr ⟨user, hu, .inl ha⟩⟩
      | none => exact ⟨_, lookup_migrateDirectory.mpr ⟨user, hu, .inr ⟨ha, rfl⟩⟩⟩
    rw [hrec]
    exact (congrArg isSome hu).symm

/-- The identity of a login is there already, or it is the configured
administrator's first one. -/
theorem loginIdentity_cases {email : String} {known : LocalAuthenticator}
    (h : a.loginIdentity env email = (id, user, known)) :
    a.findByEmailLocked env.begins.1 email = some (id, user) ∧ known = a ∨
      a.findByEmailLocked env.begins.1 email = none ∧ id = env.id ∧
      user = newAdmin env.now a.adminEmail ∧
        known =
        { a with
        users := a.users.insert env.id (newAdmin env.now a.adminEmail)
        }.migrateDirectoryLocked := by
  unfold loginIdentity at h
  split at h
  · next id' user' hfind =>
    simp only [Prod.mk.injEq] at h
    obtain ⟨rfl, rfl, rfl⟩ := h
    exact .inl ⟨hfind, rfl⟩
  · next hfind =>
    simp only [Prod.mk.injEq] at h
    obtain ⟨rfl, rfl, rfl⟩ := h
    exact .inr ⟨hfind, rfl, rfl, rfl⟩

theorem users_revokeIf {p : Prop} [Decidable p] :
    (if p then a.revokeUserSessionsLocked id else a).users = a.users := by
  split <;> rfl

theorem accounts_revokeIf {p : Prop} [Decidable p] :
    (if p then a.revokeUserSessionsLocked id else a).accounts = a.accounts := by
  split <;> rfl

end Lookups

section Plans

variable {S : Setup} {s : Service} {e : Event} {a' : LocalAuthenticator}

/-- **A plan touches one account**, one that was there or one with an ID that was
just drawn. -/
theorem Plan.touches (hc : s.auth.Complete) (hnew : ∀ env ∈ e.env,
    s.auth.users.lookup env.id = none)
    (h : Plan S s e a') :
    ∃ id, Touches s.auth a' id ∧ ∀ user, a'.users.lookup id = some user →
      (s.auth.users.lookup id).isSome ∨ ∃ env ∈ e.env, id = env.id := by
  cases h with
  | ends | adminPassword =>
    exact ⟨"", hc.touches rfl rfl rfl, fun user hu => .inl (isSome_of_mem hu)⟩
  | create | acceptNew | signUp => exact ⟨_, .of_insert rfl rfl rfl, fun _ _ => .inr ⟨_, rfl, rfl⟩⟩
  | update hactor htarget =>
    refine ⟨_, ?_, fun _ _ => .inl (isSome_of_mem (targetLocked_ok htarget).1)⟩
    split <;> exact .of_insert rfl rfl rfl
  | @remove env _ userID ws _ _ user rec hactor htarget =>
    refine ⟨userID, ?_, fun _ _ => .inl (isSome_of_mem (targetLocked_ok htarget).1)⟩
    rcases @withoutMember_cases s.auth env userID ws user rec with ⟨-, heq⟩ | ⟨_, heq, -⟩
    · rw [heq]
      exact .of_erase rfl rfl rfl
    · rw [heq]
      exact .of_insert rfl rfl rfl
  | delete hactor htarget =>
    exact ⟨_, .of_erase rfl rfl rfl, fun _ _ => .inl (isSome_of_mem (targetLocked_ok htarget).1)⟩
  | @join _ _ _ _ id _ _ _ hacc hinv hfind =>
    have hu := (findByEmailLocked_some hfind).1
    refine ⟨id, ⟨fun _ _ => rfl, fun other ho => lookup_insert_ne ho, ?_, rfl⟩,
      fun _ _ => .inl (isSome_of_mem hu)⟩
    change ((s.auth.accounts.insert id _).lookup id).isSome = (s.auth.users.lookup id).isSome
    rw [lookup_insert, hu]
    rfl
  | signIn hfind =>
    exact ⟨_, .of_insert rfl rfl rfl, fun _ _ =>
      .inl (isSome_of_mem (findByEmailLocked_some hfind).1)⟩
  | login hlogin hhash hknown =>
    rcases loginIdentity_cases hknown with ⟨hfind, rfl⟩ | ⟨-, rfl, rfl, rfl⟩
    · exact ⟨_, hc.touches_modify rfl rfl rfl,
        fun _ _ => .inl (isSome_of_mem (findByEmailLocked_some hfind).1)⟩
    · refine ⟨_, ⟨fun other ho => lookup_insert_ne ho, fun other ho => ?_, ?_, rfl⟩,
        fun _ _ => .inr ⟨_, rfl, rfl⟩⟩
      · dsimp only
        rw [lookup_modify, if_neg ho, migrate_insert hc (hnew _ rfl), if_neg ho]
      · dsimp only
        rw [lookup_modify, if_pos rfl, migrate_insert hc (hnew _ rfl), if_pos rfl]
        exact (congrArg isSome (lookup_insert s.auth.users)).symm
  | password resetTokens henv hhash hu hchanged =>
    subst hchanged
    exact ⟨_, hc.touches_modify rfl rfl rfl, fun _ _ => .inl (isSome_of_mem hu)⟩

/-- Only the configured administrator signs in without an identity. -/
theorem sameEmail_admin_of_login {a : LocalAuthenticator} {email hash : String} (hne : hash ≠ "")
    (hfind : a.findByEmailLocked env.begins.1 email = none)
    (hhash : a.passwordHashForLocked env.begins.2.1 email = hash) :
    sameEmail email a.adminEmail = true := by
  by_contra hno
  unfold passwordHashForLocked at hhash
  rw [if_neg hno] at hhash
  split at hhash
  · exact hne hhash.symm
  · next id user hsome =>
    obtain ⟨hu, hmail⟩ := findByEmailLocked_some hsome
    rw [findByEmailLocked_none hfind hu] at hmail
    cases hmail

theorem isConfiguredAdmin_newAdmin (now : ℤ) {a : LocalAuthenticator} {email : String}
    (h : sameEmail email a.adminEmail = true) :
    a.isConfiguredAdminLocked (some (newAdmin now a.adminEmail)) = true := by
  obtain ⟨hne, heq⟩ := sameEmail_iff.mp h
  exact sameEmail_iff.mpr ⟨by rwa [newAdmin, newUser, ← heq], rfl⟩

/-- An identity has the address it had, or it is new and no account had its
address. -/
def Addressed (a : LocalAuthenticator) (e : Event) (id : String) (user' : User) : Prop :=
  (∃ user, a.users.lookup id = some user ∧ user'.email = user.email) ∨
    (∃ env ∈ e.env, id = env.id) ∧
      ∀ other user, a.users.lookup other = some user → sameEmail user.email user'.email = false

section Addresses

variable {a : LocalAuthenticator} {id : String} {user' : User}

theorem addressed_of_set (h : a'.users.lookup id = some user') {set : String} {user new : User}
    (hset : a'.users = a.users.insert set new) (hold : a.users.lookup set = some user)
    (hemail : new.email = user.email) : Addressed a e id user' := by
  rw [hset, lookup_insert_eq_some] at h
  obtain ⟨rfl, rfl⟩ | ⟨-, h⟩ := h
  · exact .inl ⟨user, hold, hemail⟩
  · exact .inl ⟨user', h, rfl⟩

theorem addressed_of_new (h : a'.users.lookup id = some user') {new : User}
    (hset : a'.users = a.users.insert env.id new) (henv : e.env = some env)
    (hnone : ∀ other user, a.users.lookup other = some user →
      sameEmail user.email new.email = false) :
    Addressed a e id user' := by
  rw [hset, lookup_insert_eq_some] at h
  obtain ⟨heq, rfl⟩ | ⟨-, h⟩ := h
  · exact .inr ⟨⟨env, henv, heq⟩, hnone⟩
  · exact .inl ⟨user', h, rfl⟩

theorem addressed_of_erase (h : a'.users.lookup id = some user') {gone : String}
    (herase : a'.users = a.users.erase gone) : Addressed a e id user' := by
  rw [herase, lookup_erase_eq_some] at h
  exact .inl ⟨user', h.2, rfl⟩

end Addresses

/-- **Addresses do not change**, and a new account has an address that no account
had. -/
theorem Plan.addressed (hlogins : ∀ l ∈ s.logins, l.expectedHash ≠ "") (h : Plan S s e a')
    {id : String}
    {user' : User} (hu' : a'.users.lookup id = some user') : Addressed s.auth e id user' := by
  cases h with
  | ends | join | adminPassword => exact .inl ⟨user', hu', rfl⟩
  | create hactor hrole hfind
  | acceptNew hacc hinv hfind
  | signUp hfind => exact addressed_of_new hu' rfl rfl fun _ _ => findByEmailLocked_none hfind
  | update hactor htarget =>
    refine addressed_of_set hu' users_revokeIf (targetLocked_ok htarget).1 ?_
    unfold updatedUser
    split <;> rfl
  | @remove env _ userID ws _ _ user rec hactor htarget =>
    rcases @withoutMember_cases s.auth env userID ws user rec with ⟨-, heq⟩ | ⟨_, heq, -⟩
    · rw [heq] at hu'
      exact addressed_of_erase hu' rfl
    · rw [heq] at hu'
      exact addressed_of_set hu' rfl (targetLocked_ok htarget).1 rfl
  | delete => exact addressed_of_erase hu' rfl
  | signIn hfind =>
    refine addressed_of_set hu' rfl (findByEmailLocked_some hfind).1 ?_
    unfold signedInUser
    split <;> rfl
  | @login _ _ l _ _ _ _ hlogin hhash hknown =>
    rcases loginIdentity_cases hknown with ⟨-, rfl⟩ | ⟨hfind, rfl, rfl, rfl⟩
    · exact .inl ⟨user', hu', rfl⟩
    · have hsame := sameEmail_admin_of_login (hlogins l (mem_of_getElem? hlogin)) hfind hhash
      refine addressed_of_new hu' rfl rfl fun other user hu => ?_
      have hno := findByEmailLocked_none hfind hu
      rw [← Bool.not_eq_true, sameEmail_iff] at hno ⊢
      rwa [newAdmin, newUser, ← (sameEmail_iff.mp hsame).2]
  | password resetTokens henv hhash hu hchanged =>
    subst hchanged
    exact .inl ⟨user', hu', rfl⟩

end Plans

/-! ## Every state of a running server -/

/-- Identities and records belong together, IDs in use have been drawn, and no
login has verified the empty hash. -/
structure Service.Ok (s : Service) : Prop where
  complete : s.auth.Complete
  drawn : ∀ id user, s.auth.users.lookup id = some user → id ∈ s.drawn
  logins : ∀ l ∈ s.logins, l.expectedHash ≠ ""

section Running

variable {S : Setup} {s s' : Service} {e : Event}

/-- What a step has done. -/
theorem Service.step_eq (h : s.step S e = some s') :
    e.Fresh s.drawn ∧ s'.auth = s.nextAuth S e ∧ s'.logins = s.nextLogins S e ∧
      s'.acceptances = s.nextAcceptances S e ∧ s'.clock = s.clock + 1 ∧ s'.marks = s.nextMarks e ∧
      s'.drawn = s.drawn ++ (e.env.map Env.draws).getD [] := by
  unfold Service.step at h
  split at h
  · next hfresh =>
    cases h
    exact ⟨hfresh, rfl, rfl, rfl, rfl, rfl, rfl⟩
  · cases h

/-- An ID that was just drawn is not in use. -/
theorem Service.Ok.fresh (hok : s.Ok) (hfresh : e.Fresh s.drawn) :
    ∀ env ∈ e.env, s.auth.users.lookup env.id = none := by
  intro env henv
  rw [eq_none_iff_forall_ne_some]
  intro user hu
  exact (hfresh env henv env.id (by simp [Env.draws])).2 (hok.drawn _ _ hu)

/-- **A step keeps what every plan of it keeps.** -/
theorem Service.Ok.step_of_plan (hok : s.Ok) (hs : s.step S e = some s')
    {P : LocalAuthenticator → Prop} (hindex : ∀ a n, P a → P (a.refreshCredIndexLocked n))
    (hplan : ∀ a', Plan S s e a' → (∀ env ∈ e.env, s.auth.users.lookup env.id = none) → P a') :
    P s'.auth := by
  obtain ⟨hfresh, hauth, -⟩ := step_eq hs
  rw [hauth]
  exact nextAuth_of_plan hindex fun a' h => hplan a' h (hok.fresh hfresh)

/-- A login under way was under way before, or it has just read the index. -/
theorem Service.mem_nextLogins {l : Login} (h : l ∈ s.nextLogins S e) :
    l ∈ s.logins ∨ ∃ email password, e = .loginLookup email password ∧
    l.email = normalizeEmail email ∧
      s.auth.credIndex.lookup (normalizeEmail l.email) = some l.expectedHash ∧ l.expectedHash ≠ "" ∧
      l.lookedUp = s.clock := by
  cases e with
  | loginLookup email password =>
    unfold nextLogins at h
    dsimp only at h
    split at h
    · next email' hash hlookup =>
      rw [mem_append, mem_singleton] at h
      refine h.imp_right fun h => ⟨email, password, rfl, ?_⟩
      simp only [loginLookup, bind_eq_ok, refuseIf_eq_ok, Except.ok.injEq,
        Prod.mk.injEq] at hlookup
      obtain ⟨-, -, -, hne, -, -, rfl, rfl⟩ := hlookup
      subst h
      refine ⟨rfl, ?_, hne, rfl⟩
      dsimp only at hne ⊢
      cases hfound : s.auth.credIndex.lookup (normalizeEmail (normalizeEmail email)) with
      | none => rw [hfound] at hne; exact absurd rfl hne
      | some => rfl
    · exact .inl h
  | loginFinish => exact .inl (mem_of_mem_eraseIdx h)
  | _ => exact .inl h

theorem Service.Ok.step (hok : s.Ok) (hs : s.step S e = some s') : s'.Ok := by
  have hlogins : s'.logins = s.nextLogins S e := (step_eq hs).2.2.1
  have hdrawn : s'.drawn = s.drawn ++ (e.env.map Env.draws).getD [] := (step_eq hs).2.2.2.2.2.2
  obtain ⟨id, htouch, hid⟩ : ∃ id, Touches s.auth s'.auth id ∧
    ∀ user, s'.auth.users.lookup id = some user →
      (s.auth.users.lookup id).isSome ∨ ∃ env ∈ e.env, id = env.id :=
    hok.step_of_plan hs
      (fun a n ⟨id, h, hid⟩ => ⟨id, ⟨h.users, h.accounts, h.together, h.adminEmail⟩, hid⟩)
      fun a' h hnew => h.touches hok.complete hnew
  refine ⟨htouch.complete hok.complete, fun other user hu => ?_, fun l hl => ?_⟩
  case refine_2 =>
    rw [hlogins] at hl
    rcases mem_nextLogins hl with h | ⟨_, _, -, -, -, hne, -⟩
    · exact hok.logins l h
    · exact hne
  rw [hdrawn, mem_append]
  by_cases ho : other = id
  · subst ho
    rcases hid user hu with h | ⟨env, henv, heq⟩
    · obtain ⟨u, hu'⟩ := isSome_iff_exists.mp h
      exact .inl (hok.drawn _ _ hu')
    · refine .inr ?_
      rw [mem_def.mp henv, heq]
      simp [Env.draws]
  · rw [htouch.users other ho] at hu
    exact .inl (hok.drawn _ _ hu)

theorem Service.Ok.start {a : LocalAuthenticator} (hc : a.Complete) : (Service.start a).Ok where
  complete := hc
  drawn id user hu := by
    have : id ∈ a.users.keys := AList.mem_keys.mp (lookup_isSome.mp (isSome_of_mem hu))
    simp [Service.start, LocalAuthenticator.drawn, this]
  logins _ h := by cases h

/-- The constructor ends with a migration. -/
theorem newLocalAuthenticator_complete
    {a : LocalAuthenticator} (h : newLocalAuthenticator S env file adminEmail adminPassword =
      .ok a) :
    a.Complete := by
  unfold newLocalAuthenticator at h
  dsimp only at h
  split at h
  · cases h
  · simp only [bind_eq_ok, Except.ok.injEq] at h
    obtain ⟨-, -, rfl⟩ := h
    exact complete_migrateDirectory

theorem Service.Ok.later (hok : s.Ok) (h : s.Later S s') : s'.Ok :=
  Runs.Reachable.invariant hok (fun _ _ _ _ hok _ hs => hok.step hs) h

theorem Service.Ok.later_of_step (hok : s.Ok) {P : Service → Prop} (h0 : P s)
    (hstep : ∀ t e t', t.Ok → P t → t.step S e = some t' → P t') (h : s.Later S s') : P s' :=
  Runs.Reachable.invariant h0 (fun t e t' ht hp _ hs => hstep t e t' (hok.later ht) hp hs) h

/-- **In every state of a running server, identities and records belong
together.** -/
theorem Service.Reachable.ok
    (h : s.Reachable S env file adminEmail adminPassword) : s.Ok := by
  obtain ⟨a, ha, hrun⟩ := h
  exact (Ok.start (newLocalAuthenticator_complete ha)).later hrun

end Running

/-! ## One server -/

/-- A hash that shows the password, and no quota. -/
def plainSetup : Setup where
  comparePassword hash password := hash = "#" ++ password
  hashInviteToken token := token
  memberQuota _ _ := none

/-- A call that is saved, at the beginning of time. -/
def plainEnv (id token hash : String) : Env := ⟨0, id, token, hash, .saved, 0, 0, 0⟩

/-- The environment of the start. -/
def startEnv : Env := plainEnv "first" "unused" "#Sufficient-1"

/-- A server that has just been set up. -/
def firstServer : LocalAuthenticator :=
  (newLocalAuthenticator plainSetup startEnv none "admin@x.io" "Sufficient-1").toOption.getD
    ⟨∅, ∅, "", "", ∅, ∅, ∅, ∅⟩

theorem firstServer_started :
    newLocalAuthenticator plainSetup startEnv none "admin@x.io" "Sufficient-1" = .ok firstServer :=
  eq_ok_getD (by decide +kernel)

theorem firstServer_reachable {es : List Event} {s : Service}
    (h : Runs.run (Service.step plainSetup) (Service.start firstServer) es = some s) :
    s.Reachable plainSetup startEnv none "admin@x.io" "Sufficient-1" :=
  ⟨firstServer, firstServer_started, Runs.Reachable.of_run .init (fun _ _ => trivial) h⟩

/-- Someone with an account. -/
def someone (id : String) : Actor := some (id, newUser 0 "" "" .viewer "")

end Anubis.Auth
