import Anubis.Auth.Helpers.Steps

/-!
# No privileges beyond the grantor's

Who gives a role holds one in that workspace that the given role is within, at
the moment it is given; for an invitation this is the inviter, when it is
accepted. Who changes someone else's account has authority over it in every
workspace that the change reaches. And nobody becomes the configured
administrator, who is the exception to the second rule.
-/

namespace Anubis.Auth

open LocalAuthenticator Option AList

variable {actorRole current : MemberRole} {f : AccountRecord → AccountRecord} {userID ws' : String}
variable {user : User} {actor : Actor}

/-- The actor holds a role in the workspace that this one is within. -/
def LocalAuthenticator.MayGrant (a : LocalAuthenticator) (grantor ws : String) (role : MemberRole) :
    Prop :=
  ∃ held, a.Holds grantor ws held ∧ roleWithin role held = true

/-- **An event gives an account a role in a workspace.** An external sign-up makes
a viewer of the default workspace. The configured administrator who signs in
for the first time owns the default workspace. -/
def Granted (a : LocalAuthenticator) : Event → String → String → MemberRole → Prop
  | .createUser env actor _, id, ws, role => id = env.id ∧ a.MayGrant (actorID actor) ws role
  | .updateMember _ actor userID _, id, ws, role => id = userID ∧ a.MayGrant (actorID actor) ws role
  | .acceptCommit _ _, _, ws, role =>
    ∃ invID inv, a.invitations.lookup invID = some inv ∧ inv.workspace = ws ∧ inv.role = role ∧
      a.MayGrant inv.invitedByID ws role
  | .provisionExternalUser env .., id, ws, role => id = env.id ∧ ws = "default" ∧ role = .viewer
  | .loginFinish _ env, id, ws, role =>
    id = env.id ∧ ws = "default" ∧ role = .owner ∧
      a.isConfiguredAdminLocked (some (newAdmin env.now a.adminEmail))
  | _, _, _, _ => False

/-- **An event may change an account that has a role in a workspace.** An actor may
change the own account; the configured administrator may change every account;
others, accounts whose role is within their own. An external login changes the
account it signs in to. -/
def Authorised (a : LocalAuthenticator) (id ws : String) (role : MemberRole) : Event → Prop
  | .updateMember _ actor _ _ => ByActor a id ws role actor
  | .removeMember _ actor _ => ByActor a id ws role actor
  | .deleteUser _ actor _ => ByActor a id ws role actor
  | .provisionExternalUser _ email _ _ =>
    ∃ user, a.users.lookup id = some user ∧ sameEmail user.email (trimSpace email) = true
  | _ => False
where
  /-- The same for a call with an actor. -/
  ByActor (a : LocalAuthenticator) (id ws : String) (role : MemberRole) (actor : Actor) : Prop :=
    id = actorID actor ∨ a.isConfiguredAdminLocked (a.users.lookup (actorID actor)) = true ∨
      a.MayGrant (actorID actor) ws role

/-- **An account is the same for a workspace**: it exists as before, with its name,
its flag and its role there. -/
def SameIn (a a' : LocalAuthenticator) (id ws : String) : Prop :=
  ∃ user rec user' rec', a.users.lookup id = some user ∧ a.accounts.lookup id = some rec ∧
    a'.users.lookup id = some user' ∧ a'.accounts.lookup id = some rec' ∧ user'.name = user.name ∧
    rec'.disabled = rec.disabled ∧ rec'.memberships.lookup ws = rec.memberships.lookup ws

/-- There is an identity with the configured address. -/
def LocalAuthenticator.HasAdmin (a : LocalAuthenticator) : Prop :=
  ∃ id, a.isConfiguredAdminLocked (a.users.lookup id) = true

section Plans

variable {a a' : LocalAuthenticator} {id ws : String} {role : MemberRole}

section Roles

variable {rec : AccountRecord} {G : String → String → MemberRole → Prop} {other : String}

section

variable (h : a'.membership other ws = some role)

include h

/-- Where one record is set, the roles are those of the record and the others. -/
theorem membership_of_insert (ha : a'.accounts = a.accounts.insert id rec)
    (hself : ∀ ws role, rec.memberships.lookup ws = some role → a.membership id ws = some role ∨
      G id ws role) :
    a.membership other ws = some role ∨ G other ws role := by
  rw [membership, ha, lookup_insert_if] at h
  split at h
  · next heq =>
    subst heq
    exact hself ws role h
  · exact .inl h

theorem membership_of_erase (ha : a'.accounts = a.accounts.erase id) :
    a.membership other ws = some role := by
  rw [membership, ha, lookup_erase_if] at h
  split at h
  · cases h
  · exact h

theorem membership_of_modify
    (ha : a'.accounts = a.accounts.modify id f)
    (hf : ∀ rec, (f rec).memberships = rec.memberships) : a.membership other ws = some role := by
  rw [membership, ha, lookup_modify] at h
  split at h
  · next heq =>
    subst heq
    obtain ⟨rec', hrec', hlook⟩ := bind_eq_some_iff.mp h
    obtain ⟨rec, hrec, rfl⟩ := map_eq_some_iff.mp hrec'
    rw [hf] at hlook
    rwa [membership_of_lookup hrec]
  · exact h

end

end Roles

variable {S : Setup} {s : Service} {e : Event}

/-- **A plan gives roles only as granted.** -/
theorem Plan.grants (hok : s.Ok) (hnew : ∀ env ∈ e.env, s.auth.users.lookup env.id = none)
    (h : Plan S s e a')
    (id ws : String) (role : MemberRole) (hrole : a'.membership id ws = some role) :
    s.auth.membership id ws = some role ∨ Granted s.auth e id ws role := by
  have hc := hok.complete
  cases h with
  | ends | adminPassword => exact .inl hrole
  | create hactor hwithin =>
    refine membership_of_insert hrole rfl fun ws role hlook => .inr ?_
    obtain ⟨rfl, rfl⟩ := lookup_singleton_eq_some.mp hlook
    exact ⟨rfl, _, actorLocked_ok hc hactor, hwithin⟩
  | update hactor htarget hcheck =>
    obtain ⟨hu, hrec, hcurrent, -⟩ := targetLocked_ok htarget
    obtain ⟨-, hgrant, -⟩ := checkUpdate_ok hcheck
    refine membership_of_insert hrole accounts_revokeIf fun ws role hlook => ?_
    rw [updatedRecord] at hlook
    rw [membership_of_lookup hrec]
    dsimp only at hlook
    split at hlook
    · next hne =>
      obtain ⟨rfl, rfl⟩ | ⟨-, hlook⟩ := lookup_insert_eq_some.mp hlook
      · exact .inr ⟨rfl, _, actorLocked_ok hc hactor, (hgrant hne).1⟩
      · exact .inl hlook
    · exact .inl hlook
  | @remove env _ userID ws' _ _ user rec hactor htarget =>
    obtain ⟨hu, hrec, -, -⟩ := targetLocked_ok htarget
    rcases @withoutMember_cases s.auth env userID ws' user rec with ⟨-, heq⟩ | ⟨workspace, heq, -⟩
    · rw [heq] at hrole
      exact .inl (membership_of_erase hrole rfl)
    · rw [heq] at hrole
      refine membership_of_insert hrole rfl fun ws role hlook => .inl ?_
      rw [membership_of_lookup hrec]
      exact (lookup_erase_eq_some.mp hlook).2
  | delete => exact .inl (membership_of_erase hrole rfl)
  | join hacc hinv hfind hrec =>
    obtain ⟨hlookup, hvalid⟩ := validInvitation_ok hinv
    refine membership_of_insert hrole rfl fun ws role hlook => ?_
    rw [joinedRecord] at hlook
    rw [membership_of_lookup hrec]
    dsimp only at hlook
    split at hlook
    · exact .inl hlook
    · obtain ⟨rfl, rfl⟩ | ⟨-, hlook⟩ := lookup_insert_eq_some.mp hlook
      · exact .inr ⟨_, _, hlookup, rfl, rfl, inviterValidLocked_holds hvalid⟩
      · exact .inl hlook
  | acceptNew hacc hinv =>
    obtain ⟨hlookup, hvalid⟩ := validInvitation_ok hinv
    refine membership_of_insert hrole rfl fun ws role hlook => .inr ?_
    obtain ⟨rfl, rfl⟩ := lookup_singleton_eq_some.mp hlook
    exact ⟨_, _, hlookup, rfl, rfl, inviterValidLocked_holds hvalid⟩
  | signIn hfind hrec =>
    refine membership_of_insert hrole rfl fun ws role hlook => .inl ?_
    rwa [membership_of_lookup hrec]
  | signUp =>
    refine membership_of_insert hrole rfl fun ws role hlook => .inr ?_
    obtain ⟨rfl, rfl⟩ := lookup_singleton_eq_some.mp hlook
    exact ⟨rfl, rfl, rfl⟩
  | @login _ env l _ _ _ known hlogin hhash hknown =>
    -- the time of the login is not a role
    have hbefore : known.membership id ws = some role := membership_of_modify hrole rfl fun _ => rfl
    rcases loginIdentity_cases hknown with ⟨-, rfl⟩ | ⟨hfind, rfl, rfl, rfl⟩
    · exact .inl hbefore
    · have hadmin := isConfiguredAdmin_newAdmin env.now
        (sameEmail_admin_of_login (hok.logins l (List.mem_of_getElem? hlogin)) hfind hhash)
      rw [membership, migrate_insert hc (hnew env rfl), migratedRecord, if_pos hadmin] at hbefore
      split at hbefore
      · next heq =>
        subst heq
        obtain ⟨rfl, rfl⟩ := lookup_singleton_eq_some.mp hbefore
        exact .inr ⟨rfl, rfl, rfl, hadmin⟩
      · exact .inl hbefore
  | password resetTokens henv hhash hu hchanged =>
    subst hchanged
    exact .inl (membership_of_modify hrole rfl fun _ => rfl)

/-! ## Changes -/

section Changes

variable {other : String} (hc : a.Complete)

include hc

/-- An account whose identity and record are what they were. -/
theorem sameIn_of_lookup (hrole : a.membership id ws = some role)
    (hu : a'.users.lookup id = a.users.lookup id)
    (ha : a'.accounts.lookup id = a.accounts.lookup id) : SameIn a a' id ws := by
  obtain ⟨rec, hrec, -⟩ := bind_eq_some_iff.mp hrole
  obtain ⟨user, huser⟩ := hc.user hrec
  exact ⟨user, rec, user, rec, huser, hrec, hu.trans huser, ha.trans hrec, rfl, rfl, rfl⟩

theorem Touches.sameIn (h : Touches a a' id) (hrole : a.membership other ws = some role)
    (hne : other ≠ id) : SameIn a a' other ws :=
  sameIn_of_lookup hc hrole (h.users other hne) (h.accounts other hne)

theorem ne_of_new (hnew : a.users.lookup id = none) (hrole : a.membership other ws = some role) :
    other ≠ id := by
  rintro rfl
  obtain ⟨rec, hrec, -⟩ := bind_eq_some_iff.mp hrole
  obtain ⟨user, hu⟩ := hc.user hrec
  rw [hnew] at hu
  cases hu

/-- A record that has only changed in what is not seen. -/
theorem sameIn_of_modify
    (hrole : a.membership other ws = some role) (hu : a'.users = a.users)
    (ha : a'.accounts = a.accounts.modify id f)
    (hf : ∀ rec, (f rec).disabled = rec.disabled ∧ (f rec).memberships = rec.memberships) :
    SameIn a a' other ws := by
  obtain ⟨rec, hrec, -⟩ := bind_eq_some_iff.mp hrole
  obtain ⟨user, huser⟩ := hc.user hrec
  by_cases heq : other = id
  · subst heq
    refine ⟨user, rec, user, f rec, huser, hrec, by rw [hu, huser], ?_, rfl,
      (hf rec).1, by rw [(hf rec).2]⟩
    rw [ha, lookup_modify, if_pos rfl, hrec]
    rfl
  · exact sameIn_of_lookup hc hrole (by rw [hu]) (by rw [ha, lookup_modify, if_neg heq])

variable {rec : AccountRecord} (hactor : a.actorLocked actor = .ok (ws', actorRole))
  (htarget : a.targetLocked ws' actorRole userID = .ok (user, rec, current))

include hactor htarget

/-- An actor who may change the whole account has authority in each of its
workspaces. -/
theorem byActor_of_scope
    (hscope : a.isConfiguredAdminLocked (a.users.lookup (actorID actor)) = true ∨
      ∀ other, (rec.memberships.lookup other).isSome → other = ws')
    (hrole : a.membership userID ws = some role) : Authorised.ByActor a userID ws role actor := by
  obtain ⟨-, hrec, hcurrent, hwithin⟩ := targetLocked_ok htarget
  rw [membership_of_lookup hrec] at hrole
  rcases hscope with hadmin | honly
  · exact .inr (.inl hadmin)
  · obtain rfl := honly ws (isSome_of_mem hrole)
    obtain rfl : current = role := some.inj (hcurrent.symm.trans hrole)
    exact .inr (.inr ⟨actorRole, actorLocked_ok hc hactor, hwithin⟩)

/-- **An update** that changes what a workspace sees is made with authority there. -/
theorem update_changes (env : Env) {upd : MemberUpdate}
    (hcheck : a.checkUpdate actor userID user rec ws' actorRole current upd = .ok ())
    (hrole : a.membership userID ws = some role)
    (hu' : a'.users.lookup userID = some (updatedUser user upd))
    (ha' : a'.accounts.lookup userID = some (updatedRecord env rec ws' current upd)) :
    SameIn a a' userID ws ∨ Authorised.ByActor a userID ws role actor := by
  obtain ⟨hu, hrec, hcurrent, hwithin⟩ := targetLocked_ok htarget
  obtain ⟨hname, -, hwide, hscope⟩ := checkUpdate_ok hcheck
  have hlook : rec.memberships.lookup ws = some role := (membership_of_lookup hrec).symm.trans hrole
  by_cases hauth : Authorised.ByActor a userID ws role actor
  · exact .inr hauth
  refine .inl ⟨user, rec, _, _, hu, hrec, hu', ha', ?_, ?_, ?_⟩
  · unfold updatedUser
    split
    · next hsome =>
      have hself : userID ≠ actorID actor := fun heq => hauth (.inl heq)
      exact (hauth (byActor_of_scope hc hactor htarget (accountScopeLocked_ok (hname hsome hself))
        hrole)).elim
    · rfl
  · change upd.newDisabled rec = rec.disabled
    by_contra hne
    cases hd : upd.newDisabled rec with
    | true =>
      have := (accountWideLocked_ok (hwide hne hd)).2.2.1
      exact hauth (byActor_of_scope hc hactor htarget this hrole)
    | false =>
      exact hauth (byActor_of_scope hc hactor htarget (accountScopeLocked_ok (hscope hne hd)) hrole)
  · have hws : ws ≠ ws' := by
      rintro rfl
      obtain rfl : current = role := some.inj (hcurrent.symm.trans hlook)
      exact hauth (.inr (.inr ⟨actorRole, actorLocked_ok hc hactor, hwithin⟩))
    unfold updatedRecord
    dsimp only
    split
    · rw [lookup_insert_ne hws]
    · rfl

/-- **A removal** changes what the other workspaces see only where the actor has
authority. -/
theorem remove_changes {env : Env} (hrole : a.membership other ws = some role) :
    SameIn a ((a.withoutMember env userID user rec ws').revokeUserSessionsLocked userID) other ws ∨
      Authorised.ByActor a other ws role actor := by
  obtain ⟨hu, hrec, hcurrent, hwithin⟩ := targetLocked_ok htarget
  have hhere : other = userID → ws = ws' → Authorised.ByActor a other ws role actor := by
    rintro rfl rfl
    rw [membership_of_lookup hrec, hcurrent] at hrole
    cases hrole
    exact .inr (.inr ⟨actorRole, actorLocked_ok hc hactor, hwithin⟩)
  rcases @withoutMember_cases a env userID ws' user rec with ⟨honly, heq⟩ | ⟨workspace, heq, -⟩
  · rw [heq]
    by_cases hid : other = userID
    · subst hid
      rw [membership_of_lookup hrec] at hrole
      exact .inr (hhere rfl (honly ws (isSome_of_mem hrole)))
    · exact .inl (Touches.sameIn hc (.of_erase rfl rfl rfl) hrole hid)
  · rw [heq]
    by_cases hid : other = userID
    · subst hid
      by_cases hws : ws = ws'
      · exact .inr (hhere rfl hws)
      · exact .inl ⟨user, rec, _, _, hu, hrec, lookup_insert _, lookup_insert _, rfl, rfl,
          lookup_erase_ne hws⟩
    · exact .inl (Touches.sameIn hc (.of_insert rfl rfl rfl) hrole hid)

end Changes

/-- **A plan changes accounts only with authority over them.** -/
theorem Plan.changes (hc : s.auth.Complete) (hnew : ∀ env ∈ e.env,
    s.auth.users.lookup env.id = none)
    (h : Plan S s e a') (id ws : String) (role : MemberRole)
    (hrole : s.auth.membership id ws = some role) :
    SameIn s.auth a' id ws ∨ Authorised s.auth id ws role e := by
  cases h with
  | ends | adminPassword => exact .inl (sameIn_of_lookup hc hrole rfl rfl)
  | create
  | acceptNew
  | signUp =>
    exact .inl (Touches.sameIn hc (.of_insert rfl rfl rfl) hrole (ne_of_new hc (hnew _ rfl) hrole))
  | @update env _ userID _ _ _ _ _ _ hactor htarget hcheck =>
    by_cases hid : id = userID
    · subst hid
      refine update_changes hc hactor htarget env hcheck hrole ?_ ?_
      · split <;> exact lookup_insert _
      · split <;> exact lookup_insert _
    · refine .inl (Touches.sameIn hc ?_ hrole hid)
      split <;> exact .of_insert rfl rfl rfl
  | remove hactor htarget => exact remove_changes hc hactor htarget hrole
  | @delete _ _ userID _ _ _ _ _ hactor htarget hwide =>
    by_cases hid : id = userID
    · subst hid
      exact .inr (byActor_of_scope hc hactor htarget (accountWideLocked_ok hwide).2.2.1 hrole)
    · exact .inl (Touches.sameIn hc (.of_erase rfl rfl rfl) hrole hid)
  | @join _ _ _ _ id' _ user rec hacc hinv hfind hrec =>
    refine .inl ?_
    have hu := (findByEmailLocked_some hfind).1
    by_cases hid : id = id'
    · subst hid
      refine ⟨user, rec, user, _, hu, hrec, hu, lookup_insert _, rfl, rfl, ?_⟩
      rw [membership_of_lookup hrec] at hrole
      unfold joinedRecord
      dsimp only
      split
      · rfl
      · next hnone =>
        refine lookup_insert_ne ?_
        rintro rfl
        exact hnone (isSome_of_mem hrole)
    · exact sameIn_of_lookup hc hrole rfl (lookup_insert_ne hid)
  | @signIn _ _ _ id' _ user _ hfind =>
    by_cases hid : id = id'
    · subst hid
      exact .inr ⟨user, findByEmailLocked_some hfind⟩
    · exact .inl (Touches.sameIn hc (.of_insert rfl rfl rfl) hrole hid)
  | login hlogin hhash hknown =>
    refine .inl ?_
    rcases loginIdentity_cases hknown with ⟨-, rfl⟩ | ⟨-, rfl, rfl, rfl⟩
    · exact sameIn_of_modify hc hrole rfl rfl fun _ => ⟨rfl, rfl⟩
    · have hne := ne_of_new hc (hnew _ rfl) hrole
      refine sameIn_of_lookup hc hrole (lookup_insert_ne hne) ?_
      dsimp only
      rw [lookup_modify, if_neg hne, migrate_insert hc (hnew _ rfl), if_neg hne]
  | password resetTokens henv hhash hu hchanged =>
    subst hchanged
    exact .inl (sameIn_of_modify hc hrole rfl rfl fun _ => ⟨rfl, rfl⟩)

/-! ## The configured administrator -/

/-- **The configured administrator's account is not deleted.** -/
theorem Plan.not_deleted (h : Plan S s e a') (hu : s.auth.users.lookup id = some user)
    (hgone : a'.users.lookup id = none) : s.auth.isConfiguredAdminLocked (some user) = false := by
  have hkept : a'.users = s.auth.users → False := by
    intro heq
    rw [heq, hu] at hgone
    cases hgone
  have hset : ∀ k new, a'.users = s.auth.users.insert k new → False := by
    intro k new heq
    rw [heq, lookup_insert_eq_none, hu] at hgone
    cases hgone.2
  have hother : ∀ k, a'.users = s.auth.users.erase k → id = k := by
    intro k heq
    rw [heq, lookup_erase_if] at hgone
    by_contra hne
    rw [if_neg hne, hu] at hgone
    cases hgone
  cases h with
  | ends | join | adminPassword => exact (hkept rfl).elim
  | create | acceptNew | signIn | signUp => exact (hset _ _ rfl).elim
  | update => exact (hset _ _ users_revokeIf).elim
  | @remove env _ userID ws' _ _ user' rec hactor htarget howner hadmin =>
    obtain ⟨hu', -, hcurrent, -⟩ := targetLocked_ok htarget
    rcases @withoutMember_cases s.auth env userID ws' user' rec with
      ⟨honly, heq⟩ | ⟨workspace, heq, -⟩
    · obtain rfl := hother userID (by rw [heq]; rfl)
      obtain rfl : user' = user := some.inj (hu'.symm.trans hu)
      by_contra hconf
      exact hadmin (by simpa using hconf) (length_keys_of_only hcurrent honly)
    · exact (hset _ _ (by rw [heq]; rfl)).elim
  | delete hactor htarget hwide =>
    obtain rfl := hother _ rfl
    cases (targetLocked_ok htarget).1.symm.trans hu
    exact (accountWideLocked_ok hwide).2.1
  | login hlogin hhash hknown =>
    rcases loginIdentity_cases hknown with ⟨-, rfl⟩ | ⟨-, rfl, rfl, rfl⟩
    · exact (hkept rfl).elim
    · exact (hset _ _ rfl).elim
  | password resetTokens henv hhash hu hchanged =>
    subst hchanged
    exact (hkept rfl).elim

/-- **The configured administrator stays the configured administrator, and nobody
else becomes it** once there is an identity for it. -/
theorem Plan.admins (hok : s.Ok) (hnew : ∀ env ∈ e.env, s.auth.users.lookup env.id = none)
    (h : Plan S s e a') (hadmin : s.auth.HasAdmin) (id : String) :
    a'.isConfiguredAdminLocked (a'.users.lookup id) = s.auth.isConfiguredAdminLocked
    (s.auth.users.lookup id) := by
  obtain ⟨_, htouch, -⟩ := h.touches hok.complete hnew
  have hemail : ∀ {u u' : User}, u'.email = u.email →
      a'.isConfiguredAdminLocked (some u') = s.auth.isConfiguredAdminLocked (some u) := by
    intro u u' heq
    simp [isConfiguredAdminLocked, htouch.adminEmail, heq]
  cases hu' : a'.users.lookup id with
  | none =>
    cases hu : s.auth.users.lookup id with
    | none => rfl
    | some => exact (h.not_deleted hu hu').symm
  | some user' =>
    rcases h.addressed hok.logins hu' with ⟨user, hu, heq⟩ | ⟨⟨env, henv, rfl⟩, hnone⟩
    · rw [hu]
      exact hemail heq
    · -- a new account: the administrator's address was taken
      rw [hnew env henv]
      obtain ⟨k, hk⟩ := hadmin
      obtain ⟨u, hu, hsame⟩ := (any_eq_true _ _).mp hk
      refine Bool.eq_false_iff.mpr fun hconf => ?_
      have hconf' : sameEmail user'.email a'.adminEmail = true := hconf
      rw [htouch.adminEmail, sameEmail_iff] at hconf'
      rw [sameEmail_iff] at hsame
      have := sameEmail_iff.mpr ⟨hsame.1, hsame.2.trans hconf'.2.symm⟩
      rw [hnone k u hu] at this
      cases this

end Plans

/-- **No privilege escalation through the directory**: in every state of a running
server and for every event by whomever,

* a role that an account gets in a workspace is within the role that the grantor
  holds there at that moment (the inviter, for an invitation);
* an account whose name, flag, role or existence changes in a workspace is
  changed by someone with authority over it there;
* once the configured administrator has an identity, no other account becomes
  the configured administrator. -/
theorem Service.Reachable.no_escalation {S : Setup} {s s' : Service} {env : Env}
    {file : Option SessionFile} {adminEmail adminPassword : String} {e : Event}
    (h : s.Reachable S env file adminEmail adminPassword) (hs : s.step S e = some s') :
    (∀ id ws role, s'.auth.membership id ws = some role →
      s.auth.membership id ws = some role ∨ Granted s.auth e id ws role) ∧
    (∀ id ws role, s.auth.membership id ws = some role →
      SameIn s.auth s'.auth id ws ∨ Authorised s.auth id ws role e) ∧
    (s.auth.HasAdmin → ∀ id, s'.auth.isConfiguredAdminLocked (s'.auth.users.lookup id) =
      s.auth.isConfiguredAdminLocked (s.auth.users.lookup id)) := by
  refine ⟨?_, ?_, ?_⟩
  · exact h.ok.step_of_plan hs (fun _ _ h => h) fun _ hplan hnew => hplan.grants h.ok hnew
  · exact h.ok.step_of_plan hs (fun _ _ h => h) fun _ hplan hnew => hplan.changes h.ok.complete hnew
  · intro hadmin
    exact h.ok.step_of_plan hs (fun _ _ h => h) fun _ hplan hnew => hplan.admins h.ok hnew hadmin

/-- The administrator invites an editor, who looks the invitation up. -/
def invitation : List Event :=
  [.createInvitation (plainEnv "invitation" "secret" "#none") (someone "first") "c@x.io" .editor,
    .acceptLookup (plainEnv "none" "t1" "#Sufficient-3") "secret" "C" "Sufficient-3"]

/-- The editor accepts. -/
def acceptance : Event := .acceptCommit 0 (plainEnv "third" "t2" "#other")

/-- **The theorem at work**: the role of the editor is within the role of the one
who has sent the invitation. -/
theorem no_escalation_invited :
    ∃ s s' : Service, s.Reachable plainSetup startEnv none "admin@x.io" "Sufficient-1" ∧
    s.step plainSetup acceptance = some s' ∧ s'.auth.membership "third" "default" = some .editor ∧
    Granted s.auth acceptance "third" "default" .editor := by
  have hrun : ((Runs.run (Service.step plainSetup) (Service.start firstServer) invitation).any
      fun s => s.auth.membership "third" "default" = none ∧
        (s.step plainSetup acceptance).any fun s' =>
        s'.auth.membership "third" "default" = some .editor) = true := by
    decide +kernel
  obtain ⟨s, hs, hp⟩ := Runs.exists_of_any hrun
  obtain ⟨hbefore, hstep⟩ := of_decide_eq_true hp
  obtain ⟨s', hs', hafter⟩ := (any_eq_true _ _).mp hstep
  have hrole : s'.auth.membership "third" "default" = some .editor := of_decide_eq_true hafter
  refine ⟨s, s', firstServer_reachable hs, hs', hrole, ?_⟩
  rcases (Service.Reachable.no_escalation (firstServer_reachable hs) hs').1 _ _ _ hrole with h | h
  · rw [hbefore] at h
    cases h
  · exact h

end Anubis.Auth
