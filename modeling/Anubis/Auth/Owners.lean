import Anubis.Auth.Helpers.Steps

/-!
# A workspace keeps an owner

Whatever changes an account counts the other owners first, in every workspace
that the change reaches. So a workspace with an enabled owner has one in every
later state.
-/

namespace Anubis.Auth

open LocalAuthenticator Option AList

section Plans

variable {a a' : LocalAuthenticator} {id ws : String}

theorem hasOwner_of_others (hothers : a.ownersLocked ws id ≠ 0) (h : Touches a a' id) :
    a'.HasOwner ws := by
  obtain ⟨other, rec, hne, hrec, henabled, hrole⟩ := ownersLocked_ne_zero.mp hothers
  exact ⟨other, rec, by rw [h.accounts other hne, hrec], henabled, hrole⟩

/-- A change of one account keeps an owner if it does so when that account is
one. -/
theorem LocalAuthenticator.HasOwner.of_touches (ho : a.HasOwner ws) (h : Touches a a' id)
    (hself : ∀ rec, a.accounts.lookup id = some rec → rec.disabled = false →
      rec.memberships.lookup ws = some .owner → a'.HasOwner ws) : a'.HasOwner ws := by
  obtain ⟨other, rec, hrec, henabled, hrole⟩ := ho
  by_cases heq : other = id
  · exact hself rec (heq ▸ hrec) henabled hrole
  · exact ⟨other, rec, by rw [h.accounts other heq, hrec], henabled, hrole⟩

theorem LocalAuthenticator.HasOwner.of_record (ho : a.HasOwner ws) (h : Touches a a' id)
    {rec : AccountRecord} (hrec : a.accounts.lookup id = some rec)
    (hself : rec.disabled = false → rec.memberships.lookup ws = some .owner → a'.HasOwner ws) :
    a'.HasOwner ws :=
  ho.of_touches h fun _ hr => some.inj (hrec.symm.trans hr) ▸ hself

theorem hasOwner_revokeIf {p : Prop} [Decidable p] :
    (if p then a.revokeUserSessionsLocked id else a).HasOwner ws ↔ a.HasOwner ws := by
  split <;> rfl

variable {S : Setup} {s : Service} {e : Event}

/-- **A plan keeps an enabled owner** in every workspace that has one. -/
theorem Plan.hasOwner (hc : s.auth.Complete) (hnew : ∀ env ∈ e.env,
    s.auth.users.lookup env.id = none)
    (ho : s.auth.HasOwner ws) (h : Plan S s e a') : a'.HasOwner ws := by
  have habsent : ∀ env ∈ e.env, ∀ rec, s.auth.accounts.lookup env.id = some rec → False := by
    intro env henv rec hrec
    obtain ⟨user, hu⟩ := hc.user hrec
    rw [hnew env henv] at hu
    cases hu
  cases h with
  | ends | adminPassword => exact ho
  | create | acceptNew
  | signUp =>
    exact ho.of_touches (.of_insert rfl rfl rfl) fun rec hrec => (habsent _ rfl rec hrec).elim
  | @update _ _ userID ws' upd _ current _ rec hactor htarget hcheck =>
    obtain ⟨hu, hrec, hcurrent, -⟩ := targetLocked_ok htarget
    obtain ⟨-, hrole, hwide, -⟩ := checkUpdate_ok hcheck
    refine hasOwner_revokeIf.mpr
      (ho.of_record (.of_insert rfl rfl rfl) hrec fun henabled howner => ?_)
    -- the account is an owner here: it stays one, or there are others
    by_cases hdis : upd.newDisabled rec = rec.disabled
    · by_cases hchange : upd.newRole current ≠ current ∧ ws = ws'
      · obtain ⟨hne, rfl⟩ := hchange
        obtain rfl : current = .owner := some.inj (hcurrent.symm.trans howner)
        exact hasOwner_of_others ((hrole hne).2 rfl) (.of_insert rfl rfl rfl)
      · refine ⟨userID, _, lookup_insert _, hdis.trans henabled, ?_⟩
        unfold updatedRecord
        dsimp only
        split
        · next hne => rw [lookup_insert_ne fun heq => hchange ⟨hne, heq⟩, howner]
        · exact howner
    · have hdisabled : upd.newDisabled rec = true := by
        rw [henabled] at hdis
        simpa using hdis
      exact hasOwner_of_others ((accountWideLocked_ok (hwide hdis hdisabled)).2.2.2 ws howner)
        (.of_insert rfl rfl rfl)
  | @remove env _ userID ws' _ _ user rec hactor htarget howner =>
    obtain ⟨hu, hrec, hrole, -⟩ := targetLocked_ok htarget
    have hothers : ws = ws' → rec.memberships.lookup ws = some .owner →
      s.auth.ownersLocked ws userID ≠ 0 := by
      rintro rfl hown
      exact howner (some.inj (hrole.symm.trans hown))
    rcases @withoutMember_cases s.auth env userID ws' user rec with
      ⟨honly, heq⟩ | ⟨workspace, heq, -⟩
    · rw [heq]
      refine ho.of_record (.of_erase rfl rfl rfl) hrec fun _ hown => ?_
      exact hasOwner_of_others (hothers (honly ws (isSome_of_mem hown)) hown)
        (.of_erase rfl rfl rfl)
    · rw [heq]
      refine ho.of_record (.of_insert rfl rfl rfl) hrec fun henabled hown => ?_
      by_cases hws : ws = ws'
      · exact hasOwner_of_others (hothers hws hown) (.of_insert rfl rfl rfl)
      · exact ⟨userID, _, lookup_insert _, henabled, by rw [lookup_erase_ne hws, hown]⟩
  | delete hactor htarget hwide =>
    refine ho.of_record (.of_erase rfl rfl rfl) (targetLocked_ok htarget).2.1 fun _ hown => ?_
    exact hasOwner_of_others ((accountWideLocked_ok hwide).2.2.2 ws hown) (.of_erase rfl rfl rfl)
  | @join _ _ _ _ id _ _ rec hacc hinv hfind hrec =>
    obtain ⟨other, r, hr, henabled, hown⟩ := ho
    by_cases heq : other = id
    · subst heq
      obtain rfl : rec = r := some.inj (hrec.symm.trans hr)
      refine ⟨other, _, lookup_insert _, henabled, ?_⟩
      unfold joinedRecord
      dsimp only
      split
      · exact hown
      · next hnone =>
        rw [lookup_insert_ne, hown]
        rintro rfl
        exact hnone (isSome_of_mem hown)
    · exact ⟨other, r, (lookup_insert_ne heq).trans hr, henabled, hown⟩
  | signIn hfind hrec =>
    exact ho.of_record (.of_insert rfl rfl rfl) hrec fun henabled hown =>
      ⟨_, _, lookup_insert _, henabled, hown⟩
  | @login _ env _ id _ _ known hlogin hhash hknown =>
    obtain ⟨other, rec, hrec, henabled, hown⟩ := ho
    have hlater : known.accounts.lookup other = some rec := by
      rcases loginIdentity_cases hknown with ⟨-, rfl⟩ | ⟨-, -, -, rfl⟩
      · exact hrec
      · rw [migrate_insert hc (hnew env rfl), if_neg, hrec]
        rintro rfl
        exact habsent env rfl rec hrec
    refine ⟨other, if other = id then { rec with lastLoginAt := some env.now } else rec, ?_, ?_, ?_⟩
    · rw [lookup_modify]
      split
      · next heq => rw [← heq, hlater]; rfl
      · exact hlater
    · split <;> exact henabled
    · split <;> exact hown
  | @password _ env id user _ resetTokens henv hhash hu hchanged =>
    subst hchanged
    obtain ⟨rec, hrec⟩ := hc.account hu
    refine ho.of_record (hc.touches_modify rfl rfl rfl) hrec fun henabled hown =>
      ⟨id, s.auth.rehashed env.now user env.hash rec, ?_, henabled, hown⟩
    exact (lookup_modify.trans (if_pos rfl)).trans (congrArg _ hrec)

end Plans

variable {S : Setup} {s s' : Service}

theorem Service.Ok.hasOwner_step (hok : s.Ok) {e : Event} {ws : String} (ho : s.auth.HasOwner ws)
    (hs : s.step S e = some s') : s'.auth.HasOwner ws :=
  hok.step_of_plan hs (fun _ _ h => h) fun _ h hnew => h.hasOwner hok.complete hnew ho

/-- **A workspace never loses its last owner**: one that has an enabled owner in
some state of a running server has one in every later state, whatever calls are
made in between by whomever. -/
theorem Service.Reachable.keeps_owner {env : Env} {file : Option SessionFile}
    {adminEmail adminPassword ws : String}
    (h : s.Reachable S env file adminEmail adminPassword) (ho : s.auth.HasOwner ws)
    (hlater : s.Later S s') : s'.auth.HasOwner ws := by
  refine h.ok.later_of_step (P := fun t => t.auth.HasOwner ws) ho ?_ hlater
  intro t e t' hok ho hs
  exact hok.hasOwner_step ho hs

/-- A second owner takes the role from the first. -/
def demotion : List Event :=
  [.createUser (plainEnv "second" "t1" "#Sufficient-2") (someone "first")
    ⟨"b@x.io", "", "Sufficient-2", .owner⟩,
    .updateMember (plainEnv "none" "t2" "#none") (someone "second") "first"
    ⟨some .viewer, none, none⟩]

/-- **The theorem at work**: the first owner is demoted, and the workspace still
has one. -/
theorem keeps_owner_demoted : ∃ s, (Service.start firstServer).Later plainSetup s ∧
    s.auth.membership "first" "default" = some .viewer ∧ s.auth.HasOwner "default" := by
  have hrun : ((Runs.run (Service.step plainSetup) (Service.start firstServer) demotion).any
      fun s => s.auth.membership "first" "default" = some .viewer) = true := by decide +kernel
  obtain ⟨s, hs, hviewer⟩ := Runs.exists_of_any hrun
  have hlater : (Service.start firstServer).Later plainSetup s :=
    Runs.Reachable.of_run .init (fun _ _ => trivial) hs
  have howner : firstServer.membership "first" "default" = some .owner ∧
      ((firstServer.accounts.lookup "first").any fun rec =>
        !rec.disabled) = true := by decide +kernel
  refine ⟨s, hlater, of_decide_eq_true hviewer, ?_⟩
  refine Service.Reachable.keeps_owner (@firstServer_reachable [] _ rfl) ?_ hlater
  obtain ⟨rec, hrec, hrole⟩ := bind_eq_some_iff.mp howner.1
  exact ⟨"first", rec, hrec, by simpa [hrec] using howner.2, hrole⟩

end Anubis.Auth
