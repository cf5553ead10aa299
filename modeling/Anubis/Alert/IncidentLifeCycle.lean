import Anubis.Alert.Model.Incidents
import Anubis.Common.Runs

/-!
# The life of an incident

Nothing keeps an acknowledgement from being written to an incident that is
resolved, be it that the incident was resolved before the operator acted or while
the copy was stored: the incident is unresolved again, next to one that was opened
meanwhile. Where no acknowledgement meets a resolved incident, and no new incident
gets the identifier of another, a resolved incident stays resolved, and a rule and
a soul have at most one unresolved incident.
-/

namespace Anubis.Alert

open AList Option Runs

namespace Manager

variable {m m' : Manager} {e : Event}
variable {incident : Incident} {key : String}

/-- **What holds of every manager**: an incident is found under its identifier, a
copy is of an incident that is there, and a rule and a soul have at most one
unresolved incident. -/
structure Ok (m : Manager) : Prop where
  keyed : ∀ key incident, m.incidents.lookup key = some incident → incident.id = key
  copies : ∀ call updated, m.calls.lookup call = some (.updating updated) →
    ∃ incident, m.incidents.lookup updated.id = some incident ∧ incident.ruleID = updated.ruleID ∧
      incident.soulID = updated.soulID
  unique : ∀ key key' incident incident', m.incidents.lookup key = some incident →
    m.incidents.lookup key' = some incident' → incident.ruleID = incident'.ruleID →
    incident.soulID = incident'.soulID →
    incident.status ≠ .resolved → incident'.status ≠ .resolved → key = key'

/-- The condition on a step: a new incident gets an identifier that is not in use,
and an acknowledgement is not written to a resolved incident. -/
def meets (m : Manager) : Event → Bool
  | .record start id rule soul _ =>
    (m.findOpen start rule.id soul.id).isSome || (m.incidents.lookup id).isNone
  | .finishUpdate call true =>
    match m.calls.lookup call with
    | some (.updating updated) =>
      updated.status = .resolved || (m.incidents.lookup updated.id).all fun incident =>
        incident.status ≠ .resolved
    | _ => true
  | _ => true

/-! ## What a step changes -/

/-- The incident stays of one rule and one soul, and resolved if it was. -/
structure Kept (old new : Incident) : Prop where
  id : new.id = old.id
  ruleID : new.ruleID = old.ruleID
  soulID : new.soulID = old.soulID
  resolved : old.status = .resolved → new.status = .resolved

theorem Kept.refl : Kept incident incident :=
  ⟨rfl, rfl, rfl, fun h => h⟩

/-- **What a step can do to the incidents.** -/
inductive Change (m m' : Manager) : Prop
  | nothing (h : m'.incidents = m.incidents)
  | replaced (key : String) (old new : Incident) (hold : m.incidents.lookup key = some old)
      (hkept : Kept old new) (h : m'.incidents = m.incidents.insert key new)
  | opened (id : String) (new : Incident) (hfresh : m.incidents.lookup id = none)
      (hid : new.id = id) (hnone : ∀ key incident, m.incidents.lookup key = some incident →
        incident.ruleID = new.ruleID →
        incident.soulID = new.soulID → incident.status = .resolved)
      (h : m'.incidents = m.incidents.insert id new)

theorem findOpen_eq_some {start : ℕ} {ruleID soulID key : String}
    (h : m.findOpen start ruleID soulID = some (key, incident)) :
    m.incidents.lookup key = some incident ∧ incident.status ≠ .resolved := by
  have hfound := List.find?_some h
  simp only [Bool.and_eq_true, decide_eq_true_eq] at hfound
  exact ⟨mem_range.mp (List.mem_of_find?_eq_some h), hfound.2⟩

theorem findOpen_eq_none {start : ℕ} {ruleID soulID : String}
    (h : m.findOpen start ruleID soulID = none)
    (hlookup : m.incidents.lookup key = some incident) (hrule : incident.ruleID = ruleID)
    (hsoul : incident.soulID = soulID) : incident.status = .resolved := by
  have := List.find?_eq_none.mp h (key, incident) (mem_range.mpr hlookup)
  simpa [hrule, hsoul] using this

/-- The steps that no incident is changed in. -/
def Event.aside : Event → Bool
  | .startUpdate .. | .checkEscalation .. | .startEscalation .. | .sendToChannel .. => true
  | _ => false

theorem incidents_of_aside (h : m.step e = some m') (he : e.aside = true) :
    m'.incidents = m.incidents := by
  cases e with
  | startUpdate =>
    simp only [step, startUpdate] at h
    split at h
    · split at h
      · rw [← some.inj h]
      · split at h
        · cases h
        · rw [← some.inj h]
    · rw [← some.inj h]
  | checkEscalation =>
    simp only [step, checkEscalation] at h
    split at h
    · split at h
      · rw [← some.inj h]
      · cases h
    · cases h
  | startEscalation =>
    simp only [step, startEscalation] at h
    split at h
    · split at h
      · split at h
        · split at h <;> rw [← some.inj h]
        · rw [← some.inj h]
      · rw [← some.inj h]
    · cases h
  | sendToChannel =>
    simp only [step, sendToChannel] at h
    split at h
    · rw [← some.inj h]
    · cases h
  | _ => cases he

/-- **Every step that meets the condition** leaves the incidents, replaces one that
is kept, or opens one where none was unresolved. -/
theorem change_of_step (hok : m.Ok) (hmeets : m.meets e = true) (h : m.step e = some m') :
    Change m m' := by
  cases e with
  | record start id rule soul =>
    cases h
    simp only [meets, Bool.or_eq_true, isNone_iff_eq_none] at hmeets
    unfold recordIncident
    cases hfound : m.findOpen start rule.id soul.id with
    | some found =>
      refine .replaced found.1 found.2 _ (findOpen_eq_some hfound).1 ?_ rfl
      exact ⟨rfl, rfl, rfl, fun h => h⟩
    | none =>
      have hfresh := hmeets.resolve_left (by simp [hfound])
      exact .opened id _ hfresh rfl (fun _ _ hlookup hrule hsoul =>
        findOpen_eq_none hfound hlookup hrule hsoul) rfl
  | autoResolve start ruleID soulID =>
    cases h
    unfold autoResolveOpenIncident
    cases hfound : m.findOpen start ruleID soulID with
    | some found =>
      refine .replaced found.1 found.2 _ (findOpen_eq_some hfound).1 ?_ rfl
      exact ⟨rfl, rfl, rfl, fun _ => rfl⟩
    | none => exact .nothing rfl
  | startUpdate | checkEscalation | startEscalation | sendToChannel =>
    exact .nothing (incidents_of_aside h rfl)
  | finishUpdate call =>
    simp only [step, finishUpdate] at h
    split at h
    · next updated hcall =>
      obtain ⟨incident, hlookup, hrule, hsoul⟩ := hok.copies call updated hcall
      split at h
      · next hsaved =>
        subst hsaved
        cases h
        simp only [meets, hcall, hlookup, all_some, Bool.or_eq_true, decide_eq_true_eq] at hmeets
        refine .replaced updated.id incident { updated with events := incident.events } hlookup
          ⟨(hok.keyed _ _ hlookup).symm, hrule.symm, hsoul.symm, fun hres =>
            hmeets.resolve_right fun hne => hne hres⟩ ?_
        simp only [hlookup]
      · exact .nothing (by rw [← some.inj h])
    · cases h
  | finishEscalation =>
    simp only [step, finishEscalation] at h
    split at h
    · next incidentID _ _ now hcall =>
      cases h
      unfold AList.modify
      cases hlookup : m.incidents.lookup incidentID with
      | some incident =>
        refine .replaced incidentID incident _ hlookup ?_ rfl
        exact ⟨rfl, rfl, rfl, fun h => h⟩
      | none => exact .nothing rfl
    · cases h

/-! ## One step -/

/-- An incident that is there stays, and is kept. -/
theorem Change.kept (h : Change m m')
    (hlookup : m.incidents.lookup key = some incident) :
    ∃ incident', m'.incidents.lookup key = some incident' ∧ Kept incident incident' := by
  cases h with
  | nothing h => exact ⟨incident, h ▸ hlookup, .refl⟩
  | replaced key' old new hold hkept h =>
    rw [h, lookup_insert_if]
    split
    · next heq =>
      rw [heq, hold] at hlookup
      exact ⟨new, rfl, some.inj hlookup ▸ hkept⟩
    · exact ⟨incident, hlookup, .refl⟩
  | opened id new hfresh hid hnone h =>
    rw [h, lookup_insert_if]
    split
    · next heq =>
      rw [heq, hfresh] at hlookup
      cases hlookup
    · exact ⟨incident, hlookup, .refl⟩

/-- An incident that is there now was there and kept, or is new. -/
theorem Change.before (h : Change m m') {incident' : Incident}
    (hlookup : m'.incidents.lookup key = some incident') :
    (∃ incident, m.incidents.lookup key = some incident ∧ Kept incident incident') ∨
      (incident'.id = key ∧ m'.incidents = m.incidents.insert key incident' ∧
        ∀ key' incident, m.incidents.lookup key' = some incident →
          incident.ruleID = incident'.ruleID →
          incident.soulID = incident'.soulID → incident.status = .resolved) := by
  cases h with
  | nothing h => exact .inl ⟨incident', h ▸ hlookup, .refl⟩
  | replaced key' old new hold hkept h =>
    rw [h, lookup_insert_eq_some] at hlookup
    obtain ⟨rfl, rfl⟩ | ⟨-, hlookup⟩ := hlookup
    · exact .inl ⟨old, hold, hkept⟩
    · exact .inl ⟨incident', hlookup, .refl⟩
  | opened id new hfresh hid hnone h =>
    rw [h, lookup_insert_eq_some] at hlookup
    obtain ⟨rfl, rfl⟩ | ⟨-, hlookup⟩ := hlookup
    · exact .inr ⟨hid, h, hnone⟩
    · exact .inl ⟨incident', hlookup, .refl⟩

/-- What a call that a step adds is about. -/
def Enters (m : Manager) (e : Event) (call : ℕ) : Call → Prop
  | .updating updated => ∃ action userID now key incident, m.incidents.lookup key = some incident ∧
      updated = Action.mutate action userID now incident
  | .due id rule =>
    ∃ incident now, e = .checkEscalation call id rule now ∧ m.incidents.lookup id = some incident ∧
      incident.status ≠ .resolved ∧ shouldEscalate incident rule now = true
  | .escalating id level stage channels now =>
      (∃ rule incident, m.calls.lookup call = some (.due id rule) ∧
        m.incidents.lookup id = some incident ∧
        level = incident.escalationLevel ∧ rule.escalation[level]? = some stage) ∨
      ∃ channel, m.calls.lookup call = some (.escalating id level stage (channel :: channels) now)

/-- **What a step can do to the calls**: it adds one at most, and leaves the incidents
then. -/
theorem calls_of_step (h : m.step e = some m') : ∃ new, ∀ call c, m'.calls.lookup call = some c →
    m.calls.lookup call = some c ∨ call = new ∧ m.Enters e new c ∧ m'.incidents = m.incidents := by
  have hfewer : (∀ call c, m'.calls.lookup call = some c → m.calls.lookup call = some c) →
    ∃ new, ∀ call c,
      m'.calls.lookup call = some c → m.calls.lookup call = some c ∨ call = new ∧ m.Enters e new c ∧
        m'.incidents = m.incidents :=
    fun hsub => ⟨0, fun call c hc => .inl (hsub call c hc)⟩
  have hadded : ∀ new c, { m with calls := m.calls.insert new c } = m' → m.Enters e new c →
    ∃ new, ∀ call c,
      m'.calls.lookup call = some c → m.calls.lookup call = some c ∨ call = new ∧ m.Enters e new c ∧
        m'.incidents = m.incidents := by
    rintro new c rfl henters
    refine ⟨new, fun call c' hc' => ?_⟩
    obtain ⟨rfl, rfl⟩ | ⟨-, hold⟩ := lookup_insert_eq_some.mp hc'
    · exact .inr ⟨rfl, henters, rfl⟩
    · exact .inl hold
  cases e with
  | record start id rule soul =>
    cases h
    refine hfewer fun call c hc => ?_
    unfold recordIncident at hc
    split at hc <;> exact hc
  | autoResolve start ruleID soulID =>
    cases h
    refine hfewer fun call c hc => ?_
    unfold autoResolveOpenIncident at hc
    split at hc <;> exact hc
  | startUpdate new action incidentID userID workspace now =>
    simp only [step, startUpdate] at h
    split at h
    · next incident hlookup =>
      split at h
      · exact hfewer fun _ _ hc => some.inj h ▸ hc
      · split at h
        · cases h
        · exact hadded new _ (some.inj h) ⟨action, userID, now, incidentID, incident, hlookup, rfl⟩
    · exact hfewer fun _ _ hc => some.inj h ▸ hc
  | finishUpdate call =>
    simp only [step, finishUpdate] at h
    split at h
    · split at h <;> cases h <;> exact hfewer fun _ _ hc => (lookup_erase_eq_some.mp hc).2
    · cases h
  | checkEscalation new incidentID rule now =>
    simp only [step, checkEscalation] at h
    split at h
    · next incident hlookup =>
      split at h
      · next hdue =>
        exact hadded new _ (some.inj h) ⟨incident, now, rfl, hlookup, hdue.1, hdue.2.2.1⟩
      · cases h
    · cases h
  | startEscalation new eligible now =>
    simp only [step, startEscalation] at h
    split at h
    · next incidentID rule hcall =>
      split at h
      · next incident hlookup =>
        split at h
        · next stage hstage =>
          split at h
          · cases h
            exact hfewer fun _ _ hc => (lookup_erase_eq_some.mp hc).2
          · exact hadded new _ (some.inj h) (Or.inl ⟨rule, incident, hcall, hlookup, rfl, hstage⟩)
        · cases h
          exact hfewer fun _ _ hc => (lookup_erase_eq_some.mp hc).2
      · cases h
        exact hfewer fun _ _ hc => (lookup_erase_eq_some.mp hc).2
    · cases h
  | sendToChannel new =>
    simp only [step, sendToChannel] at h
    split at h
    · next incidentID level stage channel channels now hcall =>
      exact hadded new _ (some.inj h) (Or.inr ⟨channel, hcall⟩)
    · cases h
  | finishEscalation call =>
    simp only [step, finishEscalation] at h
    split at h
    · cases h
      exact hfewer fun _ _ hc => (lookup_erase_eq_some.mp hc).2
    · cases h

/-- No incident becomes a second unresolved one. -/
theorem Change.unique (hok : m.Ok) (h : Change m m') {key key' : String}
    {incident incident' : Incident} (hlookup : m'.incidents.lookup key = some incident)
    (hlookup' : m'.incidents.lookup key' = some incident')
    (hrule : incident.ruleID = incident'.ruleID) (hsoul : incident.soulID = incident'.soulID)
    (hopen : incident.status ≠ .resolved) (hopen' : incident'.status ≠ .resolved) : key = key' := by
  rcases h.before hlookup with ⟨old, hold, hkept⟩ | ⟨-, hins, hnone⟩ <;>
    rcases h.before hlookup' with ⟨old', hold', hkept'⟩ | ⟨-, hins', hnone'⟩
  · refine hok.unique key key' old old' hold hold' ?_ ?_ (fun h => hopen (hkept.resolved h))
      fun h => hopen' (hkept'.resolved h)
    · rw [← hkept.ruleID, hrule, hkept'.ruleID]
    · rw [← hkept.soulID, hsoul, hkept'.soulID]
  · exact absurd (hkept.resolved (hnone' _ _ hold (hkept.ruleID ▸ hrule) (hkept.soulID ▸ hsoul)))
      hopen
  · exact absurd (hkept'.resolved
      (hnone _ _ hold' (hkept'.ruleID ▸ hrule.symm) (hkept'.soulID ▸ hsoul.symm))) hopen'
  · rw [hins, lookup_insert_eq_some] at hlookup'
    obtain ⟨heq, -⟩ | ⟨-, hlookup'⟩ := hlookup'
    · exact heq.symm
    · exact absurd (hnone _ _ hlookup' hrule.symm hsoul.symm) hopen'

theorem Ok.step (hok : m.Ok) (hmeets : m.meets e = true) (h : m.step e = some m') : m'.Ok := by
  have hchange := change_of_step hok hmeets h
  refine ⟨fun key incident hlookup => ?_, fun call updated hcall => ?_,
    fun _ _ _ _ h₁ h₂ hrule hsoul hopen hopen' => hchange.unique hok h₁ h₂ hrule hsoul hopen hopen'⟩
  · rcases hchange.before hlookup with ⟨old, hold, hkept⟩ | ⟨hid, -⟩
    · rw [hkept.id, hok.keyed key old hold]
    · exact hid
  · have hthere : ∃ incident, m.incidents.lookup updated.id = some incident ∧
      incident.ruleID = updated.ruleID ∧
        incident.soulID = updated.soulID := by
      obtain ⟨new, hnew⟩ := calls_of_step h
      rcases hnew call _ hcall with
        hold | ⟨-, ⟨action, userID, now, key, incident, hlookup, rfl⟩, -⟩
      · exact hok.copies call updated hold
      · obtain rfl := hok.keyed key incident hlookup
        cases action <;> exact ⟨incident, hlookup, rfl, rfl⟩
    obtain ⟨incident, hlookup, hrule, hsoul⟩ := hthere
    obtain ⟨incident', hlookup', hkept⟩ := hchange.kept hlookup
    exact ⟨incident', hlookup', hkept.ruleID.trans hrule, hkept.soulID.trans hsoul⟩

/-! ## Every run -/

/-- The steps that meet the condition. -/
def careful : Manager → Event → Option Manager := restrict (fun m e => m.meets e = true) step

theorem Ok.run {start : Manager} (hok : start.Ok) (h : Reachable careful (fun _ => True) start m) :
    m.Ok :=
  h.invariant hok fun _ _ _ _ hok _ hs =>
    have ⟨hmeets, hstep⟩ := restrict_eq_some.mp hs
    hok.step hmeets hstep

/-- In a run an incident stays there, and resolved once it is. -/
theorem Ok.kept_run (hok : m.Ok) (h : Reachable careful (fun _ => True) m m')
    (hlookup : m.incidents.lookup key = some incident) :
    ∃ incident', m'.incidents.lookup key = some incident' ∧ Kept incident incident' := by
  induction h with
  | init => exact ⟨incident, hlookup, rfl, rfl, rfl, fun h => h⟩
  | step hreach _ hs ih =>
    obtain ⟨before, hbefore, hkept⟩ := ih
    obtain ⟨hmeets, hstep⟩ := restrict_eq_some.mp hs
    obtain ⟨after, hafter, hkept'⟩ := (change_of_step (hok.run hreach) hmeets hstep).kept hbefore
    exact ⟨after, hafter, hkept'.id.trans hkept.id, hkept'.ruleID.trans hkept.ruleID,
      hkept'.soulID.trans hkept.soulID, fun h => hkept'.resolved (hkept.resolved h)⟩

/-- **The life of an incident**: in every run of record, resolution, acknowledgement
and escalation, however they overlap, in which new incidents get identifiers not in
use and no acknowledgement is written to a resolved incident, each rule and soul
have at most one unresolved incident in every state, and an incident that is
resolved in one state is resolved in every later one. -/
theorem life_cycle {start : Manager} (hok : start.Ok)
    (h : Reachable careful (fun _ => True) start m) :
    (∀ key key' incident incident', m.incidents.lookup key = some incident →
      m.incidents.lookup key' = some incident' → incident.ruleID = incident'.ruleID →
      incident.soulID = incident'.soulID → incident.status ≠ .resolved →
      incident'.status ≠ .resolved → key = key') ∧
    ∀ m', Reachable careful (fun _ => True) m m' →
      ∀ key incident, m.incidents.lookup key = some incident →
      incident.status = .resolved →
      ∃ incident', m'.incidents.lookup key = some incident' ∧ incident'.status = .resolved := by
  refine ⟨(hok.run h).unique, fun m' h' key incident hlookup hresolved => ?_⟩
  obtain ⟨incident', hlookup', hkept⟩ := (hok.run h).kept_run h' hlookup
  exact ⟨incident', hlookup', hkept.resolved hresolved⟩

/-- A manager that has just started with nothing stored. -/
def fresh : Manager := ⟨∅, ∅⟩

theorem fresh_ok : fresh.Ok := by
  refine ⟨?_, ?_, ?_⟩ <;> intros <;> simp_all [fresh]

/-- A soul fails, recovers, and fails again; then the operator acts on one of the
incidents. -/
def relapse (acknowledged : String) : List Event :=
  let rule : AlertRule := { id := "down", escalation := [] }
  let soul : Soul := { id := "web", name := "web", workspaceID := "default" }
  [.record 0 "inc_1" rule soul { id := "evt_1", severity := "critical", timestamp := 1 },
    .autoResolve 0 "down" "web" 2,
    .record 0 "inc_3" rule soul { id := "evt_3", severity := "critical", timestamp := 3 },
    .startUpdate 0 .acknowledge acknowledged "ops" "default" 4, .finishUpdate 0 true]

theorem life_cycle_relapse :
    ∃ m, Runs.run careful fresh (relapse "inc_3") = some m ∧
      ((m.incidents.lookup "inc_1").any (fun i => i.status = .resolved) &&
        (m.incidents.lookup "inc_3").any fun i => i.status = .acked) = true ∧
      ∀ key key' incident incident', m.incidents.lookup key = some incident →
        m.incidents.lookup key' = some incident' → incident.ruleID = incident'.ruleID →
        incident.soulID = incident'.soulID → incident.status ≠ .resolved →
        incident'.status ≠ .resolved →
        key = key' := by
  have hevaluated : ((Runs.run careful fresh (relapse "inc_3")).any fun m =>
      (m.incidents.lookup "inc_1").any (fun i => i.status = .resolved) &&
        (m.incidents.lookup "inc_3").any fun i => i.status = .acked) = true := by decide +kernel
  obtain ⟨m, hrun, hm⟩ := exists_of_any hevaluated
  exact ⟨m, hrun, hm, (life_cycle fresh_ok (.of_run .init (fun _ _ => trivial) hrun)).1⟩

/-- **A resolved incident comes back** when it is acknowledged, next to the one that
was opened meanwhile. -/
theorem acknowledged_resolved :
    ((Runs.run step fresh ((relapse "inc_1").take 3)).any fun m =>
      (m.incidents.lookup "inc_1").any fun i => i.status = .resolved) = true ∧
    ((Runs.run step fresh (relapse "inc_1")).any fun m =>
      (m.incidents.lookup "inc_1").any (fun i => i.ruleID = "down" && i.soulID = "web" &&
        i.status = .acked) &&
      (m.incidents.lookup "inc_3").any fun i => i.ruleID = "down" && i.soulID = "web" &&
      i.status = .opened) = true := by
  decide +kernel

end Manager

end Anubis.Alert
