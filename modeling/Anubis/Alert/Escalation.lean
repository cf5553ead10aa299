import Anubis.Alert.IncidentLifeCycle
import Mathlib.Data.Bool.Basic

/-!
# Escalation

A check finds the incidents that are due and escalates them after it has let go of
the lock, and an operator's action writes back a copy with the level it was made at.
So an incident that was acknowledged or resolved meanwhile is escalated all the
same, and a level that was reached meanwhile is taken back and its stage sent again.
Where an action is written only with the level the incident has, and nothing that
would stop a stage happens between its check and the last of its channels, stages are
sent once and in order, and to nobody once they should not.
-/

namespace Anubis.Alert

open List Option AList Runs

/-- The incident that a call escalates. -/
def Call.target : Call → Option String
  | .updating _ => none
  | .due incidentID _ => some incidentID
  | .escalating incidentID _ _ _ _ => some incidentID

/-- The stage of an incident at a level that the call has still to tell a channel of. -/
def Call.stageFor (id : String) (level : ℕ) : Call → Option EscalationStage
  | .updating _ => none
  | .due incidentID rule => if incidentID = id then rule.escalation[level]? else none
  | .escalating incidentID _ stage channels _ =>
    if incidentID = id ∧ channels ≠ [] then some stage else none

/-- The incident is acknowledged or resolved. -/
def Incident.Muted (incident : Incident) : Prop := incident.ackedAt.isSome = true ∨
    incident.status = .resolved

/-- The stage may be sent of the incident. -/
def Incident.Allows (incident : Incident) (stage : EscalationStage) : Prop :=
  incident.status ≠ .resolved ∧ (incident.ackedAt.isSome → stage.condition = "not_resolved")

namespace Manager

variable {m m' : Manager} {e : Event} {incident : Incident} {key : String}

/-- A channel is told: of which incident and stage, and how many channels are left. -/
structure Notice where
  incidentID : String
  level : ℕ
  left : ℕ
deriving DecidableEq

/-- What a step sends. -/
def sends (m : Manager) : Event → Option (Notice × EscalationStage)
  | .sendToChannel call =>
    match m.calls.lookup call with
    | some (.escalating incidentID level stage (_ :: channels) _) =>
      some (⟨incidentID, level, channels.length⟩, stage)
    | _ => none
  | _ => none

/-- No call in flight has the property. -/
def free (m : Manager) (p : Call → Bool) : Bool := (m.calls.range 0).all fun e => !p e.2

theorem free_iff {p : Call → Bool} : m.free p = true ↔ ∀ call c, m.calls.lookup call = some c →
    p c = false := by
  simp [free, AList.mem_range]

/-- The condition on a step, besides that of the life cycle. One checker runs, and an
incident is not looked at again before it has been escalated. An incident is not
resolved while a call has still to tell a channel of it; an acknowledgement is not
written then, unless the stage goes on in spite of it, and nothing is written with
another level than the incident has. -/
def orderly (m : Manager) (e : Event) : Bool :=
  m.meets e &&
    match e with
    | .autoResolve start ruleID soulID _ =>
      (m.findOpen start ruleID soulID).all fun found =>
        m.free fun c => (c.stageFor found.1 found.2.escalationLevel).isSome
    | .finishUpdate call true =>
      match m.calls.lookup call with
      | some (.updating updated) =>
        ((m.incidents.lookup updated.id).all fun current =>
          current.escalationLevel = updated.escalationLevel) &&
          m.free fun c => (c.stageFor updated.id updated.escalationLevel).any fun stage =>
            updated.status = .resolved || stage.condition ≠ "not_resolved"
      | _ => true
    | .checkEscalation _ incidentID _ _ => m.free fun c => c.target = some incidentID
    | _ => true

/-! ## One step -/

/-- **What a step can do to an incident.** -/
inductive Touched (m : Manager) (e : Event) (m' : Manager) (key : String) (old new : Incident) :
    Prop
  | same (hstatus : new.status = old.status) (hacked : new.ackedAt = old.ackedAt)
      (hlevel : new.escalationLevel = old.escalationLevel)
  | resolved (start : ℕ) (ruleID soulID : String) (now : ℤ)
      (he : e = .autoResolve start ruleID soulID now)
      (hfound : m.findOpen start ruleID soulID = some (key, old)) (hstatus : new.status = .resolved)
      (hlevel : new.escalationLevel = old.escalationLevel)
  | written (call : ℕ) (updated : Incident) (he : e = .finishUpdate call true)
      (hcall : m.calls.lookup call = some (.updating updated)) (hid : updated.id = key)
      (hnew : new = { updated with events := old.events })
  | escalated (call level : ℕ) (stage : EscalationStage) (now : ℤ)
      (hcall : m.calls.lookup call = some (.escalating key level stage [] now))
      (hcalls : m'.calls = m.calls.erase call)
      (hnew : new =
        { old with escalationLevel := old.escalationLevel + 1, lastEscalatedAt := some now })

theorem Touched.refl : Touched m e m' key incident incident := .same rfl rfl rfl

theorem touched_of_step (hok : m.Ok) (h : m.step e = some m') (hmeets : m.meets e = true)
    (hlookup : m.incidents.lookup key = some incident) :
    ∃ incident', m'.incidents.lookup key = some incident' ∧
      Touched m e m' key incident incident' := by
  have hunchanged : m'.incidents = m.incidents →
    ∃ incident', m'.incidents.lookup key = some incident' ∧
      Touched m e m' key incident incident' := fun heq => ⟨incident, heq ▸ hlookup, .refl⟩
  have hinserted : ∀ k old new, m.incidents.lookup k = some old →
    m'.incidents = m.incidents.insert k new →
      Touched m e m' k old new →
      ∃ incident', m'.incidents.lookup key = some incident' ∧
        Touched m e m' key incident incident' := by
    intro k old new hold heq htouched
    rw [heq, lookup_insert_if]
    split
    · next hk =>
      subst hk
      cases hlookup.symm.trans hold
      exact ⟨new, rfl, htouched⟩
    · exact ⟨incident, hlookup, .refl⟩
  cases e with
  | record start id rule soul event =>
    cases h
    unfold recordIncident at hunchanged hinserted ⊢
    cases hfound : m.findOpen start rule.id soul.id with
    | some found =>
      rw [hfound] at hinserted
      exact hinserted found.1 found.2 _ (findOpen_eq_some hfound).1 rfl (.same rfl rfl rfl)
    | none =>
      -- a new incident is not the one that is there
      simp only [meets, hfound, isSome_none, Bool.false_or, isNone_iff_eq_none] at hmeets
      refine ⟨incident, (lookup_insert_ne ?_).trans hlookup, .refl⟩
      rintro rfl
      cases hmeets.symm.trans hlookup
  | autoResolve start ruleID soulID now =>
    cases h
    unfold autoResolveOpenIncident at hunchanged hinserted ⊢
    cases hfound : m.findOpen start ruleID soulID with
    | some found =>
      rw [hfound] at hinserted
      exact hinserted found.1 found.2 _ (findOpen_eq_some hfound).1 rfl
        (.resolved start ruleID soulID now rfl hfound rfl rfl)
    | none =>
      rw [hfound] at hunchanged
      exact hunchanged rfl
  | finishUpdate call saved =>
    simp only [step, finishUpdate] at h
    split at h
    · next updated hcall =>
      obtain ⟨current, hcurrent, -⟩ := hok.copies call updated hcall
      rw [hcurrent] at h
      split at h
      · next hsaved =>
        cases h
        exact hinserted updated.id current _ hcurrent rfl
          (.written call updated (hsaved ▸ rfl) hcall rfl rfl)
      · exact hunchanged (by rw [← some.inj h])
    · cases h
  | finishEscalation call =>
    simp only [step, finishEscalation] at h
    split at h
    · next incidentID level stage now hcall =>
      cases h
      unfold AList.modify at hunchanged hinserted ⊢
      cases hcurrent : m.incidents.lookup incidentID with
      | some current =>
        rw [hcurrent] at hinserted
        exact hinserted incidentID current _ hcurrent rfl
          (.escalated call level stage now hcall rfl rfl)
      | none =>
        rw [hcurrent] at hunchanged
        exact hunchanged rfl
    · cases h
  | startUpdate | checkEscalation | startEscalation | sendToChannel =>
    exact hunchanged (incidents_of_aside h rfl)

/-- An escalation goes on until it has told every channel, and ends with the level. -/
theorem escalating_of_step {call level : ℕ} {id : String} {stage : EscalationStage}
    {channels : List String} {now : ℤ} (h : m.step e = some m') (hcall : m.calls.lookup call =
      some (.escalating id level stage channels now)) :
    (∃ channels', channels'.length ≤ channels.length ∧
      m'.calls.lookup call = some (.escalating id level stage channels' now)) ∨
    m'.incidents = m.incidents.modify id fun incident =>
      { incident with
        escalationLevel := incident.escalationLevel + 1, lastEscalatedAt := some now } := by
  have hkept : m'.calls.lookup call = m.calls.lookup call →
    (∃ channels', channels'.length ≤ channels.length ∧
      m'.calls.lookup call = some (.escalating id level stage channels' now)) ∨
      m'.incidents = m.incidents.modify id fun incident =>
        { incident with
          escalationLevel := incident.escalationLevel + 1, lastEscalatedAt := some now } :=
    fun heq => .inl ⟨channels, le_rfl, heq.trans hcall⟩
  -- a step of another call, which is of another kind here
  have hother : ∀ call' c, m.calls.lookup call' = some c →
    c ≠ .escalating id level stage channels now →
      call ≠ call' := by
    rintro call' c hc hne rfl
    exact hne (some.inj (hc.symm.trans hcall))
  cases e with
  | record start id rule soul event =>
    cases h
    refine hkept ?_
    unfold recordIncident
    split <;> rfl
  | autoResolve start ruleID soulID now =>
    cases h
    refine hkept ?_
    unfold autoResolveOpenIncident
    split <;> rfl
  | startUpdate call' action incidentID userID workspace now =>
    refine hkept ?_
    simp only [step, startUpdate] at h
    split at h
    · split at h
      · rw [← some.inj h]
      · split at h
        · cases h
        · next hfresh =>
          rw [← some.inj h]
          refine lookup_insert_ne ?_
          rintro rfl
          simp [hcall] at hfresh
    · rw [← some.inj h]
  | finishUpdate call' saved =>
    refine hkept ?_
    simp only [step, finishUpdate] at h
    split at h
    · next updated hcall' =>
      split at h <;> cases h <;> exact lookup_erase_ne (hother call' _ hcall' (by rintro ⟨⟩))
    · cases h
  | checkEscalation call' incidentID rule now =>
    refine hkept ?_
    simp only [step, checkEscalation] at h
    split at h
    · split at h
      · next hdue =>
        cases h
        refine lookup_insert_ne ?_
        rintro rfl
        simp [hcall] at hdue
      · cases h
    · cases h
  | startEscalation call' eligible now =>
    refine hkept ?_
    simp only [step, startEscalation] at h
    split at h
    · next incidentID rule hcall' =>
      have hne := hother call' _ hcall' (by rintro ⟨⟩)
      split at h
      · split at h
        · split at h <;> cases h
          · exact lookup_erase_ne hne
          · exact lookup_insert_ne hne
        · cases h
          exact lookup_erase_ne hne
      · cases h
        exact lookup_erase_ne hne
    · cases h
  | sendToChannel call' =>
    simp only [step, sendToChannel] at h
    split at h
    · next hcall' =>
      cases h
      by_cases heq : call = call'
      · subst heq
        cases hcall.symm.trans hcall'
        exact .inl ⟨_, Nat.le_succ _, lookup_insert _⟩
      · exact hkept (lookup_insert_ne heq)
    · cases h
  | finishEscalation call' =>
    simp only [step, finishEscalation] at h
    split at h
    · next hcall' =>
      cases h
      by_cases heq : call = call'
      · subst heq
        cases hcall.symm.trans hcall'
        exact .inr rfl
      · exact hkept (lookup_erase_ne heq)
    · cases h

/-- The manager, and the channels told so far. -/
structure Watched extends Manager where
  sent : List Notice

/-- A step, and what it sends. -/
def Watched.step (w : Watched) (e : Event) : Option Watched :=
  (w.toManager.step e).map fun m => ⟨m, w.sent ++ ((w.sends e).map Prod.fst).toList⟩

/-- Of a stage that a channel was told of, only the channels left are told later. -/
def Notice.Before (a b : Notice) : Prop := a.incidentID = b.incidentID → a.level = b.level →
    b.left < a.left

/-- The call may go on: what it has still to tell may be sent, and it is of the level
that the incident has. -/
structure Sound (c : Call) (id : String) (incident : Incident) : Prop where
  allowed : ∀ stage, c.stageFor id incident.escalationLevel = some stage → incident.Allows stage
  level : ∀ level stage channels now, c = .escalating id level stage channels now →
    incident.escalationLevel = level

/-- **What holds of every orderly run.** -/
structure Disciplined (w : Watched) : Prop where
  ok : w.toManager.Ok
  copies : ∀ call updated, w.calls.lookup call = some (.updating updated) → updated.Muted
  sound : ∀ call c id, w.calls.lookup call = some c → c.target = some id →
    ∃ incident, w.incidents.lookup id = some incident ∧ Sound c id incident
  sole : ∀ call call' c c' id, w.calls.lookup call = some c → w.calls.lookup call' = some c' →
    c.target = some id → c'.target = some id → call = call'
  once : w.sent.Pairwise Notice.Before
  below : ∀ a ∈ w.sent, ∃ incident, w.incidents.lookup a.incidentID = some incident ∧
    (a.level < incident.escalationLevel ∨ ∃ call stage channels now, channels.length ≤ a.left ∧
      w.calls.lookup call = some (.escalating a.incidentID a.level stage channels now))

variable {w w' : Watched}

/-- What is written has the level of the incident, and stops no stage that is still to
be told. -/
theorem orderly_written {call : ℕ} {updated current : Incident}
    (ho : m.orderly (.finishUpdate call true) = true)
    (hcall : m.calls.lookup call = some (.updating updated))
    (hcurrent : m.incidents.lookup updated.id = some current) :
    current.escalationLevel = updated.escalationLevel ∧ ∀ call' c, m.calls.lookup call' = some c →
      ∀ stage, c.stageFor updated.id updated.escalationLevel = some stage →
        updated.status ≠ .resolved ∧ stage.condition = "not_resolved" := by
  have ho := (Bool.and_eq_true_iff.mp ho).2
  simp only [hcall, hcurrent, all_some, Bool.and_eq_true, decide_eq_true_eq] at ho
  refine ⟨ho.1, fun call' c hc stage hstage => ?_⟩
  have := free_iff.mp ho.2 call' c hc
  simpa [hstage] using this

/-- **A call that goes on stays sound.** -/
theorem Disciplined.kept (hw : Disciplined w) (ho : w.orderly e = true)
    (h : w.toManager.step e = some m')
    {call : ℕ} {c : Call} {id : String} (hc : w.calls.lookup call = some c)
    (hc' : m'.calls.lookup call = some c)
    (htarget : c.target = some id) : ∃ incident, m'.incidents.lookup id = some incident ∧
    Sound c id incident := by
  obtain ⟨incident, hlookup, hallowed, hsame⟩ := hw.sound call c id hc htarget
  obtain ⟨incident', hlookup', htouched⟩ :=
    touched_of_step hw.ok h (Bool.and_eq_true_iff.mp ho).1 hlookup
  refine ⟨incident', hlookup', ?_⟩
  cases htouched with
  | same hstatus hacked hlevel =>
    rw [← hlevel] at hallowed hsame
    refine ⟨fun stage hstage => ?_, hsame⟩
    obtain ⟨hopen, hcondition⟩ := hallowed stage hstage
    exact ⟨hstatus ▸ hopen, hacked ▸ hcondition⟩
  | resolved start ruleID soulID now he hfound hstatus hlevel =>
    subst he
    have ho := (Bool.and_eq_true_iff.mp ho).2
    simp only [hfound, all_some] at ho
    have hnone := free_iff.mp ho call c hc
    rw [← hlevel] at hnone hsame
    exact ⟨fun stage hstage => by simp [hstage] at hnone, hsame⟩
  | written call' updated he hcall' hid hnew =>
    subst he hid hnew
    obtain ⟨hlevel, hfree⟩ := orderly_written ho hcall' hlookup
    rw [hlevel] at hsame
    refine ⟨fun stage hstage => ?_, hsame⟩
    obtain ⟨hopen, hcondition⟩ := hfree call c hc stage hstage
    exact ⟨hopen, fun _ => hcondition⟩
  | escalated call' level stage now hcall' hcalls hnew =>
    obtain rfl := hw.sole call call' c _ id hc hcall' htarget rfl
    rw [hcalls, lookup_erase] at hc'
    cases hc'

/-- A call that is new is sound. -/
theorem Disciplined.entered (hw : Disciplined w) {call : ℕ} {c : Call} {id : String}
    (h : w.Enters e call c)
    (htarget : c.target = some id) : ∃ incident, w.incidents.lookup id = some incident ∧
    Sound c id incident := by
  cases c with
  | updating => cases htarget
  | due id' rule =>
    cases htarget
    obtain ⟨incident, now, -, hlookup, hopen, hshould⟩ := h
    refine ⟨incident, hlookup, fun stage hstage => ⟨hopen, fun hacked => ?_⟩, nofun⟩
    rw [Call.stageFor, if_pos rfl] at hstage
    by_contra hcondition
    simp [shouldEscalate, hstage, hacked, hcondition] at hshould
  | escalating id' level stage channels now =>
    cases htarget
    have hstageFor : ∀ stage', Call.stageFor id level (.escalating id level stage channels now) =
      some stage' →
        stage = stage' ∧ channels ≠ [] := by
      intro stage' hstage'
      simp only [Call.stageFor, true_and] at hstage'
      split at hstage'
      · next hne => exact ⟨some.inj hstage', hne⟩
      · cases hstage'
    rcases h with ⟨rule, incident, hdue, hlookup, rfl, hstage⟩ | ⟨channel, hbefore⟩
    · obtain ⟨incident', hlookup', hsound⟩ := hw.sound call _ id hdue rfl
      cases hlookup.symm.trans hlookup'
      refine ⟨incident, hlookup, fun stage' hstage' => ?_, ?_⟩
      · obtain ⟨rfl, -⟩ := hstageFor stage' hstage'
        exact hsound.allowed stage ((if_pos rfl).trans hstage)
      · rintro level stage channels now heq
        cases heq
        rfl
    · obtain ⟨incident, hlookup, hsound⟩ := hw.sound call _ id hbefore rfl
      obtain rfl := hsound.level level stage _ now rfl
      refine ⟨incident, hlookup, fun stage' hstage' => ?_, ?_⟩
      · obtain ⟨rfl, -⟩ := hstageFor stage' hstage'
        exact hsound.allowed stage (if_pos ⟨rfl, cons_ne_nil _ _⟩)
      · rintro level stage channels now heq
        cases heq
        rfl

/-- A new call for an incident comes from a check, or takes the place of a call for it. -/
theorem target_of_enters {call : ℕ} {c : Call} {id : String} (h : m.Enters e call c)
    (htarget : c.target = some id) :
    (∃ rule now, e = .checkEscalation call id rule now) ∨ ∃ c', m.calls.lookup call = some c' ∧
    c'.target = some id := by
  cases c with
  | updating => cases htarget
  | due id' rule =>
    cases htarget
    obtain ⟨incident, now, he, -⟩ := h
    exact .inl ⟨rule, now, he⟩
  | escalating id' level stage channels now =>
    cases htarget
    rcases h with ⟨rule, incident, hdue, -⟩ | ⟨channel, hbefore⟩
    · exact .inr ⟨_, hdue, rfl⟩
    · exact .inr ⟨_, hbefore, rfl⟩

/-- A new call for an incident is the only one. -/
theorem Disciplined.sole_entered (hw : Disciplined w) (ho : w.orderly e = true) {call call' : ℕ}
    {c c' : Call} {id : String} (h : w.Enters e call c) (htarget : c.target = some id)
    (hc' : w.calls.lookup call' = some c') (htarget' : c'.target = some id) : call = call' := by
  rcases target_of_enters h htarget with ⟨rule, now, rfl⟩ | ⟨c₀, hc₀, htarget₀⟩
  · have := free_iff.mp (Bool.and_eq_true_iff.mp ho).2 call' c' hc'
    simp [htarget'] at this
  · exact hw.sole call call' c₀ c' id hc₀ hc' htarget₀ htarget'

/-- What is sent is the next of a call that escalates. -/
theorem sends_eq_some {a : Notice} {stage : EscalationStage} (hs : m.sends e = some (a, stage)) :
    ∃ call channel channels now, a.left = channels.length ∧
      m.calls.lookup call = some
      (.escalating a.incidentID a.level stage (channel :: channels) now) ∧
      ∀ m', m.step e = some m' → m'.incidents = m.incidents ∧
        m'.calls.lookup call = some (.escalating a.incidentID a.level stage channels now) := by
  cases e with
  | sendToChannel call =>
    simp only [sends] at hs
    split at hs
    · next id level stage' channel channels now hcall =>
      cases hs
      refine ⟨call, channel, channels, now, rfl, hcall, fun m' hm => ?_⟩
      simp only [step, sendToChannel, hcall] at hm
      cases hm
      exact ⟨rfl, lookup_insert _⟩
    · cases hs
  | _ => cases hs

/-- **No stage is sent again.** -/
theorem Disciplined.before_sent (hw : Disciplined w) {a b : Notice} {stage : EscalationStage}
    (hs : w.sends e = some (b, stage)) (ha : a ∈ w.sent) : a.Before b := by
  intro hid hlevel
  obtain ⟨call, channel, channels, now, hleft, hcall, -⟩ := sends_eq_some hs
  obtain ⟨incident, hlookup, hsound⟩ := hw.sound call _ _ hcall rfl
  obtain ⟨incident', hlookup', hbelow⟩ := hw.below a ha
  rw [hid, hlookup] at hlookup'
  cases hlookup'
  have hsame := hsound.level _ _ _ _ rfl
  obtain ⟨call', stage', channels', now', hle, hcall'⟩ := hbelow.resolve_left (by omega)
  obtain rfl := hw.sole call call' _ _ _ hcall hcall' rfl (congrArg some hid)
  obtain ⟨-, -, -, hchannels, -⟩ := Call.escalating.inj (some.inj (hcall.symm.trans hcall'))
  rw [← hchannels, length_cons] at hle
  omega

/-- In a step no level falls, and an incident stays muted, and resolved, once it is. -/
theorem Disciplined.advanced (hw : Disciplined w) (ho : w.orderly e = true)
    (h : w.toManager.step e = some m') (hlookup : w.incidents.lookup key = some incident) :
    ∃ incident', m'.incidents.lookup key = some incident' ∧
      incident.escalationLevel ≤ incident'.escalationLevel ∧
      (incident.Muted → incident'.Muted) ∧
      (incident.status = .resolved → incident'.status = .resolved) := by
  have hmeets := (Bool.and_eq_true_iff.mp ho).1
  obtain ⟨incident', hlookup', htouched⟩ := touched_of_step hw.ok h hmeets hlookup
  obtain ⟨_, hkept', hkept⟩ := (change_of_step hw.ok hmeets h).kept hlookup
  cases hlookup'.symm.trans hkept'
  refine ⟨incident', hlookup', ?_, fun hmuted => ?_, hkept.resolved⟩
  · cases htouched with
    | same hstatus hacked hlevel => exact hlevel.ge
    | resolved start ruleID soulID now he hfound hstatus hlevel => exact hlevel.ge
    | written call updated he hcall hid hnew =>
      subst he hid hnew
      exact (orderly_written ho hcall hlookup).1.le
    | escalated call level stage now hcall hcalls hnew =>
      subst hnew
      exact Nat.le_succ _
  · cases htouched with
    | same hstatus hacked hlevel => exact hmuted.imp (hacked ▸ ·) (hstatus ▸ ·)
    | resolved start ruleID soulID now he hfound hstatus hlevel => exact .inr hstatus
    | written call updated he hcall hid hnew =>
      subst hnew
      exact hw.copies call updated hcall
    | escalated call level stage now hcall hcalls hnew =>
      subst hnew
      exact hmuted

/-- What was sent stays below the level, or its call goes on. -/
theorem Disciplined.below_step (hw : Disciplined w) (ho : w.orderly e = true)
    (h : w.toManager.step e = some m')
    {a : Notice} (ha : a ∈ w.sent) : ∃ incident, m'.incidents.lookup a.incidentID = some incident ∧
      (a.level < incident.escalationLevel ∨ ∃ call stage channels now, channels.length ≤ a.left ∧
        m'.calls.lookup call = some (.escalating a.incidentID a.level stage channels now)) := by
  obtain ⟨incident, hlookup, hbelow⟩ := hw.below a ha
  obtain ⟨incident', hlookup', hlevel, -⟩ := hw.advanced ho h hlookup
  refine ⟨incident', hlookup', ?_⟩
  rcases hbelow with hlt | ⟨call, stage, channels, now, hle, hcall⟩
  · exact .inl (hlt.trans_le hlevel)
  · rcases escalating_of_step h hcall with ⟨channels', hle', hcall'⟩ | hincidents
    · exact .inr ⟨call, stage, channels', now, hle'.trans hle, hcall'⟩
    · obtain ⟨current, hcurrent, hsound⟩ := hw.sound call _ _ hcall rfl
      cases hlookup.symm.trans hcurrent
      rw [hincidents, lookup_modify, if_pos rfl, hlookup] at hlookup'
      cases hlookup'
      exact .inl (Nat.lt_succ_of_le (hsound.level _ _ _ _ rfl).ge)

/-- **An orderly step keeps it.** -/
theorem Disciplined.step (hw : Disciplined w) (ho : w.orderly e = true) (h : w.step e = some w') :
    Disciplined w' := by
  obtain ⟨m', hm, rfl⟩ := map_eq_some_iff.mp h
  obtain ⟨new, hcalls⟩ := calls_of_step hm
  refine ⟨hw.ok.step (Bool.and_eq_true_iff.mp ho).1 hm, fun call updated hc => ?_,
    fun call c id hc htarget => ?_,
    fun call call' c c' id hc hc' htarget htarget' => ?_, ?_, fun a ha => ?_⟩
  · rcases hcalls call _ hc with hold | ⟨-, ⟨action, userID, now, key, incident, -, rfl⟩, -⟩
    · exact hw.copies call updated hold
    · cases action
      · exact .inl rfl
      · exact .inr rfl
  · rcases hcalls call c hc with hold | ⟨rfl, henters, hsame⟩
    · exact hw.kept ho hm hold hc htarget
    · exact hsame ▸ hw.entered henters htarget
  · rcases hcalls call c hc with hold | ⟨rfl, henters, -⟩
      <;> rcases hcalls call' c' hc' with hold' | ⟨rfl, henters', -⟩
    · exact hw.sole call call' c c' id hold hold' htarget htarget'
    · exact (hw.sole_entered ho henters' htarget' hold htarget).symm
    · exact hw.sole_entered ho henters htarget hold' htarget'
    · rfl
  · cases hs : w.sends e with
    | none => simpa using hw.once
    | some s =>
      refine pairwise_append.mpr ⟨hw.once, pairwise_singleton _ _, fun a ha b hb => ?_⟩
      obtain rfl := mem_singleton.mp hb
      exact hw.before_sent hs ha
  · rcases mem_append.mp ha with hold | hnew
    · exact hw.below_step ho hm hold
    · obtain ⟨⟨_, stage⟩, hs, rfl⟩ := map_eq_some_iff.mp (mem_toList.mp hnew)
      obtain ⟨call, channel, channels, now, hleft, hcall, hafter⟩ := sends_eq_some hs
      obtain ⟨hsame, hcall'⟩ := hafter m' hm
      obtain ⟨incident, hlookup, -⟩ := hw.sound call _ _ hcall rfl
      exact ⟨incident, hsame ▸ hlookup, .inr ⟨call, stage, channels, now, hleft.ge, hcall'⟩⟩

/-! ## Every run -/

/-- The orderly steps. -/
def Watched.orderly : Watched → Event → Option Watched :=
  restrict (fun w e => w.toManager.orderly e = true) Watched.step

theorem Disciplined.run (hw : Disciplined w) (h : Reachable Watched.orderly (fun _ => True) w w') :
    Disciplined w' :=
  h.invariant hw fun _ _ _ _ hw _ hs =>
    have ⟨ho, hstep⟩ := restrict_eq_some.mp hs
    hw.step ho hstep

/-- In a run no level falls, and an incident stays muted, and resolved, once it is. -/
theorem Disciplined.later (hw : Disciplined w) (h : Reachable Watched.orderly (fun _ => True) w w')
    (hlookup : w.incidents.lookup key = some incident) :
    ∃ incident', w'.incidents.lookup key = some incident' ∧
      incident.escalationLevel ≤ incident'.escalationLevel ∧
      (incident.Muted → incident'.Muted) ∧
      (incident.status = .resolved → incident'.status = .resolved) := by
  induction h with
  | init => exact ⟨incident, hlookup, le_rfl, id, id⟩
  | step hreach _ hs ih =>
    obtain ⟨before, hbefore, hlevel, hmuted, hresolved⟩ := ih
    obtain ⟨ho, hstep⟩ := restrict_eq_some.mp hs
    obtain ⟨m', hm, rfl⟩ := map_eq_some_iff.mp hstep
    obtain ⟨after, hafter, hlevel', hmuted', hresolved'⟩ := (hw.run hreach).advanced ho hm hbefore
    exact ⟨after, hafter, hlevel.trans hlevel', hmuted' ∘ hmuted, hresolved' ∘ hresolved⟩

/-- **Escalation discipline**: in every orderly run of checks, escalations, actions and
resolutions, however they overlap, no stage of an incident is sent again once its
channels were told, its level never falls, and a channel is told only of an incident
that has not been resolved in any state before, nor acknowledged unless the condition
of the stage is "not_resolved". -/
theorem escalation_disciplined {start : Manager} (hok : start.Ok) (hidle : start.calls = ∅)
    (h : Reachable Watched.orderly (fun _ => True) ⟨start, []⟩ w)
    (h' : Reachable Watched.orderly (fun _ => True) w w') :
    w'.sent.Pairwise Notice.Before ∧ ∀ id incident, w.incidents.lookup id = some incident →
      (∃ incident', w'.incidents.lookup id = some incident' ∧
        incident.escalationLevel ≤ incident'.escalationLevel) ∧
      ∀ e a stage, w'.sends e = some (a, stage) → a.incidentID = id →
        incident.status ≠ .resolved ∧
        (incident.ackedAt.isSome → stage.condition = "not_resolved") := by
  have hw : Disciplined w := by
    refine Disciplined.run ⟨hok, ?_, ?_, ?_, .nil, fun _ h => by cases h⟩ h <;> simp [hidle]
  have hw' := hw.run h'
  refine ⟨hw'.once, fun id incident hlookup => ?_⟩
  obtain ⟨incident', hlookup', hlevel, hmuted, hresolved⟩ := hw.later h' hlookup
  refine ⟨⟨incident', hlookup', hlevel⟩, fun e a stage hs hid => ?_⟩
  obtain ⟨call, channel, channels, now, -, hcall, -⟩ := sends_eq_some hs
  obtain ⟨current, hcurrent, hsound⟩ := hw'.sound call _ _ hcall rfl
  rw [hid, hlookup'] at hcurrent
  cases hcurrent
  obtain ⟨hopen, hcondition⟩ := hsound.allowed stage (if_pos ⟨rfl, cons_ne_nil _ _⟩)
  exact ⟨fun hres => hopen (hresolved hres), fun hacked =>
    hcondition ((hmuted (.inl hacked)).resolve_right hopen)⟩

/-- A rule with two stages, which an acknowledgement does not stop. -/
def pager : AlertRule := ⟨"down", [⟨60, "not_resolved", ["ops"]⟩, ⟨60, "not_resolved", ["boss"]⟩]⟩

/-- The incident. -/
def raised : Event := .record 0 "inc_1" pager ⟨"web", "web", "default"⟩ ⟨"evt_1", "critical", 0⟩

/-- The first half of its acknowledgement. -/
def acknowledging : Event := .startUpdate 0 .acknowledge "inc_1" "ops" "default" 1

/-- One escalation. -/
def escalated (call : ℕ) (now : ℤ) : List Event :=
  [.checkEscalation call "inc_1" pager now, .startEscalation call (fun _ => true) now,
    .sendToChannel call,
    .finishEscalation call]

/-- An acknowledgement is written while the first stage is due, and the second stage
follows. -/
def paged : List Event :=
  raised :: acknowledging :: .checkEscalation 1 "inc_1" pager 60 :: .finishUpdate 0 true ::
    ((escalated 1 60).drop 1 ++ (escalated 2 120).take 2)

theorem escalation_disciplined_paged : ∃ w, Runs.run Watched.orderly ⟨fresh, []⟩ paged = some w ∧
    w.sent = [⟨"inc_1", 0, 0⟩] ∧ w.sent.Pairwise Notice.Before ∧ ∃ a stage incident,
      w.sends (.sendToChannel 2) = some (a, stage) ∧ w.incidents.lookup "inc_1" = some incident ∧
      incident.ackedAt = some 1 ∧ incident.status ≠ .resolved ∧
      stage.condition = "not_resolved" := by
  have hevaluated : ((Runs.run Watched.orderly ⟨fresh, []⟩ paged).any fun w =>
    w.sent = [⟨"inc_1", 0, 0⟩] &&
      ((w.sends (.sendToChannel 2)).any fun s => s.1.incidentID = "inc_1") &&
      (w.incidents.lookup "inc_1").any fun incident =>
      incident.ackedAt = some 1) = true := by decide +kernel
  obtain ⟨w, hrun, hfacts⟩ := exists_of_any hevaluated
  simp only [Bool.and_eq_true, Option.any_eq_true, decide_eq_true_eq] at hfacts
  obtain ⟨⟨hsent, ⟨a, stage⟩, hs, hid⟩, incident, hlookup, hacked⟩ := hfacts
  have hreach := Reachable.of_run .init (fun _ _ => trivial) hrun
  obtain ⟨honce, hall⟩ := escalation_disciplined fresh_ok rfl hreach .init
  obtain ⟨hopen, hcondition⟩ := (hall "inc_1" incident hlookup).2 _ a stage hs hid
  exact ⟨w, hrun, hsent, honce, a, stage, incident, hs, hlookup, hacked, hopen,
    hcondition (by simp [hacked])⟩

/-- **A stage is sent twice** when an acknowledgement that began before it was sent is
written after: the level falls. **A stage is sent of a resolved incident** if it was
due, or its channels were being told, when it was resolved. -/
theorem escalated_twice :
    ((Runs.run Watched.step ⟨fresh, []⟩ (raised :: acknowledging :: escalated 1 60)).any fun w =>
      (w.incidents.lookup "inc_1").any fun i => i.escalationLevel = 1) = true ∧
    ((Runs.run Watched.step ⟨fresh, []⟩
      (raised :: acknowledging :: (escalated 1 60 ++ .finishUpdate 0 true :: (escalated 2 120).take
        3))).any fun w =>
        w.sent = [⟨"inc_1", 0, 0⟩, ⟨"inc_1", 0, 0⟩] &&
          (w.incidents.lookup "inc_1").any fun i => i.escalationLevel = 0) = true ∧
    ((Runs.run Watched.step ⟨fresh, []⟩ (raised :: (escalated 1 60).take 2 ++
      [.autoResolve 0 "down" "web" 61])).any
      fun w => ((w.incidents.lookup "inc_1").any fun i => i.status = .resolved) &&
        (w.sends (.sendToChannel 1)).isSome) = true := by
  decide +kernel

end Manager

end Anubis.Alert
