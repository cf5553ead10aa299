import Anubis.Common.Dict
import Mathlib.Data.Int.Notation

/-!
# Incidents

The incidents of the alert manager (`internal/alert/manager.go`). What happens
under its lock is one step: a judgment that records an incident or resolves one,
and the two halves of an operator's action and of an escalation, between which the
lock is free. An operator's action copies the incident, changes the copy and, once
it is stored, writes the copy back. Between the halves of an escalation the channels
of the stage are told, one step each.

A rule or a soul stands for its fields that are read. Statistics, notes and the
other fields of an alert are left out; what is in storage is not modelled, only
whether a write succeeded.
-/

namespace Anubis.Alert

/-- `core.IncidentStatus`. -/
inductive IncidentStatus
  | opened
  | acked
  | resolved
deriving DecidableEq

/-- `core.AlertEvent`. -/
structure AlertEvent where
  id : String
  severity : String
  timestamp : ℤ

/-- A stage of `core.EscalationPolicy`. -/
structure EscalationStage where
  wait : ℤ
  condition : String
  channels : List String

/-- `core.AlertRule`; without a policy there are no stages. -/
structure AlertRule where
  id : String
  escalation : List EscalationStage

/-- `core.Soul`. -/
structure Soul where
  id : String
  name : String
  workspaceID : String

/-- `core.Incident`. -/
structure Incident where
  id : String
  ruleID : String
  soulID : String
  soulName : String
  workspaceID : String
  status : IncidentStatus
  severity : String
  startedAt : ℤ
  ackedAt : Option ℤ := none
  resolvedAt : Option ℤ := none
  ackedBy : String := ""
  resolvedBy : String := ""
  events : List AlertEvent
  escalationLevel : ℕ := 0
  lastEscalatedAt : Option ℤ := none

/-- What an operator does. -/
inductive Action
  | acknowledge
  | resolve
deriving DecidableEq

/-- The change of `AcknowledgeIncident` and `ResolveIncident`. -/
def Action.mutate (action : Action) (userID : String) (now : ℤ) (incident : Incident) : Incident :=
  match action with
  | .acknowledge => { incident with status := .acked, ackedAt := some now, ackedBy := userID }
  | .resolve => { incident with status := .resolved, resolvedAt := some now, resolvedBy := userID }

/-- A call that has let go of the lock. -/
inductive Call
  /-- `updateIncident`, with the changed copy. -/
  | updating (updated : Incident)
  /-- `checkEscalations`, before it escalates the incident. -/
  | due (incidentID : String) (rule : AlertRule)
  /-- `escalateIncident`: the stage with its number, and the channels still to be told. -/
  | escalating (incidentID : String) (level : ℕ) (stage : EscalationStage)
      (channels : List String) (now : ℤ)

/-- `Manager`. -/
structure Manager where
  incidents : Dict String Incident
  calls : Dict ℕ Call

/-- `workspaceOrDefault`. -/
def workspaceOrDefault (workspace : String) :
    String := if workspace = "" then "default" else workspace

namespace Manager

/-- The unresolved incident of a rule and a soul that the loop over the map finds
first; it starts anywhere. -/
def findOpen (m : Manager) (start : ℕ) (ruleID soulID : String) : Option (String × Incident) :=
  (m.incidents.range start).find? fun e => e.2.ruleID = ruleID && e.2.soulID = soulID &&
    e.2.status ≠ .resolved

/-- `recordIncident`; `id` is what `generateIncidentID` makes of the clock. -/
def recordIncident (m : Manager) (start : ℕ) (id : String) (rule : AlertRule) (soul : Soul)
    (event : AlertEvent) : Manager :=
  match m.findOpen start rule.id soul.id with
  | some (key, incident) =>
    { m with
      incidents :=
        m.incidents.insert key { incident with events := incident.events ++ [event] } }
  | none =>
    { m with
      incidents := m.incidents.insert id
        { id := id
          ruleID := rule.id
          soulID := soul.id
          soulName := soul.name
          workspaceID := soul.workspaceID
          status := .opened
          severity := event.severity
          startedAt := event.timestamp
          events := [event] } }

/-- `autoResolveOpenIncident`. -/
def autoResolveOpenIncident (m : Manager) (start : ℕ) (ruleID soulID : String) (now : ℤ) :
    Manager :=
  match m.findOpen start ruleID soulID with
  | some (key, incident) =>
    { m with
      incidents := m.incidents.insert key
        { incident with
          status := .resolved
          resolvedAt := some now
          resolvedBy := "auto-resolved" } }
  | none => m

/-- The first half of `updateIncident`: the copy is changed. An incident of another
workspace is not found. -/
def startUpdate (m : Manager) (call : ℕ) (action : Action) (incidentID userID workspace : String)
    (now : ℤ) : Option Manager :=
  match m.incidents.lookup incidentID with
  | some incident =>
    if workspaceOrDefault incident.workspaceID ≠ workspaceOrDefault workspace then some m
    else if (m.calls.lookup call).isSome then none
    else some
      { m with calls := m.calls.insert call (.updating (action.mutate userID now incident)) }
  | none => some m

/-- The second half, after the write: what was appended meanwhile is kept, the rest
is that of the copy. -/
def finishUpdate (m : Manager) (call : ℕ) (saved : Bool) : Option Manager :=
  match m.calls.lookup call with
  | some (.updating updated) =>
    if saved then
      let written :=
        match m.incidents.lookup updated.id with
        | some current => { updated with events := current.events }
        | none => updated
      some { incidents := m.incidents.insert updated.id written, calls := m.calls.erase call }
    else some { m with calls := m.calls.erase call }
  | _ => none

/-- `shouldEscalate`. -/
def shouldEscalate (incident : Incident) (rule : AlertRule) (now : ℤ) : Bool :=
  match rule.escalation[incident.escalationLevel]? with
  | none => false
  | some stage =>
    if incident.ackedAt.isSome ∧ stage.condition ≠ "not_resolved" then false
    else
      let since := now - incident.lastEscalatedAt.getD incident.startedAt
      let wait := if stage.wait = 0 then 15 * 60 * 1000000000 else stage.wait
      wait ≤ since

/-- One incident of `checkEscalations`. -/
def checkEscalation (m : Manager) (call : ℕ) (incidentID : String) (rule : AlertRule) (now : ℤ) :
    Option Manager :=
  match m.incidents.lookup incidentID with
  | some incident =>
    if incident.status ≠ .resolved ∧ rule.id = incident.ruleID ∧ shouldEscalate incident rule now ∧
        (m.calls.lookup call).isNone then
      some { m with calls := m.calls.insert call (.due incidentID rule) }
    else none
  | none => none

/-- The first half of `escalateIncident`: there is a stage left with a channel that
may be told. -/
def startEscalation (m : Manager) (call : ℕ) (eligible : String → Bool) (now : ℤ) :
    Option Manager :=
  match m.calls.lookup call with
  | some (.due incidentID rule) =>
    match m.incidents.lookup incidentID with
    | some incident =>
      match rule.escalation[incident.escalationLevel]? with
      | some stage =>
        let channels := stage.channels.filter eligible
        if channels = [] then some { m with calls := m.calls.erase call }
        else
          some { m with
            calls := m.calls.insert call
              (.escalating incidentID incident.escalationLevel stage channels now) }
      | none => some { m with calls := m.calls.erase call }
    | none => some { m with calls := m.calls.erase call }
  | _ => none

/-- `sendToChannel`, for the next channel of an escalation. -/
def sendToChannel (m : Manager) (call : ℕ) : Option Manager :=
  match m.calls.lookup call with
  | some (.escalating incidentID level stage (_ :: channels) now) =>
    some { m with calls := m.calls.insert call (.escalating incidentID level stage channels now) }
  | _ => none

/-- The second half. -/
def finishEscalation (m : Manager) (call : ℕ) : Option Manager :=
  match m.calls.lookup call with
  | some (.escalating incidentID _ _ [] now) =>
    some
      { incidents := m.incidents.modify incidentID fun incident =>
          { incident with
            escalationLevel := incident.escalationLevel + 1, lastEscalatedAt := some now }
        calls := m.calls.erase call }
  | _ => none

/-- What happens. -/
inductive Event
  | record (start : ℕ) (id : String) (rule : AlertRule) (soul : Soul) (event : AlertEvent)
  | autoResolve (start : ℕ) (ruleID soulID : String) (now : ℤ)
  | startUpdate (call : ℕ) (action : Action) (incidentID userID workspace : String) (now : ℤ)
  | finishUpdate (call : ℕ) (saved : Bool)
  | checkEscalation (call : ℕ) (incidentID : String) (rule : AlertRule) (now : ℤ)
  | startEscalation (call : ℕ) (eligible : String → Bool) (now : ℤ)
  | sendToChannel (call : ℕ)
  | finishEscalation (call : ℕ)

/-- One step of one of the calls in flight. -/
def step (m : Manager) : Event → Option Manager
  | .record start id rule soul event => some (m.recordIncident start id rule soul event)
  | .autoResolve start ruleID soulID now => some (m.autoResolveOpenIncident start ruleID soulID now)
  | .startUpdate call action incidentID userID workspace now =>
    m.startUpdate call action incidentID userID workspace now
  | .finishUpdate call saved => m.finishUpdate call saved
  | .checkEscalation call incidentID rule now => m.checkEscalation call incidentID rule now
  | .startEscalation call eligible now => m.startEscalation call eligible now
  | .sendToChannel call => m.sendToChannel call
  | .finishEscalation call => m.finishEscalation call

end Manager

end Anubis.Alert
