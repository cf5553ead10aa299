import Anubis.Common.Dict
import Mathlib.Data.Int.Notation

/-!
# Pings of a heartbeat monitor

`HeartbeatState.Apply` of `internal/core/heartbeat.go` and `RecordHeartbeat` of
`cmd/anubis/heartbeat.go` on the nodes of a cluster, for one monitor. A call reads
the record from the local store, folds the ping into it and proposes the result as a
blind set; a node's own calls exclude each other, also while the proposal is under
way. The proposal is committed at any later time, or more than once if it was
forwarded again, also after the call gave up. The store of a node is the state after
the part of the log that the node has applied.

Times are in nanoseconds since the zero time, which stands for no time and is before
every clock.
-/

namespace Anubis.Heartbeat

/-- `core.HeartbeatEvent`. -/
inductive HeartbeatEvent
  | success
  | start
  | fail
deriving DecidableEq, Repr

/-- `core.HeartbeatState`. Texts are bytes. -/
structure HeartbeatState where
  soulID : String
  workspaceID : String
  lastPingAt : ℤ := 0
  lastEvent : Option HeartbeatEvent := none
  lastStartAt : ℤ := 0
  lastDuration : ℤ := 0
  lastMessage : List UInt8 := []
  lastSource : String := ""
  lastNode : String := ""
  pings : UInt64 := 0
deriving DecidableEq

/-- A ping: what it reports and when it was received. -/
structure Ping where
  event : HeartbeatEvent
  receivedAt : ℤ
  message : List UInt8
  source : String
deriving DecidableEq

/-- `MaxHeartbeatMessage`. -/
def maxHeartbeatMessage : ℕ := 1024

/-- What is recorded of the message of a ping. -/
def Ping.recorded (p : Ping) : List UInt8 :=
  if p.event = .fail then p.message.take maxHeartbeatMessage else []

/-- `HeartbeatState.Apply`. -/
def HeartbeatState.apply (s : HeartbeatState) (p : Ping) (node : String) : HeartbeatState :=
  match p.event with
  | .start => { s with lastStartAt := p.receivedAt, lastSource := p.source, lastNode := node }
  | event =>
    { s with
      lastPingAt := p.receivedAt
      lastEvent := some event
      lastDuration := if s.lastStartAt ≠ 0 ∧ s.lastStartAt ≤ p.receivedAt ∧
        s.lastPingAt < s.lastStartAt then
        p.receivedAt - s.lastStartAt else 0
      pings := s.pings + 1
      lastMessage := p.recorded
      lastSource := p.source
      lastNode := node }

/-- A call of `RecordHeartbeat` that has made its proposal. -/
structure Call where
  node : String
  ping : Ping
  /-- How much of the log its node had applied, and the state it has read. -/
  readAt : ℕ
  read : HeartbeatState
  /-- Where in the log it was committed first. -/
  committed : Option ℕ := none
  /-- Whether the call has returned, and returned success. -/
  returned : Option Bool := none
deriving DecidableEq

/-- The state a call proposes. -/
def Call.proposed (x : Call) : HeartbeatState := x.read.apply x.ping x.node

/-- The cluster, as far as the monitor is concerned. -/
structure Cluster where
  soulID : String
  workspaceID : String
  /-- The states that were set, in the order of the log. -/
  log : List HeartbeatState
  /-- The pings they were set for; the program does not have them. -/
  pings : List Ping
  /-- How much of the log each node has applied. -/
  applied : Dict String ℕ
  /-- The call that holds the lock of a node. -/
  busy : Dict String ℕ
  calls : Dict ℕ Call

namespace Cluster

variable (c : Cluster)

/-- A cluster that knows of no ping. -/
def empty (soulID workspaceID : String) : Cluster := ⟨soulID, workspaceID, [], [], ∅, ∅, ∅⟩

/-- The state after the first entries of the log. -/
def stateAt (n : ℕ) : HeartbeatState :=
  ((c.log.take n).getLast?).getD { soulID := c.soulID, workspaceID := c.workspaceID }

/-- The replicated state. -/
def replicated : HeartbeatState := c.stateAt c.log.length

/-- How much of the log a node has applied. -/
def appliedBy (node : String) : ℕ := (c.applied.lookup node).getD 0

/-- `loadHeartbeatState` on a node. -/
def loadHeartbeatState (node : String) : HeartbeatState := c.stateAt (c.appliedBy node)

/-- A call that has read the state, under the lock of its node. -/
def received (node : String) (ping : Ping) : Call where
  node := node
  ping := ping
  readAt := c.appliedBy node
  read := c.loadHeartbeatState node

/-- What happens. -/
inductive Event
  /-- `RecordHeartbeat` up to the proposal. -/
  | receive (call : ℕ) (node : String) (ping : Ping)
  | commit (call : ℕ)
  | apply (node : String)
  /-- The call returns, with success only once its proposal is committed. -/
  | finish (call : ℕ) (success : Bool)

/-- One step. -/
def step : Event → Option Cluster
  | .receive call node ping =>
    if (c.busy.lookup node).isNone ∧ (c.calls.lookup call).isNone ∧ 0 < ping.receivedAt then
      some { c with
        busy := c.busy.insert node call
        calls := c.calls.insert call (c.received node ping) }
    else none
  | .commit call =>
    match c.calls.lookup call with
    | some x =>
      some { c with
        log := c.log ++ [x.proposed]
        pings := c.pings ++ [x.ping]
        calls := c.calls.insert call { x with committed := x.committed.or (some c.log.length) } }
    | none => none
  | .apply node =>
    if c.appliedBy node < c.log.length then
      some { c with applied := c.applied.insert node (c.appliedBy node + 1) }
    else none
  | .finish call success =>
    match c.calls.lookup call with
    | some x =>
      if c.busy.lookup x.node = some call ∧ (success → x.committed.isSome) then
        some { c with
          busy := c.busy.erase x.node
          calls := c.calls.insert call { x with returned := some success } }
      else none
    | none => none

end Cluster

end Anubis.Heartbeat
