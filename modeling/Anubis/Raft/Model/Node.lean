import Anubis.Common.Literals
import Mathlib.Data.Nat.Notation
import Mathlib.Order.Defs.LinearOrder

/-!
# Raft messages, entries and durable records

The data of `internal/raft` and `internal/core/raft_rpc.go`. Node IDs are an
arbitrary ordered type; the empty ID the code uses for "nobody" is `none`.
Terms, indexes and times are natural numbers. A log entry carries its decoded
payload: a command of an arbitrary type, the leader's no-op, or a membership
change. Addresses and regions are left out, no decision of the protocol
reads them.
-/

namespace Anubis.Raft

/-- Named, so that a membership test is the same term in every module. -/
scoped instance lawfulBEq_nodeId {NodeId : Type} [LinearOrder NodeId] : LawfulBEq NodeId :=
  inferInstance

/-- `core.RaftState`. -/
inductive RaftState where
  | follower
  | candidate
  | leader
deriving DecidableEq, Repr

/-- `core.RaftRole`. A member votes unless its role is `nonVoter`. -/
inductive RaftRole where
  | voter
  | nonVoter
  | spare
deriving DecidableEq, Repr

/-- `core.RaftPeer`. -/
structure RaftPeer (NodeId : Type) where
  id : NodeId
  role : RaftRole
deriving DecidableEq, Repr

/-- `core.MembershipChangeType`. -/
inductive MembershipChangeType where
  | addPeer
  | removePeer
  | replacePeer
deriving DecidableEq, Repr

/-- `core.MembershipChange`, without the fields that only label the entry. -/
structure MembershipChange (NodeId : Type) where
  type : MembershipChangeType
  peer : RaftPeer NodeId
  oldPeer : Option (RaftPeer NodeId)
deriving DecidableEq, Repr

/-- `membershipEntry`: the change and the configuration it leads to, empty in
entries an older version wrote. -/
structure MembershipEntry (NodeId : Type) where
  change : MembershipChange NodeId
  members : List (RaftPeer NodeId)
deriving DecidableEq, Repr

/-- The type and payload of a log entry. `zero` is the zero value the base
marker of an in-memory log carries. -/
inductive EntryData (NodeId Cmd : Type) where
  | zero
  | command (cmd : Cmd)
  | noOp
  | membershipChange (e : MembershipEntry NodeId)
deriving DecidableEq, Repr

/-- `core.RaftLogEntry`. -/
structure RaftLogEntry (NodeId Cmd : Type) where
  index : ℕ
  term : ℕ
  data : EntryData NodeId Cmd
deriving DecidableEq, Repr

/-- The first element of every in-memory log: the position the log starts
after. -/
def baseMarker {NodeId Cmd : Type} (index term : ℕ) : RaftLogEntry NodeId Cmd :=
    ⟨index, term, .zero⟩

/-! ## RPCs -/

/-- `core.PreVoteRequest`. -/
structure PreVoteRequest (NodeId : Type) where
  term : ℕ
  candidateID : NodeId
  lastLogIndex : ℕ
  lastLogTerm : ℕ
deriving DecidableEq, Repr

/-- `core.RequestVoteRequest`. -/
structure RequestVoteRequest (NodeId : Type) where
  term : ℕ
  candidateID : NodeId
  lastLogIndex : ℕ
  lastLogTerm : ℕ
  preVoteTerm : ℕ
deriving DecidableEq, Repr

/-- `core.PreVoteResponse` and `core.RequestVoteResponse`, which have the same fields. -/
structure VoteResponse where
  term : ℕ
  voteGranted : Bool
  reason : String
deriving DecidableEq, Repr

/-- `core.AppendEntriesRequest`. -/
structure AppendEntriesRequest (NodeId Cmd : Type) where
  term : ℕ
  leaderID : NodeId
  prevLogIndex : ℕ
  prevLogTerm : ℕ
  entries : List (RaftLogEntry NodeId Cmd)
  leaderCommit : ℕ
deriving DecidableEq, Repr

/-- `core.AppendEntriesResponse`. -/
structure AppendEntriesResponse where
  term : ℕ
  success : Bool
  matchIndex : ℕ
  conflictTerm : ℕ
  conflictIndex : ℕ
deriving DecidableEq, Repr

/-- `core.InstallSnapshotRequest`. -/
structure InstallSnapshotRequest (NodeId : Type) where
  term : ℕ
  leaderID : NodeId
  lastIncludedIndex : ℕ
  lastIncludedTerm : ℕ
  offset : ℕ
  data : List UInt8
  done : Bool
  configuration : List (RaftPeer NodeId)
deriving DecidableEq, Repr

/-- `core.InstallSnapshotResponse`. -/
structure InstallSnapshotResponse where
  term : ℕ
  success : Bool
deriving DecidableEq, Repr

/-- `core.HeartbeatRequest`, the fields the handler reads. -/
structure HeartbeatRequest (NodeId : Type) where
  term : ℕ
  leaderID : NodeId
deriving DecidableEq, Repr

/-! ## Durable records -/

/-- `hardState`. -/
structure HardState (NodeId : Type) where
  currentTerm : ℕ
  votedFor : Option NodeId
  commitIndex : ℕ
  lastApplied : ℕ
  logBase : ℕ
  logBaseTerm : ℕ
deriving DecidableEq, Repr

/-- A snapshot in the snapshot store: its metadata and its content. -/
structure Snapshot where
  index : ℕ
  term : ℕ
  data : List UInt8
deriving DecidableEq, Repr

/-- `snapshotInstall`: a snapshot being received. -/
structure SnapshotInstall where
  index : ℕ
  term : ℕ
  data : List UInt8
deriving DecidableEq, Repr

/-- `snapshotChunkSize`. -/
def snapshotChunkSize : ℕ := 1048576

/-- What one run of `sendSnapshot` holds on to: the snapshot it opened, and
the term and configuration it read afterwards. -/
structure Transfer (NodeId : Type) where
  snapshot : Snapshot
  term : ℕ
  configuration : List (RaftPeer NodeId)
deriving DecidableEq, Repr

/-- One chunk of a transfer on its way, with the time it was sent at. -/
structure ChunkSend (NodeId : Type) where
  sender : NodeId
  transfer : Transfer NodeId
  offset : ℕ
  sentAt : ℕ
deriving DecidableEq, Repr

/-- The request of the loop in `sendSnapshot` for this chunk. -/
def ChunkSend.request {NodeId : Type} (c : ChunkSend NodeId) : InstallSnapshotRequest NodeId :=
  let s := c.transfer.snapshot
  let done := decide (s.data.length ≤ c.offset + snapshotChunkSize)
  { term := c.transfer.term, leaderID := c.sender
    lastIncludedIndex := s.index, lastIncludedTerm := s.term
    offset := c.offset, data := (s.data.drop c.offset).take snapshotChunkSize, done := done
    configuration := if done then c.transfer.configuration else [] }

/-- **One write that reaches the disk as a whole.** A crash falls between two
of them. -/
inductive Write (NodeId Cmd : Type) where
  | hardState (h : HardState NodeId)
  | putLog (e : RaftLogEntry NodeId Cmd)
  | deleteLog (index : ℕ)
  | snapshot (s : Snapshot)
  | peers (members : List (RaftPeer NodeId))
  | removed (removed : Bool)
deriving DecidableEq, Repr

/-- What the stores of a node hold. The snapshot store keeps the snapshot
written last. -/
structure Disk (NodeId Cmd : Type) where
  hardState : Option (HardState NodeId) := none
  logs : List (RaftLogEntry NodeId Cmd) := []
  snapshot : Option Snapshot := none
  peers : Option (List (RaftPeer NodeId)) := none
  removed : Bool := false
deriving DecidableEq, Repr

namespace Disk

variable {NodeId Cmd : Type}

/-- The effect of one write. -/
def write (d : Disk NodeId Cmd) : Write NodeId Cmd → Disk NodeId Cmd
  | .hardState h => { d with hardState := some h }
  | .putLog e => { d with logs := d.logs.filter (fun x => x.index ≠ e.index) ++ [e] }
  | .deleteLog i => { d with logs := d.logs.filter (fun x => x.index ≠ i) }
  | .snapshot s => { d with snapshot := some s }
  | .peers ms => { d with peers := some ms }
  | .removed b => { d with removed := b }

/-- The disk after a journal of writes, on an empty disk. -/
def replay (journal : List (Write NodeId Cmd)) : Disk NodeId Cmd := journal.foldl write {}

/-- `LogStore.FirstIndex`: `0` when the log is empty. -/
def firstIndex (d : Disk NodeId Cmd) : ℕ := (d.logs.map (·.index)).min?.getD 0

/-- `LogStore.LastIndex`: `0` when the log is empty. -/
def lastIndex (d : Disk NodeId Cmd) : ℕ := (d.logs.map (·.index)).max?.getD 0

/-- `LogStore.GetLog`. -/
def getLog (d : Disk NodeId Cmd) (index : ℕ) : Option (RaftLogEntry NodeId Cmd) :=
  d.logs.find? (fun e => e.index = index)

end Disk

/-- `LogStore.StoreLogs`: the entries one after another. -/
def storeLogs {NodeId Cmd : Type} (entries : List (RaftLogEntry NodeId Cmd)) :
    List (Write NodeId Cmd) := entries.map .putLog

/-- `LogStore.DeleteRange`: the indexes `minIdx … maxIdx` in ascending order. -/
def deleteRange {NodeId Cmd : Type} (minIdx maxIdx : ℕ) : List (Write NodeId Cmd) :=
  (List.range' minIdx (maxIdx + 1 - minIdx)).map .deleteLog

/-!
## The state of a node

`Node` is the struct of `node.go` with what a node keeps beside it: the
writes it made to its stores (`journal`) and what an observer sees of it
(`trace`, `resolved`). The two goroutines whose progress matters are
program counters: `loop` for `run`, which answers RPCs one at a time and not
at all during a campaign or an install, and `applier` for `applyLoop`.

Every function here runs under the node's lock. Whether a store call
succeeds is an argument (`ok`): a failed call changes nothing on disk.
-/

/-- The part of `core.RaftConfig` the protocol reads, and whether the FSM's
own writes are durable (`StateIsDurable`). -/
structure Config where
  electionTimeout : ℕ
  maxAppendEntries : ℕ
  snapshotThreshold : ℕ
  trailingLogs : ℕ
  stateIsDurable : Bool
deriving DecidableEq, Repr

/-- `Peer`: replication progress towards a member. -/
structure Peer (NodeId : Type) where
  id : NodeId
  role : RaftRole
  nextIndex : ℕ := 0
  leaving : Bool := false
  ackTerm : ℕ := 0
  ackSentAt : ℕ := 0
deriving DecidableEq, Repr

/-- Why a proposal failed. -/
inductive FutureError (NodeId : Type) where
  | notLeader (leaderID : Option NodeId)
  | persist
  | leadershipLost (reason : String)
  | replaced (index proposed applied : ℕ)
  | apply (retryable : Bool)
deriving DecidableEq, Repr

/-- `applyFuture`. A membership change has no command. -/
structure ApplyFuture (Cmd : Type) where
  id : ℕ
  command : Option Cmd
  index : ℕ := 0
  term : ℕ := 0
deriving DecidableEq, Repr

/-- What `FSM.Apply` answers: nothing, an error marked retryable, or any
other error. -/
inductive ApplyResult where
  | ok
  | retryable
  | permanent
deriving DecidableEq, Repr

/-- What can be observed of a node. -/
inductive Obs (NodeId Cmd : Type) where
  /-- The node entered `StateLeader`. -/
  | becameLeader (term : ℕ)
  /-- The node voted for a candidate. -/
  | voted (term : ℕ) (candidate : NodeId)
  /-- The node, as leader of `term`, moved its commit index. -/
  | committed (term index time : ℕ)
  /-- `processCommitted` handed an entry to the FSM. -/
  | handed (entry : RaftLogEntry NodeId Cmd) (result : ApplyResult)
  /-- `processCommitted` applied a membership change. -/
  | changed (entry : RaftLogEntry NodeId Cmd)
deriving DecidableEq, Repr

/-- A campaign: the epoch it runs in, the position it announced, the voters
it asks, those that answered, and those that granted. -/
structure Campaign (NodeId : Type) where
  term : ℕ
  lastLogIndex : ℕ
  lastLogTerm : ℕ
  peers : List NodeId
  answered : List NodeId := []
  granted : List NodeId := []
deriving DecidableEq, Repr

/-- Where `run` is. -/
inductive Loop (NodeId : Type) where
  | idle
  | preVote (c : Campaign NodeId)
  | vote (c : Campaign NodeId)
  /-- An assembled snapshot was published and has to be installed. -/
  | publish (chunk : ChunkSend NodeId)
  /-- The FSM is being restored from it. -/
  | restore (chunk : ChunkSend NodeId)
deriving DecidableEq, Repr

/-- Where `applyLoop` is. `processCommitted` runs to `target` and has applied
`unpersisted` entries since it last wrote the applied index. -/
inductive Applier (NodeId Cmd : Type) where
  | idle
  | pass (target unpersisted : ℕ)
  | fetched (target unpersisted : ℕ) (entry : RaftLogEntry NodeId Cmd)
  | ran (target unpersisted : ℕ) (entry : RaftLogEntry NodeId Cmd) (result : ApplyResult)
  | applied (target unpersisted : ℕ) (entry : RaftLogEntry NodeId Cmd)
  | skipped (target unpersisted : ℕ) (entry : RaftLogEntry NodeId Cmd)
  | failed (entry : RaftLogEntry NodeId Cmd)
  /-- A snapshot of the applied state was published and the log has to be compacted. -/
  | compacting (index : ℕ)
deriving DecidableEq, Repr

/-- The run loop is between two events. -/
def Loop.isIdle {NodeId : Type} : Loop NodeId → Bool
  | .idle => true
  | _ => false

/-- `handleInstallSnapshot` is running, with `applyMu` held. -/
def Loop.isInstalling {NodeId : Type} : Loop NodeId → Bool
  | .publish .. => true
  | .restore .. => true
  | _ => false

/-- `applyLoop` is between two events and does not hold `applyMu`. -/
def Applier.isIdle {NodeId Cmd : Type} : Applier NodeId Cmd → Bool
  | .idle => true
  | _ => false

/-- `Node`. -/
structure Node (NodeId Cmd : Type) where
  nodeID : NodeId
  config : Config
  state : RaftState := .follower
  currentTerm : ℕ := 0
  votedFor : Option NodeId := none
  log : List (RaftLogEntry NodeId Cmd) := [baseMarker 0 0]
  logBase : ℕ := 0
  logBaseTerm : ℕ := 0
  commitIndex : ℕ := 0
  lastApplied : ℕ := 0
  appliedDirty : Bool := false
  restoring : Bool := false
  nextIndex : NodeId → ℕ := fun _ => 0
  matchIndex : NodeId → ℕ := fun _ => 0
  peers : List (Peer NodeId) := []
  membershipBase : List (RaftPeer NodeId) := []
  membershipLatest : List (RaftPeer NodeId) := []
  membershipLatestIndex : ℕ := 0
  selfNonVoter : Bool := false
  leaderNoopIndex : ℕ := 0
  leaderSince : ℕ := 0
  lastSnapshotIndex : ℕ := 0
  incomingSnapshot : Option SnapshotInstall := none
  applyCh : List (ApplyFuture Cmd) := []
  commitCh : List ℕ := []
  applyRetry : Bool := false
  leaderID : Option NodeId := none
  lastContact : ℕ := 0
  applyWaiters : List (ApplyFuture Cmd) := []
  removed : Bool := false
  /-- Not set here: no node waits for the answer to a join. -/
  awaitingJoin : Bool := false
  loop : Loop NodeId := .idle
  applier : Applier NodeId Cmd := .idle
  journal : List (Write NodeId Cmd) := []
  resolved : List (ApplyFuture Cmd × Except (FutureError NodeId) Unit) := []
  trace : List (Obs NodeId Cmd) := []

namespace Node

variable {NodeId Cmd : Type} (n : Node NodeId Cmd)

/-! ## The log -/

/-- `lastLogIndexLocked`. -/
def lastLogIndex : ℕ := (n.log.getLast?.map (·.index)).getD n.logBase

/-- `logPosition`. -/
def logPosition (index : ℕ) : Option ℕ :=
  if index < n.logBase then none
  else if n.log.length ≤ index - n.logBase then none
  else some (index - n.logBase)

/-- `logEntry`. -/
def logEntry (index : ℕ) : Option (RaftLogEntry NodeId Cmd) :=
  (n.logPosition index).bind (n.log[·]?)

/-- `getLogTerm`. -/
def getLogTerm (index : ℕ) : ℕ :=
  if index = n.logBase then n.logBaseTerm else ((n.logEntry index).map (·.term)).getD 0

/-- `getEntriesAfter`. -/
def getEntriesAfter (start maxCount : ℕ) : List (RaftLogEntry NodeId Cmd) :=
  let start := if start ≤ n.logBase then n.logBase + 1 else start
  match n.logPosition start with
  | none => []
  | some pos => (n.log.drop pos).take maxCount

/-- `isLogMoreUpToDate`: the candidate's log is at least as current as ours. -/
def isLogMoreUpToDate (candidateLastLogTerm candidateLastLogIndex : ℕ) : Bool :=
  decide (n.getLogTerm n.lastLogIndex < candidateLastLogTerm) ||
    (candidateLastLogTerm = n.getLogTerm n.lastLogIndex &&
      decide (n.lastLogIndex ≤ candidateLastLogIndex))

/-! ## Stores -/

/-- The disk as the node's writes left it. -/
def disk : Disk NodeId Cmd := Disk.replay n.journal

/-- Writes that took effect. -/
def wrote (ws : List (Write NodeId Cmd)) : Node NodeId Cmd := { n with journal := n.journal ++ ws }

/-- The hard state `persistHardStateLocked` writes. -/
def hardState : HardState NodeId :=
  ⟨n.currentTerm, n.votedFor, n.commitIndex, n.lastApplied, n.logBase, n.logBaseTerm⟩

/-- `persistHardStateLocked`; `none` is an error. -/
def persistHardState (ok : Bool) : Option (Node NodeId Cmd) :=
  if ok then some (n.wrote [.hardState n.hardState]) else none

/-- `appendEntry`; `none` is an error. -/
def appendEntry (ok : Bool) (term : ℕ) (data : EntryData NodeId Cmd) : Option (Node NodeId Cmd) :=
  let entry : RaftLogEntry NodeId Cmd := ⟨n.lastLogIndex + 1, term, data⟩
  if ok then some { n with log := n.log ++ [entry], journal := n.journal ++ [.putLog entry] }
  else none

/-! ## Futures -/

/-- Closes a future with its outcome. -/
def resolve (f : ApplyFuture Cmd) (r : Except (FutureError NodeId) Unit) : Node NodeId Cmd :=
  { n with resolved := n.resolved ++ [(f, r)] }

/-- `applyWaiters.Store`: one future an index, the last one stored. -/
def storeWaiter (f : ApplyFuture Cmd) : Node NodeId Cmd :=
  { n with applyWaiters := n.applyWaiters.filter (fun g => g.index ≠ f.index) ++ [f] }

/-- `failPendingFutures`. -/
def failPendingFutures (fromIndex : ℕ) (reason : String) : Node NodeId Cmd :=
  { n with
    applyWaiters := n.applyWaiters.filter (fun f => f.index < fromIndex)
    resolved := n.resolved ++
      (n.applyWaiters.filter (fun f => fromIndex ≤ f.index)).map
        fun f => (f, .error (.leadershipLost reason)) }

/-- `notifyApply`. -/
def notifyApply (index term : ℕ) (err : Option (FutureError NodeId)) : Node NodeId Cmd :=
  match n.applyWaiters.find? (fun f => f.index = index) with
  | none => n
  | some f =>
    let n := { n with applyWaiters := n.applyWaiters.filter (fun g => g.index ≠ index) }
    if f.term ≠ 0 ∧ f.term ≠ term then n.resolve f (.error (.replaced index f.term term))
    else
      match err with
      | none => n.resolve { f with term := term } (.ok ())
      | some e => n.resolve { f with term := term } (.error e)

/-! ## Roles -/

/-- `becomeFollower`; `none` is an error, with term and vote as they were. -/
def becomeFollower (ok : Bool) (now term : ℕ) : Option (Node NodeId Cmd) :=
  match persistHardState { n with currentTerm := term, votedFor := none } ok with
  | none => none
  | some m =>
    let m := { m with
      state := .follower
      lastContact := now
      leaderID := if n.currentTerm < term then none else m.leaderID }
    some (if n.state = .leader then
      m.failPendingFutures 0 "leadership lost before the entry committed" else m)

/-- `stepDownLocked`. -/
def stepDown (now : ℕ) : Node NodeId Cmd :=
  if n.state = .leader then
    failPendingFutures { n with state := .follower, leaderID := none, lastContact := now } 0
      "leadership lost before the entry committed"
  else n

/-- The node heard from a leader. -/
def contacted (now : ℕ) (leader : NodeId) : Node NodeId Cmd :=
  { n with lastContact := now, leaderID := some leader }

/-- `notifyCommit`: the channel holds `16` indexes, a full one loses the oldest. -/
def notifyCommit (index : ℕ) : Node NodeId Cmd :=
  { n with commitCh := (if n.commitCh.length < 16 then n.commitCh else n.commitCh.tail) ++ [index] }

/-- Adds to the trace. -/
def observe (o : Obs NodeId Cmd) : Node NodeId Cmd := { n with trace := n.trace ++ [o] }

end Node

end Anubis.Raft
