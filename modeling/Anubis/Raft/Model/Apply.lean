import Anubis.Raft.Model.Snapshot

/-!
# Applying committed entries

`applyLoop` admits proposals and applies what is committed. A pass of
`processCommitted` gives up the node's lock around every FSM call, so each
stretch between two locks is a function of its own and the pass is a
sequence of them. `result` is what the FSM answered.
-/

namespace Anubis.Raft

variable {NodeId Cmd : Type} [LinearOrder NodeId]

/-- `appliedPersistEvery`. -/
def appliedPersistEvery : ℕ := 256

/-- What the store and FSM calls of one stretch of `applyLoop` return. -/
structure ApplyIO where
  hardState : Bool := true
  removed : Bool := true
  peers : Bool := true
  delete : Bool := true
  result : ApplyResult := .ok
deriving DecidableEq, Repr

namespace Node

variable (n : Node NodeId Cmd)

/-- `Apply` up to the channel, which holds `256` futures. -/
def submit (future : ℕ) (cmd : Cmd) : Option (Node NodeId Cmd) :=
  if n.state = .leader ∧ n.applyCh.length < 256 then
    some { n with applyCh := n.applyCh ++ [⟨future, some cmd, 0, 0⟩] }
  else none

/-- `handleApply`. -/
def handleApply (ok : Bool) (f : ApplyFuture Cmd) : Node NodeId Cmd :=
  if n.state ≠ .leader then n.resolve f (.error (.notLeader n.leaderID))
  else
    match n.appendEntry ok n.currentTerm ((f.command.map .command).getD .noOp) with
    | none => n.resolve f (.error .persist)
    | some m => m.storeWaiter { f with index := m.lastLogIndex, term := n.currentTerm }

/-- `persistApplied`; `false` ends the pass. -/
def persistApplied (ok : Bool) : Node NodeId Cmd × Bool :=
  match n.persistHardState ok with
  | none => ({ n with appliedDirty := true, applyRetry := true }, false)
  | some m => ({ m with appliedDirty := false }, true)

/-- The head of the loop in `processCommitted`: the pass ends, or takes the
next entry. -/
def nextCommitted (ok : Bool) (target unpersisted : ℕ) : Node NodeId Cmd :=
  if target ≤ n.lastApplied then
    if 0 < unpersisted ∨ n.appliedDirty then { (n.persistApplied ok).1 with applier := .idle }
    else { n with applier := .idle }
  else
    match n.logEntry (n.lastApplied + 1) with
    | none => { n with applier := .idle }
    | some entry => { n with applier := .fetched target unpersisted entry }

/-- The entry goes to the FSM, or into the committed configuration. -/
def applyEntry (okRemoved okPeers : Bool) (result : ApplyResult) (target unpersisted : ℕ)
    (entry : RaftLogEntry NodeId Cmd) : Node NodeId Cmd :=
  match entry.data with
  | .membershipChange e =>
    { n.applyMembershipEntry okRemoved okPeers e with
      trace := n.trace ++ [.changed entry]
      applier := .ran target unpersisted entry .ok }
  | _ =>
    { n with
      trace := n.trace ++ [.handed entry result]
      applier := .ran target unpersisted entry result }

/-- What the pass makes of the answer. A permanent failure consumes the entry
(`skipCommittedEntry`), a retryable one does not. -/
def afterApply (ok : Bool) (target unpersisted : ℕ) (entry : RaftLogEntry NodeId Cmd) :
    ApplyResult → Node NodeId Cmd
  | .ok =>
    { n with lastApplied := n.lastApplied + 1, applier := .applied target unpersisted entry }
  | .permanent =>
    match persistHardState { n with lastApplied := n.lastApplied + 1 } ok with
    | none => { n with applyRetry := true, applier := .idle }
    | some m => { m with applier := .skipped target unpersisted entry }
  | .retryable => { n with applier := .failed entry }

/-- After a success: the waiting proposal, and every `256` entries the
applied index. -/
def notifyApplied (ok : Bool) (target unpersisted : ℕ) (entry : RaftLogEntry NodeId Cmd) :
    Node NodeId Cmd :=
  let n := n.notifyApply entry.index entry.term none
  if unpersisted + 1 < appliedPersistEvery then { n with applier := .pass target (unpersisted + 1) }
  else
    match n.persistApplied ok with
    | (m, true) => { m with applier := .pass target 0 }
    | (m, false) => { m with applier := .idle }

/-- After a skipped entry. -/
def notifySkipped (target unpersisted : ℕ) (entry : RaftLogEntry NodeId Cmd) : Node NodeId Cmd :=
  { n.notifyApply entry.index entry.term (some (.apply false)) with
    applier := .pass target unpersisted }

/-- After a retryable failure, which also asks for another pass. -/
def notifyFailed (entry : RaftLogEntry NodeId Cmd) : Node NodeId Cmd :=
  { n.notifyApply entry.index entry.term (some (.apply true)) with
    applyRetry := true, applier := .idle }

/-- **One stretch of `applyLoop`** between two locks. -/
def applierStep (io : ApplyIO) : Node NodeId Cmd :=
  match n.applier with
  | .idle => n
  | .pass target unpersisted => n.nextCommitted io.hardState target unpersisted
  | .fetched target unpersisted entry =>
    n.applyEntry io.removed io.peers io.result target unpersisted entry
  | .ran target unpersisted entry result =>
    n.afterApply io.hardState target unpersisted entry result
  | .applied target unpersisted entry => n.notifyApplied io.hardState target unpersisted entry
  | .skipped target unpersisted entry => n.notifySkipped target unpersisted entry
  | .failed entry => n.notifyFailed entry
  | .compacting index => n.finishSnapshot io.hardState io.delete index

/-- `applyRetryLoop`, when its delay is over. -/
def retryApply : Node NodeId Cmd :=
  let n := { n with applyRetry := false }
  if n.commitIndex = 0 then n else n.notifyCommit n.commitIndex

end Node

/-!
## Starting a node

`Start` rebuilds a node from what its stores hold: the hard state, the
member list, the latest snapshot and the log, in that order, each with its
own early returns. Then it applies again what was committed and not
recorded as applied.
-/

/-- `NewNodeWithStableStore`, with the configuration it starts from. -/
def newNode (self : NodeId) (config : Config) (members : List (RaftPeer NodeId)) :
    Node NodeId Cmd :=
  Node.refreshMembership { nodeID := self, config := config, membershipBase := members }

namespace Node

variable (n : Node NodeId Cmd)

/-- `restoreHardState`. -/
def restoreHardState (d : Disk NodeId Cmd) : Node NodeId Cmd :=
  match d.hardState with
  | none => n
  | some h =>
    { n with
      currentTerm := h.currentTerm, votedFor := h.votedFor
      commitIndex := h.commitIndex, lastApplied := h.lastApplied
      logBase := h.logBase, logBaseTerm := h.logBaseTerm }

/-- `restorePeers`: this node is always a member of what it restores. -/
def restorePeers (d : Disk NodeId Cmd) : Node NodeId Cmd :=
  match d.peers with
  | none => n
  | some peers =>
    let role := ((peers.filter (fun p => p.id = n.nodeID)).getLast?.map (·.role)).getD .voter
    n.setMembershipBase
      (normalizeMembers (⟨n.nodeID, role⟩ :: peers.filter (fun p => p.id ≠ n.nodeID)))

/-- `restoreLatestSnapshot`; `none` is an error. A durable FSM that applied
past the snapshot keeps its state, and with it the base and the log the
hard state named. -/
def restoreLatestSnapshot (okRestore : Bool) (d : Disk NodeId Cmd) : Option (Node NodeId Cmd) :=
  match d.snapshot with
  | none => some n
  | some s =>
    if s.index < n.logBase then some n
    else if n.config.stateIsDurable ∧ s.index ≤ n.lastApplied then
      some { n with lastSnapshotIndex := s.index }
    else if okRestore then
      some { n with
        logBase := s.index, logBaseTerm := s.term, lastSnapshotIndex := s.index
        commitIndex := max n.commitIndex s.index, lastApplied := s.index
        log := [baseMarker s.index s.term] }
    else none

/-- Reads the stored entries `index … index + count - 1`; `none` if one is
missing. -/
def readLog (d : Disk NodeId Cmd) (index : ℕ) : ℕ → Option (List (RaftLogEntry NodeId Cmd))
  | 0 => some []
  | count + 1 =>
    match d.getLog index with
    | none => none
    | some e => (readLog d (index + 1) count).map (e :: ·)

/-- `restoreLog`; `none` is an error. An empty store leaves the log as it
is. -/
def restoreLog (d : Disk NodeId Cmd) : Option (Node NodeId Cmd) :=
  let firstIdx := d.firstIndex
  let lastIdx := d.lastIndex
  if lastIdx < firstIdx ∨ firstIdx = 0 then some n
  else if n.logBase + 1 < firstIdx then none
  else
    (readLog d (n.logBase + 1) (lastIdx - n.logBase)).map fun entries =>
      { n with log := baseMarker n.logBase n.logBaseTerm :: entries }

/-- The restores of `Start`, in order. -/
def restore (okRestore : Bool) (d : Disk NodeId Cmd) : Option (Node NodeId Cmd) :=
  let n := (n.restoreHardState d).restorePeers d
  let n := { n with removed := d.removed }
  match n.restoreLatestSnapshot okRestore d with
  | none => none
  | some n =>
    match n.restoreLog d with
    | none => none
    | some n => some (if n.logHasMembership then n.refreshMembership else n)

/-- `Start`; `none` is an error. `ios` are the outcomes of the calls made
while committed entries are applied again. -/
def start (okRestore : Bool) (ios : List ApplyIO) (d : Disk NodeId Cmd) :
    Option (Node NodeId Cmd) :=
  match n.restore okRestore d with
  | none => none
  | some m =>
    if m.commitIndex ≤ m.lastApplied then some m
    else
      let m := ios.foldl (fun m io => m.applierStep io) { m with applier := .pass m.commitIndex 0 }
      if m.applier.isIdle ∧ m.commitIndex ≤ m.lastApplied then some m else none

end Node

end Anubis.Raft
