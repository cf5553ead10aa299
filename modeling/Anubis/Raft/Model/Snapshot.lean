import Anubis.Raft.Model.Membership

/-!
# Log replication

A follower's side, `handleAppendEntries` with its helpers, and a leader's:
what it sends, what it makes of the answers, and when it moves its commit
index.
-/

namespace Anubis.Raft

open Function

variable {NodeId Cmd : Type} [LinearOrder NodeId]

/-- Which store calls of `handleAppendEntries` succeed. -/
structure AppendIO where
  term : Bool := true
  delete : Bool := true
  store : Bool := true
  commit : Bool := true
deriving DecidableEq, Repr

namespace Node

variable (n : Node NodeId Cmd)

/-! ## The follower -/

/-- The first index of the run of `term` that ends at the given one. -/
def conflictStart (term : ℕ) : ℕ → ℕ
  | 0 => 0
  | i + 1 => if n.logBase < i ∧ n.getLogTerm i = term then conflictStart term i else i + 1

/-- `checkLogConsistency`; `none` is "consistent". -/
def checkLogConsistency (req : AppendEntriesRequest NodeId Cmd) : Option AppendEntriesResponse :=
  if req.prevLogIndex = n.logBase then
    if req.prevLogTerm ≠ n.logBaseTerm then some ⟨n.currentTerm, false, 0, 0,
      n.logBase + 1⟩ else none
  else
    match n.logEntry req.prevLogIndex with
    | none =>
      let conflict := if n.lastLogIndex < req.prevLogIndex then n.lastLogIndex +
        1 else n.logBase + 1
      some ⟨n.currentTerm, false, n.lastLogIndex, 0, conflict⟩
    | some entry =>
      if entry.term ≠ req.prevLogTerm then
        some ⟨n.currentTerm, false, 0, entry.term, n.conflictStart entry.term req.prevLogIndex⟩
      else none

/-- The first index at which an incoming entry has another term than ours;
the incoming entries start at `idx`. -/
def conflictAt (idx : ℕ) : List (RaftLogEntry NodeId Cmd) → Option ℕ
  | [] => none
  | incoming :: rest =>
    match n.logEntry idx with
    | some own => if own.term ≠ incoming.term then some idx else conflictAt (idx + 1) rest
    | none => conflictAt (idx + 1) rest

/-- The incoming entries past `last`, numbered from `idx`. -/
def newEntries (last idx : ℕ) : List (RaftLogEntry NodeId Cmd) → List (RaftLogEntry NodeId Cmd)
  | [] => []
  | incoming :: rest =>
    if last < idx then { incoming with index := idx } :: newEntries last (idx + 1) rest
    else newEntries last (idx + 1) rest

/-- Drops the log from `index` on, in the store and in memory. -/
def truncateLog (index : ℕ) : Node NodeId Cmd :=
  failPendingFutures
    { n with
      log := n.log.take ((n.logPosition index).getD 0)
      journal := n.journal ++ deleteRange index n.lastLogIndex }
    index "entry overwritten by a newer leader"

/-- `reconcileLogEntries` after the truncation; `false` is an error. -/
def appendNew (okStore truncated : Bool) (req : AppendEntriesRequest NodeId Cmd) :
    Node NodeId Cmd × Bool :=
  let appended := newEntries n.lastLogIndex (req.prevLogIndex + 1) req.entries
  if appended ≠ [] ∧ !okStore then (if truncated then n.refreshMembership else n, false)
  else
    let m := { n with log := n.log ++ appended, journal := n.journal ++ storeLogs appended }
    let changed := truncated || appended.any fun e => e.data matches .membershipChange _
    (if changed then m.refreshMembership else m, true)

/-- `reconcileLogEntries`; `false` is an error. -/
def reconcileLogEntries (io : AppendIO) (req : AppendEntriesRequest NodeId Cmd) :
    Node NodeId Cmd × Bool :=
  match n.conflictAt (req.prevLogIndex + 1) req.entries with
  | some index =>
    if io.delete then (n.truncateLog index).appendNew io.store true req else (n, false)
  | none => n.appendNew io.store false req

/-- `updateCommitIndex`. -/
def updateCommitIndex (ok : Bool) (req : AppendEntriesRequest NodeId Cmd) : Node NodeId Cmd :=
  let newCommit := min req.leaderCommit (req.prevLogIndex + req.entries.length)
  if newCommit ≤ n.commitIndex then n
  else
    match persistHardState { n with commitIndex := newCommit } ok with
    | none => n
    | some m => m.notifyCommit newCommit

/-- `handleAppendEntries` once the request's term is the node's. -/
def acceptAppend (io : AppendIO) (now : ℕ) (req : AppendEntriesRequest NodeId Cmd) :
    Node NodeId Cmd × AppendEntriesResponse :=
  let m := n.contacted now req.leaderID
  match m.checkLogConsistency req with
  | some resp => (m, resp)
  | none =>
    match m.reconcileLogEntries io req with
    | (m, false) => (m, ⟨m.currentTerm, false, 0, 0, 0⟩)
    | (m, true) =>
      let m := m.updateCommitIndex io.commit req
      (m, ⟨m.currentTerm, true, req.prevLogIndex + req.entries.length, 0, 0⟩)

/-- `handleAppendEntries`. A node that is not a follower stays what it is
when the request carries its own term. -/
def handleAppendEntries (io : AppendIO) (now : ℕ) (req : AppendEntriesRequest NodeId Cmd) :
    Node NodeId Cmd × AppendEntriesResponse :=
  if req.term < n.currentTerm then (n, ⟨n.currentTerm, false, 0, 0, 0⟩)
  else if n.currentTerm < req.term then
    match n.becomeFollower io.term now req.term with
    | none => (n, ⟨n.currentTerm, false, 0, 0, 0⟩)
    | some m => m.acceptAppend io now req
  else n.acceptAppend io now req

/-! ## The leader -/

/-- Whether the peer's next entry is compacted away. -/
def needsSnapshot (p : Peer NodeId) : Bool := 0 < n.logBase && decide (p.nextIndex ≤ n.logBase)

/-- The request `sendHeartbeats` builds for a peer. -/
def appendRequest (p : Peer NodeId) (leaderCommit : ℕ) : AppendEntriesRequest NodeId Cmd :=
  { term := n.currentTerm
    leaderID := n.nodeID
    prevLogIndex := p.nextIndex - 1
    prevLogTerm := n.getLogTerm (p.nextIndex - 1)
    entries := n.getEntriesAfter p.nextIndex n.config.maxAppendEntries
    leaderCommit := leaderCommit }

/-- `checkStandardCommit`. -/
def checkStandardCommit (index : ℕ) : Bool :=
  let (votes, voters) := n.countVoters true fun p => index ≤ n.matchIndex p.id
  decide (0 < voters) && decide (voters / 2 < votes)

/-- The highest index up to the given one that `checkCommit` would commit. -/
def commitCandidate : ℕ → Option ℕ
  | 0 => none
  | i + 1 =>
    if i + 1 ≤ n.commitIndex then none
    else if (n.logEntry (i + 1)).any (fun e => e.term = n.currentTerm) ∧
      n.checkStandardCommit (i + 1)
    then some (i + 1)
    else commitCandidate i

/-- `checkCommit`. -/
def checkCommit (ok : Bool) (now : ℕ) : Node NodeId Cmd :=
  if n.state ≠ .leader then n
  else
    match n.commitCandidate n.lastLogIndex with
    | none => n
    | some index =>
      match persistHardState { n with commitIndex := index } ok with
      | none => n
      | some m => (m.notifyCommit index).observe (.committed n.currentTerm index now)

/-- Sets both copies of a peer's next index. -/
def setNextIndex (id : NodeId) (next : ℕ) : Node NodeId Cmd :=
  { n with
    nextIndex := update n.nextIndex id next
    peers := n.peers.map fun p => if p.id = id then { p with nextIndex := next } else p }

/-- Where to resume after the follower reported a conflicting term: past this
leader's last entry of that term, or at the follower's first one. The list is
the log without its base marker, last entry first. -/
def resumeAfter (conflictTerm conflictIndex : ℕ) : List (RaftLogEntry NodeId Cmd) → ℕ
  | [] => conflictIndex
  | e :: rest =>
    if e.term = conflictTerm then e.index + 1
    else if e.term < conflictTerm then conflictIndex
    else resumeAfter conflictTerm conflictIndex rest

/-- The next index after a rejection. -/
def backupIndex (req : AppendEntriesRequest NodeId Cmd) (resp : AppendEntriesResponse) : ℕ :=
  let next :=
    if 0 < resp.conflictTerm then
      resumeAfter resp.conflictTerm resp.conflictIndex n.log.tail.reverse
    else if 0 < resp.conflictIndex then resp.conflictIndex
    else req.prevLogIndex
  max next 1

/-- `handleAppendEntriesResponse`. -/
def handleAppendEntriesResponse (okTerm okCommit : Bool) (now : ℕ) (peer : NodeId)
    (req : AppendEntriesRequest NodeId Cmd) (resp : AppendEntriesResponse) : Node NodeId Cmd :=
  if n.state ≠ .leader then n
  else if n.currentTerm < resp.term then (n.becomeFollower okTerm now resp.term).getD n
  else if req.term ≠ n.currentTerm ∨ resp.term ≠ n.currentTerm then n
  else
    let currentMatch := n.matchIndex peer
    let currentNext := n.nextIndex peer
    if resp.success then
      let matched := req.prevLogIndex + req.entries.length
      if matched ≤ currentMatch then n
      else
        (setNextIndex { n with matchIndex := update n.matchIndex peer matched } peer
          (max currentNext (matched + 1))).checkCommit okCommit now
    else if currentNext = 0 ∨ req.prevLogIndex ≠ currentNext - 1 ∨ req.prevLogIndex ≤ currentMatch
    then n
    else
      let next := max (n.backupIndex req resp) (currentMatch + 1)
      if currentNext ≤ next then n else n.setNextIndex peer next

/-! ## Check-quorum -/

/-- `markPeerAck`. -/
def markPeerAck (peer : NodeId) (term sentAt : ℕ) : Node NodeId Cmd :=
  { n with
    peers := n.peers.map fun p =>
      if p.id = peer ∧ (p.ackTerm ≠ term ∨ p.ackSentAt < sentAt) then
        { p with ackTerm := term, ackSentAt := sentAt }
      else p }

/-- `quorumAckedSinceLocked`. -/
def quorumAckedSince (term since : ℕ) : Bool :=
  let (votes, voters) := n.countVoters true fun p =>
    p.ackTerm = term && decide (since ≤ p.ackSentAt)
  decide (0 < voters) && decide (voters / 2 < votes)

/-- `checkQuorum`. -/
def checkQuorum (now : ℕ) : Node NodeId Cmd :=
  let window := n.config.electionTimeout
  if n.state ≠ .leader ∨ window = 0 ∨ now - n.leaderSince < window then n
  else if n.quorumAckedSince n.currentTerm (now - window) then n
  else n.stepDown now

end Node

/-!
## Snapshots

Taking one and compacting the log, sending one in chunks, and installing a
received one. `handleInstallSnapshot` holds `applyMu` throughout but gives up
the node's lock while it writes the snapshot and again while the FSM is
restored, so it is three functions.
-/

/-- Which calls of `handleInstallSnapshot` succeed: the term's write, the
check that the image decodes, and publishing it in the snapshot store. -/
structure ReceiveIO where
  term : Bool := true
  image : Bool := true
  sink : Bool := true
deriving DecidableEq, Repr

/-- Which calls succeed once the snapshot is published: the FSM's restore,
the hard state, the member list, and deleting the covered entries. -/
structure InstallIO where
  restore : Bool := true
  hardState : Bool := true
  peers : Bool := true
  delete : Bool := true
deriving DecidableEq, Repr

namespace Node

variable (n : Node NodeId Cmd)

/-! ## Receiving -/

/-- The chunk of a request is added to the snapshot being received, and the
last one publishes it. No response means that the install goes on. -/
def receiveChunk (io : ReceiveIO) (chunk : ChunkSend NodeId) :
    Node NodeId Cmd × Option InstallSnapshotResponse :=
  let req := chunk.request
  let incoming := if req.offset = 0 then some ⟨req.lastIncludedIndex, req.lastIncludedTerm, []⟩
    else n.incomingSnapshot
  let n := { n with incomingSnapshot := incoming }
  match incoming with
  | none => (n, some ⟨n.currentTerm, false⟩)
  | some install =>
    if install.index ≠ req.lastIncludedIndex ∨ install.term ≠ req.lastIncludedTerm ∨
        install.data.length ≠ req.offset then (n, some ⟨n.currentTerm, false⟩)
    else
      let install := { install with data := install.data ++ req.data }
      if !req.done then ({ n with incomingSnapshot := some install }, some ⟨n.currentTerm, true⟩)
      else if !io.image || !io.sink then
        ({ n with incomingSnapshot := none }, some ⟨n.currentTerm, false⟩)
      else
        ({ n with
            incomingSnapshot := some install
            loop := .publish chunk
            journal := n.journal ++ [.snapshot ⟨install.index, install.term, install.data⟩] }, none)

/-- `handleInstallSnapshot` in the request's term. -/
def receiveSnapshot (io : ReceiveIO) (now : ℕ) (chunk : ChunkSend NodeId) :
    Node NodeId Cmd × Option InstallSnapshotResponse :=
  let req := chunk.request
  let m := n.contacted now req.leaderID
  if req.lastIncludedIndex ≤ n.commitIndex ∨ req.lastIncludedIndex ≤ n.lastApplied then
    -- a snapshot of committed state changes nothing, and is acknowledged
    let boundary := max n.commitIndex n.lastApplied
    let incoming := if n.incomingSnapshot.any (fun i => i.index ≤ boundary) then none
      else n.incomingSnapshot
    ({ m with incomingSnapshot := incoming }, some ⟨m.currentTerm, true⟩)
  else m.receiveChunk io chunk

/-- `handleInstallSnapshot`, up to the published snapshot. -/
def handleInstallSnapshot (io : ReceiveIO) (now : ℕ) (chunk : ChunkSend NodeId) :
    Node NodeId Cmd × Option InstallSnapshotResponse :=
  let req := chunk.request
  if req.term < n.currentTerm then (n, some ⟨n.currentTerm, false⟩)
  else if n.currentTerm < req.term then
    match n.becomeFollower io.term now req.term with
    | none => (n, some ⟨n.currentTerm, false⟩)
    | some m => m.receiveSnapshot io now chunk
  else n.receiveSnapshot io now chunk

/-- The second look at term and indexes before the FSM is touched. -/
def recheckInstall (chunk : ChunkSend NodeId) : Node NodeId Cmd × Option InstallSnapshotResponse :=
  let req := chunk.request
  if req.term ≠ n.currentTerm ∨ req.lastIncludedIndex ≤ n.commitIndex ∨
      req.lastIncludedIndex ≤ n.lastApplied then
    ({ n with incomingSnapshot := none, loop := .idle },
      some ⟨n.currentTerm, decide (req.term = n.currentTerm)⟩)
  else ({ n with restoring := true, loop := .restore chunk }, none)

/-- The log, the indexes and the configuration after the FSM was restored:
what the log holds past the snapshot stays. -/
def installSnapshot (now : ℕ) (req : InstallSnapshotRequest NodeId) : Node NodeId Cmd :=
  let index := req.lastIncludedIndex
  let m := { n with
    log := baseMarker index req.lastIncludedTerm :: n.log.filter (fun e => index < e.index)
    logBase := index
    logBaseTerm := req.lastIncludedTerm }
  let m := if req.configuration ≠ [] then m.setMembershipBase (normalizeMembers req.configuration)
    else m.refreshMembership
  { m with
    commitIndex := max m.commitIndex index
    lastApplied := max m.lastApplied index
    lastSnapshotIndex := index
    lastContact := now }

/-- The end of `handleInstallSnapshot`: the member list, and the stored
entries the snapshot covers. -/
def settleInstall (io : InstallIO) (req : InstallSnapshotRequest NodeId) : Node NodeId Cmd :=
  let m := n.wrote (if req.configuration ≠ [] ∧ io.peers then
    [.peers (normalizeMembers req.configuration)] else [])
  let first := m.disk.firstIndex
  if 0 < first ∧ first ≤ req.lastIncludedIndex ∧ io.delete then
    m.wrote (deleteRange first req.lastIncludedIndex)
  else m

/-- `handleInstallSnapshot` from the restored FSM on. -/
def finishInstall (io : InstallIO) (now : ℕ) (req : InstallSnapshotRequest NodeId) :
    Node NodeId Cmd × InstallSnapshotResponse :=
  let n := { n with restoring := false, incomingSnapshot := none, loop := .idle }
  if !io.restore then (n, ⟨n.currentTerm, false⟩)
  else
    match (n.installSnapshot now req).persistHardState io.hardState with
    | none => (n.installSnapshot now req, ⟨n.currentTerm, false⟩)
    | some m => (m.settleInstall io req, ⟨m.currentTerm, decide (req.term = m.currentTerm)⟩)

/-! ## Sending -/

/-- The end of `sendSnapshot`: the peer has everything up to `index`. -/
def snapshotSent (term : ℕ) (peer : NodeId) (index : ℕ) : Node NodeId Cmd :=
  if n.state = .leader ∧ term = n.currentTerm then
    setNextIndex { n with matchIndex := update n.matchIndex peer index } peer (index + 1)
  else n

/-! ## Taking one -/

/-- `maybeTakeSnapshot` up to the published snapshot; `image` is what
`FSM.Snapshot` returned and `ok` says whether writing it succeeded. -/
def maybeTakeSnapshot (ok : Bool) (image : List UInt8) : Node NodeId Cmd :=
  let covered := max n.logBase n.lastSnapshotIndex
  let snapIndex := n.lastApplied
  if n.config.snapshotThreshold = 0 ∨ n.lastLogIndex - covered < n.config.snapshotThreshold ∨
      snapIndex ≤ covered ∨ !ok then n
  else
    { n with
      journal := n.journal ++ [.snapshot ⟨snapIndex, n.getLogTerm snapIndex, image⟩]
      applier := .compacting snapIndex }

/-- The base `compactLogLocked` moves to. -/
def compactionBase (snapshotIndex : ℕ) : ℕ :=
  if n.config.trailingLogs = 0 then snapshotIndex
  else if n.config.trailingLogs < snapshotIndex then snapshotIndex - n.config.trailingLogs
  else 0

/-- `compactLog`. A failed write of the hard state leaves the base moved in
memory and the stored entries in place. -/
def compactLog (okHardState okDelete : Bool) (snapshotIndex : ℕ) : Node NodeId Cmd :=
  let newBase := n.compactionBase snapshotIndex
  if snapshotIndex ≤ n.logBase ∨ n.lastLogIndex < snapshotIndex ∨ newBase ≤ n.logBase then n
  else
    match n.logPosition newBase with
    | none => n
    | some pos =>
      let newBaseTerm := n.getLogTerm newBase
      let m := { n with
        log := baseMarker newBase newBaseTerm :: n.log.drop (pos + 1)
        logBase := newBase
        logBaseTerm := newBaseTerm }
      match m.persistHardState okHardState with
      | none => m
      | some m => m.wrote (if okDelete then deleteRange (n.logBase + 1) newBase else [])

/-- `maybeTakeSnapshot` after the snapshot was published. -/
def finishSnapshot (okHardState okDelete : Bool) (snapshotIndex : ℕ) : Node NodeId Cmd :=
  compactLog { n with lastSnapshotIndex := snapshotIndex, applier := .idle } okHardState okDelete
    snapshotIndex

end Node

end Anubis.Raft
