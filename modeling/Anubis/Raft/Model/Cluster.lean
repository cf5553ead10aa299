import Anubis.Common.Runs
import Anubis.Raft.Model.Apply

/-!
# The cluster

Nodes and everything they ever sent. A message stays in `net` once it is
there, so it can be delivered late, twice, out of order or never. What a
background goroutine still has to do is a message too (`appendBuilt`,
`snapshotDue`, `snapshotOpened`, `change`): it can go on at any time.

`step` takes one event. Events name the outcomes of the store and FSM calls
they involve. An event is refused where the code could not take it: an RPC
while `run` is in a campaign or an install, an install while `applyMu` is
held.
-/

namespace Anubis.Raft

variable {NodeId Cmd : Type} [LinearOrder NodeId]

/-- Messages, and what goroutines carry from one lock to the next. Answers
hold the request they answer, and the time it was sent at. -/
inductive Msg (NodeId Cmd : Type) where
  | preVote (dst : NodeId) (req : PreVoteRequest NodeId)
  | preVoteAnswer (src : NodeId) (req : PreVoteRequest NodeId) (resp : VoteResponse)
  | vote (dst : NodeId) (req : RequestVoteRequest NodeId)
  | voteAnswer (src : NodeId) (req : RequestVoteRequest NodeId) (resp : VoteResponse)
  | appendBuilt (src dst : NodeId) (req : AppendEntriesRequest NodeId Cmd)
  | append (src dst : NodeId) (req : AppendEntriesRequest NodeId Cmd) (sentAt : ℕ)
  | appendAnswer (src dst : NodeId) (req : AppendEntriesRequest NodeId Cmd)
      (resp : AppendEntriesResponse) (sentAt : ℕ)
  | snapshotDue (src dst : NodeId)
  | snapshotOpened (src dst : NodeId) (s : Snapshot)
  | chunk (dst : NodeId) (c : ChunkSend NodeId)
  | chunkAnswer (src : NodeId) (c : ChunkSend NodeId) (resp : InstallSnapshotResponse)
  | change (src : NodeId) (c : MembershipChange NodeId)
deriving DecidableEq, Repr

/-- What happens next. A natural number names a message by its place in
`net`. -/
inductive Event (NodeId Cmd : Type) where
  | tick (d : ℕ)
  | electionTimeout (n : NodeId) (ok : Bool)
  | handlePreVote (i : ℕ)
  | preVoteAnswer (i : ℕ) (ok : Bool)
  | finishPreVote (n : NodeId) (ok : Bool)
  | handleVote (i : ℕ) (okTerm okVote : Bool)
  | voteAnswer (i : ℕ) (ok : Bool)
  | finishVote (n : NodeId) (ok : Bool)
  | heartbeat (n : NodeId) (req : HeartbeatRequest NodeId) (ok : Bool)
  | buildAppend (n peer : NodeId) (leaderCommit : ℕ)
  | sendAppend (i : ℕ)
  | handleAppend (i : ℕ) (io : AppendIO)
  | markAck (i : ℕ)
  | appendAnswer (i : ℕ) (okTerm okCommit : Bool)
  | checkCommit (n : NodeId) (ok : Bool)
  | checkQuorum (n : NodeId)
  | openSnapshot (i : ℕ)
  | sendSnapshot (i : ℕ)
  | handleChunk (i : ℕ) (io : ReceiveIO)
  | recheckInstall (n : NodeId)
  | finishInstall (n : NodeId) (io : InstallIO)
  | markChunkAck (i : ℕ)
  | chunkAnswer (i : ℕ)
  | submit (n : NodeId) (cmd : Cmd)
  | handleApply (n : NodeId) (ok : Bool)
  | startPass (n : NodeId)
  | applierStep (n : NodeId) (io : ApplyIO)
  | takeSnapshot (n : NodeId) (ok : Bool) (image : List UInt8)
  | retryApply (n : NodeId)
  | addPeer (n : NodeId) (peer : RaftPeer NodeId)
  | removePeer (n peer : NodeId)
  | propose (i : ℕ) (ok : Bool)
  | restart (n : NodeId) (okRestore : Bool) (ios : List ApplyIO)
deriving Repr

/-- The cluster. -/
structure Cluster (NodeId Cmd : Type) where
  nodes : NodeId → Node NodeId Cmd
  net : List (Msg NodeId Cmd)
  now : ℕ

/-- How nodes are configured, and the members each one starts with. The source makes
these of a node's own entry and its configured peers. A node that is to join starts
with itself alone there, and waits for an answer with the members; that exchange is
not modelled, and such a node starts here with the members it would be told. -/
structure Setup (NodeId : Type) where
  config : NodeId → Config
  members : NodeId → List (RaftPeer NodeId)

/-- Every node new, nothing sent. -/
def Setup.init (S : Setup NodeId) : Cluster NodeId Cmd where
  nodes id := newNode id (S.config id) (S.members id)
  net := []
  now := 0

/-- One node changed and messages were sent. -/
def Cluster.update (s : Cluster NodeId Cmd) (id : NodeId) (n : Node NodeId Cmd)
    (msgs : List (Msg NodeId Cmd)) : Cluster NodeId Cmd where
  nodes := Function.update s.nodes id n
  net := s.net ++ msgs
  now := s.now + 1

/-- The requests a node sends on entering a campaign. -/
def campaignMsgs (n : Node NodeId Cmd) : List (Msg NodeId Cmd) :=
  match n.loop with
  | .preVote c => c.peers.map fun p => .preVote p ⟨c.term, n.nodeID, c.lastLogIndex, c.lastLogTerm⟩
  | .vote c =>
    c.peers.map fun p => .vote p ⟨c.term, n.nodeID, c.lastLogIndex, c.lastLogTerm, c.term⟩
  | _ => []

/-- The answer of an install, if it has come to one. -/
def installMsgs (id : NodeId) (c : ChunkSend NodeId) :
    Option InstallSnapshotResponse → List (Msg NodeId Cmd)
  | none => []
  | some resp => [.chunkAnswer id c resp]

/-- The campaign of the round a node is in. -/
def Node.answered (n : Node NodeId Cmd) (peer : NodeId) (term : ℕ) (preVote : Bool)
    (resp : VoteResponse) : Node NodeId Cmd :=
  match n.loop with
  | .preVote c =>
    if preVote ∧ c.term = term then { n with loop := .preVote (c.countAnswer peer resp) } else n
  | .vote c =>
    if !preVote ∧ c.term = term then { n with loop := .vote (c.countAnswer peer resp) } else n
  | _ => n

/-- The process a node is restarted as: what is not on disk is gone. What was
observed of it is kept, for the record. -/
def Setup.fresh (S : Setup NodeId) (n : Node NodeId Cmd) : Node NodeId Cmd :=
  { newNode n.nodeID (S.config n.nodeID) (S.members n.nodeID) with
    journal := n.journal, trace := n.trace, resolved := n.resolved }

/-- A restarted node. -/
def Setup.restarted (S : Setup NodeId) (n : Node NodeId Cmd) (okRestore : Bool)
    (ios : List ApplyIO) : Option (Node NodeId Cmd) := (S.fresh n).start okRestore ios n.disk

/-- **The effect of an event**: the node it changes, that node after it, and
what is sent. Refused events have none. -/
def effect (S : Setup NodeId) (s : Cluster NodeId Cmd) :
    Event NodeId Cmd → Option (NodeId × Node NodeId Cmd × List (Msg NodeId Cmd))
  | .tick _ => none
  | .electionTimeout id ok =>
    let n := s.nodes id
    if n.loop.isIdle ∧ n.state ≠ .leader ∧ !n.restoring then
      let m := n.startElection ok s.now
      some (id, m, campaignMsgs m)
    else none
  | .handlePreVote i =>
    match s.net[i]? with
    | some (.preVote dst req) =>
      let n := s.nodes dst
      if n.loop.isIdle then some (dst, n, [.preVoteAnswer dst req (n.handlePreVote s.now req)])
      else none
    | _ => none
  | .preVoteAnswer i ok =>
    match s.net[i]? with
    | some (.preVoteAnswer src req resp) =>
      let id := req.candidateID
      let n := (s.nodes id).answered src req.term true resp
      some (id, n.observeTerm ok s.now req.term resp.term, [])
    | _ => none
  | .finishPreVote id ok =>
    let n := s.nodes id
    match n.loop with
    | .preVote c =>
      let m := n.finishPreVote ok s.now c
      some (id, m, campaignMsgs m)
    | _ => none
  | .handleVote i okTerm okVote =>
    match s.net[i]? with
    | some (.vote dst req) =>
      let n := s.nodes dst
      if n.loop.isIdle then
        let r := n.handleRequestVote okTerm okVote s.now req
        some (dst, r.1, [.voteAnswer dst req r.2])
      else none
    | _ => none
  | .voteAnswer i ok =>
    match s.net[i]? with
    | some (.voteAnswer src req resp) =>
      let id := req.candidateID
      let n := (s.nodes id).answered src req.term false resp
      some (id, n.observeTerm ok s.now req.term resp.term, [])
    | _ => none
  | .finishVote id ok =>
    let n := s.nodes id
    match n.loop with
    | .vote c => some (id, n.finishVote ok s.now c, [])
    | _ => none
  | .heartbeat id req ok =>
    let n := s.nodes id
    if n.loop.isIdle then some (id, n.handleHeartbeat ok s.now req, []) else none
  | .buildAppend id peer leaderCommit =>
    let n := s.nodes id
    -- the caller read `leaderCommit` under an earlier lock
    if n.state = .leader ∧ leaderCommit ≤ n.commitIndex then
      match n.peers.find? (fun p => p.id = peer) with
      | none => none
      | some p =>
        if n.needsSnapshot p then some (id, n, [.snapshotDue id peer])
        else some (id, n, [.appendBuilt id peer (n.appendRequest p leaderCommit)])
    else none
  | .sendAppend i =>
    match s.net[i]? with
    | some (.appendBuilt src dst req) => some (src, s.nodes src, [.append src dst req s.now])
    | _ => none
  | .handleAppend i io =>
    match s.net[i]? with
    | some (.append src dst req sentAt) =>
      let n := s.nodes dst
      if n.loop.isIdle then
        let r := n.handleAppendEntries io s.now req
        some (dst, r.1, [.appendAnswer dst src req r.2 sentAt])
      else none
    | _ => none
  | .markAck i =>
    match s.net[i]? with
    | some (.appendAnswer src dst req resp sentAt) =>
      if resp.term = req.term then some (dst, (s.nodes dst).markPeerAck src req.term sentAt, [])
      else none
    | _ => none
  | .appendAnswer i okTerm okCommit =>
    match s.net[i]? with
    | some (.appendAnswer src dst req resp _) =>
      some (dst, (s.nodes dst).handleAppendEntriesResponse okTerm okCommit s.now src req resp, [])
    | _ => none
  | .checkCommit id ok =>
    let n := s.nodes id
    if n.loop.isIdle then some (id, n.checkCommit ok s.now, []) else none
  | .checkQuorum id =>
    let n := s.nodes id
    if n.loop.isIdle then some (id, n.checkQuorum s.now, []) else none
  | .openSnapshot i =>
    match s.net[i]? with
    | some (.snapshotDue src dst) =>
      match (s.nodes src).disk.snapshot with
      | none => none
      | some snap => some (src, s.nodes src, [.snapshotOpened src dst snap])
    | _ => none
  | .sendSnapshot i =>
    match s.net[i]? with
    | some (.snapshotOpened src dst snap) =>
      let n := s.nodes src
      -- neither the role nor the term is checked here
      some (src, n, [.chunk dst ⟨src, ⟨snap, n.currentTerm, n.membershipBase⟩, 0, s.now⟩])
    | _ => none
  | .handleChunk i io =>
    match s.net[i]? with
    | some (.chunk dst c) =>
      let n := s.nodes dst
      if n.loop.isIdle ∧ n.applier.isIdle then
        let r := n.handleInstallSnapshot io s.now c
        some (dst, r.1, installMsgs dst c r.2)
      else none
    | _ => none
  | .recheckInstall id =>
    let n := s.nodes id
    match n.loop with
    | .publish c =>
      let r := n.recheckInstall c
      some (id, r.1, installMsgs id c r.2)
    | _ => none
  | .finishInstall id io =>
    let n := s.nodes id
    match n.loop with
    | .restore c =>
      let r := n.finishInstall io s.now c.request
      some (id, r.1, installMsgs id c (some r.2))
    | _ => none
  | .markChunkAck i =>
    match s.net[i]? with
    | some (.chunkAnswer src c resp) =>
      if resp.term = c.transfer.term then
        some (c.sender, (s.nodes c.sender).markPeerAck src c.transfer.term c.sentAt, [])
      else none
    | _ => none
  | .chunkAnswer i =>
    match s.net[i]? with
    | some (.chunkAnswer src c resp) =>
      let n := s.nodes c.sender
      if !resp.success then none
      else if c.request.done then
        some (c.sender, n.snapshotSent c.transfer.term src c.transfer.snapshot.index, [])
      else
        some (c.sender, n, [.chunk src
          { c with offset := c.offset + snapshotChunkSize, sentAt := s.now }])
    | _ => none
  -- futures are told apart by the time they were made at
  | .submit id cmd => ((s.nodes id).submit s.now cmd).map fun m => (id, m, [])
  | .handleApply id ok =>
    let n := s.nodes id
    match n.applyCh with
    | [] => none
    | f :: rest =>
      if n.applier.isIdle then some (id, Node.handleApply { n with applyCh := rest } ok f, [])
      else none
  | .startPass id =>
    let n := s.nodes id
    match n.commitCh with
    | [] => none
    | target :: rest =>
      if n.applier.isIdle ∧ !n.loop.isInstalling then
        some (id, { n with commitCh := rest, applier := .pass target 0 }, [])
      else none
  | .applierStep id io =>
    let n := s.nodes id
    if n.applier.isIdle then none else some (id, n.applierStep io, [])
  | .takeSnapshot id ok image =>
    let n := s.nodes id
    if n.applier.isIdle ∧ !n.loop.isInstalling then some (id, n.maybeTakeSnapshot ok image, [])
    else none
  | .retryApply id =>
    let n := s.nodes id
    if n.applyRetry then some (id, n.retryApply, []) else none
  | .addPeer id peer =>
    let n := s.nodes id
    (n.addPeer peer).map fun c => (id, n, [.change id c])
  | .removePeer id peer =>
    let n := s.nodes id
    (n.removePeer peer).map fun c => (id, n, [.change id c])
  | .propose i ok =>
    match s.net[i]? with
    | some (.change src c) =>
      ((s.nodes src).proposeMembershipChange ok s.now c).map fun m => (src, m, [])
    | _ => none
  | .restart id okRestore ios =>
    (S.restarted (s.nodes id) okRestore ios).map fun m => (id, m, [])

/-- **One step of the cluster.** -/
def step (S : Setup NodeId) (s : Cluster NodeId Cmd) (e : Event NodeId Cmd) :
    Option (Cluster NodeId Cmd) :=
  match e with
  | .tick d => some { s with now := s.now + d + 1 }
  | e => (effect S s e).map fun r => s.update r.1 r.2.1 r.2.2

/-- Reachable by events that satisfy `allowed`. -/
def Reachable (S : Setup NodeId) (allowed : Event NodeId Cmd → Prop) (s : Cluster NodeId Cmd) :
    Prop := Runs.Reachable (step S) allowed S.init s

/-!
## Background senders

`sendHeartbeats` starts at most one background call a peer: a peer whose call
has not returned is skipped (`replicationInFlight`). A call sends one
AppendEntries request and handles its answer, or runs `sendSnapshot`, chunk by
chunk. `Flight` is such a call, with the message it goes on from; the events of
a sender are refused where no call is there to take them.

The map of `replicationInFlight` is keyed by the peer's record. A peer that is
dropped and comes back has a new record, and a call to the old one no longer
keeps others from starting (`listed`).
-/

/-- Where a background call is. The number is the place in `net` of the message it
goes on from. -/
inductive Stage where
  /-- The request was built and has to be sent. -/
  | built (i : ℕ)
  | sent (i : ℕ)
  /-- `sendSnapshot` was called. -/
  | due (i : ℕ)
  /-- It has read the snapshot. -/
  | opened (i : ℕ)
  | chunk (i : ℕ)
deriving DecidableEq, Repr

/-- A call is in `sendSnapshot`. -/
def Stage.transfers : Stage → Bool
  | .built _ => false
  | .sent _ => false
  | _ => true

/-- A background call of `src` towards `dst`. -/
structure Flight (NodeId : Type) where
  src : NodeId
  dst : NodeId
  stage : Stage
  listed : Bool := true
deriving DecidableEq, Repr

/-- The cluster and the calls under way. -/
structure Sending (NodeId Cmd : Type) where
  cluster : Cluster NodeId Cmd
  flights : List (Flight NodeId)

/-- Nothing sent, nothing under way. -/
def Setup.sending (S : Setup NodeId) : Sending NodeId Cmd := ⟨S.init, []⟩

/-- What happens next. A call also ends when the transport fails, when there is no
snapshot and when a chunk is refused. -/
inductive SendEvent (NodeId Cmd : Type) where
  | event (e : Event NodeId Cmd)
  | giveUp (k : ℕ)
deriving Repr

/-- Events of a call that is under way. -/
def Event.ofSender : Event NodeId Cmd → Bool
  | .sendAppend _ => true
  | .markAck _ => true
  | .appendAnswer _ _ _ => true
  | .openSnapshot _ => true
  | .sendSnapshot _ => true
  | .markChunkAck _ => true
  | .chunkAnswer _ => true
  | _ => false

/-- The message at place `i` answers the request at place `j`. Requests are told
apart by the time they were sent at. -/
def answers (net : List (Msg NodeId Cmd)) (i j : ℕ) : Bool :=
  match net[i]?, net[j]? with
  | some (.appendAnswer src dst _ _ sentAt), some (.append src' dst' _ sentAt') =>
    decide (src = dst' ∧ dst = src' ∧ sentAt = sentAt')
  | some (.chunkAnswer src c _), some (.chunk dst c') => decide (src = dst ∧ c = c')
  | _, _ => false

/-- The message at place `i` is the answer to the last chunk of a transfer. -/
def endsTransfer (net : List (Msg NodeId Cmd)) (i : ℕ) : Bool :=
  match net[i]? with
  | some (.chunkAnswer _ c _) => c.request.done
  | _ => false

/-- **What becomes of a call at an event of a sender**: it is not the one the event
belongs to, it ends, or it goes on from what is sent next. -/
def Flight.next (net : List (Msg NodeId Cmd)) (f : Flight NodeId) :
    Event NodeId Cmd → Option (Option Stage)
  | .sendAppend i => if f.stage = .built i then some (some (.sent net.length)) else none
  | .markAck i =>
    match f.stage with
    | .sent j => if answers net i j then some (some (.sent j)) else none
    | _ => none
  | .appendAnswer i _ _ =>
    match f.stage with
    | .sent j => if answers net i j then some none else none
    | _ => none
  | .openSnapshot i => if f.stage = .due i then some (some (.opened net.length)) else none
  | .sendSnapshot i => if f.stage = .opened i then some (some (.chunk net.length)) else none
  | .markChunkAck i =>
    match f.stage with
    | .chunk j => if answers net i j then some (some (.chunk j)) else none
    | _ => none
  | .chunkAnswer i =>
    match f.stage with
    | .chunk j =>
      if answers net i j then some (if endsTransfer net i then none else some (.chunk net.length))
        else none
    | _ => none
  | _ => none

/-- The calls after an event of a sender: the first one it belongs to takes it. -/
def advanceFlight (net : List (Msg NodeId Cmd)) (e : Event NodeId Cmd) :
    List (Flight NodeId) → Option (List (Flight NodeId))
  | [] => none
  | f :: rest =>
    match f.next net e with
    | some none => some rest
    | some (some stage) => some ({ f with stage := stage } :: rest)
    | none => (advanceFlight net e rest).map (f :: ·)

/-- The call `sendHeartbeats` starts with the message it posted. -/
def startFlight (id peer : NodeId) (place : ℕ) (s : Cluster NodeId Cmd) : Flight NodeId where
  src := id
  dst := peer
  stage :=
    match s.net[place]? with
    | some (.snapshotDue _ _) => .due place
    | _ => .built place

/-- The calls once the peers of the nodes may have changed. -/
def relist (s : Cluster NodeId Cmd) (flights : List (Flight NodeId)) : List (Flight NodeId) :=
  flights.map fun f => { f with
    listed := f.listed && decide (f.dst ∈ (s.nodes f.src).peers.map (·.id)) }

/-- The calls after an event that led to `s'`. -/
def flightsAfter (s : Sending NodeId Cmd) (s' : Cluster NodeId Cmd) (e : Event NodeId Cmd) :
    Option (List (Flight NodeId)) :=
  match e with
  | .buildAppend id peer _ =>
    if s.flights.any fun f => f.src = id && f.dst = peer && f.listed then none
    else some (s.flights ++ [startFlight id peer s.cluster.net.length s'])
  | .restart id _ _ => some (s.flights.filter fun f => f.src ≠ id)
  | e => if e.ofSender then advanceFlight s.cluster.net e s.flights else some s.flights

/-- **One step.** -/
def Sending.step (S : Setup NodeId) (s : Sending NodeId Cmd) : SendEvent NodeId Cmd →
    Option (Sending NodeId Cmd)
  | .event e =>
    match Raft.step S s.cluster e with
    | none => none
    | some s' => (flightsAfter s s' e).map fun flights => ⟨s', relist s' flights⟩
  | .giveUp k => some { s with flights := s.flights.eraseIdx k }

end Anubis.Raft
