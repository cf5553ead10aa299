import Anubis.Raft.Model.Node
import Mathlib.Data.List.Sort
import Mathlib.Logic.Function.Basic

/-!
# Membership

`membership.go`: a configuration is a list of members sorted by ID, and the
one in effect is the committed base with every membership entry of the log
folded over it. Quorums count its voters.
-/

namespace Anubis.Raft

open Function

variable {NodeId Cmd : Type} [LinearOrder NodeId]

/-- `normalizeMembers`: the first entry of each ID, sorted by ID. (The IDs
listed twice, which the source also returns, are only logged.) -/
def normalizeMembers (members : List (RaftPeer NodeId)) : List (RaftPeer NodeId) :=
  (members.foldl (fun out m => if m.id ∈ out.map (·.id) then out else out ++ [m]) []).insertionSort
    (fun a b => a.id ≤ b.id)

/-- Drops the member with the ID. -/
def removeMember (members : List (RaftPeer NodeId)) (id : NodeId) : List (RaftPeer NodeId) :=
  members.eraseP (fun m => m.id = id)

/-- `foldMembership`. -/
def foldMembership (cur : List (RaftPeer NodeId)) (e : MembershipEntry NodeId) :
    List (RaftPeer NodeId) :=
  if e.members ≠ [] then normalizeMembers e.members
  else
    normalizeMembers <|
      match e.change.type with
      | .addPeer => removeMember cur e.change.peer.id ++ [e.change.peer]
      | .removePeer => removeMember cur e.change.peer.id
      | .replacePeer =>
        let out := match e.change.oldPeer with
          | some old => removeMember cur old.id
          | none => cur
        removeMember out e.change.peer.id ++ [e.change.peer]

/-- One entry of the loop in `refreshMembershipLocked`. -/
def foldEntry (logBase : ℕ) (acc : List (RaftPeer NodeId) × ℕ) (entry : RaftLogEntry NodeId Cmd) :
    List (RaftPeer NodeId) × ℕ :=
  match entry.data with
  | .membershipChange e =>
    if entry.index ≤ logBase then acc else (foldMembership acc.1 e, entry.index)
  | _ => acc

/-- A peer whose vote counts. -/
def Peer.counts (p : Peer NodeId) : Bool := p.role ≠ .nonVoter && !p.leaving

namespace Node

variable (n : Node NodeId Cmd)

/-- The members a node keeps as peers: those of the latest configuration and
those of the base that are only there. -/
def memberUnion (base latest : List (RaftPeer NodeId)) : List (RaftPeer NodeId) :=
  latest.filter (fun m => m.id ≠ n.nodeID) ++
    base.filter (fun m => m.id ≠ n.nodeID ∧ m.id ∉ latest.map (·.id))

/-- The peer record of a member, with the progress an existing one has. -/
def peerFor (latest : List (RaftPeer NodeId)) (m : RaftPeer NodeId) : Peer NodeId :=
  let leaving := decide (m.id ∉ latest.map (·.id))
  match n.peers.find? (fun p => p.id = m.id) with
  | some p => { p with role := m.role, leaving := leaving }
  | none =>
    { id := m.id, role := m.role, leaving := leaving
      nextIndex := if n.state = .leader then n.lastLogIndex + 1 else 0 }

/-- A progress map after members came and went: a dropped peer's entry is
deleted, a leader's new peer starts at `fresh`. -/
def syncProgress (union : List (RaftPeer NodeId)) (fresh : ℕ) (progress : NodeId → ℕ) :
    NodeId → ℕ := fun id =>
  if id ∈ union.map (·.id) then
    if n.state = .leader ∧ id ∉ n.peers.map (·.id) then fresh else progress id
  else if id ∈ n.peers.map (·.id) then 0
  else progress id

/-- `syncPeersLocked`. -/
def syncPeers (base latest : List (RaftPeer NodeId)) : Node NodeId Cmd :=
  let union := n.memberUnion base latest
  { n with
    selfNonVoter := !latest.any (fun m => m.id = n.nodeID ∧ m.role ≠ .nonVoter)
    peers := union.map (n.peerFor latest)
    nextIndex := n.syncProgress union (n.lastLogIndex + 1) n.nextIndex
    matchIndex := n.syncProgress union 0 n.matchIndex }

/-- `refreshMembershipLocked`. -/
def refreshMembership : Node NodeId Cmd :=
  let latest := n.log.foldl (foldEntry n.logBase) (n.membershipBase, 0)
  syncPeers { n with membershipLatest := latest.1, membershipLatestIndex := latest.2 }
    n.membershipBase latest.1

/-- `logHasMembershipLocked`. -/
def logHasMembership : Bool :=
  n.log.any fun entry => n.logBase < entry.index && entry.data matches .membershipChange _

/-- `setMembershipBaseLocked`. -/
def setMembershipBase (base : List (RaftPeer NodeId)) : Node NodeId Cmd :=
  refreshMembership { n with membershipBase := base }

/-- `countVoters`: how many voters satisfy `ok`, and how many there are. -/
def countVoters (selfOK : Bool) (ok : Peer NodeId → Bool) : ℕ × ℕ :=
  let self := if n.selfNonVoter then 0 else 1
  let voting := n.peers.filter Peer.counts
  ((if selfOK then self else 0) + (voting.filter ok).length, self + voting.length)

/-- `votingPeers`. -/
def votingPeers : List (Peer NodeId) := n.peers.filter Peer.counts

/-! ## Changes -/

/-- `applyMembershipEntry`: the entry's configuration becomes the committed
base. The removal flag and the member list are written after the lock is
released. -/
def applyMembershipEntry (okRemoved okPeers : Bool) (e : MembershipEntry NodeId) :
    Node NodeId Cmd :=
  let m := n.setMembershipBase (foldMembership n.membershipBase e)
  let selfIn := m.membershipBase.any (fun p => p.id = n.nodeID)
  let m :=
    if !selfIn && e.change.type = .removePeer && e.change.peer.id = n.nodeID then
      { m with removed := true }.wrote (if okRemoved then [.removed true] else [])
    else if selfIn && m.removed then
      { m with removed := false }.wrote (if okRemoved then [.removed false] else [])
    else m
  m.wrote (if okPeers then [.peers m.membershipBase] else [])

/-- `AddPeer` up to the proposal: the change it proposes. -/
def addPeer (peer : RaftPeer NodeId) : Option (MembershipChange NodeId) :=
  if n.state = .leader ∧ peer.id ≠ n.nodeID ∧ peer.id ∉ n.peers.map (·.id) then
    some ⟨.addPeer, peer, none⟩
  else none

/-- `RemovePeer` up to the proposal. -/
def removePeer (peerID : NodeId) : Option (MembershipChange NodeId) :=
  if n.state = .leader ∧ peerID ≠ n.nodeID then
    (n.peers.find? (fun p => p.id = peerID)).map fun p => ⟨.removePeer, ⟨p.id, p.role⟩, none⟩
  else none

/-- `proposeMembershipChange`, from the moment the leader's no-op is known to
be committed until the entry is in the log. `none` when it is refused. -/
def proposeMembershipChange (ok : Bool) (future : ℕ) (change : MembershipChange NodeId) :
    Option (Node NodeId Cmd) :=
  if n.state ≠ .leader ∨ n.commitIndex < n.leaderNoopIndex ∨
      n.commitIndex < n.membershipLatestIndex then none
  else
    let members := foldMembership n.membershipLatest ⟨change, []⟩
    if members = [] then none
    else
      match n.appendEntry ok n.currentTerm (.membershipChange ⟨change, members⟩) with
      | none => none
      | some m =>
        some (m.storeWaiter ⟨future, none, m.lastLogIndex, m.currentTerm⟩).refreshMembership

end Node

/-!
## Elections

`startElection` gives up the lock twice, for the pre-vote and for the vote
round, so it is three functions here: up to the pre-vote requests, from
their answers to the vote requests, and from those answers on. The goroutine
that runs it is `run` itself: while a round is open the node answers no RPC.
-/

/-- A majority of the asked voters and the candidate. -/
def votesNeeded (peers : List NodeId) : ℕ := (peers.length + 1) / 2 + 1

namespace Campaign

/-- Counts one peer's answer, the first it gives. -/
def countAnswer (c : Campaign NodeId) (peer : NodeId) (resp : VoteResponse) : Campaign NodeId :=
  if peer ∈ c.peers ∧ peer ∉ c.answered then
    { c with
      answered := peer :: c.answered
      granted := if resp.voteGranted then peer :: c.granted else c.granted }
  else c

/-- The votes counted so far, the candidate's own included. -/
def votes (c : Campaign NodeId) : ℕ := c.granted.length + 1

end Campaign

namespace Node

variable (n : Node NodeId Cmd)

/-- Whether a leader other than `self` was heard from within the election timeout. -/
def hasFreshLeader (self : NodeId) (now : ℕ) : Bool :=
  n.leaderID ≠ none && n.leaderID ≠ some self &&
    decide (now - n.lastContact < n.config.electionTimeout)

/-- The real election: a new term, the own vote, the hard state written. On a
failed write term and vote stay advanced in memory. -/
def standForElection (ok : Bool) (now : ℕ) (peers : List NodeId) : Node NodeId Cmd :=
  let m := { n with
    state := .candidate, currentTerm := n.currentTerm + 1, votedFor := some n.nodeID }
  match m.persistHardState ok with
  | none => { m with state := .follower, loop := .idle }
  | some m =>
    let c : Campaign NodeId :=
      ⟨m.currentTerm, m.lastLogIndex, m.getLogTerm m.lastLogIndex, peers, [], []⟩
    { m with leaderID := none, lastContact := now, loop := .vote c }.observe
      (.voted m.currentTerm n.nodeID)

/-- `startElection`, up to the pre-vote requests. Without other voters the
node goes straight to the election. -/
def startElection (ok : Bool) (now : ℕ) : Node NodeId Cmd :=
  if n.removed || n.awaitingJoin || n.restoring || n.selfNonVoter then n
  else
    let peers := n.votingPeers.map (·.id)
    if peers = [] then n.standForElection ok now []
    else if n.hasFreshLeader n.nodeID now then n
    else
      { n with
        state := .candidate
        loop := .preVote ⟨n.currentTerm + 1, n.lastLogIndex, n.getLogTerm n.lastLogIndex,
          peers, [], []⟩ }

/-- `startElection`, once the pre-vote round is over. -/
def finishPreVote (ok : Bool) (now : ℕ) (c : Campaign NodeId) : Node NodeId Cmd :=
  if n.currentTerm ≠ c.term - 1 ∨ n.state ≠ .candidate then { n with loop := .idle }
  else if c.votes < votesNeeded c.peers then { n with state := .follower, loop := .idle }
  else n.standForElection ok now c.peers

/-- The state of a new leader, with fresh replication progress. -/
def initLeader : Node NodeId Cmd :=
  let next := n.lastLogIndex + 1
  let ids := n.peers.map (·.id)
  { n with
    state := .leader
    leaderID := some n.nodeID
    nextIndex := fun id => if id ∈ ids then next else n.nextIndex id
    matchIndex := fun id => if id ∈ ids then 0 else n.matchIndex id
    peers := n.peers.map (fun p => { p with nextIndex := next })
    trace := n.trace ++ [.becameLeader n.currentTerm] }

/-- `becomeLeader`. The leader's first entry must reach the log store, or the
node is a follower again. -/
def becomeLeader (ok : Bool) (now expectedTerm : ℕ) : Node NodeId Cmd :=
  if n.currentTerm ≠ expectedTerm ∨ n.state ≠ .candidate then n
  else
    match n.initLeader.appendEntry ok n.currentTerm .noOp with
    | none => { n.initLeader with state := .follower, leaderID := none }
    | some m => { m with leaderNoopIndex := m.lastLogIndex, leaderSince := now }

/-- `startElection`, once the vote round is over. -/
def finishVote (ok : Bool) (now : ℕ) (c : Campaign NodeId) : Node NodeId Cmd :=
  if votesNeeded c.peers ≤ c.votes then becomeLeader { n with loop := .idle } ok now c.term
  else if n.currentTerm = c.term ∧ n.state = .candidate then
    { n with state := .follower, loop := .idle }
  else { n with loop := .idle }

/-- What a vote or pre-vote sender does about a higher term in the answer,
however late it comes. -/
def observeTerm (ok : Bool) (now reqTerm respTerm : ℕ) : Node NodeId Cmd :=
  if reqTerm < respTerm ∧ n.currentTerm < respTerm then
    (n.becomeFollower ok now respTerm).getD n
  else n

/-- `handlePreVote`, which changes nothing. -/
def handlePreVote (now : ℕ) (req : PreVoteRequest NodeId) : VoteResponse :=
  if req.term < n.currentTerm then ⟨n.currentTerm, false, "term too old"⟩
  else if n.state = .leader ∨ n.hasFreshLeader req.candidateID now then
    ⟨n.currentTerm, false, "have live leader"⟩
  else if !n.isLogMoreUpToDate req.lastLogTerm req.lastLogIndex then
    ⟨n.currentTerm, false, "log not current"⟩
  else ⟨n.currentTerm, true, ""⟩

/-- The vote itself, in the request's term. -/
def castVote (ok : Bool) (now : ℕ) (req : RequestVoteRequest NodeId) :
    Node NodeId Cmd × VoteResponse :=
  let canVote := n.votedFor = none || n.votedFor = some req.candidateID
  let logIsCurrent := n.isLogMoreUpToDate req.lastLogTerm req.lastLogIndex
  if canVote && logIsCurrent then
    match persistHardState { n with votedFor := some req.candidateID } ok with
    | none => (n, ⟨n.currentTerm, false, "failed to persist vote"⟩)
    | some m =>
      ({ m with lastContact := now }.observe (.voted n.currentTerm req.candidateID),
        ⟨n.currentTerm, true, ""⟩)
  else (n, ⟨n.currentTerm, false, if logIsCurrent then "already voted" else "log not current"⟩)

/-- `handleRequestVote`. -/
def handleRequestVote (okTerm okVote : Bool) (now : ℕ) (req : RequestVoteRequest NodeId) :
    Node NodeId Cmd × VoteResponse :=
  if req.term < n.currentTerm then (n, ⟨n.currentTerm, false, "term too old"⟩)
  else if n.currentTerm < req.term then
    match n.becomeFollower okTerm now req.term with
    | none => (n, ⟨n.currentTerm, false, "failed to persist term"⟩)
    | some m => m.castVote okVote now req
  else n.castVote okVote now req

/-- `handleHeartbeat` (its answer is read by nobody). -/
def handleHeartbeat (ok : Bool) (now : ℕ) (req : HeartbeatRequest NodeId) : Node NodeId Cmd :=
  let hear (m : Node NodeId Cmd) : Node NodeId Cmd :=
    let m := { m with lastContact := now, leaderID := some req.leaderID }
    let m := if m.state = .leader then { m.stepDown now with leaderID := some req.leaderID } else m
    { m with state := .follower }
  if req.term < n.currentTerm then n
  else if n.currentTerm < req.term then
    match n.becomeFollower ok now req.term with
    | none => n
    | some m => hear m
  else hear n

end Node

end Anubis.Raft
