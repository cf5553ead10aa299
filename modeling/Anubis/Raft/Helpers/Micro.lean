import Anubis.Raft.Helpers.Handlers

/-!
# Small changes

Every event is a sequence of small changes of one node (`Micro`). A small
change is one record update with the conditions it is made under and the
messages it sends. `Helpers/Paths.lean` takes the handlers apart into such
sequences (`Path`); invariants are then proved for one small change at a
time.
-/

namespace Anubis.Raft

open Function Node

variable {NodeId Cmd : Type} [LinearOrder NodeId]

/-- The kinds of small changes a run can do without. -/
inductive Label where
  | plain
  /-- A client hands in a command. -/
  | submit
  /-- A node accepts a leader's request. -/
  | append
  /-- A membership change enters a log. -/
  | change
  /-- A node takes a snapshot of its own. -/
  | snapshot
  /-- A node receives a snapshot. -/
  | receive
  /-- A node installs a received snapshot. -/
  | install
  /-- A leader takes note of a peer's progress. -/
  | cursor
  | restart
deriving DecidableEq, Repr

/-- The label an event can add to plain ones. -/
def Event.label : Event NodeId Cmd → Label
  | .submit .. => .submit
  | .handleAppend .. => .append
  | .propose .. => .change
  | .takeSnapshot .. => .snapshot
  | .handleChunk .. => .receive
  | .recheckInstall .. => .receive
  | .finishInstall .. => .install
  | .appendAnswer .. => .cursor
  | .chunkAnswer .. => .cursor
  | .restart .. => .restart
  | _ => .plain

/-- Messages a node may send as it is, without any change. -/
inductive Sends (net : List (Msg NodeId Cmd)) (now : ℕ) (v : NodeId) (n : Node NodeId Cmd) :
    Msg NodeId Cmd → Prop
  | preVoteAnswer {req resp} : Sends net now v n (.preVoteAnswer v req resp)
  | voteRefused {req resp} (hno : resp.voteGranted = false) :
      Sends net now v n (.voteAnswer v req resp)
  | appendBuilt {p leaderCommit} (hstate : n.state = .leader)
      (hcommit : leaderCommit ≤ n.commitIndex)
      (hp : p ∈ n.peers) (hneeds : n.needsSnapshot p = false) :
      Sends net now v n (.appendBuilt v p.id (n.appendRequest p leaderCommit))
  | append {dst req} (hmsg : .appendBuilt v dst req ∈ net) :
      Sends net now v n (.append v dst req now)
  | appendRefused {src req resp sentAt} (hmsg : .append src v req sentAt ∈ net)
      (hno : resp.success = false) (hterm : resp.term = n.currentTerm) :
      Sends net now v n (.appendAnswer v src req resp sentAt)
  | snapshotDue {dst} : Sends net now v n (.snapshotDue v dst)
  | snapshotOpened {dst snap} (hdisk : n.disk.snapshot = some snap) :
      Sends net now v n (.snapshotOpened v dst snap)
  | chunk {dst snap} (hmsg : .snapshotOpened v dst snap ∈ net) :
      Sends net now v n (.chunk dst ⟨v, ⟨snap, n.currentTerm, n.membershipBase⟩, 0, now⟩)
  | nextChunk {dst c resp} (hmsg : .chunkAnswer dst c resp ∈ net) (hv : c.sender = v) :
      Sends net now v n (.chunk dst
        { c with offset := c.offset + snapshotChunkSize, sentAt := now })
  | chunkAnswer {c resp}
      (hchunk : .chunk v c ∈ net ∨ n.loop = .publish c ∨ n.loop = .restore c)
      (hterm : resp.term = n.currentTerm)
      (hok : resp.success = true → c.request.done = true →
        c.transfer.snapshot.index ≤ n.commitIndex ∨ c.transfer.snapshot.index ≤ n.lastApplied) :
      Sends net now v n (.chunkAnswer v c resp)
  | change {c} (htype : c.type ≠ .replacePeer) : Sends net now v n (.change v c)

/-- An acknowledgement that counts for check-quorum: an answer in the term of
the request, with the time the request was sent at. -/
inductive Acked (net : List (Msg NodeId Cmd)) (v src : NodeId) : ℕ → ℕ → Prop
  | append {req resp sentAt} (hmsg : .appendAnswer src v req resp sentAt ∈ net)
      (hterm : resp.term = req.term) : Acked net v src req.term sentAt
  | chunk {c resp} (hmsg : .chunkAnswer src c resp ∈ net) (hv : c.sender = v)
      (hterm : resp.term = c.transfer.term) : Acked net v src c.transfer.term c.sentAt

/-- A leader with a new commit index. -/
abbrev Node.committing (n : Node NodeId Cmd) (index now : ℕ) : Node NodeId Cmd :=
  { n with
    commitIndex := index
    journal := n.journal ++ [.hardState ⟨n.currentTerm, n.votedFor, index, n.lastApplied,
      n.logBase, n.logBaseTerm⟩]
    commitCh := (if n.commitCh.length < 16 then n.commitCh else n.commitCh.tail) ++ [index]
    trace := n.trace ++ [.committed n.currentTerm index now] }

/-- A node with the snapshot whose last chunk it has. -/
abbrev Node.installing (n : Node NodeId Cmd) (c : ChunkSend NodeId)
    (base : List (RaftPeer NodeId)) (now : ℕ) : Node NodeId Cmd :=
  { refreshMembership
    { n with
      restoring := false, incomingSnapshot := none, loop := .idle
      log := baseMarker c.transfer.snapshot.index c.transfer.snapshot.term ::
        n.log.filter (fun e => c.transfer.snapshot.index < e.index)
      logBase := c.transfer.snapshot.index
      logBaseTerm := c.transfer.snapshot.term
      membershipBase := base } with
    commitIndex := max n.commitIndex c.transfer.snapshot.index
    lastApplied := max n.lastApplied c.transfer.snapshot.index
    lastSnapshotIndex := c.transfer.snapshot.index
    lastContact := now }

/-- **A small change**: node `n`, at `v`, becomes another and sends
messages. -/
inductive Micro (S : Setup NodeId) (net : List (Msg NodeId Cmd)) (now : ℕ) (v : NodeId)
    (n : Node NodeId Cmd) : Label → Node NodeId Cmd → List (Msg NodeId Cmd) → Prop
  -- bookkeeping
  | keep (contact leader retry dirty removed snapshotIndex) :
      Micro S net now v n .plain
        { n with
          lastContact := contact, leaderID := leader, applyRetry := retry
          appliedDirty := dirty, removed := removed, lastSnapshotIndex := snapshotIndex } []
  | markAck {src term sentAt} (hack : Acked net v src term sentAt) :
      Micro S net now v n .plain (n.markPeerAck src term sentAt) []
  | persist : Micro S net now v n .plain (n.wrote [.hardState n.hardState]) []
  | write {ws} (hminor : ∀ w ∈ ws, w.Minor n.membershipBase n.logBase)
      (hsaved : ∀ i, .deleteLog i ∈ ws → n.disk.hardState = some n.hardState) :
      Micro S net now v n .plain (n.wrote ws) []
  | send {m} (hsend : Sends net now v n m) : Micro S net now v n .plain n [m]
  -- terms, votes and roles
  | newTerm {term} (contact leader) (hterm : n.currentTerm < term) :
      Micro S net now v n .plain
        { n with
          currentTerm := term, votedFor := none, state := .follower
          lastContact := contact, leaderID := leader
          journal := n.journal ++
            [.hardState ⟨term, none, n.commitIndex, n.lastApplied, n.logBase, n.logBaseTerm⟩] } []
  | stepDown : Micro S net now v n .plain { n with state := .follower } []
  | preVote (hidle : n.loop = .idle) (hstate : n.state ≠ .leader) (hself : n.selfNonVoter = false) :
      Micro S net now v n .plain
        { n with
          state := .candidate
          loop := .preVote ⟨n.currentTerm + 1, n.lastLogIndex, n.getLogTerm n.lastLogIndex,
            n.votingPeers.map (·.id), [], []⟩ }
        ((n.votingPeers.map (·.id)).map fun p =>
          .preVote p ⟨n.currentTerm + 1, n.nodeID, n.lastLogIndex, n.getLogTerm n.lastLogIndex⟩)
  | countPreVote {c src resp} (hloop : n.loop = .preVote c) :
      Micro S net now v n .plain { n with loop := .preVote (c.countAnswer src resp) } []
  | countVote {c src req resp} (hloop : n.loop = .vote c) (hmsg : .voteAnswer src req resp ∈ net)
      (hid : req.candidateID = v) (hterm : c.term = req.term) :
      Micro S net now v n .plain { n with loop := .vote (c.countAnswer src resp) } []
  | idle (hloop : n.loop.isInstalling = false) :
      Micro S net now v n .plain { n with loop := .idle } []
  | standFailed {c} (hloop : n.loop = .preVote c) :
      Micro S net now v n .plain
        { n with
          state := .follower, currentTerm := n.currentTerm + 1, votedFor := some n.nodeID
          loop := .idle } []
  | stand {c} (contact) (hloop : n.loop = .preVote c) (hstate : n.state = .candidate) :
      Micro S net now v n .plain
        { n with
          state := .candidate, currentTerm := n.currentTerm + 1, votedFor := some n.nodeID
          journal := n.journal ++ [.hardState ⟨n.currentTerm + 1, some n.nodeID, n.commitIndex,
            n.lastApplied, n.logBase, n.logBaseTerm⟩]
          leaderID := none, lastContact := contact
          loop := .vote ⟨n.currentTerm + 1, n.lastLogIndex, n.getLogTerm n.lastLogIndex,
            c.peers, [], []⟩
          trace := n.trace ++ [.voted (n.currentTerm + 1) n.nodeID] }
        (c.peers.map fun p => .vote p ⟨n.currentTerm + 1, n.nodeID, n.lastLogIndex,
          n.getLogTerm n.lastLogIndex, n.currentTerm + 1⟩)
  | castVote {req} (contact) (hmsg : .vote v req ∈ net) (hidle : n.loop = .idle)
      (hterm : n.currentTerm = req.term)
      (hfree : n.votedFor = none ∨ n.votedFor = some req.candidateID)
      (hlog : n.isLogMoreUpToDate req.lastLogTerm req.lastLogIndex = true) :
      Micro S net now v n .plain
        { n with
          votedFor := some req.candidateID
          journal := n.journal ++ [.hardState ⟨n.currentTerm, some req.candidateID, n.commitIndex,
            n.lastApplied, n.logBase, n.logBaseTerm⟩]
          lastContact := contact
          trace := n.trace ++ [.voted n.currentTerm req.candidateID] }
        [.voteAnswer v req ⟨n.currentTerm, true, ""⟩]
  | leadFailed {c} (hloop : n.loop = .vote c) (hterm : n.currentTerm = c.term)
      (hstate : n.state = .candidate) (hvotes : votesNeeded c.peers ≤ c.votes) :
      Micro S net now v n .plain
        { n.initLeader with state := .follower, leaderID := none, loop := .idle } []
  | lead {c} (hloop : n.loop = .vote c) (hterm : n.currentTerm = c.term)
      (hstate : n.state = .candidate) (hvotes : votesNeeded c.peers ≤ c.votes) :
      Micro S net now v n .plain
        { n.initLeader with
          loop := .idle
          log := n.log ++ [⟨n.lastLogIndex + 1, n.currentTerm, .noOp⟩]
          journal := n.journal ++ [.putLog ⟨n.lastLogIndex + 1, n.currentTerm, .noOp⟩]
          leaderNoopIndex := n.lastLogIndex + 1, leaderSince := now } []
  -- replication
  | accept {src req sentAt io} (hmsg : .append src v req sentAt ∈ net) (hidle : n.loop = .idle)
      (hterm : n.currentTerm = req.term) :
      Micro S net now v n .append (n.acceptAppend io now req).1
        [.appendAnswer v src req (n.acceptAppend io now req).2 sentAt]
  | backUp {peer next} (hnext : n.matchIndex peer < next) :
      Micro S net now v n .cursor (n.setNextIndex peer next) []
  | matchAppend {peer req resp sentAt next} (hmsg : .appendAnswer peer v req resp sentAt ∈ net)
      (hstate : n.state = .leader) (hterm : req.term = n.currentTerm) (hok : resp.success = true)
      (hnew : n.matchIndex peer < req.prevLogIndex + req.entries.length)
      (hnext : req.prevLogIndex + req.entries.length < next) :
      Micro S net now v n .cursor
        (setNextIndex
          { n with matchIndex := update n.matchIndex peer (req.prevLogIndex + req.entries.length) }
          peer next) []
  | matchSnapshot {peer c resp} (hmsg : .chunkAnswer peer c resp ∈ net) (hv : c.sender = v)
      (hok : resp.success = true) (hdone : c.request.done = true) (hstate : n.state = .leader)
      (hterm : c.transfer.term = n.currentTerm) :
      Micro S net now v n .cursor
        (setNextIndex { n with matchIndex := update n.matchIndex peer c.transfer.snapshot.index }
          peer (c.transfer.snapshot.index + 1)) []
  | commit {index} (hstate : n.state = .leader)
      (hcand : n.commitCandidate n.lastLogIndex = some index) :
      Micro S net now v n .plain (n.committing index now) []
  -- snapshots
  | incoming (install : Option SnapshotInstall) (hidle : n.loop = .idle) :
      Micro S net now v n .receive { n with incomingSnapshot := install } []
  | publish {c data} (hmsg : .chunk v c ∈ net) (hterm : c.transfer.term = n.currentTerm)
      (hidle : n.loop = .idle) (happlier : n.applier = .idle)
      (hnew : n.commitIndex < c.transfer.snapshot.index) :
      Micro S net now v n .receive
        { n with
          loop := .publish c
          journal := n.journal ++
            [.snapshot ⟨c.transfer.snapshot.index, c.transfer.snapshot.term, data⟩] } []
  | recheck {c} (hloop : n.loop = .publish c) (hterm : c.transfer.term = n.currentTerm)
      (hcommit : n.commitIndex < c.transfer.snapshot.index)
      (happlied : n.lastApplied < c.transfer.snapshot.index) :
      Micro S net now v n .receive { n with restoring := true, loop := .restore c } []
  | abandon {l} (restoring) (hl : l = .receive ∨ l = .install)
      (hloop : n.loop.isInstalling = true) :
      Micro S net now v n l
        { n with restoring := restoring, incomingSnapshot := none, loop := .idle } []
  | install {c base resp} (hloop : n.loop = .restore c)
      (hbase : base = n.membershipBase ∨
        c.request.configuration ≠ [] ∧ base = normalizeMembers c.request.configuration)
      (hterm : resp.term = n.currentTerm) :
      Micro S net now v n .install (n.installing c base now) [.chunkAnswer v c resp]
  | takeSnapshot (image) (happlier : n.applier = .idle) (hloop : n.loop.isInstalling = false)
      (hnew : max n.logBase n.lastSnapshotIndex < n.lastApplied) :
      Micro S net now v n .snapshot
        { n with
          journal := n.journal ++ [.snapshot ⟨n.lastApplied, n.getLogTerm n.lastApplied, image⟩]
          applier := .compacting n.lastApplied } []
  | compact {index pos} (happlier : n.applier = .compacting index)
      (hbase : n.logBase < n.compactionBase index) (hlast : index ≤ n.lastLogIndex)
      (hpos : n.logPosition (n.compactionBase index) = some pos) :
      Micro S net now v n .plain
        { n with
          lastSnapshotIndex := index, applier := .idle
          log := baseMarker (n.compactionBase index) (n.getLogTerm (n.compactionBase index)) ::
            n.log.drop (pos + 1)
          logBase := n.compactionBase index
          logBaseTerm := n.getLogTerm (n.compactionBase index) } []
  -- applying
  | notifyCommit : Micro S net now v n .plain (n.notifyCommit n.commitIndex) []
  | startPass {target rest} (hch : n.commitCh = target :: rest) (happlier : n.applier = .idle)
      (hloop : n.loop.isInstalling = false) :
      Micro S net now v n .plain { n with commitCh := rest, applier := .pass target 0 } []
  | endPass : Micro S net now v n .plain { n with applier := .idle } []
  | fetch {target unpersisted entry} (happlier : n.applier = .pass target unpersisted)
      (hlt : n.lastApplied < target) (hentry : n.logEntry (n.lastApplied + 1) = some entry) :
      Micro S net now v n .plain { n with applier := .fetched target unpersisted entry } []
  | hand {target unpersisted entry result}
      (happlier : n.applier = .fetched target unpersisted entry)
      (hdata : ∀ e, entry.data ≠ .membershipChange e) :
      Micro S net now v n .plain
        { n with
          trace := n.trace ++ [.handed entry result]
          applier := .ran target unpersisted entry result } []
  | applyChange {target unpersisted entry e ws} (removed)
      (happlier : n.applier = .fetched target unpersisted entry)
      (hdata : entry.data = .membershipChange e)
      (hminor : ∀ w ∈ ws, w.Minor (foldMembership n.membershipBase e) 0) :
      Micro S net now v n .plain
        { n.setMembershipBase (foldMembership n.membershipBase e) with
          removed := removed
          journal := n.journal ++ ws
          trace := n.trace ++ [.changed entry]
          applier := .ran target unpersisted entry .ok } []
  | advance {target unpersisted entry} (happlier : n.applier = .ran target unpersisted entry .ok) :
      Micro S net now v n .plain
        { n with lastApplied := n.lastApplied + 1, applier := .applied target unpersisted entry } []
  | skip {target unpersisted entry}
      (happlier : n.applier = .ran target unpersisted entry .permanent) :
      Micro S net now v n .plain
        { n with
          lastApplied := n.lastApplied + 1
          journal := n.journal ++ [.hardState ⟨n.currentTerm, n.votedFor, n.commitIndex,
            n.lastApplied + 1, n.logBase, n.logBaseTerm⟩]
          applier := .skipped target unpersisted entry } []
  | failed {target unpersisted entry}
      (happlier : n.applier = .ran target unpersisted entry .retryable) :
      Micro S net now v n .plain { n with applier := .failed entry } []
  | notifyApplied {target unpersisted entry} (count)
      (happlier : n.applier = .applied target unpersisted entry) :
      Micro S net now v n .plain
        { n with
          applyWaiters := (n.notifyApply entry.index entry.term none).applyWaiters
          resolved := (n.notifyApply entry.index entry.term none).resolved
          applier := .pass target count } []
  | notifySkipped {target unpersisted entry}
      (happlier : n.applier = .skipped target unpersisted entry) :
      Micro S net now v n .plain
        { n with
          applyWaiters := (n.notifyApply entry.index entry.term (some (.apply false))).applyWaiters
          resolved := (n.notifyApply entry.index entry.term (some (.apply false))).resolved
          applier := .pass target unpersisted } []
  | notifyFailed {entry} (happlier : n.applier = .failed entry) :
      Micro S net now v n .plain
        { n with
          applyWaiters := (n.notifyApply entry.index entry.term (some (.apply true))).applyWaiters
          resolved := (n.notifyApply entry.index entry.term (some (.apply true))).resolved
          applier := .idle } []
  -- proposals
  | fail (reason) : Micro S net now v n .plain (n.failPendingFutures 0 reason) []
  | submit (cmd) (hstate : n.state = .leader) :
      Micro S net now v n .submit { n with applyCh := n.applyCh ++ [⟨now, some cmd, 0, 0⟩] } []
  | refuse {f rest} (err) (hch : n.applyCh = f :: rest) :
      Micro S net now v n .plain
        { n with applyCh := rest, resolved := n.resolved ++ [(f, .error err)] } []
  | appendCommand {f rest} (hch : n.applyCh = f :: rest) (hstate : n.state = .leader) :
      Micro S net now v n .plain
        (storeWaiter
          { n with
            applyCh := rest
            log := n.log ++ [⟨n.lastLogIndex + 1, n.currentTerm,
              (f.command.map .command).getD .noOp⟩]
            journal := n.journal ++
              [.putLog ⟨n.lastLogIndex + 1, n.currentTerm, (f.command.map .command).getD .noOp⟩] }
          { f with index := n.lastLogIndex + 1, term := n.currentTerm }) []
  | propose {c} (hmsg : .change v c ∈ net) (hstate : n.state = .leader)
      (hnoop : n.leaderNoopIndex ≤ n.commitIndex) (hlast : n.membershipLatestIndex ≤ n.commitIndex)
      (hmembers : foldMembership n.membershipLatest ⟨c, []⟩ ≠ []) :
      Micro S net now v n .change
        (refreshMembership (storeWaiter (n.extended [⟨n.lastLogIndex + 1, n.currentTerm,
          .membershipChange ⟨c, foldMembership n.membershipLatest ⟨c, []⟩⟩⟩])
            ⟨now, none, n.lastLogIndex + 1, n.currentTerm⟩)) []
  -- restarting
  | restore {m} (okRestore) (hm : (S.fresh n).restore okRestore n.disk = some m) :
      Micro S net now v n .restart m []
  | replay (happlier : n.applier = .idle) (hloop : n.loop = .idle) :
      Micro S net now v n .restart { n with applier := .pass n.commitIndex 0 } []

/-- **A sequence of small changes** of one node, and all it sent. -/
inductive Path (S : Setup NodeId) (ok : Label → Prop) (now : ℕ) (v : NodeId) :
    List (Msg NodeId Cmd) → Node NodeId Cmd → Node NodeId Cmd → List (Msg NodeId Cmd) → Prop
  | nil {net n} : Path S ok now v net n n []
  | cons {net n l n₁ out₁ n₂ out₂} (hl : ok l) (h : Micro S net now v n l n₁ out₁)
      (rest : Path S ok now v (net ++ out₁) n₁ n₂ out₂) : Path S ok now v net n n₂ (out₁ ++ out₂)

namespace Path

variable {S : Setup NodeId} {ok : Label → Prop} {now : ℕ} {v : NodeId}
  {net : List (Msg NodeId Cmd)} {n n₁ n₂ : Node NodeId Cmd} {out out₁ out₂ : List (Msg NodeId Cmd)}

theorem single {l : Label} (hl : ok l) (h : Micro S net now v n l n₁ out) :
    Path S ok now v net n n₁ out := by
  simpa using Path.cons hl h .nil

theorem trans (h₁ : Path S ok now v net n n₁ out₁) (h₂ : Path S ok now v (net ++ out₁) n₁ n₂ out₂) :
    Path S ok now v net n n₂ (out₁ ++ out₂) := by
  induction h₁ generalizing n₂ out₂ with
  | nil => simpa using h₂
  | cons hl h _ ih =>
    rw [List.append_assoc]
    exact .cons hl h (ih (by simpa using h₂))

theorem silent (h₁ : Path S ok now v net n n₁ []) (h₂ : Path S ok now v net n₁ n₂ out) :
    Path S ok now v net n n₂ out := by
  simpa using h₁.trans (by simpa using h₂)

theorem after (h₁ : Path S ok now v net n n₁ out) (h₂ : Path S ok now v (net ++ out) n₁ n₂ []) :
    Path S ok now v net n n₂ out := by
  simpa using h₁.trans h₂

theorem before {l : Label} (hl : ok l) (h : Micro S net now v n l n₁ [])
    (rest : Path S ok now v net n₁ n₂ out) : Path S ok now v net n n₂ out :=
  (single hl h).silent rest

theorem sent {m : Msg NodeId Cmd} (hl : ok .plain) (h : Sends net now v n m)
    (rest : Path S ok now v (net ++ [m]) n n₁ []) : Path S ok now v net n n₁ [m] := by
  simpa using Path.cons hl (.send h) rest

/-- What every small change keeps, a sequence keeps. -/
theorem invariant {P : Node NodeId Cmd → Prop} (h : Path S ok now v net n n₁ out) (hn : P n)
    (hP : ∀ {net n l n' out}, ok l → P n → Micro S net now v n l n' out → P n') : P n₁ := by
  induction h with
  | nil => exact hn
  | cons hl h _ ih => exact ih (hP hl hn h)

end Path

end Anubis.Raft
