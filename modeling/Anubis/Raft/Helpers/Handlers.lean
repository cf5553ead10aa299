import Anubis.Raft.Model.Cluster

/-!
# What a step can do

`Acts` lists the branches of `effect` that go through, with their guards:
one constructor for each thing a node can do. Invariants are proved by cases
on it, and never unfold `effect`.
-/

namespace Anubis.Raft

open List Option Node

variable {NodeId Cmd : Type} {a : Applier NodeId Cmd}

theorem Loop.eq_idle {l : Loop NodeId} (h : l.isIdle = true) : l = .idle := by
  cases l <;> simp_all [Loop.isIdle]

theorem Applier.eq_idle (h : a.isIdle = true) : a = .idle := by
  cases a <;> simp_all [Applier.isIdle]

theorem Applier.ne_idle (h : ¬ a.isIdle = true) : a ≠ .idle := by
  rintro rfl
  exact h rfl

variable [LinearOrder NodeId]

/-- **In state `s` event `e` turns node `id` into `n` and sends `msgs`.** -/
inductive Acts (S : Setup NodeId) (s : Cluster NodeId Cmd) :
    Event NodeId Cmd → NodeId → Node NodeId Cmd → List (Msg NodeId Cmd) → Prop
  | electionTimeout {id ok} (hidle : (s.nodes id).loop = .idle)
      (hstate : (s.nodes id).state ≠ .leader) (hrestoring : (s.nodes id).restoring = false) :
      Acts S s (.electionTimeout id ok) id ((s.nodes id).startElection ok s.now)
        (campaignMsgs ((s.nodes id).startElection ok s.now))
  | handlePreVote {i dst req} (hmsg : .preVote dst req ∈ s.net)
      (hidle : (s.nodes dst).loop = .idle) :
      Acts S s (.handlePreVote i) dst (s.nodes dst)
        [.preVoteAnswer dst req ((s.nodes dst).handlePreVote s.now req)]
  | preVoteAnswer {i ok src req resp} (hmsg : .preVoteAnswer src req resp ∈ s.net) :
      Acts S s (.preVoteAnswer i ok) req.candidateID
        (((s.nodes req.candidateID).answered src req.term true resp).observeTerm ok s.now req.term
          resp.term) []
  | finishPreVote {id ok c} (hloop : (s.nodes id).loop = .preVote c) :
      Acts S s (.finishPreVote id ok) id ((s.nodes id).finishPreVote ok s.now c)
        (campaignMsgs ((s.nodes id).finishPreVote ok s.now c))
  | handleVote {i okTerm okVote dst req} (hmsg : .vote dst req ∈ s.net)
      (hidle : (s.nodes dst).loop = .idle) :
      Acts S s (.handleVote i okTerm okVote) dst
        ((s.nodes dst).handleRequestVote okTerm okVote s.now req).1
        [.voteAnswer dst req ((s.nodes dst).handleRequestVote okTerm okVote s.now req).2]
  | voteAnswer {i ok src req resp} (hmsg : .voteAnswer src req resp ∈ s.net) :
      Acts S s (.voteAnswer i ok) req.candidateID
        (((s.nodes req.candidateID).answered src req.term false resp).observeTerm ok s.now req.term
          resp.term) []
  | finishVote {id ok c} (hloop : (s.nodes id).loop = .vote c) :
      Acts S s (.finishVote id ok) id ((s.nodes id).finishVote ok s.now c) []
  | heartbeat {id req ok} (hidle : (s.nodes id).loop = .idle) :
      Acts S s (.heartbeat id req ok) id ((s.nodes id).handleHeartbeat ok s.now req) []
  | snapshotDue {id peer leaderCommit} (hstate : (s.nodes id).state = .leader) :
      Acts S s (.buildAppend id peer leaderCommit) id (s.nodes id) [.snapshotDue id peer]
  | buildAppend {id peer leaderCommit p} (hstate : (s.nodes id).state = .leader)
      (hcommit : leaderCommit ≤ (s.nodes id).commitIndex) (hp : p ∈ (s.nodes id).peers)
      (hid : p.id = peer) (hneeds : (s.nodes id).needsSnapshot p = false) :
      Acts S s (.buildAppend id peer leaderCommit) id (s.nodes id)
        [.appendBuilt id peer ((s.nodes id).appendRequest p leaderCommit)]
  | sendAppend {i src dst req} (hmsg : .appendBuilt src dst req ∈ s.net) :
      Acts S s (.sendAppend i) src (s.nodes src) [.append src dst req s.now]
  | handleAppend {i io src dst req sentAt} (hmsg : s.net[i]? = some (.append src dst req sentAt))
      (hidle : (s.nodes dst).loop = .idle) :
      Acts S s (.handleAppend i io) dst ((s.nodes dst).handleAppendEntries io s.now req).1
        [.appendAnswer dst src req ((s.nodes dst).handleAppendEntries io s.now req).2 sentAt]
  | markAck {i src dst req resp sentAt} (hmsg : .appendAnswer src dst req resp sentAt ∈ s.net)
      (hterm : resp.term = req.term) :
      Acts S s (.markAck i) dst ((s.nodes dst).markPeerAck src req.term sentAt) []
  | appendAnswer {i okTerm okCommit src dst req resp sentAt}
      (hmsg : .appendAnswer src dst req resp sentAt ∈ s.net) :
      Acts S s (.appendAnswer i okTerm okCommit) dst
        ((s.nodes dst).handleAppendEntriesResponse okTerm okCommit s.now src req resp) []
  | checkCommit {id ok} (hidle : (s.nodes id).loop = .idle) :
      Acts S s (.checkCommit id ok) id ((s.nodes id).checkCommit ok s.now) []
  | checkQuorum {id} (hidle : (s.nodes id).loop = .idle) :
      Acts S s (.checkQuorum id) id ((s.nodes id).checkQuorum s.now) []
  | openSnapshot {i src dst snap} (hmsg : .snapshotDue src dst ∈ s.net)
      (hsnap : (s.nodes src).disk.snapshot = some snap) :
      Acts S s (.openSnapshot i) src (s.nodes src) [.snapshotOpened src dst snap]
  | sendSnapshot {i src dst snap} (hmsg : .snapshotOpened src dst snap ∈ s.net) :
      Acts S s (.sendSnapshot i) src (s.nodes src)
        [.chunk dst ⟨src, ⟨snap, (s.nodes src).currentTerm, (s.nodes src).membershipBase⟩, 0,
          s.now⟩]
  | handleChunk {i io dst c} (hmsg : .chunk dst c ∈ s.net) (hidle : (s.nodes dst).loop = .idle)
      (happlier : (s.nodes dst).applier = .idle) :
      Acts S s (.handleChunk i io) dst ((s.nodes dst).handleInstallSnapshot io s.now c).1
        (installMsgs dst c ((s.nodes dst).handleInstallSnapshot io s.now c).2)
  | recheckInstall {id c} (hloop : (s.nodes id).loop = .publish c) :
      Acts S s (.recheckInstall id) id ((s.nodes id).recheckInstall c).1
        (installMsgs id c ((s.nodes id).recheckInstall c).2)
  | finishInstall {id io c} (hloop : (s.nodes id).loop = .restore c) :
      Acts S s (.finishInstall id io) id ((s.nodes id).finishInstall io s.now c.request).1
        (installMsgs id c (some ((s.nodes id).finishInstall io s.now c.request).2))
  | markChunkAck {i src c resp} (hmsg : .chunkAnswer src c resp ∈ s.net)
      (hterm : resp.term = c.transfer.term) :
      Acts S s (.markChunkAck i) c.sender
        ((s.nodes c.sender).markPeerAck src c.transfer.term c.sentAt) []
  | snapshotSent {i src c resp} (hmsg : .chunkAnswer src c resp ∈ s.net) (hok : resp.success = true)
      (hdone : c.request.done = true) :
      Acts S s (.chunkAnswer i) c.sender
        ((s.nodes c.sender).snapshotSent c.transfer.term src c.transfer.snapshot.index) []
  | nextChunk {i src c resp} (hmsg : .chunkAnswer src c resp ∈ s.net) :
      Acts S s (.chunkAnswer i) c.sender (s.nodes c.sender)
        [.chunk src { c with offset := c.offset + snapshotChunkSize, sentAt := s.now }]
  | submit {id cmd} (hstate : (s.nodes id).state = .leader) :
      Acts S s (.submit id cmd) id
        { s.nodes id with applyCh := (s.nodes id).applyCh ++ [⟨s.now, some cmd, 0, 0⟩] } []
  | handleApply {id ok f rest} (hch : (s.nodes id).applyCh = f :: rest) :
      Acts S s (.handleApply id ok) id (handleApply { s.nodes id with applyCh := rest } ok f) []
  | startPass {id target rest} (hch : (s.nodes id).commitCh = target :: rest)
      (happlier : (s.nodes id).applier = .idle) (hloop : (s.nodes id).loop.isInstalling = false) :
      Acts S s (.startPass id) id { s.nodes id with commitCh := rest, applier := .pass target 0 } []
  | applierStep {id io} (happlier : (s.nodes id).applier ≠ .idle) :
      Acts S s (.applierStep id io) id ((s.nodes id).applierStep io) []
  | takeSnapshot {id ok image} (happlier : (s.nodes id).applier = .idle)
      (hloop : (s.nodes id).loop.isInstalling = false) :
      Acts S s (.takeSnapshot id ok image) id ((s.nodes id).maybeTakeSnapshot ok image) []
  | retryApply {id} : Acts S s (.retryApply id) id (s.nodes id).retryApply []
  | addPeer {id peer c} (hc : (s.nodes id).addPeer peer = some c) :
      Acts S s (.addPeer id peer) id (s.nodes id) [.change id c]
  | removePeer {id peer c} (hc : (s.nodes id).removePeer peer = some c) :
      Acts S s (.removePeer id peer) id (s.nodes id) [.change id c]
  | propose {i ok src c m} (hmsg : .change src c ∈ s.net)
      (hm : (s.nodes src).proposeMembershipChange ok s.now c = some m) :
      Acts S s (.propose i ok) src m []
  | restart {id okRestore ios m} (hm : S.restarted (s.nodes id) okRestore ios = some m) :
      Acts S s (.restart id okRestore ios) id m []

variable {S : Setup NodeId} {s s' : Cluster NodeId Cmd} {e : Event NodeId Cmd}

/-- Every effect is one of the listed actions. -/
theorem acts_of_effect {r : NodeId × Node NodeId Cmd × List (Msg NodeId Cmd)}
    (h : effect S s e = some r) : Acts S s e r.1 r.2.1 r.2.2 := by
  cases e <;>
    simp only [effect, submit, map_eq_some_iff, ite_none_left_eq_some,
      ite_none_right_eq_some, some.injEq, reduceCtorEq] at h
  case electionTimeout id ok =>
    obtain ⟨hg, rfl⟩ := h
    exact .electionTimeout (Loop.eq_idle hg.1) hg.2.1 (by simpa using hg.2.2)
  case handlePreVote i =>
    split at h
    · rename_i _ _ hmsg
      obtain ⟨hg, ⟨⟩⟩ := ite_none_right_eq_some.mp h
      exact .handlePreVote (mem_of_getElem? hmsg) (Loop.eq_idle hg)
    · cases h
  case preVoteAnswer i ok =>
    split at h
    · rename_i _ _ _ hmsg
      cases h
      exact .preVoteAnswer (mem_of_getElem? hmsg)
    · cases h
  case finishPreVote id ok =>
    split at h
    · rename_i hloop
      cases h
      exact .finishPreVote hloop
    · cases h
  case handleVote i okTerm okVote =>
    split at h
    · rename_i _ _ hmsg
      obtain ⟨hg, ⟨⟩⟩ := ite_none_right_eq_some.mp h
      exact .handleVote (mem_of_getElem? hmsg) (Loop.eq_idle hg)
    · cases h
  case voteAnswer i ok =>
    split at h
    · rename_i _ _ _ hmsg
      cases h
      exact .voteAnswer (mem_of_getElem? hmsg)
    · cases h
  case finishVote id ok =>
    split at h
    · rename_i hloop
      cases h
      exact .finishVote hloop
    · cases h
  case heartbeat id req ok =>
    obtain ⟨hg, rfl⟩ := h
    exact .heartbeat (Loop.eq_idle hg)
  case buildAppend id peer leaderCommit =>
    obtain ⟨hg, h⟩ := h
    split at h
    · cases h
    · rename_i p hp
      split at h
      · cases h
        exact .snapshotDue hg.1
      · rename_i hneeds
        cases h
        exact .buildAppend hg.1 hg.2 (mem_of_find?_eq_some hp)
          (by simpa using find?_some hp) (by simpa using hneeds)
  case sendAppend i =>
    split at h
    · rename_i _ _ _ hmsg
      cases h
      exact .sendAppend (mem_of_getElem? hmsg)
    · cases h
  case handleAppend i io =>
    split at h
    · rename_i _ _ _ _ hmsg
      obtain ⟨hg, ⟨⟩⟩ := ite_none_right_eq_some.mp h
      exact .handleAppend hmsg (Loop.eq_idle hg)
    · cases h
  case markAck i =>
    split at h
    · rename_i _ _ _ _ _ hmsg
      obtain ⟨hg, ⟨⟩⟩ := ite_none_right_eq_some.mp h
      exact .markAck (mem_of_getElem? hmsg) hg
    · cases h
  case appendAnswer i okTerm okCommit =>
    split at h
    · rename_i _ _ _ _ _ hmsg
      cases h
      exact .appendAnswer (mem_of_getElem? hmsg)
    · cases h
  case checkCommit id ok =>
    obtain ⟨hg, rfl⟩ := h
    exact .checkCommit (Loop.eq_idle hg)
  case checkQuorum id =>
    obtain ⟨hg, rfl⟩ := h
    exact .checkQuorum (Loop.eq_idle hg)
  case openSnapshot i =>
    split at h
    · rename_i _ _ hmsg
      split at h
      · cases h
      · rename_i hsnap
        cases h
        exact .openSnapshot (mem_of_getElem? hmsg) hsnap
    · cases h
  case sendSnapshot i =>
    split at h
    · rename_i _ _ _ hmsg
      cases h
      exact .sendSnapshot (mem_of_getElem? hmsg)
    · cases h
  case handleChunk i io =>
    split at h
    · rename_i _ _ hmsg
      obtain ⟨hg, ⟨⟩⟩ := ite_none_right_eq_some.mp h
      exact .handleChunk (mem_of_getElem? hmsg) (Loop.eq_idle hg.1) (Applier.eq_idle hg.2)
    · cases h
  case recheckInstall id =>
    split at h
    · rename_i hloop
      cases h
      exact .recheckInstall hloop
    · cases h
  case finishInstall id io =>
    split at h
    · rename_i hloop
      cases h
      exact .finishInstall hloop
    · cases h
  case markChunkAck i =>
    split at h
    · rename_i _ _ _ hmsg
      obtain ⟨hg, ⟨⟩⟩ := ite_none_right_eq_some.mp h
      exact .markChunkAck (mem_of_getElem? hmsg) hg
    · cases h
  case chunkAnswer i =>
    split at h
    · rename_i _ _ _ hmsg
      split at h
      · cases h
      · rename_i hok
        split at h
        · rename_i hdone
          cases h
          exact .snapshotSent (mem_of_getElem? hmsg) (by simpa using hok) hdone
        · cases h
          exact .nextChunk (mem_of_getElem? hmsg)
    · cases h
  case submit id cmd =>
    obtain ⟨m, ⟨hg, rfl⟩, rfl⟩ := h
    exact .submit hg.1
  case handleApply id ok =>
    split at h
    · cases h
    · rename_i hch
      split at h
      · cases h
        exact .handleApply hch
      · cases h
  case startPass id =>
    split at h
    · cases h
    · rename_i hch
      split at h
      · rename_i hg
        cases h
        exact .startPass hch (Applier.eq_idle hg.1) (by simpa using hg.2)
      · cases h
  case applierStep id io =>
    obtain ⟨hg, rfl⟩ := h
    exact .applierStep (Applier.ne_idle hg)
  case takeSnapshot id ok image =>
    obtain ⟨hg, rfl⟩ := h
    exact .takeSnapshot (Applier.eq_idle hg.1) (by simpa using hg.2)
  case retryApply =>
    obtain ⟨-, rfl⟩ := h
    exact .retryApply
  case addPeer =>
    obtain ⟨c, hc, rfl⟩ := h
    exact .addPeer hc
  case removePeer =>
    obtain ⟨c, hc, rfl⟩ := h
    exact .removePeer hc
  case propose i ok =>
    split at h
    · rename_i _ _ hmsg
      rw [map_eq_some_iff] at h
      obtain ⟨m, hm, rfl⟩ := h
      exact .propose (mem_of_getElem? hmsg) hm
    · cases h
  case restart =>
    obtain ⟨m, hm, rfl⟩ := h
    exact .restart hm

/-- **A step lets time pass, or one node act.** -/
theorem step_cases (h : step S s e = some s') :
    (∃ d, s' = { s with now := s.now + d + 1 }) ∨
      ∃ id n msgs, Acts S s e id n msgs ∧ s' = s.update id n msgs := by
  unfold step at h
  split at h
  · rename_i d
    cases h
    exact .inl ⟨d, rfl⟩
  · rw [map_eq_some_iff] at h
    obtain ⟨r, hr, rfl⟩ := h
    exact .inr ⟨_, _, _, acts_of_effect hr, rfl⟩

/-!
## What the larger handlers leave

The handlers that change several parts of a node at once, and what they
leave: `acceptAppend_cases` lists the ways accepting entries ends, and
`acceptAppend_induct` takes a property of a node through its parts.
-/

variable {n : Node NodeId Cmd}

namespace Node

variable (n : Node NodeId Cmd) (req : AppendEntriesRequest NodeId Cmd)
variable {c : MembershipChange NodeId}

/-- The node with entries added to its log, in memory and on disk. -/
def extended (entries : List (RaftLogEntry NodeId Cmd)) : Node NodeId Cmd :=
  { n with log := n.log ++ entries, journal := n.journal ++ storeLogs entries }

/-- The entries of a request the node does not have. -/
def missing : List (RaftLogEntry NodeId Cmd) :=
  newEntries n.lastLogIndex (req.prevLogIndex + 1) req.entries

end Node

variable {io : AppendIO} {now : ℕ} {req : AppendEntriesRequest NodeId Cmd}

theorem appendNew_cases (n : Node NodeId Cmd) (req : AppendEntriesRequest NodeId Cmd)
    (okStore truncated : Bool) :
    (n.appendNew okStore truncated req = (if truncated then n.refreshMembership else n, false)) ∨
      n.appendNew okStore truncated req =
        (if truncated || (n.missing req).any fun e => e.data matches .membershipChange _ then
          (n.extended (n.missing req)).refreshMembership else n.extended
          (n.missing req), true) := by
  unfold appendNew
  dsimp only
  split
  · exact .inl rfl
  · exact .inr rfl

/-- **How accepting a request ends**: refused or unable to write, with the
log as it was; truncated and unable to store; or stored, with the commit
index moved. -/
inductive Accepted (n : Node NodeId Cmd) (okCommit : Bool) (req : AppendEntriesRequest NodeId Cmd) :
    Node NodeId Cmd → AppendEntriesResponse → Prop
  | unchanged {resp} (hno : resp.success = false) (hterm : resp.term = n.currentTerm) :
      Accepted n okCommit req n resp
  | truncated {index resp} (hcons : n.checkLogConsistency req = none)
      (hconf : n.conflictAt (req.prevLogIndex + 1) req.entries = some index)
      (hno : resp.success = false) (hterm : resp.term = n.currentTerm) :
      Accepted n okCommit req (n.truncateLog index).refreshMembership resp
  | extended {resp} (hcons : n.checkLogConsistency req = none)
      (hconf : n.conflictAt (req.prevLogIndex + 1) req.entries = none)
      (hok : resp.success = true) (hterm : resp.term = n.currentTerm)
      (hquiet : ∀ e ∈ n.missing req, ∀ c, e.data ≠ .membershipChange c) :
      Accepted n okCommit req ((n.extended (n.missing req)).updateCommitIndex okCommit req) resp
  | changed {resp} (hcons : n.checkLogConsistency req = none)
      (hconf : n.conflictAt (req.prevLogIndex + 1) req.entries = none)
      (hok : resp.success = true) (hterm : resp.term = n.currentTerm) :
      Accepted n okCommit req
        ((n.extended (n.missing req)).refreshMembership.updateCommitIndex okCommit req) resp
  | replaced {index resp} (hcons : n.checkLogConsistency req = none)
      (hconf : n.conflictAt (req.prevLogIndex + 1) req.entries = some index)
      (hok : resp.success = true) (hterm : resp.term = n.currentTerm) :
      Accepted n okCommit req
        (((n.truncateLog index).extended
          ((n.truncateLog index).missing req)).refreshMembership.updateCommitIndex okCommit req)
          resp

section

omit [LinearOrder NodeId]

theorem updateCommitIndex_cases (okCommit : Bool) :
    n.updateCommitIndex okCommit req = n ∨ ∃ k, n.commitIndex < k ∧ k ≤ req.leaderCommit ∧
      k ≤ req.prevLogIndex + req.entries.length ∧
      n.updateCommitIndex okCommit req =
        (wrote { n with commitIndex := k } [.hardState ⟨n.currentTerm, n.votedFor, k, n.lastApplied,
          n.logBase, n.logBaseTerm⟩]).notifyCommit k := by
  unfold updateCommitIndex
  dsimp only
  split
  · exact .inl rfl
  · rename_i hlt
    cases okCommit with
    | false => exact .inl rfl
    | true => exact .inr ⟨_, not_le.mp hlt, min_le_left .., min_le_right .., rfl⟩

theorem checkLogConsistency_refuses {resp : AppendEntriesResponse}
    (h : n.checkLogConsistency req = some resp) :
    resp.success = false ∧ resp.term = n.currentTerm := by
  unfold checkLogConsistency at h
  split at h
  · split at h
    · cases h
      exact ⟨rfl, rfl⟩
    · cases h
  · split at h
    · cases h
      exact ⟨rfl, rfl⟩
    · split at h
      · cases h
        exact ⟨rfl, rfl⟩
      · cases h

theorem currentTerm_updateCommitIndex (okCommit : Bool) :
    (n.updateCommitIndex okCommit req).currentTerm = n.currentTerm := by
  rcases updateCommitIndex_cases okCommit with h | ⟨k, -, -, -, h⟩
  · rw [h]
  · rw [h]
    rfl

/-- What `checkCommit` commits: a later entry of the leader's own term, on a
majority. -/
theorem commitCandidate_spec {i k : ℕ} (h : n.commitCandidate i = some k) :
    n.commitIndex < k ∧ (∃ e, n.logEntry k = some e ∧ e.term = n.currentTerm) ∧
      n.checkStandardCommit k = true := by
  induction i with
  | zero => cases h
  | succ i ih =>
    unfold commitCandidate at h
    split at h
    · cases h
    · rename_i hlt
      split at h
      · rename_i hcond
        cases h
        cases he : n.logEntry (i + 1) with
        | none => simp [he] at hcond
        | some e => exact ⟨by omega, ⟨e, rfl, by simpa [he] using hcond.1⟩, hcond.2⟩
      · exact ih h

end

/-- **Accepting a request ends in one of these ways.** -/
theorem acceptAppend_cases (n : Node NodeId Cmd) (io : AppendIO) (now : ℕ)
    (req : AppendEntriesRequest NodeId Cmd) : Accepted (n.contacted now req.leaderID) io.commit req
    (n.acceptAppend io now req).1 (n.acceptAppend io now req).2 := by
  unfold acceptAppend
  dsimp only
  generalize n.contacted now req.leaderID = m
  cases hcons : m.checkLogConsistency req with
  | some =>
    obtain ⟨hno, hterm⟩ := checkLogConsistency_refuses hcons
    exact .unchanged hno hterm
  | none =>
    unfold reconcileLogEntries
    cases hconf : m.conflictAt (req.prevLogIndex + 1) req.entries with
    | some index =>
      cases io.delete with
      | false => exact .unchanged rfl rfl
      | true =>
        simp only [if_true]
        rcases appendNew_cases (m.truncateLog index) req io.store true with h | h
        · rw [h]
          exact .truncated hcons hconf rfl rfl
        · rw [h]
          exact .replaced hcons hconf rfl (currentTerm_updateCommitIndex _)
    | none =>
      rcases appendNew_cases m req io.store false with h | h
      · rw [h]
        exact .unchanged rfl rfl
      · rw [h]
        by_cases hany : (false || (m.missing req).any fun e =>
          e.data matches .membershipChange _) = true
        · rw [if_pos hany]
          exact .changed hcons hconf rfl (currentTerm_updateCommitIndex _)
        · rw [if_neg hany]
          refine .extended hcons hconf rfl (currentTerm_updateCommitIndex _) fun e he c hc =>
            hany ?_
          rw [Bool.false_or, List.any_eq_true]
          exact ⟨e, he, by rw [hc]⟩

/-- A property of a node that every part of accepting a request keeps. -/
theorem acceptAppend_induct {P : Node NodeId Cmd → Prop} (hn : P n)
    (hcontact : ∀ {m} leader, P m → P (m.contacted now leader))
    (htruncate : ∀ {m} index, P m → P (m.truncateLog index))
    (hextend : ∀ {m}, P m → P (m.extended (m.missing req)))
    (hrefresh : ∀ {m}, P m → P m.refreshMembership)
    (hcommit : ∀ {m} k, P m → m.commitIndex < k →
      P ((wrote { m with commitIndex := k } [.hardState ⟨m.currentTerm, m.votedFor, k,
        m.lastApplied, m.logBase, m.logBaseTerm⟩]).notifyCommit k)) :
    P (n.acceptAppend io now req).1 := by
  have hupdate : ∀ {m}, P m → P (m.updateCommitIndex io.commit req) := by
    intro m hm
    rcases updateCommitIndex_cases io.commit with h | ⟨k, hlt, -, -, h⟩
    · exact h ▸ hm
    · exact h ▸ hcommit k hm hlt
  have hm : P (n.contacted now req.leaderID) := hcontact _ hn
  have hcases := acceptAppend_cases n io now req
  generalize (n.acceptAppend io now req).1 = m, (n.acceptAppend io now req).2 = resp at hcases ⊢
  cases hcases with
  | unchanged => exact hm
  | truncated => exact hrefresh (htruncate _ hm)
  | extended => exact hupdate (hextend hm)
  | changed => exact hupdate (hrefresh (hextend hm))
  | replaced => exact hupdate (hrefresh (hextend (htruncate _ hm)))

/-! ## Membership entries -/

/-- Writes beside the hard state, snapshots and new entries: entries deleted up
to the log's base, the removal flag, and the member list, which is the given one. -/
def Write.Minor (base : List (RaftPeer NodeId)) (logBase : ℕ) : Write NodeId Cmd → Prop
  | .deleteLog i => i ≤ logBase
  | .removed _ => True
  | .peers ms => ms = base
  | _ => False

/-- Applying a membership entry moves the committed configuration; the rest
is the removal flag and minor writes. -/
theorem applyMembershipEntry_eq (n : Node NodeId Cmd) (okRemoved okPeers : Bool)
    (e : MembershipEntry NodeId) :
    ∃ removed ws, (∀ w ∈ ws, w.Minor (foldMembership n.membershipBase e) 0) ∧
      n.applyMembershipEntry okRemoved okPeers e =
        wrote { n.setMembershipBase (foldMembership n.membershipBase e) with removed := removed }
          ws := by
  have hflag : ∀ b : Bool, ∀ w ∈ (if okRemoved then [.removed b] else [] : List (Write NodeId Cmd)),
      w.Minor (foldMembership n.membershipBase e) 0 := by
    intro b
    split <;> simp [Write.Minor]
  have hpeers : ∀ w ∈ (if okPeers then [.peers (foldMembership n.membershipBase e)] else [] :
      List (Write NodeId Cmd)), w.Minor (foldMembership n.membershipBase e) 0 := by
    split <;> simp [Write.Minor]
  have happend : ∀ b : Bool,
    ∀ w ∈ (if okRemoved then [.removed b] else [] : List (Write NodeId Cmd)) ++
      (if okPeers then [.peers (foldMembership n.membershipBase e)] else []),
      w.Minor (foldMembership n.membershipBase e) 0 := fun b w hw =>
    (mem_append.mp hw).elim (hflag b w) (hpeers w)
  unfold applyMembershipEntry
  dsimp only
  generalize hm : n.setMembershipBase (foldMembership n.membershipBase e) = m
  have hbase : m.membershipBase = foldMembership n.membershipBase e := by
    rw [← hm]
    rfl
  split
  · refine ⟨true, _, happend true, ?_⟩
    simp [wrote, hbase]
  · split
    · refine ⟨false, _, happend false, ?_⟩
      simp [wrote, hbase]
    · refine ⟨m.removed, _, hpeers, ?_⟩
      rw [← hbase]

/-- A change is proposed for one peer: it joins or it leaves. -/
theorem addPeer_type {peer : RaftPeer NodeId}
    (h : n.addPeer peer = some c) : c.type ≠ .replacePeer := by
  unfold addPeer at h
  split at h
  · cases h
    exact MembershipChangeType.noConfusion
  · cases h

theorem removePeer_type {peer : NodeId}
    (h : n.removePeer peer = some c) : c.type ≠ .replacePeer := by
  unfold removePeer at h
  split at h
  · obtain ⟨p, -, rfl⟩ := map_eq_some_iff.mp h
    exact MembershipChangeType.noConfusion
  · cases h

/-- **A membership proposal that goes through**: the leader's no-op and the
last change are committed, and the entry with the new configuration is in
the log. -/
theorem proposeMembershipChange_cases {okStore : Bool} {future : ℕ}
    {change : MembershipChange NodeId}
    {m : Node NodeId Cmd} (h : n.proposeMembershipChange okStore future change = some m) :
    n.state = .leader ∧ n.leaderNoopIndex ≤ n.commitIndex ∧
    n.membershipLatestIndex ≤ n.commitIndex ∧
      foldMembership n.membershipLatest ⟨change, []⟩ ≠ [] ∧
      m = refreshMembership (storeWaiter (n.extended [⟨n.lastLogIndex + 1, n.currentTerm,
        .membershipChange ⟨change, foldMembership n.membershipLatest ⟨change, []⟩⟩⟩])
          ⟨future, none, n.lastLogIndex + 1, n.currentTerm⟩) := by
  unfold proposeMembershipChange at h
  split at h
  · cases h
  · rename_i hc
    simp only [not_or, not_not, not_lt] at hc
    dsimp only at h
    split at h
    · cases h
    · rename_i hne
      cases okStore with
      | false => cases h
      | true =>
        refine ⟨hc.1, hc.2.1, hc.2.2, hne, ?_⟩
        cases h
        simp [extended, lastLogIndex, storeLogs]

/-- **What an install leaves**: the base moved to the snapshot, the log past
it, and the sender's configuration if it sent one. -/
theorem installSnapshot_eq (n : Node NodeId Cmd) (now : ℕ) (req : InstallSnapshotRequest NodeId) :
    ∃ base, (base = n.membershipBase ∨
        req.configuration ≠ [] ∧ base = normalizeMembers req.configuration) ∧
      n.installSnapshot now req =
        { refreshMembership
          { n with
            log := baseMarker req.lastIncludedIndex req.lastIncludedTerm ::
              n.log.filter (fun e => req.lastIncludedIndex < e.index)
            logBase := req.lastIncludedIndex
            logBaseTerm := req.lastIncludedTerm
            membershipBase := base } with
          commitIndex := max n.commitIndex req.lastIncludedIndex
          lastApplied := max n.lastApplied req.lastIncludedIndex
          lastSnapshotIndex := req.lastIncludedIndex
          lastContact := now } := by
  unfold Node.installSnapshot
  dsimp only
  split
  · rename_i hne
    exact ⟨_, .inr ⟨hne, rfl⟩, rfl⟩
  · exact ⟨_, .inl rfl, rfl⟩

end Anubis.Raft
