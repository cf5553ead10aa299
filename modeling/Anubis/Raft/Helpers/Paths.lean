import Anubis.Raft.Helpers.Disk
import Anubis.Raft.Helpers.Micro

/-!
# Events as sequences of small changes

One lemma for each handler: what it does is a `Path`. `step_path` puts them
together, and `run_micro` is the induction every invariant of the
cluster is proved by.
-/

namespace Anubis.Raft

open Function Path Node Cluster

variable {NodeId Cmd : Type} [LinearOrder NodeId] {S : Setup NodeId} {ok : Label → Prop}
  {net : List (Msg NodeId Cmd)} {now : ℕ} {v : NodeId} {n m : Node NodeId Cmd}
variable {c : ChunkSend NodeId} {okTerm : Bool} {target unpersisted : ℕ}
    {req : RequestVoteRequest NodeId}
variable {entry : RaftLogEntry NodeId Cmd} {J : Cluster NodeId Cmd → Prop} {okHardState : Bool}
variable {allowed : Event NodeId Cmd → Prop} {src : NodeId} {resp : InstallSnapshotResponse}
variable {k : Node NodeId Cmd} {okRestore : Bool} {okStore : Bool} {term : ℕ}
    {okVote okCommit : Bool}
  {io : ReceiveIO} {result : ApplyResult} {d : Disk NodeId Cmd}

theorem micro_contact (contact : ℕ) (leader : Option NodeId) :
    Micro S net now v n .plain { n with lastContact := contact, leaderID := leader } [] :=
  .keep contact leader n.applyRetry n.appliedDirty n.removed n.lastSnapshotIndex

theorem micro_retry (retry dirty : Bool) :
    Micro S net now v n .plain { n with applyRetry := retry, appliedDirty := dirty } [] :=
  .keep n.lastContact n.leaderID retry dirty n.removed n.lastSnapshotIndex

section

omit [LinearOrder NodeId]

theorem loop_becomeFollower (h : n.becomeFollower okTerm now term = some m) :
    m.loop = n.loop ∧ m.applier = n.applier ∧ m.currentTerm = term ∧
      (m.log, m.logBase) = (n.log, n.logBase) ∧ m.commitIndex = n.commitIndex := by
  cases okTerm with
  | false => cases h
  | true =>
    simp only [becomeFollower, persistHardState, Option.some.injEq, if_true] at h
    subst h
    split <;> exact ⟨rfl, rfl, rfl, rfl, rfl⟩

theorem deleteRange_minor {a b logBase : ℕ} {base : List (RaftPeer NodeId)} (hle : b ≤ logBase) :
    ∀ w ∈ (deleteRange a b : List (Write NodeId Cmd)), w.Minor base logBase := by
  intro w hw
  obtain ⟨i, hi, rfl⟩ := List.mem_map.mp hw
  rw [List.mem_range'_1] at hi
  change i ≤ logBase
  omega

/-- Notifying a proposal touches the futures and nothing else. -/
theorem notifyApply_eq (n : Node NodeId Cmd) (index term : ℕ) (err : Option (FutureError NodeId)) :
    n.notifyApply index term err = { n with
        applyWaiters := (n.notifyApply index term err).applyWaiters
        resolved := (n.notifyApply index term err).resolved } := by
  unfold notifyApply
  split
  · rfl
  · dsimp only
    split
    · rfl
    · split <;> rfl

end

theorem logBase_installSnapshot (now : ℕ) (req : InstallSnapshotRequest NodeId) :
    (n.installSnapshot now req).logBase = req.lastIncludedIndex := by
  obtain ⟨base, -, heq⟩ := installSnapshot_eq n now req
  rw [heq]
  rfl

theorem currentTerm_installSnapshot (now : ℕ) (req : InstallSnapshotRequest NodeId) :
    (n.installSnapshot now req).currentTerm = n.currentTerm := by
  obtain ⟨base, -, heq⟩ := installSnapshot_eq n now req
  rw [heq]
  rfl

theorem membershipBase_installSnapshot (now : ℕ) {req : InstallSnapshotRequest NodeId}
    (h : req.configuration ≠ []) :
    (n.installSnapshot now req).membershipBase = normalizeMembers req.configuration := by
  unfold Node.installSnapshot
  dsimp only
  rw [if_pos h]
  rfl

/-! ## Changes with labels of their own -/

theorem path_installSnapshot (hl : ok .install) (hloop : n.loop = .restore c)
    (hterm : resp.term = n.currentTerm) :
    Path S ok now v net n (Node.installSnapshot
      { n with restoring := false, incomingSnapshot := none, loop := .idle } now c.request)
      [.chunkAnswer v c resp] := by
  obtain ⟨base, hbase, heq⟩ := installSnapshot_eq
    { n with restoring := false, incomingSnapshot := none, loop := .idle } now c.request
  rw [heq]
  exact single hl (.install hloop hbase hterm)

theorem path_snapshotSent (hl : ok .cursor) (hmsg : .chunkAnswer src c resp ∈ net)
    (hv : c.sender = v) (hok : resp.success = true) (hdone : c.request.done = true) :
    Path S ok now v net n (n.snapshotSent c.transfer.term src c.transfer.snapshot.index) [] := by
  unfold snapshotSent
  split
  · rename_i hc
    exact single hl (.matchSnapshot hmsg hv hok hdone hc.1 hc.2)
  · exact .nil

theorem path_maybeTakeSnapshot (hl : ok .snapshot) {okSnapshot : Bool} {image : List UInt8}
    (happlier : n.applier = .idle) (hloop : n.loop.isInstalling = false) :
    Path S ok now v net n (n.maybeTakeSnapshot okSnapshot image) [] := by
  unfold maybeTakeSnapshot
  dsimp only
  split
  · exact .nil
  · rename_i hc
    simp only [not_or, not_le] at hc
    exact single hl (.takeSnapshot image happlier hloop hc.2.2.1)

/-! ## Terms and elections -/

section Plain

variable (hl : ok .plain)

include hl

theorem path_becomeFollower (hlt : n.currentTerm < term)
    (h : n.becomeFollower okTerm now term = some m) : Path S ok now v net n m [] := by
  cases okTerm with
  | false => cases h
  | true =>
    simp only [becomeFollower, persistHardState, Option.some.injEq, if_true, if_pos hlt] at h
    subst h
    refine before hl (.newTerm now none hlt) ?_
    split
    · exact single hl (.fail _)
    · exact .nil

theorem path_observeTerm {reqTerm respTerm : ℕ} :
    Path S ok now v net n (n.observeTerm okTerm now reqTerm respTerm) [] := by
  unfold observeTerm
  split
  · rename_i h
    cases hm : n.becomeFollower okTerm now respTerm with
    | none => exact .nil
    | some => exact path_becomeFollower hl h.2 hm
  · exact .nil

theorem path_standForElection {c : Campaign NodeId}
    (hloop : n.loop = .preVote c) (hstate : n.state = .candidate) :
    Path S ok now v net n (n.standForElection okTerm now c.peers)
      (campaignMsgs (n.standForElection okTerm now c.peers)) := by
  cases okTerm with
  | false => exact single hl (.standFailed hloop)
  | true => exact single hl (.stand now hloop hstate)

theorem path_startElection (hidle : n.loop = .idle) (hstate : n.state ≠ .leader) :
    Path S ok now v net n (n.startElection okTerm now)
    (campaignMsgs (n.startElection okTerm now)) := by
  have hnone : campaignMsgs n = [] := by simp [campaignMsgs, hidle]
  unfold startElection
  split
  · rw [hnone]
    exact .nil
  · rename_i hcan
    have hself : n.selfNonVoter = false := by simp_all
    dsimp only
    split
    · rename_i hpeers
      -- the only voter opens and closes its pre-vote round at once
      have h : Micro S net now v n .plain _ _ := .preVote hidle hstate hself
      rw [hpeers] at h
      have hsame : standForElection
          { n with
            state := .candidate
            loop := .preVote ⟨n.currentTerm + 1, n.lastLogIndex, n.getLogTerm n.lastLogIndex,
              [], [], []⟩ }
          okTerm now [] = n.standForElection okTerm now [] := by cases okTerm <;> rfl
      rw [← hsame]
      exact before hl h (path_standForElection
        (c := ⟨n.currentTerm + 1, n.lastLogIndex, n.getLogTerm n.lastLogIndex, [], [], []⟩) hl rfl
        rfl)
    · split
      · rw [hnone]
        exact .nil
      · exact single hl (.preVote hidle hstate hself)

theorem path_finishPreVote {c : Campaign NodeId} (hloop : n.loop = .preVote c) :
    Path S ok now v net n (n.finishPreVote okTerm now c)
    (campaignMsgs (n.finishPreVote okTerm now c)) := by
  have hidle : n.loop.isInstalling = false := by rw [hloop]; rfl
  unfold finishPreVote
  split
  · exact single hl (.idle hidle)
  · rename_i hc
    have hstate : n.state = .candidate := by simp_all
    split
    · exact before hl .stepDown (single hl (.idle hidle))
    · exact path_standForElection hl hloop hstate

theorem path_answered_preVote {resp : VoteResponse} :
    Path S ok now v net n (n.answered src term true resp) [] := by
  unfold answered
  split
  · rename_i c hloop
    split
    · exact single hl (.countPreVote hloop)
    · exact .nil
  · split
    · simp_all
    · exact .nil
  · exact .nil

theorem path_answered_vote
    {resp : VoteResponse} (hmsg : .voteAnswer src req resp ∈ net) (hid : req.candidateID = v) :
    Path S ok now v net n (n.answered src req.term false resp) [] := by
  unfold answered
  split
  · split
    · simp_all
    · exact .nil
  · rename_i c hloop
    split
    · rename_i hc
      exact single hl (.countVote hloop hmsg hid hc.2)
    · exact .nil
  · exact .nil

theorem path_castVote (hmsg : .vote v req ∈ net) (hidle : n.loop = .idle)
    (hterm : n.currentTerm = req.term) :
    Path S ok now v net n (n.castVote okVote now req).1
      [.voteAnswer v req (n.castVote okVote now req).2] := by
  unfold castVote
  dsimp only
  split
  · rename_i hcan
    cases okVote with
    | false => exact single hl (.send (.voteRefused rfl))
    | true =>
      simp only [Bool.and_eq_true, Bool.or_eq_true, decide_eq_true_eq] at hcan
      exact single hl (.castVote now hmsg hidle hterm hcan.1 hcan.2)
  · exact single hl (.send (.voteRefused rfl))

theorem path_handleRequestVote {okTerm : Bool} (hmsg : .vote v req ∈ net) (hidle : n.loop = .idle) :
    Path S ok now v net n (n.handleRequestVote okTerm okVote now req).1
      [.voteAnswer v req (n.handleRequestVote okTerm okVote now req).2] := by
  unfold handleRequestVote
  split
  · exact single hl (.send (.voteRefused rfl))
  · split
    · rename_i hlt
      split
      · exact single hl (.send (.voteRefused rfl))
      · rename_i m hm
        obtain ⟨hl₁, -, ht, -⟩ := loop_becomeFollower hm
        exact (path_becomeFollower hl hlt hm).silent
          (path_castVote hl hmsg (hl₁.trans hidle) ht)
    · exact path_castVote hl hmsg hidle (by omega)

theorem path_becomeLeader {c : Campaign NodeId}
    (hloop : n.loop = .vote c) (hvotes : votesNeeded c.peers ≤ c.votes) :
    Path S ok now v net n (becomeLeader { n with loop := .idle } okStore now c.term) [] := by
  unfold becomeLeader
  split
  · exact single hl (.idle (by rw [hloop]; rfl))
  · rename_i hc
    simp only [not_or, not_not] at hc
    cases okStore with
    | false => exact single hl (.leadFailed hloop hc.1 hc.2 hvotes)
    | true =>
      have h : Micro S net now v n .plain _ _ := .lead hloop hc.1 hc.2 hvotes
      simpa [appendEntry, initLeader, lastLogIndex] using single hl h

theorem path_finishVote {c : Campaign NodeId}
    (hloop : n.loop = .vote c) : Path S ok now v net n (n.finishVote okStore now c) [] := by
  have hidle : n.loop.isInstalling = false := by rw [hloop]; rfl
  unfold finishVote
  split
  · rename_i hvotes
    exact path_becomeLeader hl hloop hvotes
  · split
    · exact before hl .stepDown (single hl (.idle hidle))
    · exact single hl (.idle hidle)

theorem path_stepDown : Path S ok now v net n (n.stepDown now) [] := by
  unfold stepDown
  split
  · exact before hl .stepDown (before hl (micro_contact now none) (single hl (.fail _)))
  · exact .nil

theorem path_handleHeartbeat {req : HeartbeatRequest NodeId} :
    Path S ok now v net n (n.handleHeartbeat okTerm now req) [] := by
  have hear : ∀ m : Node NodeId Cmd, Path S ok now v net m
      { (if m.state = .leader then
          { stepDown { m with lastContact := now, leaderID := some req.leaderID } now with
            leaderID := some req.leaderID }
        else { m with lastContact := now, leaderID := some req.leaderID }) with state :=
          .follower } [] := by
    intro m
    refine before hl (micro_contact now (some req.leaderID)) ?_
    split
    · exact (path_stepDown hl).silent
        (before hl (micro_contact _ (some req.leaderID)) (single hl .stepDown))
    · exact single hl .stepDown
  unfold handleHeartbeat
  dsimp only
  split
  · exact .nil
  · split
    · rename_i hlt
      split
      · exact .nil
      · rename_i m hm
        exact (path_becomeFollower hl hlt hm).silent (hear m)
    · exact hear n

/-! ## Replication -/

theorem path_handleAppendEntries (ha : ok .append) {io : AppendIO}
    {req : AppendEntriesRequest NodeId Cmd} {sentAt : ℕ} (hmsg : .append src v req sentAt ∈ net)
    (hidle : n.loop = .idle) :
    Path S ok now v net n (n.handleAppendEntries io now req).1
      [.appendAnswer v src req (n.handleAppendEntries io now req).2 sentAt] := by
  unfold handleAppendEntries
  split
  · exact single hl (.send (.appendRefused hmsg rfl rfl))
  · split
    · rename_i hlt
      split
      · exact single hl (.send (.appendRefused hmsg rfl rfl))
      · rename_i m hm
        obtain ⟨hl₁, -, ht, -⟩ := loop_becomeFollower hm
        exact (path_becomeFollower hl hlt hm).silent
          (single ha (.accept hmsg (hl₁.trans hidle) ht))
    · exact single ha (.accept hmsg hidle (by omega))

theorem path_checkCommit : Path S ok now v net n (n.checkCommit okCommit now) [] := by
  unfold checkCommit
  split
  · exact .nil
  · rename_i hstate
    rw [not_not] at hstate
    split
    · exact .nil
    · rename_i index hcand
      cases okCommit with
      | false => exact .nil
      | true => exact single hl (.commit hstate hcand)

theorem path_handleAppendEntriesResponse (hc : ok .cursor) {okTerm : Bool}
    {req : AppendEntriesRequest NodeId Cmd} {resp : AppendEntriesResponse} {sentAt : ℕ}
    (hmsg : .appendAnswer src v req resp sentAt ∈ net) :
    Path S ok now v net n (n.handleAppendEntriesResponse okTerm okCommit now src req resp) [] := by
  unfold handleAppendEntriesResponse
  split
  · exact .nil
  · rename_i hstate
    rw [not_not] at hstate
    split
    · rename_i hlt
      cases hm : n.becomeFollower okTerm now resp.term with
      | none => exact .nil
      | some => exact path_becomeFollower hl hlt hm
    · split
      · exact .nil
      · rename_i hterm
        simp only [not_or, not_not] at hterm
        dsimp only
        split
        · rename_i hok
          split
          · exact .nil
          · rename_i hnew
            exact before hc (.matchAppend hmsg hstate hterm.1 hok (not_le.mp hnew) (by omega))
              (path_checkCommit hl)
        · split
          · exact .nil
          · split
            · exact .nil
            · exact single hc (.backUp (by omega))

theorem path_checkQuorum : Path S ok now v net n (n.checkQuorum now) [] := by
  unfold checkQuorum
  dsimp only
  split
  · exact .nil
  · split
    · exact .nil
    · exact path_stepDown hl

/-! ## Snapshots -/

theorem path_receiveChunk (hr : ok .receive)
    (hmsg : .chunk v c ∈ net) (hterm : c.transfer.term = n.currentTerm) (hidle : n.loop = .idle)
    (happlier : n.applier = .idle) (hnew : n.commitIndex < c.transfer.snapshot.index) :
    Path S ok now v net n (n.receiveChunk io c).1 (installMsgs v c (n.receiveChunk io c).2) := by
  have hrefuse : ∀ m : Node NodeId Cmd, m.currentTerm = n.currentTerm →
      Path S ok now v net m m [.chunkAnswer v c ⟨n.currentTerm, false⟩] := fun m hm =>
    single hl (.send (.chunkAnswer (.inl hmsg) hm.symm nofun))
  unfold receiveChunk
  dsimp only
  generalize hinc : (if c.request.offset = 0 then
    some (⟨c.request.lastIncludedIndex, c.request.lastIncludedTerm, []⟩ : SnapshotInstall)
    else n.incomingSnapshot) = incoming
  refine before hr (.incoming incoming hidle) ?_
  cases incoming with
  | none => exact hrefuse _ rfl
  | some install =>
    dsimp only
    split
    · exact hrefuse _ rfl
    · rename_i hsame
      simp only [not_or, not_not] at hsame
      split
      · rename_i hdone
        refine before hr (.incoming _ hidle) (single hl (.send (.chunkAnswer (.inl hmsg) rfl ?_)))
        exact fun _ h => absurd h (by simpa using hdone)
      · split
        · exact before hr (.incoming _ hidle) (hrefuse _ rfl)
        · rw [hsame.1, hsame.2.1]
          refine before hr
            (.incoming (some ⟨c.request.lastIncludedIndex, c.request.lastIncludedTerm,
              install.data ++ c.request.data⟩) hidle) (single hr ?_)
          exact .publish hmsg (by exact hterm) (by exact hidle) (by exact happlier) (by exact hnew)

theorem path_handleInstallSnapshot (hr : ok .receive)
    (hmsg : .chunk v c ∈ net) (hidle : n.loop = .idle) (happlier : n.applier = .idle) :
    Path S ok now v net n (n.handleInstallSnapshot io now c).1
      (installMsgs v c (n.handleInstallSnapshot io now c).2) := by
  have receive : ∀ m : Node NodeId Cmd, c.transfer.term = m.currentTerm → m.loop = .idle →
      m.applier = .idle → Path S ok now v net m (m.receiveSnapshot io now c).1
        (installMsgs v c (m.receiveSnapshot io now c).2) := by
    intro m hterm hidle happlier
    unfold receiveSnapshot
    dsimp only
    refine before hl (micro_contact now (some c.request.leaderID)) ?_
    split
    · rename_i hold
      exact before hr (.incoming _ hidle)
        (single hl (.send (.chunkAnswer (.inl hmsg) rfl fun _ _ => hold)))
    · rename_i hnew
      rw [not_or, not_le] at hnew
      exact path_receiveChunk hl hr hmsg hterm hidle happlier hnew.1
  have hrefuse : Path S ok now v net n n [.chunkAnswer v c ⟨n.currentTerm, false⟩] :=
    single hl (.send (.chunkAnswer (.inl hmsg) rfl nofun))
  unfold handleInstallSnapshot
  dsimp only
  split
  · exact hrefuse
  · rename_i hge
    split
    · rename_i hlt
      split
      · exact hrefuse
      · rename_i m hm
        obtain ⟨hl₁, ha, ht, -⟩ := loop_becomeFollower hm
        exact (path_becomeFollower hl hlt hm).silent
          (receive m ht.symm (hl₁.trans hidle) (ha.trans happlier))
    · rename_i hle
      exact receive n (le_antisymm (not_lt.mp hle) (not_lt.mp hge)) hidle happlier

theorem path_recheckInstall (hr : ok .receive) (hloop : n.loop = .publish c) :
    Path S ok now v net n (n.recheckInstall c).1 (installMsgs v c (n.recheckInstall c).2) := by
  unfold recheckInstall
  dsimp only
  split
  · rename_i hc
    refine sent hl (.chunkAnswer (.inr (.inl hloop)) rfl fun hok _ => hc.resolve_left ?_)
      (single hr (.abandon n.restoring (.inl rfl) (by rw [hloop]; rfl)))
    exact not_not.mpr (of_decide_eq_true hok)
  · rename_i hc
    simp only [not_or, not_not, not_le] at hc
    exact single hr (.recheck hloop hc.1 hc.2.1 hc.2.2)

theorem path_wrote {ws : List (Write NodeId Cmd)}
    (hminor : ∀ w ∈ ws, w.Minor n.membershipBase n.logBase)
    (hsaved : ∀ i, .deleteLog i ∈ ws → n.disk.hardState = some n.hardState) :
    Path S ok now v net n (n.wrote ws) [] :=
  single hl (.write hminor hsaved)

theorem path_settleInstall {io : InstallIO} {req : InstallSnapshotRequest NodeId}
    (hbase : req.configuration ≠ [] → normalizeMembers req.configuration = n.membershipBase)
    (hlog : n.logBase = req.lastIncludedIndex)
    (hsaved : n.disk.hardState = some n.hardState) :
    Path S ok now v net n (n.settleInstall io req) [] := by
  unfold settleInstall
  dsimp only
  generalize hws : (if req.configuration ≠ [] ∧ io.peers then
    [(.peers (normalizeMembers req.configuration) : Write NodeId Cmd)] else []) = ws
  have hpeers : ∀ w ∈ ws, w.Minor n.membershipBase n.logBase ∧ Disk.keepsHardState w = true := by
    subst hws
    intro w hw
    split at hw
    · rename_i hc
      rw [List.mem_singleton.mp hw]
      exact ⟨hbase hc.1, rfl⟩
    · cases hw
  refine (path_wrote hl (fun w hw => (hpeers w hw).1) fun _ _ => hsaved).silent ?_
  split
  · refine path_wrote hl (deleteRange_minor hlog.ge) fun _ _ => ?_
    exact (Disk.hardState_replay_append fun w hw => (hpeers w hw).2).trans hsaved
  · exact .nil

theorem path_finishInstall (hi : ok .install) {io : InstallIO} (hloop : n.loop = .restore c) :
    Path S ok now v net n (n.finishInstall io now c.request).1
      [.chunkAnswer v c (n.finishInstall io now c.request).2] := by
  unfold finishInstall
  dsimp only
  split
  · exact sent hl (.chunkAnswer (.inr (.inr hloop)) rfl nofun)
      (single hi (.abandon false (.inr rfl) (by rw [hloop]; rfl)))
  · cases io.hardState with
    | false => exact path_installSnapshot hi hloop rfl
    | true =>
      exact (path_installSnapshot hi hloop (currentTerm_installSnapshot now c.request)).after
        (before hl .persist (path_settleInstall hl (fun h =>
          (membershipBase_installSnapshot now h).symm) (logBase_installSnapshot now c.request)
          (Disk.hardState_replay_concat _)))

theorem path_finishSnapshot {okHardState okDelete : Bool} {index : ℕ}
    (happlier : n.applier = .compacting index) :
    Path S ok now v net n (n.finishSnapshot okHardState okDelete index) [] := by
  have hskip : Path S ok now v net n { n with lastSnapshotIndex := index, applier := .idle } [] :=
    before hl (.keep n.lastContact n.leaderID n.applyRetry n.appliedDirty n.removed index)
      (single hl .endPass)
  unfold finishSnapshot compactLog
  dsimp only
  split
  · exact hskip
  · rename_i hc
    simp only [not_or, not_le, not_lt] at hc
    split
    · exact hskip
    · rename_i pos hpos
      refine before hl (.compact happlier hc.2.2 hc.2.1 hpos) ?_
      cases okHardState with
      | false => exact .nil
      | true =>
        refine before hl .persist (path_wrote hl ?_ fun _ _ => Disk.hardState_replay_concat _)
        split
        · exact deleteRange_minor le_rfl
        · simp

/-! ## Applying -/

theorem path_persistApplied : Path S ok now v net n (n.persistApplied okHardState).1 [] := by
  cases okHardState with
  | false => exact single hl (micro_retry true true)
  | true => exact before hl .persist (single hl (micro_retry n.applyRetry false))

theorem path_nextCommitted (happlier : n.applier = .pass target unpersisted) :
    Path S ok now v net n (n.nextCommitted okHardState target unpersisted) [] := by
  unfold nextCommitted
  split
  · split
    · exact (path_persistApplied hl).silent (single hl .endPass)
    · exact single hl .endPass
  · rename_i hlt
    split
    · exact single hl .endPass
    · rename_i entry hentry
      exact single hl (.fetch happlier (not_le.mp hlt) hentry)

theorem path_applyEntry {okRemoved okPeers : Bool}
    (happlier : n.applier = .fetched target unpersisted entry) :
    Path S ok now v net n (n.applyEntry okRemoved okPeers result target unpersisted entry) [] := by
  unfold applyEntry
  split
  · rename_i e hdata
    obtain ⟨removed, ws, hminor, heq⟩ := applyMembershipEntry_eq n okRemoved okPeers e
    rw [heq]
    exact single hl (.applyChange removed happlier hdata hminor)
  · rename_i hdata
    exact single hl (.hand happlier hdata)

theorem path_afterApply (happlier : n.applier = .ran target unpersisted entry result) :
    Path S ok now v net n (n.afterApply okHardState target unpersisted entry result) [] := by
  cases result with
  | ok => exact single hl (.advance happlier)
  | retryable => exact single hl (.failed happlier)
  | permanent =>
    cases okHardState with
    | false => exact before hl (micro_retry true n.appliedDirty) (single hl .endPass)
    | true => exact single hl (.skip happlier)

theorem path_notifyApplied (happlier : n.applier = .applied target unpersisted entry) :
    Path S ok now v net n (n.notifyApplied okHardState target unpersisted entry) [] := by
  unfold notifyApplied
  rw [notifyApply_eq]
  dsimp only
  split
  · exact single hl (.notifyApplied _ happlier)
  · refine before hl (.notifyApplied 0 happlier) ?_
    cases okHardState with
    | false => exact before hl (micro_retry true true) (single hl .endPass)
    | true => exact before hl .persist (single hl (micro_retry n.applyRetry false))

/-- One stretch of `applyLoop`. -/
theorem path_applierStep {io : ApplyIO} : Path S ok now v net n (n.applierStep io) [] := by
  unfold applierStep
  split
  · exact .nil
  · rename_i happlier
    exact path_nextCommitted hl happlier
  · rename_i happlier
    exact path_applyEntry hl happlier
  · rename_i happlier
    exact path_afterApply hl happlier
  · rename_i happlier
    exact path_notifyApplied hl happlier
  · rename_i happlier
    unfold notifySkipped
    rw [notifyApply_eq]
    exact single hl (.notifySkipped happlier)
  · rename_i entry happlier
    unfold notifyFailed
    rw [notifyApply_eq]
    exact before hl (.notifyFailed happlier) (single hl (micro_retry true n.appliedDirty))
  · rename_i happlier
    exact path_finishSnapshot hl happlier

theorem path_handleApply {f : ApplyFuture Cmd} {rest : List (ApplyFuture Cmd)}
    (hch : n.applyCh = f :: rest) :
    Path S ok now v net n (handleApply { n with applyCh := rest } okStore f) [] := by
  unfold handleApply
  split
  · exact single hl (.refuse _ hch)
  · rename_i hstate
    rw [not_not] at hstate
    cases okStore with
    | false => exact single hl (.refuse _ hch)
    | true =>
      have h : Micro S net now v n .plain _ _ := .appendCommand hch hstate
      simpa [appendEntry, lastLogIndex] using single hl h

theorem path_retryApply : Path S ok now v net n n.retryApply [] := by
  unfold retryApply
  dsimp only
  refine before hl (micro_retry false n.appliedDirty) ?_
  split
  · exact .nil
  · exact single hl .notifyCommit

theorem path_applierSteps (ios : List ApplyIO) :
    ∀ n : Node NodeId Cmd, Path S ok now v net n (ios.foldl (fun m io => m.applierStep io) n)
      [] := by
  induction ios with
  | nil => exact fun n => .nil
  | cons io ios ih => exact fun n => (path_applierStep hl).silent (ih _)

end Plain

/-! ## Restarting -/

/-- A property of a node that every restore of `Start` keeps. -/
theorem restore_induct {P : Node NodeId Cmd → Prop}
    (h : n.restore okRestore d = some m) (hn : P (n.restoreHardState d))
    (hpeers : ∀ {k}, P k → P (k.restorePeers d))
    (hremoved : ∀ {k}, P k → P { k with removed := d.removed })
    (hkept : ∀ {k} (s : Snapshot), P k → P { k with lastSnapshotIndex := s.index })
    (hsnapshot : ∀ {k} (s : Snapshot), d.snapshot = some s → P k → P { k with
          logBase := s.index, logBaseTerm := s.term, lastSnapshotIndex := s.index
          commitIndex := max k.commitIndex s.index, lastApplied := s.index
          log := [baseMarker s.index s.term] })
    (hlog : ∀ {k} {entries : List (RaftLogEntry NodeId Cmd)},
      readLog d (k.logBase + 1) (d.lastIndex - k.logBase) = some entries → P k →
        P { k with log := baseMarker k.logBase k.logBaseTerm :: entries })
    (hrefresh : ∀ {k}, P k → P k.refreshMembership) : P m := by
  have h₁ : P { (n.restoreHardState d).restorePeers d with removed := d.removed } :=
    hremoved (hpeers hn)
  have hlatest : ∀ {k k' : Node NodeId Cmd}, k.restoreLatestSnapshot okRestore d = some k' → P k →
      P k' := by
    intro k k' hk hP
    unfold Node.restoreLatestSnapshot at hk
    split at hk
    · cases hk
      exact hP
    · rename_i s hs
      split at hk
      · cases hk
        exact hP
      · split at hk
        · cases hk
          exact hkept s hP
        · split at hk
          · cases hk
            exact hsnapshot s hs hP
          · cases hk
  have hstored : ∀ {k k' : Node NodeId Cmd}, k.restoreLog d = some k' → P k → P k' := by
    intro k k' hk hP
    unfold restoreLog at hk
    dsimp only at hk
    split at hk
    · cases hk
      exact hP
    · split at hk
      · cases hk
      · obtain ⟨entries, hread, rfl⟩ := Option.map_eq_some_iff.mp hk
        exact hlog hread hP
  unfold Node.restore at h
  dsimp only at h
  split at h
  · cases h
  · rename_i n₂ hn₂
    split at h
    · cases h
    · rename_i n₃ hn₃
      have h₃ := hstored hn₃ (hlatest hn₂ h₁)
      cases h
      split
      · exact hrefresh h₃
      · exact h₃

/-- What the restores after `restoreHardState` leave alone. -/
structure Kept (n m : Node NodeId Cmd) : Prop where
  nodeID : m.nodeID = n.nodeID
  state : m.state = n.state
  currentTerm : m.currentTerm = n.currentTerm
  votedFor : m.votedFor = n.votedFor
  loop : m.loop = n.loop
  applier : m.applier = n.applier
  applyCh : m.applyCh = n.applyCh
  applyWaiters : m.applyWaiters = n.applyWaiters
  commitCh : m.commitCh = n.commitCh
  journal : m.journal = n.journal
  resolved : m.resolved = n.resolved
  trace : m.trace = n.trace

namespace Kept

omit [LinearOrder NodeId] in
theorem refl (n : Node NodeId Cmd) : Kept n n :=
    ⟨rfl, rfl, rfl, rfl, rfl, rfl, rfl, rfl, rfl, rfl, rfl, rfl⟩

omit [LinearOrder NodeId] in
theorem trans (h₁ : Kept n m) (h₂ : Kept m k) : Kept n k where
  nodeID := h₂.nodeID.trans h₁.nodeID
  state := h₂.state.trans h₁.state
  currentTerm := h₂.currentTerm.trans h₁.currentTerm
  votedFor := h₂.votedFor.trans h₁.votedFor
  loop := h₂.loop.trans h₁.loop
  applier := h₂.applier.trans h₁.applier
  applyCh := h₂.applyCh.trans h₁.applyCh
  applyWaiters := h₂.applyWaiters.trans h₁.applyWaiters
  commitCh := h₂.commitCh.trans h₁.commitCh
  journal := h₂.journal.trans h₁.journal
  resolved := h₂.resolved.trans h₁.resolved
  trace := h₂.trace.trans h₁.trace

theorem restorePeers (d : Disk NodeId Cmd) : Kept n (n.restorePeers d) := by
  unfold Node.restorePeers
  split
  · exact refl n
  · exact { refl n with }

/-- Term and vote come from the hard state, the rest of the process is new. -/
theorem restore (h : n.restore okRestore d = some m) : Kept (n.restoreHardState d) m :=
  restore_induct h (refl _) (fun h => h.trans (restorePeers d))
    (fun h => { h with }) (fun _ h => { h with }) (fun _ _ h => { h with }) (fun _ h => { h with })
    fun h => { h with }

end Kept

omit [LinearOrder NodeId] in
theorem restoreHardState_idle (d : Disk NodeId Cmd) :
    (n.restoreHardState d).loop = n.loop ∧ (n.restoreHardState d).applier = n.applier := by
  unfold restoreHardState
  split <;> exact ⟨rfl, rfl⟩

theorem path_restarted (hl : ok .plain) (hr : ok .restart) {ios : List ApplyIO}
    (h : S.restarted n okRestore ios = some m) : Path S ok now v net n m [] := by
  unfold Setup.restarted Node.start at h
  split at h
  · cases h
  · rename_i m₀ hm
    obtain ⟨hl₀, ha₀⟩ := restoreHardState_idle (n := S.fresh n) n.disk
    have hloop : m₀.loop = .idle := (Kept.restore hm).loop.trans hl₀
    have happlier : m₀.applier = .idle := (Kept.restore hm).applier.trans ha₀
    refine before hr (.restore okRestore hm) ?_
    split at h
    · cases h
      exact .nil
    · dsimp only at h
      split at h
      · cases h
        exact before hr (.replay happlier hloop) (path_applierSteps hl ios _)
      · cases h

/-! ## Events -/

variable {s s' : Cluster NodeId Cmd} {e : Event NodeId Cmd} {out : List (Msg NodeId Cmd)}

/-- **What an event does to a node is a sequence of small changes**, plain
ones and those of its own label. -/
theorem acts_path (h : Acts S s e v n out) :
    Path S (fun l => l = .plain ∨ l = e.label) s.now v s.net (s.nodes v) n out := by
  have hl : (fun l => l = Label.plain ∨ l = e.label) .plain := .inl rfl
  cases h with
  | electionTimeout hidle hstate => exact path_startElection hl hidle hstate
  | handlePreVote => exact single hl (.send .preVoteAnswer)
  | preVoteAnswer => exact (path_answered_preVote hl).silent (path_observeTerm hl)
  | finishPreVote hloop => exact path_finishPreVote hl hloop
  | handleVote hmsg hidle => exact path_handleRequestVote hl hmsg hidle
  | voteAnswer hmsg => exact (path_answered_vote hl hmsg rfl).silent (path_observeTerm hl)
  | finishVote hloop => exact path_finishVote hl hloop
  | heartbeat => exact path_handleHeartbeat hl
  | snapshotDue => exact single hl (.send .snapshotDue)
  | buildAppend hstate hcommit hp hid hneeds =>
    subst hid
    exact single hl (.send (.appendBuilt hstate hcommit hp hneeds))
  | sendAppend hmsg => exact single hl (.send (.append hmsg))
  | handleAppend hmsg hidle =>
    exact path_handleAppendEntries hl (.inr rfl) (List.mem_of_getElem? hmsg) hidle
  | markAck hmsg hterm => exact single hl (.markAck (.append hmsg hterm))
  | appendAnswer hmsg => exact path_handleAppendEntriesResponse hl (.inr rfl) hmsg
  | checkCommit => exact path_checkCommit hl
  | checkQuorum => exact path_checkQuorum hl
  | openSnapshot _ hsnap => exact single hl (.send (.snapshotOpened hsnap))
  | sendSnapshot hmsg => exact single hl (.send (.chunk hmsg))
  | handleChunk hmsg hidle happlier =>
    exact path_handleInstallSnapshot hl (.inr rfl) hmsg hidle happlier
  | recheckInstall hloop => exact path_recheckInstall hl (.inr rfl) hloop
  | finishInstall hloop => exact path_finishInstall hl (.inr rfl) hloop
  | markChunkAck hmsg hterm => exact single hl (.markAck (.chunk hmsg rfl hterm))
  | snapshotSent hmsg hok hdone => exact path_snapshotSent (.inr rfl) hmsg rfl hok hdone
  | nextChunk hmsg => exact single hl (.send (.nextChunk hmsg rfl))
  | submit hstate => exact single (.inr rfl) (.submit _ hstate)
  | handleApply hch => exact path_handleApply hl hch
  | startPass hch happlier hloop => exact single hl (.startPass hch happlier hloop)
  | applierStep => exact path_applierStep hl
  | takeSnapshot happlier hloop => exact path_maybeTakeSnapshot (.inr rfl) happlier hloop
  | retryApply => exact path_retryApply hl
  | addPeer hc => exact single hl (.send (.change (addPeer_type hc)))
  | removePeer hc => exact single hl (.send (.change (removePeer_type hc)))
  | propose hmsg hm =>
    obtain ⟨hstate, hnoop, hlast, hmembers, rfl⟩ := proposeMembershipChange_cases hm
    exact single (.inr rfl) (.propose hmsg hstate hnoop hlast hmembers)
  | restart hm => exact path_restarted hl (.inr rfl) hm

/-- One node changed and messages were sent, at the same time. -/
def Cluster.put (s : Cluster NodeId Cmd) (v : NodeId) (n : Node NodeId Cmd)
    (out : List (Msg NodeId Cmd)) : Cluster NodeId Cmd :=
  { s with nodes := Function.update s.nodes v n, net := s.net ++ out }

@[simp] theorem Cluster.put_nodes_self : (s.put v n out).nodes v = n := update_self ..

theorem Cluster.put_nodes_ne {u : NodeId} (h : u ≠ v) : (s.put v n out).nodes u = s.nodes u :=
  update_of_ne h ..

@[simp] theorem Cluster.put_put {out' : List (Msg NodeId Cmd)} :
    (s.put v n out).put v m out' = s.put v m (out ++ out') := by
  simp [put]

@[simp] theorem Cluster.put_nil : s.put v (s.nodes v) [] = s := by
  simp [put]

/-- Facts about every node and every message, after one node changed. -/
theorem Cluster.forall_put {P : NodeId → Node NodeId Cmd → Prop} {Q : Msg NodeId Cmd → Prop}
    (hnodes : ∀ u, P u (s.nodes u)) (hnet : ∀ msg ∈ s.net, Q msg) (hn : P v n)
    (hout : ∀ msg ∈ out, Q msg) :
    (∀ u, P u ((s.put v n out).nodes u)) ∧ ∀ msg ∈ (s.put v n out).net, Q msg := by
  refine ⟨fun u => ?_, fun msg hmsg => ?_⟩
  · by_cases hu : u = v
    · subst hu
      rw [put_nodes_self]
      exact hn
    · rw [put_nodes_ne hu]
      exact hnodes u
  · rcases List.mem_append.mp hmsg with hmsg | hmsg
    · exact hnet msg hmsg
    · exact hout msg hmsg

/-- What every small change of a node keeps of the cluster, a sequence
keeps. -/
theorem Path.cluster (h : Path S ok s.now v s.net (s.nodes v) n out) (hs : J s)
    (hJ : ∀ {s l n out}, ok l → J s → Micro S s.net s.now v (s.nodes v) l n out →
      J (s.put v n out)) :
    J (s.put v n out) := by
  generalize hnow : s.now = now at h
  generalize hnet : s.net = net at h
  generalize hn : s.nodes v = n₀ at h
  induction h generalizing s with
  | nil =>
    subst hn
    rw [put_nil]
    exact hs
  | cons hl hm _ ih =>
    subst hnow hnet hn
    have := ih (hJ hl hs hm) rfl rfl put_nodes_self
    rwa [put_put] at this

/-- **The induction over runs**, from any state: what holds there, does not
mind the clock and is kept by every small change the allowed events are made
of, holds at the end. -/
theorem run_micro (h : Runs.Reachable (step S) allowed s s') (hs : J s)
    (hclock : ∀ {s : Cluster NodeId Cmd} (now : ℕ), J s → J { s with now := now })
    (hmicro : ∀ {s v l n out}, (l = .plain ∨ ∃ e, allowed e ∧ l = Event.label e) → J s →
      Micro S s.net s.now v (s.nodes v) l n out → J (s.put v n out)) : J s' := by
  refine Runs.Reachable.invariant hs (fun s e s' _ hs he hstep => ?_) h
  rcases step_cases hstep with ⟨d, rfl⟩ | ⟨v, n, out, hacts, rfl⟩
  · exact hclock _ hs
  · refine hclock (s.now + 1) ((acts_path hacts).cluster hs fun hl => hmicro ?_)
    exact hl.imp_right fun hl => ⟨e, he, hl⟩

/-- The same, of what is said of each node. -/
theorem node_micro {P : NodeId → Node NodeId Cmd → Prop} (h : Runs.Reachable (step S) allowed s s')
    (hs : ∀ v, P v (s.nodes v))
    (hmicro : ∀ {net now v n l n' out}, (l = .plain ∨ ∃ e, allowed e ∧ l = Event.label e) → P v n →
      Micro S net now v n l n' out → P v n') (v : NodeId) : P v (s'.nodes v) := by
  refine run_micro (J := fun s => ∀ v, P v (s.nodes v)) h hs (fun _ h => h) (fun hl h hm => ?_) v
  exact (forall_put (Q := fun _ => True) h (fun _ _ => trivial) (hmicro hl (h _) hm)
    fun _ _ => trivial).1

end Anubis.Raft
