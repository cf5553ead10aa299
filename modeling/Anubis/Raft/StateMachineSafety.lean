import Anubis.Raft.Refinement.Run
import Anubis.Raft.ElectionSafety

/-!
# State-machine safety

With a fixed set of voters and nodes that do not come back after a crash, no
two nodes hand different entries with the same index to their FSM, and no
entry at or below a node's commit index is ever replaced in its log, whatever
is lost, repeated or reordered, whichever store calls fail, and wherever
logs are compacted and snapshots installed.

What a node hands to its FSM is committed on record, and committed prefixes
agree (`Ledger.Inv.commits_agree`). The record of a longer run extends that
of a shorter one, so the same holds between a node and its own past.
-/

namespace Anubis.Raft

open Quorum Ledger List Runs Node

variable {NodeId Cmd : Type} [LinearOrder NodeId] {M : List (RaftPeer NodeId)} {noChange : Prop}
  {g g' : Ledger NodeId (RaftLogEntry NodeId Cmd)} {u v : NodeId} {n : Node NodeId Cmd}
  {S : Setup NodeId} {l : Label} {out : List (Msg NodeId Cmd)} {s s' : Cluster NodeId Cmd}

/-- Events of runs without membership changes and restarts. -/
def Event.CrashStop (e : Event NodeId Cmd) : Prop := e.NoMembership ∧ e.label ≠ .restart

omit [LinearOrder NodeId] in
theorem covers_crashStop : Covers True (Event.CrashStop : Event NodeId Cmd → Prop) :=
  fun _ he => ⟨he.2, fun _ => he.1.label, fun h => absurd trivial h⟩

/-! ## Commit indexes -/

theorem indexes_mono {allowed : Event NodeId Cmd → Prop} (hc : ∀ e, allowed e → e.label ≠ .restart)
    (h : Runs.Reachable (step S) allowed s s') (v : NodeId) :
    (s.nodes v).commitIndex ≤ (s'.nodes v).commitIndex ∧
    (s.nodes v).lastApplied ≤ (s'.nodes v).lastApplied := by
  refine node_micro (P := fun v n => (s.nodes v).commitIndex ≤ n.commitIndex ∧
    (s.nodes v).lastApplied ≤ n.lastApplied) h (fun _ => ⟨le_rfl, le_rfl⟩) ?_ v
  intro net now u n l n' out hl hle hm
  have hne : l ≠ .restart := by
    rcases hl with rfl | ⟨e, he, rfl⟩
    · exact Label.noConfusion
    · exact hc e he
  have hstep := hm.indexes_le hne
  exact ⟨hle.1.trans hstep.1, hle.2.trans hstep.2⟩

/-! ## Agreement -/

/-- Entries handed to the FSMs of two nodes at one index are the same. -/
theorem Rel.handed_agree (h : Rel M noChange g s) {e e' : RaftLogEntry NodeId Cmd}
    {r r' : ApplyResult}
    (he : .handed e r ∈ (s.nodes u).trace) (he' : .handed e' r' ∈ (s.nodes v).trace)
    (hidx : e.index = e'.index) : e = e' := by
  obtain ⟨T, k, hc, hpos, hk, hget⟩ := (h.nodes u).trace.handed e r he
  obtain ⟨T', k', hc', -, hk', hget'⟩ := (h.nodes v).trace.handed e' r' he'
  have hagree := h.record.inv.commits_agree hc hc' (e.index - 1) (Nat.zero_le _) (by omega)
  rw [hget, hidx, hget'] at hagree
  exact Option.some.inj hagree

/-- The committed part of a node's log does not change. -/
theorem Rel.committed_same (h : Rel M noChange g s) (h' : Rel M noChange g' s') (hle : Le g g')
    (hci : (s.nodes v).commitIndex ≤ (s'.nodes v).commitIndex) :
    EqOn 0 (s.nodes v).commitIndex (g.log v) (g'.log v) := by
  have hold := (h.nodes v).commit.mono h.record.inv hle le_rfl
  have hagree := h'.record.inv.committed_agree hold (h'.nodes v).commit
  rwa [min_eq_left hci] at hagree

/-- **State-machine safety.** -/
theorem state_machine_safety (hS : S.Agreed M) (h : Reachable S Event.CrashStop s) :
    (∀ u v e e' r r', .handed e r ∈ (s.nodes u).trace → .handed e' r' ∈ (s.nodes v).trace →
      e.index = e'.index → e = e') ∧
    ∀ s', Runs.Reachable (step S) Event.CrashStop s s' → ∀ v,
      (s.nodes v).commitIndex ≤ (s'.nodes v).commitIndex ∧
      ∀ i ≤ (s.nodes v).commitIndex,
        ((s.nodes v).logBase < i → (s'.nodes v).logBase < i →
          ∃ e, (s.nodes v).logEntry i = some e ∧ (s'.nodes v).logEntry i = some e) ∧
        ((s.nodes v).logBase ≤ i → (s'.nodes v).logBase ≤ i →
          (s'.nodes v).getLogTerm i = (s.nodes v).getLogTerm i) := by
  obtain ⟨g, hg⟩ := h.rel hS covers_crashStop
  refine ⟨fun u v e e' r r' he he' hidx => hg.handed_agree he he' hidx, fun s' hrun v => ?_⟩
  obtain ⟨g', hle, hg'⟩ := hg.run hS covers_crashStop hrun
  have hci := (indexes_mono (fun e he => he.2) hrun v).1
  have hsame := hg.committed_same hg' hle hci
  have hlog := (hg.nodes v).log
  have hlog' := (hg'.nodes v).log
  refine ⟨hci, fun i hi => ⟨fun hb hb' => ?_, fun hb hb' => ?_⟩⟩
  · rw [hlog.base] at hb
    rw [hlog'.base] at hb'
    have hlen := hi.trans (hg.record.inv.committed_length (hg.nodes v).commit)
    obtain ⟨e, he, -⟩ := exists_getElem? (F := g.log v) (by omega) hlen
    rw [hlog.logEntry_of_lt hb, hlog'.logEntry_of_lt hb']
    exact ⟨e, he, hsame.get he (by omega)⟩
  · rw [hlog.base] at hb
    rw [hlog'.base] at hb'
    rw [hlog.getLogTerm hb, hlog'.getLogTerm hb']
    exact (termAt_congr (hsame.upTo (by omega))).symm

/-- Node `0` is elected and commits its first entry with node `1`. -/
def trioCommit : List (Event (Fin 3) Unit) :=
  [.electionTimeout 0 true, .handlePreVote 0, .preVoteAnswer 2 true, .finishPreVote 0 true,
    .handleVote 3 true true, .voteAnswer 5 true, .finishVote 0 true, .buildAppend 0 1 0,
    .sendAppend 6,
    .handleAppend 7 {}, .appendAnswer 8 true true]

/-- Both apply it. -/
def trioApply : List (Event (Fin 3) Unit) :=
  [.buildAppend 0 1 1, .sendAppend 9, .handleAppend 10 {}, .startPass 0, .applierStep 0 {},
    .applierStep 0 {}, .startPass 1, .applierStep 1 {}, .applierStep 1 {}]

theorem state_machine_safety_trio : ∃ s s', Runs.run (step trio) trio.init trioCommit = some s ∧
    Runs.run (step trio) s trioApply = some s' ∧ (s.nodes 0).commitIndex = 1 ∧
    .handed ⟨1, 1, .noOp⟩ .ok ∈ (s'.nodes 0).trace ∧
    (∀ e r, .handed e r ∈ (s'.nodes 1).trace → 1 = e.index → ⟨1, 1, .noOp⟩ = e) ∧
    ∃ e, (s.nodes 0).logEntry 1 = some e ∧ (s'.nodes 0).logEntry 1 = some e := by
  have hrun : ((Runs.run (step trio) trio.init trioCommit).any fun s =>
      decide ((s.nodes 0).commitIndex = 1) && decide ((s.nodes 0).logBase = 0) &&
        (Runs.run (step trio) s trioApply).any fun s' => decide ((s'.nodes 0).logBase = 0) &&
          decide (.handed ⟨1, 1, .noOp⟩ .ok ∈ (s'.nodes 0).trace)) = true := by
    decide
  obtain ⟨s, hs, hfacts⟩ := exists_of_any hrun
  simp only [Bool.and_eq_true, decide_eq_true_eq] at hfacts
  obtain ⟨⟨hci, hb⟩, hrest⟩ := hfacts
  obtain ⟨s', hs', hfacts'⟩ := exists_of_any hrest
  simp only [Bool.and_eq_true, decide_eq_true_eq] at hfacts'
  obtain ⟨hb', hhanded⟩ := hfacts'
  have hreach : Reachable trio Event.CrashStop s :=
    .of_run .init (by simp [trioCommit, Event.CrashStop, Event.NoMembership, Event.label]) hs
  have hrun' : Runs.Reachable (step trio) Event.CrashStop s s' :=
    .of_run .init (by simp [trioApply, Event.CrashStop, Event.NoMembership, Event.label]) hs'
  have hreach' : Reachable trio Event.CrashStop s' :=
    .of_run hreach (by simp [trioApply, Event.CrashStop, Event.NoMembership, Event.label]) hs'
  obtain ⟨-, hsame⟩ := state_machine_safety trio_agreed hreach
  obtain ⟨hagree, -⟩ := state_machine_safety trio_agreed hreach'
  refine ⟨s, s', hs, hs', hci, hhanded, fun e r he => hagree 0 1 _ e _ r hhanded he, ?_⟩
  exact ((hsame s' hrun' 0).2 1 hci.ge).1 (by omega) (by omega)

/-- **Leaders are complete**, through compaction and snapshots: whoever leads
holds what was committed before, up to its term, as far as both logs reach. -/
theorem leader_completeness (hS : S.Agreed M) (h : Reachable S Event.CrashStop s)
    (hrun : Runs.Reachable (step S) Event.CrashStop s s') {k : ℕ}
    (hci : k ≤ (s.nodes u).commitIndex)
    (hl : (s'.nodes v).state = .leader) (hT : (s.nodes u).currentTerm ≤ (s'.nodes v).currentTerm) :
    k ≤ (s'.nodes v).lastLogIndex ∧
    ((s.nodes u).logBase < k → (s'.nodes v).logBase < k →
      ∃ e, (s.nodes u).logEntry k = some e ∧ (s'.nodes v).logEntry k = some e) ∧
    ((s.nodes u).logBase ≤ k → (s'.nodes v).logBase ≤ k →
      (s'.nodes v).getLogTerm k = (s.nodes u).getLogTerm k) := by
  obtain ⟨g, hg⟩ := h.rel hS covers_crashStop
  obtain ⟨g', hle, hg'⟩ := hg.run hS covers_crashStop hrun
  have hlog := (hg.nodes u).log
  have hlog' := (hg'.nodes v).log
  have hlead := (hg'.nodes v).lead hl
  have hlen := hci.trans (hg.record.inv.committed_length (hg.nodes u).commit)
  have hc := ((hg.nodes u).commit.anti hci).mono hg.record.inv hle hT
  have heq := hg'.record.inv.committed_llog ⟨v, hlead.leader⟩ hc
  rw [← hlead.log] at heq
  rw [hlog.base, hlog'.base, hlog'.lastLogIndex]
  refine ⟨heq.symm.le_length hlen, fun hb hb' => ?_, fun hb hb' => ?_⟩
  · obtain ⟨e, he, -⟩ := exists_getElem? (by omega) hlen
    rw [hlog.logEntry_of_lt hb, hlog'.logEntry_of_lt hb']
    exact ⟨e, he, heq.get he (by omega)⟩
  · rw [hlog.getLogTerm hb, hlog'.getLogTerm hb']
    exact (termAt_congr heq).symm

/-- Three voters that snapshot after every entry and keep nothing before it. -/
def thrifty : Setup (Fin 3) where
  config _ := ⟨10, 64, 1, 0, true⟩
  members _ := [⟨0, .voter⟩, ⟨1, .voter⟩, ⟨2, .voter⟩]

/-- Node `0` commits its first entry and compacts its log. -/
def thriftyCompact : List (Event (Fin 3) Unit) :=
  trioCommit ++ [.startPass 0] ++ replicate 5 (.applierStep 0 {}) ++
    [.takeSnapshot 0 true [7], .applierStep 0 {}]

/-- Node `2` installs the snapshot and wins the vote of node `1`. -/
def thriftyElection : List (Event (Fin 3) Unit) :=
  [.buildAppend 0 2 1, .openSnapshot 9, .sendSnapshot 10, .handleChunk 11 {}, .recheckInstall 2,
    .finishInstall 2 {}, .tick 20, .electionTimeout 2 true, .handlePreVote 14,
    .preVoteAnswer 15 true,
    .finishPreVote 2 true, .handleVote 17 true true, .voteAnswer 18 true, .finishVote 2 true]

/-- The leader of the second term has the entry of the first by its snapshot only. -/
theorem leader_completeness_thrifty : ∃ s s',
    Runs.run (step thrifty) thrifty.init thriftyCompact = some s ∧
    Runs.run (step thrifty) s thriftyElection = some s' ∧
    (s.nodes 0).logBase = 1 ∧ (s'.nodes 2).logBase = 1 ∧ (s'.nodes 2).state = .leader ∧
    1 ≤ (s'.nodes 2).lastLogIndex ∧ (s'.nodes 2).getLogTerm 1 = (s.nodes 0).getLogTerm 1 := by
  have hrun : ((Runs.run (step thrifty) thrifty.init thriftyCompact).any fun s =>
      decide ((s.nodes 0).commitIndex = 1 ∧ (s.nodes 0).logBase = 1 ∧
        (s.nodes 0).currentTerm = 1) &&
        (Runs.run (step thrifty) s thriftyElection).any fun s' =>
        decide ((s'.nodes 2).state = .leader ∧
          (s'.nodes 2).currentTerm = 2 ∧ (s'.nodes 2).logBase = 1)) = true := by
    decide
  obtain ⟨s, hs, hfacts⟩ := exists_of_any hrun
  simp only [Bool.and_eq_true, decide_eq_true_eq] at hfacts
  obtain ⟨⟨hci, hb, hterm⟩, hrest⟩ := hfacts
  obtain ⟨s', hs', hfacts'⟩ := exists_of_any hrest
  obtain ⟨hl, hterm', hb'⟩ := of_decide_eq_true hfacts'
  have hagreed : thrifty.Agreed [⟨0, .voter⟩, ⟨1, .voter⟩, ⟨2, .voter⟩] := ⟨fun _ => rfl, by decide⟩
  have hreach : Reachable thrifty Event.CrashStop s :=
    .of_run .init
      (by simp [thriftyCompact, trioCommit, Event.CrashStop, Event.NoMembership, Event.label]) hs
  have hlater : Runs.Reachable (step thrifty) Event.CrashStop s s' :=
    .of_run .init (by simp [thriftyElection, Event.CrashStop, Event.NoMembership, Event.label]) hs'
  obtain ⟨hlen, -, hsame⟩ := leader_completeness hagreed hreach hlater hci.ge hl (by omega)
  exact ⟨s, s', hs, hs', hb, hb', hl, hlen, hsame hb.le hb'.le⟩

/-!
## Membership changes

All nodes start from one configuration, and the leader of the day adds and
removes members one at a time. Whoever is elected holds every entry
committed in an earlier term, and no log holds two changes of which neither
is committed.

Voters that elect a leader and voters that committed an entry need not
intersect: between them the configuration may have changed more than once
(`disjoint_quorums`). They do when it changed at most once, and a leader
changes it again only when its last change and an entry of its own term are
committed, which is what the proof of `Ledger.Inv.complete` carries over.
-/

variable {k : ℕ}

/-- Events of runs without snapshots and restarts. -/
def Event.LogOnly (e : Event NodeId Cmd) : Prop := e.label ≠ .snapshot ∧ e.label ≠ .restart

omit [LinearOrder NodeId] in
theorem covers_logOnly : Covers False (Event.LogOnly : Event NodeId Cmd → Prop) :=
  fun _ he => ⟨he.2, fun h => h.elim, fun _ => he.1⟩

/-- The voters of a node's configuration. -/
def Node.voters (n : Node NodeId Cmd) : Finset NodeId := memberVoters n.membershipLatest

/-- The voters of the configuration the first `i` entries of a node's log lead
to from `M`. -/
def Node.votersAfter (M : List (RaftPeer NodeId)) (n : Node NodeId Cmd) (i : ℕ) : Finset NodeId :=
  memberVoters (confOf M (n.log.tail.take i))

/-- Some node holds the entry at or below its commit index. -/
def Cluster.IsCommitted (s : Cluster NodeId Cmd) (e : RaftLogEntry NodeId Cmd) : Prop :=
  ∃ w, e.index ≤ (s.nodes w).commitIndex ∧ (s.nodes w).logEntry e.index = some e

/-- **Voters that committed an entry**: a majority of the leader's configuration
that holds it, with the leader's commit index at it. -/
structure Cluster.CommitQuorum (s : Cluster NodeId Cmd) (v : NodeId) (k : ℕ) (Q : Finset NodeId) :
    Prop where
  leads : (s.nodes v).state = .leader
  commits : (s.nodes v).commitIndex = k
  pos : 0 < k
  majority : IsMajority Q (s.nodes v).voters
  holds : ∀ u ∈ Q, (s.nodes u).logEntry k = (s.nodes v).logEntry k

/-- **Voters that elected a leader**: a majority of its configuration that voted
for it. -/
structure Cluster.ElectionQuorum (s : Cluster NodeId Cmd) (v : NodeId) (Q : Finset NodeId) :
    Prop where
  leads : (s.nodes v).state = .leader
  majority : IsMajority Q (s.nodes v).voters
  voted : ∀ u ∈ Q, s.VotedFor u (s.nodes v).currentTerm v

/-! ## Logs without a base -/

section Whole

variable (h : Rel M False g s)

include h

theorem Rel.base_zero (v : NodeId) : g.base v = 0 := (h.nodes v).base not_false

theorem Rel.whole (v : NodeId) : LogRep (s.nodes v) (g.log v) 0 := h.base_zero v ▸ (h.nodes v).log

theorem Rel.log_tail (v : NodeId) : (s.nodes v).log.tail = g.log v := by
  rw [(h.whole v).log]
  rfl

theorem Rel.logEntry (v : NodeId) (hk : 0 < k) : (s.nodes v).logEntry k = (g.log v)[k - 1]? :=
  (h.whole v).logEntry_of_lt hk

/-- A change in a node's log has its place on record. -/
theorem Rel.getElem?_of_change {e : RaftLogEntry NodeId Cmd} (he : e ∈ (s.nodes v).log)
    (hch : ¬ e.Plain) : 0 < e.index ∧ (g.log v)[e.index - 1]? = some e := by
  rw [(h.whole v).log, mem_cons] at he
  rcases he with rfl | he
  · exact absurd (fun _ hd => by cases hd) hch
  · obtain ⟨i, hi⟩ := mem_iff_getElem?.mp (mem_of_mem_drop he)
    have hidx := (h.whole v).indexed i e hi
    rw [hidx]
    exact ⟨Nat.succ_pos i, hi⟩

/-- **Consecutive configurations of a log are one voter apart.** -/
theorem Rel.adjacent (v : NodeId) (i : ℕ) :
    Adjacent ((s.nodes v).votersAfter M i) ((s.nodes v).votersAfter M (i + 1)) := by
  unfold votersAfter
  rw [h.log_tail]
  cases hx : (g.log v)[i]? with
  | none =>
    have hlen := List.getElem?_eq_none_iff.mp hx
    rw [take_of_length_le hlen, take_of_length_le (by omega)]
    exact Adjacent.refl _
  | some x =>
    have hb := h.base_zero v
    obtain ⟨hled, -, heq⟩ := h.record.inv.log_match v i x (by omega) hx
    rw [hb] at heq
    rw [heq.take_eq, (heq.upTo (Nat.le_succ i)).take_eq]
    exact h.record.inv.conf_step hled i

/-- **Of two changes in a log the first is committed.** -/
theorem Rel.committed_change {e e' : RaftLogEntry NodeId Cmd} (he : e ∈ (s.nodes v).log)
    (he' : e' ∈ (s.nodes v).log) (hlt : e.index < e'.index) (hch : ¬ e.Plain) (hch' : ¬ e'.Plain) :
    s.IsCommitted e := by
  obtain ⟨hpos, hget⟩ := h.getElem?_of_change he hch
  obtain ⟨-, hget'⟩ := h.getElem?_of_change he' hch'
  have hinv := h.record.inv
  obtain ⟨hled, -, heq⟩ := hinv.log_match v _ e' (by rw [h.base_zero]; exact Nat.zero_le _) hget'
  rw [h.base_zero] at heq
  have hx := heq.get hget (by omega)
  have hx' := heq.get hget' (by omega)
  -- the leader that wrote the second change had committed the first
  obtain ⟨k, hk, -, -, hbefore⟩ := hinv.conf_commit hled _ e' hx' hch' rfl
  have hlt' : e.index - 1 < k := hbefore _ e (by omega) hx hch
  obtain ⟨c, -, hck⟩ := h.commits hk
  refine ⟨c, by omega, ?_⟩
  have hagree := hinv.committed_agree (.inr ⟨_, k, hk, le_rfl, le_rfl, EqOn.refl _ _ _⟩)
    (h.nodes c).commit
  rw [h.logEntry c hpos]
  exact hagree.get hx (by omega)

end Whole

/-! ## Leaders and committed entries -/

section Completeness

variable (h : Rel M False g s) (h' : Rel M False g' s') (hle : Le g g')

include h h' hle

/-- A leader holds what was committed before, up to its term. -/
theorem Rel.leader_holds (hk : 0 < k) (hci : k ≤ (s.nodes u).commitIndex)
    (hl : (s'.nodes v).state = .leader) (hT : (s.nodes u).currentTerm ≤ (s'.nodes v).currentTerm) :
    ∃ e, (s.nodes u).logEntry k = some e ∧ (s'.nodes v).logEntry k = some e := by
  have hlead := (h'.nodes v).lead hl
  have hlen : k ≤ (g.log u).length := hci.trans (h.record.inv.committed_length (h.nodes u).commit)
  have hc : g'.Committed (s'.nodes v).currentTerm k (g.log u) :=
    ((h.nodes u).commit.anti hci).mono h.record.inv hle hT
  have heq := h'.record.inv.committed_llog ⟨v, hlead.leader⟩ hc
  obtain ⟨e, he, -⟩ := exists_getElem? hk hlen
  rw [h.logEntry u hk, h'.logEntry v hk, hlead.log]
  exact ⟨e, he, heq.get he (by omega)⟩

/-- A leader already held what a lower term committed afterwards. -/
theorem Rel.leader_held (hk : 0 < k) (hci : k ≤ (s'.nodes u).commitIndex)
    (hl : (s.nodes v).state = .leader) (hT : (s'.nodes u).currentTerm < (s.nodes v).currentTerm) :
    ∃ e, (s'.nodes u).logEntry k = some e ∧ (s.nodes v).logEntry k = some e := by
  have hlead := (h.nodes v).lead hl
  have hT' : g.Led (s.nodes v).currentTerm := ⟨v, hlead.leader⟩
  rcases (h'.nodes u).commit.anti hci with rfl | ⟨Tc, kc, hc, hkc, hTc, heq⟩
  · omega
  · have hcomplete := (h'.record.inv.complete (hle.led hT') Tc kc hc (by omega)).1
    rw [hle.elected hT'] at hcomplete
    have hlen : kc ≤ (g.elected (s.nodes v).currentTerm).length :=
      hcomplete.le_length (h'.record.inv.commit_length hc)
    have hheld : EqOn 0 k (g.elected (s.nodes v).currentTerm) (g.llog (s.nodes v).currentTerm) :=
      (EqOn.of_prefix (h.record.inv.elected_prefix hT')).upTo (hkc.trans hlen)
    have hlen' : k ≤ (g'.log u).length :=
      hci.trans (h'.record.inv.committed_length (h'.nodes u).commit)
    obtain ⟨e, he, -⟩ := exists_getElem? hk hlen'
    rw [h'.logEntry u hk, h.logEntry v hk, hlead.log]
    have hall := (heq.trans (hcomplete.upTo (by omega)).symm).trans hheld
    exact ⟨e, he, hall.get he (by omega)⟩

end Completeness

/-- **Membership changes are safe.** In every run of additions and removals
consecutive configurations of a log are one voter apart and a node's
configuration is the one its log leads to; no log holds two uncommitted
changes; a leader holds every entry that is committed at a lower term, before
or after, or at its own term before; and voters that elected a leader
intersect voters that committed an entry under a configuration at most one
voter apart. -/
theorem membership_safety (hS : S.Agreed M) (h : Reachable S Event.LogOnly s) :
    (∀ v i, Adjacent ((s.nodes v).votersAfter M i) ((s.nodes v).votersAfter M (i + 1))) ∧
    (∀ v, (s.nodes v).voters = (s.nodes v).votersAfter M (s.nodes v).log.length) ∧
    (∀ v, ∀ e ∈ (s.nodes v).log, ∀ e' ∈ (s.nodes v).log, e.index < e'.index → ¬ e.Plain →
      ¬ e'.Plain →
      s.IsCommitted e) ∧
    ∀ s', Runs.Reachable (step S) Event.LogOnly s s' →
      (∀ u v k, 0 < k → k ≤ (s.nodes u).commitIndex → (s'.nodes v).state = .leader →
        (s.nodes u).currentTerm ≤ (s'.nodes v).currentTerm →
        ∃ e, (s.nodes u).logEntry k = some e ∧ (s'.nodes v).logEntry k = some e) ∧
      (∀ u v k, 0 < k → k ≤ (s'.nodes u).commitIndex → (s.nodes v).state = .leader →
        (s'.nodes u).currentTerm < (s.nodes v).currentTerm →
        ∃ e, (s'.nodes u).logEntry k = some e ∧ (s.nodes v).logEntry k = some e) ∧
      ∀ u v k Q Q', s.CommitQuorum u k Q → s'.ElectionQuorum v Q' →
        Adjacent (s.nodes u).voters (s'.nodes v).voters → ∃ w ∈ Q, w ∈ Q' := by
  obtain ⟨g, hg⟩ := h.rel hS covers_logOnly
  refine ⟨hg.adjacent, fun v => ?_, fun v e he e' he' => hg.committed_change he he',
    fun s' hrun => ?_⟩
  · unfold votersAfter
    rw [take_of_length_le (by rw [length_tail]; omega), hg.log_tail]
    exact hg.voters v
  · obtain ⟨g', hle, hg'⟩ := hg.run hS covers_logOnly hrun
    refine ⟨fun u v k hk hci hl hT => hg.leader_holds hg' hle hk hci hl hT,
      fun u v k hk hci hl hT => hg.leader_held hg' hle hk hci hl hT,
        fun u v k Q Q' hc he hadj => ?_⟩
    exact hc.majority.exists_mem_both he.majority hadj

/-- Node `0` is the only voter. -/
def solo : Setup (Fin 3) where
  config _ := ⟨10, 64, 0, 0, false⟩
  members _ := [⟨0, .voter⟩]

theorem solo_agreed : solo.Agreed [⟨0, .voter⟩] := ⟨fun _ => rfl, by decide⟩

/-- Node `0` commits its first entry alone. -/
def soloCommit : List (Event (Fin 3) Unit) :=
  [.electionTimeout 0 true, .finishVote 0 true, .checkCommit 0 true]

/-- Nodes `1` and `2` are added one after the other, and elect node `1`. -/
def soloGrowth : List (Event (Fin 3) Unit) :=
  [.addPeer 0 ⟨1, .voter⟩, .propose 0 true,
    .buildAppend 0 1 1, .sendAppend 1, .handleAppend 2 {}, .appendAnswer 3 true true,
    .buildAppend 0 1 1, .sendAppend 4, .handleAppend 5 {}, .appendAnswer 6 true true,
    .addPeer 0 ⟨2, .voter⟩, .propose 7 true,
    .buildAppend 0 1 2, .sendAppend 8, .handleAppend 9 {}, .appendAnswer 10 true true,
    .tick 20, .electionTimeout 1 true, .handlePreVote 12, .preVoteAnswer 13 true,
    .finishPreVote 1 true, .handleVote 15 true true, .voteAnswer 16 true, .finishVote 1 true]

theorem logOnly_soloCommit : ∀ e ∈ soloCommit, e.LogOnly := by
  simp [soloCommit, Event.LogOnly, Event.label]

theorem logOnly_soloGrowth : ∀ e ∈ soloGrowth, e.LogOnly := by
  simp [soloGrowth, Event.LogOnly, Event.label]

/-- What the run shows, evaluated. -/
theorem solo_run : ∃ s s', Runs.run (step solo) solo.init soloCommit = some s ∧
    Runs.run (step solo) s soloGrowth = some s' ∧ s.CommitQuorum 0 1 {0} ∧
    s'.ElectionQuorum 1 {1, 2} ∧
    (s.nodes 0).currentTerm < (s'.nodes 1).currentTerm := by
  have hrun : ((Runs.run (step solo) solo.init soloCommit).any fun s =>
      decide ((s.nodes 0).state = .leader ∧ (s.nodes 0).commitIndex = 1 ∧
        (s.nodes 0).voters = {0}) &&
        (Runs.run (step solo) s soloGrowth).any fun s' =>
          decide ((s'.nodes 1).state = .leader ∧ (s'.nodes 1).voters = {0, 1, 2} ∧
            (s'.nodes 1).currentTerm = 2 ∧ .voted 2 1 ∈ (s'.nodes 1).trace ∧
            .voted 2 1 ∈ (s'.nodes 2).trace ∧ (s.nodes 0).currentTerm = 1)) = true := by
    decide
  obtain ⟨s, hs, hfacts⟩ := exists_of_any hrun
  simp only [Bool.and_eq_true, decide_eq_true_eq] at hfacts
  obtain ⟨⟨hlead, hci, hvoters⟩, hrest⟩ := hfacts
  obtain ⟨s', hs', hfacts'⟩ := exists_of_any hrest
  simp only [decide_eq_true_eq] at hfacts'
  obtain ⟨hlead', hvoters', hterm', hvote₁, hvote₂, hterm⟩ := hfacts'
  refine ⟨s, s', hs, hs', ⟨hlead, hci, by decide, ?_, by simp⟩, ⟨hlead', ?_, ?_⟩, by omega⟩
  · rw [hvoters]
    decide
  · rw [hvoters']
    decide
  · rw [hterm']
    simpa [Cluster.VotedFor] using ⟨hvote₁, hvote₂⟩

/-- **Voters of a later election and of an earlier commit can be disjoint.** -/
theorem disjoint_quorums : ∃ (s s' : Cluster (Fin 3) Unit) (Q Q' : Finset (Fin 3)),
    Reachable solo Event.LogOnly s ∧ Runs.Reachable (step solo) Event.LogOnly s s' ∧
    s.CommitQuorum 0 1 Q ∧ s'.ElectionQuorum 1 Q' ∧
    (s.nodes 0).currentTerm < (s'.nodes 1).currentTerm ∧ Disjoint Q Q' := by
  obtain ⟨s, s', hs, hs', hc, he, hterm⟩ := solo_run
  exact ⟨s, s', {0}, {1, 2}, .of_run .init logOnly_soloCommit hs,
    .of_run .init logOnly_soloGrowth hs', hc, he, hterm, by decide⟩

/-- The leader elected without node `0` holds the entry node `0` committed
alone. -/
theorem membership_safety_solo : ∃ s s', Runs.run (step solo) solo.init soloCommit = some s ∧
    Runs.run (step solo) s soloGrowth = some s' ∧ s.CommitQuorum 0 1 {0} ∧
    s'.ElectionQuorum 1 {1, 2} ∧
    ∃ e, (s.nodes 0).logEntry 1 = some e ∧ (s'.nodes 1).logEntry 1 = some e := by
  obtain ⟨s, s', hs, hs', hc, he, hterm⟩ := solo_run
  obtain ⟨-, -, -, hruns⟩ := membership_safety solo_agreed (.of_run .init logOnly_soloCommit hs)
  obtain ⟨hholds, -, -⟩ := hruns s' (.of_run .init logOnly_soloGrowth hs')
  exact ⟨s, s', hs, hs', hc, he, hholds 0 1 1 (by decide) hc.commits.ge he.leads hterm.le⟩

end Anubis.Raft
