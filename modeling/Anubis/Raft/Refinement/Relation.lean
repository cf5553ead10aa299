import Anubis.Raft.Helpers.LogRep

/-!
# The cluster and its ledger

`Rel g s` relates a state of the cluster to a ledger of the run that led
there: every node's log is the one on record, past its base; whoever leads
is on record with its log; what nodes and messages claim about commits,
acknowledgements and votes is on record.

Two kinds of runs are covered. In one the configuration never changes
(`noChange`), and nodes compact their logs and exchange snapshots. In the
other it changes, one server at a time, and no snapshot is ever taken, so
every node's base is `0`.

The parts of the relation are stated over the fields of a node they read,
so that an update of other fields keeps them as they are.
-/

namespace Anubis.Raft

open Quorum Ledger List Cluster

variable {NodeId Cmd : Type} [LinearOrder NodeId]
variable {applier : Applier NodeId Cmd} {state : RaftState} {journal : List (Write NodeId Cmd)}
variable {trace : List (Obs NodeId Cmd)} {loop : Loop NodeId} {term : ℕ}

/-- An entry that lists the members it leads to, if it changes them. -/
def RaftLogEntry.Full (entry : RaftLogEntry NodeId Cmd) : Prop :=
  ∀ e, entry.data = .membershipChange e → e.members ≠ []

section Definitions

variable (M : List (RaftPeer NodeId)) (noChange : Prop)
    (g : Ledger NodeId (RaftLogEntry NodeId Cmd))

/-- **The record itself is sound.** A leader counts its own entries as
acknowledged. -/
structure RecordOk : Prop where
  inv : Inv (scheme M) g
  indexed : ∀ {T}, g.Led T → Indexed (g.llog T)
  plain : noChange → ∀ {T}, g.Led T → ∀ e ∈ g.llog T, e.Plain
  full : ∀ {T}, g.Led T → ∀ e ∈ g.llog T, e.Full
  own : ∀ {T c}, g.leader T = some c → ∀ k, (g.elected T).length < k → k ≤ (g.llog T).length →
    (c, T, k) ∈ g.acks

/-- A snapshot of a committed prefix, of a term up to `T`. -/
def SnapshotOk (T index term : ℕ) : Prop :=
  noChange ∧ ∃ Tc kc, (Tc, kc) ∈ g.commits ∧ index ≤ kc ∧ Tc ≤ T ∧ termAt (g.llog Tc) index = term

/-- Each of the first `k` entries of the leader of `T` is acknowledged by `p`
or, where `p` may have compacted it away, committed. -/
def MatchOk (T : ℕ) (p : NodeId) (k : ℕ) : Prop :=
  ∀ i, 0 < i → i ≤ k → (p, T, i) ∈ g.acks ∨ noChange ∧ g.Committed T i (g.llog T)

/-- A request is a stretch of its leader's log. (A leader that has no entry
at the position before it announces term `0` there.) -/
structure AppendOk (src dst : NodeId) (req : AppendEntriesRequest NodeId Cmd) : Prop where
  leader : g.leader req.term = some src
  dst : dst ≠ src
  prev : req.prevLogIndex ≤ (g.llog req.term).length ∧
      req.prevLogTerm = termAt (g.llog req.term) req.prevLogIndex ∨
    0 < req.prevLogIndex ∧ req.prevLogTerm = 0
  entries : ∀ (j : ℕ) (e : RaftLogEntry NodeId Cmd), req.entries[j]? = some e →
    (g.llog req.term)[req.prevLogIndex + j]? = some e
  commit : g.Committed req.term req.leaderCommit (g.llog req.term)

/-- **What a message claims is on record.** -/
def MsgOk : Msg NodeId Cmd → Prop
  | .vote _ req => req.term ≤ g.term req.candidateID ∧
      g.stand req.candidateID req.term = (req.lastLogTerm, req.lastLogIndex)
  | .voteAnswer src req resp =>
    resp.voteGranted = true → (src, req.term, req.candidateID) ∈ g.grants
  | .appendBuilt src dst req => AppendOk g src dst req
  | .append src dst req _ => AppendOk g src dst req
  | .appendAnswer src _ req resp _ => resp.success = true →
      g.Led req.term ∧ MatchOk noChange g req.term src (req.prevLogIndex + req.entries.length)
  | .snapshotOpened src _ snap => SnapshotOk noChange g (g.term src) snap.index snap.term
  | .chunk _ c =>
    SnapshotOk noChange g c.transfer.term c.transfer.snapshot.index c.transfer.snapshot.term
  | .chunkAnswer _ c _ =>
    SnapshotOk noChange g c.transfer.term c.transfer.snapshot.index c.transfer.snapshot.term
  | .change _ c => c.type ≠ .replacePeer
  | _ => True

/-- The configuration in effect is the one the log `F` leads to, and the
committed one is what a committed part of it leads to. -/
structure ConfigOk (latest : List (RaftPeer NodeId)) (latestIndex : ℕ)
    (base : List (RaftPeer NodeId))
    (commitIndex : ℕ) (F : List (RaftLogEntry NodeId Cmd)) : Prop where
  latest : latest = confOf M F
  index : ∀ (i : ℕ) (e : RaftLogEntry NodeId Cmd), F[i]? = some e → ¬ e.Plain → i < latestIndex
  base : ∃ a ≤ commitIndex, base = confOf M (F.take a)

/-- What `applyLoop` holds is committed. -/
def ApplierOk (F : List (RaftLogEntry NodeId Cmd)) (lastApplied commitIndex : ℕ) :
    Applier NodeId Cmd → Prop
  | .idle => True
  | .pass target _ => target ≤ commitIndex
  | .fetched target _ e => target ≤ commitIndex ∧ lastApplied < target ∧ F[lastApplied]? = some e
  | .ran target _ e _ => target ≤ commitIndex ∧ lastApplied < target ∧ F[lastApplied]? = some e
  | .applied target _ e => target ≤ commitIndex ∧ 0 < lastApplied ∧ F[lastApplied - 1]? = some e
  | .skipped target _ e => target ≤ commitIndex ∧ 0 < lastApplied ∧ F[lastApplied - 1]? = some e
  | .failed e => lastApplied < commitIndex ∧ F[lastApplied]? = some e
  | .compacting index => noChange ∧ index ≤ lastApplied

variable (v : NodeId)

/-- **A leader is on record**, with the log it has. Where configurations
change, its commit index past its election log is its own doing. -/
structure LeadOk (term : ℕ) (peers : List (Peer NodeId)) (matchIndex : NodeId → ℕ)
    (noopIndex commitIndex : ℕ) : Prop where
  leader : g.leader term = some v
  log : g.log v = g.llog term
  matched : ∀ p ∈ peers, MatchOk noChange g term p.id (matchIndex p.id)
  noop : (g.elected term).length < noopIndex
  commit : noChange ∨ commitIndex ≤ (g.elected term).length ∨ (term, commitIndex) ∈ g.commits

/-- A campaign asks the voters of the candidate's log, which stays as it was
announced. -/
structure CampaignOk (state : RaftState) (term : ℕ) (loop : Loop NodeId) : Prop where
  asks : ∀ c, loop = .preVote c ∨ loop = .vote c →
    state ≠ .leader ∧ c.Asks v ((scheme M).conf (g.log v))
  counts : ∀ c, loop = .vote c → c.Counts ∧ 0 < c.term ∧ c.term ≤ term ∧ g.leader c.term ≠ some v
  stand : ∀ c, loop = .vote c → g.stand v c.term = position (scheme M) (g.log v) ∧
    ∀ e ∈ g.log v, e.term < c.term
  granted : ∀ c, loop = .vote c → (v, c.term, v) ∈ g.grants ∧
    ∀ u ∈ c.granted, (u, c.term, v) ∈ g.grants

/-- Snapshots a node holds or receives are of committed prefixes. -/
structure SnapshotsOk (term lastApplied : ℕ) (loop : Loop NodeId) (applier : Applier NodeId Cmd)
    (journal : List (Write NodeId Cmd)) : Prop where
  stored : ∀ snap, .snapshot snap ∈ journal → SnapshotOk noChange g term snap.index snap.term
  chunk : ∀ c, loop = .publish c ∨ loop = .restore c → applier = .idle ∧ c.transfer.term ≤ term ∧
    SnapshotOk noChange g c.transfer.term c.transfer.snapshot.index c.transfer.snapshot.term
  restore : ∀ c, loop = .restore c → lastApplied < c.transfer.snapshot.index

/-- An entry at a committed place of a leader's log. -/
def CommittedEntry (e : RaftLogEntry NodeId Cmd) : Prop := ∃ Tc kc, (Tc, kc) ∈ g.commits ∧
  0 < e.index ∧ e.index ≤ kc ∧ (g.llog Tc)[e.index - 1]? = some e

/-- What was observed of a node is on record. -/
structure TraceOk (trace : List (Obs NodeId Cmd)) : Prop where
  elected : ∀ T, .becameLeader T ∈ trace → g.leader T = some v
  committed : ∀ T k t, .committed T k t ∈ trace →
    g.leader T = some v ∧ 0 < k ∧ g.Committed T k (g.llog T)
  handed : ∀ e r, .handed e r ∈ trace → CommittedEntry g e
  changed : ∀ e, .changed e ∈ trace → CommittedEntry g e

/-- **A node as the record has it.** -/
structure NodeOk (n : Node NodeId Cmd) : Prop where
  term : g.term v = n.currentTerm
  voted : ∀ c, (v, n.currentTerm, c) ∈ g.grants → n.votedFor = some c
  log : LogRep n (g.log v) (g.base v)
  base : ¬ noChange → g.base v = 0
  config : ¬ noChange → ConfigOk M n.membershipLatest n.membershipLatestIndex n.membershipBase
    n.commitIndex (g.log v)
  commit : g.Committed n.currentTerm n.commitIndex (g.log v)
  applied : n.logBase ≤ n.lastApplied ∧ n.lastApplied ≤ n.commitIndex
  commitCh : ∀ k ∈ n.commitCh, k ≤ n.commitIndex
  applier : ApplierOk noChange (g.log v) n.lastApplied n.commitIndex n.applier
  lead : n.state = .leader →
    LeadOk noChange g v n.currentTerm n.peers n.matchIndex n.leaderNoopIndex n.commitIndex
  campaign : CampaignOk M g v n.state n.currentTerm n.loop
  snapshots : SnapshotsOk noChange g n.currentTerm n.lastApplied n.loop n.applier n.journal
  trace : TraceOk g v n.trace

/-- **The cluster as the record has it.** -/
structure Rel (s : Cluster NodeId Cmd) : Prop where
  record : RecordOk M noChange g
  nodes : ∀ v, NodeOk M noChange g v (s.nodes v)
  net : ∀ m ∈ s.net, MsgOk noChange g m
  synced : ∀ v, Synced (s.nodes v)
  ids : ∀ v, (s.nodes v).nodeID = v
  fixed : noChange → s.Fixed M
  commits : ∀ {T k}, (T, k) ∈ g.commits → ∃ c, g.leader T = some c ∧ k ≤ (s.nodes c).commitIndex

end Definitions

variable {M : List (RaftPeer NodeId)} {noChange : Prop}
    {g g' : Ledger NodeId (RaftLogEntry NodeId Cmd)}
  {F G : List (RaftLogEntry NodeId Cmd)} {T term' lastApplied : ℕ}

/-! ## Configurations -/

theorem confOf_append (F G : List (RaftLogEntry NodeId Cmd)) :
    confOf M (F ++ G) = confOf (confOf M F) G :=
  foldl_append ..

theorem confOf_plain (h : ∀ e ∈ F, e.Plain) : confOf M F = M := by
  induction F using reverseRecOn with
  | nil => rfl
  | append_singleton F e ih =>
    rw [confOf_append, ih fun e he => h e (by simp [he])]
    exact stepConf_plain (h e (by simp)) M

/-- A log that changes the configuration forgets the one it started from. -/
theorem confOf_eq_or_plain (M M' : List (RaftPeer NodeId)) (h : ∀ e ∈ F, e.Full) :
    confOf M F = confOf M' F ∨ ∀ e ∈ F, e.Plain := by
  induction F using reverseRecOn with
  | nil => exact .inr (by simp)
  | append_singleton F e ih =>
    have hF := ih fun e he => h e (by simp [he])
    rw [confOf_append, confOf_append]
    by_cases hplain : e.Plain
    · rcases hF with heq | hF
      · exact .inl (by rw [heq])
      · refine .inr fun x hx => ?_
        rcases mem_append.mp hx with hx | hx
        · exact hF x hx
        · exact mem_singleton.mp hx ▸ hplain
    · unfold RaftLogEntry.Plain at hplain
      push Not at hplain
      obtain ⟨c, hc⟩ := hplain
      refine .inl ?_
      have hne : c.members ≠ [] := h e (by simp) c hc
      simp [confOf, stepConf, hc, foldMembership, hne]

/-- Starting over from what a part of the log leads to makes no difference. -/
theorem confOf_rebase (h : ∀ e ∈ F, e.Full) (a : ℕ) :
    confOf (confOf M (F.take a)) F = confOf M F := by
  rcases confOf_eq_or_plain (confOf M (F.take a)) M h with heq | hplain
  · exact heq
  · rw [confOf_plain hplain, confOf_plain hplain,
      confOf_plain fun e he => hplain e (mem_of_mem_take he)]

/-! ## A record that grows keeps what it says -/

omit [LinearOrder NodeId] in
theorem termAt_llog (hle : Le g g') {i : ℕ} (hT : g.Led T) (hi : i ≤ (g.llog T).length) :
    termAt (g'.llog T) i = termAt (g.llog T) i :=
  termAt_congr ((EqOn.of_prefix (hle.llog hT)).upTo (by omega)).symm

section Mono

variable (hinv : Inv (scheme M) g) (hle : Le g g')

include hinv hle

theorem SnapshotOk.mono {T' index term : ℕ} (hT : T ≤ T') (h : SnapshotOk noChange g T index term) :
    SnapshotOk noChange g' T' index term := by
  obtain ⟨hno, Tc, kc, hc, hk, hTc, rfl⟩ := h
  refine ⟨hno, Tc, kc, hle.commits hc, hk, hTc.trans hT, ?_⟩
  exact termAt_llog hle (hinv.commit_ok hc).1 (hk.trans (hinv.commit_length hc))

theorem MatchOk.mono {k : ℕ} {p : NodeId} (hT : g.Led T) (h : MatchOk noChange g T p k) :
    MatchOk noChange g' T p k := fun i hi hik =>
  (h i hi hik).imp (hle.acks ·) fun hc => ⟨hc.1, hinv.committed_mono hle hT hc.2⟩

theorem AppendOk.mono {src dst : NodeId} {req : AppendEntriesRequest NodeId Cmd}
    (h : AppendOk g src dst req) : AppendOk g' src dst req := by
  have hT : g.Led req.term := ⟨src, h.leader⟩
  refine ⟨hle.leader h.leader, h.dst, h.prev.imp_left fun hp => ?_, fun j e he => ?_, ?_⟩
  · exact ⟨hp.1.trans (hle.llog_length hT), by rw [termAt_llog hle hT hp.1]; exact hp.2⟩
  · exact hle.llog_get hT (h.entries j e he)
  · exact hinv.committed_mono hle hT h.commit

theorem MsgOk.mono {m : Msg NodeId Cmd} (h : MsgOk noChange g m) : MsgOk noChange g' m := by
  cases m with
  | vote => exact ⟨h.1.trans (hle.term _), (hle.stand h.1).trans h.2⟩
  | voteAnswer => exact fun hyes => hle.grants (h hyes)
  | appendBuilt | append => exact AppendOk.mono hinv hle h
  | appendAnswer =>
    exact fun hok => ⟨hle.led (h hok).1, (h hok).2.mono hinv hle (h hok).1⟩
  | snapshotOpened src => exact SnapshotOk.mono hinv hle (hle.term src) h
  | chunk | chunkAnswer => exact SnapshotOk.mono hinv hle le_rfl h
  | change => exact h
  | preVote | preVoteAnswer | snapshotDue => trivial

theorem SnapshotsOk.mono {term : ℕ} (hterm : term ≤ term')
    (h : SnapshotsOk noChange g term lastApplied loop applier journal) :
    SnapshotsOk noChange g' term' lastApplied loop applier journal where
  stored snap hs := (h.stored snap hs).mono hinv hle hterm
  chunk c hc := ⟨(h.chunk c hc).1, (h.chunk c hc).2.1.trans hterm,
    (h.chunk c hc).2.2.mono hinv hle le_rfl⟩
  restore := h.restore

theorem CommittedEntry.mono {e : RaftLogEntry NodeId Cmd} (h : CommittedEntry g e) :
    CommittedEntry g' e := by
  obtain ⟨Tc, kc, hc, hpos, hk, hx⟩ := h
  exact ⟨Tc, kc, hle.commits hc, hpos, hk, hle.llog_get (hinv.commit_ok hc).1 hx⟩

theorem TraceOk.mono {v : NodeId} (h : TraceOk g v trace) :
    TraceOk g' v trace where
  elected T hT := hle.leader (h.elected T hT)
  committed T k t hk :=
    ⟨hle.leader (h.committed T k t hk).1, (h.committed T k t hk).2.1,
      hinv.committed_mono hle ⟨v, (h.committed T k t hk).1⟩ (h.committed T k t hk).2.2⟩
  handed e r he := (h.handed e r he).mono hinv hle
  changed e he := (h.changed e he).mono hinv hle

/-- A leader keeps its log, and gets no entries it has not written. -/
theorem LeadOk.mono {v : NodeId} {term noop commit : ℕ} {peers : List (Peer NodeId)}
    {matchIndex : NodeId → ℕ} (h : LeadOk noChange g v term peers matchIndex noop commit)
    (hlog : g'.log v = g'.llog term) : LeadOk noChange g' v term peers matchIndex noop commit where
  leader := hle.leader h.leader
  log := hlog
  matched p hp := (h.matched p hp).mono hinv hle ⟨v, h.leader⟩
  noop := by
    rw [hle.elected ⟨v, h.leader⟩]
    exact h.noop
  commit := by
    rw [hle.elected ⟨v, h.leader⟩]
    exact h.commit.imp_right fun hc => hc.imp_right (hle.commits ·)

end Mono

/-- **A node does not notice what others do**, nor what the record keeps of
it. -/
theorem NodeOk.mono {v : NodeId} {n : Node NodeId Cmd} (hinv : Inv (scheme M) g)
    (hk : Ledger.Keeps v g g') (h : NodeOk M noChange g v n) : NodeOk M noChange g' v n where
  term := hk.term.trans h.term
  voted c hc := h.voted c (hk.grants hc)
  log := by
    rw [hk.log, hk.base]
    exact h.log
  base hno := hk.base.trans (h.base hno)
  config hno := by
    rw [hk.log]
    exact h.config hno
  commit := by
    rw [hk.log]
    exact h.commit.mono hinv hk.le le_rfl
  applied := h.applied
  commitCh := h.commitCh
  applier := by
    rw [hk.log]
    exact h.applier
  lead hl := by
    refine (h.lead hl).mono hinv hk.le ?_
    rw [hk.log, hk.llog (h.lead hl).leader]
    exact (h.lead hl).log
  campaign := by
    have hc := h.campaign
    refine ⟨fun c hloop => ?_, fun c hloop => ?_, fun c hloop => ?_, fun c hloop => ?_⟩
    · rw [hk.log]
      exact hc.asks c hloop
    · obtain ⟨hcounts, hpos, hterm, hlead⟩ := hc.counts c hloop
      exact ⟨hcounts, hpos, hterm, fun hl => hlead (hk.leader hl)⟩
    · have hterm : c.term ≤ g.term v := h.term ▸ (hc.counts c hloop).2.2.1
      rw [hk.log, hk.le.stand hterm]
      exact hc.stand c hloop
    · exact ⟨hk.le.grants (hc.granted c hloop).1,
        fun w hw => hk.le.grants ((hc.granted c hloop).2 w hw)⟩
  snapshots := h.snapshots.mono hinv hk.le le_rfl
  trace := h.trace.mono hinv hk.le

variable {S : Setup NodeId} {l : Label} {v : NodeId} {n : Node NodeId Cmd}
  {out : List (Msg NodeId Cmd)} {s : Cluster NodeId Cmd} {net : List (Msg NodeId Cmd)} {now : ℕ}
  {n' : Node NodeId Cmd} {c : Campaign NodeId}

/-- The kinds of changes the two kinds of runs are made of. -/
structure Label.Covered (noChange : Prop) (l : Label) : Prop where
  restart : l ≠ .restart
  change : noChange → l ≠ .change
  snapshot : ¬ noChange → l ≠ .snapshot

/-- Commit and applied indexes only fall in a restart. -/
theorem Micro.indexes_le (hm : Micro S net now v n l n' out) (hl : l ≠ .restart) :
    n.commitIndex ≤ n'.commitIndex ∧ n.lastApplied ≤ n'.lastApplied := by
  cases hm with
  | accept =>
    exact acceptAppend_induct (P := fun m => n.commitIndex ≤ m.commitIndex ∧
      n.lastApplied ≤ m.lastApplied)
      ⟨le_rfl, le_rfl⟩ (fun _ h => h) (fun _ h => h) (fun h => h) (fun h => h)
      fun _ h hlt => ⟨h.1.trans hlt.le, h.2⟩
  | commit _ hcand => exact ⟨(commitCandidate_spec hcand).1.le, le_rfl⟩
  | install => exact ⟨le_max_left _ _, le_max_left _ _⟩
  | restore => exact absurd rfl hl
  | advance | skip => exact ⟨le_rfl, Nat.le_succ _⟩
  | _ => exact ⟨le_rfl, le_rfl⟩

/-- **One node changed**, with the record. -/
theorem Rel.put (h : Rel M noChange g s) (hS : S.Agreed M) (hl : l.Covered noChange)
    (hm : Micro S s.net s.now v (s.nodes v) l n out) (hby : By v g g')
    (hrec : RecordOk M noChange g')
    (hn : NodeOk M noChange g' v n) (hout : ∀ m ∈ out, MsgOk noChange g' m)
    (hcommits : ∀ {T k}, (T, k) ∈ g'.commits → (T, k) ∈ g.commits ∨
      g'.leader T = some v ∧ k ≤ n.commitIndex) : Rel M noChange g' (s.put v n out) := by
  have hsync := hm.synced (fun id => (hS.members id).symm ▸ hS.nodup) (h.synced v)
  have hothers : ∀ u, Synced ((s.put v n out).nodes u) ∧ ((s.put v n out).nodes u).nodeID = u :=
    (forall_put (P := fun u n => Synced n ∧ n.nodeID = u) (Q := fun _ => True)
      (fun u => ⟨h.synced u, h.ids u⟩) (fun _ _ => trivial) ⟨hsync, hm.nodeID.trans (h.ids v)⟩
      fun _ _ => trivial).1
  refine ⟨hrec, fun u => ?_, fun m hmsg => ?_, fun u => (hothers u).1, fun u => (hothers u).2,
    ?_, fun {T k} hk => ?_⟩
  · by_cases hu : u = v
    · subst hu
      rw [put_nodes_self]
      exact hn
    · rw [put_nodes_ne hu]
      exact (h.nodes u).mono h.record.inv (hby.keeps hu)
  · rcases mem_append.mp hmsg with hmsg | hmsg
    · exact (h.net m hmsg).mono h.record.inv hby.le
    · exact hout m hmsg
  · exact fun hno => (h.fixed hno).step hS (hl.change hno) (fun hr => absurd hr hl.restart) hm
  · rcases hcommits hk with hk | ⟨hlead, hk⟩
    · obtain ⟨c, hlead, hk⟩ := h.commits hk
      refine ⟨c, hby.le.leader hlead, ?_⟩
      by_cases hc : c = v
      · subst hc
        rw [put_nodes_self]
        exact hk.trans (hm.indexes_le hl.restart).1
      · rwa [put_nodes_ne hc]
    · exact ⟨v, hlead, by rwa [put_nodes_self]⟩

variable (M noChange g v) in
/-- **A change of node `v` the record can follow**: the node becomes `n` and
sends `out`. New commits are its own. -/
def Follows (n : Node NodeId Cmd) (out : List (Msg NodeId Cmd)) : Prop :=
  ∃ g', By v g g' ∧ RecordOk M noChange g' ∧ NodeOk M noChange g' v n ∧
    (∀ m ∈ out, MsgOk noChange g' m) ∧
    ∀ {T k}, (T, k) ∈ g'.commits → (T, k) ∈ g.commits ∨ g'.leader T = some v ∧ k ≤ n.commitIndex

theorem Follows.quiet (hby : By v g g') (hcommits : g'.commits = g.commits)
    (hr : RecordOk M noChange g')
    (hn : NodeOk M noChange g' v n) (hout : ∀ m ∈ out, MsgOk noChange g' m) :
    Follows M noChange g v n out :=
  ⟨g', hby, hr, hn, hout, fun hk => .inl (hcommits ▸ hk)⟩

theorem Follows.same (hr : RecordOk M noChange g) (hn : NodeOk M noChange g v n)
    (hout : ∀ m ∈ out, MsgOk noChange g m) : Follows M noChange g v n out :=
  .quiet (.refl v g) rfl hr hn hout

theorem Follows.silent (hr : RecordOk M noChange g) (hn : NodeOk M noChange g v n) :
    Follows M noChange g v n [] := .same hr hn (by simp)

section

omit [LinearOrder NodeId]

/-- What is applied lies in the committed part of the log. -/
theorem ApplierOk.congr {commitIndex : ℕ}
    (h : ApplierOk noChange F lastApplied commitIndex applier) (heq : EqOn 0 commitIndex F G)
    (hle : lastApplied ≤ commitIndex) : ApplierOk noChange G lastApplied commitIndex applier := by
  cases applier with
  | fetched | ran | applied | skipped =>
    obtain ⟨h₁, h₂, hx⟩ := h
    exact ⟨h₁, h₂, heq.get hx (by omega)⟩
  | failed =>
    obtain ⟨h₁, hx⟩ := h
    exact ⟨h₁, heq.get hx (by omega)⟩
  | idle => trivial
  | pass | compacting => exact h

theorem SnapshotsOk.other {term lastApplied' : ℕ} {loop loop' : Loop NodeId}
    {applier applier' : Applier NodeId Cmd}
    (h : SnapshotsOk noChange g term lastApplied loop applier journal) (hterm : term = term')
    (hloop : loop'.isInstalling = false) :
    SnapshotsOk noChange g term' lastApplied' loop' applier' journal where
  stored := hterm ▸ h.stored
  chunk c hc := by rcases hc with rfl | rfl <;> cases hloop
  restore c hc := by
    subst hc
    cases hloop

/-- Votes are not what the trace is read for here. -/
theorem TraceOk.voted (h : TraceOk g v trace) (T : ℕ) (c : NodeId) :
    TraceOk g v (trace ++ [.voted T c]) where
  elected T hT := h.elected T (by simpa using hT)
  committed T k t hk := h.committed T k t (by simpa using hk)
  handed e r he := h.handed e r (by simpa using he)
  changed e he := h.changed e (by simpa using he)

/-- Writes that are no snapshots. -/
theorem SnapshotsOk.wrote {term : ℕ}
    {journal ws : List (Write NodeId Cmd)}
    (h : SnapshotsOk noChange g term lastApplied loop applier journal)
    (hws : ∀ snap, .snapshot snap ∉ ws) :
    SnapshotsOk noChange g term lastApplied loop applier (journal ++ ws) where
  stored snap hs := (mem_append.mp hs).elim (h.stored snap) fun hs => absurd hs (hws snap)
  chunk := h.chunk
  restore := h.restore

end

/-! ## Where a node is -/

theorem CampaignOk.other
    (h₁ : ∀ c, loop ≠ .preVote c) (h₂ : ∀ c, loop ≠ .vote c) :
    CampaignOk M g v state term loop where
  asks c hc := (hc.elim (h₁ c) (h₂ c)).elim
  counts c hc := absurd hc (h₂ c)
  stand c hc := absurd hc (h₂ c)
  granted c hc := absurd hc (h₂ c)

theorem CampaignOk.idle : CampaignOk M g v state term .idle :=
  .other nofun nofun

theorem CampaignOk.preVote (hstate : state ≠ .leader)
    (hasks : c.Asks v ((scheme M).conf (g.log v))) : CampaignOk M g v state term (.preVote c) where
  asks c' hc := by
    rcases hc with hc | hc
    · cases hc
      exact ⟨hstate, hasks⟩
    · cases hc
  counts c' hc := by cases hc
  stand c' hc := by cases hc
  granted c' hc := by cases hc

theorem CampaignOk.vote (hstate : state ≠ .leader)
    (hasks : c.Asks v ((scheme M).conf (g.log v)))
    (hcounts : c.Counts ∧ 0 < c.term ∧ c.term ≤ term ∧ g.leader c.term ≠ some v)
    (hstand : g.stand v c.term = position (scheme M) (g.log v) ∧ ∀ e ∈ g.log v, e.term < c.term)
    (hgranted : (v, c.term, v) ∈ g.grants ∧ ∀ u ∈ c.granted, (u, c.term, v) ∈ g.grants) :
    CampaignOk M g v state term (.vote c) where
  asks c' hc := by
    rcases hc with hc | hc
    · cases hc
    · cases hc
      exact ⟨hstate, hasks⟩
  counts c' hc := by
    cases hc
    exact hcounts
  stand c' hc := by
    cases hc
    exact hstand
  granted c' hc := by
    cases hc
    exact hgranted

theorem RecordOk.log_plain (h : RecordOk M noChange g) (hno : noChange) (v : NodeId) :
    ∀ e ∈ g.log v, e.Plain := by
  intro e he
  obtain ⟨T, hT, -, hmem⟩ := h.inv.mem_llog he
  exact h.plain hno hT e hmem

theorem RecordOk.log_full (h : RecordOk M noChange g) (v : NodeId) : ∀ e ∈ g.log v, e.Full := by
  intro e he
  obtain ⟨T, hT, -, hmem⟩ := h.inv.mem_llog he
  exact h.full hT e hmem

/-- The voters a node counts are those of its log's configuration. -/
theorem Rel.voters (h : Rel M noChange g s) (v : NodeId) :
    memberVoters (s.nodes v).membershipLatest = (scheme M).conf (g.log v) := by
  by_cases hno : noChange
  · rw [(h.fixed hno).voters v]
    exact congrArg memberVoters (confOf_plain (h.record.log_plain hno v)).symm
  · exact congrArg memberVoters ((h.nodes v).config hno).latest

/-!
## The configuration a node computes

`refreshMembershipLocked` folds the membership entries of the log over the
committed configuration. As these entries list all members, that is the
configuration the whole log leads to, whichever committed prefix the fold
starts from.
-/

variable {M : List (RaftPeer NodeId)} {noChange : Prop}
    {g : Ledger NodeId (RaftLogEntry NodeId Cmd)} {v : NodeId}

/-- The loop of `refreshMembershipLocked` over a whole log. -/
theorem foldEntry_eq (hF : Indexed F) (base : List (RaftPeer NodeId)) :
    (F.foldl (foldEntry 0) (base, 0)).1 = confOf base F ∧
      ∀ (i : ℕ) (e : RaftLogEntry NodeId Cmd), F[i]? = some e → ¬ e.Plain →
        i < (F.foldl (foldEntry 0) (base, 0)).2 := by
  induction F using reverseRecOn with
  | nil => exact ⟨rfl, fun i e h => by simp at h⟩
  | append_singleton F x ih =>
    have hF' : Indexed F := by
      have := hF.take F.length
      rwa [take_left'] at this
      rfl
    obtain ⟨hconf, hlast⟩ := ih hF'
    have hx : x.index = F.length + 1 := hF F.length x (by simp)
    rw [foldl_append, confOf_append]
    simp only [foldl_cons, foldl_nil]
    -- an entry before the last one was counted before
    have hold : ∀ {i : ℕ} {e : RaftLogEntry NodeId Cmd}, (F ++ [x])[i]? = some e →
        F[i]? = some e ∨ i = F.length ∧ e = x := by
      intro i e he
      rcases lt_trichotomy i F.length with hi | rfl | hi
      · exact .inl (by rwa [getElem?_append_left hi] at he)
      · exact .inr ⟨rfl, by simpa using he.symm⟩
      · rw [getElem?_eq_none (by simp; omega)] at he
        cases he
    generalize F.foldl (foldEntry 0) (base, 0) = acc at hconf hlast ⊢
    change (foldEntry 0 acc x).1 = stepConf (confOf base F) x ∧ _
    by_cases hplain : x.Plain
    · have hacc : [x].foldl (foldEntry 0) acc = acc :=
        Node.Fixed.foldEntry_plain (by simpa using hplain) acc
      simp only [foldl_cons, foldl_nil] at hacc
      rw [hacc, stepConf_plain hplain]
      refine ⟨hconf, fun i e he hch => ?_⟩
      rcases hold he with he | ⟨-, rfl⟩
      · exact hlast i e he hch
      · exact absurd hplain hch
    · unfold RaftLogEntry.Plain at hplain
      push Not at hplain
      obtain ⟨c, hc⟩ := hplain
      have hacc : foldEntry 0 acc x = (foldMembership acc.1 c, x.index) := by
        unfold foldEntry
        rw [hc]
        exact if_neg (by omega)
      rw [hacc]
      refine ⟨by rw [hconf]; simp [stepConf, hc], fun i e he _ => ?_⟩
      have hi : i < (F ++ [x]).length := (List.getElem?_eq_some_iff.mp he).1
      simp only [length_append, length_singleton] at hi
      change i < x.index
      omega

/-- **What a node computes from its log is the log's configuration.** -/
theorem ConfigOk.refresh (hlog : LogRep n F 0) (hfull : ∀ e ∈ F, e.Full) {commitIndex : ℕ}
    (hbase : ∃ a ≤ commitIndex, n.membershipBase = confOf M (F.take a)) :
    ConfigOk M (n.log.foldl (foldEntry n.logBase) (n.membershipBase, 0)).1
      (n.log.foldl (foldEntry n.logBase) (n.membershipBase, 0)).2 n.membershipBase
      commitIndex F := by
  have hfold : n.log.foldl (foldEntry n.logBase) (n.membershipBase, 0) =
      F.foldl (foldEntry 0) (n.membershipBase, 0) := by
    rw [hlog.log, hlog.base]
    rfl
  obtain ⟨hconf, hindex⟩ := foldEntry_eq hlog.indexed n.membershipBase
  rw [hfold]
  refine ⟨?_, hindex, hbase⟩
  obtain ⟨a, -, ha⟩ := hbase
  rw [hconf, ha]
  exact confOf_rebase hfull a

/-- Entries that leave the configuration as it is. -/
theorem ConfigOk.append {latest base : List (RaftPeer NodeId)} {latestIndex commitIndex : ℕ}
    (h : ConfigOk M latest latestIndex base commitIndex F) (hG : ∀ e ∈ G, e.Plain)
    (hcommit : commitIndex ≤ F.length) :
    ConfigOk M latest latestIndex base commitIndex (F ++ G) where
  latest := by rw [confOf_append, confOf_plain hG, h.latest]
  index i e he hch := by
    rcases Nat.lt_or_ge i F.length with hi | hi
    · rw [getElem?_append_left hi] at he
      exact h.index i e he hch
    · rw [getElem?_append_right hi] at he
      exact absurd (hG e (mem_of_getElem? he)) hch
  base := by
    obtain ⟨a, ha, hbase⟩ := h.base
    exact ⟨a, ha, by rw [take_append_of_le_length (ha.trans hcommit)]; exact hbase⟩

theorem ConfigOk.mono {latest base : List (RaftPeer NodeId)}
    {latestIndex commitIndex commitIndex' : ℕ}
    (h : ConfigOk M latest latestIndex base commitIndex F) (hle : commitIndex ≤ commitIndex') :
    ConfigOk M latest latestIndex base commitIndex' F where
  latest := h.latest
  index := h.index
  base := h.base.imp fun _ ha => ⟨ha.1.trans hle, ha.2⟩

/-! ## Peers -/

/-- A peer that stays keeps its match index, a leader's new one starts at
`0`. -/
theorem LeadOk.syncPeers {term noop commit : ℕ} (base latest : List (RaftPeer NodeId))
    (h : LeadOk noChange g v term n.peers n.matchIndex noop commit) (hl : n.state = .leader) :
    LeadOk noChange g v term (n.syncPeers base latest).peers
    (n.syncPeers base latest).matchIndex noop
      commit where
  leader := h.leader
  log := h.log
  matched := by
    intro p hp
    obtain ⟨m, hm, rfl⟩ := mem_map.mp hp
    rw [id_peerFor]
    have hin : m.id ∈ (n.memberUnion base latest).map (·.id) := mem_map_of_mem hm
    change MatchOk noChange g term m.id (n.syncProgress _ 0 n.matchIndex m.id)
    unfold Node.syncProgress
    rw [if_pos hin]
    split
    · intro i hi hi'
      omega
    · rename_i hold
      rw [not_and_not_right] at hold
      obtain ⟨q, hq, hid⟩ := mem_map.mp (hold hl)
      have := h.matched q hq
      rwa [hid] at this
  noop := h.noop
  commit := h.commit

theorem NodeOk.syncPeers (hn : NodeOk M noChange g v n) (base latest : List (RaftPeer NodeId)) :
    NodeOk M noChange g v (n.syncPeers base latest) :=
  { hn with
    log := hn.log.of_same rfl
    lead := fun hl => (hn.lead hl).syncPeers base latest hl }

/-- The node with the configuration of its log. -/
theorem NodeOk.refreshMembership (hn : NodeOk M noChange g v n) (hr : RecordOk M noChange g) :
    NodeOk M noChange g v n.refreshMembership := by
  refine NodeOk.syncPeers (n := { n with
    membershipLatest := (n.log.foldl (foldEntry n.logBase) (n.membershipBase, 0)).1
    membershipLatestIndex := (n.log.foldl (foldEntry n.logBase) (n.membershipBase, 0)).2 }) ?_ _ _
  exact { hn with
    log := hn.log.of_same rfl
    config := fun hno =>
      .refresh (hn.base hno ▸ hn.log) (hr.log_full v) (hn.config hno).base }

end Anubis.Raft
