import Anubis.Raft.Helpers.LocalLog
import Anubis.Raft.Refinement.Elections

/-!
# Replication on record

A follower that accepts a request ends up with a log it may come to have
(`Adopts`): its own, or the leader's up to some point past all they share.
What it answers is then an acknowledgement on record, and what the leader
counts as committed is a commit on record.
-/

namespace Anubis.Raft

open Quorum Ledger List Function Node

variable {NodeId Cmd : Type} [LinearOrder NodeId] {M : List (RaftPeer NodeId)} {noChange : Prop}
  {g g' : Ledger NodeId (RaftLogEntry NodeId Cmd)} {v : NodeId} {n : Node NodeId Cmd}
  {net : List (Msg NodeId Cmd)} {L : List (RaftLogEntry NodeId Cmd)}

/-! ## A follower's log after a request -/

section Accept

variable {src : NodeId} {req : AppendEntriesRequest NodeId Cmd} (hr : RecordOk M noChange g)
  (hreq : AppendOk g src v req) (hterm : g.term v = req.term) (hlog : LogRep n (g.log v) (g.base v))
  (hcons : n.checkLogConsistency req = none)

include hreq

omit [LinearOrder NodeId] in
theorem AppendOk.end_le (hprev : req.prevLogIndex ≤ (g.llog req.term).length) :
    req.prevLogIndex + req.entries.length ≤ (g.llog req.term).length := by
  rcases Nat.eq_zero_or_pos req.entries.length with hzero | hpos
  · omega
  · obtain ⟨e, he⟩ : ∃ e, req.entries[req.entries.length - 1]? = some e :=
      ⟨_, getElem?_eq_getElem (by omega)⟩
    have := (List.getElem?_eq_some_iff.mp (hreq.entries _ _ he)).1
    omega

omit [LinearOrder NodeId] in
/-- A log that agrees with the leader's, with the rest of a request. -/
theorem AppendOk.append_rest
    (heq : EqOn 0 L.length L (g.llog req.term)) (hprev : req.prevLogIndex ≤ L.length)
    (hlen : L.length ≤ req.prevLogIndex + req.entries.length) :
    L ++ req.entries.drop (L.length - req.prevLogIndex) =
      (g.llog req.term).take (req.prevLogIndex + req.entries.length) := by
  refine ext_getElem? fun i => ?_
  rw [getElem?_take]
  rcases Nat.lt_or_ge i L.length with hi | hi
  · rw [getElem?_append_left hi, if_pos (by omega)]
    exact heq i (Nat.zero_le _) hi
  · rw [getElem?_append_right hi, getElem?_drop]
    have hpos : L.length - req.prevLogIndex + (i - L.length) = i - req.prevLogIndex := by omega
    rw [hpos]
    split
    · rename_i hlt
      obtain ⟨e, he⟩ : ∃ e, req.entries[i - req.prevLogIndex]? = some e :=
        ⟨_, getElem?_eq_getElem (by omega)⟩
      have hget := hreq.entries _ _ he
      have hsum : req.prevLogIndex + (i - req.prevLogIndex) = i := by omega
      rw [hsum] at hget
      rw [he, hget]
    · exact getElem?_eq_none (by omega)

include hr

theorem AppendOk.index {j : ℕ} {e : RaftLogEntry NodeId Cmd} (he : req.entries[j]? = some e) :
    e.index = req.prevLogIndex + 1 + j := by
  have := hr.indexed ⟨src, hreq.leader⟩ _ _ (hreq.entries j e he)
  omega

include hterm hlog hcons

/-- **A consistent request meets the log**: up to the position before it the
log is the leader's. -/
theorem AppendOk.eqOn_prev : EqOn 0 req.prevLogIndex (g.log v) (g.llog req.term) ∧
    g.base v ≤ req.prevLogIndex ∧ req.prevLogIndex ≤ (g.log v).length ∧
      req.prevLogIndex ≤ (g.llog req.term).length := by
  have hT : g.Led req.term := ⟨src, hreq.leader⟩
  obtain ⟨hb, hlen, hat⟩ := hlog.consistent hcons
  have heq : EqOn 0 req.prevLogIndex (g.log v) (g.llog req.term) := by
    rcases hb.eq_or_lt with heq | hlt
    · rw [← heq]
      exact hr.inv.base_eqOn hterm hT
    · obtain ⟨x, hx, hxt⟩ := exists_getElem? (by omega) hlen
      have hpos : 0 < x.term := hr.inv.log_term_pos (mem_of_getElem? hx)
      rcases hreq.prev with ⟨hle, hprev⟩ | ⟨-, hzero⟩
      · obtain ⟨y, hy, hyt⟩ := exists_getElem? (by omega) hle
        have := hr.inv.eqOn_of_term hterm hT (by omega) hx hy
          (show x.term = y.term by rw [hxt, hyt, hat, hprev])
        exact this.upTo (by omega)
      · omega
  exact ⟨heq, hb, hlen, heq.symm.le_length hlen⟩

/-- An entry of the term the request has there: the log is the leader's up
to it. -/
theorem AppendOk.eqOn_entry {j : ℕ} (hj : j < req.entries.length)
    (hlt : req.prevLogIndex + j < (g.log v).length)
    (hagree : ∀ e own, req.entries[j]? = some e → n.logEntry (req.prevLogIndex + 1 + j) = some own →
      own.term = e.term) :
    EqOn 0 (req.prevLogIndex + j + 1) (g.log v) (g.llog req.term) := by
  obtain ⟨-, hb, -, -⟩ := hreq.eqOn_prev hr hterm hlog hcons
  have he := getElem?_eq_getElem hj
  have hown := getElem?_eq_getElem hlt
  have hidx : req.prevLogIndex + 1 + j - 1 = req.prevLogIndex + j := by omega
  refine hr.inv.eqOn_of_term hterm ⟨src, hreq.leader⟩ (by omega) hown (hreq.entries j _ he)
    (hagree _ _ he ?_)
  rw [hlog.logEntry_of_lt (by omega), hidx, hown]

/-- Without a conflict the two logs agree as far as both go. -/
theorem AppendOk.eqOn_noConflict
    (hconf : n.conflictAt (req.prevLogIndex + 1) req.entries = none) :
    EqOn 0 (min (g.log v).length (req.prevLogIndex + req.entries.length)) (g.log v)
      (g.llog req.term) := by
  obtain ⟨heq, hb, hlen, -⟩ := hreq.eqOn_prev hr hterm hlog hcons
  rcases Nat.lt_or_ge req.prevLogIndex
    (min (g.log v).length (req.prevLogIndex + req.entries.length)) with hlt | hge
  · -- the last position both have
    generalize hm : min (g.log v).length (req.prevLogIndex + req.entries.length) = m at hlt ⊢
    obtain ⟨j, rfl⟩ : ∃ j, m = req.prevLogIndex + j + 1 := ⟨m - req.prevLogIndex - 1, by omega⟩
    exact hreq.eqOn_entry hr hterm hlog hcons (by omega) (by omega) fun _ _ he hown =>
      conflictAt_none hconf he hown
  · exact heq.upTo (by omega)

/-- **A conflict is where the two logs part.** -/
theorem AppendOk.eqOn_conflict {index : ℕ}
    (hconf : n.conflictAt (req.prevLogIndex + 1) req.entries = some index) :
    req.prevLogIndex < index ∧ index ≤ (g.log v).length ∧
      index ≤ req.prevLogIndex + req.entries.length ∧
      EqOn 0 (index - 1) (g.log v) (g.llog req.term) ∧
      ∀ k, EqOn 0 k (g.log v) (g.llog req.term) → k ≤ index - 1 := by
  obtain ⟨heq, hb, hlen, -⟩ := hreq.eqOn_prev hr hterm hlog hcons
  obtain ⟨j, e, own, rfl, he, hown, hne, hbefore⟩ := conflictAt_some hconf
  rw [hlog.logEntry_of_lt (by omega)] at hown
  have hidx : req.prevLogIndex + 1 + j - 1 = req.prevLogIndex + j := by omega
  rw [hidx] at hown ⊢
  have hjlen := (List.getElem?_eq_some_iff.mp he).1
  have hlast := (List.getElem?_eq_some_iff.mp hown).1
  refine ⟨by omega, by omega, by omega, ?_, fun k hk => ?_⟩
  · cases j with
    | zero => exact heq
    | succ j =>
      exact hreq.eqOn_entry hr hterm hlog hcons (by omega) (by omega) fun e own =>
        hbefore j e own (Nat.lt_succ_self j)
  · by_contra hlt
    have hleader : (g.llog req.term)[req.prevLogIndex + j]? = some own :=
      hk.get hown (by omega)
    rw [hreq.entries j e he, Option.some.injEq] at hleader
    exact hne (by rw [hleader])

/-- The log after a truncation. -/
theorem AppendOk.truncated {index : ℕ}
    (hconf : n.conflictAt (req.prevLogIndex + 1) req.entries = some index) :
    Adopts g v req.term ((g.log v).take (index - 1)) ∧
      LogRep (n.truncateLog index) ((g.log v).take (index - 1)) (g.base v) := by
  obtain ⟨-, hb, -, -⟩ := hreq.eqOn_prev hr hterm hlog hcons
  obtain ⟨hprev, hlen, -, heq, hsplit⟩ := hreq.eqOn_conflict hr hterm hlog hcons hconf
  refine ⟨.inr ⟨index - 1, heq.take_eq, fun k _ hk => hsplit k hk⟩, ?_⟩
  refine hlog.truncate (by omega) hlen ?_ rfl rfl
  change n.log.take ((n.logPosition index).getD 0) = _
  rw [hlog.logPosition (by omega) hlen]
  rfl

/-- The log after entries were added that conflict with nothing. -/
theorem AppendOk.extended (hconf : n.conflictAt (req.prevLogIndex + 1) req.entries = none) :
    Adopts g v req.term (g.log v ++ n.missing req) ∧
      LogRep (n.extended (n.missing req)) (g.log v ++ n.missing req) (g.base v) ∧
      EqOn 0 (req.prevLogIndex + req.entries.length) (g.log v ++ n.missing req)
      (g.llog req.term) := by
  obtain ⟨-, -, hlen, hprev⟩ := hreq.eqOn_prev hr hterm hlog hcons
  have heq := hreq.eqOn_noConflict hr hterm hlog hcons hconf
  have hmissing : n.missing req = req.entries.drop ((g.log v).length - req.prevLogIndex) := by
    unfold missing
    rw [newEntries_eq fun j e he => hreq.index hr he, hlog.lastLogIndex]
    congr 1
    omega
  rcases Nat.lt_or_ge (req.prevLogIndex + req.entries.length) (g.log v).length with hlt | hge
  · -- the log already goes past the request
    have hnil : n.missing req = [] := by
      rw [hmissing]
      exact drop_eq_nil_of_le (by omega)
    rw [hnil, append_nil]
    rw [min_eq_right hlt.le] at heq
    refine ⟨.inl rfl, hlog.of_same ?_, heq⟩
    simp [Node.extended]
  · rw [min_eq_left hge] at heq
    have hnew := hreq.append_rest heq hlen hge
    rw [← hmissing] at hnew
    have hindexed : Indexed (g.log v ++ n.missing req) := by
      rw [hnew]
      exact (hr.indexed ⟨src, hreq.leader⟩).take _
    refine ⟨.inr ⟨_, hnew, fun k hk hkeq => ?_⟩, hlog.append hindexed rfl rfl rfl, ?_⟩
    · exact (hkeq.le_length hk).trans hge
    · rw [hnew]
      intro i _ hi
      rw [getElem?_take_of_lt hi]

/-- The log after a conflicting end was replaced. -/
theorem AppendOk.replaced {index : ℕ}
    (hconf : n.conflictAt (req.prevLogIndex + 1) req.entries = some index) :
    Adopts g v req.term ((g.log v).take (index - 1) ++ (n.truncateLog index).missing req) ∧
      LogRep ((n.truncateLog index).extended ((n.truncateLog index).missing req))
        ((g.log v).take (index - 1) ++ (n.truncateLog index).missing req) (g.base v) ∧
      EqOn 0 (req.prevLogIndex + req.entries.length)
        ((g.log v).take (index - 1) ++ (n.truncateLog index).missing req) (g.llog req.term) := by
  obtain ⟨hprev, hlen, hend, heq, hsplit⟩ := hreq.eqOn_conflict hr hterm hlog hcons hconf
  have hcut := (hreq.truncated hr hterm hlog hcons hconf).2
  have hcutlen : ((g.log v).take (index - 1)).length = index - 1 := by
    rw [length_take]
    omega
  have hmissing : (n.truncateLog index).missing req =
      req.entries.drop (((g.log v).take (index - 1)).length - req.prevLogIndex) := by
    unfold missing
    rw [newEntries_eq fun j e he => hreq.index hr he, hcut.lastLogIndex]
    congr 1
    omega
  have hnew := hreq.append_rest (L := (g.log v).take (index - 1))
    (by
      rw [hcutlen]
      intro i _ hi
      rw [getElem?_take_of_lt hi]
      exact heq i (Nat.zero_le _) hi)
    (by omega) (by omega)
  rw [← hmissing] at hnew
  have hindexed : Indexed ((g.log v).take (index - 1) ++ (n.truncateLog index).missing req) := by
    rw [hnew]
    exact (hr.indexed ⟨src, hreq.leader⟩).take _
  refine ⟨.inr ⟨_, hnew, fun k _ hkeq => ?_⟩, hcut.append hindexed rfl rfl rfl, ?_⟩
  · exact (hsplit k hkeq).trans (by omega)
  · rw [hnew]
    intro i _ hi
    rw [getElem?_take_of_lt hi]

end Accept

/-! ## A follower after a request -/

/-- **A follower's log changed** to `L`, the committed part of it did not. -/
theorem NodeOk.relog (hr : RecordOk M noChange g) (hn : NodeOk M noChange g v n)
    (hstate : n.state ≠ .leader) (hidle : n.loop = .idle) (hle : Le g g')
    (hterm : g'.term v = g.term v) (hgrants : g'.grants = g.grants) (hbase : g'.base v = g.base v)
    (hL : g'.log v = L) (heq : EqOn 0 n.commitIndex (g.log v) L)
    {ws : List (Write NodeId Cmd)} (hws : ∀ snap, .snapshot snap ∉ ws)
    {log : List (RaftLogEntry NodeId Cmd)} (hlog : LogRep { n with log := log } L (g.base v))
    {latest : List (RaftPeer NodeId)} {latestIndex : ℕ}
    (hconf : ¬ noChange → ConfigOk M latest latestIndex n.membershipBase n.commitIndex L)
    (waiters : List (ApplyFuture Cmd))
    (resolved : List (ApplyFuture Cmd × Except (FutureError NodeId) Unit)) :
    NodeOk M noChange g' v
      { n with
        log := log, journal := n.journal ++ ws, applyWaiters := waiters, resolved := resolved
        membershipLatest := latest, membershipLatestIndex := latestIndex } := by
  subst hL
  exact { hn with
    term := hterm.trans hn.term
    voted := fun c hc => hn.voted c (hgrants ▸ hc)
    log := hbase ▸ hlog.of_same rfl
    base := fun hno => hbase.trans (hn.base hno)
    config := hconf
    commit := (hn.commit.mono hr.inv hle le_rfl).congr heq.symm
    applier := hn.applier.congr heq hn.applied.2
    lead := fun hl => absurd hl hstate
    campaign := hidle ▸ .idle
    snapshots := (hn.snapshots.mono hr.inv hle le_rfl).wrote hws
    trace := hn.trace.mono hr.inv hle }

theorem RecordOk.adopts_full (hr : RecordOk M noChange g) {T : ℕ} (hT : g.Led T)
    (hL : Adopts g v T L) : ∀ e ∈ L, e.Full := by
  rcases hL with rfl | ⟨q, rfl, -⟩
  · exact hr.log_full v
  · exact fun e he => hr.full hT e (mem_of_mem_take he)

/-- The configuration computed from a changed log, where the committed one
comes from the part that did not change. -/
theorem NodeOk.relog_config (hn : NodeOk M noChange g v n)
    (hfull : ∀ e ∈ L, e.Full) (heq : EqOn 0 n.commitIndex (g.log v) L) {n' : Node NodeId Cmd}
    (hlog : LogRep n' L (g.base v)) (hbase : n'.membershipBase = n.membershipBase)
    (hno : ¬ noChange) :
    ConfigOk M (n'.log.foldl (foldEntry n'.logBase) (n'.membershipBase, 0)).1
      (n'.log.foldl (foldEntry n'.logBase) (n'.membershipBase, 0)).2 n'.membershipBase n.commitIndex
      L := by
  refine .refresh (hn.base hno ▸ hlog) hfull ?_
  obtain ⟨a, ha, hconf⟩ := (hn.config hno).base
  refine ⟨a, ha, ?_⟩
  rw [hbase, hconf, (heq.upTo (by omega)).take_eq]

section

omit [LinearOrder NodeId]

theorem ApplierOk.mono {F : List (RaftLogEntry NodeId Cmd)}
    {lastApplied commitIndex commitIndex' : ℕ}
    {applier : Applier NodeId Cmd} (h : ApplierOk noChange F lastApplied commitIndex applier)
    (hle : commitIndex ≤ commitIndex') : ApplierOk noChange F lastApplied commitIndex' applier := by
  cases applier with
  | idle => trivial
  | pass => exact h.trans hle
  | compacting => exact h
  | failed => exact ⟨h.1.trans_le hle, h.2⟩
  | _ => exact ⟨h.1.trans hle, h.2⟩

theorem storeLogs_no_snapshot (es : List (RaftLogEntry NodeId Cmd)) (snap : Snapshot) :
    .snapshot snap ∉ storeLogs es := by
  simp [storeLogs]

theorem deleteRange_no_snapshot (a b : ℕ) (snap : Snapshot) :
    (.snapshot snap : Write NodeId Cmd) ∉ deleteRange a b := by
  simp [deleteRange]

end

/-- **The commit index moves up** to an index that is committed. -/
theorem NodeOk.moveCommit (hn : NodeOk M noChange g v n) {k : ℕ} (hk : n.commitIndex ≤ k)
    (hc : g.Committed n.currentTerm k (g.log v))
    (hlead : n.state = .leader →
      noChange ∨ k ≤ (g.elected n.currentTerm).length ∨ (n.currentTerm, k) ∈ g.commits)
    {ws : List (Write NodeId Cmd)} (hws : ∀ snap, .snapshot snap ∉ ws)
    {trace : List (Obs NodeId Cmd)} (htrace : TraceOk g v trace) :
    NodeOk M noChange g v
      { n with
        commitIndex := k, journal := n.journal ++ ws, trace := trace
        commitCh := (if n.commitCh.length < 16 then n.commitCh else n.commitCh.tail) ++ [k] } :=
  { hn with
    log := hn.log.of_same rfl
    config := fun hno => (hn.config hno).mono hk
    commit := hc
    applied := ⟨hn.applied.1, hn.applied.2.trans hk⟩
    commitCh := fun i hi => by
      rcases mem_append.mp hi with hi | hi
      · have hmem : i ∈ n.commitCh := by
          split at hi
          · exact hi
          · exact mem_of_mem_tail hi
        exact (hn.commitCh i hmem).trans hk
      · exact (mem_singleton.mp hi).le
    applier := hn.applier.mono hk
    lead := fun hl => { hn.lead hl with commit := hlead hl }
    snapshots := hn.snapshots.wrote hws
    trace := htrace }

theorem NodeOk.updateCommitIndex (hn : NodeOk M noChange g v n) (hstate : n.state ≠ .leader)
    {req : AppendEntriesRequest NodeId Cmd}
    (hc : ∀ k, k ≤ req.leaderCommit → k ≤ req.prevLogIndex + req.entries.length →
      g.Committed n.currentTerm k (g.log v)) (okCommit : Bool) :
    NodeOk M noChange g v (n.updateCommitIndex okCommit req) := by
  rcases updateCommitIndex_cases okCommit with h | ⟨k, hlt, hk, hk', h⟩ <;> rw [h]
  · exact hn
  · exact hn.moveCommit hlt.le (hc k hk hk') (fun hl => absurd hl hstate) (by simp) hn.trace

section Answer

variable {src : NodeId} {req : AppendEntriesRequest NodeId Cmd}

/-- **The record after a request was accepted**: the follower has the log `L`
and acknowledged its entries up to `q`. -/
def afterAccept (g : Ledger NodeId (RaftLogEntry NodeId Cmd)) (v : NodeId) (T q : ℕ)
    (L : List (RaftLogEntry NodeId Cmd)) : Ledger NodeId (RaftLogEntry NodeId Cmd) :=
  (g.setLog v L (g.base v)).ack v T q

theorem log_afterAccept (T q : ℕ) : (afterAccept g v T q L).log v = L :=
  update_self ..

theorem base_afterAccept (T q : ℕ) : (afterAccept g v T q L).base v = g.base v :=
  update_self ..

theorem by_afterAccept (T q : ℕ) : By v g (afterAccept g v T q L) := By.setLog.trans .ack

variable (hr : RecordOk M noChange g) (hreq : AppendOk g src v req) (hterm : g.term v = req.term)

include hr hreq hterm

/-- **What the follower answers is on record.** Entries its log no longer
holds one by one are committed. -/
theorem NodeOk.answer (hn : NodeOk M noChange g v n) : MatchOk noChange
    (afterAccept g v req.term (req.prevLogIndex + req.entries.length) L) req.term v
      (req.prevLogIndex + req.entries.length) := by
  have hT : g.Led req.term := ⟨src, hreq.leader⟩
  intro i hi hiq
  rcases Nat.lt_or_ge (g.base v) i with hlt | hge
  · refine .inl (.inr ⟨rfl, rfl, ?_, hiq⟩)
    rwa [base_setLog]
  · have hno : noChange := by
      by_contra hno
      have := hn.base hno
      omega
    have hc : g.Committed req.term i (g.log v) := (hterm ▸ hr.inv.base_committed v).anti hge
    refine .inr ⟨hno, (hc.congr (hr.inv.committed_llog hT hc).symm).mono hr.inv ?_ le_rfl⟩
    exact (by_afterAccept req.term (req.prevLogIndex + req.entries.length)).le

variable (hL : Adopts g v req.term L)

include hL

theorem RecordOk.adopt : RecordOk M noChange (g.setLog v L (g.base v)) :=
  { hr with inv := hr.inv.adopt hterm ⟨src, hreq.leader⟩ hL }

variable (heq : EqOn 0 (req.prevLogIndex + req.entries.length) L (g.llog req.term))
  (hend : req.prevLogIndex + req.entries.length ≤ (g.llog req.term).length)

include heq hend

theorem RecordOk.accept :
    RecordOk M noChange (afterAccept g v req.term (req.prevLogIndex + req.entries.length) L) := by
  have hr₁ := hr.adopt hreq hterm hL
  have hinv := hr₁.inv.ack (q := req.prevLogIndex + req.entries.length) hterm
    ⟨src, hreq.leader⟩ hend
    (by rwa [log_setLog])
  exact { hr₁ with inv := hinv, own := fun hc k hk hk' => .inl (hr₁.own hc k hk hk') }

/-- **A success**: the follower, with the log the request leaves it with,
moves its commit index and answers. -/
theorem follows_success (hn : NodeOk M noChange g v n) {n' : Node NodeId Cmd}
    (hn' : NodeOk M noChange (afterAccept g v req.term (req.prevLogIndex + req.entries.length) L) v
      n')
    (hstate : n'.state ≠ .leader) (hcur : n'.currentTerm = req.term) (okCommit : Bool)
    (resp : AppendEntriesResponse) (sentAt : ℕ) :
    Follows M noChange g v (n'.updateCommitIndex okCommit req)
      [.appendAnswer v src req resp sentAt] := by
  have hby : By v g (afterAccept g v req.term (req.prevLogIndex + req.entries.length) L) :=
    by_afterAccept _ _
  refine .quiet hby rfl (hr.accept hreq hterm hL heq hend)
    (hn'.updateCommitIndex hstate (fun k hk hk' => ?_) okCommit) fun m hm => ?_
  · rw [hcur]
    refine ((hreq.commit.anti hk).congr ?_).mono hr.inv hby.le le_rfl
    rw [log_afterAccept]
    exact heq.upTo (by omega)
  · rw [mem_singleton.mp hm]
    exact fun _ => ⟨⟨src, hreq.leader⟩, hn.answer hr hreq hterm⟩

end Answer

/-- **A request is answered.** The follower has the log the request leaves it
with, and a success is an acknowledgement on record. -/
theorem follows_accept (hr : RecordOk M noChange g) (hn : NodeOk M noChange g v n)
    (hnet : ∀ m ∈ net, MsgOk noChange g m) {src : NodeId} {req : AppendEntriesRequest NodeId Cmd}
    {sentAt : ℕ} (hmsg : .append src v req sentAt ∈ net) (hidle : n.loop = .idle)
    (hcur : n.currentTerm = req.term) (io : AppendIO) (now : ℕ) :
    Follows M noChange g v (n.acceptAppend io now req).1
      [.appendAnswer v src req (n.acceptAppend io now req).2 sentAt] := by
  have hreq : AppendOk g src v req := hnet _ hmsg
  have hT : g.Led req.term := ⟨src, hreq.leader⟩
  have hterm : g.term v = req.term := hn.term.trans hcur
  -- a leader gets no request of its own term
  have hstate : n.state ≠ .leader := by
    intro hl
    have hlead := (hn.lead hl).leader
    rw [hcur, hreq.leader, Option.some.injEq] at hlead
    exact hreq.dst hlead.symm
  have hm : NodeOk M noChange g v (n.contacted now req.leaderID) :=
    { hn with log := hn.log.of_same rfl }
  have hcases := acceptAppend_cases n io now req
  generalize hmm : n.contacted now req.leaderID = m at hcases hm
  have hmstate : m.state ≠ .leader := hmm ▸ hstate
  have hmidle : m.loop = .idle := hmm ▸ hidle
  have hmcur : m.currentTerm = req.term := hmm ▸ hcur
  generalize (n.acceptAppend io now req).1 = n', (n.acceptAppend io now req).2 = resp at hcases ⊢
  have hrefused : resp.success = false → ∀ (g' : Ledger NodeId (RaftLogEntry NodeId Cmd)),
      ∀ x ∈ [.appendAnswer v src req resp sentAt], MsgOk noChange g' x := by
    intro hno g' x hx
    rw [mem_singleton.mp hx]
    intro hok
    rw [hno] at hok
    cases hok
  have hcommit : ∀ {L}, Adopts g v req.term L → EqOn 0 m.commitIndex (g.log v) L :=
    fun hL => hr.inv.adopt_committed hT hL (hmcur ▸ hm.commit)
  have hend : m.checkLogConsistency req = none → _ := fun hcons =>
    hreq.end_le (hreq.eqOn_prev hr hterm hm.log hcons).2.2.2
  cases hcases with
  | unchanged hno => exact .same hr hm (hrefused hno g)
  | @truncated index _ hcons hconf hno =>
    obtain ⟨hL, hlog⟩ := hreq.truncated hr hterm hm.log hcons hconf
    have hconfig := hm.relog_config (hr.adopts_full hT hL) (hcommit hL) hlog rfl
    have hn' := hm.relog hr hmstate hmidle le_setLog rfl rfl base_setLog log_setLog (hcommit hL)
      (deleteRange_no_snapshot index m.lastLogIndex) (hlog.of_same rfl) hconfig
      (m.truncateLog index).applyWaiters (m.truncateLog index).resolved
    exact .quiet .setLog rfl (hr.adopt hreq hterm hL) (hn'.syncPeers _ _) (hrefused hno _)
  | extended hcons hconf _ _ hquiet =>
    obtain ⟨hL, hlog, heq⟩ := hreq.extended hr hterm hm.log hcons hconf
    have hci : m.commitIndex ≤ (g.log v).length := hr.inv.committed_length hm.commit
    have hn' := hm.relog hr hmstate hmidle (by_afterAccept _ _).le rfl rfl (base_afterAccept _ _)
      (log_afterAccept req.term (req.prevLogIndex + req.entries.length)) (hcommit hL)
      (storeLogs_no_snapshot (m.missing req)) (hlog.of_same rfl)
      (fun hno => (hm.config hno).append hquiet hci) m.applyWaiters m.resolved
    exact follows_success hr hreq hterm hL heq (hend hcons) hm hn' hmstate hmcur _ _ _
  | changed hcons hconf =>
    obtain ⟨hL, hlog, heq⟩ := hreq.extended hr hterm hm.log hcons hconf
    have hconfig := hm.relog_config (hr.adopts_full hT hL) (hcommit hL) hlog rfl
    have hn' := hm.relog hr hmstate hmidle (by_afterAccept _ _).le rfl rfl (base_afterAccept _ _)
      (log_afterAccept req.term (req.prevLogIndex + req.entries.length)) (hcommit hL)
      (storeLogs_no_snapshot (m.missing req)) (hlog.of_same rfl) hconfig m.applyWaiters m.resolved
    exact follows_success hr hreq hterm hL heq (hend hcons) hm (hn'.syncPeers _ _) hmstate hmcur
      _ _ _
  | @replaced index _ hcons hconf =>
    obtain ⟨hL, hlog, heq⟩ := hreq.replaced hr hterm hm.log hcons hconf
    have hconfig := hm.relog_config (hr.adopts_full hT hL) (hcommit hL) hlog rfl
    have hws : ∀ snap, .snapshot snap ∉ deleteRange index m.lastLogIndex ++
        storeLogs ((m.truncateLog index).missing req) := fun snap hmem =>
      (mem_append.mp hmem).elim (deleteRange_no_snapshot _ _ snap) (storeLogs_no_snapshot _ snap)
    have hn' := hm.relog hr hmstate hmidle (by_afterAccept _ _).le rfl rfl (base_afterAccept _ _)
      (log_afterAccept req.term (req.prevLogIndex + req.entries.length)) (hcommit hL)
      hws (hlog.of_same rfl) hconfig
      (m.truncateLog index).applyWaiters (m.truncateLog index).resolved
    have hjournal : (m.truncateLog index).extended ((m.truncateLog index).missing req) =
        { m.truncateLog index with
          log := (m.truncateLog index).log ++ (m.truncateLog index).missing req
          journal := m.journal ++ (deleteRange index m.lastLogIndex ++
            storeLogs ((m.truncateLog index).missing req)) } := by
      rw [← append_assoc]
      rfl
    rw [hjournal]
    exact follows_success hr hreq hterm hL heq (hend hcons) hm (hn'.syncPeers _ _) hmstate hmcur
      _ _ _

/-!
## A leader on record

What a leader makes of answers, when it moves its commit index, what it
writes to its log, and what it sends.
-/

variable {index : ℕ} {cur : List (RaftPeer NodeId)} {c : MembershipChange NodeId}
    (hr : RecordOk M noChange g)
variable (hn : NodeOk M noChange g v n)

/-! ## Answers -/

/-- A peer has as much of the leader's log as it told. -/
theorem NodeOk.matched (hn : NodeOk M noChange g v n) {peer : NodeId} {k : ℕ}
    (hk : n.state = .leader → MatchOk noChange g n.currentTerm peer k) :
    NodeOk M noChange g v { n with matchIndex := update n.matchIndex peer k } := by
  refine { hn with log := hn.log.of_same rfl, lead := fun hl => ?_ }
  have hlead := hn.lead hl
  refine { hlead with matched := fun p hp => ?_ }
  change MatchOk noChange g n.currentTerm p.id (update n.matchIndex peer k p.id)
  by_cases heq : p.id = peer
  · rw [heq, update_self]
    exact hk hl
  · rw [update_of_ne heq]
    exact hlead.matched p hp

/-- What a snapshot covers is committed in the log of a leader from its term
on. -/
theorem SnapshotOk.matched (hinv : Inv (scheme M) g) {T term : ℕ} (hT : g.Led T)
    (h : SnapshotOk noChange g T index term) (peer : NodeId) : MatchOk noChange g T peer index := by
  obtain ⟨hno, Tc, kc, hc, hk, hTc, -⟩ := h
  have heq : EqOn 0 kc (g.llog T) (g.llog Tc) := by
    rcases hTc.eq_or_lt with rfl | hlt
    · exact EqOn.refl _ _ _
    · exact hinv.llog_complete hT hc hlt
  intro i _ hi
  exact .inr ⟨hno, .inr ⟨Tc, kc, hc, hi.trans hk, hTc, heq.upTo (hi.trans hk)⟩⟩

/-! ## Commits -/

/-- The leader with its new commit index, once what it covers is on record as
committed. -/
theorem NodeOk.leaderCommit (hn : NodeOk M noChange g v n) (hstate : n.state = .leader)
    (hlt : n.commitIndex < index) (hc : g.Committed n.currentTerm index (g.llog n.currentTerm))
    (hrec : noChange ∨ (n.currentTerm, index) ∈ g.commits) (now : ℕ) :
    NodeOk M noChange g v (n.committing index now) := by
  have hlead := hn.lead hstate
  refine hn.moveCommit hlt.le (hlead.log ▸ hc) (fun _ => hrec.imp_right .inr) (by simp) ?_
  refine ⟨fun T hT => hn.trace.elected T (by simpa using hT), fun T k t hk => ?_,
    fun e r he => hn.trace.handed e r (by simpa using he),
    fun e he => hn.trace.changed e (by simpa using he)⟩
  rcases mem_append.mp hk with hk | hk
  · exact hn.trace.committed T k t hk
  · cases mem_singleton.mp hk
    exact ⟨hlead.leader, by omega, hc⟩

section

include hr hn

/-- **A commit goes on record**, unless what it covers is committed already:
a peer that installed a snapshot counts for all of it. -/
theorem follows_commit (hsync : Synced n)
    (hid : n.nodeID = v) (hvoters : memberVoters n.membershipLatest = (scheme M).conf (g.log v))
    (hstate : n.state = .leader) (hcand : n.commitCandidate n.lastLogIndex = some index)
    (now : ℕ) :
    Follows M noChange g v (n.committing index now) [] := by
  obtain ⟨hlt, ⟨e, he, hterm⟩, hquorum⟩ := commitCandidate_spec hcand
  have hlead := hn.lead hstate
  have hT : g.Led n.currentTerm := ⟨v, hlead.leader⟩
  have hbase : g.base v < index := by
    have := hn.applied
    rw [hn.log.base] at this
    omega
  rw [hn.log.logEntry_of_lt hbase, hlead.log] at he
  have hown : Own (scheme M) g n.currentTerm index := ⟨e, he, hterm⟩
  have hlen : index ≤ (g.llog n.currentTerm).length := hown.le_length (by omega)
  unfold checkStandardCommit at hquorum
  simp only [Bool.and_eq_true, decide_eq_true_eq] at hquorum
  obtain ⟨Q, hQ, hmem⟩ := hsync.exists_majority (lt_two_mul_of_half_lt hquorum.2)
  rw [hvoters, hlead.log] at hQ
  have hself : (v, n.currentTerm, index) ∈ g.acks := by
    refine hr.own hlead.leader index ?_ hlen
    have := hr.inv.elected_length_le hT he hterm
    omega
  by_cases hall : ∀ u ∈ Q, (u, n.currentTerm, index) ∈ g.acks
  · have hack : AckedBy g n.currentTerm index
        ((scheme M).conf ((g.llog n.currentTerm).take (g.llog n.currentTerm).length)) := by
      rw [take_length]
      exact ⟨Q, hQ, hall⟩
    have hmem : (n.currentTerm, index) ∈ (g.commit n.currentTerm index).commits :=
      Set.mem_insert _ _
    refine ⟨_, .commit, { hr with inv := hr.inv.commit hT hown (by omega) hlen le_rfl hack },
      (hn.mono hr.inv .commit).leaderCommit hstate hlt
        (.inr ⟨_, index, hmem, le_rfl, le_rfl, EqOn.refl _ _ _⟩) (.inr hmem) now, by simp, ?_⟩
    rintro T k (heq | hk)
    · cases heq
      exact .inr ⟨hlead.leader, le_rfl⟩
    · exact .inl hk
  · push Not at hall
    obtain ⟨u, hu, hnone⟩ := hall
    obtain ⟨p, hp, rfl, hmatch⟩ : ∃ p ∈ n.peers, p.id = u ∧
      decide (index ≤ n.matchIndex p.id) = true := by
      rcases hmem u hu with rfl | h
      · rw [hid] at hnone
        exact absurd hself hnone
      · exact h
    obtain ⟨hno, hc⟩ := (hlead.matched p hp index (by omega) (by simpa using hmatch)).resolve_left
      hnone
    exact .silent hr (hn.leaderCommit hstate hlt hc (.inl hno) now)

/-! ## Proposals -/

/-- A command's entry. -/
theorem follows_appendCommand
    (hstate : n.state = .leader) (f : ApplyFuture Cmd) (rest : List (ApplyFuture Cmd)) :
    Follows M noChange g v (storeWaiter { n with
          applyCh := rest
          log := n.log ++ [⟨n.lastLogIndex + 1, n.currentTerm, (f.command.map .command).getD .noOp⟩]
          journal := n.journal ++
            [.putLog ⟨n.lastLogIndex + 1, n.currentTerm, (f.command.map .command).getD .noOp⟩] }
        { f with index := n.lastLogIndex + 1, term := n.currentTerm }) [] := by
  generalize hx : (⟨n.lastLogIndex + 1, n.currentTerm, (f.command.map .command).getD .noOp⟩ :
    RaftLogEntry NodeId Cmd) = x
  have hidx : x.index = n.lastLogIndex + 1 := hx ▸ rfl
  have hterm : x.term = n.currentTerm := hx ▸ rfl
  have hplain : x.Plain := by
    intro e he
    rw [← hx] at he
    cases hf : f.command <;> simp [hf] at he
  have hlead := hn.lead hstate
  have hlast : n.lastLogIndex = (g.llog n.currentTerm).length := by
    rw [hn.log.lastLogIndex, hlead.log]
  have hci : n.commitIndex ≤ (g.log v).length := hr.inv.committed_length hn.commit
  have hr' := hr.append hlead.leader hn.term hlead.log hterm (by rw [hidx, hlast])
    (mayAppend_plain hplain) (fun _ => hplain) fun e he => absurd he (hplain e)
  have hn' := hn.append hr hlead (hn.not_campaigning hstate) hidx
    (fun hno => (hn.config hno).append (by simpa using hplain) hci) n.state
  exact .quiet (.append hlead.leader) rfl hr' { hn' with log := hn'.log.of_same rfl } (by simp)

end

/-- After its removal no member has the ID. -/
theorem notMem_removeMember (h : (cur.map (·.id)).Nodup) (id : NodeId) :
    id ∉ (removeMember cur id).map (·.id) := by
  unfold removeMember
  induction cur with
  | nil => simp
  | cons m ms ih =>
    rw [map_cons, nodup_cons] at h
    by_cases hm : m.id = id
    · rw [eraseP_cons_of_pos (by simpa using hm), ← hm]
      exact h.1
    · rw [eraseP_cons_of_neg (by simpa using hm), map_cons, mem_cons, not_or]
      exact ⟨fun heq => hm heq.symm, ih h.2⟩

/-- **AddPeer and RemovePeer change one voter at most.** -/
theorem adjacent_foldMembership (h : (cur.map (·.id)).Nodup) (htype : c.type ≠ .replacePeer) :
    Adjacent (memberVoters cur) (memberVoters (foldMembership cur ⟨c, []⟩)) := by
  have hremoved : ((removeMember cur c.peer.id).map (·.id)).Nodup :=
    (eraseP_sublist.map _).nodup h
  -- members other than the one that comes or goes
  have hothers : ∀ (extra : List (RaftPeer NodeId)), (∀ m ∈ extra, m = c.peer) →
      ∀ y, y ≠ c.peer.id → (y ∈ memberVoters cur ↔
        y ∈ memberVoters (removeMember cur c.peer.id ++ extra)) := by
    intro extra hextra y hy
    rw [mem_memberVoters, mem_memberVoters]
    constructor
    · rintro ⟨m, hm, hrole, rfl⟩
      refine ⟨m, mem_append_left _ ?_, hrole, rfl⟩
      exact (mem_eraseP_of_neg (by simpa using hy)).mpr hm
    · rintro ⟨m, hm, hrole, rfl⟩
      rcases mem_append.mp hm with hm | hm
      · exact ⟨m, mem_of_mem_eraseP hm, hrole, rfl⟩
      · exact absurd (congrArg (·.id) (hextra m hm)) hy
  refine adjacent_of_agree_off c.peer.id fun y hy => ?_
  unfold foldMembership
  rw [if_neg (by simp)]
  cases ht : c.type with
  | addPeer =>
    have hnodup : ((removeMember cur c.peer.id ++ [c.peer]).map (·.id)).Nodup := by
      rw [map_append, nodup_append]
      refine ⟨hremoved, nodup_singleton _, fun a ha b hb => ?_⟩
      rintro rfl
      rw [map_singleton, mem_singleton] at hb
      exact notMem_removeMember h c.peer.id (hb ▸ ha)
    rw [memberVoters_perm (normalizeMembers_perm hnodup)]
    exact hothers [c.peer] (by simp) y hy
  | removePeer =>
    rw [memberVoters_perm (normalizeMembers_perm hremoved)]
    have := hothers [] (by simp) y hy
    rwa [append_nil] at this
  | replacePeer => exact absurd ht htype

theorem nodup_confOf (hM : (M.map (·.id)).Nodup) (F : List (RaftLogEntry NodeId Cmd)) :
    ((confOf M F).map (·.id)).Nodup := by
  induction F using reverseRecOn with
  | nil => exact hM
  | append_singleton F e ih =>
    rw [confOf_append]
    exact nodup_stepConf ih e

section

include hr hn

/-- **A leader that may propose a change may append it.** What its commit
index covers was committed by itself, by a majority of the configuration in
effect, and includes the last change. -/
theorem NodeOk.mayAppend (hno : ¬ noChange)
    (hstate : n.state = .leader) (hnoop : n.leaderNoopIndex ≤ n.commitIndex)
    (hlast : n.membershipLatestIndex ≤ n.commitIndex) {x : RaftLogEntry NodeId Cmd}
    (hadj : Adjacent ((scheme M).conf (g.log v)) ((scheme M).conf (g.log v ++ [x]))) :
    MayAppend (scheme M) g n.currentTerm x := by
  have hlead := hn.lead hstate
  have hconf := hn.config hno
  have hcommit : (n.currentTerm, n.commitIndex) ∈ g.commits := by
    have := hlead.noop
    exact ((hlead.commit.resolve_left hno).resolve_left (by omega))
  rw [hlead.log] at hadj hconf
  obtain ⟨-, -, -, m, hm, hlen, hacked⟩ := hr.inv.commit_ok hcommit
  have hquiet : Quiet (scheme M) (g.llog n.currentTerm) m (g.llog n.currentTerm).length := by
    intro i x hi _ hx hch
    have := hconf.index i x hx hch
    omega
  refine fun _ => ⟨hadj, n.commitIndex, hcommit, ?_, fun j y hy hch => ?_⟩
  · rwa [← hquiet.conf_eq hlen, take_length] at hacked
  · exact (hconf.index j y hy hch).trans_le hlast

/-- **A membership change enters the leader's log.** -/
theorem follows_propose (hno : ¬ noChange) (hM : (M.map (·.id)).Nodup) (hstate : n.state = .leader)
    (htype : c.type ≠ .replacePeer) (hnoop : n.leaderNoopIndex ≤ n.commitIndex)
    (hlast : n.membershipLatestIndex ≤ n.commitIndex)
    (hmembers : foldMembership n.membershipLatest ⟨c, []⟩ ≠ []) (w : ApplyFuture Cmd) :
    Follows M noChange g v
      (Node.refreshMembership (storeWaiter (n.extended [⟨n.lastLogIndex + 1, n.currentTerm,
        .membershipChange ⟨c, foldMembership n.membershipLatest ⟨c, []⟩⟩⟩]) w)) [] := by
  generalize hx : (⟨n.lastLogIndex + 1, n.currentTerm,
    .membershipChange ⟨c, foldMembership n.membershipLatest ⟨c, []⟩⟩⟩ : RaftLogEntry NodeId Cmd) = x
  have hidx : x.index = n.lastLogIndex + 1 := hx ▸ rfl
  have hterm : x.term = n.currentTerm := hx ▸ rfl
  have hfull : x.Full := by
    intro e he
    rw [← hx] at he
    cases he
    exact hmembers
  have hlead := hn.lead hstate
  have hlast' : n.lastLogIndex = (g.llog n.currentTerm).length := by
    rw [hn.log.lastLogIndex, hlead.log]
  have hci : n.commitIndex ≤ (g.log v).length := hr.inv.committed_length hn.commit
  have hconf := hn.config hno
  have hadj : Adjacent ((scheme M).conf (g.log v)) ((scheme M).conf (g.log v ++ [x])) := by
    have hnext : confOf M (g.log v ++ [x]) =
        normalizeMembers (foldMembership n.membershipLatest ⟨c, []⟩) := by
      rw [confOf_append, ← hconf.latest, ← hx]
      exact if_pos hmembers
    change Adjacent (memberVoters (confOf M (g.log v))) (memberVoters (confOf M (g.log v ++ [x])))
    rw [hnext, memberVoters_perm (normalizeMembers_perm (nodup_foldMembership _ _)), ← hconf.latest]
    refine adjacent_foldMembership ?_ htype
    rw [hconf.latest]
    exact nodup_confOf hM _
  have hr' := hr.append hlead.leader hn.term hlead.log hterm (by rw [hidx, hlast'])
    (hn.mayAppend hr hno hstate hnoop hlast hadj) (fun h => absurd h hno) hfull
  have hfull' : ∀ e ∈ g.log v ++ [x], e.Full := by
    intro e he
    rcases mem_append.mp he with he | he
    · exact hr.log_full v e he
    · exact mem_singleton.mp he ▸ hfull
  have hlog' : LogRep (n.extended [x]) (g.log v ++ [x]) 0 := by
    have hindexed := hn.log.indexed.append_singleton (e := x) (by rw [hidx, hn.log.lastLogIndex])
    exact hn.base hno ▸ hn.log.append hindexed rfl rfl rfl
  have hbase : ∃ a ≤ n.commitIndex, n.membershipBase = confOf M ((g.log v ++ [x]).take a) := by
    obtain ⟨a, ha, hbase⟩ := hconf.base
    exact ⟨a, ha, by rw [take_append_of_le_length (ha.trans hci)]; exact hbase⟩
  have hn' := hn.append hr hlead (hn.not_campaigning hstate) hidx
    (fun _ => ConfigOk.refresh hlog' hfull' hbase) n.state
  refine .quiet (.append hlead.leader) rfl hr' ?_ (by simp)
  refine NodeOk.syncPeers (n := { storeWaiter (n.extended [x]) w with
    membershipLatest := ((n.log ++ [x]).foldl (foldEntry n.logBase) (n.membershipBase, 0)).1
    membershipLatestIndex := ((n.log ++ [x]).foldl (foldEntry n.logBase) (n.membershipBase, 0)).2 })
      ?_ _ _
  exact { hn' with log := hn'.log.of_same rfl }

end

/-! ## What is sent -/

/-- The request for a peer whose next entry is not compacted away. -/
theorem NodeOk.appendOk (hn : NodeOk M noChange g v n)
    (hstate : n.state = .leader) {p : Peer NodeId} (hp : p.id ≠ v) {leaderCommit : ℕ}
    (hcommit : leaderCommit ≤ n.commitIndex) (hneeds : n.needsSnapshot p = false) :
    AppendOk g v p.id (n.appendRequest p leaderCommit) := by
  have hlead := hn.lead hstate
  have hneeds : n.logBase = 0 ∨ n.logBase < p.nextIndex := by
    unfold needsSnapshot at hneeds
    simp only [Bool.and_eq_false_iff, decide_eq_false_iff_not] at hneeds
    omega
  rw [hn.log.base] at hneeds
  have hprev : n.getLogTerm (p.nextIndex - 1) = termAt (g.llog n.currentTerm)
    (p.nextIndex - 1) := by
    rw [hn.log.getLogTerm (by omega), hlead.log]
  -- without a base a next index of 0 counts as 1
  have hentries : n.getEntriesAfter p.nextIndex n.config.maxAppendEntries =
      ((g.llog n.currentTerm).drop (p.nextIndex - 1)).take n.config.maxAppendEntries := by
    rcases Nat.eq_zero_or_pos p.nextIndex with hzero | hpos
    · have hbase : n.logBase = 0 := hn.log.base.trans (by omega)
      have hone : n.getEntriesAfter 0 n.config.maxAppendEntries =
          n.getEntriesAfter 1 n.config.maxAppendEntries := by
        simp [getEntriesAfter, hbase]
      rw [hzero, hone, hn.log.getEntriesAfter (by omega), hlead.log]
    · rw [hn.log.getEntriesAfter (by omega), hlead.log]
  refine ⟨hlead.leader, hp, ?_, fun j e he => ?_, ?_⟩
  · rcases Nat.lt_or_ge (g.llog n.currentTerm).length (p.nextIndex - 1) with hlt | hge
    · exact .inr ⟨(Nat.zero_le _).trans_lt hlt, hprev.trans (termAt_of_length_lt hlt)⟩
    · exact .inl ⟨hge, hprev⟩
  · change (n.getEntriesAfter p.nextIndex n.config.maxAppendEntries)[j]? = some e at he
    rw [hentries, getElem?_take] at he
    split at he
    · rwa [getElem?_drop] at he
    · cases he
  · exact hlead.log ▸ hn.commit.anti hcommit

/-- **What a node sends is on record.** -/
theorem Sends.msgOk {now : ℕ} {m : Msg NodeId Cmd} (hn : NodeOk M noChange g v n) (hsync : Synced n)
    (hid : n.nodeID = v)
    (hnet : ∀ m ∈ net, MsgOk noChange g m) (h : Sends net now v n m) : MsgOk noChange g m := by
  cases h with
  | preVoteAnswer | snapshotDue => trivial
  | voteRefused hno | appendRefused hmsg hno =>
    exact fun hyes => absurd (hno.symm.trans hyes) (by decide)
  | appendBuilt hstate hcommit hp hneeds =>
    exact hn.appendOk hstate (hid ▸ hsync.others _ hp) hcommit hneeds
  | append hmsg => exact hnet (.appendBuilt ..) hmsg
  | snapshotOpened hdisk =>
    have := hn.snapshots.stored _ (Disk.mem_of_snapshot hdisk)
    rwa [← hn.term] at this
  | chunk hmsg =>
    have : SnapshotOk noChange g (g.term v) _ _ := hnet _ hmsg
    rwa [hn.term] at this
  | nextChunk hmsg =>
    have := hnet _ hmsg
    exact this
  | chunkAnswer hchunk =>
    rcases hchunk with hmsg | hloop
    · exact hnet (.chunk ..) hmsg
    · exact (hn.snapshots.chunk _ hloop).2.2
  | change htype => exact htype

end Anubis.Raft
