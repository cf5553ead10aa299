import Anubis.Raft.StateMachineSafety

/-!
# Log matching across snapshots

With a fixed set of voters and nodes that do not come back after a crash, two
logs that have an entry with the same index and term agree below it as far as
both reach, wherever logs are compacted and snapshots installed: above its base,
each entry of a node carries the log of the leader that wrote it.

That terms never fall along a log needs more. An install keeps whatever the log
holds past the snapshot, also entries that are older than the snapshot itself.
Where no install does so, every log is in the order of its terms.
-/

namespace Anubis.Raft

open Quorum Ledger List Node Cluster Option

variable {NodeId Cmd : Type} [LinearOrder NodeId] {M : List (RaftPeer NodeId)} {noChange : Prop}
  {g : Ledger NodeId (RaftLogEntry NodeId Cmd)} {u v : NodeId} {n n' : Node NodeId Cmd}
  {S : Setup NodeId} {l : Label} {out : List (Msg NodeId Cmd)} {s s' : Cluster NodeId Cmd}
  {e : Event NodeId Cmd} {F : List (RaftLogEntry NodeId Cmd)} {b : ℕ}
variable {req : AppendEntriesRequest NodeId Cmd} {x y : RaftLogEntry NodeId Cmd} {i j : ℕ}

/-- The condition on a step: an install does not keep entries past the snapshot that
are of lower terms than the snapshot. -/
def Cluster.meets (s : Cluster NodeId Cmd) : Event NodeId Cmd → Bool
  | .finishInstall id io =>
    match (s.nodes id).loop with
    | .restore c => !io.restore || (s.nodes id).log.all fun e =>
        decide (e.index ≤ c.transfer.snapshot.index) || decide (c.transfer.snapshot.term ≤ e.term)
    | _ => true
  | _ => true

/-- The steps that meet the condition. -/
def careful (S : Setup NodeId) : Cluster NodeId Cmd → Event NodeId Cmd →
    Option (Cluster NodeId Cmd) :=
  Runs.restrict (fun s e => s.meets e = true) (step S)

/-- No entry of the log is of a lower term than its base. -/
def Node.Ascending (n : Node NodeId Cmd) : Prop := ∀ e ∈ n.log, n.logBaseTerm ≤ e.term

/-! ## Terms along a log -/

/-- Above a node's base terms do not fall. -/
theorem Rel.terms_le (h : Rel M noChange g s) (hi : g.base v ≤ i)
    (hij : i ≤ j) (hx : (g.log v)[i]? = some x) (hy : (g.log v)[j]? = some y) :
    x.term ≤ y.term := by
  obtain ⟨hled, -, heq⟩ := h.record.inv.log_match v j y (hi.trans hij) hy
  have hx' := (heq i hi (by omega)).symm.trans hx
  have hy' := (heq j (hi.trans hij) (by omega)).symm.trans hy
  exact h.record.inv.llog_sorted hled i j x y hij hx' hy'

/-- The base of a node is of a term up to its own. -/
theorem NodeOk.baseTerm_le (hr : RecordOk M noChange g) (hn : NodeOk M noChange g v n) :
    n.logBaseTerm ≤ n.currentTerm := by
  rw [hn.log.baseTerm, ← hn.term]
  rcases Nat.eq_zero_or_pos (g.base v) with hzero | hpos
  · rw [hzero]
    exact Nat.zero_le _
  · obtain ⟨e, he, hterm⟩ := exists_getElem? hpos hn.log.le
    rw [← hterm]
    exact hr.inv.log_term_le (mem_of_getElem? he)

section

omit [LinearOrder NodeId]

theorem LogRep.ascending_iff (h : LogRep n F b) :
    n.Ascending ↔ ∀ i x, b ≤ i → F[i]? = some x → termAt F b ≤ x.term := by
  unfold Ascending
  rw [h.log, h.baseTerm]
  constructor
  · intro hasc i x hi hx
    refine hasc x (.tail _ (mem_iff_getElem?.mpr ⟨i - b, ?_⟩))
    rw [getElem?_drop, Nat.add_sub_cancel' hi, hx]
  · intro hle e he
    rcases mem_cons.mp he with rfl | he
    · exact le_rfl
    · obtain ⟨i, hi⟩ := mem_iff_getElem?.mp he
      rw [getElem?_drop] at hi
      exact hle _ e (Nat.le_add_right b i) hi

theorem Node.Ascending.of_mem (h : n.Ascending) (hbase : n'.logBaseTerm = n.logBaseTerm)
    (hlog : ∀ e ∈ n'.log, e ∈ n.log ∨ n.logBaseTerm ≤ e.term) : n'.Ascending := by
  intro e he
  rw [hbase]
  exact (hlog e he).elim (h e) fun hle => hle

theorem Node.Ascending.of_same (h : n.Ascending) (hlog : n'.log = n.log)
    (hbase : n'.logBaseTerm = n.logBaseTerm) : n'.Ascending :=
  h.of_mem hbase fun _ he => .inl (hlog ▸ he)

/-- What a node takes over has the term it came with. -/
theorem exists_of_mem_newEntries {last idx : ℕ} {entries : List (RaftLogEntry NodeId Cmd)}
    {entry : RaftLogEntry NodeId Cmd} (h : entry ∈ newEntries last idx entries) :
    ∃ e ∈ entries, entry.term = e.term := by
  induction entries generalizing idx with
  | nil => cases h
  | cons e rest ih =>
    have hrest : entry ∈ newEntries last (idx + 1) rest →
      ∃ e' ∈ e :: rest, entry.term = e'.term := by
      intro hmem
      obtain ⟨e', he', hterm⟩ := ih hmem
      exact ⟨e', .tail _ he', hterm⟩
    unfold newEntries at h
    split at h
    · rcases mem_cons.mp h with rfl | h
      · exact ⟨e, (.head _), rfl⟩
      · exact hrest h
    · exact hrest h

end

/-- Accepting a request leaves entries of the node and of the request. -/
theorem mem_log_acceptAppend (n : Node NodeId Cmd) (io : AppendIO) (now : ℕ)
    (req : AppendEntriesRequest NodeId Cmd) :
    (n.acceptAppend io now req).1.logBaseTerm = n.logBaseTerm ∧
      ∀ e ∈ (n.acceptAppend io now req).1.log, e ∈ n.log ∨ ∃ e' ∈ req.entries,
        e.term = e'.term := by
  refine acceptAppend_induct (P := fun m => m.logBaseTerm = n.logBaseTerm ∧
    ∀ e ∈ m.log, e ∈ n.log ∨ ∃ e' ∈ req.entries, e.term = e'.term) ⟨rfl, fun _ he => .inl he⟩
    (fun _ h => h) (fun _ h => ⟨h.1, fun e he => h.2 e (mem_of_mem_take he)⟩) (fun h =>
      ⟨h.1, fun e he => ?_⟩)
    (fun h => h) fun _ h _ => h
  rcases mem_append.mp he with he | he
  · exact h.2 e he
  · exact .inr (exists_of_mem_newEntries he)

omit [LinearOrder NodeId] in
/-- A consistent request continues at a place that is not below the base. -/
theorem LogRep.baseTerm_le_prev (h : LogRep n F b) (hasc : n.Ascending)
    (hcons : n.checkLogConsistency req = none) : n.logBaseTerm ≤ req.prevLogTerm := by
  obtain ⟨hb, hlen, hterm⟩ := h.consistent hcons
  rw [h.baseTerm, ← hterm]
  rcases Nat.eq_or_lt_of_le hb with heq | hlt
  · rw [heq]
  · obtain ⟨e, he, hterm'⟩ := exists_getElem? (Nat.zero_lt_of_lt hlt) hlen
    rw [← hterm']
    exact h.ascending_iff.mp hasc _ e (by omega) he

/-- The entries of a request are not of lower terms than the one before them. -/
theorem AppendOk.prevTerm_le {src dst : NodeId} (hinv : Inv (scheme M) g)
    (h : AppendOk g src dst req) {e : RaftLogEntry NodeId Cmd} (he : e ∈ req.entries) :
    req.prevLogTerm ≤ e.term := by
  obtain ⟨j, hj⟩ := mem_iff_getElem?.mp he
  have hled : g.Led req.term := ⟨src, h.leader⟩
  rcases h.prev with ⟨hlen, hterm⟩ | ⟨-, hterm⟩
  · rw [hterm]
    rcases Nat.eq_zero_or_pos req.prevLogIndex with hzero | hpos
    · rw [hzero]
      exact Nat.zero_le _
    · obtain ⟨p, hp, hterm'⟩ := exists_getElem? hpos hlen
      rw [← hterm']
      exact hinv.llog_sorted hled _ _ p e (by omega) hp (h.entries j e hj)
  · rw [hterm]
    exact Nat.zero_le _

/-! ## One step -/

/-- A request that is accepted. -/
theorem Rel.ascending_accept (h : Rel M noChange g s) (hasc : (s.nodes v).Ascending) {src : NodeId}
    {sentAt : ℕ} (hmsg : .append src v req sentAt ∈ s.net) (io : AppendIO)
    (now : ℕ) : ((s.nodes v).acceptAppend io now req).1.Ascending := by
  cases hcons : ((s.nodes v).contacted now req.leaderID).checkLogConsistency req with
  | some =>
    have hsame : ((s.nodes v).acceptAppend io now req).1 =
      (s.nodes v).contacted now req.leaderID := by
      simp only [acceptAppend, hcons]
    rw [hsame]
    exact hasc
  | none =>
    obtain ⟨hbase, hmem⟩ := mem_log_acceptAppend (s.nodes v) io now req
    refine hasc.of_mem hbase fun e he => (hmem e he).imp_right fun ⟨e', he', hterm⟩ => ?_
    have hrep : LogRep ((s.nodes v).contacted now req.leaderID) (g.log v) (g.base v) :=
      (h.nodes v).log.of_same rfl
    have hprev : (s.nodes v).logBaseTerm ≤ req.prevLogTerm := hrep.baseTerm_le_prev hasc hcons
    rw [hterm]
    exact hprev.trans ((h.net _ hmsg : AppendOk g src v req).prevTerm_le h.record.inv he')

/-- **Every small change keeps logs in order**, but installs and restarts. -/
theorem Micro.ascending (h : Rel M noChange g s) (hm : Micro S s.net s.now v (s.nodes v) l n out)
    (hinstall : l ≠ .install) (hrestart : l ≠ .restart) (hasc : (s.nodes v).Ascending) :
    n.Ascending := by
  have hn := h.nodes v
  -- a leader's own entries are of its term
  have hown : ∀ {m : Node NodeId Cmd} {entry : RaftLogEntry NodeId Cmd},
    entry.term = (s.nodes v).currentTerm →
      m.log = (s.nodes v).log ++ [entry] → m.logBaseTerm = (s.nodes v).logBaseTerm →
      m.Ascending := by
    intro m entry hterm hlog hbase
    refine hasc.of_mem hbase fun e he => ?_
    rw [hlog, mem_append, mem_singleton] at he
    refine he.imp_right fun heq => ?_
    rw [heq, hterm]
    exact hn.baseTerm_le h.record
  cases hm with
  | lead | appendCommand | propose => exact hown rfl rfl rfl
  | accept hmsg => exact h.ascending_accept hasc hmsg _ _
  | @compact index pos happlier hbase hlast hpos =>
    have hb : g.base v ≤ (s.nodes v).compactionBase index := by
      rw [← hn.log.base]
      exact hbase.le
    have hlen : (s.nodes v).compactionBase index ≤ (g.log v).length := by
      rw [← hn.log.lastLogIndex]
      exact (compactionBase_le _ _).trans hlast
    have hpos' : pos = (s.nodes v).compactionBase index - g.base v :=
      (some.inj ((hn.log.logPosition hb hlen).symm.trans hpos)).symm
    have hrep : LogRep { s.nodes v with
        lastSnapshotIndex := index, applier := .idle
        log := baseMarker ((s.nodes v).compactionBase index)
          ((s.nodes v).getLogTerm ((s.nodes v).compactionBase index)) :: (s.nodes v).log.drop
          (pos + 1)
        logBase := (s.nodes v).compactionBase index
        logBaseTerm := (s.nodes v).getLogTerm ((s.nodes v).compactionBase index) } (g.log v)
          ((s.nodes v).compactionBase index) :=
      hn.log.compact hb hlen (by rw [hn.log.getLogTerm hb, hpos']) rfl (hn.log.getLogTerm hb)
    refine hrep.ascending_iff.mpr fun i x hi hx => ?_
    have hlt : g.base v < (s.nodes v).compactionBase index := by
      rw [← hn.log.base]
      exact hbase
    obtain ⟨e, he, hterm⟩ := exists_getElem? (Nat.zero_lt_of_lt hlt) hlen
    rw [← hterm]
    exact h.terms_le (by omega) (by omega) he hx
  | install => exact absurd rfl hinstall
  | restore | replay => exact absurd rfl hrestart
  | _ => exact hasc.of_same rfl rfl

theorem Node.Ascending.settleInstall (hasc : n.Ascending) (io : InstallIO)
    (req : InstallSnapshotRequest NodeId) : (n.settleInstall io req).Ascending := by
  unfold Node.settleInstall
  generalize (if req.configuration ≠ [] ∧ io.peers then
    [(.peers (normalizeMembers req.configuration) : Write NodeId Cmd)] else []) = ws
  dsimp only
  split <;> exact hasc

/-- An install that meets the condition. -/
theorem Node.Ascending.finishInstall (hasc : n.Ascending) {c : ChunkSend NodeId}
    {io : InstallIO} {now : ℕ}
    (hmeets : (!io.restore || n.log.all fun e => decide (e.index ≤ c.transfer.snapshot.index) ||
      decide (c.transfer.snapshot.term ≤ e.term)) = true) :
        (n.finishInstall io now c.request).1.Ascending := by
  unfold Node.finishInstall
  dsimp only
  split
  · exact hasc
  · next hrestore =>
    obtain ⟨base, -, heq⟩ := installSnapshot_eq
      { n with restoring := false, incomingSnapshot := none, loop := .idle } now c.request
    have hinstalled : (Node.installSnapshot
        { n with restoring := false, incomingSnapshot := none, loop := .idle } now
        c.request).Ascending := by
      rw [heq]
      intro e he
      rcases mem_cons.mp he with rfl | he
      · exact le_rfl
      · obtain ⟨hmem, hidx⟩ := mem_filter.mp he
        simp only [Bool.not_eq_true, Bool.not_eq_false'] at hrestore
        rw [hrestore, Bool.not_true, Bool.false_or, List.all_eq_true] at hmeets
        have hkept := hmeets e hmem
        simp only [Bool.or_eq_true, decide_eq_true_eq] at hkept hidx
        exact hkept.resolve_left (Nat.not_le_of_lt hidx)
    cases io.hardState with
    | false => exact hinstalled
    | true =>
      generalize Node.installSnapshot
        { n with restoring := false, incomingSnapshot := none, loop := .idle } now c.request = m
        at hinstalled
      exact Ascending.settleInstall (n := m.wrote [.hardState m.hardState]) hinstalled io c.request

/-! ## Every run -/

/-- The record and the order of every log. -/
def Ordered (M : List (RaftPeer NodeId)) (s : Cluster NodeId Cmd) : Prop :=
  (∃ g, Rel M True g s) ∧ ∀ v, (s.nodes v).Ascending

theorem Ordered.clock (h : Ordered M s) (now : ℕ) : Ordered M { s with now := now } :=
  ⟨h.1.imp fun _ hg => hg.clock now, h.2⟩

theorem Ordered.micro (hS : S.Agreed M) (h : Ordered M s) (hl : l.Covered True)
    (hinstall : l ≠ .install)
    (hm : Micro S s.net s.now v (s.nodes v) l n out) : Ordered M (s.put v n out) := by
  obtain ⟨⟨g, hg⟩, hasc⟩ := h
  obtain ⟨g', -, hg'⟩ := hg.micro hS hl hm
  refine ⟨⟨g', hg'⟩, fun u => ?_⟩
  by_cases hu : u = v
  · subst hu
    rw [put_nodes_self]
    exact hm.ascending hg hinstall hl.restart (hasc u)
  · rw [put_nodes_ne hu]
    exact hasc u

theorem Ordered.step (hS : S.Agreed M) (h : Ordered M s) (he : e.CrashStop)
    (hmeets : s.meets e = true) (hstep : step S s e = some s') : Ordered M s' := by
  have hlabel : ∀ {l}, l = .plain ∨ l = e.label → l.Covered True := by
    rintro l (rfl | rfl)
    · exact .plain
    · exact covers_crashStop e he
  rcases step_cases hstep with ⟨d, rfl⟩ | ⟨v, n, out, hacts, rfl⟩
  · exact h.clock _
  · refine Ordered.clock (s := s.put v n out) ?_ (s.now + 1)
    by_cases hinstall : e.label = .install
    · -- an install is looked at as a whole
      obtain ⟨g, hg⟩ : ∃ g, Rel M True g (s.put v n out) :=
        (acts_path hacts).cluster (J := fun s => ∃ g, Rel M True g s) h.1 fun hl ⟨g, hg⟩ hm =>
          (hg.micro hS (hlabel hl) hm).imp fun _ hg' => hg'.2
      refine ⟨⟨g, hg⟩, fun u => ?_⟩
      by_cases hu : u = v
      · subst hu
        rw [put_nodes_self]
        cases hacts with
        | finishInstall hloop =>
          simp only [Cluster.meets, hloop] at hmeets
          exact (h.2 _).finishInstall hmeets
        | _ => cases hinstall
      · rw [put_nodes_ne hu]
        exact h.2 u
    · refine (acts_path hacts).cluster h fun hl h' hm => h'.micro hS (hlabel hl) ?_ hm
      rcases hl with rfl | rfl
      · exact Label.noConfusion
      · exact hinstall

theorem Ordered.run (hS : S.Agreed M) (h : Runs.Reachable (careful S) Event.CrashStop S.init s) :
    Ordered M s := by
  have hinit : Ordered M (S.init : Cluster NodeId Cmd) := by
    refine ⟨⟨_, .init hS⟩, fun v e he => ?_⟩
    rw [show ((S.init : Cluster NodeId Cmd).nodes v).logBaseTerm = 0 from rfl]
    exact Nat.zero_le _
  refine h.invariant hinit fun s e s' _ hs he hstep => ?_
  obtain ⟨hmeets, hstep⟩ := Runs.restrict_eq_some.mp hstep
  exact hs.step hS he hmeets hstep

/-- **Two logs with a common entry agree below it**, as far as both reach. -/
theorem Rel.logs_match (h : Rel M noChange g s) {e e' : RaftLogEntry NodeId Cmd}
    (he : (s.nodes u).logEntry i = some e) (he' : (s.nodes v).logEntry i = some e')
    (hterm : e.term = e'.term)
    (hj : j ≤ i) (hu : (s.nodes u).logBase < j) (hv : (s.nodes v).logBase < j) :
    (s.nodes u).logEntry j = (s.nodes v).logEntry j := by
  -- each log carries the log of the leader that wrote the entry
  have hcarry : ∀ {w : NodeId} {x : RaftLogEntry NodeId Cmd}, (s.nodes w).logEntry i = some x →
      (s.nodes w).logBase < j → (s.nodes w).logEntry j = (g.llog x.term)[j - 1]? := by
    intro w x hx hw
    have hlog := (h.nodes w).log
    rw [hlog.base] at hw
    rw [hlog.logEntry_of_lt (hw.trans_le hj)] at hx
    obtain ⟨-, -, heq⟩ := h.record.inv.log_match w (i - 1) x (by omega) hx
    rw [hlog.logEntry_of_lt hw]
    exact heq (j - 1) (by omega) (by omega)
  rw [hcarry he hu, hcarry he' hv]
  exact congrArg (fun T => (g.llog T)[j - 1]?) hterm

/-- Terms do not fall along a log in order, from its base on. -/
theorem Rel.terms_le_of_ascending (h : Rel M noChange g s) (hasc : (s.nodes v).Ascending)
    (hij : i ≤ j) (hx : (s.nodes v).logEntry i = some x)
    (hy : (s.nodes v).logEntry j = some y) : x.term ≤ y.term := by
  have hlog := (h.nodes v).log
  have hb : g.base v ≤ i := by
    by_contra hlt
    rw [hlog.logEntry_of_base_lt (Nat.lt_of_not_le hlt)] at hx
    cases hx
  rcases Nat.eq_or_lt_of_le hb with rfl | hlt
  · -- the marker of the base
    have hmarker : x = baseMarker (g.base v) (termAt (g.log v) (g.base v)) := by
      rw [Node.logEntry, hlog.logPosition le_rfl hlog.le, bind_some, Nat.sub_self, hlog.log,
        getElem?_cons_zero] at hx
      exact (some.inj hx).symm
    have hmem : y ∈ (s.nodes v).log := by
      rw [Node.logEntry, bind_eq_some_iff] at hy
      obtain ⟨pos, -, hpos⟩ := hy
      exact mem_of_getElem? hpos
    have hle := hasc y hmem
    rw [hlog.baseTerm] at hle
    rw [hmarker]
    exact hle
  · rw [hlog.logEntry_of_lt hlt] at hx
    rw [hlog.logEntry_of_lt (hlt.trans_le hij)] at hy
    exact h.terms_le (by omega) (by omega) hx hy

/-- **Log matching across snapshots**: in every run in which no install keeps entries
of lower terms than its snapshot, two logs with an entry of the same index and term
agree below it as far as both reach, and terms do not fall along any log, its base
included. -/
theorem log_matching (hS : S.Agreed M) (h : Runs.Reachable (careful S) Event.CrashStop S.init s) :
    (∀ u v i e e', (s.nodes u).logEntry i = some e → (s.nodes v).logEntry i = some e' →
      e.term = e'.term →
      ∀ j ≤ i, (s.nodes u).logBase < j → (s.nodes v).logBase < j →
        (s.nodes u).logEntry j = (s.nodes v).logEntry j) ∧
    ∀ v i j x y, i ≤ j → (s.nodes v).logEntry i = some x → (s.nodes v).logEntry j = some y →
      x.term ≤ y.term := by
  obtain ⟨⟨g, hg⟩, hasc⟩ := Ordered.run hS h
  exact ⟨fun u v i e e' he he' hterm j hj hu hv => hg.logs_match he he' hterm hj hu hv,
    fun v i j x y hij hx hy => hg.terms_le_of_ascending (hasc v) hij hx hy⟩

/-- Three voters that take a snapshot of every entry. -/
def snappyTrio : Setup (Fin 3) where
  config _ := ⟨10, 64, 1, 0, false⟩
  members _ := [⟨0, .voter⟩, ⟨1, .voter⟩, ⟨2, .voter⟩]

theorem snappyTrio_agreed : snappyTrio.Agreed [⟨0, .voter⟩, ⟨1, .voter⟩, ⟨2, .voter⟩] :=
    ⟨fun _ => rfl, by decide⟩

/-- Node `0` is elected and writes its first entry. -/
def firstLeader : List (Event (Fin 3) Unit) :=
  [.electionTimeout 0 true, .handlePreVote 0, .preVoteAnswer 2 true, .finishPreVote 0 true,
    .handleVote 3 true true, .voteAnswer 5 true, .finishVote 0 true]

/-- Node `1` is elected after it, commits its first entry with node `2`, takes a
snapshot of it and sends that to node `0`, which installs it. -/
def secondLeader : List (Event (Fin 3) Unit) :=
  [.tick 20, .electionTimeout 1 true, .handlePreVote 7, .preVoteAnswer 8 true,
    .finishPreVote 1 true,
    .handleVote 10 true true, .voteAnswer 11 true, .finishVote 1 true, .buildAppend 1 2 0,
    .sendAppend 12,
    .handleAppend 13 {}, .appendAnswer 14 true true, .startPass 1, .applierStep 1 {},
    .applierStep 1 {},
    .applierStep 1 {}, .applierStep 1 {}, .applierStep 1 {}, .takeSnapshot 1 true [7],
    .applierStep 1 {},
    .buildAppend 1 0 0, .openSnapshot 15, .sendSnapshot 16, .handleChunk 17 {}, .recheckInstall 0,
    .finishInstall 0 {}]

theorem log_matching_snappyTrio : ∃ s, Runs.run (careful snappyTrio) snappyTrio.init
    (firstLeader ++ secondLeader) = some s ∧
    (s.nodes 0).logBase = 1 ∧
    ∀ v i j x y, i ≤ j → (s.nodes v).logEntry i = some x → (s.nodes v).logEntry j = some y →
      x.term ≤ y.term := by
  have hevaluated : ((Runs.run (careful snappyTrio) snappyTrio.init
    (firstLeader ++ secondLeader)).any fun s =>
      decide ((s.nodes 0).logBase = 1)) = true := by
    decide +kernel
  obtain ⟨s, hrun, hbase⟩ := Runs.exists_of_any hevaluated
  have hreach : Runs.Reachable (careful snappyTrio) Event.CrashStop snappyTrio.init s :=
    .of_run .init
      (by simp [firstLeader, secondLeader, Event.CrashStop, Event.NoMembership, Event.label]) hrun
  exact ⟨s, hrun, of_decide_eq_true hbase, (log_matching snappyTrio_agreed hreach).2⟩

/-- **Terms fall along a log**: node `0` also writes a command nobody else gets. It
installs the snapshot of the second leader's entry and keeps the command, which is
of a lower term. -/
theorem terms_fall :
    ((Runs.run (step snappyTrio) snappyTrio.init
      (firstLeader ++ [.submit 0 (), .handleApply 0 true] ++ secondLeader)).any fun s =>
        decide ((s.nodes 0).logBase = 1) && ((s.nodes 0).logEntry 1).any (fun x => x.term = 2) &&
          ((s.nodes 0).logEntry 2).any fun y => y.term = 1) = true := by
  decide +kernel

end Anubis.Raft
