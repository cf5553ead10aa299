import Anubis.Raft.Refinement.Replication

/-!
# Snapshots and applied entries on record

A snapshot covers what its maker has applied, which is committed. Whoever
installs it replaces a part of its log by committed entries, and whoever
compacts its log moves its base over committed ones. What `applyLoop` hands
to the FSM is committed too.
-/

namespace Anubis.Raft

open Quorum Ledger List

variable {NodeId Cmd : Type} [LinearOrder NodeId] {M : List (RaftPeer NodeId)} {noChange : Prop}
  {g : Ledger NodeId (RaftLogEntry NodeId Cmd)} {v : NodeId} {n : Node NodeId Cmd}
  {net : List (Msg NodeId Cmd)}
variable {entry : RaftLogEntry NodeId Cmd} {trace : List (Obs NodeId Cmd)}
    {applier : Applier NodeId Cmd}
variable {L : List (RaftLogEntry NodeId Cmd)} {c : ChunkSend NodeId} {lastApplied T k : ℕ}

/-! ## Taking and receiving snapshots -/

theorem NodeOk.snapshotOk (hn : NodeOk M noChange g v n) (hno : noChange) {i : ℕ} (hpos : 0 < i)
    (hi : i ≤ n.commitIndex) : SnapshotOk noChange g n.currentTerm i (termAt (g.log v) i) := by
  rcases hn.commit.anti hi with rfl | ⟨Tc, kc, hc, hk, hTc, heq⟩
  · omega
  · exact ⟨hno, Tc, kc, hc, hk, hTc, (termAt_congr heq).symm⟩

section

omit [LinearOrder NodeId]

/-- While `applyLoop` is at work no snapshot is installed. -/
theorem SnapshotsOk.busy {term : ℕ} {loop : Loop NodeId} {journal : List (Write NodeId Cmd)}
    (h : SnapshotsOk noChange g term lastApplied loop applier journal) (hbusy : applier ≠ .idle)
    (lastApplied' : ℕ) (applier' : Applier NodeId Cmd) :
    SnapshotsOk noChange g term lastApplied' loop applier' journal where
  stored := h.stored
  chunk c hc := absurd (h.chunk c hc).1 hbusy
  restore c hc := absurd (h.chunk c (.inr hc)).1 hbusy

/-- **What is handed to the FSM is committed.** -/
theorem TraceOk.hand (h : TraceOk g v trace) (hc : CommittedEntry g entry) (result : ApplyResult) :
    TraceOk g v (trace ++ [.handed entry result]) where
  elected T hT := h.elected T (by simpa using hT)
  committed T k t hk := h.committed T k t (by simpa using hk)
  handed e r he := by
    rcases mem_append.mp he with he | he
    · exact h.handed e r he
    · cases mem_singleton.mp he
      exact hc
  changed e he := h.changed e (by simpa using he)

theorem TraceOk.change (h : TraceOk g v trace) (hc : CommittedEntry g entry) :
    TraceOk g v (trace ++ [.changed entry]) where
  elected T hT := h.elected T (by simpa using hT)
  committed T k t hk := h.committed T k t (by simpa using hk)
  handed e r he := h.handed e r (by simpa using he)
  changed e he := by
    rcases mem_append.mp he with he | he
    · exact h.changed e he
    · cases mem_singleton.mp he
      exact hc

end

variable (hn : NodeOk M noChange g v n)

section

include hn

theorem NodeOk.takeSnapshot (hno : noChange)
    (hloop : n.loop.isInstalling = false) (hnew : max n.logBase n.lastSnapshotIndex < n.lastApplied)
    (image : List UInt8) :
    NodeOk M noChange g v { n with
        journal := n.journal ++ [.snapshot ⟨n.lastApplied, n.getLogTerm n.lastApplied, image⟩]
        applier := .compacting n.lastApplied } := by
  have hbase : g.base v ≤ n.lastApplied := hn.log.base ▸ hn.applied.1
  have hsnap := hn.snapshotOk hno (by omega : 0 < n.lastApplied) hn.applied.2
  rw [← hn.log.getLogTerm hbase] at hsnap
  have hother : SnapshotsOk noChange g n.currentTerm n.lastApplied n.loop
      (.compacting n.lastApplied : Applier NodeId Cmd) n.journal := hn.snapshots.other rfl hloop
  exact { hn with
    log := hn.log.of_same rfl
    applier := ⟨hno, le_rfl⟩
    snapshots :=
      { hother with
        stored := fun snap hs => by
          rcases mem_append.mp hs with hs | hs
          · exact hother.stored snap hs
          · cases mem_singleton.mp hs
            exact hsnap } }

/-- The last chunk of a snapshot is published. -/
theorem NodeOk.publish (hnet : ∀ m ∈ net, MsgOk noChange g m)
    (hmsg : .chunk v c ∈ net) (hterm : c.transfer.term = n.currentTerm)
    (happlier : n.applier = .idle) (data : List UInt8) :
    NodeOk M noChange g v { n with
        loop := .publish c
        journal := n.journal ++
          [.snapshot ⟨c.transfer.snapshot.index, c.transfer.snapshot.term, data⟩] } := by
  have hsnap : SnapshotOk noChange g c.transfer.term c.transfer.snapshot.index
    c.transfer.snapshot.term :=
    hnet _ hmsg
  exact { hn with
    log := hn.log.of_same rfl
    campaign := .other nofun nofun
    snapshots :=
      { stored := fun snap hs => by
          rcases mem_append.mp hs with hs | hs
          · exact hn.snapshots.stored snap hs
          · cases mem_singleton.mp hs
            exact hterm ▸ hsnap
        chunk := fun c' hc => by
          rcases hc with hc | hc
          · cases hc
            exact ⟨happlier, hterm.le, hsnap⟩
          · cases hc
        restore := fun c' hc => by cases hc } }

/-- The FSM is about to be restored from it. -/
theorem NodeOk.recheck (hloop : n.loop = .publish c)
    (happlied : n.lastApplied < c.transfer.snapshot.index) :
    NodeOk M noChange g v { n with restoring := true, loop := .restore c } :=
  { hn with
    log := hn.log.of_same rfl
    campaign := .other nofun nofun
    snapshots :=
      { stored := hn.snapshots.stored
        chunk := fun c' hc => by
          rcases hc with hc | hc
          · cases hc
          · cases hc
            exact hn.snapshots.chunk c (.inl hloop)
        restore := fun c' hc => by
          cases hc
          exact happlied } }

end

/-! ## Moving the base -/

section Install

variable {Tc kc s : ℕ} (hr : RecordOk M noChange g) (hc : (Tc, kc) ∈ g.commits) (hs : s ≤ kc)

include hr hc hs

/-- The snapshot's entries and those past it agree with a committed log. -/
theorem RecordOk.install_eqOn (hL : g.Committed T k L) :
    EqOn 0 k ((g.llog Tc).take s ++ L.drop s) L := by
  have hlen : s ≤ (g.llog Tc).length := hs.trans (hr.inv.commit_length hc)
  have hagree := hr.inv.committed_agree (.inr ⟨Tc, kc, hc, le_rfl, le_rfl, EqOn.refl _ _ _⟩) hL
  intro i hi hik
  rw [getElem?_take_append_drop hlen]
  split
  · exact hagree i hi (by omega)
  · rfl

/-- A leader has what a snapshot covers. -/
theorem RecordOk.install_llog (hT : g.Led T) (hTc : Tc ≤ T) :
    (g.llog Tc).take s ++ (g.llog T).drop s = g.llog T := by
  have heq : EqOn 0 kc (g.llog T) (g.llog Tc) := by
    rcases hTc.eq_or_lt with rfl | hlt
    · exact EqOn.refl _ _ _
    · exact hr.inv.llog_complete hT hc hlt
  rw [← (heq.upTo (by omega)).take_eq, take_append_drop]

/-- The commit index after the install. -/
theorem RecordOk.install_committed (hTc : Tc ≤ T)
    (hL : g.Committed T k L) : g.Committed T (max k s) ((g.llog Tc).take s ++ L.drop s) := by
  have hlen : s ≤ (g.llog Tc).length := hs.trans (hr.inv.commit_length hc)
  rcases le_total k s with hks | hks
  · rw [max_eq_right hks]
    refine .inr ⟨Tc, kc, hc, hs, hTc, fun i _ hi => ?_⟩
    rw [getElem?_take_append_drop hlen, if_pos hi]
  · rw [max_eq_left hks]
    exact hL.congr (hr.install_eqOn hc hs hL)

end Install

/-- **An installed snapshot goes on record**: its entries replace the node's
own, which only differ where they are not committed. -/
theorem follows_install (hr : RecordOk M noChange g) (hn : NodeOk M noChange g v n)
    (hloop : n.loop = .restore c) (base : List (RaftPeer NodeId)) (now : ℕ)
    (resp : InstallSnapshotResponse) :
    Follows M noChange g v (n.installing c base now) [.chunkAnswer v c resp] := by
  obtain ⟨hidle, hterm, hsnap⟩ := hn.snapshots.chunk c (.inr hloop)
  obtain ⟨hno, Tc, kc, hc, hs, hTc, hat⟩ := id hsnap
  have hout : ∀ m ∈ [Msg.chunkAnswer v c resp],
    MsgOk noChange (g.install v Tc c.transfer.snapshot.index) m := by
    intro m hm
    rw [mem_singleton.mp hm]
    exact SnapshotOk.mono hr.inv le_setLog le_rfl hsnap
  clear hsnap
  have happlied := hn.snapshots.restore c hloop
  unfold Node.installing
  generalize hsi : c.transfer.snapshot.index = s at *
  rw [← hat]
  have hTc' : Tc ≤ n.currentTerm := hTc.trans hterm
  have hb : g.base v ≤ s := by
    have := hn.applied.1
    rw [hn.log.base] at this
    omega
  have hlen : s ≤ (g.llog Tc).length := hs.trans (hr.inv.commit_length hc)
  have hle : Le g (g.install v Tc s) := le_setLog
  have hlog : (g.install v Tc s).log v = (g.llog Tc).take s ++ (g.log v).drop s := log_setLog
  have hr' : RecordOk M noChange (g.install v Tc s) :=
    { hr with inv := hr.inv.install hc hs (hn.term ▸ hTc') hb }
  refine .quiet .setLog rfl hr' ?_ hout
  have hn' : NodeOk M noChange (g.install v Tc s) v
      { n with
        restoring := false, incomingSnapshot := none, loop := .idle
        log := baseMarker s (termAt (g.llog Tc) s) :: n.log.filter (fun e => s < e.index)
        logBase := s, logBaseTerm := termAt (g.llog Tc) s, membershipBase := base
        commitIndex := max n.commitIndex s, lastApplied := max n.lastApplied s } := by
    refine { hn with
      log := ?_
      base := fun h => absurd hno h
      config := fun h => absurd hno h
      commit := ?_
      applied := ⟨le_max_right _ _, max_le_max_right s hn.applied.2⟩
      commitCh := fun k hk => (hn.commitCh k hk).trans (le_max_left _ _)
      applier := ?_
      lead := fun hl => ?_
      campaign := .idle
      snapshots := (hn.snapshots.mono hr.inv hle le_rfl).other rfl rfl
      trace := hn.trace.mono hr.inv hle }
    · rw [hlog, show (g.install v Tc s).base v = s from base_setLog]
      exact hn.log.install (hr.indexed (hr.inv.commit_ok hc).1) hlen hb rfl rfl rfl
    · rw [hlog]
      exact (hr.install_committed hc hs hTc' hn.commit).mono hr.inv hle le_rfl
    · change ApplierOk noChange _ _ _ n.applier
      rw [hidle]
      trivial
    · have hlead := hn.lead hl
      have hsame : (g.install v Tc s).log v = (g.install v Tc s).llog n.currentTerm := by
        rw [hlog, hlead.log]
        exact hr.install_llog hc hs ⟨v, hlead.leader⟩ hTc'
      exact { hlead.mono hr.inv hle hsame with commit := .inl hno }
  have hn'' := hn'.refreshMembership hr'
  exact { hn'' with log := hn''.log.of_same rfl }

/-- **A compacted log**: the base moves, over applied entries. -/
theorem follows_compact (hr : RecordOk M noChange g) (hn : NodeOk M noChange g v n) {index pos : ℕ}
    (happlier : n.applier = .compacting index) (hbase : n.logBase < n.compactionBase index)
    (hlast : index ≤ n.lastLogIndex) (hpos : n.logPosition (n.compactionBase index) = some pos) :
    Follows M noChange g v { n with
        lastSnapshotIndex := index, applier := .idle
        log := baseMarker (n.compactionBase index) (n.getLogTerm (n.compactionBase index)) ::
          n.log.drop (pos + 1)
        logBase := n.compactionBase index
        logBaseTerm := n.getLogTerm (n.compactionBase index) } [] := by
  have hok := hn.applier
  rw [happlier] at hok
  obtain ⟨hno, hindex⟩ := hok
  have hle' := compactionBase_le n index
  generalize n.compactionBase index = b at *
  rw [hn.log.base] at hbase
  rw [hn.log.lastLogIndex] at hlast
  rw [hn.log.getLogTerm hbase.le]
  rw [hn.log.logPosition hbase.le (by omega)] at hpos
  cases hpos
  have hcommit : b ≤ n.commitIndex := by
    have := hn.applied.2
    omega
  have hle : Le g (g.compact v b) := le_setLog
  have hlog : (g.compact v b).log v = g.log v := log_setLog
  have hr' : RecordOk M noChange (g.compact v b) :=
    { hr with inv := hr.inv.compact hbase.le (by omega) (hn.term ▸ hn.commit.anti hcommit) }
  have hby : By v g (g.compact v b) := .setLog
  refine .quiet hby rfl hr' ?_ (by simp)
  have hsnap := (hn.snapshots.mono hr.inv hle le_rfl).busy (by rw [happlier]; simp)
    n.lastApplied .idle
  refine { hn with
    log := ?_
    base := fun h => absurd hno h
    config := fun h => absurd hno h
    commit := ?_
    applied := ⟨by change b ≤ n.lastApplied; omega, hn.applied.2⟩
    applier := trivial
    lead := fun hl => (hn.lead hl).mono hr.inv hle (hlog.trans (hn.lead hl).log)
    campaign := ?_
    snapshots := hsnap
    trace := hn.trace.mono hr.inv hle }
  · rw [hlog, show (g.compact v b).base v = b from base_setLog]
    exact hn.log.compact hbase.le (by omega) rfl rfl rfl
  · rw [hlog]
    exact hn.commit.mono hr.inv hle le_rfl
  · have hcamp := hn.campaign
    refine ⟨fun c hc => ?_, hcamp.counts, fun c hc => ?_, hcamp.granted⟩ <;> rw [hlog]
    · exact hcamp.asks c hc
    · exact hcamp.stand c hc

/-! ## Applying -/

section

include hn

theorem NodeOk.startPass {target : ℕ} {rest : List ℕ}
    (hch : n.commitCh = target :: rest) (hloop : n.loop.isInstalling = false) :
    NodeOk M noChange g v { n with commitCh := rest, applier := .pass target 0 } :=
  { hn with
    log := hn.log.of_same rfl
    commitCh := fun k hk => hn.commitCh k (hch ▸ .tail _ hk)
    applier := hn.commitCh target (hch ▸ (.head _))
    snapshots := hn.snapshots.other rfl hloop }

theorem NodeOk.endPass : NodeOk M noChange g v { n with applier := .idle } :=
  { hn with
    log := hn.log.of_same rfl
    applier := trivial
    snapshots := { hn.snapshots with chunk := fun c hc => ⟨rfl, (hn.snapshots.chunk c hc).2⟩ } }

/-- `applyLoop` at its next place, with entries applied and futures closed. -/
theorem NodeOk.applying (hbusy : n.applier ≠ .idle)
    (hle : n.lastApplied ≤ lastApplied) (hle' : lastApplied ≤ n.commitIndex)
    (hok : ApplierOk noChange (g.log v) lastApplied n.commitIndex applier)
    (htrace : TraceOk g v trace) (waiters : List (ApplyFuture Cmd))
    (resolved : List (ApplyFuture Cmd × Except (FutureError NodeId) Unit)) :
    NodeOk M noChange g v { n with
        lastApplied := lastApplied, applier := applier, trace := trace
        applyWaiters := waiters, resolved := resolved } :=
  { hn with
    log := hn.log.of_same rfl
    applied := ⟨hn.applied.1.trans hle, hle'⟩
    applier := hok
    snapshots := hn.snapshots.busy hbusy lastApplied applier
    trace := htrace }

theorem NodeOk.applierAt
    (h : n.applier = applier) : ApplierOk noChange (g.log v) n.lastApplied n.commitIndex applier :=
  h ▸ hn.applier

theorem NodeOk.next
    (hentry : n.logEntry (n.lastApplied + 1) = some entry) :
    (g.log v)[n.lastApplied]? = some entry := by
  have hb := hn.applied.1
  rw [hn.log.base] at hb
  rwa [hn.log.logEntry_of_lt (by omega), Nat.add_sub_cancel] at hentry

/-- The entry to apply is committed. -/
theorem NodeOk.committedEntry (hlt : n.lastApplied < n.commitIndex)
    (hentry : (g.log v)[n.lastApplied]? = some entry) :
    CommittedEntry g entry := by
  have hidx : entry.index = n.lastApplied + 1 := hn.log.indexed _ _ hentry
  rcases hn.commit.anti hlt with h | ⟨Tc, kc, hc, hk, -, heq⟩
  · omega
  · refine ⟨Tc, kc, hc, by omega, by omega, ?_⟩
    rw [hidx, Nat.add_sub_cancel]
    exact heq.get hentry (by omega)

end

/-- **An applied change is the committed configuration.** -/
theorem NodeOk.applyChange (hr : RecordOk M noChange g) (hn : NodeOk M noChange g v n)
    (hlt : n.lastApplied < n.commitIndex)
    (hentry : (g.log v)[n.lastApplied]? = some entry) {e : MembershipEntry NodeId}
    (hdata : entry.data = .membershipChange e) :
    NodeOk M noChange g v (n.setMembershipBase (foldMembership n.membershipBase e)) := by
  have hmem : entry ∈ g.log v := mem_of_getElem? hentry
  refine NodeOk.refreshMembership
    (n := { n with membershipBase := foldMembership n.membershipBase e })
    ?_ hr
  refine { hn with log := hn.log.of_same rfl, config := fun hno => ?_ }
  refine { hn.config hno with base := ⟨n.lastApplied + 1, hlt, ?_⟩ }
  have hfull : e.members ≠ [] := hr.log_full v entry hmem e hdata
  rw [take_add_one, hentry, confOf_append]
  change foldMembership n.membershipBase e = stepConf (confOf M _) entry
  unfold stepConf
  rw [hdata]
  simp [foldMembership, hfull]

/-!
## Runs on record

Every small change of the two kinds of runs can be followed by the ledger
(`Micro.follows`), so every run has a record (`Rel.run`), and a longer run
has one that extends it.
-/

variable {S : Setup NodeId} {l : Label} {out : List (Msg NodeId Cmd)} {s s' : Cluster NodeId Cmd}
variable {allowed : Event NodeId Cmd → Prop} {ws : List (Write NodeId Cmd)}

/-! ## Small changes -/

theorem NodeOk.mapPeers (hn : NodeOk M noChange g v n) {f : Peer NodeId → Peer NodeId}
    (hf : ∀ p, (f p).id = p.id) : NodeOk M noChange g v { n with peers := n.peers.map f } := by
  refine { hn with log := hn.log.of_same rfl, lead := fun hl => ?_ }
  refine { hn.lead hl with matched := fun p hp => ?_ }
  obtain ⟨q, hq, rfl⟩ := mem_map.mp hp
  rw [hf]
  exact (hn.lead hl).matched q hq

theorem NodeOk.setNextIndex (hn : NodeOk M noChange g v n) (peer : NodeId) (next : ℕ) :
    NodeOk M noChange g v (n.setNextIndex peer next) := by
  have h := hn.mapPeers (f := fun p => if p.id = peer then { p with nextIndex := next } else p)
    fun p => by split <;> rfl
  exact { h with log := h.log.of_same rfl }

theorem NodeOk.wrote (hn : NodeOk M noChange g v n)
    (hws : ∀ snap, .snapshot snap ∉ ws) : NodeOk M noChange g v (n.wrote ws) :=
  { hn with log := hn.log.of_same rfl, snapshots := hn.snapshots.wrote hws }

omit [LinearOrder NodeId] in
theorem minor_no_snapshot {base : List (RaftPeer NodeId)} {logBase : ℕ}
    (h : ∀ w ∈ ws, w.Minor base logBase) (snap : Snapshot) : .snapshot snap ∉ ws := fun hs => h _ hs

section

variable (h : Rel M noChange g s) (hS : S.Agreed M) (hl : l.Covered noChange)
  (hm : Micro S s.net s.now v (s.nodes v) l n out)

include h hS hl hm

/-- **Every small change can be followed.** -/
theorem Micro.follows : Follows M noChange g v n out := by
  have hr := h.record
  have hn := h.nodes v
  have hid := h.ids v
  cases hm with
  | keep | incoming | fail | submit | refuse =>
    exact .silent hr { hn with log := hn.log.of_same rfl }
  | backUp => exact .silent hr (hn.setNextIndex _ _)
  | markAck => exact .silent hr (hn.mapPeers fun p => by split <;> rfl)
  | persist => exact .silent hr (hn.wrote (by simp))
  | write hminor => exact .silent hr (hn.wrote (minor_no_snapshot hminor))
  | send hsend =>
    refine .same hr hn fun m hm => ?_
    rw [mem_singleton.mp hm]
    exact hsend.msgOk hn (h.synced v) hid h.net
  | newTerm contact leader hterm => exact follows_newTerm hr hn hterm contact leader
  | stepDown => exact .silent hr hn.stepDown
  | preVote hidle hstate hself =>
    refine .same hr (hn.preVote (h.synced v) hid (h.voters v) hself rfl) fun m hm => ?_
    obtain ⟨p, -, rfl⟩ := mem_map.mp hm
    trivial
  | countPreVote hloop => exact .silent hr (hn.countPreVote hloop _ _)
  | countVote hloop hmsg hcand hterm => exact .silent hr (hn.countVote h.net hloop hmsg hcand hterm)
  | idle => exact .silent hr hn.idle
  | standFailed => exact follows_standFailed hr hn
  | stand contact hloop => exact follows_stand hr hn hid hloop contact
  | castVote contact hmsg hidle hterm hfree hlog =>
    exact follows_castVote hr hn h.net hmsg hidle hterm hfree hlog contact
  | leadFailed hloop hterm hstate hvotes => exact follows_leadFailed hr hn hloop hterm hvotes
  | lead hloop hterm hstate hvotes => exact follows_lead hr hn hloop hterm hvotes s.now
  | accept hmsg hidle hterm => exact follows_accept hr hn h.net hmsg hidle hterm _ _
  | matchAppend hmsg hstate hterm hok =>
    exact .silent hr ((hn.matched fun _ => hterm ▸ (h.net _ hmsg hok).2).setNextIndex _ _)
  | matchSnapshot hmsg hv hok hdone hstate hterm =>
    have hsnap : SnapshotOk noChange g _ _ _ := h.net _ hmsg
    rw [hterm] at hsnap
    exact .silent hr ((hn.matched fun hl =>
      hsnap.matched hr.inv ⟨v, (hn.lead hl).leader⟩ _).setNextIndex _ _)
  | commit hstate hcand =>
    exact follows_commit hr hn (h.synced v) hid (h.voters v) hstate hcand s.now
  | publish hmsg hterm hidle happlier => exact .silent hr (hn.publish h.net hmsg hterm happlier _)
  | recheck hloop hterm hcommit happlied => exact .silent hr (hn.recheck hloop happlied)
  | abandon =>
    exact .silent hr { hn.idle with log := hn.log.of_same rfl }
  | install hloop => exact follows_install hr hn hloop _ _ _
  | takeSnapshot image happlier hloop hnew =>
    have hno : noChange := Classical.not_not.mp fun hno => hl.snapshot hno rfl
    exact .silent hr (hn.takeSnapshot hno hloop hnew image)
  | compact happlier hbase hlast hpos => exact follows_compact hr hn happlier hbase hlast hpos
  | notifyCommit =>
    have hnone : ∀ snap, Write.snapshot snap ∉ ([] : List (Write NodeId Cmd)) := by simp
    have hcommit := hn.moveCommit le_rfl hn.commit (fun hl => (hn.lead hl).commit) hnone hn.trace
    rw [append_nil] at hcommit
    exact .silent hr hcommit
  | startPass hch happlier hloop => exact .silent hr (hn.startPass hch hloop)
  | endPass => exact .silent hr hn.endPass
  | fetch happlier hlt hentry =>
    refine .silent hr (hn.applying (by simp [happlier]) le_rfl hn.applied.2 ?_ hn.trace _ _)
    exact ⟨hn.applierAt happlier, hlt, hn.next hentry⟩
  | hand happlier =>
    obtain ⟨htarget, hlt, hentry⟩ := hn.applierAt happlier
    refine .silent hr (hn.applying (by simp [happlier]) le_rfl hn.applied.2 ?_
      (hn.trace.hand (hn.committedEntry (hlt.trans_le htarget) hentry) _) _ _)
    exact ⟨htarget, hlt, hentry⟩
  | @applyChange target unpersisted entry e ws removed happlier hdata hminor =>
    obtain ⟨htarget, hlt, hentry⟩ := hn.applierAt happlier
    have hbusy : (s.nodes v).applier ≠ .idle := by simp [happlier]
    have hok : ApplierOk noChange (g.log v) (s.nodes v).lastApplied (s.nodes v).commitIndex
        (.ran target unpersisted entry .ok) := ⟨htarget, hlt, hentry⟩
    have hn' := (hn.applyChange hr (hlt.trans_le htarget) hentry hdata).wrote
      (minor_no_snapshot hminor)
    have htrace := hn.trace.change (hn.committedEntry (hlt.trans_le htarget) hentry)
    have hn'' := hn'.applying hbusy le_rfl hn.applied.2 hok htrace (s.nodes v).applyWaiters
      (s.nodes v).resolved
    exact .silent hr { hn'' with log := hn''.log.of_same rfl }
  | advance happlier =>
    obtain ⟨htarget, hlt, hentry⟩ := hn.applierAt happlier
    refine .silent hr (hn.applying (by simp [happlier]) (Nat.le_succ _) (hlt.trans_le htarget) ?_
      hn.trace _ _)
    exact ⟨htarget, Nat.succ_pos _, hentry⟩
  | skip happlier =>
    obtain ⟨htarget, hlt, hentry⟩ := hn.applierAt happlier
    refine .silent hr ((hn.applying (by simp [happlier]) (Nat.le_succ _) (hlt.trans_le htarget) ?_
      hn.trace _ _).wrote (by simp))
    exact ⟨htarget, Nat.succ_pos _, hentry⟩
  | failed happlier =>
    obtain ⟨htarget, hlt, hentry⟩ := hn.applierAt happlier
    refine .silent hr (hn.applying (by simp [happlier]) le_rfl hn.applied.2 ?_ hn.trace _ _)
    exact ⟨hlt.trans_le htarget, hentry⟩
  | notifyApplied _ happlier | notifySkipped happlier =>
    refine .silent hr (hn.applying (by simp [happlier]) le_rfl hn.applied.2 ?_ hn.trace _ _)
    exact (hn.applierAt happlier).1
  | notifyFailed happlier =>
    refine .silent hr (hn.applying (by simp [happlier]) le_rfl hn.applied.2 ?_ hn.trace _ _)
    trivial
  | appendCommand hch hstate => exact follows_appendCommand hr hn hstate _ _
  | propose hmsg hstate hnoop hlast hmembers =>
    have hno : ¬ noChange := fun hno => hl.change hno rfl
    exact follows_propose hr hn hno hS.nodup hstate (h.net _ hmsg) hnoop hlast hmembers _
  | restore | replay => exact absurd rfl hl.restart

/-! ## Runs -/

/-- **A small change with its record.** -/
theorem Rel.micro :
    ∃ g', Le g g' ∧ Rel M noChange g' (s.put v n out) := by
  obtain ⟨g', hby, hr, hn, hout, hcommits⟩ := hm.follows h hS hl
  exact ⟨g', hby.le, h.put hS hl hm hby hr hn hout hcommits⟩

end

/-- Nothing has happened, and nothing is on record. -/
theorem Rel.init (hS : S.Agreed M) : Rel M noChange empty (S.init : Cluster NodeId Cmd) where
  record :=
    { inv := .empty
      indexed := fun h => absurd h not_led_empty
      plain := fun _ _ h => absurd h not_led_empty
      full := fun h => absurd h not_led_empty
      own := nofun }
  nodes v :=
    { term := rfl
      voted := fun _ h => h.elim
      log := ⟨rfl, rfl, le_rfl, rfl, .nil⟩
      base := fun _ => rfl
      config := fun _ =>
        { latest := hS.members v
          index := fun i e he => by cases he
          base := ⟨0, le_rfl, hS.members v⟩ }
      commit := .inl rfl
      applied := ⟨le_rfl, le_rfl⟩
      commitCh := nofun
      applier := trivial
      lead := nofun
      campaign := .idle
      snapshots :=
        { stored := nofun
          chunk := fun _ h => by rcases h with h | h <;> cases h
          restore := nofun }
      trace :=
        { elected := nofun
          committed := nofun
          handed := nofun
          changed := nofun } }
  net m hm := by cases hm
  synced := hS.fixed_init.synced
  ids _ := rfl
  fixed _ := hS.fixed_init
  commits h := h.elim

theorem Rel.clock (h : Rel M noChange g s) (now : ℕ) : Rel M noChange g { s with now := now } :=
  ⟨h.record, h.nodes, h.net, h.synced, h.ids, fun hno =>
    ⟨(h.fixed hno).nodes, (h.fixed hno).net, (h.fixed hno).synced, (h.fixed hno).ids⟩, h.commits⟩

/-- Events that are covered. -/
def Covers (noChange : Prop) (allowed : Event NodeId Cmd → Prop) : Prop :=
  ∀ e, allowed e → e.label.Covered noChange

theorem Label.Covered.plain : Label.Covered noChange .plain :=
  ⟨Label.noConfusion, fun _ => Label.noConfusion, fun _ => Label.noConfusion⟩

/-- **Every run has a record**, one that extends the record it starts from. -/
theorem Rel.run (hS : S.Agreed M) (hc : Covers noChange allowed)
    (h : Rel M noChange g s) (hrun : Runs.Reachable (step S) allowed s s') :
    ∃ g', Le g g' ∧ Rel M noChange g' s' := by
  refine run_micro (J := fun s => ∃ g', Le g g' ∧ Rel M noChange g' s) hrun ⟨g, .refl g, h⟩ ?_ ?_
  · rintro s now ⟨g', hle, h'⟩
    exact ⟨g', hle, h'.clock now⟩
  · rintro s v l n out hl ⟨g', hle, h'⟩ hm
    have hcov : l.Covered noChange := by
      rcases hl with rfl | ⟨e, he, rfl⟩
      · exact .plain
      · exact hc e he
    obtain ⟨g'', hle', h''⟩ := h'.micro hS hcov hm
    exact ⟨g'', hle.trans hle', h''⟩

theorem Reachable.rel (hS : S.Agreed M) (hc : Covers noChange allowed)
    (h : Reachable S allowed s) : ∃ g, Rel M noChange g s := by
  obtain ⟨g, -, hg⟩ := (Rel.init hS).run hS hc h
  exact ⟨g, hg⟩

end Anubis.Raft
