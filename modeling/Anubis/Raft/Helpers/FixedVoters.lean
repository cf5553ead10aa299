import Anubis.Raft.Helpers.Disk
import Anubis.Raft.Helpers.Voters

/-!
# Runs without membership changes

Where all nodes start with one member list and nobody proposes a change, no
membership entry appears anywhere and every configuration, in memory, on
disk or on its way in a snapshot transfer, stays that list up to its order
(`Fixed`).
-/

namespace Anubis.Raft

open List Node

variable {NodeId Cmd : Type} {entries : List (RaftLogEntry NodeId Cmd)} {d : Disk NodeId Cmd}
  {ws : List (Write NodeId Cmd)} {M : List (RaftPeer NodeId)} {n n' : Node NodeId Cmd} {logBase : ℕ}
  {S : Setup NodeId} {net : List (Msg NodeId Cmd)} {now : ℕ} {v : NodeId} {l : Label}
  {out : List (Msg NodeId Cmd)} {s : Cluster NodeId Cmd}

/-- **All nodes start with the same members**, those that are added later included. -/
structure Setup.Agreed (S : Setup NodeId) (M : List (RaftPeer NodeId)) : Prop where
  members : ∀ id, S.members id = M
  nodup : (M.map (·.id)).Nodup

/-- Events of runs without membership changes. -/
def Event.NoMembership : Event NodeId Cmd → Prop
  | .addPeer .. => False
  | .removePeer .. => False
  | .propose .. => False
  | _ => True

theorem Event.NoMembership.label {e : Event NodeId Cmd} (h : e.NoMembership) :
    e.label ≠ .change := by
  cases e <;> first | exact Label.noConfusion | cases h

/-- An entry that leaves the configuration as it is. -/
def RaftLogEntry.Plain (entry : RaftLogEntry NodeId Cmd) :
    Prop := ∀ e, entry.data ≠ .membershipChange e

/-- A write that leaves the configuration `M`. -/
def Write.Fixed (M : List (RaftPeer NodeId)) : Write NodeId Cmd → Prop
  | .putLog entry => entry.Plain
  | .peers ms => ms.Perm M
  | _ => True

/-- A message that leaves the configuration `M`. -/
def Msg.Fixed (M : List (RaftPeer NodeId)) : Msg NodeId Cmd → Prop
  | .appendBuilt _ _ req => ∀ entry ∈ req.entries, entry.Plain
  | .append _ _ req _ => ∀ entry ∈ req.entries, entry.Plain
  | .chunk _ c => c.transfer.configuration.Perm M
  | .chunkAnswer _ c _ => c.transfer.configuration.Perm M
  | _ => True

/-- A node whose configuration is `M` and stays it. -/
structure Node.Fixed (M : List (RaftPeer NodeId)) (n : Node NodeId Cmd) : Prop where
  base : n.membershipBase.Perm M
  latest : n.membershipLatest.Perm M
  log : ∀ entry ∈ n.log, entry.Plain
  applier : ∀ target unpersisted entry, n.applier = .fetched target unpersisted entry → entry.Plain
  chunk : ∀ c, n.loop = .publish c ∨ n.loop = .restore c → c.transfer.configuration.Perm M
  journal : ∀ w ∈ n.journal, w.Fixed M

/-- A change of no more than the log, by entries that leave the
configuration. -/
theorem Node.Fixed.of_log (h : n.Fixed M)
    (heq : (n'.membershipBase, n'.membershipLatest) = (n.membershipBase, n.membershipLatest))
    (hlog : ∀ e ∈ n'.log, e ∈ n.log ∨ e.Plain)
    (happlier : n'.applier = n.applier ∨ ∀ t u e, n'.applier ≠ .fetched t u e)
    (hloop : n'.loop = n.loop ∨ ∀ c, n'.loop ≠ .publish c ∧ n'.loop ≠ .restore c)
    (hjournal : n'.journal = n.journal ++ ws) (hws : ∀ w ∈ ws, w.Fixed M) : n'.Fixed M where
  base := (Prod.mk.inj heq).1 ▸ h.base
  latest := (Prod.mk.inj heq).2 ▸ h.latest
  log e he := (hlog e he).elim (h.log e) id
  applier t u e he := by
    rcases happlier with heq | hne
    · exact h.applier t u e (heq ▸ he)
    · exact absurd he (hne t u e)
  chunk c hc := by
    rcases hloop with heq | hne
    · exact h.chunk c (heq ▸ hc)
    · exact hc.elim (fun hc => absurd hc (hne c).1) fun hc => absurd hc (hne c).2
  journal w hw := by
    rw [hjournal, mem_append] at hw
    exact hw.elim (h.journal w) (hws w)

/-- A change that leaves the configuration and the log alone. -/
theorem Node.Fixed.of_same (h : n.Fixed M)
    (heq : (n'.log, n'.membershipBase, n'.membershipLatest) = (n.log, n.membershipBase,
      n.membershipLatest))
    (happlier : n'.applier = n.applier ∨ ∀ t u e, n'.applier ≠ .fetched t u e)
    (hloop : n'.loop = n.loop ∨ ∀ c, n'.loop ≠ .publish c ∧ n'.loop ≠ .restore c)
    (hjournal : n'.journal = n.journal ++ ws) (hws : ∀ w ∈ ws, w.Fixed M) : n'.Fixed M :=
  h.of_log (Prod.mk.inj heq).2 (fun _ he => .inl ((Prod.mk.inj heq).1 ▸ he)) happlier hloop
    hjournal hws

theorem plain_newEntries {last idx : ℕ}
    (h : ∀ entry ∈ entries, entry.Plain) :
    ∀ entry ∈ newEntries last idx entries, entry.Plain := by
  induction entries generalizing idx with
  | nil => exact h
  | cons e rest ih =>
    have hrest : ∀ entry ∈ newEntries last (idx + 1) rest, entry.Plain :=
      ih fun e he => h e (by simp [he])
    unfold newEntries
    split
    · intro entry he
      rcases mem_cons.mp he with rfl | he
      · exact h e (by simp)
      · exact hrest entry he
    · exact hrest

/-- The stored entries that are read are numbered. -/
theorem readLog_spec {index count : ℕ}
    (h : readLog d index count = some entries) : entries.length = count ∧
    (∀ e ∈ entries, e ∈ d.logs) ∧ ∀ (i : ℕ) e, entries[i]? = some e → e.index = index + i := by
  induction count generalizing index entries with
  | zero =>
    cases h
    simp
  | succ count ih =>
    unfold readLog at h
    split at h
    · cases h
    · rename_i e he
      obtain ⟨rest, hrest, rfl⟩ := Option.map_eq_some_iff.mp h
      obtain ⟨hlen, hmem, hidx⟩ := ih hrest
      refine ⟨by simp [hlen], ?_, fun i x hx => ?_⟩
      · rintro x (_ | ⟨_, hx⟩)
        · exact mem_of_find?_eq_some he
        · exact hmem x hx
      · cases i with
        | zero =>
          cases hx
          simpa using find?_some he
        | succ i =>
          rw [hidx i x hx]
          omega

theorem plain_baseMarker (index term : ℕ) :
    (baseMarker index term : RaftLogEntry NodeId Cmd).Plain :=
  fun e h => by cases h

theorem mem_getEntriesAfter {start maxCount : ℕ} {entry : RaftLogEntry NodeId Cmd}
    (h : entry ∈ n.getEntriesAfter start maxCount) : entry ∈ n.log := by
  unfold getEntriesAfter at h
  dsimp only at h
  split at h
  · cases h
  · exact mem_of_mem_drop (mem_of_mem_take h)

theorem Sends.fixed {m : Msg NodeId Cmd} (hn : n.Fixed M) (hnet : ∀ m ∈ net, m.Fixed M)
    (h : Sends net now v n m) : m.Fixed M := by
  cases h with
  | appendBuilt => exact fun entry he => hn.log entry (mem_getEntriesAfter he)
  | append hmsg =>
    have hreq := hnet _ hmsg
    exact hreq
  | chunk => exact hn.base
  | nextChunk hmsg =>
    have hconf := hnet _ hmsg
    exact hconf
  | chunkAnswer hchunk =>
    rcases hchunk with hmsg | hloop
    · have hconf := hnet _ hmsg
      exact hconf
    · exact hn.chunk _ hloop
  | _ => trivial

theorem ChunkSend.perm_configuration {c : ChunkSend NodeId} (hc : c.transfer.configuration.Perm M)
    (hne : c.request.configuration ≠ []) : c.request.configuration.Perm M := by
  unfold ChunkSend.request at hne ⊢
  dsimp only at hne ⊢
  split
  · exact hc
  · rename_i hd
    rw [if_neg hd] at hne
    exact absurd rfl hne

theorem Write.Minor.fixed {w : Write NodeId Cmd} {base : List (RaftPeer NodeId)}
    (hbase : base.Perm M) (h : w.Minor base logBase) : w.Fixed M := by
  cases w with
  | peers ms => exact (show ms = base from h) ▸ hbase
  | putLog => cases h
  | _ => trivial

variable [LinearOrder NodeId]

/-- **The configuration is `M` throughout the cluster.** -/
structure Cluster.Fixed (M : List (RaftPeer NodeId)) (s : Cluster NodeId Cmd) : Prop where
  nodes : ∀ v, (s.nodes v).Fixed M
  net : ∀ m ∈ s.net, m.Fixed M
  synced : ∀ v, Synced (s.nodes v)
  ids : ∀ v, (s.nodes v).nodeID = v

theorem Cluster.Fixed.voters (h : s.Fixed M) (v : NodeId) :
    memberVoters (s.nodes v).membershipLatest = memberVoters M :=
  memberVoters_perm (h.nodes v).latest

namespace Node.Fixed

theorem foldEntry_plain {log : List (RaftLogEntry NodeId Cmd)}
    (h : ∀ entry ∈ log, entry.Plain) (acc : List (RaftPeer NodeId) × ℕ) :
    log.foldl (foldEntry logBase) acc = acc := by
  induction log generalizing acc with
  | nil => rfl
  | cons entry log ih =>
    have hstep : foldEntry logBase acc entry = acc := by
      unfold foldEntry
      split
      · rename_i e he
        exact absurd he (h entry (by simp) e)
      · rfl
    rw [foldl_cons, hstep]
    exact ih (fun e he => h e (by simp [he])) acc

theorem refreshMembership (hbase : n.membershipBase.Perm M) (hlog : ∀ entry ∈ n.log, entry.Plain)
    (happlier : ∀ t u e, n.applier = .fetched t u e → e.Plain)
    (hchunk : ∀ c, n.loop = .publish c ∨ n.loop = .restore c → c.transfer.configuration.Perm M)
    (hjournal : ∀ w ∈ n.journal, w.Fixed M) : n.refreshMembership.Fixed M where
  base := hbase
  latest := by
    change (n.log.foldl (foldEntry n.logBase) (n.membershipBase, 0)).1.Perm M
    rw [foldEntry_plain hlog]
    exact hbase
  log := hlog
  applier := happlier
  chunk := hchunk
  journal := hjournal

end Node.Fixed

/-! ## Restarting -/

theorem perm_restored (self : NodeId) {ms : List (RaftPeer NodeId)} (hnodup : (ms.map (·.id)).Nodup)
    (hself : self ∈ ms.map (·.id)) :
    ((⟨self, ((ms.filter fun p => p.id = self).getLast?.map (·.role)).getD .voter⟩ :
        RaftPeer NodeId) :: ms.filter fun p => p.id ≠ self).Perm ms := by
  have hids : ((ms.filter fun p => decide (p.id = self)).map (·.id)).Nodup :=
    (filter_sublist.map _).nodup hnodup
  obtain ⟨p, hp, rfl⟩ := mem_map.mp hself
  have hmem : p ∈ ms.filter fun q => decide (q.id = p.id) := mem_filter.mpr ⟨hp, by simp⟩
  -- the record of an ID is the only one with it
  have hone : ms.filter (fun q => decide (q.id = p.id)) = [p] := by
    generalize hL : ms.filter (fun q => decide (q.id = p.id)) = L at hids hmem
    have hall : ∀ q ∈ L, q.id = p.id := by
      intro q hq
      rw [← hL] at hq
      exact of_decide_eq_true (mem_filter.mp hq).2
    match L, hids, hmem, hall with
    | [q], _, hmem, _ => rw [mem_singleton.mp hmem]
    | q :: r :: L, hids, _, hall =>
      have : q.id ∉ (r :: L).map (·.id) := (nodup_cons.mp hids).1
      exact absurd (mem_map.mpr ⟨r, by simp, by rw [hall r (by simp), hall q (by simp)]⟩) this
  rw [hone]
  have hperm := filter_append_perm (fun q : RaftPeer NodeId => decide (q.id = p.id)) ms
  rw [hone] at hperm
  simpa [decide_not] using hperm

theorem Node.Fixed.restorePeers (h : n.Fixed M) (hM : (M.map (·.id)).Nodup)
    (hself : n.nodeID ∈ M.map (·.id)) (hd : ∀ ms, d.peers = some ms → ms.Perm M) :
    (n.restorePeers d).Fixed M := by
  unfold Node.restorePeers
  split
  · exact h
  · rename_i ms hms
    have hperm := hd ms hms
    have hnodup : (ms.map (·.id)).Nodup := ((hperm.map _).nodup_iff).mpr hM
    have hrest := perm_restored n.nodeID hnodup ((hperm.map _).mem_iff.mpr hself)
    refine .refreshMembership ?_ h.log h.applier h.chunk h.journal
    exact (normalizeMembers_perm (((hrest.map _).nodup_iff).mpr hnodup)).trans (hrest.trans hperm)

theorem Node.Fixed.restore {okRestore : Bool} (h : n.Fixed M)
    (hM : (M.map (·.id)).Nodup) (hself : n.nodeID ∈ M.map (·.id))
    (hpeers : ∀ ms, d.peers = some ms → ms.Perm M) (hlogs : ∀ e ∈ d.logs, e.Plain)
    (hm : n.restore okRestore d = some n') : n'.Fixed M := by
  have hnil : ∀ w ∈ ([] : List (Write NodeId Cmd)), w.Fixed M := by simp
  have hsame : ∀ {k k' : Node NodeId Cmd}, k.Fixed M ∧ k.nodeID = n.nodeID →
      k'.membershipBase = k.membershipBase → k'.membershipLatest = k.membershipLatest →
      (∀ e ∈ k'.log, e ∈ k.log ∨ e.Plain) → k'.applier = k.applier → k'.loop = k.loop →
      k'.journal = k.journal → k'.nodeID = k.nodeID → k'.Fixed M ∧ k'.nodeID = n.nodeID := by
    intro k k' hk h₁ h₂ h₃ h₄ h₅ h₆ h₇
    exact ⟨hk.1.of_log (by rw [h₁, h₂]) h₃ (.inl h₄) (.inl h₅) (h₆.trans (append_nil _).symm) hnil,
      h₇.trans hk.2⟩
  refine (restore_induct (P := fun k => k.Fixed M ∧ k.nodeID = n.nodeID) hm ?_ ?_
    (fun hk => hsame hk rfl rfl (fun _ => .inl) rfl rfl rfl rfl)
    (fun _ hk => hsame hk rfl rfl (fun _ => .inl) rfl rfl rfl rfl) ?_ ?_ ?_).1
  · unfold restoreHardState
    split
    · exact ⟨h, rfl⟩
    · exact hsame ⟨h, rfl⟩ rfl rfl (fun _ => .inl) rfl rfl rfl rfl
  · intro k hk
    exact ⟨hk.1.restorePeers hM (hk.2 ▸ hself) hpeers, (Kept.restorePeers d).nodeID.trans hk.2⟩
  · intro k s _ hk
    refine hsame hk rfl rfl (fun e he => .inr ?_) rfl rfl rfl rfl
    rw [mem_singleton.mp he]
    exact plain_baseMarker _ _
  · intro k entries hread hk
    refine hsame hk rfl rfl (fun e he => .inr ?_) rfl rfl rfl rfl
    rcases mem_cons.mp he with rfl | he
    · exact plain_baseMarker _ _
    · exact hlogs e ((readLog_spec hread).2.1 e he)
  · intro k hk
    exact ⟨.refreshMembership hk.1.base hk.1.log hk.1.applier hk.1.chunk hk.1.journal, hk.2⟩

theorem Node.Fixed.newNode {self : NodeId} {config : Config} {members : List (RaftPeer NodeId)}
    (h : members = M) : (newNode self config members : Node NodeId Cmd).Fixed M := by
  refine .refreshMembership (h ▸ Perm.refl _) ?_ (by simp) (by simp) (by simp)
  intro e he
  rw [mem_singleton.mp he]
  exact plain_baseMarker _ _

/-! ## Small changes -/

theorem Node.Fixed.acceptAppend {io : AppendIO} {req : AppendEntriesRequest NodeId Cmd}
    (hn : n.Fixed M) (hreq : ∀ entry ∈ req.entries, entry.Plain) :
    (n.acceptAppend io now req).1.Fixed M := by
  refine acceptAppend_induct hn ?_ ?_ ?_ ?_ ?_
  · intro m leader hm
    exact hm.of_same rfl (.inl rfl) (.inl rfl) (append_nil _).symm (by simp)
  · intro m index hm
    refine hm.of_log rfl (fun e he => .inl (mem_of_mem_take he)) (.inl rfl) (.inl rfl) rfl ?_
    intro w hw
    obtain ⟨i, -, rfl⟩ := mem_map.mp hw
    trivial
  · intro m hm
    have hnew : ∀ e ∈ m.missing req, e.Plain := plain_newEntries hreq
    refine hm.of_log rfl (fun e he => (mem_append.mp he).imp_right (hnew e)) (.inl rfl)
      (.inl rfl) rfl fun w hw => ?_
    obtain ⟨e, he, rfl⟩ := mem_map.mp hw
    exact hnew e he
  · intro m hm
    exact .refreshMembership hm.base hm.log hm.applier hm.chunk hm.journal
  · intro m k hm _
    exact hm.of_same rfl (.inl rfl) (.inl rfl) rfl (by simp [Write.Fixed])

/-- **Without a proposed change, every small change keeps the
configuration.** A restart puts a node back into its own member list, which
has to be in `M`. -/
theorem Micro.fixed (hS : S.Agreed M) (hl : l ≠ .change)
    (hself : l = .restart → n.nodeID ∈ M.map (·.id)) (hn : n.Fixed M) (hnet : ∀ m ∈ net, m.Fixed M)
    (hm : Micro S net now v n l n' out) : n'.Fixed M ∧ ∀ m ∈ out, m.Fixed M := by
  have hnil : ∀ m ∈ ([] : List (Msg NodeId Cmd)), m.Fixed M := by simp
  have hnone : ∀ w ∈ ([] : List (Write NodeId Cmd)), w.Fixed M := by simp
  have hdone : n.journal = n.journal ++ [] := (append_nil _).symm
  have hmarks : ∀ {k : Node NodeId Cmd} {a b i d : ℕ}, k.Fixed M → Node.Fixed M
      { k with commitIndex := a, lastApplied := b, lastSnapshotIndex := i, lastContact := d } :=
    fun hk => ⟨hk.base, hk.latest, hk.log, hk.applier, hk.chunk, hk.journal⟩
  have happ : ∀ {a : Applier NodeId Cmd}, (∀ t u e, a ≠ .fetched t u e) →
      a = n.applier ∨ ∀ t u e, a ≠ .fetched t u e := .inr
  cases hm with
  | persist | newTerm | commit =>
    exact ⟨hn.of_same rfl (.inl rfl) (.inl rfl) rfl (by simp [Write.Fixed]), hnil⟩
  | write hminor =>
    exact ⟨hn.of_same rfl (.inl rfl) (.inl rfl) rfl fun w hw =>
      Write.Minor.fixed hn.base (hminor w hw), hnil⟩
  | send hsend =>
    refine ⟨hn, fun m hm => ?_⟩
    rw [mem_singleton.mp hm]
    exact hsend.fixed hn hnet
  | preVote =>
    refine ⟨hn.of_same rfl (.inl rfl) (.inr (by simp)) hdone hnone, ?_⟩
    simp [Msg.Fixed]
  | countPreVote | countVote | idle | standFailed | abandon | leadFailed =>
    exact ⟨hn.of_same rfl (.inl rfl) (.inr (by simp)) hdone hnone, hnil⟩
  | stand =>
    refine ⟨hn.of_same rfl (.inl rfl) (.inr (by simp)) rfl (by simp [Write.Fixed]), ?_⟩
    simp [Msg.Fixed]
  | castVote =>
    exact ⟨hn.of_same rfl (.inl rfl) (.inl rfl) rfl (by simp [Write.Fixed]), by simp [Msg.Fixed]⟩
  | lead =>
    refine ⟨hn.of_log rfl (fun e he => (mem_append.mp he).imp_right fun he => ?_) (.inl rfl)
      (.inr (by simp)) rfl (by simp [Write.Fixed, RaftLogEntry.Plain]), hnil⟩
    rw [mem_singleton.mp he]
    simp [RaftLogEntry.Plain]
  | accept hmsg =>
    have hreq := hnet _ hmsg
    exact ⟨hn.acceptAppend hreq, by simp [Msg.Fixed]⟩
  | publish hmsg =>
    have hconf := hnet _ hmsg
    refine ⟨⟨hn.base, hn.latest, hn.log, hn.applier, fun c hc => ?_, fun w hw => ?_⟩, hnil⟩
    · rcases hc with hc | hc
      · cases hc
        exact hconf
      · cases hc
    · rcases mem_append.mp hw with hw | hw
      · exact hn.journal w hw
      · rw [mem_singleton.mp hw]
        trivial
  | recheck hloop =>
    refine ⟨⟨hn.base, hn.latest, hn.log, hn.applier, fun c hc => ?_, hn.journal⟩, hnil⟩
    rcases hc with hc | hc
    · cases hc
    · cases hc
      exact hn.chunk _ (.inl hloop)
  | @install c base resp hloop hbase =>
    have hperm : base.Perm M := by
      rcases hbase with rfl | ⟨hne, rfl⟩
      · exact hn.base
      · have hconf := ChunkSend.perm_configuration (hn.chunk c (.inr hloop)) hne
        exact (normalizeMembers_perm (((hconf.map _).nodup_iff).mpr hS.nodup)).trans hconf
    refine ⟨hmarks (.refreshMembership hperm (fun e he => ?_) hn.applier (by simp) hn.journal),
      fun m hm => ?_⟩
    · rcases mem_cons.mp he with rfl | he
      · exact plain_baseMarker _ _
      · exact hn.log e (mem_filter.mp he).1
    · rw [mem_singleton.mp hm]
      exact hn.chunk c (.inr hloop)
  | takeSnapshot | skip =>
    exact ⟨hn.of_same rfl (happ (by simp)) (.inl rfl) rfl (by simp [Write.Fixed]), hnil⟩
  | compact =>
    refine ⟨hn.of_log rfl (fun e he => ?_) (happ (by simp)) (.inl rfl) hdone hnone, hnil⟩
    rcases mem_cons.mp he with rfl | he
    · exact .inr (plain_baseMarker _ _)
    · exact .inl (mem_of_mem_drop he)
  | startPass _ _ _ | endPass | hand _ _ | advance _ | failed _ | notifyApplied _ _
  | notifySkipped _
  | notifyFailed | replay => exact ⟨hn.of_same rfl (happ (by simp)) (.inl rfl) hdone hnone, hnil⟩
  | fetch _ _ hentry =>
    refine ⟨⟨hn.base, hn.latest, hn.log, fun t u e he => ?_, hn.chunk, hn.journal⟩, hnil⟩
    cases he
    obtain ⟨pos, -, hpos⟩ := Option.bind_eq_some_iff.mp hentry
    exact hn.log _ (mem_of_getElem? hpos)
  | applyChange _ happlier hdata => exact absurd hdata (hn.applier _ _ _ happlier _)
  | appendCommand =>
    rename_i f _ _ _
    have hplain : (⟨n.lastLogIndex + 1, n.currentTerm, (f.command.map .command).getD .noOp⟩ :
        RaftLogEntry NodeId Cmd).Plain := by
      cases f.command <;> simp [RaftLogEntry.Plain]
    refine ⟨hn.of_log rfl (fun e he => (mem_append.mp he).imp_right fun he => ?_) (.inl rfl)
      (.inl rfl) rfl fun w hw => ?_, hnil⟩
    · rw [mem_singleton.mp he]
      exact hplain
    · rw [mem_singleton.mp hw]
      exact hplain
  | propose => exact absurd rfl hl
  | restore _ hm =>
    have hfresh : (newNode n.nodeID (S.config n.nodeID) (S.members n.nodeID) : Node NodeId
      Cmd).Fixed M :=
      .newNode (hS.members _)
    have hfresh' : (S.fresh n).Fixed M :=
      ⟨hfresh.base, hfresh.latest, hfresh.log, hfresh.applier, hfresh.chunk, hn.journal⟩
    exact ⟨hfresh'.restore hS.nodup (hself rfl) (fun ms h => hn.journal _ (Disk.mem_of_peers h))
      (fun e he => hn.journal _ (Disk.mem_logs e he)) hm, hnil⟩
  | _ => exact ⟨hn.of_same rfl (.inl rfl) (.inl rfl) hdone hnone, hnil⟩

theorem Setup.Agreed.fixed_init (hS : S.Agreed M) : (S.init : Cluster NodeId Cmd).Fixed M where
  nodes v := .newNode (hS.members v)
  net m hm := by cases hm
  synced v := .refreshMembership (by rw [hS.members]; exact hS.nodup)
  ids _ := rfl

/-- **The configuration stays `M`** as long as no change is proposed. -/
theorem Cluster.Fixed.step (hs : s.Fixed M) (hS : S.Agreed M) (hl : l ≠ .change)
    (hself : l = .restart → v ∈ M.map (·.id))
    (hm : Micro S s.net s.now v (s.nodes v) l n out) : (s.put v n out).Fixed M := by
  obtain ⟨hn, hout⟩ := hm.fixed hS hl (fun h => (hs.ids v).symm ▸ hself h) (hs.nodes v) hs.net
  have hsync := hm.synced (fun id => (hS.members id).symm ▸ hS.nodup) (hs.synced v)
  obtain ⟨hnodes, hnet⟩ := Cluster.forall_put
    (P := fun u n => n.Fixed M ∧ Synced n ∧ n.nodeID = u)
    (fun u => ⟨hs.nodes u, hs.synced u, hs.ids u⟩) hs.net
    ⟨hn, hsync, hm.nodeID.trans (hs.ids v)⟩ hout
  exact ⟨fun u => (hnodes u).1, hnet, fun u => (hnodes u).2.1, fun u => (hnodes u).2.2⟩

end Anubis.Raft

/-!
## Votes in memory and on disk

What a node voted is recorded in its trace. `VoteNode` ties the record to
the term and vote in memory and to the hard state on disk: both are past a
recorded vote or agree with it. A failed write, a campaign that could not be
persisted and a restart all keep that.
-/

namespace Anubis.Raft

open List Node

variable {NodeId Cmd : Type}

/-- A term and vote that a vote for `c` in `T` agrees with: the term is past
`T`, or the vote is that one. -/
def Honours (term : ℕ) (votedFor : Option NodeId) (T : ℕ) (c : NodeId) : Prop :=
  T ≤ term ∧ (T = term → votedFor = some c)

/-- **Recorded votes are honoured**, in memory and on disk. -/
structure VoteNode (n : Node NodeId Cmd) : Prop where
  memory : ∀ T c, .voted T c ∈ n.trace → Honours n.currentTerm n.votedFor T c
  disk : ∀ T c, .voted T c ∈ n.trace →
    ∃ h, n.disk.hardState = some h ∧ Honours h.currentTerm h.votedFor T c
  one : ∀ T c c', .voted T c ∈ n.trace → .voted T c' ∈ n.trace → c = c'
  leader : n.state = .leader → .becameLeader n.currentTerm ∈ n.trace

variable {S : Setup NodeId} {net : List (Msg NodeId Cmd)} {now : ℕ} {v : NodeId} {l : Label}
  {n n' : Node NodeId Cmd} {out : List (Msg NodeId Cmd)}

/-- What is written past a journal: no hard state, or in the end one that is
the node's. -/
inductive Persists (n' : Node NodeId Cmd) (j : List (Write NodeId Cmd)) : Prop
  | same {ws} (hj : n'.journal = j ++ ws) (hws : ∀ w ∈ ws, Disk.keepsHardState w = true)
  | written {h} (hj : n'.journal = j ++ [.hardState h]) (hterm : h.currentTerm = n'.currentTerm)
      (hvote : h.votedFor = n'.votedFor)

theorem Persists.nil {j : List (Write NodeId Cmd)} (h : n'.journal = j) : Persists n' j :=
  .same (h.trans (append_nil _).symm) (by simp)

theorem VoteNode.of_persists (h : VoteNode n) (hj : Persists n' n.journal)
    (hold : ∀ T c, .voted T c ∈ n'.trace → .voted T c ∈ n.trace ∨ ∃ h, n'.journal =
      n.journal ++ [.hardState h] ∧ h.currentTerm = n'.currentTerm ∧ h.votedFor = n'.votedFor)
    (hmem : ∀ T c, .voted T c ∈ n'.trace → Honours n'.currentTerm n'.votedFor T c)
    (hone : ∀ T c c', .voted T c ∈ n'.trace → .voted T c' ∈ n'.trace → c = c')
    (hleader : n'.state = .leader → .becameLeader n'.currentTerm ∈ n'.trace) : VoteNode n' where
  memory := hmem
  one := hone
  leader := hleader
  disk T c hT := by
    have hwritten : ∀ {h}, n'.journal = n.journal ++ [.hardState h] →
        h.currentTerm = n'.currentTerm → h.votedFor = n'.votedFor →
        ∃ h, n'.disk.hardState = some h ∧ Honours h.currentTerm h.votedFor T c := by
      intro h hj ht hv
      refine ⟨h, ?_, ?_⟩
      · rw [Node.disk, hj, Disk.hardState_replay_concat]
      · rw [ht, hv]
        exact hmem T c hT
    rcases hold T c hT with hin | ⟨h, hj, ht, hv⟩
    · cases hj with
      | same hj hws =>
        obtain ⟨h, hd, hh⟩ := h.disk T c hin
        refine ⟨h, ?_, hh⟩
        rw [Node.disk, hj, Disk.hardState_replay_append hws]
        exact hd
      | written hj ht hv => exact hwritten hj ht hv
    · exact hwritten hj ht hv

/-- A change that leaves term, vote and recorded votes alone. -/
theorem VoteNode.of_same (h : VoteNode n)
    (heq : (n'.currentTerm, n'.votedFor) = (n.currentTerm, n.votedFor))
    (htrace : ∃ tr, n'.trace = n.trace ++ tr ∧ ∀ T c, .voted T c ∉ tr)
    (hstate : n'.state = .leader → n.state = .leader) (hj : Persists n' n.journal) :
    VoteNode n' := by
  obtain ⟨hterm, hvote⟩ := Prod.mk.inj heq
  obtain ⟨tr, htr, hnone⟩ := htrace
  have hold : ∀ T c, .voted T c ∈ n'.trace → .voted T c ∈ n.trace := by
    intro T c hT
    rw [htr, mem_append] at hT
    exact hT.resolve_right (hnone T c)
  refine h.of_persists hj (fun T c hT => .inl (hold T c hT)) ?_
    (fun T c c' hT hT' => h.one T c c' (hold T c hT) (hold T c' hT')) ?_
  · intro T c hT
    rw [hterm, hvote]
    exact h.memory T c (hold T c hT)
  · intro hl
    rw [htr, hterm]
    exact mem_append_left _ (h.leader (hstate hl))

/-- A move to a later term, in which nothing was voted yet. -/
theorem VoteNode.of_later (h : VoteNode n) (hterm : n.currentTerm < n'.currentTerm)
    (htrace : n'.trace = n.trace) (hstate : n'.state ≠ .leader) (hj : Persists n' n.journal) :
    VoteNode n' := by
  refine h.of_persists hj (fun T c hT => .inl (htrace ▸ hT)) ?_
    (fun T c c' hT hT' => h.one T c c' (htrace ▸ hT) (htrace ▸ hT')) fun hl => absurd hl hstate
  intro T c hT
  have hle := (h.memory T c (htrace ▸ hT)).1
  exact ⟨by omega, fun heq => absurd heq (by omega)⟩

/-- A new vote, in a term the node has not voted in, or for the same
candidate again. -/
theorem VoteNode.of_vote (h : VoteNode n) {T : ℕ} {c : NodeId} (hterm : n'.currentTerm = T)
    (hvote : n'.votedFor = some c) (htrace : n'.trace = n.trace ++ [.voted T c])
    (hfree : n.currentTerm < T ∨ n.currentTerm = T ∧ (n.votedFor = none ∨ n.votedFor = some c))
    (hstate : n'.state = .leader → n.state = .leader ∧ n.currentTerm = T)
    {hs : HardState NodeId} (hj : n'.journal = n.journal ++ [.hardState hs])
    (ht : hs.currentTerm = n'.currentTerm) (hv : hs.votedFor = n'.votedFor) : VoteNode n' := by
  have hin : ∀ T' c', .voted T' c' ∈ n'.trace → .voted T' c' ∈ n.trace ∨ T' = T ∧ c' = c := by
    intro T' c' h'
    rw [htrace, mem_append, mem_singleton] at h'
    exact h'.imp_right fun h' => by cases h'; exact ⟨rfl, rfl⟩
  -- an earlier vote of the term was for the same candidate
  have hsame : ∀ c', .voted T c' ∈ n.trace → c' = c := by
    intro c' h'
    have hm := h.memory T c' h'
    rcases hfree with hlt | ⟨heq, hfree⟩
    · exact absurd hm.1 (by omega)
    · rw [hm.2 heq.symm] at hfree
      rcases hfree with hn | hn <;> cases hn
      rfl
  refine h.of_persists (.written hj ht hv) (fun T' c' h' => .inr ⟨hs, hj, ht, hv⟩) ?_ ?_ ?_
  · intro T' c' h'
    rw [hterm, hvote]
    rcases hin T' c' h' with hold | ⟨rfl, rfl⟩
    · have hm := h.memory T' c' hold
      refine ⟨?_, fun heq => ?_⟩
      · rcases hfree with hlt | ⟨heq, -⟩
        · exact hm.1.trans (by omega)
        · exact heq ▸ hm.1
      · subst heq
        rw [hsame c' hold]
    · exact ⟨le_rfl, fun _ => rfl⟩
  · intro T' a b ha hb
    rcases hin T' a ha with ha | ⟨rfl, rfl⟩
    · rcases hin T' b hb with hb | ⟨rfl, rfl⟩
      · exact h.one T' a b ha hb
      · exact hsame a ha
    · rcases hin T' b hb with hb | ⟨-, rfl⟩
      · exact (hsame b hb).symm
      · rfl
  · intro hl
    obtain ⟨hl, heq⟩ := hstate hl
    rw [hterm, htrace, ← heq]
    exact mem_append_left _ (h.leader hl)

/-! ## Small changes -/

variable [LinearOrder NodeId]

theorem VoteNode.acceptAppend {io : AppendIO} {req : AppendEntriesRequest NodeId Cmd}
    (h : VoteNode n) : VoteNode (n.acceptAppend io now req).1 := by
  have hnone : ∀ m : Node NodeId Cmd, ∃ tr, m.trace = m.trace ++ tr ∧ ∀ T c, .voted T c ∉ tr :=
    fun m => ⟨[], (append_nil _).symm, by simp⟩
  refine acceptAppend_induct h ?_ ?_ ?_ ?_ ?_
  · exact fun _ hm => hm.of_same rfl (hnone _) id (.nil rfl)
  · refine fun _ hm => hm.of_same rfl (hnone _) id (.same rfl fun w hw => ?_)
    obtain ⟨i, -, rfl⟩ := mem_map.mp hw
    rfl
  · refine fun hm => hm.of_same rfl (hnone _) id (.same rfl fun w hw => ?_)
    obtain ⟨e, -, rfl⟩ := mem_map.mp hw
    rfl
  · exact fun hm => hm.of_same rfl (hnone _) id (.nil rfl)
  · exact fun _ hm _ => hm.of_same rfl (hnone _) id (.written rfl rfl rfl)

omit [LinearOrder NodeId] in
theorem Write.Minor.keepsHardState {w : Write NodeId Cmd} {base : List (RaftPeer NodeId)}
    {logBase : ℕ} (h : w.Minor base logBase) : Disk.keepsHardState w = true := by
  cases w <;> first | rfl | cases h

/-- A restarted node takes up the term and vote on its disk. -/
theorem VoteNode.restore {okRestore : Bool} (h : VoteNode n)
    (hm : (S.fresh n).restore okRestore n.disk = some n') : VoteNode n' := by
  have hk := Kept.restore hm
  have htrace : n'.trace = n.trace := by
    rw [hk.trace]
    unfold restoreHardState
    split <;> rfl
  have hdisk : n'.disk = n.disk := by
    rw [Node.disk, hk.journal]
    unfold restoreHardState
    split <;> rfl
  have hstate : n'.state = .follower := by
    rw [hk.state]
    unfold restoreHardState
    split <;> rfl
  refine ⟨fun T c hT => ?_, fun T c hT => ?_, fun T c c' hT hT' => ?_, fun hl => ?_⟩
  · obtain ⟨hs, hd, hh⟩ := h.disk T c (htrace ▸ hT)
    rw [hk.currentTerm, hk.votedFor]
    unfold restoreHardState
    rw [hd]
    exact hh
  · rw [hdisk]
    exact h.disk T c (htrace ▸ hT)
  · exact h.one T c c' (htrace ▸ hT) (htrace ▸ hT')
  · rw [hstate] at hl
    cases hl

/-- **Every small change keeps recorded votes honoured.** -/
theorem Micro.voteNode (h : VoteNode n) (hm : Micro S net now v n l n' out) : VoteNode n' := by
  have hnone : ∃ tr, n.trace = n.trace ++ tr ∧ ∀ T c, .voted T c ∉ tr :=
    ⟨[], (append_nil _).symm, by simp⟩
  cases hm with
  | persist | skip => exact h.of_same rfl hnone id (.written rfl rfl rfl)
  | write hminor =>
    exact h.of_same rfl hnone id (.same rfl fun w hw => Write.Minor.keepsHardState (hminor w hw))
  | newTerm _ _ hterm => exact h.of_later hterm rfl (by simp) (.written rfl rfl rfl)
  | stepDown | preVote => exact h.of_same rfl hnone (fun hl => by cases hl) (.nil rfl)
  | standFailed => exact h.of_later (Nat.lt_succ_self _) rfl (by simp) (.nil rfl)
  | stand =>
    exact h.of_vote rfl rfl rfl (.inl (Nat.lt_succ_self _)) (fun hl => by cases hl) rfl rfl rfl
  | castVote _ _ _ hterm hfree =>
    exact h.of_vote rfl rfl rfl (.inr ⟨rfl, hfree⟩) (fun hl => ⟨hl, rfl⟩) rfl rfl rfl
  | leadFailed =>
    exact h.of_same rfl ⟨_, rfl, by simp⟩ (fun hl => by cases hl) (.nil rfl)
  | lead =>
    have h' : VoteNode { n with
      state := .follower, trace := n.trace ++ [.becameLeader n.currentTerm] } :=
      h.of_same rfl ⟨_, rfl, by simp⟩ (fun hl => by cases hl) (.nil rfl)
    refine h'.of_persists (.same rfl (by simp [Disk.keepsHardState])) (fun T c hT =>
      .inl hT) h'.memory
      h'.one fun _ => ?_
    exact mem_append_right _ (mem_singleton.mpr rfl)
  | accept => exact h.acceptAppend
  | commit => exact h.of_same rfl ⟨_, rfl, by simp⟩ id (.written rfl rfl rfl)
  | publish | takeSnapshot | appendCommand =>
    exact h.of_same rfl hnone id (.same rfl (by simp [Disk.keepsHardState]))
  | hand => exact h.of_same rfl ⟨_, rfl, by simp⟩ id (.nil rfl)
  | applyChange _ _ _ hminor =>
    exact h.of_same rfl ⟨_, rfl, by simp⟩ id (.same rfl fun w hw =>
      Write.Minor.keepsHardState (hminor w hw))
  | propose =>
    exact h.of_same rfl hnone id (.same rfl (by simp [Disk.keepsHardState, storeLogs]))
  | restore _ hm => exact h.restore hm
  | _ => exact h.of_same rfl hnone id (.nil rfl)

/-- The trace only grows. -/
theorem Micro.trace_prefix (hm : Micro S net now v n l n' out) : n.trace <+: n'.trace := by
  cases hm with
  | stand | castVote | leadFailed | lead | commit | hand | applyChange => exact prefix_append ..
  | accept =>
    exact acceptAppend_induct (P := fun m => n.trace <+: m.trace) (prefix_refl _)
      (fun _ => id) (fun _ => id) id id fun _ h _ => h
  | restore _ hm =>
    rw [(Kept.restore hm).trace]
    unfold restoreHardState
    split <;> exact prefix_refl _
  | _ => exact prefix_refl _

end Anubis.Raft
