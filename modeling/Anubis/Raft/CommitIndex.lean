import Anubis.Raft.StateMachineSafety

/-!
# Commit indexes

What a node applied is committed, and what is committed is in its log. The stores
keep up with the memory: every entry past the base is stored, and the hard state
names no commit index that the stored log does not reach. So a restart finds the
log again, with one exception: a node whose log store is empty and which keeps its
state comes back with an empty log.
-/

namespace Anubis.Raft

open List Node Option Quorum Runs

variable {NodeId Cmd : Type}

/-! ## What is stored -/

namespace Disk

variable {d : Disk NodeId Cmd} {j ws : List (Write NodeId Cmd)} {i lo hi lo' hi' : ℕ}

/-- An entry with this index is stored. -/
def Has (d : Disk NodeId Cmd) (i : ℕ) : Prop := ∃ e ∈ d.logs, e.index = i

/-- The entries `lo + 1 … hi` are stored. -/
def Stores (d : Disk NodeId Cmd) (lo hi : ℕ) : Prop := ∀ i, lo < i → i ≤ hi → d.Has i

theorem Stores.mono (h : d.Stores lo hi) (hlo : lo ≤ lo') (hhi : hi' ≤ hi) : d.Stores lo' hi' :=
  fun i h₁ h₂ => h i (hlo.trans_lt h₁) (h₂.trans hhi)

/-- An entry stays until it is deleted. -/
theorem has_replay_append (h : (replay j).Has i ∨ ∃ e, .putLog e ∈ ws ∧ e.index = i)
    (hws : .deleteLog i ∉ ws) : (replay (j ++ ws)).Has i := by
  rw [replay_append]
  generalize replay j = d at h
  induction ws generalizing d with
  | nil => exact h.resolve_right (by simp)
  | cons w ws ih =>
    refine ih (fun hmem => hws (.tail _ hmem)) (d.write w) ?_
    rcases h with ⟨x, hx, rfl⟩ | ⟨e, he, rfl⟩
    · left
      cases w with
      | putLog e =>
        by_cases heq : x.index = e.index
        · exact ⟨e, by simp [write], heq.symm⟩
        · exact ⟨x, by simp [write, hx, heq], rfl⟩
      | deleteLog k =>
        have hne : x.index ≠ k := by
          rintro rfl
          exact hws (by simp)
        exact ⟨x, by simp [write, hx, hne], rfl⟩
      | _ => exact ⟨x, hx, rfl⟩
    · rcases mem_cons.mp he with rfl | he
      · exact .inl ⟨e, by simp [write], rfl⟩
      · exact .inr ⟨e, he, rfl⟩

/-- The hard state is the last one written. -/
theorem hardState_of_append {h : HardState NodeId} (hd : (replay (j ++ ws)).hardState = some h) :
    .hardState h ∈ ws ∨ (replay j).hardState = some h := by
  induction ws using reverseRecOn with
  | nil => exact .inr (by rwa [append_nil] at hd)
  | append_singleton ws w ih =>
    rw [← append_assoc, replay_concat] at hd
    cases w with
    | hardState =>
      cases hd
      exact .inl (by simp)
    | _ => exact (ih hd).imp_left (mem_append_left _)

end Disk

/-- A hard state that a restart can go by: its indexes are in order, and the stored
log reaches its commit index. -/
structure HardState.Backed (d : Disk NodeId Cmd) (h : HardState NodeId) : Prop where
  base : h.logBase ≤ h.lastApplied
  applied : h.lastApplied ≤ h.commitIndex
  term : h.logBase = 0 → h.logBaseTerm = 0
  stored : d.Stores h.logBase h.commitIndex

/-- **The stores keep up with the memory.** -/
structure Node.Backed (n : Node NodeId Cmd) : Prop where
  committed : n.commitIndex ≤ n.lastLogIndex
  log : n.disk.Stores n.logBase n.lastLogIndex
  hard : ∀ h, n.disk.hardState = some h → h.Backed n.disk ∧ h.commitIndex ≤ n.commitIndex
  snapshot : ∀ s, .snapshot s ∈ n.journal → 0 < s.index

section Keeping

variable {whole : Prop} {n m : Node NodeId Cmd} {F : List (RaftLogEntry NodeId Cmd)}
  {ws : List (Write NodeId Cmd)} {req : AppendEntriesRequest NodeId Cmd} {index now : ℕ}

/-- **Writes** that delete nothing the node or its hard state needs. -/
theorem Node.Backed.wrote (h : n.Backed) (hj : m.journal = n.journal ++ ws)
    (hci : n.commitIndex ≤ m.commitIndex) (hcommitted : m.commitIndex ≤ m.lastLogIndex)
    (hlog : ∀ i, m.logBase < i → i ≤ m.lastLogIndex → .deleteLog i ∉ ws ∧
      (n.logBase < i ∧ i ≤ n.lastLogIndex ∨ ∃ e, .putLog e ∈ ws ∧ e.index = i))
    (hdelete : ∀ h, n.disk.hardState = some h → ∀ i, h.logBase < i → i ≤ n.commitIndex →
      .deleteLog i ∉ ws)
    (hhard : ∀ h, .hardState h ∈ ws → h.logBase = m.logBase ∧ h.logBase ≤ h.lastApplied ∧
      h.lastApplied ≤ h.commitIndex ∧ h.commitIndex ≤ m.commitIndex ∧
      (h.logBase = 0 → h.logBaseTerm = 0))
    (hsnap : ∀ s, .snapshot s ∈ ws → 0 < s.index) : m.Backed := by
  have hdisk : m.disk = Disk.replay (n.journal ++ ws) := congrArg Disk.replay hj
  have hstored : m.disk.Stores m.logBase m.lastLogIndex := by
    intro i hlo hhi
    obtain ⟨hkept, hi⟩ := hlog i hlo hhi
    rw [hdisk]
    exact Disk.has_replay_append (hi.imp_left fun hi => h.log i hi.1 hi.2) hkept
  refine ⟨hcommitted, hstored, fun k hk => ?_, fun s hs => ?_⟩
  · rw [hdisk] at hk
    rcases Disk.hardState_of_append hk with hk | hk
    · obtain ⟨hbase, hb, ha, hle, hterm⟩ := hhard k hk
      exact ⟨⟨hb, ha, hterm, hstored.mono hbase.ge (hle.trans hcommitted)⟩, hle⟩
    · obtain ⟨hok, hle⟩ := h.hard k hk
      refine ⟨{ hok with stored := fun i hlo hhi => ?_ }, hle.trans hci⟩
      rw [hdisk]
      exact Disk.has_replay_append (.inl (hok.stored i hlo hhi))
        (hdelete k hk i hlo (hhi.trans hle))
  · rw [hj, mem_append] at hs
    exact hs.elim (h.snapshot s) (hsnap s)

/-- **A hard state is written**, with a commit index that the log reaches. -/
theorem Node.Backed.saved (h : n.Backed) (hs : n.Sound whole) {term k applied : ℕ}
    {vote : Option NodeId} (hk : n.commitIndex ≤ k) (hlast : k ≤ n.lastLogIndex)
    (happlied : n.lastApplied ≤ applied) (hle : applied ≤ k)
    (hm : (m.log, m.logBase, m.commitIndex) = (n.log, n.logBase, k))
    (hj : m.journal = n.journal ++
      [.hardState ⟨term, vote, k, applied, n.logBase, n.logBaseTerm⟩]) : m.Backed := by
  obtain ⟨hlog, hbase, hci⟩ := by simpa only [Prod.mk.injEq] using hm
  obtain ⟨F, hF⟩ := hs.log
  have hsame : m.lastLogIndex = n.lastLogIndex := by rw [lastLogIndex, lastLogIndex, hlog, hbase]
  refine h.wrote hj (hci ▸ hk) (by rw [hci, hsame]; exact hlast) (fun i hlo hhi => ?_)
    (by simp) (fun h' hh' => ?_) (by simp)
  · rw [hbase] at hlo
    rw [hsame] at hhi
    exact ⟨by simp, .inl ⟨hlo, hhi⟩⟩
  · rw [mem_singleton, Write.hardState.injEq] at hh'
    subst hh'
    refine ⟨hbase.symm, hs.applied.1.trans happlied, hle, hci.ge, fun (h0 : n.logBase = 0) => ?_⟩
    have hterm := hF.baseTerm
    rw [h0] at hterm
    exact hterm

/-- Entries that are numbered on have every number. -/
theorem Indexed.exists_index {G es : List (RaftLogEntry NodeId Cmd)} (h : Indexed (G ++ es)) {i : ℕ}
    (hlo : G.length < i) (hhi : i ≤ G.length + es.length) : ∃ e ∈ es, e.index = i := by
  have hlt : i - 1 - G.length < es.length := by omega
  refine ⟨es[i - 1 - G.length], getElem_mem hlt, ?_⟩
  have := h (i - 1) es[i - 1 - G.length] (by
    rw [getElem?_append_right (by omega), getElem?_eq_getElem hlt])
  omega

/-- **Entries are put at the end of the log.** -/
theorem Node.Backed.extend (h : n.Backed) {es : List (RaftLogEntry NodeId Cmd)}
    (hF : LogRep n F n.logBase) (hlong : LogRep m (F ++ es) n.logBase)
    (hm : (m.commitIndex, m.journal) = (n.commitIndex, n.journal ++ storeLogs es)) : m.Backed := by
  obtain ⟨hci, hj⟩ := by simpa only [Prod.mk.injEq] using hm
  have hlast := hlong.lastLogIndex
  rw [length_append, ← hF.lastLogIndex] at hlast
  have hle := h.committed
  refine h.wrote hj hci.ge (by omega) (fun i hlo hhi => ⟨by simp [storeLogs], ?_⟩)
    (by simp [storeLogs]) (by simp [storeLogs]) (by simp [storeLogs])
  rw [hlong.base] at hlo
  rcases Nat.lt_or_ge n.lastLogIndex i with hi | hi
  · rw [hlast, hF.lastLogIndex] at hhi
    obtain ⟨e, he, hidx⟩ := hlong.indexed.exists_index (hF.lastLogIndex ▸ hi) hhi
    exact .inr ⟨e, List.mem_map.mpr ⟨e, he, rfl⟩, hidx⟩
  · exact .inl ⟨hlo, hi⟩

/-- The log is cut off past the commit index. -/
theorem Node.Backed.truncateLog (h : n.Backed) (hs : n.Sound whole)
    (hcons : n.checkLogConsistency req = none)
    (hconf : n.conflictAt (req.prevLogIndex + 1) req.entries = some index)
    (hlt : n.commitIndex < index) : (n.truncateLog index).Backed := by
  obtain ⟨F, hF⟩ := hs.log
  obtain ⟨hb, hlen, -, hcut⟩ := hF.conflict hcons hconf
  have hlast : (n.truncateLog index).lastLogIndex = index - 1 := by
    rw [hcut.lastLogIndex, length_take]
    omega
  have hdeleted : ∀ i, .deleteLog i ∈ (deleteRange index n.lastLogIndex : List (Write NodeId Cmd)) →
      index ≤ i := by
    intro i hi
    simp only [deleteRange, List.mem_map, mem_range'_1, Write.deleteLog.injEq] at hi
    obtain ⟨_, hle, rfl⟩ := hi
    exact hle.1
  refine h.wrote rfl le_rfl (by rw [hlast]; exact Nat.le_sub_one_of_lt hlt)
    (fun i hlo hhi => ?_) (fun _ _ i _ hi hmem => ?_) (by simp [deleteRange])
    (by simp [deleteRange])
  · rw [hlast] at hhi
    refine ⟨fun hmem => ?_, .inl ⟨hlo, by rw [hF.lastLogIndex]; omega⟩⟩
    have := hdeleted i hmem
    omega
  · have := hdeleted i hmem
    omega

/-- What a node takes over of a request are the entries past its log. -/
theorem le_length_newEntries (last idx : ℕ) (es : List (RaftLogEntry NodeId Cmd)) :
    es.length ≤ (newEntries last idx es).length + (last + 1 - idx) := by
  induction es generalizing idx with
  | nil => exact Nat.zero_le _
  | cons e es ih =>
    have hrest := ih (idx + 1)
    unfold newEntries
    split <;> simp only [length_cons] <;> omega

/-- The missing entries of a request are put at the end of the log, which then
reaches the request's end. -/
theorem Node.Backed.extended (h : n.Backed) (hs : n.Sound whole)
    (hprev : req.prevLogIndex ≤ n.lastLogIndex) : (n.extended (n.missing req)).Backed ∧
    req.prevLogIndex + req.entries.length ≤ (n.extended (n.missing req)).lastLogIndex := by
  obtain ⟨F, hF⟩ := hs.log
  have hlong := hF.extended (hF.lastLogIndex ▸ hprev)
  refine ⟨h.extend hF hlong rfl, ?_⟩
  have hreach := le_length_newEntries n.lastLogIndex (req.prevLogIndex + 1) req.entries
  rw [hlong.lastLogIndex, length_append, ← hF.lastLogIndex]
  unfold missing
  omega

/-- Conflicts are conflicts with the log. -/
theorem conflictAt_congr (hlog : (m.log, m.logBase) = (n.log, n.logBase)) (idx : ℕ)
    (es : List (RaftLogEntry NodeId Cmd)) : m.conflictAt idx es = n.conflictAt idx es := by
  obtain ⟨hlog, hbase⟩ := by simpa only [Prod.mk.injEq] using hlog
  induction es generalizing idx with
  | nil => rfl
  | cons e es ih =>
    unfold conflictAt logEntry logPosition
    rw [ih, hlog, hbase]

/-- The base moves up. -/
theorem Node.Backed.rebased (h : n.Backed) {F' : List (RaftLogEntry NodeId Cmd)} {b : ℕ}
    (hF : LogRep n F n.logBase) (hm : LogRep m F' b) (hb : n.logBase ≤ b)
    (hlen : F'.length = max b F.length) (hci : n.commitIndex ≤ m.commitIndex)
    (hcommitted : m.commitIndex ≤ F'.length) (hj : m.journal = n.journal) : m.Backed := by
  refine h.wrote (hj.trans (append_nil _).symm) hci (hm.lastLogIndex.symm ▸ hcommitted)
    (fun i hlo hhi => ⟨by simp, .inl ?_⟩) (by simp) (by simp) (by simp)
  rw [hm.base] at hlo
  rw [hm.lastLogIndex, hlen] at hhi
  rw [hF.lastLogIndex]
  omega

/-- Minor writes delete up to a base that the hard state has. -/
theorem Node.Backed.minor (h : n.Backed) {members : List (RaftPeer NodeId)} {b : ℕ}
    (hm : (m.log, m.logBase, m.commitIndex, m.journal) =
      (n.log, n.logBase, n.commitIndex, n.journal ++ ws))
    (hminor : ∀ w ∈ ws, w.Minor members b) (hb : b ≤ n.logBase)
    (hhard : ∀ i, .deleteLog i ∈ ws → ∀ k, n.disk.hardState = some k → b ≤ k.logBase) :
    m.Backed := by
  obtain ⟨hlog, hbase, hci, hj⟩ := by simpa only [Prod.mk.injEq] using hm
  have hsame : m.lastLogIndex = n.lastLogIndex := by rw [lastLogIndex, lastLogIndex, hlog, hbase]
  refine h.wrote hj hci.ge (by rw [hci, hsame]; exact h.committed)
    (fun i hlo hhi => ⟨fun hmem => ?_, .inl ⟨hbase ▸ hlo, hsame ▸ hhi⟩⟩)
    (fun k hk i hlo _ hmem => ?_) (fun _ hmem => (hminor _ hmem).elim)
    fun _ hmem => (hminor _ hmem).elim
  · have hle : i ≤ b := hminor _ hmem
    omega
  · have hle : i ≤ b := hminor _ hmem
    have := hhard i hmem k hk
    omega

variable [LinearOrder NodeId] {S : Setup NodeId} {net : List (Msg NodeId Cmd)} {v : NodeId}
  {n' : Node NodeId Cmd} {l : Label} {out : List (Msg NodeId Cmd)}

theorem Node.Backed.refreshMembership (h : n.Backed) : n.refreshMembership.Backed :=
  ⟨h.committed, h.log, h.hard, h.snapshot⟩

/-- **A request is accepted** that conflicts with nothing committed. -/
theorem Node.Backed.acceptAppend (h : n.Backed) (hs : n.Sound whole) (io : AppendIO)
    (hsafe : ∀ k ∈ n.conflictAt (req.prevLogIndex + 1) req.entries, n.commitIndex < k) :
    (n.acceptAppend io now req).1.Backed := by
  have hcommit : ∀ {m : Node NodeId Cmd}, m.Backed → m.Sound whole →
      req.prevLogIndex + req.entries.length ≤ m.lastLogIndex →
      (m.updateCommitIndex io.commit req).Backed := by
    intro m hm hs hreach
    rcases updateCommitIndex_cases io.commit with heq | ⟨k, hlt, -, hk, heq⟩
    · rwa [heq]
    · rw [heq]
      exact hm.saved hs hlt.le (hk.trans hreach) le_rfl (hs.applied.2.trans hlt.le) rfl rfl
  have hm : (n.contacted now req.leaderID).Backed :=
    ⟨h.committed, h.log, h.hard, h.snapshot⟩
  have hms : (n.contacted now req.leaderID).Sound whole := by
    obtain ⟨F, hF⟩ := hs.log
    exact { hs with log := ⟨F, hF.of_same rfl⟩ }
  have hcases := acceptAppend_cases n io now req
  have hsafe' : ∀ k ∈ (n.contacted now req.leaderID).conflictAt (req.prevLogIndex + 1) req.entries,
      (n.contacted now req.leaderID).commitIndex < k := by
    rwa [conflictAt_congr (m := n.contacted now req.leaderID) (n := n) rfl]
  generalize n.contacted now req.leaderID = m at hm hms hcases hsafe'
  generalize (n.acceptAppend io now req).1 = n', (n.acceptAppend io now req).2 = resp at hcases ⊢
  obtain ⟨F, hF⟩ := hms.log
  have hprev : m.checkLogConsistency req = none → req.prevLogIndex ≤ m.lastLogIndex := by
    intro hcons
    rw [hF.lastLogIndex]
    exact (hF.consistent hcons).2.1
  cases hcases with
  | unchanged => exact hm
  | truncated hcons hconf =>
    exact (hm.truncateLog hms hcons hconf (hsafe' _ hconf)).refreshMembership
  | extended hcons =>
    obtain ⟨hlong, hreach⟩ := hm.extended hms (hprev hcons)
    exact hcommit hlong (hms.extended (hprev hcons)) hreach
  | changed hcons =>
    obtain ⟨hlong, hreach⟩ := hm.extended hms (hprev hcons)
    exact hcommit hlong.refreshMembership (hms.extended (hprev hcons)).refreshMembership hreach
  | @replaced index resp hcons hconf =>
    obtain ⟨-, hlen, hlt, hcut⟩ := hF.conflict hcons hconf
    have hcutSound := hms.truncateLog hcons hconf
    have hle : req.prevLogIndex ≤ (m.truncateLog index).lastLogIndex := by
      rw [hcut.lastLogIndex, length_take]
      omega
    obtain ⟨hlong, hreach⟩ :=
      (hm.truncateLog hms hcons hconf (hsafe' _ hconf)).extended hcutSound hle
    exact hcommit hlong.refreshMembership (hcutSound.extended hle).refreshMembership hreach

/-- **Every other small change but a restart** keeps the stores up with the memory. -/
theorem Micro.backed (hm : Micro S net now v n l n' out) (hr : l ≠ .restart) (ha : l ≠ .append)
    (hs : n.Sound whole) (h : n.Backed) : n'.Backed := by
  obtain ⟨F, hF⟩ := hs.log
  have hle := hs.applied.2
  cases hm with
  | persist | newTerm | stand | castVote =>
    exact h.saved hs le_rfl h.committed le_rfl hle rfl rfl
  | commit _ hcand =>
    obtain ⟨hlt, ⟨e, he, -⟩, -⟩ := commitCandidate_spec hcand
    rw [hF.logEntry_of_lt (hs.applied.1.trans_lt (hle.trans_lt hlt))] at he
    have hlen := (List.getElem?_eq_some_iff.mp he).1
    exact h.saved hs hlt.le (by rw [hF.lastLogIndex]; omega) le_rfl (hle.trans hlt.le) rfl rfl
  | skip happlier =>
    obtain ⟨htarget, hlt, -⟩ := hs.within happlier
    exact h.saved hs le_rfl h.committed (Nat.le_succ _) (hlt.trans_le htarget) rfl rfl
  | write hminor hsaved =>
    refine h.minor rfl hminor le_rfl fun i hi k hk => ?_
    rw [hsaved i hi] at hk
    cases hk
    exact le_rfl
  | applyChange _ _ _ hminor =>
    exact h.minor rfl hminor (Nat.zero_le _) fun _ _ _ _ => Nat.zero_le _
  | lead | appendCommand | propose =>
    exact h.extend hF ((hs.append ⟨n.lastLogIndex + 1, n.currentTerm, _⟩ rfl hF).1.of_same rfl) rfl
  | publish _ _ _ _ hnew | takeSnapshot _ _ _ hnew =>
    refine h.wrote rfl le_rfl h.committed (fun i hlo hhi => ⟨by simp, .inl ⟨hlo, hhi⟩⟩) (by simp)
      (by simp) fun s hs => ?_
    rw [mem_singleton, Write.snapshot.injEq] at hs
    exact hs ▸ Nat.zero_lt_of_lt hnew
  | @install c base resp hloop =>
    obtain ⟨-, hlt⟩ := hs.restore c hloop
    have hb := hs.applied.1.trans hlt.le
    obtain ⟨G, hlen, hnew⟩ := hF.installed (Nat.zero_lt_of_lt hlt) hb
    have hci := hF.lastLogIndex ▸ h.committed
    have hmax : (G.take c.transfer.snapshot.index ++ F.drop c.transfer.snapshot.index).length =
        max c.transfer.snapshot.index F.length := by
      rw [length_append, length_take, length_drop]
      omega
    refine h.rebased hF (hnew _ rfl rfl rfl) hb hmax (le_max_left _ _) ?_ rfl
    rw [hmax]
    exact max_le (hci.trans (le_max_right _ _)) (le_max_left _ _)
  | compact happlier hbase hlast hpos =>
    have hnew := compactionBase_le n
    refine h.rebased hF (hF.compacted hbase hlast hpos rfl rfl rfl) hbase.le ?_ le_rfl
      (hF.lastLogIndex ▸ h.committed) rfl
    exact (max_eq_right ((hnew _).trans (hF.lastLogIndex ▸ hlast))).symm
  | accept => exact absurd rfl ha
  | restore | replay => exact absurd rfl hr
  | _ => exact ⟨h.committed, h.log, h.hard, h.snapshot⟩

end Keeping

/-! ## Restarts -/

/-- `restoreLog` takes the log store for empty. -/
abbrev Disk.NoLog (d : Disk NodeId Cmd) : Prop := d.lastIndex < d.firstIndex ∨ d.firstIndex = 0

/-- A restart that takes the log store for empty restores a snapshot with all that was
committed, or nothing was. -/
def Disk.Restorable (durable : Bool) (d : Disk NodeId Cmd) : Prop :=
  d.NoLog → ∀ h ∈ d.hardState, h.commitIndex = 0 ∨
    ∃ s ∈ d.snapshot, h.commitIndex ≤ s.index ∧ (durable = true → h.lastApplied < s.index)

section Restarting

variable {n m k : Node NodeId Cmd} {d : Disk NodeId Cmd}

/-- A node that is being restored: its indexes are in order and the store reaches
them. -/
def Node.Restoring (d : Disk NodeId Cmd) (n : Node NodeId Cmd) : Prop :=
  n.logBase ≤ n.lastApplied ∧ n.lastApplied ≤ n.commitIndex ∧
    (n.logBase = 0 → n.logBaseTerm = 0) ∧ d.Stores n.logBase n.commitIndex

/-- A node with its hard state: an empty log, and what a restart can go by. -/
def Node.Starting (d : Disk NodeId Cmd) (config : Config) (n : Node NodeId Cmd) : Prop :=
  Restoring d n ∧ n.log = [baseMarker 0 0] ∧
    (∀ h, d.hardState = some h → h.commitIndex ≤ n.commitIndex) ∧ n.config = config ∧
    (d.NoLog → n.commitIndex = 0 ∨ ∃ s ∈ d.snapshot, n.commitIndex ≤ s.index ∧
      (config.stateIsDurable = true → n.lastApplied < s.index))

/-- A log that is numbered on from the base, and reaches the commit index. -/
theorem Node.Restoring.finish (h : Restoring d n) {entries : List (RaftLogEntry NodeId Cmd)}
    (hlog : n.log = baseMarker n.logBase n.logBaseTerm :: entries)
    (hmem : ∀ e ∈ entries, e ∈ d.logs)
    (hidx : ∀ (i : ℕ) e, entries[i]? = some e → e.index = n.logBase + 1 + i)
    (hci : n.commitIndex ≤ n.logBase + entries.length) :
    (∃ F, LogRep n F n.logBase) ∧ n.commitIndex ≤ n.lastLogIndex ∧
      d.Stores n.logBase n.lastLogIndex := by
  obtain ⟨G, hG, hlen, hterm⟩ : ∃ G : List (RaftLogEntry NodeId Cmd), Indexed G ∧
      G.length = n.logBase ∧ termAt G n.logBase = n.logBaseTerm := by
    rcases Nat.eq_zero_or_pos n.logBase with h0 | hpos
    · exact ⟨[], .nil, h0.symm, by rw [h0, h.2.2.1 h0]; rfl⟩
    · exact exists_indexed hpos _
  have hbase : LogRep { n with log := [baseMarker n.logBase n.logBaseTerm] } G n.logBase :=
    ⟨rfl, hterm.symm, hlen.ge, by rw [hterm, drop_eq_nil_of_le hlen.le], hG⟩
  have hF : LogRep n (G ++ entries) n.logBase := by
    refine hbase.append (fun i e he => ?_) hlog rfl rfl
    rcases Nat.lt_or_ge i G.length with hi | hi
    · exact hG i e (by rwa [getElem?_append_left hi] at he)
    · rw [getElem?_append_right hi] at he
      rw [hidx _ e he]
      omega
  have hlast : n.lastLogIndex = n.logBase + entries.length := by
    rw [hF.lastLogIndex, length_append, hlen]
  refine ⟨⟨_, hF⟩, by rwa [hlast], fun i hlo hhi => ?_⟩
  obtain ⟨e, he, hi⟩ := hF.indexed.exists_index (hlen ▸ hlo) (by rwa [hlen, ← hlast])
  exact ⟨e, hmem e he, hi⟩

/-- The snapshot is restored, or the log that is kept is in the store. -/
theorem Node.Starting.snapshot {config : Config} {okRestore : Bool} (hk : Starting d config k)
    (hpos : ∀ s ∈ d.snapshot, 0 < s.index)
    (hm : k.restoreLatestSnapshot okRestore d = some m) : Restoring d m ∧
    (d.NoLog → m.log = [baseMarker m.logBase m.logBaseTerm] ∧ m.commitIndex ≤ m.logBase) ∧
    k.commitIndex ≤ m.commitIndex := by
  obtain ⟨h, hlog, -, rfl, hd⟩ := hk
  have hzero : k.commitIndex = 0 →
      k.log = [baseMarker k.logBase k.logBaseTerm] ∧ k.commitIndex ≤ k.logBase := fun h0 => by
    have hb : k.logBase = 0 := Nat.le_zero.mp (h0 ▸ h.1.trans h.2.1)
    exact ⟨by rw [hlog, hb, h.2.2.1 hb], by rw [h0, hb]⟩
  unfold restoreLatestSnapshot at hm
  split at hm
  · rename_i hnone
    cases hm
    exact ⟨h, fun he => hzero ((hd he).resolve_right (by simp [hnone])), le_rfl⟩
  rename_i s hs
  simp only [hs, mem_some_iff, exists_eq_left'] at hd
  split at hm
  · rename_i hlt
    cases hm
    have hle := h.1.trans h.2.1
    exact ⟨h, fun he => hzero ((hd he).resolve_right fun h => by omega), le_rfl⟩
  split at hm
  · rename_i hkept
    cases hm
    refine ⟨h, fun he => hzero ((hd he).resolve_right fun h => ?_), le_rfl⟩
    have := h.2 hkept.1
    omega
  split at hm
  · cases hm
    refine ⟨⟨le_rfl, le_max_right _ _, fun h0 => absurd h0 (hpos s hs).ne', fun i hlo hhi => ?_⟩,
      fun he => ⟨rfl, max_le ?_ le_rfl⟩, le_max_left _ _⟩
    · have hlo : s.index < i := hlo
      have hhi : i ≤ max k.commitIndex s.index := hhi
      exact h.2.2.2 i (by omega) (by omega)
    · exact (hd he).elim (fun h0 => h0 ▸ Nat.zero_le _) fun h => h.1
  · cases hm

/-- The log is read from the store. -/
theorem Node.Restoring.log (h : Restoring d k)
    (hempty : d.NoLog → k.log = [baseMarker k.logBase k.logBaseTerm] ∧ k.commitIndex ≤ k.logBase)
    (hm : k.restoreLog d = some m) : Restoring d m ∧ ((∃ F, LogRep m F m.logBase) ∧
    m.commitIndex ≤ m.lastLogIndex ∧ d.Stores m.logBase m.lastLogIndex) ∧
    m.commitIndex = k.commitIndex := by
  unfold restoreLog at hm
  dsimp only at hm
  split at hm
  · rename_i hnone
    cases hm
    exact ⟨h, h.finish (hempty hnone).1 (by simp) (by simp) (hempty hnone).2, rfl⟩
  split at hm
  · cases hm
  obtain ⟨entries, hread, rfl⟩ := map_eq_some_iff.mp hm
  obtain ⟨hlen, hmem, hidx⟩ := readLog_spec hread
  refine ⟨h, finish h rfl hmem hidx ?_, rfl⟩
  by_contra hlt
  have hlt : k.logBase + entries.length < k.commitIndex := not_le.mp hlt
  obtain ⟨e, he, heq⟩ := h.2.2.2 k.commitIndex (by omega) le_rfl
  have hmax : e.index ≤ d.lastIndex :=
    le_max?_getD_of_mem (mem_map_of_mem (f := RaftLogEntry.index) he)
  omega

variable [LinearOrder NodeId] {S : Setup NodeId} {okRestore : Bool}

/-- **A restart finds the log again.** -/
theorem Node.Backed.restored (h : n.Backed)
    (hd : n.disk.Restorable (S.config n.nodeID).stateIsDurable)
    (hm : (S.fresh n).restore okRestore n.disk = some m) : m.Sound False ∧ m.Backed := by
  have hkept := Kept.restore hm
  have hidle : ∀ d, let k := (S.fresh n).restoreHardState d
      k.loop = .idle ∧ k.applier = .idle ∧ k.commitCh = [] ∧ k.applyCh = [] ∧
        k.applyWaiters = [] ∧ k.journal = n.journal := fun d => by
    unfold restoreHardState
    split <;> exact ⟨rfl, rfl, rfl, rfl, rfl, rfl⟩
  obtain ⟨hloop, happlier, hcommitCh, hqueue, hwaiters, hjournal⟩ := hidle n.disk
  -- what it has from its hard state it has from then on
  have hhard : Starting n.disk (S.config n.nodeID) ((S.fresh n).restoreHardState n.disk) := by
    unfold restoreHardState
    cases hs : n.disk.hardState with
    | none =>
      refine ⟨⟨le_rfl, le_rfl, fun _ => rfl, fun i hlo hhi => ?_⟩, rfl, by simp [hs], rfl,
        fun _ => .inl rfl⟩
      exact absurd (hlo.trans_le hhi) (lt_irrefl _)
    | some k =>
      obtain ⟨hok, -⟩ := h.hard k hs
      exact ⟨⟨hok.base, hok.applied, hok.term, hok.stored⟩, rfl, by simp [hs], rfl,
        fun he => hd he k hs⟩
  unfold Node.restore at hm
  dsimp only at hm
  generalize (S.fresh n).restoreHardState n.disk = k at *
  have hpeers : Starting n.disk (S.config n.nodeID)
      { k.restorePeers n.disk with removed := n.disk.removed } := by
    unfold restorePeers
    split <;> exact hhard
  split at hm
  · cases hm
  rename_i k₁ hk₁
  obtain ⟨hbase₁, hempty₁, hci₁⟩ :=
    hpeers.snapshot (fun s hs => h.snapshot s (Disk.mem_of_snapshot hs)) hk₁
  split at hm
  · cases hm
  rename_i k₂ hk₂
  obtain ⟨hbase₂, hlast, hci₂⟩ := hbase₁.log hempty₁ hk₂
  have hm' : Restoring n.disk m ∧ (∃ F, LogRep m F m.logBase) ∧ m.commitIndex ≤ m.lastLogIndex ∧
      n.disk.Stores m.logBase m.lastLogIndex ∧ m.commitIndex = k₂.commitIndex := by
    obtain ⟨⟨F, hF⟩, hle, hstored⟩ := hlast
    cases hm
    split
    · exact ⟨hbase₂, ⟨F, hF.of_same rfl⟩, hle, hstored, rfl⟩
    · exact ⟨hbase₂, ⟨F, hF⟩, hle, hstored, rfl⟩
  obtain ⟨hrest, hF, hle, hstored, hci₃⟩ := hm'
  have hj : m.journal = n.journal := hkept.journal.trans hjournal
  have hdisk : m.disk = n.disk := congrArg Disk.replay hj
  refine ⟨⟨hF, ⟨hrest.1, hrest.2.1⟩, by simp [hkept.commitCh, hcommitCh], ?_,
    by simp [hkept.loop, hloop], by simp [hkept.loop, hloop], nofun, nofun,
    by simp [hkept.applyCh, hqueue], by simp [hkept.applyWaiters, hwaiters]⟩,
    hle, hdisk ▸ hstored, fun h' hh' => ?_, hj ▸ h.snapshot⟩
  · rw [hkept.applier, happlier]
    trivial
  · rw [hdisk] at hh' ⊢
    have := hpeers.2.2.1 h' hh'
    exact ⟨(h.hard h' hh').1, by omega⟩

end Restarting

/-! ## Runs -/

section Runs

variable [LinearOrder NodeId] {S : Setup NodeId} {s s' : Cluster NodeId Cmd}
  {e : Event NodeId Cmd} {M : List (RaftPeer NodeId)} {n m : Node NodeId Cmd} {now : ℕ} {v : NodeId}
  {net out : List (Msg NodeId Cmd)}

/-- **What a run must not do**: accept a request that conflicts with a committed
entry, or restart a node that does not find its log again. -/
def Cluster.Careful (S : Setup NodeId) (s : Cluster NodeId Cmd) : Event NodeId Cmd → Prop
  | .handleAppend i _ =>
    match s.net[i]? with
    | some (.append _ dst req _) => (s.nodes dst).currentTerm ≤ req.term →
      ∀ k ∈ (s.nodes dst).conflictAt (req.prevLogIndex + 1) req.entries,
        (s.nodes dst).commitIndex < k
    | _ => True
  | .restart v _ _ => (s.nodes v).disk.Restorable (S.config (s.nodes v).nodeID).stateIsDurable
  | _ => True

instance (S : Setup NodeId) (s : Cluster NodeId Cmd) : DecidablePred (s.Careful S) := by
  intro e
  unfold Cluster.Careful Disk.Restorable
  repeat' split
  all_goals infer_instance

/-- A node in order, with all that it needs in its stores. -/
def Node.Steady (n : Node NodeId Cmd) : Prop := n.Sound False ∧ n.Backed

theorem Path.steady {ok : Label → Prop} (h : Path S ok now v net n m out)
    (hok : ∀ l, ok l → l ≠ .restart ∧ l ≠ .append) (hn : n.Steady) : m.Steady :=
  h.invariant hn fun hl hn hm =>
    ⟨hm.sound (hok _ hl).1 hn.1, hm.backed (hok _ hl).1 (hok _ hl).2 hn.1 hn.2⟩

theorem Label.plain_apart (l : Label) (h : l = .plain) : l ≠ .restart ∧ l ≠ .append := by
  subst h
  exact ⟨Label.noConfusion, Label.noConfusion⟩

/-- **A request is taken up**, by the node as it is or as a follower in a new term. -/
theorem Node.Steady.handleAppendEntries (h : n.Steady) {src : NodeId} {sentAt : ℕ} (io : AppendIO)
    {req : AppendEntriesRequest NodeId Cmd} (hmsg : .append src v req sentAt ∈ net)
    (hidle : n.loop = .idle) (hsafe : n.currentTerm ≤ req.term →
      ∀ k ∈ n.conflictAt (req.prevLogIndex + 1) req.entries, n.commitIndex < k) (S : Setup NodeId) :
    (n.handleAppendEntries io now req).1.Steady := by
  have haccept : ∀ m : Node NodeId Cmd, m.Steady → m.loop = .idle → m.currentTerm = req.term →
      (m.log, m.logBase) = (n.log, n.logBase) → m.commitIndex = n.commitIndex →
      n.currentTerm ≤ req.term → (m.acceptAppend io now req).1.Steady := by
    intro m hm hloop hterm hlog hci hle
    have hmicro : Micro S net now v m .append (m.acceptAppend io now req).1 _ :=
      .accept hmsg hloop hterm
    refine ⟨hmicro.sound Label.noConfusion hm.1, hm.2.acceptAppend hm.1 io ?_⟩
    rw [conflictAt_congr hlog, hci]
    exact hsafe hle
  unfold Node.handleAppendEntries
  split
  · exact h
  split
  · rename_i hlt
    split
    · exact h
    · rename_i m hm
      obtain ⟨hloop, -, hterm, hlog, hci⟩ := loop_becomeFollower hm
      have hpath : Path S (· = .plain) now v net n m [] := path_becomeFollower rfl hlt hm
      exact haccept m (hpath.steady Label.plain_apart h) (hloop.trans hidle) hterm hlog hci hlt.le
  · exact haccept n h hidle (by omega) rfl rfl (by omega)

/-- **A node restarts**, and applies what is committed. -/
theorem Node.Steady.restarted (h : n.Steady) {okRestore : Bool} {ios : List ApplyIO}
    (hd : n.disk.Restorable (S.config n.nodeID).stateIsDurable)
    (hm : S.restarted n okRestore ios = some m) : m.Steady := by
  unfold Setup.restarted Node.start at hm
  split at hm
  · cases hm
  rename_i m₀ hm₀
  obtain ⟨hsound, hbacked⟩ := h.2.restored hd hm₀
  split at hm
  · cases hm
    exact ⟨hsound, hbacked⟩
  dsimp only at hm
  split at hm
  · cases hm
    have hloop : m₀.loop = .idle := (Kept.restore hm₀).loop.trans (restoreHardState_idle _).1
    have hpath : ∀ k : Node NodeId Cmd, Path S (· = .plain) 0 n.nodeID [] k
        (ios.foldl (fun m io => m.applierStep io) k) [] := path_applierSteps (by rfl) ios
    obtain ⟨F, hF⟩ := hsound.log
    refine (hpath _).steady Label.plain_apart ⟨{ hsound with
      log := ⟨F, hF.of_same rfl⟩
      applier := le_rfl
      publish := by simp [hloop]
      restore := by simp [hloop] }, ?_⟩
    exact ⟨hbacked.committed, hbacked.log, hbacked.hard, hbacked.snapshot⟩
  · cases hm

/-- **A step keeps every node in order.** -/
theorem steady_step (h : ∀ v, (s.nodes v).Steady) (hc : s.Careful S e)
    (hstep : step S s e = some s') : ∀ v, (s'.nodes v).Steady := by
  rcases step_cases hstep with ⟨d, rfl⟩ | ⟨v, n, out, hacts, rfl⟩
  · exact h
  refine (Function.forall_update_iff s.nodes fun _ => Node.Steady).mpr ⟨?_, fun u _ => h u⟩
  by_cases hl : e.label = .restart ∨ e.label = .append
  · cases hacts with
    | handleAppend hmsg hidle =>
      simp only [Cluster.Careful, hmsg] at hc
      exact (h v).handleAppendEntries _ (mem_of_getElem? hmsg) hidle hc S
    | restart hm => exact (h v).restarted hc hm
    | _ => simp [Event.label] at hl
  · refine (acts_path hacts).steady (fun l hlabel => ?_) (h v)
    rcases hlabel with hplain | rfl
    · exact Label.plain_apart l hplain
    · exact not_or.mp hl

/-- A leader at a commit index it may choose: the entry is of its term, and a
majority of the voters of its configuration have it. -/
structure Node.CommitsOwn (n : Node NodeId Cmd) : Prop where
  state : n.state = .leader
  entry : ∃ e, n.logEntry n.commitIndex = some e ∧ e.term = n.currentTerm
  majority : ∃ Q, IsMajority Q n.voters ∧ ∀ u ∈ Q, u = n.nodeID ∨ n.commitIndex ≤ n.matchIndex u

namespace Synced

variable (h : Synced n)

include h

theorem checkCommit (ok : Bool) (now : ℕ) :
    (n.checkCommit ok now).commitIndex = n.commitIndex ∨ (n.checkCommit ok now).CommitsOwn := by
  unfold Node.checkCommit
  split
  · exact .inl rfl
  rename_i hstate
  split
  · exact .inl rfl
  · rename_i k hcand
    obtain ⟨-, hentry, hquorum⟩ := commitCandidate_spec hcand
    unfold checkStandardCommit at hquorum
    simp only [Bool.and_eq_true, decide_eq_true_eq] at hquorum
    obtain ⟨Q, hQ, hok⟩ := h.exists_majority (lt_two_mul_of_half_lt hquorum.2)
    cases ok with
    | false => exact .inl rfl
    | true =>
      refine .inr ⟨not_not.mp hstate, hentry, Q, hQ, fun u hu => (hok u hu).imp_right ?_⟩
      rintro ⟨p, -, rfl, hp⟩
      exact of_decide_eq_true hp

theorem handleAppendEntriesResponse (okTerm ok : Bool) (now : ℕ) (peer : NodeId)
    (req : AppendEntriesRequest NodeId Cmd) (resp : AppendEntriesResponse) :
    let m := n.handleAppendEntriesResponse okTerm ok now peer req resp
    m.commitIndex = n.commitIndex ∨ m.CommitsOwn := by
  unfold Node.handleAppendEntriesResponse
  dsimp only
  split
  · exact .inl rfl
  split
  · left
    cases hm : n.becomeFollower okTerm now resp.term with
    | none => rfl
    | some m => exact (loop_becomeFollower hm).2.2.2.2
  split
  · exact .inl rfl
  split
  · split
    · exact .inl rfl
    · refine checkCommit (setNextIndex ?_ _ _) ok now
      exact h.of_same rfl
  · repeat' split
    all_goals exact .inl rfl

end Synced

end Runs

/-- Node `0` has the only vote. -/
def observed : Setup (Fin 2) where
  config _ := ⟨10, 64, 1, 1, true⟩
  members _ := [⟨0, .voter⟩, ⟨1, .nonVoter⟩]

/-- Node `0` applies two entries and sends node `1` a snapshot of them, which
installs it and restarts. -/
def observedRestart : List (Event (Fin 2) Unit) :=
  [.electionTimeout 0 true, .finishVote 0 true, .submit 0 (), .handleApply 0 true,
    .checkCommit 0 true, .startPass 0] ++ replicate 9 (.applierStep 0 {}) ++
    [.takeSnapshot 0 true [7], .applierStep 0 {}, .buildAppend 0 1 2, .openSnapshot 0,
      .sendSnapshot 1, .handleChunk 2 {}, .recheckInstall 1, .finishInstall 1 {},
      .restart 1 true []]

end Anubis.Raft
