import Anubis.Raft.StateMachineSafety

/-!
# Outcomes of proposals

`Apply`, `AddPeer` and `RemovePeer` wait for a future. A future that
succeeds was registered for an entry its node appended, in the term it led,
and the node applied an entry of exactly that index and term without an
error, at or below its commit index. Each future is completed at most once;
one that never is leaves its caller to time out.

So far a node looks at itself, and snapshots, membership changes and apply
failures may be mixed in any way. Where runs have a record, the applied entry is the
proposed one, and every node that commits that far has it.
-/

namespace Anubis.Raft

open Quorum Ledger List Node Cluster

variable {NodeId Cmd : Type} [LinearOrder NodeId] {M : List (RaftPeer NodeId)} {noChange : Prop}
  {g g' : Ledger NodeId (RaftLogEntry NodeId Cmd)} {u v : NodeId} {n n' : Node NodeId Cmd}
  {net : List (Msg NodeId Cmd)} {S : Setup NodeId} {l : Label} {out : List (Msg NodeId Cmd)}
  {s s' : Cluster NodeId Cmd} {now : ℕ} {f : ApplyFuture Cmd} {allowed : Event NodeId Cmd → Prop}
variable {entry : RaftLogEntry NodeId Cmd}

/-! ## A node and its futures -/

/-- **What a node's futures rest on**, across restarts. -/
structure Node.Futures (n : Node NodeId Cmd) : Prop where
  queued : ∀ f ∈ n.applyCh, ∃ c, f.command = some c
  lead : n.state = .leader → 0 < n.currentTerm
  vote : ∀ c, n.loop = .vote c → 0 < n.currentTerm
  waiting : ∀ f ∈ n.applyWaiters, 0 < f.term ∧ n.Proposed f
  ran : ∀ target unpersisted entry, n.applier = .ran target unpersisted entry .ok → n.Applied entry
  applied : ∀ target unpersisted entry, n.applier = .applied target unpersisted entry →
    n.Applied entry
  done : ∀ f, (f, .ok ()) ∈ n.resolved →
    n.Proposed f ∧ ∃ entry, n.Applied entry ∧ entry.index = f.index ∧ entry.term = f.term

section

variable (hm : Micro S net now v n l n' out)

include hm

theorem Micro.queued (h : ∀ f ∈ n.applyCh, ∃ c, f.command = some c) :
    ∀ f ∈ n'.applyCh, ∃ c, f.command = some c := by
  cases hm with
  | accept =>
    exact acceptAppend_induct (P := fun m : Node NodeId Cmd => ∀ f ∈ m.applyCh, ∃ c,
      f.command = some c) h
      (fun _ => id) (fun _ => id) id id fun _ h _ => h
  | submit cmd =>
    intro f hf
    rcases mem_append.mp hf with hf | hf
    · exact h f hf
    · exact ⟨cmd, by rw [mem_singleton.mp hf]⟩
  | refuse err hch | appendCommand hch => exact fun f hf => h f (by rw [hch]; exact .tail _ hf)
  | restore _ hm =>
    rw [(restore_futures hm).1]
    simp
  | _ => exact h

/-- Leaders and candidates have left term `0`. -/
theorem Micro.term_pos
    (h : (n.state = .leader → 0 < n.currentTerm) ∧ ∀ c, n.loop = .vote c → 0 < n.currentTerm) :
    (n'.state = .leader → 0 < n'.currentTerm) ∧ ∀ c, n'.loop = .vote c → 0 < n'.currentTerm := by
  cases hm with
  | accept =>
    exact acceptAppend_induct (P := fun m : Node NodeId Cmd =>
      (m.state = .leader → 0 < m.currentTerm) ∧ ∀ c, m.loop = .vote c → 0 < m.currentTerm) h
      (fun _ => id) (fun _ => id) id id fun _ h _ => h
  | newTerm _ _ hterm =>
    exact ⟨fun _ => Nat.zero_lt_of_lt hterm, fun _ _ => Nat.zero_lt_of_lt hterm⟩
  | stepDown => exact ⟨nofun, h.2⟩
  | preVote | standFailed | leadFailed => exact ⟨nofun, nofun⟩
  | countPreVote | idle | publish | recheck | abandon | install =>
    exact ⟨h.1, nofun⟩
  | countVote hloop => exact ⟨h.1, fun _ _ => h.2 _ hloop⟩
  | stand => exact ⟨nofun, fun _ _ => Nat.succ_pos _⟩
  | lead hloop => exact ⟨fun _ => h.2 _ hloop, nofun⟩
  | restore _ hm =>
    obtain ⟨-, -, -, -, hstate, hloop⟩ := restore_futures hm
    rw [hstate, hloop]
    exact ⟨nofun, nofun⟩
  | _ => exact h

/-- **What a pass holds as applied was just applied**, or held before. -/
theorem Micro.ran {target unpersisted : ℕ}
    (h : n'.applier = .ran target unpersisted entry .ok ∨
      n'.applier = .applied target unpersisted entry) :
    n.applier = .ran target unpersisted entry .ok ∨ n.applier = .applied target unpersisted entry ∨
      n'.Applied entry := by
  cases hm with
  | @accept src req sentAt io =>
    have hsame : (n.acceptAppend io now req).1.applier = n.applier :=
      acceptAppend_induct (P := fun m : Node NodeId Cmd => m.applier = n.applier) rfl
        (fun _ => id) (fun _ => id) id id fun _ h _ => h
    rw [hsame] at h
    exact h.imp_right .inl
  | takeSnapshot | compact | startPass | endPass | fetch | skip | failed
  | notifyApplied | notifySkipped | notifyFailed | replay => rcases h with h | h <;> cases h
  | hand =>
    rcases h with h | h
    · cases h
      exact .inr (.inr (.inl (by simp)))
    · cases h
  | applyChange =>
    rcases h with h | h
    · cases h
      exact .inr (.inr (.inr (by simp)))
    · cases h
  | advance happlier =>
    rcases h with h | h
    · cases h
    · cases h
      exact .inl happlier
  | restore _ hm =>
    rw [(restore_futures hm).2.2.2.1] at h
    rcases h with h | h <;> cases h
  | _ => exact h.imp_right .inl

/-- **Every small change keeps what the futures rest on.** -/
theorem Micro.futures (h : n.Futures) : n'.Futures := by
  have hjournal := hm.journal_prefix
  have htrace := hm.trace_prefix
  have hpos := hm.term_pos ⟨h.lead, h.vote⟩
  have hran : ∀ target unpersisted entry, n'.applier = .ran target unpersisted entry .ok ∨
      n'.applier = .applied target unpersisted entry → n'.Applied entry := by
    intro target unpersisted entry ha
    rcases hm.ran ha with hr | ha | happlied
    · exact (h.ran _ _ _ hr).mono htrace
    · exact (h.applied _ _ _ ha).mono htrace
    · exact happlied
  refine ⟨hm.queued h.queued, hpos.1, hpos.2, fun f hf => ?_, fun t u e he => hran t u e (.inl he),
    fun t u e he => hran t u e (.inr he), fun f hf => ?_⟩
  · rcases hm.waiter h.queued hf with hf | ⟨hstate, -, -, -, entry, -, hterm, -, hput, hans⟩
    · exact ⟨(h.waiting f hf).1, (h.waiting f hf).2.mono hjournal⟩
    · exact ⟨hans.2.1 ▸ hterm ▸ h.lead hstate, entry, hput, hans⟩
  · rcases hm.resolved_ok hf with hf | ⟨target, unpersisted, entry, happlier, f₀, hf₀,
      hidx, rfl, hterm⟩
    · obtain ⟨hprop, entry, happlied, hentry⟩ := h.done f hf
      exact ⟨hprop.mono hjournal, entry, happlied.mono htrace, hentry⟩
    · obtain ⟨hpos, hprop⟩ := h.waiting f₀ hf₀
      -- the future keeps the term it was registered with
      have hsame : f₀.term = entry.term := hterm.resolve_left hpos.ne'
      rw [← hsame]
      exact ⟨hprop.mono hjournal, entry, (h.applied _ _ _ happlier).mono htrace,
        hidx.symm, hsame.symm⟩

end

theorem Reachable.futures (h : Reachable S allowed s) (v : NodeId) : (s.nodes v).Futures := by
  refine node_micro (P := fun _ n => n.Futures) h (fun v => ?_) (fun _ h hm => hm.futures h) v
  exact ⟨by simp [Setup.init, newNode, refreshMembership, syncPeers], nofun, nofun,
    by simp [Setup.init, newNode, refreshMembership, syncPeers], nofun, nofun,
    by simp [Setup.init, newNode, refreshMembership, syncPeers]⟩

theorem Reachable.sound (h : Reachable S allowed s) (hr : ∀ e, allowed e → e.label ≠ .restart)
    (v : NodeId) : (s.nodes v).Sound True := by
  refine node_micro (P := fun _ n => n.Sound True) h (fun v => .new v _ _) ?_ v
  intro net now v n l n' out hl h hm
  have hne : l ≠ .restart := by
    rcases hl with rfl | ⟨e, he, rfl⟩
    · exact Label.noConfusion
    · exact hr e he
  exact hm.sound hne h

/-! ## At most once -/

theorem pool_le_of_path {ok : Label → Prop} (hok : ∀ l, ok l → l ≠ .submit ∧ l ≠ .change)
    (h : Path S ok now v net n n' out) : n'.pool ≤ n.pool :=
  h.invariant (P := fun m => m.pool ≤ n.pool) le_rfl fun hl hle hm =>
    (hm.pool_le (hok _ hl).1 (hok _ hl).2).trans hle

/-- **An event makes at most one future**, named by its time. -/
theorem Acts.pool_le {e : Event NodeId Cmd} (h : Acts S s e v n out) :
    n.pool ≤ (s.nodes v).pool + {s.now} := by
  have hpath := acts_path h
  have hplain : e.label ≠ .submit → e.label ≠ .change → n.pool ≤ (s.nodes v).pool + {s.now} := by
    intro h₁ h₂
    refine (pool_le_of_path (fun l hl => ?_) hpath).trans (Multiset.le_add_right _ _)
    rcases hl with rfl | rfl
    · exact ⟨Label.noConfusion, Label.noConfusion⟩
    · exact ⟨h₁, h₂⟩
  cases h with
  | submit =>
    unfold pool
    simp only [futureIds_append, futureIds_cons]
    refine le_of_eq ?_
    change futureIds _ + ({s.now} + 0) + _ = _
    abel
  | propose _ hm =>
    obtain ⟨-, -, -, -, rfl⟩ := proposeMembershipChange_cases hm
    have hkeep := futureIds_filter_le
      (fun g => decide (g.index ≠ (s.nodes v).lastLogIndex + 1)) (s.nodes v).applyWaiters
    have hnew : ∀ f : ApplyFuture Cmd, futureIds [f] = {f.id} := fun _ => rfl
    unfold pool refreshMembership syncPeers storeWaiter Node.extended
    dsimp only
    rw [futureIds_append, hnew]
    calc _ ≤ futureIds (s.nodes v).applyCh + (futureIds (s.nodes v).applyWaiters + {s.now} +
          futureIds ((s.nodes v).resolved.map (·.1))) := by gcongr
      _ = _ := by abel
  | _ => exact hplain Label.noConfusion Label.noConfusion

/-- Every future of a node is in one place, and older than now. -/
theorem Reachable.pool_nodup (h : Reachable S allowed s) (v : NodeId) :
    (s.nodes v).pool.Nodup ∧ ∀ i ∈ (s.nodes v).pool, i < s.now := by
  revert v
  induction h with
  | init =>
    intro v
    exact ⟨Multiset.nodup_zero, fun i hi => absurd hi (Multiset.notMem_zero i)⟩
  | @step s s' e _ _ hstep hs =>
    intro v
    rcases step_cases hstep with ⟨d, rfl⟩ | ⟨u, n, out, hacts, rfl⟩
    · exact ⟨(hs v).1, fun i hi => ((hs v).2 i hi).trans (by dsimp only; omega)⟩
    · by_cases hv : v = u
      · subst hv
        have hle := hacts.pool_le
        obtain ⟨hnodup, hlt⟩ := hs v
        have hself : (s.update v n out).nodes v = n := Function.update_self ..
        rw [hself]
        refine ⟨Multiset.nodup_of_le hle ?_, fun i hi => ?_⟩
        · rw [add_comm, Multiset.singleton_add, Multiset.nodup_cons]
          exact ⟨fun hmem => absurd (hlt _ hmem) (lt_irrefl _), hnodup⟩
        · rcases Multiset.mem_add.mp (Multiset.mem_of_le hle hi) with hi | hi
          · exact (hlt i hi).trans (Nat.lt_succ_self _)
          · exact (Multiset.mem_singleton.mp hi).le.trans_lt (Nat.lt_succ_self _)
      · have hother : (s.update u n out).nodes v = s.nodes v := Function.update_of_ne hv ..
        rw [hother]
        exact ⟨(hs v).1, fun i hi => ((hs v).2 i hi).trans (Nat.lt_succ_self _)⟩

/-- How often and how a node completed a future. -/
def Node.outcomes (n : Node NodeId Cmd) (id : ℕ) : List (Except (FutureError NodeId) Unit) :=
  (n.resolved.filter (fun r => r.1.id = id)).map (·.2)

/-- A future that is waiting or queued. -/
def Node.Pending (n : Node NodeId Cmd) (id : ℕ) : Prop :=
  (∃ f ∈ n.applyCh, f.id = id) ∨ ∃ f ∈ n.applyWaiters, f.id = id

omit [LinearOrder NodeId] in
/-- **A future with an outcome has that one**, and is done. -/
theorem Node.outcomes_once (h : n.pool.Nodup) (id : ℕ) :
    (n.outcomes id).length ≤ 1 ∧ (n.outcomes id ≠ [] → ¬ n.Pending id) := by
  unfold pool at h
  obtain ⟨-, hrest, hdisj⟩ := Multiset.nodup_add.mp h
  obtain ⟨-, hres, hdisj'⟩ := Multiset.nodup_add.mp hrest
  constructor
  · have hcount := Multiset.nodup_iff_count_le_one.mp hres id
    unfold futureIds at hcount
    rw [Multiset.coe_count, map_map, count_eq_countP, countP_map,
      countP_eq_length_filter] at hcount
    unfold outcomes
    rw [length_map]
    exact hcount
  · intro hne hpend
    obtain ⟨r, hr⟩ := exists_mem_of_ne_nil _ hne
    obtain ⟨x, hx, -⟩ := mem_map.mp hr
    obtain ⟨hx, hid⟩ := mem_filter.mp hx
    have hmem : id ∈ futureIds (n.resolved.map (·.1)) := by
      rw [futureIds, Multiset.mem_coe, map_map]
      exact mem_map.mpr ⟨x, hx, by simpa using hid⟩
    rcases hpend with ⟨f, hf, rfl⟩ | ⟨f, hf, rfl⟩
    · exact Multiset.disjoint_left.mp hdisj (Multiset.mem_coe.mpr (mem_map_of_mem hf))
        (Multiset.mem_add.mpr (.inr hmem))
    · exact Multiset.disjoint_left.mp hdisj' (Multiset.mem_coe.mpr (mem_map_of_mem hf)) hmem

/-! ## On record -/

/-- The entry a future stands for is in the log of the term its node led. -/
def Owned (g : Ledger NodeId (RaftLogEntry NodeId Cmd)) (v : NodeId) (f : ApplyFuture Cmd) : Prop :=
  g.leader f.term = some v ∧ 0 < f.index ∧
    ∃ entry, (g.llog f.term)[f.index - 1]? = some entry ∧ entry.Answers f

omit [LinearOrder NodeId] in
theorem Owned.mono (h : Owned g v f) (hle : Le g g') : Owned g' v f := by
  obtain ⟨hlead, hpos, entry, hget, hans⟩ := h
  exact ⟨hle.leader hlead, hpos, entry, hle.llog_get ⟨v, hlead⟩ hget, hans⟩

omit [LinearOrder NodeId] in
/-- Entries past the base have their place on record. -/
theorem LogRep.getElem?_of_mem {F : List (RaftLogEntry NodeId Cmd)} {b : ℕ} (h : LogRep n F b)
    (hmem : entry ∈ n.log) (hlt : b < entry.index) :
    F[entry.index - 1]? = some entry := by
  rw [h.log, mem_cons] at hmem
  rcases hmem with rfl | hmem
  · exact absurd hlt (lt_irrefl _)
  · obtain ⟨i, hi⟩ := mem_iff_getElem?.mp (mem_of_mem_drop hmem)
    rw [h.indexed i entry hi]
    exact hi

/-- A future that starts to wait is on record. -/
theorem Rel.owned (h : Rel M noChange g s) (h' : Rel M noChange g' (s.put v n out))
    (hstate : n.state = .leader) (hterm : n.currentTerm = (s.nodes v).currentTerm)
    (hbase : n.logBase = (s.nodes v).logBase)
    (hidx : entry.index = (s.nodes v).lastLogIndex + 1) (het : entry.term = (s.nodes v).currentTerm)
    (hlog : n.log = (s.nodes v).log ++ [entry]) (hans : entry.Answers f) : Owned g' v f := by
  have hn' := h'.nodes v
  rw [put_nodes_self] at hn'
  have hlead := hn'.lead hstate
  have hft : f.term = n.currentTerm := by rw [← hans.2.1, het, hterm]
  have hb : g'.base v < entry.index := by
    rw [← hn'.log.base, hbase, (h.nodes v).log.base, hidx, (h.nodes v).log.lastLogIndex]
    exact Nat.lt_succ_of_le (h.nodes v).log.le
  have hget := hn'.log.getElem?_of_mem (hlog ▸ by simp : entry ∈ n.log) hb
  refine ⟨hft ▸ hlead.leader, ?_, entry, ?_, hans⟩
  · rw [← hans.1, hidx]
    exact Nat.succ_pos _
  · rw [hft, ← hlead.log, ← hans.1]
    exact hget

/-- **Futures that wait or succeeded are on record.** -/
theorem Reachable.owned (hS : S.Agreed M) (hc : Covers noChange allowed)
    (h : Reachable S allowed s) :
    ∃ g, Rel M noChange g s ∧ ∀ v f, f ∈ (s.nodes v).applyWaiters ∨
      (f, .ok ()) ∈ (s.nodes v).resolved →
      Owned g v f := by
  refine (run_micro (J := fun s => (∀ v, (s.nodes v).Futures) ∧ ∃ g, Rel M noChange g s ∧ ∀ v f,
    f ∈ (s.nodes v).applyWaiters ∨ (f, .ok ()) ∈ (s.nodes v).resolved → Owned g v f) h ?_ ?_ ?_).2
  · have hinit : Reachable S allowed (S.init : Cluster NodeId Cmd) := .init
    refine ⟨Reachable.futures hinit, _, .init hS, fun v f hf => ?_⟩
    rcases hf with hf | hf <;> cases hf
  · rintro s now ⟨hfut, g, hg, howned⟩
    exact ⟨hfut, g, hg.clock now, howned⟩
  · rintro s v l n out hl ⟨hfut, g, hg, howned⟩ hm
    have hcov : l.Covered noChange := by
      rcases hl with rfl | ⟨e, he, rfl⟩
      · exact .plain
      · exact hc e he
    obtain ⟨g', hle, hg'⟩ := hg.micro hS hcov hm
    refine ⟨(forall_put (P := fun _ n => n.Futures) (Q := fun _ => True) hfut
      (fun _ _ => trivial) (hm.futures (hfut v)) fun _ _ => trivial).1, g', hg', fun u f hf => ?_⟩
    by_cases hu : u = v
    · subst hu
      rw [put_nodes_self] at hf
      rcases hf with hf | hf
      · rcases hm.waiter (hfut u).queued hf with
          hf | ⟨-, hstate, hterm, hbase, entry, hidx, het, hlog, -, hans⟩
        · exact (howned u f (.inl hf)).mono hle
        · exact hg.owned hg' hstate hterm hbase hidx het hlog hans
      · rcases hm.resolved_ok hf with hf | ⟨-, -, entry, -, f₀, hf₀, -, rfl, hterm⟩
        · exact (howned u f (.inr hf)).mono hle
        · have hsame : f₀.term = entry.term := hterm.resolve_left ((hfut u).waiting f₀ hf₀).1.ne'
          rw [← hsame]
          exact (howned u f₀ (.inl hf₀)).mono hle
    · rw [put_nodes_ne hu] at hf
      exact (howned u f hf).mono hle

/-- **The entry applied for a future is the one proposed**, and every node
that commits that far has it. -/
theorem Rel.outcome (h : Rel M noChange g s) (howned : Owned g v f)
    (happlied : (s.nodes v).Applied entry) (hidx : entry.index = f.index)
    (hterm : entry.term = f.term) :
    entry.Answers f ∧ ∀ w, (s.nodes w).logBase < entry.index →
    entry.index ≤ (s.nodes w).commitIndex →
      (s.nodes w).logEntry entry.index = some entry := by
  obtain ⟨hlead, -, own, hown, hans⟩ := howned
  obtain ⟨T, k, hk, hpos, hle, hget⟩ : CommittedEntry g entry := by
    rcases happlied with hh | hc
    · exact (h.nodes v).trace.handed _ _ hh
    · exact (h.nodes v).trace.changed _ hc
  have hT := (h.record.inv.commit_ok hk).1
  have hmatch := (h.record.inv.llog_match hT _ _ hget).2
  have hsame : (g.llog entry.term)[entry.index - 1]? = some entry :=
    hmatch.get hget (by omega)
  rw [hidx, hterm, hown, Option.some.injEq] at hsame
  refine ⟨hsame ▸ hans, fun w hb hw => ?_⟩
  have hagree := h.record.inv.committed_agree (.inr ⟨T, k, hk, le_rfl, le_rfl, EqOn.refl _ _ _⟩)
    (h.nodes w).commit
  rw [(h.nodes w).log.base] at hb
  rw [(h.nodes w).log.logEntry_of_lt hb]
  exact hagree.get hget (by omega)

/-- **Outcomes of proposals are sound.** In every run, a proposal that
succeeds was appended by its node and the node applied an entry of its index
and term without an error; each future is completed at most once. Without
restarts that index is at or below the node's commit index, and a future
that still waits has its entry in the log. On record the applied entry is
the proposed one, and no node that commits that far has another. -/
theorem proposal_outcomes (h : Reachable S allowed s) :
    (∀ v f, (f, .ok ()) ∈ (s.nodes v).resolved → (s.nodes v).Proposed f ∧
      ∃ entry, (s.nodes v).Applied entry ∧ entry.index = f.index ∧ entry.term = f.term) ∧
    (∀ v id, ((s.nodes v).outcomes id).length ≤ 1 ∧
      ((s.nodes v).outcomes id ≠ [] → ¬ (s.nodes v).Pending id)) ∧
    ((∀ e, allowed e → e.label ≠ .restart) →
      ∀ v, (∀ f ∈ (s.nodes v).applyWaiters, (s.nodes v).Holds f) ∧
      ∀ f, (f, .ok ()) ∈ (s.nodes v).resolved → f.index ≤ (s.nodes v).commitIndex) ∧
    ∀ M noChange, S.Agreed M → Covers noChange allowed → ∀ v f, (f, .ok ()) ∈ (s.nodes v).resolved →
      ∃ entry, (s.nodes v).Applied entry ∧ entry.Answers f ∧
        ∀ w, (s.nodes w).logBase < f.index → f.index ≤ (s.nodes w).commitIndex →
          (s.nodes w).logEntry f.index = some entry := by
  refine ⟨fun v f hf => (h.futures v).done f hf, fun v id => outcomes_once (h.pool_nodup v).1 id,
    fun hr v => ⟨(h.sound hr v).waiting, fun f hf => ?_⟩, fun M noChange hS hc v f hf => ?_⟩
  · obtain ⟨-, entry, happlied, hidx, -⟩ := (h.futures v).done f hf
    rw [← hidx]
    rcases happlied with hh | hc
    · exact (h.sound hr v).handed trivial _ _ hh
    · exact (h.sound hr v).changed trivial _ hc
  · obtain ⟨g, hg, howned⟩ := h.owned hS hc
    obtain ⟨-, entry, happlied, hidx, hterm⟩ := (h.futures v).done f hf
    obtain ⟨hans, hall⟩ := hg.outcome (howned v f (.inr hf)) happlied hidx hterm
    rw [hidx] at hall
    exact ⟨entry, happlied, hans, hall⟩

/-- Node `0` alone takes a command and applies it. -/
def soloApply : List (Event (Fin 3) Unit) :=
  [.submit 0 (), .handleApply 0 true, .checkCommit 0 true, .startPass 0, .applierStep 0 {},
    .applierStep 0 {},
    .applierStep 0 {}, .applierStep 0 {}, .applierStep 0 {}, .startPass 0, .applierStep 0 {},
    .applierStep 0 {}, .applierStep 0 {}, .applierStep 0 {}]

/-- Its caller is told, once, and the entry is the one it proposed. -/
theorem proposal_outcomes_solo :
    ∃ s, Runs.run (step solo) solo.init (soloCommit ++ soloApply) = some s ∧
    (⟨3, some (), 2, 1⟩, .ok ()) ∈ (s.nodes 0).resolved ∧ ((s.nodes 0).outcomes 3).length ≤ 1 ∧
    2 ≤ (s.nodes 0).commitIndex ∧ ∃ entry : RaftLogEntry (Fin 3) Unit,
      (s.nodes 0).Applied entry ∧ entry.Answers ⟨3, some (), 2, 1⟩ := by
  have hrun : ((Runs.run (step solo) solo.init (soloCommit ++ soloApply)).any fun s =>
      decide ((s.nodes 0).resolved.map (·.1) = [⟨3, some (), 2, 1⟩]) &&
        (s.nodes 0).resolved.all fun r => r.2.isOk) = true := by
    decide
  obtain ⟨s, hs, hfacts⟩ := Runs.exists_of_any hrun
  simp only [Bool.and_eq_true, decide_eq_true_eq] at hfacts
  obtain ⟨hids, hok⟩ := hfacts
  have hres : (⟨3, some (), 2, 1⟩, .ok ()) ∈ (s.nodes 0).resolved := by
    obtain ⟨r, hr, hf⟩ := mem_map.mp (hids ▸ mem_singleton.mpr rfl)
    have hr2 := all_eq_true.mp hok r hr
    obtain ⟨f, o⟩ := r
    cases o with
    | ok => exact hf ▸ hr
    | error => cases hr2
  have hallowed : ∀ e ∈ soloCommit ++ soloApply, e.LogOnly := by
    simp [soloCommit, soloApply, Event.LogOnly, Event.label]
  obtain ⟨-, honce, hlocal, hrecord⟩ := proposal_outcomes (.of_run .init hallowed hs)
  obtain ⟨entry, happlied, hans, -⟩ := hrecord _ _ solo_agreed covers_logOnly 0 _ hres
  exact ⟨s, hs, hres, (honce 0 3).1, (hlocal (fun e he => he.2) 0).2 _ hres, entry, happlied, hans⟩

end Anubis.Raft
