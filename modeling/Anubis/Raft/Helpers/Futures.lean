import Anubis.Raft.Helpers.FixedVoters
import Mathlib.Algebra.Order.Group.Multiset
import Mathlib.Tactic.Abel

/-!
# Futures

A proposal's future waits in `applyCh`, then in `applyWaiters`, and ends
among the resolved ones. Where a future can come from and what it takes to
succeed, one small change at a time; and that a future is in one of the
three places, once.
-/

namespace Anubis.Raft

open List Node

variable {NodeId Cmd : Type} {fromIndex index term : ℕ} {reason : String}
    {err : Option (FutureError NodeId)}
variable {f : ApplyFuture Cmd}

/-- The entry a future was registered for. -/
def RaftLogEntry.Answers (entry : RaftLogEntry NodeId Cmd) (f : ApplyFuture Cmd) : Prop :=
  entry.index = f.index ∧ entry.term = f.term ∧
    match f.command with
    | some c => entry.data = .command c
    | none => ∃ e, entry.data = .membershipChange e

/-- The names of futures, with how often each occurs. -/
def futureIds (fs : List (ApplyFuture Cmd)) : Multiset ℕ := ↑(fs.map (·.id))

@[simp] theorem futureIds_cons (f : ApplyFuture Cmd) (fs : List (ApplyFuture Cmd)) :
    futureIds (f :: fs) = {f.id} + futureIds fs := rfl

@[simp] theorem futureIds_append (fs gs : List (ApplyFuture Cmd)) :
    futureIds (fs ++ gs) = futureIds fs + futureIds gs := by
  rw [futureIds, map_append, ← Multiset.coe_add]
  rfl

theorem futureIds_filter (p : ApplyFuture Cmd → Bool) (fs : List (ApplyFuture Cmd)) :
    futureIds (fs.filter p) + futureIds (fs.filter fun f => !p f) = futureIds fs := by
  rw [← futureIds_append]
  exact Multiset.coe_eq_coe.mpr ((filter_append_perm p fs).map _)

theorem futureIds_le_of_mem {fs : List (ApplyFuture Cmd)} (h : f ∈ fs) :
    {f.id} ≤ futureIds fs :=
  Multiset.singleton_le.mpr (Multiset.mem_coe.mpr (mem_map_of_mem h))

theorem futureIds_filter_le (p : ApplyFuture Cmd → Bool) (fs : List (ApplyFuture Cmd)) :
    futureIds (fs.filter p) ≤ futureIds fs := by
  rw [← futureIds_filter p fs]
  exact Multiset.le_add_right _ _

namespace Node

/-- The node appended the entry the future stands for. -/
def Proposed (n : Node NodeId Cmd) (f : ApplyFuture Cmd) : Prop :=
  ∃ entry : RaftLogEntry NodeId Cmd, .putLog entry ∈ n.journal ∧ entry.Answers f

/-- The node's FSM took the entry without an error, or the node applied its
membership change. -/
def Applied (n : Node NodeId Cmd) (entry : RaftLogEntry NodeId Cmd) : Prop :=
  .handed entry .ok ∈ n.trace ∨ .changed entry ∈ n.trace

/-- The futures a node knows of, wherever they are. -/
def pool (n : Node NodeId Cmd) : Multiset ℕ :=
  futureIds n.applyCh + (futureIds n.applyWaiters + futureIds (n.resolved.map (·.1)))

/-! ## Completing futures -/

variable (n : Node NodeId Cmd)

theorem mem_failPendingFutures :
    f ∈ (n.failPendingFutures fromIndex reason).applyWaiters ↔
      f ∈ n.applyWaiters ∧ f.index < fromIndex := by
  simp [failPendingFutures]

theorem ok_failPendingFutures
    (h : (f, .ok ()) ∈ (n.failPendingFutures fromIndex reason).resolved) :
    (f, .ok ()) ∈ n.resolved := by
  rcases mem_append.mp h with h | h
  · exact h
  · obtain ⟨x, -, hx⟩ := mem_map.mp h
    cases hx

theorem pool_failPendingFutures (fromIndex : ℕ) (reason : String) :
    (n.failPendingFutures fromIndex reason).pool = n.pool := by
  have hsplit := futureIds_filter (fun f => decide (f.index < fromIndex)) n.applyWaiters
  have hrest : n.applyWaiters.filter (fun f => decide (fromIndex ≤ f.index)) =
      n.applyWaiters.filter (fun f => !decide (f.index < fromIndex)) :=
    filter_congr fun f _ => by rw [← decide_not, decide_eq_decide, not_lt]
  unfold pool failPendingFutures
  dsimp only
  rw [hrest, map_append, map_map, ← hsplit, futureIds_append, add_assoc]
  congr 2
  rw [add_comm]
  congr 2
  exact map_id _

/-- A waiting future that is notified leaves, with the term that was
applied. -/
theorem notifyApply_cases (index term : ℕ) (err : Option (FutureError NodeId)) :
    n.notifyApply index term err = n ∨ ∃ f ∈ n.applyWaiters, f.index = index ∧
      (n.notifyApply index term err).applyCh = n.applyCh ∧
      (n.notifyApply index term err).applyWaiters = n.applyWaiters.filter (fun g =>
        g.index ≠ index) ∧
      ∃ f' r, (n.notifyApply index term err).resolved = n.resolved ++ [(f', r)] ∧ f'.id = f.id ∧
        (r = .ok () → err = none ∧ f' = { f with term := term } ∧
          (f.term = 0 ∨ f.term = term)) := by
  unfold notifyApply
  split
  · exact .inl rfl
  · rename_i f hf
    have hmem := mem_of_find?_eq_some hf
    have hidx : f.index = index := by simpa using find?_some hf
    refine .inr ⟨f, hmem, hidx, ?_⟩
    dsimp only
    split
    · exact ⟨rfl, rfl, f, _, rfl, rfl, nofun⟩
    · rename_i hterm
      have hor : f.term = 0 ∨ f.term = term := by
        rw [not_and_or, not_not, not_not] at hterm
        exact hterm
      cases err with
      | none => exact ⟨rfl, rfl, _, _, rfl, rfl, fun _ => ⟨rfl, rfl, hor⟩⟩
      | some => exact ⟨rfl, rfl, _, _, rfl, rfl, nofun⟩

theorem mem_notifyApply
    (h : f ∈ (n.notifyApply index term err).applyWaiters) : f ∈ n.applyWaiters := by
  rcases n.notifyApply_cases index term err with heq | ⟨-, -, -, -, hw, -⟩
  · rwa [heq] at h
  · rw [hw] at h
    exact (mem_filter.mp h).1

/-- **A future succeeds only where its own entry's index and term were
applied.** -/
theorem ok_notifyApply
    (h : (f, .ok ()) ∈ (n.notifyApply index term err).resolved) :
    (f, .ok ()) ∈ n.resolved ∨ err = none ∧ ∃ f₀ ∈ n.applyWaiters, f₀.index = index ∧
      f = { f₀ with term := term } ∧ (f₀.term = 0 ∨ f₀.term = term) := by
  rcases n.notifyApply_cases index term err with heq | ⟨f₀, hf₀, hidx, -, -, f', r, hr, -, hok⟩
  · exact .inl (heq ▸ h)
  · rw [hr, mem_append, mem_singleton, Prod.mk.injEq] at h
    rcases h with h | ⟨rfl, rfl⟩
    · exact .inl h
    · obtain ⟨herr, hf, hterm⟩ := hok rfl
      exact .inr ⟨herr, f₀, hf₀, hidx, hf, hterm⟩

theorem pool_notifyApply (index term : ℕ) (err : Option (FutureError NodeId)) :
    (n.notifyApply index term err).pool ≤ n.pool := by
  rcases n.notifyApply_cases index term err with heq | ⟨f, hf, hidx, hch, hw, f', r, hr, hid, -⟩
  · rw [heq]
  · -- the notified future is one of those the filter drops
    have hmem : f ∈ n.applyWaiters.filter (fun g => !decide (g.index ≠ index)) := by
      rw [mem_filter]
      exact ⟨hf, by simpa using hidx⟩
    have hone := futureIds_le_of_mem hmem
    unfold pool
    rw [hch, hw, hr, ← futureIds_filter (fun g => decide (g.index ≠ index)) n.applyWaiters,
      map_append, futureIds_append, add_assoc, add_comm (futureIds (n.resolved.map _))]
    gcongr
    rwa [← hid] at hone

end Node

/-! ## Small changes -/

variable [LinearOrder NodeId] {S : Setup NodeId} {net : List (Msg NodeId Cmd)} {now : ℕ}
    {v : NodeId}
  {n n' : Node NodeId Cmd} {l : Label} {out : List (Msg NodeId Cmd)}

theorem Micro.journal_prefix (hm : Micro S net now v n l n' out) : n.journal <+: n'.journal := by
  cases hm with
  | accept =>
    exact acceptAppend_induct (P := fun m => n.journal <+: m.journal) (prefix_refl _)
      (fun _ h => h) (fun _ h => h.trans (prefix_append ..)) (fun h => h.trans (prefix_append ..))
      (fun h => h) fun _ h _ => h.trans (prefix_append ..)
  | restore _ hm =>
    rw [(Kept.restore hm).journal]
    unfold restoreHardState
    split <;> exact prefix_refl _
  | keep => exact prefix_refl _
  | _ => first | exact prefix_refl _ | exact prefix_append ..

omit [LinearOrder NodeId] in
theorem Node.Proposed.mono (h : n.Proposed f) (hle : n.journal <+: n'.journal) : n'.Proposed f := by
  obtain ⟨entry, hmem, hans⟩ := h
  exact ⟨entry, hle.subset hmem, hans⟩

omit [LinearOrder NodeId] in
theorem Node.Applied.mono {entry : RaftLogEntry NodeId Cmd} (h : n.Applied entry)
    (hle : n.trace <+: n'.trace) : n'.Applied entry := h.imp (hle.subset ·) (hle.subset ·)

/-- A process that starts has no futures but those it had completed. -/
theorem restore_futures {m : Node NodeId Cmd} {okRestore : Bool}
    (h : (S.fresh n).restore okRestore n.disk = some m) :
    m.applyCh = [] ∧ m.applyWaiters = [] ∧ m.resolved = n.resolved ∧ m.applier = .idle ∧
      m.state = .follower ∧ m.loop = .idle := by
  have hk := Kept.restore h
  have hfresh : ((S.fresh n).restoreHardState n.disk).applyCh = [] ∧
      ((S.fresh n).restoreHardState n.disk).applyWaiters = [] ∧
      ((S.fresh n).restoreHardState n.disk).resolved = n.resolved ∧
      ((S.fresh n).restoreHardState n.disk).applier = .idle ∧
      ((S.fresh n).restoreHardState n.disk).state = .follower ∧
      ((S.fresh n).restoreHardState n.disk).loop = .idle := by
    unfold restoreHardState
    split <;> exact ⟨rfl, rfl, rfl, rfl, rfl, rfl⟩
  rw [hk.applyCh, hk.applyWaiters, hk.resolved, hk.applier, hk.state, hk.loop]
  exact hfresh

/-- **A future enters the queue or the log once**, with the events that make
it; all else moves futures along or loses them. -/
theorem Micro.pool_le (hm : Micro S net now v n l n' out) (hsubmit : l ≠ .submit)
    (hchange : l ≠ .change) : n'.pool ≤ n.pool := by
  cases hm with
  | accept =>
    refine acceptAppend_induct (P := fun m => m.pool ≤ n.pool) le_rfl (fun _ h => h)
      (fun index h => ?_) (fun h => h) (fun h => h) fun _ h _ => h
    exact (pool_failPendingFutures _ _ _).le.trans h
  | @notifyApplied _ _ entry =>
    have := n.pool_notifyApply entry.index entry.term none
    rwa [notifyApply_eq] at this
  | @notifySkipped _ _ entry =>
    have := n.pool_notifyApply entry.index entry.term (some (.apply false))
    rwa [notifyApply_eq] at this
  | @notifyFailed entry =>
    have := n.pool_notifyApply entry.index entry.term (some (.apply true))
    rwa [notifyApply_eq] at this
  | fail reason => exact (n.pool_failPendingFutures 0 reason).le
  | submit => exact absurd rfl hsubmit
  | @refuse f rest err hch =>
    have hmove : futureIds (map Prod.fst
      [(f, (Except.error err : Except (FutureError NodeId) Unit))]) =
      {f.id} := rfl
    unfold pool
    dsimp only
    rw [hch, futureIds_cons, map_append, futureIds_append, hmove]
    refine le_of_eq ?_
    abel
  | @appendCommand f rest hch =>
    have hmove : futureIds [{ f with index := n.lastLogIndex + 1, term := n.currentTerm }] =
      {f.id} := rfl
    have hkeep := futureIds_filter_le (fun g => decide (g.index ≠ n.lastLogIndex + 1))
      n.applyWaiters
    unfold pool storeWaiter
    dsimp only
    rw [hch, futureIds_cons, futureIds_append, hmove]
    calc _ ≤ futureIds rest +
      (futureIds n.applyWaiters + {f.id} + futureIds (n.resolved.map (·.1))) := by
          gcongr
      _ = _ := by abel
  | propose => exact absurd rfl hchange
  | restore _ hm =>
    obtain ⟨hch, hw, hr, -⟩ := restore_futures hm
    unfold pool
    rw [hch, hw, hr]
    gcongr <;> exact Multiset.zero_le _
  | _ => exact le_rfl

/-- **A future that succeeds** waited for an entry that was just applied, of
its index and its term. -/
theorem Micro.resolved_ok (hm : Micro S net now v n l n' out) (h : (f, .ok ()) ∈ n'.resolved) :
    (f, .ok ()) ∈ n.resolved ∨ ∃ target unpersisted entry,
    n.applier = .applied target unpersisted entry ∧
      ∃ f₀ ∈ n.applyWaiters, f₀.index = entry.index ∧ f = { f₀ with term := entry.term } ∧
        (f₀.term = 0 ∨ f₀.term = entry.term) := by
  cases hm with
  | accept =>
    refine .inl (acceptAppend_induct
      (P := fun m : Node NodeId Cmd => (f, (.ok () : Except (FutureError NodeId) Unit)) ∈
        m.resolved →
        (f, (.ok () : Except (FutureError NodeId) Unit)) ∈ n.resolved)
      (fun h => h) (fun _ ih h => ih h) (fun index ih h => ?_) (fun ih h => ih h) (fun ih h => ih h)
      (fun _ ih _ h => ih h) h)
    exact ih (ok_failPendingFutures _ h)
  | notifyApplied _ happlier =>
    rcases n.ok_notifyApply h with h | ⟨-, hf⟩
    · exact .inl h
    · exact .inr ⟨_, _, _, happlier, hf⟩
  | notifySkipped | notifyFailed =>
    rcases n.ok_notifyApply h with h | ⟨herr, -⟩
    · exact .inl h
    · cases herr
  | fail => exact .inl (n.ok_failPendingFutures h)
  | refuse =>
    rcases mem_append.mp h with h | h
    · exact .inl h
    · cases mem_singleton.mp h
  | restore _ hm =>
    rw [(restore_futures hm).2.2.1] at h
    exact .inl h
  | _ => exact .inl h

/-- **A future that starts to wait** is that of the entry its node, the
leader, just appended. -/
theorem Micro.waiter (hm : Micro S net now v n l n' out) (hq : ∀ f ∈ n.applyCh, ∃ c,
    f.command = some c)
    (h : f ∈ n'.applyWaiters) : f ∈ n.applyWaiters ∨
      n.state = .leader ∧ n'.state = .leader ∧ n'.currentTerm = n.currentTerm ∧
        n'.logBase = n.logBase ∧ ∃ entry, entry.index = n.lastLogIndex + 1 ∧
        entry.term = n.currentTerm ∧
          n'.log = n.log ++ [entry] ∧ .putLog entry ∈ n'.journal ∧ entry.Answers f := by
  cases hm with
  | accept =>
    refine .inl (acceptAppend_induct (P := fun m => f ∈ m.applyWaiters → f ∈ n.applyWaiters)
      (fun h => h) (fun _ ih h => ih h) (fun index ih h => ?_) (fun ih h => ih h) (fun ih h => ih h)
      (fun _ ih _ h => ih h) h)
    exact ih ((mem_failPendingFutures _).mp h).1
  | notifyApplied | notifySkipped | notifyFailed => exact .inl (n.mem_notifyApply h)
  | fail => exact .inl ((mem_failPendingFutures _).mp h).1
  | @appendCommand f₀ rest hch hstate =>
    rcases mem_append.mp h with h | h
    · exact .inl (mem_filter.mp h).1
    · obtain ⟨c, hc⟩ := hq f₀ (by simp [hch])
      rw [mem_singleton.mp h]
      refine .inr ⟨hstate, hstate, rfl, rfl, _, rfl, rfl, rfl, mem_append_right _ (by simp),
        rfl, rfl, ?_⟩
      simp [hc]
  | propose _ hstate =>
    rcases mem_append.mp h with h | h
    · exact .inl (mem_filter.mp h).1
    · rw [mem_singleton.mp h]
      exact .inr ⟨hstate, hstate, rfl, rfl, _, rfl, rfl, rfl,
        mem_append_right _ (by simp [storeLogs]), rfl, rfl, _, rfl⟩
  | restore _ hm =>
    rw [(restore_futures hm).2.1] at h
    cases h
  | _ => exact .inl h

end Anubis.Raft
