import Anubis.Raft.Model.Node
import Mathlib.Data.List.Induction

/-!
# The disk and its journal

What the stores hold comes from the journal of writes: the last hard state,
snapshot and member list written, and entries that were put into the log.
-/

namespace Anubis.Raft

open List

namespace Disk

variable {NodeId Cmd : Type} {j ws : List (Write NodeId Cmd)}

theorem replay_append (j ws : List (Write NodeId Cmd)) :
    replay (j ++ ws) = ws.foldl write (replay j) := by
  rw [replay, replay, foldl_append]

theorem replay_concat (j : List (Write NodeId Cmd)) (w : Write NodeId Cmd) :
    replay (j ++ [w]) = (replay j).write w := replay_append j [w]

/-- A fact about the stores that each write of a journal keeps. -/
theorem replay_induct {P : List (Write NodeId Cmd) → Disk NodeId Cmd → Prop} (h0 : P [] {})
    (hstep : ∀ j w d, P j d → P (j ++ [w]) (d.write w)) (j : List (Write NodeId Cmd)) :
    P j (replay j) := by
  induction j using reverseRecOn with
  | nil => exact h0
  | append_singleton j w ih =>
    rw [replay_concat]
    exact hstep j w _ ih

/-- A stored entry was put there. -/
theorem mem_logs : ∀ e ∈ (replay j).logs, .putLog e ∈ j := by
  refine replay_induct (P := fun j d => ∀ e ∈ d.logs, Write.putLog e ∈ j) (by simp) ?_ j
  intro j w d h e he
  rw [mem_append]
  cases w with
  | putLog =>
    rcases mem_append.mp he with he | he
    · exact .inl (h e (mem_filter.mp he).1)
    · exact .inr (by rw [mem_singleton.mp he]; simp)
  | deleteLog => exact .inl (h e (mem_filter.mp he).1)
  | _ => exact .inl (h e he)

/-- A stored snapshot was put there. -/
theorem mem_of_snapshot {s : Snapshot} (h : (replay j).snapshot = some s) : .snapshot s ∈ j := by
  revert s
  refine replay_induct (P := fun j d => ∀ {s}, d.snapshot = some s → Write.snapshot s ∈ j)
    nofun ?_ j
  intro j w d ih s h
  rw [mem_append]
  cases w with
  | snapshot =>
    cases h
    exact .inr (by simp)
  | _ => exact .inl (ih h)

/-- A stored member list was put there. -/
theorem mem_of_peers {ms : List (RaftPeer NodeId)} (h : (replay j).peers = some ms) :
    .peers ms ∈ j := by
  revert ms
  refine replay_induct (P := fun j d => ∀ {ms}, d.peers = some ms → Write.peers ms ∈ j)
    nofun ?_ j
  intro j w d ih ms h
  rw [mem_append]
  cases w with
  | peers =>
    cases h
    exact .inr (by simp)
  | _ => exact .inl (ih h)

/-- Not a hard state. -/
def keepsHardState : Write NodeId Cmd → Bool
  | .hardState _ => false
  | _ => true

/-- Only a hard state replaces the hard state. -/
theorem hardState_replay_append (h : ∀ w ∈ ws, keepsHardState w = true) :
    (replay (j ++ ws)).hardState = (replay j).hardState := by
  rw [replay_append]
  generalize replay j = d
  induction ws generalizing d with
  | nil => rfl
  | cons w ws ih =>
    rw [foldl_cons, ih fun w hw => h w (by simp [hw])]
    have hw := h w (by simp)
    cases w <;> first | rfl | cases hw

theorem hardState_replay_concat (h : HardState NodeId) :
    (replay (j ++ [.hardState h])).hardState = some h := by
  rw [replay_concat]
  rfl

end Disk

end Anubis.Raft
