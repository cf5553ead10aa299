import Anubis.Cluster.Model.Batcher
import Anubis.Common.Runs
import Mathlib.Data.List.Perm.Subperm

/-!
# No command is lost

What was submitted, the batch in flight and the queue, one after another, are a
part of what was queued, in its order. The rest of it is what the counter of
dropped commands has counted.
-/

namespace Anubis.Cluster.Batcher

open List

variable {Cmd : Type} {limits : BatchLimits Cmd} {b b' : Batcher Cmd}

/-- The commands that are not dropped. -/
def kept (b : Batcher Cmd) : List Cmd := b.submitted ++ b.flushing.getD [] ++ b.pending

/-- **What holds of every batcher**: the commands that are kept are in order, and
the others are counted. -/
structure Ok (b : Batcher Cmd) : Prop where
  order : b.kept <+ b.enqueued
  count : b.enqueued.length = b.kept.length + b.droppedTotal

/-- The bound drops from the queue, and counts. -/
theorem Ok.bound (h : b.Ok) : (b.bound limits).Ok := by
  constructor
  · exact ((drop_sublist _ _).append_left _).trans h.order
  · have hcount := h.count
    simp only [kept, Batcher.bound, length_append, length_drop] at hcount ⊢
    omega

theorem Ok.enqueue (h : b.Ok) (cmd : Cmd) : (b.enqueue limits cmd).Ok := by
  refine Ok.bound ⟨?_, ?_⟩
  · have : b.kept ++ [cmd] <+ b.enqueued ++ [cmd] := h.order.append_right [cmd]
    rwa [kept, append_assoc] at this
  · have hcount := h.count
    simp only [kept, length_append] at hcount ⊢
    omega

/-- A batch is cut off the queue, put behind what was submitted, or put back. -/
theorem Ok.of_kept (h : b.Ok) (hkept : b'.kept = b.kept) (henqueued : b'.enqueued = b.enqueued)
    (hdropped : b'.droppedTotal = b.droppedTotal) : b'.Ok :=
  ⟨by rw [hkept, henqueued]; exact h.order, by rw [hkept, henqueued, hdropped]; exact h.count⟩

/-- **One step.** -/
theorem Ok.step {e : Event Cmd} (h : b.Ok) (hs : b.step limits e = some b') : b'.Ok := by
  cases e with
  | enqueue cmd =>
    cases hs
    exact h.enqueue cmd
  | startFlush =>
    simp only [Batcher.step] at hs
    split at hs
    · next hidle =>
      cases hs
      unfold startFlush
      dsimp only
      split
      · exact h
      · exact h.of_kept (by simp [kept, hidle]) rfl rfl
    · cases hs
  | finishFlush =>
    obtain ⟨batch, hbatch, rfl⟩ := Option.map_eq_some_iff.mp hs
    unfold finishFlush
    split
    · exact h.of_kept (by simp [kept, hbatch]) rfl rfl
    · exact Ok.bound (h.of_kept (by simp [kept, hbatch]) rfl rfl)

/-- **No command is lost, and none is submitted twice.** In every run, the commands
that were queued are those that were submitted, those of the batch in flight, those
in the queue, and as many others as were counted. What was submitted is in the
order of the queue, and each command is in it at most as often as it was queued. -/
theorem commands_conserved (h : Runs.Reachable (step limits) (fun _ => True) {} b) :
    (∃ dropped, dropped.length = b.droppedTotal ∧
      b.enqueued ~ b.submitted ++ b.flushing.getD [] ++ b.pending ++ dropped) ∧
    b.submitted <+ b.enqueued ∧ (b.enqueued.Nodup → b.submitted.Nodup) := by
  have hok : b.Ok := h.invariant ⟨.slnil, rfl⟩ fun _ _ _ _ hok _ hs => hok.step hs
  obtain ⟨dropped, hperm⟩ := hok.order.exists_perm_append
  have hsub : b.submitted <+ b.enqueued := by
    refine Sublist.trans ?_ hok.order
    rw [kept, append_assoc]
    exact sublist_append_left _ _
  refine ⟨⟨dropped, ?_, hperm⟩, hsub, fun hnodup => hnodup.sublist hsub⟩
  have hlength := hperm.length_eq
  have hcount := hok.count
  rw [length_append] at hlength
  omega

/-- A failed batch meets a queue that is full again. -/
def crowded : List (Event ℕ) :=
  [.enqueue 1, .enqueue 2, .enqueue 3, .startFlush, .enqueue 4, .enqueue 5, .finishFlush false,
    .startFlush, .finishFlush true]

theorem commands_conserved_crowded :
    ∃ b, Runs.run (step ⟨fun _ => 1, 2, 9, 3⟩) {} crowded = some b ∧
    (b.submitted = [3, 4] && b.pending = [5] && b.droppedTotal = 2) = true ∧
    b.submitted <+ b.enqueued := by
  have hevaluated : ((Runs.run (step ⟨fun _ => 1, 2, 9, 3⟩) {} crowded).any fun b =>
      b.submitted = [3, 4] && b.pending = [5] && b.droppedTotal = 2) = true := by decide
  obtain ⟨b, hrun, hb⟩ := Runs.exists_of_any hevaluated
  exact ⟨b, hrun, hb, (commands_conserved (.of_run .init (fun _ _ => trivial) hrun)).2.1⟩

end Anubis.Cluster.Batcher
