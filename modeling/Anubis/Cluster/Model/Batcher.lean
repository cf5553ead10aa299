import Mathlib.Data.Nat.Notation

/-!
# The replication batcher

`Batcher` of `internal/cluster/batcher.go`. `flushOnce` lets go of the lock while
the batch is submitted, so it is two steps. It is called by the loop, and by `Stop`
once the loop has ended. `Stop` is called once, as its owner does: there is at most
one flush at a time. A batch of commands can always be encoded. What wakes the loop
and what is logged are left out.
-/

namespace Anubis.Cluster

variable {Cmd : Type}

/-- The limits of a `Batcher`; `size` is the length of a command's key and value. -/
structure BatchLimits (Cmd : Type) where
  size : Cmd → ℕ
  maxCommands : ℕ := 32
  maxBytes : ℕ := 32768
  maxPending : ℕ := 10000

/-- `Batcher`, the batch that is being submitted, and what has happened: the
commands that were queued, and those whose submission succeeded. -/
structure Batcher (Cmd : Type) where
  pending : List Cmd := []
  droppedTotal : ℕ := 0
  flushing : Option (List Cmd) := none
  enqueued : List Cmd := []
  submitted : List Cmd := []

namespace Batcher

/-- The oldest commands over `maxPending` are dropped. -/
def bound (limits : BatchLimits Cmd) (b : Batcher Cmd) : Batcher Cmd :=
  let excess := b.pending.length - limits.maxPending
  { b with pending := b.pending.drop excess, droppedTotal := b.droppedTotal + excess }

/-- `Enqueue`. -/
def enqueue (limits : BatchLimits Cmd) (b : Batcher Cmd) (cmd : Cmd) : Batcher Cmd :=
  bound limits { b with pending := b.pending ++ [cmd], enqueued := b.enqueued ++ [cmd] }

/-- The loop of `flushOnce` that counts the commands of a batch. -/
def batchLength (limits : BatchLimits Cmd) : List Cmd → ℕ → ℕ → ℕ
  | [], n, _ => n
  | cmd :: rest, n, size =>
    if n < limits.maxCommands then
      if limits.maxBytes ≤ size + limits.size cmd then n + 1
      else batchLength limits rest (n + 1) (size + limits.size cmd)
    else n

/-- The first half of `flushOnce`. -/
def startFlush (limits : BatchLimits Cmd) (b : Batcher Cmd) : Batcher Cmd :=
  let n := batchLength limits b.pending 0 0
  if n = 0 then b else { b with pending := b.pending.drop n, flushing := some (b.pending.take n) }

/-- The second half; the commands of a batch that failed are put back. -/
def finishFlush (limits : BatchLimits Cmd) (b : Batcher Cmd) (batch : List Cmd) (applied : Bool) :
    Batcher Cmd :=
  if applied then { b with flushing := none, submitted := b.submitted ++ batch }
  else bound limits { b with flushing := none, pending := batch ++ b.pending }

/-- What happens under the lock. -/
inductive Event (Cmd : Type)
  | enqueue (cmd : Cmd)
  | startFlush
  | finishFlush (applied : Bool)

/-- One critical section. -/
def step (limits : BatchLimits Cmd) (b : Batcher Cmd) : Event Cmd → Option (Batcher Cmd)
  | .enqueue cmd => some (b.enqueue limits cmd)
  | .startFlush => if b.flushing = none then some (b.startFlush limits) else none
  | .finishFlush applied => b.flushing.map fun batch => b.finishFlush limits batch applied

end Batcher

end Anubis.Cluster
