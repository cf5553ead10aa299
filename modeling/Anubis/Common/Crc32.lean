import Mathlib.Data.BitVec
import Mathlib.Logic.Function.Iterate

/-!
# CRC-32

The checksum of IEEE 802.3, bit by bit. A message is run through a register of
32 bits. The register is linear: exclusive or of two starting values gives
exclusive or of the results, so the starting value only adds a constant that
depends on the length of the message.
-/

namespace Crc32

/-- One bit through the register. -/
def shift (s : BitVec 32) : BitVec 32 :=
  if s.getLsbD 0 then (s >>> 1) ^^^ 0xEDB88320#32 else s >>> 1

/-- One byte through the register. -/
def byte (s : BitVec 32) (b : Fin 256) : BitVec 32 := shift^[8] (s ^^^ BitVec.ofNat 32 b)

/-- A message through the register. -/
def run (s : BitVec 32) (data : List (Fin 256)) : BitVec 32 := data.foldl byte s

/-- The checksum of a message. -/
def checksum (data : List (Fin 256)) : BitVec 32 := ~~~ run (BitVec.allOnes 32) data

theorem shift_xor (a b : BitVec 32) : shift (a ^^^ b) = shift a ^^^ shift b := by
  have hcancel : ∀ x y p : BitVec 32, x ^^^ y = (x ^^^ p) ^^^ (y ^^^ p) := by
    intro x y p
    rw [BitVec.xor_comm y p, ← BitVec.xor_assoc, BitVec.xor_assoc x p p, BitVec.xor_self,
      BitVec.xor_zero]
  unfold shift
  simp only [BitVec.getLsbD_xor, BitVec.ushiftRight_xor_distrib]
  cases a.getLsbD 0 <;> cases b.getLsbD 0
  · rfl
  · exact BitVec.xor_assoc ..
  · exact (BitVec.xor_assoc ..).trans
      ((congrArg _ (BitVec.xor_comm ..)).trans (BitVec.xor_assoc ..).symm)
  · exact hcancel ..

theorem shift_iterate_xor (n : ℕ) (a b : BitVec 32) :
    shift^[n] (a ^^^ b) = shift^[n] a ^^^ shift^[n] b := by
  induction n generalizing a b with
  | zero => rfl
  | succ n ih => rw [Function.iterate_succ_apply, shift_xor, ih]; rfl

/-- **The register is linear** in its starting value. -/
theorem run_xor (a b : BitVec 32) (data : List (Fin 256)) :
    run (a ^^^ b) data = run a data ^^^ shift^[8 * data.length] b := by
  induction data generalizing a b with
  | nil => rfl
  | cons x data ih =>
    have hbyte : byte (a ^^^ b) x = byte a x ^^^ shift^[8] b := by
      unfold byte
      rw [← shift_iterate_xor, BitVec.xor_assoc, BitVec.xor_comm b, ← BitVec.xor_assoc]
    have hlen : 8 * (x :: data).length = 8 * data.length + 8 := by
      rw [List.length_cons]
      omega
    unfold run at ih ⊢
    rw [List.foldl_cons, List.foldl_cons, hbyte, ih, hlen, Function.iterate_add_apply]

theorem run_append (s : BitVec 32) (xs ys : List (Fin 256)) :
    run s (xs ++ ys) = run (run s xs) ys :=
  List.foldl_append ..

theorem checksum_append (xs ys : List (Fin 256)) :
    checksum (xs ++ ys) = ~~~(run 0#32 ys ^^^ shift^[8 * ys.length]
      (run (BitVec.allOnes 32) xs)) := by
  unfold checksum
  rw [run_append, ← run_xor, BitVec.zero_xor]

end Crc32
