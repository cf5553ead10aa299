import Mathlib.Algebra.GroupWithZero.Nat

/-!
# Literals of finite types

A literal of `Fin n` carries a proof that `n` is not zero. The proof has a name
here, so a definition with such a literal is the same term in every module.
-/

/-- For bytes. -/
instance byte_neZero : NeZero 256 := ⟨by decide⟩

/-- For the nodes of a cluster of three. -/
instance trio_neZero : NeZero 3 := ⟨by decide⟩
