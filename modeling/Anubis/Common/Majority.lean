import Mathlib.Data.Finset.Card
import Mathlib.Order.SymmDiff
import Mathlib.Data.Finset.SymmDiff
import Mathlib.Tactic.Linarith

/-!
# Majorities of neighbouring configurations

A configuration is a finite set of voters, a quorum more than half of it.
Two quorums of one configuration meet, and so do quorums of two
configurations that differ by at most one voter. That is all the
intersection single-server membership changes rest on: configurations two
changes apart have disjoint quorums.
-/

namespace Quorum

open Finset

variable {N : Type*}

/-- **More than half of the voters.** -/
def IsMajority (Q V : Finset N) : Prop := Q ⊆ V ∧ V.card < 2 * Q.card

instance [DecidableEq N] (Q V : Finset N) : Decidable (IsMajority Q V) :=
  inferInstanceAs (Decidable (_ ∧ _))

variable [DecidableEq N] {V W : Finset N}

/-- **Two configurations one change apart**, or the same one: at most one
voter belongs to only one of them. -/
def Adjacent (V W : Finset N) : Prop := (symmDiff V W).card ≤ 1

instance (V W : Finset N) : Decidable (Adjacent V W) := inferInstanceAs (Decidable (_ ≤ _))

@[simp] theorem Adjacent.refl (V : Finset N) : Adjacent V V := by simp [Adjacent]

theorem Adjacent.symm (h : Adjacent V W) : Adjacent W V := by
  rwa [Adjacent, symmDiff_comm]

/-- Voter sets that agree away from one voter are neighbours. -/
theorem adjacent_of_agree_off (x : N) (h : ∀ y, y ≠ x → (y ∈ V ↔ y ∈ W)) :
    Adjacent V W := by
  refine le_trans (card_le_card (t := {x}) ?_) (by simp)
  intro y hy
  by_contra hne
  have := h y (by simpa using hne)
  simp only [mem_symmDiff] at hy
  tauto

/-- Twice the union of two sets is at most their sizes and their
difference together. -/
theorem two_mul_card_union (V W : Finset N) :
    2 * (V ∪ W).card = V.card + W.card + (symmDiff V W).card := by
  have hsplit : (V ∪ W).card = (symmDiff V W).card + (V ∩ W).card := by
    rw [← card_union_of_disjoint]
    · congr 1
      ext y
      simp only [mem_union, mem_symmDiff, mem_inter]
      tauto
    · rw [disjoint_left]
      intro y hy hy'
      simp only [mem_symmDiff, mem_inter] at hy hy'
      tauto
  have hincl := card_union_add_card_inter V W
  omega

/-- **Quorums of neighbouring configurations meet.** -/
theorem IsMajority.exists_mem_both {Q Q' : Finset N} (hQ : IsMajority Q V)
    (hQ' : IsMajority Q' W) (h : Adjacent V W) : ∃ x, x ∈ Q ∧ x ∈ Q' := by
  by_contra hne
  push Not at hne
  have hdisj : Disjoint Q Q' := disjoint_left.mpr fun x hx hx' => hne x hx hx'
  have hcard : Q.card + Q'.card ≤ (V ∪ W).card := by
    rw [← card_union_of_disjoint hdisj]
    exact card_le_card (union_subset_union hQ.1 hQ'.1)
  have hunion := two_mul_card_union V W
  have hV := hQ.2
  have hW := hQ'.2
  unfold Adjacent at h
  omega

end Quorum
