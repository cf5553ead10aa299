import Mathlib.Order.Lattice
import Mathlib.Data.List.Basic

/-!
# Fences

The children of a search tree's node stand between its separators, as fields
between fences. `Fenced P lo ks cs hi` says that each of the children `cs`
satisfies `P` within its two neighbours in `lo, ks …, hi`. Any row of
children can be replaced by another one between the same fences.
-/

namespace Fences

open List

variable {β γ : Type} {P : β → β → γ → Prop}

/-- Every child satisfies `P` between its fences. -/
def Fenced (P : β → β → γ → Prop) : β → List β → List γ → β → Prop
  | lo, [], [c], hi => P lo hi c
  | lo, k :: ks, c :: cs, hi => P lo k c ∧ Fenced P k ks cs hi
  | _, _, _, _ => False

variable {lo hi a b m : β} {ks ks₁ ks₂ : List β} {c : γ} {cs cs₁ cs₂ : List γ}

/-- There is one child more than separators. -/
theorem Fenced.length (h : Fenced P lo ks cs hi) : cs.length = ks.length + 1 := by
  induction ks generalizing lo cs with
  | nil =>
    cases cs with
    | nil => cases h
    | cons c cs =>
      cases cs with
      | nil => rfl
      | cons => cases h
  | cons k ks ih =>
    cases cs with
    | nil => cases h
    | cons => simp [ih h.2]

/-- **A row of children falls apart at a separator.** -/
theorem fenced_append (hlen : cs₁.length = ks₁.length + 1) :
    Fenced P lo (ks₁ ++ m :: ks₂) (cs₁ ++ cs₂) hi ↔
      Fenced P lo ks₁ cs₁ m ∧ Fenced P m ks₂ cs₂ hi := by
  induction ks₁ generalizing lo cs₁ with
  | nil =>
    obtain ⟨c, rfl⟩ := length_eq_one_iff.mp hlen
    exact Iff.rfl
  | cons k ks₁ ih =>
    cases cs₁ with
    | nil => cases hlen
    | cons c cs₁ =>
      have hlen : cs₁.length = ks₁.length + 1 := by simpa using hlen
      simp only [cons_append, Fenced, ih hlen, and_assoc]

/-- **One child and its context.** The child can be replaced by any row of
children between the same fences. -/
theorem Fenced.focus (h : Fenced P lo (ks₁ ++ ks₂) (cs₁ ++ c :: cs₂) hi)
    (hlen : cs₁.length = ks₁.length) :
    ∃ a ∈ lo :: ks₁, ∃ b ∈ hi :: ks₂, P a b c ∧
      ∀ ts ms, Fenced P a ts ms b → Fenced P lo (ks₁ ++ ts ++ ks₂) (cs₁ ++ ms ++ cs₂) hi := by
  induction ks₁ generalizing lo cs₁ with
  | nil =>
    obtain rfl := length_eq_zero_iff.mp hlen
    cases ks₂ with
    | nil =>
      have hcs := h.length
      obtain rfl : cs₂ = [] := by simpa using hcs
      exact ⟨lo, by simp, hi, by simp, h, fun ts ms hm => by simpa using hm⟩
    | cons k =>
      exact ⟨lo, by simp, k, by simp, h.1, fun ts ms hm => (fenced_append hm.length).mpr ⟨hm, h.2⟩⟩
  | cons k ks₁ ih =>
    cases cs₁ with
    | nil => cases hlen
    | cons =>
      obtain ⟨a, ha, b, hb, hc, hctx⟩ := ih h.2 (by simpa using hlen)
      exact ⟨a, .tail _ ha, b, hb, hc, fun ts ms hm => ⟨h.1, hctx ts ms hm⟩⟩

/-- The children to the left end at a separator. -/
theorem Fenced.left (h : Fenced P lo (ks₁ ++ ks₂) (cs₁ ++ cs₂) hi) (hlen : cs₁.length = ks₁.length)
    (hc : c ∈ cs₁) : ∃ a, ∃ b ∈ ks₁, P a b c := by
  induction ks₁ generalizing lo cs₁ with
  | nil =>
    obtain rfl := length_eq_zero_iff.mp hlen
    cases hc
  | cons k ks₁ ih =>
    cases cs₁ with
    | nil => cases hlen
    | cons =>
      rcases mem_cons.mp hc with rfl | hc
      · exact ⟨lo, k, by simp, h.1⟩
      · obtain ⟨a, b, hb, hP⟩ := ih h.2 (by simpa using hlen) hc
        exact ⟨a, b, .tail _ hb, hP⟩

/-- A child that is not the first one begins at a separator. -/
theorem Fenced.tail (h : Fenced P lo ks (c :: cs) hi) {c' : γ} (hc : c' ∈ cs) :
    ∃ a ∈ ks, ∃ b, P a b c' := by
  induction ks generalizing lo c cs with
  | nil =>
    have := h.length
    obtain rfl : cs = [] := by simpa using this
    cases hc
  | cons k ks ih =>
    cases cs with
    | nil => cases hc
    | cons d cs =>
      rcases mem_cons.mp hc with rfl | hc
      · cases ks with
        | nil =>
          have := h.2.length
          obtain rfl : cs = [] := by simpa using this
          exact ⟨k, by simp, hi, h.2⟩
        | cons k' => exact ⟨k, by simp, k', h.2.1⟩
      · obtain ⟨a, ha, b, hP⟩ := ih h.2 hc
        exact ⟨a, .tail _ ha, b, hP⟩

/-- The children to the right begin at a separator. -/
theorem Fenced.right (h : Fenced P lo (ks₁ ++ ks₂) (cs₁ ++ c :: cs₂) hi)
    (hlen : cs₁.length = ks₁.length) {c' : γ} (hc : c' ∈ cs₂) : ∃ a ∈ ks₂, ∃ b, P a b c' := by
  induction ks₁ generalizing lo cs₁ with
  | nil =>
    obtain rfl := length_eq_zero_iff.mp hlen
    exact h.tail hc
  | cons k ks₁ ih =>
    cases cs₁ with
    | nil => cases hlen
    | cons => exact ih h.2 (by simpa using hlen)

section Order

variable [LinearOrder β] (hlt : ∀ a b c, P a b c → a < b)

include hlt

section

variable (h : Fenced P lo ks cs hi)

include h

theorem Fenced.lt : lo < hi := by
  induction ks generalizing lo cs with
  | nil =>
    obtain ⟨c, rfl⟩ := length_eq_one_iff.mp h.length
    exact hlt _ _ _ h
  | cons k ks ih =>
    cases cs with
    | nil => cases h
    | cons => exact (hlt _ _ _ h.1).trans (ih h.2)

/-- Separators increase, between the outer fences. -/
theorem Fenced.separators : ks.Pairwise (· < ·) ∧ ∀ k ∈ ks, lo < k ∧ k < hi := by
  induction ks generalizing lo cs with
  | nil => exact ⟨List.Pairwise.nil, nofun⟩
  | cons k ks ih =>
    cases cs with
    | nil => cases h
    | cons =>
      obtain ⟨hks, hmem⟩ := ih h.2
      refine ⟨pairwise_cons.mpr ⟨fun k' hk' => (hmem k' hk').1, hks⟩, fun k' hk' => ?_⟩
      have hk : lo < k := hlt _ _ _ h.1
      rcases mem_cons.mp hk' with rfl | hk'
      · exact ⟨hk, h.2.lt hlt⟩
      · exact ⟨hk.trans (hmem k' hk').1, (hmem k' hk').2⟩

/-- Every child stands between the outer fences. -/
theorem Fenced.mem (hc : c ∈ cs) : ∃ a b, lo ≤ a ∧ b ≤ hi ∧ P a b c := by
  induction ks generalizing lo cs with
  | nil =>
    obtain ⟨c', rfl⟩ := length_eq_one_iff.mp h.length
    obtain rfl : c = c' := by simpa using hc
    exact ⟨lo, hi, le_refl _, le_refl _, h⟩
  | cons k ks ih =>
    cases cs with
    | nil => cases h
    | cons =>
      rcases mem_cons.mp hc with rfl | hc
      · exact ⟨lo, k, le_refl _, (h.2.lt hlt).le, h.1⟩
      · obtain ⟨a, b, ha, hb, hP⟩ := ih h.2 hc
        exact ⟨a, b, (hlt _ _ _ h.1).le.trans ha, hb, hP⟩

/-- Between two children there is a fence. -/
theorem Fenced.pairwise : cs.Pairwise fun c d => ∃ a b a' b', P a b c ∧ P a' b' d ∧ b ≤ a' := by
  induction ks generalizing lo cs with
  | nil =>
    obtain ⟨c, rfl⟩ := length_eq_one_iff.mp h.length
    exact pairwise_singleton ..
  | cons k ks ih =>
    cases cs with
    | nil => cases h
    | cons =>
      refine pairwise_cons.mpr ⟨fun d hd => ?_, ih h.2⟩
      obtain ⟨a, b, ha, -, hP⟩ := h.2.mem hlt hd
      exact ⟨lo, k, a, b, h.1, hP, ha⟩

end

end Order

end Fences
