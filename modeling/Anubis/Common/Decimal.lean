import Mathlib.Data.Int.Notation
import Mathlib.Data.List.Lex
import Mathlib.Order.Lattice
import Mathlib.Data.Char

/-!
# Numbers in decimal

The text of a number, and its place among other texts. Texts are compared
character by character, which is the order of the numbers only where they have
the same number of digits and no sign.
-/

namespace Decimal

open List

/-- The text of a number. -/
def decimal (z : ℤ) : List Char :=
  if z < 0 then '-' :: Nat.toDigits 10 z.natAbs else Nat.toDigits 10 z.natAbs

/-! ## The order of texts -/

variable {α : Type} [LinearOrder α] {n m : ℕ}

/-- Texts of one length that differ are in the order of their first difference,
whatever follows. -/
theorem append_lt_append {xs ys u v : List α} (hlen : xs.length = ys.length) (h : xs < ys) :
    xs ++ u < ys ++ v := by
  induction xs generalizing ys with
  | nil =>
    rw [length_eq_zero_iff.mp hlen.symm] at h
    exact absurd h (lt_irrefl _)
  | cons x xs ih =>
    cases ys with
    | nil => cases hlen
    | cons =>
      rw [cons_append, cons_append, cons_lt_cons_iff]
      rcases cons_lt_cons_iff.mp h with hlt | ⟨rfl, hlt⟩
      · exact .inl hlt
      · exact .inr ⟨rfl, ih (Nat.succ.inj hlen) hlt⟩

theorem le_append (xs us : List α) : xs ≤ xs ++ us :=
  not_lt.mp (@List.le_append_left _ _ _ xs us)

/-! ## The order of numbers -/

theorem digitChar_lt : ∀ m < 10, ∀ n < 10, m < n → Nat.digitChar m < Nat.digitChar n := by
  decide

theorem toDigits_step (h : 10 ≤ n) : Nat.toDigits 10 n = Nat.toDigits 10 (n / 10) ++
    [Nat.digitChar (n % 10)] :=
  Nat.toDigits_of_base_le (by decide) h

theorem length_toDigits_mono (h : m ≤ n) :
    (Nat.toDigits 10 m).length ≤ (Nat.toDigits 10 n).length := by
  have hpos := Nat.length_toDigits_pos (b := 10) (n := n)
  have hbelow := (Nat.length_toDigits_le_iff (by decide) hpos).mp le_rfl
  exact (Nat.length_toDigits_le_iff (by decide) hpos).mpr (h.trans_lt hbelow)

/-- **Numbers with equally many digits are in the order of their texts.** -/
theorem toDigits_lt (hlen : (Nat.toDigits 10 m).length = (Nat.toDigits 10 n).length) (h : m < n) :
    Nat.toDigits 10 m < Nat.toDigits 10 n := by
  induction n using Nat.strong_induction_on generalizing m with
  | _ n ih =>
    rcases Nat.lt_or_ge m 10 with hm | hm
    · rcases Nat.lt_or_ge n 10 with hn | hn
      · rw [Nat.toDigits_of_lt_base hm, Nat.toDigits_of_lt_base hn, cons_lt_cons_iff]
        exact .inl (digitChar_lt m hm n hn h)
      · rw [Nat.toDigits_of_lt_base hm, toDigits_step hn, length_append] at hlen
        have := Nat.length_toDigits_pos (b := 10) (n := n / 10)
        simp only [length_cons, length_nil] at hlen
        omega
    · have hn : 10 ≤ n := by omega
      rw [toDigits_step hm, toDigits_step hn] at hlen ⊢
      have hprefix : (Nat.toDigits 10 (m / 10)).length = (Nat.toDigits 10 (n / 10)).length := by
        simpa using hlen
      rcases Nat.lt_or_ge (m / 10) (n / 10) with hlt | hge
      · exact append_lt_append hprefix
          (ih (n / 10) (Nat.div_lt_self (by omega) (by decide)) hprefix hlt)
      · -- the leading digits are the same, and the last one decides
        have heq : m / 10 = n / 10 := by omega
        rw [heq]
        refine append_left_lt (cons_lt_cons_iff.mpr (.inl ?_))
        exact digitChar_lt _ (Nat.mod_lt _ (by decide)) _ (Nat.mod_lt _ (by decide)) (by omega)

/-- **A number between two others of one width is found between their texts**,
whatever follows its own. -/
theorem decimal_between {a n b : ℤ} (ha : 0 ≤ a) (han : a ≤ n) (hnb : n < b)
    (hlen : (decimal a).length = (decimal b).length) (us : List Char) :
    decimal a ≤ decimal n ++ us ∧ decimal n ++ us < decimal b := by
  have hneg : ∀ z : ℤ, a ≤ z → decimal z = Nat.toDigits 10 z.natAbs := fun z hz => if_neg (by omega)
  rw [hneg a (Int.le_refl a), hneg b (by omega)] at hlen ⊢
  rw [hneg n han]
  have h1 := length_toDigits_mono (show a.natAbs ≤ n.natAbs by omega)
  have h2 := length_toDigits_mono (show n.natAbs ≤ b.natAbs by omega)
  constructor
  · rcases Int.lt_or_eq_of_le han with hlt | rfl
    · have := append_lt_append (u := []) (v := us) (by omega)
        (toDigits_lt (by omega) (show a.natAbs < n.natAbs by omega))
      rw [append_nil] at this
      exact le_of_lt this
    · exact le_append _ _
  · have := append_lt_append (u := us) (v := []) (by omega)
      (toDigits_lt (by omega) (show n.natAbs < b.natAbs by omega))
    rwa [append_nil] at this

end Decimal
