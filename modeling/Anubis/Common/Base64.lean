import Anubis.Common.Literals
import Mathlib.Data.List.Basic
import Mathlib.Data.Nat.Notation
import Mathlib.Algebra.Group.Nat.Defs

/-!
# Base64

The standard encoding with padding. Three bytes make four digits; one or two
bytes at the end are padded. The text says what was encoded, and has neither
control characters nor quotation marks.
-/

namespace Base64

open List

/-- A number below 64 as a digit: `A`–`Z`, `a`–`z`, `0`–`9`, `+`, `/`. -/
def digit (n : ℕ) : Fin 256 :=
  if n < 26 then Fin.ofNat 256 (65 + n)
  else if n < 52 then Fin.ofNat 256 (71 + n)
  else if n < 62 then Fin.ofNat 256 (n - 4)
  else if n = 62 then 43
  else 47

/-- The encoding of a byte slice. -/
def encode : List (Fin 256) → List (Fin 256)
  | [] => []
  | [a] => [digit (a / 4), digit (a % 4 * 16), 61, 61]
  | [a, b] => [digit (a / 4), digit (a % 4 * 16 + b / 16), digit (b % 16 * 4), 61]
  | a :: b :: c :: rest =>
    digit (a / 4) :: digit (a % 4 * 16 + b / 16) :: digit (b % 16 * 4 + c / 64) :: digit
      (c % 64) :: encode rest

/-- What digits are not: control characters, quotation marks, padding. -/
theorem digit_range (n : ℕ) : 43 ≤ (digit n).val ∧ (digit n).val ≠ 61 := by
  unfold digit
  split
  · simp only [Fin.val_ofNat]
    omega
  split
  · simp only [Fin.val_ofNat]
    omega
  split
  · simp only [Fin.val_ofNat]
    omega
  split <;> decide

theorem digit_ne_pad (n : ℕ) : digit n ≠ 61 := fun h => (digit_range n).2 (congrArg Fin.val h)

theorem digit_inj {m n : ℕ} (h : digit m = digit n) (hm : m < 64 := by omega)
    (hn : n < 64 := by omega) : m = n := by
  have hall : ∀ m n : Fin 64, digit m = digit n → m = n := by decide +kernel
  exact congrArg Fin.val (hall ⟨m, hm⟩ ⟨n, hn⟩ h)

theorem encode_range {s : List (Fin 256)} {b : Fin 256} (hb : b ∈ encode s) : 43 ≤ b.val := by
  have hdigit : ∀ n, b = digit n → 43 ≤ b.val := fun n h => h ▸ (digit_range n).1
  have hpad : b = 61 → 43 ≤ b.val := fun h => h ▸ (by decide)
  induction s using encode.induct with
  | case1 => cases hb
  | case2 =>
    simp only [encode, mem_cons, not_mem_nil, or_false] at hb
    rcases hb with h | h | h | h
    · exact hdigit _ h
    · exact hdigit _ h
    · exact hpad h
    · exact hpad h
  | case3 =>
    simp only [encode, mem_cons, not_mem_nil, or_false] at hb
    rcases hb with h | h | h | h
    · exact hdigit _ h
    · exact hdigit _ h
    · exact hdigit _ h
    · exact hpad h
  | case4 a b c rest ih =>
    simp only [encode, mem_cons] at hb
    rcases hb with h | h | h | h | h
    · exact hdigit _ h
    · exact hdigit _ h
    · exact hdigit _ h
    · exact hdigit _ h
    · exact ih h

/-- **The encoding is injective.** -/
theorem encode_inj {s t : List (Fin 256)} (h : encode s = encode t) : s = t := by
  induction s using encode.induct generalizing t with
  | case1 =>
    match t with
    | [] => rfl
    | [_] | [_, _] | _ :: _ :: _ :: _ => cases h
  | case2 a =>
    match t with
    | [] => cases h
    | [x] =>
      simp only [encode, cons.injEq, and_true] at h
      have h₁ := digit_inj h.1
      have h₂ := digit_inj h.2
      have : a = x := Fin.ext (by omega)
      rw [this]
    | [_, _] | _ :: _ :: _ :: _ => simp [encode, (digit_ne_pad _).symm] at h
  | case3 a b =>
    match t with
    | [] => cases h
    | [_] => simp [encode, digit_ne_pad] at h
    | [x, y] =>
      simp only [encode, cons.injEq, and_true] at h
      have h₁ := digit_inj h.1
      have h₂ := digit_inj h.2.1
      have h₃ := digit_inj h.2.2
      have ha : a = x := Fin.ext (by omega)
      have hb : b = y := Fin.ext (by omega)
      rw [ha, hb]
    | _ :: _ :: _ :: _ => simp [encode, (digit_ne_pad _).symm] at h
  | case4 a b c rest ih =>
    match t with
    | [] => cases h
    | [_] | [_, _] => simp [encode, digit_ne_pad] at h
    | x :: y :: z :: t =>
      simp only [encode, cons.injEq] at h
      have h₁ := digit_inj h.1
      have h₂ := digit_inj h.2.1
      have h₃ := digit_inj h.2.2.1
      have h₄ := digit_inj h.2.2.2.1
      have ha : a = x := Fin.ext (by omega)
      have hb : b = y := Fin.ext (by omega)
      have hc : c = z := Fin.ext (by omega)
      rw [ha, hb, hc, ih h.2.2.2.2]

/-- Three bytes make four digits. -/
theorem length_encode (s : List (Fin 256)) : (encode s).length = 4 * ((s.length + 2) / 3) := by
  induction s using encode.induct with
  | case1 => rfl
  | case2 | case3 => simp [encode]
  | case4 a b c rest ih =>
    simp only [encode, length_cons, ih]
    omega

/-- Zeros are encoded as `A`s. -/
theorem encode_zeros (k : ℕ) : encode (replicate (3 * k) 0) = replicate (4 * k) 65 := by
  induction k with
  | zero => rfl
  | succ k ih =>
    have hthree : replicate (3 * (k + 1)) (0 : Fin 256) = 0 :: 0 :: 0 :: replicate (3 * k) 0 := rfl
    have hfour : replicate (4 * (k + 1)) (65 : Fin 256) = 65 :: 65 :: 65 :: 65 :: replicate
      (4 * k) 65 := rfl
    rw [hthree, hfour, encode, ih]
    rfl

end Base64
