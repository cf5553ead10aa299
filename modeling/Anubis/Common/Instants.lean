import Mathlib.Data.Int.Notation
import Mathlib.Tactic.Common
import Mathlib.Algebra.Group.Nat.Defs
import Mathlib.Algebra.Group.Int.Defs

/-!
# Instants

Instants as the standard library of Go has them: an integer is the nanoseconds
since the start of the year 1 in UTC, which is the zero time. Rounding down
counts from there, so hours and days are those of UTC.
-/

namespace Instant

/-- A second, in nanoseconds. -/
def second : ℤ := 1000000000

/-- A minute. -/
def minute : ℤ := 60 * second

/-- An hour. -/
def hour : ℤ := 3600 * second

/-- Twenty-four hours. -/
def day : ℤ := 86400 * second

/-- The start of 1970. -/
def unixEpoch : ℤ := 62135596800 * second

/-- `Truncate`: the last multiple of `d` up to the instant. -/
def truncate (t : ℤ) (d : ℤ) : ℤ := t - t % d

/-- `Unix`: whole seconds since 1970. -/
def unix (t : ℤ) : ℤ := (t - unixEpoch) / second

/-- `UnixNano`: nanoseconds since 1970 in 64 bits. -/
def unixNano (t : ℤ) : ℤ := (t - unixEpoch).bmod (2 ^ 64)

variable {t T d : ℤ} {a b : ℤ}

theorem truncate_le (hd : 0 < d) : truncate t d ≤ t := by
  have := Int.emod_nonneg t (Int.ne_of_gt hd)
  unfold truncate
  omega

theorem lt_truncate_add (hd : 0 < d) : t < truncate t d + d := by
  have := Int.emod_lt_of_pos t hd
  unfold truncate
  omega

theorem dvd_truncate : d ∣ truncate t d := Int.dvd_self_sub_emod

/-- **Rounding down finds the multiple** that the instant follows by less than one
step. -/
theorem truncate_eq_iff (hd : 0 < d) (hT : d ∣ T) : truncate t d = T ↔ T ≤ t ∧ t < T + d := by
  constructor
  · rintro rfl
    exact ⟨truncate_le hd, lt_truncate_add hd⟩
  · rintro ⟨hle, hlt⟩
    obtain ⟨k, rfl⟩ := hT
    have hmod : t % d = t - d * k := by
      have hself : (t - d * k) % d = t - d * k := Int.emod_eq_of_lt (by omega) (by omega)
      rwa [Int.sub_mul_emod_self_left] at hself
    unfold truncate
    omega

theorem truncate_of_dvd (hd : 0 < d) (ht : d ∣ t) : truncate t d = t :=
  (truncate_eq_iff hd ht).mpr ⟨Int.le_refl t, by omega⟩

/-- Multiples of one step are at least the step apart. -/
theorem le_of_lt_add (hd : 0 < d) (ha : d ∣ a) (hb : d ∣ b) (h : a < b + d) : a ≤ b := by
  obtain ⟨m, rfl⟩ := ha
  obtain ⟨n, rfl⟩ := hb
  have hlt : d * m < d * (n + 1) := by
    rw [Int.mul_add, Int.mul_one]
    exact h
  have := Int.lt_of_mul_lt_mul_left hlt (Int.le_of_lt hd)
  exact Int.mul_le_mul_of_nonneg_left (by omega) (Int.le_of_lt hd)

theorem unix_inj (ha : second ∣ a) (hb : second ∣ b) (h : unix a = unix b) : a = b := by
  unfold unix unixEpoch second at *
  omega

theorem unix_mono (h : a ≤ b) : unix a ≤ unix b := by
  unfold unix unixEpoch second
  omega

theorem unix_lt_of_add_second_le (h : a + second ≤ b) : unix a < unix b := by
  unfold unix unixEpoch second at *
  omega

theorem unix_nonneg (h : unixEpoch ≤ t) : 0 ≤ unix t := by
  unfold unix second
  omega

/-- Nanoseconds of instants close to each other are in order where neither count
is negative. -/
theorem unixNano_between (ha : 0 ≤ unixNano a) (hb : 0 ≤ unixNano b) (hat : a ≤ t) (htb : t < b)
    (hab : b ≤ a + day) : unixNano a ≤ unixNano t ∧ unixNano t < unixNano b := by
  unfold unixNano Int.bmod day second at *
  dsimp only at *
  omega

end Instant
