import Anubis.Common.Instants

/-!
# The calendar

Dates of the proleptic Gregorian calendar, in a place with a fixed offset from
UTC. Days and months are counted from the first of January of the year 1; a month
is the number `12 * (year - 1) + (month - 1)`, so that months beyond December, or
before January, are those of other years. The date of a day is found year by year;
the month it is in is the only one that starts by the day and whose next month
starts after it.
-/

namespace Calendar

open Instant

/-! ## Months -/

/-- The days before the year `y + 1`. -/
def yearStart (y : ℤ) : ℤ := 365 * y + y / 4 - y / 100 + y / 400

/-- The year `y + 1` has a leap day. -/
def leap (y : ℤ) : Prop := (y + 1) % 4 = 0 ∧ ((y + 1) % 100 ≠ 0 ∨ (y + 1) % 400 = 0)

instance (y : ℤ) : Decidable (leap y) := inferInstanceAs (Decidable (_ ∧ _))

/-- The days before a month of a year without a leap day, counting from zero. -/
def daysBefore (m : ℤ) : ℤ :=
  if m = 0 then 0 else if m = 1 then 31 else if m = 2 then 59 else if m =
    3 then 90 else if m = 4 then 120
  else if m = 5 then 151 else if m = 6 then 181 else if m = 7 then 212 else if m =
    8 then 243 else if m = 9 then 273
  else if m = 10 then 304 else 334

/-- The first day of a month. -/
def monthStart (M : ℤ) : ℤ :=
  yearStart (M / 12) + daysBefore (M % 12) + if 2 ≤ M % 12 ∧ leap (M / 12) then 1 else 0

/-- The number of days of a month. -/
def monthLength (M : ℤ) : ℤ := monthStart (M + 1) - monthStart M

theorem yearStart_succ (y : ℤ) :
    yearStart (y + 1) = yearStart y + 365 + if leap y then 1 else 0 := by
  by_cases h : leap y
  · rw [if_pos h]
    unfold yearStart leap at *
    omega
  · rw [if_neg h]
    unfold yearStart leap at *
    omega

theorem monthStart_year (y : ℤ) : monthStart (12 * y) = yearStart y := by
  have h₁ : 12 * y / 12 = y := by omega
  have h₂ : 12 * y % 12 = 0 := by omega
  simp [monthStart, h₁, h₂, daysBefore]

/-- **A month has between 28 and 31 days.** -/
theorem monthLength_bounds (M : ℤ) : 28 ≤ monthLength M ∧ monthLength M ≤ 31 := by
  have hM : M = 12 * (M / 12) + M % 12 := by omega
  have hlow : 0 ≤ M % 12 := by omega
  have hhigh : M % 12 < 12 := by omega
  generalize M / 12 = y at hM
  generalize M % 12 = m at hM hlow hhigh
  subst hM
  have hsucc := yearStart_succ y
  have h₁ : (12 * y + m) / 12 = y := by omega
  have h₂ : (12 * y + m) % 12 = m := by omega
  unfold monthLength monthStart
  rw [h₁, h₂]
  by_cases hdec : m = 11
  · have h₃ : (12 * y + m + 1) / 12 = y + 1 := by omega
    have h₄ : (12 * y + m + 1) % 12 = 0 := by omega
    rw [h₃, h₄, hsucc, hdec]
    simp only [daysBefore]
    by_cases hleap : leap y <;> simp [hleap] <;> omega
  · have h₃ : (12 * y + m + 1) / 12 = y := by omega
    have h₄ : (12 * y + m + 1) % 12 = m + 1 := by omega
    rw [h₃, h₄]
    have hcases : m = 0 ∨ m = 1 ∨ m = 2 ∨ m = 3 ∨ m = 4 ∨ m = 5 ∨ m = 6 ∨ m = 7 ∨ m = 8 ∨ m = 9 ∨
      m = 10 := by omega
    by_cases hleap : leap y <;>
      rcases hcases with rfl | rfl | rfl | rfl | rfl | rfl | rfl | rfl | rfl | rfl | rfl <;>
        simp [daysBefore, hleap] <;> omega

theorem monthStart_lt_succ (M : ℤ) : monthStart M < monthStart (M + 1) := by
  have := (monthLength_bounds M).1
  unfold monthLength at this
  omega

theorem monthStart_add_le (M : ℤ) (n : ℕ) : monthStart M + 28 * n ≤ monthStart (M + n) := by
  induction n with
  | zero => simp
  | succ n ih =>
    have := (monthLength_bounds (M + n)).1
    unfold monthLength at this
    push_cast
    rw [← Int.add_assoc M]
    omega

variable {M N d : ℤ}

/-- **Months come one after another.** -/
theorem monthStart_mono (h : M ≤ N) : monthStart M + 28 * (N - M) ≤ monthStart N := by
  have := monthStart_add_le M (N - M).toNat
  rw [Int.toNat_of_nonneg (by omega), show M + (N - M) = N by omega] at this
  exact this

theorem lt_of_monthStart_lt (h : monthStart M < monthStart N) : M < N := by
  by_contra hle
  have := monthStart_mono (show N ≤ M by omega)
  omega

/-! ## Dates -/

/-- The year of a day, counting from zero: 400, 100, 4 years and one year at a
time. The fourth hundred and the fourth year have a day more. -/
def yearOf (d : ℤ) : ℤ :=
  let r := d % 146097
  let c := r / 36524 - r / 36524 / 4
  let r := r - 36524 * c
  let q := r / 1461
  let r := r - 1461 * q
  let n := r / 365 - r / 365 / 4
  400 * (d / 146097) + 100 * c + 4 * q + n

/-- What is left of a day after its 400, 100 and 4 years and its year: a day more
than 364 only at the end of four years, and of a hundred only in the fourth. -/
theorem yearOf_parts (d : ℤ) :
    ∃ a c q n r : ℤ, yearOf d = 400 * a + 100 * c + 4 * q + n ∧
      d = 146097 * a + 36524 * c + 1461 * q + 365 * n + r ∧
      (0 ≤ c ∧ c ≤ 3) ∧ (0 ≤ q ∧ q ≤ 24) ∧ (0 ≤ n ∧ n ≤ 3) ∧ (0 ≤ r ∧ r ≤ 365) ∧
      (r = 365 → n = 3 ∧ (q = 24 → c = 3)) := by
  obtain ⟨a, r, ha, hr⟩ : ∃ a r, d / 146097 = a ∧ d % 146097 = r := ⟨_, _, rfl, rfl⟩
  obtain ⟨c, hc⟩ : ∃ c, r / 36524 - r / 36524 / 4 = c := ⟨_, rfl⟩
  have hc' : 0 ≤ c ∧ c ≤ 3 ∧ 0 ≤ r - 36524 * c ∧
    (r - 36524 * c < 36524 ∨ c = 3 ∧ r - 36524 * c = 36524) := by omega
  obtain ⟨s, hs⟩ : ∃ s, r - 36524 * c = s := ⟨_, rfl⟩
  obtain ⟨q, hq⟩ : ∃ q, s / 1461 = q := ⟨_, rfl⟩
  obtain ⟨u, hu⟩ : ∃ u, s - 1461 * q = u := ⟨_, rfl⟩
  obtain ⟨n, hn⟩ : ∃ n, u / 365 - u / 365 / 4 = n := ⟨_, rfl⟩
  have hn' : 0 ≤ n ∧ n ≤ 3 ∧ 0 ≤ u - 365 * n ∧ (u - 365 * n < 365 ∨ n = 3 ∧ u - 365 * n = 365) := by
    omega
  refine ⟨a, c, q, n, u - 365 * n, ?_, ?_, ?_⟩
  · simp only [yearOf, ha, hr, hc, hs, hq, hu, hn]
  · omega
  · omega

theorem yearOf_spec (d : ℤ) : yearStart (yearOf d) ≤ d ∧ d < yearStart (yearOf d + 1) := by
  obtain ⟨a, c, q, n, r, hyear, hd, hc, hq, hn, hr, hlast⟩ := yearOf_parts d
  have hstart : yearStart (yearOf d) = d - r := by
    have h₁ : yearOf d / 4 = 100 * a + 25 * c + q := by omega
    have h₂ : yearOf d / 100 = 4 * a + c := by omega
    have h₃ : yearOf d / 400 = a := by omega
    unfold yearStart
    omega
  rw [yearStart_succ, hstart]
  refine ⟨by omega, ?_⟩
  by_cases hr' : r = 365
  · have hleap : leap (yearOf d) := by
      obtain ⟨h₁, h₂⟩ := hlast hr'
      unfold leap
      omega
    rw [if_pos hleap]
    omega
  · split <;> omega

/-- The last month from `M` to `M + k` that starts by the day. -/
def findMonth (d M : ℤ) : ℕ → ℤ
  | 0 => M
  | k + 1 => if monthStart (M + (k + 1)) ≤ d then M + (k + 1) else findMonth d M k

theorem findMonth_spec {k : ℕ} (hlow : monthStart M ≤ d) (hhigh : d < monthStart (M + k + 1)) :
    monthStart (findMonth d M k) ≤ d ∧ d < monthStart (findMonth d M k + 1) := by
  induction k with
  | zero => exact ⟨hlow, by simpa [findMonth] using hhigh⟩
  | succ k ih =>
    unfold findMonth
    split
    · next h => exact ⟨h, by simpa [Int.add_assoc] using hhigh⟩
    · next h =>
      refine ih ?_
      rw [Int.add_assoc]
      omega

/-- The month of a day. -/
def monthOf (d : ℤ) : ℤ := findMonth d (12 * yearOf d) 11

theorem monthOf_spec (d : ℤ) : monthStart (monthOf d) ≤ d ∧ d < monthStart (monthOf d + 1) := by
  obtain ⟨hlow, hhigh⟩ := yearOf_spec d
  refine findMonth_spec (by rwa [monthStart_year]) ?_
  have : (12 * yearOf d + (11 : ℕ) + 1 : ℤ) = 12 * (yearOf d + 1) := by
    push_cast
    omega
  rwa [this, monthStart_year]

/-- **The month of a day is the one it lies in.** -/
theorem monthOf_eq (hlow : monthStart M ≤ d) (hhigh : d < monthStart (M + 1)) : monthOf d = M := by
  obtain ⟨h₁, h₂⟩ := monthOf_spec d
  have := lt_of_monthStart_lt (show monthStart M < monthStart (monthOf d + 1) by omega)
  have := lt_of_monthStart_lt (show monthStart (monthOf d) < monthStart (M + 1) by omega)
  omega

/-! ## Instants in a place -/

/-- The day of an instant, at an offset from UTC. -/
def dayNumber (offset t : ℤ) : ℤ := (t + offset) / day

/-- The time of the day: `Clock` and `Nanosecond` in one. -/
def clock (offset t : ℤ) : ℤ := (t + offset) % day

/-- `Year`. -/
def year (offset t : ℤ) : ℤ := monthOf (dayNumber offset t) / 12 + 1

/-- `Month`. -/
def month (offset t : ℤ) : ℤ := monthOf (dayNumber offset t) % 12 + 1

/-- `Day`, of the month. -/
def dayOfMonth (offset t : ℤ) :
    ℤ := dayNumber offset t - monthStart (monthOf (dayNumber offset t)) + 1

/-- `Weekday`, from Sunday; the first day of the year 1 is a Monday. -/
def weekday (offset t : ℤ) : ℤ := (dayNumber offset t + 1) % 7

/-- `Date`: the instant of a date and a time of the day. Months and days beyond
their usual ranges are those of other years and months. -/
def date (offset year month day clock : ℤ) : ℤ :=
  (monthStart (12 * (year - 1) + (month - 1)) + (day - 1)) * Instant.day + clock - offset

/-- `AddDate` with days only. -/
def addDays (offset t n : ℤ) :
    ℤ := date offset (year offset t) (month offset t) (dayOfMonth offset t + n)
    (clock offset t)

variable {offset t : ℤ}

theorem monthNumber_parts (M : ℤ) : 12 * (M / 12 + 1 - 1) + (M % 12 + 1 - 1) = M := by omega

theorem instant_eq (offset t : ℤ) : t = dayNumber offset t * day + clock offset t - offset := by
  have := Int.mul_ediv_add_emod (t + offset) day
  unfold dayNumber clock
  rw [Int.mul_comm] at this
  omega

theorem clock_bounds (offset t : ℤ) : 0 ≤ clock offset t ∧ clock offset t < day :=
  ⟨Int.emod_nonneg _ (by decide), Int.emod_lt_of_pos _ (by decide)⟩

/-- **A date and a time of the day are those of their instant.** -/
theorem dayNumber_of {c : ℤ} (hlow : 0 ≤ c) (hhigh : c < day) :
    dayNumber offset (d * day + c - offset) = d := by
  unfold dayNumber
  rw [show d * day + c - offset + offset = d * day + c by omega, Int.add_comm,
    Int.add_mul_ediv_right _ _ (by decide),
    Int.ediv_eq_zero_of_lt hlow hhigh, Int.zero_add]

theorem date_parts (offset t n c : ℤ) :
    date offset (year offset t) (month offset t) (dayOfMonth offset t + n) c =
      (dayNumber offset t + n) * day + c - offset := by
  unfold date year month dayOfMonth
  rw [monthNumber_parts]
  congr 3
  omega

theorem addDays_eq (offset t n : ℤ) : addDays offset t n = t + n * day := by
  rw [addDays, date_parts, Int.add_mul]
  have := instant_eq offset t
  omega

end Calendar
