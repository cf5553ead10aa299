import Anubis.Sla.Model.Maintenance
import Anubis.Sla.Helpers.Ranges

/-!
# Suppressing alerts and excluding time

A window has occurrences: its first one, and for a recurring window one a day, a
week or a month later, each as long as the first. `IsActive` asks the last
occurrence that has started; an earlier one that is still going on ends before it.
`Occurrences` lists those that meet a period, and its bound on their number never
cuts one off that matters. Both say of an instant whether it is in an occurrence,
and they agree except on the instant at which one ends.
-/

namespace Anubis.Sla

open Instant Spans Calendar List

variable {M N step f i : ℤ}

namespace MaintenanceWindow

variable {w : MaintenanceWindow} {s t : ℤ}

/-! ## Occurrences -/

/-- The day of the month that a monthly window starts on. -/
def monthlyDay (w : MaintenanceWindow) (M : ℤ) : ℤ :=
  Calendar.monthStart M + min (Calendar.dayOfMonth w.offset w.startTime)
    (Calendar.monthLength M) - 1

/-- The start in a month. -/
def monthlyAt (w : MaintenanceWindow) (M : ℤ) : ℤ :=
  w.monthlyDay M * day + Calendar.clock w.offset w.startTime - w.offset

/-- The instant follows the first start by days, weeks or months. -/
def OnGrid (w : MaintenanceWindow) (s : ℤ) : Prop :=
  match w.recurring with
  | .daily => day ∣ s - w.startTime
  | .weekly => 7 * day ∣ s - w.startTime
  | .monthly => ∃ M, s = w.monthlyAt M
  | .other _ => s = w.startTime

/-- **An occurrence starts at the instant.** -/
def Occurs (w : MaintenanceWindow) (s : ℤ) : Prop := w.startTime ≤ s ∧ w.OnGrid s

/-! ## Months -/

theorem dayOfMonth_bounds (offset t : ℤ) :
    1 ≤ dayOfMonth offset t ∧
      dayOfMonth offset t ≤ monthLength (monthOf (dayNumber offset t)) := by
  have := monthOf_spec (dayNumber offset t)
  unfold dayOfMonth monthLength
  omega

/-- The start of a month lies in the month. -/
theorem monthlyDay_bounds (w : MaintenanceWindow) (M : ℤ) :
    monthStart M ≤ w.monthlyDay M ∧ w.monthlyDay M < monthStart (M + 1) := by
  have h₁ := (dayOfMonth_bounds w.offset w.startTime).1
  have h₂ := (monthLength_bounds M).1
  have h₃ : monthStart (M + 1) = monthStart M + monthLength M := by
    unfold monthLength
    omega
  unfold monthlyDay
  omega

theorem monthlyDay_lt (h : M < N) : w.monthlyDay M < w.monthlyDay N := by
  have h₁ := (w.monthlyDay_bounds M).2
  have h₂ := (w.monthlyDay_bounds N).1
  have := monthStart_mono (show M + 1 ≤ N by omega)
  omega

theorem dayNumber_monthlyAt (w : MaintenanceWindow) (M : ℤ) :
    dayNumber w.offset (w.monthlyAt M) = w.monthlyDay M := by
  obtain ⟨h₁, h₂⟩ := clock_bounds w.offset w.startTime
  exact dayNumber_of h₁ h₂

theorem monthlyAt_lt (h : M < N) : w.monthlyAt M < w.monthlyAt N := by
  have := monthlyDay_lt (w := w) h
  unfold monthlyAt day second
  omega

theorem monthlyAt_le (h : M ≤ N) : w.monthlyAt M ≤ w.monthlyAt N := by
  rcases Int.lt_or_eq_of_le h with hlt | rfl
  · exact Int.le_of_lt (monthlyAt_lt hlt)
  · exact le_rfl

/-- The first start is that of its month. -/
theorem monthlyAt_start (w : MaintenanceWindow) :
    w.monthlyAt (monthOf (dayNumber w.offset w.startTime)) = w.startTime := by
  have h := (dayOfMonth_bounds w.offset w.startTime).2
  have hday : w.monthlyDay (monthOf (dayNumber w.offset w.startTime)) =
      dayNumber w.offset w.startTime := by
    unfold monthlyDay
    rw [min_eq_left h]
    unfold dayOfMonth
    omega
  rw [monthlyAt, hday]
  exact (instant_eq w.offset w.startTime).symm

/-- The day before a month is the last one of the month before. -/
theorem dayOfMonth_last (year month : ℤ) :
    dayOfMonth 0 (date 0 year (month + 1) 0 0) =
      monthLength (12 * (year - 1) + (month - 1)) := by
  have hnext : 12 * (year - 1) + (month + 1 - 1) = 12 * (year - 1) + (month - 1) + 1 := by omega
  have hlt := monthStart_lt_succ (12 * (year - 1) + (month - 1))
  unfold date dayOfMonth monthLength
  rw [hnext, dayNumber_of (Int.le_refl 0) (by decide),
    monthOf_eq (M := 12 * (year - 1) + (month - 1))]
  · omega
  · omega
  · omega

theorem monthlyStart_eq (year month : ℤ) :
    w.monthlyStart year month = w.monthlyAt (12 * (year - 1) + (month - 1)) := by
  unfold monthlyStart
  rw [dayOfMonth_last]
  unfold date monthlyAt monthlyDay
  dsimp only
  split <;> congr 3 <;> omega

end MaintenanceWindow

open MaintenanceWindow

/-- Both ways to the start in a month are one. -/
theorem monthlyStart_eq_monthlyAt {w : MaintenanceWindow} (year month : ℤ) :
    monthlyStart w.startTime w.offset year month = w.monthlyAt (12 * (year - 1) + (month - 1)) := by
  have hnorm : dayNumber w.offset (date w.offset year month 1 0) =
      monthStart (12 * (year - 1) + (month - 1)) := by
    unfold date
    rw [dayNumber_of (Int.le_refl 0) (by decide)]
    omega
  have hlt := monthStart_lt_succ (12 * (year - 1) + (month - 1))
  have hmonth := monthOf_eq le_rfl hlt
  have hself := w.monthlyStart_eq (Calendar.year w.offset (date w.offset year month 1 0))
    (Calendar.month w.offset (date w.offset year month 1 0))
  rw [Calendar.year, Calendar.month, hnorm, hmonth, monthNumber_parts] at hself
  refine Eq.trans ?_ hself
  unfold monthlyStart MaintenanceWindow.monthlyStart
  simp only [Calendar.year, Calendar.month, hnorm, hmonth]

namespace MaintenanceWindow

variable {w : MaintenanceWindow} {s t : ℤ}

/-! ## Asked about an instant -/

/-- **The start that `IsActive` looks at is the last one on the grid.** -/
theorem recentStart_spec {r : ℤ} (h : w.recentStart t = some r) :
    w.OnGrid r ∧ r ≤ t ∧ ∀ s, w.OnGrid s → s ≤ t → s ≤ r := by
  have hnow := instant_eq w.offset t
  have hclock := clock_bounds w.offset t
  have hstart := instant_eq w.offset w.startTime
  have hstartClock := clock_bounds w.offset w.startTime
  unfold recentStart at h
  unfold OnGrid
  cases hrec : w.recurring with
  | daily =>
    have hdate := date_parts w.offset t 0 (clock w.offset w.startTime)
    simp only [hrec, Int.add_zero, Option.some.injEq, addDays_eq] at h hdate ⊢
    rw [hdate] at h
    unfold day second at *
    refine ⟨?_, ?_, fun s hs hst => ?_⟩ <;> split at h <;> omega
  | weekly =>
    have hdate := date_parts w.offset t
      (-((weekday w.offset t - weekday w.offset w.startTime + 7) % 7))
      (clock w.offset w.startTime)
    simp only [hrec, Int.sub_eq_add_neg, Option.some.injEq, addDays_eq] at h hdate ⊢
    rw [hdate] at h
    unfold weekday at h
    unfold day second at *
    refine ⟨?_, ?_, fun s hs hst => ?_⟩ <;> split at h <;> omega
  | monthly =>
    obtain ⟨hlow, hhigh⟩ := monthOf_spec (dayNumber w.offset t)
    simp only [hrec, Option.some.injEq, monthlyStart_eq, Calendar.year, Calendar.month] at h ⊢
    generalize monthOf (dayNumber w.offset t) = M at h hlow hhigh
    rw [monthNumber_parts, show 12 * (M / 12 + 1 - 1) + (M % 12 + 1 - 1 - 1) = M - 1 by omega] at h
    split at h
    · next hlater =>
      refine ⟨⟨M - 1, h.symm⟩, ?_, ?_⟩
      · have := (w.monthlyDay_bounds (M - 1)).2
        rw [show M - 1 + 1 = M by omega] at this
        rw [← h]
        unfold monthlyAt day second at *
        omega
      · rintro s ⟨N, rfl⟩ hst
        rw [← h]
        refine monthlyAt_le ?_
        by_contra hN
        have := monthlyAt_le (w := w) (show M ≤ N by omega)
        omega
    · next hstarted =>
      refine ⟨⟨M, h.symm⟩, by omega, ?_⟩
      rintro s ⟨N, rfl⟩ hst
      rw [← h]
      refine monthlyAt_le ?_
      by_contra hN
      -- the next month has not begun
      have h₁ := (w.monthlyDay_bounds N).1
      have h₂ := monthStart_mono (show M + 1 ≤ N by omega)
      unfold monthlyAt day second at *
      omega
  | other => simp [hrec] at h

theorem occurs_start (w : MaintenanceWindow) : w.Occurs w.startTime := by
  refine ⟨le_rfl, ?_⟩
  unfold OnGrid
  split
  · rw [Int.sub_self]
    exact Int.dvd_zero _
  · rw [Int.sub_self]
    exact Int.dvd_zero _
  · exact ⟨_, w.monthlyAt_start.symm⟩
  · rfl

/-- **`IsActive` says whether an occurrence is going on**, its end included. -/
theorem isActive_iff (henabled : w.enabled = true) (hlt : w.startTime < w.endTime)
    (hsub : sub w.endTime w.startTime = w.endTime - w.startTime) :
    w.isActive t = true ↔ ∃ s, w.Occurs s ∧ s ≤ t ∧ t ≤ s + (w.endTime - w.startTime) := by
  unfold isActive
  by_cases hbefore : t < w.startTime
  · rw [if_pos (.inr (.inl hbefore))]
    refine ⟨nofun, ?_⟩
    rintro ⟨s, ⟨hle, -⟩, hst, -⟩
    omega
  · rw [if_neg (by rw [henabled]; simp; omega)]
    by_cases hfirst : t ≤ w.endTime
    · rw [if_pos hfirst]
      exact iff_of_true rfl ⟨w.startTime, w.occurs_start, by omega, by omega⟩
    · rw [if_neg hfirst, hsub]
      cases hrecent : w.recentStart t with
      | none =>
        refine ⟨nofun, ?_⟩
        rintro ⟨s, ⟨-, hgrid⟩, -, hend⟩
        -- a window that does not recur is over
        unfold recentStart at hrecent
        unfold OnGrid at hgrid
        cases hrec : w.recurring with
        | other =>
          rw [hrec] at hgrid
          dsimp only at hgrid
          omega
        | _ => simp [hrec] at hrecent
      | some r =>
        obtain ⟨hgrid, hrt, hlast⟩ := recentStart_spec hrecent
        simp only [decide_eq_true_eq]
        constructor
        · rintro ⟨hstart, -, hend⟩
          exact ⟨r, ⟨hstart, hgrid⟩, hrt, hend⟩
        · rintro ⟨s, ⟨hstart, hs⟩, hst, hend⟩
          have := hlast s hs hst
          exact ⟨by omega, hrt, by omega⟩

end MaintenanceWindow

/-! ## Going through a period -/

section Period

variable {w : MaintenanceWindow} {length lo hi t : ℤ}

/-- An occurrence of the period has its instants. -/
theorem covered_occurrence (hlo : lo ≤ t) (hhi : t < hi) (start : ℤ) :
    Covered (occurrence length lo hi start) t ↔ start ≤ t ∧ t < start + length := by
  unfold occurrence
  split
  · rw [covered_cons, or_iff_left covered_nil, Span.Has]
  · simp only [covered_nil, false_iff]
    omega

/-- **Days or weeks**: an instant is covered if one of the rounds has it. -/
theorem covered_dayLoop (hlo : lo ≤ t) (hhi : t < hi) (hstep : 0 < step) (n : ℕ) (k : ℤ) :
    Covered (dayLoop w step length lo hi n k) t ↔
      ∃ i, k ≤ i ∧ i < k + n ∧ w.startTime + i * step * day ≤ t ∧
        t < w.startTime + i * step * day + length := by
  have hday : 0 < day := by decide
  induction n generalizing k with
  | zero =>
    simp only [dayLoop, covered_nil, false_iff]
    rintro ⟨i, h₁, h₂, -⟩
    omega
  | succ n ih =>
    rw [dayLoop, addDays_eq]
    split
    · rw [covered_append]
      refine (or_congr (covered_occurrence hlo hhi _) (ih (k + 1))).trans ?_
      constructor
      · rintro (h | ⟨i, h₁, h₂, h₃⟩)
        · exact ⟨k, Int.le_refl k, by omega, h⟩
        · exact ⟨i, by omega, by push_cast; omega, h₃⟩
      · rintro ⟨i, h₁, h₂, h₃⟩
        rcases Int.lt_or_eq_of_le h₁ with hlt | rfl
        · exact .inr ⟨i, by omega, by push_cast at h₂; omega, h₃⟩
        · exact .inl h₃
    · next hover =>
      simp only [covered_nil, false_iff]
      rintro ⟨i, h₁, -, h₂, -⟩
      -- later rounds start later
      have := Int.mul_le_mul_of_nonneg_right h₁ hstep.le
      have := Int.mul_le_mul_of_nonneg_right this hday.le
      omega

/-- **Months**: likewise, from the first start on. -/
theorem covered_monthLoop (hlo : lo ≤ t) (hhi : t < hi) (year : ℤ) (n : ℕ) (month : ℤ) :
    Covered (monthLoop w length lo hi year n month) t ↔
      ∃ i, 12 * (year - 1) + (month - 1) ≤ i ∧ i < 12 * (year - 1) + (month - 1) + n ∧
        w.startTime ≤ w.monthlyAt i ∧
        w.monthlyAt i ≤ t ∧ t < w.monthlyAt i + length := by
  induction n generalizing month with
  | zero =>
    simp only [monthLoop, covered_nil, false_iff]
    rintro ⟨i, h₁, h₂, -⟩
    omega
  | succ n ih =>
    rw [monthLoop, monthlyStart_eq_monthlyAt]
    have ih := ih (month + 1)
    rw [show 12 * (year - 1) + (month + 1 - 1) = 12 * (year - 1) + (month - 1) + 1 by omega] at ih
    generalize 12 * (year - 1) + (month - 1) = M at ih ⊢
    split
    · next hearly =>
      rw [ih]
      constructor
      · rintro ⟨i, h₁, h₂, h₃⟩
        exact ⟨i, by omega, by push_cast; omega, h₃⟩
      · rintro ⟨i, h₁, h₂, h₃⟩
        have hne : M ≠ i := fun heq => absurd (heq ▸ h₃.1) (Int.not_le.mpr hearly)
        exact ⟨i, by omega, by push_cast at h₂; omega, h₃⟩
    · next hstart =>
      split
      · rw [covered_append, covered_occurrence hlo hhi, ih]
        constructor
        · rintro (h | ⟨i, h₁, h₂, h₃⟩)
          · exact ⟨M, Int.le_refl M, by omega, by omega, h⟩
          · exact ⟨i, by omega, by push_cast; omega, h₃⟩
        · rintro ⟨i, h₁, h₂, h₃, h₄⟩
          rcases Int.lt_or_eq_of_le h₁ with hlt | rfl
          · exact .inr ⟨i, by omega, by push_cast at h₂; omega, h₃, h₄⟩
          · exact .inl h₄
      · next hover =>
        simp only [covered_nil, false_iff]
        rintro ⟨i, h₁, -, -, h₂, -⟩
        have := monthlyAt_le (w := w) h₁
        omega

/-- The times of a question are less than 290 years apart, of not more than 366
days. -/
def Close (ts : List ℤ) : Prop := ∀ a ∈ ts, ∀ b ∈ ts, a - b < 290 * 366 * day

theorem Close.sub {ts : List ℤ} (h : Close ts) {a b : ℤ} (ha : a ∈ ts) (hb : b ∈ ts) :
    sub a b = a - b := by
  have h₁ := h a ha b hb
  have h₂ := h b hb a ha
  unfold Sla.sub day second at *
  rw [if_neg (by omega), if_neg (by omega)]

theorem wrap_eq {d : ℤ} (h₁ : d < 290 * 366 * day) (h₂ : -d < 290 * 366 * day) : wrap d = d := by
  unfold wrap Int.bmod day second at *
  dsimp only
  split <;> omega

theorem firstRound_nonneg (w : MaintenanceWindow) (step length lo : ℤ) :
    0 ≤ firstRound w step length lo := by
  unfold firstRound
  dsimp only
  split
  · split <;> omega
  · exact Int.le_refl 0

/-- The first round is not after the last start, and not so early that the bound on
rounds is reached before the period ends. -/
theorem firstRound_spec (hstep : step = 1 ∨ step = 7)
    (hgap : wrap (sub lo w.startTime - length) = lo - w.startTime - length) (hlength : 0 < length)
    (hlo : lo ≤ t) (hstart : w.startTime ≤ t) (hhi : t < lo + maxReportPeriod) :
    firstRound w step length lo * step * day ≤ t - w.startTime ∧
      t - w.startTime < (firstRound w step length lo + 9999) * step * day + length := by
  unfold firstRound maxReportPeriod at *
  rw [hgap]
  dsimp only
  split
  · next hpos =>
    rw [Int.tdiv_eq_ediv_of_nonneg hpos.le]
    unfold day second at *
    rcases hstep with rfl | rfl <;> split <;> omega
  · unfold day second at *
    rcases hstep with rfl | rfl <;> omega

/-- A month's start that is not before an instant is in its month or a later one. -/
theorem monthOf_le (h : f ≤ w.monthlyAt i) : monthOf (dayNumber w.offset f) ≤ i := by
  have h₁ := (monthOf_spec (dayNumber w.offset f)).1
  have h₂ := (w.monthlyDay_bounds i).2
  have h₃ : dayNumber w.offset f ≤ w.monthlyDay i := by
    rw [← w.dayNumber_monthlyAt i]
    unfold dayNumber day second
    omega
  have := lt_of_monthStart_lt
    (show monthStart (monthOf (dayNumber w.offset f)) < monthStart (i + 1) by omega)
  omega

/-- There are fewer than 9999 months from an instant to a start within 290 years. -/
theorem lt_monthOf_add (hle : w.monthlyAt i ≤ t) (hclose : t - f < 290 * 366 * day)
    (hmonth : monthOf (dayNumber w.offset f) ≤ i) :
    i < monthOf (dayNumber w.offset f) + 9999 := by
  have h₁ := (monthOf_spec (dayNumber w.offset f)).2
  have h₂ := (monthLength_bounds (monthOf (dayNumber w.offset f))).2
  have h₃ := monthStart_mono hmonth
  have h₄ := (w.monthlyDay_bounds i).1
  have h₅ : w.monthlyDay i ≤ dayNumber w.offset t := by
    rw [← w.dayNumber_monthlyAt i]
    unfold dayNumber day second
    omega
  have h₆ : dayNumber w.offset t ≤ dayNumber w.offset f + 290 * 366 := by
    unfold dayNumber day second at *
    omega
  unfold monthLength at h₂
  omega

/-- **The loop over months reaches every start that matters.** -/
theorem firstMonth_spec (hwrap : wrap (-length) = -length)
    (hclose : t - w.startTime < 290 * 366 * day)
    (hstart : w.startTime ≤ w.monthlyAt i) (hle : w.monthlyAt i ≤ t)
    (hlt : t < w.monthlyAt i + length) (hlo : lo ≤ t) :
    12 * ((firstMonth w length lo).1 - 1) + ((firstMonth w length lo).2 - 1) ≤ i ∧
      i < 12 * ((firstMonth w length lo).1 - 1) + ((firstMonth w length lo).2 - 1) + 10000 := by
  unfold firstMonth
  rw [hwrap]
  dsimp only
  split
  · next hlater =>
    have h₁ := monthOf_le (w := w) (show lo + -length ≤ w.monthlyAt i by omega)
    have h₂ := lt_monthOf_add hle (show t - (lo + -length) < 290 * 366 * day by omega) h₁
    unfold Calendar.year Calendar.month
    dsimp only
    omega
  · have h₁ := monthOf_le (w := w) hstart
    have h₂ := lt_monthOf_add hle hclose h₁
    unfold Calendar.year Calendar.month
    dsimp only
    omega

/-- **`Occurrences` has the instants of the period at which an occurrence is going
on**, its end excluded. -/
theorem covered_occurrences (hlt : w.startTime < w.endTime)
    (hclose : Close [w.startTime, w.endTime, lo, hi, t])
    (hperiod : hi - lo ≤ maxReportPeriod) (hlo : lo ≤ t) (hhi : t < hi) :
    Covered (occurrences w lo hi) t ↔ ∃ s, w.Occurs s ∧ s ≤ t ∧
    t < s + (w.endTime - w.startTime) := by
  have hlength := hclose.sub (a := w.endTime) (b := w.startTime) (by simp) (by simp)
  have hfrom := hclose.sub (a := lo) (b := w.startTime) (by simp) (by simp)
  have htstart := hclose t (by simp) w.startTime (by simp)
  have hgap : wrap (sub lo w.startTime - (w.endTime - w.startTime)) =
      lo - w.startTime - (w.endTime - w.startTime) := by
    rw [hfrom]
    have h₁ := hclose lo (by simp) w.endTime (by simp)
    have h₂ := hclose w.endTime (by simp) lo (by simp)
    exact wrap_eq (by omega) (by omega)
  -- days and weeks in one
  have hdays : ∀ step, step = 1 ∨ step = 7 →
      (Covered (dayLoop w step (w.endTime - w.startTime) lo hi maxOccurrences
          (firstRound w step (w.endTime - w.startTime) lo)) t ↔
        ∃ s, (w.startTime ≤ s ∧ step * day ∣ s - w.startTime) ∧ s ≤ t ∧
          t < s + (w.endTime - w.startTime)) := by
    intro step hstep
    refine (covered_dayLoop hlo hhi (by omega) _ _).trans ⟨?_, ?_⟩
    · rintro ⟨i, h₁, -, h₃, h₄⟩
      have hk := firstRound_nonneg w step (w.endTime - w.startTime) lo
      refine ⟨_, ⟨?_, i, ?_⟩, h₃, h₄⟩ <;> unfold day second at *
        <;> rcases hstep with rfl | rfl <;> omega
    · rintro ⟨s, ⟨hs, i, hi⟩, hst, hts⟩
      obtain ⟨h₁, h₂⟩ := firstRound_spec hstep hgap (by omega) hlo (by omega) (by omega)
      have hmax : (maxOccurrences : ℤ) = 10000 := rfl
      rw [hmax]
      generalize firstRound w step (w.endTime - w.startTime) lo = k at h₁ h₂
      -- the occurrence itself, or the first or the last of the rounds
      by_cases hearly : i < k
      · refine ⟨k, ?_, ?_, ?_, ?_⟩ <;> unfold day second at *
          <;> rcases hstep with rfl | rfl <;> omega
      · by_cases hlate : i < k + 10000
        · refine ⟨i, ?_, ?_, ?_, ?_⟩ <;> unfold day second at *
            <;> rcases hstep with rfl | rfl <;> omega
        · refine ⟨k + 9999, ?_, ?_, ?_, ?_⟩ <;> unfold day second at *
            <;> rcases hstep with rfl | rfl <;> omega
  unfold occurrences Occurs OnGrid
  rw [hlength]
  dsimp only
  rw [if_neg (by omega)]
  cases hrec : w.recurring with
  | daily => simpa using hdays 1 (.inl rfl)
  | weekly => simpa using hdays 7 (.inr rfl)
  | monthly =>
    dsimp only
    refine (covered_monthLoop hlo hhi _ _ _).trans ⟨?_, ?_⟩
    · rintro ⟨i, -, -, hs, hst, hts⟩
      exact ⟨w.monthlyAt i, ⟨hs, i, rfl⟩, hst, hts⟩
    · rintro ⟨s, ⟨hs, i, rfl⟩, hst, hts⟩
      have hwrap : wrap (-(w.endTime - w.startTime)) = -(w.endTime - w.startTime) := by
        have h₁ := hclose w.startTime (by simp) w.endTime (by simp)
        have h₂ := hclose w.endTime (by simp) w.startTime (by simp)
        exact wrap_eq (by omega) (by omega)
      obtain ⟨h₁, h₂⟩ := firstMonth_spec hwrap htstart hs hst hts hlo
      exact ⟨i, h₁, h₂, hs, hst, hts⟩
  | other =>
    dsimp only
    rw [covered_occurrence hlo hhi]
    constructor
    · exact fun h => ⟨w.startTime, ⟨le_rfl, rfl⟩, h⟩
    · rintro ⟨s, ⟨-, rfl⟩, h⟩
      exact h

end Period

/-! ## Agreement -/

/-- **A window suppresses alerts exactly in the time that reports exclude for it.** -/
theorem maintenance_agrees {w : MaintenanceWindow} {soul : Api.Soul} {lo hi t : ℤ}
    (henabled : w.enabled = true)
    (hlt : w.startTime < w.endTime) (hclose : Close [w.startTime, w.endTime, lo, hi, t])
    (hperiod : hi - lo ≤ maxReportPeriod) (hlo : lo ≤ t) (hhi : t < hi)
    (happlies : w.appliesTo soul = true)
    (hend : ∀ s, w.Occurs s → t ≠ s + (w.endTime - w.startTime)) :
    (w.isActive t = true ↔ Covered (occurrences w lo hi) t) ∧
      (w.isActive t = true ↔ Covered (maintenanceRanges [w] soul lo hi) t) := by
  have hactive : w.isActive t = true ↔ Covered (occurrences w lo hi) t := by
    rw [isActive_iff henabled hlt (hclose.sub (by simp) (by simp)),
      covered_occurrences hlt hclose hperiod hlo hhi]
    constructor
    · rintro ⟨s, hs, hst, hts⟩
      have := hend s hs
      exact ⟨s, hs, hst, by omega⟩
    · rintro ⟨s, hs, hst, hts⟩
      exact ⟨s, hs, hst, by omega⟩
  refine ⟨hactive, hactive.trans ?_⟩
  have hle : w.startTime ≤ w.endTime := Int.le_of_lt hlt
  simp only [maintenanceRanges, covered_merge, filter_cons, henabled, decide_eq_true hle, happlies,
    Bool.and_self,
    if_true, filter_nil, flatMap_cons, flatMap_nil, append_nil]
  exact (and_iff_right ⟨hlo, hhi⟩).symm

/-! ## A nightly window -/

/-- Two hours every night, first on the second day of 1970 at an hour east of UTC. -/
def nightly : MaintenanceWindow where
  soulIDs := []
  tags := []
  workspaceID := "default"
  startTime := unixEpoch + day
  offset := hour
  endTime := unixEpoch + day + 2 * hour
  recurring := .daily
  enabled := true

/-- A soul of the same workspace. -/
def nightlySoul : Api.Soul where
  id := "soul_1"
  workspaceID := ""
  name := "status"
  type := .icmp
  target := "192.0.2.1"
  weight := 60
  timeout := 10
  enabled := true
  tags := []
  regions := []
  region := ""
  http := none
  tcp := none
  udp := none
  dns := none
  smtp := none
  imap := none
  icmp := none
  grpc := none
  webSocket := none
  tls := none
  heartbeat := none
  retries := 0
  retryInterval := 0
  flapDetection := none
  createdAt := 0

/-- In the fourth night, and in a report on that day. -/
theorem maintenance_agrees_nightly :
    (nightly.isActive (unixEpoch + 4 * day + hour) = true ↔
        Covered (occurrences nightly (unixEpoch + 4 * day) (unixEpoch + 5 * day))
        (unixEpoch + 4 * day + hour)) ∧
      (nightly.isActive (unixEpoch + 4 * day + hour) = true ↔
        Covered (maintenanceRanges [nightly] nightlySoul (unixEpoch + 4 * day)
          (unixEpoch + 5 * day)) (unixEpoch + 4 * day + hour)) := by
  refine maintenance_agrees rfl (by decide) ?_ (by decide) (by decide) (by decide) (by decide) ?_
  · unfold Close
    decide
  · rintro s ⟨-, hgrid⟩
    change day ∣ s - (unixEpoch + day) at hgrid
    change unixEpoch + 4 * day + hour ≠ s + (unixEpoch + day + 2 * hour - (unixEpoch + day))
    unfold unixEpoch day hour second at *
    omega

end Anubis.Sla
