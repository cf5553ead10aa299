import Anubis.Sla.Helpers.Rollups

/-!
# The tally of a period

`CollectSLA` reads whole days and hours from rollups and the rest from raw
judgments. Every instant of the period is in exactly one stretch, so it counts
what `CountJudgments` counts over the raw judgments outside the exclusions, and
one thing more: a rollup counts every judgment of its bucket, those in a
maintenance window too, which `CountJudgments` leaves out. The numbers agree
exactly if no such judgment is in a stretch that is read from a rollup.
-/

namespace Anubis.Sla

open Instant Spans List

namespace Collection

variable {c : Collection} {js : List Judgment} {start cursor t : ℤ}

/-! ## Stretches -/

/-- **The instant is read from a rollup**: its hour is whole, or its day is and the
instant is before hourly rollups start. -/
def fromRollup (c : Collection) (start t : ℤ) : Prop :=
  (start ≤ truncate t hour ∧ c.wholeHour (truncate t hour)) ∨
    (start ≤ truncate t day ∧ c.whole (truncate t day) ∧ t < c.hourSince)

instance (c : Collection) (start t : ℤ) : Decidable (c.fromRollup start t) :=
    inferInstanceAs (Decidable (_ ∨ _))

/-- Where the loop is: at the start or at an hour, and inside a whole day only
where hourly rollups have started. -/
structure At (c : Collection) (start cursor : ℤ) : Prop where
  after : start ≤ cursor
  aligned : cursor = start ∨ hour ∣ cursor
  skipped : ∀ d, day ∣ d → start ≤ d → c.whole d → d < cursor → cursor < d + day →
    c.hourSince ≤ cursor

theorem hour_pos : 0 < hour := by decide

theorem day_pos : 0 < day := by decide

theorem hour_dvd_of_day {d : ℤ} (h : day ∣ d) : hour ∣ d := Int.dvd_trans (by decide) h

theorem at_start : c.At start start :=
  ⟨le_rfl, .inl rfl, fun _ _ hle _ hlt => absurd hle (Int.not_le.mpr hlt)⟩

/-- The stretch in terms of the cursor. -/
theorem stretch_eq (c : Collection) (cursor : ℤ) :
    c.stretch cursor =
      if day ∣ cursor ∧ c.whole cursor ∧ cursor + day ≤ c.hourSince then (.day, cursor + day)
      else if day ∣ cursor ∧ c.whole cursor ∧ cursor < c.hourSince then (.remainder, c.hourSince)
      else if hour ∣ cursor ∧ c.wholeHour cursor then (.hour, cursor + hour)
      else (.raw, if c.stop < hourEnd cursor then c.stop else hourEnd cursor) := by
  have hday : truncate cursor day = cursor ↔ day ∣ cursor :=
    ⟨fun h => h ▸ dvd_truncate, truncate_of_dvd day_pos⟩
  have hhour : truncate cursor hour = cursor ↔ hour ∣ cursor :=
    ⟨fun h => h ▸ dvd_truncate, truncate_of_dvd hour_pos⟩
  unfold stretch hourEnd
  simp only [truncateToResolution, resolutionSpan, hday, hhour]
  by_cases hd : day ∣ cursor
  · rw [truncate_of_dvd day_pos hd, truncate_of_dvd hour_pos (hour_dvd_of_day hd)]
  · by_cases hh : hour ∣ cursor
    · simp [hd, truncate_of_dvd hour_pos hh]
    · simp [hd, hh]

/-- **What a stretch can be**: what it is read from says where it starts and ends. -/
theorem stretch_spec (c : Collection) (cursor : ℤ) :
    match (c.stretch cursor).1 with
    | .day =>
      day ∣ cursor ∧ c.whole cursor ∧ cursor + day ≤ c.hourSince ∧
        (c.stretch cursor).2 = cursor + day
    | .remainder =>
      day ∣ cursor ∧ c.whole cursor ∧ cursor < c.hourSince ∧ c.hourSince < cursor + day ∧
        (c.stretch cursor).2 = c.hourSince
    | .hour =>
      hour ∣ cursor ∧ c.wholeHour cursor ∧ (day ∣ cursor → c.whole cursor → c.hourSince ≤ cursor) ∧
        (c.stretch cursor).2 = cursor + hour
    | .raw =>
      (hour ∣ cursor → ¬c.wholeHour cursor) ∧
        (day ∣ cursor → c.whole cursor → c.hourSince ≤ cursor) ∧
        (c.stretch cursor).2 = if c.stop < hourEnd cursor then c.stop else hourEnd cursor := by
  rw [stretch_eq]
  by_cases h₁ : day ∣ cursor ∧ c.whole cursor ∧ cursor + day ≤ c.hourSince
  · rw [if_pos h₁]
    exact ⟨h₁.1, h₁.2.1, h₁.2.2, rfl⟩
  · rw [if_neg h₁]
    by_cases h₂ : day ∣ cursor ∧ c.whole cursor ∧ cursor < c.hourSince
    · rw [if_pos h₂]
      exact ⟨h₂.1, h₂.2.1, h₂.2.2, Int.not_le.mp fun hle => h₁ ⟨h₂.1, h₂.2.1, hle⟩, rfl⟩
    · have hday : day ∣ cursor → c.whole cursor → c.hourSince ≤ cursor := fun hd hwhole =>
        Int.not_lt.mp fun hlt => h₂ ⟨hd, hwhole, hlt⟩
      rw [if_neg h₂]
      by_cases h₃ : hour ∣ cursor ∧ c.wholeHour cursor
      · rw [if_pos h₃]
        exact ⟨h₃.1, h₃.2, hday, rfl⟩
      · rw [if_neg h₃]
        exact ⟨fun hh hwhole => h₃ ⟨hh, hwhole⟩, hday, rfl⟩

theorem fromRollup_of_day {d : ℤ} (hd : day ∣ d) (hstart : start ≤ d) (hwhole : c.whole d)
    (hle : d ≤ t) (hlt : t < d + day) (hsince : t < c.hourSince) : c.fromRollup start t := by
  have htrunc : truncate t day = d := (truncate_eq_iff day_pos hd).mpr ⟨hle, hlt⟩
  exact .inr ⟨htrunc ▸ hstart, htrunc ▸ hwhole, hsince⟩

theorem fromRollup_of_hour {h : ℤ} (hh : hour ∣ h) (hstart : start ≤ h) (hwhole : c.wholeHour h)
    (hle : h ≤ t) (hlt : t < h + hour) : c.fromRollup start t := by
  have htrunc : truncate t hour = h := (truncate_eq_iff hour_pos hh).mpr ⟨hle, hlt⟩
  exact .inl ⟨htrunc ▸ hstart, htrunc ▸ hwhole⟩

/-- At an hour later, no whole day was entered before hourly rollups start. -/
theorem At.next (hat : c.At start cursor) {n : ℤ} (hn : hour ∣ n) (hlt : cursor < n)
    (hnear : n ≤ hourEnd cursor)
    (hday : day ∣ cursor → c.whole cursor → c.hourSince ≤ cursor) : c.At start n where
  after := by
    have := hat.after
    omega
  aligned := .inr hn
  skipped := by
    intro d hd hstart hwhole hdn hnd
    -- the day starts by the hour of the cursor
    have hdhour : d ≤ truncate cursor hour := by
      refine le_of_lt_add hour_pos (hour_dvd_of_day hd) dvd_truncate ?_
      unfold hourEnd at hnear
      omega
    have hle := truncate_le (t := cursor) hour_pos
    rcases Int.lt_or_eq_of_le (show d ≤ cursor by omega) with hdc | rfl
    · have := hat.skipped d hd hstart hwhole hdc (by omega)
      omega
    · have := hday hd hwhole
      omega

/-- An instant of a raw stretch is not read from a rollup. -/
theorem At.not_fromRollup (hat : c.At start cursor) (hhour : hour ∣ cursor → ¬c.wholeHour cursor)
    (hday : day ∣ cursor → c.whole cursor → c.hourSince ≤ cursor) (hle : cursor ≤ t)
    (hlt : t < hourEnd cursor) : ¬c.fromRollup start t := by
  have hafter := hat.after
  have htrunc : truncate t hour = truncate cursor hour :=
    (truncate_eq_iff hour_pos dvd_truncate).mpr ⟨Int.le_trans (truncate_le hour_pos) hle, hlt⟩
  rintro (⟨hstart, hwhole⟩ | ⟨hstart, hwhole, hsince⟩)
  · rw [htrunc] at hstart hwhole
    have hle := truncate_le (t := cursor) hour_pos
    have heq : truncate cursor hour = cursor := by
      rcases hat.aligned with rfl | hdvd
      · omega
      · exact truncate_of_dvd hour_pos hdvd
    rw [heq] at hwhole
    exact hhour (heq ▸ dvd_truncate) hwhole
  · -- the day of the instant starts by the cursor
    have hd : day ∣ truncate t day := dvd_truncate
    have hdt := truncate_le (t := t) day_pos
    have htd := lt_truncate_add (t := t) day_pos
    have hdc : truncate t day ≤ truncate cursor hour := by
      refine le_of_lt_add hour_pos (hour_dvd_of_day hd) dvd_truncate ?_
      unfold hourEnd at hlt
      omega
    have := truncate_le (t := cursor) hour_pos
    rcases Int.lt_or_eq_of_le (show truncate t day ≤ cursor by omega) with hlt | heq
    · have := hat.skipped _ hd hstart hwhole hlt (by omega)
      omega
    · rw [heq] at hd hwhole
      have := hday hd hwhole
      omega

/-! ## The loop -/

/-- What `CountJudgments` counts outside the exclusions. -/
def Checked (c : Collection) (j : Judgment) : Prop := j.status ≠ .embalmed ∧
    ¬Covered c.excluded j.timestamp

/-- What it counts as found alive. -/
def Up (c : Collection) (j : Judgment) : Prop := j.status = .alive ∧ ¬Covered c.excluded j.timestamp

/-- What only a rollup counts. -/
def Hidden (c : Collection) (start : ℤ) (j : Judgment) : Prop :=
  j.status = .embalmed ∧ c.fromRollup start j.timestamp

instance (c : Collection) : DecidablePred c.Checked := fun _ => inferInstanceAs (Decidable (_ ∧ _))

instance (c : Collection) : DecidablePred c.Up := fun _ => inferInstanceAs (Decidable (_ ∧ _))

instance (c : Collection) (start : ℤ) : DecidablePred (c.Hidden start) := fun _ =>
    inferInstanceAs (Decidable (_ ∧ _))

/-- The judgments of a kind in ranges. -/
def countRanges (js : List Judgment) (p : Judgment → Prop) [DecidablePred p]
    (ranges : List TimeRange) : ℤ :=
  (ranges.map fun r => countIn js p r.start r.stop).sum

/-- A stretch that is read from a rollup, and what the rollup counts of it. -/
theorem countIn_of_fromRollup (js : List Judgment) {a b : ℤ}
    (hroll : ∀ t, a ≤ t → t < b → c.fromRollup start t ∧ ¬Covered c.excluded t) :
    countIn js (fun _ => True) a b = countIn js c.Checked a b + countIn js (c.Hidden start) a b ∧
      countIn js (fun j => j.status = .alive) a b = countIn js c.Up a b := by
  constructor
  · refine countIn_add (fun j _ ha hb => ?_) fun j _ h => h.1.1 h.2.1
    obtain ⟨hfrom, hcovered⟩ := hroll _ ha hb
    by_cases h : j.status = .embalmed
    · simp [Hidden, h, hfrom]
    · simp [Checked, h, hcovered]
  · exact countIn_congr fun j _ ha hb => ⟨fun h => ⟨h, (hroll _ ha hb).2⟩, fun h => h.1⟩

/-- Ranges that lie after the start and do not run backwards. -/
def Proper (start : ℤ) (ranges : List TimeRange) : Prop := ∀ r ∈ ranges, start ≤ r.start ∧
    r.start ≤ r.stop

theorem addRaw_spec (js : List Judgment) {ranges : List TimeRange} {a b : ℤ}
    (h : Proper start ranges) (ha : start ≤ a) (hab : a ≤ b) :
    Proper start (addRaw ranges a b) ∧
      ∀ (p : Judgment → Prop) [DecidablePred p],
        countRanges js p (addRaw ranges a b) = countRanges js p ranges + countIn js p a b := by
  have happend : Proper start (ranges ++ [⟨a, b⟩]) ∧
      ∀ (p : Judgment → Prop) [DecidablePred p],
        countRanges js p (ranges ++ [⟨a, b⟩]) = countRanges js p ranges + countIn js p a b := by
    refine ⟨fun r hr => ?_, fun p _ => by simp [countRanges]⟩
    rcases mem_append.mp hr with hr | hr
    · exact h r hr
    · cases mem_singleton.mp hr
      exact ⟨ha, hab⟩
  rcases eq_nil_or_concat ranges with rfl | ⟨before, last, rfl⟩
  · exact happend
  · rw [concat_eq_append] at h happend ⊢
    simp only [addRaw, getLast?_append, getLast?_singleton, Option.some_or, dropLast_concat]
    split
    · next hjoin =>
      obtain ⟨hstart, hproper⟩ := h last (by simp)
      refine ⟨fun r hr => ?_, fun p _ => ?_⟩
      · rcases mem_append.mp hr with hr | hr
        · exact h r (mem_append_left _ hr)
        · cases mem_singleton.mp hr
          exact ⟨hstart, by dsimp only; omega⟩
      · simp only [countRanges, map_append, map_cons, map_nil, sum_append, sum_cons,
          sum_nil]
        rw [countIn_append hproper (show last.stop ≤ b by omega), hjoin]
        omega
    · exact happend

/-- What is accounted for from the cursor on: each judgment once, in the tally or in
the ranges left to raw reading, and the hidden ones where a rollup is read. -/
structure Passed (c : Collection) (js : List Judgment) (start cursor : ℤ) (tally : Tally)
    (ranges : List TimeRange) (out : Tally × List TimeRange) : Prop where
  proper : Proper start out.2
  checks : out.1.checks + countRanges js c.Checked out.2 =
    tally.checks + countRanges js c.Checked ranges + countIn js c.Checked cursor c.stop +
      countIn js (c.Hidden start) cursor c.stop
  up : out.1.up + countRanges js c.Up out.2 =
    tally.up + countRanges js c.Up ranges + countIn js c.Up cursor c.stop

variable {tally : Tally} {ranges : List TimeRange} {out : Tally × List TimeRange} {n : ℤ}

/-- A stretch from a rollup before the rest. -/
theorem Passed.rolled {summary : Option JudgmentSummary} {source : Source}
    (h : Passed c js start n (tally.addSummary summary source) ranges out)
    (hcounts : Counts summary js cursor n)
    (hroll : ∀ t, cursor ≤ t → t < n → c.fromRollup start t ∧ ¬Covered c.excluded t)
    (hle : cursor ≤ n) (hstop : n ≤ c.stop) : Passed c js start cursor tally ranges out := by
  obtain ⟨hproper, hchecks, hup⟩ := h
  obtain ⟨h₁, h₂⟩ := addSummary_spec (t := tally) hcounts source
  obtain ⟨h₃, h₄⟩ := countIn_of_fromRollup js hroll
  refine ⟨hproper, ?_, ?_⟩
  · rw [countIn_append hle hstop, countIn_append hle hstop]
    omega
  · rw [countIn_append hle hstop]
    omega

/-- A raw stretch before the rest. -/
theorem Passed.raw (h : Passed c js start n tally (addRaw ranges cursor n) out)
    (hproper : Proper start ranges)
    (hraw : ∀ t, cursor ≤ t → t < n → ¬c.fromRollup start t) (hstart : start ≤ cursor)
    (hle : cursor ≤ n) (hstop : n ≤ c.stop) : Passed c js start cursor tally ranges out := by
  obtain ⟨hproper', hchecks, hup⟩ := h
  obtain ⟨-, hadd⟩ := addRaw_spec js hproper hstart hle
  have hnone : countIn js (c.Hidden start) cursor n = 0 :=
    countIn_eq_zero.mpr fun j _ hj hin => hraw _ hin.1 hin.2 hj.2
  rw [hadd] at hchecks hup
  refine ⟨hproper', ?_, ?_⟩
  · rw [countIn_append hle hstop, countIn_append hle hstop]
    omega
  · rw [countIn_append hle hstop]
    omega

/-- **One pass over the period** accounts for all of it. -/
theorem collect_spec (hok : c.Ok js start) (tally : Tally) {ranges : List TimeRange}
    (hat : cursor < c.stop → c.At start cursor) (hstop : cursor ≤ c.stop)
    (hproper : Proper start ranges) :
    Passed c js start cursor tally ranges (c.collect cursor tally ranges) := by
  have hour_pos := hour_pos
  have day_pos := day_pos
  fun_induction Collection.collect c cursor tally ranges with
  | case1 cursor tally ranges hlt next hread ih =>
    have hspec := c.stretch_spec cursor
    rw [hread] at hspec
    obtain ⟨hd, hwhole, hsince, hnext⟩ := hspec
    change next = cursor + day at hnext
    clear_value next
    subst hnext
    have hafter := (hat hlt).after
    have hend : cursor + day ≤ c.stop := hwhole.2.2.1
    have hnextDay : day ∣ cursor + day := Int.dvd_add hd (Int.dvd_refl _)
    refine (ih (fun _ => ⟨by omega, .inr (hour_dvd_of_day hnextDay), fun d hd' _ _ h₁ h₂ => ?_⟩)
      hend hproper).rolled
      (hok.daily cursor hd hafter hwhole (by omega)) (fun t h₁ h₂ => ⟨?_, ?_⟩) (by omega) hend
    · have := le_of_lt_add day_pos hnextDay hd' h₂
      omega
    · exact fromRollup_of_day hd hafter hwhole h₁ h₂ (by omega)
    · exact not_covered_of_overlaps hok.ordered hwhole.2.2.2 h₁ h₂
  | case2 cursor tally ranges hlt next hread ih =>
    have hspec := c.stretch_spec cursor
    rw [hread] at hspec
    obtain ⟨hd, hwhole, hsince, hcut, hnext⟩ := hspec
    change next = c.hourSince at hnext
    clear_value next
    subst hnext
    have hafter := (hat hlt).after
    have hend : cursor + day ≤ c.stop := hwhole.2.2.1
    have hdayEnd : hour ∣ cursor + day := hour_dvd_of_day (Int.dvd_add hd (Int.dvd_refl _))
    have hlive := hok.live_le
    have hliveDay := hwhole.2.1
    refine (ih (fun _ => ⟨by omega, .inr hok.hour_dvd, fun _ _ _ _ _ _ => le_rfl⟩)
      (by omega) hproper).rolled
      (dailyRemainder_counts (hok.daily cursor hd hafter hwhole hsince) hok.hour_dvd hdayEnd
        (by omega) (by omega)
        fun T hT h₁ h₂ => ?_) (fun t h₁ h₂ => ⟨?_, ?_⟩) (by omega) (by omega)
    · have := le_of_lt_add hour_pos (Int.dvd_add hT (Int.dvd_refl _)) hdayEnd (by omega)
      exact hok.hourly T hT (by omega) hwhole.1 (by omega) h₁ (by omega)
    · exact fromRollup_of_day hd hafter hwhole h₁ (by omega) h₂
    · exact not_covered_of_overlaps hok.ordered hwhole.2.2.2 h₁ (by omega)
  | case3 cursor tally ranges hlt next hread ih =>
    have hspec := c.stretch_spec cursor
    rw [hread] at hspec
    obtain ⟨hh, hwhole, hday, hnext⟩ := hspec
    change next = cursor + hour at hnext
    clear_value next
    subst hnext
    have hafter := (hat hlt).after
    have hend : cursor + hour ≤ c.stop := hwhole.2.2.2.1
    have hhourEnd : cursor + hour ≤ hourEnd cursor := by
      rw [hourEnd, truncate_of_dvd hour_pos hh]
    refine (ih (fun _ => (hat hlt).next (Int.dvd_add hh (Int.dvd_refl _)) (by omega) hhourEnd hday)
      hend hproper).rolled
      (hok.hourly cursor hh hafter hwhole.1 hwhole.2.1 hwhole.2.2.1 hend) (fun t h₁ h₂ => ⟨?_, ?_⟩)
      (by omega) hend
    · exact fromRollup_of_hour hh hafter hwhole h₁ h₂
    · exact not_covered_of_overlaps hok.ordered hwhole.2.2.2.2 h₁ h₂
  | case4 cursor tally ranges hlt next hread ih =>
    have hspec := c.stretch_spec cursor
    rw [hread] at hspec
    obtain ⟨hhour, hday, hnext⟩ := hspec
    change next = if c.stop < hourEnd cursor then c.stop else hourEnd cursor at hnext
    clear_value next
    have hafter := (hat hlt).after
    have hhourEnd := lt_hourEnd cursor
    have hbounds : cursor < next ∧ next ≤ c.stop ∧ next ≤ hourEnd cursor ∧
      (next < c.stop → next = hourEnd cursor) := by
      split at hnext <;> omega
    obtain ⟨hlt', hend, hnear, hfull⟩ := hbounds
    refine (ih (fun hmore => ?_) hend (addRaw_spec js hproper hafter (by omega)).1).raw hproper
      (fun t h₁ h₂ => (hat hlt).not_fromRollup hhour hday h₁ (by omega)) hafter (by omega) hend
    rw [hfull hmore]
    exact (hat hlt).next (Int.dvd_add dvd_truncate (Int.dvd_refl _)) hhourEnd le_rfl hday
  | case5 cursor =>
    obtain rfl : cursor = c.stop := by omega
    exact ⟨hproper, by simp [countIn_empty], by simp [countIn_empty]⟩

theorem fromRollup_within (h : c.fromRollup start t) : start ≤ t ∧ t < c.stop := by
  rcases h with ⟨hstart, hwhole⟩ | ⟨hstart, hwhole, -⟩
  · have h₁ := truncate_le (t := t) hour_pos
    have h₂ := lt_truncate_add (t := t) hour_pos
    have h₃ := hwhole.2.2.2.1
    omega
  · have h₁ := truncate_le (t := t) day_pos
    have h₂ := lt_truncate_add (t := t) day_pos
    have h₃ := hwhole.2.2.1
    omega

end Collection

/-! ## Raw reading -/

namespace Store

variable {db : Store} {excluded : List TimeRange} {tally : Tally} {a b stop : ℤ}

/-- One day of a raw stretch. -/
theorem countJudgments_rawPieces (tally : Tally) (hok : db.Ok) (hm : Ordered excluded)
    (hb : b ≤ a + day) :
    (tally.countJudgments (rawPieces a b excluded) (db.queryJudgments a b 0)).checks =
        tally.checks + countIn db.judgments (fun j => j.status ≠ .embalmed ∧
          ¬Covered excluded j.timestamp) a b ∧
      (tally.countJudgments (rawPieces a b excluded) (db.queryJudgments a b 0)).up =
        tally.up + countIn db.judgments (fun j => j.status = .alive ∧
          ¬Covered excluded j.timestamp) a b := by
  obtain ⟨h₁, h₂⟩ := countJudgments_spec (t := tally) (db.queryJudgments a b 0)
    (ordered_rawPieces (a := a) (b := b) hm)
  rw [h₁, h₂, countP_queryJudgments hok hb, countP_queryJudgments hok hb]
  have hcongr : ∀ j ∈ db.judgments, a ≤ j.timestamp → j.timestamp < b →
      (Covered (rawPieces a b excluded) j.timestamp ↔ ¬Covered excluded j.timestamp) :=
      fun j _ ha hb => by
    rw [covered_rawPieces hm]
    exact and_iff_right ⟨ha, hb⟩
  exact ⟨congrArg _ (countIn_congr fun j hj ha hb => and_congr_right fun _ => hcongr j hj ha hb),
    congrArg _ (countIn_congr fun j hj ha hb => and_congr_right fun _ => hcongr j hj ha hb)⟩

/-- **A raw stretch is counted in full.** -/
theorem readRaw_spec (tally : Tally) (hok : db.Ok) (hm : Ordered excluded) (hle : a ≤ stop) :
    (db.readRaw excluded a stop tally).checks =
        tally.checks + countIn db.judgments (fun j => j.status ≠ .embalmed ∧
          ¬Covered excluded j.timestamp) a stop ∧
      (db.readRaw excluded a stop tally).up =
        tally.up + countIn db.judgments (fun j => j.status = .alive ∧ ¬Covered excluded j.timestamp)
        a stop := by
  have hday : 0 < day := by decide
  fun_induction readRaw db excluded a stop tally with
  | case1 a tally hlt b pieces ih =>
    have hb : a ≤ b ∧ b ≤ stop ∧ b ≤ a + day := by
      dsimp only [b]
      split <;> omega
    obtain ⟨hab, hbstop, hbday⟩ := hb
    -- without a piece there is nothing to count
    have hskip : (if pieces = [] then tally else tally.countJudgments pieces
      (db.queryJudgments a b 0)) =
        tally.countJudgments pieces (db.queryJudgments a b 0) := by
      split
      · next hnil => rw [hnil, countJudgments_nil]
      · rfl
    simp only [dite_eq_ite] at ih
    obtain ⟨h₁, h₂⟩ := ih hbstop
    obtain ⟨h₃, h₄⟩ := countJudgments_rawPieces tally hok hm hbday
    rw [h₁, h₂, hskip, countIn_append hab hbstop, countIn_append hab hbstop, h₃, h₄]
    omega
  | case2 a =>
    obtain rfl : a = stop := by omega
    rw [countIn_empty, countIn_empty, Int.add_zero, Int.add_zero]
    exact ⟨rfl, rfl⟩

/-- The ranges left to raw reading, one after another. -/
theorem foldl_readRaw_spec (hok : db.Ok) (hm : Ordered excluded) {start : ℤ}
    {horizons : SLAHorizons}
    (hraw : horizons.rawSince = 0 ∨ horizons.rawSince ≤ start) {ranges : List TimeRange}
    (h : Collection.Proper start ranges) (tally : Tally) :
    (ranges.foldl (fun tally r => db.readRaw excluded (rawStart horizons r.start) r.stop tally)
      tally).checks =
        tally.checks + Collection.countRanges db.judgments
          (fun j => j.status ≠ .embalmed ∧ ¬Covered excluded j.timestamp) ranges ∧
      (ranges.foldl (fun tally r => db.readRaw excluded (rawStart horizons r.start) r.stop tally)
        tally).up =
        tally.up + Collection.countRanges db.judgments
          (fun j => j.status = .alive ∧ ¬Covered excluded j.timestamp) ranges := by
  induction ranges generalizing tally with
  | nil => simp [Collection.countRanges]
  | cons r ranges ih =>
    obtain ⟨hstart, hproper⟩ := h r (.head _)
    have hrawStart : rawStart horizons r.start = r.start := if_neg (by omega)
    obtain ⟨h₁, h₂⟩ := readRaw_spec tally hok hm hproper
    obtain ⟨h₃, h₄⟩ := ih (fun x hx => h x (.tail _ hx)) (db.readRaw excluded r.start r.stop tally)
    rw [foldl_cons, hrawStart, h₃, h₄, h₁, h₂]
    simp only [Collection.countRanges, map_cons, sum_cons]
    omega

/-! ## The tally -/

/-- **What `CollectSLA` counts**: what `CountJudgments` does, and the hidden
judgments. -/
theorem collectSLA_spec (hok : db.Ok) (start stop : ℤ) (excluded : List TimeRange)
    (horizons : SLAHorizons) (hraw : horizons.rawSince = 0 ∨ horizons.rawSince ≤ start) :
    (db.collectSLA start stop excluded horizons).checks =
        (({} : Tally).countJudgments (rawPieces start stop (merge excluded start stop))
          db.judgments).checks +
          countIn db.judgments ((db.collection start stop excluded horizons).Hidden start)
          start stop ∧
      (db.collectSLA start stop excluded horizons).up =
        (({} : Tally).countJudgments (rawPieces start stop (merge excluded start stop))
          db.judgments).up := by
  have hm := ordered_merge excluded start stop
  have hcovered : ∀ t, Covered (rawPieces start stop (merge excluded start stop)) t ↔
      (start ≤ t ∧ t < stop) ∧ ¬Covered (merge excluded start stop) t := fun t =>
      covered_rawPieces hm
  obtain ⟨hchecks, hup⟩ := countJudgments_spec (t := {}) db.judgments
    (ordered_rawPieces (a := start) (b := stop) hm)
  simp only [hcovered] at hchecks hup
  have hcount : ∀ (p : Judgment → Prop) [DecidablePred p],
      db.judgments.countP (fun j => decide (p j ∧ (start ≤ j.timestamp ∧ j.timestamp < stop) ∧
        ¬Covered (merge excluded start stop) j.timestamp)) =
      countIn db.judgments (fun j => p j ∧ ¬Covered (merge excluded start stop) j.timestamp)
      start stop := by
    intro p _
    unfold countIn
    rw [countP_congr]
    intro j _
    simp only [decide_eq_true_eq]
    exact ⟨fun h => ⟨⟨h.1, h.2.2⟩, h.2.1⟩, fun h => ⟨h.1.1, h.2, h.1.2⟩⟩
  rw [hchecks, hup, hcount, hcount]
  unfold collectSLA
  split
  · next hlt =>
    obtain ⟨hproper, hpassed, hpassedUp⟩ := Collection.collect_spec
      (hok.collection start stop excluded horizons) {} (fun _ => Collection.at_start) hlt.le
      (show Collection.Proper start [] from forall_mem_nil _)
    obtain ⟨h₁, h₂⟩ := foldl_readRaw_spec hok hm hraw hproper
      ((db.collection start stop excluded horizons).collect start {} []).1
    exact ⟨h₁.trans (hpassed.trans (by simp [Collection.countRanges]; rfl)),
      h₂.trans (hpassedUp.trans (by simp [Collection.countRanges]; rfl))⟩
  · next hge =>
    have hzero : ∀ (p : Judgment → Prop) [DecidablePred p], countIn db.judgments p start stop = 0 :=
      fun p _ =>
      countIn_eq_zero.mpr fun _ _ _ h => by omega
    simp only [hzero]
    exact ⟨rfl, rfl⟩

/-- A store that saved one judgment, half an hour after it started. -/
def savedOne (status : SoulStatus) : Store :=
  saveJudgment {} ⟨"01J", unixEpoch + 30 * minute, status⟩ unixEpoch

theorem reachable_savedOne (status : SoulStatus) :
    Runs.Reachable saveNew (fun save => unixEpoch ≤ save.now) {} (savedOne status) :=
  .step (e := .judgment ⟨"01J", unixEpoch + 30 * minute, status⟩ unixEpoch) .init le_rfl rfl

end Store

end Anubis.Sla
