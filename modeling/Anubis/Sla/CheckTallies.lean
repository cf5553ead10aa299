import Anubis.Sla.RangeQueries

/-!
# Tallies of checks against raw history

`TallyChecks` takes whole hours from hourly summaries and the rest from raw
judgments, of the one workspace that the record of the soul names. Both are found by
comparing keys as texts. The raw scan falls back to all keys where its two bounds
differ in width; the scan of summaries does not, and a range that ends in 2286 or
later makes its upper bound a digit wider. For ranges whose ends have a time in
64-bit nanoseconds, a tally is exact where no other workspace has a judgment of the
soul in them.
-/

namespace Anubis.Sla

open Instant Spans Decimal List Runs

namespace Store

variable {db : Store} {js : List Judgment} {a b : ℤ} {t : CheckTally} {ranges : List TimeRange}
    {r : TimeRange}

/-! ## What is counted -/

/-- A tally with the judgments of a stretch added. -/
def CheckTally.plus (t : CheckTally) (js : List Judgment) (a b : ℤ) : CheckTally :=
  ⟨t.checks + countIn js (fun _ => True) a b, t.up + countIn js (fun j => j.status = .alive) a b⟩

/-- Counting all that a query returns. -/
theorem foldl_count (js : List Judgment) (t : CheckTally) :
    js.foldl (fun t j => ⟨t.checks + 1, if j.status = .alive then t.up + 1 else t.up⟩) t =
      ⟨t.checks + js.length, t.up + js.countP fun j => decide (j.status = .alive)⟩ := by
  induction js generalizing t with
  | nil => simp
  | cons j js ih =>
    rw [foldl_cons, ih, length_cons, countP_cons]
    by_cases halive : j.status = .alive <;> simp [halive] <;> omega

theorem plus_of_le (hba : b ≤ a) : t.plus js a b = t := by
  have hzero : ∀ (p : Judgment → Prop) [DecidablePred p], countIn js p a b = 0 := by
    intro p _
    exact countIn_eq_zero.mpr fun j _ _ h => by omega
  rw [CheckTally.plus, hzero, hzero, Int.add_zero, Int.add_zero]

/-- **Raw judgments**: all of the stretch. -/
theorem addRaw_eq (hkeyed : db.Keyed) (ha : InNanos a) (hb : InNanos b) :
    t.addRaw db a b = t.plus db.judgments a b := by
  unfold CheckTally.addRaw
  split
  · have hfound : db.judgments.filter (fun j => decide (a ≤ j.timestamp ∧ j.timestamp < b) &&
      looksAt a b j) =
        db.judgments.filter fun j => decide (a ≤ j.timestamp ∧ j.timestamp < b) := by
      refine filter_congr fun j _ => ?_
      rw [Bool.and_eq_left_iff_imp]
      exact fun h => looksAt_of_inNanos ha hb (of_decide_eq_true h)
    have hperm := hfound ▸ perm_queryJudgments hkeyed a b
    rw [foldl_count, hperm.length_eq, hperm.countP_eq, ← countP_eq_length_filter, countP_filter]
    simp only [CheckTally.plus, countIn, true_and, Bool.decide_and]
  · exact (plus_of_le (by omega)).symm

theorem plus_plus {c : ℤ} (hab : a ≤ b) (hbc : b ≤ c) :
    (t.plus js a b).plus js b c = t.plus js a c := by
  unfold CheckTally.plus
  rw [countIn_append hab hbc, countIn_append hab hbc, Int.add_assoc, Int.add_assoc]

theorem plus_comm {ks : List Judgment} {c d : ℤ} :
    (t.plus js a b).plus ks c d = (t.plus ks c d).plus js a b := by
  unfold CheckTally.plus
  rw [CheckTally.mk.injEq]
  exact ⟨Int.add_right_comm _ _ _, Int.add_right_comm _ _ _⟩

/-- **Whole hours**: each is counted once. -/
theorem addHours_eq {hourly : ℤ → Option JudgmentSummary} (ha : hour ∣ a) (hb : hour ∣ b)
    (hab : a ≤ b)
    (hcounts : ∀ T, hour ∣ T → a ≤ T → T + hour ≤ b → Counts (hourly (unix T)) js T (T + hour)) :
    CheckTally.addHours hourly a b t = t.plus js a b := by
  have hpos : 0 < hour := by decide
  fun_induction CheckTally.addHours hourly a b t with
  | case1 a t hlt ih =>
    have hnext : hour ∣ a + hour := Int.dvd_add ha (Int.dvd_refl hour)
    have hstep : a + hour ≤ b := le_of_lt_add hpos hnext hb (by omega)
    obtain ⟨hcount, hup⟩ := hcounts a ha (le_refl a) hstep
    rw [ih hnext hstep fun T hT hle => hcounts T hT (by omega),
      ← plus_plus (by omega : a ≤ a + hour) hstep]
    congr 1
    unfold CheckTally.plus
    rw [← hcount, ← hup]
    cases hourly (unix a) <;> simp
  | case2 =>
    exact (plus_of_le (by omega)).symm

/-! ## The scan of summaries -/

/-- `minRangeScanTime`: from here on seconds have ten digits. -/
def minRangeScanTime : ℤ := unixEpoch + 1000000000 * second

theorem length_decimal {z : ℤ} (hge : 1000000000 ≤ z) (hlt : z < 10000000000) :
    (decimal z).length = 10 := by
  rw [decimal, if_neg (by omega)]
  refine le_antisymm ((Nat.length_toDigits_le_iff (by decide) (by decide)).mpr (by omega))
    (not_lt.mp fun h => ?_)
  have := (Nat.length_toDigits_le_iff (by decide) (by decide)).mp (Nat.le_of_lt_succ h)
  omega

/-- The bounds of the scan are those of all the ranges. -/
theorem foldl_min_le (rest : List TimeRange) (x : ℤ) :
    rest.foldl (fun first r => if r.start < first then r.start else first) x ≤ x ∧
      ∀ r ∈ rest, rest.foldl (fun first r => if r.start < first then r.start else first) x ≤
        r.start := by
  induction rest generalizing x with
  | nil => simp
  | cons r rest ih =>
    obtain ⟨hle, hall⟩ := ih (if r.start < x then r.start else x)
    rw [foldl_cons, forall_mem_cons]
    refine ⟨hle.trans ?_, hle.trans ?_, hall⟩ <;> split <;> omega

theorem foldl_max_mem (rest : List TimeRange) (x : ℤ) :
    x ≤ rest.foldl (fun last r => if last < r.stop then r.stop else last) x ∧
      (∀ r ∈ rest, r.stop ≤ rest.foldl (fun last r => if last < r.stop then r.stop else last) x) ∧
      ∀ P : ℤ → Prop, P x → (∀ r ∈ rest, P r.stop) →
        P (rest.foldl (fun last r => if last < r.stop then r.stop else last) x) := by
  induction rest generalizing x with
  | nil => exact ⟨le_refl x, nofun, fun _ hx _ => hx⟩
  | cons r rest ih =>
    obtain ⟨hle, hall, hP⟩ := ih (if x < r.stop then r.stop else x)
    simp only [foldl_cons, forall_mem_cons]
    refine ⟨le_trans ?_ hle, ⟨le_trans ?_ hle, hall⟩, fun P hx hrest => hP P ?_ hrest.2⟩
    · split <;> omega
    · split <;> omega
    · split
      · exact hrest.1
      · exact hx

/-- What the mark of live counting rounds up to. -/
theorem liveHour_spec (hlive : ∀ t ∈ db.liveSince, minRangeScanTime ≤ t) (h : db.liveHour ≠ 0) :
    minRangeScanTime ≤ db.liveHour ∧ hour ∣ db.liveHour := by
  have hpos : 0 < hour := by decide
  unfold liveHour at h ⊢
  cases hsince : db.liveSince with
  | none => simp [hsince] at h
  | some t =>
    have hge := hlive t hsince
    dsimp only
    split
    · exact ⟨hge.trans (lt_truncate_add hpos).le, Int.dvd_add dvd_truncate (Int.dvd_refl hour)⟩
    · next hexact => exact ⟨hge.trans (not_lt.mp hexact), dvd_truncate⟩

/-- **The scan of summaries finds the whole hours of its ranges.** -/
theorem hourScan_of_mem (hlive : ∀ t ∈ db.liveSince, minRangeScanTime ≤ t) (hne : db.liveHour ≠ 0)
    (hstops : ∀ r ∈ ranges, InNanos r.stop) (hr : r ∈ ranges) {T : ℤ} (hfrom : db.liveHour ≤ T)
    (hstart : r.start ≤ T) (hstop : T ≤ r.stop) : db.hourScan ranges (unix T) = true := by
  obtain ⟨hmin, hdvd⟩ := liveHour_spec hlive hne
  cases ranges with
  | nil => cases hr
  | cons r₀ rest =>
    simp only [hourScan]
    generalize hfirst :
      rest.foldl (fun first r => if r.start < first then r.start else first) r₀.start = first
    generalize hlast :
      rest.foldl (fun last r => if last < r.stop then r.stop else last) r₀.stop = last
    have hfirstT : first ≤ T := by
      rcases mem_cons.mp hr with rfl | hr
      · exact (hfirst ▸ (foldl_min_le rest r.start).1).trans hstart
      · exact (hfirst ▸ (foldl_min_le rest r₀.start).2 r hr).trans hstart
    have hTlast : T ≤ last := by
      rcases mem_cons.mp hr with rfl | hr
      · exact hstop.trans (hlast ▸ (foldl_max_mem rest r.stop).1)
      · exact hstop.trans (hlast ▸ (foldl_max_mem rest r₀.stop).2.1 r hr)
    have hnanos : InNanos last :=
      hlast ▸ (foldl_max_mem rest r₀.stop).2.2 InNanos (hstops r₀ mem_cons_self) fun r hr =>
        hstops r (mem_cons_of_mem _ hr)
    -- the first hour of the scan is live, and up to the hour in question
    obtain ⟨hle, hge⟩ : truncate (if first < db.liveHour then db.liveHour else first) hour ≤ T ∧
        db.liveHour ≤ truncate (if first < db.liveHour then db.liveHour else first) hour := by
      have hpos : 0 < hour := by decide
      split
      · rw [truncate_of_dvd hpos hdvd]
        exact ⟨hfrom, le_refl _⟩
      · exact ⟨(truncate_le hpos).trans hfirstT, le_of_lt_add hpos hdvd dvd_truncate
          (lt_of_le_of_lt (by omega) (lt_truncate_add hpos))⟩
    have h₁ := unix_mono hle
    have h₂ := unix_mono hTlast
    have h₃ := unix_mono (hmin.trans hge)
    have h₄ : unix last < 9999999999 := by
      unfold InNanos unix second at *
      omega
    rw [show unix minRangeScanTime = 1000000000 from rfl] at h₃
    obtain ⟨h₅, h₆⟩ := decimal_between (n := unix T) (b := unix last + 1) (by omega) h₁ (by omega)
      ((length_decimal h₃ (by omega)).trans (length_decimal (by omega) (by omega)).symm) []
    rw [append_nil] at h₅ h₆
    rw [scans, if_pos rfl, decide_eq_true h₅, decide_eq_true h₆]
    rfl

/-- Whole hours are within the range, and live. -/
theorem wholeHours_spec (db : Store) (r : TimeRange) :
    r.start ≤ (db.wholeHours r).start ∧ hour ∣ (db.wholeHours r).start ∧
    hour ∣ (db.wholeHours r).stop ∧
      (db.wholeHours r).stop ≤ r.stop ∧
      (db.liveHour ≠ 0 → db.liveHour ≤ (db.wholeHours r).start) := by
  have hpos : 0 < hour := by decide
  have hceil : ∀ a : ℤ, a ≤ (if truncate a hour < a then truncate a hour + hour else a) ∧
      hour ∣ if truncate a hour < a then truncate a hour + hour else a := by
    intro a
    split
    · exact ⟨le_of_lt (lt_truncate_add hpos), Int.dvd_add dvd_truncate (Int.dvd_refl hour)⟩
    · next hge =>
      have heq : truncate a hour = a := le_antisymm (truncate_le hpos) (not_lt.mp hge)
      exact ⟨le_refl a, heq ▸ dvd_truncate⟩
  refine ⟨le_trans ?_ (hceil _).1, (hceil _).2, dvd_truncate, truncate_le hpos, fun hne =>
    le_trans ?_ (hceil _).1⟩ <;>
    split <;> omega

/-- **A range is tallied with all its judgments.** -/
theorem tallyRange_eq (hok : db.Ok) (hlive : ∀ t ∈ db.liveSince, minRangeScanTime ≤ t)
    (hranges : ∀ r ∈ ranges, InNanos r.start ∧ InNanos r.stop) (hr : r ∈ ranges) :
    db.tallyRange (db.hourly ranges) r = CheckTally.plus {} db.judgments r.start r.stop := by
  obtain ⟨hnanos, hnanos'⟩ := hranges r hr
  unfold tallyRange
  dsimp only
  split
  · exact addRaw_eq hok.keyed hnanos hnanos'
  · next hwhole =>
    push Not at hwhole
    obtain ⟨hne, hlt⟩ := hwhole
    obtain ⟨hstart, hdvd, hdvd', hstop, hlater⟩ := wholeHours_spec db r
    have hfrom := hlater hne
    have hwithin : InNanos (db.wholeHours r).start ∧ InNanos (db.wholeHours r).stop := by
      unfold InNanos at *
      omega
    have hhours : CheckTally.addHours (db.hourly ranges) (db.wholeHours r).start
      (db.wholeHours r).stop {} =
        CheckTally.plus {} db.judgments (db.wholeHours r).start (db.wholeHours r).stop := by
      refine addHours_eq hdvd hdvd' hlt.le fun T hT hge hle => ?_
      have hpos : 0 < hour := by decide
      have hscan := hourScan_of_mem hlive hne (fun r hr => (hranges r hr).2) hr (hfrom.trans hge)
        (hstart.trans hge) (by omega)
      rw [hourly, if_pos ⟨hne, hscan⟩]
      exact hok.bucket_counts (by simp [liveResolutions]) hT
    rw [hhours, addRaw_eq hok.keyed hnanos hwithin.1, addRaw_eq hok.keyed hwithin.2 hnanos',
      plus_comm (a := (db.wholeHours r).start), plus_plus hstart hlt.le, plus_plus (by omega) hstop]

end Store

namespace Workspaces

open Store AList

variable {db : Workspaces} {ws : String} {ranges : List TimeRange}

/-- The calls that do not save a judgment again, made after 2001. -/
def saveNew : Workspaces → String × Save → Option Workspaces :=
  restrict (fun db call => call.2.Fresh (db.store (defaultWorkspace call.1)) ∧
    minRangeScanTime ≤ call.2.now) step

/-- **Every workspace is a store of its own.** -/
theorem reachable_store (h : Reachable saveNew (fun _ => True) ∅ db) (ws : String) :
    Reachable Store.saveNew (fun save => minRangeScanTime ≤ save.now) {} (db.store ws) := by
  induction h with
  | init => exact .init
  | @step db db' call _ _ hs ih =>
    obtain ⟨⟨hfresh, hnow⟩, hs⟩ := restrict_eq_some.mp hs
    obtain ⟨s, hsave, rfl⟩ := Option.map_eq_some_iff.mp hs
    by_cases hws : ws = defaultWorkspace call.1
    · subst hws
      have hstore : Workspaces.store (db.insert (defaultWorkspace call.1) s)
        (defaultWorkspace call.1) = s := by
        rw [Workspaces.store, lookup_insert, Option.getD_some]
      rw [hstore]
      exact .step ih hnow (restrict_eq_some.mpr ⟨hfresh, hsave⟩)
    · rwa [Workspaces.store, lookup_insert_ne hws]

/-- The judgments of one workspace, and of the others. -/
theorem perm_judgments (db : Workspaces) (ws : String) :
    db.judgments.Perm ((db.store ws).judgments ++ Workspaces.judgments (db.erase ws)) := by
  unfold judgments Workspaces.store
  cases h : db.lookup ws with
  | none =>
    have hsame : (db.erase ws).entries = db.entries := kerase_of_notMem_keys (lookup_eq_none.mp h)
    rw [hsame]
    exact .refl _
  | some s =>
    obtain ⟨s', l₁, l₂, -, hl, hrest⟩ :=
      exists_of_kerase (AList.mem_keys.mp (lookup_isSome.mp (Option.isSome_of_eq_some h)))
    obtain rfl : s' = s := by
      have hmem : (⟨ws, s'⟩ : (_ : String) × Store) ∈ db.entries := by simp [hl]
      exact Option.some.inj ((mem_lookup_iff.mpr hmem).symm.trans h)
    have hrest : (db.erase ws).entries = l₁ ++ l₂ := hrest
    rw [hl, hrest, flatMap_append, flatMap_append, flatMap_cons, Option.getD_some]
    exact perm_append_comm_assoc _ _ _

/-- The checks of all workspaces are those of one and of the others. -/
theorem countIn_judgments (db : Workspaces) (ws : String) (p : Judgment → Prop)
    [DecidablePred p] (a b : ℤ) :
    countIn db.judgments p a b =
      countIn (db.store ws).judgments p a b +
      countIn (Workspaces.judgments (db.erase ws)) p a b := by
  unfold countIn
  rw [(perm_judgments db ws).countP_eq, countP_append, Int.natCast_add]

/-- A judgment of the year 2027, saved in a workspace. -/
def oneChecked (ws : String) : Workspaces :=
  AList.singleton (defaultWorkspace ws)
    (saveJudgment {} ⟨"a", unixEpoch + 1800000001 * second, .alive⟩
      (unixEpoch + 1700000000 * second))

theorem oneChecked_reachable (ws : String) : Reachable saveNew (fun _ => True) ∅ (oneChecked ws) :=
  .step (e := (ws, .judgment ⟨"a", unixEpoch + 1800000001 * second, .alive⟩
    (unixEpoch + 1700000000 * second)))
    .init trivial (restrict_eq_some.mpr
      ⟨⟨nofun, show minRangeScanTime ≤ unixEpoch + 1700000000 * second by decide⟩, rfl⟩)

end Workspaces

end Anubis.Sla
