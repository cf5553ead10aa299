import Anubis.Common.Runs
import Anubis.Sla.Helpers.Ranges

/-!
# What is stored and what is read of it

Every summary counts the judgments of its bucket: one step of this is a saved
judgment, and so it holds in every store that calls lead to. Scans by text find
all the keys of a period.
-/

namespace Anubis.Sla

open Instant Spans Decimal List Option AList

variable {res : TimeResolution} {bucket a b : ℤ}

theorem resolutionSpan_pos (res : TimeResolution) : 0 < resolutionSpan res := by
  cases res <;> decide

theorem second_dvd_resolutionSpan (res : TimeResolution) : second ∣ resolutionSpan res := by
  cases res <;> decide

/-! ## The store -/

namespace Store

variable {db : Store} {j : Judgment} {now : ℤ}

/-- The resolutions a saved judgment is counted at. -/
def liveResolutions : List TimeResolution := [.oneMin, .oneHour, .oneDay]

/-- A judgment is stored under its time and identity. -/
def Keyed (db : Store) : Prop := ∀ e ∈ db.raw.entries, e.1 = (unixNano e.2.timestamp, e.2.id)

theorem Keyed.saveJudgment (h : db.Keyed) : (db.saveJudgment j now).Keyed := by
  intro e he
  rcases mem_cons.mp he with rfl | he
  · rfl
  · exact h e ((kerase_sublist _ _).subset he)

/-- **What holds of every store**: a judgment is stored under its key, a summary has
the counts of its bucket, and live counting started after 1970. -/
structure Ok (db : Store) : Prop where
  keyed : ∀ e ∈ db.raw.entries, e.1 = (unixNano e.2.timestamp, e.2.id)
  counts : ∀ res ∈ liveResolutions, ∀ bucket, resolutionSpan res ∣ bucket →
    ((db.summaries.lookup (res, unix bucket)).map JudgmentSummary.count).getD 0 =
      db.judgments.countP fun j => decide (truncateToResolution j.timestamp res = bucket)
  successes : ∀ res ∈ liveResolutions, ∀ bucket, resolutionSpan res ∣ bucket →
    ((db.summaries.lookup (res, unix bucket)).map JudgmentSummary.successCount).getD 0 =
      db.judgments.countP fun j =>
      decide (j.status = .alive ∧ truncateToResolution j.timestamp res = bucket)
  live : ∀ t ∈ db.liveSince, unixEpoch ≤ t

theorem ok_empty : Ok {} where
  keyed := nofun
  counts := fun _ _ _ _ => rfl
  successes := fun _ _ _ _ => rfl
  live := nofun

theorem judgments_saveJudgment (hok : db.Ok) (hnew : ∀ k ∈ db.judgments, k.id ≠ j.id) :
    (db.saveJudgment j now).judgments = j :: db.judgments := by
  have hmem : (unixNano j.timestamp, j.id) ∉ db.raw := by
    intro h
    obtain ⟨e, he, hkey⟩ := List.mem_map.mp (AList.mem_keys.mp h)
    have hid := congrArg Prod.snd ((hok.keyed e he).symm.trans hkey)
    exact hnew e.2 (List.mem_map_of_mem he) hid
  unfold judgments saveJudgment
  rw [entries_insert_of_notMem hmem, map_cons]

/-- A summary after a judgment was saved. -/
theorem lookup_saveJudgment (hres : res ∈ liveResolutions) (u : ℤ) :
    (db.saveJudgment j now).summaries.lookup (res, u) =
      if u = unix (truncateToResolution j.timestamp res) then some (db.prepareSummary j res)
      else db.summaries.lookup (res, u) := by
  have hne : ∀ res' : TimeResolution, res ≠ res' → (res, u) ≠ summaryKey j res' := fun res' h heq =>
    h (congrArg Prod.fst heq)
  have hself : ∀ (m : Dict (TimeResolution × ℤ) JudgmentSummary) v,
    (m.insert (summaryKey j res) v).lookup (res, u) =
      if u = unix (truncateToResolution j.timestamp res) then some v else m.lookup (res, u) := by
    intro m v
    split
    · next h =>
      rw [h]
      exact lookup_insert m
    · next h => exact lookup_insert_ne fun heq => h (congrArg Prod.snd heq)
  simp only [liveResolutions, mem_cons, not_mem_nil, or_false] at hres
  unfold saveJudgment
  simp only [foldl_cons, foldl_nil]
  rcases hres with rfl | rfl | rfl
  · rw [lookup_insert_ne (hne _ (by decide)), lookup_insert_ne (hne _ (by decide)), hself]
  · rw [lookup_insert_ne (hne _ (by decide)), hself, lookup_insert_ne (hne _ (by decide))]
  · rw [hself, lookup_insert_ne (hne _ (by decide)), lookup_insert_ne (hne _ (by decide))]

/-- The bucket of a saved judgment is the one whose key it is counted under. -/
theorem bucket_iff (hbucket : resolutionSpan res ∣ bucket) :
    unix bucket = unix (truncateToResolution j.timestamp res) ↔
    truncateToResolution j.timestamp res = bucket := by
  refine ⟨fun h => ?_, fun h => by rw [h]⟩
  have hsecond := second_dvd_resolutionSpan res
  exact (unix_inj (Int.dvd_trans hsecond hbucket) (Int.dvd_trans hsecond dvd_truncate) h).symm

theorem prepareSummary_count :
    (db.prepareSummary j res).count =
      ((db.summaries.lookup (res, unix (truncateToResolution j.timestamp res))).map
        JudgmentSummary.count).getD 0 +
        1 := by
  unfold prepareSummary summaryKey
  cases db.summaries.lookup (res, unix (truncateToResolution j.timestamp res)) <;> rfl

theorem prepareSummary_successCount :
    (db.prepareSummary j res).successCount =
      ((db.summaries.lookup (res, unix (truncateToResolution j.timestamp res))).map
        JudgmentSummary.successCount).getD 0 + if j.status = .alive then 1 else 0 := by
  unfold prepareSummary summaryKey
  cases db.summaries.lookup (res, unix (truncateToResolution j.timestamp res)) <;> dsimp only
    <;> split <;> simp

theorem liveSince_saveJudgment {start : ℤ} (hlive : ∀ t ∈ db.liveSince, start ≤ t)
    (hnow : start ≤ now) : ∀ t ∈ (db.saveJudgment j now).liveSince, start ≤ t := by
  intro t ht
  unfold saveJudgment at ht
  cases h : db.liveSince with
  | none =>
    simp only [h, none_or, mem_def, some.injEq] at ht
    omega
  | some t' =>
    simp only [h, some_or, mem_def, some.injEq] at ht
    exact ht ▸ hlive t' h

/-- **Saving a judgment keeps the counts.** -/
theorem Ok.saveJudgment (hok : db.Ok) (hnew : ∀ k ∈ db.judgments, k.id ≠ j.id)
    (hnow : unixEpoch ≤ now) :
    (db.saveJudgment j now).Ok where
  keyed := Keyed.saveJudgment hok.keyed
  counts := by
    intro res hres bucket hbucket
    have hold := hok.counts res hres bucket hbucket
    rw [lookup_saveJudgment hres, judgments_saveJudgment hok hnew, countP_cons]
    simp only [bucket_iff hbucket, decide_eq_true_eq]
    split
    · next h =>
      rw [← h] at hold ⊢
      rw [map_some, getD_some, prepareSummary_count, hold]
      rfl
    · simpa using hold
  successes := by
    intro res hres bucket hbucket
    have hold := hok.successes res hres bucket hbucket
    rw [lookup_saveJudgment hres, judgments_saveJudgment hok hnew, countP_cons]
    simp only [bucket_iff hbucket, decide_eq_true_eq]
    split
    · next h =>
      rw [← h] at hold ⊢
      rw [map_some, getD_some, prepareSummary_successCount, hold]
      by_cases halive : j.status = .alive <;> simp [halive]
    · next h => simpa [h] using hold
  live := liveSince_saveJudgment hok.live hnow

/-- A judgment that is saved on its own has an identity that is not stored yet. -/
def Save.Fresh (db : Store) : Save → Prop
  | .judgment j _ => ∀ k ∈ db.judgments, k.id ≠ j.id
  | .batch _ _ => True

instance (db : Store) : (save : Save) → Decidable (save.Fresh db)
  | .judgment j _ => inferInstanceAs (Decidable (∀ k ∈ db.judgments, k.id ≠ j.id))
  | .batch _ _ => inferInstanceAs (Decidable True)

/-- The calls that do not save a judgment again. -/
def saveNew : Store → Save → Option Store := Runs.restrict (fun db save => save.Fresh db) step

/-- **What saving one new judgment keeps** holds in every store that calls lead to. -/
theorem saves_invariant {P : Store → Prop} (allowed : ℤ → Prop)
    (h : Runs.Reachable saveNew (fun save => allowed save.now) {} db) (hempty : P {})
    (hsave : ∀ db j now, allowed now → P db → (∀ k ∈ db.judgments, k.id ≠ j.id) →
      P (db.saveJudgment j now)) :
    P db := by
  refine h.invariant hempty fun s save s' _ hP hnow hs => ?_
  obtain ⟨hfresh, hs⟩ := Runs.restrict_eq_some.mp hs
  cases save with
  | judgment =>
    cases hs
    exact hsave _ _ _ hnow hP hfresh
  | batch js =>
    cases hs
    refine foldlRecOn js _ hP fun db hP j _ => ?_
    split
    · exact hP
    · next hnew => exact hsave _ _ _ hnow hP (by simpa using hnew)

/-- **The counts are right in every store that calls lead to.** -/
theorem ok_of_reachable (h : Runs.Reachable saveNew (fun save => unixEpoch ≤ save.now) {} db) :
    db.Ok :=
  saves_invariant _ h ok_empty fun _ _ _ hnow hok hnew => hok.saveJudgment hnew hnow

/-! ## Scans -/

/-- The scan of `QueryJudgments` looks at the key of the judgment. -/
def looksAt (start stop : ℤ) (j : Judgment) : Bool :=
  scans
    (decide (0 ≤ unixNano start ∧ 0 ≤ unixNano stop ∧
      (decimal (unixNano start)).length = (decimal (unixNano stop)).length))
    (decimal (unixNano start)) (decimal (unixNano stop))
    (decimal (unixNano j.timestamp) ++ '/' :: j.id.toList)

/-- The judgments that `QueryJudgments` finds, in any order. -/
theorem perm_queryJudgments (hkeyed : db.Keyed) (a b : ℤ) :
    (db.queryJudgments a b 0).Perm
      (db.judgments.filter fun j => decide (a ≤ j.timestamp ∧ j.timestamp < b) &&
        looksAt a b j) := by
  unfold queryJudgments
  rw [if_neg (by omega)]
  refine (perm_insertionSort _ _).trans (.of_eq ?_)
  rw [List.filter_map, List.filter_filter, judgments, List.filter_map]
  refine congrArg _ (filter_congr fun e he => ?_)
  have hkey := hkeyed e he
  rw [congrArg Prod.fst hkey, congrArg Prod.snd hkey]
  rfl

/-- A scan looks at every key between its bounds. -/
theorem looksAt_of_between
    (h : 0 ≤ unixNano a → 0 ≤ unixNano b → unixNano a ≤ unixNano j.timestamp ∧
      unixNano j.timestamp < unixNano b) :
    looksAt a b j = true := by
  unfold looksAt scans
  split
  · next hordered =>
    obtain ⟨ha, hb, hlen⟩ := of_decide_eq_true hordered
    obtain ⟨h₁, h₂⟩ := decimal_between ha (h ha hb).1 (h ha hb).2 hlen ('/' :: j.id.toList)
    rw [decide_eq_true h₁, decide_eq_true h₂]
    rfl
  · rfl

/-- **A scan of raw judgments finds those of the period**, of not more than a day. -/
theorem countP_queryJudgments (hok : db.Ok) (hb : b ≤ a + day) (p : Judgment → Prop)
    [DecidablePred p] :
    ((db.queryJudgments a b 0).countP fun j => decide (p j) : ℤ) = countIn db.judgments p a b := by
  rw [(perm_queryJudgments hok.keyed a b).countP_eq, countP_filter]
  unfold countIn
  congr 1
  refine countP_congr fun j _ => ?_
  simp only [Bool.and_eq_true, decide_eq_true_eq]
  exact and_congr_right fun _ =>
    and_iff_left_of_imp fun h => looksAt_of_between fun ha hb0 => unixNano_between ha hb0 h.1 h.2 hb

/-- **A scan of summaries finds the buckets of the period.** -/
theorem summariesByBucket_eq {start stop : ℤ}
    (hstart : unixEpoch ≤ truncateToResolution start res) (hle : start ≤ bucket)
    (hlt : bucket + second ≤ stop) :
    db.summariesByBucket res start stop (unix bucket) = db.summaries.lookup (res, unix bucket) := by
  have htrunc : truncateToResolution start res ≤ start := truncate_le (resolutionSpan_pos res)
  have h₁ : unix (truncateToResolution start res) ≤ unix bucket := unix_mono (by omega)
  have h₂ : unix bucket < unix stop := unix_lt_of_add_second_le hlt
  unfold summariesByBucket
  refine if_pos ⟨?_, unix_mono hle, h₂⟩
  unfold scans
  split
  · next hordered =>
    obtain ⟨h₃, h₄⟩ := decimal_between (unix_nonneg hstart) h₁ h₂ (of_decide_eq_true hordered) []
    rw [append_nil] at h₃ h₄
    rw [decide_eq_true h₃, decide_eq_true h₄]
    rfl
  · rfl

end Store

/-!
## One pass over a period

What is at hand when the period is gone through has the counts of the stored
judgments, and each stretch is counted in full: a rollup counts every judgment of
its bucket, so that what the loop adds to the tally and leaves to raw reading
makes up the period.
-/

variable {js : List Judgment} {t : Tally} {summary : Option JudgmentSummary}

/-- The summary has the counts of a stretch. -/
structure Counts (summary : Option JudgmentSummary) (js : List Judgment) (a b : ℤ) : Prop where
  count : (summary.map JudgmentSummary.count).getD 0 = countIn js (fun _ => True) a b
  successCount : (summary.map JudgmentSummary.successCount).getD 0 = countIn js (fun j =>
    j.status = .alive) a b

theorem alive_le (js : List Judgment) (a b : ℤ) :
    countIn js (fun j => j.status = .alive) a b ≤ countIn js (fun _ => True) a b :=
  countIn_le fun _ _ _ => trivial

theorem addSummary_spec (h : Counts summary js a b) (source : Source) :
    (t.addSummary summary source).checks = t.checks + countIn js (fun _ => True) a b ∧
      (t.addSummary summary source).up = t.up + countIn js (fun j => j.status = .alive) a b := by
  obtain ⟨hcount, hup⟩ := h
  have hle := alive_le js a b
  have hnonneg := countIn_nonneg js (fun j => j.status = .alive) a b
  cases summary with
  | none =>
    simp only [map_none, getD_none] at hcount hup
    simp only [Tally.addSummary]
    omega
  | some =>
    simp only [map_some, getD_some] at hcount hup
    simp only [Tally.addSummary]
    split
    · omega
    · rw [checks_addBucket (by omega), up_addBucket (by omega) (by omega)]
      omega

/-! ## The remainder of a day -/

theorem subtractHours_spec {hourly : ℤ → Option JudgmentSummary} {h dayEnd : ℤ} (hh : hour ∣ h)
    (hend : hour ∣ dayEnd) (hle : h ≤ dayEnd) (hcounts : ∀ T, hour ∣ T → h ≤ T → T < dayEnd →
      Counts (hourly (unix T)) js T (T + hour))
    (rest : ℤ × ℤ) :
    subtractHours hourly h dayEnd rest =
      (rest.1 - countIn js (fun _ => True) h dayEnd,
        rest.2 - countIn js (fun j => j.status = .alive) h dayEnd) := by
  have hpos : 0 < hour := by decide
  fun_induction subtractHours hourly h dayEnd rest with
  | case1 h rest hlt ih =>
    have hnext : hour ∣ h + hour := Int.dvd_add hh (Int.dvd_refl hour)
    have hstep : h + hour ≤ dayEnd := by
      have := le_of_lt_add hpos hnext hend (by omega)
      exact this
    obtain ⟨hcount, hup⟩ := hcounts h hh (Int.le_refl h) hlt
    rw [ih hnext hstep fun T hT hge hlt => hcounts T hT (by omega) hlt,
      countIn_append (by omega : h ≤ h + hour) hstep,
      countIn_append (by omega : h ≤ h + hour) hstep, ← hcount, ← hup]
    cases hourly (unix h) with
    | none => simp
    | some =>
      simp only [map_some, getD_some, Prod.mk.injEq]
      omega
  | case2 h =>
    obtain rfl : h = dayEnd := by omega
    rw [countIn_empty, countIn_empty, Int.sub_zero, Int.sub_zero]

/-- **The daily rollup without the hours from `mid` on** counts the time before. -/
theorem dailyRemainder_counts {daily : Option JudgmentSummary} {hourly : ℤ →
    Option JudgmentSummary} {mid : ℤ}
    (hdaily : Counts daily js a b) (hmid : hour ∣ mid) (hb : hour ∣ b) (ham : a ≤ mid)
    (hmb : mid ≤ b)
    (hcounts : ∀ T, hour ∣ T → mid ≤ T → T < b → Counts (hourly (unix T)) js T (T + hour)) :
    Counts (dailyRemainder daily hourly mid b) js a mid := by
  have hle := alive_le js a mid
  have hnonneg := countIn_nonneg js (fun j => j.status = .alive) a mid
  obtain ⟨hcount, hup⟩ := hdaily
  rw [countIn_append ham hmb] at hcount hup
  have hrest := countIn_nonneg js (fun j => j.status = .alive) mid b
  have hrest' := alive_le js mid b
  cases daily with
  | none =>
    simp only [map_none, getD_none] at hcount hup
    refine ⟨?_, ?_⟩ <;> simp only [dailyRemainder, map_none, getD_none] <;> omega
  | some =>
    simp only [map_some, getD_some] at hcount hup
    simp only [dailyRemainder, subtractHours_spec hmid hb hmb hcounts]
    split
    · refine ⟨?_, ?_⟩ <;> simp only [map_none, getD_none] <;> omega
    · rw [if_neg (by omega)]
      refine ⟨?_, ?_⟩ <;> simp only [map_some, getD_some] <;> omega

/-! ## What is at hand -/

namespace Collection

variable {c : Collection} {start : ℤ}

/-- **What is at hand is right**: hours and days that are read have the counts of
the judgments. -/
structure Ok (c : Collection) (js : List Judgment) (start : ℤ) : Prop where
  ordered : Ordered c.excluded
  hour_dvd : hour ∣ c.hourSince
  live_le : c.liveHour ≤ c.liveDay
  hourly : ∀ T, hour ∣ T → start ≤ T → c.liveHour ≠ 0 → c.liveHour ≤ T → c.hourSince ≤ T →
    T + hour ≤ c.stop →
    Counts (c.hourly (unix T)) js T (T + hour)
  daily : ∀ T, day ∣ T → start ≤ T → c.whole T → T < c.hourSince →
    Counts (c.daily (unix T)) js T (T + day)

end Collection

theorem le_ceilTo (t : ℤ) (res : TimeResolution) : t ≤ ceilTo t res := by
  have := lt_truncate_add (t := t) (resolutionSpan_pos res)
  unfold ceilTo truncateToResolution
  dsimp only
  split
  · exact Int.le_refl t
  · split <;> omega

theorem dvd_ceilTo (t : ℤ) (res : TimeResolution) : resolutionSpan res ∣ ceilTo t res := by
  unfold ceilTo truncateToResolution
  dsimp only
  split
  · next h => exact h ▸ Int.dvd_zero _
  · split
    · exact Int.dvd_add dvd_truncate (Int.dvd_refl _)
    · exact dvd_truncate

theorem ceilTo_lt (t : ℤ) (res : TimeResolution) : ceilTo t res < t + resolutionSpan res := by
  have hpos := resolutionSpan_pos res
  unfold ceilTo truncateToResolution
  dsimp only
  split
  · omega
  · split
    · next h => omega
    · have := truncate_le (t := t) hpos
      omega

theorem ceilTo_hour_le (t : ℤ) : ceilTo t .oneHour ≤ ceilTo t .oneDay := by
  have hdvd : hour ∣ ceilTo t .oneDay := Int.dvd_trans (by decide) (dvd_ceilTo t .oneDay)
  refine le_of_lt_add (show 0 < hour by decide) (dvd_ceilTo t .oneHour) hdvd ?_
  have h₁ := ceilTo_lt t .oneHour
  have h₂ := le_ceilTo t .oneDay
  simp only [resolutionSpan] at h₁ h₂
  omega

/-- The latest of the times, and not before the zero time. -/
theorem maxTime_le {ts : List ℤ} {x : ℤ} : maxTime ts ≤ x ↔ 0 ≤ x ∧ ∀ t ∈ ts, t ≤ x := by
  have : ∀ (ts : List ℤ) (m : ℤ), ts.foldl (fun m t => if m < t then t else m) m ≤ x ↔ m ≤ x ∧
    ∀ t ∈ ts, t ≤ x := by
    intro ts
    induction ts with
    | nil => simp
    | cons t ts ih =>
      intro m
      rw [foldl_cons, ih, forall_mem_cons, ← and_assoc]
      refine and_congr_left fun _ => ?_
      split <;> omega
  exact this ts 0

namespace Store

variable {db : Store}

/-- A bucket's summary has the counts of its stretch. -/
theorem Ok.bucket_counts (hok : db.Ok) {res : TimeResolution} (hres : res ∈ liveResolutions) {T : ℤ}
    (hT : resolutionSpan res ∣ T) : Counts (db.summaries.lookup (res, unix T)) db.judgments T
      (T + resolutionSpan res) := by
  have hiff : ∀ j : Judgment, truncateToResolution j.timestamp res = T ↔
      T ≤ j.timestamp ∧ j.timestamp < T + resolutionSpan res := fun j =>
    truncate_eq_iff (resolutionSpan_pos res) hT
  refine ⟨?_, ?_⟩
  · rw [hok.counts res hres T hT, countIn]
    simp only [hiff, true_and]
  · rw [hok.successes res hres T hT, countIn]
    simp only [hiff]

/-- **What `CollectSLA` has at hand is right.** -/
theorem Ok.collection (hok : db.Ok) (start stop : ℤ) (excluded : List TimeRange)
    (horizons : SLAHorizons) :
    (db.collection start stop excluded horizons).Ok db.judgments start := by
  have hepoch : (0 : ℤ) < unixEpoch := by decide
  -- a live mark is there, and after 1970
  have hlive : ∀ res, (db.liveSince.elim 0 fun t => ceilTo t .oneHour) ≠ 0 →
      unixEpoch ≤ db.liveSince.elim 0 fun t => ceilTo t res := by
    intro res hne
    cases h : db.liveSince with
    | none => simp [h] at hne
    | some t => exact Int.le_trans (hok.live t h) (le_ceilTo t res)
  -- scans start with the bucket of a time after 1970
  have htrunc : ∀ (res : TimeResolution) (start : ℤ), unixEpoch ≤ start →
    unixEpoch ≤ truncateToResolution start res := by
    intro res start hle
    have hdvd : resolutionSpan res ∣ unixEpoch := by cases res <;> decide
    have hpos := resolutionSpan_pos res
    exact le_of_lt_add hpos hdvd dvd_truncate (hle.trans_lt (lt_truncate_add hpos))
  have hmax : ∀ ts, ∀ t ∈ ts, t ≤ maxTime ts := fun ts => (maxTime_le.mp le_rfl).2
  refine ⟨ordered_merge _ _ _, dvd_ceilTo _ .oneHour, ?_, ?_, ?_⟩
  · unfold Store.collection
    cases db.liveSince with
    | none => exact Int.le_refl 0
    | some t => exact ceilTo_hour_le t
  · intro T hT hstart hne hle hsince hstop
    have hlive := hlive .oneHour hne
    have hpos : 0 < hour := by decide
    unfold Store.collection at hne hle hsince hstop ⊢
    dsimp only at hne hle hsince hstop ⊢
    have hfrom := hmax [start, db.liveSince.elim 0 fun t => ceilTo t .oneHour,
      ceilTo horizons.hourSince .oneHour]
      _ (.tail _ (.head _))
    have hto : maxTime [start, db.liveSince.elim 0 fun t => ceilTo t .oneHour,
      ceilTo horizons.hourSince .oneHour] ≤ T :=
      maxTime_le.mpr ⟨by omega, by simp [hstart, hle, hsince]⟩
    rw [if_pos ⟨hne, by omega⟩, summariesByBucket_eq (htrunc _ _ (by omega)) hto]
    · exact hok.bucket_counts (by simp [liveResolutions]) hT
    · have : second ≤ hour := by decide
      omega
  · rintro T hT hstart ⟨hne, hle, hstop, _⟩ hsince
    have hlive := hlive .oneDay hne
    unfold Store.collection at hne hle hstop hsince ⊢
    dsimp only at hne hle hstop hsince ⊢
    have hfrom := hmax [start, db.liveSince.elim 0 fun t => ceilTo t .oneDay]
      _ (.tail _ (.head _))
    have hto : maxTime [start, db.liveSince.elim 0 fun t => ceilTo t .oneDay] ≤ T :=
      maxTime_le.mpr ⟨by omega, by simp [hstart, hle]⟩
    have hhorizon : horizons.hourSince ≠ 0 := by
      intro h
      rw [h, ceilTo, if_pos rfl] at hsince
      omega
    rw [if_pos ⟨hne, hhorizon, by omega⟩, summariesByBucket_eq (htrunc _ _ (by omega)) hto]
    · exact hok.bucket_counts (by simp [liveResolutions]) hT
    · have hdvd : hour ∣ T := Int.dvd_trans (by decide) hT
      have : T + hour ≤ ceilTo horizons.hourSince .oneHour :=
        le_of_lt_add (show 0 < hour by decide) (Int.dvd_add hdvd (Int.dvd_refl _))
          (dvd_ceilTo _ .oneHour) (by omega)
      have : second ≤ hour := by decide
      omega

end Store

end Anubis.Sla
