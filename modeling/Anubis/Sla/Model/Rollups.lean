import Anubis.Sla.Model.Ranges
import Anubis.Common.Decimal
import Anubis.Common.Dict

/-!
# Tallies

The counts of `Tally` in `internal/sla/sla.go`. Latencies, covered time and
downtime are floating-point sums that no count depends on; they are left out.
-/

namespace Anubis.Sla

open Spans

/-- `core.SoulStatus`. -/
inductive SoulStatus
  | alive
  | dead
  | degraded
  | unknown
  /-- In a maintenance window. -/
  | embalmed
  | other (name : String)
deriving DecidableEq

/-- `core.Judgment`: what is counted of it. -/
structure Judgment where
  id : String
  timestamp : ℤ
  status : SoulStatus
deriving DecidableEq

/-- Where a bucket's figures came from. -/
inductive Source
  | raw
  | hour
  | day
deriving DecidableEq

/-- `Sources`. -/
structure Sources where
  raw : ℤ := 0
  hour : ℤ := 0
  day : ℤ := 0
deriving DecidableEq

/-- One bucket more. -/
def Sources.count (s : Sources) : Source → Sources
  | .raw => { s with raw := s.raw + 1 }
  | .hour => { s with hour := s.hour + 1 }
  | .day => { s with day := s.day + 1 }

/-- `Tally`. -/
structure Tally where
  checks : ℤ := 0
  up : ℤ := 0
  sources : Sources := {}
deriving DecidableEq

/-- `AddBucket`. -/
def Tally.addBucket (t : Tally) (checks up : ℤ) (source : Source) : Tally :=
  if checks ≤ 0 then t
  else
    let up := if checks < up then checks else up
    let up := if up < 0 then 0 else up
    { checks := t.checks + checks, up := t.up + up, sources := t.sources.count source }

/-- The counts of one piece. -/
structure Acc where
  checks : ℤ := 0
  up : ℤ := 0

/-- One judgment of `CountJudgments`, counted to the piece that holds it. -/
def countJudgment (pieces : List TimeRange) (accs : List Acc) (j : Judgment) : List Acc :=
  if j.status = .embalmed then accs
  else
    let i := firstAfter pieces j.timestamp
    match pieces[i]? with
    | none => accs
    | some piece =>
      if j.timestamp < piece.start then accs
      else accs.modify i fun a => ⟨a.checks + 1, if j.status = .alive then a.up + 1 else a.up⟩

/-- `CountJudgments`. -/
def Tally.countJudgments (t : Tally) (pieces : List TimeRange) (judgments : List Judgment) :
    Tally :=
  (judgments.foldl (countJudgment pieces) (pieces.map fun _ => {})).foldl
    (fun t a => t.addBucket a.checks a.up .raw) t

/-!
## Rollups and their collection

The time-series store of one soul (`internal/storage/timeseries.go`) and
`CollectSLA` (`internal/storage/sla.go`). Keys are what follows the common prefix
of the soul; scans compare them as text. Saving a judgment is one write of the
store: the judgment, its summaries of a minute, an hour and a day, and the mark of
when summaries started to be kept. Requests are not cancelled and the store does
not fail.
-/

open Instant Decimal

/-! ## The time-series store -/

/-- `TimeResolution`, without raw data, which has no buckets. -/
inductive TimeResolution
  | oneMin
  | fiveMin
  | oneHour
  | oneDay
deriving DecidableEq

/-- `resolutionSpan`. -/
def resolutionSpan : TimeResolution → ℤ
  | .oneMin => minute
  | .fiveMin => 5 * minute
  | .oneHour => hour
  | .oneDay => day

/-- `truncateToResolution`. The zero time is a midnight, so days are multiples of
twenty-four hours. -/
def truncateToResolution (t : ℤ) (res : TimeResolution) : ℤ := truncate t (resolutionSpan res)

/-- `JudgmentSummary`: its counts. -/
structure JudgmentSummary where
  bucketTime : ℤ
  count : ℤ
  successCount : ℤ
  failureCount : ℤ
deriving DecidableEq

/-- What is stored of one soul. -/
structure Store where
  /-- By time in nanoseconds and identity. Older versions had keys of the time only;
  no call makes one. -/
  raw : Dict (ℤ × String) Judgment := ∅
  /-- By resolution and time of the bucket in seconds. -/
  summaries : Dict (TimeResolution × ℤ) JudgmentSummary := ∅
  liveSince : Option ℤ := none

namespace Store

/-- The raw judgments. -/
def judgments (db : Store) : List Judgment := db.raw.entries.map fun e => e.2

/-- The key of a judgment's summary. -/
def summaryKey (j : Judgment) (res : TimeResolution) : TimeResolution × ℤ :=
  (res, unix (truncateToResolution j.timestamp res))

/-- `prepareSummaryFrom`. -/
def prepareSummary (db : Store) (j : Judgment) (res : TimeResolution) : JudgmentSummary :=
  let summary := (db.summaries.lookup (summaryKey j res)).getD ⟨0, 0, 0, 0⟩
  { bucketTime := truncateToResolution j.timestamp res
    count := summary.count + 1
    successCount := if j.status = .alive then summary.successCount + 1 else summary.successCount
    failureCount := if j.status = .alive then summary.failureCount else summary.failureCount + 1 }

/-- `SaveJudgment`; `now` is the time of the call. -/
def saveJudgment (db : Store) (j : Judgment) (now : ℤ) : Store where
  raw := db.raw.insert (unixNano j.timestamp, j.id) j
  summaries :=
    [TimeResolution.oneMin, .oneHour, .oneDay].foldl
      (fun values res => values.insert (summaryKey j res) (db.prepareSummary j res)) db.summaries
  liveSince := db.liveSince.or (some now)

/-- `SaveJudgments`: what is stored already, or came before in the batch, is
skipped. Frames split only between judgments. -/
def saveJudgments (db : Store) (judgments : List Judgment) (now : ℤ) : Store :=
  judgments.foldl (fun db j => if db.judgments.any (·.id = j.id) then db else db.saveJudgment j now)
    db

/-- What the store is asked to save. -/
inductive Save
  | judgment (j : Judgment) (now : ℤ)
  | batch (judgments : List Judgment) (now : ℤ)

/-- The time of the call. -/
def Save.now : Save → ℤ
  | .judgment _ now => now
  | .batch _ now => now

/-- One call. -/
def step (db : Store) : Save → Option Store
  | .judgment j now => some (db.saveJudgment j now)
  | .batch judgments now => some (db.saveJudgments judgments now)

/-! ## Reading -/

/-- The keys a scan looks at: those in a range of texts where texts of numbers are
in order, and all otherwise. -/
def scans (ordered : Bool) (startKey endKey key : List Char) : Bool :=
  if ordered then decide (startKey ≤ key) && decide (key < endKey) else true

/-- `QueryJudgments`, newest first. -/
def queryJudgments (db : Store) (start stop : ℤ) (limit : ℕ) : List Judgment :=
  let startKey := decimal (unixNano start)
  let endKey := decimal (unixNano stop)
  let ordered := decide (0 ≤ unixNano start ∧ 0 ≤ unixNano stop ∧ startKey.length = endKey.length)
  let results := db.raw.entries.filter fun e =>
    scans ordered startKey endKey (decimal e.1.1 ++ '/' :: e.1.2.toList)
  let judgments := (results.map fun e => e.2).filter fun j =>
    decide (start ≤ j.timestamp ∧ j.timestamp < stop)
  let sorted := judgments.insertionSort fun j k =>
    k.timestamp < j.timestamp ∨ k.timestamp = j.timestamp ∧ k.id ≤ j.id
  if 0 < limit ∧ limit < sorted.length then sorted.take limit else sorted

/-- `summariesByBucket`: the summary found for a time in seconds. -/
def summariesByBucket (db : Store) (res : TimeResolution) (start stop : ℤ) : ℤ →
    Option JudgmentSummary := fun u =>
  let startKey := decimal (unix (truncateToResolution start res))
  let endKey := decimal (unix stop)
  let ordered := decide (startKey.length = endKey.length)
  if scans ordered startKey endKey (decimal u) = true ∧ unix start ≤ u ∧
    u < unix stop then db.summaries.lookup (res, u)
  else none

end Store

/-! ## `CollectSLA` -/

/-- `SLAHorizons`. -/
structure SLAHorizons where
  rawSince : ℤ
  hourSince : ℤ

/-- `ceilTo`. -/
def ceilTo (t : ℤ) (res : TimeResolution) : ℤ :=
  if t = 0 then t
  else
    let b := truncateToResolution t res
    if b < t then b + resolutionSpan res else b

/-- `maxTime`. -/
def maxTime (ts : List ℤ) : ℤ := ts.foldl (fun m t => if m < t then t else m) 0

/-- What `CollectSLA` has at hand when it goes through the period. -/
structure Collection where
  stop : ℤ
  excluded : List TimeRange
  liveHour : ℤ
  liveDay : ℤ
  hourSince : ℤ
  hourly : ℤ → Option JudgmentSummary
  daily : ℤ → Option JudgmentSummary

/-- What the next stretch of the period is read from. -/
inductive Reading
  /-- A daily rollup. -/
  | day
  /-- A daily rollup without the hourly rollups of its end. -/
  | remainder
  /-- An hourly rollup. -/
  | hour
  | raw
deriving DecidableEq

namespace Collection

/-- A whole day of live counting, outside the exclusions. -/
def whole (c : Collection) (start : ℤ) : Prop :=
  c.liveHour ≠ 0 ∧ c.liveDay ≤ start ∧ start + day ≤ c.stop ∧
    overlaps c.excluded start (start + day) = false

instance (c : Collection) (start : ℤ) : Decidable (c.whole start) :=
    inferInstanceAs (Decidable (_ ∧ _))

/-- A whole hour of live counting that is not older than hourly rollups, outside
the exclusions. -/
def wholeHour (c : Collection) (start : ℤ) : Prop :=
  c.liveHour ≠ 0 ∧ c.liveHour ≤ start ∧ c.hourSince ≤ start ∧ start + hour ≤ c.stop ∧
    overlaps c.excluded start (start + hour) = false

instance (c : Collection) (start : ℤ) : Decidable (c.wholeHour start) :=
    inferInstanceAs (Decidable (_ ∧ _))

/-- The loop of `CollectSLA`, up to what it does with the stretch: what the stretch
from the cursor is read from, and where it ends. -/
def stretch (c : Collection) (cursor : ℤ) : Reading × ℤ :=
  let start := truncateToResolution cursor .oneDay
  let hourStart := truncate cursor hour
  let next := hourStart + hour
  if start = cursor ∧ c.whole start ∧ start + day ≤ c.hourSince then (.day, start + day)
  else if start = cursor ∧ c.whole start ∧ start < c.hourSince then (.remainder, c.hourSince)
  else if hourStart = cursor ∧ c.wholeHour hourStart then (.hour, next)
  else (.raw, if c.stop < next then c.stop else next)

/-- Every stretch moves the cursor. -/
theorem lt_stretch (c : Collection) (cursor : ℤ) (h : cursor < c.stop) :
    cursor < (c.stretch cursor).2 := by
  have hhour := lt_truncate_add (t := cursor) (show 0 < hour by decide)
  have hday : 0 < day := by decide
  unfold stretch
  dsimp only
  split
  · next hwhole =>
    dsimp only
    omega
  · split
    · next hwhole =>
      dsimp only
      omega
    · split
      · exact hhour
      · dsimp only
        split <;> omega

end Collection

/-- The loop of `dailyRemainder`. -/
def subtractHours (hourly : ℤ → Option JudgmentSummary) (h dayEnd : ℤ) (rest : ℤ × ℤ) : ℤ × ℤ :=
  if h < dayEnd then
    subtractHours hourly (h + hour) dayEnd
      (match hourly (unix h) with
      | some s => (rest.1 - s.count, rest.2 - s.successCount)
      | none => rest)
  else rest
termination_by (dayEnd - h).toNat
decreasing_by
  have : 0 < hour := by decide
  omega

/-- `dailyRemainder`: the counts of a day without those of its hours from `start`
on. -/
def dailyRemainder (daily : Option JudgmentSummary) (hourly : ℤ → Option JudgmentSummary)
    (start dayEnd : ℤ) : Option JudgmentSummary :=
  match daily with
  | none => none
  | some s =>
    let rest := subtractHours hourly start dayEnd (s.count, s.successCount)
    if rest.1 ≤ 0 then none
    else some
      { bucketTime := 0
        count := rest.1
        successCount := if rest.2 < 0 then 0 else rest.2
        failureCount := 0 }

/-- `addSummary`. -/
def Tally.addSummary (t : Tally) (summary : Option JudgmentSummary) (source : Source) : Tally :=
  match summary with
  | none => t
  | some s => if s.count = 0 then t else t.addBucket s.count s.successCount source

/-- `addRaw`. -/
def addRaw (rawRanges : List TimeRange) (a b : ℤ) : List TimeRange :=
  match rawRanges.getLast? with
  | some last =>
    if last.stop = a then rawRanges.dropLast ++ [{ last with stop := b }] else rawRanges ++ [⟨a, b⟩]
  | none => rawRanges ++ [⟨a, b⟩]

/-- The loop of `CollectSLA`. -/
def Collection.collect (c : Collection) (cursor : ℤ) (tally : Tally) (rawRanges : List TimeRange) :
    Tally × List TimeRange :=
  if cursor < c.stop then
    let next := (c.stretch cursor).2
    match (c.stretch cursor).1 with
    | .day => c.collect next (tally.addSummary (c.daily (unix cursor)) .day) rawRanges
    | .remainder =>
      c.collect next
        (tally.addSummary (dailyRemainder (c.daily (unix cursor)) c.hourly c.hourSince
          (cursor + day)) .day) rawRanges
    | .hour => c.collect next (tally.addSummary (c.hourly (unix cursor)) .hour) rawRanges
    | .raw => c.collect next tally (addRaw rawRanges cursor next)
  else (tally, rawRanges)
termination_by (c.stop - cursor).toNat
decreasing_by
  all_goals
    have := c.lt_stretch cursor (by assumption)
    omega

namespace Store

/-- A raw stretch, read a day at a time. -/
def readRaw (db : Store) (excluded : List TimeRange) (a stop : ℤ) (tally : Tally) : Tally :=
  if a < stop then
    let b := if stop < a + day then stop else a + day
    let pieces := rawPieces a b excluded
    db.readRaw excluded b stop
      (if pieces = [] then tally else tally.countJudgments pieces (db.queryJudgments a b 0))
  else tally
termination_by (stop - a).toNat
decreasing_by
  have : 0 < day := by decide
  split <;> omega

/-- The start of a raw stretch, after what retention has purged. -/
def rawStart (horizons : SLAHorizons) (a : ℤ) : ℤ :=
  if horizons.rawSince ≠ 0 ∧ a < horizons.rawSince then horizons.rawSince else a

/-- What is at hand for the period. -/
def collection (db : Store) (start stop : ℤ) (excluded : List TimeRange) (horizons : SLAHorizons) :
    Collection :=
  let liveHour := db.liveSince.elim 0 fun t => ceilTo t .oneHour
  let liveDay := db.liveSince.elim 0 fun t => ceilTo t .oneDay
  let hourSince := ceilTo horizons.hourSince .oneHour
  let hourFrom := maxTime [start, liveHour, hourSince]
  let dayFrom := maxTime [start, liveDay]
  { stop := stop
    excluded := merge excluded start stop
    liveHour := liveHour
    liveDay := liveDay
    hourSince := hourSince
    hourly :=
      if liveHour ≠ 0 ∧ hourFrom < stop then db.summariesByBucket .oneHour hourFrom stop else
        fun _ => none
    daily :=
      if liveHour ≠ 0 ∧ horizons.hourSince ≠ 0 ∧ dayFrom < hourSince then
        db.summariesByBucket .oneDay dayFrom hourSince
      else fun _ => none }

/-- `CollectSLA`. -/
def collectSLA (db : Store) (start stop : ℤ) (excluded : List TimeRange) (horizons : SLAHorizons) :
    Tally :=
  if start < stop then
    let c := db.collection start stop excluded horizons
    let collected := c.collect start {} []
    collected.2.foldl (fun tally r =>
      db.readRaw c.excluded (rawStart horizons r.start) r.stop tally) collected.1
  else {}

end Store

/-!
## Reading what is stored

`StreamJudgments` (`internal/storage/sla.go`) and `TallyChecks`
(`internal/storage/storage.go`) over the store of one soul. Requests are not
cancelled and the store does not fail. A stream passes its judgments to a function
that may refuse one; a tally of checks is without its sum of latencies.
-/

namespace Store

/-! ## `StreamJudgments` -/

section Stream

variable {ε : Type} (db : Store) (fn : Judgment → Option ε) (limit : ℕ)

/-- What `StreamJudgments` returns: what it passed on, whether it stopped at the
limit, and the error. -/
abbrev Streamed (ε : Type) := List Judgment × Bool × Option ε

/-- One round of the inner loop of `StreamJudgments`; an error is what the call
returns with. -/
def pass (passed : List Judgment) (j : Judgment) : Except (Streamed ε) (List Judgment) :=
  if 0 < limit ∧ limit ≤ passed.length then .error (passed, true, none)
  else
    match fn j with
    | some err => .error (passed, false, some err)
    | none => .ok (passed ++ [j])

/-- The outer loop of `StreamJudgments`, an hour at a time from `a`. -/
def streamFrom (a stop : ℤ) (passed : List Judgment) : Streamed ε :=
  if a < stop then
    let b := truncate a hour + hour
    let b := if stop < b then stop else b
    let judgments := (db.queryJudgments a b 0).insertionSort fun j k =>
      j.timestamp < k.timestamp ∨ j.timestamp = k.timestamp ∧ j.id ≤ k.id
    match judgments.foldlM (pass fn limit) passed with
    | .error returned => returned
    | .ok passed => streamFrom b stop passed
  else (passed, false, none)
termination_by (stop - a).toNat
decreasing_by
  have := lt_truncate_add (t := a) (show 0 < hour by decide)
  split <;> omega

/-- `StreamJudgments`. -/
def streamJudgments (start stop : ℤ) : Streamed ε := db.streamFrom fn limit start stop []

end Stream

/-! ## `TallyChecks` -/

/-- `core.CheckTally`. -/
structure CheckTally where
  checks : ℤ := 0
  up : ℤ := 0
deriving DecidableEq

/-- The first hour after live counting started; the zero time without it. -/
def liveHour (db : Store) : ℤ :=
  match db.liveSince with
  | none => 0
  | some t => if truncate t hour < t then truncate t hour + hour else truncate t hour

/-- The keys of hourly summaries that are read for all the ranges together. -/
def hourScan (db : Store) (ranges : List TimeRange) (u : ℤ) : Bool :=
  match ranges with
  | [] => false
  | r :: rest =>
    let first := rest.foldl (fun first r => if r.start < first then r.start else first) r.start
    let last := rest.foldl (fun last r => if last < r.stop then r.stop else last) r.stop
    let first := if first < db.liveHour then db.liveHour else first
    scans true (decimal (unix (truncate first hour))) (decimal (unix last + 1)) (decimal u)

/-- The hourly summaries by their times in seconds. -/
def hourly (db : Store) (ranges : List TimeRange) (u : ℤ) : Option JudgmentSummary :=
  if db.liveHour ≠ 0 ∧ db.hourScan ranges u = true then db.summaries.lookup (.oneHour, u) else none

/-- `addRaw` of `TallyChecks`. -/
def CheckTally.addRaw (t : CheckTally) (db : Store) (start stop : ℤ) : CheckTally :=
  if start < stop then
    (db.queryJudgments start stop 0).foldl
      (fun t j => ⟨t.checks + 1, if j.status = .alive then t.up + 1 else t.up⟩) t
  else t

/-- The loop of `TallyChecks` over whole hours. -/
def CheckTally.addHours (hourly : ℤ → Option JudgmentSummary) (h b : ℤ) (t : CheckTally) :
    CheckTally :=
  if h < b then
    CheckTally.addHours hourly (h + hour) b
      (match hourly (unix h) with
      | some s => ⟨t.checks + s.count, t.up + s.successCount⟩
      | none => t)
  else t
termination_by (b - h).toNat
decreasing_by
  have : 0 < hour := by decide
  omega

/-- The whole hours of a range that live counting covers. -/
def wholeHours (db : Store) (r : TimeRange) : TimeRange :=
  let a := if db.liveHour ≠ 0 ∧ r.start < db.liveHour then db.liveHour else r.start
  let a := if truncate a hour < a then truncate a hour + hour else a
  ⟨a, truncate r.stop hour⟩

/-- One round of the loop of `TallyChecks` over its ranges. -/
def tallyRange (db : Store) (hourly : ℤ → Option JudgmentSummary) (r : TimeRange) : CheckTally :=
  let whole := db.wholeHours r
  if db.liveHour = 0 ∨ whole.stop ≤ whole.start then CheckTally.addRaw {} db r.start r.stop
  else
    ((CheckTally.addHours hourly whole.start whole.stop {}).addRaw db r.start whole.start).addRaw db
    whole.stop r.stop

/-- `TallyChecks`, when it has found the workspace. -/
def tallyChecks (db : Store) (ranges : List TimeRange) : List CheckTally :=
  ranges.map (db.tallyRange (db.hourly ranges))

end Store

/-- `defaultWorkspace`. -/
def defaultWorkspace (workspaceID : String) :
    String := if workspaceID = "" then "default" else workspaceID

/-- What is stored of one soul, by workspace. -/
abbrev Workspaces := Dict String Store

namespace Workspaces

/-- What a workspace has. -/
def store (db : Workspaces) (workspaceID : String) : Store := (db.lookup workspaceID).getD {}

/-- The judgments of all workspaces. -/
def judgments (db : Workspaces) : List Judgment := db.entries.flatMap fun e => e.2.judgments

/-- One call, for judgments of one workspace. -/
def step (db : Workspaces) (call : String × Store.Save) : Option Workspaces :=
  let workspaceID := defaultWorkspace call.1
  ((db.store workspaceID).step call.2).map fun s => db.insert workspaceID s

/-- The workspace `TallyChecks` looks in; `soul` is the one in the record that
`GetSoulNoCtx` finds, if it finds one. -/
def tallied (soul : Option String) : String := soul.elim "default" defaultWorkspace

/-- `TallyChecks`. -/
def tallyChecks (db : Workspaces) (soul : Option String) (ranges : List TimeRange) :
    List Store.CheckTally :=
  (db.store (tallied soul)).tallyChecks ranges

end Workspaces

end Anubis.Sla
