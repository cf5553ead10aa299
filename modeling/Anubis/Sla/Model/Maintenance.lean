import Anubis.Api.Model.Souls
import Anubis.Common.Calendar
import Anubis.Sla.Model.Ranges

/-!
# Maintenance windows

`MaintenanceWindow` of `internal/core/verdict.go`, which is asked about an instant,
and `MaintenanceRanges` of `internal/sla/sla.go`, which goes through a period. The
start of a window has a fixed offset from UTC, as its JSON form gives it.
Differences of instants are `time.Duration`s of 64 bits: `Sub` stops at the largest
and the smallest one, other arithmetic wraps around.
-/

namespace Anubis.Sla

open Instant Spans

/-- `Sub`. -/
def sub (t u : ℤ) : ℤ :=
  if 2 ^ 63 - 1 < t - u then 2 ^ 63 - 1 else if t - u < -2 ^ 63 then -2 ^ 63 else t - u

/-- A `time.Duration`. -/
def wrap (d : ℤ) : ℤ := d.bmod (2 ^ 64)

/-- `Recurring`. -/
inductive Recurring
  | daily
  | weekly
  | monthly
  | other (name : String)
deriving DecidableEq

/-- `core.MaintenanceWindow`. -/
structure MaintenanceWindow where
  soulIDs : List String
  tags : List String
  workspaceID : String
  startTime : ℤ
  /-- Of the location of the start, from UTC. -/
  offset : ℤ
  endTime : ℤ
  recurring : Recurring
  enabled : Bool

namespace MaintenanceWindow

/-! ## Asked about an instant -/

/-- `monthlyStart`. The last day of a month is the day before the next. -/
def monthlyStart (m : MaintenanceWindow) (year month : ℤ) : ℤ :=
  let day := Calendar.dayOfMonth m.offset m.startTime
  let lastDay := Calendar.dayOfMonth 0 (Calendar.date 0 year (month + 1) 0 0)
  let day := if lastDay < day then lastDay else day
  Calendar.date m.offset year month day (Calendar.clock m.offset m.startTime)

/-- The start that `IsActive` looks at after the first occurrence. -/
def recentStart (m : MaintenanceWindow) (now : ℤ) : Option ℤ :=
  let year := Calendar.year m.offset now
  let month := Calendar.month m.offset now
  let day := Calendar.dayOfMonth m.offset now
  let clock := Calendar.clock m.offset m.startTime
  match m.recurring with
  | .daily =>
    let start := Calendar.date m.offset year month day clock
    some (if now < start then Calendar.addDays m.offset start (-1) else start)
  | .weekly =>
    let daysSinceStart := (Calendar.weekday m.offset now - Calendar.weekday m.offset m.startTime +
      7) % 7
    let start := Calendar.date m.offset year month (day - daysSinceStart) clock
    some (if now < start then Calendar.addDays m.offset start (-7) else start)
  | .monthly =>
    let start := m.monthlyStart year month
    some (if now < start then m.monthlyStart year (month - 1) else start)
  | .other _ => none

/-- `IsActive`. -/
def isActive (m : MaintenanceWindow) (now : ℤ) : Bool :=
  if m.enabled = false ∨ now < m.startTime ∨ m.endTime < m.startTime then false
  else if now ≤ m.endTime then true
  else
    match m.recentStart now with
    | none => false
    | some start =>
      decide (m.startTime ≤ start ∧ start ≤ now ∧ now ≤ start + sub m.endTime m.startTime)

/-- An empty workspace is the default one. -/
def defaultWorkspace (workspaceID : String) :
    String := if workspaceID = "" then "default" else workspaceID

/-- `AppliesTo`. -/
def appliesTo (m : MaintenanceWindow) (soul : Api.Soul) : Bool :=
  if defaultWorkspace m.workspaceID ≠ defaultWorkspace soul.workspaceID then false
  else if m.soulIDs = [] ∧ m.tags = [] then true
  else m.soulIDs.contains soul.id || m.tags.any fun tag => soul.tags.contains tag

end MaintenanceWindow

/-! ## Going through a period -/

/-- `monthlyStart` of the reports. -/
def monthlyStart (first offset year month : ℤ) : ℤ :=
  let norm := Calendar.date offset year month 1 0
  let year := Calendar.year offset norm
  let month := Calendar.month offset norm
  let day := Calendar.dayOfMonth offset first
  let last := Calendar.dayOfMonth 0 (Calendar.date 0 year (month + 1) 0 0)
  let day := if last < day then last else day
  Calendar.date offset year month day (Calendar.clock offset first)

/-- `add`: the occurrence, if it meets the period. -/
def occurrence (length lo hi start : ℤ) : List TimeRange :=
  if start < hi ∧ lo < start + length then [⟨start, start + length⟩] else []

/-- `maxOccurrences`. -/
def maxOccurrences : ℕ := 10000

/-- The loop over days or weeks; the first argument is how many rounds are left. -/
def dayLoop (w : MaintenanceWindow) (step length lo hi : ℤ) : ℕ → ℤ → List TimeRange
  | 0, _ => []
  | n + 1, k =>
    let start := Calendar.addDays w.offset w.startTime (k * step)
    if start < hi then occurrence length lo hi start ++ dayLoop w step length lo hi n
      (k + 1) else []

/-- The first round of the loop over days or weeks. -/
def firstRound (w : MaintenanceWindow) (step length lo : ℤ) : ℤ :=
  let gap := wrap (sub lo w.startTime - length)
  if 0 < gap then
    let k := gap.tdiv (step * day) - 1
    if k < 0 then 0 else k
  else 0

/-- The loop over months. -/
def monthLoop (w : MaintenanceWindow) (length lo hi year : ℤ) : ℕ → ℤ → List TimeRange
  | 0, _ => []
  | n + 1, month =>
    let start := monthlyStart w.startTime w.offset year month
    if start < w.startTime then monthLoop w length lo hi year n (month + 1)
    else if start < hi then occurrence length lo hi start ++
      monthLoop w length lo hi year n (month + 1)
    else []

/-- The year and the month that the loop over months starts with. -/
def firstMonth (w : MaintenanceWindow) (length lo : ℤ) : ℤ × ℤ :=
  let f := lo + wrap (-length)
  if w.startTime < f then (Calendar.year w.offset f, Calendar.month w.offset f - 1)
  else (Calendar.year w.offset w.startTime, Calendar.month w.offset w.startTime)

/-- `Occurrences`. -/
def occurrences (w : MaintenanceWindow) (lo hi : ℤ) : List TimeRange :=
  let length := sub w.endTime w.startTime
  if length ≤ 0 then []
  else
    match w.recurring with
    | .daily => dayLoop w 1 length lo hi maxOccurrences (firstRound w 1 length lo)
    | .weekly => dayLoop w 7 length lo hi maxOccurrences (firstRound w 7 length lo)
    | .monthly =>
      let first := firstMonth w length lo
      monthLoop w length lo hi first.1 maxOccurrences first.2
    | .other _ => occurrence length lo hi w.startTime

/-- `MaintenanceRanges`. -/
def maintenanceRanges (windows : List MaintenanceWindow) (soul : Api.Soul) (lo hi : ℤ) :
    List TimeRange :=
  let relevant := windows.filter fun w => w.enabled && decide (w.startTime ≤ w.endTime) &&
    w.appliesTo soul
  merge (relevant.flatMap fun w => occurrences w lo hi) lo hi

/-- `maxReportPeriod`. -/
def maxReportPeriod : ℤ := 5 * 366 * day

end Anubis.Sla
