import Anubis.Common.Instants
import Anubis.Common.Spans
import Mathlib.Data.List.Sort

/-!
# Ranges of time

`Merge`, `Overlaps`, `Subtract` and `RawPieces` of `internal/sla/sla.go`. A
`core.TimeRange` is a span of instants. The sort of `Merge` leaves the order of
ranges with one start open; here it is the one that keeps it.
-/

namespace Anubis.Sla

open Instant Spans

/-- `core.TimeRange`. -/
abbrev TimeRange := Span ℤ

/-! ## Merging -/

/-- One range clipped to `[lo, hi)`, if something is left. -/
def clip (lo hi : ℤ) (r : TimeRange) : Option TimeRange :=
  let start := if r.start < lo then lo else r.start
  let stop := if hi < r.stop then hi else r.stop
  if start < stop then some ⟨start, stop⟩ else none

/-- The loop of `Merge`: the next range is joined to the last one if it starts by
its end. -/
def joinNext (out : List TimeRange) (r : TimeRange) : List TimeRange :=
  match out.getLast? with
  | some last =>
    if last.stop < r.start then out ++ [r]
    else if last.stop < r.stop then out.dropLast ++ [{ last with stop := r.stop }]
    else out
  | none => out ++ [r]

/-- `Merge`. -/
def merge (ranges : List TimeRange) (lo hi : ℤ) : List TimeRange :=
  ((ranges.filterMap (clip lo hi)).insertionSort fun a b => a.start ≤ b.start).foldl joinNext []

/-! ## Cutting -/

/-- `Overlaps`. -/
def overlaps (merged : List TimeRange) (a b : ℤ) : Bool :=
  merged[firstAfter merged a]?.any fun r => decide (r.start < b)

/-- The loop of `Subtract`. -/
def subtractLoop (b : ℤ) (cursor : ℤ) : List TimeRange → List TimeRange
  | [] => if cursor < b then [⟨cursor, b⟩] else []
  | r :: rest =>
    if r.start < b then
      (if cursor < r.start then [⟨cursor, r.start⟩] else []) ++
        subtractLoop b (if cursor < r.stop then r.stop else cursor) rest
    else if cursor < b then [⟨cursor, b⟩] else []

/-- `Subtract`. -/
def subtract (a b : ℤ) (merged : List TimeRange) : List TimeRange :=
  subtractLoop b a (merged.drop (firstAfter merged a))

/-- The end of the UTC hour of an instant. -/
def hourEnd (s : ℤ) : ℤ := truncate s hour + hour

theorem lt_hourEnd (s : ℤ) : s < hourEnd s := lt_truncate_add (by decide)

/-- A range split at the hours. -/
def hourPieces (s stop : ℤ) : List TimeRange :=
  if s < stop then
    let e := if stop < hourEnd s then stop else hourEnd s
    ⟨s, e⟩ :: hourPieces e stop
  else []
termination_by (stop - s).toNat
decreasing_by
  have := lt_hourEnd s
  split <;> omega

/-- `RawPieces`. -/
def rawPieces (a b : ℤ) (merged : List TimeRange) : List TimeRange :=
  (subtract a b merged).flatMap fun r => hourPieces r.start r.stop

end Anubis.Sla
