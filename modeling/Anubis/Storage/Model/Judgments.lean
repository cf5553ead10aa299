import Mathlib.Logic.Function.Basic
import Mathlib.Data.Int.Notation

/-!
# Judgments and their index

`SaveJudgment` of `judgments.go` and `purgeRawData` of `retention.go`. A record
stands under a primary key, and a key of the index leads from its workspace and
ID to the primary key. Both are written in one frame and deleted in two.
Workspaces and souls are names without a slash, as the keys are split at them.
-/

namespace Anubis.Storage

open Option Function

namespace Judgments

/-- What the keys of a judgment depend on; its time is in nanoseconds. -/
structure Judgment where
  id : String
  workspaceID : String
  soulID : String
  timestamp : ℤ
deriving DecidableEq

/-- `{workspace}/judgments/{soul}/{time}/{id}`, or an old key without an ID. -/
structure Primary where
  workspace : String
  soul : String
  time : ℤ
  id : Option String
deriving DecidableEq

/-- The live keys: primary ones, and `{workspace}/judgment-idx/{id}`. -/
structure Db where
  records : Primary → Option Judgment
  index : String × String → Option Primary

/-- `defaultWorkspace`. -/
def defaultWorkspace (workspaceID : String) :
    String := if workspaceID = "" then "default" else workspaceID

/-- What `prepareJudgment` fills in: an ID, and the workspace of the context. -/
def Judgment.filled (ctx : Option String) (generated : String) (j : Judgment) : Judgment :=
  { j with
    id := if j.id = "" then generated else j.id
    workspaceID := if j.workspaceID = "" then ctx.getD "default" else j.workspaceID }

namespace Db

variable (db : Db)

/-- The key `prepareJudgment` chooses: an old record of the same judgment is
updated in place. -/
def primaryKey (j : Judgment) : Primary :=
  let legacyKey : Primary := ⟨j.workspaceID, j.soulID, j.timestamp, none⟩
  if (db.records legacyKey).any (·.id = j.id) then legacyKey else { legacyKey with id := some j.id }

/-- The record and its index key, in one frame. -/
def putMany (key : Primary) (j : Judgment) : Db :=
  ⟨update db.records key (some j), update db.index (j.workspaceID, j.id) (some key)⟩

/-- `SaveJudgment`. An ID with a slash is refused. -/
def saveJudgment (ctx : Option String) (generated : String) (j : Judgment) : Db :=
  let j := j.filled ctx generated
  if '/' ∈ j.id.toList then db else db.putMany (db.primaryKey j) j

/-- `GetJudgmentByID`. -/
def getJudgmentByID (workspaceID id : String) : Option Judgment := do
  let primary ← db.index (defaultWorkspace workspaceID, id)
  let j ← db.records primary
  if j.id ≠ id ∨ defaultWorkspace j.workspaceID ≠ defaultWorkspace workspaceID then none
  else return j

/-- A turn of the loop of `purgeRawData`, which visits the keys in any order.
The process may crash between its two deletions. -/
def purge (cutoff : ℤ) (key : Primary) (crash : Bool) : Db :=
  match db.records key with
  | none => db
  | some j =>
    if ¬ key.time < cutoff then db
    else
      { records := update db.records key none
        index := if crash ∨ j.id = "" then db.index else update db.index
          (key.workspace, j.id) none }

/-- What happens to the store. -/
inductive Event
  | save (ctx : Option String) (generated : String) (j : Judgment)
  | purge (cutoff : ℤ) (key : Primary) (crash : Bool)

def step : Event → Db
  | .save ctx generated j => db.saveJudgment ctx generated j
  | .purge cutoff key crash => db.purge cutoff key crash

end Db

end Judgments

end Anubis.Storage
