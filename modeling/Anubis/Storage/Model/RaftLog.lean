import Anubis.Storage.Model.Wal

/-!
# The log store

`CobaltDBLogStore` of `raft_log.go`: the entries of the Raft log under the keys
`raft/log/` with the index in decimal. One entry is stored by a `Put`. Several
are stored in batches, which are filled up to `walBatchBudget` by the
estimate of `walBatchCost`. Keys are deleted in frames of 2048. Each batch and each
frame is an entry of the write-ahead log of its own, and the first that fails ends
the operation.
-/

namespace Anubis.Storage

/-! ## Writes one after another -/

/-- What happens around a write: the time, what the disk does, and the random
numbers drawn for each key. -/
structure Moment where
  now : Int64
  disk : Disk
  random : Key → Option Draw

/-- The writes of one operation, up to the first that fails. -/
def Store.writeEach (J : Json) (s : Store) :
    List (Moment → Write) → (ℕ → Moment) → Option (Store × Except EngineError Unit)
  | [], _ => some (s, .ok ())
  | w :: ws, moments =>
    match s.write J (w (moments 0)) (moments 0).now (moments 0).disk with
    | none => none
    | some (s, .error e) => some (s, .error e)
    | some (s, .ok ()) => s.writeEach J ws fun i => moments (i + 1)

/-! ## Batches -/

namespace GoMap

/-- `make`. -/
def empty {β : Type} : GoMap β := ⟨[], List.Pairwise.nil⟩

/-- An assignment to a key. -/
def set {β : Type} (m : GoMap β) (key : Key) (value : β) : GoMap β :=
    ⟨SortedAssoc.upsert key value m.1, m.2.upsert⟩

end GoMap

/-- `walBatchBudget`. -/
def walBatchBudget : ℕ := 256 * 1024

/-- `walBatchCost`. -/
def walBatchCost (x : Key × Option Bytes) : ℕ := x.1.length + (x.2.getD []).length + 96

/-- The loop that fills batches, with the batch so far and its size: the
batches it writes. -/
def fillBatches : List (Key × Option Bytes) → GoMap (Option Bytes) → ℕ → List (GoMap (Option Bytes))
  | [], batch, _ => if batch.1 = [] then [] else [batch]
  | x :: rest, batch, size =>
    if 0 < size ∧ walBatchBudget < size + walBatchCost x then
      batch :: fillBatches rest (GoMap.empty.set x.1 x.2) (walBatchCost x)
    else fillBatches rest (batch.set x.1 x.2) (size + walBatchCost x)

/-- The batches some values are written in. -/
def batches (values : List (Key × Option Bytes)) : List (GoMap (Option Bytes)) :=
    fillBatches values GoMap.empty 0

/-- A call of `putMany`. -/
def putBatch (batch : GoMap (Option Bytes)) (moment : Moment) :
    Write := .putMany moment.random batch

/-- The keys of a frame. -/
def perFrame : ℕ := 2048

/-- The frames some keys are deleted in. -/
def deleteFrames (keys : List Key) : List (List Key) :=
  if keys = [] then [] else keys.take perFrame :: deleteFrames (keys.drop perFrame)
termination_by keys.length
decreasing_by
  rename_i hne
  have := List.length_pos_iff.mpr hne
  rw [List.length_drop]
  exact Nat.sub_lt this (by decide)

/-- A call of `deleteMany`. -/
def deleteBatch (keys : List Key) (_ : Moment) : Write := .deleteMany keys

/-! ## The entries of the log -/

/-- `RaftLogEntry`. -/
structure RaftLogEntry where
  index : UInt64
  term : UInt64
  type : UInt8
  data : Option Bytes
deriving DecidableEq

/-- The key of an index. -/
def logKey (index : ℕ) : Key := ascii "raft/log/" ++ decimal index

/-- `encodeLogEntry`: the key, and `json.Marshal` of a map with four keys. -/
def encodeLogEntry (log : RaftLogEntry) : Key × Option Bytes :=
  (logKey log.index.toNat,
    some (ascii "\x7b\"data\":" ++ bytesText log.data ++ ascii ",\"index\":" ++
      decimal log.index.toNat ++
      ascii ",\"term\":" ++ decimal log.term.toNat ++ ascii ",\"type\":" ++
      decimal log.type.toNat ++
      ascii "\x7d"))

/-- The write of one entry. -/
def putLog (log : RaftLogEntry) (moment : Moment) : Write :=
  .put (moment.random (encodeLogEntry log).1) (encodeLogEntry log).1 (encodeLogEntry log).2

section

variable (J : Json) (s : Store)

/-- `StoreLog`. -/
def storeLog (log : RaftLogEntry) (moment : Moment) : Option (Store × Except EngineError Unit) :=
  s.writeEach J [putLog log] fun _ => moment

/-- `StoreLogs`. -/
def storeLogs (logs : List RaftLogEntry) (moments : ℕ → Moment) :
    Option (Store × Except EngineError Unit) :=
  s.writeEach J ((batches (logs.map encodeLogEntry)).map putBatch) moments

end

/-!
## The application state

What `StorageFSM` and `CobaltDB` do with the keys outside `raft/`: the image of
a snapshot, and its restoration by `ReplaceApplicationState`, which deletes the
keys that are not in the image and writes the others in batches. The order in
which Go visits a map is an argument.
-/

/-- The keys of Raft itself. -/
def underRaft (key : Key) : Bool := (ascii "raft/").isPrefixOf key

/-- The slice `Get` returns for a value. `gcm.Open` appends the plaintext to a
`nil` slice, and an empty one leaves it `nil`. -/
def CobaltDB.slice (db : CobaltDB) (value : Bytes) : Option Bytes :=
  if db.encryptor.isSome ∧ value = [] then none else some value

/-- The loop of `Snapshot`. -/
def snapshotKeys (db : CobaltDB) :
    List Key → GoMap (Option Bytes) → Option (Except EngineError (GoMap (Option Bytes)))
  | [], snapshot => some (.ok snapshot)
  | key :: keys, snapshot =>
    if underRaft key then snapshotKeys db keys snapshot
    else
      match db.get key with
      | none => none
      | some (.error e) => some (.error e)
      | some (.ok value) => snapshotKeys db keys (snapshot.set key (db.slice value))

/-- `Snapshot` of `fsm.go`: the image. -/
def fsmSnapshot (J : Json) (db : CobaltDB) : Option (Except EngineError Bytes) :=
  match db.list [] with
  | none => none
  | some (.error e) => some (.error e)
  | some (.ok keys) =>
    (snapshotKeys db keys GoMap.empty).map fun r => r.map fun snapshot => J.marshalMap snapshot.1

/-- The frames of `ReplaceApplicationState`, for the keys of the store and the
data in the order it is visited. -/
def replaceFrames (keys : List Key) (data : List (Key × Option Bytes)) : List (Moment → Write) :=
  (deleteFrames (keys.filter fun key => !underRaft key && !data.any fun x => x.1 = key)).map
    deleteBatch ++
    (batches (data.filter fun x => !underRaft x.1)).map putBatch

/-- `ReplaceApplicationState`. -/
def replaceApplicationState (J : Json) (s : Store) (data : List (Key × Option Bytes))
    (moments : ℕ → Moment) : Option (Store × Except EngineError Unit) :=
  match s.db.list [] with
  | none => none
  | some (.error e) => some (s, .error e)
  | some (.ok keys) => s.writeEach J (replaceFrames keys data) moments

/-- The errors of `restore`. -/
inductive FsmError
  | unmarshal
  | store (e : EngineError)
deriving DecidableEq, Repr

/-- `restore` of `fsm.go`. The text `null` is an empty map. -/
def fsmRestore (J : Json) (s : Store) (image : Bytes)
    (order : List (Key × Option Bytes) → List (Key × Option Bytes)) (moments : ℕ → Moment) :
    Option (Store × Except FsmError Unit) :=
  match J.unmarshalMap image with
  | none => some (s, .error .unmarshal)
  | some data =>
    (replaceApplicationState J s (order (data.getD [])) moments).map fun r =>
      (r.1, r.2.mapError .store)

end Anubis.Storage
