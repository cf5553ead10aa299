import Anubis.Storage.Model.RaftLog
import Anubis.Common.Runs

/-!
# The store under the state machine

What committed commands do to the keyspace: `ApplyFSMCommand` and
`ApplyFSMSets` of `internal/storage/storage.go`, over the calls of the engine
they make. A call may fail, and then the keyspace is as it was; which calls do
is given in advance. Values are of an arbitrary type, read through the decoders
of `encoding/json` that the commands need. Secondary indexes are left out, no
command reads them.
-/

namespace Anubis.Fsm

open Storage (Bytes Key GoMap)

/-! ## Commands -/

/-- `core.FSMOp`. -/
inductive FSMOp
  | set
  | delete
  | deletePrefix
  | batch
  | other (n : ℕ)
deriving DecidableEq, Repr

/-- `core.FSMCommand`. A `nil` value is `none`. -/
structure FSMCommand (V : Type) where
  op : FSMOp
  table : String := ""
  key : Key := []
  value : Option V := none
  origin : String := ""
deriving DecidableEq

/-- What the state machine knows of stored and logged values. -/
structure Codec (V : Type) where
  /-- `len`. -/
  size : V → ℕ
  /-- What is read of a `nil` value that was put: nothing, or with encryption an
  empty value. -/
  nilValue : Option V
  /-- `decodeCommand`. -/
  decodeCommand : V → Option (FSMCommand V)
  /-- `json.Unmarshal` of the value of a batch. -/
  decodeBatch : Option V → Option (List (FSMCommand V))

/-! ## Calls of the engine -/

/-- The errors the calls return. -/
inductive StoreError
  /-- The disk failed, or encryption. -/
  | failed
  | notFound
  /-- `validateResourceID`. -/
  | invalidID (id : Bytes)
  /-- A stored record does not decode. -/
  | unmarshal
deriving DecidableEq, Repr

/-- **The keyspace and what the calls to come return**: `true` is a failure, and
after the end of a list every call succeeds. -/
structure Medium (V : Type) where
  kv : GoMap V := GoMap.empty
  /-- `liveMarked`, the cache of the time-series store. -/
  liveMarked : Key → Bool := fun _ => false
  /-- How many identities were generated. -/
  generated : ℕ := 0
  reads : List Bool := []
  writes : List Bool := []

namespace Medium

variable {V : Type} (C : Codec V) (m : Medium V)

/-- The value of a key. -/
def read (key : Key) : Option V := SortedAssoc.find key m.kv.1

/-- One call that reads: whether it succeeds. -/
def reading : Bool × Medium V := (!m.reads.head?.getD false, { m with reads := m.reads.tail })

/-- One call that writes. -/
def write (change : GoMap V → GoMap V) : Except StoreError Unit × Medium V :=
  if m.writes.head?.getD false then (.error .failed, { m with writes := m.writes.tail })
  else (.ok (), { m with kv := change m.kv, writes := m.writes.tail })

end Medium

section Writes

variable {V : Type} (C : Codec V)

/-- A key taken away. -/
def unset (kv : GoMap V) (key : Key) : GoMap V := ⟨SortedAssoc.erase key kv.1, kv.2.erase⟩

/-- A key as it is after a `Put`. -/
def assign (kv : GoMap V) (x : Key × Option V) : GoMap V :=
  match x.2.or C.nilValue with
  | some value => kv.set x.1 value
  | none => unset kv x.1

/-- Keys as they are after a `putMany`. -/
def assignAll (kv : GoMap V) (xs : List (Key × Option V)) : GoMap V := xs.foldl (assign C) kv

namespace Medium

variable (m : Medium V)

/-- `Put`. -/
def put (key : Key) (value : Option V) : Except StoreError Unit × Medium V :=
    m.write (assign C · (key, value))

/-- `putMany`. -/
def putMany (values : GoMap (Option V)) : Except StoreError Unit × Medium V :=
  if values.1 = [] then (.ok (), m) else m.write (assignAll C · values.1)

/-- `Delete`. -/
def delete (key : Key) : Except StoreError Unit × Medium V := m.write (unset · key)

/-- The keys with a prefix. -/
def keysUnder (start : Key) : List Key := (m.kv.1.map Prod.fst).filter start.isPrefixOf

/-- The loop of `DeletePrefix`. -/
def deleteEach (m : Medium V) : List Key → Except StoreError Unit × Medium V
  | [] => (.ok (), m)
  | key :: keys =>
    match m.delete key with
    | (.error e, m) => (.error e, m)
    | (.ok (), m) => m.deleteEach keys

/-- `DeletePrefix`. -/
def deletePrefix (start : Key) : Except StoreError Unit × Medium V :=
  match m.reading with
  | (false, m) => (.error .failed, m)
  | (true, m) => m.deleteEach (m.keysUnder start)

/-! ## Commands on the store -/

/-- `ApplyFSMCommand`. A prefix is scanned for the indexes first; an operation it
does not know does nothing. -/
def applyFSMCommand (cmd : FSMCommand V) : Except StoreError Unit × Medium V :=
  match cmd.op with
  | .set => m.put C cmd.key cmd.value
  | .delete => m.delete cmd.key
  | .deletePrefix =>
    match m.reading with
    | (false, m) => (.error .failed, m)
    | (true, m) => m.deletePrefix cmd.key
  | _ => (.ok (), m)

/-- `walBatchCost`. -/
def walBatchCost (key : Key) (value : Option V) : ℕ := key.length + (value.map C.size).getD 0 + 96

/-- The loop of `ApplyFSMSets`, with the values to write and their size. -/
def fillSets (m : Medium V) : List (FSMCommand V) → GoMap (Option V) → ℕ →
    Except StoreError Unit × Medium V
  | [], values, _ => m.putMany C values
  | cmd :: cmds, values, size =>
    let cost := walBatchCost C cmd.key cmd.value
    if 0 < size ∧ Storage.walBatchBudget < size + cost then
      match m.putMany C values with
      | (.error e, m) => (.error e, m)
      | (.ok (), m) => m.fillSets cmds (GoMap.empty.set cmd.key cmd.value) cost
    else m.fillSets cmds (values.set cmd.key cmd.value) (size + cost)

/-- `ApplyFSMSets`. -/
def applyFSMSets (cmds : List (FSMCommand V)) : Except StoreError Unit × Medium V :=
  m.fillSets C cmds GoMap.empty 0

end Medium

end Writes

/-!
## The state machine

`StorageFSM` of `internal/raft/fsm.go`: how a committed entry is applied. A
command of a table goes to the table's handler if it has one, and to the store
otherwise. A batch is applied in runs, each by one call where there is one for
it. An error says whether a later attempt may succeed; entries and elements that
fail otherwise are skipped.
-/

/-! ## Errors -/

/-- What applying a command can end with. -/
inductive ApplyError
  | store (e : StoreError)
  | decodeCommand
  | decodeBatch
  | nestedBatch
  | unknownEntryType
  | decodeMembership
  | unsupportedJudgmentOp (op : FSMOp)
  | decodeJudgment
  | unsupportedAuthCommand
  | decodeAuthChange
  | decodeAuthState
  | authState (text : String)
  /-- `retryableError`. -/
  | retryable (e : ApplyError)
  /-- Elements of a batch, with the index of the entry. -/
  | batchElements (first last index : ℕ) (e : ApplyError)
deriving DecidableEq, Repr

/-- `isRetryableApplyError`, which looks through what wraps an error. -/
def isRetryableApplyError : ApplyError → Bool
  | .retryable _ => true
  | .batchElements _ _ _ e => isRetryableApplyError e
  | _ => false

/-- What a call on the store ends with, marked as transient. -/
def retryable {α : Type} : Except StoreError α → Except ApplyError α
  | .ok a => .ok a
  | .error e => .error (.retryable (.store e))

variable {V : Type}

/-! ## Applying commands -/

/-- `CommandHandler`. -/
abbrev CommandHandler (V : Type) := FSMCommand V → Medium V → Except ApplyError Unit × Medium V

/-- `BatchCommandHandler`. The commands it applied are only used if it does not
fail. -/
abbrev BatchCommandHandler (V : Type) :=
  List (FSMCommand V) → Medium V → Except ApplyError (List (FSMCommand V)) × Medium V

/-- The hooks of the application. -/
structure Hooks (V : Type) where
  handlers : String → Option (CommandHandler V) := fun _ => none
  batchHandlers : String → Option (BatchCommandHandler V) := fun _ => none

section

variable (C : Codec V) (H : Hooks V)

/-- `applyOne`. -/
def applyOne (cmd : FSMCommand V) (m : Medium V) : Except ApplyError Unit × Medium V :=
  match if cmd.table = "" then none else H.handlers cmd.table with
  | some handler => handler cmd m
  | none =>
    let (result, m) := m.applyFSMCommand C cmd
    (retryable result, m)

/-- `plainSet`. -/
def plainSet (cmd : FSMCommand V) : Bool :=
  decide (cmd.op = .set) && (cmd.table = "" || (H.handlers cmd.table).isNone)

/-- How the elements of a run are applied. -/
inductive Run (V : Type)
  /-- One element, for itself. -/
  | element
  /-- By the batch handler of their table. -/
  | table (handler : BatchCommandHandler V)
  /-- By `ApplyFSMSets`. -/
  | sets

/-- `batchRun`: how many elements the run at the head has, and how it is
applied. -/
def batchRun : List (FSMCommand V) → ℕ × Run V
  | [] => (0, .element)
  | cmd :: rest =>
    if cmd.op = .batch then (1, .element)
    else if cmd.table ≠ "" then
      match H.batchHandlers cmd.table with
      | none => (1, .element)
      | some h =>
        (1 + (rest.takeWhile fun c => c.table = cmd.table && c.op ≠ .batch).length, .table h)
    else if plainSet H cmd then (1 + (rest.takeWhile (plainSet H)).length, .sets)
    else (1, .element)

/-- The function of a run of several elements. -/
def Run.apply (cmds : List (FSMCommand V)) (m : Medium V) : Run V →
    Except ApplyError (List (FSMCommand V)) × Medium V
  | .element => (.ok [], m)
  | .table h =>
    match h cmds m with
    | (.ok done, m) => (.ok done, m)
    | (.error e, m) => (.error (.retryable e), m)
  | .sets =>
    let (result, m) := m.applyFSMSets C cmds
    ((retryable result).map fun _ => cmds, m)

/-- An element that is applied for itself. -/
def applyElement (cmd : FSMCommand V) (m : Medium V) : Except ApplyError Unit × Medium V :=
  if cmd.op = .batch then (.error .nestedBatch, m) else applyOne C H cmd m

/-- The loop over a batch: the elements from number `i` on, and those applied so
far. An element is at least taken in every round, so as many rounds as there are
elements are enough. -/
def applyElements (index : ℕ) :
    ℕ → ℕ → List (FSMCommand V) → List (FSMCommand V) → Medium V →
      Except ApplyError (List (FSMCommand V)) × Medium V
  | _, _, [], applied, m => (.ok applied, m)
  | 0, _, _ :: _, applied, m => (.ok applied, m)
  | rounds + 1, i, cmd :: rest, applied, m =>
    let (count, run) := batchRun H (cmd :: rest)
    if 1 < count then
      match run.apply C ((cmd :: rest).take count) m with
      | (.error e, m) => (.error (.batchElements i (i + count - 1) index e), m)
      | (.ok done, m) =>
        applyElements index rounds (i + count) ((cmd :: rest).drop count) (applied ++ done) m
    else
      match applyElement C H cmd m with
      | (.ok (), m) => applyElements index rounds (i + 1) rest (applied ++ [cmd]) m
      | (.error e, m) =>
        if isRetryableApplyError e then (.error (.batchElements i i index e), m)
        else applyElements index rounds (i + 1) rest applied m

/-- The loop over a batch, from the start. -/
def applyBatch (index : ℕ) (batch : List (FSMCommand V)) (m : Medium V) :
    Except ApplyError (List (FSMCommand V)) × Medium V :=
  applyElements C H index batch.length 0 batch [] m

end

/-! ## The machine -/

/-- `core.LogEntryType`. -/
inductive LogEntryType
  | command
  | noOp
  | configuration
  | membershipChange
  | other (n : ℕ)
deriving DecidableEq, Repr

/-- `core.RaftLogEntry`, as far as the state machine reads it. -/
structure LogEntry (V : Type) where
  index : ℕ
  type : LogEntryType
  data : V

/-- `StorageFSM`. -/
structure StorageFSM where
  index : ℕ := 0
  tableIndex : String → ℕ := fun _ => 0

namespace StorageFSM

variable (f : StorageFSM)

/-- `noteTable`. -/
def noteTable (table : String) (index : ℕ) : StorageFSM :=
  if table = "" then f
  else if f.tableIndex table < index then
    { f with tableIndex := fun t => if t = table then index else f.tableIndex t }
  else f

/-- `TableIndex`. -/
def TableIndex (table : String) : ℕ := f.tableIndex table

/-- `SetLastApplied`. -/
def setLastApplied (index : ℕ) : StorageFSM := { f with index := index }

variable (C : Codec V) (H : Hooks V)

/-- The elements of a batch, which come from where the batch comes from unless
they say otherwise. -/
def withOrigin (origin : String) (batch : List (FSMCommand V)) : List (FSMCommand V) :=
  batch.map fun cmd => if cmd.origin = "" then { cmd with origin := origin } else cmd

/-- `applyCommand`: the commands that reached the store. -/
def applyCommand (log : LogEntry V) (m : Medium V) :
    Except ApplyError (List (FSMCommand V)) × StorageFSM × Medium V :=
  match C.decodeCommand log.data with
  | none => (.error .decodeCommand, f, m)
  | some cmd =>
    if cmd.op ≠ .batch then
      let f := f.noteTable cmd.table log.index
      match applyOne C H cmd m with
      | (.error e, m) => (.error e, f, m)
      | (.ok (), m) => (.ok [cmd], f.setLastApplied log.index, m)
    else
      match C.decodeBatch cmd.value with
      | none => (.error .decodeBatch, f, m)
      | some batch =>
        let batch := withOrigin cmd.origin batch
        let f := batch.foldl (fun f cmd => f.noteTable cmd.table log.index) f
        match applyBatch C H log.index batch m with
        | (.error e, m) => (.error e, f, m)
        | (.ok applied, m) => (.ok applied, f.setLastApplied log.index, m)

/-- `applyConfiguration`. -/
def applyConfiguration (log : LogEntry V) (m : Medium V) :
    Except ApplyError (List (FSMCommand V)) × StorageFSM × Medium V :=
  match m.put C (Storage.ascii "raft/config/" ++ Storage.decimal log.index) (some log.data) with
  | (.error e, m) => (.error (.retryable (.store e)), f, m)
  | (.ok (), m) => (.ok [], f.setLastApplied log.index, m)

/-- `apply`. -/
def apply (log : LogEntry V) (m : Medium V) :
    Except ApplyError (List (FSMCommand V)) × StorageFSM × Medium V :=
  if log.index ≤ f.index then (.ok [], f, m)
  else
    match log.type with
    | .command => f.applyCommand C H log m
    | .configuration => f.applyConfiguration C log m
    | .noOp => (.ok [], f.setLastApplied log.index, m)
    | _ => (.error .unknownEntryType, f, m)

end StorageFSM

/-!
## Reads of one table

What a node keeps to answer how far a reader of one table has to have applied:
`tableReadIndex` of `internal/raft/quorum.go`, with the parts of
`processCommitted`, `handleInstallSnapshot` and `Start` in `node.go` that set
what it reads. The committed log is given. A node applies it entry by entry, and
may install a snapshot of it at any index ahead, or stop and start again with
whatever its stores hold.
-/

/-- A committed log, and what membership entries decode. -/
structure CommittedLog (V : Type) where
  entries : ℕ → LogEntryType × V
  decodesMembership : V → Bool

/-- The entry at an index. -/
def CommittedLog.entry (log : CommittedLog V) (index : ℕ) : LogEntry V :=
  ⟨index, (log.entries index).1, (log.entries index).2⟩

/-- The commands of an entry: its own, or the elements of its batch. -/
def LogEntry.commands (C : Codec V) (e : LogEntry V) : List (FSMCommand V) :=
  if e.type = .command then
    match C.decodeCommand e.data with
    | none => []
    | some cmd =>
      if cmd.op ≠ .batch then [cmd] else StorageFSM.withOrigin cmd.origin
        ((C.decodeBatch cmd.value).getD [])
  else []

/-- A node, as far as it applies the log. -/
structure Node (V : Type) where
  fsm : StorageFSM := {}
  store : Medium V := {}
  lastApplied : ℕ := 0
  tableScopeFloor : ℕ := 0
  /-- What the state machine answered to the entry after `lastApplied`, while
  `processCommitted` has not acted on it. It holds `applyMu` then. -/
  answer : Option (Except ApplyError Unit) := none

/-- What the stores of a node hold when it starts: the applied index and the log
base of the hard state, the indexes of the snapshots, and the keyspace, which a
restore from the last snapshot replaces. -/
structure Stores (V : Type) where
  hardState : Option (ℕ × ℕ) := none
  snapshots : List ℕ := []
  kv : GoMap V := GoMap.empty
  image : GoMap V := GoMap.empty

/-- What happens to a node. -/
inductive Event (V : Type)
  /-- The next entry goes to the state machine. -/
  | apply (reads writes : List Bool)
  /-- `processCommitted` acts on the answer; `persisted` is whether the hard
  state was written. -/
  | proceed (persisted : Bool)
  /-- A snapshot of the log is installed, or its restore fails and leaves some
  keyspace behind. -/
  | installSnapshot (index : ℕ) (kv : GoMap V) (restored : Bool)
  /-- The process ends and starts again. -/
  | restart (stores : Stores V) (stateIsDurable : Bool)

/-- The event leaves the process running. -/
def Event.SameProcess : Event V → Prop
  | .restart _ _ => False
  | _ => True

namespace Node

variable (C : Codec V) (H : Hooks V) (log : CommittedLog V) (n : Node V)

/-- An entry of `processCommitted`. A membership change does not go to the state
machine. -/
def apply (reads writes : List Bool) : Node V :=
  let entry := log.entry (n.lastApplied + 1)
  if entry.type = .membershipChange then
    { n with
      answer :=
        some (if log.decodesMembership entry.data then .ok () else .error .decodeMembership) }
  else
    let (result, fsm, store) :=
      n.fsm.apply C H entry { n.store with reads := reads, writes := writes }
    { n with fsm := fsm, store := store, answer := some (result.map fun _ => ()) }

/-- The rest of the loop in `processCommitted`, with `skipCommittedEntry`. -/
def proceed (persisted : Bool) : Except ApplyError Unit → Node V
  | .ok () => { n with lastApplied := n.lastApplied + 1, answer := none }
  | .error e =>
    if isRetryableApplyError e then { n with answer := none }
    else if persisted then
      { n with
        lastApplied := n.lastApplied + 1
        fsm := n.fsm.setLastApplied (n.lastApplied + 1)
        answer := none }
    else { n with answer := none }

/-- The end of `handleInstallSnapshot`, which has found the snapshot ahead of
what is applied. -/
def installSnapshot (index : ℕ) (kv : GoMap V) (restored : Bool) : Node V :=
  let n := { n with store := { n.store with kv := kv } }
  if restored then
    { n with
      fsm := n.fsm.setLastApplied index
      tableScopeFloor := if n.tableScopeFloor < index then index else n.tableScopeFloor
      lastApplied := if n.lastApplied < index then index else n.lastApplied }
  else n

/-- `restoreLatestSnapshot` after `restoreHardState`, on the node of a new
process. -/
def restoreLatestSnapshot (stores : Stores V) (stateIsDurable : Bool) : Node V :=
  let lastApplied := (stores.hardState.map Prod.fst).getD 0
  let logBase := (stores.hardState.map Prod.snd).getD 0
  let n : Node V := { store := { kv := stores.kv }, lastApplied := lastApplied }
  match stores.snapshots.max? with
  | none => n
  | some index =>
    if index < logBase then n
    else if stateIsDurable ∧ index ≤
      lastApplied then { n with fsm := n.fsm.setLastApplied lastApplied }
    else
      { store := { kv := stores.image }, lastApplied := index, fsm := n.fsm.setLastApplied index }

/-- `Start`, up to where it applies entries again. -/
def start (stores : Stores V) (stateIsDurable : Bool) : Node V :=
  let n := restoreLatestSnapshot stores stateIsDurable
  { n with tableScopeFloor := n.lastApplied }

/-- **One event.** -/
def step : Event V → Option (Node V)
  | .apply reads writes => if n.answer.isNone then some (n.apply C H log reads writes) else none
  | .proceed persisted => n.answer.map fun answer => n.proceed persisted answer
  | .installSnapshot index kv restored =>
    if n.answer.isNone ∧ n.lastApplied < index then some
      (n.installSnapshot index kv restored) else none
  | .restart stores stateIsDurable => some (start stores stateIsDurable)

/-- The events of a node that applies entries, and none above an index. -/
def stepTo (index : ℕ) : Event V → Option (Node V)
  | .apply reads writes =>
    if n.lastApplied < index then n.step C H log (.apply reads writes) else none
  | .proceed persisted => n.step C H log (.proceed persisted)
  | _ => none

end Node

/-- `tableReadIndex`, once the node has applied through `readIndex`: with the
floor and then the index of the table as it reads them. -/
def tableReadIndex (readIndex : ℕ) (table : String) (floor tableIndex : ℕ) : ℕ :=
  if table = "" then readIndex else min (max tableIndex floor) readIndex

end Anubis.Fsm
