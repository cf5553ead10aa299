import Anubis.Common.Search
import Anubis.Common.SortedAssoc
import Anubis.Storage.Model.Encryption
import Mathlib.Order.Fin.Basic

/-!
# The B+Tree of the storage engine

`btreeIndex` of `engine.go`: a tree in memory, with all entries in the leaves
and the leaves chained for scans. The leaves all have the same depth, so a
node is typed by its height. A leaf has a name, which is what the `next`
pointer of another leaf holds. A `nil` value is `none`, a tombstone.

`none` as the result of a function stands for an index out of range, where the
code panics.
-/

namespace Anubis.Storage

/-- A leaf of `btreeNode`. -/
structure Leaf (Key Val : Type) where
  id : ℕ
  keys : List Key
  values : List (Option Val)
  next : Option ℕ
deriving DecidableEq, Repr

/-- An inner `btreeNode`. -/
structure Inner (Key Child : Type) where
  keys : List Key
  children : List Child
deriving DecidableEq, Repr

/-- `btreeNode` of a given height. -/
def BTreeNode (Key Val : Type) : ℕ → Type
  | 0 => Leaf Key Val
  | h + 1 => Inner Key (BTreeNode Key Val h)

/-- `insertString`, `insertBytes` and `insertNode`. -/
def insertAt {α : Type} (slice : List α) (idx : ℕ) (val : α) : List α :=
  slice.take idx ++ val :: slice.drop idx

section Search

variable {Key : Type} [LinearOrder Key]

/-- `findKeyIndex`: the first key at or past the given one. -/
def findKeyIndex (keys : List Key) (key : Key) : ℕ :=
  Search.search keys.length fun i => (keys[i]?).any fun k => key ≤ k

/-- `findChildIndex`: the first separator past the key. -/
def findChildIndex (keys : List Key) (key : Key) : ℕ :=
  Search.search keys.length fun i => (keys[i]?).any fun k => key < k

end Search

variable {Key Val : Type}

/-- The two halves `splitChild` makes of a leaf, and the separator between
them. The separator stays in the right half, which gets the name `fresh`. -/
def Leaf.split (order fresh : ℕ) (child : Leaf Key Val) :
    Option (Leaf Key Val × Key × Leaf Key Val) := do
  let mid := (order - 1) / 2
  let separator ← child.keys[mid + 1]?
  let newNode : Leaf Key Val :=
    { id := fresh
      keys := child.keys.drop (mid + 1)
      values := child.values.drop (mid + 1)
      next := child.next }
  let child : Leaf Key Val :=
    { child with
      keys := child.keys.take (mid + 1)
      values := child.values.take (mid + 1)
      next := some fresh }
  return (child, separator, newNode)

/-- The two halves `splitChild` makes of an inner node, and the separator
between them. The separator is moved up: it is in neither. -/
def Inner.split {Child : Type} (order : ℕ) (child : Inner Key Child) :
    Option (Inner Key Child × Key × Inner Key Child) := do
  let mid := (order - 1) / 2
  let separator ← child.keys[mid]?
  return (⟨child.keys.take mid, child.children.take (mid + 1)⟩, separator,
    ⟨child.keys.drop (mid + 1), child.children.drop (mid + 1)⟩)

namespace BTreeNode

/-- How many keys a node has. -/
def size : {h : ℕ} → BTreeNode Key Val h → ℕ
  | 0, n => (Leaf.keys n).length
  | _ + 1, n => (Inner.keys n).length

/-- The two cases of `splitChild`. -/
def split (order fresh : ℕ) : {h : ℕ} → BTreeNode Key Val h →
    Option (BTreeNode Key Val h × Key × BTreeNode Key Val h)
  | 0, n => Leaf.split order fresh n
  | _ + 1, n => Inner.split order n

/-- `splitChild`. -/
def splitChild {h : ℕ} (n : Inner Key (BTreeNode Key Val h)) (idx order fresh : ℕ) :
    Option (Inner Key (BTreeNode Key Val h)) := do
  let child ← n.children[idx]?
  let (child, separator, newNode) ← child.split order fresh
  return ⟨insertAt n.keys idx separator, insertAt (n.children.set idx child) (idx + 1) newNode⟩

/-- The leaves from left to right. -/
def leaves : {h : ℕ} → BTreeNode Key Val h → List (Leaf Key Val)
  | 0, n => [n]
  | h + 1, n => (Inner.children n).flatMap fun child : BTreeNode Key Val h => child.leaves

/-- The leftmost leaf. -/
def firstLeaf : {h : ℕ} → BTreeNode Key Val h → Option (Leaf Key Val)
  | 0, n => some n
  | h + 1, n => do
    let child : BTreeNode Key Val h ← (Inner.children n)[0]?
    child.firstLeaf

variable [LinearOrder Key]

/-- `insertNonFull` on a leaf. -/
def insertLeaf (n : Leaf Key Val) (key : Key) (value : Option Val) : Leaf Key Val :=
  let idx := findKeyIndex n.keys key
  if n.keys[idx]? = some key then { n with values := n.values.set idx value }
  else { n with keys := insertAt n.keys idx key, values := insertAt n.values idx value }

/-- `insertNonFull`. The names from `fresh` on are free, and so they are after
it from the number it returns. -/
def insertNonFull (key : Key) (value : Option Val) (order : ℕ) : {h : ℕ} → BTreeNode Key Val h → ℕ →
    Option (BTreeNode Key Val h × ℕ)
  | 0, n, fresh => some (insertLeaf n key value, fresh)
  | h + 1, n, fresh => do
    let n : Inner Key (BTreeNode Key Val h) := n
    let idx := findChildIndex n.keys key
    let child ← n.children[idx]?
    if order - 1 ≤ child.size then
      let n ← splitChild n idx order fresh
      let separator ← n.keys[idx]?
      let idx := if separator ≤ key then idx + 1 else idx
      let child ← n.children[idx]?
      let (child, fresh) ← child.insertNonFull key value order (fresh + 1)
      return ({ n with children := n.children.set idx child }, fresh)
    else
      let (child, fresh) ← child.insertNonFull key value order fresh
      return ({ n with children := n.children.set idx child }, fresh)

/-- The descent of `Get`. It ends where there is no child. -/
def findLeaf (key : Key) : {h : ℕ} → BTreeNode Key Val h → Option (Leaf Key Val)
  | 0, n => some n
  | h + 1, n => do
    let n : Inner Key (BTreeNode Key Val h) := n
    let child ← n.children[findChildIndex n.keys key]?
    child.findLeaf key

/-- The descent of the scans. Where there is no child it takes the last
one. -/
def seekLeaf (key : Key) : {h : ℕ} → BTreeNode Key Val h → Option (Leaf Key Val)
  | 0, n => some n
  | h + 1, n =>
    let n : Inner Key (BTreeNode Key Val h) := n
    match n.children[findChildIndex n.keys key]? with
    | some child => child.seekLeaf key
    | none => do
      let child ← n.children.getLast?
      child.seekLeaf key

end BTreeNode

/-- `btreeIndex`, with an order that `NewEngine` lets through. -/
structure BTreeIndex (Key Val : Type) where
  order : ℕ
  order_ge : 4 ≤ order
  height : ℕ
  root : BTreeNode Key Val height
  fresh : ℕ

namespace BTreeIndex

/-- An index without entries: its root is an empty leaf. -/
def empty (order : ℕ) (h : 4 ≤ order) : BTreeIndex Key Val :=
  { order := order, order_ge := h, height := 0
    root := (⟨0, [], [], none⟩ : Leaf Key Val), fresh := 1 }

/-- `insert`. A full root is split first. -/
def insert [LinearOrder Key] (t : BTreeIndex Key Val) (key : Key) (value : Option Val) :
    Option (BTreeIndex Key Val) := do
  if t.order - 1 ≤ t.root.size then
    let root : BTreeNode Key Val (t.height + 1) ← BTreeNode.splitChild
      ⟨[], [t.root]⟩ 0 t.order t.fresh
    let (root, fresh) ← root.insertNonFull key value t.order (t.fresh + 1)
    return { t with height := t.height + 1, root := root, fresh := fresh }
  else
    let (root, fresh) ← t.root.insertNonFull key value t.order t.fresh
    return { t with root := root, fresh := fresh }

/-- The leaves a `next` pointer leads to, one after another. -/
def follow (leaves : List (Leaf Key Val)) : ℕ → Option ℕ → List (Leaf Key Val)
  | _, none => []
  | 0, _ => []
  | fuel + 1, some id =>
    match leaves.find? fun l => l.id = id with
    | none => []
    | some l => l :: follow leaves fuel l.next

/-- The leaves after a leaf in the chain. No chain is longer than there are
leaves. -/
def after (t : BTreeIndex Key Val) (l : Leaf Key Val) : List (Leaf Key Val) :=
  follow t.root.leaves t.root.leaves.length l.next

end BTreeIndex

end Anubis.Storage

/-!
## The storage engine

`CobaltDB` of `engine.go` over its B+Tree: the reads, the writes and the
compaction of the tree that ends a checkpoint. What the write-ahead log says
to an append is an argument of a write, as are the random numbers of the
encryption. `none` is a panic.

A Go map is the sorted list of its bindings, so sorting its keys is the
identity. A `nil` slice is `none`.
-/

namespace Anubis.Storage

/-- The keys of the store are strings. -/
abbrev Key := Bytes

/-- A Go map with string keys. -/
abbrev GoMap (β : Type) := { l : List (Key × β) // SortedAssoc.Sorted l }

/-- The errors of the operations. -/
inductive EngineError
  | closed
  | notFound (id : Key)
  | encryptionFailed
  | decrypt (key : Key)
  | walAppendFailed
  | walBatchAppendFailed
  | walBatchDeleteFailed
  | checkpointFailed
  | prefixScan (start : Key) (cause : EngineError)
  | rangeScan (start stop : Key) (cause : EngineError)
deriving DecidableEq, Repr

/-- `CobaltDB`. -/
structure CobaltDB where
  data : BTreeIndex Key Bytes
  encryptor : Option Encryptor
  closed : Bool

/-- The order `NewEngine` takes from the configuration. -/
def btreeOrder (configured : ℤ) : ℕ :=
  if 0 < configured then
    if configured < 4 then 4
    else if 256 < configured then 256
    else configured.toNat
  else 32

theorem four_le_btreeOrder (configured : ℤ) : 4 ≤ btreeOrder configured := by
  unfold btreeOrder
  split
  · split
    · omega
    · split <;> omega
  · omega

namespace CobaltDB

/-- `NewEngine` on an empty directory. -/
def newEngine (configured : ℤ) (encryptor : Option Encryptor) : CobaltDB :=
  { data := BTreeIndex.empty (btreeOrder configured) (four_le_btreeOrder configured)
    encryptor := encryptor
    closed := false }

/-- `decodeStoredValue`. -/
def decodeStoredValue (db : CobaltDB) (key : Key) (value : Bytes) : Except EngineError Bytes :=
  match db.encryptor with
  | none => .ok value
  | some e =>
    match e.decrypt value with
    | some decrypted => .ok decrypted
    | none => .error (.decrypt key)

/-- `Get`. -/
def get (db : CobaltDB) (key : Key) : Option (Except EngineError Bytes) :=
  if db.closed then some (.error .closed)
  else
    match db.data.root.findLeaf key with
    | none => some (.error (.notFound key))
    | some node =>
      let idx := findKeyIndex node.keys key
      if node.keys[idx]? = some key then
        (node.values[idx]?).map fun
          | none => .error (.notFound key)
          | some value => db.decodeStoredValue key value
      else some (.error (.notFound key))

/-! ## Scans -/

/-- What a scan does with a key. -/
inductive Visit
  | take
  | skip
  | stop
deriving DecidableEq, Repr

/-- `List` and `PrefixScan`: keys are sorted, so after a larger key without the
prefix there are no more matches. -/
def visitPrefix (start : Key) (key : Key) : Visit :=
  if start.isPrefixOf key then .take
  else if start < key then .stop
  else .skip

/-- `RangeScan`. -/
def visitRange (start stop : Key) (key : Key) : Visit :=
  if start ≤ key then
    if stop ≤ key then .stop else .take
  else .skip

section Scan

variable {σ : Type} (visit : Key → Visit) (collect : σ → Key → Bytes → Except EngineError σ)

/-- The loop over the keys of a leaf. On the left the scan goes on, on the
right it has returned. -/
def scanLeaf : List Key → List (Option Bytes) → σ → Option (σ ⊕ Except EngineError σ)
  | [], _, acc => some (.inl acc)
  | _ :: _, [], _ => none
  | key :: keys, value :: values, acc =>
    match visit key with
    | .skip => scanLeaf keys values acc
    | .stop => some (.inr (.ok acc))
    | .take =>
      match value with
      | none => scanLeaf keys values acc
      | some value =>
        match collect acc key value with
        | .ok acc => scanLeaf keys values acc
        | .error e => some (.inr (.error e))

/-- The loop over the leaves. -/
def scanLeaves : List (Leaf Key Bytes) → σ → Option (Except EngineError σ)
  | [], acc => some (.ok acc)
  | node :: nodes, acc =>
    match scanLeaf visit collect node.keys node.values acc with
    | none => none
    | some (.inl acc) => scanLeaves nodes acc
    | some (.inr r) => some r

end Scan

/-- The leaf from an index on. -/
def dropKeys (node : Leaf Key Bytes) (n : ℕ) : Leaf Key Bytes :=
  { node with keys := node.keys.drop n, values := node.values.drop n }

/-- `List`. -/
def list (db : CobaltDB) (start : Key) : Option (Except EngineError (List Key)) :=
  if db.closed then some (.error .closed)
  else
    match db.data.root.seekLeaf start with
    | none => some (.ok [])
    | some node =>
      scanLeaves (visitPrefix start) (fun keys key _ => .ok (keys ++ [key]))
        (dropKeys node (findKeyIndex node.keys start) :: db.data.after node) []

/-- `PrefixScan`. -/
def prefixScan (db : CobaltDB) (start : Key) : Option (Except EngineError (List (Key × Bytes))) :=
  if db.closed then some (.error .closed)
  else
    match db.data.root.seekLeaf start with
    | none => some (.ok [])
    | some node =>
      scanLeaves (visitPrefix start)
        (fun result key value =>
          match db.decodeStoredValue key value with
          | .ok value => .ok (SortedAssoc.upsert key value result)
          | .error e => .error (.prefixScan start e))
        (dropKeys node (findKeyIndex node.keys start) :: db.data.after node) []

/-- `RangeScan`, which starts at the first key of its first leaf. -/
def rangeScan (db : CobaltDB) (start stop : Key) :
    Option (Except EngineError (List (Key × Bytes))) :=
  if db.closed then some (.error .closed)
  else
    match db.data.root.seekLeaf start with
    | none => some (.ok [])
    | some node =>
      scanLeaves (visitRange start stop)
        (fun result key value =>
          match db.decodeStoredValue key value with
          | .ok value => .ok (SortedAssoc.upsert key value result)
          | .error e => .error (.rangeScan start stop e))
        (node :: db.data.after node) []

/-! ## Writes -/

/-- What an operation leaves behind and returns. -/
abbrev Outcome := Option (CobaltDB × Except EngineError Unit)

/-- An operation that failed before it wrote anything. -/
def failed (db : CobaltDB) (e : EngineError) : Outcome := some (db, .error e)

/-- A value as it is stored: encrypted, if encryption is on. -/
def storeValue (db : CobaltDB) (random : Option Draw) (value : Option Bytes) :
    Option (Option Bytes) :=
  match db.encryptor with
  | none => some value
  | some e => (e.encrypt random (value.getD [])).map some

/-- Inserts entries one after another. -/
def insertAll (t : BTreeIndex Key Bytes) : List (Key × Option Bytes) → Option (BTreeIndex Key Bytes)
  | [] => some t
  | (key, value) :: entries => do
    let t ← t.insert key value
    insertAll t entries

/-- The tree with entries inserted, as the result of an operation. -/
def publish (db : CobaltDB) (entries : List (Key × Option Bytes)) : Outcome := do
  let data ← insertAll db.data entries
  return ({ db with data := data }, .ok ())

/-- `Put`. -/
def put (db : CobaltDB) (random : Option Draw) (wal : Bool) (key : Key) (value : Option Bytes) :
    Outcome :=
  if db.closed then failed db .closed
  else
    match db.storeValue random value with
    | none => failed db .encryptionFailed
    | some stored => if wal then publish db [(key, stored)] else failed db .walAppendFailed

/-- `putMany`. Every value is encrypted before anything is written. -/
def putMany (db : CobaltDB) (random : Key → Option Draw) (wal : Bool)
    (values : GoMap (Option Bytes)) : Outcome :=
  if db.closed then failed db .closed
  else if values.1 = [] then some (db, .ok ())
  else
    match values.1.mapM fun (key, value) => (db.storeValue (random key) value).map (key, ·) with
    | none => failed db .encryptionFailed
    | some stored => if wal then publish db stored else failed db .walBatchAppendFailed

/-- `Delete`. -/
def delete (db : CobaltDB) (wal : Bool) (key : Key) : Outcome :=
  if db.closed then failed db .closed
  else if wal then publish db [(key, none)]
  else failed db .walAppendFailed

/-- `deleteMany`. -/
def deleteMany (db : CobaltDB) (wal : Bool) (keys : List Key) : Outcome :=
  if db.closed then failed db .closed
  else if keys = [] then some (db, .ok ())
  else if wal then publish db ((keys.mergeSort (· ≤ ·)).map (·, none))
  else failed db .walBatchDeleteFailed

/-- The loop of `DeletePrefix`: it ends at the first key that is not
deleted. -/
def deleteEach (db : CobaltDB) (wal : Key → Bool) : List Key → Outcome
  | [] => some (db, .ok ())
  | key :: keys =>
    match db.delete (wal key) key with
    | none => none
    | some (db, .error e) => failed db e
    | some (db, .ok ()) => deleteEach db wal keys

/-- `DeletePrefix`. -/
def deletePrefix (db : CobaltDB) (wal : Key → Bool) (start : Key) : Outcome :=
  if db.closed then failed db .closed
  else
    match db.list start with
    | none => none
    | some (.error e) => failed db e
    | some (.ok keys) => deleteEach db wal keys

/-- The live entries, found from the leftmost leaf along the chain. -/
def liveEntries (t : BTreeIndex Key Bytes) : Option (List (Key × Option Bytes)) :=
  match t.root.firstLeaf with
  | none => some []
  | some node =>
    let collect := scanLeaves (fun _ => .take) (fun live key value =>
      .ok (live ++ [(key, some value)]))
      (node :: t.after node) []
    match collect with
    | some (.ok live) => some live
    | _ => none

/-- `compactTree`. -/
def compactTree (db : CobaltDB) : Option CobaltDB := do
  let live ← liveEntries db.data
  let data ← insertAll (BTreeIndex.empty db.data.order db.data.order_ge) live
  return { db with data := data }

/-- `Checkpoint`: the tree is compacted once the new log is in place. -/
def checkpoint (db : CobaltDB) (wal : Bool) : Outcome :=
  if db.closed then failed db .closed
  else if wal then do
    let db ← db.compactTree
    return (db, .ok ())
  else failed db .checkpointFailed

/-- The operations that write, with what happens around them. -/
inductive Op
  | put (random : Option Draw) (wal : Bool) (key : Key) (value : Option Bytes)
  | putMany (random : Key → Option Draw) (wal : Bool) (values : GoMap (Option Bytes))
  | delete (wal : Bool) (key : Key)
  | deleteMany (wal : Bool) (keys : List Key)
  | deletePrefix (wal : Key → Bool) (start : Key)
  | checkpoint (wal : Bool)

/-- One operation. -/
def step (db : CobaltDB) : Op → Outcome
  | .put random wal key value => db.put random wal key value
  | .putMany random wal values => db.putMany random wal values
  | .delete wal key => db.delete wal key
  | .deleteMany wal keys => db.deleteMany wal keys
  | .deletePrefix wal start => db.deletePrefix wal start
  | .checkpoint wal => db.checkpoint wal

/-- A sequence of operations, with what they return. -/
def run (db : CobaltDB) : List Op → Option (CobaltDB × List (Except EngineError Unit))
  | [] => some (db, [])
  | op :: ops => do
    let (db, r) ← db.step op
    let (db, rs) ← db.run ops
    return (db, r :: rs)

end CobaltDB

end Anubis.Storage
