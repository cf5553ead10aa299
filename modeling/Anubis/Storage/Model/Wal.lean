import Anubis.Common.Base64
import Anubis.Common.Crc32
import Anubis.Storage.Model.Engine

/-!
# The write-ahead log

`writeAheadLog` of `engine.go` and the recovery from it. An entry is written as
a frame: the length of its JSON text in four bytes, then the text. `encoding/json`
is a parameter. What the log relies on is stated as laws: printable text, a
text decodes to what was encoded, and neither a text that is cut off nor one
with a zero byte decodes.

A disk that refuses a write, a sync or the cut of a partial frame is an
argument of `append`. The disk works while the store is opened.
-/

namespace Anubis.Storage

open CobaltDB

/-- The bytes of a text in ASCII. -/
def ascii (s : String) : Bytes := s.toList.map fun c => Fin.ofNat 256 c.toNat

/-- A number in decimal. -/
def decimal (n : ℤ) : Bytes :=
  let digits := (Nat.toDigits 10 n.natAbs).map fun c => Fin.ofNat 256 c.toNat
  if n < 0 then ascii "-" ++ digits else digits

/-- `maxWALEntryBytes`. -/
def maxWALEntryBytes : ℕ := 1024 * 1024

/-- The field `Op` of an entry. The log writes the first three. -/
inductive WalOp
  | put
  | delete
  | batch
  | other (name : Bytes)
deriving DecidableEq, Repr

/-- `walEntry`. A checksum of zero is an entry without one. -/
structure WalEntry where
  op : WalOp
  key : Key
  value : Option Bytes
  time : Int64
  crc32 : BitVec 32
deriving DecidableEq

/-- A letter, which stands for itself in any text. -/
def isLetter (b : Byte) : Prop := 97 ≤ b.val ∧ b.val ≤ 122

/-- How `encoding/json` writes strings. -/
structure JsonText where
  validUTF8 : Bytes → Prop
  quote : Bytes → Bytes
  validUTF8_letters : ∀ s, (∀ b ∈ s, isLetter b) → validUTF8 s
  quote_letters : ∀ s, (∀ b ∈ s, isLetter b) → quote s = ascii "\"" ++ s ++ ascii "\""
  quote_printable : ∀ s, ∀ b ∈ quote s, 32 ≤ b.val

/-- The string of an operation, with its quotation marks. -/
def WalOp.text (J : JsonText) : WalOp → Bytes
  | .put => ascii "\"PUT\""
  | .delete => ascii "\"DELETE\""
  | .batch => ascii "\"BATCH\""
  | .other name => J.quote name

/-- `json.Marshal` of an entry. A `nil` value and a zero checksum are left
out. -/
def WalEntry.marshal (J : JsonText) (e : WalEntry) : Bytes :=
  ascii "\x7b\"op\":" ++ e.op.text J ++ ascii ",\"key\":" ++ J.quote e.key ++
    (match e.value with
      | none => []
      | some v => ascii ",\"value\":\"" ++ Base64.encode v ++ ascii "\"") ++
    ascii ",\"time\":" ++ decimal e.time.toInt ++
    (if e.crc32 = 0 then [] else ascii ",\"crc32\":" ++ decimal e.crc32.toNat) ++ ascii "\x7d"

/-- An entry that survives its encoding. -/
structure WalEntry.Encodable (J : JsonText) (e : WalEntry) : Prop where
  key : J.validUTF8 e.key
  op : ∀ name, e.op ≠ .other name

/-- `encoding/json`, as far as the log uses it. -/
structure Json extends JsonText where
  unmarshal : Bytes → Option WalEntry
  unmarshal_marshal : ∀ e : WalEntry, e.Encodable toJsonText →
    unmarshal (e.marshal toJsonText) = some e
  unmarshal_cut : ∀ e : WalEntry, e.Encodable toJsonText → ∀ n < (e.marshal toJsonText).length,
    unmarshal ((e.marshal toJsonText).take n) = none
  unmarshal_zero : ∀ data : Bytes, 0 ∈ data → unmarshal data = none
  marshalMap : List (Key × Option Bytes) → Bytes
  unmarshalMap : Bytes → Option (Option (List (Key × Option Bytes)))
  unmarshalMap_marshalMap : ∀ m : List (Key × Option Bytes), SortedAssoc.Sorted m →
    (∀ x ∈ m, validUTF8 x.1) → unmarshalMap (marshalMap m) = some (some m)

section

variable (J : Json)

/-- `walChecksum`. -/
def walChecksum (entry : WalEntry) : BitVec 32 :=
  Crc32.checksum ({ entry with crc32 := 0 }.marshal J.toJsonText)

/-- The four bytes in front of an entry. -/
def lengthPrefix (n : ℕ) : Bytes :=
  [Fin.ofNat 256 (n / 2 ^ 24), Fin.ofNat 256 (n / 2 ^ 16), Fin.ofNat 256 (n / 2 ^ 8),
    Fin.ofNat 256 n]

/-- An entry as it is in the file. -/
def frame (entry : WalEntry) : Bytes :=
  let data := entry.marshal J.toJsonText
  lengthPrefix data.length ++ data

/-- The bytes `writeEntryLocked` writes, if the entry is not too large. -/
def writeEntry (entry : WalEntry) : Option Bytes :=
  let entry := { entry with crc32 := walChecksum J entry }
  if maxWALEntryBytes < (entry.marshal J.toJsonText).length then none
  else some (frame J entry)

end

/-- What the disk does with a frame: `written` bytes if the write fails,
whether the sync succeeds, and whether a failed frame can be cut off. -/
structure Disk where
  written : Option ℕ
  synced : Bool
  truncated : Bool

/-- `writeAheadLog`. -/
structure Wal where
  file : Bytes
  size : ℕ
  broken : Bool

namespace Wal

/-- `Truncate` to the size of the log. -/
def truncate (w : Wal) (file : Bytes) (truncated : Bool) : Bytes :=
  if truncated then file.take w.size else file

/-- `appendLocked`. The second part says that the entry is durable. -/
def append (J : Json) (w : Wal) (entry : WalEntry) (disk : Disk) : Wal × Bool :=
  if w.broken then (w, false)
  else
    match writeEntry J entry with
    | none => ({ w with broken := !disk.truncated }, false)
    | some buf =>
      match disk.written with
      | none =>
        let file := w.file ++ buf
        if disk.synced then ({ w with file := file, size := w.size + buf.length }, true)
        else ({ w with file := w.truncate file disk.truncated, broken := true }, false)
      | some n =>
        let file := w.file ++ buf.take n
        ({ w with file := w.truncate file disk.truncated, broken := !disk.truncated }, false)

end Wal

/-! ## Recovery -/

/-- Why no entry starts at an offset. -/
inductive Damage
  | lengthPrefix
  | lengthRange
  | entryBody
  | entryDecode
  | checksumMismatch
deriving DecidableEq, Repr

/-- The errors of `recoverFromWAL`. -/
inductive RecoverError
  | damaged (offset : ℕ) (reason : Damage)
  | invalidBatch
  | nullBatch
  | checkpointFailed
deriving DecidableEq, Repr

section Recovery

variable (J : Json) (file : Bytes)

/-- The byte at an offset. -/
def byteAt (off : ℕ) : ℕ := ((file[off]?).map Fin.val).getD 0

/-- The number in the four bytes at an offset. -/
def lengthAt (off : ℕ) : ℕ :=
  byteAt file off * 2 ^ 24 + byteAt file (off + 1) * 2 ^ 16 + byteAt file (off + 2) * 2 ^ 8 +
    byteAt file (off + 3)

/-- `readWALEntryAt`: the entry and its size, or why there is none. -/
def readWALEntryAt (offset : ℕ) : Except Damage (WalEntry × ℕ) :=
  if file.length < offset + 4 then .error .lengthPrefix
  else
    let length := lengthAt file offset
    if length = 0 ∨ maxWALEntryBytes < length then .error .lengthRange
    else if file.length < offset + 4 + length then .error .entryBody
    else
      match J.unmarshal ((file.drop (offset + 4)).take length) with
      | none => .error .entryDecode
      | some entry => .ok (entry, 4 + length)

/-- An entry with a checksum that matches. -/
def verified : Except Damage (WalEntry × ℕ) → Bool
  | .error _ => false
  | .ok (entry, _) => entry.crc32 ≠ 0 ∧ walChecksum J entry = entry.crc32

/-- What `findNextWALEntry` looks for: a plausible length, an opening brace,
and a verified entry. -/
def startsEntry (off : ℕ) : Bool :=
  off + 4 < file.length ∧ byteAt file off = 0 ∧ lengthAt file off ≠ 0 ∧
    lengthAt file off ≤ maxWALEntryBytes ∧ off + 4 + lengthAt file off ≤ file.length ∧
    byteAt file (off + 4) = 123 ∧ verified J (readWALEntryAt J file off) = true

/-- `findNextWALEntry`. -/
def findNextWALEntry (start : ℕ) : Option ℕ :=
  (List.range' start (file.length - start)).find? (startsEntry J file)

/-- The replay of one entry. -/
def replayEntry (entry : WalEntry) (t : BTreeIndex Key Bytes) :
    Option (Except RecoverError (BTreeIndex Key Bytes)) :=
  match entry.op with
  | .put => (t.insert entry.key entry.value).map .ok
  | .delete => (t.insert entry.key none).map .ok
  | .batch =>
    match entry.value.bind J.unmarshalMap with
    | none => some (.error .invalidBatch)
    | some none => some (.error .nullBatch)
    | some (some values) => (insertAll t values).map .ok
  | .other _ => some (.ok t)

/-- The loop of `recoverFromWAL`. Every round moves on, so the length of the
file bounds their number. -/
def replay (allowSkip : Bool) : ℕ → ℕ → BTreeIndex Key Bytes →
    Option (Except RecoverError (BTreeIndex Key Bytes))
  | 0, _, t => some (.ok t)
  | fuel + 1, offset, t =>
    if offset < file.length then
      match readWALEntryAt J file offset with
      | .error reason =>
        match findNextWALEntry J file (offset + 1) with
        | none => some (.ok t)
        | some next =>
          if allowSkip then replay allowSkip fuel next t else some (.error (.damaged offset reason))
      | .ok (entry, size) =>
        if entry.crc32 ≠ 0 ∧ walChecksum J entry ≠ entry.crc32 then
          match findNextWALEntry J file (offset + size) with
          | none => some (.ok t)
          | some _ =>
            if allowSkip then replay allowSkip fuel (offset + size) t
            else some (.error (.damaged offset .checksumMismatch))
        else
          match replayEntry J entry t with
          | none => none
          | some (.error e) => some (.error e)
          | some (.ok t) => replay allowSkip fuel (offset + size) t
    else some (.ok t)

/-- A live entry as it is written to the clean log. -/
def putEntry (now : Int64) (x : Key × Option Bytes) : WalEntry :=
  { op := .put, key := x.1, value := x.2, time := now, crc32 := 0 }

/-- `writeCompact` and `installCompactLocked`: the new log, if every entry can
be written. -/
def writeCompact (entries : List WalEntry) : Option Wal :=
  (entries.mapM (writeEntry J)).map fun frames => ⟨frames.flatten, frames.flatten.length, false⟩

/-- `recoverFromWAL` with an empty tree of the given order: the tree and the
clean log it leaves. -/
def recoverFromWAL (allowSkip : Bool) (configured : ℤ) (now : Int64) :
    Option (Except RecoverError (BTreeIndex Key Bytes × Wal)) :=
  match replay J file allowSkip (file.length + 1) 0
      (BTreeIndex.empty (btreeOrder configured) (four_le_btreeOrder configured)) with
  | none => none
  | some (.error e) => some (.error e)
  | some (.ok t) => do
    let recovered ← liveEntries t
    match writeCompact J (recovered.map (putEntry now)) with
    | none => return .error .checkpointFailed
    | some wal => return .ok (t, wal)

end Recovery

/-! ## The store with its log -/

/-- The writes that are logged. -/
inductive Write
  | put (random : Option Draw) (key : Key) (value : Option Bytes)
  | putMany (random : Key → Option Draw) (values : GoMap (Option Bytes))
  | delete (key : Key)
  | deleteMany (keys : List Key)

/-- The operation on the tree, once the log has answered. -/
def Write.op (wal : Bool) : Write → Op
  | .put random key value => .put random wal key value
  | .putMany random values => .putMany random wal values
  | .delete key => .delete wal key
  | .deleteMany keys => .deleteMany wal keys

/-- The map of tombstones `deleteMany` logs. -/
def tombstones (keys : List Key) : List (Key × Option Bytes) :=
  keys.foldl (fun m k => SortedAssoc.upsert k none m) []

/-- The entry a write appends. Nothing is appended by a write that fails before
it, or that has nothing to write. -/
def Write.entry (J : Json) (db : CobaltDB) (now : Int64) (w : Write) : Option WalEntry :=
  if db.closed then none
  else
    match w with
    | .put random key value =>
      (db.storeValue random value).map fun stored => ⟨.put, key, stored, now, 0⟩
    | .putMany random values =>
      if values.1 = [] then none
      else
        (values.1.mapM fun (key, value) => (db.storeValue (random key) value).map (key, ·)).map
        fun stored =>
          ⟨.batch, [], some (J.marshalMap stored), now, 0⟩
    | .delete key => some ⟨.delete, key, none, now, 0⟩
    | .deleteMany keys =>
      if keys = [] then none
      else some ⟨.batch, [], some (J.marshalMap (tombstones keys)), now, 0⟩

/-- The store and its log. -/
structure Store where
  db : CobaltDB
  wal : Wal

namespace Store

/-- `NewEngine` on an empty directory. -/
def newEngine (configured : ℤ) (encryptor : Option Encryptor) : Store :=
  ⟨CobaltDB.newEngine configured encryptor, ⟨[], 0, false⟩⟩

/-- A write: first to the log, then to the tree. -/
def write (J : Json) (s : Store) (w : Write) (now : Int64) (disk : Disk) :
    Option (Store × Except EngineError Unit) :=
  match w.entry J s.db now with
  | none => (s.db.step (w.op true)).map fun r => (⟨r.1, s.wal⟩, r.2)
  | some entry =>
    let (wal, ok) := s.wal.append J entry disk
    (s.db.step (w.op ok)).map fun r => (⟨r.1, wal⟩, r.2)

/-- The log of `Checkpoint`: the entries of the tree at its beginning, and what was
appended until its end. -/
def checkpoint (J : Json) (s s' : Store) (now : Int64) : Option Wal :=
  if s.db.closed ∨ s.wal.broken ∨ s'.wal.broken then none
  else do
    let entries ← liveEntries s.db.data
    let wal ← writeCompact J (entries.map (putEntry now))
    let tail := (s'.wal.file.drop s.wal.size).take (s'.wal.size - s.wal.size)
    return ⟨wal.file ++ tail, wal.size + tail.length, false⟩

end Store

/-!
## The text of a map

`json.Marshal` of a `map[string][]byte`, which is what a batch of writes is
logged as: the pairs in the order of their keys, each value in base64, `null`
for a `nil` slice. Strings are quoted as before; what is said of them in
addition is that printable ASCII stands for itself, apart from the characters
`encoding/json` escapes.
-/

/-- A byte that stands for itself in a JSON string: not a control character, no
quotation mark, backslash, ampersand or angle bracket, and ASCII. -/
def isPlain (b : Byte) : Prop := 32 ≤ b.val ∧ b.val ≤ 126 ∧ b ≠ 34 ∧ b ≠ 38 ∧ b ≠ 60 ∧
    b ≠ 62 ∧ b ≠ 92

instance (b : Byte) : Decidable (isPlain b) := by
  unfold isPlain
  infer_instance

/-- The text of a byte slice. -/
def bytesText : Option Bytes → Bytes
  | none => ascii "null"
  | some v => ascii "\"" ++ Base64.encode v ++ ascii "\""

section

variable (T : JsonText)

/-- A key and its value. -/
def pairText (x : Key × Option Bytes) : Bytes := T.quote x.1 ++ ascii ":" ++ bytesText x.2

/-- The pairs, with commas in between. -/
def pairsText : List (Key × Option Bytes) → Bytes
  | [] => []
  | [x] => pairText T x
  | x :: y :: rest => pairText T x ++ ascii "," ++ pairsText (y :: rest)

/-- The text of a map. -/
def mapText (m : List (Key × Option Bytes)) : Bytes := ascii "\x7b" ++ pairsText T m ++ ascii "\x7d"

end

/-- `encoding/json`, with the text of maps. -/
structure MapJson extends Json where
  validUTF8_plain : ∀ s, (∀ b ∈ s, isPlain b) → validUTF8 s
  quote_plain : ∀ s, (∀ b ∈ s, isPlain b) → quote s = ascii "\"" ++ s ++ ascii "\""
  marshalMap_eq : ∀ m, marshalMap m = mapText toJsonText m

end Anubis.Storage
