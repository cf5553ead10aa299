import Anubis.Common.Dict
import Anubis.Common.Instants
import Mathlib.Logic.Function.Basic

/-!
# Transport authentication

`verify` of `internal/raft/transport_auth.go` and the replay state behind it. The
MAC is a parameter. A time is an instant, and so is the timestamp of a frame, in
nanoseconds since 1970. Going through a Go map begins anywhere; where it begins is
an argument.
-/

namespace Anubis.Transport

open Instant Function

/-- `transportMaxSkew`. -/
def transportMaxSkew : ℤ := 60 * second

/-- `replayWindowBits`. -/
def replayWindowBits : ℕ := 4096

/-- `maxEpochsPerOrigin`. -/
def maxEpochsPerOrigin : ℕ := 8

/-- `maxReplayOrigins`. -/
def maxReplayOrigins : ℕ := 1024

/-- `frameAuth`. -/
structure FrameAuth where
  origin : String
  epoch : ℕ
  seq : ℕ
  ts : ℤ
  mac : String
deriving DecidableEq

/-! ## The window of an epoch -/

/-- `replayWindow`. Bit `i` of the words says whether `highest - i` was seen; there
are 64 words. -/
structure ReplayWindow where
  highest : ℕ := 0
  bits : ℕ → BitVec 64 := fun _ => 0
  lastSeen : ℤ := 0

namespace ReplayWindow

/-- A loop over the words from the last one down to `lo`, in place. -/
def sweep (lo : ℕ) (word : (ℕ → BitVec 64) → ℕ → BitVec 64) (bits : ℕ → BitVec 64) :
    ℕ → BitVec 64 :=
  (List.range' lo (64 - lo)).foldr (fun i bits => update bits i (word bits i)) bits

/-- A word after a move by whole words. -/
def fromWord (words : ℕ) (bits : ℕ → BitVec 64) (i : ℕ) : BitVec 64 :=
    if words ≤ i then bits (i - words) else 0

/-- A word after a move by less than a word. -/
def fromBits (bitsN : ℕ) (bits : ℕ → BitVec 64) (i : ℕ) : BitVec 64 :=
  bits i <<< bitsN ||| bits (i - 1) >>> (64 - bitsN)

/-- `shift`. -/
def shift (w : ReplayWindow) (n : ℕ) : ReplayWindow :=
  if replayWindowBits ≤ n then { w with bits := fun _ => 0 }
  else
    let words := n / 64
    let bitsN := n % 64
    let bits := if 0 < words then sweep 0 (fromWord words) w.bits else w.bits
    let bits :=
      if 0 < bitsN then
        let bits := sweep 1 (fromBits bitsN) bits
        update bits 0 (bits 0 <<< bitsN)
      else bits
    { w with bits := bits }

/-- `accept`. -/
def accept (w : ReplayWindow) (seq : ℕ) : ReplayWindow × Bool :=
  if w.highest < seq then
    let w := w.shift (seq - w.highest)
    ({ w with highest := seq, bits := update w.bits 0 (w.bits 0 ||| 1#64) }, true)
  else
    let d := w.highest - seq
    let word := d / 64
    let bit := d % 64
    if replayWindowBits ≤ d then (w, false)
    else if (w.bits word).getLsbD bit then (w, false)
    else ({ w with bits := update w.bits word (w.bits word ||| 1#64 <<< bit) }, true)

end ReplayWindow

/-! ## The replay state -/

/-- `originReplay`. -/
structure OriginReplay where
  epochs : Dict ℕ ReplayWindow := ∅
  lastSeen : ℤ := 0

/-- `transportAuth.replay`. -/
abbrev Replay := Dict String OriginReplay

section Prune

variable {α V : Type} [DecidableEq α] (lastSeen : V → ℤ) (limit : ℕ) (first : α)
    (begin : ℕ) (now : ℤ)

/-- Not longer idle than a frame can be under way. -/
def live (v : V) : Bool := now - lastSeen v ≤ 2 * transportMaxSkew

/-- The loop that `pruneEpochs` and `pruneOriginsLocked` share: the one seen least
recently of those that stay, `first` without any. -/
def oldest (m : Dict α V) : α × ℤ :=
  (m.range begin).foldl
    (fun found entry =>
      if live lastSeen now entry.2 ∧
        (found.2 = 0 ∨ lastSeen entry.2 < found.2) then (entry.1, lastSeen entry.2)
      else found)
    (first, 0)

/-- What is idle goes, and the oldest if all of them are still live. -/
def prune (m : Dict α V) : Dict α V :=
  let left := m.filter fun _ v => live lastSeen now v
  if limit ≤ left.entries.length then left.erase (oldest lastSeen first begin now m).1 else left

/-- What `claim` does before it adds a key that is not there. -/
def makeRoom (key : α) (m : Dict α V) : Dict α V :=
  match m.lookup key with
  | some _ => m
  | none => if limit ≤ m.entries.length then prune lastSeen limit first begin now m else m

end Prune

/-- The part of `claim` about one origin. -/
def OriginReplay.claim (o : OriginReplay) (epoch seq : ℕ) (now : ℤ) (begin : ℕ) :
    OriginReplay × Bool :=
  let w := (o.epochs.lookup epoch).getD {}
  let epochs := makeRoom ReplayWindow.lastSeen maxEpochsPerOrigin 0 begin now epoch o.epochs
  let (w, new) := { w with lastSeen := now }.accept seq
  ({ epochs := epochs.insert epoch w, lastSeen := now }, new)

/-- `claim`, with where the two maps are gone through from. -/
def claim (replay : Replay) (origin : String) (epoch seq : ℕ) (now : ℤ) (begins : ℕ × ℕ) :
    Replay × Bool :=
  let (o, new) := ((replay.lookup origin).getD {}).claim epoch seq now begins.2
  ((makeRoom OriginReplay.lastSeen maxReplayOrigins "" begins.1 now origin replay).insert origin o,
    new)

/-! ## `verify` -/

/-- What does not change while the server runs. -/
structure Setup where
  requestMAC : String → FrameAuth → List UInt8 → String
  /-- Without it, every origin that holds the secret is admitted. -/
  isMember : Option (String → String → Bool)

/-- A refusal with `errTransportAuth`. -/
def refuse (why : String) : Except String Unit :=
    .error ("raft transport authentication failed: " ++ why)

/-- What `verify` checks before it claims the sequence number. -/
def checkFrame (S : Setup) (method : String) (f : FrameAuth) (payload : List UInt8) (now : ℤ) :
    Except String Unit :=
  if f.origin = "" then refuse "no origin"
  else if S.requestMAC method f payload ≠ f.mac then refuse
    ("signature mismatch from " ++ f.origin.quote)
  else if transportMaxSkew < now - (unixEpoch + f.ts) ∨
    now - (unixEpoch + f.ts) < -transportMaxSkew then
    refuse ("timestamp from " ++ f.origin.quote ++ " outside the 1m0s window")
  else if S.isMember.any fun isMember => !isMember f.origin method then
    refuse (f.origin.quote ++
      " is not a cluster member (each entry in necropolis.raft.peers must use the " ++
      "node's own node_name as its id)")
  else .ok ()

/-- `verify`. -/
def verify (S : Setup) (replay : Replay) (method : String) (f : FrameAuth)
    (payload : List UInt8) (now : ℤ) (begins : ℕ × ℕ) : Except String Unit × Replay :=
  match checkFrame S method f payload now with
  | .error e => (.error e, replay)
  | .ok () =>
    let (replay, new) := claim replay f.origin f.epoch f.seq now begins
    (if new then .ok () else refuse ("replayed frame from " ++ f.origin.quote), replay)

/-! ## The life of a receiver -/

/-- The frame that arrives, and when. -/
structure Arrival where
  method : String
  frame : FrameAuth
  payload : List UInt8
  now : ℤ
  begins : ℕ × ℕ

/-- The receiving process. What it has seen and accepted so far is not state of the
program. -/
structure Receiver where
  replay : Replay
  clock : ℤ
  /-- Origin, epoch and time of the frames that came to `claim`. -/
  seen : List (String × ℕ × ℤ)
  accepted : List FrameAuth

/-- A frame arrives. The clock does not go back. -/
def Receiver.step (S : Setup) (s : Receiver) (e : Arrival) : Option Receiver :=
  if e.now < s.clock then none
  else
    let verified := verify S s.replay e.method e.frame e.payload e.now e.begins
    some
      { replay := verified.2
        clock := e.now
        seen :=
          if (checkFrame S e.method e.frame e.payload e.now).isOk then (e.frame.origin,
            e.frame.epoch, e.now) :: s.seen
          else s.seen
        accepted := if verified.1.isOk then e.frame :: s.accepted else s.accepted }

end Anubis.Transport
