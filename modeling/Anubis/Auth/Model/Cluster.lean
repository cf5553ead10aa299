import Anubis.Common.CasLog
import Anubis.Common.Runs
import Anubis.Storage.Model.Encryption
import Mathlib.Data.Int.Notation
import Mathlib.Logic.Function.Basic
import Mathlib.Algebra.Group.Nat.Defs

/-!
# Shared authentication

`internal/auth/cluster.go` and `cmd/anubis/cluster_auth.go`. The authentication
state is one value under one key of the replicated log. A change names the
revision it was computed from, and is applied if the state is still at that
revision. Who made a change finds out from the receipts in the state it loads
afterwards.

The log is taken as given: a command that was submitted is committed any number
of times, whenever, or never. Nodes apply the log in order, and go through a
part of it again after a restart. What is a parameter here is JSON and the local
evaluator with its clock; a node holds its lock for a whole `mutate`.

Three things are simpler than in the source. A round of `mutate` after a conflict
evaluates the same function again, where the source draws new tokens and reads the
clock anew. A read leaves the evaluator as it is, where `Authenticate` takes out a
session that has expired, which no snapshot would hold either. And of the changes
that get through only those of `mutate` are noted: nobody waits for the seed.
-/

namespace Anubis.Auth

open Storage (Bytes)

/-- `ClusterAuthReceipt`. -/
structure ClusterAuthReceipt where
  revision : ℕ
  writeID : String
deriving DecidableEq, Repr

/-- `ClusterAuthState`. -/
structure ClusterAuthState where
  revision : ℕ
  data : Bytes
  receipts : List ClusterAuthReceipt
deriving DecidableEq

/-- `ClusterAuthChange`. -/
structure ClusterAuthChange where
  expected : ℕ
  writeID : String
  data : Bytes
deriving DecidableEq

/-- `MaxClusterAuthStateBytes`. -/
def maxClusterAuthStateBytes : ℕ := 192 * 1024

/-- `clusterAuthReceiptLimit`. -/
def clusterAuthReceiptLimit : ℕ := 64

/-- The largest revision. -/
def maxRevision : ℕ := 2 ^ 64 - 1

/-- What `validateClusterAuthData` looks at in the decoded state. An entry may be
null. -/
structure SessionData where
  /-- The users by key, with their `ID`. -/
  users : List (String × Option String)
  /-- The sessions by token, with their `UserID`. -/
  tokens : List (String × Option String)
  resetTokens : List (String × Option Unit)
  lockouts : List (String × Option Unit)
  accounts : List (String × Option Unit)
  /-- The invitations by key, with their `ID` and `TokenHash`. -/
  invitations : List (String × Option (String × String))

/-- There is such a user. -/
def SessionData.hasUser (d : SessionData) (id : String) : Bool :=
  d.users.any fun (key, user) => key = id && user.isSome

/-- JSON and the local evaluator. -/
structure Evaluator (Local : Type) where
  /-- `json.Unmarshal` into `sessionData`. -/
  unmarshal : Bytes → Option SessionData
  /-- What `importClusterAuth` makes of the decoded state. -/
  load : Bytes → Local
  /-- `json.Marshal` of what is not expired at a time. -/
  marshal : ℤ → Local → Option Bytes

/-- What a `mutate` call does to the local evaluator, and its error. -/
abbrev Mutation (Local : Type) := Local → Local × Option String

section Data

variable {Local : Type} (E : Evaluator Local)

/-- `validateClusterAuthData`. -/
def validateClusterAuthData (raw : Bytes) : Except String Unit :=
  if maxClusterAuthStateBytes < raw.length then
    .error ("authentication state (" ++ toString raw.length ++
      " bytes: sessions, accounts and invitations) exceeds the " ++
      toString maxClusterAuthStateBytes ++
      "-byte replicated transaction budget; revoke unused sessions or " ++
      "invitations, or delete unused accounts")
  else
    match E.unmarshal raw with
    | none => .error "decode shared authentication state"
    | some data =>
      if data.users.any fun (id, user) => user.isNone || id = "" || user ≠ some id then
        .error "invalid shared authentication user"
      else if data.tokens.any fun (_, sess) => (sess.all fun id => !data.hasUser id) then
        .error "invalid shared authentication session"
      else if data.resetTokens.any fun (_, token) => token.isNone then
        .error "invalid shared reset token"
      else if data.lockouts.any fun (_, attempt) => attempt.isNone then
        .error "invalid shared lockout"
      else if data.accounts.any fun (id, rec) => rec.isNone || !data.hasUser id then
        .error "invalid shared account"
      else if data.invitations.any fun (id, inv) => inv.all fun inv => inv.1 ≠ id || inv.2 = "" then
        .error "invalid shared invitation"
      else .ok ()

/-- `BuildClusterAuthState`. No state means conflict or replay. -/
def buildClusterAuthState (current : Option ClusterAuthState) (change : ClusterAuthChange) :
    Except String (Option ClusterAuthState) :=
  let revision := (current.map ClusterAuthState.revision).getD 0
  if revision ≠ change.expected then .ok none
  else if change.writeID = "" then .error "authentication mutation has no receipt ID"
  else if revision = maxRevision then .error "authentication revision exhausted"
  else
    match validateClusterAuthData E change.data with
    | .error e => .error e
    | .ok () =>
      let receipts := (current.map ClusterAuthState.receipts).getD [] ++
        [⟨revision + 1, change.writeID⟩]
      .ok (some
        { revision := revision + 1
          data := change.data
          receipts :=
            if clusterAuthReceiptLimit < receipts.length then
              receipts.drop (receipts.length - clusterAuthReceiptLimit)
            else receipts })

/-- `ClusterAuthCommitOutcome`. -/
def clusterAuthCommitOutcome (current : Option ClusterAuthState) (expected : ℕ) (writeID : String) :
    Except String Bool :=
  match current with
  | none => .error "authentication commit not visible"
  | some current =>
    if current.revision ≤ expected then .error "authentication commit not visible"
    else if current.receipts.any fun receipt => receipt.writeID = writeID then .ok true
    else if current.receipts.head?.any fun receipt =>
      (expected + 1) % 2 ^ 64 < receipt.revision then
      .error "authentication commit outcome is uncertain; retry from current state"
    else .ok false

/-- `snapshotClusterAuth`. -/
def snapshotClusterAuth (now : ℤ) (a : Local) : Except String Bytes :=
  match E.marshal now a with
  | none => .error "encode shared authentication state"
  | some raw =>
    match validateClusterAuthData E raw with
    | .error e => .error e
    | .ok () => .ok raw

/-- `importClusterAuth`. -/
def importClusterAuth (raw : Bytes) : Except String Local :=
  match validateClusterAuthData E raw with
  | .error e => .error e
  | .ok () => .ok (E.load raw)

/-- `clusterAuthStore.apply`: a change that cannot be applied is skipped. -/
def applyChange (current : Option ClusterAuthState) (change : ClusterAuthChange) :
    Option ClusterAuthState :=
  match buildClusterAuthState E current change with
  | .ok (some next) => some next
  | _ => current

/-- The check of `CompareAndSwap` before a change is submitted. -/
def submittable (change : ClusterAuthChange) : Bool :=
  match buildClusterAuthState E (some ⟨change.expected, [], []⟩) change with
  | .error _ => false
  | .ok _ => true

end Data

/-! ## The system -/

/-- Where a node is in `mutate`, or in `sync` for a read. -/
inductive Phase (Local : Type)
  | idle
  | syncing (fn : Option (Mutation Local)) (attempt init : ℕ)
  | seeding (fn : Option (Mutation Local)) (attempt init : ℕ) (change : ClusterAuthChange)
  | swapping (fn : Mutation Local) (attempt : ℕ) (change : ClusterAuthChange)

/-- `ClusterAuthenticator` with the store of its node. -/
structure AuthNode (Local : Type) where
  /-- The shared state, as far as it is applied here. -/
  store : Option ClusterAuthState
  /-- The entry of the log that is applied next. -/
  next : ℕ
  seed : Bytes
  auth : Local
  importedRevision : ℕ
  phase : Phase Local

/-- A change that was submitted, and the mutation and time it was computed
with. The seed has none. -/
structure Submission (Local : Type) where
  change : ClusterAuthChange
  origin : Option (Mutation Local × ℤ)

/-- The nodes and the log. -/
structure Shared (N Local : Type) where
  nodes : N → AuthNode Local
  log : List ClusterAuthChange
  sent : List (Submission Local)
  /-- The changes for which `CompareAndSwap` has reported success to
  `mutate`. -/
  acked : List ClusterAuthChange

/-- What can happen. -/
inductive SharedEvent (N Local : Type)
  /-- `mutate`, or a read without a mutation. -/
  | call (n : N) (fn : Option (Mutation Local))
  /-- `sync` and what follows up to the command, with a new write ID and the two
  times of the snapshots. -/
  | sync (n : N) (id : String) (before after : ℤ)
  /-- A command that was submitted gets into the log. -/
  | commit (i : ℕ)
  | apply (n : N)
  /-- The process starts again and applies the log from an earlier entry. -/
  | restart (n : N) (next : ℕ) (auth : Local) (seed : Bytes)
  /-- A snapshot of another node. -/
  | install (n m : N)
  /-- The command has been applied: `CompareAndSwap` looks up the outcome. -/
  | resolve (n : N)
  /-- The command has failed, or so it seems. -/
  | fail (n : N)

section System

variable {N Local : Type} (E : Evaluator Local)

/-- The part of `sync` that imports the shared state. -/
def AuthNode.importState (node : AuthNode Local) (state : ClusterAuthState) :
    AuthNode Local × Bool :=
  if state.revision = node.importedRevision then (node, true)
  else
    match importClusterAuth E state.data with
    | .error _ => ({ node with importedRevision := 0 }, false)
    | .ok auth => ({ node with auth := auth, importedRevision := state.revision }, true)

/-- The evaluation of a mutation: the new state, if there is one. -/
def AuthNode.evaluate (node : AuthNode Local) (fn : Mutation Local) (before after : ℤ) :
    AuthNode Local × Option Bytes :=
  match snapshotClusterAuth E before node.auth with
  | .error _ => (node, none)
  | .ok old =>
    let node := { node with importedRevision := 0, auth := (fn node.auth).1 }
    match snapshotClusterAuth E after node.auth with
    | .error _ => (node, none)
    | .ok new => (node, if old = new then none else some new)

variable [DecidableEq N]

/-- A node that has changed. -/
def Shared.setNode (s : Shared N Local) (n : N) (node : AuthNode Local) : Shared N Local :=
  { s with nodes := Function.update s.nodes n node }

/-- Submits a change, if it passes the check. -/
def Shared.submit (s : Shared N Local) (n : N) (node : AuthNode Local) (sub : Submission Local)
    (phase : Phase Local) : Shared N Local :=
  if submittable E sub.change then
    { s.setNode n { node with phase := phase } with sent := s.sent ++ [sub] }
  else s.setNode n { node with phase := .idle }

/-- One round of `sync`, and what `mutate` does after it. -/
def Shared.syncNode (s : Shared N Local) (n : N) (id : String) (before after : ℤ)
    (fn : Option (Mutation Local)) (attempt init : ℕ) : Shared N Local :=
  let node := s.nodes n
  match node.store with
  | none =>
    if init < 8 then
      let change : ClusterAuthChange := ⟨0, id, node.seed⟩
      s.submit E n node ⟨change, none⟩ (.seeding fn attempt init change)
    else s.setNode n { node with phase := .idle }
  | some state =>
    if state.revision = 0 then s.setNode n { node with phase := .idle }
    else
      match node.importState E state with
      | (node, false) => s.setNode n { node with phase := .idle }
      | (node, true) =>
        match fn with
        | none => s.setNode n { node with phase := .idle }
        | some fn =>
          match node.evaluate E fn before after with
          | (node, none) => s.setNode n { node with phase := .idle }
          | (node, some data) =>
            let change : ClusterAuthChange := ⟨state.revision, id, data⟩
            s.submit E n node ⟨change, some (fn, after)⟩ (.swapping fn attempt change)

/-- The end of `CompareAndSwap`. -/
def Shared.resolveNode (s : Shared N Local) (n : N) : Option (Shared N Local) :=
  let node := s.nodes n
  match node.phase with
  | .seeding fn attempt init change =>
    match clusterAuthCommitOutcome node.store change.expected change.writeID with
    | .error _ => some (s.setNode n { node with phase := .idle })
    | .ok _ => some (s.setNode n { node with phase := .syncing fn attempt (init + 1) })
  | .swapping fn attempt change =>
    match clusterAuthCommitOutcome node.store change.expected change.writeID with
    | .error _ => some (s.setNode n { node with phase := .idle })
    | .ok true =>
      some { s.setNode n { node with phase := .idle } with acked := s.acked ++ [change] }
    | .ok false =>
      some (s.setNode n { node with
        phase := if attempt + 1 < 16 then .syncing (some fn) (attempt + 1) 0 else .idle })
  | _ => none

/-- One event. -/
def Shared.step (s : Shared N Local) : SharedEvent N Local → Option (Shared N Local)
  | .call n fn =>
    match (s.nodes n).phase with
    | .idle => some (s.setNode n { s.nodes n with phase := .syncing fn 0 0 })
    | _ => none
  | .sync n id before after =>
    match (s.nodes n).phase with
    | .syncing fn attempt init =>
      -- write IDs are random: none comes twice
      if id = "" || s.sent.any fun sub => sub.change.writeID = id then none
      else some (s.syncNode E n id before after fn attempt init)
    | _ => none
  | .commit i => (s.sent[i]?).map fun sub => { s with log := s.log ++ [sub.change] }
  | .apply n =>
    (s.log[(s.nodes n).next]?).map fun change =>
      s.setNode n
        { s.nodes n with
          store := applyChange E (s.nodes n).store change, next := (s.nodes n).next + 1 }
  | .restart n next auth seed =>
    if next ≤ (s.nodes n).next then
      some (s.setNode n
        { s.nodes n with
          next := next, auth := auth, seed := seed, importedRevision := 0, phase := .idle })
    else none
  | .install n m =>
    some (s.setNode n { s.nodes n with store := (s.nodes m).store, next := (s.nodes m).next })
  | .resolve n => s.resolveNode n
  | .fail n =>
    match (s.nodes n).phase with
    | .seeding .. => some (s.setNode n { s.nodes n with phase := .idle })
    | .swapping .. => some (s.setNode n { s.nodes n with phase := .idle })
    | _ => none

/-- Nothing has happened yet. -/
def Shared.init (auth : N → Local) (seed : N → Bytes) : Shared N Local where
  nodes n := ⟨none, 0, seed n, auth n, 0, .idle⟩
  log := []
  sent := []
  acked := []

/-- The states the nodes get to. -/
def Shared.Reachable (auth : N → Local) (seed : N → Bytes) (s : Shared N Local) : Prop :=
  Runs.Reachable (Shared.step E) (fun _ => True) (Shared.init auth seed) s

end System

end Anubis.Auth
