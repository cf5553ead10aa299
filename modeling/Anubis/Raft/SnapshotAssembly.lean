import Anubis.Raft.Helpers.Receiving
import Mathlib.Logic.Relation

/-!
# Snapshots in chunks

`sendSnapshot` cuts a snapshot into chunks, and `handleInstallSnapshot` puts
them together in one buffer, which is known by the index and term of the
snapshot and matched by length. Where the snapshots of one index and term that
reach a follower have the same content, it restores the content of one of them,
whatever happens to the chunks on the way.
-/

namespace Anubis.Raft

open List ChunkSend Node

variable {NodeId Cmd : Type}

/-! ## The sender -/

section Sender

variable {c : ChunkSend NodeId}

theorem offset_lt_of_not_done (h : ¬ c.request.done = true) :
    c.offset + snapshotChunkSize < c.transfer.snapshot.data.length := by
  simpa [request] using h

/-- **The loop of `sendSnapshot`**, from a chunk on, where every answer is a success.
Its condition holds at the first chunk, and at a later one because the chunk before
it was not the last. -/
def ChunkSend.requests (c : ChunkSend NodeId) : List (InstallSnapshotRequest NodeId) :=
  if c.request.done then [c.request]
  else c.request :: requests { c with offset := c.offset + snapshotChunkSize }
termination_by c.transfer.snapshot.data.length - c.offset
decreasing_by
  next h =>
  have hlt := offset_lt_of_not_done h
  simp only [snapshotChunkSize] at hlt ⊢
  omega

/-- The chunks together are what is left of the snapshot. -/
theorem flatMap_requests (c : ChunkSend NodeId) :
    c.requests.flatMap (·.data) = c.transfer.snapshot.data.drop c.offset := by
  fun_induction requests c with
  | case1 c hdone =>
    have hlen : (c.transfer.snapshot.data.drop c.offset).length ≤ snapshotChunkSize := by
      simp only [request, decide_eq_true_eq] at hdone
      rw [length_drop]
      omega
    simp only [flatMap_cons, flatMap_nil, append_nil, request]
    exact take_of_length_le hlen
  | case2 c hdone ih =>
    rw [flatMap_cons, ih]
    simp only [request]
    rw [← drop_drop, take_append_drop]

/-- A request starts where those before it end. -/
theorem offset_requests (c : ChunkSend NodeId) :
    ∀ pre r post, c.requests = pre ++ r :: post →
      r.offset = c.offset + (pre.flatMap (·.data)).length := by
  fun_induction requests c with
  | case1 =>
    intro pre r post heq
    obtain ⟨rfl, hr⟩ := append_eq_singleton_iff.mp heq.symm |>.resolve_right (by simp)
    rw [cons.injEq] at hr
    rw [hr.1]
    rfl
  | case2 c hdone ih =>
    intro pre r post heq
    cases pre with
    | nil =>
      rw [nil_append, cons.injEq] at heq
      rw [← heq.1]
      rfl
    | cons q pre =>
      rw [cons_append, cons.injEq] at heq
      obtain ⟨rfl, heq⟩ := heq
      have hlen : c.request.data.length = snapshotChunkSize := by
        have hlt := offset_lt_of_not_done hdone
        simp only [request, length_take, length_drop]
        omega
      rw [ih pre r post heq, flatMap_cons, length_append, hlen]
      exact Nat.add_assoc ..

/-- The last request is the only one that is done. -/
theorem done_requests (c : ChunkSend NodeId) :
    ∃ pre last, c.requests = pre ++ [last] ∧ last.done = true ∧ ∀ r ∈ pre, r.done = false := by
  fun_induction requests c with
  | case1 c hdone => exact ⟨[], c.request, rfl, hdone, by simp⟩
  | case2 c hdone ih =>
    obtain ⟨pre, last, heq, hlast, hpre⟩ := ih
    refine ⟨c.request :: pre, last, by rw [heq, cons_append], hlast, fun r hr => ?_⟩
    rcases mem_cons.mp hr with rfl | hr
    · exact Bool.eq_false_iff.mpr hdone
    · exact hpre r hr

end Sender

/-! ## The receiver -/

variable [LinearOrder NodeId] {S : Setup NodeId} {v : NodeId} {n m : Node NodeId Cmd} {now : ℕ}
    {io : ReceiveIO}
  {c : ChunkSend NodeId} {P : Snapshot → Prop}

/-- **A step of node `v`, whatever the others do and the network holds**: the chunks are
of snapshots that satisfy `P`. A leader gets none of its own term. -/
def Takes (S : Setup NodeId) (v : NodeId) (P : Snapshot → Prop) (n m : Node NodeId Cmd) : Prop :=
  ∃ (s : Cluster NodeId Cmd) (e : Event NodeId Cmd) (msgs : List (Msg NodeId Cmd)),
    s.nodes v = n ∧ effect S s e = some (v, m, msgs) ∧
      ∀ c, .chunk v c ∈ s.net → P c.transfer.snapshot ∧
        (n.state = .leader → c.request.term ≠ n.currentTerm)

/-- One content for an index and a term. -/
def OneContent (P : Snapshot → Prop) : Prop :=
  ∀ a b, P a → P b → a.index = b.index → a.term = b.term → a.data = b.data

/-- What the FSM is being restored from. -/
def Node.payload (n : Node NodeId Cmd) : Option (List UInt8) :=
  match n.loop with
  | .restore _ => n.incomingSnapshot.map (·.data)
  | _ => none

/-- **The buffer holds the beginning of a snapshot**, and all of it once it is to be
installed. The indexes of a node that restores its FSM are below it. -/
structure Assembling (P : Snapshot → Prop) (n : Node NodeId Cmd) : Prop where
  buffer : ∀ i, n.incomingSnapshot = some i → ∃ a, P a ∧ a.index = i.index ∧ a.term = i.term ∧
    i.data <+: a.data
  installing : ∀ c, n.loop = .publish c ∨ n.loop = .restore c →
    P c.transfer.snapshot ∧ n.state ≠ .leader ∧ n.applier = .idle ∧ n.incomingSnapshot =
      some ⟨c.transfer.snapshot.index, c.transfer.snapshot.term, c.transfer.snapshot.data⟩
  restoring : ∀ c, n.loop = .restore c →
    n.commitIndex < c.transfer.snapshot.index ∧ n.lastApplied < c.transfer.snapshot.index

omit [LinearOrder NodeId] in
theorem Loop.isInstalling_of {l : Loop NodeId} (h : l = .publish c ∨ l = .restore c) :
    l.isInstalling = true := by
  rcases h with rfl | rfl <;> rfl

namespace Assembling

section

omit [LinearOrder NodeId]

theorem of_buffer (hloop : n.loop.isInstalling = false)
    (hbuffer : ∀ i, n.incomingSnapshot = some i →
    ∃ a, P a ∧ a.index = i.index ∧ a.term = i.term ∧ i.data <+: a.data) : Assembling P n where
  buffer := hbuffer
  installing c hc := by rw [Loop.isInstalling_of hc] at hloop; cases hloop
  restoring c hc := by rw [Loop.isInstalling_of (.inr hc)] at hloop; cases hloop

theorem idle (hincoming : n.incomingSnapshot = none) (hloop : n.loop.isInstalling = false) :
    Assembling P n :=
  of_buffer hloop fun i hi => by rw [hincoming] at hi; cases hi

theorem keeps (h : Assembling P n) (hk : Keeps n m) : Assembling P m where
  buffer i hi := h.buffer i (hk.incoming ▸ hi)
  installing c hc := by
    have hinst := Loop.isInstalling_of hc
    have hloop := hk.loop (.inr hinst)
    rw [hloop] at hc hinst
    obtain ⟨hP, hstate, happlier, hincoming⟩ := h.installing c hc
    obtain ⟨hstate', happlier', -, -⟩ := hk.held hinst hstate happlier
    exact ⟨hP, hstate', happlier', hk.incoming.trans hincoming⟩
  restoring c hc := by
    have hinst := Loop.isInstalling_of (.inr hc)
    have hloop := hk.loop (.inr hinst)
    rw [hloop] at hc hinst
    obtain ⟨-, hstate, happlier, -⟩ := h.installing c (.inr hc)
    obtain ⟨-, -, hcommit, happlied⟩ := hk.held hinst hstate happlier
    rw [hcommit, happlied]
    exact h.restoring c hc

/-- A chunk that fits is the next part of the snapshot. -/
theorem append_chunk (hone : OneContent P) (hc : P c.transfer.snapshot) {i : SnapshotInstall}
    (hi : ∃ a, P a ∧ a.index = i.index ∧ a.term = i.term ∧ i.data <+: a.data)
    (hindex : i.index = c.transfer.snapshot.index) (hterm : i.term = c.transfer.snapshot.term)
    (hlen : i.data.length = c.offset) :
    i.data ++ c.request.data = c.transfer.snapshot.data.take (c.offset + snapshotChunkSize) := by
  obtain ⟨a, ha, hai, hat, hpre⟩ := hi
  rw [hone a _ ha hc (hai.trans hindex) (hat.trans hterm)] at hpre
  have htake : i.data = c.transfer.snapshot.data.take c.offset := by
    rw [← hlen]
    exact prefix_iff_eq_take.mp hpre
  rw [htake, take_add]
  rfl

theorem receiveChunk (hone : OneContent P) (hc : P c.transfer.snapshot) (h : Assembling P n)
    (hidle : n.loop = .idle) (happlier : n.applier = .idle) (hstate : n.state ≠ .leader) :
    Assembling P (n.receiveChunk io c).1 := by
  have hnone : n.loop.isInstalling = false := by rw [hidle]; rfl
  -- the buffer the chunk is added to
  have hbuffer : ∀ i, (if c.request.offset = 0 then
        some ⟨c.request.lastIncludedIndex, c.request.lastIncludedTerm, []⟩ else
        n.incomingSnapshot) = some i →
      ∃ a, P a ∧ a.index = i.index ∧ a.term = i.term ∧ i.data <+: a.data := by
    intro i hi
    split at hi
    · cases hi
      exact ⟨_, hc, rfl, rfl, nil_prefix⟩
    · exact h.buffer i hi
  unfold Node.receiveChunk
  dsimp only
  generalize (if c.request.offset = 0 then
    some (⟨c.request.lastIncludedIndex, c.request.lastIncludedTerm, []⟩ : SnapshotInstall)
      else n.incomingSnapshot) = incoming at hbuffer ⊢
  split
  · exact .of_buffer hnone fun i hi => by cases hi
  · next i =>
    have hi := hbuffer i rfl
    split
    · exact .of_buffer hnone fun j hj => by cases hj; exact hi
    · next hfits =>
      simp only [not_or, not_not] at hfits
      obtain ⟨hindex, hterm, hlen⟩ := hfits
      have hdata := append_chunk hone hc hi hindex hterm hlen
      split
      · refine .of_buffer hnone fun j hj => ?_
        cases hj
        refine ⟨_, hc, hindex.symm, hterm.symm, ?_⟩
        rw [hdata]
        exact take_prefix ..
      · next hdone =>
        split
        · exact .of_buffer hnone fun j hj => by cases hj
        · -- the last chunk: the buffer is the whole snapshot
          have hall : i.data ++ c.request.data = c.transfer.snapshot.data := by
            rw [hdata]
            refine take_of_length_le ?_
            simpa [request] using hdone
          refine ⟨fun j hj => ?_, fun c' hc' => ?_, fun c' hc' => by cases hc'⟩
          · cases hj
            exact ⟨_, hc, hindex.symm, hterm.symm, hall ▸ prefix_refl _⟩
          · obtain rfl : c = c' := by
              rcases hc' with hc' | hc'
              · exact Loop.publish.inj hc'
              · cases hc'
            refine ⟨hc, hstate, happlier, ?_⟩
            rw [hall, hindex, hterm]
            rfl

theorem state_becomeFollower {ok : Bool} {term : ℕ} (h : n.becomeFollower ok now term = some m) :
    m.state = .follower := by
  cases ok with
  | false => cases h
  | true =>
    simp only [becomeFollower, persistHardState, Option.some.injEq, if_true] at h
    subst h
    split <;> rfl

section

variable (hone : OneContent P) (hc : P c.transfer.snapshot) (h : Assembling P n)
    (hidle : n.loop = .idle)
  (happlier : n.applier = .idle)

include hone hc h hidle happlier

theorem receiveSnapshot (hstate : n.state ≠ .leader) :
    Assembling P (n.receiveSnapshot io now c).1 := by
  unfold Node.receiveSnapshot
  dsimp only
  split
  · refine .of_buffer (n := { n.contacted now c.request.leaderID with incomingSnapshot := _ }) ?_
      fun i hi => ?_
    · rw [show (n.contacted now c.request.leaderID).loop = .idle from hidle]
      rfl
    · dsimp only at hi
      split at hi
      · cases hi
      · exact h.buffer i hi
  · exact receiveChunk hone hc (h.keeps (.of_same rfl rfl (fun h => h) rfl rfl rfl)) hidle
      happlier hstate

/-- A request of the follower's term or a later one. -/
theorem handleInstallSnapshot
    (hstate : n.state = .leader → c.request.term ≠ n.currentTerm) :
    Assembling P (n.handleInstallSnapshot io now c).1 := by
  unfold Node.handleInstallSnapshot
  dsimp only
  split
  · exact h
  · next hge =>
    split
    · split
      · exact h
      · next m hm =>
        obtain ⟨hloop, happlier', -⟩ := loop_becomeFollower hm
        refine (h.keeps (keeps_becomeFollower hm)).receiveSnapshot hone hc (hloop.trans hidle)
          (happlier'.trans happlier) ?_
        rw [state_becomeFollower hm]
        exact RaftState.noConfusion
    · next hle =>
      refine h.receiveSnapshot hone hc hidle happlier fun hleader => hstate hleader ?_
      exact Nat.le_antisymm (Nat.le_of_not_lt hle) (Nat.le_of_not_lt hge)

end

/-- The second look at the indexes. -/
theorem recheckInstall (h : Assembling P n) (hloop : n.loop = .publish c) :
    Assembling P (n.recheckInstall c).1 := by
  unfold Node.recheckInstall
  dsimp only
  split
  · exact .idle rfl rfl
  · next hcheck =>
    simp only [not_or, not_not, not_le] at hcheck
    have hinst := h.installing c (.inl hloop)
    refine ⟨h.buffer, fun c' hc' => ?_, fun c' hc' => ?_⟩
    · obtain rfl : c = c' := by
        rcases hc' with hc' | hc'
        · cases hc'
        · exact Loop.restore.inj hc'
      exact hinst
    · obtain rfl : c = c' := Loop.restore.inj hc'
      exact hcheck.2

end

/-- At the end of an install nothing is received. -/
theorem finishInstall (io : InstallIO) : Assembling P (n.finishInstall io now c.request).1 := by
  have hsettle : ∀ k : Node NodeId Cmd, (k.settleInstall io c.request).incomingSnapshot =
    k.incomingSnapshot ∧
      (k.settleInstall io c.request).loop = k.loop := by
    intro k
    unfold settleInstall
    generalize (if c.request.configuration ≠ [] ∧ io.peers then
      [(.peers (normalizeMembers c.request.configuration) : Write NodeId Cmd)] else []) = ws
    dsimp only
    split <;> exact ⟨rfl, rfl⟩
  have hinstall : ∀ k : Node NodeId Cmd, (k.installSnapshot now c.request).incomingSnapshot =
    k.incomingSnapshot ∧
      (k.installSnapshot now c.request).loop = k.loop := by
    intro k
    unfold Node.installSnapshot
    dsimp only
    split <;> exact ⟨rfl, rfl⟩
  unfold Node.finishInstall
  dsimp only
  split
  · exact .idle rfl rfl
  · obtain ⟨hincoming, hloop⟩ :=
      hinstall { n with restoring := false, incomingSnapshot := none, loop := .idle }
    generalize Node.installSnapshot
      { n with restoring := false, incomingSnapshot := none, loop := .idle } now
      c.request = k at hincoming hloop ⊢
    have hidle : k.loop.isInstalling = false := by
      rw [hloop]
      rfl
    cases io.hardState with
    | false => exact .idle hincoming hidle
    | true =>
      obtain ⟨hincoming', hloop'⟩ := hsettle (k.wrote [.hardState k.hardState])
      exact .idle (hincoming'.trans hincoming) (hloop' ▸ hidle)

/-- **One step.** -/
theorem step (hone : OneContent P) (h : Assembling P n) (ht : Takes S v P n m) :
    Assembling P m := by
  obtain ⟨s, e, msgs, rfl, heffect, hchunks⟩ := ht
  have hacts : Acts S s e v m msgs := acts_of_effect heffect
  rcases hacts.receiving with hk | ⟨hincoming, hloop⟩ | ⟨io, c, hmsg, hidle, happlier, heq⟩ |
    ⟨c, hloop, heq⟩ | ⟨io, c, hloop, heq⟩
  · exact h.keeps hk
  · exact .idle hincoming hloop
  · obtain ⟨hc, hleader⟩ := hchunks c hmsg
    exact heq ▸ h.handleInstallSnapshot hone hc hidle happlier hleader
  · exact heq ▸ h.recheckInstall hloop
  · exact heq ▸ finishInstall io

/-- **Every run.** -/
theorem run (hone : OneContent P) {n₀ : Node NodeId Cmd} (hincoming : n₀.incomingSnapshot = none)
    (hloop : n₀.loop.isInstalling = false) (h : Relation.ReflTransGen (Takes S v P) n₀ n) :
    Assembling P n := by
  induction h with
  | refl => exact .idle hincoming hloop
  | tail _ ht ih => exact ih.step hone ht

end Assembling

/-- **Snapshot transfer.** The chunks of `sendSnapshot` are the snapshot, each byte
once, and the last is the only one that is done. A follower that receives chunks of
any transfers in any order, some lost and some repeated, restores the content of the
snapshot whose last chunk it got, where those of one index and term have one content,
and does so only while its commit index and the last entry it applied are below that
snapshot. -/
theorem snapshot_transfer :
    (∀ (sender : NodeId) (transfer : Transfer NodeId) (sentAt : ℕ)
      (reqs : List (InstallSnapshotRequest NodeId)),
      reqs = (⟨sender, transfer, 0, sentAt⟩ : ChunkSend NodeId).requests →
        reqs.flatMap (·.data) = transfer.snapshot.data ∧
        (∀ pre r post, reqs = pre ++ r :: post → r.offset = (pre.flatMap (·.data)).length) ∧
        ∃ pre last, reqs = pre ++ [last] ∧ last.done = true ∧ ∀ r ∈ pre, r.done = false) ∧
    ∀ (P : Snapshot → Prop) (n₀ n : Node NodeId Cmd), OneContent P →
      n₀.incomingSnapshot = none → n₀.loop.isInstalling = false →
      Relation.ReflTransGen (Takes S v P) n₀ n →
        ∀ c, n.loop = .restore c → P c.transfer.snapshot ∧
          n.payload = some c.transfer.snapshot.data ∧
          n.commitIndex < c.transfer.snapshot.index ∧
            n.lastApplied < c.transfer.snapshot.index := by
  constructor
  · rintro sender transfer sentAt reqs rfl
    refine ⟨flatMap_requests _, fun pre r post heq => ?_, done_requests _⟩
    rw [offset_requests _ pre r post heq, Nat.zero_add]
  · intro P n₀ n hone hincoming hloop hrun c hc
    have h := Assembling.run hone hincoming hloop hrun
    obtain ⟨hP, -, -, hbuffer⟩ := h.installing c (.inr hc)
    refine ⟨hP, ?_, h.restoring c hc⟩
    simp only [payload, hc, hbuffer, Option.map_some]

/-! ### Steps of a node that receives chunks -/

/-- A chunk arrives. -/
theorem Takes.chunk (hidle : n.loop = .idle) (happlier : n.applier = .idle)
    (hstate : n.state ≠ .leader)
    (hc : P c.transfer.snapshot) : Takes S v P n (n.handleInstallSnapshot io 0 c).1 := by
  refine ⟨⟨fun _ => n, [.chunk v c], 0⟩, .handleChunk 0 io,
    installMsgs v c (n.handleInstallSnapshot io 0 c).2, rfl,
    ?_, fun c' hc' => ?_⟩
  · simp [effect, hidle, happlier, Loop.isIdle, Applier.isIdle]
  · cases mem_singleton.mp hc'
    exact ⟨hc, fun h => absurd h hstate⟩

theorem Takes.recheck (hloop : n.loop = .publish c) : Takes S v P n (n.recheckInstall c).1 := by
  refine ⟨⟨fun _ => n, [], 0⟩, .recheckInstall v, installMsgs v c (n.recheckInstall c).2, rfl, ?_,
    fun c' hc' => ?_⟩
  · simp [effect, hloop]
  · cases hc'

/-- A follower in term `1` with an empty log. -/
def emptyFollower : Node (Fin 3) Unit :=
    { nodeID := 0, config := ⟨10, 64, 1, 0, false⟩, currentTerm := 1 }

/-- Its configuration. -/
def emptySetup : Setup (Fin 3) := ⟨fun _ => emptyFollower.config, fun _ => []⟩

/-- A chunk of a snapshot of the first entry, sent in term `1`. -/
def firstEntryChunk (sender : Fin 3) (data : List UInt8) (offset : ℕ) : ChunkSend (Fin 3) :=
  ⟨sender, ⟨⟨1, 1, data⟩, 1, []⟩, offset, 0⟩

/-! ### Snapshots of two chunks -/

/-- The content of a snapshot that takes two chunks. -/
def twoChunks (b : UInt8) : List UInt8 := replicate (snapshotChunkSize + 1) b

theorem snapshotChunkSize_pos : 0 < snapshotChunkSize := by decide

theorem length_twoChunks (b : UInt8) : (twoChunks b).length = snapshotChunkSize + 1 :=
    length_replicate

@[simp] theorem firstEntryChunk_request (sender : Fin 3) (data : List UInt8) (offset : ℕ) :
    (firstEntryChunk sender data offset).request.term = 1 ∧
      (firstEntryChunk sender data offset).request.lastIncludedIndex = 1 ∧
      (firstEntryChunk sender data offset).request.lastIncludedTerm = 1 ∧
      (firstEntryChunk sender data offset).request.offset = offset ∧
      (firstEntryChunk sender data offset).request.leaderID = sender :=
  ⟨rfl, rfl, rfl, rfl, rfl⟩

/-- A follower in term `1` that has nothing committed. -/
structure Waiting (n : Node (Fin 3) Unit) : Prop where
  loop : n.loop = .idle
  applier : n.applier = .idle
  state : n.state = .follower
  currentTerm : n.currentTerm = 1
  commitIndex : n.commitIndex = 0
  lastApplied : n.lastApplied = 0

namespace Waiting

variable {n : Node (Fin 3) Unit} {P : Snapshot → Prop}

/-- The first chunk starts the buffer anew. -/
theorem first (h : Waiting n) (sender : Fin 3) {b : UInt8} (hP : P ⟨1, 1, twoChunks b⟩) :
    ∃ m, Takes emptySetup 0 P n m ∧ Waiting m ∧
      m.incomingSnapshot = some ⟨1, 1, replicate snapshotChunkSize b⟩ := by
  have hdone : (firstEntryChunk sender (twoChunks b) 0).request.done = false := by
    simp [request, firstEntryChunk, length_twoChunks]
  have hdata : (firstEntryChunk sender (twoChunks b) 0).request.data =
    replicate snapshotChunkSize b := by
    simp [request, firstEntryChunk, twoChunks, take_replicate]
  have hnode : (n.handleInstallSnapshot {} 0 (firstEntryChunk sender (twoChunks b) 0)).1 =
      { n.contacted 0 sender with
        incomingSnapshot := some ⟨1, 1, replicate snapshotChunkSize b⟩ } := by
    simp [Node.handleInstallSnapshot, Node.receiveSnapshot, Node.receiveChunk, h.currentTerm,
      h.commitIndex,
      h.lastApplied, hdone, hdata]
  have htakes : Takes emptySetup 0 P n
      (n.handleInstallSnapshot {} 0 (firstEntryChunk sender (twoChunks b) 0)).1 :=
    .chunk h.loop h.applier (by rw [h.state]; decide) hP
  rw [hnode] at htakes
  exact ⟨_, htakes, ⟨h.loop, h.applier, h.state, h.currentTerm, h.commitIndex, h.lastApplied⟩, rfl⟩

/-- The second chunk completes whatever is in the buffer, and it is restored. -/
theorem second (h : Waiting n) (sender : Fin 3) {b : UInt8} (hP : P ⟨1, 1, twoChunks b⟩)
    {buffer : List UInt8} (hincoming : n.incomingSnapshot = some ⟨1, 1, buffer⟩)
    (hlen : buffer.length = snapshotChunkSize) :
    ∃ m k, Takes emptySetup 0 P n m ∧ Takes emptySetup 0 P m k ∧
      k.loop = .restore (firstEntryChunk sender (twoChunks b) snapshotChunkSize) ∧
      k.payload = some (buffer ++ [b]) := by
  have hpos := snapshotChunkSize_pos
  have hdone : (firstEntryChunk sender (twoChunks b) snapshotChunkSize).request.done = true := by
    simp only [request, firstEntryChunk, length_twoChunks, decide_eq_true_eq]
    omega
  have hdata : (firstEntryChunk sender (twoChunks b) snapshotChunkSize).request.data = [b] := by
    simp only [request, firstEntryChunk, twoChunks, drop_replicate, Nat.add_sub_cancel_left,
      replicate_one]
    exact take_of_length_le hpos
  have hnode : (n.handleInstallSnapshot {} 0
    (firstEntryChunk sender (twoChunks b) snapshotChunkSize)).1 =
      { n.contacted 0 sender with
        incomingSnapshot := some ⟨1, 1, buffer ++ [b]⟩
        loop := .publish (firstEntryChunk sender (twoChunks b) snapshotChunkSize)
        journal := n.journal ++ [.snapshot ⟨1, 1, buffer ++ [b]⟩] } := by
    simp [Node.handleInstallSnapshot, Node.receiveSnapshot, Node.receiveChunk, contacted,
      h.currentTerm,
      h.commitIndex, h.lastApplied, hdone, hdata, hincoming, hlen, hpos.ne']
  have htakes : Takes emptySetup 0 P n
      (n.handleInstallSnapshot {} 0 (firstEntryChunk sender (twoChunks b) snapshotChunkSize)).1 :=
    .chunk h.loop h.applier (by rw [h.state]; decide) hP
  rw [hnode] at htakes
  refine ⟨_, _, htakes, .recheck rfl, ?_, ?_⟩
  · simp [Node.recheckInstall, contacted, h.currentTerm, h.commitIndex, h.lastApplied]
  · simp [Node.recheckInstall, contacted, payload, h.currentTerm, h.commitIndex, h.lastApplied]

end Waiting

/-- One content for the snapshot of each entry. -/
def OneContentEach (a : Snapshot) : Prop := a = ⟨1, 1, twoChunks 0⟩ ∨ a = ⟨2, 1, twoChunks 1⟩

/-- The follower gets the first chunk of a snapshot twice, from two senders, and then
the second. -/
theorem snapshot_transfer_repeated :
    ∃ n c, Relation.ReflTransGen (Takes emptySetup 0 OneContentEach) emptyFollower n ∧
      n.loop = .restore c ∧
      n.payload = some (twoChunks 0) ∧ n.commitIndex < 1 ∧ n.lastApplied < 1 := by
  have hstart : Waiting emptyFollower := ⟨rfl, rfl, rfl, rfl, rfl, rfl⟩
  have hP : OneContentEach ⟨1, 1, twoChunks 0⟩ := .inl rfl
  have hone : OneContent OneContentEach := by
    rintro a b (rfl | rfl) (rfl | rfl) hindex - <;> first | rfl | cases hindex
  obtain ⟨n₁, h₁, hw₁, -⟩ := hstart.first 1 hP
  obtain ⟨n₂, h₂, hw₂, hbuffer⟩ := hw₁.first 2 hP
  obtain ⟨n₃, n₄, h₃, h₄, hloop, -⟩ := hw₂.second 1 hP hbuffer length_replicate
  have hrun := (((Relation.ReflTransGen.single h₁).tail h₂).tail h₃).tail h₄
  exact ⟨n₄, _, hrun, hloop, (snapshot_transfer.2 OneContentEach _ _ hone rfl rfl hrun _ hloop).2⟩

/-- Two contents for the snapshot of the first entry. -/
def TwoContents (a : Snapshot) : Prop := a = ⟨1, 1, twoChunks 0⟩ ∨ a = ⟨1, 1, twoChunks 1⟩

/-- **A mixture is restored**: nodes `1` and `2` hold different contents for the snapshot
of the first entry. The follower gets the first chunk of node `1`, then the first of
node `2`, then the second of node `1`. -/
theorem snapshot_mixture :
    ∃ n c bytes, Relation.ReflTransGen (Takes emptySetup 0 TwoContents) emptyFollower n ∧
      n.loop = .restore c ∧ n.payload = some bytes ∧ bytes ≠ twoChunks 0 ∧ bytes ≠ twoChunks 1 := by
  have hstart : Waiting emptyFollower := ⟨rfl, rfl, rfl, rfl, rfl, rfl⟩
  have h0 : TwoContents ⟨1, 1, twoChunks 0⟩ := .inl rfl
  have h1 : TwoContents ⟨1, 1, twoChunks 1⟩ := .inr rfl
  obtain ⟨n₁, h₁, hw₁, -⟩ := hstart.first 1 h1
  obtain ⟨n₂, h₂, hw₂, hbuffer⟩ := hw₁.first 2 h0
  obtain ⟨n₃, n₄, h₃, h₄, hloop, hpayload⟩ := hw₂.second 1 h1 hbuffer length_replicate
  refine ⟨n₄, _, _, (((Relation.ReflTransGen.single h₁).tail h₂).tail h₃).tail h₄, hloop,
    hpayload, ?_, ?_⟩
  · -- the last bytes differ
    intro heq
    have hlast := congrArg getLast? heq
    simp [twoChunks, getLast?_append, getLast?_replicate] at hlast
  · -- the first bytes differ
    intro heq
    have hhead := congrArg head? heq
    simp [twoChunks, head?_append, head?_replicate, snapshotChunkSize_pos.ne'] at hhead

end Anubis.Raft
