import Anubis.Raft.LogMatching

/-!
# Who builds the requests of a leader

`sendHeartbeats` builds an AppendEntries request under the lock it checks the
role under. `sendSnapshot` runs later, in the background: it reads the term
once it has read the snapshot, and builds chunk after chunk, without looking at
the role again. As long as a node keeps its role and its term while it
transfers a snapshot, the requests of a term are built by its elected leader.
-/

namespace Anubis.Raft

open List Option Sending Runs Cluster

variable {NodeId Cmd : Type} [LinearOrder NodeId] {S : Setup NodeId} {s s' : Cluster NodeId Cmd}
  {t t' : Sending NodeId Cmd} {e : Event NodeId Cmd} {f : Flight NodeId} {fl : List (Flight NodeId)}
  {net : List (Msg NodeId Cmd)} {allowed : SendEvent NodeId Cmd → Prop}
variable {m : Msg NodeId Cmd} {n : Node NodeId Cmd} {out : List (Msg NodeId Cmd)} {v : NodeId}
    {i : ℕ} {j : ℕ}
  {id peer : NodeId} {c T : ℕ}

/-- A node is the elected leader of a term. -/
def Node.Leads (n : Node NodeId Cmd) (T : ℕ) : Prop :=
  n.state = .leader ∧ n.currentTerm = T ∧ .becameLeader T ∈ n.trace

/-- What an AppendEntries or InstallSnapshot request that was sent was built as. -/
def Msg.builtAs : Msg NodeId Cmd → Option (Msg NodeId Cmd)
  | .append src dst req _ => some (.appendBuilt src dst req)
  | .chunk dst c => some (.chunk dst c)
  | _ => none

/-- Who builds a request, and the term it carries. -/
def Msg.builder : Msg NodeId Cmd → Option (NodeId × ℕ)
  | .appendBuilt src _ req => some (src, req.term)
  | .chunk _ c => some (c.sender, c.request.term)
  | _ => none

/-- The condition on a step: a node that goes on with the transfer of a snapshot is the
leader afterwards, of the term it had before. -/
def Sending.meets (S : Setup NodeId) (t : Sending NodeId Cmd) (e : SendEvent NodeId Cmd) : Bool :=
  (t.step S e).all fun t' => t'.flights.all fun f => !f.stage.transfers ||
    decide ((t'.cluster.nodes f.src).state = .leader) &&
      decide ((t'.cluster.nodes f.src).currentTerm = (t.cluster.nodes f.src).currentTerm)

/-- The steps that meet the condition. -/
def Sending.careful (S : Setup NodeId) :
    Sending NodeId Cmd → SendEvent NodeId Cmd → Option (Sending NodeId Cmd) :=
  restrict (fun t e => t.meets S e = true) (Sending.step S)

/-! ## One step -/

/-- What a step does to the cluster. -/
theorem Sending.step_event (h : t.step S (.event e) = some t') :
    ∃ fl, Raft.step S t.cluster e = some t'.cluster ∧ flightsAfter t t'.cluster e = some fl ∧
      t'.flights = relist t'.cluster fl := by
  simp only [Sending.step] at h
  split at h
  · cases h
  · next s' hs =>
    rw [map_eq_some_iff] at h
    obtain ⟨fl, hfl, rfl⟩ := h
    exact ⟨fl, hs, hfl, rfl⟩

/-- Messages stay where they are. -/
theorem net_grows (h : step S s e = some s') : s.net <+: s'.net := by
  rcases step_cases h with ⟨d, rfl⟩ | ⟨v, n, out, -, rfl⟩
  · exact prefix_refl _
  · exact prefix_append ..

/-- An event of a sender is taken by one call, which ends or goes on; the others stay. -/
theorem advanceFlight_spec {fl' : List (Flight NodeId)} (h : advanceFlight net e fl = some fl') :
    (∃ f ∈ fl, f.next net e ≠ none) ∧
      ∀ f' ∈ fl', f' ∈ fl ∨ ∃ f ∈ fl, ∃ stage, f.next net e = some (some stage) ∧
        f' = { f with stage := stage } := by
  induction fl generalizing fl' with
  | nil => cases h
  | cons f rest ih =>
    unfold advanceFlight at h
    split at h
    · next hnext =>
      cases h
      exact ⟨⟨f, (.head _), by simp [hnext]⟩, fun f' hf' => .inl (.tail _ hf')⟩
    · next stage hnext =>
      cases h
      refine ⟨⟨f, (.head _), by simp [hnext]⟩, fun f' hf' => ?_⟩
      rcases mem_cons.mp hf' with rfl | hf'
      · exact .inr ⟨f, (.head _), stage, hnext, rfl⟩
      · exact .inl (.tail _ hf')
    · rw [map_eq_some_iff] at h
      obtain ⟨fl'', hrest, rfl⟩ := h
      obtain ⟨⟨g, hg, hnext⟩, hmem⟩ := ih hrest
      refine ⟨⟨g, .tail _ hg, hnext⟩, fun f' hf' => ?_⟩
      rcases mem_cons.mp hf' with rfl | hf'
      · exact .inl (.head _)
      · rcases hmem f' hf' with hold | ⟨k, hk, stage, hstage⟩
        · exact .inl (.tail _ hold)
        · exact .inr ⟨k, .tail _ hk, stage, hstage⟩

/-- Where the calls after an event come from. -/
theorem mem_flightsAfter (h : flightsAfter t s' e = some fl) (hf : f ∈ fl) :
    f ∈ t.flights ∨ (∃ id peer c, e = .buildAppend id peer c ∧
      f = startFlight id peer t.cluster.net.length s') ∨
      ∃ f₀ ∈ t.flights, ∃ stage, f₀.next t.cluster.net e = some (some stage) ∧
        f = { f₀ with stage := stage } := by
  unfold flightsAfter at h
  split at h
  · split at h
    · cases h
    · cases h
      rcases mem_append.mp hf with hf | hf
      · exact .inl hf
      · exact .inr (.inl ⟨_, _, _, rfl, mem_singleton.mp hf⟩)
  · cases h
    exact .inl (mem_of_mem_filter hf)
  · split at h
    · exact ((advanceFlight_spec h).2 f hf).imp_right .inr
    · cases h
      exact .inl hf

/-- An event of a sender needs a call that takes it. -/
theorem exists_of_flightsAfter (h : flightsAfter t s' e = some fl) (he : e.ofSender = true) :
    ∃ f ∈ t.flights, f.next t.cluster.net e ≠ none := by
  unfold flightsAfter at h
  split at h
  · cases he
  · cases he
  · rw [if_pos he] at h
    exact (advanceFlight_spec h).1

/-! ### The steps of a transfer -/

theorem step_openSnapshot (h : step S s (.openSnapshot i) = some s') :
    ∃ src dst snap, s.net[i]? = some (.snapshotDue src dst) ∧
      s' = s.update src (s.nodes src) [.snapshotOpened src dst snap] := by
  simp only [step, effect, map_eq_some_iff] at h
  obtain ⟨r, hr, rfl⟩ := h
  split at hr
  · next src dst hmsg =>
    split at hr
    · cases hr
    · next snap _ =>
      cases hr
      exact ⟨src, dst, snap, hmsg, rfl⟩
  · cases hr

theorem step_sendSnapshot (h : step S s (.sendSnapshot i) = some s') :
    ∃ src dst snap, s.net[i]? = some (.snapshotOpened src dst snap) ∧
      s' = s.update src (s.nodes src)
        [.chunk dst ⟨src, ⟨snap, (s.nodes src).currentTerm, (s.nodes src).membershipBase⟩, 0,
          s.now⟩] := by
  simp only [step, effect, map_eq_some_iff] at h
  obtain ⟨r, hr, rfl⟩ := h
  split at hr
  · next src dst snap hmsg =>
    cases hr
    exact ⟨src, dst, snap, hmsg, rfl⟩
  · cases hr

theorem step_chunkAnswer (h : step S s (.chunkAnswer i) = some s') :
    ∃ src c resp, s.net[i]? = some (.chunkAnswer src c resp) ∧
      (c.request.done = true ∧
          s' = s.update c.sender ((s.nodes c.sender).snapshotSent c.transfer.term src
            c.transfer.snapshot.index) [] ∨
        c.request.done = false ∧ s' = s.update c.sender (s.nodes c.sender)
          [.chunk src { c with offset := c.offset + snapshotChunkSize, sentAt := s.now }]) := by
  simp only [step, effect, map_eq_some_iff] at h
  obtain ⟨r, hr, rfl⟩ := h
  split at hr
  · next src c resp hmsg =>
    refine ⟨src, c, resp, hmsg, ?_⟩
    split at hr
    · cases hr
    · split at hr
      · next hdone =>
        cases hr
        exact .inl ⟨hdone, rfl⟩
      · next hdone =>
        cases hr
        exact .inr ⟨Bool.eq_false_iff.mpr hdone, rfl⟩
  · cases hr

theorem step_buildAppend (h : step S s (.buildAppend id peer c) = some s') :
    (s.nodes id).state = .leader ∧
      (s' = s.update id (s.nodes id) [.snapshotDue id peer] ∨
        ∃ p, s' = s.update id (s.nodes id)
          [.appendBuilt id peer ((s.nodes id).appendRequest p c)]) := by
  simp only [step, effect, map_eq_some_iff] at h
  obtain ⟨r, hr, rfl⟩ := h
  split at hr
  · next hleader =>
    refine ⟨hleader.1, ?_⟩
    split at hr
    · cases hr
    · split at hr
      · cases hr
        exact .inl rfl
      · cases hr
        exact .inr ⟨_, rfl⟩
  · cases hr

/-- Where the requests of leaders come from: these steps, and for AppendEntries what
was built before. -/
def Msg.From (net : List (Msg NodeId Cmd)) (e : Event NodeId Cmd) : Msg NodeId Cmd → Prop
  | .appendBuilt _ _ _ => ∃ id peer c, e = .buildAppend id peer c
  | .append src dst req _ => .appendBuilt src dst req ∈ net
  | .chunk _ _ => ∃ i, e = .sendSnapshot i ∨ e = .chunkAnswer i
  | _ => True

/-- What a call goes on from is there, and a node that transfers a snapshot leads the
term it does so in. -/
def Flight.Ok (s : Cluster NodeId Cmd) (f : Flight NodeId) : Prop :=
  match f.stage with
  | .due i => s.net[i]? = some (.snapshotDue f.src f.dst) ∧ (s.nodes f.src).state = .leader
  | .opened i =>
    (∃ snap, s.net[i]? = some (.snapshotOpened f.src f.dst snap)) ∧ (s.nodes f.src).state = .leader
  | .chunk i => ∃ c, s.net[i]? = some (.chunk f.dst c) ∧ c.sender = f.src ∧
      (s.nodes f.src).state = .leader ∧ (s.nodes f.src).currentTerm = c.request.term
  | _ => True

section

omit [LinearOrder NodeId]

theorem from_of_mem_campaignMsgs (h : m ∈ campaignMsgs n) :
    m.From net e := by
  unfold campaignMsgs at h
  split at h
  · obtain ⟨p, -, rfl⟩ := List.mem_map.mp h
    exact trivial
  · obtain ⟨p, -, rfl⟩ := List.mem_map.mp h
    exact trivial
  · cases h

theorem from_of_mem_installMsgs {c : ChunkSend NodeId} {r : Option InstallSnapshotResponse}
    (h : m ∈ installMsgs id c r) : m.From net e := by
  unfold installMsgs at h
  split at h
  · cases h
  · rw [mem_singleton.mp h]
    exact trivial

theorem getElem?_of_prefix {net' : List (Msg NodeId Cmd)} (hnet : net <+: net')
    (hm : net[i]? = some m) : net'[i]? = some m := by
  obtain ⟨hlt, rfl⟩ := List.getElem?_eq_some_iff.mp hm
  exact prefix_iff_getElem?.mp hnet i hlt

/-- A call that nothing happened to, where its node keeps its role and term. -/
theorem Flight.Ok.kept (h : f.Ok s) (hnet : s.net <+: s'.net)
    (hrole : f.stage.transfers = true →
      (s'.nodes f.src).state = .leader ∧
      (s'.nodes f.src).currentTerm = (s.nodes f.src).currentTerm) :
    f.Ok s' := by
  have hat : ∀ {i m}, s.net[i]? = some m → s'.net[i]? = some m := fun hm =>
    getElem?_of_prefix hnet hm
  unfold Flight.Ok at h ⊢
  split at h
  · next i hstage =>
    rw [hstage] at hrole
    exact ⟨hat h.1, (hrole rfl).1⟩
  · next i hstage =>
    rw [hstage] at hrole
    exact ⟨h.1.imp fun _ => hat, (hrole rfl).1⟩
  · next i hstage =>
    rw [hstage] at hrole
    obtain ⟨c, hc, hsender, -, hterm⟩ := h
    exact ⟨c, hat hc, hsender, (hrole rfl).1, (hrole rfl).2.trans hterm⟩
  · exact trivial

end

theorem Acts.sends (h : Acts S s e v n out) (hm : m ∈ out) : m.From s.net e := by
  cases h with
  | electionTimeout | finishPreVote => exact from_of_mem_campaignMsgs hm
  | handleChunk | recheckInstall | finishInstall => exact from_of_mem_installMsgs hm
  | buildAppend =>
    rw [mem_singleton.mp hm]
    exact ⟨_, _, _, rfl⟩
  | sendAppend hmsg =>
    rw [mem_singleton.mp hm]
    exact hmsg
  | sendSnapshot =>
    rw [mem_singleton.mp hm]
    exact ⟨_, .inl rfl⟩
  | nextChunk =>
    rw [mem_singleton.mp hm]
    exact ⟨_, .inr rfl⟩
  | handlePreVote _ _ | handleVote _ _ | handleAppend _ _ | snapshotDue _ | openSnapshot _ _
  | addPeer _
  | removePeer =>
    rw [mem_singleton.mp hm]
    exact trivial
  | _ => cases hm

theorem mem_of_update (hj : s.net.length ≤ j) (hm : (s.update v n out).net[j]? = some m) :
    m ∈ out := by
  rw [update, getElem?_append_right hj] at hm
  exact mem_of_getElem? hm

/-! ## The invariant -/

theorem Flight.ok_start (h : step S s (.buildAppend id peer c) = some s') :
    (startFlight id peer s.net.length s').Ok s' := by
  obtain ⟨hstate, rfl | ⟨p, rfl⟩⟩ := step_buildAppend h
  · simp [startFlight, Flight.Ok, update, hstate]
  · simp [startFlight, Flight.Ok, update]

/-- What a call does with an answer to its chunk: it ends, or sends the next one. A
chunk is sent for a call that goes on from it, by the leader of its term. -/
theorem Flight.Ok.sends_chunk (h : f.Ok s) (hs : step S s e = some s')
    (he : e = .sendSnapshot i ∨ e = .chunkAnswer i) (hnext : f.next s.net e ≠ none) :
    f.next s.net e = some none ∧ s'.net = s.net ∨
      f.next s.net e = some (some (.chunk s.net.length)) ∧ ∃ c : ChunkSend NodeId,
        s' = s.update f.src (s.nodes f.src) [.chunk f.dst c] ∧ c.sender = f.src ∧
          (s.nodes f.src).state = .leader ∧ (s.nodes f.src).currentTerm = c.request.term := by
  rcases he with rfl | rfl
  · right
    simp only [Flight.next] at hnext ⊢
    split at hnext
    · next hstage =>
      simp only [Flight.Ok, hstage] at h
      obtain ⟨src, dst, snap, hmsg, rfl⟩ := step_sendSnapshot hs
      rw [hmsg] at h
      obtain ⟨⟨snap', heq⟩, hstate⟩ := h
      cases heq
      exact ⟨if_pos hstage, _, rfl, rfl, hstate, rfl⟩
    · exact absurd rfl hnext
  · simp only [Flight.next] at hnext ⊢
    split at hnext
    · next j hstage =>
      split at hnext
      · next hanswers =>
        simp only [Flight.Ok, hstage] at h
        obtain ⟨c, hc, hsender, hstate, hterm⟩ := h
        obtain ⟨src, c', resp, hmsg, hcases⟩ := step_chunkAnswer hs
        simp only [answers, hmsg, hc, decide_eq_true_eq] at hanswers
        obtain ⟨rfl, rfl⟩ := hanswers
        simp only [answers, hmsg, hc, and_self, decide_true, if_true, endsTransfer]
        rcases hcases with ⟨hdone, rfl⟩ | ⟨hdone, rfl⟩
        · exact .inl ⟨by rw [if_pos hdone], by simp [update]⟩
        · refine .inr ⟨by simp [hdone],
            { c' with offset := c'.offset + snapshotChunkSize, sentAt := s.now }, ?_,
            hsender, hstate, hterm⟩
          rw [hsender]
      · exact absurd rfl hnext
    · exact absurd rfl hnext

/-- A call that goes on. -/
theorem Flight.Ok.next (h : f.Ok s) (hs : step S s e = some s') {stage : Stage}
    (hnext : f.next s.net e = some (some stage)) (hrole : stage.transfers = true →
      (s'.nodes f.src).state = .leader ∧
      (s'.nodes f.src).currentTerm = (s.nodes f.src).currentTerm) :
    Flight.Ok s' { f with stage := stage } := by
  have hchunk : ∀ i, e = .sendSnapshot i ∨ e = .chunkAnswer i →
    Flight.Ok s' { f with stage := stage } := by
    intro i he
    rcases h.sends_chunk hs he (by simp [hnext]) with ⟨hnone, -⟩ | ⟨hsome, c, rfl, hsender,
      hstate, hterm⟩
    · cases hnext.symm.trans hnone
    · cases hnext.symm.trans hsome
      simp [Flight.Ok, update, hsender, hstate, hterm]
  cases e with
  | openSnapshot =>
    simp only [Flight.next, ite_none_right_eq_some, some.injEq] at hnext
    obtain ⟨hstage, rfl⟩ := hnext
    simp only [Flight.Ok, hstage] at h
    obtain ⟨src, dst, snap, hmsg, rfl⟩ := step_openSnapshot hs
    rw [hmsg] at h
    obtain ⟨heq, hstate⟩ := h
    cases heq
    simp [Flight.Ok, update, hstate]
  | sendSnapshot i => exact hchunk i (.inl rfl)
  | chunkAnswer i => exact hchunk i (.inr rfl)
  | markChunkAck =>
    -- the call stays where it is
    simp only [Flight.next] at hnext
    split at hnext
    · next j hstage =>
      simp only [ite_none_right_eq_some, some.injEq] at hnext
      obtain ⟨-, rfl⟩ := hnext
      rw [← hstage] at hrole ⊢
      exact h.kept (net_grows hs) hrole
    · cases hnext
  | sendAppend =>
    simp only [Flight.next, ite_none_right_eq_some, some.injEq] at hnext
    obtain ⟨-, rfl⟩ := hnext
    exact trivial
  | markAck =>
    simp only [Flight.next] at hnext
    split at hnext
    · simp only [ite_none_right_eq_some, some.injEq] at hnext
      obtain ⟨-, rfl⟩ := hnext
      exact trivial
    · cases hnext
  | appendAnswer =>
    simp only [Flight.next] at hnext
    split at hnext
    · simp at hnext
    · cases hnext
  | _ => cases hnext

/-- **The invariant**: leaders are recorded, and every call is as it should be. -/
structure Sending.Ok (t : Sending NodeId Cmd) : Prop where
  nodes : ∀ v, VoteNode (t.cluster.nodes v)
  flights : ∀ f ∈ t.flights, f.Ok t.cluster

theorem VoteNode.step (h : ∀ v, VoteNode (s.nodes v)) (hs : step S s e = some s') :
    ∀ v, VoteNode (s'.nodes v) := by
  have hrun : Runs.Reachable (Raft.step S) (fun _ => True) s s' := .step .init trivial hs
  exact node_micro (P := fun _ => VoteNode) hrun h fun _ h hm => hm.voteNode h

variable {e : SendEvent NodeId Cmd}

theorem Sending.Ok.step (h : t.Ok) (hs : t.step S e = some t')
    (hmeets : t.meets S e = true) : t'.Ok := by
  simp only [Sending.meets, hs, all_some, List.all_eq_true, Bool.or_eq_true, Bool.not_eq_true',
    Bool.and_eq_true, decide_eq_true_eq] at hmeets
  cases e with
  | giveUp =>
    cases hs
    exact ⟨h.nodes, fun f hf => h.flights f (mem_of_mem_eraseIdx hf)⟩
  | event =>
    obtain ⟨fl, hstep, hafter, hfl⟩ := step_event hs
    refine ⟨VoteNode.step h.nodes hstep, fun f hf => ?_⟩
    have hrole := hmeets f hf
    rw [hfl] at hf
    obtain ⟨f₀, hf₀, rfl⟩ := List.mem_map.mp hf
    -- being listed or not makes no difference
    change f₀.Ok t'.cluster
    change f₀.stage.transfers = false ∨ _ at hrole
    have hrole' : f₀.stage.transfers = true → (t'.cluster.nodes f₀.src).state = .leader ∧
        (t'.cluster.nodes f₀.src).currentTerm = (t.cluster.nodes f₀.src).currentTerm := by
      intro htrue
      rw [htrue] at hrole
      exact hrole.resolve_left Bool.noConfusion
    rcases mem_flightsAfter hafter hf₀ with hold | ⟨id, peer, c, rfl, rfl⟩ |
      ⟨f₁, hf₁, stage, hnext, rfl⟩
    · exact (h.flights f₀ hold).kept (net_grows hstep) hrole'
    · exact Flight.ok_start hstep
    · exact (h.flights f₁ hf₁).next hstep hnext hrole'

theorem Sending.ok_init : (S.sending : Sending NodeId Cmd).Ok :=
  ⟨(elections_init (V := ∅)).nodes, fun _ hf => by cases hf⟩

theorem Sending.Ok.run (h : Runs.Reachable (Sending.careful S) allowed S.sending t) : t.Ok := by
  refine h.invariant ok_init fun t e t' _ ht _ hs => ?_
  obtain ⟨hmeets, hstep⟩ := restrict_eq_some.mp hs
  exact ht.step hstep hmeets

/-! ## Every run -/

/-- The request at a place was built in a step the node `v` began as the elected
leader of term `T`. -/
def BuiltBy (j : ℕ) (v : NodeId) (T : ℕ) (t t' : Sending NodeId Cmd) : Prop :=
  t.cluster.net.length ≤ j ∧ j < t'.cluster.net.length ∧ (t.cluster.nodes v).Leads T

theorem Sending.net_grows (hs : t.step S e = some t') :
    t.cluster.net <+: t'.cluster.net := by
  cases e with
  | giveUp =>
    cases hs
    exact prefix_refl _
  | event =>
    obtain ⟨-, hstep, -, -⟩ := step_event hs
    exact Raft.net_grows hstep

/-- A message that is new after an event. -/
theorem Sending.new_message (hs : t.step S e = some t')
    (hj : t.cluster.net.length ≤ j) (hm : t'.cluster.net[j]? = some m) :
    ∃ e₀ fl, e = .event e₀ ∧ Raft.step S t.cluster e₀ = some t'.cluster ∧
      flightsAfter t t'.cluster e₀ = some fl ∧
      m.From t.cluster.net e₀ := by
  cases e with
  | giveUp =>
    cases hs
    rw [getElem?_eq_none hj] at hm
    cases hm
  | event e =>
    obtain ⟨fl, hstep, hafter, -⟩ := step_event hs
    refine ⟨e, fl, rfl, hstep, hafter, ?_⟩
    rcases step_cases hstep with ⟨d, hd⟩ | ⟨v, n, out, hacts, hupdate⟩
    · rw [hd, getElem?_eq_none hj] at hm
      cases hm
    · rw [hupdate] at hm
      exact hacts.sends (mem_of_update hj hm)

/-- **Requests are built by the leader of their term.** -/
theorem Sending.Ok.built (h : t.Ok) (hs : t.step S e = some t')
    (hj : t.cluster.net.length ≤ j) (hm : t'.cluster.net[j]? = some m)
    (hv : m.builder = some (v, T)) : BuiltBy j v T t t' := by
  refine ⟨hj, (List.getElem?_eq_some_iff.mp hm).1, ?_⟩
  have hlead : (t.cluster.nodes v).state = .leader → (t.cluster.nodes v).currentTerm = T →
      (t.cluster.nodes v).Leads T := by
    rintro hstate rfl
    exact ⟨hstate, rfl, (h.nodes v).leader hstate⟩
  obtain ⟨e, fl, rfl, hstep, hafter, hfrom⟩ := new_message hs hj hm
  unfold Msg.builder at hv
  split at hv
  · cases hv
    obtain ⟨id, peer, c, rfl⟩ := hfrom
    obtain ⟨hstate, hsent | ⟨p, hsent⟩⟩ := step_buildAppend hstep <;> rw [hsent] at hm
    · cases mem_singleton.mp (mem_of_update hj hm)
    · cases mem_singleton.mp (mem_of_update hj hm)
      exact hlead hstate rfl
  · cases hv
    obtain ⟨i, he⟩ := hfrom
    have hsender : e.ofSender = true := by rcases he with rfl | rfl <;> rfl
    -- the call the chunk is sent for is in a transfer of the leader
    obtain ⟨f, hf, hnext⟩ := exists_of_flightsAfter hafter hsender
    rcases (h.flights f hf).sends_chunk hstep he hnext with
      ⟨-, hsame⟩ | ⟨-, c, hsent, hsrc, hstate, hterm⟩
    · rw [hsame, getElem?_eq_none hj] at hm
      cases hm
    · rw [hsent] at hm
      cases mem_singleton.mp (mem_of_update hj hm)
      rw [hsrc] at hlead ⊢
      exact hlead hstate hterm
  · cases hv

/-- Along a run, what was built was built by the leader of its term. -/
theorem built_run (h : Runs.Reachable (Sending.careful S) allowed S.sending t) {b : Msg NodeId Cmd}
    (hb : t.cluster.net[j]? = some b) (hv : b.builder = some (v, T)) :
    Happened (Sending.careful S) allowed S.sending (BuiltBy j v T) t := by
  induction h with
  | init => cases hb
  | @step t t' e hr ha hs ih =>
    rcases Nat.lt_or_ge j t.cluster.net.length with hlt | hge
    · refine (ih ?_).later ha hs
      obtain ⟨-, hstep⟩ := restrict_eq_some.mp hs
      rw [← hb, getElem?_eq_getElem hlt]
      exact (prefix_iff_getElem?.mp (Sending.net_grows hstep) j hlt).symm
    · obtain ⟨-, hstep⟩ := restrict_eq_some.mp hs
      exact .now hr ha hs ((Sending.Ok.run hr).built hstep hge hb hv)

/-- An AppendEntries request that was sent was built before. -/
theorem sent_run (h : Runs.Reachable (Sending.step S) allowed S.sending t) {i sentAt : ℕ}
    {src dst : NodeId} {req : AppendEntriesRequest NodeId Cmd}
    (hm : t.cluster.net[i]? = some (.append src dst req sentAt)) :
    ∃ j ≤ i, t.cluster.net[j]? = some (.appendBuilt src dst req) := by
  induction h with
  | init => cases hm
  | @step t t' e hr ha hs ih =>
    have hkeep : ∀ {k m}, t.cluster.net[k]? = some m → t'.cluster.net[k]? = some m :=
      fun hk => getElem?_of_prefix (Sending.net_grows hs) hk
    rcases Nat.lt_or_ge i t.cluster.net.length with hlt | hge
    · have hold := getElem?_eq_getElem hlt
      rw [some.inj ((hkeep hold).symm.trans hm)] at hold
      exact (ih hold).imp fun j hj => ⟨hj.1, hkeep hj.2⟩
    · obtain ⟨e, fl, -, -, -, hfrom⟩ := new_message hs hge hm
      obtain ⟨j, hj⟩ := mem_iff_getElem?.mp (hfrom : .appendBuilt src dst req ∈ t.cluster.net)
      exact ⟨j, ((List.getElem?_eq_some_iff.mp hj).1.le.trans hge), hkeep hj⟩

/-- **Leader messages are authentic**: in every run in which nodes keep their role and
term while they transfer a snapshot, every AppendEntries and every InstallSnapshot
request that was sent was built in a step that its sender began as the elected
leader of the term it carries. -/
theorem leader_messages_authentic (h : Runs.Reachable (Sending.careful S) allowed S.sending t)
    {i : ℕ} {m b : Msg NodeId Cmd} (hm : t.cluster.net[i]? = some m) (hb : m.builtAs = some b) :
    ∃ j ≤ i, t.cluster.net[j]? = some b ∧ ∃ v T, b.builder = some (v, T) ∧
      Happened (Sending.careful S) allowed S.sending (BuiltBy j v T) t := by
  unfold Msg.builtAs at hb
  split at hb
  · next src dst req sentAt =>
    cases hb
    obtain ⟨j, hj, hbuilt⟩ := sent_run h.of_restrict hm
    exact ⟨j, hj, hbuilt, src, req.term, rfl, built_run h hbuilt rfl⟩
  · next dst c =>
    cases hb
    exact ⟨i, le_rfl, hm, c.sender, c.request.term, rfl, built_run h hm rfl⟩
  · cases hb

/-- Node `0` leads, takes a snapshot of its first entry and reads it, to send it to
node `2`. -/
def snapshotOpening : List (Event (Fin 3) Unit) :=
  firstLeader ++ [.buildAppend 0 1 0, .sendAppend 6, .handleAppend 7 {}, .appendAnswer 8 true true,
    .startPass 0,
    .applierStep 0 {}, .applierStep 0 {}, .applierStep 0 {}, .applierStep 0 {}, .applierStep 0 {},
    .takeSnapshot 0 true [7], .applierStep 0 {}, .buildAppend 0 2 1, .openSnapshot 9]

/-- It sends the snapshot. -/
def snapshotSending : List (Event (Fin 3) Unit) := snapshotOpening ++ [.sendSnapshot 10]

/-- It sends the snapshot once node `1` has been elected by node `2`, and node `0` has
heard of that. -/
def lateSending : List (Event (Fin 3) Unit) :=
  snapshotOpening ++ [.tick 20, .electionTimeout 1 true, .handlePreVote 12, .preVoteAnswer 13 true,
    .finishPreVote 1 true, .handleVote 15 true true, .voteAnswer 16 true, .finishVote 1 true,
    .handleVote 14 true true, .sendSnapshot 10]

theorem leader_messages_authentic_snappyTrio :
    ∃ t, Runs.run (Sending.careful snappyTrio) snappyTrio.sending (snapshotSending.map .event) =
      some t ∧
      ∃ m b, t.cluster.net[11]? = some m ∧ m.builtAs = some b ∧ b.builder = some (0, 1) ∧
        ∃ j ≤ 11, t.cluster.net[j]? = some b ∧ ∃ v T, b.builder = some (v, T) ∧
          Happened (Sending.careful snappyTrio) (fun _ => True) snappyTrio.sending
          (BuiltBy j v T) t := by
  have hevaluated : ((Runs.run (Sending.careful snappyTrio) snappyTrio.sending
    (snapshotSending.map .event)).any
      fun t => (t.cluster.net[11]?.bind Msg.builtAs).any fun b =>
        decide (b.builder = some (0, 1))) = true := by
    decide +kernel
  obtain ⟨t, hrun, hany⟩ := exists_of_any hevaluated
  have hreach : Runs.Reachable (Sending.careful snappyTrio) (fun _ => True) snappyTrio.sending t :=
    .of_run .init (fun _ _ => trivial) hrun
  obtain ⟨b, hb, hbuilder⟩ := (Option.any_eq_true _ _).mp hany
  obtain ⟨m, hm, hb⟩ := bind_eq_some_iff.mp hb
  exact ⟨t, hrun, m, b, hm, hb, of_decide_eq_true hbuilder, leader_messages_authentic hreach hm hb⟩

/-- **A chunk is stamped with another leader's term**: node `0` goes on with its transfer
once it follows node `1`, which leads term `2`. Its chunk carries term `2`, in
which it was never elected. -/
theorem chunk_of_follower :
    ((Runs.run (Sending.step snappyTrio) snappyTrio.sending (lateSending.map .event)).any fun t =>
      (t.cluster.net[18]?.bind Msg.builtAs).any (fun b => decide (b.builder = some (0, 2))) &&
        decide (.becameLeader 2 ∉ (t.cluster.nodes 0).trace)) = true := by
  decide +kernel

end Anubis.Raft
