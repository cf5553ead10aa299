import Anubis.Raft.Helpers.FixedVoters

/-!
# Election safety

With a fixed set of voters at most one node becomes leader in a term, and no
node votes for two candidates in one term, whatever is lost, repeated or
reordered, whichever hard-state writes fail, and wherever nodes crash and
restart.

A candidate that wins holds recorded votes of a majority (`Elections`), and
two majorities share a voter, which votes once a term (`VoteNode.one`).
-/

namespace Anubis.Raft

open Quorum List Cluster Node

variable {NodeId Cmd : Type} [LinearOrder NodeId]

/-- Node `v` entered `StateLeader` in term `T`. -/
def Cluster.Elected (s : Cluster NodeId Cmd) (v : NodeId) (T : ℕ) : Prop :=
  .becameLeader T ∈ (s.nodes v).trace

/-- Node `v` granted its vote in term `T` to `c`. -/
def Cluster.VotedFor (s : Cluster NodeId Cmd) (v : NodeId) (T : ℕ) (c : NodeId) : Prop :=
  .voted T c ∈ (s.nodes v).trace

/-- **Campaigns and leaders rest on recorded votes.** -/
structure Elections (V : Finset NodeId) (s : Cluster NodeId Cmd) : Prop where
  nodes : ∀ v, VoteNode (s.nodes v)
  answers : ∀ src req resp, .voteAnswer src req resp ∈ s.net → resp.voteGranted = true →
    s.VotedFor src req.term req.candidateID
  asks : ∀ v c, (s.nodes v).loop = .preVote c ∨ (s.nodes v).loop = .vote c → c.Asks v V
  votes : ∀ v c, (s.nodes v).loop = .vote c →
    c.Counts ∧ s.VotedFor v c.term v ∧ ∀ u ∈ c.granted, s.VotedFor u c.term v
  leaders : ∀ v T, s.Elected v T → ∃ Q, IsMajority Q V ∧ ∀ u ∈ Q, s.VotedFor u T v

variable {S : Setup NodeId} {net : List (Msg NodeId Cmd)} {now : ℕ} {v : NodeId} {l : Label}
  {n n' : Node NodeId Cmd} {out : List (Msg NodeId Cmd)} {s : Cluster NodeId Cmd}
  {V : Finset NodeId} {T : ℕ}

/-! ## What a small change does to campaigns -/

/-- A granted vote is recorded when it is sent. -/
theorem Micro.granted (hm : Micro S net now v n l n' out) {src : NodeId}
    {req : RequestVoteRequest NodeId} {resp : VoteResponse} (hmsg : .voteAnswer src req resp ∈ out)
    (hyes : resp.voteGranted = true) : src = v ∧ .voted req.term req.candidateID ∈ n'.trace := by
  cases hm with
  | send hsend =>
    rw [mem_singleton] at hmsg
    subst hmsg
    cases hsend with
    | voteRefused hno =>
      rw [hno] at hyes
      cases hyes
  | castVote _ _ _ hterm =>
    rw [mem_singleton] at hmsg
    cases hmsg
    exact ⟨rfl, by simp [hterm]⟩
  | preVote | stand | accept | install => simp at hmsg
  | _ => cases hmsg

/-- Where a new leader comes from. -/
theorem Micro.elected (hm : Micro S net now v n l n' out) (h : .becameLeader T ∈ n'.trace) :
    .becameLeader T ∈ n.trace ∨ ∃ c, n.loop = .vote c ∧ c.term = T ∧
    votesNeeded c.peers ≤ c.votes := by
  cases hm with
  | stand | castVote | commit | hand | applyChange => exact .inl (by simpa using h)
  | leadFailed hloop hterm _ hvotes | lead hloop hterm _ hvotes =>
    rcases mem_append.mp h with h | h
    · exact .inl h
    · cases mem_singleton.mp h
      exact .inr ⟨_, hloop, hterm.symm, hvotes⟩
  | accept =>
    refine .inl ?_
    have htrace : ∀ io req, (n.acceptAppend io now req).1.trace = n.trace := fun io req =>
      acceptAppend_induct (P := fun m => m.trace = n.trace) rfl (fun _ => id) (fun _ => id) id id
        fun _ h _ => h
    rwa [htrace] at h
  | restore _ hm =>
    refine .inl ?_
    rw [(Kept.restore hm).trace] at h
    unfold restoreHardState at h
    split at h <;> exact h
  | _ => exact .inl h

/-- **Where a campaign comes from**: it goes on, it counted an answer, or it
was just opened. -/
inductive CampaignFrom (net : List (Msg NodeId Cmd)) (v : NodeId) (n n' : Node NodeId Cmd) :
    Loop NodeId → Prop
  | same {p : Loop NodeId} (h : n.loop = p) : CampaignFrom net v n n' p
  | opened {c} (hself : n.selfNonVoter = false) (hpeers : c.peers = n.votingPeers.map (·.id)) :
      CampaignFrom net v n n' (.preVote c)
  | preVote {c src resp} (h : n.loop = .preVote c) :
      CampaignFrom net v n n' (.preVote (c.countAnswer src resp))
  | stood {c c'} (h : n.loop = .preVote c) (hpeers : c'.peers = c.peers)
      (hgranted : c'.granted = [])
      (hvoted : .voted c'.term n.nodeID ∈ n'.trace) : CampaignFrom net v n n' (.vote c')
  | vote {c src req resp} (h : n.loop = .vote c) (hmsg : .voteAnswer src req resp ∈ net)
      (hid : req.candidateID = v) (hterm : c.term = req.term) :
      CampaignFrom net v n n' (.vote (c.countAnswer src resp))
  | other {p : Loop NodeId} (h₁ : ∀ c, p ≠ .preVote c) (h₂ : ∀ c, p ≠ .vote c) :
      CampaignFrom net v n n' p

theorem Micro.campaign (hm : Micro S net now v n l n' out) : CampaignFrom net v n n' n'.loop := by
  cases hm with
  | preVote _ _ hself => exact .opened hself rfl
  | countPreVote hloop => exact .preVote hloop
  | countVote hloop hmsg hid hterm => exact .vote hloop hmsg hid hterm
  | stand _ hloop => exact .stood hloop rfl rfl (by simp)
  | idle _ | standFailed _ | leadFailed _ _ _ _ | lead _ _ _ _ | publish _ _ _ _ _ | recheck _ _ _ _
  | abandon => exact .other (by simp) (by simp)
  | accept =>
    exact acceptAppend_induct (P := fun m => CampaignFrom net v n _ m.loop) (.same rfl)
      (fun _ => id) (fun _ => id) id id fun _ h _ => h
  | install => exact .other (p := .idle) (by simp) (by simp)
  | restore _ hm =>
    have hloop : n'.loop = .idle := (Kept.restore hm).loop.trans (restoreHardState_idle _).1
    rw [hloop]
    exact .other (by simp) (by simp)
  | _ => exact .same rfl

/-! ## The invariant -/

theorem Cluster.VotedFor.put {u c : NodeId} (h : s.VotedFor u T c)
    (hn : (s.nodes v).trace <+: n.trace) : (s.put v n out).VotedFor u T c := by
  unfold VotedFor at h ⊢
  by_cases hu : u = v
  · subst hu
    rw [put_nodes_self]
    exact hn.subset h
  · rw [put_nodes_ne hu]
    exact h

/-- **One small change keeps campaigns and leaders on recorded votes**, as
long as the voters of the node are `V`. -/
theorem Elections.step (h : Elections V s) (hsync : Synced (s.nodes v))
    (hid : (s.nodes v).nodeID = v) (hV : memberVoters (s.nodes v).membershipLatest = V)
    (hm : Micro S s.net s.now v (s.nodes v) l n out) : Elections V (s.put v n out) := by
  have hpre := hm.trace_prefix
  have hmono : ∀ {u T c}, s.VotedFor u T c → (s.put v n out).VotedFor u T c := fun h => h.put hpre
  have hself : ∀ {T c}, .voted T c ∈ n.trace → (s.put v n out).VotedFor v T c := by
    intro T c hT
    unfold VotedFor
    rw [put_nodes_self]
    exact hT
  refine ⟨?_, ?_, ?_, ?_, ?_⟩
  · exact (forall_put (P := fun _ => VoteNode) (Q := fun _ => True) h.nodes (fun _ _ => trivial)
      (hm.voteNode (h.nodes v)) fun _ _ => trivial).1
  · intro src req resp hmsg hyes
    rcases mem_append.mp hmsg with hmsg | hmsg
    · exact hmono (h.answers src req resp hmsg hyes)
    · obtain ⟨rfl, hvoted⟩ := hm.granted hmsg hyes
      exact hself hvoted
  · intro u c hc
    by_cases hu : u = v
    · subst hu
      rw [put_nodes_self] at hc
      have hfrom := hm.campaign
      rcases hc with hc | hc <;> rw [hc] at hfrom
      · cases hfrom with
        | same hloop => exact h.asks _ _ (.inl hloop)
        | opened hflag hpeers =>
          have := hsync.asks hflag hpeers
          rwa [hid, hV] at this
        | preVote hloop => exact (h.asks _ _ (.inl hloop)).countAnswer _ _
        | other h₁ => exact absurd rfl (h₁ c)
      · cases hfrom with
        | same hloop => exact h.asks _ _ (.inr hloop)
        | stood hloop hpeers =>
          have := h.asks _ _ (.inl hloop)
          unfold Campaign.Asks at this ⊢
          rwa [hpeers]
        | vote hloop => exact (h.asks _ _ (.inr hloop)).countAnswer _ _
        | other _ h₂ => exact absurd rfl (h₂ c)
    · rw [put_nodes_ne hu] at hc
      exact h.asks u c hc
  · intro u c hc
    by_cases hu : u = v
    · subst hu
      rw [put_nodes_self] at hc
      have hfrom := hm.campaign
      rw [hc] at hfrom
      cases hfrom with
      | same hloop =>
        obtain ⟨hcounts, hown, hothers⟩ := h.votes _ _ hloop
        exact ⟨hcounts, hmono hown, fun w hw => hmono (hothers w hw)⟩
      | stood _ _ hgranted hvoted =>
        rw [hid] at hvoted
        refine ⟨?_, hself hvoted, ?_⟩
        · unfold Campaign.Counts
          rw [hgranted]
          simp
        · simp [hgranted]
      | vote hloop hmsg hcand hterm =>
        obtain ⟨hcounts, hown, hothers⟩ := h.votes _ _ hloop
        rw [Campaign.term_countAnswer]
        refine ⟨hcounts.countAnswer _ _, hmono hown, fun w hw => ?_⟩
        rcases Campaign.mem_granted hw with hw | ⟨rfl, hyes⟩
        · exact hmono (hothers w hw)
        · have := h.answers _ _ _ hmsg hyes
          rw [← hterm, hcand] at this
          exact hmono this
      | other _ h₂ => exact absurd rfl (h₂ c)
    · rw [put_nodes_ne hu] at hc
      obtain ⟨hcounts, hown, hothers⟩ := h.votes u c hc
      exact ⟨hcounts, hmono hown, fun w hw => hmono (hothers w hw)⟩
  · intro u T hT
    have hold : s.Elected u T ∨ u = v ∧ ∃ c, (s.nodes v).loop = .vote c ∧ c.term = T ∧
        votesNeeded c.peers ≤ c.votes := by
      unfold Elected at hT ⊢
      by_cases hu : u = v
      · subst hu
        rw [put_nodes_self] at hT
        exact (hm.elected hT).imp_right fun hc => ⟨rfl, hc⟩
      · rw [put_nodes_ne hu] at hT
        exact .inl hT
    rcases hold with hold | ⟨rfl, c, hloop, rfl, hvotes⟩
    · obtain ⟨Q, hQ, hv⟩ := h.leaders u T hold
      exact ⟨Q, hQ, fun w hw => hmono (hv w hw)⟩
    · obtain ⟨hcounts, hown, hothers⟩ := h.votes _ _ hloop
      refine ⟨_, Campaign.isMajority (h.asks _ _ (.inr hloop)) hcounts hvotes, fun w hw => ?_⟩
      rw [Finset.mem_insert, mem_toFinset] at hw
      rcases hw with rfl | hw
      · exact hmono hown
      · exact hmono (hothers w hw)

/-- **Two leaders of one term are the same node.** -/
theorem Elections.leader_unique (h : Elections V s) {a b : NodeId} (ha : s.Elected a T)
    (hb : s.Elected b T) : a = b := by
  obtain ⟨Q, hQ, hva⟩ := h.leaders a T ha
  obtain ⟨Q', hQ', hvb⟩ := h.leaders b T hb
  obtain ⟨u, hu, hu'⟩ := hQ.exists_mem_both hQ' (Adjacent.refl V)
  exact (h.nodes u).one T a b (hva u hu) (hvb u hu')

variable {M : List (RaftPeer NodeId)}

theorem elections_init : Elections V (S.init : Cluster NodeId Cmd) where
  nodes v := ⟨by simp [Setup.init, newNode, refreshMembership, syncPeers], by
    simp [Setup.init, newNode, refreshMembership, syncPeers], by
    simp [Setup.init, newNode, refreshMembership, syncPeers], nofun⟩
  answers _ _ _ h := by cases h
  asks _ _ h := by rcases h with h | h <;> cases h
  votes _ _ h := by cases h
  leaders _ _ h := by cases h

/-- In every run without membership changes campaigns and leaders rest on
recorded votes. -/
theorem Reachable.elections (h : Reachable S Event.NoMembership s) (hS : S.Agreed M)
    (hall : ∀ id, id ∈ M.map (·.id)) : Elections (memberVoters M) s := by
  refine (run_micro (J := fun s => s.Fixed M ∧ Elections (memberVoters M) s) h
    ⟨hS.fixed_init, elections_init⟩ ?_ ?_).2
  · exact fun _ hs => ⟨⟨hs.1.nodes, hs.1.net, hs.1.synced, hs.1.ids⟩,
      ⟨hs.2.nodes, hs.2.answers, hs.2.asks, hs.2.votes, hs.2.leaders⟩⟩
  · intro s v l n out hl hs hm
    refine ⟨hs.1.step hS ?_ (fun _ => hall v) hm,
      hs.2.step (hs.1.synced v) (hs.1.ids v) (hs.1.voters v) hm⟩
    rcases hl with rfl | ⟨e, he, rfl⟩
    · exact Label.noConfusion
    · exact he.label

/-- **Election safety.** With a fixed set of voters, at most one node ever
enters `StateLeader` in a term, and a node never votes for two candidates in
one term, also across restarts. Who leads has entered `StateLeader` in its
term, and every granted vote that was sent is on record. -/
theorem election_safety (hS : S.Agreed M) (hall : ∀ id, id ∈ M.map (·.id))
    (h : Reachable S Event.NoMembership s) :
    (∀ T a b, s.Elected a T → s.Elected b T → a = b) ∧
      (∀ v T c c', s.VotedFor v T c → s.VotedFor v T c' → c = c') ∧
      (∀ v, (s.nodes v).state = .leader → s.Elected v (s.nodes v).currentTerm) ∧
      ∀ v req resp, .voteAnswer v req resp ∈ s.net → resp.voteGranted = true →
        s.VotedFor v req.term req.candidateID := by
  have he := h.elections hS hall
  exact ⟨fun T a b ha hb => he.leader_unique ha hb, fun v T c c' => (he.nodes v).one T c c',
    fun v hl => (he.nodes v).leader hl, he.answers⟩

/-- Three voters. -/
def trio : Setup (Fin 3) where
  config _ := ⟨10, 64, 0, 0, false⟩
  members _ := [⟨0, .voter⟩, ⟨1, .voter⟩, ⟨2, .voter⟩]

theorem trio_agreed : trio.Agreed [⟨0, .voter⟩, ⟨1, .voter⟩, ⟨2, .voter⟩] :=
    ⟨fun _ => rfl, by decide⟩

/-- Node `0` wins the pre-vote and the vote of node `1`, which then restarts. -/
def trioElection : List (Event (Fin 3) Unit) :=
  [.electionTimeout 0 true, .handlePreVote 0, .preVoteAnswer 2 true, .finishPreVote 0 true,
    .handleVote 3 true true, .voteAnswer 5 true, .finishVote 0 true, .restart 1 true []]

theorem election_safety_trio : ∃ s, Runs.run (step trio) trio.init trioElection = some s ∧
    s.Elected 0 1 ∧ s.VotedFor 1 1 0 ∧ (∀ b, s.Elected b 1 → 0 = b) ∧
    ∀ c, s.VotedFor 1 1 c → 0 = c := by
  have hrun : ((Runs.run (step trio) trio.init trioElection).any fun s =>
      decide (.becameLeader 1 ∈ (s.nodes 0).trace) &&
        decide (.voted 1 0 ∈ (s.nodes 1).trace)) = true := by
    decide
  obtain ⟨s, hs, hfacts⟩ := Runs.exists_of_any hrun
  obtain ⟨h0, h1⟩ : s.Elected 0 1 ∧ s.VotedFor 1 1 0 := by
    simpa [Elected, VotedFor] using hfacts
  have hreach : Reachable trio Event.NoMembership s :=
    .of_run .init (by simp [trioElection, Event.NoMembership]) hs
  obtain ⟨hone, hvote, -, -⟩ := election_safety trio_agreed (by decide) hreach
  exact ⟨s, hs, h0, h1, fun b hb => hone 1 0 b h0 hb, fun c hc => hvote 1 1 0 c h1 hc⟩

/-- **Elections are durable**: once a node was elected, a majority of the voters is
past its term or has, in memory and on disk, its vote for it, through every crash. -/
theorem election_durable (hS : S.Agreed M) (hall : ∀ id, id ∈ M.map (·.id))
    (h : Reachable S Event.NoMembership s) (hT : s.Elected v T) :
    ∃ Q, IsMajority Q (memberVoters M) ∧
      ∀ u ∈ Q, Honours (s.nodes u).currentTerm (s.nodes u).votedFor T v ∧
      ∃ d, (s.nodes u).disk.hardState = some d ∧ Honours d.currentTerm d.votedFor T v := by
  have he := h.elections hS hall
  obtain ⟨Q, hQ, hvoted⟩ := he.leaders v T hT
  exact ⟨Q, hQ, fun u hu =>
    ⟨(he.nodes u).memory T v (hvoted u hu), (he.nodes u).disk T v (hvoted u hu)⟩⟩

theorem election_durable_trio : ∃ s Q, Runs.run (step trio) trio.init trioElection = some s ∧
    IsMajority Q {0, 1, 2} ∧ ∀ u ∈ Q, Honours (s.nodes u).currentTerm (s.nodes u).votedFor 1 0 ∧
      ∃ d, (s.nodes u).disk.hardState = some d ∧ Honours d.currentTerm d.votedFor 1 0 := by
  obtain ⟨s, hs, hfacts⟩ :=
    Runs.exists_of_any (show ((Runs.run (step trio) trio.init trioElection).any fun s =>
    decide (.becameLeader 1 ∈ (s.nodes 0).trace)) = true by decide)
  obtain ⟨Q, hQ, hvoted⟩ := election_durable trio_agreed (by decide)
    (.of_run .init (by simp [trioElection, Event.NoMembership]) hs)
    (by simpa [Elected] using hfacts)
  exact ⟨s, Q, hs, hQ, hvoted⟩

end Anubis.Raft
