import Anubis.Raft.Refinement.Relation

/-!
# Terms, votes and leaders on record

What the record notes when a node moves to a term, campaigns, votes or
becomes leader, and that the node is as the record then has it.
-/

namespace Anubis.Raft

open Quorum Ledger List Function

variable {NodeId Cmd : Type} [LinearOrder NodeId] {M : List (RaftPeer NodeId)} {noChange : Prop}
  {g : Ledger NodeId (RaftLogEntry NodeId Cmd)} {v : NodeId} {n : Node NodeId Cmd}
  {net : List (Msg NodeId Cmd)} {req : RequestVoteRequest NodeId}

variable (hr : RecordOk M noChange g) (hn : NodeOk M noChange g v n) {c : Campaign NodeId}

/-! ## Terms -/

section Terms

variable {t : ℕ} (hinv : Inv (scheme M) g) (ht : n.currentTerm < t)

include hinv hn ht

theorem NodeOk.not_voted (c : NodeId) : (v, t, c) ∉ g.grants := fun hc => by
  have := (hinv.grant_le hc).1
  rw [hn.term] at this
  omega

/-- A node that is no leader in its new term. -/
theorem NodeOk.newTerm {loop : Loop NodeId} (hloop : loop = n.loop ∨ loop = .idle)
    (votedFor : Option NodeId) :
    NodeOk M noChange (g.bump v t) v
      { n with currentTerm := t, votedFor := votedFor, state := .follower, loop := loop } := by
  have hle : Le g (g.bump v t) := le_bump (hn.term ▸ ht.le)
  have hsnap := hn.snapshots.mono hinv hle ht.le
  have hc := hn.campaign
  have hcampaign : CampaignOk M (g.bump v t) v .follower t n.loop :=
    { asks := fun c hloop => ⟨RaftState.noConfusion, (hc.asks c hloop).2⟩
      counts := fun c hloop =>
        ⟨(hc.counts c hloop).1, (hc.counts c hloop).2.1, (hc.counts c hloop).2.2.1.trans ht.le,
          (hc.counts c hloop).2.2.2⟩
      stand := hc.stand
      granted := hc.granted }
  refine { hn with
    term := update_self ..
    voted := fun c hc => absurd hc (hn.not_voted hinv ht c)
    log := hn.log.of_same rfl
    commit := hn.commit.mono hinv hle ht.le
    lead := nofun
    campaign := ?_
    snapshots := ?_
    trace := hn.trace.mono hinv hle }
  · rcases hloop with rfl | rfl
    · exact hcampaign
    · exact .idle
  · rcases hloop with rfl | rfl
    · exact hsnap
    · exact hsnap.other rfl rfl

end Terms

section

include hr hn

/-- A node that learns of a higher term. -/
theorem follows_newTerm {t : ℕ} (ht : n.currentTerm < t) (contact : ℕ) (leader : Option NodeId) :
    Follows M noChange g v { n with
        currentTerm := t, votedFor := none, state := .follower
        lastContact := contact, leaderID := leader
        journal := n.journal ++
          [.hardState ⟨t, none, n.commitIndex, n.lastApplied, n.logBase, n.logBaseTerm⟩] } [] := by
  have hle : g.term v ≤ t := hn.term ▸ ht.le
  have hn' := hn.newTerm hr.inv ht (.inl rfl) none
  refine .quiet (.bump hle) rfl { hr with inv := hr.inv.bump hle } ?_ (by simp)
  exact { hn' with log := hn'.log.of_same rfl, snapshots := hn'.snapshots.wrote (by simp) }

/-- A candidate that cannot write its vote. -/
theorem follows_standFailed : Follows M noChange g v { n with
        state := .follower, currentTerm := n.currentTerm + 1, votedFor := some n.nodeID
        loop := .idle } [] := by
  have ht : n.currentTerm < n.currentTerm + 1 := Nat.lt_succ_self _
  have hle : g.term v ≤ n.currentTerm + 1 := hn.term ▸ ht.le
  exact .quiet (.bump hle) rfl { hr with inv := hr.inv.bump hle }
    (hn.newTerm hr.inv ht (.inr rfl) _) (by simp)

end

section

include hn

theorem NodeOk.stepDown : NodeOk M noChange g v { n with state := .follower } :=
  { hn with
    log := hn.log.of_same rfl
    lead := nofun
    campaign := { hn.campaign with
      asks := fun c hc => ⟨RaftState.noConfusion, (hn.campaign.asks c hc).2⟩ } }

/-! ## Campaigns -/

theorem NodeOk.idle : NodeOk M noChange g v { n with loop := .idle } :=
  { hn with
    log := hn.log.of_same rfl
    campaign := .idle
    snapshots := hn.snapshots.other rfl rfl }

/-- A node that opens a campaign asks the voters of its log. -/
theorem NodeOk.preVote (hsync : Synced n) (hid : n.nodeID = v)
    (hvoters : memberVoters n.membershipLatest = (scheme M).conf (g.log v))
    (hself : n.selfNonVoter = false) (hc : c.peers = n.votingPeers.map (·.id)) :
    NodeOk M noChange g v { n with state := .candidate, loop := .preVote c } := by
  have hasks : c.Asks v ((scheme M).conf (g.log v)) := by
    rw [← hvoters, ← hid]
    exact hsync.asks hself hc
  exact { hn with
    log := hn.log.of_same rfl
    lead := nofun
    campaign := .preVote RaftState.noConfusion hasks
    snapshots := hn.snapshots.other rfl rfl }

theorem NodeOk.countPreVote
    (hloop : n.loop = .preVote c) (src : NodeId) (resp : VoteResponse) :
    NodeOk M noChange g v { n with loop := .preVote (c.countAnswer src resp) } := by
  obtain ⟨hstate, hasks⟩ := hn.campaign.asks c (.inl hloop)
  exact { hn with
    log := hn.log.of_same rfl
    campaign := .preVote hstate (hasks.countAnswer src resp)
    snapshots := hn.snapshots.other rfl rfl }

theorem NodeOk.countVote (hnet : ∀ m ∈ net, MsgOk noChange g m)
    (hloop : n.loop = .vote c) {src : NodeId}
    {resp : VoteResponse} (hmsg : .voteAnswer src req resp ∈ net) (hid : req.candidateID = v)
    (hterm : c.term = req.term) :
    NodeOk M noChange g v { n with loop := .vote (c.countAnswer src resp) } := by
  obtain ⟨hstate, hasks⟩ := hn.campaign.asks c (.inr hloop)
  obtain ⟨hcounts, hpos, hle, hlead⟩ := hn.campaign.counts c hloop
  obtain ⟨hstand, hlog⟩ := hn.campaign.stand c hloop
  obtain ⟨hself, hgranted⟩ := hn.campaign.granted c hloop
  have hc : (c.countAnswer src resp).term = c.term := Campaign.term_countAnswer c src resp
  have hgranted' : ∀ u ∈ (c.countAnswer src resp).granted, (u, c.term, v) ∈ g.grants := by
    intro u hu
    rcases Campaign.mem_granted hu with hu | ⟨rfl, hyes⟩
    · exact hgranted u hu
    · have hgrant : (u, req.term, req.candidateID) ∈ g.grants := hnet _ hmsg hyes
      rwa [← hterm, hid] at hgrant
  refine { hn with
    log := hn.log.of_same rfl
    campaign := .vote hstate (hasks.countAnswer src resp) ?_ ?_ ?_
    snapshots := hn.snapshots.other rfl rfl } <;> rw [hc]
  · exact ⟨hcounts.countAnswer src resp, hpos, hle, hlead⟩
  · exact ⟨hstand, hlog⟩
  · exact ⟨hself, hgranted'⟩

end

section

include hr hn

/-- **A candidate announces its log** and votes for itself. -/
theorem follows_stand (hid : n.nodeID = v) (hloop : n.loop = .preVote c) (contact : ℕ) :
    Follows M noChange g v { n with
        state := .candidate, currentTerm := n.currentTerm + 1, votedFor := some n.nodeID
        journal := n.journal ++ [.hardState ⟨n.currentTerm + 1, some n.nodeID, n.commitIndex,
          n.lastApplied, n.logBase, n.logBaseTerm⟩]
        leaderID := none, lastContact := contact
        loop := .vote ⟨n.currentTerm + 1, n.lastLogIndex, n.getLogTerm n.lastLogIndex,
          c.peers, [], []⟩
        trace := n.trace ++ [.voted (n.currentTerm + 1) n.nodeID] }
      (c.peers.map fun p => .vote p ⟨n.currentTerm + 1, n.nodeID, n.lastLogIndex,
        n.getLogTerm n.lastLogIndex, n.currentTerm + 1⟩) := by
  have ht : n.currentTerm < n.currentTerm + 1 := Nat.lt_succ_self _
  have ht' : g.term v < n.currentTerm + 1 := hn.term ▸ ht
  have hinv := hr.inv.campaign ht'
  have hle : Le g (g.campaign (scheme M) v (n.currentTerm + 1)) := le_campaign ht'
  have hterm : (g.campaign (scheme M) v (n.currentTerm + 1)).term v = n.currentTerm + 1 :=
    update_self ..
  have hstand : (g.campaign (scheme M) v (n.currentTerm + 1)).stand v (n.currentTerm + 1) =
      position (scheme M) (g.log v) := by
    simp [Ledger.campaign, grant, standWith, bump]
  have hself : (v, n.currentTerm + 1, v) ∈ (g.campaign (scheme M) v (n.currentTerm + 1)).grants :=
    Set.mem_insert _ _
  -- a leader has votes, and they were given in a term the candidate had reached
  have hlead : g.leader (n.currentTerm + 1) ≠ some v := by
    intro hl
    obtain ⟨Q, hQ, hv⟩ := hr.inv.led_quorum hl
    obtain ⟨u, hu⟩ : Q.Nonempty := Finset.card_pos.mp (by have := hQ.2; omega)
    have := (hr.inv.grant_le (hv u hu).1).2
    omega
  have hasks := (hn.campaign.asks c (.inl hloop)).2
  have hlog : ∀ e ∈ g.log v, e.term < n.currentTerm + 1 := fun e he =>
    Nat.lt_succ_of_le (hn.term ▸ hr.inv.log_term_le he)
  have hpos : position (scheme M) (g.log v) = (n.getLogTerm n.lastLogIndex, n.lastLogIndex) :=
    hn.log.position.symm
  refine .quiet (.campaign ht') rfl { hr with inv := hinv } ?_ fun m hm => ?_
  · refine { hn with
      term := hterm
      voted := fun w hw => ?_
      log := hn.log.of_same rfl
      commit := hn.commit.mono hr.inv hle ht.le
      lead := by simp
      campaign := .vote RaftState.noConfusion hasks
        ⟨⟨nodup_nil, by simp, by simp⟩, Nat.succ_pos _, le_rfl, hlead⟩ ⟨hstand, hlog⟩
        ⟨hself, by simp⟩
      snapshots := ((hn.snapshots.mono hr.inv hle ht.le).other rfl rfl).wrote (by simp)
      trace := (hn.trace.mono hr.inv hle).voted _ _ }
    rcases hw with heq | hw
    · obtain rfl : w = v := by simpa using (Prod.mk.inj (Prod.mk.inj heq).2).2
      exact congrArg some hid
    · exact absurd hw (hn.not_voted hr.inv ht w)
  · obtain ⟨p, -, rfl⟩ := mem_map.mp hm
    subst hid
    exact ⟨hterm.ge, hstand.trans hpos⟩

/-- **A vote goes on record**, unless the node repeats one it has cast. -/
theorem follows_castVote (hnet : ∀ m ∈ net, MsgOk noChange g m)
    (hmsg : .vote v req ∈ net) (hidle : n.loop = .idle) (hterm : n.currentTerm = req.term)
    (hfree : n.votedFor = none ∨ n.votedFor = some req.candidateID)
    (hlog : n.isLogMoreUpToDate req.lastLogTerm req.lastLogIndex = true) (contact : ℕ) :
    Follows M noChange g v { n with
        votedFor := some req.candidateID
        journal := n.journal ++ [.hardState ⟨n.currentTerm, some req.candidateID, n.commitIndex,
          n.lastApplied, n.logBase, n.logBaseTerm⟩]
        lastContact := contact
        trace := n.trace ++ [.voted n.currentTerm req.candidateID] }
      [.voteAnswer v req ⟨n.currentTerm, true, ""⟩] := by
  obtain ⟨hcand, hstand⟩ : req.term ≤ g.term req.candidateID ∧
    g.stand req.candidateID req.term = (req.lastLogTerm, req.lastLogIndex) := hnet _ hmsg
  have hone : ∀ c, (v, n.currentTerm, c) ∈ g.grants → req.candidateID = c := by
    intro c hc
    rw [hn.voted c hc] at hfree
    exact (by simpa using hfree : c = req.candidateID).symm
  by_cases hin : (v, n.currentTerm, req.candidateID) ∈ g.grants
  · refine .same hr ?_ fun m hm => ?_
    · exact { hn with
        voted := fun c hc => congrArg some (hone c hc)
        log := hn.log.of_same rfl
        snapshots := hn.snapshots.wrote (by simp)
        trace := hn.trace.voted _ _ }
    · rw [mem_singleton.mp hm]
      exact fun _ => hterm ▸ hin
  · have hnone : ∀ c, (v, n.currentTerm, c) ∉ g.grants := fun c hc => hin (hone c hc ▸ hc)
    have hpos : NotBehind (scheme M) (g.stand req.candidateID n.currentTerm) (g.log v) := by
      rw [hterm, hstand]
      exact hn.log.notBehind hlog
    have hinv := hr.inv.grant hn.term (hterm ▸ hcand) hnone hpos
    have hle : Le g (g.grant v n.currentTerm req.candidateID) := le_grant
    refine .quiet .grant rfl { hr with inv := hinv } ?_ fun m hm => ?_
    · refine { hn with
        voted := fun c hc => ?_
        log := hn.log.of_same rfl
        commit := hn.commit.mono hr.inv hle le_rfl
        lead := fun hl => (hn.lead hl).mono hr.inv hle (hn.lead hl).log
        campaign := ?_
        snapshots := (hn.snapshots.mono hr.inv hle le_rfl).wrote (by simp)
        trace := (hn.trace.mono hr.inv hle).voted _ _ }
      · rcases hc with heq | hc
        · exact congrArg some (Prod.mk.inj (Prod.mk.inj heq).2).2.symm
        · exact absurd hc (hnone c)
      · exact hidle ▸ .idle
    · rw [mem_singleton.mp hm]
      exact fun _ => hterm ▸ Set.mem_insert _ _

end

/-! ## Leaders -/

/-- The configuration of every log is the initial one where it never
changes. -/
theorem RecordOk.steady (hr : RecordOk M noChange g) (hno : noChange) :
    Steady (scheme M) g ∧ ∀ v, (scheme M).conf (g.log v) = memberVoters M := by
  refine ⟨fun T hT i => ?_, fun v => ?_⟩
  · exact congrArg memberVoters
      (confOf_plain fun e he => hr.plain hno hT e (mem_of_mem_take he))
  · exact congrArg memberVoters (confOf_plain (hr.log_plain hno v))

section Winner

variable (hloop : n.loop = .vote c) (hterm : n.currentTerm = c.term)
  (hvotes : votesNeeded c.peers ≤ c.votes)

include hr hn hloop hterm hvotes

/-- **A winner is the first leader of its term.** -/
theorem NodeOk.not_led : ¬ g.Led n.currentTerm := by
  rintro ⟨c', hc'⟩
  obtain ⟨-, hasks⟩ := hn.campaign.asks c (.inr hloop)
  obtain ⟨hcounts, -, -, hlead⟩ := hn.campaign.counts c hloop
  obtain ⟨hstand, hlog⟩ := hn.campaign.stand c hloop
  obtain ⟨hself, hgranted⟩ := hn.campaign.granted c hloop
  rw [hterm] at hc'
  have hvotes' : ∀ u ∈ insert v c.granted.toFinset, (u, c.term, v) ∈ g.grants := by
    intro u hu
    rcases Finset.mem_insert.mp hu with rfl | hu
    · exact hself
    · exact hgranted u (mem_toFinset.mp hu)
  have heq : v = c' := by
    refine hr.inv.leader_unique hc' (Campaign.isMajority hasks hcounts hvotes) hvotes' hstand ?_
    by_cases hno : noChange
    · exact .inr ⟨(hr.steady hno).1, (hr.steady hno).2 v⟩
    · -- the log has not changed since the campaign was announced
      refine .inl ⟨Nat.zero_le _, fun i x _ hx => ?_, fun h => absurd h (lt_irrefl 0)⟩
      obtain ⟨hled, -, heq⟩ := hr.inv.log_match v i x (by rw [hn.base hno]; exact Nat.zero_le _) hx
      rw [hn.base hno] at heq
      exact ⟨hled, hlog x (mem_of_getElem? hx), heq⟩
  exact hlead (heq ▸ hc')

theorem RecordOk.elect : RecordOk M noChange (g.elect v n.currentTerm) := by
  have hnew := hn.not_led hr hloop hterm hvotes
  obtain ⟨-, hasks⟩ := hn.campaign.asks c (.inr hloop)
  obtain ⟨hcounts, hpos, -, -⟩ := hn.campaign.counts c hloop
  obtain ⟨hstand, -⟩ := hn.campaign.stand c hloop
  obtain ⟨hself, hgranted⟩ := hn.campaign.granted c hloop
  have hinv : Inv (scheme M) (g.elect v n.currentTerm) := by
    refine hr.inv.elect (hterm ▸ hpos) hnew hn.term (Campaign.isMajority hasks hcounts hvotes) ?_
      (hterm ▸ hstand) ?_
    · intro u hu
      rw [hterm]
      rcases Finset.mem_insert.mp hu with rfl | hu
      · exact hself
      · exact hgranted u (mem_toFinset.mp hu)
    · by_cases hno : noChange
      · exact .inr ⟨(hr.steady hno).1, (hr.steady hno).2 v⟩
      · exact .inl (hn.base hno)
  have hnow : (g.elect v n.currentTerm).llog n.currentTerm = g.log v := update_self ..
  have hsame : ∀ {T}, T ≠ n.currentTerm → (g.elect v n.currentTerm).llog T = g.llog T :=
    fun hT => update_of_ne hT ..
  have hled : ∀ {T}, (g.elect v n.currentTerm).Led T → T ≠ n.currentTerm → g.Led T :=
    fun hT hne => (led_elect.mp hT).resolve_left hne
  -- every leader's log is an old one or the winner's
  have hall : ∀ {P : List (RaftLogEntry NodeId Cmd) → Prop}, P (g.log v) →
      (∀ {T}, g.Led T → P (g.llog T)) →
      ∀ {T}, (g.elect v n.currentTerm).Led T → P ((g.elect v n.currentTerm).llog T) := by
    intro P hv hold T hT
    by_cases hne : T = n.currentTerm
    · subst hne
      rw [hnow]
      exact hv
    · rw [hsame hne]
      exact hold (hled hT hne)
  refine ⟨hinv, hall hn.log.indexed hr.indexed, fun hno => ?_, ?_, fun {T c'} hT k hk hk' => ?_⟩
  · exact hall (P := fun L => ∀ e ∈ L, e.Plain) (hr.log_plain hno v) (hr.plain hno)
  · exact hall (P := fun L => ∀ e ∈ L, e.Full) (hr.log_full v) hr.full
  · by_cases hne : T = n.currentTerm
    · subst hne
      have helected : (g.elect v n.currentTerm).elected n.currentTerm = g.log v :=
        update_self ..
      rw [hnow] at hk'
      rw [helected] at hk
      omega
    · have hE : (g.elect v n.currentTerm).elected T = g.elected T := update_of_ne hne ..
      have hL : (g.elect v n.currentTerm).leader T = g.leader T := update_of_ne hne ..
      rw [hsame hne] at hk'
      rw [hE] at hk
      exact hr.own (hL ▸ hT) k hk hk'

/-- **A leader that could not write its first entry** is on record as one all
the same. -/
theorem NodeOk.leadFailed : NodeOk M noChange (g.elect v n.currentTerm) v
    { n.initLeader with state := .follower, leaderID := none, loop := .idle } := by
  have hnew := hn.not_led hr hloop hterm hvotes
  have hle : Le g (g.elect v n.currentTerm) := le_elect hnew
  have htrace := hn.trace.mono hr.inv hle
  exact { hn with
    log := hn.log.of_same rfl
    commit := hn.commit.mono hr.inv hle le_rfl
    lead := nofun
    campaign := .idle
    snapshots := (hn.snapshots.mono hr.inv hle le_rfl).other rfl rfl
    trace :=
      { elected := fun T hT => by
          rcases mem_append.mp hT with hT | hT
          · exact htrace.elected T hT
          · cases mem_singleton.mp hT
            exact update_self ..
        committed := fun T k t hk => htrace.committed T k t (by simpa [Node.initLeader] using hk)
        handed := fun e r he => htrace.handed e r (by simpa [Node.initLeader] using he)
        changed := fun e he => htrace.changed e (by simpa [Node.initLeader] using he) } }

theorem follows_leadFailed : Follows M noChange g v
    { n.initLeader with state := .follower, leaderID := none, loop := .idle } [] :=
  .quiet (.elect (hn.not_led hr hloop hterm hvotes)) rfl (hr.elect hn hloop hterm hvotes)
    (hn.leadFailed hr hloop hterm hvotes) (by simp)

end Winner

/-! ## Entries -/

section Append

variable {T : ℕ} {x : RaftLogEntry NodeId Cmd}

include hr

/-- **A leader's new entry goes on record.** -/
theorem RecordOk.append (hc : g.leader T = some v) (hterm : g.term v = T)
    (hlog : g.log v = g.llog T)
    (hx : x.term = T) (hidx : x.index = (g.llog T).length + 1) (hmay : MayAppend (scheme M) g T x)
    (hplain : noChange → x.Plain) (hfull : x.Full) : RecordOk M noChange (g.append v T x) := by
  have hinv := hr.inv.append hc hterm hlog hx hmay
  have hT : g.Led T := ⟨v, hc⟩
  have hnow : (g.append v T x).llog T = g.llog T ++ [x] := update_self ..
  have hsame : ∀ {U}, U ≠ T → (g.append v T x).llog U = g.llog U :=
    fun hU => update_of_ne hU ..
  have hmem : ∀ {P : RaftLogEntry NodeId Cmd → Prop}, P x → (∀ {U}, g.Led U → ∀ e ∈ g.llog U, P e) →
      ∀ {U}, (g.append v T x).Led U → ∀ e ∈ (g.append v T x).llog U, P e := by
    intro P hPx hold U hU e he
    by_cases hne : U = T
    · subst hne
      rw [hnow] at he
      rcases mem_append.mp he with he | he
      · exact hold hU e he
      · exact mem_singleton.mp he ▸ hPx
    · rw [hsame hne] at he
      exact hold hU e he
  refine ⟨hinv, fun {U} hU => ?_, fun hno => hmem (hplain hno) (hr.plain hno), hmem hfull hr.full,
    fun {U c} hU k hk hk' => ?_⟩
  · by_cases hne : U = T
    · subst hne
      rw [hnow]
      exact (hr.indexed hU).append_singleton hidx
    · rw [hsame hne]
      exact hr.indexed hU
  · by_cases hne : U = T
    · subst hne
      obtain rfl : v = c := Option.some.inj (hc.symm.trans hU)
      rw [hnow, length_append, length_singleton] at hk'
      rcases (by omega : k = (g.llog U).length + 1 ∨ k ≤ (g.llog U).length) with rfl | hle
      · exact .inl rfl
      · exact .inr (hr.own hU k hk hle)
    · rw [hsame hne] at hk'
      exact .inr (hr.own hU k hk hk')

/-- The leader with its new entry, and the configuration the log then leads
to. -/
theorem NodeOk.append (hn : NodeOk M noChange g v n) {noop : ℕ}
    (hlead : LeadOk noChange g v n.currentTerm n.peers n.matchIndex noop n.commitIndex)
    (hloop : ∀ c, n.loop ≠ .preVote c ∧ n.loop ≠ .vote c) (hidx : x.index = n.lastLogIndex + 1)
    {latest : List (RaftPeer NodeId)} {latestIndex : ℕ}
    (hconf : ¬ noChange → ConfigOk M latest latestIndex n.membershipBase n.commitIndex
      (g.log v ++ [x]))
    (state : RaftState) :
    NodeOk M noChange (g.append v n.currentTerm x) v { n with
        state := state, log := n.log ++ [x], journal := n.journal ++ [.putLog x]
        membershipLatest := latest, membershipLatestIndex := latestIndex, leaderNoopIndex :=
          noop } := by
  have hle : Le g (g.append v n.currentTerm x) := le_append
  have hlog : (g.append v n.currentTerm x).log v = g.log v ++ [x] := update_self ..
  have hllog : (g.append v n.currentTerm x).llog n.currentTerm = g.log v ++ [x] :=
    (update_self ..).trans (by rw [hlead.log])
  have hci : n.commitIndex ≤ (g.log v).length := hr.inv.committed_length hn.commit
  have hold : EqOn 0 n.commitIndex (g.log v) (g.log v ++ [x]) :=
    (EqOn.of_prefix (prefix_append _ _)).upTo (by omega)
  have hindexed : Indexed (g.log v ++ [x]) :=
    hn.log.indexed.append_singleton (by rw [hidx, hn.log.lastLogIndex])
  refine { hn with
    log := ?_
    config := fun hno => ?_
    commit := ?_
    applier := ?_
    lead := fun _ => hlead.mono hr.inv hle (hlog.trans hllog.symm)
    campaign := .other (fun c => (hloop c).1) fun c => (hloop c).2
    snapshots := (hn.snapshots.mono hr.inv hle le_rfl).wrote (by simp)
    trace := hn.trace.mono hr.inv hle } <;> rw [hlog]
  · exact hn.log.append hindexed rfl rfl rfl
  · exact hconf hno
  · exact (hn.commit.mono hr.inv hle le_rfl).congr hold.symm
  · exact hn.applier.congr hold hn.applied.2

end Append

theorem NodeOk.not_campaigning (hn : NodeOk M noChange g v n) (hl : n.state = .leader)
    (c : Campaign NodeId) : n.loop ≠ .preVote c ∧ n.loop ≠ .vote c :=
  ⟨fun h => (hn.campaign.asks c (.inl h)).1 hl, fun h => (hn.campaign.asks c (.inr h)).1 hl⟩

theorem mayAppend_plain {T : ℕ} {x : RaftLogEntry NodeId Cmd} (hx : x.Plain) :
    MayAppend (scheme M) g T x := fun h => absurd hx h

/-- **A new leader writes its first entry.** -/
theorem follows_lead (hr : RecordOk M noChange g) (hn : NodeOk M noChange g v n)
    (hloop : n.loop = .vote c) (hterm : n.currentTerm = c.term)
    (hvotes : votesNeeded c.peers ≤ c.votes) (now : ℕ) :
    Follows M noChange g v { n.initLeader with
        loop := .idle
        log := n.log ++ [⟨n.lastLogIndex + 1, n.currentTerm, .noOp⟩]
        journal := n.journal ++ [.putLog ⟨n.lastLogIndex + 1, n.currentTerm, .noOp⟩]
        leaderNoopIndex := n.lastLogIndex + 1, leaderSince := now } [] := by
  have hnew := hn.not_led hr hloop hterm hvotes
  have hr₁ := hr.elect hn hloop hterm hvotes
  have hn₁ := hn.leadFailed hr hloop hterm hvotes
  have hplain : RaftLogEntry.Plain
    (⟨n.lastLogIndex + 1, n.currentTerm, .noOp⟩ : RaftLogEntry NodeId Cmd) :=
    fun e h => by cases h
  have hleader : (g.elect v n.currentTerm).leader n.currentTerm = some v := update_self ..
  have hllog : (g.elect v n.currentTerm).llog n.currentTerm = g.log v := update_self ..
  have helected : (g.elect v n.currentTerm).elected n.currentTerm = g.log v := update_self ..
  have hlast : n.lastLogIndex = (g.log v).length := hn.log.lastLogIndex
  have hci : n.commitIndex ≤ (g.log v).length := hr.inv.committed_length hn.commit
  have hlead : LeadOk noChange (g.elect v n.currentTerm) v n.currentTerm n.initLeader.peers
      n.initLeader.matchIndex (n.lastLogIndex + 1) n.commitIndex :=
    { leader := hleader
      log := hllog.symm
      matched := fun p hp i hi hi' => by
        have hin : p.id ∈ n.peers.map (·.id) := by
          obtain ⟨q, hq, rfl⟩ := mem_map.mp hp
          exact mem_map.mpr ⟨q, hq, rfl⟩
        have hzero : n.initLeader.matchIndex p.id = 0 := if_pos hin
        omega
      noop := by
        rw [helected, hlast]
        exact Nat.lt_succ_self _
      commit := .inr (.inl (by rw [helected]; exact hci)) }
  have hr₂ := hr₁.append hleader hn.term hllog.symm
    (x := ⟨n.lastLogIndex + 1, n.currentTerm, .noOp⟩) rfl (by rw [hllog, hlast])
    (mayAppend_plain hplain) (fun _ => hplain) (fun e h => by cases h)
  have hn₂ := hn₁.append hr₁ hlead (fun _ => ⟨nofun, nofun⟩)
    (x := ⟨n.lastLogIndex + 1, n.currentTerm, .noOp⟩) rfl
    (fun hno => (hn₁.config hno).append (by simpa using hplain) hci) .leader
  refine .quiet ((By.elect hnew).trans (.append hleader)) rfl hr₂ ?_ (by simp)
  exact { hn₂ with log := hn₂.log.of_same rfl }

end Anubis.Raft
