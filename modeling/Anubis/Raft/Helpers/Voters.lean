import Anubis.Common.Majority
import Anubis.Raft.Helpers.Paths

/-!
# Voters and quorums

The voters of a configuration are a finite set (`memberVoters`). A node's
peer records and its own flag always describe the voters of the
configuration in effect (`Synced`), so a count over peers that passes the
majority test is a majority of that set.
-/

namespace Anubis.Raft

open Quorum List Node

variable {NodeId Cmd : Type} [LinearOrder NodeId]
variable {c : Campaign NodeId} {ms : List (RaftPeer NodeId)} {V : Finset NodeId}

/-- **The voters of a configuration.** -/
def memberVoters (ms : List (RaftPeer NodeId)) : Finset NodeId :=
  ((ms.filter fun m => m.role ≠ .nonVoter).map (·.id)).toFinset

theorem mem_memberVoters {u : NodeId} :
    u ∈ memberVoters ms ↔ ∃ m ∈ ms, m.role ≠ .nonVoter ∧ m.id = u := by
  simp [memberVoters, and_assoc]

/-! ## Normalised member lists -/

/-- One round of the loop of `normalizeMembers`. -/
theorem nodup_normalize_step {out : List (RaftPeer NodeId)} (h : (out.map (·.id)).Nodup)
    (m : RaftPeer NodeId) :
    ((if m.id ∈ out.map (·.id) then out else out ++ [m]).map (·.id)).Nodup := by
  split
  · exact h
  · rename_i hm
    rw [map_append, nodup_append]
    refine ⟨h, nodup_singleton _, fun a ha b hb => ?_⟩
    rintro rfl
    simp only [map_cons, map_nil, mem_singleton] at hb
    exact hm (hb ▸ ha)

/-- **A normalised list has every ID once.** -/
theorem nodup_normalizeMembers (ms : List (RaftPeer NodeId)) :
    ((normalizeMembers ms).map (·.id)).Nodup := by
  have hfold : ∀ (ms out : List (RaftPeer NodeId)), (out.map (·.id)).Nodup →
      ((ms.foldl (fun out m => if m.id ∈ out.map (·.id) then out else out ++ [m]) out).map
        (·.id)).Nodup := by
    intro ms
    induction ms with
    | nil => exact fun _ h => h
    | cons m ms ih => exact fun out h => ih _ (nodup_normalize_step h m)
  exact (((perm_insertionSort _ _).map _).nodup_iff).mpr (hfold ms [] nodup_nil)

/-- Where every ID is there once already, normalising only sorts. -/
theorem normalizeMembers_perm (h : (ms.map (·.id)).Nodup) :
    (normalizeMembers ms).Perm ms := by
  have hfold : ∀ (ms out : List (RaftPeer NodeId)), ((out ++ ms).map (·.id)).Nodup →
      ms.foldl (fun out m => if m.id ∈ out.map (·.id) then out else out ++ [m]) out =
      out ++ ms := by
    intro ms
    induction ms with
    | nil => simp
    | cons m ms ih =>
      intro out h
      have hm : m.id ∉ out.map (·.id) := by
        rw [map_append, nodup_append] at h
        exact fun hm => h.2.2 _ hm _ (by simp) rfl
      rw [foldl_cons, if_neg hm, ih _ (by simpa using h)]
      simp
  unfold normalizeMembers
  rw [hfold ms [] (by simpa using h)]
  exact perm_insertionSort _ _

theorem memberVoters_perm {ms ms' : List (RaftPeer NodeId)} (h : ms.Perm ms') :
    memberVoters ms = memberVoters ms' := by
  ext u
  simp only [mem_memberVoters, h.mem_iff]

theorem nodup_foldMembership (cur : List (RaftPeer NodeId)) (e : MembershipEntry NodeId) :
    ((foldMembership cur e).map (·.id)).Nodup := by
  unfold foldMembership
  split <;> exact nodup_normalizeMembers _

/-- What a log entry makes of the configuration. -/
def stepConf (cur : List (RaftPeer NodeId)) (entry : RaftLogEntry NodeId Cmd) :
    List (RaftPeer NodeId) :=
  match entry.data with
  | .membershipChange e => foldMembership cur e
  | _ => cur

/-- **The configuration a log leads to**, from the one it started with. -/
def confOf (base : List (RaftPeer NodeId)) (log : List (RaftLogEntry NodeId Cmd)) :
    List (RaftPeer NodeId) := log.foldl stepConf base

theorem nodup_stepConf {cur : List (RaftPeer NodeId)} (h : (cur.map (·.id)).Nodup)
    (entry : RaftLogEntry NodeId Cmd) : ((stepConf cur entry).map (·.id)).Nodup := by
  unfold stepConf
  split
  · exact nodup_foldMembership _ _
  · exact h

theorem nodup_foldEntry {logBase : ℕ} {log : List (RaftLogEntry NodeId Cmd)}
    {acc : List (RaftPeer NodeId) × ℕ} (h : (acc.1.map (·.id)).Nodup) :
    ((log.foldl (foldEntry logBase) acc).1.map (·.id)).Nodup := by
  induction log generalizing acc with
  | nil => exact h
  | cons entry log ih =>
    refine ih ?_
    unfold foldEntry
    split
    · split
      · exact h
      · exact nodup_foldMembership _ _
    · exact h

/-! ## Peers in step with the configuration -/

/-- **A node's peers are the configuration in effect.** -/
structure Synced (n : Node NodeId Cmd) : Prop where
  base_nodup : (n.membershipBase.map (·.id)).Nodup
  self : n.selfNonVoter = false ↔ n.nodeID ∈ memberVoters n.membershipLatest
  others : ∀ p ∈ n.peers, p.id ≠ n.nodeID
  nodup : (n.votingPeers.map (·.id)).Nodup
  mem : ∀ u, u ∈ n.votingPeers.map (·.id) ↔ u ≠ n.nodeID ∧ u ∈ memberVoters n.membershipLatest

theorem id_peerFor (n : Node NodeId Cmd) (latest : List (RaftPeer NodeId)) (m : RaftPeer NodeId) :
    (n.peerFor latest m).id = m.id := by
  unfold peerFor
  dsimp only
  split
  · rename_i p hp
    simpa using find?_some hp
  · rfl

theorem counts_peerFor (n : Node NodeId Cmd) (latest : List (RaftPeer NodeId))
    (m : RaftPeer NodeId) :
    (n.peerFor latest m).counts =
    (decide (m.role ≠ .nonVoter) && decide (m.id ∈ latest.map (·.id))) := by
  have hleaving : (!decide (m.id ∉ latest.map (·.id))) = decide (m.id ∈ latest.map (·.id)) := by
    rw [decide_not, Bool.not_not]
  unfold peerFor Peer.counts
  dsimp only
  split <;> rw [← hleaving]

/-- The voting peers after the peers were brought in step. -/
theorem ids_votingPeers_syncPeers (n : Node NodeId Cmd) (base latest : List (RaftPeer NodeId)) :
    (n.syncPeers base latest).votingPeers.map (·.id) =
      ((latest.filter fun m => m.role ≠ .nonVoter).filter fun m => m.id ≠ n.nodeID).map (·.id) := by
  unfold votingPeers syncPeers
  dsimp only
  rw [filter_map, map_map]
  have hids : ((fun p : Peer NodeId => p.id) ∘ n.peerFor latest) = fun m => m.id :=
    funext fun m => id_peerFor n latest m
  rw [hids, memberUnion, filter_append]
  -- members that are only in the base are leaving, and do not count
  have hold : (base.filter fun m => decide (m.id ≠ n.nodeID ∧ m.id ∉ latest.map (·.id))).filter
      (Peer.counts ∘ n.peerFor latest) = [] := by
    rw [filter_eq_nil_iff]
    intro m hm
    have hnot : m.id ∉ latest.map (·.id) := (of_decide_eq_true (mem_filter.mp hm).2).2
    rw [Function.comp_apply, counts_peerFor, decide_eq_false hnot, Bool.and_false]
    exact Bool.false_ne_true
  rw [hold, append_nil, filter_filter, filter_filter]
  congr 1
  refine filter_congr fun m hm => ?_
  have hin : m.id ∈ latest.map (·.id) := mem_map_of_mem hm
  rw [Function.comp_apply, counts_peerFor, decide_eq_true hin, Bool.and_true]
  exact Bool.and_comm _ _

theorem Synced.of_syncPeers {n : Node NodeId Cmd} {base latest : List (RaftPeer NodeId)}
    (hbase : ((n.syncPeers base latest).membershipBase.map (·.id)).Nodup)
    (hlatest : (latest.map (·.id)).Nodup) (h : n.membershipLatest = latest) :
    Synced (n.syncPeers base latest) where
  base_nodup := hbase
  self := by
    change (!latest.any fun m => decide (m.id = n.nodeID ∧ m.role ≠ .nonVoter)) = false ↔
      n.nodeID ∈ memberVoters n.membershipLatest
    rw [h, mem_memberVoters, Bool.not_eq_false', any_eq_true]
    simp only [decide_eq_true_eq]
    exact exists_congr fun m => and_congr_right fun _ => and_comm
  others p hp := by
    obtain ⟨m, hm, rfl⟩ := mem_map.mp hp
    rw [id_peerFor]
    rcases mem_append.mp hm with hm | hm
    · exact of_decide_eq_true (mem_filter.mp hm).2
    · exact (of_decide_eq_true (mem_filter.mp hm).2).1
  nodup := by
    rw [ids_votingPeers_syncPeers]
    exact ((filter_sublist.trans filter_sublist).map _).nodup hlatest
  mem u := by
    rw [ids_votingPeers_syncPeers]
    change _ ↔ u ≠ n.nodeID ∧ u ∈ memberVoters n.membershipLatest
    rw [h, mem_memberVoters]
    simp only [mem_map, mem_filter, decide_eq_true_eq]
    constructor
    · rintro ⟨m, ⟨⟨hm, hrole⟩, hne⟩, rfl⟩
      exact ⟨hne, m, hm, hrole, rfl⟩
    · rintro ⟨hne, m, hm, hrole, rfl⟩
      exact ⟨m, ⟨⟨hm, hrole⟩, hne⟩, rfl⟩

/-- **Refreshing brings the peers in step.** -/
theorem Synced.refreshMembership {n : Node NodeId Cmd} (h : (n.membershipBase.map (·.id)).Nodup) :
    Synced n.refreshMembership :=
  .of_syncPeers h (nodup_foldEntry h) rfl

/-- A change of neither peers nor configuration keeps them in step. -/
theorem Synced.of_same {n n' : Node NodeId Cmd} (h : Synced n)
    (heq : (n'.membershipBase, n'.membershipLatest, n'.selfNonVoter, n'.nodeID, n'.peers) =
      (n.membershipBase, n.membershipLatest, n.selfNonVoter, n.nodeID, n.peers)) : Synced n' := by
  obtain ⟨hbase, hlatest, hself, hid, hpeers⟩ := by simpa only [Prod.mk.injEq] using heq
  have hvoting : n'.votingPeers = n.votingPeers := by rw [votingPeers, votingPeers, hpeers]
  refine ⟨hbase ▸ h.base_nodup, ?_, ?_, hvoting ▸ h.nodup, ?_⟩
  · rw [hself, hid, hlatest]
    exact h.self
  · rw [hpeers, hid]
    exact h.others
  · rw [hvoting, hid, hlatest]
    exact h.mem

/-- Updates of progress keep the peers in step. -/
theorem Synced.map_peers {n : Node NodeId Cmd} (h : Synced n) (f : Peer NodeId → Peer NodeId)
    (hf : ∀ p, (f p).id = p.id ∧ (f p).counts = p.counts) :
    Synced { n with peers := n.peers.map f } := by
  have hvoting : (votingPeers { n with peers := n.peers.map f }).map (·.id) =
      n.votingPeers.map (·.id) := by
    unfold votingPeers
    rw [filter_map, map_map]
    have hid : ((fun p : Peer NodeId => p.id) ∘ f) = fun p => p.id := funext fun p => (hf p).1
    have hc : (Peer.counts ∘ f) = Peer.counts := funext fun p => (hf p).2
    rw [hid, hc]
  refine ⟨h.base_nodup, h.self, fun p hp => ?_, hvoting ▸ h.nodup, hvoting ▸ h.mem⟩
  obtain ⟨q, hq, rfl⟩ := mem_map.mp hp
  rw [(hf q).1]
  exact h.others q hq

theorem Synced.setNextIndex {n : Node NodeId Cmd} (h : Synced n) (peer : NodeId) (next : ℕ) :
    Synced (n.setNextIndex peer next) := by
  refine (h.map_peers (fun p => if p.id = peer then { p with nextIndex := next } else p)
    fun p => ?_).of_same rfl
  split <;> exact ⟨rfl, rfl⟩

section Steps

variable {S : Setup NodeId} {net : List (Msg NodeId Cmd)} {now : ℕ} {v : NodeId} {l : Label}
  {n n' : Node NodeId Cmd} {out : List (Msg NodeId Cmd)}

theorem Synced.restore {okRestore : Bool} {d : Disk NodeId Cmd} (h : Synced n)
    (hm : n.restore okRestore d = some n') : Synced n' := by
  refine restore_induct hm ?_ ?_ (fun h => h.of_same rfl)
    (fun _ h => h.of_same rfl) (fun _ _ h => h.of_same rfl)
    (fun _ h => h.of_same rfl) fun h => .refreshMembership h.base_nodup
  · unfold restoreHardState
    split
    · exact h
    · exact h.of_same rfl
  · intro k hk
    unfold restorePeers
    split
    · exact hk
    · exact .refreshMembership (nodup_normalizeMembers _)

/-- **Every small change keeps the peers in step.** -/
theorem Micro.synced (hS : ∀ id, ((S.members id).map (·.id)).Nodup) (h : Synced n)
    (hm : Micro S net now v n l n' out) : Synced n' := by
  cases hm with
  | backUp | matchAppend | matchSnapshot =>
    refine Synced.setNextIndex ?_ _ _
    exact h.of_same rfl
  | markAck =>
    refine h.map_peers _ fun p => ?_
    split <;> exact ⟨rfl, rfl⟩
  | leadFailed | lead =>
    exact (h.map_peers (fun p => { p with nextIndex := n.lastLogIndex + 1 })
      fun _ => ⟨rfl, rfl⟩).of_same rfl
  | accept =>
    exact acceptAppend_induct h (fun _ h => h.of_same rfl)
      (fun _ h => h.of_same rfl) (fun h => h.of_same rfl)
      (fun h => .refreshMembership h.base_nodup) fun _ h _ => h.of_same rfl
  | install _ hbase =>
    refine (Synced.refreshMembership ?_).of_same rfl
    rcases hbase with rfl | ⟨-, rfl⟩
    · exact h.base_nodup
    · exact nodup_normalizeMembers _
  | applyChange =>
    exact (Synced.refreshMembership (nodup_foldMembership _ _)).of_same rfl
  | propose => exact .refreshMembership h.base_nodup
  | restore _ hm =>
    refine Synced.restore ?_ hm
    exact (Synced.refreshMembership (hS _)).of_same rfl
  | _ => exact h.of_same rfl

/-- A node keeps its ID. -/
theorem Micro.nodeID (hm : Micro S net now v n l n' out) : n'.nodeID = n.nodeID := by
  cases hm with
  | accept =>
    exact acceptAppend_induct (P := fun m => m.nodeID = n.nodeID) rfl (fun _ => id) (fun _ =>
      id) id id fun _ h _ => h
  | restore _ hm =>
    rw [(Kept.restore hm).nodeID]
    unfold restoreHardState
    split <;> rfl
  | _ => rfl

end Steps

/-! ## Counting -/

section Counting

variable {n : Node NodeId Cmd}

/-- A node's voters, from its own flag and its peers. -/
theorem Synced.voters_eq (h : Synced n) : memberVoters n.membershipLatest =
    (if n.selfNonVoter then ∅ else {n.nodeID}) ∪ (n.votingPeers.map (·.id)).toFinset := by
  ext u
  rw [Finset.mem_union, mem_toFinset, h.mem u]
  by_cases hu : u = n.nodeID
  · subst hu
    cases hs : n.selfNonVoter with
    | true =>
      have : n.nodeID ∉ memberVoters n.membershipLatest := fun hin => by
        rw [← h.self, hs] at hin
        exact Bool.noConfusion hin
      simpa using this
    | false => simpa using h.self.mp hs
  · have hself : u ∉ (if n.selfNonVoter = true then (∅ : Finset NodeId) else {n.nodeID}) := by
      split <;> simp [hu]
    simp [hu, hself]

theorem Synced.card_voters (h : Synced n) (ok : Peer NodeId → Bool) :
    (memberVoters n.membershipLatest).card = (n.countVoters true ok).2 := by
  rw [h.voters_eq, Finset.card_union_of_disjoint, toFinset_card_of_nodup h.nodup]
  · unfold countVoters votingPeers
    cases n.selfNonVoter <;> simp
  · rw [Finset.disjoint_left]
    intro u hu hu'
    rw [mem_toFinset, h.mem u] at hu'
    cases hs : n.selfNonVoter <;> simp_all

/-- **A count that passes the majority test is a majority of the voters**: of
this node and peers that satisfy the condition. -/
theorem Synced.exists_majority (h : Synced n) {ok : Peer NodeId → Bool}
    (hcount : (n.countVoters true ok).2 < 2 * (n.countVoters true ok).1) :
    ∃ Q, IsMajority Q (memberVoters n.membershipLatest) ∧
      ∀ u ∈ Q, u = n.nodeID ∨ ∃ p ∈ n.peers, p.id = u ∧ ok p = true := by
  have hsub : ((n.votingPeers.filter ok).map (·.id)).Sublist (n.votingPeers.map (·.id)) :=
    filter_sublist.map _
  refine ⟨(if n.selfNonVoter then ∅ else {n.nodeID}) ∪
    ((n.votingPeers.filter ok).map (·.id)).toFinset, ⟨?_, ?_⟩, ?_⟩
  · rw [h.voters_eq]
    refine Finset.union_subset_union subset_rfl fun u hu => ?_
    rw [mem_toFinset] at hu ⊢
    exact hsub.subset hu
  · rw [h.card_voters ok]
    refine lt_of_lt_of_eq hcount (congrArg _ ?_)
    rw [Finset.card_union_of_disjoint, toFinset_card_of_nodup (hsub.nodup h.nodup)]
    · unfold countVoters votingPeers
      cases n.selfNonVoter <;> simp
    · rw [Finset.disjoint_left]
      intro u hu hu'
      rw [mem_toFinset] at hu'
      have := (h.mem u).mp (hsub.subset hu')
      cases hs : n.selfNonVoter <;> simp_all
  · intro u hu
    rw [Finset.mem_union, mem_toFinset] at hu
    rcases hu with hu | hu
    · left
      cases hs : n.selfNonVoter <;> simp_all
    · obtain ⟨p, hp, rfl⟩ := mem_map.mp hu
      obtain ⟨hp, hok⟩ := mem_filter.mp hp
      exact .inr ⟨p, (mem_filter.mp hp).1, rfl, hok⟩

/-- The test of `checkStandardCommit` and `quorumAckedSinceLocked`. -/
theorem lt_two_mul_of_half_lt {votes voters : ℕ} (h : voters / 2 < votes) : voters < 2 * votes := by
  omega

/-- The asked voters and the candidate are the voters. -/
def Campaign.Asks (c : Campaign NodeId) (v : NodeId) (V : Finset NodeId) : Prop :=
  v ∉ c.peers ∧ c.peers.Nodup ∧ insert v c.peers.toFinset = V

/-- Every counted vote is that of another asked voter. -/
def Campaign.Counts (c : Campaign NodeId) : Prop :=
  c.granted.Nodup ∧ c.granted ⊆ c.answered ∧ c.granted ⊆ c.peers

theorem Campaign.Counts.countAnswer (h : c.Counts) (peer : NodeId)
    (resp : VoteResponse) : (c.countAnswer peer resp).Counts := by
  unfold Campaign.countAnswer
  split
  · rename_i hp
    cases resp.voteGranted with
    | true =>
      exact ⟨nodup_cons.mpr ⟨fun hin => hp.2 (h.2.1 hin), h.1⟩,
        cons_subset_cons _ h.2.1, cons_subset.mpr ⟨hp.1, h.2.2⟩⟩
    | false => exact ⟨h.1, fun u hu => .tail _ (h.2.1 hu), h.2.2⟩
  · exact h

theorem Campaign.Asks.countAnswer {v : NodeId} (h : c.Asks v V)
    (peer : NodeId) (resp : VoteResponse) : (c.countAnswer peer resp).Asks v V := by
  unfold Campaign.countAnswer
  split <;> exact h

theorem Campaign.term_countAnswer (c : Campaign NodeId) (peer : NodeId) (resp : VoteResponse) :
    (c.countAnswer peer resp).term = c.term := by
  unfold Campaign.countAnswer
  split <;> rfl

/-- A vote is counted for the peer that granted it. -/
theorem Campaign.mem_granted {peer u : NodeId} {resp : VoteResponse}
    (h : u ∈ (c.countAnswer peer resp).granted) :
    u ∈ c.granted ∨ u = peer ∧ resp.voteGranted = true := by
  unfold Campaign.countAnswer at h
  split at h
  · cases hg : resp.voteGranted with
    | true =>
      simp only [hg, if_true] at h
      rcases mem_cons.mp h with rfl | h
      · exact .inr ⟨rfl, rfl⟩
      · exact .inl h
    | false =>
      simp only [hg] at h
      exact .inl h
  · exact .inl h

/-- **Enough votes are a majority**: the candidate and those that granted. -/
theorem Campaign.isMajority {v : NodeId} (ha : c.Asks v V)
    (hc : c.Counts) (hvotes : votesNeeded c.peers ≤ c.votes) :
    IsMajority (insert v c.granted.toFinset) V := by
  obtain ⟨hv, hnodup, rfl⟩ := ha
  have hv' : v ∉ c.granted := fun h => hv (hc.2.2 h)
  refine ⟨Finset.insert_subset_insert _ fun u hu => ?_, ?_⟩
  · rw [mem_toFinset] at hu ⊢
    exact hc.2.2 hu
  · rw [Finset.card_insert_of_notMem (by simpa using hv),
      Finset.card_insert_of_notMem (by simpa using hv'),
      toFinset_card_of_nodup hnodup, toFinset_card_of_nodup hc.1]
    unfold votesNeeded Campaign.votes at hvotes
    omega

/-- What a node asks when it opens its pre-vote round. -/
theorem Synced.asks (h : Synced n) (hself : n.selfNonVoter = false)
    (hc : c.peers = n.votingPeers.map (·.id)) :
    c.Asks n.nodeID (memberVoters n.membershipLatest) := by
  refine ⟨?_, hc ▸ h.nodup, ?_⟩
  · rw [hc, h.mem]
    exact fun hne => hne.1 rfl
  · rw [hc, h.voters_eq, hself]
    rfl

end Counting

end Anubis.Raft
