import Anubis.Common.Ledger.Completeness

/-!
# The steps of the record

What a run can add to the ledger, one definition a step, and the proof that
each keeps the invariant: here how the record grows, votes, elections and
what a leader appends. An election is where completeness is used first: the
winner's log, compacted or not, is made of its predecessors' logs.
-/

namespace Ledger

open Quorum Function List

variable {N E : Type*}
variable {T : ℕ} {c : N} {L : List E} {X : List E} {b i k T' t U : ℕ} {x : E}

/-! ## Growth -/

/-- **A later record.** Terms rise, leaders' logs grow at the end, and votes,
acknowledgements and commits stay on record. -/
structure Le (g g' : Ledger N E) : Prop where
  term : ∀ v, g.term v ≤ g'.term v
  leader : ∀ {T c}, g.leader T = some c → g'.leader T = some c
  elected : ∀ {T}, g.Led T → g'.elected T = g.elected T
  llog : ∀ {T}, g.Led T → g.llog T <+: g'.llog T
  grants : g.grants ⊆ g'.grants
  acks : g.acks ⊆ g'.acks
  commits : g.commits ⊆ g'.commits
  stand : ∀ {c T}, T ≤ g.term c → g'.stand c T = g.stand c T

namespace Le

variable {g g' g'' : Ledger N E}

theorem refl (g : Ledger N E) : Le g g :=
  ⟨fun _ => le_rfl, id, fun _ => rfl, fun _ => prefix_refl _, subset_rfl, subset_rfl,
    subset_rfl, fun _ => rfl⟩

theorem led (hle : Le g g') (h : g.Led T) : g'.Led T := h.imp fun _ hc => hle.leader hc

theorem trans (h₁ : Le g g') (h₂ : Le g' g'') : Le g g'' where
  term v := (h₁.term v).trans (h₂.term v)
  leader hc := h₂.leader (h₁.leader hc)
  elected hT := (h₂.elected (h₁.led hT)).trans (h₁.elected hT)
  llog hT := (h₁.llog hT).trans (h₂.llog (h₁.led hT))
  grants := h₁.grants.trans h₂.grants
  acks := h₁.acks.trans h₂.acks
  commits := h₁.commits.trans h₂.commits
  stand {c _} hT := (h₂.stand (hT.trans (h₁.term c))).trans (h₁.stand hT)

theorem eqOn_llog (hle : Le g g') {T a : ℕ} (hT : g.Led T)
    (hb : b ≤ (g.llog T).length) (heq : EqOn a b L (g.llog T)) : EqOn a b L (g'.llog T) :=
  heq.trans ((EqOn.of_prefix (hle.llog hT)).mono (Nat.zero_le a) (by omega))

theorem llog_get (hle : Le g g') (hT : g.Led T) (hx : (g.llog T)[i]? = some x) :
    (g'.llog T)[i]? = some x :=
  (EqOn.of_prefix (hle.llog hT)).get hx (List.getElem?_eq_some_iff.mp hx).1

theorem llog_length (hle : Le g g') (hT : g.Led T) :
    (g.llog T).length ≤ (g'.llog T).length := (hle.llog hT).length_le

theorem llog_take (hle : Le g g') {T n : ℕ} (hT : g.Led T) (hn : n ≤ (g.llog T).length) :
    (g'.llog T).take n = (g.llog T).take n :=
  ((EqOn.of_prefix (hle.llog hT)).upTo (by omega)).symm.take_eq

end Le

variable {S : Scheme N E} {g g' : Ledger N E}

theorem Own.mono (hle : Le g g') (hT : g.Led T) (ho : Own S g T k) : Own S g' T k :=
  ho.imp fun _ hx => ⟨hle.llog_get hT hx.1, hx.2⟩

theorem Own.of_le (hle : Le g g') (hT : g.Led T) (hk : 0 < k)
    (hlen : k ≤ (g.llog T).length) (ho : Own S g' T k) : Own S g T k := by
  obtain ⟨x, hx, ht⟩ := ho
  refine ⟨x, ?_, ht⟩
  exact (EqOn.of_prefix (hle.llog hT)).symm.get hx (by omega)

/-- A retained entry stays retained: later leaders only narrow the
condition. -/
theorem Retains.mono (hle : Le g g') (hT : g.Led T) (hk : 0 < k)
    (hlen : k ≤ (g.llog T).length) (hr : Retains S g T' T k X) : Retains S g' T' T k X := by
  intro ho hlater
  obtain ⟨hX, htail⟩ := hr (ho.of_le hle hT hk hlen) fun U hU hU' hled => by
    have := hlater U hU hU' (hle.led hled)
    rw [hle.elected hled] at this
    exact this.trans ((EqOn.of_prefix (hle.llog hT)).upTo (by omega)).symm
  exact ⟨hle.eqOn_llog hT hlen hX, htail⟩

theorem AckedBy.mono (hle : Le g g') {V : Finset N} : AckedBy g T k V → AckedBy g' T k V :=
  fun ⟨Q, hQ, hv⟩ => ⟨Q, hQ, fun v hvQ => hle.acks (hv v hvQ)⟩

theorem Retains.later {T'' T : ℕ} (h : T' ≤ T'') (hr : Retains S g T' T k X) :
    Retains S g T'' T k X :=
  fun ho hlater => hr ho fun U hU hU' hled => hlater U hU (by omega) hled

variable [DecidableEq N] {v : N}

/-- Evidence of a vote stays, as the voter acknowledges nothing below the
term it voted in. -/
theorem Voted.mono (h : Inv S g) (hle : Le g g') {B T : ℕ} {p : ℕ × ℕ}
    (hlog : g'.grantLog v T = g.grantLog v T)
    (hacks : ∀ T₀ k, (v, T₀, k) ∈ g'.acks → T₀ < T → (v, T₀, k) ∈ g.acks)
    (hv : Voted S g B T p v) : Voted S g' B T p v where
  notBehind := by rw [hlog]; exact hv.notBehind
  retains := by
    intro T₀ k hack hlt
    rw [hlog]
    have hack' := hacks T₀ k hack hlt
    obtain ⟨hled, -, hk, hlen⟩ := h.ack_led hack'
    exact (hv.retains T₀ k hack' hlt).mono hle hled hk hlen

theorem Committed.mono (h : Inv S g) (hle : Le g g') (hT : T ≤ T')
    (hc : g.Committed T k L) : g'.Committed T' k L := by
  rcases hc with rfl | ⟨Tc, kc, hcc, hk, hTc, heq⟩
  · exact .inl rfl
  · have hled := (h.commit_ok hcc).1
    have := h.commit_length hcc
    exact .inr ⟨Tc, kc, hle.commits hcc, hk, hTc.trans hT, hle.eqOn_llog hled (by omega) heq⟩

section

variable (h : Inv S g) (hle : Le g g')

include h hle

theorem Inv.committed_mono (hT : g.Led T)
    (hc : g.Committed T k (g.llog T)) : g'.Committed T k (g'.llog T) :=
  (hc.mono h hle le_rfl).congr
    ((EqOn.of_prefix (hle.llog hT)).symm.upTo (h.committed_length hc))

/-! The invariant's clauses about entries on record, read in a later record. -/

theorem Inv.llog_match_mono (hT : g.Led T) (hx : (g.llog T)[i]? = some x) :
    g'.Led (S.term x) ∧ EqOn 0 (i + 1) (g.llog T) (g'.llog (S.term x)) := by
  obtain ⟨hled, heq⟩ := h.llog_match hT i x hx
  have hi := (List.getElem?_eq_some_iff.mp (heq.get hx (by omega))).1
  exact ⟨hle.led hled, hle.eqOn_llog hled hi heq⟩

theorem Inv.log_match_mono (hb : g.base v ≤ i) (hx : (g.log v)[i]? = some x) :
    g'.Led (S.term x) ∧ S.term x ≤ g'.term v ∧
      EqOn (g.base v) (i + 1) (g.log v) (g'.llog (S.term x)) := by
  obtain ⟨hled, hterm, heq⟩ := h.log_match v i x hb hx
  have hi := (List.getElem?_eq_some_iff.mp ((heq i (by omega) (by omega)).symm.trans hx)).1
  exact ⟨hle.led hled, hterm.trans (hle.term v), hle.eqOn_llog hled hi heq⟩

theorem Inv.ack_led_mono (hack : (v, T, k) ∈ g.acks) :
    g'.Led T ∧ T ≤ g'.term v ∧ 0 < k ∧ k ≤ (g'.llog T).length := by
  obtain ⟨hled, hterm, hk, hlen⟩ := h.ack_led hack
  exact ⟨hle.led hled, hterm.trans (hle.term v), hk, hlen.trans (hle.llog_length hled)⟩

theorem Inv.ack_kept_mono (hack : (v, T, k) ∈ g.acks) :
    Retains S g' (g'.term v + 1) T k (g.log v) := by
  obtain ⟨hled, -, hk, hlen⟩ := h.ack_led hack
  exact ((h.ack_kept hack).mono hle hled hk hlen).later (Nat.succ_le_succ (hle.term v))

theorem Inv.led_quorum_mono (hc : g.leader T = some c)
    (hvoted : ∀ v, (v, T, c) ∈ g.grants → Voted S g T T (position S (g.elected T)) v →
      Voted S g' T T (position S (g.elected T)) v) : ∃ Q, IsMajority Q (S.conf (g'.elected T)) ∧
    ∀ v ∈ Q, (v, T, c) ∈ g'.grants ∧ Voted S g' T T (position S (g'.elected T)) v := by
  rw [hle.elected ⟨c, hc⟩]
  obtain ⟨Q, hQ, hv⟩ := h.led_quorum hc
  exact ⟨Q, hQ, fun v hvQ => ⟨hle.grants (hv v hvQ).1, hvoted v (hv v hvQ).1 (hv v hvQ).2⟩⟩

theorem Inv.commit_ok_mono (hc : (T, k) ∈ g.commits) : g'.Led T ∧ Own S g' T k ∧ 0 < k ∧
    ∃ n, k ≤ n ∧ n ≤ (g'.llog T).length ∧ AckedBy g' T k (S.conf ((g'.llog T).take n)) := by
  obtain ⟨hled, ho, hk, n, hkn, hn, hack⟩ := h.commit_ok hc
  refine ⟨hle.led hled, ho.mono hle hled, hk, n, hkn, hn.trans (hle.llog_length hled), ?_⟩
  rw [hle.llog_take hled hn]
  exact hack.mono hle

end

/-! ## Terms and votes -/

/-- Node `v` moves on to term `t`. -/
def bump (g : Ledger N E) (v : N) (t : ℕ) : Ledger N E := { g with term := update g.term v t }

theorem le_bump (ht : g.term v ≤ t) : Le g (g.bump v t) :=
  { Le.refl g with
    term := fun w => by
      by_cases hw : w = v
      · subst hw; simpa [bump] using ht
      · simp [bump, hw] }

theorem Inv.bump (h : Inv S g) (ht : g.term v ≤ t) : Inv S (g.bump v t) := by
  have hle := le_bump ht
  exact { h with
    log_match := fun _ _ _ => h.log_match_mono hle
    base_committed := fun w => (h.base_committed w).mono h hle (hle.term w)
    ack_led := h.ack_led_mono hle
    ack_kept := h.ack_kept_mono hle
    grant_le := fun hg => ⟨(h.grant_le hg).1.trans (hle.term _),
      (h.grant_le hg).2.trans (hle.term _)⟩
    grant_voted := fun hg _ hB hled => (h.grant_voted hg hB hled).mono h hle rfl fun _ _ ha _ => ha
    led_quorum := fun hc => h.led_quorum_mono hle hc fun _ _ hvd =>
      hvd.mono h hle rfl fun _ _ ha _ => ha }

/-- Voter `v` votes for `c` in term `T`. -/
def grant (g : Ledger N E) (v : N) (T : ℕ) (c : N) : Ledger N E :=
  { g with
    grants := insert (v, T, c) g.grants
    grantLog := update g.grantLog v (update (g.grantLog v) T (g.log v)) }

theorem le_grant {c : N} : Le g (g.grant v T c) :=
    { Le.refl g with grants := Set.subset_insert _ _ }

theorem grantLog_grant {w c : N} (hne : (w, U) ≠ (v, T)) :
    (g.grant v T c).grantLog w U = g.grantLog w U := by
  by_cases hw : w = v
  · subst hw
    have hU : U ≠ T := fun hU => hne (by rw [hU])
    simp [grant, hU]
  · simp [grant, hw]

theorem Inv.grant (h : Inv S g) {c : N} (hv : g.term v = T) (hc : T ≤ g.term c)
    (hnone : ∀ c', (v, T, c') ∉ g.grants) (hpos : NotBehind S (g.stand c T) (g.log v)) :
    Inv S (g.grant v T c) := by
  have hle : Le g (g.grant v T c) := le_grant
  -- a vote on record is not the one being cast, so its evidence stays
  have hold : ∀ {w B U c'} {p : ℕ × ℕ}, (w, U, c') ∈ g.grants → Voted S g B U p w →
      Voted S (g.grant v T c) B U p w := by
    intro w B U c' p hg hvoted
    refine hvoted.mono h hle (grantLog_grant fun heq => ?_) fun _ _ ha _ => ha
    obtain ⟨rfl, rfl⟩ := Prod.mk.inj heq
    exact hnone c' hg
  refine { h with
    base_committed := fun w => (h.base_committed w).mono h hle le_rfl
    grant_le := ?_, grant_one := ?_, grant_voted := ?_
    led_quorum := fun hc => h.led_quorum_mono hle hc fun _ => hold }
  · rintro w U c' (⟨⟨⟩⟩ | hg)
    · exact ⟨hv.ge, hc⟩
    · exact h.grant_le hg
  · rintro w U c₁ c₂ (⟨⟨⟩⟩ | hg₁) (⟨⟨⟩⟩ | hg₂)
    · rfl
    · exact absurd hg₂ (hnone _)
    · exact absurd hg₁ (hnone _)
    · exact h.grant_one hg₁ hg₂
  · rintro w U c' (⟨⟨⟩⟩ | hg) B hB hled
    · have hlog : (g.grant v T c).grantLog v T = g.log v := by simp [Ledger.grant]
      refine ⟨by rw [hlog]; exact hpos, fun T₀ k hack hlt => ?_⟩
      rw [hlog]
      intro ho hlater
      -- the voter's term itself matters only once it has a leader
      refine h.ack_kept hack ho fun T₁ hT₁ hT₁' hled₁ => hlater T₁ hT₁ ?_ hled₁
      rcases (by omega : T₁ < T ∨ T₁ = T) with hlt₁ | rfl
      · exact hlt₁.trans_le hB
      · exact hled hled₁
    · exact hold hg (h.grant_voted hg hB hled)

/-- Node `c` stands for election in term `T` with the log it has. -/
def standWith (g : Ledger N E) (S : Scheme N E) (c : N) (T : ℕ) : Ledger N E :=
  { g with stand := update g.stand c (update (g.stand c) T (position S (g.log c))) }

theorem Inv.standWith (h : Inv S g) (hnone : ∀ v, (v, T, c) ∉ g.grants) :
    Inv S (g.standWith S c T) := by
  -- the evidence of a vote does not mention the announced positions
  have hsame : ∀ {B U p v}, Voted S g B U p v → Voted S (g.standWith S c T) B U p v :=
    fun hv => ⟨hv.notBehind, hv.retains⟩
  refine { h with
    grant_voted := fun {v U c'} hg _ hB hled => ?_
    led_quorum := fun hc => (h.led_quorum hc).imp fun _ hQ =>
      ⟨hQ.1, fun v hv => (hQ.2 v hv).imp_right hsame⟩ }
  have hstand : (g.standWith S c T).stand c' U = g.stand c' U := by
    by_cases hc : c' = c
    · subst hc
      have hU : U ≠ T := fun hU => hnone v (hU ▸ hg)
      simp [Ledger.standWith, hU]
    · simp [Ledger.standWith, hc]
  rw [hstand]
  exact hsame (h.grant_voted hg hB hled)

/-- **A campaign**: node `c` moves to term `T`, announces its position and
votes for itself. -/
def campaign (g : Ledger N E) (S : Scheme N E) (c : N) (T : ℕ) : Ledger N E :=
  ((g.bump c T).standWith S c T).grant c T c

theorem le_campaign (hT : g.term c < T) : Le g (g.campaign S c T) :=
  { le_bump hT.le with
    grants := Set.subset_insert _ _
    stand := fun {c' U} hU => by
      change (update g.stand c (update (g.stand c) T _)) c' U = _
      by_cases hc : c' = c
      · subst hc
        have : U ≠ T := by omega
        simp [this]
      · simp [hc] }

theorem Inv.campaign (h : Inv S g) (hT : g.term c < T) :
    Inv S (g.campaign S c T) := by
  have hfresh : ∀ v c', (v, T, c') ∈ g.grants → v ≠ c ∧ c' ≠ c := by
    intro v c' hg
    have := h.grant_le hg
    constructor <;> rintro rfl <;> omega
  have hbump := h.bump hT.le
  have hstand : Inv S ((g.bump c T).standWith S c T) :=
    hbump.standWith fun v hg => (hfresh v c hg).2 rfl
  refine hstand.grant ?_ ?_ (fun c' hg => (hfresh c c' hg).1 rfl) ?_
  · simp [Ledger.standWith, Ledger.bump]
  · simp [Ledger.standWith, Ledger.bump]
  · refine .inr ⟨?_, ?_⟩ <;> simp [Ledger.standWith, Ledger.bump, position]

/-! ## Leaders -/

/-- Node `c` becomes the leader of term `T`. -/
def elect (g : Ledger N E) (c : N) (T : ℕ) : Ledger N E :=
  { g with
    leader := update g.leader T (some c)
    elected := update g.elected T (g.log c)
    llog := update g.llog T (g.log c) }

omit [DecidableEq N] in
theorem led_elect : (g.elect c T).Led U ↔ U = T ∨ g.Led U := by
  by_cases hU : U = T
  · subst hU
    simp [Led, elect]
  · simp [Led, elect, hU]

omit [DecidableEq N] in
theorem le_elect (hT : ¬ g.Led T) : Le g (g.elect c T) := by
  have hne : ∀ {U}, g.Led U → U ≠ T := fun hU heq => hT (heq ▸ hU)
  exact { Le.refl g with
    leader := fun {_ c'} hc => by simpa [elect, hne ⟨c', hc⟩] using hc
    elected := fun hU => by simp [elect, hne hU]
    llog := fun hU => by simp [elect, hne hU] }

/-- A node's log, seen from a term that has no leader yet and that the node
has reached. -/
theorem Inv.log_matched (h : Inv S g) (hv : g.term v = T) (hT : ¬ g.Led T) :
    Matched S g T (g.log v) (g.base v) where
  le := h.base_le v
  above i x hb hx := by
    obtain ⟨hled, hterm, heq⟩ := h.log_match v i x hb hx
    have hne : S.term x ≠ T := fun heq => hT (heq ▸ hled)
    exact ⟨hled, by omega, heq⟩
  below hb := by
    obtain ⟨Tc, kc, hc, hk, hTc, heq⟩ := (h.base_committed v).resolve_left (by omega)
    have hne : Tc ≠ T := fun heq => hT (heq ▸ (h.commit_ok hc).1)
    exact ⟨Tc, kc, hc, hk, by omega, heq⟩

/-- **A complete log is its leaders' log from the first entry on**, across
its compaction mark too. -/
theorem Inv.matched_of_complete (h : Inv S g) (hL : Matched S g T L b)
    (hcomp : Complete S g T L) : Matched S g T L 0 where
  le := Nat.zero_le _
  below hb := absurd hb (lt_irrefl 0)
  above i x _ hx := by
    rcases Nat.eq_zero_or_pos b with rfl | hb
    · exact hL.above i x (Nat.zero_le _) hx
    obtain ⟨Tc, kc, hc, hk, hTc, heq⟩ := hL.below hb
    obtain ⟨hledc, ⟨x₀, hx₀, hterm₀⟩, hkpos, -⟩ := h.commit_ok hc
    obtain ⟨hhead, htail⟩ := hcomp Tc kc hc hTc
    rcases Nat.lt_or_ge i kc with hi | hi
    · -- below the commit, the entry is the committing leader's
      have hxc := hhead.get hx (by omega)
      obtain ⟨hled, hm⟩ := h.llog_match hledc i x hxc
      exact ⟨hled, lt_of_le_of_lt (h.llog_term_le hledc hxc) hTc,
        (hhead.upTo (by omega)).trans hm⟩
    · obtain ⟨hled, hlt, hm⟩ := hL.above i x (by omega) hx
      refine ⟨hled, hlt, EqOn.join (b := b) ?_ hm⟩
      rcases (htail i x hi hx).eq_or_lt with hTx | hTx
      · rw [← hTx]; exact heq
      · exact heq.trans ((h.llog_complete hled hc hTx).symm.upTo (by omega))

theorem Inv.elect (h : Inv S g) {Q : Finset N} (hpos : 0 < T)
    (hT : ¬ g.Led T) (hc : g.term c = T) (hQ : IsMajority Q (S.conf (g.log c)))
    (hv : ∀ v ∈ Q, (v, T, c) ∈ g.grants) (hstand : g.stand c T = position S (g.log c))
    (hb : g.base c = 0 ∨ Steady S g ∧ S.conf (g.log c) = S.conf []) :
    Inv S (g.elect c T) := by
  have hle : Le g (g.elect c T) := le_elect hT
  have hmatch := h.log_matched hc hT
  have hvoted : ∀ v ∈ Q, Voted S g T T (position S (g.log c)) v :=
    fun v hvQ => hstand ▸ h.grant_voted (hv v hvQ) le_rfl fun hled => absurd hled hT
  have hcomp := h.complete_of_votes hQ le_rfl hvoted (fun U _ hU => h.complete hU) hmatch hb
  have hzero := h.matched_of_complete hmatch hcomp
  have hmono : ∀ {B U p v}, Voted S g B U p v → Voted S (g.elect c T) B U p v :=
    fun hvd => hvd.mono h hle rfl fun _ _ ha _ => ha
  have hE : ∀ {U}, g.Led U → (g.elect c T).elected U = g.elected U := hle.elected
  have hL : ∀ {U}, g.Led U → (g.elect c T).llog U = g.llog U := by
    intro U hU
    have hne : U ≠ T := fun heq => hT (heq ▸ hU)
    simp [Ledger.elect, hne]
  have hnewE : (g.elect c T).elected T = g.log c := by simp [Ledger.elect]
  have hnewL : (g.elect c T).llog T = g.log c := by simp [Ledger.elect]
  -- each clause about leaders: the new one first, then the old ones
  refine { h with
    led_pos := ?_, elected_prefix := ?_, elected_lt := ?_, llog_own := ?_, llog_sorted := ?_
    llog_match := ?_, led_quorum := ?_, conf_step := ?_, conf_commit := ?_
    log_match := fun _ _ _ => h.log_match_mono hle
    base_committed := fun w => (h.base_committed w).mono h hle le_rfl
    ack_led := h.ack_led_mono hle
    ack_kept := h.ack_kept_mono hle
    grant_voted := fun hg _ hB hU => hmono (h.grant_voted hg hB fun hU' => hU (hle.led hU'))
    commit_ok := h.commit_ok_mono hle }
  · intro U hU
    rcases led_elect.mp hU with rfl | hU
    · exact hpos
    · exact h.led_pos hU
  · intro U hU
    rcases led_elect.mp hU with rfl | hU
    · rw [hnewE, hnewL]
    · rw [hE hU, hL hU]
      exact h.elected_prefix hU
  · intro U hU i x hx
    rcases led_elect.mp hU with rfl | hU
    · rw [hnewE] at hx
      exact (hzero.from_start hx).2.1
    · rw [hE hU] at hx
      exact h.elected_lt hU i x hx
  · intro U hU i x hi hx
    rcases led_elect.mp hU with rfl | hU
    · rw [hnewE] at hi
      rw [hnewL] at hx
      have := (List.getElem?_eq_some_iff.mp hx).1
      omega
    · rw [hE hU] at hi
      rw [hL hU] at hx
      exact h.llog_own hU i x hi hx
  · intro U hU i j x y hij hx hy
    rcases led_elect.mp hU with rfl | hU
    · rw [hnewL] at hx hy
      obtain ⟨hled, -, heq⟩ := hzero.from_start hy
      exact h.llog_term_le hled (heq.get hx (by omega))
    · rw [hL hU] at hx hy
      exact h.llog_sorted hU i j x y hij hx hy
  · intro U hU i x hx
    rcases led_elect.mp hU with rfl | hU
    · rw [hnewL] at hx ⊢
      obtain ⟨hled, -, heq⟩ := hzero.from_start hx
      exact ⟨hle.led hled, by rwa [hL hled]⟩
    · rw [hL hU] at hx ⊢
      exact h.llog_match_mono hle hU hx
  · intro U c' hc'
    by_cases hU : U = T
    · subst hU
      have hcc : c = c' := by simpa [Ledger.elect] using hc'
      subst hcc
      rw [hnewE]
      exact ⟨Q, hQ, fun v hvQ => ⟨hv v hvQ, hmono (hvoted v hvQ)⟩⟩
    · have hc'' : g.leader U = some c' := by simpa [Ledger.elect, hU] using hc'
      exact h.led_quorum_mono hle hc'' fun _ _ => hmono
  · intro U hU i
    rcases led_elect.mp hU with rfl | hU
    · rw [hnewL]
      rcases hx : (g.log c)[i]? with _ | x
      · have := List.getElem?_eq_none_iff.mp hx
        rw [take_of_length_le this, take_of_length_le (by omega)]
        exact Adjacent.refl _
      · obtain ⟨hled, -, heq⟩ := hzero.from_start hx
        rw [conf_eq_of_eqOn heq, conf_eq_of_eqOn (heq.upTo (Nat.le_succ i))]
        exact h.conf_step hled i
    · rw [hL hU]
      exact h.conf_step hU i
  · intro U hU i x hx hcx hterm
    rcases led_elect.mp hU with rfl | hU
    · rw [hnewL] at hx
      have := (hzero.from_start hx).2.1
      omega
    · rw [hL hU] at hx ⊢
      exact h.conf_commit hU i x hx hcx hterm

/-- The leader `c` of term `T` appends `x` and counts itself. -/
def append (g : Ledger N E) (c : N) (T : ℕ) (x : E) : Ledger N E :=
  { g with
    log := update g.log c (g.log c ++ [x])
    llog := update g.llog T (g.llog T ++ [x])
    acks := insert (c, T, (g.llog T).length + 1) g.acks }

theorem le_append : Le g (g.append c T x) :=
  { Le.refl g with
    llog := fun {U} _ => by
      by_cases hU : U = T
      · subst hU; simp [append]
      · simp [append, hU]
    acks := Set.subset_insert _ _ }

/-- What an append may do to the configuration: nothing, or one change on
top of a committed configuration. -/
def MayAppend (S : Scheme N E) (g : Ledger N E) (T : ℕ) (x : E) : Prop :=
  S.changes x → Adjacent (S.conf (g.llog T)) (S.conf (g.llog T ++ [x])) ∧
    ∃ k, (T, k) ∈ g.commits ∧ AckedBy g T k (S.conf (g.llog T)) ∧
      ∀ j y, (g.llog T)[j]? = some y → S.changes y → j < k

omit [DecidableEq N] in
/-- Appending an entry that is not older keeps what is retained. -/
theorem Retains.append (hr : Retains S g T' T k X)
    (hk : k ≤ (g.llog T).length) (hx : T ≤ S.term x) : Retains S g T' T k (X ++ [x]) := by
  intro ho hlater
  obtain ⟨hX, htail⟩ := hr ho hlater
  have hlen := hX.le_length hk
  refine ⟨fun i hi hik => ?_, fun j y hj hy => ?_⟩
  · rw [getElem?_append_left (by omega)]
    exact hX i hi hik
  · rcases getElem?_concat_eq_some.mp hy with hy | ⟨-, rfl⟩
    · exact htail j y hj hy
    · exact hx

theorem Inv.append (h : Inv S g) (hc : g.leader T = some c)
    (hterm : g.term c = T) (hlog : g.log c = g.llog T) (hx : S.term x = T)
    (hmay : MayAppend S g T x) : Inv S (g.append c T x) := by
  have hle : Le g (g.append c T x) := le_append
  have hT : g.Led T := ⟨c, hc⟩
  have hnew : (g.append c T x).llog T = g.llog T ++ [x] := by simp [Ledger.append]
  have hold : ∀ {U}, U ≠ T → (g.append c T x).llog U = g.llog U := by
    intro U hU; simp [Ledger.append, hU]
  have hlogc : (g.append c T x).log c = g.llog T ++ [x] := by simp [Ledger.append, hlog]
  have hlogw : ∀ {w}, w ≠ c → (g.append c T x).log w = g.log w := by
    intro w hw; simp [Ledger.append, hw]
  have hmono : ∀ {B U p v}, U ≤ g.term v → Voted S g B U p v →
    Voted S (g.append c T x) B U p v := by
    intro B U p v hU hvd
    refine hvd.mono h hle rfl fun T₀ k ha hlt => ?_
    rcases ha with ⟨⟨⟩⟩ | ha
    · omega
    · exact ha
  refine { h with
    elected_prefix := fun hU => (h.elected_prefix hU).trans (hle.llog hU)
    llog_own := ?_, llog_sorted := ?_, llog_match := ?_, log_match := ?_, base_le := ?_
    base_committed := ?_, ack_led := ?_, ack_kept := ?_
    grant_voted := fun hg _ hB hU => hmono (h.grant_le hg).1 (h.grant_voted hg hB hU)
    led_quorum := fun hc => h.led_quorum_mono hle hc fun _ hg => hmono (h.grant_le hg).1
    commit_ok := h.commit_ok_mono hle, conf_step := ?_, conf_commit := ?_ }
  · intro U hU i y hi hy
    by_cases hUT : U = T
    · subst hUT
      rw [hnew] at hy
      rcases getElem?_concat_eq_some.mp hy with hy | ⟨-, rfl⟩
      · exact h.llog_own hU i y hi hy
      · exact hx
    · rw [hold hUT] at hy
      exact h.llog_own hU i y hi hy
  · intro U hU i j y z hij hy hz
    by_cases hUT : U = T
    · subst hUT
      rw [hnew] at hy hz
      rcases getElem?_concat_eq_some.mp hz with hz | ⟨-, rfl⟩
      · rcases getElem?_concat_eq_some.mp hy with hy | ⟨rfl, -⟩
        · exact h.llog_sorted hU i j y z hij hy hz
        · have := (List.getElem?_eq_some_iff.mp hz).1
          omega
      · rcases getElem?_concat_eq_some.mp hy with hy | ⟨-, rfl⟩
        · rw [hx]
          exact h.llog_term_le hU hy
        · exact le_rfl
    · rw [hold hUT] at hy hz
      exact h.llog_sorted hU i j y z hij hy hz
  · intro U hU i y hy
    by_cases hUT : U = T
    · subst hUT
      rw [hnew] at hy
      rcases getElem?_concat_eq_some.mp hy with hy | ⟨rfl, rfl⟩
      · have hi := (List.getElem?_eq_some_iff.mp hy).1
        have hpre := ((EqOn.of_prefix (hle.llog hU)).upTo hi).symm
        exact (h.llog_match_mono hle hU hy).imp_right hpre.trans
      · rw [hx]
        exact ⟨hU, EqOn.refl _ _ _⟩
    · rw [hold hUT] at hy ⊢
      exact h.llog_match_mono hle hU hy
  · intro w i y hb hy
    by_cases hwc : w = c
    · subst hwc
      rw [hlogc] at hy ⊢
      rcases getElem?_concat_eq_some.mp hy with hy | ⟨rfl, rfl⟩
      · have hi := (List.getElem?_eq_some_iff.mp hy).1
        rw [← hlog] at hy hi ⊢
        obtain ⟨hled, hty, heq⟩ := h.log_match_mono hle hb hy
        exact ⟨hled, hty, ((EqOn.of_prefix (prefix_append _ _)).mono (Nat.zero_le _)
          (by omega)).symm.trans heq⟩
      · rw [hx, hnew]
        exact ⟨hT, hterm.ge, EqOn.refl _ _ _⟩
    · rw [hlogw hwc] at hy ⊢
      exact h.log_match_mono hle hb hy
  · intro w
    by_cases hwc : w = c
    · subst hwc
      have := h.base_le w
      rw [hlogc, length_append, ← hlog]
      exact this.trans (Nat.le_add_right _ _)
    · rw [hlogw hwc]
      exact h.base_le w
  · intro w
    have hb := (h.base_committed w).mono h hle le_rfl
    by_cases hwc : w = c
    · subst hwc
      rw [hlogc, ← hlog]
      exact hb.congr ((EqOn.of_prefix (prefix_append _ _)).upTo (h.base_le w)).symm
    · rw [hlogw hwc]
      exact hb
  · rintro v U k (⟨⟨⟩⟩ | hack)
    · refine ⟨hT, hterm.ge, by omega, ?_⟩
      simp [hnew]
    · exact h.ack_led_mono hle hack
  · rintro v U k (⟨⟨⟩⟩ | hack)
    · intro _ _
      rw [hlogc, hnew]
      refine ⟨EqOn.refl _ _ _, fun j y hj hy => ?_⟩
      have := (List.getElem?_eq_some_iff.mp hy).1
      simp at this
      omega
    · have hr := h.ack_kept_mono hle hack
      by_cases hvc : v = c
      · subst hvc
        obtain ⟨-, hv, -, hlen⟩ := h.ack_led_mono hle hack
        have := hr.append hlen (x := x) (hv.trans_eq (hterm.trans hx.symm))
        simpa [Ledger.append] using this
      · rw [hlogw hvc]
        exact hr
  · intro U hU i
    by_cases hUT : U = T
    · subst hUT
      rcases lt_trichotomy i (g.llog U).length with hi | rfl | hi
      · rw [hle.llog_take hU hi, hle.llog_take hU hi.le]
        exact h.conf_step hU i
      · rw [hnew, take_left' rfl, take_of_length_le (by simp)]
        by_cases hcx : S.changes x
        · exact (hmay hcx).1
        · rw [S.conf_append _ _ hcx]
          exact Adjacent.refl _
      · rw [hnew, take_of_length_le (by simp; omega), take_of_length_le (by simp; omega)]
        exact Adjacent.refl _
    · rw [hold hUT]
      exact h.conf_step hU i
  · intro U hU i y hy hcy hty
    by_cases hUT : U = T
    · subst hUT
      rw [hnew] at hy ⊢
      rcases getElem?_concat_eq_some.mp hy with hy | ⟨rfl, rfl⟩
      · have hi := (List.getElem?_eq_some_iff.mp hy).1
        obtain ⟨k, hk, hki, hack, hbelow⟩ := h.conf_commit hU i y hy hcy hty
        refine ⟨k, hk, hki, ?_, fun j z hj hz => ?_⟩
        · rw [take_append_of_le_length hi.le]
          exact hack.mono hle
        · rw [getElem?_append_left (by omega)] at hz
          exact hbelow j z hj hz
      · obtain ⟨-, k, hk, hack, hbelow⟩ := hmay hcy
        refine ⟨k, hk, h.commit_length hk, ?_, fun j z hj hz => ?_⟩
        · rw [take_left' rfl]
          exact hack.mono hle
        · rw [getElem?_append_left hj] at hz
          exact hbelow j z hz
    · rw [hold hUT] at hy ⊢
      obtain ⟨k, hk, hki, hack, hbelow⟩ := h.conf_commit hU i y hy hcy hty
      exact ⟨k, hk, hki, hack.mono hle, hbelow⟩

end Ledger
