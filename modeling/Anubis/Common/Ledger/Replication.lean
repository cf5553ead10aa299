import Anubis.Common.Ledger.Steps

/-!
# Replication and commits

The steps a follower takes: it replaces a suffix by its leader's, installs a
snapshot, moves its compaction mark, acknowledges; and the leader's commit.
Replacing a suffix and installing a snapshot need leader completeness: what
they overwrite was never acknowledged to a quorum that a later leader has
missed.
-/

namespace Ledger

open Quorum Function List

variable {N E : Type*} {S : Scheme N E} {g g' g'' : Ledger N E}
variable {L : List E} {b : ℕ} {i k q s : ℕ} {x : E} {v : N} {T : ℕ}

/-! ## Who makes a change -/

/-- Node `v` acknowledges the entries up to `q` that lie above its mark. -/
def ack (g : Ledger N E) (v : N) (T q : ℕ) : Ledger N E :=
  { g with acks := g.acks ∪ {a | a.1 = v ∧ a.2.1 = T ∧ g.base v < a.2.2 ∧ a.2.2 ≤ q} }

theorem le_ack : Le g (g.ack v T q) := { Le.refl g with acks := Set.subset_union_left }

/-- Entry `k` is committed in term `T`. -/
def commit (g : Ledger N E) (T k : ℕ) : Ledger N E := { g with commits := insert (T, k) g.commits }

theorem le_commit : Le g (g.commit T k) := { Le.refl g with commits := Set.subset_insert _ _ }

/-- **What the record says of node `u` stays**, while the record grows. -/
structure Keeps (u : N) (g g' : Ledger N E) : Prop where
  le : Le g g'
  term : g'.term u = g.term u
  log : g'.log u = g.log u
  base : g'.base u = g.base u
  leader : ∀ {T}, g'.leader T = some u → g.leader T = some u
  llog : ∀ {T}, g.leader T = some u → g'.llog T = g.llog T
  grants : ∀ {T c}, (u, T, c) ∈ g'.grants → (u, T, c) ∈ g.grants

theorem Keeps.refl (u : N) (g : Ledger N E) : Keeps u g g :=
  ⟨Le.refl g, rfl, rfl, rfl, id, fun _ => rfl, id⟩

theorem Keeps.trans {u : N} (h : Keeps u g g') (h' : Keeps u g' g'') :
    Keeps u g g'' where
  le := h.le.trans h'.le
  term := h'.term.trans h.term
  log := h'.log.trans h.log
  base := h'.base.trans h.base
  leader hT := h.leader (h'.leader hT)
  llog hT := (h'.llog (h.le.leader hT)).trans (h.llog hT)
  grants hg := h.grants (h'.grants hg)

theorem Keeps.commit {u : N} : Keeps u g (g.commit T k) :=
  { Keeps.refl u g with le := le_commit }

/-- **A change node `v` makes**: the record grows, and what it says of the
other nodes stays. -/
structure By (v : N) (g g' : Ledger N E) : Prop where
  le : Le g g'
  keeps : ∀ {u}, u ≠ v → Keeps u g g'

namespace By

theorem refl (v : N) (g : Ledger N E) : By v g g := ⟨Le.refl g, fun _ => .refl _ g⟩

theorem trans (h : By v g g') (h' : By v g' g'') : By v g g'' :=
  ⟨h.le.trans h'.le, fun hu => (h.keeps hu).trans (h'.keeps hu)⟩

theorem elect (hT : ¬ g.Led T) : By v g (g.elect v T) := by
  refine ⟨le_elect hT, fun {u} hu => { Keeps.refl u g with
    le := le_elect hT, leader := fun {U} hU => ?_, llog := fun {U} hU => ?_ }⟩
  · by_cases heq : U = T
    · subst heq
      simp only [Ledger.elect, update_self, Option.some.injEq] at hU
      exact absurd hU.symm hu
    · simpa [Ledger.elect, heq] using hU
  · have heq : U ≠ T := fun heq => hT (heq ▸ ⟨u, hU⟩)
    simp [Ledger.elect, heq]

theorem ack : By v g (g.ack v T q) :=
  ⟨le_ack, fun {u} _ => { Keeps.refl u g with le := le_ack }⟩

theorem commit : By v g (g.commit T k) := ⟨le_commit, fun _ => .commit⟩

end By

/-- Nothing has happened. -/
def empty : Ledger N E where
  term _ := 0
  log _ := []
  base _ := 0
  leader _ := none
  elected _ := []
  llog _ := []
  grants := ∅
  grantLog _ _ := []
  stand _ _ := (0, 0)
  acks := ∅
  commits := ∅

theorem not_led_empty : ¬ (empty : Ledger N E).Led T := by
  rintro ⟨c, hc⟩
  cases hc

variable [DecidableEq N]

/-! ## Followers -/

/-- Node `v`'s log and mark become `L` and `b`. -/
def setLog (g : Ledger N E) (v : N) (L : List E) (b : ℕ) : Ledger N E :=
  { g with log := update g.log v L, base := update g.base v b }

@[simp] theorem log_setLog : (g.setLog v L b).log v = L := update_self ..

@[simp] theorem base_setLog : (g.setLog v L b).base v = b :=
  update_self ..

theorem le_setLog : Le g (g.setLog v L b) := { Le.refl g with }

section

variable (h : Inv S g)

include h

/-- A new log has to carry leaders' logs above its mark, be committed below
it, and keep what the node acknowledged. -/
theorem Inv.setLog (hmatch : ∀ i x, b ≤ i → L[i]? = some x →
      g.Led (S.term x) ∧ S.term x ≤ g.term v ∧ EqOn b (i + 1) L (g.llog (S.term x)))
    (hlen : b ≤ L.length) (hbase : g.Committed (g.term v) b L)
    (hkept : ∀ T k, (v, T, k) ∈ g.acks → Retains S g (g.term v + 1) T k L) :
    Inv S (g.setLog v L b) := by
  have hle : Le g (g.setLog v L b) := le_setLog
  have hmono : ∀ {B U p w}, Voted S g B U p w → Voted S (g.setLog v L b) B U p w :=
    fun hvd => hvd.mono h hle rfl fun _ _ ha _ => ha
  refine { h with
    log_match := fun w => ?_, base_le := fun w => ?_, base_committed := fun w => ?_
    ack_kept := fun {w U k} hack => ?_
    grant_voted := fun hg _ hB hU => hmono (h.grant_voted hg hB hU)
    led_quorum := fun hc => h.led_quorum_mono hle hc fun _ _ => hmono }
  all_goals
    by_cases hw : w = v
    · subst hw
      simp only [Ledger.setLog, update_self]
      first | exact hmatch | exact hlen | exact hbase | exact hkept U k hack
    · simp only [Ledger.setLog, update_of_ne hw]
      first
        | exact h.log_match w | exact h.base_le w | exact h.base_committed w
        | exact h.ack_kept hack

theorem Inv.base_eqOn (hv : g.term v = T) (hT : g.Led T) :
    EqOn 0 (g.base v) (g.log v) (g.llog T) := h.committed_llog hT (hv ▸ h.base_committed v)

/-- **Log matching**: where a node has an entry of the same term as the leader
of its own term, the two logs agree up to it. -/
theorem Inv.eqOn_of_term {y : E} (hv : g.term v = T) (hT : g.Led T)
    (hb : g.base v ≤ i) (hx : (g.log v)[i]? = some x) (hy : (g.llog T)[i]? = some y)
    (heq : S.term x = S.term y) : EqOn 0 (i + 1) (g.log v) (g.llog T) := by
  obtain ⟨-, -, hmatch⟩ := h.log_match v i x hb hx
  obtain ⟨-, hmatch'⟩ := h.llog_match hT i y hy
  rw [heq] at hmatch
  exact (h.base_eqOn hv hT).join (hmatch.trans (hmatch'.symm.mono (Nat.zero_le _) (by omega)))

/-- Every entry of a node's log is one of some leader, of a term the node has
reached. -/
theorem Inv.mem_llog (hx : x ∈ g.log v) : ∃ T, g.Led T ∧ T ≤ g.term v ∧ x ∈ g.llog T := by
  obtain ⟨i, hi⟩ := getElem?_of_mem hx
  rcases Nat.lt_or_ge i (g.base v) with hlt | hge
  · rcases h.base_committed v with hzero | ⟨Tc, kc, hc, -, hTc, heq⟩
    · omega
    · refine ⟨Tc, (h.commit_ok hc).1, hTc, ?_⟩
      rw [heq i (Nat.zero_le _) hlt] at hi
      exact mem_of_getElem? hi
  · obtain ⟨hled, hterm, heq⟩ := h.log_match v i x hge hi
    refine ⟨S.term x, hled, hterm, ?_⟩
    rw [heq i hge (Nat.lt_succ_self _)] at hi
    exact mem_of_getElem? hi

theorem Inv.log_term_le (hx : x ∈ g.log v) : S.term x ≤ g.term v := by
  obtain ⟨T, hT, hle, hmem⟩ := h.mem_llog hx
  obtain ⟨i, hi⟩ := getElem?_of_mem hmem
  exact (h.llog_term_le hT hi).trans hle

theorem Inv.log_term_pos (hx : x ∈ g.log v) : 0 < S.term x := by
  obtain ⟨T, hT, -, hmem⟩ := h.mem_llog hx
  obtain ⟨i, hi⟩ := getElem?_of_mem hmem
  exact h.led_pos (h.llog_match hT i x hi).1

/-- An entry retained from an earlier term is in the log of a leader that
was elected holding it, with nothing older after it. -/
theorem Inv.llog_retains {T U : ℕ} (hT : g.Led T) (hk : 0 < k)
    (ho : Own S g U k) (heq : EqOn 0 k (g.llog T) (g.llog U)) :
    ∀ (j : ℕ) (x : E), k ≤ j → (g.llog T)[j]? = some x → U ≤ S.term x := by
  intro j x hj hx
  obtain ⟨x₀, hx₀, hterm₀⟩ := ho
  have := h.llog_sorted hT (k - 1) j x₀ x (by omega)
    (heq.symm.get hx₀ (by omega)) hx
  omega

end

/-- **Node `v` takes over the first `q` entries of its leader's log**, and
gives up what it has past them. -/
def replace (g : Ledger N E) (v : N) (T q : ℕ) : Ledger N E :=
  g.setLog v ((g.llog T).take q) (g.base v)

/-- The replacement only drops entries past a disagreement with the leader. -/
theorem Inv.replace (h : Inv S g) (hv : g.term v = T) (hT : g.Led T)
    (hq : ∀ k, k ≤ (g.llog T).length → EqOn 0 k (g.log v) (g.llog T) → k ≤ q) :
    Inv S (g.replace v T q) := by
  have hbase := h.base_eqOn hv hT
  have hblen : g.base v ≤ (g.llog T).length := hbase.symm.le_length (h.base_le v)
  have hbq : g.base v ≤ q := hq _ hblen hbase
  have htake : ∀ {k}, k ≤ q → EqOn 0 k ((g.llog T).take q) (g.llog T) := by
    intro k hk i _ hi
    rw [getElem?_take_of_lt (by omega)]
  refine h.setLog ?_ ?_ ?_ ?_
  · intro i x hb hx
    rw [getElem?_take] at hx
    split at hx
    · obtain ⟨hled, heq⟩ := h.llog_match hT i x hx
      exact ⟨hled, hv ▸ h.llog_term_le hT hx,
        ((htake (by omega)).trans heq).mono (Nat.zero_le _) (by omega)⟩
    · cases hx
  · rw [length_take]
    omega
  · rcases h.base_committed v with hb | ⟨Tc, kc, hc, hk, hTc, heq⟩
    · exact .inl hb
    · exact .inr ⟨Tc, kc, hc, hk, hTc, (htake hbq).trans (hbase.symm.trans heq)⟩
  · intro U k hack ho hlater
    obtain ⟨hU, hUv, hk, hlen⟩ := h.ack_led hack
    obtain ⟨hX, -⟩ := h.ack_kept hack ho hlater
    -- the leader of `T` holds the acknowledged entry, so nothing before it disagrees
    have hTU : EqOn 0 k (g.llog T) (g.llog U) := by
      rcases (hv ▸ hUv : U ≤ T).eq_or_lt with rfl | hlt
      · exact EqOn.refl _ _ _
      · exact h.eqOn_llog hT hlen (hlater T hlt (by omega) hT)
    have hkq : k ≤ q := hq k (hTU.le_length hlen) (hX.trans hTU.symm)
    refine ⟨(htake hkq).trans hTU, fun j x hj hx => ?_⟩
    rw [getElem?_take] at hx
    split at hx
    · exact h.llog_retains hT hk ho hTU j x hj hx
    · cases hx

/-- **A log a follower may come to have**: its own, or its leader's up to some
point past all they share. -/
def Adopts (g : Ledger N E) (v : N) (T : ℕ) (L : List E) : Prop :=
  L = g.log v ∨ ∃ q, L = (g.llog T).take q ∧
    ∀ k, k ≤ (g.llog T).length → EqOn 0 k (g.log v) (g.llog T) → k ≤ q

theorem Inv.adopt (h : Inv S g) (hv : g.term v = T) (hT : g.Led T)
    (hL : Adopts g v T L) : Inv S (g.setLog v L (g.base v)) := by
  rcases hL with rfl | ⟨q, rfl, hq⟩
  · have : g.setLog v (g.log v) (g.base v) = g := by simp [Ledger.setLog]
    rwa [this]
  · exact h.replace hv hT hq

/-- What is committed of the old log is in the new one. -/
theorem Inv.adopt_committed (h : Inv S g) (hT : g.Led T)
    (hL : Adopts g v T L) (hc : g.Committed T k (g.log v)) : EqOn 0 k (g.log v) L := by
  rcases hL with rfl | ⟨q, rfl, hq⟩
  · exact EqOn.refl _ _ _
  · have heq := h.committed_llog hT hc
    have hkq : k ≤ q := hq k (heq.symm.le_length (h.committed_length hc)) heq
    intro i _ hi
    rw [getElem?_take_of_lt (by omega)]
    exact heq i (Nat.zero_le _) hi

theorem Inv.ack (h : Inv S g) (hv : g.term v = T) (hT : g.Led T)
    (hq : q ≤ (g.llog T).length) (heq : EqOn 0 q (g.log v) (g.llog T)) :
    Inv S (g.ack v T q) := by
  have hle : Le g (g.ack v T q) := le_ack
  have hmono : ∀ {B U p w}, U ≤ g.term w → Voted S g B U p w → Voted S (g.ack v T q) B U p w := by
    intro B U p w hU hvd
    refine hvd.mono h hle rfl fun T₀ k ha hlt => ha.resolve_right ?_
    rintro ⟨rfl, rfl, -⟩
    exact absurd hU (by simpa [hv] using hlt)
  refine { h with
    ack_led := ?_, ack_kept := ?_
    grant_voted := fun hg _ hB hU => hmono (h.grant_le hg).1 (h.grant_voted hg hB hU)
    led_quorum := fun hc => h.led_quorum_mono hle hc fun _ hg => hmono (h.grant_le hg).1
    commit_ok := h.commit_ok_mono hle
    conf_commit := fun hU i x hx hcx ht => (h.conf_commit hU i x hx hcx ht).imp
      fun k hk => ⟨hk.1, hk.2.1, hk.2.2.1.mono hle, hk.2.2.2⟩ }
  · rintro w U k (hack | ⟨rfl, rfl, hb, hk⟩)
    · exact h.ack_led hack
    · exact ⟨hT, hv.ge, lt_of_le_of_lt (Nat.zero_le _) hb, hk.trans hq⟩
  · rintro w U k (hack | ⟨rfl, rfl, hb, hk⟩)
    · exact h.ack_kept hack
    · rintro ⟨x₀, hx₀, hterm₀⟩ -
      simp only at hb hk hx₀ hterm₀
      refine ⟨heq.upTo (by omega), fun j x hj hx => ?_⟩
      -- entry `j` carries its leader's log, with the acknowledged entry in it
      obtain ⟨hled, -, hm⟩ := h.log_match w j x (by omega) hx
      have hx₀w : (g.log w)[k - 1]? = some x₀ := heq.symm.get hx₀ (by omega)
      have := h.llog_term_le hled (hm (k - 1) (by omega) (by omega) ▸ hx₀w)
      omega

/-- **Node `v` installs a snapshot** of the first `s` entries committed in
`Tc`, and keeps what its log has past them. -/
def install (g : Ledger N E) (v : N) (Tc s : ℕ) : Ledger N E :=
  g.setLog v ((g.llog Tc).take s ++ (g.log v).drop s) s

/-- A log overwritten up to `s` by `M`. -/
theorem getElem?_take_append_drop {L M : List E} (hs : s ≤ M.length) :
    (M.take s ++ L.drop s)[i]? = if i < s then M[i]? else L[i]? := by
  have hlen : (M.take s).length = s := by rw [length_take]; omega
  split
  · rw [getElem?_append_left (by omega), getElem?_take_of_lt ‹_›]
  · rw [getElem?_append_right (by omega), getElem?_drop, hlen]
    congr 1
    omega

theorem Inv.install (h : Inv S g) {Tc kc : ℕ} (hc : (Tc, kc) ∈ g.commits)
    (hs : s ≤ kc) (hTc : Tc ≤ g.term v) (hb : g.base v ≤ s) : Inv S (g.install v Tc s) := by
  have hledc := (h.commit_ok hc).1
  have hslen : s ≤ (g.llog Tc).length := hs.trans (h.commit_length hc)
  have hget : ∀ i, ((g.llog Tc).take s ++ (g.log v).drop s)[i]? =
      if i < s then (g.llog Tc)[i]? else (g.log v)[i]? :=
    fun i => getElem?_take_append_drop hslen
  refine h.setLog ?_ ?_ ?_ ?_
  · intro i x hi hx
    rw [hget, if_neg (by omega)] at hx
    obtain ⟨hled, hterm, heq⟩ := h.log_match v i x (by omega) hx
    refine ⟨hled, hterm, fun j hj hji => ?_⟩
    rw [hget, if_neg (by omega)]
    exact heq j (by omega) hji
  · rw [length_append, length_take]
    omega
  · refine .inr ⟨Tc, kc, hc, hs, hTc, fun i _ hi => ?_⟩
    rw [hget, if_pos hi]
  · intro U k hack ho hlater
    obtain ⟨hU, hUv, hk, hlen⟩ := h.ack_led hack
    obtain ⟨hX, htail⟩ := h.ack_kept hack ho hlater
    -- where snapshot and acknowledged entries overlap they are the same
    have hlate : U ≤ Tc → EqOn 0 k (g.llog Tc) (g.llog U) := by
      intro hle
      rcases hle.eq_or_lt with rfl | hlt
      · exact EqOn.refl _ _ _
      · exact h.eqOn_llog hledc hlen (hlater Tc hlt (by omega) hledc)
    have hagree : EqOn 0 (min s k) (g.llog Tc) (g.llog U) := by
      rcases Nat.lt_or_ge Tc U with hlt | hge
      · exact (h.llog_complete hU hc hlt).symm.upTo (by omega)
      · exact (hlate hge).upTo (by omega)
    refine ⟨fun i hi hik => ?_, fun j x hj hx => ?_⟩
    · rw [hget]
      split
      · exact hagree i hi (by omega)
      · exact hX i hi hik
    · rw [hget] at hx
      split at hx
      · refine h.llog_retains hledc hk ho (hlate ?_) j x hj hx
        by_contra hlt
        obtain ⟨x₀, hx₀, hterm₀⟩ := ho
        have := h.llog_term_le hledc (hagree.symm.get hx₀ (by omega))
        omega
      · exact htail j x hj hx

/-- Node `v` moves its mark up to `b`. -/
def compact (g : Ledger N E) (v : N) (b : ℕ) : Ledger N E := g.setLog v (g.log v) b

theorem Inv.compact (h : Inv S g) (hb : g.base v ≤ b)
    (hlen : b ≤ (g.log v).length) (hc : g.Committed (g.term v) b (g.log v)) :
    Inv S (g.compact v b) := by
  refine h.setLog ?_ hlen hc fun T k hack => h.ack_kept hack
  intro i x hi hx
  obtain ⟨hled, hterm, heq⟩ := h.log_match v i x (by omega) hx
  exact ⟨hled, hterm, heq.mono hb le_rfl⟩

/-! ## Commits -/

theorem Inv.commit (h : Inv S g) {T n : ℕ} (hT : g.Led T) (ho : Own S g T k) (hk : 0 < k)
    (hkn : k ≤ n) (hn : n ≤ (g.llog T).length)
    (hack : AckedBy g T k (S.conf ((g.llog T).take n))) : Inv S (g.commit T k) := by
  have hle : Le g (g.commit T k) := le_commit
  have hmono : ∀ {B U p w}, Voted S g B U p w → Voted S (g.commit T k) B U p w :=
    fun hvd => ⟨hvd.notBehind, hvd.retains⟩
  refine { h with
    base_committed := fun w => (h.base_committed w).mono h hle le_rfl
    grant_voted := fun hg _ hB hU => hmono (h.grant_voted hg hB hU)
    led_quorum := fun hc => h.led_quorum_mono hle hc fun _ _ => hmono
    commit_ok := ?_
    conf_commit := fun hU i x hx hcx ht => (h.conf_commit hU i x hx hcx ht).imp
      fun k' hk' => ⟨hle.commits hk'.1, hk'.2⟩ }
  rintro U k' (⟨⟨⟩⟩ | hc)
  · exact ⟨hT, ho, hk, n, hkn, hn, hack⟩
  · exact h.commit_ok hc

namespace By

theorem bump {t : ℕ} (ht : g.term v ≤ t) : By v g (g.bump v t) :=
  ⟨le_bump ht, fun {u} hu => { Keeps.refl u g with le := le_bump ht, term := update_of_ne hu .. }⟩

theorem grant {c : N} : By v g (g.grant v T c) :=
  ⟨le_grant, fun {u} hu => { Keeps.refl u g with
    le := le_grant
    grants := fun hg => hg.resolve_left fun heq => hu (Prod.mk.inj heq).1 }⟩

theorem campaign (hT : g.term v < T) : By v g (g.campaign S v T) :=
  ⟨le_campaign hT, fun {u} hu => { Keeps.refl u g with
    le := le_campaign hT
    term := update_of_ne hu ..
    grants := fun hg => hg.resolve_left fun heq => hu (Prod.mk.inj heq).1 }⟩

theorem append (hv : g.leader T = some v) : By v g (g.append v T x) := by
  refine ⟨le_append, fun {u} hu => { Keeps.refl u g with
    le := le_append, log := update_of_ne hu .., llog := fun {U} hU => ?_ }⟩
  have heq : U ≠ T := by
    rintro rfl
    rw [hv, Option.some.injEq] at hU
    exact hu hU.symm
  simp [Ledger.append, heq]

theorem setLog : By v g (g.setLog v L b) :=
  ⟨le_setLog, fun {u} hu => { Keeps.refl u g with
    le := le_setLog, log := update_of_ne hu .., base := update_of_ne hu .. }⟩

end By

/-! ## The start -/

theorem Inv.empty : Inv S (empty : Ledger N E) where
  led_pos h := absurd h not_led_empty
  elected_prefix h := absurd h not_led_empty
  elected_lt h := absurd h not_led_empty
  llog_own h := absurd h not_led_empty
  llog_sorted h := absurd h not_led_empty
  llog_match h := absurd h not_led_empty
  log_match _ _ _ _ h := by cases h
  base_le _ := le_rfl
  base_committed _ := .inl rfl
  ack_led h := h.elim
  ack_kept h := h.elim
  grant_le h := h.elim
  grant_one h := h.elim
  grant_voted h := h.elim
  led_quorum h := by cases h
  commit_ok h := h.elim
  conf_step h := absurd h not_led_empty
  conf_commit h := absurd h not_led_empty

end Ledger
