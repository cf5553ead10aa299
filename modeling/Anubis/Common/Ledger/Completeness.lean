import Anubis.Common.Ledger.Basic

/-!
# Later leaders hold what earlier leaders committed

Leader completeness, read off the invariant in any single state rather
than carried through the steps. A voter that acknowledged an entry and then
voted in a later term still held the entry, by `Retains`; the log it voted
for is not behind its own, so that log holds the entry too (`carry`). The
quorum that committed and the quorum that elected have to meet for this,
which is where configurations come in: along the logs of completed terms
the two configurations involved are never more than one change apart.
-/

namespace Ledger

open Quorum List

variable {N E : Type*} {S : Scheme N E} {g : Ledger N E}
variable {T₁ k₁ T₂ k₂ : ℕ} {M : List E} {x : E} {i a j : ℕ}

/-! ## Reading a log's end -/

theorem lastTerm_eq {L : List E} (h : L[L.length - 1]? = some x) :
    lastTerm S L = S.term x := by
  simp [lastTerm, getLast?_eq_getElem?, h]

/-- A log with a positive last term has a last entry. -/
theorem exists_last {L : List E} (h : 0 < lastTerm S L) :
    ∃ x, L[L.length - 1]? = some x ∧ S.term x = lastTerm S L ∧ 0 < L.length := by
  rcases hx : L[L.length - 1]? with _ | x
  · simp [lastTerm, getLast?_eq_getElem?, hx] at h
  · refine ⟨x, rfl, (lastTerm_eq hx).symm, ?_⟩
    have := (List.getElem?_eq_some_iff.mp hx).1
    omega

theorem Own.le_length {T k : ℕ} (ho : Own S g T k) (hk : 0 < k) : k ≤ (g.llog T).length := by
  obtain ⟨x, hx, -⟩ := ho
  have := (List.getElem?_eq_some_iff.mp hx).1
  omega

/-- **Two logs and the first position they differ at.** -/
structure Split (L M : List E) (m : ℕ) : Prop where
  eqOn : EqOn 0 m L M
  least : ∀ y, EqOn 0 y L M → y ≤ m

theorem exists_split {L M : List E} {k : ℕ} (hne : ¬ EqOn 0 k L M) : ∃ m, m < k ∧ Split L M m := by
  classical
  have hex : ∃ i : ℕ, L[i]? ≠ M[i]? := by
    by_contra hall
    push Not at hall
    exact hne fun i _ _ => hall i
  refine ⟨Nat.find hex, ?_, fun i _ hi => not_not.mp (Nat.find_min hex hi), fun y hy => ?_⟩
  · by_contra hk
    exact hne fun i _ hi => not_not.mp (Nat.find_min hex (by omega))
  · by_contra hlt
    exact Nat.find_spec hex (hy _ (Nat.zero_le _) (by omega))

theorem Split.symm {L M : List E} {m : ℕ} (hs : Split L M m) : Split M L m :=
  ⟨hs.eqOn.symm, fun y hy => hs.least y hy.symm⟩

/-- A log matched from its first entry on: every entry carries its leader's
log below it. -/
theorem Matched.from_start {T : ℕ} {L : List E} (hL : Matched S g T L 0)
    (hx : L[j]? = some x) :
    g.Led (S.term x) ∧ S.term x < T ∧ EqOn 0 (j + 1) L (g.llog (S.term x)) :=
  hL.above j x (Nat.zero_le _) hx

/-! ## Configurations along a log -/

/-- No entry at the positions `a … b - 1` changes the configuration. -/
def Quiet (S : Scheme N E) (L : List E) (a b : ℕ) : Prop :=
  ∀ j x, a ≤ j → j < b → L[j]? = some x → ¬ S.changes x

/-- Over a quiet stretch the configuration stays. -/
theorem Quiet.conf_eq {L : List E} {b : ℕ} (hq : Quiet S L a b) (hab : a ≤ b) :
    S.conf (L.take b) = S.conf (L.take a) := by
  induction b with
  | zero => simp [Nat.le_zero.mp hab]
  | succ b ih =>
    rcases hab.eq_or_lt with rfl | hlt
    · rfl
    · have ih := ih (fun j x hj hjb => hq j x hj (by omega)) (by omega)
      rw [← ih]
      rcases hx : L[b]? with _ | x
      · rw [take_of_length_le (by have := List.getElem?_eq_none_iff.mp hx; omega),
          take_of_length_le (by have := List.getElem?_eq_none_iff.mp hx; omega)]
      · rw [take_add_one, hx]
        exact S.conf_append _ _ (hq b x (by omega) (by omega) hx)

/-- A stretch that is not quiet has a first change. -/
theorem exists_first_change {L : List E} {b : ℕ} (hq : ¬ Quiet S L a b) :
    ∃ j x, a ≤ j ∧ j < b ∧ L[j]? = some x ∧ S.changes x ∧ Quiet S L a j := by
  classical
  have hex : ∃ j, a ≤ j ∧ j < b ∧ ∃ x, L[j]? = some x ∧ S.changes x := by
    by_contra hne
    push Not at hne
    exact hq fun j x hj hjb hx => hne j hj hjb x hx
  obtain ⟨hj, hjb, x, hx, hc⟩ := Nat.find_spec hex
  refine ⟨_, x, hj, hjb, hx, hc, fun i y hi hij hy hcy => ?_⟩
  exact Nat.find_min hex hij ⟨hi, by omega, y, hy, hcy⟩

theorem conf_eq_of_eqOn {L M : List E} (heq : EqOn 0 a L M) :
    S.conf (L.take a) = S.conf (M.take a) := by rw [heq.take_eq]

variable [DecidableEq N]

namespace Inv

variable (h : Inv S g) {T T' k b : ℕ} {L X : List E}

include h

/-- No entry of a leader's log is younger than the leader's term. -/
theorem llog_term_le (hT : g.Led T) (hx : (g.llog T)[i]? = some x) :
    S.term x ≤ T := by
  rcases Nat.lt_or_ge i (g.elected T).length with hi | hi
  · have := EqOn.of_prefix (h.elected_prefix hT)
    exact (h.elected_lt hT i x (this.symm.get hx (by omega))).le
  · exact (h.llog_own hT i x hi hx).le

/-- What a leader wrote in its own term lies past the log it was elected with. -/
theorem elected_length_le (hT : g.Led T) (hx : (g.llog T)[i]? = some x)
    (ht : S.term x = T) : (g.elected T).length ≤ i := by
  by_contra hi
  have heq := EqOn.of_prefix (h.elected_prefix hT)
  have := h.elected_lt hT i x (heq.symm.get hx (by omega))
  omega

theorem eqOn_llog (hT : g.Led T) (hk : k ≤ L.length) (heq : EqOn 0 k (g.elected T) L) :
    EqOn 0 k (g.llog T) L := by
  have hlen := heq.le_length hk
  exact ((EqOn.of_prefix (h.elected_prefix hT)).upTo (by omega)).symm.trans heq

theorem commit_length (hc : (T, k) ∈ g.commits) : k ≤ (g.llog T).length :=
  (h.commit_ok hc).2.1.le_length (h.commit_ok hc).2.2.1

/-- **The voter's log carries the entry into the log it voted for.** `X` is
the log of a voter that still held entry `k` of term `T` with nothing older
after it, `L` a log not behind `X`. Every leader between `T` and `T'` held
the entry, and `L` is made of leaders' logs. -/
theorem carry (hT : g.Led T) (hk : 0 < k) (ho : Own S g T k)
    (hX : EqOn 0 k X (g.llog T)) (htail : ∀ j x, k ≤ j → X[j]? = some x → T ≤ S.term x)
    (hpos : NotBehind S (position S L) X) (hL : Matched S g T' L b)
    (hlater : ∀ T'', T < T'' → T'' < T' → g.Led T'' → EqOn 0 k (g.elected T'') (g.llog T))
    (hearlier : ∀ Tc kc, (Tc, kc) ∈ g.commits → Tc < T → EqOn 0 kc (g.llog T) (g.llog Tc)) :
    EqOn 0 k L (g.llog T) ∧ ∀ j x, k ≤ j → L[j]? = some x → T ≤ S.term x := by
  obtain ⟨x₀, hx₀, hterm₀⟩ := ho
  have hTpos := h.led_pos hT
  have hklen : k ≤ (g.llog T).length := Own.le_length ⟨x₀, hx₀, hterm₀⟩ hk
  -- the leaders from `T` on and below `T'` agree with `T` through `k`
  have hM : ∀ U, T ≤ U → U < T' → g.Led U → EqOn 0 k (g.llog U) (g.llog T) := by
    intro U hTU hU hled
    rcases hTU.eq_or_lt with rfl | hTU
    · exact EqOn.refl _ _ _
    · exact h.eqOn_llog hled hklen (hlater U hTU hU hled)
  -- the voter's last term is at least `T`, so the candidate's is
  have hkX : k ≤ X.length := hX.le_length hklen
  have hXlast : T ≤ lastTerm S X := by
    obtain ⟨y, hy⟩ : ∃ y, X[X.length - 1]? = some y :=
      ⟨X[X.length - 1], getElem?_eq_getElem (by omega)⟩
    rw [lastTerm_eq hy]
    rcases Nat.lt_or_ge (X.length - 1) k with hlt | hge
    · have hk1 : X.length - 1 = k - 1 := by omega
      rw [hk1] at hy
      have := hX.get hy (by omega)
      rw [hx₀] at this
      cases this
      exact hterm₀.ge
    · exact htail _ _ hge hy
  have hLlast : T ≤ lastTerm S L := by
    rcases hpos with hp | ⟨hp, -⟩ <;> simp only [position] at hp <;> omega
  obtain ⟨z, hz, hzterm, hLpos⟩ := exists_last (S := S) (L := L) (by omega)
  -- the part of `L` before its mark comes from a commit
  have hbelow : 0 < b → ∃ Tc kc, (Tc, kc) ∈ g.commits ∧ b ≤ kc ∧ Tc < T' ∧
      g.Led Tc ∧ EqOn 0 b L (g.llog Tc) := by
    intro hb
    obtain ⟨Tc, kc, hc, hbk, hTc, heq⟩ := hL.below hb
    exact ⟨Tc, kc, hc, hbk, hTc, (h.commit_ok hc).1, heq⟩
  -- `L` reaches `k`: otherwise its last entry is one of `T`'s, and `L` no shorter than `X`
  have hkL : k ≤ L.length := by
    by_contra hshort
    have hlast : ∃ U, T ≤ U ∧ U < T' ∧ g.Led U ∧ (g.llog U)[L.length - 1]? = some z := by
      rcases Nat.lt_or_ge (L.length - 1) b with hlb | hbl
      · obtain ⟨Tc, kc, -, -, hTc, hled, heq⟩ := hbelow (by omega)
        have hzc := heq.get hz (by omega)
        have := h.llog_term_le hled hzc
        exact ⟨Tc, by omega, hTc, hled, hzc⟩
      · obtain ⟨hled, hzT, heq⟩ := hL.above _ _ hbl hz
        exact ⟨_, by omega, hzT, hled, heq _ (by omega) (by omega) ▸ hz⟩
    obtain ⟨U, hTU, hU, hled, hzU⟩ := hlast
    have hzT := (hM U hTU hU hled).get hzU (by omega)
    have := h.llog_term_le hT hzT
    rcases hpos with hp | ⟨-, hp⟩ <;> simp only [position] at hp <;> omega
  have hhead : EqOn 0 k L (g.llog T) := by
    intro i _ hi
    rcases Nat.lt_or_ge i b with hib | hbi
    · obtain ⟨Tc, kc, hc, hbk, hTc, hled, heq⟩ := hbelow (by omega)
      rw [heq i (Nat.zero_le _) hib]
      rcases Nat.lt_or_ge Tc T with hlt' | hge
      · exact (hearlier Tc kc hc hlt' i (Nat.zero_le _) (by omega)).symm
      · exact hM Tc hge hTc hled i (Nat.zero_le _) hi
    · obtain ⟨hled, hzT, heq⟩ := hL.above (L.length - 1) z (by omega) hz
      rw [heq i hbi (by omega)]
      exact hM _ (by omega) hzT hled i (Nat.zero_le _) hi
  refine ⟨hhead, fun j x hj hx => ?_⟩
  -- after `k`, `L` follows one leader's log, which is sorted and holds entry `k`
  have hsorted : ∀ U, T ≤ U → U < T' → g.Led U → (g.llog U)[j]? = some x → T ≤ S.term x := by
    intro U hTU hU hled hxU
    have := hM U hTU hU hled (k - 1) (Nat.zero_le _) (by omega)
    rw [hx₀] at this
    have := h.llog_sorted hled (k - 1) j x₀ x (by omega) this hxU
    omega
  have hjlt := (List.getElem?_eq_some_iff.mp hx).1
  rcases Nat.lt_or_ge j b with hjb | hbj
  · obtain ⟨Tc, kc, hc, hbk, hTc, hled, heq⟩ := hbelow (by omega)
    refine hsorted Tc ?_ hTc hled (heq.get hx (by omega))
    by_contra hlt'
    have hx₀c := (hearlier Tc kc hc (by omega)).get hx₀ (by omega)
    have := h.llog_term_le hled hx₀c
    omega
  · obtain ⟨hled, hzT, heq⟩ := hL.above (L.length - 1) z (by omega) hz
    exact hsorted _ (by omega) hzT hled (heq _ (by omega) (by omega) ▸ hx)

end Inv

/-! ## Completeness -/

/-- **`L` holds all that was committed below `T`**, with nothing older after
it. -/
def Complete (S : Scheme N E) (g : Ledger N E) (T : ℕ) (L : List E) : Prop :=
  ∀ T₀ k, (T₀, k) ∈ g.commits → T₀ < T →
    EqOn 0 k L (g.llog T₀) ∧ ∀ j x, k ≤ j → L[j]? = some x → T₀ ≤ S.term x

/-- The configuration was never changed. -/
def Steady (S : Scheme N E) (g : Ledger N E) : Prop :=
  ∀ T, g.Led T → ∀ i, S.conf ((g.llog T).take i) = S.conf []

namespace Inv

variable (h : Inv S g) {B T T' k b m : ℕ} {L : List E} {Q : Finset N}

include h

/-- **Past a split a log changes the configuration at most once**, when the
other log holds what the changing term committed: a second change needs the
first one committed, and then the other log has it. -/
theorem no_second_change {u j₁ j₂ : ℕ} {x₁ x₂ : E} (hs : Split L M m)
    (hled : g.Led u) (hu : S.term x₂ = u) (hLu : EqOn 0 (j₂ + 1) L (g.llog u))
    (hx₁ : L[j₁]? = some x₁) (hx₂ : L[j₂]? = some x₂) (hc₁ : S.changes x₁) (hc₂ : S.changes x₂)
    (hj : j₁ < j₂) (hm : m ≤ j₁) (hM : ∀ y, (u, y) ∈ g.commits → EqOn 0 y M (g.llog u)) :
    False := by
  obtain ⟨y, hy, hyj, -, hbelow⟩ :=
    h.conf_commit hled j₂ x₂ (hLu.get hx₂ (by omega)) hc₂ hu
  have hjy : j₁ < y := hbelow j₁ x₁ hj (hLu.get hx₁ (by omega)) hc₁
  have hLM : EqOn 0 y L M := (hLu.upTo (by omega)).trans (hM y hy).symm
  have := hs.least y hLM
  omega

/-- **Past a split only one of two logs changes the configuration.** Of two
changes in different terms the later one was proposed after its leader had
committed an entry of its own term, which the other log then holds before
its own, older change. -/
theorem no_change_on_both {l : ℕ} {x z : E} (hs : Split L M m)
    (hx : L[j]? = some x) (hz : M[l]? = some z) (hcx : S.changes x) (hcz : S.changes z)
    (hmj : m ≤ j) (hml : m ≤ l) (hledx : g.Led (S.term x)) (hledz : g.Led (S.term z))
    (hLx : EqOn 0 (j + 1) L (g.llog (S.term x))) (hMz : EqOn 0 (l + 1) M (g.llog (S.term z)))
    (hL : S.term x < S.term z → ∀ y, (S.term z, y) ∈ g.commits → y ≤ l →
      AckedBy g (S.term z) y (S.conf ((g.llog (S.term z)).take l)) →
        EqOn 0 y L (g.llog (S.term z)))
    (hM : S.term z < S.term x → ∀ y, (S.term x, y) ∈ g.commits →
      EqOn 0 y M (g.llog (S.term x))) : False := by
  rcases lt_trichotomy (S.term x) (S.term z) with hlt | heq | hgt
  · obtain ⟨y, hy, hyl, hack, -⟩ :=
      h.conf_commit hledz l z (hMz.get hz (by omega)) hcz rfl
    obtain ⟨-, ⟨w, hw, hwt⟩, hypos, -⟩ := h.commit_ok hy
    have hLz := hL hlt y hy hyl hack
    have hym := hs.least y (hLz.trans (hMz.upTo (by omega)).symm)
    have hwL : L[y - 1]? = some w := hLz.symm.get hw (by omega)
    have := h.llog_sorted hledx (y - 1) j w x (by omega)
      (hLx.get hwL (by omega)) (hLx.get hx (by omega))
    omega
  · rw [← heq] at hMz
    have hLM : EqOn 0 (min j l + 1) L M :=
      (hLx.upTo (by omega)).trans (hMz.upTo (by omega)).symm
    have := hs.least _ hLM
    omega
  · obtain ⟨y, hy, hyj, -, -⟩ :=
      h.conf_commit hledx j x (hLx.get hx (by omega)) hcx rfl
    obtain ⟨-, ⟨w, hw, hwt⟩, hypos, -⟩ := h.commit_ok hy
    have hMx := hM hgt y hy
    have hym := hs.least y ((hLx.upTo (by omega)).trans hMx.symm)
    have hwM : M[y - 1]? = some w := hMx.symm.get hw (by omega)
    have := h.llog_sorted hledz (y - 1) l w z (by omega)
      (hMz.get hwM (by omega)) (hMz.get hz (by omega))
    omega

/-- One change moves the configuration by at most one voter. -/
theorem adjacent_of_one_change {n : ℕ} (hled : g.Led (S.term x))
    (hLx : EqOn 0 (j + 1) L (g.llog (S.term x))) (hmj : m ≤ j) (hjn : j < n)
    (hbefore : Quiet S L m j) (hafter : Quiet S L (j + 1) n) :
    Adjacent (S.conf (L.take m)) (S.conf (L.take n)) := by
  rw [hafter.conf_eq (by omega), ← hbefore.conf_eq hmj, conf_eq_of_eqOn hLx,
    conf_eq_of_eqOn (hLx.upTo (Nat.le_succ j))]
  exact h.conf_step hled j

variable (hQ : IsMajority Q (S.conf L)) (hB : T' ≤ B)
    (hv : ∀ v ∈ Q, Voted S g B T' (position S L) v)
  (ih : ∀ U, U < B → g.Led U → Complete S g U (g.elected U))

include hQ hB hv ih

/-- **A commit whose quorum meets the electing quorum is in the elected
log.** -/
theorem carry_of_adjacent {V : Finset N} (hc : (T, k) ∈ g.commits) (hlt : T < T')
    (hack : AckedBy g T k V) (hadj : Adjacent V (S.conf L)) (hL : Matched S g T' L b) :
    EqOn 0 k L (g.llog T) ∧ ∀ j x, k ≤ j → L[j]? = some x → T ≤ S.term x := by
  obtain ⟨hT, ho, hk, -⟩ := h.commit_ok hc
  obtain ⟨Q', hQ', hacks⟩ := hack
  obtain ⟨v, hvQ', hvQ⟩ := hQ'.exists_mem_both hQ hadj
  have hlater : ∀ U, T < U → U < B → g.Led U → EqOn 0 k (g.elected U) (g.llog T) :=
    fun U hU hU' hled => (ih U hU' hled T k hc hU).1
  obtain ⟨hX, htail⟩ := (hv v hvQ).retains T k (hacks v hvQ') hlt ho hlater
  refine h.carry hT hk ho hX htail (hv v hvQ).notBehind hL
    (fun U hU hU' => hlater U hU (hU'.trans_le hB)) fun Tc kc hcc hTc => ?_
  have hlen := h.commit_length hcc
  exact h.eqOn_llog hT hlen (ih T (hlt.trans_le hB) hT Tc kc hcc hTc).1

/-- **The electing and the committing configuration are neighbours**, unless
the log already holds the commit. `L` is the log elected in `T'`, `(T, k)` a
commit `L` splits from before `k`, and everything committed below `T` is in
`L`. -/
theorem eqOn_of_split (hL : Matched S g T' L 0) (hc : (T, k) ∈ g.commits) (hlt : T < T')
    (hmk : m < k) (hs : Split L (g.llog T) m)
    (ihT : ∀ T₀ k₀, (T₀, k₀) ∈ g.commits → T₀ < T → EqOn 0 k₀ L (g.llog T₀)) :
    EqOn 0 k L (g.llog T) := by
  obtain ⟨hT, ho, hk, n, hkn, hn, hack⟩ := h.commit_ok hc
  -- what the leader of `T` committed below `T` it holds, and so does `L`
  have hTc : ∀ u y, u < T → (u, y) ∈ g.commits → EqOn 0 y (g.llog T) (g.llog u) :=
    fun u y hu hy => h.eqOn_llog hT (h.commit_length hy)
      (ih T (hlt.trans_le hB) hT u y hy hu).1
  -- quorums of `T`'s neighbouring configurations reach `L`
  have hmeet : ∀ V y, (T, y) ∈ g.commits → AckedBy g T y V → Adjacent V (S.conf L) →
      EqOn 0 y L (g.llog T) :=
    fun V y hy hacked hadj => (h.carry_of_adjacent hQ hB hv ih hy hlt hacked hadj hL).1
  have hconfm : S.conf (L.take m) = S.conf ((g.llog T).take m) := conf_eq_of_eqOn hs.eqOn
  have hLall : S.conf (L.take L.length) = S.conf L := by rw [take_length]
  -- changes of `L` past the split are older than `T`
  have hchange : ∀ j x, m ≤ j → L[j]? = some x → S.changes x → S.term x < T := by
    intro j x hmj hx hcx
    obtain ⟨hled, hxT', heq⟩ := hL.from_start hx
    by_contra hge
    rcases (not_lt.mp hge).eq_or_lt with hxT | hgt
    · rw [← hxT] at heq
      have := hs.least _ heq
      omega
    · have hkT := (ih _ (hxT'.trans_le hB) hled T k hc hgt).1
      have hkel := hkT.le_length (ho.le_length hk)
      have := h.elected_length_le hled (heq.get hx (by omega)) rfl
      have hLT := (heq.upTo (by omega : k ≤ j + 1)).trans
        (h.eqOn_llog hled (ho.le_length hk) hkT)
      have := hs.least k hLT
      omega
  by_cases hqL : Quiet S L m L.length
  · have hKL : S.conf L = S.conf ((g.llog T).take m) := by
      have hle : m ≤ L.length := hs.eqOn.le_length (by omega)
      rw [← hLall, hqL.conf_eq hle, hconfm]
    by_cases hqT : Quiet S (g.llog T) m n
    · refine hmeet _ k hc hack ?_
      rw [hqT.conf_eq (by omega), hKL]
      exact Adjacent.refl _
    obtain ⟨l₁, z₁, hml₁, hl₁n, hz₁, hcz₁, hq₁⟩ := exists_first_change hqT
    obtain ⟨hledz₁, heqz₁⟩ := h.llog_match hT l₁ z₁ hz₁
    by_cases hqT' : Quiet S (g.llog T) (l₁ + 1) n
    · refine hmeet _ k hc hack ?_
      rw [hKL]
      exact (h.adjacent_of_one_change hledz₁ heqz₁ hml₁ hl₁n hq₁ hqT').symm
    -- two changes past the split: the second waited for a commit past the first
    obtain ⟨l₂, z₂, hml₂, hl₂n, hz₂, hcz₂, hq₂⟩ := exists_first_change hqT'
    obtain ⟨hledz₂, heqz₂⟩ := h.llog_match hT l₂ z₂ hz₂
    obtain ⟨y, hy, hyl, hacky, hbelow⟩ :=
      h.conf_commit hledz₂ l₂ z₂ (heqz₂.get hz₂ (by omega)) hcz₂ rfl
    have hl₁y : l₁ < y := hbelow l₁ z₁ (by omega) (heqz₂.get hz₁ (by omega)) hcz₁
    have hLy : EqOn 0 y L (g.llog T) := by
      rcases (h.llog_term_le hT hz₂).eq_or_lt with hz₂T | hz₂T
      · rw [hz₂T] at hy hacky
        refine hmeet _ y hy hacky ?_
        rw [hKL]
        exact (h.adjacent_of_one_change hledz₁ heqz₁ hml₁ (by omega) hq₁ hq₂).symm
      · exact (ihT _ y hy hz₂T).trans (heqz₂.upTo (by omega)).symm
    have := hs.least y hLy
    omega
  · obtain ⟨j, x, hmj, hjL, hx, hcx, hqj⟩ := exists_first_change hqL
    obtain ⟨hledx, -, heqx⟩ := hL.from_start hx
    have hxT := hchange j x hmj hx hcx
    have hqafter : Quiet S L (j + 1) L.length := by
      intro j₂ x₂ hj₂ hj₂L hx₂ hcx₂
      obtain ⟨hled₂, -, heq₂⟩ := hL.from_start hx₂
      exact h.no_second_change hs hled₂ rfl heq₂ hx hx₂ hcx hcx₂ (by omega) hmj
        fun y hy => hTc _ y (hchange j₂ x₂ (by omega) hx₂ hcx₂) hy
    have hadj : Adjacent (S.conf ((g.llog T).take m)) (S.conf L) := by
      rw [← hconfm, ← hLall]
      exact h.adjacent_of_one_change hledx heqx hmj hjL hqj hqafter
    have hqT : Quiet S (g.llog T) m n := by
      intro l z hml hln hz hcz
      by_contra
      -- take the first change of the leader's log past the split
      obtain ⟨l₁, z₁, hml₁, hl₁n, hz₁, hcz₁, hq₁⟩ := exists_first_change
        (S := S) (L := g.llog T) (a := m) (b := n) fun hq => hq l z hml hln hz hcz
      obtain ⟨hledz₁, heqz₁⟩ := h.llog_match hT l₁ z₁ hz₁
      refine h.no_change_on_both hs hx hz₁ hcx hcz₁ hmj hml₁ hledx hledz₁ heqx heqz₁ ?_
        fun _ y hy => hTc _ y hxT hy
      intro _ y hy hyl hacky
      rcases (h.llog_term_le hT hz₁).eq_or_lt with hz₁T | hz₁T
      · rw [hz₁T] at hy hacky ⊢
        refine hmeet _ y hy hacky ?_
        rw [hq₁.conf_eq hml₁]
        exact hadj
      · exact ihT _ y hy hz₁T
    refine hmeet _ k hc hack ?_
    rw [hqT.conf_eq (by omega)]
    exact hadj

/-- **A log a quorum voted for in `T'` holds all that was committed below
`T'`**, if the leaders below `T'` do. The log may start at a compaction mark
when configurations never change. -/
theorem complete_of_votes (hL : Matched S g T' L b) (hb : b = 0 ∨ Steady S g ∧
    S.conf L = S.conf []) :
    Complete S g T' L := by
  intro T
  induction T using Nat.strong_induction_on with
  | _ T ihT =>
    intro k hc hlt
    obtain ⟨hT, ⟨x₀, hx₀, hterm₀⟩, hk, n, hkn, hn, hack⟩ := h.commit_ok hc
    rcases hb with rfl | ⟨hsteady, hLconf⟩
    · have hhead : EqOn 0 k L (g.llog T) := by
        by_contra hne
        obtain ⟨m, hmk, hs⟩ := exists_split hne
        exact hne (h.eqOn_of_split hQ hB hv ih hL hc hlt hmk hs
          fun T₀ k₀ hc₀ hT₀ => (ihT T₀ hT₀ k₀ hc₀ (by omega)).1)
      refine ⟨hhead, fun j x hj hx => ?_⟩
      -- entry `j` carries its leader's log, with entry `k` of term `T` in it
      obtain ⟨hled, -, heq⟩ := hL.from_start hx
      have hx₀j : (g.llog (S.term x))[k - 1]? = some x₀ :=
        heq.get (hhead.symm.get hx₀ (by omega)) (by omega)
      have := h.llog_term_le hled hx₀j
      omega
    · refine h.carry_of_adjacent hQ hB hv ih hc hlt hack ?_ hL
      rw [hsteady T hT n, hLconf]
      exact Adjacent.refl _

omit hQ hB hv ih

/-- A leader's election log is matched from its first entry on. -/
theorem elected_matched (hT : g.Led T) : Matched S g T (g.elected T) 0 where
  le := Nat.zero_le _
  above := by
    intro i x _ hx
    have hi := (List.getElem?_eq_some_iff.mp hx).1
    have heq := EqOn.of_prefix (h.elected_prefix hT)
    obtain ⟨hled, hm⟩ := h.llog_match hT i x (heq.get hx (by omega))
    exact ⟨hled, h.elected_lt hT i x hx, (heq.upTo (by omega)).trans hm⟩
  below := fun hlt => absurd hlt (lt_irrefl 0)

/-- **Leader completeness.** -/
theorem complete (hT : g.Led T) : Complete S g T (g.elected T) := by
  induction T using Nat.strong_induction_on with
  | _ T ih =>
    obtain ⟨c, hc⟩ := hT
    obtain ⟨Q, hQ, hv⟩ := h.led_quorum hc
    exact h.complete_of_votes hQ le_rfl (fun v hvQ => (hv v hvQ).2) ih
      (h.elected_matched ⟨c, hc⟩) (.inl rfl)

/-- And so the leader's log, at any time of its term, holds what was
committed below it. -/
theorem llog_complete {Tc kc : ℕ} (hT : g.Led T) (hc : (Tc, kc) ∈ g.commits) (hlt : Tc < T) :
    EqOn 0 kc (g.llog T) (g.llog Tc) :=
  h.eqOn_llog hT (h.commit_length hc)
    (h.complete hT Tc kc hc hlt).1

/-- **Two commits agree** where they overlap. -/
theorem commits_agree (h₁ : (T₁, k₁) ∈ g.commits) (h₂ : (T₂, k₂) ∈ g.commits) :
    EqOn 0 (min k₁ k₂) (g.llog T₁) (g.llog T₂) := by
  rcases lt_trichotomy T₁ T₂ with hlt | rfl | hgt
  · exact (h.llog_complete (h.commit_ok h₂).1 h₁ hlt).symm.upTo (by omega)
  · exact EqOn.refl _ _ _
  · exact (h.llog_complete (h.commit_ok h₁).1 h₂ hgt).upTo (by omega)

/-- A committed part of a log is part of every log of a leader from its term
on. -/
theorem committed_llog (hT : g.Led T) (hc : g.Committed T k L) : EqOn 0 k L (g.llog T) := by
  rcases hc with rfl | ⟨Tc, kc, hcc, hk, hTc, heq⟩
  · exact fun i _ hi => absurd hi (Nat.not_lt_zero i)
  · rcases hTc.eq_or_lt with rfl | hlt
    · exact heq
    · exact heq.trans ((h.llog_complete hT hcc hlt).symm.upTo (by omega))

/-- **Committed parts of two logs agree.** -/
theorem committed_agree {L₁ L₂ : List E} (h₁ : g.Committed T₁ k₁ L₁)
    (h₂ : g.Committed T₂ k₂ L₂) : EqOn 0 (min k₁ k₂) L₁ L₂ := by
  rcases h₁ with rfl | ⟨Tc₁, kc₁, hc₁, hk₁, -, heq₁⟩
  · exact fun i _ hi => absurd hi (by omega)
  rcases h₂ with rfl | ⟨Tc₂, kc₂, hc₂, hk₂, -, heq₂⟩
  · exact fun i _ hi => absurd hi (by omega)
  exact (heq₁.upTo (by omega)).trans
    (((h.commits_agree hc₁ hc₂).upTo (by omega)).trans
      (heq₂.symm.upTo (by omega)))

theorem committed_length (hc : g.Committed T k L) : k ≤ L.length := by
  rcases hc with rfl | ⟨Tc, kc, hcc, hk, -, heq⟩
  · exact Nat.zero_le _
  · exact heq.le_length (hk.trans (h.commit_length hcc))

/-- **Logs that hold all that was committed end in neighbouring
configurations.** -/
theorem adjacent_of_complete (hL : Matched S g T L 0) (hM : Matched S g T M 0)
    (hcL : Complete S g T L) (hcM : Complete S g T M) : Adjacent (S.conf L) (S.conf M) := by
  by_cases heq : EqOn 0 (max L.length M.length) L M
  · have : L = M := by
      rw [← take_of_length_le (le_max_left L.length M.length), heq.take_eq,
        take_of_length_le (le_max_right L.length M.length)]
    rw [this]
    exact Adjacent.refl _
  obtain ⟨m, hm, hs⟩ := exists_split heq
  have honce : ∀ {A B : List E}, Matched S g T A 0 → Complete S g T B → Split A B m →
      ∀ j x, A[j]? = some x → S.changes x → m ≤ j → Quiet S A (j + 1) A.length := by
    intro A B hA hB hs j x hx hcx hmj j₂ x₂ hj₂ _ hx₂ hcx₂
    obtain ⟨hled₂, hT₂, heq₂⟩ := hA.from_start hx₂
    exact h.no_second_change hs hled₂ rfl heq₂ hx hx₂ hcx hcx₂ (by omega) hmj
      fun y hy => (hB _ y hy hT₂).1
  -- a log that is quiet past the split ends in the configuration at the split
  have hquiet : ∀ {A : List E}, Quiet S A m A.length → S.conf A = S.conf (A.take m) := by
    intro A hq
    rcases Nat.le_total m A.length with hle | hle
    · rw [← hq.conf_eq hle, take_length]
    · rw [take_of_length_le hle]
  have hone : ∀ {A B : List E}, Matched S g T A 0 → Complete S g T B → Split A B m →
      ¬ Quiet S A m A.length → Adjacent (S.conf (A.take m)) (S.conf A) := by
    intro A B hA hB hs hq
    obtain ⟨j, x, hmj, hj, hx, hcx, hbefore⟩ := exists_first_change hq
    obtain ⟨hled, -, heqx⟩ := hA.from_start hx
    have := h.adjacent_of_one_change hled heqx hmj hj hbefore (honce hA hB hs j x hx hcx hmj)
    rwa [take_length] at this
  have hsplit : S.conf (L.take m) = S.conf (M.take m) := conf_eq_of_eqOn hs.eqOn
  by_cases hqL : Quiet S L m L.length
  · rw [hquiet hqL, hsplit]
    by_cases hqM : Quiet S M m M.length
    · rw [hquiet hqM]
      exact Adjacent.refl _
    · exact hone hM hcL hs.symm hqM
  by_cases hqM : Quiet S M m M.length
  · rw [hquiet hqM, ← hsplit]
    exact (hone hL hcM hs hqL).symm
  · exfalso
    obtain ⟨j, x, hmj, -, hx, hcx, -⟩ := exists_first_change hqL
    obtain ⟨l, z, hml, -, hz, hcz, -⟩ := exists_first_change hqM
    obtain ⟨hledx, hxT, heqx⟩ := hL.from_start hx
    obtain ⟨hledz, hzT, heqz⟩ := hM.from_start hz
    exact h.no_change_on_both hs hx hz hcx hcz hmj hml hledx hledz heqx heqz
      (fun _ y hy _ _ => (hcL _ y hy hzT).1) (fun _ y hy => (hcM _ y hy hxT).1)

/-- **One leader a term.** A node with the votes of a quorum of its log's
configuration is the leader the term already has. -/
theorem leader_unique {c c' : N} (hled : g.leader T = some c') (hQ : IsMajority Q (S.conf L))
    (hv : ∀ v ∈ Q, (v, T, c) ∈ g.grants) (hpos : g.stand c T = position S L)
    (hL : Matched S g T L 0 ∨ Steady S g ∧ S.conf L = S.conf []) : c = c' := by
  obtain ⟨Q', hQ', hv'⟩ := h.led_quorum hled
  have hT : g.Led T := ⟨c', hled⟩
  have hadj : Adjacent (S.conf L) (S.conf (g.elected T)) := by
    rcases hL with hL | ⟨hsteady, hLconf⟩
    · -- some of the votes may have been cast after the election of `c'`
      have hvoted : ∀ v ∈ Q, Voted S g (T + 1) T (position S L) v := fun v hvQ =>
        hpos ▸ h.grant_voted (hv v hvQ) (Nat.le_succ T) fun _ => Nat.lt_succ_self T
      exact h.adjacent_of_complete hL (h.elected_matched hT)
        (h.complete_of_votes hQ (Nat.le_succ T) hvoted (fun U _ hU => h.complete hU) hL (.inl rfl))
        (h.complete hT)
    · obtain ⟨K, hK⟩ := h.elected_prefix hT
      have htake : (g.llog T).take (g.elected T).length = g.elected T := by
        rw [← hK, take_left']
        rfl
      rw [← htake, hsteady T hT, hLconf]
      exact Adjacent.refl _
  obtain ⟨v, hvQ, hvQ'⟩ := hQ.exists_mem_both hQ' hadj
  exact h.grant_one (hv v hvQ) (hv' v hvQ').1

end Inv

end Ledger
