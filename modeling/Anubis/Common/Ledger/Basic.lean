import Anubis.Common.Majority
import Mathlib.Data.List.Basic
import Mathlib.Logic.Function.Basic

/-!
# The ledger of a replicated log

What a log-replication protocol with elected terms has done so far, kept
as one record: for every node its term and its whole log (compaction only
moves a mark over it), for every term its leader and that leader's log, and
the grants, acknowledgements and commits that were ever made. Nothing in
the record is ever taken back except a node's own log suffix.

`Ledger.Inv` is what relates the parts. It says nothing about later leaders
holding what earlier ones committed: that is *derived* from it in every
state (`Completeness.lean`), so the steps only have to keep the local facts.
-/

namespace Ledger

open Quorum List

variable {N E : Type*}

/-! ## Segments of a log -/

/-- Two logs agree on the positions `a … b - 1`. -/
def EqOn (a b : ℕ) (L M : List E) : Prop := ∀ i, a ≤ i → i < b → L[i]? = M[i]?

namespace EqOn

variable {a b c d : ℕ} {L M K : List E}

theorem refl (a b : ℕ) (L : List E) : EqOn a b L L := fun _ _ _ => rfl

theorem symm (h : EqOn a b L M) : EqOn a b M L := fun i hi hb => (h i hi hb).symm

theorem trans (h : EqOn a b L M) (h' : EqOn a b M K) : EqOn a b L K :=
  fun i hi hb => (h i hi hb).trans (h' i hi hb)

theorem mono (h : EqOn a b L M) (ha : a ≤ c) (hb : d ≤ b) : EqOn c d L M :=
  fun i hi hi' => h i (ha.trans hi) (hi'.trans_le hb)

theorem upTo (h : EqOn a b L M) (hb : d ≤ b) : EqOn a d L M := h.mono le_rfl hb

theorem join (h : EqOn a b L M) (h' : EqOn b c L M) : EqOn a c L M := by
  intro i hi hc
  rcases Nat.lt_or_ge i b with hb | hb
  · exact h i hi hb
  · exact h' i hb hc

theorem get (h : EqOn 0 b L M) {i : ℕ} {x : E} (hx : L[i]? = some x) (hb : i < b) :
    M[i]? = some x := by
  rw [← h i (Nat.zero_le i) hb, hx]

theorem of_prefix (h : L <+: M) : EqOn 0 L.length L M := by
  intro i _ hi
  obtain ⟨K, rfl⟩ := h
  rw [getElem?_append_left hi]

/-- A log that agrees with `M` up to a length `M` reaches is that long. -/
theorem le_length (h : EqOn 0 b L M) (hb : b ≤ M.length) : b ≤ L.length := by
  rcases Nat.eq_zero_or_pos b with rfl | hpos
  · exact Nat.zero_le _
  · have hi := h (b - 1) (Nat.zero_le _) (by omega)
    rw [getElem?_eq_getElem (by omega : b - 1 < M.length)] at hi
    have := (List.getElem?_eq_some_iff.mp hi).1
    omega

theorem take_eq (h : EqOn 0 b L M) : L.take b = M.take b := by
  refine ext_getElem? fun i => ?_
  rw [getElem?_take, getElem?_take]
  split
  · exact h i (Nat.zero_le _) ‹_›
  · rfl

theorem of_take_eq (h : L.take b = M.take b) : EqOn 0 b L M := by
  intro i _ hi
  have := congrArg (fun K : List E => K[i]?) h
  simpa [getElem?_take, hi] using this

end EqOn

theorem getElem?_concat_eq_some {L : List E} {x y : E} {i : ℕ} :
    (L ++ [x])[i]? = some y ↔ L[i]? = some y ∨ i = L.length ∧ y = x := by
  grind

/-! ## Parameters -/

/-- **What the ledger reads of an entry**: its term, whether it changes the
configuration, and the configuration a log ends in. -/
structure Scheme (N E : Type*) where
  term : E → ℕ
  changes : E → Prop
  conf : List E → Finset N
  conf_append : ∀ L x, ¬ changes x → conf (L ++ [x]) = conf L

/-- The term of a log's last entry, `0` for an empty log. -/
def lastTerm (S : Scheme N E) (L : List E) : ℕ := (L.getLast?.map S.term).getD 0

/-- Terms never fall along the log. -/
def Sorted (S : Scheme N E) (L : List E) : Prop :=
  ∀ (i j : ℕ) (x y : E), i ≤ j → L[i]? = some x → L[j]? = some y → S.term x ≤ S.term y

/-- **The election restriction**: a position (last term, length) is not
behind a log. -/
def NotBehind (S : Scheme N E) (p : ℕ × ℕ) (L : List E) : Prop :=
  lastTerm S L < p.1 ∨ lastTerm S L = p.1 ∧ L.length ≤ p.2

/-- A log's own position. -/
def position (S : Scheme N E) (L : List E) : ℕ × ℕ := (lastTerm S L, L.length)

end Ledger

/-- **The record of a run.** `stand c T` is the position node `c` campaigned
with in term `T`, and `grantLog v T` the log voter `v` held when it voted in
term `T`. An acknowledgement `(v, T, k)` says that `v` told the leader of `T`
its log holds entry `k`, an entry above `v`'s compaction mark. -/
structure Ledger (N E : Type*) where
  term : N → ℕ
  log : N → List E
  base : N → ℕ
  leader : ℕ → Option N
  elected : ℕ → List E
  llog : ℕ → List E
  grants : Set (N × ℕ × N)
  grantLog : N → ℕ → List E
  stand : N → ℕ → ℕ × ℕ
  acks : Set (N × ℕ × ℕ)
  commits : Set (ℕ × ℕ)

namespace Ledger

open Quorum

variable {N E : Type*}

/-- A leader was elected in the term. -/
def Led (g : Ledger N E) (T : ℕ) : Prop := ∃ c, g.leader T = some c

section Invariant

variable (S : Scheme N E) (g : Ledger N E)

/-- The leader of `T` wrote entry `k` itself. -/
def Own (T k : ℕ) : Prop := ∃ x, (g.llog T)[k - 1]? = some x ∧ S.term x = T

/-- **An acknowledged entry survives in `X`** as long as every leader
elected after `T` and before `T'` held it: `X` agrees with the leader's log
through `k`, and no entry of `X` after it is older than the term. -/
def Retains (T' T k : ℕ) (X : List E) : Prop :=
  Own S g T k →
  (∀ T'', T < T'' → T'' < T' → g.Led T'' → EqOn 0 k (g.elected T'') (g.llog T)) →
    EqOn 0 k X (g.llog T) ∧ ∀ j x, k ≤ j → X[j]? = some x → T ≤ S.term x

/-- **What a vote for position `p` in term `T` is evidence of**: the voter's
log was not ahead of it and still held everything acknowledged before, as
far as the leaders elected below `B` did. -/
structure Voted (B T : ℕ) (p : ℕ × ℕ) (v : N) : Prop where
  notBehind : NotBehind S p (g.grantLog v T)
  retains : ∀ T₀ k, (v, T₀, k) ∈ g.acks → T₀ < T → Retains S g B T₀ k (g.grantLog v T)

/-- A majority of the voters `V` acknowledged entry `k` in term `T`. -/
def AckedBy (T k : ℕ) (V : Finset N) : Prop := ∃ Q, IsMajority Q V ∧ ∀ v ∈ Q, (v, T, k) ∈ g.acks

/-- Every index up to `k` of `L` was committed in a term up to `T`. -/
def Committed (T k : ℕ) (L : List E) : Prop :=
  k = 0 ∨ ∃ Tc kc, (Tc, kc) ∈ g.commits ∧ k ≤ kc ∧ Tc ≤ T ∧ EqOn 0 k L (g.llog Tc)

variable {g} in
theorem Committed.anti {T k k' : ℕ} {L : List E} (hc : g.Committed T k L) (hk : k' ≤ k) :
    g.Committed T k' L := by
  rcases hc with rfl | ⟨Tc, kc, hcc, hkc, hTc, heq⟩
  · exact .inl (Nat.le_zero.mp hk)
  · exact .inr ⟨Tc, kc, hcc, hk.trans hkc, hTc, heq.upTo (by omega)⟩

variable {g} in
theorem Committed.congr {T k : ℕ} {L M : List E} (hc : g.Committed T k L) (heq : EqOn 0 k M L) :
    g.Committed T k M :=
  hc.imp_right fun ⟨Tc, kc, hcc, hkc, hTc, heq'⟩ => ⟨Tc, kc, hcc, hkc, hTc, heq.trans heq'⟩

/-- **A log an election below `T` could have produced**: from `b` on each
entry carries its own leader's log below it, and the part before `b` is
committed. -/
structure Matched (T : ℕ) (L : List E) (b : ℕ) : Prop where
  le : b ≤ L.length
  above : ∀ i x, b ≤ i → L[i]? = some x →
    g.Led (S.term x) ∧ S.term x < T ∧ EqOn b (i + 1) L (g.llog (S.term x))
  below : 0 < b → ∃ Tc kc, (Tc, kc) ∈ g.commits ∧ b ≤ kc ∧ Tc < T ∧ EqOn 0 b L (g.llog Tc)

variable [DecidableEq N]

/-- **The invariant of the record.** -/
structure Inv : Prop where
  led_pos : ∀ {T}, g.Led T → 0 < T
  /-- A leader's log extends the one it was elected with, by entries of its own term. -/
  elected_prefix : ∀ {T}, g.Led T → g.elected T <+: g.llog T
  elected_lt : ∀ {T}, g.Led T → ∀ (i : ℕ) (x : E), (g.elected T)[i]? = some x → S.term x < T
  llog_own : ∀ {T}, g.Led T → ∀ (i : ℕ) (x : E), (g.elected T).length ≤ i →
    (g.llog T)[i]? = some x →
    S.term x = T
  llog_sorted : ∀ {T}, g.Led T → Sorted S (g.llog T)
  llog_match : ∀ {T}, g.Led T → ∀ (i : ℕ) (x : E), (g.llog T)[i]? = some x →
    g.Led (S.term x) ∧ EqOn 0 (i + 1) (g.llog T) (g.llog (S.term x))
  /-- A node's log above its mark carries leaders' logs; below, it is committed. -/
  log_match : ∀ v i x, g.base v ≤ i → (g.log v)[i]? = some x →
    g.Led (S.term x) ∧ S.term x ≤ g.term v ∧ EqOn (g.base v) (i + 1) (g.log v) (g.llog (S.term x))
  base_le : ∀ v, g.base v ≤ (g.log v).length
  base_committed : ∀ v, g.Committed (g.term v) (g.base v) (g.log v)
  /-- Acknowledged entries are the leader's, and are kept. -/
  ack_led : ∀ {v T k}, (v, T, k) ∈ g.acks →
    g.Led T ∧ T ≤ g.term v ∧ 0 < k ∧ k ≤ (g.llog T).length
  ack_kept : ∀ {v T k}, (v, T, k) ∈ g.acks → Retains S g (g.term v + 1) T k (g.log v)
  /-- A voter votes once a term, in a term it and the candidate have reached. -/
  grant_le : ∀ {v T c}, (v, T, c) ∈ g.grants → T ≤ g.term v ∧ T ≤ g.term c
  grant_one : ∀ {v T c c'}, (v, T, c) ∈ g.grants → (v, T, c') ∈ g.grants → c = c'
  grant_voted : ∀ {v T c}, (v, T, c) ∈ g.grants → ∀ {B}, T ≤ B → (g.Led T → T < B) →
    Voted S g B T (g.stand c T) v
  /-- A leader has the votes of a majority of the configuration its log ended in. -/
  led_quorum : ∀ {T c}, g.leader T = some c → ∃ Q, IsMajority Q (S.conf (g.elected T)) ∧
    ∀ v ∈ Q, (v, T, c) ∈ g.grants ∧ Voted S g T T (position S (g.elected T)) v
  /-- A commit is an entry of the leader's own term on a majority of its configuration. -/
  commit_ok : ∀ {T k}, (T, k) ∈ g.commits → g.Led T ∧
    Own S g T k ∧ 0 < k ∧
    ∃ n, k ≤ n ∧ n ≤ (g.llog T).length ∧ AckedBy g T k (S.conf ((g.llog T).take n))
  /-- Configurations change one voter at a time, and only once the last change and an
  entry of the leader's own term are committed. -/
  conf_step : ∀ {T}, g.Led T → ∀ i,
    Adjacent (S.conf ((g.llog T).take i)) (S.conf ((g.llog T).take (i + 1)))
  conf_commit : ∀ {T}, g.Led T → ∀ (i : ℕ) (x : E), (g.llog T)[i]? = some x → S.changes x →
    S.term x = T →
    ∃ k, (T, k) ∈ g.commits ∧ k ≤ i ∧ AckedBy g T k (S.conf ((g.llog T).take i)) ∧
      ∀ j y, j < i → (g.llog T)[j]? = some y → S.changes y → j < k

end Invariant

end Ledger
