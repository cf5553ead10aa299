import Anubis.Common.Ledger.Replication
import Anubis.Raft.Helpers.FixedVoters

/-!
# A node's log and the whole log

A node keeps the part of its log past a base (`logBase`), behind a marker
that carries the base's index and term. `LogRep n F b` says that this is the
log `F`, from its first entry on, with the first `b` entries dropped. The
lemmas read every access of the code as one to `F`.
-/

namespace Anubis.Raft

open List Option Ledger

variable {NodeId Cmd : Type}
variable {n' : Node NodeId Cmd} {i : ℕ} {e : RaftLogEntry NodeId Cmd} {s index : ℕ}

/-- Entries are numbered from `1`. -/
def Indexed (F : List (RaftLogEntry NodeId Cmd)) : Prop :=
  ∀ (i : ℕ) (e : RaftLogEntry NodeId Cmd), F[i]? = some e → e.index = i + 1

/-- The term of entry `i`, `0` where there is none. -/
def termAt (F : List (RaftLogEntry NodeId Cmd)) : ℕ → ℕ
  | 0 => 0
  | i + 1 => (F[i]?.map (·.term)).getD 0

/-- **The node's log is `F` past its first `b` entries.** -/
structure LogRep (n : Node NodeId Cmd) (F : List (RaftLogEntry NodeId Cmd)) (b : ℕ) : Prop where
  base : n.logBase = b
  baseTerm : n.logBaseTerm = termAt F b
  le : b ≤ F.length
  log : n.log = baseMarker b (termAt F b) :: F.drop b
  indexed : Indexed F

/-! ## Numbered lists -/

section Indexed

variable {F G : List (RaftLogEntry NodeId Cmd)}

theorem Indexed.nil : Indexed ([] : List (RaftLogEntry NodeId Cmd)) := by
  intro i e h
  simp at h

theorem Indexed.append_singleton (h : Indexed F)
    (he : e.index = F.length + 1) : Indexed (F ++ [e]) := by
  intro i x hx
  rcases getElem?_concat_eq_some.mp hx with hx | ⟨rfl, rfl⟩
  · exact h i x hx
  · exact he

theorem Indexed.take (h : Indexed F) (k : ℕ) : Indexed (F.take k) := by
  intro i e he
  rw [getElem?_take] at he
  split at he
  · exact h i e he
  · cases he

/-- A log overwritten up to `s` by another one. -/
theorem Indexed.overwrite (h : Indexed F) (hG : Indexed G) (hs : s ≤ G.length) :
    Indexed (G.take s ++ F.drop s) := by
  intro i e he
  rw [getElem?_take_append_drop hs] at he
  split at he
  · exact hG i e he
  · exact h i e he

theorem termAt_eq (h : F[i]? = some e) :
    termAt F (i + 1) = e.term := by
  rw [termAt, h]
  rfl

theorem termAt_congr (h : EqOn 0 i F G) : termAt F i = termAt G i := by
  cases i with
  | zero => rfl
  | succ i => rw [termAt, termAt, h i (Nat.zero_le _) (Nat.lt_succ_self _)]

theorem termAt_of_length_lt (h : F.length < i) : termAt F i = 0 := by
  cases i with
  | zero => rfl
  | succ =>
    rw [termAt, getElem?_eq_none (by omega)]
    rfl

theorem exists_getElem? (hpos : 0 < i) (hi : i ≤ F.length) :
    ∃ e, F[i - 1]? = some e ∧ e.term = termAt F i := by
  obtain ⟨j, rfl⟩ : ∃ j, i = j + 1 := ⟨i - 1, by omega⟩
  have hlt : j < F.length := by omega
  refine ⟨F[j], getElem?_eq_getElem hlt, ?_⟩
  rw [termAt_eq (getElem?_eq_getElem hlt)]

/-- Past `k` entries a numbered list has the numbers past `k`. -/
theorem Indexed.filter_drop (h : Indexed F) {b : ℕ} (hbs : b ≤ s) :
    (F.drop b).filter (fun e => decide (s < e.index)) = F.drop s := by
  have hsplit : F.drop b = (F.drop b).take (s - b) ++ F.drop s := by
    conv_lhs => rw [← take_append_drop (s - b) (F.drop b)]
    rw [drop_drop]
    congr 2
    omega
  rw [hsplit, filter_append]
  have hlow : ((F.drop b).take (s - b)).filter (fun e => decide (s < e.index)) = [] := by
    rw [filter_eq_nil_iff]
    intro e he
    obtain ⟨i, hi, rfl⟩ := mem_iff_getElem.mp he
    have hlen : i < s - b := lt_of_lt_of_le hi (by simp)
    have hget : F[b + i]? = some ((F.drop b).take (s - b))[i] := by
      rw [getElem_take, getElem_drop]
      exact getElem?_eq_getElem _
    have := h _ _ hget
    rw [decide_eq_true_eq]
    omega
  have hhigh : (F.drop s).filter (fun e => decide (s < e.index)) = F.drop s := by
    rw [filter_eq_self]
    intro e he
    obtain ⟨i, hi, rfl⟩ := mem_iff_getElem.mp he
    have hget : F[s + i]? = some (F.drop s)[i] := by
      rw [getElem_drop]
      exact getElem?_eq_getElem _
    have := h _ _ hget
    rw [decide_eq_true_eq]
    omega
  rw [hlow, hhigh, nil_append]

end Indexed

/-! ## Reading the log -/

namespace LogRep

variable {n : Node NodeId Cmd} {F : List (RaftLogEntry NodeId Cmd)} {b : ℕ} (h : LogRep n F b)

include h

theorem length_log : n.log.length = F.length - b + 1 := by
  rw [h.log, length_cons, length_drop]

theorem getElem?_log (hi : b < i) : n.log[i - b]? = F[i - 1]? := by
  rw [h.log]
  obtain ⟨j, hj⟩ : ∃ j, i - b = j + 1 := ⟨i - b - 1, by omega⟩
  rw [hj, getElem?_cons_succ, getElem?_drop]
  congr 1
  omega

/-- `lastLogIndexLocked` is the length of the whole log. -/
theorem lastLogIndex : n.lastLogIndex = F.length := by
  have hle := h.le
  unfold Node.lastLogIndex
  rw [h.log]
  rcases Nat.lt_or_ge b F.length with hlt | hge
  · have hlast : F[F.length - 1]? = some (F.getLast (by intro hnil; simp [hnil] at hlt)) := by
      rw [getLast_eq_getElem]
      exact getElem?_eq_getElem _
    have hidx := h.indexed _ _ hlast
    rw [getLast?_cons, getLast?_drop, if_neg (by omega), getLast?_eq_getElem?, hlast]
    simp only [getD_some, map_some]
    omega
  · have : F.drop b = [] := drop_eq_nil_of_le hge
    rw [this]
    simp only [getLast?_singleton, map_some, getD_some]
    exact le_antisymm hle hge

theorem logEntry_of_lt (hi : b < i) : n.logEntry i = F[i - 1]? := by
  unfold Node.logEntry Node.logPosition
  rw [h.base, if_neg (by omega), h.length_log]
  split
  · rename_i hlen
    have := h.le
    rw [getElem?_eq_none (by omega)]
    rfl
  · exact h.getElem?_log hi

theorem logEntry_of_base_lt (hi : i < b) : n.logEntry i = none := by
  unfold Node.logEntry Node.logPosition
  rw [h.base, if_pos hi]
  rfl

theorem logPosition (hb : b ≤ i) (hi : i ≤ F.length) : n.logPosition i = some (i - b) := by
  unfold Node.logPosition
  rw [h.base, if_neg (by omega), if_neg (by rw [h.length_log]; omega)]

/-- `getLogTerm` is the term in the whole log, from the base on. -/
theorem getLogTerm (hi : b ≤ i) : n.getLogTerm i = termAt F i := by
  unfold Node.getLogTerm
  rw [h.base]
  split
  · rename_i heq
    rw [h.baseTerm, heq]
  · rw [h.logEntry_of_lt (by omega)]
    obtain ⟨j, rfl⟩ : ∃ j, i = j + 1 := ⟨i - 1, by omega⟩
    rfl

/-- `getEntriesAfter` is a stretch of the whole log. -/
theorem getEntriesAfter {start maxCount : ℕ} (hs : b < start) :
    n.getEntriesAfter start maxCount = (F.drop (start - 1)).take maxCount := by
  have hle := h.le
  unfold Node.getEntriesAfter
  dsimp only
  rw [h.base, if_neg (by omega)]
  rcases Nat.lt_or_ge F.length start with hlt | hge
  · have hnone : n.logPosition start = none := by
      unfold Node.logPosition
      rw [h.base, if_neg (by omega), if_pos (by rw [h.length_log]; omega)]
    rw [hnone, drop_eq_nil_of_le (by omega), take_nil]
  · rw [h.logPosition hs.le hge, h.log]
    dsimp only
    obtain ⟨j, hj⟩ : ∃ j, start - b = j + 1 := ⟨start - b - 1, by omega⟩
    rw [hj, drop_succ_cons, drop_drop]
    congr 2
    omega

/-! ## Writing the log -/

/-- The log with entries added. -/
theorem append {es : List (RaftLogEntry NodeId Cmd)} (hes : Indexed (F ++ es))
    (hlog : n'.log = n.log ++ es) (hbase : n'.logBase = n.logBase)
    (hterm : n'.logBaseTerm = n.logBaseTerm) : LogRep n' (F ++ es) b := by
  have hle := h.le
  have hat : termAt (F ++ es) b = termAt F b :=
    termAt_congr ((EqOn.of_prefix (prefix_append F es)).upTo (by omega)).symm
  refine ⟨hbase.trans h.base, ?_, ?_, ?_, hes⟩
  · rw [hterm, hat]
    exact h.baseTerm
  · rw [length_append]
    omega
  · rw [hlog, hat, h.log, drop_append_of_le_length hle]
    rfl

/-- The log with everything from `index` on dropped. -/
theorem truncate (hb : b < index) (hi : index ≤ F.length)
    (hlog : n'.log = n.log.take (index - b)) (hbase : n'.logBase = n.logBase)
    (hterm : n'.logBaseTerm = n.logBaseTerm) : LogRep n' (F.take (index - 1)) b := by
  have hat : termAt (F.take (index - 1)) b = termAt F b := by
    refine termAt_congr (EqOn.of_take_eq ?_)
    rw [take_take, min_eq_left (by omega)]
  refine ⟨hbase.trans h.base, ?_, ?_, ?_, h.indexed.take _⟩
  · rw [hterm, hat]
    exact h.baseTerm
  · rw [length_take]
    omega
  · obtain ⟨j, hj⟩ : ∃ j, index - b = j + 1 := ⟨index - b - 1, by omega⟩
    rw [hlog, hat, h.log, hj, take_succ_cons, drop_take]
    congr 2
    omega

theorem compact {b' : ℕ} (hb : b ≤ b') (hb' : b' ≤ F.length)
    (hlog : n'.log = baseMarker b' (termAt F b') :: n.log.drop (b' - b + 1))
    (hbase : n'.logBase = b') (hterm : n'.logBaseTerm = termAt F b') : LogRep n' F b' := by
  refine ⟨hbase, hterm, hb', ?_, h.indexed⟩
  rw [hlog, h.log, drop_succ_cons, drop_drop]
  congr 2
  omega

/-- The log past a snapshot of the first `s` entries of `G`. -/
theorem install {G : List (RaftLogEntry NodeId Cmd)} (hG : Indexed G) (hs : s ≤ G.length)
    (hb : b ≤ s)
    (hlog : n'.log = baseMarker s (termAt G s) :: n.log.filter (fun e => decide (s < e.index)))
    (hbase : n'.logBase = s) (hterm : n'.logBaseTerm = termAt G s) :
    LogRep n' (G.take s ++ F.drop s) s := by
  have hat : termAt (G.take s ++ F.drop s) s = termAt G s := by
    refine termAt_congr fun i _ hi => ?_
    rw [getElem?_take_append_drop hs, if_pos hi]
  refine ⟨hbase, hterm.trans hat.symm, ?_, ?_, h.indexed.overwrite hG hs⟩
  · rw [length_append, length_take]
    omega
  · have hdrop : (G.take s ++ F.drop s).drop s = F.drop s := by
      rw [drop_append_of_le_length (by rw [length_take]; omega),
        drop_eq_nil_of_le (by rw [length_take]; omega), nil_append]
    have hmarker : ¬ s < b := by omega
    rw [hlog, hat, hdrop, h.log, filter_cons]
    simp only [baseMarker, hmarker, decide_false, Bool.false_eq_true, if_false]
    rw [h.indexed.filter_drop hb]

/-- Nothing else of a node matters. -/
theorem of_same (heq : (n'.log, n'.logBase, n'.logBaseTerm) = (n.log, n.logBase, n.logBaseTerm)) :
    LogRep n' F b := by
  obtain ⟨hlog, hbase, hterm⟩ := by simpa only [Prod.mk.injEq] using heq
  exact ⟨hbase.trans h.base, hterm.trans h.baseTerm, h.le, hlog.trans h.log, h.indexed⟩

end LogRep

/-! ## The ledger's view of the log -/

section Scheme

variable [LinearOrder NodeId]

theorem stepConf_plain {x : RaftLogEntry NodeId Cmd} (hx : x.Plain) (cur : List (RaftPeer NodeId)) :
    stepConf cur x = cur := by
  unfold stepConf
  split
  · rename_i e he
    exact absurd he (hx e)
  · rfl

/-- **What the ledger reads of Raft entries**: the voters of the configuration
a log leads to from the members `M`. -/
def scheme (M : List (RaftPeer NodeId)) : Scheme NodeId (RaftLogEntry NodeId Cmd) where
  term e := e.term
  changes e := ¬ e.Plain
  conf F := memberVoters (confOf M F)
  conf_append F x hx := by
    rw [confOf, foldl_append]
    exact congrArg memberVoters (stepConf_plain (not_not.mp hx) _)

variable {M : List (RaftPeer NodeId)} {n : Node NodeId Cmd} {F : List (RaftLogEntry NodeId Cmd)}
    {b : ℕ}

theorem lastTerm_eq_termAt : lastTerm (scheme M) F = termAt F F.length := by
  unfold lastTerm
  rcases F.eq_nil_or_concat with rfl | ⟨L, x, rfl⟩
  · rfl
  · have hget : (L ++ [x])[L.length]? = some x := by simp
    rw [concat_eq_append, getLast?_concat, length_append, length_singleton,
      termAt_eq hget]
    rfl

/-- `isLogMoreUpToDate` is the election restriction. -/
theorem LogRep.notBehind (h : LogRep n F b) {term : ℕ}
    (hlog : n.isLogMoreUpToDate term index = true) : NotBehind (scheme M) (term, index) F := by
  unfold Node.isLogMoreUpToDate at hlog
  rw [h.lastLogIndex, h.getLogTerm h.le] at hlog
  unfold NotBehind
  rw [lastTerm_eq_termAt]
  simp only [Bool.or_eq_true, Bool.and_eq_true, decide_eq_true_eq] at hlog
  exact hlog.imp_right fun hlog => ⟨hlog.1.symm, hlog.2⟩

theorem LogRep.position (h : LogRep n F b) :
    (n.getLogTerm n.lastLogIndex, n.lastLogIndex) = Ledger.position (scheme M) F := by
  rw [h.lastLogIndex, h.getLogTerm h.le, Ledger.position, lastTerm_eq_termAt]

end Scheme

end Anubis.Raft
