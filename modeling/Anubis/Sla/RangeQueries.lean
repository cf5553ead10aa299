import Anubis.Sla.Helpers.Rollups

/-!
# Range queries are filters

What `QueryJudgments` and `StreamJudgments` return is read off one list: the
history of a period, its judgments from the oldest to the newest. A query returns
it backwards; a stream reads it in hours, and the histories of hours that follow
one another make up the history of the period. Keys are compared as texts, which
finds every judgment of a period whose ends have a time in 64-bit nanoseconds.
-/

namespace Anubis.Sla

open Instant Decimal List

/-- A time that 64 bits of nanoseconds can hold. -/
def InNanos (t : ℤ) : Prop := -2 ^ 63 ≤ t - unixEpoch ∧ t - unixEpoch < 2 ^ 63

instance (t : ℤ) : Decidable (InNanos t) := inferInstanceAs (Decidable (_ ∧ _))

theorem unixNano_eq {t : ℤ} (h : InNanos t) : unixNano t = t - unixEpoch := by
  obtain ⟨hle, hlt⟩ := h
  unfold unixNano Int.bmod
  dsimp only
  omega

/-- One judgment comes before another: it is older, or as old with the lower
identity. -/
def Judgment.Before (j k : Judgment) : Prop :=
  j.timestamp < k.timestamp ∨ j.timestamp = k.timestamp ∧ j.id < k.id

/-- What a limit leaves, where none is zero. -/
def cut (limit : ℕ) (js : List Judgment) : List Judgment := if 0 < limit then js.take limit else js

namespace Store

variable {db : Store} {a b c : ℤ} {js ks : List Judgment}

/-- **The history of a period**: its judgments in order, each once. -/
structure History (db : Store) (a b : ℤ) (js : List Judgment) : Prop where
  ordered : js.Pairwise Judgment.Before
  mem_iff : ∀ j, j ∈ js ↔ j ∈ db.judgments ∧ a ≤ j.timestamp ∧ j.timestamp < b

/-- A scan looks at the keys of a period whose ends 64 bits of nanoseconds can hold. -/
theorem looksAt_of_inNanos (ha : InNanos a) (hb : InNanos b) {j : Judgment} (h : a ≤ j.timestamp ∧
    j.timestamp < b) :
    looksAt a b j = true := by
  have hj : InNanos j.timestamp := by
    unfold InNanos at *
    omega
  refine looksAt_of_between fun _ _ => ?_
  rw [unixNano_eq ha, unixNano_eq hb, unixNano_eq hj]
  omega

/-! ## Histories -/

theorem History.unique (hjs : History db a b js) (hks : History db a b ks) : js = ks := by
  have : Std.Irrefl Judgment.Before := ⟨fun j h => by
    rcases h with h | h
    · exact lt_irrefl _ h
    · exact String.lt_irrefl _ h.2⟩
  have : Std.Antisymm Judgment.Before := ⟨fun j k h h' => by
    rcases h with h | h <;> rcases h' with h' | h'
    · omega
    · omega
    · omega
    · exact absurd h.2 (String.lt_asymm h'.2)⟩
  exact hjs.ordered.eq_of_mem_iff hks.ordered fun j => (hjs.mem_iff j).trans (hks.mem_iff j).symm

theorem history_nil (hba : b ≤ a) : History db a b [] where
  ordered := .nil
  mem_iff := fun j => ⟨nofun, fun h => by omega⟩

/-- **Histories that follow one another** make up one. -/
theorem History.append (hab : a ≤ b) (hbc : b ≤ c) (hjs : History db a b js)
    (hks : History db b c ks) :
    History db a c (js ++ ks) where
  ordered := by
    refine pairwise_append.mpr ⟨hjs.ordered, hks.ordered, fun j hj k hk => .inl ?_⟩
    have h₁ := ((hjs.mem_iff j).mp hj).2
    have h₂ := ((hks.mem_iff k).mp hk).2
    omega
  mem_iff := by
    intro j
    rw [mem_append, hjs.mem_iff, hks.mem_iff, ← and_or_left]
    exact and_congr_right fun _ => by omega

theorem nodup_keys (hkeyed : db.Keyed) :
    (db.judgments.map fun j => (unixNano j.timestamp, j.id)).Nodup := by
  have heq : (db.judgments.map fun j => (unixNano j.timestamp, j.id)) = db.raw.keys := by
    rw [judgments, map_map]
    exact map_congr_left fun e he => (hkeyed e he).symm
  rw [heq]
  exact db.raw.keys_nodup

theorem upto_total (j k : Judgment) :
    (j.timestamp < k.timestamp ∨ j.timestamp = k.timestamp ∧ j.id ≤ k.id) ∨
      (k.timestamp < j.timestamp ∨ k.timestamp = j.timestamp ∧ k.id ≤ j.id) := by
  rcases lt_trichotomy j.timestamp k.timestamp with h | h | h
  · exact .inl (.inl h)
  · exact (String.le_total j.id k.id).imp (fun hid => .inr ⟨h, hid⟩) fun hid => .inr ⟨h.symm, hid⟩
  · exact .inr (.inl h)

theorem upto_trans {i j k : Judgment}
    (h : i.timestamp < j.timestamp ∨ i.timestamp = j.timestamp ∧ i.id ≤ j.id)
    (h' : j.timestamp < k.timestamp ∨ j.timestamp = k.timestamp ∧ j.id ≤ k.id) :
    i.timestamp < k.timestamp ∨ i.timestamp = k.timestamp ∧ i.id ≤ k.id := by
  rcases h with h | ⟨h, hid⟩ <;> rcases h' with h' | ⟨h', hid'⟩
  · exact .inl (h.trans h')
  · exact .inl (h' ▸ h)
  · exact .inl (h ▸ h')
  · exact .inr ⟨h.trans h', String.le_trans hid hid'⟩

section

variable (hkeyed : db.Keyed) (ha : InNanos a) (hb : InNanos b)

include hkeyed ha hb

/-- What a query finds is a history once it is sorted from the oldest on. -/
theorem history_of_sorted {l : List Judgment}
    (hperm : l.Perm (db.queryJudgments a b 0))
    (hsorted : l.Pairwise fun j k => j.timestamp < k.timestamp ∨ j.timestamp = k.timestamp ∧
      j.id ≤ k.id) :
    History db a b l := by
  replace hperm := hperm.trans (perm_queryJudgments hkeyed a b)
  refine ⟨?_, fun j => ?_⟩
  · have hnodup : (l.map fun j => (unixNano j.timestamp, j.id)).Nodup :=
      (hperm.map _).nodup_iff.mpr ((nodup_keys hkeyed).sublist (filter_sublist.map _))
    refine (pairwise_map.mp hnodup).imp₂ (fun j k hne hle => ?_) hsorted
    refine hle.imp_right fun ⟨heq, hid⟩ => ⟨heq, String.not_le.mp fun hge => hne ?_⟩
    rw [heq, String.le_antisymm hid hge]
  · rw [hperm.mem_iff, mem_filter, Bool.and_eq_true, decide_eq_true_eq]
    exact and_congr_right fun _ => and_iff_left_of_imp (looksAt_of_inNanos ha hb)

/-- **A query returns the history backwards.** -/
theorem history_queryJudgments :
    History db a b (db.queryJudgments a b 0).reverse := by
  refine history_of_sorted hkeyed ha hb (reverse_perm _) (pairwise_reverse.mpr ?_)
  have : Std.Total fun j k : Judgment => k.timestamp < j.timestamp ∨ k.timestamp = j.timestamp ∧
    k.id ≤ j.id :=
    ⟨fun j k => upto_total k j⟩
  have : IsTrans Judgment fun j k => k.timestamp < j.timestamp ∨ k.timestamp = j.timestamp ∧
    k.id ≤ j.id :=
    ⟨fun _ _ _ h h' => upto_trans h' h⟩
  unfold queryJudgments
  rw [if_neg (by omega)]
  exact pairwise_insertionSort _ _

/-- A stream sorts what it has read from the oldest on. -/
theorem history_sorted :
    History db a b ((db.queryJudgments a b 0).insertionSort fun j k =>
      j.timestamp < k.timestamp ∨ j.timestamp = k.timestamp ∧ j.id ≤ k.id) := by
  have : Std.Total fun j k : Judgment => j.timestamp < k.timestamp ∨ j.timestamp = k.timestamp ∧
    j.id ≤ k.id :=
    ⟨upto_total⟩
  have : IsTrans Judgment fun j k => j.timestamp < k.timestamp ∨ j.timestamp = k.timestamp ∧
    j.id ≤ k.id :=
    ⟨fun _ _ _ => upto_trans⟩
  exact history_of_sorted hkeyed ha hb (perm_insertionSort _ _) (pairwise_insertionSort _ _)

end

theorem queryJudgments_limit (limit : ℕ) :
    db.queryJudgments a b limit = cut limit (db.queryJudgments a b 0) := by
  have htake : ∀ l : List Judgment, (if 0 < limit ∧ limit < l.length then l.take limit else l) =
    cut limit l := by
    intro l
    unfold cut
    split_ifs with h₁ h₂ h₂
    · rfl
    · omega
    · exact (take_of_length_le (by omega)).symm
    · rfl
  exact htake _

/-! ## Streams -/

section Stream

variable {ε : Type} {fn : Judgment → Option ε} {limit : ℕ}

/-- How a stream returns after its loops. -/
def streamed : Except (Streamed ε) (List Judgment) → Streamed ε
  | .error returned => returned
  | .ok passed => (passed, false, none)

/-- Where an hour of the stream ends. -/
theorem hour_end {stop : ℤ} (hlt : a < stop) (ha : InNanos a) (hstop : InNanos stop)
    (hb : b = if stop < truncate a hour + hour then stop else truncate a hour + hour) :
    a ≤ b ∧ b ≤ stop ∧ InNanos b := by
  have hhour := lt_truncate_add (t := a) (show 0 < hour by decide)
  unfold InNanos at *
  split at hb <;> omega

/-- **A stream goes through the history of its period**, whatever the hours it is
read in. -/
theorem streamFrom_eq (hkeyed : db.Keyed) {stop : ℤ} (hstop : InNanos stop) (ha : InNanos a)
    (passed : List Judgment) :
    ∃ js, History db a stop js ∧
      db.streamFrom fn limit a stop passed = streamed (js.foldlM (pass fn limit) passed) := by
  fun_induction streamFrom db fn limit a stop passed with
  | case1 a passed hlt b₀ b judgments returned hreturned =>
    obtain ⟨hab, hbs, hb⟩ := hour_end (b := b) hlt ha hstop rfl
    have hhour : History db a b judgments := history_sorted hkeyed ha hb
    -- the stream has returned: what it did not read is the history of the rest
    refine ⟨_, hhour.append hab hbs (history_sorted hkeyed hb hstop), ?_⟩
    rw [foldlM_append, hreturned]
    rfl
  | case2 a passed hlt b₀ b judgments passed' hpassed ih =>
    obtain ⟨hab, hbs, hb⟩ := hour_end (b := b) hlt ha hstop rfl
    have hhour : History db a b judgments := history_sorted hkeyed ha hb
    obtain ⟨rest, hrest, heq⟩ := ih hb
    refine ⟨_, hhour.append hab hbs hrest, ?_⟩
    rw [heq, foldlM_append, hpassed]
    rfl
  | case3 => exact ⟨[], history_nil (by omega), rfl⟩

/-- Without an error the loop passes on what the limit leaves. -/
theorem foldlM_pass (xs passed : List Judgment) (h : limit = 0 ∨ passed.length ≤ limit) :
    streamed (xs.foldlM (pass (fun _ => (none : Option ε)) limit) passed) =
      (if 0 < limit ∧ limit < passed.length +
        xs.length then (passed ++ xs.take (limit - passed.length), true, none)
      else (passed ++ xs, false, none)) := by
  induction xs generalizing passed with
  | nil =>
    rw [if_neg (by simp only [length_nil]; omega), append_nil]
    rfl
  | cons j xs ih =>
    rw [foldlM_cons, pass]
    split
    · next hfull =>
      have hlen : passed.length = limit := by omega
      rw [if_pos (by simp only [length_cons]; omega), hlen, Nat.sub_self, take_zero, append_nil]
      rfl
    · next hroom =>
      refine (ih (passed ++ [j])
        (by simp only [length_append, length_cons, length_nil]; omega)).trans ?_
      simp only [length_append, length_cons, length_nil, append_assoc, singleton_append]
      split_ifs with h₁ h₂ h₂
      · rw [show limit - passed.length = limit - (passed.length + (0 + 1)) + 1 by omega,
          take_succ_cons]
      · omega
      · omega
      · rfl

end Stream

/-- **Range queries equal a filter.** One list of the judgments of the period, each
once from the oldest on, is what a query returns backwards and a stream passes on,
up to the limit; a stream says whether it has left any. -/
theorem range_queries_filter {ε : Type} (hkeyed : db.Keyed) {start stop : ℤ}
    (hstart : InNanos start) (hstop : InNanos stop) (limit : ℕ) :
    ∃ js : List Judgment, js.Pairwise Judgment.Before ∧
      (∀ j, j ∈ js ↔ j ∈ db.judgments ∧ start ≤ j.timestamp ∧ j.timestamp < stop) ∧
      db.queryJudgments start stop limit = cut limit js.reverse ∧
      db.streamJudgments (fun _ => (none : Option ε)) limit start stop =
        (cut limit js, decide (0 < limit ∧ limit < js.length), none) := by
  have hquery := history_queryJudgments hkeyed hstart hstop
  obtain ⟨js, hjs, hstream⟩ : ∃ js, History db start stop js ∧
      db.streamFrom (fun _ => (none : Option ε)) limit start stop [] = _ :=
      streamFrom_eq hkeyed hstop hstart []
  refine ⟨js, hjs.ordered, hjs.mem_iff, ?_, ?_⟩
  · rw [queryJudgments_limit, hjs.unique hquery, reverse_reverse]
  · rw [streamJudgments, hstream, foldlM_pass js [] (by simp)]
    simp only [length_nil, Nat.zero_add, Nat.sub_zero, nil_append, cut]
    split_ifs with h₁ h₂ h₂
    · rw [decide_eq_true h₁]
    · omega
    · rw [decide_eq_false h₁, take_of_length_le (by omega)]
    · rw [decide_eq_false h₁]

theorem range_queries_filter_two :
    let db := (({} : Store).saveJudgment ⟨"a", unixEpoch + 1, .alive⟩ 0).saveJudgment
      ⟨"b", unixEpoch + 1, .dead⟩ 0
    db.Keyed ∧ InNanos (unixEpoch - 1) ∧ InNanos (unixEpoch + day) ∧
      ∃ js : List Judgment, js.Pairwise Judgment.Before ∧
        (∀ j, j ∈ js ↔ j ∈ db.judgments ∧ unixEpoch - 1 ≤ j.timestamp ∧
          j.timestamp < unixEpoch + day) ∧
        db.queryJudgments (unixEpoch - 1) (unixEpoch + day) 1 = cut 1 js.reverse ∧
        db.streamJudgments (fun _ => (none : Option Unit)) 1 (unixEpoch - 1) (unixEpoch + day) =
          (cut 1 js, decide (0 < 1 ∧ 1 < js.length), none) := by
  have hempty : Keyed {} := nofun
  exact ⟨hempty.saveJudgment.saveJudgment, by decide, by decide,
    range_queries_filter hempty.saveJudgment.saveJudgment (by decide) (by decide) 1⟩

end Store

end Anubis.Sla
