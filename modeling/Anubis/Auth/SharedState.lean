import Anubis.Auth.Model.Cluster

/-!
# No update is lost

The changes that are applied form the history of the shared state: the state of
a node is that of a part of the history, whatever it has replayed. A change was
computed from the state just before it, is applied once, and the receipts of any
later state say whether it was, unless they have been dropped.
-/

namespace Anubis.Auth

open List Option Shared CasLog

open Storage (Bytes)

variable {N Local : Type} {E : Evaluator Local}
variable {sub : Submission Local} {state : ClusterAuthState} {e : SharedEvent N Local}

/-! ## The state of a history -/

/-- A change that is applied if it comes in time. -/
def admissible (E : Evaluator Local) (c : ClusterAuthChange) : Bool :=
  c.writeID ≠ "" ∧ c.expected ≠ maxRevision ∧ (validateClusterAuthData E c.data).toBool = true

/-- The changes of a log that are applied. -/
abbrev history (E : Evaluator Local) (log : List ClusterAuthChange) : List ClusterAuthChange :=
  CasLog.history ClusterAuthChange.expected (admissible E) log

/-- All receipts. -/
def allReceipts (h : List ClusterAuthChange) : List ClusterAuthReceipt :=
  h.zipIdx.map fun x => ⟨x.2 + 1, x.1.writeID⟩

/-- The receipts that are kept. -/
def receiptsOf (h : List ClusterAuthChange) : List ClusterAuthReceipt :=
  (allReceipts h).drop (h.length - clusterAuthReceiptLimit)

/-- The state a history leads to. -/
def stateOf (h : List ClusterAuthChange) : Option ClusterAuthState :=
  h.getLast?.map fun c => ⟨h.length, c.data, receiptsOf h⟩

variable {h : List ClusterAuthChange} {c : ClusterAuthChange} {id : String} {expected i : ℕ}
    {phase : Phase Local}
  {node' : AuthNode Local} {before after : ℤ}

theorem length_allReceipts : (allReceipts h).length = h.length := by
  unfold allReceipts
  rw [length_map, length_zipIdx]

theorem allReceipts_snoc : allReceipts (h ++ [c]) = allReceipts h ++
    [⟨h.length + 1, c.writeID⟩] := by
  unfold allReceipts
  rw [zipIdx_append, map_append]
  simp

theorem allReceipts_getElem? (hc : h[i]? = some c) :
    (allReceipts h)[i]? = some ⟨i + 1, c.writeID⟩ := by
  unfold allReceipts
  rw [getElem?_map, getElem?_zipIdx, hc]
  simp

/-- The receipt of the last change. -/
def receiptAfter (h : List ClusterAuthChange) (c : ClusterAuthChange) : ClusterAuthReceipt :=
  ⟨h.length + 1, c.writeID⟩

/-- One more receipt, and the oldest one dropped. -/
theorem receiptsOf_snoc : receiptsOf (h ++ [c]) =
    if clusterAuthReceiptLimit < (receiptsOf h ++ [receiptAfter h c]).length then
      (receiptsOf h ++ [receiptAfter h c]).drop
        ((receiptsOf h ++ [receiptAfter h c]).length - clusterAuthReceiptLimit)
    else receiptsOf h ++ [receiptAfter h c] := by
  have hlen : (receiptsOf h ++ [receiptAfter h c]).length =
      h.length - (h.length - clusterAuthReceiptLimit) + 1 := by
    unfold receiptsOf
    rw [length_append, length_drop, length_allReceipts, length_singleton]
  have hall := length_allReceipts (h := h)
  rw [hlen]
  unfold receiptsOf
  rw [allReceipts_snoc, length_append, length_singleton]
  have hpos : 0 < clusterAuthReceiptLimit := by decide
  generalize clusterAuthReceiptLimit = limit at hpos
  split
  · have hdrop : h.length + 1 - limit ≤ (allReceipts h).length := by omega
    have hdrop' : h.length - (h.length - limit) +
      1 - limit ≤ ((allReceipts h).drop (h.length - limit)).length := by
      rw [length_drop]
      omega
    have hsum : h.length - limit + (h.length - (h.length - limit) + 1 - limit) = h.length +
      1 - limit := by omega
    rw [drop_append_of_le_length hdrop, drop_append_of_le_length hdrop', drop_drop, hsum]
    rfl
  · have hzero : h.length - limit = 0 := by omega
    have hzero' : h.length + 1 - limit = 0 := by omega
    rw [hzero, hzero', drop_zero, drop_zero]
    rfl

theorem stateOf_snoc : stateOf (h ++ [c]) = some ⟨h.length + 1, c.data, receiptsOf (h ++ [c])⟩ := by
  unfold stateOf
  simp

theorem revision_stateOf : ((stateOf h).map ClusterAuthState.revision).getD 0 = h.length := by
  induction h using reverseRecOn with
  | nil => rfl
  | append_singleton => rw [stateOf_snoc]; simp

theorem receipts_stateOf : ((stateOf h).map ClusterAuthState.receipts).getD [] = receiptsOf h := by
  induction h using reverseRecOn with
  | nil => rfl
  | append_singleton => rw [stateOf_snoc]; simp

/-- **A change on a state is an attempt on its history.** -/
theorem applyChange_stateOf : applyChange E (stateOf h) c =
    stateOf (accept ClusterAuthChange.expected (admissible E) h c) := by
  unfold applyChange buildClusterAuthState
  rw [revision_stateOf, receipts_stateOf]
  dsimp only
  by_cases he : c.expected = h.length
  · rw [if_neg (by simpa using he.symm)]
    by_cases hid : c.writeID = ""
    · have ha : admissible E c = false := by simp [admissible, hid]
      rw [if_pos hid, accept_of_inadmissible ha]
    · rw [if_neg hid]
      by_cases hmax : h.length = maxRevision
      · have ha : admissible E c = false := by simp [admissible, he, hmax]
        rw [if_pos hmax, accept_of_inadmissible ha]
      · rw [if_neg hmax]
        cases hv : validateClusterAuthData E c.data with
        | error =>
          have ha : admissible E c = false := by simp [admissible, hv, Except.toBool]
          rw [accept_of_inadmissible ha]
        | ok =>
          have ha : admissible E c = true := by simp [admissible, hid, he, hmax, hv, Except.toBool]
          rw [accept_pos he ha, stateOf_snoc, receiptsOf_snoc]
          rfl
  · rw [if_pos (by simpa using Ne.symm he)]
    have : accept ClusterAuthChange.expected (admissible E) h c = h := if_neg fun hc => he hc.1
    rw [this]

/-! ## The outcome of a change -/

/-- A history does not run out of revisions. -/
theorem length_history_le (log : List ClusterAuthChange) :
    (history E log).length ≤ maxRevision := by
  by_contra hlt
  have hlt : maxRevision < (history E log).length := Nat.not_le.mp hlt
  obtain ⟨he, ha, -⟩ := history_getElem? (getElem?_eq_getElem hlt)
  simp [admissible, he] at ha

/-- **Success means that the change is in the history.** -/
theorem outcome_true (hout : clusterAuthCommitOutcome (stateOf h) expected id = .ok true) :
    ∃ c ∈ h, c.writeID = id := by
  induction h using reverseRecOn with
  | nil => cases hout
  | append_singleton h c =>
    rw [stateOf_snoc] at hout
    unfold clusterAuthCommitOutcome at hout
    dsimp only at hout
    split at hout
    · cases hout
    · split at hout
      · rename_i hany
        obtain ⟨r, hr, hid⟩ := List.any_eq_true.mp hany
        have hmem := mem_of_mem_drop hr
        unfold allReceipts at hmem
        obtain ⟨x, hx, rfl⟩ := List.mem_map.mp hmem
        exact ⟨x.1, fst_mem_of_mem_zipIdx hx, of_decide_eq_true hid⟩
      · split at hout <;> cases hout

/-- **A conflict means that another change is at its place.** -/
theorem outcome_false (hle : h.length ≤ maxRevision)
    (hout : clusterAuthCommitOutcome (stateOf h) expected id = .ok false) :
    expected < h.length ∧ ∀ c, h[expected]? = some c → c.writeID ≠ id := by
  have hstate : ∀ st, stateOf h = some st → st.revision = h.length ∧
    st.receipts = receiptsOf h := by
    intro st hst
    have h₁ := revision_stateOf (h := h)
    have h₂ := receipts_stateOf (h := h)
    rw [hst] at h₁ h₂
    exact ⟨h₁, h₂⟩
  unfold clusterAuthCommitOutcome at hout
  cases hst : stateOf h with
  | none =>
    rw [hst] at hout
    cases hout
  | some st =>
    obtain ⟨hrev, hrec⟩ := hstate st hst
    rw [hst] at hout
    dsimp only at hout
    rw [hrev, hrec] at hout
    split at hout
    · cases hout
    · rename_i hvisible
      split at hout
      · cases hout
      · rename_i hnone
        split at hout
        · cases hout
        · rename_i hwindow
          have hlt : expected < h.length := Nat.not_le.mp hvisible
          refine ⟨hlt, fun c hc hid => hnone ?_⟩
          -- the oldest receipt is not later than the one of the change
          have hfirst : h.length - clusterAuthReceiptLimit ≤ expected := by
            by_contra hgt
            have hgt : expected < h.length - clusterAuthReceiptLimit := Nat.not_le.mp hgt
            apply hwindow
            have hpos : h.length - clusterAuthReceiptLimit < h.length := by
              unfold clusterAuthReceiptLimit at hgt ⊢
              omega
            have hget := allReceipts_getElem? (getElem?_eq_getElem hpos)
            unfold receiptsOf
            rw [head?_drop, hget, any_some, decide_eq_true_iff]
            unfold maxRevision at hle
            dsimp only
            omega
          rw [List.any_eq_true]
          refine ⟨⟨expected + 1, c.writeID⟩, ?_, by simpa using hid⟩
          apply mem_of_getElem? (i := expected - (h.length - clusterAuthReceiptLimit))
          unfold receiptsOf
          rw [getElem?_drop, Nat.add_sub_cancel' hfirst]
          exact allReceipts_getElem? hc

/-! ## The nodes -/

/-- The change a node is waiting for. -/
def Phase.change : Phase Local → Option ClusterAuthChange
  | .seeding _ _ _ c => some c
  | .swapping _ _ c => some c
  | _ => none

/-- An evaluator that was loaded from a revision of the history. -/
def Mirrors (E : Evaluator Local) (log : List ClusterAuthChange) (revision : ℕ) (auth : Local) :
    Prop :=
  0 < revision ∧ ∃ c, (history E log)[revision - 1]? = some c ∧
    importClusterAuth E c.data = .ok auth

/-- **What holds of a node.** Its state is that of a part of the history, at
least of what it has still to apply again. -/
structure NodeOk (E : Evaluator Local) (log : List ClusterAuthChange)
    (sent : List (Submission Local)) (node : AuthNode Local) : Prop where
  store : ∃ high, node.next ≤ high ∧ high ≤ log.length ∧
    node.store = stateOf (history E (log.take high))
  mirror : node.importedRevision ≠ 0 → Mirrors E log node.importedRevision node.auth
  phase : ∀ c, node.phase.change = some c → ∃ sub ∈ sent, sub.change = c

/-- **What holds of the system.** -/
structure Shared.Ok (E : Evaluator Local) (s : Shared N Local) : Prop where
  timely : Timely ClusterAuthChange.expected (admissible E) s.log
  logged : ∀ c ∈ s.log, ∃ sub ∈ s.sent, sub.change = c
  early : ∀ sub ∈ s.sent, sub.change.expected ≤ (history E s.log).length
  unique : ∀ sub ∈ s.sent, ∀ sub' ∈ s.sent, sub.change.writeID = sub'.change.writeID → sub = sub'
  origin : ∀ sub ∈ s.sent, ∀ fn now, sub.origin = some (fn, now) →
    ∃ auth, Mirrors E s.log sub.change.expected auth ∧
      snapshotClusterAuth E now (fn auth).1 = .ok sub.change.data
  acked : ∀ c ∈ s.acked, c ∈ history E s.log
  nodes : ∀ n, NodeOk E s.log s.sent (s.nodes n)

section Nodes

variable {log : List ClusterAuthChange} {sent : List (Submission Local)} {node : AuthNode Local}
    {s s' : Shared N Local}
  {n : N}

theorem Mirrors.snoc {revision : ℕ} {auth : Local} (h : Mirrors E log revision auth)
    (c : ClusterAuthChange) : Mirrors E (log ++ [c]) revision auth := by
  obtain ⟨hpos, c', hc', himport⟩ := h
  refine ⟨hpos, c', ?_, himport⟩
  obtain ⟨hlt, rfl⟩ := List.getElem?_eq_some_iff.mp hc'
  exact prefix_iff_getElem?.mp (CasLog.history_prefix log [c]) _ hlt

namespace NodeOk

variable (hn : NodeOk E log sent node)

include hn

theorem snoc (c : ClusterAuthChange) : NodeOk E (log ++ [c]) sent node := by
  obtain ⟨high, hnext, hhigh, hstore⟩ := hn.store
  refine ⟨⟨high, hnext, ?_, ?_⟩, fun himp => (hn.mirror himp).snoc c, hn.phase⟩
  · rw [length_append]
    omega
  · rw [take_append_of_le_length hhigh]
    exact hstore

theorem send (sub : Submission Local) : NodeOk E log (sent ++ [sub]) node where
  store := hn.store
  mirror := hn.mirror
  phase c hc := by
    obtain ⟨sub', hmem, heq⟩ := hn.phase c hc
    exact ⟨sub', by simp [hmem], heq⟩

theorem inPhase (phase : Phase Local)
    (hphase : ∀ c, phase.change = some c → ∃ sub ∈ sent, sub.change = c) :
    NodeOk E log sent { node with phase := phase } := ⟨hn.store, hn.mirror, hphase⟩

theorem idle : NodeOk E log sent { node with phase := .idle } :=
  hn.inPhase .idle nofun

/-- **Applying the log**, for the first time or again. -/
theorem apply (htimely : Timely ClusterAuthChange.expected (admissible E) log)
    {c : ClusterAuthChange} (hc : log[node.next]? = some c) :
    NodeOk E log sent { node with store := applyChange E node.store c, next := node.next + 1 } := by
  obtain ⟨high, hnext, hhigh, hstore⟩ := hn.store
  refine ⟨?_, hn.mirror, hn.phase⟩
  dsimp only
  rw [hstore, applyChange_stateOf]
  rcases Nat.lt_or_ge node.next high with hlt | hge
  · exact ⟨high, hlt, hhigh, by rw [htimely.accept_replay hc hlt]⟩
  · obtain rfl : node.next = high := Nat.le_antisymm hnext hge
    obtain ⟨hlt, -⟩ := List.getElem?_eq_some_iff.mp hc
    exact ⟨node.next + 1, Nat.le_refl _, hlt, by rw [← history_take_succ hc]⟩

/-- What a node that has loaded a state knows. -/
theorem revision (hs : node.store = some state)
    (hpos : state.revision ≠ 0) : ∃ c, (history E log)[state.revision - 1]? = some c ∧
    c.data = state.data ∧
      state.revision ≤ (history E log).length := by
  obtain ⟨high, -, hhigh, hstore⟩ := hn.store
  have hpre : history E (log.take high) <+: history E log :=
    history_mono (List.take_prefix high log)
  rw [hs] at hstore
  unfold stateOf at hstore
  cases hlast : (history E (log.take high)).getLast? with
  | none =>
    rw [hlast] at hstore
    cases hstore
  | some c =>
    rw [hlast] at hstore
    cases hstore
    rw [getLast?_eq_getElem?] at hlast
    obtain ⟨hlt, hget⟩ := List.getElem?_eq_some_iff.mp hlast
    refine ⟨c, ?_, rfl, hpre.length_le⟩
    rw [← hget]
    exact prefix_iff_getElem?.mp hpre _ hlt

/-- Importing the state that was loaded. -/
theorem importState (hs : node.store = some state)
    (hpos : state.revision ≠ 0) {ok : Bool}
    (himport : node.importState E state = (node', ok)) :
    NodeOk E log sent node' ∧ (ok = true → Mirrors E log state.revision node'.auth) := by
  unfold AuthNode.importState at himport
  obtain ⟨c, hc, hdata, -⟩ := hn.revision hs hpos
  split at himport
  · rename_i hrev
    cases himport
    exact ⟨hn, fun _ => hrev ▸ hn.mirror (hrev ▸ hpos)⟩
  · cases hi : importClusterAuth E state.data with
    | error =>
      rw [hi] at himport
      cases himport
      exact ⟨⟨hn.store, fun hne => absurd rfl hne, hn.phase⟩, nofun⟩
    | ok auth =>
      rw [hi] at himport
      cases himport
      have hm : Mirrors E log state.revision auth := ⟨Nat.pos_of_ne_zero hpos, c, hc, hdata ▸ hi⟩
      exact ⟨⟨hn.store, fun _ => hm, hn.phase⟩, fun _ => hm⟩

/-- Evaluating a mutation. -/
theorem evaluate {fn : Mutation Local} {r : Option Bytes}
    (heval : node.evaluate E fn before after = (node', r)) :
    NodeOk E log sent node' ∧ ∀ data, r = some data →
    snapshotClusterAuth E after (fn node.auth).1 = .ok data := by
  unfold AuthNode.evaluate at heval
  cases hold : snapshotClusterAuth E before node.auth with
  | error =>
    rw [hold] at heval
    cases heval
    exact ⟨hn, nofun⟩
  | ok =>
    rw [hold] at heval
    dsimp only at heval
    have hdirty : NodeOk E log sent { node with importedRevision := 0, auth := (fn node.auth).1 } :=
      ⟨hn.store, fun hne => absurd rfl hne, hn.phase⟩
    cases hnew : snapshotClusterAuth E after (fn node.auth).1 with
    | error =>
      rw [hnew] at heval
      cases heval
      exact ⟨hdirty, nofun⟩
    | ok =>
      rw [hnew] at heval
      cases heval
      refine ⟨hdirty, fun data hr => ?_⟩
      split at hr
      · cases hr
      · exact congrArg _ (some.inj hr)

end NodeOk

/-! ## One event -/

theorem Shared.Ok.commit (h : s.Ok E) (hsub : sub ∈ s.sent) :
    Ok E { s with log := s.log ++ [sub.change] } where
  timely := h.timely.snoc (h.early sub hsub)
  logged c hc := by
    rcases mem_append.mp hc with hc | hc
    · exact h.logged c hc
    · exact ⟨sub, hsub, (mem_singleton.mp hc).symm⟩
  early sub' hsub' := Nat.le_trans (h.early sub' hsub')
    (CasLog.history_prefix s.log [sub.change]).length_le
  unique := h.unique
  origin sub' hsub' fn now ho := by
    obtain ⟨auth, hm, hsnap⟩ := h.origin sub' hsub' fn now ho
    exact ⟨auth, hm.snoc sub.change, hsnap⟩
  acked c hc := (CasLog.history_prefix s.log [sub.change]).subset (h.acked c hc)
  nodes n := (h.nodes n).snoc sub.change

/-- **A success that is reported** is one in the history. -/
theorem Shared.Ok.outcome_true (h : s.Ok E) (hsub : sub ∈ s.sent)
    (hout : clusterAuthCommitOutcome (s.nodes n).store expected sub.change.writeID = .ok true) :
    sub.change ∈ history E s.log := by
  obtain ⟨high, -, hhigh, hstore⟩ := (h.nodes n).store
  rw [hstore] at hout
  obtain ⟨c, hc, hid⟩ := Auth.outcome_true hout
  have hmem := (history_mono (List.take_prefix high s.log)).subset hc
  obtain ⟨i, hi⟩ := List.getElem?_of_mem hmem
  obtain ⟨sub', hsub', rfl⟩ := h.logged c (history_getElem? hi).2.2
  rw [h.unique sub hsub sub' hsub' hid.symm]
  exact hmem

variable [DecidableEq N]

theorem Shared.Ok.setNode (h : s.Ok E) (hn : NodeOk E s.log s.sent node) :
    (s.setNode n node).Ok E := by
  refine { h with nodes := fun m => ?_ }
  unfold Shared.setNode
  dsimp only
  by_cases hm : m = n
  · subst hm
    rw [Function.update_self]
    exact hn
  · rw [Function.update_of_ne hm]
    exact h.nodes m

/-- A change with a new write ID is submitted. -/
theorem Shared.Ok.submit (h : s.Ok E) (hn : NodeOk E s.log s.sent node)
    (hphase : phase.change = some sub.change)
    (hearly : sub.change.expected ≤ (history E s.log).length)
    (hnew : ∀ sub' ∈ s.sent, sub'.change.writeID ≠ sub.change.writeID)
    (horigin : ∀ fn now, sub.origin = some (fn, now) →
      ∃ auth, Mirrors E s.log sub.change.expected auth ∧
        snapshotClusterAuth E now (fn auth).1 = .ok sub.change.data) :
    (s.submit E n node sub phase).Ok E := by
  unfold Shared.submit
  split
  · have hsent : Ok E { s with sent := s.sent ++ [sub] } :=
      { h with
        logged := fun c hc => by
          obtain ⟨sub', hmem, heq⟩ := h.logged c hc
          exact ⟨sub', by simp [hmem], heq⟩
        early := fun sub' hsub' => by
          rcases mem_append.mp hsub' with hsub' | hsub'
          · exact h.early sub' hsub'
          · exact mem_singleton.mp hsub' ▸ hearly
        unique := fun a ha b hb hid => by
          rcases mem_append.mp ha with ha | ha <;> rcases mem_append.mp hb with hb | hb
          · exact h.unique a ha b hb hid
          · exact absurd (mem_singleton.mp hb ▸ hid) (hnew a ha)
          · exact absurd (mem_singleton.mp ha ▸ hid.symm) (hnew b hb)
          · exact (mem_singleton.mp ha).trans (mem_singleton.mp hb).symm
        origin := fun sub' hsub' fn now ho => by
          rcases mem_append.mp hsub' with hsub' | hsub'
          · exact h.origin sub' hsub' fn now ho
          · cases mem_singleton.mp hsub'
            exact horigin fn now ho
        nodes := fun m => (h.nodes m).send sub }
    refine hsent.setNode ((hn.send sub).inPhase phase fun c hc => ?_)
    rw [hphase] at hc
    exact ⟨sub, by simp, some.inj hc⟩
  · exact h.setNode hn.idle

/-- `sync`, and what follows up to the command. -/
theorem Shared.Ok.syncNode (h : s.Ok E) {id : String} (hnew : ∀ sub ∈ s.sent,
    sub.change.writeID ≠ id)
    (before after : ℤ) (fn : Option (Mutation Local)) (attempt init : ℕ) :
    (s.syncNode E n id before after fn attempt init).Ok E := by
  have hn := h.nodes n
  unfold Shared.syncNode
  dsimp only
  split
  · split
    · exact h.submit hn rfl (Nat.zero_le _) hnew nofun
    · exact h.setNode hn.idle
  · rename_i state hs
    split
    · exact h.setNode hn.idle
    · rename_i hpos
      obtain ⟨-, -, -, hle⟩ := hn.revision hs hpos
      cases himport : (s.nodes n).importState E state with
      | mk node' ok =>
        obtain ⟨hn', hmirror⟩ := hn.importState hs hpos himport
        cases ok with
        | false => exact h.setNode hn'.idle
        | true =>
          cases fn with
          | none => exact h.setNode hn'.idle
          | some fn =>
            dsimp only
            cases heval : node'.evaluate E fn before after with
            | mk node'' r =>
              obtain ⟨hn'', hdata⟩ := hn'.evaluate heval
              cases r with
              | none => exact h.setNode hn''.idle
              | some data =>
                refine h.submit hn'' rfl hle hnew fun fn' now ho => ?_
                cases ho
                exact ⟨node'.auth, hmirror rfl, hdata data rfl⟩

theorem Shared.Ok.resolveNode (h : s.Ok E) (hr : s.resolveNode n = some s') : s'.Ok E := by
  have hn := h.nodes n
  unfold Shared.resolveNode at hr
  dsimp only at hr
  cases hp : (s.nodes n).phase with
  | idle | syncing =>
    rw [hp] at hr
    cases hr
  | seeding =>
    rw [hp] at hr
    dsimp only at hr
    split at hr
    · cases hr
      exact h.setNode hn.idle
    · cases hr
      exact h.setNode (hn.inPhase _ nofun)
  | swapping fn attempt c =>
    obtain ⟨sub, hsub, rfl⟩ := hn.phase c (by rw [hp]; rfl)
    rw [hp] at hr
    dsimp only at hr
    split at hr
    · cases hr
      exact h.setNode hn.idle
    · rename_i hout
      cases hr
      have hset : (s.setNode n { s.nodes n with phase := .idle }).Ok E := h.setNode hn.idle
      refine { hset with acked := fun c hc => ?_ }
      rcases mem_append.mp hc with hc | hc
      · exact h.acked c hc
      · rw [mem_singleton.mp hc]
        exact h.outcome_true hsub hout
    · cases hr
      refine h.setNode (hn.inPhase _ fun c hc => ?_)
      split at hc <;> cases hc

/-- **Every event keeps the invariant.** -/
theorem Shared.Ok.step (h : s.Ok E) (hs : s.step E e = some s') : s'.Ok E := by
  cases e with
  | call n =>
    simp only [Shared.step] at hs
    split at hs
    · cases hs
      exact h.setNode ((h.nodes n).inPhase _ nofun)
    · cases hs
  | sync n id before after =>
    simp only [Shared.step] at hs
    split at hs
    · split at hs
      · cases hs
      · rename_i hid
        cases hs
        refine h.syncNode (fun sub hsub heq => hid ?_) before after _ _ _
        simp only [Bool.or_eq_true, decide_eq_true_iff, List.any_eq_true]
        exact .inr ⟨sub, hsub, heq⟩
    · cases hs
  | commit =>
    simp only [Shared.step, map_eq_some_iff] at hs
    obtain ⟨sub, hsub, rfl⟩ := hs
    exact h.commit (mem_of_getElem? hsub)
  | apply n =>
    simp only [Shared.step, map_eq_some_iff] at hs
    obtain ⟨c, hc, rfl⟩ := hs
    exact h.setNode ((h.nodes n).apply h.timely hc)
  | restart n next auth seed =>
    simp only [Shared.step] at hs
    split at hs
    · rename_i hle
      cases hs
      obtain ⟨high, hnext, hhigh, hstore⟩ := (h.nodes n).store
      exact h.setNode ⟨⟨high, Nat.le_trans hle hnext, hhigh, hstore⟩, fun hne =>
        absurd rfl hne, nofun⟩
    · cases hs
  | install n m =>
    cases hs
    exact h.setNode ⟨(h.nodes m).store, (h.nodes n).mirror, (h.nodes n).phase⟩
  | resolve => exact h.resolveNode hs
  | fail n =>
    simp only [Shared.step] at hs
    split at hs
    · cases hs
      exact h.setNode (h.nodes n).idle
    · cases hs
      exact h.setNode (h.nodes n).idle
    · cases hs

theorem Shared.Reachable.ok {auth : N → Local} {seed : N → Bytes} (h : s.Reachable E auth seed) :
    s.Ok E := by
  refine Runs.Reachable.invariant ?_ (fun s e s' _ hs _ hstep => hs.step hstep) h
  exact
    { timely := nofun
      logged := nofun
      early := nofun
      unique := nofun
      origin := nofun
      acked := nofun
      nodes := fun n => ⟨⟨0, Nat.le_refl _, Nat.le_refl _, rfl⟩, fun hne => absurd rfl hne, nofun⟩ }

/-! ## Runs -/

theorem log_submit : (s.submit E n node sub phase).log = s.log := by
  unfold Shared.submit
  split <;> rfl

theorem log_syncNode {id : String} {fn : Option (Mutation Local)} {attempt init : ℕ} :
    (s.syncNode E n id before after fn attempt init).log = s.log := by
  unfold Shared.syncNode
  dsimp only
  repeat' split
  all_goals first
    | rfl
    | exact log_submit

/-- The log only grows. -/
theorem log_step (hs : s.step E e = some s') : s.log <+: s'.log := by
  cases e with
  | commit =>
    simp only [Shared.step, map_eq_some_iff] at hs
    obtain ⟨sub, -, rfl⟩ := hs
    exact prefix_append ..
  | sync =>
    simp only [Shared.step] at hs
    split at hs
    · split at hs
      · cases hs
      · cases hs
        simp only [log_syncNode, prefix_rfl]
    · cases hs
  | apply =>
    simp only [Shared.step, map_eq_some_iff] at hs
    obtain ⟨c, -, rfl⟩ := hs
    exact prefix_rfl
  | resolve =>
    simp only [Shared.step, Shared.resolveNode] at hs
    repeat' split at hs
    all_goals first
      | cases hs; exact prefix_rfl
      | cases hs
  | call | restart =>
    simp only [Shared.step] at hs
    split at hs <;> cases hs
    exact prefix_rfl
  | install =>
    cases hs
    exact prefix_rfl
  | fail =>
    simp only [Shared.step] at hs
    split at hs <;> cases hs
    · exact prefix_rfl
    · exact prefix_rfl

theorem log_run (h : Runs.Reachable (Shared.step E) (fun _ => True) s s') : s.log <+: s'.log := by
  induction h with
  | init => exact prefix_rfl
  | step _ _ hs ih => exact ih.trans (log_step hs)

/-- **A conflict that is reported** is one for good. -/
theorem Shared.Ok.outcome_false (h : s.Ok E) {c : ClusterAuthChange}
    (hout : clusterAuthCommitOutcome (s.nodes n).store c.expected c.writeID = .ok false)
    (hrun : Runs.Reachable (Shared.step E) (fun _ => True) s s') : c ∉ history E s'.log := by
  intro hmem
  obtain ⟨high, -, -, hstore⟩ := (h.nodes n).store
  rw [hstore] at hout
  obtain ⟨hlt, hother⟩ := Auth.outcome_false (length_history_le _) hout
  have hpre : history E (s.log.take high) <+: history E s'.log :=
    history_mono ((List.take_prefix high s.log).trans (log_run hrun))
  exact hother c (CasLog.getElem?_of_mem (CasLog.mem_of_prefix hpre hmem hlt)) rfl

/-- **No update is lost.** In every state the nodes get to: the state of a node
is that of a part of the history, with a revision for every change; a change
whose success was reported is in the history once; a mutation in the history
was computed from the revision before it; and what is reported of a change that
was submitted is true, for good. -/
theorem Shared.Reachable.no_lost_update {auth : N → Local} {seed : N → Bytes}
    (h : s.Reachable E auth seed) :
    (∀ n, ∃ applied, applied <+: history E s.log ∧ (s.nodes n).store = stateOf applied ∧
      ((s.nodes n).store.map ClusterAuthState.revision).getD 0 = applied.length) ∧
    (∀ c ∈ s.acked, (history E s.log)[c.expected]? = some c ∧
      ∃! k : ℕ, ∃ c' : ClusterAuthChange, (history E s.log)[k]? = some c' ∧
        c'.writeID = c.writeID) ∧
    (∀ sub ∈ s.sent, sub.change ∈ history E s.log → ∀ fn now, sub.origin = some (fn, now) →
      ∃ previous auth, 0 < sub.change.expected ∧
        (history E s.log)[sub.change.expected - 1]? = some previous ∧
        importClusterAuth E previous.data = .ok auth ∧
        snapshotClusterAuth E now (fn auth).1 = .ok sub.change.data) ∧
    ∀ n, ∀ sub ∈ s.sent,
      (clusterAuthCommitOutcome (s.nodes n).store sub.change.expected sub.change.writeID =
        .ok true →
        sub.change ∈ history E s.log) ∧
      (clusterAuthCommitOutcome (s.nodes n).store sub.change.expected sub.change.writeID =
        .ok false →
        ∀ s', Runs.Reachable (Shared.step E) (fun _ => True) s s' →
          sub.change ∉ history E s'.log) := by
  have hok := h.ok
  refine ⟨fun n => ?_, fun c hc => ?_, fun sub hsub _ fn now ho => ?_, fun n sub hsub =>
    ⟨hok.outcome_true hsub, ?_⟩⟩
  · obtain ⟨high, -, -, hstore⟩ := (hok.nodes n).store
    exact ⟨_, history_mono (List.take_prefix high s.log), hstore, by rw [hstore, revision_stateOf]⟩
  · have hget := CasLog.getElem?_of_mem (hok.acked c hc)
    refine ⟨hget, c.expected, ⟨c, hget, rfl⟩, ?_⟩
    rintro k ⟨c', hk, hid⟩
    -- a change with the same write ID is the same change
    obtain ⟨hexp, -, hlog'⟩ := history_getElem? hk
    obtain ⟨-, -, hlog⟩ := history_getElem? hget
    obtain ⟨sub, hsub, rfl⟩ := hok.logged c hlog
    obtain ⟨sub', hsub', rfl⟩ := hok.logged c' hlog'
    rw [← hexp, hok.unique sub' hsub' sub hsub hid]
  · obtain ⟨auth, ⟨hpos, previous, hprev, himport⟩, hsnap⟩ := hok.origin sub hsub fn now ho
    exact ⟨previous, auth, hpos, hprev, himport, hsnap⟩
  · exact fun hout s' hrun => hok.outcome_false hout hrun

end Nodes

/-! ## Two nodes -/

/-- An evaluator that counts. -/
def counter : Evaluator ℕ where
  unmarshal _ := some ⟨[], [], [], [], [], []⟩
  load raw := raw.length
  marshal _ n := some (replicate n 0)

/-- One more. -/
def increment : Mutation ℕ := fun n => (n + 1, none)

/-- Both nodes count. The second one loses the race and tries again; the first
change is committed twice, and the first node replays the log. -/
def counting : List (SharedEvent Bool ℕ) :=
  [.call false (some increment), .sync false "a" 0 0, .commit 0, .apply false, .resolve false,
    .sync false "b" 0 0, .apply true, .call true (some increment), .sync true "c" 0 0,
    .commit 1, .commit 2, .commit 1, .apply false, .apply false, .resolve false,
    .apply true, .apply true, .apply true, .resolve true, .sync true "d" 0 0, .commit 3,
    .apply true, .resolve true, .restart false 0 0 [], .apply false, .apply false]

theorem counting_run : ∃ s, Runs.run (Shared.step counter) (init (fun _ => 0) fun _ =>
    []) counting = some s ∧
    s.acked = [⟨1, "b", [0]⟩, ⟨2, "d", [0, 0]⟩] ∧
    (s.sent.any fun sub => sub.change = ⟨1, "c", [0]⟩) = true ∧
    clusterAuthCommitOutcome (s.nodes true).store 1 "c" = .ok false := by
  have hrun : ((Runs.run (Shared.step counter) (init (fun _ => 0) fun _ => []) counting).any
      fun s => decide (s.acked = [⟨1, "b", [0]⟩, ⟨2, "d", [0, 0]⟩] ∧
        (s.sent.any fun sub => sub.change = ⟨1, "c", [0]⟩) = true ∧
        clusterAuthCommitOutcome (s.nodes true).store 1 "c" = .ok false)) = true := by decide
  obtain ⟨s, hs, hfacts⟩ := Runs.exists_of_any hrun
  exact ⟨s, hs, of_decide_eq_true hfacts⟩

/-- In that run, of the two changes for the first revision one is in the history
and the other never will be. -/
theorem no_lost_update_counting :
    ∃ s, Runs.run (Shared.step counter) (init (fun _ => 0) fun _ => []) counting = some s ∧
      s.acked = [⟨1, "b", [0]⟩, ⟨2, "d", [0, 0]⟩] ∧
      (∃! k : ℕ, ∃ c : ClusterAuthChange, (history counter s.log)[k]? = some c ∧ c.writeID = "b") ∧
      ∀ s', Runs.Reachable (Shared.step counter) (fun _ => True) s s' →
        (⟨1, "c", [0]⟩ : ClusterAuthChange) ∉ history counter s'.log := by
  obtain ⟨s, hrun, hacked, hsent, hout⟩ := counting_run
  have h : s.Reachable counter (fun _ => 0) fun _ => [] :=
    Runs.Reachable.of_run .init (fun _ _ => trivial) hrun
  obtain ⟨-, honce, -, hreport⟩ := h.no_lost_update
  obtain ⟨sub, hsub, hchange⟩ := List.any_eq_true.mp hsent
  have hchange : sub.change = ⟨1, "c", [0]⟩ := of_decide_eq_true hchange
  refine ⟨s, hrun, hacked, (honce ⟨1, "b", [0]⟩ (by simp [hacked])).2, fun s' hs' => ?_⟩
  have hnever := (hreport true sub hsub).2
  rw [hchange] at hnever
  exact hnever hout s' hs'

end Anubis.Auth
