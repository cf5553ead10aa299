import Anubis.Raft.Helpers.Futures
import Anubis.Raft.Helpers.LogRep

/-!
# A node and its own log

What a node can tell by itself, in every run without restarts: its log is
numbered, what it applies is at or below its commit index, and a future
that waits has its own entry in the log. Messages are not looked at:
`newEntries` numbers what it takes over.
-/

namespace Anubis.Raft

open List Node Option

variable {NodeId Cmd : Type}
variable {es : List (RaftLogEntry NodeId Cmd)} {trace : List (Obs NodeId Cmd)}
    {idx j index last lastApplied : ℕ}
variable {F : List (RaftLogEntry NodeId Cmd)}
  {waiters : List (ApplyFuture Cmd)}

/-! ## What the helpers of `handleAppendEntries` compute -/

section Helpers

variable {n : Node NodeId Cmd} {F : List (RaftLogEntry NodeId Cmd)} {b : ℕ}
  {req : AppendEntriesRequest NodeId Cmd}

/-- A consistent request continues the log. -/
theorem LogRep.consistent (h : LogRep n F b) (hcons : n.checkLogConsistency req = none) :
    b ≤ req.prevLogIndex ∧ req.prevLogIndex ≤ F.length ∧
    termAt F req.prevLogIndex = req.prevLogTerm := by
  have hle := h.le
  unfold checkLogConsistency at hcons
  rw [h.base] at hcons
  split at hcons
  · rename_i heq
    split at hcons
    · cases hcons
    · rename_i hterm
      rw [not_not] at hterm
      rw [heq, hterm, h.baseTerm]
      exact ⟨le_rfl, hle, rfl⟩
  · rename_i hne
    split at hcons
    · cases hcons
    · rename_i entry hentry
      split at hcons
      · cases hcons
      · rename_i hterm
        rw [not_not] at hterm
        rcases Nat.lt_or_ge req.prevLogIndex b with hlt | hge
        · rw [h.logEntry_of_base_lt hlt] at hentry
          cases hentry
        · have hlt : b < req.prevLogIndex := lt_of_le_of_ne hge (Ne.symm hne)
          rw [h.logEntry_of_lt hlt] at hentry
          have hlen := (List.getElem?_eq_some_iff.mp hentry).1
          refine ⟨hge, by omega, ?_⟩
          obtain ⟨i, hi⟩ : ∃ i, req.prevLogIndex = i + 1 := ⟨req.prevLogIndex - 1, by omega⟩
          rw [hi, Nat.add_sub_cancel] at hentry
          rw [hi, termAt_eq hentry, hterm]

/-- Without a conflict, what both sides have carries the same terms. -/
theorem conflictAt_none
    (h : n.conflictAt idx es = none) {e own : RaftLogEntry NodeId Cmd} (he : es[j]? = some e)
    (hown : n.logEntry (idx + j) = some own) : own.term = e.term := by
  induction es generalizing idx j with
  | nil => simp at he
  | cons x es ih =>
    unfold conflictAt at h
    cases j with
    | zero =>
      rw [getElem?_cons_zero, some.injEq] at he
      subst he
      rw [Nat.add_zero] at hown
      rw [hown] at h
      by_contra hne
      simp [hne] at h
    | succ j =>
      rw [getElem?_cons_succ] at he
      have hrest : n.conflictAt (idx + 1) es = none := by
        split at h
        · split at h
          · cases h
          · exact h
        · exact h
      exact ih hrest he (by rwa [Nat.add_assoc, Nat.add_comm 1 j])

/-- A conflict is an entry with another term, and the first one. -/
theorem conflictAt_some
    (h : n.conflictAt idx es = some index) :
    ∃ j e own, index = idx + j ∧ es[j]? = some e ∧ n.logEntry index = some own ∧ own.term ≠ e.term ∧
      ∀ (j' : ℕ) (e' own' : RaftLogEntry NodeId Cmd), j' < j → es[j']? = some e' →
        n.logEntry (idx + j') = some own' → own'.term = e'.term := by
  induction es generalizing idx with
  | nil => cases h
  | cons x es ih =>
    have hlater : ∀ (hx : ∀ own, n.logEntry idx = some own → own.term = x.term),
        n.conflictAt (idx + 1) es = some index →
        ∃ j e own, index = idx + j ∧ (x :: es)[j]? = some e ∧ n.logEntry index = some own ∧
          own.term ≠ e.term ∧ ∀ (j' : ℕ) (e' own' : RaftLogEntry NodeId Cmd), j' < j →
            (x :: es)[j']? = some e' → n.logEntry (idx + j') = some own' → own'.term = e'.term := by
      intro hx hrest
      obtain ⟨j, e, own, hidx, he, hown, hne, hbefore⟩ := ih hrest
      refine ⟨j + 1, e, own, by omega, he, hown, hne, fun j' e' own' hj' he' hown' => ?_⟩
      cases j' with
      | zero =>
        rw [getElem?_cons_zero, some.injEq] at he'
        subst he'
        exact hx own' hown'
      | succ j' =>
        exact hbefore j' e' own' (by omega) he' (by rwa [Nat.add_assoc, Nat.add_comm 1 j'])
    unfold conflictAt at h
    split at h
    · rename_i own hown
      split at h
      · rename_i hne
        cases h
        exact ⟨0, x, own, rfl, rfl, hown, hne, fun j' _ _ hj' => absurd hj' (Nat.not_lt_zero j')⟩
      · rename_i heq
        refine hlater (fun own' hown' => ?_) h
        rw [hown, some.injEq] at hown'
        exact hown' ▸ not_not.mp heq
    · rename_i hnone
      exact hlater (fun own' hown' => by rw [hnone] at hown'; cases hown') h

/-- The entries a node does not have are the end of the request, as they
carry their own numbers. -/
theorem newEntries_eq
    (h : ∀ (j : ℕ) (e : RaftLogEntry NodeId Cmd), es[j]? = some e → e.index = idx + j) :
    newEntries last idx es = es.drop (last + 1 - idx) := by
  induction es generalizing idx with
  | nil => simp [newEntries]
  | cons x es ih =>
    have hx : { x with index := idx } = x := by
      have := h 0 x rfl
      rw [Nat.add_zero] at this
      rw [← this]
    have hrest : newEntries last (idx + 1) es = es.drop (last + 1 - (idx + 1)) :=
      ih fun j e he => by
        rw [h (j + 1) e he]
        omega
    unfold newEntries
    rw [hrest, hx]
    split
    · rename_i hlt
      have h₁ : last + 1 - (idx + 1) = 0 := by omega
      have h₂ : last + 1 - idx = 0 := by omega
      rw [h₁, h₂, drop_zero, drop_zero]
    · rename_i hge
      obtain ⟨k, hk⟩ : ∃ k, last + 1 - idx = k + 1 := ⟨last - idx, by omega⟩
      have hk' : last + 1 - (idx + 1) = k := by omega
      rw [hk, hk', drop_succ_cons]

end Helpers

/-- What a node takes over is numbered on from its log. -/
theorem newEntries_index (hidx : idx ≤ last + 1) {e : RaftLogEntry NodeId Cmd}
    (he : (newEntries last idx es)[j]? = some e) :
    e.index = last + 1 + j := by
  -- once one entry is past the log, the rest are
  have hpast : ∀ (es : List (RaftLogEntry NodeId Cmd)) (idx j : ℕ) (e : RaftLogEntry NodeId Cmd),
      last < idx → (newEntries last idx es)[j]? = some e → e.index = idx + j := by
    intro es
    induction es with
    | nil => simp [newEntries]
    | cons x es ih =>
      intro idx j e hlt he
      rw [newEntries, if_pos hlt] at he
      cases j with
      | zero =>
        rw [getElem?_cons_zero, some.injEq] at he
        rw [← he]
        rfl
      | succ j =>
        rw [getElem?_cons_succ] at he
        rw [ih (idx + 1) j e (by omega) he]
        omega
  induction es generalizing idx with
  | nil => simp [newEntries] at he
  | cons x es ih =>
    rcases Nat.lt_or_ge last idx with hlt | hge
    · rw [hpast _ idx j e hlt he]
      omega
    · rw [newEntries, if_neg (by omega)] at he
      exact ih (by omega) he

/-- A log that takes over the missing entries of a consistent request stays
numbered. -/
theorem LogRep.extended {b : ℕ} {n : Node NodeId Cmd}
    {req : AppendEntriesRequest NodeId Cmd} (h : LogRep n F b)
    (hprev : req.prevLogIndex ≤ F.length) :
    LogRep (n.extended (n.missing req)) (F ++ n.missing req) b := by
  refine h.append (fun i e he => ?_) rfl rfl rfl
  rcases Nat.lt_or_ge i F.length with hi | hi
  · rw [getElem?_append_left hi] at he
    exact h.indexed i e he
  · rw [getElem?_append_right hi] at he
    unfold missing at he
    rw [h.lastLogIndex] at he
    rw [newEntries_index (by omega) he]
    omega

/-- A conflict lies in the log, past the request's position. -/
theorem LogRep.conflict {b : ℕ} {n : Node NodeId Cmd}
    {req : AppendEntriesRequest NodeId Cmd} (h : LogRep n F b)
    (hcons : n.checkLogConsistency req = none)
    (hconf : n.conflictAt (req.prevLogIndex + 1) req.entries = some index) :
    b < index ∧ index ≤ F.length ∧ req.prevLogIndex < index ∧
      LogRep (n.truncateLog index) (F.take (index - 1)) b := by
  obtain ⟨hb, -, -⟩ := h.consistent hcons
  obtain ⟨j, e, own, rfl, -, hown, -⟩ := conflictAt_some hconf
  rw [h.logEntry_of_lt (by omega)] at hown
  have hlen := (List.getElem?_eq_some_iff.mp hown).1
  refine ⟨by omega, by omega, by omega, h.truncate (by omega) (by omega) ?_ rfl rfl⟩
  change n.log.take ((n.logPosition _).getD 0) = _
  rw [h.logPosition (by omega) (by omega)]
  rfl

/-! ## Futures and their entries -/

/-- The entry of a waiting future is in the log, unless it was compacted
away. -/
def Node.Holds (n : Node NodeId Cmd) (f : ApplyFuture Cmd) : Prop :=
  n.logBase < f.index → ∃ entry, n.logEntry f.index = some entry ∧ entry.Answers f

section Holds

variable {n n' : Node NodeId Cmd} {f : ApplyFuture Cmd}

theorem Node.Holds.of_logEntry (h : n.Holds f) (hbase : n.logBase ≤ n'.logBase)
    (hlog : n'.logBase < f.index → ∀ entry, n.logEntry f.index = some entry →
      n'.logEntry f.index = some entry) : n'.Holds f := by
  intro hlt
  obtain ⟨entry, hentry, hans⟩ := h (hbase.trans_lt hlt)
  exact ⟨entry, hlog hlt entry hentry, hans⟩

theorem LogRep.holds {F F' : List (RaftLogEntry NodeId Cmd)} {b b' : ℕ} (h : LogRep n F b)
    (h' : LogRep n' F' b') (hb : b ≤ b') (heq : b' < f.index → F[f.index - 1]? = F'[f.index - 1]?)
    (hf : n.Holds f) : n'.Holds f := by
  refine hf.of_logEntry (by rw [h.base, h'.base]; exact hb) fun hlt entry hentry => ?_
  rw [h'.base] at hlt
  rw [h'.logEntry_of_lt hlt, ← heq hlt, ← h.logEntry_of_lt (by omega)]
  exact hentry

theorem LogRep.holds_append {F es : List (RaftLogEntry NodeId Cmd)} {b : ℕ} (h : LogRep n F b)
    (h' : LogRep n' (F ++ es) b) (hf : n.Holds f) : n'.Holds f := by
  refine hf.of_logEntry (by rw [h.base, h'.base]) fun hlt entry hentry => ?_
  rw [h'.base] at hlt
  rw [h.logEntry_of_lt hlt] at hentry
  rw [h'.logEntry_of_lt hlt, getElem?_append_left (List.getElem?_eq_some_iff.mp hentry).1]
  exact hentry

end Holds

/-! ## The invariant -/

/-- What `applyLoop` holds lies at or below the commit index. -/
def Applier.Within (lastApplied commitIndex : ℕ) : Applier NodeId Cmd → Prop
  | .idle => True
  | .pass target _ => target ≤ commitIndex
  | .fetched target _ e => target ≤ commitIndex ∧ lastApplied < target ∧ e.index = lastApplied + 1
  | .ran target _ e _ => target ≤ commitIndex ∧ lastApplied < target ∧ e.index = lastApplied + 1
  | .applied target _ e => target ≤ commitIndex ∧ e.index = lastApplied
  | .skipped target _ e => target ≤ commitIndex ∧ e.index = lastApplied
  | .failed e => e.index ≤ commitIndex
  | .compacting index => index ≤ lastApplied

/-- **A node in order, as far as it can tell by itself.** What it did before a
restart counts in `whole` runs only: the commit index may have been lost. -/
structure Node.Sound (whole : Prop) (n : Node NodeId Cmd) : Prop where
  log : ∃ F, LogRep n F n.logBase
  applied : n.logBase ≤ n.lastApplied ∧ n.lastApplied ≤ n.commitIndex
  commitCh : ∀ k ∈ n.commitCh, k ≤ n.commitIndex
  applier : n.applier.Within n.lastApplied n.commitIndex
  publish : ∀ c, n.loop = .publish c → n.applier = .idle
  restore : ∀ c, n.loop = .restore c → n.applier = .idle ∧ n.lastApplied < c.transfer.snapshot.index
  handed : whole → ∀ e r, .handed e r ∈ n.trace → e.index ≤ n.commitIndex
  changed : whole → ∀ e, .changed e ∈ n.trace → e.index ≤ n.commitIndex
  queued : ∀ f ∈ n.applyCh, ∃ c, f.command = some c
  waiting : ∀ f ∈ n.applyWaiters, n.Holds f

theorem Applier.Within.mono {commitIndex commitIndex' : ℕ} {a : Applier NodeId Cmd}
    (h : a.Within lastApplied commitIndex) (hle : commitIndex ≤ commitIndex') :
    a.Within lastApplied commitIndex' := by
  cases a with
  | idle => trivial
  | pass | failed => exact h.trans hle
  | compacting => exact h
  | _ => exact ⟨h.1.trans hle, h.2⟩

namespace Node.Sound

variable {whole : Prop} {n : Node NodeId Cmd} (h : n.Sound whole)

include h

theorem within {a : Applier NodeId Cmd} (ha : n.applier = a) :
    a.Within n.lastApplied n.commitIndex :=
  ha ▸ h.applier

theorem not_installing (happlier : n.applier ≠ .idle) : n.loop.isInstalling = false := by
  cases hl : n.loop with
  | publish c => exact absurd (h.publish c hl) happlier
  | restore c => exact absurd (h.restore c hl).1 happlier
  | _ => rfl

/-- The commit index moves up. -/
theorem moveCommit {k : ℕ} (hk : n.commitIndex ≤ k) (ws : List (Write NodeId Cmd))
    (hhanded : ∀ e r, .handed e r ∈ trace → .handed e r ∈ n.trace)
    (hchanged : ∀ e, .changed e ∈ trace → .changed e ∈ n.trace) :
    Sound whole
      { n with
        commitIndex := k, journal := n.journal ++ ws, trace := trace
        commitCh := (if n.commitCh.length < 16 then n.commitCh else n.commitCh.tail) ++ [k] } := by
  obtain ⟨F, hF⟩ := h.log
  refine { h with
    log := ⟨F, hF.of_same rfl⟩
    applied := ⟨h.applied.1, h.applied.2.trans hk⟩
    commitCh := fun i hi => ?_
    applier := h.applier.mono hk
    handed := fun hw e r he => (h.handed hw e r (hhanded e r he)).trans hk
    changed := fun hw e he => (h.changed hw e (hchanged e he)).trans hk }
  rcases mem_append.mp hi with hi | hi
  · have hmem : i ∈ n.commitCh := by
      split at hi
      · exact hi
      · exact mem_of_mem_tail hi
    exact (h.commitCh i hmem).trans hk
  · exact (mem_singleton.mp hi).le

/-- Another log, with the waiting futures' entries in it. -/
theorem relog {log : List (RaftLogEntry NodeId Cmd)}
    (hF : LogRep { n with log := log } F n.logBase) (ws : List (Write NodeId Cmd))
    (resolved : List (ApplyFuture Cmd × Except (FutureError NodeId) Unit))
    (hwaiting : ∀ f ∈ waiters, Holds { n with log := log } f) :
    Sound whole { n with
      log := log, journal := n.journal ++ ws, applyWaiters := waiters, resolved := resolved } :=
  { h with log := ⟨F, hF.of_same rfl⟩, waiting := hwaiting }

/-- A pass goes on. Nothing is being installed meanwhile. -/
theorem applying (hbusy : n.applier ≠ .idle) (hle : n.lastApplied ≤ lastApplied)
    (hci : lastApplied ≤ n.commitIndex) {applier : Applier NodeId Cmd}
    (happlier : applier.Within lastApplied n.commitIndex)
    (hhanded : whole → ∀ e r, .handed e r ∈ trace → e.index ≤ n.commitIndex)
    (hchanged : whole → ∀ e, .changed e ∈ trace → e.index ≤ n.commitIndex)
    (hwaiting : ∀ f ∈ waiters, f ∈ n.applyWaiters)
    (resolved : List (ApplyFuture Cmd × Except (FutureError NodeId) Unit))
    (journal : List (Write NodeId Cmd)) :
    Sound whole
      { n with
        lastApplied := lastApplied, applier := applier, trace := trace, applyWaiters := waiters
        resolved := resolved, journal := journal } := by
  obtain ⟨F, hF⟩ := h.log
  have hloop := h.not_installing hbusy
  exact { h with
    log := ⟨F, hF.of_same rfl⟩
    applied := ⟨h.applied.1.trans hle, hci⟩
    applier := happlier
    publish := fun c hc => by
      rw [show n.loop = .publish c from hc] at hloop
      cases hloop
    restore := fun c hc => by
      rw [show n.loop = .restore c from hc] at hloop
      cases hloop
    handed := hhanded
    changed := hchanged
    waiting := fun f hf => h.waiting f (hwaiting f hf) }

end Node.Sound

section Steps

variable [LinearOrder NodeId] {whole : Prop} {S : Setup NodeId} {net : List (Msg NodeId Cmd)}
  {now : ℕ}
    {v : NodeId}
  {n n' : Node NodeId Cmd} {l : Label} {out : List (Msg NodeId Cmd)}
  {req : AppendEntriesRequest NodeId Cmd}

theorem Node.Sound.refreshMembership (h : n.Sound whole) : n.refreshMembership.Sound whole := by
  obtain ⟨F, hF⟩ := h.log
  exact { h with log := ⟨F, hF.of_same rfl⟩ }

omit [LinearOrder NodeId] in
theorem Node.Sound.truncateLog (h : n.Sound whole) (hcons : n.checkLogConsistency req = none)
    (hconf : n.conflictAt (req.prevLogIndex + 1) req.entries = some index) :
    (n.truncateLog index).Sound whole := by
  obtain ⟨F, hF⟩ := h.log
  obtain ⟨hb, hlen, -, hcut⟩ := hF.conflict hcons hconf
  refine h.relog (hcut.of_same rfl) _ _ fun f hf => ?_
  have hlt : f.index < index := by simpa using (mem_filter.mp hf).2
  refine hF.holds (hcut.of_same rfl) le_rfl (fun hbf => ?_)
    (h.waiting f (mem_filter.mp hf).1)
  rw [getElem?_take_of_lt (by omega)]

omit [LinearOrder NodeId] in
theorem Node.Sound.extended (h : n.Sound whole) (hprev : req.prevLogIndex ≤ n.lastLogIndex) :
    (n.extended (n.missing req)).Sound whole := by
  obtain ⟨F, hF⟩ := h.log
  rw [hF.lastLogIndex] at hprev
  have hlong := hF.extended hprev
  exact h.relog (hlong.of_same rfl) _ _ fun f hf =>
    hF.holds_append (hlong.of_same rfl) (h.waiting f hf)

theorem Node.Sound.acceptAppend (h : n.Sound whole) (io : AppendIO) :
    (n.acceptAppend io now req).1.Sound whole := by
  have hcommit : ∀ {m : Node NodeId Cmd}, m.Sound whole →
      (m.updateCommitIndex io.commit req).Sound whole := by
    intro m hm
    rcases updateCommitIndex_cases io.commit with heq | ⟨k, hlt, -, -, heq⟩
    · rwa [heq]
    · rw [heq]
      exact hm.moveCommit hlt.le _ (fun _ _ he => he) fun _ he => he
  have hm : (n.contacted now req.leaderID).Sound whole := by
    obtain ⟨F, hF⟩ := h.log
    exact { h with log := ⟨F, hF.of_same rfl⟩ }
  have hcases := acceptAppend_cases n io now req
  generalize n.contacted now req.leaderID = m at hm hcases
  generalize (n.acceptAppend io now req).1 = n', (n.acceptAppend io now req).2 = resp at hcases ⊢
  obtain ⟨F, hF⟩ := hm.log
  cases hcases with
  | unchanged => exact hm
  | truncated hcons hconf => exact (hm.truncateLog hcons hconf).refreshMembership
  | extended hcons =>
    exact hcommit (hm.extended (by rw [hF.lastLogIndex]; exact (hF.consistent hcons).2.1))
  | changed hcons =>
    exact hcommit (hm.extended
      (by rw [hF.lastLogIndex]; exact (hF.consistent hcons).2.1)).refreshMembership
  | @replaced index resp hcons hconf =>
    obtain ⟨-, hlen, hprev, hcut⟩ := hF.conflict hcons hconf
    refine hcommit ((hm.truncateLog hcons hconf).extended ?_).refreshMembership
    rw [hcut.lastLogIndex, length_take]
    omega

section

omit [LinearOrder NodeId]

theorem compactionBase_le (n : Node NodeId Cmd) (index : ℕ) : n.compactionBase index ≤ index := by
  unfold compactionBase
  split
  · exact le_rfl
  · split <;> omega

/-- The log with one more entry. -/
theorem Node.Sound.append (h : n.Sound whole) (entry : RaftLogEntry NodeId Cmd)
    (hidx : entry.index = n.lastLogIndex + 1)
    (hF : LogRep n F n.logBase) :
    LogRep { n with log := n.log ++ [entry] } (F ++ [entry]) n.logBase ∧
      (∀ f ∈ n.applyWaiters, Holds { n with log := n.log ++ [entry] } f) ∧
      ∀ f, entry.Answers f → Holds { n with log := n.log ++ [entry] } f := by
  rw [hF.lastLogIndex] at hidx
  have hlong : LogRep { n with log := n.log ++ [entry] } (F ++ [entry]) n.logBase :=
    hF.append (hF.indexed.append_singleton hidx) rfl rfl rfl
  refine ⟨hlong, fun f hf => hF.holds_append hlong (h.waiting f hf), fun f hans hlt => ?_⟩
  refine ⟨entry, ?_, hans⟩
  rw [hlong.logEntry_of_lt hlt, ← hans.1, hidx, Nat.add_sub_cancel, getElem?_concat_length]

theorem Node.Sound.next (h : n.Sound whole) {entry : RaftLogEntry NodeId Cmd}
    (hentry : n.logEntry (n.lastApplied + 1) = some entry) : entry.index = n.lastApplied + 1 := by
  obtain ⟨F, hF⟩ := h.log
  have hlt : n.logBase < n.lastApplied + 1 := Nat.lt_succ_of_le h.applied.1
  rw [hF.logEntry_of_lt hlt, Nat.add_sub_cancel] at hentry
  exact hF.indexed _ _ hentry

/-- Some log with a given term at a given place. -/
theorem exists_indexed {s : ℕ} (hs : 0 < s) (term : ℕ) :
    ∃ G : List (RaftLogEntry NodeId Cmd), Indexed G ∧ G.length = s ∧ termAt G s = term := by
  refine ⟨(range s).map fun i => ⟨i + 1, term, .zero⟩, fun i e he => ?_, by simp, ?_⟩
  · rw [getElem?_map] at he
    obtain ⟨j, hj, rfl⟩ := map_eq_some_iff.mp he
    obtain ⟨hi, rfl⟩ := List.getElem?_eq_some_iff.mp hj
    simp
  · obtain ⟨i, rfl⟩ : ∃ i, s = i + 1 := ⟨s - 1, by omega⟩
    simp [termAt]

/-- The log past an installed snapshot: some entries up to it, and its own past it. -/
theorem LogRep.installed {b s term : ℕ} (hF : LogRep n F b) (hs : 0 < s) (hb : b ≤ s) :
    ∃ G : List (RaftLogEntry NodeId Cmd), G.length = s ∧ ∀ m : Node NodeId Cmd,
      m.log = baseMarker s term :: n.log.filter (fun e => s < e.index) → m.logBase = s →
      m.logBaseTerm = term → LogRep m (G.take s ++ F.drop s) s := by
  obtain ⟨G, hG, hlen, hterm⟩ := exists_indexed hs term
  exact ⟨G, hlen, fun m hlog hbase hbaseTerm =>
    hF.install hG hlen.ge hb (by rw [hlog, hterm]) hbase (by rw [hbaseTerm, hterm])⟩

/-- The log past a base it is compacted to. -/
theorem LogRep.compacted {pos : ℕ} (hF : LogRep n F n.logBase)
    (hbase : n.logBase < n.compactionBase index) (hlast : index ≤ n.lastLogIndex)
    (hpos : n.logPosition (n.compactionBase index) = some pos) {m : Node NodeId Cmd}
    (hlog : m.log = baseMarker (n.compactionBase index) (n.getLogTerm (n.compactionBase index)) ::
      n.log.drop (pos + 1)) (hb : m.logBase = n.compactionBase index)
    (hterm : m.logBaseTerm = n.getLogTerm (n.compactionBase index)) :
    LogRep m F (n.compactionBase index) := by
  have hle := (compactionBase_le n index).trans hlast
  rw [hF.lastLogIndex] at hle
  rw [hF.logPosition hbase.le hle, some.injEq] at hpos
  rw [hF.getLogTerm hbase.le] at hlog hterm
  exact hF.compact hbase.le hle (by rw [hlog, ← hpos]) hb hterm

end

theorem Node.Sound.new (v : NodeId) (config : Config) (members : List (RaftPeer NodeId)) :
    (newNode v config members : Node NodeId Cmd).Sound whole where
  log := ⟨[], rfl, rfl, le_rfl, rfl, .nil⟩
  applied := ⟨le_rfl, le_rfl⟩
  commitCh := nofun
  applier := trivial
  publish := nofun
  restore := nofun
  handed := fun _ => nofun
  changed := fun _ => nofun
  queued := nofun
  waiting := nofun

/-- **Every small change but a restart keeps a node in order.** -/
theorem Micro.sound (hm : Micro S net now v n l n' out) (hl : l ≠ .restart) (h : n.Sound whole) :
    n'.Sound whole := by
  obtain ⟨F, hF⟩ := h.log
  have hlog : ∀ {m : Node NodeId Cmd}, m.log = n.log → m.logBase = n.logBase →
      m.logBaseTerm = n.logBaseTerm → ∃ F, LogRep m F m.logBase :=
    fun h₁ h₂ h₃ => ⟨F, h₂ ▸ hF.of_same (by rw [h₁, h₂, h₃])⟩
  cases hm with
  | preVote | countPreVote | countVote | idle | standFailed | abandon =>
    exact { h with log := hlog rfl rfl rfl, publish := by simp, restore := by simp }
  | stand =>
    exact { h with
      log := hlog rfl rfl rfl, publish := by simp, restore := by simp
      handed := fun hw e r he => h.handed hw e r (by simpa using he)
      changed := fun hw e he => h.changed hw e (by simpa using he) }
  | castVote =>
    exact { h with
      log := hlog rfl rfl rfl
      handed := fun hw e r he => h.handed hw e r (by simpa using he)
      changed := fun hw e he => h.changed hw e (by simpa using he) }
  | leadFailed =>
    exact { h with
      log := hlog rfl rfl rfl, publish := by simp, restore := by simp
      handed := fun hw e r he => h.handed hw e r (by simpa [initLeader] using he)
      changed := fun hw e he => h.changed hw e (by simpa [initLeader] using he) }
  | lead =>
    obtain ⟨hlong, hold, -⟩ := h.append ⟨n.lastLogIndex + 1, n.currentTerm, .noOp⟩ rfl hF
    exact { h with
      log := ⟨_, hlong.of_same rfl⟩, publish := by simp, restore := by simp
      handed := fun hw e r he => h.handed hw e r (by simpa [initLeader] using he)
      changed := fun hw e he => h.changed hw e (by simpa [initLeader] using he)
      waiting := hold }
  | accept => exact h.acceptAppend _
  | commit _ hcand =>
    exact h.moveCommit (commitCandidate_spec hcand).1.le _ (fun e r he => by simpa using he)
      fun e he => by simpa using he
  | publish _ _ _ happlier =>
    exact { h with log := hlog rfl rfl rfl, publish := fun _ _ => happlier, restore := by simp }
  | recheck hloop _ _ happlied =>
    refine { h with log := hlog rfl rfl rfl, publish := by simp, restore := fun c' hc' => ?_ }
    cases hc'
    exact ⟨h.publish _ hloop, happlied⟩
  | @install c base resp hloop =>
    obtain ⟨hidle, hlt⟩ := h.restore c hloop
    have hb : n.logBase ≤ c.transfer.snapshot.index := h.applied.1.trans hlt.le
    obtain ⟨G, hlen, hnew⟩ := hF.installed (Nat.zero_lt_of_lt hlt) hb
    exact { h with
      log := ⟨_, hnew _ rfl rfl rfl⟩
      applied := ⟨le_max_right _ _, max_le_max h.applied.2 le_rfl⟩
      commitCh := fun k hk => (h.commitCh k hk).trans (le_max_left _ _)
      applier := by
        change n.applier.Within _ _
        rw [hidle]
        trivial
      publish := fun _ h => by cases h
      restore := fun _ h => by cases h
      handed := fun hw e r he => (h.handed hw e r he).trans (le_max_left _ _)
      changed := fun hw e he => (h.changed hw e he).trans (le_max_left _ _)
      waiting := fun f hf => by
        refine hF.holds (hnew _ rfl rfl rfl) hb (fun hlt' => ?_) (h.waiting f hf)
        rw [Ledger.getElem?_take_append_drop hlen.ge, if_neg (by omega)] }
  | takeSnapshot _ happlier hloop =>
    exact { h with
      log := hlog rfl rfl rfl, applier := le_rfl
      publish := fun c hc => by rw [hc] at hloop; cases hloop
      restore := fun c hc => by rw [hc] at hloop; cases hloop }
  | @compact index pos happlier hbase hlast hpos =>
    have hle : index ≤ n.lastApplied := h.within happlier
    exact { h with
      log := ⟨F, hF.compacted hbase hlast hpos rfl rfl rfl⟩
      applied := ⟨(compactionBase_le n index).trans hle, h.applied.2⟩
      applier := trivial
      publish := fun _ _ => rfl
      restore := fun c hc => ⟨rfl, (h.restore c hc).2⟩
      waiting := fun f hf => hF.holds (hF.compacted hbase hlast hpos rfl rfl rfl) hbase.le
        (fun _ => rfl) (h.waiting f hf) }
  | notifyCommit =>
    have := h.moveCommit le_rfl [] (fun _ _ he => he) fun _ he => he
    rwa [append_nil] at this
  | startPass hch happlier hloop =>
    exact { h with
      log := hlog rfl rfl rfl
      commitCh := fun k hk => h.commitCh k (by rw [hch]; exact .tail _ hk)
      applier := h.commitCh _ (by simp [hch])
      publish := fun c hc => by rw [hc] at hloop; cases hloop
      restore := fun c hc => by rw [hc] at hloop; cases hloop }
  | endPass =>
    exact { h with
      log := hlog rfl rfl rfl, applier := trivial, publish := fun _ _ => rfl
      restore := fun c hc => ⟨rfl, (h.restore c hc).2⟩ }
  | fetch happlier hlt hentry =>
    refine h.applying (by simp [happlier]) le_rfl h.applied.2 ?_ h.handed h.changed
      (fun _ hf => hf) _ _
    exact ⟨h.within happlier, hlt, h.next hentry⟩
  | @hand target unpersisted entry result happlier =>
    obtain ⟨htarget, hlt, hidx⟩ := h.within happlier
    refine h.applying (by simp [happlier]) le_rfl h.applied.2 ?_ (fun hw e r he => ?_)
      (fun hw e he => h.changed hw e (by simpa using he)) (fun _ hf => hf) _ _
    · exact ⟨htarget, hlt, hidx⟩
    · rw [mem_append, mem_singleton, Obs.handed.injEq] at he
      rcases he with he | ⟨rfl, -⟩
      · exact h.handed hw e r he
      · omega
  | @applyChange target unpersisted entry e ws removed happlier =>
    obtain ⟨htarget, hlt, hidx⟩ := h.within happlier
    have hok : Applier.Within n.lastApplied n.commitIndex
      (.ran target unpersisted entry .ok : Applier NodeId Cmd) := ⟨htarget, hlt, hidx⟩
    have hchanged : whole → ∀ e, .changed e ∈ n.trace ++ [.changed entry] →
        e.index ≤ n.commitIndex := by
      intro hw e he
      rw [mem_append, mem_singleton, Obs.changed.injEq] at he
      rcases he with he | rfl
      · exact h.changed hw e he
      · omega
    have hn := h.applying (by simp [happlier]) le_rfl h.applied.2 hok
      (fun hw e r he => h.handed hw e r (by simpa using he)) hchanged (fun _ hf =>
        hf) n.resolved n.journal
    obtain ⟨F', hF'⟩ := hn.log
    exact { hn with log := ⟨F', hF'.of_same rfl⟩ }
  | advance happlier | skip happlier =>
    obtain ⟨htarget, hlt, hidx⟩ := h.within happlier
    refine h.applying (by simp [happlier]) (Nat.le_succ _) (hlt.trans_le htarget) ?_
      h.handed h.changed
      (fun _ hf => hf) _ _
    exact ⟨htarget, hidx⟩
  | failed happlier =>
    obtain ⟨htarget, hlt, hidx⟩ := h.within happlier
    refine h.applying (by simp [happlier]) le_rfl h.applied.2 ?_ h.handed h.changed
      (fun _ hf => hf) _ _
    exact hidx.le.trans (hlt.trans_le htarget)
  | notifyApplied _ happlier | notifySkipped happlier =>
    refine h.applying (by simp [happlier]) le_rfl h.applied.2 ?_ h.handed h.changed
      (fun _ hf => n.mem_notifyApply hf) _ _
    exact (h.within happlier).1
  | notifyFailed happlier =>
    refine h.applying (by simp [happlier]) le_rfl h.applied.2 ?_ h.handed h.changed
      (fun _ hf => n.mem_notifyApply hf) _ _
    trivial
  | fail =>
    exact { h with
      log := hlog rfl rfl rfl
      waiting := fun f hf => h.waiting f (n.mem_failPendingFutures.mp hf).1 }
  | submit cmd =>
    refine { h with log := hlog rfl rfl rfl, queued := fun f hf => ?_ }
    rcases mem_append.mp hf with hf | hf
    · exact h.queued f hf
    · exact ⟨cmd, by rw [mem_singleton.mp hf]⟩
  | refuse err hch =>
    exact { h with
      log := hlog rfl rfl rfl
      queued := fun f hf => h.queued f (by rw [hch]; exact .tail _ hf) }
  | @appendCommand f₀ rest hch =>
    obtain ⟨c, hc⟩ := h.queued f₀ (by simp [hch])
    obtain ⟨hlong, hold, hnew⟩ := h.append
      ⟨n.lastLogIndex + 1, n.currentTerm, (f₀.command.map .command).getD .noOp⟩ rfl hF
    refine { h with
      log := ⟨_, hlong.of_same rfl⟩
      queued := fun f hf => h.queued f (by rw [hch]; exact .tail _ hf)
      waiting := fun f hf => ?_ }
    rcases mem_append.mp hf with hf | hf
    · exact hold f (mem_filter.mp hf).1
    · rw [mem_singleton.mp hf]
      refine hnew _ ⟨rfl, rfl, ?_⟩
      simp [hc]
  | propose =>
    obtain ⟨hlong, hold, hnew⟩ := h.append
      ⟨n.lastLogIndex + 1, n.currentTerm, .membershipChange _⟩ rfl hF
    refine { h with
      log := ⟨_, hlong.of_same rfl⟩
      waiting := fun f hf => ?_ }
    rcases mem_append.mp hf with hf | hf
    · exact hold f (mem_filter.mp hf).1
    · rw [mem_singleton.mp hf]
      exact hnew _ ⟨rfl, rfl, _, rfl⟩
  | restore | replay => exact absurd rfl hl
  | _ => exact { h with log := hlog rfl rfl rfl }

end Steps

end Anubis.Raft
