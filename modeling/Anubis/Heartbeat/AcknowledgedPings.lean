import Anubis.Common.Runs
import Anubis.Heartbeat.Model.Pings

/-!
# Acknowledged pings

A proposal sets the whole record, and nothing compares it with what was committed
since the record was read: the set of a slower node, of a node whose clock is behind,
or of a start ping that was folded into an old record takes the place of a newer ping.
Where successes and failures are committed in the order in which they were received,
and none between the read of a start ping and its commit, every acknowledged ping is
kept.
-/

namespace Anubis.Heartbeat

open List AList Runs Option

namespace Cluster

variable {c c' : Cluster} {e : Event}

/-- The condition on a commit: a success or a failure is committed after those that were
received earlier or at the same time, and a start ping before any other success or
failure than those that were applied where it was read. -/
def meets (c : Cluster) : Event → Bool
  | .commit call =>
    match c.calls.lookup call with
    | some x =>
      if x.ping.event = .start then (c.pings.drop x.readAt).all fun p => p.event = .start
      else c.pings.all fun p => p.event = .start || p.receivedAt ≤ x.ping.receivedAt
    | none => true
  | _ => true

/-- The record knows of no ping, or has the time, the kind and the message of one
that was received. -/
def FromPing (c : Cluster) (v : HeartbeatState) : Prop :=
  v.lastPingAt = 0 ∨ ∃ id x, c.calls.lookup id = some x ∧ x.ping.event ≠ .start ∧
    v.lastPingAt = x.ping.receivedAt ∧
    v.lastEvent = some x.ping.event ∧ v.lastMessage = x.ping.recorded

/-- **What holds of every cluster** whose commits meet the condition. -/
structure Ok (c : Cluster) : Prop where
  received : ∀ id x, c.calls.lookup id = some x → 0 < x.ping.receivedAt
  reads : ∀ id x, c.calls.lookup id = some x → c.FromPing x.read
  logged : ∀ v ∈ c.log, c.FromPing v
  committed : ∀ id x p, c.calls.lookup id = some x → x.committed = some p →
    c.log[p]? = some x.proposed
  returned : ∀ id x, c.calls.lookup id = some x → x.returned = some true → x.committed.isSome
  ordered : c.log.Pairwise fun v w => v.lastPingAt ≤ w.lastPingAt

/-! ## What is proposed -/

theorem lastPingAt_apply (s : HeartbeatState) (p : Ping) (node : String) :
    (s.apply p node).lastPingAt = if p.event = .start then s.lastPingAt else p.receivedAt := by
  unfold HeartbeatState.apply
  cases p.event <;> rfl

/-- A call proposes the ping of its own or, for a start ping, the one it has read. -/
theorem FromPing.proposed {id : ℕ} {x : Call} (hx : c.calls.lookup id = some x)
    (hread : c.FromPing x.read) : c.FromPing x.proposed := by
  unfold Call.proposed HeartbeatState.apply
  cases hev : x.ping.event with
  | start => exact hread
  | success | fail => exact .inr ⟨id, x, hx, by simp [hev], rfl, by simp [hev], rfl⟩

theorem fromPing_stateAt (h : ∀ v ∈ c.log, c.FromPing v) (n : ℕ) : c.FromPing (c.stateAt n) := by
  unfold stateAt
  cases hlast : (c.log.take n).getLast? with
  | none => exact .inl rfl
  | some v => exact h v (mem_of_mem_take (mem_of_getLast? hlast))

/-- The replicated record is the newest of the log. -/
theorem le_replicated (h : c.log.Pairwise fun v w => v.lastPingAt ≤ w.lastPingAt)
    {v : HeartbeatState} (hv : v ∈ c.log) : v.lastPingAt ≤ c.replicated.lastPingAt := by
  obtain ⟨l, w, hl⟩ := eq_nil_or_concat c.log |>.resolve_left (ne_nil_of_mem hv)
  have hlast : c.replicated = w := by
    rw [replicated, stateAt, take_length, hl]
    simp
  rw [hl, concat_eq_append, pairwise_append] at h
  rw [hl, concat_eq_append, mem_append, mem_singleton] at hv
  rw [hlast]
  rcases hv with hv | rfl
  · exact h.2.2 v hv w (mem_singleton_self w)
  · exact Int.le_refl _

/-! ## What is read -/

/-- When the last success or failure of a list was received. -/
def reported (l : List Ping) :
    ℤ := ((l.filter fun p => p.event ≠ .start).getLast?.map Ping.receivedAt).getD 0

theorem reported_append {l m : List Ping} (h : m.all (fun p => p.event = .start) = true) :
    reported (l ++ m) = reported l := by
  have hnone : m.filter (fun p => p.event ≠ .start) = [] := by
    rw [filter_eq_nil_iff]
    intro p hp
    simpa using List.all_eq_true.mp h p hp
  rw [reported, filter_append, hnone, append_nil]
  rfl

theorem reported_concat {l : List Ping} {p : Ping} (h : p.event ≠ .start) :
    reported (l ++ [p]) = p.receivedAt := by
  simp [reported, filter_append, h]

theorem reported_le {l : List Ping} {t : ℤ} (ht : 0 ≤ t) (h : ∀ p ∈ l, p.event = .start ∨
    p.receivedAt ≤ t) :
    reported l ≤ t := by
  unfold reported
  cases hlast : (l.filter fun p => p.event ≠ .start).getLast? with
  | none => exact ht
  | some p =>
    obtain ⟨hmem, hevent⟩ := mem_filter.mp (mem_of_getLast? hlast)
    exact (h p hmem).resolve_left (of_decide_eq_true hevent)

/-- **Every state has the time of the last success or failure before it**, where commits
meet the condition, and so has every read. -/
structure Told (c : Cluster) : Prop where
  length : c.pings.length = c.log.length
  applied : ∀ node, c.appliedBy node ≤ c.log.length
  states : ∀ n, (c.stateAt n).lastPingAt = reported (c.pings.take n)
  reads : ∀ id x, c.calls.lookup id = some x →
    x.readAt ≤ c.pings.length ∧ x.read.lastPingAt = reported (c.pings.take x.readAt)

theorem Told.replicated (h : c.Told) : c.replicated.lastPingAt = reported c.pings := by
  rw [Cluster.replicated, h.states, ← h.length, take_length]

/-- What is proposed is the last success or failure. -/
theorem Told.proposed (h : c.Told) {call : ℕ} {x : Call} (hx : c.calls.lookup call = some x)
    (hmeets : c.meets (.commit call) = true) :
    x.proposed.lastPingAt = reported (c.pings ++ [x.ping]) := by
  simp only [meets, hx] at hmeets
  rw [Call.proposed, lastPingAt_apply]
  split at hmeets
  · next hstart =>
    rw [if_pos hstart, (h.reads call x hx).2, reported_append (by simp [hstart])]
    conv_rhs => rw [← take_append_drop x.readAt c.pings]
    exact (reported_append hmeets).symm
  · next hreport => rw [if_neg hreport, reported_concat hreport]

/-- **No commit takes the record back.** -/
theorem Told.le_proposed (h : c.Told) {call : ℕ} {x : Call} (hx : c.calls.lookup call = some x)
    (hreceived : 0 < x.ping.receivedAt) (hmeets : c.meets (.commit call) = true) :
    c.replicated.lastPingAt ≤ x.proposed.lastPingAt := by
  rw [h.replicated, h.proposed hx hmeets]
  simp only [meets, hx] at hmeets
  split at hmeets
  · next hstart => exact Int.le_of_eq (reported_append (by simp [hstart])).symm
  · next hreport =>
    rw [reported_concat hreport]
    exact reported_le (Int.le_of_lt hreceived) fun p hp => by
      simpa using List.all_eq_true.mp hmeets p hp

theorem Told.step (h : c.Told) (hmeets : c.meets e = true) (hs : c.step e = some c') : c'.Told := by
  cases e with
  | receive call node ping =>
    simp only [Cluster.step] at hs
    split at hs
    · cases hs
      refine ⟨h.length, h.applied, h.states, fun id x hx => ?_⟩
      obtain ⟨-, rfl⟩ | ⟨-, hx⟩ := lookup_insert_eq_some.mp hx
      · exact ⟨h.length ▸ h.applied node, h.states _⟩
      · exact h.reads id x hx
    · cases hs
  | commit call =>
    simp only [Cluster.step] at hs
    split at hs
    · next x hx =>
      cases hs
      have hreads : ∀ y : Call, y.readAt ≤ c.pings.length ∧
        y.read.lastPingAt = reported (c.pings.take y.readAt) →
          y.readAt ≤ (c.pings ++ [x.ping]).length ∧
            y.read.lastPingAt = reported ((c.pings ++ [x.ping]).take y.readAt) := by
        rintro y ⟨hle, hy⟩
        rw [take_append_of_le_length hle, length_append]
        exact ⟨hle.trans (Nat.le_add_right _ _), hy⟩
      refine ⟨by simp [h.length], fun node => (h.applied node).trans (by simp), fun n => ?_,
        fun id y hy => ?_⟩
      · unfold stateAt
        dsimp only
        rcases Nat.lt_or_ge c.log.length n with hlt | hle
        · have hlength : ∀ {α : Type} (l : List α) (a : α), l.length = c.log.length →
            (l ++ [a]).take n = l ++ [a] := by
            intro α l a hl
            exact take_of_length_le (by rw [length_append, length_singleton]; omega)
          rw [hlength _ _ rfl, hlength _ _ h.length, getLast?_concat, getD_some]
          exact h.proposed hx hmeets
        · rw [take_append_of_le_length hle, take_append_of_le_length (h.length ▸ hle)]
          exact h.states n
      · obtain ⟨-, rfl⟩ | ⟨-, hy⟩ := lookup_insert_eq_some.mp hy
        · exact hreads _ (h.reads call x hx)
        · exact hreads _ (h.reads id y hy)
    · cases hs
  | apply node =>
    simp only [Cluster.step] at hs
    split at hs
    · next hlt =>
      cases hs
      refine ⟨h.length, fun node' => ?_, h.states, h.reads⟩
      unfold appliedBy
      dsimp only
      rw [lookup_insert_if]
      split
      · exact hlt
      · exact h.applied node'
    · cases hs
  | finish call =>
    simp only [Cluster.step] at hs
    split at hs
    · next x hx =>
      split at hs
      · cases hs
        refine ⟨h.length, h.applied, h.states, fun id y hy => ?_⟩
        obtain ⟨-, rfl⟩ | ⟨-, hy⟩ := lookup_insert_eq_some.mp hy
        · exact h.reads call x hx
        · exact h.reads id y hy
      · cases hs
    · cases hs

/-! ## One step -/

/-- Calls keep their pings, so what is of a ping stays so. -/
theorem FromPing.mono {v : HeartbeatState} (h : c.FromPing v)
    (hcalls : ∀ id x, c.calls.lookup id = some x → ∃ x', c'.calls.lookup id = some x' ∧
      x'.ping = x.ping) :
    c'.FromPing v := by
  rcases h with hzero | ⟨id, x, hx, hevent, hat, hkind, hmessage⟩
  · exact .inl hzero
  · obtain ⟨x', hx', hping⟩ := hcalls id x hx
    rw [← hping] at hevent hat hkind hmessage
    exact .inr ⟨id, x', hx', hevent, hat, hkind, hmessage⟩

/-- A call is changed in what has become of it only. -/
theorem Ok.update (hok : c.Ok) {call : ℕ} {x y : Call} (hx : c.calls.lookup call = some x)
    (hcalls : c'.calls = c.calls.insert call y) (hping : y.ping = x.ping) (hread : y.read = x.read)
    (hnode : y.node = x.node) {l : List HeartbeatState} (hlog : c'.log = c.log ++ l)
    (hl : ∀ v ∈ l, c.FromPing v)
    (hcommitted : ∀ p, y.committed = some p → c'.log[p]? = some x.proposed)
    (hreturned : y.returned = some true → y.committed.isSome)
    (hordered : c'.log.Pairwise fun v w => v.lastPingAt ≤ w.lastPingAt) : c'.Ok := by
  have hkept : ∀ id z, c.calls.lookup id = some z → ∃ z', c'.calls.lookup id = some z' ∧
    z'.ping = z.ping := by
    intro id z hz
    rw [hcalls, lookup_insert_if]
    split
    · next heq =>
      rw [heq, hx] at hz
      exact ⟨y, rfl, hping.trans (congrArg _ (some.inj hz))⟩
    · exact ⟨z, hz, rfl⟩
  -- every call is the changed one or as before
  have hcases : ∀ {P : Call → Prop}, (∀ id z, c.calls.lookup id = some z → P z) → (P x → P y) →
      ∀ id z, c'.calls.lookup id = some z → P z := by
    intro P hold hnew id z hz
    rw [hcalls, lookup_insert_eq_some] at hz
    obtain ⟨-, rfl⟩ | ⟨-, hz⟩ := hz
    · exact hnew (hold call x hx)
    · exact hold id z hz
  have hproposed : y.proposed = x.proposed := by
    rw [Call.proposed, Call.proposed, hread, hping, hnode]
  refine ⟨hcases hok.received fun h => hping ▸ h,
    hcases (fun id z hz => (hok.reads id z hz).mono hkept) fun h => hread ▸ h,
    fun v hv => ?_, fun id z p hz hp => ?_, fun id z hz hz' => ?_, hordered⟩
  · rw [hlog, mem_append] at hv
    exact (hv.elim (hok.logged v) (hl v)).mono hkept
  · rw [hcalls, lookup_insert_eq_some] at hz
    obtain ⟨-, rfl⟩ | ⟨-, hz⟩ := hz
    · rw [hcommitted p hp, hproposed]
    · have hold := hok.committed id z p hz hp
      rw [hlog, getElem?_append_left (List.getElem?_eq_some_iff.mp hold).1, hold]
  · rw [hcalls, lookup_insert_eq_some] at hz
    obtain ⟨-, rfl⟩ | ⟨-, hz⟩ := hz
    · exact hreturned hz'
    · exact hok.returned id z hz hz'

theorem Ok.receive (hok : c.Ok) {call : ℕ} {node : String} {ping : Ping}
    (h : c.step (.receive call node ping) = some c') : c'.Ok := by
  simp only [step] at h
  split at h
  · next hguard =>
    obtain ⟨-, hnone, hpos⟩ := hguard
    rw [isNone_iff_eq_none] at hnone
    cases h
    have hlookup : ∀ id z, (c.calls.insert call (c.received node ping)).lookup id = some z →
        z = c.received node ping ∨ c.calls.lookup id = some z := by
      intro id z hz
      exact (lookup_insert_eq_some.mp hz).imp And.right And.right
    have hkept : ∀ id z, c.calls.lookup id = some z →
        ∃ z', (c.calls.insert call (c.received node ping)).lookup id = some z' ∧
          z'.ping = z.ping := by
      intro id z hz
      rw [lookup_insert_if, if_neg]
      · exact ⟨z, hz, rfl⟩
      · rintro rfl
        rw [hnone] at hz
        cases hz
    refine ⟨fun id z hz => ?_, fun id z hz => ?_, fun v hv => (hok.logged v hv).mono hkept,
      fun id z p hz hp => ?_,
      fun id z hz hz' => ?_, hok.ordered⟩
    · rcases hlookup id z hz with rfl | hz
      · exact hpos
      · exact hok.received id z hz
    · rcases hlookup id z hz with rfl | hz
      · exact (fromPing_stateAt hok.logged _).mono hkept
      · exact (hok.reads id z hz).mono hkept
    · rcases hlookup id z hz with rfl | hz
      · cases hp
      · exact hok.committed id z p hz hp
    · rcases hlookup id z hz with rfl | hz
      · cases hz'
      · exact hok.returned id z hz hz'
  · cases h

theorem Ok.commit (hok : c.Ok) (htold : c.Told) {call : ℕ} (hmeets : c.meets (.commit call) = true)
    (h : c.step (.commit call) = some c') : c'.Ok := by
  simp only [step] at h
  split at h
  · next x hx =>
    cases h
    refine hok.update hx rfl rfl rfl rfl (l := [x.proposed]) rfl ?_ ?_ ?_ ?_
    · intro v hv
      rw [mem_singleton.mp hv]
      exact .proposed hx (hok.reads call x hx)
    · intro p hp
      cases hcom : x.committed with
      | none =>
        rw [hcom] at hp
        cases hp
        exact getElem?_concat_length
      | some =>
        rw [hcom] at hp
        cases hp
        have hold := hok.committed call x _ hx hcom
        exact (getElem?_append_left (List.getElem?_eq_some_iff.mp hold).1).trans hold
    · intro _
      cases x.committed <;> rfl
    · rw [pairwise_append]
      refine ⟨hok.ordered, pairwise_singleton _ _, fun v hv w hw => ?_⟩
      rw [mem_singleton.mp hw]
      exact Int.le_trans (le_replicated hok.ordered hv)
        (htold.le_proposed hx (hok.received call x hx) hmeets)
  · cases h

theorem Ok.step (hok : c.Ok) (htold : c.Told) (hmeets : c.meets e = true) (h : c.step e = some c') :
    c'.Ok := by
  cases e with
  | receive => exact hok.receive h
  | commit => exact hok.commit htold hmeets h
  | apply =>
    simp only [Cluster.step] at h
    split at h
    · cases h
      exact ⟨hok.received, hok.reads, hok.logged, hok.committed, hok.returned, hok.ordered⟩
    · cases h
  | finish call =>
    simp only [Cluster.step] at h
    split at h
    · next x hx =>
      split at h
      · next hguard =>
        cases h
        refine hok.update hx rfl rfl rfl rfl (l := []) (append_nil _).symm nofun
          (fun p hp => hok.committed call x p hx hp) ?_ hok.ordered
        exact fun hret => hguard.2 (some.inj hret)
      · cases h
    · cases h

/-! ## Every run -/

/-- The steps that meet the condition. -/
def careful : Cluster → Event → Option Cluster := restrict (fun c e => c.meets e = true) step

theorem empty_ok (soulID workspaceID : String) : (empty soulID workspaceID).Ok := by
  refine ⟨?_, ?_, ?_, ?_, ?_, List.Pairwise.nil⟩ <;> intros <;> simp_all [empty]

theorem empty_told (soulID workspaceID : String) : (empty soulID workspaceID).Told :=
  ⟨rfl, fun _ => Nat.le_refl 0, fun n => by simp [stateAt, empty, reported],
    fun _ _ hx => by cases hx⟩

theorem Ok.run {soulID workspaceID : String}
    (h : Reachable careful (fun _ => True) (empty soulID workspaceID) c) : c.Ok := by
  have hboth : c.Ok ∧ c.Told := by
    induction h with
    | init => exact ⟨empty_ok soulID workspaceID, empty_told soulID workspaceID⟩
    | step _ _ hs ih =>
      obtain ⟨hmeets, hstep⟩ := restrict_eq_some.mp hs
      exact ⟨ih.1.step ih.2 hmeets hstep, ih.2.step hmeets hstep⟩
  exact hboth.1

/-- **Acknowledged pings are kept**: in every run of calls on any nodes in which successes
and failures are committed in the order of their times, and none between the read of a
start ping and its commit, once a success or failure that was received
at a time is acknowledged, the record has at every later position of the log a last
ping that is not before that time, and the kind and the message of a ping that was
received not before it. -/
theorem acknowledged_kept {soulID workspaceID : String}
    (h : Reachable careful (fun _ => True) (empty soulID workspaceID) c) {id : ℕ} {x : Call}
    (hx : c.calls.lookup id = some x) (hevent : x.ping.event ≠ .start)
    (hacked : x.returned = some true) :
    ∃ p, x.committed = some p ∧ c.log[p]? = some x.proposed ∧ ∀ q v, p ≤ q → c.log[q]? = some v →
      x.ping.receivedAt ≤ v.lastPingAt ∧
      ∃ id' x', c.calls.lookup id' = some x' ∧ x'.ping.event ≠ .start ∧
        x.ping.receivedAt ≤ x'.ping.receivedAt ∧
        v.lastPingAt = x'.ping.receivedAt ∧ v.lastEvent = some x'.ping.event ∧
        v.lastMessage = x'.ping.recorded := by
  have hok := Ok.run h
  obtain ⟨p, hp⟩ := isSome_iff_exists.mp (hok.returned id x hx hacked)
  have hat := hok.committed id x p hx hp
  have hown : x.proposed.lastPingAt = x.ping.receivedAt := by
    rw [Call.proposed, lastPingAt_apply, if_neg hevent]
  refine ⟨p, hp, hat, fun q v hpq hq => ?_⟩
  have hle : x.ping.receivedAt ≤ v.lastPingAt := by
    rw [← hown]
    obtain ⟨hpl, hpv⟩ := List.getElem?_eq_some_iff.mp hat
    obtain ⟨hql, hqv⟩ := List.getElem?_eq_some_iff.mp hq
    rcases Nat.lt_or_eq_of_le hpq with hlt | rfl
    · rw [← hpv, ← hqv]
      exact pairwise_iff_getElem.mp hok.ordered p q hpl hql hlt
    · exact Int.le_of_eq (congrArg HeartbeatState.lastPingAt (hpv.symm.trans hqv))
  refine ⟨hle, ?_⟩
  rcases hok.logged v (mem_of_getElem? hq) with hzero | ⟨id', x', hx', hevent', hat',
    hkind, hmessage⟩
  · have := hok.received id x hx
    omega
  · exact ⟨id', x', hx', hevent', hat' ▸ hle, hat', hkind, hmessage⟩

/-- A success on one node, after it a start on another that has seen it, and a failure
on a third that has not. -/
def twoReports : List Event :=
  [.receive 0 "a" ⟨.success, 5, [], ""⟩, .commit 0, .finish 0 true, .apply "b",
    .receive 1 "b" ⟨.start, 6, [], ""⟩,
    .commit 1, .finish 1 true, .receive 2 "c" ⟨.fail, 7, [], ""⟩, .commit 2, .finish 2 true]

theorem acknowledged_kept_twoReports :
    ∃ c x p, Runs.run careful (empty "s" "default") twoReports = some c ∧
    c.calls.lookup 0 = some x ∧ x.committed = some p ∧ ∀ q v, p ≤ q → c.log[q]? = some v →
      x.ping.receivedAt ≤ v.lastPingAt := by
  have hevaluated : ((Runs.run careful (empty "s" "default") twoReports).any fun c =>
      (c.calls.lookup 0).any fun x => x.ping.event ≠ .start && x.returned = some true) = true := by
    decide +kernel
  obtain ⟨c, hrun, hc⟩ := exists_of_any hevaluated
  obtain ⟨x, hx, hp⟩ := (Option.any_eq_true _ _).mp hc
  simp only [Bool.and_eq_true, decide_eq_true_eq] at hp
  obtain ⟨p, hcommitted, -, hkept⟩ :=
    acknowledged_kept (.of_run .init (fun _ _ => trivial) hrun) hx hp.1 hp.2
  exact ⟨c, x, p, hrun, hx, hcommitted, fun q v hpq hq => (hkept q v hpq hq).1⟩

/-- **A ping is lost**: a success is acknowledged, and then the set of a start ping is
committed that another node had received before it saw the success. -/
theorem acknowledged_lost :
    ((Runs.run step (empty "s" "default")
      [.receive 0 "b" ⟨.start, 4, [], ""⟩, .receive 1 "a" ⟨.success, 5, [], ""⟩, .commit 1,
        .finish 1 true,
        .commit 0]).any fun c =>
      ((c.calls.lookup 1).any fun x => x.ping.receivedAt = 5 && x.returned = some true &&
        x.committed = some 0) &&
        (c.log[1]?).any fun v => v.lastPingAt = 0 && v.lastEvent = none) = true := by
  decide +kernel

end Cluster

end Anubis.Heartbeat
