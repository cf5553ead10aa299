import Anubis.Raft.Helpers.Paths

/-!
# What an install leaves alone

The buffer of a snapshot being received is touched by `handleInstallSnapshot`
and nothing else, and while that is running a follower's indexes do not move:
it answers no other RPC, and `applyMu` is held.
-/

namespace Anubis.Raft

variable {NodeId Cmd : Type} [LinearOrder NodeId] {S : Setup NodeId} {s : Cluster NodeId Cmd}
  {n m k : Node NodeId Cmd} {net out : List (Msg NodeId Cmd)} {now : ℕ} {v : NodeId}

/-- **A change that no install is part of.** -/
structure Keeps (n m : Node NodeId Cmd) : Prop where
  incoming : m.incomingSnapshot = n.incomingSnapshot
  loop : n.loop.isInstalling = true ∨ m.loop.isInstalling = true → m.loop = n.loop
  held : n.loop.isInstalling = true → n.state ≠ .leader → n.applier = .idle →
    m.state ≠ .leader ∧ m.applier = .idle ∧ m.commitIndex = n.commitIndex ∧
    m.lastApplied = n.lastApplied

namespace Keeps

omit [LinearOrder NodeId]

theorem refl (n : Node NodeId Cmd) : Keeps n n :=
    ⟨rfl, fun _ => rfl, fun _ h h' => ⟨h, h', rfl, rfl⟩⟩

theorem of_same (hincoming : m.incomingSnapshot = n.incomingSnapshot) (hloop : m.loop = n.loop)
    (hstate : m.state = .leader → n.state = .leader) (happlier : m.applier = n.applier)
    (hcommit : m.commitIndex = n.commitIndex) (happlied : m.lastApplied = n.lastApplied) :
    Keeps n m :=
  ⟨hincoming, fun _ => hloop, fun _ h h' =>
    ⟨fun h'' => h (hstate h''), happlier.trans h', hcommit, happlied⟩⟩

theorem of_leader (hstate : n.state = .leader) (hincoming : m.incomingSnapshot = n.incomingSnapshot)
    (hloop : m.loop = n.loop) : Keeps n m :=
  ⟨hincoming, fun _ => hloop, fun _ h => absurd hstate h⟩

theorem of_applier (happlier : n.applier ≠ .idle)
    (hincoming : m.incomingSnapshot = n.incomingSnapshot) (hloop : m.loop = n.loop) : Keeps n m :=
  ⟨hincoming, fun _ => hloop, fun _ _ h => absurd h happlier⟩

theorem of_idle (hloop : n.loop.isInstalling = false)
    (hincoming : m.incomingSnapshot = n.incomingSnapshot)
    (hloop' : m.loop.isInstalling = false) : Keeps n m :=
  ⟨hincoming, fun h => by simp [hloop, hloop'] at h, fun h => by simp [hloop] at h⟩

theorem trans (h : Keeps n m) (h' : Keeps m k) : Keeps n k where
  incoming := h'.incoming.trans h.incoming
  loop hnk := by
    rcases hnk with hn | hk
    · have hm := h.loop (.inl hn)
      exact (h'.loop (.inl (hm ▸ hn))).trans hm
    · have hkm := h'.loop (.inr hk)
      exact hkm.trans (h.loop (.inr (hkm ▸ hk)))
  held hn hstate happlier := by
    have hm := h.loop (.inl hn)
    obtain ⟨hstate', happlier', hcommit, happlied⟩ := h.held hn hstate happlier
    obtain ⟨hstate'', happlier'', hcommit', happlied'⟩ := h'.held (hm ▸ hn) hstate' happlier'
    exact ⟨hstate'', happlier'', hcommit'.trans hcommit, happlied'.trans happlied⟩

end Keeps

omit [LinearOrder NodeId] in
theorem keeps_becomeFollower {ok : Bool} {term : ℕ} (h : n.becomeFollower ok now term = some m) :
    Keeps n m := by
  cases ok with
  | false => cases h
  | true =>
    simp only [Node.becomeFollower, Node.persistHardState, Option.some.injEq, if_true] at h
    subst h
    split <;> exact .of_same rfl rfl (fun h => by cases h) rfl rfl rfl

/-! ## Every event -/

/-- The changes that no install and no restart is made of. -/
def Label.Apart (l : Label) : Prop := l ≠ .receive ∧ l ≠ .install ∧ l ≠ .restart

theorem Micro.keeps {l : Label} (hm : Micro S net now v n l m out) (hl : l.Apart) : Keeps n m := by
  cases hm with
  | newTerm | stepDown => exact .of_same rfl rfl (by simp) rfl rfl rfl
  | preVote hloop _ _ | countPreVote hloop | countVote hloop _ _ _ | standFailed hloop
  | stand _ hloop _
  | leadFailed hloop | lead hloop => exact .of_idle (by rw [hloop]; rfl) rfl rfl
  | idle hloop => exact .of_idle hloop rfl rfl
  | accept _ hidle =>
    have hinst : n.loop.isInstalling = false := by rw [hidle]; rfl
    refine .of_idle hinst ?_ ?_
    · exact acceptAppend_induct (P := fun k => k.incomingSnapshot = n.incomingSnapshot) rfl
        (fun _ => id) (fun _ => id) id id fun _ h _ => h
    · exact acceptAppend_induct (P := fun k => k.loop.isInstalling = false) hinst (fun _ => id)
        (fun _ => id) id id fun _ h _ => h
  | commit hstate | appendCommand _ hstate | propose _ hstate => exact .of_leader hstate rfl rfl
  | takeSnapshot _ _ hloop | startPass _ _ hloop => exact .of_idle hloop rfl hloop
  | endPass => exact ⟨rfl, fun _ => rfl, fun _ h _ => ⟨h, rfl, rfl, rfl⟩⟩
  | compact happlier _ _ _ | fetch happlier _ _ | hand happlier _ | applyChange _ happlier _ _
  | advance happlier
  | skip happlier | failed happlier | notifyApplied _ happlier | notifySkipped happlier
  | notifyFailed happlier =>
    exact .of_applier (by simp [happlier]) rfl rfl
  | incoming | publish | recheck => exact absurd rfl hl.1
  | abandon _ hreceive => exact (hreceive.elim hl.1 hl.2.1).elim
  | install => exact absurd rfl hl.2.1
  | restore | replay => exact absurd rfl hl.2.2
  | _ => exact .of_same rfl rfl (fun h => h) rfl rfl rfl

theorem Path.keeps {ok : Label → Prop} (h : Path S ok now v net n m out) (hok : ∀ l, ok l →
    l.Apart) : Keeps n m :=
  h.invariant (.refl n) fun hl hk hm => hk.trans (hm.keeps (hok _ hl))

/-- A restarted node receives nothing. -/
theorem incoming_restarted {okRestore : Bool} {ios : List ApplyIO}
    (h : S.restarted n okRestore ios = some m) :
    m.incomingSnapshot = none ∧ m.loop.isInstalling = false := by
  unfold Setup.restarted Node.start at h
  split at h
  · cases h
  · next m₀ hm =>
    have hstart : ((S.fresh n).restoreHardState n.disk).incomingSnapshot = none := by
      unfold Node.restoreHardState
      split <;> rfl
    have hpeers : ∀ {k : Node NodeId Cmd}, k.incomingSnapshot = none →
        (k.restorePeers n.disk).incomingSnapshot = none := by
      intro k hk
      unfold Node.restorePeers
      split <;> exact hk
    have hincoming : m₀.incomingSnapshot = none :=
      restore_induct (P := fun k => k.incomingSnapshot = none) hm hstart hpeers (fun h => h)
        (fun _ h => h) (fun _ _ h => h) (fun _ h => h) fun h => h
    have hloop : m₀.loop = .idle := (Kept.restore hm).loop.trans (restoreHardState_idle _).1
    split at h
    · cases h
      exact ⟨hincoming, by rw [hloop]; rfl⟩
    · dsimp only at h
      split at h
      · cases h
        -- the entries that are applied again
        have hp : Path S (Eq .plain) 0 n.nodeID [] _ _ [] :=
          path_applierSteps rfl ios { m₀ with applier := .pass m₀.commitIndex 0 }
        have hk := hp.keeps fun l hl => by simp [← hl, Label.Apart]
        refine ⟨hk.incoming.trans hincoming, Bool.eq_false_iff.mpr fun hinst => ?_⟩
        rw [hk.loop (.inr hinst)] at hinst
        rw [show m₀.loop.isInstalling = false by rw [hloop]; rfl] at hinst
        cases hinst
      · cases h

/-- **An event does not take part in an install, is a restart, or is a step of
`handleInstallSnapshot`.** -/
theorem Acts.receiving {e : Event NodeId Cmd} (h : Acts S s e v m out) :
    Keeps (s.nodes v) m ∨ (m.incomingSnapshot = none ∧ m.loop.isInstalling = false) ∨
      (∃ io c, .chunk v c ∈ s.net ∧ (s.nodes v).loop = .idle ∧ (s.nodes v).applier = .idle ∧
        m = ((s.nodes v).handleInstallSnapshot io s.now c).1) ∨
      (∃ c, (s.nodes v).loop = .publish c ∧ m = ((s.nodes v).recheckInstall c).1) ∨
      ∃ io c, (s.nodes v).loop = .restore c ∧
        m = ((s.nodes v).finishInstall io s.now c.request).1 := by
  by_cases hapart : e.label.Apart
  · refine .inl ((acts_path h).keeps fun l hl => ?_)
    rcases hl with rfl | rfl
    · simp [Label.Apart]
    · exact hapart
  · cases h with
    | handleChunk hmsg hidle happlier => exact .inr (.inr (.inl ⟨_, _, hmsg, hidle, happlier, rfl⟩))
    | recheckInstall h => exact .inr (.inr (.inr (.inl ⟨_, h, rfl⟩)))
    | finishInstall h => exact .inr (.inr (.inr (.inr ⟨_, _, h, rfl⟩)))
    | restart hm => exact .inr (.inl (incoming_restarted hm))
    | _ => exact absurd (by simp [Event.label, Label.Apart]) hapart

end Anubis.Raft
