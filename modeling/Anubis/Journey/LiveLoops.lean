import Anubis.Common.Runs
import Mathlib.Data.Int.Notation
import Mathlib.Data.List.Basic
import Mathlib.Logic.Function.Basic

/-!
# One loop for a journey

The executor registers the run of a journey under its ID. The loop of a run ends when its
context is done, and takes away its own registration. `Assign` keeps a registered run whose
fingerprint is right, also one whose context is done: when the loop of that one ends, the
journey has none.
-/

namespace Anubis.Journey

open Option Function

variable {Def Hash : Type}

/-- What `Assign` reads of a journey, and the rest of its definition. -/
structure JourneyConfig (Def : Type) where
  id : String
  enabled : Bool
  steps : ℕ
  weight : ℤ
  rest : Def
  deriving DecidableEq

def JourneyConfig.runnable (j : JourneyConfig Def) : Bool :=
  j.id ≠ "" && j.enabled && j.steps ≠ 0 && 0 < j.weight

/-- A run: the context it was started under, and whether it was cancelled and its loop has ended. -/
structure JourneyRun (Def : Type) where
  journey : JourneyConfig Def
  ctx : ℕ
  cancelled : Bool := false
  exited : Bool := false

/-- The entry of `running` for an ID, and all runs that were ever started under it. -/
structure Slot (Def : Type) where
  running : Option ℕ := none
  runs : List (JourneyRun Def) := []

namespace Slot

/-- `startLocked`, where no run is registered. -/
def start (s : Slot Def) (ctx : ℕ) (j : JourneyConfig Def) : Slot Def :=
  if s.running.isSome then s else ⟨some s.runs.length, s.runs ++ [{ journey := j, ctx }]⟩

def stop (s : Slot Def) : Slot Def :=
  match s.running with
  | some k => ⟨none, s.runs.modify k fun r => { r with cancelled := true }⟩
  | none => s

def removeRun (s : Slot Def) (k : ℕ) : Slot Def :=
  ⟨if s.running = some k then none else s.running, s.runs.modify k fun r =>
    { r with exited := true }⟩

/-- What `Assign` does under an ID, given the journey that is wanted there. -/
def assign [DecidableEq Hash] (fingerprint : JourneyConfig Def → Hash) (s : Slot Def) (ctx : ℕ) :
    Option (JourneyConfig Def) → Slot Def
  | none => s.stop
  | some j =>
    if (s.running.bind (s.runs[·]?)).any fun r => fingerprint r.journey = fingerprint j then s
    else s.stop.start ctx j

end Slot

/-- The executor, and the contexts that are done. -/
structure Executor (Def : Type) where
  slots : String → Slot Def := fun _ => {}
  done : List ℕ := []

/-- A call of the executor, the end of a context, or the end of a loop. -/
inductive Event (Def : Type)
  | start (ctx : ℕ) (j : JourneyConfig Def)
  | assign (ctx : ℕ) (js : List (JourneyConfig Def))
  | stop (id : String)
  | stopAll
  | cancel (ctx : ℕ)
  | exit (id : String) (k : ℕ)

/-- The journey of the list that is wanted under an ID: the last one. -/
def want (js : List (JourneyConfig Def)) (id : String) : Option (JourneyConfig Def) :=
  (js.filter fun j => j.runnable && j.id = id).getLast?

variable [DecidableEq Hash]

def Executor.assign (fingerprint : JourneyConfig Def → Hash) (s : Executor Def) (ctx : ℕ)
    (js : List (JourneyConfig Def)) : Executor Def :=
  { s with slots := fun id => (s.slots id).assign fingerprint ctx (want js id) }

def step (fingerprint : JourneyConfig Def → Hash) (s : Executor Def) : Event Def →
    Option (Executor Def)
  | .start ctx j =>
    some (if j.weight ≤ 0 then s
      else { s with slots := update s.slots j.id ((s.slots j.id).start ctx j) })
  | .assign ctx js => some (s.assign fingerprint ctx js)
  | .stop id => some { s with slots := update s.slots id (s.slots id).stop }
  | .stopAll => some { s with slots := fun id => (s.slots id).stop }
  | .cancel ctx => some { s with done := ctx :: s.done }
  | .exit id k =>
    if ((s.slots id).runs[k]?).any fun r => !r.exited && (r.cancelled || r.ctx ∈ s.done) then
      some { s with slots := update s.slots id ((s.slots id).removeRun k) }
    else none

variable {fingerprint : JourneyConfig Def → Hash} {x : Slot Def} {s s' : Executor Def} {ctx k : ℕ}
  {j : JourneyConfig Def} {js : List (JourneyConfig Def)} {U : ℕ → Prop}

/-! ## One ID -/

/-- The registered run is the one that was not cancelled and whose loop has not ended. -/
def Slot.Ok (x : Slot Def) : Prop :=
  ∀ k, x.running = some k ↔ (x.runs[k]?).any (fun r => !r.cancelled && !r.exited) = true

theorem Slot.Ok.start (h : x.Ok) : (x.start ctx j).Ok := by
  intro k
  have := h k
  grind [Slot.start]

theorem Slot.Ok.stop (h : x.Ok) : x.stop.Ok := by
  intro k
  have := h k
  grind [Slot.stop]

theorem Slot.Ok.removeRun (h : x.Ok) : (x.removeRun k).Ok := by
  intro k'
  have := h k'
  grind [Slot.removeRun]

theorem Slot.Ok.assign (h : x.Ok) (w : Option (JourneyConfig Def)) :
    (x.assign fingerprint ctx w).Ok := by
  unfold Slot.assign
  split
  · exact h.stop
  · split
    · exact h
    · exact h.stop.start

/-- A run of the journey is registered, under one of some contexts. -/
def Slot.Held (x : Slot Def) (j : JourneyConfig Def) (U : ℕ → Prop) : Prop :=
  ∃ k r, x.running = some k ∧ x.runs[k]? = some r ∧ r.journey = j ∧ U r.ctx

/-- The context of a call, and that of a registered run of the journey, which the call keeps. -/
def Slot.Uses (x : Slot Def) (ctx : ℕ) (j : JourneyConfig Def) (c : ℕ) : Prop :=
  c = ctx ∨ ∃ k r, x.running = some k ∧ x.runs[k]? = some r ∧ r.journey = j ∧ r.ctx = c

theorem Slot.held_assign (hfp : Injective fingerprint) :
    (x.assign fingerprint ctx (some j)).Held j (x.Uses ctx j) := by
  rw [Slot.assign]
  split
  · next h =>
    rw [any_eq_true] at h
    obtain ⟨r, hr, heq⟩ := h
    obtain ⟨k, hk, hr⟩ := bind_eq_some_iff.mp hr
    have hj := hfp (of_decide_eq_true heq)
    exact ⟨k, r, hk, hr, hj, .inr ⟨k, r, hk, hr, hj, rfl⟩⟩
  · have hnone : x.stop.running = none := by grind [Slot.stop]
    exact ⟨x.stop.runs.length,
      { journey := j, ctx }, by simp [Slot.start, hnone], by simp [Slot.start, hnone],
      rfl, .inl rfl⟩

/-! ## Every run -/

namespace Executor

def Ok (s : Executor Def) : Prop := ∀ id, (s.slots id).Ok

theorem Ok.step (hok : s.Ok) {e : Event Def} (hs : step fingerprint s e = some s') : s'.Ok := by
  have hset : ∀ {id x}, x.Ok → ∀ id', (update s.slots id x id').Ok := fun hx =>
    (forall_update_iff s.slots fun _ x => Slot.Ok x).mpr ⟨hx, fun id _ => hok id⟩
  cases e with
  | start ctx j =>
    cases hs
    split
    · exact hok
    · exact hset (hok _).start
  | assign =>
    cases hs
    exact fun id => (hok id).assign _
  | stop =>
    cases hs
    exact hset (hok _).stop
  | stopAll =>
    cases hs
    exact fun id => (hok id).stop
  | cancel =>
    cases hs
    exact hok
  | exit =>
    obtain ⟨-, ⟨⟩⟩ := ite_none_right_eq_some.mp hs
    exact hset (hok _).removeRun

end Executor

/-- Until the next `Assign`, `Stop` or `StopAll`, and without the end of one of some contexts. -/
def Event.Quiet (U : ℕ → Prop) : Event Def → Prop
  | .start .. | .exit .. => True
  | .cancel c => ¬ U c
  | _ => False

/-- **One step** leaves a registered run whose context goes on. -/
theorem Slot.Held.step (h : (s.slots j.id).Held j U) (hok : s.Ok) (hU : ∀ c, U c → c ∉ s.done)
    {e : Event Def} (he : e.Quiet U) (hs : step fingerprint s e = some s') :
    (s'.slots j.id).Held j U ∧ ∀ c, U c → c ∉ s'.done := by
  have ⟨k, r, hk, hr, hj, hu⟩ := h
  cases e with
  | start ctx i =>
    cases hs
    split
    · exact ⟨h, hU⟩
    · refine ⟨?_, hU⟩
      dsimp only
      rw [update_apply]
      split
      · next hid => rwa [← hid, Slot.start, if_pos (by simp [hk])]
      · exact h
  | cancel c =>
    cases hs
    exact ⟨h, fun c' hc' => by grind [Event.Quiet]⟩
  | exit id k' =>
    obtain ⟨hend, ⟨⟩⟩ := ite_none_right_eq_some.mp hs
    refine ⟨?_, hU⟩
    dsimp only
    rw [update_apply]
    split
    · next hid =>
      subst hid
      -- the loop that ends is another one
      have hne : k' ≠ k := by
        rintro rfl
        have := (hok j.id k').mp hk
        have := hU _ hu
        grind
      exact ⟨k, r, by simp [Slot.removeRun, hk, hne.symm], by simp [Slot.removeRun, hr, hne], hj,
        hu⟩
    · exact h
  | _ => exact he.elim

/-- The loop of a run goes on. -/
def Executor.Live (s : Executor Def) (id : String) (k : ℕ) (r : JourneyRun Def) : Prop :=
  (s.slots id).runs[k]? = some r ∧ r.cancelled = false ∧ r.exited = false ∧ r.ctx ∉ s.done

/-- **One live loop for a journey.** The only loop of an ID that goes on is the registered
one, and a loop that ends takes no other registration away. After an `Assign`, a journey that
is wanted has a loop with that definition until the next `Assign`, `Stop` or `StopAll`, as
long as neither the context of the call is done nor, where a run of that definition was
registered before, the context of that run. -/
theorem one_live_loop (hfp : Injective fingerprint)
    (h : Runs.Reachable (step fingerprint) (fun _ => True) {} s) :
    (∀ id k r, s.Live id k r → (s.slots id).running = some k) ∧
    (∀ id k s', step fingerprint s (.exit id k) = some s' →
      ∀ id' k', (s.slots id').running = some k' →
      (id', k') ≠ (id, k) → (s'.slots id').running = some k') ∧
    ∀ ctx js j, want js j.id = some j → (∀ c, (s.slots j.id).Uses ctx j c → c ∉ s.done) → ∀ s',
      Runs.Reachable (step fingerprint) (Event.Quiet ((s.slots j.id).Uses ctx j))
      (s.assign fingerprint ctx js) s' →
        ∃ k r, s'.Live j.id k r ∧ r.journey = j := by
  have hok : s.Ok := h.invariant (fun _ _ => by simp) fun _ _ _ _ hok _ hs => hok.step hs
  refine ⟨?_, fun id k s' hs id' k' hk' hne => ?_, fun ctx js j hw hU s' hs' => ?_⟩
  · rintro id k r ⟨hr, hc, he, -⟩
    exact (hok id k).mpr (by simp [hr, hc, he])
  · obtain ⟨-, ⟨⟩⟩ := ite_none_right_eq_some.mp hs
    grind [Slot.removeRun, update_apply]
  · have hheld : ((s.assign fingerprint ctx js).slots j.id).Held j ((s.slots j.id).Uses ctx j) := by
      simpa only [Executor.assign, hw] using Slot.held_assign hfp
    have hrest : s'.Ok ∧ (s'.slots j.id).Held j ((s.slots j.id).Uses ctx j) ∧
        ∀ c, (s.slots j.id).Uses ctx j c → c ∉ s'.done := by
      induction hs' with
      | init => exact ⟨hok.step (e := .assign ctx js) rfl, hheld, hU⟩
      | step _ he hs ih => exact ⟨ih.1.step hs, ih.2.1.step ih.1 ih.2.2 he hs⟩
    obtain ⟨hok', ⟨k, r, hk, hr, hj, hu⟩, hU'⟩ := hrest
    have := (hok' j.id k).mp hk
    refine ⟨k, r, ⟨hr, ?_, ?_, hU' _ hu⟩, hj⟩ <;> simp_all

/-- A journey under an ID. -/
def plainJourney : JourneyConfig Unit := ⟨"j", true, 1, 1, ()⟩

/-- **A journey without a loop.** The context of the registered run is done when
`Assign` keeps it. -/
theorem assign_keeps_cancelled : ∃ s, Runs.run (step id) {}
      [.start 1 plainJourney, .cancel 1, .assign 2 [plainJourney], .exit "j" 0] = some s ∧
    plainJourney.runnable = true ∧ 2 ∉ s.done ∧ ∀ k r, ¬ s.Live "j" k r := by
  refine ⟨_, rfl, rfl, by decide, ?_⟩
  rintro k r ⟨hr, -, he, -⟩
  cases k <;> cases hr
  cases he

/-- The journey with another definition. -/
def changedJourney : JourneyConfig Unit := { plainJourney with steps := 2 }

/-- **A definition is replaced.** The loop of the old one ends, the context it was started
under is done, and another call starts nothing: the loop of the new definition goes on. -/
theorem one_live_loop_replaced : ∃ s,
    Runs.run (step id) {} [.start 1 plainJourney, .assign 2 [changedJourney],
      .exit "j" 0, .cancel 1,
      .start 3 plainJourney] = some s ∧
    ∃ k r, s.Live "j" k r ∧ r.journey = changedJourney := by
  have hstart : Runs.Reachable (step id) (fun _ => True) {} _ :=
    .step (e := .start 1 plainJourney) .init trivial rfl
  refine ⟨_, rfl, (one_live_loop injective_id hstart).2.2 2 [changedJourney] changedJourney rfl ?_ _
    (.of_run .init ?_ (show Runs.run (step id) _ [.exit "j" 0, .cancel 1, .start 3 plainJourney] =
      _ from rfl))⟩
  · exact fun _ _ => by simp [plainJourney]
  · have hother : ¬ Slot.Uses ⟨some 0, [⟨plainJourney, 1, false, false⟩]⟩ 2 changedJourney 1 := by
      rintro (h | ⟨k, r, ⟨⟩, ⟨⟩, h, -⟩) <;> cases h
    exact List.forall_mem_cons.mpr
      ⟨trivial, List.forall_mem_cons.mpr ⟨hother, by simp [Event.Quiet]⟩⟩

end Anubis.Journey
