import Mathlib.Data.Nat.Notation

/-!
# Runs of an event-driven system

A system takes events one at a time; an event that cannot happen in a state
has no successor. Runs are restricted by a predicate on events, so that one
system serves several fault models.
-/

namespace Runs

variable {σ ε : Type}
variable {meets : σ → ε → Prop} {s s' : σ}

/-- **States a run of allowed events ends in.** -/
inductive Reachable (step : σ → ε → Option σ) (allowed : ε → Prop) (init : σ) : σ → Prop
  | init : Reachable step allowed init init
  | step {s s' : σ} {e : ε} (h : Reachable step allowed init s) (ha : allowed e)
      (hs : step s e = some s') : Reachable step allowed init s'

variable {step : σ → ε → Option σ} {allowed : ε → Prop} {init : σ} {e : ε}

/-- **Invariants**: what holds at the start and is kept by every allowed step
from a reachable state holds in every reachable state. -/
theorem Reachable.invariant {Inv : σ → Prop} (h0 : Inv init)
    (hstep : ∀ s e s', Reachable step allowed init s → Inv s → allowed e → step s e = some s' →
      Inv s') {s : σ} (h : Reachable step allowed init s) : Inv s := by
  induction h with
  | init => exact h0
  | step hr ha hs ih => exact hstep _ _ _ hr ih ha hs

/-- **On the way to `s` a step was taken that satisfies `P`.** -/
def Happened (step : σ → ε → Option σ) (allowed : ε → Prop) (init : σ) (P : σ → σ → Prop) (s : σ) :
    Prop :=
  ∃ s₀ e s₁, Reachable step allowed init s₀ ∧ allowed e ∧ step s₀ e = some s₁ ∧ P s₀ s₁ ∧
    Reachable step allowed s₁ s

theorem Happened.now {P : σ → σ → Prop} (h : Reachable step allowed init s) (ha : allowed e)
    (hs : step s e = some s') (hP : P s s') : Happened step allowed init P s' :=
  ⟨s, e, s', h, ha, hs, hP, .init⟩

/-- What happened has still happened a step later. -/
theorem Happened.later {P : σ → σ → Prop} (h : Happened step allowed init P s) (ha : allowed e)
    (hs : step s e = some s') : Happened step allowed init P s' := by
  obtain ⟨s₀, e₀, s₁, h₀, ha₀, hs₀, hP, h₁⟩ := h
  exact ⟨s₀, e₀, s₁, h₀, ha₀, hs₀, hP, .step h₁ ha hs⟩

/-- The steps that meet a condition on the state and the event. -/
def restrict (meets : σ → ε → Prop) [∀ s e, Decidable (meets s e)] (step : σ → ε → Option σ)
    (s : σ) (e : ε) : Option σ :=
  if meets s e then step s e else none

theorem restrict_eq_some [∀ s e, Decidable (meets s e)] :
    restrict meets step s e = some s' ↔ meets s e ∧ step s e = some s' := by
  simp [restrict]

/-- A run of steps that meet a condition is a run. -/
theorem Reachable.of_restrict [∀ s e, Decidable (meets s e)] {s : σ}
    (h : Reachable (restrict meets step) allowed init s) : Reachable step allowed init s := by
  induction h with
  | init => exact .init
  | step _ ha hs ih => exact .step ih ha (restrict_eq_some.mp hs).2

/-- The events one after another. -/
def run (step : σ → ε → Option σ) (s : σ) : List ε → Option σ
  | [] => some s
  | e :: es => (step s e).bind fun s' => run step s' es

/-- A computed run reaches its last state. -/
theorem Reachable.of_run {es : List ε} (h : Reachable step allowed init s)
    (ha : ∀ e ∈ es, allowed e) (hrun : run step s es = some s') :
    Reachable step allowed init s' := by
  induction es generalizing s with
  | nil =>
    simp only [run, Option.some.injEq] at hrun
    exact hrun ▸ h
  | cons e es ih =>
    simp only [run, Option.bind_eq_some_iff] at hrun
    obtain ⟨t, ht, hrest⟩ := hrun
    exact ih (.step h (ha e (by simp)) ht) (fun e' he' => ha e' (by simp [he'])) hrest

/-- A computed run ends in a state with the property that was evaluated. -/
theorem exists_of_any {es : List ε} {s : σ} {p : σ → Bool} (h : (run step s es).any p = true) :
    ∃ s', run step s es = some s' ∧ p s' = true := by
  cases hrun : run step s es with
  | none => simp [hrun] at h
  | some s' => exact ⟨s', rfl, by simpa [hrun] using h⟩

end Runs
