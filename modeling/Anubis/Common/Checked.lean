import Mathlib.Init

/-!
# Checks before a change

A call that checks its request and may refuse it at every check. A successful
sequence of checks has passed each of them.
-/

namespace Checked

variable {ε α β : Type} {x : Except ε α}

/-- Refuses if a condition holds. -/
def refuseIf (c : Prop) [Decidable c] (e : ε) : Except ε Unit :=
  if c then .error e else .ok ()

/-- A check that is made only if a condition holds. -/
def whenever (c : Prop) [Decidable c] (check : Except ε Unit) : Except ε Unit :=
  if c then check else .ok ()

@[simp]
theorem bind_eq_ok {first : Except ε α} {next : α → Except ε β} {b : β} :
    first >>= next = .ok b ↔ ∃ a, first = .ok a ∧ next a = .ok b := by
  cases first with
  | error | ok => simp [bind, Except.bind]

/-- A check, and what follows it. -/
theorem then_eq_ok {check : Except ε Unit} {next : Except ε β} {b : β} :
    (check >>= fun _ => next) = .ok b ↔ check = .ok () ∧ next = .ok b := by
  rw [bind_eq_ok]
  exact ⟨fun ⟨_, h⟩ => h, fun h => ⟨(), h⟩⟩

@[simp]
theorem refuseIf_eq_ok {c : Prop} [Decidable c] {e : ε} {u : Unit} :
    refuseIf c e = .ok u ↔ ¬ c := by
  unfold refuseIf
  split <;> simp_all

@[simp]
theorem whenever_eq_ok {c : Prop} [Decidable c] {check : Except ε Unit} {u : Unit} :
    whenever c check = .ok u ↔ (c → check = .ok ()) := by
  unfold whenever
  split <;> simp_all

theorem toOption_eq_some {a : α} : x.toOption = some a ↔ x = .ok a := by
  cases x with
  | error => exact ⟨nofun, nofun⟩
  | ok => exact ⟨fun h => congrArg _ (Option.some.inj h), fun h => congrArg _ (Except.ok.inj h)⟩

theorem eq_ok_getD {d : α} (h : x.toOption.isSome = true) : x = .ok (x.toOption.getD d) := by
  obtain ⟨a, ha⟩ := Option.isSome_iff_exists.mp h
  rw [ha]
  exact toOption_eq_some.mp ha

end Checked
