import Anubis.Auth.Model.Guesses
import Mathlib.Logic.Relation

/-!
# The life of one source

What happens to the entry of one source in the table of failures, to the wrong
passwords that were compared for it, and to the one call for it that is under way.
Where each failure is recorded before the next call is let through, no window as long
as a lockout has more wrong passwords than `maxLoginAttempts`.
-/

namespace Anubis.Auth

open List Option AList Runs

/-- A source. -/
structure LoginSource where
  entry : Option LoginAttempt
  clock : ℤ
  /-- When wrong passwords were compared. -/
  times : List ℤ
  call : Option Stage

namespace LoginSource

/-- What happens to a source. -/
inductive Step : LoginSource → LoginSource → Prop
  | wait {v : LoginSource} {now : ℤ} (h : v.clock ≤ now) : Step v { v with clock := now }
  /-- A lock has run out. -/
  | unlock {v : LoginSource} {e : LoginAttempt} (he : v.entry = some e) (hlock : e.lockedUntil ≠ 0)
      (h : e.lockedUntil < v.clock) :
      Step v { v with entry := some { e with lockedUntil := 0, count := 0 } }
  /-- The entry is dropped from the table. -/
  | forget {v : LoginSource} {e : LoginAttempt} (he : v.entry = some e)
      (h : attemptResetWindow < v.clock - e.lastTry) : Step v { v with entry := none }
  | letThrough {v : LoginSource} (hcall : v.call = none)
      (h : ∀ e, v.entry = some e → e.lockedUntil = 0 ∨ e.lockedUntil ≤ v.clock) :
      Step v { v with call := some .checked }
  | compareWrong {v : LoginSource} (hcall : v.call = some .checked) :
      Step v { v with times := v.times ++ [v.clock], call := some .wrong }
  | compareRight {v : LoginSource} (hcall : v.call = some .checked) :
      Step v { v with call := some .right }
  | record {v : LoginSource} (hcall : v.call = some .wrong ∨ v.call = some .checked)
      (h : ∀ e, v.entry = some e → e.lockedUntil = 0 ∨ v.clock - e.lastTry ≤ attemptResetWindow) :
      Step v { v with entry := some ((v.entry.getD {}).fail v.clock), call := none }
  | leave {v : LoginSource} (hcall : v.call ≠ some .wrong) : Step v { v with call := none }
  /-- A login succeeds, a lockout or longer after the last failure. -/
  | clear {v : LoginSource} (hcall : v.call = some .right)
      (h : ∀ e, v.entry = some e → lockoutDuration ≤ v.clock - e.lastTry) :
      Step v { v with entry := none, call := none }

variable {v v' : LoginSource}

/-- The wrong passwords from a time on. -/
def since (v : LoginSource) (t : ℤ) : ℕ := v.times.countP fun x => t ≤ x

/-- The wrong passwords of a window. -/
def within (v : LoginSource) (t : ℤ) : ℕ := v.times.countP fun x => t ≤ x && x < t + lockoutDuration

/-- The failures that are not recorded yet. -/
def pending (v : LoginSource) : ℕ := if v.call = some .wrong then 1 else 0

/-- The entry knows of the wrong passwords that a window from now on can have. -/
structure Counted (v : LoginSource) (e : LoginAttempt) : Prop where
  past : e.lastTry ≤ v.clock
  later : ∀ t, e.lastTry < t → v.since t ≤ v.pending
  state : (e.lockedUntil = 0 ∧ e.count < maxLoginAttempts ∧ ∀ t, v.clock < t + lockoutDuration →
    v.since t ≤
    e.count + v.pending) ∨
    (e.lockedUntil ≠ 0 ∧ e.lockedUntil = e.lastTry + lockoutDuration ∧ maxLoginAttempts ≤ e.count)

/-- **What holds of every source.** -/
structure Ok (v : LoginSource) : Prop where
  started : 0 < v.clock
  past : ∀ t ∈ v.times, t ≤ v.clock
  bounded : ∀ t, v.within t ≤ maxLoginAttempts
  absent : v.entry = none → ∀ t, v.clock < t + lockoutDuration → v.since t ≤ v.pending
  counted : ∀ e, v.entry = some e → v.Counted e
  free : v.call ≠ none → ∀ e, v.entry = some e → e.lockedUntil = 0 ∨ e.lockedUntil ≤ v.clock

theorem since_eq_zero (h : ∀ t ∈ v.times, t ≤ v.clock) {t : ℤ} (ht : v.clock < t) :
    v.since t = 0 := by
  rw [since, countP_eq_zero]
  intro x hx
  have := h x hx
  simp only [decide_eq_true_eq]
  omega

theorem within_le_since (t : ℤ) : v.within t ≤ v.since t := by
  apply countP_mono_left
  intro x _ hx
  simp only [Bool.and_eq_true, decide_eq_true_eq] at hx ⊢
  exact hx.1

/-- A window that reaches past the clock has room for one more while a call is under
way that has not compared its password. -/
theorem Ok.room (hok : v.Ok) (hcall : v.call = some .checked) {t : ℤ}
    (ht : v.clock < t + lockoutDuration) : v.since t < maxLoginAttempts := by
  have hpending : v.pending = 0 := by simp [pending, hcall]
  have hmax : 0 < maxLoginAttempts := by decide
  cases hentry : v.entry with
  | none =>
    have := hok.absent hentry t ht
    omega
  | some e =>
    obtain ⟨hpast, hlater, ⟨-, hcount, hsince⟩ | ⟨hlock, hlocked, -⟩⟩ := hok.counted e hentry
    · have := hsince t ht
      omega
    · -- the lock has run out, so all that was compared is older than the window
      have hfree := (hok.free (by simp [hcall]) e hentry).resolve_left hlock
      have := hlater t (by omega)
      omega

theorem Ok.wait (hok : v.Ok) {now : ℤ} (h : v.clock ≤ now) : Ok { v with clock := now } := by
  refine ⟨Int.lt_of_lt_of_le hok.started h, fun t ht => Int.le_trans (hok.past t ht) h,
    hok.bounded, ?_, ?_, ?_⟩
  · intro hentry t ht
    exact hok.absent hentry t (h.trans_lt ht)
  · intro e hentry
    obtain ⟨hpast, hlater, hstate⟩ := hok.counted e hentry
    refine ⟨Int.le_trans hpast h, hlater,
      hstate.imp (fun ⟨hlock, hcount, hsince⟩ => ⟨hlock, hcount, ?_⟩) fun h => h⟩
    intro t ht
    exact hsince t (h.trans_lt ht)
  · intro hcall e hentry
    exact (hok.free hcall e hentry).imp (fun h => h) fun hle => Int.le_trans hle h

theorem Ok.compareWrong (hok : v.Ok) (hcall : v.call = some .checked) :
    Ok { v with times := v.times ++ [v.clock], call := some .wrong } := by
  have hpending : v.pending = 0 := by simp [pending, hcall]
  have hnew : ∀ t, since { v with times := v.times ++ [v.clock], call := some .wrong } t ≤
    v.since t + 1 := by
    intro t
    simp only [since, countP_append]
    have : countP (fun x => decide (t ≤ x)) [v.clock] ≤ 1 := countP_le_length
    omega
  have hpending' : pending { v with times := v.times ++ [v.clock], call := some .wrong } = 1 := rfl
  refine ⟨hok.started, ?_, fun t => ?_, ?_, ?_, ?_⟩
  · intro t ht
    rcases mem_append.mp ht with ht | ht
    · exact hok.past t ht
    · exact Int.le_of_eq (mem_singleton.mp ht)
  · by_cases hin : t ≤ v.clock ∧ v.clock < t + lockoutDuration
    · have hroom := hok.room hcall hin.2
      exact Nat.le_trans (within_le_since t) (Nat.le_trans (hnew t) hroom)
    · have hout : within { v with times := v.times ++ [v.clock], call := some .wrong } t =
        v.within t := by
        simp only [within, countP_append]
        have : countP (fun x => decide (t ≤ x) && decide (x < t + lockoutDuration))
          [v.clock] = 0 := by
          rw [countP_eq_zero]
          intro x hx
          rw [mem_singleton.mp hx]
          simpa using hin
        omega
      rw [hout]
      exact hok.bounded t
  · intro hentry t ht
    have := hok.absent hentry t ht
    have := hnew t
    omega
  · intro e hentry
    obtain ⟨hpast, hlater, hstate⟩ := hok.counted e hentry
    refine ⟨hpast, fun t ht => ?_,
      hstate.imp (fun ⟨hlock, hcount, hsince⟩ => ⟨hlock, hcount, fun t ht => ?_⟩) fun h => h⟩
    · have := hlater t ht
      have := hnew t
      omega
    · have := hsince t ht
      have := hnew t
      omega
  · intro _ e hentry
    exact hok.free (by simp [hcall]) e hentry

/-- A failure is counted, and locks the source if it is the last that is allowed. -/
theorem Ok.counted_fail (hok : v.Ok)
    (h : ∀ e, v.entry = some e → e.lockedUntil = 0 ∨ v.clock - e.lastTry ≤ attemptResetWindow) :
    Counted { v with entry := some ((v.entry.getD {}).fail v.clock), call := none }
      ((v.entry.getD {}).fail v.clock) := by
  have hdurations : 0 < lockoutDuration ∧ lockoutDuration ≤ attemptResetWindow := by decide
  have hpending : v.pending ≤ 1 := by
    unfold pending
    split <;> omega
  refine ⟨le_rfl, fun t ht => ?_, ?_⟩
  · exact Nat.le_trans (Nat.le_of_eq (since_eq_zero hok.past ht)) (Nat.zero_le _)
  · by_cases hmax : maxLoginAttempts ≤ ((v.entry.getD {}).fail v.clock).count
    · have hlock : ((v.entry.getD {}).fail v.clock).lockedUntil = v.clock + lockoutDuration :=
        if_pos hmax
      have := hok.started
      exact .inr ⟨by omega, hlock, hmax⟩
    · have hlock : ((v.entry.getD {}).fail v.clock).lockedUntil = (v.entry.getD {}).lockedUntil :=
        if_neg hmax
      have hcount : ((v.entry.getD {}).fail v.clock).count =
        (if attemptResetWindow < v.clock - (v.entry.getD {}).lastTry then 0 else
          (v.entry.getD {}).count) + 1 := rfl
      refine .inl ⟨hlock.trans ?_, Nat.lt_of_not_le hmax, fun t ht => ?_⟩
      · cases hentry : v.entry with
        | none => rfl
        | some e =>
          -- a lock that is still noted goes with a full count, which is kept
          refine (h e hentry).elim (fun h => h) fun hrecent => ?_
          obtain ⟨-, -, ⟨hlock, -⟩ | ⟨-, -, hfull⟩⟩ := hok.counted e hentry
          · exact hlock
          · rw [hcount, hentry] at hmax
            simp only [getD_some] at hmax
            rw [if_neg (by omega)] at hmax
            omega
      · rw [hcount]
        change v.since t ≤ _ + 0
        cases hentry : v.entry with
        | none =>
          have := hok.absent hentry t ht
          omega
        | some e =>
          simp only [getD_some]
          obtain ⟨-, hlater, hstate⟩ := hok.counted e hentry
          split
          · have := hlater t (by change v.clock < _ at ht; omega)
            omega
          · rcases hstate with ⟨-, -, hsince⟩ | ⟨-, -, hfull⟩
            · have := hsince t ht
              omega
            · rw [hcount, hentry] at hmax
              simp only [getD_some] at hmax
              rw [if_neg (by assumption)] at hmax
              omega

/-- The call goes on without a failure that is not recorded. -/
theorem Ok.call (hok : v.Ok) {call : Option Stage}
    (hpending : pending { v with call := call } = v.pending)
    (hfree : call ≠ none → ∀ e, v.entry = some e → e.lockedUntil = 0 ∨ e.lockedUntil ≤ v.clock) :
    Ok { v with call := call } := by
  refine ⟨hok.started, hok.past, hok.bounded, fun hentry t ht => ?_, fun e hentry => ?_, hfree⟩
  · rw [hpending]
    exact hok.absent hentry t ht
  · obtain ⟨hpast, hlater, hstate⟩ := hok.counted e hentry
    rw [← hpending] at hlater hstate
    exact ⟨hpast, hlater, hstate⟩

theorem Ok.step (hok : v.Ok) (h : Step v v') : v'.Ok := by
  cases h with
  | wait h => exact hok.wait h
  | @unlock e he hlock =>
    refine ⟨hok.started, hok.past, hok.bounded, nofun, fun e' he' => ?_, fun hcall e' he' => ?_⟩
    · cases he'
      obtain ⟨hpast, hlater, ⟨hzero, -⟩ | ⟨-, hlocked, -⟩⟩ := hok.counted e he
      · exact absurd hzero hlock
      · refine ⟨hpast, hlater, .inl ⟨rfl, show 0 < maxLoginAttempts by decide, fun t ht => ?_⟩⟩
        have := hlater t (by change v.clock < _ at ht; omega)
        change v.since t ≤ 0 + v.pending
        omega
    · cases he'
      exact .inl rfl
  | @forget e he =>
    refine ⟨hok.started, hok.past, hok.bounded, fun _ t ht => ?_, nofun, nofun⟩
    have hdurations : lockoutDuration ≤ attemptResetWindow := by decide
    exact (hok.counted e he).later t (by change v.clock < _ at ht; omega)
  | letThrough hcall h =>
    exact hok.call (by simp [pending, hcall]) fun _ => h
  | compareWrong hcall => exact hok.compareWrong hcall
  | compareRight hcall =>
    exact hok.call (by simp [pending, hcall]) fun _ => hok.free (by simp [hcall])
  | record _ h =>
    refine ⟨hok.started, hok.past, hok.bounded, nofun, fun e hentry => ?_, fun hnone =>
      absurd rfl hnone⟩
    cases hentry
    exact hok.counted_fail h
  | leave hcall =>
    exact hok.call (by simp [pending, hcall]) fun hnone => absurd rfl hnone
  | clear hcall h =>
    refine ⟨hok.started, hok.past, hok.bounded, fun _ t ht => ?_, nofun, nofun⟩
    have hpending : v.pending = 0 := by simp [pending, hcall]
    change v.since t ≤ 0
    cases hentry : v.entry with
    | none => exact hpending ▸ hok.absent hentry t ht
    | some e =>
      have := h e hentry
      exact hpending ▸ (hok.counted e hentry).later t (by change v.clock < _ at ht; omega)

end LoginSource

end Anubis.Auth
