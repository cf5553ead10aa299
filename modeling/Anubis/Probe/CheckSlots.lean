import Anubis.Common.Runs
import Mathlib.Data.List.Basic

/-!
# The concurrency limit of the probe engine

A check sends to the engine's semaphore channel before it runs and receives from it
on its way out, and in between for every confirmation retry it waits for. What the
channel holds is then the number of checks that run, whatever their order.
-/

namespace Anubis.Probe

open List Runs

/-- Where a call of `judgeSoul` or `TriggerImmediate` stands. -/
inductive Line
  | entry
  | acquire (first : Bool)
  | dispatch
  | attempt
  | publish
  | release (again : Bool)
  | retryWait
  | returned
  deriving DecidableEq

/-- What a call meets at its line: `failed` is an attempt that failed on a live
context, with time for another one before the next scheduled check. -/
inductive Answer
  | go
  | ctxDone
  | unknownType
  | invalid
  | failed
  deriving DecidableEq

/-- A call, with its variables `held` and `attempts`, and how often it has sent to the
channel and received from it. A manual check is one without retries. -/
structure Check where
  line : Line
  retries : ℕ
  held : Bool := false
  attempts : ℕ := 0
  sent : ℕ := 0
  received : ℕ := 0

/-- One line of a call on a channel of length `semaphore`, where it does not block.
The capacity is `MaxConcurrentChecks`, or 100 where that is not positive. -/
def Check.step (cap semaphore : ℕ) (c : Check) (a : Answer) : Option (ℕ × Check) :=
  match c.line, a with
  | .entry, .go => some (semaphore, { c with line := .acquire true })
  | .entry, .ctxDone => some (semaphore, { c with line := .returned })
  | .acquire first, .go =>
    if semaphore < cap then
      some (semaphore + 1,
        { c with held := true, sent := c.sent + 1, line := if first then .dispatch else .attempt })
    else none
  -- the first `select` stands before `defer release()`, the second one after it
  | .acquire first, .ctxDone =>
    some (semaphore, { c with line := if first then .returned else .release false })
  | .dispatch, .go => some (semaphore, { c with line := .attempt })
  | .dispatch, .invalid => some (semaphore, { c with line := .publish })
  | .dispatch, .unknownType => some (semaphore, { c with line := .release false })
  | .attempt, a =>
    some (semaphore, { c with
      attempts := c.attempts + 1
      line := if c.attempts + 1 > c.retries ∨ a ≠ .failed then .publish else .release true })
  -- none of the returns from here on touches the channel
  | .publish, .go => some (semaphore, { c with line := .release false })
  | .release again, .go =>
    let line : Line := if again then .retryWait else .returned
    if c.held then
      if 0 < semaphore then
        some (semaphore - 1, { c with held := false, received := c.received + 1, line })
      else none
    else some (semaphore, { c with line })
  | .retryWait, .go => some (semaphore, { c with line := .acquire false })
  | .retryWait, .ctxDone => some (semaphore, { c with line := .release false })
  | _, _ => none

/-- The engine, with every call ever made. -/
structure Engine where
  semaphore : ℕ := 0
  checks : List Check := []

/-- A runner begins a check, a manual one is past its lookups, or a call goes on. -/
inductive Event
  | judgeSoul (retries : ℕ)
  | triggerImmediate
  | call (i : ℕ) (a : Answer)

def Engine.step (cap : ℕ) (e : Engine) : Event → Option Engine
  | .judgeSoul retries => some { e with checks := e.checks ++ [{ line := .entry, retries }] }
  | .triggerImmediate =>
    some { e with checks := e.checks ++ [{ line := .acquire true, retries := 0 }] }
  | .call i a => (e.checks[i]?).bind fun c =>
    (c.step cap e.semaphore a).map fun r => ⟨r.1, e.checks.set i r.2⟩

/-- The check runs, up to the moment it gives its slot back. -/
def Check.running (c : Check) : Bool :=
  match c.line with
  | .dispatch | .attempt | .publish => true
  | .release _ => c.held
  | _ => false

/-- The variable `held` is right, and the channel is used in turns. -/
structure Check.Ok (c : Check) : Prop where
  held : c.held = c.running
  turns : c.sent = c.received + c.running.toNat

variable {cap semaphore semaphore' : ℕ} {c c' : Check} {a : Answer} {e e' : Engine}

theorem Check.Ok.moved (hc : c.Ok) (hheld : c'.held = c.held) (hsent : c'.sent = c.sent)
    (hreceived : c'.received = c.received) (hrunning : c'.running = c.running) : c'.Ok :=
  ⟨by rw [hheld, hc.held, hrunning], by rw [hsent, hreceived, hc.turns, hrunning]⟩

/-- **One line** moves the channel's length as it moves the number of checks that run. -/
theorem Check.step_spec (h : c.step cap semaphore a = some (semaphore', c')) (hc : c.Ok)
    (hs : semaphore ≤ cap) :
    c'.Ok ∧ semaphore' + c.running.toNat = semaphore + c'.running.toNat ∧ semaphore' ≤ cap := by
  have hheld := hc.held
  have hturns := hc.turns
  have hmoved : ∀ {line attempts}, some (semaphore, { c with line, attempts }) =
      some (semaphore', c') → Check.running { c with line, attempts } = c.running →
        c'.Ok ∧ semaphore' + c.running.toNat = semaphore + c'.running.toNat ∧
          semaphore' ≤ cap := by
    rintro line attempts ⟨⟩ hrunning
    exact ⟨hc.moved rfl rfl rfl hrunning, by rw [hrunning], hs⟩
  unfold Check.step at h
  split at h
  · next hline => exact hmoved h (by simp [running, hline])
  · next hline => exact hmoved h (by simp [running, hline])
  · -- a slot is taken
    next first hline =>
    have hidle : c.running = false := by simp [running, hline]
    rw [hidle] at hturns ⊢
    split at h
    · next hroom =>
      cases h
      have hruns : Check.running { c with
          held := true, sent := c.sent + 1, line := if first then .dispatch else .attempt } =
          true := by
        cases first <;> rfl
      exact ⟨⟨hruns.symm, by rw [hruns, hturns]; rfl⟩, by rw [hruns]; rfl, hroom⟩
    · cases h
  · next first hline =>
    have hidle : c.held = false := by simp [hheld, running, hline]
    exact hmoved h (by cases first <;> simp [running, hline, hidle])
  · next hline => exact hmoved h (by simp [running, hline])
  · next hline => exact hmoved h (by simp [running, hline])
  · next hline =>
    have hruns : c.held = true := by simp [hheld, running, hline]
    exact hmoved h (by simp [running, hline, hruns])
  · next hline =>
    have hruns : c.held = true := by simp [hheld, running, hline]
    refine hmoved h ?_
    split <;> simp [running, hline, hruns]
  · next hline =>
    have hruns : c.held = true := by simp [hheld, running, hline]
    exact hmoved h (by simp [running, hline, hruns])
  · -- a slot is given back, if there is one to give
    next again hline =>
    have hruns : c.running = c.held := by simp [running, hline]
    have hends : ∀ held received, Check.running { c with
        held, received, line := if again then .retryWait else .returned } = false := by
      cases again <;> simp [running]
    dsimp only at h
    split at h
    · next hslot =>
      rw [hruns, hslot] at hturns ⊢
      split at h
      · next hpos =>
        cases h
        have hafter := hends false (c.received + 1)
        refine ⟨⟨hafter.symm, by rw [hafter, hturns]; rfl⟩, ?_, by omega⟩
        rw [hafter]
        simpa using Nat.sub_add_cancel hpos
      · cases h
    · next hslot =>
      exact hmoved h ((hends c.held c.received).trans (by simp [hruns, hslot]))
  · next hline => exact hmoved h (by simp [running, hline])
  · next hline =>
    have hidle : c.held = false := by simp [hheld, running, hline]
    exact hmoved h (by simp [running, hline, hidle])
  · cases h

/-- Replacing one entry changes a count by what the two entries count. -/
theorem countP_set_add {l : List Check} {i : ℕ} (h : l[i]? = some c) (p : Check → Bool)
    (c' : Check) : (l.set i c').countP p + (p c).toNat = l.countP p + (p c').toNat := by
  obtain ⟨hi, rfl⟩ := List.getElem?_eq_some_iff.mp h
  obtain ⟨l₁, l₂, hl, -, hset⟩ := exists_of_set hi
  rw [hset, congrArg (countP p) hl]
  cases hx : p l[i] <;> cases hc : p c' <;> simp [hx, hc] <;> omega

/-- What every reachable engine satisfies. -/
structure Engine.Ok (cap : ℕ) (e : Engine) : Prop where
  checks : ∀ c ∈ e.checks, c.Ok
  semaphore : e.semaphore = e.checks.countP Check.running
  le_cap : e.semaphore ≤ cap

/-- A call that begins has no slot. -/
theorem Engine.Ok.begin (h : e.Ok cap) (hc : c.Ok) (hr : c.running = false) :
    ({ e with checks := e.checks ++ [c] } : Engine).Ok cap where
  checks := by
    simp only [mem_append, mem_singleton]
    rintro x (hx | rfl)
    · exact h.checks x hx
    · exact hc
  semaphore := by simp [h.semaphore, hr]
  le_cap := h.le_cap

theorem Engine.Ok.step {ev : Event} (h : e.Ok cap) (hs : e.step cap ev = some e') : e'.Ok cap := by
  cases ev with
  | judgeSoul retries | triggerImmediate =>
    cases hs
    exact h.begin ⟨rfl, rfl⟩ rfl
  | call i a =>
    simp only [Engine.step, Option.bind_eq_some_iff, Option.map_eq_some_iff, Prod.exists] at hs
    obtain ⟨c, hi, s', c', hc, rfl⟩ := hs
    obtain ⟨hok, hsem, hle⟩ := Check.step_spec hc (h.checks c (mem_of_getElem? hi)) h.le_cap
    have := countP_set_add hi Check.running c'
    have := h.semaphore
    exact
      { checks := fun x hx => (mem_or_eq_of_mem_set hx).elim (h.checks x) fun heq => heq ▸ hok
        semaphore := by dsimp only; omega
        le_cap := hle }

/-- A call that runs finds its slot in the channel, so its release is not blocked. -/
theorem Engine.Ok.not_blocked (h : e.Ok cap) (hc : c ∈ e.checks) {again : Bool}
    (hl : c.line = .release again) : (c.step cap e.semaphore .go).isSome = true := by
  cases hd : c.held with
  | false => simp [Check.step, hl, hd]
  | true =>
    have hpos : 0 < e.semaphore :=
      h.semaphore ▸ countP_pos_iff.mpr ⟨c, hc, (h.checks c hc).held ▸ hd⟩
    simp [Check.step, hl, hd, hpos]

/-- **The limit holds and slots do not get lost.** In every interleaving at most
`MaxConcurrentChecks` checks run. A call has received from the channel as often as it
sent to it, or once less while it runs, which it does no more once it has returned,
and its release is never blocked. When no check runs, the channel is empty. -/
theorem running_le_maxConcurrentChecks (h : Reachable (Engine.step cap) (fun _ => True) {} e) :
    e.checks.countP Check.running ≤ cap ∧
    (∀ c ∈ e.checks, c.sent = c.received + c.running.toNat ∧
      (c.line = .returned → c.sent = c.received) ∧
      ∀ again, c.line = .release again → (c.step cap e.semaphore .go).isSome = true) ∧
    (e.checks.countP Check.running = 0 → cap - e.semaphore = cap) := by
  have hok : e.Ok cap := h.invariant ⟨by simp, rfl, Nat.zero_le _⟩ fun _ _ _ _ hi _ hs => hi.step hs
  refine ⟨hok.semaphore ▸ hok.le_cap,
    fun c hc => ⟨(hok.checks c hc).turns, fun hl => ?_, fun _ => hok.not_blocked hc⟩,
      fun hnone => ?_⟩
  · simpa [Check.running, hl] using (hok.checks c hc).turns
  · rw [hok.semaphore, hnone, Nat.sub_zero]

/-- At a limit of one, a manual check gets the slot while another one waits for its retry. -/
theorem running_le_one_of_retry : ∃ e, Reachable (Engine.step 1) (fun _ => True) {} e ∧
    (e.checks.map Check.line = [.acquire false, .dispatch]) ∧
    e.checks.countP Check.running ≤ 1 := by
  have hrun : (run (Engine.step 1) {} ([.judgeSoul 1, .triggerImmediate] ++
      [.go, .go, .go, .failed, .go, .go].map (Event.call 0) ++ [.call 1 .go])).any
        (fun e => e.checks.map Check.line = [.acquire false, .dispatch]) = true := by decide
  obtain ⟨e, he, hp⟩ := exists_of_any hrun
  have hr := Reachable.of_run .init (fun _ _ => trivial) he
  exact ⟨e, hr, by simpa using hp, (running_le_maxConcurrentChecks hr).1⟩

end Anubis.Probe
