import Anubis.Auth.Helpers.Sources

/-!
# The limit on guesses

A call is checked before it compares its password and counted after, so all calls that
are checked before the first failure is recorded are let through, however many they
are. And a login that succeeds starts the count anew. Where no call of a source is let
through while another is under way, every failure can be booked, and no login succeeds
less than a lockout after a failure, no window as long as a lockout has more wrong
passwords than `maxLoginAttempts`: each source goes through the life that `LoginSource`
describes.
-/

namespace Anubis.Auth

open List Option AList Runs

namespace Logins

open Relation

variable {S : Setup} {s s' : Logins} {k : String} {v : LoginSource} {e : Event}

/-- The condition on a step: a call is let through only if none of its source is under
way. A failure finds the account, and an entry or room for one; and if the lock of the
last failure is still noted, that failure is not older than `attemptResetWindow`. A
login succeeds a lockout or longer after the last failure of its source. -/
def meets (s : Logins) : Event → Bool
  | .check _ email clientIP _ now =>
    !(s.protection.checkBruteForceProtectionFrom (normalizeEmail email) clientIP now).2 ||
      (s.attempts.range 0).all fun e => e.2.key ≠ loginSourceKey (normalizeEmail email) clientIP
  | .record call known now =>
    match s.attempts.lookup call with
    | some x =>
      known &&
        match (s.protection.tableFor x.key now).lookup x.key with
        | some attempt => attempt.lockedUntil = 0 || now - attempt.lastTry ≤ attemptResetWindow
        | none => (s.protection.tableFor x.key now).keys.length < maxTrackedLoginSources
    | none => true
  | .succeed call _ now =>
    match s.attempts.lookup call with
    | some x =>
      (s.protection.loginAttempts.lookup x.key).all fun attempt =>
        lockoutDuration ≤ now - attempt.lastTry
    | none => true
  | _ => true

/-! ## The call of a source -/

/-- The source has no call under way, or one, which has come so far. -/
structure Tracked (attempts : Dict ℕ Attempt) (k : String) (call : Option Stage) : Prop where
  present : ∀ stage, call = some stage → ∃ c x, attempts.lookup c = some x ∧ x.key = k ∧
    x.stage = stage
  sole : ∀ c x, attempts.lookup c = some x → x.key = k →
    call = some x.stage ∧ ∀ c' x', attempts.lookup c' = some x' → x'.key = k → c' = c

section Tracked

variable {attempts attempts' : Dict ℕ Attempt} {call : Option Stage} {c : ℕ} {x y : Attempt}

namespace Tracked

variable (h : Tracked attempts k call)

include h

/-- The calls of other sources do not matter. -/
theorem congr
    (heq : ∀ c x, x.key = k → (attempts'.lookup c = some x ↔ attempts.lookup c = some x)) :
    Tracked attempts' k call := by
  refine ⟨fun stage hstage => ?_, fun c x hx hk => ?_⟩
  · obtain ⟨c, x, hx, hk, hs⟩ := h.present stage hstage
    exact ⟨c, x, (heq c x hk).mpr hx, hk, hs⟩
  · obtain ⟨hcall, hsole⟩ := h.sole c x ((heq c x hk).mp hx) hk
    exact ⟨hcall, fun c' x' hx' hk' => hsole c' x' ((heq c' x' hk').mp hx') hk'⟩

theorem erase (hx : attempts.lookup c = some x) (hk : x.key = k) :
    Tracked (attempts.erase c) k none := by
  refine ⟨nofun, fun c' x' hx' hk' => ?_⟩
  obtain ⟨hne, hx'⟩ := lookup_erase_eq_some.mp hx'
  exact absurd ((h.sole c x hx hk).2 c' x' hx' hk') hne

/-- Changing a call does not matter to another source. -/
theorem insert_of_ne (hne : y.key ≠ k)
    (hold : ∀ x, attempts.lookup c = some x → x.key ≠ k) :
    Tracked (attempts.insert c y) k call := by
  refine h.congr fun c' x' hk' => ?_
  rw [lookup_insert_eq_some]
  constructor
  · rintro (⟨-, rfl⟩ | ⟨-, hx'⟩)
    · exact absurd hk' hne
    · exact hx'
  · exact fun hx' => .inr ⟨fun heq => hold x' (heq ▸ hx') hk', hx'⟩

theorem erase_of_ne (hold : ∀ x, attempts.lookup c = some x → x.key ≠ k) :
    Tracked (attempts.erase c) k call := by
  refine h.congr fun c' x' hk' => ?_
  rw [lookup_erase_eq_some]
  exact and_iff_right_of_imp fun hx' heq => hold x' (heq ▸ hx') hk'

end Tracked

/-- The only call of its source. -/
theorem Tracked.insert (hold : ∀ c' x', attempts.lookup c' = some x' → x'.key = k → c' = c)
    (hy : y.key = k) : Tracked (attempts.insert c y) k (some y.stage) := by
  have hlookup : ∀ c' x', (attempts.insert c y).lookup c' = some x' → x'.key = k → c' = c ∧
    x' = y := by
    intro c' x' hx' hk'
    exact (lookup_insert_eq_some.mp hx').resolve_right fun h => h.1 (hold c' x' h.2 hk')
  refine ⟨fun stage hstage => ⟨c, y, lookup_insert _, hy, some.inj hstage⟩,
    fun c' x' hx' hk' => ?_⟩
  obtain ⟨rfl, rfl⟩ := hlookup c' x' hx' hk'
  exact ⟨rfl, fun c'' x'' hx'' hk'' => (hlookup c'' x'' hx'' hk'').1⟩

end Tracked

/-- The source as the program has it. -/
structure Follows (s : Logins) (k : String) (v : LoginSource) : Prop where
  entry : v.entry = s.protection.loginAttempts.lookup k
  clock : v.clock = s.clock
  times : v.times = (s.compared.filter fun e => e.1 = k).map Prod.snd
  tracked : Tracked s.attempts k v.call

/-- The source gets to where the program is. -/
abbrev Arrives (s : Logins) (k : String) (v : LoginSource) : Prop :=
  ∃ v', ReflTransGen LoginSource.Step v v' ∧ Follows s k v'

/-! ## What the functions do to an entry -/

variable {g : Protection} {email clientIP : String} {now : ℤ}

theorem lookup_check (hne : k ≠ loginSourceKey email clientIP) :
    (g.checkBruteForceProtectionFrom email clientIP now).1.loginAttempts.lookup k =
    g.loginAttempts.lookup k := by
  unfold Protection.checkBruteForceProtectionFrom Protection.unlock
  dsimp only
  split
  · rfl
  · split
    · split
      · exact lookup_insert_ne hne
      · rfl
    · rfl

/-- The check leaves the entry of its source, or takes off a lock that has run out. -/
theorem lookup_check_self (g : Protection) (email clientIP : String) (now : ℤ) :
    (g.checkBruteForceProtectionFrom email clientIP now).1.loginAttempts.lookup
    (loginSourceKey email clientIP) =
        g.loginAttempts.lookup (loginSourceKey email clientIP) ∨
      ∃ attempt, g.loginAttempts.lookup (loginSourceKey email clientIP) = some attempt ∧
        attempt.lockedUntil ≠ 0 ∧
        attempt.lockedUntil < now ∧
        (g.checkBruteForceProtectionFrom email clientIP now).1.loginAttempts.lookup
        (loginSourceKey email clientIP) =
          some { attempt with lockedUntil := 0, count := 0 } := by
  unfold Protection.checkBruteForceProtectionFrom Protection.unlock
  dsimp only
  split
  · exact .inl rfl
  · split
    · next attempt hattempt =>
      split
      · next hlock => exact .inr ⟨attempt, hattempt, hlock.1, hlock.2, lookup_insert _⟩
      · exact .inl rfl
    · exact .inl rfl

/-- What is let through is not locked. -/
theorem free_of_check (h : (g.checkBruteForceProtectionFrom email clientIP now).2 = true)
    {attempt : LoginAttempt}
    (hlookup : (g.checkBruteForceProtectionFrom email clientIP now).1.loginAttempts.lookup
      (loginSourceKey email clientIP) = some attempt) :
    attempt.lockedUntil = 0 ∨ attempt.lockedUntil ≤ now := by
  rcases lookup_check_self g email clientIP now with hsame | ⟨_, -, -, -, hnew⟩
  · rw [hsame] at hlookup
    simp only [Protection.checkBruteForceProtectionFrom] at h
    split at h
    · cases h
    · next hlocked =>
      simp only [Protection.locked, hlookup, any_some, Bool.and_eq_true, decide_eq_true_eq,
        not_and, not_lt,
        ne_eq] at hlocked
      by_cases hzero : attempt.lockedUntil = 0
      · exact .inl hzero
      · exact .inr (hlocked hzero)
  · rw [hnew] at hlookup
    cases hlookup
    exact .inl rfl

/-- The table for a failure has lost only entries that are too old to matter. -/
theorem lookup_tableFor : (g.tableFor email now).lookup k = g.loginAttempts.lookup k ∨
    k ≠ email ∧ ∃ attempt, g.loginAttempts.lookup k = some attempt ∧
    attemptResetWindow < now - attempt.lastTry ∧
      (g.tableFor email now).lookup k = none := by
  unfold Protection.tableFor Protection.pruneLoginAttemptsLocked
  split
  · next hfull =>
    rw [lookup_filter]
    cases hlookup : g.loginAttempts.lookup k with
    | none => exact .inl rfl
    | some attempt =>
      by_cases hold : attempt.lockedUntil < now ∧ attemptResetWindow < now - attempt.lastTry
      · refine .inr ⟨?_, attempt, rfl, hold.2, by simp [Option.filter, hold]⟩
        rintro rfl
        rw [hlookup] at hfull
        cases hfull.1
      · exact .inl (by simpa [Option.filter] using hold)
  · exact .inl rfl

theorem lookup_tableFor_self : (g.tableFor k now).lookup k = g.loginAttempts.lookup k :=
  lookup_tableFor.resolve_right fun h => h.1 rfl

/-- A failure of another source changes the table only. -/
theorem lookup_record_of_ne (hne : k ≠ loginSourceKey email clientIP) :
    (g.recordFailedAttemptFrom true email clientIP now).loginAttempts.lookup k =
      (g.tableFor (loginSourceKey email clientIP) now).lookup k := by
  simp only [Protection.recordFailedAttemptFrom, Bool.not_true, Bool.false_eq_true, if_false]
  split
  · exact lookup_insert_ne hne
  · split
    · exact lookup_insert_ne hne
    · rfl

/-- A failure that can be booked is. -/
theorem lookup_record_self (hroom : g.loginAttempts.lookup (loginSourceKey email clientIP) = none →
    (g.tableFor (loginSourceKey email clientIP) now).keys.length < maxTrackedLoginSources) :
    (g.recordFailedAttemptFrom true email clientIP now).loginAttempts.lookup
    (loginSourceKey email clientIP) =
      some (((g.loginAttempts.lookup (loginSourceKey email clientIP)).getD {}).fail now) := by
  simp only [Protection.recordFailedAttemptFrom, Bool.not_true, Bool.false_eq_true, if_false]
  rw [lookup_tableFor_self]
  split
  · next attempt hattempt => rw [lookup_insert, hattempt, getD_some]
  · next hnone => rw [if_pos (hroom hnone), lookup_insert, hnone, getD_none]

/-! ## One step -/

section

variable (hf : Follows s k v)

include hf

/-- A call is checked. -/
theorem Follows.check {call : ℕ} {email clientIP password : String} {now : ℤ}
    (hclock : s.clock = now) (hmeets : s.meets (.check call email clientIP password now) = true)
    (h : s.next S (.check call email clientIP password now) = some s') : Arrives s' k v := by
  generalize hemail : normalizeEmail email = addr at *
  simp only [next, hemail] at h
  split at h
  · cases h
  · next hfresh =>
    rw [not_isSome_iff_eq_none] at hfresh
    by_cases hk : k = loginSourceKey addr clientIP
    · subst hk
      -- the lock may be taken off first
      obtain ⟨u, hu, hentry, hrest⟩ : ∃ u, ReflTransGen LoginSource.Step v u ∧
          u.entry = (s.protection.checkBruteForceProtectionFrom addr clientIP
            now).1.loginAttempts.lookup
            (loginSourceKey addr clientIP) ∧ u.clock = v.clock ∧ u.times = v.times ∧
            u.call = v.call := by
        rcases lookup_check_self s.protection addr clientIP now with
          hsame | ⟨attempt, hattempt, hlock, hlater, hnew⟩
        · exact ⟨v, .refl, hf.entry.trans hsame.symm, rfl, rfl, rfl⟩
        · refine ⟨_, .single (.unlock (hf.entry.trans hattempt) hlock ?_), hnew.symm, rfl, rfl, rfl⟩
          rw [hf.clock, hclock]
          exact hlater
      obtain ⟨hc, ht, hcall⟩ := hrest
      split at h
      · next hthrough =>
        cases h
        have hnone : ∀ c x, s.attempts.lookup c = some x →
          x.key ≠ loginSourceKey addr clientIP := by
          intro c x hx
          simp only [meets, hemail, hthrough, Bool.not_true, Bool.false_or, List.all_eq_true,
            decide_eq_true_eq] at hmeets
          exact hmeets (c, x) (AList.mem_range.mpr hx)
        have hidle : u.call = none := by
          rw [hcall]
          cases hv : v.call with
          | none => rfl
          | some stage =>
            obtain ⟨c, x, hx, hxk, -⟩ := hf.tracked.present stage hv
            exact absurd hxk (hnone c x hx)
        refine ⟨_, hu.tail (.letThrough hidle fun attempt hattempt => ?_), hentry,
          hc.trans hf.clock, ht.trans hf.times,
          Tracked.insert (fun c' x' hx' hk' => absurd hk' (hnone c' x' hx')) rfl⟩
        rw [hc, hf.clock, hclock]
        exact free_of_check hthrough (hentry.symm.trans hattempt)
      · cases h
        exact ⟨u, hu, hentry, hc.trans hf.clock, ht.trans hf.times, hcall ▸ hf.tracked⟩
    · refine ⟨v, .refl, ?_⟩
      split at h
      · cases h
        exact ⟨hf.entry.trans (lookup_check hk).symm, hf.clock, hf.times,
          hf.tracked.insert_of_ne (fun heq => hk heq.symm) (by simp [hfresh])⟩
      · cases h
        exact ⟨hf.entry.trans (lookup_check hk).symm, hf.clock, hf.times, hf.tracked⟩

/-- A password is compared. -/
theorem Follows.compare {call : ℕ} {expectedHash : String} {now : ℤ} (hclock : s.clock = now)
    (h : s.next S (.compare call expectedHash now) = some s') : Arrives s' k v := by
  simp only [next] at h
  split at h
  · next x hx =>
    split at h
    · next hguard =>
      by_cases hk : x.key = k
      · obtain ⟨hcall, hsole⟩ := hf.tracked.sole call x hx hk
        rw [hguard.1] at hcall
        split at h <;> cases h
        · exact ⟨_, .single (.compareRight hcall), hf.entry, hf.clock, hf.times,
            Tracked.insert hsole hk⟩
        · refine ⟨_, .single (.compareWrong hcall), hf.entry, hf.clock, ?_, Tracked.insert hsole hk⟩
          simp [hf.times, hf.clock, hclock, filter_append, hk]
      · have hother : ∀ x', s.attempts.lookup call = some x' → x'.key ≠ k := by simp [hx, hk]
        refine ⟨v, .refl, ?_⟩
        split at h <;> cases h
        · exact ⟨hf.entry, hf.clock, hf.times, hf.tracked.insert_of_ne hk hother⟩
        · refine ⟨hf.entry, hf.clock, ?_, hf.tracked.insert_of_ne hk hother⟩
          simp [hf.times, filter_append, hk]
    · cases h
  · cases h

/-- A failure is recorded. -/
theorem Follows.record {call : ℕ} {known : Bool} {now : ℤ} (hclock : s.clock = now)
    (hmeets : s.meets (.record call known now) = true)
    (h : s.next S (.record call known now) = some s') : Arrives s' k v := by
  simp only [next] at h
  split at h
  · next x hx =>
    split at h
    · next hstage =>
      cases h
      simp only [meets, hx, Bool.and_eq_true] at hmeets
      obtain ⟨rfl, hbook⟩ := hmeets
      by_cases hk : x.key = k
      · obtain ⟨hcall, -⟩ := hf.tracked.sole call x hx hk
        rw [lookup_tableFor_self] at hbook
        have hentry : v.entry = s.protection.loginAttempts.lookup x.key := by rw [hf.entry, hk]
        refine ⟨_, .single (.record ?_ fun attempt hattempt => ?_), ?_, hf.clock, hf.times,
          hf.tracked.erase hx hk⟩
        · rw [hcall]
          exact hstage.imp (congrArg some) fun h => congrArg some h.1
        · rw [hf.clock, hclock]
          rw [hentry] at hattempt
          simpa [hattempt] using hbook
        · rw [hf.clock, hclock, hentry, ← hk]
          refine (lookup_record_self fun hnone => ?_).symm
          rw [show s.protection.loginAttempts.lookup x.key = none from hnone] at hbook
          exact of_decide_eq_true hbook
      · have hother := hf.tracked.erase_of_ne (c := call) (by simp [hx, hk])
        have hrecord : (s.protection.recordFailedAttemptFrom true x.email x.clientIP
          now).loginAttempts.lookup k =
          (s.protection.tableFor x.key now).lookup k := lookup_record_of_ne (Ne.symm hk)
        rcases lookup_tableFor (g := s.protection) (k := k) with
          hsame | ⟨-, attempt, hattempt, hold, hnone⟩
        · exact ⟨v, .refl, hf.entry.trans (hrecord.trans hsame).symm, hf.clock, hf.times, hother⟩
        · refine ⟨_, .single (.forget (hf.entry.trans hattempt) ?_), (hrecord.trans hnone).symm,
            hf.clock, hf.times, hother⟩
          rw [hf.clock, hclock]
          exact hold
    · cases h
  · cases h

/-- A call returns without a trace. -/
theorem Follows.leave {call : ℕ} (h : s.next S (.leave call) = some s') : Arrives s' k v := by
  simp only [next] at h
  split at h
  · next x hx =>
    split at h
    · cases h
    · next hstage =>
      cases h
      by_cases hk : x.key = k
      · obtain ⟨hcall, -⟩ := hf.tracked.sole call x hx hk
        refine ⟨_, .single (.leave ?_), hf.entry, hf.clock, hf.times, hf.tracked.erase hx hk⟩
        rw [hcall]
        exact fun heq => hstage (some.inj heq)
      · exact ⟨v, .refl, hf.entry, hf.clock, hf.times, hf.tracked.erase_of_ne (by simp [hx, hk])⟩
  · cases h

/-- A login succeeds. -/
theorem Follows.succeed {call begin : ℕ} {now : ℤ} (hclock : s.clock = now)
    (hmeets : s.meets (.succeed call begin now) = true)
    (h : s.next S (.succeed call begin now) = some s') : Arrives s' k v := by
  simp only [next] at h
  split at h
  · next x hx =>
    split at h
    · next hstage =>
      cases h
      have hlookup : (s.protection.clearFailedAttemptsFrom begin x.email x.clientIP
        now).loginAttempts.lookup k =
        if k = x.key then none else s.protection.loginAttempts.lookup k := lookup_erase_if
      by_cases hk : x.key = k
      · obtain ⟨hcall, -⟩ := hf.tracked.sole call x hx hk
        rw [hstage] at hcall
        refine ⟨_, .single (.clear hcall fun attempt hattempt => ?_), ?_, hf.clock, hf.times,
          hf.tracked.erase hx hk⟩
        · rw [hf.entry, ← hk] at hattempt
          rw [hf.clock, hclock]
          simpa [meets, hx, hattempt] using hmeets
        · exact (hlookup.trans (if_pos hk.symm)).symm
      · exact ⟨v, .refl, hf.entry.trans (hlookup.trans (if_neg (Ne.symm hk))).symm,
          hf.clock, hf.times,
          hf.tracked.erase_of_ne (by simp [hx, hk])⟩
    · cases h
  · cases h

/-- **Every step that meets the condition is a step of the source.** -/
theorem Follows.step (hmeets : s.meets e = true) (h : s.step S e = some s') : Arrives s' k v := by
  unfold Logins.step at h
  split at h
  · next hclock =>
    -- first the clock moves
    have hwait : LoginSource.Step v { v with clock := e.time s } := .wait (hf.clock ▸ hclock)
    have hf' : Follows { s with clock := e.time s } k { v with clock := e.time s } :=
      ⟨hf.entry, rfl, hf.times, hf.tracked⟩
    obtain ⟨v', hsteps, hfollows⟩ : Arrives s' k { v with clock := e.time s } := by
      cases e with
      | check => exact hf'.check rfl hmeets h
      | compare => exact hf'.compare rfl h
      | record => exact hf'.record rfl hmeets h
      | leave => exact hf'.leave h
      | succeed => exact hf'.succeed rfl hmeets h
    exact ⟨v', .head hwait hsteps, hfollows⟩
  · cases h

end

/-! ## Every run -/

/-- The steps that meet the condition. -/
def careful (S : Setup) : Logins → Event → Option Logins :=
  restrict (fun s e => s.meets e = true) (step S)

/-- A server that has just started. -/
def start (now : ℤ) : Logins := ⟨⟨∅, ∅, ∅⟩, now, ∅, []⟩

theorem follows_start (now : ℤ) : Follows (start now) k ⟨none, now, [], none⟩ :=
  ⟨rfl, rfl, rfl, nofun, fun c x hx => by cases hx⟩

theorem source_ok_start {now : ℤ} (h : 0 < now) : LoginSource.Ok ⟨none, now, [], none⟩ :=
  ⟨h, nofun, fun _ => Nat.zero_le _, fun _ _ _ => Nat.zero_le _, nofun, nofun⟩

/-- In every run each source goes through its life. -/
theorem exists_source {now : ℤ} (hnow : 0 < now)
    (h : Reachable (careful S) (fun _ => True) (start now) s)
    (k : String) : ∃ v, Follows s k v ∧ v.Ok := by
  induction h with
  | init => exact ⟨_, follows_start now, source_ok_start hnow⟩
  | step _ _ hs ih =>
    obtain ⟨v, hf, hok⟩ := ih
    obtain ⟨hmeets, hstep⟩ := restrict_eq_some.mp hs
    obtain ⟨v', hsteps, hf'⟩ := hf.step hmeets hstep
    refine ⟨v', hf', ?_⟩
    clear hf'
    induction hsteps with
    | refl => exact hok
    | tail _ hlast ih => exact ih.step hlast

/-- **The limit on guesses**: in every run of logins, however they overlap, in which no
call of a source is let through while another of it is under way, every failure can be
booked and no login succeeds shortly after one, in every window as long as a lockout at
most `maxLoginAttempts` wrong passwords of a source are compared. -/
theorem guesses_limited {now : ℤ} (hnow : 0 < now)
    (h : Reachable (careful S) (fun _ => True) (start now) s) (email clientIP : String) (t : ℤ) :
    (s.compared.countP fun e => e.1 = loginSourceKey email clientIP && t ≤ e.2 && e.2 < t +
      lockoutDuration) ≤
      maxLoginAttempts := by
  obtain ⟨v, hf, hok⟩ := exists_source hnow h (loginSourceKey email clientIP)
  have hcount : v.within t = s.compared.countP fun e =>
      e.1 = loginSourceKey email clientIP && t ≤ e.2 && e.2 < t + lockoutDuration := by
    rw [LoginSource.within, hf.times, countP_map, countP_filter]
    refine countP_congr fun e _ => ?_
    simp only [Function.comp_apply, Bool.and_eq_true, decide_eq_true_eq]
    exact ⟨fun h => ⟨⟨h.2, h.1.1⟩, h.1.2⟩, fun h => ⟨⟨h.1.2, h.2⟩, h.1.1⟩⟩
  rw [← hcount]
  exact hok.bounded t

/-- A setup in which passwords are their own hashes. -/
def ownPasswords : Setup where
  comparePassword hash password := hash = password
  hashInviteToken token := token
  memberQuota _ _ := none

/-- The calls with wrong passwords, one after another. -/
def inTurn (n : ℕ) : List Event :=
  (List.range n).flatMap fun i =>
    [.check i "a@x.io" "10.0.0.1" "guess" (3 * i + 1), .compare i "secret" (3 * i + 2),
      .record i true (3 * i + 3)]

/-- The same calls, all at once. -/
def atOnce (n : ℕ) : List Event :=
  (List.range n).map (fun i => .check i "a@x.io" "10.0.0.1" "guess" 1) ++
    (List.range n).map fun i => .compare i "secret" 2

/-- The right password, when the lock has run out. -/
def later : List Event :=
  [.check 5 "a@x.io" "10.0.0.1" "secret" (16 * minute), .compare 5 "secret" (16 * minute),
    .succeed 5 0 (16 * minute)]

theorem guesses_limited_inTurn :
    ∃ s, run (careful ownPasswords) (start 1) (inTurn 5 ++ later) = some s ∧
    s.compared.length = 5 ∧ ∀ t, (s.compared.countP fun e =>
      e.1 = loginSourceKey "a@x.io" "10.0.0.1" && t ≤ e.2 && e.2 < t + lockoutDuration) ≤
        maxLoginAttempts := by
  have hevaluated : ((run (careful ownPasswords) (start 1) (inTurn 5 ++ later)).any fun s =>
      s.compared.length = 5) = true := by
    decide +kernel
  obtain ⟨s, hrun, hlength⟩ := exists_of_any hevaluated
  exact ⟨s, hrun, of_decide_eq_true hlength,
    guesses_limited (by decide) (.of_run .init (fun _ _ => trivial) hrun) "a@x.io" "10.0.0.1"⟩

/-- **Six guesses at once** are all compared, within one lockout window. -/
theorem guesses_at_once : ((run (step ownPasswords) (start 1) (atOnce 6)).any fun s =>
    maxLoginAttempts < s.compared.countP fun e =>
      e.1 = loginSourceKey "a@x.io" "10.0.0.1" && 0 ≤ e.2 && e.2 < 0 + lockoutDuration) = true := by
  decide +kernel

end Logins

end Anubis.Auth
