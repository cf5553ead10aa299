import Mathlib.Data.List.Induction
import Mathlib.Data.Nat.Notation

/-!
# Compare-and-swap through a log

Attempts to change a register are ordered by a log. An attempt names the
revision it was made for and succeeds if the register is at that revision when
its turn comes. The successful attempts are the history of the register, and
the revision is their number.

A log may hold an attempt twice, and a replica may go through a part of it
again. Neither changes the history as long as no attempt is made for a revision
that is still to come: once its turn is over, an attempt is too late for good.
-/

namespace CasLog

open List

variable {α : Type} (expected : α → ℕ) (admissible : α → Bool)

/-- One attempt on a history. -/
def accept (h : List α) (c : α) : List α :=
  if expected c = h.length ∧ admissible c = true then h ++ [c] else h

/-- The attempts of a log that succeed. -/
def history (log : List α) : List α := log.foldl (accept expected admissible) []

/-- No attempt is made for a revision that is still to come. -/
def Timely (log : List α) : Prop :=
  ∀ i c, log[i]? = some c → expected c ≤ (history expected admissible (log.take i)).length

variable {expected admissible} {h log log' : List α} {c c' : α} {i n : ℕ}

theorem accept_pos (he : expected c = h.length) (ha : admissible c = true) :
    accept expected admissible h c = h ++ [c] := if_pos ⟨he, ha⟩

theorem accept_of_lt (hlt : expected c < h.length) : accept expected admissible h c = h :=
  if_neg fun hc => by omega

theorem accept_of_inadmissible (ha : admissible c = false) : accept expected admissible h c = h :=
  if_neg fun hc => by simp [ha] at hc

theorem prefix_accept : h <+: accept expected admissible h c := by
  unfold accept
  split
  · exact prefix_append h [c]
  · exact prefix_rfl

theorem prefix_foldl_accept (log : List α) : h <+: log.foldl (accept expected admissible) h := by
  induction log generalizing h with
  | nil => exact prefix_rfl
  | cons c log ih => exact prefix_accept.trans ih

theorem history_append (log log' : List α) : history expected admissible (log ++ log') =
    log'.foldl (accept expected admissible) (history expected admissible log) := foldl_append ..

theorem history_snoc (log : List α) (c : α) : history expected admissible (log ++ [c]) =
    accept expected admissible (history expected admissible log) c := history_append log [c]

/-- **The history only grows.** -/
theorem history_prefix (log log' : List α) :
    history expected admissible log <+: history expected admissible (log ++ log') := by
  rw [history_append]
  exact prefix_foldl_accept log'

theorem history_mono {log log' : List α} (h : log <+: log') :
    history expected admissible log <+: history expected admissible log' := by
  obtain ⟨rest, rfl⟩ := h
  exact history_prefix log rest

theorem history_take (h : i ≤ n) :
    history expected admissible (log.take i) <+: history expected admissible (log.take n) := by
  obtain ⟨d, rfl⟩ := Nat.exists_eq_add_of_le h
  rw [take_add]
  exact history_prefix ..

theorem history_take_succ (hc : log[i]? = some c) : history expected admissible (log.take (i + 1)) =
    accept expected admissible (history expected admissible (log.take i)) c := by
  rw [take_add_one, hc]
  exact history_snoc ..

/-- **A successful attempt is at its revision.** -/
theorem history_getElem? (hc : (history expected admissible log)[i]? = some c) :
    expected c = i ∧ admissible c = true ∧ c ∈ log := by
  induction log using reverseRecOn with
  | nil => cases hc
  | append_singleton log c' ih =>
    rw [history_snoc, accept] at hc
    split at hc
    · rename_i hok
      rcases Nat.lt_or_ge i (history expected admissible log).length with hlt | hge
      · rw [getElem?_append_left hlt] at hc
        obtain ⟨he, ha, hmem⟩ := ih hc
        exact ⟨he, ha, by simp [hmem]⟩
      · rw [getElem?_append_right hge] at hc
        obtain ⟨hi, rfl⟩ := List.getElem?_eq_some_iff.mp hc
        rw [length_singleton] at hi
        have hzero : i - (history expected admissible log).length = 0 := by omega
        simp only [hzero, getElem_cons_zero]
        exact ⟨by omega, hok.2, by simp⟩
    · obtain ⟨he, ha, hmem⟩ := ih hc
      exact ⟨he, ha, by simp [hmem]⟩

theorem getElem?_of_mem (hc : c ∈ history expected admissible log) :
    (history expected admissible log)[expected c]? = some c := by
  obtain ⟨i, hi⟩ := List.getElem?_of_mem hc
  rw [(history_getElem? hi).1]
  exact hi

/-- **Once its turn is over, an attempt has succeeded or never will.** -/
theorem mem_of_prefix (hpre : history expected admissible log <+: history expected admissible log')
    (hc : c ∈ history expected admissible log')
    (hlt : expected c < (history expected admissible log).length) :
    c ∈ history expected admissible log := by
  have hget := getElem?_of_mem hc
  rw [prefix_iff_getElem?.mp hpre _ hlt] at hget
  exact Option.some.inj hget ▸ getElem_mem hlt

theorem Timely.snoc (h : Timely expected admissible log)
    (hc : expected c ≤ (history expected admissible log).length) :
    Timely expected admissible (log ++ [c]) := by
  intro i c' hi
  rcases Nat.lt_or_ge i log.length with hlt | hge
  · rw [getElem?_append_left hlt] at hi
    rw [take_append_of_le_length (Nat.le_of_lt hlt)]
    exact h i c' hi
  · rw [getElem?_append_right hge] at hi
    cases hz : i - log.length with
    | zero =>
      rw [hz] at hi
      cases hi
      rw [take_append_of_le_length (by omega), take_of_length_le hge]
      exact hc
    | succ =>
      rw [hz] at hi
      cases hi

/-- **Going through a part of the log again** changes nothing. -/
theorem Timely.accept_replay (h : Timely expected admissible log) (hc : log[i]? = some c)
    (hin : i < n) :
    accept expected admissible (history expected admissible (log.take n)) c =
      history expected admissible (log.take n) := by
  cases ha : admissible c with
  | false => exact accept_of_inadmissible ha
  | true =>
    have hpre : history expected admissible (log.take (i + 1)) <+: history expected admissible
      (log.take n) :=
      history_take hin
    have hle := hpre.length_le
    have htimely := h i c hc
    rw [history_take_succ hc] at hle
    refine accept_of_lt ?_
    by_cases he : expected c = (history expected admissible (log.take i)).length
    · rw [accept_pos he ha, length_append, length_singleton] at hle
      omega
    · have hmono : (history expected admissible (log.take i)).length ≤
          (accept expected admissible (history expected admissible (log.take i)) c).length :=
        prefix_accept.length_le
      omega

end CasLog
