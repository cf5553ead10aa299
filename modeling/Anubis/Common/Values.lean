import Anubis.Common.Text
import Mathlib.Data.List.Nodup
import Mathlib.Data.Rat.Init

/-!
# Configuration values

Values as a decoder of JSON or YAML gives them to a Go program, and the two
kinds it gives to typed code: maps and lists of strings. A map is the list of
its entries; `Distinct` says of a value that in every map of it each key comes
once, which is what makes it the value of a program.
-/

/-- What a configuration holds. -/
inductive Value
  | null
  | string (s : String)
  | number (n : ℚ)
  | boolean (b : Bool)
  /-- `[]string`. -/
  | strings (l : List String)
  /-- `[]any`. -/
  | list (l : List Value)
  /-- `map[string]string`. -/
  | stringMap (m : List (String × String))
  /-- `map[string]any`. -/
  | map (m : List (String × Value))

namespace Entries

open List

variable {α : Type} {m : List (String × α)} {key k : String} {v : α}

/-- Sets the value of a key: in its place, or at the end if it is new. -/
def set (m : List (String × α)) (key : String) (v : α) : List (String × α) :=
  match m with
  | [] => [(key, v)]
  | (k, w) :: rest => if k = key then (k, v) :: rest else (k, w) :: set rest key v

/-- The keys of a map. -/
def keys (m : List (String × α)) : List String := m.map Prod.fst

@[simp]
theorem keys_cons (k : String) (v : α) (m : List (String × α)) :
    keys ((k, v) :: m) = k :: keys m := rfl

theorem lookup_cons (k k' : String) (v : α) (m : List (String × α)) :
    ((k', v) :: m).lookup k = if k = k' then some v else m.lookup k := by
  rw [List.lookup_cons]
  by_cases h : k = k'
  · simp [h]
  · rw [if_neg h, beq_false_of_ne h]

theorem lookup_set (m : List (String × α)) (key k : String) (v : α) :
    (set m key v).lookup k = if k = key then some v else m.lookup k := by
  induction m with
  | nil => rw [set, lookup_cons]
  | cons e rest ih =>
    obtain ⟨k', w⟩ := e
    rw [set]
    split
    · next hkey =>
      rw [lookup_cons, lookup_cons, hkey]
      split <;> rfl
    · next hkey =>
      rw [lookup_cons, lookup_cons, ih]
      by_cases h : k = k'
      · rw [if_pos h, if_pos h, if_neg (h ▸ hkey)]
      · rw [if_neg h, if_neg h]

/-- Setting a key that is there keeps the keys. -/
theorem keys_set (h : key ∈ keys m) : keys (set m key v) = keys m := by
  induction m with
  | nil => cases h
  | cons e rest ih =>
    obtain ⟨k, w⟩ := e
    by_cases hkey : k = key
    · simp [set, hkey]
    · rw [keys_cons, mem_cons] at h
      simp [set, hkey, ih (h.resolve_left (Ne.symm hkey))]

/-- Setting a key to the value it has changes nothing. -/
theorem set_of_lookup (h : m.lookup key = some v) : set m key v = m := by
  induction m with
  | nil => cases h
  | cons e rest ih =>
    obtain ⟨k, w⟩ := e
    rw [lookup_cons] at h
    by_cases hkey : key = k
    · rw [if_pos hkey, Option.some.injEq] at h
      rw [set, if_pos hkey.symm, h]
    · rw [if_neg hkey] at h
      rw [set, if_neg (Ne.symm hkey), ih h]

theorem mem_keys_of_mem (h : (k, v) ∈ m) : k ∈ keys m :=
  mem_map_of_mem h

/-- A key that comes once has the value it comes with. -/
theorem lookup_of_mem (hm : (keys m).Nodup) (h : (k, v) ∈ m) :
    m.lookup k = some v := by
  induction m with
  | nil => cases h
  | cons e rest ih =>
    obtain ⟨k', w⟩ := e
    rw [keys_cons, nodup_cons] at hm
    rcases mem_cons.mp h with heq | hrest
    · obtain ⟨rfl, rfl⟩ := Prod.mk.inj heq
      simp
    · have hne : k ≠ k' := fun heq => hm.1 (heq ▸ mem_keys_of_mem hrest)
      rw [lookup_cons, if_neg hne, ih hm.2 hrest]

theorem lookup_eq_none (h : k ∉ keys m) : m.lookup k = none := by
  induction m with
  | nil => rfl
  | cons e rest ih =>
    rw [keys_cons, mem_cons, not_or] at h
    rw [lookup_cons, if_neg h.1, ih h.2]

/-- Two maps with the same keys in the same order are the same if their values
are. -/
theorem ext_lookup {m' : List (String × α)} (hkeys : keys m = keys m') (hm : (keys m).Nodup)
    (h : ∀ k ∈ keys m, m.lookup k = m'.lookup k) : m = m' := by
  induction m generalizing m' with
  | nil =>
    cases m' with
    | nil => rfl
    | cons => cases hkeys
  | cons e rest ih =>
    obtain ⟨k, v⟩ := e
    cases m' with
    | nil => cases hkeys
    | cons e' =>
      obtain ⟨k', v'⟩ := e'
      obtain ⟨rfl, hrest⟩ := cons.inj hkeys
      rw [keys_cons, nodup_cons] at hm
      have hv := h k (.head _)
      rw [lookup_cons_self, lookup_cons_self] at hv
      cases hv
      rw [ih hrest hm.2 fun x hx => ?_]
      have hne : x ≠ k := fun heq => hm.1 (heq ▸ hx)
      have := h x (.tail _ hx)
      rwa [lookup_cons, lookup_cons, if_neg hne, if_neg hne] at this

end Entries
