import Mathlib.Data.List.AList
import Mathlib.Data.List.Infix

/-!
# Finite maps

Maps as programs have them: looked up by key, and gone through in an order that
nothing is known about. These are association lists with one type of values;
added are going through the entries in any order, deleting by a predicate, and
changing the value of one key.
-/

/-- Finite maps. -/
abbrev Dict (α V : Type) := AList fun _ : α => V

namespace AList

open List Option

variable {α V : Type}

/-- A list in any order: the number says, digit by digit, where each element goes. -/
def arrange {β : Type} : ℕ → List β → List β
  | _, [] => []
  | order, x :: xs =>
    (arrange (order / (xs.length + 1)) xs).insertIdx (order % (xs.length + 1)) x

theorem perm_arrange {β : Type} (l : List β) (order : ℕ) : (arrange order l).Perm l := by
  induction l generalizing order with
  | nil => rfl
  | cons x xs ih =>
    have hlt := Nat.mod_lt order xs.length.succ_pos
    rw [← (ih (order / (xs.length + 1))).length_eq] at hlt
    refine (perm_insertIdx x _ ?_).trans ((ih _).cons x)
    simpa [(ih _).length_eq] using Nat.le_of_lt_succ hlt

/-- The entries, in any order. -/
def range (m : Dict α V) (order : ℕ) : List (α × V) :=
  arrange order (m.entries.map fun e => (e.1, e.2))

theorem nodup_range (m : Dict α V) (order : ℕ) : ((m.range order).map Prod.fst).Nodup := by
  have hkeys : (m.entries.map fun e => (e.1, e.2)).map Prod.fst = m.entries.keys := by
    simp [List.keys, Function.comp_def]
  rw [range, ((perm_arrange _ _).map _).nodup_iff, hkeys]
  exact m.nodupKeys

/-- The entries with a property. -/
def filter (p : α → V → Bool) (m : Dict α V) : Dict α V :=
  ⟨m.entries.filter fun e => p e.1 e.2, m.nodupKeys.sublist filter_sublist⟩

/-- Every value replaced. -/
def mapValues {W : Type} (f : V → W) (m : Dict α V) : Dict α W :=
  ⟨m.entries.map fun e => ⟨e.1, f e.2⟩, by
    have : (m.entries.map fun e => (⟨e.1, f e.2⟩ : (_ : α) × W)).keys = m.entries.keys := by
      simp [List.keys, Function.comp_def]
    rw [NodupKeys, this]
    exact m.nodupKeys⟩

variable [DecidableEq α]

/-- The value of one key changed, if there is one. -/
def modify (k : α) (f : V → V) (m : Dict α V) : Dict α V :=
  match m.lookup k with
  | some v => m.insert k (f v)
  | none => m

/-- Adds what is not there yet. -/
def insertNew (m : Dict α V) (l : List (α × V)) : Dict α V :=
  l.foldl (fun m e => if (m.lookup e.1).isSome then m else m.insert e.1 e.2) m

variable {m : Dict α V} {k k' : α} {v : V}

/-- **Every entry is gone through.** -/
theorem mem_range {order : ℕ} : (k, v) ∈ m.range order ↔ m.lookup k = some v := by
  unfold range
  rw [(perm_arrange _ _).mem_iff, List.mem_map, ← mem_def, mem_lookup_iff]
  constructor
  · rintro ⟨⟨k', v'⟩, hmem, heq⟩
    cases heq
    exact hmem
  · intro h
    exact ⟨⟨k, v⟩, h, rfl⟩

theorem lookup_insert_if : (m.insert k v).lookup k' = if k' = k then some v else m.lookup k' := by
  split
  · next h => rw [h, lookup_insert]
  · next h => exact lookup_insert_ne h

theorem lookup_erase_if : (m.erase k).lookup k' = if k' = k then none else m.lookup k' := by
  split
  · next h => rw [h, lookup_erase]
  · next h => exact lookup_erase_ne h

theorem lookup_insert_eq_some {w : V} :
    (m.insert k v).lookup k' = some w ↔ k' = k ∧ w = v ∨ k' ≠ k ∧ m.lookup k' = some w := by
  rw [lookup_insert_if]
  split <;> simp_all [eq_comm]

theorem lookup_erase_eq_some : (m.erase k).lookup k' = some v ↔ k' ≠ k ∧ m.lookup k' = some v := by
  rw [lookup_erase_if]
  split <;> simp_all

theorem lookup_singleton_eq_some {w : V} : lookup k' (singleton k v : Dict α V) = some w ↔
    k' = k ∧ w = v := by
  rw [← insert_empty, lookup_insert_eq_some, lookup_empty]
  simp

theorem lookup_modify {f : V → V} :
    (m.modify k f).lookup k' = if k' = k then (m.lookup k).map f else m.lookup k' := by
  unfold modify
  split
  · next w h => rw [lookup_insert_if, h]; rfl
  · next h =>
    split
    · next heq => rw [heq, h]; rfl
    · rfl

theorem lookup_filter {p : α → V → Bool} : (m.filter p).lookup k = (m.lookup k).filter (p k) := by
  ext w
  have hm : lookup k m = some w ↔ ⟨k, w⟩ ∈ m.entries := mem_lookup_iff
  have hf : lookup k (m.filter p) = some w ↔ ⟨k, w⟩ ∈ (m.filter p).entries := mem_lookup_iff
  rw [filter_eq_some_iff, hm, hf]
  simp [filter]

theorem lookup_mapValues {W : Type} {f : V → W} :
    (m.mapValues f).lookup k = (m.lookup k).map f := by
  ext w
  have hm : ∀ v, lookup k m = some v ↔ ⟨k, v⟩ ∈ m.entries := fun v => mem_lookup_iff
  have hf : lookup k (m.mapValues f) = some w ↔ ⟨k, w⟩ ∈ (m.mapValues f).entries := mem_lookup_iff
  rw [hf, map_eq_some_iff]
  simp only [mapValues, List.mem_map, hm]
  constructor
  · rintro ⟨⟨k', v⟩, hmem, heq⟩
    cases heq
    exact ⟨v, hmem, rfl⟩
  · rintro ⟨v, hmem, rfl⟩
    exact ⟨⟨k, v⟩, hmem, rfl⟩

/-- What was there stays; of the rest, one value of each key is added. -/
theorem lookup_insertNew {l : List (α × V)} (hl : (l.map Prod.fst).Nodup) :
    (m.insertNew l).lookup k = some v ↔ m.lookup k = some v ∨ m.lookup k = none ∧ (k, v) ∈ l := by
  induction l generalizing m with
  | nil => simp [insertNew]
  | cons e l ih =>
    obtain ⟨hnew, hrest⟩ := nodup_cons.mp hl
    have hunfold : m.insertNew (e :: l) =
        (if (m.lookup e.1).isSome then m else m.insert e.1 e.2).insertNew l := rfl
    rw [hunfold, ih hrest]
    split
    · next hsome =>
      obtain ⟨w, hw⟩ := isSome_iff_exists.mp hsome
      constructor
      · rintro (h | ⟨hnone, hmem⟩)
        · exact .inl h
        · exact .inr ⟨hnone, .tail _ hmem⟩
      · rintro (h | ⟨hnone, hmem⟩)
        · exact .inl h
        · refine .inr ⟨hnone, (mem_cons.mp hmem).resolve_left fun heq => ?_⟩
          rw [← heq] at hw
          simp [hnone] at hw
    · next hnone =>
      have hnone' : m.lookup e.1 = none := by simpa using hnone
      rw [lookup_insert_if]
      by_cases hk : k = e.1
      · subst hk
        have hout : ∀ w, (e.1, w) ∉ l := fun w h => hnew (List.mem_map.mpr ⟨_, h, rfl⟩)
        simp only [if_true, some.injEq, hnone', reduceCtorEq, false_and, or_false,
          false_or, true_and,
          mem_cons, hout, Prod.ext_iff]
        exact eq_comm
      · simp only [hk, if_false, mem_cons, Prod.ext_iff, false_and, false_or]

end AList
