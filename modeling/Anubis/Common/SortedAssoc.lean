import Mathlib.Data.List.Lex
import Mathlib.Data.List.Infix
import Mathlib.Data.List.Sort
import Mathlib.Order.Basic
import Mathlib.Tactic.Common

/-!
# Sorted association lists

A finite map as the list of its bindings in the order of their keys. A
binding is written with `upsert` and read with `find`. A part of the list
can be written on its own, if the keys around it lie on the right sides.
-/

namespace SortedAssoc

open List

variable {κ β : Type} [LinearOrder κ]

/-- Strictly increasing in key. -/
def Sorted (l : List (κ × β)) : Prop := l.Pairwise fun a b => a.1 < b.1

/-- Every key satisfies `p`. -/
def Keys (p : κ → Prop) (l : List (κ × β)) : Prop := ∀ x ∈ l, p x.1

/-- The binding of a key. -/
def find (k : κ) : List (κ × β) → Option β
  | [] => none
  | (k', v) :: l => if k' = k then some v else find k l

/-- Sets the binding of a key. -/
def upsert (k : κ) (v : β) : List (κ × β) → List (κ × β)
  | [] => [(k, v)]
  | (k', v') :: l =>
    if k < k' then (k, v) :: (k', v') :: l
    else if k = k' then (k, v) :: l
    else (k', v') :: upsert k v l

/-- Takes the binding of a key away. -/
def erase (k : κ) (l : List (κ × β)) : List (κ × β) := l.filter fun x => x.1 ≠ k

variable {k k' : κ} {v : β} {l l₁ l₂ : List (κ × β)}

theorem sorted_append : Sorted (l₁ ++ l₂) ↔ Sorted l₁ ∧ Sorted l₂ ∧ ∀ a ∈ l₁, ∀ b ∈ l₂, a.1 < b.1 :=
  pairwise_append

/-! ## Parts of a list -/

theorem upsert_append_left (h : Keys (· < k) l₁) : upsert k v (l₁ ++ l₂) = l₁ ++ upsert k v l₂ := by
  induction l₁ with
  | nil => rfl
  | cons x l₁ ih =>
    have hx : x.1 < k := h x (by simp)
    rw [cons_append, upsert, if_neg (not_lt_of_gt hx), if_neg hx.ne',
      ih fun y hy => h y (by simp [hy]), cons_append]

/-- Larger keys are not touched. -/
theorem upsert_append_right (h : Keys (k < ·) l₂) :
    upsert k v (l₁ ++ l₂) = upsert k v l₁ ++ l₂ := by
  induction l₁ with
  | nil =>
    cases l₂ with
    | nil => rfl
    | cons x =>
      have hx : k < x.1 := h x (by simp)
      exact if_pos hx
  | cons x l₁ ih =>
    rw [cons_append, upsert, upsert, ih]
    split
    · rfl
    · split <;> rfl

theorem find_append_left (h : Keys (· ≠ k) l₁) : find k (l₁ ++ l₂) = find k l₂ := by
  induction l₁ with
  | nil => rfl
  | cons x l₁ ih =>
    rw [cons_append, find, if_neg (h x (by simp)), ih fun y hy => h y (by simp [hy])]

theorem find_eq_none (h : Keys (· ≠ k) l) : find k l = none := by
  have : find k (l ++ []) = find k [] := find_append_left h
  rwa [append_nil] at this

theorem find_append_right (h : Keys (· ≠ k) l₂) : find k (l₁ ++ l₂) = find k l₁ := by
  induction l₁ with
  | nil => exact find_eq_none h
  | cons x l₁ ih => rw [cons_append, find, find, ih]

/-! ## Reading and writing -/

theorem mem_upsert {x : κ × β} (h : x ∈ upsert k v l) : x = (k, v) ∨ x ∈ l := by
  induction l with
  | nil => exact .inl (by simpa [upsert] using h)
  | cons y l ih =>
    rw [upsert] at h
    split at h
    · simpa using h
    · split at h
      · rcases mem_cons.mp h with h | h
        · exact .inl h
        · exact .inr (by simp [h])
      · rcases mem_cons.mp h with h | h
        · exact .inr (by simp [h])
        · exact (ih h).imp_right fun h => by simp [h]

theorem length_upsert_le (k : κ) (v : β) (l : List (κ × β)) :
    (upsert k v l).length ≤ l.length + 1 := by
  induction l with
  | nil => exact le_rfl
  | cons x l ih =>
    simp only [SortedAssoc.upsert]
    split
    · exact le_rfl
    · split
      · exact Nat.le_succ _
      · exact Nat.succ_le_succ ih

theorem Sorted.upsert (h : Sorted l) : Sorted (upsert k v l) := by
  induction l with
  | nil => exact pairwise_singleton ..
  | cons x l ih =>
    obtain ⟨hx, hl⟩ := pairwise_cons.mp h
    rw [SortedAssoc.upsert]
    split
    · rename_i hlt
      refine pairwise_cons.mpr ⟨fun y hy => ?_, h⟩
      rcases mem_cons.mp hy with rfl | hy
      · exact hlt
      · exact hlt.trans (hx y hy)
    · split
      · rename_i heq
        subst heq
        exact pairwise_cons.mpr ⟨hx, hl⟩
      · rename_i hge hne
        have hlt : x.1 < k := lt_of_le_of_ne (not_lt.mp hge) (Ne.symm hne)
        refine pairwise_cons.mpr ⟨fun y hy => ?_, ih hl⟩
        rcases mem_upsert hy with rfl | hy
        · exact hlt
        · exact hx y hy

/-- **What was written last is read.** -/
theorem find_upsert (h : Sorted l) :
    find k' (upsert k v l) = if k = k' then some v else find k' l := by
  induction l with
  | nil => simp [upsert, find]
  | cons x l ih =>
    obtain ⟨hx, hl⟩ := pairwise_cons.mp h
    rw [upsert]
    split
    · rw [find]
    · split
      · rename_i heq
        rw [find, find]
        split
        · rfl
        · rename_i hne
          rw [if_neg (by rw [← heq]; exact hne)]
      · rename_i hne
        rw [find, find, ih hl]
        split
        · rename_i heq
          rw [if_neg (by rw [← heq]; exact hne)]
        · rfl

theorem mem_of_find (h : find k l = some v) : (k, v) ∈ l := by
  induction l with
  | nil => cases h
  | cons x l ih =>
    rw [find] at h
    split at h
    · rename_i heq
      cases h
      simp [← heq]
    · simp [ih h]

theorem find_of_mem (hs : Sorted l) (h : (k, v) ∈ l) : find k l = some v := by
  induction l with
  | nil => cases h
  | cons x l ih =>
    obtain ⟨hx, hl⟩ := pairwise_cons.mp hs
    rcases mem_cons.mp h with rfl | h
    · rw [find, if_pos rfl]
    · rw [find, if_neg (hx _ h).ne, ih hl h]

/-- A sorted list is determined by what it binds. -/
theorem Sorted.ext (h₁ : Sorted l₁) (h₂ : Sorted l₂) (h : ∀ k, find k l₁ = find k l₂) :
    l₁ = l₂ := by
  have : Std.Irrefl fun a b : κ × β => a.1 < b.1 := ⟨fun a => lt_irrefl a.1⟩
  have : Std.Antisymm fun a b : κ × β => a.1 < b.1 := ⟨fun a b hab hba => absurd hab (lt_asymm hba)⟩
  refine List.Pairwise.eq_of_mem_iff h₁ h₂ fun x => ⟨fun hx => ?_, fun hx => ?_⟩
  · exact mem_of_find ((h x.1).symm.trans (find_of_mem h₁ hx))
  · exact mem_of_find ((h x.1).trans (find_of_mem h₂ hx))

theorem Sorted.erase (h : Sorted l) : Sorted (erase k l) := List.Pairwise.filter _ h

/-- **Writing bindings one after another** onto an empty list of smaller keys
rebuilds a sorted list. -/
theorem foldl_upsert (h : Sorted (l₁ ++ l₂)) :
    l₂.foldl (fun l x => upsert x.1 x.2 l) l₁ = l₁ ++ l₂ := by
  induction l₂ generalizing l₁ with
  | nil => simp
  | cons x l₂ ih =>
    obtain ⟨-, -, hlt⟩ := sorted_append.mp h
    have hsmall : Keys (· < x.1) l₁ := fun y hy => hlt y hy x (by simp)
    have hone : upsert x.1 x.2 l₁ = l₁ ++ [x] := by
      have : upsert x.1 x.2 (l₁ ++ []) = l₁ ++ [x] := upsert_append_left hsmall
      rwa [append_nil] at this
    rw [foldl_cons, hone, ih (by simpa using h)]
    simp

/-! ## Keys that are sequences -/

section Prefixes

variable {α : Type} [LinearOrder α]

theorem cons_le_cons {a b : α} {x y : List α} : a :: x ≤ b :: y ↔ a < b ∨ a = b ∧ x ≤ y := by
  rw [← not_lt, ← not_lt, cons_lt_cons_iff]
  rcases lt_trichotomy a b with hlt | rfl | hgt
  · simp [hlt, not_lt_of_gt hlt, hlt.ne']
  · simp
  · simp [hgt, not_lt_of_gt hgt, hgt.ne']

theorem le_of_isPrefix {p x : List α} (h : p <+: x) : p ≤ x := not_lt.mp (IsPrefix.le h)

/-- **Sequences with a common prefix lie together.** -/
theorem isPrefix_of_between {p x y : List α} (hy : p <+: y) (hpx : p ≤ x) (hxy : x ≤ y) :
    p <+: x := by
  induction p generalizing x y with
  | nil => exact nil_prefix
  | cons a p ih =>
    obtain ⟨t, rfl⟩ := hy
    cases x with
    | nil => exact absurd (nil_lt_cons a p) (not_lt.mpr hpx)
    | cons b x =>
      rw [cons_append] at hxy
      rw [cons_le_cons] at hpx hxy
      have hab : a = b := by
        rcases hpx with hlt | ⟨heq, -⟩
        · rcases hxy with hlt' | ⟨heq', -⟩
          · exact absurd (hlt.trans hlt') (lt_irrefl _)
          · exact absurd heq'.symm hlt.ne
        · exact heq
      subst hab
      have h₁ : p ≤ x := by simpa using hpx
      have h₂ : x ≤ p ++ t := by simpa using hxy
      exact cons_prefix_cons.mpr ⟨rfl, ih (prefix_append p t) h₁ h₂⟩

end Prefixes

end SortedAssoc
