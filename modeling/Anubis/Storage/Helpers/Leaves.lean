import Anubis.Storage.Model.Engine
import Mathlib.Order.WithBot

/-!
# Leaves

What a leaf holds and what a change of it does: `insertNonFull` on a leaf is a
write to a sorted association list. And the chain of the leaves: which
replacements of leaves keep the `next` pointers right, and that following
them visits the leaves from left to right.
-/

namespace Anubis.Storage

open SortedAssoc List

variable {Key Val : Type} {α : Type} {i : ℕ} {keys : List Key}

/-- The entries of a leaf. -/
def Leaf.entries (l : Leaf Key Val) : List (Key × Option Val) := l.keys.zip l.values

/-! ## Slices at a known place -/

theorem getElem?_middle {xs ys : List α} {x : α} (hi : xs.length = i) :
    (xs ++ x :: ys)[i]? = some x := by
  subst hi
  rw [getElem?_append_right le_rfl, Nat.sub_self]
  rfl

theorem set_middle {xs ys : List α} {x y : α} (hi : xs.length = i) :
    (xs ++ x :: ys).set i y = xs ++ y :: ys := by
  subst hi
  rw [set_append_right _ _ le_rfl, Nat.sub_self, set_cons_zero]

theorem insertAt_middle {xs ys : List α} {x : α} (hi : xs.length = i) :
    insertAt (xs ++ ys) i x = xs ++ x :: ys := by
  subst hi
  rw [insertAt, take_left, drop_left]

section Order

variable [LinearOrder Key]

/-! ## The two searches -/

theorem findKeyIndex_spec (hs : keys.Pairwise (· < ·)) (key : Key) :
    ∃ ks₁ ks₂, keys = ks₁ ++ ks₂ ∧ (∀ k ∈ ks₁, k < key) ∧ (∀ k ∈ ks₂, key ≤ k) ∧
      findKeyIndex keys key = ks₁.length := by
  obtain ⟨ks₁, ks₂, hk, h₁, h₂, hlen⟩ := Search.search_sorted (p := fun k => decide (key ≤ k)) hs
    (fun a b hab ha => by simpa using (of_decide_eq_true ha).trans hab.le)
    (f := fun i => (keys[i]?).any fun k => key ≤ k) (fun i x hx => by simp [hx])
  exact ⟨ks₁, ks₂, hk, fun k hm => by simpa using h₁ k hm, fun k hm => by simpa using h₂ k hm, hlen⟩

theorem findChildIndex_spec (hs : keys.Pairwise (· < ·)) (key : Key) :
    ∃ ks₁ ks₂, keys = ks₁ ++ ks₂ ∧ (∀ k ∈ ks₁, k ≤ key) ∧ (∀ k ∈ ks₂, key < k) ∧
      findChildIndex keys key = ks₁.length := by
  obtain ⟨ks₁, ks₂, hk, h₁, h₂, hlen⟩ := Search.search_sorted (p := fun k => decide (key < k)) hs
    (fun a b hab ha => by simpa using (of_decide_eq_true ha).trans hab)
    (f := fun i => (keys[i]?).any fun k => key < k) (fun i x hx => by simp [hx])
  exact ⟨ks₁, ks₂, hk, fun k hm => by simpa using h₁ k hm, fun k hm => by simpa using h₂ k hm, hlen⟩

/-! ## Keys and bounds -/

/-- A key as a bound of a subtree. The outermost bounds are `⊥` and `⊤`. -/
def bound (key : Key) : WithBot (WithTop Key) := ((key : WithTop Key) : WithBot (WithTop Key))

@[simp]
theorem bound_lt_bound {a b : Key} : bound a < bound b ↔ a < b := by simp [bound]

@[simp]
theorem bound_le_bound {a b : Key} : bound a ≤ bound b ↔ a ≤ b := by simp [bound]

theorem bound_lt_top (a : Key) : bound a < ⊤ := WithBot.coe_lt_coe.mpr (WithTop.coe_lt_top a)

/-- The leaf is sorted, and its keys lie between the bounds. -/
structure Leaf.Within (lo hi : WithBot (WithTop Key)) (l : Leaf Key Val) : Prop where
  lt : lo < hi
  length : l.values.length = l.keys.length
  sorted : l.keys.Pairwise (· < ·)
  mem : ∀ k ∈ l.keys, lo ≤ bound k ∧ bound k < hi

variable {lo hi : WithBot (WithTop Key)} {l : Leaf Key Val} {key : Key}

omit [LinearOrder Key] in
theorem Leaf.mem_keys {x : Key × Option Val} (h : x ∈ l.entries) : x.1 ∈ l.keys := (of_mem_zip h).1

theorem Leaf.Within.sorted_entries (h : l.Within lo hi) : Sorted l.entries := by
  have hmap : l.entries.map Prod.fst = l.keys := map_fst_zip h.length.ge
  have := h.sorted
  rw [← hmap, pairwise_map] at this
  exact this

/-- **A write to a leaf** is a write to its entries. -/
theorem Leaf.Within.insertLeaf (value : Option Val) (h : l.Within lo hi) (hkey : lo ≤ bound key ∧
    bound key < hi) :
    (BTreeNode.insertLeaf l key value).Within lo hi ∧
      (BTreeNode.insertLeaf l key value).entries = upsert key value l.entries ∧
      (BTreeNode.insertLeaf l key value).id = l.id ∧
      (BTreeNode.insertLeaf l key value).next = l.next := by
  obtain ⟨id, keys, values, next⟩ := l
  obtain ⟨ks₁, ks₂, rfl, hlt, hge, hidx⟩ := findKeyIndex_spec h.sorted key
  -- the values fall apart where the keys do
  obtain ⟨vs₁, vs₂, rfl, hvs⟩ : ∃ vs₁ vs₂, values = vs₁ ++ vs₂ ∧ vs₁.length = ks₁.length :=
    ⟨values.take ks₁.length, values.drop ks₁.length, (take_append_drop ..).symm, by
      have := h.length
      simp only [length_append] at this
      simp only [length_take]
      omega⟩
  have hvs₂ : vs₂.length = ks₂.length := by
    have := h.length
    simp only [length_append] at this
    omega
  have hsmall : Keys (· < key) (ks₁.zip vs₁) := fun x hx => hlt _ (of_mem_zip hx).1
  have hentries : upsert key value ((ks₁ ++ ks₂).zip (vs₁ ++ vs₂)) =
      ks₁.zip vs₁ ++ upsert key value (ks₂.zip vs₂) := by
    rw [zip_append hvs.symm, upsert_append_left hsmall]
  unfold BTreeNode.insertLeaf Leaf.entries
  dsimp only
  rw [hidx, getElem?_append_right le_rfl, Nat.sub_self, hentries]
  split
  · -- the key is there: it heads the second part
    rename_i hget
    cases ks₂ with
    | nil => cases hget
    | cons k =>
      cases vs₂ with
      | nil => cases hvs₂
      | cons =>
        obtain rfl : k = key := by simpa using hget
        rw [set_middle hvs]
        refine ⟨⟨h.lt, by simpa using h.length, h.sorted, h.mem⟩, ?_, rfl, rfl⟩
        rw [zip_append hvs.symm, zip_cons_cons, zip_cons_cons, upsert,
          if_neg (lt_irrefl _), if_pos rfl]
  · -- the key is new: everything in the second part is larger
    rename_i hget
    have hgt : ∀ k ∈ ks₂, key < k := by
      intro k hk
      refine lt_of_le_of_ne (hge k hk) fun heq => ?_
      subst heq
      cases ks₂ with
      | nil => cases hk
      | cons k' =>
        rcases mem_cons.mp hk with rfl | hk'
        · exact hget rfl
        · have hsorted := (pairwise_append.mp h.sorted).2.1
          exact absurd ((pairwise_cons.mp hsorted).1 key hk') (not_lt_of_ge (hge k' (by simp)))
    rw [insertAt_middle rfl, insertAt_middle hvs]
    refine ⟨⟨h.lt, ?_, ?_, ?_⟩, ?_, rfl, rfl⟩
    · simp [hvs, hvs₂]
    · obtain ⟨h₁, h₂, h₁₂⟩ := pairwise_append.mp h.sorted
      refine pairwise_append.mpr ⟨h₁, pairwise_cons.mpr ⟨hgt, h₂⟩, fun a ha b hb => ?_⟩
      rcases mem_cons.mp hb with rfl | hb
      · exact hlt a ha
      · exact h₁₂ a ha b hb
    · intro k hk
      rcases mem_append.mp hk with hk | hk
      · exact h.mem k (mem_append_left _ hk)
      · rcases mem_cons.mp hk with rfl | hk
        · exact hkey
        · exact h.mem k (mem_append_right _ hk)
    · have hlarge : Keys (key < ·) (ks₂.zip vs₂) := fun x hx => hgt _ (of_mem_zip hx).1
      have : upsert key value ([] ++ ks₂.zip vs₂) = [(key, value)] ++ ks₂.zip vs₂ :=
        upsert_append_right hlarge
      rw [nil_append] at this
      rw [zip_append hvs.symm, zip_cons_cons, this, singleton_append]

/-- What `Get` finds in a leaf. -/
theorem Leaf.Within.find (h : l.Within lo hi) (key : Key) :
    (if l.keys[findKeyIndex l.keys key]? = some key then l.values[findKeyIndex l.keys key]?
      else none) =
      SortedAssoc.find key l.entries := by
  obtain ⟨ks₁, ks₂, hk, hlt, hge, hidx⟩ := findKeyIndex_spec h.sorted key
  rw [hidx]
  split
  · rename_i hget
    obtain ⟨v, hv⟩ : ∃ v, l.values[ks₁.length]? = some v := by
      refine ⟨_, getElem?_eq_getElem ?_⟩
      rw [h.length]
      exact (List.getElem?_eq_some_iff.mp hget).1
    have hmem : (key, v) ∈ l.entries := by
      refine mem_of_getElem? (i := ks₁.length) ?_
      unfold Leaf.entries
      rw [getElem?_zip_eq_some]
      exact ⟨hget, hv⟩
    rw [hv, find_of_mem h.sorted_entries hmem]
  · rename_i hget
    symm
    refine find_eq_none fun x hx heq => hget ?_
    have hmem := Leaf.mem_keys hx
    rw [heq, hk] at hmem
    rcases mem_append.mp hmem with hm | hm
    · exact absurd (hlt _ hm) (lt_irrefl _)
    · rw [hk, getElem?_append_right le_rfl, Nat.sub_self]
      cases ks₂ with
      | nil => cases hm
      | cons k =>
        have hsorted := h.sorted
        rw [hk] at hsorted
        rcases mem_cons.mp hm with rfl | hm
        · rfl
        · have hlt' := (pairwise_cons.mp (pairwise_append.mp hsorted).2.1).1 key hm
          exact absurd hlt' (not_lt_of_ge (hge k (by simp)))

/-- A scan that starts at `findKeyIndex` skips smaller keys only. -/
theorem Leaf.Within.skipped (h : l.Within lo hi) (key : Key) :
    Keys (· < key) (l.entries.take (findKeyIndex l.keys key)) := by
  obtain ⟨ks₁, ks₂, hk, hlt, -, hidx⟩ := findKeyIndex_spec h.sorted key
  intro x hx
  have htake : l.entries.take ks₁.length = (l.keys.take ks₁.length).zip
    (l.values.take ks₁.length) :=
    take_zipWith
  rw [hidx, htake] at hx
  have hmem := (of_mem_zip hx).1
  rw [hk, take_left] at hmem
  exact hlt _ hmem

omit [LinearOrder Key] in
theorem Leaf.drop_entries (l : Leaf Key Val) (n : ℕ) :
    (l.keys.drop n).zip (l.values.drop n) = l.entries.drop n :=
  drop_zipWith.symm

end Order

/-! ## The chain -/

/-- Where a pointer to the first of the leaves leads. -/
def first (after : Option ℕ) : List (Leaf Key Val) → Option ℕ
  | [] => after
  | l :: _ => some l.id

/-- Every leaf points to the following one, the last one to `after`. -/
def Linked (after : Option ℕ) : List (Leaf Key Val) → Prop
  | [] => True
  | l :: ls => l.next = first after ls ∧ Linked after ls

/-- **The chain of the leaves**: each one points to the next, and the names
from `fresh` on are free. -/
structure Chain (ls : List (Leaf Key Val)) (fresh : ℕ) : Prop where
  linked : Linked none ls
  nodup : (ls.map Leaf.id).Nodup
  below : ∀ l ∈ ls, l.id < fresh

/-- Leaves can take the place of others anywhere in a chain. -/
def Relinks (ls : List (Leaf Key Val)) (fresh : ℕ) (ls' : List (Leaf Key Val)) (fresh' : ℕ) :
    Prop :=
  ∀ A B, Chain (A ++ ls ++ B) fresh → Chain (A ++ ls' ++ B) fresh'

section Chain

variable {after : Option ℕ} {A B ls ls' ls'' : List (Leaf Key Val)} {l l' r : Leaf Key Val}
  {fresh fresh' fresh'' fuel : ℕ}

theorem first_append : first after (A ++ B) = first (first after B) A := by
  cases A <;> rfl

theorem linked_append : Linked after (A ++ B) ↔ Linked (first after B) A ∧ Linked after B := by
  induction A with
  | nil => simp [Linked]
  | cons l A ih => simp [Linked, ih, first_append, and_assoc]

theorem Relinks.unused : Relinks ls fresh ls (fresh + 1) :=
  fun _ _ h => ⟨h.linked, h.nodup, fun l hl => Nat.lt_succ_of_lt (h.below l hl)⟩

theorem Relinks.trans (h : Relinks ls fresh ls' fresh') (h' : Relinks ls' fresh' ls'' fresh'') :
    Relinks ls fresh ls'' fresh'' := fun A B hc => h' A B (h A B hc)

theorem Relinks.frame (h : Relinks ls fresh ls' fresh') (A B : List (Leaf Key Val)) :
    Relinks (A ++ ls ++ B) fresh (A ++ ls' ++ B) fresh' := by
  intro A' B' hc
  have := h (A' ++ A) (B ++ B') (by simpa using hc)
  simpa using this

/-- A leaf that changes its entries only. -/
theorem Relinks.replace (hid : l'.id = l.id) (hnext : l'.next = l.next) :
    Relinks [l] fresh [l'] fresh := by
  intro A B hc
  have hfirst : ∀ after, first after [l'] = first after [l] := fun _ => congrArg some hid
  refine ⟨?_, ?_, ?_⟩
  · have := hc.linked
    simp only [linked_append] at this ⊢
    rw [hfirst]
    exact ⟨⟨this.1.1, by rw [Linked, hnext]; exact this.1.2⟩, this.2⟩
  · simpa [hid] using hc.nodup
  · intro x hx
    have hcases : x = l' ∨ x ∈ A ∨ x ∈ B := by
      simp only [mem_append, mem_singleton] at hx
      tauto
    rcases hcases with rfl | hx | hx
    · rw [hid]
      exact hc.below l (by simp)
    · exact hc.below x (by simp [hx])
    · exact hc.below x (by simp [hx])

/-- **A leaf that is split.** The right half is new and takes over where the
leaf pointed. -/
theorem Relinks.split (hid : l'.id = l.id) (hnext : l'.next = some r.id) (hr : r.id = fresh)
    (hrnext : r.next = l.next) : Relinks [l] fresh [l', r] (fresh + 1) := by
  intro A B hc
  have hfirst : ∀ after, first after [l', r] = first after [l] := fun _ => congrArg some hid
  refine ⟨?_, ?_, ?_⟩
  · have := hc.linked
    simp only [linked_append] at this ⊢
    rw [hfirst]
    exact ⟨⟨this.1.1, hnext, by rw [Linked, hrnext]; exact this.1.2⟩, this.2⟩
  · -- the new name is larger than every other one
    have hfresh : ∀ x ∈ A ++ [l] ++ B, x.id ≠ fresh := fun x hx => (hc.below x hx).ne
    have hperm : ((A ++ [l', r] ++ B).map Leaf.id).Perm (fresh :: (A ++ [l] ++ B).map Leaf.id) := by
      simp only [map_append, map_cons, hid, hr, append_assoc,
        cons_append, nil_append]
      exact (Perm.append_left _ (Perm.swap ..)).trans perm_middle
    refine hperm.nodup_iff.mpr (nodup_cons.mpr ⟨fun hmem => ?_, hc.nodup⟩)
    obtain ⟨x, hx, heq⟩ := mem_map.mp hmem
    exact hfresh x hx heq
  · intro x hx
    have hcases : x = l' ∨ x = r ∨ x ∈ A ∨ x ∈ B := by
      simp only [mem_append, mem_cons, not_mem_nil, or_false] at hx
      tauto
    rcases hcases with rfl | rfl | hx | hx
    · rw [hid]
      exact Nat.lt_succ_of_lt (hc.below l (by simp))
    · rw [hr]
      exact Nat.lt_succ_self _
    · exact Nat.lt_succ_of_lt (hc.below x (by simp [hx]))
    · exact Nat.lt_succ_of_lt (hc.below x (by simp [hx]))

theorem Chain.find (h : Chain ls fresh) (hl : l ∈ ls) :
    ls.find? (fun x => x.id = l.id) = some l := by
  have hnodup := h.nodup
  clear h
  induction ls with
  | nil => cases hl
  | cons x ls ih =>
    rw [map_cons, nodup_cons] at hnodup
    rw [find?_cons]
    rcases mem_cons.mp hl with rfl | hl
    · simp
    · have hne : x.id ≠ l.id := fun heq => hnodup.1 (heq ▸ mem_map_of_mem hl)
      simp [hne, ih hl hnodup.2]

/-- **Following the chain** visits the leaves to the right, in order. -/
theorem Chain.follow (h : Chain ls fresh) (hls : ls = A ++ l :: B) (hfuel : B.length ≤ fuel) :
    BTreeIndex.follow ls fuel l.next = B := by
  induction B generalizing A l fuel with
  | nil =>
    have hnext : l.next = none := by
      have := h.linked
      rw [hls, linked_append] at this
      exact this.2.1
    rw [hnext, BTreeIndex.follow]
  | cons l' B ih =>
    have hnext : l.next = some l'.id := by
      have := h.linked
      rw [hls, linked_append] at this
      exact this.2.1
    cases fuel with
    | zero => simp at hfuel
    | succ =>
      have hmem : l' ∈ ls := by simp [hls]
      have hls : ls = (A ++ [l]) ++ l' :: B := by simpa using hls
      rw [hnext, BTreeIndex.follow, h.find hmem]
      simp only [ih hls (by simpa using hfuel)]

end Chain

end Anubis.Storage
