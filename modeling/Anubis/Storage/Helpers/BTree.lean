import Anubis.Common.Fences
import Anubis.Storage.Helpers.Leaves

/-!
# The tree as a sorted list of entries

Every node lies between two bounds, and the separators of an inner node are
the bounds of its children. From this follows that the entries are sorted,
that a descent reaches the one leaf where a key can be, and that an insertion
is a write to the list of entries. No index is ever out of range, at any
order that `NewEngine` allows.
-/

namespace Anubis.Storage

open SortedAssoc Fences List Option BTreeNode

variable {Key Val : Type}

namespace BTreeNode

variable {h : ℕ}
variable {c n : BTreeNode Key Val h}

/-- A leaf as a node. -/
def ofLeaf (l : Leaf Key Val) : BTreeNode Key Val 0 := l

/-- An inner node as a node. -/
def ofInner (n : Inner Key (BTreeNode Key Val h)) : BTreeNode Key Val (h + 1) := n

/-- The entries of a subtree, from left to right. -/
def entries (n : BTreeNode Key Val h) : List (Key × Option Val) := n.leaves.flatMap Leaf.entries

@[simp]
theorem leaves_ofInner (n : Inner Key (BTreeNode Key Val h)) :
    (ofInner n).leaves = n.children.flatMap leaves := rfl

@[simp]
theorem entries_ofLeaf (l : Leaf Key Val) : (ofLeaf l).entries = l.entries := append_nil _

@[simp]
theorem entries_ofInner (n : Inner Key (BTreeNode Key Val h)) :
    (ofInner n).entries = n.children.flatMap entries := flatMap_assoc

/-- `insertNonFull` puts a child back where it was. -/
def setChild (n : Inner Key (BTreeNode Key Val h)) (idx : ℕ) (r : BTreeNode Key Val h × ℕ) :
    BTreeNode Key Val (h + 1) × ℕ := (ofInner { n with children := n.children.set idx r.1 }, r.2)

variable [LinearOrder Key] {lo hi a b : WithBot (WithTop Key)} {order fresh : ℕ} {key : Key}
  {value : Option Val}

/-- **The tree's invariant**: leaves are sorted, and what is in a subtree lies
between the separators to its left and right. -/
def Within : {h : ℕ} → WithBot (WithTop Key) → WithBot (WithTop Key) → BTreeNode Key Val h → Prop
  | 0, lo, hi, n => Leaf.Within lo hi n
  | h + 1, lo, hi, n =>
    Fenced (fun lo hi (c : BTreeNode Key Val h) => c.Within lo hi) lo ((Inner.keys n).map bound)
      (Inner.children n) hi

theorem within_ofInner {n : Inner Key (BTreeNode Key Val h)} : (ofInner n).Within lo hi ↔
    Fenced Within lo (n.keys.map bound) n.children hi :=
  Iff.rfl

theorem Within.lt : {h : ℕ} → {lo hi : WithBot (WithTop Key)} → {n : BTreeNode Key Val h} →
    n.Within lo hi → lo < hi
  | 0, _, _, _, hn => Leaf.Within.lt hn
  | _ + 1, _, _, _, hn => Fenced.lt (fun _ _ _ hc => hc.lt) hn

theorem Within.separators {n : BTreeNode Key Val (h + 1)} (hn : n.Within lo hi) :
    (Inner.keys n).Pairwise (· < ·) ∧ ∀ k ∈ Inner.keys n, lo < bound k ∧ bound k < hi := by
  obtain ⟨hsorted, hmem⟩ := Fenced.separators (fun _ _ _ hc => hc.lt) hn
  rw [pairwise_map] at hsorted
  exact ⟨hsorted.imp fun h => bound_lt_bound.mp h, fun k hk => hmem _ (List.mem_map_of_mem hk)⟩

/-- Everything in a subtree lies between its bounds. -/
theorem Within.mem : {h : ℕ} → {lo hi : WithBot (WithTop Key)} → {n : BTreeNode Key Val h} →
    n.Within lo hi → ∀ x ∈ n.entries, lo ≤ bound x.1 ∧ bound x.1 < hi
  | 0, lo, hi, n, hn => by
    intro x hx
    exact Leaf.Within.mem hn _ (Leaf.mem_keys ((entries_ofLeaf n) ▸ hx))
  | h + 1, lo, hi, n, hn => by
    intro x hx
    obtain ⟨c, hc, hx⟩ := mem_flatMap.mp ((entries_ofInner n) ▸ hx)
    obtain ⟨a, b, ha, hb, hin⟩ := Fenced.mem (fun _ _ _ hc => hc.lt) hn hc
    have := hin.mem x hx
    exact ⟨ha.trans this.1, this.2.trans_le hb⟩

/-- **The tree is sorted.** -/
theorem Within.sorted : {h : ℕ} → {lo hi : WithBot (WithTop Key)} → {n : BTreeNode Key Val h} →
    n.Within lo hi → Sorted n.entries
  | 0, lo, hi, n, hn => by
    exact (entries_ofLeaf n) ▸ Leaf.Within.sorted_entries hn
  | h + 1, lo, hi, n, hn => by
    refine (entries_ofInner n) ▸ pairwise_flatMap.mpr ⟨fun c hc => ?_,
      (Fenced.pairwise (fun _ _ _ hc => hc.lt) hn).imp ?_⟩
    · obtain ⟨a, b, -, -, hin⟩ := Fenced.mem (fun _ _ _ hc => hc.lt) hn hc
      exact hin.sorted
    · rintro c d ⟨a, b, a', b', hc, hd, hba⟩ x hx y hy
      exact bound_lt_bound.mp (((hc.mem x hx).2.trans_le hba).trans_le (hd.mem y hy).1)

/-- A leaf has as many values as keys. -/
theorem Within.leaf_length : {h : ℕ} → {lo hi : WithBot (WithTop Key)} → {n : BTreeNode Key Val h} →
    n.Within lo hi → ∀ l ∈ n.leaves, l.values.length = l.keys.length
  | 0, lo, hi, n, hn => by
    intro l hl
    obtain rfl : l = n := mem_singleton.mp hl
    exact Leaf.Within.length hn
  | h + 1, lo, hi, n, hn => by
    intro l hl
    obtain ⟨c, hc, hl⟩ := mem_flatMap.mp ((leaves_ofInner n) ▸ hl)
    obtain ⟨a, b, -, -, hin⟩ := Fenced.mem (fun _ _ _ hc => hc.lt) hn hc
    exact hin.leaf_length l hl

/-! ## The route of a key -/

/-- **Where a key goes.** The inner node `n` falls apart at the child `c` that
the key leads to: what is to the left is smaller, what is to the right is
larger, and any row of children between the bounds `a` and `b` may take the
place of `c`. -/
structure Route (lo hi : WithBot (WithTop Key)) (n : Inner Key (BTreeNode Key Val h)) (key : Key)
    (ks₁ ks₂ : List Key) (cs₁ : List (BTreeNode Key Val h)) (c : BTreeNode Key Val h)
    (cs₂ : List (BTreeNode Key Val h)) (a b : WithBot (WithTop Key)) : Prop where
  keys : n.keys = ks₁ ++ ks₂
  children : n.children = cs₁ ++ c :: cs₂
  length : cs₁.length = ks₁.length
  index : findChildIndex n.keys key = ks₁.length
  child : c.Within a b
  bounds : a ≤ bound key ∧ bound key < b
  left : Keys (· < key) (cs₁.flatMap entries)
  right : Keys (key < ·) (cs₂.flatMap entries)
  replace : ∀ (ts : List Key) (ms : List (BTreeNode Key Val h)),
    Fenced (fun lo hi (c : BTreeNode Key Val h) => c.Within lo hi) a (ts.map bound) ms b →
      Fenced (fun lo hi (c : BTreeNode Key Val h) => c.Within lo hi) lo
      ((ks₁ ++ ts ++ ks₂).map bound)
        (cs₁ ++ ms ++ cs₂) hi

theorem Within.route {n : BTreeNode Key Val (h + 1)} (hn : n.Within lo hi)
    (hkey : lo ≤ bound key ∧ bound key < hi) :
    ∃ ks₁ ks₂ cs₁ c cs₂ a b, Route lo hi n key ks₁ ks₂ cs₁ c cs₂ a b := by
  obtain ⟨keys, children⟩ : Inner Key (BTreeNode Key Val h) := n
  obtain ⟨ks₁, ks₂, rfl, hle, hlt, hidx⟩ := findChildIndex_spec hn.separators.1 key
  obtain ⟨cs₁, c, cs₂, rfl, hlen⟩ : ∃ cs₁ c cs₂, children = cs₁ ++ c :: cs₂ ∧
    cs₁.length = ks₁.length := by
    have hlen := Fenced.length hn
    simp only [length_map, length_append] at hlen
    have hget : ks₁.length < children.length := by omega
    refine ⟨children.take ks₁.length, children[ks₁.length], children.drop (ks₁.length + 1), ?_, ?_⟩
    · rw [← drop_eq_getElem_cons hget, take_append_drop]
    · rw [length_take]
      omega
  have hfence : Fenced Within lo (ks₁.map bound ++ ks₂.map bound) (cs₁ ++ c :: cs₂) hi := by
    rw [← map_append]
    exact hn
  have hlen' : cs₁.length = (ks₁.map bound).length := by simpa using hlen
  obtain ⟨a, ha, b, hb, hc, hctx⟩ := hfence.focus hlen'
  refine ⟨ks₁, ks₂, cs₁, c, cs₂, a, b, rfl, rfl, hlen, hidx, hc, ⟨?_, ?_⟩, ?_, ?_,
    fun ts ms hm => ?_⟩
  · rcases mem_cons.mp ha with rfl | ha
    · exact hkey.1
    · obtain ⟨k, hk, rfl⟩ := List.mem_map.mp ha
      exact bound_le_bound.mpr (hle k hk)
  · rcases mem_cons.mp hb with rfl | hb
    · exact hkey.2
    · obtain ⟨k, hk, rfl⟩ := List.mem_map.mp hb
      exact bound_lt_bound.mpr (hlt k hk)
  · intro x hx
    obtain ⟨d, hd, hx⟩ := mem_flatMap.mp hx
    obtain ⟨a', b', hb', hin⟩ := hfence.left hlen' hd
    obtain ⟨k, hk, rfl⟩ := List.mem_map.mp hb'
    exact (bound_lt_bound.mp (hin.mem x hx).2).trans_le (hle k hk)
  · intro x hx
    obtain ⟨d, hd, hx⟩ := mem_flatMap.mp hx
    obtain ⟨a', ha', b', hin⟩ := hfence.right hlen' hd
    obtain ⟨k, hk, rfl⟩ := List.mem_map.mp ha'
    exact (hlt k hk).trans_le (bound_le_bound.mp (hin.mem x hx).1)
  · simpa using hctx _ ms hm

/-! ## Splitting -/

theorem split_leaf {n : Leaf Key Val} (hn : n.Within lo hi) (horder : 4 ≤ order)
    (hfull : order - 1 ≤ n.keys.length) (fresh : ℕ) :
    ∃ l separator r, n.split order fresh = some (l, separator, r) ∧ l.Within lo (bound separator) ∧
      r.Within (bound separator) hi ∧ [n].flatMap Leaf.entries = [l, r].flatMap Leaf.entries ∧
      Relinks [n] fresh [l, r] (fresh + 1) := by
  have hmid : (order - 1) / 2 + 1 < n.keys.length := by omega
  obtain ⟨separator, hsep⟩ : ∃ separator, n.keys[(order - 1) / 2 + 1]? = some separator :=
    ⟨_, getElem?_eq_getElem hmid⟩
  have hright : separator ∈ n.keys.drop ((order - 1) / 2 + 1) := by
    refine mem_of_getElem? (i := 0) ?_
    rw [getElem?_drop, Nat.add_zero]
    exact hsep
  -- the left half is not empty, and ends before the separator
  have hleft : ∀ k ∈ n.keys.take ((order - 1) / 2 + 1), k < separator := by
    have hsorted := hn.sorted
    rw [← take_append_drop ((order - 1) / 2 + 1) n.keys, pairwise_append] at hsorted
    exact fun k hk => hsorted.2.2 k hk separator hright
  have hge : ∀ k ∈ n.keys.drop ((order - 1) / 2 + 1), separator ≤ k := by
    have hsorted := hn.sorted.drop (i := (order - 1) / 2 + 1)
    rw [drop_eq_getElem_cons hmid] at hsorted ⊢
    have heq : n.keys[(order - 1) / 2 + 1] = separator := by
      simpa [getElem?_eq_getElem hmid] using hsep
    intro k hk
    rcases mem_cons.mp hk with rfl | hk
    · exact heq.ge
    · exact heq ▸ ((pairwise_cons.mp hsorted).1 k hk).le
  have hzip : n.entries = (n.keys.take ((order - 1) / 2 + 1)).zip
    (n.values.take ((order - 1) / 2 + 1)) ++
      (n.keys.drop ((order - 1) / 2 + 1)).zip (n.values.drop ((order - 1) / 2 + 1)) := by
    rw [← zip_append (by simp [hn.length]), take_append_drop, take_append_drop]
    rfl
  have hfirst : n.keys[0] ∈ n.keys.take ((order - 1) / 2 + 1) :=
    mem_take_iff_getElem.mpr ⟨0, by omega, rfl⟩
  have hsplit : n.split order fresh = some
      ({ n with
          keys := n.keys.take ((order - 1) / 2 + 1)
          values := n.values.take ((order - 1) / 2 + 1)
          next := some fresh }, separator,
        { id := fresh
          keys := n.keys.drop ((order - 1) / 2 + 1)
          values := n.values.drop ((order - 1) / 2 + 1)
          next := n.next }) := by
    unfold Leaf.split
    simp only [hsep]
    rfl
  refine ⟨_, separator, _, hsplit, ?_, ?_, ?_, Relinks.split rfl rfl rfl rfl⟩
  · exact
      { lt := (hn.mem _ (getElem_mem _)).1.trans_lt (bound_lt_bound.mpr (hleft _ hfirst))
        length := by simp [hn.length]
        sorted := hn.sorted.take
        mem := fun k hk => ⟨(hn.mem k (mem_of_mem_take hk)).1, bound_lt_bound.mpr (hleft k hk)⟩ }
  · exact
      { lt := (hn.mem _ (mem_of_mem_drop hright)).2
        length := by simp [hn.length]
        sorted := hn.sorted.drop
        mem := fun k hk => ⟨bound_le_bound.mpr (hge k hk), (hn.mem k (mem_of_mem_drop hk)).2⟩ }
  · simpa using! hzip

theorem split_inner {n : Inner Key (BTreeNode Key Val h)}
    (hn : Fenced Within lo (n.keys.map bound) n.children hi)
    (horder : 4 ≤ order) (hfull : order - 1 ≤ n.keys.length) :
    ∃ l separator r, n.split order = some (l, separator, r) ∧
      Fenced Within lo (l.keys.map bound) l.children (bound separator) ∧
      Fenced Within (bound separator) (r.keys.map bound) r.children hi ∧
      n.children = l.children ++ r.children := by
  have hmid : (order - 1) / 2 < n.keys.length := by omega
  have hlen := hn.length
  rw [length_map] at hlen
  obtain ⟨separator, hsep⟩ : ∃ separator, n.keys[(order - 1) / 2]? = some separator :=
    ⟨_, getElem?_eq_getElem hmid⟩
  have hkeys : n.keys = n.keys.take ((order - 1) / 2) ++ separator :: n.keys.drop
    ((order - 1) / 2 + 1) := by
    have heq : n.keys[(order - 1) / 2] = separator := by
      simpa [getElem?_eq_getElem hmid] using hsep
    rw [← heq, ← drop_eq_getElem_cons hmid, take_append_drop]
  have hchildren : n.children = n.children.take ((order - 1) / 2 + 1) ++
    n.children.drop ((order - 1) / 2 + 1) :=
    (take_append_drop ..).symm
  rw [hkeys, hchildren, map_append, map_cons, fenced_append (by
    simp only [length_take, length_map]
    omega)] at hn
  exact ⟨_, separator, _, by unfold Inner.split; simp only [hsep]; rfl, hn.1, hn.2, hchildren⟩

/-- **A full node splits** at a separator, for any order that is not too
small. No entry is lost. -/
theorem Within.split (hn : n.Within lo hi) (horder : 4 ≤ order)
    (hfull : order - 1 ≤ n.size) (fresh : ℕ) :
    ∃ l separator r, n.split order fresh = some (l, separator, r) ∧ l.Within lo (bound separator) ∧
      r.Within (bound separator) hi ∧ n.entries = l.entries ++ r.entries ∧
      Relinks n.leaves fresh (l.leaves ++ r.leaves) (fresh + 1) := by
  cases h with
  | zero =>
    obtain ⟨l, separator, r, hsplit, hl, hr, hentries, hlinks⟩ := split_leaf hn horder hfull fresh
    exact ⟨l, separator, r, hsplit, hl, hr,
      hentries.trans (flatMap_append : ([l] ++ [r]).flatMap _ = _), hlinks⟩
  | succ h =>
    obtain ⟨l, separator, r, hsplit, hl, hr, hchildren⟩ := split_inner hn horder hfull
    have hleaves : leaves n = leaves (h := h + 1) l ++ leaves (h := h + 1) r :=
      (congrArg (flatMap leaves) hchildren).trans flatMap_append
    refine ⟨l, separator, r, hsplit, hl, hr, ?_, ?_⟩
    · exact (congrArg (flatMap Leaf.entries) hleaves).trans flatMap_append
    · rw [hleaves]
      exact Relinks.unused

/-! ## Inserting -/

theorem insertNonFull_ofInner (n : Inner Key (BTreeNode Key Val h)) :
    (ofInner n).insertNonFull key value order fresh =
      (n.children[findChildIndex n.keys key]?).bind fun c =>
        if order - 1 ≤ c.size then
          (splitChild n (findChildIndex n.keys key) order fresh).bind fun m =>
            (m.keys[findChildIndex n.keys key]?).bind fun separator =>
              let idx := if separator ≤ key then findChildIndex n.keys key +
                1 else findChildIndex n.keys key
              (m.children[idx]?).bind fun c =>
                (c.insertNonFull key value order (fresh + 1)).map (setChild m idx)
        else (c.insertNonFull key value order fresh).map
          (setChild n (findChildIndex n.keys key)) := by
  simp only [map_eq_bind]
  rfl

/-- The halves of a full child take its place. -/
theorem Route.splitChild {n : Inner Key (BTreeNode Key Val h)} {ks₁ ks₂ : List Key}
    {cs₁ cs₂ : List (BTreeNode Key Val h)} {c l r : BTreeNode Key Val h} {separator : Key}
    (hr : Route lo hi n key ks₁ ks₂ cs₁ c cs₂ a b)
    (hsplit : c.split order fresh = some (l, separator, r)) :
    BTreeNode.splitChild n ks₁.length order fresh =
      some ⟨ks₁ ++ [separator] ++ ks₂, cs₁ ++ [l, r] ++ cs₂⟩ := by
  have hnode : insertAt ((cs₁ ++ c :: cs₂).set ks₁.length l) (ks₁.length + 1) r = cs₁ ++
    [l, r] ++ cs₂ := by
    have hlen : (cs₁ ++ [l]).length = ks₁.length + 1 := by simp [hr.length]
    have : insertAt (cs₁ ++ [l] ++ cs₂) (ks₁.length + 1) r = cs₁ ++ [l] ++ r :: cs₂ :=
      insertAt_middle hlen
    rw [set_middle hr.length]
    simpa using this
  unfold BTreeNode.splitChild
  rw [hr.children, getElem?_middle hr.length]
  simp only [bind_eq_bind, bind_some, hsplit]
  rw [hr.keys, hnode, insertAt_middle rfl]
  simp

/-- What an insertion owes: one entry is written, the bounds and the chain are
kept. -/
structure Inserted (key : Key) (value : Option Val) (lo hi : WithBot (WithTop Key))
    (n : BTreeNode Key Val h) (fresh : ℕ) (n' : BTreeNode Key Val h) (fresh' : ℕ) : Prop where
  within : n'.Within lo hi
  entries : n'.entries = SortedAssoc.upsert key value n.entries
  relinks : Relinks n.leaves fresh n'.leaves fresh'

/-- The child is replaced by a row with one entry more. -/
theorem Route.inserted {n : Inner Key (BTreeNode Key Val h)} {ks₁ ks₂ ts : List Key}
    {cs₁ cs₂ ms : List (BTreeNode Key Val h)} {fresh' : ℕ}
    (hr : Route lo hi n key ks₁ ks₂ cs₁ c cs₂ a b)
    (hfence : Fenced Within a (ts.map bound) ms b)
    (hentries : ms.flatMap BTreeNode.entries = upsert key value c.entries)
    (hlinks : Relinks c.leaves fresh (ms.flatMap leaves) fresh') :
    Inserted key value lo hi (ofInner n) fresh (ofInner ⟨ks₁ ++ ts ++ ks₂, cs₁ ++ ms ++ cs₂⟩)
    fresh' where
  within := within_ofInner.mpr (hr.replace ts ms hfence)
  entries := by
    rw [entries_ofInner, entries_ofInner, hr.children, flatMap_append, flatMap_append,
      flatMap_append, flatMap_cons, hentries, ← append_assoc, upsert_append_right hr.right,
      upsert_append_left hr.left]
  relinks := by
    have := hlinks.frame (cs₁.flatMap leaves) (cs₂.flatMap leaves)
    rw [leaves_ofInner, leaves_ofInner, hr.children]
    simpa using this

/-- An inner node, from what insertions into its children do. -/
theorem insertNonFull_inner {n : Inner Key (BTreeNode Key Val h)} (hn : (ofInner n).Within lo hi)
    (horder : 4 ≤ order) (hkey : lo ≤ bound key ∧ bound key < hi) (fresh : ℕ)
    (ih : ∀ {lo hi} {c : BTreeNode Key Val h}, c.Within lo hi → lo ≤ bound key ∧
      bound key < hi → ∀ fresh,
      ∃ c' fresh', c.insertNonFull key value order fresh = some (c', fresh') ∧
        Inserted key value lo hi c fresh c' fresh') :
    ∃ n' fresh', (ofInner n).insertNonFull key value order fresh = some (n', fresh') ∧
      Inserted key value lo hi (ofInner n) fresh n' fresh' := by
  obtain ⟨ks₁, ks₂, cs₁, c, cs₂, a, b, hr⟩ := hn.route hkey
  have hr : Route lo hi n key ks₁ ks₂ cs₁ c cs₂ a b := hr
  have hget : n.children[ks₁.length]? = some c := by rw [hr.children, getElem?_middle hr.length]
  rw [insertNonFull_ofInner, hr.index, hget, bind_some]
  by_cases hfull : order - 1 ≤ c.size
  · obtain ⟨l, separator, r, hsplit, hl, hright, hentries, hlinks⟩ :=
      hr.child.split horder hfull fresh
    have hsep : (ks₁ ++ [separator] ++ ks₂)[ks₁.length]? = some separator := by
      rw [append_assoc]
      exact getElem?_middle rfl
    rw [if_pos hfull, hr.splitChild hsplit, bind_some, hsep, bind_some]
    by_cases hle : separator ≤ key
    · -- the key goes to the right half
      obtain ⟨r', fresh', hins, hr'⟩ := ih hright ⟨bound_le_bound.mpr hle, hr.bounds.2⟩ (fresh + 1)
      have hsmall : Keys (· < key) l.entries := fun x hx =>
        (bound_lt_bound.mp (hl.mem x hx).2).trans_le hle
      have hlen : (cs₁ ++ [l]).length = ks₁.length + 1 := by simp [hr.length]
      have hcs : ∀ x, cs₁ ++ [l, x] ++ cs₂ = cs₁ ++ [l] ++ x :: cs₂ := by simp
      simp only [if_pos hle]
      rw [hcs, getElem?_middle hlen, bind_some, hins, map_some, setChild, set_middle hlen]
      have hfence : Fenced Within a ([separator].map bound) [l, r'] b := ⟨hl, hr'.within⟩
      refine ⟨ofInner ⟨ks₁ ++ [separator] ++ ks₂, cs₁ ++ [l, r'] ++ cs₂⟩, fresh', by rw [hcs],
        hr.inserted hfence ?_ (hlinks.trans ?_)⟩
      · rw [hentries, upsert_append_left hsmall]
        simp [hr'.entries]
      · have := hr'.relinks.frame l.leaves []
        simpa using this
    · -- the key goes to the left half
      have hlt : key < separator := not_le.mp hle
      obtain ⟨l', fresh', hins, hl'⟩ := ih hl ⟨hr.bounds.1, bound_lt_bound.mpr hlt⟩ (fresh + 1)
      have hlarge : Keys (key < ·) r.entries := fun x hx =>
        hlt.trans_le (bound_le_bound.mp (hright.mem x hx).1)
      have hcs : ∀ x, cs₁ ++ [x, r] ++ cs₂ = cs₁ ++ x :: r :: cs₂ := by simp
      simp only [if_neg hle]
      rw [hcs, getElem?_middle hr.length, bind_some, hins, map_some, setChild,
        set_middle hr.length]
      have hfence : Fenced Within a ([separator].map bound) [l', r] b := ⟨hl'.within, hright⟩
      refine ⟨ofInner ⟨ks₁ ++ [separator] ++ ks₂, cs₁ ++ [l', r] ++ cs₂⟩, fresh', by rw [hcs],
        hr.inserted hfence ?_ (hlinks.trans ?_)⟩
      · rw [hentries, upsert_append_right hlarge]
        simp [hl'.entries]
      · have := hl'.relinks.frame [] r.leaves
        simpa using this
  · obtain ⟨c', fresh', hins, hc'⟩ := ih hr.child hr.bounds fresh
    have hks : n.keys = ks₁ ++ [] ++ ks₂ := by simp [hr.keys]
    have hcs : cs₁ ++ c' :: cs₂ = cs₁ ++ [c'] ++ cs₂ := by simp
    rw [if_neg hfull, hins, map_some, setChild, hr.children, set_middle hr.length, hks, hcs]
    exact ⟨_, _, rfl, hr.inserted hc'.within (by simpa using hc'.entries)
      (by simpa using hc'.relinks)⟩

/-- **An insertion does what it owes**, and does not panic. -/
theorem Within.insertNonFull (hn : n.Within lo hi) (horder : 4 ≤ order)
    (hkey : lo ≤ bound key ∧ bound key < hi) (value : Option Val) (fresh : ℕ) :
    ∃ n' fresh', n.insertNonFull key value order fresh = some (n', fresh') ∧
      Inserted key value lo hi n fresh n' fresh' := by
  induction h generalizing lo hi fresh with
  | zero =>
    obtain ⟨hin, hentries, hid, hnext⟩ := Leaf.Within.insertLeaf value hn hkey
    refine ⟨ofLeaf (insertLeaf n key value), fresh, rfl, hin, ?_, Relinks.replace hid hnext⟩
    rw [entries_ofLeaf, hentries]
    exact congrArg _ (entries_ofLeaf n).symm
  | succ h ih =>
    exact insertNonFull_inner hn horder hkey fresh fun hc hkey fresh => ih hc hkey fresh

/-! ## Descending -/

theorem findLeaf_ofInner (n : Inner Key (BTreeNode Key Val h)) :
    (ofInner n).findLeaf key = (n.children[findChildIndex n.keys key]?).bind fun c =>
    c.findLeaf key := rfl

theorem seekLeaf_ofInner (n : Inner Key (BTreeNode Key Val h)) :
    (ofInner n).seekLeaf key = match n.children[findChildIndex n.keys key]? with
      | some c => c.seekLeaf key
      | none => n.children.getLast?.bind fun c => c.seekLeaf key := rfl

omit [LinearOrder Key] in
theorem firstLeaf_ofInner (n : Inner Key (BTreeNode Key Val h)) :
    (ofInner n).firstLeaf = (n.children[0]?).bind fun c => c.firstLeaf := rfl

/-- **A descent reaches the one leaf** where the key can be, in `Get` and in
the scans. -/
theorem Within.findLeaf (hn : n.Within lo hi)
    (hkey : lo ≤ bound key ∧ bound key < hi) :
    ∃ A l B a b, n.leaves = A ++ l :: B ∧ n.findLeaf key = some l ∧ n.seekLeaf key = some l ∧
      Leaf.Within a b l ∧ Keys (· < key) (A.flatMap Leaf.entries) ∧
      Keys (key < ·) (B.flatMap Leaf.entries) := by
  induction h generalizing lo hi with
  | zero => exact ⟨[], n, [], lo, hi, rfl, rfl, rfl, hn, nofun, nofun⟩
  | succ h ih =>
    obtain ⟨ks₁, ks₂, cs₁, c, cs₂, a, b, hr⟩ := hn.route hkey
    obtain ⟨A, l, B, a', b', hleaves, hfind, hseek, hl, hA, hB⟩ := ih hr.child hr.bounds
    have hget : (Inner.children n)[findChildIndex (Inner.keys n) key]? = some c := by
      rw [hr.index, hr.children, getElem?_middle hr.length]
    refine ⟨cs₁.flatMap leaves ++ A, l, B ++ cs₂.flatMap leaves, a', b', ?_, ?_, ?_, hl, ?_, ?_⟩
    · refine (leaves_ofInner n).trans ?_
      rw [hr.children, flatMap_append, flatMap_cons, hleaves]
      simp
    · refine (findLeaf_ofInner n).trans ?_
      rw [hget]
      exact hfind
    · refine (seekLeaf_ofInner n).trans ?_
      rw [hget]
      exact hseek
    · rw [flatMap_append, flatMap_assoc]
      exact fun x hx => (mem_append.mp hx).elim (hr.left x) (hA x)
    · rw [flatMap_append, flatMap_assoc]
      exact fun x hx => (mem_append.mp hx).elim (hB x) (hr.right x)

/-- The leftmost leaf. -/
theorem Within.firstLeaf (hn : n.Within lo hi) :
    ∃ l B, n.leaves = l :: B ∧ n.firstLeaf = some l := by
  induction h generalizing lo hi with
  | zero => exact ⟨n, [], rfl, rfl⟩
  | succ h ih =>
    have hlen := Fenced.length hn
    obtain ⟨c, cs, hcs⟩ := exists_cons_of_length_eq_add_one hlen
    have hc : c ∈ Inner.children n := by simp [hcs]
    obtain ⟨a, b, -, -, hin⟩ := Fenced.mem (fun _ _ _ hc => hc.lt) hn hc
    obtain ⟨l, B, hleaves, hfirst⟩ := ih hin
    refine ⟨l, B ++ cs.flatMap leaves, ?_, ?_⟩
    · refine (leaves_ofInner n).trans ?_
      rw [hcs, flatMap_cons, hleaves]
      rfl
    · refine (firstLeaf_ofInner n).trans ?_
      rw [hcs]
      exact hfirst

end BTreeNode

/-! ## The whole tree -/

namespace BTreeIndex

variable [LinearOrder Key] {t : BTreeIndex Key Val} {key : Key}

/-- The entries, from left to right. -/
def entries (t : BTreeIndex Key Val) : List (Key × Option Val) := t.root.entries

/-- **The index is well formed**: the invariant of the tree, and the chain of
its leaves. -/
structure Ok (t : BTreeIndex Key Val) : Prop where
  within : t.root.Within ⊥ ⊤
  chain : Chain t.root.leaves t.fresh

theorem Ok.sorted (h : t.Ok) : Sorted t.entries := h.within.sorted

theorem ok_empty (order : ℕ) (h : 4 ≤ order) : (empty order h : BTreeIndex Key Val).Ok where
  within := ⟨bot_lt_top, rfl, List.Pairwise.nil, nofun⟩
  chain := ⟨⟨rfl, trivial⟩, pairwise_singleton .., fun l hl => by
    cases mem_singleton.mp hl
    exact Nat.one_pos⟩

theorem between (key : Key) : (⊥ : WithBot (WithTop Key)) ≤ bound key ∧ bound key < ⊤ :=
  ⟨bot_le, bound_lt_top key⟩

theorem insert_eq (value : Option Val) : t.insert key value =
    if t.order - 1 ≤ t.root.size then
      (BTreeNode.splitChild ⟨[], [t.root]⟩ 0 t.order t.fresh).bind fun root =>
        ((ofInner root).insertNonFull key value t.order (t.fresh + 1)).map fun r =>
          { t with height := t.height + 1, root := r.1, fresh := r.2 }
    else
      (t.root.insertNonFull key value t.order t.fresh).map fun r =>
      { t with root := r.1, fresh := r.2 } := by
  simp only [map_eq_bind]
  rfl

/-- **`insert`** writes one entry and keeps the index well formed. -/
theorem Ok.insert (h : t.Ok) (key : Key) (value : Option Val) :
    ∃ t', t.insert key value = some t' ∧ t'.Ok ∧ t'.entries = upsert key value t.entries ∧
      t'.order = t.order := by
  rw [insert_eq]
  by_cases hfull : t.order - 1 ≤ t.root.size
  · obtain ⟨l, separator, r, hsplit, hl, hr, hentries, hlinks⟩ :=
      h.within.split t.order_ge hfull t.fresh
    have hroot : BTreeNode.splitChild ⟨[], [t.root]⟩ 0 t.order t.fresh =
      some ⟨[separator], [l, r]⟩ := by
      unfold BTreeNode.splitChild
      simp only [getElem?_cons_zero, bind_eq_bind, bind_some, hsplit]
      rfl
    have hin : (ofInner ⟨[separator], [l, r]⟩).Within ⊥ ⊤ :=
      within_ofInner.mpr ⟨hl, hr⟩
    obtain ⟨root, fresh, hins, hok⟩ :=
      hin.insertNonFull t.order_ge (between key) value (t.fresh + 1)
    rw [if_pos hfull, hroot, bind_some, hins, map_some]
    refine ⟨_, rfl, ⟨hok.within, ?_⟩, ?_, rfl⟩
    · have hchain := hlinks [] [] (by simpa using h.chain)
      have := hok.relinks [] [] (by simpa using hchain)
      simpa using this
    · refine hok.entries.trans ?_
      rw [entries_ofInner, entries, hentries]
      simp
  · obtain ⟨root, fresh, hins, hok⟩ := h.within.insertNonFull t.order_ge (between key) value t.fresh
    rw [if_neg hfull, hins, map_some]
    refine ⟨_, rfl, ⟨hok.within, ?_⟩, hok.entries, rfl⟩
    have := hok.relinks [] [] (by simpa using h.chain)
    simpa using this

end BTreeIndex

end Anubis.Storage

/-!
## Scans

A scan walks along the leaves, takes the live entries its `visit` selects, and
stops early. On a sorted tree it collects exactly the entries that are
selected, provided that nothing is selected after a key at which it stops.
-/

namespace Anubis.Storage

open List Option Leaf

namespace CobaltDB

open SortedAssoc

variable {σ : Type} {visit : Key → Visit} {collect : σ → Key → Bytes → Except EngineError σ}
  {ls : List (Leaf Key Bytes)} {es : List (Key × Option Bytes)} {acc : σ}

/-- The live entries that are selected. -/
def taken (visit : Key → Visit) (es : List (Key × Option Bytes)) : List (Key × Bytes) :=
  es.filterMap fun x => if visit x.1 = .take then x.2.map (x.1, ·) else none

theorem mem_taken {key : Key} {value : Bytes} :
    (key, value) ∈ taken visit es ↔ (key, some value) ∈ es ∧ visit key = .take := by
  simp only [taken, mem_filterMap]
  constructor
  · rintro ⟨⟨k, v⟩, hmem, heq⟩
    split at heq
    · rename_i htake
      cases v with
      | none => cases heq
      | some =>
        cases heq
        exact ⟨hmem, htake⟩
    · cases heq
  · rintro ⟨hmem, htake⟩
    exact ⟨(key, some value), hmem, by simp [htake]⟩

theorem Sorted.taken (h : Sorted es) : Sorted (taken visit es) := by
  refine List.Pairwise.filterMap _ ?_ h
  rintro ⟨k, v⟩ ⟨k', v'⟩ hlt ⟨x, w⟩ hx ⟨y, w'⟩ hy
  have hxk : x = k := by
    simp only [ite_none_right_eq_some, map_eq_some_iff, Prod.mk.injEq] at hx
    obtain ⟨-, -, -, rfl, -⟩ := hx
    rfl
  have hyk : y = k' := by
    simp only [ite_none_right_eq_some, map_eq_some_iff, Prod.mk.injEq] at hy
    obtain ⟨-, -, -, rfl, -⟩ := hy
    rfl
  rw [hxk, hyk]
  exact hlt

/-- Nothing is selected after a key at which the scan stops. -/
def StopsWell (visit : Key → Visit) (es : List (Key × Option Bytes)) : Prop :=
  es.Pairwise fun x y => visit x.1 = .stop → visit y.1 ≠ .take

theorem taken_of_stop {x : Key × Option Bytes} (h : StopsWell visit (x :: es))
    (hx : visit x.1 = .stop) : taken visit (x :: es) = [] := by
  refine eq_nil_iff_forall_not_mem.mpr ?_
  rintro ⟨k, v⟩ hmem
  obtain ⟨hmem, htake⟩ := mem_taken.mp hmem
  rcases mem_cons.mp hmem with rfl | hmem
  · rw [hx] at htake
    cases htake
  · exact (pairwise_cons.mp h).1 _ hmem hx htake

/-- The entries of the leaves a scan has not reached yet come after those of
its leaf. -/
theorem scanLeaf_spec (collect : σ → Key → Bytes → Except EngineError σ) (acc : σ) {keys : List Key}
    {values : List (Option Bytes)} (hlen : values.length = keys.length)
    (rest : List (Key × Option Bytes)) (h : StopsWell visit (keys.zip values ++ rest)) :
    (∃ acc', scanLeaf visit collect keys values acc = some (.inl acc') ∧
      (taken visit (keys.zip values)).foldlM (fun acc x => collect acc x.1 x.2) acc = .ok acc') ∨
    (∃ r, scanLeaf visit collect keys values acc = some (.inr r) ∧
      (taken visit (keys.zip values ++ rest)).foldlM (fun acc x => collect acc x.1 x.2) acc =
      r) := by
  induction keys generalizing values acc with
  | nil => exact .inl ⟨acc, rfl, rfl⟩
  | cons key keys ih =>
    cases values with
    | nil => cases hlen
    | cons value values =>
      have hlen' : values.length = keys.length := by simpa using hlen
      rw [zip_cons_cons, cons_append] at h
      have htail := (pairwise_cons.mp h).2
      cases hv : visit key with
      | skip =>
        have htaken : ∀ es, taken visit ((key, value) :: es) = taken visit es := by
          intro es
          simp [taken, hv]
        simp only [scanLeaf, hv, zip_cons_cons, cons_append, htaken]
        exact ih _ hlen' htail
      | stop =>
        refine .inr ⟨.ok acc, by simp only [scanLeaf, hv], ?_⟩
        rw [zip_cons_cons, cons_append, taken_of_stop h hv]
        rfl
      | take =>
        cases value with
        | none =>
          have htaken : ∀ es, taken visit ((key, none) :: es) = taken visit es := by
            intro es
            simp [taken]
          simp only [scanLeaf, hv, zip_cons_cons, cons_append, htaken]
          exact ih _ hlen' htail
        | some value =>
          have htaken : ∀ es, taken visit ((key, some value) :: es) =
            (key, value) :: taken visit es := by
            intro es
            simp [taken, hv]
          simp only [scanLeaf, hv, zip_cons_cons, cons_append, htaken, foldlM_cons]
          cases hc : collect acc key value with
          | ok => exact ih _ hlen' htail
          | error e => exact .inr ⟨.error e, rfl, rfl⟩

/-- **A scan collects what it selects**, in the order of the keys. -/
theorem scanLeaves_spec (hlen : ∀ l ∈ ls, l.values.length = l.keys.length)
    (h : StopsWell visit (ls.flatMap entries)) :
    scanLeaves visit collect ls acc =
      some ((taken visit (ls.flatMap entries)).foldlM (fun acc x => collect acc x.1 x.2) acc) := by
  induction ls generalizing acc with
  | nil => rfl
  | cons l ls ih =>
    rw [flatMap_cons] at h ⊢
    rw [scanLeaves]
    rcases scanLeaf_spec collect acc (hlen l (by simp)) _ h with
      ⟨acc', heq, hfold⟩ | ⟨r, heq, hfold⟩
    · have htail : StopsWell visit (ls.flatMap entries) := (pairwise_append.mp h).2.1
      have happend : ∀ es es', taken visit (es ++ es') = taken visit es ++ taken visit es' :=
        fun _ _ => filterMap_append
      have hfold : (taken visit l.entries).foldlM (fun acc x => collect acc x.1 x.2) acc =
        .ok acc' := hfold
      rw [heq, happend, foldlM_append, hfold]
      exact ih (fun l hl => hlen l (by simp [hl])) htail
    · rw [heq, ← hfold]
      rfl

/-! ## Where a scan starts -/

variable {t : BTreeIndex Key Bytes}

/-- A scan begins at the leaf of its start key. Entries to the left of it are
smaller. -/
theorem seek_spec (h : t.Ok) (start : Key) :
    ∃ A node a b, t.root.seekLeaf start = some node ∧ node.Within a b ∧
      t.entries = A ++ node.entries ++ (t.after node).flatMap entries ∧ Keys (· < start) A ∧
      ∀ l ∈ node :: t.after node, l.values.length = l.keys.length := by
  obtain ⟨A, node, B, a, b, hleaves, -, hseek, hin, hA, -⟩ :=
    h.within.findLeaf (BTreeIndex.between start)
  have hafter : t.after node = B := by
    refine h.chain.follow hleaves ?_
    rw [hleaves, length_append, length_cons]
    omega
  refine ⟨A.flatMap entries, node, a, b, hseek, hin, ?_, hA, fun l hl => ?_⟩
  · unfold BTreeIndex.entries BTreeNode.entries
    rw [hafter, hleaves]
    simp
  · rw [hafter] at hl
    exact h.within.leaf_length l (by rw [hleaves]; exact mem_append_right _ hl)

end CobaltDB

end Anubis.Storage
