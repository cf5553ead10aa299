import Anubis.Sla.Model.Rollups
import Mathlib.Algebra.BigOperators.Group.List.Basic
import Mathlib.Algebra.Order.Group.Int
import Mathlib.Algebra.Ring.Int.Defs

/-!
# What merging and cutting leave

Merged ranges are in order and hold the instants of the given ones within the
period. Subtracting them leaves the other instants of the period, and so do the
hourly pieces.
-/

namespace Anubis.Sla

open Instant Spans List

variable {ranges out merged : List TimeRange} {r : TimeRange} {lo hi a b s t : ℤ}
    {l : List TimeRange}

/-! ## Merging -/

theorem clip_eq_some {r' : TimeRange} (h : clip lo hi r = some r') :
    r'.start < r'.stop ∧ ∀ t, r'.Has t ↔ (lo ≤ t ∧ t < hi) ∧ r.Has t := by
  unfold clip at h
  simp only [Option.ite_none_right_eq_some, Option.some.injEq] at h
  obtain ⟨hlt, rfl⟩ := h
  refine ⟨hlt, fun t => ?_⟩
  unfold Span.Has
  dsimp only
  split <;> split <;> omega

theorem clip_eq_none (h : clip lo hi r = none) : ¬((lo ≤ t ∧ t < hi) ∧ r.Has t) := by
  unfold clip at h
  simp only [ite_eq_right_iff, reduceCtorEq, imp_false] at h
  unfold Span.Has
  revert h
  split <;> split <;> omega

/-- Clipping keeps the instants of the period. -/
theorem covered_filterMap_clip :
    Covered (ranges.filterMap (clip lo hi)) t ↔ (lo ≤ t ∧ t < hi) ∧ Covered ranges t := by
  induction ranges with
  | nil => simp
  | cons r ranges ih =>
    rw [filterMap_cons, covered_cons, and_or_left, ← ih]
    cases h : clip lo hi r with
    | none => simp [clip_eq_none h]
    | some => rw [covered_cons, (clip_eq_some h).2]

/-- Merged ranges: none is empty, and each ends before the next starts. -/
def Merged (l : List TimeRange) : Prop :=
  (∀ s ∈ l, s.start < s.stop) ∧ l.Pairwise fun a b => a.stop < b.start

theorem Merged.concat (h : Merged l) (hr : r.start < r.stop) (hlt : ∀ s ∈ l, s.stop < r.start) :
    Merged (l ++ [r]) :=
  ⟨forall_mem_append.mpr ⟨h.1, by simpa using hr⟩,
    pairwise_append.mpr ⟨h.2, pairwise_singleton _ _, by simpa using hlt⟩⟩

/-- Joining a range that starts no earlier than those before it. -/
theorem joinNext_spec (hout : Merged out) (hr : r.start < r.stop) (hlate : ∀ s ∈ out,
    s.start ≤ r.start) :
    Merged (joinNext out r) ∧ (∀ s ∈ joinNext out r, s.start ≤ r.start) ∧
      ∀ t, Covered (joinNext out r) t ↔ Covered out t ∨ r.Has t := by
  rcases eq_nil_or_concat out with rfl | ⟨before, last, rfl⟩
  · exact ⟨hout.concat hr nofun, by simp [joinNext], by simp [joinNext]⟩
  · rw [concat_eq_append] at hout hlate ⊢
    simp only [joinNext, getLast?_append, getLast?_singleton, Option.some_or, dropLast_concat]
    obtain ⟨hpast, hstart⟩ := forall_mem_append.mp hlate
    obtain ⟨hproper, hlast⟩ := forall_mem_append.mp hout.1
    obtain ⟨hapart, -, hbefore⟩ := pairwise_append.mp hout.2
    rw [forall_mem_singleton] at hstart hlast
    have hbefore : ∀ s ∈ before, s.stop < last.start := fun s hs => hbefore s hs last (.head _)
    split
    · next hgap =>
      refine ⟨hout.concat hr (forall_mem_append.mpr ⟨fun s hs => ?_, by simpa using hgap⟩),
        forall_mem_append.mpr ⟨hlate, by simp⟩, fun t => ?_⟩
      · have := hbefore s hs
        omega
      · rw [covered_append, covered_cons, or_iff_left covered_nil]
    · next hgap =>
      split
      · next hlonger =>
        refine ⟨Merged.concat ⟨hproper, hapart⟩ (show last.start < r.stop by omega) hbefore,
          forall_mem_append.mpr ⟨hpast, by simpa using hstart⟩, fun t => ?_⟩
        simp only [covered_append, covered_cons, covered_nil, or_false, or_assoc, Span.Has]
        refine or_congr_right ?_
        omega
      · next hshorter =>
        refine ⟨hout, hlate, fun t => (or_iff_left_of_imp fun h => ⟨last, by simp, ?_⟩).symm⟩
        unfold Span.Has at *
        omega

theorem foldl_joinNext_spec (hl : l.Pairwise fun a b => a.start ≤ b.start)
    (hproper : ∀ r ∈ l, r.start < r.stop) (hout : Merged out) (hlate : ∀ s ∈ out, ∀ r ∈ l,
      s.start ≤ r.start) :
    Merged (l.foldl joinNext out) ∧ ∀ t, Covered (l.foldl joinNext out) t ↔ Covered out t ∨
    Covered l t := by
  induction l generalizing out with
  | nil => exact ⟨hout, by simp⟩
  | cons r l ih =>
    obtain ⟨hr, hl⟩ := pairwise_cons.mp hl
    obtain ⟨hmerged, hstarts, hcovered⟩ := joinNext_spec hout (hproper r (.head _))
      fun s hs => hlate s hs r (.head _)
    obtain ⟨h₁, h₂⟩ := ih hl (fun x hx => hproper x (.tail _ hx)) hmerged
      fun s hs x hx => le_trans (hstarts s hs) (hr x hx)
    refine ⟨h₁, fun t => ?_⟩
    rw [foldl_cons, h₂, hcovered, covered_cons, or_assoc]

theorem merge_spec (ranges : List TimeRange) (lo hi : ℤ) :
    Merged (merge ranges lo hi) ∧
      ∀ t, Covered (merge ranges lo hi) t ↔ (lo ≤ t ∧ t < hi) ∧ Covered ranges t := by
  have hperm := perm_insertionSort (fun a b : TimeRange => a.start ≤ b.start)
    (ranges.filterMap (clip lo hi))
  have hsorted := pairwise_insertionSort (fun a b : TimeRange => a.start ≤ b.start)
    (ranges.filterMap (clip lo hi))
  obtain ⟨hmerged, hcovered⟩ := foldl_joinNext_spec hsorted
    (fun r hr => by
      obtain ⟨r₀, -, h⟩ := mem_filterMap.mp (hperm.mem_iff.mp hr)
      exact (clip_eq_some h).1) ⟨forall_mem_nil _, .nil⟩ nofun
  refine ⟨hmerged, fun t => (hcovered t).trans ?_⟩
  rw [← covered_filterMap_clip, or_iff_right covered_nil]
  exact exists_congr fun r => and_congr_left' hperm.mem_iff

/-- **Merged ranges are in order.** -/
theorem ordered_merge (ranges : List TimeRange) (lo hi : ℤ) : Ordered (merge ranges lo hi) :=
  ⟨(merge_spec ranges lo hi).1.1, (merge_spec ranges lo hi).1.2.imp le_of_lt⟩

/-- **They hold the instants of the period that the given ranges hold.** -/
theorem covered_merge : Covered (merge ranges lo hi) t ↔ (lo ≤ t ∧ t < hi) ∧ Covered ranges t :=
  (merge_spec ranges lo hi).2 t

/-! ## Cutting -/

/-- A stretch that overlaps no range has none of their instants. -/
theorem not_covered_of_overlaps (hm : Ordered merged) (h : overlaps merged a b = false)
    (hle : a ≤ t) (hlt : t < b) : ¬Covered merged t := by
  obtain ⟨before, after, rfl, hbefore, hafter, hfound⟩ := hm.split a
  rw [overlaps, hfound, getElem?_append_right le_rfl, Nat.sub_self] at h
  rintro ⟨r, hr, hhas⟩
  rcases mem_append.mp hr with hr | hr
  · have := hbefore r hr
    exact absurd hhas.2 (by omega)
  · cases after with
    | nil => cases hr
    | cons first =>
      simp only [getElem?_cons_zero, Option.any_some, decide_eq_false_iff_not] at h
      have hstart : first.start ≤ r.start := by
        rcases mem_cons.mp hr with rfl | hr
        · exact le_rfl
        · have := hm.right.proper first (.head _)
          have := hm.right.head_le hr
          omega
      have := hhas.1
      omega

/-- What is left from the cursor on, given ranges that end after it. -/
theorem subtractLoop_spec (hm : Ordered merged) (hafter : ∀ r ∈ merged, a < r.stop) :
    Ordered (subtractLoop b a merged) ∧ (∀ r ∈ subtractLoop b a merged, a ≤ r.start) ∧
      ∀ t, Covered (subtractLoop b a merged) t ↔ (a ≤ t ∧ t < b) ∧ ¬Covered merged t := by
  induction merged generalizing a with
  | nil =>
    rw [subtractLoop]
    split
    · next h => exact ⟨Ordered.single h, by simp, by simp [Span.Has]⟩
    · next h => exact ⟨Ordered.nil, nofun, fun t => by simp; omega⟩
  | cons r rest ih =>
    have hstop := hafter r (.head _)
    have hproper := hm.proper r (.head _)
    rw [subtractLoop]
    split
    · next hstart =>
      obtain ⟨hordered, hstarts, hcovered⟩ := ih hm.tail (a := r.stop) fun x hx => by
        have := hm.tail.proper x hx
        have := hm.head_le hx
        omega
      -- nothing of the ranges that follow is before the end of this one
      have hrest : ∀ t < r.stop, ¬Covered rest t := fun t ht ⟨x, hx, hhas⟩ => by
        have := hm.head_le hx
        have := hhas.1
        omega
      have hmain : ∀ t, Covered (subtractLoop b r.stop rest) t ↔ r.stop ≤ t ∧ t < b ∧
        ¬Covered rest t := fun t => by
        rw [hcovered, and_assoc]
      split
      · next hgap =>
        refine ⟨hordered.cons hgap fun y hy => hproper.le.trans (hstarts y hy),
          forall_mem_cons.mpr ⟨le_rfl, fun x hx => ?_⟩, fun t => ?_⟩
        · have := hstarts x hx
          omega
        · rw [covered_append, hmain, covered_cons, covered_cons, or_iff_left covered_nil]
          have := hrest t
          simp only [Span.Has]
          by_cases hc : Covered rest t
          · simp only [hc, not_true_eq_false, or_true, and_false, or_false, iff_false]
            intro h
            exact this (by omega) hc
          · simp only [hc, not_false_eq_true, and_true, or_false]
            omega
      · next hgap =>
        refine ⟨hordered, fun x hx => ?_, fun t => ?_⟩
        · have := hstarts x hx
          omega
        · rw [nil_append, hmain, covered_cons]
          simp only [Span.Has]
          by_cases hc : Covered rest t
          · simp [hc]
          · simp only [hc, not_false_eq_true, and_true, or_false]
            omega
    · next hstart =>
      have hnone : ∀ t < b, ¬Covered (r :: rest) t := by
        rintro t ht ⟨x, hx, hhas⟩
        have := hhas.1
        rcases mem_cons.mp hx with rfl | hx
        · omega
        · have := hm.head_le hx
          omega
      split
      · next h =>
        refine ⟨Ordered.single h, by simp, fun t => ?_⟩
        rw [covered_cons, or_iff_left covered_nil]
        exact ⟨fun hhas => ⟨hhas, hnone t hhas.2⟩, fun h => h.1⟩
      · next h =>
        refine ⟨Ordered.nil, nofun, fun t => ?_⟩
        simp only [covered_nil, false_iff]
        omega

/-- **Subtracting leaves the instants that the ranges do not have.** -/
theorem subtract_spec (hm : Ordered merged) :
    Ordered (subtract a b merged) ∧ ∀ t, Covered (subtract a b merged) t ↔ (a ≤ t ∧ t < b) ∧
    ¬Covered merged t := by
  obtain ⟨before, after, rfl, hbefore, hafter, hfound⟩ := hm.split a
  rw [subtract, hfound, drop_left]
  obtain ⟨hordered, -, hcovered⟩ := subtractLoop_spec (b := b) hm.right hafter
  refine ⟨hordered, fun t => (hcovered t).trans (and_congr_right fun ht => ?_)⟩
  have : ¬Covered before t := fun ⟨r, hr, hhas⟩ => by
    have := hbefore r hr
    have := hhas.2
    omega
  rw [covered_append, or_iff_right this]

theorem hourPieces_spec (s hi : ℤ) :
    Ordered (hourPieces s hi) ∧
    (∀ r ∈ hourPieces s hi, s ≤ r.start ∧ r.stop ≤ hi ∧ r.stop ≤ hourEnd r.start) ∧
      ∀ t, Covered (hourPieces s hi) t ↔ s ≤ t ∧ t < hi := by
  fun_induction hourPieces s hi with
  | case1 s h e ih =>
    obtain ⟨hordered, hbounds, hcovered⟩ := ih
    have he : s < e ∧ e ≤ hi ∧ e ≤ hourEnd s := by
      have := lt_hourEnd s
      dsimp only [e]
      split <;> omega
    clear_value e
    refine ⟨hordered.cons he.1 fun y hy => (hbounds y hy).1,
      forall_mem_cons.mpr ⟨⟨le_rfl, he.2⟩, fun x hx => ?_⟩, fun t => ?_⟩
    · have := hbounds x hx
      omega
    · simp only [covered_cons, hcovered, Span.Has]
      omega
  | case2 => exact ⟨Ordered.nil, forall_mem_nil _, fun t => by simp; omega⟩

/-- The pieces of ranges in order are in order and hold the same instants. -/
theorem flatMap_hourPieces_spec (hl : Ordered l) :
    Ordered (l.flatMap fun r => hourPieces r.start r.stop) ∧
      (∀ x ∈ l.flatMap fun r => hourPieces r.start r.stop, ∃ r ∈ l, r.start ≤ x.start) ∧
      ∀ t, Covered (l.flatMap fun r => hourPieces r.start r.stop) t ↔ Covered l t := by
  induction l with
  | nil => exact ⟨Ordered.nil, nofun, fun t => Iff.rfl⟩
  | cons r rest ih =>
    obtain ⟨hordered, hbounds, hcovered⟩ := ih hl.tail
    obtain ⟨hpieces, hwithin, hhas⟩ := hourPieces_spec r.start r.stop
    rw [flatMap_cons]
    refine ⟨hpieces.append hordered ?_, ?_, fun t => ?_⟩
    · intro x hx y hy
      obtain ⟨z, hz, hle⟩ := hbounds y hy
      exact (hwithin x hx).2.1.trans ((hl.head_le hz).trans hle)
    · intro x hx
      rcases mem_append.mp hx with hx | hx
      · exact ⟨r, (.head _), (hwithin x hx).1⟩
      · obtain ⟨z, hz, hle⟩ := hbounds x hx
        exact ⟨z, .tail _ hz, hle⟩
    · rw [covered_append, covered_cons, hcovered, hhas, Span.Has]

/-- **Raw pieces are in order.** -/
theorem ordered_rawPieces (hm : Ordered merged) : Ordered (rawPieces a b merged) :=
  (flatMap_hourPieces_spec (subtract_spec hm).1).1

/-- **They hold the instants of the stretch outside the ranges.** -/
theorem covered_rawPieces (hm : Ordered merged) :
    Covered (rawPieces a b merged) t ↔ (a ≤ t ∧ t < b) ∧ ¬Covered merged t :=
  ((flatMap_hourPieces_spec (subtract_spec hm).1).2.2 t).trans ((subtract_spec hm).2 t)

/-! ## Lengths -/

/-- The length of all ranges together. -/
def total (l : List TimeRange) : ℤ := (l.map fun r => r.stop - r.start).sum

@[simp]
theorem total_nil : total [] = 0 := rfl

@[simp]
theorem total_cons : total (r :: l) = r.stop - r.start + total l := rfl

@[simp]
theorem total_append : total (l ++ out) = total l + total out := by
  simp [total]

theorem total_subtractLoop (hm : Ordered merged) (hin : ∀ r ∈ merged, a ≤ r.start ∧ r.stop ≤ b) :
    total merged + total (subtractLoop b a merged) = max 0 (b - a) := by
  induction merged generalizing a with
  | nil =>
    rw [subtractLoop]
    split <;> simp <;> omega
  | cons r rest ih =>
    have hproper := hm.proper r (.head _)
    obtain ⟨hr, hrest⟩ := forall_mem_cons.mp hin
    have hleft := ih hm.tail (a := r.stop) fun x hx => ⟨hm.head_le hx, (hrest x hx).2⟩
    rw [max_eq_right (by omega)] at hleft ⊢
    rw [subtractLoop, if_pos (by omega), if_pos (show a < r.stop by omega),
      total_append, total_cons]
    split <;> simp only [total_cons, total_nil] <;> omega

theorem total_hourPieces (s hi : ℤ) : total (hourPieces s hi) = max 0 (hi - s) := by
  fun_induction hourPieces s hi with
  | case1 s h e ih =>
    have he : e ≤ hi := by
      dsimp only [e]
      split <;> omega
    rw [total_cons, ih, max_eq_right (by omega), max_eq_right (by omega)]
    dsimp only
    omega
  | case2 =>
    rw [total_nil]
    omega

theorem total_flatMap_hourPieces (hl : ∀ r ∈ l, r.start < r.stop) :
    total (l.flatMap fun r => hourPieces r.start r.stop) = total l := by
  induction l with
  | nil => rfl
  | cons r rest ih =>
    obtain ⟨hr, hrest⟩ := forall_mem_cons.mp hl
    rw [flatMap_cons, total_append, total_hourPieces, ih hrest, total_cons, max_eq_right (by omega)]

/-- **Interval arithmetic is exact**: merging, subtracting and cutting at the hours
leave the instants they should, and the lengths add up to the period. -/
theorem interval_arithmetic (ranges : List TimeRange) (lo hi a b : ℤ) :
    (Merged (merge ranges lo hi) ∧ ∀ t, Covered (merge ranges lo hi) t ↔ (lo ≤ t ∧ t < hi) ∧
      Covered ranges t) ∧
      (Ordered (subtract a b (merge ranges lo hi)) ∧
        ∀ t, Covered (subtract a b (merge ranges lo hi)) t ↔
        (a ≤ t ∧ t < b) ∧ ¬Covered (merge ranges lo hi) t) ∧
      (Ordered (rawPieces a b (merge ranges lo hi)) ∧
        (∀ r ∈ rawPieces a b (merge ranges lo hi), r.stop ≤ hourEnd r.start) ∧
        ∀ t, Covered (rawPieces a b (merge ranges lo hi)) t ↔ (a ≤ t ∧ t < b) ∧
          ¬Covered (merge ranges lo hi) t) ∧
      total (merge ranges lo hi) + total (rawPieces lo hi (merge ranges lo hi)) =
      max 0 (hi - lo) := by
  have hm := ordered_merge ranges lo hi
  refine ⟨merge_spec ranges lo hi, subtract_spec hm, ⟨ordered_rawPieces hm, fun r hr => ?_,
    fun t => covered_rawPieces hm⟩, ?_⟩
  · obtain ⟨x, -, hx⟩ := mem_flatMap.mp hr
    exact ((hourPieces_spec _ _).2.1 r hx).2.2
  · have hin : ∀ r ∈ merge ranges lo hi, lo ≤ r.start ∧ r.stop ≤ hi := by
      intro r hr
      have hproper := hm.proper r hr
      have hfirst := (covered_merge.mp ⟨r, hr, le_rfl, hproper⟩).1.1
      have hlast := (covered_merge.mp ⟨r, hr, Int.le_sub_one_of_lt hproper,
        Int.sub_lt_self _ one_pos⟩).1.2
      omega
    rw [rawPieces, total_flatMap_hourPieces (subtract_spec hm).1.proper, subtract]
    obtain ⟨before, after, heq, hbefore, -, hfound⟩ := hm.split lo
    -- no merged range ends by the start of the period
    have hnil : before = [] := eq_nil_iff_forall_not_mem.mpr fun r hr => by
      have hmem : r ∈ merge ranges lo hi := heq ▸ mem_append_left _ hr
      have := hm.proper r hmem
      have := hin r hmem
      have := hbefore r hr
      omega
    rw [hfound, hnil]
    exact total_subtractLoop hm hin

/-!
## Counting judgments

`CountJudgments` over pieces in order counts each judgment of a piece once. Counts
of judgments in a stretch of time add up over stretches that follow one another.
-/

variable {pieces : List TimeRange} {accs : List Acc} {js : List Judgment} {j : Judgment} {t : Tally}
    {checks up : ℤ}

/-! ## Buckets -/

/-- The counts of a bucket: not more found alive than were checked. -/
def Acc.Ok (a : Acc) : Prop := 0 ≤ a.up ∧ a.up ≤ a.checks

theorem checks_addBucket (h : 0 ≤ checks) (source : Source) :
    (t.addBucket checks up source).checks = t.checks + checks := by
  unfold Tally.addBucket
  split
  · omega
  · rfl

theorem up_addBucket (h : 0 ≤ up) (hle : up ≤ checks) (source : Source) :
    (t.addBucket checks up source).up = t.up + up := by
  unfold Tally.addBucket
  split
  · omega
  · simp [not_lt.mpr hle, not_lt.mpr h]

theorem foldl_addBucket (h : ∀ a ∈ accs, a.Ok) :
    (accs.foldl (fun t a => t.addBucket a.checks a.up .raw) t).checks = t.checks +
    (accs.map Acc.checks).sum ∧
      (accs.foldl (fun t a => t.addBucket a.checks a.up .raw) t).up = t.up +
      (accs.map Acc.up).sum := by
  induction accs generalizing t with
  | nil => simp
  | cons a accs ih =>
    obtain ⟨hup, hle⟩ := h a (.head _)
    obtain ⟨hchecks, hups⟩ := ih (t := t.addBucket a.checks a.up .raw) fun x hx => h x (.tail _ hx)
    rw [foldl_cons, hchecks, hups, checks_addBucket (by omega), up_addBucket hup hle]
    simp only [map_cons, sum_cons]
    omega

/-! ## Pieces -/

/-- One element of a list grows. -/
theorem sum_map_modify {α : Type} {f : α → α} {g : α → ℤ} {n : ℤ} (hf : ∀ a, g (f a) = g a + n)
    {l : List α} {i : ℕ} (hi : i < l.length) : ((l.modify i f).map g).sum = (l.map g).sum + n := by
  induction l generalizing i with
  | nil => cases hi
  | cons a l ih =>
    cases i with
    | zero =>
      simp only [modify_zero_cons, map_cons, sum_cons, hf]
      omega
    | succ =>
      simp only [modify_succ_cons, map_cons, sum_cons, ih (Nat.lt_of_succ_lt_succ hi)]
      omega

theorem countJudgment_ok (h : ∀ a ∈ accs, a.Ok) : ∀ a ∈ countJudgment pieces accs j, a.Ok := by
  unfold countJudgment
  dsimp only
  split
  · exact h
  · split
    · exact h
    · split
      · exact h
      · intro a ha
        obtain ⟨i, hi⟩ := mem_iff_getElem?.mp ha
        rw [getElem?_modify] at hi
        obtain ⟨b, hb, rfl⟩ := Option.map_eq_some_iff.mp hi
        obtain ⟨hup, hle⟩ := h b (mem_of_getElem? hb)
        split
        · unfold Acc.Ok
          dsimp only
          split <;> omega
        · exact ⟨hup, hle⟩

/-- **A judgment is counted once if a piece holds it.** -/
theorem countJudgment_spec (hp : Ordered pieces) (hlen : accs.length = pieces.length) :
    (countJudgment pieces accs j).length = pieces.length ∧
      ((countJudgment pieces accs j).map Acc.checks).sum =
        (accs.map Acc.checks).sum +
          (if j.status ≠ .embalmed ∧ Covered pieces j.timestamp then 1 else 0) ∧
      ((countJudgment pieces accs j).map Acc.up).sum =
        (accs.map Acc.up).sum + (if j.status = .alive ∧
          Covered pieces j.timestamp then 1 else 0) := by
  unfold countJudgment
  simp only [hp.covered_iff]
  split
  · next h => simp [h, hlen]
  · next h =>
    cases hpiece : pieces[firstAfter pieces j.timestamp]? with
    | none => simp [hlen]
    | some piece =>
      have hi : firstAfter pieces j.timestamp < accs.length :=
        hlen ▸ (List.getElem?_eq_some_iff.mp hpiece).1
      dsimp only
      split
      · next hlt => simp [hlen, not_le.mpr hlt]
      · next hge =>
        have hle : piece.start ≤ j.timestamp := not_lt.mp hge
        refine ⟨by rw [length_modify, hlen], ?_, ?_⟩
        · rw [if_pos ⟨h, piece, rfl, hle⟩]
          exact sum_map_modify (fun _ => rfl) hi
        · by_cases halive : j.status = .alive
          · rw [if_pos ⟨halive, piece, rfl, hle⟩]
            exact sum_map_modify (fun _ => if_pos halive) hi
          · rw [if_neg fun hx => halive hx.1]
            exact sum_map_modify (g := Acc.up) (n := 0) (fun a => by simp [halive]) hi

theorem foldl_countJudgment (js : List Judgment) (hp : Ordered pieces)
    (hlen : accs.length = pieces.length) (hok : ∀ a ∈ accs, a.Ok) :
    (∀ a ∈ js.foldl (countJudgment pieces) accs, a.Ok) ∧
      ((js.foldl (countJudgment pieces) accs).map Acc.checks).sum =
        (accs.map Acc.checks).sum +
          js.countP (fun j => decide (j.status ≠ .embalmed ∧ Covered pieces j.timestamp)) ∧
      ((js.foldl (countJudgment pieces) accs).map Acc.up).sum =
        (accs.map Acc.up).sum + js.countP fun j =>
        decide (j.status = .alive ∧ Covered pieces j.timestamp) := by
  induction js generalizing accs with
  | nil => exact ⟨hok, by simp, by simp⟩
  | cons j js ih =>
    obtain ⟨hlen', hchecks, hup⟩ := countJudgment_spec (j := j) hp hlen
    obtain ⟨hok', h₁, h₂⟩ := ih hlen' (countJudgment_ok hok)
    refine ⟨hok', ?_, ?_⟩
    · rw [foldl_cons, h₁, hchecks, countP_cons]
      simp only [decide_eq_true_eq]
      split <;> push_cast <;> omega
    · rw [foldl_cons, h₂, hup, countP_cons]
      simp only [decide_eq_true_eq]
      split <;> push_cast <;> omega

/-- **`CountJudgments` counts what is in its pieces.** -/
theorem countJudgments_spec (js : List Judgment) (hp : Ordered pieces) :
    (t.countJudgments pieces js).checks =
        t.checks + js.countP (fun j => decide (j.status ≠ .embalmed ∧ Covered pieces j.timestamp)) ∧
      (t.countJudgments pieces js).up =
        t.up + js.countP fun j => decide (j.status = .alive ∧ Covered pieces j.timestamp) := by
  have hzero : ∀ a ∈ pieces.map fun _ => ({} : Acc), a.Ok := by
    intro a ha
    obtain ⟨_, -, rfl⟩ := mem_map.mp ha
    exact ⟨le_rfl, le_rfl⟩
  obtain ⟨hok, hchecks, hup⟩ := foldl_countJudgment js hp (length_map _) hzero
  obtain ⟨h₁, h₂⟩ := foldl_addBucket (t := t) hok
  have hsum : ∀ g : Acc → ℤ, g {} = 0 → ((pieces.map fun _ => ({} : Acc)).map g).sum = 0 := by
    intro g hg
    simp [hg]
  rw [Tally.countJudgments, h₁, h₂, hchecks, hup, hsum _ rfl, hsum _ rfl]
  omega

/-- Without pieces nothing is counted. -/
theorem countJudgments_nil (js : List Judgment) : t.countJudgments [] js = t := by
  have hfold : js.foldl (countJudgment []) [] = [] := by
    induction js with
    | nil => rfl
    | cons j js ih =>
      have hj : countJudgment [] [] j = [] := by simp [countJudgment]
      rw [foldl_cons, hj, ih]
  rw [Tally.countJudgments, map_nil, hfold, foldl_nil]

/-! ## Stretches -/

/-- The number of judgments of a kind in a stretch of time. -/
def countIn (js : List Judgment) (p : Judgment → Prop) [DecidablePred p] (a b : ℤ) : ℤ :=
  js.countP fun j => decide (p j ∧ a ≤ j.timestamp ∧ j.timestamp < b)

variable {p q r : Judgment → Prop} [DecidablePred p] [DecidablePred q] [DecidablePred r] {a b c : ℤ}

theorem countIn_nonneg (js : List Judgment) (p : Judgment → Prop) [DecidablePred p] (a b : ℤ) :
    0 ≤ countIn js p a b :=
  Int.natCast_nonneg _

/-- **Counts of two stretches that follow one another add up.** -/
theorem countIn_append (hab : a ≤ b) (hbc : b ≤ c) :
    countIn js p a c = countIn js p a b + countIn js p b c := by
  unfold countIn
  rw [countP_split (q := fun j => decide (p j ∧ a ≤ j.timestamp ∧ j.timestamp < b))
    (r := fun j => decide (p j ∧ b ≤ j.timestamp ∧ j.timestamp < c)), Int.natCast_add]
  · intro j _
    rw [← Bool.decide_or, decide_eq_decide, ← and_or_left]
    exact and_congr_right fun _ => by omega
  · intro j _
    simp only [decide_eq_true_eq]
    exact fun h => absurd h.2.2.1 (not_le.mpr h.1.2.2)

theorem countIn_congr (h : ∀ j ∈ js, a ≤ j.timestamp → j.timestamp < b → (p j ↔ q j)) :
    countIn js p a b = countIn js q a b := by
  unfold countIn
  rw [countP_congr]
  intro j hj
  simp only [decide_eq_true_eq]
  exact and_congr_left fun hab => h j hj hab.1 hab.2

/-- Two kinds that exclude each other are counted apart. -/
theorem countIn_add (h : ∀ j ∈ js, a ≤ j.timestamp → j.timestamp < b → (p j ↔ q j ∨ r j))
    (hdisjoint : ∀ j ∈ js, ¬(q j ∧ r j)) :
    countIn js p a b = countIn js q a b + countIn js r a b := by
  unfold countIn
  rw [countP_split (q := fun j => decide (q j ∧ a ≤ j.timestamp ∧ j.timestamp < b))
    (r := fun j => decide (r j ∧ a ≤ j.timestamp ∧ j.timestamp < b)), Int.natCast_add]
  · intro j hj
    rw [← Bool.decide_or, decide_eq_decide, ← or_and_right]
    exact and_congr_left fun hab => h j hj hab.1 hab.2
  · intro j hj
    simp only [decide_eq_true_eq]
    exact fun hx => hdisjoint j hj ⟨hx.1.1, hx.2.1⟩

theorem countIn_eq_zero : countIn js p a b = 0 ↔ ∀ j ∈ js, p j →
    ¬(a ≤ j.timestamp ∧ j.timestamp < b) := by
  unfold countIn
  rw [Int.natCast_eq_zero, countP_eq_zero]
  refine forall₂_congr fun j _ => ?_
  simp

theorem countIn_empty : countIn js p a a = 0 :=
  countIn_eq_zero.mpr fun _ _ _ h => absurd h.2 (not_lt.mpr h.1)

theorem countIn_le (h : ∀ j ∈ js, p j → q j) : countIn js p a b ≤ countIn js q a b := by
  unfold countIn
  refine Int.ofNat_le.mpr (countP_mono_left fun j hj => ?_)
  simp only [decide_eq_true_eq]
  exact fun hx => ⟨h j hj hx.1, hx.2⟩

end Anubis.Sla
