import Anubis.Common.Search
import Mathlib.Data.List.Basic

/-!
# Spans of a line

Half-open spans, and lists of them in order that do not overlap. In such a list
the spans that lie before a point and those that do not are found by bisection,
and at most one span holds the point. Points are counted by the spans they are
in.
-/

/-- The points from `start` on and before `stop`. -/
@[ext]
structure Span (α : Type) where
  start : α
  stop : α
deriving DecidableEq

namespace Span

variable {α : Type} [LinearOrder α]

/-- The point is in the span. -/
def Has (s : Span α) (t : α) : Prop := s.start ≤ t ∧ t < s.stop

instance (s : Span α) (t : α) : Decidable (s.Has t) := inferInstanceAs (Decidable (_ ∧ _))

end Span

namespace Spans

open List

variable {α : Type} [LinearOrder α] {l l₁ l₂ : List (Span α)} {t : α} {s b : Span α}

/-- Some span of the list has the point. -/
def Covered (l : List (Span α)) (t : α) : Prop := ∃ s ∈ l, s.Has t

instance (l : List (Span α)) (t : α) : Decidable (Covered l t) :=
    inferInstanceAs (Decidable (∃ s ∈ l, s.Has t))

/-- The spans are in order: none is empty, and each ends before the next starts or
where it does. -/
structure Ordered (l : List (Span α)) : Prop where
  proper : ∀ s ∈ l, s.start < s.stop
  apart : l.Pairwise fun a b => a.stop ≤ b.start

@[simp]
theorem covered_nil : ¬Covered [] t := by
  simp [Covered]

@[simp]
theorem covered_cons : Covered (s :: l) t ↔ s.Has t ∨ Covered l t := by
  simp [Covered]

@[simp]
theorem covered_append : Covered (l₁ ++ l₂) t ↔ Covered l₁ t ∨ Covered l₂ t := by
  simp [Covered, or_and_right, exists_or]

theorem Ordered.nil : Ordered ([] : List (Span α)) := ⟨nofun, .nil⟩

theorem Ordered.single {a b : α} (h : a < b) : Ordered [⟨a, b⟩] :=
  ⟨by simpa using h, pairwise_singleton _ _⟩

theorem Ordered.cons (h : Ordered l) (hs : s.start < s.stop) (hle : ∀ b ∈ l, s.stop ≤ b.start) :
    Ordered (s :: l) :=
  ⟨forall_mem_cons.mpr ⟨hs, h.proper⟩, h.apart.cons hle⟩

theorem Ordered.append (h₁ : Ordered l₁) (h₂ : Ordered l₂) (h : ∀ a ∈ l₁, ∀ b ∈ l₂,
    a.stop ≤ b.start) :
    Ordered (l₁ ++ l₂) :=
  ⟨fun s hs => (mem_append.mp hs).elim (h₁.proper s) (h₂.proper s),
    pairwise_append.mpr ⟨h₁.apart, h₂.apart, h⟩⟩

theorem Ordered.right (h : Ordered (l₁ ++ l₂)) : Ordered l₂ :=
  ⟨fun s hs => h.proper s (mem_append_right _ hs), (pairwise_append.mp h.apart).2.1⟩

theorem Ordered.between (h : Ordered (l₁ ++ l₂)) {a : Span α} (ha : a ∈ l₁) (hb : b ∈ l₂) :
    a.stop ≤ b.start :=
  (pairwise_append.mp h.apart).2.2 a ha b hb

theorem Ordered.tail (h : Ordered (s :: l)) : Ordered l :=
  (show Ordered ([s] ++ l) from h).right

theorem Ordered.head_le (h : Ordered (s :: l)) (hb : b ∈ l) : s.stop ≤ b.start :=
  (show Ordered ([s] ++ l) from h).between (mem_singleton_self s) hb

/-! ## Bisection -/

/-- The span ends after the point. -/
def endsAfter (t : α) (s : Span α) : Bool := decide (t < s.stop)

/-- The index of the first span that ends after the point. -/
def firstAfter (l : List (Span α)) (t : α) : ℕ := Search.search l.length fun i =>
    l[i]?.any (endsAfter t)

/-- **Bisection splits the list** into the spans that end by the point and those
that end after it. -/
theorem Ordered.split (h : Ordered l) (t : α) :
    ∃ before after, l = before ++ after ∧ (∀ s ∈ before, s.stop ≤ t) ∧ (∀ s ∈ after, t < s.stop) ∧
      firstAfter l t = before.length := by
  -- ends come in order as well
  have hstops : l.Pairwise fun a b => a.stop ≤ b.stop :=
    h.apart.imp_of_mem fun _ hb hab => le_trans hab (le_of_lt (h.proper _ hb))
  have hgoes : ∀ a b : Span α, a.stop ≤ b.stop → endsAfter t a = true → endsAfter t b = true :=
    fun a b hab ha => decide_eq_true (lt_of_lt_of_le (of_decide_eq_true ha) hab)
  obtain ⟨before, after, hl, hbefore, hafter, hfound⟩ := Search.search_sorted hstops hgoes
    (f := fun i => l[i]?.any (endsAfter t)) fun i s hs => by rw [hs, Option.any_some]
  exact ⟨before, after, hl, fun s hs => not_lt.mp (of_decide_eq_false (hbefore s hs)),
    fun s hs => of_decide_eq_true (hafter s hs), hfound⟩

/-- The span found is the one that has the point, if there is one. -/
theorem Ordered.covered_iff (h : Ordered l) (t : α) : Covered l t ↔
    ∃ s, l[firstAfter l t]? = some s ∧ s.start ≤ t := by
  obtain ⟨before, after, rfl, hbefore, hafter, hfound⟩ := h.split t
  rw [hfound, getElem?_append_right le_rfl, Nat.sub_self, covered_append]
  have hnone : ¬Covered before t := fun ⟨s, hs, hhas⟩ => absurd hhas.2 (not_lt.mpr (hbefore s hs))
  rw [or_iff_right hnone]
  cases after with
  | nil => simp
  | cons s =>
    simp only [getElem?_cons_zero, Option.some.injEq, exists_eq_left', covered_cons]
    constructor
    · rintro (hhas | ⟨b, hb, hhas⟩)
      · exact hhas.1
      · exact le_trans (le_of_lt (h.right.proper s (.head _)))
          (le_trans (h.right.head_le hb) hhas.1)
    · exact fun hle => .inl ⟨hle, hafter s (.head _)⟩

/-! ## Counting -/

/-- Points of two kinds that exclude each other are counted apart. -/
theorem countP_split {β : Type} {p q r : β → Bool} {xs : List β} (h : ∀ x ∈ xs, p x = (q x || r x))
    (hdisjoint : ∀ x ∈ xs, ¬(q x = true ∧ r x = true)) :
    xs.countP p = xs.countP q + xs.countP r := by
  induction xs with
  | nil => rfl
  | cons x xs ih =>
    have ih := ih (fun y hy => h y (.tail _ hy)) fun y hy => hdisjoint y (.tail _ hy)
    have hx := h x (.head _)
    have hd := hdisjoint x (.head _)
    rw [countP_cons, countP_cons, countP_cons, ih]
    cases hq : q x <;> cases hr : r x <;> simp [hq, hr] at hx hd ⊢ <;> simp [hx] <;> omega

end Spans
