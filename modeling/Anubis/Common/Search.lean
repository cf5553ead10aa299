import Mathlib.Data.Nat.Notation
import Mathlib.Data.List.GetD
import Mathlib.Order.Lattice

/-!
# Searching by bisection

`search n f` looks for the first of `0 … n - 1` that satisfies `f`, as the
standard library of Go does: it halves the interval, and is right where `f`
does not go back to false.
-/

namespace Search

open List

/-- The loop: everything below `i` fails, everything from `j` on holds. The
interval shrinks every time, `fuel` bounds how often. -/
def bisect (f : ℕ → Bool) : ℕ → ℕ → ℕ → ℕ
  | 0, i, _ => i
  | fuel + 1, i, j =>
    if i < j then
      let h := (i + j) / 2
      if f h then bisect f fuel i h else bisect f fuel (h + 1) j
    else i

/-- The first index below `n` that satisfies `f`, or `n`. -/
def search (n : ℕ) (f : ℕ → Bool) : ℕ := bisect f n 0 n

theorem bisect_spec {f : ℕ → Bool} {n : ℕ} (hf : ∀ a b, a ≤ b → b < n → f a = true → f b = true)
    (fuel i j : ℕ) (hfuel : j ≤ i + fuel) (hij : i ≤ j) (hj : j ≤ n) (hlow : ∀ a < i, f a = false)
    (hhigh : ∀ b, j ≤ b → b < n → f b = true) :
    bisect f fuel i j ≤ n ∧ (∀ a < bisect f fuel i j, f a = false) ∧
      ∀ b, bisect f fuel i j ≤ b → b < n → f b = true := by
  induction fuel generalizing i j with
  | zero =>
    have : i = j := by omega
    subst this
    exact ⟨hj, hlow, hhigh⟩
  | succ fuel ih =>
    unfold bisect
    split
    · rename_i hlt
      dsimp only
      split
      · rename_i hmid
        refine ih i _ (by omega) (by omega) (by omega) hlow fun b hb hbn => ?_
        exact hf _ b hb hbn hmid
      · rename_i hmid
        refine ih _ j (by omega) (by omega) hj (fun a ha => ?_) hhigh
        by_contra hne
        exact hmid (hf a _ (by omega) (by omega) (by simpa using hne))
    · have : i = j := by omega
      subst this
      exact ⟨hj, hlow, hhigh⟩

/-- **Bisection finds the first index.** -/
theorem search_spec {f : ℕ → Bool} {n : ℕ} (hf : ∀ a b, a ≤ b → b < n → f a = true → f b = true) :
    search n f ≤ n ∧ (∀ a < search n f, f a = false) ∧ ∀ b, search n f ≤ b → b < n → f b = true :=
  bisect_spec hf n 0 n (by omega) (Nat.zero_le _) le_rfl (fun _ h => absurd h (Nat.not_lt_zero _))
    fun _ h h' => absurd h' (by omega)

/-- The place where a list goes from one kind of elements to the other. -/
theorem search_append {α : Type} {p : α → Bool} {xs ys : List α} (hxs : ∀ x ∈ xs, p x = false)
    (hys : ∀ y ∈ ys, p y = true) {f : ℕ → Bool}
    (hf : ∀ i x, (xs ++ ys)[i]? = some x → f i = p x) :
    search (xs ++ ys).length f = xs.length := by
  have hleft : ∀ a < xs.length, f a = false := by
    intro a ha
    have hget : (xs ++ ys)[a]? = some xs[a] := by
      rw [getElem?_append_left ha, getElem?_eq_getElem ha]
    rw [hf a _ hget]
    exact hxs _ (getElem_mem ha)
  have hright : ∀ b, xs.length ≤ b → b < (xs ++ ys).length → f b = true := by
    intro b hb hlt
    rw [length_append] at hlt
    have hlt' : b - xs.length < ys.length := by omega
    have hget : (xs ++ ys)[b]? = some ys[b - xs.length] := by
      rw [getElem?_append_right hb, getElem?_eq_getElem hlt']
    rw [hf b _ hget]
    exact hys _ (getElem_mem hlt')
  obtain ⟨hle, hbelow, habove⟩ :=
    search_spec (f := f) (n := (xs ++ ys).length) fun a b hab hb ha => by
    rcases Nat.lt_or_ge a xs.length with hlt | hge
    · rw [hleft a hlt] at ha
      cases ha
    · exact hright b (hge.trans hab) hb
  have hlen : xs.length ≤ (xs ++ ys).length := by simp
  rcases Nat.lt_trichotomy (search (xs ++ ys).length f) xs.length with hlt | heq | hgt
  · have := habove _ le_rfl (hlt.trans_le hlen)
    rw [hleft _ hlt] at this
    cases this
  · exact heq
  · have := hbelow _ hgt
    rw [hright _ le_rfl (hgt.trans_le hle)] at this
    cases this

/-- A sorted list falls into two parts, and bisection finds the border. -/
theorem search_sorted {α : Type} {R : α → α → Prop} {p : α → Bool} {l : List α} (hl : l.Pairwise R)
    (hp : ∀ a b, R a b → p a = true → p b = true) {f : ℕ → Bool}
    (hf : ∀ i x, l[i]? = some x → f i = p x) :
    ∃ xs ys, l = xs ++ ys ∧ (∀ x ∈ xs, p x = false) ∧ (∀ y ∈ ys, p y = true) ∧
      search l.length f = xs.length := by
  have hcut : ∃ xs ys, l = xs ++ ys ∧ (∀ x ∈ xs, p x = false) ∧ ∀ y ∈ ys, p y = true := by
    clear hf
    induction l with
    | nil => exact ⟨[], [], rfl, nofun, nofun⟩
    | cons a l ih =>
      obtain ⟨ha, hl⟩ := pairwise_cons.mp hl
      cases hpa : p a with
      | true =>
        refine ⟨[], a :: l, rfl, nofun, fun y hy => ?_⟩
        rcases mem_cons.mp hy with rfl | hy
        · exact hpa
        · exact hp a y (ha y hy) hpa
      | false =>
        obtain ⟨xs, ys, rfl, hxs, hys⟩ := ih hl
        exact ⟨a :: xs, ys, rfl, by simpa [hpa] using hxs, hys⟩
  obtain ⟨xs, ys, rfl, hxs, hys⟩ := hcut
  exact ⟨xs, ys, rfl, hxs, hys, search_append hxs hys hf⟩

end Search
