import Anubis.Api.Model.Souls
import Mathlib.Data.List.TakeDrop
import Mathlib.Data.List.TakeWhile

/-!
# What masking changes in a target

A target that can be parsed is changed if it has a user, if a parameter with the
name of a secret has a value other than the mask, or if the query ends with an
ampersand, which is dropped. One that cannot be parsed is changed if it has an `@`.
-/

namespace Anubis.Api

open Text List

variable {urls : URLs}

/-! ## Parameters -/

theorem span_parameter {key val : List Char} (hkey : '=' ∉ key) :
    (key ++ '=' :: val).span (· ≠ '=') = (key, '=' :: val) := by
  have hall : ∀ c ∈ key, decide (c ≠ '=') = true :=
    fun c hc => decide_eq_true fun heq => hkey (heq ▸ hc)
  rw [span_eq_takeWhile_dropWhile, takeWhile_append_of_pos hall, dropWhile_append_of_pos hall]
  simp

theorem sanitizePair_parameter {key val : List Char} (hkey : '=' ∉ key) :
    sanitizePair urls (key ++ '=' :: val) =
      key ++ '=' :: if secretName urls key ∧ val ≠ [] then ['*', '*', '*'] else val := by
  simp only [sanitizePair, span_parameter hkey]

theorem sanitizePair_of_not_mem {pair : List Char} (h : '=' ∉ pair) :
    sanitizePair urls pair = pair := by
  have hall : ∀ c ∈ pair, decide (c ≠ '=') = true :=
    fun c hc => decide_eq_true fun heq => h (heq ▸ hc)
  simp only [sanitizePair, span_eq_takeWhile_dropWhile, dropWhile_eq_nil_iff.mpr hall]

/-- Masking a parameter adds nothing but stars. -/
theorem mem_of_mem_sanitizePair {pair : List Char} {c : Char} (hc : c ∈ sanitizePair urls pair) :
    c ∈ pair ∨ c = '*' := by
  by_cases hmem : '=' ∈ pair
  · obtain ⟨key, val, rfl, hkey⟩ := eq_append_cons_of_mem hmem
    rw [sanitizePair_parameter hkey] at hc
    split at hc
    · have hstars : c ∈ key ∨ c = '=' ∨ c = '*' := by simpa using hc
      rcases hstars with h | rfl | rfl
      · exact .inl (mem_append_left _ h)
      · exact .inl hmem
      · exact .inr rfl
    · exact .inl hc
  · rw [sanitizePair_of_not_mem hmem] at hc
    exact .inl hc

theorem sanitizePair_eq_nil {pair : List Char} : sanitizePair urls pair = [] ↔ pair = [] := by
  by_cases hmem : '=' ∈ pair
  · obtain ⟨key, val, rfl, hkey⟩ := eq_append_cons_of_mem hmem
    simp [sanitizePair_parameter hkey]
  · rw [sanitizePair_of_not_mem hmem]

/-- A parameter with the name of a secret and a value to mask. -/
def HidesPair (urls : URLs) (pair : List Char) : Prop :=
  ∃ key val, pair = key ++ '=' :: val ∧ '=' ∉ key ∧ secretName urls key ∧
    val ≠ [] ∧ val ≠ ['*', '*', '*']

theorem sanitizePair_eq_self_iff {pair : List Char} :
    sanitizePair urls pair = pair ↔ ¬HidesPair urls pair := by
  constructor
  · rintro h ⟨key, val, rfl, hkey, hsecret, hval, hstars⟩
    rw [sanitizePair_parameter hkey, if_pos ⟨hsecret, hval⟩] at h
    exact hstars (cons.inj (append_cancel_left h)).2.symm
  · intro h
    by_cases hmem : '=' ∈ pair
    · obtain ⟨key, val, rfl, hkey⟩ := eq_append_cons_of_mem hmem
      rw [sanitizePair_parameter hkey]
      split
      · next hsecret =>
        have hstars : val = ['*', '*', '*'] :=
          not_not.mp fun hne => h ⟨key, val, rfl, hkey, hsecret.1, hsecret.2, hne⟩
        rw [hstars]
      · rfl
    · exact sanitizePair_of_not_mem hmem

/-! ## Queries -/

/-- The pieces of a text have its characters, and not the one between them. -/
theorem mem_of_mem_splitOn {x c : Char} {text piece : List Char}
    (hpiece : piece ∈ text.splitOn x) (hc : c ∈ piece) : c ∈ text ∧ c ≠ x := by
  induction text generalizing piece with
  | nil => simp_all
  | cons d rest ih =>
    rw [splitOn_cons_eq_if_modifyHead] at hpiece
    obtain ⟨first, others, hsplit⟩ := exists_cons_of_ne_nil (splitOn_ne_nil x rest)
    split at hpiece
    · rcases mem_cons.mp hpiece with rfl | hpiece
      · cases hc
      · exact (ih hpiece hc).imp_left (mem_cons_of_mem _)
    · next hd =>
      rw [hsplit, modifyHead_cons] at hpiece
      rcases mem_cons.mp hpiece with rfl | hpiece
      · rcases mem_cons.mp hc with rfl | hc
        · exact ⟨mem_cons_self, fun heq => hd (beq_iff_eq.mpr heq)⟩
        · exact (ih (hsplit ▸ mem_cons_self) hc).imp_left (mem_cons_of_mem _)
      · exact (ih (hsplit ▸ mem_cons_of_mem _ hpiece) hc).imp_left (mem_cons_of_mem _)

/-- What was masked can be cut into its parameters again. -/
theorem splitOn_sanitize {pairs : List (List Char)} (hne : pairs ≠ [])
    (hpairs : ∀ pair ∈ pairs, '&' ∉ pair) :
    (intercalate ['&'] (pairs.map (sanitizePair urls))).splitOn '&' =
      pairs.map (sanitizePair urls) := by
  refine splitOn_intercalate '&' (fun masked hmasked hamp => ?_) (by simpa using hne)
  obtain ⟨pair, hpair, rfl⟩ := mem_map.mp hmasked
  rcases mem_of_mem_sanitizePair hamp with h | h
  · exact hpairs pair hpair h
  · exact absurd h (by decide)

/-- **The query has something to mask**, or ends with an ampersand. -/
def HidesQuery (urls : URLs) (rawQuery : String) : Prop :=
  rawQuery.toList.getLast? = some '&' ∨
    ∃ pair ∈ rawQuery.toList.splitOn '&', HidesPair urls pair

theorem getLast?_splitOn {text : List Char} {x : Char} (hlast : text.getLast? ≠ some x) :
    (text.splitOn x).getLast? = some [] → text = [] := by
  intro h
  obtain ⟨init, hinit⟩ := getLast?_eq_some_iff.mp h
  rcases eq_or_ne init [] with rfl | hne
  · have hjoin : intercalate [x] (text.splitOn x) = text := intercalate_splitOn x
    rw [← hjoin, hinit]
    rfl
  · have hpieces : ∀ piece ∈ init, x ∉ piece := fun piece hpiece hx =>
      (mem_of_mem_splitOn (hinit ▸ mem_append_left _ hpiece) hx).2 rfl
    have hsplit : (intercalate [x] init ++ [x]).splitOn x = text.splitOn x := by
      rw [splitOn_append_cons_self, splitOn_intercalate x hpieces hne, splitOn_nil, hinit]
    have htext : intercalate [x] init ++ [x] = text := by
      have hjoin := congrArg (intercalate [x]) hsplit
      rwa [intercalate_splitOn, intercalate_splitOn] at hjoin
    exact absurd (by rw [← htext, getLast?_concat]) hlast

theorem sanitizeQueryString_eq_self_iff {q : String} :
    sanitizeQueryString urls q = q ↔ ¬HidesQuery urls q := by
  have htext : sanitizeQueryString urls q = q ↔
      (sanitizeQueryString urls q).toList = q.toList := String.toList_inj.symm
  have hamp : ∀ pair ∈ q.toList.splitOn '&', '&' ∉ pair := fun pair hpair h =>
    (mem_of_mem_splitOn hpair h).2 rfl
  rw [htext, HidesQuery, not_or]
  by_cases hlast : q.toList.getLast? = some '&'
  · obtain ⟨init, hinit⟩ := getLast?_eq_some_iff.mp hlast
    have hsplit : q.toList.splitOn '&' = init.splitOn '&' ++ [[]] := by
      rw [hinit, splitOn_append_cons_self, splitOn_nil]
    refine ⟨fun h => ?_, fun h => absurd hlast h.1⟩
    -- one parameter less was written
    have hlen := congrArg (fun text => (text.splitOn '&').length) h
    simp only [sanitizeQueryString, hsplit, getLast?_concat, if_true, dropLast_concat,
      String.toList_ofList] at hlen
    rw [splitOn_sanitize (splitOn_ne_nil _ _)
      fun pair hpair => hamp pair (hsplit ▸ mem_append_left _ hpair)] at hlen
    simp at hlen
  · have hpairs : (sanitizeQueryString urls q).toList = q.toList ↔
        ∀ pair ∈ q.toList.splitOn '&', sanitizePair urls pair = pair := by
      by_cases hempty : (q.toList.splitOn '&').getLast? = some []
      · have hq := getLast?_splitOn hlast hempty
        simp [sanitizeQueryString, hq, sanitizePair_eq_nil]
      · simp only [sanitizeQueryString, if_neg hempty, String.toList_ofList]
        have hmap : (q.toList.splitOn '&').map (sanitizePair urls) = q.toList.splitOn '&' ↔
            ∀ pair ∈ q.toList.splitOn '&', sanitizePair urls pair = pair := by
          simpa using map_inj_left (f := sanitizePair urls) (g := id) (l := q.toList.splitOn '&')
        rw [← hmap]
        constructor
        · intro h
          rw [← splitOn_sanitize (splitOn_ne_nil _ _) hamp, h]
        · intro h
          rw [h, intercalate_splitOn]
    rw [hpairs]
    simp only [sanitizePair_eq_self_iff, not_exists, not_and]
    exact ⟨fun h => ⟨hlast, h⟩, And.right⟩

theorem mem_of_mem_intercalate {sep : List Char} {c : Char} {parts : List (List Char)}
    (hc : c ∈ intercalate sep parts) : c ∈ sep ∨ ∃ part ∈ parts, c ∈ part := by
  induction parts with
  | nil => cases hc
  | cons first rest ih =>
    cases rest with
    | nil => simp_all
    | cons second rest =>
      rw [intercalate_cons_cons, mem_append, mem_append] at hc
      rcases hc with (hc | hc) | hc
      · exact .inr ⟨first, mem_cons_self, hc⟩
      · exact .inl hc
      · rcases ih hc with h | ⟨part, hpart, h⟩
        · exact .inl h
        · exact .inr ⟨part, mem_cons_of_mem _ hpart, h⟩

/-- Masking a query adds no fragment. -/
theorem sanitizeQueryString_noFragment {q : String} (hq : '#' ∉ q.toList) :
    '#' ∉ (sanitizeQueryString urls q).toList := by
  intro hmem
  rw [sanitizeQueryString, String.toList_ofList] at hmem
  rcases mem_of_mem_intercalate hmem with h | ⟨part, hpart, h⟩
  · exact absurd h (by decide)
  · obtain ⟨pair, hpair, rfl⟩ := mem_map.mp hpart
    have hpair : pair ∈ q.toList.splitOn '&' := by
      split at hpair
      · exact dropLast_subset _ hpair
      · exact hpair
    rcases mem_of_mem_sanitizePair h with h | h
    · exact hq (mem_of_mem_splitOn hpair h).1
    · exact absurd h (by decide)

/-! ## Targets -/

/-- **Masking changes the target**: a user, a query with something to mask, or an `@`
in a text that is no URL. -/
def HidesTarget (urls : URLs) (target : String) : Prop :=
  match urls.parse target with
  | none => '@' ∈ target.toList
  | some u => u.user.isSome ∨ HidesQuery urls u.rawQuery

theorem hidesTarget_of_user {target : String} {u : ParsedURL} (hu : urls.parse target = some u)
    (huser : u.user.isSome) : HidesTarget urls target := by
  simp only [HidesTarget, hu]
  exact .inl huser

/-- What masking does to a target, by whether it changes it. -/
theorem redactTarget_of_hides {target : String} (h : HidesTarget urls target) :
    redactTarget urls target =
      ((urls.parse target).elim redactedSecretValue fun u =>
        urls.string { u with user := none, rawQuery := sanitizeQueryString urls u.rawQuery },
        true) := by
  unfold redactTarget
  unfold HidesTarget at h
  split at h
  · next hparse => simp [hparse, h]
  · next u hparse =>
    have hchanged :
        (u.user.isSome || sanitizeQueryString urls u.rawQuery ≠ u.rawQuery) = true := by
      rcases h with h | h
      · simp [h]
      · simp [mt sanitizeQueryString_eq_self_iff.mp (not_not.mpr h)]
    simp only [hparse, if_pos hchanged, Option.elim_some]

theorem redactTarget_of_not_hides {target : String} (h : ¬HidesTarget urls target) :
    redactTarget urls target = (target, false) := by
  unfold redactTarget
  unfold HidesTarget at h
  split at h
  · next hparse => simp [hparse, h]
  · next u hparse =>
    rw [not_or] at h
    simp [hparse, h.1, sanitizeQueryString_eq_self_iff.mpr h.2]

/-- **The target that is shown is the target exactly if nothing in it is masked.** -/
theorem redactTarget_eq_self_iff {target : String} :
    (redactTarget urls target).1 = target ↔ ¬HidesTarget urls target := by
  constructor
  · intro heq h
    rw [redactTarget_of_hides h] at heq
    unfold HidesTarget at h
    split at h
    · next hparse =>
      -- the mask of a whole target has no `@`
      rw [← show redactedSecretValue = target by simpa [hparse] using heq] at h
      exact absurd h (by decide)
    · next u hparse =>
      have hother := urls.string_ne hparse
        (sanitizeQueryString_noFragment (urls.rawQuery_noFragment hparse))
        (h.imp_right fun h => mt sanitizeQueryString_eq_self_iff.mp (not_not.mpr h))
      exact hother (by simpa [hparse] using heq)
  · intro h
    rw [redactTarget_of_not_hides h]

end Anubis.Api
