import Anubis.Storage.Helpers.WorkingDisk
import Mathlib.Algebra.Group.Action.Defs
import Mathlib.Algebra.Order.BigOperators.Group.List
import Mathlib.Algebra.Order.Group.Nat

/-!
# The sizes of batches

A batch is filled while its estimated size is within `walBatchBudget`. Only a
batch of one value can be larger. If the keys need no escapes, a batch within
the budget fits into a frame, and so do the tombstones of 2048 keys that are
not long.
-/

namespace Anubis.Storage

open SortedAssoc List Option Base64 CobaltDB

variable {batch : GoMap (Option Bytes)} {x : Key × Option Bytes}
    {values : List (Key × Option Bytes)}
variable {size : ℕ} {random : Option Draw} {moment : Moment} {now : Int64}

/-! ## Filling batches -/

/-- The estimated size of a map. -/
def mapCost (l : List (Key × Option Bytes)) : ℕ := (l.map walBatchCost).sum

theorem mapCost_upsert (key : Key) (value : Option Bytes) (l : List (Key × Option Bytes)) :
    mapCost (upsert key value l) ≤ mapCost l + walBatchCost (key, value) := by
  induction l with
  | nil => simp [upsert, mapCost]
  | cons x l ih =>
    obtain ⟨k, v⟩ := x
    unfold mapCost at ih ⊢
    simp only [upsert]
    split
    · simp only [map_cons, sum_cons]
      omega
    · split
      · simp only [map_cons, sum_cons]
        omega
      · simp only [map_cons, sum_cons]
        omega

theorem set_of_nil (h : batch.1 = []) (x : Key × Option Bytes) :
    (batch.set x.1 x.2).1 = [x] := by
  have hset : (batch.set x.1 x.2).1 = upsert x.1 x.2 batch.1 := rfl
  rw [hset, h]
  rfl

theorem walBatchCost_pos (x : Key × Option Bytes) : 0 < walBatchCost x := by
  unfold walBatchCost
  omega

/-- A batch so far: its size is an upper bound, and beyond the budget it has one
value. -/
structure Filling (batch : GoMap (Option Bytes)) (size : ℕ) : Prop where
  cost : mapCost batch.1 ≤ size
  budget : size ≤ walBatchBudget ∨ ∃ x, batch.1 = [x]
  empty : size = 0 → batch.1 = []

theorem Filling.single (x : Key × Option Bytes) :
    Filling (GoMap.empty.set x.1 x.2) (walBatchCost x) where
  cost := le_of_eq (by simp [mapCost, GoMap.set, GoMap.empty, upsert])
  budget := .inr ⟨x, rfl⟩
  empty h := absurd h (walBatchCost_pos x).ne'

theorem Filling.set (h : Filling batch size)
    (hroom : ¬ (0 < size ∧ walBatchBudget < size + walBatchCost x)) :
    Filling (batch.set x.1 x.2) (size + walBatchCost x) where
  cost := le_trans (mapCost_upsert x.1 x.2 batch.1) (Nat.add_le_add_right h.cost _)
  budget := by
    rcases Nat.eq_zero_or_pos size with h0 | hpos
    · exact .inr ⟨x, set_of_nil (h.empty h0) x⟩
    · exact .inl (not_lt.mp fun hlt => hroom ⟨hpos, hlt⟩)
  empty h0 := absurd h0 (by have := walBatchCost_pos x; omega)

/-- **The batches that are written** are within the budget or have one value. -/
theorem mem_fillBatches
    (h : Filling batch size) {b : GoMap (Option Bytes)} (hb : b ∈ fillBatches values batch size) :
    (mapCost b.1 ≤ walBatchBudget ∨ ∃ x, b.1 = [x]) ∧ ∀ x ∈ b.1, x ∈ batch.1 ∨ x ∈ values := by
  induction values generalizing batch size with
  | nil =>
    rw [fillBatches] at hb
    split at hb
    · cases hb
    · cases mem_singleton.mp hb
      exact ⟨h.budget.imp_left (le_trans h.cost), fun x hx => .inl hx⟩
  | cons y values ih =>
    have hset : ∀ batch : GoMap (Option Bytes), ∀ x ∈ (batch.set y.1 y.2).1, x ∈ batch.1 ∨
      x ∈ y :: values := by
      intro batch x hx
      rcases mem_upsert hx with rfl | hx
      · exact .inr (by simp)
      · exact .inl hx
    rw [fillBatches] at hb
    split at hb
    · rcases mem_cons.mp hb with rfl | hb
      · exact ⟨h.budget.imp_left (le_trans h.cost), fun x hx => .inl hx⟩
      · obtain ⟨hbudget, hmem⟩ := ih (.single y) hb
        refine ⟨hbudget, fun x hx => ?_⟩
        rcases hmem x hx with hx | hx
        · rcases hset GoMap.empty x hx with hx | hx
          · cases hx
          · exact .inr hx
        · exact .inr (by simp [hx])
    · rename_i hroom
      obtain ⟨hbudget, hmem⟩ := ih (h.set hroom) hb
      refine ⟨hbudget, fun x hx => ?_⟩
      rcases hmem x hx with hx | hx
      · exact hset batch x hx
      · exact .inr (by simp [hx])

/-- A batch beyond the budget is the next that is written. -/
theorem fillBatches_full (hne : batch.1 ≠ [])
    (hsize : walBatchBudget < size) (values : List (Key × Option Bytes)) :
    batch ∈ fillBatches values batch size := by
  cases values with
  | nil => simp [fillBatches, hne]
  | cons =>
    rw [fillBatches, if_pos ⟨by omega, by omega⟩]
    simp

/-- **A large value has a batch of its own.** -/
theorem fillBatches_large (hx : walBatchBudget < walBatchCost x) (hmem : x ∈ values)
    (h : Filling batch size) : ∃ b ∈ fillBatches values batch size, b.1 = [x] := by
  induction values generalizing batch size with
  | nil => cases hmem
  | cons y values ih =>
    rw [fillBatches]
    rcases mem_cons.mp hmem with rfl | hmem
    · split
      · exact ⟨GoMap.empty.set x.1 x.2, .tail _ (fillBatches_full (cons_ne_nil _ _) hx values),
          rfl⟩
      · rename_i hroom
        have hzero : size = 0 := by
          by_contra hne
          exact hroom ⟨Nat.pos_of_ne_zero hne, by omega⟩
        have hset := set_of_nil (h.empty hzero) x
        exact ⟨batch.set x.1 x.2, fillBatches_full (by simp [hset]) (by omega) values, hset⟩
    · split
      · obtain ⟨b, hb, heq⟩ := ih hmem (.single y)
        exact ⟨b, .tail _ hb, heq⟩
      · rename_i hroom
        exact ih hmem (h.set hroom)

theorem filling_empty : Filling GoMap.empty 0 where
  cost := le_rfl
  budget := .inl (Nat.zero_le _)
  empty _ := rfl

/-! ## Their frames -/

section

variable {J : MapJson} {db : CobaltDB}

theorem length_quote_plain {key : Key} (hkey : ∀ b ∈ key, isPlain b) :
    (J.quote key).length = key.length + 2 := by
  rw [J.quote_plain key hkey, length_append, length_append]
  have h₁ : (ascii "\"").length = 1 := rfl
  omega

/-- Encryption adds the salt, the nonce and the tag. -/
theorem length_storeValue {v : Bytes} {stored : Option Bytes}
    (h : db.storeValue random (some v) = some stored) :
    ∃ v', stored = some v' ∧ v.length ≤ v'.length ∧ v'.length ≤ v.length + 60 := by
  unfold storeValue at h
  cases he : db.encryptor with
  | none =>
    rw [he] at h
    cases h
    exact ⟨v, rfl, le_rfl, by omega⟩
  | some e =>
    rw [he] at h
    obtain ⟨data, henc, rfl⟩ := map_eq_some_iff.mp h
    refine ⟨data, rfl, ?_⟩
    unfold Encryptor.encrypt at henc
    simp only [bind_eq_bind, Option.pure_def, bind_eq_some_iff] at henc
    obtain ⟨draw, -, key, -, hdata⟩ := henc
    cases hdata
    rw [length_append, length_append, draw.salt_length, draw.nonce_length, e.length_gcmSeal,
      getD_some, encryptionSaltLen]
    omega

/-- The text of a stored value. -/
theorem length_bytesText_stored {v stored : Option Bytes}
    (h : db.storeValue random v = some stored) :
    (bytesText stored).length ≤ 4 + 4 * (((v.getD []).length + 62) / 3) := by
  have hnil : ∀ w : Bytes, stored = some w → w.length ≤ (v.getD []).length + 60 := by
    rintro w rfl
    cases v with
    | some =>
      obtain ⟨v', heq, -, hle⟩ := length_storeValue h
      cases heq
      exact hle
    | none =>
      unfold storeValue at h
      cases he : db.encryptor with
      | none =>
        rw [he] at h
        cases h
      | some =>
        have hsome : db.storeValue random (some []) = some (some w) := by
          unfold storeValue
          rw [he] at h ⊢
          exact h
        obtain ⟨v', heq, -, hle⟩ := length_storeValue hsome
        cases heq
        exact hle
  rw [length_bytesText]
  cases stored with
  | none => exact Nat.le_add_right _ _
  | some w =>
    have := hnil w rfl
    dsimp only
    rw [length_encode]
    omega

/-- **A value that is short enough fits**, sealed or not. -/
theorem fits_put {J : Json} {key : Key} {value : Option Bytes}
    (hsize : (J.quote key).length + 4 * (((value.getD []).length + 62) / 3) + 77 ≤
      maxWALEntryBytes) (db : CobaltDB) (now : Int64) :
    (Write.put random key value).Fits J db now := by
  intro entry hentry
  unfold Write.entry at hentry
  split at hentry
  · cases hentry
  obtain ⟨stored, hstored, rfl⟩ := map_eq_some_iff.mp hentry
  have hvalue : (valueField stored).length ≤ 11 + 4 * (((value.getD []).length + 62) / 3) := by
    have htext := length_bytesText_stored hstored
    rw [length_bytesText] at htext
    cases stored with
    | none => exact Nat.zero_le _
    | some v =>
      dsimp only at htext
      rw [length_encode] at htext
      rw [length_valueField, length_encode]
      omega
  have hput : (WalOp.text J.toJsonText .put).length = 5 := rfl
  have htime := (length_time now).2
  have hend := (length_ending (walChecksum J ⟨.put, key, stored, now, 0⟩)).1
  have hlen := length_marshal J.toJsonText (sealed J ⟨.put, key, stored, now, 0⟩)
  simp only [sealed, hput] at hlen
  have hframe : frameLength J ⟨.put, key, stored, now, 0⟩ = _ := hlen
  rw [hframe]
  omega

/-- The text of a map of stored values is longer than their estimated size by a
third at most. -/
theorem length_pairs_stored {random : Key → Option Draw} {values stored : List (Key × Option Bytes)}
    (h : values.mapM (fun (key, value) => (db.storeValue (random key) value).map (key, ·)) =
      some stored)
    (hkeys : ∀ x ∈ values, ∀ b ∈ x.1, isPlain b) :
    3 * (stored.map fun x => (pairText J.toJsonText x).length + 1).sum ≤ 4 * mapCost values := by
  induction values generalizing stored with
  | nil =>
    cases h
    exact le_rfl
  | cons y values ih =>
    rw [mapM_cons] at h
    simp only [bind_eq_bind, Option.pure_def, bind_eq_some_iff, map_eq_some_iff] at h
    obtain ⟨x, ⟨v, hv, rfl⟩, rest, hrest, heq⟩ := h
    cases heq
    have hrest := ih hrest fun x hx => hkeys x (by simp [hx])
    have hquote := length_quote_plain (J := J) (hkeys y (by simp))
    have htext := length_bytesText_stored hv
    have hcost : walBatchCost y = y.1.length + (y.2.getD []).length + 96 := rfl
    have hpair := length_pairText J.toJsonText (y.1, v)
    unfold mapCost at hrest ⊢
    rw [map_cons, sum_cons, map_cons, sum_cons, hpair, hquote]
    dsimp only
    omega

/-- The entry of a batch. -/
theorem entry_putBatch (hopen : db.closed = false) {e : WalEntry}
    (he : (putBatch batch moment).entry J.toJson db now = some e) : ∃ stored,
      batch.1.mapM (fun (key, value) => (db.storeValue (moment.random key) value).map (key, ·)) =
      some stored ∧
      e = ⟨.batch, [], some (mapText J.toJsonText stored), now, 0⟩ := by
  unfold putBatch Write.entry at he
  rw [hopen] at he
  simp only [Bool.false_eq_true, if_false] at he
  split at he
  · cases he
  · obtain ⟨stored, hstored, rfl⟩ := map_eq_some_iff.mp he
    exact ⟨stored, hstored, by rw [J.marshalMap_eq]⟩

/-- The length of a `BATCH` entry with its checksum. -/
theorem frameLength_batch (payload : Bytes) (now : Int64) :
    41 + (encode payload).length + 2 ≤ frameLength J.toJson ⟨.batch, [], some payload, now, 0⟩ ∧
    frameLength J.toJson ⟨.batch, [], some payload, now, 0⟩ ≤ 41 +
    (encode payload).length + 40 := by
  have htime := length_time now
  have hend := (length_ending (walChecksum J.toJson ⟨.batch, [], some payload, now, 0⟩)).1
  have hpos := length_ending_pos (walChecksum J.toJson ⟨.batch, [], some payload, now, 0⟩)
  have hlen := length_batch J.toJsonText payload now
    (walChecksum J.toJson ⟨.batch, [], some payload, now, 0⟩)
  have hframe : frameLength J.toJson ⟨.batch, [], some payload, now, 0⟩ = _ := hlen
  rw [hframe]
  omega

/-- The frame of a batch of one value. -/
theorem frameLength_putBatch_one (hopen : db.closed = false)
    (hbatch : batch.1 = [x]) {e : WalEntry}
    (he : (putBatch batch moment).entry J.toJson db now = some e) :
    ∃ stored, db.storeValue (moment.random x.1) x.2 = some stored ∧
      43 + 4 * ((5 + (J.quote x.1).length + (bytesText stored).length) / 3) ≤
      frameLength J.toJson e ∧
      frameLength J.toJson e ≤ 81 +
      4 * ((5 + (J.quote x.1).length + (bytesText stored).length) / 3) := by
  obtain ⟨pairs, hpairs, rfl⟩ := entry_putBatch hopen he
  rw [hbatch, mapM_cons, mapM_nil] at hpairs
  simp only [bind_eq_bind, Option.pure_def, bind_eq_some_iff, map_eq_some_iff] at hpairs
  obtain ⟨y, ⟨stored, hstored, rfl⟩, rest, hrest, heq⟩ := hpairs
  cases hrest
  cases heq
  refine ⟨stored, hstored, ?_⟩
  have hframe := frameLength_batch (J := J) (mapText J.toJsonText [(x.1, stored)]) now
  have hone : pairsText J.toJsonText [(x.1, stored)] = pairText J.toJsonText (x.1, stored) := rfl
  rw [length_encode, length_mapText, hone, length_pairText] at hframe
  dsimp only at hframe
  have hnum : 2 + ((J.quote x.1).length + 1 + (bytesText stored).length) + 2 =
      5 + (J.quote x.1).length + (bytesText stored).length := by omega
  rw [hnum] at hframe
  exact ⟨by omega, by omega⟩

/-- **A batch within the budget fits**, if its keys need no escapes. -/
theorem fits_putBatch (hopen : db.closed = false)
    (hkeys : ∀ x ∈ batch.1, ∀ b ∈ x.1, isPlain b) (hbudget : mapCost batch.1 ≤ walBatchBudget)
    (moment : Moment) (now : Int64) : (putBatch batch moment).Fits J.toJson db now := by
  intro e he
  obtain ⟨stored, hstored, rfl⟩ := entry_putBatch hopen he
  have hpairs := length_pairs_stored (J := J) hstored hkeys
  have htext := length_pairsText_le J.toJsonText stored
  have hframe := (frameLength_batch (J := J) (mapText J.toJsonText stored) now).2
  rw [length_encode, length_mapText] at hframe
  unfold walBatchBudget at hbudget
  unfold maxWALEntryBytes
  omega

theorem length_tombstones_le (keys : List Key) : (tombstones keys).length ≤ keys.length := by
  have hloop : ∀ (keys : List Key) (m : List (Key × Option Bytes)),
      (keys.foldl (fun m k => upsert k none m) m).length ≤ m.length + keys.length := by
    intro keys
    induction keys with
    | nil => exact fun m => le_rfl
    | cons k keys ih =>
      intro m
      have h₁ := ih (upsert k none m)
      have h₂ := length_upsert_le k none m
      rw [foldl_cons, length_cons]
      omega
  simpa [tombstones] using hloop keys []

/-- **A frame of tombstones fits**, if its keys are not long and need no escapes. -/
theorem fits_deleteBatch (hopen : db.closed = false) {keys : List Key}
    (hkeys : ∀ key ∈ keys, (∀ b ∈ key, isPlain b) ∧ key.length ≤ 375)
    (hlen : keys.length ≤ perFrame)
    (moment : Moment) (now : Int64) : (deleteBatch keys moment).Fits J.toJson db now := by
  intro e he
  unfold deleteBatch Write.entry at he
  rw [hopen] at he
  simp only [Bool.false_eq_true, if_false] at he
  split at he
  · cases he
  · cases he
    obtain ⟨-, hnone, hmem⟩ := tombstones_spec keys
    have hcount := length_tombstones_le keys
    have hpair : ∀ x ∈ tombstones keys, (pairText J.toJsonText x).length + 1 ≤ 383 := by
      intro x hx
      obtain ⟨hplain, hle⟩ := hkeys x.1 ((hmem x.1).mp (List.mem_map_of_mem hx))
      rw [length_pairText, hnone x hx, length_quote_plain hplain, length_bytesText]
      dsimp only
      omega
    have hsum : ((tombstones keys).map fun x => (pairText J.toJsonText x).length + 1).sum ≤
        (tombstones keys).length * 383 := by
      have hle := sum_le_card_nsmul ((tombstones keys).map fun x =>
        (pairText J.toJsonText x).length + 1) 383 ?_
      · rwa [length_map, smul_eq_mul] at hle
      · intro k hk
        obtain ⟨x, hx, rfl⟩ := List.mem_map.mp hk
        exact hpair x hx
    have htext := length_pairsText_le J.toJsonText (tombstones keys)
    have hframe := (frameLength_batch (J := J) (mapText J.toJsonText (tombstones keys)) now).2
    rw [length_encode, length_mapText] at hframe
    rw [J.marshalMap_eq]
    unfold perFrame at hlen
    unfold maxWALEntryBytes
    omega

/-- The frames of a deletion. -/
theorem mem_deleteFrames {keys frame : List Key} (h : frame ∈ deleteFrames keys) :
    frame.length ≤ perFrame ∧ ∀ key ∈ frame, key ∈ keys := by
  induction keys using deleteFrames.induct with
  | case1 =>
    rw [deleteFrames, if_pos rfl] at h
    cases h
  | case2 keys hne ih =>
    rw [deleteFrames, if_neg hne] at h
    rcases mem_cons.mp h with rfl | h
    · exact ⟨length_take_le _ _, fun key hkey => mem_of_mem_take hkey⟩
    · obtain ⟨hlen, hsub⟩ := ih h
      exact ⟨hlen, fun key hkey => mem_of_mem_drop (hsub key hkey)⟩

end

end Anubis.Storage
