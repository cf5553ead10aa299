import Anubis.Storage.Helpers.Frames
import Anubis.Storage.OrderedMap

/-!
# Replaying a log

The loop of `recoverFromWAL` over frames that are whole is the replay of their
entries one after another. A frame that is cut off ends it, and a damaged frame
before a whole one makes it fail. A write and the replay of its entry change
the stored values in the same way.
-/

namespace Anubis.Storage

open SortedAssoc List Option CobaltDB Write

/-! ## Stored values -/

/-- The live value a tree stores under a key. -/
def BTreeIndex.stored (t : BTreeIndex Key Bytes) (key : Key) : Option Bytes :=
    (find key t.entries).join

/-- Values written one after another. -/
def overlay (es : List (Key × Option Bytes)) (f : Key → Option Bytes) : Key → Option Bytes :=
  es.foldl (fun g x k => if k = x.1 then x.2 else g k) f

theorem overlay_of_mem {es : List (Key × Option Bytes)} {f : Key → Option Bytes} {key : Key}
    {value : Option Bytes} (hes : ∀ x ∈ es, x.1 = key → x.2 = value) :
    overlay es f key = if key ∈ es.map Prod.fst then value else f key := by
  induction es generalizing f with
  | nil => rfl
  | cons x es ih =>
    have hrest : ∀ y ∈ es, y.1 = key → y.2 = value := fun y hy => hes y (by simp [hy])
    unfold overlay at ih ⊢
    rw [foldl_cons, ih hrest]
    by_cases hmem : key ∈ es.map Prod.fst
    · rw [if_pos hmem, if_pos (by simp only [map_cons, mem_cons]; exact .inr hmem)]
    · rw [if_neg hmem]
      by_cases hkey : key = x.1
      · rw [if_pos hkey, if_pos (by simp [hkey]), hes x (by simp) hkey.symm]
      · rw [if_neg hkey, if_neg]
        simp only [map_cons, mem_cons, not_or]
        exact ⟨hkey, hmem⟩

theorem stored_empty (order : ℕ) (h : 4 ≤ order) :
    (BTreeIndex.empty order h).stored = fun _ => none := rfl

/-- Inserting into a well-formed tree. -/
theorem insertAll_stored {t : BTreeIndex Key Bytes} (h : t.Ok) (es : List (Key × Option Bytes)) :
    ∃ t', insertAll t es = some t' ∧ t'.Ok ∧ t'.stored = overlay es t.stored := by
  induction es generalizing t with
  | nil => exact ⟨t, rfl, h, rfl⟩
  | cons x es ih =>
    obtain ⟨t₁, hins, hok, hentries, -⟩ := h.insert x.1 x.2
    obtain ⟨t', hall, hok', hstored⟩ := ih hok
    have hone : t₁.stored = fun k => if k = x.1 then x.2 else t.stored k := by
      funext k
      unfold BTreeIndex.stored
      rw [hentries, find_upsert h.sorted]
      by_cases hk : k = x.1
      · rw [if_pos hk.symm, if_pos hk]
        rfl
      · rw [if_neg (fun heq => hk heq.symm), if_neg hk]
    refine ⟨t', ?_, hok', ?_⟩
    · rw [insertAll]
      simp only [hins, bind_eq_bind, bind_some]
      exact hall
    · rw [hstored, hone]
      rfl

/-! ## The replay of a log -/

section Replay

variable (J : Json)

/-- The entries replayed one after another. -/
def replayAll : List WalEntry → BTreeIndex Key Bytes →
    Option (Except RecoverError (BTreeIndex Key Bytes))
  | [], t => some (.ok t)
  | e :: es, t =>
    match replayEntry J e t with
    | none => none
    | some (.error err) => some (.error err)
    | some (.ok t) => replayAll es t

/-- The bytes of a log. -/
def frames (es : List WalEntry) : Bytes := es.flatMap (frame J)

variable {J} {e : WalEntry} {es es' : List WalEntry} {t t' : BTreeIndex Key Bytes} {A B : Bytes}
  {skip : Bool} {fuel k : ℕ}

theorem frames_append (es es' : List WalEntry) :
    frames J (es ++ es') = frames J es ++ frames J es' :=
  flatMap_append ..

theorem frames_cons (e : WalEntry) (es : List WalEntry) :
    frames J (e :: es) = frame J e ++ frames J es :=
  flatMap_cons ..

theorem replayAll_cons (h : replayAll J (e :: es) t = some (.ok t')) :
    ∃ t₁, replayEntry J e t = some (.ok t₁) ∧ replayAll J es t₁ = some (.ok t') := by
  rw [replayAll] at h
  split at h
  · cases h
  · cases h
  · exact ⟨_, ‹_›, h⟩

theorem replayAll_append (h : replayAll J es t = some (.ok t')) :
    replayAll J (es ++ es') t = replayAll J es' t' := by
  induction es generalizing t with
  | nil =>
    cases h
    rfl
  | cons e es ih =>
    obtain ⟨t₁, hentry, hrest⟩ := replayAll_cons h
    rw [cons_append, replayAll, hentry]
    exact ih hrest

/-- The first part of a log that can be replayed. -/
theorem replayAll_of_append (h : replayAll J (es ++ es') t = some (.ok t')) :
    ∃ t₁, replayAll J es t = some (.ok t₁) := by
  induction es generalizing t with
  | nil => exact ⟨t, rfl⟩
  | cons e es ih =>
    obtain ⟨t₁, hentry, hrest⟩ := replayAll_cons h
    rw [replayAll, hentry]
    exact ih hrest

theorem replayAll_singleton : replayAll J [e] t = replayEntry J e t := by
  rw [replayAll]
  cases replayEntry J e t with
  | none => rfl
  | some r => cases r <;> rfl

/-- What an entry inserts does not depend on the tree. -/
theorem replayEntry_inserts (h : replayEntry J e t = some (.ok t')) :
    ∃ ws, ∀ u, replayEntry J e u = (insertAll u ws).map .ok := by
  have hone : ∀ (key : Key) value (u : BTreeIndex Key Bytes), (u.insert key value).map .ok =
      (insertAll u [(key, value)]).map (Except.ok (ε := RecoverError)) := by
    intro key value u
    unfold insertAll
    cases u.insert key value <;> rfl
  unfold replayEntry at h ⊢
  cases hop : e.op with
  | put => exact ⟨_, hone _ _⟩
  | delete => exact ⟨_, hone _ _⟩
  | batch =>
    rw [hop] at h
    dsimp only at h ⊢
    split at h
    · cases h
    · cases h
    · exact ⟨_, fun _ => rfl⟩
  | other => exact ⟨[], fun _ => rfl⟩

/-- Trees that store the same store the same after a replay. -/
theorem replayAll_stored {u : BTreeIndex Key Bytes} (ht : t.Ok) (hu : u.Ok)
    (hsame : u.stored = t.stored) (h : replayAll J es t = some (.ok t')) :
    ∃ u', replayAll J es u = some (.ok u') ∧ u'.Ok ∧ u'.stored = t'.stored := by
  induction es generalizing t u with
  | nil =>
    cases h
    exact ⟨u, rfl, hu, hsame⟩
  | cons e es ih =>
    obtain ⟨t₁, hentry, hrest⟩ := replayAll_cons h
    obtain ⟨ws, hws⟩ := replayEntry_inserts hentry
    obtain ⟨t₂, hins, hok, hst⟩ := insertAll_stored ht ws
    obtain ⟨u₂, hins', hok', hst'⟩ := insertAll_stored hu ws
    rw [hws, hins] at hentry
    cases hentry
    rw [replayAll, hws, hins']
    exact ih hok hok' (by rw [hst, hst', hsame]) hrest

/-- **Whole frames are replayed.** -/
theorem replay_frames (hes : ∀ e ∈ es, Logged J e) (h : replayAll J es t = some (.ok t'))
    (A B : Bytes) (skip : Bool) (fuel : ℕ) :
    replay J (A ++ (frames J es ++ B)) skip (es.length + fuel) A.length t =
      replay J (A ++ (frames J es ++ B)) skip fuel (A.length + (frames J es).length) t' := by
  induction es generalizing A t with
  | nil =>
    cases h
    simp [frames]
  | cons e es ih =>
    have hlog := hes e (by simp)
    have hfile : A ++ (frames J (e :: es) ++ B) = A ++ (frame J e ++ (frames J es ++ B)) := by
      rw [frames_cons, append_assoc]
    have hlen : (frames J (e :: es)).length = (frame J e).length + (frames J es).length := by
      rw [frames_cons, length_append]
    have hlt : A.length < (A ++ (frame J e ++ (frames J es ++ B))).length := by
      have := length_frame J e
      simp only [length_append]
      omega
    have hcrc : ¬ (e.crc32 ≠ 0 ∧ walChecksum J e ≠ e.crc32) := fun h => h.2 hlog.crc.symm
    obtain ⟨t₁, hentry, hafter⟩ := replayAll_cons h
    rw [hfile, hlen, length_cons, Nat.add_right_comm, replay, if_pos hlt, hlog.read]
    dsimp only
    rw [if_neg hcrc, hentry]
    have hrest := ih (fun e he => hes e (by simp [he])) hafter (A ++ frame J e)
    rw [append_assoc, length_append, Nat.add_assoc] at hrest
    exact hrest

/-- **A frame that is cut off ends the replay**, without an error. -/
theorem replay_torn (h : Logged J e) (hk : k < (frame J e).length) :
    replay J (A ++ (frame J e).take k) skip (fuel + 1) A.length t = some (.ok t) := by
  rw [replay]
  split
  · obtain ⟨reason, hread⟩ := h.read_torn A hk
    rw [hread]
    dsimp only
    rw [Logged.findNext_torn A hk.le]
  · rfl

theorem length_le_frames : es.length ≤ (frames J es).length := by
  induction es with
  | nil => exact le_rfl
  | cons e es ih =>
    have := length_frame J e
    rw [frames_cons, length_append, length_cons]
    omega

theorem frames_cons_ne_nil : frames J (e :: es) ≠ [] := by
  intro h
  have := congrArg length h
  rw [frames_cons, length_append, length_frame, length_nil] at this
  omega

/-- A log says what its entries are. -/
theorem frames_inj (hes : ∀ e ∈ es, Logged J e) (hes' : ∀ e ∈ es', Logged J e)
    (h : frames J es = frames J es') : es = es' := by
  induction es generalizing es' with
  | nil =>
    cases es' with
    | nil => rfl
    | cons => exact absurd h.symm frames_cons_ne_nil
  | cons e es ih =>
    cases es' with
    | nil => exact absurd h frames_cons_ne_nil
    | cons e' es' =>
      rw [frames_cons, frames_cons] at h
      have hread := (hes e (by simp)).read [] (frames J es)
      rw [h, (hes' e' (by simp)).read [] (frames J es')] at hread
      cases hread
      rw [ih (fun x hx => hes x (by simp [hx])) (fun x hx => hes' x (by simp [hx]))
        (append_cancel_left h)]

/-- **Damage before a whole frame is an error.** -/
theorem replay_damaged (hes : ∀ x ∈ es, Logged J x) (hall : replayAll J es t = some (.ok t'))
    (he : Logged J e) (hes' : ∀ x ∈ es', Logged J x) {g : WalEntry} (hg : g ∈ es')
    (hgcrc : g.crc32 ≠ 0)
    {i : ℕ} {b : Byte} (hb : (frame J e)[i]? ≠ some b) (hcrc : Detects J e i b) (tail : Bytes)
    (fuel : ℕ) :
    ∃ reason, replay J (frames J es ++ ((frame J e).set i b ++ (frames J es' ++ tail))) false
      (es.length + (fuel + 1)) 0 t = some (.error (.damaged (frames J es).length reason)) := by
  -- the frame that follows begins with a zero byte
  obtain ⟨rest, hrest⟩ : ∃ rest, frames J es' ++ tail = 0 :: rest := by
    cases es' with
    | nil => cases hg
    | cons x =>
      obtain ⟨rest, hrest⟩ := (hes' x (by simp)).frame_head
      exact ⟨_, by rw [frames_cons, hrest]; rfl⟩
  -- the frame with a checksum, somewhere behind
  have hnext : ∀ start ≤ (frames J es).length + (frame J e).length, ∃ next, findNextWALEntry J
      (frames J es ++ ((frame J e).set i b ++ (frames J es' ++ tail))) start = some next := by
    intro start hstart
    obtain ⟨xs, ys, rfl⟩ := append_of_mem hg
    have hfile : frames J es ++ ((frame J e).set i b ++ (frames J (xs ++ g :: ys) ++ tail)) =
        (frames J es ++ (frame J e).set i b ++ frames J xs) ++
        (frame J g ++ (frames J ys ++ tail)) := by
      rw [frames_append, frames_cons]
      simp only [append_assoc]
    rw [hfile]
    refine findNext_isSome ?_ ((hes' g hg).startsEntry hgcrc _ _)
    rw [length_append, length_append, length_set]
    omega
  have hframes := replay_frames hes hall [] ((frame J e).set i b ++ (frames J es' ++ tail))
    false (fuel + 1)
  rw [nil_append, length_nil, Nat.zero_add] at hframes
  rw [hframes, replay, if_pos]
  · have hlen := length_frame J e
    have hread := he.read_set hb hcrc (frames J es) rest
    rw [← hrest] at hread
    rcases hread with ⟨reason, hread⟩ | ⟨e', hread, hcrc'⟩
    · obtain ⟨next, hnext⟩ := hnext ((frames J es).length + 1) (by omega)
      refine ⟨reason, ?_⟩
      rw [hread]
      dsimp only
      rw [hnext]
      rfl
    · obtain ⟨next, hnext⟩ := hnext ((frames J es).length + (frame J e).length) le_rfl
      refine ⟨.checksumMismatch, ?_⟩
      rw [hread]
      dsimp only
      rw [if_pos hcrc', hnext]
      rfl
  · rw [hrest, length_append, length_append, length_cons]
    omega

end Replay

/-! ## A write and its entry -/

/-- The keys of a write are strings that JSON keeps. -/
def Write.Valid (J : Json) : Write → Prop
  | .put _ key _ => J.validUTF8 key
  | .putMany _ values => ∀ x ∈ values.1, J.validUTF8 x.1
  | .delete key => J.validUTF8 key
  | .deleteMany keys => ∀ key ∈ keys, J.validUTF8 key

section Write

variable {J : Json} {db : CobaltDB} {w : Write} {now : Int64} {e : WalEntry}

/-- What is written of an entry. -/
def sealed (J : Json) (e : WalEntry) : WalEntry := { e with crc32 := walChecksum J e }

theorem writeEntry_eq_some {buf : Bytes} (h : writeEntry J e = some buf) :
    buf = frame J (sealed J e) ∧ ((sealed J e).marshal J.toJsonText).length ≤ maxWALEntryBytes := by
  unfold writeEntry at h
  dsimp only at h
  split at h
  · cases h
  · rename_i hle
    cases h
    exact ⟨rfl, not_lt.mp hle⟩

theorem logged_sealed (he : e.Encodable J.toJsonText)
    (hfits : ((sealed J e).marshal J.toJsonText).length ≤ maxWALEntryBytes) :
    Logged J (sealed J e) where
  encodable := ⟨he.key, he.op⟩
  crc := rfl
  fits := hfits

theorem replayEntry_sealed (t : BTreeIndex Key Bytes) :
    replayEntry J (sealed J e) t = replayEntry J e t := rfl

/-- What `deleteMany` logs is a map of tombstones for its keys. -/
theorem tombstones_spec (keys : List Key) : Sorted (tombstones keys) ∧
    (∀ x ∈ tombstones keys, x.2 = none) ∧
    ∀ key, key ∈ (tombstones keys).map Prod.fst ↔ key ∈ keys := by
  -- the loop, from any map of tombstones
  have hloop : ∀ (keys : List Key) (m : List (Key × Option Bytes)), Sorted m →
    (∀ x ∈ m, x.2 = none) →
      Sorted (keys.foldl (fun m k => upsert k none m) m) ∧
        (∀ x ∈ keys.foldl (fun m k => upsert k none m) m, x.2 = none) ∧
        ∀ key, key ∈ (keys.foldl (fun m k => upsert k none m) m).map Prod.fst ↔
          key ∈ keys ∨ key ∈ m.map Prod.fst := by
    intro keys
    induction keys with
    | nil => exact fun m hm hnone => ⟨hm, hnone, by simp⟩
    | cons k keys ih =>
      intro m hm hnone
      have hnone' : ∀ x ∈ upsert k none m, x.2 = none := by
        intro x hx
        rcases mem_upsert hx with rfl | hx
        · rfl
        · exact hnone x hx
      have hkeys : ∀ key, key ∈ (upsert k none m).map Prod.fst ↔ key = k ∨
        key ∈ m.map Prod.fst := by
        intro key
        have hmem : ∀ l : List (Key × Option Bytes), Sorted l →
            (key ∈ l.map Prod.fst ↔ (find key l).isSome = true) := by
          intro l hl
          rw [isSome_iff_exists, List.mem_map]
          constructor
          · rintro ⟨x, hx, rfl⟩
            exact ⟨x.2, find_of_mem hl hx⟩
          · rintro ⟨v, hv⟩
            exact ⟨(key, v), mem_of_find hv, rfl⟩
        rw [hmem _ hm.upsert, hmem _ hm, find_upsert hm]
        by_cases hk : k = key
        · simp [hk]
        · simp [hk, Ne.symm hk]
      obtain ⟨hs, hn, hm'⟩ := ih _ hm.upsert hnone'
      refine ⟨hs, hn, fun key => ?_⟩
      rw [foldl_cons, hm', hkeys, mem_cons]
      tauto
  obtain ⟨hs, hn, hkeys⟩ := hloop keys [] List.Pairwise.nil nofun
  exact ⟨hs, hn, fun key => (hkeys key).trans (by simp)⟩

/-- **A write and its entry**: the tree is changed by some insertions once the
log has taken the entry, and the replay of the entry has the same effect. If
the log refuses it, the write fails and changes nothing. -/
theorem Write.logged (hdb : db.closed = false) (hw : w.Valid J) (he : w.entry J db now = some e) :
    e.Encodable J.toJsonText ∧
    ∃ es es', db.step (w.op true) = publish db es ∧
      (∀ t, replayEntry J e t = (insertAll t es').map .ok) ∧ (∀ f, overlay es' f = overlay es f) ∧
      (∀ x ∈ es, J.validUTF8 x.1) ∧ ∃ err, db.step (w.op false) = failed db err := by
  unfold entry at he
  rw [hdb] at he
  simp only [Bool.false_eq_true, if_false] at he
  have hnil : J.validUTF8 [] := J.validUTF8_letters [] (forall_mem_nil _)
  cases w with
  | put random key value =>
    have hw : J.validUTF8 key := hw
    dsimp only at he
    cases hs : db.storeValue random value with
    | none =>
      rw [hs] at he
      cases he
    | some stored =>
      rw [hs] at he
      cases he
      refine ⟨⟨hw, by simp⟩, [(key, stored)], [(key, stored)], ?_, fun t => ?_, fun _ => rfl,
        by simpa using hw, ?_⟩
      · simp [op, step, CobaltDB.put, hdb, hs]
      · simp [replayEntry, insertAll]
      · exact ⟨.walAppendFailed, by simp [op, step, CobaltDB.put, hdb, hs]⟩
  | putMany random values =>
    by_cases hv : values.1 = []
    · simp [hv] at he
    · cases hs : values.1.mapM fun x => (db.storeValue (random x.1) x.2).map (x.1, ·) with
      | none => simp [hv, hs] at he
      | some stored =>
        simp only [hv, if_false, hs, map_some, some.injEq] at he
        subst he
        obtain ⟨hkeys, -⟩ := mapM_storeValue hs
        have hsorted : Sorted stored := by
          have := values.2
          rw [Sorted, ← pairwise_map (f := Prod.fst) (R := (· < ·)), ← hkeys, pairwise_map] at this
          exact this
        have hvalid : ∀ x ∈ stored, J.validUTF8 x.1 := by
          intro x hx
          have hmem : x.1 ∈ values.1.map Prod.fst := hkeys ▸ List.mem_map_of_mem hx
          obtain ⟨y, hy, heq⟩ := List.mem_map.mp hmem
          exact heq ▸ hw y hy
        refine ⟨⟨hnil, by simp⟩, stored, stored, ?_, fun t => ?_, fun _ => rfl, hvalid, ?_⟩
        · simp [op, step, CobaltDB.putMany, hdb, hv, hs]
        · simp [replayEntry, J.unmarshalMap_marshalMap stored hsorted hvalid]
        · exact ⟨.walBatchAppendFailed, by simp [op, step, CobaltDB.putMany, hdb, hv, hs]⟩
  | delete key =>
    have hw : J.validUTF8 key := hw
    cases he
    refine ⟨⟨hw, by simp⟩, [(key, none)], [(key, none)], ?_, fun t => ?_, fun _ => rfl,
      by simpa using hw, ?_⟩
    · simp [op, step, CobaltDB.delete, hdb]
    · simp [replayEntry, insertAll]
    · exact ⟨.walAppendFailed, by simp [op, step, CobaltDB.delete, hdb]⟩
  | deleteMany keys =>
    by_cases hk : keys = []
    · simp [hk] at he
    · simp only [hk, if_false, some.injEq] at he
      subst he
      obtain ⟨hsorted, hnone, hkeys⟩ := tombstones_spec keys
      have hvalid : ∀ x ∈ tombstones keys, J.validUTF8 x.1 :=
        fun x hx => hw _ ((hkeys x.1).mp (List.mem_map_of_mem hx))
      refine ⟨⟨hnil, by simp⟩, (keys.mergeSort (· ≤ ·)).map (·, none), tombstones keys, ?_,
        fun t => ?_,
        fun f => ?_, ?_, ?_⟩
      · simp [op, step, CobaltDB.deleteMany, hdb, hk]
      · simp [replayEntry, J.unmarshalMap_marshalMap _ hsorted hvalid]
      · funext key
        have hleft : ∀ x ∈ tombstones keys, x.1 = key → x.2 = none := fun x hx _ => hnone x hx
        have hright : ∀ x ∈ (keys.mergeSort (· ≤ ·)).map fun k => (k, (none : Option Bytes)),
            x.1 = key → x.2 = none := by
          intro x hx _
          obtain ⟨y, -, rfl⟩ := List.mem_map.mp hx
          rfl
        rw [overlay_of_mem hleft, overlay_of_mem hright]
        simp only [hkeys, List.map_map, Function.comp_def, List.map_id', mem_mergeSort]
      · intro x hx
        obtain ⟨y, hy, rfl⟩ := List.mem_map.mp hx
        exact hw y (mem_mergeSort.mp hy)
      · exact ⟨.walBatchDeleteFailed, by simp [op, step, CobaltDB.deleteMany, hdb, hk]⟩

end Write

end Anubis.Storage
