import Anubis.Storage.Helpers.Batches
import Anubis.Storage.Helpers.PlainJson

/-!
# The image of a snapshot and its restoration

`Snapshot` takes an image of the keys outside `raft/`, and `restore` writes it to
another store. What was accepted by a `Put` has to fit the frames of a batch
there. A value of more than half a megabyte does not, and neither does a batch
whose keys need many escapes, or a frame of tombstones with long keys. And a
value that is empty under encryption is a `nil` slice in the image, which a
store without encryption takes for a deletion. Otherwise the two are inverse,
and the keys under `raft/` stay as they are.
-/

namespace Anubis.Storage

open SortedAssoc List Option CobaltDB

variable {J : MapJson} {encryptor encryptor' : Option Encryptor} {s s' : Store} {m m' : Contents}
  {order : List (Key × Option Bytes) → List (Key × Option Bytes)} {moments : ℕ → Moment}
variable {data : List (Key × Option Bytes)} {db : CobaltDB} {keys : List Key}
    {image : GoMap (Option Bytes)}
variable {key : Key} {v : Bytes}

/-! ## The image -/

/-- The loop of `Snapshot` adds what it reads. -/
theorem snapshotKeys_spec (h : db.Represents m)
    (hkeys : ∀ key ∈ keys, (m key).isSome) (snapshot : GoMap (Option Bytes)) :
    ∃ image, snapshotKeys db keys snapshot = some (.ok image) ∧ ∀ key, find key image.1 =
      if key ∈ keys ∧ underRaft key = false then (m key).map db.slice else find key snapshot.1 := by
  induction keys generalizing snapshot with
  | nil => exact ⟨snapshot, rfl, fun key => (if_neg fun h => by cases h.1).symm⟩
  | cons k keys ih =>
    have hrest : ∀ key ∈ keys, (m key).isSome := fun key hkey => hkeys key (by simp [hkey])
    obtain ⟨value, hvalue⟩ := isSome_iff_exists.mp (hkeys k (by simp))
    rw [snapshotKeys]
    cases hraft : underRaft k with
    | true =>
      obtain ⟨image, himage, hfind⟩ := ih hrest snapshot
      refine ⟨image, himage, fun key => (hfind key).trans ?_⟩
      by_cases hk : key = k
      · rw [hk, hraft, if_neg (by simp), if_neg (by simp)]
      · simp [hk]
    | false =>
      obtain ⟨image, himage, hfind⟩ := ih hrest (snapshot.set k (db.slice value))
      refine ⟨image, ?_, fun key => (hfind key).trans ?_⟩
      · rw [h.get, hvalue]
        exact himage
      · have hset : find key (snapshot.set k (db.slice value)).1 = _ := find_upsert snapshot.2
        rw [hset]
        by_cases hk : k = key
        · subst hk
          by_cases hmem : k ∈ keys
          · simp [hmem, hraft]
          · simp [hmem, hraft, hvalue]
        · simp [hk, Ne.symm hk]

/-- **The image**: the keys outside `raft/` with the slices they are read as. -/
theorem fsmSnapshot_spec (h : Reachable J.toJson encryptor s m) : ∃ image : GoMap (Option Bytes),
    fsmSnapshot J.toJson s.db = some (.ok (J.marshalMap image.1)) ∧
    J.unmarshalMap (J.marshalMap image.1) = some (some image.1) ∧
    (∀ key, find key image.1 = if underRaft key then none else (m key).map s.db.slice) ∧
    ∀ x ∈ image.1, J.validUTF8 x.1 := by
  have hrep := h.ok.represents
  obtain ⟨keys, hlist, -, hmem⟩ := hrep.list []
  have hmem' : ∀ key, key ∈ keys ↔ (m key).isSome := fun key => (hmem key).trans (by simp)
  obtain ⟨image, himage, hfind⟩ :=
    snapshotKeys_spec hrep (fun key hkey => (hmem' key).mp hkey) GoMap.empty
  have hfind' : ∀ key, find key image.1 = if underRaft key then none else
    (m key).map s.db.slice := by
    intro key
    rw [hfind]
    simp only [hmem']
    cases underRaft key with
    | true =>
      rw [if_neg (by simp), if_pos rfl]
      rfl
    | false =>
      cases m key with
      | none | some => rfl
  -- what is in the image is stored, so its key is valid
  have hvalid : ∀ x ∈ image.1, J.validUTF8 x.1 := by
    intro x hx
    have hx' := (hfind' x.1).symm.trans (find_of_mem image.2 hx)
    refine h.ok.keys x.1 fun hnone => ?_
    have hholds := hrep.contents x.1
    have hjoin : (find x.1 s.db.data.entries).join = none := hnone
    rw [hjoin] at hholds
    have hm : m x.1 = none := hholds
    rw [hm] at hx'
    split at hx' <;> cases hx'
  refine ⟨image, ?_, J.unmarshalMap_marshalMap _ image.2 hvalid, hfind', hvalid⟩
  unfold fsmSnapshot
  rw [hlist]
  simp only [himage, map_some]
  rfl

/-! ## The restoration -/

/-- What the target should hold. -/
def restored (m m' : Contents) : Contents := fun key => if underRaft key then m' key else m key

/-- The contents after the frames of a restoration: what is visible of the
image, outside `raft/`. -/
theorem contentsAfter_replaceFrames {encrypted : Bool} {slice : Bytes → Option Bytes}
    (hkeys : ∀ key, key ∈ keys ↔ (m' key).isSome)
    (himage : ∀ key, find key image.1 = if underRaft key then none else (m key).map slice)
    (hdata : data.Perm image.1) :
    contentsAfter encrypted (replaceFrames keys data) moments m' = fun key =>
      if underRaft key then m' key else (m key).bind fun v => visible encrypted (slice v) := by
  have hmem : ∀ x, x ∈ data ↔ find x.1 image.1 = some x.2 := fun x =>
    hdata.mem_iff.trans ⟨fun hx => find_of_mem image.2 hx, fun hx => mem_of_find hx⟩
  have hany : ∀ key, (data.any fun x => decide (x.1 = key)) = true ↔ (find key image.1).isSome := by
    intro key
    rw [List.any_eq_true, isSome_iff_exists]
    constructor
    · rintro ⟨x, hx, hkey⟩
      exact ⟨x.2, of_decide_eq_true hkey ▸ (hmem x).mp hx⟩
    · rintro ⟨v, hv⟩
      exact ⟨(key, v), (hmem (key, v)).mpr hv, decide_eq_true rfl⟩
  funext key
  unfold replaceFrames
  rw [contentsAfter_append, contentsAfter_deleteFrames, contentsAfter_batches]
  -- every pair of the data with this key shows the value of the source
  have hvalue : ∀ x ∈ (data.filter fun x => !underRaft x.1).map (shown encrypted), x.1 = key →
      x.2 = (m key).bind fun v => visible encrypted (slice v) := by
    rintro x hx rfl
    obtain ⟨y, hy, rfl⟩ := List.mem_map.mp hx
    obtain ⟨hy, hraft⟩ := mem_filter.mp hy
    have hfind := (himage y.1).symm.trans ((hmem y).mp hy)
    have hnot : underRaft y.1 = false := by simpa using hraft
    rw [hnot, if_neg nofun] at hfind
    obtain ⟨v, hv, hslice⟩ := map_eq_some_iff.mp hfind
    have hkey : (shown encrypted y).1 = y.1 := rfl
    rw [hkey, hv]
    exact congrArg (visible encrypted) hslice.symm
  rw [overlay_of_mem hvalue]
  have hin : key ∈ ((data.filter fun x => !underRaft x.1).map (shown encrypted)).map Prod.fst ↔
      underRaft key = false ∧ (m key).isSome := by
    rw [List.map_map, List.mem_map]
    constructor
    · rintro ⟨y, hy, rfl⟩
      obtain ⟨hy, hraft⟩ := mem_filter.mp hy
      have hnot : underRaft y.1 = false := by simpa using hraft
      have hfind := (himage y.1).symm.trans ((hmem y).mp hy)
      rw [hnot, if_neg nofun] at hfind
      obtain ⟨v, hv, -⟩ := map_eq_some_iff.mp hfind
      have hkey : (Prod.fst ∘ shown encrypted) y = y.1 := rfl
      rw [hkey, hv]
      exact ⟨hnot, rfl⟩
    · rintro ⟨hnot, hsome⟩
      obtain ⟨v, hv⟩ := isSome_iff_exists.mp hsome
      refine ⟨(key, slice v), mem_filter.mpr ⟨(hmem _).mpr ?_, by simp [hnot]⟩, rfl⟩
      rw [himage, hnot, if_neg nofun, hv]
      rfl
  simp only [hin, mem_filter, hkeys, Bool.and_eq_true, Bool.not_eq_true']
  cases hraft : underRaft key with
  | true => simp
  | false =>
    cases hm : m key with
    | some => simp
    | none =>
      -- a key that is not in the image is deleted
      have hnone : (data.any fun x => decide (x.1 = key)) = false := by
        rw [← Bool.not_eq_true, hany, himage, hraft, if_neg nofun, hm]
        nofun
      cases hm' : m' key with
      | none => simp
      | some => simp [hnone]

/-- Contents that are read the same are the same. -/
theorem reads_unique {m₁ m₂ : Contents} (h₁ : db.Reads m₁) (h₂ : db.Reads m₂) : m₁ = m₂ := by
  funext key
  have h := (h₁.get key).symm.trans (h₂.get key)
  cases hk₁ : m₁ key with
  | none =>
    cases hk₂ : m₂ key with
    | none => rfl
    | some => simp [hk₁, hk₂] at h
  | some =>
    cases hk₂ : m₂ key with
    | none => simp [hk₁, hk₂] at h
    | some => simpa [hk₁, hk₂] using h

/-- An empty value is kept: the target encrypts, or the source does not. -/
def KeepsEmpty (encryptor encryptor' : Option Encryptor) (m : Contents) : Prop :=
  encryptor' = none → encryptor ≠ none → ∀ key, underRaft key = false → m key ≠ some []

/-- What is visible of the slices is what the source holds. -/
theorem visible_slice_iff (henc : db.encryptor = encryptor) :
    ((fun key => if underRaft key then m' key else (m key).bind fun v =>
        visible encryptor'.isSome (db.slice v)) = restored m m') ↔
          KeepsEmpty encryptor encryptor' m := by
  have hslice : ∀ v, visible encryptor'.isSome (db.slice v) =
      if encryptor' = none ∧ encryptor ≠ none ∧ v = [] then none else some v := by
    intro v
    unfold slice
    rw [henc]
    cases encryptor with
    | none => cases encryptor' <;> simp [visible]
    | some =>
      by_cases hv : v = []
      · cases encryptor' <;> simp [visible, hv]
      · cases encryptor' <;> simp [visible, hv]
  simp only [hslice]
  unfold restored KeepsEmpty
  constructor
  · intro heq hnone hsome key hraft hkey
    have hat := congrFun heq key
    simp [hraft, hkey, hnone, hsome] at hat
  · intro hkeeps
    funext key
    cases hraft : underRaft key with
    | true => rfl
    | false =>
      cases hm : m key with
      | none => rfl
      | some v =>
        have hnot : ¬ (encryptor' = none ∧ encryptor ≠ none ∧ v = []) := by
          rintro ⟨h₁, h₂, rfl⟩
          exact hkeeps h₁ h₂ key hraft hm
        simp [hnot]

/-- The writes of a restoration can be made, as far as their sizes allow. -/
theorem unhindered_replaceFrames (hmoments : ∀ i, (moments i).Works encryptor)
    (hkeys : ∀ key ∈ keys, J.validUTF8 key)
    (hdata : ∀ x ∈ data, J.validUTF8 x.1) :
    Unhindered J.toJson encryptor (replaceFrames keys data) moments where
  works := hmoments
  valid w hw _ := by
    rcases mem_append.mp hw with hw | hw
    · obtain ⟨frame, hframe, rfl⟩ := List.mem_map.mp hw
      intro key hkey
      exact hkeys key (mem_filter.mp ((mem_deleteFrames hframe).2 key hkey)).1
    · obtain ⟨batch, hbatch, rfl⟩ := List.mem_map.mp hw
      intro x hx
      rcases (mem_fillBatches filling_empty hbatch).2 x hx with hx | hx
      · cases hx
      · exact hdata x (mem_filter.mp hx).1
  served w hw moment hworks := by
    rcases mem_append.mp hw with hw | hw
    · obtain ⟨frame, -, rfl⟩ := List.mem_map.mp hw
      rfl
    · obtain ⟨batch, -, rfl⟩ := List.mem_map.mp hw
      exact ⟨rfl, fun e he x _ => hworks.encrypts e he _ _⟩

/-- Short keys without escapes and values of half a megabyte. -/
structure Modest (m m' : Contents) : Prop where
  keys : ∀ key, underRaft key = false → (m key).isSome ∨ (m' key).isSome →
    (∀ b ∈ key, isPlain b) ∧ key.length ≤ 375
  values : ∀ key v, underRaft key = false → m key = some v → v.length ≤ 589428

/-- **The frames of a modest image fit.** -/
theorem Modest.allFit (h : Modest m m') (hopen : db.closed = false) (hkeys : ∀ key ∈ keys,
    (m' key).isSome) (hdata : ∀ x ∈ data, underRaft x.1 = false → ∃ v, m x.1 = some v ∧
      (x.2.getD []).length ≤ v.length) :
    AllFit J.toJson db (replaceFrames keys data) moments := by
  intro i w hw
  have hmem := mem_of_getElem? hw
  rcases mem_append.mp hmem with hmem | hmem
  · obtain ⟨frame, hframe, rfl⟩ := List.mem_map.mp hmem
    obtain ⟨hlen, hsub⟩ := mem_deleteFrames hframe
    refine fits_deleteBatch hopen (fun key hkey => ?_) hlen _ _
    obtain ⟨hin, hraft⟩ := mem_filter.mp (hsub key hkey)
    have hnot : underRaft key = false := by
      simp only [Bool.and_eq_true, Bool.not_eq_true'] at hraft
      exact hraft.1
    exact h.keys key hnot (.inr (hkeys key hin))
  · obtain ⟨batch, hbatch, rfl⟩ := List.mem_map.mp hmem
    obtain ⟨hbudget, hsub⟩ := mem_fillBatches filling_empty hbatch
    have hpair : ∀ x ∈ batch.1, ((∀ b ∈ x.1, isPlain b) ∧ x.1.length ≤ 375) ∧
      (x.2.getD []).length ≤ 589428 := by
      intro x hx
      rcases hsub x hx with hx | hx
      · cases hx
      · obtain ⟨hx, hraft⟩ := mem_filter.mp hx
        have hnot : underRaft x.1 = false := by simpa using hraft
        obtain ⟨v, hv, hle⟩ := hdata x hx hnot
        exact ⟨h.keys x.1 hnot (.inl (by rw [hv]; rfl)), le_trans hle (h.values x.1 v hnot hv)⟩
    rcases hbudget with hbudget | ⟨x, hx⟩
    · exact fits_putBatch hopen (fun x hx => (hpair x hx).1.1) hbudget _ _
    · intro e he
      obtain ⟨⟨hplain, hkey⟩, hvalue⟩ := hpair x (by simp [hx])
      obtain ⟨stored, hstored, -, hframe⟩ := frameLength_putBatch_one hopen hx he
      have htext := length_bytesText_stored hstored
      rw [length_quote_plain hplain] at hframe
      unfold maxWALEntryBytes
      omega

/-- **A large value does not fit.** -/
theorem not_allFit_of_large (hopen : db.closed = false) (hencryptor : db.encryptor = encryptor)
    (hmoments : ∀ i, (moments i).Works encryptor) (hmem : (key, some v) ∈ data)
    (hraft : underRaft key = false) (hlarge : 589795 ≤ v.length) :
    ¬ AllFit J.toJson db (replaceFrames keys data) moments := by
  intro hall
  have hcost : walBatchBudget < walBatchCost (key, some v) := by
    unfold walBatchBudget walBatchCost
    simp only [getD_some]
    omega
  have hin : (key, some v) ∈ data.filter fun x => !underRaft x.1 :=
    mem_filter.mpr ⟨hmem, by simp [hraft]⟩
  obtain ⟨batch, hbatch, hone⟩ := fillBatches_large hcost hin filling_empty
  obtain ⟨i, hi⟩ := mem_iff_getElem?.mp
    (mem_append_right ((deleteFrames _).map deleteBatch)
      (List.mem_map_of_mem (f := putBatch) hbatch))
  have hfits := hall i _ hi
  obtain ⟨stored, hstored⟩ : ∃ stored, db.storeValue ((moments i).random key) (some v) =
    some stored :=
    exists_storeValue hencryptor (hmoments i) key (some v)
  obtain ⟨v', rfl, hge, -⟩ := length_storeValue hstored
  obtain ⟨e, he⟩ : ∃ e, (putBatch batch (moments i)).entry J.toJson db (moments i).now =
    some e := by
    refine ⟨⟨.batch, [], some (J.marshalMap [(key, some v')]), (moments i).now, 0⟩, ?_⟩
    unfold putBatch Write.entry
    simp [hopen, hone, hstored]
  obtain ⟨stored, hstored', hframe, -⟩ := frameLength_putBatch_one hopen hone he
  rw [hstored] at hstored'
  cases hstored'
  have hle := hfits e he
  rw [length_bytesText] at hframe
  dsimp only at hframe
  rw [Base64.length_encode] at hframe
  unfold maxWALEntryBytes at hle
  omega

/-- A restoration is the writing of its frames. -/
theorem exists_restoration (hsource : Reachable J.toJson encryptor s m)
    (htarget : Reachable J.toJson encryptor' s' m') (hmoments : ∀ i, (moments i).Works encryptor')
    (horder : ∀ l, (order l).Perm l) : ∃ (image : GoMap (Option Bytes)) (keys : List Key),
      fsmSnapshot J.toJson s.db = some (.ok (J.marshalMap image.1)) ∧
      J.unmarshalMap (J.marshalMap image.1) = some (some image.1) ∧
      s'.db.list [] = some (.ok keys) ∧
      (∀ key, find key image.1 = if underRaft key then none else (m key).map s.db.slice) ∧
      (∀ key, key ∈ keys ↔ (m' key).isSome) ∧
      Unhindered J.toJson encryptor' (replaceFrames keys (order image.1)) moments ∧
      fsmRestore J.toJson s' (J.marshalMap image.1) order moments =
        (s'.writeEach J.toJson (replaceFrames keys (order image.1)) moments).map fun r =>
          (r.1, r.2.mapError .store) := by
  obtain ⟨image, hsnap, hdecode, hfind, hvalid⟩ := fsmSnapshot_spec hsource
  obtain ⟨keys, hlist, -, hmem⟩ := htarget.ok.represents.list []
  have hkeys : ∀ key, key ∈ keys ↔ (m' key).isSome := fun key => (hmem key).trans (by simp)
  refine ⟨image, keys, hsnap, hdecode, hlist, hfind, hkeys, ?_, ?_⟩
  · refine unhindered_replaceFrames hmoments (fun key hkey => ?_)
      fun x hx => hvalid x ((horder image.1).mem_iff.mp hx)
    refine htarget.ok.keys key fun hnone => ?_
    have hholds := htarget.ok.represents.contents key
    have hjoin : (find key s'.db.data.entries).join = none := hnone
    rw [hjoin] at hholds
    have hm : m' key = none := hholds
    have hsome := (hkeys key).mp hkey
    rw [hm] at hsome
    cases hsome
  · unfold fsmRestore replaceApplicationState
    rw [hdecode]
    simp only [hlist, getD_some]

/-- A value of the source is in the data. -/
theorem mem_data
    (hfind : ∀ key, find key image.1 = if underRaft key then none else (m key).map db.slice)
    (hdata : data.Perm image.1)
    (hraft : underRaft key = false) (hv : m key = some v) (hne : v ≠ []) :
    (key, some v) ∈ data := by
  refine hdata.mem_iff.mpr (mem_of_find ?_)
  rw [hfind, hraft, if_neg nofun, hv]
  simp [slice, hne]

/-- **Snapshot and restore.** The image of any store, restored to any other on a
working disk, gives it the keys and values of the source outside `raft/` and
leaves the keys under `raft/`, exactly if every frame of the restoration fits
and no empty value meets a store without encryption. The frames fit if the keys
are short and need no escapes and no value has more than 589428 bytes; they do
not if one has 589795 or more. -/
theorem snapshot_restore (hsource : Reachable J.toJson encryptor s m)
    (htarget : Reachable J.toJson encryptor' s' m')
    (hlog : s'.wal.broken = false) (hmoments : ∀ i, (moments i).Works encryptor')
    (horder : ∀ l, (order l).Perm l) : ∃ image data keys,
      fsmSnapshot J.toJson s.db = some (.ok image) ∧ J.unmarshalMap image = some (some data) ∧
      s'.db.list [] = some (.ok keys) ∧
      ((∃ t, fsmRestore J.toJson s' image order moments = some (t, .ok ()) ∧
        t.db.Reads (restored m m')) ↔
        AllFit J.toJson s'.db (replaceFrames keys (order data)) moments ∧
        KeepsEmpty encryptor encryptor' m) ∧
      (Modest m m' → AllFit J.toJson s'.db (replaceFrames keys (order data)) moments) ∧
      ((∃ key v, underRaft key = false ∧ m key = some v ∧ 589795 ≤ v.length) →
        ¬ AllFit J.toJson s'.db (replaceFrames keys (order data)) moments) := by
  obtain ⟨image, keys, hsnap, hdecode, hlist, hfind, hkeys, hunhindered, hrestore⟩ :=
    exists_restoration hsource htarget hmoments horder
  have hperm := horder image.1
  have hopen := htarget.ok.represents.opened
  have hafter : contentsAfter encryptor'.isSome (replaceFrames keys (order image.1)) moments m' =
    _ :=
    contentsAfter_replaceFrames hkeys hfind hperm
  obtain ⟨hall, hfail⟩ := htarget.writeEach hlog hunhindered
  refine ⟨_, image.1, keys, hsnap, hdecode, hlist, ?_, fun hmodest => ?_, ?_⟩
  · rw [hrestore]
    constructor
    · rintro ⟨t, ht, hreads⟩
      have hfit : AllFit J.toJson s'.db (replaceFrames keys (order image.1)) moments := by
        by_contra hnot
        obtain ⟨t', err, herr⟩ := hfail hnot
        rw [herr] at ht
        cases ht
      obtain ⟨t', ht', hreach, -⟩ := hall hfit
      rw [ht'] at ht
      cases ht
      rw [hafter] at hreach
      exact ⟨hfit, (visible_slice_iff hsource.ok.encryptor).mp
        (reads_unique hreach.ok.represents.reads hreads)⟩
    · rintro ⟨hfit, hkeeps⟩
      obtain ⟨t, ht, hreach, -⟩ := hall hfit
      rw [hafter, (visible_slice_iff hsource.ok.encryptor).mpr hkeeps] at hreach
      exact ⟨t, by rw [ht]; rfl, hreach.ok.represents.reads⟩
  · refine hmodest.allFit hopen (fun key hkey => (hkeys key).mp hkey) fun x hx hraft => ?_
    have hx' := (hfind x.1).symm.trans (find_of_mem image.2 (hperm.mem_iff.mp hx))
    rw [hraft, if_neg nofun] at hx'
    obtain ⟨v, hv, hslice⟩ := map_eq_some_iff.mp hx'
    refine ⟨v, hv, ?_⟩
    rw [← hslice]
    unfold slice
    split
    · exact Nat.zero_le _
    · exact le_rfl
  · rintro ⟨key, v, hraft, hv, hlarge⟩
    have hne : v ≠ [] := by
      rintro rfl
      cases hlarge
    exact not_allFit_of_large hopen htarget.ok.encryptor hmoments
      (mem_data hfind hperm hraft hv hne) hraft hlarge

/-! ## Stores with one value -/

/-- The contents with one value. -/
def single (key : Key) (v : Bytes) : Contents := fun k => if k = key then some v else none

theorem exists_single (hkey : ∀ b ∈ key, isPlain b) (hlen : key.length ≤ 375)
    (hv : v.length ≤ 700000) : ∃ s, Reachable J.toJson none s (single key v) ∧
    s.wal.broken = false := by
  have hnew : Reachable J.toJson none (Store.newEngine 0 none) fun _ => none := .new 0
  have hsize : (J.quote key).length + 4 * ((v.length + 62) / 3) + 77 ≤ maxWALEntryBytes := by
    rw [length_quote_plain hkey, maxWALEntryBytes]
    omega
  obtain ⟨s, -, hreach, hlog⟩ :=
    hnew.write_fits (w := .put none key (some v)) rfl (J.validUTF8_plain key hkey)
    ⟨rfl, nofun⟩ (fits_put hsize _ 1)
  exact ⟨s, hreach, hlog⟩

/-- One small value takes the place of another. -/
theorem snapshot_restore_small : ∃ s s' image t,
    Reachable quotedJson.toJson none s (single [97] [1]) ∧
    Reachable quotedJson.toJson none s' (single [98] [2]) ∧
    fsmSnapshot quotedJson.toJson s.db = some (.ok image) ∧
    fsmRestore quotedJson.toJson s' image id (fun _ => workingMoment) = some (t, .ok ()) ∧
    t.db.Reads (single [97] [1]) := by
  have hplain : ∀ b : Byte, b = 97 ∨ b = 98 → ∀ c ∈ [b], isPlain c := by decide +kernel
  obtain ⟨s, hs, -⟩ := exists_single (J := quotedJson) (hplain 97 (.inl rfl)) (by decide)
    (v := [1]) (by decide)
  obtain ⟨s', hs', hlog⟩ := exists_single (J := quotedJson) (hplain 98 (.inr rfl)) (by decide)
    (v := [2]) (by decide)
  have horder : ∀ l : List (Key × Option Bytes), (id l).Perm l := fun l => .refl l
  obtain ⟨image, data, keys, hsnap, -, -, hiff, hmodest, -⟩ :=
    snapshot_restore hs hs' hlog (fun _ => workingMoment_works) horder
  have hfit := hmodest
    { keys := by
        intro key _ hkey
        have hcases : key = [97] ∨ key = [98] := by
          unfold single at hkey
          by_cases h₁ : key = [97]
          · exact .inl h₁
          · by_cases h₂ : key = [98]
            · exact .inr h₂
            · simp [h₁, h₂] at hkey
        rcases hcases with rfl | rfl
        · exact ⟨hplain 97 (.inl rfl), by decide⟩
        · exact ⟨hplain 98 (.inr rfl), by decide⟩
      values := by
        intro key v _ hv
        unfold single at hv
        split at hv
        · cases hv
          decide
        · cases hv }
  obtain ⟨t, hrestore, hreads⟩ := hiff.mpr ⟨hfit, fun _ h => absurd rfl h⟩
  refine ⟨s, s', image, t, hs, hs', hsnap, hrestore, ?_⟩
  -- nothing is stored under `raft/`
  have hsame : restored (single [97] [1]) (single [98] [2]) = single [97] [1] := by
    funext key
    unfold restored single
    by_cases hraft : underRaft key = true
    · have h₁ : key ≠ [97] := by
        rintro rfl
        cases hraft
      have h₂ : key ≠ [98] := by
        rintro rfl
        cases hraft
      simp [h₁, h₂]
    · simp [hraft]
  rwa [hsame] at hreads

/-- **A value that cannot be restored.** A `Put` accepts 600000 bytes, the image
has them, and no store takes it back. -/
theorem large_value_not_restored :
    ∃ s image, Reachable quotedJson.toJson none s (single [97] (replicate 600000 0)) ∧
    fsmSnapshot quotedJson.toJson s.db = some (.ok image) ∧
    ∃ t err, fsmRestore quotedJson.toJson (Store.newEngine 0 none) image id
      (fun _ => workingMoment) = some (t, .error err) := by
  have hplain : ∀ c ∈ ([97] : Key), isPlain c := by decide +kernel
  have hlength : (replicate 600000 (0 : Byte)).length = 600000 := length_replicate
  obtain ⟨s, hs, -⟩ := exists_single (J := quotedJson) hplain (by decide)
    (v := replicate 600000 0) (by omega)
  have htarget : Reachable quotedJson.toJson none (Store.newEngine 0 none) fun _ => none := .new 0
  have hworks : ∀ i : ℕ, ((fun _ => workingMoment) i).Works none := fun _ => workingMoment_works
  have horder : ∀ l : List (Key × Option Bytes), (id l).Perm l := fun l => .refl l
  obtain ⟨image, keys, hsnap, -, -, hfind, -, hunhindered, hrestore⟩ :=
    exists_restoration hs htarget hworks horder
  have hne : replicate 600000 (0 : Byte) ≠ [] := fun h => by simp [h] at hlength
  have hmem : ([97], some (replicate 600000 0)) ∈ id image.1 :=
    mem_data hfind (horder image.1) rfl (if_pos rfl) hne
  have hnot : ¬ AllFit quotedJson.toJson (Store.newEngine 0 none).db
    (replaceFrames keys (id image.1))
      (fun _ => workingMoment) := not_allFit_of_large rfl rfl hworks hmem rfl (by omega)
  obtain ⟨t, err, herr⟩ := (htarget.writeEach rfl hunhindered).2 hnot
  refine ⟨s, _, hs, hsnap, t, .store err, ?_⟩
  rw [hrestore, herr]
  rfl

end Anubis.Storage
