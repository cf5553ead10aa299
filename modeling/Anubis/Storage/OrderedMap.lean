import Anubis.Storage.Helpers.BTree

/-!
# The store is an ordered map

`CobaltDB` refines a finite map from keys to values: whatever writes, deletions
and checkpoints came before, a read returns what the map holds. The tree
stays sorted and separated, and no operation panics. Tombstones, the order of
the tree and the encryption cannot be seen.

A `nil` value that is put into a store without encryption is a tombstone; with
encryption it is an empty value.
-/

namespace Anubis.Storage

open List Option BTreeIndex

namespace CobaltDB

open SortedAssoc

variable {es : List (Key × Option Bytes)} {random : Key → Option Draw} {start : Key}
variable {t : BTreeIndex Key Bytes} {stored c : Option Bytes}

/-- What the store is for: a value for some of the keys. -/
abbrev Contents := Key → Option Bytes

/-! ## The abstract operations -/

/-- The value a reader gets to see of a value that was put. -/
def visible (encrypted : Bool) (value : Option Bytes) : Option Bytes :=
  if encrypted then some (value.getD []) else value

/-- **The ordered map.** How an operation that returned `r` changes the
contents. One that failed changes nothing, except that `DeletePrefix` deletes
key by key. -/
def Op.Effect (encrypted : Bool) (op : Op) (r : Except EngineError Unit) (m m' : Contents) : Prop :=
  match op, r with
  | .put _ _ key value, .ok _ => m' = fun k => if k = key then visible encrypted value else m k
  | .putMany _ _ values, .ok _ => m' = fun k =>
      match find k values.1 with
      | some value => visible encrypted value
      | none => m k
  | .delete _ key, .ok _ => m' = fun k => if k = key then none else m k
  | .deleteMany _ keys, .ok _ => m' = fun k => if k ∈ keys then none else m k
  | .deletePrefix _ start, .ok _ => m' = fun k => if start <+: k then none else m k
  | .deletePrefix _ start, .error _ => ∀ k, m' k = m k ∨ start <+: k ∧ m' k = none
  | _, _ => m' = m

/-- An operation that nothing hinders: the log takes its entries, and its
values can be encrypted. -/
def Op.Served (encryptor : Option Encryptor) : Op → Prop
  | .put random wal _ value =>
    wal = true ∧ ∀ e ∈ encryptor, (e.encrypt random (value.getD [])).isSome
  | .putMany random wal values =>
    wal = true ∧ ∀ e ∈ encryptor, ∀ x ∈ values.1, (e.encrypt (random x.1) (x.2.getD [])).isSome
  | .delete wal _ => wal = true
  | .deleteMany wal _ => wal = true
  | .deletePrefix wal _ => ∀ key, wal key = true
  | .checkpoint wal => wal = true

/-- The contents after a sequence of operations with the given results. An
operation that nothing hinders does not fail. -/
inductive History (encryptor : Option Encryptor) :
    List Op → List (Except EngineError Unit) → Contents → Contents → Prop
  | nil (m : Contents) : History encryptor [] [] m m
  | cons {op : Op} {r : Except EngineError Unit} {ops : List Op}
      {rs : List (Except EngineError Unit)}
      {m m' m'' : Contents} (h : op.Effect encryptor.isSome r m m')
      (hr : op.Served encryptor → r = .ok ())
      (t : History encryptor ops rs m' m'') : History encryptor (op :: ops) (r :: rs) m m''

/-- **The reads of an ordered map.** -/
structure Reads (db : CobaltDB) (m : Contents) : Prop where
  get : ∀ key, db.get key = some (match m key with
    | some value => .ok value
    | none => .error (.notFound key))
  list : ∀ start, ∃ keys, db.list start = some (.ok keys) ∧ keys.Pairwise (· < ·) ∧
    ∀ key, key ∈ keys ↔ start <+: key ∧ (m key).isSome
  prefixScan : ∀ start, ∃ result, db.prefixScan start = some (.ok result) ∧ Sorted result ∧
    ∀ key, find key result = if start <+: key then m key else none
  rangeScan : ∀ start stop, ∃ result, db.rangeScan start stop = some (.ok result) ∧ Sorted result ∧
    ∀ key, find key result = if start ≤ key ∧ key < stop then m key else none

/-! ## The refinement relation -/

variable {db db' : CobaltDB} {m : Contents} {key : Key}

/-- What is stored under a key decodes to the visible value. -/
def Holds (db : CobaltDB) (key : Key) : Option Bytes → Option Bytes → Prop
  | none, c => c = none
  | some value, c => ∃ p, db.decodeStoredValue key value = .ok p ∧ c = some p

/-- **The refinement relation**: the tree is well formed, and its live entries
are the contents. -/
structure Represents (db : CobaltDB) (m : Contents) : Prop where
  ok : db.data.Ok
  opened : db.closed = false
  contents : ∀ key, Holds db key (find key db.data.entries).join (m key)

variable (h : Represents db m)

theorem represents_newEngine (configured : ℤ) (encryptor : Option Encryptor) :
    Represents (newEngine configured encryptor) fun _ => none where
  ok := ok_empty _ _
  opened := rfl
  contents := fun _ => rfl

/-! ## Reading -/

/-- A loop that collects. -/
theorem foldlM_collect {α β : Type} {f : α → β} (es : List α) (acc : List β) :
    es.foldlM (fun acc x => (.ok (acc ++ [f x]) : Except EngineError (List β))) acc =
    .ok (acc ++ es.map f) := by
  induction es generalizing acc with
  | nil =>
    rw [map_nil, append_nil]
    rfl
  | cons x es ih =>
    rw [foldlM_cons]
    exact (ih (acc ++ [f x])).trans (by simp)

theorem isPrefixOf_iff : start.isPrefixOf key = true ↔ start <+: key :=
  isPrefixOf_iff_prefix

theorem visitPrefix_take : visitPrefix start key = .take ↔ start <+: key := by
  rw [← isPrefixOf_iff]
  unfold visitPrefix
  split
  · simp_all
  · split <;> simp_all

theorem visitRange_take {start stop : Key} : visitRange start stop key = .take ↔ start ≤ key ∧
    key < stop := by
  unfold visitRange
  split
  · split <;> simp_all
  · simp_all

/-- Keys with a prefix lie together. -/
theorem stopsWell_visitPrefix (hs : Sorted es) : StopsWell (visitPrefix start) es := by
  refine List.Pairwise.imp ?_ hs
  intro x y hlt hstop htake
  have hle : start ≤ x.1 ∧ ¬ start <+: x.1 := by
    rw [← isPrefixOf_iff]
    unfold visitPrefix at hstop
    split at hstop
    · cases hstop
    · split at hstop
      · rename_i hne hlt'
        exact ⟨hlt'.le, hne⟩
      · cases hstop
  exact hle.2 (isPrefix_of_between (visitPrefix_take.mp htake) hle.1 hlt.le)

theorem stopsWell_visitRange {start stop : Key} (hs : Sorted es) :
    StopsWell (visitRange start stop) es := by
  refine List.Pairwise.imp ?_ hs
  intro x y hlt hstop htake
  have hge : stop ≤ x.1 := by
    unfold visitRange at hstop
    split at hstop
    · split at hstop
      · assumption
      · cases hstop
    · cases hstop
  exact absurd ((visitRange_take.mp htake).2) (not_lt_of_ge (hge.trans hlt.le))

/-- The loop body that `PrefixScan` and `RangeScan` share. -/
def decodeInto (db : CobaltDB) (wrap : EngineError → EngineError)
    (result : List (Key × Bytes)) (key : Key)
    (value : Bytes) : Except EngineError (List (Key × Bytes)) :=
  match db.decodeStoredValue key value with
  | .ok value => .ok (upsert key value result)
  | .error e => .error (wrap e)

namespace Represents

include h

theorem live {value : Bytes} (hmem : (key, some value) ∈ db.data.entries) :
    ∃ p, db.decodeStoredValue key value = .ok p ∧ m key = some p := by
  have := h.contents key
  rw [find_of_mem h.ok.sorted hmem] at this
  exact this

theorem mem {p : Bytes} (hp : m key = some p) :
    ∃ value, (key, some value) ∈ db.data.entries ∧ db.decodeStoredValue key value = .ok p := by
  have := h.contents key
  rw [hp] at this
  cases hfind : find key db.data.entries with
  | none =>
    rw [hfind] at this
    cases this
  | some stored =>
    rw [hfind] at this
    cases stored with
    | none => cases this
    | some value =>
      obtain ⟨p', hdec, heq⟩ := this
      cases heq
      exact ⟨value, mem_of_find hfind, hdec⟩

theorem get (key : Key) : db.get key = some (match m key with
    | some value => .ok value
    | none => .error (.notFound key)) := by
  obtain ⟨A, l, B, a, b, hleaves, hfind, -, hin, hA, hB⟩ := h.ok.within.findLeaf (between key)
  have hentries : find key db.data.entries = find key l.entries := by
    have hsplit : db.data.entries = A.flatMap Leaf.entries ++
      (l.entries ++ B.flatMap Leaf.entries) := by
      unfold entries BTreeNode.entries
      rw [hleaves]
      simp
    rw [hsplit, find_append_left fun x hx => (hA x hx).ne, find_append_right fun x hx =>
      (hB x hx).ne']
  have hholds := h.contents key
  rw [hentries, ← hin.find key] at hholds
  unfold CobaltDB.get
  rw [h.opened, hfind]
  simp only [Bool.false_eq_true, if_false]
  split
  · rename_i hget
    rw [if_pos hget] at hholds
    have hlt : findKeyIndex l.keys key < l.values.length := by
      rw [hin.length]
      exact (List.getElem?_eq_some_iff.mp hget).1
    rw [getElem?_eq_getElem hlt] at hholds ⊢
    cases hv : l.values[findKeyIndex l.keys key] with
    | none =>
      rw [hv] at hholds
      have hm : m key = none := hholds
      simp [hm]
    | some =>
      rw [hv] at hholds
      obtain ⟨p, hdec, hm⟩ := hholds
      simp [hdec, hm]
  · rename_i hget
    rw [if_neg hget] at hholds
    have hm : m key = none := hholds
    simp [hm]

/-- **A scan from its start key** collects what it selects of the whole
tree, from the first leaf on or from the start key on. -/
theorem scan {σ : Type} {visit : Key → Visit}
    (hwell : StopsWell visit db.data.entries) (hstart : ∀ key, visit key = .take → start ≤ key)
    (collect : σ → Key → Bytes → Except EngineError σ) (acc : σ) :
    ∃ node, db.data.root.seekLeaf start = some node ∧
      scanLeaves visit collect (node :: db.data.after node) acc =
        some ((taken visit db.data.entries).foldlM (fun acc x => collect acc x.1 x.2) acc) ∧
      scanLeaves visit collect (dropKeys node (findKeyIndex node.keys start) :: db.data.after node)
      acc =
        some ((taken visit db.data.entries).foldlM (fun acc x => collect acc x.1 x.2) acc) := by
  obtain ⟨A, node, a, b, hseek, hin, hentries, hA, hlen⟩ := seek_spec h.ok start
  have hskip : ∀ es es', Keys (· < start) es → taken visit (es ++ es') = taken visit es' := by
    intro es es' hes
    have hnil : taken visit es = [] := by
      refine eq_nil_iff_forall_not_mem.mpr ?_
      rintro ⟨k, v⟩ hmem
      obtain ⟨hmem, htake⟩ := mem_taken.mp hmem
      exact absurd (hstart k htake) (not_le_of_gt (hes _ hmem))
    unfold taken at hnil ⊢
    rw [filterMap_append, hnil, nil_append]
  have hfirst : node.entries = node.entries.take (findKeyIndex node.keys start) ++
      (dropKeys node (findKeyIndex node.keys start)).entries := by
    have : (dropKeys node (findKeyIndex node.keys start)).entries =
        node.entries.drop (findKeyIndex node.keys start) := Leaf.drop_entries node _
    rw [this, take_append_drop]
  rw [hentries, append_assoc] at hwell
  refine ⟨node, hseek, ?_, ?_⟩
  · rw [scanLeaves_spec hlen (pairwise_append.mp hwell).2.1, flatMap_cons, hentries,
      append_assoc, hskip _ _ hA]
  · have hwell' := (pairwise_append.mp hwell).2.1
    rw [hfirst, append_assoc] at hwell'
    have hlen' : ∀ l ∈ dropKeys node (findKeyIndex node.keys start) :: db.data.after node,
        l.values.length = l.keys.length := by
      intro l hl
      rcases mem_cons.mp hl with rfl | hl
      · simp [dropKeys, hlen node (by simp)]
      · exact hlen l (by simp [hl])
    rw [scanLeaves_spec hlen' (pairwise_append.mp hwell').2.1, flatMap_cons, hentries,
      append_assoc, hskip _ _ hA, hfirst, append_assoc, hskip _ _ (hin.skipped start)]

theorem list (start : Key) : ∃ keys, db.list start = some (.ok keys) ∧ keys.Pairwise (· < ·) ∧
      ∀ key, key ∈ keys ↔ start <+: key ∧ (m key).isSome := by
  obtain ⟨node, hseek, -, hscan⟩ := h.scan (stopsWell_visitPrefix h.ok.sorted)
    (fun key htake => le_of_isPrefix (visitPrefix_take.mp htake)) (fun keys key _ =>
      .ok (keys ++ [key])) []
  refine ⟨(taken (visitPrefix start) db.data.entries).map Prod.fst, ?_, ?_, fun key => ?_⟩
  · unfold CobaltDB.list
    rw [h.opened, hseek]
    simp only [Bool.false_eq_true, if_false]
    rw [hscan, foldlM_collect, nil_append]
  · rw [pairwise_map]
    exact Sorted.taken h.ok.sorted
  · rw [List.mem_map]
    constructor
    · rintro ⟨⟨k, value⟩, hmem, rfl⟩
      obtain ⟨hmem, htake⟩ := mem_taken.mp hmem
      obtain ⟨p, -, hm⟩ := h.live hmem
      exact ⟨visitPrefix_take.mp htake, by simp [hm]⟩
    · rintro ⟨hpre, hsome⟩
      obtain ⟨p, hp⟩ := isSome_iff_exists.mp hsome
      obtain ⟨value, hmem, -⟩ := h.mem hp
      exact ⟨(key, value), mem_taken.mpr ⟨hmem, visitPrefix_take.mpr hpre⟩, rfl⟩

/-- No entry fails to decode, and the result holds what the scan selects. -/
theorem decode (visit : Key → Visit) (wrap : EngineError → EngineError) :
    ∃ result, (taken visit db.data.entries).foldlM (fun acc x => db.decodeInto wrap acc x.1 x.2)
      [] = .ok result ∧
      Sorted result ∧ ∀ key, find key result = if visit key = .take then m key else none := by
  have hmem : ∀ x ∈ taken visit db.data.entries,
      ∃ p, db.decodeStoredValue x.1 x.2 = .ok p ∧ m x.1 = some p := fun x hx =>
        h.live (mem_taken.mp hx).1
  have hsorted : Sorted ((taken visit db.data.entries).map fun x => (x.1, (m x.1).getD [])) :=
    pairwise_map.mpr (Sorted.taken h.ok.sorted)
  have hfold : ∀ (es : List (Key × Bytes)) (acc : List (Key × Bytes)),
      (∀ x ∈ es, ∃ p, db.decodeStoredValue x.1 x.2 = .ok p ∧ m x.1 = some p) →
      es.foldlM (fun acc x => db.decodeInto wrap acc x.1 x.2) acc =
        .ok ((es.map fun x => (x.1, (m x.1).getD [])).foldl (fun l x => upsert x.1 x.2 l) acc) := by
    intro es
    induction es with
    | nil => intro acc _; rfl
    | cons x es ih =>
      intro acc hes
      obtain ⟨p, hdec, hm⟩ := hes x (by simp)
      have hone : db.decodeInto wrap acc x.1 x.2 = .ok (upsert x.1 ((m x.1).getD []) acc) := by
        simp [decodeInto, hdec, hm]
      rw [foldlM_cons, hone]
      exact ih _ fun y hy => hes y (by simp [hy])
  refine ⟨_, hfold _ [] hmem, ?_, fun key => ?_⟩
  · rw [foldl_upsert (by simpa using hsorted)]
    simpa using hsorted
  · rw [foldl_upsert (by simpa using hsorted), nil_append]
    by_cases hin : visit key = .take ∧ ∃ p, m key = some p
    · obtain ⟨htake, p, hp⟩ := hin
      obtain ⟨value, hv, -⟩ := h.mem hp
      rw [if_pos htake, hp]
      refine find_of_mem hsorted (List.mem_map.mpr ⟨(key, value), mem_taken.mpr ⟨hv, htake⟩, ?_⟩)
      simp [hp]
    · have hnone : (if visit key = .take then m key else none) = none := by
        split
        · rename_i htake
          cases hp : m key with
          | none => rfl
          | some p => exact absurd ⟨htake, p, hp⟩ hin
        · rfl
      rw [hnone]
      refine find_eq_none fun x hx heq => hin ?_
      obtain ⟨y, hy, rfl⟩ := List.mem_map.mp hx
      obtain ⟨p, -, hm⟩ := hmem y hy
      obtain rfl : y.1 = key := heq
      exact ⟨(mem_taken.mp hy).2, p, hm⟩

theorem prefixScan (start : Key) : ∃ result, db.prefixScan start = some (.ok result) ∧
    Sorted result ∧
      ∀ key, find key result = if start <+: key then m key else none := by
  obtain ⟨result, hfold, hsorted, hfind⟩ := h.decode (visitPrefix start) (.prefixScan start)
  obtain ⟨node, hseek, -, hscan⟩ := h.scan (stopsWell_visitPrefix h.ok.sorted)
    (fun key htake => le_of_isPrefix (visitPrefix_take.mp htake))
    (db.decodeInto (.prefixScan start)) []
  refine ⟨result, ?_, hsorted, fun key => ?_⟩
  · unfold CobaltDB.prefixScan
    rw [h.opened, hseek]
    simp only [Bool.false_eq_true, if_false]
    rw [← hfold]
    exact hscan
  · simp only [hfind, visitPrefix_take]

theorem rangeScan (start stop : Key) : ∃ result, db.rangeScan start stop = some (.ok result) ∧
    Sorted result ∧
      ∀ key, find key result = if start ≤ key ∧ key < stop then m key else none := by
  obtain ⟨result, hfold, hsorted, hfind⟩ := h.decode (visitRange start stop) (.rangeScan start stop)
  obtain ⟨node, hseek, hscan, -⟩ := h.scan (stopsWell_visitRange h.ok.sorted)
    (fun key htake => (visitRange_take.mp htake).1) (db.decodeInto (.rangeScan start stop)) []
  refine ⟨result, ?_, hsorted, fun key => ?_⟩
  · unfold CobaltDB.rangeScan
    rw [h.opened, hseek]
    simp only [Bool.false_eq_true, if_false]
    rw [← hfold]
    exact hscan
  · simp only [hfind, visitRange_take]

theorem reads : Reads db m :=
  ⟨h.get, h.list, h.prefixScan, h.rangeScan⟩

end Represents

/-! ## Writing -/

theorem Holds.congr (he : db'.encryptor = db.encryptor) (h : Holds db key stored c) :
    Holds db' key stored c := by
  cases stored with
  | none => exact h
  | some =>
    obtain ⟨p, hdec, hc⟩ := h
    refine ⟨p, ?_, hc⟩
    unfold decodeStoredValue at hdec ⊢
    rw [he]
    exact hdec

/-- What is stored for a value decodes to it. -/
theorem holds_storeValue {random : Option Draw} {value stored : Option Bytes}
    (h : db.storeValue random value = some stored) :
    Holds db key stored (visible db.encryptor.isSome value) := by
  unfold storeValue at h
  cases he : db.encryptor with
  | none =>
    rw [he] at h
    cases h
    cases value with
    | none => rfl
    | some value => exact ⟨value, by simp [decodeStoredValue, he], rfl⟩
  | some =>
    rw [he] at h
    obtain ⟨data, henc, rfl⟩ := map_eq_some_iff.mp h
    exact ⟨value.getD [], by simp [decodeStoredValue, he, Encryptor.decrypt_encrypt henc], rfl⟩

/-- What an operation has to show: it does not panic, fails only if it is
hindered, and has its effect. -/
def Simulates (db : CobaltDB) (m : Contents) (op : Op) : Prop :=
  ∃ db' r m', db.step op = some (db', r) ∧ op.Effect db.encryptor.isSome r m m' ∧
    (op.Served db.encryptor → r = .ok ()) ∧ Represents db' m' ∧ db'.encryptor = db.encryptor

/-- A value that cannot be stored cannot be encrypted. -/
theorem storeValue_eq_none {random : Option Draw} {value : Option Bytes}
    (h : db.storeValue random value = none) :
    ∃ e ∈ db.encryptor, ¬ (e.encrypt random (value.getD [])).isSome := by
  unfold storeValue at h
  cases he : db.encryptor with
  | none =>
    rw [he] at h
    cases h
  | some e =>
    rw [he] at h
    exact ⟨e, rfl, by simpa using h⟩

/-- What `putMany` stores: a value for each of the keys, in their order. -/
theorem mapM_storeValue {values stored : List (Key × Option Bytes)}
    (h : values.mapM (fun (key, value) => (db.storeValue (random key) value).map (key, ·)) =
      some stored) :
    stored.map Prod.fst = values.map Prod.fst ∧
      ∀ x ∈ stored, ∃ value, (x.1, value) ∈ values ∧
        db.storeValue (random x.1) value = some x.2 := by
  induction values generalizing stored with
  | nil =>
    cases h
    exact ⟨rfl, nofun⟩
  | cons y values ih =>
    rw [mapM_cons] at h
    simp only [bind_eq_bind, Option.pure_def, bind_eq_some_iff, map_eq_some_iff] at h
    obtain ⟨x, ⟨v, hv, rfl⟩, rest, hrest, heq⟩ := h
    cases heq
    obtain ⟨hkeys, hmem⟩ := ih hrest
    refine ⟨by simp [hkeys], fun z hz => ?_⟩
    rcases mem_cons.mp hz with rfl | hz
    · exact ⟨y.2, by simp, hv⟩
    · obtain ⟨value, hin, hval⟩ := hmem z hz
      exact ⟨value, by simp [hin], hval⟩

theorem mapM_storeValue_eq_none {values : List (Key × Option Bytes)}
    (h : values.mapM (fun (key, value) => (db.storeValue (random key) value).map (key, ·)) = none) :
    ∃ x ∈ values, ∃ e ∈ db.encryptor, ¬ (e.encrypt (random x.1) (x.2.getD [])).isSome := by
  induction values with
  | nil => cases h
  | cons y values ih =>
    rw [mapM_cons] at h
    cases hy : db.storeValue (random y.1) y.2 with
    | none => exact ⟨y, by simp, storeValue_eq_none hy⟩
    | some =>
      have hrest : values.mapM (fun (key, value) =>
        (db.storeValue (random key) value).map (key, ·)) = none := by
        refine eq_none_iff_forall_ne_some.mpr ?_
        simpa [hy] using h
      obtain ⟨x, hx, hnone⟩ := ih hrest
      exact ⟨x, by simp [hx], hnone⟩

namespace Represents

include h

/-- One write. -/
theorem insert (hc : Holds db key stored c) : ∃ data, db.data.insert key stored = some data ∧
      Represents { db with data := data } fun k => if k = key then c else m k := by
  obtain ⟨data, hins, hok, hentries, -⟩ := h.ok.insert key stored
  refine ⟨data, hins, hok, h.opened, fun k => ?_⟩
  dsimp only
  rw [hentries, find_upsert h.ok.sorted]
  split
  · rename_i heq
    subst heq
    rw [if_pos rfl]
    exact Holds.congr rfl hc
  · rename_i hne
    rw [if_neg fun heq => hne heq.symm]
    exact Holds.congr rfl (h.contents k)

/-- **Writes one after another.** `c` is what the written keys show. -/
theorem publish (es : List (Key × Option Bytes)) (c : Contents)
    (hes : ∀ x ∈ es, Holds db x.1 x.2 (c x.1)) :
    ∃ db', publish db es = some (db', .ok ()) ∧ db'.encryptor = db.encryptor ∧
      Represents db' fun k => if k ∈ es.map Prod.fst then c k else m k := by
  induction es generalizing db m with
  | nil => exact ⟨db, rfl, rfl, by simpa using h⟩
  | cons x es ih =>
    obtain ⟨data, hins, hrep⟩ := h.insert (hes x (by simp))
    obtain ⟨db', hpub, he, hrep'⟩ := ih hrep fun y hy => Holds.congr rfl (hes y (by simp [hy]))
    refine ⟨db', ?_, he, ?_⟩
    · unfold CobaltDB.publish at hpub ⊢
      rw [insertAll]
      simp only [hins, bind_eq_bind, bind_some]
      exact hpub
    · have hm : (fun k => if k ∈ (x :: es).map Prod.fst then c k else m k) = fun k =>
          if k ∈ es.map Prod.fst then c k else if k = x.1 then c x.1 else m k := by
        funext k
        simp only [map_cons, mem_cons]
        by_cases hmem : k ∈ es.map Prod.fst
        · rw [if_pos (.inr hmem), if_pos hmem]
        · rw [if_neg hmem]
          by_cases hk : k = x.1
          · rw [if_pos (.inl hk), if_pos hk, hk]
          · rw [if_neg (not_or.mpr ⟨hk, hmem⟩), if_neg hk]
      rw [hm]
      exact hrep'

theorem failed {op : Op} {e : EngineError} (hstep : db.step op = failed db e)
    (hop : op.Effect db.encryptor.isSome (.error e) m m) (hserved : ¬ op.Served db.encryptor) :
    Simulates db m op :=
  ⟨db, .error e, m, hstep, hop, fun hs => absurd hs hserved, h, rfl⟩

theorem put (random : Option Draw) (wal : Bool) (key : Key)
    (value : Option Bytes) : Simulates db m (.put random wal key value) := by
  cases hs : db.storeValue random value with
  | none =>
    refine h.failed (e := .encryptionFailed) (by simp [step, CobaltDB.put, h.opened, hs]) rfl
      fun hserved => ?_
    obtain ⟨e, he, hnone⟩ := storeValue_eq_none hs
    exact hnone (hserved.2 e he)
  | some stored =>
    cases wal with
    | false =>
      exact h.failed (e := .walAppendFailed) (by simp [step, CobaltDB.put, h.opened, hs]) rfl
        fun hserved => absurd hserved.1 Bool.false_ne_true
    | true =>
      obtain ⟨db', hpub, he, hrep⟩ :=
        h.publish [(key, stored)] (fun _ => visible db.encryptor.isSome value)
        (by simpa using holds_storeValue hs)
      refine ⟨db', .ok (), _, ?_, ?_, fun _ => rfl, hrep, he⟩
      · simp [step, CobaltDB.put, h.opened, hs, hpub]
      · simp [Op.Effect]

theorem delete (wal : Bool) (key : Key) : Simulates db m (.delete wal key) := by
  cases wal with
  | false =>
    exact h.failed (e := .walAppendFailed) (by simp [step, CobaltDB.delete, h.opened]) rfl nofun
  | true =>
    obtain ⟨db', hpub, he, hrep⟩ := h.publish [(key, none)] (fun _ => none) (by simp [Holds])
    refine ⟨db', .ok (), _, ?_, ?_, fun _ => rfl, hrep, he⟩
    · simp [step, CobaltDB.delete, h.opened, hpub]
    · simp [Op.Effect]

theorem deleteMany (wal : Bool) (keys : List Key) : Simulates db m (.deleteMany wal keys) := by
  by_cases hnil : keys = []
  · refine ⟨db, .ok (), m, ?_, ?_, fun _ => rfl, h, rfl⟩
    · simp [step, CobaltDB.deleteMany, h.opened, hnil]
    · simp [Op.Effect, hnil]
  · cases wal with
    | false =>
      exact h.failed (e := .walBatchDeleteFailed)
        (by simp [step, CobaltDB.deleteMany, h.opened, hnil]) rfl nofun
    | true =>
      obtain ⟨db', hpub, he, hrep⟩ := h.publish ((keys.mergeSort (· ≤ ·)).map (·, none))
        (fun _ => none) (by simp [Holds])
      refine ⟨db', .ok (), _, ?_, ?_, fun _ => rfl, hrep, he⟩
      · simp [step, CobaltDB.deleteMany, h.opened, hnil, hpub]
      · simp [Op.Effect]

theorem putMany (random : Key → Option Draw) (wal : Bool)
    (values : GoMap (Option Bytes)) : Simulates db m (.putMany random wal values) := by
  by_cases hnil : values.1 = []
  · refine ⟨db, .ok (), m, ?_, ?_, fun _ => rfl, h, rfl⟩
    · simp [step, CobaltDB.putMany, h.opened, hnil]
    · simp [Op.Effect, hnil, find]
  · cases hs : values.1.mapM fun x => (db.storeValue (random x.1) x.2).map (x.1, ·) with
    | none =>
      refine h.failed (e := .encryptionFailed)
        (by simp [step, CobaltDB.putMany, h.opened, hnil, hs]) rfl
        fun hserved => ?_
      obtain ⟨x, hx, e, he, hnone⟩ := mapM_storeValue_eq_none hs
      exact hnone (hserved.2 e he x hx)
    | some stored =>
      cases wal with
      | false =>
        exact h.failed (e := .walBatchAppendFailed)
          (by simp [step, CobaltDB.putMany, h.opened, hnil, hs]) rfl
          fun hserved => absurd hserved.1 Bool.false_ne_true
      | true =>
        obtain ⟨hkeys, hmem⟩ := mapM_storeValue hs
        have hholds : ∀ x ∈ stored, Holds db x.1 x.2
            ((find x.1 values.1).elim none (visible db.encryptor.isSome)) := by
          intro x hx
          obtain ⟨value, hin, hval⟩ := hmem x hx
          rw [find_of_mem values.2 hin]
          exact holds_storeValue hval
        obtain ⟨db', hpub, he, hrep⟩ := h.publish stored
          (fun k => (find k values.1).elim none (visible db.encryptor.isSome)) hholds
        refine ⟨db', .ok (), _, ?_, ?_, fun _ => rfl, hrep, he⟩
        · simp [step, CobaltDB.putMany, h.opened, hnil, hs, hpub]
        · simp only [Op.Effect]
          funext k
          rw [hkeys]
          cases hf : find k values.1 with
          | none =>
            rw [if_neg]
            intro hin
            obtain ⟨x, hx, rfl⟩ := List.mem_map.mp hin
            rw [find_of_mem values.2 hx] at hf
            cases hf
          | some value =>
            rw [if_pos (List.mem_map.mpr ⟨(k, value), mem_of_find hf, rfl⟩)]
            rfl

/-- The loop of `DeletePrefix`. -/
theorem deleteEach (wal : Key → Bool) (keys : List Key) :
    ∃ db' r m', deleteEach db wal keys = some (db', r) ∧ Represents db' m' ∧
      db'.encryptor = db.encryptor ∧ (∀ k, m' k = m k ∨ k ∈ keys ∧ m' k = none) ∧
      (r = .ok () → ∀ k ∈ keys, m' k = none) ∧ ((∀ k, wal k = true) → r = .ok ()) := by
  induction keys generalizing db m with
  | nil => exact ⟨db, .ok (), m, rfl, h, rfl, fun _ => .inl rfl, nofun, fun _ => rfl⟩
  | cons key keys ih =>
    obtain ⟨db₁, r₁, m₁, hstep, heff, hserved, hrep, he⟩ := h.delete (wal key) key
    have hdel : db.delete (wal key) key = some (db₁, r₁) := hstep
    rw [CobaltDB.deleteEach, hdel]
    cases r₁ with
    | error e =>
      have hm : m₁ = m := heff
      subst hm
      exact ⟨db₁, .error e, m₁, rfl, hrep, he, fun _ => .inl rfl, nofun, fun hwal =>
        hserved (hwal key)⟩
    | ok =>
      have hm : m₁ = fun k => if k = key then none else m k := heff
      subst hm
      obtain ⟨db', r, m', hrest, hrep', he', hpart, hall, hok⟩ := ih hrep
      refine ⟨db', r, m', hrest, hrep', he'.trans he, fun k => ?_, fun hr k hk => ?_, hok⟩
      · rcases hpart k with hk | ⟨hk, hnone⟩
        · by_cases hkey : k = key
          · exact .inr ⟨by simp [hkey], by simpa [hkey] using hk⟩
          · exact .inl (by simpa [hkey] using hk)
        · exact .inr ⟨.tail _ hk, hnone⟩
      · rcases mem_cons.mp hk with rfl | hk
        · rcases hpart k with hk | ⟨-, hnone⟩
          · simpa using hk
          · exact hnone
        · exact hall hr k hk

theorem deletePrefix (wal : Key → Bool) (start : Key) :
    Simulates db m (.deletePrefix wal start) := by
  obtain ⟨keys, hlist, -, hkeys⟩ := h.list start
  obtain ⟨db', r, m', heach, hrep, he, hpart, hall, hok⟩ := h.deleteEach wal keys
  refine ⟨db', r, m', ?_, ?_, hok, hrep, he⟩
  · simp [step, CobaltDB.deletePrefix, h.opened, hlist, heach]
  · cases r with
    | error =>
      intro k
      exact (hpart k).imp_right fun hk => ⟨((hkeys k).mp hk.1).1, hk.2⟩
    | ok =>
      simp only [Op.Effect]
      funext k
      split
      · rename_i hpre
        rcases hpart k with hk | ⟨-, hnone⟩
        · -- a key that is not listed is not live
          cases hm : m k with
          | none => rw [hk, hm]
          | some => exact hall rfl k ((hkeys k).mpr ⟨hpre, by simp [hm]⟩)
        · exact hnone
      · rename_i hpre
        rcases hpart k with hk | ⟨hk, -⟩
        · exact hk
        · exact absurd ((hkeys k).mp hk).1 hpre

end Represents

/-! ## Compaction -/

theorem insertAll_spec (h : t.Ok) (es : List (Key × Option Bytes)) :
    ∃ t', insertAll t es = some t' ∧ t'.Ok ∧
      t'.entries = es.foldl (fun l x => upsert x.1 x.2 l) t.entries := by
  induction es generalizing t with
  | nil => exact ⟨t, rfl, h, rfl⟩
  | cons x es ih =>
    obtain ⟨t₁, hins, hok, hentries, -⟩ := h.insert x.1 x.2
    obtain ⟨t', hall, hok', hentries'⟩ := ih hok
    refine ⟨t', ?_, hok', by rw [hentries', hentries]; rfl⟩
    rw [insertAll]
    simp only [hins, bind_eq_bind, bind_some]
    exact hall

/-- The live entries, as they are stored. -/
theorem liveEntries_spec (h : t.Ok) :
    liveEntries t = some ((taken (fun _ => .take) t.entries).map fun x => (x.1, some x.2)) := by
  obtain ⟨l, B, hleaves, hfirst⟩ := h.within.firstLeaf
  have hafter : t.after l = B := by
    refine h.chain.follow (A := []) hleaves ?_
    rw [hleaves]
    simp
  have hlen : ∀ x ∈ l :: B, x.values.length = x.keys.length :=
    fun x hx => h.within.leaf_length x (by rw [hleaves]; exact hx)
  have hwell : StopsWell (fun _ => Visit.take) ((l :: B).flatMap Leaf.entries) :=
    pairwise_of_forall fun _ _ => nofun
  have hentries : t.entries = (l :: B).flatMap Leaf.entries := by
    unfold entries BTreeNode.entries
    rw [hleaves]
  unfold liveEntries
  rw [hfirst]
  simp only [hafter, scanLeaves_spec hlen hwell, foldlM_collect, hentries, nil_append]

namespace Represents

include h

/-- **A compaction cannot be seen.** -/
theorem compactTree : ∃ db', db.compactTree = some db' ∧ Represents db' m ∧
    db'.encryptor = db.encryptor := by
  have hlive := liveEntries_spec h.ok
  have hsorted : Sorted ((taken (fun _ => .take) db.data.entries).map fun x => (x.1, some x.2)) :=
    pairwise_map.mpr (Sorted.taken h.ok.sorted)
  obtain ⟨data, hall, hok, hentries⟩ := insertAll_spec
    (ok_empty db.data.order db.data.order_ge) ((taken (fun _ => .take) db.data.entries).map
      fun x => (x.1, some x.2))
  have hempty : (empty db.data.order db.data.order_ge : BTreeIndex Key Bytes).entries = [] := rfl
  rw [hempty, foldl_upsert (by simpa using hsorted), nil_append] at hentries
  refine ⟨{ db with data := data }, by simp [CobaltDB.compactTree, hlive, hall],
    ⟨hok, h.opened, fun key => ?_⟩, rfl⟩
  have hjoin : (find key data.entries).join = (find key db.data.entries).join := by
    rw [hentries]
    cases hm : (find key db.data.entries).join with
    | none =>
      have hnone : find key ((taken (fun _ => .take) db.data.entries).map fun x =>
        (x.1, some x.2)) = none := by
        refine find_eq_none fun x hx heq => ?_
        obtain ⟨y, hy, rfl⟩ := List.mem_map.mp hx
        obtain rfl : y.1 = key := heq
        rw [find_of_mem h.ok.sorted (mem_taken.mp hy).1] at hm
        cases hm
      rw [hnone]
      rfl
    | some value =>
      have hfind : find key db.data.entries = some (some value) := join_eq_some_iff.mp hm
      have hmem : (key, value) ∈ taken (fun _ => .take) db.data.entries :=
        mem_taken.mpr ⟨mem_of_find hfind, rfl⟩
      rw [find_of_mem hsorted (List.mem_map.mpr ⟨_, hmem, rfl⟩)]
      rfl
  dsimp only
  rw [hjoin]
  exact Holds.congr rfl (h.contents key)

theorem checkpoint (wal : Bool) : Simulates db m (.checkpoint wal) := by
  cases wal with
  | false =>
    exact h.failed (e := .checkpointFailed)
      (by simp [step, CobaltDB.checkpoint, h.opened]) rfl nofun
  | true =>
    obtain ⟨db', hc, hrep, he⟩ := h.compactTree
    exact ⟨db', .ok (), m, by simp [step, CobaltDB.checkpoint, h.opened, hc], rfl, fun _ =>
      rfl, hrep, he⟩

/-! ## Runs -/

/-- **One operation** has the effect of the ordered map. -/
theorem step (op : Op) : Simulates db m op := by
  cases op with
  | put random wal key value => exact h.put random wal key value
  | putMany random wal values => exact h.putMany random wal values
  | delete wal key => exact h.delete wal key
  | deleteMany wal keys => exact h.deleteMany wal keys
  | deletePrefix wal start => exact h.deletePrefix wal start
  | checkpoint wal => exact h.checkpoint wal

theorem run (ops : List Op) :
    ∃ db' rs m', db.run ops = some (db', rs) ∧ History db.encryptor ops rs m m' ∧
      Represents db' m' := by
  induction ops generalizing db m with
  | nil => exact ⟨db, [], m, rfl, .nil m, h⟩
  | cons op ops ih =>
    obtain ⟨db₁, r, m₁, hstep, heff, hserved, hrep, he⟩ := h.step op
    obtain ⟨db', rs, m', hrun, hhist, hrep'⟩ := ih hrep
    rw [he] at hhist
    exact ⟨db', r :: rs, m', by simp [CobaltDB.run, hstep, hrun], .cons heff hserved hhist, hrep'⟩

end Represents

/-- **The store is an ordered map.** After any operations on a new engine, with
any configured order, with encryption or without, whatever the log refuses:
nothing has panicked, the reads answer as a map whose history is that of the
operations, the tree is sorted and every subtree is within its separators. -/
theorem run_refines_map (configured : ℤ) (encryptor : Option Encryptor) (ops : List Op) :
    ∃ db rs m, (newEngine configured encryptor).run ops = some (db, rs) ∧
      History encryptor ops rs (fun _ => none) m ∧ Reads db m ∧
      Sorted db.data.entries ∧ db.data.root.Within ⊥ ⊤ := by
  obtain ⟨db, rs, m, hrun, hhist, hrep⟩ := (represents_newEngine configured encryptor).run ops
  exact ⟨db, rs, m, hrun, hhist, hrep.reads, hrep.ok.sorted, hrep.ok.within⟩

end CobaltDB

end Anubis.Storage
