import Anubis.Storage.Helpers.Replay

/-!
# Opening a store after a crash

The states of a store: writes on a disk that may fail, and openings of what a
crash has left. In each the log and the tree agree: replaying the frames of the
log gives the values the tree stores. So opening finds the acknowledged writes,
and writes every live value to a clean log. If one of them is too long there,
opening fails.
-/

namespace Anubis.Storage

open SortedAssoc List Option CobaltDB BTreeIndex Write

variable {J : Json} {encryptor : Option Encryptor} {s s' : Store} {m m' : Contents}
variable {p : Option (Write × Bool)} {r : Except EngineError Unit} {file : Bytes}
    {db : CobaltDB} {w : Write}

/-! ## States of the store -/

/-- **What the file holds** of a frame that was not acknowledged: any part of
the entry of one write, after the log. -/
inductive CrashImage (J : Json) (s : Store) : Option (Write × Bool) → Bytes → Prop
  | idle : CrashImage J s none (s.wal.file.take s.wal.size)
  | torn {w : Write} {now : Int64} {e : WalEntry} {buf : Bytes} (hw : w.Valid J)
      (he : w.entry J s.db now = some e) (hbuf : writeEntry J e = some buf) (k : ℕ) :
      CrashImage J s (some (w, decide (buf.length ≤ k))) (s.wal.file.take s.wal.size ++ buf.take k)

theorem CrashImage.of_idle (h : file = s.wal.file.take s.wal.size) : CrashImage J s none file :=
  h ▸ CrashImage.idle

/-- The images depend on the log and on the encryption. -/
theorem CrashImage.congr (h : CrashImage J s p file)
    (hdb : s'.db = s.db) (hlog : s'.wal.file.take s'.wal.size = s.wal.file.take s.wal.size) :
    CrashImage J s' p file := by
  cases h with
  | idle =>
    rw [← hlog]
    exact CrashImage.idle
  | torn hw he hbuf k =>
    rw [← hlog]
    exact CrashImage.torn hw (hdb ▸ he) hbuf k

/-- The contents after a crash: a write whose frame is whole counts. -/
def Survives (s : Store) (m : Contents) (db : CobaltDB) (m' : Contents) :
    Option (Write × Bool) → Prop
  | some (w, true) => s.db.step (w.op true) = some (db, .ok ()) ∧
      (w.op true).Effect s.db.encryptor.isSome (.ok ()) m m'
  | _ => db = s.db ∧ m' = m

/-- **The states of a store** and the contents it should have, by writes that satisfy
`P`: writes, checkpoints, and openings after crashes. While a checkpoint writes the
values of `s`, the store may go on to `s'`. -/
inductive ReachableBy (J : Json) (encryptor : Option Encryptor) (P : Write → Prop) :
    Store → Contents → Prop
  | new (configured : ℤ) :
      ReachableBy J encryptor P (Store.newEngine configured encryptor) fun _ => none
  | write {s s' : Store} {m m' : Contents} {w : Write} {now : Int64} {disk : Disk}
      {r : Except EngineError Unit} (h : ReachableBy J encryptor P s m) (hw : P w)
      (hstep : s.write J w now disk = some (s', r))
      (heff : (w.op true).Effect encryptor.isSome r m m') : ReachableBy J encryptor P s' m'
  | checkpoint {s s' : Store} {m m' : Contents} {es : List WalEntry} {now : Int64} {wal : Wal}
      {db : CobaltDB} (h : ReachableBy J encryptor P s m) (h' : ReachableBy J encryptor P s' m')
      (hes : ∀ e ∈ es, Logged J e)
      (hlog : s'.wal.file.take s'.wal.size = s.wal.file.take s.wal.size ++ frames J es)
      (hwal : s.checkpoint J s' now = some wal) (htree : s'.db.compactTree = some db) :
      ReachableBy J encryptor P ⟨db, wal⟩ m'
  | reopen {s : Store} {m m' : Contents} {db : CobaltDB} {p : Option (Write × Bool)}
      {file : Bytes} {allowSkip : Bool} {configured : ℤ} {now : Int64} {t : BTreeIndex Key Bytes}
      {wal : Wal} (h : ReachableBy J encryptor P s m) (hcrash : CrashImage J s p file)
      (hm : Survives s m db m' p)
      (hrec : recoverFromWAL J file allowSkip configured now = some (.ok (t, wal))) :
      ReachableBy J encryptor P ⟨⟨t, encryptor, false⟩, wal⟩ m'

/-- **The states of a store whose keys are valid UTF-8.** Of any other key JSON gives
another one back, and recovery takes the frame for a damaged one. -/
abbrev Reachable (J : Json) (encryptor : Option Encryptor) : Store → Contents → Prop :=
  ReachableBy J encryptor (Write.Valid J)

theorem ReachableBy.valid {P : Write → Prop} (h : ReachableBy J encryptor P s m)
    (hkeys : ∀ w, P w → w.Valid J) : Reachable J encryptor s m := by
  induction h with
  | new configured => exact .new configured
  | write _ hw hstep heff ih => exact .write ih (hkeys _ hw) hstep heff
  | checkpoint _ _ hes hlog hwal htree ih ih' => exact .checkpoint ih ih' hes hlog hwal htree
  | reopen _ hcrash hm hrec ih => exact .reopen ih hcrash hm hrec

/-- **The log and the tree agree.** -/
structure Store.Ok (J : Json) (encryptor : Option Encryptor) (s : Store) (m : Contents) : Prop where
  represents : s.db.Represents m
  encryptor : s.db.encryptor = encryptor
  keys : ∀ key, s.db.data.stored key ≠ none → J.validUTF8 key
  log : ∃ es, (∀ e ∈ es, Logged J e) ∧ s.wal.file.take s.wal.size = frames J es ∧
    s.wal.size = (frames J es).length ∧
    ∀ order h, ∃ t, replayAll J es (empty order h) = some (.ok t) ∧ t.Ok ∧
      t.stored = s.db.data.stored
  clean : s.wal.broken = false → s.wal.file.length = s.wal.size
  tail : ∃ p, CrashImage J s p s.wal.file

/-! ## Writing -/

section Append

variable {wal : Wal}

/-- **What an append does.** Either the frame is in the log, or the log is as it
was, with a part of the frame after it at most. -/
theorem append_cases (e : WalEntry) (disk : Disk) (hclean : wal.broken = false →
    wal.file.length = wal.size) :
    (wal.broken = false ∧ ∃ buf, writeEntry J e = some buf ∧
      wal.append J e disk = (⟨wal.file ++ buf, wal.size + buf.length, wal.broken⟩, true)) ∨
    ∃ wal', wal.append J e disk = (wal', false) ∧ wal'.size = wal.size ∧
      wal'.file.take wal.size = wal.file.take wal.size ∧
      (wal'.broken = false → wal'.file.length = wal.size) ∧
      (wal'.file = wal.file ∨ wal'.file = wal.file.take wal.size ∨
        ∃ buf k, writeEntry J e = some buf ∧ wal'.file = wal.file.take wal.size ++ buf.take k) := by
  unfold Wal.append
  cases hb : wal.broken with
  | true => exact .inr ⟨wal, rfl, rfl, rfl, fun h => Bool.noConfusion (hb.symm.trans h), .inl rfl⟩
  | false =>
    have hlen := hclean hb
    have htake : wal.file.take wal.size = wal.file := by rw [← hlen, take_length]
    -- the file with something after the log, cut off again or not
    have hcut : ∀ more truncated,
      (wal.truncate (wal.file ++ more) truncated).take wal.size = wal.file ∧
        (truncated = true → wal.truncate (wal.file ++ more) truncated = wal.file) := by
      intro more truncated
      unfold Wal.truncate
      cases truncated <;> simp [← hlen]
    cases hw : writeEntry J e with
    | none => exact .inr ⟨_, rfl, rfl, rfl, fun _ => hlen, .inl rfl⟩
    | some buf =>
      cases hd : disk.written with
      | none =>
        cases hs : disk.synced with
        | true => exact .inl ⟨rfl, buf, rfl, by simp⟩
        | false =>
          refine .inr ⟨⟨wal.truncate (wal.file ++ buf) disk.truncated, wal.size, true⟩, rfl,
            rfl, ?_, nofun, ?_⟩
          · rw [htake]
            exact (hcut buf disk.truncated).1
          · rw [htake]
            cases ht : disk.truncated with
            | true => exact .inl ((hcut buf true).2 rfl)
            | false => exact .inr (.inr ⟨buf, buf.length, rfl, by simp [Wal.truncate]⟩)
      | some n =>
        refine .inr ⟨_, rfl, rfl, ?_, fun hbroken => ?_, ?_⟩
        · rw [htake]
          exact (hcut (buf.take n) disk.truncated).1
        · have ht : disk.truncated = true := by simpa using hbroken
          have := (hcut (buf.take n) disk.truncated).2 ht
          dsimp only
          rw [this, hlen]
        · rw [htake]
          cases ht : disk.truncated with
          | true => exact .inl ((hcut (buf.take n) true).2 rfl)
          | false => exact .inr (.inr ⟨buf, n, rfl, by simp [Wal.truncate]⟩)

end Append

/-- A write that logs nothing changes nothing. -/
theorem Write.unlogged {now : Int64} (hdb : db.closed = false)
    (he : w.entry J db now = none) : ∃ r, db.step (w.op true) = some (db, r) := by
  unfold entry at he
  rw [hdb] at he
  simp only [Bool.false_eq_true, if_false] at he
  cases w with
  | put random key value =>
    have hs : db.storeValue random value = none := by simpa using he
    exact ⟨.error .encryptionFailed, by simp [op, step, CobaltDB.put, hdb, hs, failed]⟩
  | putMany random values =>
    by_cases hv : values.1 = []
    · exact ⟨.ok (), by simp [op, step, CobaltDB.putMany, hdb, hv]⟩
    · cases hs : values.1.mapM fun x => (db.storeValue (random x.1) x.2).map (x.1, ·) with
      | none =>
        exact ⟨.error .encryptionFailed,
          by simp [op, step, CobaltDB.putMany, hdb, hv, hs, failed]⟩
      | some => simp [hv, hs] at he
  | delete => cases he
  | deleteMany keys =>
    by_cases hk : keys = []
    · exact ⟨.ok (), by simp [op, step, CobaltDB.deleteMany, hdb, hk]⟩
    · simp [hk] at he

theorem Write.effect_unique {encrypted : Bool}
    {m m₁ m₂ : Contents} {b b' : Bool} (h₁ : (w.op b).Effect encrypted r m m₁)
    (h₂ : (w.op b').Effect encrypted r m m₂) : m₁ = m₂ := by
  cases w <;> cases r <;> exact Eq.trans h₁ (Eq.symm h₂)

theorem publish_stored (h : db.data.Ok) (es : List (Key × Option Bytes)) :
    ∃ data, publish db es = some ({ db with data := data }, .ok ()) ∧ data.Ok ∧
      data.stored = overlay es db.data.stored := by
  obtain ⟨data, hall, hok, hstored⟩ := insertAll_stored h es
  exact ⟨data, by simp [publish, hall], hok, hstored⟩

/-- Where a value comes from. -/
theorem overlay_ne_none {es : List (Key × Option Bytes)} {f : Key → Option Bytes} {key : Key}
    (h : overlay es f key ≠ none) : (∃ x ∈ es, x.1 = key) ∨ f key ≠ none := by
  induction es generalizing f with
  | nil => exact .inr h
  | cons x es ih =>
    rcases ih h with ⟨y, hy, hkey⟩ | hne
    · exact .inl ⟨y, by simp [hy], hkey⟩
    · by_cases hk : key = x.1
      · exact .inl ⟨x, by simp, hk.symm⟩
      · exact .inr (by simpa [hk] using hne)

/-- A store with a log that nothing follows. -/
theorem Store.Ok.of_log {db : CobaltDB} (hrep : db.Represents m) (henc : db.encryptor = encryptor)
    (hkeys : ∀ key, db.data.stored key ≠ none → J.validUTF8 key) {wal : Wal} {es : List WalEntry}
    (hes : ∀ e ∈ es, Logged J e) (hfile : wal.file = frames J es)
    (hsize : wal.size = wal.file.length)
    (hreplay : ∀ order h, ∃ t, replayAll J es (empty order h) = some (.ok t) ∧ t.Ok ∧
      t.stored = db.data.stored) : Store.Ok J encryptor ⟨db, wal⟩ m where
  represents := hrep
  encryptor := henc
  keys := hkeys
  log := ⟨es, hes, by rw [hsize, take_length, hfile], by rw [hsize, hfile], hreplay⟩
  clean _ := hsize.symm
  tail := ⟨none, CrashImage.of_idle (by rw [hsize, take_length])⟩

theorem Store.Ok.file_of_clean (h : s.Ok J encryptor m) (hbroken : s.wal.broken = false) :
    s.wal.file = s.wal.file.take s.wal.size := by
  rw [← h.clean hbroken, take_length]

/-- A log with one more entry. -/
theorem log_append {es : List WalEntry} {e : WalEntry} {ws : List (Key × Option Bytes)}
    {f g : Key → Option Bytes} (hes : ∀ e ∈ es, Logged J e)
    (hreplay : ∀ order h, ∃ t, replayAll J es (empty order h) = some (.ok t) ∧ t.Ok ∧ t.stored = f)
    (hlog : Logged J (sealed J e)) (hentry : ∀ t, replayEntry J e t = (insertAll t ws).map .ok)
    (hstored : overlay ws f = g) :
    (∀ x ∈ es ++ [sealed J e], Logged J x) ∧ ∀ order h, ∃ t,
      replayAll J (es ++ [sealed J e]) (empty order h) = some (.ok t) ∧ t.Ok ∧ t.stored = g := by
  refine ⟨forall_mem_append.mpr ⟨hes, by simpa using hlog⟩, fun order h => ?_⟩
  obtain ⟨t, hall, hok, rfl⟩ := hreplay order h
  obtain ⟨t', hins, hok', hstored'⟩ := insertAll_stored hok ws
  refine ⟨t', ?_, hok', hstored'.trans hstored⟩
  rw [replayAll_append hall, replayAll_singleton, replayEntry_sealed, hentry, hins]
  rfl

/-- **A write keeps the log and the tree in agreement**, whatever the disk
does. -/
theorem Store.Ok.write (h : s.Ok J encryptor m) (hw : w.Valid J) {now : Int64} {disk : Disk}
    (hstep : s.write J w now disk = some (s', r))
    (heff : (w.op true).Effect encryptor.isSome r m m') : s'.Ok J encryptor m' := by
  have hclosed := h.represents.opened
  obtain ⟨es, hes, hfile, hsize, hreplay⟩ := h.log
  unfold Store.write at hstep
  cases he : w.entry J s.db now with
  | none =>
    obtain ⟨r', hdb⟩ := unlogged hclosed he
    obtain ⟨db₁, r₁, m₁, hdb₁, heff₁, -, hrep, -⟩ := h.represents.step (w.op true)
    rw [he, hdb] at hstep
    rw [hdb] at hdb₁
    cases hdb₁
    cases hstep
    obtain rfl : m' = m₁ := effect_unique heff (h.encryptor ▸ heff₁)
    exact ⟨hrep, h.encryptor, h.keys, h.log, h.clean, h.tail⟩
  | some e =>
    obtain ⟨henc, ws, ws', htrue, hentry, hsame, hvalid, err, hfalse⟩ := logged hclosed hw he
    rw [he] at hstep
    dsimp only at hstep
    rcases append_cases (J := J) e disk h.clean with
      ⟨hbroken, buf, hbuf, happ⟩ | ⟨wal', happ, hsize', htake, hclean, htail⟩
    · -- the frame is in the log
      obtain ⟨data, hpub, hok, hstored⟩ := publish_stored h.represents.ok ws
      obtain ⟨db₁, r₁, m₁, hdb₁, heff₁, -, hrep, henc₁⟩ := h.represents.step (w.op true)
      rw [happ] at hstep
      rw [htrue, hpub] at hdb₁
      cases hdb₁
      simp only [htrue, hpub, map_some, some.injEq, Prod.mk.injEq] at hstep
      obtain ⟨rfl, rfl⟩ := hstep
      obtain rfl : m' = m₁ := effect_unique heff (h.encryptor ▸ heff₁)
      obtain ⟨rfl, hfits⟩ := writeEntry_eq_some hbuf
      have hlen := h.clean hbroken
      have hall : s.wal.file = frames J es := by rw [← hfile, ← hlen, take_length]
      have hframes : frames J (es ++ [sealed J e]) = s.wal.file ++ frame J (sealed J e) := by
        rw [hall]
        simp [frames]
      obtain ⟨hes', hreplay'⟩ := log_append hes hreplay (logged_sealed henc hfits) hentry
        ((hsame _).trans hstored.symm)
      refine .of_log hrep h.encryptor (fun key hne => ?_) hes' hframes.symm
        (by simp [hlen]) hreplay'
      rw [hstored] at hne
      rcases overlay_ne_none hne with ⟨x, hx, rfl⟩ | hne
      · exact hvalid x hx
      · exact h.keys key hne
    · -- the log is as it was
      rw [happ, hfalse] at hstep
      cases hstep
      obtain rfl : m' = m := by
        have : (w.op false).Effect encryptor.isSome (.error err) m m := by cases w <;> rfl
        exact effect_unique heff this
      refine
        { represents := h.represents
          encryptor := h.encryptor
          keys := h.keys
          log :=
            ⟨es, hes, by dsimp only; rw [hsize', htake, hfile], by dsimp only; rw [hsize', hsize],
            hreplay⟩
          clean := fun hb => by dsimp only; rw [hsize']; exact hclean hb
          tail := ?_ }
      rcases htail with hkeep | hcut | ⟨buf, k, hbuf, htorn⟩
      · obtain ⟨p, hp⟩ := h.tail
        exact ⟨p, hkeep ▸ hp.congr rfl (by dsimp only; rw [hsize', htake])⟩
      · exact ⟨none, CrashImage.of_idle (by dsimp only; rw [hsize', htake, hcut])⟩
      · have hlog : wal'.file.take wal'.size = s.wal.file.take s.wal.size := by rw [hsize', htake]
        refine ⟨some (w, decide (buf.length ≤ k)), ?_⟩
        dsimp only
        rw [htorn, ← hlog]
        exact CrashImage.torn (s := ⟨s.db, wal'⟩) hw he hbuf k

/-! ## Opening -/

/-- A live value that can be written again at the given time. -/
def Fits (J : Json) (now : Int64) (key : Key) (value : Bytes) : Prop :=
  ((sealed J (putEntry now (key, some value))).marshal J.toJsonText).length ≤ maxWALEntryBytes

section Replay

variable {es : List WalEntry} {t t' : BTreeIndex Key Bytes} {tail : Bytes}

/-- **The replay of a log with a tail that is cut off.** -/
theorem replay_log (hes : ∀ e ∈ es, Logged J e) (h : replayAll J es t = some (.ok t'))
    (htail : tail = [] ∨ ∃ e k, Logged J e ∧ k < (frame J e).length ∧ tail = (frame J e).take k)
    (skip : Bool) :
    replay J (frames J es ++ tail) skip ((frames J es ++ tail).length + 1) 0 t = some (.ok t') := by
  have hle : es.length ≤ (frames J es).length := length_le_frames
  obtain ⟨fuel, hfuel⟩ : ∃ fuel, (frames J es ++ tail).length + 1 = es.length + (fuel + 1) :=
    ⟨(frames J es ++ tail).length - es.length, by rw [length_append]; omega⟩
  have hframes := replay_frames hes h [] tail skip (fuel + 1)
  rw [nil_append, length_nil, Nat.zero_add] at hframes
  rw [hfuel, hframes]
  rcases htail with rfl | ⟨e, k, hlog, hk, rfl⟩
  · rw [replay, if_neg (by simp)]
  · exact replay_torn hlog hk

theorem replayAll_puts (now : Int64) (xs : List (Key × Option Bytes)) :
    replayAll J (xs.map fun x => sealed J (putEntry now x)) t = (insertAll t xs).map .ok := by
  induction xs generalizing t with
  | nil => rfl
  | cons x xs ih =>
    rw [map_cons, replayAll, replayEntry_sealed]
    have hone : replayEntry J (putEntry now x) t = (t.insert x.1 x.2).map .ok := rfl
    rw [hone, insertAll]
    cases hins : t.insert x.1 x.2 with
    | none => rfl
    | some => exact ih

/-- The live entries and the stored values. -/
theorem live_spec (h : t.Ok) : ∃ live, liveEntries t = some live ∧
    (∀ key value, (key, value) ∈ live ↔ value ≠ none ∧ t.stored key = value) ∧
    overlay live (fun _ => none) = t.stored := by
  refine ⟨_, liveEntries_spec h, ?_⟩
  have hmem : ∀ key value, (key, value) ∈ ((taken (fun _ => .take) t.entries).map fun x =>
      (x.1, some x.2)) ↔ value ≠ none ∧ t.stored key = value := by
    intro key value
    rw [List.mem_map]
    constructor
    · rintro ⟨x, hx, heq⟩
      cases heq
      refine ⟨nofun, ?_⟩
      unfold stored
      rw [find_of_mem h.sorted (mem_taken.mp hx).1]
      rfl
    · rintro ⟨hne, hst⟩
      cases value with
      | none => exact absurd rfl hne
      | some v =>
        have hfind : find key t.entries = some (some v) := join_eq_some_iff.mp hst
        exact ⟨(key, v), mem_taken.mpr ⟨mem_of_find hfind, rfl⟩, rfl⟩
  refine ⟨hmem, funext fun key => ?_⟩
  have hvalue : ∀ x ∈ (taken (fun _ => .take) t.entries).map fun x => (x.1, some x.2),
      x.1 = key → x.2 = t.stored key := by
    rintro x hx rfl
    exact ((hmem x.1 x.2).mp hx).2.symm
  rw [overlay_of_mem hvalue]
  split
  · rfl
  · rename_i hnot
    cases hst : t.stored key with
    | none => rfl
    | some v => exact absurd (List.mem_map.mpr ⟨_, (hmem key (some v)).mpr ⟨nofun, hst⟩, rfl⟩) hnot

/-- **The clean log** is written if every live value fits. -/
theorem writeCompact_spec (now : Int64) (live : List (Key × Option Bytes)) :
    ((∀ x ∈ live, ((sealed J (putEntry now x)).marshal J.toJsonText).length ≤ maxWALEntryBytes) ∧
      ∃ wal, writeCompact J (live.map (putEntry now)) = some wal ∧ wal.broken = false ∧
        wal.file = frames J (live.map fun x => sealed J (putEntry now x)) ∧
        wal.size = wal.file.length) ∨
    ((∃ x ∈ live, maxWALEntryBytes < ((sealed J (putEntry now x)).marshal J.toJsonText).length) ∧
      writeCompact J (live.map (putEntry now)) = none) := by
  have hmap : ((∀ x ∈ live, ((sealed J (putEntry now x)).marshal J.toJsonText).length ≤
    maxWALEntryBytes) ∧
      (live.map (putEntry now)).mapM (writeEntry J) = some (live.map fun x =>
        frame J (sealed J (putEntry now x)))) ∨
      ((∃ x ∈ live, maxWALEntryBytes < ((sealed J (putEntry now x)).marshal J.toJsonText).length) ∧
        (live.map (putEntry now)).mapM (writeEntry J) = none) := by
    induction live with
    | nil => exact .inl ⟨nofun, rfl⟩
    | cons x live ih =>
      rw [map_cons, mapM_cons]
      by_cases hx : maxWALEntryBytes < ((sealed J (putEntry now x)).marshal J.toJsonText).length
      · have hnone : writeEntry J (putEntry now x) = none := if_pos hx
        exact .inr ⟨⟨x, by simp, hx⟩, by simp [hnone]⟩
      · have hsome : writeEntry J (putEntry now x) = some (frame J (sealed J (putEntry now x))) :=
          if_neg hx
        rcases ih with ⟨hall, hmap⟩ | ⟨⟨y, hy, hlt⟩, hmap⟩
        · refine .inl ⟨fun y hy => ?_, by simp [hsome, hmap]⟩
          rcases mem_cons.mp hy with rfl | hy
          · exact not_lt.mp hx
          · exact hall y hy
        · exact .inr ⟨⟨y, by simp [hy], hlt⟩, by simp [hsome, hmap]⟩
  rcases hmap with ⟨hall, hmap⟩ | ⟨hex, hmap⟩
  · refine .inl ⟨hall, _, by rw [writeCompact, hmap]; rfl, rfl, ?_, rfl⟩
    simp [frames, flatMap_def, Function.comp_def]
  · exact .inr ⟨hex, by rw [writeCompact, hmap]; rfl⟩

/-- **The clean log of a tree** replays to what the tree stores. It is there if every
stored value fits. -/
theorem compacted (hok : t.Ok) (hkeys : ∀ key, t.stored key ≠ none → J.validUTF8 key)
    (now : Int64) :
    ∃ live, liveEntries t = some live ∧
      (((∀ key value, t.stored key = some value → Fits J now key value) ∧
        ∃ wal es, writeCompact J (live.map (putEntry now)) = some wal ∧ wal.file = frames J es ∧
          wal.size = wal.file.length ∧ (∀ e ∈ es, Logged J e) ∧ ∀ order h, ∃ t',
            replayAll J es (empty order h) = some (.ok t') ∧ t'.Ok ∧ t'.stored = t.stored) ∨
      ((∃ key value, t.stored key = some value ∧ ¬ Fits J now key value) ∧
        writeCompact J (live.map (putEntry now)) = none)) := by
  obtain ⟨live, hlive, hmem, hover⟩ := live_spec hok
  refine ⟨live, hlive, ?_⟩
  rcases writeCompact_spec (J := J) now live with ⟨hall, wal, hw, -, hfile, hsize⟩ |
    ⟨⟨x, hx, hlt⟩, hw⟩
  · refine .inl ⟨fun key value hkv =>
      hall (key, some value) ((hmem key (some value)).mpr ⟨some_ne_none _, hkv⟩),
      wal, _, hw, hfile, hsize, fun e he => ?_, fun order horder => ?_⟩
    · obtain ⟨x, hx, rfl⟩ := List.mem_map.mp he
      obtain ⟨hne, hst⟩ := (hmem x.1 x.2).mp hx
      exact logged_sealed ⟨hkeys x.1 (hst ▸ hne), nofun⟩ (hall x hx)
    · obtain ⟨t', hins, hok', hstored'⟩ := insertAll_stored (ok_empty order horder) live
      refine ⟨t', by rw [replayAll_puts, hins]; rfl, hok', ?_⟩
      rw [hstored', stored_empty, hover]
  · obtain ⟨hne, hst⟩ := (hmem x.1 x.2).mp hx
    obtain ⟨value, hvalue⟩ := ne_none_iff_exists'.mp hne
    refine .inr ⟨⟨x.1, value, hst.trans hvalue, fun hfits => ?_⟩, hw⟩
    have : (x.1, some value) = x := by rw [← hvalue]
    unfold Fits at hfits
    rw [this] at hfits
    omega

end Replay

/-! ## Checkpoints -/

/-- Every stored value can be written again at the given time. -/
def Store.AllFit (J : Json) (s : Store) (now : Int64) : Prop :=
  ∀ key value, s.db.data.stored key = some value → Fits J now key value

theorem compactTree_stored (h : db.data.Ok) {db' : CobaltDB} (hc : db.compactTree = some db') :
    db'.data.stored = db.data.stored := by
  obtain ⟨live, hlive, -, hover⟩ := live_spec h
  obtain ⟨data, hins, -, hstored⟩ :=
    insertAll_stored (ok_empty db.data.order db.data.order_ge) live
  obtain rfl : { db with data := data } = db' := by simpa [compactTree, hlive, hins] using hc
  rw [hstored, stored_empty, hover]

section

variable {es : List WalEntry} (h : s.Ok J encryptor m) (h' : s'.Ok J encryptor m')
  (hes : ∀ e ∈ es, Logged J e)
  (hlog : s'.wal.file.take s'.wal.size = s.wal.file.take s.wal.size ++ frames J es)
include h h' hes hlog

/-- A checkpoint that is written leaves a log of the store. -/
theorem Store.Ok.checkpoint {now : Int64} {wal : Wal} {db' : CobaltDB}
    (hwal : s.checkpoint J s' now = some wal) (hc : s'.db.compactTree = some db') :
    s.AllFit J now ∧ wal.broken = false ∧ Store.Ok J encryptor ⟨db', wal⟩ m' := by
  obtain ⟨es₀, hes₀, hfile₀, hsize₀, hreplay₀⟩ := h.log
  obtain ⟨es₁, hes₁, hfile₁, -, hreplay₁⟩ := h'.log
  obtain rfl : es₁ = es₀ ++ es := frames_inj hes₁ (forall_mem_append.mpr ⟨hes₀, hes⟩)
    (by rw [← hfile₁, hlog, hfile₀, frames_append])
  have htail : (s'.wal.file.drop s.wal.size).take (s'.wal.size - s.wal.size) = frames J es := by
    rw [← drop_take, hlog, hfile₀, hsize₀, drop_left]
  obtain ⟨live, hlive, hcases⟩ := compacted h.represents.ok h.keys now
  obtain ⟨db₁, hc₁, hrep, henc⟩ := h'.represents.compactTree
  cases hc.symm.trans hc₁
  have hst := compactTree_stored h'.represents.ok hc
  unfold Store.checkpoint at hwal
  rw [hlive, htail] at hwal
  split at hwal
  · cases hwal
  rcases hcases with ⟨hall, wal₀, es', hw, hfile, hsize, hes', hreplay⟩ | ⟨-, hw⟩
  · obtain rfl : ⟨wal₀.file ++ frames J es, wal₀.size + (frames J es).length, false⟩ = wal := by
      simpa [hw] using hwal
    refine ⟨hall, rfl, .of_log hrep (henc.trans h'.encryptor) (fun key hne => ?_)
      (forall_mem_append.mpr ⟨hes', hes⟩) (by rw [frames_append, hfile]) (by simp [hsize])
      fun order horder => ?_⟩
    · exact h'.keys key (hst ▸ hne)
    · -- what was appended has the same effect after the clean log
      obtain ⟨t₀, ht₀, hok₀, hst₀⟩ := hreplay₀ order horder
      obtain ⟨t₁, ht₁, -, hst₁⟩ := hreplay₁ order horder
      obtain ⟨u, hu, hoku, hstu⟩ := hreplay order horder
      rw [replayAll_append ht₀] at ht₁
      obtain ⟨u', hu', hoku', hstu'⟩ := replayAll_stored hok₀ hoku (hstu.trans hst₀.symm) ht₁
      exact ⟨u', by rw [replayAll_append hu, hu'], hoku', hstu'.trans (hst₁.trans hst.symm)⟩
  · simp [hw] at hwal

end

/-- **A checkpoint is written if every value fits.** -/
theorem Store.Ok.checkpoint_of_allFit (h : s.Ok J encryptor m) (hbroken : s.wal.broken = false)
    (hbroken' : s'.wal.broken = false) {now : Int64} (hfit : s.AllFit J now) :
    ∃ wal, s.checkpoint J s' now = some wal := by
  obtain ⟨live, hlive, hcases⟩ := compacted h.represents.ok h.keys now
  unfold Store.checkpoint
  rw [if_neg (by simp [h.represents.opened, hbroken, hbroken']), hlive]
  rcases hcases with ⟨-, wal, es', hw, -⟩ | ⟨⟨key, value, hkv, hnot⟩, -⟩
  · exact Option.isSome_iff_exists.mp (by simp [hw])
  · exact absurd (hfit key value hkv) hnot

/-! ## Crashes -/

/-- What the replay of a crash image finds. -/
theorem Store.Ok.replayed (h : s.Ok J encryptor m)
    (hcrash : CrashImage J s p file) :
    ∃ db m', Survives s m db m' p ∧ db.Represents m' ∧ db.encryptor = encryptor ∧
      (∀ key, db.data.stored key ≠ none → J.validUTF8 key) ∧
      ∀ skip configured, ∃ t, replay J file skip (file.length + 1) 0
        (empty (btreeOrder configured) (four_le_btreeOrder configured)) = some (.ok t) ∧ t.Ok ∧
        t.stored = db.data.stored := by
  obtain ⟨es, hes, hfile, -, hreplay⟩ := h.log
  -- a tail that does not make a frame
  have hcut : ∀ tail, (tail = [] ∨ ∃ e k, Logged J e ∧ k < (frame J e).length ∧
    tail = (frame J e).take k) →
      ∀ skip configured, ∃ t, replay J (frames J es ++ tail) skip
        ((frames J es ++ tail).length + 1) 0
        (empty (btreeOrder configured) (four_le_btreeOrder configured)) = some (.ok t) ∧ t.Ok ∧
        t.stored = s.db.data.stored := by
    intro tail htail skip configured
    obtain ⟨t, hall, hok, hstored⟩ :=
      hreplay (btreeOrder configured) (four_le_btreeOrder configured)
    exact ⟨t, replay_log hes hall htail skip, hok, hstored⟩
  cases hcrash with
  | idle =>
    refine ⟨s.db, m, ⟨rfl, rfl⟩, h.represents, h.encryptor, h.keys, fun skip configured => ?_⟩
    have := hcut [] (.inl rfl) skip configured
    rw [append_nil] at this
    rw [hfile]
    exact this
  | @torn w now e buf hw he hbuf k =>
    obtain ⟨henc, ws, ws', htrue, hentry, hsame, hvalid, -⟩ := logged h.represents.opened hw he
    obtain ⟨rfl, hfits⟩ := writeEntry_eq_some hbuf
    have hlog := logged_sealed henc hfits
    rw [hfile]
    by_cases hk : (frame J (sealed J e)).length ≤ k
    · -- the frame is whole
      rw [decide_eq_true hk, take_of_length_le hk]
      obtain ⟨data, hpub, -, hstored⟩ := publish_stored h.represents.ok ws
      obtain ⟨db₁, r, m₁, hdb, heff, -, hrep, henc₁⟩ := h.represents.step (w.op true)
      rw [htrue, hpub] at hdb
      cases hdb
      refine ⟨_, m₁, ⟨htrue.trans hpub, heff⟩, hrep, h.encryptor, fun key hne => ?_,
        fun skip configured => ?_⟩
      · rw [hstored] at hne
        rcases overlay_ne_none hne with ⟨x, hx, rfl⟩ | hne
        · exact hvalid x hx
        · exact h.keys key hne
      · obtain ⟨hes', hreplay'⟩ := log_append hes hreplay hlog hentry ((hsame _).trans hstored.symm)
        obtain ⟨t, hall, hok, hst⟩ :=
          hreplay' (btreeOrder configured) (four_le_btreeOrder configured)
        have := replay_log hes' hall (.inl rfl) skip
        rw [append_nil, frames_append] at this
        exact ⟨t, by simpa [frames] using this, hok, hst⟩
    · rw [decide_eq_false hk]
      exact ⟨s.db, m, ⟨rfl, rfl⟩, h.represents, h.encryptor, h.keys,
        hcut _ (.inr ⟨sealed J e, k, hlog, not_le.mp hk, rfl⟩)⟩

/-- **Opening a store after a crash.** If every live value can be written
again, it has the acknowledged writes and the one whose frame is whole;
otherwise it fails. -/
theorem Store.Ok.recover (h : s.Ok J encryptor m)
    (hcrash : CrashImage J s p file) :
    ∃ db m', Survives s m db m' p ∧ ∀ allowSkip configured now,
      ((∀ key value, db.data.stored key = some value → Fits J now key value) ∧
        ∃ t wal, recoverFromWAL J file allowSkip configured now = some (.ok (t, wal)) ∧
          Store.Ok J encryptor ⟨⟨t, encryptor, false⟩, wal⟩ m') ∨
      ((∃ key value, db.data.stored key = some value ∧ ¬ Fits J now key value) ∧
        recoverFromWAL J file allowSkip configured now = some (.error .checkpointFailed)) := by
  obtain ⟨db, m', hsurv, hrep, henc, hkeys, hreplay⟩ := h.replayed hcrash
  refine ⟨db, m', hsurv, fun allowSkip configured now => ?_⟩
  obtain ⟨t, hrun, hok, hstored⟩ := hreplay allowSkip configured
  rw [← hstored] at hkeys
  obtain ⟨live, hlive, hlog⟩ := compacted hok hkeys now
  have hrecover : recoverFromWAL J file allowSkip configured now =
      (writeCompact J (live.map (putEntry now))).elim (some (.error .checkpointFailed)) fun wal =>
        some (.ok (t, wal)) := by
    unfold recoverFromWAL
    rw [hrun]
    simp only [hlive, bind_eq_bind, bind_some]
    cases writeCompact J (live.map (putEntry now)) <;> rfl
  rw [hrecover, ← hstored]
  rcases hlog with ⟨hall, wal, es, hw, hfile, hsize, hes, hlog⟩ | ⟨hex, hw⟩
  · have hrep' : Represents ⟨t, encryptor, false⟩ m' := by
      refine ⟨hok, rfl, fun key => ?_⟩
      have : (find key t.entries).join = (find key db.data.entries).join := congrFun hstored key
      dsimp only
      rw [this]
      exact Holds.congr henc.symm (hrep.contents key)
    exact .inl ⟨hall, t, wal, by rw [hw, elim_some], .of_log hrep' rfl hkeys hes hfile hsize hlog⟩
  · exact .inr ⟨hex, by rw [hw, elim_none]⟩

/-- Every state that is reached agrees with its log. -/
theorem Reachable.ok (h : Reachable J encryptor s m) : s.Ok J encryptor m := by
  induction h with
  | new configured =>
    exact .of_log (represents_newEngine configured encryptor) rfl (fun _ hne => absurd rfl hne)
      (forall_mem_nil _) rfl rfl fun order h => ⟨_, rfl, ok_empty order h, rfl⟩
  | write _ hw hstep heff ih => exact ih.write hw hstep heff
  | checkpoint _ _ hes hlog hwal htree ih ih' => exact (ih.checkpoint ih' hes hlog hwal htree).2.2
  | @reopen s m m' db p file allowSkip configured now t wal _ hcrash hm hrec ih =>
    obtain ⟨db', m'', hm', hopen⟩ := ih.recover hcrash
    have hmm : m' = m'' := by
      rcases p with _ | ⟨w, _ | _⟩
      · exact hm.2.trans hm'.2.symm
      · exact hm.2.trans hm'.2.symm
      · exact effect_unique hm.2 hm'.2
    subst hmm
    rcases hopen allowSkip configured now with ⟨-, t', wal', hok, hs⟩ | ⟨-, herr⟩
    · rw [hok] at hrec
      cases hrec
      exact hs
    · rw [herr] at hrec
      cases hrec

/-- What a damaged log makes of an opening. -/
theorem recover_damaged {es es' : List WalEntry} {e g : WalEntry} (hes : ∀ x ∈ es, Logged J x)
    (hall : ∀ order h, ∃ t, replayAll J es (empty order h) = some (.ok t)) (he : Logged J e)
    (hes' : ∀ x ∈ es', Logged J x) (hg : g ∈ es') (hgcrc : g.crc32 ≠ 0) {i : ℕ} {b : Byte}
    (hb : (frame J e)[i]? ≠ some b) (hcrc : Detects J e i b) (tail : Bytes) (configured : ℤ)
    (now : Int64) :
    ∃ reason, recoverFromWAL J (frames J es ++ ((frame J e).set i b ++ (frames J es' ++ tail)))
      false configured
      now = some (.error (.damaged (frames J es).length reason)) := by
  have hle : es.length ≤ (frames J es).length := length_le_frames
  obtain ⟨fuel, hfuel⟩ : ∃ fuel,
    (frames J es ++ ((frame J e).set i b ++ (frames J es' ++ tail))).length + 1 =
      es.length + (fuel + 1) :=
    ⟨(frames J es ++ ((frame J e).set i b ++ (frames J es' ++ tail))).length - es.length,
      by rw [length_append]; omega⟩
  obtain ⟨t, ht⟩ := hall (btreeOrder configured) (four_le_btreeOrder configured)
  obtain ⟨reason, hreplay⟩ := replay_damaged hes ht he hes' hg hgcrc hb hcrc tail fuel
  refine ⟨reason, ?_⟩
  unfold recoverFromWAL
  rw [hfuel, hreplay]

end Anubis.Storage
