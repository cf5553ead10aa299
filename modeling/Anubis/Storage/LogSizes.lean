import Anubis.Storage.Helpers.Batches
import Anubis.Storage.Helpers.PlainJson

/-!
# What the log store accepts

A leader stores an entry of the log by `StoreLog`, and its followers store it by
`StoreLogs`. The first writes a `PUT` with the entry in base64. The second
writes a batch: a map with the entry in base64, and the map in base64 again.
Both are limited by `maxWALEntryBytes`. So what a follower stores, a leader
stores, but there are entries which a leader stores and no follower does: a
batch that is filled with several entries always fits, but not an entry that
is a batch of its own.
-/

namespace Anubis.Storage

open List Option Store

variable {J : MapJson} {encryptor : Option Encryptor} {s : Store} {m : CobaltDB.Contents}
    {db : CobaltDB}
variable {logs : List RaftLogEntry} {batch : GoMap (Option Bytes)} {moments : ℕ → Moment}
    {log : RaftLogEntry}
variable {moment : Moment}

/-- A write that succeeds. -/
def Accepted (r : Option (Store × Except EngineError Unit)) : Prop := ∃ s', r = some (s', .ok ())

/-! ## The entries -/

theorem logKey_plain {index : ℕ} : ∀ b ∈ logKey index, isPlain b := by
  intro b hb
  rcases mem_append.mp hb with hb | hb
  · have hall : ∀ b ∈ ascii "raft/log/", isPlain b := by decide +kernel
    exact hall b hb
  · rw [decimal_natCast] at hb
    have hdigit : ∀ b : Byte, 48 ≤ b.val ∧ b.val ≤ 57 → isPlain b := by decide +kernel
    exact hdigit b (digits_range hb)

theorem length_logKey (index : ℕ) : (logKey index).length = 9 + (decimal index).length := by
  have hkey : (ascii "raft/log/").length = 9 := rfl
  rw [logKey, length_append, hkey]

/-- The number of bytes of an entry's data. -/
def RaftLogEntry.size (log : RaftLogEntry) : ℕ := (log.data.getD []).length

/-- **The length of an encoded entry.** -/
theorem length_encodeLogEntry (log : RaftLogEntry) :
    ∃ key value, encodeLogEntry log = (key, some value) ∧
    (∀ b ∈ key, isPlain b) ∧ 10 ≤ key.length ∧ key.length ≤ 29 ∧
    39 + 4 * ((log.size + 2) / 3) ≤ value.length ∧
    value.length ≤ max 81 (79 + 4 * ((log.size + 2) / 3)) := by
  refine ⟨_, _, rfl, logKey_plain, ?_⟩
  have hindex := length_decimal_natCast (n := log.index.toNat) (k := 20) (by omega)
    (log.index.toNat_lt.trans (by decide))
  have hterm := length_decimal_natCast (n := log.term.toNat) (k := 20) (by omega)
    (log.term.toNat_lt.trans (by decide))
  have htype := length_decimal_natCast (n := log.type.toNat) (k := 3) (by omega)
    (log.type.toNat_lt.trans (by decide))
  have hkey := length_logKey log.index.toNat
  have hdata : 2 + 4 * ((log.size + 2) / 3) ≤ (bytesText log.data).length ∧
      (bytesText log.data).length ≤ max 4 (2 + 4 * ((log.size + 2) / 3)) := by
    rw [length_bytesText]
    unfold RaftLogEntry.size
    cases log.data with
    | none => exact ⟨by decide, by decide⟩
    | some =>
      dsimp only
      rw [Base64.length_encode, getD_some]
      omega
  have h₁ : (ascii "\x7b\"data\":").length = 8 := rfl
  have h₂ : (ascii ",\"index\":").length = 9 := rfl
  have h₃ : (ascii ",\"term\":").length = 8 := rfl
  have h₄ : (ascii ",\"type\":").length = 8 := rfl
  have h₅ : (ascii "\x7d").length = 1 := rfl
  simp only [length_append, h₁, h₂, h₃, h₄, h₅]
  omega

/-! ## Their frames -/

/-- The length of the `PUT` of an entry. -/
theorem fits_putLog (hsize : log.size ≤ 589659) (moment : Moment) (now : Int64) :
    (putLog log moment).Fits J.toJson db now := by
  obtain ⟨key, value, henc, hplain, -, hkey, -, hvalue⟩ := length_encodeLogEntry log
  unfold putLog
  rw [henc]
  refine fits_put ?_ db now
  rw [length_quote_plain hplain, getD_some, maxWALEntryBytes]
  omega

/-- The length of the batch of one entry. -/
theorem frameLength_single (hopen : db.closed = false)
    (hbatch : batch.1 = [encodeLogEntry log]) {now : Int64} {e : WalEntry}
    (he : (putBatch batch moment).entry J.toJson db now = some e) : ∃ v k,
      39 + 4 * ((log.size + 2) / 3) ≤ v ∧ v ≤ max 141 (139 + 4 * ((log.size + 2) / 3)) ∧
      10 ≤ k ∧ k ≤ 29 ∧
      43 + 4 * ((9 + k + 4 * ((v + 2) / 3)) / 3) ≤ frameLength J.toJson e ∧
      frameLength J.toJson e ≤ 81 + 4 * ((9 + k + 4 * ((v + 2) / 3)) / 3) := by
  obtain ⟨key, value, henc, hplain, hkey, hkey', hvalue, hvalue'⟩ := length_encodeLogEntry log
  rw [henc] at hbatch
  obtain ⟨stored, hstored, hframe⟩ := frameLength_putBatch_one hopen hbatch he
  obtain ⟨v', rfl, hge, hle⟩ := length_storeValue hstored
  rw [length_quote_plain hplain, length_bytesText] at hframe
  dsimp only at hframe
  rw [Base64.length_encode] at hframe
  have hnum : 5 + (key.length + 2) + (2 + 4 * ((v'.length + 2) / 3)) =
      9 + key.length + 4 * ((v'.length + 2) / 3) := by omega
  rw [hnum] at hframe
  exact ⟨v'.length, key.length, by omega, by omega, hkey, hkey', by omega, by omega⟩

/-! ## Leaders and followers -/

/-- Every entry that is a batch of its own fits. -/
def OwnBatchesFit (J : MapJson) (db : CobaltDB) (logs : List RaftLogEntry) (moments : ℕ → Moment) :
    Prop :=
  ∀ (i : ℕ) (batch : GoMap (Option Bytes)), (batches (logs.map encodeLogEntry))[i]? = some batch →
    batch.1.length = 1 → (putBatch batch (moments i)).Fits J.toJson db (moments i).now

/-- The pairs of a batch are encoded entries. -/
theorem mem_logBatch
    (hb : batch ∈ batches (logs.map encodeLogEntry)) :
    (mapCost batch.1 ≤ walBatchBudget ∨ ∃ log ∈ logs, batch.1 = [encodeLogEntry log]) ∧
    ∀ x ∈ batch.1, ∃ log ∈ logs, x = encodeLogEntry log := by
  obtain ⟨hbudget, hmem⟩ := mem_fillBatches filling_empty hb
  have hlog : ∀ x ∈ batch.1, ∃ log ∈ logs, x = encodeLogEntry log := by
    intro x hx
    rcases hmem x hx with hx | hx
    · cases hx
    · obtain ⟨log, hlog, rfl⟩ := List.mem_map.mp hx
      exact ⟨log, hlog, rfl⟩
  refine ⟨hbudget.imp_right ?_, hlog⟩
  rintro ⟨x, hx⟩
  obtain ⟨log, hmem, rfl⟩ := hlog x (by simp [hx])
  exact ⟨log, hmem, hx⟩

theorem logBatch_plain
    (hb : batch ∈ batches (logs.map encodeLogEntry)) : ∀ x ∈ batch.1, ∀ b ∈ x.1, isPlain b := by
  intro x hx
  obtain ⟨log, -, rfl⟩ := (mem_logBatch hb).2 x hx
  exact logKey_plain

theorem unhindered_putLog (hmoment : moment.Works encryptor) (log : RaftLogEntry) :
    Unhindered J.toJson encryptor [putLog log] fun _ => moment where
  works _ := hmoment
  valid w hw _ := by
    cases mem_singleton.mp hw
    exact J.validUTF8_plain _ logKey_plain
  served w hw moment' hworks := by
    cases mem_singleton.mp hw
    exact ⟨rfl, fun e he => hworks.encrypts e he _ _⟩

theorem unhindered_putBatch
    (hmoments : ∀ i, (moments i).Works encryptor) :
    Unhindered J.toJson encryptor ((batches (logs.map encodeLogEntry)).map putBatch) moments where
  works := hmoments
  valid w hw _ := by
    obtain ⟨batch, hb, rfl⟩ := List.mem_map.mp hw
    exact fun x hx => J.validUTF8_plain _ (logBatch_plain hb x hx)
  served w hw moment hworks := by
    obtain ⟨batch, -, rfl⟩ := List.mem_map.mp hw
    exact ⟨rfl, fun e he x _ => hworks.encrypts e he _ _⟩

/-- What `StoreLog` accepts. -/
theorem storeLog_accepted_iff (h : Reachable J.toJson encryptor s m) (hlog : s.wal.broken = false)
    (hmoment : moment.Works encryptor) (log : RaftLogEntry) :
    Accepted (storeLog J.toJson s log moment) ↔
    (putLog log moment).Fits J.toJson s.db moment.now := by
  refine (h.writeEach_ok_iff hlog (unhindered_putLog hmoment log)).trans ?_
  rw [allFit_cons]
  exact and_iff_left fun i w hw => by cases hw

/-- **What `StoreLogs` accepts**: only a batch of one entry can be too large. -/
theorem storeLogs_accepted_iff (h : Reachable J.toJson encryptor s m) (hlog : s.wal.broken = false)
    (hmoments : ∀ i, (moments i).Works encryptor) (logs : List RaftLogEntry) :
    Accepted (storeLogs J.toJson s logs moments) ↔ OwnBatchesFit J s.db logs moments := by
  refine (h.writeEach_ok_iff hlog (unhindered_putBatch hmoments)).trans ?_
  constructor
  · intro hall i batch hb _
    exact hall i (putBatch batch) (by rw [getElem?_map, hb]; rfl)
  · intro hown i w hw
    rw [getElem?_map] at hw
    obtain ⟨batch, hb, rfl⟩ := map_eq_some_iff.mp hw
    have hmem := mem_of_getElem? hb
    rcases (mem_logBatch hmem).1 with hbudget | ⟨log, -, hsingle⟩
    · exact fits_putBatch h.ok.represents.opened (logBatch_plain hmem) hbudget _ _
    · exact hown i batch hb (by simp [hsingle])

theorem single_of_logBatch
    (hb : batch ∈ batches (logs.map encodeLogEntry)) (hone : batch.1.length = 1) :
    ∃ log ∈ logs, batch.1 = [encodeLogEntry log] := by
  obtain ⟨x, hx⟩ := length_eq_one_iff.mp hone
  obtain ⟨log, hlog, rfl⟩ := (mem_logBatch hb).2 x (by simp [hx])
  exact ⟨log, hlog, hx⟩

/-- Entries up to this size fit a batch. -/
theorem ownBatchesFit_of_size (hopen : db.closed = false)
    (hsize : ∀ log ∈ logs, log.size ≤ 442206) : OwnBatchesFit J db logs moments := by
  intro i batch hb hone e he
  obtain ⟨log, hlog, hsingle⟩ := single_of_logBatch (mem_of_getElem? hb) hone
  obtain ⟨v, k, -, hv, -, hk, -, hframe⟩ := frameLength_single hopen hsingle he
  have := hsize log hlog
  unfold maxWALEntryBytes
  omega

/-- A large entry has a batch of its own, and if it fits its size is bounded. -/
theorem OwnBatchesFit.size_lt (hopen : db.closed = false) (hencryptor : db.encryptor = encryptor)
    (hmoments : ∀ i, (moments i).Works encryptor)
    (hown : OwnBatchesFit J db logs moments) (hmem : log ∈ logs) : log.size < 442309 := by
  by_contra hlarge
  obtain ⟨key, value, henc, -, -, -, hvalue, -⟩ := length_encodeLogEntry log
  have hcost : walBatchBudget < walBatchCost (encodeLogEntry log) := by
    rw [henc]
    unfold walBatchBudget walBatchCost
    simp only [getD_some]
    omega
  obtain ⟨batch, hb, hsingle⟩ := fillBatches_large hcost (List.mem_map_of_mem hmem) filling_empty
  obtain ⟨i, hi⟩ := mem_iff_getElem?.mp hb
  have hfits := hown i batch hi (by simp [hsingle])
  -- the batch has an entry, since its value can be stored
  obtain ⟨e, he⟩ : ∃ e, (putBatch batch (moments i)).entry J.toJson db (moments i).now =
    some e := by
    obtain ⟨stored, hstored⟩ := exists_storeValue hencryptor (hmoments i) key (some value)
    refine ⟨⟨.batch, [], some (J.marshalMap [(key, stored)]), (moments i).now, 0⟩, ?_⟩
    unfold putBatch Write.entry
    simp [hopen, hsingle, henc, hstored]
  obtain ⟨v, k, hv, -, hk, -, hframe, -⟩ := frameLength_single hopen hsingle he
  have hle := hfits e he
  unfold maxWALEntryBytes at hle
  omega

/-- **Leaders and followers.** On a working disk a leader can store an entry if
and only if a follower can store a list with it, exactly if, where the entry fits
into a `PUT`, the entries of the list that are batches of their own fit. That is
so if the data of each entry has 442206 bytes at most, and not if one has 442309
or more; but a leader stores up to 589659 bytes. -/
theorem storeLog_iff_storeLogs (h : Reachable J.toJson encryptor s m) (hlog : s.wal.broken = false)
    {moment : Moment} (hmoment : moment.Works encryptor) {moments : ℕ → Moment}
    (hmoments : ∀ i, (moments i).Works encryptor) {logs : List RaftLogEntry} {log : RaftLogEntry}
    (hmem : log ∈ logs) :
    ((Accepted (storeLog J.toJson s log moment) ↔ Accepted (storeLogs J.toJson s logs moments)) ↔
      ((putLog log moment).Fits J.toJson s.db moment.now → OwnBatchesFit J s.db logs moments)) ∧
    ((∀ x ∈ logs, x.size ≤ 442206) → OwnBatchesFit J s.db logs moments) ∧
    ((∃ x ∈ logs, 442309 ≤ x.size) → ¬ OwnBatchesFit J s.db logs moments) ∧
    (log.size ≤ 589659 → Accepted (storeLog J.toJson s log moment)) := by
  have hopen := h.ok.represents.opened
  have hone := storeLog_accepted_iff h hlog hmoment log
  have hmany := storeLogs_accepted_iff h hlog hmoments logs
  have hleader : log.size ≤ 589659 → Accepted (storeLog J.toJson s log moment) :=
    fun hsize => hone.mpr (fits_putLog hsize _ _)
  have hlt : OwnBatchesFit J s.db logs moments → ∀ x ∈ logs, x.size < 442309 :=
    fun hown x hx => hown.size_lt hopen h.ok.encryptor hmoments hx
  refine ⟨?_, ownBatchesFit_of_size hopen, ?_, hleader⟩
  · rw [hmany, ← hone]
    refine ⟨Iff.mp, fun himp => ⟨himp, fun hown => hleader ?_⟩⟩
    have := hlt hown log hmem
    omega
  · rintro ⟨x, hx, hsize⟩ hown
    exact absurd (hlt hown x hx) (not_lt.mpr hsize)

/-- The entry with an index and some zeros as its data. -/
def zeroLog (index : UInt64) (n : ℕ) : RaftLogEntry := ⟨index, 1, 0, some (replicate n 0)⟩

theorem size_zeroLog (index : UInt64) (n : ℕ) : (zeroLog index n).size = n := length_replicate

/-- A leader and a follower store two entries of which one is large. -/
theorem storeLog_iff_storeLogs_large :
    Accepted (storeLog quotedJson.toJson (newEngine 0 none) (zeroLog 2 400000) workingMoment) ∧
    Accepted (storeLogs quotedJson.toJson (newEngine 0 none) [zeroLog 1 10, zeroLog 2 400000]
      fun _ => workingMoment) := by
  have hnew : Reachable quotedJson.toJson none (newEngine 0 none) fun _ => none := .new 0
  have hworks : ∀ i, ((fun _ => workingMoment) : ℕ → Moment) i |>.Works none := fun _ =>
    workingMoment_works
  have hmem : zeroLog 2 400000 ∈ [zeroLog 1 10, zeroLog 2 400000] := by simp
  obtain ⟨hiff, hfit, -, hleader⟩ := storeLog_iff_storeLogs hnew rfl workingMoment_works hworks hmem
  have hown := hfit (by
    intro x hx
    rcases mem_pair.mp hx with rfl | rfl
    · rw [size_zeroLog]
      omega
    · rw [size_zeroLog]
      omega)
  have hone := hleader (by rw [size_zeroLog]; omega)
  exact ⟨hone, (hiff.mpr fun _ => hown).mp hone⟩

/-- **An entry no follower can store.** A leader stores an entry with 500000 bytes
of data, and a follower that receives it fails. -/
theorem leader_entry_not_stored :
    Accepted (storeLog quotedJson.toJson (newEngine 0 none) (zeroLog 1 500000) workingMoment) ∧
    ∃ s err, storeLogs quotedJson.toJson (newEngine 0 none) [zeroLog 1 500000]
      (fun _ => workingMoment) = some (s, .error err) := by
  have hnew : Reachable quotedJson.toJson none (newEngine 0 none) fun _ => none := .new 0
  have hworks : ∀ _ : ℕ, workingMoment.Works none := fun _ => workingMoment_works
  have hsize := size_zeroLog 1 500000
  constructor
  · exact (storeLog_accepted_iff hnew rfl workingMoment_works _).mpr
      (fits_putLog (by omega) _ _)
  · refine (hnew.writeEach rfl (unhindered_putBatch hworks)).2 fun hall => ?_
    have haccepted := (hnew.writeEach_ok_iff rfl (unhindered_putBatch hworks)).mpr hall
    have hown := (storeLogs_accepted_iff hnew rfl hworks [zeroLog 1 500000]).mp haccepted
    have := hown.size_lt rfl rfl hworks (mem_singleton.mpr rfl)
    omega

end Anubis.Storage
