import Anubis.Storage.Helpers.PlainJson
import Anubis.Storage.Helpers.Recovery
import Mathlib.Data.Bool.AllAny

/-!
# What a crash leaves

A crash cuts off the frame that is being written. Opening the store replays
the acknowledged writes, and the last one too if its frame is whole: never a
part of it. It does not always succeed. Recovery writes every live value again,
with the time of the opening, and the text of the new entry can be longer than
that of the old one by a digit of the time or of the checksum. An
acknowledged write at the limit of `maxWALEntryBytes` then cannot be written
again, and the store does not open.

A byte that is changed in the middle of the log is not skipped: if the
checksum tells, and a whole frame follows, opening fails.
-/

namespace Anubis.Storage

open List CobaltDB Crc32 Base64 Write

variable {J : Json} {encryptor : Option Encryptor} {s s' : Store} {m m' : Contents}
    {now : Int64} {key : Key}
  {value : Bytes}

/-- Opening after a crash succeeds exactly if every live value can be written again. -/
theorem Store.Ok.opens_iff {p : Option (Write × Bool)} {file : Bytes} (h : s.Ok J encryptor m)
    (hcrash : CrashImage J s p file) : ∃ db m', Survives s m db m' p ∧ ∀ allowSkip configured now,
      ((∃ t wal, recoverFromWAL J file allowSkip configured now = some (.ok (t, wal)) ∧
          Reads ⟨t, encryptor, false⟩ m') ↔
        ∀ key value, db.data.stored key = some value → Fits J now key value) := by
  obtain ⟨db, m', hsurv, hopen⟩ := h.recover hcrash
  refine ⟨db, m', hsurv, fun allowSkip configured now => ?_⟩
  rcases hopen allowSkip configured now with ⟨hfits, t, wal, hrec, hs⟩ |
    ⟨⟨key, value, hkv, hnot⟩, herr⟩
  · exact iff_of_true ⟨t, wal, hrec, hs.represents.reads⟩ hfits
  · refine iff_of_false (fun ⟨t, wal, hrec, _⟩ => ?_) fun hfits => hnot (hfits key value hkv)
    rw [hrec] at herr
    cases herr

/-- **Crash atomicity.** Whatever part of a frame a crash leaves after the log
of a state, and whatever a failed write has left: opening gives the state of
the acknowledged writes, with the last one if its frame is whole, exactly if
every live value can be written again. And if a byte of a frame is changed
and a whole frame with a checksum follows, opening reports the damage. -/
theorem Reachable.crash_atomic (h : Reachable J encryptor s m) :
    (∃ p, CrashImage J s p s.wal.file) ∧
    (∀ p file, CrashImage J s p file → ∃ db m', Survives s m db m' p ∧ ∀ allowSkip configured now,
      ((∃ t wal, recoverFromWAL J file allowSkip configured now = some (.ok (t, wal)) ∧
          Reads ⟨t, encryptor, false⟩ m') ↔
        ∀ key value, db.data.stored key = some value → Fits J now key value)) ∧
    (∃ es, (∀ e ∈ es, Logged J e) ∧ s.wal.file.take s.wal.size = frames J es) ∧
    ∀ es e es', (∀ x ∈ es ++ e :: es', Logged J x) →
      s.wal.file.take s.wal.size = frames J (es ++ e :: es') →
      (∃ g ∈ es', g.crc32 ≠ 0) → ∀ i old b, (frame J e)[i]? = some old → b ≠ old → Detects J e i b →
      ∀ tail configured now, ∃ reason,
        recoverFromWAL J (frames J es ++ ((frame J e).set i b ++ (frames J es' ++ tail))) false
        configured now =
          some (.error (.damaged (frames J es).length reason)) := by
  have hok := h.ok
  obtain ⟨log, hlog, hfile, -, hreplay⟩ := hok.log
  refine ⟨hok.tail, fun p file hcrash => hok.opens_iff hcrash, ⟨log, hlog, hfile⟩, ?_⟩
  intro es e es' hes heq ⟨g, hg, hgcrc⟩ i old b hi hne hcrc tail configured now
  obtain rfl : log = es ++ e :: es' := frames_inj hlog hes (hfile.symm.trans heq)
  have hb : (frame J e)[i]? ≠ some b := by
    rw [hi]
    exact fun h => hne (Option.some.inj h).symm
  -- what the whole log replays to, its first part replays to something
  have hall : ∀ order h, ∃ t, replayAll J es (BTreeIndex.empty order h) = some (.ok t) := by
    intro order h
    obtain ⟨t, ht, -⟩ := hreplay order h
    exact replayAll_of_append ht
  exact recover_damaged (fun x hx => hes x (by simp [hx])) hall (hes e (by simp))
    (fun x hx => hes x (by simp [hx])) hg hgcrc hb hcrc tail configured now

/-! ## A store with two values -/

theorem Fits.writeEntry (h : Fits J now key value) :
    writeEntry J (putEntry now (key, some value)) =
    some (frame J (sealed J (putEntry now (key, some value)))) :=
  if_neg (not_lt.mpr h)

theorem put_entry (h : s.Ok J none m) (now : Int64) (key : Key) (value : Bytes) :
    entry J s.db now (.put none key (some value)) = some (putEntry now (key, some value)) := by
  simp [entry, h.represents.opened, storeValue, h.encryptor, putEntry]

/-- **A value that fits is acknowledged.** -/
theorem Reachable.put (h : Reachable J none s m) (hbroken : s.wal.broken = false)
    (hkey : J.validUTF8 key) (hfits : Fits J now key value) :
    ∃ s', s.write J (.put none key (some value)) now ⟨none, true, true⟩ = some (s', .ok ()) ∧
      Reachable J none s' (fun k => if k = key then some value else m k) ∧ s'.wal.broken = false ∧
      s'.wal.file.take s'.wal.size =
        s.wal.file.take s.wal.size ++ frame J (sealed J (putEntry now (key, some value))) ∧
      s'.db.data.stored = overlay [(key, some value)] s.db.data.stored := by
  have hok := h.ok
  obtain ⟨data, hpub, -, hstored⟩ := publish_stored hok.represents.ok [(key, some value)]
  have hstep : s.db.step (op true (.put none key (some value))) =
      some ({ s.db with data := data }, .ok ()) := by
    rw [← hpub]
    simp [op, step, CobaltDB.put, hok.represents.opened, storeValue, hok.encryptor]
  have hwrite : s.write J (.put none key (some value)) now ⟨none, true, true⟩ =
      some (⟨{ s.db with data := data },
        ⟨s.wal.file ++ frame J (sealed J (putEntry now (key, some value))),
        s.wal.size + (frame J (sealed J (putEntry now (key, some value)))).length, false⟩⟩,
        .ok ()) := by
    unfold Store.write
    rw [put_entry hok]
    simp [Wal.append, hbroken, hfits.writeEntry, hstep]
  refine ⟨_, hwrite, h.write (w := .put none key (some value)) hkey hwrite rfl, rfl, ?_, hstored⟩
  dsimp only
  rw [← hok.clean hbroken, take_length, ← length_append, take_length]

theorem fits_plain {b : Byte} (hnow : (decimal now.toInt).length ≤ 20) :
    Fits plainJson now [b] [] := by
  have hlen := length_put quotedText now [b] []
    (walChecksum plainJson (putEntry now ([b], some [])))
  have hend := (length_ending (walChecksum plainJson (putEntry now ([b], some [])))).1
  have hquote : (quotedText.quote [b]).length ≤ 8 := by
    unfold quotedText escape
    dsimp only
    rw [flatMap_cons, flatMap_nil]
    split <;> simp
  have hnil : (encode []).length = 0 := rfl
  unfold Fits maxWALEntryBytes
  exact hlen.le.trans (by omega)

/-- Two values are acknowledged and a third frame is cut off: opening gives the
two. With a zero byte in the first frame it fails. -/
theorem crash_atomic_two : ∃ s m e g file, Reachable plainJson none s m ∧
    s.wal.file.take s.wal.size = frames plainJson [e, g] ∧
    CrashImage plainJson s (some (.put none [99] (some []), false)) file ∧
    (∃ t wal, recoverFromWAL plainJson file false 0 2 = some (.ok (t, wal)) ∧
      Reads ⟨t, none, false⟩ m) ∧
    ∃ reason, recoverFromWAL plainJson ((frame plainJson e).set 4 0 ++ frame plainJson g)
      false 0 2 = some (.error (.damaged 0 reason)) := by
  have h1 : (decimal (1 : Int64).toInt).length ≤ 20 := by decide
  have h2 : (decimal (2 : Int64).toInt).length ≤ 20 := by decide
  have r₀ : Reachable plainJson none (Store.newEngine 0 none) fun _ => none := .new 0
  obtain ⟨s₁, -, r₁, hb₁, hf₁, hs₁⟩ := r₀.put rfl trivial (fits_plain (b := 97) h1)
  obtain ⟨s₂, -, r₂, hb₂, hf₂, hs₂⟩ := r₁.put hb₁ trivial (fits_plain (b := 98) h1)
  have hcrc : (sealed plainJson (putEntry 1 ([98], some []))).crc32 ≠ 0 := by decide +kernel
  have he : Logged plainJson (sealed plainJson (putEntry 1 ([97], some []))) :=
    logged_sealed ⟨trivial, nofun⟩ (fits_plain h1)
  have hg : Logged plainJson (sealed plainJson (putEntry 1 ([98], some []))) :=
    logged_sealed ⟨trivial, nofun⟩ (fits_plain h1)
  -- what the entries are does not matter from here on
  generalize sealed plainJson (putEntry 1 ([97], some [])) = e at he hf₁
  generalize sealed plainJson (putEntry 1 ([98], some [])) = g at hcrc hg hf₂
  have hlog : s₂.wal.file.take s₂.wal.size = frames plainJson ([] ++ e :: [g]) := by
    rw [hf₂, hf₁]
    simp [frames, Store.newEngine]
  -- seven bytes of a third frame
  have hpart : decide ((frame plainJson (sealed plainJson (putEntry 1 ([99], some [])))).length ≤
    7) = false := by
    have hlen := length_frame plainJson (sealed plainJson (putEntry 1 ([99], some [])))
    have hpos := marshal_length_pos plainJson.toJsonText
      (sealed plainJson (putEntry 1 ([99], some [])))
    exact decide_eq_false (by omega)
  have htorn := CrashImage.torn (J := plainJson) (w := .put none [99] (some [])) trivial
    (put_entry r₂.ok 1 [99] []) (fits_plain h1).writeEntry 7
  rw [hpart] at htorn
  obtain ⟨-, hcrash, -, hdamage⟩ := r₂.crash_atomic
  refine ⟨s₂, _, e, g, _, r₂, hlog, htorn, ?_, ?_⟩
  · obtain ⟨db, m', ⟨rfl, rfl⟩, hopen⟩ := hcrash _ _ htorn
    refine (hopen false 0 2).mpr fun key value hkv => ?_
    rw [hs₂, hs₁] at hkv
    -- both values are empty, under keys of one byte
    have hcases : (key = [98] ∨ key = [97]) ∧ value = [] := by
      unfold overlay at hkv
      simp only [foldl_cons, foldl_nil] at hkv
      split at hkv
      · rename_i hkey
        cases hkv
        exact ⟨.inl hkey, rfl⟩
      · split at hkv
        · rename_i hkey
          cases hkv
          exact ⟨.inr hkey, rfl⟩
        · cases hkv
    obtain ⟨rfl | rfl, rfl⟩ := hcases
    · exact fits_plain h2
    · exact fits_plain h2
  · have hbrace : (frame plainJson e)[4]? = some 123 := rfl
    have hzero : Detects plainJson e 4 0 := by
      intro _ e' he'
      rw [plainJson.unmarshal_zero _
        (mem_set (lt_of_lt_of_le (by decide) (marshal_length_pos _ e)) 0)] at he'
      cases he'
    obtain ⟨reason, hopen⟩ :=
      hdamage [] e [g] (by simp [he, hg]) hlog ⟨g, by simp, hcrc⟩ 4 123 0 hbrace
        (by decide) hzero [] 0 2
    have hnil : frames plainJson [] = [] := rfl
    refine ⟨reason, ?_⟩
    rw [frames_cons, hnil, append_nil, append_nil, nil_append, length_nil] at hopen
    exact hopen

/-! ## A value that cannot be written again -/

/-- The end of an entry without a checksum. -/
def timeSuffix (now : Int64) : Bytes := decimal now.toInt ++ ascii "\x7d"

/-- Some nanoseconds at the beginning of a year. -/
def firstTimes : List Int64 :=
  [1767225600000000000, 1767225600000000002, 1767225600000000004, 1767225600000000006,
    1767225600000000008,
    1767225600000000100, 1767225600000000102, 1767225600000000106]

/-- An hour later. -/
def laterTimes : List Int64 := [1767229200000000000, 1767229200000000008]

/-- What is in front of the time does not matter: one of the first times gives a
small checksum, and one of the later ones a large checksum. -/
theorem checksum_times (front : Bytes) :
    (∃ t ∈ firstTimes, (checksum (front ++ timeSuffix t)).toNat < 2 ^ 29) ∧
    ∃ t ∈ laterTimes, 2 ^ 31 ≤ (checksum (front ++ timeSuffix t)).toNat := by
  -- the front adds a constant to the register, and only its first bits count
  obtain ⟨c, hc⟩ : ∃ c, c = shift^[8 * 20] (Crc32.run (BitVec.allOnes 32) front) := ⟨_, rfl⟩
  have hsum : ∀ t, (timeSuffix t).length = 20 →
      (checksum (front ++ timeSuffix t)).toNat =
        2 ^ 32 - 1 - (Crc32.run 0#32 (timeSuffix t) ^^^ c).toNat := by
    intro t ht
    rw [checksum_append, ht, ← hc, BitVec.toNat_not]
  -- what the first bits are to be, said of the number
  have htop : ∀ (x : BitVec 32) (n v : ℕ), x >>> n ^^^ BitVec.ofNat 32 (c.toNat / 2 ^ n) =
    BitVec.ofNat 32 v →
      (x ^^^ c).toNat / 2 ^ n = v % 2 ^ 32 := by
    intro x n v heq
    have hbits : c >>> n = BitVec.ofNat 32 (c.toNat / 2 ^ n) := by
      apply BitVec.eq_of_toNat_eq
      rw [BitVec.toNat_ushiftRight, Nat.shiftRight_eq_div_pow, BitVec.toNat_ofNat, Nat.mod_eq_of_lt]
      exact lt_of_le_of_lt (Nat.div_le_self ..) c.isLt
    rw [← hbits, ← BitVec.ushiftRight_xor_distrib] at heq
    rw [← Nat.shiftRight_eq_div_pow, ← BitVec.toNat_ushiftRight, heq, BitVec.toNat_ofNat]
  have hlt := c.isLt
  constructor
  · have hall : ∀ k : Fin 8, ∃ t ∈ firstTimes, (timeSuffix t).length = 20 ∧
        Crc32.run 0#32 (timeSuffix t) >>> 29 ^^^ BitVec.ofNat 32 k = 7#32 := by decide +kernel
    obtain ⟨t, ht, hlen, heq⟩ := hall ⟨c.toNat / 2 ^ 29, by omega⟩
    have := htop _ _ _ heq
    exact ⟨t, ht, by rw [hsum t hlen]; omega⟩
  · have hall : ∀ k : Fin 2, ∃ t ∈ laterTimes, (timeSuffix t).length = 20 ∧
        Crc32.run 0#32 (timeSuffix t) >>> 31 ^^^ BitVec.ofNat 32 k = 0#32 := by decide +kernel
    obtain ⟨t, ht, hlen, heq⟩ := hall ⟨c.toNat / 2 ^ 31, by omega⟩
    have := htop _ _ _ heq
    exact ⟨t, ht, by rw [hsum t hlen]; omega⟩

/-- The checksum of a `PUT` entry, with the time at the end. -/
theorem walChecksum_put (J : Json) (key : Key) (value : Bytes) : ∃ front, ∀ now,
    walChecksum J (putEntry now (key, some value)) = checksum (front ++ timeSuffix now) := by
  refine ⟨ascii "\x7b\"op\":" ++
    (WalOp.text J.toJsonText .put ++ (ascii ",\"key\":" ++ (J.quote key ++
    (valueField (some value) ++ ascii ",\"time\":")))), fun now => ?_⟩
  have htext := marshal_append J.toJsonText (putEntry now (key, some value)) []
  rw [append_nil, append_nil] at htext
  unfold walChecksum timeSuffix
  refine congrArg checksum (Eq.trans htext ?_)
  simp only [append_assoc]
  rfl

/-- **A value at the limit**: it is acknowledged with a short checksum, and with
a long one it cannot be written again. -/
theorem limit_reached (J : Json) (hkey : ∀ b ∈ key, isLetter b) (hkeyLen : key.length = 3)
    (hvalue : (encode value).length = 1048496) :
    (∃ t ∈ firstTimes, Fits J t key value) ∧ ∃ t ∈ laterTimes, ¬ Fits J t key value := by
  obtain ⟨front, hfront⟩ := walChecksum_put J key value
  obtain ⟨⟨t₁, ht₁, hsmall⟩, t₂, ht₂, hlarge⟩ := checksum_times front
  have hquote : (J.quote key).length = 5 := by
    have h₁ : (ascii "\"").length = 1 := rfl
    rw [J.quote_letters key hkey, length_append, length_append, h₁, hkeyLen]
  have hfits : ∀ t, Fits J t key value ↔ 1048538 + (decimal t.toInt).length +
      (ending (walChecksum J (putEntry t (key, some value)))).length ≤ 1048576 := by
    intro t
    have hlen := length_put J.toJsonText t key value (walChecksum J (putEntry t (key, some value)))
    rw [hquote, hvalue] at hlen
    unfold Fits maxWALEntryBytes sealed
    rw [hlen]
  -- through `all`, which is decided along the list and not over all of `Int64`
  have hdec₁ : ∀ t ∈ firstTimes, (decimal t.toInt).length = 19 := all_iff_forall_prop.mp (by decide)
  have hdec₂ : ∀ t ∈ laterTimes, (decimal t.toInt).length = 19 := all_iff_forall_prop.mp (by decide)
  constructor
  · refine ⟨t₁, ht₁, (hfits t₁).mpr ?_⟩
    have := (length_ending (walChecksum J (putEntry t₁ (key, some value)))).2.1
      (by rw [hfront]; omega)
    rw [hdec₁ t₁ ht₁]
    omega
  · refine ⟨t₂, ht₂, fun h => ?_⟩
    have := (length_ending (walChecksum J (putEntry t₂ (key, some value)))).2.2
      (by rw [hfront]; omega)
    have hle := (hfits t₂).mp h
    rw [hdec₂ t₂ ht₂] at hle
    omega

/-- A value of 786372 bytes is written, and an hour later it cannot be written again. -/
theorem acknowledged_at_limit : ∃ (key : Key) (value : Bytes), value.length = 786372 ∧
    ∀ J : Json, ∃ (t₁ t₂ : Int64) (s : Store) (m : Contents), t₁ < t₂ ∧
    (Store.newEngine 0 none).write J (.put none key (some value)) t₁ ⟨none, true, true⟩ =
    some (s, .ok ()) ∧
    Reachable J none s m ∧ s.wal.broken = false ∧ s.db.data.stored key = some value ∧
    ¬ Fits J t₂ key value := by
  -- zeros, which are four thirds as long in base64
  have hzeros : ∀ k, ∃ value : Bytes, value.length = 3 * k ∧ (encode value).length = 4 * k :=
    fun k => ⟨replicate (3 * k) 0, by simp, by simp [encode_zeros]⟩
  obtain ⟨value, hlength, hvalue⟩ := hzeros 262124
  refine ⟨[107, 101, 121], value, hlength, fun J => ?_⟩
  have hkey : ∀ b ∈ ([107, 101, 121] : Key), isLetter b := by unfold isLetter; decide +kernel
  obtain ⟨⟨t₁, ht₁, hfits⟩, t₂, ht₂, hnot⟩ := limit_reached J hkey rfl hvalue
  have r₀ : Reachable J none (Store.newEngine 0 none) fun _ => none := .new 0
  obtain ⟨s, hwrite, r₁, hbroken, -, hstored⟩ := r₀.put rfl (J.validUTF8_letters _ hkey) hfits
  have hsorted : (firstTimes ++ laterTimes).Pairwise (· < ·) := by decide
  have hlt := (pairwise_append.mp hsorted).2.2
  exact ⟨t₁, t₂, s, _, hlt t₁ ht₁ t₂ ht₂, hwrite, r₁, hbroken, by rw [hstored]; rfl, hnot⟩

/-- **An acknowledged value can keep the store from opening.** A value of 786372
bytes is written, and an hour later the store is opened again. -/
theorem acknowledged_not_reopened : ∃ (key : Key) (value : Bytes), value.length = 786372 ∧
    ∀ J : Json, ∃ (t₁ t₂ : Int64) (s : Store), t₁ < t₂ ∧
    (Store.newEngine 0 none).write J (.put none key (some value)) t₁ ⟨none, true, true⟩ =
    some (s, .ok ()) ∧
    recoverFromWAL J s.wal.file false 0 t₂ = some (.error .checkpointFailed) := by
  obtain ⟨key, value, hlength, hall⟩ := acknowledged_at_limit
  refine ⟨key, value, hlength, fun J => ?_⟩
  obtain ⟨t₁, t₂, s, m, hlt, hwrite, h, hbroken, hstored, hnot⟩ := hall J
  refine ⟨t₁, t₂, s, hlt, hwrite, ?_⟩
  obtain ⟨db, m', ⟨rfl, rfl⟩, hopen⟩ :=
    h.ok.recover (CrashImage.of_idle (h.ok.file_of_clean hbroken))
  rcases hopen false 0 t₂ with ⟨hfits, -⟩ | ⟨-, herr⟩
  · exact absurd (hfits key value hstored) hnot
  · exact herr

/-! ## Values that are written again -/

section

variable {P : Write → Prop} {es : List WalEntry} (h : ReachableBy J encryptor P s m)
  (h' : ReachableBy J encryptor P s' m') (hkeys : ∀ w, P w → w.Valid J)
  (hbroken : s.wal.broken = false) (hbroken' : s'.wal.broken = false)
  (hes : ∀ e ∈ es, Logged J e)
  (hlog : s'.wal.file.take s'.wal.size = s.wal.file.take s.wal.size ++ frames J es)
include h h' hkeys hbroken hbroken' hes hlog

/-- **What is written can be written again**, by a checkpoint and by an opening after
it, exactly if every stored value fits at that time, provided that the keys are valid
UTF-8. A value always does if it leaves 77 bytes. -/
theorem ReachableBy.written_again :
    (∀ now, (s.checkpoint J s' now).isSome = true ↔ s.AllFit J now) ∧
    (∀ file, (file = s'.wal.file ∨ ∃ now wal, s.checkpoint J s' now = some wal ∧ file = wal.file) →
      ∀ allowSkip configured now,
        (∃ t wal, recoverFromWAL J file allowSkip configured now = some (.ok (t, wal)) ∧
          Reads ⟨t, encryptor, false⟩ m') ↔ s'.AllFit J now) ∧
    ∀ key value, (J.quote key).length + (encode value).length + 77 ≤ maxWALEntryBytes →
      ∀ now, Fits J now key value := by
  have hok := (h.valid hkeys).ok
  have hok' := (h'.valid hkeys).ok
  have hopens : ∀ {s : Store}, s.Ok J encryptor m' → s.wal.broken = false →
      ∀ allowSkip configured now,
        ((∃ t wal, recoverFromWAL J s.wal.file allowSkip configured now = some (.ok (t, wal)) ∧
          Reads ⟨t, encryptor, false⟩ m') ↔ s.AllFit J now) := by
    intro s hok hbroken
    obtain ⟨db, m'', ⟨rfl, rfl⟩, hopen⟩ :=
      hok.opens_iff (CrashImage.of_idle (hok.file_of_clean hbroken))
    exact hopen
  obtain ⟨db', hc, -⟩ := hok'.represents.compactTree
  refine ⟨fun now => ⟨fun hwritten => ?_, fun hfit => ?_⟩, ?_, fun key value hroom now => ?_⟩
  · obtain ⟨wal, hwal⟩ := Option.isSome_iff_exists.mp hwritten
    exact (hok.checkpoint hok' hes hlog hwal hc).1
  · obtain ⟨wal, hwal⟩ := hok.checkpoint_of_allFit hbroken hbroken' hfit
    rw [hwal, Option.isSome_some]
  · rintro file (rfl | ⟨now, wal, hwal, rfl⟩)
    · exact hopens hok' hbroken'
    · obtain ⟨-, hclean, hafter⟩ := hok.checkpoint hok' hes hlog hwal hc
      have hopened := hopens hafter hclean
      unfold Store.AllFit at hopened ⊢
      rw [compactTree_stored hok'.represents.ok hc] at hopened
      exact hopened
  · have hlen :=
      length_put J.toJsonText now key value (walChecksum J (putEntry now (key, some value)))
    have htime := (length_time now).2
    have hend := (length_ending (walChecksum J (putEntry now (key, some value)))).1
    exact hlen.le.trans (by omega)

end

/-- A value is written, the log is compacted, and the store is opened again. -/
theorem written_again_one : ∃ s m wal, Reachable plainJson none s m ∧ m [97] = some [] ∧
    s.checkpoint plainJson s 2 = some wal ∧ ∃ t wal', recoverFromWAL plainJson wal.file false 0 3 =
      some (.ok (t, wal')) ∧ Reads ⟨t, none, false⟩ m := by
  have r₀ : Reachable plainJson none (Store.newEngine 0 none) fun _ => none := .new 0
  obtain ⟨s, -, r, hbroken, -, hstored⟩ :=
    r₀.put rfl trivial (fits_plain (b := 97) (length_time 1).2)
  have hfit : ∀ now, s.AllFit plainJson now := by
    intro now key value hkv
    rw [hstored] at hkv
    unfold overlay at hkv
    simp only [foldl_cons, foldl_nil] at hkv
    split at hkv
    · rename_i hkey
      cases hkv
      exact hkey ▸ fits_plain (length_time now).2
    · cases hkv
  obtain ⟨hwritten, hopen, -⟩ := ReachableBy.written_again r r (fun _ => id) hbroken hbroken
    (forall_mem_nil _) (append_nil _).symm
  obtain ⟨wal, hwal⟩ := Option.isSome_iff_exists.mp ((hwritten 2).mpr (hfit 2))
  exact ⟨s, _, wal, r, rfl, hwal, (hopen _ (.inr ⟨2, wal, hwal, rfl⟩) false 0 3).mpr (hfit 3)⟩

/-- **An acknowledged value can keep the log from being compacted.** A value of 786372
bytes is written, and an hour later `Checkpoint` fails on it. -/
theorem acknowledged_not_checkpointed : ∃ (key : Key) (value : Bytes), value.length = 786372 ∧
    ∀ J : Json, ∃ (t₁ t₂ : Int64) (s : Store), t₁ < t₂ ∧
    (Store.newEngine 0 none).write J (.put none key (some value)) t₁ ⟨none, true, true⟩ =
    some (s, .ok ()) ∧
    s.wal.broken = false ∧ s.checkpoint J s t₂ = none := by
  obtain ⟨key, value, hlength, hall⟩ := acknowledged_at_limit
  refine ⟨key, value, hlength, fun J => ?_⟩
  obtain ⟨t₁, t₂, s, m, hlt, hwrite, h, hbroken, hstored, hnot⟩ := hall J
  refine ⟨t₁, t₂, s, hlt, hwrite, hbroken, ?_⟩
  obtain ⟨db', hc, -⟩ := h.ok.represents.compactTree
  refine Option.eq_none_iff_forall_ne_some.mpr fun wal hwal => hnot ?_
  exact (h.ok.checkpoint h.ok (forall_mem_nil _) (append_nil _).symm hwal hc).1 key value hstored

end Anubis.Storage
