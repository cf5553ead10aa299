import Anubis.Storage.CrashRecovery
import Anubis.Storage.Helpers.Batches

/-!
# Encryption cannot be seen

Two stores take the same calls, one with an encryption key and one without. Both
represent the same contents, so they answer alike: a value is sealed once on the way
in and opened once on the way out, through checkpoints and through the log. There
are two exceptions. A `nil` value is a tombstone without encryption, and an empty
value with it. And a sealed value is up to 60 bytes longer, so its entry can be too
long for the log while the plain one is not.
-/

namespace Anubis.Storage

open SortedAssoc List Option Write CobaltDB

variable {J : Json} {e : Encryptor} {encryptor : Option Encryptor} {s p p' c c' : Store}
  {m : Contents} {w : Write} {db : CobaltDB} {now now' : Int64}

/-! ## Calls -/

/-- The values of a write, with the random numbers drawn for them. -/
def Write.values : Write → List (Option Draw × Option Bytes)
  | .put random _ value => [(random, value)]
  | .putMany random values => values.1.map fun x => (random x.1, x.2)
  | .delete _ => []
  | .deleteMany _ => []

/-- **A write that encryption does not change**: its keys are valid UTF-8, none of its
values is `nil`, and each of them can be sealed. -/
structure Write.Plain (J : Json) (e : Encryptor) (w : Write) : Prop where
  keys : w.Valid J
  present : ∀ x ∈ w.values, x.2 ≠ none
  seals : ∀ x ∈ w.values, (e.encrypt x.1 (x.2.getD [])).isSome

/-- A call that may change a store. -/
inductive Call
  | write (w : Write)
  | checkpoint
  | reopen (allowSkip : Bool) (configured : ℤ)

namespace Call

/-- What a call returns: an error of the engine, or of its opening. -/
abbrev Answer : Type := Except (EngineError ⊕ RecoverError) Unit

/-- **A call** at the time `now`, while the disk works. An opening that fails leaves
no store. -/
def take (J : Json) (s : Store) (now : Int64) : Call → Option (Option Store × Answer)
  | .write w => (s.write J w now ⟨none, true, true⟩).map fun (s', r) => (some s', r.mapError .inl)
  | .checkpoint =>
    match s.checkpoint J s now with
    | none => some (some s, .error (.inl .checkpointFailed))
    | some wal => s.db.compactTree.map fun db => (some ⟨db, wal⟩, .ok ())
  | .reopen allowSkip configured =>
    (recoverFromWAL J s.wal.file allowSkip configured now).map fun
      | .ok (t, wal) => (some ⟨⟨t, s.db.encryptor, false⟩, wal⟩, .ok ())
      | .error err => (none, .error (.inr err))

/-- What a call writes to the log is not too long: the entry of a write, or every
value that is stored. -/
def Fits (J : Json) (s : Store) (now : Int64) : Call → Prop
  | .write w => w.Fits J s.db now
  | _ => s.AllFit J now

/-- **A call that encryption does not change**: its write is plain, and what it logs
fits in both stores or in none. -/
structure Alike (J : Json) (e : Encryptor) (p c : Store) (now now' : Int64) (call : Call) :
    Prop where
  plain : ∀ w, call = .write w → w.Plain J e
  fits : call.Fits J p now ↔ call.Fits J c now'

/-- The contents after a call that succeeds. -/
def contents (m : Contents) : Call → Contents
  | .write w => w.contents false m
  | _ => m

/-- What a call that is too long returns, and the store it leaves. -/
def refused (s : Store) : Call → Option Store × Answer
  | .write (.put _ _ _) => (some s, .error (.inl .walAppendFailed))
  | .write (.putMany _ _) => (some s, .error (.inl .walBatchAppendFailed))
  | .write (.delete _) => (some s, .error (.inl .walAppendFailed))
  | .write (.deleteMany _) => (some s, .error (.inl .walBatchDeleteFailed))
  | .checkpoint => (some s, .error (.inl .checkpointFailed))
  | .reopen _ _ => (none, .error (.inr .checkpointFailed))

end Call

/-- **Two stores that took the same calls**, without a key and with one. -/
inductive Alongside (J : Json) (e : Encryptor) : Store → Store → Prop
  | new (configured configured' : ℤ) :
      Alongside J e (.newEngine configured none) (.newEngine configured' (some e))
  | step {p p' c c' : Store} {call : Call} {now now' : Int64} {r r' : Call.Answer}
      (h : Alongside J e p c) (hcall : call.Alike J e p c now now')
      (hp : call.take J p now = some (some p', r))
      (hc : call.take J c now' = some (some c', r')) : Alongside J e p' c'

/-! ## One store -/

/-- Such a write is served if the log takes it. -/
theorem served_of_plain (hencryptor : ∀ e' ∈ encryptor, e' = e) (hw : w.Plain J e) :
    (w.op true).Served encryptor := by
  cases w with
  | put random key value =>
    refine ⟨rfl, fun e' he' => ?_⟩
    rw [hencryptor e' he']
    exact hw.seals (random, value) (by simp [values])
  | putMany random =>
    refine ⟨rfl, fun e' he' x hx => ?_⟩
    rw [hencryptor e' he']
    exact hw.seals (random x.1, x.2) (List.mem_map.mpr ⟨x, hx, rfl⟩)
  | delete => rfl
  | deleteMany => rfl

/-- A value that is not `nil` is seen as it was put. -/
theorem contents_plain (hw : w.Plain J e) (encrypted : Bool) :
    w.contents encrypted m = w.contents false m := by
  cases w with
  | put random key value =>
    obtain ⟨v, rfl⟩ := ne_none_iff_exists'.mp (hw.present (random, value) (by simp [values]))
    cases encrypted <;> rfl
  | putMany random values =>
    funext k
    cases hfind : find k values.1 with
    | none => simp [Write.contents, hfind]
    | some value =>
      obtain ⟨v, rfl⟩ := ne_none_iff_exists'.mp
        (hw.present (random k, value) (List.mem_map.mpr ⟨(k, value), mem_of_find hfind, rfl⟩))
      cases encrypted <;> simp [Write.contents, hfind, visible]
  | delete => rfl
  | deleteMany => rfl

/-- What a write that the log refuses returns does not depend on the encryption. -/
theorem refused_of_step {err : EngineError} (hopened : s.db.closed = false)
    (hserved : (w.op true).Served s.db.encryptor)
    (h : s.db.step (w.op false) = some (s.db, .error err)) :
    (Call.write w).refused s = (some s, .error (.inl err)) := by
  cases w with
  | put random key value =>
    cases hs : s.db.storeValue random value with
    | none =>
      obtain ⟨e, he, hnot⟩ := storeValue_eq_none hs
      exact absurd (hserved.2 e he) hnot
    | some =>
      simp only [op, step, CobaltDB.put, hopened, hs, failed, Bool.false_eq_true, if_false] at h
      cases h
      rfl
  | putMany random values =>
    cases hall : values.1.mapM fun x => (s.db.storeValue (random x.1) x.2).map (x.1, ·) with
    | none =>
      obtain ⟨x, hx, e, he, hnot⟩ := mapM_storeValue_eq_none hall
      exact absurd (hserved.2 e he x hx) hnot
    | some =>
      by_cases hnil : values.1 = []
      · simp [op, step, CobaltDB.putMany, hopened, hnil] at h
      · simp only [op, step, CobaltDB.putMany, hopened, hnil, hall, failed, Bool.false_eq_true,
          if_false] at h
        cases h
        rfl
  | delete =>
    simp only [op, step, CobaltDB.delete, hopened, failed, Bool.false_eq_true, if_false] at h
    cases h
    rfl
  | deleteMany keys =>
    by_cases hnil : keys = []
    · simp [op, step, CobaltDB.deleteMany, hopened, hnil] at h
    · simp only [op, step, CobaltDB.deleteMany, hopened, hnil, failed, Bool.false_eq_true,
        if_false] at h
      cases h
      rfl

/-- A log that was written anew is not broken. -/
theorem clean_of_recoverFromWAL {file : Bytes} {allowSkip : Bool} {configured : ℤ}
    {t : BTreeIndex Key Bytes} {wal : Wal}
    (h : recoverFromWAL J file allowSkip configured now = some (.ok (t, wal))) :
    wal.broken = false := by
  unfold recoverFromWAL at h
  split at h
  · cases h
  · cases h
  · obtain ⟨live, -, hcompact⟩ := bind_eq_some_iff.mp h
    split at hcompact
    · cases hcompact
    · next wal' hw =>
      cases hcompact
      obtain ⟨frames, -, rfl⟩ := map_eq_some_iff.mp hw
      rfl

/-- **One call on one store** succeeds if what it logs fits, and is refused otherwise. -/
theorem Reachable.take (h : Reachable J encryptor s m) (hlog : s.wal.broken = false)
    (hencryptor : ∀ e' ∈ encryptor, e' = e) {call : Call}
    (hplain : ∀ w, call = .write w → w.Plain J e) (now : Int64) :
    (call.Fits J s now → ∃ s', call.take J s now = some (some s', .ok ()) ∧
      Reachable J encryptor s' (call.contents m) ∧ s'.wal.broken = false) ∧
    (¬ call.Fits J s now → call.take J s now = some (call.refused s)) := by
  have hok := h.ok
  cases call with
  | write w =>
    have hw := hplain w rfl
    have hserved := served_of_plain hencryptor hw
    constructor
    · intro hfits
      obtain ⟨s', hwrite, h', hlog'⟩ := h.write_fits hlog hw.keys hserved hfits
      rw [contents_plain hw] at h'
      exact ⟨s', by simp only [Call.take, hwrite, map_some]; rfl, h', hlog'⟩
    · intro hnot
      obtain ⟨err, hstep, hwrite⟩ := h.write_oversize hlog hw.keys hnot
      rw [refused_of_step hok.represents.opened (hok.encryptor.symm ▸ hserved) hstep]
      simp only [Call.take, hwrite, map_some]
      rfl
  | checkpoint =>
    obtain ⟨db, hc, -⟩ := hok.represents.compactTree
    have hmoved : s.wal.file.take s.wal.size = s.wal.file.take s.wal.size ++ frames J [] :=
      (append_nil _).symm
    constructor
    · intro hfits
      obtain ⟨wal, hwal⟩ := hok.checkpoint_of_allFit hlog hlog hfits
      refine ⟨⟨db, wal⟩, by simp only [Call.take, hwal, hc, map_some],
        .checkpoint h h (forall_mem_nil _) hmoved hwal hc, ?_⟩
      exact (hok.checkpoint hok (forall_mem_nil _) hmoved hwal hc).2.1
    · intro hnot
      cases hwal : s.checkpoint J s now with
      | none => simp only [Call.take, hwal, Call.refused]
      | some wal => exact absurd (hok.checkpoint hok (forall_mem_nil _) hmoved hwal hc).1 hnot
  | reopen allowSkip configured =>
    have hcrash := CrashImage.of_idle (J := J) (hok.file_of_clean hlog)
    obtain ⟨db, m', ⟨rfl, rfl⟩, hopen⟩ := hok.recover hcrash
    rcases hopen allowSkip configured now with ⟨hall, t, wal, hrec, -⟩ | ⟨hex, hrec⟩
    · refine ⟨fun _ => ?_, fun hnot => absurd hall hnot⟩
      refine ⟨⟨⟨t, encryptor, false⟩, wal⟩, ?_, .reopen h hcrash ⟨rfl, rfl⟩ hrec,
        clean_of_recoverFromWAL hrec⟩
      simp only [Call.take, hrec, map_some, hok.encryptor]
    · refine ⟨fun hall => ?_, fun _ => by simp only [Call.take, hrec, map_some, Call.refused]⟩
      obtain ⟨key, value, hstored, hnot⟩ := hex
      exact absurd (hall key value hstored) hnot

/-! ## Both stores -/

/-- The store without a key and the store with one hold the same. -/
structure SameContents (J : Json) (e : Encryptor) (p c : Store) (m : Contents) : Prop where
  plain : Reachable J none p m
  sealed : Reachable J (some e) c m
  plainLog : p.wal.broken = false
  sealedLog : c.wal.broken = false

/-- **One call** on both stores returns the same. -/
theorem SameContents.take (h : SameContents J e p c m) {call : Call}
    (hcall : call.Alike J e p c now now') :
    ∃ p' c' r, call.take J p now = some (p', r) ∧ call.take J c now' = some (c', r) ∧
      p'.isSome = c'.isSome ∧ ∀ p₁ ∈ p', ∀ c₁ ∈ c', ∃ m', SameContents J e p₁ c₁ m' := by
  obtain ⟨htakes, hrefuses⟩ := h.plain.take h.plainLog (e := e) (by simp) hcall.plain now
  obtain ⟨htakes', hrefuses'⟩ := h.sealed.take h.sealedLog (e := e) (by simp) hcall.plain now'
  by_cases hfits : call.Fits J p now
  · obtain ⟨p₁, hp, hrep, hbroken⟩ := htakes hfits
    obtain ⟨c₁, hc, hrep', hbroken'⟩ := htakes' (hcall.fits.mp hfits)
    refine ⟨some p₁, some c₁, .ok (), hp, hc, rfl, ?_⟩
    rintro _ ⟨⟩ _ ⟨⟩
    exact ⟨_, hrep, hrep', hbroken, hbroken'⟩
  · have hp := hrefuses hfits
    have hc := hrefuses' fun hfits' => hfits (hcall.fits.mpr hfits')
    have hsame : call.refused p = ((call.refused p).1, (call.refused c).2) ∧
        (call.refused p).1.isSome = (call.refused c).1.isSome ∧
        ∀ p₁ ∈ (call.refused p).1, ∀ c₁ ∈ (call.refused c).1, p₁ = p ∧ c₁ = c := by
      rcases call with (_ | _ | _ | _) | _ | _ <;>
        simp only [Call.refused, isSome_some, isSome_none, mem_def, Option.some.injEq,
          true_and, reduceCtorEq, IsEmpty.forall_iff, implies_true] <;>
        exact fun _ hp _ hc => ⟨hp.symm, hc.symm⟩
    refine ⟨_, _, _, hp.trans (congrArg some hsame.1), hc, hsame.2.1, fun p₁ hp₁ c₁ hc₁ => ?_⟩
    obtain ⟨rfl, rfl⟩ := hsame.2.2 p₁ hp₁ c₁ hc₁
    exact ⟨m, h⟩

theorem Alongside.sameContents (h : Alongside J e p c) : ∃ m, SameContents J e p c m := by
  induction h with
  | new configured configured' => exact ⟨_, .new configured, .new configured', rfl, rfl⟩
  | step _ hcall hp hc ih =>
    obtain ⟨m, hm⟩ := ih
    obtain ⟨p', c', r, hp', hc', -, hsame⟩ := hm.take hcall
    rw [hp] at hp'
    rw [hc] at hc'
    cases hp'
    cases hc'
    exact hsame _ rfl _ rfl

/-- The two engines answer every read alike. -/
structure SameReads (p c : CobaltDB) : Prop where
  get : ∀ key, c.get key = p.get key
  list : ∀ start, c.list start = p.list start
  prefixScan : ∀ start, c.prefixScan start = p.prefixScan start
  rangeScan : ∀ start stop, c.rangeScan start stop = p.rangeScan start stop

/-- **The contents determine the reads.** -/
theorem sameReads {p c : CobaltDB} (hp : p.Represents m) (hc : c.Represents m) : SameReads p c where
  get key := by rw [hp.get, hc.get]
  list start := by
    obtain ⟨ks, hp, hsorted, hmem⟩ := hp.list start
    obtain ⟨ks', hc, hsorted', hmem'⟩ := hc.list start
    rw [hp, hc, hsorted'.eq_of_mem_iff hsorted fun key => (hmem' key).trans (hmem key).symm]
  prefixScan start := by
    obtain ⟨l, hp, hsorted, hfind⟩ := hp.reads.prefixScan start
    obtain ⟨l', hc, hsorted', hfind'⟩ := hc.reads.prefixScan start
    rw [hp, hc, hsorted'.ext hsorted fun key => (hfind' key).trans (hfind key).symm]
  rangeScan start stop := by
    obtain ⟨l, hp, hsorted, hfind⟩ := hp.reads.rangeScan start stop
    obtain ⟨l', hc, hsorted', hfind'⟩ := hc.reads.rangeScan start stop
    rw [hp, hc, hsorted'.ext hsorted fun key => (hfind' key).trans (hfind key).symm]

/-- A cipher that only pads. -/
def padding : Encryptor where
  deriveKey := some
  gcmSeal _ _ plaintext := plaintext ++ replicate 16 0
  gcmOpen _ _ ciphertext := some (ciphertext.take (ciphertext.length - 16))
  gcmOpen_gcmSeal := by simp
  length_gcmSeal := by simp

/-- Some salt and nonce. -/
def zeroDraw : Draw := ⟨replicate 32 0, replicate 12 0, rfl, rfl⟩

/-- The `Put` of a value without bytes fits, in any store. -/
theorem fits_put_empty {value : Option Bytes} (hvalue : value.getD [] = []) (db : CobaltDB)
    (now : Int64) : (Write.put (some zeroDraw) [97] value).Fits plainJson db now := by
  have hquote : (plainJson.quote [97]).length = 3 := rfl
  refine fits_put ?_ db now
  rw [hquote, hvalue]
  decide

end Anubis.Storage
