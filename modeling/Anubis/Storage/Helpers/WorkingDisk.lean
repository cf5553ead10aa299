import Anubis.Storage.Helpers.Recovery
import Anubis.Storage.Model.RaftLog

/-!
# Writes on a working disk

While the disk works and values can be encrypted, a write fails for one reason:
its entry is longer than `maxWALEntryBytes`. Then nothing has changed. So an
operation of several frames succeeds exactly if each of them fits.
-/

namespace Anubis.Storage

open SortedAssoc List CobaltDB Write

variable {J : Json} {encryptor : Option Encryptor} {s : Store} {m : Contents} {w : Write}
    {now : Int64}
variable {ws : List (Moment → Write)} {moments : ℕ → Moment} {db : CobaltDB} {encrypted b : Bool}

/-- The disk takes every frame, and any value can be encrypted. -/
structure Moment.Works (encryptor : Option Encryptor) (moment : Moment) : Prop where
  disk : moment.disk = ⟨none, true, true⟩
  encrypts : ∀ e ∈ encryptor, ∀ key value, (e.encrypt (moment.random key) value).isSome

/-- A moment at which the disk works, without encryption. -/
def workingMoment : Moment := ⟨1, ⟨none, true, true⟩, fun _ => none⟩

theorem workingMoment_works : workingMoment.Works none := ⟨rfl, nofun⟩

/-- A value can be stored while encryption works. -/
theorem exists_storeValue (hencryptor : db.encryptor = encryptor) {moment : Moment}
    (hmoment : moment.Works encryptor) (key : Key) (value : Option Bytes) :
    ∃ stored, db.storeValue (moment.random key) value = some stored := by
  cases hs : db.storeValue (moment.random key) value with
  | some stored => exact ⟨stored, rfl⟩
  | none =>
    obtain ⟨e, hmem, hnone⟩ := storeValue_eq_none hs
    exact absurd (hmoment.encrypts e (hencryptor ▸ hmem) _ _) hnone

/-- What a write makes of the contents. -/
def Write.contents (encrypted : Bool) (m : Contents) : Write → Contents
  | .put _ key value => fun k => if k = key then visible encrypted value else m k
  | .putMany _ values => fun k =>
    match find k values.1 with
    | some value => visible encrypted value
    | none => m k
  | .delete key => fun k => if k = key then none else m k
  | .deleteMany keys => fun k => if k ∈ keys then none else m k

theorem Write.effect_ok : (w.op b).Effect encrypted (.ok ()) m (w.contents encrypted m) := by
  cases w <;> rfl

/-- The text of an entry with its checksum. -/
def frameLength (J : Json) (e : WalEntry) : ℕ := ((sealed J e).marshal J.toJsonText).length

/-- The entry of a write, if it has one, is not too long. -/
def Write.Fits (J : Json) (db : CobaltDB) (now : Int64) (w : Write) : Prop :=
  ∀ e, w.entry J db now = some e → frameLength J e ≤ maxWALEntryBytes

/-- The entry depends on the encryption only. -/
theorem Write.entry_congr {db' : CobaltDB} (henc : db'.encryptor = db.encryptor)
    (hclosed : db'.closed = db.closed) : w.entry J db' now = w.entry J db now := by
  have hstore : db'.storeValue = db.storeValue := by
    funext random value
    unfold storeValue
    rw [henc]
  unfold entry
  rw [hclosed, hstore]

/-! ## One write -/

/-- **A write that fits is acknowledged.** -/
theorem Reachable.write_fits (h : Reachable J encryptor s m) (hlog : s.wal.broken = false)
    (hw : w.Valid J) (hserved : (w.op true).Served encryptor) (hfits : w.Fits J s.db now) :
    ∃ s', s.write J w now ⟨none, true, true⟩ = some (s', .ok ()) ∧
      Reachable J encryptor s' (w.contents encryptor.isSome m) ∧ s'.wal.broken = false := by
  have hok := h.ok
  obtain ⟨db', r, m', hstep, -, hsucceeds, -⟩ := hok.represents.step (w.op true)
  obtain rfl : r = .ok () := hsucceeds (hok.encryptor.symm ▸ hserved)
  -- the tree takes the values, whether an entry is logged or not
  obtain ⟨wal, hwrite, hbroken⟩ :
    ∃ wal, s.write J w now ⟨none, true, true⟩ = some (⟨db', wal⟩, .ok ()) ∧
      wal.broken = false := by
    unfold Store.write
    cases he : w.entry J s.db now with
    | none => exact ⟨s.wal, by simp [hstep], hlog⟩
    | some e =>
      have hbuf : writeEntry J e = some (frame J (sealed J e)) := if_neg (not_lt.mpr (hfits e he))
      refine ⟨⟨s.wal.file ++ frame J (sealed J e),
        s.wal.size + (frame J (sealed J e)).length, false⟩, ?_, rfl⟩
      simp [Wal.append, hlog, hbuf, hstep]
  exact ⟨_, hwrite, h.write hw hwrite effect_ok, hbroken⟩

/-- **A write that does not fit fails** as one that the log refuses, and nothing has
changed. -/
theorem Reachable.write_oversize (h : Reachable J encryptor s m) (hlog : s.wal.broken = false)
    (hw : w.Valid J) (hfits : ¬ w.Fits J s.db now) :
    ∃ err, s.db.step (w.op false) = some (s.db, .error err) ∧
      s.write J w now ⟨none, true, true⟩ = some (s, .error err) := by
  unfold Write.Fits at hfits
  push Not at hfits
  obtain ⟨e, he, hlt⟩ := hfits
  obtain ⟨-, -, -, -, -, -, -, err, hfalse⟩ := logged h.ok.represents.opened hw he
  have hbuf : writeEntry J e = none := if_pos hlt
  have hsame : ({ s.wal with broken := false } : Wal) = s.wal := by rw [← hlog]
  refine ⟨err, hfalse, ?_⟩
  unfold Store.write
  simp [he, Wal.append, hlog, hbuf, hfalse, failed, hsame]

/-! ## Several writes -/

/-- Writes that can be made at their moments, as far as their sizes allow. -/
structure Unhindered (J : Json) (encryptor : Option Encryptor) (ws : List (Moment → Write))
    (moments : ℕ → Moment) :
    Prop where
  works : ∀ i, (moments i).Works encryptor
  valid : ∀ w ∈ ws, ∀ moment, (w moment).Valid J
  served : ∀ w ∈ ws, ∀ moment : Moment, moment.Works encryptor →
    ((w moment).op true).Served encryptor

theorem Unhindered.tail {w : Moment → Write}
    (h : Unhindered J encryptor (w :: ws) moments) : Unhindered J encryptor ws fun i =>
    moments (i + 1) where
  works i := h.works (i + 1)
  valid w hw := h.valid w (by simp [hw])
  served w hw := h.served w (by simp [hw])

/-- What several writes make of the contents. -/
def contentsAfter (encrypted : Bool) : List (Moment → Write) → (ℕ → Moment) → Contents → Contents
  | [], _, m => m
  | w :: ws, moments, m =>
    contentsAfter encrypted ws (fun i => moments (i + 1)) ((w (moments 0)).contents encrypted m)

/-- Every frame of an operation fits. -/
def AllFit (J : Json) (db : CobaltDB) (ws : List (Moment → Write)) (moments : ℕ → Moment) : Prop :=
  ∀ (i : ℕ) (w : Moment → Write), ws[i]? = some w → (w (moments i)).Fits J db (moments i).now

theorem allFit_cons {w : Moment → Write} : AllFit J db (w :: ws) moments ↔
      (w (moments 0)).Fits J db (moments 0).now ∧ AllFit J db ws fun i => moments (i + 1) := by
  constructor
  · exact fun h => ⟨h 0 w rfl, fun i w' hw' => h (i + 1) w' hw'⟩
  · rintro ⟨hfirst, hrest⟩ i w' hw'
    cases i with
    | zero =>
      cases hw'
      exact hfirst
    | succ i => exact hrest i w' hw'

section

variable (h : Reachable J encryptor s m) (hlog : s.wal.broken = false)
    (hws : Unhindered J encryptor ws moments)

include h hlog hws

/-- **Several writes** succeed if each of them fits, and fail otherwise. -/
theorem Reachable.writeEach :
    (AllFit J s.db ws moments → ∃ s', s.writeEach J ws moments = some (s', .ok ()) ∧
      Reachable J encryptor s' (contentsAfter encryptor.isSome ws moments m) ∧
      s'.wal.broken = false) ∧
    (¬ AllFit J s.db ws moments → ∃ s' err, s.writeEach J ws moments = some (s', .error err)) := by
  induction ws generalizing s m moments with
  | nil => exact ⟨fun _ => ⟨s, rfl, h, hlog⟩, fun hnot => absurd (fun _ _ hw => by cases hw) hnot⟩
  | cons w ws ih =>
    have hw := hws.valid w (by simp) (moments 0)
    have hdisk := (hws.works 0).disk
    have hserved := hws.served w (by simp) _ (hws.works 0)
    rw [allFit_cons, Store.writeEach, hdisk]
    by_cases hfits : (w (moments 0)).Fits J s.db (moments 0).now
    · obtain ⟨s₁, hwrite, h₁, hlog₁⟩ := h.write_fits hlog hw hserved hfits
      have hcongr : AllFit J s₁.db ws (fun i => moments (i + 1)) ↔
        AllFit J s.db ws (fun i => moments (i + 1)) := by
        have henc : s₁.db.encryptor = s.db.encryptor := h₁.ok.encryptor.trans h.ok.encryptor.symm
        have hclosed : s₁.db.closed = s.db.closed :=
          h₁.ok.represents.opened.trans h.ok.represents.opened.symm
        unfold AllFit Write.Fits
        simp only [entry_congr henc hclosed]
      obtain ⟨hall, hsome⟩ := ih h₁ hlog₁ hws.tail
      rw [hwrite]
      refine ⟨fun hboth => hall (hcongr.mpr hboth.2), fun hnot => hsome fun hrest =>
        hnot ⟨hfits, hcongr.mp hrest⟩⟩
    · obtain ⟨err, -, hwrite⟩ := h.write_oversize hlog hw hfits
      rw [hwrite]
      exact ⟨fun hboth => absurd hboth.1 hfits, fun _ => ⟨s, err, rfl⟩⟩

/-- Success, said by the sizes of the frames. -/
theorem Reachable.writeEach_ok_iff :
    (∃ s', s.writeEach J ws moments = some (s', .ok ())) ↔ AllFit J s.db ws moments := by
  obtain ⟨hall, hsome⟩ := h.writeEach hlog hws
  constructor
  · rintro ⟨s', hs'⟩
    by_contra hnot
    obtain ⟨s'', err, herr⟩ := hsome hnot
    rw [hs'] at herr
    cases herr
  · intro hfit
    obtain ⟨s', hs', -⟩ := hall hfit
    exact ⟨s', hs'⟩

end

/-!
## What batches and frames write

However values are spread over batches, the contents afterwards are those of
writing them one after another. However keys are spread over frames, they are
all deleted.
-/

/-- What a reader sees of a pair that was put. -/
def shown (encrypted : Bool) (x : Key × Option Bytes) : Key × Option Bytes :=
    (x.1, visible encrypted x.2)

theorem overlay_append (es es' : List (Key × Option Bytes)) (f : Key → Option Bytes) :
    overlay (es ++ es') f = overlay es' (overlay es f) := foldl_append

theorem overlay_cons (x : Key × Option Bytes) (es : List (Key × Option Bytes)) (f : Key →
    Option Bytes) :
    overlay (x :: es) f = overlay es (overlay [x] f) := rfl

/-- The value of a key in a sorted list of pairs. -/
theorem overlay_sorted {l : List (Key × Option Bytes)} (hl : Sorted l) (f : Key → Option Bytes)
    (key : Key) :
    overlay (l.map (shown encrypted)) f key =
      match find key l with
      | some value => visible encrypted value
      | none => f key := by
  have hfound : ∀ x ∈ l.map (shown encrypted), ∃ value, find x.1 l = some value ∧
      x.2 = visible encrypted value := by
    intro x hx
    obtain ⟨y, hy, rfl⟩ := mem_map.mp hx
    exact ⟨y.2, find_of_mem hl hy, rfl⟩
  cases hfind : find key l with
  | none =>
    have hne : ∀ x ∈ l.map (shown encrypted), x.1 ≠ key := by
      rintro x hx rfl
      obtain ⟨value, hvalue, -⟩ := hfound x hx
      cases hfind.symm.trans hvalue
    have hvalue : ∀ x ∈ l.map (shown encrypted), x.1 = key → x.2 = none := fun x hx heq =>
      absurd heq (hne x hx)
    rw [overlay_of_mem hvalue, if_neg]
    intro hmem
    obtain ⟨x, hx, heq⟩ := mem_map.mp hmem
    exact hne x hx heq
  | some value =>
    have hvalue : ∀ x ∈ l.map (shown encrypted), x.1 = key → x.2 = visible encrypted value := by
      rintro x hx rfl
      obtain ⟨value', hvalue, hx⟩ := hfound x hx
      cases hfind.symm.trans hvalue
      exact hx
    rw [overlay_of_mem hvalue, if_pos]
    exact mem_map.mpr ⟨_, mem_map_of_mem (mem_of_find hfind), rfl⟩

theorem contents_putBatch (batch : GoMap (Option Bytes)) (moment : Moment) :
    (putBatch batch moment).contents encrypted m = overlay (batch.1.map (shown encrypted)) m := by
  funext key
  rw [overlay_sorted batch.2]
  rfl

/-- A pair that is set in a batch, and one that is written after it. -/
theorem overlay_set (batch : GoMap (Option Bytes)) (x : Key × Option Bytes) (f : Key →
    Option Bytes) :
    overlay ((batch.set x.1 x.2).1.map (shown encrypted)) f =
      overlay [shown encrypted x] (overlay (batch.1.map (shown encrypted)) f) := by
  funext key
  have hset : (batch.set x.1 x.2).1 = upsert x.1 x.2 batch.1 := rfl
  have hone : overlay [shown encrypted x] (overlay (batch.1.map (shown encrypted)) f) key =
      if key = x.1 then visible encrypted x.2 else overlay (batch.1.map (shown encrypted)) f key :=
        rfl
  rw [overlay_sorted (batch.set x.1 x.2).2, hone, overlay_sorted batch.2, hset, find_upsert batch.2]
  by_cases hkey : x.1 = key
  · rw [if_pos hkey, if_pos hkey.symm]
  · rw [if_neg hkey, if_neg fun h => hkey h.symm]

/-- **Batches write their values one after another.** -/
theorem contentsAfter_fillBatches (values : List (Key × Option Bytes))
    (batch : GoMap (Option Bytes)) (size : ℕ) :
    contentsAfter encrypted ((fillBatches values batch size).map putBatch) moments m =
      overlay ((batch.1 ++ values).map (shown encrypted)) m := by
  induction values generalizing batch size moments m with
  | nil =>
    rw [fillBatches, append_nil]
    split
    · rename_i hnil
      rw [hnil]
      rfl
    · exact contents_putBatch batch (moments 0)
  | cons x values ih =>
    have hparts : ∀ f, overlay ((batch.1 ++ x :: values).map (shown encrypted)) f =
        overlay (values.map (shown encrypted))
          (overlay [shown encrypted x] (overlay (batch.1.map (shown encrypted)) f)) := by
      intro f
      rw [map_append, overlay_append, map_cons, overlay_cons]
    rw [fillBatches]
    split
    · rw [map_cons, contentsAfter, ih, contents_putBatch, hparts, map_append, overlay_append,
        overlay_set]
      rfl
    · rw [ih, map_append, overlay_append, overlay_set, hparts]

theorem contentsAfter_batches (values : List (Key × Option Bytes)) :
    contentsAfter encrypted ((batches values).map putBatch) moments m =
    overlay (values.map (shown encrypted)) m :=
  contentsAfter_fillBatches values GoMap.empty 0

/-- **Frames delete their keys.** -/
theorem contentsAfter_deleteFrames (keys : List Key) :
    contentsAfter encrypted ((deleteFrames keys).map deleteBatch) moments m =
      fun key => if key ∈ keys then none else m key := by
  induction keys using deleteFrames.induct generalizing moments m with
  | case1 =>
    rw [deleteFrames, if_pos rfl]
    funext key
    exact (if_neg nofun).symm
  | case2 keys hne ih =>
    rw [deleteFrames, if_neg hne, map_cons, contentsAfter, ih]
    funext key
    have hmem : key ∈ keys ↔ key ∈ keys.drop perFrame ∨ key ∈ keys.take perFrame := by
      conv_lhs => rw [← take_append_drop perFrame keys]
      rw [mem_append, or_comm]
    simp only [deleteBatch, contents]
    by_cases hdrop : key ∈ keys.drop perFrame
    · rw [if_pos hdrop, if_pos (hmem.mpr (.inl hdrop))]
    · rw [if_neg hdrop]
      by_cases htake : key ∈ keys.take perFrame
      · rw [if_pos htake, if_pos (hmem.mpr (.inr htake))]
      · rw [if_neg htake, if_neg fun h => (hmem.mp h).elim hdrop htake]

theorem contentsAfter_append (ws ws' : List (Moment → Write)) :
    contentsAfter encrypted (ws ++ ws') moments m =
      contentsAfter encrypted ws' (fun i => moments (i + ws.length))
      (contentsAfter encrypted ws moments m) := by
  induction ws generalizing moments m with
  | nil => rfl
  | cons w ws ih =>
    rw [cons_append, contentsAfter, contentsAfter, ih]
    rfl

end Anubis.Storage
