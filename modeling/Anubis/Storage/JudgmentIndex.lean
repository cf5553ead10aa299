import Anubis.Storage.Model.Judgments

/-!
# Index and record agree

Over saves and purges, the index leads to every live judgment, as long as no
judgment is saved again under another time or soul while its old record lives,
and no crash falls between the two deletions of a purge. Each of the two breaks
the agreement at once.
-/

namespace Anubis.Storage.Judgments

open Option Function

variable {db : Db} {key : Primary} {j : Judgment}

/-- **Index and record agree.** -/
structure Db.Agrees (db : Db) : Prop where
  points : ∀ ws id key, db.index (ws, id) = some key →
    id ≠ "" ∧ key.workspace = ws ∧ ∃ j, db.records key = some j ∧ j.id = id
  found : ∀ key j, db.records key = some j → j.id ≠ "" →
    db.getJudgmentByID key.workspace j.id = some j
  unique : ∀ key key' j j', db.records key = some j → db.records key' = some j' →
    key.workspace = key'.workspace → j.id = j'.id → j.id ≠ "" → key = key'

/-- The records are named by their keys. -/
def Db.Keyed (db : Db) : Prop :=
  ∀ key j, db.records key = some j →
    j.workspaceID = key.workspace ∧ key.workspace ≠ "" ∧ ∀ id, key.id = some id → j.id = id

/-- The agreement, key by key: the index leads exactly to the records that have
an ID, from their own workspace. -/
def Db.Linked (db : Db) : Prop :=
  ∀ ws id key, db.index (ws, id) = some key ↔ id ≠ "" ∧ key.workspace = ws ∧
    ∃ j, db.records key = some j ∧ j.id = id

theorem Db.Keyed.agrees_iff (hk : db.Keyed) : db.Agrees ↔ db.Linked := by
  have hdefault : ∀ key j, db.records key = some j →
    defaultWorkspace key.workspace = key.workspace :=
    fun key j hj => if_neg (hk key j hj).2.1
  constructor
  · refine fun h ws id key => ⟨h.points ws id key, ?_⟩
    rintro ⟨hid, rfl, j, hj, rfl⟩
    have hget := h.found key j hj hid
    simp only [Db.getJudgmentByID, hdefault key j hj, bind_eq_bind, bind_eq_some_iff] at hget
    obtain ⟨primary, hindex, j', hj', hsame⟩ := hget
    obtain rfl : j' = j := by
      split at hsame
      · cases hsame
      · exact some.inj hsame
    rw [hindex, h.unique primary key j' j' hj' hj (h.points _ _ _ hindex).2.1 rfl hid]
  · intro h
    have hindexed : ∀ key j, db.records key = some j → j.id ≠ "" →
      db.index (key.workspace, j.id) = some key :=
      fun key j hj hid => (h _ _ key).mpr ⟨hid, rfl, j, hj, rfl⟩
    refine ⟨fun ws id key => (h ws id key).mp, fun key j hj hid => ?_,
      fun key key' j j' hj hj' hws hid hne => ?_⟩
    · simp [Db.getJudgmentByID, hdefault key j hj, hindexed key j hj hid, hj, (hk key j hj).1]
    · have hindex := hindexed key j hj hne
      rw [hws, hid, hindexed key' j' hj' (hid ▸ hne)] at hindex
      exact (some.inj hindex).symm

/-! ## Saving -/

/-- The chosen key names the judgment, and what stands under it is an older
version of the same judgment. -/
theorem Db.Keyed.primaryKey (hk : db.Keyed) (j : Judgment) :
    (db.primaryKey j).workspace = j.workspaceID ∧
    (∀ id, (db.primaryKey j).id = some id → j.id = id) ∧
      ∀ j', db.records (db.primaryKey j) = some j' → j'.id = j.id := by
  unfold Db.primaryKey
  dsimp only
  split
  · rename_i hsame
    refine ⟨rfl, nofun, fun j' hj' => ?_⟩
    rw [hj'] at hsame
    simpa using hsame
  · exact ⟨rfl, fun id hid => some.inj hid, fun j' hj' => (hk _ j' hj').2.2 j.id rfl⟩

/-- No record of the judgment lives under another key. -/
def Db.Sole (db : Db) (j : Judgment) : Prop :=
  ∀ key j', db.records key = some j' → key.workspace = j.workspaceID → j'.id = j.id →
    key = db.primaryKey j

/-- **A save keeps the agreement** exactly if the judgment has no other record. -/
theorem Db.Linked.putMany_iff (h : db.Linked) (hk : db.Keyed) (hid : j.id ≠ "") :
    (db.putMany (db.primaryKey j) j).Linked ↔ db.Sole j := by
  have hkey := hk.primaryKey j
  unfold Db.Linked Db.putMany at *
  simp only [update_apply]
  constructor
  · intro h' key j' hj' hws hsame
    by_contra hne
    have hindex := (h' j.workspaceID j.id key).mpr ⟨hid, hws, j', by rw [if_neg hne, hj'], hsame⟩
    rw [if_pos rfl] at hindex
    exact hne (some.inj hindex).symm
  · -- an index key of another judgment does not lead to the key written
    intro hsole ws id key
    unfold Db.Sole at hsole
    grind

/-! ## Purging -/

/-- The deletion of the record leaves no index key behind. -/
def Db.Clean (db : Db) (cutoff : ℤ) (key : Primary) : Prop :=
  ∀ j, db.records key = some j → key.time < cutoff → j.id = ""

/-- **A purge keeps the agreement** exactly if it does not crash between its
deletions. -/
theorem Db.Linked.purge_iff (h : db.Linked) (cutoff : ℤ) (key : Primary) (crash : Bool) :
    (db.purge cutoff key crash).Linked ↔ (crash = true → db.Clean cutoff key) := by
  unfold Db.Clean Db.purge
  cases hj : db.records key with
  | none => simpa using h
  | some j =>
    by_cases hold : key.time < cutoff
    · have hindex : j.id ≠ "" → db.index (key.workspace, j.id) = some key :=
        fun hid => (h _ _ key).mpr ⟨hid, rfl, j, hj, rfl⟩
      by_cases hkept : crash = true ∨ j.id = ""
      · -- the index key stays, and leads to the record if it has an ID
        have hiff : (⟨update db.records key none, db.index⟩ : Db).Linked ↔ j.id = "" := by
          unfold Db.Linked at *
          simp only [update_apply]
          refine ⟨fun h' => ?_, fun hid ws id key' => by grind⟩
          by_contra hid
          simpa using ((h' _ _ key).mp (hindex hid)).2.2
        simp only [hold, hkept, not_true_eq_false, if_false, if_true, hiff]
        grind
      · have hboth : (⟨update db.records key none,
          update db.index (key.workspace, j.id) none⟩ : Db).Linked := by
          unfold Db.Linked at *
          simp only [update_apply]
          intro ws id key'
          grind
        simp only [hold, hkept, not_true_eq_false, if_false, hboth]
        grind
    · simpa [hold] using h

/-! ## Runs -/

/-- The names a judgment is given are not empty. -/
def Db.Event.Named : Db.Event → Prop
  | .save ctx generated _ => ctx ≠ some "" ∧ generated ≠ ""
  | .purge .. => True

/-- **The condition**: no judgment is saved while a record of it lives under
another key, and no purge crashes between its deletions. -/
def Db.Event.Meets (db : Db) : Db.Event → Prop
  | .save ctx generated j =>
    '/' ∉ (j.filled ctx generated).id.toList → db.Sole (j.filled ctx generated)
  | .purge cutoff key crash => crash = true → db.Clean cutoff key

theorem filled_named {ctx : Option String} {generated : String} (hctx : ctx ≠ some "")
    (hid : generated ≠ "") :
    (j.filled ctx generated).workspaceID ≠ "" ∧ (j.filled ctx generated).id ≠ "" := by
  unfold Judgment.filled
  dsimp only
  constructor
  · split
    · cases ctx with
      | none => decide
      | some => exact fun hws => hctx (congrArg some hws)
    · assumption
  · split <;> assumption

/-- The records stay named by their keys. -/
theorem Db.Keyed.step (hk : db.Keyed) {event : Db.Event} (hnamed : event.Named) :
    (db.step event).Keyed := by
  cases event with
  | save ctx generated j =>
    have hfilled := filled_named (j := j) hnamed.1 hnamed.2
    have hkey := hk.primaryKey (j.filled ctx generated)
    intro key j' hj'
    unfold Db.step Db.saveJudgment at hj'
    dsimp only at hj'
    split at hj'
    · exact hk key j' hj'
    · simp only [Db.putMany, update_apply] at hj'
      split at hj'
      · rename_i heq
        cases hj'
        exact heq ▸ ⟨hkey.1.symm, hkey.1 ▸ hfilled.1, hkey.2.1⟩
      · exact hk key j' hj'
  | purge =>
    refine fun key' j' hj' => hk key' j' ?_
    unfold Db.step Db.purge at hj'
    dsimp only at hj'
    split at hj'
    · exact hj'
    · split at hj'
      · exact hj'
      · simp only [update_apply] at hj'
        split at hj'
        · cases hj'
        · exact hj'

/-- **One event** keeps the agreement exactly if it meets the condition. -/
theorem Db.Agrees.step_iff (h : db.Agrees) (hk : db.Keyed) {event : Db.Event}
    (hnamed : event.Named) : (db.step event).Agrees ↔ event.Meets db := by
  have hlinked := hk.agrees_iff.mp h
  rw [(hk.step hnamed).agrees_iff]
  cases event with
  | purge cutoff key crash => exact hlinked.purge_iff cutoff key crash
  | save ctx generated j =>
    have hsave := hlinked.putMany_iff hk (filled_named (j := j) hnamed.1 hnamed.2).2
    unfold Db.step Db.saveJudgment Db.Event.Meets
    dsimp only
    split
    · rename_i hslash
      simp [hslash, hlinked]
    · rename_i hslash
      simpa [hslash] using hsave

/-- Index and record agree in every state of a run. -/
def Db.Throughout (db : Db) : List Db.Event → Prop
  | [] => db.Agrees
  | event :: events => db.Agrees ∧ (db.step event).Throughout events

/-- Every event of a run meets the condition in its state. -/
def Db.AllMeet (db : Db) : List Db.Event → Prop
  | [] => True
  | event :: events => event.Meets db ∧ (db.step event).AllMeet events

theorem Db.Throughout.agrees {events : List Db.Event} (h : db.Throughout events) : db.Agrees := by
  cases events with
  | nil => exact h
  | cons => exact h.1

/-- **Index and record agree throughout a run** of saves, purges and crashes
exactly if each of its events meets the condition. -/
theorem index_agrees_iff (hk : db.Keyed) (h : db.Agrees) (events : List Db.Event)
    (hnamed : ∀ event ∈ events, event.Named) : db.Throughout events ↔ db.AllMeet events := by
  induction events generalizing db with
  | nil => exact iff_of_true h trivial
  | cons event events ih =>
    have hevent := hnamed event (by simp)
    have hiff := h.step_iff hk hevent
    have ih' := fun hagrees => ih (hk.step hevent) hagrees fun event' h' =>
      hnamed event' (by simp [h'])
    exact ⟨fun hthrough => ⟨hiff.mp hthrough.2.agrees, (ih' hthrough.2.agrees).mp hthrough.2⟩,
      fun hall => ⟨h, (ih' (hiff.mpr hall.1)).mpr hall.2⟩⟩

/-- A store without judgments. -/
def emptyDb : Db := ⟨fun _ => none, fun _ => none⟩

theorem keyed_emptyDb : emptyDb.Keyed := nofun

theorem agrees_emptyDb : emptyDb.Agrees := ⟨nofun, nofun, nofun⟩

/-- The judgment `a` of a soul at a time. -/
def judgmentAt (timestamp : ℤ) : Judgment := ⟨"a", "w", "s", timestamp⟩

/-- A judgment is saved and purged. -/
theorem index_agrees_iff_saved :
    emptyDb.Throughout [.save none "g" (judgmentAt 1), .purge 2 ⟨"w", "s", 1, some "a"⟩ false] :=
  (index_agrees_iff keyed_emptyDb agrees_emptyDb _ (by simp [Db.Event.Named])).mpr ⟨fun _ =>
    nofun, nofun, trivial⟩

/-- **A judgment is saved again with a later time, and the old record is
purged**: the later record lives, and is not found. -/
theorem index_loses_resaved :
    let db := ((emptyDb.step (.save none "g" (judgmentAt 1))).step
      (.save none "g" (judgmentAt 3))).step
      (.purge 2 ⟨"w", "s", 1, some "a"⟩ false)
    db.records ⟨"w", "s", 3, some "a"⟩ = some (judgmentAt 3) ∧
    db.getJudgmentByID "w" "a" = none := by
  decide +kernel

end Anubis.Storage.Judgments
