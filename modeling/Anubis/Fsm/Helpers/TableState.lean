import Anubis.Fsm.Model.Machine
import Mathlib.Data.List.TakeWhile

/-!
# What commands of other tables leave alone

The state of a table is what the store holds under the keys of the table. An entry
without commands of the table leaves it as it is, whatever calls fail on the way:
what goes to the store as it is has other keys, and the handlers of other tables
keep to their own.
-/

namespace Anubis.Fsm

open List Option SortedAssoc
open Storage (Key GoMap)

variable {V : Type} {C : Codec V} {H : Hooks V} {owned : Key → Prop} {m m' m'' : Medium V}

/-- The store holds the same under the keys of a table. -/
def SameOn (owned : Key → Prop) (m m' : Medium V) : Prop :=
  ∀ key, owned key → m'.read key = m.read key

theorem SameOn.refl (m : Medium V) : SameOn owned m m := fun _ _ => rfl

theorem SameOn.trans (h : SameOn owned m m') (h' : SameOn owned m' m'') : SameOn owned m m'' :=
  fun key hkey => (h' key hkey).trans (h key hkey)

/-! ## Calls of the engine -/

theorem sameOn_write {change : GoMap V → GoMap V}
    (h : ∀ key, owned key → find key (change m.kv).1 = find key m.kv.1) :
    SameOn owned m (m.write change).2 := by
  unfold Medium.write
  split
  · exact .refl m
  · exact h

theorem find_erase {k key : Key} {l : List (Key × V)} (h : key ≠ k) :
    find key (erase k l) = find key l := by
  induction l with
  | nil => rfl
  | cons x l ih =>
    by_cases hx : x.1 = k
    · rw [find, if_neg fun heq => h (heq.symm.trans hx), ← ih]
      simp [erase, hx]
    · have hcons : erase k (x :: l) = x :: erase k l := by simp [erase, hx]
      rw [hcons, find, find, ih]

theorem find_assign {key : Key} {kv : GoMap V} {x : Key × Option V} (h : key ≠ x.1) :
    find key (assign C kv x).1 = find key kv.1 := by
  unfold assign
  split
  · exact (find_upsert kv.2).trans (if_neg h.symm)
  · exact find_erase h

theorem find_assignAll {key : Key} {xs : List (Key × Option V)} (h : ∀ x ∈ xs, key ≠ x.1)
    (kv : GoMap V) : find key (assignAll C kv xs).1 = find key kv.1 := by
  induction xs generalizing kv with
  | nil => rfl
  | cons x xs ih =>
    exact (ih (fun y hy => h y (mem_cons_of_mem _ hy)) _).trans (find_assign (h x mem_cons_self))

theorem sameOn_putMany {values : GoMap (Option V)} (h : ∀ x ∈ values.1, ¬owned x.1) :
    SameOn owned m (m.putMany C values).2 := by
  unfold Medium.putMany
  split
  · exact .refl m
  · exact sameOn_write fun key hkey => find_assignAll (fun x hx heq => h x hx (heq ▸ hkey)) _

theorem sameOn_delete {key : Key} (h : ¬owned key) : SameOn owned m (m.delete key).2 :=
  sameOn_write fun _ hk => find_erase fun heq => h (heq ▸ hk)

theorem sameOn_deleteEach {keys : List Key} (h : ∀ key ∈ keys, ¬owned key) (m : Medium V) :
    SameOn owned m (m.deleteEach keys).2 := by
  induction keys generalizing m with
  | nil => exact .refl m
  | cons key keys ih =>
    have hone := sameOn_delete (m := m) (h key mem_cons_self)
    unfold Medium.deleteEach
    split
    · next hdelete => rwa [hdelete] at hone
    · next hdelete =>
      rw [hdelete] at hone
      exact hone.trans (ih (fun k hk => h k (mem_cons_of_mem _ hk)) _)

theorem sameOn_reading : SameOn owned m m.reading.2 := SameOn.refl m

theorem sameOn_deletePrefix {start : Key} (h : ∀ key, start <+: key → ¬owned key) :
    SameOn owned m (m.deletePrefix start).2 := by
  have hread : SameOn owned m m.reading.2 := sameOn_reading
  unfold Medium.deletePrefix
  split
  · next heq => rwa [heq] at hread
  · next m' heq =>
    rw [heq] at hread
    refine hread.trans (sameOn_deleteEach (fun key hkey => h key ?_) m')
    exact isPrefixOf_iff_prefix.mp (mem_filter.mp hkey).2

/-! ## Commands -/

/-- A command that goes to the store as it is has no key of the table. -/
def FSMCommand.Avoids (owned : Key → Prop) (cmd : FSMCommand V) : Prop :=
  match cmd.op with
  | .deletePrefix => ∀ key, cmd.key <+: key → ¬owned key
  | _ => ¬owned cmd.key

theorem sameOn_applyFSMCommand {cmd : FSMCommand V} (h : cmd.Avoids owned) :
    SameOn owned m (m.applyFSMCommand C cmd).2 := by
  unfold FSMCommand.Avoids at h
  unfold Medium.applyFSMCommand
  cases hop : cmd.op with
  | set =>
    rw [hop] at h
    refine sameOn_write fun key hkey => find_assign fun heq => h ?_
    rwa [← show key = cmd.key from heq]
  | delete =>
    rw [hop] at h
    exact sameOn_delete h
  | deletePrefix =>
    rw [hop] at h
    have hread : SameOn owned m m.reading.2 := sameOn_reading
    dsimp only
    split
    · next heq => rwa [heq] at hread
    · next heq =>
      rw [heq] at hread
      exact hread.trans (sameOn_deletePrefix h)
  | batch | other => exact .refl m

theorem sameOn_fillSets {cmds : List (FSMCommand V)} {values : GoMap (Option V)} {size : ℕ}
    (hcmds : ∀ cmd ∈ cmds, ¬owned cmd.key) (hvalues : ∀ x ∈ values.1, ¬owned x.1)
    (m : Medium V) : SameOn owned m (m.fillSets C cmds values size).2 := by
  induction cmds generalizing values size m with
  | nil => exact sameOn_putMany hvalues
  | cons cmd cmds ih =>
    have hrest : ∀ c ∈ cmds, ¬owned c.key := fun c hc => hcmds c (mem_cons_of_mem _ hc)
    have hset : ∀ values : GoMap (Option V), (∀ x ∈ values.1, ¬owned x.1) →
        ∀ x ∈ (values.set cmd.key cmd.value).1, ¬owned x.1 := by
      intro values hvalues x hx
      rcases mem_upsert hx with rfl | hx
      · exact hcmds cmd mem_cons_self
      · exact hvalues x hx
    unfold Medium.fillSets
    dsimp only
    split
    · have hput := sameOn_putMany (C := C) (m := m) hvalues
      split
      · next heq => rwa [heq] at hput
      · next heq =>
        rw [heq] at hput
        exact hput.trans (ih hrest (hset _ (fun x hx => by cases hx)) _)
    · exact ih hrest (hset _ hvalues) _

/-! ## Entries -/

/-- **The tables keep apart**: the keys of the table are no keys of the configuration
and of commands of other tables, and the handlers of other tables do not touch
them. -/
structure Separate (C : Codec V) (H : Hooks V) (log : CommittedLog V) (table : String)
    (owned : Key → Prop) : Prop where
  stored : ∀ i, ∀ cmd ∈ (log.entry i).commands C, cmd.table ≠ table →
    cmd.table = "" ∨ H.handlers cmd.table = none → cmd.Avoids owned
  handlers : ∀ t h, H.handlers t = some h → t ≠ table → ∀ cmd m, SameOn owned m (h cmd m).2
  batchHandlers : ∀ t h, H.batchHandlers t = some h → t ≠ table →
    ∀ cmds m, SameOn owned m (h cmds m).2
  configuration : ∀ index, ¬owned (Storage.ascii "raft/config/" ++ Storage.decimal index)

namespace Separate

variable {log : CommittedLog V} {table : String} (hsep : Separate C H log table owned)
include hsep

/-- The commands of an entry that has none of the table. -/
theorem applyOne {cmd : FSMCommand V} (htable : cmd.table ≠ table)
    (hstored : cmd.table = "" ∨ H.handlers cmd.table = none → cmd.Avoids owned) :
    SameOn owned m (applyOne C H cmd m).2 := by
  unfold Fsm.applyOne
  by_cases hplain : cmd.table = ""
  · rw [if_pos hplain]
    exact sameOn_applyFSMCommand (hstored (.inl hplain))
  · rw [if_neg hplain]
    cases hhandler : H.handlers cmd.table with
    | none => exact sameOn_applyFSMCommand (hstored (.inr hhandler))
    | some handler => exact hsep.handlers _ handler hhandler htable cmd m

/-- The function of a run of a batch. -/
theorem runApply {cmd : FSMCommand V} {rest : List (FSMCommand V)}
    (hcmds : ∀ c ∈ cmd :: rest, c.table ≠ table ∧
      (c.table = "" ∨ H.handlers c.table = none → c.Avoids owned)) :
    SameOn owned m ((batchRun H (cmd :: rest)).2.apply C
      ((cmd :: rest).take (batchRun H (cmd :: rest)).1) m).2 := by
  simp only [batchRun]
  by_cases hbatch : cmd.op = .batch
  · rw [if_pos hbatch]
    exact .refl m
  rw [if_neg hbatch]
  by_cases htable : cmd.table ≠ ""
  · rw [if_pos htable]
    cases hhandler : H.batchHandlers cmd.table with
    | none => exact .refl m
    | some handler =>
      have hsame := hsep.batchHandlers _ handler hhandler (hcmds cmd mem_cons_self).1
        ((cmd :: rest).take
          (1 + (rest.takeWhile fun c => c.table = cmd.table && c.op ≠ .batch).length)) m
      dsimp only [Run.apply]
      split
      · next heq => rwa [heq] at hsame
      · next heq => rwa [heq] at hsame
  rw [if_neg htable]
  by_cases hplain : plainSet H cmd = true
  · rw [if_pos hplain]
    refine sameOn_fillSets (fun c hc => ?_) (forall_mem_nil _) m
    -- every element of the run is a plain set
    have hset : plainSet H c = true := by
      rw [Nat.add_comm, take_succ_cons] at hc
      rcases mem_cons.mp hc with rfl | hc
      · exact hplain
      · rw [← prefix_iff_eq_take.mp ( takeWhile_prefix (plainSet H))] at hc
        exact mem_takeWhile_imp hc
    have havoids := (hcmds c (mem_of_mem_take hc)).2
    simp only [plainSet, Bool.and_eq_true, decide_eq_true_eq, Bool.or_eq_true,
      isNone_iff_eq_none] at hset
    have hkey := havoids hset.2
    rwa [FSMCommand.Avoids, hset.1] at hkey
  · rw [if_neg hplain]
    exact .refl m

/-- The loop over a batch without commands of the table. -/
theorem applyElements {index rounds i : ℕ} {cmds applied : List (FSMCommand V)}
    (hcmds : ∀ c ∈ cmds, c.table ≠ table ∧
      (c.table = "" ∨ H.handlers c.table = none → c.Avoids owned)) (m : Medium V) :
    SameOn owned m (applyElements C H index rounds i cmds applied m).2 := by
  induction rounds generalizing i cmds applied m with
  | zero => cases cmds <;> exact .refl m
  | succ rounds ih =>
    cases cmds with
    | nil => exact .refl m
    | cons cmd rest =>
      have hrest : ∀ c ∈ rest, _ := fun c hc => hcmds c (mem_cons_of_mem _ hc)
      simp only [Fsm.applyElements]
      split
      · have hrun := hsep.runApply (m := m) hcmds
        split
        · next heq => rwa [heq] at hrun
        · next heq =>
          rw [heq] at hrun
          exact hrun.trans (ih (fun c hc => hcmds c (mem_of_mem_drop hc)) _)
      · have hone : SameOn owned m (applyElement C H cmd m).2 := by
          unfold applyElement
          split
          · exact .refl m
          · exact hsep.applyOne (hcmds cmd mem_cons_self).1 (hcmds cmd mem_cons_self).2
        split
        · next heq =>
          rw [heq] at hone
          exact hone.trans (ih hrest _)
        · next heq =>
          rw [heq] at hone
          split
          · exact hone
          · exact hone.trans (ih hrest _)

/-- **An entry without commands of the table leaves its state alone.** -/
theorem apply {f : StorageFSM} {i : ℕ}
    (hnone : ∀ cmd ∈ (log.entry i).commands C, cmd.table ≠ table) (m : Medium V) :
    SameOn owned m (f.apply C H (log.entry i) m).2.2 := by
  have hcmds : ∀ cmd ∈ (log.entry i).commands C, cmd.table ≠ table ∧
      (cmd.table = "" ∨ H.handlers cmd.table = none → cmd.Avoids owned) :=
    fun cmd hcmd => ⟨hnone cmd hcmd, hsep.stored i cmd hcmd (hnone cmd hcmd)⟩
  unfold StorageFSM.apply
  split
  · exact .refl m
  cases htype : (log.entry i).type with
  | command =>
    dsimp only
    unfold StorageFSM.applyCommand
    cases hdecode : C.decodeCommand (log.entry i).data with
    | none => exact .refl m
    | some cmd =>
      dsimp only
      split
      · next hop =>
        have hmem : cmd ∈ (log.entry i).commands C := by
          simp [LogEntry.commands, htype, hdecode, hop]
        have hone := hsep.applyOne (m := m) (hcmds cmd hmem).1 (hcmds cmd hmem).2
        split
        · next heq => rwa [heq] at hone
        · next heq => rwa [heq] at hone
      · next hop =>
        cases hbatch : C.decodeBatch cmd.value with
        | none => exact .refl m
        | some batch =>
          have hcommands : (log.entry i).commands C = StorageFSM.withOrigin cmd.origin batch := by
            simp [LogEntry.commands, htype, hdecode, hop, hbatch]
          rw [hcommands] at hcmds
          have hall : SameOn owned m
              (applyBatch C H (log.entry i).index (StorageFSM.withOrigin cmd.origin batch) m).2 :=
            hsep.applyElements hcmds m
          dsimp only
          split
          · next heq => rwa [heq] at hall
          · next heq => rwa [heq] at hall
  | configuration =>
    dsimp only
    have hput : SameOn owned m (m.put C (Storage.ascii "raft/config/" ++
        Storage.decimal (log.entry i).index) (some (log.entry i).data)).2 :=
      sameOn_write fun key hkey => find_assign fun heq =>
        hsep.configuration _ ((heq : key = _) ▸ hkey)
    unfold StorageFSM.applyConfiguration
    split
    · next heq => rwa [heq] at hput
    · next heq => rwa [heq] at hput
  | noOp | membershipChange | other => exact .refl m

end Separate

end Anubis.Fsm
