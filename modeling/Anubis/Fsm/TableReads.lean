import Anubis.Fsm.Helpers.TableState

/-!
# A reader of one table waits long enough

`noteTable` is recorded before a command is applied, for every element of a
batch, and is kept when the command fails or is skipped. So within one process
the index of a table covers every entry applied since the floor, and the floor
covers the others: those applied before the process started, and those a
snapshot stood in for. `tableReadIndex` therefore leaves out no command of the
table, though it reads the two at different times: a node that has applied up to
it has the state of the table that it will have at the read index.
-/

namespace Anubis.Fsm

open List Option Node

variable {V : Type} {C : Codec V} {H : Hooks V} {log : CommittedLog V}

/-! ## The state machine notes the tables of an entry -/

namespace StorageFSM

variable {f : StorageFSM} {table : String} {index : ℕ}

@[simp]
theorem index_noteTable : (f.noteTable table index).index = f.index := by
  unfold noteTable
  split
  · rfl
  · split <;> rfl

theorem le_tableIndex_noteTable (t : String) :
    f.tableIndex t ≤ (f.noteTable table index).tableIndex t := by
  unfold noteTable
  split
  · exact le_rfl
  · split
    · next hlt =>
      by_cases ht : t = table
      · simp only [ht, if_true]
        exact hlt.le
      · simp only [ht, if_false]
        exact le_rfl
    · exact le_rfl

theorem noted (htable : table ≠ "") : index ≤ (f.noteTable table index).tableIndex table := by
  unfold noteTable
  rw [if_neg htable]
  split
  · simp
  · next hle => exact not_lt.mp hle

/-- Going through the elements of a batch. -/
theorem noteAll (batch : List (FSMCommand V)) (index : ℕ) (f : StorageFSM) :
    (batch.foldl (fun f cmd => f.noteTable cmd.table index) f).index = f.index ∧
    (∀ t, f.tableIndex t ≤
      (batch.foldl (fun f cmd => f.noteTable cmd.table index) f).tableIndex t) ∧
    ∀ cmd ∈ batch, cmd.table ≠ "" →
      index ≤ (batch.foldl (fun f cmd => f.noteTable cmd.table index) f).tableIndex cmd.table := by
  induction batch generalizing f with
  | nil => exact ⟨rfl, fun _ => le_rfl, by simp⟩
  | cons cmd batch ih =>
    obtain ⟨hindex, hmono, hnoted⟩ := ih (f.noteTable cmd.table index)
    refine ⟨hindex.trans index_noteTable, fun t => (le_tableIndex_noteTable t).trans (hmono t), ?_⟩
    intro c hc htable
    rcases mem_cons.mp hc with rfl | hc
    · exact (noted htable).trans (hmono _)
    · exact hnoted c hc htable

/-- What applying an entry does to the indexes. -/
structure Notes (C : Codec V) (f f' : StorageFSM) (e : LogEntry V) (ok : Bool) : Prop where
  index : f'.index = if ok then e.index else f.index
  mono : ∀ t, f.tableIndex t ≤ f'.tableIndex t
  noted : ∀ cmd ∈ e.commands C, cmd.table ≠ "" → e.index ≤ f'.tableIndex cmd.table

theorem applyCommand_notes (e : LogEntry V) (m : Medium V) (htype : e.type = .command) :
    Notes C f (f.applyCommand C H e m).2.1 e (f.applyCommand C H e m).1.isOk := by
  unfold applyCommand
  cases hdecode : C.decodeCommand e.data with
  | none => exact ⟨rfl, fun _ => le_rfl, by simp [LogEntry.commands, hdecode]⟩
  | some cmd =>
    dsimp only
    split
    · next hop =>
      have hcommands : e.commands C = [cmd] := by simp [LogEntry.commands, htype, hdecode, hop]
      have hnoted : ∀ c ∈ e.commands C, c.table ≠ "" →
          e.index ≤ (f.noteTable cmd.table e.index).tableIndex c.table := by
        intro c hc htable
        rw [hcommands, mem_singleton] at hc
        exact hc ▸ noted (hc ▸ htable)
      split
      · exact ⟨index_noteTable, le_tableIndex_noteTable, hnoted⟩
      · exact ⟨rfl, le_tableIndex_noteTable, hnoted⟩
    · next hop =>
      cases hbatch : C.decodeBatch cmd.value with
      | none =>
        refine ⟨rfl, fun _ => le_rfl, ?_⟩
        simp [LogEntry.commands, htype, hdecode, hop, hbatch, withOrigin]
      | some batch =>
        have hcommands : e.commands C = withOrigin cmd.origin batch := by
          simp [LogEntry.commands, htype, hdecode, hop, hbatch]
        obtain ⟨hindex, hmono, hnoted⟩ := noteAll (withOrigin cmd.origin batch) e.index f
        rw [← hcommands] at hindex hmono hnoted
        dsimp only
        rw [← hcommands]
        split
        · exact ⟨hindex, hmono, hnoted⟩
        · exact ⟨rfl, hmono, hnoted⟩

/-- **An entry that is not behind the machine is noted**, whatever becomes of
it. -/
theorem apply_notes (e : LogEntry V) (m : Medium V) (hlt : f.index < e.index) :
    Notes C f (f.apply C H e m).2.1 e (f.apply C H e m).1.isOk := by
  unfold apply
  rw [if_neg (not_le.mpr hlt)]
  have hnone : e.type ≠ .command → e.commands C = [] := fun h => if_neg h
  cases htype : e.type with
  | command => exact applyCommand_notes e m htype
  | configuration =>
    dsimp only
    unfold applyConfiguration
    split
    · exact ⟨rfl, fun _ => le_rfl, by simp [hnone, htype]⟩
    · exact ⟨rfl, fun _ => le_rfl, by simp [hnone, htype]⟩
  | noOp | membershipChange | other => exact ⟨rfl, fun _ => le_rfl, by simp [hnone, htype]⟩

end StorageFSM

/-! ## The invariant of a node -/

namespace Node

variable {n n' : Node V} {ev : Event V}

/-- How far entries have gone to the state machine. -/
def handed (n : Node V) : ℕ := if n.answer.isSome then n.lastApplied + 1 else n.lastApplied

/-- **The machine is not ahead of the node, and the entries above the floor are
noted.** -/
structure Covered (C : Codec V) (log : CommittedLog V) (n : Node V) : Prop where
  index_le : n.fsm.index ≤ if n.answer = some (.ok ()) then n.lastApplied + 1 else n.lastApplied
  noted : ∀ i, n.tableScopeFloor < i → i ≤ n.handed → ∀ cmd ∈ (log.entry i).commands C,
    cmd.table ≠ "" →
    i ≤ n.fsm.tableIndex cmd.table

theorem Covered.apply (h : Covered C log n) (hanswer : n.answer = none) (reads writes : List Bool) :
    Covered C log (n.apply C H log reads writes) := by
  have hindex : n.fsm.index ≤ n.lastApplied := by simpa [hanswer] using h.index_le
  have hle : ∀ (P : Prop) [Decidable P], n.lastApplied ≤ if P then n.lastApplied +
    1 else n.lastApplied := by
    intro P _
    split <;> omega
  have hhanded : n.handed = n.lastApplied := by simp [handed, hanswer]
  unfold Node.apply
  dsimp only
  split
  · next hmember =>
    constructor
    · exact hindex.trans (hle _)
    · intro i hfloor hi cmd hcmd htable
      rcases Nat.lt_or_ge n.lastApplied i with hlt | hge
      · -- a membership change carries no command
        have hi' : i = n.lastApplied + 1 := by
          simp only [handed, isSome_some, if_true] at hi
          omega
        have hnone : (log.entry i).commands C = [] := by
          rw [hi']
          exact if_neg (by simp [hmember])
        rw [hnone] at hcmd
        cases hcmd
      · exact h.noted i hfloor (hhanded ▸ hge) cmd hcmd htable
  · obtain ⟨hidx, hmono, hnoted⟩ := StorageFSM.apply_notes (C := C) (H := H) (f := n.fsm)
      (log.entry (n.lastApplied + 1)) { n.store with reads := reads, writes := writes }
      (Nat.lt_succ_of_le hindex)
    generalize n.fsm.apply C H (log.entry (n.lastApplied + 1))
      { n.store with reads := reads, writes := writes } = r
      at hidx hmono hnoted
    constructor
    · dsimp only
      rw [hidx]
      cases hr : r.1 with
      | ok => simp [Except.map, Except.isOk, Except.toBool, CommittedLog.entry]
      | error => simpa [Except.map, Except.isOk, Except.toBool] using hindex
    · intro i hfloor hi cmd hcmd htable
      rcases Nat.lt_or_ge n.lastApplied i with hlt | hge
      · have hi' : i = n.lastApplied + 1 := by
          simp only [handed, isSome_some, if_true] at hi
          omega
        subst hi'
        exact hnoted cmd hcmd htable
      · exact (h.noted i hfloor (hhanded ▸ hge) cmd hcmd htable).trans (hmono _)

theorem Covered.proceed (h : Covered C log n) {answer : Except ApplyError Unit}
    (hanswer : n.answer = some answer)
    (persisted : Bool) : Covered C log (n.proceed persisted answer) := by
  have hhanded : n.handed = n.lastApplied + 1 := by simp [handed, hanswer]
  have hbelow : ∀ i, n.tableScopeFloor < i → i ≤ n.lastApplied → ∀ cmd ∈ (log.entry i).commands C,
    cmd.table ≠ "" →
      i ≤ n.fsm.tableIndex cmd.table := fun i hfloor hi =>
        h.noted i hfloor (hhanded ▸ Nat.le_succ_of_le hi)
  have hindex := h.index_le
  cases answer with
  | ok =>
    refine ⟨by simpa [Node.proceed, hanswer] using hindex, fun i hfloor hi => h.noted i hfloor ?_⟩
    rw [hhanded]
    simpa [handed, Node.proceed] using hi
  | error =>
    have hle : n.fsm.index ≤ n.lastApplied := by simpa [hanswer] using hindex
    unfold Node.proceed
    dsimp only
    split
    · exact ⟨by simpa using hle, hbelow⟩
    · split
      · refine ⟨by simp [StorageFSM.setLastApplied], fun i hfloor hi => h.noted i hfloor ?_⟩
        rw [hhanded]
        simpa [handed] using hi
      · exact ⟨by simpa using hle, hbelow⟩

theorem Covered.installSnapshot (h : Covered C log n) (hanswer : n.answer = none) {index : ℕ}
    (hlt : n.lastApplied < index) (kv : Storage.GoMap V) (restored : Bool) :
    Covered C log (n.installSnapshot index kv restored) := by
  unfold Node.installSnapshot
  cases restored with
  | false => exact ⟨h.index_le, h.noted⟩
  | true =>
    simp only [if_true, if_pos hlt]
    refine ⟨by simp [StorageFSM.setLastApplied, hanswer], fun i hfloor hi => ?_⟩
    -- the snapshot is at the floor, and nothing has been applied above it
    simp only [handed, hanswer, isSome_none, Bool.false_eq_true, if_false] at hi
    dsimp only at hfloor
    split at hfloor <;> omega

theorem Covered.start (stores : Stores V) (stateIsDurable : Bool) :
    Covered C log (start stores stateIsDurable) := by
  have hanswer : (restoreLatestSnapshot stores stateIsDurable).answer = none := by
    unfold restoreLatestSnapshot
    dsimp only
    split
    · rfl
    · split
      · rfl
      · split <;> rfl
  constructor
  · simp only [Node.start, hanswer, reduceCtorEq, if_false]
    unfold restoreLatestSnapshot
    dsimp only
    split
    · exact Nat.zero_le _
    · split
      · exact Nat.zero_le _
      · split <;> exact le_rfl
  · intro i hfloor hi
    simp only [handed, Node.start, hanswer, isSome_none, Bool.false_eq_true, if_false] at hi hfloor
    omega

/-- **Every event keeps it.** -/
theorem Covered.step (h : Covered C log n) (hstep : n.step C H log ev = some n') :
    Covered C log n' := by
  cases ev with
  | apply reads writes =>
    simp only [Node.step, isNone_iff_eq_none] at hstep
    split at hstep
    · next hanswer =>
      cases hstep
      exact h.apply hanswer reads writes
    · cases hstep
  | proceed persisted =>
    simp only [Node.step, map_eq_some_iff] at hstep
    obtain ⟨answer, hanswer, rfl⟩ := hstep
    exact h.proceed hanswer persisted
  | installSnapshot index kv restored =>
    simp only [Node.step, isNone_iff_eq_none] at hstep
    split at hstep
    · next hcond =>
      cases hstep
      exact h.installSnapshot hcond.1 hcond.2 kv restored
    · cases hstep
  | restart stores stateIsDurable =>
    cases hstep
    exact Covered.start stores stateIsDurable

theorem Covered.init : Covered C log ({} : Node V) :=
  ⟨Nat.zero_le _, fun i hfloor hi => by simp [handed] at hfloor hi; omega⟩

/-- The states of a node that applies the log. -/
abbrev Reachable (C : Codec V) (H : Hooks V) (log : CommittedLog V) : Node V → Prop :=
  Runs.Reachable (fun n ev => n.step C H log ev) (fun _ => True) {}

/-- The states a process comes to later on. -/
abbrev Later (C : Codec V) (H : Hooks V) (log : CommittedLog V) (n : Node V) : Node V → Prop :=
  Runs.Reachable (fun n ev => n.step C H log ev) Event.SameProcess n

theorem Reachable.covered (h : Reachable C H log n) : Covered C log n :=
  h.invariant Covered.init fun _ _ _ _ hcovered _ hstep => hcovered.step hstep

/-! ## A process forgets nothing -/

/-- Nothing that a read looks at gets smaller. -/
structure Grows (n n' : Node V) : Prop where
  lastApplied : n.lastApplied ≤ n'.lastApplied
  floor : n.tableScopeFloor ≤ n'.tableScopeFloor
  tableIndex : ∀ t, n.fsm.tableIndex t ≤ n'.fsm.tableIndex t

theorem Grows.refl (n : Node V) : Grows n n := ⟨le_rfl, le_rfl, fun _ => le_rfl⟩

theorem Grows.trans {n'' : Node V} (h : Grows n n') (h' : Grows n' n'') : Grows n n'' where
  lastApplied := h.lastApplied.trans h'.lastApplied
  floor := h.floor.trans h'.floor
  tableIndex t := (h.tableIndex t).trans (h'.tableIndex t)

theorem Grows.apply (h : Covered C log n) (hanswer : n.answer = none) (reads writes : List Bool) :
    Grows n (n.apply C H log reads writes) := by
  have hindex : n.fsm.index ≤ n.lastApplied := by simpa [hanswer] using h.index_le
  unfold Node.apply
  dsimp only
  split
  · exact ⟨le_rfl, le_rfl, fun _ => le_rfl⟩
  · exact ⟨le_rfl, le_rfl, (StorageFSM.apply_notes _ _ (Nat.lt_succ_of_le hindex)).mono⟩

theorem Grows.proceed (persisted : Bool) (answer : Except ApplyError Unit) :
    Grows n (n.proceed persisted answer) := by
  unfold Node.proceed
  split
  · exact ⟨Nat.le_succ _, le_rfl, fun _ => le_rfl⟩
  · split
    · exact ⟨le_rfl, le_rfl, fun _ => le_rfl⟩
    · split
      · exact ⟨Nat.le_succ _, le_rfl, fun _ => le_rfl⟩
      · exact ⟨le_rfl, le_rfl, fun _ => le_rfl⟩

theorem Grows.installSnapshot {index : ℕ} (kv : Storage.GoMap V) (restored : Bool) :
    Grows n (n.installSnapshot index kv restored) := by
  unfold Node.installSnapshot
  cases restored with
  | false => exact ⟨le_rfl, le_rfl, fun _ => le_rfl⟩
  | true =>
    simp only [if_true]
    refine ⟨?_, ?_, fun _ => le_rfl⟩
    · dsimp only
      split <;> omega
    · dsimp only
      split <;> omega

theorem Grows.step (h : Covered C log n) (hev : ev.SameProcess)
    (hstep : n.step C H log ev = some n') : Grows n n' := by
  cases ev with
  | apply reads writes =>
    simp only [Node.step, isNone_iff_eq_none] at hstep
    split at hstep
    · next hanswer =>
      cases hstep
      exact .apply h hanswer reads writes
    · cases hstep
  | proceed persisted =>
    simp only [Node.step, map_eq_some_iff] at hstep
    obtain ⟨answer, -, rfl⟩ := hstep
    exact .proceed persisted answer
  | installSnapshot index kv restored =>
    simp only [Node.step] at hstep
    split at hstep
    · cases hstep
      exact .installSnapshot kv restored
    · cases hstep
  | restart => exact hev.elim

/-- **What a process has noted it keeps**, for as long as it runs. -/
theorem Later.grows (h : Covered C log n) (hlater : Later C H log n n') : Covered C log n' ∧
    Grows n n' := by
  induction hlater with
  | init => exact ⟨h, .refl n⟩
  | step _ hev hstep ih => exact ⟨ih.1.step hstep, ih.2.trans (.step ih.1 hev hstep)⟩

end Node

/-! ## Reads -/

/-- The states of a node that goes on applying entries, and none above an index. -/
abbrev Node.Applying (C : Codec V) (H : Hooks V) (log : CommittedLog V) (index : ℕ) (n : Node V) :
    Node V → Prop :=
  Runs.Reachable (fun n ev => n.stepTo C H log index ev) (fun _ => True) n

/-- Entries without commands of a table leave its state alone, whatever fails. -/
theorem Separate.applying {table : String} {owned : Storage.Key → Prop} {a r : ℕ}
    (hsep : Separate C H log table owned)
    (hnone : ∀ i, a < i → i ≤ r → ∀ cmd ∈ (log.entry i).commands C, cmd.table ≠ table)
    {n n' : Node V} (ha : a ≤ n.lastApplied) (h : Applying C H log r n n') :
    a ≤ n'.lastApplied ∧ SameOn owned n.store n'.store := by
  induction h with
  | init => exact ⟨ha, .refl _⟩
  | @step n₁ n₂ ev _ _ hstep ih =>
    obtain ⟨ha₁, hsame⟩ := ih
    cases ev with
    | apply reads writes =>
      simp only [stepTo, Node.step] at hstep
      split at hstep
      · next hlt =>
        split at hstep
        · cases hstep
          unfold Node.apply
          dsimp only
          split
          · exact ⟨ha₁, hsame⟩
          · have happly := hsep.apply (f := n₁.fsm) (hnone (n₁.lastApplied + 1) (by omega) hlt)
              { n₁.store with reads := reads, writes := writes }
            exact ⟨ha₁, hsame.trans happly⟩
        · cases hstep
      · cases hstep
    | proceed persisted =>
      simp only [stepTo, Node.step, map_eq_some_iff] at hstep
      obtain ⟨answer, -, rfl⟩ := hstep
      have hstore : (n₁.proceed persisted answer).store = n₁.store := by
        unfold Node.proceed
        split
        · rfl
        · split
          · rfl
          · split <;> rfl
      exact ⟨ha₁.trans (Grows.proceed persisted answer).lastApplied, hstore ▸ hsame⟩
    | installSnapshot | restart => cases hstep

/-- **A read of one table.** A node that has applied through `readIndex` reads the
floor, and after it the index of the table. What it returns is not above
`readIndex`, and no entry between the two carries a command of the table. So a
node with any history that has applied that far has the state of the table that
it has when it has gone on to `readIndex`. -/
theorem tableReadIndex_covers (C : Codec V) (H : Hooks V) (log : CommittedLog V) (table : String)
    (readIndex : ℕ) {n n₁ n₂ : Node V} (h : Reachable C H log n)
    (happlied : readIndex ≤ n.lastApplied) (h₁ : Later C H log n n₁) (h₂ : Later C H log n₁ n₂) :
    let index := tableReadIndex readIndex table n₁.tableScopeFloor (n₂.fsm.TableIndex table)
    index ≤ readIndex ∧
    (∀ i, index < i → i ≤ readIndex → ∀ cmd ∈ (log.entry i).commands C, cmd.table ≠ table) ∧
    ∀ owned, Separate C H log table owned → ∀ follower follower' : Node V,
      index ≤ follower.lastApplied → Applying C H log readIndex follower follower' →
      SameOn owned follower.store follower'.store := by
  intro index
  have hcovered := h.covered
  obtain ⟨hcovered₁, hgrows₁⟩ := Later.grows hcovered h₁
  obtain ⟨-, hgrows₂⟩ := Later.grows hcovered₁ h₂
  have hle : index ≤ readIndex := by
    show tableReadIndex _ _ _ _ ≤ readIndex
    unfold tableReadIndex
    split
    · exact le_rfl
    · exact min_le_right _ _
  have hnone : ∀ i, index < i → i ≤ readIndex →
      ∀ cmd ∈ (log.entry i).commands C, cmd.table ≠ table := by
    rintro i hlt hi cmd hcmd rfl
    have hindex : index = tableReadIndex readIndex cmd.table n₁.tableScopeFloor
        (n₂.fsm.TableIndex cmd.table) := rfl
    unfold tableReadIndex at hindex
    split at hindex
    · omega
    · next htable =>
      -- the entry is at or below the floor, or it was noted
      have hhanded : i ≤ n.handed := by
        unfold handed
        split <;> omega
      have hreach : i ≤ max (n₂.fsm.TableIndex cmd.table) n₁.tableScopeFloor := by
        rcases Nat.lt_or_ge n.tableScopeFloor i with hfloor | hfloor
        · have hnoted := hcovered.noted i hfloor hhanded cmd hcmd htable
          exact le_max_of_le_left
            (hnoted.trans ((hgrows₁.tableIndex cmd.table).trans (hgrows₂.tableIndex cmd.table)))
        · exact le_max_of_le_right (hfloor.trans hgrows₁.floor)
      have := le_min hreach hi
      omega
  exact ⟨hle, hnone, fun owned hsep follower follower' hfollower happlying =>
    (hsep.applying hnone hfollower happlying).2⟩

/-- A command under the name of its table. -/
def named (table : String) : FSMCommand String :=
  { op := .set, table := table, key := Storage.ascii table, value := some table }

/-- Commands whose text is their table. -/
def tableCodec : Codec String where
  size := String.length
  nilValue := none
  decodeCommand table := some (named table)
  decodeBatch _ := none

/-- One command of a table, and commands of none after it. -/
def oneChange : CommittedLog String where
  entries i := (.command, if i = 1 then "cluster-auth" else "")
  decodesMembership _ := true

theorem tableReadIndex_covers_oneChange :
    ∃ n, Reachable tableCodec {} oneChange n ∧ n.lastApplied = 2 ∧
      tableReadIndex 2 "cluster-auth" n.tableScopeFloor (n.fsm.TableIndex "cluster-auth") = 1 ∧
      ∀ follower follower' : Node String, 1 ≤ follower.lastApplied →
        Applying tableCodec {} oneChange 2 follower follower' →
        follower'.store.read (Storage.ascii "cluster-auth") =
          follower.store.read (Storage.ascii "cluster-auth") := by
  have hany : (Runs.run (fun (n : Node String) ev => n.step tableCodec {} oneChange ev) {}
      [.apply [] [], .proceed true, .apply [] [], .proceed true]).any
      (fun n => n.lastApplied = 2 && n.tableScopeFloor = 0 &&
        n.fsm.TableIndex "cluster-auth" = 1) = true := by
    decide
  obtain ⟨n, hrun, hn⟩ := Runs.exists_of_any hany
  simp only [Bool.and_eq_true, decide_eq_true_eq] at hn
  obtain ⟨⟨happlied, hfloor⟩, htable⟩ := hn
  have hreach : Reachable tableCodec {} oneChange n :=
    Runs.Reachable.init.of_run (fun _ _ => trivial) hrun
  have hindex : tableReadIndex 2 "cluster-auth" n.tableScopeFloor
      (n.fsm.TableIndex "cluster-auth") = 1 := by
    rw [hfloor, htable]
    rfl
  have hsep : Separate tableCodec {} oneChange "cluster-auth"
      (· = Storage.ascii "cluster-auth") := by
    refine ⟨fun i cmd hcmd htable _ => ?_, nofun, nofun, fun index heq => ?_⟩
    · have hcmd : cmd ∈ [named (if i = 1 then "cluster-auth" else "")] := hcmd
      obtain rfl := mem_singleton.mp hcmd
      by_cases hi : i = 1
      · exact absurd (congrArg (fun t => (named t).table) (if_pos hi)) htable
      · rw [if_neg hi]
        exact (by decide : ¬Storage.ascii "" = Storage.ascii "cluster-auth")
    · have hhead : some (114 : Storage.Byte) = some 99 := congrArg head? heq
      exact absurd hhead (by decide)
  obtain ⟨-, -, hfollower⟩ := tableReadIndex_covers tableCodec {} oneChange "cluster-auth" 2
    hreach happlied.ge Runs.Reachable.init Runs.Reachable.init
  rw [hindex] at hfollower
  exact ⟨n, hreach, happlied, hindex, fun follower follower' hle happlying =>
    hfollower _ hsep follower follower' hle happlying _ rfl⟩

end Anubis.Fsm
