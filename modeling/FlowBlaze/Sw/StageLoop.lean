import FlowBlaze.Sw.Isolation
import FlowBlaze.Sw.LoaderBounds
import Mathlib.Data.Fintype.Card
import Mathlib.Logic.Relation
/-!
# The loop over the stages

The worker as a machine that makes one step at a time: it takes a packet,
visits a stage, and goes on to the stage that the row names until there
is none. Rows are data of the program, so two things about them are not
checked by anyone: that the stage a row names is there, and that the rows
do not lead a packet round and round.
-/

namespace FlowBlaze

namespace Sw

open Common

/-! ## From the file to the worker -/

/-- The condition array of a table: where an id is missing, there is a
pointer that was never set. -/
def LoadedTable.conditionArray (T : LoadedTable) : Option (List XfsmCondition) :=
  (List.range T.conditionsNumber).mapM (conditionAt T.conditions)

/-- The call of `xfsm_table_create`. More than the arrays hold would be
written past their ends. -/
def LoadedTable.create (H : SlotMap FlowKey) (HE : SlotMap State) (T : LoadedTable) :
    Option (XfsmTable H HE) :=
  if T.conditionsNumber ≤ maxConditions ∧ T.lookupKey.length ≤ lookupKeySize ∧
      T.entries.length < 256 then
    T.conditionArray.bind fun conditions =>
      xfsmTableCreate H HE T.entries T.initialState
        (fun i => conditions[i.val]?.getD ⟨.other, .other, 0, 0, .xfsmLess⟩)
        (BitVec.ofNat 8 T.conditionsNumber)
        ⟨T.lookupKey.length, fun i => T.lookupKey[i.val]?.getD .srcMac, T.biflowNo.toNat⟩
  else none

/-- **The pipeline of a file**: what was loaded, and its tables. -/
def loadPipelineTables (H : SlotMap FlowKey) (HE : SlotMap State) (old : ℕ → TableMemory)
    (json : Option Json) : Option (List LoadedTable × List (XfsmTable H HE)) :=
  (loadTables old json).bind fun loaded =>
    (loaded.mapM (LoadedTable.create H HE)).map fun tables => (loaded, tables)

theorem create_of_load {H : SlotMap FlowKey} {HE : SlotMap State} {old : ℕ → TableMemory}
    {json : Option Json} {loaded : List LoadedTable} {tables : List (XfsmTable H HE)}
    (h : loadPipelineTables H HE old json = some (loaded, tables)) :
    loaded.mapM (LoadedTable.create H HE) = some tables := by
  obtain ⟨_, -, h⟩ := Option.bind_eq_some_iff.mp h
  obtain ⟨_, hcreate, h⟩ := Option.map_eq_some_iff.mp h
  cases h
  exact hcreate

/-- The worker before its first packet. -/
def Worker.start {H : SlotMap FlowKey} {HE : SlotMap State} (tables : List (XfsmTable H HE)) :
    Worker H HE :=
  ⟨fun stage => tables[stage]?, fun _ => 0, 0⟩

/-! ## Steps -/

/-- The worker, with the packet it has and the stage it is about to visit. -/
structure LoopState (H : SlotMap FlowKey) (HE : SlotMap State) where
  worker : Worker H HE
  packet : Option (Received × Packet × ℕ)

section Steps

variable {H : SlotMap FlowKey} {HE : SlotMap State}

/-- **An iteration that another follows**: the packet goes on to the stage
that a row names. -/
inductive LoopState.GoesOn : LoopState H HE → LoopState H HE → Prop
  | visit {W : Worker H HE} {rx : Received} {packet : Packet} {stage : ℕ} {V : Visited H HE}
    {next : Byte} : stage ≠ nullStage → W.visit rx packet stage = some V → V.next = some next →
      GoesOn ⟨W, some (rx, packet, stage)⟩ ⟨W.after stage V, some (rx, V.mem.packet, next.toNat)⟩

/-- **A step of the worker.** -/
inductive LoopState.Step : LoopState H HE → LoopState H HE → Prop
  | receive (W : Worker H HE) (rx : Received) :
    Step ⟨W, none⟩ ⟨{ W with received := W.received + 1 }, some (rx, ⟨W.received, rx.mbuf⟩, 0)⟩
  | goesOn {L L' : LoopState H HE} : L.GoesOn L' → Step L L'
  | leave {W : Worker H HE} {rx : Received} {packet : Packet} {stage : ℕ} {V : Visited H HE} :
    stage ≠ nullStage → W.visit rx packet stage = some V → V.next = none →
      Step ⟨W, some (rx, packet, stage)⟩ ⟨W.after stage V, none⟩
  | nullStage {W : Worker H HE} {rx : Received} {packet : Packet} :
    Step ⟨W, some (rx, packet, Sw.nullStage)⟩ ⟨W, none⟩

/-- The states of the runs of a worker that starts with these tables. -/
def Reachable (tables : List (XfsmTable H HE)) (L : LoopState H HE) : Prop :=
  Relation.ReflTransGen LoopState.Step ⟨.start tables, none⟩ L

variable {tables : List (XfsmTable H HE)} {L L' : LoopState H HE} {W : Worker H HE}
  {rx : Received} {packet : Packet} {stage : ℕ} {V : Visited H HE}

/-! ## What visits leave alone -/

/-- A visit is of a stage that is there. -/
theorem table_of_visit (h : W.visit rx packet stage = some V) :
    ∃ T, W.tables stage = some T ∧ T.visit (rx.mem packet) W.key = some V :=
  Option.bind_eq_some_iff.mp h

/-- The programs of the tables. -/
def Worker.programs (W : Worker H HE) : ℕ → Option (Program HE) :=
  fun stage => (W.tables stage).map XfsmTable.program

theorem programs_after (h : W.visit rx packet stage = some V) :
    (W.after stage V).programs = W.programs := by
  obtain ⟨T, hT, hvisit⟩ := table_of_visit h
  funext i
  change (Function.update W.tables stage (some V.table) i).map XfsmTable.program =
    (W.tables i).map XfsmTable.program
  by_cases hi : i = stage
  · rw [hi, Function.update_self, hT, Option.map_some, Option.map_some, program_visit hvisit]
  · rw [Function.update_of_ne hi]

theorem programs_goesOn (h : L.GoesOn L') : L'.worker.programs = L.worker.programs := by
  cases h with
  | visit _ hvisit _ => exact programs_after hvisit

/-- A step leaves the programs. -/
theorem programs_step (h : L.Step L') : L'.worker.programs = L.worker.programs := by
  cases h with
  | receive W rx => rfl
  | goesOn h => exact programs_goesOn h
  | leave _ hvisit _ => exact programs_after hvisit
  | nullStage => rfl

/-- **The programs of a run** are those loaded. -/
theorem programs_reachable (h : Reachable tables L) :
    L.worker.programs = (Worker.start tables).programs := by
  induction h with
  | refl => rfl
  | tail _ hstep ih => exact (programs_step hstep).trans ih

/-- A stage is there in a run exactly if it was loaded. -/
theorem isSome_tables_iff (h : Reachable tables L) :
    (L.worker.tables stage).isSome = true ↔ stage < tables.length := by
  have hprograms := congrFun (programs_reachable h) stage
  have hsame := congrArg Option.isSome hprograms
  unfold Worker.programs at hsame
  rw [Option.isSome_map, Option.isSome_map] at hsame
  rw [hsame]
  change tables[stage]?.isSome = true ↔ _
  rw [Option.isSome_iff_ne_none, ne_eq, List.getElem?_eq_none_iff, not_le]

/-! ## The rows that are executed -/

/-- Rows of a pool are rows of the table. -/
theorem mem_of_mem_pool {ε : Type} {entries : List ε} {list : List KeyNode} {E : Entries HE ε}
    (hE : ∀ pos, ∀ row ∈ (E.stateEntriesPool pos).tableEntries, row ∈ entries) (pos : ℕ) :
    ∀ row ∈ ((fillPool HE entries E list).stateEntriesPool pos).tableEntries, row ∈ entries := by
  induction list generalizing E with
  | nil => exact hE pos
  | cons n list ih =>
    unfold fillPool
    cases HE.add E.entriesHmap n.key with
    | mk hmap place =>
      cases place with
      | none => exact hE pos
      | some place =>
        refine ih fun p row hrow => ?_
        by_cases hp : p = place
        · simp only [hp, Function.update_self] at hrow
          obtain ⟨i, -, hi⟩ := List.mem_filterMap.mp hrow
          exact List.mem_of_getElem? hi
        · simp only [Function.update_of_ne hp] at hrow
          exact hE p row hrow

/-- **A row that is looked up** is one of the table's. -/
theorem mem_of_lookup {entries : List XfsmTableEntry} {E : Entries HE XfsmTableEntry}
    (hE : createEntries HE entries XfsmTableEntry.currentState = some E) {n : ℕ} {s : State}
    {results : Results} {row : XfsmTableEntry}
    (h : xfsmTableLookup E XfsmTableEntry.results n s results = some (some row)) :
    row ∈ entries := by
  obtain ⟨list, -, rfl⟩ := Option.map_eq_some_iff.mp hE
  unfold xfsmTableLookup at h
  split at h
  · next rows hrows =>
    obtain ⟨pos, -, rfl⟩ := Option.map_eq_some_iff.mp hrows
    exact mem_of_mem_pool (fun p r hr => by cases hr) pos row (mem_of_scanBucket h)
  · cases h

/-- The next stage is named by the row that was looked up. -/
theorem row_of_visit {T : XfsmTable H HE} {M : Mem} {key : FlowKey} {next : Byte}
    (h : T.visit M key = some V) (hnext : V.next = some next) :
    ∃ row s results, V.row = some row ∧ row.nextStage = next ∧
      xfsmTableLookup T.program.entries XfsmTableEntry.results T.program.nbConditions s results =
        some (some row) := by
  obtain ⟨R, hprepare, h⟩ := Option.bind_eq_some_iff.mp h
  obtain ⟨row, hlookup, h⟩ := Option.bind_eq_some_iff.mp h
  rw [← program_prepare hprepare]
  cases row with
  | none =>
    cases h
    cases hnext
  | some row =>
    obtain ⟨X, -, rfl⟩ := Option.map_eq_some_iff.mp h
    refine ⟨row, R.matchInst.currentState, R.matchInst.results, ?_, ?_, hlookup⟩
    · split <;> rfl
    · split at hnext
      · cases hnext
      · exact Option.some.inj hnext

/-- **The rows executed are those of the file.** -/
theorem mem_of_goesOn {loaded : List LoadedTable}
    (hcreate : loaded.mapM (LoadedTable.create H HE) = some tables) (h : Reachable tables L)
    (hvisit : L.worker.visit rx packet stage = some V) {next : Byte} (hnext : V.next = some next) :
    ∃ T row, loaded[stage]? = some T ∧ row ∈ T.entries ∧ V.row = some row ∧
      row.nextStage = next := by
  obtain ⟨table, htable, hvisit⟩ := table_of_visit hvisit
  obtain ⟨row, s, results, hrow, hstage, hlookup⟩ := row_of_visit hvisit hnext
  have hprograms := congrFun (programs_reachable h) stage
  unfold Worker.programs at hprograms
  rw [htable, Option.map_some] at hprograms
  obtain ⟨created, hcreated, hprogram⟩ := Option.map_eq_some_iff.mp hprograms.symm
  have hcreated : tables[stage]? = some created := hcreated
  have hmap := congrArg (fun l : List (Option (XfsmTable H HE)) => l[stage]?)
    (mapM_eq_some_iff.mp hcreate)
  simp only [List.getElem?_map, hcreated, Option.map_some] at hmap
  obtain ⟨T, hT, hTcreate⟩ := Option.map_eq_some_iff.mp hmap
  refine ⟨T, row, hT, ?_, hrow, hstage⟩
  unfold LoadedTable.create at hTcreate
  split at hTcreate
  · obtain ⟨conditions, -, hTcreate⟩ := Option.bind_eq_some_iff.mp hTcreate
    obtain ⟨E, hE, rfl⟩ := Option.map_eq_some_iff.mp hTcreate
    rw [← hprogram] at hlookup
    exact mem_of_lookup hE hlookup
  · cases hTcreate

/-! ## The stage index -/

/-- A stage the worker may visit: the table pointer there is set, and in
the array. -/
def StageInRange (tables : List (XfsmTable H HE)) (L : LoopState H HE) : Prop :=
  ∀ rx packet stage, L.packet = some (rx, packet, stage) → stage ≠ nullStage →
    stage < tables.length ∧ stage < maxStages ∧ (L.worker.tables stage).isSome = true

/-- The next stage of a row: none, or one that was loaded. -/
def NamesLoaded (tables : List (XfsmTable H HE)) (row : XfsmTableEntry) : Prop :=
  row.nextStage.toNat ≠ nullStage →
    row.nextStage.toNat < tables.length ∧ row.nextStage.toNat < maxStages

/-- **The row executed names a loaded stage**, in every visit after which
the packet goes on. -/
def ExecutesLoaded (tables : List (XfsmTable H HE)) (L : LoopState H HE) : Prop :=
  ∀ rx packet stage V row next, L.packet = some (rx, packet, stage) → stage ≠ nullStage →
    L.worker.visit rx packet stage = some V → V.row = some row → V.next = some next →
      NamesLoaded tables row

/-- **The stage index stays in range in every run** exactly if there is a
stage and the rows executed name loaded stages. -/
theorem stageInRange_iff {loaded : List LoadedTable} {old : ℕ → TableMemory} {json : Option Json}
    (h : loadPipelineTables H HE old json = some (loaded, tables)) :
    (∀ L, Reachable tables L → StageInRange tables L) ↔
      tables ≠ [] ∧ ∀ L, Reachable tables L → ExecutesLoaded tables L := by
  have hcreate := create_of_load h
  constructor
  · intro hrange
    refine ⟨fun hnil => ?_, fun L hL rx packet stage V row next hpacket hstage hvisit hrow hnext
      hloaded => ?_⟩
    · have hfirst := hrange _ (.tail .refl (.receive _ ⟨0, 0, ⟨[], 0, 0⟩⟩)) _ _ 0 rfl (by decide)
      rw [hnil] at hfirst
      exact absurd hfirst.1 (Nat.not_lt_zero 0)
    · obtain ⟨_, row', -, -, hrow', rfl⟩ := mem_of_goesOn hcreate hL hvisit hnext
      obtain rfl : row = row' := Option.some.inj (hrow.symm.trans hrow')
      obtain ⟨W, packet'⟩ := L
      cases hpacket
      obtain ⟨hlength, hmax, -⟩ := hrange _ (.tail hL (.goesOn (.visit hstage hvisit hnext))) _ _ _
        rfl hloaded
      exact ⟨hlength, hmax⟩
  · rintro ⟨hne, hexecutes⟩ L hL rx packet stage hpacket hstage
    -- the stage is the first, or a row of the visit before has named it
    have hbound : stage < tables.length ∧ stage < maxStages := by
      cases hL with
      | refl => cases hpacket
      | tail hL' hstep =>
        cases hstep with
        | receive W rx =>
          cases hpacket
          exact ⟨List.length_pos_of_ne_nil hne, by decide⟩
        | goesOn hgoes =>
          cases hgoes with
          | visit hstage' hvisit hnext =>
            cases hpacket
            obtain ⟨_, row, -, -, hrow, rfl⟩ := mem_of_goesOn hcreate hL' hvisit hnext
            exact hexecutes _ hL' _ _ _ _ _ _ rfl hstage' hvisit hrow hnext hstage
        | leave _ _ _ => cases hpacket
        | nullStage => cases hpacket
    exact ⟨hbound.1, hbound.2, (isSome_tables_iff hL).mpr hbound.1⟩

/-- Rows that all name loaded stages. -/
theorem executesLoaded_of_rows {loaded : List LoadedTable}
    (hcreate : loaded.mapM (LoadedTable.create H HE) = some tables)
    (hrows : ∀ T ∈ loaded, ∀ row ∈ T.entries, NamesLoaded tables row) (h : Reachable tables L) :
    ExecutesLoaded tables L := by
  intro rx packet stage V row next hpacket hstage hvisit hrow hnext
  obtain ⟨T, row', hT, hmem, hrow', -⟩ := mem_of_goesOn hcreate h hvisit hnext
  obtain rfl : row = row' := Option.some.inj (hrow.symm.trans hrow')
  exact hrows T (List.mem_of_getElem? hT) row hmem

end Steps

/-! ## A stage that names another -/

/-- A table with a condition that holds and a row for it, which names a
stage. -/
def tableNaming (stage : String) : Json :=
  .object
    [("conditions", .array [.object [("id", .string "0"), ("opcode", .string "XTRA_EQUAL"),
      ("op0", .object [("type", .string "XTRA_INTEGER_CONST"), ("value", .string "0")]),
      ("op1", .object [("type", .string "XTRA_INTEGER_CONST"), ("value", .string "0")])]]),
      ("initial_state", .string "0"),
      ("table_rows", .array [.object [("state", .string "0"), ("next_state", .string "0"),
        ("next_stage", .string stage)]])]

/-- A pipeline of these tables. -/
def pipelineOf (tables : List Json) :
    Option (List LoadedTable ×
      List (XfsmTable (listSlotMap FlowKey) (listSlotMap State))) :=
  loadPipelineTables _ _ (fun _ => zeroMemory)
    (some (.object [("stages", .array (tables.map fun table => .object [("table", table)]))]))

/-- A packet of zeros, long enough for its headers. -/
def zeroFrame : Received := ⟨1, 0, ⟨List.replicate 24 0, 0, 0⟩⟩

/-- A stage that leads back to itself. -/
theorem stageInRange_one :
    ∃ loaded tables, pipelineOf [tableNaming "0"] = some (loaded, tables) ∧
      ∀ L, Reachable tables L → StageInRange tables L := by
  have hall : (pipelineOf [tableNaming "0"]).map (fun p =>
      (p.2.length, p.1.all fun T => T.entries.all fun row => decide (row.nextStage = 0))) =
        some (1, true) := by
    decide +kernel
  obtain ⟨⟨loaded, tables⟩, hload, hpair⟩ := Option.map_eq_some_iff.mp hall
  obtain ⟨hlength, hrows⟩ := Prod.mk.inj hpair
  refine ⟨loaded, tables, hload, (stageInRange_iff hload).mpr ⟨fun hnil => ?_, fun L hL =>
    executesLoaded_of_rows (create_of_load hload) (fun T hT row hrow hne => ?_) hL⟩⟩
  · simp [hnil] at hlength
  · have hnext := List.all_eq_true.mp (List.all_eq_true.mp hrows T hT) row hrow
    rw [of_decide_eq_true hnext]
    exact ⟨by simp [hlength], by decide⟩

/-- **A stage that is not there**: the one stage of a file names the next
one, and the worker goes on to a pointer that was never set. -/
theorem not_stageInRange :
    ∃ loaded tables, pipelineOf [tableNaming "1"] = some (loaded, tables) ∧
      ¬ ∀ L, Reachable tables L → StageInRange tables L := by
  have hrun : (pipelineOf [tableNaming "1"]).map (fun p => (p.2.length,
      ({ Worker.start p.2 with received := 1 }.visit zeroFrame ⟨0, zeroFrame.mbuf⟩ 0).map
        Visited.next)) = some (1, some (some 1)) := by
    decide +kernel
  obtain ⟨⟨loaded, tables⟩, hload, hpair⟩ := Option.map_eq_some_iff.mp hrun
  obtain ⟨hlength, hnext⟩ := Prod.mk.inj hpair
  obtain ⟨V, hvisit, hV⟩ := Option.map_eq_some_iff.mp hnext
  refine ⟨loaded, tables, hload, fun h => ?_⟩
  have hreceived : Reachable tables _ := .tail .refl (.receive _ zeroFrame)
  have hrange := h _ (.tail hreceived (.goesOn (.visit (by decide) hvisit hV))) _ _ 1 rfl
    (by decide)
  have hlength : tables.length = 1 := hlength
  omega

end Sw

end FlowBlaze
