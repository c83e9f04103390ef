import FlowBlaze.Sw.Loader
import FlowBlaze.Sw.TableSpec
/-!
# Programs that fit — `loader.c`

The dataplane keeps everything in arrays of a fixed size, and indexes
registers with numbers out of the program. The loader looks at hardly any
of these bounds: it refuses more than sixteen results in a row and 255
conditions or more, and that is all. A second stage is refused too, by
accident: all tables are created under number 0, and the packet pool of
the second finds its name taken.

A program that the loader accepts fits the dataplane exactly where the
file keeps the bounds itself (`pipelineFits_iff`).
-/

namespace FlowBlaze

namespace Sw

open Common Json

/-! ## What fits -/

/-- An operand that is a register is one that there is. -/
structure InRange (type : XfsmValueType) (value : ℕ) : Prop where
  register : type = .xfsmRegister → value < numRegisters
  globalRegister : type = .xfsmGlobalRegister → value < numGlobalRegisters

/-- Both operands of a condition. -/
structure XfsmCondition.Fits (c : XfsmCondition) : Prop where
  op1 : InRange c.type1 c.value1.toNat
  op2 : InRange c.type2 c.value2.toNat

/-- All the operands that `xfsm_execute_actions` fetches, and where an
update goes. -/
structure XfsmAction.Fits (act : XfsmAction) : Prop where
  op1 : InRange act.type1 act.value1.toNat
  op2 : InRange act.type2 act.value2.toNat
  op3 : InRange act.type3 act.value3.toNat
  register : act.type = .xfsmUpdate → act.outType = .xfsmRegister →
    act.output.toNat < numRegisters
  globalRegister : act.type = .xfsmUpdate → act.outType ≠ .xfsmRegister →
    act.output.toNat < numGlobalRegisters

/-- **A table that respects the bounds** of the dataplane. -/
structure LoadedTable.Fits (T : LoadedTable) : Prop where
  conditions : T.conditionsNumber ≤ maxConditions
  conditionsFit : ∀ j < T.conditionsNumber, ∃ c, conditionAt T.conditions j = some c ∧ c.Fits
  tableSize : T.tableSize.toNat = T.entries.length
  actions : ∀ e ∈ T.entries, e.actions.length ≤ maxActions
  actionsFit : ∀ e ∈ T.entries, ∀ act ∈ e.actions, act.Fits
  rowsPerState : (groupRows (T.entries.map XfsmTableEntry.currentState)).isSome = true
  states : ∀ nodes, groupRows (T.entries.map XfsmTableEntry.currentState) = some nodes →
    nodes.length ≤ maxEntriesForeachState
  lookupKey : T.lookupKey.length ≤ lookupKeySize

/-- **A pipeline that respects the bounds** of the dataplane. -/
structure PipelineFits (tables : List LoadedTable) : Prop where
  stages : tables.length ≤ maxStages
  tablesFit : ∀ T ∈ tables, T.Fits

/-! ## What keeps the bounds -/

/-- An operand that names a register names one that there is. Registers
are read as numbers of `w` bits. -/
def NamesRegister (w : ℕ) (operand : Option Json) : Prop :=
  ∀ type (n : BitVec w), wordItem valueTypes "type" operand = some type →
    uintItem w "name" operand = some n → InRange type n.toNat

/-- The array of this name in an object. -/
def elements (name : String) (j : Option Json) : List Json := children (member name j)

/-- The operands of a condition. -/
structure ConditionKeeps (condition : Json) : Prop where
  op0 : NamesRegister 64 (member "op0" (some condition))
  op1 : NamesRegister 64 (member "op1" (some condition))

/-- The operands of an action. The third of a `XTRA_SETFIELD` is loaded,
that of an update is a destination. What is not loaded is what its memory
held, and it is fetched all the same. -/
structure ActionKeeps (old : ActionMemory) (action : Json) : Prop where
  op0 : NamesRegister 64 (member "op0" (some action))
  op1 : NamesRegister 64 (member "op1" (some action))
  op2 : (wordItem actionTypes "opcode" (some action)).map Prod.fst = some .xfsmSetfield →
    NamesRegister 64 (member "op2" (some action))
  out : (wordItem actionTypes "opcode" (some action)).map Prod.fst = some .xfsmUpdate →
    NamesRegister 8 (member "op2" (some action))
  memory : (wordItem actionTypes "opcode" (some action)).map Prod.fst ≠ some .xfsmSetfield →
    InRange old.record.type3 old.record.value3.toNat

/-- The states of the rows. -/
def rowStates (table : Option Json) : List State :=
  (elements "table_rows" table).filterMap fun row => uintItem 32 "state" (some row)

/-- How many of a row's actions are copied: their number is kept in
sixteen bits. -/
def copiedActions (row : Json) : ℕ := (elements "actions" (some row)).length % 2 ^ 16

/-- **A table in the file that keeps the bounds.** -/
structure TableKeeps (old : TableMemory) (table : Option Json) : Prop where
  conditions : (elements "conditions" table).length ≤ maxConditions
  ids : ∀ j < (elements "conditions" table).length, ∃ c ∈ elements "conditions" table,
    uintItem 32 "id" (some c) = some (BitVec.ofNat 32 j)
  operands : ∀ c ∈ elements "conditions" table, ConditionKeeps c
  rows : (elements "table_rows" table).length ≤ 255
  actions : ∀ row ∈ elements "table_rows" table, copiedActions row ≤ maxActions
  actionOperands : ∀ i row, (elements "table_rows" table)[i]? = some row →
    ∀ k action, k < copiedActions row → (elements "actions" (some row))[k]? = some action →
      ActionKeeps (old.actions i k) action
  rowsPerState : ∀ s, (nodeOf id (rowStates table) s).length ≤ maxEntriesForeachState
  states : (nodeKeys (rowStates table)).length ≤ maxEntriesForeachState
  lookupKey : (elements "flow_key" table).length ≤ lookupKeySize

/-- **A file that keeps the bounds**, in each of its stages. -/
def Keeps (old : ℕ → TableMemory) (json : Option Json) : Prop :=
  ∀ i stage, (elements "stages" json)[i]? = some stage →
    TableKeeps (old i) (member "table" (some stage))

/-! ## Operands -/

section Operands

variable {old : Word64} {operand : Option Json} {type : XfsmValueType} {value : Word64}
  {returned : BitVec 32} {output : Byte}

/-- An operand that is no register is in range. -/
theorem inRange_of_ne (hlocal : type ≠ .xfsmRegister) (hglobal : type ≠ .xfsmGlobalRegister)
    (n : ℕ) : InRange type n where
  register h := absurd h hlocal
  globalRegister h := absurd h hglobal

/-- **An operand that was read** is in range exactly where the file names a
register that there is. -/
theorem inRange_getOperand (h : getOperand old operand = some (type, value)) :
    InRange type value.toNat ↔ NamesRegister 64 operand := by
  unfold getOperand at h
  obtain ⟨type', htype, h⟩ := Option.bind_eq_some_iff.mp h
  have hnamed : ∀ (n : Word64), uintItem 64 "name" operand = some n →
      (InRange type' n.toNat ↔ NamesRegister 64 operand) := by
    intro n hn
    constructor
    · intro hr type'' n' htype' hn'
      rw [htype] at htype'
      rw [hn] at hn'
      cases htype'
      cases hn'
      exact hr
    · exact fun hr => hr type' n htype hn
  have hother : type' ≠ .xfsmRegister → type' ≠ .xfsmGlobalRegister →
      (InRange type' value.toNat ↔ NamesRegister 64 operand) := by
    intro hlocal hglobal
    refine iff_of_true (inRange_of_ne hlocal hglobal _) fun type'' n htype' _ => ?_
    rw [htype] at htype'
    cases htype'
    exact inRange_of_ne hlocal hglobal _
  cases type' with
  | xfsmRegister =>
    obtain ⟨n, hn, heq⟩ := Option.map_eq_some_iff.mp h
    cases heq
    exact hnamed _ hn
  | xfsmGlobalRegister =>
    obtain ⟨n, hn, heq⟩ := Option.map_eq_some_iff.mp h
    cases heq
    exact hnamed _ hn
  | xfsmConstant =>
    obtain ⟨n, -, heq⟩ := Option.map_eq_some_iff.mp h
    cases heq
    exact hother (by decide) (by decide)
  | xfsmHdrField =>
    obtain ⟨f, -, heq⟩ := Option.map_eq_some_iff.mp h
    cases heq
    exact hother (by decide) (by decide)
  | other =>
    cases h
    exact hother (by decide) (by decide)

/-- The same of a destination. -/
theorem inRange_getOutOperand (h : getOutOperand returned operand = some (type, output)) :
    ((type = .xfsmRegister → output.toNat < numRegisters) ∧
      (type ≠ .xfsmRegister → output.toNat < numGlobalRegisters)) ↔ NamesRegister 8 operand := by
  unfold getOutOperand at h
  obtain ⟨type', htype, h⟩ := Option.bind_eq_some_iff.mp h
  split at h
  · next hkind =>
    obtain ⟨n, hn, h⟩ := Option.bind_eq_some_iff.mp h
    split at h
    · cases h
    · cases h
      constructor
      · rintro ⟨hlocal, hglobal⟩ type' n' htype' hn'
        rw [htype] at htype'
        rw [hn] at hn'
        cases htype'
        cases hn'
        exact ⟨hlocal, fun htype => hglobal (by rw [htype]; decide)⟩
      · intro hnames
        obtain ⟨hlocal, hglobal⟩ := hnames type output htype hn
        exact ⟨hlocal, fun hne => hglobal (hkind.resolve_left hne)⟩
  · cases h

end Operands

/-! ## Conditions and actions -/

section Records

variable {old : XfsmCondition} {memory : ActionMemory} {json : Json} {id : BitVec 32}
  {c : XfsmCondition} {act : XfsmAction}

/-- A condition that was read has its id, and fits exactly where the file
keeps the bounds. -/
theorem readCondition_fits (h : readCondition old json = some (id, c)) :
    uintItem 32 "id" (some json) = some id ∧ (c.Fits ↔ ConditionKeeps json) := by
  unfold readCondition at h
  obtain ⟨id', hid, h⟩ := Option.bind_eq_some_iff.mp h
  obtain ⟨conditionType, -, h⟩ := Option.bind_eq_some_iff.mp h
  obtain ⟨op0, hop0, h⟩ := Option.bind_eq_some_iff.mp h
  obtain ⟨⟨type1, value1⟩, h1, h⟩ := Option.bind_eq_some_iff.mp h
  obtain ⟨op1, hop1, h⟩ := Option.bind_eq_some_iff.mp h
  obtain ⟨⟨type2, value2⟩, h2, h⟩ := Option.bind_eq_some_iff.mp h
  cases h
  refine ⟨hid, ?_⟩
  have hr1 := inRange_getOperand h1
  have hr2 := inRange_getOperand h2
  rw [← member_eq_of_item hop0] at hr1
  rw [← member_eq_of_item hop1] at hr2
  exact ⟨fun hc => ⟨hr1.mp hc.op1, hr2.mp hc.op2⟩, fun hk => ⟨hr1.mpr hk.op0, hr2.mpr hk.op1⟩⟩

/-- **What an action that was read has of the file**, and what of its
memory. -/
structure ActionRead (memory : ActionMemory) (action : Json) (act : XfsmAction) : Prop where
  type : (wordItem actionTypes "opcode" (some action)).map Prod.fst = some act.type
  op0 : getOperand memory.record.value1 (member "op0" (some action)) =
    some (act.type1, act.value1)
  op1 : getOperand memory.record.value2 (member "op1" (some action)) =
    some (act.type2, act.value2)
  op2 : act.type = .xfsmSetfield →
    getOperand memory.record.value3 (member "op2" (some action)) = some (act.type3, act.value3)
  out : act.type = .xfsmUpdate →
    getOutOperand memory.returned (member "op2" (some action)) = some (act.outType, act.output)
  memory : act.type ≠ .xfsmSetfield →
    act.type3 = memory.record.type3 ∧ act.value3 = memory.record.value3

/-- Each `case` of the `switch` loads its operands. -/
theorem actionRead_of_readAction (h : readAction memory json = some act) :
    ActionRead memory json act := by
  unfold readAction at h
  obtain ⟨⟨type, opcode⟩, hword, h⟩ := Option.bind_eq_some_iff.mp h
  obtain ⟨op0, hop0, h⟩ := Option.bind_eq_some_iff.mp h
  obtain ⟨op1, hop1, h⟩ := Option.bind_eq_some_iff.mp h
  obtain ⟨op2, hop2, h⟩ := Option.bind_eq_some_iff.mp h
  have htype : (wordItem actionTypes "opcode" (some json)).map Prod.fst = some type := by
    rw [hword]
    rfl
  rw [← member_eq_of_item hop0, ← member_eq_of_item hop1, ← member_eq_of_item hop2] at h
  unfold readOperands at h
  cases type with
  | xfsmUpdate =>
    obtain ⟨_, h0, h⟩ := Option.bind_eq_some_iff.mp h
    obtain ⟨_, h1, h⟩ := Option.bind_eq_some_iff.mp h
    obtain ⟨_, hout, h⟩ := Option.bind_eq_some_iff.mp h
    cases h
    refine ⟨htype, h0, h1, fun hset => ?_, fun _ => hout, fun _ => ⟨rfl, rfl⟩⟩
    cases hset
  | xfsmSendpkt =>
    obtain ⟨_, h0, h⟩ := Option.bind_eq_some_iff.mp h
    obtain ⟨_, h1, h⟩ := Option.bind_eq_some_iff.mp h
    cases h
    refine ⟨htype, h0, h1, fun hset => ?_, fun hupdate => ?_, fun _ => ⟨rfl, rfl⟩⟩
    · cases hset
    · cases hupdate
  | xfsmSetfield =>
    obtain ⟨_, h0, h⟩ := Option.bind_eq_some_iff.mp h
    obtain ⟨_, h1, h⟩ := Option.bind_eq_some_iff.mp h
    obtain ⟨_, h2, h⟩ := Option.bind_eq_some_iff.mp h
    cases h
    refine ⟨htype, h0, h1, fun _ => h2, fun hupdate => ?_, fun hne => absurd rfl hne⟩
    cases hupdate
  | xfsmDestroy => cases h

theorem ActionRead.type_eq_iff (h : ActionRead memory json act) {type : XfsmActionType} :
    act.type = type ↔ (wordItem actionTypes "opcode" (some json)).map Prod.fst = some type := by
  rw [h.type, Option.some.injEq]

/-- An action that was read fits exactly where the file keeps the bounds,
and so does what its memory held. -/
theorem readAction_fits (h : readAction memory json = some act) :
    act.Fits ↔ ActionKeeps memory json := by
  have hread := actionRead_of_readAction h
  have hr1 := inRange_getOperand hread.op0
  have hr2 := inRange_getOperand hread.op1
  constructor
  · intro hf
    refine ⟨hr1.mp hf.op1, hr2.mp hf.op2, fun hset => ?_, fun hupdate => ?_, fun hne => ?_⟩
    · exact (inRange_getOperand (hread.op2 (hread.type_eq_iff.mpr hset))).mp hf.op3
    · have htype := hread.type_eq_iff.mpr hupdate
      exact (inRange_getOutOperand (hread.out htype)).mp
        ⟨hf.register htype, hf.globalRegister htype⟩
    · obtain ⟨htype3, hvalue3⟩ := hread.memory (mt hread.type_eq_iff.mp hne)
      rw [← htype3, ← hvalue3]
      exact hf.op3
  · intro hk
    have hdest : act.type = .xfsmUpdate → _ := fun htype =>
      (inRange_getOutOperand (hread.out htype)).mpr (hk.out (hread.type_eq_iff.mp htype))
    refine ⟨hr1.mpr hk.op0, hr2.mpr hk.op1, ?_, fun htype => (hdest htype).1,
      fun htype => (hdest htype).2⟩
    by_cases hset : act.type = .xfsmSetfield
    · exact (inRange_getOperand (hread.op2 hset)).mpr (hk.op2 (hread.type_eq_iff.mp hset))
    -- the third operand is what the memory held
    · rw [(hread.memory hset).1, (hread.memory hset).2]
      exact hk.memory (mt hread.type_eq_iff.mpr hset)

end Records

/-! ## Arrays of conditions -/

section Conditions

variable {old : ℕ → XfsmCondition} {conditions : Option Json}
  {written : List (BitVec 32 × XfsmCondition)} {j : ℕ} {id : BitVec 32} {c : XfsmCondition}

/-- A condition in the array was written there. -/
theorem mem_of_conditionAt (h : conditionAt written j = some c) :
    (BitVec.ofNat 32 j, c) ∈ written := by
  obtain ⟨before, after, heq, -⟩ := List.lookup_eq_some_iff.mp h
  rw [← List.mem_reverse, heq]
  exact List.mem_append_right _ List.mem_cons_self

/-- A place that was written holds a condition. -/
theorem exists_conditionAt (h : (BitVec.ofNat 32 j, c) ∈ written) :
    ∃ c', conditionAt written j = some c' := by
  refine Option.isSome_iff_exists.mp (List.lookup_isSome_iff.mpr ⟨_, List.mem_reverse.mpr h, ?_⟩)
  exact beq_self_eq_true _

/-- What the loop makes of the array's elements. -/
theorem jsonToConditions_eq_some (h : jsonToConditions old conditions = some written) :
    written.length < 255 ∧ (children conditions).length = written.length ∧
      (∀ (k : ℕ) (id : BitVec 32) (c : XfsmCondition), written[k]? = some (id, c) →
        ∃ json, (children conditions)[k]? = some json ∧
          uintItem 32 "id" (some json) = some id ∧ (c.Fits ↔ ConditionKeeps json)) ∧
      ∀ (k : ℕ) (json : Json), (children conditions)[k]? = some json →
        ∃ id c, written[k]? = some (id, c) ∧
          uintItem 32 "id" (some json) = some id ∧ (c.Fits ↔ ConditionKeeps json) := by
  unfold jsonToConditions at h
  split at h
  · next hlt =>
    have hlen := length_forEach h
    refine ⟨hlen ▸ hlt, hlen, fun k id c hk => ?_, fun k json hk => ?_⟩
    · obtain ⟨json, hjson, hread⟩ := getElem?_forEach h hk
      exact ⟨json, hjson, readCondition_fits hread⟩
    · obtain ⟨⟨id, c⟩, hw, hread⟩ := getElem?_of_forEach h hk
      exact ⟨id, c, hw, readCondition_fits hread⟩
  · cases h

/-- **As many ids as conditions** are all different once they cover the
array. -/
theorem ids_nodup (hlt : written.length < 255)
    (hcover : ∀ j < written.length, ∃ c, (BitVec.ofNat 32 j, c) ∈ written) :
    (written.map Prod.fst).Nodup ∧
      ∀ id c, (id, c) ∈ written → ∃ j < written.length, BitVec.ofNat 32 j = id := by
  have hinj : ∀ x ∈ List.range written.length, ∀ y ∈ List.range written.length,
      BitVec.ofNat 32 x = BitVec.ofNat 32 y → x = y := by
    intro x hx y hy hxy
    have hx' := List.mem_range.mp hx
    have hy' := List.mem_range.mp hy
    have := congrArg BitVec.toNat hxy
    simp only [BitVec.toNat_ofNat] at this
    omega
  have hrange : ((List.range written.length).map (BitVec.ofNat 32)).Nodup :=
    List.Nodup.map_on hinj List.nodup_range
  have hsub : ((List.range written.length).map (BitVec.ofNat 32)) ⊆ written.map Prod.fst := by
    intro id hid
    obtain ⟨j, hj, rfl⟩ := List.mem_map.mp hid
    obtain ⟨c, hc⟩ := hcover j (List.mem_range.mp hj)
    exact List.mem_map.mpr ⟨_, hc, rfl⟩
  have hperm := (List.subperm_of_subset hrange hsub).perm_of_length_le
    (by rw [List.length_map, List.length_map, List.length_range])
  refine ⟨hperm.nodup_iff.mp hrange, fun id c hmem => ?_⟩
  have hid := hperm.mem_iff.mpr (List.mem_map.mpr ⟨_, hmem, rfl⟩)
  obtain ⟨j, hj, heq⟩ := List.mem_map.mp hid
  exact ⟨j, List.mem_range.mp hj, heq⟩

/-- **The array of conditions** is filled with conditions that fit exactly
where the ids are the places and every condition keeps the bounds. -/
theorem conditions_fit_iff (h : jsonToConditions old conditions = some written) :
    (∀ j < written.length, ∃ c, conditionAt written j = some c ∧ c.Fits) ↔
      (∀ j < (children conditions).length, ∃ json ∈ children conditions,
        uintItem 32 "id" (some json) = some (BitVec.ofNat 32 j)) ∧
      ∀ json ∈ children conditions, ConditionKeeps json := by
  obtain ⟨hlt, hlen, hwritten, helements⟩ := jsonToConditions_eq_some h
  rw [hlen]
  constructor
  · intro hfit
    -- every place is written, so by their number each exactly once
    have hcover : ∀ j < written.length, ∃ c, (BitVec.ofNat 32 j, c) ∈ written := by
      intro j hj
      obtain ⟨c, hc, -⟩ := hfit j hj
      exact ⟨c, mem_of_conditionAt hc⟩
    obtain ⟨hnodup, hplaces⟩ := ids_nodup hlt hcover
    refine ⟨fun j hj => ?_, fun json hjson => ?_⟩
    · obtain ⟨c, hc⟩ := hcover j hj
      obtain ⟨k, hk⟩ := List.getElem?_of_mem hc
      obtain ⟨json, hjson, hid, -⟩ := hwritten k _ _ hk
      exact ⟨json, List.mem_of_getElem? hjson, hid⟩
    · obtain ⟨k, hk⟩ := List.getElem?_of_mem hjson
      obtain ⟨id, c, hw, -, hiff⟩ := helements k json hk
      obtain ⟨j, hj, rfl⟩ := hplaces id c (List.mem_of_getElem? hw)
      obtain ⟨c', hc', hfits⟩ := hfit j hj
      have heq := List.inj_on_of_nodup_map hnodup (mem_of_conditionAt hc')
        (List.mem_of_getElem? hw) rfl
      cases heq
      exact hiff.mp hfits
  · rintro ⟨hids, hkeeps⟩ j hj
    obtain ⟨json, hjson, hid⟩ := hids j hj
    obtain ⟨k, hk⟩ := List.getElem?_of_mem hjson
    obtain ⟨id, c, hw, hid', -⟩ := helements k json hk
    rw [hid] at hid'
    cases hid'
    obtain ⟨c', hc'⟩ := exists_conditionAt (List.mem_of_getElem? hw)
    obtain ⟨k', hk'⟩ := List.getElem?_of_mem (mem_of_conditionAt hc')
    obtain ⟨json', hjson', -, hiff⟩ := hwritten k' _ _ hk'
    exact ⟨c', hc', hiff.mpr (hkeeps json' (List.mem_of_getElem? hjson'))⟩

end Conditions

/-! ## Rows -/

section Rows

variable {old : ℕ → ActionMemory} {json : Json} {e : XfsmTableEntry}

/-- **A row that was read**: its state, how many actions it has, and when
they fit. -/
theorem jsonToTableEntry_eq_some (h : jsonToTableEntry old json = some e) :
    uintItem 32 "state" (some json) = some e.currentState ∧
      e.actions.length = copiedActions json ∧
      ((∀ act ∈ e.actions, act.Fits) ↔ ∀ k action, k < copiedActions json →
        (elements "actions" (some json))[k]? = some action → ActionKeeps (old k) action) := by
  unfold jsonToTableEntry at h
  obtain ⟨conditions, -, h⟩ := Option.bind_eq_some_iff.mp h
  obtain ⟨actions, hactions, h⟩ := Option.bind_eq_some_iff.mp h
  obtain ⟨currentState, hstate, h⟩ := Option.bind_eq_some_iff.mp h
  obtain ⟨nextState, -, h⟩ := Option.bind_eq_some_iff.mp h
  obtain ⟨nextStage, -, h⟩ := Option.bind_eq_some_iff.mp h
  obtain ⟨results, -, h⟩ := Option.bind_eq_some_iff.mp h
  obtain ⟨copied, hcopied, h⟩ := Option.bind_eq_some_iff.mp h
  cases h
  unfold jsonToActions at hcopied
  obtain ⟨parsed, hparsed, rfl⟩ := Option.map_eq_some_iff.mp hcopied
  have helements : elements "actions" (some json) = children actions := by
    unfold elements
    rw [member_eq_of_item hactions]
  have hlen := length_forEach hparsed
  -- the actions are counted in sixteen bits, and as many are copied
  have hcount : (BitVec.ofNat 16 parsed.length).toNat = copiedActions json := by
    unfold copiedActions
    rw [BitVec.toNat_ofNat, helements, hlen]
  have hle : copiedActions json ≤ parsed.length := by
    rw [← hcount, BitVec.toNat_ofNat]
    exact Nat.mod_le _ _
  refine ⟨hstate, ?_, ?_⟩
  · show (parsed.take _).length = _
    rw [List.length_take, hcount]
    omega
  · show (∀ act ∈ parsed.take _, act.Fits) ↔ _
    rw [hcount, helements]
    constructor
    · intro hfits k action hk haction
      obtain ⟨act, hact, hread⟩ := getElem?_of_forEach hparsed haction
      rw [Nat.zero_add] at hread
      refine (readAction_fits hread).mp (hfits act (List.mem_of_getElem? (i := k) ?_))
      rw [List.getElem?_take_of_lt hk, hact]
    · intro hkeeps act hact
      obtain ⟨k, hk⟩ := List.getElem?_of_mem hact
      have hlt : k < copiedActions json := by
        have := (List.getElem?_eq_some_iff.mp hk).1
        rw [List.length_take] at this
        omega
      rw [List.getElem?_take_of_lt hlt] at hk
      obtain ⟨action, haction, hread⟩ := getElem?_forEach hparsed hk
      rw [Nat.zero_add] at hread
      exact (readAction_fits hread).mpr (hkeeps k action hlt haction)

end Rows

/-! ## Tables and pipelines -/

section Tables

variable {old : TableMemory} {table : Option Json} {T : LoadedTable}

/-- **A table that was loaded fits exactly where the file keeps the
bounds.** -/
theorem table_fits_iff (h : jsonToTable old table = some T) : T.Fits ↔ TableKeeps old table := by
  unfold jsonToTable at h
  obtain ⟨conditions, hconditions, h⟩ := Option.bind_eq_some_iff.mp h
  obtain ⟨written, hwritten, h⟩ := Option.bind_eq_some_iff.mp h
  obtain ⟨initialState, -, h⟩ := Option.bind_eq_some_iff.mp h
  obtain ⟨tableRows, htableRows, h⟩ := Option.bind_eq_some_iff.mp h
  obtain ⟨entries, hentries, h⟩ := Option.bind_eq_some_iff.mp h
  obtain ⟨fields, hfields, h⟩ := Option.bind_eq_some_iff.mp h
  obtain ⟨lookupKey, hkey, h⟩ := Option.bind_eq_some_iff.mp h
  cases h
  have hconds : elements "conditions" table = children conditions := by
    unfold elements
    rw [member_eq_of_item hconditions]
  have hrows : elements "table_rows" table = children tableRows := by
    unfold elements
    rw [member_eq_of_item htableRows]
  have hflow : elements "flow_key" table = children fields := by
    unfold elements
    rw [member_eq_of_item hfields]
  have hcondsLen := (jsonToConditions_eq_some hwritten).2.1
  have hcondsFit := conditions_fit_iff hwritten
  have hrowsLen := length_forEach hentries
  have hkeyLen := length_forEach hkey
  -- a row of the file and the entry made of it
  have hentry : ∀ (i : ℕ) (row : Json), (children tableRows)[i]? = some row →
      ∃ e, entries[i]? = some e ∧ jsonToTableEntry (old.actions i) row = some e := by
    intro i row hi
    obtain ⟨e, he, hread⟩ := getElem?_of_forEach hentries hi
    rw [Nat.zero_add] at hread
    exact ⟨e, he, hread⟩
  have hrow : ∀ (i : ℕ) (e : XfsmTableEntry), entries[i]? = some e →
      ∃ row, (children tableRows)[i]? = some row ∧
        jsonToTableEntry (old.actions i) row = some e := by
    intro i e hi
    obtain ⟨row, hr, hread⟩ := getElem?_forEach hentries hi
    rw [Nat.zero_add] at hread
    exact ⟨row, hr, hread⟩
  have hstates : entries.map XfsmTableEntry.currentState = rowStates table := by
    unfold rowStates
    rw [hrows]
    refine (filterMap_forEach (f := fun i => jsonToTableEntry (old.actions i)) ?_ hentries).symm
    exact fun _ _ _ hread => (jsonToTableEntry_eq_some hread).1
  have hsize : (BitVec.ofNat 8 entries.length).toNat = entries.length ↔
      (children tableRows).length ≤ 255 := by
    rw [BitVec.toNat_ofNat, hrowsLen]
    omega
  constructor
  · intro hf
    obtain ⟨hids, hoperands⟩ := hcondsFit.mp hf.conditionsFit
    refine ⟨?_, ?_, ?_, ?_, fun row hmem => ?_, fun i row hi => ?_, ?_, ?_, ?_⟩
    · rw [hconds, hcondsLen]
      exact hf.conditions
    · rw [hconds]
      exact hids
    · rw [hconds]
      exact hoperands
    · rw [hrows]
      exact hsize.mp hf.tableSize
    · rw [hrows] at hmem
      obtain ⟨i, hi⟩ := List.getElem?_of_mem hmem
      obtain ⟨e, he, hread⟩ := hentry i row hi
      rw [← (jsonToTableEntry_eq_some hread).2.1]
      exact hf.actions e (List.mem_of_getElem? he)
    · rw [hrows] at hi
      obtain ⟨e, he, hread⟩ := hentry i row hi
      exact (jsonToTableEntry_eq_some hread).2.2.mp (hf.actionsFit e (List.mem_of_getElem? he))
    · rw [← hstates]
      exact groupRows_isSome_iff.mp hf.rowsPerState
    · obtain ⟨nodes, hnodes⟩ := Option.isSome_iff_exists.mp hf.rowsPerState
      rw [← hstates, ← length_nodes hnodes]
      exact hf.states nodes hnodes
    · rw [hflow, hkeyLen]
      exact hf.lookupKey
  · intro hk
    refine ⟨?_, ?_, ?_, fun e hmem => ?_, fun e hmem => ?_, ?_, fun nodes hnodes => ?_, ?_⟩
    · have := hk.conditions
      rwa [hconds, hcondsLen] at this
    · refine hcondsFit.mpr ⟨?_, ?_⟩
      · have := hk.ids
        rwa [hconds] at this
      · have := hk.operands
        rwa [hconds] at this
    · have := hk.rows
      rw [hrows] at this
      exact hsize.mpr this
    · obtain ⟨i, hi⟩ := List.getElem?_of_mem hmem
      obtain ⟨row, hr, hread⟩ := hrow i e hi
      rw [(jsonToTableEntry_eq_some hread).2.1]
      exact hk.actions row (hrows ▸ List.mem_of_getElem? hr)
    · obtain ⟨i, hi⟩ := List.getElem?_of_mem hmem
      obtain ⟨row, hr, hread⟩ := hrow i e hi
      exact (jsonToTableEntry_eq_some hread).2.2.mpr (hk.actionOperands i row (hrows ▸ hr))
    · have := hk.rowsPerState
      rw [← hstates] at this
      exact groupRows_isSome_iff.mpr this
    · have := hk.states
      rw [← hstates, ← length_nodes hnodes] at this
      exact this
    · have := hk.lookupKey
      rwa [hflow, hkeyLen] at this

end Tables

section Pipelines

variable {old : ℕ → TableMemory} {json : Option Json} {tables : List LoadedTable}

/-- The table of a stage that was loaded. -/
theorem table_of_loadTables (h : loadTables old json = some tables) {i : ℕ} {T : LoadedTable}
    (hT : tables[i]? = some T) : ∃ stage table, (elements "stages" json)[i]? = some stage ∧
      item "table" (some stage) = some table ∧ jsonToTable (old i) table = some T ∧
      T.isCreated i = true := by
  unfold loadTables at h
  obtain ⟨stages, hstages, h⟩ := Option.bind_eq_some_iff.mp h
  obtain ⟨stage, hstage, hloaded⟩ := getElem?_forEach h hT
  obtain ⟨hloaded, hcreated⟩ := Option.filter_eq_some_iff.mp hloaded
  obtain ⟨table, htable, hloaded⟩ := Option.bind_eq_some_iff.mp hloaded
  rw [Nat.zero_add] at hloaded hcreated
  refine ⟨stage, table, ?_, htable, hloaded, hcreated⟩
  unfold elements
  rw [member_eq_of_item hstages]
  exact hstage

/-- There is a table for each stage. -/
theorem length_loadTables (h : loadTables old json = some tables) :
    (elements "stages" json).length = tables.length := by
  unfold loadTables at h
  obtain ⟨stages, hstages, h⟩ := Option.bind_eq_some_iff.mp h
  unfold elements
  rw [member_eq_of_item hstages]
  exact length_forEach h

/-- **A second stage is never loaded.** -/
theorem length_le_of_loadTables (h : loadTables old json = some tables) : tables.length ≤ 1 := by
  by_contra hlength
  have hsecond := List.getElem?_eq_getElem (Nat.lt_of_not_le hlength)
  obtain ⟨_, _, _, _, _, hcreated⟩ := table_of_loadTables h hsecond
  exact absurd (Bool.and_eq_true_iff.mp hcreated).1 (by decide)

/-- **A program that the loader accepts fits the dataplane exactly where
the file keeps the bounds.** -/
theorem pipelineFits_iff (h : loadTables old json = some tables) :
    PipelineFits tables ↔ Keeps old json := by
  have hlength := length_loadTables h
  constructor
  · intro hf i stage hi
    have hlt := (List.getElem?_eq_some_iff.mp hi).1
    obtain ⟨stage', table, hstage, htable, hT, -⟩ :=
      table_of_loadTables h (List.getElem?_eq_getElem (hlength ▸ hlt))
    obtain rfl : stage = stage' := Option.some.inj (hi.symm.trans hstage)
    rw [member_eq_of_item htable]
    exact (table_fits_iff hT).mp (hf.tablesFit _ (List.getElem_mem _))
  · intro hk
    refine ⟨(length_le_of_loadTables h).trans (by decide), fun T hT => ?_⟩
    obtain ⟨i, hi⟩ := List.getElem?_of_mem hT
    obtain ⟨stage, table, hstage, htable, hloaded, -⟩ := table_of_loadTables h hi
    have hkeeps := hk i stage hstage
    rw [member_eq_of_item htable] at hkeeps
    exact (table_fits_iff hloaded).mpr hkeeps

/-- Memory that was all zero. -/
def zeroMemory : TableMemory where
  conditions _ := ⟨.xfsmRegister, .xfsmRegister, 0, 0, .xfsmLess⟩
  stray _ := ⟨.xfsmRegister, .xfsmRegister, 0, 0, .xfsmLess⟩
  actions _ _ := ⟨⟨.xfsmUpdate, .xfsmSum, .xfsmRegister, 0, .xfsmRegister, 0, .xfsmRegister, 0, 0,
    .xfsmRegister⟩, 0⟩
  biflowNo := 0

/-- A file with so many equal stages. -/
def stagesFile (n : ℕ) (table : Json) : Option Json :=
  some (.object [("stages", .array (List.replicate n (.object [("table", table)])))])

/-- A table with a condition on a register, a row and a key. -/
def tableReading (register : String) : Json :=
  .object
    [("conditions", .array [.object [("id", .string "0"), ("opcode", .string "XTRA_EQUAL"),
      ("op0", .object [("type", .string "XTRA_LOCAL_REGISTER"), ("name", .string register)]),
      ("op1", .object [("type", .string "XTRA_INTEGER_CONST"), ("value", .string "5")])]]),
      ("initial_state", .string "0"),
      ("table_rows", .array [.object [("state", .string "0"), ("next_state", .string "0"),
        ("next_stage", .string "255")]]),
      ("flow_key", .array [.object [("value", .string "ipv4.src")]])]

/-- A table that reads the last register. -/
def smallTable : Json := tableReading "31"

/-- It keeps the bounds. -/
theorem keeps_smallTable : TableKeeps zeroMemory (some smallTable) where
  conditions := by decide +kernel
  ids := by decide +kernel
  operands c hc := by
    rw [List.mem_singleton.mp hc]
    refine ⟨fun type n htype hn => ?_, fun type n htype hn => ?_⟩
    · have htype : some XfsmValueType.xfsmRegister = some type := htype
      have hn : some (31 : Word64) = some n := hn
      cases htype
      cases hn
      exact ⟨fun _ => by decide, fun h => by cases h⟩
    · have htype : some XfsmValueType.xfsmConstant = some type := htype
      cases htype
      exact inRange_of_ne (by decide) (by decide) _
  rows := by decide +kernel
  actions row hrow := by
    rw [List.mem_singleton.mp hrow]
    decide +kernel
  actionOperands i row hi k action hk := by
    have hrow := List.mem_of_getElem? hi
    rw [List.mem_singleton.mp hrow] at hk
    exact absurd hk (Nat.not_lt_zero k)
  rowsPerState := groupRows_isSome_iff.mp (by decide +kernel)
  states := by decide +kernel
  lookupKey := by decide +kernel

/-- A pipeline of one small table fits. -/
theorem pipelineFits_smallTable :
    ∃ tables, loadTables (fun _ => zeroMemory) (stagesFile 1 smallTable) = some tables ∧
      PipelineFits tables := by
  have hsome : (loadTables (fun _ => zeroMemory) (stagesFile 1 smallTable)).isSome = true := by
    decide +kernel
  obtain ⟨tables, htables⟩ := Option.isSome_iff_exists.mp hsome
  refine ⟨tables, htables, (pipelineFits_iff htables).mpr fun i stage hi => ?_⟩
  have hstage := List.mem_of_getElem? hi
  rw [List.mem_singleton.mp hstage]
  exact keeps_smallTable

/-- **A condition on register 32** is accepted, and read past the end of
the registers. -/
theorem not_pipelineFits :
    ¬∀ (old : ℕ → TableMemory) (json : Option Json) (tables : List LoadedTable),
      loadTables old json = some tables → PipelineFits tables := by
  intro h
  have hread : (loadTables (fun _ => zeroMemory) (stagesFile 1 (tableReading "32"))).map
      (List.map fun T => (T.conditionsNumber, (conditionAt T.conditions 0).map fun c =>
        (c.type1, c.value1.toNat))) = some [(1, some (.xfsmRegister, 32))] := by
    decide +kernel
  obtain ⟨tables, htables, hread⟩ := Option.map_eq_some_iff.mp hread
  obtain ⟨T, rfl, hT⟩ := List.map_eq_singleton_iff.mp hread
  obtain ⟨hnumber, hT⟩ := Prod.mk.inj hT
  obtain ⟨c, hc, hoperand⟩ := Option.map_eq_some_iff.mp hT
  obtain ⟨htype, hvalue⟩ := Prod.mk.inj hoperand
  have hfits := (h _ _ _ htables).tablesFit T (List.mem_singleton_self T)
  obtain ⟨c', hc', hrange⟩ := hfits.conditionsFit 0 (hnumber ▸ Nat.one_pos)
  obtain rfl : c = c' := Option.some.inj (hc.symm.trans hc')
  exact absurd (hvalue ▸ hrange.op1.register htype) (by decide)

end Pipelines

end Sw

end FlowBlaze
