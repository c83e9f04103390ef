import FlowBlaze.Sw.LoaderBounds
/-!
# What the heap held

Two loads of one file may find different things in the memory that they
allocate. What the dataplane uses of the tables is compared here. A table
comes with the `biflow_no` that its memory held, unless a ninth field was
stored there; an update or a send comes with the third operand of its
memory, and a header field with the upper half of a value. A file loads
alike everywhere exactly if none of this is used (`independentOfHeap_iff`).
-/

namespace FlowBlaze

namespace Sw

open Common Json

/-! ## What is used -/

/-- What a `switch` over an operand's type uses. -/
def usedOperand (type : XfsmValueType) (value : Word64) : XfsmValueType × Option Word64 :=
  (type, if type = .other then none else some value)

/-- What `evaluate_condition` uses. -/
structure UsedCondition where
  op1 : XfsmValueType × Option Word64
  op2 : XfsmValueType × Option Word64
  conditionType : XfsmConditionType

/-- What `xfsm_execute_actions` uses: three operands of every action, and
the opcode and the output of an update. -/
structure UsedAction where
  type : XfsmActionType
  op1 : XfsmValueType × Option Word64
  op2 : XfsmValueType × Option Word64
  op3 : XfsmValueType × Option Word64
  update : Option (XfsmOpcode × XfsmValueType × Byte)

/-- What is used of a row. -/
structure UsedRow where
  currentState : State
  nextState : State
  nextStage : Byte
  results : Results
  actions : List UsedAction

/-- What is used of a table, `key_extract` and `biflow` included. -/
structure UsedTable where
  conditions : List UsedCondition
  initialState : Byte
  tableSize : Byte
  entries : List UsedRow
  lookupKey : List HdrField
  biflowNo : Byte

def XfsmCondition.used (c : XfsmCondition) : UsedCondition :=
  ⟨usedOperand c.type1 c.value1, usedOperand c.type2 c.value2, c.conditionType⟩

def XfsmAction.used (act : XfsmAction) : UsedAction :=
  ⟨act.type, usedOperand act.type1 act.value1, usedOperand act.type2 act.value2,
    usedOperand act.type3 act.value3,
    if act.type = .xfsmUpdate then some (act.opcode, act.outType, act.output) else none⟩

def XfsmTableEntry.used (row : XfsmTableEntry) : UsedRow :=
  ⟨row.currentState, row.nextState, row.nextStage, row.results,
    row.actions.map XfsmAction.used⟩

/-- A condition that was not loaded is the one that its place leads to. -/
def LoadedTable.used (old : TableMemory) (T : LoadedTable) : UsedTable where
  conditions := (List.range T.conditionsNumber).map fun id =>
    ((conditionAt T.conditions id).getD (old.stray id)).used
  initialState := T.initialState
  tableSize := T.tableSize
  entries := T.entries.map XfsmTableEntry.used
  lookupKey := T.lookupKey
  biflowNo := T.biflowNo

/-- What is used of a file, if it is accepted: of its table. -/
def usedTables (old : ℕ → TableMemory) (json : Option Json) : Option (List UsedTable) :=
  (loadTables old json).map (List.map (LoadedTable.used (old 0)))

/-- **Loading does not depend on the heap**: a file that is accepted is
accepted whatever the memory holds, and the same values are used. -/
def IndependentOfHeap (json : Option Json) : Prop :=
  ∀ old old', (loadTables old json).isSome = true → usedTables old' json = usedTables old json

/-! ## What settles it -/

/-- An operand that is a header field. -/
def IsField (operand : Option Json) : Prop :=
  wordItem valueTypes "type" operand = some .xfsmHdrField

/-- The type of an action in the file. -/
def actionType (action : Json) : Option XfsmActionType :=
  (wordItem actionTypes "opcode" (some action)).map Prod.fst

/-- The condition of an id: the last of the file that has it. -/
def conditionOf (table : Option Json) (id : ℕ) : Option Json :=
  (elements "conditions" table).reverse.find? fun c =>
    uintItem 32 "id" (some c) = some (BitVec.ofNat 32 id)

/-- A condition without header fields. -/
structure ConditionSettled (condition : Json) : Prop where
  op0 : ¬IsField (member "op0" (some condition))
  op1 : ¬IsField (member "op1" (some condition))

/-- An action of which all three operands are loaded, without header
fields. -/
structure ActionSettled (action : Json) : Prop where
  setfield : actionType action = some .xfsmSetfield
  op0 : ¬IsField (member "op0" (some action))
  op1 : ¬IsField (member "op1" (some action))
  op2 : ¬IsField (member "op2" (some action))

/-- **A table in the file that settles what is used**: it has a field for
`biflow_no` and a condition for every place, and no update, whose output
may be refused. What is copied of its actions sets fields, whose numbers
and values are no header fields, and nor are the operands of conditions. -/
structure TableSettled (table : Option Json) : Prop where
  ninth : lookupKeySize < (elements "flow_key" table).length
  conditions : ∀ id < (elements "conditions" table).length,
    ∃ c, conditionOf table id = some c ∧ ConditionSettled c
  updates : ∀ row ∈ elements "table_rows" table, ∀ action ∈ elements "actions" (some row),
    actionType action ≠ some .xfsmUpdate
  actions : ∀ row ∈ elements "table_rows" table, ∀ k action, k < copiedActions row →
    (elements "actions" (some row))[k]? = some action → ActionSettled action

/-! ## Operands -/

/-- The upper halves are different. -/
def UpperDiffers (x y : Word64) : Prop :=
  (x.extractLsb' 32 32 : BitVec 32) ≠ y.extractLsb' 32 32

section Operands

variable {x y v v' : Word64} {operand : Option Json} {t t' : XfsmValueType}

/-- A value set to a header field's number keeps its upper half. -/
theorem extractLsb'_hdrFieldValue (old : Word64) (f : HdrField) :
    ((hdrFieldValue old f).extractLsb' 32 32 : BitVec 32) = old.extractLsb' 32 32 := by
  exact BitVec.extractLsb'_append_eq_left

/-- An operand read twice: what is used of it. -/
theorem usedOperand_eq (h : getOperand x operand = some (t, v))
    (h' : getOperand y operand = some (t', v')) (hfield : ¬IsField operand) :
    usedOperand t v = usedOperand t' v' := by
  obtain ⟨type, htype, h⟩ := Option.bind_eq_some_iff.mp h
  unfold getOperand at h'
  rw [htype, Option.bind_some] at h'
  cases type with
  | xfsmHdrField => exact absurd htype hfield
  | other =>
    cases h
    cases h'
    rfl
  | _ =>
    cases h.symm.trans h'
    rfl

/-- If that is the same though the memory was not, it is no header
field. -/
theorem not_isField_of_usedOperand_eq (h : getOperand x operand = some (t, v))
    (h' : getOperand y operand = some (t', v')) (hdiffers : UpperDiffers x y)
    (hused : usedOperand t v = usedOperand t' v') : ¬IsField operand := by
  intro hfield
  unfold IsField at hfield
  unfold getOperand at h h'
  rw [hfield, Option.bind_some] at h h'
  obtain ⟨f, -, h⟩ := Option.map_eq_some_iff.mp h
  obtain ⟨f', -, h'⟩ := Option.map_eq_some_iff.mp h'
  cases h
  cases h'
  have hvalue : hdrFieldValue x f = hdrFieldValue y f' :=
    Option.some.inj (Prod.mk.inj hused).2
  have hupper := congrArg (BitVec.extractLsb' 32 32) hvalue
  rw [extractLsb'_hdrFieldValue, extractLsb'_hdrFieldValue] at hupper
  exact hdiffers hupper

end Operands

/-! ## Conditions and actions -/

/-- Two memories of a condition that tell header fields. -/
structure XfsmCondition.Differs (m m' : XfsmCondition) : Prop where
  value1 : UpperDiffers m.value1 m'.value1
  value2 : UpperDiffers m.value2 m'.value2

/-- The same for an action, and its third operand. -/
structure ActionMemory.Differs (m m' : ActionMemory) : Prop where
  value1 : UpperDiffers m.record.value1 m'.record.value1
  value2 : UpperDiffers m.record.value2 m'.record.value2
  value3 : UpperDiffers m.record.value3 m'.record.value3
  type3 : m.record.type3 ≠ m'.record.type3

section Records

variable {m m' : XfsmCondition} {a a' : ActionMemory} {json : Json} {id id' : BitVec 32}
  {c c' : XfsmCondition} {act act' : XfsmAction}

/-- A condition read twice. -/
theorem used_readCondition (h : readCondition m json = some (id, c))
    (h' : readCondition m' json = some (id', c')) :
    id = id' ∧ (ConditionSettled json → c.used = c'.used) ∧
      (m.Differs m' → c.used = c'.used → ConditionSettled json) := by
  unfold readCondition at h h'
  obtain ⟨_, hid, h⟩ := Option.bind_eq_some_iff.mp h
  obtain ⟨_, htype, h⟩ := Option.bind_eq_some_iff.mp h
  obtain ⟨_, hop0, h⟩ := Option.bind_eq_some_iff.mp h
  obtain ⟨⟨t1, v1⟩, h0, h⟩ := Option.bind_eq_some_iff.mp h
  obtain ⟨_, hop1, h⟩ := Option.bind_eq_some_iff.mp h
  obtain ⟨⟨t2, v2⟩, h1, h⟩ := Option.bind_eq_some_iff.mp h
  rw [hid, htype, hop0, hop1] at h'
  simp only [Option.bind_eq_bind, Option.bind_some] at h'
  obtain ⟨⟨t1', v1'⟩, h0', h'⟩ := Option.bind_eq_some_iff.mp h'
  obtain ⟨⟨t2', v2'⟩, h1', h'⟩ := Option.bind_eq_some_iff.mp h'
  cases h
  cases h'
  rw [← member_eq_of_item hop0] at h0 h0'
  rw [← member_eq_of_item hop1] at h1 h1'
  refine ⟨rfl, fun hs => ?_, fun hd hused => ?_⟩
  · unfold XfsmCondition.used
    rw [usedOperand_eq h0 h0' hs.op0, usedOperand_eq h1 h1' hs.op1]
  · obtain ⟨hu0, hu1, -⟩ := UsedCondition.mk.inj hused
    exact ⟨not_isField_of_usedOperand_eq h0 h0' hd.value1 hu0,
      not_isField_of_usedOperand_eq h1 h1' hd.value2 hu1⟩

/-- **An update is refused** where `get_out_operand` is found to have
failed. -/
theorem readAction_of_returnError (htype : actionType json = some .xfsmUpdate)
    (hreturned : a.returned = returnError) : readAction a json = none := by
  refine Option.eq_none_iff_forall_not_mem.mpr fun act hact => ?_
  have hread := actionRead_of_readAction hact
  obtain ⟨type, -, hout⟩ := Option.bind_eq_some_iff.mp (hread.out (hread.type_eq_iff.mpr htype))
  simp only [hreturned, if_true, ite_self, Option.bind_fun_none] at hout
  cases hout

/-- An action read twice. -/
theorem used_readAction (h : readAction a json = some act) (h' : readAction a' json = some act') :
    (ActionSettled json → act.used = act'.used) ∧
      (a.Differs a' → act.used = act'.used → ActionSettled json) := by
  have hread := actionRead_of_readAction h
  have hread' := actionRead_of_readAction h'
  constructor
  · intro hs
    have htype := hread.type_eq_iff.mpr hs.setfield
    have htype' := hread'.type_eq_iff.mpr hs.setfield
    unfold XfsmAction.used
    rw [htype, htype', usedOperand_eq hread.op0 hread'.op0 hs.op0,
      usedOperand_eq hread.op1 hread'.op1 hs.op1,
      usedOperand_eq (hread.op2 htype) (hread'.op2 htype') hs.op2]
    rfl
  · intro hd hused
    obtain ⟨htypes, hu0, hu1, hu2, -⟩ := UsedAction.mk.inj hused
    by_cases htype : act.type = .xfsmSetfield
    · have htype' : act'.type = .xfsmSetfield := htypes.symm.trans htype
      exact ⟨hread.type_eq_iff.mp htype,
        not_isField_of_usedOperand_eq hread.op0 hread'.op0 hd.value1 hu0,
        not_isField_of_usedOperand_eq hread.op1 hread'.op1 hd.value2 hu1,
        not_isField_of_usedOperand_eq (hread.op2 htype) (hread'.op2 htype') hd.value3 hu2⟩
    -- the third operand of an update or a send is left in the memory
    · have htype3 : act.type3 = act'.type3 := (Prod.mk.inj hu2).1
      rw [(hread.memory htype).1, (hread'.memory (htypes ▸ htype)).1] at htype3
      exact absurd htype3 hd.type3

end Records

/-! ## Rows -/

/-- Lists of the same length, element by element. -/
theorem map_eq_map_iff_getElem? {α β : Type} {f : α → β} {xs ys : List α}
    (h : xs.length = ys.length) :
    xs.map f = ys.map f ↔ ∀ (k : ℕ) (x y : α), xs[k]? = some x → ys[k]? = some y → f x = f y := by
  constructor
  · intro heq k x y hx hy
    have hk := congrArg (fun l : List β => l[k]?) heq
    simp only [List.getElem?_map, hx, hy, Option.map_some] at hk
    exact Option.some.inj hk
  · intro hall
    refine List.ext_getElem (by rw [List.length_map, List.length_map, h]) fun k hk hk' => ?_
    rw [List.getElem_map, List.getElem_map]
    exact hall k _ _ (List.getElem?_eq_getElem _) (List.getElem?_eq_getElem _)

section Rows

variable {a a' : ℕ → ActionMemory} {row : Json} {e e' : XfsmTableEntry}

/-- The actions of a row that was read. -/
theorem actions_of_read (h : jsonToTableEntry a row = some e) {k : ℕ} {action : Json}
    (hk : (elements "actions" (some row))[k]? = some action) :
    ∃ act, readAction (a k) action = some act ∧
      (k < copiedActions row → e.actions[k]? = some act) := by
  unfold jsonToTableEntry at h
  obtain ⟨_, -, h⟩ := Option.bind_eq_some_iff.mp h
  obtain ⟨actions, hactions, h⟩ := Option.bind_eq_some_iff.mp h
  obtain ⟨_, -, h⟩ := Option.bind_eq_some_iff.mp h
  obtain ⟨_, -, h⟩ := Option.bind_eq_some_iff.mp h
  obtain ⟨_, -, h⟩ := Option.bind_eq_some_iff.mp h
  obtain ⟨_, -, h⟩ := Option.bind_eq_some_iff.mp h
  obtain ⟨copied, hcopied, h⟩ := Option.bind_eq_some_iff.mp h
  cases h
  obtain ⟨parsed, hparsed, rfl⟩ := Option.map_eq_some_iff.mp hcopied
  have helements : elements "actions" (some row) = children actions := by
    unfold elements
    rw [member_eq_of_item hactions]
  rw [helements] at hk
  obtain ⟨act, hact, hread⟩ := getElem?_of_forEach hparsed hk
  rw [Nat.zero_add] at hread
  refine ⟨act, hread, fun hlt => ?_⟩
  have hcount : (BitVec.ofNat 16 parsed.length).toNat = copiedActions row := by
    unfold copiedActions
    rw [BitVec.toNat_ofNat, helements, length_forEach hparsed]
  rw [hcount, List.getElem?_take_of_lt hlt, hact]

/-- A row read twice. -/
theorem used_jsonToTableEntry (h : jsonToTableEntry a row = some e)
    (h' : jsonToTableEntry a' row = some e') :
    e.used = e'.used ↔ ∀ (k : ℕ) (act act' : XfsmAction), e.actions[k]? = some act →
      e'.actions[k]? = some act' → act.used = act'.used := by
  have hlength : e.actions.length = e'.actions.length :=
    (jsonToTableEntry_eq_some h).2.1.trans (jsonToTableEntry_eq_some h').2.1.symm
  rw [← map_eq_map_iff_getElem? hlength]
  unfold jsonToTableEntry at h h'
  obtain ⟨_, hconditions, h⟩ := Option.bind_eq_some_iff.mp h
  obtain ⟨_, hactions, h⟩ := Option.bind_eq_some_iff.mp h
  obtain ⟨_, hstate, h⟩ := Option.bind_eq_some_iff.mp h
  obtain ⟨_, hnextState, h⟩ := Option.bind_eq_some_iff.mp h
  obtain ⟨_, hnextStage, h⟩ := Option.bind_eq_some_iff.mp h
  obtain ⟨_, hresults, h⟩ := Option.bind_eq_some_iff.mp h
  obtain ⟨_, -, h⟩ := Option.bind_eq_some_iff.mp h
  rw [hconditions, hactions, hstate, hnextState, hnextStage] at h'
  simp only [Option.bind_eq_bind, Option.bind_some, hresults] at h'
  obtain ⟨_, -, h'⟩ := Option.bind_eq_some_iff.mp h'
  cases h
  cases h'
  exact ⟨fun hused => congrArg UsedRow.actions hused,
    fun hused => congrArg (UsedRow.mk _ _ _ _) hused⟩

/-- What is used of a row read twice is the same if its actions settle
it, and only then if the memories tell. -/
theorem used_row (h : jsonToTableEntry a row = some e) (h' : jsonToTableEntry a' row = some e') :
    ((∀ k action, k < copiedActions row → (elements "actions" (some row))[k]? = some action →
        ActionSettled action) → e.used = e'.used) ∧
      ((∀ k, (a k).Differs (a' k)) → e.used = e'.used → ∀ k action, k < copiedActions row →
        (elements "actions" (some row))[k]? = some action → ActionSettled action) := by
  rw [used_jsonToTableEntry h h']
  constructor
  · intro hsettled k act act' hact hact'
    have hlt : k < copiedActions row := by
      rw [← (jsonToTableEntry_eq_some h).2.1]
      exact (List.getElem?_eq_some_iff.mp hact).1
    have hle : copiedActions row ≤ (elements "actions" (some row)).length := Nat.mod_le _ _
    have haction := List.getElem?_eq_getElem (hlt.trans_le hle)
    obtain ⟨x, hread, hx⟩ := actions_of_read h haction
    obtain ⟨y, hread', hy⟩ := actions_of_read h' haction
    cases hact.symm.trans (hx hlt)
    cases hact'.symm.trans (hy hlt)
    exact (used_readAction hread hread').1 (hsettled k _ hlt haction)
  · intro hdiffers hused k action hlt haction
    obtain ⟨x, hread, hx⟩ := actions_of_read h haction
    obtain ⟨y, hread', hy⟩ := actions_of_read h' haction
    exact (used_readAction hread hread').2 (hdiffers k) (hused k x y (hx hlt) (hy hlt))

end Rows

/-! ## Tables -/

/-- Two memories of a table that tell everything that is not loaded. -/
structure TableMemory.Differs (old old' : TableMemory) : Prop where
  conditions : ∀ i, (old.conditions i).Differs (old'.conditions i)
  stray : ∀ i j, (old.stray i).conditionType ≠ (old'.stray j).conditionType
  actions : ∀ i k, (old.actions i k).Differs (old'.actions i k)
  biflowNo : old.biflowNo ≠ old'.biflowNo

section Tables

variable {old old' : TableMemory} {table : Option Json} {T T' : LoadedTable}

/-- A place has a field as soon as so many are counted. -/
theorem lastAt_eq_none_iff {flds : List HdrField} {place : ℕ} (hplace : place < 2 ^ 8) :
    lastAt flds place = none ↔ flds.length ≤ place := by
  unfold lastAt
  rw [Option.map_eq_none_iff, List.getLast?_eq_none_iff, List.filter_eq_nil_iff]
  constructor
  · intro hnone
    by_contra hlt
    have hmem : (flds[place], place) ∈ flds.zipIdx :=
      List.mem_zipIdx_iff_getElem?.mpr (List.getElem?_eq_getElem (Nat.lt_of_not_le hlt))
    exact hnone _ hmem (decide_eq_true (Nat.mod_eq_of_lt hplace))
  · rintro hle ⟨f, i⟩ hmem hi
    have hlt := (List.getElem?_eq_some_iff.mp (List.mem_zipIdx_iff_getElem?.mp hmem)).1
    have hmod := of_decide_eq_true hi
    exact absurd (hmod ▸ Nat.mod_le i (2 ^ 8)) (by simp only at hlt hmod ⊢; omega)

/-- **A place of the condition array, read twice.** -/
theorem conditionAt_twice {m m' : ℕ → XfsmCondition} {js : List Json} {n : ℕ}
    {written written' : List (BitVec 32 × XfsmCondition)}
    (h : forEach (fun i => readCondition (m i)) n js = some written)
    (h' : forEach (fun i => readCondition (m' i)) n js = some written') (id : ℕ) :
    (conditionAt written id = none ∧ conditionAt written' id = none ∧
        js.reverse.find? (fun c => uintItem 32 "id" (some c) = some (BitVec.ofNat 32 id)) = none) ∨
      ∃ k j c c', readCondition (m k) j = some (BitVec.ofNat 32 id, c) ∧
        readCondition (m' k) j = some (BitVec.ofNat 32 id, c') ∧
        conditionAt written id = some c ∧ conditionAt written' id = some c' ∧
        js.reverse.find? (fun c => uintItem 32 "id" (some c) = some (BitVec.ofNat 32 id)) =
          some j := by
  -- the last condition of an id is looked up, so by induction from the front
  unfold conditionAt
  induction js generalizing n written written' with
  | nil =>
    cases h
    cases h'
    exact .inl ⟨rfl, rfl, rfl⟩
  | cons j js ih =>
    obtain ⟨⟨x, c⟩, hread, h⟩ := Option.bind_eq_some_iff.mp h
    obtain ⟨rest, hrest, rfl⟩ := Option.map_eq_some_iff.mp h
    obtain ⟨⟨x', c'⟩, hread', h'⟩ := Option.bind_eq_some_iff.mp h'
    obtain ⟨rest', hrest', rfl⟩ := Option.map_eq_some_iff.mp h'
    obtain rfl := (used_readCondition hread hread').1
    have hid : uintItem 32 "id" (some j) = some x := (readCondition_fits hread).1
    simp only [List.reverse_cons, List.lookup_append, List.find?_append]
    -- a condition further behind wins over this one
    rcases ih hrest hrest' with ⟨hnone, hnone', hfind⟩ | ⟨k, j', d, d', hk, hk', hd, hd', hfind⟩
    · rw [hnone, hnone', hfind, Option.none_or, Option.none_or, Option.none_or,
        List.find?_singleton, hid]
      by_cases hx : x = BitVec.ofNat 32 id
      · subst hx
        refine .inr ⟨n, j, c, c', hread, hread', ?_, ?_, ?_⟩ <;> simp
      · have hbeq : (BitVec.ofNat 32 id == x) = false := beq_eq_false_iff_ne.mpr (Ne.symm hx)
        refine .inl ⟨?_, ?_, ?_⟩ <;> simp [List.lookup_cons, hx, hbeq]
    · rw [hd, hd', hfind]
      exact .inr ⟨k, j', d, d', hk, hk', rfl, rfl, rfl⟩

/-- The members of a table that was read. -/
theorem table_of_read (h : jsonToTable old table = some T) :
    forEach (fun i => readCondition (old.conditions i)) 0 (elements "conditions" table) =
        some T.conditions ∧
      (elements "conditions" table).length < 255 ∧ T.conditionsNumber = T.conditions.length ∧
      forEach (fun i => jsonToTableEntry (old.actions i)) 0 (elements "table_rows" table) =
        some T.entries ∧
      T.tableSize = BitVec.ofNat 8 T.entries.length ∧
      forEach (fun _ field => wordItem headerFields "value" (some field)) 0
        (elements "flow_key" table) = some T.lookupKey ∧
      T.biflowNo = ((lastAt T.lookupKey lookupKeySize).map fun f =>
        BitVec.ofNat 8 f.number).getD old.biflowNo ∧
      uintItem 8 "initial_state" table = some T.initialState := by
  unfold jsonToTable at h
  obtain ⟨conditions, hconditions, h⟩ := Option.bind_eq_some_iff.mp h
  obtain ⟨written, hwritten, h⟩ := Option.bind_eq_some_iff.mp h
  obtain ⟨initialState, hstate, h⟩ := Option.bind_eq_some_iff.mp h
  obtain ⟨tableRows, hrows, h⟩ := Option.bind_eq_some_iff.mp h
  obtain ⟨entries, hentries, h⟩ := Option.bind_eq_some_iff.mp h
  obtain ⟨fields, hfields, h⟩ := Option.bind_eq_some_iff.mp h
  obtain ⟨lookupKey, hkey, h⟩ := Option.bind_eq_some_iff.mp h
  cases h
  unfold jsonToConditions at hwritten
  unfold elements
  rw [member_eq_of_item hconditions, member_eq_of_item hrows, member_eq_of_item hfields]
  split at hwritten
  · next hlt => exact ⟨hwritten, hlt, rfl, hentries, rfl, hkey, rfl, hstate⟩
  · cases hwritten

/-- **A table read twice**: the conditions, the rows and `biflow_no` are
all that may differ. -/
theorem used_jsonToTable (h : jsonToTable old table = some T)
    (h' : jsonToTable old' table = some T') :
    T.tableSize = T'.tableSize ∧ (T.used old = T'.used old' ↔
      (∀ id < (elements "conditions" table).length,
        ((conditionAt T.conditions id).getD (old.stray id)).used =
          ((conditionAt T'.conditions id).getD (old'.stray id)).used) ∧
      (∀ (k : ℕ) (e e' : XfsmTableEntry), T.entries[k]? = some e → T'.entries[k]? = some e' →
        e.used = e'.used) ∧ T.biflowNo = T'.biflowNo) := by
  obtain ⟨hconditions, -, hnumber, hentries, hsize, hkey, -, hstate⟩ := table_of_read h
  obtain ⟨hconditions', -, hnumber', hentries', hsize', hkey', -, hstate'⟩ := table_of_read h'
  have hlength : T.entries.length = T'.entries.length :=
    (length_forEach hentries).symm.trans (length_forEach hentries')
  have hcount := length_forEach hconditions
  have hcount' := length_forEach hconditions'
  have hfields : T.lookupKey = T'.lookupKey := Option.some.inj (hkey.symm.trans hkey')
  have hinitial : T.initialState = T'.initialState := Option.some.inj (hstate.symm.trans hstate')
  have hsizes : T.tableSize = T'.tableSize := by rw [hsize, hsize', hlength]
  refine ⟨hsizes, ?_⟩
  unfold LoadedTable.used
  rw [UsedTable.mk.injEq, map_eq_map_iff_getElem? hlength, hnumber, hnumber', ← hcount, ← hcount',
    List.map_inj_left]
  simp only [List.mem_range]
  exact ⟨fun ⟨hc, _, _, hr, _, hb⟩ => ⟨hc, hr, hb⟩,
    fun ⟨hc, hr, hb⟩ => ⟨hc, hinitial, hsizes, hr, hfields, hb⟩⟩

/-- **Only what settles a table** makes it look the same from memories
that tell. -/
theorem settled_of_used (h : jsonToTable old table = some T)
    (h' : jsonToTable old' table = some T') (hdiffers : old.Differs old')
    (hupdates : ∀ row ∈ elements "table_rows" table, ∀ action ∈ elements "actions" (some row),
      actionType action ≠ some .xfsmUpdate)
    (hused : T.used old = T'.used old') : TableSettled table := by
  obtain ⟨hconditions, -, -, hentries, -, hkey, hbiflow, -⟩ := table_of_read h
  obtain ⟨hconditions', -, -, hentries', -, hkey', hbiflow', -⟩ := table_of_read h'
  obtain ⟨hc, hr, hb⟩ := (used_jsonToTable h h').2.mp hused
  refine ⟨?_, fun id hid => ?_, hupdates, fun row hrow => ?_⟩
  -- with eight fields or fewer `biflow_no` is what the memory held
  · by_contra hfew
    have hfields : T.lookupKey = T'.lookupKey := Option.some.inj (hkey.symm.trans hkey')
    have hnone : lastAt T'.lookupKey lookupKeySize = none := by
      rw [lastAt_eq_none_iff (by decide), ← length_forEach hkey']
      exact Nat.le_of_not_lt hfew
    rw [hbiflow, hbiflow', hfields, hnone] at hb
    exact hdiffers.biflowNo hb
  · have hplace := hc id hid
    rcases conditionAt_twice hconditions hconditions' id with
      ⟨hat, hat', -⟩ | ⟨k, j, c, c', hread, hread', hat, hat', hfind⟩
    · rw [hat, hat'] at hplace
      exact absurd (congrArg UsedCondition.conditionType hplace) (hdiffers.stray id id)
    · rw [hat, hat'] at hplace
      exact ⟨j, hfind, (used_readCondition hread hread').2.2 (hdiffers.conditions k) hplace⟩
  · obtain ⟨k, hk⟩ := List.getElem?_of_mem hrow
    obtain ⟨e, he, hread⟩ := getElem?_of_forEach hentries hk
    obtain ⟨e', he', hread'⟩ := getElem?_of_forEach hentries' hk
    exact (used_row hread hread').2 (hdiffers.actions _) (hr k e e' he he')

end Tables

/-! ## Files -/

/-- Memory that was all ones, but for the types in it. -/
def onesMemory : TableMemory where
  conditions _ := ⟨.xfsmRegister, .xfsmRegister, -1, -1, .xfsmEqual⟩
  stray _ := ⟨.xfsmRegister, .xfsmRegister, -1, -1, .xfsmEqual⟩
  actions _ _ := ⟨⟨.xfsmUpdate, .xfsmSum, .xfsmRegister, -1, .xfsmRegister, -1, .xfsmConstant, -1,
    255, .xfsmRegister⟩, 0⟩
  biflowNo := 255

/-- Memory in which every destination is found to be refused. -/
def refusingMemory : TableMemory :=
  { zeroMemory with actions := fun i k => { zeroMemory.actions i k with returned := returnError } }

theorem upperDiffers_ones : UpperDiffers 0 (-1) := by
  unfold UpperDiffers
  decide

theorem differs_zeroMemory : zeroMemory.Differs onesMemory where
  conditions _ := ⟨upperDiffers_ones, upperDiffers_ones⟩
  stray _ _ htype := by cases htype
  actions _ _ := ⟨upperDiffers_ones, upperDiffers_ones, upperDiffers_ones, fun h => by cases h⟩
  biflowNo := by decide

section Files

variable {old old' : ℕ → TableMemory} {json : Option Json} {tables : List LoadedTable}

/-- The table of a stage, read from two memories. -/
theorem tables_twice {tables' : List LoadedTable} (h : loadTables old json = some tables)
    (h' : loadTables old' json = some tables') {stage : Json}
    (hstage : stage ∈ elements "stages" json) :
    ∃ T T' table, item "table" (some stage) = some table ∧ tables = [T] ∧ tables' = [T'] ∧
      jsonToTable (old 0) table = some T ∧ jsonToTable (old' 0) table = some T' := by
  have hlength := length_loadTables h
  have hlength' := length_loadTables h'
  have hone : (elements "stages" json).length = 1 :=
    Nat.le_antisymm (hlength ▸ length_le_of_loadTables h) (List.length_pos_of_mem hstage)
  obtain ⟨T, rfl⟩ := List.length_eq_one_iff.mp (hlength.symm.trans hone)
  obtain ⟨T', rfl⟩ := List.length_eq_one_iff.mp (hlength'.symm.trans hone)
  obtain ⟨x, hx⟩ := List.length_eq_one_iff.mp hone
  obtain ⟨y, table, hy, htable, hT, -⟩ := table_of_loadTables h (i := 0) rfl
  obtain ⟨y', table', hy', htable', hT', -⟩ := table_of_loadTables h' (i := 0) rfl
  rw [hx] at hstage hy hy'
  obtain rfl := List.mem_singleton.mp hstage
  obtain rfl : stage = y := Option.some.inj hy
  obtain rfl : stage = y' := Option.some.inj hy'
  obtain rfl : table = table' := Option.some.inj (htable.symm.trans htable')
  exact ⟨T, T', table, htable, rfl, rfl, hT, hT'⟩

/-- What a file is accepted with does not matter then. -/
theorem IndependentOfHeap.loads (hi : IndependentOfHeap json)
    (h : (loadTables old json).isSome = true) (old' : ℕ → TableMemory) :
    ∃ tables, loadTables old' json = some tables := by
  obtain ⟨tables, htables⟩ := Option.isSome_iff_exists.mp h
  have hsame := hi old old' h
  unfold usedTables at hsame
  rw [htables, Option.map_some] at hsame
  obtain ⟨tables', htables', -⟩ := Option.map_eq_some_iff.mp hsame
  exact ⟨tables', htables'⟩

/-- **An update** would be refused from memory that holds an error in its
place. -/
theorem not_update_of_refusing {table : Option Json} {R : LoadedTable}
    (hR : jsonToTable refusingMemory table = some R) :
    ∀ row ∈ elements "table_rows" table, ∀ action ∈ elements "actions" (some row),
      actionType action ≠ some .xfsmUpdate := by
  intro row hrow action haction htype
  obtain ⟨k, hk⟩ := List.getElem?_of_mem hrow
  obtain ⟨i, hi⟩ := List.getElem?_of_mem haction
  obtain ⟨e, -, hread⟩ := getElem?_of_forEach (table_of_read hR).2.2.2.1 hk
  obtain ⟨act, hact, -⟩ := actions_of_read hread hi
  rw [readAction_of_returnError htype rfl] at hact
  cases hact

/-- So the tables settle what is used of them. -/
theorem IndependentOfHeap.settled (hi : IndependentOfHeap json)
    (h : (loadTables old json).isSome = true) :
    ∀ stage ∈ elements "stages" json, TableSettled (member "table" (some stage)) := by
  intro stage hstage
  obtain ⟨zeros, hzeros⟩ := hi.loads h fun _ => zeroMemory
  obtain ⟨ones, hones⟩ := hi.loads h fun _ => onesMemory
  obtain ⟨refusing, hrefusing⟩ := hi.loads h fun _ => refusingMemory
  obtain ⟨T, T', table, htable, rfl, rfl, hT, hT'⟩ := tables_twice hzeros hones hstage
  obtain ⟨_, R, table', htable', -, rfl, -, hR⟩ := tables_twice hzeros hrefusing hstage
  obtain rfl : table = table' := Option.some.inj (htable.symm.trans htable')
  have hsame := hi _ (fun _ => onesMemory) (Option.isSome_iff_exists.mpr ⟨_, hzeros⟩)
  unfold usedTables at hsame
  rw [hzeros, hones] at hsame
  have hused : T'.used onesMemory = T.used zeroMemory := (List.cons.inj (Option.some.inj hsame)).1
  rw [member_eq_of_item htable]
  exact settled_of_used hT hT' differs_zeroMemory (not_update_of_refusing hR) hused.symm

end Files

/-! ## Nine fields -/

instance (operand : Option Json) : Decidable (IsField operand) :=
  inferInstanceAs (Decidable (_ = _))

end Sw

end FlowBlaze
