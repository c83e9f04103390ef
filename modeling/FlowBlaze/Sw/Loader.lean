import FlowBlaze.Common.Json
import FlowBlaze.Common.Strtoul
import FlowBlaze.Sw.Worker
/-!
# The loader — `loader.c`

The program of a pipeline is a JSON file that the compiler wrote. The
loader looks each member up by name, recognises words by comparing
strings, and reads numbers out of strings. Where something is missing or
not recognised it says so and exits, or follows a null pointer; either
way there is no result here (`none`).

Nothing bounds what is written. Each array of the file is counted, in a
counter of so many bits, and then read to its end; here the arrays are
lists, and what would not fit one of the program's arrays is only longer
than that.

Records are allocated and not cleared. What a record's memory held
before is a parameter, as it stays where nothing is written: in the upper
half of a value that is set to a header field's number, and in operands
that an action does not have. So is the value that `get_out_operand`
returns where it forgets to.
-/

namespace FlowBlaze

namespace Sw

open Common Json

/-! ## Words -/

/-- `RETURN_ERROR`. -/
def returnError : BitVec 32 := -1

/-- `str_to_uint64`, `str_to_uint32` and `str_to_uint8`: the bounds they
look for are those of a signed number. -/
def strToUint (w : ℕ) (str : String) : Option (BitVec w) :=
  (strtoul str).bind fun (n, erange) =>
    let val : BitVec w := n.setWidth w
    if erange = true ∧
        (val = (BitVec.intMax 64).setWidth w ∨ val = (BitVec.intMin 64).setWidth w ∨ val = 0) then
      none
    else some val

/-- `str_to_condition_type`. -/
def conditionTypes : List (String × XfsmConditionType) :=
  [("XTRA_LESS", .xfsmLess), ("XTRA_LESS_EQ", .xfsmLessEq), ("XTRA_GREATER", .xfsmGreater),
    ("XTRA_GREATER_EQ", .xfsmGreaterEq), ("XTRA_EQUAL", .xfsmEqual),
    ("XTRA_NOT_EQUAL", .xfsmNotEqual)]

/-- `str_to_event_field`. -/
def eventFields : List (String × HdrField) := [("XTRA_PKT_RCVD_PORT", .xfsmInPort)]

/-- `str_to_header_field`. -/
def headerFields : List (String × HdrField) :=
  [("eth.src", .srcMac), ("eth.dst", .dstMac), ("eth.type", .ethType), ("ipv4.src", .ipv4Src),
    ("ipv4.dst", .ipv4Dst), ("ipv4.proto", .ipv4Proto), ("ipv4.tos", .ipv4Tos),
    ("tcp.sport", .tcpSport), ("tcp.dport", .tcpDport), ("udp.sport", .udpSport),
    ("udp.dport", .udpDport), ("XTRA_TIMESTAMP", .xfsmTimestamp)]

/-- `str_to_result`. -/
def resultWords : List (String × XfsmResult) :=
  [("XTRA_TRUE", .xfsmTrue), ("XTRA_FALSE", .xfsmFalse), ("XTRA_DONT_CARE", .xfsmDontCare)]

/-- `str_to_value_type`. -/
def valueTypes : List (String × XfsmValueType) :=
  [("XTRA_LOCAL_REGISTER", .xfsmRegister), ("XTRA_GLOBAL_REGISTER", .xfsmGlobalRegister),
    ("XTRA_INTEGER_CONST", .xfsmConstant), ("XTRA_PKT_FIELD", .xfsmHdrField),
    ("XTRA_EVENT_FIELD", .xfsmHdrField), ("XTRA_READ_ONLY_REGISTER", .xfsmHdrField)]

/-- `str_to_action_type`. The opcode is 0 where there is none. -/
def actionTypes : List (String × XfsmActionType × XfsmOpcode) :=
  [("XTRA_SUM", .xfsmUpdate, .xfsmSum), ("XTRA_MINUS", .xfsmUpdate, .xfsmMinus),
    ("XTRA_MULTIPLY", .xfsmUpdate, .xfsmMultiply), ("XTRA_DIVIDE", .xfsmUpdate, .xfsmDivide),
    ("XTRA_MODULO", .xfsmUpdate, .xfsmModulo), ("XTRA_MAX", .xfsmUpdate, .xfsmMax),
    ("XTRA_MIN", .xfsmUpdate, .xfsmMin), ("XTRA_SENDPKT", .xfsmSendpkt, .xfsmSum),
    ("XTRA_SETFIELD", .xfsmSetfield, .xfsmSum), ("XTRA_DELETEINST", .xfsmDestroy, .xfsmSum)]

/-- A member that has to be one of these words. -/
def wordItem {α : Type} (words : List (String × α)) (name : String) (j : Option Json) : Option α :=
  (stringItem name j).bind fun str => words.lookup str

/-- A member that has to be a number. -/
def uintItem (w : ℕ) (name : String) (j : Option Json) : Option (BitVec w) :=
  (stringItem name j).bind (strToUint w)

/-! ## Operands -/

/-- Writing an enumerator into the lower half of a value. -/
def hdrFieldValue (old : Word64) (f : HdrField) : Word64 :=
  (old.extractLsb' 32 32 : BitVec 32) ++ (BitVec.ofNat 32 f.number : BitVec 32)

/-- "Try to parse as event field or header field". -/
def strToField (str : String) : Option HdrField :=
  (eventFields.lookup str).or (headerFields.lookup str)

/-- The member `value`, or the member `name` where that is no string. -/
def fieldName (operand : Option Json) : Option String :=
  (item "value" operand).bind fun value =>
    match valuestring value with
    | some str => some str
    | none => stringItem "name" operand

/-- `get_operand`. `old` is what the value held. -/
def getOperand (old : Word64) (operand : Option Json) : Option (XfsmValueType × Word64) :=
  (wordItem valueTypes "type" operand).bind fun type =>
    match type with
    | .xfsmRegister | .xfsmGlobalRegister =>
      (uintItem 64 "name" operand).map fun val => (type, val)
    | .xfsmConstant => (uintItem 64 "value" operand).map fun val => (type, val)
    | .xfsmHdrField =>
      ((fieldName operand).bind strToField).map fun f => (type, hdrFieldValue old f)
    | .other => some (type, old)

/-- `get_out_operand`. On success it returns no value of its own;
`returned` is what its caller finds. -/
def getOutOperand (returned : BitVec 32) (operand : Option Json) : Option (XfsmValueType × Byte) :=
  (wordItem valueTypes "type" operand).bind fun type =>
    if type = .xfsmRegister ∨ type = .xfsmGlobalRegister then
      (uintItem 8 "name" operand).bind fun val =>
        if returned = returnError then none else some (type, val)
    else none

/-! ## Conditions -/

/-- The loop body of `json_to_conditions`: a condition and its id. -/
def readCondition (old : XfsmCondition) (condition : Json) :
    Option (BitVec 32 × XfsmCondition) := do
  let id ← uintItem 32 "id" (some condition)
  let conditionType ← wordItem conditionTypes "opcode" (some condition)
  let op0 ← item "op0" (some condition)
  let (type1, value1) ← getOperand old.value1 op0
  let op1 ← item "op1" (some condition)
  let (type2, value2) ← getOperand old.value2 op1
  return (id, ⟨type1, type2, value1, value2, conditionType⟩)

/-- `json_to_conditions`: what is written into the array, in this order. -/
def jsonToConditions (old : ℕ → XfsmCondition) (conditions : Option Json) :
    Option (List (BitVec 32 × XfsmCondition)) :=
  if (children conditions).length < 255 then
    forEach (fun i => readCondition (old i)) 0 (children conditions)
  else none

/-- An element of the array: what was written there last. -/
def conditionAt (written : List (BitVec 32 × XfsmCondition)) (id : ℕ) : Option XfsmCondition :=
  written.reverse.lookup (BitVec.ofNat 32 id)

/-! ## Actions -/

/-- What is in memory when an action is loaded: what its record held, and
what `get_out_operand` is found to return. -/
structure ActionMemory where
  record : XfsmAction
  returned : BitVec 32

/-- The `switch` of `json_to_actions`. -/
def readOperands (old : ActionMemory) (type : XfsmActionType) (opcode : XfsmOpcode)
    (op0 op1 op2 : Option Json) : Option XfsmAction :=
  let blank := { old.record with type := type, opcode := opcode }
  match type with
  | .xfsmUpdate => do
    let (type1, value1) ← getOperand old.record.value1 op0
    let (type2, value2) ← getOperand old.record.value2 op1
    let (outType, output) ← getOutOperand old.returned op2
    return { blank with
      type1 := type1, value1 := value1, type2 := type2, value2 := value2
      outType := outType, output := output }
  | .xfsmSendpkt => do
    let (type1, value1) ← getOperand old.record.value1 op0
    let (type2, value2) ← getOperand old.record.value2 op1
    return { blank with type1 := type1, value1 := value1, type2 := type2, value2 := value2 }
  | .xfsmSetfield => do
    let (type1, value1) ← getOperand old.record.value1 op0
    let (type2, value2) ← getOperand old.record.value2 op1
    let (type3, value3) ← getOperand old.record.value3 op2
    return { blank with
      type1 := type1, value1 := value1, type2 := type2, value2 := value2
      type3 := type3, value3 := value3 }
  | .xfsmDestroy => none

/-- The loop body of `json_to_actions`. -/
def readAction (old : ActionMemory) (action : Json) : Option XfsmAction := do
  let (type, opcode) ← wordItem actionTypes "opcode" (some action)
  let op0 ← item "op0" (some action)
  let op1 ← item "op1" (some action)
  let op2 ← item "op2" (some action)
  readOperands old type opcode op0 op1 op2

/-- `json_to_actions`, and the copy of its result into a row: the actions
are counted in 16 bits, and as many are copied. -/
def jsonToActions (old : ℕ → ActionMemory) (actions : Option Json) : Option (List XfsmAction) :=
  (forEach (fun i => readAction (old i)) 0 (children actions)).map fun parsed =>
    parsed.take (BitVec.ofNat 16 parsed.length).toNat

/-! ## Rows -/

/-- The loop body over `condition_results`. -/
def readResult (results : Results) (condition : Json) : Option Results := do
  let id ← uintItem 32 "id" (some condition)
  if id.toNat < maxConditions then
    let result ← wordItem resultWords "result" (some condition)
    return fun j => if j.val = id.toNat then result else results j
  else none

/-- The results a row asks for. -/
def readResults (conditions : Option Json) : Option Results :=
  if (children conditions).length ≤ maxConditions then
    (children conditions).foldlM readResult fun _ => .xfsmDontCare
  else none

/-- `json_to_table_entry`. The event of a row is not read. -/
def jsonToTableEntry (old : ℕ → ActionMemory) (json : Json) : Option XfsmTableEntry := do
  let conditions ← item "condition_results" (some json)
  let actions ← item "actions" (some json)
  let currentState ← uintItem 32 "state" (some json)
  let nextState ← uintItem 32 "next_state" (some json)
  let nextStage ← uintItem 8 "next_stage" (some json)
  let results ← readResults conditions
  let actions ← jsonToActions old actions
  return ⟨currentState, nextState, nextStage, results, actions⟩

/-! ## Tables -/

/-- `json_to_lookup_key`: the fields, one after the other. A value that is
no string is a null reference. -/
def jsonToLookupKey (fields : Option Json) : Option (List HdrField) :=
  forEach (fun _ field => wordItem headerFields "value" (some field)) 0 (children fields)

/-- The last of the fields that are counted to a place. -/
def lastAt (flds : List HdrField) (place : ℕ) : Option HdrField :=
  ((flds.zipIdx.filter fun q => q.2 % 2 ^ 8 = place).getLast?).map Prod.fst

/-- What is in memory when a table is loaded. A place of the condition
array that is never set leads to a `stray` one. -/
structure TableMemory where
  conditions : ℕ → XfsmCondition
  stray : ℕ → XfsmCondition
  actions : ℕ → ℕ → ActionMemory
  biflowNo : Byte

/-- What `json_to_table` hands to `xfsm_table_create`: all the rows and
fields that it wrote, and their number as it counted them. -/
structure LoadedTable where
  conditionsNumber : ℕ
  conditions : List (BitVec 32 × XfsmCondition)
  initialState : Byte
  tableSize : Byte
  entries : List XfsmTableEntry
  lookupKey : List HdrField
  biflowNo : Byte

/-- `json_to_table`, up to the call of `xfsm_table_create`. Right behind
the eight fields of a lookup key is `biflow_no`, so that a ninth is stored
there. That the conditions are counted through a pointer to four bytes, in
one, is left out. -/
def jsonToTable (old : TableMemory) (table : Option Json) : Option LoadedTable := do
  let conditions ← item "conditions" table
  let written ← jsonToConditions old.conditions conditions
  let initialState ← uintItem 8 "initial_state" table
  let tableRows ← item "table_rows" table
  let entries ← forEach (fun i => jsonToTableEntry (old.actions i)) 0 (children tableRows)
  let fields ← item "flow_key" table
  let lookupKey ← jsonToLookupKey fields
  return {
    conditionsNumber := written.length
    conditions := written
    initialState := initialState
    tableSize := BitVec.ofNat 8 entries.length
    entries := entries
    lookupKey := lookupKey
    biflowNo :=
      ((lastAt lookupKey lookupKeySize).map fun f => BitVec.ofNat 8 f.number).getD old.biflowNo }

/-- Whether `xfsm_table_create` comes back, for the table of a stage. All
tables have the id 0, and so one name for their pools of packet templates:
from the second on that is taken, and the program exits. Where no row is
counted there is no memory for the states, and the first is written all
the same. -/
def LoadedTable.isCreated (stage : ℕ) (T : LoadedTable) : Bool := stage = 0 && T.tableSize ≠ 0

/-- **Loading a pipeline**: the tables that `fb_worker_main_loop` stores one
after the other. A file that is no JSON has no stages. -/
def loadTables (old : ℕ → TableMemory) (json : Option Json) : Option (List LoadedTable) :=
  (item "stages" json).bind fun stages =>
    forEach (fun i stage => ((item "table" (some stage)).bind (jsonToTable (old i))).filter
      (LoadedTable.isCreated i)) 0 (children stages)

end Sw

end FlowBlaze
