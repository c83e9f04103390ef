import FlowBlaze.Common.Json
import FlowBlaze.Xl.ConditionFactory
import FlowBlaze.Xl.TableRowFactory
/-!
# The JSON of a table — `serializers`

What the compiler writes of a stage's table. Numbers are written as
strings, and enumerators as their names. An object without a serializer
of its own is written field by field; serial blocks are such objects. A
null reference that is followed ends the compiler (`none`).
-/

namespace FlowBlaze

namespace Xl

open Common

/-! ## Names of enumerators -/

/-- `OperandType.toString`. -/
def OperandType.name : OperandType → String
  | .xtraGlobalRegister => "XTRA_GLOBAL_REGISTER"
  | .xtraLocalRegister => "XTRA_LOCAL_REGISTER"
  | .xtraIntegerConst => "XTRA_INTEGER_CONST"
  | .xtraIpv4AddrConst => "XTRA_IPV4_ADDR_CONST"
  | .xtraIpv6AddrConst => "XTRA_IPV6_ADDR_CONST"
  | .xtraMacAddrConst => "XTRA_MAC_ADDR_CONST"
  | .xtraPktField => "XTRA_PKT_FIELD"
  | .xtraEventField => "XTRA_EVENT_FIELD"
  | .xtraReadOnlyRegister => "XTRA_READ_ONLY_REGISTER"

/-- `ConditionOpcode.toString`. -/
def ConditionOpcode.name : ConditionOpcode → String
  | .xtraLess => "XTRA_LESS"
  | .xtraLessEq => "XTRA_LESS_EQ"
  | .xtraGreater => "XTRA_GREATER"
  | .xtraGreaterEq => "XTRA_GREATER_EQ"
  | .xtraEqual => "XTRA_EQUAL"
  | .xtraNotEqual => "XTRA_NOT_EQUAL"

/-- `UpdateOpcode.toString`. -/
def UpdateOpcode.name : UpdateOpcode → String
  | .xtraSum => "XTRA_SUM"
  | .xtraMinus => "XTRA_MINUS"
  | .xtraMultiply => "XTRA_MULTIPLY"
  | .xtraDivide => "XTRA_DIVIDE"
  | .xtraModulo => "XTRA_MODULO"
  | .xtraMax => "XTRA_MAX"
  | .xtraMin => "XTRA_MIN"

/-- `HardwareActionOpcode.toString`. -/
def HardwareActionOpcode.name : HardwareActionOpcode → String
  | .xtraSendpkt => "XTRA_SENDPKT"
  | .xtraSettimer => "XTRA_SETTIMER"
  | .xtraStorepkt => "XTRA_STOREPKT"
  | .xtraSetfield => "XTRA_SETFIELD"
  | .xtraDeletepkt => "XTRA_DELETEPKT"
  | .xtraDeleteInstance => "XTRA_DELETE_INSTANCE"

/-- `Boolean.toString`. -/
def Boolean.name : Boolean → String
  | .xtraFalse => "XTRA_FALSE"
  | .xtraTrue => "XTRA_TRUE"
  | .xtraDontCare => "XTRA_DONT_CARE"

/-- `Event.toString`. -/
def Event.name : Event → String
  | .xtraPktRcvd => "XTRA_PKT_RCVD"
  | .xtraTimeout => "XTRA_TIMEOUT"

/-! ## Objects -/

/-- `OperandSerializer.serialize`. -/
def Operand.serialize (o : Operand) : Json :=
  match o with
  | .register r => .object [("type", .string o.toEnum.name), ("name", .string r.name)]
  | .packetField f => .object
    [("type", .string o.toEnum.name), ("name", .string f.name), ("value", .string f.value),
      ("from", .string f.from'), ("length", .string f.length)]
  | .constant c => .object [("type", .string o.toEnum.name), ("value", .string c.value)]
  | .eventField f => .object [("type", .string o.toEnum.name), ("value", .string f.name)]

/-- `ConditionSerializer.serialize`. -/
def Condition.serialize (c : Condition) : Json :=
  .object [("id", .string c.id.repr), ("opcode", .string c.opcode.name),
    ("op0", c.op0.serialize), ("op1", c.op1.serialize)]

/-- `ConditionResultSerializer.serialize`. -/
def ConditionResult.serialize (r : ConditionResult) : Json :=
  .object [("id", .string r.id.id.repr), ("result", .string r.result.name)]

/-- `ActionSerializer.serialize` of an update. -/
def Update.serialize (u : Update) : Option Json :=
  u.opcode.map fun opcode => .object
    [("opcode", .string opcode.name), ("op0", u.op0.serialize), ("op1", u.op1.serialize),
      ("op2", (Operand.register u.op2).serialize)]

/-- A member that is left out where the operand is a null reference. -/
def operandMember (name : String) (o : Option Operand) : List (String × Json) :=
  (o.map fun o => (name, o.serialize)).toList

/-- `ActionSerializer.serialize` of a hardware action. -/
def HardwareAction.serialize (a : HardwareAction) : Json :=
  .object (("opcode", .string a.opcode.name) ::
    (operandMember "op0" a.op0 ++ operandMember "op1" a.op1 ++ operandMember "op2" a.op2))

/-- `ActionSerializer.serialize`. -/
def SequentializableAction.serialize : SequentializableAction → Option Json
  | .update u => u.serialize
  | .hardwareAction a => some a.serialize

/-- An action of a row. A serial block has no serializer that is
registered. Transitions do not stay in rows. -/
def Action.serialize : Action → Option Json
  | .sequentializable action => action.serialize
  | .sequentialActions actions =>
    (actions.mapM SequentializableAction.serialize).map fun actions =>
      .object [("actions", .array actions)]
  | .stateTransition _ => none
  | .stageTransition _ => none

/-- `TableRowSerializer.serialize`. `label` is the label of a stage. -/
def TableRow.serialize (label : Stage → ℕ) (row : TableRow ConditionResult) : Option Json :=
  (row.actions.mapM Action.serialize).map fun actions => .object
    [("condition_results", .array (row.conditionResults.map ConditionResult.serialize)),
      ("state", .string row.state.repr), ("event", .string row.event.name),
      ("next_state", .string row.nextState.repr), ("actions", .array actions),
      ("next_stage", .string (label row.nextStage).repr)]

/-- `Table`. -/
structure Table where
  initialState : State
  tableRows : List (TableRow ConditionResult)
  conditions : List Condition

/-- `TableSerializer.serialize`. -/
def Table.serialize (label : Stage → ℕ) (table : Table) : Option Json :=
  (table.tableRows.mapM (TableRow.serialize label)).map fun rows => .object
    [("table_rows", .array rows), ("initial_state", .string table.initialState.repr),
      ("conditions", .array (table.conditions.map Condition.serialize))]

end Xl

end FlowBlaze
