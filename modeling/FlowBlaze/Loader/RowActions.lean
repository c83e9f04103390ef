import FlowBlaze.Loader.PipeAlu
import FlowBlaze.Loader.Programmer
/-!
# Programming the actions of a row — `programmer.py`

`write_actions` gathers the actions of a row in the words of three
memories, and writes them with those of the pipelined ALU. An action that
makes no sense ends the loop with a message, and the row is written all
the same. A call that ends in an exception has no result; the registers
of the row are written last, so it writes none of them.

Of the JSON objects the actions are, an operand keeps its type and what
`int` makes of its fields.
-/

namespace FlowBlaze

namespace Loader

/-- An operand of an action that is no update. -/
structure RowOperand where
  type : String
  start : Option ℕ
  length : Option ℕ
  value : Option ℕ
deriving DecidableEq, Repr

/-- An action, by its opcode. -/
inductive RowAction
  | update (action : FbAction) (h : isAnUpdate action.opcode = true)
  | sendpkt (op1 : RowOperand)
  | setfield (op0 op2 : RowOperand)
  | pushfield (op0 op2 : RowOperand)
  | other (opcode : String)

/-- `HASH_INSERT`. -/
def hashInsert : ℕ := 0xff00

/-- `PUSH_FIELD`. -/
def pushField : ℕ := 0x000a0000

/-- `MODIFY_FIELD`. -/
def modifyField : ℕ := 0x000b0000

/-- `PORT_FLOOD`. -/
def portFlood : ℕ := 0x55

/-- `RAM2`. -/
def ram2 (i : ℕ) : Option ℕ := if i < 32 then some (0x80021000 + i * 4) else none

/-- `RAM3`. -/
def ram3 (i : ℕ) : Option ℕ := if i < 32 then some (0x80022000 + i * 4) else none

/-- `RAM4`. -/
def ram4 (i : ℕ) : Option ℕ := if i < 32 then some (0x80023000 + i * 4) else none

/-- `PIPEALU`. -/
def pipealu (i : ℕ) : Option ℕ := if i < 256 then some (0x80030000 + i * 64) else none

/-- `hton(value)`: the function has a second parameter, so the call is a
`TypeError`. -/
def htonOfOne (_ : ℕ) : Option ℕ := none

/-- `ram3_value` and `ram4_value`. -/
structure RamValues where
  ram3Value : ℕ
  ram4Value : ℕ
deriving DecidableEq, Repr

/-- How a turn of the loop ends: with the next action, or with `break`. -/
inductive Turn
  | goesOn (values : RamValues)
  | breaks (values : RamValues)

/-- The body of the loop in `write_actions`. -/
def actionTurn (values : RamValues) : RowAction → Option Turn
  | .update _ _ => some (.goesOn values)
  | .sendpkt op1 => do
    let port ← op1.value
    if port = 255 then
      return .goesOn { values with ram3Value := values.ram3Value ||| (portFlood <<< 24) }
    else if ¬port < 4 then return .breaks values
    else if port ≠ 0 then
      let bits ← ports[port - 1]?
      return .goesOn { values with ram3Value := values.ram3Value ||| (bits <<< 24) }
    else return .goesOn values
  | .setfield op0 op2 =>
    let values := { values with ram3Value := values.ram3Value ||| modifyField }
    if op0.type ≠ "XTRA_PKT_FIELD" then some (.breaks values)
    else if op2.type ≠ "XTRA_INTEGER_CONST" then some (.breaks values)
    else do
      let offset ← op0.start
      let length ← op0.length
      let value ← op2.value.bind htonOfOne
      return .goesOn { values with
        ram4Value := values.ram4Value ||| (offset ||| (length <<< 14) ||| (value <<< 16)) }
  | .pushfield op0 op2 =>
    let values := { values with ram3Value := values.ram3Value ||| pushField }
    if op0.type ≠ "XTRA_PKT_FIELD" then some (.breaks values)
    else if op2.type ≠ "XTRA_INTEGER_CONST" then some (.breaks values)
    else do
      let offset ← op0.start
      let length ← op0.length
      let value ← op2.value
      return .goesOn { values with
        ram4Value :=
          values.ram4Value ||| (offset ||| ((length <<< 14) &&& 0x3) ||| (value <<< 16)) }
  | .other _ => some (.goesOn values)

/-- The loop over the actions. -/
def gatherActions : RamValues → List RowAction → Option RamValues
  | values, [] => some values
  | values, a :: actions =>
    (actionTurn values a).bind fun turn =>
      match turn with
      | .goesOn values => gatherActions values actions
      | .breaks values => some values

/-- The actions that the allocator does not pass over. -/
def updatesOf (actions : List RowAction) : List FbAction :=
  actions.filterMap fun a => match a with
    | .update action _ => some action
    | _ => none

/-- **`write_actions`**: the register writes, in order. -/
def writeActions (entryNum : ℕ) (actions : List RowAction) (nextState currState : ℕ) :
    Option (List (ℕ × ℕ)) := do
  let ram2Address ← ram2 entryNum
  let ram3Address ← ram3 entryNum
  let ram4Address ← ram4 entryNum
  let (written, words) ← pipeAluActionsAllocator (updatesOf actions) currState
  let values ← gatherActions ⟨hashInsert, 0⟩ actions
  let ram2Value := (nextState &&& 0xff) ||| (entryNum <<< 8)
  let pipealuAddress ← pipealu entryNum
  return written ++ [(ram2Address, ram2Value), (ram3Address, values.ram3Value),
    (ram4Address, values.ram4Value)] ++
      (List.finRange 9).map fun i : Fin 9 => (pipealuAddress + i.val * 4, words i)

end Loader

end FlowBlaze
