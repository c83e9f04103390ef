import FlowBlaze.Xl.Operand
/-!
# Actions — `model/action`

What a table row may do: updates of registers and hardware actions, runs
of these in sequence, and the transitions to a next state and a next
stage, which do not stay in the row.
-/

namespace FlowBlaze

namespace Xl

/-- `UpdateOpcode`. -/
inductive UpdateOpcode
  | xtraSum
  | xtraMinus
  | xtraMultiply
  | xtraDivide
  | xtraModulo
  | xtraMax
  | xtraMin
deriving DecidableEq, Repr

/-- `HardwareActionOpcode`. -/
inductive HardwareActionOpcode
  | xtraSendpkt
  | xtraSettimer
  | xtraStorepkt
  | xtraSetfield
  | xtraDeletepkt
  | xtraDeleteInstance
deriving DecidableEq, Repr

/-- `Update`. The opcode may be a null reference. -/
structure Update where
  opcode : Option UpdateOpcode
  op0 : Operand
  op1 : Operand
  op2 : Register
deriving DecidableEq, Repr

/-- `HardwareAction`. The operands past the opcode's number are null
references. -/
structure HardwareAction where
  op0 : Option Operand
  op1 : Option Operand
  op2 : Option Operand
  opcode : HardwareActionOpcode
deriving DecidableEq, Repr

/-- `SequentializableActions`. -/
inductive SequentializableAction
  | update (update : Update)
  | hardwareAction (action : HardwareAction)
deriving DecidableEq, Repr

/-- `State`: its label. -/
abbrev State := ℕ

/-- A stage object: one made for a row, with the label 255, is no other
object; the stages of the program are told apart by name. -/
inductive Stage
  | stage255
  | declared (name : String)
deriving DecidableEq, Repr

/-- `Action`. -/
inductive Action
  | sequentializable (action : SequentializableAction)
  | sequentialActions (actions : List SequentializableAction)
  | stateTransition (op0 : State)
  | stageTransition (stage : Stage)
deriving DecidableEq, Repr

end Xl

end FlowBlaze
