import FlowBlaze.Xl.ParseTree
import FlowBlaze.Xl.StageFactory
/-!
# Names — the compiler's factories

What the names of a program stand for: registers, states, stages and
macro actions, each kept by a factory of its own. `none` is an exception,
and every exception ends the compiler.
-/

namespace FlowBlaze

namespace Xl

open Common

/-! ## Registers -/

/-- `LocalRegisterFactory` and `GlobalRegisterFactory`. -/
structure RegisterFactory where
  registers : LinkedHashMap String Register
  counter : ℕ

namespace RegisterFactory

/-- The constructor. -/
def new : RegisterFactory := ⟨[], 0⟩

variable (F : RegisterFactory) (name : String)

/-- `isPresent`. -/
def isPresent : Bool := F.registers.containsKey (.ofEq String) name

/-- `allocateRegister`, next to the factory of the other kind. -/
def allocateRegister (cls : RegisterClass) (other : RegisterFactory) : Option RegisterFactory :=
  if other.isPresent name || F.isPresent name then none
  else some ⟨F.registers.put (.ofEq String) name ⟨cls, toString F.counter⟩, F.counter + 1⟩

/-- `getRegister`. -/
def getRegister : Option Register := F.registers.get (.ofEq String) name

end RegisterFactory

/-- `ReadOnlyRegisterFactory.getReadOnlyRegister`. -/
def getReadOnlyRegister : String → Option Register
  | "currentTime" => some ⟨.readOnlyRegister, "XTRA_TIMESTAMP"⟩
  | _ => none

/-! ## States -/

/-- `StateFactory`. Of the pending states only the names are used. -/
structure StateFactory where
  counter : ℕ
  states : LinkedHashMap String State
  pendingStates : List String
  lastDeclaredState : Option State
deriving DecidableEq

namespace StateFactory

/-- The constructor. -/
def new : StateFactory := ⟨0, [("any", 255)], [], none⟩

variable (F : StateFactory) (name : String)

/-- A state that is not there is made. -/
def makeState : State × StateFactory :=
  match F.states.get (.ofEq String) name with
  | some state => (state, F)
  | none =>
    (F.counter, { F with
      counter := F.counter + 1
      states := F.states.put (.ofEq String) name F.counter })

/-- `declareState`. -/
def declareState : State × StateFactory :=
  let (state, F) := F.makeState name
  (state, { F with
    pendingStates := F.pendingStates.filter fun pending => pending != name
    lastDeclaredState := some state })

/-- `referenceState`. -/
def referenceState : State × StateFactory :=
  match F.states.get (.ofEq String) name with
  | some state => (state, F)
  | none =>
    let (state, F) := F.makeState name
    (state, { F with pendingStates := F.pendingStates ++ [name] })

/-- `checkPendings`. -/
def checkPendings : Option Unit := if F.pendingStates.isEmpty then some () else none

end StateFactory

/-! ## Macro actions -/

/-- `MacroActionsFactory`. A name may be a null reference. -/
abbrev MacroActionsFactory := LinkedHashMap (Option String) (List Action)

namespace MacroActionsFactory

variable (F : MacroActionsFactory) (name : Option String)

/-- `createEmptyMacroAction`. -/
def createEmptyMacroAction : Option MacroActionsFactory :=
  if F.containsKey (.ofEq _) name then none else some (F.put (.ofEq _) name [])

/-- `getMacroAction`. -/
def getMacroAction : Option (List Action) := F.get (.ofEq _) name

/-- `addAction`. -/
def addAction (action : Action) : Option MacroActionsFactory :=
  if F.containsKey (.ofEq _) name then
    some (F.modify (.ofEq _) name fun actions => actions ++ [action])
  else none

end MacroActionsFactory

/-! ## Calls and assignments -/

/-- The factories that the actions of a program ask. -/
structure Factories where
  macroActions : MacroActionsFactory
  localRegisters : RegisterFactory
  globalRegisters : RegisterFactory
  states : StateFactory
  stages : StageFactory ConditionResult
  conditions : ConditionFactory

/-- `HardwareActionOpcode.toHardwareActionOpcode`. -/
def HardwareActionOpcode.toHardwareActionOpcode : String → Option HardwareActionOpcode
  | "sendPacket" => some .xtraSendpkt
  | "setTimer" => some .xtraSettimer
  | "storePacket" => some .xtraStorepkt
  | "setField" => some .xtraSetfield
  | "deletePacket" => some .xtraDeletepkt
  | "deleteInstance" => some .xtraDeleteInstance
  | _ => none

/-- `CallFactory.argsMap`. -/
def HardwareActionOpcode.argsMap : HardwareActionOpcode → ℕ
  | .xtraSendpkt => 2
  | .xtraSettimer => 3
  | .xtraStorepkt => 1
  | .xtraSetfield => 3
  | .xtraDeletepkt => 1
  | .xtraDeleteInstance => 0

/-- `CallFactory.getAction`. -/
def getAction (name : String) (args : List Operand) : Option HardwareAction :=
  (HardwareActionOpcode.toHardwareActionOpcode name).bind fun opcode =>
    if args.length ≠ opcode.argsMap then none
    else some ⟨args[0]?, args[1]?, args[2]?, opcode⟩

/-- The opcode that `exitExpr` finds; it does not ask for `MOD`. -/
def ExprToken.opcode : ExprToken → Option UpdateOpcode
  | .mul => some .xtraMultiply
  | .div => some .xtraDivide
  | .plus => some .xtraSum
  | .minus => some .xtraMinus
  | .mod => none
  | .max => some .xtraMax
  | .min => some .xtraMin

/-- What the listener has to do with the action of a call: nothing, or
add it, or add those of a macro action. -/
inductive Added
  | nothing
  | action (action : Action)
  | actions (actions : List Action)
deriving DecidableEq

namespace Factories

variable (F : Factories)

/-- The factories at the start. -/
def initial : Factories := ⟨[], .new, .new, .new, .empty, .new⟩

/-- `OperandFactory.getOperand`. -/
def getOperand : Term → Option Operand
  | .field _ operand => operand
  | .identifier name =>
    ((getReadOnlyRegister name).or
      ((F.localRegisters.getRegister name).or (F.globalRegisters.getRegister name))).map .register
  | .constant _ constant => constant.map .constant

/-- `OperandFactory.getRegister`. -/
def getRegister (name : String) : Option Register :=
  (F.localRegisters.getRegister name).or (F.globalRegisters.getRegister name)

/-- A field of `CallFactory.getFlowKey` and `getUpdateKey`. -/
def getKeyField : Term → Option PacketField
  | .field _ (some (.packetField field)) => some field
  | _ => none

/-- `exitExpr`: the opcode and the operands of the update. -/
def exitExpr : Expr → Option (Option UpdateOpcode × Operand × Operand)
  | .binary token op0 op1 =>
    (F.getOperand op0).bind fun op0 => (F.getOperand op1).map fun op1 => (token.opcode, op0, op1)
  | .term op0 => (F.getOperand op0).map fun op0 =>
    (some .xtraSum, op0, .constant ⟨.integerConstant, "0"⟩)

/-- `exitAssignment`. -/
def exitAssignment (identifier : String) (expr : Expr) : Option Action :=
  (F.exitExpr expr).bind fun (opcode, op0, op1) => (F.getRegister identifier).map fun register =>
    .sequentializable (.update ⟨opcode, op0, op1, register⟩)

/-- `exitCall`. A macro action is looked for before a hardware action. -/
def exitCall (id : String) (terms : List Term) : Option (Added × Factories) :=
  if id = "setNextState" then
    match terms with
    | [term] =>
      let (state, states) := F.states.referenceState term.getText
      some (.action (.stateTransition state), { F with states := states })
    | _ => none
  else if id = "setFlowKey" then
    (terms.mapM getKeyField).bind fun fields =>
      (F.stages.call (.setFlowKey fields)).map fun stages =>
      (.nothing, { F with stages := stages })
  else if id = "setUpdateKey" then
    (terms.mapM getKeyField).bind fun _ => F.stages.lastDeclaredStage.map fun _ => (.nothing, F)
  else if id = "setNextStage" then
    match terms with
    | [term] =>
      some (.action (.stageTransition (.declared term.getText)),
        { F with stages := F.stages.referenceStage term.getText })
    | _ => none
  else
    match F.macroActions.getMacroAction (some id) with
    | some actions => some (.actions actions, F)
    | none =>
      (terms.mapM F.getOperand).bind fun args => (getAction id args).map fun action =>
        (.action (.sequentializable (.hardwareAction action)), F)

/-- The callbacks of an action. -/
def exitAction : ActionContext → Option (Added × Factories)
  | .call id terms => F.exitCall id terms
  | .assignment identifier expr => (F.exitAssignment identifier expr).map fun action =>
    (.action action, F)

/-- `exitCondition`: the condition result that is added to the row. -/
def exitCondition (c : ConditionContext) : Option (ConditionResult × Factories) :=
  (F.getOperand c.op0).bind fun op0 => (F.getOperand c.op1).bind fun op1 =>
    (F.conditions.exitCondition ⟨op0, op1, c.opcode⟩).map fun (result, conditions) =>
      (result, { F with conditions := conditions })

/-- A register of `exitRegister_definition`. -/
def allocateRegister (global : Bool) (name : String) : Option Factories :=
  if global then
    (F.globalRegisters.allocateRegister name .globalRegister F.localRegisters).map fun registers =>
      { F with globalRegisters := registers }
  else
    (F.localRegisters.allocateRegister name .localRegister F.globalRegisters).map fun registers =>
      { F with localRegisters := registers }

end Factories

end Xl

end FlowBlaze
