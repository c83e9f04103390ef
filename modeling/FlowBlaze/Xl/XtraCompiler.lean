import FlowBlaze.Xl.Factories
import FlowBlaze.Xl.Serializers
/-!
# The compiler — `XtraCompiler.java`

The listener's callbacks, in the order in which a walk of the parse tree
makes them, and the compiler states they go through. Besides the blocks
of a stage there are five for actions: a macro action's body, and the
serial blocks at each level. These gather their actions in one list that
is taken when the block ends.

The hash maps of the rows are walked in orders that are parameters. The
tables hold references to row objects until the program ends, because
the row made last can still be given a condition in a later stage.
-/

namespace FlowBlaze

namespace Xl

open Common

/-- The compiler's states for actions; the block around is kept beside. -/
inductive ActionBlock
  | inMacroActionDefinitionBlock
  | inMacroActionSequentialBlock
  | inStateSequentialBlock
  | inEventSequentialBlock
  | inConditionSequentialBlock
deriving DecidableEq, Repr

/-- A `Table` of references to rows. -/
structure TableObject where
  initialState : State
  tableRows : List ℕ
  conditions : List Condition

/-- The compiler: its state machine with the rows, the action block it is
in if any, the name of the macro action met last, the actions of
`SequentialActionsFactory`, the other factories, the initial state of
`TableFactory`'s table, and the tables of the stages. -/
structure XtraCompiler where
  machine : CompilerStateMachine ConditionResult
  actionBlock : Option ActionBlock
  currentMacroAction : Option String
  sequentialActions : List SequentializableAction
  factories : Factories
  initialState : Option State
  tables : LinkedHashMap String TableObject

/-- A stage of the compiled program. -/
structure CompiledStage where
  name : String
  label : ℕ
  flowKey : Option (List PacketField)
  table : Table

namespace XtraCompiler

/-- The compiler at the start. -/
def initial : XtraCompiler := ⟨.initial, none, none, [], .initial, none, []⟩

variable (X : XtraCompiler)

/-! ## Actions -/

/-- `addActionToSequentialActionsBlock`, with the cast before it. -/
def addToSequentialActions (action : Action) : Option XtraCompiler :=
  match action with
  | .sequentializable action =>
    some { X with sequentialActions := X.sequentialActions ++ [action] }
  | _ => none

/-- `addAction`. A serial block of an event does nothing. -/
def addAction (action : Action) : Option XtraCompiler :=
  match X.actionBlock with
  | none => (X.machine.addAction action).map fun machine => { X with machine := machine }
  | some .inMacroActionDefinitionBlock =>
    (X.factories.macroActions.addAction X.currentMacroAction action).map fun macroActions =>
      { X with factories := { X.factories with macroActions := macroActions } }
  | some .inEventSequentialBlock => some X
  | some _ => X.addToSequentialActions action

/-- `addActions`. The body of a macro action does nothing, nor does a
serial block of an event. -/
def addActions (actions : List Action) : Option XtraCompiler :=
  match X.actionBlock with
  | some .inMacroActionDefinitionBlock => some X
  | some .inEventSequentialBlock => some X
  | _ => actions.foldlM addAction X

/-- The callbacks of an action. -/
def walkAction (action : ActionContext) : Option XtraCompiler :=
  (X.factories.exitAction action).bind fun (added, factories) =>
    match added with
    | .nothing => some { X with factories := factories }
    | .action action => addAction { X with factories := factories } action
    | .actions actions => addActions { X with factories := factories } actions

/-- `goInsideActionsBlock`, with what the state entered does. -/
def goInsideActionsBlock : Option XtraCompiler :=
  match X.actionBlock, X.machine.compilerState with
  | none, .inStageBlock =>
    (X.factories.macroActions.createEmptyMacroAction X.currentMacroAction).map fun macroActions =>
      { X with
        actionBlock := some .inMacroActionDefinitionBlock
        factories := { X.factories with macroActions := macroActions } }
  | none, .inStateBlock => some { X with actionBlock := some .inStateSequentialBlock }
  | none, .inEventBlock => some { X with actionBlock := some .inEventSequentialBlock }
  | none, .inConditionBlock => some { X with actionBlock := some .inConditionSequentialBlock }
  | some .inMacroActionDefinitionBlock, _ =>
    some { X with actionBlock := some .inMacroActionSequentialBlock }
  | _, _ => none

/-- `goOutsideBlock` out of a block for actions. A serial block leaves its
actions, as one, where the block around it has its own. -/
def goOutsideActionsBlock : Option XtraCompiler :=
  match X.actionBlock with
  | none => none
  | some .inMacroActionDefinitionBlock => some { X with actionBlock := none }
  | some .inMacroActionSequentialBlock =>
    (X.factories.macroActions.addAction X.currentMacroAction
      (.sequentialActions X.sequentialActions)).map fun macroActions =>
        { X with
          actionBlock := some .inMacroActionDefinitionBlock
          sequentialActions := []
          factories := { X.factories with macroActions := macroActions } }
  | some _ =>
    (X.machine.addAction (.sequentialActions X.sequentialActions)).map fun machine =>
      { X with actionBlock := none, sequentialActions := [], machine := machine }

/-- An element of a body. -/
def walkElement (element : BodyElement) : Option XtraCompiler :=
  match element with
  | .action action => X.walkAction action
  | .serial actions => do
    let X ← X.goInsideActionsBlock
    let X ← actions.foldlM walkAction X
    X.goOutsideActionsBlock

/-- A body. -/
def walkBody (body : List BodyElement) : Option XtraCompiler := body.foldlM walkElement X

/-! ## Definitions -/

/-- `exitCondition`. -/
def exitCondition (condition : ConditionContext) : Option XtraCompiler :=
  (X.factories.exitCondition condition).bind fun (result, factories) =>
    (Xl.exitCondition X.machine result).map fun machine =>
      { X with machine := machine, factories := factories }

/-- The callbacks of a definition. -/
def walkDefinition (definition : Definition) : Option XtraCompiler :=
  match definition with
  | .register global identifiers =>
    (identifiers.foldlM (Factories.allocateRegister · global ·) X.factories).map fun factories =>
      { X with factories := factories }
  | .customEvent conditions => conditions.foldlM exitCondition X
  | .macroAction identifier body => do
    let X ← { X with currentMacroAction := some identifier }.goInsideActionsBlock
    let X ← X.walkBody body
    X.goOutsideActionsBlock

/-! ## Blocks -/

/-- `TableFactory.setInitialState`. -/
def setInitialState (state : State) : Option XtraCompiler :=
  if X.initialState ≠ none ∧ X.initialState ≠ some state then none
  else some { X with initialState := some state }

/-- `goInsideBlock`, with what the state entered does. -/
def goInsideBlock (stageName : String) (isInitial : Bool) : Option XtraCompiler :=
  (X.machine.goInsideBlock stageName).bind fun machine =>
    match machine.compilerState with
    | .inStageBlock =>
      some { X with
        machine := machine
        factories := { X.factories with stages := X.factories.stages.declareStage stageName }
        initialState := none }
    | .inStateBlock =>
      if isInitial then
        X.factories.states.lastDeclaredState.bind fun state =>
          setInitialState { X with machine := machine } state
      else some { X with machine := machine }
    | _ => some { X with machine := machine }

/-- What leaving a stage does: the table is finished, and macro actions and
registers are forgotten. -/
def finishStage : Option XtraCompiler :=
  X.initialState.bind fun initialState => X.factories.stages.lastDeclaredStage.map fun name =>
    { X with
      machine := { X.machine with rows := X.machine.rows.getTableRowsAndClear.2 }
      factories := { X.factories with
        macroActions := []
        localRegisters := .new
        globalRegisters := .new
        conditions := X.factories.conditions.getConditionsAndClear.2 }
      tables := X.tables.put (.ofEq String) name
        ⟨initialState, X.machine.rows.tableRows, X.factories.conditions.getConditionsAndClear.1⟩ }

/-- `goOutsideBlock` out of another block. -/
def goOutsideBlock (orders : Orders) : Option XtraCompiler :=
  (if X.machine.compilerState = .inStageBlock then X.finishStage else some X).bind fun X =>
    (X.machine.goOutsideBlock orders).map fun machine => { X with machine := machine }

section Walk

variable (stageName : String) (orders : Orders)

/-- A condition statement. -/
def walkConditionStatement (c : ConditionStatementContext) : Option XtraCompiler := do
  let X ← X.goInsideBlock stageName false
  let X ← c.conditions.foldlM exitCondition X
  let X ← X.walkBody c.body
  X.goOutsideBlock orders

/-- An event statement. -/
def walkEventStatement (b : EventStatementContext) : Option XtraCompiler := do
  let event ← Event.toEvent b.identifier
  let X ← { X with machine := { X.machine with currentEvent := some event } }.goInsideBlock
    stageName false
  let X ← X.walkBody b.body
  let X ← b.conditionStatements.foldlM (fun X c => X.walkConditionStatement stageName orders c) X
  X.goOutsideBlock orders

/-- A state statement. -/
def walkStateStatement (S : StateStatementContext) : Option XtraCompiler := do
  let (state, states) := X.factories.states.declareState S.identifier
  let X ← { X with
    machine := { X.machine with currentState := some state }
    factories := { X.factories with states := states } }.goInsideBlock stageName S.initial
  let X ← X.walkBody S.body
  let X ← S.eventStatements.foldlM (fun X b => X.walkEventStatement stageName orders b) X
  X.goOutsideBlock orders

/-- A stage statement. -/
def walkStageStatement (T : StageStatementContext) : Option XtraCompiler := do
  let X ← X.goInsideBlock T.identifier false
  let X ← T.definitions.foldlM walkDefinition X
  let X ← X.walkBody T.body
  let X ← T.stateStatements.foldlM (fun X S => X.walkStateStatement T.identifier orders S) X
  X.goOutsideBlock orders

end Walk

/-- A program, up to its end: the states of a program without stages are
those of a stage `default`. -/
def walkProgram (orders : Orders) (P : ProgramContext) : Option XtraCompiler :=
  match P with
  | .stageProgram definitions stages =>
    (definitions.foldlM walkDefinition X).bind fun X =>
      stages.foldlM (fun X T => X.walkStageStatement orders T) X
  | .stateProgram definitions states =>
    X.walkStageStatement orders ⟨"default", definitions, [], states⟩

/-- A table with its rows. -/
def tableOf (name : String) : Option Table :=
  (X.tables.get (.ofEq String) name).map fun table =>
    ⟨table.initialState, table.tableRows.filterMap (X.machine.rows.objects[·]?), table.conditions⟩

/-- `exitProgram`: the stages of the program, as the hash map has them. -/
def exitProgram : Option (List CompiledStage) := do
  let bodies ← X.factories.stages.getStages.toOption
  let stages ← ((X.factories.stages.stages.keySet spreadHash).zip bodies).mapM fun (name, body) =>
    (X.tableOf name).map fun table => (⟨name, body.label, body.flowKey, table⟩ : CompiledStage)
  X.factories.states.checkPendings
  return stages

end XtraCompiler

/-- **The compiler.** -/
def compile (orders : Orders) (P : ProgramContext) : Option (List CompiledStage) :=
  (XtraCompiler.initial.walkProgram orders P).bind XtraCompiler.exitProgram

/-! ## The file -/

/-- `Stage.getLabel` of the stage that a row names. The rows name stages of
the program. -/
def labelIn (stages : List CompiledStage) : Stage → ℕ
  | .stage255 => 255
  | .declared name =>
    ((stages.find? fun stage => stage.name == name).map CompiledStage.label).getD 255

/-- `StageSerializer.serialize`, but for the update key. -/
def CompiledStage.serialize (label : Stage → ℕ) (stage : CompiledStage) : Option Json := do
  let table ← stage.table.serialize label
  let fields ← stage.flowKey
  return .object [("table", table), ("stage_label", .string stage.label.repr),
    ("flow_key", .array (fields.map fun field => (Operand.packetField field).serialize))]

/-- `ProgramSerializer.serialize`. -/
def serialize (stages : List CompiledStage) : Option Json :=
  (stages.mapM (CompiledStage.serialize (labelIn stages))).map fun stages =>
    .object [("stages", .array stages)]

end Xl

end FlowBlaze
