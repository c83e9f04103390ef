import FlowBlaze.Xl.Action
/-!
# From state blocks to table rows — `TableRowFactory.java`

The compiler walks the parse tree of a stage and builds its rows as it
goes: a row object for each condition statement, and for each event and
each state a list of the rows made under it and of the actions met
outside any condition. When a state block closes, those actions are put
in front of the rows' own, rows are made up where there are none, and the
transitions are taken out of the actions.

Row objects are shared between three lists, so they live in a store of
their own here and the lists hold references. The hash maps are walked in
an order that is a parameter. Stages without macros, serial blocks and
custom events are meant; what a condition is does not matter, and `κ` is
what `exitCondition` hands over. `none` is an exception, which ends the
compiler.
-/

namespace FlowBlaze

namespace Xl

open Common

/-- `Event`. -/
inductive Event
  | xtraPktRcvd
  | xtraTimeout
deriving DecidableEq, Repr

/-- `Event.getEvents`. -/
def Event.getEvents : List Event := [.xtraPktRcvd, .xtraTimeout]

/-- `TableRow`. -/
structure TableRow (κ : Type) where
  conditionResults : List κ
  actions : List Action
  state : State
  event : Event
  nextState : State
  nextStage : Stage
deriving DecidableEq

/-- `TableRowStateEventActions`. -/
structure StateEventActions where
  tableRows : List ℕ
  actions : List Action
deriving DecidableEq

/-- Add a row to what was made under an event or a state. -/
def StateEventActions.addRow (ref : ℕ) (value : StateEventActions) : StateEventActions :=
  { value with tableRows := value.tableRows ++ [ref] }

/-- Add an action there. -/
def StateEventActions.addAction (action : Action) (value : StateEventActions) :
    StateEventActions :=
  { value with actions := value.actions ++ [action] }

/-- `TableRowFactory`, with the store of row objects. -/
structure TableRowFactory (κ : Type) where
  objects : List (TableRow κ)
  tableRows : List ℕ
  current : Option ℕ
  eventRows : LinkedHashMap Event StateEventActions
  stateRows : LinkedHashMap State StateEventActions

variable {κ : Type}

namespace TableRow

/-- The constructor. -/
def new (state : State) (event : Event) (nextStage : Stage) : TableRow κ :=
  ⟨[], [], state, event, state, nextStage⟩

/-- `setNextState`. -/
def setNextState (row : TableRow κ) (nextState : State) : Option (TableRow κ) :=
  if row.nextState ≠ row.state then none else some { row with nextState := nextState }

/-- `isEmpty`. -/
def isEmpty (lastDeclaredStage : Option Stage) (row : TableRow κ) : Bool :=
  row.actions.isEmpty && row.state == row.nextState && some row.nextStage == lastDeclaredStage

/-- The inner loop of `processSetNext`, with the actions kept so far. -/
def processActions : TableRow κ → List Action → List Action → Option (TableRow κ)
  | row, kept, [] => some { row with actions := kept }
  | row, kept, .stateTransition op0 :: actions =>
    (row.setNextState op0).bind fun row => processActions row kept actions
  | row, kept, .stageTransition stage :: actions =>
    processActions { row with nextStage := stage } kept actions
  | row, kept, action :: actions => processActions row (kept ++ [action]) actions

end TableRow

namespace TableRowFactory

/-- The constructor. -/
def new : TableRowFactory κ := ⟨[], [], none, [], []⟩

variable (F : TableRowFactory κ)

/-- A new row object, added to the stage's rows. -/
def addTableRow (row : TableRow κ) : TableRowFactory κ :=
  { F with objects := F.objects ++ [row], tableRows := F.tableRows ++ [F.objects.length] }

/-- `addState`. -/
def addState (state : State) : TableRowFactory κ :=
  if F.stateRows.containsKey (.ofEq State) state then F
  else { F with stateRows := F.stateRows.put (.ofEq State) state ⟨[], []⟩ }

/-- `addEvent`. -/
def addEvent (event : Event) : TableRowFactory κ :=
  if F.eventRows.containsKey (.ofEq Event) event then F
  else { F with eventRows := F.eventRows.put (.ofEq Event) event ⟨[], []⟩ }

/-- `createNewTableRow`. -/
def createNewTableRow (event : Event) (state : State) : TableRowFactory κ :=
  let ref := F.objects.length
  let F := { F.addTableRow (.new state event .stage255) with current := some ref }
  let F := F.addEvent event
  let F := { F with
    eventRows := F.eventRows.modify (.ofEq Event) event (StateEventActions.addRow ref) }
  let F := F.addState state
  { F with stateRows := F.stateRows.modify (.ofEq State) state (StateEventActions.addRow ref) }

/-- `addConditionResult`. -/
def addConditionResult (conditionResult : κ) : Option (TableRowFactory κ) :=
  F.current.map fun ref =>
    { F with objects := F.objects.modify ref fun row =>
        { row with conditionResults := row.conditionResults ++ [conditionResult] } }

/-- `addActionToCurrentTableRow`. -/
def addActionToCurrentTableRow (action : Action) : Option (TableRowFactory κ) :=
  F.current.map fun ref =>
    { F with objects := F.objects.modify ref fun row =>
        { row with actions := row.actions ++ [action] } }

/-- `addActionToBlock`, for a state. -/
def addActionToStateBlock (action : Action) (state : State) : Option (TableRowFactory κ) :=
  if F.stateRows.containsKey (.ofEq State) state then
    some { F with
      stateRows := F.stateRows.modify (.ofEq State) state (StateEventActions.addAction action) }
  else none

/-- `addActionToBlock`, for an event. -/
def addActionToEventBlock (action : Action) (event : Event) : Option (TableRowFactory κ) :=
  if F.eventRows.containsKey (.ofEq Event) event then
    some { F with
      eventRows := F.eventRows.modify (.ofEq Event) event (StateEventActions.addAction action) }
  else none

/-! ## Closing a state block -/

/-- `finalizeRows`. -/
def finalizeRows (value : StateEventActions) : TableRowFactory κ :=
  { F with
    objects := value.tableRows.foldl (fun objects ref => objects.modify ref fun row =>
      { row with actions := value.actions ++ row.actions }) F.objects }

/-- The loop body of `finalizeEventRows`. The row it makes up is one of
the current state and event, and a row without these is never written out. -/
def finalizeEventRow (currentState : Option State) (currentEvent : Option Event)
    (F : TableRowFactory κ) (value : StateEventActions) : Option (TableRowFactory κ) :=
  if value.tableRows.isEmpty then
    currentState.bind fun state => currentEvent.map fun event =>
      (F.addTableRow (.new state event .stage255)).finalizeRows (value.addRow F.objects.length)
  else some (F.finalizeRows value)

/-- The loop body of `finalizeStateRows`. -/
def finalizeStateRow (currentState : Option State) (F : TableRowFactory κ)
    (value : StateEventActions) : Option (TableRowFactory κ) :=
  if value.tableRows.isEmpty then
    currentState.map fun state =>
      let (F, value) := Event.getEvents.foldl (fun (F, value) event =>
        (F.addTableRow (.new state event .stage255), value.addRow F.objects.length)) (F, value)
      F.finalizeRows value
  else some (F.finalizeRows value)

/-- `processSetNext`. -/
def processSetNext : Option (TableRowFactory κ) :=
  F.tableRows.foldlM (fun F ref =>
    (F.objects[ref]?).bind fun row =>
      (row.processActions [] row.actions).map fun row =>
        { F with objects := F.objects.set ref row }) F

/-- `deleteEmptyTableRows`. -/
def deleteEmptyTableRows (lastDeclaredStage : Option Stage) : TableRowFactory κ :=
  { F with tableRows := F.tableRows.filter fun ref =>
      (F.objects[ref]?).all fun row => !row.isEmpty lastDeclaredStage }

/-- The values of a hash map, in the order it is walked. -/
def values {K : Type} [DecidableEq K] (order : HashOrder K)
    (m : LinkedHashMap K StateEventActions) : List StateEventActions :=
  (order.run m.keySet).filterMap (m.get (.ofEq K))

/-- `finalizeTableRows`. -/
def finalizeTableRows (eventOrder : HashOrder Event) (stateOrder : HashOrder State)
    (currentState : Option State) (currentEvent : Option Event) (lastDeclaredStage : Option Stage) :
    Option (TableRowFactory κ) := do
  let F ← (values eventOrder F.eventRows).foldlM (finalizeEventRow currentState currentEvent) F
  let F ← (values stateOrder F.stateRows).foldlM (finalizeStateRow currentState) F
  let F ← { F with eventRows := [], stateRows := [] }.processSetNext
  return F.deleteEmptyTableRows lastDeclaredStage

/-- `getTableRowsAndClear`. -/
def getTableRowsAndClear : List (TableRow κ) × TableRowFactory κ :=
  (F.tableRows.filterMap (F.objects[·]?), { F with tableRows := [] })

end TableRowFactory

/-! ## The walk -/

/-- The compiler's states, by the block it is in. -/
inductive CompilerState
  | inOutsideBlock1
  | inOutsideBlock2
  | inStageBlock
  | inStateBlock
  | inEventBlock
  | inConditionBlock
deriving DecidableEq, Repr

/-- `CompilerStateMachine`, with the factories it drives. -/
structure CompilerStateMachine (κ : Type) where
  compilerState : CompilerState
  currentEvent : Option Event
  currentState : Option State
  lastDeclaredStage : Option Stage
  rows : TableRowFactory κ

/-- The orders in which the hash maps are walked when a state block
closes. -/
structure Orders where
  event : HashOrder Event
  state : HashOrder State

namespace CompilerStateMachine

variable (M : CompilerStateMachine κ)

/-- `goInsideBlock`, with what the state entered does. -/
def goInsideBlock (stageName : String) : Option (CompilerStateMachine κ) :=
  match M.compilerState with
  | .inOutsideBlock1 | .inOutsideBlock2 =>
    some { M with compilerState := .inStageBlock, lastDeclaredStage := some (.declared stageName) }
  | .inStageBlock => M.currentState.map fun state =>
    { M with compilerState := .inStateBlock, rows := M.rows.addState state }
  | .inStateBlock => M.currentEvent.map fun event =>
    { M with compilerState := .inEventBlock, rows := M.rows.addEvent event }
  | .inEventBlock => M.currentState.bind fun state => M.currentEvent.map fun event =>
    { M with compilerState := .inConditionBlock, rows := M.rows.createNewTableRow event state }
  | .inConditionBlock => none

/-- `goOutsideBlock`, with what the state left does; leaving a stage takes
its rows. -/
def goOutsideBlock (orders : Orders) : Option (CompilerStateMachine κ) :=
  match M.compilerState with
  | .inOutsideBlock1 | .inOutsideBlock2 => none
  | .inStageBlock => some { M with compilerState := .inOutsideBlock2 }
  | .inStateBlock =>
    (M.rows.finalizeTableRows orders.event orders.state M.currentState M.currentEvent
      M.lastDeclaredStage).map fun rows => { M with compilerState := .inStageBlock, rows := rows }
  | .inEventBlock => some { M with compilerState := .inStateBlock }
  | .inConditionBlock => some { M with compilerState := .inEventBlock }

/-- `addAction`. -/
def addAction (action : Action) : Option (CompilerStateMachine κ) :=
  match M.compilerState with
  | .inStateBlock => M.currentState.bind fun state =>
    (M.rows.addActionToStateBlock action state).map fun rows => { M with rows := rows }
  | .inEventBlock => M.currentEvent.bind fun event =>
    (M.rows.addActionToEventBlock action event).map fun rows => { M with rows := rows }
  | .inConditionBlock =>
    (M.rows.addActionToCurrentTableRow action).map fun rows => { M with rows := rows }
  | _ => some M

end CompilerStateMachine

/-- A condition statement: what its conditions become, and its actions. -/
structure ConditionStatement (κ : Type) where
  conditions : List κ
  actions : List Action

/-- An event statement. -/
structure EventStatement (κ : Type) where
  event : Event
  actions : List Action
  conditionStatements : List (ConditionStatement κ)

/-- A state statement. -/
structure StateStatement (κ : Type) where
  state : State
  actions : List Action
  eventStatements : List (EventStatement κ)

section Walk

variable (stageName : String) (orders : Orders)

/-- `exitCondition`, as far as the row goes. -/
def exitCondition (M : CompilerStateMachine κ) (condition : κ) :
    Option (CompilerStateMachine κ) :=
  (M.rows.addConditionResult condition).map fun rows => { M with rows := rows }

/-- Walking a condition statement. -/
def walkCondition (M : CompilerStateMachine κ) (c : ConditionStatement κ) :
    Option (CompilerStateMachine κ) := do
  let M ← M.goInsideBlock stageName
  let M ← c.conditions.foldlM exitCondition M
  let M ← c.actions.foldlM CompilerStateMachine.addAction M
  M.goOutsideBlock orders

/-- Walking an event statement. -/
def walkEvent (M : CompilerStateMachine κ) (b : EventStatement κ) :
    Option (CompilerStateMachine κ) := do
  let M ← { M with currentEvent := some b.event }.goInsideBlock stageName
  let M ← b.actions.foldlM CompilerStateMachine.addAction M
  let M ← b.conditionStatements.foldlM (walkCondition stageName orders) M
  M.goOutsideBlock orders

/-- Walking a state statement. -/
def walkState (M : CompilerStateMachine κ) (S : StateStatement κ) :
    Option (CompilerStateMachine κ) := do
  let M ← { M with currentState := some S.state }.goInsideBlock stageName
  let M ← S.actions.foldlM CompilerStateMachine.addAction M
  let M ← S.eventStatements.foldlM (walkEvent stageName orders) M
  M.goOutsideBlock orders

end Walk

/-- The compiler before its first stage. -/
def CompilerStateMachine.initial : CompilerStateMachine κ :=
  ⟨.inOutsideBlock1, none, none, none, .new⟩

/-- Walking state statements, each with its number. The orders of the hash
maps may differ from one to the next. -/
def walkStates (stageName : String) (orders : ℕ → Orders) (M : CompilerStateMachine κ)
    (blocks : List (StateStatement κ × ℕ)) : Option (CompilerStateMachine κ) :=
  blocks.foldlM (fun M block => walkState stageName (orders block.2) M block.1) M

/-- **The rows of a stage.** -/
def compileStage (stageName : String) (orders : ℕ → Orders) (blocks : List (StateStatement κ)) :
    Option (List (TableRow κ)) := do
  let M ← CompilerStateMachine.initial.goInsideBlock stageName
  let M ← walkStates stageName orders M blocks.zipIdx
  return M.rows.getTableRowsAndClear.1

end Xl

end FlowBlaze
