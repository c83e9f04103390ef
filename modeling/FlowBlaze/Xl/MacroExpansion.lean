import FlowBlaze.Xl.Scope
/-!
# Macro actions as abbreviations

A program with each macro call replaced, transitively, by the body of the
macro action. The definitions stay, since the states and stages they
mention are numbered there, but they may be renamed: where a macro action
has the name of a hardware action, a call of that name could not be told
from a call of the macro action.
-/

namespace FlowBlaze

namespace Xl

open Common

/-! ## Expansion -/

/-- The macro actions of a stage, with their expanded bodies. -/
abbrev Macros := List (String × List BodyElement)

/-- The body of a macro action. -/
def Macros.body (macros : Macros) (id : String) : Option (List BodyElement) :=
  (macros.find? fun m => m.1 == id).map Prod.snd

/-- The actions of an element. -/
def BodyElement.actions : BodyElement → List ActionContext
  | .action a => [a]
  | .serial as => as

/-- The macro action that an action calls, with its expanded body. -/
def Macros.called (macros : Macros) : ActionContext → Option (List BodyElement)
  | .call id _ => if reserved id then none else macros.body id
  | .assignment _ _ => none

theorem Macros.called_call {macros : Macros} {id : String} {terms : List Term} :
    macros.called (.call id terms) = if reserved id then none else macros.body id := rfl

/-- **An action, expanded.** -/
def expandAction (macros : Macros) (action : ActionContext) : List BodyElement :=
  (macros.called action).getD [.action action]

/-- An element of a body, expanded. -/
def expandElement (macros : Macros) : BodyElement → List BodyElement
  | .action a => expandAction macros a
  | .serial as =>
    [.serial (as.flatMap fun a => (expandAction macros a).flatMap BodyElement.actions)]

/-- A body, expanded. -/
def expandBody (macros : Macros) (body : List BodyElement) : List BodyElement :=
  body.flatMap (expandElement macros)

/-- A condition statement, expanded. -/
def ConditionStatementContext.expand (macros : Macros) (c : ConditionStatementContext) :
    ConditionStatementContext :=
  { c with body := expandBody macros c.body }

/-- An event statement, expanded. -/
def EventStatementContext.expand (macros : Macros) (b : EventStatementContext) :
    EventStatementContext :=
  { b with
    body := expandBody macros b.body
    conditionStatements := b.conditionStatements.map (.expand macros) }

/-- A state statement, expanded. -/
def StateStatementContext.expand (macros : Macros) (S : StateStatementContext) :
    StateStatementContext :=
  { S with
    body := expandBody macros S.body
    eventStatements := S.eventStatements.map (.expand macros) }

section Rename

variable (rename : String → String)

/-- The macro actions after a definition. -/
def Macros.define (macros : Macros) : Definition → Macros
  | .macroAction identifier body => macros ++ [(identifier, expandBody macros body)]
  | _ => macros

/-- A definition, expanded. -/
def Definition.expand (macros : Macros) : Definition → Definition
  | .macroAction identifier body => .macroAction (rename identifier) (expandBody macros body)
  | d => d

/-- Definitions, expanded. -/
def expandDefinitions : Macros → List Definition → List Definition
  | _, [] => []
  | macros, d :: definitions =>
    d.expand rename macros :: expandDefinitions (macros.define d) definitions

/-- The macro actions of a stage. -/
def StageStatementContext.macros (T : StageStatementContext) : Macros :=
  T.definitions.foldl Macros.define []

/-- A stage statement, expanded. -/
def StageStatementContext.expand (T : StageStatementContext) : StageStatementContext :=
  { T with
    definitions := expandDefinitions rename [] T.definitions
    body := expandBody T.macros T.body
    stateStatements := T.stateStatements.map (.expand T.macros) }

/-- **A program with every macro call replaced** by the body of the macro
action. -/
def ProgramContext.expand : ProgramContext → ProgramContext
  | .stageProgram definitions stages => .stageProgram definitions (stages.map (.expand rename))
  | .stateProgram definitions states =>
    let T := StageStatementContext.expand rename ⟨"default", definitions, [], states⟩
    .stateProgram T.definitions T.stateStatements

end Rename

/-! ## Calls -/

/-- The stage statements of a program. -/
def ProgramContext.stages : ProgramContext → List StageStatementContext
  | .stageProgram _ stages => stages
  | .stateProgram definitions states => [⟨"default", definitions, [], states⟩]

/-- The bodies of a state statement. -/
def StateStatementContext.bodies (S : StateStatementContext) : List (List BodyElement) :=
  S.body :: S.eventStatements.flatMap fun b => b.body :: b.conditionStatements.map (·.body)

/-- The actions of bodies. -/
def actionsIn (bodies : List (List BodyElement)) : List ActionContext :=
  bodies.flatMap fun body => body.flatMap BodyElement.actions

/-- **The actions at state, event and condition level.** -/
def StageStatementContext.rowActions (T : StageStatementContext) : List ActionContext :=
  actionsIn (T.stateStatements.flatMap (·.bodies))

/-- The body of a macro action's definition. -/
def Definition.macroBody : Definition → List BodyElement
  | .macroAction _ body => body
  | _ => []

/-- The name of a macro action's definition. -/
def Definition.macroName : Definition → Option String
  | .macroAction identifier _ => some identifier
  | _ => none

/-- All actions of a stage. -/
def StageStatementContext.actions (T : StageStatementContext) : List ActionContext :=
  actionsIn (T.definitions.map (·.macroBody)) ++ actionsIn [T.body] ++ T.rowActions

/-- **No action of the stage calls a macro action.** -/
def StageStatementContext.CallsNoMacro (T : StageStatementContext) : Prop :=
  ∀ a ∈ T.actions, ∀ id, a.callee = some id → reserved id = false →
    some id ∉ T.definitions.map (·.macroName)

/-- **What a macro action's body is made of**: assignments, hardware
actions, transitions, and calls of other macro actions. -/
def Definition.PlainMacro : Definition → Prop
  | .macroAction identifier body => ∀ element ∈ body, ∃ a, element = .action a ∧
      a.callee ≠ some identifier ∧ a.callee ≠ some "setFlowKey" ∧ a.callee ≠ some "setUpdateKey"
  | _ => True

/-- A macro action some call in the body of which brings an action. -/
def Definition.lossy (macros : Macros) (d : Definition) : Bool :=
  d.macroBody.any fun element => element.actions.any fun a =>
    (macros.called a).any fun body => !body.isEmpty

/-- The macro actions whose bodies lose actions. -/
def lossyMacros : Macros → List Definition → List String
  | _, [] => []
  | macros, d :: definitions =>
    (if d.lossy macros then d.macroName.toList else []) ++
      lossyMacros (macros.define d) definitions

/-- **The macro calls of a stage lose nothing**: at state, event and
condition level no macro action is called that calls one with actions,
and the stage's own body has no serial block. -/
structure StageStatementContext.Lossless (T : StageStatementContext) : Prop where
  rows : ∀ a ∈ T.rowActions, ∀ id ∈ lossyMacros [] T.definitions, reserved id = false →
    a.callee ≠ some id
  body : ∀ element ∈ T.body, ∃ a, element = .action a

/-- An action that calls what is neither a macro action defined so far nor
a hardware action. -/
def ActionContext.Undefined (defined : List (Option String)) (a : ActionContext) : Prop :=
  ∃ id, a.callee = some id ∧ reserved id = false ∧
    HardwareActionOpcode.toHardwareActionOpcode id = none ∧ some id ∉ defined

/-- **The stage calls an undefined macro action.** -/
def StageStatementContext.CallsUndefined (T : StageStatementContext) : Prop :=
  (∃ before d after, T.definitions = before ++ d :: after ∧
    ∃ a ∈ actionsIn [d.macroBody],
      a.Undefined ((before ++ [d]).map (·.macroName))) ∨
  ∃ a ∈ actionsIn [T.body] ++ T.rowActions, a.Undefined (T.definitions.map (·.macroName))

end Xl

end FlowBlaze
