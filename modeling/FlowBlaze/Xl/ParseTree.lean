import FlowBlaze.Xl.ConditionFactory
import FlowBlaze.Xl.TableRowFactory
/-!
# Parse trees — `xtra.g4`

The rules of the grammar from `program` down to `term`, as far as the
listener reads them. Names are the texts of their tokens. Repetitions are
lists, also where the grammar asks for one or more.
-/

namespace FlowBlaze

namespace Xl

/-- `term`. A `field_elem` or an `index_access` comes with the packet field
or event field it stands for, and an integer or an address with its
constant: these do not depend on the place of the term. `none` is an
exception. -/
inductive Term
  | field (text : String) (operand : Option Operand)
  | identifier (name : String)
  | constant (text : String) (constant : Option Constant)
deriving DecidableEq

/-- `getText`. -/
def Term.getText : Term → String
  | .field text _ => text
  | .identifier name => name
  | .constant text _ => text

/-- The operator tokens of `expr`. -/
inductive ExprToken
  | mul
  | div
  | plus
  | minus
  | mod
  | max
  | min
deriving DecidableEq, Repr

/-- `expr`. -/
inductive Expr
  | binary (token : ExprToken) (op0 op1 : Term)
  | term (op0 : Term)
deriving DecidableEq

/-- `action`: a call or an assignment. -/
inductive ActionContext
  | call (id : String) (terms : List Term)
  | assignment (identifier : String) (expr : Expr)
deriving DecidableEq

/-- What `body` is a sequence of: actions, and `serial` blocks of them. -/
inductive BodyElement
  | action (action : ActionContext)
  | serial (actions : List ActionContext)
deriving DecidableEq

/-- `condition`. -/
structure ConditionContext where
  opcode : ConditionOpcode
  op0 : Term
  op1 : Term
deriving DecidableEq

/-- `condition_statement`. -/
structure ConditionStatementContext where
  conditions : List ConditionContext
  body : List BodyElement
deriving DecidableEq

/-- `event_statement`. -/
structure EventStatementContext where
  identifier : String
  body : List BodyElement
  conditionStatements : List ConditionStatementContext
deriving DecidableEq

/-- `state_statement`. -/
structure StateStatementContext where
  initial : Bool
  identifier : String
  body : List BodyElement
  eventStatements : List EventStatementContext
deriving DecidableEq

/-- `register_definition`, `custom_event_definition`, of which the listener
sees the conditions, and `macro_action_definition`. -/
inductive Definition
  | register (global : Bool) (identifiers : List String)
  | customEvent (conditions : List ConditionContext)
  | macroAction (identifier : String) (body : List BodyElement)
deriving DecidableEq

/-- `stage_statement`, with its `stage_body`. -/
structure StageStatementContext where
  identifier : String
  definitions : List Definition
  body : List BodyElement
  stateStatements : List StateStatementContext
deriving DecidableEq

/-- `program`, after its packet fields. -/
inductive ProgramContext
  | stageProgram (definitions : List Definition) (stages : List StageStatementContext)
  | stateProgram (definitions : List Definition) (states : List StateStatementContext)
deriving DecidableEq

/-- `Event.toEvent`. -/
def Event.toEvent : String → Option Event
  | "pktRcvd" => some .xtraPktRcvd
  | "timeout" => some .xtraTimeout
  | _ => none

end Xl

end FlowBlaze
