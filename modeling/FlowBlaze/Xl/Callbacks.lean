import FlowBlaze.Xl.Resolution
/-!
# The listener — callback by callback

The walk of a parse tree calls the listener on entering and on leaving its
nodes. Here the calls of a program are listed, and a call is a step of the
compiler. Which call may follow which is what the grammar says; it is
stated apart from the compiler's own states, by the place in the tree.
-/

namespace FlowBlaze

namespace Xl

open Common

/-! ## The callbacks -/

/-- **A callback of the listener.** A macro action's says whether it is
defined inside a stage, and a condition's whether it is one of a custom
event. Those of statements carry the name of the stage around, which the
state machine keeps. -/
inductive Callback
  | enterMacroActionDefinition (inStage : Bool) (identifier : String)
  | exitMacroActionDefinition
  | enterStageStatement (identifier : String)
  | exitStageStatement
  | enterStateStatement (stageName : String) (initial : Bool) (identifier : String)
  | exitStateStatement
  | enterEventStatement (stageName identifier : String)
  | exitEventStatement
  | enterConditionStatement (stageName : String)
  | exitConditionStatement
  | enterSerial
  | exitSerial
  | exitRegisterDefinition (global : Bool) (identifiers : List String)
  | exitCondition (custom : Bool) (condition : ConditionContext)
  | exitAction (action : ActionContext)
deriving DecidableEq

/-- The callbacks of an element of a body. -/
def BodyElement.callbacks : BodyElement → List Callback
  | .action a => [.exitAction a]
  | .serial actions => .enterSerial :: (actions.map .exitAction ++ [.exitSerial])

/-- The callbacks of a definition. -/
def Definition.callbacks (inStage : Bool) : Definition → List Callback
  | .register global identifiers => [.exitRegisterDefinition global identifiers]
  | .customEvent conditions => conditions.map (.exitCondition true)
  | .macroAction identifier body => .enterMacroActionDefinition inStage identifier ::
    (body.flatMap BodyElement.callbacks ++ [.exitMacroActionDefinition])

/-- The callbacks of a condition statement. -/
def ConditionStatementContext.callbacks (stageName : String) (c : ConditionStatementContext) :
    List Callback :=
  .enterConditionStatement stageName :: (c.conditions.map (.exitCondition false) ++
    (c.body.flatMap BodyElement.callbacks ++ [.exitConditionStatement]))

/-- The callbacks of an event statement. -/
def EventStatementContext.callbacks (stageName : String) (b : EventStatementContext) :
    List Callback :=
  .enterEventStatement stageName b.identifier :: (b.body.flatMap BodyElement.callbacks ++
    (b.conditionStatements.flatMap (ConditionStatementContext.callbacks stageName) ++
      [.exitEventStatement]))

/-- The callbacks of a state statement. -/
def StateStatementContext.callbacks (stageName : String) (S : StateStatementContext) :
    List Callback :=
  .enterStateStatement stageName S.initial S.identifier ::
    (S.body.flatMap BodyElement.callbacks ++
      (S.eventStatements.flatMap (EventStatementContext.callbacks stageName) ++
        [.exitStateStatement]))

/-- The callbacks of a stage statement. -/
def StageStatementContext.callbacks (T : StageStatementContext) : List Callback :=
  .enterStageStatement T.identifier :: (T.definitions.flatMap (Definition.callbacks true) ++
    (T.body.flatMap BodyElement.callbacks ++
      (T.stateStatements.flatMap (StateStatementContext.callbacks T.identifier) ++
        [.exitStageStatement])))

/-- **The callbacks of a program**, in order, up to its end. A program
without stages is entered as a stage `default`. -/
def ProgramContext.callbacks : ProgramContext → List Callback
  | .stageProgram definitions stages => definitions.flatMap (Definition.callbacks false) ++
    stages.flatMap StageStatementContext.callbacks
  | .stateProgram definitions states =>
    StageStatementContext.callbacks ⟨"default", definitions, [], states⟩

namespace XtraCompiler

/-- **What the listener does in a callback.** -/
def callback (orders : Orders) (X : XtraCompiler) : Callback → Option XtraCompiler
  | .enterMacroActionDefinition _ identifier =>
    { X with currentMacroAction := some identifier }.goInsideActionsBlock
  | .exitMacroActionDefinition => X.goOutsideActionsBlock
  | .enterStageStatement identifier => X.goInsideBlock identifier false
  | .exitStageStatement => X.goOutsideBlock orders
  | .enterStateStatement stageName initial identifier =>
    let (state, states) := X.factories.states.declareState identifier
    { X with
      machine := { X.machine with currentState := some state }
      factories := { X.factories with states := states } }.goInsideBlock stageName initial
  | .exitStateStatement => X.goOutsideBlock orders
  | .enterEventStatement stageName identifier => (Event.toEvent identifier).bind fun event =>
    { X with machine := { X.machine with currentEvent := some event } }.goInsideBlock
      stageName false
  | .exitEventStatement => X.goOutsideBlock orders
  | .enterConditionStatement stageName => X.goInsideBlock stageName false
  | .exitConditionStatement => X.goOutsideBlock orders
  | .enterSerial => X.goInsideActionsBlock
  | .exitSerial => X.goOutsideActionsBlock
  | .exitRegisterDefinition global identifiers =>
    (identifiers.foldlM (Factories.allocateRegister · global ·) X.factories).map fun factories =>
      { X with factories := factories }
  | .exitCondition _ condition => X.exitCondition condition
  | .exitAction action => X.walkAction action

variable {orders : Orders} {X : XtraCompiler}

/-- Callbacks that make up the steps of a loop. -/
theorem foldlM_callbacks {α : Type} {step : XtraCompiler → α → Option XtraCompiler}
    {callbacks : α → List Callback} (h : ∀ X a, (callbacks a).foldlM (callback orders) X = step X a)
    (as : List α) : (as.flatMap callbacks).foldlM (callback orders) X = as.foldlM step X := by
  induction as generalizing X with
  | nil => rfl
  | cons a as ih =>
    rw [List.flatMap_cons, List.foldlM_append, List.foldlM_cons, h]
    exact congrArg _ (funext fun Y => ih)

theorem foldlM_map_exitAction (actions : List ActionContext) :
    (actions.map .exitAction).foldlM (callback orders) X = actions.foldlM walkAction X := by
  rw [List.foldlM_map]
  rfl

theorem foldlM_map_exitCondition (custom : Bool) (conditions : List ConditionContext) :
    (conditions.map (.exitCondition custom)).foldlM (callback orders) X =
      conditions.foldlM exitCondition X := by
  rw [List.foldlM_map]
  rfl

/-- The last callback of a block. -/
theorem foldlM_concat (cs : List Callback) (c : Callback) :
    (cs ++ [c]).foldlM (callback orders) X =
      (cs.foldlM (callback orders) X).bind fun X => X.callback orders c := by
  rw [List.foldlM_append]
  refine congrArg _ (funext fun Y => ?_)
  rw [List.foldlM_cons]
  exact Option.bind_fun_some _

theorem walkElement_eq (element : BodyElement) :
    element.callbacks.foldlM (callback orders) X = X.walkElement element := by
  cases element with
  | action action => exact Option.bind_fun_some _
  | serial actions =>
    refine congrArg _ (funext fun Y => ?_)
    rw [foldlM_concat, foldlM_map_exitAction]
    rfl

theorem walkBody_eq (body : List BodyElement) :
    (body.flatMap BodyElement.callbacks).foldlM (callback orders) X = X.walkBody body :=
  foldlM_callbacks (fun _ => walkElement_eq) body

theorem walkDefinition_eq (inStage : Bool) (definition : Definition) :
    (definition.callbacks inStage).foldlM (callback orders) X = X.walkDefinition definition := by
  cases definition with
  | register global identifiers => exact Option.bind_fun_some _
  | customEvent conditions => exact foldlM_map_exitCondition true conditions
  | macroAction identifier body =>
    refine congrArg _ (funext fun Y => ?_)
    rw [foldlM_concat, walkBody_eq]
    rfl

theorem walkConditionStatement_eq (stageName : String) (c : ConditionStatementContext) :
    (c.callbacks stageName).foldlM (callback orders) X =
      X.walkConditionStatement stageName orders c := by
  refine congrArg _ (funext fun Y => ?_)
  rw [List.foldlM_append, foldlM_map_exitCondition]
  refine congrArg _ (funext fun Z => ?_)
  rw [foldlM_concat, walkBody_eq]
  rfl

theorem walkEventStatement_eq (stageName : String) (b : EventStatementContext) :
    (b.callbacks stageName).foldlM (callback orders) X =
      X.walkEventStatement stageName orders b := by
  unfold EventStatementContext.callbacks walkEventStatement
  rw [List.foldlM_cons]
  refine (Option.bind_assoc _ _ _).trans ?_
  refine congrArg _ (funext fun event => congrArg _ (funext fun Y => ?_))
  rw [List.foldlM_append, walkBody_eq]
  refine congrArg _ (funext fun Z => ?_)
  rw [foldlM_concat, foldlM_callbacks (fun _ => walkConditionStatement_eq stageName)]
  rfl

theorem walkStateStatement_eq (stageName : String) (S : StateStatementContext) :
    (S.callbacks stageName).foldlM (callback orders) X =
      X.walkStateStatement stageName orders S := by
  refine congrArg _ (funext fun Y => ?_)
  rw [List.foldlM_append, walkBody_eq]
  refine congrArg _ (funext fun Z => ?_)
  rw [foldlM_concat, foldlM_callbacks (fun _ => walkEventStatement_eq stageName)]
  rfl

theorem walkStageStatement_eq (T : StageStatementContext) :
    T.callbacks.foldlM (callback orders) X = X.walkStageStatement orders T := by
  refine congrArg _ (funext fun Y => ?_)
  rw [List.foldlM_append, foldlM_callbacks fun _ => walkDefinition_eq true]
  refine congrArg _ (funext fun Z => ?_)
  rw [List.foldlM_append, walkBody_eq]
  refine congrArg _ (funext fun W => ?_)
  rw [foldlM_concat, foldlM_callbacks fun _ => walkStateStatement_eq T.identifier]
  rfl

/-- **The walk is its callbacks**, one after the other. -/
theorem walkProgram_eq_foldlM (P : ProgramContext) :
    X.walkProgram orders P = P.callbacks.foldlM (callback orders) X := by
  cases P with
  | stageProgram definitions stages =>
    unfold ProgramContext.callbacks
    rw [List.foldlM_append, foldlM_callbacks fun _ => walkDefinition_eq false]
    change (definitions.foldlM walkDefinition X).bind (fun X =>
      stages.foldlM (fun X T => X.walkStageStatement orders T) X) = _
    cases definitions.foldlM walkDefinition X with
    | none => rfl
    | some Y => exact (foldlM_callbacks (fun _ => walkStageStatement_eq) stages).symm
  | stateProgram definitions states => exact (walkStageStatement_eq _).symm

end XtraCompiler

/-! ## The grammar -/

/-- The blocks of the grammar. -/
inductive Block
  | program
  | stage
  | state
  | event
  | condition
deriving DecidableEq

/-- **A place in the tree**: in a block, in a macro action defined there, or
in a serial block of either. -/
inductive Place
  | block (block : Block)
  | serial (block : Block)
  | macroAction (inStage : Bool)
  | macroSerial (inStage : Bool)
deriving DecidableEq

/-- The block a macro action is defined in. -/
def Block.ofMacro (inStage : Bool) : Block := if inStage then .stage else .program

/-- **What the grammar allows** at a place, and the place after it. -/
inductive Moves : Place → Callback → Place → Prop
  | enterMacroAction (inStage : Bool) (identifier : String) :
    Moves (.block (.ofMacro inStage)) (.enterMacroActionDefinition inStage identifier)
      (.macroAction inStage)
  | exitMacroAction (inStage : Bool) :
    Moves (.macroAction inStage) .exitMacroActionDefinition (.block (.ofMacro inStage))
  | enterStage (identifier : String) :
    Moves (.block .program) (.enterStageStatement identifier) (.block .stage)
  | exitStage : Moves (.block .stage) .exitStageStatement (.block .program)
  | enterState (stageName : String) (initial : Bool) (identifier : String) :
    Moves (.block .stage) (.enterStateStatement stageName initial identifier) (.block .state)
  | exitState : Moves (.block .state) .exitStateStatement (.block .stage)
  | enterEvent (stageName identifier : String) :
    Moves (.block .state) (.enterEventStatement stageName identifier) (.block .event)
  | exitEvent : Moves (.block .event) .exitEventStatement (.block .state)
  | enterCondition (stageName : String) :
    Moves (.block .event) (.enterConditionStatement stageName) (.block .condition)
  | exitCondition : Moves (.block .condition) .exitConditionStatement (.block .event)
  | enterSerial {block : Block} (hblock : block ≠ .program) :
    Moves (.block block) .enterSerial (.serial block)
  | exitSerial (block : Block) : Moves (.serial block) .exitSerial (.block block)
  | enterMacroSerial (inStage : Bool) :
    Moves (.macroAction inStage) .enterSerial (.macroSerial inStage)
  | exitMacroSerial (inStage : Bool) :
    Moves (.macroSerial inStage) .exitSerial (.macroAction inStage)
  | register (inStage : Bool) (global : Bool) (identifiers : List String) :
    Moves (.block (.ofMacro inStage)) (.exitRegisterDefinition global identifiers)
      (.block (.ofMacro inStage))
  | customCondition (inStage : Bool) (condition : ConditionContext) :
    Moves (.block (.ofMacro inStage)) (.exitCondition true condition) (.block (.ofMacro inStage))
  | condition (condition : ConditionContext) :
    Moves (.block .condition) (.exitCondition false condition) (.block .condition)
  | action {place : Place} (hplace : place ≠ .block .program) (action : ActionContext) :
    Moves place (.exitAction action) place

/-- **Callbacks along the grammar**, from a place to a place. -/
def Path : Place → List Callback → Place → Prop
  | p, [], q => p = q
  | p, c :: cs, q => ∃ r, Moves p c r ∧ Path r cs q

namespace Path

variable {p q r : Place} {cs ds : List Callback}

theorem append (h : Path p cs q) (h' : Path q ds r) : Path p (cs ++ ds) r := by
  induction cs generalizing p with
  | nil =>
    obtain rfl : p = q := h
    exact h'
  | cons c cs ih =>
    obtain ⟨s, hs, h⟩ := h
    exact ⟨s, hs, ih h⟩

theorem of_append (h : Path p (cs ++ ds) r) : ∃ q, Path p cs q ∧ Path q ds r := by
  induction cs generalizing p with
  | nil => exact ⟨p, rfl, h⟩
  | cons c cs ih =>
    obtain ⟨s, hs, h⟩ := h
    obtain ⟨q, hq, h⟩ := ih h
    exact ⟨q, ⟨s, hs, hq⟩, h⟩

theorem flatMap {α : Type} {callbacks : α → List Callback}
    (h : ∀ a, Path p (callbacks a) p) (as : List α) : Path p (as.flatMap callbacks) p := by
  induction as with
  | nil => rfl
  | cons a as ih =>
    rw [List.flatMap_cons]
    exact (h a).append ih

theorem map {α : Type} {c : α → Callback} (h : ∀ a, Moves p (c a) p) (as : List α) :
    Path p (as.map c) p := by
  induction as with
  | nil => rfl
  | cons a as ih => exact ⟨p, h a, ih⟩

/-- A block with its first and its last callback. -/
theorem enclose {c d : Callback} (hc : Moves p c q) (h : Path q cs q) (hd : Moves q d p) :
    Path p (c :: (cs ++ [d])) p :=
  ⟨q, hc, h.append ⟨p, hd, rfl⟩⟩

/-- Bodies, where there are serial blocks. -/
theorem body {s : Place} (hp : p ≠ .block .program) (hs : s ≠ .block .program)
    (hin : Moves p .enterSerial s) (hout : Moves s .exitSerial p) (body : List BodyElement) :
    Path p (body.flatMap BodyElement.callbacks) p := by
  refine flatMap (fun element => ?_) body
  cases element with
  | action action => exact ⟨p, .action hp action, rfl⟩
  | serial actions => exact enclose hin (map (fun action => .action hs action) actions) hout

theorem blockBody {block : Block} (hblock : block ≠ .program) (elements : List BodyElement) :
    Path (.block block) (elements.flatMap BodyElement.callbacks) (.block block) :=
  body (fun h => hblock (Place.block.inj h)) (fun h => by cases h) (.enterSerial hblock)
    (.exitSerial block) elements

theorem definition (inStage : Bool) (d : Definition) :
    Path (.block (.ofMacro inStage)) (d.callbacks inStage) (.block (.ofMacro inStage)) := by
  cases d with
  | register global identifiers => exact ⟨_, .register inStage global identifiers, rfl⟩
  | customEvent conditions => exact map (fun c => .customCondition inStage c) conditions
  | macroAction identifier elements =>
    exact enclose (.enterMacroAction inStage identifier)
      (body (fun h => by cases h) (fun h => by cases h) (.enterMacroSerial inStage)
        (.exitMacroSerial inStage) elements) (.exitMacroAction inStage)

theorem conditionStatement (stageName : String) (c : ConditionStatementContext) :
    Path (.block .event) (c.callbacks stageName) (.block .event) := by
  unfold ConditionStatementContext.callbacks
  rw [← List.append_assoc]
  exact enclose (.enterCondition stageName)
    ((map (fun c => .condition c) c.conditions).append (blockBody (by decide) c.body))
    .exitCondition

theorem eventStatement (stageName : String) (b : EventStatementContext) :
    Path (.block .state) (b.callbacks stageName) (.block .state) := by
  unfold EventStatementContext.callbacks
  rw [← List.append_assoc]
  exact enclose (.enterEvent stageName b.identifier)
    ((blockBody (by decide) b.body).append
      (flatMap (conditionStatement stageName) b.conditionStatements)) .exitEvent

theorem stateStatement (stageName : String) (S : StateStatementContext) :
    Path (.block .stage) (S.callbacks stageName) (.block .stage) := by
  unfold StateStatementContext.callbacks
  rw [← List.append_assoc]
  exact enclose (.enterState stageName S.initial S.identifier)
    ((blockBody (by decide) S.body).append
      (flatMap (eventStatement stageName) S.eventStatements)) .exitState

theorem stageStatement (T : StageStatementContext) :
    Path (.block .program) T.callbacks (.block .program) := by
  unfold StageStatementContext.callbacks
  rw [← List.append_assoc, ← List.append_assoc]
  exact enclose (.enterStage T.identifier)
    (((flatMap (definition true) T.definitions).append (blockBody (by decide) T.body)).append
      (flatMap (stateStatement T.identifier) T.stateStatements)) .exitStage

/-- **The callbacks of a program** follow the grammar. -/
theorem program (P : ProgramContext) : Path (.block .program) P.callbacks (.block .program) := by
  cases P with
  | stageProgram definitions stages =>
    exact (flatMap (definition false) definitions).append (flatMap stageStatement stages)
  | stateProgram definitions states => exact stageStatement _

end Path

end Xl

end FlowBlaze
