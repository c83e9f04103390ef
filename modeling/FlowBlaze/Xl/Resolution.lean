import FlowBlaze.Common.Thread
import FlowBlaze.Xl.XtraCompiler
/-!
# What the names of a program resolve to

The callbacks of an action ask the factories what it adds, and what is
added goes to the rows. The two do not mix: a statement can be resolved
first, with the factories alone, and its rows made from the result. Here
each construct is resolved on its own, and its walk is shown to be the
walk of what it resolves to.
-/

namespace FlowBlaze

namespace Xl

open Common

/-! ## Resolving -/

/-- The actions that are added where macro actions count. -/
def Added.toList : Added → List Action
  | .nothing => []
  | .action a => [a]
  | .actions as => as

/-- The cast to `SequentializableActions`. -/
def Action.sequentializable? : Action → Option SequentializableAction
  | .sequentializable action => some action
  | _ => none

namespace Factories

variable (F : Factories)

/-- The actions an action of a body brings. -/
def actionsOf (action : ActionContext) : Option (List Action × Factories) :=
  (F.exitAction action).map fun (added, F) => (added.toList, F)

/-- The inner list of a serial block. -/
def serialActions (actions : List ActionContext) :
    Option (List SequentializableAction × Factories) :=
  (thread actionsOf F actions).bind fun (added, F) =>
    (added.flatten.mapM Action.sequentializable?).map fun actions => (actions, F)

/-- The actions an element of a body brings. The serial blocks of an event
come out empty. -/
def elementActions (inEvent : Bool) (element : BodyElement) : Option (List Action × Factories) :=
  match element with
  | .action action => F.actionsOf action
  | .serial actions =>
    if inEvent then
      (thread actionsOf F actions).map fun (_, F) => ([.sequentialActions []], F)
    else
      (F.serialActions actions).map fun (actions, F) => ([.sequentialActions actions], F)

/-- The actions of a body. -/
def bodyActions (inEvent : Bool) (body : List BodyElement) : Option (List Action × Factories) :=
  (thread (elementActions · inEvent) F body).map fun (added, F) => (added.flatten, F)

/-- A condition statement. -/
def conditionStatement (c : ConditionStatementContext) :
    Option (ConditionStatement ConditionResult × Factories) :=
  (thread exitCondition F c.conditions).bind fun (results, F) =>
    (F.bodyActions false c.body).map fun (actions, F) => (⟨results, actions⟩, F)

/-- An event statement. -/
def eventStatement (b : EventStatementContext) :
    Option (EventStatement ConditionResult × Factories) :=
  (Event.toEvent b.identifier).bind fun event =>
    (F.bodyActions true b.body).bind fun (actions, F) =>
      (thread conditionStatement F b.conditionStatements).map fun (conditions, F) =>
        (⟨event, actions, conditions⟩, F)

/-- A state statement, and whether its state is the initial one. -/
def stateStatement (S : StateStatementContext) :
    Option ((Bool × StateStatement ConditionResult) × Factories) :=
  let (state, states) := F.states.declareState S.identifier
  ({ F with states := states }.bodyActions false S.body).bind fun (actions, F) =>
    (thread eventStatement F S.eventStatements).map fun (events, F) =>
      ((S.initial, ⟨state, actions, events⟩), F)

/-! ## Resolving definitions -/

/-- `createEmptyMacroAction`. -/
def createMacro (name : Option String) : Option Factories :=
  (F.macroActions.createEmptyMacroAction name).map fun macroActions =>
    { F with macroActions := macroActions }

/-- An action for a macro action. -/
def addToMacro (name : Option String) (action : Action) : Option Factories :=
  (F.macroActions.addAction name action).map fun macroActions =>
    { F with macroActions := macroActions }

/-- An element of a macro action's body. The actions of another macro
action are left out. -/
def macroElement (name : Option String) (element : BodyElement) : Option Factories :=
  match element with
  | .action action => (F.exitAction action).bind fun (added, F) =>
    match added with
    | .action action => F.addToMacro name action
    | _ => some F
  | .serial actions => (F.serialActions actions).bind fun (actions, F) =>
    F.addToMacro name (.sequentialActions actions)

/-- A macro action. -/
def macroAction (name : Option String) (body : List BodyElement) : Option Factories :=
  (F.createMacro name).bind fun F => body.foldlM (Factories.macroElement · name ·) F

/-- An element of a stage's body. Its actions are for no row, and a serial
block is taken for a macro action. -/
def stageElement (name : Option String) (element : BodyElement) : Option Factories :=
  match element with
  | .action action => (F.exitAction action).map Prod.snd
  | .serial actions => F.macroAction name (actions.map .action)

/-- A definition, with the name of the macro action met last: the condition
results that go to the current row. -/
def definition (s : Factories × Option String) (d : Definition) :
    Option (List ConditionResult × (Factories × Option String)) :=
  match d with
  | .register global identifiers =>
    (identifiers.foldlM (Factories.allocateRegister · global ·) s.1).map fun F => ([], (F, s.2))
  | .customEvent conditions =>
    (thread exitCondition s.1 conditions).map fun (results, F) => (results, (F, s.2))
  | .macroAction identifier body =>
    (s.1.macroAction (some identifier) body).map fun F => ([], (F, some identifier))

end Factories

/-! ## Walking actions -/

namespace CompilerStateMachine

variable {M M' : CompilerStateMachine ConditionResult} {action : Action}

/-- An action leaves the block. -/
theorem compilerState_addAction (h : M.addAction action = some M') :
    M'.compilerState = M.compilerState := by
  unfold addAction at h
  split at h
  · next hstate =>
    obtain ⟨_, -, h⟩ := Option.bind_eq_some_iff.mp h
    obtain ⟨_, -, rfl⟩ := Option.map_eq_some_iff.mp h
    exact hstate.symm ▸ rfl
  · next hstate =>
    obtain ⟨_, -, h⟩ := Option.bind_eq_some_iff.mp h
    obtain ⟨_, -, rfl⟩ := Option.map_eq_some_iff.mp h
    exact hstate.symm ▸ rfl
  · next hstate =>
    obtain ⟨_, -, rfl⟩ := Option.map_eq_some_iff.mp h
    exact hstate.symm ▸ rfl
  · cases h
    rfl

theorem compilerState_exitCondition {result : ConditionResult}
    (h : Xl.exitCondition M result = some M') : M'.compilerState = M.compilerState := by
  obtain ⟨_, -, rfl⟩ := Option.map_eq_some_iff.mp h
  rfl

/-- Entering a block. -/
theorem compilerState_goInsideBlock {name : String} (h : M.goInsideBlock name = some M') :
    M'.compilerState = match M.compilerState with
      | .inOutsideBlock1 | .inOutsideBlock2 => .inStageBlock
      | .inStageBlock => .inStateBlock
      | .inStateBlock => .inEventBlock
      | .inEventBlock | .inConditionBlock => .inConditionBlock := by
  unfold goInsideBlock at h
  cases hM : M.compilerState <;> rw [hM] at h
  case inOutsideBlock1 | inOutsideBlock2 =>
    cases h
    rfl
  case inStageBlock | inStateBlock =>
    obtain ⟨_, -, rfl⟩ := Option.map_eq_some_iff.mp h
    rfl
  case inEventBlock =>
    obtain ⟨_, -, h⟩ := Option.bind_eq_some_iff.mp h
    obtain ⟨_, -, rfl⟩ := Option.map_eq_some_iff.mp h
    rfl
  case inConditionBlock => cases h

/-- Leaving a block. -/
theorem compilerState_goOutsideBlock {orders : Orders} (h : M.goOutsideBlock orders = some M') :
    M'.compilerState = match M.compilerState with
      | .inOutsideBlock1 | .inOutsideBlock2 | .inStageBlock => .inOutsideBlock2
      | .inStateBlock => .inStageBlock
      | .inEventBlock => .inStateBlock
      | .inConditionBlock => .inEventBlock := by
  unfold goOutsideBlock at h
  cases hM : M.compilerState <;> rw [hM] at h
  case inOutsideBlock1 | inOutsideBlock2 => cases h
  case inStateBlock =>
    obtain ⟨_, -, rfl⟩ := Option.map_eq_some_iff.mp h
    rfl
  case inStageBlock | inEventBlock | inConditionBlock =>
    cases h
    rfl

/-- Several actions, one by one. -/
def addActions (M : CompilerStateMachine ConditionResult) (actions : List Action) :
    Option (CompilerStateMachine ConditionResult) :=
  actions.foldlM addAction M

theorem compilerState_addActions {actions : List Action} (h : M.addActions actions = some M') :
    M'.compilerState = M.compilerState := by
  refine foldlM_invariant (I := fun N => N.compilerState = M.compilerState)
    (fun N a N' hN hstep => ?_) rfl h
  rw [compilerState_addAction hstep, hN]

theorem foldlM_addActions (added : List (List Action)) :
    added.foldlM addActions M = M.addActions added.flatten := by
  induction added generalizing M with
  | nil => rfl
  | cons actions added ih =>
    rw [List.foldlM_cons, List.flatten_cons]
    unfold addActions at ih ⊢
    rw [List.foldlM_append]
    refine congrArg _ (funext fun N => ?_)
    exact ih

end CompilerStateMachine

namespace XtraCompiler

variable {X : XtraCompiler} {F : Factories} {M : CompilerStateMachine ConditionResult}

/-- The compiler with these factories and this machine. -/
def holding (X : XtraCompiler) (F : Factories) (M : CompilerStateMachine ConditionResult) :
    XtraCompiler :=
  { X with factories := F, machine := M }

/-- **Outside every block for actions**, with no serial action left over. -/
structure Idle (X : XtraCompiler) : Prop where
  actionBlock : X.actionBlock = none
  sequentialActions : X.sequentialActions = []

/-- The compiler in a block for actions. -/
def inside (X : XtraCompiler) (block : ActionBlock) (F : Factories)
    (actions : List SequentializableAction) : XtraCompiler :=
  { X with actionBlock := some block, factories := F, sequentialActions := actions }

/-! ### Serial blocks -/

/-- What a serial block gathers. -/
def gather (actions : List SequentializableAction) (added : List Action) :
    Option (List SequentializableAction) :=
  (added.mapM Action.sequentializable?).map (actions ++ ·)

theorem foldlM_gather (acc : List SequentializableAction) (added : List (List Action)) :
    added.foldlM gather acc =
      (added.flatten.mapM Action.sequentializable?).map (acc ++ ·) := by
  induction added generalizing acc with
  | nil => simp
  | cons actions added ih =>
    rw [List.foldlM_cons, List.flatten_cons, List.mapM_append, gather]
    cases actions.mapM Action.sequentializable? with
    | none => rfl
    | some xs =>
      simp only [Option.map_some, Option.bind_eq_bind, Option.bind_some]
      rw [ih]
      cases added.flatten.mapM Action.sequentializable? with
      | none => rfl
      | some ys => simp

/-- The serial blocks that gather their actions. -/
def Gathers (block : ActionBlock) : Prop :=
  block ≠ .inMacroActionDefinitionBlock ∧ block ≠ .inEventSequentialBlock

theorem addAction_inside {block : ActionBlock} (hblock : Gathers block)
    (acc : List SequentializableAction) (action : Action) :
    (X.inside block F acc).addAction action =
      (action.sequentializable?).map fun a => X.inside block F (acc ++ [a]) := by
  cases block with
  | inMacroActionDefinitionBlock => exact absurd rfl hblock.1
  | inEventSequentialBlock => exact absurd rfl hblock.2
  | _ => cases action <;> rfl

theorem addActions_inside {block : ActionBlock} (hblock : Gathers block)
    (acc : List SequentializableAction) (added : List Action) :
    added.foldlM addAction (X.inside block F acc) =
      (gather acc added).map (X.inside block F) := by
  induction added generalizing acc with
  | nil => simp [gather]
  | cons action added ih =>
    rw [List.foldlM_cons, addAction_inside hblock, gather, List.mapM_cons]
    cases action.sequentializable? with
    | none => rfl
    | some a =>
      simp only [Option.map_some, Option.bind_eq_bind, Option.bind_some]
      rw [ih, gather]
      cases added.mapM Action.sequentializable? with
      | none => rfl
      | some ys => simp

/-- **An action of a serial block** that gathers. -/
theorem walkAction_inside {block : ActionBlock} (hblock : Gathers block)
    (acc : List SequentializableAction) (action : ActionContext) :
    (X.inside block F acc).walkAction action =
      (F.actionsOf action).bind fun (added, F) => (gather acc added).map (X.inside block F) := by
  unfold walkAction Factories.actionsOf
  change (F.exitAction action).bind _ = _
  rw [Option.bind_map]
  congr 1
  funext ⟨added, F'⟩
  cases added with
  | nothing => simp [Added.toList, gather, inside]
  | action a =>
    change (X.inside block F' acc).addAction a = _
    rw [addAction_inside hblock]
    cases a <;> simp [Added.toList, gather, Action.sequentializable?, inside]
  | actions as =>
    have hactions : (X.inside block F' acc).addActions as =
        as.foldlM addAction (X.inside block F' acc) := by
      cases block with
      | inMacroActionDefinitionBlock => exact absurd rfl hblock.1
      | inEventSequentialBlock => exact absurd rfl hblock.2
      | _ => rfl
    exact hactions.trans (addActions_inside hblock acc as)

theorem foldlM_walkAction_inside {block : ActionBlock} (hblock : Gathers block)
    (actions : List ActionContext) :
    actions.foldlM walkAction (X.inside block F []) =
      (F.serialActions actions).map fun (actions, F) => X.inside block F actions := by
  have hloop : Splits (X.inside block) (fun _ => True) (fun X => actions.foldlM walkAction X)
      (thread Factories.actionsOf · actions) (fun acc added => added.foldlM gather acc) :=
    Splits.foldlM (fun action _ acc _ => walkAction_inside hblock acc action)
      (fun _ _ _ _ _ => trivial) actions
  refine (hloop F [] trivial).trans ?_
  unfold Factories.serialActions
  simp only
  cases thread Factories.actionsOf F actions with
  | none => rfl
  | some x =>
    simp only [Option.bind_some, foldlM_gather, List.nil_append, Option.map_map]
    rfl

/-- **An action of a serial block of an event** is resolved and forgotten. -/
theorem walkAction_inEventSequential (acc : List SequentializableAction)
    (action : ActionContext) :
    (X.inside .inEventSequentialBlock F acc).walkAction action =
      (F.actionsOf action).map fun (_, F) => X.inside .inEventSequentialBlock F acc := by
  unfold walkAction Factories.actionsOf
  change (F.exitAction action).bind _ = _
  rw [Option.map_map, Option.map_eq_bind]
  congr 1
  funext ⟨added, F'⟩
  cases added <;> rfl

theorem foldlM_walkAction_inEventSequential (acc : List SequentializableAction)
    (actions : List ActionContext) :
    actions.foldlM walkAction (X.inside .inEventSequentialBlock F acc) =
      (thread Factories.actionsOf F actions).map fun (_, F) =>
        X.inside .inEventSequentialBlock F acc := by
  induction actions generalizing F with
  | nil => rfl
  | cons action actions ih =>
    rw [List.foldlM_cons, walkAction_inEventSequential, thread]
    cases F.actionsOf action with
    | none => rfl
    | some x =>
      simp only [Option.map_some, Option.bind_eq_bind, Option.bind_some, ih, Option.map_map]
      rfl

/-! ### Bodies -/

/-- The blocks whose bodies go to rows. -/
def RowBlock (block : CompilerState) : Prop :=
  block = .inStateBlock ∨ block = .inEventBlock ∨ block = .inConditionBlock

/-- **An action of a body.** -/
theorem splits_walkAction (hX : X.Idle) (block : CompilerState) (action : ActionContext) :
    Splits X.holding (·.compilerState = block) (·.walkAction action) (·.actionsOf action)
      CompilerStateMachine.addActions := by
  intro F M _
  have hblock := hX.actionBlock
  have hone : ∀ F M a, (X.holding F M).addAction a = (M.addAction a).map (X.holding F) := by
    intro F M a
    unfold addAction holding
    simp only [hblock]
  unfold walkAction Factories.actionsOf
  change (F.exitAction action).bind _ = _
  rw [Option.bind_map]
  congr 1
  funext ⟨added, F'⟩
  cases added with
  | nothing => rfl
  | action a =>
    refine (hone F' M a).trans ?_
    simp [Added.toList, CompilerStateMachine.addActions]
  | actions as =>
    have hactions : (X.holding F' M).addActions as = as.foldlM addAction (X.holding F' M) := by
      unfold addActions holding
      simp only [hblock]
    refine hactions.trans ?_
    exact foldlM_map_emb (I := fun _ => True) (fun M a _ => hone F' M a)
      (fun _ _ _ _ _ => trivial) as trivial

/-- **A serial block of a body.** That of an event comes out empty. -/
theorem splits_walkSerial (hX : X.Idle) {block : CompilerState} (hrow : RowBlock block)
    (actions : List ActionContext) :
    Splits X.holding (·.compilerState = block) (·.walkElement (.serial actions))
      (·.elementActions (block = .inEventBlock) (.serial actions))
      CompilerStateMachine.addActions := by
  intro F M hstate
  have hblock := hX.actionBlock
  have hseq := hX.sequentialActions
  have hout : ∀ block F acc, block ≠ .inMacroActionDefinitionBlock →
      block ≠ .inMacroActionSequentialBlock →
      ((X.holding F M).inside block F acc).goOutsideActionsBlock =
        (M.addActions [.sequentialActions acc]).map (X.holding F) := by
    intro block F acc hdef hcalled
    have hadd : M.addActions [.sequentialActions acc] = M.addAction (.sequentialActions acc) := by
      simp [CompilerStateMachine.addActions]
    rw [hadd]
    unfold goOutsideActionsBlock inside holding
    cases block with
    | inMacroActionDefinitionBlock => exact absurd rfl hdef
    | inMacroActionSequentialBlock => exact absurd rfl hcalled
    | _ => simp only [hblock, hseq]
  have hgather : ∀ block, Gathers block → block ≠ .inMacroActionSequentialBlock →
      (X.holding F M).goInsideActionsBlock = some ((X.holding F M).inside block F []) →
      (X.holding F M).walkElement (.serial actions) =
        (F.elementActions false (.serial actions)).bind
          fun (added, F) => (M.addActions added).map (X.holding F) := by
    intro block hgathers hcalled hinside
    unfold walkElement Factories.elementActions
    simp only [hinside, Option.bind_eq_bind, Option.bind_some, foldlM_walkAction_inside hgathers,
      Bool.false_eq_true, if_false]
    cases F.serialActions actions with
    | none => rfl
    | some x => exact hout block x.2 x.1 hgathers.1 hcalled
  subst hstate
  rcases hrow with hstate | hstate | hstate
  · rw [hstate]
    refine hgather .inStateSequentialBlock ⟨by decide, by decide⟩ (by decide) ?_
    unfold goInsideActionsBlock holding
    simp only [hblock, hstate, inside, ← hseq]
  · rw [hstate]
    have hinside : (X.holding F M).goInsideActionsBlock =
        some ((X.holding F M).inside .inEventSequentialBlock F []) := by
      unfold goInsideActionsBlock holding
      simp only [hblock, hstate, inside, ← hseq]
    unfold walkElement Factories.elementActions
    simp only [hinside, Option.bind_eq_bind, Option.bind_some,
      foldlM_walkAction_inEventSequential, decide_true, if_true]
    cases thread Factories.actionsOf F actions with
    | none => rfl
    | some x => exact hout .inEventSequentialBlock x.2 [] (by decide) (by decide)
  · rw [hstate]
    refine hgather .inConditionSequentialBlock ⟨by decide, by decide⟩ (by decide) ?_
    unfold goInsideActionsBlock holding
    simp only [hblock, hstate, inside, ← hseq]

/-- **A body** goes to the rows as it is resolved. -/
theorem splits_walkBody (hX : X.Idle) {block : CompilerState} (hrow : RowBlock block)
    (body : List BodyElement) :
    Splits X.holding (·.compilerState = block) (·.walkBody body)
      (·.bodyActions (block = .inEventBlock) body) CompilerStateMachine.addActions := by
  have helement : ∀ element, Splits X.holding (·.compilerState = block) (·.walkElement element)
      (·.elementActions (block = .inEventBlock) element) CompilerStateMachine.addActions := by
    intro element
    cases element with
    | action action => exact splits_walkAction hX block action
    | serial actions => exact splits_walkSerial hX hrow actions
  refine (Splits.foldlM helement (fun M as M' hM hadd => ?_) body).map List.flatten
    (fun F => rfl) fun M added _ => ?_
  · rw [CompilerStateMachine.compilerState_addActions hadd, hM]
  · exact (CompilerStateMachine.foldlM_addActions added).symm

/-! ### Statements -/

variable (stageName : String) (orders : Orders)

/-- Conditions. -/
theorem splits_exitConditions (X : XtraCompiler) (block : CompilerState)
    (conditions : List ConditionContext) :
    Splits X.holding (·.compilerState = block) (fun X => conditions.foldlM exitCondition X)
      (thread Factories.exitCondition · conditions)
      fun M results => results.foldlM Xl.exitCondition M := by
  refine Splits.foldlM (fun c F M _ => rfl) (fun M result M' hM h => ?_) conditions
  rw [CompilerStateMachine.compilerState_exitCondition h, hM]

/-- Entering a block below a state. -/
theorem splits_goInsideBlock (X : XtraCompiler) {block : CompilerState}
    (hblock : block = .inStateBlock ∨ block = .inEventBlock) :
    Splits X.holding (·.compilerState = block) (·.goInsideBlock stageName false)
      (fun F => some ((), F)) fun M _ => M.goInsideBlock stageName := by
  refine Splits.right fun F M hM => ?_
  unfold goInsideBlock
  change (M.goInsideBlock stageName).bind _ = _
  cases hgo : M.goInsideBlock stageName with
  | none => rfl
  | some N =>
    have hN : N.compilerState = .inEventBlock ∨ N.compilerState = .inConditionBlock := by
      rw [CompilerStateMachine.compilerState_goInsideBlock hgo, hM]
      rcases hblock with rfl | rfl
      · exact Or.inl rfl
      · exact Or.inr rfl
    rw [Option.bind_some, Option.map_some]
    rcases hN with hN | hN <;> simp only [hN] <;> rfl

/-- Leaving a block below a stage. -/
theorem splits_goOutsideBlock (X : XtraCompiler) {block : CompilerState}
    (hblock : block ≠ .inStageBlock) :
    Splits X.holding (·.compilerState = block) (·.goOutsideBlock orders)
      (fun F => some ((), F)) fun M _ => M.goOutsideBlock orders := by
  refine Splits.right fun F M hM => ?_
  unfold goOutsideBlock
  exact congrArg (Option.bind · _) (if_neg fun h => hblock (hM.symm.trans h))

/-- Conditions leave the block. -/
theorem compilerState_exitConditions {results : List ConditionResult}
    {N : CompilerStateMachine ConditionResult}
    (h : results.foldlM Xl.exitCondition M = some N) : N.compilerState = M.compilerState := by
  refine foldlM_invariant (I := fun N => N.compilerState = M.compilerState)
    (fun N result N' hN hstep => ?_) rfl h
  rw [CompilerStateMachine.compilerState_exitCondition hstep, hN]

/-- A condition statement leaves the block around it. -/
theorem compilerState_walkCondition {c : ConditionStatement ConditionResult}
    {M' : CompilerStateMachine ConditionResult} (hM : M.compilerState = .inEventBlock)
    (h : walkCondition stageName orders M c = some M') : M'.compilerState = .inEventBlock := by
  unfold walkCondition at h
  simp only [Option.bind_eq_bind, Option.bind_eq_some_iff] at h
  obtain ⟨N, hN, N', hN', N'', hN'', h⟩ := h
  have hinside : N''.compilerState = .inConditionBlock := by
    rw [CompilerStateMachine.compilerState_addActions hN'', compilerState_exitConditions hN',
      CompilerStateMachine.compilerState_goInsideBlock hN, hM]
  rw [CompilerStateMachine.compilerState_goOutsideBlock h, hinside]

/-- An event statement leaves the block around it. -/
theorem compilerState_walkEvent {b : EventStatement ConditionResult}
    {M' : CompilerStateMachine ConditionResult} (hM : M.compilerState = .inStateBlock)
    (h : walkEvent stageName orders M b = some M') : M'.compilerState = .inStateBlock := by
  unfold walkEvent at h
  simp only [Option.bind_eq_bind, Option.bind_eq_some_iff] at h
  obtain ⟨N, hN, N', hN', N'', hN'', h⟩ := h
  have hbody : N'.compilerState = .inEventBlock := by
    rw [CompilerStateMachine.compilerState_addActions hN',
      CompilerStateMachine.compilerState_goInsideBlock hN]
    simp only [hM]
  have hinside : N''.compilerState = .inEventBlock :=
    foldlM_invariant (fun N c N' hN hstep => compilerState_walkCondition _ _ hN hstep) hbody hN''
  rw [CompilerStateMachine.compilerState_goOutsideBlock h, hinside]

/-- A state statement leaves the block around it. -/
theorem compilerState_walkState {S : StateStatement ConditionResult}
    {M' : CompilerStateMachine ConditionResult} (hM : M.compilerState = .inStageBlock)
    (h : walkState stageName orders M S = some M') : M'.compilerState = .inStageBlock := by
  unfold walkState at h
  simp only [Option.bind_eq_bind, Option.bind_eq_some_iff] at h
  obtain ⟨N, hN, N', hN', N'', hN'', h⟩ := h
  have hbody : N'.compilerState = .inStateBlock := by
    rw [CompilerStateMachine.compilerState_addActions hN',
      CompilerStateMachine.compilerState_goInsideBlock hN]
    simp only [hM]
  have hinside : N''.compilerState = .inStateBlock :=
    foldlM_invariant (fun N b N' hN hstep => compilerState_walkEvent _ _ hN hstep) hbody hN''
  rw [CompilerStateMachine.compilerState_goOutsideBlock h, hinside]

/-- **A condition statement** makes the row it resolves to. -/
theorem splits_walkConditionStatement (hX : X.Idle) (c : ConditionStatementContext) :
    Splits X.holding (·.compilerState = .inEventBlock)
      (·.walkConditionStatement stageName orders c) (·.conditionStatement c)
      (walkCondition stageName orders) := by
  have hbody := (splits_walkBody hX (Or.inr (Or.inr rfl)) c.body).bind
    (splits_goOutsideBlock orders X (by decide : CompilerState.inConditionBlock ≠ .inStageBlock))
    fun M as M' hM hadd => (CompilerStateMachine.compilerState_addActions hadd).trans hM
  have hconditions := (splits_exitConditions X .inConditionBlock c.conditions).bind hbody
    fun M results M' hM h => (compilerState_exitConditions h).trans hM
  refine ((splits_goInsideBlock stageName X (Or.inr rfl)).bind hconditions
    fun M _ M' hM h => ?_).map
    (fun x => ⟨x.2.1, x.2.2.1⟩) (fun F => ?_) fun M x _ => ?_
  · rw [CompilerStateMachine.compilerState_goInsideBlock h, hM]
  · unfold Factories.conditionStatement
    simp only [Option.bind_some]
    cases thread Factories.exitCondition F c.conditions with
    | none => rfl
    | some y =>
      simp only [Option.bind_some]
      cases hbody : y.2.bodyActions false c.body with
      | none => simp [hbody]
      | some z => simp [hbody]
  · rfl

/-- **An event statement** walks as it is resolved. -/
theorem splits_walkEventStatement (hX : X.Idle) (b : EventStatementContext) :
    Splits X.holding (·.compilerState = .inStateBlock)
      (·.walkEventStatement stageName orders b) (·.eventStatement b)
      (walkEvent stageName orders) := by
  intro F M hM
  unfold walkEventStatement Factories.eventStatement
  cases hevent : Event.toEvent b.identifier with
  | none => rfl
  | some event =>
    have hconditions := (Splits.foldlM (splits_walkConditionStatement stageName orders hX)
      (fun M c M' hM h => compilerState_walkCondition _ _ hM h) b.conditionStatements).bind
      (splits_goOutsideBlock orders X (by decide : CompilerState.inEventBlock ≠ .inStageBlock))
      fun M cs M' hM h => foldlM_invariant
        (fun N c N' hN hstep => compilerState_walkCondition _ _ hN hstep) hM h
    have hbody := (splits_walkBody hX (Or.inr (Or.inl rfl)) b.body).bind hconditions
      fun M as M' hM hadd => (CompilerStateMachine.compilerState_addActions hadd).trans hM
    have hinside : Splits X.holding (·.compilerState = .inStateBlock)
        (fun X => { X with machine := { X.machine with currentEvent := some event } }.goInsideBlock
          stageName false)
        (fun F => some ((), F))
        fun M _ => { M with currentEvent := some event }.goInsideBlock stageName :=
      fun F M hM => splits_goInsideBlock stageName X (Or.inl rfl) F
        { M with currentEvent := some event } hM
    refine (((hinside.bind hbody fun M _ M' hM h => ?_).map
      (fun x => (⟨event, x.2.1, x.2.2.1⟩ : EventStatement ConditionResult)) (fun F => ?_)
      fun M x _ => ?_ : Splits X.holding _ _
        (fun F => (F.bodyActions true b.body).bind fun (actions, F) =>
          (thread Factories.conditionStatement F b.conditionStatements).map fun (conditions, F) =>
            (⟨event, actions, conditions⟩, F)) (walkEvent stageName orders)) F M hM)
    · rw [CompilerStateMachine.compilerState_goInsideBlock h]
      simp only [hM]
    · simp only [Option.bind_some, decide_true]
      cases F.bodyActions true b.body with
      | none => rfl
      | some y =>
        simp only [Option.bind_some]
        cases thread Factories.conditionStatement y.2 b.conditionStatements with
        | none => rfl
        | some z => rfl
    · rfl

/-- The initial state of the table, once a state was entered. -/
def initialAfter (initial : Option State) (isInitial : Bool) (state : State) :
    Option (Option State) :=
  if isInitial then
    if initial ≠ none ∧ initial ≠ some state then none else some (some state)
  else some initial

/-- The compiler with these factories, this machine and this initial state. -/
def holdingInitial (X : XtraCompiler) (F : Factories)
    (t : CompilerStateMachine ConditionResult × Option State) : XtraCompiler :=
  { X with initialState := t.2 }.holding F t.1

/-- The walk of a resolved state statement. -/
def walkStateInitial (t : CompilerStateMachine ConditionResult × Option State)
    (S : Bool × StateStatement ConditionResult) :
    Option (CompilerStateMachine ConditionResult × Option State) :=
  (initialAfter t.2 S.1 S.2.state).bind fun initial =>
    (walkState stageName orders t.1 S.2).map fun M => (M, initial)

/-- Entering a state. -/
theorem goInsideBlock_inStage (F : Factories)
    (t : CompilerStateMachine ConditionResult × Option State)
    (hM : t.1.compilerState = .inStageBlock) (isInitial : Bool) {state : State}
    (hstate : F.states.lastDeclaredState = some state) :
    (X.holdingInitial F t).goInsideBlock stageName isInitial =
      (t.1.goInsideBlock stageName).bind fun M =>
        (initialAfter t.2 isInitial state).map fun initial => X.holdingInitial F (M, initial) := by
  obtain ⟨M, initial⟩ := t
  unfold goInsideBlock
  change (M.goInsideBlock stageName).bind _ = _
  cases hgo : M.goInsideBlock stageName with
  | none => rfl
  | some N =>
    have hM' : M.compilerState = .inStageBlock := hM
    have hN : N.compilerState = .inStateBlock := by
      rw [CompilerStateMachine.compilerState_goInsideBlock hgo, hM']
    simp only [Option.bind_some, hN]
    cases isInitial with
    | false => rfl
    | true =>
      have hlast : (X.holdingInitial F (M, initial)).factories.states.lastDeclaredState =
          some state := hstate
      rw [if_pos rfl, hlast, Option.bind_some, initialAfter, if_pos rfl]
      unfold setInitialState
      by_cases h : initial ≠ none ∧ initial ≠ some state
      · rw [if_pos h]
        exact if_pos h
      · rw [if_neg h]
        exact if_neg h

/-- **A state statement** walks as it is resolved. -/
theorem splits_walkStateStatement (hX : X.Idle) (S : StateStatementContext) :
    Splits X.holdingInitial (·.1.compilerState = .inStageBlock)
      (·.walkStateStatement stageName orders S) (·.stateStatement S)
      (walkStateInitial stageName orders) := by
  have hidle : ∀ initial, Idle { X with initialState := initial } := fun initial =>
    ⟨hX.actionBlock, hX.sequentialActions⟩
  have hbody : ∀ initial, Splits ({ X with initialState := initial }.holding) _ _ _ _ :=
    fun initial =>
      (splits_walkBody (hidle initial) (Or.inl rfl) S.body).bind
        ((Splits.foldlM (splits_walkEventStatement stageName orders (hidle initial))
          (fun M b M' hM h => compilerState_walkEvent _ _ hM h) S.eventStatements).bind
          (splits_goOutsideBlock orders _
            (by decide : CompilerState.inStateBlock ≠ .inStageBlock))
          fun M bs M' hM h => foldlM_invariant
            (fun N b N' hN hstep => compilerState_walkEvent _ _ hN hstep) hM h)
        fun M as M' hM hadd => (CompilerStateMachine.compilerState_addActions hadd).trans hM
  have hinside : Splits X.holdingInitial (·.1.compilerState = .inStageBlock)
      (fun X => { X with
        machine := { X.machine with
          currentState := some (X.factories.states.declareState S.identifier).1 }
        factories := { X.factories with
          states := (X.factories.states.declareState S.identifier).2 } }.goInsideBlock
          stageName S.initial)
      (fun F => some ((F.states.declareState S.identifier).1,
        { F with states := (F.states.declareState S.identifier).2 }))
      fun t state => ({ t.1 with currentState := some state }.goInsideBlock stageName).bind
        fun M => (initialAfter t.2 S.initial state).map fun initial => (M, initial) := by
    intro F t hM
    refine (goInsideBlock_inStage stageName
      { F with states := (F.states.declareState S.identifier).2 }
      ({ t.1 with currentState := some (F.states.declareState S.identifier).1 }, t.2) hM
      S.initial rfl).trans ?_
    simp only [Option.bind_some, Option.map_bind]
    congr 1
    funext M
    rw [Function.comp_apply, Option.map_map]
    rfl
  refine (hinside.bind (Splits.frame hbody) fun t state t' hM h => ?_).map
    (fun x => (S.initial, ⟨x.1, x.2.1, x.2.2.1⟩)) (fun F => ?_) fun t x _ => ?_
  · obtain ⟨M, hM', h⟩ := Option.bind_eq_some_iff.mp h
    obtain ⟨initial, -, rfl⟩ := Option.map_eq_some_iff.mp h
    rw [CompilerStateMachine.compilerState_goInsideBlock hM']
    simp only [hM]
  · unfold Factories.stateStatement
    simp only [Option.bind_some]
    have hno : decide (CompilerState.inStateBlock = CompilerState.inEventBlock) = false := rfl
    rw [hno]
    cases Factories.bodyActions { F with states := (F.states.declareState S.identifier).2 } false
      S.body with
    | none => rfl
    | some y =>
      simp only [Option.bind_some]
      cases thread Factories.eventStatement y.2 S.eventStatements with
      | none => rfl
      | some z => rfl
  · unfold walkStateInitial walkState
    simp only [Option.bind_eq_bind, Option.map_bind, Option.bind_assoc]
    cases hgo : CompilerStateMachine.goInsideBlock { t.1 with currentState := some x.1 }
      stageName with
    | none =>
      simp only [Option.bind_none]
      cases initialAfter t.2 S.initial x.1 <;> rfl
    | some M =>
      cases initialAfter t.2 S.initial x.1 with
      | none => rfl
      | some initial =>
        simp only [Option.bind_some, Option.map_some, Function.comp_apply, Option.map_bind]
        rfl

end XtraCompiler

end Xl

end FlowBlaze
