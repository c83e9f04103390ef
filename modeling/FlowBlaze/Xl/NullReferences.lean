import FlowBlaze.Xl.Places
import FlowBlaze.Xl.RegisterNames
/-!
# Null references — what the callbacks rely on

A callback relies on references it never tests: the state that the
compiler goes to, the current row, the stage declared last, the entries of
the rows' hash maps, and the opcode of an update. Here each callback's
references are listed with whether they are null.

The compiler's states mirror the grammar's places, but for three gaps: the
state in front of the stages knows no macro actions, the conditions of a
custom event go to a row that need not be there, and the operator `%` has
no opcode.
-/

namespace FlowBlaze

namespace Xl

open Common

/-! ## References -/

/-- What a reference refers to. -/
inductive Referent
  | compilerState
  | currentRow
  | stage
  | mapEntry
  | opcode
deriving DecidableEq

/-- A reference, and whether it is there. -/
abbrev Reference := Referent × Bool

namespace XtraCompiler

variable (X : XtraCompiler)

/-- `getActionBlock` of the compiler's state. -/
def getActionBlock : Option ActionBlock :=
  match X.actionBlock, X.machine.compilerState with
  | some .inMacroActionDefinitionBlock, _ => some .inMacroActionSequentialBlock
  | none, .inStageBlock => some .inMacroActionDefinitionBlock
  | none, .inStateBlock => some .inStateSequentialBlock
  | none, .inEventBlock => some .inEventSequentialBlock
  | none, .inConditionBlock => some .inConditionSequentialBlock
  | _, _ => none

/-- `getInsideBlock` of the compiler's state. -/
def getInsideBlock : Option CompilerState :=
  match X.actionBlock, X.machine.compilerState with
  | none, .inOutsideBlock1 => some .inStageBlock
  | none, .inOutsideBlock2 => some .inStageBlock
  | none, .inStageBlock => some .inStateBlock
  | none, .inStateBlock => some .inEventBlock
  | none, .inEventBlock => some .inConditionBlock
  | _, _ => none

/-- `getOutsideBlock` of the compiler's state, an action block and the block
around it. -/
def getOutsideBlock : Option (Option ActionBlock × CompilerState) :=
  match X.actionBlock, X.machine.compilerState with
  | some .inMacroActionDefinitionBlock, _ => some (none, .inStageBlock)
  | some .inMacroActionSequentialBlock, _ =>
    some (some .inMacroActionDefinitionBlock, .inStageBlock)
  | some .inStateSequentialBlock, _ => some (none, .inStateBlock)
  | some .inEventSequentialBlock, _ => some (none, .inEventBlock)
  | some .inConditionSequentialBlock, _ => some (none, .inConditionBlock)
  | none, .inStageBlock => some (none, .inOutsideBlock2)
  | none, .inStateBlock => some (none, .inStageBlock)
  | none, .inEventBlock => some (none, .inStateBlock)
  | none, .inConditionBlock => some (none, .inEventBlock)
  | none, _ => none

/-- The references of `addAction`. -/
def addReferences : List Reference :=
  match X.actionBlock, X.machine.compilerState with
  | some .inMacroActionDefinitionBlock, _ => [(.mapEntry, X.macroEntry)]
  | none, .inStateBlock => [(.mapEntry, X.stateEntry)]
  | none, .inEventBlock => [(.mapEntry, X.eventEntry)]
  | none, .inConditionBlock => [(.currentRow, X.currentRow)]
  | _, _ => []

/-- The references of `goInsideBlock`. A condition block makes a row, and
adds it to the entries of its event and its state, which are put first. -/
def insideReferences : List Reference :=
  (.compilerState, X.getInsideBlock.isSome) ::
    if X.getInsideBlock = some .inConditionBlock then
      [(.mapEntry, X.machine.currentEvent.any fun event =>
          (X.machine.rows.addEvent event).eventRows.containsKey (.ofEq Event) event),
        (.mapEntry, X.machine.currentState.any fun state =>
          (X.machine.rows.addState state).stateRows.containsKey (.ofEq State) state)]
    else []

/-- The references of `goOutsideBlock`, with what the state left does. -/
def outsideReferences : List Reference :=
  (match X.actionBlock, X.machine.compilerState with
  | some .inMacroActionSequentialBlock, _ => [(.mapEntry, X.macroEntry)]
  | some .inStateSequentialBlock, _ => [(.mapEntry, X.stateEntry)]
  | some .inEventSequentialBlock, _ => [(.mapEntry, X.eventEntry)]
  | some .inConditionSequentialBlock, _ => [(.currentRow, X.currentRow)]
  | none, .inStageBlock => [(.stage, X.lastStage)]
  | _, _ => []) ++ [(.compilerState, X.getOutsideBlock.isSome)]

/-- The references of a condition whose operands are there: its entry, if
it was made before, and the row it is added to. -/
def conditionReferences (c : ConditionContext) : List Reference :=
  (X.factories.getOperand c.op0).elim [] fun op0 =>
    (X.factories.getOperand c.op1).elim [] fun op1 =>
      [(.mapEntry, !X.factories.conditions.isPresent ⟨op0, op1, c.opcode⟩ ||
          (X.factories.conditions.getCondition ⟨op0, op1, c.opcode⟩).isSome),
        (.currentRow, X.currentRow)]

/-- The references of an action: the opcode of an update that is made, the
stage whose key is set, and where the action is added. -/
def actionReferences (a : ActionContext) : List Reference :=
  (match a with
    | .assignment _ expr =>
      (X.factories.exitExpr expr).elim [] fun update => [(.opcode, update.1.isSome)]
    | .call id _ =>
      if id = "setFlowKey" ∨ id = "setUpdateKey" then [(.stage, X.lastStage)] else []) ++
  (X.factories.exitAction a).elim [] fun x => if x.1 = .nothing then [] else X.addReferences

/-- **The references of a callback**, in the order in which it relies on
them. -/
def references : Callback → List Reference
  | .enterMacroActionDefinition _ _ => [(.compilerState, X.getActionBlock.isSome)]
  | .enterSerial => [(.compilerState, X.getActionBlock.isSome)]
  | .exitMacroActionDefinition => X.outsideReferences
  | .exitSerial => X.outsideReferences
  | .enterStageStatement _ => X.insideReferences
  | .enterStateStatement _ _ _ => X.insideReferences
  | .enterEventStatement _ identifier =>
    (Event.toEvent identifier).elim [] fun _ => X.insideReferences
  | .enterConditionStatement _ => X.insideReferences
  | .exitStageStatement => X.outsideReferences
  | .exitStateStatement => X.outsideReferences
  | .exitEventStatement => X.outsideReferences
  | .exitConditionStatement => X.outsideReferences
  | .exitRegisterDefinition _ _ => []
  | .exitCondition _ c => X.conditionReferences c
  | .exitAction a => X.actionReferences a

end XtraCompiler

/-- **No null reference**: whatever callback of the program is reached, its
references are there. -/
def ProgramContext.NoNull (orders : Orders) (P : ProgramContext) : Prop :=
  ∀ before c after X, P.callbacks = before ++ c :: after →
    before.foldlM (XtraCompiler.callback orders) .initial = some X →
      ∀ r ∈ X.references c, r.2 = true

/-- **A plain callback**, after those before it: no macro action in front of
the stages, no condition of a custom event before every condition
statement, and no `%`. -/
def Callback.Plain (before : List Callback) : Callback → Prop
  | .enterMacroActionDefinition inStage _ => inStage = true
  | .exitCondition custom _ =>
    custom = true → ∃ stageName, .enterConditionStatement stageName ∈ before
  | .exitAction (.assignment _ (.binary token _ _)) => token ≠ .mod
  | _ => True

/-- The operands of a condition or an expression denote something. -/
def Callback.Denotes (F : Factories) : Callback → Prop
  | .exitCondition _ c => (F.getOperand c.op0).isSome ∧ (F.getOperand c.op1).isSome
  | .exitAction (.assignment _ expr) => (F.exitExpr expr).isSome
  | _ => True

/-! ## The references of a place -/

namespace XtraCompiler

variable {orders : Orders} {X : XtraCompiler} {p q : Place} {c : Callback}

/-- These references are there. -/
abbrev AllThere (rs : List Reference) : Prop := ∀ r ∈ rs, r.2 = true

theorem allThere_singleton {referent : Referent} {there : Bool} :
    AllThere [(referent, there)] ↔ there = true := by
  simp [AllThere]

theorem allThere_append {rs rs' : List Reference} :
    AllThere (rs ++ rs') ↔ AllThere rs ∧ AllThere rs' := List.forall_mem_append

theorem allThere_cons {r : Reference} {rs : List Reference} :
    AllThere (r :: rs) ↔ r.2 = true ∧ AllThere rs := List.forall_mem_cons

theorem Within.lastStage {block : Block} (hX : X.Within block) (hblock : block ≠ .program) :
    X.lastStage = true := by
  cases block with
  | program => exact absurd rfl hblock
  | stage => exact hX.2
  | state => exact hX.2.1
  | event => exact hX.2.1
  | condition => exact hX.2.1

theorem At.lastStage (hX : X.At p) (hp : p ≠ .block .program) : X.lastStage = true := by
  cases p with
  | block block => exact hX.2.lastStage fun h => hp (h ▸ rfl)
  | serial block => exact hX.2.1.lastStage hX.2.2.1
  | macroAction inStage => exact hX.2.1.2
  | macroSerial inStage => exact hX.2.1.2

/-- **Where an action is added** is there. -/
theorem At.addReferences (hX : X.At p) : AllThere X.addReferences := by
  unfold XtraCompiler.addReferences
  cases p with
  | block block =>
    rw [hX.1]
    cases block with
    | program => rcases hX.2 with hstate | hstate <;> rw [hstate] <;> exact List.forall_mem_nil _
    | stage =>
      rw [hX.2.1]
      exact List.forall_mem_nil _
    | state =>
      rw [hX.2.1]
      exact allThere_singleton.mpr hX.2.2.2
    | event =>
      rw [hX.2.1]
      exact allThere_singleton.mpr hX.2.2.2.2
    | condition =>
      rw [hX.2.1]
      exact allThere_singleton.mpr hX.2.2.2.2.2
  | serial block =>
    rw [hX.1]
    cases block with
    | program => exact absurd rfl hX.2.2.1
    | stage => exact allThere_singleton.mpr (hX.2.2.2 rfl)
    | state => exact List.forall_mem_nil _
    | event => exact List.forall_mem_nil _
    | condition => exact List.forall_mem_nil _
  | macroAction inStage =>
    rw [hX.1]
    exact allThere_singleton.mpr hX.2.2.1
  | macroSerial inStage =>
    rw [hX.1]
    exact List.forall_mem_nil _

/-- An operator has its opcode, but for `%`. -/
theorem isSome_opcode {token : ExprToken} : token.opcode.isSome = true ↔ token ≠ .mod := by
  cases token <;> decide

theorem At.addReferences_exitAction (hX : X.At p) (a : ActionContext) :
    AllThere ((X.factories.exitAction a).elim [] fun x =>
      if x.1 = .nothing then [] else X.addReferences) := by
  cases X.factories.exitAction a with
  | none => exact List.forall_mem_nil _
  | some x =>
    change AllThere (if x.1 = .nothing then [] else X.addReferences)
    split
    · exact List.forall_mem_nil _
    · exact hX.addReferences

/-- **An action** relies on an opcode, if on anything that need not be
there. -/
theorem At.actionReferences_iff (hX : X.At p) (hp : p ≠ .block .program) (a : ActionContext)
    (before : List Callback) : AllThere (X.actionReferences a) ↔
      ((Callback.exitAction a).Denotes X.factories → (Callback.exitAction a).Plain before) := by
  unfold XtraCompiler.actionReferences
  rw [allThere_append, and_iff_left (hX.addReferences_exitAction a)]
  cases a with
  | call id terms =>
    refine iff_of_true ?_ fun _ => trivial
    change AllThere (if id = "setFlowKey" ∨ id = "setUpdateKey" then _ else _)
    split
    · exact allThere_singleton.mpr (hX.lastStage hp)
    · exact List.forall_mem_nil _
  | assignment identifier expr =>
    cases hexpr : X.factories.exitExpr expr with
    | none =>
      refine iff_of_true ?_ fun hdenotes => ?_
      · simp only [hexpr]
        exact List.forall_mem_nil _
      · have hsome : (X.factories.exitExpr expr).isSome := hdenotes
        rw [hexpr] at hsome
        cases hsome
    | some update =>
      simp only [hexpr]
      refine allThere_singleton.trans ?_
      have hdenotes : (Callback.exitAction (.assignment identifier expr)).Denotes X.factories :=
        Option.isSome_iff_exists.mpr ⟨update, hexpr⟩
      rw [forall_prop_of_true hdenotes]
      cases expr with
      | term op0 =>
        obtain ⟨_, -, rfl⟩ := Option.map_eq_some_iff.mp hexpr
        exact iff_of_true rfl trivial
      | binary token op0 op1 =>
        obtain ⟨_, -, hexpr⟩ := Option.bind_eq_some_iff.mp hexpr
        obtain ⟨_, -, rfl⟩ := Option.map_eq_some_iff.mp hexpr
        exact isSome_opcode

/-- A condition that was made before has its entry. -/
theorem isSome_getCondition (F : ConditionFactory) (c : SourceCondition) :
    (!F.isPresent c || (F.getCondition c).isSome) = true := by
  cases hpresent : F.isPresent c with
  | false => rfl
  | true =>
    obtain ⟨e, -, -, hget⟩ := LinkedHashMap.get_of_containsKey hpresent
    unfold ConditionFactory.getCondition
    rw [hget]
    rfl

/-- **A condition** relies on the current row. -/
theorem conditionReferences_iff (c : ConditionContext) (custom : Bool) :
    AllThere (X.conditionReferences c) ↔
      ((Callback.exitCondition custom c).Denotes X.factories → X.currentRow = true) := by
  unfold conditionReferences
  change _ ↔ ((X.factories.getOperand c.op0).isSome ∧ (X.factories.getOperand c.op1).isSome → _)
  cases X.factories.getOperand c.op0 with
  | none => exact iff_of_true (List.forall_mem_nil _) fun h => by cases h.1
  | some op0 =>
    cases X.factories.getOperand c.op1 with
    | none => exact iff_of_true (List.forall_mem_nil _) fun h => by cases h.2
    | some op1 =>
      refine allThere_cons.trans ((and_iff_right (isSome_getCondition _ _)).trans ?_)
      exact allThere_singleton.trans ⟨fun h _ => h, fun h => h ⟨rfl, rfl⟩⟩

theorem At.getActionBlock {block : Block} (hX : X.At (.block block)) :
    X.getActionBlock = serialBlock block := by
  unfold XtraCompiler.getActionBlock
  rw [hX.1]
  cases block with
  | program => rcases hX.2 with hstate | hstate <;> rw [hstate] <;> rfl
  | _ =>
    rw [hX.2.1]
    rfl

/-- The state that a block is left for is there. -/
theorem At.outsideReferences (hX : X.At p) (hp : p ≠ .block .program) :
    AllThere X.outsideReferences := by
  unfold XtraCompiler.outsideReferences getOutsideBlock
  rw [allThere_append, allThere_singleton]
  cases p with
  | block block =>
    rw [hX.1]
    cases block with
    | program => exact absurd rfl hp
    | stage =>
      rw [hX.2.1]
      exact ⟨allThere_singleton.mpr hX.2.2, rfl⟩
    | state =>
      rw [hX.2.1]
      exact ⟨List.forall_mem_nil _, rfl⟩
    | event =>
      rw [hX.2.1]
      exact ⟨List.forall_mem_nil _, rfl⟩
    | condition =>
      rw [hX.2.1]
      exact ⟨List.forall_mem_nil _, rfl⟩
  | serial block =>
    rw [hX.1]
    cases block with
    | program => exact absurd rfl hX.2.2.1
    | stage => exact ⟨List.forall_mem_nil _, rfl⟩
    | state => exact ⟨allThere_singleton.mpr hX.2.1.2.2, rfl⟩
    | event => exact ⟨allThere_singleton.mpr hX.2.1.2.2.2, rfl⟩
    | condition => exact ⟨allThere_singleton.mpr hX.2.1.2.2.2.2, rfl⟩
  | macroAction inStage =>
    rw [hX.1]
    exact ⟨List.forall_mem_nil _, rfl⟩
  | macroSerial inStage =>
    rw [hX.1]
    exact ⟨allThere_singleton.mpr hX.2.2.1, rfl⟩

/-- And the one that a block is entered by. -/
theorem At.insideReferences {block : Block} (hX : X.At (.block block))
    (hblock : block ≠ .condition) : AllThere X.insideReferences := by
  unfold XtraCompiler.insideReferences getInsideBlock
  rw [hX.1]
  cases block with
  | program =>
    rcases hX.2 with hstate | hstate <;> rw [hstate] <;> exact allThere_singleton.mpr rfl
  | stage =>
    rw [hX.2.1]
    exact allThere_singleton.mpr rfl
  | state =>
    rw [hX.2.1]
    exact allThere_singleton.mpr rfl
  | event =>
    rw [hX.2.1]
    refine allThere_cons.mpr ⟨rfl, allThere_cons.mpr ⟨?_, allThere_singleton.mpr ?_⟩⟩
    · have hentry := hX.2.2.2.2
      unfold eventEntry at hentry
      cases hevent : X.machine.currentEvent with
      | none =>
        rw [hevent] at hentry
        cases hentry
      | some event => exact containsKey_addEvent
    · have hentry := hX.2.2.2.1
      unfold stateEntry at hentry
      cases hstate : X.machine.currentState with
      | none =>
        rw [hstate] at hentry
        cases hentry
      | some state => exact containsKey_addState
  | condition => exact absurd rfl hblock

/-- **When the references of a callback are there**: where the compiler is,
all but three kinds of callback rely on nothing that could be missing. -/
theorem At.references_iff (hX : X.At p) (hmove : Moves p c q) {before : List Callback}
    (hrow : X.currentRow = true ↔ ∃ stageName, .enterConditionStatement stageName ∈ before) :
    AllThere (X.references c) ↔ (c.Denotes X.factories → c.Plain before) := by
  have htrue : ∀ {rs : List Reference} {A B : Prop}, AllThere rs → B →
      (AllThere rs ↔ (A → B)) := fun hrs hB => iff_of_true hrs fun _ => hB
  cases hmove with
  | enterMacroAction inStage identifier =>
    refine allThere_singleton.trans ?_
    rw [hX.getActionBlock]
    cases inStage with
    | false => exact ⟨fun h => (by cases h), fun h => h trivial⟩
    | true => exact iff_of_true rfl fun _ => rfl
  | exitMacroAction inStage => exact htrue (hX.outsideReferences fun h => by cases h) trivial
  | enterStage identifier => exact htrue (hX.insideReferences fun h => by cases h) trivial
  | exitStage => exact htrue (hX.outsideReferences fun h => by cases h) trivial
  | enterState stageName initial identifier =>
    exact htrue (hX.insideReferences fun h => by cases h) trivial
  | exitState => exact htrue (hX.outsideReferences fun h => by cases h) trivial
  | enterEvent stageName identifier =>
    refine htrue ?_ trivial
    change AllThere ((Event.toEvent identifier).elim [] fun _ => X.insideReferences)
    cases Event.toEvent identifier with
    | none => exact List.forall_mem_nil _
    | some event => exact hX.insideReferences fun h => by cases h
  | exitEvent => exact htrue (hX.outsideReferences fun h => by cases h) trivial
  | enterCondition stageName => exact htrue (hX.insideReferences fun h => by cases h) trivial
  | exitCondition => exact htrue (hX.outsideReferences fun h => by cases h) trivial
  | @enterSerial block hblock =>
    refine htrue (allThere_singleton.mpr ?_) trivial
    rw [hX.getActionBlock]
    cases block with
    | program => exact absurd rfl hblock
    | _ => rfl
  | exitSerial block => exact htrue (hX.outsideReferences fun h => by cases h) trivial
  | enterMacroSerial inStage =>
    refine htrue (allThere_singleton.mpr ?_) trivial
    unfold XtraCompiler.getActionBlock
    rw [hX.1]
    rfl
  | exitMacroSerial inStage => exact htrue (hX.outsideReferences fun h => by cases h) trivial
  | register inStage global identifiers => exact htrue (List.forall_mem_nil _) trivial
  | customCondition inStage condition =>
    rw [show X.references (.exitCondition true condition) = X.conditionReferences condition
      from rfl, conditionReferences_iff condition true, hrow]
    exact ⟨fun h hdenotes _ => h hdenotes, fun h hdenotes => h hdenotes rfl⟩
  | condition condition =>
    refine iff_of_true ?_ fun _ h => by cases h
    exact (conditionReferences_iff condition false).mpr fun _ => hX.2.2.2.2.2
  | action hplace a => exact hX.actionReferences_iff hplace a before

/-- **A null reference ends the walk**, but for an opcode. -/
theorem At.callback_eq_none (hX : X.At p) (hmove : Moves p c q) {before : List Callback}
    (hrow : X.currentRow = true ↔ ∃ stageName, .enterConditionStatement stageName ∈ before)
    {referent : Referent} (hnull : (referent, false) ∈ X.references c) (hne : referent ≠ .opcode) :
    X.callback orders c = none := by
  have hbad : ¬ c.Plain before := fun hplain => by
    cases (hX.references_iff hmove hrow).mpr (fun _ => hplain) _ hnull
  refine Option.eq_none_iff_forall_ne_some.mpr fun Y hY => ?_
  cases hmove with
  | enterMacroAction inStage identifier => exact hbad (hX.enterMacroAction hY).2.2.2
  | customCondition inStage condition =>
    refine hbad fun _ => hrow.mp ?_
    obtain ⟨x, -, hY⟩ := Option.bind_eq_some_iff.mp hY
    obtain ⟨M, hM, -⟩ := Option.map_eq_some_iff.mp hY
    obtain ⟨rows, hrows, -⟩ := Option.map_eq_some_iff.mp hM
    obtain ⟨ref, href, -⟩ := Option.map_eq_some_iff.mp hrows
    exact Option.isSome_iff_exists.mpr ⟨ref, href⟩
  | condition condition => exact hbad fun h => by cases h
  | action hplace a =>
    -- what an action is added to is there, so only its own references are left
    have hown := (List.mem_append.mp hnull).resolve_right fun hadd => by
      cases hX.addReferences_exitAction a _ hadd
    cases a with
    | call id terms => exact hbad trivial
    | assignment identifier expr =>
      cases hexpr : X.factories.exitExpr expr with
      | none =>
        simp only [hexpr] at hown
        cases hown
      | some update =>
        simp only [hexpr] at hown
        exact hne (Prod.mk.inj (List.mem_singleton.mp hown)).1
  | _ => exact hbad trivial

end XtraCompiler

/-! ## Declarations -/

/-- The names that a stage of a program may use. -/
structure UsableNames where
  registers : List String
  states : List String
  stages : List String
  macroActions : List String

/-- A term denotes something. -/
def Term.wellDeclared (names : UsableNames) : Term → Bool
  | .field _ operand => operand.isSome
  | .identifier name => (getReadOnlyRegister name).isSome || decide (name ∈ names.registers)
  | .constant _ c => c.isSome

/-- The terms of an expression. -/
def Expr.terms : Expr → List Term
  | .binary _ op0 op1 => [op0, op1]
  | .term op0 => [op0]

/-- The names of an action are declared, and a call has the declared number
of arguments. -/
def ActionContext.wellDeclared (names : UsableNames) : ActionContext → Bool
  | .assignment identifier expr =>
    decide (identifier ∈ names.registers) && expr.terms.all (Term.wellDeclared names)
  | .call id terms =>
    if id = "setNextState" then
      terms.length == 1 && terms.all fun term => decide (term.getText ∈ names.states)
    else if id = "setNextStage" then
      terms.length == 1 && terms.all fun term => decide (term.getText ∈ names.stages)
    else if id = "setFlowKey" ∨ id = "setUpdateKey" then
      terms.all fun term => (Factories.getKeyField term).isSome
    else if id ∈ names.macroActions then terms.isEmpty
    else (HardwareActionOpcode.toHardwareActionOpcode id).any fun opcode =>
      terms.length == opcode.argsMap && terms.all (Term.wellDeclared names)

/-- The names of a callback are declared, and an event is `pktRcvd` or
`timeout`. -/
def Callback.wellDeclared (names : UsableNames) : Callback → Bool
  | .exitAction a => a.wellDeclared names
  | .exitCondition _ c => c.op0.wellDeclared names && c.op1.wellDeclared names
  | .enterEventStatement _ identifier => (Event.toEvent identifier).isSome
  | _ => true

/-- The names that these definitions make usable, besides the states and
the stages of the program. -/
def ProgramContext.usableNames (P : ProgramContext) (definitions : List Definition) :
    UsableNames where
  registers := (P.topDefinitions ++ definitions).flatMap Definition.registers
  states := "any" :: P.stages.flatMap fun T => T.stateStatements.map (·.identifier)
  stages := P.stages.map (·.identifier)
  macroActions := (P.topDefinitions ++ definitions).filterMap Definition.macroName

/-- **Every used name is declared**, every call has the declared number of
arguments and every event is `pktRcvd` or `timeout`. -/
def ProgramContext.wellDeclared (P : ProgramContext) : Bool :=
  (P.topDefinitions.flatMap (Definition.callbacks false)).all
      (Callback.wellDeclared (P.usableNames [])) &&
    P.stages.all fun T => T.callbacks.all (Callback.wellDeclared (P.usableNames T.definitions))

/-! ## Programs -/

open XtraCompiler in
/-- Where a program's callback is reached. -/
theorem ProgramContext.reached {orders : Orders} {P : ProgramContext}
    {before after : List Callback} {c : Callback} {X : XtraCompiler}
    (hP : P.callbacks = before ++ c :: after)
    (hX : before.foldlM (callback orders) .initial = some X) :
    ∃ p q, X.At p ∧ Moves p c q ∧
      (X.currentRow = true ↔ ∃ stageName, .enterConditionStatement stageName ∈ before) := by
  have hpath := Path.program P
  rw [hP] at hpath
  obtain ⟨p, hbefore, q, hmove, -⟩ := hpath.of_append
  refine ⟨p, q, at_initial.foldlM hbefore hX, hmove, ?_⟩
  rw [at_initial.currentRow_foldlM hbefore hX]
  exact or_iff_right fun h => by cases h

/-- **When no reference is null**: exactly when every callback that is
reached, and whose operands denote something, is plain. -/
theorem ProgramContext.noNull_iff (orders : Orders) (P : ProgramContext) :
    P.NoNull orders ↔ ∀ before c after X, P.callbacks = before ++ c :: after →
      before.foldlM (XtraCompiler.callback orders) .initial = some X →
        c.Denotes X.factories → c.Plain before := by
  constructor
  · intro h before c after X hP hX
    obtain ⟨p, q, hat, hmove, hrow⟩ := P.reached hP hX
    exact (hat.references_iff hmove hrow).mp (h before c after X hP hX)
  · intro h before c after X hP hX
    obtain ⟨p, q, hat, hmove, hrow⟩ := P.reached hP hX
    exact (hat.references_iff hmove hrow).mpr (h before c after X hP hX)

/-- **A plain program** meets no null reference, whatever else is wrong
with it. -/
theorem ProgramContext.noNull_of_plain {orders : Orders} {P : ProgramContext}
    (h : ∀ before c after, P.callbacks = before ++ c :: after → c.Plain before) :
    P.NoNull orders := by
  intro before c after X hP hX
  obtain ⟨p, q, hat, hmove, hrow⟩ := P.reached hP hX
  exact (hat.references_iff hmove hrow).mpr fun _ => h before c after hP

/-- A register that counts packets modulo 2. -/
def moduloProgram : ProgramContext :=
  .stateProgram [.register false ["parity"]]
    [⟨true, "A", [.action (.call "setFlowKey" [])], [⟨"pktRcvd", [.action (.assignment "parity"
      (.binary .mod (.identifier "parity") (.constant "2" (some ⟨.integerConstant, "2"⟩))))], []⟩]⟩]

/-- **An update without opcode**: in a program whose names are all declared,
and that is compiled. -/
theorem not_noNull :
    (∃ stages, compile keyOrders moduloProgram = some stages) ∧
      ¬ ∀ orders (P : ProgramContext), P.wellDeclared = true → P.NoNull orders := by
  refine ⟨Option.isSome_iff_exists.mp (by decide +kernel), fun h => ?_⟩
  have hnoNull := h keyOrders moduloProgram (by decide +kernel)
  have hreferences : ((moduloProgram.callbacks.take 5).foldlM (XtraCompiler.callback keyOrders)
      .initial).map (fun X => (moduloProgram.callbacks.drop 5).head?.map X.references) =
        some (some [(.opcode, false), (.mapEntry, true)]) := by decide +kernel
  obtain ⟨X, hX, hreferences⟩ := Option.map_eq_some_iff.mp hreferences
  have hnull := hnoNull (moduloProgram.callbacks.take 5) _ _ X rfl hX (.opcode, false)
  rw [Option.some.inj hreferences] at hnull
  exact Bool.false_ne_true (hnull List.mem_cons_self)

end Xl

end FlowBlaze
