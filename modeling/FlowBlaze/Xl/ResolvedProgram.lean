import FlowBlaze.Xl.Resolution
/-!
# A program, resolved

The same for definitions, stages and the program: all names are resolved
first, and the tables are made from what is left. `walkProgram_eq` says that
this is the compiler.
-/

namespace FlowBlaze

namespace Xl

open Common

/-! ## Resolving stages -/

/-- A stage statement, resolved: the condition results of its custom
events, its state statements, and for its table the stage and the
conditions. -/
structure ResolvedStage where
  identifier : String
  customConditions : List (List ConditionResult)
  states : List (Bool × StateStatement ConditionResult)
  table : String
  conditions : List Condition

namespace Factories

/-- The factories at the end of a stage. -/
def finishStage (F : Factories) : Factories :=
  { F with
    macroActions := []
    localRegisters := .new
    globalRegisters := .new
    conditions := F.conditions.getConditionsAndClear.2 }

/-- A stage statement. -/
def stageStatement (s : Factories × Option String) (T : StageStatementContext) :
    Option (ResolvedStage × (Factories × Option String)) :=
  let F := { s.1 with stages := s.1.stages.declareStage T.identifier }
  (thread definition (F, s.2) T.definitions).bind fun (results, s) =>
    (T.body.foldlM (Factories.stageElement · s.2 ·) s.1).bind fun F =>
      (thread stateStatement F T.stateStatements).bind fun (states, F) =>
        F.stages.lastDeclaredStage.map fun table =>
          (⟨T.identifier, results, states, table, F.conditions.getConditionsAndClear.1⟩,
            (F.finishStage, s.2))

/-- A definition outside of every stage, where a macro action cannot be. -/
def topDefinition (s : Factories × Option String) (d : Definition) :
    Option (List ConditionResult × (Factories × Option String)) :=
  match d with
  | .macroAction _ _ => none
  | _ => definition s d

/-- **A program, resolved**: the condition results of its custom events,
and its stages. -/
def program (s : Factories × Option String) (P : ProgramContext) :
    Option ((List (List ConditionResult) × List ResolvedStage) × (Factories × Option String)) :=
  match P with
  | .stageProgram definitions stages =>
    (thread topDefinition s definitions).bind fun (results, s) =>
      (thread stageStatement s stages).map fun (stages, s) => ((results, stages), s)
  | .stateProgram definitions states =>
    (stageStatement s ⟨"default", definitions, [], states⟩).map fun (stage, s) =>
      (([], [stage]), s)

end Factories

/-! ## Walking definitions -/

namespace XtraCompiler

variable {X : XtraCompiler} {F : Factories} {M : CompilerStateMachine ConditionResult}

/-- **An element of a macro action's body.** -/
theorem walkElement_inMacro (element : BodyElement) :
    (X.inside .inMacroActionDefinitionBlock F []).walkElement element =
      (F.macroElement X.currentMacroAction element).map fun F =>
        X.inside .inMacroActionDefinitionBlock F [] := by
  cases element with
  | action action =>
    unfold walkElement walkAction Factories.macroElement
    change (F.exitAction action).bind _ = _
    rw [Option.map_bind]
    congr 1
    funext ⟨added, F'⟩
    cases added with
    | nothing => rfl
    | action a =>
      unfold Factories.addToMacro
      rw [Function.comp_apply, Option.map_map]
      rfl
    | actions as => rfl
  | serial actions =>
    have hinside : (X.inside .inMacroActionDefinitionBlock F []).goInsideActionsBlock =
        some (X.inside .inMacroActionSequentialBlock F []) := rfl
    unfold walkElement Factories.macroElement
    simp only [hinside, Option.bind_eq_bind, Option.bind_some,
      foldlM_walkAction_inside (⟨by decide, by decide⟩ : Gathers .inMacroActionSequentialBlock)]
    cases F.serialActions actions with
    | none => rfl
    | some x =>
      simp only [Option.map_some, Option.bind_some]
      unfold Factories.addToMacro
      rw [Option.map_map]
      rfl

theorem foldlM_walkElement_inMacro (body : List BodyElement) :
    body.foldlM walkElement (X.inside .inMacroActionDefinitionBlock F []) =
      (body.foldlM (Factories.macroElement · X.currentMacroAction ·) F).map fun F =>
        X.inside .inMacroActionDefinitionBlock F [] :=
  foldlM_map_emb (I := fun _ => True) (fun _ element _ => walkElement_inMacro element)
    (fun _ _ _ _ _ => trivial) body trivial

/-- **A macro action**, or a serial block of a stage's body. -/
theorem walkMacro (hX : X.Idle) (hM : M.compilerState = .inStageBlock)
    (body : List BodyElement) :
    ((X.holding F M).goInsideActionsBlock.bind fun X =>
      (body.foldlM walkElement X).bind goOutsideActionsBlock) =
      (F.macroAction X.currentMacroAction body).map fun F => X.holding F M := by
  have hblock := hX.actionBlock
  have hseq := hX.sequentialActions
  have hinside : (X.holding F M).goInsideActionsBlock =
      (F.createMacro X.currentMacroAction).map fun F =>
        (X.holding F M).inside .inMacroActionDefinitionBlock F [] := by
    unfold goInsideActionsBlock Factories.createMacro
    simp only [holding, hblock, hM, inside, Option.map_map, ← hseq]
    rfl
  have hout : ∀ F F', ((X.holding F M).inside .inMacroActionDefinitionBlock F' []
      ).goOutsideActionsBlock = some (X.holding F' M) := by
    intro F F'
    unfold goOutsideActionsBlock inside holding
    simp only [← hblock, ← hseq]
  unfold Factories.macroAction
  rw [hinside, Option.bind_map, Option.map_bind]
  congr 1
  funext F'
  rw [Function.comp_apply, foldlM_walkElement_inMacro, Option.bind_map, Function.comp_apply,
    Option.map_eq_bind]
  exact congrArg _ (funext fun F'' => hout F' F'')

/-! ## Walking stages -/

/-- What the compiler keeps of rows: its machine, the initial state of the
table, and the tables. -/
structure Rows where
  machine : CompilerStateMachine ConditionResult
  initialState : Option State
  tables : LinkedHashMap String TableObject

/-- **The compiler, from its two parts**, outside every block for actions. -/
def of (s : Factories × Option String) (t : Rows) : XtraCompiler :=
  ⟨t.machine, none, s.2, [], s.1, t.initialState, t.tables⟩

/-- Rows, with another machine. -/
def Rows.holding (t : Rows) (M : CompilerStateMachine ConditionResult) : Rows :=
  { t with machine := M }

/-- Entering a block, of the rows. -/
def Rows.inBlock (t : Rows) (block : CompilerState) : Prop := t.machine.compilerState = block

theorem idle_of {s : Factories × Option String} {t : Rows} : (of s t).Idle := ⟨rfl, rfl⟩

/-- Custom conditions, of the rows. -/
def Rows.exitConditions (t : Rows) (results : List ConditionResult) : Option Rows :=
  (results.foldlM Xl.exitCondition t.machine).map t.holding

/-- **A definition**, which for a macro action is in a stage. -/
theorem splits_walkDefinition {I : Rows → Prop} (d : Definition)
    (h : (∀ t, I t → t.inBlock .inStageBlock) ∨ ∀ identifier body,
      d ≠ .macroAction identifier body) :
    Splits of I (·.walkDefinition d) (Factories.definition · d) Rows.exitConditions := by
  intro s t hM
  obtain ⟨F, current⟩ := s
  cases d with
  | register global identifiers =>
    unfold walkDefinition Factories.definition
    simp only
    change Option.map _ (identifiers.foldlM (Factories.allocateRegister · global ·) F) = _
    cases identifiers.foldlM (Factories.allocateRegister · global ·) F <;> rfl
  | customEvent conditions =>
    unfold walkDefinition Factories.definition
    simp only
    refine (splits_exitConditions (of (F, current) t) _ conditions F t.machine rfl).trans ?_
    simp only
    cases thread Factories.exitCondition F conditions with
    | none => rfl
    | some x =>
      simp only [Option.bind_some, Option.map_some, Rows.exitConditions, Option.map_map]
      rfl
  | macroAction identifier body =>
    have hM : t.inBlock .inStageBlock :=
      h.elim (fun h => h t hM) fun h => absurd rfl (h identifier body)
    unfold walkDefinition Factories.definition
    simp only
    refine (walkMacro (F := F) (M := t.machine) (idle_of (s := (F, some identifier)) (t := t)) hM
      body).trans ?_
    change (F.macroAction (some identifier) body).map _ = _
    cases F.macroAction (some identifier) body <;> rfl

/-- **An element of a stage's body.** -/
theorem splits_stageElement (element : BodyElement) :
    Splits of (Rows.inBlock · .inStageBlock) (·.walkElement element)
      (fun s => (s.1.stageElement s.2 element).map fun F => ((), (F, s.2))) fun t _ => some t := by
  intro s t hM
  obtain ⟨F, current⟩ := s
  have hM' : t.machine.compilerState = .inStageBlock := hM
  cases element with
  | action action =>
    have hadd : ∀ a, t.machine.addAction a = some t.machine := by
      intro a
      unfold CompilerStateMachine.addAction
      rw [hM']
    have hadds : ∀ as, t.machine.addActions as = some t.machine := by
      intro as
      induction as with
      | nil => rfl
      | cons a as ih =>
        unfold CompilerStateMachine.addActions at ih ⊢
        rw [List.foldlM_cons, hadd]
        exact ih
    refine (splits_walkAction (idle_of (s := (F, current)) (t := t)) .inStageBlock action F
      t.machine hM).trans ?_
    unfold Factories.actionsOf Factories.stageElement
    simp only
    cases F.exitAction action with
    | none => rfl
    | some x =>
      simp only [Option.map_some, Option.bind_some, hadds]
      rfl
  | serial actions =>
    have hactions : ∀ X : XtraCompiler, actions.foldlM walkAction X =
        (actions.map BodyElement.action).foldlM walkElement X := by
      intro X
      rw [List.foldlM_map]
      rfl
    unfold walkElement Factories.stageElement
    simp only [Option.bind_eq_bind, hactions]
    refine (walkMacro (F := F) (M := t.machine) (idle_of (s := (F, current)) (t := t)) hM
      (actions.map .action)).trans ?_
    change (F.macroAction current _).map _ = _
    cases F.macroAction current (actions.map .action) <;> rfl

/-- State statements. -/
theorem splits_walkStates (stageName : String) (orders : Orders)
    (states : List StateStatementContext) :
    Splits of (Rows.inBlock · .inStageBlock)
      (fun X => states.foldlM (fun X S => X.walkStateStatement stageName orders S) X)
      (fun s => (thread Factories.stateStatement s.1 states).map fun (states, F) =>
        (states, (F, s.2)))
      fun t states =>
        (states.foldlM (walkStateInitial stageName orders) (t.machine, t.initialState)).map
          fun (M, initial) => ⟨M, initial, t.tables⟩ := by
  intro s t hM
  have hstates := Splits.foldlM (splits_walkStateStatement stageName orders
    (idle_of (s := s) (t := t))) (fun t S t' ht h => by
      obtain ⟨_, -, h⟩ := Option.bind_eq_some_iff.mp h
      obtain ⟨M, hM, rfl⟩ := Option.map_eq_some_iff.mp h
      exact compilerState_walkState _ _ ht hM) states
  refine (hstates s.1 (t.machine, t.initialState) hM).trans ?_
  simp only
  cases thread Factories.stateStatement s.1 states with
  | none => rfl
  | some x =>
    simp only [Option.bind_some, Option.map_some, Option.map_map]
    rfl

/-- Entering a stage. -/
theorem splits_goInsideStage (name : String) :
    Splits of (fun t => t.machine.compilerState = .inOutsideBlock1 ∨
        t.machine.compilerState = .inOutsideBlock2) (·.goInsideBlock name false)
      (fun s => some ((), ({ s.1 with stages := s.1.stages.declareStage name }, s.2)))
      fun t _ => (t.machine.goInsideBlock name).map fun M => ⟨M, none, t.tables⟩ := by
  intro s t hM
  unfold goInsideBlock
  change (t.machine.goInsideBlock name).bind _ = _
  simp only [Option.bind_some]
  cases hgo : t.machine.goInsideBlock name with
  | none => rfl
  | some N =>
    have hN : N.compilerState = .inStageBlock := by
      rw [CompilerStateMachine.compilerState_goInsideBlock hgo]
      rcases hM with hM | hM <;> rw [hM]
    simp only [Option.bind_some, hN]
    rfl

/-- Leaving a stage. -/
theorem splits_goOutsideStage (orders : Orders) :
    Splits of (Rows.inBlock · .inStageBlock) (·.goOutsideBlock orders)
      (fun s => s.1.stages.lastDeclaredStage.map fun table =>
        ((table, s.1.conditions.getConditionsAndClear.1), (s.1.finishStage, s.2)))
      fun t x => t.initialState.bind fun initialState =>
        (CompilerStateMachine.goOutsideBlock { t.machine with
          rows := t.machine.rows.getTableRowsAndClear.2 } orders).map fun M =>
            ⟨M, some initialState, t.tables.put (.ofEq String) x.1
              ⟨initialState, t.machine.rows.tableRows, x.2⟩⟩ := by
  intro s t hM
  have hout : (of s t).goOutsideBlock orders = (of s t).finishStage.bind fun X =>
      (X.machine.goOutsideBlock orders).map fun machine => { X with machine := machine } := by
    unfold goOutsideBlock
    exact congrArg (Option.bind · _) (if_pos hM)
  refine hout.trans ?_
  obtain ⟨F, current⟩ := s
  obtain ⟨M, initial, tables⟩ := t
  unfold finishStage
  simp only [of]
  cases initial with
  | none => cases F.stages.lastDeclaredStage <;> rfl
  | some initialState =>
    cases F.stages.lastDeclaredStage with
    | none => rfl
    | some table =>
      simp only [Option.bind_some, Option.map_some, Option.map_map]
      rfl

/-- **The rows of a resolved stage.** -/
def Rows.walkStage (orders : Orders) (t : Rows) (R : ResolvedStage) : Option Rows :=
  (t.machine.goInsideBlock R.identifier).bind fun M =>
    (R.customConditions.foldlM Rows.exitConditions ⟨M, none, t.tables⟩).bind fun t =>
      (R.states.foldlM (walkStateInitial R.identifier orders) (t.machine, t.initialState)).bind
        fun (M, initial) => initial.bind fun initialState =>
          (CompilerStateMachine.goOutsideBlock { M with rows := M.rows.getTableRowsAndClear.2 }
            orders).map fun M' => ⟨M', some initialState, t.tables.put (.ofEq String) R.table
              ⟨initialState, M.rows.tableRows, R.conditions⟩⟩

/-- Outside of every stage. -/
def Rows.outside (t : Rows) : Prop :=
  t.machine.compilerState = .inOutsideBlock1 ∨ t.machine.compilerState = .inOutsideBlock2

theorem Rows.exitConditions_machine {t t' : Rows} {results : List ConditionResult}
    (h : t.exitConditions results = some t') :
    t'.machine.compilerState = t.machine.compilerState := by
  obtain ⟨M, hM, rfl⟩ := Option.map_eq_some_iff.mp h
  exact compilerState_exitConditions hM

/-- State statements leave the stage. -/
theorem compilerState_walkStates {stageName : String} {orders : Orders}
    {states : List (Bool × StateStatement ConditionResult)}
    {t t' : CompilerStateMachine ConditionResult × Option State}
    (ht : t.1.compilerState = .inStageBlock)
    (h : states.foldlM (walkStateInitial stageName orders) t = some t') :
    t'.1.compilerState = .inStageBlock := by
  refine foldlM_invariant (I := fun t => t.1.compilerState = .inStageBlock)
    (fun t S t' ht h => ?_) ht h
  obtain ⟨_, -, h⟩ := Option.bind_eq_some_iff.mp h
  obtain ⟨M, hM, rfl⟩ := Option.map_eq_some_iff.mp h
  exact compilerState_walkState _ _ ht hM

/-- A stage's body, element by element. -/
theorem thread_stageElement (s : Factories × Option String) (body : List BodyElement) :
    thread (fun (s : Factories × Option String) element =>
      (s.1.stageElement s.2 element).map fun F => ((), (F, s.2))) s body =
      (body.foldlM (Factories.stageElement · s.2 ·) s.1).map fun F =>
        (List.replicate body.length (), (F, s.2)) := by
  obtain ⟨F, current⟩ := s
  induction body generalizing F with
  | nil => rfl
  | cons element body ih =>
    rw [thread, List.foldlM_cons]
    simp only
    cases F.stageElement current element with
    | none => rfl
    | some F' =>
      simp only [Option.map_some, Option.bind_some, Option.bind_eq_bind, ih, Option.map_map]
      rfl

/-- **A stage statement** walks as it is resolved. -/
theorem splits_walkStageStatement (orders : Orders) (T : StageStatementContext) :
    Splits of Rows.outside (·.walkStageStatement orders T) (Factories.stageStatement · T)
      (Rows.walkStage orders) := by
  have hstates := (splits_walkStates T.identifier orders T.stateStatements).bind
    (splits_goOutsideStage orders) fun t states t' ht h => by
      obtain ⟨⟨M, initial⟩, hM, rfl⟩ := Option.map_eq_some_iff.mp h
      exact compilerState_walkStates (t := (t.machine, t.initialState)) ht hM
  have hbody := (Splits.foldlM splits_stageElement (fun t _ t' ht h => Option.some.inj h ▸ ht)
    T.body).bind hstates fun t units t' ht h =>
      foldlM_invariant (I := (Rows.inBlock · .inStageBlock))
      (fun t _ t' ht h => Option.some.inj h ▸ ht) ht h
  have hdefinitions := (Splits.foldlM (fun d => splits_walkDefinition d (Or.inl fun _ ht => ht))
    (fun t results t' ht h => (Rows.exitConditions_machine h).trans ht) T.definitions).bind hbody
    fun t results t' ht h => foldlM_invariant
      (I := fun t => t.inBlock .inStageBlock)
      (fun t results t' ht h => (Rows.exitConditions_machine h).trans ht) ht h
  refine ((splits_goInsideStage T.identifier).bind hdefinitions fun t _ t' ht h => ?_).map
    (fun x => ⟨T.identifier, x.2.1, x.2.2.2.1, x.2.2.2.2.1, x.2.2.2.2.2⟩) (fun s => ?_)
    fun t x _ => ?_
  · obtain ⟨M, hM, rfl⟩ := Option.map_eq_some_iff.mp h
    unfold Rows.inBlock
    rw [CompilerStateMachine.compilerState_goInsideBlock hM]
    rcases ht with ht | ht <;> rw [ht]
  · unfold Factories.stageStatement
    simp only [Option.bind_some]
    cases thread Factories.definition ({ s.1 with
      stages := s.1.stages.declareStage T.identifier }, s.2) T.definitions with
    | none => rfl
    | some y =>
      simp only [Option.bind_some, thread_stageElement]
      cases T.body.foldlM (Factories.stageElement · y.2.2 ·) y.2.1 with
      | none => rfl
      | some F =>
        simp only [Option.bind_some, Option.map_some]
        cases thread Factories.stateStatement F T.stateStatements with
        | none => rfl
        | some z =>
          simp only [Option.bind_some, Option.map_some]
          cases z.2.stages.lastDeclaredStage <;> rfl
  · have hunits : ∀ (t : Rows) (units : List Unit),
        units.foldlM (fun (t : Rows) _ => some t) t = some t := by
      intro t units
      induction units with
      | nil => rfl
      | cons _ units ih => exact ih
    unfold Rows.walkStage
    simp only [hunits, Option.bind_some, Option.bind_map]
    rfl

/-! ## Programs -/

/-- **A definition outside of every stage.** -/
theorem splits_walkTopDefinition (d : Definition) :
    Splits of Rows.outside (·.walkDefinition d) (Factories.topDefinition · d)
      Rows.exitConditions := by
  cases d with
  | macroAction identifier body =>
    intro s t ht
    have hinside : ∀ X : XtraCompiler, X.actionBlock = none →
        X.machine.compilerState = .inOutsideBlock1 ∨
          X.machine.compilerState = .inOutsideBlock2 → X.goInsideActionsBlock = none := by
      intro X hblock hX
      unfold goInsideActionsBlock
      rw [hblock]
      rcases hX with hX | hX <;> rw [hX]
    unfold walkDefinition
    exact congrArg (Option.bind · _)
      (hinside { of s t with currentMacroAction := some identifier } rfl ht)
  | register global identifiers =>
    exact splits_walkDefinition _ (Or.inr fun _ _ h => by cases h)
  | customEvent conditions =>
    exact splits_walkDefinition _ (Or.inr fun _ _ h => by cases h)

/-- Custom conditions leave the block. -/
theorem outside_exitConditions {t t' : Rows} {results : List ConditionResult} (ht : t.outside)
    (h : t.exitConditions results = some t') : t'.outside := by
  unfold Rows.outside
  rw [Rows.exitConditions_machine h]
  exact ht

/-- A stage is left behind. -/
theorem outside_walkStage {orders : Orders} {t t' : Rows} {R : ResolvedStage} (ht : t.outside)
    (h : t.walkStage orders R = some t') : t'.machine.compilerState = .inOutsideBlock2 := by
  unfold Rows.walkStage at h
  simp only [Option.bind_eq_some_iff] at h
  obtain ⟨M, hM, t₁, hconditions, ⟨M', initial⟩, hstates, initialState, -, h⟩ := h
  obtain ⟨M'', hout, rfl⟩ := Option.map_eq_some_iff.mp h
  have hstage : M.compilerState = .inStageBlock := by
    rw [CompilerStateMachine.compilerState_goInsideBlock hM]
    rcases ht with ht | ht <;> rw [ht]
  have hconditions' : t₁.machine.compilerState = .inStageBlock :=
    foldlM_invariant (I := fun t => t.machine.compilerState = .inStageBlock)
      (fun t _ t' ht h => (Rows.exitConditions_machine h).trans ht) hstage hconditions
  have hleft : M'.compilerState = .inStageBlock :=
    compilerState_walkStates (t := (t₁.machine, t₁.initialState)) hconditions' hstates
  rw [CompilerStateMachine.compilerState_goOutsideBlock hout]
  simp only [hleft]

/-- **The rows of a resolved program.** -/
def Rows.walkProgram (orders : Orders) (t : Rows)
    (R : List (List ConditionResult) × List ResolvedStage) : Option Rows :=
  (R.1.foldlM Rows.exitConditions t).bind fun t => R.2.foldlM (Rows.walkStage orders) t

/-- **A program** walks as it is resolved. -/
theorem splits_walkProgram (orders : Orders) (P : ProgramContext) :
    Splits of Rows.outside (·.walkProgram orders P) (Factories.program · P)
      (Rows.walkProgram orders) := by
  cases P with
  | stageProgram definitions stages =>
    refine ((Splits.foldlM splits_walkTopDefinition (fun t _ t' ht h => outside_exitConditions ht h)
      definitions).bind (Splits.foldlM (splits_walkStageStatement orders)
        (fun t _ t' ht h => Or.inr (outside_walkStage ht h)) stages)
      fun t _ t' ht h => foldlM_invariant (fun t _ t' ht h => outside_exitConditions ht h) ht h).map
      id (fun s => ?_) fun t R _ => rfl
    exact Option.map_id'.symm
  | stateProgram definitions states =>
    refine (splits_walkStageStatement orders _).map (fun R => ([], [R])) (fun s => rfl)
      fun t R _ => ?_
    unfold Rows.walkProgram
    simp only [List.foldlM_nil, List.foldlM_cons, Option.pure_def, Option.bind_some,
      Option.bind_eq_bind]
    exact Option.bind_fun_some _

/-- The rows at the start. -/
def Rows.initial : Rows := ⟨.initial, none, []⟩

end XtraCompiler

open XtraCompiler

/-- **The compiler resolves names first**, and makes rows of what is left. -/
theorem walkProgram_eq (orders : Orders) (P : ProgramContext) :
    XtraCompiler.initial.walkProgram orders P =
      (Factories.program (.initial, none) P).bind fun (R, s) =>
        (Rows.initial.walkProgram orders R).map (of s) :=
  splits_walkProgram orders P (.initial, none) .initial (Or.inl rfl)

end Xl

end FlowBlaze
