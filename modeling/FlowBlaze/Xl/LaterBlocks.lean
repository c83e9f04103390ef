import FlowBlaze.Xl.ResolvedProgram
import FlowBlaze.Xl.StageRows
/-!
# State blocks after others

The rows of a stage are references into a store that is never cleared. A
state block adds the same rows wherever it stands: those of `blockRows`,
with their transitions taken out, less the empty ones. Transitions to
stages are allowed here.
-/

namespace FlowBlaze

namespace Xl

open Common

variable {κ : Type}

/-! ## Transitions, also to stages -/

/-- The stage a transition goes to. -/
def Action.targetStage : Action → Option Stage
  | .stageTransition stage => some stage
  | _ => none

/-- The stage of the last such transition, or the row's own. -/
def targetStage (stage : Stage) (acts : List Action) : Stage :=
  ((acts.filterMap Action.targetStage).getLast?).getD stage

section Settle

variable {r r' : TableRow κ} {acts kept : List Action}

/-- **What the actions leave of a row.** -/
theorem eq_of_processActions (h : r.processActions kept acts = some r') :
    r' = { r with
      actions := kept ++ keptActions acts
      nextState := targetState r.nextState acts
      nextStage := targetStage r.nextStage acts } := by
  induction acts generalizing r kept with
  | nil =>
    cases h
    simp [keptActions, targetState, targetStage]
  | cons a acts ih =>
    cases a with
    | stateTransition t =>
      obtain ⟨r₁, hr₁, h⟩ := Option.bind_eq_some_iff.mp h
      unfold TableRow.setNextState at hr₁
      split at hr₁
      · cases hr₁
      · cases hr₁
        rw [ih h]
        simp [keptActions, targetState, targetStage, Action.isTransition, Action.target,
          Action.targetStage, List.getLast?_cons]
    | stageTransition stage =>
      rw [ih h]
      simp [keptActions, targetState, targetStage, Action.isTransition, Action.target,
        Action.targetStage, List.getLast?_cons]
    | sequentializable action =>
      rw [ih h]
      simp [keptActions, targetState, targetStage, Action.isTransition, Action.target,
        Action.targetStage]
    | sequentialActions actions =>
      rw [ih h]
      simp [keptActions, targetState, targetStage, Action.isTransition, Action.target,
        Action.targetStage]

/-- **A settled row.** -/
theorem eq_of_settle (h : r.settle = some r') :
    r' = { r with
      actions := keptActions r.actions
      nextState := targetState r.nextState r.actions
      nextStage := targetStage r.nextStage r.actions } := by
  have heq := eq_of_processActions h
  rwa [List.nil_append] at heq

/-- What is settled stays. -/
theorem settle_of_settle (h : r.settle = some r') : r'.settle = some r' := by
  rw [eq_of_settle h]
  refine processActions_of_no_transition fun a ha => ?_
  have hkeep := (List.mem_filter.mp ha).2
  simpa using hkeep

/-- A row that goes to another state goes there for good. -/
theorem nextState_of_ne (h : r.processActions kept acts = some r') (hne : r.nextState ≠ r.state) :
    r'.nextState = r.nextState := by
  induction acts generalizing r kept with
  | nil =>
    cases h
    rfl
  | cons a acts ih =>
    cases a with
    | stateTransition t =>
      obtain ⟨r₁, hr₁, -⟩ := Option.bind_eq_some_iff.mp h
      unfold TableRow.setNextState at hr₁
      rw [if_pos hne] at hr₁
      cases hr₁
    | stageTransition stage =>
      have h' : ({ r with nextStage := stage } : TableRow κ).processActions kept acts = some r' := h
      have hrest := ih h' hne
      exact hrest
    | sequentializable action => exact ih h hne
    | sequentialActions actions => exact ih h hne

/-- **A transition counts**: it goes to the row's own state, or the row
goes where it goes. -/
theorem target_of_processActions (h : r.processActions kept acts = some r') {t : State}
    (ht : Action.stateTransition t ∈ acts) : t = r.state ∨ t = r'.nextState := by
  induction acts generalizing r kept with
  | nil => cases ht
  | cons a acts ih =>
    cases a with
    | stateTransition u =>
      obtain ⟨r₁, hr₁, h⟩ := Option.bind_eq_some_iff.mp h
      unfold TableRow.setNextState at hr₁
      split at hr₁
      · cases hr₁
      · cases hr₁
        rcases List.mem_cons.mp ht with hu | ht
        · cases hu
          by_cases hne : t = r.state
          · exact Or.inl hne
          · exact Or.inr (nextState_of_ne h hne).symm
        · have hrest := ih h ht
          exact hrest
    | stageTransition stage =>
      have h' : ({ r with nextStage := stage } : TableRow κ).processActions kept acts = some r' := h
      have hrest := ih h' ((List.mem_cons.mp ht).resolve_left fun h => by cases h)
      exact hrest
    | sequentializable action =>
      exact ih h ((List.mem_cons.mp ht).resolve_left fun h => by cases h)
    | sequentialActions actions =>
      exact ih h ((List.mem_cons.mp ht).resolve_left fun h => by cases h)

end Settle

/-! ## References that start elsewhere -/

namespace TableRowFactory

variable {F : TableRowFactory κ} {refs : List ℕ} {n : ℕ}

/-- The factory with these references in place of its first. -/
def rebase (refs : List ℕ) (n : ℕ) (F : TableRowFactory κ) : TableRowFactory κ :=
  { F with tableRows := refs ++ F.tableRows.drop n }

/-- The references replaced are there. -/
def Reaches (n : ℕ) (F : TableRowFactory κ) : Prop := n ≤ F.tableRows.length

theorem addTableRow_rebase (h : F.Reaches n) (row : TableRow κ) :
    (F.rebase refs n).addTableRow row = (F.addTableRow row).rebase refs n := by
  unfold addTableRow rebase
  simp only [List.drop_append_of_le_length h, List.append_assoc]

theorem Reaches.addTableRow (h : F.Reaches n) (row : TableRow κ) :
    (F.addTableRow row).Reaches n := by
  unfold Reaches TableRowFactory.addTableRow at *
  rw [List.length_append]
  omega

theorem addState_rebase (state : State) :
    (F.rebase refs n).addState state = (F.addState state).rebase refs n := by
  unfold addState rebase
  split <;> rfl

theorem addEvent_rebase (event : Event) :
    (F.rebase refs n).addEvent event = (F.addEvent event).rebase refs n := by
  unfold addEvent rebase
  split <;> rfl

theorem tableRows_addState (state : State) : (F.addState state).tableRows = F.tableRows := by
  unfold addState
  split <;> rfl

theorem tableRows_addEvent (event : Event) : (F.addEvent event).tableRows = F.tableRows := by
  unfold addEvent
  split <;> rfl

theorem createNewTableRow_rebase (h : F.Reaches n) (event : Event) (state : State) :
    (F.rebase refs n).createNewTableRow event state =
      (F.createNewTableRow event state).rebase refs n := by
  have hdrop : (F.tableRows ++ [F.objects.length]).drop n =
      F.tableRows.drop n ++ [F.objects.length] := List.drop_append_of_le_length h
  unfold createNewTableRow addTableRow addEvent addState rebase
  simp only [List.append_assoc]
  by_cases hevent : F.eventRows.containsKey (.ofEq Event) event
  · by_cases hstate : F.stateRows.containsKey (.ofEq State) state
    · simp only [hdrop, hevent, hstate, if_true]
    · simp only [hdrop, hevent, hstate, if_true, Bool.false_eq_true, if_false]
  · by_cases hstate : F.stateRows.containsKey (.ofEq State) state
    · simp only [hdrop, hevent, hstate, if_true, Bool.false_eq_true, if_false]
    · simp only [hdrop, hevent, hstate, Bool.false_eq_true, if_false]

theorem Reaches.createNewTableRow (h : F.Reaches n) (event : Event) (state : State) :
    (F.createNewTableRow event state).Reaches n := by
  unfold Reaches TableRowFactory.createNewTableRow at *
  simp only [tableRows_addState, tableRows_addEvent]
  exact Reaches.addTableRow h _

theorem Reaches.finalizeEventRow {currentState : Option State} {currentEvent : Option Event}
    {value : StateEventActions} {G : TableRowFactory κ} (h : F.Reaches n)
    (hG : finalizeEventRow currentState currentEvent F value = some G) : G.Reaches n := by
  unfold TableRowFactory.finalizeEventRow at hG
  split at hG
  · obtain ⟨state, -, hG⟩ := Option.bind_eq_some_iff.mp hG
    obtain ⟨event, -, rfl⟩ := Option.map_eq_some_iff.mp hG
    exact h.addTableRow (.new state event .stage255)
  · cases hG
    exact h

/-- One event closes. -/
theorem finalizeEventRow_rebase (currentState : Option State) (currentEvent : Option Event)
    (value : StateEventActions) (h : F.Reaches n) :
    finalizeEventRow currentState currentEvent (F.rebase refs n) value =
      (finalizeEventRow currentState currentEvent F value).map (rebase refs n) := by
  unfold finalizeEventRow
  split
  · cases currentState with
    | none => rfl
    | some state =>
      cases currentEvent with
      | none => rfl
      | some event =>
        simp only [Option.bind_some, Option.map_some, addTableRow_rebase h]
        rfl
  · rfl

/-- The state closes. -/
theorem finalizeStateRow_rebase (currentState : Option State) (value : StateEventActions)
    (h : F.Reaches n) :
    finalizeStateRow currentState (F.rebase refs n) value =
      (finalizeStateRow currentState F value).map (rebase refs n) := by
  unfold finalizeStateRow
  split
  · cases currentState with
    | none => rfl
    | some state =>
      rw [show Event.getEvents = [.xtraPktRcvd, .xtraTimeout] from rfl]
      simp only [List.foldl_cons, List.foldl_nil, Option.map_some, addTableRow_rebase h,
        addTableRow_rebase (h.addTableRow _)]
      rfl
  · rfl

theorem Reaches.finalizeStateRow {currentState : Option State} {value : StateEventActions}
    {G : TableRowFactory κ} (h : F.Reaches n)
    (hG : finalizeStateRow currentState F value = some G) : G.Reaches n := by
  unfold TableRowFactory.finalizeStateRow at hG
  split at hG
  · obtain ⟨state, -, rfl⟩ := Option.map_eq_some_iff.mp hG
    exact (h.addTableRow (.new state .xtraPktRcvd .stage255)).addTableRow
      (.new state .xtraTimeout .stage255)
  · cases hG
    exact h

end TableRowFactory

/-! ## The walk over other references -/

namespace CompilerStateMachine

variable {M M' : CompilerStateMachine κ} {refs : List ℕ} {n : ℕ}

/-- The machine whose factory has these references in place of its first. -/
def rebase (refs : List ℕ) (n : ℕ) (M : CompilerStateMachine κ) : CompilerStateMachine κ :=
  { M with rows := M.rows.rebase refs n }

theorem goInsideBlock_rebase (name : String) (h : M.rows.Reaches n) :
    (M.rebase refs n).goInsideBlock name = (M.goInsideBlock name).map (rebase refs n) := by
  obtain ⟨block, event, state, stage, rows⟩ := M
  cases block with
  | inStageBlock =>
    cases state with
    | none => rfl
    | some state =>
      unfold goInsideBlock rebase
      simp only [Option.map_some, TableRowFactory.addState_rebase]
  | inStateBlock =>
    cases event with
    | none => rfl
    | some event =>
      unfold goInsideBlock rebase
      simp only [Option.map_some, TableRowFactory.addEvent_rebase]
  | inEventBlock =>
    cases state with
    | none => rfl
    | some state =>
      cases event with
      | none => rfl
      | some event =>
        unfold goInsideBlock rebase
        simp only [Option.bind_some, Option.map_some, TableRowFactory.createNewTableRow_rebase h]
  | _ => rfl

theorem reaches_goInsideBlock {name : String} (h : M.rows.Reaches n)
    (hM : M.goInsideBlock name = some M') : M'.rows.Reaches n := by
  obtain ⟨block, event, state, stage, rows⟩ := M
  have hrows : ∀ {G : TableRowFactory κ}, G.tableRows = rows.tableRows → G.Reaches n := by
    intro G hG
    unfold TableRowFactory.Reaches
    rw [hG]
    exact h
  cases block with
  | inStageBlock =>
    obtain ⟨state, -, rfl⟩ := Option.map_eq_some_iff.mp hM
    exact hrows (TableRowFactory.tableRows_addState _)
  | inStateBlock =>
    obtain ⟨event, -, rfl⟩ := Option.map_eq_some_iff.mp hM
    exact hrows (TableRowFactory.tableRows_addEvent _)
  | inEventBlock =>
    obtain ⟨state, -, hM⟩ := Option.bind_eq_some_iff.mp hM
    obtain ⟨event, -, rfl⟩ := Option.map_eq_some_iff.mp hM
    exact TableRowFactory.Reaches.createNewTableRow h _ _
  | inOutsideBlock1 =>
    cases hM
    exact h
  | inOutsideBlock2 =>
    cases hM
    exact h
  | inConditionBlock => cases hM

theorem exitCondition_rebase (result : κ) :
    exitCondition (M.rebase refs n) result = (exitCondition M result).map (rebase refs n) := by
  obtain ⟨block, event, state, stage, objects, tableRows, current, eventRows, stateRows⟩ := M
  cases current <;> rfl

theorem addAction_rebase (action : Action) :
    (M.rebase refs n).addAction action = (M.addAction action).map (rebase refs n) := by
  obtain ⟨block, event, state, stage, objects, tableRows, current, eventRows, stateRows⟩ := M
  cases block with
  | inStateBlock =>
    cases state with
    | none => rfl
    | some state =>
      unfold addAction rebase TableRowFactory.rebase TableRowFactory.addActionToStateBlock
      simp only [Option.bind_some]
      split <;> rfl
  | inEventBlock =>
    cases event with
    | none => rfl
    | some event =>
      unfold addAction rebase TableRowFactory.rebase TableRowFactory.addActionToEventBlock
      simp only [Option.bind_some]
      split <;> rfl
  | inConditionBlock => cases current <;> rfl
  | _ => rfl

/-- A step that leaves the references of the stage. -/
theorem reaches_of_tableRows (h : M.rows.Reaches n)
    (hM : M'.rows.tableRows = M.rows.tableRows) : M'.rows.Reaches n := by
  unfold TableRowFactory.Reaches
  rw [hM]
  exact h

theorem tableRows_exitCondition {result : κ} (h : exitCondition M result = some M') :
    M'.rows.tableRows = M.rows.tableRows := by
  obtain ⟨rows, hrows, rfl⟩ := Option.map_eq_some_iff.mp h
  obtain ⟨ref, -, rfl⟩ := Option.map_eq_some_iff.mp hrows
  rfl

theorem tableRows_addAction {action : Action} (h : M.addAction action = some M') :
    M'.rows.tableRows = M.rows.tableRows := by
  unfold addAction at h
  split at h
  · obtain ⟨state, -, h⟩ := Option.bind_eq_some_iff.mp h
    obtain ⟨rows, hrows, rfl⟩ := Option.map_eq_some_iff.mp h
    unfold TableRowFactory.addActionToStateBlock at hrows
    split at hrows
    · cases hrows
      rfl
    · cases hrows
  · obtain ⟨event, -, h⟩ := Option.bind_eq_some_iff.mp h
    obtain ⟨rows, hrows, rfl⟩ := Option.map_eq_some_iff.mp h
    unfold TableRowFactory.addActionToEventBlock at hrows
    split at hrows
    · cases hrows
      rfl
    · cases hrows
  · obtain ⟨rows, hrows, rfl⟩ := Option.map_eq_some_iff.mp h
    obtain ⟨ref, -, rfl⟩ := Option.map_eq_some_iff.mp hrows
    rfl
  · cases h
    rfl

theorem goOutsideBlock_rebase (orders : Orders) (h : M.compilerState ≠ .inStateBlock) :
    (M.rebase refs n).goOutsideBlock orders = (M.goOutsideBlock orders).map (rebase refs n) := by
  obtain ⟨block, event, state, stage, rows⟩ := M
  cases block with
  | inStateBlock => exact absurd rfl h
  | _ => rfl

theorem tableRows_goOutsideBlock {orders : Orders} (h : M.compilerState ≠ .inStateBlock)
    (hM : M.goOutsideBlock orders = some M') : M'.rows.tableRows = M.rows.tableRows := by
  obtain ⟨block, event, state, stage, rows⟩ := M
  cases block with
  | inStateBlock => exact absurd rfl h
  | inOutsideBlock1 => cases hM
  | inOutsideBlock2 => cases hM
  | _ =>
    cases hM
    rfl

theorem exitConditions_rebase (results : List κ) :
    results.foldlM exitCondition (M.rebase refs n) =
      (results.foldlM exitCondition M).map (rebase refs n) :=
  foldlM_map_emb (I := fun _ => True) (fun _ result _ => exitCondition_rebase result)
    (fun _ _ _ _ _ => trivial) results trivial

theorem addActions_rebase (actions : List Action) :
    actions.foldlM addAction (M.rebase refs n) =
      (actions.foldlM addAction M).map (rebase refs n) :=
  foldlM_map_emb (I := fun _ => True) (fun _ action _ => addAction_rebase action)
    (fun _ _ _ _ _ => trivial) actions trivial

theorem reaches_exitConditions {results : List κ} (h : M.rows.Reaches n)
    (hM : results.foldlM exitCondition M = some M') : M'.rows.Reaches n :=
  foldlM_invariant (I := fun M => M.rows.Reaches n)
    (fun _ _ _ h hM => reaches_of_tableRows h (tableRows_exitCondition hM)) h hM

theorem reaches_addActions {actions : List Action} (h : M.rows.Reaches n)
    (hM : actions.foldlM addAction M = some M') : M'.rows.Reaches n :=
  foldlM_invariant (I := fun M => M.rows.Reaches n)
    (fun _ _ _ h hM => reaches_of_tableRows h (tableRows_addAction hM)) h hM

end CompilerStateMachine

section Walk

variable {M M' : CompilerStateMachine ConditionResult} {refs : List ℕ} {n : ℕ}
  {stageName : String} {orders : Orders}

open CompilerStateMachine

/-- A condition statement, over other references. -/
theorem walkCondition_rebase (c : ConditionStatement ConditionResult) (h : M.rows.Reaches n)
    (hM : M.compilerState = .inEventBlock) :
    walkCondition stageName orders (M.rebase refs n) c =
      (walkCondition stageName orders M c).map (rebase refs n) := by
  unfold walkCondition
  rw [goInsideBlock_rebase stageName h]
  cases hN : M.goInsideBlock stageName with
  | none => rfl
  | some N =>
    simp only [Option.map_some, Option.bind_eq_bind, Option.bind_some, exitConditions_rebase]
    cases hN' : c.conditions.foldlM exitCondition N with
    | none => rfl
    | some N' =>
      simp only [Option.map_some, Option.bind_some, addActions_rebase]
      cases hN'' : c.actions.foldlM addAction N' with
      | none => rfl
      | some N'' =>
        refine goOutsideBlock_rebase orders ?_
        rw [compilerState_addActions hN'', XtraCompiler.compilerState_exitConditions hN',
          compilerState_goInsideBlock hN, hM]
        decide

theorem reaches_walkCondition {c : ConditionStatement ConditionResult} (h : M.rows.Reaches n)
    (hM : M.compilerState = .inEventBlock)
    (hwalk : walkCondition stageName orders M c = some M') : M'.rows.Reaches n := by
  unfold walkCondition at hwalk
  simp only [Option.bind_eq_bind, Option.bind_eq_some_iff] at hwalk
  obtain ⟨N, hN, N', hN', N'', hN'', hwalk⟩ := hwalk
  refine reaches_of_tableRows (reaches_addActions (reaches_exitConditions
    (reaches_goInsideBlock h hN) hN') hN'') (tableRows_goOutsideBlock ?_ hwalk)
  rw [compilerState_addActions hN'', XtraCompiler.compilerState_exitConditions hN',
    compilerState_goInsideBlock hN, hM]
  decide

/-- Inside an event block. -/
theorem walkConditions_rebase (cs : List (ConditionStatement ConditionResult))
    (h : M.rows.Reaches n) (hM : M.compilerState = .inEventBlock) :
    cs.foldlM (walkCondition stageName orders) (M.rebase refs n) =
      (cs.foldlM (walkCondition stageName orders) M).map (rebase refs n) :=
  foldlM_map_emb
    (I := fun M : CompilerStateMachine ConditionResult =>
      M.rows.Reaches n ∧ M.compilerState = .inEventBlock)
    (fun _ c hM => walkCondition_rebase c hM.1 hM.2)
    (fun _ _ _ hM hwalk => ⟨reaches_walkCondition hM.1 hM.2 hwalk,
      XtraCompiler.compilerState_walkCondition _ _ hM.2 hwalk⟩) cs ⟨h, hM⟩

theorem reaches_walkConditions {cs : List (ConditionStatement ConditionResult)}
    (h : M.rows.Reaches n) (hM : M.compilerState = .inEventBlock)
    (hwalk : cs.foldlM (walkCondition stageName orders) M = some M') :
    M'.rows.Reaches n ∧ M'.compilerState = .inEventBlock :=
  foldlM_invariant
    (I := fun M : CompilerStateMachine ConditionResult =>
      M.rows.Reaches n ∧ M.compilerState = .inEventBlock)
    (fun _ _ _ hM hwalk => ⟨reaches_walkCondition hM.1 hM.2 hwalk,
      XtraCompiler.compilerState_walkCondition _ _ hM.2 hwalk⟩) ⟨h, hM⟩ hwalk

/-- Where an event statement's conditions start. -/
theorem compilerState_inEvent {b : EventStatement ConditionResult}
    {N N' : CompilerStateMachine ConditionResult} (hM : M.compilerState = .inStateBlock)
    (hN : { M with currentEvent := some b.event }.goInsideBlock stageName = some N)
    (hN' : b.actions.foldlM addAction N = some N') : N'.compilerState = .inEventBlock := by
  rw [compilerState_addActions hN', compilerState_goInsideBlock hN]
  simp only [hM]

/-- An event statement, over other references. -/
theorem walkEvent_rebase (b : EventStatement ConditionResult) (h : M.rows.Reaches n)
    (hM : M.compilerState = .inStateBlock) :
    walkEvent stageName orders (M.rebase refs n) b =
      (walkEvent stageName orders M b).map (rebase refs n) := by
  have hinside := @goInsideBlock_rebase _ { M with currentEvent := some b.event }
    refs _ stageName h
  unfold walkEvent
  refine (congrArg (Option.bind · _) hinside).trans ?_
  cases hN : { M with currentEvent := some b.event }.goInsideBlock stageName with
  | none => rfl
  | some N =>
    have hN' : N.rows.Reaches n :=
      reaches_goInsideBlock (M := { M with currentEvent := some b.event }) h hN
    simp only [Option.map_some, Option.bind_eq_bind, Option.bind_some, addActions_rebase]
    cases hadd : b.actions.foldlM addAction N with
    | none => rfl
    | some N' =>
      have hblock := compilerState_inEvent hM hN hadd
      simp only [Option.map_some, Option.bind_some,
        walkConditions_rebase b.conditionStatements (reaches_addActions hN' hadd) hblock]
      cases hwalk : b.conditionStatements.foldlM (walkCondition stageName orders) N' with
      | none => rfl
      | some N'' =>
        refine goOutsideBlock_rebase orders ?_
        rw [(reaches_walkConditions (reaches_addActions hN' hadd) hblock hwalk).2]
        decide

theorem reaches_walkEvent {b : EventStatement ConditionResult} (h : M.rows.Reaches n)
    (hM : M.compilerState = .inStateBlock)
    (hwalk : walkEvent stageName orders M b = some M') : M'.rows.Reaches n := by
  unfold walkEvent at hwalk
  simp only [Option.bind_eq_bind, Option.bind_eq_some_iff] at hwalk
  obtain ⟨N, hN, N', hadd, N'', hwalk', hwalk⟩ := hwalk
  have hreaches : N'.rows.Reaches n := reaches_addActions
    (reaches_goInsideBlock (M := { M with currentEvent := some b.event }) h hN) hadd
  obtain ⟨hreaches', hblock⟩ :=
    reaches_walkConditions hreaches (compilerState_inEvent hM hN hadd) hwalk'
  refine reaches_of_tableRows hreaches' (tableRows_goOutsideBlock ?_ hwalk)
  rw [hblock]
  decide

/-- **A state block up to its close, over other references.** -/
theorem walkBlock_rebase (S : StateStatement ConditionResult) (h : M.rows.Reaches n)
    (hM : M.compilerState = .inStageBlock) :
    walkBlock stageName orders (M.rebase refs n) S =
      (walkBlock stageName orders M S).map (rebase refs n) := by
  have hinside := @goInsideBlock_rebase _ { M with currentState := some S.state }
    refs _ stageName h
  unfold walkBlock
  refine (congrArg (Option.bind · _) hinside).trans ?_
  cases hN : { M with currentState := some S.state }.goInsideBlock stageName with
  | none => rfl
  | some N =>
    have hN' : N.rows.Reaches n :=
      reaches_goInsideBlock (M := { M with currentState := some S.state }) h hN
    simp only [Option.map_some, Option.bind_eq_bind, Option.bind_some, addActions_rebase]
    cases hadd : S.actions.foldlM addAction N with
    | none => rfl
    | some N' =>
      have hblock : N'.compilerState = .inStateBlock := by
        rw [compilerState_addActions hadd, compilerState_goInsideBlock hN]
        simp only [hM]
      simp only [Option.map_some, Option.bind_some]
      exact foldlM_map_emb
        (I := fun M : CompilerStateMachine ConditionResult =>
          M.rows.Reaches n ∧ M.compilerState = .inStateBlock)
        (fun _ b hM => walkEvent_rebase b hM.1 hM.2)
        (fun _ _ _ hM hwalk => ⟨reaches_walkEvent hM.1 hM.2 hwalk,
          XtraCompiler.compilerState_walkEvent _ _ hM.2 hwalk⟩) S.eventStatements
        ⟨reaches_addActions hN' hadd, hblock⟩

end Walk

/-! ## Closing a block over earlier ones -/

section Close

variable {old rows : List (TableRow ConditionResult)} {refs : List ℕ} {stage : Option Stage}
  {current : Option ℕ} {S : StateStatement ConditionResult} {orders : Orders}
  {before : Option Event}

/-- The factory between two state blocks, after others of the stage. -/
def idle (old : List (TableRow ConditionResult)) (refs : List ℕ) (current : Option ℕ) :
    TableRowFactory ConditionResult :=
  ⟨old, refs, current, [], []⟩

/-- **The rows of the stage so far**: they are settled, and not empty. -/
def Kept (old : List (TableRow ConditionResult)) (refs : List ℕ) (stage : Option Stage) : Prop :=
  ∀ ref ∈ refs, ∃ row, old[ref]? = some row ∧ row.settle = some row ∧ row.isEmpty stage = false

theorem drop_range_length (old rows : List (TableRow ConditionResult)) :
    (List.range (old ++ rows).length).drop old.length = List.range' old.length rows.length := by
  rw [List.length_append, List.range_eq_range', List.drop_range']
  congr 1 <;> omega

theorem rebase_settled : (settled old current).rebase refs old.length = idle old refs current := by
  unfold TableRowFactory.rebase settled idle
  have hdrop := drop_range_length old []
  rw [List.append_nil, List.length_nil, List.range'_zero] at hdrop
  simp only [hdrop, List.append_nil]

/-- Settled rows are settled again. -/
theorem foldlM_settle_refs (F : TableRowFactory ConditionResult) {todo : List ℕ}
    (htodo : ∀ ref ∈ todo, ∃ row, F.objects[ref]? = some row ∧ row.settle = some row) :
    todo.foldlM (fun (F : TableRowFactory ConditionResult) ref =>
        (F.objects[ref]?).bind fun row =>
          (row.processActions [] row.actions).map fun row =>
            { F with objects := F.objects.set ref row }) F = some F := by
  induction todo with
  | nil => rfl
  | cons ref todo ih =>
    obtain ⟨row, hrow, hsettle⟩ := htodo ref List.mem_cons_self
    have hprocess : row.processActions [] row.actions = some row := hsettle
    have hset : F.objects.set ref row = F.objects := by
      obtain ⟨hlt, rfl⟩ := List.getElem?_eq_some_iff.mp hrow
      exact List.set_getElem_self hlt
    rw [List.foldlM_cons]
    simp only [hrow, Option.bind_some, hprocess, Option.map_some, hset, Option.bind_eq_bind]
    exact ih fun r hr => htodo r (List.mem_cons_of_mem _ hr)

/-- Which of the new rows stay. -/
theorem filter_range'_eq_refsWhere (p : TableRow ConditionResult → Bool)
    (old rows : List (TableRow ConditionResult)) :
    (List.range' old.length rows.length).filter (fun ref => ((old ++ rows)[ref]?).all p) =
      refsWhere p old.length rows := by
  induction rows generalizing old with
  | nil => rfl
  | cons r rows ih =>
    have hrest := ih (old ++ [r])
    rw [List.length_append, List.length_singleton, List.append_assoc,
      List.singleton_append] at hrest
    have hget : (old ++ r :: rows)[old.length]? = some r := by simp
    rw [List.length_cons, List.range'_succ, List.filter_cons, refsWhere, hget, Option.all_some]
    cases p r with
    | true => rw [if_pos rfl, if_pos rfl, hrest]
    | false => rw [if_neg Bool.false_ne_true, if_neg Bool.false_ne_true, hrest]

theorem getElem?_of_append {l m : List (TableRow ConditionResult)} {i : ℕ}
    {r : TableRow ConditionResult} (h : l[i]? = some r) : (l ++ m)[i]? = some r := by
  rw [List.getElem?_append_left (List.getElem?_eq_some_iff.mp h).1, h]

/-- The new rows are settled, one by one. -/
theorem processSetNext_idle (hrefs : Kept old refs stage) :
    (idle (old ++ rows) (refs ++ List.range' old.length rows.length) current).processSetNext =
      (rows.mapM TableRow.settle).map fun ys =>
        idle (old ++ ys) (refs ++ List.range' old.length rows.length) current := by
  have hdone := foldlM_settle_refs
    (idle (old ++ rows) (refs ++ List.range' old.length rows.length) current)
    (fun ref (href : ref ∈ refs) => by
      obtain ⟨row, hrow, hsettle, -⟩ := hrefs ref href
      exact ⟨row, getElem?_of_append hrow, hsettle⟩)
  unfold TableRowFactory.processSetNext
  rw [show (idle (old ++ rows) (refs ++ List.range' old.length rows.length) current).tableRows =
    refs ++ List.range' old.length rows.length from rfl, List.foldlM_append, hdone]
  exact foldlM_settle (F := idle [] [] current)
    (refs ++ List.range' old.length rows.length) old rows

/-- **A state block closes, after others**: its rows are settled, and
those that are not empty join those of the stage. -/
theorem finalizeTableRows_rebase (hrefs : Kept old refs stage) :
    ((walked old S.state S.actions S.eventStatements current).rebase refs
        old.length).finalizeTableRows orders.event orders.state (some S.state)
        (lastEvent before S.eventStatements) stage =
      ((blockRows orders.event S).mapM TableRow.settle).map fun rows =>
        idle (old ++ rows)
          (refs ++ refsWhere (fun r => !r.isEmpty stage) old.length rows) current := by
  have hwalked : (walked old S.state S.actions S.eventStatements current).Reaches old.length := by
    unfold TableRowFactory.Reaches walked
    simp only [List.length_range, List.length_append]
    omega
  -- the events are walked first, and then the state; neither step sees the rows
  -- of the blocks before
  have hevents := @foldlM_map_emb _ _ _ _ _ _ (TableRowFactory.rebase refs old.length)
    (fun F : TableRowFactory ConditionResult => F.Reaches old.length)
    (fun F value hF => TableRowFactory.finalizeEventRow_rebase
      (some S.state) (lastEvent before S.eventStatements) value hF)
    (fun _ _ _ hF hG => TableRowFactory.Reaches.finalizeEventRow hF hG)
    (TableRowFactory.values orders.event
      (walked old S.state S.actions S.eventStatements current).eventRows) hwalked
  rw [finalizeEventRows_walked, Option.map_some] at hevents
  have hstored : (stored old
      ((rawRows S.state S.eventStatements).map fun r =>
        r.prefixed (eventActions S.eventStatements r.event))
      (eventDefaults orders.event S)
      (walked old S.state S.actions S.eventStatements current)).Reaches old.length := by
    unfold TableRowFactory.Reaches stored
    simp only [List.length_range, List.length_append]
    omega
  have hstates := @foldlM_map_emb _ _ _ _ _ _ (TableRowFactory.rebase refs old.length)
    (fun F : TableRowFactory ConditionResult => F.Reaches old.length)
    (fun F value hF => TableRowFactory.finalizeStateRow_rebase (some S.state) value hF)
    (fun _ _ _ hF hG => TableRowFactory.Reaches.finalizeStateRow hF hG)
    (TableRowFactory.values orders.state
      (walked old S.state S.actions S.eventStatements current).stateRows) hstored
  rw [finalizeStateRows_walked, Option.map_some] at hstates
  unfold TableRowFactory.finalizeTableRows
  refine (congrArg (Option.bind · _) hevents).trans ?_
  rw [Option.bind_some]
  refine (congrArg (Option.bind · _) hstates).trans ?_
  rw [Option.bind_some]
  have hfactory : ({ ({ walked old S.state S.actions S.eventStatements current with
      objects := old ++ blockRows orders.event S
      tableRows := List.range (old ++ blockRows orders.event S).length
      }.rebase refs old.length) with eventRows := [], stateRows := [] } :
      TableRowFactory ConditionResult) = idle (old ++ blockRows orders.event S)
      (refs ++ List.range' old.length (blockRows orders.event S).length) current := by
    unfold TableRowFactory.rebase idle
    simp only [drop_range_length]
    rfl
  refine (congrArg (fun F : TableRowFactory ConditionResult => F.processSetNext.bind fun F =>
    some (F.deleteEmptyTableRows stage)) hfactory).trans ?_
  rw [processSetNext_idle hrefs, Option.bind_map]
  rw [Option.map_eq_bind]
  refine Option.bind_congr fun rows hrows => ?_
  have hlength := (mapM_eq_some_iff.mp hrows).length_eq
  refine congrArg some ?_
  unfold TableRowFactory.deleteEmptyTableRows idle
  simp only [List.filter_append, hlength, filter_range'_eq_refsWhere]
  rw [TableRowFactory.mk.injEq]
  refine ⟨rfl, ?_, rfl, rfl, rfl⟩
  -- the rows kept of the blocks before are not empty, so they stay
  rw [List.filter_eq_self.mpr fun ref href => ?_]
  obtain ⟨row, hrow, -, hempty⟩ := hrefs ref href
  rw [getElem?_of_append hrow, Option.all_some, hempty]
  rfl

/-- The machine between two state blocks. -/
def between (before : Option Event) (last : Option State) (stage : Option Stage)
    (old : List (TableRow ConditionResult)) (refs : List ℕ) (current : Option ℕ) :
    CompilerStateMachine ConditionResult :=
  ⟨.inStageBlock, before, last, stage, idle old refs current⟩

/-- **Walking a state block** adds its settled rows to the store, and those
that are not empty to the stage. -/
theorem walkState_between (name : String) (last : Option State)
    (S : StateStatement ConditionResult) (hrefs : Kept old refs stage) (orders : Orders) :
    walkState name orders (between before last stage old refs current) S =
      ((blockRows orders.event S).mapM TableRow.settle).map fun rows =>
        between (lastEvent before S.eventStatements) (some S.state) stage (old ++ rows)
          (refs ++ refsWhere (fun r => !r.isEmpty stage) old.length rows)
          (lastRef old S.state S.eventStatements current) := by
  have hbetween : between before last stage old refs current = CompilerStateMachine.rebase refs
      old.length ⟨.inStageBlock, before, last, stage, settled old current⟩ := by
    unfold between CompilerStateMachine.rebase
    rw [rebase_settled]
  have hreaches : (settled old current).Reaches old.length := by
    unfold TableRowFactory.Reaches settled
    rw [List.length_range]
  rw [walkState_eq, hbetween, walkBlock_rebase S hreaches rfl, walkBlock_walked]
  unfold CompilerStateMachine.goOutsideBlock CompilerStateMachine.rebase
  simp only [Option.map_some, Option.bind_some, finalizeTableRows_rebase hrefs, Option.map_map]
  rfl

/-- Whether a row is made last. -/
theorem isSome_lastRef {s : State} {bs : List (EventStatement ConditionResult)} :
    (lastRef old s bs current).isSome = (current.isSome || bs.any (·.makesRow)) := by
  have hmakes : ((rawRows s bs).length = 0) ↔ bs.any (·.makesRow) = false := by
    unfold rawRows EventStatement.makesRow
    rw [List.length_eq_zero_iff, List.flatMap_eq_nil_iff, List.any_eq_false]
    simp only [List.map_eq_nil_iff, Bool.not_eq_true', Bool.not_eq_false, List.isEmpty_iff]
  unfold lastRef
  split
  · next hzero => rw [hmakes.mp hzero, Bool.or_false]
  · next n hn =>
    have hany : bs.any (·.makesRow) = true := by
      rw [← Bool.not_eq_false, ← hmakes, hn]
      exact Nat.succ_ne_zero n
    rw [hany, Bool.or_true, Option.isSome_some]

/-- The same, without saying which row is the last one. -/
theorem walkState_idle (name : String) (last : Option State)
    (S : StateStatement ConditionResult) (hrefs : Kept old refs stage) :
    ∃ current', current'.isSome = (current.isSome || S.eventStatements.any (·.makesRow)) ∧
      ∀ orders : Orders, walkState name orders (between before last stage old refs current) S =
        ((blockRows orders.event S).mapM TableRow.settle).map fun rows =>
          between (lastEvent before S.eventStatements) (some S.state) stage (old ++ rows)
            (refs ++ refsWhere (fun r => !r.isEmpty stage) old.length rows) current' :=
  ⟨_, isSome_lastRef, walkState_between name last S hrefs⟩

end Close

end Xl

end FlowBlaze
