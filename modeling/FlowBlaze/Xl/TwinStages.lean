import FlowBlaze.Xl.ClosedStages
/-!
# One stage in two programs

A stage that stands in two programs is resolved twice, with factories that
know other states and other stages. What it resolves to is compared here:
registers and conditions come out the same, since their factories are made
anew for each stage, and states come out under the labels that the two
programs give to one name.
-/

namespace FlowBlaze

namespace Xl

open Common

/-! ## Twins -/

variable {N : State → State → Prop}

/-- **An action in two programs.** Labels of one state are related. -/
inductive ActionTwin (N : State → State → Prop) : Action → Action → Prop
  | sequentializable (action : SequentializableAction) :
    ActionTwin N (.sequentializable action) (.sequentializable action)
  | sequentialActions (actions : List SequentializableAction) :
    ActionTwin N (.sequentialActions actions) (.sequentialActions actions)
  | stateTransition {s s' : State} (h : N s s') :
    ActionTwin N (.stateTransition s) (.stateTransition s')
  | stageTransition (stage : Stage) :
    ActionTwin N (.stageTransition stage) (.stageTransition stage)

/-- Actions in two programs. -/
abbrev ActionsTwin (N : State → State → Prop) : List Action → List Action → Prop :=
  List.Forall₂ (ActionTwin N)

/-- A condition statement in two programs. -/
structure ConditionTwin (N : State → State → Prop)
    (c c' : ConditionStatement ConditionResult) : Prop where
  conditions : c.conditions = c'.conditions
  actions : ActionsTwin N c.actions c'.actions

/-- An event statement. -/
structure EventTwin (N : State → State → Prop) (b b' : EventStatement ConditionResult) : Prop where
  event : b.event = b'.event
  actions : ActionsTwin N b.actions b'.actions
  conditionStatements :
    List.Forall₂ (ConditionTwin N) b.conditionStatements b'.conditionStatements

/-- A state statement. -/
structure StateTwin (N : State → State → Prop) (S S' : StateStatement ConditionResult) : Prop where
  state : N S.state S'.state
  actions : ActionsTwin N S.actions S'.actions
  eventStatements : List.Forall₂ (EventTwin N) S.eventStatements S'.eventStatements

/-- **A stage in two programs.** -/
structure StageTwin (N : State → State → Prop) (R R' : ResolvedStage) : Prop where
  identifier : R.identifier = R'.identifier
  customConditions : R.customConditions = R'.customConditions
  states : List.Forall₂ (fun S S' => S.1 = S'.1 ∧ StateTwin N S.2 S'.2) R.states R'.states
  table : R.table = R'.table
  conditions : R.conditions = R'.conditions

namespace Factories

variable {F F' G G' : Factories} {names : List String}

/-- **The factories of two programs** in one stage: they differ in the
states and the stages that they know. -/
structure Twin (N : State → State → Prop) (F F' : Factories) : Prop where
  macroActions : List.Forall₂ (fun e e' => e.1 = e'.1 ∧ ActionsTwin N e.2 e'.2)
    F.macroActions F'.macroActions
  localRegisters : F.localRegisters = F'.localRegisters
  globalRegisters : F.globalRegisters = F'.globalRegisters
  conditions : F.conditions = F'.conditions

/-- The labels of these names, as far as they are known, are related. -/
def Agrees (N : State → State → Prop) (names : List String) (F F' : Factories) : Prop :=
  ∀ name ∈ names, ∀ s s', F.states.states.get (.ofEq String) name = some s →
    F'.states.states.get (.ofEq String) name = some s' → N s s'

/-- Later factories vouch for earlier ones. -/
theorem Agrees.before (h : Agrees N names G G') (hF : Extends F G) (hF' : Extends F' G') :
    Agrees N names F F' :=
  fun name hname s s' hs hs' => h name hname s s' (hF.state hs) (hF'.state hs')

theorem Agrees.subset {names' : List String} (h : Agrees N names F F')
    (hsub : ∀ name ∈ names', name ∈ names) : Agrees N names' F F' :=
  fun name hname => h name (hsub name hname)

theorem Twin.getOperand (h : Twin N F F') (t : Term) : F.getOperand t = F'.getOperand t := by
  cases t with
  | identifier name =>
    unfold Factories.getOperand
    rw [h.localRegisters, h.globalRegisters]
  | field text operand => rfl
  | constant text constant => rfl

theorem Twin.exitExpr (h : Twin N F F') (expr : Expr) : F.exitExpr expr = F'.exitExpr expr := by
  cases expr <;> simp only [Factories.exitExpr, h.getOperand]

theorem Twin.exitAssignment (h : Twin N F F') (identifier : String) (expr : Expr) :
    F.exitAssignment identifier expr = F'.exitAssignment identifier expr := by
  unfold Factories.exitAssignment Factories.getRegister
  rw [h.exitExpr expr, h.localRegisters, h.globalRegisters]

/-- A macro action in two programs. -/
theorem rel_getMacroAction {m m' : MacroActionsFactory}
    (h : List.Forall₂ (fun e e' => e.1 = e'.1 ∧ ActionsTwin N e.2 e'.2) m m')
    (name : Option String) :
    Option.Rel (ActionsTwin N) (m.getMacroAction name) (m'.getMacroAction name) := by
  unfold MacroActionsFactory.getMacroAction LinkedHashMap.get
  induction h with
  | nil => exact .none
  | @cons e e' m m' he hm ih =>
    rw [List.find?_cons, List.find?_cons, ← he.1]
    cases (KeyEq.ofEq (Option String)).eqv name e.1 with
    | true => exact .some he.2
    | false => exact ih

/-- What an action adds in two programs. -/
inductive AddedTwin (N : State → State → Prop) : Added → Added → Prop
  | nothing : AddedTwin N .nothing .nothing
  | action {x x' : Action} (h : ActionTwin N x x') : AddedTwin N (.action x) (.action x')
  | actions {xs xs' : List Action} (h : ActionsTwin N xs xs') :
    AddedTwin N (.actions xs) (.actions xs')

theorem AddedTwin.toList {added added' : Added} (h : AddedTwin N added added') :
    ActionsTwin N added.toList added'.toList := by
  cases h with
  | nothing => exact .nil
  | action hx => exact .cons hx .nil
  | actions hxs => exact hxs

/-- The states may be others. -/
theorem Twin.withStates (h : Twin N F F') (states states' : StateFactory) :
    Twin N { F with states := states } { F' with states := states' } :=
  ⟨h.macroActions, h.localRegisters, h.globalRegisters, h.conditions⟩

/-- So may the stages. -/
theorem Twin.withStages (h : Twin N F F') (stages stages' : StageFactory ConditionResult) :
    Twin N { F with stages := stages } { F' with stages := stages' } :=
  ⟨h.macroActions, h.localRegisters, h.globalRegisters, h.conditions⟩

/-- A macro action that one has, the other has. -/
theorem Twin.getMacroAction_eq_some {name : Option String} {actions : List Action}
    (h : Twin N F F') (hget : F.macroActions.getMacroAction name = some actions) :
    ∃ actions', F'.macroActions.getMacroAction name = some actions' ∧
      ActionsTwin N actions actions' := by
  have hrel := rel_getMacroAction h.macroActions name
  rw [hget] at hrel
  cases hget' : F'.macroActions.getMacroAction name with
  | none =>
    rw [hget'] at hrel
    cases hrel
  | some actions' =>
    rw [hget'] at hrel
    cases hrel with
    | some hrel => exact ⟨actions', rfl, hrel⟩

theorem Twin.getMacroAction_eq_none {name : Option String} (h : Twin N F F')
    (hget : F.macroActions.getMacroAction name = none) :
    F'.macroActions.getMacroAction name = none := by
  have hrel := rel_getMacroAction h.macroActions name
  rw [hget] at hrel
  cases hget' : F'.macroActions.getMacroAction name with
  | none => rfl
  | some actions' =>
    rw [hget'] at hrel
    cases hrel

/-- **An action, resolved twice.** -/
theorem twin_exitAction (h : Twin N F F') {a : ActionContext} {added added' : Added}
    (hx : F.exitAction a = some (added, G)) (hx' : F'.exitAction a = some (added', G'))
    (hN : Agrees N a.nextStates G G') : AddedTwin N added added' ∧ Twin N G G' := by
  cases a with
  | assignment identifier expr =>
    rw [exitAction_assignment] at hx hx'
    rw [← h.exitAssignment] at hx'
    obtain ⟨x, hassign, heq⟩ := Option.map_eq_some_iff.mp hx
    rw [hassign] at hx'
    cases heq
    cases hx'
    obtain ⟨_, -, hassign⟩ := Option.bind_eq_some_iff.mp hassign
    obtain ⟨_, -, rfl⟩ := Option.map_eq_some_iff.mp hassign
    exact ⟨.action (.sequentializable _), h⟩
  | call id terms =>
    rcases exitCall_cases hx with ⟨term, rfl, rfl, rfl, rfl⟩ |
      ⟨name, fields, rfl, hname, rfl, rfl⟩ | ⟨rfl, rfl, rfl⟩ | ⟨term, rfl, rfl, rfl, rfl⟩ |
      ⟨actions, hreserved, hactions, rfl, rfl⟩ |
      ⟨args, action, hnone, hargs, haction, rfl, rfl⟩
    · rw [exitAction_call, exitCall_setNextState] at hx'
      cases hx'
      refine ⟨.action (.stateTransition ?_), h.withStates _ _⟩
      exact hN term.getText List.mem_cons_self _ _ StateFactory.get_referenceState_self
        StateFactory.get_referenceState_self
    · rw [exitAction_call, exitCall_setFlowKey] at hx'
      obtain ⟨fields', -, hx'⟩ := Option.bind_eq_some_iff.mp hx'
      obtain ⟨stages, hstages, hx'⟩ := Option.map_eq_some_iff.mp hx'
      cases hx'
      obtain ⟨name', -, rfl⟩ := Option.map_eq_some_iff.mp hstages
      exact ⟨.nothing, h.withStages _ _⟩
    · rw [exitAction_call, exitCall_setUpdateKey] at hx'
      obtain ⟨fields', -, hx'⟩ := Option.bind_eq_some_iff.mp hx'
      obtain ⟨_, -, hx'⟩ := Option.map_eq_some_iff.mp hx'
      cases hx'
      exact ⟨.nothing, h⟩
    · rw [exitAction_call, exitCall_setNextStage] at hx'
      cases hx'
      exact ⟨.action (.stageTransition _), h.withStages _ _⟩
    · obtain ⟨actions', hactions', hrel⟩ := h.getMacroAction_eq_some hactions
      rw [exitAction_call, exitCall_of_reserved hreserved, hactions'] at hx'
      cases hx'
      exact ⟨.actions hrel, h⟩
    · rw [exitAction_call, exitCall_of_reserved (reserved_of_isSome haction),
        h.getMacroAction_eq_none hnone] at hx'
      obtain ⟨args', hargs', hx'⟩ := Option.bind_eq_some_iff.mp hx'
      obtain ⟨action', haction', hx'⟩ := Option.map_eq_some_iff.mp hx'
      -- the registers have the same numbers
      have hsame : terms.mapM _ = terms.mapM F'.getOperand :=
        congrArg (terms.mapM ·) (funext h.getOperand)
      rw [← hsame, hargs] at hargs'
      cases hargs'
      rw [haction] at haction'
      cases haction'
      cases hx'
      exact ⟨.action (.sequentializable _), h⟩

/-! ## Loops -/

/-- **A loop, resolved twice.** `factories` are those of a state. -/
theorem twin_thread {σ α β : Type} (factories : σ → Factories) {f : σ → α → Option (β × σ)}
    {Q : β → β → Prop} {mentions : α → List String} {as : List α} {bs bs' : List β}
    {s s' t t' : σ} (h : Twin N (factories s) (factories s')) (hs : thread f s as = some (bs, t))
    (hs' : thread f s' as = some (bs', t'))
    (hN : Agrees N (as.flatMap mentions) (factories t) (factories t'))
    (hext : ∀ s a b t, f s a = some (b, t) → Extends (factories s) (factories t))
    (hstep : ∀ a s s' b b' t t', Twin N (factories s) (factories s') → f s a = some (b, t) →
      f s' a = some (b', t') → Agrees N (mentions a) (factories t) (factories t') →
        Q b b' ∧ Twin N (factories t) (factories t')) :
    List.Forall₂ Q bs bs' ∧ Twin N (factories t) (factories t') := by
  induction as generalizing s s' bs bs' with
  | nil =>
    cases hs
    cases hs'
    exact ⟨.nil, h⟩
  | cons a as ih =>
    obtain ⟨b, u, bs, hb, hrest, rfl⟩ := thread_cons.mp hs
    obtain ⟨b', u', bs', hb', hrest', rfl⟩ := thread_cons.mp hs'
    rw [List.flatMap_cons] at hN
    have hafter : ∀ {v w bs}, thread f v as = some (bs, w) → Extends (factories v) (factories w) :=
      fun {v w bs} hrest => thread_invariant (I := fun w => Extends (factories v) (factories w))
        (fun _ _ _ _ hI hstep => hI.trans (hext _ _ _ _ hstep)) (.refl (factories v)) hrest
    obtain ⟨hQ, htwin⟩ := hstep a s s' b b' u u' h hb hb'
      ((hN.subset fun _ => List.mem_append_left _).before (hafter hrest) (hafter hrest'))
    obtain ⟨hQs, htwin'⟩ := ih htwin hrest hrest' (hN.subset fun _ => List.mem_append_right _)
    exact ⟨.cons hQ hQs, htwin'⟩

/-! ## Bodies and statements -/

theorem twin_actionsOf (h : Twin N F F') {a : ActionContext} {xs xs' : List Action}
    (hx : F.actionsOf a = some (xs, G)) (hx' : F'.actionsOf a = some (xs', G'))
    (hN : Agrees N a.nextStates G G') : ActionsTwin N xs xs' ∧ Twin N G G' := by
  obtain ⟨⟨added, H⟩, hadded, heq⟩ := Option.map_eq_some_iff.mp hx
  obtain ⟨⟨added', H'⟩, hadded', heq'⟩ := Option.map_eq_some_iff.mp hx'
  cases heq
  cases heq'
  obtain ⟨htwin, hG⟩ := twin_exitAction h hadded hadded' hN
  exact ⟨htwin.toList, hG⟩

/-- Twins in sequence are the same. -/
theorem sequentializable_of_twin {x x' : Action} (h : ActionTwin N x x') :
    x.sequentializable? = x'.sequentializable? := by
  cases h <;> rfl

theorem mapM_sequentializable_twin {xs xs' : List Action} (h : ActionsTwin N xs xs') :
    xs.mapM Action.sequentializable? = xs'.mapM Action.sequentializable? := by
  induction h with
  | nil => rfl
  | cons hx _ ih => rw [List.mapM_cons, List.mapM_cons, sequentializable_of_twin hx, ih]

theorem forall₂_flatten {α : Type} {R : α → α → Prop} {xss xss' : List (List α)}
    (h : List.Forall₂ (List.Forall₂ R) xss xss') : List.Forall₂ R xss.flatten xss'.flatten := by
  induction h with
  | nil => exact .nil
  | cons hxs _ ih =>
    rw [List.flatten_cons, List.flatten_cons]
    exact List.rel_append hxs ih

theorem twin_actions (h : Twin N F F') {actions : List ActionContext}
    {xss xss' : List (List Action)} (hx : thread actionsOf F actions = some (xss, G))
    (hx' : thread actionsOf F' actions = some (xss', G'))
    (hN : Agrees N (actions.flatMap ActionContext.nextStates) G G') :
    ActionsTwin N xss.flatten xss'.flatten ∧ Twin N G G' := by
  obtain ⟨htwin, hG⟩ := twin_thread (fun F => F) h hx hx' hN
    (fun _ _ _ _ h => (within_actionsOf h).learns.extend) fun _ _ _ _ _ _ _ h hb hb' hN =>
      twin_actionsOf h hb hb' hN
  exact ⟨forall₂_flatten htwin, hG⟩

/-- **A serial block** comes out the same. -/
theorem twin_serialActions (h : Twin N F F') {actions : List ActionContext}
    {inner inner' : List SequentializableAction} (hx : F.serialActions actions = some (inner, G))
    (hx' : F'.serialActions actions = some (inner', G'))
    (hN : Agrees N (actions.flatMap ActionContext.nextStates) G G') :
    inner = inner' ∧ Twin N G G' := by
  obtain ⟨⟨xss, H⟩, hxss, hx⟩ := Option.bind_eq_some_iff.mp hx
  obtain ⟨⟨xss', H'⟩, hxss', hx'⟩ := Option.bind_eq_some_iff.mp hx'
  obtain ⟨ys, hys, heq⟩ := Option.map_eq_some_iff.mp hx
  obtain ⟨ys', hys', heq'⟩ := Option.map_eq_some_iff.mp hx'
  cases heq
  cases heq'
  obtain ⟨htwin, hG⟩ := twin_actions h hxss hxss' hN
  rw [mapM_sequentializable_twin htwin, hys'] at hys
  cases hys
  exact ⟨rfl, hG⟩

/-- The states an element of a body mentions. -/
def elementMentions (element : BodyElement) : List String :=
  element.actions.flatMap ActionContext.nextStates

theorem twin_elementActions {inEvent : Bool} {element : BodyElement} {xs xs' : List Action}
    (h : Twin N F F') (hx : F.elementActions inEvent element = some (xs, G))
    (hx' : F'.elementActions inEvent element = some (xs', G'))
    (hN : Agrees N (elementMentions element) G G') : ActionsTwin N xs xs' ∧ Twin N G G' := by
  cases element with
  | action a =>
    refine twin_actionsOf h hx hx' (hN.subset fun name hname => ?_)
    exact List.mem_flatMap.mpr ⟨a, List.mem_singleton_self a, hname⟩
  | serial actions =>
    cases inEvent with
    | true =>
      obtain ⟨⟨xss, H⟩, hxss, heq⟩ := Option.map_eq_some_iff.mp hx
      obtain ⟨⟨xss', H'⟩, hxss', heq'⟩ := Option.map_eq_some_iff.mp hx'
      cases heq
      cases heq'
      exact ⟨.cons (.sequentialActions []) .nil, (twin_actions h hxss hxss' hN).2⟩
    | false =>
      obtain ⟨⟨inner, H⟩, hinner, heq⟩ := Option.map_eq_some_iff.mp hx
      obtain ⟨⟨inner', H'⟩, hinner', heq'⟩ := Option.map_eq_some_iff.mp hx'
      cases heq
      cases heq'
      obtain ⟨rfl, hG⟩ := twin_serialActions h hinner hinner' hN
      exact ⟨.cons (.sequentialActions inner) .nil, hG⟩

/-- **A body, resolved twice.** -/
theorem twin_bodyActions {inEvent : Bool} {body : List BodyElement} {xs xs' : List Action}
    (h : Twin N F F') (hx : F.bodyActions inEvent body = some (xs, G))
    (hx' : F'.bodyActions inEvent body = some (xs', G'))
    (hN : Agrees N (bodyMentions body) G G') : ActionsTwin N xs xs' ∧ Twin N G G' := by
  obtain ⟨⟨xss, H⟩, hxss, heq⟩ := Option.map_eq_some_iff.mp hx
  obtain ⟨⟨xss', H'⟩, hxss', heq'⟩ := Option.map_eq_some_iff.mp hx'
  cases heq
  cases heq'
  obtain ⟨htwin, hG⟩ := twin_thread (fun F => F) h hxss hxss' hN
    (fun _ _ _ _ h => (within_elementActions h).learns.extend)
    fun _ _ _ _ _ _ _ h hb hb' hN => twin_elementActions h hb hb' hN
  exact ⟨forall₂_flatten htwin, hG⟩

/-- **A condition** comes out the same. -/
theorem twin_exitCondition {c : ConditionContext} {result result' : ConditionResult}
    (h : Twin N F F') (hx : F.exitCondition c = some (result, G))
    (hx' : F'.exitCondition c = some (result', G')) : result = result' ∧ Twin N G G' := by
  unfold Factories.exitCondition at hx hx'
  rw [← h.getOperand, ← h.getOperand, ← h.conditions] at hx'
  obtain ⟨op0, hop0, hx⟩ := Option.bind_eq_some_iff.mp hx
  obtain ⟨op1, hop1, hx⟩ := Option.bind_eq_some_iff.mp hx
  obtain ⟨⟨r, conditions⟩, hr, heq⟩ := Option.map_eq_some_iff.mp hx
  rw [hop0, Option.bind_some, hop1, Option.bind_some, hr] at hx'
  cases heq
  cases hx'
  exact ⟨rfl, h.macroActions, h.localRegisters, h.globalRegisters, rfl⟩

theorem twin_exitConditions {conditions : List ConditionContext}
    {results results' : List ConditionResult} (h : Twin N F F')
    (hx : thread Factories.exitCondition F conditions = some (results, G))
    (hx' : thread Factories.exitCondition F' conditions = some (results', G')) :
    results = results' ∧ Twin N G G' := by
  have hnone : Agrees N (conditions.flatMap fun _ => []) G G' := fun name hname => by
    obtain ⟨_, -, hname⟩ := List.mem_flatMap.mp hname
    cases hname
  obtain ⟨hsame, hG⟩ := twin_thread (Q := Eq) (fun F => F) h hx hx' hnone
    (fun _ _ _ _ h => (within_exitCondition h).learns.extend)
    fun _ _ _ _ _ _ _ h hb hb' _ => twin_exitCondition h hb hb'
  rw [List.forall₂_eq_eq_eq] at hsame
  exact ⟨hsame, hG⟩

theorem twin_conditionStatement {c : ConditionStatementContext}
    {x x' : ConditionStatement ConditionResult} (h : Twin N F F')
    (hx : F.conditionStatement c = some (x, G)) (hx' : F'.conditionStatement c = some (x', G'))
    (hN : Agrees N (bodyMentions c.body) G G') : ConditionTwin N x x' ∧ Twin N G G' := by
  obtain ⟨⟨results, H⟩, hresults, hx⟩ := Option.bind_eq_some_iff.mp hx
  obtain ⟨⟨results', H'⟩, hresults', hx'⟩ := Option.bind_eq_some_iff.mp hx'
  obtain ⟨⟨actions, K⟩, hactions, heq⟩ := Option.map_eq_some_iff.mp hx
  obtain ⟨⟨actions', K'⟩, hactions', heq'⟩ := Option.map_eq_some_iff.mp hx'
  cases heq
  cases heq'
  obtain ⟨rfl, hH⟩ := twin_exitConditions h hresults hresults'
  obtain ⟨htwin, hG⟩ := twin_bodyActions hH hactions hactions' hN
  exact ⟨⟨rfl, htwin⟩, hG⟩

/-- The states an event statement mentions. -/
def eventMentions (b : EventStatementContext) : List String :=
  bodyMentions b.body ++ b.conditionStatements.flatMap fun c => bodyMentions c.body

theorem twin_eventStatement {b : EventStatementContext} {x x' : EventStatement ConditionResult}
    (h : Twin N F F') (hx : F.eventStatement b = some (x, G))
    (hx' : F'.eventStatement b = some (x', G')) (hN : Agrees N (eventMentions b) G G') :
    EventTwin N x x' ∧ Twin N G G' := by
  obtain ⟨event, hevent, hx⟩ := Option.bind_eq_some_iff.mp hx
  obtain ⟨event', hevent', hx'⟩ := Option.bind_eq_some_iff.mp hx'
  obtain ⟨⟨actions, H⟩, hactions, hx⟩ := Option.bind_eq_some_iff.mp hx
  obtain ⟨⟨actions', H'⟩, hactions', hx'⟩ := Option.bind_eq_some_iff.mp hx'
  obtain ⟨⟨cs, K⟩, hcs, heq⟩ := Option.map_eq_some_iff.mp hx
  obtain ⟨⟨cs', K'⟩, hcs', heq'⟩ := Option.map_eq_some_iff.mp hx'
  cases heq
  cases heq'
  rw [hevent] at hevent'
  cases hevent'
  have hafter := (within_thread within_conditionStatement hcs).learns.extend
  have hafter' := (within_thread within_conditionStatement hcs').learns.extend
  obtain ⟨htwin, hH⟩ := twin_bodyActions h hactions hactions'
    ((hN.subset fun _ => List.mem_append_left _).before hafter hafter')
  obtain ⟨htwins, hG⟩ := twin_thread (fun F => F) hH hcs hcs'
    (hN.subset fun _ => List.mem_append_right _)
    (fun _ _ _ _ h => (within_conditionStatement h).learns.extend)
    fun _ _ _ _ _ _ _ h hb hb' hN => twin_conditionStatement h hb hb' hN
  exact ⟨⟨rfl, htwin, htwins⟩, hG⟩

/-- **A state statement, resolved twice.** -/
theorem twin_stateStatement {S : StateStatementContext}
    {x x' : Bool × StateStatement ConditionResult} (h : Twin N F F')
    (hx : F.stateStatement S = some (x, G)) (hx' : F'.stateStatement S = some (x', G'))
    (hN : Agrees N S.mentions G G') : (x.1 = x'.1 ∧ StateTwin N x.2 x'.2) ∧ Twin N G G' := by
  obtain ⟨⟨actions, H⟩, hactions, hx⟩ := Option.bind_eq_some_iff.mp hx
  obtain ⟨⟨actions', H'⟩, hactions', hx'⟩ := Option.bind_eq_some_iff.mp hx'
  obtain ⟨⟨bs, K⟩, hbs, heq⟩ := Option.map_eq_some_iff.mp hx
  obtain ⟨⟨bs', K'⟩, hbs', heq'⟩ := Option.map_eq_some_iff.mp hx'
  cases heq
  cases heq'
  have hafter := within_thread within_eventStatement hbs
  have hafter' := within_thread within_eventStatement hbs'
  have hbody := within_bodyActions hactions
  have hbody' := within_bodyActions hactions'
  have hevents : ∀ name ∈ S.eventStatements.flatMap eventMentions, name ∈ S.mentions := by
    intro name hname
    obtain ⟨b, hb, hname⟩ := List.mem_flatMap.mp hname
    refine List.mem_cons_of_mem _ (List.mem_flatMap.mpr ?_)
    rcases List.mem_append.mp hname with hname | hname
    · exact ⟨b.body, List.mem_cons_of_mem _ (List.mem_flatMap.mpr ⟨b, hb, List.mem_cons_self⟩),
        hname⟩
    · obtain ⟨c, hc, hname⟩ := List.mem_flatMap.mp hname
      exact ⟨c.body, List.mem_cons_of_mem _ (List.mem_flatMap.mpr ⟨b, hb,
        List.mem_cons_of_mem _ (List.mem_map_of_mem hc)⟩), hname⟩
  have hown : ∀ name ∈ bodyMentions S.body, name ∈ S.mentions := fun name hname =>
    List.mem_cons_of_mem _ (List.mem_flatMap.mpr ⟨S.body, List.mem_cons_self, hname⟩)
  obtain ⟨htwin, hH⟩ := twin_bodyActions (h.withStates _ _) hactions hactions'
    ((hN.subset hown).before hafter.learns.extend hafter'.learns.extend)
  obtain ⟨htwins, hG⟩ := twin_thread (fun F => F) hH hbs hbs' (hN.subset hevents)
    (fun _ _ _ _ h => (within_eventStatement h).learns.extend)
    fun _ _ _ _ _ _ _ h hb hb' hN => twin_eventStatement h hb hb' hN
  refine ⟨⟨rfl, hN S.identifier List.mem_cons_self _ _ ?_ ?_, htwin, htwins⟩, hG⟩
  · exact (hbody.trans hafter).learns.extend.state StateFactory.get_makeState_self
  · exact (hbody'.trans hafter').learns.extend.state StateFactory.get_makeState_self

/-! ## Definitions -/

theorem twin_foldlM {α : Type} {f : Factories → α → Option Factories} {mentions : α → List String}
    {as : List α} (h : Twin N F F') (hs : as.foldlM f F = some G) (hs' : as.foldlM f F' = some G')
    (hN : Agrees N (as.flatMap mentions) G G') (hext : ∀ F a G, f F a = some G → Extends F G)
    (hstep : ∀ a F F' G G', Twin N F F' → f F a = some G → f F' a = some G' →
      Agrees N (mentions a) G G' → Twin N G G') : Twin N G G' := by
  induction as generalizing F F' with
  | nil =>
    cases hs
    cases hs'
    exact h
  | cons a as ih =>
    obtain ⟨H, hH, hrest⟩ := Option.bind_eq_some_iff.mp hs
    obtain ⟨H', hH', hrest'⟩ := Option.bind_eq_some_iff.mp hs'
    rw [List.flatMap_cons] at hN
    have hafter : ∀ {H K}, as.foldlM f H = some K → Extends H K := fun {H K} hrest =>
      foldlM_invariant (I := Extends H) (fun _ _ _ hI hstep => hI.trans (hext _ _ _ hstep))
        (.refl H) hrest
    exact ih (hstep a F F' H H' h hH hH' ((hN.subset fun _ => List.mem_append_left _).before
      (hafter hrest) (hafter hrest'))) hrest hrest' (hN.subset fun _ => List.mem_append_right _)

/-- The macro actions of twins. -/
theorem Twin.withMacros (h : Twin N F F') {m m' : MacroActionsFactory}
    (hm : List.Forall₂ (fun e e' => e.1 = e'.1 ∧ ActionsTwin N e.2 e'.2) m m') :
    Twin N { F with macroActions := m } { F' with macroActions := m' } :=
  ⟨hm, h.localRegisters, h.globalRegisters, h.conditions⟩

theorem twin_addToMacro {name : Option String} {x x' : Action} (h : Twin N F F')
    (hx : ActionTwin N x x') (hG : F.addToMacro name x = some G)
    (hG' : F'.addToMacro name x' = some G') : Twin N G G' := by
  obtain ⟨m, hm, rfl⟩ := Option.map_eq_some_iff.mp hG
  obtain ⟨m', hm', rfl⟩ := Option.map_eq_some_iff.mp hG'
  refine h.withMacros ?_
  unfold MacroActionsFactory.addAction at hm hm'
  split at hm
  · split at hm'
    · cases hm
      cases hm'
      unfold LinkedHashMap.modify
      rw [List.forall₂_map_left_iff, List.forall₂_map_right_iff]
      refine h.macroActions.imp fun e e' he => ?_
      rw [← he.1]
      split
      · exact ⟨rfl, List.rel_append he.2 (.cons hx .nil)⟩
      · exact he
    · cases hm'
  · cases hm

theorem twin_createMacro {name : Option String} (h : Twin N F F')
    (hG : F.createMacro name = some G) (hG' : F'.createMacro name = some G') : Twin N G G' := by
  obtain ⟨m, hm, rfl⟩ := Option.map_eq_some_iff.mp hG
  obtain ⟨m', hm', rfl⟩ := Option.map_eq_some_iff.mp hG'
  refine h.withMacros ?_
  unfold MacroActionsFactory.createEmptyMacroAction at hm hm'
  split at hm
  · cases hm
  · next habsent =>
    split at hm'
    · cases hm'
    · next habsent' =>
      cases hm
      cases hm'
      rw [LinkedHashMap.put_of_absent (Bool.eq_false_iff.mpr habsent),
        LinkedHashMap.put_of_absent (Bool.eq_false_iff.mpr habsent')]
      exact List.rel_append h.macroActions (.cons ⟨rfl, .nil⟩ .nil)

/-- Adding to a macro action leaves everything else. -/
theorem extends_addToMacro {name : Option String} {x : Action} (h : F.addToMacro name x = some G) :
    Extends F G := by
  obtain ⟨m, -, rfl⟩ := Option.map_eq_some_iff.mp h
  exact (learns_withMacros m).extend

/-- **An action of a macro action** is resolved, and added if there is one
to add. -/
theorem added_of_macroElement {name : Option String} {a : ActionContext}
    (h : F.macroElement name (.action a) = some G) :
    ∃ added H, F.exitAction a = some (added, H) ∧ Extends H G ∧
      (∀ x, added = .action x → H.addToMacro name x = some G) ∧
      ((∀ x, added ≠ .action x) → G = H) := by
  obtain ⟨⟨added, H⟩, hx, h⟩ := Option.bind_eq_some_iff.mp h
  refine ⟨added, H, hx, ?_⟩
  cases added with
  | action x =>
    refine ⟨extends_addToMacro h, fun y hy => ?_, fun hne => absurd rfl (hne x)⟩
    cases hy
    exact h
  | nothing =>
    cases h
    refine ⟨.refl _, fun y hy => ?_, fun _ => rfl⟩
    cases hy
  | actions xs =>
    cases h
    refine ⟨.refl _, fun y hy => ?_, fun _ => rfl⟩
    cases hy

theorem twin_macroElement {name : Option String} {element : BodyElement} (h : Twin N F F')
    (hG : F.macroElement name element = some G) (hG' : F'.macroElement name element = some G')
    (hN : Agrees N (elementMentions element) G G') : Twin N G G' := by
  cases element with
  | action a =>
    have hown : ∀ name ∈ a.nextStates, name ∈ elementMentions (.action a) := fun name hname =>
      List.mem_flatMap.mpr ⟨a, List.mem_singleton_self a, hname⟩
    obtain ⟨added, H, hx, hafter, hadd, hkeep⟩ := added_of_macroElement hG
    obtain ⟨added', H', hx', hafter', hadd', hkeep'⟩ := added_of_macroElement hG'
    -- the states agree in the end, so they did when the action was resolved
    obtain ⟨htwin, hH⟩ := twin_exitAction h hx hx' ((hN.subset hown).before hafter hafter')
    cases htwin with
    | action hxx => exact twin_addToMacro hH hxx (hadd _ rfl) (hadd' _ rfl)
    | nothing =>
      rw [hkeep (fun x h => by cases h), hkeep' (fun x h => by cases h)]
      exact hH
    | actions hxs =>
      rw [hkeep (fun x h => by cases h), hkeep' (fun x h => by cases h)]
      exact hH
  | serial actions =>
    obtain ⟨⟨inner, H⟩, hinner, hG⟩ := Option.bind_eq_some_iff.mp hG
    obtain ⟨⟨inner', H'⟩, hinner', hG'⟩ := Option.bind_eq_some_iff.mp hG'
    obtain ⟨rfl, hH⟩ := twin_serialActions h hinner hinner'
      (hN.before (extends_addToMacro hG) (extends_addToMacro hG'))
    exact twin_addToMacro hH (.sequentialActions inner) hG hG'

/-- **A macro action, defined twice.** -/
theorem twin_macroAction {name : Option String} {body : List BodyElement} (h : Twin N F F')
    (hG : F.macroAction name body = some G) (hG' : F'.macroAction name body = some G')
    (hN : Agrees N (bodyMentions body) G G') : Twin N G G' := by
  obtain ⟨H, hH, hG⟩ := Option.bind_eq_some_iff.mp hG
  obtain ⟨H', hH', hG'⟩ := Option.bind_eq_some_iff.mp hG'
  exact twin_foldlM (twin_createMacro h hH hH') hG hG' hN
    (fun _ _ _ h => (learns_macroElement h).extend) fun _ _ _ _ _ h hG hG' hN =>
      twin_macroElement h hG hG' hN

theorem twin_allocateRegisters {global : Bool} {identifiers : List String} (h : Twin N F F')
    (hG : identifiers.foldlM (Factories.allocateRegister · global ·) F = some G)
    (hG' : identifiers.foldlM (Factories.allocateRegister · global ·) F' = some G') :
    Twin N G G' := by
  have hnone : Agrees N (identifiers.flatMap fun _ => []) G G' := fun name hname => by
    obtain ⟨_, -, hname⟩ := List.mem_flatMap.mp hname
    cases hname
  refine twin_foldlM h hG hG' hnone (fun _ _ _ h => (within_allocateRegister h).learns.extend)
    fun name F F' G G' h hG hG' _ => ?_
  unfold Factories.allocateRegister at hG hG'
  rw [← h.localRegisters, ← h.globalRegisters] at hG'
  split at hG
  · next hglobal =>
    rw [if_pos hglobal] at hG'
    obtain ⟨registers, hregisters, rfl⟩ := Option.map_eq_some_iff.mp hG
    rw [hregisters] at hG'
    cases hG'
    exact ⟨h.macroActions, rfl, rfl, h.conditions⟩
  · next hglobal =>
    rw [if_neg hglobal] at hG'
    obtain ⟨registers, hregisters, rfl⟩ := Option.map_eq_some_iff.mp hG
    rw [hregisters] at hG'
    cases hG'
    exact ⟨h.macroActions, rfl, rfl, h.conditions⟩

/-- **A definition, resolved twice.** -/
theorem twin_definition {s s' t t' : Factories × Option String} {d : Definition}
    {results results' : List ConditionResult} (h : Twin N s.1 s'.1)
    (hx : definition s d = some (results, t)) (hx' : definition s' d = some (results', t'))
    (hN : Agrees N (bodyMentions d.macroBody) t.1 t'.1) : results = results' ∧ Twin N t.1 t'.1 := by
  cases d with
  | register global identifiers =>
    obtain ⟨G, hG, heq⟩ := Option.map_eq_some_iff.mp hx
    obtain ⟨G', hG', heq'⟩ := Option.map_eq_some_iff.mp hx'
    cases heq
    cases heq'
    exact ⟨rfl, twin_allocateRegisters h hG hG'⟩
  | customEvent conditions =>
    obtain ⟨⟨xs, G⟩, hG, heq⟩ := Option.map_eq_some_iff.mp hx
    obtain ⟨⟨xs', G'⟩, hG', heq'⟩ := Option.map_eq_some_iff.mp hx'
    cases heq
    cases heq'
    exact twin_exitConditions h hG hG'
  | macroAction identifier body =>
    obtain ⟨G, hG, heq⟩ := Option.map_eq_some_iff.mp hx
    obtain ⟨G', hG', heq'⟩ := Option.map_eq_some_iff.mp hx'
    cases heq
    cases heq'
    exact ⟨rfl, twin_macroAction h hG hG' hN⟩

/-! ## Stages -/

/-- **A stage's body, resolved twice.** A serial block is a macro action with
the name of the one before, and that may be another stage's. -/
theorem twin_stageBody {c c' : Option String} {body : List BodyElement} (h : Twin N F F')
    (hG : body.foldlM (Factories.stageElement · c ·) F = some G)
    (hG' : body.foldlM (Factories.stageElement · c' ·) F' = some G')
    (hc : c = c' ∨ ∀ actions, BodyElement.serial actions ∉ body)
    (hN : Agrees N (bodyMentions body) G G') : Twin N G G' := by
  have hsame : body.foldlM (Factories.stageElement · c ·) F' = some G' := by
    rcases hc with rfl | hnone
    · exact hG'
    · rw [← hG']
      clear h hG hG' hN
      induction body generalizing F' with
      | nil => rfl
      | cons element body ih =>
        cases element with
        | serial actions => exact absurd List.mem_cons_self (hnone actions)
        | action a =>
          rw [List.foldlM_cons, List.foldlM_cons]
          change ((F'.exitAction a).map Prod.snd).bind _ = ((F'.exitAction a).map Prod.snd).bind _
          exact Option.bind_congr fun H _ => ih fun actions hmem =>
            hnone actions (List.mem_cons_of_mem _ hmem)
  have hmentions : Agrees N (body.flatMap elementMentions) G G' := hN
  refine twin_foldlM h hG hsame hmentions (fun F element G h => ?_)
    fun element F F' G G' h hG hG' hN => ?_
  · have hone : [element].foldlM (Factories.stageElement · c ·) F = some G := by
      rw [List.foldlM_cons, h]
      rfl
    exact (learns_stageBody hone).extend
  · cases element with
    | action a =>
      obtain ⟨⟨added, H⟩, hx, rfl⟩ := Option.map_eq_some_iff.mp hG
      obtain ⟨⟨added', H'⟩, hx', rfl⟩ := Option.map_eq_some_iff.mp hG'
      refine (twin_exitAction h hx hx' (hN.subset fun name hname => ?_)).2
      exact List.mem_flatMap.mpr ⟨a, List.mem_singleton_self a, hname⟩
    | serial actions =>
      refine twin_macroAction h hG hG' (hN.subset fun name hname => ?_)
      obtain ⟨element, helement, hname⟩ := List.mem_flatMap.mp hname
      obtain ⟨a, ha, rfl⟩ := List.mem_map.mp helement
      obtain ⟨b, hb, hname⟩ := List.mem_flatMap.mp hname
      rw [List.mem_singleton.mp hb] at hname
      exact List.mem_flatMap.mpr ⟨a, ha, hname⟩

/-- Between two stages only the names of states and stages are left. -/
theorem twin_finishStage : Twin N F.finishStage F'.finishStage := ⟨.nil, rfl, rfl, rfl⟩

/-- The macro action met last in a stage's definitions. -/
theorem last_of_definitions {current c : Option String} {stages : StageFactory ConditionResult}
    {definitions : List Definition} {results : List (List ConditionResult)}
    (hs : F.macroActions = [])
    (h : thread definition ({ F with stages := stages }, current) definitions =
      some (results, (G, c))) : c = lastMacro current definitions := by
  have hstart : ({ F with stages := stages } : Factories).macroActions = [] := hs
  exact (stores_definitions (stores_of_nil hstart) h).2

/-- **A stage statement, resolved twice.** -/
theorem twin_stageStatement {s s' t t' : Factories × Option String} {T : StageStatementContext}
    {R R' : ResolvedStage} (h : Twin N s.1 s'.1) (hx : stageStatement s T = some (R, t))
    (hx' : stageStatement s' T = some (R', t')) (hs : s.1.macroActions = [])
    (hs' : s'.1.macroActions = [])
    (hc : lastMacro s.2 T.definitions = lastMacro s'.2 T.definitions ∨
      ∀ actions, BodyElement.serial actions ∉ T.body)
    (hN : Agrees N T.mentions t.1 t'.1) : StageTwin N R R' := by
  obtain ⟨_, hshows, -⟩ := showsStage_stageStatement hs hx
  obtain ⟨_, hshows', -⟩ := showsStage_stageStatement hs' hx'
  have htable : R.table = R'.table := hshows.table.trans hshows'.table.symm
  obtain ⟨F, current⟩ := s
  obtain ⟨F', current'⟩ := s'
  obtain ⟨⟨results, F₁, c⟩, hdefinitions, hx⟩ := Option.bind_eq_some_iff.mp hx
  obtain ⟨⟨results', F₁', c'⟩, hdefinitions', hx'⟩ := Option.bind_eq_some_iff.mp hx'
  obtain ⟨F₂, hbody, hx⟩ := Option.bind_eq_some_iff.mp hx
  obtain ⟨F₂', hbody', hx'⟩ := Option.bind_eq_some_iff.mp hx'
  obtain ⟨⟨states, F₃⟩, hstates, hx⟩ := Option.bind_eq_some_iff.mp hx
  obtain ⟨⟨states', F₃'⟩, hstates', hx'⟩ := Option.bind_eq_some_iff.mp hx'
  obtain ⟨table, -, hx⟩ := Option.map_eq_some_iff.mp hx
  obtain ⟨table', -, hx'⟩ := Option.map_eq_some_iff.mp hx'
  cases hx
  cases hx'
  obtain rfl := last_of_definitions hs hdefinitions
  obtain rfl := last_of_definitions hs' hdefinitions'
  have hafter := (within_thread within_stateStatement hstates).learns.extend
  have hafter' := (within_thread within_stateStatement hstates').learns.extend
  have hbodies := (learns_stageBody hbody).extend
  have hbodies' := (learns_stageBody hbody').extend
  have hend : Agrees N T.mentions F₃ F₃' := hN
  obtain ⟨hsame, h₁⟩ := twin_thread (Q := Eq) Prod.fst (h.withStages _ _) hdefinitions hdefinitions'
    ((hend.subset fun _ => List.mem_append_left _).before (hbodies.trans hafter)
      (hbodies'.trans hafter')) (fun _ _ _ _ h => (learns_definition h).extend)
    fun _ _ _ _ _ _ _ h hb hb' hN => twin_definition h hb hb' hN
  rw [List.forall₂_eq_eq_eq] at hsame
  have h₂ := twin_stageBody h₁ hbody hbody' hc
    ((hend.subset fun _ hname => List.mem_append_right _ (List.mem_append_left _ hname)).before
      hafter hafter')
  obtain ⟨htwins, h₃⟩ := twin_thread (fun F => F) h₂ hstates hstates'
    (hend.subset fun _ hname => List.mem_append_right _ (List.mem_append_right _ hname))
    (fun _ _ _ _ h => (within_stateStatement h).learns.extend)
    fun _ _ _ _ _ _ _ h hb hb' hN => twin_stateStatement h hb hb' hN
  exact ⟨rfl, hsame, htwins, htable, by rw [h₃.conditions]⟩

/-! ## Stages after others -/

/-- **A macro action's name is taken over from a stage before**: a serial
block stands in a stage's own body, and no macro action was defined since. -/
def TakesName : List StageStatementContext → Prop
  | [] => False
  | T :: stages => (∀ d ∈ T.definitions, d.macroName = none) ∧
      ((∃ actions, BodyElement.serial actions ∈ T.body) ∨ TakesName stages)

/-- The macro action met last is one of these, if there is one. -/
theorem lastMacro_of_mem {definitions : List Definition} {d : Definition}
    (hd : d ∈ definitions) (hname : d.macroName ≠ none) (c c' : Option String) :
    lastMacro c definitions = lastMacro c' definitions := by
  unfold lastMacro
  induction definitions generalizing c c' with
  | nil => cases hd
  | cons e definitions ih =>
    rw [List.foldl_cons, List.foldl_cons]
    rcases List.mem_cons.mp hd with rfl | hd
    · obtain ⟨name, hname⟩ := Option.ne_none_iff_exists'.mp hname
      rw [hname, Option.some_or, Option.some_or]
    · exact ih hd _ _

/-- **The stages behind one that differs**, resolved twice. -/
theorem twin_stages {s s' t t' : Factories × Option String} {stages : List StageStatementContext}
    {Rs Rs' : List ResolvedStage} (h : Twin N s.1 s'.1)
    (hx : thread stageStatement s stages = some (Rs, t))
    (hx' : thread stageStatement s' stages = some (Rs', t')) (hs : s.1.macroActions = [])
    (hs' : s'.1.macroActions = []) (hc : s.2 = s'.2 ∨ ¬TakesName stages)
    (hN : Agrees N (stages.flatMap (·.mentions)) t.1 t'.1) :
    List.Forall₂ (StageTwin N) Rs Rs' := by
  induction stages generalizing s s' Rs Rs' with
  | nil =>
    cases hx
    cases hx'
    exact .nil
  | cons T stages ih =>
    obtain ⟨R, u, Rs, hR, hrest, rfl⟩ := thread_cons.mp hx
    obtain ⟨R', u', Rs', hR', hrest', rfl⟩ := thread_cons.mp hx'
    rw [List.flatMap_cons] at hN
    obtain ⟨F, -, rfl⟩ := showsStage_stageStatement hs hR
    obtain ⟨F', -, rfl⟩ := showsStage_stageStatement hs' hR'
    have hname : lastMacro s.2 T.definitions = lastMacro s'.2 T.definitions ∨
        (∀ actions, BodyElement.serial actions ∉ T.body) ∧ ¬TakesName stages := by
      rcases hc with hc | hc
      · exact .inl (by rw [hc])
      · by_cases hnone : ∀ d ∈ T.definitions, d.macroName = none
        · refine .inr ⟨fun actions hmem => hc ⟨hnone, .inl ⟨actions, hmem⟩⟩, fun htakes => ?_⟩
          exact hc ⟨hnone, .inr htakes⟩
        · obtain ⟨d, hd, hname⟩ := by simpa only [not_forall] using hnone
          exact .inl (lastMacro_of_mem hd hname _ _)
    have hbefore : Agrees N T.mentions F.finishStage F'.finishStage :=
      fun name hmem state state' hget hget' => hN name (List.mem_append_left _ hmem) state state'
        (getState_of_stages hrest hget) (getState_of_stages hrest' hget')
    exact .cons (twin_stageStatement h hR hR' hs hs' (hname.imp_right And.left) hbefore)
      (ih twin_finishStage hrest hrest' rfl rfl (hname.imp_right And.right)
        (hN.subset fun _ => List.mem_append_right _))

end Factories

end Xl

end FlowBlaze
