import FlowBlaze.Xl.ResolvedProgram
import FlowBlaze.Xl.StageRows
/-!
# Names keep their meaning

Within a stage the factories only learn names: what a register, a state or
a stage stood for once, it stands for later. So an action that was met
before resolves to the same again, and changes nothing any more.
-/

namespace FlowBlaze

namespace Xl

open Common

/-! ## States -/

namespace StateFactory

variable {F : StateFactory} {name other : String} {state : State}

theorem makeState_of_get (h : F.states.get (.ofEq String) name = some state) :
    F.makeState name = (state, F) := by
  unfold makeState
  rw [h]

/-- A new state does not touch the others. -/
theorem get_makeState (h : F.states.get (.ofEq String) other = some state) :
    (F.makeState name).2.states.get (.ofEq String) other = some state := by
  unfold makeState
  split
  · exact h
  · next hnone =>
    have hne : other ≠ name := fun heq => by
      rw [heq, hnone] at h
      cases h
    simp only [LinkedHashMap.get_put, if_neg hne, h]

/-- A state that was made is there. -/
theorem get_makeState_self :
    (F.makeState name).2.states.get (.ofEq String) name = some (F.makeState name).1 := by
  unfold makeState
  split
  · next h => exact h
  · simp only [LinkedHashMap.get_put, if_true]

/-- A reference to a state that is there. -/
theorem referenceState_of_get (h : F.states.get (.ofEq String) name = some state) :
    F.referenceState name = (state, F) := by
  unfold referenceState
  rw [h]

/-- A reference makes the state. -/
theorem referenceState_states :
    (F.referenceState name).1 = (F.makeState name).1 ∧
      (F.referenceState name).2.states = (F.makeState name).2.states := by
  unfold referenceState
  split
  · next h => rw [makeState_of_get h]; exact ⟨rfl, rfl⟩
  · exact ⟨rfl, rfl⟩

theorem get_referenceState_self :
    (F.referenceState name).2.states.get (.ofEq String) name = some (F.referenceState name).1 := by
  rw [referenceState_states.1, referenceState_states.2]
  exact get_makeState_self

/-- A reference that changes nothing is to a state that is there. -/
theorem get_of_referenceState_eq (h : (F.referenceState name).2 = F) :
    F.states.get (.ofEq String) name = some (F.referenceState name).1 := by
  have hself : (F.referenceState name).2.states.get (.ofEq String) name = _ :=
    get_referenceState_self
  rwa [h] at hself

theorem get_referenceState (h : F.states.get (.ofEq String) other = some state) :
    (F.referenceState name).2.states.get (.ofEq String) other = some state := by
  rw [referenceState_states.2]
  exact get_makeState h

theorem get_declareState (h : F.states.get (.ofEq String) other = some state) :
    (F.declareState name).2.states.get (.ofEq String) other = some state := get_makeState h

end StateFactory

/-! ## Stages -/

namespace StageFactory

variable {F : StageFactory ConditionResult} {name other : String}

theorem mem_keys_makeStage (h : other ∈ F.stages.keys) :
    other ∈ (F.makeStage name).stages.keys := by
  unfold makeStage
  split
  · exact h
  · rw [BucketMap.keys_putNew]
    exact List.mem_append_left _ h

/-- A reference to a stage that is there changes nothing. -/
theorem referenceStage_of_mem (h : name ∈ F.stages.keys) : F.referenceStage name = F := by
  unfold referenceStage
  split
  · rfl
  · next hnone => exact absurd h (BucketMap.get_eq_none_iff.mp hnone)

/-- A stage that was referred to is there. -/
theorem mem_keys_referenceStage_self : name ∈ (F.referenceStage name).stages.keys := by
  unfold referenceStage
  split
  · next hsome =>
    by_contra hnot
    rw [BucketMap.get_eq_none_iff.mpr hnot] at hsome
    cases hsome
  · next hnone =>
    unfold makeStage
    rw [hnone]
    simp only [BucketMap.keys_putNew]
    exact List.mem_append_right _ (List.mem_singleton_self _)

theorem mem_keys_referenceStage (h : other ∈ F.stages.keys) :
    other ∈ (F.referenceStage name).stages.keys := by
  unfold referenceStage
  split
  · exact h
  · exact mem_keys_makeStage h

theorem capacity_makeStage (h : 0 < F.stages.capacity) :
    0 < (F.makeStage name).stages.capacity := by
  unfold makeStage
  split
  · exact h
  · exact BucketMap.capacity_putNew h

theorem capacity_referenceStage (h : 0 < F.stages.capacity) :
    0 < (F.referenceStage name).stages.capacity := by
  unfold referenceStage
  split
  · exact h
  · exact capacity_makeStage h

/-- A reference leaves the stage declared last. -/
theorem lastDeclaredStage_referenceStage :
    (F.referenceStage name).lastDeclaredStage = F.lastDeclaredStage := by
  unfold referenceStage
  split
  · rfl
  · unfold makeStage
    split <;> rfl

end StageFactory

/-! ## Factories -/

/-- The calls that are looked at before macro actions. -/
def reserved (id : String) : Bool :=
  id = "setNextState" || id = "setFlowKey" || id = "setUpdateKey" || id = "setNextStage"

/-- The name an action calls. -/
def ActionContext.callee : ActionContext → Option String
  | .call id _ => some id
  | .assignment _ _ => none

namespace Factories

variable {F G H : Factories}

/-- **Later factories know what earlier ones knew.** -/
structure Extends (F G : Factories) : Prop where
  operand : ∀ {term o}, F.getOperand term = some o → G.getOperand term = some o
  register : ∀ {name r}, F.getRegister name = some r → G.getRegister name = some r
  state : ∀ {name s}, F.states.states.get (.ofEq String) name = some s →
    G.states.states.get (.ofEq String) name = some s
  stage : ∀ {name}, name ∈ F.stages.stages.keys → name ∈ G.stages.stages.keys

theorem Extends.refl (F : Factories) : Extends F F := ⟨id, id, id, id⟩

theorem Extends.trans (h : Extends F G) (h' : Extends G H) : Extends F H :=
  ⟨fun ho => h'.operand (h.operand ho), fun hr => h'.register (h.register hr),
    fun hs => h'.state (h.state hs), fun hs => h'.stage (h.stage hs)⟩

/-- Factories that keep the registers know the same operands. -/
theorem extends_of_getRegister
    (hregister : ∀ {name r}, F.getRegister name = some r → G.getRegister name = some r)
    (hstate : ∀ {name s}, F.states.states.get (.ofEq String) name = some s →
      G.states.states.get (.ofEq String) name = some s)
    (hstage : ∀ {name}, name ∈ F.stages.stages.keys → name ∈ G.stages.stages.keys) :
    Extends F G := by
  refine ⟨fun {term o} h => ?_, hregister, hstate, hstage⟩
  cases term with
  | field text operand => exact h
  | constant text constant => exact h
  | identifier name =>
    obtain ⟨r, hr, rfl⟩ := Option.map_eq_some_iff.mp h
    change ((getReadOnlyRegister name).or (G.getRegister name)).map _ = _
    cases hread : getReadOnlyRegister name with
    | some r' =>
      rw [hread] at hr
      cases hr
      rfl
    | none =>
      rw [hread, Option.none_or] at hr
      rw [Option.none_or, hregister hr]
      rfl

/-- Factories with the registers of others know the same operands. -/
theorem extends_of_registers (hlocal : G.localRegisters = F.localRegisters)
    (hglobal : G.globalRegisters = F.globalRegisters)
    (hstate : ∀ {name s}, F.states.states.get (.ofEq String) name = some s →
      G.states.states.get (.ofEq String) name = some s)
    (hstage : ∀ {name}, name ∈ F.stages.stages.keys → name ∈ G.stages.stages.keys) :
    Extends F G := by
  refine extends_of_getRegister (fun {name r} h => ?_) hstate hstage
  unfold getRegister at h ⊢
  rwa [hlocal, hglobal]

/-- Operands of calls. -/
theorem Extends.operands (h : Extends F G) {terms : List Term} {args : List Operand}
    (hargs : terms.mapM F.getOperand = some args) : terms.mapM G.getOperand = some args := by
  rw [Xl.mapM_eq_some_iff] at hargs ⊢
  exact hargs.imp fun _ _ ho => h.operand ho

/-- **A call resolves**: the shapes of what it may add. -/
theorem exitCall_cases {id : String} {terms : List Term} {added : Added}
    (h : F.exitCall id terms = some (added, G)) :
    (∃ term, id = "setNextState" ∧ terms = [term] ∧
      added = .action (.stateTransition (F.states.referenceState term.getText).1) ∧
      G = { F with states := (F.states.referenceState term.getText).2 }) ∨
    (∃ name fields, id = "setFlowKey" ∧ F.stages.lastDeclaredStage = some name ∧
      added = .nothing ∧ G = { F with stages := { F.stages with
        stages := F.stages.stages.modify name fun body =>
          { body with flowKey := some fields } } }) ∨
    (id = "setUpdateKey" ∧ added = .nothing ∧ G = F) ∨
    (∃ term, id = "setNextStage" ∧ terms = [term] ∧
      added = .action (.stageTransition (.declared term.getText)) ∧
      G = { F with stages := F.stages.referenceStage term.getText }) ∨
    (∃ actions, reserved id = false ∧ F.macroActions.getMacroAction (some id) = some actions ∧
      added = .actions actions ∧ G = F) ∨
    (∃ args action, F.macroActions.getMacroAction (some id) = none ∧
      terms.mapM F.getOperand = some args ∧ getAction id args = some action ∧
      added = .action (.sequentializable (.hardwareAction action)) ∧ G = F) := by
  unfold exitCall at h
  split at h
  · next hid =>
    split at h
    · next term =>
      cases h
      exact Or.inl ⟨term, hid, rfl, rfl, rfl⟩
    · cases h
  · split at h
    · next hid =>
      obtain ⟨fields, -, h⟩ := Option.bind_eq_some_iff.mp h
      obtain ⟨stages, hstages, h⟩ := Option.map_eq_some_iff.mp h
      obtain ⟨name, hname, rfl⟩ := Option.map_eq_some_iff.mp hstages
      cases h
      exact Or.inr (Or.inl ⟨name, fields, hid, hname, rfl, rfl⟩)
    · split at h
      · next hid =>
        obtain ⟨fields, -, h⟩ := Option.bind_eq_some_iff.mp h
        obtain ⟨stages, -, h⟩ := Option.map_eq_some_iff.mp h
        cases h
        exact Or.inr (Or.inr (Or.inl ⟨hid, rfl, rfl⟩))
      · split at h
        · next hid =>
          split at h
          · next term =>
            cases h
            exact Or.inr (Or.inr (Or.inr (Or.inl ⟨term, hid, rfl, rfl, rfl⟩)))
          · cases h
        · split at h
          · next hstate hflow hupdate hstage _ actions hcalled =>
            cases h
            have hreserved : reserved id = false := by
              simp only [reserved, hstate, hflow, hupdate, hstage, decide_false, Bool.or_false]
            exact Or.inr (Or.inr (Or.inr (Or.inr (Or.inl ⟨actions, hreserved, hcalled, rfl, rfl⟩))))
          · next hcalled =>
            obtain ⟨args, hargs, h⟩ := Option.bind_eq_some_iff.mp h
            obtain ⟨action, haction, h⟩ := Option.map_eq_some_iff.mp h
            cases h
            exact Or.inr (Or.inr (Or.inr (Or.inr (Or.inr
              ⟨args, action, hcalled, hargs, haction, rfl, rfl⟩))))

/-- **Factories learn**: names keep their meaning, and the stage that is
declared stays. -/
structure Learns (F G : Factories) : Prop where
  extend : Extends F G
  lastDeclaredStage : G.stages.lastDeclaredStage = F.stages.lastDeclaredStage
  capacity : 0 < F.stages.stages.capacity → 0 < G.stages.stages.capacity

theorem Learns.refl (F : Factories) : Learns F F := ⟨.refl F, rfl, id⟩

theorem Learns.trans (h : Learns F G) (h' : Learns G H) : Learns F H :=
  ⟨h.extend.trans h'.extend, h'.lastDeclaredStage.trans h.lastDeclaredStage,
    fun hF => h'.capacity (h.capacity hF)⟩

/-- **Statements** leave the macro actions besides. -/
structure Within (F G : Factories) : Prop where
  learns : Learns F G
  macroActions : G.macroActions = F.macroActions

theorem Within.refl (F : Factories) : Within F F := ⟨.refl F, rfl⟩

theorem Within.trans (h : Within F G) (h' : Within G H) : Within F H :=
  ⟨h.learns.trans h'.learns, h'.macroActions.trans h.macroActions⟩

/-- **An action** adds names, and leaves the macro actions. -/
theorem within_exitAction {action : ActionContext} {added : Added}
    (h : F.exitAction action = some (added, G)) : Within F G := by
  cases action with
  | assignment identifier expr =>
    obtain ⟨_, -, h⟩ := Option.map_eq_some_iff.mp h
    cases h
    exact .refl F
  | call id terms =>
    rcases exitCall_cases h with ⟨term, -, -, -, rfl⟩ | ⟨name, fields, -, -, -, rfl⟩ | ⟨-, -, rfl⟩ |
      ⟨term, -, -, -, rfl⟩ | ⟨actions, -, -, -, rfl⟩ | ⟨args, action, -, -, -, -, rfl⟩
    · exact ⟨⟨extends_of_registers rfl rfl StateFactory.get_referenceState fun h => h, rfl,
        fun h => h⟩, rfl⟩
    · refine ⟨⟨extends_of_registers rfl rfl (fun h => h) fun h => ?_, rfl, fun h => h⟩, rfl⟩
      rw [BucketMap.keys_modify]
      exact h
    · exact .refl _
    · exact ⟨⟨extends_of_registers rfl rfl (fun h => h) StageFactory.mem_keys_referenceStage,
        StageFactory.lastDeclaredStage_referenceStage, StageFactory.capacity_referenceStage⟩, rfl⟩
    · exact .refl _
    · exact .refl _

end Factories

/-! ## Actions that were met before -/

namespace Factories

variable {F G H : Factories} {a : ActionContext} {x : Action}

/-- The action calls no macro action. -/
def NoMacroCall (macroActions : MacroActionsFactory) (a : ActionContext) : Prop :=
  ∀ id, a.callee = some id → reserved id = false → macroActions.getMacroAction (some id) = none

/-- **An action that was met before**: it adds the same, and teaches the
factories nothing. -/
def Resolves (F : Factories) (a : ActionContext) (x : Action) : Prop :=
  F.exitAction a = some (.action x, F)

theorem Extends.exitAssignment (h : Extends F G) {identifier : String} {expr : Expr}
    (hx : F.exitAssignment identifier expr = some x) :
    G.exitAssignment identifier expr = some x := by
  obtain ⟨⟨opcode, op0, op1⟩, hexpr, hx⟩ := Option.bind_eq_some_iff.mp hx
  obtain ⟨register, hregister, rfl⟩ := Option.map_eq_some_iff.mp hx
  have hexpr' : G.exitExpr expr = some (opcode, op0, op1) := by
    cases expr with
    | binary token t0 t1 =>
      obtain ⟨o0, h0, hexpr⟩ := Option.bind_eq_some_iff.mp hexpr
      obtain ⟨o1, h1, hexpr⟩ := Option.map_eq_some_iff.mp hexpr
      simp only [exitExpr, h.operand h0, Option.bind_some, h.operand h1, Option.map_some, hexpr]
    | term t0 =>
      obtain ⟨o0, h0, hexpr⟩ := Option.map_eq_some_iff.mp hexpr
      simp only [exitExpr, h.operand h0, Option.map_some, hexpr]
  simp only [Factories.exitAssignment, hexpr', Option.bind_some, h.register hregister,
    Option.map_some]

/-! ### Reserved names -/

theorem exitAction_call {id : String} {terms : List Term} :
    F.exitAction (.call id terms) = F.exitCall id terms := rfl

theorem exitAction_assignment {identifier : String} {expr : Expr} :
    F.exitAction (.assignment identifier expr) =
      (F.exitAssignment identifier expr).map fun action => (.action action, F) := rfl

theorem exitCall_setNextState {term : Term} :
    F.exitCall "setNextState" [term] =
      some (.action (.stateTransition (F.states.referenceState term.getText).1),
        { F with states := (F.states.referenceState term.getText).2 }) := by
  unfold exitCall
  rw [if_pos rfl]

theorem exitCall_setFlowKey {terms : List Term} :
    F.exitCall "setFlowKey" terms = (terms.mapM getKeyField).bind fun fields =>
      (F.stages.call (.setFlowKey fields)).map fun stages =>
        (.nothing, { F with stages := stages }) := by
  unfold exitCall
  rw [if_neg (by decide), if_pos rfl]

theorem exitCall_setUpdateKey {terms : List Term} :
    F.exitCall "setUpdateKey" terms = (terms.mapM getKeyField).bind fun _ =>
      F.stages.lastDeclaredStage.map fun _ => (.nothing, F) := by
  unfold exitCall
  rw [if_neg (by decide), if_neg (by decide), if_pos rfl]

theorem exitCall_setNextStage {term : Term} :
    F.exitCall "setNextStage" [term] =
      some (.action (.stageTransition (.declared term.getText)),
        { F with stages := F.stages.referenceStage term.getText }) := by
  unfold exitCall
  rw [if_neg (by decide), if_neg (by decide), if_neg (by decide), if_pos rfl]

/-- Other names are those of macro actions and hardware actions. -/
theorem exitCall_of_reserved {id : String} {terms : List Term} (h : reserved id = false) :
    F.exitCall id terms = match F.macroActions.getMacroAction (some id) with
      | some actions => some (.actions actions, F)
      | none => (terms.mapM F.getOperand).bind fun args => (getAction id args).map fun action =>
        (.action (.sequentializable (.hardwareAction action)), F) := by
  unfold reserved at h
  simp only [Bool.or_eq_false_iff, decide_eq_false_iff_not] at h
  refine (if_neg h.1.1.1).trans ((if_neg h.1.1.2).trans ((if_neg h.1.2).trans ?_))
  refine (if_neg h.2).trans ?_
  cases F.macroActions.getMacroAction (some id) <;> rfl

theorem reserved_of_isSome {id : String} {args : List Operand} {action : HardwareAction}
    (h : getAction id args = some action) : reserved id = false := by
  obtain ⟨opcode, hopcode, -⟩ := Option.bind_eq_some_iff.mp h
  unfold reserved
  by_contra hreserved
  simp only [Bool.not_eq_false, Bool.or_eq_true, decide_eq_true_eq] at hreserved
  rcases hreserved with ((rfl | rfl) | rfl) | rfl <;> cases hopcode

/-- **An action that was met before resolves to the same later on.** -/
theorem Resolves.mono (h : Resolves F a x) (hE : Extends F G)
    (hG : NoMacroCall G.macroActions a) : Resolves G a x := by
  unfold Resolves at h ⊢
  cases a with
  | assignment identifier expr =>
    obtain ⟨y, hy, h⟩ := Option.map_eq_some_iff.mp h
    cases h
    rw [exitAction_assignment, hE.exitAssignment hy, Option.map_some]
  | call id terms =>
    rcases exitCall_cases h with ⟨term, rfl, rfl, hx, hF⟩ | ⟨name, fields, -, -, hx, -⟩ |
      ⟨-, hx, -⟩ | ⟨term, rfl, rfl, hx, hF⟩ | ⟨actions, -, -, hx, -⟩ |
      ⟨args, action, -, hargs, haction, hx, -⟩
    · cases hx
      have hstate : (F.states.referenceState term.getText).2 = F.states :=
        (congrArg Factories.states hF).symm
      have hget := hE.state (StateFactory.get_of_referenceState_eq hstate)
      rw [exitAction_call, exitCall_setNextState, StateFactory.referenceState_of_get hget]
    · cases hx
    · cases hx
    · cases hx
      have hmem : term.getText ∈ F.stages.stages.keys := by
        rw [congrArg Factories.stages hF]
        exact StageFactory.mem_keys_referenceStage_self
      rw [exitAction_call, exitCall_setNextStage,
        StageFactory.referenceStage_of_mem (hE.stage hmem)]
    · cases hx
    · cases hx
      have hreserved := reserved_of_isSome haction
      rw [exitAction_call, exitCall_of_reserved hreserved, hG id rfl hreserved]
      simp only [hE.operands hargs, Option.bind_some, haction, Option.map_some]

/-- **An action that is met resolves to the same from then on.** -/
theorem resolves_of_exitAction (h : F.exitAction a = some (.action x, G)) : Resolves G a x := by
  unfold Resolves
  cases a with
  | assignment identifier expr =>
    obtain ⟨y, -, hy⟩ := Option.map_eq_some_iff.mp h
    cases hy
    exact h
  | call id terms =>
    rcases exitCall_cases h with ⟨term, rfl, rfl, hx, rfl⟩ | ⟨name, fields, -, -, hx, -⟩ |
      ⟨-, hx, -⟩ | ⟨term, rfl, rfl, hx, rfl⟩ | ⟨actions, -, -, hx, -⟩ |
      ⟨args, action, -, hargs, haction, hx, rfl⟩
    · cases hx
      rw [exitAction_call, exitCall_setNextState,
        StateFactory.referenceState_of_get StateFactory.get_referenceState_self]
    · cases hx
    · cases hx
    · cases hx
      rw [exitAction_call, exitCall_setNextStage,
        StageFactory.referenceStage_of_mem StageFactory.mem_keys_referenceStage_self]
    · cases hx
    · exact h

/-- The factories with other macro actions. -/
def withMacros (F : Factories) (macroActions : MacroActionsFactory) : Factories :=
  { F with macroActions := macroActions }

theorem Extends.withMacros (h : Extends F G) {m m' : MacroActionsFactory} :
    Extends (F.withMacros m) (G.withMacros m') :=
  extends_of_getRegister h.register h.state h.stage

/-- **An action that calls no macro action** does not look at them. -/
theorem exitAction_withMacros {m : MacroActionsFactory} (hF : NoMacroCall F.macroActions a)
    (hm : NoMacroCall m a) :
    (F.withMacros m).exitAction a =
      (F.exitAction a).map fun (added, G) => (added, G.withMacros m) := by
  cases a with
  | assignment identifier expr =>
    rw [exitAction_assignment, exitAction_assignment, Option.map_map]
    rfl
  | call id terms =>
    rw [exitAction_call, exitAction_call]
    cases hreserved : reserved id with
    | false =>
      rw [exitCall_of_reserved hreserved, exitCall_of_reserved hreserved,
        show (F.withMacros m).macroActions.getMacroAction (some id) = none from
          hm id rfl hreserved, hF id rfl hreserved]
      simp only [Option.map_bind, Function.comp_def, Option.map_map]
      rfl
    | true =>
      unfold reserved at hreserved
      simp only [Bool.or_eq_true, decide_eq_true_eq] at hreserved
      rcases hreserved with ((rfl | rfl) | rfl) | rfl
      · unfold exitCall
        rw [if_pos rfl, if_pos rfl]
        cases terms with
        | nil => rfl
        | cons term terms => cases terms <;> rfl
      · simp only [exitCall_setFlowKey, Option.map_bind, Function.comp_def, Option.map_map]
        rfl
      · simp only [exitCall_setUpdateKey, Option.map_bind, Function.comp_def, Option.map_map]
        rfl
      · unfold exitCall
        rw [if_neg (by decide), if_neg (by decide), if_neg (by decide), if_pos rfl,
          if_neg (by decide), if_neg (by decide), if_neg (by decide), if_pos rfl]
        cases terms with
        | nil => rfl
        | cons term terms => cases terms <;> rfl

end Factories

end Xl

end FlowBlaze
