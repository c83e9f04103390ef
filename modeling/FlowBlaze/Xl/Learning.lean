import FlowBlaze.Xl.ResolvedProgram
import FlowBlaze.Xl.Scope
/-!
# What a stage teaches the factories

Every construct of a stage only adds names, and the statements leave the
macro actions as the definitions made them.
-/

namespace FlowBlaze

namespace Xl

open Common

namespace Factories

variable {F G : Factories} {a : ActionContext}

/-! ## Statements -/

theorem within_thread {α β : Type} {f : Factories → α → Option (β × Factories)}
    (hstep : ∀ {F G a b}, f F a = some (b, G) → Within F G) {as : List α} {bs : List β}
    (h : thread f F as = some (bs, G)) : Within F G :=
  thread_invariant (I := Within F) (fun _ _ _ _ hF h => hF.trans (hstep h)) (.refl F) h

theorem within_actionsOf {added : List Action} (h : F.actionsOf a = some (added, G)) :
    Within F G := by
  obtain ⟨x, hx, h⟩ := Option.map_eq_some_iff.mp h
  cases h
  exact within_exitAction hx

theorem within_serialActions {actions : List ActionContext}
    {added : List SequentializableAction} (h : F.serialActions actions = some (added, G)) :
    Within F G := by
  obtain ⟨x, hx, h⟩ := Option.bind_eq_some_iff.mp h
  obtain ⟨_, -, h⟩ := Option.map_eq_some_iff.mp h
  cases h
  exact within_thread within_actionsOf hx

theorem within_elementActions {inEvent : Bool} {element : BodyElement} {added : List Action}
    (h : F.elementActions inEvent element = some (added, G)) : Within F G := by
  cases element with
  | action a => exact within_actionsOf h
  | serial actions =>
    unfold elementActions at h
    cases inEvent with
    | true =>
      obtain ⟨x, hx, h⟩ := Option.map_eq_some_iff.mp h
      cases h
      exact within_thread within_actionsOf hx
    | false =>
      obtain ⟨x, hx, h⟩ := Option.map_eq_some_iff.mp h
      cases h
      exact within_serialActions hx

/-- A body. -/
theorem within_bodyActions {inEvent : Bool} {body : List BodyElement} {added : List Action}
    (h : F.bodyActions inEvent body = some (added, G)) : Within F G := by
  obtain ⟨x, hx, h⟩ := Option.map_eq_some_iff.mp h
  cases h
  exact within_thread within_elementActions hx

theorem within_exitCondition {c : ConditionContext} {result : ConditionResult}
    (h : F.exitCondition c = some (result, G)) : Within F G := by
  obtain ⟨_, -, h⟩ := Option.bind_eq_some_iff.mp h
  obtain ⟨_, -, h⟩ := Option.bind_eq_some_iff.mp h
  obtain ⟨_, -, h⟩ := Option.map_eq_some_iff.mp h
  cases h
  exact ⟨⟨extends_of_registers rfl rfl (fun h => h) fun h => h, rfl, id⟩, rfl⟩

theorem within_exitConditions {cs : List ConditionContext} {results : List ConditionResult}
    (h : thread exitCondition F cs = some (results, G)) : Within F G :=
  within_thread within_exitCondition h

theorem within_conditionStatement {c : ConditionStatementContext}
    {statement : ConditionStatement ConditionResult}
    (h : F.conditionStatement c = some (statement, G)) : Within F G := by
  obtain ⟨x, hx, h⟩ := Option.bind_eq_some_iff.mp h
  obtain ⟨y, hy, h⟩ := Option.map_eq_some_iff.mp h
  cases h
  exact (within_exitConditions hx).trans (within_bodyActions hy)

theorem within_eventStatement {b : EventStatementContext}
    {statement : EventStatement ConditionResult}
    (h : F.eventStatement b = some (statement, G)) : Within F G := by
  obtain ⟨event, -, h⟩ := Option.bind_eq_some_iff.mp h
  obtain ⟨x, hx, h⟩ := Option.bind_eq_some_iff.mp h
  obtain ⟨y, hy, h⟩ := Option.map_eq_some_iff.mp h
  cases h
  exact (within_bodyActions hx).trans (within_thread within_conditionStatement hy)

theorem within_declareState {name : String} :
    Within F { F with states := (F.states.declareState name).2 } :=
  ⟨⟨extends_of_registers rfl rfl StateFactory.get_declareState fun h => h, rfl, id⟩, rfl⟩

/-- **A state statement.** -/
theorem within_stateStatement {S : StateStatementContext}
    {statement : Bool × StateStatement ConditionResult}
    (h : F.stateStatement S = some (statement, G)) : Within F G := by
  obtain ⟨x, hx, h⟩ := Option.bind_eq_some_iff.mp h
  obtain ⟨y, hy, h⟩ := Option.map_eq_some_iff.mp h
  cases h
  exact within_declareState.trans ((within_bodyActions hx).trans
    (within_thread within_eventStatement hy))

/-! ## Definitions -/

/-- A register that is allocated is new in both factories, and leaves the
other registers. -/
theorem getRegister_allocateRegister {A B A' : RegisterFactory} {cls : RegisterClass}
    {name : String} (h : A.allocateRegister name cls B = some A') :
    A.getRegister name = none ∧ B.getRegister name = none ∧
      ∀ other, other ≠ name → A'.getRegister other = A.getRegister other := by
  unfold RegisterFactory.allocateRegister at h
  split at h
  · cases h
  · next hpresent =>
    cases h
    rw [Bool.or_eq_true, not_or, Bool.not_eq_true, Bool.not_eq_true] at hpresent
    refine ⟨LinkedHashMap.get_eq_none_iff.mpr hpresent.2,
      LinkedHashMap.get_eq_none_iff.mpr hpresent.1, fun other hne => ?_⟩
    unfold RegisterFactory.getRegister
    rw [LinkedHashMap.get_put, if_neg hne]

/-- A register leaves the other names. -/
theorem within_allocateRegister {global : Bool} {name : String}
    (h : F.allocateRegister global name = some G) : Within F G := by
  unfold allocateRegister at h
  split at h
  · obtain ⟨registers, hregisters, rfl⟩ := Option.map_eq_some_iff.mp h
    obtain ⟨hglobal, hlocal, hother⟩ := getRegister_allocateRegister hregisters
    refine ⟨⟨extends_of_getRegister (fun {other r} hr => ?_) (fun hs => hs) fun hs => hs, rfl, id⟩,
      rfl⟩
    unfold getRegister at hr ⊢
    by_cases hne : other = name
    · rw [hne, hlocal, hglobal] at hr
      cases hr
    · rwa [hother other hne]
  · obtain ⟨registers, hregisters, rfl⟩ := Option.map_eq_some_iff.mp h
    obtain ⟨hlocal, hglobal, hother⟩ := getRegister_allocateRegister hregisters
    refine ⟨⟨extends_of_getRegister (fun {other r} hr => ?_) (fun hs => hs) fun hs => hs, rfl, id⟩,
      rfl⟩
    unfold getRegister at hr ⊢
    by_cases hne : other = name
    · rw [hne, hlocal, hglobal] at hr
      cases hr
    · rwa [hother other hne]

theorem within_allocateRegisters {global : Bool} {identifiers : List String}
    (h : identifiers.foldlM (Factories.allocateRegister · global ·) F = some G) : Within F G :=
  foldlM_invariant (I := Within F) (fun _ _ _ hF h => hF.trans (within_allocateRegister h))
    (.refl F) h

/-- Other macro actions, the same names. -/
theorem learns_withMacros (m : MacroActionsFactory) : Learns F { F with macroActions := m } :=
  ⟨extends_of_registers rfl rfl (fun h => h) fun h => h, rfl, id⟩

theorem learns_macroElement {name : Option String} {element : BodyElement}
    (h : F.macroElement name element = some G) : Learns F G := by
  cases element with
  | action a =>
    obtain ⟨⟨added, F'⟩, hx, h⟩ := Option.bind_eq_some_iff.mp h
    have hF' := (within_exitAction hx).learns
    cases added with
    | action x =>
      obtain ⟨m, -, rfl⟩ := Option.map_eq_some_iff.mp h
      exact hF'.trans (learns_withMacros m)
    | nothing =>
      cases h
      exact hF'
    | actions xs =>
      cases h
      exact hF'
  | serial actions =>
    obtain ⟨x, hx, h⟩ := Option.bind_eq_some_iff.mp h
    obtain ⟨m, -, rfl⟩ := Option.map_eq_some_iff.mp h
    exact (within_serialActions hx).learns.trans (learns_withMacros m)

theorem learns_macroAction {name : Option String} {body : List BodyElement}
    (h : F.macroAction name body = some G) : Learns F G := by
  obtain ⟨F', hF', h⟩ := Option.bind_eq_some_iff.mp h
  obtain ⟨m, -, rfl⟩ := Option.map_eq_some_iff.mp hF'
  exact foldlM_invariant (I := Learns F) (fun _ _ _ hF h => hF.trans (learns_macroElement h))
    (learns_withMacros m) h

theorem learns_definition {s s' : Factories × Option String} {d : Definition}
    {results : List ConditionResult} (h : definition s d = some (results, s')) :
    Learns s.1 s'.1 := by
  cases d with
  | register global identifiers =>
    obtain ⟨F, hF, h⟩ := Option.map_eq_some_iff.mp h
    cases h
    exact (within_allocateRegisters hF).learns
  | customEvent conditions =>
    obtain ⟨x, hx, h⟩ := Option.map_eq_some_iff.mp h
    cases h
    exact (within_exitConditions hx).learns
  | macroAction identifier body =>
    obtain ⟨F, hF, h⟩ := Option.map_eq_some_iff.mp h
    cases h
    exact learns_macroAction hF

theorem learns_definitions {s s' : Factories × Option String} {definitions : List Definition}
    {results : List (List ConditionResult)}
    (h : thread definition s definitions = some (results, s')) : Learns s.1 s'.1 :=
  thread_invariant (I := fun s' => Learns s.1 s'.1)
    (fun _ _ _ _ hs h => hs.trans (learns_definition h)) (.refl s.1) h

/-- **A stage's body.** -/
theorem learns_stageBody {c : Option String} {body : List BodyElement}
    (h : body.foldlM (Factories.stageElement · c ·) F = some G) : Learns F G := by
  refine foldlM_invariant (I := Learns F) (fun F' element G' hF h => hF.trans ?_) (.refl F) h
  cases element with
  | action a =>
    obtain ⟨x, hx, rfl⟩ := Option.map_eq_some_iff.mp h
    exact (within_exitAction hx).learns
  | serial actions => exact learns_macroAction h

/-! ## Keeping macro actions -/

variable {name : Option String} {zs : List Action} {x : Action}

/-- An action is added to a macro action that is there. -/
theorem addToMacro_of_get (h : F.macroActions.getMacroAction name = some zs) :
    ∃ m, F.addToMacro name x = some (F.withMacros m) ∧
      MacroActionsFactory.getMacroAction m name = some (zs ++ [x]) ∧
      ∀ other, other ≠ name →
        MacroActionsFactory.getMacroAction m other = F.macroActions.getMacroAction other := by
  have hcontains : F.macroActions.containsKey (.ofEq _) name = true := by
    by_contra hnot
    rw [Bool.not_eq_true] at hnot
    have hnone : F.macroActions.getMacroAction name = none := LinkedHashMap.get_eq_none_iff.mpr hnot
    rw [hnone] at h
    cases h
  refine ⟨F.macroActions.modify (.ofEq _) name fun actions => actions ++ [x], ?_, ?_,
    fun other hne => ?_⟩
  · unfold addToMacro MacroActionsFactory.addAction
    rw [if_pos hcontains]
    rfl
  · unfold MacroActionsFactory.getMacroAction at h ⊢
    rw [LinkedHashMap.get_modify, if_pos rfl, h, Option.map_some]
  · unfold MacroActionsFactory.getMacroAction
    rw [LinkedHashMap.get_modify, if_neg hne]

/-- A macro action that is not there is made. -/
theorem createMacro_of_none (h : F.macroActions.getMacroAction name = none) :
    ∃ m, F.createMacro name = some (F.withMacros m) ∧
      MacroActionsFactory.getMacroAction m name = some [] ∧
      ∀ other, other ≠ name →
        MacroActionsFactory.getMacroAction m other = F.macroActions.getMacroAction other := by
  refine ⟨F.macroActions.put (.ofEq _) name [], ?_, ?_, fun other hne => ?_⟩
  · unfold createMacro MacroActionsFactory.createEmptyMacroAction
    rw [LinkedHashMap.get_eq_none_iff.mp h, if_neg Bool.false_ne_true]
    rfl
  · unfold MacroActionsFactory.getMacroAction
    rw [LinkedHashMap.get_put, if_pos rfl]
  · unfold MacroActionsFactory.getMacroAction
    rw [LinkedHashMap.get_put, if_neg hne]

/-- A macro action is not defined twice. -/
theorem createMacro_of_ne_none (h : F.macroActions.getMacroAction name ≠ none) :
    F.createMacro name = none := by
  have hcontains : F.macroActions.containsKey (.ofEq _) name = true := by
    by_contra hnot
    rw [Bool.not_eq_true] at hnot
    exact h (LinkedHashMap.get_eq_none_iff.mpr hnot)
  unfold createMacro MacroActionsFactory.createEmptyMacroAction
  rw [if_pos hcontains]
  rfl

end Factories

end Xl

end FlowBlaze
