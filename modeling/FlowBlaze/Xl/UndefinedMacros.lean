import FlowBlaze.Xl.Learning
import FlowBlaze.Xl.MacroExpansion
/-!
# Undefined macro actions

A name that is called is looked up among the macro actions of the stage,
and then among the hardware actions. The macro actions that are there are
those defined so far, provided no serial block stands in the stage's own
body, and a call of anything else ends the compiler.
-/

namespace FlowBlaze

namespace Xl

open Common

namespace Factories

variable {F G : Factories} {a : ActionContext} {defined : List (Option String)}

/-! ## The names that are there -/

/-- **Every macro action that is there was defined.** -/
def Knows (defined : List (Option String)) (F : Factories) : Prop :=
  ∀ id, some id ∉ defined → F.macroActions.getMacroAction (some id) = none

theorem Knows.congr (h : Knows defined F) (hG : G.macroActions = F.macroActions) :
    Knows defined G := by
  unfold Knows
  rw [hG]
  exact h

/-- More names may be defined. -/
theorem Knows.mono {defined' : List (Option String)} (h : Knows defined F)
    (hsub : defined ⊆ defined') : Knows defined' F :=
  fun id hnot => h id fun hmem => hnot (hsub hmem)

/-- **An undefined action ends the compiler.** -/
theorem exitAction_of_undefined (hF : Knows defined F) (ha : a.Undefined defined) :
    F.exitAction a = none := by
  obtain ⟨id, hid, hreserved, hopcode, hnot⟩ := ha
  cases a with
  | assignment identifier expr => cases hid
  | call id' terms =>
    cases hid
    rw [exitAction_call, exitCall_of_reserved hreserved, hF id hnot]
    have hnone : ∀ args, getAction id args = none := fun args => by
      unfold getAction
      rw [hopcode]
      rfl
    simp only [hnone, Option.map_none]
    exact Option.bind_fun_none _

/-! ## Bodies and statements -/

theorem thread_actionsOf_of_undefined {actions : List ActionContext} (hF : Knows defined F)
    (hmem : a ∈ actions) (ha : a.Undefined defined) : thread actionsOf F actions = none := by
  refine thread_eq_none (I := Knows defined)
    (fun _ _ _ _ hF h => hF.congr (within_actionsOf h).macroActions) hmem (fun F hF => ?_) hF
  unfold actionsOf
  rw [exitAction_of_undefined hF ha]
  rfl

theorem elementActions_of_undefined {inEvent : Bool} {element : BodyElement}
    (hF : Knows defined F) (hmem : a ∈ element.actions) (ha : a.Undefined defined) :
    F.elementActions inEvent element = none := by
  cases element with
  | action b =>
    cases List.mem_singleton.mp hmem
    exact congrArg (Option.map _) (exitAction_of_undefined hF ha)
  | serial actions =>
    have hnone : thread actionsOf F actions = none := thread_actionsOf_of_undefined hF hmem ha
    unfold elementActions serialActions
    simp only [hnone, Option.map_none, Option.bind_none, ite_self]

/-- **A body with an undefined action.** -/
theorem bodyActions_of_undefined {inEvent : Bool} {body : List BodyElement}
    (hF : Knows defined F) (hmem : a ∈ actionsIn [body]) (ha : a.Undefined defined) :
    F.bodyActions inEvent body = none := by
  rw [actionsIn, List.flatMap_singleton] at hmem
  obtain ⟨element, he, hmem⟩ := List.mem_flatMap.mp hmem
  unfold bodyActions
  rw [thread_eq_none (f := (elementActions · inEvent)) (I := Knows defined)
    (fun _ _ _ _ hF h => hF.congr (within_elementActions h).macroActions) he
    (fun F hF => elementActions_of_undefined hF hmem ha) hF]
  rfl

theorem conditionStatement_of_undefined {c : ConditionStatementContext} (hF : Knows defined F)
    (hmem : a ∈ actionsIn [c.body]) (ha : a.Undefined defined) : F.conditionStatement c = none := by
  unfold conditionStatement
  cases hx : thread exitCondition F c.conditions with
  | none => rfl
  | some x =>
    simp only [Option.bind_some,
      bodyActions_of_undefined (hF.congr (within_exitConditions hx).macroActions) hmem ha,
      Option.map_none]

theorem eventStatement_of_undefined {b : EventStatementContext} (hF : Knows defined F)
    (hmem : a ∈ actionsIn [b.body] ∨ ∃ c ∈ b.conditionStatements, a ∈ actionsIn [c.body])
    (ha : a.Undefined defined) : F.eventStatement b = none := by
  unfold eventStatement
  cases Event.toEvent b.identifier with
  | none => rfl
  | some event =>
    cases hx : F.bodyActions true b.body with
    | none => rfl
    | some x =>
      rcases hmem with hmem | ⟨c, hc, hmem⟩
      · rw [bodyActions_of_undefined hF hmem ha] at hx
        cases hx
      · have hnone := thread_eq_none (f := conditionStatement) (I := Knows defined)
          (fun _ _ _ _ hF h => hF.congr (within_conditionStatement h).macroActions) hc
          (fun F hF => conditionStatement_of_undefined hF hmem ha)
          (hF.congr (within_bodyActions hx).macroActions)
        simp only [Option.bind_some, hnone, Option.map_none]

/-- **A state statement with an undefined action.** -/
theorem stateStatement_of_undefined {S : StateStatementContext} (hF : Knows defined F)
    (hmem : a ∈ actionsIn S.bodies) (ha : a.Undefined defined) : F.stateStatement S = none := by
  obtain ⟨body, hbody, hmem⟩ := List.mem_flatMap.mp hmem
  have hmem' : a ∈ actionsIn [body] := by
    rw [actionsIn, List.flatMap_singleton]
    exact hmem
  unfold stateStatement
  cases hx :
      { F with states := (F.states.declareState S.identifier).2 }.bodyActions false S.body with
  | none =>
    simp only [hx]
    rfl
  | some x =>
    simp only [hx, Option.bind_some]
    rcases List.mem_cons.mp hbody with rfl | hbody
    · have hstart : Knows defined
          { F with states := (F.states.declareState S.identifier).2 } := hF.congr rfl
      rw [bodyActions_of_undefined hstart hmem' ha] at hx
      cases hx
    · obtain ⟨b, hb, hbody⟩ := List.mem_flatMap.mp hbody
      have hevent : a ∈ actionsIn [b.body] ∨
          ∃ c ∈ b.conditionStatements, a ∈ actionsIn [c.body] := by
        rcases List.mem_cons.mp hbody with rfl | hbody
        · exact Or.inl hmem'
        · obtain ⟨c, hc, rfl⟩ := List.mem_map.mp hbody
          exact Or.inr ⟨c, hc, hmem'⟩
      have hnone := thread_eq_none (f := eventStatement) (I := Knows defined)
        (fun _ _ _ _ hF h => hF.congr (within_eventStatement h).macroActions) hb
        (fun F hF => eventStatement_of_undefined hF hevent ha)
        (hF.congr ((within_bodyActions hx).macroActions.trans rfl))
      simp only [hnone, Option.map_none]

/-! ## Definitions -/

theorem knows_addToMacro {name : Option String} {x : Action} (hF : Knows defined F)
    (h : F.addToMacro name x = some G) : Knows defined G := by
  obtain ⟨m, hm, rfl⟩ := Option.map_eq_some_iff.mp h
  unfold MacroActionsFactory.addAction at hm
  split at hm
  · next hcontains =>
    cases hm
    intro id hnot
    have hnone := hF id hnot
    unfold MacroActionsFactory.getMacroAction at hnone ⊢
    have hne : some id ≠ name := by
      rintro rfl
      rw [LinkedHashMap.get_eq_none_iff.mp hnone] at hcontains
      cases hcontains
    rw [LinkedHashMap.get_modify, if_neg hne, hnone]
  · cases hm

theorem knows_createMacro {name : Option String} (hF : Knows defined F)
    (h : F.createMacro name = some G) : Knows (defined ++ [name]) G := by
  obtain ⟨m, hm, rfl⟩ := Option.map_eq_some_iff.mp h
  unfold MacroActionsFactory.createEmptyMacroAction at hm
  split at hm
  · cases hm
  · cases hm
    intro id hnot
    rw [List.mem_append, not_or, List.mem_singleton] at hnot
    unfold MacroActionsFactory.getMacroAction
    rw [LinkedHashMap.get_put, if_neg hnot.2]
    exact hF id hnot.1

theorem knows_macroElement {name : Option String} {element : BodyElement} (hF : Knows defined F)
    (h : F.macroElement name element = some G) : Knows defined G := by
  cases element with
  | action a =>
    obtain ⟨⟨added, F'⟩, hx, h⟩ := Option.bind_eq_some_iff.mp h
    have hF' := hF.congr (within_exitAction hx).macroActions
    cases added with
    | action x => exact knows_addToMacro hF' h
    | nothing =>
      cases h
      exact hF'
    | actions xs =>
      cases h
      exact hF'
  | serial actions =>
    obtain ⟨x, hx, h⟩ := Option.bind_eq_some_iff.mp h
    exact knows_addToMacro (hF.congr (within_serialActions hx).macroActions) h

theorem knows_macroAction {name : Option String} {body : List BodyElement} (hF : Knows defined F)
    (h : F.macroAction name body = some G) : Knows (defined ++ [name]) G := by
  obtain ⟨F', hF', h⟩ := Option.bind_eq_some_iff.mp h
  exact foldlM_invariant (fun _ _ _ hF h => knows_macroElement hF h) (knows_createMacro hF hF') h

/-- **The body of a macro action with an undefined action.** -/
theorem macroAction_of_undefined {name : Option String} {body : List BodyElement}
    (hF : Knows defined F) (hmem : a ∈ actionsIn [body]) (ha : a.Undefined (defined ++ [name])) :
    F.macroAction name body = none := by
  rw [actionsIn, List.flatMap_singleton] at hmem
  obtain ⟨element, he, hmem⟩ := List.mem_flatMap.mp hmem
  unfold macroAction
  cases hF' : F.createMacro name with
  | none => rfl
  | some F' =>
    refine foldlM_eq_none (I := Knows (defined ++ [name]))
      (fun _ _ _ hF h => knows_macroElement hF h) he (fun F hF => ?_) (knows_createMacro hF hF')
    unfold macroElement
    cases element with
    | action b =>
      cases List.mem_singleton.mp hmem
      simp only [exitAction_of_undefined hF ha, Option.bind_none]
    | serial actions =>
      have hnone : thread actionsOf F actions = none := thread_actionsOf_of_undefined hF hmem ha
      unfold serialActions
      simp only [hnone, Option.bind_none]

/-- A definition defines its name only. -/
theorem knows_definition {s s' : Factories × Option String} {d : Definition}
    {results : List ConditionResult} (hs : Knows defined s.1)
    (h : definition s d = some (results, s')) : Knows (defined ++ [d.macroName]) s'.1 := by
  cases d with
  | register global identifiers =>
    obtain ⟨F, hF, h⟩ := Option.map_eq_some_iff.mp h
    cases h
    exact (hs.congr (within_allocateRegisters hF).macroActions).mono (List.subset_append_left _ _)
  | customEvent conditions =>
    obtain ⟨x, hx, h⟩ := Option.map_eq_some_iff.mp h
    cases h
    exact (hs.congr (within_exitConditions hx).macroActions).mono (List.subset_append_left _ _)
  | macroAction identifier body =>
    obtain ⟨F, hF, h⟩ := Option.map_eq_some_iff.mp h
    cases h
    exact knows_macroAction hs hF

/-- After definitions. -/
theorem knows_definitions {s s' : Factories × Option String} {definitions : List Definition}
    {results : List (List ConditionResult)} (hs : Knows defined s.1)
    (h : thread definition s definitions = some (results, s')) :
    Knows (defined ++ definitions.map (·.macroName)) s'.1 := by
  induction definitions generalizing s defined results with
  | nil =>
    cases h
    rw [List.map_nil, List.append_nil]
    exact hs
  | cons d definitions ih =>
    obtain ⟨b, u, bs, hd, h, -⟩ := thread_cons.mp h
    have hrest := ih (knows_definition hs hd) h
    rwa [List.append_assoc] at hrest

/-- **A definition with an undefined action.** -/
theorem definitions_of_undefined {s : Factories × Option String} {before after : List Definition}
    {d : Definition} (hs : Knows defined s.1) (hmem : a ∈ actionsIn [d.macroBody])
    (ha : a.Undefined (defined ++ (before ++ [d]).map (·.macroName))) :
    thread definition s (before ++ d :: after) = none := by
  rw [thread_append]
  cases hx : thread definition s before with
  | none => rfl
  | some x =>
    obtain ⟨results, u⟩ := x
    have hu := knows_definitions hs hx
    rw [List.map_append, ← List.append_assoc] at ha
    have hd : definition u d = none := by
      cases d with
      | register global identifiers => cases hmem
      | customEvent conditions => cases hmem
      | macroAction identifier body =>
        exact congrArg (Option.map _) (macroAction_of_undefined hu hmem ha)
    simp only [Option.bind_some, thread, hd, Option.bind_none, Option.map_none]

/-! ## Stages and programs -/

/-- An action of a stage's body leaves the macro actions. -/
theorem knows_stageElement {c : Option String} {b : ActionContext} (hF : Knows defined F)
    (h : F.stageElement c (.action b) = some G) : Knows defined G := by
  obtain ⟨x, hx, rfl⟩ := Option.map_eq_some_iff.mp h
  exact hF.congr (within_exitAction hx).macroActions

/-- A stage's body with an undefined action. -/
theorem stageBody_of_undefined {c : Option String} {body : List BodyElement}
    (hbody : ∀ element ∈ body, ∃ b, element = .action b) (hF : Knows defined F)
    (hmem : a ∈ actionsIn [body]) (ha : a.Undefined defined) :
    body.foldlM (Factories.stageElement · c ·) F = none := by
  rw [actionsIn, List.flatMap_singleton] at hmem
  induction body generalizing F with
  | nil => cases hmem
  | cons e body ih =>
    obtain ⟨b, rfl⟩ := hbody e List.mem_cons_self
    rw [List.foldlM_cons]
    cases hb : F.stageElement c (.action b) with
    | none => rfl
    | some G =>
      rcases List.mem_cons.mp hmem with rfl | hmem
      · have hnone : F.stageElement c (.action a) = none :=
          congrArg (Option.map _) (exitAction_of_undefined hF ha)
        rw [hnone] at hb
        cases hb
      · exact ih (fun e he => hbody e (List.mem_cons_of_mem _ he)) (knows_stageElement hF hb) hmem

theorem knows_stageBody {c : Option String} {body : List BodyElement}
    (hbody : ∀ element ∈ body, ∃ b, element = .action b) (hF : Knows defined F)
    (h : body.foldlM (Factories.stageElement · c ·) F = some G) : Knows defined G := by
  induction body generalizing F with
  | nil =>
    cases h
    exact hF
  | cons e body ih =>
    obtain ⟨b, rfl⟩ := hbody e List.mem_cons_self
    rw [List.foldlM_cons] at h
    obtain ⟨F', hF', h⟩ := Option.bind_eq_some_iff.mp h
    exact ih (fun e he => hbody e (List.mem_cons_of_mem _ he)) (knows_stageElement hF hF') h

/-- **A stage that calls an undefined macro action** ends the compiler. -/
theorem stageStatement_of_undefined {T : StageStatementContext} (hT : T.CallsUndefined)
    (hbody : ∀ element ∈ T.body, ∃ b, element = .action b) {c : Option String}
    (hF : F.macroActions = []) : stageStatement (F, c) T = none := by
  have hstart : Knows [] { F with stages := F.stages.declareStage T.identifier } := by
    intro id _
    change F.macroActions.getMacroAction (some id) = none
    rw [hF]
    rfl
  unfold stageStatement
  simp only
  cases hx : thread definition
    ({ F with stages := F.stages.declareStage T.identifier }, c) T.definitions with
  | none => rfl
  | some x =>
    obtain ⟨results, s⟩ := x
    rcases hT with ⟨before, d, after, hT, a, hmem, ha⟩ | ⟨a, hmem, ha⟩
    · rw [hT, definitions_of_undefined (s := ({ F with
        stages := F.stages.declareStage T.identifier }, c)) hstart hmem ha] at hx
      cases hx
    · have hdefined := knows_definitions hstart hx
      rw [List.nil_append] at hdefined
      rw [Option.bind_some]
      rcases List.mem_append.mp hmem with hmem | hmem
      · simp only [stageBody_of_undefined hbody hdefined hmem ha, Option.bind_none]
      · cases hG : T.body.foldlM (Factories.stageElement · s.2 ·) s.1 with
        | none => simp only [Option.bind_none]
        | some G =>
          obtain ⟨body, hb, hmem⟩ := List.mem_flatMap.mp hmem
          obtain ⟨S, hS, hb⟩ := List.mem_flatMap.mp hb
          have hnone := thread_eq_none (f := stateStatement)
            (I := Knows (T.definitions.map (·.macroName)))
            (fun _ _ _ _ hF h => hF.congr (within_stateStatement h).macroActions) hS
            (fun F hF => stateStatement_of_undefined hF (List.mem_flatMap.mpr ⟨body, hb, hmem⟩) ha)
            (knows_stageBody hbody hdefined hG)
          simp only [Option.bind_some, hnone, Option.bind_none]

/-- A stage forgets its macro actions. -/
theorem macroActions_stageStatement {s s' : Factories × Option String} {T : StageStatementContext}
    {R : ResolvedStage} (h : stageStatement s T = some (R, s')) : s'.1.macroActions = [] := by
  obtain ⟨_, -, h⟩ := Option.bind_eq_some_iff.mp h
  obtain ⟨_, -, h⟩ := Option.bind_eq_some_iff.mp h
  obtain ⟨_, -, h⟩ := Option.bind_eq_some_iff.mp h
  obtain ⟨_, -, h⟩ := Option.map_eq_some_iff.mp h
  cases h
  rfl

/-- Outside of stages there are no macro actions. -/
theorem macroActions_topDefinition {s s' : Factories × Option String} {d : Definition}
    {results : List ConditionResult} (hs : s.1.macroActions = [])
    (h : Factories.topDefinition s d = some (results, s')) : s'.1.macroActions = [] := by
  cases d with
  | register global identifiers =>
    obtain ⟨F, hF, h⟩ := Option.map_eq_some_iff.mp h
    cases h
    exact (within_allocateRegisters hF).macroActions.trans hs
  | customEvent conditions =>
    obtain ⟨⟨results, F⟩, hF, h⟩ := Option.map_eq_some_iff.mp h
    cases h
    exact (within_exitConditions hF).macroActions.trans hs
  | macroAction identifier body => cases h

/-- **A program that calls an undefined macro action** does not resolve. -/
theorem program_of_undefined {P : ProgramContext} {T : StageStatementContext} (hP : T ∈ P.stages)
    (hT : T.CallsUndefined) (hbody : ∀ element ∈ T.body, ∃ b, element = .action b) :
    program (.initial, none) P = none := by
  cases P with
  | stageProgram definitions stages =>
    change (thread topDefinition (.initial, none) definitions).bind _ = none
    cases htop : thread topDefinition (.initial, none) definitions with
    | none => rfl
    | some x =>
      have hmacros : x.2.1.macroActions = [] := thread_invariant
        (I := fun s : Factories × Option String => s.1.macroActions = [])
        (fun s d results s' hs h => macroActions_topDefinition hs h) rfl htop
      have hnone : thread stageStatement x.2 stages = none := thread_eq_none
        (I := fun s : Factories × Option String => s.1.macroActions = [])
        (fun _ _ _ _ _ h => macroActions_stageStatement h) hP
        (fun s hs => stageStatement_of_undefined hT hbody hs) hmacros
      change (thread stageStatement x.2 stages).map _ = none
      rw [hnone]
      rfl
  | stateProgram definitions states =>
    cases List.mem_singleton.mp hP
    change (stageStatement (.initial, none) _).map _ = none
    rw [stageStatement_of_undefined hT hbody rfl]
    rfl

end Factories

/-- **The compiler rejects a program that calls an undefined macro action.** -/
theorem compile_of_undefined (orders : Orders) {P : ProgramContext} {T : StageStatementContext}
    (hP : T ∈ P.stages) (hT : T.CallsUndefined)
    (hbody : ∀ element ∈ T.body, ∃ b, element = .action b) : compile orders P = none := by
  unfold compile
  rw [walkProgram_eq, Factories.program_of_undefined hP hT hbody]
  rfl

end Xl

end FlowBlaze
