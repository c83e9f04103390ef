import FlowBlaze.Xl.MacroExpansion
/-!
# The compiler replays macro actions

The compiler keeps a macro action as the list of actions that its body
brought when it was defined. The program and its expansion are resolved
side by side here: their factories differ in the macro actions only, and
a replayed list is what the expanded body resolves to. Actions that a
macro action takes from another one are left out by the compiler, so the
two agree where no such macro action is called for a row.
-/

namespace FlowBlaze

namespace Xl

open Common

namespace Factories

/-! ## Two factories side by side -/

/-- The action calls none of these names. -/
def Fresh (names : List (Option String)) (a : ActionContext) : Prop :=
  ∀ id, a.callee = some id → reserved id = false → some id ∉ names

/-- An expanded body stands for these actions. -/
def StandsFor (names : List (Option String)) (G : Factories) (body : List BodyElement)
    (xs : List Action) : Prop :=
  List.Forall₂ (fun element x => ∃ a, element = .action a ∧ Fresh names a ∧ G.Resolves a x) body xs

/-- **The factories of a program and of its expansion**: both know the
macro actions defined so far and those being defined, the second under new
names. -/
structure Replays (rename : String → String) (names : List (Option String)) (lossy : List String)
    (macros : Macros) (pending : List String) (F G : Factories) : Prop where
  eq : G = F.withMacros G.macroActions
  original : ∀ id, F.macroActions.getMacroAction (some id) = none ↔
    id ∉ macros.map Prod.fst ++ pending
  renamed : ∀ id, G.macroActions.getMacroAction (some (rename id)) = none ↔
    id ∉ macros.map Prod.fst ++ pending
  named : ∀ name, name ∉ names → G.macroActions.getMacroAction name = none
  bodies : ∀ id body, macros.body id = some body → ∃ xs, StandsFor names G body xs ∧
    (id ∉ lossy → F.macroActions.getMacroAction (some id) = some xs)

variable {rename : String → String} {names : List (Option String)} {lossy : List String}
  {macros : Macros} {pending : List String} {F F' G G' : Factories} {a : ActionContext}
  {body : List BodyElement} {xs : List Action} {m : MacroActionsFactory}

/-- Fresh actions call no macro action. -/
theorem Fresh.noMacroCall (ha : Fresh names a)
    (hm : ∀ name, name ∉ names → m.getMacroAction name = none) : NoMacroCall m a :=
  fun id hid hreserved => hm _ (ha id hid hreserved)

/-- **What a body stands for, it stands for later.** -/
theorem StandsFor.mono (h : StandsFor names G body xs) (hE : Extends G G')
    (hnamed : ∀ name, name ∉ names → G'.macroActions.getMacroAction name = none) :
    StandsFor names G' body xs :=
  h.imp fun _ _ ⟨a, he, ha, hx⟩ => ⟨a, he, ha, hx.mono hE (ha.noMacroCall hnamed)⟩

/-- **Replaying goes on** when the factories learn names. -/
theorem Replays.grow (h : Replays rename names lossy macros pending F G) (hE : Extends F F')
    (hmacros : F'.macroActions = F.macroActions) :
    Replays rename names lossy macros pending F' (F'.withMacros G.macroActions) where
  eq := rfl
  original := hmacros ▸ h.original
  renamed := h.renamed
  named := h.named
  bodies id body hbody := by
    obtain ⟨xs, hxs, hlossy⟩ := h.bodies id body hbody
    rw [h.eq] at hxs
    exact ⟨xs, hxs.mono hE.withMacros h.named, hmacros ▸ hlossy⟩

/-! ## Actions -/

/-- Nothing is called that was defined. -/
theorem Replays.noMacroCall (h : Replays rename names lossy macros pending F G)
    (hcalled : macros.called a = none) (hpending : ∀ id ∈ pending, a.callee ≠ some id) :
    NoMacroCall F.macroActions a := by
  intro id hid hreserved
  rw [h.original, List.mem_append, not_or]
  refine ⟨fun hmem => ?_, fun hmem => hpending id hmem hid⟩
  cases a with
  | assignment identifier expr => cases hid
  | call id' terms =>
    cases hid
    rw [Macros.called_call, hreserved, if_neg Bool.false_ne_true] at hcalled
    obtain ⟨e, he, rfl⟩ := List.mem_map.mp hmem
    have hnone := List.find?_eq_none.mp (Option.map_eq_none_iff.mp hcalled) e he
    exact hnone (beq_self_eq_true e.1)

/-- **An action that calls no macro action** resolves alike. -/
theorem Replays.exitAction (h : Replays rename names lossy macros pending F G)
    (hcalled : macros.called a = none) (hpending : ∀ id ∈ pending, a.callee ≠ some id)
    (ha : Fresh names a) :
    Option.Rel (fun x y => x.1 = y.1 ∧ Replays rename names lossy macros pending x.2 y.2 ∧
      x.2.macroActions = F.macroActions ∧ y.2.macroActions = G.macroActions ∧
      Extends F x.2) (F.exitAction a) (G.exitAction a) := by
  have heq : G.exitAction a =
      (F.exitAction a).map fun x => (x.1, x.2.withMacros G.macroActions) := by
    conv_lhs => rw [h.eq]
    exact exitAction_withMacros (h.noMacroCall hcalled hpending) (ha.noMacroCall h.named)
  rw [heq]
  cases hx : F.exitAction a with
  | none => exact .none
  | some x =>
    have hwithin := within_exitAction hx
    exact .some ⟨rfl, h.grow hwithin.learns.extend hwithin.macroActions, hwithin.macroActions, rfl,
      hwithin.learns.extend⟩

/-- **A macro call is replayed.** -/
theorem Replays.called (h : Replays rename names lossy macros pending F G)
    (hcalled : macros.called a = some body) : ∃ id xs ys, a.callee = some id ∧
      reserved id = false ∧ F.exitAction a = some (.actions ys, F) ∧
      StandsFor names G body xs ∧ (id ∉ lossy → ys = xs) := by
  cases a with
  | assignment identifier expr => cases hcalled
  | call id terms =>
    rw [Macros.called_call] at hcalled
    cases hreserved : reserved id with
    | true =>
      rw [hreserved, if_pos rfl] at hcalled
      cases hcalled
    | false =>
      rw [hreserved, if_neg Bool.false_ne_true] at hcalled
      obtain ⟨xs, hxs, hlossy⟩ := h.bodies id body hcalled
      have hsome : F.macroActions.getMacroAction (some id) ≠ none := by
        rw [Ne, h.original, not_not]
        obtain ⟨e, he, -⟩ := Option.map_eq_some_iff.mp hcalled
        have hid : e.1 = id :=
          eq_of_beq (List.find?_some (p := fun m : String × List BodyElement => m.1 == id) he)
        exact List.mem_append_left _ (hid ▸ List.mem_map_of_mem (List.mem_of_find?_eq_some he))
      obtain ⟨ys, hys⟩ := Option.ne_none_iff_exists'.mp hsome
      refine ⟨id, xs, ys, rfl, hreserved, ?_, hxs, fun hnot => ?_⟩
      · rw [exitAction_call, exitCall_of_reserved hreserved, hys]
      · exact Option.some.inj (hys.symm.trans (hlossy hnot))

/-- What an expanded body brings. -/
theorem StandsFor.thread (h : StandsFor names G body xs) (inEvent : Bool) :
    thread (elementActions · inEvent) G body = some (xs.map fun x => [x], G) := by
  induction h with
  | nil => rfl
  | cons hx hxs ih =>
    obtain ⟨a, rfl, -, hx⟩ := hx
    have hstep : G.elementActions inEvent (.action a) = some ([_], G) :=
      congrArg (Option.map _) hx
    rw [Common.thread, hstep, Option.bind_some]
    simp only [ih, Option.map_some, List.map_cons]

/-- Elements that are actions. -/
theorem thread_actionsOf_of_plain {inEvent : Bool} {body : List BodyElement}
    (h : ∀ element ∈ body, ∃ a, element = .action a) :
    thread actionsOf G (body.flatMap BodyElement.actions) =
      thread (elementActions · inEvent) G body := by
  induction body generalizing G with
  | nil => rfl
  | cons element body ih =>
    obtain ⟨a, rfl⟩ := h element List.mem_cons_self
    rw [List.flatMap_cons]
    change (G.actionsOf a).bind _ = (G.actionsOf a).bind _
    refine Option.bind_congr fun x _ => ?_
    obtain ⟨added, G'⟩ := x
    change Option.map _ (thread actionsOf G' (body.flatMap BodyElement.actions)) = _
    rw [ih fun e he => h e (List.mem_cons_of_mem _ he)]

theorem StandsFor.plain (h : StandsFor names G body xs) :
    ∀ element ∈ body, ∃ a, element = .action a := by
  induction h with
  | nil => exact fun _ h => by cases h
  | cons hx _ ih =>
    intro element he
    rcases List.mem_cons.mp he with rfl | he
    · obtain ⟨a, ha, -⟩ := hx
      exact ⟨a, ha⟩
    · exact ih element he

/-- Expanded actions are actions. -/
theorem Replays.plain (h : Replays rename names lossy macros pending F G) :
    ∀ element ∈ expandAction macros a, ∃ b, element = .action b := by
  unfold expandAction
  cases hcalled : macros.called a with
  | none => exact fun element he => ⟨a, List.mem_singleton.mp he⟩
  | some body =>
    obtain ⟨_, xs, _, -, -, -, hxs, -⟩ := h.called hcalled
    exact hxs.plain

end Factories

/-- **The action calls no macro action that loses actions.** -/
def ActionContext.Keeps (lossy : List String) (a : ActionContext) : Prop :=
  ∀ id ∈ lossy, reserved id = false → a.callee ≠ some id

namespace Factories

variable {rename : String → String} {names : List (Option String)} {lossy : List String}
  {macros : Macros} {F F' G G' : Factories}

/-- **An action of a body** brings what its expansion brings. -/
theorem Replays.elementAction (h : Replays rename names lossy macros [] F G) {a : ActionContext}
    (inEvent : Bool) (hkeeps : a.Keeps lossy)
    (hfresh : ∀ b ∈ (expandAction macros a).flatMap BodyElement.actions, Fresh names b) :
    Option.Rel (fun x y => x.1 = y.1.flatten ∧ Replays rename names lossy macros [] x.2 y.2)
      (F.actionsOf a) (thread (elementActions · inEvent) G (expandAction macros a)) := by
  unfold expandAction at hfresh ⊢
  cases hcalled : macros.called a with
  | none =>
    rw [hcalled] at hfresh
    have hrel := h.exitAction hcalled (fun _ h => by cases h)
      (hfresh a (List.mem_flatMap.mpr ⟨_, List.mem_singleton_self _, List.mem_singleton_self _⟩))
    change Option.Rel _ _ ((G.actionsOf a).bind _)
    unfold actionsOf
    rw [Option.bind_map]
    rw [Option.map_eq_bind]
    refine rel_bind hrel fun x y hxy => .some ⟨?_, hxy.2.1⟩
    simp [hxy.1]
  | some body =>
    obtain ⟨id, xs, ys, hid, hreserved, hexit, hxs, hlossy⟩ := h.called hcalled
    have hys : ys = xs := hlossy fun hmem => hkeeps id hmem hreserved hid
    rw [Option.getD_some, hxs.thread, actionsOf, hexit]
    refine .some ⟨?_, h⟩
    rw [← List.flatMap_def, List.flatMap_singleton']
    exact hys

/-- The actions of a serial block. -/
theorem Replays.serial (h : Replays rename names lossy macros [] F G) {as : List ActionContext}
    (hkeeps : ∀ a ∈ as, a.Keeps lossy)
    (hfresh : ∀ b ∈ as.flatMap fun a => (expandAction macros a).flatMap BodyElement.actions,
      Fresh names b) :
    Option.Rel (fun x y => x.1.flatten = y.1.flatten ∧ Replays rename names lossy macros [] x.2 y.2)
      (thread actionsOf F as)
      (thread actionsOf G (as.flatMap fun a =>
        (expandAction macros a).flatMap BodyElement.actions)) := by
  refine thread_rel_flatMap (fun a ha F G hFG => ?_) h
  rw [@thread_actionsOf_of_plain _ false _ hFG.plain]
  exact hFG.elementAction false (hkeeps a ha) fun b hb =>
    hfresh b (List.mem_flatMap.mpr ⟨a, ha, hb⟩)

/-- **An element of a body.** -/
theorem Replays.element (h : Replays rename names lossy macros [] F G) {element : BodyElement}
    (inEvent : Bool) (hkeeps : ∀ a ∈ element.actions, a.Keeps lossy)
    (hfresh : ∀ b ∈ (expandElement macros element).flatMap BodyElement.actions, Fresh names b) :
    Option.Rel (fun x y => x.1 = y.1.flatten ∧ Replays rename names lossy macros [] x.2 y.2)
      (F.elementActions inEvent element)
      (thread (elementActions · inEvent) G (expandElement macros element)) := by
  cases element with
  | action a => exact h.elementAction inEvent (hkeeps a (List.mem_singleton_self a)) hfresh
  | serial as =>
    have hrel := h.serial hkeeps fun b hb =>
      hfresh b (List.mem_flatMap.mpr ⟨_, List.mem_singleton_self _, hb⟩)
    change Option.Rel _ _ ((G.elementActions inEvent _).bind _)
    unfold elementActions serialActions
    cases inEvent with
    | true =>
      simp only [if_true, Option.bind_map]
      rw [Option.map_eq_bind]
      exact rel_bind hrel fun x y hxy => .some ⟨rfl, hxy.2⟩
    | false =>
      simp only [Bool.false_eq_true, if_false, Option.map_bind, Option.bind_assoc]
      refine rel_bind hrel fun x y hxy => ?_
      simp only [Function.comp_apply, Option.map_map, Option.bind_map, hxy.1]
      cases y.1.flatten.mapM Action.sequentializable? with
      | none => exact .none
      | some actions => exact .some ⟨rfl, hxy.2⟩

/-- **The body can be replayed**: no call of it loses actions, and its
expansion calls no macro action. -/
structure Replayed (names : List (Option String)) (lossy : List String) (macros : Macros)
    (body : List BodyElement) : Prop where
  keeps : ∀ a ∈ actionsIn [body], a.Keeps lossy
  fresh : ∀ b ∈ actionsIn [expandBody macros body], Fresh names b

theorem actionsIn_singleton {body : List BodyElement} :
    actionsIn [body] = body.flatMap BodyElement.actions := List.flatMap_singleton _ _

/-- **A body** brings what its expansion brings. -/
theorem Replays.body (h : Replays rename names lossy macros [] F G) {body : List BodyElement}
    (inEvent : Bool) (hbody : Replayed names lossy macros body) :
    Option.Rel (fun x y => x.1 = y.1 ∧ Replays rename names lossy macros [] x.2 y.2)
      (F.bodyActions inEvent body) (G.bodyActions inEvent (expandBody macros body)) := by
  obtain ⟨hkeeps, hfresh⟩ := hbody
  rw [actionsIn_singleton] at hkeeps hfresh
  unfold bodyActions
  refine rel_map (thread_rel_flatMap (fun element he F G hFG => hFG.element inEvent
    (fun a ha => hkeeps a (List.mem_flatMap.mpr ⟨element, he, ha⟩)) fun b hb => ?_) h)
    fun x y hxy => hxy
  obtain ⟨e, he', hb⟩ := List.mem_flatMap.mp hb
  exact hfresh b (List.mem_flatMap.mpr ⟨e, List.mem_flatMap.mpr ⟨element, he, he'⟩, hb⟩)

/-! ## Statements -/

/-- **A condition** is met alike. -/
theorem Replays.exitCondition (h : Replays rename names lossy macros [] F G)
    (c : ConditionContext) :
    Option.Rel (fun x y => x.1 = y.1 ∧ Replays rename names lossy macros [] x.2 y.2)
      (F.exitCondition c) (G.exitCondition c) := by
  have heq : G.exitCondition c =
      (F.exitCondition c).map fun x => (x.1, x.2.withMacros G.macroActions) := by
    conv_lhs => rw [h.eq]
    unfold Factories.exitCondition
    simp only [Option.map_bind, Function.comp_def, Option.map_map]
    rfl
  rw [heq]
  cases hx : F.exitCondition c with
  | none => exact .none
  | some x =>
    obtain ⟨_, -, hx⟩ := Option.bind_eq_some_iff.mp hx
    obtain ⟨_, -, hx⟩ := Option.bind_eq_some_iff.mp hx
    obtain ⟨_, -, rfl⟩ := Option.map_eq_some_iff.mp hx
    exact .some ⟨rfl, h.grow (extends_of_registers rfl rfl id id) rfl⟩

theorem Replays.exitConditions (h : Replays rename names lossy macros [] F G)
    (cs : List ConditionContext) :
    Option.Rel (fun x y => x.1 = y.1 ∧ Replays rename names lossy macros [] x.2 y.2)
      (thread Factories.exitCondition F cs) (thread Factories.exitCondition G cs) := by
  have hcs : ∀ c ∈ cs, ∀ F G, Replays rename names lossy macros [] F G →
      Option.Rel (fun x y => x.1 = y.1 ∧ Replays rename names lossy macros [] x.2 y.2)
        (F.exitCondition c) (G.exitCondition (id c)) := fun c _ F G hFG => hFG.exitCondition c
  have hrel := thread_rel hcs h
  rwa [List.map_id] at hrel

/-- A condition statement. -/
theorem Replays.conditionStatement (h : Replays rename names lossy macros [] F G)
    {c : ConditionStatementContext} (hc : Replayed names lossy macros c.body) :
    Option.Rel (fun x y => x.1 = y.1 ∧ Replays rename names lossy macros [] x.2 y.2)
      (F.conditionStatement c) (G.conditionStatement (c.expand macros)) := by
  refine rel_bind (h.exitConditions c.conditions) fun x y hxy => ?_
  refine rel_map (hxy.2.body false hc) fun u v huv => ⟨?_, huv.2⟩
  simp only [hxy.1, huv.1]

/-- An event statement. -/
theorem Replays.eventStatement (h : Replays rename names lossy macros [] F G)
    {b : EventStatementContext} (hb : Replayed names lossy macros b.body)
    (hcs : ∀ c ∈ b.conditionStatements, Replayed names lossy macros c.body) :
    Option.Rel (fun x y => x.1 = y.1 ∧ Replays rename names lossy macros [] x.2 y.2)
      (F.eventStatement b) (G.eventStatement (b.expand macros)) := by
  unfold Factories.eventStatement
  rw [show (b.expand macros).identifier = b.identifier from rfl]
  cases Event.toEvent b.identifier with
  | none => exact .none
  | some event =>
    rw [Option.bind_some, Option.bind_some]
    refine rel_bind (h.body true hb) fun x y hxy => ?_
    refine rel_map (thread_rel (fun c hc F G hFG => hFG.conditionStatement (hcs c hc)) hxy.2)
      fun u v huv => ⟨?_, huv.2⟩
    simp only [hxy.1, huv.1]

/-- Expanding goes body by body. -/
theorem bodies_expand {S : StateStatementContext} :
    (S.expand macros).bodies = S.bodies.map (expandBody macros) := by
  unfold StateStatementContext.bodies StateStatementContext.expand
  simp only [List.map_cons, List.flatMap_map, List.map_flatMap]
  refine congrArg (expandBody macros S.body :: ·) (List.flatMap_congr fun b _ => ?_)
  simp only [EventStatementContext.expand, List.map_map]
  rfl

/-- **A state statement.** -/
theorem Replays.stateStatement (h : Replays rename names lossy macros [] F G)
    {S : StateStatementContext} (hS : ∀ body ∈ S.bodies, Replayed names lossy macros body) :
    Option.Rel (fun x y => x.1 = y.1 ∧ Replays rename names lossy macros [] x.2 y.2)
      (F.stateStatement S) (G.stateStatement (S.expand macros)) := by
  have hstates : G.states = F.states := by
    rw [h.eq]
    rfl
  have hgrow := @Replays.grow _ _ _ _ _ _
    { F with states := (F.states.declareState S.identifier).2 } _ h
    (extends_of_registers rfl rfl StateFactory.get_declareState id) rfl
  have hG : { F with states := (F.states.declareState S.identifier).2 }.withMacros G.macroActions =
      { G with states := (G.states.declareState S.identifier).2 } := by
    rw [h.eq]
    rfl
  rw [hG] at hgrow
  unfold Factories.stateStatement
  refine rel_bind (hgrow.body false (hS S.body List.mem_cons_self)) fun x y hxy => ?_
  have hevents : ∀ b ∈ S.eventStatements, ∀ F G, Replays rename names lossy macros [] F G →
      Option.Rel (fun x y => x.1 = y.1 ∧ Replays rename names lossy macros [] x.2 y.2)
        (F.eventStatement b) (G.eventStatement (b.expand macros)) := by
    intro b hb F G hFG
    refine hFG.eventStatement ?_ fun c hc => ?_
    · exact hS b.body (List.mem_cons_of_mem _ (List.mem_flatMap.mpr ⟨b, hb, List.mem_cons_self⟩))
    · exact hS c.body (List.mem_cons_of_mem _ (List.mem_flatMap.mpr
        ⟨b, hb, List.mem_cons_of_mem _ (List.mem_map_of_mem hc)⟩))
  refine rel_map (thread_rel hevents hxy.2) fun u v huv => ⟨?_, huv.2⟩
  simp only [hxy.1, huv.1, hstates]
  rfl

end Factories

end Xl

end FlowBlaze
