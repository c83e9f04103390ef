import FlowBlaze.Xl.Transitions
/-!
# What a body is made of

The actions that a body brings to a row, piece by piece: an action that is
written there, a serial block, and for a call of a macro action the pieces
that the macro action keeps. Each piece stands for the actions that the
compiler adds for it.

Two things are not as they are written. The body of a macro action keeps
nothing of another macro action it calls, and a serial block of an event
comes out as one without actions.
-/

namespace FlowBlaze

namespace Xl

open Common

/-! ## Pieces -/

/-- A piece of a body: an action, or a serial block, with whether all of
its actions are primitive. -/
inductive Piece
  | action (a : ActionContext)
  | serial (primitive : Bool) (actions : List ActionContext)
deriving DecidableEq

/-- What the macro actions are made of, by name. -/
abbrev MacroPieces := Option String → Option (List Piece)

namespace MacroPieces

variable (env : MacroPieces)

/-- A call of a macro action. -/
def calls : ActionContext → Bool
  | .call id _ => !reserved id && (env (some id)).isSome
  | .assignment _ _ => false

/-- An assignment, or a hardware call. -/
def primitive : ActionContext → Bool
  | .call id _ => !reserved id && (env (some id)).isNone
  | .assignment _ _ => true

/-- The pieces of an action. -/
def ofAction : ActionContext → List Piece
  | .call id terms =>
    if reserved id then [.action (.call id terms)]
    else (env (some id)).getD [.action (.call id terms)]
  | .assignment identifier expr => [.action (.assignment identifier expr)]

/-- The pieces of an element of a body. -/
def ofElement : BodyElement → List Piece
  | .action a => env.ofAction a
  | .serial actions => [.serial (actions.all env.primitive) actions]

/-- The same in an event, where a serial block loses its actions. -/
def inEvent : BodyElement → List Piece
  | .action a => env.ofAction a
  | .serial _ => [.serial true []]

/-- What a macro action keeps of an element of its body. -/
def stored : BodyElement → List Piece
  | .action a => if env.calls a then [] else [.action a]
  | .serial actions => [.serial (actions.all env.primitive) actions]

/-- A macro action is defined, of which `store` says what is kept. -/
def define (store : MacroPieces → BodyElement → List Piece) (name : Option String)
    (body : List BodyElement) : MacroPieces :=
  Function.update env name
    (some (body.flatMap (store (Function.update env name (some [])))))

end MacroPieces

/-- The macro action met last. -/
def lastMacro (current : Option String) (definitions : List Definition) : Option String :=
  definitions.foldl (fun c d => d.macroName.or c) current

section Store

variable (store : MacroPieces → BodyElement → List Piece)

/-- The macro actions after a definition. -/
def MacroPieces.definition (env : MacroPieces) : Definition → MacroPieces
  | .macroAction identifier body => env.define store (some identifier) body
  | _ => env

/-- The same after an element of a stage's body, of which a serial block
is a macro action. -/
def MacroPieces.stageElement (current : Option String) (env : MacroPieces) :
    BodyElement → MacroPieces
  | .serial actions => env.define store current (actions.map .action)
  | .action _ => env

/-- **The macro actions of a stage**, where `current` is the one met last
before the stage. -/
def StageStatementContext.macroPieces (T : StageStatementContext) (current : Option String) :
    MacroPieces :=
  T.body.foldl (MacroPieces.stageElement store (lastMacro current T.definitions))
    (T.definitions.foldl (MacroPieces.definition store) fun _ => none)

end Store

namespace Factories

variable {F G H : Factories} {a : ActionContext} {x : Action} {p : Piece} {ps qs : List Piece}
  {xs ys : List Action} {env : MacroPieces}

/-! ## What pieces stand for -/

/-- The action stands for this one, whatever the macro actions. -/
def Means (F : Factories) (a : ActionContext) (x : Action) : Prop :=
  Resolves (F.withMacros []) a x

/-- **What a piece stands for.** The calls that set a key stand for
nothing. -/
inductive Stands (F : Factories) : Piece → List Action → Prop
  | action {a : ActionContext} {x : Action} : Means F a x → Stands F (.action a) [x]
  | key {id : String} {terms : List Term} :
    id = "setFlowKey" ∨ id = "setUpdateKey" → Stands F (.action (.call id terms)) []
  | serial {primitive : Bool} {actions : List ActionContext} {inner : List SequentializableAction} :
    (primitive = true → List.Forall₂ (fun a x => Means F a (.sequentializable x)) actions inner) →
      Stands F (.serial primitive actions) [.sequentialActions inner]

/-- What pieces stand for, one after the other. -/
inductive Shows (F : Factories) : List Piece → List Action → Prop
  | nil : Shows F [] []
  | cons {p : Piece} {ps : List Piece} {xs ys : List Action} :
    Stands F p xs → Shows F ps ys → Shows F (p :: ps) (xs ++ ys)

theorem Means.mono (h : Means F a x) (hE : Extends F G) : Means G a x :=
  Resolves.mono h (hE.withMacros) fun _ _ _ => rfl

theorem Stands.mono (h : Stands F p xs) (hE : Extends F G) : Stands G p xs := by
  cases h with
  | action hx => exact .action (hx.mono hE)
  | key hid => exact .key hid
  | serial hinner => exact .serial fun hp => (hinner hp).imp fun _ _ hx => hx.mono hE

theorem Shows.mono (h : Shows F ps xs) (hE : Extends F G) : Shows G ps xs := by
  induction h with
  | nil => exact .nil
  | cons hp _ ih => exact .cons (hp.mono hE) ih

theorem Shows.singleton (h : Stands F p xs) : Shows F [p] xs := by
  have hcons := Shows.cons h .nil
  rwa [List.append_nil] at hcons

theorem Shows.append (h : Shows F ps xs) (h' : Shows F qs ys) : Shows F (ps ++ qs) (xs ++ ys) := by
  induction h with
  | nil => exact h'
  | cons hp _ ih =>
    rw [List.cons_append, List.append_assoc]
    exact .cons hp ih

/-- **The macro actions that are there** are made of these pieces. -/
def Stores (env : MacroPieces) (F : Factories) : Prop :=
  ∀ name, Option.Rel (Shows F) (env name) (F.macroActions.getMacroAction name)

theorem Stores.within (h : Stores env F) (hG : Within F G) : Stores env G := fun name => by
  rw [hG.macroActions]
  exact rel_mono (h name) fun _ _ hshows => hshows.mono hG.learns.extend

/-- The pieces of a macro action that is there. -/
theorem Stores.of_some (h : Stores env F) {name : Option String} {actions : List Action}
    (hcalled : F.macroActions.getMacroAction name = some actions) :
    ∃ pieces, env name = some pieces ∧ Shows F pieces actions := by
  have hrel := h name
  rw [hcalled] at hrel
  cases hname : env name with
  | none =>
    rw [hname] at hrel
    cases hrel
  | some pieces =>
    rw [hname] at hrel
    cases hrel with
    | some hshows => exact ⟨pieces, rfl, hshows⟩

theorem Stores.of_none (h : Stores env F) {name : Option String}
    (hcalled : F.macroActions.getMacroAction name = none) : env name = none := by
  have hrel := h name
  rw [hcalled] at hrel
  cases hname : env name with
  | none => rfl
  | some pieces =>
    rw [hname] at hrel
    cases hrel

/-! ## Actions -/

/-- What an action adds itself. -/
theorem means_of_exitAction (h : F.exitAction a = some (.action x, G)) : Means G a x := by
  have hcalled : NoMacroCall F.macroActions a := by
    intro id hid hreserved
    cases a with
    | assignment identifier expr => cases hid
    | call id' terms =>
      cases hid
      rcases exitCall_cases h with ⟨_, rfl, -⟩ | ⟨_, _, rfl, -⟩ | ⟨rfl, -⟩ | ⟨_, rfl, -⟩ |
        ⟨_, -, -, hx, -⟩ | ⟨_, _, hnone, -⟩
      · cases hreserved
      · cases hreserved
      · cases hreserved
      · cases hreserved
      · cases hx
      · exact hnone
  have hplain := exitAction_withMacros (m := []) hcalled fun _ _ _ => rfl
  rw [h] at hplain
  exact resolves_of_exitAction hplain

/-- **The shapes of an action**: it is a macro action's call, or it sets a
key, or it adds one action. -/
theorem exitAction_shapes {added : Added} (hF : Stores env F)
    (h : F.exitAction a = some (added, G)) :
    (∃ pieces actions, env.calls a = true ∧ env.ofAction a = pieces ∧ added = .actions actions ∧
        Shows G pieces actions) ∨
      (env.calls a = false ∧ env.primitive a = false ∧ env.ofAction a = [.action a] ∧
        added = .nothing ∧ Stands G (.action a) []) ∨
      (∃ x, env.calls a = false ∧ env.ofAction a = [.action a] ∧ added = .action x ∧
        Means G a x) := by
  cases a with
  | assignment identifier expr =>
    obtain ⟨x, -, hx⟩ := Option.map_eq_some_iff.mp h
    cases hx
    exact Or.inr (Or.inr ⟨x, rfl, rfl, rfl, means_of_exitAction h⟩)
  | call id terms =>
    rcases exitCall_cases h with ⟨term, rfl, rfl, rfl, -⟩ | ⟨name, fields, rfl, -, rfl, -⟩ |
      ⟨rfl, rfl, -⟩ | ⟨term, rfl, rfl, rfl, -⟩ | ⟨actions, hreserved, hcalled, rfl, rfl⟩ |
      ⟨args, action, hcalled, -, haction, rfl, -⟩
    · exact Or.inr (Or.inr ⟨_, rfl, rfl, rfl, means_of_exitAction h⟩)
    · exact Or.inr (Or.inl ⟨rfl, rfl, rfl, rfl, .key (Or.inl rfl)⟩)
    · exact Or.inr (Or.inl ⟨rfl, rfl, rfl, rfl, .key (Or.inr rfl)⟩)
    · exact Or.inr (Or.inr ⟨_, rfl, rfl, rfl, means_of_exitAction h⟩)
    · obtain ⟨pieces, hpieces, hshows⟩ := hF.of_some hcalled
      refine Or.inl ⟨pieces, actions, ?_, ?_, rfl, hshows⟩
      · rw [MacroPieces.calls, hreserved, hpieces]
        rfl
      · rw [MacroPieces.ofAction, hreserved, hpieces]
        rfl
    · have hreserved := reserved_of_isSome haction
      have hnone := hF.of_none hcalled
      refine Or.inr (Or.inr ⟨_, ?_, ?_, rfl, means_of_exitAction h⟩)
      · rw [MacroPieces.calls, hreserved, hnone]
        rfl
      · rw [MacroPieces.ofAction, hreserved, hnone]
        rfl

/-- **An action of a body.** -/
theorem shows_actionsOf {added : List Action} (hF : Stores env F)
    (h : F.actionsOf a = some (added, G)) : Shows G (env.ofAction a) added := by
  obtain ⟨⟨added, G⟩, hx, h⟩ := Option.map_eq_some_iff.mp h
  cases h
  rcases exitAction_shapes hF hx with ⟨pieces, actions, -, hpieces, rfl, hshows⟩ |
    ⟨-, -, hpieces, rfl, hstands⟩ | ⟨x, -, hpieces, rfl, hmeans⟩
  · rw [hpieces]
    exact hshows
  · rw [hpieces]
    exact Shows.singleton hstands
  · rw [hpieces]
    exact Shows.singleton (.action hmeans)

/-- A primitive action brings one action. -/
theorem actionsOf_of_primitive {added : List Action} (hF : Stores env F)
    (ha : env.primitive a = true) (h : F.actionsOf a = some (added, G)) :
    ∃ x, added = [x] ∧ Means G a x := by
  obtain ⟨⟨added, G⟩, hx, h⟩ := Option.map_eq_some_iff.mp h
  cases h
  rcases exitAction_shapes hF hx with ⟨pieces, actions, hcalls, -⟩ | ⟨-, hprimitive, -⟩ |
    ⟨x, -, -, rfl, hmeans⟩
  · cases a with
    | assignment identifier expr => cases hcalls
    | call id terms =>
      simp only [MacroPieces.calls, MacroPieces.primitive, Bool.and_eq_true] at hcalls ha
      rw [Option.isNone_iff_eq_none.mp ha.2] at hcalls
      cases hcalls.2
  · rw [ha] at hprimitive
    cases hprimitive
  · exact ⟨x, rfl, hmeans⟩

/-- Primitive actions, one after the other. -/
theorem thread_of_primitive {actions : List ActionContext} {added : List (List Action)}
    (hF : Stores env F) (hprimitive : actions.all env.primitive = true)
    (h : thread actionsOf F actions = some (added, G)) :
    List.Forall₂ (fun a x => Means G a x) actions added.flatten := by
  induction actions generalizing F added with
  | nil =>
    cases h
    exact .nil
  | cons a actions ih =>
    obtain ⟨b, u, bs, hb, hbs, rfl⟩ := thread_cons.mp h
    rw [List.all_cons, Bool.and_eq_true] at hprimitive
    obtain ⟨x, rfl, hx⟩ := actionsOf_of_primitive hF hprimitive.1 hb
    have hrest := within_thread within_actionsOf hbs
    exact .cons (hx.mono hrest.learns.extend)
      (ih (hF.within (within_actionsOf hb)) hprimitive.2 hbs)

/-- **A serial block** that gathers its actions. -/
theorem stands_serialActions {actions : List ActionContext} {inner : List SequentializableAction}
    (hF : Stores env F) (h : F.serialActions actions = some (inner, G)) :
    Stands G (.serial (actions.all env.primitive) actions) [.sequentialActions inner] := by
  obtain ⟨⟨added, F'⟩, hthread, hgathered⟩ := Option.bind_eq_some_iff.mp h
  obtain ⟨inner', hinner, heq⟩ := Option.map_eq_some_iff.mp hgathered
  cases heq
  refine .serial fun hprimitive => ?_
  have hmeans := thread_of_primitive hF hprimitive hthread
  have hall := mapM_eq_some_iff.mp hinner
  clear hprimitive hthread hinner hgathered h
  generalize added.flatten = xs at hmeans hall
  induction hall generalizing actions with
  | nil =>
    cases hmeans
    exact .nil
  | @cons x y _ _ hxy _ ih =>
    cases hmeans with
    | cons hx hmeans =>
      refine .cons ?_ (ih hmeans)
      cases x with
      | sequentializable action =>
        cases hxy
        exact hx
      | sequentialActions actions => cases hxy
      | stateTransition state => cases hxy
      | stageTransition stage => cases hxy

/-! ## Bodies -/

/-- The pieces of the elements of a body, one after the other. -/
theorem shows_thread {α : Type} {f : Factories → α → Option (List Action × Factories)}
    {g : α → List Piece} {as : List α} {added : List (List Action)} (hF : Stores env F)
    (h : thread f F as = some (added, G))
    (hwithin : ∀ F G a added, f F a = some (added, G) → Within F G)
    (hshows : ∀ F G a added, Stores env F → f F a = some (added, G) → Shows G (g a) added) :
    Shows G (as.flatMap g) added.flatten := by
  induction as generalizing F added with
  | nil =>
    cases h
    exact .nil
  | cons a as ih =>
    obtain ⟨b, u, bs, hb, hbs, rfl⟩ := thread_cons.mp h
    have hstep := hwithin F u a b hb
    have hrest := within_thread (fun {F G a b} hab => hwithin F G a b hab) hbs
    rw [List.flatMap_cons, List.flatten_cons]
    exact ((hshows F u a b hF hb).mono hrest.learns.extend).append (ih (hF.within hstep) hbs)

theorem shows_elementActions {element : BodyElement} {added : List Action} (hF : Stores env F)
    (h : F.elementActions false element = some (added, G)) :
    Shows G (env.ofElement element) added := by
  cases element with
  | action a => exact shows_actionsOf hF h
  | serial actions =>
    obtain ⟨x, hx, h⟩ := Option.map_eq_some_iff.mp h
    cases h
    exact Shows.singleton (stands_serialActions hF hx)

/-- A serial block of an event is one without actions. -/
theorem shows_elementActions_inEvent {element : BodyElement} {added : List Action}
    (hF : Stores env F) (h : F.elementActions true element = some (added, G)) :
    Shows G (env.inEvent element) added := by
  cases element with
  | action a => exact shows_actionsOf hF h
  | serial actions =>
    obtain ⟨x, -, h⟩ := Option.map_eq_some_iff.mp h
    cases h
    exact Shows.singleton (.serial fun _ => .nil)

/-- **A body.** -/
theorem shows_bodyActions {body : List BodyElement} {added : List Action} (hF : Stores env F)
    (h : F.bodyActions false body = some (added, G)) :
    Shows G (body.flatMap env.ofElement) added := by
  obtain ⟨x, hx, h⟩ := Option.map_eq_some_iff.mp h
  cases h
  exact shows_thread hF hx (fun _ _ _ _ => within_elementActions) fun _ _ _ _ =>
    shows_elementActions

/-- **A body of an event.** -/
theorem shows_bodyActions_inEvent {body : List BodyElement} {added : List Action}
    (hF : Stores env F) (h : F.bodyActions true body = some (added, G)) :
    Shows G (body.flatMap env.inEvent) added := by
  obtain ⟨x, hx, h⟩ := Option.map_eq_some_iff.mp h
  cases h
  exact shows_thread hF hx (fun _ _ _ _ => within_elementActions)
    fun _ _ _ _ => shows_elementActions_inEvent

end Factories

end Xl

end FlowBlaze
