import FlowBlaze.Xl.Pieces
/-!
# What a stage is made of

The macro actions of a stage keep the pieces of their bodies, one
definition after the other, and the statements after them show theirs: so
the resolved stages of a program are known from its syntax.
-/

namespace FlowBlaze

namespace Xl

open Common

namespace MacroPieces

variable {env : MacroPieces} {name : Option String} {ps qs : List Piece}

/-- Which actions are calls does not depend on the pieces. -/
theorem isSome_update (other : Option String) :
    (Function.update env name (some ps) other).isSome =
      (Function.update env name (some qs) other).isSome := by
  by_cases hne : other = name
  · rw [hne, Function.update_self, Function.update_self]
    rfl
  · rw [Function.update_of_ne hne, Function.update_of_ne hne]

theorem calls_update : calls (Function.update env name (some ps)) =
    calls (Function.update env name (some qs)) := by
  funext a
  cases a with
  | assignment identifier expr => rfl
  | call id terms => rw [calls, calls, isSome_update]

theorem primitive_update : primitive (Function.update env name (some ps)) =
    primitive (Function.update env name (some qs)) := by
  funext a
  cases a with
  | assignment identifier expr => rfl
  | call id terms =>
    rw [primitive, primitive, ← Option.not_isSome, ← Option.not_isSome, isSome_update]

theorem stored_update : stored (Function.update env name (some ps)) =
    stored (Function.update env name (some qs)) := by
  funext element
  cases element with
  | action a => rw [stored, stored, calls_update]
  | serial actions => rw [stored, stored, primitive_update]

end MacroPieces

namespace Factories

variable {F G H : Factories} {p : Piece} {ps qs : List Piece} {xs ys zs : List Action}
  {env : MacroPieces} {name current : Option String}

/-! ## Macro actions -/

/-- One macro action is defined anew. -/
theorem Stores.update (h : Stores env F) (hE : Extends F G)
    (hother : ∀ other, other ≠ name →
      G.macroActions.getMacroAction other = F.macroActions.getMacroAction other)
    (hname : G.macroActions.getMacroAction name = some xs) (hshows : Shows G ps xs) :
    Stores (Function.update env name (some ps)) G := fun other => by
  by_cases hne : other = name
  · rw [hne, Function.update_self, hname]
    exact .some hshows
  · rw [Function.update_of_ne hne, hother other hne]
    exact rel_mono (h other) fun _ _ hs => hs.mono hE

/-- A macro action that is there shows its pieces. -/
theorem Stores.exists_actions (h : Stores env F) (hname : env name = some ps) :
    ∃ zs, F.macroActions.getMacroAction name = some zs ∧ Shows F ps zs := by
  have hrel := h name
  rw [hname] at hrel
  cases hget : F.macroActions.getMacroAction name with
  | none =>
    rw [hget] at hrel
    cases hrel
  | some zs =>
    rw [hget] at hrel
    cases hrel with
    | some hshows => exact ⟨zs, rfl, hshows⟩

theorem extends_withMacros (m : MacroActionsFactory) : Extends F (F.withMacros m) :=
  (learns_withMacros m).extend

/-- An action is added to the macro action that is being defined. -/
theorem Stores.addToMacro {x : Action} (h : Stores (Function.update env name (some ps)) F)
    (hp : Stands F p [x]) (hadd : F.addToMacro name x = some G) :
    Stores (Function.update env name (some (ps ++ [p]))) G := by
  obtain ⟨zs, hzs, hshows⟩ := h.exists_actions (Function.update_self ..)
  obtain ⟨m, hm, hself, hother⟩ := addToMacro_of_get (x := x) hzs
  rw [hm] at hadd
  cases hadd
  have hE := extends_withMacros (F := F) m
  have hupdate := h.update hE hother hself ((hshows.append (Shows.singleton hp)).mono hE)
  rwa [Function.update_idem] at hupdate

/-- **An element of the body of a macro action.** -/
theorem stores_macroElement {element : BodyElement}
    (h : Stores (Function.update env name (some ps)) F)
    (helement : F.macroElement name element = some G) :
    Stores (Function.update env name
      (some (ps ++ MacroPieces.stored (Function.update env name (some [])) element))) G := by
  rw [@MacroPieces.stored_update _ _ _ ps]
  cases element with
  | action a =>
    obtain ⟨⟨added, F'⟩, hx, hadded⟩ := Option.bind_eq_some_iff.mp helement
    have hF' := h.within (within_exitAction hx)
    rcases exitAction_shapes h hx with ⟨pieces, actions, hcalls, -, rfl, -⟩ |
      ⟨hcalls, -, -, rfl, hstands⟩ | ⟨x, hcalls, -, rfl, hmeans⟩
    · cases hadded
      rw [MacroPieces.stored, if_pos hcalls, List.append_nil]
      exact hF'
    · cases hadded
      rw [MacroPieces.stored, hcalls, if_neg Bool.false_ne_true]
      obtain ⟨zs, hzs, hshows⟩ := hF'.exists_actions (Function.update_self ..)
      have hshows' := hshows.append (Shows.singleton hstands)
      rw [List.append_nil] at hshows'
      have hupdate := hF'.update (.refl _) (fun _ _ => rfl) hzs hshows'
      rwa [Function.update_idem] at hupdate
    · rw [MacroPieces.stored, hcalls, if_neg Bool.false_ne_true]
      exact hF'.addToMacro (.action hmeans) hadded
  | serial actions =>
    obtain ⟨⟨inner, F'⟩, hinner, hadded⟩ := Option.bind_eq_some_iff.mp helement
    exact (h.within (within_serialActions hinner)).addToMacro
      (stands_serialActions h hinner) hadded

/-- The body of a macro action. -/
theorem stores_macroElements {body : List BodyElement}
    (h : Stores (Function.update env name (some ps)) F)
    (hbody : body.foldlM (Factories.macroElement · name ·) F = some G) :
    Stores (Function.update env name
      (some (ps ++ body.flatMap (MacroPieces.stored (Function.update env name (some []))))))
      G := by
  induction body generalizing F ps with
  | nil =>
    cases hbody
    rwa [List.flatMap_nil, List.append_nil]
  | cons element body ih =>
    rw [List.foldlM_cons] at hbody
    obtain ⟨F', hF', hbody⟩ := Option.bind_eq_some_iff.mp hbody
    rw [List.flatMap_cons, ← List.append_assoc]
    exact ih (stores_macroElement h hF') hbody

/-- **A macro action.** -/
theorem stores_macroAction {body : List BodyElement} (h : Stores env F)
    (hbody : F.macroAction name body = some G) :
    Stores (env.define MacroPieces.stored name body) G := by
  obtain ⟨F', hF', hbody⟩ := Option.bind_eq_some_iff.mp hbody
  have hnone : F.macroActions.getMacroAction name = none := by
    by_contra hsome
    rw [createMacro_of_ne_none hsome] at hF'
    cases hF'
  obtain ⟨m, hm, hself, hother⟩ := createMacro_of_none hnone
  rw [hm] at hF'
  cases hF'
  exact stores_macroElements (h.update (extends_withMacros m) hother hself .nil) hbody

/-! ## Definitions -/

theorem stores_definition {s s' : Factories × Option String} {d : Definition}
    {results : List ConditionResult} (hs : Stores env s.1)
    (h : definition s d = some (results, s')) :
    Stores (env.definition MacroPieces.stored d) s'.1 ∧ s'.2 = d.macroName.or s.2 := by
  cases d with
  | register global identifiers =>
    obtain ⟨F, hF, h⟩ := Option.map_eq_some_iff.mp h
    cases h
    exact ⟨hs.within (within_allocateRegisters hF), rfl⟩
  | customEvent conditions =>
    obtain ⟨x, hx, h⟩ := Option.map_eq_some_iff.mp h
    cases h
    exact ⟨hs.within (within_exitConditions hx), rfl⟩
  | macroAction identifier body =>
    obtain ⟨F, hF, h⟩ := Option.map_eq_some_iff.mp h
    cases h
    exact ⟨stores_macroAction hs hF, rfl⟩

/-- No macro action is there when a stage starts. -/
theorem stores_of_nil (h : F.macroActions = []) : Stores (fun _ => none) F := fun name => by
  rw [h]
  exact .none

theorem stores_definitions {s s' : Factories × Option String} {definitions : List Definition}
    {results : List (List ConditionResult)} (hs : Stores env s.1)
    (h : thread definition s definitions = some (results, s')) :
    Stores (definitions.foldl (MacroPieces.definition MacroPieces.stored) env) s'.1 ∧
      s'.2 = lastMacro s.2 definitions := by
  induction definitions generalizing s results env with
  | nil =>
    cases h
    exact ⟨hs, rfl⟩
  | cons d definitions ih =>
    obtain ⟨b, u, bs, hd, hds, -⟩ := thread_cons.mp h
    obtain ⟨hu, hcurrent⟩ := stores_definition hs hd
    obtain ⟨hstores, hlast⟩ := ih hu hds
    refine ⟨hstores, hlast.trans ?_⟩
    rw [hcurrent]
    rfl

/-- **The body of a stage.** -/
theorem stores_stageBody {body : List BodyElement} (h : Stores env F)
    (hbody : body.foldlM (Factories.stageElement · current ·) F = some G) :
    Stores (body.foldl (MacroPieces.stageElement MacroPieces.stored current) env) G := by
  induction body generalizing F env with
  | nil =>
    cases hbody
    exact h
  | cons element body ih =>
    rw [List.foldlM_cons] at hbody
    obtain ⟨F', hF', hbody⟩ := Option.bind_eq_some_iff.mp hbody
    refine ih ?_ hbody
    cases element with
    | action a =>
      obtain ⟨x, hx, rfl⟩ := Option.map_eq_some_iff.mp hF'
      exact h.within (within_exitAction hx)
    | serial actions => exact stores_macroAction h hF'

/-! ## Statements -/

/-- **An event statement, from its pieces.** -/
structure ShowsEvent (env : MacroPieces) (F : Factories) (b : EventStatementContext)
    (statement : EventStatement ConditionResult) : Prop where
  event : Event.toEvent b.identifier = some statement.event
  actions : Shows F (b.body.flatMap env.inEvent) statement.actions
  conditionStatements : List.Forall₂ (fun c c' => Shows F (c.body.flatMap env.ofElement) c'.actions)
    b.conditionStatements statement.conditionStatements

/-- **A state statement, from its pieces.** -/
structure ShowsState (env : MacroPieces) (F : Factories) (S : StateStatementContext)
    (statement : StateStatement ConditionResult) : Prop where
  state : F.states.states.get (.ofEq String) S.identifier = some statement.state
  actions : Shows F (S.body.flatMap env.ofElement) statement.actions
  eventStatements : List.Forall₂ (ShowsEvent env F) S.eventStatements statement.eventStatements

theorem ShowsEvent.mono {b : EventStatementContext} {statement : EventStatement ConditionResult}
    (h : ShowsEvent env F b statement) (hE : Extends F G) : ShowsEvent env G b statement :=
  ⟨h.event, h.actions.mono hE, h.conditionStatements.imp fun _ _ hc => hc.mono hE⟩

theorem ShowsState.mono {S : StateStatementContext} {statement : StateStatement ConditionResult}
    (h : ShowsState env F S statement) (hE : Extends F G) : ShowsState env G S statement :=
  ⟨hE.state h.state, h.actions.mono hE, h.eventStatements.imp fun _ _ hb => hb.mono hE⟩

/-- Statements, one after the other. -/
theorem forall₂_thread {α β : Type} {f : Factories → α → Option (β × Factories)}
    {I : Factories → α → β → Prop} {as : List α} {bs : List β} (hF : Stores env F)
    (h : thread f F as = some (bs, G))
    (hwithin : ∀ F G a b, f F a = some (b, G) → Within F G)
    (hmono : ∀ F G a b, I F a b → Extends F G → I G a b)
    (hstep : ∀ F G a b, Stores env F → f F a = some (b, G) → I G a b) :
    List.Forall₂ (I G) as bs := by
  induction as generalizing F bs with
  | nil =>
    cases h
    exact .nil
  | cons a as ih =>
    obtain ⟨b, u, bs, hb, hbs, rfl⟩ := thread_cons.mp h
    have hrest := within_thread (fun {F G a b} hab => hwithin F G a b hab) hbs
    exact .cons (hmono u G a b (hstep F u a b hF hb) hrest.learns.extend)
      (ih (hF.within (hwithin F u a b hb)) hbs)

theorem shows_conditionStatement {c : ConditionStatementContext}
    {statement : ConditionStatement ConditionResult} (hF : Stores env F)
    (h : F.conditionStatement c = some (statement, G)) :
    Shows G (c.body.flatMap env.ofElement) statement.actions := by
  obtain ⟨x, hx, h⟩ := Option.bind_eq_some_iff.mp h
  obtain ⟨y, hy, h⟩ := Option.map_eq_some_iff.mp h
  cases h
  exact shows_bodyActions (hF.within (within_exitConditions hx)) hy

theorem showsEvent_eventStatement {b : EventStatementContext}
    {statement : EventStatement ConditionResult} (hF : Stores env F)
    (h : F.eventStatement b = some (statement, G)) : ShowsEvent env G b statement := by
  obtain ⟨event, hevent, h⟩ := Option.bind_eq_some_iff.mp h
  obtain ⟨x, hx, h⟩ := Option.bind_eq_some_iff.mp h
  obtain ⟨y, hy, h⟩ := Option.map_eq_some_iff.mp h
  cases h
  have hbody := within_bodyActions hx
  have hrest := within_thread within_conditionStatement hy
  exact ⟨hevent, (shows_bodyActions_inEvent hF hx).mono hrest.learns.extend,
    forall₂_thread (hF.within hbody) hy (fun _ _ _ _ => within_conditionStatement)
      (fun _ _ _ _ hc hE => hc.mono hE) fun _ _ _ _ => shows_conditionStatement⟩

/-- **A state statement.** -/
theorem showsState_stateStatement {S : StateStatementContext}
    {statement : Bool × StateStatement ConditionResult} (hF : Stores env F)
    (h : F.stateStatement S = some (statement, G)) : ShowsState env G S statement.2 := by
  obtain ⟨x, hx, h⟩ := Option.bind_eq_some_iff.mp h
  obtain ⟨y, hy, h⟩ := Option.map_eq_some_iff.mp h
  cases h
  have hdeclare := hF.within (@within_declareState _ S.identifier)
  have hbody := within_bodyActions hx
  have hrest := within_thread within_eventStatement hy
  refine ⟨(hbody.trans hrest).learns.extend.state StateFactory.get_makeState_self,
    (shows_bodyActions hdeclare hx).mono hrest.learns.extend,
    forall₂_thread (hdeclare.within hbody) hy (fun _ _ _ _ => within_eventStatement)
      (fun _ _ _ _ hb hE => hb.mono hE) fun _ _ _ _ => showsEvent_eventStatement⟩

/-! ## Stages -/

/-- **A stage, from its pieces**, with the factories at its end. -/
structure ShowsStage (current : Option String) (F : Factories) (T : StageStatementContext)
    (R : ResolvedStage) : Prop where
  identifier : R.identifier = T.identifier
  table : R.table = T.identifier
  states : List.Forall₂ (fun S S' => ShowsState (T.macroPieces MacroPieces.stored current) F S S'.2)
    T.stateStatements R.states

/-- **A stage statement.** -/
theorem showsStage_stageStatement {s s' : Factories × Option String} {T : StageStatementContext}
    {R : ResolvedStage} (hs : s.1.macroActions = []) (h : stageStatement s T = some (R, s')) :
    ∃ F, ShowsStage s.2 F T R ∧ s' = (F.finishStage, lastMacro s.2 T.definitions) := by
  obtain ⟨⟨F, current⟩ , rfl⟩ : ∃ t, s = t := ⟨s, rfl⟩
  obtain ⟨⟨results, F₁, c⟩, hdefinitions, h⟩ := Option.bind_eq_some_iff.mp h
  obtain ⟨F₂, hbody, h⟩ := Option.bind_eq_some_iff.mp h
  obtain ⟨⟨states, F₃⟩, hstates, h⟩ := Option.bind_eq_some_iff.mp h
  obtain ⟨table, htable, h⟩ := Option.map_eq_some_iff.mp h
  cases h
  have hstart : ({ F with stages := F.stages.declareStage T.identifier } : Factories).macroActions =
      [] := hs
  obtain ⟨hstores, hlast⟩ := stores_definitions (stores_of_nil hstart) hdefinitions
  have hlearns := (learns_definitions hdefinitions).trans ((learns_stageBody hbody).trans
    (within_thread within_stateStatement hstates).learns)
  have hstages := stores_stageBody hstores hbody
  simp only at hlast
  subst hlast
  refine ⟨F₃, ⟨rfl, ?_, forall₂_thread hstages hstates (fun _ _ _ _ => within_stateStatement)
    (fun _ _ _ _ hS hE => hS.mono hE) fun _ _ _ _ => showsState_stateStatement⟩, rfl⟩
  have hdeclared := hlearns.lastDeclaredStage
  rw [htable] at hdeclared
  cases hdeclared
  rfl

/-- The states of a program's stages stay. -/
theorem getState_of_stages {s s' : Factories × Option String} {stages : List StageStatementContext}
    {Rs : List ResolvedStage} (h : thread stageStatement s stages = some (Rs, s')) {id : String}
    {state : State} (hget : s.1.states.states.get (.ofEq String) id = some state) :
    s'.1.states.states.get (.ofEq String) id = some state := by
  have hmentioned := mentioned_stages h
  unfold Mentioned at hmentioned
  rw [hmentioned.states]
  exact StateFactory.get_mention hget

/-- The tables are those of the stages. -/
theorem tables_of_stages {s s' : Factories × Option String} {stages : List StageStatementContext}
    {Rs : List ResolvedStage} (hs : s.1.macroActions = [])
    (h : thread stageStatement s stages = some (Rs, s')) :
    Rs.map (·.table) = stages.map (·.identifier) := by
  induction stages generalizing s Rs with
  | nil =>
    cases h
    rfl
  | cons T stages ih =>
    obtain ⟨R, u, Rs, hR, hRs, rfl⟩ := thread_cons.mp h
    obtain ⟨F, hshows, rfl⟩ := showsStage_stageStatement hs hR
    rw [List.map_cons, List.map_cons, hshows.table, ih rfl hRs]

/-- What the stages leave: the name of the macro action met last. -/
theorem last_of_stages {s s' : Factories × Option String} {stages : List StageStatementContext}
    {Rs : List ResolvedStage} (hs : s.1.macroActions = [])
    (h : thread stageStatement s stages = some (Rs, s')) :
    s'.1.macroActions = [] ∧ s'.2 = lastMacro s.2 (stages.flatMap (·.definitions)) := by
  induction stages generalizing s Rs with
  | nil =>
    cases h
    exact ⟨hs, rfl⟩
  | cons T stages ih =>
    obtain ⟨R, u, Rs, hR, hRs, rfl⟩ := thread_cons.mp h
    obtain ⟨F, -, rfl⟩ := showsStage_stageStatement hs hR
    obtain ⟨hmacros, hlast⟩ := ih rfl hRs
    refine ⟨hmacros, hlast.trans ?_⟩
    rw [List.flatMap_cons]
    unfold lastMacro
    rw [List.foldl_append]

/-- **The stages of a program**, one after the other. -/
theorem showsStage_of_split {s s' : Factories × Option String} {stages : List StageStatementContext}
    {earlier' later' : List ResolvedStage} {R : ResolvedStage} (hs : s.1.macroActions = [])
    (h : thread stageStatement s stages = some (earlier' ++ R :: later', s')) :
    ∃ earlier T later F, stages = earlier ++ T :: later ∧
      later'.map (·.table) = later.map (·.identifier) ∧
      ShowsStage (lastMacro s.2 (earlier.flatMap (·.definitions))) F T R ∧
      ∀ id state, F.states.states.get (.ofEq String) id = some state →
        s'.1.states.states.get (.ofEq String) id = some state := by
  induction earlier' generalizing s stages with
  | nil =>
    cases stages with
    | nil => cases h
    | cons T stages =>
      obtain ⟨R, u, Rs, hR, hRs, heq⟩ := thread_cons.mp h
      cases heq
      obtain ⟨F, hshows, rfl⟩ := showsStage_stageStatement hs hR
      exact ⟨[], T, stages, F, rfl, tables_of_stages rfl hRs, hshows,
        fun _ _ hget => getState_of_stages hRs hget⟩
  | cons R' earlier' ih =>
    cases stages with
    | nil => cases h
    | cons T stages =>
      obtain ⟨R, u, Rs, hR, hRs, heq⟩ := thread_cons.mp h
      cases heq
      obtain ⟨F, hshows, rfl⟩ := showsStage_stageStatement hs hR
      obtain ⟨earlier, T', later, F', rfl, htables, hshows', hstates⟩ := ih rfl hRs
      refine ⟨T :: earlier, T', later, F', rfl, htables, ?_, hstates⟩
      rw [List.flatMap_cons]
      unfold lastMacro at hshows' ⊢
      rwa [List.foldl_append]

/-! ## Names of stages -/

theorem mem_keys_declareStage {stages : StageFactory ConditionResult} {id : String} :
    id ∈ (stages.declareStage id).stages.keys := by
  unfold StageFactory.declareStage StageFactory.makeStage
  split
  · next hsome =>
    by_contra hnot
    rw [BucketMap.get_eq_none_iff.mpr hnot] at hsome
    cases hsome
  · change id ∈ (stages.stages.putNew spreadHash id _).keys
    rw [BucketMap.keys_putNew]
    exact List.mem_append_right _ (List.mem_singleton_self _)

/-- **A stage's name stays.** -/
theorem keys_of_stages {s s' : Factories × Option String} {stages : List StageStatementContext}
    {Rs : List ResolvedStage} (h : thread stageStatement s stages = some (Rs, s'))
    (hs : 0 < s.1.stages.stages.capacity) :
    0 < s'.1.stages.stages.capacity ∧
      (∀ id ∈ s.1.stages.stages.keys, id ∈ s'.1.stages.stages.keys) ∧
      ∀ T ∈ stages, T.identifier ∈ s'.1.stages.stages.keys := by
  induction stages generalizing s Rs with
  | nil =>
    cases h
    exact ⟨hs, fun _ hid => hid, fun _ hT => by cases hT⟩
  | cons T stages ih =>
    obtain ⟨R, u, Rs, hR, hRs, rfl⟩ := thread_cons.mp h
    obtain ⟨F, current⟩ := s
    obtain ⟨⟨results, F₁, c⟩, hdefinitions, hR⟩ := Option.bind_eq_some_iff.mp hR
    obtain ⟨F₂, hbody, hR⟩ := Option.bind_eq_some_iff.mp hR
    obtain ⟨⟨states, F₃⟩, hstates, hR⟩ := Option.bind_eq_some_iff.mp hR
    obtain ⟨table, htable, hR⟩ := Option.map_eq_some_iff.mp hR
    cases hR
    have hlearns := (learns_definitions hdefinitions).trans ((learns_stageBody hbody).trans
      (within_thread within_stateStatement hstates).learns)
    obtain ⟨hcapacity, hkeys, hnames⟩ := ih hRs
      (hlearns.capacity (StageFactory.capacity_makeStage hs))
    refine ⟨hcapacity, fun id hid => ?_, fun T' hT' => ?_⟩
    · exact hkeys id (hlearns.extend.stage (StageFactory.mem_keys_makeStage hid))
    · rcases List.mem_cons.mp hT' with rfl | hT'
      · exact hkeys _ (hlearns.extend.stage mem_keys_declareStage)
      · exact hnames T' hT'

end Factories

end Xl

end FlowBlaze
