import FlowBlaze.Xl.MacroActions
import FlowBlaze.Xl.PieceStages
/-!
# Closed stages

A row sends its flow to a state, and the flow stays in the stage: so the
state should be one of those that the stage declares. States have one
name table for the whole program, and a name that is referred to in one
stage can be declared in another. So the rows of a stage stay in the
stage exactly when its own transitions do.
-/

namespace FlowBlaze

namespace Xl

open Common

/-! ## Stages and their statements -/

/-- **A stage of the compiled program, from its statement**: the last one
of its name, with the factories at the end of it. -/
structure MadeFrom (orders : Orders) (P : ProgramContext) (stage : CompiledStage)
    (earlier : List StageStatementContext) (T : StageStatementContext)
    (later : List StageStatementContext) (F : Factories) (R : ResolvedStage) : Prop where
  split : P.stages = earlier ++ T :: later
  name : T.identifier = stage.name
  last : ∀ T' ∈ later, T'.identifier ≠ stage.name
  shows : Factories.ShowsStage (lastMacro none (earlier.flatMap (·.definitions))) F T R
  label : ∀ id state, F.states.states.get (.ofEq String) id = some state →
    P.label id = some state
  rows : ∃ rows, R.rows orders = some rows ∧
    stage.table.tableRows.map TableRow.bare = rows.map TableRow.bare

/-- **The stages of an accepted program** are made from their statements. -/
theorem compile_madeFrom {orders : Orders} {P : ProgramContext} {stages : List CompiledStage}
    (h : compile orders P = some stages) :
    (∀ stage ∈ stages, ∃ earlier T later F R, MadeFrom orders P stage earlier T later F R) ∧
      ∀ T ∈ P.stages, ∃ stage ∈ stages, stage.name = T.identifier := by
  obtain ⟨custom, Rs, s', hprogram, hcomes, hnames⟩ := compile_tables h
  obtain ⟨s, hstages, hcurrent, hstates, hmacros, hlearns⟩ := Factories.stages_of_program hprogram
  refine ⟨fun stage hstage => ?_, fun T hT => ?_⟩
  · obtain ⟨earlier', R, later', hsplit, hname, hlast, hrows⟩ := hcomes stage hstage
    rw [hsplit] at hstages
    obtain ⟨earlier, T, later, F, hP, htables, hshows, hlabel⟩ :=
      Factories.showsStage_of_split hmacros hstages
    rw [hcurrent] at hshows
    refine ⟨earlier, T, later, F, R, hP, ?_, fun T' hT' => ?_, hshows, fun id state hget => ?_,
      hrows⟩
    · rw [← hshows.table, hname]
    · have hmem : T'.identifier ∈ later'.map (·.table) := by
        rw [htables]
        exact List.mem_map_of_mem hT'
      obtain ⟨R', hR', heq⟩ := List.mem_map.mp hmem
      rw [← heq]
      exact hlast R' hR'
    · rw [Factories.label_of_program hprogram]
      exact hlabel id state hget
  · have hcapacity : 0 < s.1.stages.stages.capacity := hlearns.capacity (by decide)
    obtain ⟨hcap, -, hkeys⟩ := Factories.keys_of_stages hstages hcapacity
    have hmem : T.identifier ∈ stages.map (·.name) := by
      rw [hnames]
      exact (BucketMap.perm_keySet hcap).mem_iff.mpr (hkeys T hT)
    exact List.mem_map.mp hmem

/-- The last statement of a name is one. -/
theorem eq_of_last {name : String} {earlier earlier' later later' : List StageStatementContext}
    {T T' : StageStatementContext} (h : earlier ++ T :: later = earlier' ++ T' :: later')
    (hT : T.identifier = name) (hT' : T'.identifier = name)
    (hlast : ∀ U ∈ later, U.identifier ≠ name) (hlast' : ∀ U ∈ later', U.identifier ≠ name) :
    earlier = earlier' ∧ T = T' := by
  induction earlier generalizing earlier' with
  | nil =>
    cases earlier' with
    | nil => exact ⟨rfl, (List.cons.inj h).1⟩
    | cons U earlier' =>
      obtain ⟨rfl, hlater⟩ := List.cons.inj h
      refine absurd hT' (hlast T' ?_)
      rw [hlater]
      exact List.mem_append_right _ List.mem_cons_self
  | cons U earlier ih =>
    cases earlier' with
    | nil =>
      obtain ⟨rfl, hlater⟩ := List.cons.inj h
      refine absurd hT (hlast' T ?_)
      rw [← hlater]
      exact List.mem_append_right _ List.mem_cons_self
    | cons U' earlier' =>
      obtain ⟨rfl, hrest⟩ := List.cons.inj h
      obtain ⟨rfl, hTT'⟩ := ih hrest
      exact ⟨rfl, hTT'⟩

/-! ## Transitions -/

/-- The states a piece goes to. -/
def Piece.nextStates : Piece → List String
  | .action a => a.nextStates
  | .serial _ _ => []

/-- **The transitions of a state statement.** -/
def StateStatementContext.transitions (env : MacroPieces) (S : StateStatementContext) :
    List String :=
  S.bodies.flatMap fun body => (body.flatMap env.ofElement).flatMap Piece.nextStates

/-- The targets of actions. -/
def targets (acts : List Action) : List State := acts.filterMap Action.target

namespace Factories

variable {F : Factories} {env : MacroPieces} {p : Piece} {ps : List Piece} {xs : List Action}

/-- These names have these labels. -/
def Labels (F : Factories) (names : List String) (states : List State) : Prop :=
  List.Forall₂ (fun name state => F.states.states.get (.ofEq String) name = some state) names states

theorem labels_of_means {a : ActionContext} {x : Action} (h : Means F a x) :
    Labels F a.nextStates (targets [x]) := by
  unfold Means Resolves at h
  cases a with
  | assignment identifier expr =>
    obtain ⟨y, hy, hx⟩ := Option.map_eq_some_iff.mp h
    cases hx
    obtain ⟨_, -, hy⟩ := Option.bind_eq_some_iff.mp hy
    obtain ⟨_, -, rfl⟩ := Option.map_eq_some_iff.mp hy
    exact .nil
  | call id terms =>
    rcases exitCall_cases h with ⟨term, rfl, rfl, hx, hF⟩ | ⟨_, _, -, -, hx, -⟩ | ⟨-, hx, -⟩ |
      ⟨term, rfl, rfl, hx, -⟩ | ⟨_, -, -, hx, -⟩ | ⟨args, action, -, -, haction, hx, -⟩
    · cases hx
      have hstates : (F.states.referenceState term.getText).2 = F.states :=
        (congrArg Factories.states hF).symm
      exact .cons (StateFactory.get_of_referenceState_eq hstates) .nil
    · cases hx
    · cases hx
    · cases hx
      exact .nil
    · cases hx
    · cases hx
      rw [nextStates_of_reserved (reserved_of_isSome haction)]
      exact .nil

theorem labels_of_stands (h : Stands F p xs) : Labels F p.nextStates (targets xs) := by
  cases h with
  | action hx => exact labels_of_means hx
  | key hid => rcases hid with rfl | rfl <;> exact .nil
  | serial _ => exact .nil

theorem labels_of_shows (h : Shows F ps xs) :
    Labels F (ps.flatMap Piece.nextStates) (targets xs) := by
  induction h with
  | nil => exact .nil
  | cons hp _ ih =>
    rw [List.flatMap_cons]
    unfold targets
    rw [List.filterMap_append]
    exact List.rel_append (labels_of_stands hp) ih

/-- The serial blocks of an event bring no transition either. -/
theorem nextStates_inEvent (element : BodyElement) :
    (env.inEvent element).flatMap Piece.nextStates =
      (env.ofElement element).flatMap Piece.nextStates := by
  cases element with
  | action a => rfl
  | serial actions => rfl

theorem labels_flatMap {α β : Type} {names : α → List String} {acts : β → List Action} {as : List α}
    {bs : List β} (h : List.Forall₂ (fun a b => Labels F (names a) (targets (acts b))) as bs) :
    Labels F (as.flatMap names) (targets (bs.flatMap acts)) := by
  induction h with
  | nil => exact .nil
  | cons hab _ ih =>
    rw [List.flatMap_cons, List.flatMap_cons]
    unfold targets at hab ih ⊢
    rw [List.filterMap_append]
    exact List.rel_append hab ih

/-- **The targets of a state statement** are the labels of its transitions. -/
theorem labels_of_showsState {S : StateStatementContext} {S' : StateStatement ConditionResult}
    (h : ShowsState env F S S') : Labels F (S.transitions env) (targets S'.allActions) := by
  have hevents : Labels F (S.eventStatements.flatMap fun b =>
      (b.body :: b.conditionStatements.map (·.body)).flatMap fun body =>
        (body.flatMap env.ofElement).flatMap Piece.nextStates)
      (targets (S'.eventStatements.flatMap (·.allActions))) := by
    refine labels_flatMap (h.eventStatements.imp fun b b' hb => ?_)
    have hbody := labels_of_shows hb.actions
    have hsame : (b.body.flatMap env.inEvent).flatMap Piece.nextStates =
        (b.body.flatMap env.ofElement).flatMap Piece.nextStates := by
      rw [List.flatMap_assoc, List.flatMap_assoc]
      exact List.flatMap_congr fun element _ => nextStates_inEvent element
    rw [hsame] at hbody
    rw [List.flatMap_cons, List.flatMap_map]
    unfold EventStatement.allActions targets
    rw [List.filterMap_append]
    exact List.rel_append hbody
      (labels_flatMap (hb.conditionStatements.imp fun c c' hc => labels_of_shows hc))
  unfold StateStatementContext.transitions StateStatementContext.bodies StateStatement.allActions
    targets
  rw [List.flatMap_cons, List.flatMap_assoc (l := S.eventStatements), List.filterMap_append]
  exact List.rel_append (labels_of_shows h.actions) hevents

end Factories

/-! ## Closed stages -/

/-- The transitions of a stage. -/
def StageStatementContext.transitions (T : StageStatementContext) (current : Option String) :
    List String :=
  T.stateStatements.flatMap (·.transitions (T.macroPieces MacroPieces.stored current))

/-- The states that a stage declares, in its last statement. -/
def ProgramContext.statesOf (P : ProgramContext) (name : String) : List String :=
  (((P.stages.filter fun T => T.identifier = name).getLast?.map (·.stateStatements)).getD []).map
    (·.identifier)

/-- **The tables of a program are closed**: each row goes to a state of its
own stage. -/
def TablesClosed (P : ProgramContext) (stages : List CompiledStage) : Prop :=
  ∀ stage ∈ stages, ∀ row ∈ stage.table.tableRows,
    ∃ id ∈ P.statesOf stage.name, P.label id = some row.nextState

/-- **The transitions of a program are closed**: what a stage goes to has
the label of a state that it declares. Macro actions count as their
bodies, without what these call. -/
def TransitionsClosed (P : ProgramContext) : Prop :=
  ∀ earlier T later, P.stages = earlier ++ T :: later →
    (∀ T' ∈ later, T'.identifier ≠ T.identifier) →
    ∀ id ∈ T.transitions (lastMacro none (earlier.flatMap (·.definitions))),
      ∃ own ∈ P.statesOf T.identifier, P.label own = P.label id

theorem statesOf_of_last {P : ProgramContext} {earlier later : List StageStatementContext}
    {T : StageStatementContext} (h : P.stages = earlier ++ T :: later)
    (hlast : ∀ T' ∈ later, T'.identifier ≠ T.identifier) :
    P.statesOf T.identifier = T.stateStatements.map (·.identifier) := by
  have hlater : later.filter (fun U => U.identifier = T.identifier) = [] :=
    List.filter_eq_nil_iff.mpr fun U hU => by simpa using hlast U hU
  unfold ProgramContext.statesOf
  rw [h, List.filter_append, List.filter_cons, if_pos (decide_eq_true rfl), hlater,
    List.getLast?_concat]
  rfl

variable {orders : Orders} {P : ProgramContext} {stage : CompiledStage}
  {earlier later : List StageStatementContext} {T : StageStatementContext} {F : Factories}
  {R : ResolvedStage}

theorem mem_targets {t : State} {acts : List Action} :
    t ∈ targets acts ↔ Action.stateTransition t ∈ acts := by
  unfold targets
  rw [List.mem_filterMap]
  constructor
  · rintro ⟨a, ha, hat⟩
    cases a with
    | stateTransition u =>
      cases hat
      exact ha
    | stageTransition stage => cases hat
    | sequentializable action => cases hat
    | sequentialActions actions => cases hat
  · exact fun h => ⟨_, h, rfl⟩

/-- Rows that are the same but for their conditions go to the same states. -/
theorem forall_nextState_of_bare {D : State → Prop} {rows rows' : List (TableRow ConditionResult)}
    (h : rows.map TableRow.bare = rows'.map TableRow.bare) :
    (∀ row ∈ rows, D row.nextState) ↔ ∀ row ∈ rows', D row.nextState := by
  have hbare : ∀ l : List (TableRow ConditionResult),
      (∀ row ∈ l, D row.nextState) ↔ ∀ row ∈ l.map TableRow.bare, D row.nextState := fun l => by
    rw [List.forall_mem_map]
    rfl
  rw [hbare, h, ← hbare]

/-- **The table of one stage.** -/
theorem MadeFrom.closed_iff (h : MadeFrom orders P stage earlier T later F R) :
    (∀ row ∈ stage.table.tableRows, ∃ id ∈ P.statesOf stage.name, P.label id = some row.nextState) ↔
      ∀ id ∈ T.transitions (lastMacro none (earlier.flatMap (·.definitions))),
        ∃ own ∈ P.statesOf T.identifier, P.label own = P.label id := by
  obtain ⟨rows, hrows, hbare⟩ := h.rows
  have hlast : ∀ T' ∈ later, T'.identifier ≠ T.identifier := fun T' hT' => by
    rw [h.name]
    exact h.last T' hT'
  have hown : ∀ S' ∈ R.states, ∃ id ∈ P.statesOf stage.name, P.label id = some S'.2.state := by
    intro S' hS'
    obtain ⟨i, hi, rfl⟩ := List.getElem_of_mem hS'
    have hi' : i < T.stateStatements.length := h.shows.states.length_eq ▸ hi
    refine ⟨T.stateStatements[i].identifier, ?_, h.label _ _ (h.shows.states.get hi' hi).state⟩
    rw [← h.name, statesOf_of_last h.split hlast]
    exact List.mem_map_of_mem (List.getElem_mem hi')
  -- the targets of the stage's blocks, name by name
  have hlabels : Factories.Labels F
      (T.transitions (lastMacro none (earlier.flatMap (·.definitions))))
      (targets (R.states.flatMap fun S' => S'.2.allActions)) :=
    Factories.labels_flatMap (h.shows.states.imp fun S S' hS => Factories.labels_of_showsState hS)
  have hsame := forall_nextState_of_bare
    (D := fun t => ∃ id ∈ P.statesOf stage.name, P.label id = some t) hbare
  have hstates := nextState_iff
    (D := fun t => ∃ id ∈ P.statesOf stage.name, P.label id = some t) hrows hown
  refine (hsame.trans hstates).trans ⟨?_, ?_⟩
  · intro hstay id hid
    obtain ⟨i, hi, rfl⟩ := List.getElem_of_mem hid
    have hi' := hlabels.length_eq ▸ hi
    have hlabel := h.label _ _ (hlabels.get hi hi')
    obtain ⟨S', hS', hmem⟩ := List.mem_flatMap.mp (mem_targets.mp (List.getElem_mem hi'))
    obtain ⟨own, hown, heq⟩ := hstay S' hS' _ hmem
    exact ⟨own, h.name ▸ hown, heq.trans hlabel.symm⟩
  · intro hclosed S' hS' t ht
    have hmem : t ∈ targets (R.states.flatMap fun S' => S'.2.allActions) :=
      mem_targets.mpr (List.mem_flatMap.mpr ⟨S', hS', ht⟩)
    obtain ⟨i, hi, rfl⟩ := List.getElem_of_mem hmem
    have hi' := hlabels.length_eq ▸ hi
    obtain ⟨own, hown, heq⟩ := hclosed _ (List.getElem_mem hi')
    exact ⟨own, h.name ▸ hown, heq.trans (h.label _ _ (hlabels.get hi' hi))⟩

/-- **The tables of an accepted program are closed** exactly when its
transitions are. -/
theorem tablesClosed_iff {stages : List CompiledStage} (h : compile orders P = some stages) :
    TablesClosed P stages ↔ TransitionsClosed P := by
  obtain ⟨hmade, hstage⟩ := compile_madeFrom h
  constructor
  · intro hclosed earlier T later hsplit hlast
    obtain ⟨stage, hmem, hname⟩ := hstage T (by
      rw [hsplit]
      exact List.mem_append_right _ List.mem_cons_self)
    obtain ⟨earlier', T', later', F, R, hfrom⟩ := hmade stage hmem
    obtain ⟨rfl, rfl⟩ := eq_of_last (hfrom.split.symm.trans hsplit) hfrom.name hname.symm
      hfrom.last fun U hU => hname ▸ hlast U hU
    exact hfrom.closed_iff.mp (hclosed stage hmem)
  · intro hclosed stage hmem
    obtain ⟨earlier, T, later, F, R, hfrom⟩ := hmade stage hmem
    exact hfrom.closed_iff.mpr (hclosed earlier T later hfrom.split fun U hU => by
      rw [hfrom.name]
      exact hfrom.last U hU)

/-! ## Two stages -/

/-- A stage whose flows, on a packet, go from state `A` to this one. -/
def stageTo (name target : String) (states : List String) : StageStatementContext :=
  ⟨name, [], [.action (.call "setFlowKey" [])],
    ⟨true, "A", [], [⟨"pktRcvd", [.action (.call "setNextState" [.identifier target])], []⟩]⟩ ::
      states.map fun state => ⟨false, state, [], []⟩⟩

/-- Two stages that each declare where they go to, the first one after
going there. -/
def closedProgram : ProgramContext :=
  .stageProgram [] [stageTo "s1" "B" ["B"], stageTo "s2" "B" ["B"]]

/-- Its tables are closed. -/
theorem tablesClosed_closedProgram :
    ∃ stages, compile keyOrders closedProgram = some stages ∧
      TablesClosed closedProgram stages := by
  have hsome : (compile keyOrders closedProgram).isSome = true := by decide +kernel
  obtain ⟨stages, hstages⟩ := Option.isSome_iff_exists.mp hsome
  refine ⟨stages, hstages, (tablesClosed_iff hstages).mpr fun earlier T later hsplit hlast => ?_⟩
  have hT : T ∈ closedProgram.stages := by
    rw [hsplit]
    exact List.mem_append_right _ List.mem_cons_self
  -- both go to the state they declare, whatever macro action was met last
  have hB : T.transitions (lastMacro none (earlier.flatMap (·.definitions))) = ["B"] ∧
      closedProgram.statesOf T.identifier = ["A", "B"] := by
    rcases List.mem_cons.mp hT with rfl | hT
    · exact ⟨rfl, by decide⟩
    · cases List.mem_singleton.mp hT
      exact ⟨rfl, by decide⟩
  intro id hid
  rw [hB.1] at hid
  rw [hB.2, List.mem_singleton.mp hid]
  exact ⟨"B", by decide, rfl⟩

/-- The first stage goes to a state that only the second declares. -/
def openProgram : ProgramContext :=
  .stageProgram [] [stageTo "s1" "B" [], stageTo "s2" "B" ["B"]]

/-- **A transition into another stage** is accepted: the table of the first
stage has a row to a state that is not one of the stage. -/
theorem not_tablesClosed :
    ∃ stages, compile keyOrders openProgram = some stages ∧ ¬ TablesClosed openProgram stages := by
  have hsome : (compile keyOrders openProgram).isSome = true := by decide +kernel
  obtain ⟨stages, hstages⟩ := Option.isSome_iff_exists.mp hsome
  refine ⟨stages, hstages, fun hclosed => ?_⟩
  have hall : ((compile keyOrders openProgram).map fun stages => stages.all fun stage =>
      stage.table.tableRows.all fun row => (openProgram.statesOf stage.name).any fun id =>
        openProgram.label id == some row.nextState) = some false := by decide +kernel
  rw [hstages, Option.map_some] at hall
  revert hall
  simp only [Option.some.injEq, imp_false, Bool.not_eq_false]
  refine List.all_eq_true.mpr fun stage hstage => List.all_eq_true.mpr fun row hrow => ?_
  obtain ⟨id, hid, hlabel⟩ := hclosed stage hstage row hrow
  exact List.any_eq_true.mpr ⟨id, hid, by rw [hlabel]; exact beq_self_eq_true _⟩

end Xl

end FlowBlaze
