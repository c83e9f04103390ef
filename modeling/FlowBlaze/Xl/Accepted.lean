import FlowBlaze.Xl.StageTables
/-!
# Accepted programs

When the compiler accepts a program whose names are resolved: the
conditions of its custom events have a row to go to, every stage has one
initial state, the names that stand for stages and states are declared,
and the transitions of every row can be taken out. Only the last of these
depends on the transitions.
-/

namespace FlowBlaze

namespace Xl

open Common

/-- A list is mapped if its members are. -/
theorem mapM_isSome_iff {α β : Type} {f : α → Option β} {xs : List α} :
    (xs.mapM f).isSome = true ↔ ∀ x ∈ xs, (f x).isSome = true := by
  induction xs with
  | nil => exact iff_of_true rfl fun x hx => by cases hx
  | cons x xs ih =>
    rw [List.mapM_cons, List.forall_mem_cons, ← ih]
    cases f x with
    | none => exact iff_of_false (fun h => by cases h) fun h => by cases h.1
    | some y =>
      cases xs.mapM f with
      | none => exact iff_of_false (fun h => by cases h) fun h => by cases h.2
      | some ys => exact iff_of_true rfl ⟨rfl, rfl⟩

/-! ## Rows for custom events -/

/-- The initial state of a stage's table. -/
def ResolvedStage.initial (R : ResolvedStage) : Option State :=
  (R.states.foldlM (fun initial S => XtraCompiler.initialAfter initial S.1 S.2.state) none).join

/-- A stage with a row for conditions. -/
def ResolvedStage.makesRow (R : ResolvedStage) : Bool :=
  R.states.any fun S => S.2.eventStatements.any (·.makesRow)

/-- **The conditions of custom events** stand behind a row, which they are
added to. -/
def CustomAfterRow : Bool → List ResolvedStage → Prop
  | _, [] => True
  | made, R :: Rs =>
    (R.customConditions.flatten = [] ∨ made = true) ∧ CustomAfterRow (made || R.makesRow) Rs

section Custom

variable {M M' : CompilerStateMachine ConditionResult} {results : List ConditionResult}

theorem exitCondition_eq_none_iff {result : ConditionResult} :
    exitCondition M result = none ↔ M.rows.current = none := by
  unfold exitCondition TableRowFactory.addConditionResult
  cases M.rows.current <;> simp

theorem current_exitCondition {result : ConditionResult} (h : exitCondition M result = some M') :
    M'.rows.current = M.rows.current := by
  obtain ⟨rows, hrows, rfl⟩ := Option.map_eq_some_iff.mp h
  obtain ⟨ref, -, rfl⟩ := Option.map_eq_some_iff.mp hrows
  rfl

theorem current_exitConditions (h : results.foldlM exitCondition M = some M') :
    M'.rows.current = M.rows.current :=
  foldlM_invariant (I := fun N => N.rows.current = M.rows.current)
    (fun _ _ _ hN h => (current_exitCondition h).trans hN) rfl h

theorem exitConditions_isSome :
    (results.foldlM exitCondition M).isSome = true ↔
      results = [] ∨ M.rows.current.isSome = true := by
  induction results generalizing M with
  | nil => exact iff_of_true rfl (.inl rfl)
  | cons result results ih =>
    rw [List.foldlM_cons]
    cases hexit : exitCondition M result with
    | none =>
      refine iff_of_false (fun h => by cases h) ?_
      rw [exitCondition_eq_none_iff.mp hexit]
      rintro (h | h) <;> cases h
    | some N =>
      have hcurrent := current_exitCondition hexit
      have hsome : M.rows.current.isSome = true := by
        cases hM : M.rows.current with
        | none =>
          rw [exitCondition_eq_none_iff.mpr hM] at hexit
          cases hexit
        | some ref => rfl
      refine (ih (M := N)).trans (iff_of_true (.inr ?_) (.inr hsome))
      rw [hcurrent]
      exact hsome

end Custom

namespace XtraCompiler

variable {orders : Orders} {t t' u : Rows} {R : ResolvedStage} {Rs : List ResolvedStage}
  {objects old : List (TableRow ConditionResult)} {current : Option ℕ} {refs : List ℕ}
  {stage : Option Stage} {before : Option Event} {last : Option State}

/-- The custom events of a stage. -/
theorem customConditions_isSome {custom : List (List ConditionResult)} :
    (custom.foldlM Rows.exitConditions t).isSome = true ↔
      custom.flatten = [] ∨ t.machine.rows.current.isSome = true := by
  induction custom generalizing t with
  | nil => exact iff_of_true rfl (.inl rfl)
  | cons results custom ih =>
    rw [List.foldlM_cons, List.flatten_cons, List.append_eq_nil_iff]
    unfold Rows.exitConditions
    cases hexit : results.foldlM Xl.exitCondition t.machine with
    | none =>
      have hnone : ¬(results = [] ∨ t.machine.rows.current.isSome = true) := fun h => by
        rw [← exitConditions_isSome, hexit] at h
        cases h
      refine iff_of_false (fun h => by cases h) ?_
      rintro (⟨h, -⟩ | h)
      · exact hnone (.inl h)
      · exact hnone (.inr h)
    | some M =>
      have hcurrent := current_exitConditions hexit
      have hsome : results = [] ∨ t.machine.rows.current.isSome = true := by
        rw [← exitConditions_isSome, hexit]
        rfl
      refine (ih (t := t.holding M)).trans ?_
      rw [show (t.holding M).machine.rows.current = t.machine.rows.current from hcurrent]
      constructor
      · rintro (h | h)
        · rcases hsome with hnil | hsome
          · exact .inl ⟨hnil, h⟩
          · exact .inr hsome
        · exact .inr h
      · rintro (⟨-, h⟩ | h)
        · exact .inl h
        · exact .inr h

/-! ## Blocks, stages and programs -/

/-- **The blocks of a stage** are walked if its initial states agree and its
rows can be settled. -/
theorem walkStates_eq {name : String} {states : List (Bool × StateStatement ConditionResult)}
    {initial : Option State} (hrefs : Kept old refs stage) :
    (states.foldlM (walkStateInitial name orders)
        (between before last stage old refs current, initial)).map
          (fun t => (t.2, t.1.rows.current.isSome)) =
      (states.foldlM (fun initial S => initialAfter initial S.1 S.2.state) initial).bind
        fun initial => (settledBlocks orders states).map fun _ =>
          (initial, current.isSome ||
            states.any fun S => S.2.eventStatements.any (·.makesRow)) := by
  induction states generalizing before last old refs current initial with
  | nil =>
    rw [List.any_nil, Bool.or_false]
    rfl
  | cons S states ih =>
    obtain ⟨current₁, hcurrent, hwalk⟩ := @walkState_idle _ _ _ current before name last S.2 hrefs
    rw [List.foldlM_cons, List.foldlM_cons]
    unfold walkStateInitial
    rw [hwalk orders]
    cases initialAfter initial S.1 S.2.state with
    | none => rfl
    | some initial' =>
      unfold settledBlocks at ih ⊢
      rw [List.mapM_cons]
      cases hrows : (blockRows orders.event S.2).mapM TableRow.settle with
      | none =>
        simp only [Option.bind_eq_bind, Option.bind_some, Option.map_none, Option.bind_none]
        exact (Option.bind_fun_none _).symm
      | some new =>
        simp only [Option.bind_eq_bind, Option.bind_some, Option.map_some]
        refine (ih (hrefs.append hrows)).trans ?_
        rw [hcurrent, List.any_cons, Bool.or_assoc]
        refine Option.bind_congr fun i _ => ?_
        cases (states.mapM fun S => (blockRows orders.event S.2).mapM TableRow.settle) <;> rfl

/-- **A stage** is walked if its custom events have a row to go to, its
initial state is one, and its rows can be settled. -/
theorem walkStage_eq (ht : t.outside) (hrows : t.machine.rows = idle objects [] current) :
    (t.walkStage orders R).map (fun t => t.machine.rows.current.isSome) =
      if R.customConditions.flatten = [] ∨ current.isSome = true then
        R.initial.bind fun _ => (settledBlocks orders R.states).map fun _ =>
          current.isSome || R.makesRow
      else none := by
  unfold Rows.walkStage
  have hinside : t.machine.goInsideBlock R.identifier = some { t.machine with
      compilerState := .inStageBlock
      lastDeclaredStage := some (.declared R.identifier) } := by
    unfold CompilerStateMachine.goInsideBlock
    rcases ht with ht | ht <;> rw [ht]
  rw [hinside, Option.bind_some]
  set M : CompilerStateMachine ConditionResult := { t.machine with
    compilerState := .inStageBlock
    lastDeclaredStage := some (.declared R.identifier) } with hM
  have hcurrent : (⟨M, none, t.tables⟩ : Rows).machine.rows.current = current := by
    rw [hM]
    exact congrArg TableRowFactory.current hrows
  have hcustom := @customConditions_isSome ⟨M, none, t.tables⟩ R.customConditions
  rw [hcurrent] at hcustom
  cases hu : R.customConditions.foldlM Rows.exitConditions ⟨M, none, t.tables⟩ with
  | none =>
    rw [hu] at hcustom
    rw [if_neg fun h => by cases hcustom.mpr h]
    rfl
  | some u =>
    rw [hu] at hcustom
    rw [if_pos (hcustom.mp rfl), Option.bind_some]
    obtain ⟨objects₁, rfl, -⟩ := exitConditions_custom (t := ⟨M, none, t.tables⟩)
      (by rw [hM]; exact hrows) hu
    have hnone : Kept objects₁ [] (some (.declared R.identifier)) := fun ref href => by cases href
    have hwalk := @walkStates_eq orders objects₁ current [] _ t.machine.currentEvent
      t.machine.currentState R.identifier R.states none hnone
    change Option.map _ ((R.states.foldlM (walkStateInitial R.identifier orders)
      (between t.machine.currentEvent t.machine.currentState (some (.declared R.identifier))
        objects₁ [] current, none)).bind _) = _
    unfold ResolvedStage.initial ResolvedStage.makesRow
    generalize R.states.foldlM (fun initial S => initialAfter initial S.1 S.2.state) none =
      initials at hwalk ⊢
    cases hstates : R.states.foldlM (walkStateInitial R.identifier orders)
      (between t.machine.currentEvent t.machine.currentState (some (.declared R.identifier))
        objects₁ [] current, none) with
    | none =>
      rw [hstates] at hwalk
      cases initials with
      | none => rfl
      | some initial =>
        have hsettled : settledBlocks orders R.states = none :=
          Option.map_eq_none_iff.mp hwalk.symm
        rw [hsettled]
        cases initial <;> rfl
    | some s =>
      obtain ⟨N, initial'⟩ := s
      rw [hstates] at hwalk
      obtain ⟨initial, rfl, hsome⟩ := Option.bind_eq_some_iff.mp hwalk.symm
      obtain ⟨rows, hsettled, hpair⟩ := Option.map_eq_some_iff.mp hsome
      obtain ⟨rfl, hmade⟩ := Prod.mk.injEq _ _ _ _ ▸ hpair
      have hblock : N.compilerState = .inStageBlock :=
        compilerState_walkStates (t := (between t.machine.currentEvent t.machine.currentState
          (some (.declared R.identifier)) objects₁ [] current, none)) rfl hstates
      rw [hsettled, Option.bind_some]
      cases initial with
      | none => rfl
      | some initialState =>
        simp only [Option.bind_some, Option.join_some, Option.map_some, Option.map_map]
        unfold CompilerStateMachine.goOutsideBlock
        simp only [hblock, Option.map_some, hmade]
        rfl

/-- All stages. -/
theorem walkStages_isSome (ht : t.outside) (hrows : t.machine.rows = idle objects [] current) :
    (Rs.foldlM (Rows.walkStage orders) t).isSome = true ↔
      CustomAfterRow current.isSome Rs ∧
        ∀ R ∈ Rs, R.initial.isSome = true ∧ (settledBlocks orders R.states).isSome = true := by
  induction Rs generalizing t objects current with
  | nil => exact iff_of_true rfl ⟨trivial, fun R hR => by cases hR⟩
  | cons R Rs ih =>
    rw [List.foldlM_cons, List.forall_mem_cons]
    unfold CustomAfterRow
    have hstage := @walkStage_eq orders t R objects current ht hrows
    cases hwalk : t.walkStage orders R with
    | none =>
      refine iff_of_false (fun h => by cases h) ?_
      rintro ⟨⟨hcustom, -⟩, ⟨hinitial, hsettled⟩, -⟩
      obtain ⟨initial, hinitial⟩ := Option.isSome_iff_exists.mp hinitial
      obtain ⟨rows, hsettled⟩ := Option.isSome_iff_exists.mp hsettled
      rw [hwalk, if_pos hcustom, hinitial, hsettled] at hstage
      cases hstage
    | some t' =>
      obtain ⟨_, objects', current', _, _, -, hrows', -⟩ := walkStage_tables ht hrows hwalk
      rw [hwalk] at hstage
      have hcustom : R.customConditions.flatten = [] ∨ current.isSome = true := by
        by_contra hno
        rw [if_neg hno] at hstage
        cases hstage
      rw [if_pos hcustom] at hstage
      obtain ⟨initial, hinitial, hsome⟩ := Option.bind_eq_some_iff.mp hstage.symm
      obtain ⟨rows, hsettled, hmade⟩ := Option.map_eq_some_iff.mp hsome
      have hcurrent : current'.isSome = (current.isSome || R.makesRow) :=
        (congrArg (fun rows : TableRowFactory ConditionResult => rows.current.isSome)
          hrows').symm.trans hmade.symm
      refine (ih (.inr (outside_walkStage ht hwalk)) hrows').trans ?_
      rw [hcurrent, hinitial, hsettled]
      exact ⟨fun h => ⟨⟨hcustom, h.1⟩, ⟨rfl, rfl⟩, h.2⟩, fun h => ⟨h.1.2, h.2.2⟩⟩

/-- The names of the tables. -/
theorem tables_walkStages {name : String} (ht : t.outside)
    (hrows : t.machine.rows = idle objects [] current)
    (hwalk : Rs.foldlM (Rows.walkStage orders) t = some t') :
    (t'.tables.get (.ofEq String) name).isSome = true ↔
      (t.tables.get (.ofEq String) name).isSome = true ∨ ∃ R ∈ Rs, R.table = name := by
  induction Rs generalizing t objects current with
  | nil =>
    cases hwalk
    simp
  | cons R Rs ih =>
    rw [List.foldlM_cons] at hwalk
    obtain ⟨u, hu, hwalk⟩ := Option.bind_eq_some_iff.mp hwalk
    obtain ⟨_, objects', current', _, _, -, hrows', -, htables, -⟩ := walkStage_tables ht hrows hu
    rw [ih (.inr (outside_walkStage ht hu)) hrows' hwalk, htables, LinkedHashMap.get_put,
      List.exists_mem_cons_iff]
    by_cases hname : name = R.table
    · rw [if_pos hname]
      exact iff_of_true (.inl rfl) (.inr (.inl hname.symm))
    · rw [if_neg hname]
      exact or_congr_right (or_iff_right (Ne.symm hname)).symm

/-- **The end of a program**: its stages are declared and have tables, and
no state is pending. -/
theorem exitProgram_isSome_iff {X : XtraCompiler} :
    X.exitProgram.isSome = true ↔ X.factories.stages.getStages.toOption.isSome = true ∧
      (∀ name ∈ X.factories.stages.stages.keySet spreadHash,
        (X.tables.get (.ofEq String) name).isSome = true) ∧
      X.factories.states.checkPendings = some () := by
  unfold exitProgram
  cases hget : X.factories.stages.getStages with
  | error e => exact iff_of_false (fun h => by cases h) fun h => by cases h.1
  | ok bodies =>
    have hlength : bodies.length = (X.factories.stages.stages.keySet spreadHash).length := by
      have hmap := congrArg List.length (StageFactory.map_getStages hget)
      rwa [List.length_map, List.length_map] at hmap
    generalize hf : (fun x : String × StageBody ConditionResult => (X.tableOf x.1).map fun table =>
      (⟨x.1, x.2.label, x.2.flowKey, table⟩ : CompiledStage)) = f
    have htables : (((X.factories.stages.stages.keySet spreadHash).zip bodies).mapM f).isSome =
        true ↔ ∀ name ∈ X.factories.stages.stages.keySet spreadHash,
          (X.tables.get (.ofEq String) name).isSome = true := by
      conv_rhs => rw [← List.map_fst_zip hlength.ge]
      rw [mapM_isSome_iff, List.forall_mem_map, ← hf]
      refine forall₂_congr fun x _ => ?_
      unfold tableOf
      simp only [Option.isSome_map]
    have hexit : (do
        let bodies ← (Except.ok bodies : Except String _).toOption
        let stages ← ((X.factories.stages.stages.keySet spreadHash).zip bodies).mapM f
        X.factories.states.checkPendings
        return stages) = (((X.factories.stages.stages.keySet spreadHash).zip bodies).mapM f).bind
          fun stages => X.factories.states.checkPendings.map fun _ => stages := by
      cases X.factories.states.checkPendings <;> rfl
    rw [hexit, ← htables]
    cases ((X.factories.stages.stages.keySet spreadHash).zip bodies).mapM f with
    | none => exact iff_of_false (fun h => by cases h) fun h => by cases h.2.1
    | some stages =>
      cases X.factories.states.checkPendings with
      | none => exact iff_of_false (fun h => by cases h) fun h => by cases h.2.2
      | some u => exact iff_of_true rfl ⟨rfl, rfl, rfl⟩

end XtraCompiler

open XtraCompiler

/-- **A resolved program is in order**, but for the transitions of its
rows. -/
structure InOrder (custom : List (List ConditionResult)) (Rs : List ResolvedStage)
    (F : Factories) : Prop where
  outside : custom.flatten = []
  afterRow : CustomAfterRow false Rs
  initial : ∀ R ∈ Rs, R.initial.isSome = true
  stages : F.stages.getStages.toOption.isSome = true
  tables : ∀ name ∈ F.stages.stages.keySet spreadHash, ∃ R ∈ Rs, R.table = name
  pendings : F.states.checkPendings = some ()

/-- **Which programs are accepted**: those whose names are resolved, which
are in order, and whose rows can be settled. -/
theorem compile_isSome_iff {orders : Orders} {P : ProgramContext}
    {custom : List (List ConditionResult)} {Rs : List ResolvedStage}
    {s : Factories × Option String}
    (h : Factories.program (.initial, none) P = some ((custom, Rs), s)) :
    (compile orders P).isSome = true ↔ InOrder custom Rs s.1 ∧
      ∀ R ∈ Rs, (settledBlocks orders R.states).isSome = true := by
  have hcompile : compile orders P = ((custom.foldlM Rows.exitConditions Rows.initial).bind fun u =>
      Rs.foldlM (Rows.walkStage orders) u).bind fun t => (of s t).exitProgram := by
    unfold compile
    rw [walkProgram_eq, h]
    exact Option.bind_map
  have hcustom := @customConditions_isSome Rows.initial custom
  rw [hcompile]
  cases hu : custom.foldlM Rows.exitConditions Rows.initial with
  | none =>
    rw [hu] at hcustom
    refine iff_of_false (fun h => by cases h) fun hall => ?_
    cases hcustom.mpr (.inl hall.1.outside)
  | some u =>
    rw [hu] at hcustom
    have houtside : custom.flatten = [] := (hcustom.mp rfl).resolve_right fun h => by cases h
    obtain ⟨objects, rfl, -⟩ := @exitConditions_custom _ _ [] none _ rfl hu
    generalize hstart : Rows.initial.holding { Rows.initial.machine with
      rows := idle objects [] none } = start
    have hout : start.outside := hstart ▸ .inl rfl
    have hidle : start.machine.rows = idle objects [] none := hstart ▸ rfl
    have hstages := @walkStages_isSome orders start Rs objects none hout hidle
    rw [Option.bind_some]
    cases hwalk : Rs.foldlM (Rows.walkStage orders) start with
    | none =>
      rw [hwalk] at hstages
      refine iff_of_false (fun h => by cases h) fun hall => ?_
      cases hstages.mpr ⟨hall.1.afterRow, fun R hR => ⟨hall.1.initial R hR, hall.2 R hR⟩⟩
    | some t =>
      rw [hwalk] at hstages
      obtain ⟨hafter, hall⟩ := hstages.mp rfl
      have htables : ∀ name, (t.tables.get (.ofEq String) name).isSome = true ↔
          ∃ R ∈ Rs, R.table = name := fun name => by
        rw [tables_walkStages hout hidle hwalk, ← hstart]
        exact or_iff_right fun h => by cases h
      rw [Option.bind_some, exitProgram_isSome_iff]
      constructor
      · rintro ⟨hget, hnames, hpendings⟩
        exact ⟨⟨houtside, hafter, fun R hR => (hall R hR).1, hget,
          fun name hname => (htables name).mp (hnames name hname), hpendings⟩,
          fun R hR => (hall R hR).2⟩
      · rintro ⟨horder, -⟩
        exact ⟨horder.stages, fun name hname => (htables name).mpr (horder.tables name hname),
          horder.pendings⟩

end Xl

end FlowBlaze
