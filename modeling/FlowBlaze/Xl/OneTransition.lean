import FlowBlaze.Xl.Accepted
import FlowBlaze.Xl.ClosedStages
/-!
# One transition per row

`setNextState` throws if the row already goes to another state than its
own. So of the transitions that a row's actions have, those before the
last may only go to the row's own state: a second one is not seen behind
them.
-/

namespace FlowBlaze

namespace Xl

open Common

/-! ## Rows -/

section Rows

variable {κ : Type} {r r' : TableRow κ}

/-- **A row leaves its state early**: one of its transitions, not the last,
goes to another state. -/
def TableRow.LeavesEarly (r : TableRow κ) : Prop :=
  ∃ t ∈ (targets r.actions).dropLast, t ≠ r.state

/-- **Which actions are refused**: a row that goes elsewhere already takes no
transition, and another one takes none behind one that goes elsewhere. -/
theorem processActions_eq_none_iff {kept acts : List Action} :
    r.processActions kept acts = none ↔
      (r.nextState = r.state ∧ ∃ t ∈ (targets acts).dropLast, t ≠ r.state) ∨
        (r.nextState ≠ r.state ∧ targets acts ≠ []) := by
  induction acts generalizing r kept with
  | nil => exact iff_of_false (fun h => by cases h) (by simp [targets])
  | cons a acts ih =>
    cases a with
    | stateTransition t =>
      have htargets : targets (.stateTransition t :: acts) = t :: targets acts := rfl
      have hprocess : r.processActions kept (.stateTransition t :: acts) =
          (r.setNextState t).bind fun row => row.processActions kept acts := rfl
      rw [hprocess, htargets]
      unfold TableRow.setNextState
      by_cases hself : r.nextState = r.state
      · rw [if_neg (not_not_intro hself), Option.bind_some, ih]
        cases hrest : targets acts with
        | nil => simp [hself]
        | cons u us =>
          rw [List.dropLast_cons_cons, List.exists_mem_cons_iff]
          by_cases ht : t = r.state
          · simp [ht, hself]
          · simp [ht, hself]
      · rw [if_pos hself]
        exact iff_of_true rfl (.inr ⟨hself, List.cons_ne_nil _ _⟩)
    | stageTransition stage => exact ih (r := { r with nextStage := stage })
    | sequentializable action => exact ih
    | sequentialActions actions => exact ih

/-- **Which rows are refused.** -/
theorem settle_eq_none_iff (h : r.nextState = r.state) : r.settle = none ↔ r.LeavesEarly := by
  unfold TableRow.settle TableRow.LeavesEarly
  rw [processActions_eq_none_iff]
  simp [h]

/-- A row that leaves its state early has more than one transition. -/
theorem TableRow.LeavesEarly.doubled (h : r.LeavesEarly) : 1 < (targets r.actions).length := by
  obtain ⟨t, ht, -⟩ := h
  have hpos := List.length_pos_of_mem ht
  rw [List.length_dropLast] at hpos
  omega

/-- **Where a row goes** that has one transition at most. -/
theorem nextState_of_settle (h : r.settle = some r') (hnext : r.nextState = r.state)
    (hone : ¬1 < (targets r.actions).length) :
    r'.nextState = (targets r.actions).head?.getD r.state := by
  rw [eq_of_settle h]
  change ((targets r.actions).getLast?).getD r.nextState = _
  rw [hnext]
  cases htargets : targets r.actions with
  | nil => rfl
  | cons t ts =>
    rw [htargets, List.length_cons] at hone
    rw [List.length_eq_zero_iff.mp (by omega : ts.length = 0)]
    rfl

end Rows

/-! ## Programs -/

section Programs

variable {orders : Orders} {P : ProgramContext} {custom : List (List ConditionResult)}
  {Rs : List ResolvedStage} {s : Factories × Option String}

/-- **The merged rows** of a resolved program, with the actions of their
state, of their event and of their condition. -/
def mergedRows (orders : Orders) (Rs : List ResolvedStage) : List (TableRow ConditionResult) :=
  Rs.flatMap fun R => R.states.flatMap fun S => blockRows orders.event S.2

/-- Some row has more than one transition. -/
def Doubled (orders : Orders) (Rs : List ResolvedStage) : Prop :=
  ∃ r ∈ mergedRows orders Rs, 1 < (targets r.actions).length

/-- **At most one transition per row is accepted.** The program is refused
if and only if some row has more, and its rows go where theirs go, or stay
in their state. -/
structure OneTransition (orders : Orders) (P : ProgramContext) (Rs : List ResolvedStage) :
    Prop where
  refused : compile orders P = none ↔ Doubled orders Rs
  target : ∀ stages, compile orders P = some stages → ∀ stage ∈ stages,
    ∀ row ∈ stage.table.tableRows, ∃ r ∈ mergedRows orders Rs,
      r.settle.map TableRow.bare = some row.bare ∧
        row.nextState = (targets r.actions).head?.getD row.state

theorem mem_mergedRows {r : TableRow ConditionResult} :
    r ∈ mergedRows orders Rs ↔ ∃ R ∈ Rs, ∃ S ∈ R.states, r ∈ blockRows orders.event S.2 := by
  unfold mergedRows
  simp only [List.mem_flatMap]

/-- A merged row goes nowhere yet. -/
theorem nextState_of_mem {r : TableRow ConditionResult} (h : r ∈ mergedRows orders Rs) :
    r.nextState = r.state := by
  obtain ⟨R, -, S, -, hr⟩ := mem_mergedRows.mp h
  obtain ⟨hstate, hnext, -⟩ := of_mem_blockRows hr
  exact hnext.trans hstate.symm

/-- **Which programs are refused**, of those that are in order. -/
theorem compile_eq_none_iff
    (hprogram : Factories.program (.initial, none) P = some ((custom, Rs), s))
    (horder : InOrder custom Rs s.1) :
    compile orders P = none ↔ ∃ r ∈ mergedRows orders Rs, r.LeavesEarly := by
  rw [← Option.not_isSome_iff_eq_none, compile_isSome_iff hprogram, and_iff_right horder]
  unfold settledBlocks
  simp only [mapM_isSome_iff, not_forall, Bool.not_eq_true, Option.isSome_eq_false_iff,
    Option.isNone_iff_eq_none]
  constructor
  · rintro ⟨R, hR, S, hS, r, hr, hnone⟩
    have hmem : r ∈ mergedRows orders Rs := mem_mergedRows.mpr ⟨R, hR, S, hS, hr⟩
    exact ⟨r, hmem, (settle_eq_none_iff (nextState_of_mem hmem)).mp hnone⟩
  · rintro ⟨r, hmem, hearly⟩
    obtain ⟨R, hR, S, hS, hr⟩ := mem_mergedRows.mp hmem
    exact ⟨R, hR, S, hS, r, hr, (settle_eq_none_iff (nextState_of_mem hmem)).mpr hearly⟩

/-- The rows of the tables are merged rows, settled. -/
theorem exists_merged {stages : List CompiledStage}
    (hprogram : Factories.program (.initial, none) P = some ((custom, Rs), s))
    (h : compile orders P = some stages) {stage : CompiledStage} (hstage : stage ∈ stages)
    {row : TableRow ConditionResult} (hrow : row ∈ stage.table.tableRows) :
    ∃ r ∈ mergedRows orders Rs, r.settle.map TableRow.bare = some row.bare := by
  obtain ⟨custom', Rs', s', hprogram', htables, -⟩ := compile_tables h
  rw [hprogram] at hprogram'
  cases hprogram'
  obtain ⟨earlier, R, later, hfrom⟩ := htables stage hstage
  obtain ⟨rows, hrows, hbare⟩ := hfrom.rows
  have hR : R ∈ Rs := hfrom.split ▸ List.mem_append_right _ List.mem_cons_self
  obtain ⟨settled, hsettled, rfl⟩ := Option.map_eq_some_iff.mp hrows
  obtain ⟨row', hrow', hbare'⟩ := List.mem_map.mp (hbare ▸ List.mem_map_of_mem hrow)
  obtain ⟨block, hblock, hrow'⟩ := List.mem_flatten.mp (List.mem_filter.mp hrow').1
  obtain ⟨S, hS, hmap⟩ := exists_of_mem_mapM hsettled hblock
  obtain ⟨r, hr, hsettle⟩ := exists_of_mem_mapM hmap hrow'
  exact ⟨r, mem_mergedRows.mpr ⟨R, hR, S, hS, hr⟩, by rw [hsettle, Option.map_some, hbare']⟩

/-- **When at most one transition per row is accepted**: no row has more
than one, or some row leaves its state with one that is not its last. -/
theorem oneTransition_iff
    (hprogram : Factories.program (.initial, none) P = some ((custom, Rs), s))
    (horder : InOrder custom Rs s.1) :
    OneTransition orders P Rs ↔
      ¬Doubled orders Rs ∨ ∃ r ∈ mergedRows orders Rs, r.LeavesEarly := by
  have hnone : compile orders P = none ↔ _ := compile_eq_none_iff hprogram horder
  constructor
  · intro h
    by_cases hdoubled : Doubled orders Rs
    · exact .inr (hnone.mp (h.refused.mpr hdoubled))
    · exact .inl hdoubled
  · intro h
    have hrefused : compile orders P = none ↔ Doubled orders Rs := by
      rw [hnone]
      refine ⟨fun ⟨r, hr, hearly⟩ => ⟨r, hr, hearly.doubled⟩, fun hdoubled => ?_⟩
      exact h.resolve_left (not_not_intro hdoubled)
    refine ⟨hrefused, fun stages hstages stage hstage row hrow => ?_⟩
    obtain ⟨r, hr, hbare⟩ := exists_merged hprogram hstages hstage hrow
    obtain ⟨r', hsettle, hbare'⟩ := Option.map_eq_some_iff.mp hbare
    have hone : ¬1 < (targets r.actions).length := fun hgt => by
      rw [hrefused.mpr ⟨r, hr, hgt⟩] at hstages
      cases hstages
    have hnext := nextState_of_settle hsettle (nextState_of_mem hr) hone
    have hstate : r'.state = r.state := by rw [eq_of_settle hsettle]
    refine ⟨r, hr, hbare, ?_⟩
    have hrow' : row.nextState = r'.nextState ∧ row.state = r'.state :=
      ⟨(congrArg TableRow.nextState hbare').symm, (congrArg TableRow.state hbare').symm⟩
    rw [hrow'.1, hrow'.2, hstate, hnext]

end Programs

/-! ## Two transitions in a row -/

/-- A stage whose flows, on a packet in state `A`, make these transitions. -/
def transitionProgram (names : List String) : ProgramContext :=
  .stageProgram [] [⟨"s", [], [.action (.call "setFlowKey" [])],
    [⟨true, "A", [], [⟨"pktRcvd",
      names.map fun name => .action (.call "setNextState" [.identifier name]), []⟩]⟩,
      ⟨false, "B", [], []⟩]⟩]

/-- How many transitions the merged rows have. -/
def transitionCounts (P : ProgramContext) : Option (List ℕ) :=
  (Factories.program (.initial, none) P).map fun R =>
    (mergedRows keyOrders R.1.2).map fun r => (targets r.actions).length

/-- One transition is taken. -/
theorem oneTransition_one :
    ∃ custom Rs s, Factories.program (.initial, none) (transitionProgram ["B"]) =
        some ((custom, Rs), s) ∧ InOrder custom Rs s.1 ∧
      OneTransition keyOrders (transitionProgram ["B"]) Rs := by
  have hsome : (compile keyOrders (transitionProgram ["B"])).isSome = true := by rfl
  have hcounts : transitionCounts (transitionProgram ["B"]) = some [1, 0, 0, 0, 0] := by rfl
  obtain ⟨stages, hstages⟩ := Option.isSome_iff_exists.mp hsome
  obtain ⟨custom, Rs, s, hprogram, -, -⟩ := compile_tables hstages
  have horder := ((compile_isSome_iff hprogram).mp hsome).1
  refine ⟨custom, Rs, s, hprogram, horder, (oneTransition_iff hprogram horder).mpr (.inl ?_)⟩
  rintro ⟨r, hr, hgt⟩
  unfold transitionCounts at hcounts
  rw [hprogram, Option.map_some, Option.some.injEq] at hcounts
  have hmem := List.mem_map_of_mem (f := fun r => (targets r.actions).length) hr
  rw [hcounts] at hmem
  simp only [List.mem_cons, List.not_mem_nil, or_false] at hmem
  omega

/-- **A transition to the row's own state** hides from the next one, and the
program is accepted. -/
theorem not_oneTransition :
    ∃ custom Rs s, Factories.program (.initial, none) (transitionProgram ["A", "B"]) =
        some ((custom, Rs), s) ∧ (compile keyOrders (transitionProgram ["A", "B"])).isSome = true ∧
      ¬OneTransition keyOrders (transitionProgram ["A", "B"]) Rs := by
  have hsome : (compile keyOrders (transitionProgram ["A", "B"])).isSome = true := by rfl
  have hcounts : transitionCounts (transitionProgram ["A", "B"]) = some [2, 0, 0, 0, 0] := by rfl
  obtain ⟨stages, hstages⟩ := Option.isSome_iff_exists.mp hsome
  obtain ⟨custom, Rs, s, hprogram, -, -⟩ := compile_tables hstages
  refine ⟨custom, Rs, s, hprogram, hsome, fun h => ?_⟩
  unfold transitionCounts at hcounts
  rw [hprogram, Option.map_some, Option.some.injEq] at hcounts
  have hmem : 2 ∈ (mergedRows keyOrders Rs).map fun r => (targets r.actions).length :=
    hcounts ▸ List.mem_cons_self
  obtain ⟨r, hr, htwo⟩ := List.mem_map.mp hmem
  rw [h.refused.mpr ⟨r, hr, by omega⟩] at hstages
  cases hstages

end Xl

end FlowBlaze
