import FlowBlaze.Xl.LateConditions
import FlowBlaze.Xl.TwinStages
/-!
# The rows of one stage in two programs

What two programs make of one stage are the same rows, under the labels that
they give to one name. Labels are compared where a row is settled and where
it is found empty, so that different names should have different labels. The
conditions of a row are compared as they are written.
-/

namespace FlowBlaze

namespace Xl

open Common

variable {N : State → State → Prop}

/-- **A row in two programs.** -/
structure RowTwin (N : State → State → Prop) (r r' : TableRow ConditionResult) : Prop where
  conditionResults : r.conditionResults.map ConditionResult.serialize =
    r'.conditionResults.map ConditionResult.serialize
  actions : ActionsTwin N r.actions r'.actions
  state : N r.state r'.state
  event : r.event = r'.event
  nextState : N r.nextState r'.nextState
  nextStage : r.nextStage = r'.nextStage

/-- Rows in two programs. -/
abbrev RowsTwin (N : State → State → Prop) :
    List (TableRow ConditionResult) → List (TableRow ConditionResult) → Prop :=
  List.Forall₂ (RowTwin N)

/-- Two labels are the same in both programs, or in none. -/
def OneToOne (N : State → State → Prop) : Prop :=
  ∀ a a' b b', N a a' → N b b' → (a = b ↔ a' = b')

/-! ## The rows of a block -/

section Blocks

variable {s s' : State} {bs bs' : List (EventStatement ConditionResult)}
  {S S' : StateStatement ConditionResult} {order : HashOrder Event}

theorem rawRows_twin (hs : N s s') (h : List.Forall₂ (EventTwin N) bs bs') :
    RowsTwin N (rawRows s bs) (rawRows s' bs') := by
  refine List.rel_flatMap h fun b b' hb => ?_
  rw [List.forall₂_map_left_iff, List.forall₂_map_right_iff]
  refine hb.conditionStatements.imp fun c c' hc => ?_
  exact ⟨congrArg _ hc.conditions, hc.actions, hs, hb.event, hs, rfl⟩

theorem map_event_twin (h : List.Forall₂ (EventTwin N) bs bs') :
    bs.map EventStatement.event = bs'.map EventStatement.event :=
  forall₂_map_eq (h.imp fun _ _ hb => hb.event)

theorem eventKeys_twin (h : List.Forall₂ (EventTwin N) bs bs') : eventKeys bs = eventKeys bs' := by
  have hkeys : ∀ bs : List (EventStatement ConditionResult), eventKeys bs =
      (bs.map EventStatement.event).foldl (fun ks e => if e ∈ ks then ks else ks ++ [e]) [] :=
    fun bs => by
      rw [List.foldl_map]
      rfl
  rw [hkeys, hkeys, map_event_twin h]

theorem lastEvent_twin (h : List.Forall₂ (EventTwin N) bs bs') (before : Option Event) :
    lastEvent before bs = lastEvent before bs' := by
  unfold lastEvent
  rw [← List.getLast?_map, ← List.getLast?_map, map_event_twin h]

theorem eventActions_twin (h : List.Forall₂ (EventTwin N) bs bs') (e : Event) :
    ActionsTwin N (eventActions bs e) (eventActions bs' e) := by
  refine List.rel_flatMap (R := EventTwin N) (List.rel_filter (fun b b' hb => ?_) h)
    fun b b' hb => hb.actions
  change (b.event == e) = true ↔ (b'.event == e) = true
  rw [hb.event]

/-- Actions put in front of a row. -/
theorem RowTwin.prefixed {r r' : TableRow ConditionResult} {A A' : List Action} (h : RowTwin N r r')
    (hA : ActionsTwin N A A') : RowTwin N (r.prefixed A) (r'.prefixed A') :=
  ⟨h.conditionResults, List.rel_append hA h.actions, h.state, h.event, h.nextState, h.nextStage⟩

/-- Rows made up for events. -/
theorem rowTwin_default {A A' : List Action} (hs : N s s') (hA : ActionsTwin N A A') (e : Event) :
    RowTwin N (.default s A e) (.default s' A' e) :=
  ⟨rfl, hA, hs, rfl, hs, rfl⟩

theorem noRow_twin {rows rows' : List (TableRow ConditionResult)} (h : RowsTwin N rows rows')
    (e : Event) : noRow rows e = noRow rows' e := by
  unfold noRow
  induction h with
  | nil => rfl
  | cons hr _ ih => rw [List.all_cons, List.all_cons, ih, hr.event]

/-- **The rows of a block.** -/
theorem blockRows_twin (h : StateTwin N S S') :
    RowsTwin N (blockRows order S) (blockRows order S') := by
  have hraw := rawRows_twin h.state h.eventStatements
  unfold blockRows
  refine List.rel_append ?_ (List.rel_append ?_ ?_)
  · rw [List.forall₂_map_left_iff, List.forall₂_map_right_iff]
    refine hraw.imp fun r r' hr => (hr.prefixed ?_).prefixed h.actions
    rw [hr.event]
    exact eventActions_twin h.eventStatements _
  · unfold eventDefaults
    rw [lastEvent_twin h.eventStatements, eventKeys_twin h.eventStatements]
    cases lastEvent none S'.eventStatements with
    | none => exact .nil
    | some last =>
      have hsame : noRow (rawRows S.state S.eventStatements) =
          noRow (rawRows S'.state S'.eventStatements) := funext (noRow_twin hraw)
      rw [hsame]
      change List.Forall₂ _ (List.map _ _) (List.map _ _)
      rw [List.forall₂_map_left_iff, List.forall₂_map_right_iff, List.forall₂_same]
      exact fun e _ => rowTwin_default h.state (eventActions_twin h.eventStatements e) last
  · have hnil : rawRows S.state S.eventStatements = [] ↔
        rawRows S'.state S'.eventStatements = [] := by
      rw [← List.length_eq_zero_iff, ← List.length_eq_zero_iff, hraw.length_eq]
    unfold stateDefaults
    by_cases hempty : rawRows S'.state S'.eventStatements = []
    · rw [if_pos (hnil.mpr hempty), if_pos hempty, List.forall₂_map_left_iff,
        List.forall₂_map_right_iff, List.forall₂_same]
      exact fun e _ => rowTwin_default h.state h.actions e
    · rw [if_neg fun h => hempty (hnil.mp h), if_neg hempty]
      exact .nil

end Blocks

/-! ## Settled rows -/

section Settled

variable {r r' x x' : TableRow ConditionResult} {acts acts' : List Action}

theorem keptActions_twin (h : ActionsTwin N acts acts') :
    ActionsTwin N (keptActions acts) (keptActions acts') := by
  refine List.rel_filter (fun a a' ha => ?_) h
  cases ha <;> exact Iff.rfl

theorem targetState_twin {s s' : State} (hs : N s s') (h : ActionsTwin N acts acts') :
    N (targetState s acts) (targetState s' acts') := by
  have htargets :
      List.Forall₂ N (acts.filterMap Action.target) (acts'.filterMap Action.target) := by
    refine List.rel_filterMap (fun a a' ha => ?_) h
    cases ha with
    | stateTransition ht => exact .some ht
    | sequentializable => exact .none
    | sequentialActions => exact .none
    | stageTransition => exact .none
  unfold targetState
  generalize acts.filterMap Action.target = ts at htargets
  generalize acts'.filterMap Action.target = ts' at htargets
  induction htargets generalizing s s' with
  | nil => exact hs
  | cons ht _ ih =>
    rw [List.getLast?_cons, List.getLast?_cons]
    exact ih ht

theorem targetStage_twin {stage : Stage} (h : ActionsTwin N acts acts') :
    targetStage stage acts = targetStage stage acts' := by
  unfold targetStage
  congr 2
  induction h with
  | nil => rfl
  | cons ha _ ih =>
    rw [List.filterMap_cons, List.filterMap_cons, ih]
    cases ha <;> rfl

/-- **A row, settled.** -/
theorem RowTwin.settle (h : RowTwin N r r') (hx : r.settle = some x) (hx' : r'.settle = some x') :
    RowTwin N x x' := by
  rw [eq_of_settle hx, eq_of_settle hx']
  refine ⟨h.conditionResults, keptActions_twin h.actions, h.state, h.event,
    targetState_twin h.nextState h.actions, ?_⟩
  change targetStage r.nextStage r.actions = targetStage r'.nextStage r'.actions
  rw [h.nextStage, targetStage_twin h.actions]

/-- **An empty row** is empty in both programs. -/
theorem RowTwin.isEmpty (hN : OneToOne N) (h : RowTwin N r r') (stage : Option Stage) :
    r.isEmpty stage = r'.isEmpty stage := by
  have hactions : r.actions.isEmpty = r'.actions.isEmpty := by
    rw [Bool.eq_iff_iff, List.isEmpty_iff_length_eq_zero, List.isEmpty_iff_length_eq_zero,
      h.actions.length_eq]
  have hstate : (r.state == r.nextState) = (r'.state == r'.nextState) := by
    rw [Bool.eq_iff_iff, beq_iff_eq, beq_iff_eq]
    exact hN _ _ _ _ h.state h.nextState
  unfold TableRow.isEmpty
  rw [hactions, hstate, h.nextStage]

theorem settle_rows_twin {rows rows' ys ys' : List (TableRow ConditionResult)}
    (h : RowsTwin N rows rows') (hy : rows.mapM TableRow.settle = some ys)
    (hy' : rows'.mapM TableRow.settle = some ys') : RowsTwin N ys ys' := by
  induction h generalizing ys ys' with
  | nil =>
    cases hy
    cases hy'
    exact .nil
  | cons hr _ ih =>
    rw [List.mapM_cons] at hy hy'
    obtain ⟨y, hsettle, hy⟩ := Option.bind_eq_some_iff.mp hy
    obtain ⟨y', hsettle', hy'⟩ := Option.bind_eq_some_iff.mp hy'
    obtain ⟨zs, hrest, hy⟩ := Option.bind_eq_some_iff.mp hy
    obtain ⟨zs', hrest', hy'⟩ := Option.bind_eq_some_iff.mp hy'
    cases hy
    cases hy'
    exact .cons (hr.settle hsettle hsettle') (ih hrest hrest')

end Settled

/-! ## Stages -/

section Stages

variable {orders : Orders} {states states' : List (Bool × StateStatement ConditionResult)}
  {R R' : ResolvedStage} {rows rows' : List (TableRow ConditionResult)}
  {later later' Rs Rs' : List ResolvedStage}

/-- The blocks of a stage in two programs. -/
abbrev StatesTwin (N : State → State → Prop) :
    List (Bool × StateStatement ConditionResult) →
      List (Bool × StateStatement ConditionResult) → Prop :=
  List.Forall₂ fun S S' => S.1 = S'.1 ∧ StateTwin N S.2 S'.2

theorem settledBlocks_twin {blocks blocks' : List (List (TableRow ConditionResult))}
    (h : StatesTwin N states states') (hs : settledBlocks orders states = some blocks)
    (hs' : settledBlocks orders states' = some blocks') :
    List.Forall₂ (RowsTwin N) blocks blocks' := by
  unfold settledBlocks at hs hs'
  induction h generalizing blocks blocks' with
  | nil =>
    cases hs
    cases hs'
    exact .nil
  | cons hS _ ih =>
    rw [List.mapM_cons] at hs hs'
    obtain ⟨y, hsettle, hs⟩ := Option.bind_eq_some_iff.mp hs
    obtain ⟨y', hsettle', hs'⟩ := Option.bind_eq_some_iff.mp hs'
    obtain ⟨zs, hrest, hs⟩ := Option.bind_eq_some_iff.mp hs
    obtain ⟨zs', hrest', hs'⟩ := Option.bind_eq_some_iff.mp hs'
    cases hs
    cases hs'
    exact .cons (settle_rows_twin (blockRows_twin hS.2) hsettle hsettle') (ih hrest hrest')

theorem lastRow_twin (h : StatesTwin N states states') :
    lastRow orders states = lastRow orders states' := by
  induction h with
  | nil => rfl
  | cons hS _ ih =>
    have hlast : ∀ (s s' : State) (bs bs' : List (EventStatement ConditionResult)),
        (rawRows s bs).length = (rawRows s' bs').length →
        lastRef [] s bs none = lastRef [] s' bs' none := fun s s' bs bs' hlength => by
      unfold lastRef
      rw [hlength]
    rw [lastRow, lastRow, ih, (blockRows_twin hS.2).length_eq,
      hlast _ _ _ _ (rawRows_twin hS.2.state hS.2.eventStatements).length_eq]

theorem StageTwin.makesRow (h : StageTwin N R R') : R.makesRow = R'.makesRow := by
  have hany : ∀ {α : Type} {p : α → Bool} {Q : α → α → Prop} {l l' : List α},
      List.Forall₂ Q l l' → (∀ a a', Q a a' → p a = p a') → l.any p = l'.any p := by
    intro α p Q l l' hl hp
    induction hl with
    | nil => rfl
    | cons ha _ ih => rw [List.any_cons, List.any_cons, ih, hp _ _ ha]
  refine hany h.states fun S S' hS => hany hS.2.eventStatements fun b b' hb => ?_
  unfold EventStatement.makesRow
  rw [Bool.not_inj_iff, Bool.eq_iff_iff, List.isEmpty_iff_length_eq_zero,
    List.isEmpty_iff_length_eq_zero, hb.conditionStatements.length_eq]

/-- **Late conditions** are the same. -/
theorem late_twin (h : List.Forall₂ (StageTwin N) Rs Rs') : late Rs = late Rs' := by
  induction h with
  | nil => rfl
  | cons hR _ ih => rw [late, late, hR.customConditions, hR.makesRow, ih]

/-- Late conditions for the same row. -/
theorem withLate_twin {current : Option ℕ} {ks ks' : List ConditionResult}
    (h : RowsTwin N rows rows')
    (hks : ks.map ConditionResult.serialize = ks'.map ConditionResult.serialize) :
    RowsTwin N (withLate current ks rows) (withLate current ks' rows') := by
  cases current with
  | none => exact h
  | some ref =>
    change RowsTwin N (rows.modify ref _) (rows'.modify ref _)
    induction h generalizing ref with
    | nil =>
      rw [List.modify_nil, List.modify_nil]
      exact .nil
    | cons hr h ih =>
      cases ref with
      | zero =>
        refine .cons ⟨?_, hr.actions, hr.state, hr.event, hr.nextState, hr.nextStage⟩ h
        rw [List.map_append, List.map_append, hr.conditionResults, hks]
      | succ ref => exact .cons hr (ih ref)

/-- **The rows of a stage's table.** -/
theorem rowsBefore_twin (hN : OneToOne N) (h : StageTwin N R R')
    (hrows : R.rowsBefore orders later = some rows)
    (hrows' : R'.rowsBefore orders later' = some rows')
    (hlate : (late later).map ConditionResult.serialize =
      (late later').map ConditionResult.serialize) : RowsTwin N rows rows' := by
  obtain ⟨blocks, hblocks, rfl⟩ := Option.map_eq_some_iff.mp hrows
  obtain ⟨blocks', hblocks', rfl⟩ := Option.map_eq_some_iff.mp hrows'
  rw [← h.identifier, ← lastRow_twin h.states]
  refine List.rel_filter (fun r r' hr => ?_)
    (withLate_twin (Factories.forall₂_flatten (settledBlocks_twin h.states hblocks hblocks')) hlate)
  change (!r.isEmpty _) = true ↔ (!r'.isEmpty _) = true
  rw [hr.isEmpty hN]

/-- The initial state, as the blocks give it. -/
theorem initialAfter_twin {i i' j j' : Option State} (h : StatesTwin N states states')
    (hi : Option.Rel N i i')
    (hj : states.foldlM (fun i S => XtraCompiler.initialAfter i S.1 S.2.state) i = some j)
    (hj' : states'.foldlM (fun i S => XtraCompiler.initialAfter i S.1 S.2.state) i' = some j') :
    Option.Rel N j j' := by
  induction h generalizing i i' with
  | nil =>
    cases hj
    cases hj'
    exact hi
  | @cons S S' _ _ hS _ ih =>
    rw [List.foldlM_cons] at hj hj'
    obtain ⟨k, hk, hj⟩ := Option.bind_eq_some_iff.mp hj
    obtain ⟨k', hk', hj'⟩ := Option.bind_eq_some_iff.mp hj'
    refine ih ?_ hj hj'
    unfold XtraCompiler.initialAfter at hk hk'
    rw [← hS.1] at hk'
    cases hinitial : S.1 with
    | false =>
      rw [hinitial] at hk hk'
      cases hk
      cases hk'
      exact hi
    | true =>
      rw [hinitial, if_pos rfl] at hk hk'
      split at hk
      · cases hk
      · split at hk'
        · cases hk'
        · cases hk
          cases hk'
          exact .some hS.2.state

/-- The initial state of a stage's table. -/
theorem initial_twin (h : StageTwin N R R') {s s' : State} (hs : R.initial = some s)
    (hs' : R'.initial = some s') : N s s' := by
  have hrel := initialAfter_twin h.states .none (Option.join_eq_some_iff.mp hs)
    (Option.join_eq_some_iff.mp hs')
  cases hrel with
  | some hN => exact hN

end Stages

end Xl

end FlowBlaze
