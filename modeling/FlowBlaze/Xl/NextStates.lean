import FlowBlaze.Xl.StageTables
/-!
# Where the rows of a stage go

Every action of a state block reaches a row, and a row that leaves its
state is never empty. So the rows of a stage go to the targets of the
transitions of its blocks, and to the blocks' own states.
-/

namespace FlowBlaze

namespace Xl

open Common

variable {κ : Type}

/-! ## The actions of a block -/

/-- The actions of an event statement, with those of its conditions. -/
def EventStatement.allActions (b : EventStatement κ) : List Action :=
  b.actions ++ b.conditionStatements.flatMap (·.actions)

/-- The actions of a state statement. -/
def StateStatement.allActions (S : StateStatement κ) : List Action :=
  S.actions ++ S.eventStatements.flatMap (·.allActions)

variable {order : HashOrder Event} {S : StateStatement κ} {r : TableRow κ} {a : Action}

/-- The actions met under an event are those of its statements. -/
theorem mem_eventActions {bs : List (EventStatement κ)} {e : Event} :
    a ∈ eventActions bs e ↔ ∃ b ∈ bs, b.event = e ∧ a ∈ b.actions := by
  unfold eventActions
  rw [List.mem_flatMap]
  constructor
  · rintro ⟨b, hb, ha⟩
    obtain ⟨hb, he⟩ := List.mem_filter.mp hb
    exact ⟨b, hb, eq_of_beq he, ha⟩
  · rintro ⟨b, hb, rfl, ha⟩
    exact ⟨b, List.mem_filter.mpr ⟨hb, beq_self_eq_true _⟩, ha⟩

/-- **The rows of a block** are of its state, and have its actions. -/
theorem of_mem_blockRows (hr : r ∈ blockRows order S) :
    r.state = S.state ∧ r.nextState = S.state ∧ ∀ a ∈ r.actions, a ∈ S.allActions := by
  have hevent : ∀ e, ∀ a ∈ eventActions S.eventStatements e, a ∈ S.allActions := by
    intro e a ha
    obtain ⟨b, hb, -, ha⟩ := mem_eventActions.mp ha
    exact List.mem_append_right _ (List.mem_flatMap.mpr ⟨b, hb, List.mem_append_left _ ha⟩)
  unfold blockRows at hr
  rcases List.mem_append.mp hr with hr | hr
  · obtain ⟨r, hraw, rfl⟩ := List.mem_map.mp hr
    obtain ⟨b, hb, hraw⟩ := List.mem_flatMap.mp hraw
    obtain ⟨c, hc, rfl⟩ := List.mem_map.mp hraw
    refine ⟨rfl, rfl, fun a ha => ?_⟩
    rcases List.mem_append.mp ha with ha | ha
    · exact List.mem_append_left _ ha
    · rcases List.mem_append.mp ha with ha | ha
      · exact hevent _ a ha
      · exact List.mem_append_right _ (List.mem_flatMap.mpr
          ⟨b, hb, List.mem_append_right _ (List.mem_flatMap.mpr ⟨c, hc, ha⟩)⟩)
  · rcases List.mem_append.mp hr with hr | hr
    · unfold eventDefaults at hr
      split at hr
      · cases hr
      · obtain ⟨e, -, rfl⟩ := List.mem_map.mp hr
        exact ⟨rfl, rfl, hevent e⟩
    · unfold stateDefaults at hr
      split at hr
      · obtain ⟨e, -, rfl⟩ := List.mem_map.mp hr
        exact ⟨rfl, rfl, fun a ha => List.mem_append_left _ ha⟩
      · cases hr

/-- The row of a condition statement. -/
theorem row_mem_blockRows {b : EventStatement κ} {c : ConditionStatement κ}
    (hb : b ∈ S.eventStatements) (hc : c ∈ b.conditionStatements) :
    (⟨c.conditions, S.actions ++ (eventActions S.eventStatements b.event ++ c.actions), S.state,
      b.event, S.state, .stage255⟩ : TableRow κ) ∈ blockRows order S := by
  refine List.mem_append_left _ (List.mem_map.mpr ⟨⟨c.conditions, c.actions, S.state, b.event,
    S.state, .stage255⟩, ?_, rfl⟩)
  exact List.mem_flatMap.mpr ⟨b, hb, List.mem_map.mpr ⟨c, hc, rfl⟩⟩

/-- **Every action of a block reaches a row.** -/
theorem exists_row_of_mem (ha : a ∈ S.allActions) : ∃ r ∈ blockRows order S, a ∈ r.actions := by
  rcases List.mem_append.mp ha with ha | ha
  · by_cases hraw : rawRows S.state S.eventStatements = []
    · refine ⟨.default S.state S.actions .xtraPktRcvd, ?_, ha⟩
      refine List.mem_append_right _ (List.mem_append_right _ ?_)
      unfold stateDefaults
      rw [if_pos hraw]
      exact List.mem_cons_self
    · obtain ⟨r, hr⟩ := List.exists_mem_of_ne_nil _ hraw
      exact ⟨_, List.mem_append_left _ (List.mem_map_of_mem hr), List.mem_append_left _ ha⟩
  · obtain ⟨b, hb, ha⟩ := List.mem_flatMap.mp ha
    rcases List.mem_append.mp ha with ha | ha
    · have hevent : a ∈ eventActions S.eventStatements b.event :=
        mem_eventActions.mpr ⟨b, hb, rfl, ha⟩
      cases hno : noRow (rawRows S.state S.eventStatements) b.event with
      | false =>
        unfold noRow at hno
        obtain ⟨r, hr, hre⟩ := List.all_eq_false.mp hno
        have hre' : r.event = b.event := by simpa using hre
        refine ⟨_, List.mem_append_left _ (List.mem_map_of_mem hr), ?_⟩
        refine List.mem_append_right _ (List.mem_append_left _ ?_)
        rw [hre']
        exact hevent
      | true =>
        obtain ⟨last, hlast⟩ : ∃ last, lastEvent none S.eventStatements = some last := by
          unfold lastEvent
          rw [List.getLast?_eq_some_getLast (List.ne_nil_of_mem hb)]
          exact ⟨_, rfl⟩
        refine ⟨.default S.state (eventActions S.eventStatements b.event) last, ?_, hevent⟩
        refine List.mem_append_right _ (List.mem_append_left _ ?_)
        unfold eventDefaults
        rw [hlast]
        refine List.mem_map.mpr ⟨b.event, List.mem_filter.mpr ⟨?_, hno⟩, rfl⟩
        exact (order.perm _).mem_iff.mpr (mem_eventKeys.mpr ⟨b, hb, rfl⟩)
    · obtain ⟨c, hc, ha⟩ := List.mem_flatMap.mp ha
      exact ⟨_, row_mem_blockRows hb hc,
        List.mem_append_right _ (List.mem_append_right _ ha)⟩

/-! ## The next states of a stage -/

/-- A target is a target of a transition, or the state itself. -/
theorem targetState_cases (s : State) (acts : List Action) :
    targetState s acts = s ∨ Action.stateTransition (targetState s acts) ∈ acts := by
  unfold targetState
  cases h : (acts.filterMap Action.target).getLast? with
  | none => exact Or.inl rfl
  | some t =>
    right
    obtain ⟨a, ha, hat⟩ := List.mem_filterMap.mp (List.mem_of_getLast? h)
    cases a with
    | stateTransition u =>
      cases hat
      exact ha
    | stageTransition stage => cases hat
    | sequentializable action => cases hat
    | sequentialActions actions => cases hat

variable {orders : Orders} {R : ResolvedStage} {rows : List (TableRow ConditionResult)}

/-- **The rows of a stage stay among some states** that its blocks' own are
among, if and only if every transition does. -/
theorem nextState_iff {D : State → Prop} (hR : R.rows orders = some rows)
    (hown : ∀ S ∈ R.states, D S.2.state) :
    (∀ r ∈ rows, D r.nextState) ↔
      ∀ S ∈ R.states, ∀ t, Action.stateTransition t ∈ S.2.allActions → D t := by
  obtain ⟨settled, hsettled, rfl⟩ := Option.map_eq_some_iff.mp hR
  constructor
  · intro hrows S hS t ht
    obtain ⟨r, hr, hrt⟩ := @exists_row_of_mem _ orders.event _ _ ht
    obtain ⟨block, hblock, hmap⟩ := exists_image_of_mapM hsettled hS
    obtain ⟨r', hr', hrr'⟩ := exists_image_of_mapM hmap hr
    obtain ⟨hstate, hnext, -⟩ := of_mem_blockRows hr
    rcases target_of_processActions hrr' hrt with heq | heq
    · rw [heq, hstate]
      exact hown S hS
    · by_cases hself : r'.nextState = r'.state
      · rw [heq, hself, eq_of_settle hrr']
        change D r.state
        rw [hstate]
        exact hown S hS
      · rw [heq]
        refine hrows r' (List.mem_filter.mpr ⟨List.mem_flatten.mpr ⟨block, hblock, hr'⟩, ?_⟩)
        unfold TableRow.isEmpty
        simp [Ne.symm hself]
  · intro hall r hr
    obtain ⟨block, hblock, hr⟩ := List.mem_flatten.mp (List.mem_filter.mp hr).1
    obtain ⟨S, hS, hmap⟩ := exists_of_mem_mapM hsettled hblock
    obtain ⟨r₀, hr₀, hrr⟩ := exists_of_mem_mapM hmap hr
    obtain ⟨hstate, hnext, hacts⟩ := of_mem_blockRows hr₀
    rw [eq_of_settle hrr]
    change D (targetState r₀.nextState r₀.actions)
    rcases targetState_cases r₀.nextState r₀.actions with h | h
    · rw [h, hnext]
      exact hown S hS
    · exact hall S hS _ (hacts _ h)

end Xl

end FlowBlaze
