import FlowBlaze.Xl.StageTables
/-!
# Programs that leave no order open

The library chooses in which order the hash maps of a state's rows are
walked. Where no state has statements for two events it has no choice,
and the program is compiled in one way only.
-/

namespace FlowBlaze

namespace Xl

open Common

/-- A list of one element is walked in one order. -/
theorem run_eq_of_length_le {K : Type} (order : HashOrder K) {ks : List K} (h : ks.length ≤ 1) :
    order.run ks = ks := by
  have hperm := order.perm ks
  match ks, h with
  | [], _ => exact List.perm_nil.mp hperm
  | [k], _ => exact List.perm_singleton.mp hperm

/-- A state with statements for one event at most. -/
def SingleEvent {κ : Type} (S : StateStatement κ) : Prop :=
  (eventKeys S.eventStatements).length ≤ 1

instance {κ : Type} (S : StateStatement κ) : Decidable (SingleEvent S) :=
  inferInstanceAs (Decidable (_ ≤ _))

/-- Its rows do not depend on the order. -/
theorem blockRows_eq_of_singleEvent {κ : Type} {S : StateStatement κ} (h : SingleEvent S)
    (order order' : HashOrder Event) : blockRows order S = blockRows order' S := by
  unfold blockRows eventDefaults
  rw [run_eq_of_length_le order h, run_eq_of_length_le order' h]

namespace XtraCompiler

variable {orders orders' : Orders} {old : List (TableRow ConditionResult)} {refs : List ℕ}
  {stage : Option Stage} {current : Option ℕ} {before : Option Event} {last : Option State}

/-- The blocks of a stage. -/
theorem walkStates_congr {name : String} {states : List (Bool × StateStatement ConditionResult)}
    {initial : Option State} (hone : ∀ S ∈ states, SingleEvent S.2)
    (hrefs : Kept old refs stage) :
    states.foldlM (walkStateInitial name orders)
        (between before last stage old refs current, initial) =
      states.foldlM (walkStateInitial name orders')
        (between before last stage old refs current, initial) := by
  induction states generalizing before last old refs current initial with
  | nil => rfl
  | cons S states ih =>
    obtain ⟨current₁, -, hwalk⟩ := @walkState_idle _ _ _ current before name last S.2 hrefs
    rw [List.foldlM_cons, List.foldlM_cons]
    unfold walkStateInitial
    rw [hwalk orders, hwalk orders', blockRows_eq_of_singleEvent (hone S List.mem_cons_self)
      orders.event orders'.event]
    cases initialAfter initial S.1 S.2.state with
    | none => rfl
    | some initial' =>
      cases hrows : (blockRows orders'.event S.2).mapM TableRow.settle with
      | none => rfl
      | some new =>
        exact ih (fun S' hS' => hone S' (List.mem_cons_of_mem S hS')) (hrefs.append hrows)

variable {t : Rows} {R : ResolvedStage} {Rs : List ResolvedStage}
  {objects : List (TableRow ConditionResult)}

/-- A stage. -/
theorem walkStage_congr (hone : ∀ S ∈ R.states, SingleEvent S.2) (ht : t.outside)
    (hrows : t.machine.rows = idle objects [] current) :
    t.walkStage orders R = t.walkStage orders' R := by
  unfold Rows.walkStage
  refine Option.bind_congr fun M hM => Option.bind_congr fun u hu => ?_
  have hinside : M = { t.machine with
      compilerState := .inStageBlock
      lastDeclaredStage := some (.declared R.identifier) } := by
    unfold CompilerStateMachine.goInsideBlock at hM
    rcases ht with ht | ht <;> rw [ht] at hM <;> exact (Option.some.inj hM).symm
  obtain ⟨objects₁, rfl, -⟩ := exitConditions_custom (t := ⟨M, none, t.tables⟩)
    (by rw [hinside]; exact hrows) hu
  have hbetween : ({ M with rows := idle objects₁ [] current } : CompilerStateMachine _) =
      between t.machine.currentEvent t.machine.currentState (some (.declared R.identifier))
        objects₁ [] current := by
    rw [hinside]
    rfl
  have hnone : Kept objects₁ [] (some (.declared R.identifier)) := fun ref href => by cases href
  have hstates := @walkStates_congr orders orders' _ _ _ current t.machine.currentEvent
    t.machine.currentState R.identifier _ none hone hnone
  rw [← hbetween] at hstates
  refine (congrArg (Option.bind · _) hstates).trans (Option.bind_congr fun s hs => ?_)
  change R.states.foldlM _ (({ M with rows := idle objects₁ [] current } :
    CompilerStateMachine _), none) = some s at hs
  rw [hbetween] at hs
  obtain ⟨rows, before', last', refs', current', -, hs', -⟩ := walkStates_idle hnone hs
  obtain ⟨M', initial⟩ := s
  obtain rfl : M' = _ := hs'
  rfl

/-- All stages. -/
theorem walkStages_congr (hone : ∀ R ∈ Rs, ∀ S ∈ R.states, SingleEvent S.2) (ht : t.outside)
    (hrows : t.machine.rows = idle objects [] current) :
    Rs.foldlM (Rows.walkStage orders) t = Rs.foldlM (Rows.walkStage orders') t := by
  induction Rs generalizing t objects current with
  | nil => rfl
  | cons R Rs ih =>
    rw [List.foldlM_cons, List.foldlM_cons,
      walkStage_congr (hone R List.mem_cons_self) ht hrows]
    refine Option.bind_congr fun t' ht' => ?_
    obtain ⟨_, objects', current', _, _, -, hrows', -⟩ := walkStage_tables ht hrows ht'
    exact ih (fun R' hR' => hone R' (List.mem_cons_of_mem R hR'))
      (.inr (outside_walkStage ht ht')) hrows'

end XtraCompiler

open XtraCompiler

/-- **No state of the program has statements for two events.** -/
def singleEvents (P : ProgramContext) : Bool :=
  (Factories.program (.initial, none) P).all fun R => R.1.2.all fun stage =>
    stage.states.all fun S => decide (SingleEvent S.2)

/-- **A program of single events is compiled in one way.** -/
theorem compile_eq_of_singleEvents {P : ProgramContext} (h : singleEvents P = true)
    (orders orders' : Orders) : compile orders P = compile orders' P := by
  unfold compile
  rw [walkProgram_eq, walkProgram_eq]
  cases hresolved : Factories.program (.initial, none) P with
  | none => rfl
  | some R =>
    obtain ⟨⟨custom, Rs⟩, s⟩ := R
    unfold singleEvents at h
    rw [hresolved, Option.all_some] at h
    have hone : ∀ R ∈ Rs, ∀ S ∈ R.states, SingleEvent S.2 := fun R hR S hS =>
      of_decide_eq_true (List.all_eq_true.mp (List.all_eq_true.mp h R hR) S hS)
    have hrows : Rows.initial.walkProgram orders (custom, Rs) =
        Rows.initial.walkProgram orders' (custom, Rs) := by
      refine Option.bind_congr fun u hu => ?_
      obtain ⟨objects, rfl, -⟩ := @exitConditions_custom _ _ [] none _ rfl hu
      exact walkStages_congr hone (Or.inl rfl) rfl
    simp only [Option.bind_some, hrows]

end Xl

end FlowBlaze
