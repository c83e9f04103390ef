import FlowBlaze.Xl.StateLabels
import FlowBlaze.Xl.TwinRows
/-!
# Stages that are compiled independently

Two programs with one stage that differs should have the same tables for the
others, up to the labels of states. Three things go from one stage to the
next. The labels of states are numbered through, and those beyond 255 count
as `any`. A serial block in a stage's body takes the name of the macro action
met last. And the conditions of a custom event go to the row made last, which
is a row of a stage before.
-/

namespace FlowBlaze

namespace Xl

open Common

/-- The labels that two programs give to one state. -/
def SameState (P P' : ProgramContext) (s s' : State) : Prop :=
  ∃ name, P.label name = some s ∧ P'.label name = some s'

/-- **A table in two programs.** -/
structure TableTwin (N : State → State → Prop) (table table' : Table) : Prop where
  initialState : N table.initialState table'.initialState
  tableRows : RowsTwin N table.tableRows table'.tableRows
  conditions : table.conditions = table'.conditions

/-- A program with this stage between others. -/
def programWith (definitions : List Definition) (before after : List StageStatementContext)
    (T : StageStatementContext) : ProgramContext :=
  .stageProgram definitions (before ++ T :: after)

/-- **The table of this name is that of another stage**: the last stage of the
name is not the one between. -/
def OfOtherStage (before after : List StageStatementContext) (T : StageStatementContext)
    (name : String) : Prop :=
  (∃ V ∈ after, V.identifier = name) ∨ name ≠ T.identifier ∧ ∃ V ∈ before, V.identifier = name

/-- **Stages are compiled independently**: the tables of the other stages are
the same for both stages between. -/
def CompiledIndependently (orders : Orders) (definitions : List Definition)
    (before after : List StageStatementContext) (T T' : StageStatementContext) : Prop :=
  ∀ stages stages', compile orders (programWith definitions before after T) = some stages →
    compile orders (programWith definitions before after T') = some stages' →
      ∀ name, OfOtherStage before after T name →
        ∃ table table', tableNamed stages name = some table ∧
          tableNamed stages' name = some table' ∧
          TableTwin (SameState (programWith definitions before after T)
            (programWith definitions before after T')) table table'

/-- The stages of a program, resolved. -/
def ProgramContext.resolved (P : ProgramContext) : List ResolvedStage :=
  ((Factories.program (.initial, none) P).map fun x => x.1.2).getD []

/-- **The row that these stages make last is emitted**: no stage behind has
the name of its stage, and it is not empty. -/
def EmitsLast (orders : Orders) (Rs later : List ResolvedStage) : Prop :=
  ∃ earlier R between blocks ref row, Rs = earlier ++ R :: between ∧
    (∀ R' ∈ between, R'.makesRow = false) ∧ (∀ R' ∈ between ++ later, R'.table ≠ R.table) ∧
    settledBlocks orders R.states = some blocks ∧ lastRow orders R.states = some ref ∧
    blocks.flatten[ref]? = some row ∧ row.isEmpty (some (.declared R.identifier)) = false

/-- **The late conditions agree**: those of the custom events of the stage
between, and of the stages behind up to the first that makes a row, are
written alike in both programs, or the row they go to is not emitted. -/
def LateAgree (orders : Orders) (n : ℕ) (P P' : ProgramContext) : Prop :=
  (late (P.resolved.drop n)).map ConditionResult.serialize =
      (late (P'.resolved.drop n)).map ConditionResult.serialize ∨
    ¬EmitsLast orders (P.resolved.take n) (P.resolved.drop n)

/-! ## Labels -/

section Labels

variable {P P' : ProgramContext}

/-- **Labels that fit** are those of one name. -/
theorem oneToOne_sameState (h : (P.mentions.toFinset.erase "any").card ≤ 255)
    (h' : (P'.mentions.toFinset.erase "any").card ≤ 255) : OneToOne (SameState P P') := by
  have hfit := (StateFactory.labelsFit_mention_iff P.mentions).mpr h
  have hfit' := (StateFactory.labelsFit_mention_iff P'.mentions).mpr h'
  rintro a a' b b' ⟨name, ha, ha'⟩ ⟨other, hb, hb'⟩
  constructor
  · rintro rfl
    obtain rfl := hfit.unique name other a ha hb
    exact Option.some.inj (ha'.symm.trans hb')
  · rintro rfl
    obtain rfl := hfit'.unique name other a' ha' hb'
    exact Option.some.inj (ha.symm.trans hb)

/-- The factories at the end vouch for the labels. -/
theorem agrees_sameState {R R' : List (List ConditionResult) × List ResolvedStage}
    {s s' : Factories × Option String} (h : Factories.program (.initial, none) P = some (R, s))
    (h' : Factories.program (.initial, none) P' = some (R', s')) (names : List String) :
    Factories.Agrees (SameState P P') names s.1 s'.1 := fun name _ _ _ ha ha' =>
  ⟨name, (Factories.label_of_program h name).trans ha,
    (Factories.label_of_program h' name).trans ha'⟩

end Labels

/-! ## Two programs, resolved -/

section Resolved

variable {definitions : List Definition} {before after : List StageStatementContext}
  {T T' : StageStatementContext} {custom custom' : List (List ConditionResult)}
  {Rs Rs' : List ResolvedStage} {s s' : Factories × Option String}

/-- A program with a stage between others, resolved. -/
theorem split_program (h : Factories.program (.initial, none)
      (programWith definitions before after T) = some ((custom, Rs), s)) :
    ∃ s₀ Vs s₁ R s₂ Ws, thread Factories.topDefinition (.initial, none) definitions =
        some (custom, s₀) ∧ thread Factories.stageStatement s₀ before = some (Vs, s₁) ∧
      Factories.stageStatement s₁ T = some (R, s₂) ∧
      thread Factories.stageStatement s₂ after = some (Ws, s) ∧ Rs = Vs ++ R :: Ws := by
  obtain ⟨⟨results, s₀⟩, hdefinitions, h⟩ := Option.bind_eq_some_iff.mp h
  obtain ⟨⟨Us, u⟩, hstages, h⟩ := Option.map_eq_some_iff.mp h
  cases h
  rw [thread_append] at hstages
  obtain ⟨⟨Vs, s₁⟩, hbefore, hstages⟩ := Option.bind_eq_some_iff.mp hstages
  obtain ⟨⟨Us', u'⟩, hrest, hstages⟩ := Option.map_eq_some_iff.mp hstages
  cases hstages
  obtain ⟨R, s₂, Ws, hT, hafter, rfl⟩ := thread_cons.mp hrest
  exact ⟨s₀, Vs, s₁, R, s₂, Ws, hdefinitions, hbefore, hT, hafter, rfl⟩

/-- **The stages of two programs that differ in one**: those before are the
same, those behind are twins, and the one between has its own. -/
structure ResolvedTwice (N : State → State → Prop) (before after : List StageStatementContext)
    (T : StageStatementContext) (Vs : List ResolvedStage) (R R' : ResolvedStage)
    (Ws Ws' : List ResolvedStage) : Prop where
  before : Vs.map (·.table) = before.map (·.identifier)
  after : Ws.map (·.table) = after.map (·.identifier)
  table : R.table = T.identifier
  table' : R'.table = T.identifier
  same : ∀ V ∈ Vs, StageTwin N V V
  twins : List.Forall₂ (StageTwin N) Ws Ws'

/-- **Both programs, resolved.** A serial block behind must not take the name
of another macro action. -/
theorem resolvedTwice (hname : T.identifier = T'.identifier)
    (h : Factories.program (.initial, none) (programWith definitions before after T) =
      some ((custom, Rs), s))
    (h' : Factories.program (.initial, none) (programWith definitions before after T') =
      some ((custom', Rs'), s'))
    (htaken : lastMacro none ((before ++ [T]).flatMap (·.definitions)) =
        lastMacro none ((before ++ [T']).flatMap (·.definitions)) ∨ ¬Factories.TakesName after) :
    ∃ Vs R R' Ws Ws', Rs = Vs ++ R :: Ws ∧ Rs' = Vs ++ R' :: Ws' ∧
      ResolvedTwice (SameState (programWith definitions before after T)
        (programWith definitions before after T')) before after T Vs R R' Ws Ws' := by
  obtain ⟨s₀, Vs, s₁, R, s₂, Ws, hdefinitions, hbefore, hR, hafter, rfl⟩ := split_program h
  obtain ⟨t₀, Vs', t₁, R', t₂, Ws', hdefinitions', hbefore', hR', hafter', rfl⟩ := split_program h'
  rw [hdefinitions] at hdefinitions'
  cases hdefinitions'
  rw [hbefore] at hbefore'
  cases hbefore'
  obtain ⟨hcurrent, -, hmacros, -⟩ := Factories.start_of_definitions hdefinitions
  obtain ⟨hmacros₁, hlast⟩ := Factories.last_of_stages hmacros hbefore
  have hrest := thread_cons.mpr ⟨R, s₂, Ws, hR, hafter, rfl⟩
  have hrest' := thread_cons.mpr ⟨R', t₂, Ws', hR', hafter', rfl⟩
  have hstart : Factories.Twin (SameState (programWith definitions before after T)
      (programWith definitions before after T')) s₀.1 s₀.1 :=
    ⟨by rw [hmacros]; exact .nil, rfl, rfl, rfl⟩
  have htwins := Factories.twin_stages hstart hbefore hbefore hmacros hmacros (.inl rfl)
    fun name _ a a' ha ha' => agrees_sameState h h' [name] name (List.mem_singleton_self name) a a'
      (Factories.getState_of_stages hrest ha) (Factories.getState_of_stages hrest' ha')
  obtain ⟨F, hshows, rfl⟩ := Factories.showsStage_stageStatement hmacros₁ hR
  obtain ⟨F', hshows', rfl⟩ := Factories.showsStage_stageStatement hmacros₁ hR'
  refine ⟨Vs, R, R', Ws, Ws', rfl, rfl, Factories.tables_of_stages hmacros hbefore,
    Factories.tables_of_stages rfl hafter, hshows.table, hshows'.table.trans hname.symm,
    List.forall₂_same.mp htwins, Factories.twin_stages Factories.twin_finishStage hafter hafter' rfl
      rfl (htaken.imp_left fun htaken => ?_) (agrees_sameState h h' _)⟩
  rw [List.flatMap_append, List.flatMap_append, List.flatMap_singleton,
    List.flatMap_singleton] at htaken
  unfold lastMacro at htaken hlast ⊢
  rw [List.foldl_append, List.foldl_append] at htaken
  rw [hlast, hcurrent]
  exact htaken

end Resolved

/-! ## Rows with late conditions -/

section LateRows

variable {α β : Type} {p : α → Bool} {f f' : α → α} {g : α → β} {l : List α} {i : ℕ} {x : α}

/-- What is left out may change. -/
theorem filter_modify_of_not (hp : ∀ x, p (f x) = p x) (hx : l[i]? = some x) (hnot : p x = false) :
    (l.modify i f).filter p = l.filter p := by
  induction l generalizing i with
  | nil => cases hx
  | cons y l ih =>
    cases i with
    | zero =>
      cases hx
      rw [List.modify_zero_cons, List.filter_cons, List.filter_cons, hp, hnot,
        if_neg Bool.false_ne_true, if_neg Bool.false_ne_true]
    | succ i =>
      rw [List.modify_succ_cons, List.filter_cons, List.filter_cons, ih hx]

/-- What is kept shows how it has changed. -/
theorem eq_of_filter_modify (hp : ∀ x, p (f x) = p x) (hp' : ∀ x, p (f' x) = p x)
    (hx : l[i]? = some x) (hkept : p x = true)
    (h : ((l.modify i f).filter p).map g = ((l.modify i f').filter p).map g) :
    g (f x) = g (f' x) := by
  induction l generalizing i with
  | nil => cases hx
  | cons y l ih =>
    cases i with
    | zero =>
      cases hx
      rw [List.modify_zero_cons, List.modify_zero_cons,
        List.filter_cons_of_pos ((hp x).trans hkept),
        List.filter_cons_of_pos ((hp' x).trans hkept), List.map_cons, List.map_cons] at h
      exact (List.cons.inj h).1
    | succ i =>
      rw [List.modify_succ_cons, List.modify_succ_cons, List.filter_cons, List.filter_cons] at h
      refine ih hx ?_
      cases hy : p y with
      | false => simpa only [hy, Bool.false_eq_true, if_false] using h
      | true =>
        simp only [hy, if_true, List.map_cons] at h
        exact (List.cons.inj h).2

end LateRows

section Rows

variable {N : State → State → Prop} {orders : Orders} {V : ResolvedStage}
  {between later later' : List ResolvedStage} {rows rows' : List (TableRow ConditionResult)}

/-- The late conditions of stages after others. -/
theorem late_append (Rs Rs' : List ResolvedStage) :
    late (Rs ++ Rs') = late Rs ++ if Rs.any (·.makesRow) then [] else late Rs' := by
  induction Rs with
  | nil => rfl
  | cons R Rs ih =>
    rw [List.cons_append, late, late, ih, List.any_cons, List.append_assoc]
    cases R.makesRow with
    | true => rfl
    | false => rfl

/-- Conditions do not show in a row that is empty. -/
theorem rowsBefore_congr (h : ∀ blocks ref row, settledBlocks orders V.states = some blocks →
      lastRow orders V.states = some ref → blocks.flatten[ref]? = some row →
        row.isEmpty (some (.declared V.identifier)) = true) :
    V.rowsBefore orders later = V.rowsBefore orders later' := by
  unfold ResolvedStage.rowsBefore
  cases hsettled : settledBlocks orders V.states with
  | none => rfl
  | some blocks =>
    cases hlast : lastRow orders V.states with
    | none => rfl
    | some ref =>
      have hlt := lastRow_lt hsettled ref hlast
      have hempty := h blocks ref _ hsettled hlast (List.getElem?_eq_getElem hlt)
      have hfilter : ∀ ks : List ConditionResult, (withLate (some ref) ks blocks.flatten).filter
          (fun r => !r.isEmpty (some (.declared V.identifier))) =
          blocks.flatten.filter fun r => !r.isEmpty (some (.declared V.identifier)) := fun ks =>
        filter_modify_of_not (fun _ => rfl) (List.getElem?_eq_getElem hlt) (by rw [hempty]; rfl)
      rw [Option.map_some, Option.map_some, hfilter, hfilter]

/-- **A stage before the one that differs** has the same rows, if the late
conditions agree. -/
theorem rowsTwin_of_lateAgree {earlier : List ResolvedStage} (hN : OneToOne N)
    (hV : StageTwin N V V) (hlast : ∀ R ∈ between ++ later, R.table ≠ V.table)
    (hagree : (late later).map ConditionResult.serialize =
        (late later').map ConditionResult.serialize ∨
      ¬EmitsLast orders (earlier ++ V :: between) later)
    (hrows : V.rowsBefore orders (between ++ later) = some rows)
    (hrows' : V.rowsBefore orders (between ++ later') = some rows') : RowsTwin N rows rows' := by
  by_cases hmakes : between.any (·.makesRow) = true
  · refine rowsBefore_twin hN hV hrows hrows' ?_
    rw [late_append, late_append, if_pos hmakes, if_pos hmakes]
  · rcases hagree with hsame | hhidden
    · refine rowsBefore_twin hN hV hrows hrows' ?_
      rw [late_append, late_append, if_neg hmakes, if_neg hmakes, List.map_append, List.map_append,
        hsame]
    · have hempty : V.rowsBefore orders (between ++ later) =
          V.rowsBefore orders (between ++ later') := by
        refine rowsBefore_congr fun blocks ref row hsettled hlastRow hrow => ?_
        by_contra hnot
        refine hhidden ⟨earlier, V, between, blocks, ref, row, rfl, fun R hR => ?_, hlast, hsettled,
          hlastRow, hrow, Bool.eq_false_iff.mpr hnot⟩
        exact Bool.eq_false_iff.mpr fun hR' => hmakes (List.any_eq_true.mpr ⟨R, hR, hR'⟩)
      rw [← hempty] at hrows'
      exact rowsBefore_twin hN hV hrows hrows' rfl

/-- **Late conditions show** in a row that is emitted. -/
theorem late_of_rowsTwin {blocks : List (List (TableRow ConditionResult))} {ref : ℕ}
    {row : TableRow ConditionResult} (hmakes : ∀ R ∈ between, R.makesRow = false)
    (hsettled : settledBlocks orders V.states = some blocks)
    (hlastRow : lastRow orders V.states = some ref) (hrow : blocks.flatten[ref]? = some row)
    (hempty : row.isEmpty (some (.declared V.identifier)) = false)
    (hrows : V.rowsBefore orders (between ++ later) = some rows)
    (hrows' : V.rowsBefore orders (between ++ later') = some rows') (h : RowsTwin N rows rows') :
    (late later).map ConditionResult.serialize = (late later').map ConditionResult.serialize := by
  have hany : between.any (·.makesRow) ≠ true := fun hany => by
    obtain ⟨R, hR, hmakesRow⟩ := List.any_eq_true.mp hany
    rw [hmakes R hR] at hmakesRow
    cases hmakesRow
  unfold ResolvedStage.rowsBefore at hrows hrows'
  rw [hsettled, Option.map_some, hlastRow, late_append, if_neg hany] at hrows hrows'
  cases hrows
  cases hrows'
  have hconditions := forall₂_map_eq (h.imp fun _ _ hr => hr.conditionResults)
  have hkeeps : ∀ (ks : List ConditionResult) (r : TableRow ConditionResult),
      (!({ r with conditionResults := r.conditionResults ++ ks } :
        TableRow ConditionResult).isEmpty (some (.declared V.identifier))) =
      !r.isEmpty (some (.declared V.identifier)) := fun _ _ => rfl
  have hsame := eq_of_filter_modify (p := fun r => !r.isEmpty (some (.declared V.identifier)))
    (hkeeps (late between ++ late later)) (hkeeps (late between ++ late later')) hrow
    (by rw [hempty]; rfl) hconditions
  simp only [List.map_append] at hsame
  exact List.append_cancel_left (List.append_cancel_left hsame)

end Rows

/-! ## Tables -/

section Tables

variable {α β : Type} {Q : α → β → Prop} {p : α → Prop} {l l₁ l₂ : List α} {m : List β}

/-- The last member that has a property. -/
theorem exists_last (h : ∃ x ∈ l, p x) :
    ∃ l₁ x l₂, l = l₁ ++ x :: l₂ ∧ p x ∧ ∀ y ∈ l₂, ¬p y := by
  induction l with
  | nil =>
    obtain ⟨x, hx, -⟩ := h
    cases hx
  | cons y l ih =>
    by_cases hl : ∃ x ∈ l, p x
    · obtain ⟨l₁, x, l₂, rfl, hx, hlast⟩ := ih hl
      exact ⟨y :: l₁, x, l₂, rfl, hx, hlast⟩
    · obtain ⟨x, hx, hpx⟩ := h
      rcases List.mem_cons.mp hx with rfl | hx
      · exact ⟨[], x, l, rfl, hpx, fun z hz hpz => hl ⟨z, hz, hpz⟩⟩
      · exact absurd ⟨x, hx, hpx⟩ hl

/-- A member of a list and its twin. -/
theorem exists_split_of_forall₂ {x : α} (h : List.Forall₂ Q (l₁ ++ x :: l₂) m) :
    ∃ m₁ y m₂, m = m₁ ++ y :: m₂ ∧ Q x y ∧ List.Forall₂ Q l₂ m₂ := by
  induction l₁ generalizing m with
  | nil =>
    cases h with
    | cons hxy hrest => exact ⟨[], _, _, rfl, hxy, hrest⟩
  | cons z l₁ ih =>
    cases h with
    | cons hz hrest =>
      obtain ⟨m₁, y, m₂, rfl, hxy, hrest⟩ := ih hrest
      exact ⟨_ :: m₁, y, m₂, rfl, hxy, hrest⟩

end Tables

section Programs

variable {orders : Orders} {P P' : ProgramContext} {stages stages' : List CompiledStage}
  {custom custom' : List (List ConditionResult)} {s s' : Factories × Option String}
  {earlier earlier' later later' : List ResolvedStage} {V V' : ResolvedStage}
  {N : State → State → Prop}

/-- Every stage of an accepted program is emitted. -/
theorem exists_stage (h : compile orders P = some stages)
    (hprogram : Factories.program (.initial, none) P = some ((custom, earlier ++ V :: later), s)) :
    ∃ stage ∈ stages, stage.name = V.table := by
  obtain ⟨s₀, hstages, -, -, hmacros, -⟩ := Factories.stages_of_program hprogram
  have hmem : V.table ∈ P.stages.map (·.identifier) := by
    rw [← Factories.tables_of_stages hmacros hstages]
    exact List.mem_map_of_mem (List.mem_append_right _ List.mem_cons_self)
  obtain ⟨T, hT, hname⟩ := List.mem_map.mp hmem
  obtain ⟨stage, hstage, heq⟩ := (compile_madeFrom h).2 T hT
  exact ⟨stage, hstage, heq.trans hname⟩

/-- **The tables of a stage and its twin.** -/
theorem tableTwin_of_rows (h : compile orders P = some stages)
    (h' : compile orders P' = some stages')
    (hprogram : Factories.program (.initial, none) P = some ((custom, earlier ++ V :: later), s))
    (hprogram' : Factories.program (.initial, none) P' =
      some ((custom', earlier' ++ V' :: later'), s'))
    (hlast : ∀ R ∈ later, R.table ≠ V.table) (hlast' : ∀ R ∈ later', R.table ≠ V'.table)
    (hV : StageTwin N V V') (hrows : ∀ rows rows', V.rowsBefore orders later = some rows →
      V'.rowsBefore orders later' = some rows' → RowsTwin N rows rows') :
    ∃ table table', tableNamed stages V.table = some table ∧
      tableNamed stages' V.table = some table' ∧ TableTwin N table table' := by
  obtain ⟨table, hnamed, hinitial, htable, hconditions⟩ :=
    tableNamed_of_compile h hprogram hlast (exists_stage h hprogram)
  obtain ⟨table', hnamed', hinitial', htable', hconditions'⟩ :=
    tableNamed_of_compile h' hprogram' hlast' (exists_stage h' hprogram')
  refine ⟨table, table', hnamed, hV.table ▸ hnamed', initial_twin hV hinitial hinitial',
    hrows _ _ htable htable', ?_⟩
  rw [hconditions, hconditions', hV.conditions]

end Programs

section Independence

variable {orders : Orders} {definitions : List Definition}
  {before after : List StageStatementContext} {T T' : StageStatementContext}
  {stages stages' : List CompiledStage}

/-- **When stages are compiled independently**: the late conditions agree.
Labels fit in both programs, and no serial block behind the stage takes the
name of another macro action. -/
theorem compiledIndependently_iff (hname : T.identifier = T'.identifier)
    (h : compile orders (programWith definitions before after T) = some stages)
    (h' : compile orders (programWith definitions before after T') = some stages')
    (hlabels : ((programWith definitions before after T).mentions.toFinset.erase "any").card ≤ 255)
    (hlabels' :
      ((programWith definitions before after T').mentions.toFinset.erase "any").card ≤ 255)
    (htaken : lastMacro none ((before ++ [T]).flatMap (·.definitions)) =
        lastMacro none ((before ++ [T']).flatMap (·.definitions)) ∨ ¬Factories.TakesName after) :
    CompiledIndependently orders definitions before after T T' ↔
      LateAgree orders before.length (programWith definitions before after T)
        (programWith definitions before after T') := by
  obtain ⟨custom, Rs, s, hprogram, -, -⟩ := compile_tables h
  obtain ⟨custom', Rs', s', hprogram', -, -⟩ := compile_tables h'
  obtain ⟨Vs, R, R', Ws, Ws', rfl, rfl, htwice⟩ := resolvedTwice hname hprogram hprogram' htaken
  have hN := oneToOne_sameState hlabels hlabels'
  have hlength : before.length = Vs.length := by
    have hmap := congrArg List.length htwice.before
    rw [List.length_map, List.length_map] at hmap
    exact hmap.symm
  have hresolved : (programWith definitions before after T).resolved = Vs ++ R :: Ws := by
    unfold ProgramContext.resolved
    rw [hprogram]
    rfl
  have hresolved' : (programWith definitions before after T').resolved = Vs ++ R' :: Ws' := by
    unfold ProgramContext.resolved
    rw [hprogram']
    rfl
  have htable : R'.table = R.table := htwice.table'.trans htwice.table.symm
  have htables : ∀ name, (∀ W ∈ R :: Ws, W.table ≠ name) → ∀ W ∈ R' :: Ws', W.table ≠ name := by
    intro name hno W hW
    rcases List.mem_cons.mp hW with rfl | hW
    · rw [htable]
      exact hno R List.mem_cons_self
    · have hsame : Ws.map (·.table) = Ws'.map (·.table) :=
        forall₂_map_eq (htwice.twins.imp fun _ _ hW => hW.table)
      have hmem : W.table ∈ Ws.map (·.table) := hsame ▸ List.mem_map_of_mem hW
      obtain ⟨W', hW', heq⟩ := List.mem_map.mp hmem
      rw [← heq]
      exact hno W' (List.mem_cons_of_mem _ hW')
  unfold LateAgree
  rw [hresolved, hresolved', hlength, List.drop_left, List.drop_left, List.take_left]
  constructor
  · intro hindependent
    by_cases hemits : EmitsLast orders Vs (R :: Ws)
    · refine .inl ?_
      obtain ⟨earlier, V, between, blocks, ref, row, rfl, hmakes, hlast, hsettled, hlastRow, hrow,
        hempty⟩ := hemits
      rw [List.append_assoc, List.cons_append] at hprogram hprogram'
      have hother : OfOtherStage before after T V.table := by
        refine .inr ⟨fun heq => ?_, ?_⟩
        · refine hlast R (List.mem_append_right _ List.mem_cons_self) ?_
          rw [htwice.table, heq]
        · have hmem : V.table ∈ before.map (·.identifier) := by
            rw [← htwice.before]
            exact List.mem_map_of_mem (List.mem_append_right _ List.mem_cons_self)
          exact List.mem_map.mp hmem
      have hlast' : ∀ W ∈ between ++ R' :: Ws', W.table ≠ V.table := by
        intro W hW
        rcases List.mem_append.mp hW with hW | hW
        · exact hlast W (List.mem_append_left _ hW)
        · exact htables V.table (fun W hW => hlast W (List.mem_append_right _ hW)) W hW
      obtain ⟨table, table', hnamed, hnamed', htwin⟩ :=
        hindependent stages stages' h h' V.table hother
      obtain ⟨found, hfound, -, hrows, -⟩ :=
        tableNamed_of_compile h hprogram hlast (exists_stage h hprogram)
      obtain ⟨found', hfound', -, hrows', -⟩ :=
        tableNamed_of_compile h' hprogram' hlast' (exists_stage h' hprogram')
      rw [hnamed] at hfound
      rw [hnamed'] at hfound'
      cases hfound
      cases hfound'
      exact late_of_rowsTwin hmakes hsettled hlastRow hrow hempty hrows hrows' htwin.tableRows
    · exact .inr hemits
  · intro hagree t t' ht ht' name hother
    rw [h] at ht
    rw [h'] at ht'
    cases ht
    cases ht'
    by_cases hafter : ∃ W ∈ Ws, W.table = name
    · -- a stage behind the one that differs: everything that comes late is the same
      obtain ⟨l₁, W, l₂, rfl, rfl, hlast⟩ := exists_last hafter
      obtain ⟨m₁, W', m₂, rfl, hW, hrest⟩ := exists_split_of_forall₂ htwice.twins
      have hlast' : ∀ U ∈ m₂, U.table ≠ W'.table := by
        intro U hU heq
        have hsame : l₂.map (·.table) = m₂.map (·.table) :=
          forall₂_map_eq (hrest.imp fun _ _ hU => hU.table)
        have hmem : U.table ∈ l₂.map (·.table) := hsame ▸ List.mem_map_of_mem hU
        obtain ⟨U', hU', heq'⟩ := List.mem_map.mp hmem
        exact hlast U' hU' (heq'.trans (heq.trans hW.table.symm))
      rw [← List.cons_append, ← List.append_assoc] at hprogram hprogram'
      exact tableTwin_of_rows h h' hprogram hprogram' hlast hlast' hW fun rows rows' hrows hrows' =>
        rowsBefore_twin hN hW hrows hrows' (congrArg _ (late_twin hrest))
    · -- a stage before it: the row made last may be its own
      have hbefore : name ≠ R.table ∧ ∃ V ∈ Vs, V.table = name := by
        have hnot : ¬∃ U ∈ after, U.identifier = name := fun hU => by
          have hmem : name ∈ Ws.map (·.table) := htwice.after ▸ List.mem_map.mpr hU
          exact hafter (List.mem_map.mp hmem)
        obtain ⟨hne, hV⟩ := hother.resolve_left hnot
        refine ⟨htwice.table ▸ hne, List.mem_map.mp ?_⟩
        rw [htwice.before]
        exact List.mem_map.mpr hV
      obtain ⟨hne, hV⟩ := hbefore
      obtain ⟨l₁, V, l₂, rfl, rfl, hlast⟩ := exists_last hV
      rw [List.append_assoc, List.cons_append] at hprogram hprogram'
      have hrest : ∀ W ∈ R :: Ws, W.table ≠ V.table := fun W hW => by
        rcases List.mem_cons.mp hW with rfl | hW
        · exact Ne.symm hne
        · exact fun heq => hafter ⟨W, hW, heq⟩
      have hlast₁ : ∀ W ∈ l₂ ++ R :: Ws, W.table ≠ V.table := fun W hW =>
        (List.mem_append.mp hW).elim (hlast W) (hrest W)
      have hlast₂ : ∀ W ∈ l₂ ++ R' :: Ws', W.table ≠ V.table := fun W hW =>
        (List.mem_append.mp hW).elim (hlast W) (htables V.table hrest W)
      have hV := htwice.same V (List.mem_append_right _ List.mem_cons_self)
      exact tableTwin_of_rows h h' hprogram hprogram' hlast₁ hlast₂ hV
        fun rows rows' hrows hrows' => rowsTwin_of_lateAgree hN hV hlast₁ hagree hrows hrows'

end Independence

/-! ## A condition in the wrong stage -/

/-- A stage with a row for packets whose condition holds. -/
def conditionStage (name : String) (definitions : List Definition) : StageStatementContext :=
  ⟨name, definitions, [.action (.call "setFlowKey" [])],
    [⟨true, "A", [], [⟨"pktRcvd", [],
      [⟨[⟨.xtraEqual, one, one⟩], [.action (.call "setNextState" [.identifier "A"])]⟩]⟩]⟩]⟩
where
  one : Term := .constant "1" (some ⟨.integerConstant, "1"⟩)

/-- A custom event with this condition. -/
def customDefinition (op0 op1 : String) : Definition :=
  .customEvent [⟨.xtraLess, .constant op0 (some ⟨.integerConstant, op0⟩),
    .constant op1 (some ⟨.integerConstant, op1⟩)⟩]

/-- The conditions of the rows of a stage. -/
def conditionCounts (P : ProgramContext) (name : String) : Option (List ℕ) :=
  ((compile keyOrders P).bind fun stages => tableNamed stages name).map fun table =>
    table.tableRows.map fun row => row.conditionResults.length

/-- **A register in a stage** does not show in the one before it. -/
theorem compiledIndependently_register :
    (∃ stages, compile keyOrders (programWith [] [conditionStage "s1" []] []
        (conditionStage "s2" [customDefinition "1" "2"])) = some stages) ∧
      CompiledIndependently keyOrders [] [conditionStage "s1" []] []
        (conditionStage "s2" [customDefinition "1" "2"])
        (conditionStage "s2" [.register true ["total"], customDefinition "1" "2"]) := by
  have hsome : (compile keyOrders (programWith [] [conditionStage "s1" []] []
      (conditionStage "s2" [customDefinition "1" "2"]))).isSome = true := by decide +kernel
  have hsome' : (compile keyOrders (programWith [] [conditionStage "s1" []] []
      (conditionStage "s2" [.register true ["total"], customDefinition "1" "2"]))).isSome =
        true := by decide +kernel
  obtain ⟨stages, h⟩ := Option.isSome_iff_exists.mp hsome
  obtain ⟨stages', h'⟩ := Option.isSome_iff_exists.mp hsome'
  exact ⟨⟨stages, h⟩, (compiledIndependently_iff rfl h h' (by decide) (by decide)
    (.inl rfl)).mpr (.inl rfl)⟩

/-- **A custom event's condition** is a condition of the stage before, too. -/
theorem not_compiledIndependently :
    ∃ stages stages',
      compile keyOrders (programWith [] [conditionStage "s1" []] []
        (conditionStage "s2" [customDefinition "1" "2"])) = some stages ∧
      compile keyOrders (programWith [] [conditionStage "s1" []] []
        (conditionStage "s2" [])) = some stages' ∧
      ¬CompiledIndependently keyOrders [] [conditionStage "s1" []] []
        (conditionStage "s2" [customDefinition "1" "2"]) (conditionStage "s2" []) := by
  have hcounts : conditionCounts (programWith [] [conditionStage "s1" []] []
      (conditionStage "s2" [customDefinition "1" "2"])) "s1" = some [2] := by decide +kernel
  have hcounts' : conditionCounts (programWith [] [conditionStage "s1" []] []
      (conditionStage "s2" [])) "s1" = some [1] := by decide +kernel
  unfold conditionCounts at hcounts hcounts'
  obtain ⟨found, hfound, hcounts⟩ := Option.map_eq_some_iff.mp hcounts
  obtain ⟨found', hfound', hcounts'⟩ := Option.map_eq_some_iff.mp hcounts'
  obtain ⟨stages, h, hnamed⟩ := Option.bind_eq_some_iff.mp hfound
  obtain ⟨stages', h', hnamed'⟩ := Option.bind_eq_some_iff.mp hfound'
  refine ⟨stages, stages', h, h', fun hindependent => ?_⟩
  have hother : OfOtherStage [conditionStage "s1" []] []
      (conditionStage "s2" [customDefinition "1" "2"]) "s1" :=
    .inr ⟨by decide, _, List.mem_singleton_self _, rfl⟩
  obtain ⟨table, table', htable, htable', htwin⟩ := hindependent stages stages' h h' "s1" hother
  rw [hnamed] at htable
  rw [hnamed'] at htable'
  cases htable
  cases htable'
  -- rows that are twins have as many conditions
  have hlengths := forall₂_map_eq (htwin.tableRows.imp fun _ _ hr =>
    congrArg List.length hr.conditionResults)
  simp only [List.length_map] at hlengths
  rw [hcounts, hcounts'] at hlengths
  exact absurd hlengths (by decide)

end Xl

end FlowBlaze
