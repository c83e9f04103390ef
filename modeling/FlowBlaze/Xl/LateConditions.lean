import FlowBlaze.Xl.Accepted
/-!
# Conditions that come late

The conditions of a custom event go to the row that was made last, and that
is a row of a stage before. So the table of a stage has its rows, and the one
made last has also the conditions of the custom events that follow, up to
those of the next stage that makes a row.
-/

namespace FlowBlaze

namespace Xl

open Common XtraCompiler

/-- **The conditions that come late**: those of the custom events of these
stages, up to the first that makes a row. -/
def late : List ResolvedStage → List ConditionResult
  | [] => []
  | R :: Rs => R.customConditions.flatten ++ if R.makesRow then [] else late Rs

/-- **The rows of a stage's table**, in a program that goes on with these
stages. -/
def ResolvedStage.rowsBefore (orders : Orders) (R : ResolvedStage) (later : List ResolvedStage) :
    Option (List (TableRow ConditionResult)) :=
  (settledBlocks orders R.states).map fun rows =>
    (withLate (lastRow orders R.states) (late later) rows.flatten).filter fun r =>
      !r.isEmpty (some (.declared R.identifier))

/-- The table of a stage of the compiled program. -/
def tableNamed (stages : List CompiledStage) (name : String) : Option Table :=
  (stages.find? fun stage => stage.name == name).map CompiledStage.table

/-! ## The row made last -/

section LastRow

variable {orders : Orders} {states : List (Bool × StateStatement ConditionResult)}
  {R : ResolvedStage} {rows : List (List (TableRow ConditionResult))}

theorem isSome_lastRow :
    (lastRow orders states).isSome = states.any fun S => S.2.eventStatements.any (·.makesRow) := by
  induction states with
  | nil => rfl
  | cons S states ih =>
    have hblock := @isSome_lastRef [] none S.2.state S.2.eventStatements
    rw [Option.isSome_none, Bool.false_or] at hblock
    rw [lastRow, Option.isSome_or, Option.isSome_map, ih, hblock, List.any_cons, Bool.or_comm]

/-- It is one of the rows. -/
theorem lastRow_lt (h : settledBlocks orders states = some rows) :
    ∀ row ∈ lastRow orders states, row < rows.flatten.length := by
  induction states generalizing rows with
  | nil => exact fun row hrow => by cases hrow
  | cons S states ih =>
    unfold settledBlocks at h ih
    rw [List.mapM_cons] at h
    obtain ⟨new, hnew, h⟩ := Option.bind_eq_some_iff.mp h
    obtain ⟨rest, hrest, h⟩ := Option.bind_eq_some_iff.mp h
    cases h
    have hlength := (mapM_eq_some_iff.mp hnew).length_eq
    rw [List.flatten_cons, List.length_append, ← hlength, lastRow]
    intro row hrow
    cases hlast : lastRow orders states with
    | some row' =>
      rw [hlast] at hrow
      cases hrow
      exact Nat.add_lt_add_left (ih hrest row' hlast) _
    | none =>
      rw [hlast] at hrow
      have hrow : lastRef [] S.2.state S.2.eventStatements none = some row := hrow
      have hraw : row < (rawRows S.2.state S.2.eventStatements).length := by
        unfold lastRef at hrow
        split at hrow
        · cases hrow
        · next n hn =>
          rw [List.length_nil, Nat.zero_add] at hrow
          cases hrow
          rw [hn]
          exact Nat.lt_succ_self row
      unfold blockRows
      rw [List.length_append, List.length_map]
      omega

end LastRow

/-! ## Stages after a stage -/

section Stages

variable {orders : Orders} {t t' : Rows} {R : ResolvedStage} {earlier later Rs : List ResolvedStage}
  {objects : List (TableRow ConditionResult)} {current : Option ℕ}

/-- A reference to a row that is there. -/
def PointsInto (current : Option ℕ) (objects : List (TableRow ConditionResult)) : Prop :=
  ∀ ref ∈ current, ref < objects.length

/-- The row made last is one of those that are there. -/
theorem pointsInto_lastRow {rows : List (List (TableRow ConditionResult))}
    {before : List (TableRow ConditionResult)} (hcurrent : PointsInto current objects)
    (hbefore : before.length = objects.length)
    (hrows : settledBlocks orders R.states = some rows) :
    PointsInto (((lastRow orders R.states).map (objects.length + ·)).or current)
      (before ++ rows.flatten) := by
  intro ref href
  rw [List.length_append, hbefore]
  cases hlast : lastRow orders R.states with
  | none =>
    rw [hlast] at href
    exact (hcurrent ref href).trans_le (Nat.le_add_right _ _)
  | some row =>
    rw [hlast] at href
    cases href
    exact Nat.add_lt_add_left (lastRow_lt hrows row hlast) _

/-- **What later stages do to the store**: they add late conditions and rows. -/
theorem walkStages_late (ht : t.outside) (hrows : t.machine.rows = idle objects [] current)
    (hcurrent : PointsInto current objects) (h : Rs.foldlM (Rows.walkStage orders) t = some t') :
    ∃ rest current', t'.machine.rows = idle (withLate current (late Rs) objects ++ rest) []
        current' ∧ t'.outside ∧
      PointsInto current' (withLate current (late Rs) objects ++ rest) := by
  induction Rs generalizing t objects current with
  | nil =>
    cases h
    refine ⟨[], current, ?_, ht, ?_⟩ <;> rw [late, withLate_nil, List.append_nil]
    · exact hrows
    · exact hcurrent
  | cons R Rs ih =>
    rw [List.foldlM_cons] at h
    obtain ⟨u, hu, h⟩ := Option.bind_eq_some_iff.mp h
    obtain ⟨rows, -, hsettled, -, hrows', -⟩ := walkStage_late ht hrows hu
    have hlength := @length_withLate _ objects current R.customConditions.flatten
    obtain ⟨rest, current', ht', hout, hpoints⟩ := ih (.inr (outside_walkStage ht hu)) hrows'
      (pointsInto_lastRow hcurrent hlength hsettled) h
    have hmakes : (lastRow orders R.states).isSome = R.makesRow := isSome_lastRow
    cases hlast : lastRow orders R.states with
    | none =>
      rw [hlast] at hmakes ht' hpoints
      have hstore : withLate current (late Rs)
          (withLate current R.customConditions.flatten objects ++ rows.flatten) ++ rest =
          withLate current (late (R :: Rs)) objects ++ (rows.flatten ++ rest) := by
        rw [withLate_left fun ref href => hlength ▸ hcurrent ref href, late, ← hmakes,
          Option.isSome_none, if_neg Bool.false_ne_true, withLate_append, List.append_assoc]
      exact ⟨_, current', hstore ▸ ht', hout, hstore ▸ hpoints⟩
    | some row =>
      rw [hlast] at hmakes ht' hpoints
      have hstore : withLate (some (objects.length + row)) (late Rs)
          (withLate current R.customConditions.flatten objects ++ rows.flatten) ++ rest =
          withLate current (late (R :: Rs)) objects ++
            (withLate (some row) (late Rs) rows.flatten ++ rest) := by
        rw [← hlength, withLate_right, late, ← hmakes, Option.isSome_some, if_pos rfl,
          List.append_nil, List.append_assoc]
      exact ⟨_, current', hstore ▸ ht', hout, hstore ▸ hpoints⟩

/-- Stages of other names leave a table. -/
theorem get_tables_walkStages {name : String} (ht : t.outside)
    (hrows : t.machine.rows = idle objects [] current)
    (h : Rs.foldlM (Rows.walkStage orders) t = some t') (hname : ∀ R ∈ Rs, R.table ≠ name) :
    t'.tables.get (.ofEq String) name = t.tables.get (.ofEq String) name := by
  induction Rs generalizing t objects current with
  | nil =>
    cases h
    rfl
  | cons R Rs ih =>
    rw [List.foldlM_cons] at h
    obtain ⟨u, hu, h⟩ := Option.bind_eq_some_iff.mp h
    obtain ⟨_, _, -, -, hrows', htables⟩ := walkStage_late ht hrows hu
    rw [ih (.inr (outside_walkStage ht hu)) hrows' h fun R' hR' =>
      hname R' (List.mem_cons_of_mem _ hR'), htables, LinkedHashMap.get_put,
      if_neg (Ne.symm (hname R List.mem_cons_self))]

/-- What is kept of a stage's rows does not depend on their conditions. -/
theorem refsWhere_withLate {stage : Option Stage} {n : ℕ} {late : List ConditionResult}
    {rows : List (TableRow ConditionResult)} :
    refsWhere (fun r => !r.isEmpty stage) n (withLate current late rows) =
      refsWhere (fun r => !r.isEmpty stage) n rows := by
  have hbare : ∀ (l : List (TableRow ConditionResult)) (n : ℕ),
      refsWhere (fun r => !r.isEmpty stage) n (l.map TableRow.bare) =
        refsWhere (fun r => !r.isEmpty stage) n l := by
    intro l
    induction l with
    | nil => exact fun _ => rfl
    | cons r l ih =>
      intro n
      rw [List.map_cons, refsWhere, refsWhere, ih]
      rfl
  rw [← hbare, bare_withLate, hbare]

/-- **The table of a stage**, at the end of the program. -/
theorem table_of_stages (ht : t.outside) (hrows : t.machine.rows = idle objects [] current)
    (hcurrent : PointsInto current objects)
    (h : (earlier ++ R :: later).foldlM (Rows.walkStage orders) t = some t')
    (hlast : ∀ R' ∈ later, R'.table ≠ R.table) :
    ∃ table, t'.tables.get (.ofEq String) R.table = some table ∧
      R.initial = some table.initialState ∧
      R.rowsBefore orders later = some (rowsAt t'.machine.rows.objects table.tableRows) ∧
      table.conditions = R.conditions := by
  rw [List.foldlM_append] at h
  obtain ⟨u, hu, h⟩ := Option.bind_eq_some_iff.mp h
  rw [List.foldlM_cons] at h
  obtain ⟨v, hv, h⟩ := Option.bind_eq_some_iff.mp h
  obtain ⟨rest, current₁, hrows₁, hout₁, hcurrent₁⟩ := walkStages_late ht hrows hcurrent hu
  generalize withLate current (late earlier) objects ++ rest = objects₁ at hrows₁ hcurrent₁
  obtain ⟨rows, initialState, hsettled, hinitial, hrows₂, htables⟩ := walkStage_late hout₁ hrows₁ hv
  have hlength := @length_withLate _ objects₁ current₁ R.customConditions.flatten
  generalize withLate current₁ R.customConditions.flatten objects₁ = before at hlength hrows₂
  have hcurrent₂ := pointsInto_lastRow hcurrent₁ hlength hsettled
  have hout₂ : v.outside := .inr (outside_walkStage hout₁ hv)
  obtain ⟨rest', current₂, hrows₃, -, -⟩ := walkStages_late hout₂ hrows₂ hcurrent₂ h
  have hget := get_tables_walkStages hout₂ hrows₂ h hlast
  rw [htables, LinkedHashMap.get_put, if_pos rfl] at hget
  refine ⟨_, hget, ?_, ?_, rfl⟩
  · unfold ResolvedStage.initial
    rw [hinitial]
    rfl
  · unfold ResolvedStage.rowsBefore
    rw [hsettled, Option.map_some, hrows₃, ← hlength]
    refine congrArg some ?_
    have hvalid : Valid (withLate (((lastRow orders R.states).map (before.length + ·)).or current₁)
        (late later) (before ++ rows.flatten))
        (refsWhere (fun r => !r.isEmpty (some (.declared R.identifier))) before.length
          rows.flatten) := fun ref href => by
      rw [length_withLate]
      exact valid_refsWhere _ _ _ ref href
    refine Eq.symm ((rowsAt_append hvalid).trans ?_)
    cases hrow : lastRow orders R.states with
    | none =>
      have hbefore : PointsInto current₁ before := fun ref href => hlength ▸ hcurrent₁ ref href
      rw [Option.map_none, Option.none_or, withLate_left hbefore, ← @length_withLate _ before
        current₁ (late later)]
      exact rowsAt_refsWhere _ _ _
    | some row =>
      rw [Option.map_some, Option.some_or, withLate_right, ← @refsWhere_withLate (some row)
        (some (.declared R.identifier)) before.length (late later) rows.flatten]
      exact rowsAt_refsWhere _ _ _

end Stages

/-! ## The tables of a program -/

variable {orders : Orders} {P : ProgramContext} {stages : List CompiledStage}
  {custom : List (List ConditionResult)} {s : Factories × Option String}
  {earlier later Rs : List ResolvedStage} {R : ResolvedStage}

/-- **The table of a stage of an accepted program**, the last one declared
under its name. -/
theorem tableNamed_of_compile (h : compile orders P = some stages)
    (hprogram : Factories.program (.initial, none) P = some ((custom, earlier ++ R :: later), s))
    (hlast : ∀ R' ∈ later, R'.table ≠ R.table)
    (hname : ∃ stage ∈ stages, stage.name = R.table) :
    ∃ table, tableNamed stages R.table = some table ∧ R.initial = some table.initialState ∧
      R.rowsBefore orders later = some table.tableRows ∧ table.conditions = R.conditions := by
  unfold compile at h
  rw [walkProgram_eq, Option.bind_assoc, hprogram, Option.bind_some, Option.bind_map] at h
  obtain ⟨t, ht, h⟩ := Option.bind_eq_some_iff.mp h
  obtain ⟨u, hu, ht⟩ := Option.bind_eq_some_iff.mp ht
  have hstart : Rows.initial.machine.rows = idle [] [] none := rfl
  have hcustom := customConditions_late hstart hu
  have hout : u.outside := hcustom ▸ Or.inl rfl
  have hidle : u.machine.rows = idle [] [] none := by
    rw [hcustom]
    rfl
  obtain ⟨table, hget, hinitial, hrows, hconditions⟩ :=
    table_of_stages hout hidle (fun ref href => by cases href) ht hlast
  unfold Function.comp XtraCompiler.exitProgram at h
  obtain ⟨bodies, -, h⟩ := Option.bind_eq_some_iff.mp h
  obtain ⟨stages', hstages, h⟩ := Option.bind_eq_some_iff.mp h
  obtain ⟨_, -, h⟩ := Option.bind_eq_some_iff.mp h
  cases h
  obtain ⟨stage, hmem, hstage⟩ := hname
  cases hfind : stages.find? fun stage => stage.name == R.table with
  | none =>
    have hno := List.find?_eq_none.mp hfind stage hmem
    rw [hstage] at hno
    exact absurd (beq_self_eq_true R.table) hno
  | some found =>
    have hfound : found.name = R.table := by simpa using List.find?_some hfind
    obtain ⟨⟨name, body⟩, -, hmade⟩ := exists_of_mem_mapM hstages (List.mem_of_find?_eq_some hfind)
    obtain ⟨object, hobject, rfl⟩ := Option.map_eq_some_iff.mp hmade
    obtain rfl : name = R.table := hfound
    obtain ⟨found, hfound', rfl⟩ := Option.map_eq_some_iff.mp hobject
    have hsame : some found = some table := hfound'.symm.trans hget
    cases hsame
    unfold tableNamed
    rw [hfind]
    exact ⟨_, rfl, hinitial, hrows, hconditions⟩

end Xl

end FlowBlaze
