import FlowBlaze.Xl.LaterBlocks
import FlowBlaze.Xl.Learning
/-!
# The tables of a program

What the tables of an accepted program hold, stage by stage: the settled
rows of the stage's blocks that are not empty. A stage declared again
replaces its table. Only the conditions of a row can change after its
stage, since those of a custom event go to the row made last.
-/

namespace FlowBlaze

namespace Xl

open Common

/-! ## Rows and references -/

section Refs

variable {κ : Type} {old rows objects objects' : List (TableRow κ)} {refs : List ℕ}

/-- A row but for its conditions. -/
def TableRow.bare (r : TableRow κ) : TableRow κ := { r with conditionResults := [] }

/-- What a function does not see may change. -/
theorem map_modify_of_eq {α β : Type} {f : α → α} {g : α → β} {l : List α} (i : ℕ)
    (h : ∀ x, g (f x) = g x) : (l.modify i f).map g = l.map g := by
  induction l generalizing i with
  | nil => cases i <;> rfl
  | cons x l ih =>
    cases i with
    | zero => rw [List.modify_zero_cons, List.map_cons, List.map_cons, h]
    | succ i => rw [List.modify_succ_cons, List.map_cons, List.map_cons, ih]

/-- Changing an element of the first of two lists. -/
theorem modify_append_left {α : Type} (f : α → α) {l m : List α} {i : ℕ} (h : i < l.length) :
    (l ++ m).modify i f = l.modify i f ++ m := by
  induction l generalizing i with
  | nil => cases h
  | cons x l ih =>
    cases i with
    | zero => rfl
    | succ i =>
      rw [List.cons_append, List.modify_succ_cons, List.modify_succ_cons, List.cons_append,
        ih (Nat.lt_of_succ_lt_succ h)]

/-- Changing one of the second. -/
theorem modify_append_right {α : Type} (f : α → α) (l m : List α) (i : ℕ) :
    (l ++ m).modify (l.length + i) f = l ++ m.modify i f := by
  induction l with
  | nil => rw [List.length_nil, Nat.zero_add, List.nil_append, List.nil_append]
  | cons x l ih =>
    rw [List.cons_append, List.length_cons, show l.length + 1 + i = l.length + i + 1 by omega,
      List.modify_succ_cons, ih, List.cons_append]

/-- The rows that references stand for. -/
def rowsAt (objects : List (TableRow κ)) (refs : List ℕ) : List (TableRow κ) :=
  refs.filterMap (objects[·]?)

/-- References into the store. -/
def Valid (objects : List (TableRow κ)) (refs : List ℕ) : Prop :=
  ∀ ref ∈ refs, ref < objects.length

theorem rowsAt_refsWhere (p : TableRow κ → Bool) (old rows : List (TableRow κ)) :
    rowsAt (old ++ rows) (refsWhere p old.length rows) = rows.filter p := by
  induction rows generalizing old with
  | nil => rfl
  | cons r rows ih =>
    have hrest := ih (old ++ [r])
    rw [List.length_append, List.length_singleton, List.append_assoc,
      List.singleton_append] at hrest
    have hget : (old ++ r :: rows)[old.length]? = some r := by simp
    rw [refsWhere, List.filter_cons]
    cases p r with
    | true =>
      rw [if_pos rfl, if_pos rfl]
      unfold rowsAt at hrest ⊢
      rw [List.filterMap_cons, hget, hrest]
    | false => rw [if_neg Bool.false_ne_true, if_neg Bool.false_ne_true, hrest]

theorem valid_refsWhere (p : TableRow κ → Bool) (old rows : List (TableRow κ)) :
    Valid (old ++ rows) (refsWhere p old.length rows) := by
  induction rows generalizing old with
  | nil => exact fun ref href => by cases href
  | cons r rows ih =>
    have hrest := ih (old ++ [r])
    rw [List.length_append, List.length_singleton, List.append_assoc,
      List.singleton_append] at hrest
    rw [refsWhere]
    cases p r with
    | true =>
      rw [if_pos rfl]
      intro ref href
      rcases List.mem_cons.mp href with rfl | href
      · rw [List.length_append, List.length_cons]
        omega
      · exact hrest ref href
    | false =>
      rw [if_neg Bool.false_ne_true]
      exact hrest

/-- Later rows do not touch earlier references. -/
theorem rowsAt_append (h : Valid old refs) : rowsAt (old ++ rows) refs = rowsAt old refs := by
  unfold rowsAt
  refine List.filterMap_congr fun ref href => ?_
  rw [List.getElem?_append_left (h ref href)]

/-- **The store goes on**: rows may be added, and conditions. -/
def Grows (objects objects' : List (TableRow κ)) : Prop :=
  objects.map TableRow.bare <+: objects'.map TableRow.bare

theorem Grows.refl (objects : List (TableRow κ)) : Grows objects objects := List.prefix_rfl

theorem Grows.trans {objects'' : List (TableRow κ)} (h : Grows objects objects')
    (h' : Grows objects' objects'') : Grows objects objects'' := List.IsPrefix.trans h h'

theorem Grows.valid (h : Grows objects objects') (hvalid : Valid objects refs) :
    Valid objects' refs := by
  have hlength := List.IsPrefix.length_le h
  rw [List.length_map, List.length_map] at hlength
  exact fun ref href => (hvalid ref href).trans_le hlength

/-- What references stand for, they stand for later. -/
theorem Grows.rowsAt (h : Grows objects objects') (hvalid : Valid objects refs) :
    (rowsAt objects' refs).map TableRow.bare = (rowsAt objects refs).map TableRow.bare := by
  have hmap : ∀ l : List (TableRow κ), (Xl.rowsAt l refs).map TableRow.bare =
      refs.filterMap ((l.map TableRow.bare)[·]?) := by
    intro l
    unfold Xl.rowsAt
    rw [List.map_filterMap]
    exact List.filterMap_congr fun ref _ => List.getElem?_map.symm
  rw [hmap, hmap]
  refine List.filterMap_congr fun ref href => ?_
  have hlt : ref < (objects.map TableRow.bare).length := by
    rw [List.length_map]
    exact hvalid ref href
  obtain ⟨rest, hrest⟩ := h
  rw [← hrest, List.getElem?_append_left hlt]

end Refs

/-! ## Conditions for the row made last -/

section Late

variable {κ : Type} {objects rows : List (TableRow κ)} {current : Option ℕ} {late late' : List κ}

/-- The rows, with conditions added to one of them. -/
def withLate (current : Option ℕ) (late : List κ) (objects : List (TableRow κ)) :
    List (TableRow κ) :=
  match current with
  | none => objects
  | some ref => objects.modify ref fun row =>
    { row with conditionResults := row.conditionResults ++ late }

theorem length_withLate : (withLate current late objects).length = objects.length := by
  cases current with
  | none => rfl
  | some ref => exact List.length_modify _ _ _

theorem withLate_nil : withLate current [] objects = objects := by
  cases current with
  | none => rfl
  | some ref =>
    unfold withLate
    simp only [List.append_nil]
    exact List.modify_id ref objects

theorem withLate_append :
    withLate current (late ++ late') objects =
      withLate current late' (withLate current late objects) := by
  cases current with
  | none => rfl
  | some ref =>
    refine Eq.trans (congrArg (objects.modify ref) (funext fun row => ?_))
      (List.modify_modify_eq _ _ ref objects).symm
    simp only [Function.comp_apply, List.append_assoc]

/-- Only conditions are added. -/
theorem bare_withLate :
    (withLate current late objects).map TableRow.bare = objects.map TableRow.bare := by
  cases current with
  | none => rfl
  | some ref => exact map_modify_of_eq ref fun row => rfl

/-- Rows made later are left alone. -/
theorem withLate_left (h : ∀ ref ∈ current, ref < objects.length) :
    withLate current late (objects ++ rows) = withLate current late objects ++ rows := by
  cases current with
  | none => rfl
  | some ref => exact modify_append_left _ (h ref rfl)

/-- So are earlier ones. -/
theorem withLate_right (row : ℕ) :
    withLate (some (objects.length + row)) late (objects ++ rows) =
      objects ++ withLate (some row) late rows :=
  modify_append_right _ objects rows row

end Late

/-! ## Lists mapped member by member -/

section MapM

variable {α β γ : Type} {f : α → Option β} {xs : List α} {ys : List β}

theorem exists_of_mem_mapM (h : xs.mapM f = some ys) {y : β} (hy : y ∈ ys) :
    ∃ x ∈ xs, f x = some y := by
  have hall := mapM_eq_some_iff.mp h
  obtain ⟨i, hi, rfl⟩ := List.getElem_of_mem hy
  have hi' : i < xs.length := hall.length_eq ▸ hi
  exact ⟨xs[i], List.getElem_mem hi', hall.get hi' hi⟩

theorem exists_image_of_mapM (h : xs.mapM f = some ys) {x : α} (hx : x ∈ xs) :
    ∃ y ∈ ys, f x = some y := by
  have hall := mapM_eq_some_iff.mp h
  obtain ⟨i, hi, rfl⟩ := List.getElem_of_mem hx
  have hi' : i < ys.length := hall.length_eq ▸ hi
  exact ⟨ys[i], List.getElem_mem hi', hall.get hi hi'⟩

theorem forall₂_map_eq {g : α → γ} {k : β → γ} (h : List.Forall₂ (fun x y => g x = k y) xs ys) :
    xs.map g = ys.map k := by
  induction h with
  | nil => rfl
  | cons hxy _ ih => rw [List.map_cons, List.map_cons, hxy, ih]

end MapM

/-! ## The rows of a stage -/

/-- The settled rows of a stage's blocks. -/
def settledBlocks (orders : Orders) (states : List (Bool × StateStatement ConditionResult)) :
    Option (List (List (TableRow ConditionResult))) :=
  states.mapM fun S => (blockRows orders.event S.2).mapM TableRow.settle

/-- **The row that a stage makes last**, among those of its blocks. -/
def lastRow (orders : Orders) : List (Bool × StateStatement ConditionResult) → Option ℕ
  | [] => none
  | S :: states => ((lastRow orders states).map ((blockRows orders.event S.2).length + ·)).or
      (lastRef [] S.2.state S.2.eventStatements none)

/-- **The rows of a stage's table.** -/
def ResolvedStage.rows (orders : Orders) (R : ResolvedStage) :
    Option (List (TableRow ConditionResult)) :=
  (settledBlocks orders R.states).map fun rows =>
    rows.flatten.filter fun r => !r.isEmpty (some (.declared R.identifier))

section Stage

variable {old : List (TableRow ConditionResult)} {refs : List ℕ} {stage : Option Stage}
  {current : Option ℕ} {orders : Orders} {before : Option Event} {last : Option State}

theorem Kept.valid (h : Kept old refs stage) : Valid old refs := fun ref href => by
  obtain ⟨row, hrow, -⟩ := h ref href
  exact (List.getElem?_eq_some_iff.mp hrow).1

/-- Settled rows are settled. -/
theorem settle_of_mem {new rows : List (TableRow ConditionResult)}
    (hrows : new.mapM TableRow.settle = some rows) {r : TableRow ConditionResult} (hr : r ∈ rows) :
    r.settle = some r := by
  have hall := mapM_eq_some_iff.mp hrows
  obtain ⟨i, hi, rfl⟩ := List.getElem_of_mem hr
  exact settle_of_settle (hall.get (hall.length_eq ▸ hi) hi)

/-- The rows of one more block. -/
theorem Kept.append {new rows : List (TableRow ConditionResult)} (h : Kept old refs stage)
    (hrows : new.mapM TableRow.settle = some rows) :
    Kept (old ++ rows) (refs ++ refsWhere (fun r => !r.isEmpty stage) old.length rows) stage := by
  intro ref href
  rcases List.mem_append.mp href with href | href
  · obtain ⟨row, hrow, hsettle, hempty⟩ := h ref href
    exact ⟨row, getElem?_of_append hrow, hsettle, hempty⟩
  · have hlt := valid_refsWhere (fun r => !r.isEmpty stage) old rows ref href
    rw [← filter_range'_eq_refsWhere, List.mem_filter] at href
    obtain ⟨hrange, hkeep⟩ := href
    rw [List.getElem?_eq_getElem hlt, Option.all_some] at hkeep
    refine ⟨_, List.getElem?_eq_getElem hlt, settle_of_mem hrows ?_, by simpa using hkeep⟩
    have hle : old.length ≤ ref := by
      obtain ⟨i, -, rfl⟩ := List.mem_range'.mp hrange
      omega
    rw [List.getElem_append_right hle]
    exact List.getElem_mem _

/-- The places of the rows of two lists. -/
theorem refsWhere_append {α : Type} (p : α → Bool) (n : ℕ) (xs ys : List α) :
    refsWhere p n (xs ++ ys) = refsWhere p n xs ++ refsWhere p (n + xs.length) ys := by
  induction xs generalizing n with
  | nil => rfl
  | cons x xs ih =>
    rw [List.cons_append, refsWhere, refsWhere, ih, List.length_cons,
      show n + 1 + xs.length = n + (xs.length + 1) by omega]
    cases p x <;> rfl

/-- The row made last in a block, from the block alone. -/
theorem lastRef_eq {s : State} {bs : List (EventStatement ConditionResult)} :
    lastRef old s bs current = ((lastRef [] s bs none).map (old.length + ·)).or current := by
  unfold lastRef
  cases (rawRows s bs).length with
  | zero => rfl
  | succ n =>
    change some (old.length + n) = some (old.length + (0 + n))
    rw [Nat.zero_add]

/-- The row made last in the blocks that follow, or in the one before. -/
theorem lastRow_cons {S : Bool × StateStatement ConditionResult}
    {states : List (Bool × StateStatement ConditionResult)} {new : List (TableRow ConditionResult)}
    (hnew : new.length = (blockRows orders.event S.2).length) :
    ((lastRow orders states).map ((old ++ new).length + ·)).or
        (lastRef old S.2.state S.2.eventStatements current) =
      ((lastRow orders (S :: states)).map (old.length + ·)).or current := by
  rw [lastRow, lastRef_eq, List.length_append, hnew]
  cases lastRow orders states with
  | none => rfl
  | some row =>
    rw [Option.map_some, Option.map_some, Option.some_or, Option.some_or, Option.map_some,
      Option.some_or, Nat.add_assoc]

/-- **The blocks of a stage**, one after the other. -/
theorem walkStates_between {name : String} {states : List (Bool × StateStatement ConditionResult)}
    {initial : Option State} {t : CompilerStateMachine ConditionResult × Option State}
    (hrefs : Kept old refs stage)
    (h : states.foldlM (XtraCompiler.walkStateInitial name orders)
      (between before last stage old refs current, initial) = some t) :
    ∃ rows before' last', settledBlocks orders states = some rows ∧
      states.foldlM (fun initial S => XtraCompiler.initialAfter initial S.1 S.2.state) initial =
        some t.2 ∧
      t.1 = between before' last' stage (old ++ rows.flatten)
        (refs ++ refsWhere (fun r => !r.isEmpty stage) old.length rows.flatten)
        (((lastRow orders states).map (old.length + ·)).or current) ∧
      Kept (old ++ rows.flatten)
        (refs ++ refsWhere (fun r => !r.isEmpty stage) old.length rows.flatten) stage := by
  induction states generalizing before last old refs current initial with
  | nil =>
    cases h
    refine ⟨[], before, last, rfl, rfl, ?_, ?_⟩ <;>
      simp only [List.flatten_nil, List.append_nil, refsWhere]
    · rfl
    · exact hrefs
  | cons S states ih =>
    rw [List.foldlM_cons] at h
    obtain ⟨t₁, ht₁, h⟩ := Option.bind_eq_some_iff.mp h
    obtain ⟨initial', hinitial, ht₁⟩ := Option.bind_eq_some_iff.mp ht₁
    obtain ⟨M, hM, rfl⟩ := Option.map_eq_some_iff.mp ht₁
    rw [walkState_between name last S.2 hrefs] at hM
    obtain ⟨new, hnew, rfl⟩ := Option.map_eq_some_iff.mp hM
    obtain ⟨rows, before', last', hrows, hinitials, ht, hkept⟩ := ih (hrefs.append hnew) h
    have hplaces : refs ++ refsWhere (fun r => !r.isEmpty stage) old.length new ++
        refsWhere (fun r => !r.isEmpty stage) (old ++ new).length rows.flatten =
        refs ++ refsWhere (fun r => !r.isEmpty stage) old.length (new :: rows).flatten := by
      rw [List.flatten_cons, refsWhere_append, List.length_append, List.append_assoc]
    have hstore : old ++ new ++ rows.flatten = old ++ (new :: rows).flatten := by
      rw [List.flatten_cons, List.append_assoc]
    rw [hplaces, hstore] at hkept
    refine ⟨new :: rows, before', last', ?_, ?_, ?_, hkept⟩
    · unfold settledBlocks at hrows ⊢
      rw [List.mapM_cons, hnew, hrows]
      rfl
    · rw [List.foldlM_cons, hinitial]
      exact hinitials
    · rw [ht, hplaces, hstore, lastRow_cons (mapM_eq_some_iff.mp hnew).length_eq.symm]

/-- The same, for the rows that the references stand for. -/
theorem walkStates_idle {name : String} {states : List (Bool × StateStatement ConditionResult)}
    {initial : Option State} (hrefs : Kept old refs stage)
    {t : CompilerStateMachine ConditionResult × Option State}
    (h : states.foldlM (XtraCompiler.walkStateInitial name orders)
      (between before last stage old refs current, initial) = some t) :
    ∃ rows before' last' refs' current', settledBlocks orders states = some rows ∧
      t.1 = between before' last' stage (old ++ rows.flatten) refs' current' ∧
      Kept (old ++ rows.flatten) refs' stage ∧
      rowsAt (old ++ rows.flatten) refs' =
        rowsAt old refs ++ rows.flatten.filter fun r => !r.isEmpty stage := by
  obtain ⟨rows, before', last', hrows, -, ht, hkept⟩ := walkStates_between hrefs h
  refine ⟨rows, before', last', _, _, hrows, ht, hkept, ?_⟩
  unfold rowsAt at *
  rw [List.filterMap_append]
  exact congrArg₂ _ (rowsAt_append hrefs.valid)
    (rowsAt_refsWhere (fun r => !r.isEmpty stage) old rows.flatten)

/-- **Conditions outside of a block** go to the row made last. -/
theorem exitConditions_late {results : List ConditionResult}
    {M M' : CompilerStateMachine ConditionResult} (hM : M.rows = idle old refs current)
    (h : results.foldlM exitCondition M = some M') :
    M' = { M with rows := idle (withLate current results old) refs current } := by
  induction results generalizing M old with
  | nil =>
    cases h
    rw [withLate_nil, ← hM]
  | cons result results ih =>
    rw [List.foldlM_cons] at h
    obtain ⟨N, hN, h⟩ := Option.bind_eq_some_iff.mp h
    obtain ⟨rows, hrows, rfl⟩ := Option.map_eq_some_iff.mp hN
    rw [hM] at hrows
    obtain ⟨ref, href, rfl⟩ := Option.map_eq_some_iff.mp hrows
    obtain rfl : current = some ref := href
    rw [← List.singleton_append, withLate_append]
    have hrest := ih (M := { M with
      rows := idle (withLate (some ref) [result] old) refs (some ref) }) rfl h
    exact hrest

end Stage

/-! ## The tables -/

namespace XtraCompiler

variable {orders : Orders} {t t' : Rows} {R : ResolvedStage} {done Rs : List ResolvedStage}
  {objects : List (TableRow ConditionResult)} {current : Option ℕ}

/-- Conditions of custom events, before a stage's blocks. -/
theorem customConditions_late {custom : List (List ConditionResult)}
    (hrows : t.machine.rows = idle objects [] current)
    (h : custom.foldlM Rows.exitConditions t = some t') :
    t' = t.holding { t.machine with
      rows := idle (withLate current custom.flatten objects) [] current } := by
  induction custom generalizing t objects with
  | nil =>
    cases h
    rw [List.flatten_nil, withLate_nil, ← hrows]
    rfl
  | cons results custom ih =>
    rw [List.foldlM_cons] at h
    obtain ⟨u, hu, h⟩ := Option.bind_eq_some_iff.mp h
    obtain ⟨M, hM, rfl⟩ := Option.map_eq_some_iff.mp hu
    obtain rfl := exitConditions_late hrows hM
    rw [List.flatten_cons, withLate_append]
    have hrest := ih (t := t.holding { t.machine with
      rows := idle (withLate current results objects) [] current }) rfl h
    exact hrest

/-- They change no more than conditions. -/
theorem exitConditions_custom {custom : List (List ConditionResult)}
    (hrows : t.machine.rows = idle objects [] current)
    (h : custom.foldlM Rows.exitConditions t = some t') :
    ∃ objects', t' = t.holding { t.machine with rows := idle objects' [] current } ∧
      objects'.map TableRow.bare = objects.map TableRow.bare :=
  ⟨_, customConditions_late hrows h, bare_withLate⟩

/-- **A stage is walked**: the conditions of its custom events go to the row
made last, its rows are added, and its table is put. -/
theorem walkStage_late (ht : t.outside) (hrows : t.machine.rows = idle objects [] current)
    (h : t.walkStage orders R = some t') :
    ∃ rows initialState, settledBlocks orders R.states = some rows ∧
      R.states.foldlM (fun initial S => initialAfter initial S.1 S.2.state) none =
        some (some initialState) ∧
      t'.machine.rows = idle
        (withLate current R.customConditions.flatten objects ++ rows.flatten) []
        (((lastRow orders R.states).map (objects.length + ·)).or current) ∧
      t'.tables = t.tables.put (.ofEq String) R.table ⟨initialState,
        refsWhere (fun r => !r.isEmpty (some (.declared R.identifier))) objects.length
          rows.flatten, R.conditions⟩ := by
  obtain ⟨M, hM, h⟩ := Option.bind_eq_some_iff.mp h
  obtain ⟨u, hu, h⟩ := Option.bind_eq_some_iff.mp h
  obtain ⟨⟨M', initial⟩, hstates, h⟩ := Option.bind_eq_some_iff.mp h
  obtain ⟨initialState, hinitial, h⟩ := Option.bind_eq_some_iff.mp h
  obtain rfl : initial = some initialState := hinitial
  obtain ⟨M'', hM'', rfl⟩ := Option.map_eq_some_iff.mp h
  have hinside : M = { t.machine with
      compilerState := .inStageBlock
      lastDeclaredStage := some (.declared R.identifier) } := by
    unfold CompilerStateMachine.goInsideBlock at hM
    rcases ht with ht | ht <;> rw [ht] at hM <;> exact (Option.some.inj hM).symm
  have hrows₁ : M.rows = idle objects [] current := by
    rw [hinside]
    exact hrows
  obtain rfl := customConditions_late (t := ⟨M, none, t.tables⟩) hrows₁ hu
  generalize hobjects : withLate current R.customConditions.flatten objects = objects₁ at hstates ⊢
  have hlength : objects₁.length = objects.length := by rw [← hobjects, length_withLate]
  have hbetween : ({ M with rows := idle objects₁ [] current } : CompilerStateMachine _) =
      between t.machine.currentEvent t.machine.currentState (some (.declared R.identifier))
        objects₁ [] current := by
    rw [hinside]
    rfl
  change R.states.foldlM _ (({ M with rows := idle objects₁ [] current } :
    CompilerStateMachine _), none) = _ at hstates
  rw [hbetween] at hstates
  have hnone : Kept objects₁ [] (some (.declared R.identifier)) := fun ref href => by cases href
  obtain ⟨rows, before, last, hsettled, hinitials, hM', -⟩ := walkStates_between hnone hstates
  rw [hlength, List.nil_append] at hM'
  refine ⟨rows, initialState, hsettled, hinitials, ?_, ?_⟩
  · change M''.rows = _
    obtain rfl : M' = _ := hM'
    cases hM''
    rfl
  · change t.tables.put _ _ ⟨_, M'.rows.tableRows, _⟩ = _
    obtain rfl : M' = _ := hM'
    rfl

/-- The same, for the rows that the table's references stand for. -/
theorem walkStage_tables (ht : t.outside) (hrows : t.machine.rows = idle objects [] current)
    (h : t.walkStage orders R = some t') :
    ∃ rows objects' current' initial refs, R.rows orders = some rows ∧
      t'.machine.rows = idle objects' [] current' ∧ Grows objects objects' ∧
      t'.tables = t.tables.put (.ofEq String) R.table ⟨initial, refs, R.conditions⟩ ∧
      Valid objects' refs ∧ rowsAt objects' refs = rows := by
  obtain ⟨rows, initialState, hsettled, -, hrows', htables⟩ := walkStage_late ht hrows h
  have hlength := @length_withLate _ objects current R.customConditions.flatten
  refine ⟨_, _, _, _, _, congrArg (Option.map _) hsettled, hrows', ?_, htables, ?_, ?_⟩
  · unfold Grows
    rw [List.map_append, bare_withLate]
    exact List.prefix_append _ _
  · rw [← hlength]
    exact valid_refsWhere _ _ _
  · rw [← hlength]
    exact rowsAt_refsWhere _ _ _

/-- **The tables of these stages.** -/
structure Holds (orders : Orders) (done : List ResolvedStage) (t : Rows)
    (objects : List (TableRow ConditionResult)) : Prop where
  rows : ∃ current, t.machine.rows = idle objects [] current
  outside : t.outside
  tables : ∀ name table, t.tables.get (.ofEq String) name = some table →
    ∃ earlier R later rows, done = earlier ++ R :: later ∧ R.table = name ∧
      (∀ R' ∈ later, R'.table ≠ name) ∧ R.rows orders = some rows ∧
      Valid objects table.tableRows ∧
      (rowsAt objects table.tableRows).map TableRow.bare = rows.map TableRow.bare

/-- One more stage. -/
theorem Holds.walkStage (h : Holds orders done t objects) (hwalk : t.walkStage orders R = some t') :
    ∃ objects', Holds orders (done ++ [R]) t' objects' := by
  obtain ⟨current, hrows⟩ := h.rows
  obtain ⟨rows, objects', current', initial, refs, hR, hrows', hgrows, htables, hvalid, hat⟩ :=
    walkStage_tables h.outside hrows hwalk
  refine ⟨objects', ⟨current', hrows'⟩, Or.inr (outside_walkStage h.outside hwalk),
    fun name table hget => ?_⟩
  rw [htables, LinkedHashMap.get_put] at hget
  split at hget
  · next hname =>
    cases hget
    refine ⟨done, R, [], rows, rfl, hname.symm, fun _ h => ?_, hR, hvalid, congrArg _ hat⟩
    cases h
  · next hname =>
    obtain ⟨earlier, R', later, rows', rfl, hR', hlater, hrows', hvalid', hat'⟩ :=
      h.tables name table hget
    refine ⟨earlier, R', later ++ [R], rows', by simp, hR', fun S hS => ?_, hrows',
      hgrows.valid hvalid', (hgrows.rowsAt hvalid').trans hat'⟩
    rcases List.mem_append.mp hS with hS | hS
    · exact hlater S hS
    · rw [List.mem_singleton.mp hS]
      exact Ne.symm hname

/-- All stages. -/
theorem Holds.walkStages (h : Holds orders done t objects)
    (hwalk : Rs.foldlM (Rows.walkStage orders) t = some t') :
    ∃ objects', Holds orders (done ++ Rs) t' objects' := by
  induction Rs generalizing t done objects with
  | nil =>
    cases hwalk
    rw [List.append_nil]
    exact ⟨objects, h⟩
  | cons R Rs ih =>
    rw [List.foldlM_cons] at hwalk
    obtain ⟨u, hu, hwalk⟩ := Option.bind_eq_some_iff.mp hwalk
    obtain ⟨objects₁, h₁⟩ := h.walkStage hu
    obtain ⟨objects₂, h₂⟩ := ih h₁ hwalk
    rw [List.append_assoc] at h₂
    exact ⟨objects₂, h₂⟩

/-- **The tables of a resolved program.** -/
theorem holds_of_walkProgram {custom : List (List ConditionResult)}
    (h : Rows.initial.walkProgram orders (custom, Rs) = some t) :
    ∃ objects, Holds orders Rs t objects := by
  obtain ⟨u, hu, h⟩ := Option.bind_eq_some_iff.mp h
  obtain ⟨objects, rfl, -⟩ := @exitConditions_custom _ _ [] none _ rfl hu
  have hstart : Holds orders [] (Rows.initial.holding { Rows.initial.machine with
      rows := idle objects [] none }) objects :=
    ⟨⟨none, rfl⟩, Or.inl rfl, fun name table hget => by cases hget⟩
  exact hstart.walkStages h

end XtraCompiler

open XtraCompiler

/-- **The table of a stage, from its blocks.** The stage is the last one
declared under its name. -/
structure ComesFrom (orders : Orders) (Rs : List ResolvedStage) (stage : CompiledStage)
    (earlier : List ResolvedStage) (R : ResolvedStage) (later : List ResolvedStage) : Prop where
  split : Rs = earlier ++ R :: later
  name : R.table = stage.name
  last : ∀ R' ∈ later, R'.table ≠ stage.name
  rows : ∃ rows, R.rows orders = some rows ∧
    stage.table.tableRows.map TableRow.bare = rows.map TableRow.bare

/-- **The tables of an accepted program**: each is that of a stage, and
each name of a stage has one. -/
theorem compile_tables {orders : Orders} {P : ProgramContext} {stages : List CompiledStage}
    (h : compile orders P = some stages) :
    ∃ custom Rs s, Factories.program (.initial, none) P = some ((custom, Rs), s) ∧
      (∀ stage ∈ stages, ∃ earlier R later, ComesFrom orders Rs stage earlier R later) ∧
      (stages.map (·.name) = s.1.stages.stages.keySet spreadHash) := by
  unfold compile at h
  rw [walkProgram_eq, Option.bind_assoc] at h
  obtain ⟨⟨⟨custom, Rs⟩, s⟩, hprogram, h⟩ := Option.bind_eq_some_iff.mp h
  rw [Option.bind_map] at h
  obtain ⟨t, ht, h⟩ := Option.bind_eq_some_iff.mp h
  obtain ⟨objects, hholds⟩ := holds_of_walkProgram ht
  obtain ⟨current, hrows⟩ := hholds.rows
  unfold Function.comp XtraCompiler.exitProgram at h
  obtain ⟨bodies, hbodies, h⟩ := Option.bind_eq_some_iff.mp h
  obtain ⟨stages', hstages, h⟩ := Option.bind_eq_some_iff.mp h
  obtain ⟨_, -, h⟩ := Option.bind_eq_some_iff.mp h
  cases h
  refine ⟨custom, Rs, s, hprogram, fun stage hstage => ?_, ?_⟩
  · obtain ⟨⟨name, body⟩, -, hstage⟩ := exists_of_mem_mapM hstages hstage
    obtain ⟨table, htable, rfl⟩ := Option.map_eq_some_iff.mp hstage
    obtain ⟨object, hobject, rfl⟩ := Option.map_eq_some_iff.mp htable
    obtain ⟨earlier, R, later, rows, hRs, hR, hlater, hrows', -, hat⟩ :=
      hholds.tables name object hobject
    refine ⟨earlier, R, later, hRs, hR, hlater, rows, hrows', ?_⟩
    change (rowsAt t.machine.rows.objects object.tableRows).map TableRow.bare = _
    rw [hrows]
    exact hat
  · have hlength : bodies.length = (s.1.stages.stages.keySet spreadHash).length := by
      cases hget : s.1.stages.getStages with
      | error e =>
        change Except.toOption s.1.stages.getStages = some bodies at hbodies
        rw [hget] at hbodies
        cases hbodies
      | ok bodies' =>
        change Except.toOption s.1.stages.getStages = some bodies at hbodies
        rw [hget] at hbodies
        cases hbodies
        have hmap := congrArg List.length (StageFactory.map_getStages hget)
        rwa [List.length_map, List.length_map] at hmap
    have hall := mapM_eq_some_iff.mp hstages
    have hnames : stages.map (·.name) =
        ((s.1.stages.stages.keySet spreadHash).zip bodies).map Prod.fst := by
      refine (forall₂_map_eq (hall.imp fun x stage hstage => ?_)).symm
      obtain ⟨table, -, rfl⟩ := Option.map_eq_some_iff.mp hstage
      rfl
    rw [hnames, List.map_fst_zip hlength.ge]

end Xl

end FlowBlaze
