import FlowBlaze.Encoding
import FlowBlaze.RowChoice
import FlowBlaze.Sw.Isolation
import FlowBlaze.Xl.StateBlock
/-!
# Rows and their events

The compiler keeps the event of each row: rows are grouped by state and
event, and the event is a member of the row in the JSON. The loader does
not read that member. This file follows the rows of a stage from the
compiler into a table and asks which of them a packet executes, in every
run of the table: the first `XTRA_PKT_RCVD` row that matches, as it
should be, or a row of another event that happens to come first.
-/

namespace FlowBlaze

open Common Json Sw

/-- A row of a stage's table. -/
abbrev CompiledRow := Xl.TableRow Xl.ConditionResult

/-! ## Rows, as the dataplane reads them -/

/-- A condition result, in the dataplane's words. -/
def Xl.Boolean.toSw : Xl.Boolean → XfsmResult
  | .xtraFalse => .xfsmFalse
  | .xtraTrue => .xfsmTrue
  | .xtraDontCare => .xfsmDontCare

namespace CompiledRow

/-- The row's state label. -/
def swState (row : CompiledRow) : Sw.State := BitVec.ofNat 32 row.state

/-- Ask for one more condition result. -/
def ask (results : Results) (r : Xl.ConditionResult) : Results := fun i =>
  if i.val = (BitVec.ofNat 32 r.id.id).toNat then r.result.toSw else results i

/-- What the row asks of each condition. Of one that it names twice, the
last counts. -/
def swResults (row : CompiledRow) : Results :=
  row.conditionResults.foldl ask fun _ => .xfsmDontCare

/-- The conditions came out as the row asks. -/
def holds (n : ℕ) (v : Results) (row : CompiledRow) : Bool := agrees n (swResults row) v

/-- **The row is for a packet received** in this state, with these
results. -/
def rcvd (n : ℕ) (s : Sw.State) (v : Results) (row : CompiledRow) : Bool :=
  row.event == .xtraPktRcvd && swState row == s && holds n v row

end CompiledRow

open CompiledRow

/-- The rows as the loader reads what the compiler writes of them. -/
def loadRows (label : Xl.Stage → ℕ) (old : ℕ → ℕ → ActionMemory) (rows : List CompiledRow) :
    Option (List XfsmTableEntry) :=
  (rows.mapM (Xl.TableRow.serialize label)).bind fun rows =>
    forEach (fun i => jsonToTableEntry (old i)) 0 rows

theorem resultWords_name (b : Xl.Boolean) : resultWords.lookup b.name = some b.toSw := by
  cases b <;> decide +kernel

/-- A number that is read in 32 bits is cut off, or out of range. -/
theorem eq_ofNat_of_strToUint {n : ℕ} {val : BitVec 32} (h : strToUint 32 n.repr = some val) :
    val = BitVec.ofNat 32 n := by
  by_cases hn : n < 2 ^ 64
  · rw [strToUint_repr hn] at h
    exact (Option.some.inj h).symm
  · unfold strToUint at h
    rw [strtoul_of_digits (isDecimal_repr n).1 (isDecimal_repr n).2] at h
    change (if decimal n.repr < 2 ^ 64 then _ else _ : Option (BitVec 64 × Bool)).bind _ = _ at h
    rw [decimal_repr, if_neg hn] at h
    cases h

/-- **Reading a condition result** asks for it. -/
theorem readResult_serialize {r : Xl.ConditionResult} {results results' : Results}
    (h : readResult results r.serialize = some results') : results' = ask results r := by
  unfold readResult at h
  obtain ⟨id, hid, h⟩ := Option.bind_eq_some_iff.mp h
  have hval : id = BitVec.ofNat 32 r.id.id := eq_ofNat_of_strToUint hid
  split at h
  · obtain ⟨result, hresult, h⟩ := Option.bind_eq_some_iff.mp h
    have hword : resultWords.lookup r.result.name = some result := hresult
    rw [resultWords_name] at hword
    cases hword
    cases h
    rw [hval]
    rfl
  · cases h

/-- **A row that is loaded** keeps its state and what it asks of the
conditions. Its event is gone. -/
theorem jsonToTableEntry_serialize {label : Xl.Stage → ℕ} {old : ℕ → ActionMemory}
    {row : CompiledRow} {json : Json} {entry : XfsmTableEntry}
    (hjson : row.serialize label = some json) (h : jsonToTableEntry old json = some entry) :
    entry.currentState = swState row ∧ entry.results = swResults row := by
  obtain ⟨actions, -, rfl⟩ := Option.map_eq_some_iff.mp hjson
  unfold jsonToTableEntry at h
  obtain ⟨conditions, hconditions, h⟩ := Option.bind_eq_some_iff.mp h
  obtain ⟨actionsItem, -, h⟩ := Option.bind_eq_some_iff.mp h
  obtain ⟨currentState, hstate, h⟩ := Option.bind_eq_some_iff.mp h
  obtain ⟨nextState, -, h⟩ := Option.bind_eq_some_iff.mp h
  obtain ⟨nextStage, -, h⟩ := Option.bind_eq_some_iff.mp h
  obtain ⟨results, hresults, h⟩ := Option.bind_eq_some_iff.mp h
  obtain ⟨parsed, -, h⟩ := Option.bind_eq_some_iff.mp h
  cases h
  refine ⟨eq_ofNat_of_strToUint hstate, ?_⟩
  cases hconditions
  unfold readResults at hresults
  split at hresults
  · have hread : ∀ (rs : List Xl.ConditionResult) (r₀ r₁ : Results),
        (rs.map Xl.ConditionResult.serialize).foldlM readResult r₀ = some r₁ →
          r₁ = rs.foldl ask r₀ := by
      intro rs
      induction rs with
      | nil =>
        intro r₀ r₁ h
        exact (Option.some.inj h).symm
      | cons r rs ih =>
        intro r₀ r₁ h
        obtain ⟨r₂, hr, h⟩ := Option.bind_eq_some_iff.mp h
        rw [List.foldl_cons, ← readResult_serialize hr]
        exact ih _ _ h
    exact hread _ _ _ hresults
  · cases hresults

/-- What the dataplane reads of a row to choose it. -/
def rowKey (row : CompiledRow) : Sw.State × Results := (swState row, swResults row)

/-- The same of a loaded row. -/
def entryKey (entry : XfsmTableEntry) : Sw.State × Results := (entry.currentState, entry.results)

/-- **The rows that are loaded** are the rows of the stage, in order. -/
theorem map_entryKey_loadRows {label : Xl.Stage → ℕ} {old : ℕ → ℕ → ActionMemory}
    {rows : List CompiledRow} {entries : List XfsmTableEntry}
    (h : loadRows label old rows = some entries) : entries.map entryKey = rows.map rowKey := by
  obtain ⟨jsons, hjsons, hload⟩ := Option.bind_eq_some_iff.mp h
  have hser := Xl.mapM_eq_some_iff.mp hjsons
  obtain ⟨hlen, hall⟩ := forEach_eq_some_iff.mp hload
  refine List.ext_getElem (by rw [List.length_map, List.length_map, ← hlen, hser.length_eq])
    fun i hi hi' => ?_
  rw [List.length_map] at hi hi'
  rw [List.getElem_map, List.getElem_map]
  have hrow := hser.get hi' (hser.length_eq ▸ hi')
  have hentry := hall i _ _ (List.getElem?_eq_getElem (hlen ▸ hi)) (List.getElem?_eq_getElem hi)
  obtain ⟨hstate, hresults⟩ := jsonToTableEntry_serialize hrow hentry
  exact Prod.ext hstate hresults

/-! ## The row chosen -/

/-- The numbered rows grouped under a state. -/
def filed (rows : List CompiledRow) (s : Sw.State) : List (CompiledRow × ℕ) :=
  nodeOf (fun x : CompiledRow × ℕ => swState x.1) rows.zipIdx s

/-- The number of the first row for a packet received. -/
def rcvdRow (rows : List CompiledRow) (n : ℕ) (s : Sw.State) (v : Results) : Option ℕ :=
  rows.findIdx? (rcvd n s v)

/-- **The number of the row a lookup returns**: the lookup on the same
rows, each with its number. -/
def rowNumber (HE : SlotMap Sw.State) (entries : List XfsmTableEntry) (n : ℕ) (s : Sw.State)
    (v : Results) : Option (Option ℕ) :=
  (createEntries HE entries.zipIdx fun x => x.1.currentState).bind fun E =>
    (xfsmTableLookup E (fun x => x.1.results) n s v).map (Option.map Prod.snd)

/-- The hash of the states takes these. -/
def TakesStates (HE : SlotMap Sw.State) (states : List Sw.State) : Prop :=
  HE.NeverFull ∨
    (HE.AcceptsBelow ∧ (headState :: states).dedup.length ≤ maxEntriesForeachState)

section Chosen

variable {α : Type} {rows : List CompiledRow} {entries : List XfsmTableEntry} {n : ℕ}
  {s : Sw.State} {v : Results} {HE : SlotMap Sw.State}

/-- Which row is chosen, by what is read of the rows. -/
def chosen (keys : List (Sw.State × Results)) (n : ℕ) (s : Sw.State) (v : Results) : Option ℕ :=
  ((nodeOf (fun x : (Sw.State × Results) × ℕ => x.1.1) keys.zipIdx s).find? fun x =>
    decide (0 < n) && agrees n x.1.2 v).map Prod.snd

/-- Choosing a row reads nothing else of the rows. -/
theorem chosen_map (f : α → Sw.State × Results) (xs : List α) :
    chosen (xs.map f) n s v =
      ((nodeOf (fun x : α × ℕ => (f x.1).1) xs.zipIdx s).find? fun x =>
        decide (0 < n) && agrees n (f x.1).2 v).map Prod.snd := by
  have hnode : nodeOf (fun x : (Sw.State × Results) × ℕ => x.1.1) (xs.map f).zipIdx s =
      (nodeOf (fun x : α × ℕ => (f x.1).1) xs.zipIdx s).map (Prod.map f id) := by
    rw [List.zipIdx_map]
    exact (map_nodeOf (Prod.map f id) xs.zipIdx s).symm
  unfold chosen
  rw [hnode, List.find?_map, Option.map_map]
  rfl

/-- Numbered rows are grouped as the rows are. -/
theorem map_fst_nodeOf_zipIdx (state : α → Sw.State) (xs : List α) (s : Sw.State) :
    (nodeOf (fun x : α × ℕ => state x.1) xs.zipIdx s).map Prod.fst = nodeOf state xs s := by
  have hmap : (nodeOf (state ∘ Prod.fst) xs.zipIdx s).map Prod.fst =
      nodeOf state (xs.zipIdx.map Prod.fst) s := map_nodeOf Prod.fst xs.zipIdx s
  rwa [List.zipIdx_map_fst] at hmap

/-- **The row a lookup returns** in the table that was created. -/
theorem xfsmTableLookup_eq_chosen {E : Entries HE XfsmTableEntry}
    (hHE : TakesStates HE (entries.map XfsmTableEntry.currentState)) (hn : n ≤ maxConditions)
    (hE : createEntries HE entries XfsmTableEntry.currentState = some E) :
    xfsmTableLookup E XfsmTableEntry.results n s v =
      some ((chosen (entries.map entryKey) n s v).bind fun i => entries[i]?) := by
  rw [xfsmTableLookup_eq_find? hn, bucket_createEntries hHE hE,
    ← map_fst_nodeOf_zipIdx XfsmTableEntry.currentState, List.find?_map, chosen_map]
  refine congrArg some ?_
  cases hfind : (nodeOf (fun x : XfsmTableEntry × ℕ => x.1.currentState) entries.zipIdx s).find?
      fun x => decide (0 < n) && agrees n x.1.results v with
  | none =>
    have hnone := hfind
    simp only [Function.comp_def, entryKey] at hnone ⊢
    rw [hnone]
    rfl
  | some x =>
    have hmem := mem_of_mem_nodeOf (List.mem_of_find?_eq_some hfind)
    obtain ⟨e, i⟩ := x
    have hi : entries[i]? = some e := List.mem_zipIdx_iff_getElem?.mp hmem
    simp only [Function.comp_def, entryKey] at hfind ⊢
    rw [hfind, Option.map_some, Option.map_some, Option.bind_some, hi]

/-- **And its number.** -/
theorem rowNumber_eq_chosen
    (hHE : TakesStates HE (entries.map XfsmTableEntry.currentState)) (hn : n ≤ maxConditions)
    (hroom : ∀ t, (nodeOf XfsmTableEntry.currentState entries t).length ≤ maxEntriesForeachState) :
    rowNumber HE entries n s v = some (chosen (entries.map entryKey) n s v) := by
  have hstates : entries.zipIdx.map (fun x => x.1.currentState) =
      entries.map XfsmTableEntry.currentState := by
    rw [← List.zipIdx_map_fst 0 entries, List.map_map, List.zipIdx_map_fst]
    rfl
  have hsome : (createEntries HE entries.zipIdx fun x => x.1.currentState).isSome = true := by
    refine createEntries_isSome_iff.mpr fun t => ?_
    rw [← List.length_map Prod.fst, map_fst_nodeOf_zipIdx]
    exact hroom t
  obtain ⟨E, hE⟩ := Option.isSome_iff_exists.mp hsome
  unfold rowNumber
  rw [hE, Option.bind_some, xfsmTableLookup_eq_find? hn,
    bucket_createEntries (by rw [hstates]; exact hHE) hE, chosen_map]
  rfl

end Chosen

/-! ## When the row is of its event -/

/-- **When the row chosen is the first for a packet received**: it is one
if there is any, and the first one that matches is compared, and grouped
under its state. -/
structure OnItsEvent (rows : List CompiledRow) (n : ℕ) (s : Sw.State) (v : Results) : Prop where
  first : 0 < n → ∀ x, (filed rows s).find? (fun x => holds n v x.1) = some x →
    rcvd n s v x.1 = true
  kept : ∀ i, rcvdRow rows n s v = some i → 0 < n ∧ i ∈ (filed rows s).map Prod.snd

section OnItsEvent

variable {α : Type} {rows : List CompiledRow} {n : ℕ} {s : Sw.State} {v : Results}

/-- The first match of a list in order is the least. -/
theorem le_of_find?_eq_some {p : α × ℕ → Bool} {l : List (α × ℕ)} {x y : α × ℕ}
    (hl : l.Pairwise fun x y => x.2 < y.2) (hx : l.find? p = some x) (hy : y ∈ l)
    (hpy : p y = true) : x.2 ≤ y.2 := by
  obtain ⟨-, before, after, rfl, hbefore⟩ := List.find?_eq_some_iff_append.mp hx
  rcases List.mem_append.mp hy with hy | hy
  · have := hbefore y hy
    rw [hpy] at this
    cases this
  · rcases List.mem_cons.mp hy with rfl | hy
    · exact le_rfl
    · have hpair := (List.pairwise_append.mp hl).2.1
      exact (List.pairwise_cons.mp hpair).1 y hy |>.le

/-- Rows are numbered in order. -/
theorem pairwise_zipIdx (xs : List α) : xs.zipIdx.Pairwise fun x y => x.2 < y.2 := by
  rw [← @List.pairwise_map _ _ Prod.snd fun i j : ℕ => i < j, List.zipIdx_map_snd]
  exact List.pairwise_lt_range'

/-- **The rows of a state stay in order** when they are grouped. -/
theorem sublist_nodeOf {state : α → Sw.State} (xs : List α) :
    ((nodeOf state xs s).filter fun x => state x == s).Sublist xs := by
  have hrows : ∀ (l : List α) (t : Sw.State), (rowsOf state l t).Sublist l :=
    fun l t => List.filter_sublist
  unfold nodeOf
  split
  · split
    · next hs =>
      -- the rows of state 0 that `STATE_NULL` took over are not of it
      subst hs
      have hnil : (rowsOf state (xs.takeWhile fun r => !isNull state r) headState).filter
          (fun x => state x == stateNull) = [] := by
        refine List.filter_eq_nil_iff.mpr fun x hx hnull => ?_
        have h0 := (List.mem_filter.mp hx).2
        rw [beq_iff_eq] at h0 hnull
        rw [h0] at hnull
        exact absurd hnull (by decide)
      rw [List.filter_append, hnil, List.nil_append]
      exact List.filter_sublist.trans (hrows _ _)
    · split
      · exact List.filter_sublist.trans ((hrows _ _).trans (List.dropWhile_sublist _))
      · exact List.filter_sublist.trans (hrows _ _)
  · exact List.filter_sublist.trans (hrows _ _)

/-- A row that is for a packet received is of its state and matches. -/
theorem rcvd_iff {row : CompiledRow} :
    rcvd n s v row = true ↔
      row.event = .xtraPktRcvd ∧ swState row = s ∧ holds n v row = true := by
  unfold rcvd
  rw [Bool.and_eq_true, Bool.and_eq_true, beq_iff_eq, beq_iff_eq, and_assoc]

/-- The first row for a packet received, with its number. -/
theorem rcvdRow_eq : rcvdRow rows n s v =
    (rows.zipIdx.find? fun x => rcvd n s v x.1).map Prod.snd :=
  (map_snd_find?_zipIdx (rcvd n s v) rows).symm

/-- The row chosen, among the numbered rows. -/
theorem chosen_rowKey : chosen (rows.map rowKey) n s v =
    ((filed rows s).find? fun x => decide (0 < n) && holds n v x.1).map Prod.snd :=
  chosen_map rowKey rows

/-- **The row chosen is the first for a packet received exactly then.** -/
theorem chosen_eq_rcvdRow_iff :
    chosen (rows.map rowKey) n s v = rcvdRow rows n s v ↔ OnItsEvent rows n s v := by
  have hfiled : ∀ {x : CompiledRow × ℕ}, x ∈ filed rows s → x ∈ rows.zipIdx :=
    fun hx => mem_of_mem_nodeOf hx
  rw [chosen_rowKey]
  constructor
  · intro h
    refine ⟨fun hn x hx => ?_, fun i hi => ?_⟩
    · simp only [decide_eq_true hn, Bool.true_and] at h
      rw [hx, rcvdRow_eq] at h
      obtain ⟨y, hy, hyx⟩ := Option.map_eq_some_iff.mp h.symm
      have hmem := hfiled (List.mem_of_find?_eq_some hx)
      obtain rfl := eq_of_mem_zipIdx (List.mem_of_find?_eq_some hy) hmem hyx
      exact List.find?_some (p := fun x : CompiledRow × ℕ => rcvd n s v x.1) hy
    · rw [hi] at h
      obtain ⟨x, hx, rfl⟩ := Option.map_eq_some_iff.mp h
      have hboth := List.find?_some
        (p := fun x : CompiledRow × ℕ => decide (0 < n) && holds n v x.1) hx
      refine ⟨?_, List.mem_map_of_mem (List.mem_of_find?_eq_some hx)⟩
      exact of_decide_eq_true (Bool.and_eq_true_iff.mp hboth).1
  · rintro ⟨hfirst, hkept⟩
    cases hrow : rcvdRow rows n s v with
    | none =>
      rw [Option.map_eq_none_iff, List.find?_eq_none]
      intro x hx hmatch
      obtain ⟨hn, hholds⟩ := Bool.and_eq_true_iff.mp hmatch
      have hn : 0 < n := of_decide_eq_true hn
      have hsome : ((filed rows s).find? fun x => holds n v x.1).isSome = true :=
        List.find?_isSome.mpr ⟨x, hx, hholds⟩
      obtain ⟨y, hy⟩ := Option.isSome_iff_exists.mp hsome
      have hrcvd := hfirst hn y hy
      rw [rcvdRow_eq, Option.map_eq_none_iff, List.find?_eq_none] at hrow
      exact hrow y (hfiled (List.mem_of_find?_eq_some hy)) hrcvd
    | some i =>
      obtain ⟨hn, hi⟩ := hkept i hrow
      obtain ⟨y, hy, rfl⟩ := List.mem_map.mp hi
      rw [rcvdRow_eq] at hrow
      obtain ⟨z, hz, hzy⟩ := Option.map_eq_some_iff.mp hrow
      obtain rfl := eq_of_mem_zipIdx (List.mem_of_find?_eq_some hz) (hfiled hy) hzy
      have hzrcvd : rcvd n s v z.1 = true :=
        List.find?_some (p := fun x : CompiledRow × ℕ => rcvd n s v x.1) hz
      obtain ⟨-, hzstate, hzholds⟩ := rcvd_iff.mp hzrcvd
      have hsome : ((filed rows s).find? fun x => holds n v x.1).isSome = true :=
        List.find?_isSome.mpr ⟨z, hy, hzholds⟩
      obtain ⟨x, hx⟩ := Option.isSome_iff_exists.mp hsome
      have hxrcvd := hfirst hn x hx
      have hxmem := List.mem_of_find?_eq_some hx
      -- both are the first of the other's search
      have hzx : z.2 ≤ x.2 := le_of_find?_eq_some (pairwise_zipIdx rows) hz (hfiled hxmem) hxrcvd
      have hxz : x.2 ≤ z.2 := by
        have hsub := @sublist_nodeOf _ s (fun x : CompiledRow × ℕ => swState x.1) rows.zipIdx
        refine le_of_find?_eq_some (p := fun x => holds n v x.1)
          ((pairwise_zipIdx rows).sublist hsub) ?_
          (List.mem_filter.mpr ⟨hy, beq_iff_eq.mpr hzstate⟩) hzholds
        rw [List.find?_filter]
        refine find?_of_imp hx ?_ fun y hy => (of_decide_eq_true hy).2
        exact decide_eq_true ⟨beq_iff_eq.mpr (rcvd_iff.mp hxrcvd).2.1, (rcvd_iff.mp hxrcvd).2.2⟩
      obtain rfl := eq_of_mem_zipIdx (hfiled hxmem) (hfiled hy) (by omega)
      simp only [decide_eq_true hn, Bool.true_and]
      rw [hx]
      rfl

end OnItsEvent

/-! ## Runs of a table -/

section Runs

variable {H : SlotMap FlowKey} {HE : SlotMap Sw.State}

/-- **Something holds at every visit of a run**, when the flow is looked up
and the conditions are evaluated. -/
def AtVisits (P : Ready H HE → Prop) : XfsmTable H HE → List (FlowKey × Mem) → Prop
  | _, [] => True
  | T, packet :: run => (∀ R, T.prepare packet.2 packet.1 = some R → P R) ∧
      ∀ V, T.visit packet.2 packet.1 = some V → AtVisits P V.table run

/-- The table of a stage, as `json_to_table` creates it. Its rows are
counted in a byte, and more are written past the end of an array. -/
def stageTable (H : SlotMap FlowKey) (HE : SlotMap Sw.State) (entries : List XfsmTableEntry)
    (initialState : Byte) (conditions : Fin maxConditions → XfsmCondition)
    (conditionsNumber : Byte) (lookupKey : LookupKey) : Option (XfsmTable H HE) :=
  if entries.length < 256 then
    xfsmTableCreate H HE entries initialState conditions conditionsNumber lookupKey
  else none

/-- **The row executed is the first for a packet received** that matches
the instance's state and its results. -/
structure ExecutesRcvd (rows : List CompiledRow) (entries : List XfsmTableEntry)
    (R : Ready H HE) : Prop where
  executed : R.tableLookup =
    some ((rcvdRow rows R.table.nbConditions R.matchInst.currentState
      R.matchInst.results).bind fun i => entries[i]?)
  number : rowNumber HE entries R.table.nbConditions R.matchInst.currentState
      R.matchInst.results =
    some (rcvdRow rows R.table.nbConditions R.matchInst.currentState R.matchInst.results)

/-- The row chosen is of its event, for an instance. -/
def MeetsEvent (rows : List CompiledRow) (R : Ready H HE) : Prop :=
  OnItsEvent rows R.table.nbConditions R.matchInst.currentState R.matchInst.results

/-- **Rows fire only on their event**: the table is created, and at every
visit of the run the row executed is for a packet received. -/
def FiresOnEvent (T : Option (XfsmTable H HE)) (rows : List CompiledRow)
    (entries : List XfsmTableEntry) (run : List (FlowKey × Mem)) : Prop :=
  ∃ T₀, T = some T₀ ∧ AtVisits (ExecutesRcvd rows entries) T₀ run

/-- The rows fit: a byte counts them, and no state has more than a bucket
holds. -/
structure RowsFit (rows : List CompiledRow) : Prop where
  size : rows.length < 256
  perState : ∀ s, (filed rows s).length ≤ maxEntriesForeachState

variable {T T' : XfsmTable H HE} {rows : List CompiledRow} {entries : List XfsmTableEntry}
  {run : List (FlowKey × Mem)} {label : Xl.Stage → ℕ} {old : ℕ → ℕ → ActionMemory}

/-- **What one visit gives, a run gives**: every table of a run has the
program of the first. -/
theorem atVisits_imp {P Q : Ready H HE → Prop} {program : Program HE}
    (hstep : ∀ (T : XfsmTable H HE) M key R, T.program = program → T.prepare M key = some R →
      P R → Q R)
    (hT : T.program = program) (h : AtVisits P T run) : AtVisits Q T run := by
  induction run generalizing T with
  | nil => trivial
  | cons packet run ih =>
    refine ⟨fun R hR => hstep T _ _ R hT hR (h.1 R hR), fun V hV => ih ?_ (h.2 V hV)⟩
    rw [program_visit hV, hT]

theorem atVisits_true : AtVisits (fun _ => True) T run := by
  induction run generalizing T with
  | nil => trivial
  | cons packet run ih => exact ⟨fun _ _ => trivial, fun V _ => ih⟩

/-- Only results that an array holds are looked up. -/
theorem le_of_prepare {M : Mem} {key : FlowKey} {R : Ready H HE}
    (h : T.prepare M key = some R) : R.table.nbConditions ≤ maxConditions := by
  obtain ⟨fields, results, -, -, -, hevaluate, htable⟩ := prepare_eq_some h
  rw [htable]
  exact le_of_xfsmEvaluateConditions hevaluate

/-- The states of loaded rows. -/
theorem map_currentState_loadRows (hload : loadRows label old rows = some entries) :
    entries.map XfsmTableEntry.currentState = rows.map swState := by
  have hkeys := congrArg (List.map Prod.fst) (map_entryKey_loadRows hload)
  rwa [List.map_map, List.map_map] at hkeys

/-- Loaded rows are grouped as the rows are. -/
theorem length_nodeOf_loadRows (hload : loadRows label old rows = some entries) (s : Sw.State) :
    (nodeOf XfsmTableEntry.currentState entries s).length = (filed rows s).length := by
  have hentries : (nodeOf XfsmTableEntry.currentState entries s).map
      XfsmTableEntry.currentState = nodeOf id (entries.map XfsmTableEntry.currentState) s :=
    @map_nodeOf _ _ id XfsmTableEntry.currentState entries s
  have hrows : (nodeOf swState rows s).map swState = nodeOf id (rows.map swState) s :=
    @map_nodeOf _ _ id swState rows s
  have hfiled : (filed rows s).length = (nodeOf swState rows s).length := by
    rw [← map_fst_nodeOf_zipIdx swState rows s, List.length_map]
    rfl
  rw [map_currentState_loadRows hload, ← hrows] at hentries
  have hlength := congrArg List.length hentries
  rw [List.length_map, List.length_map] at hlength
  rw [hlength, hfiled]

/-- **One visit.** -/
theorem executesRcvd_iff (hload : loadRows label old rows = some entries)
    (hHE : TakesStates HE (rows.map swState))
    (hroom : ∀ s, (filed rows s).length ≤ maxEntriesForeachState)
    (hE : createEntries HE entries XfsmTableEntry.currentState = some T'.entries)
    (hT : T.program = T'.program) {M : Mem} {key : FlowKey} {R : Ready H HE}
    (hR : T.prepare M key = some R) : ExecutesRcvd rows entries R ↔ MeetsEvent rows R := by
  have hn := le_of_prepare hR
  have hentries : R.table.entries = T'.entries :=
    congrArg Program.entries ((program_prepare hR).trans hT)
  rw [← map_currentState_loadRows hload] at hHE
  have hnumber := rowNumber_eq_chosen (s := R.matchInst.currentState) (v := R.matchInst.results)
    hHE hn fun t => (length_nodeOf_loadRows hload t).trans_le (hroom t)
  have hlookup := xfsmTableLookup_eq_chosen (s := R.matchInst.currentState)
    (v := R.matchInst.results) hHE hn hE
  rw [map_entryKey_loadRows hload] at hnumber hlookup
  unfold MeetsEvent
  rw [← chosen_eq_rcvdRow_iff]
  constructor
  · intro h
    exact Option.some.inj (hnumber.symm.trans h.number)
  · intro h
    refine ⟨?_, hnumber.trans (congrArg some h)⟩
    unfold Ready.tableLookup
    rw [hentries, hlookup, h]

/-- **When the table of a stage is created.** -/
theorem stageTable_isSome_iff {initialState : Byte} {conditions : Fin maxConditions → XfsmCondition}
    {conditionsNumber : Byte} {lookupKey : LookupKey}
    (hload : loadRows label old rows = some entries) :
    (stageTable H HE entries initialState conditions conditionsNumber lookupKey).isSome = true ↔
      RowsFit rows := by
  have hlength : entries.length = rows.length := by
    have := congrArg List.length (map_currentState_loadRows hload)
    rwa [List.length_map, List.length_map] at this
  have hnodes : (∀ s, (nodeOf XfsmTableEntry.currentState entries s).length ≤
      maxEntriesForeachState) ↔ ∀ s, (filed rows s).length ≤ maxEntriesForeachState :=
    forall_congr' fun s => by rw [length_nodeOf_loadRows hload]
  unfold stageTable xfsmTableCreate
  split
  · next h =>
    rw [Option.isSome_map, createEntries_isSome_iff, hnodes]
    exact ⟨fun hroom => ⟨hlength ▸ h, hroom⟩, RowsFit.perState⟩
  · next h => exact iff_of_false Bool.false_ne_true fun hfit => h (hlength.symm ▸ hfit.size)

/-- **When rows fire only on their event.** The rows have to fit the table,
and every instance that is looked up has to find, first, a row for a
packet received. -/
theorem firesOnEvent_iff {initialState : Byte} {conditions : Fin maxConditions → XfsmCondition}
    {conditionsNumber : Byte} {lookupKey : LookupKey}
    (hload : loadRows label old rows = some entries)
    (hHE : TakesStates HE (rows.map swState)) (run : List (FlowKey × Mem)) :
    FiresOnEvent (stageTable H HE entries initialState conditions conditionsNumber lookupKey)
        rows entries run ↔
      RowsFit rows ∧
        ∀ T₀, stageTable H HE entries initialState conditions conditionsNumber lookupKey =
          some T₀ → AtVisits (MeetsEvent rows) T₀ run := by
  have hvisits : ∀ T₀, RowsFit rows →
      stageTable H HE entries initialState conditions conditionsNumber lookupKey = some T₀ →
        (AtVisits (ExecutesRcvd rows entries) T₀ run ↔ AtVisits (MeetsEvent rows) T₀ run) := by
    intro T₀ hfit hT₀
    have hE : createEntries HE entries XfsmTableEntry.currentState = some T₀.entries := by
      unfold stageTable at hT₀
      split at hT₀
      · obtain ⟨E, hE, rfl⟩ := Option.map_eq_some_iff.mp hT₀
        exact hE
      · cases hT₀
    exact ⟨atVisits_imp (fun T M key R hT hR =>
        (executesRcvd_iff hload hHE hfit.perState hE hT hR).mp) rfl,
      atVisits_imp (fun T M key R hT hR =>
        (executesRcvd_iff hload hHE hfit.perState hE hT hR).mpr) rfl⟩
  constructor
  · rintro ⟨T₀, hT₀, hall⟩
    have hfit := (stageTable_isSome_iff hload).mp (Option.isSome_iff_exists.mpr ⟨T₀, hT₀⟩)
    refine ⟨hfit, fun T₁ hT₁ => ?_⟩
    rw [hT₀] at hT₁
    cases hT₁
    exact (hvisits T₀ hfit hT₀).mp hall
  · rintro ⟨hfit, hall⟩
    obtain ⟨T₀, hT₀⟩ := Option.isSome_iff_exists.mp
      ((@stageTable_isSome_iff H HE rows entries label old initialState conditions
        conditionsNumber lookupKey hload).mpr hfit)
    exact ⟨T₀, hT₀, (hvisits T₀ hfit hT₀).mpr (hall T₀ hT₀)⟩

/-! ### Two stages -/

/-- Without rows of `STATE_NULL` every row is grouped under its state. -/
theorem filed_of_no_null (hnull : ∀ row ∈ rows, swState row ≠ stateNull) (s : Sw.State) :
    filed rows s = rows.zipIdx.filter fun x => swState x.1 == s := by
  have hany : rows.zipIdx.any (isNull fun x : CompiledRow × ℕ => swState x.1) = false := by
    refine List.any_eq_false.mpr fun y hy hc => hnull y.1 ?_ (beq_iff_eq.mp hc)
    exact List.mem_of_getElem? (List.mem_zipIdx_iff_getElem?.mp hy)
  unfold filed nodeOf
  rw [hany, if_neg Bool.false_ne_true]
  rfl

theorem kept_of_no_null {n : ℕ} {s : Sw.State} {v : Results} (hn : 0 < n)
    (hnull : ∀ row ∈ rows, swState row ≠ stateNull) (i : ℕ) (hi : rcvdRow rows n s v = some i) :
    0 < n ∧ i ∈ (filed rows s).map Prod.snd := by
  rw [rcvdRow_eq] at hi
  obtain ⟨x, hx, rfl⟩ := Option.map_eq_some_iff.mp hi
  have hrcvd : rcvd n s v x.1 = true :=
    List.find?_some (p := fun x : CompiledRow × ℕ => rcvd n s v x.1) hx
  refine ⟨hn, List.mem_map_of_mem ?_⟩
  rw [filed_of_no_null hnull]
  exact List.mem_filter.mpr
    ⟨List.mem_of_find?_eq_some hx, beq_iff_eq.mpr (rcvd_iff.mp hrcvd).2.1⟩

/-- `0 == 0`. -/
def zeroIsZero : Xl.ConditionResult where
  id := ⟨⟨.constant ⟨.integerConstant, "0"⟩, .constant ⟨.integerConstant, "0"⟩, .xtraEqual⟩, 0⟩
  result := .xtraTrue

/-- `state(0) { on(xtraPktRcvd) { setNextState(1) } }` and
`state(1) { on(xtraPktRcvd) { if(0 == 0) { setNextState(0) } } }` -/
def receivedFirst : List (Xl.StateStatement Xl.ConditionResult) :=
  [⟨0, [], [⟨.xtraPktRcvd, [.stateTransition 1], []⟩]⟩,
    ⟨1, [], [⟨.xtraPktRcvd, [], [⟨[zeroIsZero], [.stateTransition 0]⟩]⟩]⟩]

/-- Its rows: for state 0, the compiler makes one up for each event. -/
def receivedFirstRows : List CompiledRow :=
  [⟨[], [], 0, .xtraPktRcvd, 1, .stage255⟩, ⟨[], [], 0, .xtraPktRcvd, 0, .stage255⟩,
    ⟨[], [], 0, .xtraTimeout, 0, .stage255⟩, ⟨[zeroIsZero], [], 1, .xtraPktRcvd, 0, .stage255⟩]

/-- `state(0) { on(xtraTimeout) { if(0 == 0) { setNextState(1) } }
on(xtraPktRcvd) { setNextState(0) } }` and the same state 1. -/
def timeoutFirst : List (Xl.StateStatement Xl.ConditionResult) :=
  [⟨0, [], [⟨.xtraTimeout, [], [⟨[zeroIsZero], [.stateTransition 1]⟩]⟩,
      ⟨.xtraPktRcvd, [.stateTransition 0], []⟩]⟩,
    ⟨1, [], [⟨.xtraPktRcvd, [], [⟨[zeroIsZero], [.stateTransition 0]⟩]⟩]⟩]

/-- Its rows. -/
def timeoutFirstRows : List CompiledRow :=
  [⟨[zeroIsZero], [], 0, .xtraTimeout, 1, .stage255⟩, ⟨[], [], 0, .xtraPktRcvd, 0, .stage255⟩,
    ⟨[zeroIsZero], [], 1, .xtraPktRcvd, 0, .stage255⟩]

/-- Rows loaded into memory that was all zero. -/
def loadedRows (rows : List CompiledRow) : Option (List XfsmTableEntry) :=
  loadRows (fun _ => 255) zeroMemory.actions rows

/-- The table of such rows, with the condition `0 == 0`. -/
def zeroIsZeroTable (entries : List XfsmTableEntry) :
    Option (XfsmTable (listSlotMap FlowKey) (listSlotMap Sw.State)) :=
  stageTable _ _ entries 0 (fun _ => alwaysTrue) 1 ⟨1, fun _ => .xfsmInPort, 0⟩

/-- **A stage whose packets come first** fires rows on their event in every
run. -/
theorem firesOnEvent_receivedFirst :
    Xl.compileStage "stage" Xl.insertionOrders receivedFirst = some receivedFirstRows ∧
      ∃ entries, loadedRows receivedFirstRows = some entries ∧
        ∀ run, FiresOnEvent (zeroIsZeroTable entries) receivedFirstRows entries run := by
  have hloads : (loadedRows receivedFirstRows).isSome = true := by decide +kernel
  obtain ⟨entries, hload⟩ := Option.isSome_iff_exists.mp hloads
  have hfull := listSlotMap_neverFull Sw.State
  have hnull : ∀ row ∈ receivedFirstRows, swState row ≠ stateNull := by decide
  have hfirst : ∀ n s v, 0 < n → OnItsEvent receivedFirstRows n s v := by
    refine fun n s v hn => ⟨fun _ x hx => ?_, kept_of_no_null hn hnull⟩
    have hholds : holds n v x.1 = true :=
      List.find?_some (p := fun x : CompiledRow × ℕ => holds n v x.1) hx
    have hmem := List.mem_of_find?_eq_some hx
    rw [filed_of_no_null hnull, List.mem_filter] at hmem
    obtain ⟨hmem, hstate⟩ := hmem
    have hstate := beq_iff_eq.mp hstate
    refine rcvd_iff.mpr ⟨?_, hstate, hholds⟩
    change x ∈ [_, _, _, _] at hmem
    simp only [List.mem_cons, List.not_mem_nil, or_false] at hmem
    rcases hmem with rfl | rfl | rfl | rfl
    · rfl
    · rfl
    · -- the row made up for timeouts: the first row of the state matches before it
      obtain rfl : s = 0 := hstate.symm
      have hbefore : holds n v ⟨[], [], 0, .xtraPktRcvd, 1, .stage255⟩ = true :=
        decide_eq_true fun i _ => Or.inl rfl
      change List.find? _ (((⟨[], [], 0, .xtraPktRcvd, 1, .stage255⟩ : CompiledRow), 0) :: _) =
        some _ at hx
      rw [List.find?_cons, hbefore] at hx
      have hnumber := congrArg Prod.snd (Option.some.inj hx)
      exact absurd hnumber (by decide)
    · rfl
  refine ⟨rfl, entries, hload, fun run => ?_⟩
  refine (firesOnEvent_iff hload (Or.inl hfull) run).mpr ⟨⟨by decide, fun s => ?_⟩, ?_⟩
  · rw [filed_of_no_null hnull]
    exact (List.length_filter_le ..).trans (by decide)
  · intro T₀ hT₀
    have hnb : T₀.program.nbConditions = 1 := by
      unfold stageTable at hT₀
      split at hT₀
      · obtain ⟨E, -, rfl⟩ := Option.map_eq_some_iff.mp hT₀
        rfl
      · cases hT₀
    refine atVisits_imp (fun T M key R hT hR _ => hfirst _ _ _ ?_) rfl atVisits_true
    have hone : R.table.nbConditions = 1 :=
      (congrArg Program.nbConditions ((program_prepare hR).trans hT)).trans hnb
    omega

/-- **A row for timeouts that comes first** is executed for a packet. -/
theorem not_firesOnEvent :
    ¬∀ (stageName : String) (orders : ℕ → Xl.Orders)
      (blocks : List (Xl.StateStatement Xl.ConditionResult)) (rows : List CompiledRow)
      (entries : List XfsmTableEntry) (run : List (FlowKey × Mem)),
      Xl.compileStage stageName orders blocks = some rows →
      (∃ row ∈ rows, row.event = .xtraPktRcvd) →
        (∃ row ∈ rows, row.event = .xtraTimeout) → loadedRows rows = some entries →
          FiresOnEvent (zeroIsZeroTable entries) rows entries run := by
  intro hall
  have hrows : ((loadedRows timeoutFirstRows).bind fun entries =>
      (zeroIsZeroTable entries).bind fun T =>
        (T.prepare (fromPort 1).2 (fromPort 1).1).map fun R =>
          (rowNumber (listSlotMap Sw.State) entries R.table.nbConditions R.matchInst.currentState
              R.matchInst.results,
            rcvdRow timeoutFirstRows R.table.nbConditions R.matchInst.currentState
              R.matchInst.results)) = some (some (some 0), some 1) := by decide +kernel
  obtain ⟨entries, hload, hrows⟩ := Option.bind_eq_some_iff.mp hrows
  obtain ⟨T, hT, hrows⟩ := Option.bind_eq_some_iff.mp hrows
  obtain ⟨R, hR, hnumbers⟩ := Option.map_eq_some_iff.mp hrows
  obtain ⟨hnumber, hrcvd⟩ := Prod.mk.inj hnumbers
  obtain ⟨T₀, hT₀, hvisits, -⟩ := hall "stage" Xl.insertionOrders timeoutFirst timeoutFirstRows
    entries [fromPort 1] rfl ⟨_, List.mem_cons_of_mem _ List.mem_cons_self, rfl⟩
    ⟨_, List.mem_cons_self, rfl⟩ hload
  obtain rfl : T = T₀ := Option.some.inj (hT.symm.trans hT₀)
  have hexecuted := (hvisits R hR).number
  rw [hnumber, hrcvd] at hexecuted
  exact absurd hexecuted (by decide)

end Runs

end FlowBlaze
