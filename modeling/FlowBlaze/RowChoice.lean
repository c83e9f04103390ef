import FlowBlaze.Hw.TcamSpec
import FlowBlaze.Sw.PoolBounds
import Mathlib.Data.List.Sigma
/-!
# The row of a packet, in software and on the board

One stage, compiled once, runs on either dataplane. This file puts the
two side by side: the row `xfsm_table_lookup` returns and the row whose
entry the CAM presents, for the same rows in the same order, the same
state and the same condition results.

They differ where the software has no notion of a row for any state,
where a stage has no conditions, and where creating the table loses rows,
writes past the end of an array, or has more states, with that of the head,
than the hash takes.
-/

namespace FlowBlaze

open Common Sw Hw Loader

/-- A condition result a row may ask for. -/
inductive RowResult
  | isFalse
  | isTrue
  | dontCare
deriving DecidableEq

namespace RowResult

/-- The result in the software's words. -/
def toSw : RowResult → XfsmResult
  | isFalse => .xfsmFalse
  | isTrue => .xfsmTrue
  | dontCare => .xfsmDontCare

/-- The result in the loader's words. -/
def toFb : RowResult → FbResult
  | isFalse => .fbFalse
  | isTrue => .fbTrue
  | dontCare => .fbDontCare

/-- Whether the condition may come out this way. -/
def holds : RowResult → Bool → Bool
  | isFalse, b => !b
  | isTrue, b => b
  | dontCare, _ => true

theorem allows_toFb (r : RowResult) (b : Bool) : r.toFb.allows b ↔ r.holds b = true := by
  cases r <;> cases b <;> simp [toFb, holds, FbResult.allows]

theorem toFb_ne_fbExact (r : RowResult) : r.toFb ≠ .fbExact := by
  cases r <;> decide

/-- The software's comparison of a row's result with the instance's. -/
theorem toSw_matches (r : RowResult) (b : Bool) :
    (r.toSw = .xfsmDontCare ∨ r.toSw = if b then .xfsmTrue else .xfsmFalse) ↔
      r.holds b = true := by
  cases r <;> cases b <;> decide

end RowResult

/-- A row of a stage with so many conditions: its state label, and what it
asks of each condition. -/
structure Row (n : ℕ) where
  state : BitVec 8
  results : Fin n → RowResult

/-- The label of rows for any state. -/
def anyState : BitVec 8 := 255

namespace Row

variable {n : ℕ} (r : Row n)

/-- The row's `current_state`. -/
def swState : State := r.state.setWidth 32

/-- The row's `results`; what lies past the last condition is not read. -/
def swResults : Results := fun i => if h : i.val < n then (r.results ⟨i, h⟩).toSw else .unset

/-- The row as `write_tcam2` reads it. -/
def entry : Entry := ⟨r.state.toNat, List.ofFn fun i => (r.results i).toFb⟩

/-- The conditions came out as the row asks. -/
def holds (v : Fin n → Bool) : Bool := decide (∀ i, (r.results i).holds (v i) = true)

/-- The row is for this state or for any, and its conditions hold. -/
def covers (v : Fin n → Bool) (s : BitVec 8) : Bool :=
  (r.state == s || r.state == anyState) && r.holds v

end Row

section Choice

variable {n : ℕ}

/-- The results `xfsm_evaluate_conditions` leaves in the instance. -/
def instanceResults (v : Fin n → Bool) : Results := fun i =>
  if h : i.val < n then (if v ⟨i, h⟩ then .xfsmTrue else .xfsmFalse) else .unset

/-- **The number of the row the software picks**, `some none` for none. -/
def swRow (H : SlotMap State) (rows : List (Row n)) (v : Fin n → Bool) (s : BitVec 8) :
    Option (Option ℕ) :=
  (createEntries H rows.zipIdx fun r => r.1.swState).bind fun E =>
    (xfsmTableLookup E (fun r => r.1.swResults) n (s.setWidth 32) (instanceResults v)).map
      (Option.map Prod.snd)

/-- **The number of the row the board picks.** The conditions' results
come as bits, and the operands of exact matches as words. -/
def hwRow (hfs : List HeaderField) (rows : List (Row n)) (o3 o2 o1 : BitVec 32)
    (conditions : BitVec 16) (s : BitVec 8) : Option (Option ℕ) :=
  (writeTcam2 hfs (List.replicate n .register) 0 (rows.map Row.entry)).map fun ws =>
    ((CamReg.initial.program ws).lookup (fullInput2 o3 o2 o1 conditions s)).map Fin.val

/-- The tables in question. -/
structure StageTable (rows : List (Row n)) : Prop where
  conditions : n ≤ 4
  size : rows.length ≤ 32
  perState : ∀ s, (rows.filter fun r => r.state == s).length ≤ maxEntriesForeachState
  states : (rows.map Row.state).dedup.length ≤ 10

/-- The states of the software's nodes, where no row is for any state: the
head's and those of the rows, in the order in which they first come. -/
def keysOf (rows : List (Row n)) : List State := firstSeen (headState :: rows.map Row.swState)

/-- **The hash takes the state.** It is created for ten states, and the head's
is the first. Where the rows have ten others, the last of them to come is an
eleventh key, which the hash may refuse. -/
def KeyTaken (H : SlotMap State) (rows : List (Row n)) (s : BitVec 8) : Prop :=
  anyState ∉ rows.map Row.state → maxEntriesForeachState < (keysOf rows).length →
    (keysOf rows).getLast? = some (s.setWidth 32) → TakesAll H (keysOf rows)

/-- **When both pick the same row.** The rows of state 0 that come before
the first row for any state share a node with those, and must fit it.
Then either no row covers the packet, or the first that does is of the
packet's own state, which the hash has taken, there is a condition to
compare, and, in state 0, it is not one of the rows that node took away. -/
structure Agree (H : SlotMap State) (rows : List (Row n)) (v : Fin n → Bool) (s : BitVec 8) :
    Prop where
  room : anyState ∈ rows.map Row.state →
    ((rows.takeWhile fun r => r.state != anyState).filter fun r => r.state == 0).length +
      (rows.filter fun r => r.state == anyState).length ≤ maxEntriesForeachState
  choice : ∀ r, rows.find? (·.covers v s) = some r →
    0 < n ∧ r.state = s ∧ KeyTaken H rows s ∧
      (s = 0 → anyState ∈ rows.map Row.state →
        (rows.takeWhile fun r => r.state != anyState).find? (·.covers v s) = none)

/-! ## The software's side -/

variable {r : Row n} {rows : List (Row n)} {v : Fin n → Bool} {s : BitVec 8}

/-- **Comparing a row** with an instance whose conditions came out so. -/
theorem agrees_swResults (hn : n ≤ maxConditions) :
    agrees n r.swResults (instanceResults v) = r.holds v := by
  unfold agrees Row.holds
  rw [Bool.eq_iff_iff, decide_eq_true_iff, decide_eq_true_iff]
  constructor
  · intro h i
    have := h ⟨i, lt_of_lt_of_le i.isLt hn⟩ i.isLt
    simp only [Row.swResults, instanceResults, i.isLt, dif_pos] at this
    exact ((r.results i).toSw_matches (v i)).mp this
  · intro h i hi
    simp only [Row.swResults, instanceResults, dif_pos hi]
    exact ((r.results ⟨i, hi⟩).toSw_matches (v ⟨i, hi⟩)).mpr (h ⟨i, hi⟩)

/-- Scanning a bucket finds the first row whose conditions hold. -/
theorem scanBucket_eq (hn : n ≤ maxConditions) (T : List (Row n × ℕ)) :
    scanBucket (fun r : Row n × ℕ => r.1.swResults) (instanceResults v) n T =
      some (T.find? fun r => decide (0 < n) && r.1.holds v) := by
  rw [scanBucket_eq_find? hn]
  simp only [agrees_swResults hn]

/-- The state labels of the two sides. -/
theorem setWidth_eq_iff (a b : BitVec 8) :
    (a.setWidth 32 : State) = b.setWidth 32 ↔ a = b := by
  constructor
  · intro h
    have := congrArg BitVec.toNat h
    simp only [BitVec.toNat_setWidth] at this
    exact BitVec.eq_of_toNat_eq (by omega)
  · exact congrArg _

/-- The reserved label. -/
theorem setWidth_anyState : (anyState.setWidth 32 : State) = stateNull := rfl

/-- The label of the head node. -/
theorem setWidth_zero : ((0 : BitVec 8).setWidth 32 : State) = headState := rfl

/-- A row is of the reserved state. -/
theorem isNull_swState (r : Row n) : isNull Row.swState r = (r.state == anyState) := by
  unfold isNull Row.swState
  rw [Bool.eq_iff_iff, beq_iff_eq, beq_iff_eq, ← setWidth_anyState, setWidth_eq_iff]

/-- A row is of a state. -/
theorem swState_beq (r : Row n) (s : BitVec 8) :
    (r.swState == s.setWidth 32) = (r.state == s) := by
  unfold Row.swState
  rw [Bool.eq_iff_iff, beq_iff_eq, beq_iff_eq, setWidth_eq_iff]

/-- The rows of a state, by label. -/
theorem rowsOf_swState (rows : List (Row n)) (s : BitVec 8) :
    rowsOf Row.swState rows (s.setWidth 32) = rows.filter fun r => r.state == s := by
  unfold rowsOf
  simp only [swState_beq]

/-- Some row is for any state. -/
theorem any_isNull_swState :
    rows.any (isNull Row.swState) = true ↔ anyState ∈ rows.map Row.state := by
  rw [List.any_eq_true, List.mem_map]
  simp only [isNull_swState, beq_iff_eq]

/-- No state has too many rows. -/
theorem length_rowsOf_le (ht : StageTable rows) (t : State) :
    (rowsOf Row.swState rows t).length ≤ maxEntriesForeachState := by
  by_cases h : ∃ r ∈ rows, r.swState = t
  · obtain ⟨r, -, rfl⟩ := h
    exact (rowsOf_swState rows r.state) ▸ ht.perState r.state
  · have hnil : rowsOf Row.swState rows t = [] :=
      List.filter_eq_nil_iff.mpr fun r hr heq => h ⟨r, hr, beq_iff_eq.mp heq⟩
    rw [hnil]
    exact Nat.zero_le _

/-- The rows before the first for any state. -/
theorem takeWhile_isNull (rows : List (Row n)) :
    (rows.takeWhile fun r => !isNull Row.swState r) =
      rows.takeWhile fun r => r.state != anyState := by
  simp only [isNull_swState]
  rfl

/-- **The nodes have room** when the shared one has. -/
theorem nodeOf_room_iff (ht : StageTable rows) :
    (∀ t, (nodeOf Row.swState rows t).length ≤ maxEntriesForeachState) ↔
      (anyState ∈ rows.map Row.state →
        ((rows.takeWhile fun r => r.state != anyState).filter fun r => r.state == 0).length +
          (rows.filter fun r => r.state == anyState).length ≤ maxEntriesForeachState) := by
  -- only the node that state 0 and any state share can have more rows than a state
  have hshared : rows.any (isNull Row.swState) = true →
      (nodeOf Row.swState rows stateNull).length =
        ((rows.takeWhile fun r => r.state != anyState).filter fun r => r.state == 0).length +
          (rows.filter fun r => r.state == anyState).length := by
    intro hany
    unfold nodeOf
    rw [if_pos hany, if_pos rfl, List.length_append, takeWhile_isNull, ← setWidth_zero,
      rowsOf_swState, ← setWidth_anyState, rowsOf_swState]
  constructor
  · intro h hany
    rw [← hshared (any_isNull_swState.mpr hany)]
    exact h stateNull
  · intro h t
    by_cases hany : rows.any (isNull Row.swState) = true
    · by_cases hnull : t = stateNull
      · rw [hnull, hshared hany]
        exact h (any_isNull_swState.mp hany)
      · refine le_trans ?_ (length_rowsOf_le ht t)
        unfold nodeOf
        rw [if_pos hany, if_neg hnull]
        split
        · next h0 =>
          rw [h0]
          exact ((List.dropWhile_sublist _).filter _).length_le
        · exact le_rfl
    · unfold nodeOf
      rw [if_neg hany]
      exact length_rowsOf_le ht t

/-! ## Numbered rows -/

/-- The number found with the first numbered row is the place of the row. -/
theorem map_snd_find?_zipIdx {α : Type} (p : α → Bool) (xs : List α) :
    ((xs.zipIdx.find? fun x => p x.1).map Prod.snd) = xs.findIdx? p := by
  have hfrom : ∀ i, ((xs.zipIdx i).find? fun x => p x.1).map Prod.snd =
      (xs.findIdx? p).map (· + i) := by
    induction xs with
    | nil => exact fun i => rfl
    | cons x xs ih =>
      intro i
      rw [List.zipIdx_cons, List.find?_cons, List.findIdx?_cons]
      cases p x with
      | true => simp
      | false =>
        rw [ih (i + 1), if_neg Bool.false_ne_true, Option.map_map]
        refine congrArg (fun f => (xs.findIdx? p).map f) (funext fun k => ?_)
        simp only [Function.comp_apply]
        omega
  simpa using hfrom 0

/-- A numbered row is numbered by its place, so equal numbers mean equal
numbered rows. -/
theorem eq_of_mem_zipIdx {α : Type} {xs : List α} {x y : α × ℕ} (hx : x ∈ xs.zipIdx)
    (hy : y ∈ xs.zipIdx) (h : x.2 = y.2) : x = y := by
  obtain ⟨-, -, hx⟩ := List.mem_zipIdx hx
  obtain ⟨-, -, hy⟩ := List.mem_zipIdx hy
  refine Prod.ext ?_ h
  simp only [hx, hy, h]

/-- Narrowing a search keeps its result when the result passes. -/
theorem find?_of_imp {α : Type} {p q : α → Bool} {xs : List α} {x : α}
    (hp : xs.find? p = some x) (hq : q x = true) (himp : ∀ y, q y = true → p y = true) :
    xs.find? q = some x := by
  obtain ⟨hpx, before, after, rfl, hbefore⟩ := List.find?_eq_some_iff_append.mp hp
  refine List.find?_eq_some_iff_append.mpr ⟨hq, before, after, rfl, fun y hy => ?_⟩
  have hnot := hbefore y hy
  cases hqy : q y with
  | false => rfl
  | true =>
    rw [himp y hqy] at hnot
    cases hnot

/-! ## Both sides on numbered rows -/

/-- The numbered rows of the software's node for a state. -/
def nodeRows (rows : List (Row n)) (s : BitVec 8) : List (Row n × ℕ) :=
  nodeOf (fun r : Row n × ℕ => r.1.swState) rows.zipIdx (s.setWidth 32)

/-- The numbered rows fill the nodes as the rows do. -/
theorem length_nodeOf_zipIdx (rows : List (Row n)) (t : State) :
    (nodeOf (fun r : Row n × ℕ => r.1.swState) rows.zipIdx t).length =
      (nodeOf Row.swState rows t).length := by
  have hfst : (nodeOf (Row.swState ∘ Prod.fst) rows.zipIdx t).map Prod.fst =
      nodeOf Row.swState (rows.zipIdx.map Prod.fst) t := map_nodeOf Prod.fst rows.zipIdx t
  rw [List.zipIdx_map_fst] at hfst
  rw [← hfst, List.length_map]
  rfl

/-- A table that was created had room. -/
theorem room_of_swRow {H : SlotMap State} {found : Option ℕ} (h : swRow H rows v s = some found)
    (t : State) : (nodeOf Row.swState rows t).length ≤ maxEntriesForeachState := by
  obtain ⟨E, hE, -⟩ := Option.bind_eq_some_iff.mp h
  rw [← length_nodeOf_zipIdx]
  exact createEntries_isSome_iff.mp (Option.isSome_iff_exists.mpr ⟨E, hE⟩) t

/-- The states of the nodes. -/
theorem map_swState_zipIdx (rows : List (Row n)) :
    rows.zipIdx.map (fun r : Row n × ℕ => r.1.swState) = rows.map Row.swState := by
  conv_rhs => rw [← List.zipIdx_map_fst 0 rows, List.map_map]
  rfl

/-- A label is a state of the software. -/
theorem stateNull_mem_iff : stateNull ∈ rows.map Row.swState ↔ anyState ∈ rows.map Row.state := by
  rw [List.mem_map, List.mem_map]
  refine exists_congr fun r => and_congr_right fun _ => ?_
  rw [← setWidth_anyState]
  exact setWidth_eq_iff _ _

/-- The rows have as many states in the software as they have labels. -/
theorem length_dedup_swState (rows : List (Row n)) :
    (rows.map Row.swState).dedup.length = (rows.map Row.state).dedup.length := by
  have hinj : Function.Injective fun b : BitVec 8 => (b.setWidth 32 : State) :=
    fun a b h => (setWidth_eq_iff a b).mp h
  have hmap : rows.map Row.swState =
      (rows.map Row.state).map fun b : BitVec 8 => (b.setWidth 32 : State) := by
    rw [List.map_map]
    rfl
  rw [hmap, List.dedup_map_of_injective hinj, List.length_map]

/-- **More than ten nodes** are eleven: ten states of rows, none of them the
head's, and the head. -/
theorem eleventh_node {nodes : List KeyNode} (ht : StageTable rows)
    (hnodes : groupRows (rows.map Row.swState) = some nodes)
    (hlong : ¬ nodes.length ≤ maxEntriesForeachState) :
    stateNull ∉ rows.map Row.swState ∧ nodes.map KeyNode.key = keysOf rows ∧
      ∃ front last, nodes = front ++ [last] ∧ front.length ≤ maxEntriesForeachState := by
  have hten := ht.states
  rw [← length_dedup_swState] at hten
  have hnull : stateNull ∉ rows.map Row.swState := fun hnull =>
    hlong ((length_le_of_null hnull hnodes).trans hten)
  have heleven : nodes.length ≤ maxEntriesForeachState + 1 := by
    refine (groups_length_le hnodes).trans ?_
    by_cases hhead : headState ∈ rows.map Row.swState
    · rw [List.dedup_cons_of_mem hhead]
      exact hten.trans (Nat.le_succ _)
    · rw [List.dedup_cons_of_notMem hhead]
      exact Nat.succ_le_succ hten
  obtain ⟨front, last, rfl⟩ : ∃ front last, nodes = front ++ [last] := by
    rcases List.eq_nil_or_concat' nodes with rfl | h
    · exact absurd (Nat.zero_le _) hlong
    · exact h
  rw [List.length_append, List.length_singleton] at heleven
  exact ⟨hnull, keys_of_groupRows hnull hnodes, front, last, rfl, Nat.le_of_succ_le_succ heleven⟩

/-- Taking the keys is taking the nodes. -/
theorem takesAll_iff {H : SlotMap State} {nodes : List KeyNode}
    (hkeys : nodes.map KeyNode.key = keysOf rows) :
    TakesAll H (keysOf rows) ↔ TakesNodes (emptyEntries H (Row n × ℕ)) nodes := by
  unfold TakesAll TakesNodes
  rw [← hkeys, List.length_map]
  rfl

/-- **What the software finds under a state**: its node, if the hash has
taken the state, and nothing otherwise. -/
theorem bucket_numbered {H : SlotMap State} (hH : H.AcceptsBelow) (ht : StageTable rows)
    {E : Entries H (Row n × ℕ)}
    (hE : createEntries H rows.zipIdx (fun r => r.1.swState) = some E) :
    (KeyTaken H rows s → (bucket E (s.setWidth 32)).getD [] = nodeRows rows s) ∧
      (¬ KeyTaken H rows s → (bucket E (s.setWidth 32)).getD [] = []) := by
  obtain ⟨nodes, hnodes, rfl⟩ := Option.map_eq_some_iff.mp hE
  have hnodup : (nodes.map KeyNode.key).Nodup := (groups_of_groupList hnodes).holds.nodup
  have hstates := hnodes
  rw [map_swState_zipIdx] at hstates
  by_cases hlen : nodes.length ≤ maxEntriesForeachState
  · -- below its capacity the hash takes every key
    refine ⟨fun _ => bucket_of_takes hnodes (takes_of_length hH hnodup hlen) _,
      fun hnot => absurd ?_ hnot⟩
    intro hany hlong
    have hkeys := congrArg List.length
      (keys_of_groupRows (mt stateNull_mem_iff.mp hany) hstates)
    rw [List.length_map] at hkeys
    exact absurd hlong (Nat.not_lt.mpr (hkeys ▸ hlen))
  obtain ⟨hnull, hkeys, front, last, rfl, hten⟩ := eleventh_node ht hstates hlen
  have hlast : (keysOf rows).getLast? = some last.key := by
    rw [← hkeys, List.map_append, List.map_singleton, List.getLast?_concat]
  have hfront : TakesNodes (emptyEntries H (Row n × ℕ)) front := by
    refine takes_of_length hH ?_ hten
    rw [List.map_append] at hnodup
    exact (List.nodup_append.mp hnodup).1
  by_cases htakes : TakesAll H (keysOf rows)
  · exact ⟨fun _ => bucket_of_takes hnodes ((takesAll_iff hkeys).mp htakes) _,
      fun hnot => absurd (fun _ _ _ => htakes) hnot⟩
  · -- the eleventh key is refused, and only its rows are lost
    have hbucket := bucket_of_refused hnodes hfront (mt (takesAll_iff hkeys).mpr htakes)
      (s.setWidth 32)
    refine ⟨fun htaken => ?_, fun hnot => ?_⟩
    · refine hbucket.trans (if_neg fun hs => htakes ?_)
      refine htaken (mt stateNull_mem_iff.mpr hnull) ?_ (by rw [hlast, hs])
      rw [← hkeys, List.length_map]
      exact Nat.lt_of_not_le hlen
    · refine hbucket.trans (if_pos ?_)
      by_contra hs
      refine hnot fun _ _ hgiven => absurd ?_ hs
      rw [hlast] at hgiven
      exact (Option.some.inj hgiven).symm

/-- What the software picks, from what it finds under the state. -/
theorem swRow_of_bucket {H : SlotMap State} (ht : StageTable rows)
    (hroom : ∀ t, (nodeOf Row.swState rows t).length ≤ maxEntriesForeachState)
    {T : List (Row n × ℕ)}
    (hT : ∀ E, createEntries H rows.zipIdx (fun r => r.1.swState) = some E →
      (bucket E (s.setWidth 32)).getD [] = T) :
    swRow H rows v s =
      some ((T.find? fun r => decide (0 < n) && r.1.holds v).map Prod.snd) := by
  have hsome : (createEntries H rows.zipIdx fun r => r.1.swState).isSome = true :=
    createEntries_isSome_iff.mpr fun t => (length_nodeOf_zipIdx rows t).trans_le (hroom t)
  obtain ⟨E, hE⟩ := Option.isSome_iff_exists.mp hsome
  have hbucket := hT E hE
  have hn : n ≤ maxConditions := ht.conditions.trans (by decide)
  unfold swRow
  rw [hE, Option.bind_some]
  unfold xfsmTableLookup
  cases hb : bucket E (s.setWidth 32) with
  | none =>
    rw [hb, Option.getD_none] at hbucket
    rw [← hbucket]
    rfl
  | some rows' =>
    rw [hb, Option.getD_some] at hbucket
    simp only [scanBucket_eq hn, hbucket]
    rfl

/-- **What the software picks**, once the table is created. -/
theorem swRow_eq {H : SlotMap State} (hH : H.AcceptsBelow) (ht : StageTable rows)
    (hroom : ∀ t, (nodeOf Row.swState rows t).length ≤ maxEntriesForeachState)
    (htaken : KeyTaken H rows s) :
    swRow H rows v s =
      some (((nodeRows rows s).find? fun r => decide (0 < n) && r.1.holds v).map Prod.snd) :=
  swRow_of_bucket ht hroom fun _ hE => (bucket_numbered hH ht hE).1 htaken

/-- **A refused state has no rows.** -/
theorem swRow_of_refused {H : SlotMap State} (hH : H.AcceptsBelow) (ht : StageTable rows)
    (hroom : ∀ t, (nodeOf Row.swState rows t).length ≤ maxEntriesForeachState)
    (hrefused : ¬ KeyTaken H rows s) : swRow H rows v s = some none :=
  swRow_of_bucket ht hroom fun _ hE => (bucket_numbered hH ht hE).2 hrefused

/-- **What the board picks.** -/
theorem hwRow_eq (hfs : List HeaderField) (ht : StageTable rows) (o3 o2 o1 : BitVec 32)
    {conditions : BitVec 16} (hv : ∀ i : Fin n, conditions.getLsbD i = v i) :
    hwRow hfs rows o3 o2 o1 conditions s =
      some ((rows.zipIdx.find? fun r => r.1.covers v s).map Prod.snd) := by
  have hentries : ∀ e ∈ rows.map Row.entry, RegisterRow n e := by
    intro e he
    obtain ⟨r, -, rfl⟩ := List.mem_map.mp he
    refine ⟨List.length_ofFn, fun hmem => ?_, r.state.isLt⟩
    obtain ⟨i, hi⟩ := List.mem_ofFn.mp hmem
    exact (r.results i).toFb_ne_fbExact hi
  -- the byte of any state is masked, and a condition that does not matter too
  have hcovers : ∀ r : Row n, r.covers v s = true ↔ Covers r.entry conditions s := by
    intro r
    unfold Row.covers Row.holds Covers Row.entry
    rw [Bool.and_eq_true, Bool.or_eq_true, beq_iff_eq, beq_iff_eq, decide_eq_true_iff]
    refine and_congr ?_ ?_
    · rw [or_comm]
      refine or_congr ?_ ?_
      · exact ⟨fun h => congrArg BitVec.toNat h, fun h => BitVec.eq_of_toNat_eq h⟩
      · exact ⟨fun h => congrArg BitVec.toNat h, fun h => BitVec.eq_of_toNat_eq h⟩
    · constructor
      · intro h i q hi
        obtain ⟨hlt, rfl⟩ := List.getElem?_eq_some_iff.mp hi
        rw [List.length_ofFn] at hlt
        rw [List.getElem_ofFn, RowResult.allows_toFb]
        exact (hv ⟨i, hlt⟩) ▸ h ⟨i, hlt⟩
      · intro h i
        rw [← RowResult.allows_toFb, ← hv i]
        refine h i _ ?_
        rw [List.getElem?_eq_some_iff]
        exact ⟨by simp, by simp⟩
  classical
  obtain ⟨ws, hws, hlookup⟩ := lookup_writeTcam2 hfs (ht.conditions.trans (by decide)) hentries
    (by rw [List.length_map]; exact ht.size)
  unfold hwRow
  rw [hws, Option.map_some, hlookup o3 o2 o1 conditions s
    (fun e => decide (Covers e conditions s)) fun e => decide_eq_true_iff, List.findIdx?_map,
    map_snd_find?_zipIdx fun r : Row n => r.covers v s]
  refine congrArg (fun p => some (rows.findIdx? p)) (funext fun r => ?_)
  rw [Function.comp_apply, Bool.eq_iff_iff, decide_eq_true_iff]
  exact (hcovers r).symm

/-- Rows of one state that cover a packet of that state. -/
theorem covers_of_state (hstate : r.state = s) (h : r.holds v = true) : r.covers v s = true := by
  unfold Row.covers
  rw [h, hstate, beq_self_eq_true]
  rfl

/-- The software's node is made of rows of the state. -/
theorem state_of_mem_nodeRows (hs : s ≠ anyState) {x : Row n × ℕ} (hx : x ∈ nodeRows rows s) :
    x ∈ rows.zipIdx ∧ x.1.state = s := by
  have hne : (s.setWidth 32 : State) ≠ stateNull := by
    rw [← setWidth_anyState, Ne, setWidth_eq_iff]
    exact hs
  have hrowsOf : ∀ {T : List (Row n × ℕ)},
      x ∈ rowsOf (fun r : Row n × ℕ => r.1.swState) T (s.setWidth 32) → x.1.state = s := by
    intro T h
    exact (setWidth_eq_iff _ _).mp (beq_iff_eq.mp (List.mem_filter.mp h).2)
  refine ⟨mem_of_mem_nodeOf hx, ?_⟩
  unfold nodeRows nodeOf at hx
  rw [if_neg hne] at hx
  split at hx
  · split at hx
    · next h0 =>
      rw [← h0] at hx
      exact hrowsOf hx
    · exact hrowsOf hx
  · exact hrowsOf hx

/-- The numbered rows before the first for any state. -/
theorem map_fst_takeWhile_zipIdx (rows : List (Row n)) :
    (rows.zipIdx.takeWhile fun x => x.1.state != anyState).map Prod.fst =
      rows.takeWhile fun r => r.state != anyState := by
  conv_rhs => rw [← List.zipIdx_map_fst 0 rows, List.takeWhile_map]
  rfl

/-- A search among numbered rows is a search among the rows. -/
theorem find?_fst {p : Row n → Bool} {T : List (Row n × ℕ)} :
    (T.map Prod.fst).find? p = (T.find? fun x => p x.1).map Prod.fst :=
  List.find?_map ..

/-- The node of state 0 when it lost its first rows. -/
theorem nodeRows_zero (h : anyState ∈ rows.map Row.state) :
    nodeRows rows 0 = (rows.zipIdx.dropWhile fun x => x.1.state != anyState).filter
      fun x => x.1.state == 0 := by
  have hany : rows.zipIdx.any (isNull fun r : Row n × ℕ => r.1.swState) = true := by
    rw [← any_isNull_swState, ← List.zipIdx_map_fst 0 rows, List.any_map] at h
    exact h
  have hnull : ∀ x : Row n × ℕ, (!isNull (fun r : Row n × ℕ => r.1.swState) x) =
      (x.1.state != anyState) := fun x => congrArg _ (isNull_swState x.1)
  unfold nodeRows nodeOf
  rw [if_pos hany, setWidth_zero, if_neg (by decide), if_pos rfl, ← setWidth_zero]
  unfold rowsOf
  simp only [hnull, swState_beq]

/-- Every other node holds all rows of its state. -/
theorem nodeRows_of_ne (hs : s ≠ anyState) (h : s = 0 → anyState ∉ rows.map Row.state) :
    nodeRows rows s = rows.zipIdx.filter fun x => x.1.state == s := by
  have hne : (s.setWidth 32 : State) ≠ stateNull := by
    rw [← setWidth_anyState, Ne, setWidth_eq_iff]
    exact hs
  have hall : rowsOf (fun r : Row n × ℕ => r.1.swState) rows.zipIdx (s.setWidth 32) =
      rows.zipIdx.filter fun x => x.1.state == s := by
    unfold rowsOf
    simp only [swState_beq]
  unfold nodeRows nodeOf
  rw [if_neg hne]
  split
  · next hany =>
    rw [if_neg, hall]
    rw [← setWidth_zero, setWidth_eq_iff]
    intro h0
    refine h h0 (any_isNull_swState.mp ?_)
    rw [← List.zipIdx_map_fst 0 rows, List.any_map]
    exact hany
  · exact hall

/-- **The software finds the covering row** when it is of the packet's
state and was not taken away. -/
theorem find?_nodeRows (hn : 0 < n) (hs : s ≠ anyState) {x : Row n × ℕ}
    (hx : rows.zipIdx.find? (fun r => r.1.covers v s) = some x) (hstate : x.1.state = s)
    (hkept : s = 0 → anyState ∈ rows.map Row.state →
      (rows.takeWhile fun r => r.state != anyState).find? (·.covers v s) = none) :
    ((nodeRows rows s).find? fun r => decide (0 < n) && r.1.holds v) = some x := by
  have hcovers : x.1.covers v s = true :=
    List.find?_some (p := fun r : Row n × ℕ => r.1.covers v s) hx
  have hnarrow : ∀ {T : List (Row n × ℕ)}, T.find? (fun r => r.1.covers v s) = some x →
      ((T.filter fun r => r.1.state == s).find? fun r => decide (0 < n) && r.1.holds v) =
        some x := by
    intro T hT
    rw [List.find?_filter]
    refine find?_of_imp hT ?_ fun y hy => ?_
    · rw [decide_eq_true_iff, hstate, beq_self_eq_true, decide_eq_true hn, Bool.true_and]
      exact ⟨rfl, (Bool.and_eq_true_iff.mp hcovers).2⟩
    · obtain ⟨hys, hyv⟩ := of_decide_eq_true hy
      exact covers_of_state (beq_iff_eq.mp hys) (Bool.and_eq_true_iff.mp hyv).2
  by_cases hlost : s = 0 ∧ anyState ∈ rows.map Row.state
  · obtain ⟨rfl, hany⟩ := hlost
    rw [nodeRows_zero hany]
    refine hnarrow ?_
    have hnone := hkept rfl hany
    rw [← map_fst_takeWhile_zipIdx, find?_fst, Option.map_eq_none_iff] at hnone
    rw [← List.takeWhile_append_dropWhile (p := fun x : Row n × ℕ => x.1.state != anyState)
      (l := rows.zipIdx), List.find?_append, hnone, Option.none_or] at hx
    exact hx
  · rw [nodeRows_of_ne hs fun h0 hany => hlost ⟨h0, hany⟩]
    exact hnarrow hx

/-- **Where the software finds a row**, it is of the packet's state, and
was not taken away. -/
theorem kept_of_find?_nodeRows (hs : s ≠ anyState) {x : Row n × ℕ}
    (hx : rows.zipIdx.find? (fun r => r.1.covers v s) = some x)
    (hnode : ((nodeRows rows s).find? fun r => decide (0 < n) && r.1.holds v) = some x) :
    0 < n ∧ x.1.state = s ∧ (s = 0 → anyState ∈ rows.map Row.state →
      (rows.takeWhile fun r => r.state != anyState).find? (·.covers v s) = none) := by
  have hmem := List.mem_of_find?_eq_some hnode
  refine ⟨?_, (state_of_mem_nodeRows hs hmem).2, ?_⟩
  · have := List.find?_some hnode
    simp at this
    exact this.1
  · rintro rfl hany
    rw [nodeRows_zero hany] at hmem
    have hdrop := List.mem_of_mem_filter hmem
    rw [← map_fst_takeWhile_zipIdx, find?_fst, Option.map_eq_none_iff]
    rw [← List.takeWhile_append_dropWhile (p := fun x : Row n × ℕ => x.1.state != anyState)
      (l := rows.zipIdx), List.find?_append] at hx
    cases hfirst : (rows.zipIdx.takeWhile fun x => x.1.state != anyState).find?
        fun r => r.1.covers v 0 with
    | none => rfl
    | some y =>
      rw [hfirst, Option.some_or] at hx
      cases hx
      -- the found row would lie on both sides of the cut
      have hboth := List.mem_of_find?_eq_some hfirst
      have hnodup : rows.zipIdx.Nodup := List.Nodup.of_map _ (List.nodup_zipIdx_map_snd rows)
      rw [← List.takeWhile_append_dropWhile (p := fun x : Row n × ℕ => x.1.state != anyState)
        (l := rows.zipIdx), List.nodup_append] at hnodup
      exact absurd rfl (hnodup.2.2 x hboth x hdrop)

/-! ## The same row -/

/-- **The software and the board pick the same row**, or neither picks
one. -/
def SameRow (H : SlotMap State) (hfs : List HeaderField) (rows : List (Row n))
    (v : Fin n → Bool) (o3 o2 o1 : BitVec 32) (conditions : BitVec 16) (s : BitVec 8) : Prop :=
  ∃ found, swRow H rows v s = some found ∧ hwRow hfs rows o3 o2 o1 conditions s = some found

/-- **When the two agree.** -/
theorem sameRow_iff (H : SlotMap State) (hH : H.AcceptsBelow) (hfs : List HeaderField)
    (ht : StageTable rows) (hs : s ≠ anyState) (o3 o2 o1 : BitVec 32) {conditions : BitVec 16}
    (hv : ∀ i : Fin n, conditions.getLsbD i = v i) :
    SameRow H hfs rows v o3 o2 o1 conditions s ↔ Agree H rows v s := by
  have hhw := hwRow_eq (s := s) hfs ht o3 o2 o1 hv
  have hfirst : rows.find? (·.covers v s) =
      (rows.zipIdx.find? fun r => r.1.covers v s).map Prod.fst := by
    conv_lhs => rw [← List.zipIdx_map_fst 0 rows]
    exact find?_fst
  unfold SameRow
  -- the board picks the first row that covers the packet; now the software
  rw [hhw]
  constructor
  · rintro ⟨found, hsw, hboard⟩
    have hroom := (nodeOf_room_iff ht).mp (room_of_swRow hsw)
    refine ⟨hroom, fun r hr => ?_⟩
    rw [hfirst, Option.map_eq_some_iff] at hr
    obtain ⟨x, hx, rfl⟩ := hr
    rw [hx] at hboard
    cases hboard
    by_cases htaken : KeyTaken H rows s
    · rw [swRow_eq hH ht ((nodeOf_room_iff ht).mpr hroom) htaken] at hsw
      obtain ⟨y, hy, hxy⟩ := Option.map_eq_some_iff.mp (Option.some.inj hsw)
      have hmem := (state_of_mem_nodeRows hs (List.mem_of_find?_eq_some hy)).1
      obtain rfl := eq_of_mem_zipIdx hmem (List.mem_of_find?_eq_some hx) hxy
      obtain ⟨hn, hstate, hkept⟩ := kept_of_find?_nodeRows hs hx hy
      exact ⟨hn, hstate, htaken, hkept⟩
    · rw [swRow_of_refused hH ht ((nodeOf_room_iff ht).mpr hroom) htaken] at hsw
      cases hsw
  · rintro ⟨hroom, hchoice⟩
    refine ⟨_, ?_, rfl⟩
    have hroom' := (nodeOf_room_iff ht).mpr hroom
    cases hx : rows.zipIdx.find? fun r => r.1.covers v s with
    | none =>
      by_cases htaken : KeyTaken H rows s
      · rw [swRow_eq hH ht hroom' htaken]
        refine congrArg some ?_
        rw [Option.map_none, Option.map_eq_none_iff, List.find?_eq_none]
        intro y hy hheld
        obtain ⟨hmem, hstate⟩ := state_of_mem_nodeRows hs hy
        refine List.find?_eq_none.mp hx y hmem (covers_of_state hstate ?_)
        exact (Bool.and_eq_true_iff.mp hheld).2
      · exact swRow_of_refused hH ht hroom' htaken
    | some x =>
      rw [hx] at hfirst
      obtain ⟨hn, hstate, htaken, hkept⟩ := hchoice x.1 hfirst
      rw [swRow_eq hH ht hroom' htaken, find?_nodeRows hn hs hx hstate hkept]

/-- A short table is a table in question. -/
private theorem stageTable_of_length (hn : n ≤ 4) (hrows : rows.length ≤ 10) :
    StageTable rows where
  conditions := hn
  size := by omega
  perState s := (List.length_filter_le ..).trans hrows
  states := (List.dedup_sublist _).length_le.trans (by rwa [List.length_map])

/-- A row of another state before the packet's. -/
theorem sameRow_iff_instance :
    SameRow (listSlotMap State) [] ([⟨0, fun _ => .isTrue⟩, ⟨5, fun _ => .dontCare⟩] : List (Row 1))
      (fun _ => true) 0 0 0 1 5 :=
  (sameRow_iff (listSlotMap State) (.of_neverFull (listSlotMap_neverFull State)) []
    (stageTable_of_length (by decide) (by decide)) (by decide) 0 0 0 (by decide)).mpr
    ⟨by decide, fun r hr => by
      cases hr
      exact ⟨by decide, rfl, fun _ hlong => absurd hlong (by decide), by decide⟩⟩

/-- **A row for any state** is found by the board, and never by the
software. -/
theorem not_sameRow :
    ¬ ∀ (n : ℕ) (H : SlotMap State) (hfs : List HeaderField) (rows : List (Row n))
      (v : Fin n → Bool) (o3 o2 o1 : BitVec 32) (conditions : BitVec 16) (s : BitVec 8),
      H.AcceptsBelow → StageTable rows → s ≠ anyState →
        (∀ i : Fin n, conditions.getLsbD i = v i) →
          SameRow H hfs rows v o3 o2 o1 conditions s := by
  intro hall
  have hH := SlotMap.AcceptsBelow.of_neverFull (listSlotMap_neverFull State)
  have ht : StageTable (n := 1) [⟨anyState, fun _ => .dontCare⟩] :=
    stageTable_of_length (by decide) (by decide)
  have hv : ∀ i : Fin 1, (0 : BitVec 16).getLsbD i = false := by decide
  obtain ⟨found, hsw, hboard⟩ := hall 1 (listSlotMap State) [] [⟨anyState, fun _ => .dontCare⟩]
    (fun _ => false) 0 0 0 0 0 hH ht (by decide) hv
  rw [hwRow_eq (v := fun _ => false) [] ht 0 0 0 hv] at hboard
  have htaken : KeyTaken (listSlotMap State)
      ([⟨anyState, fun _ => .dontCare⟩] : List (Row 1)) 0 := fun _ hlong => absurd hlong (by decide)
  rw [swRow_eq hH ht (room_of_swRow hsw) htaken] at hsw
  rw [← hsw] at hboard
  exact absurd hboard (by decide)

end Choice

end FlowBlaze
