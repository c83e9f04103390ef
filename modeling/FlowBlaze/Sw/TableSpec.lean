import FlowBlaze.Sw.Table
import Mathlib.Data.List.Dedup
import Mathlib.Data.List.TakeWhile
/-!
# What the buckets hold

`nodeOf` is what the list of nodes groups under a state, in one line for
each case: the rows of the state, unless a row of `STATE_NULL` came. The
first such row takes the head of the list over, with the rows of state 0
it has by then. Everything about the buckets follows from `groupRows`
computing `nodeOf`: when the call has a result, and when the buckets
partition the rows.
-/

namespace FlowBlaze

namespace Sw

open Common

/-! ## What is grouped under a state -/

section NodeOf

variable {α β : Type} (state : α → State)

/-- A row of `STATE_NULL`. -/
def isNull (r : α) : Bool := state r == stateNull

/-- The rows of a state. -/
def rowsOf (rows : List α) (s : State) : List α := rows.filter fun r => state r == s

/-- **The rows grouped under a state.** -/
def nodeOf (rows : List α) (s : State) : List α :=
  if rows.any (isNull state) then
    if s = stateNull then
      rowsOf state (rows.takeWhile fun r => !isNull state r) headState ++
        rowsOf state rows stateNull
    else if s = headState then
      rowsOf state (rows.dropWhile fun r => !isNull state r) headState
    else rowsOf state rows s
  else rowsOf state rows s

variable {state} {rows : List α} {r : α} {s : State}

/-- Only the rows of a state are grouped under it, but for the reserved
one. -/
theorem state_of_mem_nodeOf (h : r ∈ nodeOf state rows s) (hs : s ≠ stateNull) : state r = s := by
  unfold nodeOf at h
  rw [if_neg hs] at h
  split at h
  · split at h
    · next h0 => exact h0 ▸ beq_iff_eq.mp (List.mem_filter.mp h).2
    · exact beq_iff_eq.mp (List.mem_filter.mp h).2
  · exact beq_iff_eq.mp (List.mem_filter.mp h).2

theorem rowsOf_append (rows' : List α) :
    rowsOf state (rows ++ rows') s = rowsOf state rows s ++ rowsOf state rows' s :=
  List.filter_append ..

theorem rowsOf_singleton :
    rowsOf state [r] s = if state r = s then [r] else [] := by
  by_cases h : state r = s <;> simp [rowsOf, h]

/-- Without a row of `STATE_NULL` none is grouped under it. -/
theorem rowsOf_null_of_not_any (h : rows.any (isNull state) = false) :
    rowsOf state rows stateNull = [] := by
  unfold rowsOf
  rw [List.filter_eq_nil_iff]
  intro r hr
  rw [List.any_eq_false] at h
  exact h r hr

/-- A row that is not the first of `STATE_NULL` joins those of its state. -/
theorem nodeOf_snoc (h : isNull state r = false ∨ rows.any (isNull state) = true) (s : State) :
    nodeOf state (rows ++ [r]) s =
      if state r = s then nodeOf state rows s ++ [r] else nodeOf state rows s := by
  unfold nodeOf
  cases hany : rows.any (isNull state) with
  | true =>
    -- the list is cut at a row that comes before this one
    have hstops : ¬ ∀ x ∈ rows, (!isNull state x) = true := by
      obtain ⟨x, hx, hnull⟩ := List.any_eq_true.1 hany
      intro hall
      have hnot := hall x hx
      rw [hnull] at hnot
      cases hnot
    have htake : (rows ++ [r]).takeWhile (fun r => !isNull state r) =
        rows.takeWhile fun r => !isNull state r := by
      rw [List.takeWhile_append, if_neg]
      intro hlen
      exact hstops (List.takeWhile_eq_self_iff.1
        ((List.takeWhile_prefix (fun r => !isNull state r)).eq_of_length hlen))
    have hdrop : (rows ++ [r]).dropWhile (fun r => !isNull state r) =
        (rows.dropWhile fun r => !isNull state r) ++ [r] := by
      rw [List.dropWhile_append, if_neg]
      rw [List.isEmpty_iff, List.dropWhile_eq_nil_iff]
      exact hstops
    simp only [List.any_append, hany, Bool.true_or, if_true, htake, hdrop, rowsOf_append,
      rowsOf_singleton]
    by_cases hs : s = stateNull
    · subst hs
      by_cases hr : state r = stateNull <;> simp [hr]
    · by_cases hs0 : s = headState
      · subst hs0
        by_cases hr : state r = headState <;> simp [hr, hs]
      · by_cases hr : state r = s <;> simp [hr, hs, hs0]
  | false =>
    have hr : isNull state r = false := by
      rcases h with h | h
      · exact h
      · rw [hany] at h
        cases h
    simp only [List.any_append, hany, List.any_cons, hr, List.any_nil, Bool.or_self,
      Bool.false_eq_true, if_false, rowsOf_append, rowsOf_singleton]
    split <;> simp

/-- **The first row of `STATE_NULL` takes over what was grouped under 0.** -/
theorem nodeOf_snoc_null (h : rows.any (isNull state) = false) (hr : isNull state r = true)
    (s : State) :
    nodeOf state (rows ++ [r]) s =
      if s = stateNull then nodeOf state rows headState ++ [r]
      else if s = headState then [] else nodeOf state rows s := by
  have hall : ∀ x ∈ rows, (!isNull state x) = true := by
    intro x hx
    rw [List.any_eq_false] at h
    simpa using h x hx
  have htake : (rows ++ [r]).takeWhile (fun r => !isNull state r) = rows := by
    rw [List.takeWhile_append_of_pos hall]
    simp [hr]
  have hdrop : (rows ++ [r]).dropWhile (fun r => !isNull state r) = [r] := by
    rw [List.dropWhile_append_of_pos hall]
    simp [hr]
  have hst : state r = stateNull := by simpa [isNull] using hr
  unfold nodeOf
  simp only [List.any_append, h, List.any_cons, hr, List.any_nil, Bool.or_false, Bool.or_true,
    if_true, htake, hdrop, rowsOf_append, rowsOf_singleton, hst, rowsOf_null_of_not_any h,
    List.nil_append, Bool.false_eq_true, if_false]
  have hne : ¬ stateNull = headState := by decide
  by_cases hs : s = stateNull
  · simp [hs]
  · by_cases hs0 : s = headState
    · simp [hs0, hne]
    · have hns : ¬ stateNull = s := fun hc => hs hc.symm
      simp [hs, hs0, hns]

/-- What is grouped of the images is the image of what is grouped. -/
theorem map_nodeOf (f : β → α) (rows : List β) (s : State) :
    (nodeOf (state ∘ f) rows s).map f = nodeOf state (rows.map f) s := by
  have hrows : ∀ (l : List β) (s : State),
      (rowsOf (state ∘ f) l s).map f = rowsOf state (l.map f) s := by
    intro l s
    unfold rowsOf
    rw [List.filter_map]
    rfl
  have hany : (rows.map f).any (isNull state) = rows.any (isNull (state ∘ f)) := by
    rw [List.any_map]
    rfl
  unfold nodeOf
  rw [hany]
  cases rows.any (isNull (state ∘ f)) with
  | true =>
    simp only [if_true]
    split
    · rw [List.map_append, hrows, hrows, List.takeWhile_map]
      rfl
    · split
      · rw [hrows, List.dropWhile_map]
        rfl
      · exact hrows rows s
  | false => exact hrows rows s

/-- Every row grouped is one of the rows. -/
theorem mem_of_mem_nodeOf (h : r ∈ nodeOf state rows s) : r ∈ rows := by
  have hrows : ∀ {l : List α} {s : State}, r ∈ rowsOf state l s → r ∈ l :=
    fun hm => List.mem_of_mem_filter hm
  unfold nodeOf at h
  split at h
  · split at h
    · rcases List.mem_append.1 h with h | h
      · exact (List.takeWhile_prefix _).subset (hrows h)
      · exact hrows h
    · split at h
      · exact (List.dropWhile_suffix _).subset (hrows h)
      · exact hrows h
  · exact hrows h

end NodeOf

/-! ## The list of nodes -/

variable {list nodes : List KeyNode} {R : List (State × ℕ)} {s : State} {i : ℕ}

/-- What `insert_entry` makes of a node. -/
def appendTo (id : ℕ) (key : State) (n : KeyNode) : KeyNode :=
  if n.key = key then { n with entries := n.entries ++ [id] } else n

@[simp] theorem appendTo_key (n : KeyNode) : (appendTo i s n).key = n.key := by
  unfold appendTo
  split <;> rfl

theorem map_key_appendTo : (list.map (appendTo i s)).map KeyNode.key = list.map KeyNode.key := by
  rw [List.map_map]
  refine List.map_congr_left fun n _ => ?_
  simp

theorem searchKey_iff : searchKey s list = true ↔ s ∈ list.map KeyNode.key := by
  unfold searchKey
  simp

/-- **`insert_entry` on a list without repeated keys.** -/
theorem insertEntry_eq (hn : (list.map KeyNode.key).Nodup) :
    insertEntry i s list =
      if ∀ n ∈ list, n.key = s → n.entries.length < maxEntriesForeachState
      then some (list.map (appendTo i s)) else none := by
  induction list with
  | nil => simp [insertEntry]
  | cons n list ih =>
    rw [List.map_cons, List.nodup_cons] at hn
    by_cases hk : n.key = s
    · have hrest : ∀ m ∈ list, ¬ m.key = s := by
        intro m hm hms
        exact hn.1 (List.mem_map.2 ⟨m, hm, hms.trans hk.symm⟩)
      have hid : list.map (appendTo i s) = list := by
        refine (List.map_congr_left fun m hm => ?_).trans (List.map_id _)
        simp [appendTo, hrest m hm]
      unfold insertEntry
      rw [if_pos hk, List.map_cons, hid]
      by_cases hlen : n.entries.length < maxEntriesForeachState
      · rw [if_pos hlen, if_pos]
        · simp [appendTo, hk]
        · intro m hm hms
          rcases List.mem_cons.1 hm with rfl | hm
          · exact hlen
          · exact absurd hms (hrest m hm)
      · rw [if_neg hlen, if_neg fun hall => hlen (hall n List.mem_cons_self hk)]
    · unfold insertEntry
      rw [if_neg hk, ih hn.2]
      have hcond : (∀ m ∈ n :: list, m.key = s → m.entries.length < maxEntriesForeachState) ↔
          ∀ m ∈ list, m.key = s → m.entries.length < maxEntriesForeachState := by
        simp [hk]
      by_cases hall : ∀ m ∈ list, m.key = s → m.entries.length < maxEntriesForeachState
      · rw [if_pos hall, if_pos (hcond.2 hall)]
        simp [appendTo, hk]
      · rw [if_neg hall, if_neg fun h => hall (hcond.1 h)]
        rfl

/-- The nodes hold what `f` groups under their keys, and a state without
a node has nothing. -/
structure Holds (nodes : List KeyNode) (f : State → List (State × ℕ)) : Prop where
  nodup : (nodes.map KeyNode.key).Nodup
  rows : ∀ n ∈ nodes, n.entries = (f n.key).map Prod.snd
  missing : ∀ s, s ∉ nodes.map KeyNode.key → f s = []

/-- `insert_entry` on such a list: the row joins its state, if there is
room. -/
theorem Holds.insertEntry {f : State → List (State × ℕ)} (h : Holds list f)
    (hs : s ∈ list.map KeyNode.key) :
    insertEntry i s list =
        (if (f s).length < maxEntriesForeachState then some (list.map (appendTo i s)) else none) ∧
      Holds (list.map (appendTo i s)) fun t => if s = t then f t ++ [(s, i)] else f t := by
  obtain ⟨n, hn, hns⟩ := List.mem_map.1 hs
  refine ⟨?_, ?_, ?_, ?_⟩
  · rw [insertEntry_eq h.nodup]
    have hiff : (∀ m ∈ list, m.key = s → m.entries.length < maxEntriesForeachState) ↔
        (f s).length < maxEntriesForeachState := by
      constructor
      · intro hall
        have := hall n hn hns
        rwa [h.rows n hn, hns, List.length_map] at this
      · intro hlen m hm hms
        rwa [h.rows m hm, hms, List.length_map]
    by_cases hlen : (f s).length < maxEntriesForeachState
    · rw [if_pos hlen, if_pos (hiff.2 hlen)]
    · rw [if_neg hlen, if_neg fun hc => hlen (hiff.1 hc)]
  · rw [map_key_appendTo]
    exact h.nodup
  · intro m hm
    obtain ⟨n', hn', rfl⟩ := List.mem_map.1 hm
    rw [appendTo_key]
    unfold appendTo
    by_cases hk : n'.key = s
    · simp [hk, h.rows n' hn']
    · have hk' : ¬ s = n'.key := fun hc => hk hc.symm
      simp [hk, hk', h.rows n' hn']
  · intro t ht
    rw [map_key_appendTo] at ht
    have hne : ¬ s = t := by
      rintro rfl
      exact ht hs
    simp [hne, h.missing t ht]

/-- **The invariant of the loop.** The nodes group the rows as `nodeOf`
does, and the head is for `STATE_NULL` from its first row on. -/
structure Groups (nodes : List KeyNode) (R : List (State × ℕ)) : Prop where
  holds : Holds nodes (nodeOf Prod.fst R)
  head : (nodes.map KeyNode.key).head? =
    some (if R.any (isNull Prod.fst) then stateNull else headState)
  keys : ∀ s ∈ nodes.map KeyNode.key, s = headState ∨ s ∈ R.map Prod.fst

theorem groups_nil : Groups emptyNodes [] where
  holds := ⟨by simp [emptyNodes], by simp [emptyNodes, nodeOf, rowsOf],
    by simp [nodeOf, rowsOf]⟩
  head := rfl
  keys := by simp [emptyNodes]

/-- Some row is of `STATE_NULL`. -/
theorem any_isNull_iff : R.any (isNull Prod.fst) = true ↔ stateNull ∈ R.map Prod.fst := by
  simp [isNull]

theorem Groups.mem_null_iff (h : Groups nodes R) :
    stateNull ∈ nodes.map KeyNode.key ↔ R.any (isNull Prod.fst) = true := by
  constructor
  · intro hm
    rcases h.keys _ hm with hc | hc
    · exact absurd hc (by decide)
    · exact any_isNull_iff.2 hc
  · intro hany
    have hhead := h.head
    rw [hany, if_pos rfl] at hhead
    exact List.mem_of_head? hhead

/-- **The list `insert_entry` is called on**, which has a node for the
state of the row, and what it groups. -/
structure Prepared (nodes : List KeyNode) (R : List (State × ℕ)) (s : State) (i : ℕ)
    (list : List KeyNode) (f : State → List (State × ℕ)) : Prop where
  row : groupRow nodes s i = insertEntry i s list
  holds : Holds list f
  mem : s ∈ list.map KeyNode.key
  joins : ∀ t, nodeOf Prod.fst (R ++ [(s, i)]) t = if s = t then f t ++ [(s, i)] else f t
  head : (list.map KeyNode.key).head? =
    some (if (R ++ [(s, i)]).any (isNull Prod.fst) then stateNull else headState)
  keys : ∀ t ∈ list.map KeyNode.key, t = headState ∨ t ∈ (R ++ [(s, i)]).map Prod.fst

theorem Groups.keys_snoc (h : Groups nodes R) (s : State) (i : ℕ) :
    ∀ t ∈ nodes.map KeyNode.key, t = headState ∨ t ∈ (R ++ [(s, i)]).map Prod.fst := by
  intro t ht
  rw [List.map_append]
  exact (h.keys t ht).imp_right (List.mem_append_left _)

/-- There is a node for the state. -/
theorem Groups.prepared_of_mem (h : Groups nodes R) (i : ℕ) (hs : s ∈ nodes.map KeyNode.key) :
    Prepared nodes R s i nodes (nodeOf Prod.fst R) := by
  -- a row of `STATE_NULL` is not the first then
  have hnull : isNull (Prod.fst : State × ℕ → State) (s, i) = false ∨
      R.any (isNull Prod.fst) = true := by
    by_cases hsn : s = stateNull
    · subst hsn
      exact Or.inr (h.mem_null_iff.1 hs)
    · exact Or.inl (by simp [isNull, hsn])
  refine ⟨by rw [groupRow, if_pos (searchKey_iff.2 hs)], h.holds, hs,
    fun t => nodeOf_snoc hnull t, ?_, h.keys_snoc s i⟩
  rw [h.head]
  rcases hnull with hn | hn
  · simp only [List.any_append, List.any_cons, hn, List.any_nil, Bool.or_false]
  · simp only [List.any_append, hn, Bool.true_or]

/-- **The first row of `STATE_NULL`** renames the head, whose rows it
takes over. -/
theorem Groups.prepared_null {head : KeyNode} {tail : List KeyNode} (h : Groups (head :: tail) R)
    (i : ℕ) (hs : stateNull ∉ (head :: tail).map KeyNode.key) :
    Prepared (head :: tail) R stateNull i ({ head with key := stateNull } :: tail) fun t =>
      if t = stateNull then nodeOf Prod.fst R headState
      else if t = headState then [] else nodeOf Prod.fst R t := by
  have hany : R.any (isNull Prod.fst) = false := by
    rw [← Bool.not_eq_true]
    exact fun hc => hs (h.mem_null_iff.2 hc)
  have hhead : head.key = headState := by
    have hhead := h.head
    rw [hany] at hhead
    exact Option.some.inj hhead
  have hnodup := h.holds.nodup
  rw [List.map_cons, List.nodup_cons, hhead] at hnodup
  have hrow : groupRow (head :: tail) stateNull i =
      insertEntry i stateNull ({ head with key := stateNull } :: tail) := by
    rw [groupRow, if_neg fun hc => hs (searchKey_iff.1 hc)]
    simp [insertKey]
  rw [List.map_cons, List.mem_cons, not_or] at hs
  refine ⟨hrow, ⟨?_, fun n hn => ?_, fun t ht => ?_⟩, List.mem_cons_self, fun t => ?_,
    by simp [isNull], fun t ht => ?_⟩
  · rw [List.map_cons, List.nodup_cons]
    exact ⟨hs.2, hnodup.2⟩
  · rcases List.mem_cons.1 hn with rfl | hn
    · rw [if_pos rfl, h.holds.rows head List.mem_cons_self, hhead]
    · have hne : ∀ k, k ∉ tail.map KeyNode.key → n.key ≠ k := by
        rintro k hk rfl
        exact hk (List.mem_map_of_mem hn)
      rw [if_neg (hne _ hs.2), if_neg (hne _ hnodup.1)]
      exact h.holds.rows n (List.mem_cons_of_mem _ hn)
  · rw [List.map_cons, List.mem_cons, not_or] at ht
    rw [if_neg ht.1]
    by_cases hte : t = headState
    · exact if_pos hte
    · rw [if_neg hte]
      refine h.holds.missing t ?_
      rw [List.map_cons, List.mem_cons, not_or, hhead]
      exact ⟨hte, ht.2⟩
  · rw [nodeOf_snoc_null hany (by simp [isNull])]
    by_cases ht : t = stateNull
    · rw [if_pos ht, if_pos ht.symm, if_pos ht]
    · rw [if_neg ht, if_neg (Ne.symm ht), if_neg ht]
  · rcases List.mem_cons.1 ht with rfl | ht
    · exact Or.inr (by simp)
    · exact h.keys_snoc stateNull i t (List.mem_cons_of_mem _ ht)

/-- **Another state** gets a node at the end. -/
theorem Groups.prepared_new (h : Groups nodes R) (i : ℕ) (hs : s ∉ nodes.map KeyNode.key)
    (hsn : s ≠ stateNull) :
    Prepared nodes R s i (nodes ++ [⟨s, []⟩]) (nodeOf Prod.fst R) := by
  have hnull : isNull (Prod.fst : State × ℕ → State) (s, i) = false := by simp [isNull, hsn]
  obtain ⟨head, tail, rfl⟩ : ∃ head tail, nodes = head :: tail := by
    cases nodes with
    | nil => cases h.head
    | cons head tail => exact ⟨head, tail, rfl⟩
  have hrow : groupRow (head :: tail) s i = insertEntry i s (head :: tail ++ [⟨s, []⟩]) := by
    rw [groupRow, if_neg fun hc => hs (searchKey_iff.1 hc)]
    simp [insertKey, hsn]
  refine ⟨hrow, ⟨?_, fun n hn => ?_, fun t ht => ?_⟩, by simp,
    fun t => nodeOf_snoc (Or.inl hnull) t, ?_, fun t ht => ?_⟩
  · rw [List.map_append, List.map_singleton, List.nodup_append]
    refine ⟨h.holds.nodup, List.nodup_singleton _, fun a ha b hb => ?_⟩
    rw [List.mem_singleton.1 hb]
    rintro rfl
    exact hs ha
  · rcases List.mem_append.1 hn with hn | hn
    · exact h.holds.rows n hn
    · rw [List.mem_singleton.1 hn, h.holds.missing s hs]
      rfl
  · rw [List.map_append, List.mem_append, not_or] at ht
    exact h.holds.missing t ht.1
  · have hhead := h.head
    rw [List.map_cons, List.head?_cons] at hhead
    rw [List.map_append, List.map_cons, List.cons_append, List.head?_cons, hhead]
    simp only [List.any_append, List.any_cons, hnull, List.any_nil, Bool.or_false]
  · rw [List.map_append, List.mem_append, List.map_singleton, List.mem_singleton] at ht
    rcases ht with ht | rfl
    · exact h.keys_snoc s i t ht
    · exact Or.inr (by simp)

/-- In each of the cases there is such a list. -/
theorem Groups.exists_prepared (h : Groups nodes R) (s : State) (i : ℕ) :
    ∃ list f, Prepared nodes R s i list f := by
  by_cases hs : s ∈ nodes.map KeyNode.key
  · exact ⟨_, _, h.prepared_of_mem i hs⟩
  by_cases hsn : s = stateNull
  · subst hsn
    cases nodes with
    | nil => cases h.head
    | cons head tail => exact ⟨_, _, h.prepared_null i hs⟩
  · exact ⟨_, _, h.prepared_new i hs hsn⟩

/-- **One row.** It joins its state if there is room there. -/
theorem Groups.groupRow (h : Groups nodes R) (s : State) (i : ℕ) :
    (∃ nodes', groupRow nodes s i = some nodes' ∧ Groups nodes' (R ++ [(s, i)]) ∧
        (nodeOf Prod.fst (R ++ [(s, i)]) s).length ≤ maxEntriesForeachState) ∨
      (Sw.groupRow nodes s i = none ∧
        maxEntriesForeachState < (nodeOf Prod.fst (R ++ [(s, i)]) s).length) := by
  obtain ⟨list, f, hrow, hlist, hs, hf, hhead, hkeys⟩ := h.exists_prepared s i
  obtain ⟨hins, hnew⟩ := hlist.insertEntry (i := i) hs
  rw [hins] at hrow
  have hlen : (nodeOf Prod.fst (R ++ [(s, i)]) s).length = (f s).length + 1 := by
    rw [hf s]
    simp
  by_cases hroom : (f s).length < maxEntriesForeachState
  · rw [if_pos hroom] at hrow
    refine Or.inl ⟨_, hrow, ⟨?_, ?_, ?_⟩, by omega⟩
    · rw [show nodeOf Prod.fst (R ++ [(s, i)]) = _ from funext hf]
      exact hnew
    · rw [map_key_appendTo]
      exact hhead
    · rw [map_key_appendTo]
      exact hkeys
  · rw [if_neg hroom] at hrow
    exact Or.inr ⟨hrow, by omega⟩

/-! ## The loop -/

/-- The loop over numbered rows. -/
def groupList (R : List (State × ℕ)) : Option (List KeyNode) :=
  R.foldlM (fun list r => Sw.groupRow list r.1 r.2) emptyNodes

theorem groupList_snoc (r : State × ℕ) :
    groupList (R ++ [r]) = (groupList R).bind fun list => Sw.groupRow list r.1 r.2 := by
  unfold groupList
  rw [List.foldlM_append]
  cases List.foldlM (fun list r => Sw.groupRow list r.1 r.2) emptyNodes R with
  | none => rfl
  | some list => simp [List.foldlM_cons, List.foldlM_nil]

/-- What is grouped when the loop ends. -/
theorem groups_of_groupList (h : groupList R = some nodes) : Groups nodes R := by
  induction R using List.reverseRecOn generalizing nodes with
  | nil =>
    cases h
    exact groups_nil
  | append_singleton R r ih =>
    rw [groupList_snoc, Option.bind_eq_some_iff] at h
    obtain ⟨list, hlist, hrow⟩ := h
    rcases (ih hlist).groupRow r.1 r.2 with ⟨nodes', hrow', hg, -⟩ | ⟨hnone, -⟩
    · rw [hrow] at hrow'
      cases hrow'
      exact hg
    · rw [hrow] at hnone
      cases hnone

/-- A row more leaves no fewer rows together. -/
private theorem exists_length_le (R : List (State × ℕ)) (r : State × ℕ) (s : State) :
    ∃ t, (nodeOf Prod.fst R s).length ≤ (nodeOf Prod.fst (R ++ [r]) t).length := by
  by_cases h : isNull Prod.fst r = false ∨ R.any (isNull Prod.fst) = true
  · refine ⟨s, ?_⟩
    rw [nodeOf_snoc h]
    split <;> simp
  · rw [not_or, Bool.not_eq_false, Bool.not_eq_true] at h
    by_cases hs : s = headState
    · refine ⟨stateNull, ?_⟩
      rw [nodeOf_snoc_null h.2 h.1, if_pos rfl, hs]
      simp
    · refine ⟨s, ?_⟩
      rw [nodeOf_snoc_null h.2 h.1]
      by_cases hn : s = stateNull
      · subst hn
        unfold nodeOf
        rw [h.2]
        simp [rowsOf_null_of_not_any h.2]
      · simp [hn, hs]

/-- Nor more of another state than there were. -/
private theorem length_le_of_ne {R : List (State × ℕ)} {r : State × ℕ} (hs : s ≠ r.1) :
    (nodeOf Prod.fst (R ++ [r]) s).length ≤ (nodeOf Prod.fst R s).length := by
  by_cases h : isNull Prod.fst r = false ∨ R.any (isNull Prod.fst) = true
  · rw [nodeOf_snoc h, if_neg (Ne.symm hs)]
  · rw [not_or, Bool.not_eq_false, Bool.not_eq_true] at h
    have hr : r.1 = stateNull := by simpa [isNull] using h.1
    rw [nodeOf_snoc_null h.2 h.1, if_neg (hr ▸ hs)]
    split
    · exact Nat.zero_le _
    · exact Nat.le_refl _

/-- **The loop has a result exactly when no node overflows.** -/
theorem groupList_isSome_iff :
    (groupList R).isSome = true ↔
      ∀ s, (nodeOf Prod.fst R s).length ≤ maxEntriesForeachState := by
  induction R using List.reverseRecOn with
  | nil => simp [groupList, nodeOf, rowsOf]
  | append_singleton R r ih =>
    rw [groupList_snoc]
    cases hlist : groupList R with
    | none =>
      -- what has overflown stays so
      rw [hlist] at ih
      refine iff_of_false Bool.false_ne_true fun hall => ?_
      refine absurd (ih.2 fun s => ?_) Bool.false_ne_true
      obtain ⟨t, ht⟩ := exists_length_le R r s
      exact ht.trans (hall t)
    | some list =>
      rw [hlist] at ih
      have hold := ih.1 rfl
      rw [Option.bind_some]
      rcases (groups_of_groupList hlist).groupRow r.1 r.2 with
        ⟨nodes', hrow, hg, hlen⟩ | ⟨hnone, hlen⟩
      · rw [hrow]
        refine iff_of_true rfl fun s => ?_
        by_cases hs : s = r.1
        · rw [hs]
          exact hlen
        · exact (length_le_of_ne hs).trans (hold s)
      · rw [hnone]
        exact iff_of_false Bool.false_ne_true fun hall =>
          absurd (hall r.1) (Nat.not_le.2 hlen)

/-! ## The states with a node -/

theorem appendTo_entries_ne_nil {n : KeyNode} (hn : n.entries ≠ []) :
    (appendTo i s n).entries ≠ [] := by
  unfold appendTo
  split
  · exact fun hnil => List.cons_ne_nil _ _ (List.append_eq_nil_iff.mp hnil).2
  · exact hn

/-- What a row leaves of the list it was inserted in. -/
theorem Prepared.groupRow_eq {f : State → List (State × ℕ)} {before : List KeyNode}
    (h : Prepared list R s i before f) (hrow : groupRow list s i = some nodes) :
    nodes = before.map (appendTo i s) := by
  rw [h.row, insertEntry_eq h.holds.nodup] at hrow
  split at hrow
  · exact (Option.some.inj hrow).symm
  · cases hrow

/-- A row leaves no node but the head without rows. -/
theorem groupRow_tail (h : Groups list R) (htail : ∀ n ∈ list.tail, n.entries ≠ [])
    (hrow : groupRow list s i = some nodes) : ∀ n ∈ nodes.tail, n.entries ≠ [] := by
  by_cases hs : s ∈ list.map KeyNode.key
  · rw [(h.prepared_of_mem i hs).groupRow_eq hrow, ← List.map_tail]
    exact List.forall_mem_map.mpr fun m hm => appendTo_entries_ne_nil (htail m hm)
  cases list with
  | nil => cases h.head
  | cons head tail =>
    by_cases hsn : s = stateNull
    · subst hsn
      rw [(h.prepared_null i hs).groupRow_eq hrow]
      exact List.forall_mem_map.mpr fun m hm => appendTo_entries_ne_nil (htail m hm)
    · rw [(h.prepared_new i hs hsn).groupRow_eq hrow]
      refine List.forall_mem_map.mpr fun m hm => ?_
      rcases List.mem_append.mp hm with hm | hm
      · exact appendTo_entries_ne_nil (htail m hm)
      -- the node at the end is for this row
      · rw [List.mem_singleton.mp hm]
        unfold appendTo
        rw [if_pos rfl]
        exact List.cons_ne_nil _ _

theorem groupList_tail (h : groupList R = some nodes) : ∀ n ∈ nodes.tail, n.entries ≠ [] := by
  induction R using List.reverseRecOn generalizing nodes with
  | nil =>
    cases h
    exact fun n hn => absurd hn List.not_mem_nil
  | append_singleton R r ih =>
    rw [groupList_snoc, Option.bind_eq_some_iff] at h
    obtain ⟨list, hlist, hrow⟩ := h
    exact groupRow_tail (groups_of_groupList hlist) (ih hlist) hrow

/-- **The states that get a node**: the head's, and each that rows are
grouped under. -/
def nodeKeys (states : List State) : List State :=
  ((if stateNull ∈ states then stateNull else headState) ::
    states.filter fun s => nodeOf id states s ≠ []).dedup

/-! ## The pool -/

section Pool

variable {H : SlotMap State} {ε : Type} {entries : List ε} {E : Entries H ε}

/-- The states the hash knows. -/
def Known (E : Entries H ε) (s : State) : Prop := H.lookup E.entriesHmap s ≠ none

/-- The hash takes the keys of these nodes, when these are the keys it
may know. -/
def Room (E : Entries H ε) (known : List State) (list : List KeyNode) : Prop :=
  H.NeverFull ∨ (H.AcceptsBelow ∧ (∀ s, Known E s → s ∈ known) ∧
    known.length + list.length ≤ H.capacity E.entriesHmap)

/-- The hash takes the key of each of these nodes. -/
def TakesNodes (E : Entries H ε) (list : List KeyNode) : Prop :=
  (H.addKeys E.entriesHmap (list.map KeyNode.key)).length = list.length

/-- The first key is taken, and then the others are. -/
theorem takes_cons {n : KeyNode} {list : List KeyNode} (h : TakesNodes E (n :: list)) :
    ∃ pos, (H.add E.entriesHmap n.key).2 = some pos ∧
      TakesNodes (H := H) (ε := ε) ⟨(H.add E.entriesHmap n.key).1,
        Function.update E.stateEntriesPool pos (bucketOf entries n)⟩ list := by
  unfold TakesNodes at h
  rw [List.map_cons, List.length_cons, SlotMap.addKeys] at h
  cases hadd : H.add E.entriesHmap n.key with
  | mk hmap res =>
    rw [hadd] at h
    cases res with
    | none => cases h
    | some pos => exact ⟨pos, rfl, Nat.succ.inj h⟩

/-- **Where there is room, every key is taken.** -/
theorem takes_of_room {known : List State} {list : List KeyNode} (hroom : Room E known list)
    (hn : (list.map KeyNode.key).Nodup) : TakesNodes E list := by
  induction list generalizing E known with
  | nil => rfl
  | cons n list ih =>
    rw [List.map_cons, List.nodup_cons] at hn
    have htaken : (H.add E.entriesHmap n.key).2 ≠ none := by
      rcases hroom with hroom | ⟨hacc, hknown, hcap⟩
      · exact hroom _ _
      · rw [List.length_cons] at hcap
        exact hacc _ _ known hknown (by omega)
    obtain ⟨pos, hpos⟩ := Option.ne_none_iff_exists'.mp htaken
    have hroom' : Room (H := H) (ε := ε) ⟨(H.add E.entriesHmap n.key).1, E.stateEntriesPool⟩
        (n.key :: known) list := by
      rcases hroom with hroom | ⟨hacc, hknown, hcap⟩
      · exact Or.inl hroom
      · refine Or.inr ⟨hacc, fun s hs => ?_, ?_⟩
        · by_cases hk : s = n.key
          · rw [hk]
            exact List.mem_cons_self
          · unfold Known at hs
            rw [SlotMap.lookup_add_of_ne hpos hk] at hs
            exact List.mem_cons_of_mem _ (hknown s hs)
        · change _ ≤ H.capacity (H.add E.entriesHmap n.key).1
          rw [H.capacity_add]
          rw [List.length_cons] at hcap ⊢
          omega
    have hrest := ih hroom' hn.2
    unfold TakesNodes at hrest ⊢
    rw [List.map_cons, List.length_cons, SlotMap.addKeys]
    cases hadd : H.add E.entriesHmap n.key with
    | mk hmap res =>
      rw [hadd] at hpos hrest
      cases hpos
      exact congrArg Nat.succ hrest

/-- The loop goes on behind a key that is taken. -/
theorem fillPool_cons {n : KeyNode} {pos : ℕ} (hpos : (H.add E.entriesHmap n.key).2 = some pos)
    (list : List KeyNode) :
    fillPool H entries E (n :: list) =
      fillPool H entries ⟨(H.add E.entriesHmap n.key).1,
        Function.update E.stateEntriesPool pos (bucketOf entries n)⟩ list := by
  rw [fillPool]
  cases hadd : H.add E.entriesHmap n.key with
  | mk hmap res =>
    rw [hadd] at hpos
    cases hpos
    rfl

/-- A key that is taken has the bucket stored at its place. -/
theorem bucket_add_self {k : State} {pos : ℕ} (hpos : (H.add E.entriesHmap k).2 = some pos)
    (b : HmapEntry ε) :
    bucket (⟨(H.add E.entriesHmap k).1, Function.update E.stateEntriesPool pos b⟩ : Entries H ε)
      k = some b.tableEntries := by
  unfold bucket
  rw [SlotMap.lookup_add_self hpos, Option.map_some]
  exact congrArg (fun b : HmapEntry ε => some b.tableEntries) (Function.update_self ..)

/-- The others keep theirs: a new key gets a place that no other has. -/
theorem bucket_add_of_ne {k s : State} {pos : ℕ} (hnew : H.lookup E.entriesHmap k = none)
    (hpos : (H.add E.entriesHmap k).2 = some pos) (b : HmapEntry ε) (hs : s ≠ k) :
    bucket (⟨(H.add E.entriesHmap k).1, Function.update E.stateEntriesPool pos b⟩ : Entries H ε)
      s = bucket E s := by
  unfold bucket
  rw [SlotMap.lookup_add_of_ne hpos hs]
  cases hl : H.lookup E.entriesHmap s with
  | none => rfl
  | some q =>
    have hne : q ≠ pos := by
      rintro rfl
      exact SlotMap.not_taken_of_add hnew hpos ⟨s, hl⟩
    exact congrArg (fun b : HmapEntry ε => some b.tableEntries) (Function.update_of_ne hne ..)

/-- **The filled pool.** Under the key of each node is its bucket, and
nothing else changed. -/
theorem bucket_fillPool {list : List KeyNode} (htakes : TakesNodes E list)
    (hn : (list.map KeyNode.key).Nodup) (hfresh : ∀ n ∈ list, ¬ Known E n.key) :
    (∀ n ∈ list, bucket (fillPool H entries E list) n.key =
        some (bucketOf entries n).tableEntries) ∧
      ∀ s, s ∉ list.map KeyNode.key →
        bucket (fillPool H entries E list) s = bucket E s := by
  -- over the nodes, with any pool: the nodes to come are new to it
  induction list generalizing E with
  | nil => exact ⟨fun n hn => (List.not_mem_nil hn).elim, fun s _ => rfl⟩
  | cons n list ih =>
    rw [List.map_cons, List.nodup_cons] at hn
    have hnew : H.lookup E.entriesHmap n.key = none := by
      by_contra hc
      exact hfresh n List.mem_cons_self hc
    obtain ⟨pos, hpos, htakes'⟩ := @takes_cons H ε entries E n list htakes
    have hfresh' : ∀ m ∈ list, ¬ Known (H := H) (ε := ε) ⟨(H.add E.entriesHmap n.key).1,
        Function.update E.stateEntriesPool pos (bucketOf entries n)⟩ m.key := by
      intro m hm hc
      have hne : m.key ≠ n.key := fun he => hn.1 (List.mem_map.2 ⟨m, hm, he⟩)
      unfold Known at hc
      rw [SlotMap.lookup_add_of_ne hpos hne] at hc
      exact hfresh m (List.mem_cons_of_mem _ hm) hc
    obtain ⟨hin, hout⟩ := ih htakes' hn.2 hfresh'
    rw [fillPool_cons hpos]
    refine ⟨fun m hm => ?_, fun s hs => ?_⟩
    · rcases List.mem_cons.1 hm with rfl | hm
      · rw [hout _ hn.1, bucket_add_self hpos]
      · exact hin m hm
    · rw [List.map_cons, List.mem_cons, not_or] at hs
      rw [hout s hs.2, bucket_add_of_ne hnew hpos _ hs.1]

/-- **A last key that is refused** leaves the buckets as they were. -/
theorem bucket_fillPool_refused {list : List KeyNode} {n : KeyNode} (htakes : TakesNodes E list)
    (hrefused : ¬ TakesNodes E (list ++ [n])) (s : State) :
    bucket (fillPool H entries E (list ++ [n])) s = bucket (fillPool H entries E list) s := by
  induction list generalizing E with
  | nil =>
    unfold TakesNodes at hrefused
    rw [List.nil_append, List.map_cons, SlotMap.addKeys] at hrefused
    rw [List.nil_append, fillPool, fillPool]
    cases hadd : H.add E.entriesHmap n.key with
    | mk hmap res =>
      rw [hadd] at hrefused
      cases res with
      | some pos => exact absurd rfl hrefused
      | none =>
        have hlookup : H.lookup (H.add E.entriesHmap n.key).1 = H.lookup E.entriesHmap :=
          H.lookup_add_none (by rw [hadd])
        rw [hadd] at hlookup
        unfold bucket
        rw [hlookup]
  | cons m list ih =>
    unfold TakesNodes at htakes hrefused
    rw [List.map_cons, List.length_cons, SlotMap.addKeys] at htakes
    rw [List.cons_append, List.map_cons, List.length_cons, SlotMap.addKeys] at hrefused
    -- the loop goes one node on in both
    rw [List.cons_append, fillPool, fillPool]
    cases hadd : H.add E.entriesHmap m.key with
    | mk hmap res =>
      rw [hadd] at htakes hrefused
      cases res with
      | none => cases htakes
      | some pos =>
        exact ih (E := ⟨hmap, _⟩) (Nat.succ.inj htakes) fun h => hrefused (congrArg Nat.succ h)

end Pool

/-! ## Creating the table -/

section Create

variable {H : SlotMap State} {ε : Type} {entries : List ε} {state : ε → State}

/-- The numbered rows of a table. -/
private theorem zipIdx_map_state (entries : List ε) (state : ε → State) :
    (entries.map state).zipIdx = entries.zipIdx.map fun r => (state r.1, r.2) := by
  rw [List.zipIdx_map]
  rfl

/-- The states grouped are those of the numbered rows. -/
theorem nodeOf_zipIdx (states : List State) (s : State) :
    (nodeOf Prod.fst states.zipIdx s).map Prod.fst = nodeOf id states s := by
  have hmap : (nodeOf (id ∘ Prod.fst) states.zipIdx s).map Prod.fst =
      nodeOf id (states.zipIdx.map Prod.fst) s := map_nodeOf Prod.fst states.zipIdx s
  rwa [List.zipIdx_map_fst] at hmap

/-- The rows a node's numbers stand for. -/
private theorem filterMap_nodeOf (entries : List ε) (state : ε → State) (s : State) :
    ((nodeOf Prod.fst (entries.map state).zipIdx s).map Prod.snd).filterMap (entries[·]?) =
      nodeOf state entries s := by
  have hids : nodeOf Prod.fst (entries.map state).zipIdx s =
      (nodeOf (state ∘ Prod.fst) entries.zipIdx s).map fun r => (state r.1, r.2) := by
    rw [zipIdx_map_state, ← map_nodeOf]
    rfl
  have hrows : nodeOf state entries s =
      (nodeOf (state ∘ Prod.fst) entries.zipIdx s).map Prod.fst := by
    rw [map_nodeOf, List.zipIdx_map_fst]
  rw [hids, hrows, List.map_map, List.filterMap_map]
  rw [← List.filterMap_eq_map]
  refine List.filterMap_congr fun r hr => ?_
  have hmem := mem_of_mem_nodeOf hr
  obtain ⟨e, i⟩ := r
  exact List.mem_zipIdx_iff_getElem?.1 hmem

/-- **When the table is created.** -/
theorem createEntries_isSome_iff :
    (createEntries H entries state).isSome = true ↔
      ∀ s, (nodeOf state entries s).length ≤ maxEntriesForeachState := by
  unfold createEntries
  rw [Option.isSome_map]
  refine groupList_isSome_iff.trans (forall_congr' fun s => ?_)
  rw [zipIdx_map_state, ← map_nodeOf, List.length_map]
  have hlen : (nodeOf state entries s).length =
      (nodeOf (state ∘ Prod.fst) entries.zipIdx s).length := by
    rw [← List.length_map (f := Prod.fst), map_nodeOf, List.zipIdx_map_fst]
  rw [hlen]
  rfl

/-- **When no node overflows**, by the rows' states. -/
theorem groupRows_isSome_iff {states : List State} :
    (groupRows states).isSome = true ↔
      ∀ s, (nodeOf id states s).length ≤ maxEntriesForeachState := by
  refine groupList_isSome_iff.trans (forall_congr' fun s => ?_)
  rw [← nodeOf_zipIdx states s, List.length_map]

/-- A state that rows are grouped under is one of theirs. -/
theorem mem_of_nodeOf_ne_nil {states : List State} (h : nodeOf id states s ≠ []) :
    s ∈ states := by
  obtain ⟨r, hr⟩ := List.exists_mem_of_ne_nil _ h
  by_cases hs : s = stateNull
  · subst hs
    by_contra hany
    have hnone : states.any (isNull id) = false :=
      List.any_eq_false.mpr fun t ht hc => hany (beq_iff_eq.mp hc ▸ ht)
    unfold nodeOf at hr
    rw [if_neg (by rw [hnone]; exact Bool.false_ne_true), rowsOf_null_of_not_any hnone] at hr
    cases hr
  · exact state_of_mem_nodeOf hr hs ▸ mem_of_mem_nodeOf hr

/-- **Which nodes there are.** -/
theorem mem_keys_iff {states : List State} (h : groupRows states = some nodes) :
    s ∈ nodes.map KeyNode.key ↔ s ∈ nodeKeys states := by
  have hg := groups_of_groupList h
  have hnode : ∀ s, nodeOf Prod.fst states.zipIdx s ≠ [] ↔ nodeOf id states s ≠ [] := by
    intro s
    rw [← nodeOf_zipIdx states s, Ne, Ne, List.map_eq_nil_iff]
  have hnull : states.zipIdx.any (isNull Prod.fst) = true ↔ stateNull ∈ states := by
    rw [any_isNull_iff, List.zipIdx_map_fst]
  have hhead := hg.head
  rw [if_congr hnull rfl rfl] at hhead
  unfold nodeKeys
  rw [List.mem_dedup, List.mem_cons, List.mem_filter, decide_eq_true_iff]
  cases nodes with
  | nil => cases hhead
  | cons head tail =>
    have hkey : head.key = if stateNull ∈ states then stateNull else headState :=
      Option.some.inj hhead
    constructor
    · intro hs
      obtain ⟨n, hn, rfl⟩ := List.mem_map.mp hs
      rcases List.mem_cons.mp hn with rfl | hn
      · exact Or.inl hkey
      -- any other node has rows
      · have hrows : nodeOf Prod.fst states.zipIdx n.key ≠ [] := by
          intro hnil
          have hentries := hg.holds.rows n (List.mem_cons_of_mem _ hn)
          rw [hnil] at hentries
          exact groupList_tail h n hn hentries
        have hstates := (hnode _).mp hrows
        exact Or.inr ⟨mem_of_nodeOf_ne_nil hstates, hstates⟩
    · rintro (rfl | ⟨-, hrows⟩)
      · exact hkey ▸ List.mem_cons_self
      · by_contra hs
        exact (hnode s).mpr hrows (hg.holds.missing s hs)

/-- **How many nodes there are.** -/
theorem length_nodes {states : List State} (h : groupRows states = some nodes) :
    nodes.length = (nodeKeys states).length := by
  have hperm : (nodes.map KeyNode.key).Perm (nodeKeys states) :=
    (List.perm_ext_iff_of_nodup (groups_of_groupList h).holds.nodup (List.nodup_dedup _)).mpr
      fun _ => mem_keys_iff h
  rw [← hperm.length_eq, List.length_map]

/-- The states the table has nodes for. -/
theorem groups_length_le {states : List State} (h : groupRows states = some nodes) :
    nodes.length ≤ (headState :: states).dedup.length := by
  have hg := groups_of_groupList h
  have hsub : (nodes.map KeyNode.key).Subperm (headState :: states).dedup := by
    refine List.subperm_of_subset hg.holds.nodup fun s hs => ?_
    rw [List.mem_dedup, List.mem_cons]
    rcases hg.keys s hs with hc | hc
    · exact Or.inl hc
    · rw [List.zipIdx_map_fst] at hc
      exact Or.inr hc
  have hle := hsub.length_le
  rwa [List.length_map] at hle

/-- Nothing is known yet. -/
def emptyEntries (H : SlotMap State) (ε : Type) : Entries H ε :=
  ⟨H.create maxEntriesForeachState, fun _ => ⟨0, []⟩⟩

theorem not_known_emptyEntries (s : State) : ¬ Known (emptyEntries H ε) s :=
  fun hc => hc (H.lookup_create _ _)

theorem bucket_emptyEntries (s : State) : bucket (emptyEntries H ε) s = none := by
  simp [bucket, emptyEntries, H.lookup_create]

/-- There is room for ten keys. -/
theorem takes_of_length (hacc : H.AcceptsBelow) (hn : (nodes.map KeyNode.key).Nodup)
    (hlen : nodes.length ≤ maxEntriesForeachState) : TakesNodes (emptyEntries H ε) nodes := by
  refine @takes_of_room _ _ _ [] _
    (Or.inr ⟨hacc, fun s hs => absurd hs (not_known_emptyEntries s), ?_⟩) hn
  change _ ≤ H.capacity (H.create maxEntriesForeachState)
  rw [H.capacity_create, List.length_nil, Nat.zero_add]
  exact hlen

/-- **What a lookup finds under a state** whose key was taken with all
others. -/
theorem bucket_of_takes (hnodes : groupRows (entries.map state) = some nodes)
    (htakes : TakesNodes (emptyEntries H ε) nodes) (s : State) :
    (bucket (fillPool H entries (emptyEntries H ε) nodes) s).getD [] = nodeOf state entries s := by
  have hg := groups_of_groupList hnodes
  obtain ⟨hin, hout⟩ := @bucket_fillPool H ε entries _ nodes htakes hg.holds.nodup
    fun n _ => not_known_emptyEntries n.key
  by_cases hs : s ∈ nodes.map KeyNode.key
  · obtain ⟨n, hn, rfl⟩ := List.mem_map.1 hs
    rw [hin n hn, Option.getD_some]
    unfold bucketOf
    rw [hg.holds.rows n hn]
    exact filterMap_nodeOf entries state n.key
  · rw [hout s hs, bucket_emptyEntries, Option.getD_none, ← filterMap_nodeOf,
      hg.holds.missing s hs]
    rfl

/-- **What a lookup finds under a state** when the last key is refused: under
that key nothing. -/
theorem bucket_of_refused {front : List KeyNode} {n : KeyNode}
    (hnodes : groupRows (entries.map state) = some (front ++ [n]))
    (htakes : TakesNodes (emptyEntries H ε) front)
    (hrefused : ¬ TakesNodes (emptyEntries H ε) (front ++ [n])) (s : State) :
    (bucket (fillPool H entries (emptyEntries H ε) (front ++ [n])) s).getD [] =
      if s = n.key then [] else nodeOf state entries s := by
  have hg := groups_of_groupList hnodes
  have hnodup := hg.holds.nodup
  rw [List.map_append, List.map_singleton] at hnodup
  have hlast : n.key ∉ front.map KeyNode.key := fun hmem =>
    List.disjoint_of_nodup_append hnodup hmem (List.mem_singleton_self _)
  obtain ⟨hin, hout⟩ := @bucket_fillPool H ε entries _ front htakes
    (List.nodup_append.mp hnodup).1 fun m _ => not_known_emptyEntries m.key
  rw [bucket_fillPool_refused htakes hrefused]
  by_cases hsn : s = n.key
  · rw [if_pos hsn, hout s (hsn ▸ hlast), bucket_emptyEntries, Option.getD_none]
  rw [if_neg hsn]
  by_cases hs : s ∈ front.map KeyNode.key
  · obtain ⟨m, hm, rfl⟩ := List.mem_map.1 hs
    rw [hin m hm, Option.getD_some]
    unfold bucketOf
    rw [hg.holds.rows m (List.mem_append_left _ hm)]
    exact filterMap_nodeOf entries state m.key
  · have hmissing : s ∉ (front ++ [n]).map KeyNode.key := by
      rw [List.map_append, List.map_singleton, List.mem_append, List.mem_singleton, not_or]
      exact ⟨hs, hsn⟩
    rw [hout s hs, bucket_emptyEntries, Option.getD_none, ← filterMap_nodeOf,
      hg.holds.missing s hmissing]
    rfl

/-- **What a lookup finds under a state** of a created table. -/
theorem bucket_createEntries {E : Entries H ε}
    (hroom : H.NeverFull ∨ (H.AcceptsBelow ∧
      (headState :: entries.map state).dedup.length ≤ maxEntriesForeachState))
    (h : createEntries H entries state = some E) (s : State) :
    (bucket E s).getD [] = nodeOf state entries s := by
  unfold createEntries at h
  rw [Option.map_eq_some_iff] at h
  obtain ⟨nodes, hnodes, rfl⟩ := h
  have hnodup := (groups_of_groupList hnodes).holds.nodup
  refine bucket_of_takes hnodes ?_ s
  rcases hroom with hroom | ⟨hacc, hlen⟩
  · exact @takes_of_room _ _ _ [] _ (Or.inl hroom) hnodup
  · exact takes_of_length hacc hnodup ((groups_length_le hnodes).trans hlen)

end Create

/-! ## What looking a row up depends on -/

/-- Comparing a row reads the results of the conditions only. -/
theorem rowMatches_congr {rowResults results results' : Results} {n : ℕ}
    (h : ∀ i : Fin maxConditions, i.val < n → results i = results' i) {left : ℕ}
    (hleft : left ≤ n) :
    rowMatches rowResults results n left = rowMatches rowResults results' n left := by
  induction left with
  | zero => rfl
  | succ left ih =>
    unfold rowMatches
    by_cases hi : n - (left + 1) < maxConditions
    · rw [dif_pos hi, dif_pos hi, h ⟨n - (left + 1), hi⟩ (show n - (left + 1) < n by omega),
        ih (by omega)]
    · rw [dif_neg hi, dif_neg hi]

/-- So does scanning a bucket. -/
theorem scanBucket_congr {ε : Type} {rowResults : ε → Results} {results results' : Results} {n : ℕ}
    (h : ∀ i : Fin maxConditions, i.val < n → results i = results' i) (rows : List ε) :
    scanBucket rowResults results n rows = scanBucket rowResults results' n rows := by
  induction rows with
  | nil => rfl
  | cons row rows ih =>
    unfold scanBucket
    rw [rowMatches_congr h le_rfl, ih]

/-- A row looked up is a row of the bucket. -/
theorem mem_of_scanBucket {ε : Type} {rowResults : ε → Results} {results : Results} {n : ℕ}
    {rows : List ε} {row : ε} (h : scanBucket rowResults results n rows = some (some row)) :
    row ∈ rows := by
  induction rows with
  | nil => cases h
  | cons r rows ih =>
    unfold scanBucket at h
    cases hmatches : rowMatches (rowResults r) results n n with
    | none =>
      rw [hmatches] at h
      cases h
    | some b =>
      rw [hmatches] at h
      cases b with
      | true =>
        cases h
        exact List.mem_cons_self
      | false => exact List.mem_cons_of_mem _ (ih h)

/-- **A lookup reads the results of the conditions only.** -/
theorem xfsmTableLookup_congr {H : SlotMap State} {ε : Type} {E : Entries H ε}
    {rowResults : ε → Results} {results results' : Results} {n : ℕ}
    (h : ∀ i : Fin maxConditions, i.val < n → results i = results' i) (s : State) :
    xfsmTableLookup E rowResults n s results = xfsmTableLookup E rowResults n s results' := by
  unfold xfsmTableLookup
  cases bucket E s with
  | none => rfl
  | some rows => exact scanBucket_congr h rows

/-- With no more conditions than there is room for, comparing a row has a
result. -/
theorem rowMatches_isSome {rowResults results : Results} {n : ℕ} (hn : n ≤ maxConditions)
    {left : ℕ} (hleft : left ≤ n) : (rowMatches rowResults results n left).isSome = true := by
  induction left with
  | zero => rfl
  | succ left ih =>
    unfold rowMatches
    rw [dif_pos (by omega)]
    split
    · split
      · rfl
      · exact ih (by omega)
    · rfl

theorem scanBucket_isSome {ε : Type} {rowResults : ε → Results} {results : Results} {n : ℕ}
    (hn : n ≤ maxConditions) (rows : List ε) :
    (scanBucket rowResults results n rows).isSome = true := by
  induction rows with
  | nil => rfl
  | cons row rows ih =>
    obtain ⟨b, hb⟩ := Option.isSome_iff_exists.mp
      (@rowMatches_isSome (rowResults row) results n hn n le_rfl)
    unfold scanBucket
    rw [hb]
    cases b with
    | true => rfl
    | false => exact ih

/-- A row of these results matches an instance of those, as far as there
are conditions. -/
def agrees (n : ℕ) (rowResults results : Results) : Bool :=
  decide (∀ i : Fin maxConditions, i.val < n →
    rowResults i = .xfsmDontCare ∨ rowResults i = results i)

/-- Comparing a row, from a condition on. -/
theorem rowMatches_from {rowResults results : Results} {n : ℕ} (hn : n ≤ maxConditions) {left : ℕ}
    (hleft : left ≤ n) :
    rowMatches rowResults results n left =
      some (decide (0 < left ∧ ∀ i : Fin maxConditions, n - left ≤ i.val → i.val < n →
        rowResults i = .xfsmDontCare ∨ rowResults i = results i)) := by
  induction left with
  | zero => rfl
  | succ left ih =>
    have hi : n - (left + 1) < maxConditions := by omega
    have hfrom : (∀ i : Fin maxConditions, n - (left + 1) ≤ i.val → i.val < n →
          rowResults i = .xfsmDontCare ∨ rowResults i = results i) ↔
        (rowResults ⟨n - (left + 1), hi⟩ = .xfsmDontCare ∨
          rowResults ⟨n - (left + 1), hi⟩ = results ⟨n - (left + 1), hi⟩) ∧
        ∀ i : Fin maxConditions, n - left ≤ i.val → i.val < n →
          rowResults i = .xfsmDontCare ∨ rowResults i = results i := by
      constructor
      · refine fun h => ⟨h ⟨n - (left + 1), hi⟩ le_rfl ?_, fun i hle => h i (by omega)⟩
        show n - (left + 1) < n
        omega
      · rintro ⟨hfirst, hrest⟩ i hle hlt
        by_cases heq : i.val = n - (left + 1)
        · obtain rfl : i = ⟨n - (left + 1), hi⟩ := Fin.ext heq
          exact hfirst
        · exact hrest i (by omega) hlt
    unfold rowMatches
    rw [dif_pos hi]
    simp only [hfrom]
    split
    · next h =>
      split
      · next h0 =>
        -- the last condition: none is left to compare
        subst h0
        have hnone : ∀ i : Fin maxConditions, n - 0 ≤ i.val → i.val < n →
            rowResults i = .xfsmDontCare ∨ rowResults i = results i := fun i hle hlt => by omega
        rw [decide_eq_true ⟨by omega, h, hnone⟩]
      · next h0 =>
        rw [ih (by omega)]
        simp [h, Nat.pos_of_ne_zero h0]
    · next h => simp [h]

/-- **Comparing a row**: with no condition to compare, none matches. -/
theorem rowMatches_eq_agrees {rowResults results : Results} {n : ℕ} (hn : n ≤ maxConditions) :
    rowMatches rowResults results n n = some (decide (0 < n) && agrees n rowResults results) := by
  rw [rowMatches_from hn le_rfl]
  simp [agrees]

/-- **Scanning a bucket** finds the first row that matches. -/
theorem scanBucket_eq_find? {ε : Type} {rowResults : ε → Results} {results : Results} {n : ℕ}
    (hn : n ≤ maxConditions) (rows : List ε) :
    scanBucket rowResults results n rows =
      some (rows.find? fun row => decide (0 < n) && agrees n (rowResults row) results) := by
  induction rows with
  | nil => rfl
  | cons row rows ih =>
    unfold scanBucket
    rw [rowMatches_eq_agrees hn, List.find?_cons]
    cases decide (0 < n) && agrees n (rowResults row) results with
    | true => rfl
    | false => exact ih

/-- **A lookup** takes the first row of the state's bucket that matches. -/
theorem xfsmTableLookup_eq_find? {H : SlotMap State} {ε : Type} {E : Entries H ε}
    {rowResults : ε → Results} {results : Results} {n : ℕ} (hn : n ≤ maxConditions) (s : State) :
    xfsmTableLookup E rowResults n s results =
      some (((bucket E s).getD []).find? fun row =>
        decide (0 < n) && agrees n (rowResults row) results) := by
  unfold xfsmTableLookup
  cases bucket E s with
  | none => rfl
  | some rows => exact scanBucket_eq_find? hn rows

end Sw

end FlowBlaze
