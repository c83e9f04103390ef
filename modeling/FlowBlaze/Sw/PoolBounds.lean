import FlowBlaze.Sw.TableSpec
/-!
# The pool of buckets

The pool has a place for each row of the table, and a node's bucket goes
to the position that the hash hands out for its state. There is a node
for each state that rows have, and one for state 0 in any case: it is
there before the first row. So there can be one node more than there are
rows.
-/

namespace FlowBlaze

namespace Sw

open Common

variable {H : SlotMap State} {ε : Type} {entries : List ε} {state : ε → State}
  {states : List State} {list nodes : List KeyNode}

/-! ## The positions used -/

/-- **What the hash knows after the pool is filled**: the states it took. -/
theorem lookup_fillPool {E : Entries H ε} {n : ℕ} {known : List State}
    (h : H.Filled n E.entriesHmap known) (hn : (known ++ list.map KeyNode.key).Nodup) :
    ∃ s ks, H.Filled n s (known ++ ks) ∧
      H.lookup (fillPool H entries E list).entriesHmap = H.lookup s ∧
      ks.length = (H.addKeys E.entriesHmap (list.map KeyNode.key)).length := by
  induction list generalizing E known with
  | nil => exact ⟨_, [], by rwa [List.append_nil], rfl, rfl⟩
  | cons m list ih =>
    have habs : H.lookup E.entriesHmap m.key = none := by
      by_contra hne
      exact List.disjoint_of_nodup_append hn (h.lookup_ne_none_iff.mp hne) List.mem_cons_self
    unfold fillPool
    rw [List.map_cons]
    unfold SlotMap.addKeys
    cases hadd : H.add E.entriesHmap m.key with
    | mk hmap res =>
      have hhmap : (H.add E.entriesHmap m.key).1 = hmap := by rw [hadd]
      cases res with
      | none =>
        have hnone : (H.add E.entriesHmap m.key).2 = none := by rw [hadd]
        refine ⟨_, [], by rwa [List.append_nil], ?_, rfl⟩
        rw [← H.lookup_add_none hnone, hhmap]
      | some pos =>
        have hpos : (H.add E.entriesHmap m.key).2 = some pos := by rw [hadd]
        have hnext := h.add habs hpos
        rw [hhmap] at hnext
        obtain ⟨s, ks, hks, hlookup, hlength⟩ :=
          ih (E := ⟨hmap, Function.update E.stateEntriesPool pos (bucketOf entries m)⟩) hnext
            (by rwa [List.append_assoc, List.singleton_append])
        refine ⟨s, m.key :: ks, ?_, hlookup, ?_⟩
        · rwa [List.append_assoc, List.singleton_append] at hks
        · rw [List.length_cons, List.length_cons, hlength]

/-! ## How many nodes there are -/

/-- The states, each once, in the order in which they first come. -/
def firstSeen (states : List State) : List State := states.reverse.dedup.reverse

/-- A state that came before adds nothing. -/
theorem firstSeen_concat (states : List State) (s : State) :
    firstSeen (states ++ [s]) =
      if s ∈ states then firstSeen states else firstSeen states ++ [s] := by
  unfold firstSeen
  rw [List.reverse_concat]
  split
  · next hs => rw [List.dedup_cons_of_mem (List.mem_reverse.mpr hs)]
  · next hs => rw [List.dedup_cons_of_notMem (mt List.mem_reverse.mp hs), List.reverse_cons]

theorem mem_firstSeen {states : List State} {s : State} : s ∈ firstSeen states ↔ s ∈ states := by
  unfold firstSeen
  rw [List.mem_reverse, List.mem_dedup, List.mem_reverse]

theorem firstSeen_of_nodup {states : List State} (h : states.Nodup) :
    firstSeen states = states := by
  unfold firstSeen
  rw [(List.nodup_reverse.mpr h).dedup, List.reverse_reverse]

/-- **One row** adds its state behind the others, unless it is there. -/
theorem keys_of_groupRow {list : List KeyNode} {R : List (State × ℕ)} {s : State} {i : ℕ}
    (hg : Groups list R) (hs : stateNull ≠ s) (h : groupRow list s i = some nodes) :
    nodes.map KeyNode.key =
      if s ∈ list.map KeyNode.key then list.map KeyNode.key else list.map KeyNode.key ++ [s] := by
  by_cases hmem : s ∈ list.map KeyNode.key
  · rw [(hg.prepared_of_mem i hmem).groupRow_eq h, map_key_appendTo, if_pos hmem]
  · rw [(hg.prepared_new i hmem (Ne.symm hs)).groupRow_eq h, map_key_appendTo, if_neg hmem,
      List.map_append]
    rfl

/-- **The states of the nodes**, where none takes the head over: the head's
and those of the rows, in the order in which they first come. -/
theorem keys_of_groupRows (h : stateNull ∉ states) (hnodes : groupRows states = some nodes) :
    nodes.map KeyNode.key = firstSeen (headState :: states) := by
  -- over the rows, the last one first: the nodes are those of the rows before
  induction states using List.reverseRecOn generalizing nodes with
  | nil =>
    cases hnodes
    rfl
  | append_singleton states s ih =>
    rw [List.mem_append, List.mem_singleton, not_or] at h
    unfold groupRows at hnodes
    rw [List.zipIdx_append, List.foldlM_append] at hnodes
    obtain ⟨list, hlist, hnodes⟩ := Option.bind_eq_some_iff.mp hnodes
    have hkeys := ih h.1 hlist
    have hrow : groupRow list s (0 + states.length) = some nodes := (bind_pure _).symm.trans hnodes
    rw [keys_of_groupRow (groups_of_groupList hlist) h.2 hrow, ← List.cons_append,
      firstSeen_concat, hkeys]
    exact if_congr mem_firstSeen rfl rfl

/-- A state with a node of its own: neither that of the head nor the one
that takes the head over. -/
def Plain (states : List State) : Prop :=
  states.Nodup ∧ headState ∉ states ∧ stateNull ∉ states

/-- **Each row of a state of its own**: the nodes are the head and one for
each row. -/
theorem keys_of_plain (h : Plain states) (hnodes : groupRows states = some nodes) :
    nodes.map KeyNode.key = headState :: states := by
  rw [keys_of_groupRows h.2.2 hnodes, firstSeen_of_nodup (List.nodup_cons.mpr ⟨h.2.1, h.1⟩)]

/-- A row of a state that another row has, or that the head is for, needs
no node of its own. -/
theorem length_dedup_le_of_not_plain (h : ¬Plain states) (hnull : stateNull ∉ states) :
    (headState :: states).dedup.length ≤ states.length := by
  by_cases hhead : headState ∈ states
  · rw [List.dedup_cons_of_mem hhead]
    exact (List.dedup_sublist states).length_le
  · have hdup : ¬states.Nodup := fun hnodup => h ⟨hnodup, hhead, hnull⟩
    rw [List.dedup_cons_of_notMem hhead, List.length_cons]
    refine Nat.lt_of_le_of_ne (List.dedup_sublist states).length_le fun heq => hdup ?_
    rw [← (List.dedup_sublist states).eq_of_length heq]
    exact List.nodup_dedup states

/-- Where the head is taken over, every node is of a state that rows have. -/
theorem length_le_of_null (hnull : stateNull ∈ states) (hnodes : groupRows states = some nodes) :
    nodes.length ≤ states.dedup.length := by
  rw [length_nodes hnodes]
  have hsub : nodeKeys states ⊆ states.dedup := by
    intro s hs
    rw [List.mem_dedup]
    unfold nodeKeys at hs
    rw [if_pos hnull, List.mem_dedup, List.mem_cons] at hs
    rcases hs with rfl | hs
    · exact hnull
    · exact (List.mem_filter.mp hs).1
  exact (List.subperm_of_subset (List.nodup_dedup _) hsub).length_le

/-- Otherwise there are no more nodes than rows. -/
theorem length_le_of_not_plain (h : ¬Plain states) (hnodes : groupRows states = some nodes) :
    nodes.length ≤ states.length := by
  by_cases hnull : stateNull ∈ states
  · exact (length_le_of_null hnull hnodes).trans (List.dedup_sublist states).length_le
  · exact (groups_length_le hnodes).trans (length_dedup_le_of_not_plain h hnull)

/-! ## The bound -/

/-- **The table is created inside its pool**: each position that a bucket
is stored at, and each that a lookup is handed later, is one of as many as
the table has rows. -/
def StaysInPool (H : SlotMap State) (entries : List ε) (state : ε → State) : Prop :=
  ∃ nodes, groupRows (entries.map state) = some nodes ∧
    (∀ p ∈ H.addKeys (H.create maxEntriesForeachState) (nodes.map KeyNode.key),
      p < entries.length) ∧
    ∀ E, createEntries H entries state = some E →
      ∀ s p, H.lookup E.entriesHmap s = some p → p < entries.length

/-- The hash takes each of these states. -/
def TakesAll (H : SlotMap State) (keys : List State) : Prop :=
  (H.addKeys (H.create maxEntriesForeachState) keys).length = keys.length

/-- **No more keys are taken than there are rows**: the hash hands its
positions out in order. -/
theorem staysInPool_iff_length_le (hH : H.InOrder) :
    StaysInPool H entries state ↔ ∃ nodes, groupRows (entries.map state) = some nodes ∧
      (H.addKeys (H.create maxEntriesForeachState) (nodes.map KeyNode.key)).length ≤
        entries.length := by
  unfold StaysInPool createEntries
  refine exists_congr fun nodes => and_congr_right fun hnodes => ?_
  have hkeys := (groups_of_groupList hnodes).holds.nodup
  have hpositions : H.addKeys (H.create maxEntriesForeachState) (nodes.map KeyNode.key) = _ :=
    SlotMap.Filled.addKeys_eq hH .create (by exact hkeys)
  rw [List.length_nil, ← List.range_eq_range'] at hpositions
  constructor
  · rintro ⟨hpos, -⟩
    by_contra hlt
    refine absurd (hpos entries.length ?_) (Nat.lt_irrefl _)
    rw [hpositions, List.mem_range]
    exact Nat.lt_of_not_le hlt
  · intro hroom
    refine ⟨fun p hp => ?_, fun E hE s p hp => ?_⟩
    · rw [hpositions, List.mem_range] at hp
      exact Nat.lt_of_lt_of_le hp hroom
    -- what a lookup is handed is one of the positions stored at
    · rw [hnodes] at hE
      cases hE
      obtain ⟨s', ks, hfilled, hlookup, hks⟩ := @lookup_fillPool _ _ entries _
        ⟨H.create maxEntriesForeachState, fun _ => ⟨0, []⟩⟩ _ [] .create hkeys
      rw [List.nil_append] at hfilled
      rw [hlookup] at hp
      exact Nat.lt_of_lt_of_le (hfilled.lt_of_lookup hH hp) (hks ▸ hroom)

/-- Only the head can be one too many, where all others are needed. -/
theorem length_addKeys_le_iff (hnodes : groupRows (entries.map state) = some nodes) :
    (H.addKeys (H.create maxEntriesForeachState) (nodes.map KeyNode.key)).length ≤
        entries.length ↔
      (Plain (entries.map state) → ¬TakesAll H (headState :: entries.map state)) := by
  have hlength : (entries.map state).length = entries.length := List.length_map _
  have hle : (H.addKeys (H.create maxEntriesForeachState) (nodes.map KeyNode.key)).length ≤
      nodes.length := by
    rw [← List.length_map (f := KeyNode.key)]
    exact SlotMap.length_addKeys_le
  by_cases hplain : Plain (entries.map state)
  · have hkeys := keys_of_plain hplain hnodes
    have hcount := congrArg List.length hkeys
    rw [List.length_map, List.length_cons, hlength] at hcount
    unfold TakesAll
    rw [← hkeys, List.length_map]
    constructor
    · intro hroom _ htakes
      omega
    · intro h
      have hne := h hplain
      omega
  · exact iff_of_true (hle.trans ((length_le_of_not_plain hplain hnodes).trans_eq hlength))
      fun h => absurd h hplain

/-- **When the table is created inside its pool.** -/
theorem staysInPool_iff (hH : H.InOrder) :
    StaysInPool H entries state ↔
      (∀ s, (nodeOf state entries s).length ≤ maxEntriesForeachState) ∧
        (Plain (entries.map state) → ¬TakesAll H (headState :: entries.map state)) := by
  rw [staysInPool_iff_length_le hH, ← createEntries_isSome_iff (H := H)]
  unfold createEntries
  cases hnodes : groupRows (entries.map state) with
  | none =>
    refine iff_of_false ?_ fun h => absurd h.1 Bool.false_ne_true
    rintro ⟨nodes, h, -⟩
    cases h
  | some nodes =>
    rw [← length_addKeys_le_iff hnodes]
    constructor
    · rintro ⟨_, heq, hroom⟩
      cases heq
      exact ⟨rfl, hroom⟩
    · exact fun h => ⟨nodes, rfl, h.2⟩

/-- Two rows of one state, which leave room for the head. -/
theorem staysInPool_iff_two :
    StaysInPool (listSlotMap State) [7, 7] id ↔
      (∀ s, (nodeOf id ([7, 7] : List State) s).length ≤ maxEntriesForeachState) ∧
        (Plain (([7, 7] : List State).map id) →
          ¬TakesAll (listSlotMap State) (headState :: ([7, 7] : List State).map id)) :=
  staysInPool_iff (listSlotMap_inOrder State)

/-- **One row of another state than the head's** is stored past a pool of
one place. -/
theorem not_staysInPool : ¬StaysInPool (listSlotMap State) [7] id := by
  rintro ⟨nodes, hnodes, hpositions, -⟩
  cases hnodes
  exact absurd (hpositions 1 (by decide)) (by decide)

end Sw

end FlowBlaze
