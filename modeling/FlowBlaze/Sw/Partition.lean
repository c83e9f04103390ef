import FlowBlaze.Sw.TableSpec
/-!
# Creating a table partitions its rows

The bucket of a state holds the rows of that state, in order, for every
state, unless a row of state 0 comes before the first row of
`STATE_NULL`. Then that row takes over the node of state 0: the rows of
state 0 seen so far end under `STATE_NULL`, and under 0 they are lost.
-/

namespace FlowBlaze

namespace Sw

open Common

section Partition

variable {ε : Type} (H : SlotMap State) (entries : List ε) (state : ε → State)

/-- **The table is created, and under every state a lookup finds the rows
of that state**, each once and in order. -/
def Partitioned : Prop :=
  ∃ E, createEntries H entries state = some E ∧
    ∀ s, (bucket E s).getD [] = entries.filter fun e => state e == s

/-- No row of the head's state comes before the first row of
`STATE_NULL`, if there is one. -/
def NullFirst : Prop :=
  stateNull ∈ entries.map state →
    headState ∉ (entries.map state).takeWhile (· != stateNull)

/-- The tables in question: no state has more rows than a bucket holds,
and the states, with that of the head, fit the hash. -/
structure Fits : Prop where
  rows : ∀ s, (entries.filter fun e => state e == s).length ≤ maxEntriesForeachState
  states : (headState :: entries.map state).dedup.length ≤ maxEntriesForeachState

variable {H entries state} {s : State}

/-- The rows of state 0 that come before the first of `STATE_NULL`. -/
private theorem rowsOf_takeWhile_eq_nil_iff :
    rowsOf state (entries.takeWhile fun r => !isNull state r) headState = [] ↔
      headState ∉ (entries.map state).takeWhile (· != stateNull) := by
  rw [List.takeWhile_map, List.mem_map]
  unfold rowsOf
  rw [List.filter_eq_nil_iff]
  constructor
  · rintro h ⟨e, he, hs⟩
    exact h e he (by simp [hs])
  · intro h e he hs
    exact h ⟨e, he, by simpa using hs⟩

/-- A table grouped that way groups each state by itself. -/
theorem nodeOf_eq_of_nullFirst (h : NullFirst entries state) (s : State) :
    nodeOf state entries s = rowsOf state entries s := by
  unfold nodeOf
  cases hany : entries.any (isNull state) with
  | false => rfl
  | true =>
    have hnil := rowsOf_takeWhile_eq_nil_iff.2 (h (by simpa [isNull] using hany))
    simp only [if_true]
    by_cases hs : s = stateNull
    · rw [if_pos hs, hnil, hs, List.nil_append]
    · rw [if_neg hs]
      by_cases hs0 : s = headState
      · subst hs0
        have hsplit : rowsOf state (entries.takeWhile (fun r => !isNull state r) ++
            entries.dropWhile fun r => !isNull state r) headState = _ := rowsOf_append _
        rw [List.takeWhile_append_dropWhile, hnil, List.nil_append] at hsplit
        rw [if_pos rfl, hsplit]
      · rw [if_neg hs0]

/-- Otherwise `STATE_NULL` has more rows than it should. -/
theorem length_lt_of_not_nullFirst (h : ¬ NullFirst entries state) :
    (rowsOf state entries stateNull).length < (nodeOf state entries stateNull).length := by
  unfold NullFirst at h
  push Not at h
  obtain ⟨hnull, hhead⟩ := h
  have hany : entries.any (isNull state) = true := by simpa [isNull] using hnull
  have hne : rowsOf state (entries.takeWhile fun r => !isNull state r) headState ≠ [] :=
    fun hnil => rowsOf_takeWhile_eq_nil_iff.1 hnil hhead
  have hpos := List.length_pos_iff.2 hne
  unfold nodeOf
  rw [hany, if_pos rfl, if_pos rfl, List.length_append]
  omega

/-- A table whose buckets partition its rows is grouped that way. -/
theorem nullFirst_of_partitioned (hH : H.AcceptsBelow) (hfit : Fits entries state)
    (hpart : Partitioned H entries state) : NullFirst entries state := by
  obtain ⟨E, hE, hrows⟩ := hpart
  by_contra hnot
  have hlen := length_lt_of_not_nullFirst hnot
  rw [← bucket_createEntries (Or.inr ⟨hH, hfit.states⟩) hE, hrows stateNull] at hlen
  exact absurd hlen (lt_irrefl _)

/-- **When creating a table partitions its rows.** -/
theorem partitioned_iff (hH : H.AcceptsBelow) (hfit : Fits entries state) :
    Partitioned H entries state ↔ NullFirst entries state := by
  refine ⟨nullFirst_of_partitioned hH hfit, fun hnull => ?_⟩
  have hnode := nodeOf_eq_of_nullFirst hnull
  have hsome := (createEntries_isSome_iff (H := H)).2 fun s => by
    rw [hnode s]
    exact hfit.rows s
  obtain ⟨E, hE⟩ := Option.isSome_iff_exists.1 hsome
  refine ⟨E, hE, fun s => ?_⟩
  rw [bucket_createEntries (Or.inr ⟨hH, hfit.states⟩) hE, hnode s]
  rfl

/-- Few rows fit. -/
private theorem fits_of_length (entries : List State) (hrows : entries.length ≤ 9) :
    Fits entries id where
  rows s := (List.length_filter_le ..).trans (by unfold maxEntriesForeachState; omega)
  states := by
    refine (List.dedup_sublist _).length_le.trans ?_
    rw [List.length_cons, List.length_map]
    unfold maxEntriesForeachState
    omega

/-- A table whose rows of state 0 follow those of `STATE_NULL`. -/
theorem partitioned_iff_instance :
    Partitioned (listSlotMap State) [7, 255, 0, 7] id ↔
      NullFirst ([7, 255, 0, 7] : List State) id :=
  partitioned_iff (SlotMap.AcceptsBelow.of_neverFull (listSlotMap_neverFull State))
    (fits_of_length _ (by decide))

/-- **The other order loses a row**: it ends in another state's bucket. -/
theorem not_partitioned :
    ¬ ∀ (ε : Type) (H : SlotMap State) (entries : List ε) (state : ε → State),
      H.AcceptsBelow → Fits entries state → Partitioned H entries state := by
  intro hall
  have hH := SlotMap.AcceptsBelow.of_neverFull (listSlotMap_neverFull State)
  have hfit := fits_of_length [0, 255] (by decide)
  have hnull := nullFirst_of_partitioned hH hfit
    (hall State (listSlotMap State) [0, 255] id hH hfit)
  exact absurd hnull (by unfold NullFirst; decide)

end Partition

end Sw

end FlowBlaze
