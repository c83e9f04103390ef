import FlowBlaze.Hw.Stash
import Mathlib.Logic.Function.Basic
/-!
# What the stash does

The seats as a partial map, and the four things a cycle does to them:
nothing, forgetting one key, taking an entry in, or evicting the entry
that comes in because every seat is taken.
-/

namespace FlowBlaze

namespace Hw

/-- What a seat stores. -/
def Seat.entry (e : Seat) : Option (Key × Value) :=
  if e.occupied then some (e.key, e.value) else none

namespace StashReg

variable {s : StashReg} {p : StashIn} {i j : Fin 8} {k : Key} {v w : Value}

/-- What the seats store. -/
def entries (s : StashReg) : Fin 8 → Option (Key × Value) := fun i => (s.stash i).entry

/-- The stash holds the entry. -/
def Holds (s : StashReg) (k : Key) (v : Value) : Prop := ∃ i, s.entries i = some (k, v)

/-- No key has two seats. -/
def Distinct (s : StashReg) : Prop :=
  ∀ {i j k v w}, s.entries i = some (k, v) → s.entries j = some (k, w) → i = j

theorem entries_eq_none : s.entries i = none ↔ (s.stash i).occupied = false := by
  unfold entries Seat.entry
  cases (s.stash i).occupied <;> simp

theorem entries_eq_some :
    s.entries i = some (k, v) ↔
      (s.stash i).occupied = true ∧ (s.stash i).key = k ∧ (s.stash i).value = v := by
  unfold entries Seat.entry
  cases (s.stash i).occupied <;> simp

/-- A seat is asked for when it holds the key at the `search_key` port. -/
theorem asked_iff : s.asked p i = true ↔ ∃ v, s.entries i = some (p.searchKey, v) := by
  unfold asked
  constructor
  · intro h
    rw [Bool.and_eq_true, beq_iff_eq] at h
    exact ⟨_, entries_eq_some.2 ⟨h.2, h.1, rfl⟩⟩
  · rintro ⟨v, hv⟩
    obtain ⟨ho, hk, -⟩ := entries_eq_some.1 hv
    rw [Bool.and_eq_true, beq_iff_eq]
    exact ⟨hk, ho⟩

/-- When `not_empty` is driven, the outputs show an entry of the stash. -/
theorem holds_out (h : s.notEmpty = true) : s.Holds s.keyOut s.valueOut := by
  unfold notEmpty at h
  rw [Bool.and_eq_true] at h
  obtain ⟨i, hi⟩ := Option.isSome_iff_exists.1 h.1
  have hmem := List.mem_of_getLast? hi
  rw [List.mem_filter] at hmem
  refine ⟨i, entries_eq_some.2 ⟨hmem.2, ?_, ?_⟩⟩
  · simp [keyOut, hi]
  · simp [valueOut, hi]

/-- Of two entries with one key in distinct seats the values agree. -/
theorem Distinct.value_unique (h : s.Distinct) (hv : s.Holds k v) (hw : s.Holds k w) : v = w := by
  obtain ⟨i, hi⟩ := hv
  obtain ⟨j, hj⟩ := hw
  have hij : i = j := h hi hj
  subst hij
  rw [hi] at hj
  cases hj
  rfl

/-! ## The cycles -/

/-- Only an insertion counts an eviction. -/
theorem evicted_next (hrst : p.reset = false) (hins : p.insert = false) :
    (s.next p).intEvictedEntry = s.intEvictedEntry := by
  simp [next, hrst, hins]

/-- A cycle that asks for no change changes nothing. An update writing
the value that is there is no change. -/
theorem next_keep (hrst : p.reset = false) (hins : p.insert = false) (hrem : p.remove = false)
    (hupd : p.update = true → ∀ i v, s.entries i = some (p.searchKey, v) → v = p.value) :
    (s.next p).entries = s.entries ∧
      (s.next p).intEvictedEntry = s.intEvictedEntry := by
  refine ⟨?_, evicted_next hrst hins⟩
  funext i
  show Seat.entry ((s.next p).stash i) = Seat.entry (s.stash i)
  simp only [next, hrst, nextSeat, hins, hrem]
  by_cases ha : s.asked p i = true
  · obtain ⟨v, hv⟩ := asked_iff.1 ha
    obtain ⟨ho, hk, hval⟩ := entries_eq_some.1 hv
    rw [if_pos ha]
    cases hu : p.update with
    | false => simp [Seat.entry, ho]
    | true => simp [Seat.entry, ho, hval, ← hupd hu i v hv]
  · simp [ha]

/-- A removal forgets the key at the `search_key` port. -/
theorem next_remove (hrst : p.reset = false) (hins : p.insert = false) (hrem : p.remove = true) :
    (∀ i k v, (s.next p).entries i = some (k, v) ↔
      s.entries i = some (k, v) ∧ k ≠ p.searchKey) ∧
      (s.next p).intEvictedEntry = s.intEvictedEntry := by
  refine ⟨fun i k v => ?_, evicted_next hrst hins⟩
  by_cases ha : s.asked p i = true
  · have hnone : (s.next p).entries i = none := by
      rw [entries_eq_none]
      simp [next, hrst, nextSeat, ha, hrem]
    rw [hnone]
    obtain ⟨w, hw⟩ := asked_iff.1 ha
    rw [hw]
    simp only [reduceCtorEq, Option.some.injEq, Prod.mk.injEq, false_iff, not_and, ne_eq]
    rintro ⟨rfl, -⟩ hne
    exact hne rfl
  · have hsame : (s.next p).entries i = s.entries i := by
      unfold entries
      simp [next, hrst, nextSeat, ha, hins]
    rw [hsame]
    constructor
    · intro h
      refine ⟨h, ?_⟩
      rintro rfl
      exact ha (asked_iff.2 ⟨v, h⟩)
    · exact And.left

/-- **An insertion takes a free seat, or counts an eviction.** -/
theorem next_insert (hrst : p.reset = false) (hins : p.insert = true) (hrem : p.remove = false)
    (hupd : p.update = false) :
    (∃ i, s.entries i = none ∧
        (s.next p).entries = Function.update s.entries i (some (p.key, p.value)) ∧
        (s.next p).intEvictedEntry = s.intEvictedEntry) ∨
      ((∀ i, s.entries i ≠ none) ∧ (s.next p).entries = s.entries ∧
        (s.next p).intEvictedEntry = s.intEvictedEntry + 1) := by
  have hseat : ∀ j, (s.next p).stash j =
      if s.freeSeat == some j then ⟨true, p.value, p.key⟩ else s.stash j := by
    intro j
    simp only [next, hrst, nextSeat, hins, hrem, hupd]
    by_cases ha : s.asked p j = true
    · obtain ⟨v, hv⟩ := asked_iff.1 ha
      obtain ⟨ho, -, -⟩ := entries_eq_some.1 hv
      have hnf : ¬ s.freeSeat = some j := by
        intro hf
        have := List.find?_some hf
        simp [ho] at this
      simp [ha, hnf]
      rw [← ho]
    · simp [ha]
  -- the first free seat is taken, if there is one
  cases hf : s.freeSeat with
  | some i =>
    have hi : (s.stash i).occupied = false := by simpa using List.find?_some hf
    refine Or.inl ⟨i, entries_eq_none.2 hi, ?_, ?_⟩
    · funext j
      show Seat.entry ((s.next p).stash j) = _
      rw [hseat j, hf]
      by_cases hj : j = i
      · subst hj
        simp [Seat.entry]
      · rw [Function.update_of_ne hj]
        have hj' : ¬ i = j := fun h => hj h.symm
        simp [hj', entries]
    · simp [next, hrst, hf]
  | none =>
    have hfull : ∀ i, (s.stash i).occupied = true := by
      intro i
      have := List.find?_eq_none.1 hf i (mem_seats i)
      simpa using this
    refine Or.inr ⟨?_, ?_, ?_⟩
    · intro i hn
      rw [entries_eq_none, hfull i] at hn
      cases hn
    · funext j
      show Seat.entry ((s.next p).stash j) = _
      rw [hseat j, hf]
      rfl
    · simp [next, hrst, hins, hf]

end StashReg

end Hw

end FlowBlaze
