import Mathlib.Data.Fintype.Prod
import Mathlib.Data.Finset.Card
import Mathlib.Logic.Function.Basic
/-!
# Several hash tables side by side

A multi-way hash table is a family of arrays, one for each way, and a
hash function for each way that says where a key may live in it. What a
lookup needs is `Placed`: every entry sits at the address its way's hash
gives its key, and no key sits in two ways. This file says what one
write does to the contents under that invariant: erasing an entry, and
storing a key that is nowhere else, which may push another entry out.
`size` counts the entries, and moves with every write.
-/

namespace FlowBlaze

namespace Common

variable {I A K V : Type}

/-- The arrays of a multi-way table. -/
abbrev Tables (I A K V : Type) := I → A → Option (K × V)

namespace Tables

variable {addr : I → K → A} {T : Tables I A K V} {i j : I} {a b : A} {k k' : K} {v v' : V}

/-- The table holds the key with the value. -/
def Maps (T : Tables I A K V) (k : K) (v : V) : Prop := ∃ i a, T i a = some (k, v)

/-- The table holds the key. -/
def Has (T : Tables I A K V) (k : K) : Prop := ∃ v, T.Maps k v

/-- **Every entry is where its hash says, and no key is in two ways.** -/
structure Placed (addr : I → K → A) (T : Tables I A K V) : Prop where
  home : ∀ {i a k v}, T i a = some (k, v) → a = addr i k
  unique : ∀ {i a j b k v v'}, T i a = some (k, v) → T j b = some (k, v') → i = j

/-- An empty table is placed. -/
theorem placed_of_empty (h : ∀ i a, T i a = none) : Placed addr T where
  home h' := by rw [h] at h'; cases h'
  unique h' := by rw [h] at h'; cases h'

/-- A placed table holds a key with one value. -/
theorem Placed.value_unique (h : Placed addr T) (hv : T.Maps k v) (hv' : T.Maps k v') :
    v = v' := by
  obtain ⟨i, a, hia⟩ := hv
  obtain ⟨j, b, hjb⟩ := hv'
  have hij : i = j := h.unique hia hjb
  subst hij
  have hab : a = b := by rw [h.home hia, h.home hjb]
  subst hab
  rw [hia] at hjb
  cases hjb
  rfl

/-- A lookup of a placed table needs one read in each way. -/
theorem Placed.maps_iff (h : Placed addr T) :
    T.Maps k v ↔ ∃ i, T i (addr i k) = some (k, v) := by
  constructor
  · rintro ⟨i, a, hia⟩
    exact ⟨i, by rw [← h.home hia]; exact hia⟩
  · rintro ⟨i, hi⟩
    exact ⟨i, _, hi⟩

/-- A cell is the only place a key may be in already. -/
def OnlyAt (T : Tables I A K V) (i : I) (a : A) (k : K) : Prop :=
  ∀ {j b v}, T j b = some (k, v) → j = i ∧ b = a

theorem onlyAt_of_not_has (h : ¬ T.Has k) : T.OnlyAt i a k :=
  fun hjb => absurd ⟨_, _, _, hjb⟩ h

/-- A key found in a cell is in no other. -/
theorem Placed.onlyAt (h : Placed addr T) (hk : T i a = some (k, v)) : T.OnlyAt i a k := by
  intro j b v' hjb
  have hj : j = i := h.unique hjb hk
  subst hj
  exact ⟨rfl, by rw [h.home hjb, h.home hk]⟩

section Write

variable [DecidableEq I] [DecidableEq A]

/-- The table after one cell was written. -/
def write (T : Tables I A K V) (i : I) (a : A) (e : Option (K × V)) : Tables I A K V :=
  Function.update T i (Function.update (T i) a e)

@[simp] theorem write_self (e : Option (K × V)) : T.write i a e i a = e := by
  simp [write]

theorem write_of_ne {e : Option (K × V)} (h : ¬ (j = i ∧ b = a)) : T.write i a e j b = T j b := by
  unfold write
  by_cases hj : j = i
  · subst hj
    rw [Function.update_self, Function.update_of_ne fun hb => h ⟨rfl, hb⟩]
  · rw [Function.update_of_ne hj]

/-- What a cell holds after a write. -/
theorem write_apply (e : Option (K × V)) :
    T.write i a e j b = if j = i ∧ b = a then e else T j b := by
  by_cases h : j = i ∧ b = a
  · obtain ⟨rfl, rfl⟩ := h
    simp
  · rw [write_of_ne h, if_neg h]

/-- Erasing the entry of a key keeps the table placed. -/
theorem Placed.erase (h : Placed addr T) : Placed addr (T.write i a none) where
  home {j b k v} hjb := by
    rw [write_apply] at hjb
    split at hjb
    · cases hjb
    · exact h.home hjb
  unique {j b j' b' k v v'} h₁ h₂ := by
    rw [write_apply] at h₁ h₂
    split at h₁
    · cases h₁
    split at h₂
    · cases h₂
    exact h.unique h₁ h₂

/-- The entries that are left when one is erased. -/
theorem maps_write_none :
    (T.write i a none).Maps k' v' ↔ ∃ j b, T j b = some (k', v') ∧ ¬ (j = i ∧ b = a) := by
  refine exists_congr fun j => exists_congr fun b => ?_
  rw [write_apply]
  split
  · rename_i hcell
    exact iff_of_false (by simp) fun h => h.2 hcell
  · rename_i hcell
    exact (and_iff_left hcell).symm

/-- Erasing an entry leaves every other key alone. -/
theorem maps_erase_of_ne (hk : T i a = some (k, v)) (hne : k' ≠ k) :
    (T.write i a none).Maps k' v' ↔ T.Maps k' v' := by
  rw [maps_write_none]
  refine exists_congr fun j => exists_congr fun b => and_iff_left_of_imp ?_
  rintro hjb ⟨rfl, rfl⟩
  rw [hk] at hjb
  cases hjb
  exact hne rfl

/-- **Erasing the entry of a key removes that key and no other.** -/
theorem Placed.maps_erase (h : Placed addr T) (hk : T i a = some (k, v)) :
    (T.write i a none).Maps k' v' ↔ k' ≠ k ∧ T.Maps k' v' := by
  by_cases hne : k' = k
  · subst hne
    rw [maps_write_none]
    refine iff_of_false ?_ fun hboth => hboth.1 rfl
    rintro ⟨j, b, hjb, hcell⟩
    exact hcell (h.onlyAt hk hjb)
  · rw [maps_erase_of_ne hk hne, and_iff_right hne]

/-- Storing a key at its address keeps the table placed, when the key is
nowhere else. -/
theorem Placed.store (h : Placed addr T) (hk : T.OnlyAt i (addr i k) k) :
    Placed addr (T.write i (addr i k) (some (k, v))) where
  home {j b k' v'} hjb := by
    rw [write_apply] at hjb
    split at hjb
    · rename_i hcell
      cases hjb
      obtain ⟨rfl, rfl⟩ := hcell
      rfl
    · exact h.home hjb
  unique {j b j' b' k' w w'} h₁ h₂ := by
    rw [write_apply] at h₁ h₂
    split at h₁ <;> split at h₂
    · rename_i hc₁ hc₂
      rw [hc₁.1, hc₂.1]
    · rename_i hc₁ hc₂
      cases h₁
      exact absurd (hk h₂) hc₂
    · rename_i hc₁ hc₂
      cases h₂
      exact absurd (hk h₁) hc₁
    · exact h.unique h₁ h₂

/-- **Storing a key changes that key and loses at most the entry that was
in the cell.** -/
theorem maps_store (hk : T.OnlyAt i a k) :
    (T.write i a (some (k, v))).Maps k' v' ↔
      (k' = k ∧ v' = v) ∨ (k' ≠ k ∧ ∃ j b, T j b = some (k', v') ∧ ¬ (j = i ∧ b = a)) := by
  constructor
  · rintro ⟨j, b, hjb⟩
    rw [write_apply] at hjb
    split at hjb
    · cases hjb
      exact Or.inl ⟨rfl, rfl⟩
    · rename_i hcell
      refine Or.inr ⟨?_, j, b, hjb, hcell⟩
      rintro rfl
      exact hcell (hk hjb)
  · rintro (⟨rfl, rfl⟩ | ⟨-, j, b, hjb, hcell⟩)
    · exact ⟨i, a, write_self _⟩
    · exact ⟨j, b, by rw [write_of_ne hcell, hjb]⟩

/-! ## Counting the entries -/

variable [Fintype I] [Fintype A]

/-- How many cells hold an entry. -/
def size (T : Tables I A K V) : ℕ :=
  (Finset.univ.filter fun c : I × A => (T c.1 c.2).isSome).card

omit [DecidableEq I] [DecidableEq A] in
/-- The count does not depend on how an occupied cell is told. -/
theorem size_eq {q : I → A → Bool} (h : ∀ i a, (T i a).isSome = q i a) :
    T.size = (Finset.univ.filter fun c : I × A => q c.1 c.2).card := by
  unfold size
  simp only [h]

omit [DecidableEq I] [DecidableEq A] in
/-- There are at most as many entries as cells. -/
theorem size_le : T.size ≤ Fintype.card I * Fintype.card A := by
  rw [← Fintype.card_prod]
  exact Finset.card_le_univ _

omit [DecidableEq I] [DecidableEq A] in
theorem size_of_empty (h : ∀ i a, T i a = none) : T.size = 0 := by
  unfold size
  rw [Finset.card_eq_zero, Finset.filter_eq_empty_iff]
  intro c _
  simp [h]

/-- The occupied cells but one, which a write to that one leaves alone. -/
private theorem filter_erase_write (e : Option (K × V)) :
    (Finset.univ.filter fun c : I × A => (T.write i a e c.1 c.2).isSome).erase (i, a) =
      (Finset.univ.filter fun c : I × A => (T c.1 c.2).isSome).erase (i, a) := by
  ext ⟨j, b⟩
  simp only [Finset.mem_erase, Finset.mem_filter, Finset.mem_univ, true_and, ne_eq,
    Prod.mk.injEq]
  constructor
  · rintro ⟨hne, hs⟩
    exact ⟨hne, by rwa [write_of_ne hne] at hs⟩
  · rintro ⟨hne, hs⟩
    exact ⟨hne, by rwa [write_of_ne hne]⟩

/-- The occupied cells are the others and, when it is occupied, this one. -/
private theorem size_eq_erase (T : Tables I A K V) (i : I) (a : A) :
    T.size = ((Finset.univ.filter fun c : I × A => (T c.1 c.2).isSome).erase (i, a)).card +
      (if (T i a).isSome then 1 else 0) := by
  unfold size
  by_cases h : (T i a).isSome
  · rw [if_pos h, Finset.card_erase_add_one]
    simpa using h
  · rw [if_neg h, Finset.erase_eq_of_notMem, Nat.add_zero]
    simpa using h

/-- **A write moves the count by what it changes in its cell.** -/
theorem size_write (e : Option (K × V)) :
    (T.write i a e).size + (if (T i a).isSome then 1 else 0) =
      T.size + (if e.isSome then 1 else 0) := by
  rw [size_eq_erase (T.write i a e) i a, size_eq_erase T i a, filter_erase_write, write_self]
  omega

end Write

end Tables

end Common

end FlowBlaze
