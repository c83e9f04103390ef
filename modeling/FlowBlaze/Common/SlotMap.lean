import Mathlib.Data.List.Basic
import Mathlib.Data.List.Nodup
import Mathlib.Data.List.Perm.Subperm
import Mathlib.Logic.Function.Basic
/-!
# Slot maps

A slot map is a finite map from keys to *positions*: adding a key hands
out a position no other key holds, deleting a key gives its position
back, and a later key may be handed a position given back before. A
caller keeps its own array indexed by the positions. This is what a
library hash table promises a caller that owns the payload, and nothing
else about it is used.

`SlotMap` is the interface with its laws; `listSlotMap` is one
implementation, which hands out the least free position and refuses no
key. `NeverFull` and `AcceptsBelow` are the two readings of "there is
room" a caller may need.
-/

namespace FlowBlaze

namespace Common

variable {K : Type} [DecidableEq K]

/-- **A finite map from keys to positions.** The state is abstract, so
the position a new key is handed may depend on the whole history. -/
structure SlotMap (K : Type) [DecidableEq K] where
  /-- What the map remembers. -/
  State : Type
  /-- An empty map for at most this many keys. -/
  create : ℕ → State
  /-- How many keys the map was created for. -/
  capacity : State → ℕ
  /-- The position of a key, if it is there. -/
  lookup : State → K → Option ℕ
  /-- Add a key; `none` when it is refused. -/
  add : State → K → State × Option ℕ
  /-- Delete a key; `none` when it is not there. -/
  del : State → K → State × Option ℕ
  lookup_create : ∀ n k, lookup (create n) k = none
  capacity_create : ∀ n, capacity (create n) = n
  capacity_add : ∀ s k, capacity (add s k).1 = capacity s
  capacity_del : ∀ s k, capacity (del s k).1 = capacity s
  lookup_inj : ∀ {s k k' p}, lookup s k = some p → lookup s k' = some p → k = k'
  add_present : ∀ {s k p}, lookup s k = some p → (add s k).2 = some p
  lookup_add_some : ∀ {s k p}, (add s k).2 = some p →
    lookup (add s k).1 = Function.update (lookup s) k (some p)
  lookup_add_none : ∀ {s k}, (add s k).2 = none → lookup (add s k).1 = lookup s
  del_result : ∀ s k, (del s k).2 = lookup s k
  lookup_del : ∀ s k, lookup (del s k).1 = Function.update (lookup s) k none

namespace SlotMap

variable (H : SlotMap K)

/-- A position is taken when some key holds it. -/
def Taken (s : H.State) (p : ℕ) : Prop := ∃ k, H.lookup s k = some p

/-- **No key is ever refused**: the map is a finite map without a bound. -/
def NeverFull : Prop := ∀ s k, (H.add s k).2 ≠ none

/-- **A new key is accepted while the map holds fewer keys than it was
created for.** The keys it holds are bounded by any list covering them. -/
def AcceptsBelow : Prop :=
  ∀ s k (ks : List K), (∀ k', H.lookup s k' ≠ none → k' ∈ ks) → ks.length < H.capacity s →
    (H.add s k).2 ≠ none

variable {H} {s : H.State} {k k' : K} {p : ℕ}

theorem AcceptsBelow.of_neverFull (h : H.NeverFull) : H.AcceptsBelow :=
  fun s k _ _ _ => h s k

theorem lookup_add_self (h : (H.add s k).2 = some p) : H.lookup (H.add s k).1 k = some p := by
  rw [H.lookup_add_some h, Function.update_self]

theorem lookup_add_of_ne (h : (H.add s k).2 = some p) (hne : k' ≠ k) :
    H.lookup (H.add s k).1 k' = H.lookup s k' := by
  rw [H.lookup_add_some h, Function.update_of_ne hne]

/-- **The position a new key is handed is free.** -/
theorem not_taken_of_add (habs : H.lookup s k = none) (h : (H.add s k).2 = some p) :
    ¬ H.Taken s p := by
  rintro ⟨k', hk'⟩
  have hne : k' ≠ k := by
    rintro rfl
    rw [habs] at hk'
    cases hk'
  have hnew : H.lookup (H.add s k).1 k' = some p := by
    rw [lookup_add_of_ne h hne]
    exact hk'
  exact hne (H.lookup_inj hnew (lookup_add_self h))

/-! ## Adding keys in turn -/

variable (H)

/-- The positions handed out for keys that are added one after the other,
up to the first that is refused. -/
def addKeys (s : H.State) : List K → List ℕ
  | [] => []
  | k :: ks =>
    match H.add s k with
    | (s', some p) => p :: addKeys s' ks
    | (_, none) => []

/-- **What a map holds to which keys were only added**: these keys, in this
order. -/
inductive Filled (n : ℕ) : H.State → List K → Prop
  | create : Filled n (H.create n) []
  | add {s : H.State} {ks : List K} {k : K} {p : ℕ} (h : Filled n s ks)
    (habs : H.lookup s k = none) (hadd : (H.add s k).2 = some p) :
    Filled n (H.add s k).1 (ks ++ [k])

/-- **Positions are 0, 1, 2, and so on**, in the order of insertion. -/
def InOrder : Prop :=
  ∀ {n s ks k p}, H.Filled n s ks → H.lookup s k = none → (H.add s k).2 = some p → p = ks.length

variable {H} {n : ℕ} {ks keys : List K}

/-- No more positions than keys. -/
theorem length_addKeys_le : (H.addKeys s keys).length ≤ keys.length := by
  induction keys generalizing s with
  | nil => exact Nat.le_refl _
  | cons k keys ih =>
    unfold addKeys
    split
    · exact Nat.succ_le_succ ih
    · exact Nat.zero_le _

/-- **The map holds exactly these keys.** -/
theorem Filled.lookup_ne_none_iff (h : H.Filled n s ks) : H.lookup s k ≠ none ↔ k ∈ ks := by
  induction h with
  | create => simp [H.lookup_create]
  | @add s ks k' p h habs hadd ih =>
    rw [List.mem_append, List.mem_singleton]
    by_cases hk : k = k'
    · rw [hk, lookup_add_self hadd]
      exact iff_of_true (fun h => by cases h) (.inr rfl)
    · rw [lookup_add_of_ne hadd hk, ih]
      exact ⟨.inl, fun h => h.resolve_right hk⟩

/-- Nobody holds a position past those handed out. -/
theorem Filled.lt_of_lookup (hH : H.InOrder) (h : H.Filled n s ks) (hk : H.lookup s k = some p) :
    p < ks.length := by
  induction h generalizing k p with
  | create =>
    rw [H.lookup_create] at hk
    cases hk
  | @add s ks k' q h habs hadd ih =>
    rw [List.length_append, List.length_singleton]
    by_cases hk' : k = k'
    · rw [hk', lookup_add_self hadd] at hk
      cases hk
      rw [hH h habs hadd]
      exact Nat.lt_succ_self _
    · rw [lookup_add_of_ne hadd hk'] at hk
      exact Nat.lt_succ_of_lt (ih hk)

/-- **New keys get the next positions**, as many of them as are taken. -/
theorem Filled.addKeys_eq (hH : H.InOrder) (h : H.Filled n s ks) (hkeys : (ks ++ keys).Nodup) :
    H.addKeys s keys = List.range' ks.length (H.addKeys s keys).length := by
  induction keys generalizing s ks with
  | nil => rfl
  | cons k keys ih =>
    have habs : H.lookup s k = none := by
      by_contra hne
      exact List.disjoint_of_nodup_append hkeys (h.lookup_ne_none_iff.mp hne) List.mem_cons_self
    unfold addKeys
    cases hadd : H.add s k with
    | mk s' q =>
      cases q with
      | none => rfl
      | some p =>
        have hp : (H.add s k).2 = some p := by rw [hadd]
        have hnext := h.add habs hp
        have hs' : (H.add s k).1 = s' := by rw [hadd]
        rw [hs'] at hnext
        have hrest := ih hnext (by rwa [List.append_assoc, List.singleton_append])
        rw [List.length_append, List.length_singleton] at hrest
        simp only [List.length_cons, List.range'_succ]
        rw [← hrest, hH h habs hp]

end SlotMap

/-! ## An implementation -/

/-- The keys and positions of a list map, each at most once. -/
structure ListMap (K : Type) where
  /-- The keys with their positions. -/
  entries : List (K × ℕ)
  /-- How many keys the map was created for. -/
  capacity : ℕ
  nodup_keys : (entries.map Prod.fst).Nodup
  nodup_slots : (entries.map Prod.snd).Nodup

namespace ListMap

/-- The position a list of entries gives a key. -/
def find (l : List (K × ℕ)) (k : K) : Option ℕ :=
  (l.find? (fun e => e.1 == k)).map Prod.snd

/-- The least position a list of positions leaves free. -/
def freeSlot (used : List ℕ) : ℕ :=
  ((List.range (used.length + 1)).find? (fun p => !used.contains p)).getD 0

theorem freeSlot_notMem (used : List ℕ) : freeSlot used ∉ used := by
  have hex : ∃ p ∈ List.range (used.length + 1), p ∉ used := by
    by_contra hall
    push Not at hall
    have hsub : (List.range (used.length + 1)).Subperm used :=
      List.nodup_range.subperm hall
    have hlen := hsub.length_le
    rw [List.length_range] at hlen
    omega
  obtain ⟨p, hp, hfree⟩ := hex
  unfold freeSlot
  cases hf : (List.range (used.length + 1)).find? (fun p => !used.contains p) with
  | none =>
    rw [List.find?_eq_none] at hf
    have := hf p hp
    simp [hfree] at this
  | some q =>
    have hq := List.find?_some hf
    simpa using hq

theorem find_cons (k k' : K) (p : ℕ) (l : List (K × ℕ)) :
    find ((k, p) :: l) k' = if k' = k then some p else find l k' := by
  by_cases h : k' = k
  · subst h
    simp [find]
  · have h' : ¬ k = k' := fun hc => h hc.symm
    simp [find, h, h']

theorem find_eq_some_iff {l : List (K × ℕ)} (hn : (l.map Prod.fst).Nodup) {k : K} {p : ℕ} :
    find l k = some p ↔ (k, p) ∈ l := by
  induction l with
  | nil => simp [find]
  | cons e l ih =>
    obtain ⟨k', q⟩ := e
    rw [List.map_cons, List.nodup_cons] at hn
    rw [find_cons, List.mem_cons]
    by_cases h : k = k'
    · subst h
      have hno : (k, p) ∉ l := fun hm => hn.1 (List.mem_map.2 ⟨_, hm, rfl⟩)
      simp [hno, eq_comm]
    · simp [h, ih hn.2]

theorem find_eq_none_iff {l : List (K × ℕ)} {k : K} :
    find l k = none ↔ k ∉ l.map Prod.fst := by
  induction l with
  | nil => simp [find]
  | cons e l ih =>
    obtain ⟨k', q⟩ := e
    rw [find_cons]
    by_cases h : k = k' <;> simp [h, ih]

/-- Deleting a key leaves what the other keys map to. -/
theorem find_filter (l : List (K × ℕ)) (k k' : K) :
    find (l.filter fun e => e.1 != k) k' = if k' = k then none else find l k' := by
  induction l with
  | nil => simp [find]
  | cons e l ih =>
    obtain ⟨j, q⟩ := e
    by_cases hj : j = k
    · subst hj
      rw [List.filter_cons_of_neg (by simp), ih, find_cons]
      by_cases hk : k' = j <;> simp [hk]
    · rw [List.filter_cons_of_pos (by simpa using hj), find_cons, find_cons, ih]
      by_cases hk : k' = j
      · subst hk
        simp [hj]
      · simp [hk]

/-- Add a key at the least free position, unless it is there. -/
def add (m : ListMap K) (k : K) : ListMap K × Option ℕ :=
  match h : find m.entries k with
  | some p => (m, some p)
  | none =>
    (⟨(k, freeSlot (m.entries.map Prod.snd)) :: m.entries, m.capacity,
      List.nodup_cons.2 ⟨find_eq_none_iff.1 h, m.nodup_keys⟩,
      List.nodup_cons.2 ⟨freeSlot_notMem _, m.nodup_slots⟩⟩,
      some (freeSlot (m.entries.map Prod.snd)))

/-- Delete a key. -/
def del (m : ListMap K) (k : K) : ListMap K × Option ℕ :=
  (⟨m.entries.filter fun e => e.1 != k, m.capacity,
    m.nodup_keys.sublist (List.filter_sublist.map _),
    m.nodup_slots.sublist (List.filter_sublist.map _)⟩, find m.entries k)

/-- What `add` does, case by case. -/
theorem add_cases (m : ListMap K) (k : K) :
    (∃ p, find m.entries k = some p ∧ m.add k = (m, some p)) ∨
    (find m.entries k = none ∧ (m.add k).2 = some (freeSlot (m.entries.map Prod.snd)) ∧
      (m.add k).1.capacity = m.capacity ∧
      (m.add k).1.entries = (k, freeSlot (m.entries.map Prod.snd)) :: m.entries) := by
  unfold add
  split
  · rename_i p h
    exact Or.inl ⟨p, h, rfl⟩
  · rename_i h
    exact Or.inr ⟨h, rfl, rfl, rfl⟩

end ListMap

open ListMap

/-- **The list map is a slot map.** It hands out the least free position
and refuses no key. -/
def listSlotMap (K : Type) [DecidableEq K] : SlotMap K where
  State := ListMap K
  create n := ⟨[], n, List.nodup_nil, List.nodup_nil⟩
  capacity m := m.capacity
  lookup m k := find m.entries k
  add := ListMap.add
  del := ListMap.del
  lookup_create _ _ := rfl
  capacity_create _ := rfl
  capacity_add m k := by
    rcases m.add_cases k with ⟨p, -, h⟩ | ⟨-, -, h, -⟩
    · rw [h]
    · exact h
  capacity_del _ _ := rfl
  lookup_inj {m k k' p} h h' := by
    rw [find_eq_some_iff m.nodup_keys] at h h'
    exact congrArg Prod.fst (List.inj_on_of_nodup_map m.nodup_slots h h' rfl)
  add_present {m k p} h := by
    rcases m.add_cases k with ⟨q, hq, hadd⟩ | ⟨hnone, -⟩
    · rw [hadd, ← hq, h]
    · rw [h] at hnone
      cases hnone
  lookup_add_some {m k p} h := by
    funext k'
    rcases m.add_cases k with ⟨q, hq, hadd⟩ | ⟨-, hres, -, hent⟩
    · rw [hadd] at h ⊢
      by_cases hk : k' = k
      · subst hk
        rw [Function.update_self, ← h, hq]
      · rw [Function.update_of_ne hk]
    · rw [hres] at h
      show find (m.add k).1.entries k' = _
      rw [hent, find_cons]
      by_cases hk : k' = k
      · subst hk
        rw [Function.update_self, if_pos rfl, h]
      · rw [Function.update_of_ne hk, if_neg hk]
  lookup_add_none {m k} h := by
    rcases m.add_cases k with ⟨q, -, hadd⟩ | ⟨-, hres, -⟩
    · rw [hadd] at h
      cases h
    · rw [hres] at h
      cases h
  del_result _ _ := rfl
  lookup_del m k := by
    funext k'
    show find (m.entries.filter fun e => e.1 != k) k' = _
    rw [find_filter]
    by_cases hk : k' = k
    · rw [hk, Function.update_self, if_pos rfl]
    · rw [Function.update_of_ne hk, if_neg hk]

/-- The list map refuses no key. -/
theorem listSlotMap_neverFull (K : Type) [DecidableEq K] : (listSlotMap K).NeverFull := by
  intro m k h
  rcases m.add_cases k with ⟨q, -, hadd⟩ | ⟨-, hres, -⟩
  · have h' : (m.add k).2 = none := h
    rw [hadd] at h'
    cases h'
  · have h' : (m.add k).2 = none := h
    rw [hres] at h'
    cases h'

/-- As long as no key is deleted, the least free position is the next. -/
theorem freeSlot_eq {used : List ℕ} (h : used.Perm (List.range used.length)) :
    freeSlot used = used.length := by
  have hfree := freeSlot_notMem used
  rw [h.mem_iff, List.mem_range, Nat.not_lt] at hfree
  have hle : freeSlot used ≤ used.length := by
    unfold freeSlot
    cases hfind : (List.range (used.length + 1)).find? fun p => !used.contains p with
    | none => exact Nat.zero_le _
    | some p =>
      have hmem := List.mem_of_find?_eq_some hfind
      rw [List.mem_range] at hmem
      exact Nat.le_of_lt_succ hmem
  exact Nat.le_antisymm hle hfree

/-- A list map to which keys were only added. -/
theorem perm_of_filled {n : ℕ} {s : (listSlotMap K).State} {ks : List K}
    (h : (listSlotMap K).Filled n s ks) :
    (ListMap.entries s).length = ks.length ∧
      ((ListMap.entries s).map Prod.snd).Perm
        (List.range ((ListMap.entries s).map Prod.snd).length) := by
  induction h with
  | create => exact ⟨rfl, .nil⟩
  | @add s ks k p h habs hadd ih =>
    rcases ListMap.add_cases s k with ⟨q, hq, -⟩ | ⟨-, -, -, hent⟩
    · have habs' : find (ListMap.entries s) k = none := habs
      rw [hq] at habs'
      cases habs'
    · have hent' : ListMap.entries ((listSlotMap K).add s k).1 = _ := hent
      rw [hent', List.map_cons, List.length_cons, List.length_cons, List.length_append, ih.1,
        freeSlot_eq ih.2, List.range_succ]
      exact ⟨rfl, (List.Perm.cons _ ih.2).trans (List.perm_append_singleton _ _).symm⟩

/-- **The list map hands positions out in order.** -/
theorem listSlotMap_inOrder (K : Type) [DecidableEq K] : (listSlotMap K).InOrder := by
  intro n m ks k p h habs hadd
  obtain ⟨hlength, hperm⟩ := perm_of_filled h
  rcases ListMap.add_cases m k with ⟨q, hq, -⟩ | ⟨-, hres, -, -⟩
  · have habs' : find m.entries k = none := habs
    rw [hq] at habs'
    cases habs'
  · have hadd' : (ListMap.add m k).2 = some p := hadd
    rw [hres, freeSlot_eq hperm, List.length_map, hlength] at hadd'
    exact (Option.some.inj hadd').symm

end Common

end FlowBlaze
