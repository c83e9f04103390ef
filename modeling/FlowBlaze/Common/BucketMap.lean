import Mathlib.Data.List.Basic
import Mathlib.Data.Nat.Bitwise
/-!
# Hash maps walked bucket by bucket

A hash map keeps its keys in bins, one for each of so many buckets, and is
walked bin by bin; within a bin keys stand in the order in which they
were put. The number of buckets is a power of two that doubles when the
map fills up, or when one bin of a small map grows long.

So a map is walked in the order of insertion exactly when that is an
order of rising buckets (`keySet_eq_iff`).
-/

namespace FlowBlaze

namespace Common

/-- A map: the number of buckets, and the entries in the order in which
they were put. -/
structure BucketMap (K V : Type) where
  capacity : ℕ
  entries : List (K × V)

namespace BucketMap

variable {K V : Type}

/-- An empty map. -/
def empty : BucketMap K V := ⟨16, []⟩

/-- The bucket of a key: the lower bits of its hash. -/
def bucket (hash : K → ℕ) (capacity : ℕ) (k : K) : ℕ := hash k &&& (capacity - 1)

/-- The keys, in the order in which they were put. -/
def keys (m : BucketMap K V) : List K := m.entries.map Prod.fst

/-- `get`; `none` is `null`. -/
def get [DecidableEq K] (m : BucketMap K V) (k : K) : Option V :=
  (m.entries.find? fun e => e.1 == k).map Prod.snd

/-- How many keys a bin holds. -/
def binSize (hash : K → ℕ) (m : BucketMap K V) (b : ℕ) : ℕ :=
  m.keys.countP fun k => bucket hash m.capacity k == b

/-- `put` of a new key: the ninth key of a bin makes a small map grow, and
so does any that fills three quarters of it. -/
def putNew (hash : K → ℕ) (m : BucketMap K V) (k : K) (v : V) : BucketMap K V :=
  let m' : BucketMap K V := ⟨m.capacity, m.entries ++ [(k, v)]⟩
  let long : Bool := decide (8 < m'.binSize hash (bucket hash m.capacity k) ∧ m.capacity < 64)
  let capacity := if long then 2 * m.capacity else m.capacity
  if capacity * 3 / 4 < m'.entries.length then ⟨2 * capacity, m'.entries⟩
  else ⟨capacity, m'.entries⟩

/-- `remove`. -/
def remove [DecidableEq K] (m : BucketMap K V) (k : K) : BucketMap K V :=
  ⟨m.capacity, m.entries.filter fun e => e.1 != k⟩

/-- Change the object of a key in place. -/
def modify [DecidableEq K] (m : BucketMap K V) (k : K) (f : V → V) : BucketMap K V :=
  ⟨m.capacity, m.entries.map fun e => if e.1 = k then (e.1, f e.2) else e⟩

/-- The elements of a list, bin by bin. -/
def byBucket {α : Type} (f : α → ℕ) (n : ℕ) (l : List α) : List α :=
  (List.range n).flatMap fun b => l.filter fun a => f a == b

/-- **The order in which the map is walked**: `keySet`. -/
def keySet (hash : K → ℕ) (m : BucketMap K V) : List K :=
  byBucket (bucket hash m.capacity) m.capacity m.keys

/-! ## Walking in the order of insertion -/

section Sorted

variable {α : Type} {f : α → ℕ} {n : ℕ} {l : List α}

theorem byBucket_succ (f : α → ℕ) (n : ℕ) (l : List α) :
    byBucket f (n + 1) l = byBucket f n l ++ l.filter fun a => f a == n := by
  unfold byBucket
  rw [List.range_succ, List.flatMap_append, List.flatMap_singleton]

theorem mem_byBucket {a : α} (h : a ∈ byBucket f n l) : f a < n ∧ a ∈ l := by
  obtain ⟨b, hb, ha⟩ := List.mem_flatMap.mp h
  obtain ⟨hmem, hfa⟩ := List.mem_filter.mp ha
  exact ⟨(of_decide_eq_true hfa).symm ▸ List.mem_range.mp hb, hmem⟩

/-- Bin by bin, buckets rise. -/
theorem pairwise_byBucket (f : α → ℕ) (n : ℕ) (l : List α) :
    (byBucket f n l).Pairwise fun a b => f a ≤ f b := by
  induction n with
  | zero => exact List.Pairwise.nil
  | succ n ih =>
    rw [byBucket_succ]
    refine List.pairwise_append.mpr ⟨ih, ?_, fun a ha b hb => ?_⟩
    · refine List.Pairwise.imp_of_mem (fun {a b} ha hb _ => ?_)
        (List.pairwise_of_forall fun _ _ => trivial)
      have hfa := of_decide_eq_true (List.mem_filter.mp ha).2
      have hfb := of_decide_eq_true (List.mem_filter.mp hb).2
      omega
    · have hfa := (mem_byBucket ha).1
      have hfb := of_decide_eq_true (List.mem_filter.mp hb).2
      omega

/-- Where buckets rise, those below one come first. -/
theorem filter_append_of_pairwise (h : l.Pairwise fun a b => f a ≤ f b)
    (hlt : ∀ a ∈ l, f a < n + 1) :
    (l.filter fun a => decide (f a < n)) ++ (l.filter fun a => f a == n) = l := by
  induction l with
  | nil => rfl
  | cons a l ih =>
    obtain ⟨hle, hl⟩ := List.pairwise_cons.mp h
    have hrest := ih hl fun b hb => hlt b (List.mem_cons_of_mem _ hb)
    have ha := hlt a List.mem_cons_self
    by_cases hfa : f a < n
    · have hne : ¬(f a == n) = true := by
        simp only [beq_iff_eq]
        omega
      have hbelow : (a :: l).filter (fun b => decide (f b < n)) =
          a :: l.filter fun b => decide (f b < n) := List.filter_cons_of_pos (by simpa using hfa)
      have hat : (a :: l).filter (fun b => f b == n) = l.filter fun b => f b == n :=
        List.filter_cons_of_neg hne
      rw [hbelow, hat, List.cons_append, hrest]
    · have hnone : l.filter (fun b => decide (f b < n)) = [] := by
        refine List.filter_eq_nil_iff.mpr fun b hb hfb => ?_
        have := hle b hb
        have := of_decide_eq_true hfb
        omega
      rw [hnone, List.nil_append] at hrest
      have hbelow : (a :: l).filter (fun b => decide (f b < n)) = [] := by
        rw [← hnone]
        exact List.filter_cons_of_neg (by simpa using hfa)
      have hat : (a :: l).filter (fun b => f b == n) = a :: l.filter fun b => f b == n :=
        List.filter_cons_of_pos (beq_iff_eq.mpr (by omega))
      rw [hbelow, hat, List.nil_append, hrest]

/-- **Where buckets rise, bin by bin changes nothing.** -/
theorem byBucket_of_pairwise (h : l.Pairwise fun a b => f a ≤ f b) (hlt : ∀ a ∈ l, f a < n) :
    byBucket f n l = l := by
  induction n generalizing l with
  | zero =>
    cases l with
    | nil => rfl
    | cons a l => exact absurd (hlt a List.mem_cons_self) (Nat.not_lt_zero _)
  | succ n ih =>
    have hbelow := ih (h.filter fun a => decide (f a < n)) fun a ha =>
      of_decide_eq_true (List.mem_filter.mp ha).2
    have hsame : byBucket f n (l.filter fun a => decide (f a < n)) = byBucket f n l := by
      unfold byBucket
      refine List.flatMap_congr fun b hb => ?_
      rw [List.filter_filter]
      refine List.filter_congr fun a _ => ?_
      have := List.mem_range.mp hb
      by_cases hfa : f a = b
      · simp [hfa, this]
      · simp [hfa]
    rw [byBucket_succ, ← hsame, hbelow]
    exact filter_append_of_pairwise h hlt

/-- **Bin by bin changes nothing exactly where buckets rise.** -/
theorem byBucket_eq_iff (hlt : ∀ a ∈ l, f a < n) :
    byBucket f n l = l ↔ l.Pairwise fun a b => f a ≤ f b := by
  refine ⟨fun h => ?_, fun h => byBucket_of_pairwise h hlt⟩
  have := pairwise_byBucket f n l
  rwa [h] at this

/-- Bin by bin, nothing is lost or made twice. -/
theorem perm_byBucket (f : α → ℕ) (n : ℕ) (l : List α) :
    (byBucket f n l).Perm (l.filter fun a => decide (f a < n)) := by
  induction n with
  | zero =>
    have hnone : l.filter (fun a => decide (f a < 0)) = [] := by simp
    rw [hnone]
    exact List.Perm.nil
  | succ n ih =>
    have hsplit := List.filter_append_perm (fun a => decide (f a < n))
      (l.filter fun a => decide (f a < n + 1))
    rw [List.filter_filter, List.filter_filter] at hsplit
    rw [byBucket_succ]
    refine (ih.append_right _).trans (Eq.mp (congrArg₂ List.Perm ?_ rfl) hsplit)
    congr 1
    · refine List.filter_congr fun a _ => ?_
      by_cases hfa : f a < n
      · simp [hfa, Nat.lt_succ_of_lt hfa]
      · simp [hfa]
    · refine List.filter_congr fun a _ => ?_
      by_cases hfa : f a = n
      · simp [hfa]
      · by_cases hle : f a < n + 1
        · have : f a < n := by omega
          simp [this, hfa]
        · have : ¬f a < n := by omega
          simp [this, hfa, hle]

end Sorted

/-! ## The map -/

section Map

variable {hash : K → ℕ} {m : BucketMap K V} {k k' : K} {v : V}

theorem bucket_lt {capacity : ℕ} (h : 0 < capacity) (k : K) :
    bucket hash capacity k < capacity := by
  have : hash k &&& (capacity - 1) ≤ capacity - 1 := Nat.and_le_right
  unfold bucket
  omega

/-- **The map is walked in the order of insertion exactly where buckets
rise.** -/
theorem keySet_eq_iff (h : 0 < m.capacity) :
    m.keySet hash = m.keys ↔ m.keys.Pairwise fun k k' =>
      bucket hash m.capacity k ≤ bucket hash m.capacity k' :=
  byBucket_eq_iff fun k _ => bucket_lt h k

/-- The map is walked over its keys. -/
theorem perm_keySet (h : 0 < m.capacity) : (m.keySet hash).Perm m.keys := by
  have hall : m.keys.filter (fun k => decide (bucket hash m.capacity k < m.capacity)) = m.keys :=
    List.filter_eq_self.mpr fun k _ => decide_eq_true (bucket_lt h k)
  have hperm := perm_byBucket (bucket hash m.capacity) m.capacity m.keys
  rw [hall] at hperm
  exact hperm

theorem get_eq_some_iff [DecidableEq K] (h : m.keys.Nodup) :
    m.get k = some v ↔ (k, v) ∈ m.entries := by
  obtain ⟨capacity, entries⟩ := m
  unfold get keys at *
  induction entries with
  | nil => simp
  | cons e l ih =>
    obtain ⟨k₀, v₀⟩ := e
    rw [List.map_cons, List.nodup_cons] at h
    have hrest := ih h.2
    by_cases hk : k₀ = k
    · subst hk
      have habsent : (k₀, v) ∉ l := fun hm => h.1 (List.mem_map.mpr ⟨_, hm, rfl⟩)
      simp [habsent, eq_comm]
    · have hk' : ¬k = k₀ := fun h => hk h.symm
      simp only at hrest
      simp [hk, hk', hrest]

theorem get_eq_none_iff [DecidableEq K] : m.get k = none ↔ k ∉ m.keys := by
  unfold get keys
  simp only [Option.map_eq_none_iff, List.find?_eq_none, List.mem_map, not_exists, not_and,
    beq_iff_eq]

theorem entries_putNew : (m.putNew hash k v).entries = m.entries ++ [(k, v)] := by
  simp only [putNew]
  split <;> split <;> rfl

theorem keys_putNew : (m.putNew hash k v).keys = m.keys ++ [k] := by
  unfold keys
  rw [entries_putNew, List.map_append]
  rfl

theorem capacity_putNew (h : 0 < m.capacity) : 0 < (m.putNew hash k v).capacity := by
  simp only [putNew]
  split <;> split <;> dsimp only <;> omega

theorem keys_modify [DecidableEq K] (f : V → V) : (m.modify k f).keys = m.keys := by
  unfold keys modify
  rw [List.map_map]
  refine List.map_congr_left fun e _ => ?_
  by_cases he : e.1 = k <;> simp [he]

/-- Changing an object changes nothing that is read off it alike. -/
theorem map_modify [DecidableEq K] {β : Type} {f : V → V} {read : V → β}
    (h : ∀ v, read (f v) = read v) :
    (m.modify k f).entries.map (fun e => read e.2) = m.entries.map fun e => read e.2 := by
  unfold modify
  rw [List.map_map]
  refine List.map_congr_left fun e _ => ?_
  by_cases he : e.1 = k <;> simp [he, h]

end Map

end BucketMap

end Common

end FlowBlaze
