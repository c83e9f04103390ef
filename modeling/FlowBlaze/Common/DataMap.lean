import Mathlib.Data.Nat.Notation
import Mathlib.Logic.Function.Basic
/-!
# Data maps and read-through caches

A data map is a finite map from keys to values in which an insertion may
fail. A program that keeps results in one reads through it: what is there
is used, and what is not is computed and put there if it can be.

Reading through a map answers what the computation answers, as long as
the map remembers nothing else. `Remembers` says so, it holds of an empty
map, and reading through the map keeps it, whether the insertion succeeds
or not.
-/

namespace FlowBlaze

namespace Common

/-- **A finite map from keys to values**, in which an insertion may fail.
The state is abstract, so which fail may depend on the whole history. -/
structure DataMap (K V : Type) [DecidableEq K] where
  /-- What the map remembers. -/
  State : Type
  /-- An empty map. -/
  create : State
  /-- The value of a key, if it is there. -/
  lookup : State → K → Option V
  /-- Add a key with a value; `false` when it is refused. -/
  add : State → K → V → State × Bool
  lookup_create : ∀ k, lookup create k = none
  lookup_add_true : ∀ {s k v}, (add s k v).2 = true →
    lookup (add s k v).1 = Function.update (lookup s) k (some v)
  lookup_add_false : ∀ {s k v}, (add s k v).2 = false → lookup (add s k v).1 = lookup s

namespace DataMap

variable {K V : Type} [DecidableEq K] (D : DataMap K V)

/-- **The map remembers only what a computation answers.** -/
def Remembers (s : D.State) (f : K → Option V) : Prop := ∀ k v, D.lookup s k = some v → f k = some v

/-- Use what is there, or compute it and put it there. -/
def readThrough (s : D.State) (k : K) (compute : Option V) : D.State × Option V :=
  match D.lookup s k with
  | some v => (s, some v)
  | none =>
    match compute with
    | none => (s, none)
    | some v => ((D.add s k v).1, some v)

variable {D} {s : D.State} {f : K → Option V}

/-- An empty map remembers nothing. -/
theorem remembers_create (f : K → Option V) : D.Remembers D.create f := by
  intro k v h
  rw [D.lookup_create] at h
  cases h

/-- Adding an answer, or failing to, keeps this. -/
theorem Remembers.add (h : D.Remembers s f) {k : K} {v : V} (hv : f k = some v) :
    D.Remembers (D.add s k v).1 f := by
  intro k' v' hk'
  cases hadd : (D.add s k v).2 with
  | false =>
    rw [D.lookup_add_false hadd] at hk'
    exact h k' v' hk'
  | true =>
    rw [D.lookup_add_true hadd] at hk'
    by_cases hk : k' = k
    · rw [hk, Function.update_self] at hk'
      rw [hk, hv, hk']
    · rw [Function.update_of_ne hk] at hk'
      exact h k' v' hk'

/-- **Reading through a map keeps what it remembers right.** -/
theorem Remembers.readThrough (h : D.Remembers s f) (k : K) :
    D.Remembers (D.readThrough s k (f k)).1 f := by
  unfold DataMap.readThrough
  cases hk : D.lookup s k with
  | some v => exact h
  | none =>
    cases hv : f k with
    | none => exact h
    | some v => exact h.add hv

end DataMap

/-- A list of pairs that refuses keys when it is full. -/
def boundedDataMap (K V : Type) [DecidableEq K] (room : ℕ) : DataMap K V where
  State := List (K × V)
  create := []
  lookup l k := (l.find? fun e => e.1 == k).map Prod.snd
  add l k v := if l.length < room then ((k, v) :: l, true) else (l, false)
  lookup_create _ := rfl
  lookup_add_true {l k v} h := by
    split at h
    · next hroom =>
      rw [if_pos hroom]
      funext k'
      by_cases hk : k' = k
      · rw [hk, Function.update_self, List.find?_cons_of_pos (by simp)]
        rfl
      · rw [Function.update_of_ne hk, List.find?_cons_of_neg (by simpa using Ne.symm hk)]
    · cases h
  lookup_add_false {l k v} h := by
    split at h
    · cases h
    · next hroom => rw [if_neg hroom]

end Common

end FlowBlaze
