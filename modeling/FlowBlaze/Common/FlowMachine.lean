import Mathlib.Logic.Function.Basic
/-!
# Stateful packet processing

The flows are a map from keys to contexts. A packet is looked up by its
key, and reacts to the context found there, or to none. What it does to the
flows is to put a context, to drop one, or nothing; the next packet finds the
flows that this one leaves.
-/

namespace FlowBlaze

namespace Common

/-- What a packet does to the flows. -/
inductive Effect (Key Context : Type*)
  | keep
  | put (key : Key) (context : Context)
  | drop (key : Key)

/-- The contexts that there are. -/
abbrev Flows (Key Context : Type*) := Key → Option Context

/-- A machine that processes packets one at a time. -/
structure FlowMachine (Packet Key Context Reaction : Type*) where
  lookupKey : Packet → Key
  reaction : Packet → Option Context → Reaction
  effect : Packet → Option Context → Effect Key Context

variable {Packet Key Context Reaction : Type*} [DecidableEq Key]

/-- The flows afterwards. -/
def Effect.apply (flows : Flows Key Context) : Effect Key Context → Flows Key Context
  | .keep => flows
  | .put key context => Function.update flows key (some context)
  | .drop key => Function.update flows key none

namespace FlowMachine

variable (m : FlowMachine Packet Key Context Reaction) (flows : Flows Key Context)

/-- The context that a packet finds. -/
def found (p : Packet) : Option Context := flows (m.lookupKey p)

/-- One packet. -/
def step (p : Packet) : Flows Key Context := (m.effect p (m.found flows p)).apply flows

/-- Some packets, one after the other. -/
def run (ps : List Packet) : Flows Key Context := ps.foldl m.step flows

@[simp] theorem run_nil : m.run flows [] = flows := rfl

/-- One packet more. -/
theorem run_concat (ps : List Packet) (p : Packet) :
    m.run flows (ps ++ [p]) = m.step (m.run flows ps) p := by
  unfold run
  rw [List.foldl_append]
  rfl

end FlowMachine

/-- A context that is put is that of its key, and no other changes. -/
theorem Effect.apply_put_iff {flows : Flows Key Context} {key k : Key} {context c : Context} :
    (Effect.put key context).apply flows k = some c ↔
      if k = key then context = c else flows k = some c := by
  change Function.update flows key (some context) k = some c ↔ _
  by_cases hk : k = key
  · rw [if_pos hk, hk, Function.update_self, Option.some.injEq]
  · rw [if_neg hk, Function.update_of_ne hk]

/-- A context that is dropped is not there, and no other changes. -/
theorem Effect.apply_drop_iff {flows : Flows Key Context} {key k : Key} {c : Context} :
    (Effect.drop key).apply flows k = some c ↔ k ≠ key ∧ flows k = some c := by
  change Function.update flows key none k = some c ↔ _
  by_cases hk : k = key
  · rw [hk, Function.update_self]
    simp
  · rw [Function.update_of_ne hk]
    simp [hk]

end Common

end FlowBlaze
