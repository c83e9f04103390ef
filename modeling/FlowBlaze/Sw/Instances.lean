import FlowBlaze.Common.SlotMap
import FlowBlaze.Sw.Actions
import Mathlib.Data.Set.Card
/-!
# Instances — `xfsm.c`

A table keeps a pool of instances, one for each flow, and a hash from
flow keys to places in the pool. Looking a key up inserts it if it is
absent; a row may destroy its instance, which gives the place back. A
counter of instances is kept beside the hash.

Two things go wrong. The pool is initialised before the table knows its
initial state, so a place never used holds state 0. And destroying an
instance leaves the counter as it is.
-/

namespace FlowBlaze

namespace Sw

open Common

/-- `MAX_INSTANCES`. -/
def maxInstances : ℕ := 1000000

/-- `xfsm_instance_t`, as far as it is used. -/
structure XfsmInstance where
  registers : Registers
  currentState : State
  results : Results
  flowKey : FlowKey
  destroy : Bool

/-- `init_instance`, in a table with that default state. -/
def initInstance (defaultState : State) : XfsmInstance where
  registers := fun _ => 0
  currentState := defaultState
  results := fun _ => .unset
  flowKey := fun _ => 0
  destroy := false

/-- What a table keeps of its instances: `instances_hmap`,
`instances_pool` and `nb_instances`. -/
structure Instances (H : SlotMap FlowKey) where
  instancesHmap : H.State
  instancesPool : ℕ → XfsmInstance
  nbInstances : ℕ

namespace Instances

variable {H : SlotMap FlowKey}

/-- The part of `xfsm_table_create` that makes the instances. The table is
zeroed memory then, its `default_state` included. -/
def create (H : SlotMap FlowKey) : Instances H where
  instancesHmap := H.create maxInstances
  instancesPool := fun _ => initInstance 0
  nbInstances := 0

variable (I : Instances H)

/-- Write an instance. -/
def setInstance (place : ℕ) (instance' : XfsmInstance) : Instances H :=
  { I with instancesPool := Function.update I.instancesPool place instance' }

/-- `insert_instance`. -/
def insertInstance (fk : FlowKey) : Instances H × Option ℕ :=
  if I.nbInstances ≠ maxInstances - 1 then
    match H.add I.instancesHmap fk with
    | (hmap, some place) =>
      ({ I.setInstance place { I.instancesPool place with flowKey := fk } with
          instancesHmap := hmap
          nbInstances := I.nbInstances + 1 }, some place)
    | (hmap, none) => ({ I with instancesHmap := hmap }, none)
  else (I, none)

/-- `lookup_instance`. The result is a place of the pool, or `NULL`. -/
def lookupInstance (flowKey : FlowKey) : Instances H × Option ℕ :=
  match H.lookup I.instancesHmap flowKey with
  | some place => (I, some place)
  | none => I.insertInstance flowKey

/-- `destroy_instance`. -/
def destroyInstance (defaultState : State) (place : ℕ) : Instances H :=
  match H.del I.instancesHmap (I.instancesPool place).flowKey with
  | (hmap, some _) =>
    { I.setInstance place (initInstance defaultState) with instancesHmap := hmap }
  | (hmap, none) => { I with instancesHmap := hmap }

/-! ### An instance at work -/

/-- `xfsm_evaluate_conditions`, on an instance. -/
def evaluate (place : ℕ) (env : Env)
    (conditions : Fin maxConditions → XfsmCondition) (nbConditions : ℕ) : Option (Instances H) :=
  (xfsmEvaluateConditions env conditions nbConditions (I.instancesPool place).registers
      (I.instancesPool place).results).map fun results =>
    I.setInstance place { I.instancesPool place with results := results }

/-- `xfsm_execute_actions`, on an instance, before anything is done. -/
def start (place : ℕ) (env : Env) : Exec where
  registers := (I.instancesPool place).registers
  globalRegisters := env.globalRegisters
  destroy := (I.instancesPool place).destroy
  mem := env.mem
  reg1 := 0
  reg2 := 0
  reg3 := 0
  events := []

/-- The instance, once the actions are done. -/
def finish (place : ℕ) (X : Exec) : Instances H :=
  I.setInstance place
    { I.instancesPool place with registers := X.registers, destroy := X.destroy }

/-- `current_state = s`. -/
def setState (place : ℕ) (state : State) : Instances H :=
  I.setInstance place { I.instancesPool place with currentState := state }

end Instances

/-! ## The counter -/

/-- A call on the instances of a table. -/
inductive Call
  | lookup (fk : FlowKey)
  | destroy (place : ℕ)

section Counter

variable {H : SlotMap FlowKey} (defaultState : State)

/-- A call. -/
def Instances.call (I : Instances H) : Call → Instances H
  | .lookup fk => (I.lookupInstance fk).1
  | .destroy place => I.destroyInstance defaultState place

/-- **A run of calls**, from a new table. -/
def Instances.calls (H : SlotMap FlowKey) (defaultState : State) (cs : List Call) : Instances H :=
  cs.foldl (fun I c => I.call defaultState c) (Instances.create H)

/-- The keys in `instances_hmap`. -/
def Instances.keys (I : Instances H) : Set FlowKey := {fk | H.lookup I.instancesHmap fk ≠ none}

/-- **The counter counts live flows**: it is the number of keys, and a
lookup finds an instance for every key while there is room. -/
structure CountsFlows (I : Instances H) : Prop where
  count : I.nbInstances = I.keys.ncard
  room : I.keys.ncard < maxInstances - 1 → ∀ fk, (I.lookupInstance fk).2 ≠ none

/-- The call destroys no instance: the key of the place is not there. -/
def Instances.DestroysNone (I : Instances H) : Call → Prop
  | .lookup _ => True
  | .destroy place => H.lookup I.instancesHmap (I.instancesPool place).flowKey = none

variable {defaultState} {I : Instances H} {fk : FlowKey} {place : ℕ}

/-- There are finitely many flow keys. -/
theorem keys_finite (I : Instances H) : I.keys.Finite := by
  have : Finite (BitVec 32) :=
    Finite.of_injective BitVec.toFin fun a b h => BitVec.eq_of_toFin_eq h
  exact Set.toFinite _

theorem lookupInstance_of_mem (h : H.lookup I.instancesHmap fk = some place) :
    I.lookupInstance fk = (I, some place) := by
  unfold Instances.lookupInstance
  rw [h]

/-- **What a lookup of an absent key does**: nothing, or hand out a place
that was free. -/
theorem lookupInstance_cases (h : H.lookup I.instancesHmap fk = none) :
    ((I.lookupInstance fk).2 = none ∧
      (I.nbInstances = maxInstances - 1 ∨ (H.add I.instancesHmap fk).2 = none) ∧
      (∀ k, H.lookup (I.lookupInstance fk).1.instancesHmap k = H.lookup I.instancesHmap k) ∧
      (I.lookupInstance fk).1.instancesPool = I.instancesPool ∧
      (I.lookupInstance fk).1.nbInstances = I.nbInstances) ∨
    ∃ place, (I.lookupInstance fk).2 = some place ∧ ¬H.Taken I.instancesHmap place ∧
      H.lookup (I.lookupInstance fk).1.instancesHmap =
        Function.update (H.lookup I.instancesHmap) fk (some place) ∧
      (I.lookupInstance fk).1.instancesPool =
        Function.update I.instancesPool place { I.instancesPool place with flowKey := fk } ∧
      (I.lookupInstance fk).1.nbInstances = I.nbInstances + 1 := by
  unfold Instances.lookupInstance Instances.insertInstance
  rw [h]
  by_cases hnb : I.nbInstances ≠ maxInstances - 1
  · rw [if_pos hnb]
    cases hadd : H.add I.instancesHmap fk with
    | mk hmap result =>
      have hmap_eq : hmap = (H.add I.instancesHmap fk).1 := by rw [hadd]
      cases result with
      | none =>
        have hnone : (H.add I.instancesHmap fk).2 = none := by rw [hadd]
        refine .inl ⟨rfl, .inr rfl, fun k => ?_, rfl, rfl⟩
        exact congrFun ((congrArg H.lookup hmap_eq).trans (H.lookup_add_none hnone)) k
      | some place =>
        have hsome : (H.add I.instancesHmap fk).2 = some place := by rw [hadd]
        refine .inr ⟨place, rfl, SlotMap.not_taken_of_add h hsome, ?_, rfl, rfl⟩
        exact (congrArg H.lookup hmap_eq).trans (H.lookup_add_some hsome)
  · rw [if_neg hnb]
    exact .inl ⟨rfl, .inl (not_not.mp hnb), fun k => rfl, rfl, rfl⟩

/-- **What destroying an instance does**: nothing, if its key is not
there; else it gives the place back. -/
theorem destroyInstance_cases (defaultState : State) (place : ℕ) :
    (H.lookup I.instancesHmap (I.instancesPool place).flowKey = none ∧
      (∀ k, H.lookup (I.destroyInstance defaultState place).instancesHmap k =
        H.lookup I.instancesHmap k) ∧
      (I.destroyInstance defaultState place).instancesPool = I.instancesPool ∧
      (I.destroyInstance defaultState place).nbInstances = I.nbInstances) ∨
    ((H.lookup I.instancesHmap (I.instancesPool place).flowKey).isSome = true ∧
      H.lookup (I.destroyInstance defaultState place).instancesHmap =
        Function.update (H.lookup I.instancesHmap) (I.instancesPool place).flowKey none ∧
      (I.destroyInstance defaultState place).instancesPool =
        Function.update I.instancesPool place (initInstance defaultState) ∧
      (I.destroyInstance defaultState place).nbInstances = I.nbInstances) := by
  unfold Instances.destroyInstance
  have hresult := H.del_result I.instancesHmap (I.instancesPool place).flowKey
  have hlookup := H.lookup_del I.instancesHmap (I.instancesPool place).flowKey
  cases hdel : H.del I.instancesHmap (I.instancesPool place).flowKey with
  | mk hmap result =>
    rw [hdel] at hresult hlookup
    cases result with
    | none =>
      refine .inl ⟨hresult.symm, fun k => ?_, rfl, rfl⟩
      simp only at hresult hlookup ⊢
      rw [hlookup]
      by_cases hk : k = (I.instancesPool place).flowKey
      · rw [hk, Function.update_self, hresult]
      · rw [Function.update_of_ne hk]
    | some p =>
      refine .inr ⟨?_, hlookup, rfl, rfl⟩
      rw [← hresult]
      rfl

/-- **What a call does to the keys and the counter.** -/
theorem call_cases (defaultState : State) (c : Call) :
    (I.DestroysNone c ∧ (I.call defaultState c).keys = I.keys ∧
      (I.call defaultState c).nbInstances = I.nbInstances) ∨
    (I.DestroysNone c ∧ (∃ fk ∉ I.keys, (I.call defaultState c).keys = insert fk I.keys) ∧
      (I.call defaultState c).nbInstances = I.nbInstances + 1) ∨
    (¬I.DestroysNone c ∧ (∃ fk ∈ I.keys, (I.call defaultState c).keys = I.keys \ {fk}) ∧
      (I.call defaultState c).nbInstances = I.nbInstances) := by
  cases c with
  | lookup fk =>
    cases hfk : H.lookup I.instancesHmap fk with
    | some place =>
      have heq : I.call defaultState (.lookup fk) = I :=
        congrArg Prod.fst (lookupInstance_of_mem hfk)
      exact .inl ⟨trivial, by rw [heq], by rw [heq]⟩
    | none =>
      rcases lookupInstance_cases hfk with ⟨-, -, hlookup, -, hnb⟩ | ⟨place, -, -, hlookup, -, hnb⟩
      · refine .inl ⟨trivial, Set.ext fun k => ?_, hnb⟩
        exact not_congr (by rw [← hlookup]; rfl)
      · refine .inr (.inl ⟨trivial, ⟨fk, fun h => h hfk, Set.ext fun k => ?_⟩, hnb⟩)
        rw [Set.mem_insert_iff]
        refine Iff.trans (not_congr (Iff.of_eq (congrArg (· = none) (congrFun hlookup k)))) ?_
        by_cases hk : k = fk
        · rw [hk, Function.update_self]
          exact iff_of_true (fun h => by cases h) (.inl rfl)
        · rw [Function.update_of_ne hk]
          exact ⟨.inr, fun h => h.resolve_left hk⟩
  | destroy place =>
    rcases destroyInstance_cases defaultState place with ⟨hnone, hlookup, -, hnb⟩ |
      ⟨hsome, hlookup, -, hnb⟩
    · refine .inl ⟨hnone, Set.ext fun k => ?_, hnb⟩
      exact not_congr (by rw [← hlookup]; rfl)
    · have hmem : (I.instancesPool place).flowKey ∈ I.keys := Option.isSome_iff_ne_none.mp hsome
      refine .inr (.inr ⟨hmem, ⟨_, hmem, Set.ext fun k => ?_⟩, hnb⟩)
      rw [Set.mem_sdiff, Set.mem_singleton_iff]
      refine Iff.trans (not_congr (Iff.of_eq (congrArg (· = none) (congrFun hlookup k)))) ?_
      by_cases hk : k = (I.instancesPool place).flowKey
      · rw [hk, Function.update_self]
        exact iff_of_false (fun h => h rfl) fun h => h.2 rfl
      · rw [Function.update_of_ne hk]
        exact ⟨fun h => ⟨h, hk⟩, fun h => h.1⟩

/-- **A run destroys no instance.** -/
def DestroysNoneIn (H : SlotMap FlowKey) (defaultState : State) (cs : List Call) : Prop :=
  ∀ before c after, cs = before ++ c :: after →
    (Instances.calls H defaultState before).DestroysNone c

theorem calls_snoc (cs : List Call) (c : Call) :
    Instances.calls H defaultState (cs ++ [c]) =
      (Instances.calls H defaultState cs).call defaultState c := by
  unfold Instances.calls
  rw [List.foldl_append]
  rfl

theorem destroysNoneIn_nil : DestroysNoneIn H defaultState [] := by
  intro before c after h
  cases before <;> cases h

theorem destroysNoneIn_snoc {cs : List Call} {c : Call} :
    DestroysNoneIn H defaultState (cs ++ [c]) ↔
      DestroysNoneIn H defaultState cs ∧ (Instances.calls H defaultState cs).DestroysNone c := by
  constructor
  · intro h
    refine ⟨fun before d after hcs => ?_, h cs c [] rfl⟩
    refine h before d (after ++ [c]) ?_
    rw [hcs, List.append_assoc, List.cons_append]
  · rintro ⟨h, hc⟩ before d after hcs
    rcases List.eq_nil_or_concat after with rfl | ⟨after', e, rfl⟩
    · obtain ⟨rfl, hd⟩ := List.append_inj' hcs rfl
      cases hd
      exact hc
    · have hcs' : cs ++ [c] = (before ++ d :: after') ++ [e] := by
        rw [hcs, List.concat_eq_append, List.append_assoc, List.cons_append]
      exact h before d after' (List.append_inj' hcs' rfl).1

/-- **Beside the keys, the counter counts the instances destroyed.** -/
theorem nbInstances_calls (cs : List Call) :
    ∃ destroyed, (Instances.calls H defaultState cs).nbInstances =
        (Instances.calls H defaultState cs).keys.ncard + destroyed ∧
      (destroyed = 0 ↔ DestroysNoneIn H defaultState cs) := by
  induction cs using List.reverseRecOn with
  | nil =>
    refine ⟨0, ?_, iff_of_true rfl destroysNoneIn_nil⟩
    have hempty : (Instances.calls H defaultState []).keys = ∅ :=
      Set.eq_empty_of_forall_notMem fun fk h => h (H.lookup_create _ _)
    rw [hempty, Set.ncard_empty]
    rfl
  | append_singleton cs c ih =>
    obtain ⟨destroyed, hcount, hzero⟩ := ih
    rw [calls_snoc]
    rcases @call_cases H (Instances.calls H defaultState cs) defaultState c with
      ⟨hc, hkeys, hnb⟩ | ⟨hc, ⟨fk, hfk, hkeys⟩, hnb⟩ | ⟨hc, ⟨fk, hfk, hkeys⟩, hnb⟩
    · refine ⟨destroyed, by rw [hkeys, hnb, hcount], ?_⟩
      rw [hzero, destroysNoneIn_snoc]
      exact (and_iff_left hc).symm
    · refine ⟨destroyed, ?_, ?_⟩
      · rw [hkeys, hnb, hcount, Set.ncard_insert_of_notMem hfk (keys_finite _)]
        omega
      · rw [hzero, destroysNoneIn_snoc]
        exact (and_iff_left hc).symm
    · refine ⟨destroyed + 1, ?_, ?_⟩
      · have hcard := Set.ncard_sdiff_singleton_add_one hfk (keys_finite _)
        rw [hkeys, hnb, hcount]
        omega
      · refine iff_of_false (Nat.succ_ne_zero _) fun h => ?_
        exact hc (destroysNoneIn_snoc.mp h).2

theorem capacity_call (c : Call) :
    H.capacity (I.call defaultState c).instancesHmap = H.capacity I.instancesHmap := by
  cases c with
  | lookup fk =>
    show H.capacity (I.lookupInstance fk).1.instancesHmap = _
    cases hfk : H.lookup I.instancesHmap fk with
    | some place => rw [lookupInstance_of_mem hfk]
    | none =>
      have hcapacity := H.capacity_add I.instancesHmap fk
      unfold Instances.lookupInstance Instances.insertInstance
      rw [hfk]
      by_cases hnb : I.nbInstances ≠ maxInstances - 1
      · rw [if_pos hnb]
        cases hadd : H.add I.instancesHmap fk with
        | mk hmap result =>
          rw [hadd] at hcapacity
          cases result <;> exact hcapacity
      · rw [if_neg hnb]
  | destroy place =>
    have hcapacity := H.capacity_del I.instancesHmap (I.instancesPool place).flowKey
    show H.capacity (I.destroyInstance defaultState place).instancesHmap = _
    unfold Instances.destroyInstance
    cases hdel : H.del I.instancesHmap (I.instancesPool place).flowKey with
    | mk hmap result =>
      rw [hdel] at hcapacity
      cases result <;> exact hcapacity

theorem capacity_calls (cs : List Call) :
    H.capacity (Instances.calls H defaultState cs).instancesHmap = maxInstances := by
  induction cs using List.reverseRecOn with
  | nil => exact H.capacity_create _
  | append_singleton cs c ih => rw [calls_snoc, capacity_call, ih]

/-- Where the counter counts live flows, no instance was destroyed. -/
theorem destroysNoneIn_of_countsFlows {cs : List Call}
    (h : CountsFlows (Instances.calls H defaultState cs)) : DestroysNoneIn H defaultState cs := by
  obtain ⟨destroyed, hcount, hzero⟩ := @nbInstances_calls H defaultState cs
  refine hzero.mp ?_
  have := h.count
  omega

/-- **The counter counts live flows exactly until an instance is
destroyed.** -/
theorem countsFlows_iff (hH : H.AcceptsBelow) (cs : List Call) :
    CountsFlows (Instances.calls H defaultState cs) ↔ DestroysNoneIn H defaultState cs := by
  refine ⟨destroysNoneIn_of_countsFlows, fun hnone => ?_⟩
  obtain ⟨destroyed, hcount, hzero⟩ := @nbInstances_calls H defaultState cs
  obtain rfl := hzero.mpr hnone
  refine ⟨hcount, fun hroom fk hnull => ?_⟩
  cases hfk : H.lookup (Instances.calls H defaultState cs).instancesHmap fk with
  | some place =>
    rw [lookupInstance_of_mem hfk] at hnull
    cases hnull
  | none =>
    rcases lookupInstance_cases hfk with ⟨-, hfull | hrefused, -⟩ | ⟨place, hplace, -⟩
    · omega
    · refine hH _ fk (keys_finite (Instances.calls H defaultState cs)).toFinset.toList ?_ ?_
        hrefused
      · intro k hk
        rw [Finset.mem_toList, Set.Finite.mem_toFinset]
        exact hk
      · rw [Finset.length_toList, ← Set.ncard_eq_toFinset_card _ (keys_finite _),
          capacity_calls]
        omega
    · rw [hnull] at hplace
      cases hplace

/-! ### Two runs -/

/-- Of a run of lookups, the counter counts the flows. -/
theorem countsFlows_lookup :
    CountsFlows (Instances.calls (listSlotMap FlowKey) 0 [.lookup fun _ => 1]) := by
  refine (countsFlows_iff (.of_neverFull (listSlotMap_neverFull FlowKey)) _).mpr ?_
  intro before c after h
  have hc : c ∈ [Call.lookup fun _ => 1] := h ▸ List.mem_append_right _ List.mem_cons_self
  rw [List.mem_singleton.mp hc]
  trivial

/-- **One flow that came and went** still counts. -/
theorem not_countsFlows :
    ¬CountsFlows (Instances.calls (listSlotMap FlowKey) 0 [.lookup fun _ => 1, .destroy 0]) := by
  intro h
  have hdestroys := (destroysNoneIn_of_countsFlows h) [.lookup fun _ => 1] (.destroy 0) [] rfl
  have hfound : (listSlotMap FlowKey).lookup
      (Instances.calls (listSlotMap FlowKey) 0 [.lookup fun _ => 1]).instancesHmap
      ((Instances.calls (listSlotMap FlowKey) 0 [.lookup fun _ => 1]).instancesPool 0).flowKey =
        some 0 := rfl
  cases hfound.symm.trans hdestroys

end Counter

end Sw

end FlowBlaze
