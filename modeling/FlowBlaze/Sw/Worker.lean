import FlowBlaze.Sw.FreshFlows
/-!
# The worker — `flowblaze.c`

A worker takes packets one at a time. Each goes through the stages,
starting at the first: a stage parses the packet, looks its flow up,
evaluates the conditions, looks a row up and executes its actions. The
row says which stage comes next. A packet leaves when no row matches,
when its flow is destroyed or when there is no next stage, and then its
buffer is freed.

A stage that is no table, and an instance that could not be had, are null
pointers the worker follows: such a step has no result. Rows may send a
packet round and round, so the loop over the stages runs on fuel here,
and a packet that never leaves is one that no fuel is enough for.
-/

namespace FlowBlaze

namespace Sw

open Common

/-- `NULL_STAGE`. -/
def nullStage : ℕ := 255

/-- `MAX_STAGES`. -/
def maxStages : ℕ := 8

/-- `xfsm_table_t`, as far as it is used. -/
structure XfsmTable (H : SlotMap FlowKey) (HE : SlotMap State) where
  conditions : Fin maxConditions → XfsmCondition
  nbConditions : ℕ
  globalRegisters : Registers
  lookupKey : LookupKey
  defaultState : State
  entries : Entries HE XfsmTableEntry
  instances : Instances H
  pktFields : PktFields

/-- `xfsm_table_create`. -/
def xfsmTableCreate (H : SlotMap FlowKey) (HE : SlotMap State) (entries : List XfsmTableEntry)
    (initialState : Byte) (conditions : Fin maxConditions → XfsmCondition)
    (conditionsNumber : Byte) (lookupKey : LookupKey) : Option (XfsmTable H HE) :=
  (createEntries HE entries XfsmTableEntry.currentState).map fun entries =>
    { conditions := conditions
      nbConditions := conditionsNumber.toNat
      globalRegisters := fun _ => 0
      lookupKey := lookupKey
      defaultState := initialState.setWidth 32
      entries := entries
      instances := .create H
      pktFields := .null }

/-! ## A stage -/

/-- A packet in a stage, when its flow has been looked up and the
conditions are evaluated. `key` is what the buffer `fk` holds, `place` is
`match_inst`. -/
structure Ready (H : SlotMap FlowKey) (HE : SlotMap State) where
  table : XfsmTable H HE
  key : FlowKey
  place : ℕ

/-- A packet that is done with a stage: the row executed, if one was, and
the stage that comes next, unless the packet leaves. `mem` holds the
packet, with the fields set. -/
structure Visited (H : SlotMap FlowKey) (HE : SlotMap State) where
  table : XfsmTable H HE
  key : FlowKey
  mem : Mem
  row : Option XfsmTableEntry
  next : Option Byte
  events : List MbufEvent

section Stage

variable {H : SlotMap FlowKey} {HE : SlotMap State}

/-- The instance that was looked up. -/
def Ready.matchInst (R : Ready H HE) : XfsmInstance := R.table.instances.instancesPool R.place

/-- `parse_pkt_header`, `key_extract`, `lookup_instance` and
`xfsm_evaluate_conditions`. -/
def XfsmTable.prepare (T : XfsmTable H HE) (M : Mem) (key : FlowKey) : Option (Ready H HE) := do
  let fields ← parsePktHeader M T.pktFields
  let key ← keyExtract M fields T.lookupKey key
  match T.instances.lookupInstance key with
  | (_, none) => none
  | (instances, some place) =>
    let instances ← instances.evaluate place ⟨T.globalRegisters, fields, M⟩ T.conditions
      T.nbConditions
    return ⟨{ T with pktFields := fields, instances := instances }, key, place⟩

/-- `xfsm_table_lookup(match_inst)`. -/
def Ready.tableLookup (R : Ready H HE) : Option (Option XfsmTableEntry) :=
  xfsmTableLookup R.table.entries XfsmTableEntry.results R.table.nbConditions
    R.matchInst.currentState R.matchInst.results

/-- No row matches. -/
def Ready.leave (R : Ready H HE) (M : Mem) : Visited H HE :=
  ⟨R.table, R.key, M, none, none, [.access]⟩

/-- `xfsm_execute_actions` and what follows it. One access stands for all
that come before the actions. -/
def Ready.execute (R : Ready H HE) (M : Mem) (row : XfsmTableEntry) : Option (Visited H HE) :=
  (xfsmExecuteActions R.table.pktFields row.actions
      (R.table.instances.start R.place
        ⟨R.table.globalRegisters, R.table.pktFields, M⟩)).map fun X =>
    let instances := R.table.instances.finish R.place X
    let T := { R.table with globalRegisters := X.globalRegisters }
    if X.destroy then
      ⟨{ T with instances := instances.destroyInstance R.table.defaultState R.place }, R.key,
        X.mem, some row, none, .access :: X.events⟩
    else
      ⟨{ T with instances := instances.setState R.place row.nextState }, R.key,
        X.mem, some row, some row.nextStage, .access :: X.events⟩

/-- **A visit of a stage**: the body of the loop over the stages. -/
def XfsmTable.visit (T : XfsmTable H HE) (M : Mem) (key : FlowKey) : Option (Visited H HE) := do
  let R ← T.prepare M key
  match ← R.tableLookup with
  | none => return R.leave M
  | some row => R.execute M row

/-- **What preparing a visit does**: it sets the header pointers, has the
flow looked up and writes the results of the conditions. -/
theorem prepare_eq_some {T : XfsmTable H HE} {M : Mem} {key : FlowKey} {R : Ready H HE}
    (h : T.prepare M key = some R) :
    ∃ fields results, parsePktHeader M T.pktFields = some fields ∧
      keyExtract M fields T.lookupKey key = some R.key ∧
      (T.instances.lookupInstance R.key).2 = some R.place ∧
      xfsmEvaluateConditions ⟨T.globalRegisters, fields, M⟩ T.conditions T.nbConditions
        ((T.instances.lookupInstance R.key).1.instancesPool R.place).registers
        ((T.instances.lookupInstance R.key).1.instancesPool R.place).results = some results ∧
      R.table = { T with
        pktFields := fields
        instances := (T.instances.lookupInstance R.key).1.setInstance R.place
          { (T.instances.lookupInstance R.key).1.instancesPool R.place with
              results := results } } := by
  unfold XfsmTable.prepare at h
  obtain ⟨fields, hfields, h⟩ := Option.bind_eq_some_iff.mp h
  obtain ⟨key', hkey, h⟩ := Option.bind_eq_some_iff.mp h
  cases hinst : T.instances.lookupInstance key' with
  | mk instances place =>
    rw [hinst] at h
    cases place with
    | none => cases h
    | some place =>
      obtain ⟨instances', hevaluate, h⟩ := Option.bind_eq_some_iff.mp h
      cases h
      obtain ⟨results, hresults, rfl⟩ := Option.map_eq_some_iff.mp hevaluate
      refine ⟨fields, results, hfields, hkey, ?_⟩
      dsimp only
      rw [hinst]
      exact ⟨rfl, hresults, rfl⟩

end Stage

/-! ## The loops -/

/-- A packet received: the port it came in at, as a table counts ports,
the time, and its buffer. -/
structure Received where
  inPort : Byte
  timestamp : Word64
  mbuf : Mbuf

/-- What a stage sees of a packet: its port and time are written anew. -/
def Received.mem (rx : Received) (packet : Packet) : Mem :=
  ⟨rx.inPort, { packet with mbuf.timestamp := rx.timestamp }⟩

/-- What the worker keeps: the tables, the buffer `fk`, and how many
packets it received. -/
structure Worker (H : SlotMap FlowKey) (HE : SlotMap State) where
  tables : ℕ → Option (XfsmTable H HE)
  key : FlowKey
  received : ℕ

namespace Worker

variable {H : SlotMap FlowKey} {HE : SlotMap State}

/-- A visit of the stage with that number. -/
def visit (W : Worker H HE) (rx : Received) (packet : Packet) (stage : ℕ) :
    Option (Visited H HE) :=
  (W.tables stage).bind fun T => T.visit (rx.mem packet) W.key

/-- The worker after a visit. -/
def after (W : Worker H HE) (stage : ℕ) (V : Visited H HE) : Worker H HE :=
  { W with tables := Function.update W.tables stage (some V.table), key := V.key }

/-- **The loop over the stages**, from one of them, with so much fuel. -/
def walk (rx : Received) : ℕ → Worker H HE → Packet → ℕ →
    Option (Worker H HE × List (Visited H HE))
  | 0, _, _, _ => none
  | fuel + 1, W, packet, stage =>
    if stage = nullStage then some (W, [])
    else do
      let V ← W.visit rx packet stage
      match V.next with
      | none => return (W.after stage V, [V])
      | some next =>
        let (W', visits) ← walk rx fuel (W.after stage V) V.mem.packet next.toNat
        return (W', V :: visits)

/-- A packet, from the first stage on. -/
def serve (fuel : ℕ) (W : Worker H HE) (rx : Received) :
    Option (Worker H HE × List (Visited H HE)) :=
  walk rx fuel { W with received := W.received + 1 } ⟨W.received, rx.mbuf⟩ 0

/-- **A packet is served**, by these visits, and leaves the worker so. -/
def Serves (W : Worker H HE) (rx : Received) (W' : Worker H HE) (visits : List (Visited H HE)) :
    Prop :=
  ∃ fuel, W.serve fuel rx = some (W', visits)

end Worker

/-- **What happens to a packet's buffer** on its way: at the end
`rte_pktmbuf_free`. -/
def mbufEvents {H : SlotMap FlowKey} {HE : SlotMap State} (visits : List (Visited H HE)) :
    List MbufEvent :=
  visits.flatMap Visited.events ++ [.free]

section Walks

variable {H : SlotMap FlowKey} {HE : SlotMap State} {W W' : Worker H HE} {rx : Received}
  {packet : Packet} {stage fuel : ℕ} {visits visits' : List (Visited H HE)}

/-- More fuel changes nothing. -/
theorem walk_mono (h : Worker.walk rx fuel W packet stage = some (W', visits)) {more : ℕ}
    (hmore : fuel ≤ more) : Worker.walk rx more W packet stage = some (W', visits) := by
  induction fuel generalizing W W' packet stage visits more with
  | zero => cases h
  | succ fuel ih =>
    obtain ⟨m, rfl⟩ : ∃ m, more = m + 1 := ⟨more - 1, by omega⟩
    unfold Worker.walk at h ⊢
    by_cases hstage : stage = nullStage
    · rw [if_pos hstage] at h ⊢
      exact h
    · rw [if_neg hstage] at h ⊢
      obtain ⟨V, hV, h⟩ := Option.bind_eq_some_iff.mp h
      rw [hV]
      cases hnext : V.next with
      | none =>
        rw [hnext] at h
        simp only [Option.bind_eq_bind, Option.bind_some, hnext]
        exact h
      | some next =>
        rw [hnext] at h
        obtain ⟨⟨W'', rest⟩, hrest, h⟩ := Option.bind_eq_some_iff.mp h
        have hwalk := ih hrest (by omega : fuel ≤ m)
        simp only [Option.bind_eq_bind, Option.bind_some, hnext, hwalk]
        exact h

/-- A packet is served in one way. -/
theorem serves_unique {W'' : Worker H HE} (h : W.Serves rx W' visits)
    (h' : W.Serves rx W'' visits') : W' = W'' ∧ visits = visits' := by
  obtain ⟨fuel, h⟩ := h
  obtain ⟨fuel', h'⟩ := h'
  have hmax := walk_mono h (Nat.le_max_left fuel fuel')
  have hmax' := walk_mono h' (Nat.le_max_right fuel fuel')
  rw [hmax] at hmax'
  cases hmax'
  exact ⟨rfl, rfl⟩

end Walks

end Sw

end FlowBlaze
