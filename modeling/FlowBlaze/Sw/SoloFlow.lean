import FlowBlaze.Sw.FieldBytes
import FlowBlaze.Sw.FlowKey
import FlowBlaze.Sw.StageLoop
/-!
# A stage without a flow key

Where a stage was loaded without fields for its lookup key, the buffer
`fk` stays as it is, and all packets of a worker are of one flow. If each
row lets the packet leave, the worker is then a machine with the
registers and the state of one instance, and the global registers of one
table: `Worker.Solo` says what it holds, and `solo_serves` what a packet
does to it.
-/

namespace FlowBlaze

namespace Sw

open Common

variable {H : SlotMap FlowKey} {HE : SlotMap State}

/-! ## Runs -/

/-- **A run of packets**, each with its visits. -/
inductive Worker.Runs : Worker H HE → List Received → List (List (Visited H HE)) →
    Worker H HE → Prop
  | nil (W : Worker H HE) : Runs W [] [] W
  | cons {W W' W'' : Worker H HE} {rx : Received} {rxs : List Received}
    {visits : List (Visited H HE)} {served : List (List (Visited H HE))} :
    W.Serves rx W' visits → Runs W' rxs served W'' → Runs W (rx :: rxs) (visits :: served) W''

/-- Packets served one after the other, each with so much fuel. -/
def Worker.serveAll (fuel : ℕ) (W : Worker H HE) :
    List Received → Option (Worker H HE × List (List (Visited H HE)))
  | [] => some (W, [])
  | rx :: rxs => do
    let (W', visits) ← W.serve fuel rx
    let (W'', served) ← W'.serveAll fuel rxs
    return (W'', visits :: served)

section Runs

variable {W W' W'' : Worker H HE} {fuel : ℕ} {rx : Received} {rxs : List Received}
  {visits : List (Visited H HE)} {served served' : List (List (Visited H HE))}

theorem Worker.Runs.length_eq (h : W.Runs rxs served W') : served.length = rxs.length := by
  induction h with
  | nil => rfl
  | cons _ _ ih => rw [List.length_cons, List.length_cons, ih]

/-- **What was computed** is a run. -/
theorem runs_of_serveAll (h : W.serveAll fuel rxs = some (W', served)) : W.Runs rxs served W' := by
  induction rxs generalizing W served with
  | nil =>
    cases h
    exact .nil _
  | cons rx rxs ih =>
    obtain ⟨⟨W₁, visits⟩, hserve, h⟩ := Option.bind_eq_some_iff.mp h
    obtain ⟨⟨W₂, rest⟩, hrest, h⟩ := Option.bind_eq_some_iff.mp h
    cases h
    exact .cons ⟨fuel, hserve⟩ (ih hrest)

/-- A sequence of packets is served in one way. -/
theorem runs_unique (h : W.Runs rxs served W') (h' : W.Runs rxs served' W'') :
    served = served' ∧ W' = W'' := by
  induction h generalizing served' W'' with
  | nil =>
    cases h'
    exact ⟨rfl, rfl⟩
  | cons hserves _ ih =>
    cases h' with
    | cons hserves' hruns' =>
      obtain ⟨rfl, rfl⟩ := serves_unique hserves hserves'
      obtain ⟨rfl, rfl⟩ := ih hruns'
      exact ⟨rfl, rfl⟩

/-- A visit leaves the table of its stage. -/
theorem tables_after (W : Worker H HE) (stage : ℕ) (V : Visited H HE) :
    (W.after stage V).tables stage = some V.table :=
  Function.update_self (β := fun _ => Option (XfsmTable H HE)) stage (some V.table) W.tables

/-- A packet that leaves after the first stage. -/
theorem serves_of_visit {V : Visited H HE} (h : W.visit rx ⟨W.received, rx.mbuf⟩ 0 = some V)
    (hnext : ∀ next, V.next = some next → next.toNat = nullStage) :
    W.Serves rx ({ W with received := W.received + 1 }.after 0 V) [V] := by
  refine ⟨2, ?_⟩
  have hvisit : ({ W with received := W.received + 1 } : Worker H HE).visit rx
      ⟨W.received, rx.mbuf⟩ 0 = some V := h
  unfold Worker.serve Worker.walk
  rw [if_neg (by decide), hvisit, Option.bind_eq_bind, Option.bind_some]
  cases hlast : V.next with
  | none => rfl
  | some next =>
    unfold Worker.walk
    simp only [if_pos (hnext next hlast)]
    rfl

end Runs

/-! ## One instance -/

/-- **The instance of the flow with this key**, which is made if it is not
there. -/
def Instances.Finds (I : Instances H) (key : FlowKey) (inst : XfsmInstance) : Prop :=
  ∃ place, (I.lookupInstance key).2 = some place ∧
    (I.lookupInstance key).1.instancesPool place = inst

/-- The first flow of a table gets an instance. -/
theorem finds_create (hH : H.AcceptsBelow) (key : FlowKey) :
    (Instances.create H).Finds key { initInstance 0 with flowKey := key } := by
  have hnone : H.lookup (Instances.create H).instancesHmap key = none := H.lookup_create _ _
  have hadd : (H.add (H.create maxInstances) key).2 ≠ none := by
    refine hH _ _ [] (fun k hk => absurd (H.lookup_create _ _) hk) ?_
    rw [H.capacity_create]
    decide
  obtain ⟨place, hplace⟩ := Option.ne_none_iff_exists'.mp hadd
  have hpair : H.add (Instances.create H).instancesHmap key =
      ((H.add (H.create maxInstances) key).1, some place) := Prod.ext rfl hplace
  have hlookup : (Instances.create H).lookupInstance key =
      (Instances.create H).insertInstance key := by
    unfold Instances.lookupInstance
    rw [hnone]
  refine ⟨place, ?_⟩
  rw [hlookup]
  unfold Instances.insertInstance
  have hroom : (Instances.create H).nbInstances ≠ maxInstances - 1 :=
    (by decide : 0 ≠ maxInstances - 1)
  rw [if_pos hroom, hpair]
  exact ⟨rfl, Function.update_self ..⟩

/-- An instance that was found and written is found again. -/
theorem finds_setInstance {I : Instances H} {key : FlowKey} {place : ℕ} {inst : XfsmInstance}
    (h : (I.lookupInstance key).2 = some place) {J : Instances H}
    (hhmap : J.instancesHmap = (I.lookupInstance key).1.instancesHmap)
    (hpool : J.instancesPool place = inst) : J.Finds key inst := by
  have hlive : H.lookup J.instancesHmap key = some place := by
    rw [hhmap]
    exact lookup_lookupInstance h
  refine ⟨place, ?_⟩
  rw [lookupInstance_of_mem hlive]
  exact ⟨rfl, hpool⟩

/-! ## What a stage holds -/

/-- **A table with one instance in use**, of the program of `T₀`: the
values of its global registers, and of the instance's registers and
state. -/
structure Solo (T₀ T : XfsmTable H HE) (key : FlowKey) (globals registers : Registers)
    (state : State) : Prop where
  program : T.program = T₀.program
  lookupKey : T.lookupKey = T₀.lookupKey
  globals : T.globalRegisters = globals
  only : ∀ k, H.lookup T.instances.instancesHmap k ≠ none → k = key
  finds : ∃ inst, T.instances.Finds key inst ∧ inst.registers = registers ∧
    inst.currentState = state ∧ inst.destroy = false

/-- The lookup key has no fields. -/
def XfsmTable.Keyless (T : XfsmTable H HE) : Prop :=
  T.lookupKey.size = 0 ∧ T.lookupKey.biflowNo = 0

/-- **What a packet meets**: whatever the results were, the conditions
single out this row, and its actions do this. -/
structure MeetsRow (T₀ : XfsmTable H HE) (M : Mem) (fields : PktFields)
    (globals registers : Registers) (state : State) (row : XfsmTableEntry) (X : Exec) : Prop where
  chosen : ∀ before, ∃ results, xfsmEvaluateConditions ⟨globals, fields, M⟩ T₀.conditions
    T₀.nbConditions registers before = some results ∧
    xfsmTableLookup T₀.entries XfsmTableEntry.results T₀.nbConditions state results =
      some (some row)
  executed : xfsmExecuteActions fields row.actions
    ⟨registers, globals, false, M, 0, 0, 0, []⟩ = some X
  stays : X.destroy = false

section Visit

variable {T₀ T : XfsmTable H HE} {key : FlowKey} {globals registers : Registers} {state : State}
  {M : Mem} {fields : PktFields} {row : XfsmTableEntry} {X : Exec}

/-- No field, no key. -/
theorem keyExtract_of_keyless (h : T.Keyless) :
    keyExtract M fields T.lookupKey key = some key := by
  unfold keyExtract
  rw [h.1, h.2, List.range_zero, List.foldlM_nil]
  rfl

/-- **A visit** of such a stage. -/
theorem solo_visit (h : Solo T₀ T key globals registers state) (hkeyless : T₀.Keyless)
    (hparse : parsePktHeader M T.pktFields = some fields)
    (hmeets : MeetsRow T₀ M fields globals registers state row X) :
    ∃ V, T.visit M key = some V ∧ V.row = some row ∧ V.next = some row.nextStage ∧
      V.key = key ∧ V.mem = X.mem ∧ V.events = .access :: X.events ∧
      Solo T₀ V.table key X.globalRegisters X.registers row.nextState := by
  obtain ⟨inst, ⟨place, hplace, rfl⟩, hregisters, hstate, hdestroy⟩ := h.finds
  obtain ⟨results, heval, hlookup⟩ := hmeets.chosen
    ((T.instances.lookupInstance key).1.instancesPool place).results
  have hconditions : T.conditions = T₀.conditions := congrArg Program.conditions h.program
  have hnb : T.nbConditions = T₀.nbConditions := congrArg Program.nbConditions h.program
  have hentries : T.entries = T₀.entries := congrArg Program.entries h.program
  have hkeyless' : T.Keyless := by
    unfold XfsmTable.Keyless
    rw [h.lookupKey]
    exact hkeyless
  have hlook : T.instances.lookupInstance key =
      ((T.instances.lookupInstance key).1, some place) := Prod.ext rfl hplace
  -- the instance of the key, its comparisons made
  let R : Ready H HE := ⟨{ T with
    pktFields := fields
    instances := (T.instances.lookupInstance key).1.setInstance place
      { (T.instances.lookupInstance key).1.instancesPool place with results := results } },
    key, place⟩
  have hinst : R.matchInst =
      { (T.instances.lookupInstance key).1.instancesPool place with results := results } :=
    Function.update_self ..
  have hprepare : T.prepare M key = some R := by
    unfold XfsmTable.prepare
    rw [hparse, Option.bind_eq_bind, Option.bind_some, keyExtract_of_keyless hkeyless',
      Option.bind_eq_bind, Option.bind_some, hlook]
    have hevaluate : xfsmEvaluateConditions ⟨T.globalRegisters, fields, M⟩ T.conditions
        T.nbConditions ((T.instances.lookupInstance key).1.instancesPool place).registers
        ((T.instances.lookupInstance key).1.instancesPool place).results = some results := by
      rw [h.globals, hconditions, hnb, hregisters]
      exact heval
    simp only [Instances.evaluate, hevaluate, Option.map_some]
    rfl
  have htable : R.tableLookup = some (some row) := by
    unfold Ready.tableLookup
    rw [hinst]
    change xfsmTableLookup T.entries _ T.nbConditions
      ((T.instances.lookupInstance key).1.instancesPool place).currentState results = _
    rw [hentries, hnb, hstate]
    exact hlookup
  have hstart : R.table.instances.start R.place ⟨R.table.globalRegisters, R.table.pktFields, M⟩ =
      ⟨registers, globals, false, M, 0, 0, 0, []⟩ := by
    unfold Instances.start
    change Exec.mk R.matchInst.registers T.globalRegisters R.matchInst.destroy M 0 0 0 [] = _
    rw [hinst, h.globals, ← hregisters, ← hdestroy]
  -- and after the actions of the row
  let V : Visited H HE := ⟨{ R.table with
      globalRegisters := X.globalRegisters
      instances := (R.table.instances.finish place X).setState place row.nextState },
    key, X.mem, some row, some row.nextStage, .access :: X.events⟩
  have hexecute : R.execute M row = some V := by
    unfold Ready.execute
    rw [hstart, show R.table.pktFields = fields from rfl, hmeets.executed, Option.map_some,
      if_neg (by rw [hmeets.stays]; exact Bool.false_ne_true)]
  have hfinds : V.table.instances.Finds key (V.table.instances.instancesPool place) :=
    finds_setInstance hplace rfl rfl
  refine ⟨V, ?_, rfl, rfl, rfl, rfl, rfl, ⟨?_, ?_, rfl, fun k hk => ?_, _, hfinds, ?_, ?_, ?_⟩⟩
  · unfold XfsmTable.visit
    rw [hprepare, Option.bind_eq_bind, Option.bind_some, htable, Option.bind_eq_bind,
      Option.bind_some]
    exact hexecute
  · exact h.program
  · exact h.lookupKey
  · by_contra hne
    change H.lookup (T.instances.lookupInstance key).1.instancesHmap k ≠ none at hk
    rw [(leavesAlone_lookupInstance T.instances hne).lookup] at hk
    exact hne (h.only k hk)
  all_goals
    simp only [V, Instances.setState, Instances.finish, Instances.setInstance,
      Function.update_self, hmeets.stays]

end Visit

/-! ## The worker -/

/-- **A worker whose first stage is such a table.** -/
def Worker.Solo (T₀ : XfsmTable H HE) (W : Worker H HE) (globals registers : Registers)
    (state : State) : Prop :=
  ∃ T, W.tables 0 = some T ∧ Sw.Solo T₀ T W.key globals registers state

section Worker

variable {T₀ : XfsmTable H HE} {W : Worker H HE} {globals registers : Registers} {state : State}
  {rx : Received} {P : XfsmTableEntry → Exec → Prop}

/-- A packet whose headers the parser can read. -/
def Received.Parses (rx : Received) : Prop := (⟨0, rx.mbuf⟩ : Packet).branch ≠ none

/-- Of a buffer with sixty bytes it always can. -/
theorem parses_of_length (h : 60 ≤ rx.mbuf.data.length) : rx.Parses := by
  have hbyte : ∀ i < 60, ∃ b, rx.mbuf.data[i]? = some b :=
    fun i hi => ⟨_, List.getElem?_eq_getElem (hi.trans_le h)⟩
  obtain ⟨proto, hproto⟩ := hbyte 23 (by decide)
  obtain ⟨b0, hb0⟩ := hbyte 36 (by decide)
  obtain ⟨b1, hb1⟩ := hbyte 37 (by decide)
  obtain ⟨inProto, hinProto⟩ := hbyte 59 (by decide)
  obtain ⟨dport, hdport⟩ : ∃ dport, be16ptr2h (fun i => rx.mbuf.data[36 + i]?) = some dport := by
    have hnat := toNat_be16ptr2h fun i => rx.mbuf.data[36 + i]?
    simp only [Nat.add_zero, Nat.reduceAdd, hb0, hb1, Option.bind_some, Option.map_some] at hnat
    exact (Option.map_eq_some_iff.mp hnat).imp fun dport h => h.1
  unfold Received.Parses Packet.branch
  simp only [hproto, hdport, hinProto, Option.bind_eq_bind, Option.bind_some]
  split_ifs <;> exact Option.some_ne_none _

/-- What a worker sees of a packet in the first stage. -/
def Worker.sees (W : Worker H HE) (rx : Received) : Mem := rx.mem ⟨W.received, rx.mbuf⟩

/-- The headers are read, whatever came before. -/
theorem parses_mem (h : rx.Parses) (W : Worker H HE) (before : PktFields) :
    ∃ b, parsePktHeader (W.sees rx) before = some ((W.sees rx).packet.overlay before b) := by
  obtain ⟨b, hb⟩ := Option.ne_none_iff_exists'.mp h
  refine ⟨b, ?_⟩
  rw [parsePktHeader_eq]
  exact congrArg (Option.map _) hb

/-- **A packet is served**, by one visit, as soon as it leaves after the
row it meets. -/
theorem solo_serves (h : W.Solo T₀ globals registers state) (hkeyless : T₀.Keyless)
    (hparses : rx.Parses) (hmeets : ∀ b before, ∃ row X, row.nextStage.toNat = nullStage ∧
      MeetsRow T₀ (W.sees rx) ((W.sees rx).packet.overlay before b) globals registers state row X ∧
      P row X) :
    ∃ W' V row X, W.Serves rx W' [V] ∧ W'.Solo T₀ X.globalRegisters X.registers row.nextState ∧
      V.row = some row ∧ V.mem = X.mem ∧ V.events = .access :: X.events ∧ P row X := by
  obtain ⟨T, hT, hsolo⟩ := h
  obtain ⟨b, hparse⟩ := parses_mem hparses W T.pktFields
  obtain ⟨row, X, hstage, hmeets, hP⟩ := hmeets b T.pktFields
  obtain ⟨V, hvisit, hrow, hnext, hkey, hmem, hevents, hsolo'⟩ :=
    solo_visit hsolo hkeyless hparse hmeets
  have hvisited : W.visit rx ⟨W.received, rx.mbuf⟩ 0 = some V := by
    unfold Worker.visit
    rw [hT]
    exact hvisit
  refine ⟨_, V, row, X, serves_of_visit hvisited fun next h => ?_,
    ⟨V.table, tables_after _ 0 V, ?_⟩, hrow, hmem, hevents, hP⟩
  · rw [hnext] at h
    cases h
    exact hstage
  · change Sw.Solo T₀ V.table V.key _ _ _
    rw [hkey]
    exact hsolo'

end Worker

end Sw

end FlowBlaze
