import FlowBlaze.Sw.ActionsSpec
import FlowBlaze.Sw.Release
import FlowBlaze.Sw.TableSpec
/-!
# Flow isolation — `xfsm.c`, `flowblaze.c`

Each flow has an instance of its own, and a packet changes the instance
of its flow only. Whether a flow depends on the packets of other flows is
another question. It does, in three ways: a new flow starts in the state
of the place it is handed, header pointers a packet leaves alone are
those of the packet before, and a lookup may be refused.

Where a run keeps clear of these, a flow is as if it were alone:
`Program.flowRun` runs the packets of a flow by themselves, from the states
of the places it is handed, and the table agrees with it. So two runs in
which a flow gets the same packets, and places that hold the same states,
leave the flow the same.
-/

namespace FlowBlaze

namespace Sw

open Common

variable {H : SlotMap FlowKey} {HE : SlotMap State}

/-! ## What a packet leaves alone -/

/-- **A flow is left alone**: it is where it was, and its instance is
what it was. -/
structure LeavesAlone (I J : Instances H) (k : FlowKey) : Prop where
  lookup : H.lookup J.instancesHmap k = H.lookup I.instancesHmap k
  pool : ∀ p, H.lookup I.instancesHmap k = some p → J.instancesPool p = I.instancesPool p

section Frame

variable {I J K : Instances H} {k fk : FlowKey} {place : ℕ} {defaultState : State}

theorem LeavesAlone.refl (I : Instances H) (k : FlowKey) : LeavesAlone I I k :=
  ⟨rfl, fun _ _ => rfl⟩

theorem LeavesAlone.trans (h : LeavesAlone I J k) (h' : LeavesAlone J K k) : LeavesAlone I K k where
  lookup := h'.lookup.trans h.lookup
  pool p hp := (h'.pool p (h.lookup.trans hp)).trans (h.pool p hp)

/-- Looking a flow up leaves the others alone. -/
theorem leavesAlone_lookupInstance (I : Instances H) (hk : k ≠ fk) :
    LeavesAlone I (I.lookupInstance fk).1 k := by
  cases hfk : H.lookup I.instancesHmap fk with
  | some place =>
    rw [lookupInstance_of_mem hfk]
    exact .refl I k
  | none =>
    rcases lookupInstance_cases hfk with ⟨-, -, hlookup, hpool, -⟩ |
      ⟨place, -, hfree, hlookup, hpool, -⟩
    · exact ⟨hlookup k, fun p _ => congrFun hpool p⟩
    · refine ⟨by rw [hlookup, Function.update_of_ne hk], fun p hp => ?_⟩
      have hne : p ≠ place := fun h => hfree ⟨k, h ▸ hp⟩
      rw [hpool, Function.update_of_ne hne]

/-- So does changing its instance. -/
theorem Instances.Touches.leavesAlone (h : I.Touches J fk place) (hk : k ≠ fk) :
    LeavesAlone I J k where
  lookup := by rw [h.hmap]
  pool p hp := h.others p fun hplace => hk (H.lookup_inj (hplace ▸ hp) h.live)

/-- And destroying it. -/
theorem leavesAlone_destroyInstance (hI : I.Keyed) (h : H.lookup I.instancesHmap fk = some place)
    (hk : k ≠ fk) : LeavesAlone I (I.destroyInstance defaultState place) k := by
  obtain ⟨hlookup, hpool⟩ := @destroyInstance_of_keyed H I defaultState fk place hI h
  refine ⟨by rw [hlookup, Function.update_of_ne hk], fun p hp => ?_⟩
  have hne : p ≠ place := fun hplace => hk (H.lookup_inj (hplace ▸ hp) h)
  rw [hpool, Function.update_of_ne hne]

end Frame

/-! ## What a visit does to the instances -/

section Visit

variable {T : XfsmTable H HE} {M : Mem} {key : FlowKey} {V : Visited H HE} {k : FlowKey}

/-- A flow that was looked up is there. -/
theorem lookup_lookupInstance {I : Instances H} {fk : FlowKey} {place : ℕ}
    (h : (I.lookupInstance fk).2 = some place) :
    H.lookup (I.lookupInstance fk).1.instancesHmap fk = some place := by
  cases hfk : H.lookup I.instancesHmap fk with
  | some p =>
    rw [lookupInstance_of_mem hfk] at h ⊢
    exact hfk.trans h
  | none =>
    rcases lookupInstance_cases hfk with ⟨hnone, -⟩ | ⟨p, hp, -, hlookup, -⟩
    · rw [hnone] at h
      cases h
    · rw [hlookup, Function.update_self, ← hp, h]

/-- **Calls on one flow** make one table's instances those of another. -/
def Calls (defaultState : State) (k : FlowKey) (I J : Instances H) : Prop :=
  ∃ cs : List FlowCall, (∀ c ∈ cs, c.key = k) ∧
    cs.foldlM (Instances.flowCall defaultState) I = some J

section Calls

variable {I J K : Instances H} {defaultState : State} {c : FlowCall}

theorem Calls.one (h : I.flowCall defaultState c = some J) : Calls defaultState c.key I J := by
  refine ⟨[c], fun d hd => by rw [List.mem_singleton.mp hd], ?_⟩
  exact (bind_pure (I.flowCall defaultState c)).trans h

theorem Calls.trans (h : Calls defaultState k I J) (h' : Calls defaultState k J K) :
    Calls defaultState k I K := by
  obtain ⟨cs, hcs, hrun⟩ := h
  obtain ⟨cs', hcs', hrun'⟩ := h'
  refine ⟨cs ++ cs', fun c hc => (List.mem_append.mp hc).elim (hcs c) (hcs' c), ?_⟩
  rw [List.foldlM_append, hrun]
  exact hrun'

/-- Calls on a flow keep the keys written and leave the other flows
alone. -/
theorem Calls.leavesAlone (hI : I.Keyed) (h : Calls defaultState k I J) :
    J.Keyed ∧ ∀ fk, fk ≠ k → LeavesAlone I J fk := by
  obtain ⟨cs, hcs, hrun⟩ := h
  induction cs generalizing I with
  | nil =>
    cases hrun
    exact ⟨hI, fun fk _ => .refl _ fk⟩
  | cons c cs ih =>
    rw [List.foldlM_cons] at hrun
    obtain ⟨I', hc, hrun⟩ := Option.bind_eq_some_iff.mp hrun
    obtain ⟨hkeyed, hrest⟩ := ih (hI.flowCall hc)
      (fun d hd => hcs d (List.mem_cons_of_mem _ hd)) hrun
    refine ⟨hkeyed, fun fk hfk => LeavesAlone.trans ?_ (hrest fk hfk)⟩
    have hkey : c.key = k := hcs c List.mem_cons_self
    rw [← hkey] at hfk
    rcases flowCall_cases hc with ⟨k', rfl, rfl⟩ | ⟨place, htouches, -⟩ |
      ⟨k', place, rfl, hplace, rfl⟩
    · exact leavesAlone_lookupInstance I hfk
    · exact htouches.leavesAlone hfk
    · exact leavesAlone_destroyInstance hI hplace hfk

end Calls

/-- Preparing a visit is calls on the flow looked up. -/
theorem calls_of_prepare {R : Ready H HE} (h : T.prepare M key = some R) :
    Calls T.defaultState R.key T.instances R.table.instances ∧
      H.lookup R.table.instances.instancesHmap R.key = some R.place ∧
      R.table.defaultState = T.defaultState := by
  obtain ⟨fields, results, -, -, hplace, hresults, htable⟩ := prepare_eq_some h
  have hlive := lookup_lookupInstance hplace
  have hlookup : Calls T.defaultState R.key T.instances (T.instances.lookupInstance R.key).1 :=
    Calls.one (c := .lookup R.key) rfl
  have hevaluate : Calls T.defaultState R.key (T.instances.lookupInstance R.key).1
      R.table.instances := by
    refine Calls.one (c := .evaluate R.key ⟨T.globalRegisters, fields, M⟩ T.conditions
      T.nbConditions) ?_
    refine (congrArg (Option.bind · _) hlive).trans ?_
    show (xfsmEvaluateConditions _ _ _ _ _).map _ = _
    rw [hresults, htable]
    rfl
  refine ⟨hlookup.trans hevaluate, ?_, ?_⟩
  · rw [htable]
    exact hlive
  · rw [htable]

/-- **A visit is calls on one flow.** -/
theorem calls_of_visit (h : T.visit M key = some V) :
    Calls T.defaultState V.key T.instances V.table.instances := by
  obtain ⟨R, hprepare, h⟩ := Option.bind_eq_some_iff.mp h
  obtain ⟨row, -, h⟩ := Option.bind_eq_some_iff.mp h
  obtain ⟨hprepared, hlive, hstate⟩ := calls_of_prepare hprepare
  cases row with
  | none =>
    cases h
    exact hprepared
  | some row =>
    obtain ⟨X, hX, rfl⟩ := Option.map_eq_some_iff.mp h
    have hexecuted : Calls T.defaultState R.key R.table.instances
        (R.table.instances.finish R.place X) := by
      refine Calls.one (c := .execute R.key ⟨R.table.globalRegisters, R.table.pktFields, M⟩ row) ?_
      exact (congrArg (Option.bind · _) hlive).trans (congrArg (Option.map _) hX)
    split
    · refine (hprepared.trans hexecuted).trans (Calls.one (c := .destroy R.key) ?_)
      rw [← hstate]
      exact congrArg (Option.map _) hlive
    · exact (hprepared.trans hexecuted).trans
        (Calls.one (c := .setState R.key row.nextState) (congrArg (Option.map _) hlive))

end Visit

/-! ## A flow by itself -/

/-- What is kept of a flow. -/
structure FlowState where
  registers : Registers
  currentState : State
  destroy : Bool

/-- A flow that starts fresh. -/
def FlowState.fresh (initialState : State) : FlowState := ⟨fun _ => 0, initialState, false⟩

/-- What an instance keeps of its flow. -/
def XfsmInstance.flowState (instance' : XfsmInstance) : FlowState :=
  ⟨instance'.registers, instance'.currentState, instance'.destroy⟩

/-- What the table keeps of a flow, if it has an instance. -/
def Instances.flow (I : Instances H) (k : FlowKey) : Option FlowState :=
  (H.lookup I.instancesHmap k).map fun p => (I.instancesPool p).flowState

/-- What a table does with packets: everything in it that never changes. -/
structure Program (HE : SlotMap State) where
  conditions : Fin maxConditions → XfsmCondition
  nbConditions : ℕ
  entries : Entries HE XfsmTableEntry
  defaultState : State

/-- The program of a table. -/
def XfsmTable.program (T : XfsmTable H HE) : Program HE :=
  ⟨T.conditions, T.nbConditions, T.entries, T.defaultState⟩

/-- The actions of a row, on a flow. -/
def XfsmTableEntry.executed (row : XfsmTableEntry) (X : Exec) : Option FlowState :=
  if X.destroy then none else some ⟨X.registers, row.nextState, X.destroy⟩

/-- **What a packet makes of its flow**: nothing if no row matches or the
flow is destroyed. -/
def Program.flowVisit (P : Program HE) (E : Env) (s : FlowState) : Option (Option FlowState) :=
  (xfsmEvaluateConditions E P.conditions P.nbConditions s.registers fun _ => .unset).bind
    fun results =>
      (xfsmTableLookup P.entries XfsmTableEntry.results P.nbConditions s.currentState
        results).bind fun
        | none => some (some s)
        | some row =>
          (xfsmExecuteActions E.pktFields row.actions
            { registers := s.registers
              globalRegisters := E.globalRegisters
              destroy := s.destroy
              mem := E.mem
              reg1 := 0
              reg2 := 0
              reg3 := 0
              events := [] }).map fun X =>
            row.executed X

section Refine

variable {T : XfsmTable H HE} {M : Mem} {key : FlowKey} {V : Visited H HE} {k : FlowKey}

/-- Preparing a visit leaves the program as it is. -/
theorem program_prepare {R : Ready H HE} (h : T.prepare M key = some R) :
    R.table.program = T.program := by
  obtain ⟨fields, results, -, -, -, -, htable⟩ := prepare_eq_some h
  rw [htable]
  rfl

/-- A visit leaves the program as it is. -/
theorem program_visit (h : T.visit M key = some V) : V.table.program = T.program := by
  obtain ⟨R, hprepare, h⟩ := Option.bind_eq_some_iff.mp h
  obtain ⟨row, -, h⟩ := Option.bind_eq_some_iff.mp h
  have hprogram := program_prepare hprepare
  cases row with
  | none =>
    cases h
    exact hprogram
  | some row =>
    obtain ⟨X, -, rfl⟩ := Option.map_eq_some_iff.mp h
    rw [← hprogram]
    split <;> rfl

/-- **Executing a row** on an instance does the same to its flow. -/
theorem flow_execute {R : Ready H HE} {row : XfsmTableEntry} (hkeyed : R.table.instances.Keyed)
    (hlive : H.lookup R.table.instances.instancesHmap R.key = some R.place)
    (h : R.execute M row = some V) :
    ∃ X, xfsmExecuteActions R.table.pktFields row.actions
        (R.table.instances.start R.place ⟨R.table.globalRegisters, R.table.pktFields, M⟩) =
          some X ∧
      V.key = R.key ∧ V.table.instances.flow R.key = row.executed X := by
  obtain ⟨X, hX, rfl⟩ := Option.map_eq_some_iff.mp h
  refine ⟨X, hX, ?_⟩
  have hkeyed' : (R.table.instances.finish R.place X).Keyed :=
    hkeyed.touches (touches_setInstance hlive rfl)
  unfold XfsmTableEntry.executed
  by_cases hdestroy : X.destroy = true
  · rw [if_pos hdestroy, if_pos hdestroy]
    refine ⟨rfl, ?_⟩
    show (H.lookup ((R.table.instances.finish R.place X).destroyInstance R.table.defaultState
      R.place).instancesHmap R.key).map _ = none
    rw [(destroyInstance_of_keyed hkeyed' hlive).1, Function.update_self]
    rfl
  · rw [if_neg hdestroy, if_neg hdestroy]
    refine ⟨rfl, ?_⟩
    show (H.lookup R.table.instances.instancesHmap R.key).map _ = _
    rw [hlive]
    unfold Instances.setState Instances.finish Instances.setInstance
    simp only [Option.map_some, Function.update_self, XfsmInstance.flowState]

/-- **A visit does to its flow what the program says**, from what is in
the place looked up. -/
theorem flow_visit (hT : T.instances.Keyed) (h : T.visit M key = some V) :
    ∃ fields place, parsePktHeader M T.pktFields = some fields ∧
      (T.instances.lookupInstance V.key).2 = some place ∧
      T.program.flowVisit ⟨T.globalRegisters, fields, M⟩
          ((T.instances.lookupInstance V.key).1.instancesPool place).flowState =
        some (V.table.instances.flow V.key) := by
  obtain ⟨R, hprepare, h⟩ := Option.bind_eq_some_iff.mp h
  obtain ⟨row, hrow, h⟩ := Option.bind_eq_some_iff.mp h
  obtain ⟨hcalls, hlive, hstate⟩ := calls_of_prepare hprepare
  obtain ⟨hkeyed, -⟩ := hcalls.leavesAlone hT
  obtain ⟨fields, results, hfields, -, hplace, hresults, htable⟩ := prepare_eq_some hprepare
  -- the results an instance had before do not matter
  obtain ⟨results', hresults', hsame⟩ := @xfsmEvaluateConditions_results _ _ _ _ _
    (fun _ => .unset) _ hresults
  have hinst : R.matchInst = { (T.instances.lookupInstance R.key).1.instancesPool R.place with
      results := results } := by
    unfold Ready.matchInst
    rw [htable]
    exact Function.update_self _ _ _
  have hlookup : xfsmTableLookup T.program.entries XfsmTableEntry.results T.program.nbConditions
      ((T.instances.lookupInstance R.key).1.instancesPool R.place).currentState results' =
        some row := by
    refine (xfsmTableLookup_congr hsame _).symm.trans ?_
    rw [← hrow]
    unfold Ready.tableLookup
    rw [hinst, htable]
    rfl
  have hregisters : R.matchInst.flowState =
      ((T.instances.lookupInstance R.key).1.instancesPool R.place).flowState := by
    rw [hinst]
    rfl
  cases row with
  | none =>
    cases h
    refine ⟨fields, R.place, hfields, hplace, ?_⟩
    refine (congrArg (Option.bind · _) hresults').trans
      ((congrArg (Option.bind · _) hlookup).trans (congrArg some ?_))
    show _ = (H.lookup R.table.instances.instancesHmap R.key).map _
    rw [hlive]
    exact congrArg some hregisters.symm
  | some row =>
    obtain ⟨X, hX, hkey, hflow⟩ := flow_execute hkeyed hlive h
    rw [hkey]
    refine ⟨fields, R.place, hfields, hplace, ?_⟩
    refine (congrArg (Option.bind · _) hresults').trans
      ((congrArg (Option.bind · _) hlookup).trans ?_)
    rw [hflow]
    refine (congrArg (Option.map row.executed) ?_).trans (congrArg (Option.map row.executed) hX)
    unfold Instances.start
    rw [show R.table.instances.instancesPool R.place = R.matchInst from rfl, hinst, htable]
    rfl

end Refine

/-! ## Clean visits -/

/-- **A program names a field**, in a condition or in an action of one of
its rows. -/
def Program.Names (P : Program HE) (f : HdrField) : Prop :=
  (∃ i : Fin maxConditions, i.val < P.nbConditions ∧ (P.conditions i).Names f) ∨
    ∃ s rows row act, bucket P.entries s = some rows ∧ row ∈ rows ∧ act ∈ row.actions ∧
      XfsmAction.Names act f

/-- **No pointer is left over**: the fields the program names that the
packet's branch of the parser leaves alone have no pointer from a packet
before. -/
def XfsmTable.NoneLeftOver (T : XfsmTable H HE) (M : Mem) : Prop :=
  ∀ f b, T.program.Names f → M.packet.branch = some b → M.packet.assigned b f = none →
    T.pktFields f = none

/-- **Where a flow starts**: the state that the place holds which it may be
handed, if it has no instance. -/
def XfsmTable.startState (T : XfsmTable H HE) (k : FlowKey) : Option State :=
  if (H.lookup T.instances.instancesHmap k).isSome then none
  else (H.add T.instances.instancesHmap k).2.map fun p =>
    (T.instances.instancesPool p).currentState

/-- **A packet of a flow by itself**: no pointer is set before it, and a
flow that is not there starts in that state. `input` is what the table's
registers hold, and the packet. -/
def Program.flowStep (P : Program HE) (s : Option FlowState)
    (input : (Registers × Mem) × Option State) : Option (Option FlowState) :=
  (parsePktHeader input.1.2 .null).bind fun fields =>
    P.flowVisit ⟨input.1.1, fields, input.1.2⟩ (s.getD (.fresh (input.2.getD 0)))

/-- The packets of a flow by themselves. -/
def Program.flowRun (P : Program HE) (s : Option FlowState)
    (inputs : List ((Registers × Mem) × Option State)) : Option (Option FlowState) :=
  inputs.foldlM P.flowStep s

/-- The instances of a table came about by calls on flows. -/
def XfsmTable.Reached (T : XfsmTable H HE) : Prop :=
  ∃ cs, Instances.flowCalls H T.defaultState cs = some T.instances

section Clean

variable {T : XfsmTable H HE} {M : Mem} {key : FlowKey} {V : Visited H HE} {P : Program HE}

/-- **A flow depends on the fields named.** -/
theorem flowVisit_congr {G : Registers} {fields fields' : PktFields}
    (h : ∀ f, P.Names f → fields f = fields' f) (s : FlowState) :
    P.flowVisit ⟨G, fields, M⟩ s = P.flowVisit ⟨G, fields', M⟩ s := by
  unfold Program.flowVisit
  rw [xfsmEvaluateConditions_congr fun i hi f hf => h f (.inl ⟨i, hi, hf⟩)]
  refine congrArg _ (funext fun results => ?_)
  cases hlookup : xfsmTableLookup P.entries XfsmTableEntry.results P.nbConditions s.currentState
      results with
  | none => rfl
  | some row =>
    cases row with
    | none => rfl
    | some row =>
      unfold xfsmTableLookup at hlookup
      cases hbucket : bucket P.entries s.currentState with
      | none =>
        rw [hbucket] at hlookup
        cases hlookup
      | some rows =>
        rw [hbucket] at hlookup
        have hrow := mem_of_scanBucket hlookup
        refine congrArg (Option.map row.executed) (xfsmExecuteActions_congr fun act hact f hf => ?_)
        exact h f (.inr ⟨_, rows, row, act, hbucket, hrow, hact, hf⟩)

theorem Reached.visit (hT : T.Reached) (h : T.visit M key = some V) : V.table.Reached := by
  obtain ⟨cs, hcs⟩ := hT
  obtain ⟨cs', -, hcs'⟩ := calls_of_visit h
  have hstate : V.table.defaultState = T.defaultState :=
    congrArg Program.defaultState (program_visit h)
  refine ⟨cs ++ cs', ?_⟩
  unfold Instances.flowCalls at hcs ⊢
  rw [hstate, List.foldlM_append, hcs]
  exact hcs'

/-- What the place looked up holds: the flow, or a fresh one. -/
theorem flowState_lookupInstance (hT : T.Reached) {k : FlowKey} {p : ℕ}
    (hp : (T.instances.lookupInstance k).2 = some p) :
    ((T.instances.lookupInstance k).1.instancesPool p).flowState =
      (T.instances.flow k).getD (.fresh ((T.startState k).getD 0)) := by
  obtain ⟨cs, hcs⟩ := hT
  obtain ⟨-, hfree⟩ := flowCalls_invariant hcs
  unfold Instances.flow XfsmTable.startState
  cases hk : H.lookup T.instances.instancesHmap k with
  | some place =>
    rw [lookupInstance_of_mem hk] at hp ⊢
    cases hp
    rfl
  | none =>
    -- a place that is free: its registers are zero, its state is what was left there
    obtain ⟨hplace, hpool⟩ := lookupInstance_new hk hp
    rw [lookupInstance_absent hk] at hp
    have hadd : (H.add T.instances.instancesHmap k).2 = some p := by
      split at hp
      · exact hp
      · cases hp
    rw [hpool, hadd]
    unfold XfsmInstance.flowState
    simp only [hfree.registers p hplace, hfree.destroy p hplace]
    rfl

/-- **A visit without pointers left over does to its flow what its packet
does by itself.** -/
theorem flowStep_of_visit (hT : T.Reached) (hclean : T.NoneLeftOver M)
    (h : T.visit M key = some V) :
    T.program.flowStep (T.instances.flow V.key) ((T.globalRegisters, M), T.startState V.key) =
      some (V.table.instances.flow V.key) := by
  have hkeyed : T.instances.Keyed := by
    obtain ⟨cs, hcs⟩ := hT
    exact (flowCalls_invariant hcs).1
  obtain ⟨fields, place, hfields, hplace, hflow⟩ := flow_visit hkeyed h
  rw [flowState_lookupInstance hT hplace] at hflow
  rw [parsePktHeader_eq] at hfields
  obtain ⟨b, hb, rfl⟩ := Option.map_eq_some_iff.mp hfields
  unfold Program.flowStep
  rw [parsePktHeader_eq, hb]
  refine (flowVisit_congr (fun f hf => ?_) _).trans hflow
  unfold Packet.overlay
  cases hassigned : M.packet.assigned b f with
  | none => exact (hclean f b hf hb hassigned).symm
  | some v => rfl

end Clean

/-! ## Runs -/

/-- A run of a table: packets, each with what the buffer `fk` holds when
it comes, which the other stages share. -/
def runTable (T : XfsmTable H HE) (run : List (FlowKey × Mem)) : Option (XfsmTable H HE) :=
  run.foldlM (fun T s => (T.visit s.2 s.1).map Visited.table) T

/-- What the visits of a flow in a run find, each before its packet. -/
def flowVisits {α : Type} (k : FlowKey) (find : XfsmTable H HE → Mem → α) :
    XfsmTable H HE → List (FlowKey × Mem) → List α
  | _, [] => []
  | T, s :: run =>
    match T.visit s.2 s.1 with
    | none => []
    | some V =>
      if V.key = k then find T s.2 :: flowVisits k find V.table run
      else flowVisits k find V.table run

/-- **The packets of a flow in a run**, each with what the table's
registers hold when it comes. -/
def flowInputs (k : FlowKey) (T : XfsmTable H HE) (run : List (FlowKey × Mem)) :
    List (Registers × Mem) :=
  flowVisits k (fun T M => (T.globalRegisters, M)) T run

/-- **Where a flow starts in a run**: at each of its packets, the state of
the place it may be handed. -/
def flowStarts (k : FlowKey) (T : XfsmTable H HE) (run : List (FlowKey × Mem)) :
    List (Option State) :=
  flowVisits k (fun T _ => T.startState k) T run

/-- **No packet of a flow finds a pointer left over** in a run. -/
def FindsNoneLeftOver (k : FlowKey) : XfsmTable H HE → List (FlowKey × Mem) → Prop
  | _, [] => True
  | T, s :: run => ∀ V, T.visit s.2 s.1 = some V →
      (V.key = k → T.NoneLeftOver s.2) ∧ FindsNoneLeftOver k V.table run

section Runs

variable {T T' : XfsmTable H HE} {run : List (FlowKey × Mem)}

/-- What visits find may be told apart. -/
theorem flowVisits_map {α β : Type} (k : FlowKey) (find : XfsmTable H HE → Mem → α) (g : α → β)
    (T : XfsmTable H HE) (run : List (FlowKey × Mem)) :
    (flowVisits k find T run).map g = flowVisits k (fun T M => g (find T M)) T run := by
  induction run generalizing T with
  | nil => rfl
  | cons s run ih =>
    unfold flowVisits
    cases T.visit s.2 s.1 with
    | none => rfl
    | some V =>
      dsimp only
      split
      · rw [List.map_cons, ih]
      · exact ih V.table

/-- The packets of a flow, and where it starts. -/
theorem flowVisits_eq_zip (k : FlowKey) (T : XfsmTable H HE) (run : List (FlowKey × Mem)) :
    flowVisits k (fun T M => ((T.globalRegisters, M), T.startState k)) T run =
      (flowInputs k T run).zip (flowStarts k T run) :=
  List.zip_of_prod
    (flowVisits_map k (fun T M => ((T.globalRegisters, M), T.startState k)) Prod.fst T run)
    (flowVisits_map k (fun T M => ((T.globalRegisters, M), T.startState k)) Prod.snd T run)

/-- **Without pointers left over a flow is as if it were alone.** -/
theorem flowRun_of_runTable (hT : T.Reached) {k : FlowKey} (hclean : FindsNoneLeftOver k T run)
    (h : runTable T run = some T') :
    T.program.flowRun (T.instances.flow k)
      (flowVisits k (fun T M => ((T.globalRegisters, M), T.startState k)) T run) =
        some (T'.instances.flow k) := by
  induction run generalizing T with
  | nil =>
    cases h
    rfl
  | cons s run ih =>
    unfold runTable at h
    rw [List.foldlM_cons] at h
    obtain ⟨T₁, hvisit, h⟩ := Option.bind_eq_some_iff.mp h
    obtain ⟨V, hV, rfl⟩ := Option.map_eq_some_iff.mp hvisit
    obtain ⟨hcleanV, hcleanRun⟩ := hclean V hV
    have hrest := ih (Reached.visit hT hV) hcleanRun h
    rw [program_visit hV] at hrest
    have hkeyed : T.instances.Keyed := by
      obtain ⟨cs, hcs⟩ := hT
      exact (flowCalls_invariant hcs).1
    unfold flowVisits
    rw [hV]
    dsimp only
    -- the packet is of this flow, or leaves it alone
    by_cases hk : V.key = k
    · rw [if_pos hk]
      subst hk
      unfold Program.flowRun at hrest ⊢
      rw [List.foldlM_cons, flowStep_of_visit hT (hcleanV rfl) hV]
      exact hrest
    · rw [if_neg hk]
      have halone := ((calls_of_visit hV).leavesAlone hkeyed).2 k (Ne.symm hk)
      have hflow : V.table.instances.flow k = T.instances.flow k := by
        unfold Instances.flow
        rw [halone.lookup]
        exact Option.map_congr fun p hp => by rw [halone.pool p hp]
      rw [hflow] at hrest
      exact hrest

theorem reached_runTable (hT : T.Reached) (h : runTable T run = some T') : T'.Reached := by
  induction run generalizing T with
  | nil =>
    cases h
    exact hT
  | cons s run ih =>
    unfold runTable at h
    rw [List.foldlM_cons] at h
    obtain ⟨T₁, hvisit, h⟩ := Option.bind_eq_some_iff.mp h
    obtain ⟨V, hV, rfl⟩ := Option.map_eq_some_iff.mp hvisit
    exact ih (Reached.visit hT hV) h

/-- **Flows are isolated** in a table, as far as such runs go: a packet
leaves every other flow alone, live flows have places of their own, and a
flow that gets the same packets in two runs that are alike for it is left
the same. -/
structure Isolates (T₀ : XfsmTable H HE)
    (alike : FlowKey → List (FlowKey × Mem) → List (FlowKey × Mem) → Prop) : Prop where
  alone : ∀ run T M key V, runTable T₀ run = some T → T.visit M key = some V →
    ∀ k, k ≠ V.key → LeavesAlone T.instances V.table.instances k
  distinct : ∀ run T, runTable T₀ run = some T → ∀ k k' p,
    H.lookup T.instances.instancesHmap k = some p →
      H.lookup T.instances.instancesHmap k' = some p → k = k'
  same : ∀ k run₁ run₂, alike k run₁ run₂ → ∀ T₁ T₂, runTable T₀ run₁ = some T₁ →
    runTable T₀ run₂ = some T₂ → flowInputs k T₀ run₁ = flowInputs k T₀ run₂ →
      T₁.instances.flow k = T₂.instances.flow k

/-- **Two runs that are alike for a flow**: none of its packets finds a
pointer left over, and the places it is handed hold the same states. -/
structure AlikeFor (T₀ : XfsmTable H HE) (k : FlowKey) (run₁ run₂ : List (FlowKey × Mem)) :
    Prop where
  pointers₁ : FindsNoneLeftOver k T₀ run₁
  pointers₂ : FindsNoneLeftOver k T₀ run₂
  starts : flowStarts k T₀ run₁ = flowStarts k T₀ run₂

theorem reached_create {entries : List XfsmTableEntry} {initialState : Byte}
    {conditions : Fin maxConditions → XfsmCondition} {conditionsNumber : Byte}
    {lookupKey : LookupKey}
    (h : xfsmTableCreate H HE entries initialState conditions conditionsNumber lookupKey =
      some T) : T.Reached := by
  obtain ⟨E, -, rfl⟩ := Option.map_eq_some_iff.mp h
  exact ⟨[], rfl⟩

/-- **Runs that are alike for a flow leave it the same.** That packets
leave other flows alone and that places are distinct holds of every run. -/
theorem isolates_alike {entries : List XfsmTableEntry} {initialState : Byte}
    {conditions : Fin maxConditions → XfsmCondition} {conditionsNumber : Byte}
    {lookupKey : LookupKey}
    (h : xfsmTableCreate H HE entries initialState conditions conditionsNumber lookupKey =
      some T) : Isolates T (AlikeFor T) where
  alone run T' M key V hrun hV k hk := by
    obtain ⟨cs, hcs⟩ := reached_runTable (reached_create h) hrun
    exact ((calls_of_visit hV).leavesAlone (flowCalls_invariant hcs).1).2 k hk
  distinct _ _ _ _ _ _ hk hk' := H.lookup_inj hk hk'
  same k run₁ run₂ halike T₁ T₂ hrun₁ hrun₂ hinputs := by
    have h₁ := flowRun_of_runTable (reached_create h) halike.pointers₁ hrun₁
    have h₂ := flowRun_of_runTable (reached_create h) halike.pointers₂ hrun₂
    have hvisits : flowVisits k (fun T M => ((T.globalRegisters, M), T.startState k)) T run₁ =
        flowVisits k (fun T M => ((T.globalRegisters, M), T.startState k)) T run₂ := by
      rw [flowVisits_eq_zip, flowVisits_eq_zip, hinputs, halike.starts]
    rw [hvisits, h₂] at h₁
    exact (Option.some.inj h₁).symm

/-- The pointers that a visit leaves are those of its packet. -/
theorem pktFields_of_visit {M : Mem} {key : FlowKey} {V : Visited H HE}
    (h : T.visit M key = some V) : parsePktHeader M T.pktFields = some V.table.pktFields := by
  obtain ⟨R, hprepare, h⟩ := Option.bind_eq_some_iff.mp h
  obtain ⟨row, -, h⟩ := Option.bind_eq_some_iff.mp h
  obtain ⟨fields, results, hfields, -, -, -, htable⟩ := prepare_eq_some hprepare
  have hsame : V.table.pktFields = R.table.pktFields := by
    cases row with
    | none =>
      cases h
      rfl
    | some row =>
      obtain ⟨X, -, rfl⟩ := Option.map_eq_some_iff.mp h
      split <;> rfl
  rw [hsame, htable]
  exact hfields

/-- **Where all packets take one branch of the parser** no pointer is left
over. -/
theorem findsNoneLeftOver_of_branch {k : FlowKey} {b : Branch}
    (hT : ∀ (p : Packet) f, p.assigned b f = none → T.pktFields f = none)
    (hbranch : ∀ s ∈ run, s.2.packet.branch = some b) : FindsNoneLeftOver k T run := by
  induction run generalizing T with
  | nil => exact trivial
  | cons s run ih =>
    intro V hV
    have hs := hbranch s List.mem_cons_self
    refine ⟨fun _ f b' _ hb' hassigned => ?_, ih (fun p f hassigned => ?_)
      fun s' hs' => hbranch s' (List.mem_cons_of_mem _ hs')⟩
    -- what this branch leaves alone, no packet before has set
    · obtain rfl : b' = b := Option.some.inj (hb'.symm.trans hs)
      exact hT _ f hassigned
    · have hparse := pktFields_of_visit hV
      rw [parsePktHeader_eq] at hparse
      obtain ⟨b', hb', hfields⟩ := Option.map_eq_some_iff.mp hparse
      obtain rfl : b' = b := Option.some.inj (hb'.symm.trans hs)
      rw [← hfields]
      unfold Packet.overlay
      rw [assigned_eq_none_of_branch hassigned]
      exact hT p f hassigned

end Runs

/-! ### A place handed on -/

/-- The packet came in at the first port. -/
def fromFirstPort : XfsmCondition := ⟨.xfsmHdrField, .xfsmConstant, 24, 1, .xfsmEqual⟩

/-- `destroy`. -/
def destroyFlow : XfsmAction :=
  ⟨.xfsmDestroy, .xfsmSum, .xfsmConstant, 0, .xfsmConstant, 0, .xfsmConstant, 0, 0, .xfsmRegister⟩

/-- A stage with initial state 1, a flow for each port. A flow in state 0
goes to state 2, or is destroyed if it is the first port's; a flow in
state 1 goes to state 3. -/
def portStage : XfsmTable (listSlotMap FlowKey) (listSlotMap State) :=
  (xfsmTableCreate (listSlotMap FlowKey) (listSlotMap State)
    [⟨0, 0, 255, fun i => if i.val = 0 then .xfsmTrue else .xfsmDontCare, [destroyFlow]⟩,
      ⟨0, 2, 255, fun _ => .xfsmDontCare, []⟩, ⟨1, 3, 255, fun _ => .xfsmDontCare, []⟩]
    1 (fun _ => fromFirstPort) 1 ⟨1, fun _ => .xfsmInPort, 0⟩).get (by decide +kernel)

/-- A packet from a port. -/
def fromPort (port : Byte) : FlowKey × Mem :=
  (fun _ => 0, ⟨port, ⟨port.toNat, tcpReceived.mbuf⟩⟩)

/-- The flow of a port. -/
def portKey (port : Byte) : FlowKey := fun i => if i = 0 then port.setWidth 32 else 0

/-- **Packets of the third port**, before and after, leave the flow of the
second port in the same state. -/
theorem isolates_portStage :
    ∃ T₁ T₂, runTable portStage [fromPort 2] = some T₁ ∧
      runTable portStage [fromPort 3, fromPort 2, fromPort 3] = some T₂ ∧
      T₁.instances.flow (portKey 2) = T₂.instances.flow (portKey 2) ∧
      (T₁.instances.flow (portKey 2)).map FlowState.currentState = some 2 := by
  have halone : (runTable portStage [fromPort 2]).map
      (fun T => (T.instances.flow (portKey 2)).map FlowState.currentState) = some (some 2) := by
    decide +kernel
  have hamong : (runTable portStage [fromPort 3, fromPort 2, fromPort 3]).isSome = true := by
    decide +kernel
  obtain ⟨T₁, hrun₁, hstate⟩ := Option.map_eq_some_iff.mp halone
  obtain ⟨T₂, hrun₂⟩ := Option.isSome_iff_exists.mp hamong
  have hnone : ∀ (p : Packet) f, p.assigned .tcp f = none → portStage.pktFields f = none :=
    fun _ _ _ => rfl
  have hbranch : ∀ port : Byte, (fromPort port).2.packet.branch = some .tcp := fun _ => rfl
  refine ⟨T₁, T₂, hrun₁, hrun₂, ?_, hstate⟩
  refine (isolates_alike (Option.some_get _).symm).same (portKey 2) _ _ ⟨?_, ?_, ?_⟩ T₁ T₂ hrun₁
    hrun₂ ?_
  · exact findsNoneLeftOver_of_branch hnone (by simp [hbranch])
  · exact findsNoneLeftOver_of_branch hnone (by simp [hbranch])
  · decide +kernel
  · rfl

/-- **The second port's flow is in another state** if the first port's
came and went before. -/
theorem not_isolates : ¬Isolates portStage fun _ _ _ => True := by
  intro h
  have halone : (runTable portStage [fromPort 2]).map
      (fun T => (T.instances.flow (portKey 2)).map FlowState.currentState) = some (some 2) := by
    decide +kernel
  have hafter : (runTable portStage [fromPort 1, fromPort 2]).map
      (fun T => (T.instances.flow (portKey 2)).map FlowState.currentState) = some (some 3) := by
    decide +kernel
  obtain ⟨T₁, hrun₁, hstate₁⟩ := Option.map_eq_some_iff.mp halone
  obtain ⟨T₂, hrun₂, hstate₂⟩ := Option.map_eq_some_iff.mp hafter
  have hsame := h.same (portKey 2) _ _ trivial T₁ T₂ hrun₁ hrun₂ rfl
  rw [hsame, hstate₂] at hstate₁
  exact absurd hstate₁ (by decide)

end Sw

end FlowBlaze
