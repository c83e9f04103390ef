import FlowBlaze.Sw.AnyHeaders
import FlowBlaze.UseCases.Loading
/-!
# The port knocking firewall — `UseCases/port_knocking_firewall.xl`

A host is to knock at four ports before its packets pass. The rows of the
first state are stored under the reserved state when the row of `any`
comes: the first state is left without rows, and no host ever leaves it.
So nobody passes without having knocked, and nobody passes who has.

This does not depend on what the conditions say. A packet that is neither
TCP, UDP nor ICMP is judged by what pointers of earlier packets happen to
point at, which may be anything: `Worker.RunsSomehow` are the runs in
which it is.
-/

namespace FlowBlaze

namespace UseCases

open Common Sw Xl

/-! ## The program -/

/-- A state that waits for a packet to a port. -/
def knockAt (port : ℕ) (body : List BodyElement) : EventStatementContext :=
  ⟨"pktRcvd", [],
    [⟨[⟨.xtraEqual, fieldElem "tcp" "dport", decimalInteger port⟩], body⟩]⟩

/-- `port_knocking_firewall.xl`. -/
def portKnockingFirewall : ProgramContext :=
  .stageProgram []
    [⟨"port_knocking_on_the_heavens_door", [],
      [call "setFlowKey" [fieldElem "ipv4" "src"]],
      [⟨true, "init", [], [knockAt 2570 [call "setNextState" [.identifier "port1"]]]⟩,
        ⟨false, "port1", [], [knockAt 2827 [call "setNextState" [.identifier "port2"]]]⟩,
        ⟨false, "port2", [], [knockAt 3084 [call "setNextState" [.identifier "port3"]]]⟩,
        ⟨false, "port3", [], [knockAt 5555 [call "setNextState" [.identifier "allowed"]]]⟩,
        ⟨false, "allowed", [],
          [knockAt 22 [call "sendPacket" [decimalInteger 255, decimalInteger 2]]]⟩,
        ⟨false, "any", [],
          [⟨"pktRcvd", [],
            [⟨[⟨.xtraEqual, fieldElem "pktRcvd" "port", decimalInteger 2⟩],
              [call "sendPacket" [decimalInteger 255, decimalInteger 1]]⟩]⟩]⟩]⟩]

/-- The condition on the port knocked at. -/
def dportIs (port : Word64) : XfsmCondition :=
  ⟨.xfsmHdrField, .xfsmConstant, 13, port, .xfsmEqual⟩

/-- **What is loaded** of it. -/
def firewallTable : LoadedTable where
  conditionsNumber := 6
  conditions :=
    [(0, dportIs 2570), (1, dportIs 2827), (2, dportIs 3084), (3, dportIs 5555), (4, dportIs 22),
      (5, ⟨.xfsmHdrField, .xfsmConstant, 24, 2, .xfsmEqual⟩)]
  initialState := 0
  tableSize := 6
  entries :=
    [⟨0, 1, 255, asks [0], []⟩, ⟨1, 2, 255, asks [1], []⟩, ⟨2, 3, 255, asks [2], []⟩,
      ⟨3, 4, 255, asks [3], []⟩, ⟨4, 4, 255, asks [4], [sendPacket 2]⟩,
      ⟨255, 255, 255, asks [5], [sendPacket 1]⟩]
  lookupKey := []
  biflowNo := 0

theorem loadedTables_firewall :
    loadedTables keyOrders portKnockingFirewall = some [firewallTable] := by
  decide +kernel

theorem singleEvents_firewall : singleEvents portKnockingFirewall = true := rfl

/-- **The first state is left without rows.** -/
theorem nodeOf_firewall :
    nodeOf XfsmTableEntry.currentState firewallTable.entries headState = [] := rfl

/-! ## Nobody passes -/

section Firewall

variable {H : SlotMap FlowKey} {HE : SlotMap Sw.State}

/-- A TCP packet. -/
def isTcp (rx : Received) : Prop := rx.mbuf.data[23]? = some ipprotoTcp

/-- The port a packet goes to. -/
def dportOf (rx : Received) : Option ℕ := packetInteger rx.mbuf.data 36 2

instance (rx : Received) : Decidable (isTcp rx) := inferInstanceAs (Decidable (_ = _))

/-- **A host has knocked**: among the packets of it there are TCP packets to
the four ports, in this order. -/
def HasKnocked (earlier : List Received) (host : Option ℕ) : Prop :=
  List.Sublist [some 2570, some 2827, some 3084, some 5555]
    ((earlier.filter fun rx => isTcp rx ∧ sourceOf rx = host).map dportOf)

/-- A packet is transmitted on a port, which are counted from one. -/
def TransmittedOn (port : BitVec 16) (visits : List (Visited H HE)) : Prop :=
  .txBuffer (port - 1) ∈ mbufEvents visits

/-- **Nobody passes without knocking.** -/
def NobodyPasses (tables : List (XfsmTable H HE)) (rxs : List Received) : Prop :=
  ∀ served W, (Worker.start tables).RunsSomehow rxs served W →
    ∀ i rx visits, rxs[i]? = some rx → served[i]? = some visits → TransmittedOn 2 visits →
      isTcp rx ∧ dportOf rx = some 22 ∧ HasKnocked (rxs.take i) (sourceOf rx)

variable {t T : XfsmTable H HE} {M : Mem} {V : Visited H HE} {W W' : Worker H HE}
  {rx : Received} {rxs : List Received} {visits : List (Visited H HE)}
  {served : List (List (Visited H HE))}

/-- **No instance has left the first state.** -/
structure Shut (t T : XfsmTable H HE) : Prop where
  entries : T.entries = t.entries
  nbConditions : T.nbConditions = t.nbConditions
  states : ∀ place, (T.instances.instancesPool place).currentState = headState

/-- Looking an instance up leaves the states. -/
theorem currentState_lookupInstance (I : Instances H) (key : FlowKey) (place : ℕ) :
    ((I.lookupInstance key).1.instancesPool place).currentState =
      (I.instancesPool place).currentState := by
  cases hkey : H.lookup I.instancesHmap key with
  | some p => rw [lookupInstance_of_mem hkey]
  | none =>
    rcases lookupInstance_cases hkey with ⟨-, -, -, hpool, -⟩ | ⟨p, -, -, -, hpool, -⟩
    · rw [hpool]
    · rw [hpool]
      by_cases hp : place = p
      · rw [hp, Function.update_self]
      · rw [Function.update_of_ne hp]

/-- **A packet finds no row**, and leaves. -/
theorem shut_visitsSomehow (hHE : HE.AcceptsBelow) (h : firewallTable.create H HE = some t)
    (hshut : Shut t T) (hV : T.VisitsSomehow M V) :
    Shut t V.table ∧ V.next = none ∧ V.events = [.access] := by
  obtain ⟨fields, key, place, results, row, -, hlookup, hV⟩ := hV
  have hstate : ∀ p, (((T.instances.lookupInstance key).1.setInstance place
      { (T.instances.lookupInstance key).1.instancesPool place with
        results := results }).instancesPool p).currentState = headState := by
    intro p
    by_cases hp : p = place
    · rw [hp]
      simp only [Instances.setInstance, Function.update_self]
      exact (currentState_lookupInstance _ _ _).trans (hshut.states place)
    · simp only [Instances.setInstance, Function.update_of_ne hp]
      exact (currentState_lookupInstance _ _ _).trans (hshut.states p)
  -- the row of any state has taken over the first state's place in the list, so that
  -- the first state has no rows
  have hnone : row = none := by
    unfold Ready.tableLookup at hlookup
    change xfsmTableLookup T.entries _ T.nbConditions (XfsmInstance.currentState _) _ = _ at hlookup
    unfold Ready.matchInst at hlookup
    rw [hshut.entries, hshut.nbConditions, hstate place,
      lookup_of_create hHE (by decide) h, nodeOf_firewall] at hlookup
    exact (Option.some.inj hlookup).symm
  subst hnone
  cases hV
  exact ⟨⟨hshut.entries, hshut.nbConditions, hstate⟩, rfl, rfl⟩

/-- The first table of a worker is shut. -/
def Worker.Shut (t : XfsmTable H HE) (W : Worker H HE) : Prop :=
  ∃ T, W.tables 0 = some T ∧ UseCases.Shut t T

/-- A packet is not transmitted. -/
theorem shut_walksSomehow (hHE : HE.AcceptsBelow) (h : firewallTable.create H HE = some t)
    {packet : Packet} (hshut : Worker.Shut t W) (hwalk : W.WalksSomehow rx packet 0 W' visits) :
    Worker.Shut t W' ∧ mbufEvents visits = [.access, .free] := by
  obtain ⟨T, hT, hshut⟩ := hshut
  cases hwalk with
  | leaves _ hT' hV _ =>
    rw [hT] at hT'
    cases hT'
    obtain ⟨hshut', -, hevents⟩ := shut_visitsSomehow hHE h hshut hV
    refine ⟨⟨_, tables_after W 0 _, hshut'⟩, ?_⟩
    unfold mbufEvents
    rw [List.flatMap_singleton, hevents]
    rfl
  | goesOn _ hT' hV hnext _ =>
    rw [hT] at hT'
    cases hT'
    rw [(shut_visitsSomehow hHE h hshut hV).2.1] at hnext
    cases hnext

/-- **Nothing is ever transmitted.** -/
theorem shut_runsSomehow (hHE : HE.AcceptsBelow) (h : firewallTable.create H HE = some t)
    (hshut : Worker.Shut t W) (hruns : W.RunsSomehow rxs served W') :
    ∀ visits ∈ served, mbufEvents visits = [.access, .free] := by
  induction hruns with
  | nil => exact fun visits hvisits => by cases hvisits
  | cons hwalk _ ih =>
    obtain ⟨hshut', hevents⟩ :=
      shut_walksSomehow hHE h (by exact hshut) hwalk
    exact List.forall_mem_cons.mpr ⟨hevents, ih hshut'⟩

theorem shut_start (h : firewallTable.create H HE = some t) : Worker.Shut t (Worker.start [t]) := by
  obtain ⟨conditions, E, -, -, -, rfl⟩ := create_eq_some h
  exact ⟨_, rfl, rfl, rfl, fun _ => rfl⟩

variable {orders : Orders} {loaded : List LoadedTable} {tables : List (XfsmTable H HE)}

/-- **Nobody passes the port knocking firewall without knocking.** -/
theorem nobodyPasses (hHE : HE.AcceptsBelow)
    (h : compileAndLoad H HE orders portKnockingFirewall = some (loaded, tables))
    (rxs : List Received) : NobodyPasses tables rxs := by
  obtain ⟨t, ht, rfl⟩ := table_of_load singleEvents_firewall loadedTables_firewall h
  intro served W hruns i rx visits _ hvisits htransmitted
  have hevents := shut_runsSomehow hHE ht (shut_start ht) hruns visits
    (List.mem_of_getElem? hvisits)
  unfold TransmittedOn at htransmitted
  rw [hevents] at htransmitted
  exact absurd htransmitted (by decide)

end Firewall

/-- A host knocks at the four ports, and then asks for the fifth. -/
def knocks : List Received :=
  [[10, 10], [11, 11], [12, 12], [0x15, 0xB3], [0, 22]].map (tcpPacket 1 0 1)

/-- **A host that has knocked**: its packets are served, and whatever is
made of them, none passes that should not. -/
theorem nobodyPasses_knocks :
    ∃ loaded tables, compileAndLoad (listSlotMap FlowKey) (listSlotMap Sw.State) keyOrders
        portKnockingFirewall = some (loaded, tables) ∧
      (∃ served W, (Worker.start tables).Runs knocks served W ∧
        (Worker.start tables).RunsSomehow knocks served W) ∧
      HasKnocked (knocks.take 4) (sourceOf (tcpPacket 1 0 1 [0, 22])) ∧
      NobodyPasses tables knocks := by
  have hcreate : (firewallTable.create (listSlotMap FlowKey)
      (listSlotMap Sw.State)).isSome = true := rfl
  obtain ⟨loaded, tables, hload⟩ := exists_load loadedTables_firewall hcreate
  refine ⟨loaded, tables, hload, ?_, by unfold HasKnocked; decide,
    nobodyPasses (.of_neverFull (listSlotMap_neverFull _)) hload _⟩
  obtain ⟨t, ht, rfl⟩ := table_of_load singleEvents_firewall loadedTables_firewall hload
  have hserved : ((Worker.start [t]).serveAll 2 knocks).isSome = true := by
    obtain rfl : (firewallTable.create _ _).get hcreate = t := Option.get_of_eq_some _ ht
    rfl
  obtain ⟨⟨W, served⟩, hserved⟩ := Option.isSome_iff_exists.mp hserved
  have hruns := runs_of_serveAll hserved
  exact ⟨served, W, hruns, runsSomehow_of_runs hruns⟩

end UseCases

end FlowBlaze
