import FlowBlaze.PacketOffsets
import FlowBlaze.Sw.SoloFlow
import FlowBlaze.Xl.MacroActions
import FlowBlaze.Xl.SingleEvents
/-!
# The use cases, loaded

A use case is compiled, its tables are written to a file, and the worker
loads them from the file into memory that was all zero. What is loaded
does not depend on the order in which the compiler walks its hash maps as
long as no state has statements for two events, nor on the hash tables of
the worker. What the dataplane then finds of the rows of a state is read
off the table.
-/

namespace FlowBlaze

namespace UseCases

open Common Sw Xl

/-! ## The texts — `UseCases/*.xl` -/

/-- `pkt_headers.xlh`. -/
def pktHeaders : List PacketFieldDefinitionContext :=
  [⟨"eth", [⟨"src", "packet.data", .plus "0" "6"⟩, ⟨"dst", "packet.data", .plus "6" "6"⟩]⟩,
    ⟨"vlan", [⟨"id", "packet.data", .plus "15" "1"⟩]⟩,
    ⟨"ipv4", [⟨"tos", "packet.data", .plus "15" "1"⟩, ⟨"proto", "packet.data", .plus "23" "1"⟩,
      ⟨"src", "packet.data", .plus "26" "4"⟩, ⟨"dst", "packet.data", .plus "30" "4"⟩]⟩,
    ⟨"tcp", [⟨"sport", "packet.data", .plus "34" "2"⟩, ⟨"dport", "packet.data", .plus "36" "2"⟩,
      ⟨"csum", "packet.data", .plus "50" "2"⟩]⟩]

/-- A field of a header, or of an event. -/
def fieldElem (id0 id1 : String) : Xl.Term :=
  .field (id0 ++ "." ++ id1)
    ((PacketFieldFactory.define pktHeaders).bind fun F => F.getOperand (.fieldElem id0 id1))

/-- A decimal number. -/
def decimalInteger (n : ℕ) : Xl.Term := .constant n.repr (some ⟨.integerConstant, n.repr⟩)

/-- A hexadecimal number, with what it is. -/
def hexInteger (text : String) (n : ℕ) : Xl.Term :=
  .constant text (some ⟨.integerConstant, n.repr⟩)

/-- A statement that calls an action. -/
def call (id : String) (terms : List Xl.Term) : BodyElement := .action (.call id terms)

/-- A statement that assigns. -/
def assign (identifier : String) (expr : Expr) : BodyElement :=
  .action (.assignment identifier expr)

/-! ## Loading -/

section Load

variable (H : SlotMap FlowKey) (HE : SlotMap Sw.State) (orders : Orders)
  (P : ProgramContext)

/-- What is loaded of a program that was compiled. -/
def loadedTables : Option (List LoadedTable) :=
  (compile orders P).bind fun stages => (serialize stages).bind fun file =>
    loadTables (fun _ => zeroMemory) (some file)

/-- **A program, compiled, written to a file and loaded.** -/
def compileAndLoad : Option (List LoadedTable × List (XfsmTable H HE)) :=
  (compile orders P).bind fun stages => (serialize stages).bind fun file =>
    loadPipelineTables H HE (fun _ => zeroMemory) (some file)

variable {H HE orders P} {loaded : List LoadedTable} {tables : List (XfsmTable H HE)}
  {L : LoadedTable} {t : XfsmTable H HE}

/-- The tables are those of what is loaded. -/
theorem compileAndLoad_eq : compileAndLoad H HE orders P =
    (loadedTables orders P).bind fun loaded =>
    (loaded.mapM (LoadedTable.create H HE)).map fun tables => (loaded, tables) := by
  unfold compileAndLoad loadedTables loadPipelineTables
  simp only [Option.bind_assoc]

/-- **One stage** is loaded into one table. -/
theorem table_of_load (hsingle : singleEvents P = true)
    (hloaded : loadedTables keyOrders P = some [L])
    (h : compileAndLoad H HE orders P = some (loaded, tables)) :
    ∃ t, L.create H HE = some t ∧ tables = [t] := by
  have horders : loadedTables orders P = some [L] := by
    rw [← hloaded]
    exact congrArg (Option.bind · _) (compile_eq_of_singleEvents hsingle orders keyOrders)
  rw [compileAndLoad_eq, horders, Option.bind_some] at h
  obtain ⟨tables', htables, heq⟩ := Option.map_eq_some_iff.mp h
  cases heq
  obtain ⟨t, ht, hnil⟩ := Option.bind_eq_some_iff.mp htables
  cases hnil
  exact ⟨t, ht, rfl⟩

/-- **A stage that is loaded** is loaded into a table, where one can be made
of it. -/
theorem exists_load (hloaded : loadedTables orders P = some [L])
    (hcreate : (L.create H HE).isSome = true) :
    ∃ loaded tables, compileAndLoad H HE orders P = some (loaded, tables) := by
  obtain ⟨t, ht⟩ := Option.isSome_iff_exists.mp hcreate
  refine ⟨[L], [t], ?_⟩
  rw [compileAndLoad_eq, hloaded, Option.bind_some, List.mapM_cons, ht]
  rfl

/-- What a table is made of. -/
theorem create_eq_some (h : L.create H HE = some t) :
    ∃ conditions E, L.conditionArray = some conditions ∧
      createEntries HE L.entries XfsmTableEntry.currentState = some E ∧
      L.conditionsNumber ≤ maxConditions ∧
      t = { conditions := fun i => conditions[i.val]?.getD ⟨.other, .other, 0, 0, .xfsmLess⟩
            nbConditions := L.conditionsNumber
            globalRegisters := fun _ => 0
            lookupKey := ⟨L.lookupKey.length, fun i => L.lookupKey[i.val]?.getD .srcMac,
              L.biflowNo.toNat⟩
            defaultState := L.initialState.setWidth 32
            entries := E
            instances := .create H
            pktFields := .null } := by
  unfold LoadedTable.create at h
  split at h
  · next hfits =>
    obtain ⟨conditions, hconditions, h⟩ := Option.bind_eq_some_iff.mp h
    obtain ⟨E, hE, rfl⟩ := Option.map_eq_some_iff.mp h
    have hnumber : (BitVec.ofNat 8 L.conditionsNumber).toNat = L.conditionsNumber := by
      rw [BitVec.toNat_ofNat]
      exact Nat.mod_eq_of_lt (hfits.1.trans_lt (by decide))
    refine ⟨conditions, E, hconditions, hE, hfits.1, ?_⟩
    rw [hnumber]
  · cases h

/-- **What the rows of a state are to a lookup.** -/
theorem lookup_of_create (hHE : HE.AcceptsBelow)
    (hstates : (headState :: L.entries.map XfsmTableEntry.currentState).dedup.length ≤
      maxEntriesForeachState)
    (h : L.create H HE = some t) (s : Sw.State) (results : Results) :
    xfsmTableLookup t.entries XfsmTableEntry.results t.nbConditions s results =
      some ((nodeOf XfsmTableEntry.currentState L.entries s).find? fun row =>
        decide (0 < L.conditionsNumber) && agrees L.conditionsNumber row.results results) := by
  obtain ⟨conditions, E, -, hE, hnumber, rfl⟩ := create_eq_some h
  rw [xfsmTableLookup_eq_find? hnumber, bucket_createEntries (.inr ⟨hHE, hstates⟩) hE]

/-- **A worker starts** with one instance in the reserved state, and all
registers zero. -/
theorem solo_start (hH : H.AcceptsBelow) (h : L.create H HE = some t) :
    (Worker.start [t]).Solo t (fun _ => 0) (fun _ => 0) headState := by
  obtain ⟨conditions, E, -, -, -, rfl⟩ := create_eq_some h
  exact ⟨_, rfl, rfl, rfl, rfl, fun k hk => absurd (H.lookup_create _ _) hk, _,
    finds_create hH _, rfl, rfl, rfl⟩

/-- No fields were loaded for its lookup key. -/
theorem keyless_of_create (hkey : L.lookupKey = []) (hbiflow : L.biflowNo = 0)
    (h : L.create H HE = some t) : t.Keyless := by
  obtain ⟨conditions, E, -, -, -, rfl⟩ := create_eq_some h
  unfold XfsmTable.Keyless
  rw [hkey, hbiflow]
  exact ⟨rfl, rfl⟩

/-- Conditions that have results have these. -/
theorem xfsmEvaluateConditions_eq_some {E : Env} {conditions : Fin maxConditions → XfsmCondition}
    {regs : Registers} {r : ℕ → XfsmResult} {n : ℕ} (hn : n ≤ maxConditions)
    (h : ∀ i : Fin maxConditions, i.val < n →
      evaluateCondition E regs (conditions i) = some (r i.val)) (before : Results) :
    xfsmEvaluateConditions E conditions n regs before =
      some fun j => if j.val < n then r j.val else before j := by
  induction n with
  | zero => rfl
  | succ n ih =>
    rw [xfsmEvaluateConditions_succ, ih (by omega) fun i hi => h i (by omega), Option.bind_some]
    unfold writeResult
    rw [dif_pos (by omega), h ⟨n, by omega⟩ (Nat.lt_succ_self n), Option.map_some]
    refine congrArg some (funext fun j => ?_)
    by_cases hj : j.val = n
    · rw [if_pos hj, if_pos (by omega), hj]
    · rw [if_neg hj]
      by_cases hlt : j.val < n
      · exact (if_pos hlt).trans (if_pos (Nat.lt_succ_of_lt hlt)).symm
      · exact (if_neg hlt).trans (if_neg (by omega)).symm

/-- **The row that a packet meets** in a loaded table, by the results of
its conditions. -/
theorem meets_of_create (hHE : HE.AcceptsBelow)
    (hstates : (headState :: L.entries.map XfsmTableEntry.currentState).dedup.length ≤
      maxEntriesForeachState)
    (h : L.create H HE = some t) {M : Mem} {fields : PktFields} {globals registers : Registers}
    {s : Sw.State} {conditions : List XfsmCondition} {r : ℕ → XfsmResult} {row : XfsmTableEntry}
    {X : Exec} (hconditions : L.conditionArray = some conditions)
    (hlength : conditions.length = L.conditionsNumber)
    (hresults : ∀ i c, conditions[i]? = some c →
      evaluateCondition ⟨globals, fields, M⟩ registers c = some (r i))
    (hrow : (nodeOf XfsmTableEntry.currentState L.entries s).find? (fun row =>
      decide (0 < L.conditionsNumber) &&
        agrees L.conditionsNumber row.results fun i => r i.val) = some row)
    (hexecuted : xfsmExecuteActions fields row.actions
      ⟨registers, globals, false, M, 0, 0, 0, []⟩ = some X) (hstays : X.destroy = false) :
    MeetsRow t M fields globals registers s row X := by
  obtain ⟨conditions', E, hconditions', -, hnumber, ht⟩ := create_eq_some h
  rw [hconditions] at hconditions'
  cases hconditions'
  have hnb : t.nbConditions = L.conditionsNumber := by rw [ht]
  refine ⟨fun before => ?_, hexecuted, hstays⟩
  have hevaluate : ∀ i : Fin maxConditions, i.val < t.nbConditions →
      evaluateCondition ⟨globals, fields, M⟩ registers (t.conditions i) = some (r i.val) := by
    intro i hi
    rw [hnb, ← hlength] at hi
    have hget := List.getElem?_eq_getElem hi
    have hcondition : t.conditions i = conditions[i.val] := by
      rw [ht]
      change conditions[i.val]?.getD _ = _
      rw [hget, Option.getD_some]
    rw [hcondition]
    exact hresults i.val _ hget
  refine ⟨_, xfsmEvaluateConditions_eq_some (hnb ▸ hnumber) hevaluate before, ?_⟩
  rw [← hrow, ← lookup_of_create hHE hstates h]
  exact xfsmTableLookup_congr (fun i hi => if_pos hi) s

end Load

/-! ## What tables are made of -/

/-- `sendPacket(255, port)`. -/
def sendPacket (port : Word64) : XfsmAction :=
  ⟨.xfsmSendpkt, .xfsmSum, .xfsmConstant, 255, .xfsmConstant, port, .xfsmRegister, 0, 0,
    .xfsmRegister⟩

/-- Sending a packet. -/
theorem step_sendPacket (fields : PktFields) (X : Exec) (port : Word64) :
    Exec.step fields X (sendPacket port) = some { X with
      reg1 := 255
      reg2 := port
      reg3 := X.registers ⟨0, by decide⟩
      events := X.events ++ if port = 0 then [] else [.txBuffer ((port - 1).setWidth 16)] } := by
  have hfetch : X.fetch fields (sendPacket port) = some { X with
      reg1 := 255
      reg2 := port
      reg3 := X.registers ⟨0, by decide⟩
      events := X.events ++ [] } := rfl
  unfold Exec.step
  rw [hfetch, Option.bind_some, List.append_nil]
  refine congrArg some ?_
  unfold Exec.sendpkt
  by_cases hport : port = 0
  · rw [hport]
    refine (if_pos rfl).trans ?_
    rw [if_pos rfl, List.append_nil]
    rfl
  · refine (if_neg hport).trans ?_
    rw [if_neg hport]
    rfl

/-- A row that asks for these conditions to hold. -/
def asks (conditions : List ℕ) : Results :=
  fun j => if j.val ∈ conditions then .xfsmTrue else .xfsmDontCare

theorem entry_eq_iff {e e' : XfsmTableEntry} : e = e' ↔ e.currentState = e'.currentState ∧
    e.nextState = e'.nextState ∧ e.nextStage = e'.nextStage ∧
    (∀ i, e.results i = e'.results i) ∧ e.actions = e'.actions := by
  constructor
  · rintro rfl
    exact ⟨rfl, rfl, rfl, fun _ => rfl, rfl⟩
  · rintro ⟨hstate, hnext, hstage, hresults, hactions⟩
    obtain ⟨state, next, stage, results, actions⟩ := e
    cases hstate
    cases hnext
    cases hstage
    cases hactions
    cases funext hresults
    rfl

theorem loadedTable_eq_iff {L L' : LoadedTable} : L = L' ↔
    L.conditionsNumber = L'.conditionsNumber ∧ L.conditions = L'.conditions ∧
    L.initialState = L'.initialState ∧ L.tableSize = L'.tableSize ∧ L.entries = L'.entries ∧
    L.lookupKey = L'.lookupKey ∧ L.biflowNo = L'.biflowNo := by
  rw [LoadedTable.mk.injEq]

instance : DecidableEq XfsmTableEntry := fun _ _ => decidable_of_iff _ entry_eq_iff.symm

instance : DecidableEq LoadedTable := fun _ _ => decidable_of_iff _ loadedTable_eq_iff.symm

/-! ## Packets -/

/-- Where a packet comes from. -/
def sourceOf (rx : Received) : Option ℕ := packetInteger rx.mbuf.data 26 4

/-- A TCP packet over IPv4, without options, from a host of a network to
another. -/
def tcpPacket (inPort : Byte) (timestamp : Word64) (host : Byte) (dport : List Byte) : Received :=
  ⟨inPort, timestamp, ⟨List.replicate 12 0 ++ [8, 0, 0x45, 0] ++ List.replicate 7 0 ++ [6, 0, 0] ++
    [10, 0, 0, host] ++ [10, 0, 0, 100] ++ [4, 0] ++ dport ++ List.replicate 22 0, 0, 0⟩⟩

end UseCases

end FlowBlaze
