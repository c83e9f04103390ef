import FlowBlaze.Sw.FlowKey
import FlowBlaze.Sw.Table
/-!
# Conditions and actions — `xfsm.c`

What a row does: its conditions are evaluated over the registers of an
instance, those of the table and the packet, and its actions change them.
Registers hold 64-bit words that are compared and computed with as signed
numbers. An index past an array, a signed overflow and a remainder by
zero have no result.

Some operands of an action are never written by whoever made it, and hold
whatever the memory held; their type may then be no enumerator.
-/

namespace FlowBlaze

namespace Sw

/-- `NUM_REGISTERS`. -/
abbrev numRegisters : ℕ := 32

/-- `NUM_GLOBAL_REGISTERS`. -/
abbrev numGlobalRegisters : ℕ := 32

/-- `MAX_ACTIONS`. -/
def maxActions : ℕ := 32

/-- `xfsm_value_type_t`, or a word that is no enumerator. -/
inductive XfsmValueType
  | xfsmRegister
  | xfsmConstant
  | xfsmHdrField
  | xfsmGlobalRegister
  | other
deriving DecidableEq, Repr

/-- `xfsm_opcodes_t`. -/
inductive XfsmOpcode
  | xfsmSum
  | xfsmMinus
  | xfsmMultiply
  | xfsmDivide
  | xfsmModulo
  | xfsmMax
  | xfsmMin
deriving DecidableEq, Repr

/-- `xfsm_condition_types_t`. -/
inductive XfsmConditionType
  | xfsmLess
  | xfsmLessEq
  | xfsmGreater
  | xfsmGreaterEq
  | xfsmEqual
  | xfsmNotEqual
deriving DecidableEq, Repr

/-- `xfsm_action_types_t`. -/
inductive XfsmActionType
  | xfsmUpdate
  | xfsmSendpkt
  | xfsmSetfield
  | xfsmDestroy
deriving DecidableEq, Repr

/-- `xfsm_condition_t`. -/
structure XfsmCondition where
  type1 : XfsmValueType
  type2 : XfsmValueType
  value1 : Word64
  value2 : Word64
  conditionType : XfsmConditionType
deriving DecidableEq

/-- `xfsm_action_t`. -/
structure XfsmAction where
  type : XfsmActionType
  opcode : XfsmOpcode
  type1 : XfsmValueType
  value1 : Word64
  type2 : XfsmValueType
  value2 : Word64
  type3 : XfsmValueType
  value3 : Word64
  output : Byte
  outType : XfsmValueType
deriving DecidableEq

/-- `xfsm_table_entry_t`, as far as it is used. Its `nb_actions` is the
length of the list. -/
structure XfsmTableEntry where
  currentState : State
  nextState : State
  nextStage : Byte
  results : Results
  actions : List XfsmAction

/-- `int64_t registers[]`. -/
abbrev Registers := Fin numRegisters → Word64

/-- An element of a register array. -/
def Registers.get (regs : Registers) (i : ℕ) : Option Word64 :=
  if h : i < numRegisters then some (regs ⟨i, h⟩) else none

/-- Store an element. -/
def Registers.put (regs : Registers) (i : ℕ) (v : Word64) : Option Registers :=
  if i < numRegisters then some fun j => if j.val = i then v else regs j else none

/-! ## Conditions -/

/-- What conditions and actions read besides an instance's registers: the
table's registers, the header pointers and what they point at. -/
structure Env where
  globalRegisters : Registers
  pktFields : PktFields
  mem : Mem

/-- A `switch` over an operand's type. `old` is what the variable held. -/
def Env.operand (E : Env) (regs : Registers) (type : XfsmValueType) (value old : Word64) :
    Option Word64 :=
  match type with
  | .xfsmRegister => regs.get value.toNat
  | .xfsmGlobalRegister => E.globalRegisters.get value.toNat
  | .xfsmConstant => some value
  | .xfsmHdrField => do
    let f ← HdrField.ofNumber value.toNat
    return (← getHdrValue E.mem E.pktFields f).getD old
  | .other => some old

/-- The `switch` over a condition's type. -/
def XfsmConditionType.holds (param1 param2 : Word64) : XfsmConditionType → Bool
  | .xfsmLess => param1.slt param2
  | .xfsmLessEq => param1.sle param2
  | .xfsmGreater => param2.slt param1
  | .xfsmGreaterEq => param2.sle param1
  | .xfsmEqual => param1 == param2
  | .xfsmNotEqual => param1 != param2

/-- `evaluate_condition`. -/
def evaluateCondition (E : Env) (regs : Registers) (cond : XfsmCondition) : Option XfsmResult := do
  let param1 ← E.operand regs cond.type1 cond.value1 0
  let param2 ← E.operand regs cond.type2 cond.value2 0
  return if cond.conditionType.holds param1 param2 then .xfsmTrue else .xfsmFalse

/-- The loop body of `xfsm_evaluate_conditions`. -/
def writeResult (E : Env) (conditions : Fin maxConditions → XfsmCondition) (regs : Registers)
    (results : Results) (i : ℕ) : Option Results :=
  if h : i < maxConditions then
    (evaluateCondition E regs (conditions ⟨i, h⟩)).map fun result =>
      fun j => if j.val = i then result else results j
  else none

/-- `xfsm_evaluate_conditions`, on the results of an instance. -/
def xfsmEvaluateConditions (E : Env) (conditions : Fin maxConditions → XfsmCondition)
    (nbConditions : ℕ) (regs : Registers) (results : Results) : Option Results :=
  (List.range nbConditions).foldlM (writeResult E conditions regs) results

theorem xfsmEvaluateConditions_succ (E : Env) (conditions : Fin maxConditions → XfsmCondition)
    (n : ℕ) (regs : Registers) (results : Results) :
    xfsmEvaluateConditions E conditions (n + 1) regs results =
      (xfsmEvaluateConditions E conditions n regs results).bind fun before =>
        writeResult E conditions regs before n := by
  unfold xfsmEvaluateConditions
  rw [List.range_succ, List.foldlM_append]
  refine congrArg _ (funext fun before => ?_)
  exact bind_pure (writeResult E conditions regs before n)

/-- Results are written into an array of sixteen. -/
theorem le_of_xfsmEvaluateConditions {E : Env} {conditions : Fin maxConditions → XfsmCondition}
    {n : ℕ} {regs : Registers} {before results : Results}
    (h : xfsmEvaluateConditions E conditions n regs before = some results) :
    n ≤ maxConditions := by
  cases n with
  | zero => exact Nat.zero_le _
  | succ n =>
    rw [xfsmEvaluateConditions_succ] at h
    obtain ⟨_, -, hwrite⟩ := Option.bind_eq_some_iff.mp h
    unfold writeResult at hwrite
    split at hwrite
    · next hlt => exact hlt
    · cases hwrite

/-! ## Actions -/

/-- The `switch` of `update`. -/
def XfsmOpcode.apply (reg1 reg2 : Word64) : XfsmOpcode → Option Word64
  | .xfsmSum => if reg1.saddOverflow reg2 then none else some (reg1 + reg2)
  | .xfsmMinus => if reg1.ssubOverflow reg2 then none else some (reg1 - reg2)
  | .xfsmMultiply => if reg1.smulOverflow reg2 then none else some (reg1 * reg2)
  | .xfsmDivide =>
    if reg2 = 0 then some reg1
    else if reg1.sdivOverflow reg2 then none else some (reg1.sdiv reg2)
  | .xfsmModulo =>
    if reg2 = 0 ∨ reg1.sdivOverflow reg2 then none else some (reg1.srem reg2)
  | .xfsmMax => some (if reg2.slt reg1 then reg1 else reg2)
  | .xfsmMin => some (if reg1.slt reg2 then reg1 else reg2)

/-- What happens to a packet's buffer: the worker reads or writes it,
hands it to a port's transmit buffer, or frees it. -/
inductive MbufEvent
  | access
  | txBuffer (port : BitVec 16)
  | free
deriving DecidableEq

/-- A pointer into the packet's buffer. -/
def Ptr.inMbuf : Ptr → Bool
  | .inPort => false
  | _ => true

/-- Reading or writing a header field touches the packet's buffer. -/
def PktFields.touch (fields : PktFields) (f : HdrField) : List MbufEvent :=
  if (fields f).any Ptr.inMbuf then [.access] else []

/-- Write a byte of a word of memory. -/
def setHostByte (w : Word64) (i : ℕ) (b : Byte) : Word64 :=
  (w &&& ~~~((0xff : Word64) <<< (8 * i))) ||| (b.setWidth 64 <<< (8 * i))

/-- Write the byte that many bytes past a pointer. -/
def Mem.storeByte (M : Mem) (b : Byte) : Ptr → ℕ → Option Mem
  | .inPort, i => if i = 0 then some { M with inPort := b } else none
  | .data packet off, i =>
    if packet = M.packet.number ∧ off + i < M.packet.mbuf.data.length then
      some { M with packet.mbuf.data := M.packet.mbuf.data.set (off + i) b }
    else none
  | .userdata packet off, i =>
    if packet = M.packet.number ∧ off + i < 8 then
      some { M with packet.mbuf.userdata := setHostByte M.packet.mbuf.userdata (off + i) b }
    else none
  | .timestamp packet, i =>
    if packet = M.packet.number ∧ i < 8 then
      some { M with packet.mbuf.timestamp := setHostByte M.packet.mbuf.timestamp i b }
    else none

/-- `rte_memcpy(ptr, &value, len)`. -/
def Mem.copy (M : Mem) (ptr : Ptr) (value : Word64) (len : ℕ) : Option Mem :=
  (List.range len).foldlM (fun M i => M.storeByte (hostByte value i) ptr i) M

/-- `rte_cpu_to_be_16`, `_32` and `_64`, by the number of bytes. -/
def cpuToBe (n : ℕ) (value : Word64) : Word64 :=
  (List.range n).foldl (fun w i => setHostByte w (n - 1 - i) (hostByte value i)) 0

/-- The `switch` of `XFSM_SETFIELD` over the length of the field. -/
def setfieldValue (f : HdrField) (value : Word64) : Word64 :=
  match f.len with
  | 6 => cpuToBe 8 (value <<< 16)
  | 4 => cpuToBe 4 value
  | 2 => cpuToBe 2 value
  | _ => value

/-- Where `xfsm_execute_actions` is: what it changes, its local variables,
and what it did to the packet's buffer. -/
structure Exec where
  registers : Registers
  globalRegisters : Registers
  destroy : Bool
  mem : Mem
  reg1 : Word64
  reg2 : Word64
  reg3 : Word64
  events : List MbufEvent

namespace Exec

variable (fields : PktFields)

/-- What an operand is read from. -/
def env (X : Exec) : Env := ⟨X.globalRegisters, fields, X.mem⟩

/-- What reading an operand does to the packet's buffer. -/
def operandEvents (type : XfsmValueType) (value : Word64) : List MbufEvent :=
  match type with
  | .xfsmHdrField => ((HdrField.ofNumber value.toNat).map fields.touch).getD []
  | _ => []

/-- The field that `XFSM_SETFIELD` sets is named by its number. -/
abbrev named (act : XfsmAction) : Prop := act.type1 = .xfsmHdrField ∧ act.type = .xfsmSetfield

/-- The first `switch` over an operand. -/
def operand1 (act : XfsmAction) (X : Exec) : Option Word64 :=
  if named act then some act.value1
  else (X.env fields).operand X.registers act.type1 act.value1 X.reg1

/-- What the three `switch`es do to the packet's buffer. -/
def fetchEvents (act : XfsmAction) : List MbufEvent :=
  (if named act then [] else operandEvents fields act.type1 act.value1) ++
    operandEvents fields act.type2 act.value2 ++ operandEvents fields act.type3 act.value3

/-- The three `switch`es over the operands. -/
def fetch (act : XfsmAction) (X : Exec) : Option Exec := do
  let reg1 ← X.operand1 fields act
  let reg2 ← (X.env fields).operand X.registers act.type2 act.value2 X.reg2
  let reg3 ← (X.env fields).operand X.registers act.type3 act.value3 X.reg3
  return { X with
    reg1 := reg1
    reg2 := reg2
    reg3 := reg3
    events := X.events ++ fetchEvents fields act }

/-- `update`. -/
def update (act : XfsmAction) (X : Exec) : Option Exec :=
  (act.opcode.apply X.reg1 X.reg2).bind fun result =>
    if act.outType = .xfsmRegister then
      (X.registers.put act.output.toNat result).map fun registers =>
        { X with registers := registers }
    else
      (X.globalRegisters.put act.output.toNat result).map fun globalRegisters =>
        { X with globalRegisters := globalRegisters }

/-- `XFSM_SENDPKT`. -/
def sendpkt (act : XfsmAction) (X : Exec) : Exec :=
  let X := { X with reg2 := act.value2 }
  if X.reg2 = 0 then X
  else { X with events := X.events ++ [.txBuffer ((X.reg2 - 1).setWidth 16)] }

/-- `XFSM_SETFIELD`. -/
def setfield (X : Exec) : Option Exec :=
  (HdrField.ofNumber X.reg1.toNat).bind fun f =>
    match fields f with
    | none => some X
    | some ptr =>
      (X.mem.copy ptr (setfieldValue f X.reg3) f.len).map fun mem =>
        { X with mem := mem, events := X.events ++ fields.touch f }

/-- The `switch` over the action's type. -/
def perform (act : XfsmAction) (X : Exec) : Option Exec :=
  match act.type with
  | .xfsmUpdate => X.update act
  | .xfsmSendpkt => some (X.sendpkt act)
  | .xfsmSetfield => X.setfield fields
  | .xfsmDestroy => some { X with destroy := true }

/-- The loop body of `xfsm_execute_actions`. -/
def step (X : Exec) (act : XfsmAction) : Option Exec :=
  (X.fetch fields act).bind (perform fields act)

end Exec

/-- `xfsm_execute_actions`. -/
def xfsmExecuteActions (fields : PktFields) (actions : List XfsmAction) (X : Exec) : Option Exec :=
  if actions.length ≤ maxActions then actions.foldlM (Exec.step fields) X else none

end Sw

end FlowBlaze
