import FlowBlaze.Sw.HeaderPointers
import FlowBlaze.Sw.LoaderBounds
import FlowBlaze.Xl.Serializers
/-!
# From the compiler to the loader

The compiler writes the conditions and actions of a table as JSON, and
the loader reads them. This file says what a record of the dataplane
means in the compiler's words, and which conditions and actions come out
of the loader meaning what they meant before.

Many do not. An address, a serial block, a timer and the deletion of a
packet or of an instance are refused. A packet field is known by its name
alone, wherever the program says that it lies. And what the loader leaves
of a record's old memory is part of the record.
-/

namespace FlowBlaze

open Common Json Sw Xl

/-! ## Numbers -/

/-- The number that digits stand for. -/
def decimal (s : String) : ℕ := Nat.ofDigitChars 10 s.toList 0

/-- Digits, and at least one. -/
def IsDecimal (s : String) : Prop := s.toList ≠ [] ∧ ∀ c ∈ s.toList, c.isDigit = true

theorem decimal_repr (n : ℕ) : decimal n.repr = n := by
  unfold decimal
  rw [Nat.toList_repr, Nat.ofDigitChars_ten_toDigits]

theorem isDecimal_repr (n : ℕ) : IsDecimal n.repr := by
  refine ⟨?_, fun c hc => ?_⟩
  · rw [Nat.toList_repr]
    exact Nat.toDigits_ne_nil
  · rw [Nat.toList_repr] at hc
    exact Nat.isDigit_of_mem_toDigits (by decide) (by decide) hc

/-- **Digits that are read**: the number, if it fits, and else the largest
there is. -/
theorem strToUint_decimal {s : String} (h : IsDecimal s) :
    strToUint 64 s = some (BitVec.ofNat 64 (min (decimal s) (2 ^ 64 - 1))) := by
  unfold strToUint
  rw [strtoul_of_digits h.1 h.2]
  change (if decimal s < 2 ^ 64 then _ else _ : Option (BitVec 64 × Bool)).bind _ = _
  split
  · next hlt =>
    have hmin : min (decimal s) (2 ^ 64 - 1) = decimal s := by omega
    rw [hmin, Option.bind_some]
    simp only [Bool.false_eq_true, false_and, if_false, BitVec.setWidth_eq]
    rfl
  · next hge =>
    have hmin : min (decimal s) (2 ^ 64 - 1) = 2 ^ 64 - 1 := by omega
    rw [hmin]
    rfl

/-- **A number that is read** in so many bits is cut off. -/
theorem strToUint_repr {w n : ℕ} (h : n < 2 ^ 64) :
    strToUint w n.repr = some (BitVec.ofNat w n) := by
  unfold strToUint
  rw [strtoul_repr h, Option.bind_some]
  simp only [Bool.false_eq_true, false_and, if_false]
  refine congrArg some (BitVec.eq_of_toNat_eq ?_)
  rw [BitVec.toNat_setWidth, BitVec.toNat_ofNat, BitVec.toNat_ofNat, Nat.mod_eq_of_lt h]

/-! ## Packet fields -/

/-- `PacketFieldType`. -/
inductive PacketFieldType
  | xtraPktMetadata
  | xtraPktData
deriving DecidableEq

/-- Where a packet field lies: in the metadata or in the data, from which
byte on, and how many bytes. -/
def Xl.PacketField.place (f : PacketField) : PacketFieldType × ℕ × ℕ :=
  (if f.name = "XTRA_PKT_DATA" then .xtraPktData else .xtraPktMetadata,
    decimal f.from', decimal f.length)

/-- Where the dataplane finds a header field, in a packet that has it. -/
def Sw.HdrField.place : HdrField → Option (PacketFieldType × ℕ × ℕ)
  | .dstMac => some (.xtraPktData, 0, 6)
  | .srcMac => some (.xtraPktData, 6, 6)
  | .ethType => some (.xtraPktData, 12, 2)
  | .ipv4Tos => some (.xtraPktData, 15, 1)
  | .ipv4Proto => some (.xtraPktData, 23, 1)
  | .ipv4Src => some (.xtraPktData, 26, 4)
  | .ipv4Dst => some (.xtraPktData, 30, 4)
  | .icmpType => some (.xtraPktData, 34, 1)
  | .icmpCode => some (.xtraPktData, 35, 1)
  | .icmpId => some (.xtraPktData, 38, 2)
  | .icmpSeq => some (.xtraPktData, 40, 2)
  | .icmpPayload => some (.xtraPktData, 42, 4)
  | .tcpSport | .udpSport => some (.xtraPktData, 34, 2)
  | .tcpDport | .udpDport => some (.xtraPktData, 36, 2)
  | .gtpTeid => some (.xtraPktData, 46, 4)
  | .innerIpv4Src => some (.xtraPktData, 26, 4)
  | .innerIpv4Dst => some (.xtraPktData, 30, 4)
  | .innerIpv4Proto => some (.xtraPktData, 23, 1)
  | .innerTcpSport | .innerUdpSport => some (.xtraPktData, 70, 2)
  | .innerTcpDport | .innerUdpDport => some (.xtraPktData, 72, 2)
  | .xfsmMetadata0 => some (.xtraPktMetadata, 0, 4)
  | .xfsmMetadata1 => some (.xtraPktMetadata, 4, 4)
  | .xfsmInPort | .xfsmTimestamp => none

/-! ## What records mean -/

/-- **A value of the dataplane means an operand** of the compiler: it is of
its kind, and it is the number, the constant or the field. An address has
a kind at most. -/
def Xl.Operand.Means (type : XfsmValueType) (value : ℕ) : Operand → Prop
  | .register ⟨.localRegister, name⟩ => type = .xfsmRegister ∧ value = decimal name
  | .register ⟨.globalRegister, name⟩ => type = .xfsmGlobalRegister ∧ value = decimal name
  | .register ⟨.readOnlyRegister, name⟩ =>
    type = .xfsmHdrField ∧ name = "XTRA_TIMESTAMP" ∧ value = HdrField.number .xfsmTimestamp
  | .constant ⟨.integerConstant, digits⟩ => type = .xfsmConstant ∧ value = decimal digits
  | .constant _ => type = .xfsmConstant
  | .packetField f =>
    type = .xfsmHdrField ∧ ∃ h : HdrField, h.place = some f.place ∧ value = h.number
  | .eventField f =>
    type = .xfsmHdrField ∧ f.name = "XTRA_PKT_RCVD_PORT" ∧ value = HdrField.number .xfsmInPort

/-- The dataplane's word for an opcode. -/
def Xl.ConditionOpcode.toSw : ConditionOpcode → XfsmConditionType
  | .xtraLess => .xfsmLess
  | .xtraLessEq => .xfsmLessEq
  | .xtraGreater => .xfsmGreater
  | .xtraGreaterEq => .xfsmGreaterEq
  | .xtraEqual => .xfsmEqual
  | .xtraNotEqual => .xfsmNotEqual

/-- The dataplane's word for an opcode. -/
def Xl.UpdateOpcode.toSw : UpdateOpcode → XfsmOpcode
  | .xtraSum => .xfsmSum
  | .xtraMinus => .xfsmMinus
  | .xtraMultiply => .xfsmMultiply
  | .xtraDivide => .xfsmDivide
  | .xtraModulo => .xfsmModulo
  | .xtraMax => .xfsmMax
  | .xtraMin => .xfsmMin

/-- A record means a condition. -/
structure Xl.Condition.Means (rec : XfsmCondition) (c : Condition) : Prop where
  opcode : rec.conditionType = c.opcode.toSw
  op0 : c.op0.Means rec.type1 rec.value1.toNat
  op1 : c.op1.Means rec.type2 rec.value2.toNat

/-- A record means an update. -/
structure Xl.Update.Means (act : XfsmAction) (u : Update) : Prop where
  type : act.type = .xfsmUpdate
  opcode : u.opcode.map UpdateOpcode.toSw = some act.opcode
  op0 : u.op0.Means act.type1 act.value1.toNat
  op1 : u.op1.Means act.type2 act.value2.toNat
  op2 : (Operand.register u.op2).Means act.outType act.output.toNat

/-- The dataplane's word for a hardware action, if it has one. -/
def Xl.HardwareActionOpcode.toSw : HardwareActionOpcode → Option XfsmActionType
  | .xtraSendpkt => some .xfsmSendpkt
  | .xtraSetfield => some .xfsmSetfield
  | .xtraDeleteInstance => some .xfsmDestroy
  | .xtraSettimer | .xtraStorepkt | .xtraDeletepkt => none

/-- A record means a hardware action. -/
structure Xl.HardwareAction.Means (act : XfsmAction) (a : HardwareAction) : Prop where
  type : a.opcode.toSw = some act.type
  op0 : ∀ o, a.op0 = some o → o.Means act.type1 act.value1.toNat
  op1 : ∀ o, a.op1 = some o → o.Means act.type2 act.value2.toNat
  op2 : ∀ o, a.op2 = some o → o.Means act.type3 act.value3.toNat

/-- **A record means an action** of a row. Any would do for a serial
block. -/
def Xl.Action.Means (act : XfsmAction) : Action → Prop
  | .sequentializable (.update u) => u.Means act
  | .sequentializable (.hardwareAction a) => a.Means act
  | .sequentialActions _ => True
  | .stateTransition _ | .stageTransition _ => False

/-! ## What the compiler makes -/

/-- Registers are numbered by an `int`, and an integer constant is its
digits. -/
def Xl.Operand.Made : Operand → Prop
  | .register ⟨.readOnlyRegister, _⟩ => True
  | .register ⟨_, name⟩ => ∃ n < 2 ^ 31, name = n.repr
  | .constant ⟨.integerConstant, digits⟩ => IsDecimal digits
  | _ => True

/-- `createCondition`. -/
structure Xl.Condition.Made (c : Condition) : Prop where
  id : c.id < 2 ^ 31
  op0 : c.op0.Made
  op1 : c.op1.Made

/-- `exitExpr` and `exitAssignment`. -/
structure Xl.Update.Made (u : Update) : Prop where
  op0 : u.op0.Made
  op1 : u.op1.Made
  op2 : u.op2.cls ≠ .readOnlyRegister ∧ (Operand.register u.op2).Made

/-- `CallFactory.getAction`: as many operands as `argsMap` says. -/
def Xl.HardwareActionOpcode.args : HardwareActionOpcode → ℕ
  | .xtraSendpkt => 2
  | .xtraSettimer => 3
  | .xtraStorepkt => 1
  | .xtraSetfield => 3
  | .xtraDeletepkt => 1
  | .xtraDeleteInstance => 0

/-- `getAction`. -/
structure Xl.HardwareAction.Made (a : HardwareAction) : Prop where
  op0 : (a.op0.isSome = true ↔ 0 < a.opcode.args) ∧ ∀ o, a.op0 = some o → o.Made
  op1 : (a.op1.isSome = true ↔ 1 < a.opcode.args) ∧ ∀ o, a.op1 = some o → o.Made
  op2 : (a.op2.isSome = true ↔ 2 < a.opcode.args) ∧ ∀ o, a.op2 = some o → o.Made

/-- An action that the compiler leaves in a row. -/
def Xl.Action.Made : Action → Prop
  | .sequentializable (.update u) => u.Made
  | .sequentializable (.hardwareAction a) => a.Made
  | .sequentialActions _ => True
  | .stateTransition _ | .stageTransition _ => False

/-! ## Operands -/

section Operands

variable {old : Word64} {o : Operand} {returned : BitVec 32}

/-- **When an operand comes out of `get_operand` right.** -/
def Xl.Operand.Readable (old : Word64) : Operand → Prop
  | .register ⟨.readOnlyRegister, name⟩ => name = "XTRA_TIMESTAMP" ∧ old.toNat < 2 ^ 32
  | .register _ => True
  | .constant ⟨.integerConstant, digits⟩ => decimal digits < 2 ^ 64
  | .constant _ => False
  | .packetField f =>
    old.toNat < 2 ^ 32 ∧ ∃ h, strToField f.value = some h ∧ h.place = some f.place
  | .eventField f => f.name = "XTRA_PKT_RCVD_PORT" ∧ old.toNat < 2 ^ 32

/-- The upper half stays. -/
theorem toNat_hdrFieldValue (old : Word64) (f : HdrField) :
    (hdrFieldValue old f).toNat = 2 ^ 32 * (old.toNat / 2 ^ 32) + f.number := by
  have hnumber : f.number < 2 ^ 32 := by cases f <;> decide
  unfold hdrFieldValue
  rw [BitVec.toNat_append, BitVec.extractLsb'_toNat, BitVec.toNat_ofNat,
    Nat.mod_eq_of_lt hnumber, ← Nat.shiftLeft_add_eq_or_of_lt hnumber, Nat.shiftLeft_eq,
    Nat.shiftRight_eq_div_pow]
  have := old.isLt
  omega

/-- A value is a field's number when its upper half was clear. -/
theorem hdrFieldValue_eq_iff {f h : HdrField} :
    (hdrFieldValue old f).toNat = h.number ↔ old.toNat < 2 ^ 32 ∧ f = h := by
  have hf : f.number < 2 ^ 32 := by cases f <;> decide
  have hh : h.number < 2 ^ 32 := by cases h <;> decide
  rw [toNat_hdrFieldValue]
  constructor
  · intro heq
    have hnumber : f.number = h.number := by omega
    refine ⟨by omega, ?_⟩
    have := congrArg HdrField.ofNumber hnumber
    rw [HdrField.ofNumber_number, HdrField.ofNumber_number] at this
    exact Option.some.inj this
  · rintro ⟨hold, rfl⟩
    omega

theorem getOperand_localRegister (name : String) :
    getOperand old (some (Operand.serialize (.register ⟨.localRegister, name⟩))) =
      (strToUint 64 name).map fun val => (.xfsmRegister, val) := rfl

theorem getOperand_globalRegister (name : String) :
    getOperand old (some (Operand.serialize (.register ⟨.globalRegister, name⟩))) =
      (strToUint 64 name).map fun val => (.xfsmGlobalRegister, val) := rfl

theorem getOperand_readOnlyRegister (name : String) :
    getOperand old (some (Operand.serialize (.register ⟨.readOnlyRegister, name⟩))) =
      (strToField name).map fun f => (.xfsmHdrField, hdrFieldValue old f) := rfl

theorem getOperand_integerConstant (digits : String) :
    getOperand old (some (Operand.serialize (.constant ⟨.integerConstant, digits⟩))) =
      (strToUint 64 digits).map fun val => (.xfsmConstant, val) := rfl

theorem getOperand_packetField (f : PacketField) :
    getOperand old (some (Operand.serialize (.packetField f))) =
      (strToField f.value).map fun h => (.xfsmHdrField, hdrFieldValue old h) := rfl

theorem getOperand_eventField (f : EventField) :
    getOperand old (some (Operand.serialize (.eventField f))) =
      (strToField f.name).map fun h => (.xfsmHdrField, hdrFieldValue old h) := rfl

/-- Addresses are of no type the loader knows. -/
theorem getOperand_address {cls : ConstantClass} (h : cls ≠ .integerConstant) (value : String) :
    getOperand old (some (Operand.serialize (.constant ⟨cls, value⟩))) = none := by
  cases cls with
  | integerConstant => exact absurd rfl h
  | iPv4 | iPv6 | mac => rfl

/-- **An operand comes out of the loader meaning what it meant exactly
where it is readable.** -/
theorem operand_read_iff (h : o.Made) :
    (∃ type value, getOperand old (some o.serialize) = some (type, value) ∧
      o.Means type value.toNat) ↔ o.Readable old := by
  cases o with
  | register r =>
    obtain ⟨cls, name⟩ := r
    cases cls with
    | localRegister =>
      obtain ⟨n, hn, rfl⟩ := h
      refine iff_of_true ⟨.xfsmRegister, BitVec.ofNat 64 n, ?_, rfl, ?_⟩ trivial
      · rw [getOperand_localRegister, strToUint_repr (by omega)]
        rfl
      · rw [decimal_repr, BitVec.toNat_ofNat]
        omega
    | globalRegister =>
      obtain ⟨n, hn, rfl⟩ := h
      refine iff_of_true ⟨.xfsmGlobalRegister, BitVec.ofNat 64 n, ?_, rfl, ?_⟩ trivial
      · rw [getOperand_globalRegister, strToUint_repr (by omega)]
        rfl
      · rw [decimal_repr, BitVec.toNat_ofNat]
        omega
    | readOnlyRegister =>
      constructor
      · rintro ⟨type, value, hread, -, hname, hvalue⟩
        rw [getOperand_readOnlyRegister] at hread
        obtain ⟨f, -, heq⟩ := Option.map_eq_some_iff.mp hread
        cases heq
        exact ⟨hname, (hdrFieldValue_eq_iff.mp hvalue).1⟩
      · rintro ⟨hname, hold⟩
        refine ⟨.xfsmHdrField, hdrFieldValue old .xfsmTimestamp, ?_, rfl, hname,
          hdrFieldValue_eq_iff.mpr ⟨hold, rfl⟩⟩
        rw [getOperand_readOnlyRegister, hname]
        rfl
  | constant c =>
    obtain ⟨cls, digits⟩ := c
    -- an address is of no type that the loader knows
    by_cases hcls : cls = .integerConstant
    · subst hcls
      -- a constant too large for 64 bits is cut to the largest there is
      have hread := strToUint_decimal h
      constructor
      · rintro ⟨type, value, hget, -, hvalue⟩
        rw [getOperand_integerConstant, hread] at hget
        cases hget
        rw [BitVec.toNat_ofNat] at hvalue
        show decimal digits < 2 ^ 64
        omega
      · intro hlt
        have hlt : decimal digits < 2 ^ 64 := hlt
        refine ⟨.xfsmConstant, BitVec.ofNat 64 (min (decimal digits) (2 ^ 64 - 1)), ?_, rfl, ?_⟩
        · rw [getOperand_integerConstant, hread]
          rfl
        · rw [BitVec.toNat_ofNat]
          omega
    · have hnot : ¬(Operand.constant ⟨cls, digits⟩).Readable old := by
        cases cls with
        | integerConstant => exact absurd rfl hcls
        | iPv4 | iPv6 | mac => exact not_false
      refine iff_of_false ?_ hnot
      rintro ⟨type, value, hget, -⟩
      rw [getOperand_address hcls] at hget
      cases hget
  | packetField f =>
    constructor
    · rintro ⟨type, value, hread, -, h, hplace, hvalue⟩
      rw [getOperand_packetField] at hread
      obtain ⟨g, hg, heq⟩ := Option.map_eq_some_iff.mp hread
      cases heq
      obtain ⟨hold, rfl⟩ := hdrFieldValue_eq_iff.mp hvalue
      exact ⟨hold, g, hg, hplace⟩
    · rintro ⟨hold, g, hg, hplace⟩
      refine ⟨.xfsmHdrField, hdrFieldValue old g, ?_, rfl, g, hplace,
        hdrFieldValue_eq_iff.mpr ⟨hold, rfl⟩⟩
      rw [getOperand_packetField, hg]
      rfl
  | eventField f =>
    constructor
    · rintro ⟨type, value, hread, -, hname, hvalue⟩
      rw [getOperand_eventField] at hread
      obtain ⟨g, -, heq⟩ := Option.map_eq_some_iff.mp hread
      cases heq
      exact ⟨hname, (hdrFieldValue_eq_iff.mp hvalue).1⟩
    · rintro ⟨hname, hold⟩
      refine ⟨.xfsmHdrField, hdrFieldValue old .xfsmInPort, ?_, rfl, hname,
        hdrFieldValue_eq_iff.mpr ⟨hold, rfl⟩⟩
      rw [getOperand_eventField, hname]
      rfl

/-- **When a destination comes out of `get_out_operand` right.** -/
def Writable (returned : BitVec 32) (r : Register) : Prop :=
  decimal r.name < 2 ^ 8 ∧ returned ≠ returnError

theorem getOutOperand_localRegister (name : String) :
    getOutOperand returned (some (Operand.serialize (.register ⟨.localRegister, name⟩))) =
      (strToUint 8 name).bind fun val =>
        if returned = returnError then none else some (.xfsmRegister, val) := rfl

theorem getOutOperand_globalRegister (name : String) :
    getOutOperand returned (some (Operand.serialize (.register ⟨.globalRegister, name⟩))) =
      (strToUint 8 name).bind fun val =>
        if returned = returnError then none else some (.xfsmGlobalRegister, val) := rfl

/-- A number that is read in eight bits, if the caller of the reader goes
on. -/
theorem readDestination_iff {type : XfsmValueType} {n : ℕ} (hn : n < 2 ^ 31) :
    (∃ type' output, ((strToUint 8 n.repr).bind fun val =>
        if returned = returnError then none else some (type, val)) = some (type', output) ∧
      type' = type ∧ output.toNat = decimal n.repr) ↔
        decimal n.repr < 2 ^ 8 ∧ returned ≠ returnError := by
  rw [strToUint_repr (by omega), Option.bind_some, decimal_repr]
  constructor
  · rintro ⟨type', output, hread, -, houtput⟩
    split at hread
    · cases hread
    · next hreturned =>
      cases hread
      rw [BitVec.toNat_ofNat] at houtput
      exact ⟨by omega, hreturned⟩
  · rintro ⟨hlt, hreturned⟩
    refine ⟨type, BitVec.ofNat 8 n, if_neg hreturned, rfl, ?_⟩
    rw [BitVec.toNat_ofNat]
    omega

/-- **The same of a destination.** -/
theorem destination_read_iff {r : Register} (hcls : r.cls ≠ .readOnlyRegister)
    (h : (Operand.register r).Made) :
    (∃ type output, getOutOperand returned (some (Operand.register r).serialize) =
      some (type, output) ∧ (Operand.register r).Means type output.toNat) ↔
        Writable returned r := by
  obtain ⟨cls, name⟩ := r
  cases cls with
  | localRegister =>
    obtain ⟨n, hn, rfl⟩ := h
    simp only [getOutOperand_localRegister]
    exact readDestination_iff hn
  | globalRegister =>
    obtain ⟨n, hn, rfl⟩ := h
    simp only [getOutOperand_globalRegister]
    exact readDestination_iff hn
  | readOnlyRegister => exact absurd rfl hcls

end Operands

/-! ## Conditions -/

section Conditions

variable {old : XfsmCondition} {c : Condition} {rec : XfsmCondition} {id : BitVec 32}

theorem readCondition_serialize (old : XfsmCondition) (c : Condition) :
    readCondition old c.serialize =
      (strToUint 32 c.id.repr).bind fun id =>
        (getOperand old.value1 (some c.op0.serialize)).bind fun op0 =>
          (getOperand old.value2 (some c.op1.serialize)).bind fun op1 =>
            some (id, ⟨op0.1, op1.1, op0.2, op1.2, c.opcode.toSw⟩) := by
  obtain ⟨⟨op0, op1, opcode⟩, id⟩ := c
  cases opcode <;> rfl

/-- A condition that was read has its id. -/
theorem id_of_readCondition (h : c.Made) (hread : readCondition old c.serialize = some (id, rec)) :
    id = BitVec.ofNat 32 c.id := by
  have hid := h.id
  rw [readCondition_serialize, strToUint_repr (by omega), Option.bind_some] at hread
  obtain ⟨op0, -, hread⟩ := Option.bind_eq_some_iff.mp hread
  obtain ⟨op1, -, hread⟩ := Option.bind_eq_some_iff.mp hread
  cases hread
  rfl

/-- **When a condition comes out right.** -/
theorem condition_read_iff (h : c.Made) :
    (∃ rec, readCondition old c.serialize = some (BitVec.ofNat 32 c.id, rec) ∧ c.Means rec) ↔
      c.op0.Readable old.value1 ∧ c.op1.Readable old.value2 := by
  have hid := h.id
  rw [← operand_read_iff h.op0, ← operand_read_iff h.op1, readCondition_serialize,
    strToUint_repr (by omega), Option.bind_some]
  constructor
  · rintro ⟨rec, hread, hmeans⟩
    obtain ⟨⟨type1, value1⟩, h0, hread⟩ := Option.bind_eq_some_iff.mp hread
    obtain ⟨⟨type2, value2⟩, h1, hread⟩ := Option.bind_eq_some_iff.mp hread
    cases hread
    exact ⟨⟨type1, value1, h0, hmeans.op0⟩, ⟨type2, value2, h1, hmeans.op1⟩⟩
  · rintro ⟨⟨type1, value1, h0, hm0⟩, ⟨type2, value2, h1, hm1⟩⟩
    refine ⟨⟨type1, type2, value1, value2, c.opcode.toSw⟩, ?_, rfl, hm0, hm1⟩
    rw [h0, h1]
    rfl

/-- **The conditions of a table come out right**: `json_to_conditions`
accepts them, and puts under each id a record that means the condition. -/
def ConditionsRead (old : ℕ → XfsmCondition) (cs : List Condition) : Prop :=
  ∃ written, jsonToConditions old (some (.array (cs.map Condition.serialize))) = some written ∧
    ∀ c ∈ cs, ∃ rec, conditionAt written c.id = some rec ∧ c.Means rec

/-- **When they do.** The conditions of a table are numbered by their
places. -/
theorem conditions_read_iff {old : ℕ → XfsmCondition} {cs : List Condition}
    (hmade : ∀ c ∈ cs, c.Made) (hids : cs.map Condition.id = List.range cs.length) :
    ConditionsRead old cs ↔ cs.length < 255 ∧ ∀ (k : ℕ) (c : Condition), cs[k]? = some c →
      c.op0.Readable (old k).value1 ∧ c.op1.Readable (old k).value2 := by
  have hid : ∀ {k : ℕ} {c : Condition}, cs[k]? = some c → c.id = k := by
    intro k c hk
    have hmap := congrArg (fun l => l[k]?) hids
    simp only [List.getElem?_map, hk, Option.map_some] at hmap
    obtain ⟨hlt, heq⟩ := List.getElem?_eq_some_iff.mp hmap.symm
    rw [List.getElem_range] at heq
    exact heq.symm
  have hjson : ∀ {k : ℕ} {json : Json}, (cs.map Condition.serialize)[k]? = some json →
      ∃ c, cs[k]? = some c ∧ c.serialize = json := by
    intro k json hk
    rw [List.getElem?_map] at hk
    exact Option.map_eq_some_iff.mp hk
  -- a record that stands in the array was read from the condition of that place
  have hplace : ∀ {written : List (BitVec 32 × XfsmCondition)}, cs.length < 255 →
      forEach (fun i => readCondition (old i)) 0 (cs.map Condition.serialize) = some written →
      ∀ {k : ℕ} {c : Condition} {rec : XfsmCondition}, cs[k]? = some c →
        (BitVec.ofNat 32 c.id, rec) ∈ written →
        readCondition (old k) c.serialize = some (BitVec.ofNat 32 c.id, rec) := by
    intro written hlt hwritten k c rec hk hmem
    obtain ⟨k', hk'⟩ := List.getElem?_of_mem hmem
    obtain ⟨json, hj, hread⟩ := getElem?_forEach hwritten hk'
    obtain ⟨c', hc', rfl⟩ := hjson hj
    have hsame := id_of_readCondition (hmade c' (List.mem_of_getElem? hc')) hread
    have hnumber := congrArg BitVec.toNat hsame
    have hklt := (List.getElem?_eq_some_iff.mp hk).1
    have hklt' := (List.getElem?_eq_some_iff.mp hc').1
    rw [BitVec.toNat_ofNat, BitVec.toNat_ofNat, hid hk, hid hc'] at hnumber
    have heq : k = k' := by omega
    subst heq
    rw [hk] at hc'
    cases hc'
    rw [Nat.zero_add] at hread
    exact hread
  constructor
  · rintro ⟨written, hwritten, hmeans⟩
    unfold jsonToConditions at hwritten
    split at hwritten
    · next hlt =>
      rw [children_array, List.length_map] at hlt
      refine ⟨hlt, fun k c hk => ?_⟩
      have hc := List.mem_of_getElem? hk
      obtain ⟨rec, hrec, hm⟩ := hmeans c hc
      refine (condition_read_iff (hmade c hc)).mp ⟨rec, ?_, hm⟩
      exact hplace hlt hwritten hk (mem_of_conditionAt hrec)
    · cases hwritten
  · rintro ⟨hlt, hreadable⟩
    have hsome : (forEach (fun i => readCondition (old i)) 0
        (cs.map Condition.serialize)).isSome = true := by
      refine forEach_isSome fun k json hj => ?_
      obtain ⟨c, hc, rfl⟩ := hjson hj
      obtain ⟨rec, hrec, -⟩ :=
        (condition_read_iff (hmade c (List.mem_of_getElem? hc))).mpr (hreadable k c hc)
      rw [Nat.zero_add, hrec]
      rfl
    obtain ⟨written, hwritten⟩ := Option.isSome_iff_exists.mp hsome
    refine ⟨written, ?_, fun c hc => ?_⟩
    · unfold jsonToConditions
      rw [children_array, List.length_map, if_pos hlt]
      exact hwritten
    · obtain ⟨k, hk⟩ := List.getElem?_of_mem hc
      obtain ⟨rec, hrec, hm⟩ := (condition_read_iff (hmade c hc)).mpr (hreadable k c hk)
      have hj : (cs.map Condition.serialize)[k]? = some c.serialize := by
        rw [List.getElem?_map, hk]
        rfl
      obtain ⟨b, hb, hread⟩ := getElem?_of_forEach hwritten hj
      rw [Nat.zero_add, hrec] at hread
      cases hread
      obtain ⟨rec', hrec'⟩ := exists_conditionAt (List.mem_of_getElem? hb)
      have hread' := hplace hlt hwritten hk (mem_of_conditionAt hrec')
      rw [hrec] at hread'
      cases hread'
      exact ⟨_, hrec', hm⟩

end Conditions

/-! ## Actions -/

section Actions

variable {old : ActionMemory} {a : Action}

/-- **When an action comes out right.** -/
def Xl.Action.Readable (old : ActionMemory) : Action → Prop
  | .sequentializable (.update u) =>
    u.opcode.isSome = true ∧ u.op0.Readable old.record.value1 ∧ u.op1.Readable old.record.value2 ∧
      Writable old.returned u.op2
  | .sequentializable (.hardwareAction a) =>
    (a.opcode = .xtraSendpkt ∨ a.opcode = .xtraSetfield) ∧
      (∀ o, a.op0 = some o → o.Readable old.record.value1) ∧
      (∀ o, a.op1 = some o → o.Readable old.record.value2) ∧
      ∀ o, a.op2 = some o → o.Readable old.record.value3
  | _ => False

/-- An update as the loader finds it. -/
theorem readAction_update (opcode : UpdateOpcode) (op0 op1 : Operand) (op2 : Register)
    {json : Json} (h : Update.serialize ⟨some opcode, op0, op1, op2⟩ = some json) :
    readAction old json = readOperands old .xfsmUpdate opcode.toSw (some op0.serialize)
      (some op1.serialize) (some (Operand.register op2).serialize) := by
  cases h
  cases opcode <;> rfl

/-- **An update** comes out right. -/
theorem update_read_iff {u : Update} (h : u.Made) :
    (∃ json act, u.serialize = some json ∧ readAction old json = some act ∧ u.Means act) ↔
      Action.Readable old (.sequentializable (.update u)) := by
  obtain ⟨opcode, op0, op1, op2⟩ := u
  show _ ↔ opcode.isSome = true ∧ _ ∧ _ ∧ _
  rw [← operand_read_iff h.op0, ← operand_read_iff h.op1, ← destination_read_iff h.op2.1 h.op2.2]
  constructor
  · rintro ⟨json, act, hjson, hread, hmeans⟩
    cases opcode with
    | none => cases hjson
    | some opcode =>
      rw [readAction_update opcode op0 op1 op2 hjson] at hread
      obtain ⟨⟨type1, value1⟩, h0, hread⟩ := Option.bind_eq_some_iff.mp hread
      obtain ⟨⟨type2, value2⟩, h1, hread⟩ := Option.bind_eq_some_iff.mp hread
      obtain ⟨⟨outType, output⟩, h2, hread⟩ := Option.bind_eq_some_iff.mp hread
      cases hread
      exact ⟨rfl, ⟨_, _, h0, hmeans.op0⟩, ⟨_, _, h1, hmeans.op1⟩, ⟨_, _, h2, hmeans.op2⟩⟩
  · rintro ⟨hopcode, ⟨type1, value1, h0, hm0⟩, ⟨type2, value2, h1, hm1⟩, outType, output, h2, hm2⟩
    obtain ⟨opcode, rfl⟩ := Option.isSome_iff_exists.mp hopcode
    obtain ⟨json, hjson⟩ : ∃ json, Update.serialize ⟨some opcode, op0, op1, op2⟩ = some json :=
      ⟨_, rfl⟩
    refine ⟨json, { old.record with
      type := .xfsmUpdate, opcode := opcode.toSw, type1 := type1, value1 := value1
      type2 := type2, value2 := value2, outType := outType, output := output }, hjson, ?_,
      rfl, rfl, hm0, hm1, hm2⟩
    rw [readAction_update opcode op0 op1 op2 hjson]
    unfold readOperands
    simp only [h0, h1, h2]
    rfl

/-- **A hardware action** comes out right. -/
theorem hardwareAction_read_iff {a : HardwareAction} (h : a.Made) :
    (∃ act, readAction old a.serialize = some act ∧ a.Means act) ↔
      Action.Readable old (.sequentializable (.hardwareAction a)) := by
  obtain ⟨op0, op1, op2, opcode⟩ := a
  cases opcode with
  | xtraSendpkt =>
    obtain ⟨o0, rfl⟩ := Option.isSome_iff_exists.mp (h.op0.1.mpr (show 0 < 2 by omega))
    obtain ⟨o1, rfl⟩ := Option.isSome_iff_exists.mp (h.op1.1.mpr (show 1 < 2 by omega))
    obtain rfl : op2 = none :=
      Option.not_isSome_iff_eq_none.mp fun hs => absurd (h.op2.1.mp hs) (show ¬2 < 2 by omega)
    have hform : readAction old (HardwareAction.serialize ⟨some o0, some o1, none, .xtraSendpkt⟩) =
        readOperands old .xfsmSendpkt .xfsmSum (some o0.serialize) (some o1.serialize) none := rfl
    have h0 := @operand_read_iff old.record.value1 _ (h.op0.2 o0 rfl)
    have h1 := @operand_read_iff old.record.value2 _ (h.op1.2 o1 rfl)
    rw [hform]
    constructor
    · rintro ⟨act, hread, hmeans⟩
      obtain ⟨⟨type1, value1⟩, hr0, hread⟩ := Option.bind_eq_some_iff.mp hread
      obtain ⟨⟨type2, value2⟩, hr1, hread⟩ := Option.bind_eq_some_iff.mp hread
      cases hread
      refine ⟨Or.inl rfl, fun o ho => ?_, fun o ho => ?_, fun o ho => ?_⟩
      · cases ho
        exact h0.mp ⟨_, _, hr0, hmeans.op0 o0 rfl⟩
      · cases ho
        exact h1.mp ⟨_, _, hr1, hmeans.op1 o1 rfl⟩
      · cases ho
    · rintro ⟨-, hop0, hop1, -⟩
      obtain ⟨type1, value1, hr0, hm0⟩ := h0.mpr (hop0 o0 rfl)
      obtain ⟨type2, value2, hr1, hm1⟩ := h1.mpr (hop1 o1 rfl)
      refine ⟨{ old.record with
        type := .xfsmSendpkt, opcode := .xfsmSum, type1 := type1, value1 := value1
        type2 := type2, value2 := value2 }, ?_, rfl, fun o ho => ?_, fun o ho => ?_,
        fun o ho => ?_⟩
      · unfold readOperands
        simp only [hr0, hr1]
        rfl
      · cases ho
        exact hm0
      · cases ho
        exact hm1
      · cases ho
  | xtraSetfield =>
    obtain ⟨o0, rfl⟩ := Option.isSome_iff_exists.mp (h.op0.1.mpr (show 0 < 3 by omega))
    obtain ⟨o1, rfl⟩ := Option.isSome_iff_exists.mp (h.op1.1.mpr (show 1 < 3 by omega))
    obtain ⟨o2, rfl⟩ := Option.isSome_iff_exists.mp (h.op2.1.mpr (show 2 < 3 by omega))
    have hform :
        readAction old (HardwareAction.serialize ⟨some o0, some o1, some o2, .xtraSetfield⟩) =
          readOperands old .xfsmSetfield .xfsmSum (some o0.serialize) (some o1.serialize)
            (some o2.serialize) := rfl
    have h0 := @operand_read_iff old.record.value1 _ (h.op0.2 o0 rfl)
    have h1 := @operand_read_iff old.record.value2 _ (h.op1.2 o1 rfl)
    have h2 := @operand_read_iff old.record.value3 _ (h.op2.2 o2 rfl)
    rw [hform]
    constructor
    · rintro ⟨act, hread, hmeans⟩
      obtain ⟨⟨type1, value1⟩, hr0, hread⟩ := Option.bind_eq_some_iff.mp hread
      obtain ⟨⟨type2, value2⟩, hr1, hread⟩ := Option.bind_eq_some_iff.mp hread
      obtain ⟨⟨type3, value3⟩, hr2, hread⟩ := Option.bind_eq_some_iff.mp hread
      cases hread
      refine ⟨Or.inr rfl, fun o ho => ?_, fun o ho => ?_, fun o ho => ?_⟩
      · cases ho
        exact h0.mp ⟨_, _, hr0, hmeans.op0 o0 rfl⟩
      · cases ho
        exact h1.mp ⟨_, _, hr1, hmeans.op1 o1 rfl⟩
      · cases ho
        exact h2.mp ⟨_, _, hr2, hmeans.op2 o2 rfl⟩
    · rintro ⟨-, hop0, hop1, hop2⟩
      obtain ⟨type1, value1, hr0, hm0⟩ := h0.mpr (hop0 o0 rfl)
      obtain ⟨type2, value2, hr1, hm1⟩ := h1.mpr (hop1 o1 rfl)
      obtain ⟨type3, value3, hr2, hm2⟩ := h2.mpr (hop2 o2 rfl)
      refine ⟨{ old.record with
        type := .xfsmSetfield, opcode := .xfsmSum, type1 := type1, value1 := value1
        type2 := type2, value2 := value2, type3 := type3, value3 := value3 }, ?_, rfl,
        fun o ho => ?_, fun o ho => ?_, fun o ho => ?_⟩
      · unfold readOperands
        simp only [hr0, hr1, hr2]
        rfl
      · cases ho
        exact hm0
      · cases ho
        exact hm1
      · cases ho
        exact hm2
  | xtraSettimer | xtraStorepkt | xtraDeletepkt | xtraDeleteInstance =>
    -- words that the loader does not know
    refine iff_of_false ?_ fun hr => by rcases hr.1 with hr | hr <;> cases hr
    rintro ⟨act, hread, -⟩
    cases hread

/-- An action of a row is written and read. -/
theorem action_read_iff (h : a.Made) :
    (∃ json act, a.serialize = some json ∧ readAction old json = some act ∧ a.Means act) ↔
      a.Readable old := by
  cases a with
  | sequentializable action =>
    cases action with
    | update u => exact update_read_iff h
    | hardwareAction a =>
      rw [← hardwareAction_read_iff h]
      constructor
      · rintro ⟨json, act, hjson, hread, hmeans⟩
        cases hjson
        exact ⟨act, hread, hmeans⟩
      · rintro ⟨act, hread, hmeans⟩
        exact ⟨_, act, rfl, hread, hmeans⟩
  | sequentialActions actions =>
    -- the object has no opcode
    refine iff_of_false ?_ not_false
    rintro ⟨json, act, hjson, hread, -⟩
    obtain ⟨elements, -, rfl⟩ := Option.map_eq_some_iff.mp hjson
    cases hread
  | stateTransition op0 => exact absurd h not_false
  | stageTransition stage => exact absurd h not_false

/-- **The actions of a row come out right**: the compiler writes them,
`json_to_actions` accepts them, and there are as many records, each
meaning its action. -/
def ActionsRead (old : ℕ → ActionMemory) (as : List Action) : Prop :=
  ∃ jsons acts, as.mapM Action.serialize = some jsons ∧
    jsonToActions old (some (.array jsons)) = some acts ∧ acts.length = as.length ∧
      ∀ (k : ℕ) (a : Action) (act : XfsmAction), as[k]? = some a → acts[k]? = some act → a.Means act

/-- **When they do.** -/
theorem actions_read_iff {old : ℕ → ActionMemory} {as : List Action} (hmade : ∀ a ∈ as, a.Made) :
    ActionsRead old as ↔
      as.length < 2 ^ 16 ∧ ∀ (k : ℕ) (a : Action), as[k]? = some a → a.Readable (old k) := by
  constructor
  · rintro ⟨jsons, acts, hjsons, hacts, hlen, hmeans⟩
    unfold jsonToActions at hacts
    obtain ⟨parsed, hparsed, rfl⟩ := Option.map_eq_some_iff.mp hacts
    have hmap := mapM_eq_some_iff.mp hjsons
    have hparsedLen := length_forEach hparsed
    have hjsonsLen := congrArg List.length hmap
    rw [List.length_map, List.length_map] at hjsonsLen
    rw [children_array] at hparsedLen hparsed
    rw [List.length_take, BitVec.toNat_ofNat] at hlen
    refine ⟨by omega, fun k a hk => ?_⟩
    have hjson := congrArg (fun l => l[k]?) hmap
    simp only [List.getElem?_map, hk, Option.map_some] at hjson
    obtain ⟨json, hjson', heq⟩ := Option.map_eq_some_iff.mp hjson.symm
    obtain ⟨act, hact, hread⟩ := getElem?_of_forEach hparsed hjson'
    rw [Nat.zero_add] at hread
    have hklt := (List.getElem?_eq_some_iff.mp hk).1
    refine (action_read_iff (hmade a (List.mem_of_getElem? hk))).mp ⟨json, act, heq.symm, hread,
      hmeans k a act hk ?_⟩
    rw [List.getElem?_take_of_lt (by rw [BitVec.toNat_ofNat]; omega)]
    exact hact
  · rintro ⟨hlt, hreadable⟩
    have hread : ∀ (k : ℕ) (a : Action), as[k]? = some a → ∃ json act, a.serialize = some json ∧
        readAction (old k) json = some act ∧ a.Means act := fun k a hk =>
      (action_read_iff (hmade a (List.mem_of_getElem? hk))).mpr (hreadable k a hk)
    -- what the compiler writes
    have hwritten : as.map Action.serialize =
        (as.map fun a => a.serialize.getD .null).map some := by
      rw [List.map_map]
      refine List.map_congr_left fun a ha => ?_
      obtain ⟨k, hk⟩ := List.getElem?_of_mem ha
      obtain ⟨json, act, hjson, -⟩ := hread k a hk
      rw [Function.comp_apply, hjson]
      rfl
    have hjson : ∀ {k : ℕ} {json : Json}, (as.map fun a => a.serialize.getD .null)[k]? = some json →
        ∃ a, as[k]? = some a ∧ a.serialize.getD .null = json := by
      intro k json hk
      rw [List.getElem?_map] at hk
      exact Option.map_eq_some_iff.mp hk
    -- and what the loader makes of it
    have hsome : (forEach (fun i => readAction (old i)) 0
        (as.map fun a => a.serialize.getD .null)).isSome = true := by
      refine forEach_isSome fun k json hk => ?_
      obtain ⟨a, ha, rfl⟩ := hjson hk
      obtain ⟨json, act, hs, hr, -⟩ := hread k a ha
      rw [Nat.zero_add, hs, Option.getD_some, hr]
      rfl
    obtain ⟨parsed, hparsed⟩ := Option.isSome_iff_exists.mp hsome
    have hlen := length_forEach hparsed
    rw [List.length_map] at hlen
    have hall : parsed.take (BitVec.ofNat 16 parsed.length).toNat = parsed := by
      refine List.take_of_length_le ?_
      rw [BitVec.toNat_ofNat]
      omega
    refine ⟨_, parsed, mapM_eq_some_iff.mpr hwritten, ?_, hlen.symm, fun k a act ha hact => ?_⟩
    · unfold jsonToActions
      rw [children_array, hparsed, Option.map_some, hall]
    · obtain ⟨json, hj, hr⟩ := getElem?_forEach hparsed hact
      obtain ⟨a', ha', rfl⟩ := hjson hj
      rw [ha] at ha'
      cases ha'
      obtain ⟨json, act', hs, hr', hm⟩ := hread k a ha
      rw [Nat.zero_add, hs, Option.getD_some, hr'] at hr
      cases hr
      exact hm

end Actions

/-! ## What the loader decodes -/

section Decodes

/-- **The loader decodes what the compiler encodes**: the conditions of a
table, and the actions of a row. -/
structure Decodes (oldConditions : ℕ → XfsmCondition) (oldActions : ℕ → ActionMemory)
    (cs : List Condition) (as : List Action) : Prop where
  conditions : ConditionsRead oldConditions cs
  actions : ActionsRead oldActions as

/-- **What it decodes**: fewer than 255 conditions over readable operands,
and fewer than 65536 readable actions. -/
theorem decodes_iff {oldConditions : ℕ → XfsmCondition} {oldActions : ℕ → ActionMemory}
    {cs : List Condition} {as : List Action} (hcs : ∀ c ∈ cs, c.Made)
    (hids : cs.map Condition.id = List.range cs.length) (has : ∀ a ∈ as, a.Made) :
    Decodes oldConditions oldActions cs as ↔
      (cs.length < 255 ∧ ∀ (k : ℕ) (c : Condition), cs[k]? = some c →
        c.op0.Readable (oldConditions k).value1 ∧ c.op1.Readable (oldConditions k).value2) ∧
      (as.length < 2 ^ 16 ∧ ∀ (k : ℕ) (a : Action), as[k]? = some a →
        a.Readable (oldActions k)) := by
  rw [← conditions_read_iff hcs hids, ← actions_read_iff has]
  exact ⟨fun h => ⟨h.conditions, h.actions⟩, fun h => ⟨h.1, h.2⟩⟩

/-- The first local register. -/
def firstRegister : Register := ⟨.localRegister, (0 : ℕ).repr⟩

theorem made_firstRegister : (Operand.register firstRegister).Made := ⟨0, by decide, rfl⟩

/-- The first register is less than five, and becomes one more. -/
theorem decodes_counter :
    Decodes zeroMemory.conditions (zeroMemory.actions 0)
      [⟨⟨.register firstRegister, .constant ⟨.integerConstant, (5 : ℕ).repr⟩, .xtraLess⟩, 0⟩]
      [.sequentializable (.update ⟨some .xtraSum, .register firstRegister,
        .constant ⟨.integerConstant, (1 : ℕ).repr⟩, firstRegister⟩)] := by
  refine (decodes_iff ?_ rfl ?_).mpr ⟨⟨by decide, fun k c hk => ?_⟩, by decide, fun k a hk => ?_⟩
  · intro c hc
    rw [List.mem_singleton.mp hc]
    exact ⟨by decide, made_firstRegister, isDecimal_repr 5⟩
  · intro a ha
    rw [List.mem_singleton.mp ha]
    exact ⟨made_firstRegister, isDecimal_repr 1, by decide, made_firstRegister⟩
  · rw [List.mem_singleton.mp (List.mem_of_getElem? hk)]
    refine ⟨trivial, ?_⟩
    show decimal (5 : ℕ).repr < 2 ^ 64
    rw [decimal_repr]
    omega
  · rw [List.mem_singleton.mp (List.mem_of_getElem? hk)]
    refine ⟨rfl, trivial, ?_, ?_, ?_⟩
    · show decimal (1 : ℕ).repr < 2 ^ 64
      rw [decimal_repr]
      omega
    · show decimal (0 : ℕ).repr < 2 ^ 8
      rw [decimal_repr]
      omega
    · show (0 : BitVec 32) ≠ returnError
      decide

/-- **Deleting the instance** is refused: the two have different words for
it. -/
theorem not_decodes :
    ¬∀ (oldConditions : ℕ → XfsmCondition) (oldActions : ℕ → ActionMemory) (cs : List Condition)
      (as : List Action), (∀ c ∈ cs, c.Made) → cs.map Condition.id = List.range cs.length →
        (∀ a ∈ as, a.Made) → Decodes oldConditions oldActions cs as := by
  intro h
  have hmade : Action.Made
      (.sequentializable (.hardwareAction ⟨none, none, none, .xtraDeleteInstance⟩)) :=
    ⟨⟨by decide, fun o ho => by cases ho⟩, ⟨by decide, fun o ho => by cases ho⟩,
      ⟨by decide, fun o ho => by cases ho⟩⟩
  have hall : ∀ a ∈ [Action.sequentializable
      (.hardwareAction ⟨none, none, none, .xtraDeleteInstance⟩)], a.Made := by
    intro a ha
    rw [List.mem_singleton.mp ha]
    exact hmade
  have hread := (h zeroMemory.conditions (zeroMemory.actions 0) []
    [.sequentializable (.hardwareAction ⟨none, none, none, .xtraDeleteInstance⟩)]
    (fun c hc => absurd hc List.not_mem_nil) rfl hall).actions
  have hopcode := (((actions_read_iff hall).mp hread).2 0 _ rfl).1
  rcases hopcode with hopcode | hopcode <;> cases hopcode

end Decodes

end FlowBlaze
