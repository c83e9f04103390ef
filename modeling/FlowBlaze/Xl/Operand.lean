import FlowBlaze.Common.LinkedHashMap
/-!
# Operands — `model/operand`

The operand classes of the compiler. Registers and constants are each an
abstract class with subclasses that add nothing: the generated `equals`
is the abstract class's, and compares the name, or the value, of two
objects of any of its subclasses.
-/

namespace FlowBlaze

namespace Xl

/-- The subclasses of `Register`. -/
inductive RegisterClass
  | globalRegister
  | localRegister
  | readOnlyRegister
deriving DecidableEq, Repr

/-- `Register`. -/
structure Register where
  cls : RegisterClass
  name : String
deriving DecidableEq, Repr

/-- The subclasses of `Constant`; the last three are `AddressConstant`s. -/
inductive ConstantClass
  | integerConstant
  | iPv4
  | iPv6
  | mac
deriving DecidableEq, Repr

/-- `Constant`. -/
structure Constant where
  cls : ConstantClass
  value : String
deriving DecidableEq, Repr

/-- `PacketField`; `from` is a word of this language. -/
structure PacketField where
  name : String
  from' : String
  length : String
  value : String
deriving DecidableEq, Repr

/-- `EventField`. -/
structure EventField where
  name : String
deriving DecidableEq, Repr

/-- `Operand`. -/
inductive Operand
  | register (register : Register)
  | constant (constant : Constant)
  | packetField (field : PacketField)
  | eventField (field : EventField)
deriving DecidableEq, Repr

/-- `OperandType`. -/
inductive OperandType
  | xtraGlobalRegister
  | xtraLocalRegister
  | xtraIntegerConst
  | xtraIpv4AddrConst
  | xtraIpv6AddrConst
  | xtraMacAddrConst
  | xtraPktField
  | xtraEventField
  | xtraReadOnlyRegister
deriving DecidableEq, Repr

/-- `OperandType.toEnum`. -/
def Operand.toEnum : Operand → OperandType
  | .register ⟨.globalRegister, _⟩ => .xtraGlobalRegister
  | .register ⟨.localRegister, _⟩ => .xtraLocalRegister
  | .constant ⟨.integerConstant, _⟩ => .xtraIntegerConst
  | .constant ⟨.iPv4, _⟩ => .xtraIpv4AddrConst
  | .constant ⟨.iPv6, _⟩ => .xtraIpv6AddrConst
  | .constant ⟨.mac, _⟩ => .xtraMacAddrConst
  | .eventField _ => .xtraEventField
  | .register ⟨.readOnlyRegister, _⟩ => .xtraReadOnlyRegister
  | .packetField _ => .xtraPktField

/-- The generated `equals`. -/
def Operand.equals : Operand → Operand → Bool
  | .register r, .register r' => r.name == r'.name
  | .constant c, .constant c' => c.value == c'.value
  | .packetField field, .packetField field' => field == field'
  | .eventField field, .eventField field' => field == field'
  | _, _ => false

variable {a b c : Operand}

theorem Operand.equals_refl (a : Operand) : a.equals a = true := by
  cases a <;> simp [equals]

theorem Operand.equals_symm (h : a.equals b = true) : b.equals a = true := by
  cases a <;> cases b <;> simp_all [equals]

theorem Operand.equals_trans (hab : a.equals b = true) (hbc : b.equals c = true) :
    a.equals c = true := by
  cases a <;> cases b <;> cases c <;> simp_all [equals]

/-- **Equal operands of one kind are the same operand.** -/
theorem Operand.eq_of_equals (h : a.equals b = true) (hkind : a.toEnum = b.toEnum) : a = b := by
  cases a with
  | register r =>
    cases b with
    | register r' =>
      obtain ⟨cls, name⟩ := r
      obtain ⟨cls', name'⟩ := r'
      obtain rfl : name = name' := beq_iff_eq.mp h
      cases cls <;> cases cls' <;> first | rfl | cases hkind
    | _ => cases h
  | constant c =>
    cases b with
    | constant c' =>
      obtain ⟨cls, value⟩ := c
      obtain ⟨cls', value'⟩ := c'
      obtain rfl : value = value' := beq_iff_eq.mp h
      cases cls <;> cases cls' <;> first | rfl | cases hkind
    | _ => cases h
  | packetField field =>
    cases b with
    | packetField field' => rw [beq_iff_eq.mp h]
    | _ => cases h
  | eventField field =>
    cases b with
    | eventField field' => rw [beq_iff_eq.mp h]
    | _ => cases h

end Xl

end FlowBlaze
