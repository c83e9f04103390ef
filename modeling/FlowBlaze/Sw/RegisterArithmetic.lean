import FlowBlaze.Sw.Actions
/-!
# Register arithmetic — `update`

The operands of an update are numbers of the host's signed type. What the
update should store is the result of the operation over the integers, in
two's complement. A sum, difference or product that does not fit has no
result in C, nor has a remainder by zero, nor the most negative number
divided by minus one; only the division by zero is looked at.
-/

namespace FlowBlaze

namespace Sw

/-- Numbers of `int64_t`. -/
def FitsInt64 (n : ℤ) : Prop := -2 ^ 63 ≤ n ∧ n < 2 ^ 63

namespace XfsmOpcode

/-- The operation over the integers. A number divided by zero is left as it
is. -/
def exact (a b : ℤ) : XfsmOpcode → ℤ
  | .xfsmSum => a + b
  | .xfsmMinus => a - b
  | .xfsmMultiply => a * b
  | .xfsmDivide => if b = 0 then a else a.tdiv b
  | .xfsmModulo => a.tmod b
  | .xfsmMax => max a b
  | .xfsmMin => min a b

/-- The most negative number, and minus one. -/
def Overflows (a b : ℤ) : Prop := a = -2 ^ 63 ∧ b = -1

/-- Operands that the operation has a result for. -/
def Defined (a b : ℤ) : XfsmOpcode → Prop
  | .xfsmSum => FitsInt64 (a + b)
  | .xfsmMinus => FitsInt64 (a - b)
  | .xfsmMultiply => FitsInt64 (a * b)
  | .xfsmDivide => ¬Overflows a b
  | .xfsmModulo => b ≠ 0 ∧ ¬Overflows a b
  | .xfsmMax => True
  | .xfsmMin => True

end XfsmOpcode

/-- The state once an update has stored a result. -/
def Exec.stored (X : Exec) (act : XfsmAction) (result : Word64) : Exec :=
  if act.outType = .xfsmRegister then
    { X with registers := fun j => if j.val = act.output.toNat then result else X.registers j }
  else
    { X with
      globalRegisters := fun j =>
        if j.val = act.output.toNat then result else X.globalRegisters j }

/-- **An update is total**: it stores the result in two's complement. -/
def UpdatesTotally (X : Exec) (act : XfsmAction) : Prop :=
  X.update act =
    some (X.stored act (BitVec.ofInt 64 (act.opcode.exact X.reg1.toInt X.reg2.toInt)))

/-! ## The operations -/

section Apply

variable {a b : Word64}

theorem toInt_eq_zero_iff : b.toInt = 0 ↔ b = 0 := by
  rw [← BitVec.toInt_inj (y := 0)]
  rfl

theorem saddOverflow_eq_false_iff : a.saddOverflow b = false ↔ FitsInt64 (a.toInt + b.toInt) := by
  unfold BitVec.saddOverflow FitsInt64
  rw [Bool.or_eq_false_iff, decide_eq_false_iff_not, decide_eq_false_iff_not]
  omega

theorem ssubOverflow_eq_false_iff : a.ssubOverflow b = false ↔ FitsInt64 (a.toInt - b.toInt) := by
  unfold BitVec.ssubOverflow FitsInt64
  rw [Bool.or_eq_false_iff, decide_eq_false_iff_not, decide_eq_false_iff_not]
  omega

theorem smulOverflow_eq_false_iff : a.smulOverflow b = false ↔ FitsInt64 (a.toInt * b.toInt) := by
  unfold BitVec.smulOverflow FitsInt64
  rw [Bool.or_eq_false_iff, decide_eq_false_iff_not, decide_eq_false_iff_not]
  omega

theorem sdivOverflow_iff : a.sdivOverflow b = true ↔ XfsmOpcode.Overflows a.toInt b.toInt := by
  have hmin : a = BitVec.intMin 64 ↔ a.toInt = -2 ^ 63 := by
    rw [← BitVec.toInt_inj]
    rfl
  have hone : b = BitVec.allOnes 64 ↔ b.toInt = -1 := by
    rw [← BitVec.toInt_inj]
    rfl
  rw [BitVec.sdivOverflow_eq, XfsmOpcode.Overflows, ← hmin, ← hone]
  simp

/-- A quotient that does not overflow. -/
theorem sdiv_eq (h : ¬XfsmOpcode.Overflows a.toInt b.toInt) :
    a.sdiv b = BitVec.ofInt 64 (a.toInt.tdiv b.toInt) := by
  rw [← BitVec.ofInt_toInt (x := a.sdiv b), BitVec.toInt_sdiv_of_ne_or_ne]
  by_contra hne
  rw [not_or, not_not, not_not] at hne
  refine h ⟨?_, ?_⟩
  · rw [hne.1]
    rfl
  · rw [hne.2]
    rfl

/-- A remainder. -/
theorem srem_eq : a.srem b = BitVec.ofInt 64 (a.toInt.tmod b.toInt) := by
  rw [← BitVec.ofInt_toInt (x := a.srem b), BitVec.toInt_srem]

/-- **What `update` computes**: the result over the integers, where the
operation is defined. -/
theorem apply_eq (opcode : XfsmOpcode) (h : opcode.Defined a.toInt b.toInt) :
    opcode.apply a b = some (BitVec.ofInt 64 (opcode.exact a.toInt b.toInt)) := by
  unfold XfsmOpcode.apply XfsmOpcode.exact
  cases opcode with
  | xfsmSum =>
    dsimp only
    rw [saddOverflow_eq_false_iff.mpr h, BitVec.ofInt_add, BitVec.ofInt_toInt, BitVec.ofInt_toInt]
    rfl
  | xfsmMinus =>
    dsimp only
    rw [ssubOverflow_eq_false_iff.mpr h, Int.sub_eq_add_neg, BitVec.ofInt_add, BitVec.ofInt_neg,
      BitVec.ofInt_toInt, BitVec.ofInt_toInt, ← BitVec.sub_eq_add_neg]
    rfl
  | xfsmMultiply =>
    dsimp only
    rw [smulOverflow_eq_false_iff.mpr h, BitVec.ofInt_mul, BitVec.ofInt_toInt, BitVec.ofInt_toInt]
    rfl
  | xfsmDivide =>
    dsimp only
    by_cases hzero : b = 0
    · rw [if_pos hzero, if_pos (toInt_eq_zero_iff.mpr hzero), BitVec.ofInt_toInt]
    · rw [if_neg hzero, if_neg (hzero ∘ toInt_eq_zero_iff.mp), if_neg (h ∘ sdivOverflow_iff.mp),
        sdiv_eq h]
  | xfsmModulo =>
    dsimp only
    rw [if_neg, srem_eq]
    rintro (hzero | hoverflow)
    · exact h.1 (toInt_eq_zero_iff.mpr hzero)
    · exact h.2 (sdivOverflow_iff.mp hoverflow)
  | xfsmMax =>
    dsimp only
    by_cases hlt : b.toInt < a.toInt
    · rw [if_pos (BitVec.slt_iff_toInt_lt.mpr hlt), max_eq_left hlt.le, BitVec.ofInt_toInt]
    · rw [if_neg (hlt ∘ BitVec.slt_iff_toInt_lt.mp), max_eq_right (not_lt.mp hlt),
        BitVec.ofInt_toInt]
  | xfsmMin =>
    dsimp only
    by_cases hlt : a.toInt < b.toInt
    · rw [if_pos (BitVec.slt_iff_toInt_lt.mpr hlt), min_eq_left hlt.le, BitVec.ofInt_toInt]
    · rw [if_neg (hlt ∘ BitVec.slt_iff_toInt_lt.mp), min_eq_right (not_lt.mp hlt),
        BitVec.ofInt_toInt]

/-- Elsewhere it has no result. -/
theorem apply_eq_none (opcode : XfsmOpcode) (h : ¬opcode.Defined a.toInt b.toInt) :
    opcode.apply a b = none := by
  unfold XfsmOpcode.apply
  cases opcode with
  | xfsmSum =>
    have hoverflow : a.saddOverflow b = true :=
      Bool.eq_true_of_not_eq_false (h ∘ saddOverflow_eq_false_iff.mp)
    exact if_pos hoverflow
  | xfsmMinus =>
    have hoverflow : a.ssubOverflow b = true :=
      Bool.eq_true_of_not_eq_false (h ∘ ssubOverflow_eq_false_iff.mp)
    exact if_pos hoverflow
  | xfsmMultiply =>
    have hoverflow : a.smulOverflow b = true :=
      Bool.eq_true_of_not_eq_false (h ∘ smulOverflow_eq_false_iff.mp)
    exact if_pos hoverflow
  | xfsmDivide =>
    have hoverflows : XfsmOpcode.Overflows a.toInt b.toInt := not_not.mp h
    have hzero : ¬b = 0 := by
      rintro rfl
      exact absurd hoverflows.2 (by decide)
    dsimp only
    rw [if_neg hzero, if_pos (sdivOverflow_iff.mpr hoverflows)]
  | xfsmModulo =>
    refine if_pos ?_
    by_cases hzero : b.toInt = 0
    · exact .inl (toInt_eq_zero_iff.mp hzero)
    · exact .inr (sdivOverflow_iff.mpr (not_not.mp fun hno => h ⟨hzero, hno⟩))
  | xfsmMax => exact absurd trivial h
  | xfsmMin => exact absurd trivial h

end Apply

/-! ## Updates -/

/-- **When an update is total**: its operation has a result for the
operands, and the register that it stores to is one that there is. -/
theorem updatesTotally_iff (X : Exec) (act : XfsmAction) :
    UpdatesTotally X act ↔
      act.opcode.Defined X.reg1.toInt X.reg2.toInt ∧ act.output.toNat < numRegisters := by
  unfold UpdatesTotally Exec.update
  by_cases hdefined : act.opcode.Defined X.reg1.toInt X.reg2.toInt
  · rw [apply_eq _ hdefined, Option.bind_some]
    unfold Registers.put Exec.stored
    by_cases houtput : act.output.toNat < numRegisters
    · refine iff_of_true ?_ ⟨hdefined, houtput⟩
      simp only [if_pos houtput, Option.map_some]
      split <;> rfl
    · refine iff_of_false ?_ fun h => houtput h.2
      simp only [if_neg houtput, Option.map_none]
      split <;> exact fun h => by cases h
  · rw [apply_eq_none _ hdefined]
    exact iff_of_false (fun h => by cases h) fun h => hdefined h.1

/-- **A remainder by zero**, in a register that was never written. -/
theorem not_updatesTotally :
    ¬UpdatesTotally ⟨fun _ => 0, fun _ => 0, false, ⟨0, ⟨0, ⟨[], 0, 0⟩⟩⟩, 0, 0, 0, []⟩
      ⟨.xfsmUpdate, .xfsmModulo, .xfsmRegister, 0, .xfsmRegister, 1, .xfsmRegister, 0, 2,
        .xfsmRegister⟩ := by
  intro h
  have hnone : XfsmOpcode.apply 0 0 .xfsmModulo = none :=
    apply_eq_none .xfsmModulo fun hdefined => hdefined.1 rfl
  unfold UpdatesTotally Exec.update at h
  dsimp only at h
  rw [hnone] at h
  cases h

end Sw

end FlowBlaze
