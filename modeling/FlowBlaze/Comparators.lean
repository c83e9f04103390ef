import FlowBlaze.Hw.Conditions
import FlowBlaze.Loader.Parser
import Mathlib.Data.Fin.VecNotation
/-!
# The comparators compute the conditions

A register condition compares a register or the timestamp with a register,
the timestamp or a constant. The loader writes it into one of the four
comparator registers as an opcode and two selectors, and the comparator
decodes these. The two agree on registers; on `<=` the comparator is
strict, and a constant has no selector: as a text it ends the program,
as a number its low byte is decoded as a selector.
-/

namespace FlowBlaze

open Hw Loader

/-! ## Register conditions -/

/-- The six comparisons. -/
inductive Comparison
  | greater
  | greaterEq
  | less
  | lessEq
  | equal
  | notEqual
deriving DecidableEq, Repr

namespace Comparison

/-- Whether it holds between two unsigned numbers. -/
def holds (a b : BitVec 32) : Comparison → Bool
  | greater => decide (b.toNat < a.toNat)
  | greaterEq => decide (b.toNat ≤ a.toNat)
  | less => decide (a.toNat < b.toNat)
  | lessEq => decide (a.toNat ≤ b.toNat)
  | equal => decide (a.toNat = b.toNat)
  | notEqual => decide (a.toNat ≠ b.toNat)

/-- As the file names it. -/
def opcode : Comparison → CondOpcode
  | greater => .xtraGreater
  | greaterEq => .xtraGreaterEq
  | less => .xtraLess
  | lessEq => .xtraLessEq
  | equal => .xtraEqual
  | notEqual => .xtraNotEqual

end Comparison

/-- What a condition can compare. -/
inductive CondSource
  | localRegister (i : Fin 3)
  | globalRegister (i : Fin 4)
  | timestamp
deriving DecidableEq, Repr

namespace CondSource

/-- Its contents, at the comparators. -/
def value (x : CondInputs) : CondSource → BitVec 32
  | localRegister i => x.r i
  | globalRegister i => x.gr i
  | timestamp => x.timer

/-- As the file names it. -/
def operand : CondSource → CondOperand
  | localRegister i => .xtraLocalRegister i
  | globalRegister i => .xtraGlobalRegister i
  | timestamp => .xtraReadOnlyRegister

end CondSource

/-- The second operand of a condition. A constant is a text of the file,
as the compiler writes it, or a number. -/
inductive CondSecond
  | source (s : CondSource)
  | text (c : BitVec 32)
  | number (c : BitVec 32)
deriving DecidableEq, Repr

namespace CondSecond

def value (x : CondInputs) : CondSecond → BitVec 32
  | source s => s.value x
  | text c | number c => c

def operand : CondSecond → CondOperand
  | source s => s.operand
  | text c => .xtraIntegerConst (.str c.toNat)
  | number c => .xtraIntegerConst (.int c.toNat)

/-- **It has a selector**: a register, the timestamp, or the number zero,
whose byte selects nothing and reads as zero. -/
def Selectable : CondSecond → Prop
  | source _ => True
  | text _ => False
  | number c => c = 0

instance : DecidablePred Selectable
  | source _ => inferInstanceAs (Decidable True)
  | text _ => inferInstanceAs (Decidable False)
  | number c => inferInstanceAs (Decidable (c = 0))

end CondSecond

/-- A register condition. -/
structure RegisterCondition where
  op0 : CondSource
  op1 : CondSecond
  comparison : Comparison
deriving DecidableEq, Repr

namespace RegisterCondition

/-- **The condition holds** between the contents of its operands. -/
def holds (c : RegisterCondition) (x : CondInputs) : Bool :=
  c.comparison.holds (c.op0.value x) (c.op1.value x)

/-- In the file. -/
def condition (c : RegisterCondition) : FbCondition :=
  ⟨c.op0.operand, c.op1.operand, c.comparison.opcode⟩

end RegisterCondition

/-! ## Selectors -/

/-- The selector code of a register or the timestamp. -/
def CondSource.code : CondSource → BitVec 8
  | .localRegister i => ![0x0E, 0x0F, 0x1A] i
  | .globalRegister i => ![0x0A, 0x0B, 0x0C, 0x0D] i
  | .timestamp => 0x1F

/-- The byte the second operand is written as. -/
def CondSecond.code : CondSecond → Option (BitVec 8)
  | .source s => some s.code
  | .text _ => none
  | .number c => some (c.setWidth 8)

/-- The loader finds the code. -/
theorem selector_operand (s : CondSource) : s.operand.selector = some (.code s.code.toNat) := by
  rcases s with i | i | _
  · fin_cases i <;> rfl
  · fin_cases i <;> rfl
  · rfl

/-- The comparator finds the register. -/
theorem select_code (s : CondSource) (x : CondInputs) : x.select s.code = s.value x := by
  rcases s with i | i | _
  · fin_cases i <;> rfl
  · fin_cases i <;> rfl
  · rfl

/-- A byte is its own low byte. -/
theorem and_toNat (b : BitVec 8) : b.toNat &&& 0xff = b.toNat := by
  rw [show (0xff : ℕ) = 2 ^ 8 - 1 from rfl, Nat.and_two_pow_sub_one_eq_mod, Nat.mod_eq_of_lt b.isLt]

/-- How the second operand is packed. -/
def CondSecond.packed : CondSecond → PackedOperand
  | .source s => .code s.code.toNat
  | .text c => .const (.str c.toNat)
  | .number c => .const (.int c.toNat)

theorem selector1_operand (o : CondSecond) : o.operand.selector1 = some o.packed := by
  rcases o with s | c | c
  · have h : s.operand.selector1 = s.operand.selector := by cases s <;> rfl
    exact h.trans (selector_operand s)
  · rfl
  · rfl

theorem lowByte_packed (o : CondSecond) : o.packed.lowByte = o.code.map BitVec.toNat := by
  rcases o with s | c | c
  · exact congrArg some (and_toNat s.code)
  · rfl
  · refine congrArg some ?_
    rw [show (0xff : ℕ) = 2 ^ 8 - 1 from rfl, Nat.and_two_pow_sub_one_eq_mod, BitVec.toNat_setWidth]

/-- **A register condition is packed** into its two codes. -/
theorem packCondition_condition (c : RegisterCondition) :
    packCondition c.condition =
      some ⟨false, .code c.op0.code.toNat, c.op1.packed, c.comparison.opcode⟩ := by
  have hexact : c.condition.exactTest = none := by
    rcases c with ⟨_ | _ | _, _, _⟩ <;> rfl
  have hop0 : packCondition c.condition =
      c.op0.operand.selector.bind fun s => c.op1.operand.selector1.map fun s' =>
        ⟨false, s, s', c.comparison.opcode⟩ := by
    rw [packCondition, hexact]
    rcases c with ⟨_ | _ | _, _, _⟩ <;> rfl
  rw [hop0, selector_operand, selector1_operand]
  rfl

/-! ## The word of a comparator -/

/-- The opcode of a comparison. -/
def Comparison.code : Comparison → BitVec 8
  | .greater => 0x0A
  | .greaterEq => 0x0B
  | .less => 0x0C
  | .lessEq => 0x0D
  | .equal => 0x0E
  | .notEqual => 0x0F

theorem code_opcode (k : Comparison) : k.opcode.code = k.code.toNat := by
  cases k <;> rfl

/-- The word written for a condition with a selector in every place. -/
def condWord (opcode op0 op1 : BitVec 8) : BitVec 32 := 0#8 ++ opcode ++ op0 ++ op1

/-- Its bits. -/
theorem getLsbD_condWord (opcode op0 op1 : BitVec 8) (i : ℕ) :
    (condWord opcode op0 op1).getLsbD i =
      if i < 8 then op1.getLsbD i else if i < 16 then op0.getLsbD (i - 8)
        else opcode.getLsbD (i - 16) := by
  rw [condWord, BitVec.getLsbD_append, BitVec.getLsbD_append, BitVec.getLsbD_append]
  refine if_congr Iff.rfl rfl ?_
  by_cases h : i < 16
  · rw [if_pos h, if_pos (by omega)]
  · rw [if_neg h, if_neg (by omega), Nat.sub_sub]
    by_cases h' : i < 24
    · rw [if_pos (by omega)]
    · rw [if_neg (by omega), opcode.getLsbD_of_ge _ (by omega), BitVec.getLsbD_zero]

/-- The number `write_condition` makes is that word. -/
theorem ofNat_condWord (opcode op0 op1 : BitVec 8) :
    BitVec.ofNat 32 ((opcode.toNat <<< 16) ||| (op0.toNat <<< 8) ||| op1.toNat) =
      condWord opcode op0 op1 := by
  apply BitVec.eq_of_getLsbD_eq
  intro i hi
  rw [getLsbD_condWord, BitVec.getLsbD_ofNat, Nat.testBit_or, Nat.testBit_or, Nat.testBit_shiftLeft,
    Nat.testBit_shiftLeft, BitVec.testBit_toNat, BitVec.testBit_toNat, BitVec.testBit_toNat,
    decide_eq_true hi, Bool.true_and]
  -- the byte the bit lies in
  rcases (by omega : i < 8 ∨ (8 ≤ i ∧ i < 16) ∨ 16 ≤ i) with h | h | h
  · rw [if_pos h, decide_eq_false (by omega), decide_eq_false (by omega)]
    simp
  · rw [if_neg (by omega), if_pos (by omega), decide_eq_false (by omega), decide_eq_true (by omega),
      op1.getLsbD_of_ge i (by omega)]
    simp
  · rw [if_neg (by omega), if_neg (by omega), decide_eq_true (by omega),
      op1.getLsbD_of_ge i (by omega), op0.getLsbD_of_ge (i - 8) (by omega)]
    simp

/-- A byte of the word, read back. -/
theorem extractLsb'_condWord {opcode op0 op1 b : BitVec 8} {start : ℕ}
    (h : ∀ i, i < 8 → (condWord opcode op0 op1).getLsbD (start + i) = b.getLsbD i) :
    (condWord opcode op0 op1).extractLsb' start 8 = b := by
  apply BitVec.eq_of_getLsbD_eq
  intro i hi
  rw [BitVec.getLsbD_extractLsb', decide_eq_true hi, Bool.true_and, h i hi]

/-- **A comparator decodes the word** it was given. -/
theorem comparator_condWord (opcode op0 op1 : BitVec 8) (x : CondInputs) :
    comparator (condWord opcode op0 op1) x = comparison opcode (x.select op0) (x.select op1) := by
  have hopcode : (condWord opcode op0 op1).extractLsb' 16 8 = opcode :=
    extractLsb'_condWord fun i hi => by
      rw [getLsbD_condWord, if_neg (by omega), if_neg (by omega), Nat.add_sub_cancel_left]
  have hop0 : (condWord opcode op0 op1).extractLsb' 8 8 = op0 :=
    extractLsb'_condWord fun i hi => by
      rw [getLsbD_condWord, if_neg (by omega), if_pos (by omega), Nat.add_sub_cancel_left]
  have hop1 : (condWord opcode op0 op1).extractLsb' 0 8 = op1 :=
    extractLsb'_condWord fun i hi => by
      rw [getLsbD_condWord, if_pos (by omega), Nat.zero_add]
  rw [comparator, hopcode, hop0, hop1]

/-- The comparison is the one asked for, unless that is `<=`. -/
theorem comparison_code {k : Comparison} (hk : k ≠ .lessEq) (a b : BitVec 32) :
    comparison k.code a b = k.holds a b := by
  cases k with
  | greater | greaterEq | less =>
    simp [comparison, Comparison.code, Comparison.holds, BitVec.ult, BitVec.ule]
  | equal | notEqual =>
    simp [comparison, Comparison.code, Comparison.holds, BitVec.toNat_inj, beq_eq_decide, bne]
  | lessEq => exact absurd rfl hk

/-- `<=` is compared strictly. -/
theorem comparison_lessEq (a b : BitVec 32) :
    comparison Comparison.lessEq.code a b = decide (a.toNat < b.toNat) := by
  have h : decide (b.toNat ≤ a.toNat) = !decide (a.toNat < b.toNat) := by
    rw [← decide_not, decide_eq_decide, not_lt]
  simp [comparison, Comparison.code, BitVec.ule, h]

/-! ## The registers after the program -/

/-- The record a register condition is packed into. -/
def RegisterCondition.record (c : RegisterCondition) : CondRecord :=
  ⟨false, .code c.op0.code.toNat, c.op1.packed, c.comparison.opcode⟩

/-- The word its comparator is given, if it is given one. -/
def RegisterCondition.word (c : RegisterCondition) : Option (BitVec 32) :=
  c.op1.code.map fun b => condWord c.comparison.code c.op0.code b

/-- The address of a comparator register. -/
theorem condReg_getElem? {i : ℕ} (hi : i < 4) : condReg[i]? = some (0x80ffff48 + 4 * i) := by
  rcases (by omega : i = 0 ∨ i = 1 ∨ i = 2 ∨ i = 3) with rfl | rfl | rfl | rfl <;> rfl

/-- A write reaches its register and no other. -/
theorem condWrite_condReg (cr : Fin 4 → BitVec 32) {i : ℕ} (hi : i < 4) (v : BitVec 32) :
    condWrite cr (BitVec.ofNat 32 (0x80ffff48 + 4 * i)) v = Function.update cr ⟨i, hi⟩ v := by
  have haddress : ∀ i k : Fin 4, BitVec.ofNat 32 (0x80ffff48 + 4 * i.val) =
      0x80ffff48 + BitVec.ofNat 32 (4 * k) ↔ k = i := by decide
  funext k
  rw [condWrite, Function.update_apply]
  exact if_congr (haddress ⟨i, hi⟩ k) rfl rfl

/-- A condition is written exactly when it has a word. -/
theorem writeCondition_record (c : RegisterCondition) {i : ℕ} (hi : i < 4) :
    (writeCondition c.record i).map (fun w => (w.1, BitVec.ofNat 32 w.2)) =
      c.word.map fun v => (0x80ffff48 + 4 * i, v) := by
  have hlow : c.record.op0.lowByte = some c.op0.code.toNat := congrArg some (and_toNat _)
  rw [writeCondition, condReg_getElem? hi, Option.bind_some, hlow, Option.bind_some,
    RegisterCondition.word, Option.map_map, Option.map_map]
  have hop1 : c.record.op1.lowByte = c.op1.code.map BitVec.toNat := lowByte_packed c.op1
  rw [hop1, Option.map_map]
  refine Option.map_congr fun b _ => Prod.ext rfl ?_
  have hopcode : c.record.opcode.code = c.comparison.code.toNat := code_opcode c.comparison
  exact (congrArg (fun n => BitVec.ofNat 32 ((n <<< 16) ||| _ ||| _)) hopcode).trans
    (ofNat_condWord _ _ _)

/-- **The registers after the program**: each holds the word of its
condition, and those before the first one written keep what they held. -/
theorem condProgram_writeConditions {cs : List RegisterCondition} {i : ℕ}
    (hlen : i + cs.length ≤ 4) {writes : List (ℕ × ℕ)}
    (h : writeConditions i (cs.map RegisterCondition.record) = some writes)
    (cr : Fin 4 → BitVec 32) :
    (∀ k : Fin 4, k.val < i → condProgram cr writes k = cr k) ∧
      ∀ (j : ℕ) (hj : j < cs.length),
        cs[j].word = some (condProgram cr writes ⟨i + j, by omega⟩) := by
  induction cs generalizing i cr writes with
  | nil =>
    simp only [List.map_nil, writeConditions, Option.some.injEq] at h
    exact ⟨fun k _ => by rw [← h]; rfl, fun j hj => absurd hj (Nat.not_lt_zero j)⟩
  | cons c cs ih =>
    rw [List.length_cons] at hlen
    have hi : i < 4 := by omega
    rw [List.map_cons, writeConditions, if_neg (by simp [RegisterCondition.record]), if_pos hi,
      Option.bind_eq_some_iff] at h
    obtain ⟨w, hw, h⟩ := h
    obtain ⟨rest, hrest, rfl⟩ := Option.map_eq_some_iff.mp h
    -- the first write is the word of `c`, at register `i`
    have hword := writeCondition_record c hi
    rw [hw, Option.map_some, eq_comm, Option.map_eq_some_iff] at hword
    obtain ⟨v, hv, hwv⟩ := hword
    obtain ⟨haddr, hvalue⟩ := Prod.mk.inj hwv
    have hstep : condProgram cr (w :: rest) =
        condProgram (Function.update cr ⟨i, hi⟩ v) rest := by
      rw [← condWrite_condReg, haddr, hvalue]
      rfl
    obtain ⟨hkept, hwords⟩ := ih (by omega) hrest (Function.update cr ⟨i, hi⟩ v)
    refine ⟨fun k hk => ?_, fun j hj => ?_⟩
    · rw [hstep, hkept k (by omega), Function.update_of_ne]
      exact fun h => absurd (congrArg Fin.val h) (by dsimp only; omega)
    · cases j with
      | zero =>
        rw [hstep, hkept ⟨i + 0, by omega⟩ (by dsimp only; omega)]
        exact hv.trans (congrArg some (Function.update_self (⟨i, hi⟩ : Fin 4) v cr).symm)
      | succ j =>
        have hj' : j < cs.length := by simpa using hj
        rw [List.getElem_cons_succ, hwords j hj', hstep]
        exact congrArg (fun k => some (condProgram _ rest k)) (Fin.ext (by dsimp only; omega))

/-- The conditions are written exactly when each has a word. -/
theorem isSome_writeConditions {cs : List RegisterCondition} {i : ℕ} (hlen : i + cs.length ≤ 4) :
    (writeConditions i (cs.map RegisterCondition.record)).isSome ↔
      ∀ c ∈ cs, c.op1.code.isSome := by
  induction cs generalizing i with
  | nil => simp [writeConditions]
  | cons c cs ih =>
    rw [List.length_cons] at hlen
    have hi : i < 4 := by omega
    have hword : (writeCondition c.record i).isSome = c.op1.code.isSome := by
      have h := congrArg Option.isSome (writeCondition_record c hi)
      rwa [Option.isSome_map, Option.isSome_map, RegisterCondition.word, Option.isSome_map] at h
    rw [List.map_cons, writeConditions, if_neg (by simp [RegisterCondition.record]), if_pos hi,
      List.forall_mem_cons, ← hword, ← ih (i := i + 1) (by omega)]
    cases writeCondition c.record i with
    | none => simp
    | some w => simp

/-! ## Which conditions are computed -/

/-- The inputs that all hold the same number. -/
def CondInputs.const (k : BitVec 32) : CondInputs := ⟨fun _ => k, fun _ => k, fun _ => k, k⟩

theorem value_const (s : CondSource) (k : BitVec 32) : s.value (CondInputs.const k) = k := by
  cases s <;> rfl

/-- A selector of such inputs reads the number or zero. -/
theorem select_const (s : BitVec 8) :
    (∀ k, (CondInputs.const k).select s = k) ∨ ∀ k, (CondInputs.const k).select s = 0 := by
  by_cases h : s ∈ ([0x0A, 0x0B, 0x0C, 0x0D, 0x0E, 0x0F, 0x1A, 0x1C, 0x1D, 0x1E, 0x1F] :
      List (BitVec 8))
  · refine .inl fun k => ?_
    simp only [List.mem_cons, List.not_mem_nil, or_false] at h
    rcases h with rfl | rfl | rfl | rfl | rfl | rfl | rfl | rfl | rfl | rfl | rfl <;> rfl
  · refine .inr fun k => ?_
    simp only [List.mem_cons, List.not_mem_nil, or_false, not_or] at h
    obtain ⟨ha, hb, hc, hd, he, hf, hr, ho1, ho2, ho3, ht⟩ := h
    rw [CondInputs.select, if_neg ha, if_neg hb, if_neg hc, if_neg hd, if_neg he, if_neg hf,
      if_neg hr, if_neg ho1, if_neg ho2, if_neg ho3, if_neg ht]

/-- The byte of the number with all bits set selects nothing. -/
theorem select_allOnes (x : CondInputs) : x.select ((0xffffffff : BitVec 32).setWidth 8) = 0 := rfl

/-- **A condition is computed** by its comparator, for all contents. -/
def Computed (c : RegisterCondition) : Prop :=
  ∃ w, c.word = some w ∧ ∀ x, comparator w x = c.holds x

theorem computed_iff_code (c : RegisterCondition) :
    Computed c ↔ ∃ b, c.op1.code = some b ∧
      ∀ x, comparison c.comparison.code (c.op0.value x) (x.select b) = c.holds x := by
  constructor
  · rintro ⟨w, hw, h⟩
    obtain ⟨b, hb, rfl⟩ := Option.map_eq_some_iff.mp hw
    refine ⟨b, hb, fun x => ?_⟩
    rw [← h x, comparator_condWord, select_code]
  · rintro ⟨b, hb, h⟩
    refine ⟨_, Option.map_eq_some_iff.mpr ⟨b, hb, rfl⟩, fun x => ?_⟩
    rw [← h x, comparator_condWord, select_code]

/-- `<=` is never computed: on equal operands it holds, and its comparator
is off. -/
theorem not_computed_lessEq {c : RegisterCondition} (h : c.comparison = .lessEq) :
    ¬ Computed c := by
  rw [computed_iff_code]
  rintro ⟨b, hb, hcomp⟩
  have hx := hcomp (CondInputs.const 0)
  have hzero : (CondInputs.const 0).select b = 0 :=
    (select_const b).elim (fun h => h 0) fun h => h 0
  rw [RegisterCondition.holds, h, comparison_lessEq, value_const, hzero] at hx
  simp [Comparison.holds] at hx

/-- **A number other than zero is never computed**: some contents of the
first operand tell it from what its byte selects. -/
theorem not_computed_number {c : RegisterCondition} {v : BitVec 32} (hop1 : c.op1 = .number v)
    (hv : v ≠ 0) : ¬ Computed c := by
  by_cases hle : c.comparison = .lessEq
  · exact not_computed_lessEq hle
  rw [computed_iff_code]
  rintro ⟨b, hb, hcomp⟩
  have hpos : 0 < v.toNat := Nat.pos_of_ne_zero fun h => hv (BitVec.eq_of_toNat_eq h)
  have hk : ∀ k, c.comparison.holds k ((CondInputs.const k).select b) = c.comparison.holds k v := by
    intro k
    have h := hcomp (CondInputs.const k)
    rwa [RegisterCondition.holds, comparison_code hle, value_const, hop1] at h
  have hb : b = v.setWidth 8 := by
    rw [hop1] at hb
    exact (Option.some.inj hb).symm
  -- at zero, whatever is selected is zero
  have h0 := hk 0
  rw [(select_const b).elim (fun h => h 0) fun h => h 0] at h0
  cases hcmp : c.comparison with
  | lessEq => exact hle hcmp
  | greaterEq | less | equal | notEqual =>
    rw [hcmp] at h0
    simp [Comparison.holds] at h0
    omega
  | greater =>
    rw [hcmp] at hk
    rcases select_const b with hsel | hsel
    · -- the selector reads the register itself: it is not above itself
      have hmax := hk 0xffffffff
      rw [hsel] at hmax
      have hne : v ≠ 0xffffffff := by
        rintro rfl
        have := hsel 1
        rw [hb, select_allOnes] at this
        exact absurd this (by decide)
      have hlt : v.toNat < 0xffffffff := by
        have := v.isLt
        have hne' : v.toNat ≠ 0xffffffff := fun h => hne (BitVec.eq_of_toNat_eq h)
        omega
      simp [Comparison.holds] at hmax
      omega
    · -- the selector reads zero: a positive number is above it
      have hself := hk v
      rw [hsel] at hself
      simp [Comparison.holds] at hself
      omega

/-- **Exactly which conditions are computed.** -/
theorem computed_iff (c : RegisterCondition) :
    Computed c ↔ c.comparison ≠ .lessEq ∧ c.op1.Selectable := by
  constructor
  · intro h
    refine ⟨fun hle => not_computed_lessEq hle h, ?_⟩
    cases hop1 : c.op1 with
    | source s => exact trivial
    | text v =>
      obtain ⟨w, hw, -⟩ := h
      rw [RegisterCondition.word, hop1] at hw
      cases hw
    | number v => exact not_not.mp fun hv => not_computed_number hop1 hv h
  · rintro ⟨hle, hsel⟩
    rw [computed_iff_code]
    cases hop1 : c.op1 with
    | source s =>
      refine ⟨s.code, rfl, fun x => ?_⟩
      rw [comparison_code hle, select_code, RegisterCondition.holds, hop1]
      rfl
    | text v =>
      rw [hop1] at hsel
      exact hsel.elim
    | number v =>
      rw [hop1] at hsel
      obtain rfl : v = 0 := hsel
      refine ⟨0, rfl, fun x => ?_⟩
      rw [comparison_code hle, RegisterCondition.holds, hop1]
      rfl

/-! ## The comparators of a program -/

/-- **The comparators compute the conditions**: the packed conditions are
written, and then bit `i` says whether condition `i` holds, for all
contents of the registers and the timer. -/
def ComparatorsCompute (cs : List RegisterCondition) (packed : List CondRecord)
    (cr : Fin 4 → BitVec 32) : Prop :=
  ∃ writes, writeConditions 0 packed = some writes ∧
    ∀ (x : CondInputs) (i : ℕ) (hi : i < cs.length),
      (conditions (condProgram cr writes) x).getLsbD i = cs[i].holds x

theorem comparatorsCompute_record {cs : List RegisterCondition} (hlen : cs.length ≤ 4)
    (cr : Fin 4 → BitVec 32) :
    ComparatorsCompute cs (cs.map RegisterCondition.record) cr ↔ ∀ c ∈ cs, Computed c := by
  constructor
  · rintro ⟨writes, hwrites, h⟩ c hc
    obtain ⟨i, hi, rfl⟩ := List.mem_iff_getElem.mp hc
    obtain ⟨-, hwords⟩ := condProgram_writeConditions (by omega) hwrites cr
    refine ⟨_, hwords i hi, fun x => ?_⟩
    rw [← h x i hi, ← getLsbD_conditions]
    exact congrArg (fun k => (conditions _ x).getLsbD k) (Nat.zero_add i)
  · intro h
    have hsome : (writeConditions 0 (cs.map RegisterCondition.record)).isSome := by
      refine (isSome_writeConditions (by omega)).mpr fun c hc => ?_
      obtain ⟨w, hw, -⟩ := h c hc
      obtain ⟨b, hb, -⟩ := Option.map_eq_some_iff.mp hw
      rw [hb, Option.isSome_some]
    obtain ⟨writes, hwrites⟩ := Option.isSome_iff_exists.mp hsome
    refine ⟨writes, hwrites, fun x i hi => ?_⟩
    obtain ⟨-, hwords⟩ := condProgram_writeConditions (by omega) hwrites cr
    obtain ⟨w, hw, hcomp⟩ := h cs[i] (List.getElem_mem hi)
    obtain rfl := Option.some.inj (hw.symm.trans (hwords i hi))
    rw [← hcomp x, ← getLsbD_conditions]
    exact congrArg (fun k => (conditions _ x).getLsbD k) (Nat.zero_add i).symm

/-- The records of register conditions, as they come out of the parser. -/
theorem records_of_packConditions {cs : List RegisterCondition} {label : ℕ} {stages : List Stage}
    {parsed : Parsed} {packed : List CondRecord}
    (h : packConditions (⟨label, cs.map RegisterCondition.condition⟩ :: stages) = some parsed)
    (hpacked : parsed.conditions[0]? = some packed) :
    packed = cs.map RegisterCondition.record := by
  obtain ⟨rs, hfs, hfirst, hrs, -⟩ := conditions_first h
  obtain rfl := Option.some.inj (hpacked.symm.trans hrs)
  have hmap := mapM_packCondition hfirst
  rw [List.map_map] at hmap
  refine (List.map_injective_iff.mpr (Option.some_injective CondRecord)) ?_
  rw [← hmap, List.map_map]
  exact List.map_congr_left fun c _ => packCondition_condition c

/-- **The comparators compute the conditions of the first stage exactly
when none is a `<=` and none has a constant other than the number zero.** -/
theorem comparatorsCompute_iff {cs : List RegisterCondition} (hlen : cs.length ≤ 4) {label : ℕ}
    {stages : List Stage} {parsed : Parsed} {packed : List CondRecord}
    (h : packConditions (⟨label, cs.map RegisterCondition.condition⟩ :: stages) = some parsed)
    (hpacked : parsed.conditions[0]? = some packed) (cr : Fin 4 → BitVec 32) :
    ComparatorsCompute cs packed cr ↔
      ∀ c ∈ cs, c.comparison ≠ .lessEq ∧ c.op1.Selectable := by
  obtain rfl := records_of_packConditions h hpacked
  rw [comparatorsCompute_record hlen]
  exact forall₂_congr fun c _ => computed_iff c

/-- Two registers and the timestamp, with the number zero. -/
theorem comparatorsCompute_registers :
    ComparatorsCompute
      [⟨.localRegister 0, .source (.globalRegister 1), .greater⟩,
        ⟨.timestamp, .number 0, .notEqual⟩]
      [⟨false, .code 0x0e, .code 0x0b, .xtraGreater⟩,
        ⟨false, .code 0x1f, .const (.int 0), .xtraNotEqual⟩] (fun _ => 0) :=
  (@comparatorsCompute_iff _ (by decide) 0 [] _ _ rfl rfl _).mpr (by decide)

/-- **A `<=` and a constant of the compiler are not computed**: equal
registers leave the comparator off, and the text of a constant has no low
byte. -/
theorem not_comparatorsCompute :
    (packConditions [⟨0, [⟨.xtraLocalRegister 0, .xtraLocalRegister 1, .xtraLessEq⟩]⟩] =
        some ⟨[[⟨false, .code 0x0e, .code 0x0f, .xtraLessEq⟩]], [[]]⟩ ∧
      ¬ ComparatorsCompute [⟨.localRegister 0, .source (.localRegister 1), .lessEq⟩]
        [⟨false, .code 0x0e, .code 0x0f, .xtraLessEq⟩] (fun _ => 0)) ∧
    (packConditions [⟨0, [⟨.xtraLocalRegister 0, .xtraIntegerConst (.str 5), .xtraGreater⟩]⟩] =
        some ⟨[[⟨false, .code 0x0e, .const (.str 5), .xtraGreater⟩]], [[]]⟩ ∧
      ¬ ComparatorsCompute [⟨.localRegister 0, .text 5, .greater⟩]
        [⟨false, .code 0x0e, .const (.str 5), .xtraGreater⟩] (fun _ => 0)) := by
  refine ⟨⟨rfl, fun h => ?_⟩, rfl, fun h => ?_⟩
  · have hcomp := (comparatorsCompute_record (by decide) _).mp h _ List.mem_cons_self
    exact not_computed_lessEq rfl hcomp
  · have hcomp := (comparatorsCompute_record (by decide) _).mp h _ List.mem_cons_self
    exact ((computed_iff _).mp hcomp).2

end FlowBlaze
