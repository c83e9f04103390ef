import FlowBlaze.Comparators
import FlowBlaze.Hw.TcamFields
/-!
# What a programmed entry matches

A row of the first stage asks for a state, for results of register
comparisons and for results of tests of header fields. The loader writes
one entry for it. The state and the comparisons come out right. A header
field has one value in the entry, the union of the constants of all its
tests in the row, and the entry asks the field to have that value,
whether the row wants a test to succeed or to fail. This file says exactly
for which rows that is what the row asks.
-/

namespace FlowBlaze

open Hw Loader

/-! ## Tests of header fields -/

/-- The lengths of a field that can be tested. -/
inductive FieldLength
  | one
  | two
  | four
deriving DecidableEq, Repr

/-- A test of a header field: a field of the packet against a constant, or
the input port against one of the ports 1 to 4. -/
inductive FieldTest
  | packet (name : String) (start : ℕ) (length : FieldLength) (constant : PyValue)
  | inputPort (port : Fin 4)
deriving DecidableEq, Repr

namespace FieldLength

def bytes : FieldLength → ℕ
  | one => 1
  | two => 2
  | four => 4

/-- The number in the first bytes of a word, the first byte the most
significant. -/
def number (o : BitVec 32) : FieldLength → ℕ
  | one => (o.extractLsb' 0 8).toNat
  | two => (o.extractLsb' 0 8 ++ o.extractLsb' 8 8).toNat
  | four => (o.extractLsb' 0 8 ++ o.extractLsb' 8 8 ++ o.extractLsb' 16 8 ++
      o.extractLsb' 24 8).toNat

/-- The mask of the loader. -/
def mask : FieldLength → ℕ
  | one => 0xffffff00
  | two => 0xffff0000
  | four => 0x0

/-- Where a bit of the number lies in the word. -/
def swap (l : FieldLength) (i : ℕ) : ℕ := 8 * (l.bytes - 1 - i / 8) + i % 8

variable {l : FieldLength} {i : ℕ}

theorem bytes_le (l : FieldLength) : 1 ≤ l.bytes ∧ l.bytes ≤ 4 := by
  cases l <;> simp [bytes]

theorem swap_lt (hi : i < 8 * l.bytes) : l.swap i < 8 * l.bytes := by
  unfold swap
  omega

theorem swap_swap (hi : i < 8 * l.bytes) : l.swap (l.swap i) = i := by
  unfold swap
  omega

/-- The mask leaves the bits of the field. -/
theorem testBit_mask (l : FieldLength) (hi : i < 32) :
    l.mask.testBit i = decide (8 * l.bytes ≤ i) := by
  revert i
  cases l <;> decide

/-- The number fits its bytes. -/
theorem number_lt (l : FieldLength) (o : BitVec 32) : l.number o < 2 ^ (8 * l.bytes) := by
  cases l with
  | one => exact BitVec.isLt _
  | two => exact BitVec.isLt _
  | four => exact BitVec.isLt _

/-- Its bits, byte by byte. -/
theorem testBit_number (o : BitVec 32) (hi : i < 8 * l.bytes) :
    (l.number o).testBit i = o.getLsbD (l.swap i) := by
  have hbyte : ∀ k j, j < 8 → (o.extractLsb' k 8).getLsbD j = o.getLsbD (k + j) := fun k j hj => by
    rw [BitVec.getLsbD_extractLsb', decide_eq_true hj, Bool.true_and]
  cases l with
  | one =>
    rw [bytes] at hi
    rw [number, BitVec.testBit_toNat, hbyte 0 i hi]
    exact congrArg _ (by simp only [swap, bytes]; omega)
  | two =>
    rw [bytes] at hi
    rw [number, BitVec.testBit_toNat, BitVec.getLsbD_append]
    split
    · rw [hbyte 8 i ‹_›]
      exact congrArg _ (by simp only [swap, bytes]; omega)
    · rw [hbyte 0 (i - 8) (by omega)]
      exact congrArg _ (by simp only [swap, bytes]; omega)
  | four =>
    rw [bytes] at hi
    rw [number, BitVec.testBit_toNat, BitVec.getLsbD_append, BitVec.getLsbD_append,
      BitVec.getLsbD_append]
    split
    · rw [hbyte 24 i ‹_›]
      exact congrArg _ (by simp only [swap, bytes]; omega)
    split
    · rw [hbyte 16 (i - 8) ‹_›]
      exact congrArg _ (by simp only [swap, bytes]; omega)
    split
    · rw [hbyte 8 (i - 8 - 8) ‹_›]
      exact congrArg _ (by simp only [swap, bytes]; omega)
    · rw [hbyte 0 (i - 8 - 8 - 8) (by omega)]
      exact congrArg _ (by simp only [swap, bytes]; omega)

/-- One byte of a number, moved up. -/
theorem testBit_byte_left (c k s i : ℕ) :
    ((c &&& (0xff <<< (8 * k))) <<< (8 * s)).testBit i =
      (decide (i / 8 = k + s) && c.testBit (i - 8 * s)) := by
  rw [Nat.testBit_shiftLeft, Nat.testBit_and, Nat.testBit_shiftLeft,
    show (0xff : ℕ) = 2 ^ 8 - 1 from rfl, Nat.testBit_two_pow_sub_one, Bool.eq_iff_iff]
  simp only [Bool.and_eq_true, decide_eq_true_iff]
  exact ⟨fun h => ⟨by omega, h.2.1⟩, fun h => ⟨by omega, h.2, by omega, by omega⟩⟩

/-- One byte of a number, moved down. -/
theorem testBit_byte_right (c k s i : ℕ) :
    ((c &&& (0xff <<< (8 * k))) >>> (8 * s)).testBit i =
      (decide (i / 8 + s = k) && c.testBit (8 * s + i)) := by
  rw [Nat.testBit_shiftRight, Nat.testBit_and, Nat.testBit_shiftLeft,
    show (0xff : ℕ) = 2 ^ 8 - 1 from rfl, Nat.testBit_two_pow_sub_one, Bool.eq_iff_iff]
  simp only [Bool.and_eq_true, decide_eq_true_iff]
  exact ⟨fun h => ⟨by omega, h.1⟩, fun h => ⟨h.2, by omega, by omega⟩⟩

/-- `hton` swaps the bytes of the constant. -/
theorem testBit_hton (c : ℕ) (hi : i < 8 * l.bytes) :
    (hton c l.mask).testBit i = c.testBit (l.swap i) := by
  cases l with
  | one =>
    rw [bytes] at hi
    rw [hton, mask, if_pos rfl]
    exact congrArg _ (by simp only [swap, bytes]; omega)
  | two =>
    rw [bytes] at hi
    have h : hton c two.mask = ((c &&& (0xff <<< (8 * 0))) <<< (8 * 1)) |||
        ((c &&& (0xff <<< (8 * 1))) >>> (8 * 1)) := rfl
    rw [h, Nat.testBit_or, testBit_byte_left, testBit_byte_right]
    rcases (by omega : i / 8 = 0 ∨ i / 8 = 1) with hq | hq <;>
      simp only [hq, swap, bytes] <;> simp <;> exact congrArg _ (by omega)
  | four =>
    rw [bytes] at hi
    have h : hton c four.mask = ((c &&& (0xff <<< (8 * 0))) <<< (8 * 3)) |||
        ((c &&& (0xff <<< (8 * 1))) <<< (8 * 1)) |||
        ((c &&& (0xff <<< (8 * 2))) >>> (8 * 1)) |||
        ((c &&& (0xff <<< (8 * 3))) >>> (8 * 3)) := rfl
    rw [h, Nat.testBit_or, Nat.testBit_or, Nat.testBit_or, testBit_byte_left, testBit_byte_left,
      testBit_byte_right, testBit_byte_right]
    rcases (by omega : i / 8 = 0 ∨ i / 8 = 1 ∨ i / 8 = 2 ∨ i / 8 = 3) with hq | hq | hq | hq <;>
      simp only [hq, swap, bytes] <;> simp <;> exact congrArg _ (by omega)

/-- **A field has a number** when its bits are those of the swapped
constant, and the constant fits. -/
theorem number_eq_iff (o : BitVec 32) (c : ℕ) :
    l.number o = c ↔ c < 2 ^ (8 * l.bytes) ∧
      ∀ i, i < 8 * l.bytes → o.getLsbD i = (hton c l.mask).testBit i := by
  constructor
  · rintro rfl
    refine ⟨l.number_lt o, fun i hi => ?_⟩
    rw [testBit_hton _ hi, testBit_number _ (swap_lt hi), swap_swap hi]
  · rintro ⟨hlt, hbits⟩
    refine Nat.eq_of_testBit_eq fun i => ?_
    by_cases hi : i < 8 * l.bytes
    · rw [testBit_number _ hi, hbits _ (swap_lt hi), testBit_hton _ (swap_lt hi), swap_swap hi]
    · have hpow : 2 ^ (8 * l.bytes) ≤ 2 ^ i := Nat.pow_le_pow_right Nat.two_pos (not_lt.mp hi)
      rw [Nat.testBit_lt_two_pow (lt_of_lt_of_le (l.number_lt o) hpow),
        Nat.testBit_lt_two_pow (lt_of_lt_of_le hlt hpow)]

end FieldLength

namespace FieldTest

/-- In the file. -/
def condition : FieldTest → FbCondition
  | packet name start length constant =>
    ⟨.xtraPktField name start length.bytes, .xtraIntegerConst constant, .xtraEqual⟩
  | inputPort port =>
    ⟨.xtraEventField "XTRA_PKT_RCVD_PORT", .xtraIntegerConst (.str (port + 1)), .xtraEqual⟩

/-- Its header field. -/
def field : FieldTest → HeaderField
  | packet _ start length _ => .pktField start length.bytes
  | inputPort _ => .eventField "XTRA_PKT_RCVD_PORT"

def length : FieldTest → FieldLength
  | packet _ _ length _ => length
  | inputPort _ => .one

/-- The constant, as a number. -/
def constant : FieldTest → ℕ
  | packet _ _ _ constant => constant.toInt
  | inputPort port => port + 1

/-- The byte the board has for an input port. -/
def portByte (port : Fin 4) : BitVec 8 := ![0x01, 0x04, 0x10, 0x40] port

/-- **The test succeeds** on the contents of its field. -/
def holds (o : BitVec 32) : FieldTest → Bool
  | packet _ _ length constant => length.number o == constant.toInt
  | inputPort port => o.extractLsb' 0 8 == portByte port

/-- The number put at the field's position. -/
def wire : FieldTest → ℕ
  | packet _ _ length constant => hton constant.toInt length.mask
  | inputPort port => (portByte port).toNat

/-- The constant is one the field can have. -/
def Fits : FieldTest → Prop
  | packet _ _ length constant => constant.toInt < 2 ^ (8 * length.bytes)
  | inputPort _ => True

variable (t : FieldTest)

/-- **A test succeeds** when its constant fits and the bits are those put
at its position. -/
theorem holds_iff (o : BitVec 32) :
    t.holds o = true ↔
      t.Fits ∧ ∀ i, i < 8 * t.length.bytes → o.getLsbD i = t.wire.testBit i := by
  cases t with
  | packet name start length constant => exact beq_iff_eq.trans (length.number_eq_iff o _)
  | inputPort port =>
    rw [holds, beq_iff_eq, wire, and_iff_right (show (inputPort port).Fits from trivial)]
    constructor
    · intro h i hi
      have hbyte : i < 8 := hi
      rw [← h, BitVec.testBit_toNat, BitVec.getLsbD_extractLsb', decide_eq_true hbyte,
        Bool.true_and, Nat.zero_add]
    · intro h
      refine BitVec.eq_of_getLsbD_eq fun i hi => ?_
      rw [BitVec.getLsbD_extractLsb', decide_eq_true hi, Bool.true_and, Nat.zero_add, h i hi,
        BitVec.testBit_toNat]

theorem exactTest_condition :
    t.condition.exactTest = some (t.field, match t with
      | packet _ _ _ constant => constant
      | inputPort port => .str (port + 1)) := by
  cases t <;> rfl

/-- How it is packed, for the entries. -/
theorem tcam2_condition :
    (packCondition t.condition).bind CondRecord.tcam2 =
      some (.exactMatch t.field t.constant) := by
  cases t <;> rfl

/-- The mask of its field. -/
theorem maskFromField_field : maskFromField t.field = some t.length.mask := by
  rcases t with ⟨_, _, _ | _ | _, _⟩ | _ <;> rfl

/-- **What a test puts** at its field's position. -/
theorem put_exactMatch (hfs : List HeaderField) :
    (PackedCondition.exactMatch t.field t.constant).put hfs =
      some ⟨findHfPosition hfs t.field, t.wire, t.length.mask⟩ := by
  rw [PackedCondition.put, t.maskFromField_field, Option.bind_some]
  cases t with
  | packet name start length constant => rfl
  | inputPort port => fin_cases port <;> rfl

/-- Tests of one field have one length. -/
theorem length_of_field {t t' : FieldTest} (h : t.field = t'.field) : t.length = t'.length := by
  cases t with
  | packet name start length constant =>
    cases t' with
    | packet name' start' length' constant' =>
      have hbytes : length.bytes = length'.bytes := (HeaderField.pktField.inj h).2
      cases length <;> cases length' <;> first | rfl | cases hbytes
    | inputPort port => cases h
  | inputPort port =>
    cases t' with
    | packet name' start' length' constant' => cases h
    | inputPort port' => rfl

end FieldTest

/-! ## Rows -/

/-- A condition of the first stage. -/
inductive RowTest
  | comparison (c : RegisterCondition)
  | field (t : FieldTest)

namespace RowTest

/-- In the file. -/
def condition : RowTest → FbCondition
  | comparison c => c.condition
  | field t => t.condition

/-- As the entries read it. -/
def packed : RowTest → PackedCondition
  | comparison _ => .register
  | field t => .exactMatch t.field t.constant

def isComparison : RowTest → Bool
  | comparison _ => true
  | field _ => false

end RowTest

/-- The number of register comparisons, which is the number of
comparators they take. -/
def numComparisons (ts : List RowTest) : ℕ := ts.countP RowTest.isComparison

/-- The position of a field among the header fields. -/
def fieldIndex (fields : List HeaderField) (f : HeaderField) : Fin 3 :=
  Fin.ofNat 3 (fields.idxOf f)

/-- **Whether a condition holds**: a comparison has the bit of its
comparator, a test of a field succeeds on the field's contents. -/
def truth (fields : List HeaderField) (ts : List RowTest) (o : Fin 3 → BitVec 32)
    (conditions : BitVec 16) (i : ℕ) : Bool :=
  match ts[i]? with
  | some (.comparison _) => conditions.getLsbD (numComparisons (ts.take i))
  | some (.field t) => t.holds (o (fieldIndex fields t.field))
  | none => false

/-- What a row asks of a condition. -/
def Loader.CondResult.allows : CondResult → Bool → Prop
  | .xtraTrue, b => b = true
  | .xtraFalse, b => b = false
  | .other _, _ => True

/-- A row in the file: its state, and results for conditions. -/
structure FieldRow where
  state : ℕ
  conditionResults : List (ℕ × CondResult)

namespace FieldRow

variable (row : FieldRow)

/-- **The row applies**: the state is the row's, or the row's is 255, and
every condition has the truth value the row asks for. -/
def Applies (fields : List HeaderField) (ts : List RowTest) (o : Fin 3 → BitVec 32)
    (conditions : BitVec 16) (s : BitVec 8) : Prop :=
  (row.state = 255 ∨ row.state = s.toNat) ∧
    ∀ c ∈ row.conditionResults, c.2.allows (truth fields ts o conditions c.1)

/-- No condition is asked for twice, once true and once false. -/
def Consistent : Prop :=
  ∀ i, (i, CondResult.xtraTrue) ∈ row.conditionResults →
    (i, CondResult.xtraFalse) ∉ row.conditionResults

/-- The tests of fields the row asks for, each with the result it asks
for. -/
def fieldTests (ts : List RowTest) : List (FieldTest × Bool) :=
  row.conditionResults.filterMap fun c =>
    match ts[c.1]?, c.2 with
    | some (.field t), .xtraTrue => some (t, true)
    | some (.field t), .xtraFalse => some (t, false)
    | _, _ => none

end FieldRow

/-- The bits a test adds to the value at a position: its own, and what
spills over from the position before. -/
def FieldTest.addsTo (fields : List HeaderField) (p : Fin 3) (t : FieldTest) : BitVec 32 :=
  if fieldIndex fields t.field = p then BitVec.ofNat 32 t.wire
  else if (fieldIndex fields t.field).val + 1 = p then BitVec.ofNat 32 (t.wire % 2 ^ 40 / 2 ^ 32)
  else 0

/-- **The value of a field in the entry**: the union of what all tests
add to it. -/
def fieldValue (fields : List HeaderField) (tests : List (FieldTest × Bool)) (p : Fin 3) :
    BitVec 32 :=
  (tests.map fun x => x.1.addsTo fields p).foldr (· ||| ·) 0

/-- **The tests of every field come down to one value**, the one the entry
has for it: on that value every test of the field has the result the row
asks for, and on no other have they all. -/
def Determined (fields : List HeaderField) (tests : List (FieldTest × Bool)) : Prop :=
  ∀ x ∈ tests,
    x.1.holds (fieldValue fields tests (fieldIndex fields x.1.field)) = x.2 ∧
    ((∃ y ∈ tests, y.1.field = x.1.field ∧ y.2 = true) ∨
      ∀ o : BitVec 32, (∃ i, i < 8 * x.1.length.bytes ∧ o.getLsbD i ≠
          (fieldValue fields tests (fieldIndex fields x.1.field)).getLsbD i) →
        ∃ y ∈ tests, y.1.field = x.1.field ∧ y.2 = false ∧ y.1.holds o = true)

/-! ## The value of a field -/

section Fields

variable {fields : List HeaderField} (hthree : fields.length ≤ 3)
variable {tests : List (FieldTest × Bool)} (hmem : ∀ x ∈ tests, x.1.field ∈ fields)

/-- The place of what a test puts into the words. -/
def FieldTest.toPut (fields : List HeaderField) (t : FieldTest) : Put :=
  ⟨findHfPosition fields t.field, t.wire, t.length.mask⟩

include hthree in
theorem findHfPosition_eq {f : HeaderField} (hf : f ∈ fields) :
    findHfPosition fields f = fieldIndex fields f := by
  have hlt : fields.idxOf f < 3 := lt_of_lt_of_le (List.idxOf_lt_length_iff.mpr hf) hthree
  rw [findHfPosition, if_pos hf, fieldIndex, Fin.val_ofNat, Nat.mod_eq_of_lt hlt]

include hthree in
/-- Fields at one position are one field. -/
theorem fieldIndex_inj {f f' : HeaderField} (hf : f ∈ fields) (hf' : f' ∈ fields)
    (h : fieldIndex fields f = fieldIndex fields f') : f = f' := by
  have hidx : fields.idxOf f = fields.idxOf f' := by
    have := congrArg Fin.val h
    rwa [← findHfPosition_eq hthree hf, ← findHfPosition_eq hthree hf', findHfPosition, if_pos hf,
      findHfPosition, if_pos hf'] at this
  exact (List.idxOf_inj hf).mp hidx

include hthree in
/-- What a test sets at a position. -/
theorem sets_toPut {t : FieldTest} (ht : t.field ∈ fields) (p : Fin 3) {i : ℕ} (hi : i < 32) :
    (t.toPut fields).Sets (fieldBit p + i) ↔ (t.addsTo fields p).getLsbD i = true := by
  have hpos : (t.toPut fields).pos = fieldIndex fields t.field := findHfPosition_eq hthree ht
  rw [Put.Sets, hpos, FieldTest.addsTo, show (t.toPut fields).value = t.wire from rfl]
  simp only [fieldBit]
  by_cases hp : fieldIndex fields t.field = p
  · rw [if_pos hp, BitVec.getLsbD_ofNat, decide_eq_true hi, Bool.true_and, hp]
    constructor
    · rintro ⟨j, -, hj, hbit⟩
      rwa [show i = j by omega]
    · exact fun hbit => ⟨i, by omega, rfl, hbit⟩
  rw [if_neg hp]
  have hne : (fieldIndex fields t.field).val ≠ p := Fin.val_ne_of_ne hp
  by_cases hnext : (fieldIndex fields t.field).val + 1 = p
  · rw [if_pos hnext, BitVec.getLsbD_ofNat, decide_eq_true hi, Bool.true_and,
      Nat.testBit_div_two_pow,
      Nat.testBit_mod_two_pow, Bool.and_eq_true, decide_eq_true_iff]
    constructor
    · rintro ⟨j, hj40, hj, hbit⟩
      rw [show j = i + 32 by omega] at hbit hj40
      exact ⟨hj40, hbit⟩
    · exact fun h => ⟨i + 32, h.1, by omega, h.2⟩
  · have hzero : (0 : BitVec 32).getLsbD i = false := BitVec.getLsbD_zero
    rw [if_neg hnext, hzero]
    refine iff_of_false ?_ Bool.false_ne_true
    rintro ⟨j, hj40, hj, -⟩
    omega

include hthree in
/-- What a test makes significant at a position: the bits of its field. -/
theorem cares_toPut {t : FieldTest} (ht : t.field ∈ fields) (p : Fin 3) {i : ℕ} (hi : i < 32) :
    (t.toPut fields).Cares (fieldBit p + i) ↔
      fieldIndex fields t.field = p ∧ i < 8 * t.length.bytes := by
  have hpos : (t.toPut fields).pos = fieldIndex fields t.field := findHfPosition_eq hthree ht
  rw [Put.Cares, hpos, show (t.toPut fields).mask = t.length.mask from rfl]
  simp only [fieldBit]
  constructor
  · rintro ⟨j, hj32, hj, hbit⟩
    obtain rfl : i = j := by omega
    rw [FieldLength.testBit_mask _ hi, decide_eq_false_iff_not] at hbit
    exact ⟨Fin.ext (by omega), by omega⟩
  · rintro ⟨rfl, hlt⟩
    refine ⟨i, hi, rfl, ?_⟩
    rw [FieldLength.testBit_mask _ hi]
    exact decide_eq_false (by omega)

/-- The bits of a field's value. -/
theorem getLsbD_fieldValue (fields : List HeaderField) (tests : List (FieldTest × Bool))
    (p : Fin 3) (i : ℕ) :
    (fieldValue fields tests p).getLsbD i = true ↔
      ∃ x ∈ tests, (x.1.addsTo fields p).getLsbD i = true := by
  induction tests with
  | nil => simp [fieldValue]
  | cons x tests ih =>
    have hcons : fieldValue fields (x :: tests) p =
        x.1.addsTo fields p ||| fieldValue fields tests p := rfl
    rw [hcons, BitVec.getLsbD_or, Bool.or_eq_true, ih]
    simp

/-- The contents agree with the entry on every tested field. -/
def Agrees (fields : List HeaderField) (tests : List (FieldTest × Bool))
    (o : Fin 3 → BitVec 32) : Prop :=
  ∀ x ∈ tests, ∀ i, i < 8 * x.1.length.bytes →
    (o (fieldIndex fields x.1.field)).getLsbD i =
      (fieldValue fields tests (fieldIndex fields x.1.field)).getLsbD i

/-- The tests all have the result the row asks for. -/
def AllHold (fields : List HeaderField) (tests : List (FieldTest × Bool))
    (o : Fin 3 → BitVec 32) : Prop :=
  ∀ x ∈ tests, x.1.holds (o (fieldIndex fields x.1.field)) = x.2

include hthree hmem in
/-- **The significant bits of the fields** are those of the tested fields,
and their values the fields' values. -/
theorem agrees_iff (o : Fin 3 → BitVec 32) :
    (∀ (p : Fin 3) (i : ℕ), i < 32 →
      (∃ q ∈ tests.map fun x => x.1.toPut fields, q.Cares (fieldBit p + i)) →
      ((o p).getLsbD i = true ↔
        ∃ q ∈ tests.map fun x => x.1.toPut fields, q.Sets (fieldBit p + i))) ↔
      Agrees fields tests o := by
  have hsets : ∀ (p : Fin 3) (i : ℕ), i < 32 →
      ((∃ q ∈ tests.map fun x => x.1.toPut fields, q.Sets (fieldBit p + i)) ↔
        (fieldValue fields tests p).getLsbD i = true) := by
    intro p i hi
    rw [getLsbD_fieldValue]
    constructor
    · rintro ⟨q, hq, hs⟩
      obtain ⟨x, hx, rfl⟩ := List.mem_map.mp hq
      exact ⟨x, hx, (sets_toPut hthree (hmem x hx) p hi).mp hs⟩
    · rintro ⟨x, hx, hs⟩
      exact ⟨_, List.mem_map_of_mem hx, (sets_toPut hthree (hmem x hx) p hi).mpr hs⟩
  constructor
  · intro h x hx i hi
    have hi32 : i < 32 := by
      have := x.1.length.bytes_le
      omega
    rw [Bool.eq_iff_iff, ← hsets _ i hi32]
    refine h _ i hi32 ⟨_, List.mem_map_of_mem hx, ?_⟩
    exact (cares_toPut hthree (hmem x hx) _ hi32).mpr ⟨rfl, hi⟩
  · rintro h p i hi ⟨q, hq, hc⟩
    obtain ⟨x, hx, rfl⟩ := List.mem_map.mp hq
    obtain ⟨rfl, hlt⟩ := (cares_toPut hthree (hmem x hx) p hi).mp hc
    rw [hsets _ i hi, h x hx i hlt]

/-- What a test says depends on the bits of its field. -/
theorem FieldTest.holds_congr (t : FieldTest) {o o' : BitVec 32}
    (h : ∀ i, i < 8 * t.length.bytes → o.getLsbD i = o'.getLsbD i) : t.holds o = t.holds o' := by
  rw [Bool.eq_iff_iff, t.holds_iff, t.holds_iff]
  exact and_congr_right fun _ => forall₂_congr fun i hi => by rw [h i hi]

include hthree hmem in
/-- **The entry and the row agree on all contents exactly when the tests
come down to the entry's values.** -/
theorem determined_iff :
    Determined fields tests ↔ ∀ o, Agrees fields tests o ↔ AllHold fields tests o := by
  constructor
  · intro h o
    constructor
    · intro hagree x hx
      rw [← (h x hx).1]
      exact x.1.holds_congr (hagree x hx)
    · intro hall x hx i hi
      by_contra hne
      obtain ⟨y, hy, hfield, htrue⟩ | hother := (h x hx).2
      · -- a test that has to succeed pins every bit of the field
        have hlen : y.1.length = x.1.length := FieldTest.length_of_field hfield
        have ho := hall y hy
        have hv := (h y hy).1
        rw [hfield, htrue, y.1.holds_iff] at ho hv
        exact hne ((ho.2 i (by rwa [hlen])).trans (hv.2 i (by rwa [hlen])).symm)
      · obtain ⟨y, hy, hfield, hfalse, hholds⟩ := hother _ ⟨i, hi, hne⟩
        have ho := hall y hy
        rw [hfield, hfalse, hholds] at ho
        cases ho
  · intro h x hx
    have hall := (h fun p => fieldValue fields tests p).mp fun x _ i _ => rfl
    refine ⟨hall x hx, or_iff_not_imp_left.mpr fun hnone o hdiff => ?_⟩
    -- change the contents of this field only
    obtain ⟨i, hi, hne⟩ := hdiff
    set p := fieldIndex fields x.1.field with hp
    have hnot : ¬ AllHold fields tests
        (Function.update (fun p => fieldValue fields tests p) p o) := by
      intro hall'
      have := (h _).mpr hall' x hx i hi
      rw [← hp, Function.update_self] at this
      exact hne this
    rw [AllHold] at hnot
    push Not at hnot
    obtain ⟨y, hy, hydiff⟩ := hnot
    by_cases hfield : y.1.field = x.1.field
    · rw [hfield, ← hp, Function.update_self] at hydiff
      have hfalse : y.2 = false := Bool.eq_false_iff.mpr fun ht => hnone ⟨y, hy, hfield, ht⟩
      refine ⟨y, hy, hfield, hfalse, ?_⟩
      rw [hfalse] at hydiff
      exact Bool.not_eq_false _ ▸ hydiff
    · have hpos : fieldIndex fields y.1.field ≠ p := fun he =>
        hfield (fieldIndex_inj hthree (hmem y hy) (hmem x hx) he)
      rw [Function.update_of_ne hpos] at hydiff
      exact absurd (hall y hy) hydiff

end Fields

/-! ## The results the entry is made from -/

/-- The results of the comparisons, as comparisons of the row. -/
theorem registerResults_allows {rs : List FbResult} {ts : List RowTest}
    (hlen : rs.length = ts.length) (v : ℕ → Bool) :
    (∀ (i : ℕ) (r : FbResult),
        (registerResults (rs.zip (ts.map RowTest.packed)))[i]? = some r → r.allows (v i)) ↔
      ∀ (k : ℕ) (r : FbResult) (c : RegisterCondition), rs[k]? = some r →
        ts[k]? = some (.comparison c) → r.allows (v (numComparisons (ts.take k))) := by
  induction ts generalizing rs v with
  | nil =>
    obtain rfl := List.length_eq_zero_iff.mp hlen
    simp [registerResults]
  | cons t ts ih =>
    obtain ⟨r, rs, rfl⟩ : ∃ r rs', rs = r :: rs' := by
      cases rs with
      | nil => cases hlen
      | cons r rs => exact ⟨r, rs, rfl⟩
    replace hlen : rs.length = ts.length := Nat.succ.inj hlen
    cases t with
    | comparison c =>
      have hcons : registerResults ((r :: rs).zip
        ((RowTest.comparison c :: ts).map RowTest.packed)) =
          r :: registerResults (rs.zip (ts.map RowTest.packed)) := rfl
      have hnum : ∀ k, numComparisons ((RowTest.comparison c :: ts).take (k + 1)) =
          numComparisons (ts.take k) + 1 := fun k => by
        rw [List.take_succ_cons, numComparisons, List.countP_cons_of_pos rfl]
        rfl
      have ih := ih hlen fun i => v (i + 1)
      rw [hcons]
      constructor
      · intro h k q c' hq hc'
        cases k with
        | zero => exact h 0 q hq
        | succ k =>
          rw [hnum]
          exact ih.mp (fun i q hi => h (i + 1) q hi) k q c' hq hc'
      · intro h i q hi
        cases i with
        | zero => exact h 0 q c hi rfl
        | succ i =>
          refine ih.mpr (fun k q c' hq hc' => ?_) i q hi
          rw [← hnum]
          exact h (k + 1) q c' hq hc'
    | field t =>
      have hcons : registerResults ((r :: rs).zip ((RowTest.field t :: ts).map RowTest.packed)) =
          registerResults (rs.zip (ts.map RowTest.packed)) := rfl
      have hnum : ∀ k, numComparisons ((RowTest.field t :: ts).take (k + 1)) =
          numComparisons (ts.take k) := fun k => by
        rw [List.take_succ_cons, numComparisons, List.countP_cons_of_neg Bool.false_ne_true]
        rfl
      rw [hcons, ih hlen v]
      constructor
      · intro h k q c' hq hc'
        cases k with
        | zero => cases hc'
        | succ k =>
          rw [hnum]
          exact h k q c' hq hc'
      · intro h k q c' hq hc'
        rw [← hnum]
        exact h (k + 1) q c' hq hc'

/-- There is a result for every comparison. -/
theorem length_registerResults {rs : List FbResult} {ts : List RowTest}
    (hlen : rs.length = ts.length) :
    (registerResults (rs.zip (ts.map RowTest.packed))).length = numComparisons ts := by
  induction ts generalizing rs with
  | nil =>
    obtain rfl := List.length_eq_zero_iff.mp hlen
    rfl
  | cons t ts ih =>
    obtain ⟨r, rs, rfl⟩ : ∃ r rs', rs = r :: rs' := by
      cases rs with
      | nil => cases hlen
      | cons r rs => exact ⟨r, rs, rfl⟩
    have ih := ih (Nat.succ.inj hlen)
    cases t with
    | comparison c =>
      rw [numComparisons, List.countP_cons_of_pos rfl, ← numComparisons, ← ih]
      rfl
    | field t =>
      rw [numComparisons, List.countP_cons_of_neg Bool.false_ne_true, ← numComparisons, ← ih]
      rfl

/-- A pair of the zipped lists, by its place. -/
theorem mem_zip_packed {rs : List FbResult} {ts : List RowTest} {x : FbResult × PackedCondition} :
    x ∈ rs.zip (ts.map RowTest.packed) ↔
      ∃ (k : ℕ) (t : RowTest), rs[k]? = some x.1 ∧ ts[k]? = some t ∧ x.2 = t.packed := by
  rw [List.mem_iff_getElem?]
  constructor
  · rintro ⟨k, hk⟩
    rw [List.getElem?_zip_eq_some, List.getElem?_map, Option.map_eq_some_iff] at hk
    obtain ⟨hr, t, ht, htx⟩ := hk
    exact ⟨k, t, hr, ht, htx.symm⟩
  · rintro ⟨k, t, hr, ht, htx⟩
    refine ⟨k, ?_⟩
    rw [List.getElem?_zip_eq_some, List.getElem?_map, Option.map_eq_some_iff]
    exact ⟨hr, t, ht, htx.symm⟩

namespace FieldRow

variable {row : FieldRow} {ts : List RowTest} {rs : List FbResult}

/-- The tests a row asks for, by the places of their conditions. -/
theorem mem_fieldTests {t : FieldTest} {b : Bool} :
    (t, b) ∈ row.fieldTests ts ↔ ∃ k : ℕ, ts[k]? = some (.field t) ∧
      (k, if b then CondResult.xtraTrue else .xtraFalse) ∈ row.conditionResults := by
  rw [fieldTests, List.mem_filterMap]
  constructor
  · rintro ⟨⟨k, r⟩, hmem, hsome⟩
    dsimp only at hsome
    split at hsome
    · cases hsome
      exact ⟨k, ‹_›, hmem⟩
    · cases hsome
      exact ⟨k, ‹_›, hmem⟩
    · cases hsome
  · rintro ⟨k, hk, hmem⟩
    refine ⟨_, hmem, ?_⟩
    cases b <;> simp [hk]

/-- **What is put into the entry** is what the tests of the row put. -/
theorem mem_fieldPuts (hkeeps : KeepsResults row.conditionResults rs)
    (hlen : rs.length = ts.length) (fields : List HeaderField) (q : Put) :
    q ∈ fieldPuts fields (rs.zip (ts.map RowTest.packed)) ↔
      q ∈ (row.fieldTests ts).map fun x => x.1.toPut fields := by
  rw [fieldPuts, List.mem_filterMap, List.mem_map]
  constructor
  · rintro ⟨x, hx, hq⟩
    obtain ⟨k, t, hr, ht, hpacked⟩ := mem_zip_packed.mp hx
    by_cases hdc : x.1 = .fbDontCare
    · rw [if_pos hdc] at hq
      cases hq
    rw [if_neg hdc, hpacked] at hq
    cases t with
    | comparison c => cases hq
    | field t =>
      rw [RowTest.packed, t.put_exactMatch] at hq
      obtain ⟨htrue, hfalse, -, hexact⟩ := hkeeps k x.1 hr
      obtain ⟨b, hb⟩ : ∃ b, (t, b) ∈ row.fieldTests ts := by
        cases hcase : x.1 with
        | fbTrue => exact ⟨true, mem_fieldTests.mpr ⟨k, ht, htrue hcase⟩⟩
        | fbFalse => exact ⟨false, mem_fieldTests.mpr ⟨k, ht, hfalse hcase⟩⟩
        | fbDontCare => exact absurd hcase hdc
        | fbExact => exact absurd hcase hexact
      exact ⟨(t, b), hb, Option.some.inj hq⟩
  · rintro ⟨⟨t, b⟩, hx, rfl⟩
    obtain ⟨k, ht, hmem⟩ := mem_fieldTests.mp hx
    have hlt : k < rs.length := by
      rw [hlen]
      exact (List.getElem?_eq_some_iff.mp ht).1
    have hr : rs[k]? = some rs[k] := List.getElem?_eq_getElem hlt
    refine ⟨(rs[k], .exactMatch t.field t.constant), mem_zip_packed.mpr ⟨k, .field t, hr, ht, rfl⟩,
      ?_⟩
    have hdc : rs[k] ≠ .fbDontCare := by
      intro hdc
      obtain ⟨-, -, hnone, -⟩ := hkeeps k _ hr
      obtain ⟨hnotTrue, hnotFalse⟩ := hnone hdc
      cases b with
      | true => exact hnotTrue hmem
      | false => exact hnotFalse hmem
    rw [if_neg hdc]
    exact t.put_exactMatch fields

/-- A row that applies somewhere asks for nothing twice. -/
theorem Applies.consistent {fields : List HeaderField} {o : Fin 3 → BitVec 32}
    {conditions : BitVec 16} {s : BitVec 8} (h : row.Applies fields ts o conditions s) :
    row.Consistent := by
  intro i htrue hfalse
  have ht : truth fields ts o conditions i = true := h.2 _ htrue
  have hf : truth fields ts o conditions i = false := h.2 _ hfalse
  rw [ht] at hf
  cases hf

/-- **What a row asks**, apart from the state: results of the comparisons,
and results of the tests of fields. -/
theorem allows_iff (hkeeps : KeepsResults row.conditionResults rs) (hlen : rs.length = ts.length)
    (hids : ∀ c ∈ row.conditionResults, c.1 < ts.length) (hcons : row.Consistent)
    (fields : List HeaderField) (o : Fin 3 → BitVec 32) (conditions : BitVec 16) :
    (∀ c ∈ row.conditionResults, c.2.allows (truth fields ts o conditions c.1)) ↔
      (∀ (i : ℕ) (r : FbResult), (registerResults (rs.zip (ts.map RowTest.packed)))[i]? = some r →
        r.allows (conditions.getLsbD i)) ∧ AllHold fields (row.fieldTests ts) o := by
  rw [registerResults_allows hlen fun i => conditions.getLsbD i]
  have htruth : ∀ (k : ℕ) (c : RegisterCondition), ts[k]? = some (.comparison c) →
      truth fields ts o conditions k = conditions.getLsbD (numComparisons (ts.take k)) :=
    fun k c hk => by rw [truth, hk]
  have htest : ∀ (k : ℕ) (t : FieldTest), ts[k]? = some (.field t) →
      truth fields ts o conditions k = t.holds (o (fieldIndex fields t.field)) :=
    fun k t hk => by rw [truth, hk]
  constructor
  · intro h
    refine ⟨fun k r c hr hk => ?_, fun x hx => ?_⟩
    · obtain ⟨htrue, hfalse, -, hexact⟩ := hkeeps k r hr
      rw [← htruth k c hk]
      cases r with
      | fbTrue => exact h _ (htrue rfl)
      | fbFalse => exact h _ (hfalse rfl)
      | fbDontCare => exact trivial
      | fbExact => exact absurd rfl hexact
    · obtain ⟨t, b⟩ := x
      obtain ⟨k, hk, hmem⟩ := mem_fieldTests.mp hx
      rw [← htest k t hk]
      cases b with
      | true => exact h _ hmem
      | false => exact h _ hmem
  · rintro ⟨hcomp, hall⟩ ⟨k, q⟩ hmem
    have hlt : k < ts.length := hids _ hmem
    obtain ⟨r, hr⟩ : ∃ r, rs[k]? = some r := ⟨_, List.getElem?_eq_getElem (hlen ▸ hlt)⟩
    obtain ⟨htrue, hfalse, hnone, hexact⟩ := hkeeps k _ hr
    cases hk : ts[k] with
    | comparison c =>
      have hts : ts[k]? = some (.comparison c) := by rw [List.getElem?_eq_getElem hlt, hk]
      have hallow := hcomp k _ c hr hts
      rw [← htruth k c hts] at hallow
      -- the result kept for the condition is the one asked for
      cases hcase : r with
      | fbExact => exact absurd hcase hexact
      | fbDontCare =>
        cases q with
        | other s => exact trivial
        | xtraTrue => exact absurd hmem (hnone hcase).1
        | xtraFalse => exact absurd hmem (hnone hcase).2
      | fbTrue =>
        rw [hcase] at hallow
        cases q with
        | other s => exact trivial
        | xtraTrue => exact hallow
        | xtraFalse => exact absurd hmem (hcons k (htrue hcase))
      | fbFalse =>
        rw [hcase] at hallow
        cases q with
        | other s => exact trivial
        | xtraTrue => exact absurd (hfalse hcase) (hcons k hmem)
        | xtraFalse => exact hallow
    | field t =>
      have hts : ts[k]? = some (.field t) := by rw [List.getElem?_eq_getElem hlt, hk]
      dsimp only
      rw [htest k t hts]
      cases q with
      | other s => exact trivial
      | xtraTrue => exact hall (t, true) (mem_fieldTests.mpr ⟨k, hts, hmem⟩)
      | xtraFalse => exact hall (t, false) (mem_fieldTests.mpr ⟨k, hts, hmem⟩)

end FieldRow

/-! ## The entry -/

/-- **The entry of a row matches exactly the row**: the row is written,
and the entry it becomes matches the words of just the packets the row
applies to. -/
def EntryMatchesRow (fields : List HeaderField) (packed : List CondRecord) (ts : List RowTest)
    (row : FieldRow) (n : Fin 32) : Prop :=
  ∃ results conditions writes entry,
    getConditionsResults packed.length row.conditionResults = some results ∧
    packed.map CondRecord.tcam2 = conditions.map some ∧
    writeTcam2Entry fields conditions n row.state results = some writes ∧
    (∀ c : CamReg, (c.program writes).cam2 n = some entry) ∧
    ∀ (o : Fin 3 → BitVec 32) (conditions : BitVec 16) (s : BitVec 8),
      entryMatches entry (fullInput2 (o 2) (o 1) (o 0) conditions s) = true ↔
        row.Applies fields ts o conditions s

/-- There are results of the comparators that any row allows. -/
theorem exists_conditions {rs : List FbResult} (hexact : .fbExact ∉ rs) (hlen : rs.length ≤ 16) :
    ∃ conditions : BitVec 16, ∀ (i : ℕ) (r : FbResult), rs[i]? = some r →
      r.allows (conditions.getLsbD i) := by
  refine ⟨(BitVec.ofBoolListLE (rs.map fun r => r == .fbTrue)).setWidth 16, fun i r hi => ?_⟩
  have hlt : i < 16 := lt_of_lt_of_le (List.getElem?_eq_some_iff.mp hi).1 hlen
  have hbit : ((BitVec.ofBoolListLE (rs.map fun r => r == .fbTrue)).setWidth 16).getLsbD i =
      (r == .fbTrue) := by
    rw [BitVec.getLsbD_setWidth, decide_eq_true hlt, Bool.true_and, BitVec.getLsbD_ofBoolListLE,
      List.getD_eq_getElem?_getD, List.getElem?_map, hi]
    rfl
  rw [hbit]
  cases r with
  | fbTrue | fbFalse | fbDontCare => first | rfl | trivial
  | fbExact => exact absurd (List.mem_of_getElem? hi) hexact

/-- **The entry matches exactly the row when the state fits, nothing is
asked for twice and the tests come down to the values of the entry.** -/
theorem entryMatchesRow_records {fields : List HeaderField} (hthree : fields.length ≤ 3)
    {ts : List RowTest} (hfour : numComparisons ts ≤ 4)
    (hfields : ∀ t, RowTest.field t ∈ ts → t.field ∈ fields) {packed : List CondRecord}
    (hpacked : packed.map CondRecord.tcam2 = ts.map fun t => some t.packed) {row : FieldRow}
    (hids : ∀ c ∈ row.conditionResults, c.1 < ts.length) (n : Fin 32) :
    EntryMatchesRow fields packed ts row n ↔
      row.state < 256 ∧ row.Consistent ∧ Determined fields (row.fieldTests ts) := by
  have hcount : packed.length = ts.length := by
    have := congrArg List.length hpacked
    simpa using this
  obtain ⟨rs, hrs, hlen, hkeeps⟩ := getConditionsResults_spec hids
  have hexact : ∀ r ∈ rs, r ≠ .fbExact := by
    intro r hr
    obtain ⟨k, hk⟩ := List.mem_iff_getElem?.mp hr
    exact (hkeeps k r hk).2.2.2
  have htests : ∀ x ∈ row.fieldTests ts, x.1.field ∈ fields := by
    rintro ⟨t, b⟩ hx
    obtain ⟨k, hk, -⟩ := FieldRow.mem_fieldTests.mp hx
    exact hfields t (List.mem_of_getElem? hk)
  -- the words of the entry
  have hreg := length_registerResults hlen
  obtain ⟨w, hw, hfilled⟩ := @packResults_filled fields (rs.zip (ts.map RowTest.packed))
    (fun x hx => hexact x.1 (List.of_mem_zip hx).1) (by
      intro x hx hne
      obtain ⟨k, t, -, ht, hxt⟩ := mem_zip_packed.mp hx
      cases t with
      | comparison c => exact absurd hxt hne
      | field t =>
        refine ⟨_, by rw [hxt]; exact t.put_exactMatch fields, ?_⟩
        have hpos := findHfPosition_eq hthree (hfields t (List.mem_of_getElem? ht))
        have := (fieldIndex fields t.field).isLt
        dsimp only
        omega) Words.start (by rw [hreg]; show 0 + _ ≤ 24; omega)
  have hzip : (rs.zip (ts.map RowTest.packed)).map Prod.fst = rs ∧
      (rs.zip (ts.map RowTest.packed)).map Prod.snd = ts.map RowTest.packed := by
    have hlen' : rs.length = (ts.map RowTest.packed).length := by rw [hlen, List.length_map]
    exact ⟨List.map_fst_zip hlen'.le, List.map_snd_zip hlen'.ge⟩
  rw [hzip.1, hzip.2] at hw
  have hregExact : .fbExact ∉ registerResults (rs.zip (ts.map RowTest.packed)) := by
    intro h
    obtain ⟨x, hx, hsome⟩ := List.mem_filterMap.mp h
    split at hsome
    · exact hexact x.1 (List.of_mem_zip hx).1 (Option.some.inj hsome)
    · cases hsome
  have hmatch : ∀ (o : Fin 3 → BitVec 32) (conditions : BitVec 16) (s : BitVec 8),
      entryMatches (entryOf (w.putState row.state))
          (fullInput2 (o 2) (o 1) (o 0) conditions s) = true ↔
        (row.state = 255 ∨ row.state % 256 = s.toNat) ∧
        (∀ (i : ℕ) (r : FbResult), (registerResults (rs.zip (ts.map RowTest.packed)))[i]? = some r →
          r.allows (conditions.getLsbD i)) ∧
        Agrees fields (row.fieldTests ts) o := by
    intro o conditions s
    rw [entryMatches_filled hfilled hregExact (by rw [hreg]; omega),
      ← agrees_iff hthree htests]
    simp only [FieldRow.mem_fieldPuts hkeeps hlen]
  -- the entry is the one of these words
  have hentry : EntryMatchesRow fields packed ts row n ↔
      ∀ (o : Fin 3 → BitVec 32) (conditions : BitVec 16) (s : BitVec 8),
        entryMatches (entryOf (w.putState row.state))
          (fullInput2 (o 2) (o 1) (o 0) conditions s) = true ↔
            row.Applies fields ts o conditions s := by
    constructor
    · rintro ⟨results, conditions, writes, entry, hresults, hconditions, hwrites, hcam, hiff⟩
      rw [hcount, hrs] at hresults
      cases hresults
      have hconds : conditions = ts.map RowTest.packed := by
        refine List.map_injective_iff.mpr (Option.some_injective PackedCondition) ?_
        rw [← hconditions, hpacked, List.map_map]
        rfl
      rw [writeTcam2Entry, hconds, hw] at hwrites
      cases hwrites
      have := hcam CamReg.initial
      rw [CamReg.program_writes, Function.update_self] at this
      cases this
      exact hiff
    · intro h
      refine ⟨rs, ts.map RowTest.packed, (w.putState row.state).writes n, _, by rw [hcount, hrs],
        by rw [hpacked, List.map_map]; rfl, by rw [writeTcam2Entry, hw]; rfl, fun c => ?_, h⟩
      rw [CamReg.program_writes, Function.update_self]
  rw [hentry]
  obtain ⟨cs, hcs⟩ := exists_conditions hregExact (by rw [hreg]; omega)
  constructor
  · intro h
    -- the contents the entry was made for
    have hone := (h (fun p => fieldValue fields (row.fieldTests ts) p) cs
      (BitVec.ofNat 8 row.state)).mp ((hmatch _ _ _).mpr
        ⟨.inr (BitVec.toNat_ofNat row.state 8).symm, hcs, fun x _ i _ => rfl⟩)
    have hstate : row.state < 256 := by
      obtain h255 | heq := hone.1
      · omega
      · rw [heq]
        exact BitVec.isLt _
    refine ⟨hstate, hone.consistent, (determined_iff hthree htests).mpr fun o => ?_⟩
    have hiff := (hmatch o cs (BitVec.ofNat 8 row.state)).symm.trans (h o cs _)
    rw [FieldRow.Applies, FieldRow.allows_iff hkeeps hlen hids hone.consistent] at hiff
    have hs : row.state = (BitVec.ofNat 8 row.state).toNat := by
      rw [BitVec.toNat_ofNat, Nat.mod_eq_of_lt hstate]
    constructor
    · exact fun hagree => (hiff.mp ⟨.inr (BitVec.toNat_ofNat row.state 8).symm, hcs, hagree⟩).2.2
    · exact fun hall => (hiff.mpr ⟨.inr hs, hcs, hall⟩).2.2
  · rintro ⟨hstate, hcons, hdet⟩ o conditions s
    rw [hmatch, FieldRow.Applies, FieldRow.allows_iff hkeeps hlen hids hcons,
      Nat.mod_eq_of_lt hstate, (determined_iff hthree htests).mp hdet o]

/-- The records of the first stage, as the entries read them. -/
theorem tcam2_of_packConditions {ts : List RowTest} {label : ℕ} {stages : List Stage}
    {parsed : Parsed} {packed : List CondRecord}
    (h : packConditions (⟨label, ts.map RowTest.condition⟩ :: stages) = some parsed)
    (hpacked : parsed.conditions[0]? = some packed) :
    packed.map CondRecord.tcam2 = ts.map fun t => some t.packed := by
  obtain ⟨rs, hfs, hfirst, hrs, -⟩ := conditions_first h
  obtain rfl := Option.some.inj (hpacked.symm.trans hrs)
  have hmap := congrArg (List.map fun r => Option.bind r CondRecord.tcam2)
    (mapM_packCondition hfirst)
  rw [List.map_map, List.map_map, List.map_map] at hmap
  refine Eq.trans ?_ (hmap.symm.trans (List.map_congr_left fun t _ => ?_))
  · rfl
  · cases t with
    | comparison c =>
      exact (congrArg (fun r => Option.bind r CondRecord.tcam2) (packCondition_condition c))
    | field t => exact t.tcam2_condition

/-- **A programmed entry matches exactly its row**, for the conditions and
header fields of the first stage, exactly when the row's state is a byte,
no condition is asked for both ways, and the tests of each field come down
to the entry's value for it. -/
theorem entryMatchesRow_iff {ts : List RowTest} {stages : List Stage} {parsed : Parsed}
    (h : packConditions (⟨0, ts.map RowTest.condition⟩ :: stages) = some parsed)
    (hlabel : ∀ s ∈ stages, s.stageLabel ≠ 0) {packed : List CondRecord}
    (hpacked : parsed.conditions[0]? = some packed) {fields : List HeaderField}
    (hfields : parsed.hfs[0]? = some fields) (hthree : fields.length ≤ 3)
    (hfour : numComparisons ts ≤ 4) {row : FieldRow}
    (hids : ∀ c ∈ row.conditionResults, c.1 < ts.length) (n : Fin 32) :
    EntryMatchesRow fields packed ts row n ↔
      row.state < 256 ∧ row.Consistent ∧ Determined fields (row.fieldTests ts) := by
  refine entryMatchesRow_records hthree hfour (fun t ht => ?_) (tcam2_of_packConditions h hpacked)
    hids n
  obtain ⟨fields', hfields', hall⟩ := hfs_first h rfl hlabel
  obtain rfl := Option.some.inj (hfields.symm.trans hfields')
  exact hall _ (List.mem_map_of_mem ht) t.field _ t.exactTest_condition

/-- A comparison, a port and a protocol, all asked to be true. -/
theorem entryMatchesRow_true :
    EntryMatchesRow [.eventField "XTRA_PKT_RCVD_PORT", .pktField 23 1]
      [⟨true, .field (.eventField "XTRA_PKT_RCVD_PORT"), .const (.str 2), .xtraEqual⟩,
        ⟨false, .code 0x0e, .code 0x0a, .xtraGreater⟩,
        ⟨true, .field (.pktField 23 1), .const (.str 6), .xtraEqual⟩]
      [.field (.inputPort 1),
        .comparison ⟨.localRegister 0, .source (.globalRegister 0), .greater⟩,
        .field (.packet "ip_proto" 23 .one (.str 6))]
      ⟨1, [(0, .xtraTrue), (1, .xtraFalse), (2, .xtraTrue)]⟩ 0 := by
  refine (@entryMatchesRow_iff _ [] _ rfl (by simp) _ rfl _ rfl (by decide) (by decide) _
    (by decide) 0).mpr ⟨by decide, fun i => by simp; omega, ?_⟩
  have htests : FieldRow.fieldTests ⟨1, [(0, .xtraTrue), (1, .xtraFalse), (2, .xtraTrue)]⟩
      [.field (.inputPort 1),
        .comparison ⟨.localRegister 0, .source (.globalRegister 0), .greater⟩,
        .field (.packet "ip_proto" 23 .one (.str 6))] =
      [(.inputPort 1, true), (.packet "ip_proto" 23 .one (.str 6), true)] := rfl
  rw [htests]
  refine List.forall_mem_cons.mpr ⟨⟨by decide, .inl ⟨_, List.mem_cons_self, rfl, rfl⟩⟩,
    List.forall_mem_cons.mpr ⟨⟨by decide, .inl ⟨_, List.mem_cons_of_mem _ List.mem_cons_self,
      rfl, rfl⟩⟩, fun _ h => absurd h List.not_mem_nil⟩⟩

/-- **A test that has to fail**: the row is for every protocol but TCP, and
its entry matches TCP and nothing else. -/
theorem not_entryMatchesRow :
    packConditions [⟨0, [⟨.xtraPktField "ip_proto" 23 1, .xtraIntegerConst (.str 6),
        .xtraEqual⟩]⟩] =
      some ⟨[[⟨true, .field (.pktField 23 1), .const (.str 6), .xtraEqual⟩]], [[.pktField 23 1]]⟩ ∧
    ¬ EntryMatchesRow [.pktField 23 1]
      [⟨true, .field (.pktField 23 1), .const (.str 6), .xtraEqual⟩]
      [.field (.packet "ip_proto" 23 .one (.str 6))] ⟨1, [(0, .xtraFalse)]⟩ 0 := by
  refine ⟨rfl, fun h => ?_⟩
  obtain ⟨-, -, hdet⟩ := (entryMatchesRow_records (by decide) (by decide)
    (fun t ht => by
      obtain rfl := RowTest.field.inj (List.mem_singleton.mp ht)
      exact List.mem_singleton.mpr rfl) rfl (by decide) 0).mp h
  have hfail := (hdet (.packet "ip_proto" 23 .one (.str 6), false) List.mem_cons_self).1
  exact absurd hfail (by decide)

end FlowBlaze
