import FlowBlaze.Common.IndexSizes
import Mathlib.Data.List.FinRange
import Mathlib.Logic.Function.Basic
/-!
# The second TCAM — `FlowBlaze_core.vhd`

The core collects the words of a TCAM entry in two registers, value and
mask, and hands both to the CAM in the cycle the last word of the mask
is written. The CAM compares the word of a packet with every entry. It is
a plain table here, and its shift registers are those of `CamRtl`: a set
mask bit means that the bit does not matter, and of the entries that
match the lowest address is presented. An entry never written matches
nothing.
-/

namespace FlowBlaze

namespace Hw

/-- The words of `tcam_data_in` and `tcam_mask`, from the low end, and
the entries of the CAM: value and mask, 120 bits each. -/
structure CamReg where
  tcamDataIn : Fin 8 → BitVec 32
  tcamMask : Fin 8 → BitVec 32
  cam2 : Fin 32 → Option (BitVec 120 × BitVec 120)

/-- After a reset. -/
def CamReg.initial : CamReg := ⟨fun _ => 0, fun _ => 0, fun _ => none⟩

/-- Bits 119 down to 0 of a register of eight words. -/
def low120 (w : Fin 8 → BitVec 32) : BitVec 120 :=
  (w 3 ++ w 2 ++ w 1 ++ w 0).extractLsb' 0 120

/-- `cam2_we`, while `write_enable` is driven. -/
def cam2We (address : BitVec 32) : Bool :=
  address.extractLsb' 12 20 == 0x80011 && address.extractLsb' 11 1 == 0 &&
    address.extractLsb' 0 6 == 0b111100

/-- **A register write from the host**, in a cycle without a packet. The
CAM takes the words the registers held before. -/
def CamReg.write (c : CamReg) (address wdata : BitVec 32) : CamReg where
  tcamDataIn k :=
    if address.extractLsb' 16 16 == 0x8001 && address.extractLsb' 0 6 == BitVec.ofNat 6 (4 * k)
    then wdata else c.tcamDataIn k
  tcamMask k :=
    if address.extractLsb' 16 16 == 0x8001 &&
      address.extractLsb' 0 6 == BitVec.ofNat 6 (32 + 4 * k)
    then wdata else c.tcamMask k
  cam2 i :=
    if cam2We address && address.extractLsb' 6 5 == BitVec.ofNat 5 i
    then some (low120 c.tcamDataIn, low120 c.tcamMask) else c.cam2 i

/-- The writes of a host program, in order. -/
def CamReg.program (c : CamReg) (writes : List (ℕ × ℕ)) : CamReg :=
  writes.foldl (fun c w => c.write (BitVec.ofNat 32 w.1) (BitVec.ofNat 32 w.2)) c

/-- The word agrees with the entry on every bit the mask leaves
significant. -/
def entryMatches (entry : BitVec 120 × BitVec 120) (word : BitVec 120) : Bool :=
  (word ^^^ entry.1) &&& ~~~entry.2 == 0

/-- An entry matches a word when every bit is masked out or agrees. -/
theorem entryMatches_iff (entry : BitVec 120 × BitVec 120) (word : BitVec 120) :
    entryMatches entry word = true ↔
      ∀ b, b < 120 → entry.2.getLsbD b = true ∨ word.getLsbD b = entry.1.getLsbD b := by
  unfold entryMatches
  rw [beq_iff_eq]
  constructor
  · intro h b hb
    have hbit := congrArg (fun v => v.getLsbD b) h
    have hzero : (0 : BitVec 120).getLsbD b = false := BitVec.getLsbD_zero
    rw [BitVec.getLsbD_and, BitVec.getLsbD_xor, BitVec.getLsbD_not, decide_eq_true hb,
      hzero, Bool.true_and] at hbit
    cases hm : entry.2.getLsbD b with
    | true => exact Or.inl rfl
    | false =>
      rw [hm, Bool.not_false, Bool.and_true, bne_eq_false_iff_eq] at hbit
      exact Or.inr hbit
  · intro h
    refine BitVec.eq_of_getLsbD_eq fun b hb => ?_
    obtain hm | he := h b hb
    · simp [hm]
    · simp [he]

/-- Whether an entry of the CAM matches. -/
def CamReg.matchLine (c : CamReg) (word : BitVec 120) (i : Fin 32) : Bool :=
  match c.cam2 i with
  | some entry => entryMatches entry word
  | none => false

/-- `MATCH` and `MATCH_ADDR`. -/
def CamReg.lookup (c : CamReg) (word : BitVec 120) : Option (Fin 32) :=
  (List.finRange 32).find? (c.matchLine word)

/-- `full_input_2`: `O3 & O2 & O1 & conditions & state`. -/
def fullInput2 (o3 o2 o1 : BitVec 32) (conditions : BitVec 16) (state : BitVec 8) : BitVec 120 :=
  o3 ++ o2 ++ o1 ++ conditions ++ state

end Hw

end FlowBlaze
