import FlowBlaze.Common.Bytes
import Mathlib.Tactic.Linarith
/-!
# Overwriting a field — `modify_field.vhd`

Between two AXI streams of beats of 32 bytes, bytes of a packet are
overwritten. The operation is presented with the first beat; the machine
keeps it, and counts up to 32. Where the field lies in a beat decides
which branch writes it.

The reset is not part of a run, which starts after it.
-/

namespace FlowBlaze

namespace Hw

open Common

/-- `axis`. -/
structure Axis where
  tdata : BitVec 256
  tuser : BitVec 128
  tkeep : BitVec 32
  tvalid : Bool
  tlast : Bool

/-- `state_type`. -/
inductive ModifyState
  | idle
  | waitEop
deriving DecidableEq, Repr

/-- The inputs in a clock cycle. -/
structure ModifyInput where
  sAxis : Axis
  mAxisTready : Bool
  inOffset : BitVec 14
  inSize : BitVec 2
  inField : BitVec 32
  enable : Bool

/-- The registers. -/
structure ModifyField where
  state : ModifyState
  counter : ℤ
  regOffset : BitVec 14
  regSize : BitVec 2
  regField : BitVec 32

/-! ## The data -/

/-- The branches for a size of one byte. -/
def modifyByte (relativeOffset : ℤ) (index : ℕ) (tdata : BitVec 256) (field : BitVec 32) :
    BitVec 256 :=
  if relativeOffset > 31 then tdata
  else if relativeOffset = 0 then tdata.extractLsb' 0 248 ++ field.extractLsb' 0 8
  else if relativeOffset > 0 ∧ relativeOffset < 31 then
    assignBytes (assignBytes tdata [0] (byteOf tdata)) (List.range' 1 31) fun i =>
      if i < index then byteOf tdata i
      else if i = index then byteOf field 0
      else byteOf tdata i
  else tdata

/-- The branches for a size of two bytes. -/
def modifyTwo (relativeOffset : ℤ) (index : ℕ) (tdata : BitVec 256) (field : BitVec 32) :
    BitVec 256 :=
  if relativeOffset > 31 then tdata
  else if relativeOffset = 0 then tdata.extractLsb' 0 240 ++ field.extractLsb' 0 16
  else if relativeOffset > 0 ∧ relativeOffset < 30 then
    assignBytes (assignBytes tdata [0, 1] (byteOf tdata)) (List.range' 2 30) fun i =>
      if i < index then byteOf tdata i
      else if i = index then byteOf field 0
      else if i = index + 1 then byteOf field 1
      else byteOf tdata i
  else if relativeOffset = 31 then field.extractLsb' 0 8 ++ tdata.extractLsb' 0 248
  else if relativeOffset = -1 then tdata.extractLsb' 8 248 ++ field.extractLsb' 8 8
  else tdata

/-- The branches for a size of four bytes. -/
def modifyFour (relativeOffset : ℤ) (index : ℕ) (tdata : BitVec 256) (field : BitVec 32) :
    BitVec 256 :=
  if relativeOffset > 0 ∧ relativeOffset < 28 then
    assignBytes (assignBytes tdata [0, 1, 2, 3] (byteOf tdata)) (List.range' 4 28) fun i =>
      if i < index then byteOf tdata i
      else if i = index then byteOf field 0
      else if i = index + 1 then byteOf field 1
      else if i = index + 2 then byteOf field 2
      else if i = index + 3 then byteOf field 3
      else byteOf tdata i
  else if relativeOffset = 0 then tdata.extractLsb' 0 224 ++ field
  else if relativeOffset = 28 then field ++ tdata.extractLsb' 0 224
  else if relativeOffset = 29 then field.extractLsb' 0 24 ++ tdata.extractLsb' 0 232
  else if relativeOffset = 30 then field.extractLsb' 0 16 ++ tdata.extractLsb' 0 240
  else if relativeOffset = 31 then field.extractLsb' 0 8 ++ tdata.extractLsb' 0 248
  else if relativeOffset = -1 then tdata.extractLsb' 24 232 ++ field.extractLsb' 8 24
  else if relativeOffset = -2 then tdata.extractLsb' 16 240 ++ field.extractLsb' 16 16
  else if relativeOffset = -3 then tdata.extractLsb' 8 248 ++ field.extractLsb' 24 8
  else tdata

/-- The data of the beat that leaves. -/
def modifyData (size : BitVec 2) (relativeOffset : ℤ) (index : ℕ) (tdata : BitVec 256)
    (field : BitVec 32) : BitVec 256 :=
  if size = 0b01 then modifyByte relativeOffset index tdata field
  else if size = 0b10 then modifyTwo relativeOffset index tdata field
  else if size = 0b11 then modifyFour relativeOffset index tdata field
  else tdata

namespace ModifyField

variable (M : ModifyField) (x : ModifyInput)

/-- `offset`. -/
def offset : BitVec 14 := if x.enable then x.inOffset else M.regOffset

/-- `size`. -/
def size : BitVec 2 := if x.enable then x.inSize else M.regSize

/-- `field`. -/
def field : BitVec 32 := if x.enable then x.inField else M.regField

/-- `relative_offset`. -/
def relativeOffset : ℤ := (M.offset x).toNat - M.counter

/-- `index`. -/
def index : ℕ := ((M.offset x).extractLsb' 0 5).toNat

/-- `m_axis`. -/
def mAxis : Axis :=
  { x.sAxis with
    tdata := modifyData (M.size x) (M.relativeOffset x) (M.index x) x.sAxis.tdata (M.field x) }

/-- The clock edge. -/
def clock : ModifyField :=
  match M.state with
  | .idle =>
    if x.sAxis.tvalid && x.mAxisTready then
      ⟨.waitEop, M.counter + 32, x.inOffset, x.inSize, x.inField⟩
    else M
  | .waitEop =>
    if x.sAxis.tvalid && x.mAxisTready && x.sAxis.tlast then
      { M with state := .idle, counter := 0 }
    else M

end ModifyField

/-- **A beat is transferred**, on both streams: the ready signal is passed
through, and so is the valid one. -/
def ModifyInput.transfers (x : ModifyInput) : Bool := x.sAxis.tvalid && x.mAxisTready

/-- The beats that leave in a run. -/
def ModifyField.leaves (M : ModifyField) : List ModifyInput → List Axis
  | [] => []
  | x :: xs => if x.transfers then M.mAxis x :: (M.clock x).leaves xs else (M.clock x).leaves xs

/-! ## The operation — `FlowBlaze_core.vhd`

The action and the action value are the words of a row, `RAM3` and `RAM4`,
as they come out of the shift registers. -/

/-- `enable_modify`. -/
def enableModify (action : BitVec 32) : Bool :=
  action.extractLsb' 16 8 == 0x0B || action.extractLsb' 16 8 == 0x1B

/-- `modify_offset`. -/
def modifyOffset (actionValue : BitVec 32) : BitVec 14 := actionValue.extractLsb' 0 14

/-- `modify_size`. -/
def modifySize (actionValue : BitVec 32) : BitVec 2 := actionValue.extractLsb' 14 2

/-- `modify_field`: the upper half of the action value, or a result. -/
def modifyField (action actionValue res1 : BitVec 32) : BitVec 32 :=
  if action.extractLsb' 20 4 = 0 then 0#16 ++ actionValue.extractLsb' 16 16 else res1

end Hw

end FlowBlaze
