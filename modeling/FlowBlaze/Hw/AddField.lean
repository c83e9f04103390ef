import FlowBlaze.Hw.ModifyField
/-!
# Inserting a field — `write_field.vhd`

The entity is `add_field`, with the ports of the one that overwrites. Every
byte behind the field moves up, and the last bytes of a beat into the next
one: a register carries them. What no longer fits the last beat leaves in
an extra slot, of which the first beat decides.

The reset is not part of a run, which starts after it.
-/

namespace FlowBlaze

namespace Hw

open Common

/-- `state_type`. -/
inductive AddState
  | idle
  | waitExtraSlot
  | extraSlot
  | waitEop
deriving DecidableEq, Repr

/-- The registers. -/
structure AddField where
  state : AddState
  counter : ℤ
  regOffset : BitVec 14
  regSize : BitVec 2
  regField : BitVec 32
  byteCount : BitVec 3
  tempTdata : BitVec 32

/-! ## The data -/

/-- The branches for a size of one byte. -/
def addByte (relativeOffset : ℤ) (index : ℕ) (tdata : BitVec 256) (field tempTdata : BitVec 32) :
    BitVec 256 :=
  if relativeOffset > 31 then tdata
  else if relativeOffset = 0 then tdata.extractLsb' 0 248 ++ field.extractLsb' 0 8
  else if relativeOffset = 31 then field.extractLsb' 0 8 ++ tdata.extractLsb' 0 248
  else if relativeOffset > 0 ∧ relativeOffset < 31 then
    assignBytes (assignBytes tdata [0] (byteOf tdata)) (List.range' 1 31) fun i =>
      if i < index then byteOf tdata i
      else if i = index then byteOf field 0
      else byteOf tdata (i - 1)
  else tdata.extractLsb' 0 248 ++ tempTdata.extractLsb' 24 8

/-- The branches for a size of two bytes. -/
def addTwo (relativeOffset : ℤ) (index : ℕ) (tdata : BitVec 256) (field tempTdata : BitVec 32) :
    BitVec 256 :=
  if relativeOffset > 31 then tdata
  else if relativeOffset = 0 then tdata.extractLsb' 0 240 ++ field.extractLsb' 0 16
  else if relativeOffset = 30 then field.extractLsb' 0 16 ++ tdata.extractLsb' 0 240
  else if relativeOffset = 31 then field.extractLsb' 0 8 ++ tdata.extractLsb' 0 248
  else if relativeOffset = -1 then
    tdata.extractLsb' 0 232 ++ (tempTdata.extractLsb' 16 16 ++ field.extractLsb' 8 8)
  else if relativeOffset > 0 ∧ relativeOffset < 30 then
    assignBytes (assignBytes tdata [0, 1] (byteOf tdata)) (List.range' 2 30) fun i =>
      if i < index then byteOf tdata i
      else if i = index then byteOf field 0
      else if i = index + 1 then byteOf field 1
      else byteOf tdata (i - 2)
  else tdata.extractLsb' 0 240 ++ tempTdata.extractLsb' 16 16

/-- The branches for a size of four bytes. -/
def addFour (relativeOffset : ℤ) (index : ℕ) (tdata : BitVec 256) (field tempTdata : BitVec 32) :
    BitVec 256 :=
  if relativeOffset > 31 then tdata
  else if relativeOffset = 0 then tdata.extractLsb' 0 224 ++ field
  else if relativeOffset = 28 then field ++ tdata.extractLsb' 0 224
  else if relativeOffset = 29 then field.extractLsb' 0 24 ++ tdata.extractLsb' 0 232
  else if relativeOffset = 30 then field.extractLsb' 0 16 ++ tdata.extractLsb' 0 240
  else if relativeOffset = 31 then field.extractLsb' 0 8 ++ tdata.extractLsb' 0 248
  else if relativeOffset = -3 then
    tdata.extractLsb' 0 224 ++ (tempTdata.extractLsb' 8 24 ++ field.extractLsb' 24 8)
  else if relativeOffset = -2 then
    tdata.extractLsb' 0 224 ++ (tempTdata.extractLsb' 16 16 ++ field.extractLsb' 16 16)
  else if relativeOffset = -1 then
    tdata.extractLsb' 0 224 ++ (tempTdata.extractLsb' 24 8 ++ field.extractLsb' 8 24)
  else if relativeOffset > 0 ∧ relativeOffset < 28 then
    assignBytes (assignBytes tdata [0, 1, 2, 3] (byteOf tdata)) (List.range' 4 28) fun i =>
      if i < index then byteOf tdata i
      else if i = index then byteOf field 0
      else if i = index + 1 then byteOf field 1
      else if i = index + 2 then byteOf field 2
      else if i = index + 3 then byteOf field 3
      else byteOf tdata (i - 4)
  else tdata.extractLsb' 0 224 ++ tempTdata

/-- The data of a beat that passes. -/
def addData (size : BitVec 2) (relativeOffset : ℤ) (index : ℕ) (tdata : BitVec 256)
    (field tempTdata : BitVec 32) : BitVec 256 :=
  if size = 0b01 then addByte relativeOffset index tdata field tempTdata
  else if size = 0b10 then addTwo relativeOffset index tdata field tempTdata
  else if size = 0b11 then addFour relativeOffset index tdata field tempTdata
  else tdata

/-- The data of the extra slot. -/
def extraData (byteCount : BitVec 3) (tempTdata : BitVec 32) : BitVec 256 :=
  if byteCount = 0b001 then 0#248 ++ tempTdata.extractLsb' 0 8
  else if byteCount = 0b010 then 0#240 ++ tempTdata.extractLsb' 0 16
  else if byteCount = 0b011 then 0#232 ++ tempTdata.extractLsb' 0 24
  else 0#224 ++ tempTdata

/-- `pkt_size`: what the packet's last beat holds, and the field. -/
def pktSize (tuser : BitVec 128) (size : BitVec 2) : BitVec 6 :=
  let resto := 0#1 ++ tuser.extractLsb' 0 5
  let resto := if resto = 0b000000 then 0b100000 else resto
  resto + size.setWidth 6 + (BitVec.ofBool (size.getLsbD 1 && size.getLsbD 0)).setWidth 6

namespace AddField

variable (M : AddField) (x : ModifyInput)

/-- `offset`. -/
def offset : BitVec 14 := if x.enable then x.inOffset else M.regOffset

/-- `size`. -/
def size : BitVec 2 := if x.enable then x.inSize else M.regSize

/-- `field`. -/
def field : BitVec 32 := if x.enable then x.inField else M.regField

/-- `relative_offset`. -/
def relativeOffset : ℤ := (M.offset x).toNat - M.counter

/-- `index`. -/
def index : ℕ := ((M.offset x).extractLsb' 0 5).toNat

/-- `m_axis.tuser(15 downto 0)`. -/
def lengthField : BitVec 16 :=
  let length := x.sAxis.tuser.extractLsb' 0 16
  if M.state ≠ .idle ∧ M.state ≠ .extraSlot then length
  else if M.state = .extraSlot then 0
  else if M.size x = 0b01 then length + 1
  else if M.size x = 0b10 then length + 2
  else if M.size x = 0b11 then length + 4
  else length

/-- `m_axis.tuser`. -/
def tuser : BitVec 128 :=
  (if M.state = .extraSlot then 0#112 else x.sAxis.tuser.extractLsb' 16 112) ++ M.lengthField x

/-- `m_axis.tlast`. -/
def tlast : Bool :=
  if M.state = .waitExtraSlot then false
  else if M.state = .extraSlot then true
  else x.sAxis.tlast

/-- `m_axis.tvalid`. -/
def tvalid : Bool := if M.state = .extraSlot then true else x.sAxis.tvalid

/-- `s_axis_tready`. -/
def sAxisTready : Bool := if M.state = .extraSlot then false else x.mAxisTready

/-- `m_axis.tkeep`. -/
def tkeep : BitVec 32 :=
  if x.sAxis.tlast = false ∧ M.state ≠ .extraSlot then 0xffffffff
  else if M.size x = 0b01 ∧ x.sAxis.tlast = true ∧ M.state = .waitEop then
    x.sAxis.tkeep.extractLsb' 0 31 ++ 0b1#1
  else if M.size x = 0b10 ∧ x.sAxis.tlast = true ∧ M.state = .waitEop then
    x.sAxis.tkeep.extractLsb' 0 30 ++ 0b11#2
  else if M.size x = 0b11 ∧ x.sAxis.tlast = true ∧ M.state = .waitEop then
    x.sAxis.tkeep.extractLsb' 0 28 ++ 0b1111#4
  else if M.state = .extraSlot ∧ M.byteCount = 1 then 0x00000001
  else if M.state = .extraSlot ∧ M.byteCount = 2 then 0x00000003
  else if M.state = .extraSlot ∧ M.byteCount = 3 then 0x00000007
  else if M.state = .extraSlot ∧ M.byteCount = 4 then 0x0000000f
  else x.sAxis.tkeep

/-- `m_axis.tdata`. -/
def tdata : BitVec 256 :=
  if M.state = .extraSlot then extraData M.byteCount M.tempTdata
  else addData (M.size x) (M.relativeOffset x) (M.index x) x.sAxis.tdata (M.field x) M.tempTdata

/-- `m_axis`. -/
def mAxis : Axis := ⟨M.tdata x, M.tuser x, M.tkeep x, M.tvalid x, M.tlast x⟩

/-- The counter's next value. -/
def nextCounter : ℤ :=
  if x.transfers && x.sAxis.tlast then 0
  else if M.state = .extraSlot then 0
  else if x.transfers then M.counter + 32
  else M.counter

/-- `temp_tdata_next`. -/
def tempTdataNext : BitVec 32 := x.sAxis.tdata.extractLsb' 224 32

/-- The clock edge. -/
def clock : AddField :=
  let next := { M with counter := M.nextCounter x, tempTdata := tempTdataNext x }
  match M.state with
  | .idle =>
    if x.transfers then
      let next := { next with
        regOffset := x.inOffset, regSize := x.inSize, regField := x.inField }
      if 31 < (pktSize x.sAxis.tuser (M.size x)).toNat then
        { next with
          byteCount := (pktSize x.sAxis.tuser (M.size x)).extractLsb' 0 3
          state := .waitExtraSlot }
      else { next with state := .waitEop }
    else next
  | .waitExtraSlot =>
    if x.transfers && x.sAxis.tlast then { next with state := .extraSlot } else next
  | .extraSlot => if x.mAxisTready then { next with state := .idle } else next
  | .waitEop => if x.transfers && x.sAxis.tlast then { next with state := .idle } else next

/-- A beat comes in. -/
def comesIn : Bool := x.sAxis.tvalid && M.sAxisTready x

/-- A beat leaves. -/
def goesOut : Bool := M.tvalid x && x.mAxisTready

end AddField

/-- The beats that come in during a run. -/
def AddField.comes (M : AddField) : List ModifyInput → List ModifyInput
  | [] => []
  | x :: xs => if M.comesIn x then x :: (M.clock x).comes xs else (M.clock x).comes xs

/-- The beats that leave. -/
def AddField.leaves (M : AddField) : List ModifyInput → List Axis
  | [] => []
  | x :: xs => if M.goesOut x then M.mAxis x :: (M.clock x).leaves xs else (M.clock x).leaves xs

/-- The registers after a run. -/
def AddField.run (M : AddField) (xs : List ModifyInput) : AddField := xs.foldl clock M

end Hw

end FlowBlaze
