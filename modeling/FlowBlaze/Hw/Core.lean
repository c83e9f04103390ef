import FlowBlaze.Hw.AddField
import FlowBlaze.Hw.ControllerSpec
import FlowBlaze.Hw.DelayerAxi
import FlowBlaze.Hw.Pipealu
import FlowBlaze.Hw.Tcam
/-!
# The way of a packet — `FlowBlaze_core.vhd`

A packet waits in the delay line while it is decided what is done to it.
Fields of its header, the results of the comparators and the state of its
flow are the query of the second TCAM. The row that matches has a word in
`RAM3` and one in `RAM4`, and both go through shift registers to the end of
the delay line. The line stands still when the receiver does, or when the
second beat of a packet is waited for; the shift registers never do.

`CoreReg.next` is one clock edge. The state and the comparators' results in
the query are ports here, driven by the flow table, the first TCAM and the
comparators; so are the clock and the random number of the header, and the
result of the ALU that a field may be taken from. The host may change the
configuration from one cycle to the next.
-/

namespace FlowBlaze

namespace Hw

/-- What the host has configured: registers, the entries of the second TCAM
and the words of two RAMs. Where no entry matches, the TCAM presents some
address. -/
structure CoreConfig where
  pause : BitVec 32
  regTest0 : BitVec 32
  offO : Fin 3 → BitVec 6
  lenO : Fin 3 → BitVec 2
  cam : CamReg
  missAddr : Fin 32
  ram3 : Fin 32 → BitVec 32
  ram4 : Fin 32 → BitVec 32

/-- The ports in one cycle. -/
structure CoreIn where
  s0Axis : Axis
  m0AxisTready : Bool
  conditions : BitVec 16
  state : BitVec 8
  timer : BitVec 64
  random : BitVec 32
  res1 : BitVec 32

/-- The registers on the way. `O1` to `O3` are the output registers of
`sam32_c`, and `sh2` and `sh3` the shift registers of the action and its
value. -/
structure CoreReg where
  controller : Controller
  metadata1 : BitVec 32
  metadata2 : BitVec 32
  dstIf : BitVec 8
  srcIf : BitVec 8
  fullHeader : BitVec 432
  fullHeaderD : Fin 12 → BitVec 432
  o : Fin 3 → BitVec 32
  matchAddrTcam2 : Fin 32
  action : BitVec 32
  actionValue : BitVec 32
  sh2 : Fin 5 → BitVec 32
  sh3 : Fin 5 → BitVec 32
  delayer : DelayerReg 9
  writer : AddField
  modify : ModifyField

/-- The first of the twelve places of `full_header_d`. -/
def place0 : Fin 12 := ⟨0, Nat.succ_pos 11⟩

theorem eight_lt_twelve : 8 < 12 := by decide

/-- The place of `startd` at which a packet's action is there. -/
def place8 : Fin 12 := ⟨8, eight_lt_twelve⟩

/-- `sam32`: up to four bytes at an offset. -/
def sam32Sized (header : BitVec 432) (offset : BitVec 7) (size : BitVec 2) : BitVec 32 :=
  let shifted := sam32 header offset
  if size = 0b00 then 0#24 ++ shifted.extractLsb' 0 8
  else if size = 0b01 then 0#16 ++ shifted.extractLsb' 0 16
  else if size = 0b10 then 0#8 ++ shifted.extractLsb' 0 24
  else shifted

/-- `enable_write`. -/
def enableWrite (action : BitVec 32) : Bool :=
  action.extractLsb' 16 8 == 0x0A || action.extractLsb' 16 8 == 0x1A

namespace CoreConfig

variable (k : CoreConfig)

/-- `enable_delay`. -/
def enableDelay : Bool := k.pause == 0

/-- The address that the second TCAM presents for a query. -/
def matchAddr (fullInput2 : BitVec 120) : Fin 32 := (k.cam.lookup fullInput2).getD k.missAddr

end CoreConfig

namespace CoreReg

variable (k : CoreConfig) (r : CoreReg) (x : CoreIn)

/-! ## Signals -/

/-- `full_input_2`. -/
def fullInput2 : BitVec 120 := Hw.fullInput2 (r.o 2) (r.o 1) (r.o 0) x.conditions x.state

/-- `action_d3`. -/
def actionD3 : BitVec 32 := r.sh2 (Fin.last 4)

/-- `action_value_d3`. -/
def actionValueD3 : BitVec 32 := r.sh3 (Fin.last 4)

/-- `write_in_TREADY`. -/
def writeInTready : Bool := if r.writer.state = .extraSlot then false else x.m0AxisTready

/-- `write_TREADY`: the ready signal of `modify_field` is passed through. -/
def writeTready : Bool :=
  if enableWrite r.actionD3 then r.writeInTready x
  else if enableModify r.actionD3 then x.m0AxisTready
  else x.m0AxisTready

/-- `slot_delayer`. -/
def slotDelayer : Bool := !(r.controller.currState == .pkt1 && !x.s0Axis.tvalid)

/-- The ports of the delay line. In `WAIT5` no beat is offered to it. -/
def delayerIn : DelayerIn where
  aresetn := true
  enable := k.enableDelay
  slot := r.slotDelayer x
  s0Axis := { x.s0Axis with
    tvalid := if r.controller.currState = .wait5 then false else x.s0Axis.tvalid }
  m0Tready := r.writeTready x

/-- The stream ports of the controller. -/
def axisIn : AxisIn := ⟨x.s0Axis.tvalid, x.s0Axis.tlast, (r.delayerIn k x).s0Tready⟩

/-- `write_in`: what the delay line shows. -/
def writeIn : Axis := r.delayer.m0Axis (r.delayerIn k x)

/-- The ports of the two units that change packets. -/
def operation : ModifyInput where
  sAxis := r.writeIn k x
  mAxisTready := x.m0AxisTready
  inOffset := modifyOffset r.actionValueD3
  inSize := modifySize r.actionValueD3
  inField := modifyField r.actionD3 r.actionValueD3 x.res1
  enable := r.controller.startd place8

/-- The stream behind the output multiplexers. -/
def intM0Axis : Axis :=
  if enableWrite r.actionD3 then r.writer.mAxis (r.operation k x)
  else if enableModify r.actionD3 then r.modify.mAxis (r.operation k x)
  else r.writeIn k x

/-- `M0_AXIS_TUSER(31 downto 24)`. -/
def destination : BitVec 8 :=
  if k.regTest0 = 0 then r.actionD3.extractLsb' 24 8 else k.regTest0.extractLsb' 0 8

/-- `M0_AXIS`. -/
def m0Axis : Axis :=
  let axis := r.intM0Axis k x
  { axis with
    tuser := axis.tuser.extractLsb' 32 96 ++ r.destination k ++ axis.tuser.extractLsb' 0 24 }

/-! ## One clock edge -/

/-- `full_header`: the first beat, and what comes with the second. -/
def nextHeader : BitVec 432 :=
  let upper := r.fullHeader.extractLsb' 256 176
  let lower := r.fullHeader.extractLsb' 0 256
  match r.controller.currState with
  | .idle => if (r.axisIn k x).step then upper ++ x.s0Axis.tdata else r.fullHeader
  | .pkt1 =>
    if (r.axisIn k x).step then
      r.metadata2 ++ r.metadata1 ++ r.dstIf ++ x.timer.extractLsb' 7 40 ++
        x.random.extractLsb' 0 8 ++ r.srcIf ++ x.s0Axis.tdata.extractLsb' 0 48 ++ lower
    else r.fullHeader
  | .pkt2 => r.fullHeader
  | .wait5 => r.fullHeader

/-- The first beat of a packet is taken. -/
def takesFirst : Bool := r.controller.currState == .idle && (r.axisIn k x).step

/-- **One clock edge.** -/
def next : CoreReg where
  controller := r.controller.next (r.axisIn k x)
  metadata1 := if r.takesFirst k x then x.s0Axis.tuser.extractLsb' 32 32 else r.metadata1
  metadata2 := if r.takesFirst k x then x.s0Axis.tuser.extractLsb' 64 32 else r.metadata2
  dstIf := if r.takesFirst k x then x.s0Axis.tuser.extractLsb' 24 8 else r.dstIf
  srcIf := if r.takesFirst k x then x.s0Axis.tuser.extractLsb' 16 8 else r.srcIf
  fullHeader := r.nextHeader k x
  fullHeaderD :=
    if r.controller.shifts (r.axisIn k x) then
      Fin.cons r.fullHeader fun i : Fin 11 => r.fullHeaderD i.castSucc
    else r.fullHeaderD
  o := fun i => sam32Sized (r.fullHeaderD place0) (0#1 ++ k.offO i) (k.lenO i)
  matchAddrTcam2 := k.matchAddr (r.fullInput2 x)
  action := k.ram3 r.matchAddrTcam2
  actionValue := k.ram4 r.matchAddrTcam2
  sh2 := Fin.cons r.action fun i : Fin 4 => r.sh2 i.castSucc
  sh3 := Fin.cons r.actionValue fun i : Fin 4 => r.sh3 i.castSucc
  delayer := r.delayer.next (r.delayerIn k x)
  writer := r.writer.clock (r.operation k x)
  modify := r.modify.clock (r.operation k x)

/-- **After a reset**: the state machine waits, and the delay line is empty.
The words of the TCAM, of the RAMs and of the shift registers are not reset. -/
structure AfterReset (r : CoreReg) : Prop where
  controller : r.controller = .initial
  fullHeader : r.fullHeader = 0
  fullHeaderD : r.fullHeaderD = fun _ => 0
  o : r.o = fun _ => 0
  delayer : r.delayer = ⟨fun _ => 0, ⟨0, 0, 0, false, false⟩⟩
  writer : r.writer.state = .idle ∧ r.writer.counter = 0 ∧ r.writer.tempTdata = 0
  modify : r.modify.state = .idle ∧ r.modify.counter = 0

/-! ## Runs -/

variable (k : ℕ → CoreConfig) (ports : ℕ → CoreIn)

/-- The registers before each cycle of a run. -/
def run : ℕ → CoreReg
  | 0 => r
  | t + 1 => (run t).next (k t) (ports t)

/-- What the controller's stream ports are in a run. -/
def axisPorts (t : ℕ) : AxisIn := (r.run k ports t).axisIn (k t) (ports t)

/-- The line moves in this cycle. -/
def lineShifts (t : ℕ) : Bool := ((r.run k ports t).delayerIn (k t) (ports t)).shifts

/-- **The word of the row** that the query of this cycle matches. -/
def wordAsked (t : ℕ) : BitVec 32 :=
  (k (t + 1)).ram3 ((k t).matchAddr ((r.run k ports t).fullInput2 (ports t)))

end CoreReg

end Hw

end FlowBlaze
