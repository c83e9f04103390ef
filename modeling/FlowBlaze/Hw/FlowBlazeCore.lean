import FlowBlaze.Hw.AxiSlave
import FlowBlaze.Hw.Conditions
import FlowBlaze.Hw.Core
import FlowBlaze.Hw.HostRows
import FlowBlaze.Hw.PipealuReg
/-!
# The whole core — `FlowBlaze_core.vhd`

The entities are put together: the way of the packets, the flow table, the
first TCAM and its RAM for flows that are not in the table, the comparators,
the second TCAM with the three RAMs of a row, the ALU, the registers and the
AXI-lite slave through which the host writes all of them.

`FlowBlazeReg.next` is one clock edge of one clock, outside of a reset. What
the host reads back, the counters and the debug registers are left out:
nothing else depends on them.
-/

namespace FlowBlaze

namespace Hw

theorem three_lt_twelve : 3 < 12 := by decide

theorem eight_le_thirtyTwo : 8 ≤ 32 := by decide

/-- The place of `full_header_d` that the ALU reads. -/
def place3 : Fin 12 := ⟨3, three_lt_twelve⟩

/-- `sam64`: the eight bytes at an offset. Offsets from 57 on reach behind
the 512 bits that the source slices; those bytes are zero here. -/
def sam64 (header : BitVec 432) (offset : BitVec 6) : BitVec 64 :=
  (header.setWidth 512).extractLsb' (8 * offset.toNat) 64

/-- Two fields of a header, at the offsets of a scope register. -/
def scopeKey (scope : BitVec 32) (header : BitVec 432) : Key :=
  sam64 header (scope.extractLsb' 16 6) ++ sam64 header (scope.extractLsb' 0 6)

/-- The 128 bits of a mask register. -/
def maskOf (words : Fin 4 → BitVec 32) : Key := words 3 ++ words 2 ++ words 1 ++ words 0

/-- An entry of the first TCAM matches. -/
def entryMatches1 (entry : BitVec 128 × BitVec 128) (word : BitVec 128) : Bool :=
  (word ^^^ entry.1) &&& ~~~entry.2 == 0

/-- A word of a register of `update_context`: what the flow table keeps of a
flow. -/
def updateContext (state : BitVec 8) (res : Fin 3 → BitVec 32) : Value :=
  0#22 ++ state ++ res 2 ++ res 1 ++ res 0

/-- The state of a flow, in its context. -/
def contextState (context : Value) : BitVec 8 := context.extractLsb' 96 8

/-- The registers of a flow, in its context. -/
def contextR (context : Value) (i : Fin 3) : BitVec 32 := context.extractLsb' (32 * i.val) 32

/-- The addresses that the TCAMs present where no entry matches, and the
generic `C_BASEADDR`. -/
structure FlowBlazeGenerics where
  baseaddr : BitVec 32
  missAddr1 : Fin 8
  missAddr2 : Fin 32

/-- The ports in one cycle. -/
structure FlowBlazeIn where
  s0Axis : Axis
  m0AxisTready : Bool
  axi : AxiIn
  wdata : BitVec 32

/-- The registers and memories. -/
structure FlowBlazeReg where
  way : CoreReg
  timer : BitVec 64
  random : BitVec 32
  axi : AxiSlave
  regs : RegisterFile
  cam1 : Fin 8 → Option (BitVec 128 × BitVec 128)
  cam2 : Fin 32 → Option (BitVec 120 × BitVec 120)
  ram1 : Fin 32 → BitVec 32
  ram2 : Fin 32 → BitVec 32
  ram3 : Fin 32 → BitVec 32
  ram4 : Fin 32 → BitVec 32
  matchAddrTcam1 : Fin 8
  flowStateTcam1 : BitVec 32
  flowStateTcam2 : BitVec 32
  sh4 : Fin 5 → BitVec 32
  rD : Fin 3 → BitVec 32
  rDD : Fin 3 → BitVec 32
  table : CuckooReg
  pipealu : PipealuReg

namespace FlowBlazeReg

variable (g : FlowBlazeGenerics) (σ : FlowBlazeReg) (x : FlowBlazeIn)

/-! ## Signals -/

/-- What is configured in this cycle, as the way of the packets reads it. -/
def config : CoreConfig where
  pause := σ.regs.pause
  regTest0 := σ.regs.regTest0
  offO := σ.regs.offO
  lenO := σ.regs.lenO
  cam := ⟨σ.regs.tcamDataIn, σ.regs.tcamMask, σ.cam2⟩
  missAddr := g.missAddr2
  ram3 := σ.ram3
  ram4 := σ.ram4

/-- `full_input_1`. -/
def fullInput1 : BitVec 128 := scopeKey σ.regs.lookupScope σ.way.fullHeader

/-- `full_input_ht`. -/
def fullInputHt : Key := σ.fullInput1 &&& maskOf σ.regs.maskLookup

/-- `match_ht`. -/
def matchHt : Bool := σ.table.hit

/-- `flow_context`. -/
def flowContext : Value := σ.table.searchValue

/-- `R1` to `R3`. -/
def r (i : Fin 3) : BitVec 32 := if σ.matchHt then contextR σ.flowContext i else 0

/-- The state in `full_input_2`. -/
def state : BitVec 8 :=
  if σ.matchHt then contextState σ.flowContext else σ.flowStateTcam1.extractLsb' 0 8

/-- What the comparators compare. -/
def condInputs : CondInputs := ⟨σ.regs.gr, σ.r, σ.way.o, σ.timer.extractLsb' 7 32⟩

/-- The ports of the way. -/
def coreIn : CoreIn where
  s0Axis := x.s0Axis
  m0AxisTready := x.m0AxisTready
  conditions := Hw.conditions σ.regs.cr σ.condInputs
  state := σ.state
  timer := σ.timer
  random := σ.random
  res1 := σ.pipealu.res3 0

/-- `match_addr_tcam1`, before its register. -/
def matchAddr1 : Fin 8 :=
  ((List.finRange 8).find? fun i => (σ.cam1 i).any fun e => entryMatches1 e σ.fullInput1).getD
    g.missAddr1

/-- `flow_state_tcam2_d3`. -/
def flowStateTcam2D3 : BitVec 32 := σ.sh4 (Fin.last 4)

/-- `update_key`. -/
def updateKey : Key :=
  scopeKey σ.regs.updateScope (σ.way.fullHeaderD place8) &&& maskOf σ.regs.maskUpdate

/-- `update_context`: the results of the first three lanes, and the next
state. -/
def newContext : Value :=
  updateContext (σ.flowStateTcam2D3.extractLsb' 0 8) fun i => σ.pipealu.res3 i.castSucc

/-- `address`. -/
def address : BitVec 32 := σ.axi.address

/-- `write_enable`. -/
def writeEnable : Bool := σ.axi.writeEnable

/-- The ports of the flow table. -/
def cuckooIn : CuckooIn :=
  σ.way.controller.cuckooIn
    { reset := false
      enable := σ.regs.pause == 0
      we := σ.writeEnable && (isHtAddress σ.address && σ.address.extractLsb' 2 3 == 0b111)
      rd := σ.axi.readEnable && isHtAddress σ.address
      inputDin := rowOfWords σ.regs.htDataIn
      addr := σ.address.extractLsb' 5 12
      preInsert := false
      insert := σ.way.actionD3.extractLsb' 0 16 == 0xFF00
      key := σ.updateKey
      value := σ.newContext
      remove := σ.way.actionD3.extractLsb' 0 16 == 0xFFFF
      search := false
      searchKey := σ.fullInputHt
      clearCountCollision := σ.regs.clearCountCollision }

/-- The ports of the ALU. -/
def pipealuIn : PipealuPorts where
  wea := σ.writeEnable && (σ.address.extractLsb' 16 16 == 0x8003 &&
    σ.address.extractLsb' 14 2 == 0b00)
  addra := σ.address.extractLsb' 2 12
  dina := x.wdata
  instruction := σ.flowStateTcam2.extractLsb' 8 8
  data := ⟨σ.way.fullHeaderD place3, σ.rDD, σ.regs.gr⟩

/-- The ports of `REG_WRITE_PROCESS`. -/
def regIn : RegIn where
  aresetn := true
  writeEnable := σ.writeEnable
  address := σ.address
  wdata := x.wdata
  startd8 := σ.way.controller.startd place8
  aluGr := σ.pipealu.gr (σ.pipealuIn x)

/-! ## The host's memories -/

/-- `we_r1` to `we_r4`: the page of a RAM. -/
def isRamAddress (page : BitVec 24) : Bool :=
  σ.address.extractLsb' 8 24 == page && σ.address.extractLsb' 7 1 == 0

/-- `ram32x32dp`, the host's side. -/
def writeRam (page : BitVec 24) (ram : Fin 32 → BitVec 32) (i : Fin 32) : BitVec 32 :=
  if σ.writeEnable && σ.isRamAddress page && σ.address.extractLsb' 2 5 == BitVec.ofNat 5 i.val
  then x.wdata else ram i

/-- `cam1_we`. -/
def cam1We : Bool :=
  σ.writeEnable && (σ.address.extractLsb' 12 20 == 0x80010 &&
    σ.address.extractLsb' 9 3 == 0b000 && σ.address.extractLsb' 0 6 == 0b111100)

/-- The entries of the first TCAM. -/
def nextCam1 (i : Fin 8) : Option (BitVec 128 × BitVec 128) :=
  if σ.cam1We && σ.address.extractLsb' 6 3 == BitVec.ofNat 3 i.val then
    some (σ.regs.tcamDataIn 3 ++ σ.regs.tcamDataIn 2 ++ σ.regs.tcamDataIn 1 ++
        σ.regs.tcamDataIn 0,
      σ.regs.tcamMask 3 ++ σ.regs.tcamMask 2 ++ σ.regs.tcamMask 1 ++ σ.regs.tcamMask 0)
  else σ.cam1 i

/-- The entries of the second TCAM. -/
def nextCam2 (i : Fin 32) : Option (BitVec 120 × BitVec 120) :=
  if σ.writeEnable && cam2We σ.address &&
    σ.address.extractLsb' 6 5 == BitVec.ofNat 5 i.val
  then some (low120 σ.regs.tcamDataIn, low120 σ.regs.tcamMask) else σ.cam2 i

/-! ## One clock edge -/

/-- `R1d` to `R3dd` move with `startd`. -/
def shifts : Bool := σ.way.controller.shifts (σ.way.axisIn (σ.config g) (σ.coreIn x))

/-- **One clock edge.** -/
def next : FlowBlazeReg where
  way := σ.way.next (σ.config g) (σ.coreIn x)
  timer := σ.timer + 1
  random := σ.random ^^^ σ.random.rotateRight 19 ^^^ σ.random.rotateRight 8
  axi := σ.axi.clock g.baseaddr x.axi
  regs := σ.regs.clock (σ.regIn x)
  cam1 := σ.nextCam1
  cam2 := σ.nextCam2
  ram1 := σ.writeRam x 0x800200 σ.ram1
  ram2 := σ.writeRam x 0x800210 σ.ram2
  ram3 := σ.writeRam x 0x800220 σ.ram3
  ram4 := σ.writeRam x 0x800230 σ.ram4
  matchAddrTcam1 := σ.matchAddr1 g
  flowStateTcam1 := σ.ram1 (Fin.castLE eight_le_thirtyTwo σ.matchAddrTcam1)
  flowStateTcam2 := σ.ram2 σ.way.matchAddrTcam2
  sh4 := Fin.cons σ.flowStateTcam2 fun i : Fin 4 => σ.sh4 i.castSucc
  rD := if σ.shifts g x then σ.r else σ.rD
  rDD := if σ.shifts g x then σ.rD else σ.rDD
  table := σ.table.next σ.cuckooIn
  pipealu := σ.pipealu.next (σ.pipealuIn x)

/-! ## Runs -/

variable (ports : ℕ → FlowBlazeIn)

/-- The registers before each cycle of a run. -/
def run : ℕ → FlowBlazeReg
  | 0 => σ
  | t + 1 => (run t).next g (ports t)

/-- What is configured in each cycle. -/
def configAt (t : ℕ) : CoreConfig := (σ.run g ports t).config g

/-- The ports of the way in each cycle. -/
def wayPorts (t : ℕ) : CoreIn := (σ.run g ports t).coreIn (ports t)

/-- The ports of the flow table in each cycle. -/
def tablePorts (t : ℕ) : CuckooIn := (σ.run g ports t).cuckooIn

/-- The ports of the ALU in each cycle. -/
def aluPorts (t : ℕ) : PipealuPorts := (σ.run g ports t).pipealuIn (ports t)

/-- The stream ports of the controller in each cycle. -/
def axisPorts : ℕ → AxisIn := σ.way.axisPorts (σ.configAt g ports) (σ.wayPorts g ports)

variable {g σ ports}

/-- **The packets go their way** in a run of the whole core. -/
theorem way_run (t : ℕ) : (σ.run g ports t).way =
    σ.way.run (σ.configAt g ports) (σ.wayPorts g ports) t := by
  induction t with
  | zero => rfl
  | succ t ih =>
    change (σ.run g ports t).way.next _ _ = CoreReg.next _ _ _
    rw [ih]
    rfl

/-- **The flow table runs** on the ports that the core drives. -/
theorem table_run (t : ℕ) :
    (σ.run g ports t).table = Hw.run σ.table (σ.tablePorts g ports) t := by
  induction t with
  | zero => rfl
  | succ t ih =>
    change (σ.run g ports t).table.next _ = CuckooReg.next _ _
    rw [ih]
    rfl

/-- And so does the ALU. -/
theorem pipealu_run (t : ℕ) :
    (σ.run g ports t).pipealu = σ.pipealu.run (σ.aluPorts g ports) t := by
  induction t with
  | zero => rfl
  | succ t ih =>
    change (σ.run g ports t).pipealu.next _ = PipealuReg.next _ _
    rw [ih]
    rfl

end FlowBlazeReg

end Hw

end FlowBlaze
