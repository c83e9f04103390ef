import FlowBlaze.Hw.Pipealu
/-!
# The registers of the ALU — `pipealu.vhd`, `rams.vhd`

The pipelined ALU once more, now as registers and one clock edge, with its
command memory. The two descriptions agree: from the fifth cycle on the
registers hold what the signals say.
-/

namespace FlowBlaze

namespace Hw

theorem nine_le_sixteen : 9 ≤ 16 := by decide

/-- The ports in one cycle: the host's to the command memory, the
instruction, and the data. -/
structure PipealuPorts where
  wea : Bool
  addra : BitVec 12
  dina : BitVec 32
  instruction : BitVec 8
  data : PipealuIn

/-- The command memory `ram256x512` by its words, its output, the words of
the command one to three cycles later, and the registers of the stages. -/
structure PipealuReg where
  mem1 : BitVec 8 → Fin 16 → BitVec 32
  command : Command
  sh1 : Command
  sh2 : Command
  sh3 : Command
  extentedHeaderD : ExtentedHeader
  extentedHeaderDD : ExtentedHeader
  res1 : Lane → BitVec 32
  x1D : Lane → BitVec 32
  x1D2 : Lane → BitVec 32
  res2 : Lane → BitVec 32
  res3 : Lane → BitVec 32
  aluGR : Lane → BitVec 32

namespace PipealuReg

variable (r : PipealuReg) (x : PipealuPorts) (l : Lane)

/-- `X1a`. -/
def x1 : BitVec 32 := sam32 r.extentedHeaderDD ((r.sh1.op1x l).extractLsb' 0 7)

/-- `Y1a`. -/
def y1 : BitVec 32 :=
  if (r.sh1.op1c l).getLsbD 7 then (0 : BitVec 16) ++ r.sh1.op1y l ++ r.sh1.op1yy l
  else sam32 r.extentedHeaderDD ((r.sh1.op1y l).extractLsb' 0 7)

/-- `X2a`. -/
def x2 : BitVec 32 := mux3 (muxInputs r.res1 r.x1D) (r.sh2.op2x l)

/-- `Y2a`. -/
def y2 : BitVec 32 := mux3 (muxInputs r.res1 r.x1D) (r.sh2.op2y l)

/-- `X3a`. -/
def x3 : BitVec 32 := mux3 (muxInputs r.res2 r.x1D2) (r.sh3.op3x l)

/-- `Y3a`. -/
def y3 : BitVec 32 := mux3 (muxInputs r.res2 r.x1D2) (r.sh3.op3y l)

/-- `GR0` to `GR3`. -/
def gr : BitVec 32 := if (r.sh3.op3GR l).getLsbD 7 then r.aluGR l else x.data.inGR l

/-- A word of the command memory is written. -/
def writeMem : BitVec 8 → Fin 16 → BitVec 32 := fun a w =>
  if x.wea && x.addra.extractLsb' 4 8 == a && x.addra.extractLsb' 0 4 == BitVec.ofNat 4 w.val
  then x.dina else r.mem1 a w

/-- **One clock edge.** -/
def next : PipealuReg where
  mem1 := r.writeMem x
  command := fun i => r.mem1 x.instruction (Fin.castLE nine_le_sixteen i)
  sh1 := r.command
  sh2 := r.sh1
  sh3 := r.sh2
  extentedHeaderD := x.data.extentedHeader
  extentedHeaderDD := r.extentedHeaderD
  res1 := fun l => alu (r.x1 l) (r.y1 l) ((r.sh1.op1c l).extractLsb' 0 7)
  x1D := r.x1
  x1D2 := r.x1D
  res2 := fun l => alu (r.x2 l) (r.y2 l) ((r.sh2.op2c l).extractLsb' 0 7)
  res3 := fun l => alu (r.x3 l) (r.y3 l) ((r.sh3.op3c l).extractLsb' 0 7)
  aluGR := fun l => alu (r.x3 l) (r.y3 l) ((r.sh3.op3GR l).extractLsb' 0 7)

variable (ports : ℕ → PipealuPorts)

/-- The registers before each cycle. -/
def run : ℕ → PipealuReg
  | 0 => r
  | t + 1 => (run t).next (ports t)

/-- The command that is there in each cycle. -/
def commandAt (t : ℕ) : Command := (r.run ports t).command

/-- The data in each cycle. -/
def dataAt (t : ℕ) : PipealuIn := (ports t).data

/-- **The registers hold what the signals say.** -/
theorem res3_run (t : ℕ) : (r.run ports (t + 5)).res3 l =
    Pipealu.res3 (r.commandAt ports) (dataAt ports) (t + 5) l := rfl

end PipealuReg

end Hw

end FlowBlaze
