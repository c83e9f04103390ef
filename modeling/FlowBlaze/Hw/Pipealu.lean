import FlowBlaze.Common.IndexSizes
import Mathlib.Data.BitVec
/-!
# The pipelined ALU — `pipealu.vhd`, `alu.vhd`, `sam.vhd`

Three stages of four lanes. The first selects two words of the packet's
header and registers, or takes an immediate, the second and the third
select among the results of the stage before and its delayed first
operands, and each feeds an ALU. The last two words of the command say
what the third stage does with the global registers.

Signals are functions of the clock cycle. What a register held before
there was a cycle to fill it does not matter: the value of the first
cycle stands for it.
-/

namespace FlowBlaze

namespace Hw

/-- `shreg`: a signal that many cycles later. -/
def shreg {α : Type*} (clockCycles : ℕ) (dataIn : ℕ → α) (t : ℕ) : α := dataIn (t - clockCycles)

/-- `alu`. -/
def alu (opA opB : BitVec 32) (opCod : BitVec 7) : BitVec 32 :=
  if opCod = 0b0010000 then opA + opB
  else if opCod = 0b0010001 then opA - opB
  else if opCod = 0b0010010 then opA &&& opB
  else if opCod = 0b0010011 then opA ||| opB
  else if opCod = 0b0010100 then opA ^^^ opB
  else if opCod = 0b0010101 then opA + 1
  else if opCod = 0b0100000 then opA <<< 1
  else if opCod = 0b0100001 then opA >>> 1
  else if opCod = 0b1010101 then opB
  else opA

/-- `mux3`. -/
def mux3 (inputs : Fin 8 → BitVec 32) (opCod : BitVec 3) : BitVec 32 := inputs opCod.toFin

/-- `sam32` with size `"11"`: the four bytes at an offset. -/
def sam32 {w : ℕ} (header : BitVec w) (offset : BitVec 7) : BitVec 32 :=
  (header.setWidth 1024).extractLsb' (8 * offset.toNat) 32

/-- A word of the command memory: `doutb`, cut into the nine words of 32
bits that are read, the lowest first. -/
abbrev Command := Fin 9 → BitVec 32

/-- The data ports in one cycle. -/
structure PipealuIn where
  header : BitVec 432
  rin : Fin 3 → BitVec 32
  inGR : Fin 4 → BitVec 32

/-- The 656 bits of `extented_header`. -/
abbrev ExtentedHeader := BitVec (32 + 32 + 32 + 32 + 32 + 32 + 32 + 432)

/-- `extented_header`. -/
def PipealuIn.extentedHeader (p : PipealuIn) : ExtentedHeader :=
  p.inGR 3 ++ p.inGR 2 ++ p.inGR 1 ++ p.inGR 0 ++ p.rin 2 ++ p.rin 1 ++ p.rin 0 ++ p.header

/-- The four lanes, `a` to `d`. -/
abbrev Lane := Fin 4

/-- The first words of a command belong to the lanes. -/
theorem Lane.isWord (l : Lane) : l.val < 9 := l.isLt.trans (by decide)

namespace Command

variable (c : Command) (l : Lane)

/-- `Op1ax`, and of the other lanes. -/
def op1x : BitVec 8 := (c ⟨l.val, Lane.isWord l⟩).extractLsb' 0 8

/-- `Op1ay`. -/
def op1y : BitVec 8 := (c ⟨l.val, Lane.isWord l⟩).extractLsb' 8 8

/-- `Op1ayy`. -/
def op1yy : BitVec 8 := (c ⟨l.val, Lane.isWord l⟩).extractLsb' 16 8

/-- `Op1ac`. -/
def op1c : BitVec 8 := (c ⟨l.val, Lane.isWord l⟩).extractLsb' 24 8

/-- Two lanes share a word of the second stage. -/
def stage2 : BitVec 16 := (c ⟨4 + l.val / 2, by omega⟩).extractLsb' (16 * (l.val % 2)) 16

/-- `Op2ax`. -/
def op2x : BitVec 3 := (c.stage2 l).extractLsb' 0 3

/-- `Op2ay`. -/
def op2y : BitVec 3 := (c.stage2 l).extractLsb' 3 3

/-- `Op2ac`. -/
def op2c : BitVec 8 := (c.stage2 l).extractLsb' 8 8

/-- And of the third. -/
def stage3 : BitVec 16 := (c ⟨6 + l.val / 2, by omega⟩).extractLsb' (16 * (l.val % 2)) 16

/-- `Op3ax`. -/
def op3x : BitVec 3 := (c.stage3 l).extractLsb' 0 3

/-- `Op3ay`. -/
def op3y : BitVec 3 := (c.stage3 l).extractLsb' 3 3

/-- `Op3ac`. -/
def op3c : BitVec 8 := (c.stage3 l).extractLsb' 8 8

/-- `Op3GR0` to `Op3GR3`. -/
def op3GR : BitVec 8 := (c 8).extractLsb' (8 * l.val) 8

end Command

/-- What a `mux3` of the second or third stage selects from: the four
results of the stage before and the delayed first operands. -/
def muxInputs (res x : Lane → BitVec 32) (i : Fin 8) : BitVec 32 :=
  if h : i.val < 4 then res ⟨i.val, h⟩ else x ⟨i.val - 4, by omega⟩

/-! ## The circuit -/

namespace Pipealu

variable (command : ℕ → Command) (p : ℕ → PipealuIn) (t : ℕ) (l : Lane)

/-- `extented_header_dd`. -/
def extentedHeaderDD : ExtentedHeader := shreg 2 (fun t => (p t).extentedHeader) t

/-- `X1a`. -/
def x1 : BitVec 32 :=
  sam32 (extentedHeaderDD p t) ((shreg 1 (fun t => (command t).op1x l) t).extractLsb' 0 7)

/-- `Y1a`: the selected word, or the immediate. -/
def y1 : BitVec 32 :=
  let op1y := shreg 1 (fun t => (command t).op1y l) t
  let op1yy := shreg 1 (fun t => (command t).op1yy l) t
  if (shreg 1 (fun t => (command t).op1c l) t).getLsbD 7 then (0 : BitVec 16) ++ op1y ++ op1yy
  else sam32 (extentedHeaderDD p t) (op1y.extractLsb' 0 7)

/-- `Res1a`, in the cycle after its operands. -/
def res1 : BitVec 32 :=
  shreg 1 (fun t => alu (x1 command p t l) (y1 command p t l)
    ((shreg 1 (fun t => (command t).op1c l) t).extractLsb' 0 7)) t

/-- `X1a_d`. -/
def x1D : BitVec 32 := shreg 1 (fun t => x1 command p t l) t

/-- `X1a_d2`. -/
def x1D2 : BitVec 32 := shreg 1 (fun t => x1D command p t l) t

/-- `X2a`. -/
def x2 : BitVec 32 :=
  mux3 (muxInputs (res1 command p t) (x1D command p t)) (shreg 2 (fun t => (command t).op2x l) t)

/-- `Y2a`. -/
def y2 : BitVec 32 :=
  mux3 (muxInputs (res1 command p t) (x1D command p t)) (shreg 2 (fun t => (command t).op2y l) t)

/-- `Res2a`. -/
def res2 : BitVec 32 :=
  shreg 1 (fun t => alu (x2 command p t l) (y2 command p t l)
    ((shreg 2 (fun t => (command t).op2c l) t).extractLsb' 0 7)) t

/-- `X3a`. -/
def x3 : BitVec 32 :=
  mux3 (muxInputs (res2 command p t) (x1D2 command p t)) (shreg 3 (fun t => (command t).op3x l) t)

/-- `Y3a`. -/
def y3 : BitVec 32 :=
  mux3 (muxInputs (res2 command p t) (x1D2 command p t)) (shreg 3 (fun t => (command t).op3y l) t)

/-- `Res3a` to `Res3d`. -/
def res3 : BitVec 32 :=
  shreg 1 (fun t => alu (x3 command p t l) (y3 command p t l)
    ((shreg 3 (fun t => (command t).op3c l) t).extractLsb' 0 7)) t

/-- `aluGR0` to `aluGR3`. -/
def aluGR : BitVec 32 :=
  shreg 1 (fun t => alu (x3 command p t l) (y3 command p t l)
    ((shreg 3 (fun t => (command t).op3GR l) t).extractLsb' 0 7)) t

/-- `GR0` to `GR3`: a global register keeps its value unless its write
enable is set. -/
def gr : BitVec 32 :=
  if (shreg 3 (fun t => (command t).op3GR l) t).getLsbD 7 then aluGR command p t l
  else (p t).inGR l

end Pipealu

/-! ## What one command computes -/

namespace Command

variable (c : Command) (p : PipealuIn) (l : Lane)

/-- The first operand of a lane. -/
def operand1 : BitVec 32 := sam32 p.extentedHeader ((c.op1x l).extractLsb' 0 7)

/-- Its second operand. -/
def operand2 : BitVec 32 :=
  if (c.op1c l).getLsbD 7 then (0 : BitVec 16) ++ c.op1y l ++ c.op1yy l
  else sam32 p.extentedHeader ((c.op1y l).extractLsb' 0 7)

/-- The first stage. -/
def first : BitVec 32 :=
  alu (c.operand1 p l) (c.operand2 p l) ((c.op1c l).extractLsb' 0 7)

/-- The second stage. -/
def second : BitVec 32 :=
  alu (mux3 (muxInputs (c.first p) (c.operand1 p)) (c.op2x l))
    (mux3 (muxInputs (c.first p) (c.operand1 p)) (c.op2y l)) ((c.op2c l).extractLsb' 0 7)

/-- The third stage, with the opcode for a lane or a global register. -/
def third (opCod : BitVec 8) : BitVec 32 :=
  alu (mux3 (muxInputs (c.second p) (c.operand1 p)) (c.op3x l))
    (mux3 (muxInputs (c.second p) (c.operand1 p)) (c.op3y l)) (opCod.extractLsb' 0 7)

/-- The result of a lane. -/
def result : BitVec 32 := c.third p l (c.op3c l)

/-- The global registers afterwards. -/
def globals : BitVec 32 :=
  if (c.op3GR l).getLsbD 7 then c.third p l (c.op3GR l) else p.inGR l

end Command

namespace Pipealu

variable (command : ℕ → Command) (p : ℕ → PipealuIn) (t : ℕ) (l : Lane)

/-- **The circuit is a pipeline.** What a lane shows is what the command of
four cycles before computes from the data of five cycles before. -/
theorem res3_eq : res3 command p (t + 5) l = (command (t + 1)).result (p t) l := rfl

/-- The global registers take the same path, but their write enables are
those of the command that comes one cycle later. -/
theorem gr_eq : gr command p (t + 5) l =
    if ((command (t + 2)).op3GR l).getLsbD 7 then
      (command (t + 1)).third (p t) l ((command (t + 1)).op3GR l)
    else (p (t + 5)).inGR l := rfl

end Pipealu

end Hw

end FlowBlaze
