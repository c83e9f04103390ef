import FlowBlaze.Common.IndexSizes
import Mathlib.Data.Fintype.Basic
import Mathlib.Tactic.FinCases
/-!
# The comparators — `conditions.vhd`

Four comparators, one behind each of the registers `CR1` to `CR4`. A
register holds an opcode and the selectors of two operands, and the bit
of its comparator says whether the comparison holds. The block is written
out four times in the source, with other names for the variables; it is
one definition here.

The process is taken as the combinational circuit it describes: it leaves
`timer` out of its list of signals, which a synthesis tool ignores.
-/

namespace FlowBlaze

namespace Hw

/-- What the comparators can select: `GR0` to `GR3`, `R1` to `R3`, `O1` to
`O3` and the timer. -/
structure CondInputs where
  gr : Fin 4 → BitVec 32
  r : Fin 3 → BitVec 32
  o : Fin 3 → BitVec 32
  timer : BitVec 32

/-- The operand with a selector. -/
def CondInputs.select (x : CondInputs) (s : BitVec 8) : BitVec 32 :=
  if s = 0x0A then x.gr 0
  else if s = 0x0B then x.gr 1
  else if s = 0x0C then x.gr 2
  else if s = 0x0D then x.gr 3
  else if s = 0x0E then x.r 0
  else if s = 0x0F then x.r 1
  else if s = 0x1A then x.r 2
  else if s = 0x1C then x.o 0
  else if s = 0x1D then x.o 1
  else if s = 0x1E then x.o 2
  else if s = 0x1F then x.timer
  else 0

/-- The comparison with an opcode; another opcode never holds. -/
def comparison (opcode : BitVec 8) (op1 op2 : BitVec 32) : Bool :=
  (opcode == 0x0A && op2.ult op1) || (opcode == 0x0B && op2.ule op1) ||
    (opcode == 0x0C && op1.ult op2) || (opcode == 0x0D && !op2.ule op1) ||
    (opcode == 0x0E && op1 == op2) || (opcode == 0x0F && op1 != op2)

/-- **One comparator**, with the contents of its register. -/
def comparator (cr : BitVec 32) (x : CondInputs) : Bool :=
  comparison (cr.extractLsb' 16 8) (x.select (cr.extractLsb' 8 8)) (x.select (cr.extractLsb' 0 8))

/-- `conditions`. -/
def conditions (cr : Fin 4 → BitVec 32) (x : CondInputs) : BitVec 16 :=
  0#12 ++ BitVec.ofBool (comparator (cr 3) x) ++ BitVec.ofBool (comparator (cr 2) x) ++
    BitVec.ofBool (comparator (cr 1) x) ++ BitVec.ofBool (comparator (cr 0) x)

/-- A register write from the host: `CR1` to `CR4` have addresses of
their own. -/
def condWrite (cr : Fin 4 → BitVec 32) (address wdata : BitVec 32) : Fin 4 → BitVec 32 := fun k =>
  if address = 0x80ffff48 + BitVec.ofNat 32 (4 * k) then wdata else cr k

/-- The writes of a host program, in order. -/
def condProgram (cr : Fin 4 → BitVec 32) (writes : List (ℕ × ℕ)) : Fin 4 → BitVec 32 :=
  writes.foldl (fun cr w => condWrite cr (BitVec.ofNat 32 w.1) (BitVec.ofNat 32 w.2)) cr

/-- Bit `i` is the comparator of register `i`. -/
theorem getLsbD_conditions (cr : Fin 4 → BitVec 32) (x : CondInputs) (i : Fin 4) :
    (conditions cr x).getLsbD i = comparator (cr i) x := by
  rw [conditions, BitVec.getLsbD_append, BitVec.getLsbD_append, BitVec.getLsbD_append,
    BitVec.getLsbD_append]
  fin_cases i <;> simp

end Hw

end FlowBlaze
