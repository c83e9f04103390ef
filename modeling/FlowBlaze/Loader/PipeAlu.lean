import FlowBlaze.Common.IndexSizes
import Mathlib.Data.Fin.VecNotation
import Mathlib.Data.List.Basic
/-!
# Programming the pipelined ALU — `programmer.py`

`pipe_alu_actions_allocator` turns the updates of a row into nine words of
the command memory. The distinct operands become the lanes of the first
stage, an update the lane of the second stage that has the number of its
destination. In state 0 an update of a global register by a constant is
no instruction: the register is written at once.

Of the JSON objects the actions are, an operand keeps its type and its
name or value. A call that ends in an exception or an exit has no result.
-/

namespace FlowBlaze

namespace Loader

/-- The opcode of an action, as far as it is told apart. -/
inductive FbOpcode
  | xtraSum
  | xtraMinus
  | xtraMultiply
  | xtraDivide
  | other (opcode : String)
deriving DecidableEq, Repr

/-- An operand: its type, and its name or, for a constant, its value. -/
inductive FbOperand
  | xtraLocalRegister (name : ℕ)
  | xtraGlobalRegister (name : ℕ)
  | xtraIntegerConst (value : ℕ)
  | xtraReadOnlyRegister (name : String)
  | other (type name : String)
deriving DecidableEq, Repr

/-- An action. -/
structure FbAction where
  opcode : FbOpcode
  op0 : FbOperand
  op1 : FbOperand
  op2 : FbOperand
deriving DecidableEq, Repr

/-- `is_an_update`. -/
def isAnUpdate : FbOpcode → Bool
  | .xtraSum | .xtraMinus | .xtraMultiply | .xtraDivide => true
  | .other _ => false

/-- `GRS`. -/
def grs : List ℕ := [0x80000100, 0x80000104, 0x80000108, 0x8000010c]

/-- `REGS_OFFSET`. -/
def regsOffset : List ℕ := [0x36, 0x3a, 0x3e]

/-- `GRS_OFFSET`. -/
def grsOffset : List ℕ := [0x42, 0x46, 0x4a, 0x4e]

/-- `TS_OFFSET`. -/
def tsOffset : ℕ := 0x28

/-- `int(op['name'])`. The other operands have no name that is a number. -/
def FbOperand.name : FbOperand → Option ℕ
  | .xtraLocalRegister name | .xtraGlobalRegister name => some name
  | _ => none

def FbOperand.isGlobal : FbOperand → Bool
  | .xtraGlobalRegister _ => true
  | _ => false

/-- `int(op['value'])` of a constant. -/
def FbOperand.constant : FbOperand → Option ℕ
  | .xtraIntegerConst value => some value
  | _ => none

/-- The update is not an instruction: in state 0 it sets a global register
to a constant. -/
def FbAction.configures (state : ℕ) (a : FbAction) : Bool :=
  a.op2.isGlobal && state == 0 && a.op0.constant.isSome

/-! ## The operands -/

/-- What the first loop has collected, and the register writes made. -/
structure Packing where
  packedInputs : List FbOperand
  nbActions : ℕ
  written : List (ℕ × ℕ)

/-- `if input not in packed_inputs: packed_inputs.append(input)`. -/
def appendInput (packedInputs : List FbOperand) (input : FbOperand) : List FbOperand :=
  if input ∈ packedInputs then packedInputs else packedInputs ++ [input]

/-- The body of the first loop. -/
def packAction (state : ℕ) (P : Packing) (a : FbAction) : Option Packing :=
  if !isAnUpdate a.opcode then some P
  else if a.configures state then do
    let name ← a.op2.name
    let addr ← grs[name]?
    let value ← a.op0.constant
    return { P with written := P.written ++ [(addr, value)] }
  else
    some { P with
      packedInputs := appendInput (appendInput P.packedInputs a.op0) a.op1
      nbActions := P.nbActions + 1 }

/-! ## The words -/

/-- `words`. -/
abbrev PipeAluWords := Fin 9 → ℕ

/-- The word of an operand. -/
def inputWord : FbOperand → Option ℕ
  | .xtraLocalRegister name => regsOffset[name]?
  | .xtraGlobalRegister name => grsOffset[name]?
  | .xtraIntegerConst value =>
    some ((((value &&& 0xff) <<< 16) ||| ((value &&& 0xff00) <<< 8)) ||| 0xd5000000)
  | .xtraReadOnlyRegister _ => some tsOffset
  | .other _ _ => some 0

/-- The body of the second loop. -/
def writeInput (words : PipeAluWords) (pin : FbOperand × ℕ) : Option PipeAluWords := do
  let w ← inputWord pin.1
  if h : pin.2 < 9 then some (Function.update words ⟨pin.2, h⟩ w) else none

/-- The loop that looks for an operand among the packed ones. -/
def position (packedInputs : List FbOperand) (input : FbOperand) : ℕ :=
  packedInputs.zipIdx.foldl (fun op p => if input = p.1 then p.2 else op) 0

/-- `FB_PLUS` and `FB_MINUS`; the other updates have no opcode. -/
def pipeOpcode : FbOpcode → ℕ
  | .xtraSum => 0x10
  | .xtraMinus => 0x11
  | _ => 0

/-- `words[i] |= w`. -/
def orWord (words : PipeAluWords) (i : Fin 9) (w : ℕ) : PipeAluWords :=
  Function.update words i (words i ||| w)

/-- The body of the third loop. -/
def allocateAction (state : ℕ) (packedInputs : List FbOperand) (words : PipeAluWords)
    (a : FbAction) : Option PipeAluWords :=
  if !isAnUpdate a.opcode || a.configures state then some words
  else
    let words := if a.op2.isGlobal then Function.update words 8 0x00000080 else words
    let op0 := position packedInputs a.op0
    let op1 := position packedInputs a.op1
    a.op2.name.map fun pos =>
      let w := op0 ||| (op1 <<< 3) ||| (pipeOpcode a.opcode <<< 8)
      if pos = 0 then orWord words 4 w
      else if pos = 1 then orWord words 4 (w <<< 16)
      else if pos = 2 then orWord words 5 w
      else if pos = 3 then orWord words 5 (w <<< 16)
      else words

/-- The words of a row without instructions: the three local registers
pass through. -/
def idleWords : PipeAluWords :=
  ![0x36, 0x3a, 0x3e, 0x0, 0x00010000, 0x00030002, 0x00010000, 0x00030002, 0x00000000]

/-- The third stage passes the lanes on. -/
def passWords (words : PipeAluWords) : PipeAluWords :=
  Function.update (Function.update words 6 0x00010000) 7 0x00030002

/-- **`pipe_alu_actions_allocator`**: the register writes it makes, and the
words it returns. -/
def pipeAluActionsAllocator (actions : List FbAction) (state : ℕ) :
    Option (List (ℕ × ℕ) × PipeAluWords) :=
  (actions.foldlM (packAction state) ⟨[], 0, []⟩).bind fun P =>
    if 4 < P.nbActions ∨ 4 < P.packedInputs.length then none
    else
      (P.packedInputs.zipIdx.foldlM writeInput fun _ => 0).bind fun words =>
        (actions.foldlM (allocateAction state P.packedInputs) (Function.update words 8 0)).map
          fun words => (P.written, if P.nbActions = 0 then idleWords else passWords words)

end Loader

end FlowBlaze
