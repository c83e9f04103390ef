import FlowBlaze.Common.IndexSizes
import Mathlib.Data.Nat.Bitwise
import Mathlib.Data.List.FinRange
/-!
# Programming the second TCAM — `programmer.py`

`write_tcam2` turns every row of a stage into a value and a mask of 32-bit
words and sends them to the board as register writes. The words are
Python integers, so naturals here; the board cuts them to 32 bits. A set
mask bit means that the bit does not matter. A call that ends in an
exception or an exit has no result.
-/

namespace FlowBlaze

namespace Loader

/-- The condition results of `fb_defines.py`. -/
inductive FbResult
  | fbFalse
  | fbTrue
  | fbDontCare
  | fbExact
deriving DecidableEq, Repr

/-- The first operand of an exact match, as `pack_conditions` keeps it. -/
inductive HeaderField
  | eventField (value : String)
  | pktField (offset length : ℕ)
deriving DecidableEq, Repr

/-- What `write_tcam2_entry` reads of a packed condition: whether it is an
exact match, and then the field and the constant. -/
inductive PackedCondition
  | register
  | exactMatch (op0 : HeaderField) (op1 : ℕ)
deriving DecidableEq, Repr

/-- `PORTS`. -/
def ports : List ℕ := [0x01, 0x04, 0x10, 0x40]

/-- `PORTS[i - 1]`: index −1 is the last. -/
def portsAt (i : ℕ) : Option ℕ := if i = 0 then ports[3]? else ports[i - 1]?

/-- `TCAM2_DATA_IN`. -/
def tcam2DataIn (i : Fin 4) : ℕ := 0x80011000 + i * 4

/-- `TCAM2_MASK`. -/
def tcam2Mask (i : Fin 8) : ℕ := 0x80011020 + i * 4

/-- `mask_from_field`. -/
def maskFromField : HeaderField → Option ℕ
  | .eventField _ => some 0xffffff00
  | .pktField _ length =>
    if length = 4 then some 0x0
    else if length = 3 then some 0xff000000
    else if length = 2 then some 0xffff0000
    else if length = 1 then some 0xffffff00
    else none

/-- `find_hf_position`: a field that is not in the list counts as the
first. -/
def findHfPosition (hfs : List HeaderField) (field : HeaderField) : ℕ :=
  if field ∈ hfs then hfs.idxOf field else 0

/-- `hton`. -/
def hton (value mask : ℕ) : ℕ :=
  if mask = 0xffffff00 then value
  else if mask = 0xffff0000 then ((value &&& 0xff) <<< 8) ||| ((value &&& 0xff00) >>> 8)
  else if mask = 0 then
    ((value &&& 0x000000ff) <<< 24) ||| ((value &&& 0xff00) <<< 8) |||
      ((value &&& 0xff0000) >>> 8) ||| ((value &&& 0xff000000) >>> 24)
  else 0

/-- The words of an entry, and the number of register conditions seen. -/
structure Words where
  value : Fin 4 → ℕ
  mask : Fin 8 → ℕ
  j : ℕ

/-- The words before any condition: nothing matters. -/
def Words.start : Words := ⟨fun _ => 0, fun _ => 0xffffffff, 0⟩

/-- Clear the mask bit of the next register condition. -/
def Words.careBit (w : Words) : Words :=
  { w with mask := Function.update w.mask 0 (Nat.ldiff (w.mask 0) (1 <<< (w.j + 8))) }

/-- Put a field's value at a position, over two words: one byte in the
first, the rest in the second. -/
def Words.putField (w : Words) (pos v m : ℕ) : Option Words :=
  if h : pos + 1 < 4 then
    some { w with
      value := Function.update
        (Function.update w.value ⟨pos, by omega⟩
          (w.value ⟨pos, by omega⟩ ||| ((v &&& 0xff) <<< 24)))
        ⟨pos + 1, h⟩ (w.value ⟨pos + 1, h⟩ ||| (v >>> 8))
      mask := Function.update
        (Function.update w.mask ⟨pos, by omega⟩
          (w.mask ⟨pos, by omega⟩ &&& (0x00ffffff ||| (m <<< 24))))
        ⟨pos + 1, by omega⟩ (w.mask ⟨pos + 1, by omega⟩ &&& (0xff000000 ||| (m >>> 8))) }
  else none

/-- The loop body of `write_tcam2_entry`, for one result and its condition. -/
def resultStep (hfs : List HeaderField) (w : Words) (r : FbResult) (cond : PackedCondition) :
    Option Words :=
  match r, cond with
  | .fbDontCare, .register => some { w with j := w.j + 1 }
  | .fbDontCare, .exactMatch _ _ => some w
  | _, .exactMatch op0 op1 =>
    (maskFromField op0).bind fun m =>
      match op0 with
      | .eventField _ => (portsAt op1).bind fun v => w.putField (findHfPosition hfs op0) v m
      | .pktField _ _ => w.putField (findHfPosition hfs op0) (hton op1 m) m
  | .fbTrue, .register =>
    some { w.careBit with
      value := Function.update w.value 0 (w.value 0 ||| 1 <<< (w.j + 8))
      j := w.j + 1 }
  | .fbFalse, .register => some { w.careBit with j := w.j + 1 }
  | .fbExact, .register => none

/-- The loop over the results. There must be a condition for each. -/
def packResults (hfs : List HeaderField) (w : Words) :
    List FbResult → List PackedCondition → Option Words
  | [], _ => some w
  | _ :: _, [] => none
  | r :: results, cond :: conditions =>
    (resultStep hfs w r cond).bind fun w => packResults hfs w results conditions

/-- The state byte; state 255 leaves it out. -/
def Words.putState (w : Words) (state : ℕ) : Words :=
  if state ≠ 255 then
    { w with
      value := Function.update w.value 0 (w.value 0 ||| (state &&& 0xff))
      mask := Function.update w.mask 0 (w.mask 0 &&& 0xffffff00) }
  else w

/-- The register writes of an entry: the address and the value of each. -/
def Words.writes (w : Words) (entryNum : ℕ) : List (ℕ × ℕ) :=
  ((List.finRange 4).map fun i => (tcam2DataIn i, w.value i)) ++
    (List.finRange 8).map fun i => (tcam2Mask i ||| (entryNum <<< 6), w.mask i)

/-- `write_tcam2_entry`. -/
def writeTcam2Entry (hfs : List HeaderField) (conditions : List PackedCondition)
    (entryNum state : ℕ) (results : List FbResult) : Option (List (ℕ × ℕ)) :=
  (packResults hfs Words.start results conditions).map fun w =>
    (w.putState state).writes entryNum

/-- What `write_tcam2` reads of a row. -/
structure Entry where
  state : ℕ
  results : List FbResult

/-- `write_tcam2`: the rows of a stage, from a number on. -/
def writeTcam2 (hfs : List HeaderField) (conditions : List PackedCondition) :
    ℕ → List Entry → Option (List (ℕ × ℕ))
  | _, [] => some []
  | i, e :: entries =>
    (writeTcam2Entry hfs conditions i e.state e.results).bind fun ws =>
      (writeTcam2 hfs conditions (i + 1) entries).map (ws ++ ·)

end Loader

end FlowBlaze
