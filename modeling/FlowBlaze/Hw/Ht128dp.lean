import FlowBlaze.Common.IndexSizes
import FlowBlaze.Common.HashTables
/-!
# The hash tables — `ht128dp.vhd`

Four block RAMs side by side, each with its own hash of the key. An
operation takes two cycles: in the cycle it starts, the RAMs are read at
the addresses of its key and the key is registered; in the next, the
control logic decides on what was read and writes one RAM. The write
port and the read port of an insertion share one address, so `addrb`
belongs to the AXI interface first, then to a pending write, and to the
operation starting only when nothing else wants it.

`HtReg` holds the registers and the RAMs, `control` the combinational
decision, `HtReg.next` one clock edge. Signals keep their names.
-/

namespace FlowBlaze

namespace Hw

open Common

/-- `std_logic_vector(key_len-1 downto 0)`. -/
abbrev Key := BitVec 128

/-- `std_logic_vector(value_len-1 downto 0)`. -/
abbrev Value := BitVec 126

/-- One of the four tables. -/
abbrev Way := Fin 4

/-- An address of one table. -/
abbrev Addr := BitVec 10

/-- The addresses are the numbers below 1024. -/
def addrEquiv : Fin 1024 ≃ Addr where
  toFun i := BitVec.ofNat 10 i.val
  invFun a := ⟨a.toNat, a.isLt⟩
  left_inv i := by simp
  right_inv a := by simp

instance : Fintype Addr := Fintype.ofEquiv (Fin 1024) addrEquiv

theorem card_addr : Fintype.card Addr = 1024 := by
  rw [← Fintype.card_congr addrEquiv, Fintype.card_fin]

/-- A row of a table: from the top, the update flag, the valid bit, the
value and the key. -/
structure Row where
  upd : Bool
  valid : Bool
  value : Value
  key : Key
deriving DecidableEq

/-- What a row stores. -/
def Row.entry (r : Row) : Option (Key × Value) :=
  if r.valid then some (r.key, r.value) else none

/-- `hashed_query` and `hashed_insert`: the two halves of the key, the
upper one rotated. -/
def hashed (key : Key) : BitVec 64 :=
  key.extractLsb' 0 64 ^^^ (key.extractLsb' 64 64).rotateRight 7

/-- `addr_query1..4` and `addr_insert1..4`. -/
def wayAddr (i : Way) (key : Key) : Addr :=
  let h := hashed key
  match i with
  | 0 => h.extractLsb' 8 10 ^^^ h.extractLsb' 0 10 ^^^ h.extractLsb' 40 10
  | 1 => h.extractLsb' 10 10 ^^^ h.extractLsb' 50 10
  | 2 => h.extractLsb' 20 10 ^^^ h.extractLsb' 54 10
  | 3 => h.extractLsb' 30 10 ^^^ h.extractLsb' 15 10

/-- The keys of this family share their row in each of the tables. -/
def collidingKey (m : ℕ) : Key := BitVec.ofNat 128 (2 ^ 71 * m + m)

/-- The tables in the order the control logic tries them. -/
def ways : List Way := [0, 1, 2, 3]

@[simp] theorem mem_ways (i : Way) : i ∈ ways := by
  revert i
  decide

/-- The input ports in one cycle. -/
structure HtIn where
  reset : Bool
  search : Bool
  we : Bool
  rd : Bool
  inputDin : Row
  addr : BitVec 12
  remove : Bool
  insert : Bool
  update : Bool
  key : Key
  value : Value
  searchKey : Key
  clearCountCollision : Bool

/-- The RAMs and the registers. -/
structure HtReg where
  htMem : Way → Addr → Row
  doutQuery : Way → Row
  doutInsert : Way → Row
  searchD : Key
  keyD : Key
  valueD : Value
  updateD : Bool
  removeD : Bool
  insertD : Bool
  countCollision : BitVec 32
  countItem : BitVec 32
  countSelectKick : BitVec 16

/-! ## The control logic -/

/-- What the control logic drives. -/
structure Control where
  dinInsert : Way → Row
  memoryWriteEnable : Way → Bool
  kicked : Bool
  kickedValue : Value
  kickedKey : Key
  countCollisionNext : BitVec 32
  countItemNext : BitVec 32

/-- Make the row to be written to one table a live entry, and write it. -/
def Control.fill (c : Control) (i : Way) : Control :=
  { c with
    dinInsert := Function.update c.dinInsert i
      { c.dinInsert i with upd := true, valid := true }
    memoryWriteEnable := Function.update c.memoryWriteEnable i true }

namespace HtReg

variable (r : HtReg)

/-- The row read from a table is a live entry of the registered key. -/
def found (i : Way) : Bool :=
  (r.doutInsert i).key == r.keyD && (r.doutInsert i).valid

/-- The signals before any branch is taken: the row to write is the
registered entry, not valid. -/
def controlDefault : Control where
  dinInsert _ := ⟨false, false, r.valueD, r.keyD⟩
  memoryWriteEnable _ := false
  kicked := false
  kickedValue := 0
  kickedKey := 0
  countCollisionNext := r.countCollision
  countItemNext := r.countItem

/-- `remove_d='1'`: overwrite the first table the key was found in. -/
def controlRemove (c : Control) : Control :=
  match ways.find? r.found with
  | some i =>
    { c with
      countItemNext := r.countItem - 1
      memoryWriteEnable := Function.update c.memoryWriteEnable i true }
  | none => c

/-- `updated`: an update or an insertion found its key. -/
def updated : Bool := (r.updateD || r.insertD) && ways.any r.found

/-- Overwrite every table the key was found in. -/
def controlUpdate (c : Control) : Control :=
  (ways.filter r.found).foldl Control.fill c

/-- The table a collision writes to, which depends on the clock cycle. -/
def kickWay : Way := (r.countSelectKick.extractLsb' 0 2).toFin

/-- The key is not present: take the first table whose row is free, or
kick out the entry of one. -/
def controlInsert (c : Control) : Control :=
  match ways.find? fun i => !(r.doutInsert i).valid with
  | some i => { c.fill i with countItemNext := r.countItem + 1 }
  | none =>
    { c.fill r.kickWay with
      countCollisionNext := r.countCollision + 1
      kicked := true
      kickedValue := (r.doutInsert r.kickWay).value
      kickedKey := (r.doutInsert r.kickWay).key }

/-- **The control logic.** The branches are taken one after the other,
and a later one overrides what an earlier one drives. -/
def control : Control :=
  let c := r.controlDefault
  let c := if r.removeD then r.controlRemove c else c
  let c := if r.updateD || r.insertD then r.controlUpdate c else c
  if !r.updated && r.insertD then r.controlInsert c else c

/-! ## The RAM ports -/

variable (p : HtIn)

/-- `write_enable_1..4`. -/
def writeEnable (i : Way) : Bool :=
  (p.we && p.addr.extractLsb' 10 2 == BitVec.ofFin i) || r.control.memoryWriteEnable i

/-- Some table is written in this cycle. -/
def writes : Bool := ways.any (r.writeEnable p)

/-- The key `hashed_insert` is the hash of: a pending write takes the
address from the key that comes in. -/
def insertKey : Key := if r.writes p then r.keyD else p.key

/-- `addrb_1..4`. -/
def addrb (i : Way) : Addr :=
  if p.we || p.rd then p.addr.extractLsb' 0 10 else wayAddr i (r.insertKey p)

/-- `dinb1..4`. -/
def dinb (i : Way) : Row := if p.we then p.inputDin else r.control.dinInsert i

/-- `data_out`: the row the AXI interface reads. -/
def dataOut : Row := r.doutInsert (p.addr.extractLsb' 10 2).toFin

/-! ## The answer to a query -/

/-- The row read from a table answers the query. -/
def answers (i : Way) : Bool :=
  (r.doutQuery i).key == r.searchD && (r.doutQuery i).valid

/-- The `match` output. -/
def hit : Bool := p.search && ways.any r.answers

/-- The `output` port: the last table that answers wins. -/
def output : Value :=
  if p.search then ((ways.filter r.answers).getLast?.map fun i => (r.doutQuery i).value).getD 0
  else 0

/-- **One clock edge.** A RAM reads the row it held before it writes. -/
def next : HtReg where
  htMem i a := if r.writeEnable p i && a == r.addrb p i then r.dinb p i else r.htMem i a
  doutQuery i := r.htMem i (wayAddr i p.searchKey)
  doutInsert i := r.htMem i (r.addrb p i)
  searchD := p.searchKey
  keyD := p.key
  valueD := p.value
  updateD := p.update
  removeD := p.remove
  insertD := p.insert
  countCollision :=
    if p.reset || p.clearCountCollision then 0 else r.control.countCollisionNext
  countItem := if p.reset then 0 else r.control.countItemNext
  countSelectKick :=
    if p.reset then 0 else (r.countSelectKick + 1) ^^^ r.countSelectKick.rotateRight 5

/-- The four tables as a family of maps. -/
def content : Tables Way Addr Key Value := fun i a => (r.htMem i a).entry

end HtReg

end Hw

end FlowBlaze
