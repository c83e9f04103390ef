import FlowBlaze.Hw.Ht128dp
import Mathlib.Data.List.FinRange
/-!
# The stash — `stash.vhd`

Eight entries searched in parallel, for the keys the tables kicked out.
An insertion takes the first free seat. Removing, updating and searching
all go by `search_key`, whatever `key` is. `StashReg` holds the seats
and the counters, `StashReg.next` is one clock edge.
-/

namespace FlowBlaze

namespace Hw

/-- One seat of the stash. -/
structure Seat where
  occupied : Bool
  value : Value
  key : Key
deriving DecidableEq

/-- The input ports in one cycle. -/
structure StashIn where
  reset : Bool
  insert : Bool
  search : Bool
  remove : Bool
  update : Bool
  key : Key
  searchKey : Key
  value : Value

/-- The seats and the registers. `entryCounter` is a variable of the
clocked process, which keeps its value. -/
structure StashReg where
  stash : Fin 8 → Seat
  intEvictedEntry : BitVec 32
  intTotNumEntry : BitVec 32
  entryCounter : BitVec 32
  freeCounter : BitVec 32
  numEntry : BitVec 32
  numPresent : BitVec 32
  hit : Bool
  searchValue : Value

namespace StashReg

variable (s : StashReg) (p : StashIn)

/-- The seats in the order the loops visit them. -/
def seats : List (Fin 8) := List.finRange 8

@[simp] theorem mem_seats (i : Fin 8) : i ∈ seats := List.mem_finRange i

/-- The seat an insertion takes. -/
def freeSeat : Option (Fin 8) := seats.find? fun i => !(s.stash i).occupied

/-- The seat holds the key the ports ask for. -/
def asked (i : Fin 8) : Bool := (s.stash i).key == p.searchKey && (s.stash i).occupied

/-- The occupied seat shown at the outputs: the loop's last. -/
def top : Option (Fin 8) := (seats.filter fun i => (s.stash i).occupied).getLast?

/-- `not_empty`: there is an entry to move, once in sixteen cycles. -/
def notEmpty : Bool := s.top.isSome && s.freeCounter.extractLsb' 0 4 == 0

/-- `key_out`. -/
def keyOut : Key := (s.top.map fun i => (s.stash i).key).getD 0

/-- `value_out`. -/
def valueOut : Value := (s.top.map fun i => (s.stash i).value).getD 0

/-- A seat after a cycle without reset. A free seat may be taken; an
occupied one asked for may be freed or updated. -/
def nextSeat (i : Fin 8) : Seat :=
  if s.asked p i then
    { s.stash i with
      occupied := !p.remove
      value := if p.update then p.value else (s.stash i).value }
  else if p.insert && s.freeSeat == some i then ⟨true, p.value, p.key⟩
  else s.stash i

/-- What `entry_counter` is after a cycle without reset: one more for an
insertion, one less for each seat freed. -/
def nextEntryCounter : BitVec 32 :=
  s.entryCounter + (if p.insert && s.freeSeat.isSome then 1 else 0) -
    (if p.remove then BitVec.ofNat 32 (seats.countP (s.asked p)) else 0)

/-- **One clock edge.** -/
def next : StashReg where
  stash i := if p.reset then ⟨false, 0, 0⟩ else s.nextSeat p i
  intEvictedEntry :=
    if p.reset then 0
    else if p.insert && s.freeSeat.isNone then s.intEvictedEntry + 1
    else s.intEvictedEntry
  intTotNumEntry :=
    if p.reset then 0
    else if p.insert && s.freeSeat.isSome then s.intTotNumEntry + 1
    else s.intTotNumEntry
  entryCounter := if p.reset then 0 else s.nextEntryCounter p
  freeCounter := if p.reset then 0 else s.freeCounter + 1
  numEntry := if p.reset then 0 else s.nextEntryCounter p
  numPresent :=
    if p.reset then 0 else BitVec.ofNat 32 (seats.countP fun i => (s.stash i).occupied)
  hit := !p.reset && p.search && seats.any (s.asked p)
  searchValue :=
    if !p.reset && p.search then
      ((seats.filter (s.asked p)).getLast?.map fun i => (s.stash i).value).getD 0
    else 0

end StashReg

end Hw

end FlowBlaze
