import FlowBlaze.Hw.Stash
/-!
# The flow table — `cuckoo.vhd`

The hash tables and the stash side by side. Insertions, removals and
searches from outside go to both in the same cycle; an entry the tables
kick out goes to the stash. When nothing else goes on, the background
process moves the top of the stash back: it removes the key from the
stash and inserts it into the tables in one cycle.

`CuckooReg.next` is one clock edge, and `run` the states of a run, one
for each cycle.
-/

namespace FlowBlaze

namespace Hw

open Common

/-- The input ports in one cycle. -/
structure CuckooIn where
  reset : Bool
  enable : Bool
  we : Bool
  rd : Bool
  inputDin : Row
  addr : BitVec 12
  preInsert : Bool
  insert : Bool
  key : Key
  value : Value
  remove : Bool
  search : Bool
  searchKey : Key
  clearCountCollision : Bool

/-- The registers of both parts and of the entity itself. -/
structure CuckooReg where
  ht : HtReg
  st : StashReg
  hit : Bool
  searchValue : Value
  insertD : Bool
  intCountCuckooInsert : BitVec 32

namespace CuckooReg

variable (σ : CuckooReg) (p : CuckooIn)

/-! ## `CARONTE_FSM` -/

/-- A background move starts in this cycle. -/
def background : Bool :=
  p.enable && !p.search && !p.preInsert && !p.insert && !σ.insertD && !p.remove &&
    !σ.ht.control.kicked && σ.st.notEmpty

def insertFSM : Bool := σ.background p || p.insert

def removeFSM : Bool := σ.background p || p.remove

def keyFSM : Key := if σ.background p then σ.st.keyOut else p.key

def valueFSM : Value := if σ.background p then σ.st.valueOut else p.value

def searchKeyFSM : Key := if σ.background p then σ.st.keyOut else p.searchKey

/-- The ports of `HT`. The removals it sees come from outside. -/
def htIn : HtIn where
  reset := p.reset
  search := p.search
  we := p.we
  rd := p.rd
  inputDin := p.inputDin
  addr := p.addr
  remove := p.remove
  insert := σ.insertFSM p
  update := false
  key := σ.keyFSM p
  value := σ.valueFSM p
  searchKey := p.searchKey
  clearCountCollision := p.clearCountCollision

/-- The ports of `ST`. Its `key` and `value` are the kicked ones, also
while an insertion from outside drives its `update`. -/
def stashIn : StashIn where
  reset := p.reset
  insert := σ.ht.control.kicked
  search := p.search
  remove := σ.removeFSM p
  update := p.insert
  key := σ.ht.control.kickedKey
  searchKey := σ.searchKeyFSM p
  value := σ.ht.control.kickedValue

/-- **One clock edge.** -/
def next : CuckooReg where
  ht := σ.ht.next (σ.htIn p)
  st := σ.st.next (σ.stashIn p)
  hit := !p.reset && (σ.st.hit || σ.ht.hit (σ.htIn p))
  searchValue :=
    if p.reset then 0
    else if p.search && σ.ht.hit (σ.htIn p) then σ.ht.output (σ.htIn p)
    else if p.search && σ.st.hit then σ.st.searchValue
    else 0
  insertD := !p.reset && p.insert
  intCountCuckooInsert :=
    if p.reset then 0
    else if p.insert then σ.intCountCuckooInsert + 1
    else σ.intCountCuckooInsert

end CuckooReg

/-! ## Runs -/

/-- The state before each cycle, given the ports in each cycle. -/
def run (σ : CuckooReg) (ports : ℕ → CuckooIn) : ℕ → CuckooReg
  | 0 => σ
  | t + 1 => (run σ ports t).next (ports t)

/-- **Empty tables**: no valid row, no occupied seat, no operation under
way, and the counters of items and evictions at zero. -/
structure EmptyTables (σ : CuckooReg) : Prop where
  htMem : ∀ i a, (σ.ht.htMem i a).valid = false
  stash : ∀ i, (σ.st.stash i).occupied = false
  idle : σ.ht.insertD = false ∧ σ.ht.removeD = false ∧ σ.ht.updateD = false ∧ σ.insertD = false
  hit : σ.st.hit = false
  countItem : σ.ht.countItem = 0
  evicted : σ.st.intEvictedEntry = 0

/-- The registers after a reset, the RAMs cleared. -/
def CuckooReg.initial : CuckooReg where
  ht :=
    { htMem := fun _ _ => ⟨false, false, 0, 0⟩
      doutQuery := fun _ => ⟨false, false, 0, 0⟩
      doutInsert := fun _ => ⟨false, false, 0, 0⟩
      searchD := 0, keyD := 0, valueD := 0
      updateD := false, removeD := false, insertD := false
      countCollision := 0, countItem := 0, countSelectKick := 0 }
  st :=
    { stash := fun _ => ⟨false, 0, 0⟩
      intEvictedEntry := 0, intTotNumEntry := 0, entryCounter := 0, freeCounter := 0
      numEntry := 0, numPresent := 0, hit := false, searchValue := 0 }
  hit := false
  searchValue := 0
  insertD := false
  intCountCuckooInsert := 0

theorem CuckooReg.emptyTables_initial : EmptyTables CuckooReg.initial :=
  ⟨fun _ _ => rfl, fun _ => rfl, ⟨rfl, rfl, rfl, rfl⟩, rfl, rfl, rfl⟩

/-- The ports when nothing is asked for. -/
def CuckooIn.idle : CuckooIn where
  reset := false
  enable := false
  we := false
  rd := false
  inputDin := ⟨false, false, 0, 0⟩
  addr := 0
  preInsert := false
  insert := false
  key := 0
  value := 0
  remove := false
  search := false
  searchKey := 0
  clearCountCollision := false

/-- The pulses a run receives from outside. -/
inductive Pulse
  | insert
  | remove
  | search
deriving DecidableEq

/-- The port of a pulse is driven. -/
def CuckooIn.pulse (p : CuckooIn) : Pulse → Bool
  | .insert => p.insert
  | .remove => p.remove
  | .search => p.search

/-- **Pulses of these kinds are at least four cycles apart.** -/
def Spaced (ports : ℕ → CuckooIn) (kinds : List Pulse) : Prop :=
  ∀ t t' e e', e ∈ kinds → e' ∈ kinds → (ports t).pulse e → (ports t').pulse e' →
    (t = t' ∧ e = e') ∨ t + 4 ≤ t' ∨ t' + 4 ≤ t

end Hw

end FlowBlaze
