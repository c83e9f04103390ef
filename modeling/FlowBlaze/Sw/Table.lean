import FlowBlaze.Common.SlotMap
import Mathlib.Data.List.Induction
/-!
# State tables — `xfsm.c`

`xfsm_table_create` groups the rows by state before it stores them: it
keeps a list of nodes, one for each state seen, with the numbers of the
rows, and copies each node's rows into the bucket of a pool whose
position a hash table hands out. A lookup scans the bucket of the
current state. Rows are of any type `ε` here: creating the table reads a
row's state, and looking one up its condition results, and nothing else.

A node has room for ten rows, and nobody checks: an eleventh is written
past the end of its array. Such a call has no result (`none`). Whether
the positions handed out lie inside the pool is not decided here; the
pool is a total map.
-/

namespace FlowBlaze

namespace Sw

open Common

/-- `uint32_t state`. -/
abbrev State := BitVec 32

/-- `STATE_NULL`. -/
def stateNull : State := 255

/-- The state the head of the list is created for. -/
def headState : State := 0

/-- `MAX_ENTRIES_FOREACH_STATE`. -/
def maxEntriesForeachState : ℕ := 10

/-- `MAX_CONDITIONS`. -/
def maxConditions : ℕ := 16

/-- `xfsm_results_t`. The last is the word `init_instance` leaves: every
byte is `XFSM_TRUE`, which makes a word that is no enumerator. -/
inductive XfsmResult
  | xfsmFalse
  | xfsmTrue
  | xfsmDontCare
  | unset
deriving DecidableEq, Repr

/-- `xfsm_results_t results[MAX_CONDITIONS]`. -/
abbrev Results := Fin maxConditions → XfsmResult

/-! ## The list of nodes -/

/-- `key_node_t`: a state and the numbers of its rows. The next node is
the next in the list. -/
structure KeyNode where
  key : State
  entries : List ℕ
deriving DecidableEq

/-- `search_key`. -/
def searchKey (key : State) (list : List KeyNode) : Bool := list.any fun n => n.key == key

/-- `insert_key`. "In case it's the first key" the head's key is
overwritten; the head keeps its rows. Otherwise a node is appended. The
list is never empty. -/
def insertKey (key : State) : List KeyNode → List KeyNode
  | [] => []
  | head :: tail =>
    if key = stateNull then { head with key := key } :: tail
    else (head :: tail) ++ [⟨key, []⟩]

/-- `insert_entry`: append a row's number to the first node with the key.
The array of a node has ten places. -/
def insertEntry (id : ℕ) (key : State) : List KeyNode → Option (List KeyNode)
  | [] => some []
  | n :: list =>
    if n.key = key then
      if n.entries.length < maxEntriesForeachState then
        some ({ n with entries := n.entries ++ [id] } :: list)
      else none
    else (insertEntry id key list).map (n :: ·)

/-- The loop body that populates the list. -/
def groupRow (list : List KeyNode) (key : State) (id : ℕ) : Option (List KeyNode) :=
  if searchKey key list then insertEntry id key list
  else insertEntry id key (insertKey key list)

/-- The list before the loop: a head without rows. -/
def emptyNodes : List KeyNode := [⟨headState, []⟩]

/-- The loop over the rows, on their states. -/
def groupRows (states : List State) : Option (List KeyNode) :=
  states.zipIdx.foldlM (fun list r => groupRow list r.1 r.2) emptyNodes

/-! ## The pool of buckets -/

/-- `hmap_entry_t`. Its `size` is the length of the list. -/
structure HmapEntry (ε : Type) where
  key : State
  tableEntries : List ε

/-- What `xfsm_table_create` leaves for lookups: the hash of the states
and the pool of buckets. -/
structure Entries (H : SlotMap State) (ε : Type) where
  entriesHmap : H.State
  stateEntriesPool : ℕ → HmapEntry ε

section Fill

variable (H : SlotMap State) {ε : Type} (entries : List ε)

/-- The bucket made of a node: its rows, copied. -/
def bucketOf (n : KeyNode) : HmapEntry ε := ⟨n.key, n.entries.filterMap (entries[·]?)⟩

/-- The loop that fills the pool. It stops at the first state the hash
refuses. -/
def fillPool (E : Entries H ε) : List KeyNode → Entries H ε
  | [] => E
  | n :: list =>
    match H.add E.entriesHmap n.key with
    | (hmap, some pos) =>
      fillPool ⟨hmap, Function.update E.stateEntriesPool pos (bucketOf entries n)⟩ list
    | (hmap, none) => ⟨hmap, E.stateEntriesPool⟩

/-- The part of `xfsm_table_create` that stores the rows. `state` reads a
row's `current_state`. -/
def createEntries (state : ε → State) : Option (Entries H ε) :=
  (groupRows (entries.map state)).map
    (fillPool H entries ⟨H.create maxEntriesForeachState, fun _ => ⟨0, []⟩⟩)

end Fill

/-! ## Lookup -/

section Lookup

variable {H : SlotMap State} {ε : Type} (E : Entries H ε)

/-- The bucket found under a state. -/
def bucket (s : State) : Option (List ε) :=
  (H.lookup E.entriesHmap s).map fun pos => (E.stateEntriesPool pos).tableEntries

/-- The inner loop of `xfsm_table_lookup`, with so many conditions left:
they are compared in order, and the row is returned from inside the
loop, at the last condition. `match->results[i]` past the sixteenth
condition is out of bounds. -/
def rowMatches (rowResults results : Results) (nbConditions : ℕ) : ℕ → Option Bool
  | 0 => some false
  | left + 1 =>
    if hi : nbConditions - (left + 1) < maxConditions then
      if rowResults ⟨nbConditions - (left + 1), hi⟩ = .xfsmDontCare ∨
          rowResults ⟨nbConditions - (left + 1), hi⟩ =
            results ⟨nbConditions - (left + 1), hi⟩ then
        if left = 0 then some true else rowMatches rowResults results nbConditions left
      else some false
    else none

/-- The outer loop of `xfsm_table_lookup`. -/
def scanBucket (rowResults : ε → Results) (results : Results) (nbConditions : ℕ) :
    List ε → Option (Option ε)
  | [] => some none
  | row :: rows =>
    match rowMatches (rowResults row) results nbConditions nbConditions with
    | none => none
    | some true => some (some row)
    | some false => scanBucket rowResults results nbConditions rows

/-- `xfsm_table_lookup`: `some none` is `NULL`. -/
def xfsmTableLookup (rowResults : ε → Results) (nbConditions : ℕ) (currentState : State)
    (results : Results) : Option (Option ε) :=
  match bucket E currentState with
  | some rows => scanBucket rowResults results nbConditions rows
  | none => some none

end Lookup

end Sw

end FlowBlaze
