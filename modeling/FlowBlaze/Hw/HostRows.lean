import FlowBlaze.Hw.HtSpec
import FlowBlaze.Hw.Cuckoo
import FlowBlaze.Hw.RegisterFile
import Mathlib.Tactic.FinCases
/-!
# Rows from the host — `FlowBlaze_core.vhd`, `ht128dp.vhd`

The host writes a row of a hash table word by word. The words are
collected in `ht_data_in`, and the write of the last one also raises
`ht_we`, in that same cycle: the RAM takes what the register holds then,
in which the last word is still that of the row before.

The registers and the flow table run side by side here, on one clock. No
packet is there.
-/

namespace FlowBlaze

namespace Hw

/-! ## The core without packets -/

/-- What a cycle without packets brings: the bus, and the ports of the
flow table that are not looked at. -/
structure HostIn where
  writeEnable : Bool
  readEnable : Bool
  address : BitVec 32
  wdata : BitVec 32
  key : Key
  value : Value
  searchKey : Key
  aluGr : Fin 4 → BitVec 32

/-- The registers and the flow table. -/
structure HostReg where
  regs : RegisterFile
  table : CuckooReg

/-- A row of a table, of its eight words. -/
def rowOfWords (w : Fin 8 → BitVec 32) : Row where
  upd := (w 7).getLsbD 31
  valid := (w 7).getLsbD 30
  value := (w 7 ++ w 6 ++ w 5 ++ w 4).extractLsb' 0 126
  key := w 3 ++ w 2 ++ w 1 ++ w 0

/-- `address(31 downto 20)=x"801"`. -/
def isHtAddress (address : BitVec 32) : Bool := address.extractLsb' 20 12 == 0x801

namespace HostReg

variable (σ : HostReg) (p : HostIn)

/-- `ht_we`. -/
def htWe : Bool := p.writeEnable && (isHtAddress p.address && p.address.extractLsb' 2 3 == 0b111)

/-- `ht_rd`. -/
def htRd : Bool := p.readEnable && isHtAddress p.address

/-- The ports of `REG_WRITE_PROCESS`. -/
def regIn : RegIn := ⟨true, p.writeEnable, p.address, p.wdata, false, p.aluGr⟩

/-- The ports of `HT1`. -/
def cuckooIn : CuckooIn where
  reset := false
  enable := σ.regs.pause == 0
  we := htWe p
  rd := htRd p
  inputDin := rowOfWords σ.regs.htDataIn
  addr := p.address.extractLsb' 5 12
  preInsert := false
  insert := false
  key := p.key
  value := p.value
  remove := false
  search := false
  searchKey := p.searchKey
  clearCountCollision := σ.regs.clearCountCollision

/-- **A clock edge.** -/
def next : HostReg := ⟨σ.regs.clock (regIn p), σ.table.next (σ.cuckooIn p)⟩

/-- The state after these cycles. -/
def run (σ : HostReg) (trace : List HostIn) : HostReg := trace.foldl next σ

/-- After a reset. -/
def initial : HostReg := ⟨.initial, .initial⟩

/-- **Nothing is under way**: no operation of the tables, and none that
the background process could start. -/
structure Quiet : Prop where
  insertD : σ.table.ht.insertD = false
  removeD : σ.table.ht.removeD = false
  updateD : σ.table.ht.updateD = false
  still : σ.regs.pause ≠ 0 ∨ ∀ i, (σ.table.st.stash i).occupied = false

end HostReg

/-! ## Rows -/

/-- The tables' rows. -/
abbrev RowMem := Way → Addr → Row

/-- **A row write**: the row's number, as the bus counts rows from
`0x80100000` on, and its words. -/
structure RowWrite where
  row : BitVec 15
  words : Fin 8 → BitVec 32

namespace RowWrite

variable (r : RowWrite)

/-- The address of a word. -/
def address (k : Fin 8) : BitVec 32 := 0x801#12 ++ r.row ++ BitVec.ofNat 3 k ++ 0#2

/-- The writes of the words, in increasing order. -/
def writes : List (BitVec 32 × BitVec 32) :=
  (List.finRange 8).map fun k => (r.address k, r.words k)

/-- The table addressed. -/
def way : Way := (r.row.extractLsb' 10 2).toFin

/-- The slot addressed. -/
def slot : Addr := r.row.extractLsb' 0 10

/-- **What the row write is for**: the slot holds the words, the others
what they held. -/
def store (mem : RowMem) : RowMem := fun i a =>
  if i = r.way ∧ a = r.slot then rowOfWords r.words else mem i a

end RowWrite

/-- The writes of a trace. -/
def busWrites (trace : List HostIn) : List (BitVec 32 × BitVec 32) :=
  (trace.filter HostIn.writeEnable).map fun p => (p.address, p.wdata)

/-- **Rows are stored as written**: after each of them, whatever comes
between the writes, the tables hold what the rows written so far make of
them. -/
def StoredAsWritten (σ : HostReg) (rows : List RowWrite) : Prop :=
  ∀ done, done <+: rows → ∀ trace, busWrites trace = done.flatMap RowWrite.writes →
    (σ.run trace).table.ht.htMem = done.foldl (fun mem r => r.store mem) σ.table.ht.htMem

/-! ## Cycles -/

section Cycles

variable {σ : HostReg} {p : HostIn}

namespace HostReg

/-- Nothing starts. -/
theorem Quiet.background (h : σ.Quiet) : σ.table.background (σ.cuckooIn p) = false := by
  unfold CuckooReg.background
  rcases h.still with hpause | hstash
  · have henable : (σ.cuckooIn p).enable = false := beq_eq_false_iff_ne.mpr hpause
    rw [henable]
    rfl
  · have htop : σ.table.st.top = none := by
      unfold StashReg.top
      rw [List.getLast?_eq_none_iff, List.filter_eq_nil_iff]
      intro i _
      rw [hstash i]
      decide
    have hempty : σ.table.st.notEmpty = false := by
      unfold StashReg.notEmpty
      rw [htop]
      rfl
    rw [hempty, Bool.and_false]

/-- The tables in a cycle without packets: the slot addressed takes the
row at the port, if `ht_we` is up. -/
theorem Quiet.htMem_next (h : σ.Quiet) (i : Way) (a : Addr) :
    (σ.next p).table.ht.htMem i a =
      if htWe p = true ∧ (p.address.extractLsb' 5 12).extractLsb' 10 2 = BitVec.ofFin i ∧
          a = (p.address.extractLsb' 5 12).extractLsb' 0 10
      then rowOfWords σ.regs.htDataIn else σ.table.ht.htMem i a := by
  have hcontrol := HtReg.control_idle h.removeD h.insertD h.updateD
  set q := σ.table.htIn (σ.cuckooIn p) with hq
  have henable : σ.table.ht.writeEnable q i =
      (htWe p && (p.address.extractLsb' 5 12).extractLsb' 10 2 == BitVec.ofFin i) := by
    unfold HtReg.writeEnable
    rw [hcontrol]
    exact Bool.or_false _
  change (if σ.table.ht.writeEnable q i && a == σ.table.ht.addrb q i then σ.table.ht.dinb q i
    else σ.table.ht.htMem i a) = _
  rw [henable]
  cases hwe : htWe p with
  | false => simp
  | true =>
    have haddr : σ.table.ht.addrb q i = (p.address.extractLsb' 5 12).extractLsb' 0 10 := by
      unfold HtReg.addrb
      exact if_pos (by rw [show q.we = true from hwe]; rfl)
    have hdin : σ.table.ht.dinb q i = rowOfWords σ.regs.htDataIn := if_pos hwe
    rw [haddr, hdin]
    simp only [Bool.true_and, Bool.and_eq_true, beq_iff_eq, true_and]

/-- The registers of a row in a cycle. -/
theorem htDataIn_next (k : Fin 8) :
    (σ.next p).regs.htDataIn k =
      if p.writeEnable = true ∧ RegisterFile.isHtWord p.address k = true then p.wdata
      else σ.regs.htDataIn k := by
  change (σ.regs.clock (regIn p)).htDataIn k = _
  unfold RegisterFile.clock regIn
  cases hw : p.writeEnable with
  | false => simp [RegisterFile.noPulse]
  | true => simp [RegisterFile.noPulse, RegisterFile.write]

/-- `pause` is not a word of a row. -/
theorem pause_next (hp : p.writeEnable = true → isHtAddress p.address = true) :
    (σ.next p).regs.pause = σ.regs.pause := by
  change (σ.regs.clock (regIn p)).pause = _
  unfold RegisterFile.clock regIn
  cases hw : p.writeEnable with
  | false => simp [RegisterFile.noPulse]
  | true =>
    have hne : p.address ≠ 0x80000090 := by
      intro haddr
      have hht := hp hw
      rw [haddr] at hht
      exact absurd hht (by decide)
    change (if p.address = 0x80000090 then p.wdata else σ.regs.pause) = _
    rw [if_neg hne]

/-- It stays quiet. -/
theorem Quiet.next (h : σ.Quiet) (hp : p.writeEnable = true → isHtAddress p.address = true) :
    (σ.next p).Quiet where
  insertD := by
    change (σ.table.background (σ.cuckooIn p) || false) = false
    rw [h.background, Bool.or_false]
  removeD := rfl
  updateD := rfl
  still := by
    rcases h.still with hpause | hstash
    · exact .inl (by rwa [pause_next hp])
    · refine .inr fun i => ?_
      have hkicked : σ.table.ht.control.kicked = false := by
        rw [HtReg.control_idle h.removeD h.insertD h.updateD]
        rfl
      change (σ.table.st.nextSeat (σ.table.stashIn (σ.cuckooIn p)) i).occupied = false
      unfold StashReg.nextSeat StashReg.asked CuckooReg.stashIn
      rw [hstash i, hkicked]
      simp [hstash i]

end HostReg

end Cycles

/-! ## The buffer of a row

What a run does to the tables, apart from everything else. -/

/-- The words collected and the tables. -/
structure RowBuffer where
  words : Fin 8 → BitVec 32
  mem : RowMem

namespace RowBuffer

/-- A write of the host. -/
def write (b : RowBuffer) (w : BitVec 32 × BitVec 32) : RowBuffer where
  words k := if RegisterFile.isHtWord w.1 k then w.2 else b.words k
  mem i a :=
    if (isHtAddress w.1 && w.1.extractLsb' 2 3 == 0b111) = true ∧
        (w.1.extractLsb' 5 12).extractLsb' 10 2 = BitVec.ofFin i ∧
        a = (w.1.extractLsb' 5 12).extractLsb' 0 10
    then rowOfWords b.words else b.mem i a

end RowBuffer

/-- The buffer in a state. -/
def HostReg.buffer (σ : HostReg) : RowBuffer := ⟨σ.regs.htDataIn, σ.table.ht.htMem⟩

section Runs

variable {σ : HostReg} {trace : List HostIn} {rows : List RowWrite} {r : RowWrite}
  {b : RowBuffer}

open HostReg

/-- A cycle does to the buffer what its write does, if there is one. -/
theorem buffer_next (h : σ.Quiet) (p : HostIn) :
    (σ.next p).buffer =
      if p.writeEnable = true then σ.buffer.write (p.address, p.wdata) else σ.buffer := by
  have hwords : (σ.next p).regs.htDataIn = fun k =>
      if p.writeEnable = true ∧ RegisterFile.isHtWord p.address k = true then p.wdata
      else σ.regs.htDataIn k := funext fun k => htDataIn_next k
  have hmem := funext fun i => funext fun a => h.htMem_next (p := p) i a
  unfold buffer
  rw [hwords, hmem]
  unfold htWe
  cases hw : p.writeEnable with
  | false => simp
  | true => simp [RowBuffer.write]

/-- **A run** does to the buffer what its writes do, one after the
other. -/
theorem buffer_run (h : σ.Quiet)
    (htrace : ∀ p ∈ trace, p.writeEnable = true → isHtAddress p.address = true) :
    (σ.run trace).buffer = (busWrites trace).foldl RowBuffer.write σ.buffer := by
  induction trace generalizing σ with
  | nil => rfl
  | cons p trace ih =>
    have hnext := h.next (htrace p (.head _))
    change ((σ.next p).run trace).buffer = _
    rw [ih hnext fun q hq => htrace q (.tail _ hq), buffer_next h]
    unfold busWrites
    cases hw : p.writeEnable with
    | false => rw [List.filter_cons_of_neg (by rw [hw]; decide), if_neg (by decide)]
    | true =>
      rw [List.filter_cons_of_pos hw, if_pos rfl, List.map_cons, List.foldl_cons]

/-! ## Rows -/

namespace RowWrite

theorem isHtAddress_address (k : Fin 8) : isHtAddress (r.address k) = true := by
  unfold isHtAddress address
  rw [BitVec.extractLsb'_append_eq_of_le (by decide),
    BitVec.extractLsb'_append_eq_of_le (by decide),
    BitVec.extractLsb'_append_eq_of_le (by decide)]
  rfl

theorem word_address (k : Fin 8) : (r.address k).extractLsb' 2 3 = BitVec.ofNat 3 k := by
  unfold address
  rw [BitVec.extractLsb'_append_eq_of_le (by decide)]
  exact BitVec.extractLsb'_append_eq_right

theorem row_address (k : Fin 8) : (r.address k).extractLsb' 5 12 = r.row.extractLsb' 0 12 := by
  unfold address
  rw [BitVec.extractLsb'_append_eq_of_le (by decide),
    BitVec.extractLsb'_append_eq_of_le (by decide),
    BitVec.extractLsb'_append_eq_of_add_le (by decide)]

/-- A word goes to its place. -/
theorem isHtWord_address (k j : Fin 8) :
    RegisterFile.isHtWord (r.address k) j = true ↔ j = k := by
  have hht : ((r.address k).extractLsb' 20 12 == 0x801) = true := r.isHtAddress_address k
  unfold RegisterFile.isHtWord
  rw [hht, word_address, Bool.true_and]
  clear hht
  revert k j
  decide

/-- The row as the RAM gets it: its last word is the one that was in the
buffer. -/
def stored (last : BitVec 32) (mem : RowMem) : RowMem := fun i a =>
  if i = r.way ∧ a = r.slot then rowOfWords (Function.update r.words 7 last) else mem i a

/-- A word of a row, written: it goes to its place in the buffer. -/
theorem words_write (k : Fin 8) (v : BitVec 32) :
    (b.write (r.address k, v)).words = Function.update b.words k v := by
  funext j
  change (if RegisterFile.isHtWord (r.address k) j then v else b.words j) = _
  by_cases hj : j = k
  · rw [if_pos ((isHtWord_address k j).mpr hj), hj, Function.update_self]
  · rw [if_neg (mt (isHtWord_address k j).mp hj), Function.update_of_ne hj]

/-- The last word is the one whose address raises `ht_we`. -/
theorem commits_iff (k : Fin 8) :
    (isHtAddress (r.address k) && (r.address k).extractLsb' 2 3 == 0b111) = true ↔ k = 7 := by
  rw [isHtAddress_address, word_address, Bool.true_and]
  revert k
  decide

/-- Another word leaves the tables. -/
theorem write_of_ne {k : Fin 8} (hk : k ≠ 7) (v : BitVec 32) :
    b.write (r.address k, v) = ⟨Function.update b.words k v, b.mem⟩ := by
  refine congrArg₂ RowBuffer.mk (words_write k v) (funext fun i => funext fun a => ?_)
  exact if_neg fun h => hk ((commits_iff k).mp h.1)

/-- The last word hands the buffer to the tables. -/
theorem write_last (v : BitVec 32) :
    b.write (r.address 7, v) = ⟨Function.update b.words 7 v,
      fun i a => if i = r.way ∧ a = r.slot then rowOfWords b.words else b.mem i a⟩ := by
  refine congrArg₂ RowBuffer.mk (words_write 7 v) (funext fun i => funext fun a => ?_)
  have hway : (r.row.extractLsb' 0 12).extractLsb' 10 2 = r.row.extractLsb' 10 2 :=
    BitVec.extractLsb'_extractLsb'_of_le (by decide)
  have hslot : (r.row.extractLsb' 0 12).extractLsb' 0 10 = r.slot :=
    BitVec.extractLsb'_extractLsb'_of_le (by decide)
  have hi : r.row.extractLsb' 10 2 = BitVec.ofFin i ↔ i = r.way :=
    ⟨fun h => congrArg BitVec.toFin h.symm, fun h => congrArg BitVec.ofFin h.symm⟩
  simp only [(commits_iff 7).mpr rfl, row_address, hway, hslot, hi, true_and]

/-- **The writes of a row** leave its words in the buffer, and the row with
the last word of the buffer before in its slot. -/
theorem foldl_writes :
    r.writes.foldl RowBuffer.write b = ⟨r.words, r.stored (b.words 7) b.mem⟩ := by
  have hrange : List.finRange 8 = [0, 1, 2, 3, 4, 5, 6, 7] := by decide
  unfold writes
  rw [hrange]
  simp only [List.map_cons, List.map_nil, List.foldl_cons, List.foldl_nil]
  rw [write_of_ne (k := 0) (by decide), write_of_ne (k := 1) (by decide),
    write_of_ne (k := 2) (by decide), write_of_ne (k := 3) (by decide),
    write_of_ne (k := 4) (by decide), write_of_ne (k := 5) (by decide),
    write_of_ne (k := 6) (by decide), write_last]
  refine congrArg₂ RowBuffer.mk (funext fun k => ?_) ?_
  · fin_cases k <;> rfl
  · unfold stored
    refine congrArg (fun row : Row => fun i a => if i = r.way ∧ a = r.slot then row else b.mem i a)
      (congrArg rowOfWords (funext fun k => ?_))
    fin_cases k <;> rfl

/-- A row whose last word was in the buffer is stored as written. -/
theorem stored_self (mem : RowMem) : r.stored (r.words 7) mem = r.store mem := by
  unfold stored store
  rw [Function.update_eq_self]

/-- A row shows its last word: two bits of its own and the top of the
value. -/
theorem word_of_row {w w' : Fin 8 → BitVec 32} (h : rowOfWords w = rowOfWords w') :
    w 7 = w' 7 := by
  have hupd : (w 7).getLsbD 31 = (w' 7).getLsbD 31 := congrArg Row.upd h
  have hvalid : (w 7).getLsbD 30 = (w' 7).getLsbD 30 := congrArg Row.valid h
  have hvalue : ∀ i, i < 30 → (w 7).getLsbD i = (w' 7).getLsbD i := by
    intro i hi
    have hbit := congrArg (fun row : Row => row.value.getLsbD (96 + i)) h
    simp only [rowOfWords, BitVec.getLsbD_extractLsb', BitVec.getLsbD_append, Nat.zero_add] at hbit
    have hin : 96 + i < 126 := by omega
    have hpast : ¬ 96 + i < 32 ∧ ¬ 96 + i - 32 < 32 ∧ ¬ 96 + i - 32 - 32 < 32 := by omega
    have hlast : 96 + i - 32 - 32 - 32 = i := by omega
    simp only [hin, hpast, hlast, decide_true, Bool.true_and, if_false] at hbit
    exact hbit
  refine BitVec.eq_of_getLsbD_eq fun i hi => ?_
  by_cases h30 : i < 30
  · exact hvalue i h30
  · have hcases : i = 30 ∨ i = 31 := by omega
    rcases hcases with rfl | rfl
    · exact hvalid
    · exact hupd

/-- A row is stored as written only if its last word was in the buffer. -/
theorem eq_of_stored {last : BitVec 32} {mem : RowMem} (h : r.stored last mem = r.store mem) :
    r.words 7 = last := by
  have hrow := congrFun (congrFun h r.way) r.slot
  unfold stored store at hrow
  rw [if_pos ⟨rfl, rfl⟩, if_pos ⟨rfl, rfl⟩] at hrow
  have hword := word_of_row hrow
  rw [Function.update_self] at hword
  exact hword.symm

end RowWrite

/-! ## Sequences of rows -/

/-- Rows, one after the other. -/
theorem foldl_rows_snoc :
    ((rows ++ [r]).flatMap RowWrite.writes).foldl RowBuffer.write b =
      ⟨r.words, r.stored (((rows.flatMap RowWrite.writes).foldl RowBuffer.write b).words 7)
        ((rows.flatMap RowWrite.writes).foldl RowBuffer.write b).mem⟩ := by
  rw [List.flatMap_append, List.foldl_append, List.flatMap_singleton, RowWrite.foldl_writes]

/-- **Rows whose last word is that of the buffer** are stored as written. -/
theorem foldl_rows (h : ∀ r ∈ rows, r.words 7 = b.words 7) :
    ((rows.flatMap RowWrite.writes).foldl RowBuffer.write b).words 7 = b.words 7 ∧
      ((rows.flatMap RowWrite.writes).foldl RowBuffer.write b).mem =
        rows.foldl (fun mem r => r.store mem) b.mem := by
  induction rows using List.reverseRecOn with
  | nil => exact ⟨rfl, rfl⟩
  | append_singleton rows r ih =>
    obtain ⟨hword, hmem⟩ := ih fun r' hr' => h r' (List.mem_append_left _ hr')
    have hr := h r (List.mem_append_right _ (.head _))
    rw [foldl_rows_snoc, hword, hmem, ← hr, RowWrite.stored_self, List.foldl_append]
    exact ⟨rfl, rfl⟩

/-- The writes of rows are writes to the hash tables. -/
theorem isHtAddress_of_busWrites (h : busWrites trace = rows.flatMap RowWrite.writes)
    {p : HostIn} (hp : p ∈ trace) (hw : p.writeEnable = true) : isHtAddress p.address = true := by
  have hmem : (p.address, p.wdata) ∈ rows.flatMap RowWrite.writes := by
    rw [← h]
    exact List.mem_map.mpr ⟨p, List.mem_filter.mpr ⟨hp, hw⟩, rfl⟩
  obtain ⟨r, -, hr⟩ := List.mem_flatMap.mp hmem
  obtain ⟨k, -, heq⟩ := List.mem_map.mp hr
  have haddress : r.address k = p.address := congrArg Prod.fst heq
  rw [← haddress]
  exact r.isHtAddress_address k

/-- A cycle with a write. -/
def writeCycle (w : BitVec 32 × BitVec 32) : HostIn :=
  ⟨true, false, w.1, w.2, 0, 0, 0, fun _ => 0⟩

theorem busWrites_map (writes : List (BitVec 32 × BitVec 32)) :
    busWrites (writes.map writeCycle) = writes := by
  induction writes with
  | nil => rfl
  | cons w writes ih => exact congrArg (w :: ·) ih

/-- Rows that are stored as written have the last word that the register
held before the first of them. -/
theorem lastWord_of_storedAsWritten (h : σ.Quiet) (hstored : StoredAsWritten σ rows) :
    ∀ r ∈ rows, r.words 7 = σ.regs.htDataIn 7 := by
  induction rows using List.reverseRecOn with
  | nil => exact fun r hr => absurd hr List.not_mem_nil
  | append_singleton rows r ih =>
    have hrows := ih fun done hdone => hstored done (hdone.trans (List.prefix_append _ _))
    obtain ⟨hword, hmem⟩ := foldl_rows (b := σ.buffer) hrows
    -- the rows so far are in place, and the buffer still holds the first last word
    have htrace := busWrites_map ((rows ++ [r]).flatMap RowWrite.writes)
    have hlast := hstored (rows ++ [r]) (List.prefix_refl _) _ htrace
    have hrun := congrArg RowBuffer.mem (buffer_run h fun p hp hw =>
      isHtAddress_of_busWrites htrace hp hw)
    rw [htrace, foldl_rows_snoc, hword, hmem] at hrun
    rw [List.foldl_append] at hlast
    have hrow : r.words 7 = σ.regs.htDataIn 7 := RowWrite.eq_of_stored (hrun.symm.trans hlast)
    intro r' hr'
    rcases List.mem_append.mp hr' with hr' | hr'
    · exact hrows r' hr'
    · rw [List.mem_singleton.mp hr']
      exact hrow

/-- Rows with the last word that the register held are stored as
written. -/
theorem storedAsWritten_of_lastWord (h : σ.Quiet)
    (hrows : ∀ r ∈ rows, r.words 7 = σ.regs.htDataIn 7) : StoredAsWritten σ rows := by
  intro done hdone trace htrace
  have hrun := buffer_run h fun p hp hw => isHtAddress_of_busWrites htrace hp hw
  have hmem := (foldl_rows (b := σ.buffer) fun r hr => hrows r (hdone.subset hr)).2
  rw [← htrace, ← hrun] at hmem
  exact hmem

/-- **When rows are stored as written**: exactly if the last word of each
is the one that the register held before the first of them. -/
theorem storedAsWritten_iff (h : σ.Quiet) :
    StoredAsWritten σ rows ↔ ∀ r ∈ rows, r.words 7 = σ.regs.htDataIn 7 :=
  ⟨lastWord_of_storedAsWritten h, storedAsWritten_of_lastWord h⟩

theorem quiet_initial : HostReg.initial.Quiet := ⟨rfl, rfl, rfl, .inr fun _ => rfl⟩

/-- The words of a row that differ, with a last one of zero. -/
def countedRow (n : ℕ) (k : Fin 8) : BitVec 32 :=
  if k = 7 then 0 else BitVec.ofNat 32 (n + k.val)

/-- Rows can be written after a reset if their last word is zero. -/
theorem storedAsWritten_counted :
    StoredAsWritten .initial [⟨0, countedRow 1⟩, ⟨1, countedRow 11⟩, ⟨1024, countedRow 21⟩] :=
  (storedAsWritten_iff quiet_initial).mpr (by decide)

/-- **A valid row is stored as one that is not valid** when it is the first
after a reset: its last word, with the valid bit, comes too late. -/
theorem not_storedAsWritten :
    ¬ StoredAsWritten .initial [⟨0, fun k => if k = 7 then 0x40000000 else 1⟩] := by
  intro h
  have hlast := lastWord_of_storedAsWritten quiet_initial h _ (.head _)
  exact absurd hlast (by decide)

end Runs

end Hw

end FlowBlaze
