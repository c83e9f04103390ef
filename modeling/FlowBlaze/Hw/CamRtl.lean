import FlowBlaze.Common.SlowWrites
import FlowBlaze.Hw.CamMatchEnc
import FlowBlaze.Hw.CamWord
import Mathlib.Tactic.IntervalCases
/-!
# The CAM — `cam_rtl.vhd`

A search takes one cycle: every word says whether it matches, and the
encoder's address goes through a register. A write takes sixteen. The
control counts down, keeps the inputs of the first cycle, and shifts one bit
into every register of the word in each; a further write in that time is
not taken. So the CAM is a table whose writes take time (`refines_run`).

The generics are those of `cam_top`: the standard ternary mode, shift
registers of at most 256 words (one block), a binary address of the lowest
match, and ports for the searched data and its mask. `READ_WARNING` is not
there.
-/

namespace FlowBlaze

namespace Hw

open Common

/-- The ports in a cycle. -/
structure CamIn (n w : ℕ) where
  en : Bool
  we : Bool
  wrAddr : BitVec w
  din : BitVec n
  dataMask : BitVec n
  cmpDin : BitVec n
  cmpDataMask : BitVec n

/-- The registers of `cam_control`, `cam_input`, the words and
`cam_match_enc`. -/
structure CamRtl (n w depth : ℕ) where
  busy : Bool
  endNextWrite : Bool
  intRegEn : Bool
  wrCount : BitVec 4
  dinQ : BitVec n
  dataMaskQ : BitVec n
  wrAddrQ : BitVec w
  srls : Fin depth → ℕ → BitVec 16
  matchInt : Bool
  matchAddrBinInt : BitVec w

namespace CamRtl

variable {n w depth : ℕ}

/-- The start, with the words of a file. -/
def initial (init : Fin depth → ℕ → StdLogic) : CamRtl n w depth where
  busy := false
  endNextWrite := false
  intRegEn := true
  wrCount := 15
  dinQ := 0
  dataMaskQ := 0
  wrAddrQ := 0
  srls i t := initDecode (wordConfig (init i) n t)
  matchInt := false
  matchAddrBinInt := 0

variable (c : CamRtl n w depth) (x : CamIn n w)

/-! ## Signals -/

/-- `WREN`. -/
def wren : Bool := x.we || c.busy

/-- `wr_din_i`. -/
def wrDin : BitVec n := if c.intRegEn then x.din else c.dinQ

/-- `wr_data_mask_i`. -/
def wrDataMask : BitVec n := if c.intRegEn then x.dataMask else c.dataMaskQ

/-- `WR_ADDR_INT`. -/
def wrAddrInt : BitVec w := if c.intRegEn then x.wrAddr else c.wrAddrQ

/-- `wes`: the word of the block that is being written. -/
def wes (i : Fin depth) : Bool := x.en && c.wren x && (c.wrAddrInt x).toNat == i.val

/-- `wr_data_bits`. -/
def wrDataBit (t : ℕ) : Bool := ternwrcomp c.wrCount (inputTernary (c.wrDin x) (c.wrDataMask x) t)

/-- `MATCHES`. -/
def lines (i : Fin depth) : Bool :=
  wordMatch n (c.srls i) (c.wes x i) (inputTernary x.cmpDin x.cmpDataMask)

/-! ## One clock edge -/

/-- `pcntr`: the counter. -/
def nextCount : BitVec 4 :=
  if c.busy then if c.wrCount = 0 then 15 else c.wrCount - 1
  else if x.we then 14 else 15

/-- `pbre`: a register that one value starts and another ends. -/
def nextBusy (old whileBusy : Bool) : Bool :=
  if x.we && !c.busy then whileBusy else if c.endNextWrite then !whileBusy else old

/-- **A clock edge.** -/
def next : CamRtl n w depth where
  busy := if x.en then c.nextBusy x c.busy true else c.busy
  endNextWrite := if x.en then c.busy && c.wrCount == 1 else c.endNextWrite
  intRegEn := if x.en then c.nextBusy x c.intRegEn false else c.intRegEn
  wrCount := if x.en then c.nextCount x else c.wrCount
  dinQ := if x.en && c.intRegEn then x.din else c.dinQ
  dataMaskQ := if x.en && c.intRegEn then x.dataMask else c.dataMaskQ
  wrAddrQ := if x.en && c.intRegEn then x.wrAddr else c.wrAddrQ
  srls i t := srl16e (c.srls i t) (c.wes x i) (c.wrDataBit x t)
  matchInt := if x.en then matchBfReg w (c.lines x) else c.matchInt
  matchAddrBinInt := if x.en then matchAddrBinBfReg w (c.lines x) else c.matchAddrBinInt

/-- The registers before each cycle of a run. -/
def run (ports : ℕ → CamIn n w) : ℕ → CamRtl n w depth
  | 0 => c
  | t + 1 => (run ports t).next (ports t)

end CamRtl

/-! ## The table it is -/

variable {n w depth : ℕ}

/-- What a cycle asks to write. -/
def CamIn.write (x : CamIn n w) : Option (ℕ × CamEntry n) :=
  if x.we then some (x.wrAddr.toNat, (x.din, x.dataMask)) else none

/-- The cycles of a write. -/
def writeCycles : ℕ := 16

/-- **A cycle of the table.** Disabled, it stands still. -/
def camStep (s : SlowTable ℕ (CamEntry n)) (x : CamIn n w) : SlowTable ℕ (CamEntry n) :=
  if x.en then s.next writeCycles x.write else s

/-- **The answer of the table** in a cycle: the first of its places that
matches and is not being written. -/
def camAnswer (depth : ℕ) (s : SlowTable ℕ (CamEntry n)) (x : CamIn n w) : Option (Fin depth) :=
  (List.finRange depth).find? fun k =>
    (s.shown writeCycles x.write k.val).any fun e => e.isMatch x.cmpDin x.cmpDataMask

/-- The table with the words of a file. -/
def camStart (n : ℕ) (init : Fin depth → ℕ → StdLogic) : SlowTable ℕ (CamEntry n) where
  entries k := if h : k < depth then fileEntry n (init ⟨k, h⟩) else none
  writing := none

/-- The entry of a word of the file. -/
theorem camStart_entries (init : Fin depth → ℕ → StdLogic) (i : Fin depth) :
    (camStart n init).entries i.val = fileEntry n (init i) := dif_pos i.isLt

/-- The table before each cycle of a run. -/
def camTable (s : SlowTable ℕ (CamEntry n)) (ports : ℕ → CamIn n w) : ℕ → SlowTable ℕ (CamEntry n)
  | 0 => s
  | t + 1 => camStep (camTable s ports t) (ports t)

namespace CamRtl

/-- **At rest**: the words stand for the entries. -/
structure Resting (c : CamRtl n w depth) (s : SlowTable ℕ (CamEntry n)) : Prop where
  writing : s.writing = none
  busy : c.busy = false
  endNextWrite : c.endNextWrite = false
  intRegEn : c.intRegEn = true
  wrCount : c.wrCount = 15
  words : ∀ i : Fin depth, StandsFor (c.srls i) (s.entries i.val)

/-- **In a write**: the inputs of its first cycle are kept, and the word is
shifted as far as the cycles that have gone. -/
structure Writing (c : CamRtl n w depth) (s : SlowTable ℕ (CamEntry n))
    (p : PendingWrite ℕ (CamEntry n)) : Prop where
  writing : s.writing = some p
  pos : 0 < p.left
  lt : p.left < 16
  busy : c.busy = true
  endNextWrite : c.endNextWrite = decide (p.left = 1)
  intRegEn : c.intRegEn = false
  wrCount : c.wrCount = BitVec.ofNat 4 (p.left - 1)
  din : c.dinQ = p.entry.1
  dataMask : c.dataMaskQ = p.entry.2
  wrAddr : c.wrAddrQ.toNat = p.place
  words : ∀ i : Fin depth, i.val ≠ p.place → StandsFor (c.srls i) (s.entries i.val)
  word : ∀ i : Fin depth, i.val = p.place → ∀ t,
    Shifted (c.srls i t) (inputTernary p.entry.1 p.entry.2 t) (16 - p.left)

/-- **The circuit refines the table.** -/
def Refines (c : CamRtl n w depth) (s : SlowTable ℕ (CamEntry n)) : Prop :=
  c.Resting s ∨ ∃ p, c.Writing s p

variable {c : CamRtl n w depth} {s : SlowTable ℕ (CamEntry n)} {x : CamIn n w}
  {p : PendingWrite ℕ (CamEntry n)}

/-! ## The start -/

/-- The words of a file of even width. -/
theorem refines_initial (heven : n % 2 = 0) (init : Fin depth → ℕ → StdLogic) :
    (initial init : CamRtl n w depth).Refines (camStart n init) := by
  refine .inl ⟨rfl, rfl, rfl, rfl, rfl, fun i => ?_⟩
  rw [camStart_entries]
  exact standsFor_fileEntry heven (init i)

/-! ## One step -/

/-- A disabled cycle changes nothing. -/
theorem next_of_disabled (hen : x.en = false) : c.next x = c := by
  have hwes : ∀ i, c.wes x i = false := fun i => by
    unfold wes
    rw [hen]
    rfl
  have hsrls : (fun i t => srl16e (c.srls i t) (c.wes x i) (c.wrDataBit x t)) = c.srls := by
    funext i t
    rw [hwes, srl16e]
    rfl
  unfold next
  rw [hen, hsrls]
  rfl

/-- A word that is not written keeps its entry. -/
theorem standsFor_next {i : Fin depth} {entry : Option (CamEntry n)} (hwes : c.wes x i = false)
    (h : StandsFor (c.srls i) entry) : StandsFor ((c.next x).srls i) entry := by
  have hsame : (c.next x).srls i = c.srls i := by
    funext t
    change srl16e (c.srls i t) (c.wes x i) _ = _
    rw [hwes, srl16e, if_neg Bool.false_ne_true]
  rwa [hsame]

/-- The word that is written takes one more bit. -/
theorem shifted_next {i : Fin depth} {turns : ℕ} {din dataMask : BitVec n}
    (hwes : c.wes x i = true) (hcount : c.wrCount = BitVec.ofNat 4 (15 - turns))
    (hdin : c.wrDin x = din) (hmask : c.wrDataMask x = dataMask) (hturns : turns < 16)
    (h : ∀ t, Shifted (c.srls i t) (inputTernary din dataMask t) turns) (t : ℕ) :
    Shifted ((c.next x).srls i t) (inputTernary din dataMask t) (turns + 1) := by
  change Shifted (srl16e (c.srls i t) (c.wes x i) (c.wrDataBit x t)) _ _
  unfold wrDataBit
  rw [hwes, hcount, hdin, hmask]
  exact (h t).shift hturns

/-- **A write begins.** -/
theorem Resting.begin (h : c.Resting s) (hen : x.en = true) (hwe : x.we = true) :
    (c.next x).Writing (s.next writeCycles x.write)
      ⟨15, x.wrAddr.toNat, (x.din, x.dataMask)⟩ := by
  have hnext : s.next writeCycles x.write =
      ⟨s.entries, some ⟨15, x.wrAddr.toNat, (x.din, x.dataMask)⟩⟩ := by
    unfold SlowTable.next SlowTable.current CamIn.write
    rw [h.writing, hwe]
    rfl
  have haddr : c.wrAddrInt x = x.wrAddr := by
    unfold wrAddrInt
    rw [h.intRegEn, if_pos rfl]
  have hwes : ∀ i : Fin depth, c.wes x i = (x.wrAddr.toNat == i.val) := fun i => by
    unfold wes wren
    rw [hen, hwe, haddr]
    rfl
  -- what is written is that of the ports in this cycle, and of the registers later
  rw [hnext]
  refine ⟨rfl, Nat.succ_pos 14, Nat.lt_succ_self 15, ?_, ?_, ?_, ?_, ?_, ?_, ?_, fun i hi => ?_,
    fun i hi t => ?_⟩
  · simp [next, nextBusy, hen, hwe, h.busy]
  · simp [next, hen, h.busy]
  · simp [next, nextBusy, hen, hwe, h.busy]
  · simp [next, nextCount, hen, hwe, h.busy]
  · simp [next, hen, h.intRegEn]
  · simp [next, hen, h.intRegEn]
  · simp [next, hen, h.intRegEn]
  · refine standsFor_next ?_ (h.words i)
    rw [hwes, beq_eq_false_iff_ne]
    exact fun h => hi h.symm
  · refine shifted_next ?_ h.wrCount ?_ ?_ (by decide) (fun t => shifted_zero _ _) t
    · rw [hwes, beq_iff_eq]
      exact hi.symm
    · unfold wrDin
      rw [h.intRegEn, if_pos rfl]
    · unfold wrDataMask
      rw [h.intRegEn, if_pos rfl]

/-- **Nothing is written.** -/
theorem Resting.idle (h : c.Resting s) (hen : x.en = true) (hwe : x.we = false) :
    (c.next x).Resting (s.next writeCycles x.write) := by
  have hnext : s.next writeCycles x.write = s := by
    unfold SlowTable.next SlowTable.current CamIn.write
    rw [h.writing, hwe]
    rfl
  have hwes : ∀ i : Fin depth, c.wes x i = false := fun i => by
    unfold wes wren
    rw [hwe, h.busy]
    simp
  rw [hnext]
  refine ⟨h.writing, ?_, ?_, ?_, ?_, fun i => standsFor_next (hwes i) (h.words i)⟩
  · simp [next, nextBusy, hen, hwe, h.busy, h.endNextWrite]
  · simp [next, hen, h.busy]
  · simp [next, nextBusy, hen, hwe, h.intRegEn, h.endNextWrite]
  · simp [next, nextCount, hen, hwe, h.busy]

/-- In a write its word is the one with a write enable. -/
theorem Writing.wes (h : c.Writing s p) (hen : x.en = true) (i : Fin depth) :
    c.wes x i = (p.place == i.val) := by
  unfold CamRtl.wes wren wrAddrInt
  rw [hen, h.busy, h.intRegEn, if_neg Bool.false_ne_true, h.wrAddr, Bool.or_true, Bool.true_and,
    Bool.true_and]

/-- The word of a write takes one more bit. -/
theorem Writing.shifted (h : c.Writing s p) (hen : x.en = true) {i : Fin depth}
    (hi : i.val = p.place) (t : ℕ) :
    Shifted ((c.next x).srls i t) (inputTernary p.entry.1 p.entry.2 t) (16 - p.left + 1) := by
  have hpos := h.pos
  have hlt := h.lt
  refine shifted_next ?_ ?_ ?_ ?_ (by omega) (h.word i hi) t
  · rw [h.wes hen, beq_iff_eq]
    exact hi.symm
  · rw [h.wrCount]
    congr 1
    omega
  · unfold wrDin
    rw [h.intRegEn, if_neg Bool.false_ne_true, h.din]
  · unfold wrDataMask
    rw [h.intRegEn, if_neg Bool.false_ne_true, h.dataMask]

/-- **A write goes on.** -/
theorem Writing.continue (h : c.Writing s p) (hen : x.en = true) (hmore : 1 < p.left) :
    (c.next x).Writing (s.next writeCycles x.write) { p with left := p.left - 1 } := by
  have hlt := h.lt
  have hnext : s.next writeCycles x.write = ⟨s.entries, some { p with left := p.left - 1 }⟩ := by
    unfold SlowTable.next SlowTable.current
    rw [h.writing]
    dsimp only
    rw [if_neg (by omega)]
  have hend : c.endNextWrite = false := by
    rw [h.endNextWrite, decide_eq_false (by omega)]
  have hcount : (c.wrCount == 1) = decide (p.left - 1 = 1) ∧ c.wrCount ≠ 0 ∧
      c.wrCount - 1 = BitVec.ofNat 4 (p.left - 1 - 1) := by
    rw [h.wrCount]
    generalize p.left = l at hmore hlt
    interval_cases l <;> decide
  rw [hnext]
  refine ⟨rfl, by dsimp only; omega, by dsimp only; omega, ?_, ?_, ?_, ?_, ?_, ?_, ?_,
    fun i hi => ?_, fun i hi t => ?_⟩
  · simp [next, nextBusy, hen, h.busy, hend]
  · change (if x.en then c.busy && c.wrCount == 1 else c.endNextWrite) = _
    rw [hen, if_pos rfl, h.busy, Bool.true_and, hcount.1]
  · simp [next, nextBusy, hen, h.busy, hend, h.intRegEn]
  · change (if x.en then c.nextCount x else c.wrCount) = _
    rw [hen, if_pos rfl, nextCount, h.busy, if_pos rfl, if_neg hcount.2.1, hcount.2.2]
  · simp [next, h.intRegEn, h.din]
  · simp [next, h.intRegEn, h.dataMask]
  · simp [next, h.intRegEn, h.wrAddr]
  · refine standsFor_next ?_ (h.words i hi)
    rw [h.wes hen, beq_eq_false_iff_ne]
    exact fun he => hi he.symm
  · have hshifted := h.shifted hen hi t
    rwa [show 16 - p.left + 1 = 16 - (p.left - 1) by omega] at hshifted

/-- **A write ends** with its entry. -/
theorem Writing.end (h : c.Writing s p) (hen : x.en = true) (hlast : p.left = 1) :
    (c.next x).Resting (s.next writeCycles x.write) := by
  have hnext : s.next writeCycles x.write =
      ⟨Function.update s.entries p.place (some p.entry), none⟩ := by
    unfold SlowTable.next SlowTable.current
    rw [h.writing]
    dsimp only
    rw [if_pos (by omega)]
  have hend : c.endNextWrite = true := by rw [h.endNextWrite, decide_eq_true hlast]
  have hcount : c.wrCount = 0 := by rw [h.wrCount, hlast]; rfl
  rw [hnext]
  refine ⟨rfl, ?_, ?_, ?_, ?_, fun i => ?_⟩
  · simp [next, nextBusy, hen, h.busy, hend]
  · simp [next, hen, h.busy, hcount]
  · simp [next, nextBusy, hen, h.busy, hend]
  · simp [next, nextCount, hen, h.busy, hcount]
  · change StandsFor _ (Function.update s.entries p.place (some p.entry) i.val)
    by_cases hi : i.val = p.place
    · rw [hi, Function.update_self]
      refine standsFor_of_shifted fun t _ => ?_
      have hshifted := h.shifted hen hi t
      rwa [hlast] at hshifted
    · rw [Function.update_of_ne hi]
      refine standsFor_next ?_ (h.words i hi)
      rw [h.wes hen, beq_eq_false_iff_ne]
      exact fun he => hi he.symm

/-- **One step** of the circuit is one of the table. -/
theorem Refines.step (h : c.Refines s) (x : CamIn n w) : (c.next x).Refines (camStep s x) := by
  unfold camStep
  cases hen : x.en with
  | false => rwa [if_neg Bool.false_ne_true, next_of_disabled hen]
  | true =>
    rw [if_pos rfl]
    obtain hrest | ⟨p, hw⟩ := h
    · cases hwe : x.we with
      | true => exact .inr ⟨_, hrest.begin hen hwe⟩
      | false => exact .inl (hrest.idle hen hwe)
    · rcases Nat.lt_or_eq_of_le hw.pos with hmore | hlast
      · exact .inr ⟨_, hw.continue hen hmore⟩
      · exact .inl (hw.end hen hlast.symm)

/-! ## What is seen -/

/-- **A line is up** where the entry that the table shows matches. -/
theorem Refines.lines (h : c.Refines s) (hen : x.en = true) (i : Fin depth) :
    c.lines x i =
      (s.shown writeCycles x.write i.val).any fun e => e.isMatch x.cmpDin x.cmpDataMask := by
  -- a word whose write enable is high shifts, and does not match
  have hwritten : ∀ {place : ℕ} {entry : Option (CamEntry n)},
      c.wes x i = (place == i.val) → (i.val ≠ place → StandsFor (c.srls i) entry) →
      c.lines x i = (if i.val = place then none else entry).any fun e =>
        e.isMatch x.cmpDin x.cmpDataMask := by
    intro place entry hwes hstands
    unfold CamRtl.lines
    by_cases hi : i.val = place
    · rw [if_pos hi, Option.any_none, hwes, hi, beq_self_eq_true, Bool.eq_false_iff]
      intro hmatch
      exact Bool.false_ne_true (wordMatch_iff.mp hmatch).1.symm
    · rw [if_neg hi, hwes, beq_eq_false_iff_ne.mpr fun he => hi he.symm]
      exact hstands hi _ _
  unfold SlowTable.shown SlowTable.current
  obtain hrest | ⟨p, hw⟩ := h
  · rw [hrest.writing]
    unfold CamIn.write
    cases hwe : x.we with
    | true =>
      refine hwritten ?_ fun _ => hrest.words i
      unfold CamRtl.wes wren wrAddrInt
      rw [hen, hwe, hrest.intRegEn, if_pos rfl]
      rfl
    | false =>
      have hwes : c.wes x i = false := by
        unfold CamRtl.wes wren
        rw [hwe, hrest.busy]
        simp
      unfold CamRtl.lines
      rw [hwes]
      exact hrest.words i _ _
  · rw [hw.writing]
    exact hwritten (hw.wes hen i) (hw.words i)

/-- `BUSY` is up in the cycles of a write but the first. -/
theorem Refines.busy (h : c.Refines s) : c.busy = s.writing.isSome := by
  obtain hrest | ⟨p, hw⟩ := h
  · rw [hrest.busy, hrest.writing]
    rfl
  · rw [hw.busy, hw.writing]
    rfl

/-- **The answer** is there one cycle later. -/
theorem Refines.answer (h : c.Refines s) (hw : 0 < w) (hdepth : depth ≤ 2 ^ w)
    (hen : x.en = true) :
    (c.next x).matchInt = (camAnswer depth s x).isSome ∧
      (c.next x).matchAddrBinInt =
        ((camAnswer depth s x).map fun k => BitVec.ofNat w k.val).getD (BitVec.allOnes w) := by
  have hlines : c.lines x = fun k : Fin depth =>
      (s.shown writeCycles x.write k.val).any fun e => e.isMatch x.cmpDin x.cmpDataMask :=
    funext fun i => h.lines hen i
  have henc := @matchEnc_find? w depth (c.lines x) hw hdepth
  unfold next
  rw [hen]
  unfold camAnswer
  rw [← hlines]
  exact henc

/-! ## Runs -/

/-- **Every run of the circuit is one of the table.** -/
theorem refines_run (h : c.Refines s) (ports : ℕ → CamIn n w) (t : ℕ) :
    (c.run ports t).Refines (camTable s ports t) := by
  induction t with
  | zero => exact h
  | succ t ih => exact ih.step (ports t)

/-- A disabled cycle of a run. -/
theorem run_of_disabled {ports : ℕ → CamIn n w} {t : ℕ} (hen : (ports t).en = false) :
    c.run ports (t + 1) = c.run ports t := next_of_disabled hen

/-- **The CAM is a table whose writes take sixteen cycles**: from the words of
a file and under any ports, `BUSY` is up after the first cycle of a write,
and an enabled cycle finds the first place that matches and is not being
written. A disabled one changes nothing. The words are those of one block. -/
theorem finds_first (heven : n % 2 = 0) (hw : 0 < w) (hdepth : depth ≤ 2 ^ w)
    (_hblock : depth ≤ 256) (init : Fin depth → ℕ → StdLogic) (ports : ℕ → CamIn n w) (t : ℕ) :
    ((initial init).run ports t).busy = (camTable (camStart n init) ports t).writing.isSome ∧
      ((ports t).en = true →
        ((initial init).run ports (t + 1)).matchInt =
            (camAnswer depth (camTable (camStart n init) ports t) (ports t)).isSome ∧
          ((initial init).run ports (t + 1)).matchAddrBinInt =
            ((camAnswer depth (camTable (camStart n init) ports t) (ports t)).map
              fun k => BitVec.ofNat w k.val).getD (BitVec.allOnes w)) ∧
      ((ports t).en = false →
        (initial init).run ports (t + 1) = (initial init).run ports t) := by
  have h := refines_run (refines_initial heven init) ports t
  exact ⟨h.busy, fun hen => h.answer hw hdepth hen, run_of_disabled⟩

/-- One write, to place 1 in the first cycle, and the same search in all. -/
def portsWriteOnce (t : ℕ) : CamIn 2 2 where
  en := true
  we := t = 0
  wrAddr := 1
  din := 0b10
  dataMask := 0b01
  cmpDin := 0b11
  cmpDataMask := 0

/-- Three words that match nothing. -/
def fileUndefined (_ : Fin 3) (_ : ℕ) : StdLogic := .u

/-- The entry is found sixteen cycles after its write began. -/
theorem finds_first_writtenOnce :
    ((initial fileUndefined).run portsWriteOnce 16).matchInt = false ∧
      ((initial fileUndefined).run portsWriteOnce 17).matchInt = true ∧
      ((initial fileUndefined).run portsWriteOnce 17).matchAddrBinInt = 1 := by
  have heven : 2 % 2 = 0 := rfl
  have before :=
    (finds_first heven (by decide) (by decide) (by decide) fileUndefined portsWriteOnce 15).2.1 rfl
  have after :=
    (finds_first heven (by decide) (by decide) (by decide) fileUndefined portsWriteOnce 16).2.1 rfl
  rw [before.1, after.1, after.2]
  decide +kernel

end CamRtl

end Hw

end FlowBlaze
