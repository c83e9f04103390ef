import FlowBlaze.Hw.Tcam
import Mathlib.Data.Fintype.Pi
/-!
# The configuration registers — `FlowBlaze_core.vhd`

One clocked process writes the registers of the core. The host writes
them over the bus, one word in a cycle with `write_enable`; a packet
leaves its results in the global registers in the cycle of `startd(8)`.
The process has a branch for a cycle with the one and a branch for a cycle
with the other, and none for a cycle with both.

`RegisterFile.clock` is one clock edge, `RegisterFile.updated` what a cycle
asks for.
-/

namespace FlowBlaze

namespace Hw

/-- The ports of `REG_WRITE_PROCESS` in a cycle. -/
structure RegIn where
  aresetn : Bool
  writeEnable : Bool
  address : BitVec 32
  wdata : BitVec 32
  startd8 : Bool
  aluGr : Fin 4 → BitVec 32

/-- The registers: the masks and the words of the tables by their words,
from the low end, `CR1` to `CR4`, the offsets and lengths of the three
operands, and `GR0` to `GR3`. -/
structure RegisterFile where
  clearCountCollision : Bool
  regTest0 : BitVec 32
  pause : BitVec 32
  tcamDataIn : Fin 8 → BitVec 32
  tcamMask : Fin 8 → BitVec 32
  htDataIn : Fin 8 → BitVec 32
  cr : Fin 4 → BitVec 32
  lookupScope : BitVec 32
  updateScope : BitVec 32
  fsmScope : BitVec 32
  gr : Fin 4 → BitVec 32
  maskLookup : Fin 4 → BitVec 32
  maskUpdate : Fin 4 → BitVec 32
  offO : Fin 3 → BitVec 6
  lenO : Fin 3 → BitVec 2
deriving DecidableEq

namespace RegisterFile

/-- After a reset. -/
def initial : RegisterFile where
  clearCountCollision := false
  regTest0 := 0
  pause := 0
  tcamDataIn _ := 0
  tcamMask _ := 0
  htDataIn _ := 0
  cr _ := 0
  lookupScope := 0x0000001A
  updateScope := 0x0000001A
  fsmScope := 0x0000002E
  gr _ := 0x00000000
  maskLookup k := if k = 0 then 0xffffffff else 0
  maskUpdate k := if k = 0 then 0xffffffff else 0
  offO k := if k = 2 then 0b010000 else 0b101000
  lenO k := if k = 2 then 0b01 else 0b11

/-- A word of an array of registers, at its address. -/
def wordAt (base stride : BitVec 32) (k : ℕ) : BitVec 32 := base + stride * BitVec.ofNat 32 k

/-- The address of a global register. -/
def grAddress (k : Fin 4) : BitVec 32 := wordAt 0x80000100 4 k

/-- The address of a word of the row to be written to the hash tables, in
any row. -/
def isHtWord (address : BitVec 32) (k : Fin 8) : Bool :=
  address.extractLsb' 20 12 == 0x801 && address.extractLsb' 2 3 == BitVec.ofNat 3 k

variable (s : RegisterFile)

/-- **A write of a register.** -/
def write (address wdata : BitVec 32) : RegisterFile where
  clearCountCollision := if address = 0x80200004 then true else s.clearCountCollision
  regTest0 := if address = 0x80000008 then wdata else s.regTest0
  pause := if address = 0x80000090 then wdata else s.pause
  tcamDataIn k :=
    if address.extractLsb' 16 16 == 0x8001 && address.extractLsb' 0 6 == BitVec.ofNat 6 (4 * k)
    then wdata else s.tcamDataIn k
  tcamMask k :=
    if address.extractLsb' 16 16 == 0x8001 &&
      address.extractLsb' 0 6 == BitVec.ofNat 6 (32 + 4 * k)
    then wdata else s.tcamMask k
  htDataIn k := if isHtWord address k then wdata else s.htDataIn k
  cr k := if address = wordAt 0x80ffff48 4 k then wdata else s.cr k
  lookupScope := if address = 0x80000010 then wdata else s.lookupScope
  updateScope := if address = 0x80000020 then wdata else s.updateScope
  fsmScope := if address = 0x80000050 then wdata else s.fsmScope
  gr k := if address = grAddress k then wdata else s.gr k
  maskLookup k := if address = wordAt 0x80000030 4 k then wdata else s.maskLookup k
  maskUpdate k := if address = wordAt 0x80000040 4 k then wdata else s.maskUpdate k
  offO k := if address = wordAt 0x80000060 0x10 k then wdata.extractLsb' 0 6 else s.offO k
  lenO k := if address = wordAt 0x80000060 0x10 k then wdata.extractLsb' 6 2 else s.lenO k

/-- The results of a packet. -/
def store (aluGr : Fin 4 → BitVec 32) : RegisterFile := { s with gr := aluGr }

/-- `clear_count_collision` is a pulse. -/
def noPulse : RegisterFile := { s with clearCountCollision := false }

/-- **A clock edge** of `REG_WRITE_PROCESS`. -/
def clock (p : RegIn) : RegisterFile :=
  if !p.aresetn then initial
  else if !p.writeEnable && p.startd8 then s.noPulse.store p.aluGr
  else if p.writeEnable && !p.startd8 then s.noPulse.write p.address p.wdata
  else s.noPulse

/-- The state in a cycle. -/
def run (s : RegisterFile) (ports : ℕ → RegIn) : ℕ → RegisterFile
  | 0 => s
  | t + 1 => (run s ports t).clock (ports t)

/-! ## What is asked for -/

/-- **What a cycle asks for**: the results of its packet are stored, and
the host's word is written, to a global register also over the packet's
result. -/
def updated (p : RegIn) : RegisterFile :=
  let s := s.noPulse
  let s := if p.startd8 then s.store p.aluGr else s
  if p.writeEnable then s.write p.address p.wdata else s

/-- A cycle that asks for nothing new: the register holds the word
already, and the global registers those of the packet's results that the
write leaves. -/
def NothingNew (p : RegIn) : Prop :=
  s.noPulse.write p.address p.wdata = s.noPulse ∧
    ∀ k, p.address ≠ grAddress k → p.aluGr k = s.gr k

variable {s} {p : RegIn} {address wdata : BitVec 32} {aluGr : Fin 4 → BitVec 32}

/-- Outside of a cycle with both, the process does what is asked for. -/
theorem clock_eq_updated (hreset : p.aresetn = true)
    (h : ¬ (p.writeEnable = true ∧ p.startd8 = true)) : s.clock p = s.updated p := by
  unfold clock updated
  cases hw : p.writeEnable <;> cases hd : p.startd8
  · simp [hreset]
  · simp [hreset]
  · simp [hreset]
  · exact absurd ⟨hw, hd⟩ h

/-- In a cycle with both it does nothing. -/
theorem clock_of_both (hreset : p.aresetn = true) (hw : p.writeEnable = true)
    (hd : p.startd8 = true) : s.clock p = s.noPulse := by
  unfold clock
  simp [hreset, hw, hd]

/-- What a write after the results of a packet leaves in the global
registers. -/
theorem gr_write_store (k : Fin 4) : ((s.store aluGr).write address wdata).gr k =
    if address = grAddress k then wdata else aluGr k := rfl

/-- The results of a packet change the global registers only. -/
theorem write_store_eq_iff {s' : RegisterFile} :
    (s.store aluGr).write address wdata = s' ↔
      (s.store s'.gr).write address wdata = s' ∧
        ∀ k, address ≠ grAddress k → aluGr k = s'.gr k := by
  constructor
  · rintro rfl
    refine ⟨?_, fun k hk => (if_neg hk).symm⟩
    have hgr : ((s.store ((s.store aluGr).write address wdata).gr).write address wdata).gr =
        ((s.store aluGr).write address wdata).gr := by
      funext k
      rw [gr_write_store, gr_write_store]
      split <;> rfl
    exact congrArg (fun gr => { (s.store aluGr).write address wdata with gr := gr }) hgr
  · rintro ⟨hwrite, halu⟩
    have hgr : ((s.store aluGr).write address wdata).gr =
        ((s.store s'.gr).write address wdata).gr := by
      funext k
      rw [gr_write_store, gr_write_store]
      by_cases hk : address = grAddress k
      · rw [if_pos hk, if_pos hk]
      · rw [if_neg hk, if_neg hk, halu k hk]
    exact (congrArg (fun gr => { (s.store aluGr).write address wdata with gr := gr }) hgr).trans
      hwrite

/-- **A cycle with both asks for nothing** exactly if nothing is new. -/
theorem updated_eq_noPulse_iff (hw : p.writeEnable = true) (hd : p.startd8 = true) :
    s.updated p = s.noPulse ↔ s.NothingNew p := by
  unfold updated NothingNew
  rw [hw, hd, if_pos rfl, if_pos rfl]
  exact write_store_eq_iff

/-- **No update is lost**: in every cycle out of reset the registers become
what the cycle asks for. -/
def LosesNone (s : RegisterFile) (ports : ℕ → RegIn) : Prop :=
  ∀ t, (ports t).aresetn = true → run s ports (t + 1) = (run s ports t).updated (ports t)

/-- **When no update is lost**: exactly if the host never writes in the
cycle in which a packet leaves its results, but where neither brings
anything new. -/
theorem losesNone_iff (s : RegisterFile) (ports : ℕ → RegIn) :
    LosesNone s ports ↔ ∀ t, (ports t).aresetn = true → (ports t).writeEnable = true →
      (ports t).startd8 = true → (run s ports t).NothingNew (ports t) := by
  refine forall_congr' fun t => forall_congr' fun hreset => ?_
  change (run s ports t).clock (ports t) = _ ↔ _
  by_cases hboth : (ports t).writeEnable = true ∧ (ports t).startd8 = true
  · obtain ⟨hw, hd⟩ := hboth
    rw [clock_of_both hreset hw hd, eq_comm, updated_eq_noPulse_iff hw hd]
    exact ⟨fun h _ _ => h, fun h => h hw hd⟩
  · exact iff_of_true (clock_eq_updated hreset hboth) fun hw hd => absurd ⟨hw, hd⟩ hboth

/-- The host pauses the flow table in the cycle in which a packet leaves 1
in `GR0`; nothing comes after. -/
def pauseAtPacket (t : ℕ) : RegIn where
  aresetn := true
  writeEnable := t = 0
  address := 0x80000090
  wdata := 1
  startd8 := t = 0
  aluGr k := if k = 0 then 1 else 0

/-- **Both updates are lost** where they meet: neither the word of the host
nor the result of the packet is there after the cycle. -/
theorem not_losesNone : ¬ LosesNone initial pauseAtPacket := by
  intro h
  have hpause := congrArg pause (h 0 rfl)
  exact absurd hpause (by decide)

end RegisterFile

end Hw

end FlowBlaze
