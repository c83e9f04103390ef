import FlowBlaze.Common.Queue
import FlowBlaze.Hw.FlowBlazeCore
/-!
# What the host has written

The registers, TCAMs and memories that the host writes are the program of the
core. A write goes to the register or the word that its address belongs to;
some addresses belong to several. While no packet leaves its results, the
program of a core is what the writes make of it, one after the other.
-/

namespace FlowBlaze

namespace Hw

open Common

/-- **A program.** `clear_count_collision` is a pulse and no part of it. -/
structure Program where
  regs : RegisterFile
  cam1 : Fin 8 → Option (BitVec 128 × BitVec 128)
  cam2 : Fin 32 → Option (BitVec 120 × BitVec 120)
  ram1 : Fin 32 → BitVec 32
  ram2 : Fin 32 → BitVec 32
  ram3 : Fin 32 → BitVec 32
  ram4 : Fin 32 → BitVec 32
  mem1 : BitVec 8 → Fin 16 → BitVec 32

/-- A word of a RAM is written. -/
def ramWrite (page : BitVec 24) (address wdata : BitVec 32) (ram : Fin 32 → BitVec 32)
    (i : Fin 32) : BitVec 32 :=
  if (address.extractLsb' 8 24 == page && address.extractLsb' 7 1 == 0) &&
    address.extractLsb' 2 5 == BitVec.ofNat 5 i.val
  then wdata else ram i

/-- The low four words of the registers for the TCAMs. -/
def low128 (words : Fin 8 → BitVec 32) : BitVec 128 := words 3 ++ words 2 ++ words 1 ++ words 0

/-- An entry of the first TCAM is written. -/
def cam1Write (regs : RegisterFile) (address : BitVec 32)
    (cam1 : Fin 8 → Option (BitVec 128 × BitVec 128)) (i : Fin 8) :
    Option (BitVec 128 × BitVec 128) :=
  if (address.extractLsb' 12 20 == 0x80010 && address.extractLsb' 9 3 == 0b000 &&
      address.extractLsb' 0 6 == 0b111100) && address.extractLsb' 6 3 == BitVec.ofNat 3 i.val
  then some (low128 regs.tcamDataIn, low128 regs.tcamMask) else cam1 i

/-- An entry of the second TCAM is written. -/
def cam2Write (regs : RegisterFile) (address : BitVec 32)
    (cam2 : Fin 32 → Option (BitVec 120 × BitVec 120)) (i : Fin 32) :
    Option (BitVec 120 × BitVec 120) :=
  if cam2We address && address.extractLsb' 6 5 == BitVec.ofNat 5 i.val
  then some (low120 regs.tcamDataIn, low120 regs.tcamMask) else cam2 i

/-- A word of the command memory is written. -/
def mem1Write (address wdata : BitVec 32) (mem1 : BitVec 8 → Fin 16 → BitVec 32) (a : BitVec 8)
    (w : Fin 16) : BitVec 32 :=
  if (address.extractLsb' 16 16 == 0x8003 && address.extractLsb' 14 2 == 0b00) &&
    (address.extractLsb' 2 12).extractLsb' 4 8 == a &&
    (address.extractLsb' 2 12).extractLsb' 0 4 == BitVec.ofNat 4 w.val
  then wdata else mem1 a w

namespace Program

variable (q : Program)

/-- **A write.** -/
def write (address wdata : BitVec 32) : Program where
  regs := (q.regs.write address wdata).noPulse
  cam1 := cam1Write q.regs address q.cam1
  cam2 := cam2Write q.regs address q.cam2
  ram1 := ramWrite 0x800200 address wdata q.ram1
  ram2 := ramWrite 0x800210 address wdata q.ram2
  ram3 := ramWrite 0x800220 address wdata q.ram3
  ram4 := ramWrite 0x800230 address wdata q.ram4
  mem1 := mem1Write address wdata q.mem1

/-- Some writes, one after the other. -/
def load (writes : List (BitVec 32 × BitVec 32)) : Program :=
  writes.foldl (fun q w => q.write w.1 w.2) q

@[simp] theorem load_nil : q.load [] = q := rfl

theorem load_append (ws ws' : List (BitVec 32 × BitVec 32)) :
    q.load (ws ++ ws') = (q.load ws).load ws' := List.foldl_append

end Program

namespace Controller

/-- No packet is on its way. -/
structure Silent (c : Controller) : Prop where
  currState : c.currState = .idle
  start : c.start = false
  startd : ∀ k, c.startd k = false

/-- So it stays until one comes. -/
theorem Silent.next {c : Controller} (h : c.Silent) {p : AxisIn} (hp : p.tvalid = false) :
    (c.next p).Silent := by
  have hstep : p.step = false := by
    unfold AxisIn.step
    rw [hp, Bool.false_and]
  refine ⟨?_, ?_, fun k => ?_⟩
  · unfold Controller.next nextState
    rw [h.currState, hstep]
    rfl
  · unfold Controller.next
    rw [hstep, Bool.and_false]
  · unfold Controller.next
    dsimp only
    split
    · split
      · exact h.start
      · exact h.startd _
    · exact h.startd k

end Controller

namespace FlowBlazeReg

/-- **The program of a core.** -/
def program (σ : FlowBlazeReg) : Program where
  regs := σ.regs.noPulse
  cam1 := σ.cam1
  cam2 := σ.cam2
  ram1 := σ.ram1
  ram2 := σ.ram2
  ram3 := σ.ram3
  ram4 := σ.ram4
  mem1 := σ.pipealu.mem1

/-- The write that the host makes in a cycle, if it makes one. -/
def delivered (g : FlowBlazeGenerics) (σ : FlowBlazeReg) (ports : ℕ → FlowBlazeIn) (t : ℕ) :
    List (BitVec 32 × BitVec 32) :=
  if (σ.run g ports t).writeEnable then [((σ.run g ports t).address, (ports t).wdata)] else []

variable {g : FlowBlazeGenerics} {σ : FlowBlazeReg} {ports : ℕ → FlowBlazeIn} {x : FlowBlazeIn}

/-- Without a write the program stays, but for the global registers that a
packet leaves. -/
theorem program_next_of_quiet (hquiet : σ.writeEnable = false)
    (hgr : σ.way.controller.startd place8 = true →
      ∀ l, (σ.pipealu.sh3.op3GR l).getLsbD 7 = false) :
    (σ.next g x).program = σ.program := by
  have hregs : (σ.regs.clock (σ.regIn x)).noPulse = σ.regs.noPulse := by
    unfold RegisterFile.clock regIn
    rw [hquiet]
    cases hstart : σ.way.controller.startd place8 with
    | false => rfl
    | true =>
      have hkept : σ.pipealu.gr (σ.pipealuIn x) = σ.regs.gr := by
        funext l
        unfold PipealuReg.gr
        rw [hgr hstart l]
        rfl
      rw [hkept]
      rfl
  have hram : ∀ page ram, σ.writeRam x page ram = ram := by
    intro page ram
    funext i
    unfold writeRam
    rw [hquiet]
    rfl
  have hcam1 : σ.nextCam1 = σ.cam1 := by
    funext i
    unfold nextCam1 cam1We
    rw [hquiet]
    rfl
  have hcam2 : σ.nextCam2 = σ.cam2 := by
    funext i
    unfold nextCam2
    rw [hquiet]
    rfl
  have hmem : σ.pipealu.writeMem (σ.pipealuIn x) = σ.pipealu.mem1 := by
    funext a w
    unfold PipealuReg.writeMem pipealuIn
    rw [hquiet]
    rfl
  change Program.mk (σ.regs.clock (σ.regIn x)).noPulse σ.nextCam1 σ.nextCam2
    (σ.writeRam x 0x800200 σ.ram1) (σ.writeRam x 0x800210 σ.ram2) (σ.writeRam x 0x800220 σ.ram3)
    (σ.writeRam x 0x800230 σ.ram4) (σ.pipealu.writeMem (σ.pipealuIn x)) = _
  rw [hregs, hram, hram, hram, hram, hcam1, hcam2, hmem]
  rfl

/-- **A write is made** in a cycle in which no packet leaves its results. -/
theorem program_next_of_write (hwrite : σ.writeEnable = true)
    (hidle : σ.way.controller.startd place8 = false) :
    (σ.next g x).program = σ.program.write σ.address x.wdata := by
  have hregs : (σ.regs.clock (σ.regIn x)).noPulse =
      (σ.regs.noPulse.write σ.address x.wdata).noPulse := by
    unfold RegisterFile.clock regIn
    rw [hwrite, hidle]
    rfl
  have hram : ∀ page ram, σ.writeRam x page ram = ramWrite page σ.address x.wdata ram := by
    intro page ram
    funext i
    unfold writeRam isRamAddress ramWrite
    rw [hwrite, Bool.true_and]
  have hcam1 : σ.nextCam1 = cam1Write σ.regs.noPulse σ.address σ.cam1 := by
    funext i
    unfold nextCam1 cam1We cam1Write
    rw [hwrite, Bool.true_and]
    rfl
  have hcam2 : σ.nextCam2 = cam2Write σ.regs.noPulse σ.address σ.cam2 := by
    funext i
    unfold nextCam2 cam2Write
    rw [hwrite, Bool.true_and]
    rfl
  have hmem : σ.pipealu.writeMem (σ.pipealuIn x) =
      mem1Write σ.address x.wdata σ.pipealu.mem1 := by
    funext a w
    unfold PipealuReg.writeMem pipealuIn mem1Write
    rw [hwrite, Bool.true_and]
  change Program.mk (σ.regs.clock (σ.regIn x)).noPulse σ.nextCam1 σ.nextCam2
    (σ.writeRam x 0x800200 σ.ram1) (σ.writeRam x 0x800210 σ.ram2) (σ.writeRam x 0x800220 σ.ram3)
    (σ.writeRam x 0x800230 σ.ram4) (σ.pipealu.writeMem (σ.pipealuIn x)) = _
  rw [hregs, hram, hram, hram, hram, hcam1, hcam2, hmem]
  rfl

/-- **The program is what the host has written**, while no packet leaves its
results. -/
theorem program_run {n : ℕ}
    (hidle : ∀ t < n, (σ.run g ports t).way.controller.startd place8 = false) :
    (σ.run g ports n).program = σ.program.load (before (σ.delivered g ports) n) := by
  induction n with
  | zero => rfl
  | succ n ih =>
    have hbefore := ih fun t ht => hidle t (Nat.lt_succ_of_lt ht)
    have hnot := hidle n (Nat.lt_succ_self n)
    rw [before_succ, Program.load_append, ← hbefore]
    unfold delivered
    cases hwrite : (σ.run g ports n).writeEnable with
    | true => exact program_next_of_write hwrite hnot
    | false =>
      refine program_next_of_quiet hwrite fun hstart => ?_
      rw [hnot] at hstart
      cases hstart

end FlowBlazeReg

end Hw

end FlowBlaze
